import Mathlib.Data.List.Nodup
import TaskLoom.Proofs.Json.Printing
import TaskLoom.Settings.Text

/-!
# Settings and their texts

A text may give any part of the settings, in any order and among fields that are none.  What it
gives is a `Settings.Partial`; `complete` fills it up with the defaults, on both levels, and
`WrittenAs` says which JSON objects give it.  An object is described by its fields up to their
order (`IsRecord`), so that nothing depends on where a field stands or what stands beside it.

Printed settings give all fields in their own order, and so are the case in which no default is
needed.

## Main results

* `Json.IsRecord.record_eq` — the values of a record are found wherever they stand.
* `Settings.Partial.WrittenAs.ofJson_eq` — what is not given takes its default.
* `Settings.parse_writings` — printed settings are read back, and partial ones are completed.
-/

namespace TaskLoom

/-! ## Records in any order -/

namespace Json

/-- The fields of a record that have a value. -/
def given (names : List String) (values : List (Option Json)) : List (String × Json) :=
  (names.zip values).filterMap fun (name, value) => value.map (name, ·)

/-- An object with the given values, in any order and among other fields. -/
inductive IsRecord (names : List String) (values : List (Option Json)) : Json → Prop where
  | mk {fields others : List (String × Json)} (hothers : ∀ other ∈ others, other.1 ∉ names)
      (hfields : fields.Perm (given names values ++ others)) :
      IsRecord names values (.object (fields.map (Prod.map some id)))

/-- An object without other fields. -/
theorem isRecord_given (names : List String) (values : List (Option Json)) :
    IsRecord names values (.object ((given names values).map (Prod.map some id))) := by
  refine .mk (fun other hother => absurd hother List.not_mem_nil) ?_
  rw [List.append_nil]

variable {names : List String} {values : List (Option Json)}

theorem given_cons (name : String) (names : List String) (value : Option Json)
    (values : List (Option Json)) :
    given (name :: names) (value :: values) =
      (value.map (name, ·)).toList ++ given names values := by
  cases value <;> rfl

theorem fst_mem_of_mem_given {field : String × Json} (h : field ∈ given names values) :
    field.1 ∈ names := by
  obtain ⟨⟨name, value⟩, hpair, hfield⟩ := List.mem_filterMap.1 h
  obtain ⟨json, -, rfl⟩ := Option.map_eq_some_iff.1 hfield
  exact (List.of_mem_zip hpair).1

/-- The given fields of one name are its value, if it has one. -/
theorem filter_given (hnames : names.Nodup) {name : String} {value : Option Json}
    (h : (name, value) ∈ names.zip values) :
    (given names values).filter (·.1 == name) = (value.map (name, ·)).toList := by
  induction names generalizing values with
  | nil => cases h
  | cons first names ih =>
    obtain ⟨hfirst, hnames⟩ := List.nodup_cons.1 hnames
    cases values with
    | nil => cases h
    | cons v values =>
      rw [given_cons, List.filter_append]
      rcases List.mem_cons.1 h with heq | h
      · obtain ⟨rfl, rfl⟩ := Prod.mk.inj heq
        have hrest : (given names values).filter (·.1 == name) = [] := by
          refine List.filter_eq_nil_iff.2 fun field hfield hname => hfirst ?_
          rw [← eq_of_beq hname]
          exact fst_mem_of_mem_given hfield
        rw [hrest, List.append_nil]
        cases value <;> simp
      · have hne : first ≠ name := by
          rintro rfl
          exact hfirst (List.of_mem_zip h).1
        rw [ih hnames h]
        cases v <;> simp [hne]

theorem single_of_perm (hnames : names.Nodup) {fields others : List (String × Json)}
    (hothers : ∀ other ∈ others, other.1 ∉ names)
    (hfields : fields.Perm (given names values ++ others)) {name : String} {value : Option Json}
    (h : (name, value) ∈ names.zip values) :
    single (fields.map (Prod.map some id)) name = some value := by
  have hnone : others.filter (·.1 == name) = [] := by
    refine List.filter_eq_nil_iff.2 fun other hother hname => hothers other hother ?_
    rw [eq_of_beq hname]
    exact (List.of_mem_zip h).1
  have hperm := hfields.filter (·.1 == name)
  rw [List.filter_append, filter_given hnames h, hnone, List.append_nil] at hperm
  have hkeys : (fun field : Option String × Json => field.1 == some name) ∘ Prod.map some id =
      fun field : String × Json => field.1 == name := by
    funext field
    simp
  unfold single
  rw [List.filter_map, hkeys]
  -- at most one field is left, so there is no order to choose
  cases value with
  | none => rw [List.perm_nil.1 hperm]; rfl
  | some json => rw [List.perm_singleton.1 hperm]; rfl

theorem mapM_eq_of_zip {f : String → Option (Option Json)} (hlength : names.length = values.length)
    (h : ∀ pair ∈ names.zip values, f pair.1 = some pair.2) : names.mapM f = some values := by
  induction names generalizing values with
  | nil =>
    rw [List.length_eq_zero_iff.1 hlength.symm]
    rfl
  | cons name names ih =>
    cases values with
    | nil => cases hlength
    | cons value values =>
      obtain ⟨hfirst, hrest⟩ := List.forall_mem_cons.1 h
      rw [List.mapM_cons, hfirst, ih (Nat.succ.inj hlength) hrest]
      rfl

/-- The values of a record are found wherever they stand. -/
theorem IsRecord.record_eq (hnames : names.Nodup) (hlength : names.length = values.length)
    {json : Json} (h : json.IsRecord names values) : json.record names = some values := by
  obtain @⟨fields, others, hothers, hfields⟩ := h
  have htexts : (fields.map (Prod.map some id)).all (·.1.isSome) = true := by simp
  rw [record, if_pos htexts]
  exact mapM_eq_of_zip hlength fun pair hpair => single_of_perm hnames hothers hfields hpair

/-- A number that is given, or else its default. -/
theorem orDefault_word {default : Nat} {number : Option Nat}
    (h : number.getD default < Word.bound) :
    orDefault word default (number.map ofNat) = some (number.getD default) := by
  cases number with
  | none => rfl
  | some n => exact if_pos h

end Json

/-! ## Settings that are given in part -/

/-- Some of the prefetch limits. -/
structure PrefetchLimits.Partial where
  constLevels : Option Nat := none
  activationLevels : Option Nat := none
  timeWindow : Option Nat := none

/-- Some of the settings.  Prefetching can be left open, turned off, or given limits, which may
be given in part themselves. -/
structure Settings.Partial where
  cmxSize : Option Nat := none
  barrierCount : Option Nat := none
  slotsPerBarrier : Option Nat := none
  alignment : Option Nat := none
  ordering : Option OrderingPolicy := none
  prefetch : Option (Option PrefetchLimits.Partial) := none

namespace PrefetchLimits

/-- The limits fit words. -/
structure Fits (limits : PrefetchLimits) : Prop where
  constLevels_lt : limits.constLevels < Word.bound
  activationLevels_lt : limits.activationLevels < Word.bound
  timeWindow_lt : limits.timeWindow < Word.bound

namespace Partial

/-- Fills up with the defaults. -/
def complete (p : Partial) : PrefetchLimits :=
  let initial : PrefetchLimits := {}
  { constLevels := p.constLevels.getD initial.constLevels
    activationLevels := p.activationLevels.getD initial.activationLevels
    timeWindow := p.timeWindow.getD initial.timeWindow }

/-- The limits as the values of a record. -/
def values (p : Partial) : List (Option Json) :=
  [p.constLevels.map .ofNat, p.activationLevels.map .ofNat, p.timeWindow.map .ofNat]

/-- Any object that gives these limits and no others. -/
def WrittenAs (p : Partial) (json : Json) : Prop :=
  json.IsRecord fieldNames p.values

theorem WrittenAs.ofJson_eq {p : Partial} {json : Json} (h : p.WrittenAs json)
    (hfits : p.complete.Fits) : ofJson json = some p.complete := by
  have hrecord := Json.IsRecord.record_eq (by decide) rfl h
  unfold ofJson
  rw [hrecord]
  simp only [values, Json.orDefault_word hfits.constLevels_lt,
    Json.orDefault_word hfits.activationLevels_lt, Json.orDefault_word hfits.timeWindow_lt]
  rfl

end Partial

/-- All limits. -/
def whole (limits : PrefetchLimits) : Partial where
  constLevels := some limits.constLevels
  activationLevels := some limits.activationLevels
  timeWindow := some limits.timeWindow

theorem writtenAs_toJson (limits : PrefetchLimits) : limits.whole.WrittenAs limits.toJson :=
  Json.isRecord_given fieldNames limits.whole.values

theorem proper_toJson (limits : PrefetchLimits) : limits.toJson.Proper := by
  refine .object fun field hfield => ?_
  simp only [List.mem_cons, List.not_mem_nil, or_false] at hfield
  rcases hfield with rfl | rfl | rfl <;> exact .numeral (.natural _)

end PrefetchLimits

/-- The name of a policy is read as that policy. -/
theorem OrderingPolicy.ofName_name (policy : OrderingPolicy) :
    ofName policy.name = some policy := by
  cases policy <;> rfl

namespace Settings

/-- All numbers fit words. -/
structure Fits (s : Settings) : Prop where
  cmxSize_lt : s.cmxSize < Word.bound
  barrierCount_lt : s.barrierCount < Word.bound
  slotsPerBarrier_lt : s.slotsPerBarrier < Word.bound
  alignment_lt : s.alignment < Word.bound
  prefetch_fits : ∀ limits ∈ s.prefetch, limits.Fits

namespace Partial

/-- Fills up with the defaults.  Limits that are given in part are filled up with the default
limits, and prefetching that is turned off stays off. -/
def complete (p : Partial) : Settings :=
  let initial : Settings := {}
  { cmxSize := p.cmxSize.getD initial.cmxSize
    barrierCount := p.barrierCount.getD initial.barrierCount
    slotsPerBarrier := p.slotsPerBarrier.getD initial.slotsPerBarrier
    alignment := p.alignment.getD initial.alignment
    ordering := p.ordering.getD initial.ordering
    prefetch := (p.prefetch.map (·.map (·.complete))).getD initial.prefetch }

/-- The settings as the values of a record, with a value for the limits. -/
def values (p : Partial) (prefetch : Option Json) : List (Option Json) :=
  [p.cmxSize.map .ofNat, p.barrierCount.map .ofNat, p.slotsPerBarrier.map .ofNat,
    p.alignment.map .ofNat, p.ordering.map fun policy => .string (some policy.name), prefetch]

/-- How the choice of limits is written: not at all, as `null`, or as an object. -/
inductive PrefetchAs : Option (Option PrefetchLimits.Partial) → Option Json → Prop where
  | missing : PrefetchAs none none
  | off : PrefetchAs (some none) (some .null)
  | limits {limits : PrefetchLimits.Partial} {json : Json} (h : limits.WrittenAs json) :
      PrefetchAs (some (some limits)) (some json)

/-- Any object that gives these settings and no others. -/
def WrittenAs (p : Partial) (json : Json) : Prop :=
  ∃ prefetch, PrefetchAs p.prefetch prefetch ∧ json.IsRecord fieldNames (p.values prefetch)

theorem orDefault_ordering (ordering : Option OrderingPolicy) (default : OrderingPolicy) :
    Json.orDefault OrderingPolicy.ofJson default
      (ordering.map fun policy => .string (some policy.name)) = some (ordering.getD default) := by
  cases ordering with
  | none => rfl
  | some policy => exact policy.ofName_name

theorem PrefetchAs.orDefault_eq {choice : Option (Option PrefetchLimits.Partial)}
    {json : Option Json} (h : PrefetchAs choice json) {default : Option PrefetchLimits}
    (hfits : ∀ limits ∈ (choice.map (·.map (·.complete))).getD default, limits.Fits) :
    Json.orDefault PrefetchLimits.ofJson? default json =
      some ((choice.map (·.map (·.complete))).getD default) := by
  cases h with
  | missing => rfl
  | off => rfl
  | @limits limits json h =>
    have hlimits := h.ofJson_eq (hfits _ rfl)
    -- the limits are an object, so they are not taken for `null`
    obtain ⟨hothers, hfields⟩ := h
    show (PrefetchLimits.ofJson _).map some = _
    rw [hlimits]
    rfl

/-- What is given is read, and what is not given takes its default. -/
theorem WrittenAs.ofJson_eq {p : Partial} {json : Json} (h : p.WrittenAs json)
    (hfits : p.complete.Fits) : ofJson json = some p.complete := by
  obtain ⟨prefetch, hprefetch, hrecord⟩ := h
  have hvalues := Json.IsRecord.record_eq (by decide) rfl hrecord
  unfold ofJson
  rw [hvalues]
  simp only [values, Json.orDefault_word hfits.cmxSize_lt,
    Json.orDefault_word hfits.barrierCount_lt, Json.orDefault_word hfits.slotsPerBarrier_lt,
    Json.orDefault_word hfits.alignment_lt, orDefault_ordering,
    hprefetch.orDefault_eq hfits.prefetch_fits]
  rfl

end Partial

/-! ## Settings that are given in full -/

/-- All settings. -/
def whole (s : Settings) : Partial where
  cmxSize := some s.cmxSize
  barrierCount := some s.barrierCount
  slotsPerBarrier := some s.slotsPerBarrier
  alignment := some s.alignment
  ordering := some s.ordering
  prefetch := some (s.prefetch.map (·.whole))

/-- Settings that are given in full need no defaults. -/
theorem complete_whole (s : Settings) : s.whole.complete = s := by
  obtain ⟨_, _, _, _, _, _ | _⟩ := s <;> rfl

theorem writtenAs_toJson (s : Settings) : s.whole.WrittenAs s.toJson := by
  refine ⟨some (s.prefetch.elim .null PrefetchLimits.toJson), ?_, Json.isRecord_given _ _⟩
  unfold whole
  cases s.prefetch with
  | none => exact .off
  | some limits => exact .limits limits.writtenAs_toJson

theorem proper_toJson (s : Settings) : s.toJson.Proper := by
  refine .object fun field hfield => ?_
  simp only [List.mem_cons, List.not_mem_nil, or_false] at hfield
  rcases hfield with rfl | rfl | rfl | rfl | rfl | rfl
  · exact .numeral (.natural _)
  · exact .numeral (.natural _)
  · exact .numeral (.natural _)
  · exact .numeral (.natural _)
  · exact .string _
  · show (s.prefetch.elim .null PrefetchLimits.toJson).Proper
    cases s.prefetch with
    | none => exact .null
    | some limits => exact limits.proper_toJson

/-! ## Texts -/

/-- Settings are read back from the text they are printed as.  Any text of any object that gives
some of the settings, in any order and among other fields, is read as these settings with the
defaults for all others. -/
theorem parse_writings :
    (∀ s : Settings, s.Fits → parse s.text = some s) ∧
      ∀ (p : Partial) (json : Json) (text : String), p.complete.Fits → p.WrittenAs json →
        json.Element text.toList → parse text = some p.complete := by
  constructor
  · intro s hfits
    have hread : ofJson s.toJson = some s.whole.complete :=
      s.writtenAs_toJson.ofJson_eq (s.complete_whole.symm ▸ hfits)
    show (Json.parse (String.ofList s.toJson.print)).bind ofJson = some s
    rw [s.proper_toJson.parse_print, Option.bind_some, hread, complete_whole]
  · intro p json text hfits h htext
    show (Json.parse text).bind ofJson = some p.complete
    rw [htext.parse_eq, Option.bind_some, h.ofJson_eq hfits]

/-- Numbers at the end of the range, prefetching that is off, and an object with its fields in
another order, a nested one among them that is no setting, and limits that are given in part. -/
theorem parse_writings_shuffled :
    let s : Settings := { cmxSize := 2 ^ 64 - 1, ordering := .basic, prefetch := none }
    let p : Partial :=
      { alignment := some (2 ^ 64 - 1), ordering := some .basicNonCmx,
        prefetch := some (some { timeWindow := some 7 }) }
    let text := " \x7b\"note\\u0009\":[-1.5e+3,\x7b\"prefetch\":null\x7d]," ++
      "\"prefetch\":\x7b\"depth\":[],\"time_window\":7\x7d," ++
      "\"control_edges\":\"basic_non_cmx\",\"alignment\":18446744073709551615\x7d\n"
    (s.Fits ∧ parse s.text = some s) ∧
      p.complete.Fits ∧ (∃ json, p.WrittenAs json ∧ json.Element text.toList) ∧
      parse text = some
        { alignment := 18446744073709551615, ordering := .basicNonCmx,
          prefetch := some { timeWindow := 7 } } := by
  intro s p text
  have hs : s.Fits := ⟨by decide, by decide, by decide, by decide, fun _ h => by cases h⟩
  have hp : p.complete.Fits := by
    refine ⟨by decide, by decide, by decide, by decide, ?_⟩
    rintro limits ⟨⟩
    exact ⟨by decide, by decide, by decide⟩
  let note : Json := .array [.numeral (.other "-1.5e+3".toList), .object [(some "prefetch", .null)]]
  let limits : Json := .object [(some "depth", .array []), (some "time_window", .ofNat 7)]
  let json : Json := .object
    [(some "note\t", note), (some "prefetch", limits),
      (some "control_edges", .string (some "basic_non_cmx")),
      (some "alignment", .ofNat (2 ^ 64 - 1))]
  have hlimits : PrefetchLimits.Partial.WrittenAs { timeWindow := some 7 } limits :=
    @Json.IsRecord.mk _ _ _ [("depth", .array [])] (by decide) (List.reverse_perm _)
  have hjson : p.WrittenAs json :=
    ⟨some limits, .limits hlimits,
      @Json.IsRecord.mk _ _ _ [("note\t", note)] (by decide) (List.reverse_perm _)⟩
  have hnumeral : Json.Numeral.Written (.other "-1.5e+3".toList) "-1.5e+3".toList :=
    @Json.Numeral.Written.other ['-'] ['.', '5'] ['e', '+', '3'] 1 (.inr rfl)
      (.digits ⟨by decide, List.forall_mem_singleton.2 rfl⟩)
      (.signed (.inl rfl) (.inl rfl) ⟨by decide, List.forall_mem_singleton.2 rfl⟩) (by decide)
  have hproper : json.Proper := by
    refine .object ?_
    simp only [List.forall_mem_cons]
    refine ⟨.array ?_, .object ?_, .string _, .numeral (.natural _), List.forall_mem_nil _⟩
    · simp only [List.forall_mem_cons]
      exact ⟨.numeral hnumeral, .object (List.forall_mem_singleton.2 .null), List.forall_mem_nil _⟩
    · simp only [List.forall_mem_cons]
      exact ⟨.array (List.forall_mem_nil _), .numeral (.natural 7), List.forall_mem_nil _⟩
  have htext : json.Element text.toList := by
    have hblanks : text.toList = [' '] ++ (json.print ++ ['\n']) := by decide +kernel
    rw [hblanks]
    exact .mk (by simp [Json.Blank, Json.IsBlank]) hproper.value_print
      (by simp [Json.Blank, Json.IsBlank])
  exact ⟨⟨hs, parse_writings.1 s hs⟩, hp, ⟨json, hjson, htext⟩,
    parse_writings.2 p json text hp hjson htext⟩

end Settings

end TaskLoom
