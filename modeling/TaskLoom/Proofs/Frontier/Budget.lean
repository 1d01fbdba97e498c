import TaskLoom.Proofs.Frontier.Serialise

/-!
# How serialising to a budget ends

Serialising ends with a peak that fits if every task fits alone, and otherwise names a
task that needs the most.  The number of rounds that it is given plays no part: each
round orders a pair that was unordered, and long before the rounds run out there is no
such pair.

The peaks that do not fit are reported to whoever follows the run, as a share of the
budget in percent.  A share that leaves the word stops the run.  The peaks only fall
from round to round, so this happens in the first round or not at all.

## Main results

* `serialiseRounds_add` — more rounds change nothing.
* `serialise_overflow` — a peak that cannot be reported stops the run.
* `serialise_outcome` — how serialising to a budget ends.
-/

namespace TaskLoom

namespace Serialiser

variable {s : Serialiser} {g : TaskGraph} {budget : Nat} {observed : Bool}

/-- Rounds that are enough for all pairs of tasks are enough. -/
theorem serialiseRounds_add (hbytes : Word.total (g.ids.map g.cmxBytes) ≤ FlowNetwork.unbounded)
    (more rounds : Nat) (events : List FrontierEvent) (h : s.Serialises g budget)
    (hrounds : g.size * g.size ≤ rounds + s.graph.orderedPairs.card) :
    serialiseRounds observed (rounds + more) s events =
      serialiseRounds observed rounds s events := by
  obtain ⟨f, hmeasure, hf⟩ := h.heaviest hbytes
  induction rounds generalizing s events f with
  | zero =>
    have hfits : f.weight ≤ s.budget := by
      have hzero := h.weight_eq_zero hf (by omega)
      omega
    rw [serialiseRounds, serialiseRounds, hmeasure]
    simp only [if_pos hfits]
  | succ rounds ih =>
    rw [Nat.add_right_comm, serialiseRounds, serialiseRounds, hmeasure]
    by_cases hfits : f.weight ≤ s.budget
    · simp only [if_pos hfits]
    simp only [if_neg hfits]
    cases observedPercent observed f.weight s.budget with
    | error fault => rfl
    | ok _ =>
      have hids : ∀ id ∈ f.tasks, id ∈ g.ids := fun id hid =>
        h.ids_eq ▸ hf.unordered.mem_ids id (List.mem_toFinset.2 hid)
      rcases h.orderPair (hf.sorted.imp Nat.ne_of_lt) hids with
        ⟨a, ha, b, hb, hlt, hpair⟩ | ⟨hshort, -⟩
      · have hnext := h.add (hids a ha) (hids b hb) hlt
        obtain ⟨f', hmeasure', hf'⟩ := hnext.heaviest hbytes
        simp only [hpair]
        exact ih _ hnext (h.rounds_left hf ha hb hrounds) f' hmeasure' hf'
      · simp only [hshort]

/-- The peaks over a budget that someone is told of can be given in percent. -/
def Reportable (observed : Bool) (g : TaskGraph) (budget : Nat) : Prop :=
  observed = true → ∀ peak ∈ g.unorderedPeaks, budget < peak → peak * 100 < Word.bound

/-- If one peak cannot be given in percent, neither can the first that is measured. -/
theorem serialise_overflow (hbytes : Word.total (g.ids.map g.cmxBytes) ≤ FlowNetwork.unbounded)
    (h : s.Prepares g budget) (hg : g.WellFormed) (hreport : ¬ Reportable observed g budget) :
    ∃ state, s.serialise observed = .failed .overflow state := by
  simp only [Reportable, not_forall, Nat.not_lt] at hreport
  obtain ⟨rfl, peak, ⟨tasks, htasks, rfl⟩, hover, hlarge⟩ := hreport
  obtain ⟨f, hmeasure, hf⟩ := (h.serialises hg).heaviest hbytes
  have hle := hf.greatest tasks (h.graph_eq.symm ▸ htasks)
  rw [funext h.weight_eq] at hle
  have hexceeds : ¬ f.weight ≤ s.budget := by
    rw [h.budget_eq]
    omega
  have hpercent : observedPercent true f.weight s.budget = .error .overflow :=
    observedPercent_overflow _ (by omega)
  unfold serialise
  rw [serialiseRounds, hmeasure]
  simp only [if_neg hexceeds, hpercent]
  exact ⟨_, rfl⟩

/-- Serialising an acyclic graph ends, whatever number of rounds it may take.  It ends
with a peak within the budget exactly if every task needs no more than the budget, and
otherwise names a task that needs the most; only if a peak cannot be reported, it
overflows instead. -/
theorem serialise_outcome (hg : g.WellFormed) (hac : g.Acyclic)
    (hbytes : Word.total (g.ids.map g.cmxBytes) ≤ FlowNetwork.unbounded)
    (observed : Bool) (budget : Nat) :
    ∃ s, ofGraph g budget = .ok s ∧
      (∀ more, serialiseRounds observed (s.graph.size * s.graph.size + more) s [] =
        serialiseRounds observed (s.graph.size * s.graph.size) s []) ∧
      ((∃ f state, s.serialise observed = .done f state) ↔
        (∀ id ∈ g.ids, g.cmxBytes id ≤ budget) ∧ Reportable observed g budget) ∧
      (∀ f state, s.serialise observed = .done f state → f.weight ≤ budget) ∧
      ((∃ state, s.serialise observed = .failed .overflow state) ↔
        ¬ Reportable observed g budget) ∧
      (¬ (∀ id ∈ g.ids, g.cmxBytes id ≤ budget) → Reportable observed g budget →
        ∃ task state, Oversized g budget task ∧
          s.serialise observed = .failed (tooHeavy g budget task) state) := by
  obtain ⟨s, hs, hprepares⟩ := ofGraph_spec hg hac (cmxBytes_lt_bound hbytes) budget
  have h := hprepares.serialises hg
  have hsize : s.graph.size = g.size := by rw [hprepares.graph_eq]
  refine ⟨s, hs, fun more => serialiseRounds_add hbytes more _ [] h ?_, ?_⟩
  · rw [hsize]
    exact Nat.le_add_right _ _
  by_cases hreport : Reportable observed g budget
  · rcases serialise_spec hbytes hreport h with
      ⟨f, s', events, hdone, hs', hf, hfits⟩ | ⟨task, state, hoversized, hfailed⟩
    · have hall : ∀ id ∈ g.ids, g.cmxBytes id ≤ budget := fun id hid =>
        Nat.le_trans (hs'.cmxBytes_le hf hid) hfits
      refine ⟨⟨fun _ => ⟨hall, hreport⟩, fun _ => ⟨f, _, hdone⟩⟩, ?_,
        ⟨?_, fun hnot => absurd hreport hnot⟩, fun hnot => absurd hall hnot⟩
      · intro f' state hdone'
        cases hdone.symm.trans hdone'
        exact hfits
      · rintro ⟨state, hfailed⟩
        cases hdone.symm.trans hfailed
    · have hnot : ¬ ∀ id ∈ g.ids, g.cmxBytes id ≤ budget := fun hall =>
        Nat.not_le.2 hoversized.budget_lt (hall task hoversized.mem_ids)
      refine ⟨⟨?_, fun hfit => absurd hfit.1 hnot⟩, ?_,
        ⟨?_, fun hnot => absurd hreport hnot⟩, fun _ _ => ⟨task, state, hoversized, hfailed⟩⟩
      · rintro ⟨f, state', hdone⟩
        cases hfailed.symm.trans hdone
      · intro f state' hdone
        cases hfailed.symm.trans hdone
      · rintro ⟨state', hoverflow⟩
        cases hfailed.symm.trans hoverflow
  · obtain ⟨state, hfailed⟩ := serialise_overflow hbytes hprepares hg hreport
    refine ⟨⟨?_, fun hfit => absurd hfit.2 hreport⟩, ?_, ⟨fun _ => hreport, fun _ => ⟨_, hfailed⟩⟩,
      fun _ hr => absurd hr hreport⟩
    · rintro ⟨f, state', hdone⟩
      cases hfailed.symm.trans hdone
    · intro f state' hdone
      cases hfailed.symm.trans hdone

/-- Every task of the sample fits a budget of 100. -/
theorem serialise_outcome_diamond :
    TaskGraph.diamond.WellFormed ∧ TaskGraph.diamond.Acyclic ∧
      Word.total (TaskGraph.diamond.ids.map TaskGraph.diamond.cmxBytes) ≤ FlowNetwork.unbounded ∧
      ∃ s, ofGraph .diamond 100 = .ok s ∧ ∃ f state, s.serialise false = .done f state := by
  have hbytes : Word.total (TaskGraph.diamond.ids.map TaskGraph.diamond.cmxBytes) ≤
      FlowNetwork.unbounded := by decide
  obtain ⟨s, hs, -, hdone, -⟩ := serialise_outcome TaskGraph.wellFormed_diamond
    TaskGraph.acyclic_diamond hbytes false 100
  refine ⟨TaskGraph.wellFormed_diamond, TaskGraph.acyclic_diamond, hbytes, s, hs, hdone.2 ⟨?_, ?_⟩⟩
  · decide
  · rintro ⟨⟩

/-- Two unordered tasks, each of which needs a large scratch memory. -/
def heavyPair : TaskGraph where
  tasks := #[
    some { name := "a", kind := .dma, buffers := [⟨"a", 2 ^ 57, .cmx, none⟩] },
    some { name := "b", kind := .dma, buffers := [⟨"b", 2 ^ 57, .cmx, none⟩] }]

/-- Each of the two tasks fits the budget, but the share of both overflows in a report. -/
theorem serialise_overflow_heavyPair :
    heavyPair.WellFormed ∧ heavyPair.Acyclic ∧
      Word.total (heavyPair.ids.map heavyPair.cmxBytes) ≤ FlowNetwork.unbounded ∧
      (∀ id ∈ heavyPair.ids, heavyPair.cmxBytes id ≤ 2 ^ 57) ∧
      ∃ s, ofGraph heavyPair (2 ^ 57) = .ok s ∧
        ∃ state, s.serialise true = .failed .overflow state := by
  have hwf : heavyPair.WellFormed := by constructor <;> decide
  have hac : heavyPair.Acyclic := TaskGraph.Acyclic.of_forward (by decide)
  have hbytes : Word.total (heavyPair.ids.map heavyPair.cmxBytes) ≤ FlowNetwork.unbounded := by
    decide
  obtain ⟨s, hs, hprepares⟩ := ofGraph_spec hwf hac (cmxBytes_lt_bound hbytes) (2 ^ 57)
  refine ⟨hwf, hac, hbytes, by decide, s, hs, serialise_overflow hbytes hprepares hwf ?_⟩
  intro hreport
  have hboth : heavyPair.Unordered {0, 1} := by
    refine ⟨by decide, ?_⟩
    rintro u - v - hne huv
    rcases Relation.ReflTransGen.cases_head huv with heq | ⟨w, ⟨e, he, -⟩, -⟩
    · exact hne heq
    · cases he
  have hlt := hreport rfl (2 ^ 58) ⟨{0, 1}, hboth, by decide⟩ (by decide)
  exact absurd hlt (by decide)

end Serialiser

end TaskLoom
