import TaskLoom.Proofs.Flow.Cuts

/-!
# Distances in a network

`spread` works in rounds.  Before the round that gives out distance `d`, all nodes
nearer than `d` have their distances, the frontier holds those at distance
`d - 1`, and nothing else has one.  `Layered` states this; a round keeps it for the
next distance.

Every round that is followed by another one gives at least one node its distance,
so the rounds do not run out before the frontier does.

## Main results

* `measures_distances` — the computed distances: only the source is at zero, every
  other node is one further than some node before it, and an arc with capacity
  never leads further than one step.
* `Measures.reached_iff` — a node has a distance exactly if arcs with capacity
  lead to it.
-/

namespace TaskLoom.FlowNetwork

variable {net : FlowNetwork}

/-! ## One round -/

/-- What giving out distance `d` along the arcs of `done` has made of `dist`:
the heads found so far are in `next`. -/
structure Relaxed (net : FlowNetwork) (d : Nat) (dist : Array (Option Nat)) (done : List Nat)
    (dist' : Array (Option Nat)) (next : List Nat) : Prop where
  size_eq : dist'.size = dist.size
  keeps : ∀ v k, dist.getD v none = some k → dist'.getD v none = some k
  fresh : ∀ v k, dist'.getD v none = some k → dist.getD v none = some k ∨
    k = d ∧ dist.getD v none = none ∧ ∃ e ∈ done, 0 < net.residual e ∧ net.head e = v
  mem_next : ∀ v, v ∈ next ↔ dist.getD v none = none ∧ dist'.getD v none = some d
  found : ∀ e ∈ done, 0 < net.residual e → net.head e < dist.size →
    (dist'.getD (net.head e) none).isSome = true
  count : dist'.count none + next.length = dist.count none

theorem relaxed_nil (net : FlowNetwork) (d : Nat) (dist : Array (Option Nat)) :
    Relaxed net d dist [] dist [] where
  size_eq := rfl
  keeps _ _ h := h
  fresh _ _ h := Or.inl h
  mem_next v := by
    constructor
    · simp
    · rintro ⟨h, h'⟩
      simp [h] at h'
  found := by simp
  count := by simp

/-- Reading a distance after another node was given one. -/
private theorem getD_setIfInBounds {dist : Array (Option Nat)} {v w d : Nat} (hw : w < dist.size) :
    (dist.setIfInBounds w (some d)).getD v none = if v = w then some d else dist.getD v none := by
  by_cases h : v = w
  · subst h
    simp [hw]
  · simp [h, Array.getElem?_setIfInBounds_ne (Ne.symm h)]

/-- Giving a node its distance leaves one node less without. -/
private theorem count_none_set {dist : Array (Option Nat)} {w d : Nat} (hw : w < dist.size)
    (hnone : dist.getD w none = none) :
    (dist.setIfInBounds w (some d)).count none + 1 = dist.count none := by
  have hget : dist[w] = none := by simpa [hw] using hnone
  have hpos : 0 < dist.count none := Array.count_pos_iff.2 (hget ▸ Array.getElem_mem hw)
  rw [Array.setIfInBounds_def, dif_pos hw, Array.count_set]
  simp [hget]
  omega

/-- Where a distance is from stays true with more arcs done. -/
private theorem fresh_append {d v k : Nat} {old : Option Nat} {done : List Nat} (e : Nat)
    (h : old = some k ∨
      k = d ∧ old = none ∧ ∃ f ∈ done, 0 < net.residual f ∧ net.head f = v) :
    old = some k ∨
      k = d ∧ old = none ∧ ∃ f ∈ done ++ [e], 0 < net.residual f ∧ net.head f = v := by
  rcases h with hold | ⟨rfl, hnone, f, hf, hpos, hhead⟩
  · exact Or.inl hold
  · exact Or.inr ⟨rfl, hnone, f, List.mem_append_left _ hf, hpos, hhead⟩

/-- An arc that finds nothing new. -/
theorem Relaxed.skip {d : Nat} {dist dist' : Array (Option Nat)} {done next : List Nat}
    (h : Relaxed net d dist done dist' next) {e : Nat}
    (hknown : 0 < net.residual e → net.head e < dist.size →
      (dist'.getD (net.head e) none).isSome = true) :
    Relaxed net d dist (done ++ [e]) dist' next where
  size_eq := h.size_eq
  keeps := h.keeps
  fresh v k hk := fresh_append e (h.fresh v k hk)
  mem_next := h.mem_next
  found f hf := by
    rcases List.mem_append.1 hf with hf | hf
    · exact h.found f hf
    · obtain rfl := List.mem_singleton.1 hf
      exact hknown
  count := h.count

/-- An arc that finds its head: the head gets distance `d` and joins `next`. -/
theorem Relaxed.find {d : Nat} {dist dist' : Array (Option Nat)} {done next : List Nat}
    (h : Relaxed net d dist done dist' next) {e : Nat} (hpos : 0 < net.residual e)
    (hlt : net.head e < dist'.size) (hnone : dist'.getD (net.head e) none = none) :
    Relaxed net d dist (done ++ [e]) (dist'.setIfInBounds (net.head e) (some d))
      (net.head e :: next) := by
  have hnone₀ : dist.getD (net.head e) none = none := by
    by_contra hsome
    obtain ⟨k, hk⟩ := Option.ne_none_iff_exists'.1 hsome
    rw [h.keeps _ _ hk] at hnone
    cases hnone
  refine ⟨by simpa using h.size_eq, ?_, ?_, ?_, ?_, ?_⟩
  · intro v k hk
    have hne : v ≠ net.head e := by
      rintro rfl
      rw [hnone₀] at hk
      cases hk
    rw [getD_setIfInBounds hlt, if_neg hne]
    exact h.keeps v k hk
  · intro v k hk
    rw [getD_setIfInBounds hlt] at hk
    split at hk
    · next heq =>
      subst heq
      obtain rfl : d = k := by simpa using hk
      exact Or.inr ⟨rfl, hnone₀, e, by simp, hpos, rfl⟩
    · exact fresh_append e (h.fresh v k hk)
  · intro v
    rw [getD_setIfInBounds hlt, List.mem_cons, h.mem_next]
    by_cases heq : v = net.head e
    · simp [heq, hnone₀]
    · simp [heq]
  · intro f hf hfpos hflt
    rw [getD_setIfInBounds hlt]
    split
    · rfl
    · next hne =>
      rcases List.mem_append.1 hf with hf | hf
      · exact h.found f hf hfpos hflt
      · obtain rfl := List.mem_singleton.1 hf
        exact absurd rfl hne
  · have hcount := count_none_set (d := d) hlt hnone
    have hold := h.count
    rw [List.length_cons]
    omega

/-- One more arc. -/
theorem Relaxed.relax {d : Nat} {dist dist' : Array (Option Nat)} {done next : List Nat}
    (h : Relaxed net d dist done dist' next) (e : Nat) :
    Relaxed net d dist (done ++ [e]) (net.relax d (dist', next) e).1
      (net.relax d (dist', next) e).2 := by
  unfold FlowNetwork.relax
  cases harc : net.arcs[e]? with
  | none =>
    have hres : net.residual e = 0 := by simp [residual, harc]
    exact h.skip fun hpos => by omega
  | some arc =>
    have hres : net.residual e = arc.residual := by simp [residual, harc]
    have hhead : net.head e = arc.target := by simp [head, harc]
    simp only [← hres, ← hhead]
    by_cases hcond : (0 < net.residual e && (dist'.getD (net.head e) (some 0)).isNone) = true
    · obtain ⟨hpos, hisNone⟩ :
          0 < net.residual e ∧ (dist'.getD (net.head e) (some 0)).isNone = true := by
        simpa using hcond
      have hlt : net.head e < dist'.size := by
        by_contra hge
        simp [hge] at hisNone
      have hnone : dist'.getD (net.head e) none = none := by simpa [hlt] using hisNone
      simp only [hcond, if_true]
      exact h.find hpos hlt hnone
    · simp only [hcond, Bool.false_eq_true, if_false]
      apply h.skip
      intro hpos hlt
      rw [← h.size_eq] at hlt
      simpa [hpos, hlt, Option.isSome_iff_ne_none] using hcond

/-- A whole round. -/
theorem Relaxed.foldl {d : Nat} {dist : Array (Option Nat)} (arcs : List Nat)
    {done next : List Nat} {dist' : Array (Option Nat)}
    (h : Relaxed net d dist done dist' next) :
    Relaxed net d dist (done ++ arcs) (arcs.foldl (net.relax d) (dist', next)).1
      (arcs.foldl (net.relax d) (dist', next)).2 := by
  induction arcs generalizing done dist' next with
  | nil => simpa using h
  | cons e arcs ih =>
    have hnext := ih (h.relax e)
    rw [List.append_assoc, List.singleton_append] at hnext
    exact hnext

/-! ## All rounds -/

/-- The distances before the round that gives out `d + 1`. -/
structure Layered (net : FlowNetwork) (source d : Nat) (frontier : List Nat)
    (dist : Array (Option Nat)) : Prop where
  size_eq : dist.size = net.leaving.size
  le : ∀ v k, dist.getD v none = some k → k ≤ d
  mem_frontier : ∀ v, v ∈ frontier ↔ dist.getD v none = some d
  closed : ∀ e < net.arcs.size, 0 < net.residual e → ∀ k < d,
    dist.getD (net.tail e) none = some k → ∃ j ≤ k + 1, dist.getD (net.head e) none = some j
  back : ∀ v k, dist.getD v none = some (k + 1) →
    ∃ e < net.arcs.size, 0 < net.residual e ∧ net.head e = v ∧ dist.getD (net.tail e) none = some k
  zero_iff : ∀ v, dist.getD v none = some 0 ↔ v = source

/-- Distances as they should be. -/
structure Measures (net : FlowNetwork) (source : Nat) (dist : Array (Option Nat)) : Prop where
  size_eq : dist.size = net.leaving.size
  closed : ∀ e < net.arcs.size, 0 < net.residual e → ∀ k,
    dist.getD (net.tail e) none = some k → ∃ j ≤ k + 1, dist.getD (net.head e) none = some j
  back : ∀ v k, dist.getD v none = some (k + 1) →
    ∃ e < net.arcs.size, 0 < net.residual e ∧ net.head e = v ∧ dist.getD (net.tail e) none = some k
  zero_iff : ∀ v, dist.getD v none = some 0 ↔ v = source

/-- A round gives out the next distance. -/
theorem Layered.round (hwf : net.WellFormed) {source d : Nat} {frontier : List Nat}
    {dist dist' : Array (Option Nat)} {next : List Nat} (h : Layered net source d frontier dist)
    (hround : Relaxed net (d + 1) dist (frontier.flatMap net.arcsFrom) dist' next) :
    Layered net source (d + 1) next dist' := by
  have harcs : ∀ e, e ∈ frontier.flatMap net.arcsFrom ↔
      e < net.arcs.size ∧ dist.getD (net.tail e) none = some d := by
    intro e
    simp only [List.mem_flatMap, hwf.mem_arcsFrom, h.mem_frontier]
    constructor
    · rintro ⟨v, hv, he, rfl⟩
      exact ⟨he, hv⟩
    · rintro ⟨he, hv⟩
      exact ⟨_, hv, he, rfl⟩
  refine ⟨hround.size_eq.trans h.size_eq, ?_, ?_, ?_, ?_, ?_⟩
  · intro v k hk
    rcases hround.fresh v k hk with old | ⟨rfl, -, -⟩
    · exact Nat.le_succ_of_le (h.le v k old)
    · exact Nat.le_refl _
  · intro v
    rw [hround.mem_next]
    constructor
    · exact fun hv => hv.2
    · intro hv
      refine ⟨?_, hv⟩
      rcases hround.fresh v _ hv with old | ⟨-, hnone, -⟩
      · exact absurd (h.le v _ old) (Nat.not_succ_le_self d)
      · exact hnone
  · intro e he hpos k hk htail
    have hold : dist.getD (net.tail e) none = some k := by
      rcases hround.fresh _ _ htail with old | ⟨rfl, -, -⟩
      · exact old
      · omega
    by_cases hkd : k < d
    · obtain ⟨j, hj, hhead⟩ := h.closed e he hpos k hkd hold
      exact ⟨j, hj, hround.keeps _ _ hhead⟩
    · -- The tail is in the frontier, so this round looked at the arc.
      obtain rfl : k = d := by omega
      have hlt : net.head e < dist.size := by
        rw [h.size_eq]
        exact hwf.head_lt e he
      obtain ⟨j, hj⟩ := Option.isSome_iff_exists.1
        (hround.found e ((harcs e).2 ⟨he, hold⟩) hpos hlt)
      refine ⟨j, ?_, hj⟩
      rcases hround.fresh _ _ hj with old | ⟨rfl, -, -⟩
      · exact Nat.le_succ_of_le (h.le _ _ old)
      · exact Nat.le_refl _
  · intro v k hk
    rcases hround.fresh v _ hk with old | ⟨hkd, -, e, he, hpos, rfl⟩
    · obtain ⟨e, he, hpos, hhead, htail⟩ := h.back v k old
      exact ⟨e, he, hpos, hhead, hround.keeps _ _ htail⟩
    · obtain rfl : k = d := by omega
      obtain ⟨hlt, htail⟩ := (harcs e).1 he
      exact ⟨e, hlt, hpos, rfl, hround.keeps _ _ htail⟩
  · intro v
    rw [← h.zero_iff]
    constructor
    · intro hv
      rcases hround.fresh v _ hv with old | ⟨hd, -, -⟩
      · exact old
      · omega
    · exact hround.keeps v 0

/-- With nothing in the frontier all distances are given out. -/
theorem Layered.measures {source d : Nat} {dist : Array (Option Nat)}
    (h : Layered net source d [] dist) : Measures net source dist := by
  refine ⟨h.size_eq, ?_, h.back, h.zero_iff⟩
  intro e he hpos k hk
  refine h.closed e he hpos k ?_ hk
  refine Nat.lt_of_le_of_ne (h.le _ _ hk) ?_
  rintro rfl
  exact absurd ((h.mem_frontier _).2 hk) (List.not_mem_nil)

/-- The rounds suffice, because each leaves fewer nodes without a distance. -/
theorem Layered.spread (hwf : net.WellFormed) {source : Nat} (rounds d : Nat)
    {frontier : List Nat} {dist : Array (Option Nat)} (h : Layered net source d frontier dist)
    (henough : frontier = [] ∨ dist.count none < rounds) :
    Measures net source (net.spread rounds (d + 1) frontier dist) := by
  induction rounds generalizing d frontier dist with
  | zero =>
    obtain rfl : frontier = [] := by simpa using henough
    exact h.measures
  | succ rounds ih =>
    cases frontier with
    | nil => exact h.measures
    | cons v rest =>
      have hround := (relaxed_nil net (d + 1) dist).foldl ((v :: rest).flatMap net.arcsFrom)
      have hcount := hround.count
      rw [List.nil_append] at hround
      refine ih (d + 1) (h.round hwf hround) ?_
      rcases henough with hnil | hlt
      · cases hnil
      · rcases Nat.eq_zero_or_pos (((v :: rest).flatMap net.arcsFrom).foldl (net.relax (d + 1))
          (dist, [])).2.length with hlen | hlen
        · exact Or.inl (List.length_eq_zero_iff.1 hlen)
        · exact Or.inr (by omega)

/-- The computed distances. -/
theorem measures_distances (hwf : net.WellFormed) {source : Nat}
    (hsource : source < net.leaving.size) : Measures net source (net.distances source) := by
  have hsize : source < (Array.replicate net.leaving.size (none : Option Nat)).size := by
    simpa using hsource
  have hstart : ∀ v, ((Array.replicate net.leaving.size none).setIfInBounds source (some 0)).getD v
      none = if v = source then some 0 else none := by
    intro v
    rw [getD_setIfInBounds hsize]
    split
    · rfl
    · by_cases hv : v < net.leaving.size <;> simp [hv]
  unfold distances
  refine Layered.spread hwf net.leaving.size 0 ⟨by simp, ?_, ?_, ?_, ?_, ?_⟩ (Or.inr ?_)
  · intro v k hk
    rw [hstart] at hk
    split at hk
    · obtain rfl : 0 = k := by simpa using hk
      exact Nat.le_refl _
    · cases hk
  · intro v
    rw [hstart]
    by_cases hv : v = source <;> simp [hv]
  · intro e _ _ k hk
    omega
  · intro v k hk
    rw [hstart] at hk
    split at hk <;> simp at hk
  · intro v
    rw [hstart]
    by_cases hv : v = source <;> simp [hv]
  · have hnone :
        (Array.replicate net.leaving.size (none : Option Nat)).getD source none = none := by
      simp [hsource]
    have hcount := count_none_set (d := 0) hsize hnone
    rw [Array.count_replicate_self] at hcount
    omega

/-! ## Distances and paths -/

/-- An arc with capacity leads from `u` to `v`. -/
def Flows (net : FlowNetwork) (u v : Nat) : Prop :=
  ∃ e < net.arcs.size, 0 < net.residual e ∧ net.tail e = u ∧ net.head e = v

namespace Measures

variable {source : Nat} {dist : Array (Option Nat)}

theorem reached_source (h : Measures net source dist) : reached dist source = true := by
  simp [reached, (h.zero_iff source).2 rfl]

/-- What is reached is closed under arcs with capacity. -/
theorem reached_head (h : Measures net source dist) {e : Nat} (he : e < net.arcs.size)
    (hpos : 0 < net.residual e) (htail : reached dist (net.tail e) = true) :
    reached dist (net.head e) = true := by
  obtain ⟨k, hk⟩ := Option.isSome_iff_exists.1 htail
  obtain ⟨j, -, hj⟩ := h.closed e he hpos k hk
  simp [reached, hj]

/-- A node has a distance exactly if arcs with capacity lead to it. -/
theorem reached_iff (h : Measures net source dist) {v : Nat} :
    reached dist v = true ↔ Relation.ReflTransGen net.Flows source v := by
  constructor
  · intro hv
    obtain ⟨k, hk⟩ := Option.isSome_iff_exists.1 hv
    induction k generalizing v with
    | zero =>
      obtain rfl := (h.zero_iff v).1 hk
      exact .refl
    | succ k ih =>
      obtain ⟨e, he, hpos, rfl, htail⟩ := h.back v k hk
      exact (ih (by simp [reached, htail]) htail).tail ⟨e, he, hpos, rfl, rfl⟩
  · intro path
    induction path with
    | refl => exact h.reached_source
    | tail _ step ih =>
      obtain ⟨e, he, hpos, rfl, rfl⟩ := step
      exact h.reached_head he hpos ih

end Measures

end TaskLoom.FlowNetwork
