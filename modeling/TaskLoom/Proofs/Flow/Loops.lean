import Mathlib.Tactic.Common
import TaskLoom.Flow.Maximum

/-!
# The search without bounds

`augment` is told how many steps the sink is away and stops there, and `saturate` and
`runPhases` end at the latest when their credit is used up.  None of these bounds is part of
the method.  A search by itself ends at the sink, or at a node whose arcs are used up; a phase
ends when nothing was pushed; and the phases end when the sink has no distance.

The relations of this module describe the method that way.  A derivation is a run from the
beginning to the end, so where one exists the method terminates, and the checked arithmetic in
it does not fail.

Without its bound a search goes on from nodes that are as far away as the sink.  From there it
finds only nodes that are further away, so it gives up all their arcs and comes back with
nothing.  Arcs of nearer nodes are not touched on such a detour.

## Main results

* `descends_beyond` — a search that has gone too far comes back with nothing.
* `augment_descends` — what `augment` pushes is what the search without bounds pushes.
* `PhaseLoop.descends` — the same for a whole phase.
-/

namespace TaskLoom.FlowNetwork

/-! ## The method -/

section Method

variable (dist : Array (Option Nat)) (sink : Nat)

mutual

/-- A search from a node that may push at most `limit` pushes `pushed` and leaves `p'`. -/
inductive Descends : (v limit : Nat) → (p : Phase) → (pushed : Nat) → (p' : Phase) → Prop where
  | arrive {limit : Nat} {p : Phase} : Descends sink limit p limit p
  | search {v limit pushed : Nat} {p p' : Phase} (hv : v ≠ sink)
      (htry : Tries v limit (p.untried.getD v []) p pushed p') : Descends v limit p pushed p'

/-- Trying some arcs of a node one after the other pushes `pushed` and leaves `p'`. -/
inductive Tries : (v limit : Nat) → (arcs : List Nat) → (p : Phase) → (pushed : Nat) →
    (p' : Phase) → Prop where
  | exhausted {v limit : Nat} {p : Phase} :
      Tries v limit [] p 0 { p with untried := p.untried.setIfInBounds v [] }
  | closed {v limit e pushed : Nat} {arcs : List Nat} {p p' : Phase}
      (hclosed : ∀ arc, p.arcs[e]? = some arc →
        ¬ (0 < arc.residual ∧ deeper dist v arc.target = true))
      (hrest : Tries v limit arcs p pushed p') : Tries v limit (e :: arcs) p pushed p'
  | dead {v limit e pushed : Nat} {arcs : List Nat} {arc : Arc} {p p₁ p' : Phase}
      (harc : p.arcs[e]? = some arc) (hopen : 0 < arc.residual ∧ deeper dist v arc.target = true)
      (hdown : Descends arc.target (min limit arc.residual) p 0 p₁)
      (hrest : Tries v limit arcs p₁ pushed p') : Tries v limit (e :: arcs) p pushed p'
  | through {v limit e pushed : Nat} {arcs : List Nat} {arc : Arc} {p p₁ p₂ : Phase}
      (harc : p.arcs[e]? = some arc) (hopen : 0 < arc.residual ∧ deeper dist v arc.target = true)
      (hdown : Descends arc.target (min limit arc.residual) p pushed p₁) (hpos : 0 < pushed)
      (hpush : p₁.push e pushed = .ok p₂) :
      Tries v limit (e :: arcs) p pushed
        { p₂ with untried := p₂.untried.setIfInBounds v (e :: arcs) }

end

end Method

/-- Searches of one phase, one after the other, until nothing is pushed. -/
inductive PhaseLoop (search : Phase → Nat → Phase → Prop) :
    (total : Nat) → (p : Phase) → (total' : Nat) → (p' : Phase) → Prop where
  | stop {total : Nat} {p p' : Phase} (hsearch : search p 0 p') : PhaseLoop search total p total p'
  | again {total total₁ total' pushed : Nat} {p p₁ p' : Phase} (hsearch : search p pushed p₁)
      (hpos : 0 < pushed) (hadd : Word.add total pushed = .ok total₁)
      (hrest : PhaseLoop search total₁ p₁ total' p') : PhaseLoop search total p total' p'

/-- Phases, one after the other, until the sink has no distance.  How a path is searched may
depend on the distances. -/
inductive FlowLoop (search : Array (Option Nat) → Phase → Nat → Phase → Prop) (source sink : Nat) :
    (total : Nat) → (net : FlowNetwork) → (total' : Nat) → (net' : FlowNetwork) → Prop where
  | stop {total : Nat} {net : FlowNetwork} (hsink : (net.distances source).getD sink none = none) :
      FlowLoop search source sink total net total net
  | again {total total₁ total' steps : Nat} {net net' : FlowNetwork} {p : Phase}
      (hsink : (net.distances source).getD sink none = some steps)
      (hphase : PhaseLoop (search (net.distances source)) total
        ⟨net.arcs, net.leaving.map Array.toList⟩ total₁ p)
      (hrest : FlowLoop search source sink total₁ { net with arcs := p.arcs } total' net') :
      FlowLoop search source sink total net total' net'

/-! ## Phases that differ beyond the sink -/

variable {dist : Array (Option Nat)} {sink high : Nat} {p p' q q' : Phase}

theorem deeper_iff {v w : Nat} :
    deeper dist v w = true ↔
      ∃ k, dist.getD v none = some k ∧ dist.getD w none = some (k + 1) := by
  unfold deeper
  split
  · next a b ha hb => simp [ha, hb]
  · next h =>
    simp only [Bool.false_eq_true, false_iff]
    rintro ⟨k, hv, hw⟩
    exact h k (k + 1) hv hw

/-- Two phases agree on the capacities, and on what is untried at nodes nearer than `high`. -/
structure AgreeBelow (dist : Array (Option Nat)) (high : Nat) (p q : Phase) : Prop where
  arcs_eq : q.arcs = p.arcs
  size_eq : q.untried.size = p.untried.size
  untried_eq : ∀ v k, dist.getD v none = some k → k < high →
    q.untried.getD v [] = p.untried.getD v []

namespace AgreeBelow

theorem refl (p : Phase) : AgreeBelow dist high p p :=
  ⟨rfl, rfl, fun _ _ _ _ => rfl⟩

theorem trans {r : Phase} (h : AgreeBelow dist high p q) (h' : AgreeBelow dist high q r) :
    AgreeBelow dist high p r :=
  ⟨h'.arcs_eq.trans h.arcs_eq, h'.size_eq.trans h.size_eq,
    fun v k hv hk => (h'.untried_eq v k hv hk).trans (h.untried_eq v k hv hk)⟩

/-- Both phases replace the untried arcs of one node. -/
theorem set (h : AgreeBelow dist high p q) (v : Nat) (arcs : List Nat) :
    AgreeBelow dist high { p with untried := p.untried.setIfInBounds v arcs }
      { q with untried := q.untried.setIfInBounds v arcs } where
  arcs_eq := h.arcs_eq
  size_eq := by simpa using h.size_eq
  untried_eq x k hx hk := by
    have hold := h.untried_eq x k hx hk
    have hsize := h.size_eq
    by_cases hxv : x = v
    · subst hxv
      by_cases hlt : x < p.untried.size
      · simp [hlt, hsize]
      · simp [hlt, hsize]
    · simpa [Array.getElem?_setIfInBounds_ne (Ne.symm hxv)] using hold

/-- One phase replaces the untried arcs of a node that is too far away to count. -/
theorem set_beyond (p : Phase) {v k : Nat} (hv : dist.getD v none = some k) (hk : high ≤ k)
    (arcs : List Nat) :
    AgreeBelow dist high p { p with untried := p.untried.setIfInBounds v arcs } where
  arcs_eq := rfl
  size_eq := by simp
  untried_eq x j hx hj := by
    have hne : x ≠ v := by
      rintro rfl
      have := Option.some.inj (hx.symm.trans hv)
      omega
    simp [Array.getElem?_setIfInBounds_ne (Ne.symm hne)]

/-- A push looks at the capacities only. -/
theorem push (h : AgreeBelow dist high p q) {e amount : Nat} (hpush : p.push e amount = .ok p') :
    ∃ q', q.push e amount = .ok q' ∧ AgreeBelow dist high p' q' := by
  unfold Phase.push at hpush ⊢
  rw [h.arcs_eq]
  cases hsub : Word.sub ((p.arcs[e]?).elim 0 (·.residual)) amount with
  | error fault =>
    rw [hsub] at hpush
    cases hpush
  | ok left =>
    cases hadd : Word.add ((p.arcs[e ^^^ 1]?).elim 0 (·.residual)) amount with
    | error fault =>
      rw [hsub, hadd] at hpush
      cases hpush
    | ok back =>
      rw [hsub, hadd] at hpush
      cases hpush
      exact ⟨_, rfl, rfl, h.size_eq, h.untried_eq⟩

end AgreeBelow

/-! ## One search -/

section Search

variable {n : Nat} (hsink : dist.getD sink none = some high)
  (hbound : ∀ v k, dist.getD v none = some k → k < n)

include hsink hbound

/-- A search from a node other than the sink that is at least as far away gives up all arcs
that it meets and comes back with nothing. -/
theorem descends_beyond (room : Nat) {w k : Nat} (hroom : n ≤ k + room)
    (hw : dist.getD w none = some k) (hk : high ≤ k) (hne : w ≠ sink) (limit : Nat) (q : Phase) :
    ∃ q', Descends dist sink w limit q 0 q' ∧ AgreeBelow dist high q q' := by
  induction room generalizing w k limit q with
  | zero =>
    have := hbound w k hw
    omega
  | succ room ih =>
    -- Every arc that leads on leads to a node that is one step further, so not to the sink.
    have htry : ∀ (arcs : List Nat) (q : Phase),
        ∃ q', Tries dist sink w limit arcs q 0 q' ∧ AgreeBelow dist high q q' := by
      intro arcs
      induction arcs with
      | nil =>
        intro q
        exact ⟨_, .exhausted, .set_beyond q hw hk []⟩
      | cons e arcs ihArcs =>
        intro q
        by_cases hopen : ∃ arc, q.arcs[e]? = some arc ∧ 0 < arc.residual ∧
            deeper dist w arc.target = true
        · obtain ⟨arc, harc, hpos, hdeep⟩ := hopen
          obtain ⟨j, hj, hnext⟩ := deeper_iff.1 hdeep
          obtain rfl := Option.some.inj (hj.symm.trans hw)
          have hother : arc.target ≠ sink := by
            rintro heq
            rw [heq, hsink] at hnext
            have := Option.some.inj hnext
            omega
          obtain ⟨q₁, hdown, hagree⟩ := ih (by omega) hnext (by omega) hother
            (min limit arc.residual) q
          obtain ⟨q', hrest, hagree'⟩ := ihArcs q₁
          exact ⟨q', .dead harc ⟨hpos, hdeep⟩ hdown hrest, hagree.trans hagree'⟩
        · obtain ⟨q', hrest, hagree⟩ := ihArcs q
          exact ⟨q', .closed (fun arc harc hgood => hopen ⟨arc, harc, hgood⟩) hrest, hagree⟩
    obtain ⟨q', hrest, hagree⟩ := htry (q.untried.getD w []) q
    exact ⟨q', .search hne hrest, hagree⟩

omit hsink hbound in
/-- Trying arcs, when what descends from their heads is what the search without bounds does. -/
theorem tryArcs_tries {descend : Nat → Nat → Phase → Except Fault (Nat × Phase)} {low v limit : Nat}
    (hv : dist.getD v none = some low)
    (hdescend : ∀ {w limit pushed : Nat} {p q p' : Phase}, dist.getD w none = some (low + 1) →
      AgreeBelow dist high p q → descend w limit p = .ok (pushed, p') →
      ∃ q', Descends dist sink w limit q pushed q' ∧ AgreeBelow dist high p' q')
    (arcs : List Nat) {pushed : Nat} (hagree : AgreeBelow dist high p q)
    (hrun : tryArcs descend dist v limit arcs p = .ok (pushed, p')) :
    ∃ q', Tries dist sink v limit arcs q pushed q' ∧ AgreeBelow dist high p' q' := by
  induction arcs generalizing p q with
  | nil =>
    cases hrun
    exact ⟨_, .exhausted, hagree.set v []⟩
  | cons e arcs ih =>
    -- An arc that is not in the network, is full or does not lead further is passed over.
    have hskip : (∀ arc, p.arcs[e]? = some arc →
          ¬ (0 < arc.residual ∧ deeper dist v arc.target = true)) →
        tryArcs descend dist v limit arcs p = .ok (pushed, p') →
        ∃ q', Tries dist sink v limit (e :: arcs) q pushed q' ∧ AgreeBelow dist high p' q' := by
      intro hclosed hrest
      obtain ⟨q', htry, hagree'⟩ := ih hagree hrest
      exact ⟨q', .closed (by rwa [hagree.arcs_eq]) htry, hagree'⟩
    unfold tryArcs at hrun
    cases harc : p.arcs[e]? with
    | none =>
      rw [harc] at hrun
      exact hskip (by simp [harc]) hrun
    | some arc =>
      simp only [harc] at hrun
      have harc' : q.arcs[e]? = some arc := by rw [hagree.arcs_eq, harc]
      by_cases hopen : 0 < arc.residual ∧ deeper dist v arc.target = true
      · obtain ⟨k, hk, hnext⟩ := deeper_iff.1 hopen.2
        obtain rfl := Option.some.inj (hk.symm.trans hv)
        rw [if_pos (by simpa using hopen)] at hrun
        cases hdown : descend arc.target (min limit arc.residual) p with
        | error fault =>
          rw [hdown] at hrun
          cases hrun
        | ok result =>
          obtain ⟨amount, p₁⟩ := result
          simp only [hdown, bind, Except.bind] at hrun
          obtain ⟨q₁, hdescends, hagree₁⟩ := hdescend hnext hagree hdown
          by_cases hzero : amount = 0
          · subst hzero
            obtain ⟨q', htry, hagree'⟩ := ih hagree₁ hrun
            exact ⟨q', .dead harc' hopen hdescends htry, hagree'⟩
          · rw [if_neg hzero] at hrun
            cases hpush : p₁.push e amount with
            | error fault =>
              rw [hpush] at hrun
              cases hrun
            | ok p₂ =>
              rw [hpush] at hrun
              cases hrun
              obtain ⟨q₂, hpush', hagree₂⟩ := hagree₁.push hpush
              exact ⟨_, .through harc' hopen hdescends (Nat.pos_of_ne_zero hzero) hpush',
                hagree₂.set v (e :: arcs)⟩
      · rw [if_neg (by simpa using hopen)] at hrun
        exact hskip (by simpa [harc] using hopen) hrun

/-- What `augment` pushes is what the search without bounds pushes. -/
theorem augment_descends (steps : Nat) {low v limit pushed : Nat} (hsteps : low + steps = high)
    (hv : dist.getD v none = some low) (hagree : AgreeBelow dist high p q)
    (hrun : augment dist sink steps v limit p = .ok (pushed, p')) :
    ∃ q', Descends dist sink v limit q pushed q' ∧ AgreeBelow dist high p' q' := by
  induction steps generalizing low v limit pushed p q p' with
  | zero =>
    cases hrun
    by_cases hvs : v = sink
    · subst hvs
      rw [if_pos rfl]
      exact ⟨q, .arrive, hagree⟩
    · rw [if_neg hvs]
      obtain ⟨q', hdown, hagree'⟩ := descends_beyond hsink hbound n (Nat.le_add_left n low) hv
        (by omega) hvs limit q
      exact ⟨q', hdown, hagree.trans hagree'⟩
  | succ steps ih =>
    have hvs : v ≠ sink := by
      rintro rfl
      have := Option.some.inj (hv.symm.trans hsink)
      omega
    unfold augment at hrun
    obtain ⟨q', htry, hagree'⟩ := tryArcs_tries hv
      (fun hw hagree hdown => ih (by omega) hw hagree hdown) _ hagree hrun
    rw [← hagree.untried_eq v low hv (by omega)] at htry
    exact ⟨q', .search hvs htry, hagree'⟩

/-- A phase of bounded searches is a phase of searches without bounds. -/
theorem PhaseLoop.descends {source total total' : Nat} (hsource : dist.getD source none = some 0)
    (h : PhaseLoop (fun p pushed p' => augment dist sink high source unbounded p = .ok (pushed, p'))
      total p total' p') (hagree : AgreeBelow dist high p q) :
    ∃ q', PhaseLoop (Descends dist sink source unbounded) total q total' q' ∧
      AgreeBelow dist high p' q' := by
  induction h generalizing q with
  | stop hsearch =>
    obtain ⟨q', hdown, hagree'⟩ :=
      augment_descends hsink hbound high (Nat.zero_add high) hsource hagree hsearch
    exact ⟨q', .stop hdown, hagree'⟩
  | again hsearch hpos hadd _ ih =>
    obtain ⟨q₁, hdown, hagree₁⟩ :=
      augment_descends hsink hbound high (Nat.zero_add high) hsource hagree hsearch
    obtain ⟨q', hrest, hagree'⟩ := ih hagree₁
    exact ⟨q', .again hdown hpos hadd hrest, hagree'⟩

end Search

/-- Distances do not grow without end. -/
theorem exists_distance_lt (dist : Array (Option Nat)) :
    ∃ n, ∀ v k, dist.getD v none = some k → k < n := by
  have hlist : ∀ ks : List (Option Nat), ∃ n, ∀ k, some k ∈ ks → k < n := by
    intro ks
    induction ks with
    | nil => exact ⟨0, by simp⟩
    | cons first ks ih =>
      obtain ⟨n, hn⟩ := ih
      refine ⟨n + first.getD 0 + 1, fun k hk => ?_⟩
      rcases List.mem_cons.1 hk with rfl | hk
      · rw [Option.getD_some]
        omega
      · have := hn k hk
        omega
  obtain ⟨n, hn⟩ := hlist dist.toList
  refine ⟨n, fun v k hk => hn k ?_⟩
  by_cases hv : v < dist.size
  · have hget : dist[v] = some k := by simpa [hv] using hk
    rw [← hget]
    exact Array.getElem_mem_toList hv
  · simp [hv] at hk

end TaskLoom.FlowNetwork
