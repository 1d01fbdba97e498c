import TaskLoom.Proofs.Flow.Distances
import TaskLoom.Proofs.Flow.Loops

/-!
# The maximum flow

A push along an arc moves capacity from its tail to its head.  `augment` pushes
one amount along a path, so it moves it from the start of the path to the sink;
`saturate` and `runPhases` add such flows up.

Three things are carried through the recursion of `augment`.  Distances grow by
one along the path, so only arcs that lead one step further lose capacity, and
none that leads to the source or leaves the sink.  The arcs that were given up
cannot lead to the sink, so a search that starts with all arcs finds a path if
there is one.  And no addition can leave the word range, because a pair of arcs
keeps its total.

## Main results

* `augment_spec` — one path.
* `saturate_spec` — one phase: it moves something if the sink is within reach.
* `maxFlow_spec` — the loop ends without overflow, in a network in which the sink
  cannot be reached, and all that was pushed has moved from source to sink.
-/

namespace TaskLoom.FlowNetwork

variable {net : FlowNetwork}

/-- The network with other residual capacities. -/
def withArcs (net : FlowNetwork) (arcs : Array Arc) : FlowNetwork :=
  { net with arcs }

/-! ## One push -/

/-- What a phase leaves alone: the shape of the network and the total of every
pair of arcs. -/
structure Phase.Fits (net : FlowNetwork) (p : Phase) : Prop where
  size_eq : p.arcs.size = net.arcs.size
  head_eq : ∀ e, (net.withArcs p.arcs).head e = net.head e
  pair_eq : ∀ e, (net.withArcs p.arcs).residual e + (net.withArcs p.arcs).residual (e ^^^ 1) =
    net.residual e + net.residual (e ^^^ 1)
  untried_sub : ∀ v, ∀ e ∈ p.untried.getD v [], e ∈ net.arcsFrom v

theorem Phase.Fits.wellFormed {p : Phase} (h : p.Fits net) (hwf : net.WellFormed) :
    (net.withArcs p.arcs).WellFormed :=
  hwf.of_shape rfl h.size_eq h.head_eq

/-- A move within a phase keeps the shape. -/
theorem Phase.Fits.of_moves {p p' : Phase} {u v amount : Nat} (h : p.Fits net)
    (hm : Moves (net.withArcs p.arcs) (net.withArcs p'.arcs) u v amount)
    (huntried : ∀ v, ∀ e ∈ p'.untried.getD v [], e ∈ net.arcsFrom v) : p'.Fits net where
  size_eq := hm.size_eq.trans h.size_eq
  head_eq e := (hm.head_eq e).trans (h.head_eq e)
  pair_eq e := (hm.pair_eq e).trans (h.pair_eq e)
  untried_sub := huntried

/-- Reading a list of untried arcs after one list was replaced. -/
theorem mem_getD_setIfInBounds {untried : Array (List Nat)} {v x e : Nat} {arcs : List Nat}
    (h : e ∈ (untried.setIfInBounds v arcs).getD x []) :
    (x = v ∧ e ∈ arcs) ∨ (x ≠ v ∧ e ∈ untried.getD x []) := by
  by_cases hx : x = v
  · subst hx
    refine Or.inl ⟨rfl, ?_⟩
    by_cases hlt : x < untried.size
    · simpa [hlt] using h
    · simp [hlt] at h
  · refine Or.inr ⟨hx, ?_⟩
    simpa [Array.getElem?_setIfInBounds_ne (Ne.symm hx)] using h

/-- The capacities after a push. -/
private theorem residual_modify_modify {arcs : Array Arc} {e f a b : Nat} (he : e < arcs.size)
    (hrev : e ^^^ 1 < arcs.size) :
    (net.withArcs ((arcs.modify e fun arc => { arc with residual := a }).modify (e ^^^ 1)
        fun arc => { arc with residual := b })).residual f =
      if f = e then a else if f = e ^^^ 1 then b else (net.withArcs arcs).residual f := by
  have hne := xor_one_ne e
  by_cases hf : f < arcs.size
  · simp only [residual, withArcs, Array.size_modify, hf, getElem?_pos, Option.elim_some,
      Array.getElem_modify, @eq_comm _ e f, @eq_comm _ (e ^^^ 1) f]
    by_cases hfe : f = e
    · subst hfe
      simp [Ne.symm hne]
    · by_cases hfr : f = e ^^^ 1
      · simp [hfr, hne]
      · simp [hfe, hfr]
  · have hfe : f ≠ e := by rintro rfl; exact hf he
    have hfr : f ≠ e ^^^ 1 := by rintro rfl; exact hf hrev
    simp [residual, withArcs, hf, hfe, hfr]

private theorem head_modify_modify {arcs : Array Arc} {e f a b : Nat} :
    (net.withArcs ((arcs.modify e fun arc => { arc with residual := a }).modify (e ^^^ 1)
        fun arc => { arc with residual := b })).head f = (net.withArcs arcs).head f := by
  by_cases hf : f < arcs.size
  · simp only [head, withArcs, Array.size_modify, hf, getElem?_pos, Option.elim_some,
      Array.getElem_modify]
    split_ifs <;> rfl
  · simp [head, withArcs, hf]

/-- The leaving capacities of two networks of one shape, of which the second has
`amount` less on `e` and more on its reverse. -/
private theorem capacityFrom_push {net net' : FlowNetwork} (hwf : net.WellFormed)
    (hwf' : net'.WellFormed) (hsize : net'.arcs.size = net.arcs.size)
    (htail : ∀ f, net'.tail f = net.tail f) {e amount : Nat} (he : e < net.arcs.size)
    (hres : ∀ f, net'.residual f + (if f = e then amount else 0) =
      net.residual f + (if f = e ^^^ 1 then amount else 0)) (x : Nat) :
    net'.capacityFrom x + (if x = net.tail e then amount else 0) =
      net.capacityFrom x + (if x = net.head e then amount else 0) := by
  have hone : ∀ f < net.arcs.size,
      ∑ d ∈ Finset.range net.arcs.size with net.tail d = x, (if d = f then amount else 0) =
        if x = net.tail f then amount else 0 := by
    intro f hf
    rw [Finset.sum_ite_eq']
    simp [hf, eq_comm]
  have hsum : ∑ d ∈ Finset.range net.arcs.size with net.tail d = x,
        (net'.residual d + if d = e then amount else 0) =
      ∑ d ∈ Finset.range net.arcs.size with net.tail d = x,
        (net.residual d + if d = e ^^^ 1 then amount else 0) :=
    Finset.sum_congr rfl fun d _ => hres d
  have hrev := hone (e ^^^ 1) ((xor_one_lt hwf.even).2 he)
  rw [tail_xor_one] at hrev
  rw [Finset.sum_add_distrib, Finset.sum_add_distrib, hone e he, hrev] at hsum
  rw [hwf.capacityFrom_eq, hwf'.capacityFrom_eq, hsize]
  simpa only [htail] using hsum

/-- Such a change moves the amount from the tail of `e` to its head. -/
private theorem moves_of_residual {net net' : FlowNetwork} (hwf : net.WellFormed)
    (hleaving : net'.leaving = net.leaving) (hsize : net'.arcs.size = net.arcs.size)
    (hhead : ∀ f, net'.head f = net.head f) {e amount : Nat} (he : e < net.arcs.size)
    (hres : ∀ f, net'.residual f + (if f = e then amount else 0) =
      net.residual f + (if f = e ^^^ 1 then amount else 0)) :
    Moves net net' (net.tail e) (net.head e) amount where
  leaving_eq := hleaving
  size_eq := hsize
  head_eq := hhead
  pair_eq f := by
    -- the reverse of `f` gains what `f` loses
    have hf := hres f
    have hrev := hres (f ^^^ 1)
    simp only [← eq_xor_one_comm, xor_one_xor_one] at hrev
    omega
  balance := capacityFrom_push hwf (hwf.of_shape hleaving hsize hhead) hsize
    (fun f => hhead (f ^^^ 1)) he hres

/-- A push that the arc has room for moves its amount from tail to head, and takes
it from no other arc. -/
theorem push_spec (hwf : net.WellFormed)
    (hword : ∀ e, net.residual e + net.residual (e ^^^ 1) < Word.bound) {p : Phase}
    (hp : p.Fits net) {e amount : Nat} (he : e < net.arcs.size)
    (hroom : amount ≤ (net.withArcs p.arcs).residual e) :
    ∃ p', p.push e amount = .ok p' ∧ p'.untried = p.untried ∧
      Moves (net.withArcs p.arcs) (net.withArcs p'.arcs) (net.tail e) (net.head e) amount ∧
      ∀ f, f ≠ e → (net.withArcs p.arcs).residual f ≤ (net.withArcs p'.arcs).residual f := by
  have he' : e < p.arcs.size := by rw [hp.size_eq]; exact he
  have hrev : e ^^^ 1 < p.arcs.size := by
    rw [hp.size_eq]
    exact (xor_one_lt hwf.even).2 he
  have hpair := hp.pair_eq e
  have hbound := hword e
  let a := (net.withArcs p.arcs).residual e - amount
  let b := (net.withArcs p.arcs).residual (e ^^^ 1) + amount
  let arcs' := (p.arcs.modify e fun arc => { arc with residual := a }).modify (e ^^^ 1)
    fun arc => { arc with residual := b }
  have hpush : p.push e amount = .ok { p with arcs := arcs' } := by
    have hsub : Word.sub ((net.withArcs p.arcs).residual e) amount = .ok a := by
      simp [a, hroom]
    have hadd : Word.add ((net.withArcs p.arcs).residual (e ^^^ 1)) amount = .ok b := by
      simp only [Word.add_eq_ok_iff, b, and_true]
      omega
    simp only [residual, withArcs] at hsub hadd
    unfold Phase.push
    rw [hsub, hadd]
    rfl
  have hchange : ∀ f, (net.withArcs arcs').residual f + (if f = e then amount else 0) =
      (net.withArcs p.arcs).residual f + (if f = e ^^^ 1 then amount else 0) := by
    intro f
    have hne := xor_one_ne e
    rw [show (net.withArcs arcs').residual f = _ from residual_modify_modify he' hrev]
    by_cases hf : f = e
    · subst hf
      simp only [if_true, Ne.symm hne, if_false, a]
      omega
    · by_cases hf' : f = e ^^^ 1
      · subst hf'
        simp only [hne, if_false, if_true, b]
        omega
      · simp [hf, hf']
  have hsize : arcs'.size = p.arcs.size := by simp [arcs']
  have hmoves := @moves_of_residual (net.withArcs p.arcs) (net.withArcs arcs')
    (hp.wellFormed hwf) rfl hsize (fun f => head_modify_modify) e amount he' hchange
  rw [tail, hp.head_eq, hp.head_eq] at hmoves
  refine ⟨{ p with arcs := arcs' }, hpush, rfl, hmoves, ?_⟩
  intro f hf
  have hothers := hchange f
  rw [if_neg hf, Nat.add_zero] at hothers
  show _ ≤ (net.withArcs arcs').residual f
  omega

/-! ## One path -/

/-- The arc leads one step further, from a distance between `low` and `high`. -/
def Climbs (net : FlowNetwork) (dist : Array (Option Nat)) (low high e : Nat) : Prop :=
  ∃ k, low ≤ k ∧ k < high ∧ dist.getD (net.tail e) none = some k ∧
    dist.getD (net.head e) none = some (k + 1)

theorem Climbs.mono {dist : Array (Option Nat)} {low low' high e : Nat}
    (h : Climbs net dist low high e) (hle : low' ≤ low) : Climbs net dist low' high e := by
  obtain ⟨k, hlow, hhigh, htail, hhead⟩ := h
  exact ⟨k, Nat.le_trans hle hlow, hhigh, htail, hhead⟩

/-- Arcs with capacity lead from `v` to the sink, each one step further. -/
def Alive (net : FlowNetwork) (dist : Array (Option Nat)) (sink : Nat) (arcs : Array Arc) :
    Nat → Nat → Prop
  | 0, v => v = sink
  | steps + 1, v => ∃ e ∈ net.arcsFrom v, 0 < (net.withArcs arcs).residual e ∧
      deeper dist v (net.head e) = true ∧ Alive net dist sink arcs steps (net.head e)

/-- The number of steps to the sink is what the distances say. -/
theorem Alive.dist_eq {dist : Array (Option Nat)} {sink high : Nat} {arcs : Array Arc}
    (hsink : dist.getD sink none = some high) {steps v k : Nat}
    (h : Alive net dist sink arcs steps v) (hv : dist.getD v none = some k) :
    k + steps = high := by
  induction steps generalizing v k with
  | zero =>
    obtain rfl : v = sink := h
    rw [hsink] at hv
    exact (Option.some.inj hv).symm
  | succ steps ih =>
    obtain ⟨e, -, -, hdeep, hrest⟩ := h
    obtain ⟨j, hj, hhead⟩ := deeper_iff.1 hdeep
    obtain rfl : j = k := Option.some.inj (hj.symm.trans hv)
    have := ih hrest hhead
    omega

/-- No arc that may still be needed was given up. -/
def Complete (net : FlowNetwork) (dist : Array (Option Nat)) (sink : Nat) (p : Phase) : Prop :=
  ∀ steps v, Alive net dist sink p.arcs (steps + 1) v →
    ∃ e ∈ p.untried.getD v [], 0 < (net.withArcs p.arcs).residual e ∧
      deeper dist v (net.head e) = true ∧ Alive net dist sink p.arcs steps (net.head e)

/-- What a search for a path from `v`, which is `steps` arcs before the sink, gives:
it pushed `pushed` and left `p'`.  Whether arcs were given up too early before it
began is left open in `complete`. -/
structure Augments (net : FlowNetwork) (dist : Array (Option Nat)) (sink low steps : Nat)
    (complete : Prop) (v limit : Nat) (p : Phase) (pushed : Nat) (p' : Phase) : Prop where
  le_limit : pushed ≤ limit
  fits : p'.Fits net
  moves : Moves (net.withArcs p.arcs) (net.withArcs p'.arcs) v sink pushed
  keeps : ∀ e, ¬ Climbs net dist low (low + steps) e →
    (net.withArcs p.arcs).residual e ≤ (net.withArcs p'.arcs).residual e
  idle : pushed = 0 → p'.arcs = p.arcs ∧ (complete → Complete net dist sink p')
  finds : complete → Alive net dist sink p.arcs steps v → 0 < pushed

section Augment

variable {dist : Array (Option Nat)} {source sink : Nat}

/-- Giving up the arcs of a node from which the sink is out of reach. -/
private theorem complete_give_up {p : Phase} {v : Nat} (h : Complete net dist sink p)
    (hdead : ∀ steps, ¬ Alive net dist sink p.arcs (steps + 1) v) :
    Complete net dist sink { p with untried := p.untried.setIfInBounds v [] } := by
  intro steps x halive
  have hne : x ≠ v := by
    rintro rfl
    exact hdead steps halive
  obtain ⟨e, he, hrest⟩ := h steps x halive
  refine ⟨e, ?_, hrest⟩
  simpa [Array.getElem?_setIfInBounds_ne (Ne.symm hne)] using he

/-- A node none of whose arcs leads on to the sink: all of them are given up. -/
private theorem augments_give_up {low steps v limit : Nat} {complete : Prop} {p : Phase}
    (hp : p.Fits net) (hsink : dist.getD sink none = some (low + (steps + 1)))
    (hv : dist.getD v none = some low) (hcomplete : complete → Complete net dist sink p)
    (hdead : complete → ¬ Alive net dist sink p.arcs (steps + 1) v) :
    Augments net dist sink low (steps + 1) complete v limit p 0
      { p with untried := p.untried.setIfInBounds v [] } where
  le_limit := Nat.zero_le _
  fits := by
    refine hp.of_moves (.refl _ (Or.inr rfl) : Moves _ _ v v 0) ?_
    intro x e he
    rcases mem_getD_setIfInBounds he with ⟨-, he⟩ | ⟨-, he⟩
    · cases he
    · exact hp.untried_sub x e he
  moves := .refl _ (Or.inr rfl)
  keeps _ _ := Nat.le_refl _
  idle _ := by
    refine ⟨rfl, fun hc => complete_give_up (hcomplete hc) ?_⟩
    intro k halive
    -- the distances allow no other number of steps
    have hk := halive.dist_eq hsink hv
    obtain rfl : k = steps := by omega
    exact hdead hc halive
  finds hc halive := absurd halive (hdead hc)

/-- Going on where nothing was pushed is as good as having started there. -/
private theorem Augments.of_idle {low steps v limit pushed : Nat} {complete : Prop}
    {p p₁ p' : Phase} (hsame : p₁.arcs = p.arcs)
    (h : Augments net dist sink low steps complete v limit p₁ pushed p') :
    Augments net dist sink low steps complete v limit p pushed p' := by
  obtain ⟨hle, hfits, hmoves, hkeeps, hidle, hfinds⟩ := h
  rw [hsame] at hmoves hkeeps hidle hfinds
  exact ⟨hle, hfits, hmoves, hkeeps, hidle, hfinds⟩

/-- A push along the arc that leads to where a path starts makes the path longer. -/
private theorem Augments.push (hwf : net.WellFormed)
    (hword : ∀ e, net.residual e + net.residual (e ^^^ 1) < Word.bound)
    {low steps v limit room pushed e : Nat} {complete complete' : Prop} {p p₁ : Phase}
    (he : e ∈ net.arcsFrom v) (hv : dist.getD v none = some low)
    (hhead : dist.getD (net.head e) none = some (low + 1))
    (hroom : room ≤ (net.withArcs p.arcs).residual e) (hlimit : room ≤ limit)
    (hpushed : pushed ≠ 0) {rest : List Nat} (hrest : ∀ f ∈ rest, f ∈ net.arcsFrom v)
    (h : Augments net dist sink (low + 1) steps complete (net.head e) room p pushed p₁) :
    ∃ p₂, p₁.push e pushed = .ok p₂ ∧
      Augments net dist sink low (steps + 1) complete' v limit p pushed
        { p₂ with untried := p₂.untried.setIfInBounds v (e :: rest) } := by
  obtain ⟨hlt, htail⟩ := (hwf.mem_arcsFrom v e).1 he
  have hle := h.le_limit
  -- The path starts at the head, so it left the arc itself alone.
  have hkept : (net.withArcs p.arcs).residual e ≤ (net.withArcs p₁.arcs).residual e := by
    refine h.keeps e ?_
    rintro ⟨k, hlow, -, hk, -⟩
    rw [htail, hv] at hk
    have := Option.some.inj hk
    omega
  obtain ⟨p₂, hpush, huntried, hmoves, hothers⟩ := push_spec hwf hword h.fits hlt
    (Nat.le_trans hle (Nat.le_trans hroom hkept))
  rw [htail] at hmoves
  have hfits : p₂.Fits net := by
    refine h.fits.of_moves hmoves ?_
    rw [huntried]
    exact h.fits.untried_sub
  refine ⟨p₂, hpush, ⟨by omega, ?_, h.moves.trans hmoves, ?_, ?_, ?_⟩⟩
  · refine hfits.of_moves (.refl _ (Or.inr rfl) : Moves _ _ v v 0) ?_
    intro x f hf
    rcases mem_getD_setIfInBounds hf with ⟨rfl, hmem⟩ | ⟨-, hmem⟩
    · rcases List.mem_cons.1 hmem with rfl | hmem
      · exact he
      · exact hrest f hmem
    · exact hfits.untried_sub x f hmem
  · intro f hf
    have hne : f ≠ e := by
      rintro rfl
      exact hf ⟨low, Nat.le_refl _, by omega, by rw [htail, hv], hhead⟩
    refine Nat.le_trans (h.keeps f ?_) (hothers f hne)
    intro hclimb
    rw [show low + (steps + 1) = low + 1 + steps by omega] at hf
    exact hf (hclimb.mono (Nat.le_succ low))
  · exact fun hzero => absurd hzero hpushed
  · exact fun _ _ => Nat.pos_of_ne_zero hpushed

/-- Trying the arcs of a node, when what descends from their heads is right.  Of
the arcs that lead on to the sink one is among those still to be tried. -/
private theorem tryArcs_spec (hwf : net.WellFormed)
    (hword : ∀ e, net.residual e + net.residual (e ^^^ 1) < Word.bound)
    {descend : Nat → Nat → Phase → Except Fault (Nat × Phase)} {low steps v limit : Nat}
    {complete : Prop} (hsink : dist.getD sink none = some (low + (steps + 1)))
    (hv : dist.getD v none = some low) (hlimit : 0 < limit)
    (hdescend : ∀ w limit p, 0 < limit → p.Fits net → dist.getD w none = some (low + 1) →
      (complete → Complete net dist sink p) →
      ∃ pushed p', descend w limit p = .ok (pushed, p') ∧
        Augments net dist sink (low + 1) steps complete w limit p pushed p')
    (arcs : List Nat) (p : Phase) (hp : p.Fits net) (harcs : ∀ e ∈ arcs, e ∈ net.arcsFrom v)
    (hcomplete : complete → Complete net dist sink p)
    (hleft : complete → Alive net dist sink p.arcs (steps + 1) v →
      ∃ e ∈ arcs, 0 < (net.withArcs p.arcs).residual e ∧ deeper dist v (net.head e) = true ∧
        Alive net dist sink p.arcs steps (net.head e)) :
    ∃ pushed p', tryArcs descend dist v limit arcs p = .ok (pushed, p') ∧
      Augments net dist sink low (steps + 1) complete v limit p pushed p' := by
  induction arcs generalizing p with
  | nil =>
    refine ⟨0, _, rfl, augments_give_up hp hsink hv hcomplete ?_⟩
    intro hc halive
    obtain ⟨e, he, -⟩ := hleft hc halive
    cases he
  | cons e rest ih =>
    have hrest : ∀ e ∈ rest, e ∈ net.arcsFrom v := fun f hf => harcs f (List.mem_cons_of_mem e hf)
    obtain ⟨he, htail⟩ := (hwf.mem_arcsFrom v e).1 (harcs e List.mem_cons_self)
    have he' : e < p.arcs.size := by rw [hp.size_eq]; exact he
    have harc : p.arcs[e]? = some p.arcs[e] := getElem?_pos p.arcs e he'
    have hres : p.arcs[e].residual = (net.withArcs p.arcs).residual e := by
      simp [residual, withArcs, he']
    have hhead : p.arcs[e].target = net.head e := by
      rw [← hp.head_eq]
      simp [head, withArcs, he']
    -- An arc that leads nowhere is dropped from the list, and nothing is lost.
    have hskip : (complete → ¬ (0 < (net.withArcs p.arcs).residual e ∧
          deeper dist v (net.head e) = true ∧ Alive net dist sink p.arcs steps (net.head e))) →
        complete → Alive net dist sink p.arcs (steps + 1) v →
        ∃ f ∈ rest, 0 < (net.withArcs p.arcs).residual f ∧ deeper dist v (net.head f) = true ∧
          Alive net dist sink p.arcs steps (net.head f) := by
      intro hbad hc halive
      obtain ⟨f, hf, hgood⟩ := hleft hc halive
      rcases List.mem_cons.1 hf with rfl | hf
      · exact absurd hgood (hbad hc)
      · exact ⟨f, hf, hgood⟩
    unfold tryArcs
    rw [harc]
    simp only [hres, hhead]
    by_cases hcond : (0 < (net.withArcs p.arcs).residual e && deeper dist v (net.head e)) = true
    · obtain ⟨hpos, hdeep⟩ : 0 < (net.withArcs p.arcs).residual e ∧
          deeper dist v (net.head e) = true := by simpa using hcond
      obtain ⟨k, hk, hnext⟩ := deeper_iff.1 hdeep
      obtain rfl : low = k := Option.some.inj (hv.symm.trans hk)
      obtain ⟨pushed, p₁, hrun, haug⟩ := hdescend (net.head e)
        (min limit ((net.withArcs p.arcs).residual e)) p (by omega) hp hnext hcomplete
      simp only [hcond, if_true, hrun]
      by_cases hzero : pushed = 0
      · -- Nothing came through: the capacities are as before, and `e` is given up.
        obtain ⟨hsame, hstill⟩ := haug.idle hzero
        obtain ⟨pushed', p', hrun', haug'⟩ := ih p₁ haug.fits hrest hstill (by
          rw [hsame]
          refine hskip ?_
          rintro hc ⟨-, -, halive⟩
          exact absurd (haug.finds hc halive) (by omega))
        refine ⟨pushed', p', ?_, haug'.of_idle hsame⟩
        simp only [bind, Except.bind, hzero, if_true]
        exact hrun'
      · obtain ⟨p₂, hpush, haug'⟩ := haug.push hwf hword (harcs e List.mem_cons_self) hv hnext
          (Nat.min_le_right _ _) (Nat.min_le_left _ _) hzero hrest
        refine ⟨pushed, _, ?_, haug'⟩
        simp only [bind, Except.bind, hzero, if_false, hpush]
        rfl
    · simp only [hcond, Bool.false_eq_true, if_false]
      refine ih p hp hrest hcomplete (hskip ?_)
      rintro - ⟨h1, h2, -⟩
      exact hcond (by simp [h1, h2])

/-- One path: what is pushed moves from its start to the sink, and the path is
found if there is one. -/
theorem augment_spec (hwf : net.WellFormed)
    (hword : ∀ e, net.residual e + net.residual (e ^^^ 1) < Word.bound) {complete : Prop}
    (steps : Nat) {low v limit : Nat} {p : Phase} (hlimit : 0 < limit) (hp : p.Fits net)
    (hsink : dist.getD sink none = some (low + steps)) (hv : dist.getD v none = some low)
    (hcomplete : complete → Complete net dist sink p) :
    ∃ pushed p', augment dist sink steps v limit p = .ok (pushed, p') ∧
      Augments net dist sink low steps complete v limit p pushed p' := by
  induction steps generalizing low v limit p with
  | zero =>
    refine ⟨_, p, rfl, ?_⟩
    by_cases hvs : v = sink
    · rw [if_pos hvs]
      exact ⟨Nat.le_refl _, hp, .refl _ (Or.inl hvs), fun _ _ => Nat.le_refl _,
        fun _ => ⟨rfl, hcomplete⟩, fun _ _ => hlimit⟩
    · rw [if_neg hvs]
      exact ⟨Nat.zero_le _, hp, .refl _ (Or.inr rfl), fun _ _ => Nat.le_refl _,
        fun _ => ⟨rfl, hcomplete⟩, fun _ halive => absurd halive hvs⟩
  | succ steps ih =>
    unfold augment
    refine tryArcs_spec hwf hword hsink hv hlimit ?_ _ p hp (hp.untried_sub v) hcomplete ?_
    · intro w limit p hlimit hp hw hc
      exact ih hlimit hp (by rw [hsink]; congr 1; omega) hw hc
    · intro hc halive
      exact hcomplete hc steps v halive

end Augment

/-! ## One phase -/

section Phases

variable {dist : Array (Option Nat)} {source sink : Nat}

/-- The distances say how to get from the source to the sink. -/
theorem Measures.alive (hwf : net.WellFormed) (h : Measures net source dist) {steps : Nat}
    (hsink : dist.getD sink none = some steps) :
    Alive net dist sink net.arcs steps source := by
  -- Walk back from the sink, one distance at a time.
  have hback : ∀ k j, k + j = steps →
      ∃ v, dist.getD v none = some k ∧ Alive net dist sink net.arcs j v := by
    intro k j
    induction j generalizing k with
    | zero =>
      intro hk
      exact ⟨sink, by rw [hsink, ← hk]; rfl, rfl⟩
    | succ j ih =>
      intro hk
      obtain ⟨v, hv, halive⟩ := ih (k + 1) (by omega)
      obtain ⟨e, he, hpos, rfl, htail⟩ := h.back v k hv
      exact ⟨net.tail e, htail, e, (hwf.mem_arcsFrom _ e).2 ⟨he, rfl⟩, hpos,
        deeper_iff.2 ⟨k, htail, hv⟩, halive⟩
  obtain ⟨v, hv, halive⟩ := hback 0 steps (Nat.zero_add steps)
  obtain rfl := (h.zero_iff v).1 hv
  exact halive

/-- A phase starts with all arcs untried. -/
theorem complete_start (net : FlowNetwork) (dist : Array (Option Nat)) (sink : Nat) :
    Complete net dist sink ⟨net.arcs, net.leaving.map Array.toList⟩ := by
  intro steps v halive
  obtain ⟨e, he, hrest⟩ := halive
  refine ⟨e, ?_, hrest⟩
  unfold arcsFrom at he
  by_cases hv : v < net.leaving.size
  · simpa [hv] using he
  · simp [hv] at he

theorem fits_start (net : FlowNetwork) :
    Phase.Fits net ⟨net.arcs, net.leaving.map Array.toList⟩ where
  size_eq := rfl
  head_eq _ := rfl
  pair_eq _ := rfl
  untried_sub := by
    intro v e he
    unfold arcsFrom
    by_cases hv : v < net.leaving.size
    · simpa [hv] using he
    · simp [hv] at he

/-- What pushing more in a phase gives, with the accounts before and after. -/
structure Saturates (net : FlowNetwork) (dist : Array (Option Nat)) (source sink steps : Nat)
    (t : Tally) (p : Phase) (t' : Tally) (p' : Phase) (pushed : Nat) : Prop where
  total_eq : t'.total = t.total + pushed
  credit_eq : t'.credit + pushed = t.credit
  fits : p'.Fits net
  moves : Moves (net.withArcs p.arcs) (net.withArcs p'.arcs) source sink pushed
  keeps : ∀ e, ¬ Climbs net dist 0 steps e →
    (net.withArcs p.arcs).residual e ≤ (net.withArcs p'.arcs).residual e
  loop : PhaseLoop (fun p pushed p' => augment dist sink steps source unbounded p = .ok (pushed, p'))
    t.total p t'.total p'

/-- A phase ends, and it has pushed something if there was a path.  The credit is
at every moment what still leaves the source, so it never ends the phase. -/
theorem saturate_spec (hwf : net.WellFormed)
    (hword : ∀ e, net.residual e + net.residual (e ^^^ 1) < Word.bound) (hne : source ≠ sink)
    {steps : Nat} (hsource : dist.getD source none = some 0)
    (hsink : dist.getD sink none = some steps) (t : Tally) (p : Phase) (hp : p.Fits net)
    (hcredit : t.credit = (net.withArcs p.arcs).capacityFrom source)
    (hbound : t.total + t.credit < Word.bound) {complete : Prop}
    (hcomplete : complete → Complete net dist sink p) :
    ∃ t' p' pushed, saturate dist source sink steps t p = .ok (t', p') ∧
      Saturates net dist source sink steps t p t' p' pushed ∧
      (complete → Alive net dist sink p.arcs steps source → 0 < pushed) := by
  induction hc : t.credit using Nat.strong_induction_on generalizing t p complete with
  | _ credit ih =>
    obtain ⟨amount, p₁, hrun, haug⟩ := augment_spec hwf hword steps
      (by decide : 0 < unbounded) hp (by rw [hsink, Nat.zero_add]) hsource hcomplete
    have hkeeps : ∀ e, ¬ Climbs net dist 0 steps e →
        (net.withArcs p.arcs).residual e ≤ (net.withArcs p₁.arcs).residual e := by
      have h := haug.keeps
      rw [Nat.zero_add] at h
      exact h
    have hstart := haug.moves.capacityFrom_start hne
    have hle : amount ≤ t.credit := by omega
    unfold saturate
    rw [hrun]
    by_cases hpos : 0 < amount
    · -- The path carried something: the account changes and the phase goes on.
      have hadd : Word.add t.total amount = .ok (t.total + amount) := by
        simp only [Word.add_eq_ok_iff, and_true]
        omega
      obtain ⟨t', p', pushed, hrun', hsat, -⟩ := ih (t.credit - amount) (by omega)
        ⟨t.total + amount, t.credit - amount⟩ p₁ haug.fits (by show t.credit - amount = _; omega)
        (by show t.total + amount + (t.credit - amount) < _; omega) False.elim rfl
      refine ⟨t', p', amount + pushed, ?_,
        ⟨?_, ?_, hsat.fits, haug.moves.add hsat.moves, ?_, .again hrun hpos hadd hsat.loop⟩, ?_⟩
      · simpa [hpos, hle, hadd] using hrun'
      · have h := hsat.total_eq
        simp only at h
        omega
      · have h := hsat.credit_eq
        simp only at h
        omega
      · intro e he
        exact Nat.le_trans (hkeeps e he) (hsat.keeps e he)
      · intro _ _
        omega
    · obtain rfl : amount = 0 := by omega
      refine ⟨t, p₁, 0, by simp, ⟨rfl, rfl, haug.fits, haug.moves, hkeeps, .stop hrun⟩, ?_⟩
      intro hcompl halive
      exact haug.finds hcompl halive

/-! ## All phases -/

/-- An arc that leads to the source or leaves the sink never loses capacity. -/
theorem Measures.not_climbs (h : Measures net source dist) {steps e : Nat}
    (hsink : dist.getD sink none = some steps) (he : net.head e = source ∨ net.tail e = sink) :
    ¬ Climbs net dist 0 steps e := by
  rintro ⟨k, -, hk, htail, hhead⟩
  rcases he with rfl | rfl
  · rw [(h.zero_iff _).2 rfl] at hhead
    cases hhead
  · rw [hsink] at htail
    have := Option.some.inj htail
    omega

/-- The phases end without overflow, as they do by themselves, and in the network that they
leave the sink cannot be reached. -/
theorem runPhases_spec (hne : source ≠ sink) (net : FlowNetwork) (hwf : net.WellFormed)
    (hs : source < net.leaving.size)
    (hword : ∀ e, net.residual e + net.residual (e ^^^ 1) < Word.bound) (t : Tally)
    (hcredit : t.credit = net.capacityFrom source) (hbound : t.total + t.credit < Word.bound) :
    ∃ pushed net', runPhases source sink t net = .ok (t.total + pushed, net') ∧
      Moves net net' source sink pushed ∧
      reached (net'.distances source) sink = false ∧
      (∀ e, net.head e = source ∨ net.tail e = sink → net.residual e ≤ net'.residual e) ∧
      FlowLoop (fun dist => Descends dist sink source unbounded) source sink t.total net
        (t.total + pushed) net' := by
  induction hc : t.credit using Nat.strong_induction_on generalizing net t with
  | _ credit ih =>
    have hdist := measures_distances hwf hs
    unfold runPhases
    cases hsink : (net.distances source).getD sink none with
    | none =>
      refine ⟨0, net, by simp [hsink], .refl net (Or.inr rfl), by simp [reached, hsink],
        fun _ _ => Nat.le_refl _, .stop hsink⟩
    | some steps =>
      have hcomplete : True → Complete net (net.distances source) sink
          ⟨net.arcs, net.leaving.map Array.toList⟩ := fun _ => complete_start net _ sink
      have hsource := (hdist.zero_iff source).2 rfl
      obtain ⟨t', p', amount, hrun, hsat, hfound⟩ := saturate_spec hwf hword hne hsource hsink t
        ⟨net.arcs, net.leaving.map Array.toList⟩ (fits_start net) hcredit hbound hcomplete
      have hpos : 0 < amount := hfound trivial (hdist.alive hwf hsink)
      have htotal := hsat.total_eq
      have hspent := hsat.credit_eq
      have hmoves : Moves net (net.withArcs p'.arcs) source sink amount := hsat.moves
      have hstart := hmoves.capacityFrom_start hne
      obtain ⟨pushed, net', hrun', hmoves', hend, hkeeps, hloop⟩ := ih t'.credit (by omega)
        (net.withArcs p'.arcs) (hmoves.wellFormed hwf) hs
        (fun e => by rw [hmoves.pair_eq]; exact hword e) t' (by omega) (by omega) rfl
      have hsum : t.total + (amount + pushed) = t'.total + pushed := by omega
      refine ⟨amount + pushed, net', ?_, hmoves.add hmoves', hend, ?_, ?_⟩
      · have hless : t'.credit < t.credit := by omega
        simp only [hsink, hrun, hless, if_true]
        rw [hsum]
        exact hrun'
      · intro e he
        refine Nat.le_trans (hsat.keeps e (hdist.not_climbs hsink he)) (hkeeps e ?_)
        rw [hmoves.head_eq, hmoves.tail_eq]
        exact he
      · -- The free search leaves the same capacities, and these make up the next network.
        obtain ⟨n, hn⟩ := exists_distance_lt (net.distances source)
        obtain ⟨q', hphase, hagree⟩ := hsat.loop.descends hsink hn hsource (.refl _)
        rw [hsum]
        refine .again hsink hphase ?_
        rw [hagree.arcs_eq]
        exact hloop

/-- The maximum flow from source to sink: it is computed without overflow, it moves
from source to sink, the sink cannot be reached any more, and no arc into the
source or out of the sink has lost capacity. -/
theorem maxFlow_spec (hne : source ≠ sink) (hwf : net.WellFormed)
    (hs : source < net.leaving.size)
    (hword : ∀ e, net.residual e + net.residual (e ^^^ 1) < Word.bound)
    (hcap : net.capacityFrom source < Word.bound) :
    ∃ amount net', net.maxFlow source sink = .ok (amount, net') ∧
      Moves net net' source sink amount ∧
      reached (net'.distances source) sink = false ∧
      ∀ e, net.head e = source ∨ net.tail e = sink → net.residual e ≤ net'.residual e := by
  obtain ⟨amount, net', hrun, hmoves, hend, hkeeps, -⟩ := runPhases_spec hne net hwf hs hword
    ⟨0, net.capacityFrom source⟩ rfl (by simpa using hcap)
  refine ⟨amount, net', ?_, hmoves, hend, hkeeps⟩
  simpa [maxFlow] using hrun

end Phases

end TaskLoom.FlowNetwork
