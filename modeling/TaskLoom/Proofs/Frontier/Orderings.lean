import TaskLoom.Proofs.Frontier.Lockstep

/-!
# Ordering pairs of any tasks

A serialiser can be asked to order a pair of any frontier, also of one that nobody has measured
and whose tasks are in order already.  The ranks are those of the start, and no call computes
them anew.  They need not be: a pair is ordered by rank, so every edge that is ever added runs
forward in the order of the start, and no path leads back from the second task to the first.

More edges leave fewer tasks unordered, so no call raises the peak.

## Main results

* `Serialises.call` — a call orders two listed tasks by rank, or changes nothing.
* `Ordered.serialises`, `Ordered.weight_le` — what one call keeps.
* `Serialises.after` — what a sequence of calls keeps.
* `after_keepsOrder` — the same of every sequence of calls on a graph.
-/

namespace TaskLoom

/-- A frontier that lists tasks of a graph, each once. -/
structure Frontier.Lists (f : Frontier) (g : TaskGraph) : Prop where
  nodup : f.tasks.Nodup
  mem_ids : ∀ id ∈ f.tasks, id ∈ g.ids

namespace Serialiser

variable {s s' : Serialiser} {g : TaskGraph} {budget : Nat} {f : Frontier}
  {answer : Except Fault (Nat × Nat)}

/-! ## One call -/

/-- The answer to a call, and the serialiser for the calls that follow. -/
def call (s : Serialiser) (f : Frontier) : Except Fault (Nat × Nat) × Serialiser :=
  match s.orderPair f with
  | .ok (pair, s') => (.ok pair, s')
  | .error fault => (.error fault, s)

/-- The serialiser after some calls. -/
def after (s : Serialiser) (frontiers : List Frontier) : Serialiser :=
  frontiers.foldl (fun s f => (s.call f).2) s

/-- All that a call can do: two listed tasks are put in order by rank, or the call is refused
because no two of them hold memory, and nothing changes. -/
inductive Ordered (s : Serialiser) (f : Frontier) :
    Except Fault (Nat × Nat) → Serialiser → Prop
  | paired {a b : Nat} (ha : a ∈ f.tasks) (hb : b ∈ f.tasks) (hlt : s.rank a < s.rank b) :
    Ordered s f (.ok (a, b)) { s with
      graph := (s.graph.addEdge a b .control).2
      pending := s.pending ++ [(a, b)] }
  | refused {error : ScheduleError} (hshort : s.shortage f = .refused error)
    (hfew : (f.tasks.filter (0 < s.weight ·)).length ≤ 1) :
    Ordered s f (.error (.refused error)) s

theorem shortage_refused (s : Serialiser) (f : Frontier) :
    ∃ error, s.shortage f = .refused error := by
  unfold shortage
  split
  · exact ⟨_, rfl⟩
  · exact ⟨_, rfl⟩

/-- A call on listed tasks never finds them in the opposite order. -/
theorem Serialises.call (h : s.Serialises g budget) (hf : f.Lists g) :
    Ordered s f (s.call f).1 (s.call f).2 := by
  unfold Serialiser.call
  rcases h.orderPair hf.nodup hf.mem_ids with ⟨a, ha, b, hb, hlt, hpair⟩ | ⟨hshort, hfew⟩
  · rw [hpair]
    exact .paired ha hb hlt
  · obtain ⟨error, herror⟩ := s.shortage_refused f
    rw [(s.byWeight_perm f.tasks).length_eq] at hfew
    rw [hshort, herror]
    exact .refused herror hfew

namespace Ordered

variable (hcall : Ordered s f answer s')

include hcall

theorem rank_eq : s'.rank = s.rank := by
  cases hcall with
  | paired => rfl
  | refused => rfl

theorem weight_eq : s'.weight = s.weight := by
  cases hcall with
  | paired => rfl
  | refused => rfl

theorem joins {u v : Nat} (huv : s.graph.Joins u v) : s'.graph.Joins u v := by
  cases hcall with
  | paired => exact TaskGraph.joins_addEdge.2 (Or.inr huv)
  | refused => exact huv

theorem serialises (h : s.Serialises g budget) (hf : f.Lists g) : s'.Serialises g budget := by
  cases hcall with
  | paired ha hb hlt => exact h.add (hf.mem_ids _ ha) (hf.mem_ids _ hb) hlt
  | refused => exact h

/-- A call does not raise the peak. -/
theorem weight_le (hbytes : Word.total (g.ids.map g.cmxBytes) ≤ FlowNetwork.unbounded)
    (h : s.Serialises g budget) (hf : f.Lists g) :
    ∃ peak peak', s.heaviest = .ok peak ∧ s'.heaviest = .ok peak' ∧
      peak'.weight ≤ peak.weight := by
  have h' := hcall.serialises h hf
  obtain ⟨peak, hmeasure, hpeak⟩ := h.heaviest hbytes
  obtain ⟨peak', hmeasure', hpeak'⟩ := h'.heaviest hbytes
  refine ⟨peak, peak', hmeasure, hmeasure', ?_⟩
  exact hpeak.weight_le hpeak' (h'.ids_eq.trans h.ids_eq.symm) hcall.weight_eq
    fun _ _ huv => hcall.joins huv

end Ordered

/-! ## All calls -/

/-- A sequence of calls keeps the working copy in step with the graph, under the ranks of the
start. -/
theorem Serialises.after (h : s.Serialises g budget) (frontiers : List Frontier)
    (hlists : ∀ f ∈ frontiers, f.Lists g) :
    (s.after frontiers).Serialises g budget ∧ (s.after frontiers).rank = s.rank := by
  induction frontiers generalizing s with
  | nil => exact ⟨h, rfl⟩
  | cons f rest ih =>
    have hf := hlists f (by simp)
    have hcall := h.call hf
    have hrest := ih (hcall.serialises h hf) fun f' hf' => hlists f' (by simp [hf'])
    exact ⟨hrest.1, hrest.2.trans hcall.rank_eq⟩

/-- The order by rank is an order of the working copy. -/
theorem Serialises.isOrder (h : s.Serialises g budget) {order : List Nat} (horder : g.IsOrder order)
    (hrank : ∀ id ∈ g.ids, s.rank id = order.idxOf id) : s.graph.IsOrder order where
  perm := h.ids_eq.symm ▸ horder.perm
  forward := by
    intro u v huv
    have hlt := h.rank_lt u v huv
    rwa [hrank u (h.ids_eq ▸ h.wellFormed.joins_left huv),
      hrank v (h.ids_eq ▸ h.wellFormed.joins_right huv)] at hlt

/-- A serialiser whose ranks are an order of the graph at the start, and how it answers the next
call. -/
structure KeepsOrder (s : Serialiser) (g : TaskGraph) (order : List Nat) : Prop where
  rank_eq : ∀ id ∈ g.ids, s.rank id = order.idxOf id
  isOrder : s.graph.IsOrder order
  acyclic : s.graph.Acyclic
  /-- Listed tasks are put in order, or the call is refused and changes nothing. -/
  ordered : ∀ f : Frontier, f.Lists g → Ordered s f (s.call f).1 (s.call f).2
  /-- The peak stays or falls. -/
  weight_le : ∀ f : Frontier, f.Lists g → ∃ peak peak', s.heaviest = .ok peak ∧
    (s.call f).2.heaviest = .ok peak' ∧ peak'.weight ≤ peak.weight

/-- After any calls with tasks of an acyclic graph, the order of the start is an order of the
working copy, and the next call keeps to it and does not raise the peak. -/
theorem after_keepsOrder (hg : g.WellFormed) (hac : g.Acyclic)
    (hbytes : Word.total (g.ids.map g.cmxBytes) ≤ FlowNetwork.unbounded) (budget : Nat)
    (frontiers : List Frontier) (hlists : ∀ f ∈ frontiers, f.Lists g) :
    ∃ start order, ofGraph g budget = .ok start ∧ g.topologicalOrder = .ok order ∧
      (start.after frontiers).KeepsOrder g order := by
  obtain ⟨start, hstart, hprepares⟩ := ofGraph_spec hg hac (cmxBytes_lt_bound hbytes) budget
  obtain ⟨order, horder, hrank⟩ := rank_ofGraph hg hac hstart
  obtain ⟨order', horder', hisOrder⟩ := hg.topologicalOrder_ok hac
  cases horder.symm.trans horder'
  obtain ⟨hserialises, hkept⟩ := (hprepares.serialises hg).after frontiers hlists
  have hranks : ∀ id ∈ g.ids, (start.after frontiers).rank id = order.idxOf id := by
    intro id hid
    rw [hkept, hrank id hid]
  exact ⟨start, order, hstart, horder, {
    rank_eq := hranks
    isOrder := hserialises.isOrder hisOrder hranks
    acyclic := hserialises.acyclic
    ordered := fun f hf => hserialises.call hf
    weight_le := fun f hf => (hserialises.call hf).weight_le hbytes hserialises hf }⟩

/-- The first call lists two tasks that are in order already, the later one in front. -/
theorem after_keepsOrder_diamond :
    let frontiers : List Frontier := [⟨7, [1, 0], []⟩, ⟨0, [4, 3], [(0, 4)]⟩]
    TaskGraph.diamond.WellFormed ∧ TaskGraph.diamond.Acyclic ∧
      Word.total (TaskGraph.diamond.ids.map TaskGraph.diamond.cmxBytes) ≤ FlowNetwork.unbounded ∧
      (∀ f ∈ frontiers, f.Lists TaskGraph.diamond) ∧
      ∃ start order, ofGraph TaskGraph.diamond 100 = .ok start ∧
        TaskGraph.diamond.topologicalOrder = .ok order ∧
        (start.after frontiers).KeepsOrder TaskGraph.diamond order := by
  intro frontiers
  have hbytes : Word.total (TaskGraph.diamond.ids.map TaskGraph.diamond.cmxBytes) ≤
      FlowNetwork.unbounded := by decide
  have hlists : ∀ f ∈ frontiers, f.Lists TaskGraph.diamond := by
    simp only [frontiers, List.forall_mem_cons]
    exact ⟨⟨by decide, by decide⟩, ⟨by decide, by decide⟩, by simp⟩
  exact ⟨TaskGraph.wellFormed_diamond, TaskGraph.acyclic_diamond, hbytes, hlists,
    after_keepsOrder TaskGraph.wellFormed_diamond TaskGraph.acyclic_diamond hbytes 100 frontiers
      hlists⟩

end Serialiser

end TaskLoom
