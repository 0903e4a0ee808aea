import TypeFlow.Proofs.Balance

/-!
# A graph with exact books

Between two operations a graph is settled: reasons balance supply, dead vertices hold nothing, every
vertex knows the number of edges into it, and slots to be handed out again are dead and detached.
`born` tells what each vertex was created with. Every operation on vertices and edges keeps this,
whatever it is applied to.
-/

set_option autoImplicit false

namespace TypeFlow.Graph

def indegree (g : Graph) (d : VertexId) : Nat :=
  g.vertices.total fun x => if d ∈ x.successors then 1 else 0

structure Kept (g : Graph) (born : VertexId → List Ty) : Prop where
  tidy : g.Tidy
  dead : ∀ v, (g.get v).alive = false → (g.get v).types = {}
  literals : ∀ v t, (g.get v).alive = true →
    ((g.get v).origins t).count .literal = (born v).count t
  incoming : ∀ d, (g.get d).incoming = g.indegree d
  nodup : (g.vertices.released ++ g.vertices.free).Nodup
  given_up : ∀ i ∈ g.vertices.released ++ g.vertices.free,
    i < g.vertices.size ∧ (g.get ⟨i⟩).alive = false
  detached : ∀ i ∈ g.vertices.free, (g.get ⟨i⟩).successors = [] ∧ (g.get ⟨i⟩).incoming = 0

structure Settled (g : Graph) (born : VertexId → List Ty) : Prop extends Kept g born where
  balanced : g.Balanced noDebt noDebt

variable {g : Graph} {born : VertexId → List Ty}
variable {d s v : VertexId} {g' : Graph}

theorem get?_eq_some (h : v.index < g.vertices.size) :
    g.vertices.get? v.index = some (g.get v) := by
  obtain ⟨x, hx⟩ := Slots.exists_get?_of_lt h
  simp [get, hx]

theorem get_of_size_le (h : g.vertices.size ≤ v.index) :
    g.get v = Vertex.absent := by
  simp [get, Slots.get?_eq_none_iff.2 h]

theorem lt_size_of_edge (h : d ∈ (g.get s).successors) :
    s.index < g.vertices.size := by
  by_contra hs
  rw [get_of_size_le (Nat.le_of_not_lt hs)] at h
  exact absurd h List.not_mem_nil

theorem lt_size_of_mem {t : Ty} (ht : t ∈ (g.get v).typeList) :
    v.index < g.vertices.size := by
  by_contra hv
  rw [get_of_size_le (Nat.le_of_not_lt hv)] at ht
  exact List.not_mem_nil ht

theorem indegree_pos (h : d ∈ (g.get s).successors) : 0 < g.indegree d := by
  have hg := get?_eq_some (lt_size_of_edge h)
  unfold Slots.get? at hg
  rw [← Array.getElem?_toList] at hg
  have hm := List.mem_of_getElem? hg
  unfold indegree Slots.total
  refine List.sum_pos_iff_exists_pos_nat.2 ⟨1, List.mem_map.2 ⟨_, hm, if_pos h⟩, Nat.one_pos⟩

theorem total_congr {f : Vertex → Nat} (hs : g'.vertices.size = g.vertices.size)
    (h : ∀ v, f (g'.get v) = f (g.get v)) : g'.vertices.total f = g.vertices.total f := by
  unfold Slots.total
  congr 1
  apply List.ext_getElem?
  intro i
  have hi := h ⟨i⟩
  simp only [List.getElem?_map, Array.getElem?_toList]
  by_cases hlt : i < g.vertices.size
  · have h1 := get?_eq_some (g := g) (v := ⟨i⟩) hlt
    have h2 := get?_eq_some (g := g') (v := ⟨i⟩) (by rw [hs]; exact hlt)
    unfold Slots.get? at h1 h2
    simp only [h1, h2, Option.map_some, hi]
  · have h1 : g.vertices.get? i = none := Slots.get?_eq_none_iff.2 (by omega)
    have h2 : g'.vertices.get? i = none := Slots.get?_eq_none_iff.2 (by omega)
    unfold Slots.get? at h1 h2
    simp only [h1, h2, Option.map_none]

theorem indegree_congr (hs : g'.vertices.size = g.vertices.size)
    (h : ∀ v, (g'.get v).successors = (g.get v).successors) (d : VertexId) :
    g'.indegree d = g.indegree d :=
  total_congr hs fun v => by rw [h v]

theorem Kept.flowed (h : g.Kept born) (hf : Flowed g g') (ht : g'.Tidy) :
    g'.Kept born where
  tidy := ht
  dead v hv := by
    rw [hf.alive] at hv
    rw [hf.dead v hv]
    exact h.dead v hv
  literals v t hv := by
    rw [hf.alive] at hv
    rw [hf.literals]
    exact h.literals v t hv
  incoming d := by
    rw [indegree_congr hf.size hf.successors, hf.rest]
    exact h.incoming d
  nodup := by
    rw [hf.released, hf.free]
    exact h.nodup
  given_up i hi := by
    rw [hf.released, hf.free] at hi
    rw [hf.size, hf.alive]
    exact h.given_up i hi
  detached i hi := by
    rw [hf.free] at hi
    rw [hf.successors, hf.rest]
    exact h.detached i hi

theorem Settled.similar (h : g.Settled born)
    (hs : SameSlots g g') (ht : g'.Tidy) (htypes : ∀ u, (g'.get u).types = (g.get u).types)
    (hsucc : ∀ u, (g'.get u).successors = (g.get u).successors)
    (halive : ∀ u, (g'.get u).alive = (g.get u).alive)
    (hin : ∀ u, (g'.get u).incoming = (g.get u).incoming) : g'.Settled born where
  tidy := ht
  dead u hu := by
    rw [halive] at hu
    rw [htypes]
    exact h.dead u hu
  literals u t hu := by
    rw [halive] at hu
    unfold Vertex.origins
    rw [htypes]
    exact h.literals u t hu
  incoming d := by
    rw [indegree_congr hs.size hsucc, hin]
    exact h.incoming d
  nodup := by
    rw [hs.released, hs.free]
    exact h.nodup
  given_up i hi := by
    rw [hs.released, hs.free] at hi
    rw [hs.size, halive]
    exact h.given_up i hi
  detached i hi := by
    rw [hs.free] at hi
    rw [hsucc, hin]
    exact h.detached i hi
  balanced s d t hd := by
    rw [halive] at hd
    have hb := h.balanced s d t hd
    unfold recorded supply Vertex.origins Vertex.typeList at hb ⊢
    rw [htypes, htypes, hsucc, halive]
    exact hb

theorem Kept.typeList_of_dead (h : g.Kept born) (hv : (g.get v).alive = false) :
    (g.get v).typeList = [] := by
  unfold Vertex.typeList
  rw [h.dead v hv]
  rfl

/-- With nothing on its way, an edge is a reason for every type at its start, once. -/
theorem Settled.count_edge (h : g.Settled born) (hd : (g.get d).alive = true)
    (s : VertexId) (t : Ty) :
    ((g.get d).origins t).count (.edge s) =
      if d ∈ (g.get s).successors ∧ t ∈ (g.get s).typeList then 1 else 0 := by
  have hb := h.balanced s d t hd
  refine (Nat.add_right_cancel hb).trans (if_congr ⟨fun hc => hc.2, fun hc => ⟨?_, hc⟩⟩ rfl rfl)
  by_contra hs
  rw [h.typeList_of_dead (by simpa using hs)] at hc
  exact absurd hc.2 List.not_mem_nil

section Alloc

variable {x : Vertex}

theorem get_alloc (h : g.Settled born) (x : Vertex) (u : VertexId) :
    (g.alloc x).2.get u = if (g.alloc x).1 = u then x else g.get u := by
  have hfree : ∀ i ∈ g.vertices.free, i < g.vertices.size := fun i hi =>
    (h.given_up i (List.mem_append_right _ hi)).1
  have hslot := Slots.get?_alloc hfree x u.index
  unfold get alloc
  simp only [hslot]
  by_cases hu : (g.vertices.alloc x).1 = u.index
  · have : (⟨(g.vertices.alloc x).1⟩ : VertexId) = u := by rw [hu]
    simp [hu]
  · have : ¬(⟨(g.vertices.alloc x).1⟩ : VertexId) = u := fun e => hu (by rw [← e])
    simp [hu, this]

/-- The slot that is handed out was dead, without edges out of it or into it. -/
theorem alloc_detached (h : g.Settled born) (x : Vertex) :
    (g.get (g.alloc x).1).alive = false ∧ (g.get (g.alloc x).1).successors = [] ∧
      (g.get (g.alloc x).1).incoming = 0 := by
  unfold alloc Slots.alloc
  cases hf : g.vertices.free with
  | nil =>
    have := get_of_size_le (g := g) (v := ⟨g.vertices.slots.size⟩) (Nat.le_refl _)
    simp only [this]
    exact ⟨rfl, rfl, rfl⟩
  | cons i rest =>
    have hi : i ∈ g.vertices.free := by rw [hf]; exact List.mem_cons_self
    obtain ⟨hn, hin⟩ := h.detached i hi
    exact ⟨(h.given_up i (List.mem_append_right _ hi)).2, hn, hin⟩

theorem slots_alloc (h : g.Settled born) (x : Vertex) :
    (g.alloc x).2.vertices.released = g.vertices.released ∧
      (g.alloc x).2.vertices.free = g.vertices.free.tail ∧
      g.vertices.size ≤ (g.alloc x).2.vertices.size ∧
      ∀ i ∈ g.vertices.released ++ g.vertices.free.tail, (g.alloc x).1 ≠ ⟨i⟩ := by
  obtain ⟨hrel, hfree, hsize, hne⟩ :=
    Slots.slots_alloc h.nodup (fun i hi => (h.given_up i hi).1) x
  exact ⟨hrel, hfree, hsize, fun i hi he => hne i hi (congrArg VertexId.index he)⟩

theorem indegree_alloc (h : g.Settled born) (hx : x.next = {}) (d : VertexId) :
    (g.alloc x).2.indegree d = g.indegree d := by
  have hnone : (if d ∈ x.successors then 1 else 0) = 0 := by simp [Vertex.successors, hx]
  unfold indegree alloc Slots.alloc
  cases hf : g.vertices.free with
  | nil => simp [Slots.total, hnone]
  | cons j rest =>
    have hj : j ∈ g.vertices.free := by rw [hf]; exact List.mem_cons_self
    have hlt := (h.given_up j (List.mem_append_right _ hj)).1
    have hold : (if d ∈ (g.get ⟨j⟩).successors then 1 else 0) = 0 := by
      simp [(h.detached j hj).1]
    have := Slots.total_modify (get?_eq_some (g := g) (v := ⟨j⟩) hlt) (fun _ => x)
      fun x => if d ∈ x.successors then 1 else 0
    simp only [hold, hnone, Nat.add_zero] at this
    exact this

theorem supply_alloc (h : g.Settled born) (hx : x.next = {}) (s d : VertexId) (t : Ty) :
    (g.alloc x).2.supply s d t = if (g.alloc x).1 = d then 0 else g.supply s d t := by
  obtain ⟨hdead, _, hin⟩ := alloc_detached h x
  have hno : ∀ s, (g.alloc x).1 ∉ (g.get s).successors := by
    intro s hs
    have := indegree_pos hs
    rw [← h.incoming, hin] at this
    exact absurd this (Nat.lt_irrefl 0)
  unfold supply
  rw [get_alloc h]
  by_cases hs : (g.alloc x).1 = s
  · have hxs : x.successors = [] := by simp [Vertex.successors, hx]
    rw [if_pos hs, hxs, ← hs, hdead]
    simp
  · rw [if_neg hs]
    by_cases hd : (g.alloc x).1 = d
    · simp [← hd, hno]
    · simp [hd]

/-- A new vertex with literal reasons only, and without edges, fits in. -/
theorem Settled.alloc (h : g.Settled born) (hx : x.Tidy) (halive : x.alive = true)
    (hnext : x.next = {}) (hin : x.incoming = 0) {types : List Ty}
    (hlit : ∀ t, x.origins t = List.replicate (types.count t) .literal) :
    (g.alloc x).2.Settled (Function.update born (g.alloc x).1 types) := by
  have hget := get_alloc h x
  obtain ⟨_, _, hvin⟩ := alloc_detached h x
  obtain ⟨hrel, hfree, hsize, hne⟩ := slots_alloc h x
  have hrecorded : ∀ s d t, (g.alloc x).2.recorded s d t =
      if (g.alloc x).1 = d then 0 else g.recorded s d t := by
    intro s d t
    unfold recorded
    rw [hget]
    by_cases hd : (g.alloc x).1 = d
    · simp [hd, hlit, List.count_replicate]
    · simp [hd]
  have hsub := List.Sublist.append_left (List.tail_sublist g.vertices.free) g.vertices.released
  refine ⟨⟨fun u => ?_, fun u hu => ?_, fun u t hu => ?_, fun d => ?_, ?_, fun i hi => ?_,
    fun i hi => ?_⟩, fun s d t hd => ?_⟩
  · rw [hget]
    split
    · exact hx
    · exact h.tidy u
  · rw [hget] at hu ⊢
    by_cases hv : (g.alloc x).1 = u
    · rw [if_pos hv, halive] at hu
      exact Bool.noConfusion hu
    · rw [if_neg hv] at hu ⊢
      exact h.dead u hu
  · rw [hget] at hu ⊢
    by_cases hv : (g.alloc x).1 = u
    · simp [hv, hlit]
    · rw [if_neg hv] at hu ⊢
      rw [Function.update_of_ne (Ne.symm hv)]
      exact h.literals u t hu
  · rw [indegree_alloc h hnext, hget]
    by_cases hv : (g.alloc x).1 = d
    · rw [if_pos hv, hin, ← hv, ← h.incoming, hvin]
    · rw [if_neg hv]
      exact h.incoming d
  · rw [hrel, hfree]
    exact h.nodup.sublist hsub
  · rw [hrel, hfree] at hi
    rw [hget, if_neg (hne i hi)]
    have hi' := h.given_up i (hsub.subset hi)
    exact ⟨Nat.lt_of_lt_of_le hi'.1 hsize, hi'.2⟩
  · rw [hfree] at hi
    rw [hget, if_neg (hne i (List.mem_append_right _ hi))]
    exact h.detached i (List.mem_of_mem_tail hi)
  · rw [supply_alloc h hnext, hrecorded]
    by_cases hv : (g.alloc x).1 = d
    · simp [hv]
    · rw [hget, if_neg hv] at hd
      simpa [hv] using h.balanced s d t hd

end Alloc

section Create

theorem Settled.newVertex (h : g.Settled born) (label : String) (node : Option NodeId) :
    (g.newVertex label node).2.Settled (Function.update born (g.newVertex label node).1 []) :=
  h.alloc (Vertex.blank_tidy label node) rfl rfl rfl fun _ => rfl

theorem Settled.newSource (h : g.Settled born) (types : List Ty) (node : Option NodeId) :
    (g.newSource types node).2.Settled (Function.update born (g.newSource types node).1 types) :=
  h.alloc (Vertex.ofTypes_tidy types node) rfl rfl rfl (Vertex.origins_ofTypes types node)

theorem Settled.withShared (h : g.Settled born) (shared : OrderedMap (List Ty) VertexId) :
    { g with shared }.Settled born :=
  ⟨⟨h.tidy, h.dead, h.literals, h.incoming, h.nodup, h.given_up, h.detached⟩, h.balanced⟩

def bornWithSource (g : Graph) (born : VertexId → List Ty) (types : List Ty) : VertexId → List Ty :=
  if (g.shared.get? types).isSome then born else Function.update born (g.source types).1 types

theorem source_eq_of_some {types : List Ty} {v : VertexId} (h : g.shared.get? types = some v) :
    g.source types = (v, g) := by
  simp [source, h]

theorem source_eq_of_none {types : List Ty} (h : g.shared.get? types = none) :
    g.source types = ((g.newSource types none).1, { (g.newSource types none).2 with
      shared := g.shared.insert types (g.newSource types none).1 }) := by
  unfold source
  rw [h]
  rfl

theorem Settled.source (h : g.Settled born) (types : List Ty) :
    (g.source types).2.Settled (g.bornWithSource born types) := by
  unfold bornWithSource
  cases hs : g.shared.get? types with
  | some v =>
    rw [source_eq_of_some hs]
    exact h
  | none =>
    rw [source_eq_of_none hs]
    exact (h.newSource types none).withShared _

end Create

section Edges

variable {src dst : VertexId} {next : OrderedMap VertexId Nat} {k : Nat}

structure Rewired (src dst : VertexId) (next : OrderedMap VertexId Nat) (k : Nat)
    (g g' : Graph) : Prop extends SameSlots g g' where
  get : ∀ u, g'.get u = { g.get u with
    next := if src = u then next else (g.get u).next
    incoming := if dst = u then k else (g.get u).incoming }
  indegree : ∀ d, g'.indegree d + (if d ∈ (g.get src).successors then 1 else 0) =
    g.indegree d + if d ∈ next.keys then 1 else 0

theorem rewired (change : OrderedMap VertexId Nat → OrderedMap VertexId Nat) (count : Nat → Nat)
    (added removed : Nat) (hs : src.index < g.vertices.size) (hd : dst.index < g.vertices.size) :
    Rewired src dst (change (g.get src).next) (count (g.get dst).incoming) g
      { (g.modify src fun v => { v with next := change v.next }).modify dst fun v =>
          { v with incoming := count v.incoming } with
        edgesAdded := added, edgesRemoved := removed } where
  size := by simp
  released := rfl
  free := rfl
  get u := by
    change ((g.modify src fun v => { v with next := change v.next }).modify dst fun v =>
      { v with incoming := count v.incoming }).get u = _
    rw [get_modify, get_modify, size_modify]
    by_cases hsu : src = u
    · subst hsu
      by_cases hdu : dst = src
      · simp [hdu, hs]
      · simp [hdu, hs]
    · by_cases hdu : dst = u
      · subst hdu
        simp [hsu, hd]
      · simp [hsu, hdu]
  indegree d := by
    change ((g.modify src fun v => { v with next := change v.next }).modify dst fun v =>
      { v with incoming := count v.incoming }).indegree d + _ = _
    rw [indegree_congr (g := g.modify src fun v => { v with next := change v.next }) (by simp)]
    · exact Slots.total_modify (get?_eq_some hs) _ _
    · intro u
      rw [get_modify]
      split <;> rfl

variable {g' : Graph}

theorem Rewired.successors (h : Rewired src dst next k g g') (u : VertexId) :
    (g'.get u).successors = if src = u then next.keys else (g.get u).successors := by
  rw [h.get]
  unfold Vertex.successors
  split <;> rfl

theorem Rewired.recorded (h : Rewired src dst next k g g') (s d : VertexId) (t : Ty) :
    g'.recorded s d t = g.recorded s d t := by
  unfold Graph.recorded
  rw [h.get]
  rfl

theorem Rewired.supply (h : Rewired src dst next k g g')
    (hother : ∀ d, d ≠ dst → (d ∈ next.keys ↔ d ∈ (g.get src).successors)) (s d : VertexId)
    (t : Ty) :
    g'.supply s d t = if src = s ∧ dst = d then
      (if (g.get src).alive = true ∧ dst ∈ next.keys ∧ t ∈ (g.get src).typeList then 1 else 0)
      else g.supply s d t := by
  have halive : (g'.get s).alive = (g.get s).alive := by rw [h.get]
  have htypes : (g'.get s).typeList = (g.get s).typeList := by rw [h.get]; rfl
  have hsucc := h.successors s
  unfold Graph.supply
  rw [halive, htypes]
  by_cases hsd : src = s ∧ dst = d
  · rw [if_pos hsd]
    obtain ⟨rfl, rfl⟩ := hsd
    rw [if_pos rfl] at hsucc
    rw [hsucc]
  · rw [if_neg hsd]
    refine if_congr ?_ rfl rfl
    rw [hsucc]
    by_cases hs : src = s
    · subst hs
      rw [if_pos rfl, hother d fun e => hsd ⟨rfl, e.symm⟩]
    · rw [if_neg hs]

theorem Kept.rewired (h : g.Kept born) (hr : Rewired src dst next k g g') (hn : next.keys.Nodup)
    (hown : ∀ d ∈ next.keys, 0 < (next.get? d).getD 0)
    (hother : ∀ d, d ≠ dst → (d ∈ next.keys ↔ d ∈ (g.get src).successors))
    (hk : k + (if dst ∈ (g.get src).successors then 1 else 0) =
      (g.get dst).incoming + if dst ∈ next.keys then 1 else 0)
    (hs : src.index ∉ g.vertices.free) (hd : dst.index ∉ g.vertices.free) : g'.Kept born where
  tidy u := by
    rw [hr.get]
    have hu := h.tidy u
    by_cases hsu : src = u
    · simp only [hsu, if_true]
      exact ⟨hu.types_nodup, hn, hu.reasons, hown⟩
    · simp only [hsu, if_false]
      exact ⟨hu.types_nodup, hu.next_nodup, hu.reasons, hu.owned⟩
  dead u hu := by
    rw [hr.get] at hu ⊢
    exact h.dead u hu
  literals u t hu := by
    rw [hr.get] at hu ⊢
    exact h.literals u t hu
  incoming u := by
    have hi := hr.indegree u
    have hu := h.incoming u
    rw [hr.get]
    by_cases hdu : dst = u
    · subst hdu
      simp only [if_true]
      omega
    · simp only [hdu, if_false]
      have := hother u fun e => hdu e.symm
      by_cases hm : u ∈ next.keys
      · rw [if_pos hm, if_pos (this.1 hm)] at hi
        omega
      · rw [if_neg hm, if_neg fun e => hm (this.2 e)] at hi
        omega
  nodup := by
    rw [hr.released, hr.free]
    exact h.nodup
  given_up i hi := by
    rw [hr.released, hr.free] at hi
    rw [hr.size, hr.get]
    exact h.given_up i hi
  detached i hi := by
    rw [hr.free] at hi
    have hsi : src ≠ ⟨i⟩ := fun e => hs (by rw [e]; exact hi)
    have hdi : dst ≠ ⟨i⟩ := fun e => hd (by rw [e]; exact hi)
    rw [hr.successors, hr.get]
    simpa [hsi, hdi] using h.detached i hi

theorem Kept.not_free_of_alive (h : g.Kept born) {v : VertexId} (hv : (g.get v).alive = true) :
    v.index ∉ g.vertices.free := by
  intro hf
  have := (h.given_up v.index (List.mem_append_right _ hf)).2
  rw [hv] at this
  exact Bool.noConfusion this

theorem Kept.lt_size_of_edge_to (h : g.Kept born) (hd : dst ∈ (g.get src).successors) :
    dst.index < g.vertices.size := by
  by_contra hs
  have := indegree_pos hd
  rw [← h.incoming, get_of_size_le (Nat.le_of_not_lt hs)] at this
  exact absurd this (Nat.lt_irrefl 0)

theorem Kept.not_free_of_edge (h : g.Kept born) (hd : dst ∈ (g.get src).successors) :
    src.index ∉ g.vertices.free ∧ dst.index ∉ g.vertices.free := by
  constructor
  · intro hf
    rw [(h.detached src.index hf).1] at hd
    exact absurd hd List.not_mem_nil
  · intro hf
    have := indegree_pos hd
    rw [← h.incoming, (h.detached dst.index hf).2] at this
    exact absurd this (Nat.lt_irrefl 0)

theorem Settled.reown (h : g.Settled born) (hd : dst ∈ (g.get src).successors) {n : Nat}
    (hn : 0 < n) :
    (g.modify src fun v => { v with next := v.next.insert dst n }).Settled born := by
  have hkeys : ((g.get src).next.insert dst n).keys = (g.get src).successors := by
    rw [OrderedMap.keys_insert]
    exact if_pos hd
  have hget : ∀ u, (g.modify src fun v => { v with next := v.next.insert dst n }).get u = g.get u ∨
      u = src ∧ (g.modify src fun v => { v with next := v.next.insert dst n }).get u =
        { g.get src with next := (g.get src).next.insert dst n } := by
    intro u
    rw [get_modify]
    by_cases hu : src = u ∧ u.index < g.vertices.size
    · rw [if_pos hu]
      exact Or.inr ⟨hu.1.symm, by rw [hu.1]⟩
    · rw [if_neg hu]
      exact Or.inl rfl
  refine h.similar (.modify ..) (fun u => ?_) (fun u => ?_) (fun u => ?_) (fun u => ?_)
    fun u => ?_
  · rcases hget u with hu | ⟨rfl, hu⟩
    · rw [hu]
      exact h.tidy u
    · rw [hu]
      have ht := h.tidy u
      refine ⟨ht.types_nodup, ?_, ht.reasons, fun d hm => ?_⟩
      · change ((g.get u).next.insert dst n).keys.Nodup
        rw [hkeys]
        exact ht.next_nodup
      · unfold Vertex.owners
        rw [OrderedMap.get?_insert]
        by_cases hdst : dst = d
        · simpa [hdst] using hn
        · rw [if_neg hdst]
          exact ht.owned d (hkeys ▸ hm)
  · rcases hget u with hu | ⟨rfl, hu⟩ <;> rw [hu]
  · rcases hget u with hu | ⟨rfl, hu⟩
    · rw [hu]
    · rw [hu]
      exact hkeys
  · rcases hget u with hu | ⟨rfl, hu⟩ <;> rw [hu]
  · rcases hget u with hu | ⟨rfl, hu⟩ <;> rw [hu]

theorem Settled.link (h : g.Settled born) (hs : (g.get src).alive = true)
    (hd : (g.get dst).alive = true) (hno : dst ∉ (g.get src).successors) {g' : Graph}
    (hr : Rewired src dst ((g.get src).next.insert dst 1) ((g.get dst).incoming + 1) g g') :
    (g'.bring dst src (g'.typesAt src)).graph.Settled born := by
  have ht := h.tidy src
  have hmem (d : VertexId) :
      d ∈ ((g.get src).next.insert dst 1).keys ↔ d = dst ∨ d ∈ (g.get src).successors :=
    OrderedMap.mem_keys_insert
  have hother : ∀ d, d ≠ dst →
      (d ∈ ((g.get src).next.insert dst 1).keys ↔ d ∈ (g.get src).successors) :=
    fun d hne => by simp [hmem, hne]
  have hkept : g'.Kept born := by
    refine h.toKept.rewired hr (OrderedMap.nodup_keys_insert _ _ ht.next_nodup) (fun d hm => ?_)
      hother (by simp [hmem, hno]) (h.not_free_of_alive hs) (h.not_free_of_alive hd)
    rw [OrderedMap.get?_insert]
    by_cases hdst : dst = d
    · simp [hdst]
    · rw [if_neg hdst]
      exact ht.owned d ((hother d fun e => hdst e.symm).1 hm)
  have hbal : g'.Balanced (Arrival.carries ⟨dst, src, g'.typesAt src⟩) noDebt := by
    intro s d t hdl
    have hdl' : (g.get d).alive = true := by rwa [hr.get] at hdl
    have htypes : g'.typesAt src = (g.get src).typeList := by
      unfold typesAt
      rw [hr.get]
      rfl
    have hold := h.balanced s d t hdl'
    rw [hr.recorded, hr.supply hother, htypes]
    unfold Arrival.carries
    by_cases hsd : src = s ∧ dst = d
    · obtain ⟨rfl, rfl⟩ := hsd
      have hzero : g.supply src dst t = 0 := by simp [supply, hno]
      rw [hzero] at hold
      have hcount : (g.get src).typeList.count t = if t ∈ (g.get src).typeList then 1 else 0 :=
        ht.types_nodup.count
      simp only [hs, hmem, hcount, noDebt, true_and, true_or, and_self, if_true] at hold ⊢
      omega
    · simp only [hsd, if_false]
      exact hold
  obtain ⟨hflow, htidy, hb⟩ := bring_spec hkept.tidy hbal
  exact ⟨hkept.flowed hflow htidy, hb⟩

theorem Settled.addEdge (h : g.Settled born) (src dst : VertexId) :
    (g.addEdge src dst).2.graph.Settled born := by
  unfold Graph.addEdge
  by_cases hlive : ((g.get src).alive && (g.get dst).alive) = true
  · obtain ⟨hs, hd⟩ := Bool.and_eq_true_iff.1 hlive
    have hst := h.tidy src
    rw [if_pos hlive]
    by_cases ho : (g.get src).owners dst = 0
    · have hno : dst ∉ (g.get src).successors := fun hm => hst.mem_successors.1 hm ho
      simp only [ho, if_true]
      exact h.link hs hd hno (rewired (·.insert dst 1) (· + 1) _ _ (lt_size_of_alive hs)
        (lt_size_of_alive hd))
    · simp only [ho, if_false]
      exact h.reown (hst.mem_successors.2 ho) (Nat.succ_pos _)
  · rw [if_neg hlive]
    exact h

theorem Settled.unlink (h : g.Settled born) (hm : dst ∈ (g.get src).successors) {g' : Graph}
    (hr : Rewired src dst ((g.get src).next.erase dst) ((g.get dst).incoming - 1) g g') :
    (g'.retract dst src (g'.typesAt src)).graph.Settled born := by
  have ht := h.tidy src
  have hmem : ∀ d, d ∈ ((g.get src).next.erase dst).keys ↔ d ∈ (g.get src).successors ∧ d ≠ dst :=
    fun d => OrderedMap.mem_keys_erase
  have hother : ∀ d, d ≠ dst →
      (d ∈ ((g.get src).next.erase dst).keys ↔ d ∈ (g.get src).successors) :=
    fun d hne => (hmem d).trans (and_iff_left hne)
  have hpos := indegree_pos hm
  rw [← h.incoming] at hpos
  obtain ⟨hsf, hdf⟩ := h.not_free_of_edge hm
  have hkept : g'.Kept born := by
    refine h.toKept.rewired hr (OrderedMap.nodup_keys_erase _ ht.next_nodup) (fun d hd => ?_)
      hother ?_ hsf hdf
    · obtain ⟨hd', hne⟩ := (hmem d).1 hd
      rw [OrderedMap.get?_erase, if_neg (Ne.symm hne)]
      exact ht.owned d hd'
    · rw [if_pos hm, if_neg fun hd => ((hmem dst).1 hd).2 rfl]
      omega
  have hbal : g'.Balanced noDebt fun s d t =>
      noDebt s d t + Arrival.carries ⟨dst, src, g'.typesAt src⟩ s d t := by
    intro s d t hdl
    have hdl' : (g.get d).alive = true := by rwa [hr.get] at hdl
    have htypes : g'.typesAt src = (g.get src).typeList := by
      unfold typesAt
      rw [hr.get]
      rfl
    have hold := h.balanced s d t hdl'
    rw [hr.recorded, hr.supply hother, htypes]
    unfold Arrival.carries
    by_cases hsd : src = s ∧ dst = d
    · obtain ⟨rfl, rfl⟩ := hsd
      have hcount : (g.get src).typeList.count t = if t ∈ (g.get src).typeList then 1 else 0 :=
        ht.types_nodup.count
      have hsup : g.supply src dst t = (g.get src).typeList.count t := by
        unfold supply
        rw [hcount]
        refine if_congr ?_ rfl rfl
        refine ⟨fun hc => hc.2.2, fun hc => ⟨?_, hm, hc⟩⟩
        by_contra hdead
        rw [h.typeList_of_dead (by simpa using hdead)] at hc
        exact absurd hc List.not_mem_nil
      rw [hsup] at hold
      simp only [hmem, noDebt, ne_eq, not_true_eq_false, and_false, false_and, if_false, and_self,
        if_true] at hold ⊢
      omega
    · simp only [hsd, if_false]
      exact hold
  obtain ⟨hflow, htidy, hb⟩ := retract_spec hkept.tidy hbal
  exact ⟨hkept.flowed hflow htidy, hb⟩

theorem Settled.removeEdge (h : g.Settled born) (src dst : VertexId) :
    (g.removeEdge src dst).2.graph.Settled born := by
  unfold Graph.removeEdge
  have hst := h.tidy src
  by_cases h0 : (g.get src).owners dst = 0
  · simp only [h0, if_true]
    exact h
  · have hm := hst.mem_successors.2 h0
    by_cases h1 : (g.get src).owners dst = 1
    · simp only [h1, if_true]
      exact h.unlink hm (rewired (·.erase dst) (· - 1) _ _ (lt_size_of_edge hm)
        (h.lt_size_of_edge_to hm))
    · simp only [h0, h1, if_false]
      exact h.reown hm (by omega)

end Edges

section Destroy

/-- Retractions pay what is due over several edges from one vertex. -/
theorem retractAll_spec {src : VertexId} {types : List Ty} (ds : List VertexId) (ht : g.Tidy)
    (hb : g.Balanced noDebt (Wave.inFlight (ds.map fun d => ⟨d, src, types⟩))) :
    Flowed g (g.retractAll src types ds).graph ∧ (g.retractAll src types ds).graph.Tidy ∧
      (g.retractAll src types ds).graph.Balanced noDebt noDebt := by
  induction ds generalizing g with
  | nil => exact ⟨Flowed.refl g, ht, hb⟩
  | cons d ds ih =>
    have hfirst : g.Balanced noDebt fun s u t =>
        Wave.inFlight (ds.map fun d => ⟨d, src, types⟩) s u t +
          Arrival.carries ⟨d, src, types⟩ s u t := by
      intro s u t hu
      have := hb s u t hu
      rw [List.map_cons, Wave.inFlight_cons, Nat.add_comm (Arrival.carries _ s u t)] at this
      exact this
    obtain ⟨hf, ht', hb'⟩ := retract_spec ht hfirst
    obtain ⟨hf'', ht'', hb''⟩ := ih ht' hb'
    exact ⟨hf.trans hf'', ht'', hb''⟩

section

variable {v : VertexId}

theorem get_kill (hv : (g.get v).alive = true) (u : VertexId) :
    (g.modify v fun x => { x with alive := false }).get u =
      { g.get u with alive := if v = u then false else (g.get u).alive } := by
  rw [get_modify]
  by_cases hu : v = u
  · subst hu
    simp [lt_size_of_alive hv]
  · simp [hu]

theorem Settled.balanced_kill (h : g.Settled born) (hv : (g.get v).alive = true) :
    (g.modify v fun x => { x with alive := false }).Balanced noDebt
      (Wave.inFlight ((g.get v).successors.map fun d => ⟨d, v, (g.get v).typeList⟩)) := by
  intro s d t hd
  have hget := get_kill hv
  rw [hget] at hd
  have hvd : v ≠ d := by
    rintro rfl
    simp at hd
  have hdl : (g.get d).alive = true := by simpa [hvd] using hd
  have hbal := h.balanced s d t hdl
  have ht := h.tidy v
  rw [Wave.inFlight_from v _ ht.next_nodup]
  unfold recorded supply Vertex.origins Vertex.typeList Vertex.successors at hbal ⊢
  rw [hget, hget]
  by_cases hs : v = s
  · subst hs
    have hcount : (g.get v).types.keys.count t = if t ∈ (g.get v).types.keys then 1 else 0 :=
      ht.types_nodup.count
    by_cases hm : d ∈ (g.get v).next.keys
    · simpa [hv, hm, hcount, noDebt] using hbal
    · simpa [hm, noDebt] using hbal
  · simpa [hs, noDebt] using hbal

/-- Giving up the slot of a live vertex keeps the books if the vertex dies without a debt. -/
theorem Settled.bury {g' : Graph} (h : g.Settled born) (hv : (g.get v).alive = true)
    (hsize : g'.vertices.size = g.vertices.size)
    (hreleased : g'.vertices.released = g.vertices.released ++ [v.index])
    (hfree : g'.vertices.free = g.vertices.free)
    (hrest : ∀ u, g'.get u = { g.get u with
      types := (g'.get u).types, alive := if v = u then false else (g.get u).alive })
    (ht : g'.Tidy) (hdead : ∀ u, (g'.get u).alive = false → (g'.get u).types = {})
    (hliterals : ∀ u t, v ≠ u →
      ((g'.get u).origins t).count .literal = ((g.get u).origins t).count .literal)
    (hb : g'.Balanced noDebt noDebt) : g'.Settled born := by
  have hsucc : ∀ u, (g'.get u).successors = (g.get u).successors := fun u => by
    rw [hrest]
    rfl
  have hnot : v.index ∉ g.vertices.released ++ g.vertices.free := by
    intro hm
    have := (h.given_up _ hm).2
    rw [hv] at this
    exact Bool.noConfusion this
  refine ⟨⟨ht, hdead, fun u t hu => ?_, fun d => ?_, ?_, fun i hi => ?_, fun i hi => ?_⟩, hb⟩
  · rw [hrest] at hu
    have hvu : v ≠ u := by
      rintro rfl
      simp at hu
    rw [hliterals u t hvu]
    exact h.literals u t (by simpa [hvu] using hu)
  · rw [indegree_congr hsize hsucc, hrest]
    exact h.incoming d
  · rw [hreleased, hfree, List.append_assoc, List.singleton_append]
    exact List.nodup_middle.2 (List.nodup_cons.2 ⟨hnot, h.nodup⟩)
  · rw [hreleased, hfree, List.append_assoc, List.singleton_append] at hi
    rw [hsize, hrest]
    by_cases hvi : v = ⟨i⟩
    · subst hvi
      exact ⟨lt_size_of_alive hv, if_pos rfl⟩
    · have hi' : i ∈ g.vertices.released ++ g.vertices.free := by
        have hne : i ≠ v.index := fun he => hvi (by rw [he])
        simpa [hne] using hi
      simpa [hvi] using h.given_up i hi'
  · rw [hfree] at hi
    rw [hsucc, hrest]
    exact h.detached i hi

theorem get_empty (g : Graph) (v u : VertexId) :
    (g.modify v fun x => { x with types := {} }).get u =
      { g.get u with types := if v = u then {} else (g.get u).types } := by
  rw [get_modify]
  by_cases hu : v = u
  · subst hu
    by_cases hlt : v.index < g.vertices.size
    · simp [hlt]
    · simp [hlt, get_of_size_le (Nat.le_of_not_lt hlt), Vertex.absent]
  · simp [hu]

theorem Balanced.empty (hb : g.Balanced noDebt noDebt) (hv : (g.get v).alive = false) :
    (g.modify v fun x => { x with types := {} }).Balanced noDebt noDebt := by
  intro s d t hd
  have hget := get_empty g v
  rw [hget] at hd
  have hvd : v ≠ d := by
    rintro rfl
    exact Bool.noConfusion (hv.symm.trans hd)
  have hbal := hb s d t hd
  unfold recorded supply Vertex.origins Vertex.typeList Vertex.successors at hbal ⊢
  rw [hget, hget]
  by_cases hvs : v = s
  · subst hvs
    simpa [hv, hvd] using hbal
  · simpa [hvs, hvd] using hbal

end

theorem Tidy.empty (h : g.Tidy) (v : VertexId) :
    (g.modify v fun x => { x with types := {} }).Tidy := by
  intro u
  rw [get_modify]
  split
  · exact (h u).withTypes List.nodup_nil fun _ hm => absurd hm List.not_mem_nil
  · exact h u

theorem Settled.destroy (h : g.Settled born) (v : VertexId) :
    (g.destroy v).graph.Settled born := by
  unfold Graph.destroy
  by_cases hv : (g.get v).alive = true
  · simp only [hv, if_true]
    have hget1 := get_kill hv
    have htidy1 : (g.modify v fun x => { x with alive := false }).Tidy := fun u =>
      (h.tidy u).of_eq (by rw [hget1]) (by rw [hget1])
    obtain ⟨hflow, htidy, hbal⟩ := retractAll_spec _ htidy1 (h.balanced_kill hv)
    have hsize1 := size_modify g v fun x => { x with alive := false }
    generalize hg1 : (g.modify v fun x => { x with alive := false }) = g1 at *
    generalize (g1.retractAll v (g.get v).typeList (g.get v).successors).graph = g2 at *
    have hget2 := get_empty g2 v
    have hrest : ∀ u, (g2.modify v fun x => { x with types := {} }).get u = { g.get u with
        types := ((g2.modify v fun x => { x with types := {} }).get u).types
        alive := if v = u then false else (g.get u).alive } := fun u => by
      rw [hget2, hflow.rest u, hget1 u]
    refine h.bury hv ((size_modify ..).trans (hflow.size.trans hsize1)) ?_ ?_ hrest
      (htidy.empty v) ?_ ?_ (hbal.empty ?_)
    · show g2.vertices.released ++ [v.index] = _
      rw [hflow.released, ← hg1]
      rfl
    · show g2.vertices.free = _
      rw [hflow.free, ← hg1]
      rfl
    · intro u hu
      change ((g2.modify v _).get u).alive = false at hu
      show ((g2.modify v _).get u).types = {}
      rw [hget2] at hu ⊢
      by_cases hvu : v = u
      · exact if_pos hvu
      · have hdead : (g1.get u).alive = false := (hflow.alive u).symm.trans hu
        simp only [hvu, if_false]
        rw [hflow.dead u hdead, hget1]
        rw [hget1] at hdead
        exact h.dead u (by simpa [hvu] using hdead)
    · intro u t hvu
      show (((g2.modify v _).get u).origins t).count .literal = _
      rw [get_modify_of_ne _ hvu, hflow.literals, hget1]
      rfl
    · rw [hflow.alive, hget1]
      exact if_pos rfl
  · rw [if_neg hv]
    exact h

theorem Settled.reclaim (h : g.Settled born) : g.reclaim.2.Settled born := by
  have hperm := g.vertices.perm_sweep Vertex.isReclaimable
  refine ⟨⟨h.tidy, h.dead, h.literals, h.incoming, hperm.nodup_iff.2 h.nodup, fun i hi => ?_,
    fun i hi => ?_⟩, h.balanced⟩
  · exact h.given_up i (hperm.mem_iff.1 hi)
  · rcases List.mem_append.1 hi with hfreed | hfree
    · obtain ⟨-, hok⟩ := List.mem_filter.1 (List.mem_reverse.1 hfreed)
      obtain ⟨x, hx, hok⟩ := (Option.any_eq_true ..).1 hok
      have hget : g.get ⟨i⟩ = x := by simp [get, hx]
      show (g.get ⟨i⟩).successors = [] ∧ (g.get ⟨i⟩).incoming = 0
      rw [hget]
      unfold Vertex.isReclaimable at hok
      simp only [Bool.and_eq_true, beq_iff_eq] at hok
      obtain ⟨⟨⟨-, hnext⟩, hincoming⟩, -⟩ := hok
      refine ⟨?_, hincoming⟩
      unfold Vertex.successors OrderedMap.keys
      rw [List.isEmpty_iff.1 hnext]
      rfl
    · exact h.detached i hfree

end Destroy

end TypeFlow.Graph
