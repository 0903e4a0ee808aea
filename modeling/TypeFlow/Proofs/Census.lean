import TypeFlow.Proofs.Waves

/-!
# Which types a graph holds

No operation makes up types: whatever all types in a graph have in common, and those that vertices
are created with, all types have in common afterwards.
-/

set_option autoImplicit false

namespace TypeFlow

namespace Graph

def Holds (g : Graph) (K : Ty → Prop) : Prop := ∀ v, ∀ t ∈ (g.get v).typeList, K t

variable {g : Graph} {K : Ty → Prop}

theorem Holds.mono {K' : Ty → Prop} (h : g.Holds K) (hk : ∀ t, K t → K' t) : g.Holds K' :=
  fun v t ht => hk t (h v t ht)

theorem Holds.of_get {g' : Graph} (h : g.Holds K)
    (hget : ∀ v, (g'.get v).types = (g.get v).types ∨ ∀ t ∈ (g'.get v).typeList, K t) :
    g'.Holds K := by
  intro v t ht
  rcases hget v with he | hk
  · refine h v t ?_
    unfold Vertex.typeList at ht ⊢
    rw [← he]
    exact ht
  · exact hk t ht

theorem Holds.modify (h : g.Holds K) (v : VertexId) {f : Vertex → Vertex}
    (hf : ∀ x, (f x).types = x.types) : (g.modify v f).Holds K := by
  refine h.of_get fun u => Or.inl ?_
  rw [get_modify]
  split
  · exact hf _
  · rfl

theorem Holds.alloc (h : g.Holds K) {x : Vertex} (hx : ∀ t ∈ x.typeList, K t) :
    (g.alloc x).2.Holds K := by
  refine h.of_get fun u => ?_
  have hget : (g.alloc x).2.get u = ((g.vertices.alloc x).2.get? u.index).getD Vertex.absent := rfl
  rcases Slots.get?_alloc_eq_or g.vertices x u.index with he | he
  · rw [hget, he]
    exact Or.inr hx
  · rw [hget, he]
    exact Or.inl rfl

theorem Holds.newVertex (h : g.Holds K) (label : String) (node : Option NodeId) :
    (g.newVertex label node).2.Holds K :=
  h.alloc fun _ ht => absurd ht List.not_mem_nil

theorem Holds.newSource (h : g.Holds K) {types : List Ty} (ht : ∀ t ∈ types, K t)
    (node : Option NodeId) : (g.newSource types node).2.Holds K :=
  h.alloc fun t hm => ht t (Vertex.mem_typeList_ofTypes.1 hm)

theorem Holds.source (h : g.Holds K) {types : List Ty} (ht : ∀ t ∈ types, K t) :
    (g.source types).2.Holds K := by
  unfold Graph.source
  split
  · exact h
  · exact h.newSource ht none

end Graph

open TypeFlow.Graph

namespace Wave

variable {change : Change} {ripe : Vertex → Ty → Bool} {K : Ty → Prop}

theorem holds_step (hc : change.Draining ripe)
    (hin : ∀ src ts x, ∀ t ∈ (change src ts x).1.typeList, t ∈ ts ∨ t ∈ x.typeList)
    {ts : List Ty} (hts : ∀ t ∈ ts, K t) {w : Wave} (h : w.Carries ts ∧ w.graph.Holds K) :
    (w.step change).Carries ts ∧ (w.step change).graph.Holds K := by
  obtain ⟨hcar, hk⟩ := h
  refine ⟨hcar.step hc, ?_⟩
  cases hw : w.work with
  | nil =>
    unfold Wave.step
    rw [hw]
    exact hk
  | cons a rest =>
    by_cases ha : (w.graph.get a.target).alive = true
    · rw [(step_alive _ hw ha).1]
      refine hk.of_get fun u => ?_
      rw [get_set (lt_size_of_alive ha)]
      split
      · refine Or.inr fun t ht => ?_
        rcases hin _ _ _ t ht with ht | ht
        · exact hts t (hcar a (by rw [hw]; exact List.mem_cons_self) t ht)
        · exact hk _ t ht
      · exact Or.inl rfl
    · rw [step_dead hw (by simpa using ha)]
      exact hk

theorem holds_spread (hc : change.Draining ripe)
    (hin : ∀ src ts x, ∀ t ∈ (change src ts x).1.typeList, t ∈ ts ∨ t ∈ x.typeList)
    {g : Graph} (h : g.Holds K) {a : Arrival} (ha : ∀ t ∈ a.types, K t) :
    (spread change g a).graph.Holds K := by
  have hstart : Carries a.types { graph := g, work := [a] } := by
    intro b hb t ht
    exact List.mem_singleton.1 hb ▸ ht
  exact (run_induction (P := fun w => w.Carries a.types ∧ w.graph.Holds K)
    (fun w => holds_step hc hin ha) _ ⟨hstart, h⟩).2

end Wave

namespace Graph

variable {g : Graph} {K : Ty → Prop}
variable {types : List Ty}

theorem Holds.bring (h : g.Holds K) (dst src : VertexId)
    (ht : ∀ t ∈ types, K t) : (g.bring dst src types).graph.Holds K :=
  Wave.holds_spread Vertex.gain_draining
    (fun src _ _ _ hm => (Vertex.mem_typeList_gain src).1 hm) h ht

theorem Holds.retract (h : g.Holds K) (dst src : VertexId)
    (ht : ∀ t ∈ types, K t) : (g.retract dst src types).graph.Holds K :=
  Wave.holds_spread Vertex.lose_draining
    (fun src _ _ _ hm => Or.inr (Vertex.typeList_lose_subset src hm)) h ht

theorem Holds.retractAll (h : g.Holds K) (src : VertexId)
    (ht : ∀ t ∈ types, K t) (ds : List VertexId) :
    (g.retractAll src types ds).graph.Holds K := by
  induction ds generalizing g with
  | nil => exact h
  | cons d ds ih => exact ih (h.retract d src ht)

theorem Holds.addEdge (h : g.Holds K) (src dst : VertexId) :
    (g.addEdge src dst).2.graph.Holds K := by
  unfold Graph.addEdge
  split
  · dsimp only
    split
    · have hlinked := (h.modify src
        (f := fun v => { v with next := v.next.insert dst ((g.get src).owners dst + 1) })
        fun _ => rfl).modify dst (f := fun v => { v with incoming := v.incoming + 1 }) fun _ => rfl
      apply Holds.bring
      · exact hlinked
      · exact hlinked src
    · exact h.modify src fun _ => rfl
  · exact h

theorem Holds.removeEdge (h : g.Holds K) (src dst : VertexId) :
    (g.removeEdge src dst).2.graph.Holds K := by
  unfold Graph.removeEdge
  dsimp only
  split
  · exact h
  · split
    · have hcut := (h.modify src (f := fun v => { v with next := v.next.erase dst })
        fun _ => rfl).modify dst (f := fun v => { v with incoming := v.incoming - 1 }) fun _ => rfl
      apply Holds.retract
      · exact hcut
      · exact hcut src
    · exact h.modify src fun _ => rfl

theorem Holds.destroy (h : g.Holds K) (v : VertexId) : (g.destroy v).graph.Holds K := by
  unfold Graph.destroy
  dsimp only
  split
  · have hkilled := h.modify v (f := fun x => { x with alive := false }) fun _ => rfl
    refine (hkilled.retractAll v (h v) (g.get v).successors).of_get fun u => ?_
    have hget : ∀ g' : Graph, ({ g' with vertices := g'.vertices.release v.index } : Graph).get u =
        g'.get u := fun _ => rfl
    rw [hget, get_modify]
    split
    · exact Or.inr fun t ht => absurd ht List.not_mem_nil
    · exact Or.inl rfl
  · exact h

theorem Holds.reclaim (h : g.Holds K) : g.reclaim.2.Holds K := h

end Graph

end TypeFlow
