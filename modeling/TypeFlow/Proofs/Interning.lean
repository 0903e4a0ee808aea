import TypeFlow.Proofs.Ledger

/-!
# Shared sources

A source that is shared was created with the types under which it is filed, and it lives. Types
come and go at it as at any other vertex; only its destruction would break the table.
-/

set_option autoImplicit false

namespace TypeFlow

namespace Graph

structure SameLife (g g' : Graph) : Prop where
  shared : g'.shared = g.shared
  alive : ∀ v, (g'.get v).alive = (g.get v).alive

namespace SameLife

theorem refl (g : Graph) : SameLife g g := ⟨rfl, fun _ => rfl⟩

variable {g g' g'' : Graph}

theorem trans (h : SameLife g g') (h' : SameLife g' g'') : SameLife g g'' :=
  ⟨h'.shared.trans h.shared, fun v => (h'.alive v).trans (h.alive v)⟩

theorem modify (g : Graph) (v : VertexId) {f : Vertex → Vertex}
    (hf : ∀ x, (f x).alive = x.alive) : SameLife g (g.modify v f) := by
  refine ⟨rfl, fun u => ?_⟩
  rw [get_modify]
  split
  · exact hf _
  · rfl

end SameLife

end Graph

namespace Graph

variable {g : Graph}

theorem Retyped.sameLife {g' : Graph} (h : Retyped g g') : SameLife g g' := ⟨h.shared, h.alive⟩

theorem rewires_sameLife (g : Graph) : Rewires (SameLife g) where
  next v _ h := h.trans (.modify _ v fun _ => rfl)
  incoming v _ h := h.trans (.modify _ v fun _ => rfl)
  counts _ _ h := ⟨h.shared, h.alive⟩
  types h h' := h.trans h'.sameLife

theorem sameLife_addEdge (g : Graph) (src dst : VertexId) :
    SameLife g (g.addEdge src dst).2.graph :=
  (rewires_sameLife g).addEdge (.refl g) src dst

theorem sameLife_removeEdge (g : Graph) (src dst : VertexId) :
    SameLife g (g.removeEdge src dst).2.graph :=
  (rewires_sameLife g).removeEdge (.refl g) src dst

theorem destroy_life (g : Graph) (v : VertexId) :
    (g.destroy v).graph.shared = g.shared ∧
      ∀ u, ((g.destroy v).graph.get u).alive = if v = u then false else (g.get u).alive := by
  by_cases hv : (g.get v).alive = true
  · obtain ⟨g', hflow, hg⟩ := destroy_of_alive hv
    rw [hg]
    refine ⟨hflow.shared, fun u => (hflow.alive u).trans ?_⟩
    rw [get_kill hv]
  · unfold destroy
    rw [if_neg hv]
    refine ⟨rfl, fun u => ?_⟩
    split
    · next hu =>
      subst hu
      simpa using hv
    · rfl

theorem get?_shared_source (g : Graph) (types : List Ty) :
    (g.source types).2.shared.get? types = some (g.source types).1 := by
  unfold source
  cases hs : g.shared.get? types with
  | some v => exact hs
  | none => exact (OrderedMap.get?_insert ..).trans (if_pos rfl)

structure Interned (g : Graph) (born : VertexId → List Ty) : Prop where
  alive : ∀ ts v, g.shared.get? ts = some v → (g.get v).alive = true
  born : ∀ ts v, g.shared.get? ts = some v → born v = ts

namespace Interned

variable {born : VertexId → List Ty}

theorem sameLife {g' : Graph} (h : g.Interned born) (hl : SameLife g g') : g'.Interned born := by
  refine ⟨fun ts v hv => ?_, fun ts v hv => ?_⟩
  · rw [hl.shared] at hv
    rw [hl.alive]
    exact h.alive ts v hv
  · rw [hl.shared] at hv
    exact h.born ts v hv

theorem alloc_ne (h : g.Interned born) (hs : g.Settled born) (x : Vertex) {ts : List Ty}
    {v : VertexId} (hv : g.shared.get? ts = some v) : (g.alloc x).1 ≠ v := by
  rintro rfl
  have := (alloc_detached hs x).1
  rw [h.alive ts _ hv] at this
  exact Bool.noConfusion this

theorem alloc (h : g.Interned born) (hs : g.Settled born) (x : Vertex) (types : List Ty) :
    (g.alloc x).2.Interned (Function.update born (g.alloc x).1 types) := by
  refine ⟨fun ts v hv => ?_, fun ts v hv => ?_⟩
  · rw [get_alloc hs, if_neg (h.alloc_ne hs x hv)]
    exact h.alive ts v hv
  · rw [Function.update_of_ne (h.alloc_ne hs x hv).symm]
    exact h.born ts v hv

theorem source (h : g.Interned born) (hs : g.Settled born) (types : List Ty) :
    (g.source types).2.Interned (g.bornWithSource born types) := by
  unfold bornWithSource
  cases hg : g.shared.get? types with
  | some v =>
    rw [source_eq_of_some hg]
    exact h
  | none =>
    rw [source_eq_of_none hg]
    have hall := h.alloc hs (Vertex.ofTypes types none) types
    refine ⟨fun ts v hv => ?_, fun ts v hv => ?_⟩
    · change (g.shared.insert types _).get? ts = some v at hv
      rw [OrderedMap.get?_insert] at hv
      by_cases ht : types = ts
      · rw [if_pos ht] at hv
        rw [← Option.some.inj hv]
        show ((g.newSource types none).2.get _).alive = true
        rw [show (g.newSource types none).2.get _ = _ from get_alloc hs _ _]
        exact congrArg Vertex.alive (if_pos rfl)
      · rw [if_neg ht] at hv
        exact hall.alive ts v hv
    · change (g.shared.insert types _).get? ts = some v at hv
      rw [OrderedMap.get?_insert] at hv
      by_cases ht : types = ts
      · rw [if_pos ht] at hv
        rw [← Option.some.inj hv, ← ht]
        exact Function.update_self ..
      · rw [if_neg ht] at hv
        exact hall.born ts v hv

theorem destroy (h : g.Interned born) {v : VertexId} (hv : ∀ ts, g.shared.get? ts ≠ some v) :
    (g.destroy v).graph.Interned born := by
  obtain ⟨hshared, halive⟩ := destroy_life g v
  refine ⟨fun ts u hu => ?_, fun ts u hu => ?_⟩
  · rw [hshared] at hu
    have hne : v ≠ u := by
      rintro rfl
      exact hv ts hu
    rw [halive, if_neg hne]
    exact h.alive ts u hu
  · rw [hshared] at hu
    exact h.born ts u hu

end Interned

end Graph

end TypeFlow
