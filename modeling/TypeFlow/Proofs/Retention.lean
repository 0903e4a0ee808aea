import TypeFlow.Proofs.Lasting
import TypeFlow.Proofs.Turns

/-!
# Slots in use

A slot that holds a vertex is not handed out again while sites come, run and go: only a sweep makes
slots available. Its vertex keeps its kind and what it was created with, and no edge leads into it
unless one is asked for. Both are relations between graphs; a relation that every change of a graph
respects carries over to engines.
-/

set_option autoImplicit false

namespace TypeFlow

namespace Graph

structure Recedes (R : Graph → Graph → Prop) : Prop where
  refl : ∀ g, R g g
  trans : ∀ {g g' g''}, R g g' → R g' g'' → R g g''
  newVertex : ∀ g label node, R g (newVertex g label node).2
  newSource : ∀ g types node, R g (newSource g types node).2
  source : ∀ g types, R g (source g types).2
  listeners : ∀ g v (f : OrderedSet SiteId → OrderedSet SiteId),
    R g (modify g v fun x => { x with listeners := f x.listeners })
  removeEdge : ∀ g src dst, R g (removeEdge g src dst).2.graph
  destroy : ∀ g v, R g (destroy g v).graph

variable {R : Graph → Graph → Prop}

theorem Recedes.modifyListeners (h : Recedes R) (vs : List VertexId)
    (f : OrderedSet SiteId → OrderedSet SiteId) (g : Graph) :
    R g (vs.foldl (fun g v => g.modify v fun x => { x with listeners := f x.listeners }) g) := by
  induction vs generalizing g with
  | nil => exact h.refl g
  | cons v vs ih => exact h.trans (h.listeners g v f) (ih _)

end Graph

namespace Engine

theorem recedes_graph {R : Graph → Graph → Prop} (h : Graph.Recedes R) :
    Recedes fun e e' => R e.graph e'.graph where
  refl e := h.refl e.graph
  trans := h.trans
  newVertex e label node := h.newVertex e.graph label node
  newSource e types node := h.newSource e.graph types node
  source e types := h.source e.graph types
  resolvePath e _ := h.refl e.graph
  consult e _ := h.refl e.graph
  ensureConst e key := by
    unfold ensureConst
    split
    · exact h.refl e.graph
    · exact h.newVertex e.graph _ none
  ensureIvar e key := by
    unfold ensureIvar
    split
    · exact h.refl e.graph
    · exact h.newVertex e.graph _ none
  globalVertex e name := by
    unfold globalVertex
    split
    · exact h.refl e.graph
    · exact h.newVertex e.graph _ none
  removeEdge e src dst := by
    show R e.graph (e.adoptGraph (e.graph.removeEdge src dst).2).graph
    rw [graph_adoptGraph]
    exact h.removeEdge e.graph src dst
  destroyVertex e v := by
    show R e.graph (e.adoptGraph (e.graph.destroy v)).graph
    rw [graph_adoptGraph]
    exact h.destroy e.graph v
  schedule e s := by
    show R e.graph (e.scheduleAll [s]).graph
    rw [graph_scheduleAll]
    exact h.refl e.graph
  watch e _ _ := h.refl e.graph
  changeDecls e key f := by
    unfold changeDecls scheduleCallsites scheduleDefs
    simp only [graph_scheduleAll]
    exact h.refl e.graph
  changeDefs e key f := by
    unfold changeDefs scheduleCallsites
    dsimp only
    split
    · rw [graph_scheduleAll]
      exact h.refl e.graph
    · exact h.refl e.graph
  changeIvarReads e _ _ := h.refl e.graph
  effects e _ _ := h.refl e.graph
  count e := h.refl e.graph
  enterSite e node rule :=
    h.modifyListeners rule.inputs (·.insert (e.enterSite node rule).1) e.graph
  destroy e s x e' _ _ hrest := by
    have hmark : R e.graph (e.markDestroyed s x).graph :=
      h.modifyListeners x.rule.inputs (·.erase s) e.graph
    exact h.trans hmark hrest

end Engine

namespace Graph

variable {g g' g'' : Graph} {v : VertexId} {born : VertexId → List Ty}

section Kinds

variable {α : Type} {π : Vertex → α}

def Innate (π : Vertex → α) : Prop :=
  ∀ x types next incoming alive, π { x with types, next, incoming, alive } = π x

theorem innate_source : Innate Vertex.source := fun _ _ _ _ _ => rfl

theorem innate_modify (g : Graph) (v : VertexId) {f : Vertex → Vertex} (hf : ∀ x, π (f x) = π x)
    (u : VertexId) : π ((g.modify v f).get u) = π (g.get u) := by
  rw [get_modify]
  split
  · exact hf _
  · rfl

theorem Retyped.innate (h : Retyped g g') (hπ : Innate π) (u : VertexId) :
    π (g'.get u) = π (g.get u) := by
  rw [h.rest]
  exact hπ (g.get u) _ (g.get u).next (g.get u).incoming (g.get u).alive

theorem rewires_innate (hπ : Innate π) (g : Graph) :
    Rewires fun g' => ∀ u, π (g'.get u) = π (g.get u) where
  next {g'} v f h u := (innate_modify g' v (f := fun x => { x with next := f x.next })
    (fun x => hπ x x.types _ x.incoming x.alive) u).trans (h u)
  incoming {g'} v f h u := (innate_modify g' v (f := fun x => { x with incoming := f x.incoming })
    (fun x => hπ x x.types x.next _ x.alive) u).trans (h u)
  counts _ _ h := h
  types h h' u := (h'.innate hπ u).trans (h u)

theorem innate_destroy (hπ : Innate π) (g : Graph) (v u : VertexId) :
    π ((g.destroy v).graph.get u) = π (g.get u) := by
  by_cases hv : (g.get v).alive = true
  · obtain ⟨g', hflow, hg⟩ := destroy_of_alive hv
    rw [hg]
    exact (hflow.innate hπ u).trans (innate_modify g v (f := fun x => { x with alive := false })
      (fun x => hπ x x.types x.next x.incoming _) u)
  · unfold destroy
    rw [if_neg hv]

end Kinds

def Uses (g : Graph) (v : VertexId) : Prop := v.index < g.vertices.size ∧ v.index ∉ g.vertices.free

theorem Settled.uses_of_alive (h : g.Settled born) (hv : (g.get v).alive = true) : g.Uses v :=
  ⟨lt_size_of_alive hv, h.not_free_of_alive hv⟩

theorem Settled.uses_alloc (h : g.Settled born) (x : Vertex) :
    ¬g.Uses (g.alloc x).1 ∧ (g.alloc x).2.Uses (g.alloc x).1 := by
  have hfree : ∀ i ∈ g.vertices.free, i < g.vertices.size := fun i hi =>
    (h.given_up i (List.mem_append_right _ hi)).1
  obtain ⟨-, htail, -, hne⟩ := slots_alloc h x
  refine ⟨fun huses => ?_, ?_, fun hmem => ?_⟩
  · rcases g.vertices.alloc_index x with hi | hi
    · exact huses.2 hi
    · exact Nat.ne_of_lt huses.1 hi
  · have hslot := Slots.get?_alloc hfree x (g.vertices.alloc x).1
    rw [if_pos rfl] at hslot
    exact Slots.lt_size_of_get? hslot
  · rw [htail] at hmem
    exact hne _ (List.mem_append_right _ hmem) rfl

theorem Settled.ne_alloc_of_uses (h : g.Settled born) (x : Vertex) (hv : g.Uses v) :
    (g.alloc x).1 ≠ v :=
  fun he => (h.uses_alloc x).1 (he ▸ hv)

def Retains (v : VertexId) (g g' : Graph) : Prop :=
  ∀ born, g.Settled born → ∃ born', g'.Settled born' ∧
    (g.Uses v → g'.Uses v ∧ born' v = born v ∧ (g'.get v).source = (g.get v).source)

namespace Retains

theorem trans (h : Retains v g g') (h' : Retains v g' g'') : Retains v g g'' := by
  intro born hs
  obtain ⟨born', hs', hkeep⟩ := h born hs
  obtain ⟨born'', hs'', hkeep'⟩ := h' born' hs'
  refine ⟨born'', hs'', fun huses => ?_⟩
  obtain ⟨huses', hborn, hsource⟩ := hkeep huses
  obtain ⟨huses'', hborn', hsource'⟩ := hkeep' huses'
  exact ⟨huses'', hborn'.trans hborn, hsource'.trans hsource⟩

theorem of_same (hs : ∀ born, g.Settled born → g'.Settled born)
    (hsize : g'.vertices.size = g.vertices.size) (hfree : g'.vertices.free = g.vertices.free)
    (hsource : (g'.get v).source = (g.get v).source) : Retains v g g' := fun born h =>
  ⟨born, hs born h, fun huses => ⟨⟨hsize ▸ huses.1, hfree ▸ huses.2⟩, rfl, hsource⟩⟩

theorem alloc {x : Vertex} {types : List Ty} (hs : ∀ born, g.Settled born →
    (g.alloc x).2.Settled (Function.update born (g.alloc x).1 types)) :
    Retains v g (g.alloc x).2 := by
  intro born h
  refine ⟨_, hs born h, fun huses => ?_⟩
  have hne := h.ne_alloc_of_uses x huses
  obtain ⟨-, htail, hsize, -⟩ := slots_alloc h x
  refine ⟨⟨Nat.lt_of_lt_of_le huses.1 hsize, fun hmem => huses.2 ?_⟩,
    Function.update_of_ne hne.symm .., ?_⟩
  · exact List.mem_of_mem_tail (htail ▸ hmem)
  · rw [get_alloc h, if_neg hne]

theorem source (g : Graph) (types : List Ty) : Retains v g (g.source types).2 := by
  cases hshared : g.shared.get? types with
  | some u =>
    rw [source_eq_of_some hshared]
    exact of_same (fun _ => id) rfl rfl rfl
  | none =>
    rw [source_eq_of_none hshared]
    have hnew : Retains v g (g.newSource types none).2 := alloc fun _ h => h.newSource types none
    exact hnew.trans (of_same (fun _ h => h.withShared _) rfl rfl rfl)

theorem listeners (g : Graph) (u : VertexId) (f : OrderedSet SiteId → OrderedSet SiteId) :
    Retains v g (g.modify u fun x => { x with listeners := f x.listeners }) :=
  of_same (fun _ h => h.decorate u fun _ => ⟨rfl, rfl, rfl, rfl, rfl⟩) (size_modify ..) rfl
    (innate_modify g u (f := fun x => { x with listeners := f x.listeners }) (fun _ => rfl) v)

theorem addEdge (g : Graph) (src dst : VertexId) : Retains v g (g.addEdge src dst).2.graph :=
  of_same (fun _ h => h.addEdge src dst) (addEdge_spec g src dst).1.size
    (addEdge_spec g src dst).1.free ((rewires_innate innate_source g).addEdge (fun _ => rfl) src dst
      v)

end Retains

theorem recedes_retains (v : VertexId) : Recedes (Retains v) where
  refl _ := .of_same (fun _ => id) rfl rfl rfl
  trans := Retains.trans
  newVertex _ label node := .alloc fun _ h => h.newVertex label node
  newSource _ types node := .alloc fun _ h => h.newSource types node
  source := Retains.source
  listeners := Retains.listeners
  removeEdge g src dst := .of_same (fun _ h => h.removeEdge src dst)
    (removeEdge_spec g src dst).1.size (removeEdge_spec g src dst).1.free
    ((rewires_innate innate_source g).removeEdge (fun _ => rfl) src dst v)
  destroy g u := .of_same (fun _ h => h.destroy u) (destroy_spec g u).1 (destroy_spec g u).2.1
    (innate_destroy innate_source g u v)

def Shuns (v : VertexId) (g g' : Graph) : Prop :=
  (∀ u, (g.get u).owners v = 0) → ∀ u, (g'.get u).owners v = 0

namespace Shuns

theorem alloc {x : Vertex} (hx : x.next = {}) : Shuns v g (g.alloc x).2 := by
  intro h u
  rcases g.vertices.get?_alloc_eq_or x u.index with hget | hget
  · have hnew : (g.alloc x).2.get u = x := congrArg (·.getD Vertex.absent) hget
    rw [hnew, Vertex.owners, hx]
    rfl
  · have hold : (g.alloc x).2.get u = g.get u := congrArg (·.getD Vertex.absent) hget
    rw [hold]
    exact h u

theorem addEdge (g : Graph) {src dst : VertexId} (hne : dst ≠ v) :
    Shuns v g (g.addEdge src dst).2.graph := by
  intro h u
  rw [(addEdge_spec g src dst).2 u v, h u, if_neg fun he => hne he.1.2]

end Shuns

theorem recedes_shuns (v : VertexId) : Recedes (Shuns v) where
  refl _ := id
  trans h h' hv := h' (h hv)
  newVertex _ _ _ := .alloc rfl
  newSource _ _ _ := .alloc rfl
  source g types := by
    unfold source
    split
    · exact id
    · exact Shuns.alloc (x := Vertex.ofTypes types none) rfl
  listeners g w f h u := by
    rw [get_modify]
    split
    · exact h u
    · exact h u
  removeEdge g src dst h u := by
    rw [(removeEdge_spec g src dst).2 u v, h u, Nat.zero_sub]
  destroy g w h u := by
    rw [(destroy_spec g w).2.2 u v]
    exact h u

end Graph

namespace Engine

instance (v : VertexId) : Endures fun e e' => Graph.Retains v e.graph e'.graph where
  toRecedes := recedes_graph (Graph.recedes_retains v)
  addEdge e src dst := by
    show Graph.Retains v e.graph (e.adoptGraph (e.graph.addEdge src dst).2).graph
    rw [graph_adoptGraph]
    exact .addEdge e.graph src dst

instance (v : VertexId) : Recedes fun e e' => Graph.Shuns v e.graph e'.graph :=
  recedes_graph (Graph.recedes_shuns v)

end Engine

end TypeFlow
