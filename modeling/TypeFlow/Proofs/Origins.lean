import TypeFlow.Proofs.Interning
import TypeFlow.Proofs.Machine
import TypeFlow.Proofs.Start

/-!
# Reasons are exact

The operations on vertices and edges may be applied in any order and to any vertices, dead ones and
slots that were never opened included. A chronicle runs them and notes what each vertex is created
with. After every run the reasons at a live vertex are exactly what it was created with, and one
reason for each type at the start of each edge into it.
-/

set_option autoImplicit false

namespace TypeFlow

namespace Engine

@[simp] theorem graph_scheduleAll (e : Engine) (ss : List SiteId) :
    (e.scheduleAll ss).graph = e.graph := by
  obtain ⟨q, hq⟩ := exists_scheduleAll_eq e ss
  rw [hq]

@[simp] theorem graph_adoptGraph (e : Engine) (c : Graph.Changed) :
    (e.adoptGraph c).graph = c.graph :=
  graph_scheduleAll ..

@[simp] theorem graph_addEdge (e : Engine) (src dst : VertexId) :
    (e.addEdge src dst).2.graph = (e.graph.addEdge src dst).2.graph :=
  graph_adoptGraph ..

end Engine

namespace Boot

structure Sourced (g : Graph) (born : VertexId → List Ty) : Prop where
  settled : g.Settled born
  interned : g.Interned born
  plain : ∀ v, (∀ ts, g.shared.get? ts ≠ some v) → born v = []

variable {g : Graph} {born : VertexId → List Ty}

theorem sourced_empty : Sourced {} fun _ => [] := by
  have hget : ∀ v, ({} : Graph).get v = Vertex.absent := fun _ => rfl
  refine ⟨⟨⟨fun v => Vertex.absent_tidy, fun v _ => rfl, fun v t hv => ?_, fun d => rfl,
    List.nodup_nil, fun i hi => absurd hi List.not_mem_nil,
    fun i hi => absurd hi List.not_mem_nil⟩, fun s d t hd => ?_⟩,
    ⟨fun ts v hv => ?_, fun ts v hv => ?_⟩, fun v _ => rfl⟩
  · rw [hget] at hv
    exact Bool.noConfusion hv
  · rw [hget] at hd
    exact Bool.noConfusion hd
  · exact absurd hv (by simp [OrderedMap.get?])
  · exact absurd hv (by simp [OrderedMap.get?])

theorem Sourced.newVertex (h : Sourced g born) (label : String) (node : Option NodeId) :
    Sourced (g.newVertex label node).2
      (Function.update born (g.newVertex label node).1 []) := by
  refine ⟨h.settled.newVertex label node, h.interned.alloc h.settled _ _, fun v hv => ?_⟩
  by_cases hnew : v = (g.newVertex label node).1
  · rw [hnew, Function.update_self]
  · rw [Function.update_of_ne hnew]
    exact h.plain v hv

theorem Sourced.source (h : Sourced g born) (types : List Ty) :
    Sourced (g.source types).2 (g.bornWithSource born types) := by
  refine ⟨h.settled.source types, h.interned.source h.settled types, fun v hv => ?_⟩
  unfold Graph.bornWithSource
  cases hg : g.shared.get? types with
  | some u =>
    rw [Graph.source_eq_of_some hg] at hv
    exact h.plain v hv
  | none =>
    rw [Graph.source_eq_of_none hg] at hv ⊢
    have hne : v ≠ (g.newSource types none).1 := by
      rintro rfl
      refine hv types ?_
      show (g.shared.insert types _).get? types = _
      rw [OrderedMap.get?_insert, if_pos rfl]
    show Function.update born _ types v = []
    rw [Function.update_of_ne hne]
    refine h.plain v fun ts hts => hv ts ?_
    show (g.shared.insert types _).get? ts = _
    have htypes : types ≠ ts := by
      rintro rfl
      rw [hg] at hts
      exact Option.some_ne_none _ hts.symm
    rw [OrderedMap.get?_insert, if_neg htypes, hts]

theorem Sourced.addEdge (h : Sourced g born) (src dst : VertexId) :
    Sourced (g.addEdge src dst).2.graph born := by
  have hlife := Graph.sameLife_addEdge g src dst
  refine ⟨h.settled.addEdge src dst, h.interned.sameLife hlife, fun v hv => h.plain v ?_⟩
  rw [← hlife.shared]
  exact hv

def define (g : Graph) (x : String × Nat) : Graph :=
  let (v, g) := g.newVertex ("const:" ++ x.1) none
  let (source, g) := g.source [.singletonOf ⟨x.2⟩]
  (g.addEdge source v).2.graph

/-- The constants of the built-in classes are all that the start puts into the graph. -/
theorem startGraph_eq : startGraph = Core.names.zipIdx.foldl define {} := by decide +kernel

theorem sourced_define (xs : List (String × Nat)) :
    ∃ born, Sourced (xs.foldl define {}) born := by
  induction xs using List.reverseRecOn with
  | nil => exact ⟨_, sourced_empty⟩
  | append_singleton xs x ih =>
    obtain ⟨born, h⟩ := ih
    rw [List.foldl_append]
    exact ⟨_, ((h.newVertex _ none).source _).addEdge _ _⟩

theorem sourced_boot (config : Config) : ∃ born, Sourced (Engine.boot config).graph born := by
  rw [Engine.graph_boot, startGraph_eq]
  exact sourced_define _

end Boot

def Graph.internedAs (g : Graph) (v : VertexId) : List Ty :=
  (g.shared.keys.find? fun ts => g.shared.get? ts = some v).getD []

theorem Boot.Sourced.internedAs {g : Graph} {born : VertexId → List Ty} (h : Sourced g born) :
    g.internedAs = born := by
  funext v
  unfold Graph.internedAs
  cases hf : g.shared.keys.find? fun ts => g.shared.get? ts = some v with
  | some ts =>
    have hts := List.find?_some hf
    exact (h.interned.born ts v (by simpa using hts)).symm
  | none =>
    refine (h.plain v fun ts hts => ?_).symm
    have hno := List.find?_eq_none.1 hf ts (OrderedMap.mem_keys_of_get? hts)
    exact hno (by simpa using hts)

/-- An operation on vertices and edges. -/
inductive FlowOp where
  | newVertex (label : String) (node : Option NodeId)
  | newSource (types : List Ty) (node : Option NodeId)
  | source (types : List Ty)
  | addEdge (src dst : VertexId)
  | removeEdge (src dst : VertexId)
  | destroyVertex (v : VertexId)
  | reclaim
  deriving DecidableEq, Repr

/-- An engine, with the types that the vertex in each slot was created with. -/
structure Chronicle where
  engine : Engine
  created : VertexId → List Ty

namespace Chronicle

/-- The start creates its sources shared and all other vertices empty. -/
def boot (config : Config) : Chronicle where
  engine := Engine.boot config
  created := (Engine.boot config).graph.internedAs

def step (c : Chronicle) : FlowOp → Chronicle
  | .newVertex label node =>
    let (v, engine) := c.engine.newVertex label node
    { engine, created := Function.update c.created v [] }
  | .newSource types node =>
    let (v, engine) := c.engine.newSource types node
    { engine, created := Function.update c.created v types }
  | .source types =>
    -- a source that is shared already is handed out and not created again
    let (v, engine) := c.engine.source types
    if (c.engine.graph.shared.get? types).isSome then { c with engine }
    else { engine, created := Function.update c.created v types }
  | .addEdge src dst => { c with engine := (c.engine.addEdge src dst).2 }
  | .removeEdge src dst => { c with engine := (c.engine.removeEdge src dst).2 }
  | .destroyVertex v => { c with engine := c.engine.destroyVertex v }
  | .reclaim => { c with engine := c.engine.reclaim.2 }

def run (c : Chronicle) (ops : List FlowOp) : Chronicle := ops.foldl step c

def Settled (c : Chronicle) : Prop := c.engine.graph.Settled c.created

theorem settled_boot (config : Config) : (boot config).Settled := by
  obtain ⟨born, h⟩ := Boot.sourced_boot config
  unfold Settled boot
  rw [h.internedAs]
  exact h.settled

theorem Settled.step {c : Chronicle} (h : c.Settled) (op : FlowOp) : (c.step op).Settled := by
  cases op with
  | newVertex label node => exact Graph.Settled.newVertex h label node
  | newSource types node => exact Graph.Settled.newSource h types node
  | source types =>
    have hsource := Graph.Settled.source h types
    unfold Graph.bornWithSource at hsource
    unfold Chronicle.step
    dsimp only
    split
    · next hs =>
      rw [if_pos hs] at hsource
      exact hsource
    · next hs =>
      rw [if_neg hs] at hsource
      exact hsource
  | addEdge src dst =>
    show (c.engine.adoptGraph _).graph.Settled c.created
    rw [Engine.graph_adoptGraph]
    exact Graph.Settled.addEdge h src dst
  | removeEdge src dst =>
    show (c.engine.adoptGraph _).graph.Settled c.created
    rw [Engine.graph_adoptGraph]
    exact Graph.Settled.removeEdge h src dst
  | destroyVertex v =>
    show (c.engine.adoptGraph _).graph.Settled c.created
    rw [Engine.graph_adoptGraph]
    exact Graph.Settled.destroy h v
  | reclaim =>
    show c.engine.reclaim.2.graph.Settled c.created
    unfold Engine.reclaim
    split
    · exact Graph.Settled.reclaim h
    · exact h

theorem Settled.run {c : Chronicle} (h : c.Settled) (ops : List FlowOp) : (c.run ops).Settled := by
  induction ops generalizing c with
  | nil => exact h
  | cons op ops ih => exact ih (h.step op)

end Chronicle

/-- Whatever was done since the start, a dead vertex holds nothing, and a live one holds a type for
exactly these reasons: that it was created with it, and each edge from a vertex that holds it. -/
theorem origins_exact (config : Config) (ops : List FlowOp) (d : VertexId) :
    let c := (Chronicle.boot config).run ops
    let e := c.engine
    ((e.vertex d).alive = false → (e.vertex d).typeList = []) ∧
      ((e.vertex d).alive = true → ∀ t,
        (t ∈ (e.vertex d).typeList ↔ (e.vertex d).origins t ≠ []) ∧
        (∀ s, ((e.vertex d).origins t).count (.edge s) =
          if d ∈ (e.vertex s).successors ∧ t ∈ (e.vertex s).typeList then 1 else 0) ∧
        ((e.vertex d).origins t).count .literal = (c.created d).count t) := by
  have h : ((Chronicle.boot config).run ops).engine.graph.Settled _ :=
    (Chronicle.settled_boot config).run ops
  exact ⟨fun hd => h.typeList_of_dead hd, fun hd t =>
    ⟨(h.tidy d).mem_typeList, fun s => h.count_edge hd s t, h.literals d t hd⟩⟩

end TypeFlow
