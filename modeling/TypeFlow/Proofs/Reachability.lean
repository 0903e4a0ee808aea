import TypeFlow.Proofs.Derivation

/-!
# Held types are reachable literals

While a graph is only built up, or whenever its edges between live vertices form no cycle, counting
reasons computes reachability: a live vertex holds a type if and only if a live vertex that was
created with it leads there along stored edges, through live vertices only. So what is held depends
on the literals and edges there are, and not on how they came about.
-/

set_option autoImplicit false

namespace TypeFlow

namespace Graph

def Link (g : Graph) (s v : VertexId) : Prop :=
  v ∈ (g.get s).successors ∧ (g.get s).alive = true ∧ (g.get v).alive = true

def Acyclic (g : Graph) : Prop := ∀ v, ¬Relation.TransGen g.Link v v

variable {g : Graph} {born : VertexId → List Ty} {t : Ty} {v : VertexId}

/-- Edges that always lead to older slots form no cycle. -/
theorem acyclic_of_descending
    (h : ∀ i < g.vertices.size, ∀ v ∈ (g.get ⟨i⟩).successors, v.index < i) : g.Acyclic := by
  have hpath : ∀ {s v}, Relation.TransGen g.Link s v → v.index < s.index := by
    intro s v hpath
    induction hpath with
    | single hlink => exact h _ (lt_size_of_alive hlink.2.1) _ hlink.1
    | tail _ hlink ih => exact (h _ (lt_size_of_alive hlink.2.1) _ hlink.1).trans ih
  exact fun v hcycle => Nat.lt_irrefl _ (hpath hcycle)

theorem Settled.literal_iff (h : g.Settled born) (hv : (g.get v).alive = true) :
    .literal ∈ (g.get v).origins t ↔ t ∈ born v := by
  rw [← List.count_pos_iff, h.literals v t hv, List.count_pos_iff]

theorem Settled.derived_iff (h : g.Settled born) : g.Derived t v ↔
    ∃ u, (g.get u).alive = true ∧ .literal ∈ (g.get u).origins t ∧
      Relation.ReflTransGen g.Link u v := by
  constructor
  · intro hd
    induction hd with
    | @literal v hl =>
      have hmem := (h.tidy v).mem_typeList.2 (List.ne_nil_of_mem hl)
      exact ⟨v, h.alive_of_mem hmem, hl, .refl⟩
    | @edge s v hs hsv hv ih =>
      obtain ⟨u, hu, hl, hpath⟩ := ih
      exact ⟨u, hu, hl, hpath.tail ⟨hsv, h.alive_of_mem (h.mem_of_derived hs), hv⟩⟩
  · rintro ⟨u, -, hl, hpath⟩
    induction hpath with
    | refl => exact .literal hl
    | tail _ hlink ih => exact .edge ih hlink.1 hlink.2.2

theorem Settled.link_of_passes (h : g.Settled born) {s : VertexId} (hp : g.Passes t s v) :
    g.Link s v :=
  ⟨hp.1, h.alive_of_mem hp.2.2, hp.2.1⟩

/-- Without a cycle no type can be its own reason. -/
theorem Settled.founded_of_acyclic (h : g.Settled born) (hg : g.Acyclic) : g.Founded := by
  intro t v ht
  by_contra hd
  obtain ⟨u, hcycle, -⟩ := h.exists_cycle ht hd
  exact hg u (Relation.TransGen.mono (fun _ _ hp => h.link_of_passes hp) u u hcycle)

end Graph

namespace Boot

theorem founded_boot (config : Config) : (Engine.boot config).graph.Founded := by
  rw [Engine.graph_boot, startGraph_eq]
  generalize Core.names.zipIdx = xs
  induction xs using List.reverseRecOn with
  | nil => exact fun t v ht => absurd ht List.not_mem_nil
  | append_singleton xs x ih =>
    obtain ⟨born, h⟩ := sourced_define xs
    rw [List.foldl_append]
    have hnamed := h.settled.newVertex ("const:" ++ x.1) none
    exact ((ih.newVertex h.settled _ none).source hnamed _).addEdge _ _

end Boot

namespace Chronicle

/-- Nothing was taken away, or no cycle of edges is there. -/
def Untangled (config : Config) (ops : List FlowOp) : Prop :=
  (∀ op ∈ ops, op.builds = true) ∨ ((boot config).run ops).engine.graph.Acyclic

variable {config : Config} {ops : List FlowOp}

theorem Untangled.founded (h : Untangled config ops) :
    ((boot config).run ops).engine.graph.Founded := by
  rcases h with hops | hacyclic
  · exact founded_run (settled_boot config) (Boot.founded_boot config) hops
  · exact ((settled_boot config).run ops).founded_of_acyclic hacyclic

theorem Untangled.mem_typeList (h : Untangled config ops) (t : Ty) (v : VertexId) :
    let g := ((boot config).run ops).engine.graph
    t ∈ (g.get v).typeList ↔ ∃ u, (g.get u).alive = true ∧ .literal ∈ (g.get u).origins t ∧
      Relation.ReflTransGen g.Link u v := by
  intro g
  have hs : g.Settled _ := (settled_boot config).run ops
  exact (Iff.intro (h.founded t v) hs.mem_of_derived).trans hs.derived_iff

end Chronicle

/-- Reference counting computes reachability: in every state in which nothing was taken away yet or
no cycle is left, a live vertex holds exactly the literals of the live vertices that lead to it
along stored edges, through live vertices. Two such states with the same live vertices, literals
and edges hold the same types, in whatever order they were built. -/
theorem held_types_reachable (config : Config) (ops : List FlowOp)
    (h : Chronicle.Untangled config ops) :
    let c := (Chronicle.boot config).run ops
    let g := c.engine.graph
    (∀ v, (g.get v).alive = true → ∀ t, t ∈ (g.get v).typeList ↔
      ∃ u, (g.get u).alive = true ∧ .literal ∈ (g.get u).origins t ∧
        Relation.ReflTransGen g.Link u v) ∧
    ∀ ops', Chronicle.Untangled config ops' →
      let c' := (Chronicle.boot config).run ops'
      let g' := c'.engine.graph
      (∀ u, (g'.get u).alive = (g.get u).alive) →
      (∀ u, (g.get u).alive = true → ∀ t, t ∈ c'.created u ↔ t ∈ c.created u) →
      (∀ u v, (g.get u).alive = true → (g.get v).alive = true →
        (v ∈ (g'.get u).successors ↔ v ∈ (g.get u).successors)) →
      ∀ v t, t ∈ (g'.get v).typeList ↔ t ∈ (g.get v).typeList := by
  intro c g
  have hs : g.Settled c.created := (Chronicle.settled_boot config).run ops
  refine ⟨fun v _ t => h.mem_typeList t v, fun ops' h' => ?_⟩
  intro c' g' halive hcreated hedges v t
  have hs' : g'.Settled c'.created := (Chronicle.settled_boot config).run ops'
  have hlink : g'.Link = g.Link := by
    funext u w
    refine propext ?_
    unfold Graph.Link
    rw [halive u, halive w]
    exact and_congr_left fun hlive => hedges u w hlive.1 hlive.2
  refine (h'.mem_typeList t v).trans (Iff.trans (exists_congr fun u => ?_)
    (h.mem_typeList t v).symm)
  show (g'.get u).alive = true ∧ _ ∧ Relation.ReflTransGen g'.Link u v ↔ _
  rw [hlink, halive u]
  refine and_congr_right fun hu => and_congr_left fun _ => ?_
  rw [hs.literal_iff hu, hs'.literal_iff ((halive u).trans hu)]
  exact hcreated u hu t

def cutCycle : List FlowOp :=
  [.newVertex "a" none, .newVertex "b" none, .newSource [.plain Core.integer] none,
    .addEdge ⟨32⟩ ⟨31⟩, .addEdge ⟨31⟩ ⟨30⟩, .addEdge ⟨30⟩ ⟨31⟩, .removeEdge ⟨30⟩ ⟨31⟩,
    .removeEdge ⟨32⟩ ⟨31⟩, .addEdge ⟨32⟩ ⟨30⟩]

theorem held_types_reachable_cutCycle :
    let g := ((Chronicle.boot {}).run cutCycle).engine.graph
    let leads := fun v => ∃ u, (g.get u).alive = true ∧
      .literal ∈ (g.get u).origins (.plain Core.integer) ∧ Relation.ReflTransGen g.Link u v
    Chronicle.Untangled {} cutCycle ∧ leads ⟨30⟩ ∧ ¬leads ⟨31⟩ := by
  intro g leads
  obtain ⟨hdown, hfirst, hheld, hsecond, hnot⟩ :
      (∀ i < g.vertices.size, ∀ v ∈ (g.get ⟨i⟩).successors, v.index < i) ∧
      (g.get ⟨30⟩).alive = true ∧ .plain Core.integer ∈ (g.get ⟨30⟩).typeList ∧
      (g.get ⟨31⟩).alive = true ∧ .plain Core.integer ∉ (g.get ⟨31⟩).typeList := by
    dsimp only [g, Chronicle.boot]
    rw [Engine.boot_start]
    decide +kernel
  have hcut : Chronicle.Untangled {} cutCycle := .inr (Graph.acyclic_of_descending hdown)
  have hreach := (held_types_reachable {} cutCycle hcut).1
  exact ⟨hcut, (hreach ⟨30⟩ hfirst _).1 hheld, fun hleads => hnot ((hreach ⟨31⟩ hsecond _).2
    hleads)⟩

end TypeFlow
