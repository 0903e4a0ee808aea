import TypeFlow.Proofs.Evaluation

/-!
# Shared sources

The source of a list of static types is made once and handed out wherever the types occur. It has
no place in a record or among effects, so nothing ever buries it, and it keeps the literals it was
created with. An edge may still lead into it: then it holds what flows along that edge as well.
-/

set_option autoImplicit false

namespace TypeFlow

open Machine

namespace Graph

variable {g : Graph} {born : VertexId → List Ty} {v : VertexId} {t : Ty}

theorem Settled.mem_origins_edge (h : g.Settled born) (hv : (g.get v).alive = true)
    {s : VertexId} : .edge s ∈ (g.get v).origins t ↔
      v ∈ (g.get s).successors ∧ t ∈ (g.get s).typeList := by
  rw [← List.count_pos_iff, h.count_edge hv]
  split
  · next hs => exact iff_of_true Nat.one_pos hs
  · next hs => exact iff_of_false (Nat.lt_irrefl 0) hs

theorem Settled.mem_typeList (h : g.Settled born) (hv : (g.get v).alive = true) :
    t ∈ (g.get v).typeList ↔
      t ∈ born v ∨ ∃ s, v ∈ (g.get s).successors ∧ t ∈ (g.get s).typeList := by
  have hliteral : .literal ∈ (g.get v).origins t ↔ t ∈ born v := by
    rw [← List.count_pos_iff, h.literals v t hv, List.count_pos_iff]
  rw [(h.tidy v).mem_typeList]
  constructor
  · intro hne
    obtain ⟨o, ho⟩ := List.exists_mem_of_ne_nil _ hne
    cases o with
    | literal => exact .inl (hliteral.1 ho)
    | edge s => exact .inr ⟨s, (h.mem_origins_edge hv).1 ho⟩
  · rintro (ht | ⟨s, hs⟩)
    · exact List.ne_nil_of_mem (hliteral.2 ht)
    · exact List.ne_nil_of_mem ((h.mem_origins_edge hv).2 hs)

theorem Settled.pure_iff (h : g.Settled born) (hv : (g.get v).alive = true) :
    (∀ t, (t ∈ (g.get v).typeList ↔ t ∈ born v) ∧ ∀ o ∈ (g.get v).origins t, o = .literal) ↔
      ∀ s, v ∈ (g.get s).successors → (g.get s).typeList = [] := by
  constructor
  · intro hpure s hs
    refine List.eq_nil_iff_forall_not_mem.2 fun t ht => ?_
    have hedge := (hpure t).2 (.edge s) ((h.mem_origins_edge hv).2 ⟨hs, ht⟩)
    exact Origin.noConfusion hedge
  · intro hempty t
    refine ⟨(h.mem_typeList hv).trans ⟨fun ht => ?_, .inl⟩, fun o ho => ?_⟩
    · refine ht.resolve_right ?_
      rintro ⟨s, hs, hts⟩
      rw [hempty s hs] at hts
      exact List.not_mem_nil hts
    · cases o with
      | literal => rfl
      | edge s =>
        obtain ⟨hs, hts⟩ := (h.mem_origins_edge hv).1 ho
        rw [hempty s hs] at hts
        exact absurd hts List.not_mem_nil

end Graph

/-- After every sequence of requests the source shared under some types is alive, stays the one
for them whatever is asked later, and has exactly these types as literals. It holds just them, and
only as literals, if and only if no vertex with a type has an edge into it. -/
theorem shared_source_exact (config : Config) (rs : List Request) (ts : List Ty) (v : VertexId)
    (hshared : (Workspace.serve config rs).engine.graph.shared.get? ts = some v) :
    let g := (Workspace.serve config rs).engine.graph
    (g.get v).alive = true ∧
    (∀ more, (Workspace.serve config (rs ++ more)).engine.graph.shared.get? ts = some v) ∧
    (∀ t, ((g.get v).origins t).count .literal = ts.count t) ∧
    (∀ t, t ∈ (g.get v).typeList ↔
      t ∈ ts ∨ ∃ s, v ∈ (g.get s).successors ∧ t ∈ (g.get s).typeList) ∧
    ((∀ t, (t ∈ (g.get v).typeList ↔ t ∈ ts) ∧ ∀ o ∈ (g.get v).origins t, o = .literal) ↔
      ∀ s, v ∈ (g.get s).successors → (g.get s).typeList = []) := by
  intro g
  obtain ⟨hkeysDistinct, born, howned⟩ := Workspace.owned_serve config rs
  have hborn : born v = ts := howned.interned.born ts v hshared
  have halive : (g.get v).alive = true := howned.interned.alive ts v hshared
  have hsettled : g.Settled born := howned.settled
  refine ⟨halive, fun more => ?_, fun t => ?_, fun t => ?_, ?_⟩
  · exact hkeysDistinct.steps_shared (Workspace.steps_serve_append config rs more) hshared
  · rw [hsettled.literals v t halive, hborn]
  · rw [hsettled.mem_typeList halive, hborn]
  · rw [← hborn]
    exact hsettled.pure_iff halive

def pushingString : Request :=
  .update "a" none ("\x7b\"type\":\"program\",\"body\":[\x7b\"type\":\"sig_gvar\"," ++
    "\"name\":\"$x\",\"ty\":\x7b\"type\":\"instance\",\"cpath\":[\"Array\"],\"args\":[\x7b\"type\":\"instance\"," ++
    "\"cpath\":[\"Integer\"]\x7d]\x7d\x7d,\x7b\"type\":\"call\",\"recv\":" ++
    "\x7b\"type\":\"gvar_read\",\"name\":\"$x\"\x7d,\"name\":\"<<\",\"args\":[\x7b\"value\":" ++
    "\x7b\"type\":\"str\",\"value\":\"s\"\x7d\x7d]\x7d]\x7d")

theorem pushingString_flow :
    let g := (Workspace.serve {} [pushingString]).engine.graph
    g.shared.get? [.instanceOf Core.integer []] = some ⟨35⟩ ∧
      .instanceOf Core.string [] ∈ (g.get ⟨35⟩).typeList := by
  rw [Workspace.serve_eq]
  decide +kernel

theorem shared_source_exact_pushing :
    let g := (Workspace.serve {} [pushingString]).engine.graph
    g.shared.get? [.instanceOf Core.integer []] = some ⟨35⟩ ∧ (g.get ⟨35⟩).alive = true ∧
      ∃ s, ⟨35⟩ ∈ (g.get s).successors ∧ .instanceOf Core.string [] ∈ (g.get s).typeList := by
  obtain ⟨hshared, hstring⟩ := pushingString_flow
  obtain ⟨halive, -, -, htypes, -⟩ := shared_source_exact {} [pushingString] _ ⟨35⟩ hshared
  generalize (Workspace.serve {} [pushingString]).engine.graph = g
    at hshared hstring halive htypes ⊢
  refine ⟨hshared, halive, ((htypes _).1 hstring).resolve_left ?_⟩
  decide

theorem not_shared_source_immutable :
    ¬ ∀ (config : Config) (rs : List Request) (ts : List Ty) (v : VertexId),
      let g := (Workspace.serve config rs).engine.graph
      g.shared.get? ts = some v → ∀ t, t ∈ (g.get v).typeList ↔ t ∈ ts := by
  intro h
  obtain ⟨hshared, hstring⟩ := pushingString_flow
  have hmem := (h {} [pushingString] _ ⟨35⟩ hshared _).1 hstring
  revert hmem
  decide

end TypeFlow
