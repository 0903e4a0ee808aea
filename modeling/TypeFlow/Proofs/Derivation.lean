import Mathlib.Data.Fintype.EquivFin
import Mathlib.Logic.Relation
import Mathlib.Order.WellFounded
import TypeFlow.Proofs.SharedSources
import TypeFlow.Workspace.Query

/-!
# Derived types

From scratch, a vertex gets the types that reach it from literals along edges. Edits take types
back by counting reasons, so a type can stay that has no other reason than itself, going round a
cycle. Otherwise what is held after edits is what is derived.
-/

set_option autoImplicit false

namespace TypeFlow

open Machine

namespace Graph

inductive Derived (g : Graph) (t : Ty) : VertexId → Prop where
  | literal {v : VertexId} (h : .literal ∈ (g.get v).origins t) : Derived g t v
  | edge {s v : VertexId} (hs : Derived g t s) (h : v ∈ (g.get s).successors)
    (hv : (g.get v).alive = true) : Derived g t v

def Passes (g : Graph) (t : Ty) (s v : VertexId) : Prop :=
  v ∈ (g.get s).successors ∧ (g.get v).alive = true ∧ t ∈ (g.get s).typeList

variable {g : Graph} {born : VertexId → List Ty} {t : Ty} {v : VertexId}

theorem Kept.alive_of_mem (h : g.Kept born) (ht : t ∈ (g.get v).typeList) :
    (g.get v).alive = true := by
  by_contra hv
  rw [h.typeList_of_dead (by simpa using hv)] at ht
  exact List.not_mem_nil ht

/-- Nothing derived is missing: a reason holds as long as the vertex it names does. -/
theorem Settled.mem_of_derived (h : g.Settled born) (hd : g.Derived t v) :
    t ∈ (g.get v).typeList := by
  induction hd with
  | literal hl => exact (h.tidy _).mem_typeList.2 (List.ne_nil_of_mem hl)
  | edge _ hsv hv ih => exact (h.mem_typeList hv).2 (.inr ⟨_, hsv, ih⟩)

/-- A type that is held but not derived was passed on by a vertex where it is not derived. -/
theorem Settled.exists_passes (h : g.Settled born) (ht : t ∈ (g.get v).typeList)
    (hd : ¬ g.Derived t v) : ∃ s, g.Passes t s v ∧ ¬ g.Derived t s := by
  have hv := h.alive_of_mem ht
  obtain ⟨o, ho⟩ := List.exists_mem_of_ne_nil _ ((h.tidy v).mem_typeList.1 ht)
  cases o with
  | literal => exact absurd (.literal ho) hd
  | edge s =>
    obtain ⟨hsv, hts⟩ := (h.mem_origins_edge hv).1 ho
    exact ⟨s, ⟨hsv, hv, hts⟩, fun hs => hd (.edge hs hsv hv)⟩

def Stale (g : Graph) (t : Ty) : Type :=
  { v : VertexId // t ∈ (g.get v).typeList ∧ ¬ g.Derived t v }

instance : Finite (g.Stale t) := by
  refine Finite.of_injective
    (fun v => (⟨v.1.index, lt_size_of_mem v.2.1⟩ : Fin g.vertices.size)) fun u v huv => ?_
  have hindex : u.1.index = v.1.index := congrArg Fin.val huv
  exact Subtype.ext (congrArg VertexId.mk hindex)

/-- Where a type is stale, going back along its reasons ends in a cycle, for vertices are
finitely many. -/
theorem Settled.exists_cycle (h : g.Settled born) (ht : t ∈ (g.get v).typeList)
    (hd : ¬ g.Derived t v) : ∃ u, Relation.TransGen (g.Passes t) u u ∧ ¬ g.Derived t u := by
  by_contra hnone
  let before (a b : g.Stale t) : Prop := Relation.TransGen (g.Passes t) a.1 b.1
  have : IsTrans (g.Stale t) before := ⟨fun _ _ _ => Relation.TransGen.trans⟩
  have : Std.Irrefl before := ⟨fun a ha => hnone ⟨a.1, ha, a.2.2⟩⟩
  have hwf : WellFounded before := Finite.wellFounded_of_trans_of_irrefl _
  obtain ⟨first, -, hfirst⟩ := hwf.has_min Set.univ ⟨⟨v, ht, hd⟩, trivial⟩
  obtain ⟨s, hpass, hs⟩ := h.exists_passes first.2.1 first.2.2
  exact hfirst ⟨s, hpass.2.2, hs⟩ trivial (.single hpass)

theorem Derived.mono {g' : Graph}
    (hlit : ∀ v, .literal ∈ (g.get v).origins t → .literal ∈ (g'.get v).origins t)
    (hedge : ∀ s v, v ∈ (g.get s).successors → (g.get v).alive = true →
      v ∈ (g'.get s).successors ∧ (g'.get v).alive = true) (h : g.Derived t v) :
    g'.Derived t v := by
  induction h with
  | literal hl => exact .literal (hlit _ hl)
  | edge _ hsv hv ih => exact .edge ih (hedge _ _ hsv hv).1 (hedge _ _ hsv hv).2

def Founded (g : Graph) : Prop := ∀ t v, t ∈ (g.get v).typeList → g.Derived t v

theorem Founded.alloc (h : g.Founded) (hs : g.Settled born) {x : Vertex}
    (hx : ∀ t ∈ x.typeList, .literal ∈ x.origins t) : (g.alloc x).2.Founded := by
  obtain ⟨hdead, hnext, -⟩ := alloc_detached hs x
  have hkept : ∀ u, (g.alloc x).1 ≠ u → (g.alloc x).2.get u = g.get u := fun u hu => by
    rw [get_alloc hs, if_neg hu]
  have hmono : ∀ t v, g.Derived t v → (g.alloc x).2.Derived t v := by
    intro t v hd
    refine hd.mono (fun u hl => ?_) fun s u hsu hu => ?_
    · -- the slot was empty before, so it held no literal
      have hne : (g.alloc x).1 ≠ u := by
        rintro rfl
        have hmem := (hs.tidy _).mem_typeList.2 (List.ne_nil_of_mem hl)
        exact absurd (hs.alive_of_mem hmem) (by rw [hdead]; exact Bool.false_ne_true)
      rw [hkept u hne]
      exact hl
    · have hs' : (g.alloc x).1 ≠ s := by
        rintro rfl
        rw [hnext] at hsu
        exact List.not_mem_nil hsu
      have hu' : (g.alloc x).1 ≠ u := by
        rintro rfl
        exact absurd hu (by rw [hdead]; exact Bool.false_ne_true)
      rw [hkept s hs', hkept u hu']
      exact ⟨hsu, hu⟩
  intro t v ht
  by_cases hv : (g.alloc x).1 = v
  · have hget : (g.alloc x).2.get v = x := by rw [get_alloc hs, if_pos hv]
    rw [hget] at ht
    refine .literal ?_
    rw [hget]
    exact hx t ht
  · rw [hkept v hv] at ht
    exact hmono t v (h t v ht)

end Graph

structure Wave.Founded (g : Graph) (w : Wave) : Prop where
  rest : ∀ v, w.graph.get v = { g.get v with types := (w.graph.get v).types }
  literals : ∀ t v, .literal ∈ (g.get v).origins t → .literal ∈ (w.graph.get v).origins t
  held : ∀ t v, t ∈ (w.graph.get v).typeList → g.Derived t v
  coming : ∀ a ∈ w.work, (g.get a.target).alive = true → ∀ t ∈ a.types, g.Derived t a.target

theorem Wave.Founded.step {g : Graph} {w : Wave} (h : w.Founded g) :
    (w.step Vertex.gain).Founded g := by
  cases hw : w.work with
  | nil =>
    have hstill : w.step Vertex.gain = w := by unfold Wave.step; rw [hw]
    rwa [hstill]
  | cons a rest =>
    have hrest : ∀ b ∈ rest, b ∈ w.work := fun b hb => by
      rw [hw]
      exact List.mem_cons_of_mem a hb
    cases ha : (w.graph.get a.target).alive with
    | false =>
      rw [step_dead hw ha]
      exact ⟨h.rest, h.literals, h.held, fun b hb => h.coming b (hrest b hb)⟩
    | true =>
      obtain ⟨hgraph, hwork⟩ := step_alive Vertex.gain hw ha
      have hlive : (g.get a.target).alive = true := by
        rw [h.rest] at ha
        exact ha
      have harrive := h.coming a (by rw [hw]; exact List.mem_cons_self) hlive
      have hget := Graph.get_set (Graph.lt_size_of_alive ha)
        (Vertex.gain a.src a.types (w.graph.get a.target)).1
      have hgain := Vertex.gain_eq a.src a.types (w.graph.get a.target)
      refine ⟨fun v => ?_, fun t v hl => ?_, fun t v ht => ?_, fun b hb hblive t ht => ?_⟩
      · rw [hgraph, hget]
        by_cases hv : a.target = v
        · subst hv
          rw [if_pos rfl, hgain, h.rest]
        · rw [if_neg hv]
          exact h.rest v
      · have hbefore := h.literals t v hl
        rw [hgraph, hget]
        by_cases hv : a.target = v
        · subst hv
          rw [if_pos rfl, Vertex.origins_gain]
          exact List.mem_append_left _ hbefore
        · rwa [if_neg hv]
      · rw [hgraph, hget] at ht
        by_cases hv : a.target = v
        · subst hv
          rw [if_pos rfl, Vertex.mem_typeList_gain] at ht
          exact ht.elim (harrive t) (h.held t _)
        · rw [if_neg hv] at ht
          exact h.held t v ht
      · rw [hwork, List.mem_append] at hb
        rcases hb with hb | hb
        · exact h.coming b (hrest b hb) hblive t ht
        · -- what is passed on has just arrived, and goes along an edge
          unfold passOn at hb
          split at hb
          · exact absurd hb List.not_mem_nil
          · obtain ⟨d, hd, rfl⟩ := List.mem_map.1 hb
            have hsucc : d ∈ (g.get a.target).successors := by
              rw [hgain, h.rest] at hd
              exact hd
            exact .edge (harrive t ((Vertex.mem_fresh_gain _).1 ht).1) hsucc hblive

namespace Graph

variable {g g' : Graph} {born : VertexId → List Ty} {src dst : VertexId}

theorem Founded.bring (h : g.Founded)
    (hdst : (g.get dst).alive = true → dst ∈ (g.get src).successors) :
    (g.bring dst src (g.typesAt src)).graph.Founded := by
  have hstart : Wave.Founded g { graph := g, work := [⟨dst, src, g.typesAt src⟩] } := by
    refine ⟨fun _ => rfl, fun _ _ hl => hl, h, fun a ha hlive t ht => ?_⟩
    rw [List.mem_singleton.1 ha] at hlive ht ⊢
    exact .edge (h t src ht) (hdst hlive) hlive
  have hend : Wave.Founded g (Wave.spread Vertex.gain g ⟨dst, src, g.typesAt src⟩) :=
    Wave.run_induction (P := Wave.Founded g) (fun _ => Wave.Founded.step) _ hstart
  intro t v ht
  refine (hend.held t v ht).mono (fun u => hend.literals t u) fun s u hsu hu => ?_
  show u ∈ (Wave.graph _ |>.get s).successors ∧ (Wave.graph _ |>.get u).alive = true
  rw [hend.rest s, hend.rest u]
  exact ⟨hsu, hu⟩

theorem Founded.rewired (h : g.Founded) (htypes : ∀ u, (g'.get u).types = (g.get u).types)
    (halive : ∀ u, (g'.get u).alive = (g.get u).alive)
    (hedge : ∀ s u, u ∈ (g.get s).successors → u ∈ (g'.get s).successors) : g'.Founded := by
  intro t v ht
  unfold Vertex.typeList at ht
  rw [htypes] at ht
  refine (h t v ht).mono (fun u hl => ?_) fun s u hsu hu => ⟨hedge s u hsu, (halive u).trans hu⟩
  unfold Vertex.origins at hl ⊢
  rwa [htypes]

theorem Founded.newVertex (h : g.Founded) (hs : g.Settled born) (label : String)
    (node : Option NodeId) : (g.newVertex label node).2.Founded :=
  h.alloc hs fun _ ht => absurd ht List.not_mem_nil

theorem Founded.newSource (h : g.Founded) (hs : g.Settled born) (types : List Ty)
    (node : Option NodeId) : (g.newSource types node).2.Founded := by
  refine h.alloc hs fun t ht => ?_
  rw [Vertex.mem_typeList_ofTypes] at ht
  rw [Vertex.origins_ofTypes]
  exact List.mem_replicate.2 ⟨Nat.ne_of_gt (List.count_pos_iff.2 ht), rfl⟩

theorem Founded.source (h : g.Founded) (hs : g.Settled born) (types : List Ty) :
    (g.source types).2.Founded := by
  cases hg : g.shared.get? types with
  | some v => rwa [source_eq_of_some hg]
  | none =>
    rw [source_eq_of_none hg]
    exact (h.newSource hs types none).rewired (fun _ => rfl) (fun _ => rfl) fun _ _ hu => hu

theorem Founded.addEdge (h : g.Founded) (src dst : VertexId) :
    (g.addEdge src dst).2.graph.Founded := by
  unfold Graph.addEdge
  by_cases hlive : ((g.get src).alive && (g.get dst).alive) = true
  · obtain ⟨hs, hd⟩ := Bool.and_eq_true_iff.1 hlive
    rw [if_pos hlive]
    have hmore : ∀ k u, u ∈ (g.get src).successors →
        u ∈ ((g.get src).next.insert dst k).keys := fun k u hu =>
      OrderedMap.mem_keys_insert.2 (.inr hu)
    by_cases ho : (g.get src).owners dst = 0
    · simp only [ho, if_true]
      have hr := Graph.rewired (g := g) (·.insert dst 1) (· + 1) (g.edgesAdded + 1)
        g.edgesRemoved (lt_size_of_alive hs) (lt_size_of_alive hd)
      have hlinked := h.rewired (fun u => by rw [hr.get]) (fun u => by rw [hr.get])
        fun s u hu => by
          rw [hr.successors]
          split
          · next hsrc => exact hmore 1 u (hsrc ▸ hu)
          · exact hu
      refine hlinked.bring fun _ => ?_
      rw [hr.successors, if_pos rfl]
      exact OrderedMap.mem_keys_insert.2 (.inl rfl)
    · simp only [ho, if_false]
      have hget : ∀ u, (g.modify src fun v =>
          { v with next := v.next.insert dst ((g.get src).owners dst + 1) }).get u =
          { g.get u with next := if src = u then
            (g.get u).next.insert dst ((g.get src).owners dst + 1) else (g.get u).next } := by
        intro u
        rw [get_modify]
        by_cases hu : src = u
        · subst hu
          rw [if_pos ⟨rfl, lt_size_of_alive hs⟩, if_pos rfl]
        · rw [if_neg fun hc => hu hc.1, if_neg hu]
      refine h.rewired (fun u => by rw [hget]) (fun u => by rw [hget]) fun s u hu => ?_
      rw [hget]
      unfold Vertex.successors
      dsimp only
      split
      · next hsrc =>
        subst hsrc
        exact hmore _ u hu
      · exact hu
  · rw [if_neg hlive]
    exact h

end Graph

/-- Whether an operation only adds to a graph. -/
def FlowOp.builds : FlowOp → Bool
  | .removeEdge _ _ | .destroyVertex _ => false
  | _ => true

namespace Chronicle

def blank (config : Config) : Chronicle where
  engine := { config }
  created := fun _ => []

theorem founded_step {c : Chronicle} (hs : c.Settled) (h : c.engine.graph.Founded) {op : FlowOp}
    (hop : op.builds = true) : (c.step op).engine.graph.Founded := by
  cases op with
  | newVertex label node => exact h.newVertex hs label node
  | newSource types node => exact h.newSource hs types node
  | source types =>
    have hsource := h.source hs types
    unfold Chronicle.step
    dsimp only
    split <;> exact hsource
  | addEdge src dst =>
    show (c.engine.addEdge src dst).2.graph.Founded
    rw [Engine.graph_addEdge]
    exact h.addEdge src dst
  | removeEdge | destroyVertex => exact absurd hop Bool.false_ne_true
  | reclaim =>
    show c.engine.reclaim.2.graph.Founded
    unfold Engine.reclaim
    split
    · exact h.rewired (fun _ => rfl) (fun _ => rfl) fun _ _ hu => hu
    · exact h

/-- What is only built up holds derived types only, cycles or not. -/
theorem founded_run {c : Chronicle} (hs : c.Settled) (h : c.engine.graph.Founded)
    {ops : List FlowOp} (hops : ∀ op ∈ ops, op.builds = true) :
    (c.run ops).engine.graph.Founded := by
  induction ops generalizing c with
  | nil => exact h
  | cons op ops ih =>
    have hop := hops op List.mem_cons_self
    exact ih (hs.step op) (founded_step hs h hop) fun op' hop' =>
      hops op' (List.mem_cons_of_mem _ hop')

end Chronicle

def copiesOfGlobal : String :=
  "\x7b\"type\":\"gvar_write\",\"name\":\"$a\",\"value\":" ++
    "\x7b\"type\":\"gvar_read\",\"name\":\"$a\"\x7d\x7d," ++
    "\x7b\"type\":\"const_write\",\"name\":\"C\",\"value\":" ++
    "\x7b\"type\":\"gvar_read\",\"name\":\"$a\"\x7d\x7d]\x7d"

def copyingGlobal : Request :=
  .update "a" none ("\x7b\"type\":\"program\",\"body\":[" ++ copiesOfGlobal)

def copyingInteger : Request :=
  .update "a" none ("\x7b\"type\":\"program\",\"body\":[\x7b\"type\":\"gvar_write\"," ++
    "\"name\":\"$a\",\"value\":\x7b\"type\":\"int\",\"value\":1\x7d\x7d," ++ copiesOfGlobal)

end TypeFlow
