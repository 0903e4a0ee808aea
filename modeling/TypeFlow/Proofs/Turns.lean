import TypeFlow.Proofs.Holdings
import TypeFlow.Proofs.Homes

/-!
# Turns of the graph

What a move can do to the graph: dress its vertices, create one, share a source, change edges or
destroy a vertex. Without a sweep no slot becomes free, so a vertex that died stays dead.
-/

set_option autoImplicit false

namespace TypeFlow

namespace Graph

variable {g g' g'' : Graph} {v : VertexId}

structure Idle (g g' : Graph) : Prop extends SameSlots g g' where
  shared : g'.shared = g.shared
  rest : ∀ v, g'.get v =
    { g.get v with node := (g'.get v).node, listeners := (g'.get v).listeners }

namespace Idle

theorem refl (g : Graph) : Idle g g := ⟨.refl g, rfl, fun _ => rfl⟩

theorem trans (h : Idle g g') (h' : Idle g' g'') : Idle g g'' where
  toSameSlots := h.toSameSlots.trans h'.toSameSlots
  shared := h'.shared.trans h.shared
  rest v := by rw [h'.rest, h.rest]

theorem modify (g : Graph) (v : VertexId) {f : Vertex → Vertex}
    (hf : ∀ x, f x = { x with node := (f x).node, listeners := (f x).listeners }) :
    Idle g (g.modify v f) := by
  refine ⟨.modify g v f, rfl, fun u => ?_⟩
  rw [get_modify]
  split
  · exact hf _
  · rfl

theorem foldl {α : Type} {f : Graph → α → Graph} (hf : ∀ g a, Idle g (f g a)) (as : List α)
    (g : Graph) : Idle g (as.foldl f g) := by
  induction as generalizing g with
  | nil => exact refl g
  | cons a as ih => exact (hf g a).trans (ih (f g a))

end Idle

theorem Retyped.owners (h : Retyped g g') (v w : VertexId) :
    (g'.get v).owners w = (g.get v).owners w := by
  rw [h.rest]
  rfl

theorem rewires_sameSlots (g : Graph) : Rewires (SameSlots g) where
  next _ _ h := h.trans (.modify ..)
  incoming _ _ h := h.trans (.modify ..)
  counts _ _ h := ⟨h.size, h.released, h.free⟩
  types h h' := h.trans h'.toSameSlots

section Owners

variable {src dst : VertexId}

theorem owners_modify_next (hs : src.index < g.vertices.size)
    (f : OrderedMap VertexId Nat → OrderedMap VertexId Nat) (u w : VertexId) :
    ((g.modify src fun v => { v with next := f v.next }).get u).owners w =
      if src = u then ((f (g.get u).next).get? w).getD 0 else (g.get u).owners w := by
  rw [get_modify]
  by_cases hu : src = u
  · subst hu
    rw [if_pos ⟨rfl, hs⟩, if_pos rfl]
    rfl
  · rw [if_neg fun h => hu h.1, if_neg hu]

theorem owners_modify_incoming (f : Nat → Nat) (u w : VertexId) :
    ((g.modify dst fun v => { v with incoming := f v.incoming }).get u).owners w =
      (g.get u).owners w := by
  rw [get_modify]
  split <;> rfl

theorem owners_insert {x : Vertex} {k : Nat} (w : VertexId) :
    ((x.next.insert dst k).get? w).getD 0 = if dst = w then k else x.owners w := by
  rw [OrderedMap.get?_insert]
  split <;> rfl

theorem addEdge_spec (g : Graph) (src dst : VertexId) :
    SameSlots g (g.addEdge src dst).2.graph ∧
    ∀ u w, ((g.addEdge src dst).2.graph.get u).owners w = (g.get u).owners w +
      if (src = u ∧ dst = w) ∧ (g.get src).alive = true ∧ (g.get dst).alive = true then 1
      else 0 := by
  refine ⟨(rewires_sameSlots g).addEdge (.refl g) src dst, fun u w => ?_⟩
  unfold addEdge
  by_cases hlive : (g.get src).alive = true ∧ (g.get dst).alive = true
  · rw [if_pos (by simp [hlive.1, hlive.2])]
    have howners := (owners_modify_next (g := g) (lt_size_of_alive hlive.1)
      (fun next => next.insert dst ((g.get src).owners dst + 1)) u w).trans
        (show _ = (g.get u).owners w + if src = u ∧ dst = w then 1 else 0 by
          rw [owners_insert]
          by_cases hu : src = u
          · subst hu
            by_cases hw : dst = w <;> simp [hw]
          · simp [hu])
    simp only [hlive.1, hlive.2, and_self, and_true]
    split
    · rw [(Retyped.bring ..).owners, ← howners]
      exact owners_modify_incoming (· + 1) u w
    · exact howners
  · rw [if_neg (by simpa [Bool.and_eq_true] using hlive), if_neg fun h => hlive h.2]
    rfl

theorem removeEdge_spec (g : Graph) (src dst : VertexId) :
    SameSlots g (g.removeEdge src dst).2.graph ∧
    ∀ u w, ((g.removeEdge src dst).2.graph.get u).owners w = (g.get u).owners w -
      if src = u ∧ dst = w then 1 else 0 := by
  refine ⟨(rewires_sameSlots g).removeEdge (.refl g) src dst, fun u w => ?_⟩
  unfold removeEdge
  dsimp only
  split
  · next h =>
    split
    · next he =>
      obtain ⟨rfl, rfl⟩ := he
      show (g.get src).owners dst = _
      rw [h]
    · rfl
  · next h =>
    have hs : src.index < g.vertices.size := by
      by_contra hle
      rw [get_of_size_le (Nat.le_of_not_lt hle)] at h
      exact h rfl
    split
    · next h1 =>
      rw [(Retyped.retract ..).owners]
      refine (owners_modify_incoming (· - 1) u w).trans ?_
      refine (owners_modify_next hs (fun next => next.erase dst) u w).trans ?_
      rw [OrderedMap.get?_erase]
      by_cases hu : src = u
      · subst hu
        by_cases hw : dst = w
        · subst hw
          simp [h1]
        · simp [hw, Vertex.owners]
      · simp [hu]
    · refine (owners_modify_next hs
        (fun next => next.insert dst ((g.get src).owners dst - 1)) u w).trans ?_
      rw [owners_insert]
      by_cases hu : src = u
      · subst hu
        by_cases hw : dst = w <;> simp [hw]
      · simp [hu]

theorem destroy_spec (g : Graph) (v : VertexId) :
    (g.destroy v).graph.vertices.size = g.vertices.size ∧
    (g.destroy v).graph.vertices.free = g.vertices.free ∧
    ∀ u w, ((g.destroy v).graph.get u).owners w = (g.get u).owners w := by
  by_cases hv : (g.get v).alive = true
  · obtain ⟨g', hflow, hg⟩ := destroy_of_alive hv
    rw [hg]
    refine ⟨hflow.size.trans (size_modify ..), hflow.free, fun u w => (hflow.owners u w).trans ?_⟩
    rw [get_modify]
    split <;> rfl
  · unfold destroy
    rw [if_neg hv]
    exact ⟨rfl, rfl, fun _ _ => rfl⟩

end Owners

def rewire (g : Graph) (new gone : List (VertexId × VertexId)) : Graph :=
  gone.foldl (fun g x => (g.removeEdge x.1 x.2).2.graph)
    (new.foldl (fun g x => (g.addEdge x.1 x.2).2.graph) g)

inductive Turn (g : Graph) : Graph → Prop where
  | idle {g' : Graph} (h : Idle g g') : Turn g g'
  | create (label : String) (node : Option NodeId) : Turn g (g.newVertex label node).2
  | createSource (types : List Ty) (node : Option NodeId) : Turn g (g.newSource types node).2
  | share (types : List Ty) : Turn g (g.source types).2
  | rewire (new gone : List (VertexId × VertexId)) : Turn g (g.rewire new gone)
  | bury (v : VertexId) : Turn g (g.destroy v).graph

theorem rewire_induct {P : Graph → Prop} (hadd : ∀ g src dst, P g → P (g.addEdge src dst).2.graph)
    (hremove : ∀ g src dst, P g → P (g.removeEdge src dst).2.graph) (h : P g)
    (new gone : List (VertexId × VertexId)) : P (g.rewire new gone) := by
  have hfold : ∀ {f : Graph → VertexId × VertexId → Graph}, (∀ g x, P g → P (f g x)) →
      ∀ (xs : List (VertexId × VertexId)) (g : Graph), P g → P (xs.foldl f g) := by
    intro f hf xs
    induction xs with
    | nil => exact fun g h => h
    | cons x xs ih => exact fun g h => ih (f g x) (hf g x h)
  exact hfold (fun g x => hremove g x.1 x.2) gone _ (hfold (fun g x => hadd g x.1 x.2) new g h)

structure Ages (g g' : Graph) : Prop where
  size : g.vertices.size ≤ g'.vertices.size
  free : ∀ i ∈ g'.vertices.free, i ∈ g.vertices.free
  alive : ∀ v, v.index < g.vertices.size → v.index ∉ g.vertices.free →
    (g'.get v).alive = true → (g.get v).alive = true

namespace Ages

theorem refl (g : Graph) : Ages g g := ⟨Nat.le_refl _, fun _ => id, fun _ _ _ => id⟩

theorem trans (h : Ages g g') (h' : Ages g' g'') : Ages g g'' where
  size := h.size.trans h'.size
  free i hi := h.free i (h'.free i hi)
  alive v hv hfree hlive := h.alive v hv hfree
    (h'.alive v (Nat.lt_of_lt_of_le hv h.size) (fun hi => hfree (h.free _ hi)) hlive)

theorem of_slots (hs : g'.vertices.size = g.vertices.size)
    (hf : g'.vertices.free = g.vertices.free)
    (ha : ∀ v, (g'.get v).alive = true → (g.get v).alive = true) : Ages g g' :=
  ⟨Nat.le_of_eq hs.symm, fun _ hi => hf ▸ hi, fun v _ _ => ha v⟩

theorem alloc {born : VertexId → List Ty} (h : g.Settled born) (x : Vertex) :
    Ages g (g.alloc x).2 := by
  obtain ⟨-, hfree, hsize, -⟩ := slots_alloc h x
  refine ⟨hsize, fun i hi => ?_, fun v hv hnot hlive => ?_⟩
  · rw [hfree] at hi
    exact List.mem_of_mem_tail hi
  · rw [get_alloc h, if_neg] at hlive
    · exact hlive
    · rintro rfl
      rcases g.vertices.alloc_index x with hi | hi
      · exact hnot hi
      · exact absurd hv (Nat.not_lt.2 (Nat.le_of_eq hi.symm))

end Ages

theorem Turn.ages {born : VertexId → List Ty} (h : Turn g g') (hs : g.Settled born) :
    Ages g g' := by
  cases h with
  | idle h =>
    refine .of_slots h.size h.free fun v hv => ?_
    rw [h.rest] at hv
    exact hv
  | create | createSource => exact .alloc hs _
  | share types =>
    cases hshared : g.shared.get? types with
    | some u =>
      rw [source_eq_of_some hshared]
      exact .refl g
    | none =>
      rw [source_eq_of_none hshared]
      have h := Ages.alloc hs (Vertex.ofTypes types none)
      exact ⟨h.size, h.free, h.alive⟩
  | rewire new gone =>
    refine rewire_induct (P := fun g' => Ages g g') (fun g' src dst h => h.trans ?_)
      (fun g' src dst h => h.trans ?_) (.refl g) new gone
    · obtain ⟨hslots, -⟩ := addEdge_spec g' src dst
      refine .of_slots hslots.size hslots.free fun v hv => ?_
      rwa [(sameLife_addEdge g' src dst).alive] at hv
    · obtain ⟨hslots, -⟩ := removeEdge_spec g' src dst
      refine .of_slots hslots.size hslots.free fun v hv => ?_
      rwa [(sameLife_removeEdge g' src dst).alive] at hv
  | bury v =>
    obtain ⟨hsize, hfree, -⟩ := destroy_spec g v
    refine .of_slots hsize hfree fun u hu => ?_
    rw [(destroy_life g v).2] at hu
    split at hu
    · cases hu
    · exact hu

end Graph

open State

section Moves

namespace Engine

variable {e e' : Engine}

theorem Edits.turn (h : e.Edits e') : e.graph.Turn e'.graph := by
  induction h with
  | tell => exact .idle (.refl _)
  | name label => exact .create label none
  | schedule _ ss ih => rwa [graph_scheduleAll]

theorem idle_listeners (g : Graph) (vs : List VertexId)
    (f : OrderedSet SiteId → OrderedSet SiteId) : g.Idle (vs.foldl (fun g v =>
      g.modify v fun x => { x with listeners := f x.listeners }) g) :=
  Graph.Idle.foldl (f := fun g v => g.modify v fun x => { x with listeners := f x.listeners })
    (fun g v => .modify g v fun _ => rfl) vs g

theorem get_reclaim (e : Engine) (v : VertexId) : e.reclaim.2.graph.get v = e.graph.get v := by
  unfold Engine.reclaim
  split
  · show ((e.graph.vertices.sweep _).2.get? v.index).getD _ = _
    rw [Slots.get?_sweep]
    rfl
  · rfl

theorem graph_placeSite (e : Engine) (node : NodeId) (rule : Rule) :
    (e.placeSite node rule).2.graph = rule.inputs.foldl (fun g v => g.modify v fun x =>
      { x with listeners := x.listeners.insert (e.placeSite node rule).1 }) e.graph :=
  (graph_scheduleAll _ [_]).trans (Aside.post _ _ rule).graph

theorem idle_placeSite (e : Engine) (node : NodeId) (rule : Rule) :
    e.graph.Idle (e.placeSite node rule).2.graph := by
  rw [graph_placeSite]
  exact idle_listeners e.graph rule.inputs (·.insert (e.placeSite node rule).1)

theorem graph_destroying (e : Engine) (s : SiteId) (x : Site) :
    (e.destroying s x).engine.graph = x.rule.inputs.foldl (fun g v => g.modify v fun x =>
      { x with listeners := x.listeners.erase s }) e.graph :=
  (Aside.unregister s (e.markDestroyed s x) x.rule).graph

theorem idle_destroying (e : Engine) (s : SiteId) (x : Site) :
    e.graph.Idle (e.destroying s x).engine.graph := by
  rw [graph_destroying]
  exact idle_listeners e.graph x.rule.inputs (·.erase s)

theorem graph_foldl {α : Type} {f : Engine → α → Engine} {k : Graph → α → Graph}
    (hf : ∀ e a, (f e a).graph = k e.graph a) (as : List α) (e : Engine) :
    (as.foldl f e).graph = as.foldl k e.graph := by
  induction as generalizing e with
  | nil => rfl
  | cons a as ih =>
    rw [List.foldl_cons, List.foldl_cons, ih, hf]

theorem graph_renameOwned (e : Engine) (record : NodeRecord) (old new : NodeId)
    (rename : NodeId → NodeId) : (e.renameOwned record old new rename).graph =
      record.vertices.foldl (fun g v => g.modify v fun x => { x with node := some new }) e.graph :=
        by
  have hrekey : ∀ (regs : List Registration) (e' : Engine),
      (regs.foldl (fun e r => e.rekey (.node old) (.node new) r) e').graph = e'.graph := by
    intro regs
    induction regs with
    | nil => exact fun e' => rfl
    | cons r regs ih => exact fun e' => (ih _).trans (Aside.rekey e' _ _ r).graph
  obtain ⟨slots, hsites⟩ := foldl_modifySite_eq (Site.relabel new rename) record.sites.toList e
  have hgraph : (e.renameOwned record old new rename).graph = record.vertices.foldl (fun g v =>
      g.modify v fun x => { x with node := some new }) (record.sites.toList.foldl
        (fun e s => e.modifySite s (Site.relabel new rename)) e).graph := by
    unfold renameOwned
    dsimp only
    rw [hrekey]
    cases record.block <;> rfl
  rw [hgraph, hsites]

theorem exists_graph_adoptNode (path : String) (rename : NodeId → NodeId) (e : Engine) (new : Node)
    (old : NodeId) : ∃ vs : List VertexId, (e.adoptNode path rename new old).graph =
      vs.foldl (fun g v => g.modify v fun x => { x with node := some new.id }) e.graph := by
  cases hr : e.record? old with
  | none =>
    unfold Engine.adoptNode
    rw [hr]
    exact ⟨[], rfl⟩
  | some record =>
    obtain ⟨record', -, he⟩ := adoptNode_eq hr path rename new
    rw [he]
    exact ⟨_, graph_renameOwned { e with nodes := e.nodes.erase old } record old new.id rename⟩

theorem idle_adoptNode (path : String) (rename : NodeId → NodeId) (e : Engine) (new : Node)
    (old : NodeId) : e.graph.Idle (e.adoptNode path rename new old).graph := by
  obtain ⟨vs, hvs⟩ := exists_graph_adoptNode path rename e new old
  rw [hvs]
  exact Graph.Idle.foldl (f := fun g v => g.modify v fun x => { x with node := some new.id })
    (fun g v => .modify g v fun _ => rfl) vs e.graph

theorem graph_installEdges (e : Engine) (fx : Effects) :
    (Run.mk e fx).installEdges.engine.graph = e.graph.rewire
      (fx.pending.edges.toList.filter fun x => !fx.installed.edges.contains x)
      (fx.installed.edges.toList.filter fun x => !fx.pending.edges.contains x) := by
  unfold Graph.rewire
  have hadd := graph_foldl (f := fun e (x : VertexId × VertexId) => (e.addEdge x.1 x.2).2)
    (k := fun g x => (g.addEdge x.1 x.2).2.graph)
    fun e x => graph_adoptGraph e (e.graph.addEdge x.1 x.2).2
  have hremove := graph_foldl (f := fun e (x : VertexId × VertexId) => (e.removeEdge x.1 x.2).2)
    (k := fun g x => (g.removeEdge x.1 x.2).2.graph)
    fun e x => graph_adoptGraph e (e.graph.removeEdge x.1 x.2).2
  rw [← hadd]
  exact hremove _ _

end Engine

theorem State.Move.turn {s s' : State} (hm : Move s s') :
    s.engine.graph.Turn s'.engine.graph ∨ s'.progress.log = s.progress.log ++ [.sweep] := by
  refine (em (s'.progress.log = s.progress.log ++ [.sweep])).symm.imp (fun hlog => ?_) id
  cases hm with
  | sweep ho => exact absurd rfl hlog
  | aside h => exact .idle (h.graph ▸ .refl _)
  | newVertex label | freshVertex hw label => exact .create label none
  | ownVertex n label => exact .create label (some n)
  | source h => exact .share _
  | ownSource | freshSource => exact .createSource _ _
  | @define e ts d n entry hn h => exact (Engine.edits_enter e (.node n) entry).turn
  | @unregister e d n r regs reg hl hr => exact (Engine.edits_unregister e (.node n) reg).turn
  | adopt path rename new old h => exact .idle (Engine.idle_adoptNode ..)
  | @removeBlock e d n r hl =>
    rw [(Engine.exists_removeBlock_eq e r.block).choose_spec]
    exact .idle (.refl _)
  | beginDestroy hx hlive hs => exact .idle (Engine.idle_destroying ..)
  | placeSite ha h => exact .idle (Engine.idle_placeSite ..)
  | @installEdges e ts d t =>
    rw [show (State.mk _ _ _).engine.graph = _ from Engine.graph_installEdges e t.effects]
    exact .rewire _ _
  | buryLifted | bury => exact Engine.graph_adoptGraph _ _ ▸ .bury _
  | _ => exact .idle (.refl _)

end Moves

end TypeFlow
