import TypeFlow.Proofs.Compound

/-!
# The stock of an engine

Most changes leave sites, records and blocks as they are. Handing a record over moves all that it
lists to another node.
-/

set_option autoImplicit false

namespace TypeFlow

namespace Engine

structure SameStock (e e' : Engine) : Prop where
  sites : e'.sites = e.sites
  nodes : e'.nodes = e.nodes
  blocks : e'.blocks = e.blocks
  nextNode : e'.nextNode = e.nextNode

variable {e e' e'' : Engine}

theorem SameStock.refl (e : Engine) : e.SameStock e := ⟨rfl, rfl, rfl, rfl⟩

theorem SameStock.trans (h : e.SameStock e') (h' : e'.SameStock e'') : e.SameStock e'' :=
  ⟨h'.sites.trans h.sites, h'.nodes.trans h.nodes, h'.blocks.trans h.blocks,
    h'.nextNode.trans h.nextNode⟩

theorem SameStock.scheduleAll (e : Engine) (ss : List SiteId) : e.SameStock (e.scheduleAll ss) := by
  obtain ⟨q, hq⟩ := e.exists_scheduleAll_eq ss
  rw [hq]
  exact ⟨rfl, rfl, rfl, rfl⟩

theorem SameStock.schedule (h : e.SameStock e') (ss : List SiteId) :
    e.SameStock (e'.scheduleAll ss) :=
  h.trans (.scheduleAll e' ss)

theorem SameStock.modifyWorld (e : Engine) (f : World → World) : e.SameStock (e.modifyWorld f) :=
  ⟨rfl, rfl, rfl, rfl⟩

theorem SameStock.newVertex (e : Engine) (label : String) (node : Option NodeId) :
    e.SameStock (e.newVertex label node).2 := ⟨rfl, rfl, rfl, rfl⟩

theorem SameStock.newSource (e : Engine) (types : List Ty) (node : Option NodeId) :
    e.SameStock (e.newSource types node).2 := ⟨rfl, rfl, rfl, rfl⟩

theorem SameStock.source (e : Engine) (types : List Ty) : e.SameStock (e.source types).2 :=
  ⟨rfl, rfl, rfl, rfl⟩

theorem SameStock.adoptGraph (e : Engine) (c : Graph.Changed) : e.SameStock (e.adoptGraph c) := by
  obtain ⟨q, hq⟩ := e.exists_adoptGraph_eq c
  rw [hq]
  exact ⟨rfl, rfl, rfl, rfl⟩

theorem SameStock.foldl {α : Type} {f : Engine → α → Engine}
    (hf : ∀ (e : Engine) a, e.SameStock (f e a)) (as : List α) (e : Engine) :
    e.SameStock (as.foldl f e) := by
  induction as generalizing e with
  | nil => exact .refl e
  | cons a as ih => exact (hf e a).trans (ih (f e a))

theorem SameStock.addEdge (e : Engine) (src dst : VertexId) :
    e.SameStock (e.addEdge src dst).2 :=
  .adoptGraph e (e.graph.addEdge src dst).2

theorem SameStock.removeEdge (e : Engine) (src dst : VertexId) :
    e.SameStock (e.removeEdge src dst).2 :=
  .adoptGraph e (e.graph.removeEdge src dst).2

theorem SameStock.installEdges (r : Run) : r.engine.SameStock r.installEdges.engine := by
  have hadd := fun new e => SameStock.foldl (f := fun e (x : VertexId × VertexId) =>
    (e.addEdge x.1 x.2).2) (fun e x => .addEdge e x.1 x.2) new e
  have hremove := fun gone e => SameStock.foldl (f := fun e (x : VertexId × VertexId) =>
    (e.removeEdge x.1 x.2).2) (fun e x => .removeEdge e x.1 x.2) gone e
  exact (hadd _ _).trans (hremove _ _)

theorem SameStock.ensureConst (e : Engine) (key : ConstKey) : e.SameStock (e.ensureConst key).2 :=
    by
  unfold Engine.ensureConst
  split <;> exact ⟨rfl, rfl, rfl, rfl⟩

theorem SameStock.ensureIvar (e : Engine) (key : MemberKey) : e.SameStock (e.ensureIvar key).2 := by
  unfold Engine.ensureIvar
  split <;> exact ⟨rfl, rfl, rfl, rfl⟩

theorem SameStock.ite {p : Prop} [Decidable p] {a b : Engine} (ha : e.SameStock a)
    (hb : e.SameStock b) : e.SameStock (if p then a else b) := by
  split
  · exact ha
  · exact hb

theorem SameStock.changeDecls (e : Engine) (key : MemberKey)
    (f : OrderedSet SiteId → OrderedSet SiteId) : e.SameStock (e.changeDecls key f) :=
  ((SameStock.modifyWorld e _).schedule _).schedule _

theorem SameStock.changeDefs (e : Engine) (key : MemberKey)
    (f : OrderedSet SiteId → OrderedSet SiteId) : e.SameStock (e.changeDefs key f) :=
  .ite ((SameStock.modifyWorld e _).schedule _) (.modifyWorld e _)

theorem SameStock.post (e : Engine) (s : SiteId) (rule : Rule) : e.SameStock (e.post s rule) := by
  cases rule with
  | methodDecl r => exact .changeDecls e r.key (·.insert s)
  | methodDef r => exact .changeDefs e r.key (·.insert s)
  | ivarRead r => exact ⟨rfl, rfl, rfl, rfl⟩
  | constRead | typeRead | returnCheck | call | globalRead | multiAssign => exact .refl e

theorem SameStock.unpost (s : SiteId) (e : Engine) (rule : Rule) :
    e.SameStock (rule.unregister s e) := by
  cases rule with
  | methodDecl r => exact .changeDecls e r.key (·.erase s)
  | methodDef r => exact .changeDefs e r.key (·.erase s)
  | ivarRead r => exact ⟨rfl, rfl, rfl, rfl⟩
  | constRead | typeRead | returnCheck | call | globalRead | multiAssign => exact .refl e

theorem sites_destroying (e : Engine) (s : SiteId) (x : Site) :
    (e.destroying s x).engine.sites =
      (e.modifySite s fun x => { x with destroyed := true, effects := {} }).sites := by
  show (x.rule.unregister s (e.markDestroyed s x)).sites.modify s.index _ = _
  rw [(SameStock.unpost s (e.markDestroyed s x) x.rule).sites]
  exact Slots.modify_modify _ _ _ _

inductive Edits (e : Engine) : Engine → Prop
  | tell (world : World) : Edits e { e with world }
  | name (label : String) (world : World) : Edits e { (e.newVertex label none).2 with world }
  | schedule {e' : Engine} (h : Edits e e') (ss : List SiteId) : Edits e (e'.scheduleAll ss)

theorem Edits.ite {p : Prop} [Decidable p] {a b : Engine} (ha : e.Edits a) (hb : e.Edits b) :
    e.Edits (if p then a else b) := by
  split
  · exact ha
  · exact hb

theorem edits_ensureConst (e : Engine) (key : ConstKey) (f : World → World) :
    e.Edits ((e.ensureConst key).2.modifyWorld f) := by
  unfold Engine.ensureConst
  split
  · exact .tell _
  · exact .name _ _

theorem edits_ensureIvar (e : Engine) (key : MemberKey) (f : World → World) :
    e.Edits ((e.ensureIvar key).2.modifyWorld f) := by
  unfold Engine.ensureIvar
  split
  · exact .tell _
  · exact .name _ _

theorem edits_enter (e : Engine) (origin : DefOrigin) (entry : Entry) :
    e.Edits (e.enter origin entry) := by
  cases entry with
  | module m decl => exact .ite (.schedule (.tell _) _) (.tell _)
  | inclusion | «alias» => exact .schedule (.tell _) _
  | const key =>
    have hworld := edits_ensureConst e key
    exact .ite (hworld _) (.schedule (hworld _) _)
  | ivar key =>
    have hworld := edits_ensureIvar e key
    exact .ite (hworld _) (.schedule (hworld _) _)

theorem edits_unregister (e : Engine) (origin : DefOrigin) (reg : Registration) :
    e.Edits (e.unregister origin reg) := by
  cases reg with
  | module m => exact .ite (.schedule (.tell _) _) (.tell _)
  | inclusion m target => exact .ite (.schedule (.tell _) _) (.tell e.world)
  | const key =>
    have hworld := edits_ensureConst e key
    exact .ite (.schedule (hworld _) _) (hworld _)
  | ivar key =>
    have hworld := edits_ensureIvar e key
    exact .ite (.schedule (hworld _) _) (hworld _)
  | «alias» key => exact .schedule (.tell _) _

theorem Edits.sameStock (h : e.Edits e') : e.SameStock e' := by
  induction h with
  | tell | name => exact ⟨rfl, rfl, rfl, rfl⟩
  | schedule _ ss ih => exact ih.schedule ss

theorem SameStock.enter (e : Engine) (origin : DefOrigin) (entry : Entry) :
    e.SameStock (e.enter origin entry) :=
  (edits_enter e origin entry).sameStock

theorem SameStock.unregister (e : Engine) (origin : DefOrigin) (reg : Registration) :
    e.SameStock (e.unregister origin reg) :=
  (edits_unregister e origin reg).sameStock

theorem SameStock.rekey (e : Engine) (old new : DefOrigin) (reg : Registration) :
    e.SameStock (e.rekey old new reg) := by
  cases reg <;> exact ⟨rfl, rfl, rfl, rfl⟩

section Life

variable {s : SiteId} {x : Site} {f : Site → Site}

def Dwindles (e e' : Engine) : Prop := ∀ s, e'.isLive s = true → e.isLive s = true

theorem Dwindles.refl (e : Engine) : e.Dwindles e := fun _ => id

theorem Dwindles.trans (h : e.Dwindles e') (h' : e'.Dwindles e'') : e.Dwindles e'' :=
  fun s hs => h s (h' s hs)

theorem Dwindles.of_sites (h : e'.sites = e.sites) : e.Dwindles e' := fun s hs => by
  unfold isLive site? at hs ⊢
  rwa [h] at hs

theorem Dwindles.dead (h : e.Dwindles e') (hs : e.isLive s = false) :
    e'.isLive s = false :=
  Bool.eq_false_iff.2 fun hlive => Bool.false_ne_true (hs.symm.trans (h s hlive))

theorem lt_size_of_isLive (h : e.isLive s = true) : s.index < e.sites.size := by
  unfold isLive at h
  cases hx : e.site? s with
  | none => simp [hx] at h
  | some x => exact Slots.lt_size_of_get? hx

def population (e : Engine) : Nat :=
  ((Finset.range e.sites.size).filter fun i => e.isLive ⟨i⟩ = true).card

theorem population_le_size (e : Engine) : e.population ≤ e.sites.size :=
  (Finset.card_filter_le _ _).trans_eq (Finset.card_range _)

theorem Dwindles.population_le (h : e.Dwindles e') : e'.population ≤ e.population := by
  refine Finset.card_le_card fun i hi => ?_
  have hlive := h ⟨i⟩ (Finset.mem_filter.1 hi).2
  exact Finset.mem_filter.2 ⟨Finset.mem_range.2 (lt_size_of_isLive hlive), hlive⟩

theorem Dwindles.population_lt (h : e.Dwindles e') (hs : e.isLive s = true)
    (hs' : e'.isLive s = false) : e'.population < e.population := by
  refine Finset.card_lt_card (Finset.ssubset_iff_of_subset (fun i hi => ?_) |>.2 ⟨s.index, ?_, ?_⟩)
  · have hlive := h ⟨i⟩ (Finset.mem_filter.1 hi).2
    exact Finset.mem_filter.2 ⟨Finset.mem_range.2 (lt_size_of_isLive hlive), hlive⟩
  · exact Finset.mem_filter.2 ⟨Finset.mem_range.2 (lt_size_of_isLive hs), hs⟩
  · exact fun hmem => Bool.false_ne_true (hs'.symm.trans (Finset.mem_filter.1 hmem).2)

theorem isLive_destroying (hx : e.site? s = some x) (u : SiteId) :
    (e.destroying s x).engine.isLive u = if s = u then false else e.isLive u := by
  unfold isLive site?
  rw [sites_destroying]
  show ((e.modifySite s _).site? u).any _ = _
  rw [site?_modifySite]
  split
  · next h =>
    rw [← h, hx]
    rfl
  · rfl

theorem Dwindles.destroying (hx : e.site? s = some x) :
    e.Dwindles (e.destroying s x).engine := fun u hu => by
  rw [isLive_destroying hx] at hu
  split at hu
  · cases hu
  · exact hu

theorem isLive_modifySite (s : SiteId) (hf : ∀ x, (f x).destroyed = x.destroyed)
    (u : SiteId) : (e.modifySite s f).isLive u = e.isLive u := by
  unfold isLive
  rw [site?_modifySite]
  split
  · cases e.site? u with
    | none => rfl
    | some x => simp [hf]
  · rfl

structure Wanes (e e' : Engine) : Prop where
  size : e.sites.size ≤ e'.sites.size
  free : ∀ i ∈ e'.sites.free, i ∈ e.sites.free
  lives : e.Dwindles e'

theorem Wanes.of_sites (h : e'.sites = e.sites) : e.Wanes e' :=
  ⟨Nat.le_of_eq (congrArg Slots.size h).symm, fun _ hi => h ▸ hi, .of_sites h⟩

theorem Wanes.modifySite (e : Engine) (s : SiteId)
    (hf : ∀ x, (f x).destroyed = x.destroyed) : e.Wanes (e.modifySite s f) := by
  refine ⟨Nat.le_of_eq (Slots.size_modify _ _ _).symm, fun _ hi => hi, fun u hu => ?_⟩
  rwa [isLive_modifySite s hf] at hu

theorem Wanes.destroying (hx : e.site? s = some x) :
    e.Wanes (e.destroying s x).engine := by
  refine ⟨?_, fun i hi => ?_, .destroying hx⟩
  · rw [sites_destroying]
    exact Nat.le_of_eq (Slots.size_modify _ _ _).symm
  · rwa [sites_destroying] at hi

end Life

section Records

variable {n m : NodeId}
variable {fs : List Frame} {hand : List VertexId}

theorem record?_modifyNode {f : NodeRecord → NodeRecord} :
    (e.modifyNode n f).record? m = if n = m then (e.record? m).map f else e.record? m :=
  OrderedMap.get?_modify e.nodes n m f

theorem record?_insert {x : NodeRecord} :
    ({ e with nodes := e.nodes.insert n x } : Engine).record? m =
      if n = m then some x else e.record? m :=
  OrderedMap.get?_insert e.nodes n m x

theorem record?_erase :
    ({ e with nodes := e.nodes.erase n } : Engine).record? m =
      if n = m then none else e.record? m :=
  OrderedMap.get?_erase e.nodes n m

theorem nodes_reclaim (e : Engine) : e.reclaim.2.nodes = e.nodes := by
  unfold Engine.reclaim
  split <;> rfl

theorem site?_reclaim (e : Engine) (s : SiteId) : e.reclaim.2.site? s = e.site? s := by
  unfold Engine.reclaim
  split
  · exact Slots.get?_sweep e.sites Site.destroyed s.index
  · rfl

theorem nodes_destroying (e : Engine) (s : SiteId) (x : Site) : (e.destroying s x).engine.nodes =
    e.nodes.modify x.node fun r => { r with sites := r.sites.erase s } :=
  (SameStock.unpost s (e.markDestroyed s x) x.rule).nodes

theorem record?_destroying (s : SiteId) (x : Site) : (e.destroying s x).engine.record? m =
    if x.node = m then (e.record? m).map fun r => { r with sites := r.sites.erase s }
    else e.record? m := by
  unfold record?
  rw [nodes_destroying]
  exact record?_modifyNode (e := e)

theorem nodes_placeSite (e : Engine) (node : NodeId) (rule : Rule) :
    (e.placeSite node rule).2.nodes = e.nodes.modify node fun r =>
      { r with sites := r.sites.insert (e.placeSite node rule).1 } :=
  ((SameStock.post _ _ rule).schedule [_]).nodes

theorem record?_placeSite (node : NodeId) (rule : Rule) : (e.placeSite node rule).2.record? m =
    if node = m then (e.record? m).map fun r =>
      { r with sites := r.sites.insert (e.placeSite node rule).1 }
    else e.record? m := by
  unfold record?
  rw [nodes_placeSite]
  exact record?_modifyNode (e := e)

theorem sites_placeSite (e : Engine) (node : NodeId) (rule : Rule) :
    (e.placeSite node rule).2.sites = (e.sites.alloc { node, rule }).2 :=
  ((SameStock.post _ _ rule).schedule [_]).sites

theorem site?_placeSite
    (h : (Machine.mk e fs hand).Orderly) (node : NodeId) (rule : Rule) (u : SiteId) :
    (e.placeSite node rule).2.site? u =
      if (e.placeSite node rule).1 = u then some { node, rule } else e.site? u := by
  obtain ⟨-, -, hsite⟩ := h.alloc_spec { node, rule }
  unfold site?
  rw [sites_placeSite]
  exact hsite u

theorem isLive_placeSite
    (h : (Machine.mk e fs hand).Orderly) (node : NodeId) (rule : Rule) (u : SiteId) :
    (e.placeSite node rule).2.isLive u = if (e.placeSite node rule).1 = u then true else e.isLive
      u := by
  unfold isLive
  rw [site?_placeSite h]
  split <;> rfl

end Records

end Engine

structure NodeRecord.Inherits (r r' : NodeRecord) : Prop where
  vertices : r'.vertices = r.vertices
  effects : r'.effects = r.effects
  sites : r'.sites = r.sites
  registrations : r'.registrations = r.registrations
  block : r'.block = r.block

def Site.relabel (new : NodeId) (rename : NodeId → NodeId) (x : Site) : Site :=
  { x with node := new, effects := x.effects.renameNodes rename }

namespace Engine

variable {e : Engine} {record : NodeRecord} {old new : NodeId} {rename : NodeId → NodeId}

theorem site?_foldl_modifySite (f : Site → Site) (ss : List SiteId) (e : Engine) (t : SiteId) :
    (ss.foldl (fun e s => e.modifySite s f) e).site? t = (e.site? t).map f^[ss.count t] := by
  induction ss generalizing e with
  | nil => simp
  | cons s ss ih =>
    rw [List.foldl_cons, ih, site?_modifySite, List.count_cons]
    by_cases h : s = t
    · simp [h, Function.iterate_succ, Function.comp_def]
    · simp [h]

theorem foldl_modifySite_eq (f : Site → Site) (ss : List SiteId) (e : Engine) :
    ∃ slots, ss.foldl (fun e s => e.modifySite s f) e =
      { e with sites := { e.sites with slots } } := by
  induction ss generalizing e with
  | nil => exact ⟨e.sites.slots, rfl⟩
  | cons s ss ih =>
    obtain ⟨slots, h⟩ := ih (e.modifySite s f)
    exact ⟨slots, h⟩

theorem stock_renameOwned (e : Engine) (record : NodeRecord) (old new : NodeId)
    (rename : NodeId → NodeId) :
    (record.block.elim (record.sites.toList.foldl (fun e s =>
        e.modifySite s (Site.relabel new rename)) e)
      fun b => (record.sites.toList.foldl (fun e s =>
        e.modifySite s (Site.relabel new rename)) e).modifyBlock b fun x => { x with node := new })
      |>.SameStock (e.renameOwned record old new rename) := by
  have hrekeyed (e' : Engine) : e'.SameStock (record.registrations.foldl
      (fun e r => e.rekey (.node old) (.node new) r) e') :=
    SameStock.foldl (f := fun e r => e.rekey (.node old) (.node new) r)
      (fun e r => .rekey e _ _ r) record.registrations e'
  unfold renameOwned
  refine SameStock.trans ?_ (hrekeyed _)
  cases record.block <;> exact ⟨rfl, rfl, rfl, rfl⟩

theorem site?_renameOwned (e : Engine) (t : SiteId) :
    (e.renameOwned record old new rename).site? t =
      (e.site? t).map (Site.relabel new rename)^[record.sites.toList.count t] := by
  rw [← site?_foldl_modifySite]
  have h := (stock_renameOwned e record old new rename).sites
  unfold site?
  rw [h]
  cases record.block <;> rfl

theorem nodes_renameOwned (e : Engine) :
    (e.renameOwned record old new rename).nodes = e.nodes := by
  rw [(stock_renameOwned e record old new rename).nodes]
  obtain ⟨slots, h⟩ := foldl_modifySite_eq (Site.relabel new rename) record.sites.toList e
  rw [h]
  cases record.block <;> rfl

theorem blocks_renameOwned (e : Engine) :
    (e.renameOwned record old new rename).blocks = record.block.elim e.blocks fun b =>
      e.blocks.modify b.index (·.map fun x => { x with node := new }) := by
  rw [(stock_renameOwned e record old new rename).blocks]
  obtain ⟨slots, h⟩ := foldl_modifySite_eq (Site.relabel new rename) record.sites.toList e
  rw [h]
  cases record.block <;> rfl

theorem relabel_iterate (x : Site) (k : Nat) :
    ((Site.relabel new rename)^[k] x).node = (if k = 0 then x.node else new) ∧
      ((Site.relabel new rename)^[k] x).destroyed = x.destroyed := by
  induction k with
  | zero => exact ⟨rfl, rfl⟩
  | succ k ih =>
    rw [Function.iterate_succ_apply']
    exact ⟨rfl, ih.2⟩

theorem relabel_iterate_effects (x : Site) (k : Nat) : ∃ diagnostics,
    ((Site.relabel new rename)^[k] x).effects =
      { x.effects with installed := { x.effects.installed with diagnostics } } := by
  induction k with
  | zero => exact ⟨x.effects.installed.diagnostics, rfl⟩
  | succ k ih =>
    obtain ⟨diagnostics, ih⟩ := ih
    rw [Function.iterate_succ_apply']
    refine ⟨diagnostics.map fun d => { d with node := rename d.node }, ?_⟩
    show ((Site.relabel new rename)^[k] x).effects.renameNodes rename = _
    rw [ih]
    rfl

theorem adoptNode_none (hr : e.record? old = none) (path : String) (rename : NodeId → NodeId)
    (new : Node) : e.adoptNode path rename new old = e := by
  unfold Engine.adoptNode
  rw [hr]

theorem adoptNode_eq (hr : e.record? old = some record) (path : String)
    (rename : NodeId → NodeId) (new : Node) : ∃ record', record.Inherits record' ∧
      e.adoptNode path rename new old =
        { ({ e with nodes := e.nodes.erase old } : Engine).renameOwned record old new.id rename with
          nodes := (e.nodes.erase old).insert new.id record' } := by
  refine ⟨{ record with
    path
    span := new.span
    nameSpan := new.nameSpan
    returns := record.returns.map rename }, ⟨rfl, rfl, rfl, rfl, rfl⟩, ?_⟩
  unfold Engine.adoptNode
  rw [hr]
  dsimp only
  rw [nodes_renameOwned]
  rfl

theorem record?_adoptNode (hr : e.record? old = some record) (path : String)
    (rename : NodeId → NodeId) (new : Node) : ∃ record', record.Inherits record' ∧ ∀ m,
      (e.adoptNode path rename new old).record? m =
        if new.id = m then some record' else if old = m then none else e.record? m := by
  obtain ⟨record', hinherits, he⟩ := adoptNode_eq hr path rename new
  refine ⟨record', hinherits, fun m => ?_⟩
  rw [he]
  show ((e.nodes.erase old).insert new.id record').get? m = _
  rw [OrderedMap.get?_insert, OrderedMap.get?_erase]
  rfl

theorem site?_adoptNode (hr : e.record? old = some record) (path : String)
    (rename : NodeId → NodeId) (new : Node) (t : SiteId) :
    (e.adoptNode path rename new old).site? t =
      (e.site? t).map (Site.relabel new.id rename)^[record.sites.toList.count t] := by
  obtain ⟨record', -, he⟩ := adoptNode_eq hr path rename new
  rw [he]
  exact site?_renameOwned _ t

theorem Wanes.adoptNode (hr : e.record? old = some record) (path : String)
    (rename : NodeId → NodeId) (new : Node) : e.Wanes (e.adoptNode path rename new old) := by
  have hlife : ∀ u, (e.adoptNode path rename new old).isLive u = e.isLive u := fun u => by
    unfold isLive
    rw [site?_adoptNode hr]
    cases e.site? u with
    | none => rfl
    | some x => simp [(relabel_iterate x _).2]
  refine ⟨Nat.le_of_not_lt fun hlt => ?_, fun i hi => ?_, fun u hu => (hlife u).symm.trans hu⟩
  · obtain ⟨x, hx⟩ : ∃ x, e.site? ⟨(e.adoptNode path rename new old).sites.size⟩ = some x :=
      Slots.exists_get?_of_lt hlt
    have hsite := site?_adoptNode hr path rename new ⟨(e.adoptNode path rename new old).sites.size⟩
    rw [hx] at hsite
    exact Nat.lt_irrefl _ (Slots.lt_size_of_get? hsite)
  · obtain ⟨record', -, he⟩ := adoptNode_eq hr path rename new
    rw [he] at hi
    change i ∈ (renameOwned _ record old new.id rename).sites.free at hi
    rw [(stock_renameOwned _ record old new.id rename).sites] at hi
    obtain ⟨slots, h⟩ := foldl_modifySite_eq (Site.relabel new.id rename) record.sites.toList
      { e with nodes := e.nodes.erase old }
    rw [h] at hi
    cases hb : record.block <;> rw [hb] at hi <;> exact hi

theorem blocks_adoptNode (hr : e.record? old = some record) (path : String)
    (rename : NodeId → NodeId) (new : Node) :
    (e.adoptNode path rename new old).blocks = record.block.elim e.blocks fun b =>
      e.blocks.modify b.index (·.map fun x => { x with node := new.id }) := by
  obtain ⟨record', -, he⟩ := adoptNode_eq hr path rename new
  rw [he]
  exact blocks_renameOwned _

theorem block?_adoptNode (hr : e.record? old = some record) (path : String)
    (rename : NodeId → NodeId) (new : Node) (b : BlockId) :
    (e.adoptNode path rename new old).block? b = if record.block = some b then
      (e.block? b).map fun x => { x with node := new.id } else e.block? b := by
  have hb := blocks_adoptNode hr path rename new
  unfold block?
  rw [hb]
  cases record.block with
  | none => rfl
  | some b0 =>
    show ((e.blocks.modify b0.index _).get? b.index).join = _
    rw [Slots.get?_modify]
    have hiff : b0.index = b.index ↔ some b0 = some b := by
      cases b0
      cases b
      simp
    simp only [hiff]
    split
    · rcases e.blocks.get? b.index with _ | _ | x <;> rfl
    · rfl

end Engine

end TypeFlow
