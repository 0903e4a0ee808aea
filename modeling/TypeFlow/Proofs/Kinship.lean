import TypeFlow.Proofs.Places
import TypeFlow.Proofs.Reruns
import TypeFlow.Proofs.Retention
import TypeFlow.Proofs.Revisions

/-!
# Kin and posts

Along all moves the relations between modules stay those that they declare, and a live site is
posted exactly where its rule says.
-/

set_option autoImplicit false

namespace TypeFlow

open State Machine

namespace World

variable {w w' : World}

theorem Related.congr (h : w.Related) (hc : w'.Closed) (hfinds : w.Finds w')
    (hdecls : ∀ m, (w'.get m).decls.values = (w.get m).decls.values)
    (hlineage : ∀ m, (w'.get m).lineage = (w.get m).lineage)
    (hsubclasses : ∀ m, (w'.get m).subclasses = (w.get m).subclasses) : w'.Related where
  closed := hc
  inverse c p := by
    rw [Module.superclass, hsubclasses, hlineage]
    exact h.inverse c p
  derives m := (h.derives m).congr hfinds (hdecls m) (hlineage m)

theorem Related.agrees (h : w.Related) (ha : Agrees w w') : w'.Related :=
  h.congr (ha.closed h.closed) (finds_of_path ha.size ha.path)
    (fun m => congrArg OrderedMap.values (ha.akin m).decls) (fun m => (ha.akin m).lineage)
    fun m => (ha.akin m).subclasses

theorem Related.modify (h : w.Related) {m : ModuleId} {f : Module → Module}
    (hc : (w.modify m f).Closed) (hpath : ∀ x, (f x).path = x.path)
    (hdecls : ∀ x, (f x).decls.values = x.decls.values)
    (hlineage : ∀ x, (f x).lineage = x.lineage)
    (hsubclasses : ∀ x, (f x).subclasses = x.subclasses) : (w.modify m f).Related := by
  have hget : ∀ {α : Type} (g : Module → α), (∀ x, g (f x) = g x) →
      ∀ u, g ((w.modify m f).get u) = g (w.get u) := fun g hg u => by
    rw [get_modify]
    split
    · exact hg _
    · rfl
  refine h.congr hc (fun path u hu => ?_) (hget (·.decls.values) hdecls) (hget (·.lineage) hlineage)
    (hget (·.subclasses) hsubclasses)
  rw [find?_modify w m hpath]
  exact hu

end World

namespace Engine

open World

variable {e : Engine}

theorem related_enter (h : e.world.Related) (origin : DefOrigin) (entry : Entry)
    (hc : (e.enter origin entry).world.Closed) : (e.enter origin entry).world.Related := by
  cases entry with
  | module m decl =>
    show (e.addModuleDecl m origin decl).world.Related
    rw [world_addModuleDecl]
    exact h.redeclare m (·.insert origin decl)
  | inclusion m target args =>
    change (Engine.scheduleDependents _ m).world.Closed at hc
    show (Engine.scheduleDependents _ m).world.Related
    rw [Engine.scheduleDependents, world_scheduleAll] at hc ⊢
    exact h.modify hc (fun _ => rfl) (fun _ => rfl) (fun _ => rfl) fun _ => rfl
  | const key =>
    change (e.addConstDef key origin).2.world.Closed at hc
    show (e.addConstDef key origin).2.world.Related
    rw [world_addConstDef] at hc ⊢
    exact (h.agrees (e.stays_ensureConst key).agrees).modify hc (fun _ => rfl) (fun _ => rfl)
      (fun _ => rfl) fun _ => rfl
  | ivar key =>
    change (e.addIvarDef key origin).2.world.Closed at hc
    show (e.addIvarDef key origin).2.world.Related
    rw [world_addIvarDef] at hc ⊢
    exact (h.agrees (e.stays_ensureIvar key).agrees).modify hc (fun _ => rfl) (fun _ => rfl)
      (fun _ => rfl) fun _ => rfl
  | «alias» key target =>
    change (Engine.scheduleCallsites _ key).world.Closed at hc
    show (Engine.scheduleCallsites _ key).world.Related
    rw [Engine.scheduleCallsites, world_scheduleAll] at hc ⊢
    exact h.modify hc (fun _ => rfl) (fun _ => rfl) (fun _ => rfl) fun _ => rfl

theorem related_unregister (h : e.world.Related) (origin : DefOrigin) (r : Registration)
    (hc : (e.unregister origin r).world.Closed) : (e.unregister origin r).world.Related := by
  cases r with
  | module m =>
    show (e.removeModuleDecl m origin).world.Related
    rw [world_removeModuleDecl]
    exact h.redeclare m (·.erase origin)
  | inclusion m target =>
    change (e.removeInclude m origin target).world.Closed at hc
    show (e.removeInclude m origin target).world.Related
    unfold Engine.removeInclude at hc ⊢
    split at hc
    · next hin =>
      rw [Engine.scheduleDependents, world_scheduleAll] at hc
      rw [if_pos hin, Engine.scheduleDependents, world_scheduleAll]
      exact h.modify hc (fun _ => rfl) (fun _ => rfl) (fun _ => rfl) fun _ => rfl
    · next hin =>
      rw [if_neg hin]
      exact h
  | const key =>
    change (e.removeConstDef key origin).world.Closed at hc
    show (e.removeConstDef key origin).world.Related
    rw [world_removeConstDef] at hc ⊢
    exact (h.agrees (e.stays_ensureConst key).agrees).modify hc (fun _ => rfl) (fun _ => rfl)
      (fun _ => rfl) fun _ => rfl
  | ivar key =>
    change (e.removeIvarDef key origin).world.Closed at hc
    show (e.removeIvarDef key origin).world.Related
    rw [world_removeIvarDef] at hc ⊢
    exact (h.agrees (e.stays_ensureIvar key).agrees).modify hc (fun _ => rfl) (fun _ => rfl)
      (fun _ => rfl) fun _ => rfl
  | «alias» key =>
    change (Engine.scheduleCallsites _ key).world.Closed at hc
    show (Engine.scheduleCallsites _ key).world.Related
    rw [Engine.scheduleCallsites, world_scheduleAll] at hc ⊢
    exact h.modify hc (fun _ => rfl) (fun _ => rfl) (fun _ => rfl) fun _ => rfl

theorem related_rekey (h : e.world.Related) (old new : DefOrigin) (r : Registration) :
    (e.rekey old new r).world.Related := by
  have hc := (Aside.rekey e old new r).world.closed h.closed
  cases r with
  | module m =>
    refine h.modify hc (fun _ => rfl) (fun x => ?_) (fun _ => rfl) fun _ => rfl
    simp only [OrderedMap.values, OrderedMap.rekey, List.map_map]
    refine List.map_congr_left fun y _ => ?_
    by_cases hy : y.1 = old <;> simp [hy]
  | inclusion | const | ivar | «alias» =>
    exact h.modify hc (fun _ => rfl) (fun _ => rfl) (fun _ => rfl) fun _ => rfl

theorem exists_world_adoptNode {old : NodeId} {record : NodeRecord}
    (hr : e.record? old = some record) (path : String) (rename : NodeId → NodeId) (new : Node) :
    ∃ e0 : Engine, e0.world = e.world ∧ (e.adoptNode path rename new old).world =
      (record.registrations.foldl (fun e r => e.rekey (.node old) (.node new.id) r) e0).world := by
  obtain ⟨record', -, he⟩ := adoptNode_eq hr path rename new
  obtain ⟨slots, hsites⟩ := foldl_modifySite_eq (Site.relabel new.id rename) record.sites.toList
    ({ e with nodes := e.nodes.erase old } : Engine)
  have hworld := congrArg Engine.world hsites
  rw [he]
  refine ⟨_, ?_, rfl⟩
  cases record.block <;> exact hworld

theorem world_adoptNode {P : World → Prop} (h : P e.world) (path : String)
    (rename : NodeId → NodeId) (new : Node) (old : NodeId)
    (hstep : ∀ (e : Engine) r, P e.world → P (e.rekey (.node old) (.node new.id) r).world) :
    P (e.adoptNode path rename new old).world := by
  have hfold : ∀ (regs : List Registration) (e : Engine), P e.world →
      P (regs.foldl (fun e r => e.rekey (.node old) (.node new.id) r) e).world := by
    intro regs
    induction regs with
    | nil => exact fun e he => he
    | cons r regs ih => exact fun e he => ih _ (hstep e r he)
  cases hr : e.record? old with
  | none =>
    unfold adoptNode
    rwa [hr]
  | some record =>
    obtain ⟨e0, he0, hworld⟩ := exists_world_adoptNode hr path rename new
    rw [hworld]
    exact hfold _ e0 (he0 ▸ h)

theorem Upholds.post (e : Engine) (s : SiteId) (rule : Rule) : e.Upholds (e.post s rule) := by
  cases rule with
  | methodDecl r => exact .changeDecls e r.key (·.insert s)
  | methodDef r => exact .changeDefs e r.key (·.insert s)
  | ivarRead r => exact .changeIvarReads e r.key.side.module (·.insert s)
  | _ => exact .refl e

theorem Upholds.placeSite (e : Engine) (node : NodeId) (rule : Rule) :
    e.Upholds (e.placeSite node rule).2 := by
  have henter : e.Upholds (e.enterSite node rule).2 := Recedes.enterSite e node rule
  have hposted := henter.trans (.post _ (e.enterSite node rule).1 rule)
  exact hposted.trans (.scheduleAll _ [(e.enterSite node rule).1])

theorem Upholds.destroying (e : Engine) (s : SiteId) (x : Site) :
    e.Upholds (e.destroying s x).engine := by
  have hmark : e.Upholds (e.markDestroyed s x) :=
    .of_eq rfl rfl (Upholds.shared_modifyListeners e.graph x.rule.inputs (·.erase s))
  exact (hmark.trans (Rule.related_unregister s _ x.rule)).trans (.of_eq rfl rfl rfl)

theorem Upholds.reclaim (e : Engine) : e.Upholds e.reclaim.2 := by
  unfold Engine.reclaim
  split <;> exact .of_eq rfl rfl rfl

end Engine

namespace State

open Engine

variable {s s' : State}

inductive Amends (s : State) : Engine → List Event → Prop where
  | upholds {e' : Engine} {log : List Event} (h : s.engine.Upholds e')
    (hlog : log = s.progress.log ∨
      ∃ ev, log = s.progress.log ++ [ev] ∧ ∀ new old, ev ≠ .adopt new old) : Amends s e' log
  | define {n : NodeId} (hn : s.progress.Opens n) (entry : Entry) :
    Amends s (s.engine.define n entry) s.progress.log
  | unregister {n : NodeId} {record : NodeRecord} (hl : s.progress.lifted = some (n, record))
    (r : Registration) : Amends s (s.engine.unregister (.node n) r) s.progress.log
  | adopt (hl : s.progress.lifted = none) (path : String) (rename : NodeId → NodeId) (new : Node)
    (old : NodeId) :
    Amends s (s.engine.adoptNode path rename new old) (s.progress.log ++ [.adopt new.id old])

theorem Move.amends (hm : Move s s') : s.Amends s'.engine s'.progress.log := by
  cases hm with
  | aside h =>
    exact .upholds ⟨h.entries.agrees, h.globals, fun types v hv => by rw [h.graph]; exact hv⟩
      (.inl rfl)
  | source h => exact .upholds (.source _ _) (.inl rfl)
  | sweep ho => exact .upholds (.reclaim _) (.inr ⟨_, rfl, fun _ _ => Event.noConfusion⟩)
  | define hn h => exact .define hn _
  | unregister hl hr => exact .unregister hl _
  | adopt path rename new old h => exact .adopt h path rename new old
  | @removeBlock e d n r hl =>
    refine .upholds ?_ (.inl rfl)
    rw [(exists_removeBlock_eq e r.block).choose_spec]
    exact .of_eq rfl rfl rfl
  | buryLifted | bury => exact .upholds (Recedes.destroyVertex _ _) (.inl rfl)
  | beginDestroy hx hlive hs => exact .upholds (.destroying _ _ _) (.inl rfl)
  | placeSite ha h => exact .upholds (.placeSite _ _ _) (.inl rfl)
  | installEdges => exact .upholds (Run.related_installEdges (r := Run.mk _ _)
      fun x _ e => Endures.addEdge e x.1 x.2) (.inl rfl)
  | note | forget => exact .upholds (Recedes.watch _ _ _) (.inl rfl)
  | start | lift | miss | breakRun | refuse =>
    exact .upholds (.of_eq rfl rfl rfl) (.inr ⟨_, rfl, fun _ _ => Event.noConfusion⟩)
  | _ => exact .upholds (.of_eq rfl rfl rfl) (.inl rfl)

theorem related_move (h : s.engine.world.Related) (hs : s.Sound) (hm : Move s s') :
    s'.engine.world.Related := by
  have hc : s'.engine.world.Closed := (hs.move hm).machine.grounded.closed
  have ha := hm.amends
  generalize s'.engine = e', s'.progress.log = log at ha hc ⊢
  cases ha with
  | upholds hup => exact h.agrees hup.world
  | @define n _ entry => exact related_enter h (.node n) entry hc
  | @unregister n _ _ r => exact related_unregister h (.node n) r hc
  | adopt _ path rename new old =>
    exact world_adoptNode (P := World.Related) h path rename new old fun e r he => related_rekey he
      _ _ r

end State

namespace Module

variable (x : Module)

theorem getD_upsert_methods {f : OrderedSet SiteId → OrderedSet SiteId}
    {g : MethodEntity → OrderedSet SiteId} {h : MethodEntity → MethodEntity}
    (hg : ∀ m, g (h m) = f (g m)) (hempty : g {} = {}) (b b' : Bool) (name name' : String) :
    ((((x.methods.modify b fun t => t.upsert name {} h).get b').get? name').map
        fun m => (g m).toList).getD [] =
      if b = b' ∧ name = name' then
        (f ⟨(((x.methods.get b').get? name').map fun m => (g m).toList).getD []⟩).toList
      else (((x.methods.get b').get? name').map fun m => (g m).toList).getD [] := by
  rw [Sided.get_modify]
  by_cases hb : b = b'
  · by_cases hn : name = name'
    · subst hn
      rw [if_pos hb, OrderedMap.get?_upsert, if_pos rfl, if_pos ⟨hb, rfl⟩]
      cases (x.methods.get b').get? name with
      | none => simp [hg, hempty]
      | some m => simp [hg]
    · rw [if_pos hb, OrderedMap.get?_upsert, if_neg hn, if_neg fun h => hn h.2]
  · rw [if_neg hb, if_neg fun h => hb h.1]

def repost (f : OrderedSet SiteId → OrderedSet SiteId) : Posting → Module
  | .signature key =>
    let change (m : MethodEntity) : MethodEntity := { m with decls := f m.decls }
    { x with methods := x.methods.modify key.side.singleton (·.upsert key.name {} change) }
  | .body key =>
    let change (m : MethodEntity) : MethodEntity := { m with defs := f m.defs }
    { x with methods := x.methods.modify key.side.singleton (·.upsert key.name {} change) }
  | .reader _ => { x with ivarReads := f x.ivarReads }

theorem posts_repost (f : OrderedSet SiteId → OrderedSet SiteId) {p q : Posting}
    (hm : p.module = q.module) : (x.repost f p).posts q =
      if p = q then (f ⟨x.posts q⟩).toList else x.posts q := by
  have hkey : ∀ {key key' : MemberKey}, key.side.module = key'.side.module →
      (key = key' ↔ key.side.singleton = key'.side.singleton ∧ key.name = key'.name) := by
    rintro ⟨⟨m, b⟩, name⟩ ⟨⟨m', b'⟩, name'⟩ rfl
    simp
  cases p with
  | signature key =>
    let change (m : MethodEntity) : MethodEntity := { m with decls := f m.decls }
    cases q with
    | signature key' =>
      simp only [Posting.signature.injEq, hkey hm]
      exact x.getD_upsert_methods (g := MethodEntity.decls) (h := change) (fun _ => rfl) rfl ..
    | body key' =>
      rw [if_neg (by simp)]
      exact x.getD_map_methods (g := fun m => m.defs.toList) (f := change) (fun _ => rfl) rfl ..
    | reader =>
      rw [if_neg (by simp)]
      rfl
  | body key =>
    let change (m : MethodEntity) : MethodEntity := { m with defs := f m.defs }
    cases q with
    | signature key' =>
      rw [if_neg (by simp)]
      exact x.getD_map_methods (g := fun m => m.decls.toList) (f := change) (fun _ => rfl) rfl ..
    | body key' =>
      simp only [Posting.body.injEq, hkey hm]
      exact x.getD_upsert_methods (g := MethodEntity.defs) (h := change) (fun _ => rfl) rfl ..
    | reader =>
      rw [if_neg (by simp)]
      rfl
  | reader m =>
    cases q with
    | signature | body =>
      rw [if_neg (by simp)]
      rfl
    | reader m' =>
      obtain rfl : m = m' := hm
      rw [if_pos rfl]
      rfl

end Module

namespace World

def repost (w : World) (f : OrderedSet SiteId → OrderedSet SiteId) (p : Posting) : World :=
  w.modify p.module (·.repost f p)

theorem posts_repost (w : World) (f : OrderedSet SiteId → OrderedSet SiteId) (p q : Posting) :
    (w.repost f p).posts q =
      if p = q ∧ w.Knows p.module then (f ⟨w.posts q⟩).toList else w.posts q := by
  unfold posts repost
  rw [get_modify]
  by_cases hm : p.module = q.module ∧ w.Knows q.module
  · rw [if_pos hm, Module.posts_repost _ f hm.1]
    by_cases hp : p = q
    · rw [if_pos hp, if_pos ⟨hp, hm.1 ▸ hm.2⟩]
    · rw [if_neg hp, if_neg fun h => hp h.1]
  · rw [if_neg hm, if_neg]
    rintro ⟨rfl, hk⟩
    exact hm ⟨rfl, hk⟩

theorem knows_of_mem_posts {w : World} {p : Posting} {u : SiteId} (h : u ∈ w.posts p) :
    w.Knows p.module := by
  by_contra hk
  rw [posts, get_of_not_knows hk] at h
  cases p <;> simp [Module.posts, Sided.get] at h

end World

namespace Engine

theorem world_changeDecls (e : Engine) (key : MemberKey) (f : OrderedSet SiteId →
    OrderedSet SiteId) :
    (e.changeDecls key f).world = e.world.repost f (.signature key) := by
  unfold changeDecls scheduleDefs scheduleCallsites
  simp only [world_scheduleAll]
  rfl

theorem world_changeDefs (e : Engine) (key : MemberKey) (f : OrderedSet SiteId →
    OrderedSet SiteId) :
    (e.changeDefs key f).world = e.world.repost f (.body key) := by
  unfold changeDefs scheduleCallsites
  dsimp only
  split
  · rw [world_scheduleAll]
    rfl
  · rfl

theorem world_post (e : Engine) (s : SiteId) (rule : Rule) : (e.post s rule).world =
    rule.posting?.elim e.world (e.world.repost (·.insert s)) := by
  cases rule with
  | methodDecl r => exact e.world_changeDecls r.key (·.insert s)
  | methodDef r => exact e.world_changeDefs r.key (·.insert s)
  | _ => rfl

theorem world_unpost (e : Engine) (s : SiteId) (rule : Rule) : (rule.unregister s e).world =
    rule.posting?.elim e.world (e.world.repost (·.erase s)) := by
  cases rule with
  | methodDecl r => exact e.world_changeDecls r.key (·.erase s)
  | methodDef r => exact e.world_changeDefs r.key (·.erase s)
  | _ => rfl

theorem mem_posts_post (e : Engine) (s : SiteId) (rule : Rule) (p : Posting) (u : SiteId) :
    u ∈ (e.post s rule).world.posts p ↔
      u ∈ e.world.posts p ∨ u = s ∧ rule.posting? = some p ∧ e.world.Knows p.module := by
  rw [world_post]
  cases hp : rule.posting? with
  | none => simp
  | some q =>
    rw [Option.elim_some, World.posts_repost]
    split
    · next h => simp [OrderedSet.mem_insert, h.1, h.1 ▸ h.2]
    · next h =>
      refine (or_iff_left ?_).symm
      rintro ⟨-, hq, hk⟩
      cases hq
      exact h ⟨rfl, hk⟩

theorem mem_posts_unpost (e : Engine) (s : SiteId) (rule : Rule) (p : Posting) (u : SiteId) :
    u ∈ (rule.unregister s e).world.posts p ↔
      u ∈ e.world.posts p ∧ ¬(u = s ∧ rule.posting? = some p) := by
  rw [world_unpost]
  cases hp : rule.posting? with
  | none => simp
  | some q =>
    rw [Option.elim_some, World.posts_repost]
    split
    · next h => simp [OrderedSet.mem_erase, h.1]
    · next h =>
      refine (and_iff_left_of_imp fun hu hq => h ?_).symm
      cases hq.2
      exact ⟨rfl, World.knows_of_mem_posts hu⟩

end Engine

namespace Graph

variable {g g' : Graph}

def Mutes (g g' : Graph) : Prop :=
  ∀ v, ∀ u ∈ (g'.get v).listeners.toList, u ∈ (g.get v).listeners.toList

theorem Mutes.of_eq (h : ∀ v, (g'.get v).listeners = (g.get v).listeners) : Mutes g g' :=
  fun v _ hu => h v ▸ hu

theorem Mutes.alloc {x : Vertex} (hx : x.listeners = {}) : Mutes g (g.alloc x).2 := by
  intro v u hu
  rcases Slots.get?_alloc_eq_or g.vertices x v.index with hnew | hold
  · have hget : (g.alloc x).2.get v = x := congrArg (Option.getD · Vertex.absent) hnew
    rw [hget, hx] at hu
    cases hu
  · have hget : (g.alloc x).2.get v = g.get v := congrArg (Option.getD · Vertex.absent) hold
    exact hget ▸ hu

theorem Mutes.source (g : Graph) (types : List Ty) : Mutes g (g.source types).2 := by
  cases hshared : g.shared.get? types with
  | some v =>
    rw [source_eq_of_some hshared]
    exact fun _ _ => id
  | none =>
    rw [source_eq_of_none hshared]
    exact Mutes.alloc (x := Vertex.ofTypes types none) rfl

theorem innate_listeners : Innate Vertex.listeners := fun _ _ _ _ _ => rfl

theorem Mutes.rewire (g : Graph) (new gone : List (VertexId × VertexId)) :
    Mutes g (g.rewire new gone) :=
  .of_eq (rewire_induct (P := fun g' => ∀ v, (g'.get v).listeners = (g.get v).listeners)
    (fun _ src dst h => (rewires_innate innate_listeners g).addEdge h src dst)
    (fun _ src dst h => (rewires_innate innate_listeners g).removeEdge h src dst) (fun _ => rfl)
    new gone)

section Listen

variable (s : SiteId) (vs : List VertexId) (g : Graph) {u : SiteId} {w : VertexId}

theorem mem_listeners_insert (h : u ∈ ((vs.foldl (fun g v => g.modify v fun x =>
    { x with listeners := x.listeners.insert s }) g).get w).listeners.toList) :
    u ∈ (g.get w).listeners.toList ∨ u = s ∧ w ∈ vs := by
  induction vs generalizing g with
  | nil => exact .inl h
  | cons v vs ih =>
    rcases ih _ h with h | ⟨hu, hw⟩
    · rw [get_modify] at h
      split at h
      · next hv =>
        exact (OrderedSet.mem_insert.1 h).imp id fun hu => ⟨hu, hv.1 ▸ List.mem_cons_self⟩
      · exact .inl h
    · exact .inr ⟨hu, List.mem_cons_of_mem _ hw⟩

theorem mem_listeners_erase (h : u ∈ ((vs.foldl (fun g v => g.modify v fun x =>
    { x with listeners := x.listeners.erase s }) g).get w).listeners.toList) :
    u ∈ (g.get w).listeners.toList ∧ ¬(u = s ∧ w ∈ vs) := by
  induction vs generalizing g with
  | nil => exact ⟨h, fun hw => List.not_mem_nil hw.2⟩
  | cons v vs ih =>
    obtain ⟨h, hnot⟩ := ih _ h
    rw [get_modify] at h
    split at h
    · obtain ⟨hu, hne⟩ := OrderedSet.mem_erase.1 h
      exact ⟨hu, fun hw => hne hw.1⟩
    · next hv =>
      refine ⟨h, fun hw => (List.mem_cons.1 hw.2).elim (fun heq => hv ⟨heq.symm, ?_⟩) fun hmem =>
        hnot ⟨hw.1, hmem⟩⟩
      by_contra hout
      rw [get_of_size_le (Nat.le_of_not_lt hout)] at h
      cases h

end Listen

end Graph

namespace Engine

theorem Edits.mutes {e e' : Engine} (h : e.Edits e') : e.graph.Mutes e'.graph := by
  induction h with
  | tell => exact fun _ _ => id
  | name label => exact Graph.Mutes.alloc rfl
  | schedule _ ss ih => rwa [graph_scheduleAll]

theorem mutes_adoptNode (path : String) (rename : NodeId → NodeId) (e : Engine) (new : Node)
    (old : NodeId) : e.graph.Mutes (e.adoptNode path rename new old).graph := by
  obtain ⟨vs, hvs⟩ := exists_graph_adoptNode path rename e new old
  rw [hvs]
  refine .of_eq fun v => ?_
  clear hvs
  generalize e.graph = g
  induction vs generalizing g with
  | nil => rfl
  | cons w vs ih =>
    exact (ih _).trans (Graph.innate_modify (π := Vertex.listeners) g w
      (f := fun x => { x with node := some new.id }) (fun _ => rfl) v)

def Keeps (e : Engine) (wants : Rule → Prop) (u : SiteId) : Prop :=
  ∃ x, e.site? u = some x ∧ x.destroyed = false ∧ wants x.rule

structure Posted (e : Engine) : Prop where
  live : ∀ p, ∀ u ∈ e.world.posts p, e.Keeps (·.posting? = some p) u
  heard : ∀ v, ∀ u ∈ (e.graph.get v).listeners.toList, e.Keeps (v ∈ ·.inputs) u
  readers : ∀ u x i, e.site? u = some x → x.destroyed = false → x.rule = .ivarRead i →
    u ∈ e.world.posts (.reader i.key.side.module)

variable {e e' : Engine}

theorem Posted.keep (h : e.Posted) (hp : ∀ p, e'.world.posts p = e.world.posts p)
    (hg : e.graph.Mutes e'.graph) (hs : ∀ u, (e'.site? u).map (fun x => (x.rule, x.destroyed)) =
      (e.site? u).map fun x => (x.rule, x.destroyed)) : e'.Posted := by
  have hkeeps : ∀ {wants : Rule → Prop} {u}, e.Keeps wants u → e'.Keeps wants u := by
    rintro wants u ⟨x, hx, hlive, hwants⟩
    have hsame := hs u
    rw [hx, Option.map_some] at hsame
    obtain ⟨x', hx', heq⟩ := Option.map_eq_some_iff.1 hsame
    obtain ⟨hrule, hdead⟩ := Prod.mk.inj heq
    exact ⟨x', hx', hdead.trans hlive, hrule ▸ hwants⟩
  refine ⟨fun p u hu => hkeeps (h.live p u (hp p ▸ hu)), fun v u hu => hkeeps (h.heard v u
    (hg v u hu)),
    fun u x i hx hlive hi => ?_⟩
  have hsame := hs u
  rw [hx, Option.map_some] at hsame
  obtain ⟨x0, hx0, heq⟩ := Option.map_eq_some_iff.1 hsame.symm
  obtain ⟨hrule, hdead⟩ := Prod.ext_iff.1 heq
  rw [hp]
  exact h.readers u x0 i hx0 (hdead.trans hlive) (hrule.trans hi)

theorem Posted.of_sites (h : e.Posted) (hp : ∀ p, e'.world.posts p = e.world.posts p)
    (hg : e.graph.Mutes e'.graph) (hs : e'.sites = e.sites) : e'.Posted :=
  h.keep hp hg fun u => congrArg (Option.map _) (congrArg (Slots.get? · u.index) hs)

theorem Posted.modifySite (h : e.Posted) (hp : ∀ p, e'.world.posts p = e.world.posts p)
    (hg : e.graph.Mutes e'.graph) {u : SiteId} {f : Site → Site}
    (hs : ∀ v, e'.site? v = (e.modifySite u f).site? v)
    (hrule : ∀ x, (f x).rule = x.rule) (hdead : ∀ x, (f x).destroyed = x.destroyed) :
    e'.Posted := by
  refine h.keep hp hg fun v => ?_
  rw [hs, site?_modifySite]
  split
  · rw [Option.map_map]
    exact congrArg (Option.map · _) (funext fun x => Prod.ext (hrule x) (hdead x))
  · rfl

def Rewires (e e' : Engine) : Prop :=
  ∃ graph queue, e' = { e with graph, queue } ∧ ∀ s ∈ e.queue.toList, s ∈ queue.toList

theorem Rewires.trans {e'' : Engine} (h : e.Rewires e') (h' : e'.Rewires e'') : e.Rewires e'' := by
  obtain ⟨graph, queue, rfl, hq⟩ := h
  obtain ⟨graph', queue', rfl, hq'⟩ := h'
  exact ⟨graph', queue', rfl, fun s hs => hq' s (hq s hs)⟩

theorem Rewires.adoptGraph (e : Engine) (c : Graph.Changed) : e.Rewires (e.adoptGraph c) := by
  obtain ⟨queue, hq⟩ := e.exists_adoptGraph_eq c
  refine ⟨c.graph, queue, hq, fun s hs => ?_⟩
  have hwaits : s ∈ (e.adoptGraph c).queue.toList :=
    (mem_queue_scheduleAll ({ e with graph := c.graph } : Engine) c.woken s).2 (.inl hs)
  rwa [hq] at hwaits

theorem Rewires.foldl {α : Type} {f : Engine → α → Engine} (hf : ∀ (e : Engine) a,
    e.Rewires (f e a))
    (as : List α) (e : Engine) : e.Rewires (as.foldl f e) := by
  induction as generalizing e with
  | nil => exact ⟨e.graph, e.queue, rfl, fun _ => id⟩
  | cons a as ih => exact (hf e a).trans (ih _)

theorem Rewires.installEdges (e : Engine) (fx : Effects) :
    e.Rewires (Run.mk e fx).installEdges.engine := by
  have hadd := fun new e => Rewires.foldl (f := fun e (x : VertexId × VertexId) =>
    (e.addEdge x.1 x.2).2) (fun e x => .adoptGraph e (e.graph.addEdge x.1 x.2).2) new e
  have hremove := fun gone e => Rewires.foldl (f := fun e (x : VertexId × VertexId) =>
    (e.removeEdge x.1 x.2).2) (fun e x => .adoptGraph e (e.graph.removeEdge x.1 x.2).2) gone e
  exact (hadd _ e).trans (hremove _ _)

theorem rule_relabel_iterate {new : NodeId} {rename : NodeId → NodeId} (x : Site) (k : Nat) :
    ((Site.relabel new rename)^[k] x).rule = x.rule := by
  induction k with
  | zero => rfl
  | succ k ih =>
    rw [Function.iterate_succ_apply']
    exact ih

theorem Posted.adoptNode (h : e.Posted) (path : String) (rename : NodeId → NodeId) (new : Node)
    (old : NodeId) : (e.adoptNode path rename new old).Posted := by
  have hposts : ∀ p, (e.adoptNode path rename new old).world.posts p = e.world.posts p := fun p =>
    world_adoptNode (P := fun w => w.posts p = e.world.posts p) rfl path rename new old
      fun e r he => ((revises_rekey e _ _ r).posts p).trans he
  cases hr : e.record? old with
  | none =>
    rwa [adoptNode_none hr]
  | some record =>
    refine h.keep hposts (mutes_adoptNode path rename e new old) fun u => ?_
    rw [site?_adoptNode hr, Option.map_map]
    refine congrArg (Option.map · _) (funext fun x => Prod.ext ?_ (relabel_iterate x _).2)
    exact rule_relabel_iterate x _

theorem Posted.placeSite (h : e.Posted) {fs : List Frame} {hand : List VertexId}
    (ho : (Machine.mk e fs hand).Orderly) (node : NodeId) {rule : Rule}
    (hk : rule.Known e.world) : (e.placeSite node rule).2.Posted := by
  have hposts : ∀ p u, u ∈ (e.placeSite node rule).2.world.posts p ↔ u ∈ e.world.posts p ∨
      u = (e.placeSite node rule).1 ∧ rule.posting? = some p ∧ e.world.Knows p.module :=
        fun p u => by
    have hworld : (e.placeSite node rule).2.world =
        ((e.enterSite node rule).2.post (e.placeSite node rule).1 rule).world :=
      world_scheduleAll _ [(e.enterSite node rule).1]
    rw [hworld]
    exact mem_posts_post ..
  have hsite := site?_placeSite ho node rule
  obtain ⟨-, hfresh, -⟩ := ho.alloc_spec { node, rule }
  have hkeeps : ∀ {wants : Rule → Prop} {u}, e.Keeps wants u →
      (e.placeSite node rule).2.Keeps wants u := by
    rintro wants u ⟨x, hx, hlive, hwants⟩
    have hne : (e.placeSite node rule).1 ≠ u := by
      rintro rfl
      cases (hfresh x hx).symm.trans hlive
    exact ⟨x, by rw [hsite, if_neg hne, hx], hlive, hwants⟩
  refine ⟨fun p u hu => ?_, fun v u hu => ?_, fun u x i hx hlive hi => ?_⟩
  · rcases (hposts p u).1 hu with hu | ⟨rfl, hp, -⟩
    · exact hkeeps (h.live p u hu)
    · exact ⟨_, by rw [hsite, if_pos rfl], rfl, hp⟩
  · rw [graph_placeSite] at hu
    rcases Graph.mem_listeners_insert _ _ _ hu with hu | ⟨rfl, hv⟩
    · exact hkeeps (h.heard v u hu)
    · exact ⟨_, by rw [hsite]; exact if_pos rfl, rfl, hv⟩
  · rw [hposts]
    rw [hsite] at hx
    split at hx
    · next heq =>
      cases hx
      obtain rfl : rule = .ivarRead i := hi
      exact .inr ⟨heq.symm, rfl, hk⟩
    · exact .inl (h.readers u x i hx hlive hi)

theorem Posted.destroying (h : e.Posted) {s : SiteId} {x : Site} (hx : e.site? s = some x) :
    (e.destroying s x).engine.Posted := by
  have hposts : ∀ p u, u ∈ (e.destroying s x).engine.world.posts p ↔
      u ∈ e.world.posts p ∧ ¬(u = s ∧ x.rule.posting? = some p) := fun p u =>
    mem_posts_unpost (e.markDestroyed s x) s x.rule p u
  have hsite : ∀ u, (e.destroying s x).engine.site? u = if s = u then
      (e.site? u).map fun x => { x with destroyed := true, effects := {} } else e.site? u :=
        fun u => by
    rw [← site?_modifySite]
    exact congrArg (Slots.get? · u.index) (sites_destroying e s x)
  have hkeeps : ∀ {wants : Rule → Prop} {u}, e.Keeps wants u → ¬(u = s ∧ wants x.rule) →
      (e.destroying s x).engine.Keeps wants u := by
    rintro wants u ⟨y, hy, hlive, hwants⟩ hnot
    have hus : s ≠ u := by
      rintro rfl
      cases hx.symm.trans hy
      exact hnot ⟨rfl, hwants⟩
    exact ⟨y, by rw [hsite, if_neg hus, hy], hlive, hwants⟩
  refine ⟨fun p u hu => ?_, fun v u hu => ?_, fun u y i hy hlive hi => ?_⟩
  · obtain ⟨hu, hne⟩ := (hposts p u).1 hu
    exact hkeeps (h.live p u hu) hne
  · rw [graph_destroying] at hu
    obtain ⟨hu, hne⟩ := Graph.mem_listeners_erase _ _ _ hu
    exact hkeeps (h.heard v u hu) hne
  · rw [hsite] at hy
    split at hy
    · obtain ⟨z, -, rfl⟩ := Option.map_eq_some_iff.1 hy
      cases hlive
    · next hus => exact (hposts _ u).2 ⟨h.readers u y i hy hlive hi, fun heq => hus heq.1.symm⟩

end Engine

namespace State

open Engine

variable {s s' : State}

theorem posted_move (h : s.engine.Posted) (hs : s.Sound) (hm : Move s s') : s'.engine.Posted := by
  cases hm with
  | aside hq => exact h.of_sites hq.entries.posts (hq.graph ▸ fun _ _ => id) hq.sites
  | @sweep e d ho =>
    refine h.keep (fun p => ?_) (.of_eq fun v => by rw [get_reclaim]) fun u => by rw [site?_reclaim]
    show e.reclaim.2.world.posts p = _
    unfold Engine.reclaim
    split <;> rfl
  | @define e ts d n entry hn hk =>
    exact h.of_sites (revises_enter e (.node n) entry).posts (edits_enter e (.node n) entry).mutes
      (SameStock.enter e (.node n) entry).sites
  | @unregister e d n r regs reg hl hr =>
    exact h.of_sites (revises_unregister e (.node n) reg).posts
      (edits_unregister e (.node n) reg).mutes (SameStock.unregister e (.node n) reg).sites
  | adopt path rename new old hl => exact h.adoptNode path rename new old
  | @removeBlock e d n r hl =>
    rw [(exists_removeBlock_eq e r.block).choose_spec]
    exact h.of_sites (fun _ => rfl) (fun _ _ => id) rfl
  | newVertex | ownVertex | ownSource | freshVertex | freshSource =>
    exact h.of_sites (fun _ => rfl) (.alloc rfl) rfl
  | source => exact h.of_sites (fun _ => rfl) (.source _ _) rfl
  | @buryLifted e d n r v | @bury e ts d v =>
    obtain ⟨graph, queue, he, -⟩ := Engine.Rewires.adoptGraph e (e.graph.destroy v)
    refine h.of_sites (fun _ => by rw [destroyVertex, he]) (.of_eq fun u => ?_)
      (SameStock.adoptGraph _ _).sites
    exact (congrArg (fun g => (Graph.get g u).listeners) (graph_adoptGraph ..)).trans
      (Graph.innate_destroy Graph.innate_listeners e.graph v u)
  | beginRun | endRun | breakRun | endDestroy =>
    exact h.modifySite (fun _ => rfl) (fun _ _ => id) (fun _ => rfl) (fun _ => rfl) fun _ => rfl
  | beginDestroy hx hlive hin => exact h.destroying hx
  | @installEdges e ts d t =>
    obtain ⟨graph, queue, he, -⟩ := Engine.Rewires.installEdges e t.effects
    refine h.of_sites (fun _ => by rw [he]) ?_ (SameStock.installEdges _).sites
    exact graph_installEdges e t.effects ▸ .rewire e.graph _ _
  | placeSite ha hk => exact h.placeSite hs.machine.filed.toOrderly _ hk
  | note | forget => exact h.of_sites (World.Stays.watch _ _ _).posts (fun _ _ => id) rfl
  | _ => exact h.of_sites (fun _ => rfl) (fun _ _ => id) rfl

end State

end TypeFlow
