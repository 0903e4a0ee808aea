import TypeFlow.Proofs.Kinship
import TypeFlow.Proofs.Scheduling

/-!
# Changes are announced

A constant that starts or stops to exist, a lineage that changes and an instance variable that
starts or stops to be defined are all that names can be found differently by. Whoever makes such a
change puts the live sites into the queue that have consulted the constant, asked for the ancestry
or read the variable below its module.
-/

set_option autoImplicit false

namespace TypeFlow

open State

namespace World

structure Recalls (w w' : World) : Prop where
  size : w.modules.size ≤ w'.modules.size
  path : ∀ m, w.Knows m → (w'.get m).path = (w.get m).path
  consts : ∀ m name v, (w.get m).constVertex? name = some v →
    (w'.get m).constVertex? name = some v
  ivars : ∀ m b name v, (w.get m).ivarVertex? b name = some v →
    (w'.get m).ivarVertex? b name = some v
  constsAt : ∀ key, w'.constAt? key = w.constAt? key
  lineage : ∀ m, (w'.get m).lineage = (w.get m).lineage
  ivarsAt : ∀ key, w'.ivarAt? key = w.ivarAt? key

variable {r : Registration} {w w' w'' : World}
variable {key : ConstKey} {f : OrderedSet DefOrigin → OrderedSet DefOrigin}

theorem Recalls.refl (w : World) : Recalls w w :=
  ⟨Nat.le_refl _, fun _ _ => rfl, fun _ _ _ => id, fun _ _ _ _ => id, fun _ => rfl, fun _ => rfl,
    fun _ => rfl⟩

theorem Recalls.trans (h : Recalls w w') (h' : Recalls w' w'') : Recalls w w'' where
  size := h.size.trans h'.size
  path m hm := (h'.path m (Nat.lt_of_lt_of_le hm h.size)).trans (h.path m hm)
  consts m name v hv := h'.consts m name v (h.consts m name v hv)
  ivars m b name v hv := h'.ivars m b name v (h.ivars m b name v hv)
  constsAt key := (h'.constsAt key).trans (h.constsAt key)
  lineage m := (h'.lineage m).trans (h.lineage m)
  ivarsAt key := (h'.ivarsAt key).trans (h.ivarsAt key)

theorem Agrees.recalls (h : Agrees w w') : Recalls w w' where
  size := h.size
  path := h.path
  consts m := (h.akin m).consts
  ivars m := (h.akin m).ivars
  constsAt := h.constAt?
  lineage m := (h.akin m).lineage
  ivarsAt := h.ivarAt?

theorem Revises.constAt? (h : Revises r w w') (hr : r ≠ .const key) :
    w'.constAt? key = w.constAt? key :=
  standing_congr (fun c : ConstEntity => c.defs.toList) ConstEntity.vertex (w.const? key)
    (w'.const? key) (h.origins (.const key) hr.symm) (h.consts key.module key.name)

theorem Revises.ivarAt? (h : Revises r w w') {key : MemberKey} (hr : r ≠ .ivar key) :
    w'.ivarAt? key = w.ivarAt? key :=
  standing_congr (fun i : IvarEntity => i.defs.toList) IvarEntity.vertex (w.ivar? key)
    (w'.ivar? key) (h.origins (.ivar key) hr.symm)
    (h.ivars key.side.module key.side.singleton key.name)

theorem Revises.recalls (h : Revises r w w')
    (hconst : ∀ key, r = .const key → w'.constAt? key = w.constAt? key)
    (hlineage : ∀ m, r = .module m → (w'.get m).lineage = (w.get m).lineage)
    (hivar : ∀ key, r = .ivar key → w'.ivarAt? key = w.ivarAt? key) : Recalls w w' where
  size := h.size
  path := h.path
  consts := h.consts
  ivars := h.ivars
  constsAt key := (em (r = .const key)).elim (hconst key) h.constAt?
  lineage m := (em (r = .module m)).elim (hlineage m) (h.lineage m)
  ivarsAt key := (em (r = .ivar key)).elim (hivar key) h.ivarAt?

theorem const?_modifyConst (w : World) (key : ConstKey) (f : ConstEntity → ConstEntity) :
    (w.modifyConst key f).const? key = (w.const? key).map f := by
  unfold const? modifyConst
  rw [get_modify]
  split
  · rw [OrderedMap.get?_modify, if_pos rfl]
  · next h => rw [get_of_not_knows fun hk => h ⟨rfl, hk⟩]; rfl

theorem ivar?_modifyIvar (w : World) (key : MemberKey) (f : IvarEntity → IvarEntity) :
    (w.modifyIvar key f).ivar? key = (w.ivar? key).map f := by
  unfold ivar? modifyIvar
  rw [get_modify]
  split
  · rw [Sided.get_modify, if_pos rfl, OrderedMap.get?_modify, if_pos rfl]
  · next h =>
    rw [get_of_not_knows fun hk => h ⟨rfl, hk⟩]
    cases key.side.singleton <;> rfl

theorem found_congr {γ : Type} {p : γ → Bool} {vertex : γ → VertexId} {f : γ → γ} {o : Option γ}
    (hv : ∀ c, vertex (f c) = vertex c) (hp : ∀ c, o = some c → p (f c) = p c) :
    ((o.map f).filter p).map vertex = (o.filter p).map vertex := by
  cases o with
  | none => rfl
  | some c => cases h : p c <;> simp [Option.filter, hp c rfl, h, hv]

theorem lineage_of_refresh {m : ModuleId} (h : (w.refresh m).1 = false) :
    ((w.refresh m).2.get m).lineage = (w.get m).lineage := by
  unfold refresh at *
  dsimp only at *
  split at h
  · next hsame =>
    rw [if_pos hsame]
    exact (get_declaredLineage w m m).2.1
  · cases h

theorem constAt?_modifyConst
    (h : ∀ c, w.const? key = some c → (f c.defs).isEmpty = c.defs.isEmpty) :
    (w.modifyConst key fun c => { c with defs := f c.defs }).constAt? key = w.constAt? key := by
  unfold constAt?
  rw [const?_modifyConst]
  exact found_congr (fun _ => rfl) fun c hc => congrArg (!·) (h c hc)

theorem ivarAt?_modifyIvar {key : MemberKey}
    (h : ∀ i, w.ivar? key = some i → (f i.defs).isEmpty = i.defs.isEmpty) :
    (w.modifyIvar key fun i => { i with defs := f i.defs }).ivarAt? key = w.ivarAt? key := by
  unfold ivarAt?
  rw [ivar?_modifyIvar]
  exact found_congr (fun _ => rfl) fun i hi => congrArg (!·) (h i hi)

end World

namespace OrderedSet

variable {α : Type} [DecidableEq α]

theorem isEmpty_rename (s : OrderedSet α) (a a' : α) : (s.rename a a').isEmpty = s.isEmpty :=
  List.isEmpty_map

theorem isEmpty_insert (s : OrderedSet α) (a : α) : (s.insert a).isEmpty = false := by
  have ha : a ∈ (s.insert a).toList := mem_insert.2 (.inr rfl)
  simpa [isEmpty] using List.ne_nil_of_mem ha

theorem isEmpty_of_isEmpty_erase {s : OrderedSet α} {a : α} (h : (s.erase a).isEmpty = false) :
    s.isEmpty = false := by
  unfold isEmpty erase at *
  cases hs : s.toList with
  | nil => simp [hs] at h
  | cons => rfl

end OrderedSet

namespace Engine

open World

theorem recalls_rekey (e : Engine) (old new : DefOrigin) (r : Registration) :
    Recalls e.world (e.rekey old new r).world := by
  refine (revises_rekey e old new r).recalls ?_ ?_ ?_
  · rintro key rfl
    exact constAt?_modifyConst (f := (·.rename old new)) fun c _ => OrderedSet.isEmpty_rename ..
  · rintro m rfl
    show ((e.world.modify m _).get m).lineage = _
    rw [get_modify]
    split <;> rfl
  · rintro key rfl
    exact ivarAt?_modifyIvar (f := (·.rename old new)) fun i _ => OrderedSet.isEmpty_rename ..

theorem recalls_adoptNode (e : Engine) (path : String) (rename : NodeId → NodeId) (new : Node)
    (old : NodeId) : Recalls e.world (e.adoptNode path rename new old).world :=
  world_adoptNode (P := Recalls e.world) (.refl _) path rename new old fun e' r he =>
    he.trans (recalls_rekey e' _ _ r)

structure Warns (e e' : Engine) : Prop extends Remembers e e' where
  constsAt : ∀ key, e'.world.constAt? key = e.world.constAt? key ∨
    ∀ s ∈ e.world.watchers (.const key), e.isLive s = true → s ∈ e'.queue.toList
  lineage : ∀ m, (e'.world.get m).lineage = (e.world.get m).lineage ∨
    ∀ s ∈ e.world.watchers (.superclass m), e.isLive s = true → s ∈ e'.queue.toList
  ivarsAt : ∀ m name, e'.world.ivarAt? ⟨⟨m, false⟩, name⟩ = e.world.ivarAt? ⟨⟨m, false⟩, name⟩ ∨
    ∀ c, m ∈ e.world.superclasses c → ∀ s ∈ e.world.posts (.reader c), e.isLive s = true →
      s ∈ e'.queue.toList

variable {e e' : Engine} {r : Registration}

theorem Warns.of_recalls (h : Recalls e.world e'.world)
    (hglobals : ∀ name v, e.globals.get? name = some v → e'.globals.get? name = some v)
    (hshared : ∀ types v, e.graph.shared.get? types = some v →
      e'.graph.shared.get? types = some v) : e.Warns e' where
  size := h.size
  finds := finds_of_path h.size h.path
  consts := h.consts
  ivars := h.ivars
  globals := hglobals
  shared := hshared
  constsAt key := .inl (h.constsAt key)
  lineage m := .inl (h.lineage m)
  ivarsAt _ _ := .inl (h.ivarsAt _)

theorem Upholds.warns (h : e.Upholds e') : e.Warns e' :=
  .of_recalls h.world.recalls h.globals h.shared

theorem Warns.of_revises (h : Revises r e.world e'.world)
    (hglobals : ∀ name v, e.globals.get? name = some v → e'.globals.get? name = some v)
    (hshared : ∀ types v, e.graph.shared.get? types = some v →
      e'.graph.shared.get? types = some v)
    (hconst : ∀ key, r = .const key → e'.world.constAt? key = e.world.constAt? key ∨
      ∀ s ∈ e.world.watchers (.const key), e.isLive s = true → s ∈ e'.queue.toList)
    (hlineage : ∀ m, r = .module m → (e'.world.get m).lineage = (e.world.get m).lineage ∨
      ∀ s ∈ e.world.watchers (.superclass m), e.isLive s = true → s ∈ e'.queue.toList)
    (hivar : ∀ key, r = .ivar key → e'.world.ivarAt? key = e.world.ivarAt? key ∨
      ∀ c, key.side.module ∈ e.world.superclasses c → ∀ s ∈ e.world.posts (.reader c),
        e.isLive s = true → s ∈ e'.queue.toList) : e.Warns e' where
  size := h.size
  finds := finds_of_path h.size h.path
  consts := h.consts
  ivars := h.ivars
  globals := hglobals
  shared := hshared
  constsAt key := (em (r = .const key)).elim (hconst key) fun hr => .inl (h.constAt? hr)
  lineage m := (em (r = .module m)).elim (hlineage m) fun hr => .inl (h.lineage m hr)
  ivarsAt m name := (em (r = .ivar ⟨⟨m, false⟩, name⟩)).elim (hivar _) fun hr =>
    .inl (h.ivarAt? hr)

section Scheduling

variable {s : SiteId}

theorem mem_queue_scheduleFollowers {key : ConstKey} (h : s ∈ e.world.watchers (.const key))
    (hl : e.isLive s = true) : s ∈ (e.scheduleFollowers key).queue.toList :=
  (mem_queue_scheduleAll ..).2 (.inr ⟨h, hl⟩)

theorem mem_queue_scheduleDependents (hc : e.world.Closed) {m : ModuleId}
    (h : s ∈ e.world.watchers (.superclass m)) (hl : e.isLive s = true) :
    s ∈ (e.scheduleDependents m).queue.toList := by
  refine (mem_queue_scheduleAll ..).2 (.inr ⟨?_, hl⟩)
  refine OrderedSet.mem_foldl_insert.2 (.inr (List.mem_flatMap.2 ⟨m, ?_, ?_⟩))
  · exact (mem_descendants_iff hc).2 .refl
  · have hcheck : s ∈ (e.world.get m).subclassChecks.toList := h
    simp [hcheck]

theorem mem_queue_scheduleIvarReads (hr : e.world.Related) {m c : ModuleId}
    (hc : m ∈ e.world.superclasses c) (h : s ∈ e.world.posts (.reader c))
    (hl : e.isLive s = true) : s ∈ (e.scheduleIvarReads m).queue.toList := by
  refine (mem_queue_scheduleAll ..).2 (.inr ⟨List.mem_flatMap.2 ⟨c, ?_, h⟩, hl⟩)
  rw [hr.mem_descendants_iff_mem_chain, chain_instances hr.closed]
  exact List.mem_map_of_mem hc

end Scheduling

theorem shared_of_turn {g g' : Graph} (h : g.Turn g') {types : List Ty} {v : VertexId}
    (hv : g.shared.get? types = some v) : g'.shared.get? types = some v := by
  cases h with
  | idle h => exact h.shared ▸ hv
  | create | createSource => exact hv
  | share ts => exact Upholds.shared_source g ts hv
  | rewire new gone =>
    refine Graph.rewire_induct (P := fun g => g.shared.get? types = some v) ?_ ?_ hv new gone
    · exact fun g src dst hg => (Graph.sameLife_addEdge g src dst).shared ▸ hg
    · exact fun g src dst hg => (Graph.sameLife_removeEdge g src dst).shared ▸ hg
  | bury u => exact (Graph.destroy_life g u).1 ▸ hv

@[simp] theorem globals_scheduleAll (e : Engine) (ss : List SiteId) :
    (e.scheduleAll ss).globals = e.globals := by
  obtain ⟨queue, hq⟩ := e.exists_scheduleAll_eq ss
  rw [hq]

theorem Edits.globals (h : e.Edits e') : e'.globals = e.globals := by
  induction h with
  | tell | name => rfl
  | schedule _ ss ih => exact (globals_scheduleAll _ ss).trans ih

theorem Edits.prolongs (h : e.Edits e') : e.Prolongs e' := by
  induction h with
  | tell | name => exact .of_eq rfl rfl
  | schedule _ ss ih => exact ih.trans (.scheduleAll ss _)

section Announcements

variable (origin : DefOrigin)

theorem isLive_congr (h : e'.sites = e.sites) (s : SiteId) : e'.isLive s = e.isLive s := by
  unfold isLive site?
  rw [h]

theorem isLive_of_site? {s : SiteId} {x : Site} (h : e.site? s = some x)
    (hlive : x.destroyed = false) : e.isLive s = true := by
  unfold isLive
  rw [h]
  simp [hlive]

theorem announces_const {key : ConstKey} {f : OrderedSet DefOrigin → OrderedSet DefOrigin}
    (h : ∀ c, e.world.const? key = some c →
      let changed := e.modifyWorld (·.modifyConst key fun c => { c with defs := f c.defs })
      e' = changed ∧ (f c.defs).isEmpty = c.defs.isEmpty ∨ e' = changed.scheduleFollowers key) :
    e'.world.constAt? key = e.world.constAt? key ∨
      ∀ s ∈ e.world.watchers (.const key), e.isLive s = true → s ∈ e'.queue.toList := by
  have hgrows : Grows e.world (e.world.modifyConst key fun c => { c with defs := f c.defs }) :=
    .modifyConst e.world key fun _ => rfl
  cases hc : e.world.const? key with
  | none =>
    refine .inr fun s hs => absurd hs ?_
    have hnone : (e.world.get key.module).consts.get? key.name = none := hc
    simp [World.watchers, Module.watchers, hnone, Dependency.module]
  | some c =>
    rcases h c hc with ⟨rfl, hsame⟩ | rfl
    · refine .inl (constAt?_modifyConst fun c' hc' => ?_)
      cases hc.symm.trans hc'
      exact hsame
    · refine .inr fun s hs hl => mem_queue_scheduleFollowers ?_ hl
      exact (hgrows.watchers (.const key)).symm ▸ hs

theorem ensureConst_of_some {key : ConstKey} {c : ConstEntity} (hc : e.world.const? key = some c) :
    e.ensureConst key = (c, e) := by
  unfold Engine.ensureConst
  rw [hc]

theorem announces_addConstDef (e : Engine) (key : ConstKey) :
    (e.addConstDef key origin).2.world.constAt? key = e.world.constAt? key ∨
      ∀ s ∈ e.world.watchers (.const key), e.isLive s = true →
        s ∈ (e.addConstDef key origin).2.queue.toList := by
  refine announces_const (f := (·.insert origin)) fun c hc => ?_
  unfold Engine.addConstDef
  rw [ensureConst_of_some hc]
  dsimp only
  split
  · next hexists =>
    refine .inl ⟨rfl, (OrderedSet.isEmpty_insert ..).trans ?_⟩
    simpa [ConstEntity.exists?] using hexists.symm
  · exact .inr rfl

theorem announces_removeConstDef (e : Engine) (key : ConstKey) :
    (e.removeConstDef key origin).world.constAt? key = e.world.constAt? key ∨
      ∀ s ∈ e.world.watchers (.const key), e.isLive s = true →
        s ∈ (e.removeConstDef key origin).queue.toList := by
  refine announces_const (f := (·.erase origin)) fun c hc => ?_
  unfold Engine.removeConstDef
  rw [ensureConst_of_some hc]
  dsimp only
  split
  · exact .inr rfl
  · next hleft =>
    have hleft : (c.defs.erase origin).isEmpty = false := Bool.eq_false_of_not_eq_true hleft
    exact .inl ⟨rfl, hleft.trans (OrderedSet.isEmpty_of_isEmpty_erase hleft).symm⟩

theorem exists_of_exists_ensureIvar {key : MemberKey} (h : (e.ensureIvar key).1.exists? = true) :
    ∃ i, e.world.ivar? key = some i ∧ e.ensureIvar key = (i, e) := by
  cases hi : e.world.ivar? key with
  | none =>
    rw [Engine.ensureIvar, hi] at h
    cases h
  | some i => exact ⟨i, rfl, by rw [Engine.ensureIvar, hi]⟩

theorem announces_ivar {key : MemberKey} (changed : Engine) (hr : e'.world.Related)
    (hrev : Revises (.ivar key) e.world e'.world) (hc : e.world.Closed)
    (hsites : changed.sites = e.sites)
    (h : e'.world.ivarAt? key = e.world.ivarAt? key ∨
      e' = changed.scheduleIvarReads key.side.module) :
    e'.world.ivarAt? key = e.world.ivarAt? key ∨
      ∀ c, key.side.module ∈ e.world.superclasses c → ∀ s ∈ e.world.posts (.reader c),
        e.isLive s = true → s ∈ e'.queue.toList := by
  refine h.imp id fun he c hm s hs hl => ?_
  have hworld : e'.world = changed.world := by
    rw [he]
    exact world_scheduleAll ..
  have hsuper : e'.world.superclasses c = e.world.superclasses c :=
    superclasses_congr hc hr.closed fun x _ =>
      congrArg Lineage.superclass (hrev.lineage x (by simp))
  rw [he]
  refine mem_queue_scheduleIvarReads (hworld ▸ hr) (c := c) ?_ ?_ ((isLive_congr hsites s).trans hl)
  · rw [← hworld, hsuper]
    exact hm
  · rw [← hworld, hrev.posts]
    exact hs

theorem addIvarDef_kept_or_told (e : Engine) (key : MemberKey) :
    (e.addIvarDef key origin).2.world.ivarAt? key = e.world.ivarAt? key ∨
      (e.addIvarDef key origin).2 = ((e.ensureIvar key).2.modifyWorld (·.modifyIvar key fun i =>
        { i with defs := i.defs.insert origin })).scheduleIvarReads key.side.module := by
  by_cases hexists : (e.ensureIvar key).1.exists? = true
  · refine .inl ?_
    obtain ⟨i, hi, hensure⟩ := exists_of_exists_ensureIvar hexists
    rw [world_addIvarDef, hensure]
    refine ivarAt?_modifyIvar (f := (·.insert origin)) fun i' hi' => ?_
    cases hi.symm.trans hi'
    rw [hensure] at hexists
    refine (OrderedSet.isEmpty_insert ..).trans ?_
    simpa [IvarEntity.exists?] using hexists.symm
  · exact .inr (if_neg hexists)

theorem removeIvarDef_kept_or_told (e : Engine) (key : MemberKey) :
    (e.removeIvarDef key origin).world.ivarAt? key = e.world.ivarAt? key ∨
      e.removeIvarDef key origin = ((e.ensureIvar key).2.modifyWorld (·.modifyIvar key fun i =>
        { i with defs := i.defs.erase origin })).scheduleIvarReads key.side.module := by
  by_cases hempty : ((e.ensureIvar key).1.defs.erase origin).isEmpty = true
  · exact .inr (if_pos hempty)
  · refine .inl ?_
    have hleft : ((e.ensureIvar key).1.defs.erase origin).isEmpty = false :=
      Bool.eq_false_of_not_eq_true hempty
    have hbefore := OrderedSet.isEmpty_of_isEmpty_erase hleft
    have hexists : (e.ensureIvar key).1.exists? = true := congrArg (!·) hbefore
    obtain ⟨i, hi, hensure⟩ := exists_of_exists_ensureIvar hexists
    rw [world_removeIvarDef, hensure]
    refine ivarAt?_modifyIvar (f := (·.erase origin)) fun i' hi' => ?_
    cases hi.symm.trans hi'
    rw [hensure] at hleft hbefore
    exact hleft.trans hbefore.symm

theorem announces_module {m : ModuleId}
    (f : OrderedMap DefOrigin ModuleDecl → OrderedMap DefOrigin ModuleDecl)
    (hc : e'.world.Closed)
    (h : let (changed, world) := (e.world.modify m fun x => { x with decls := f x.decls }).refresh m
      e' = if changed then { e with world }.scheduleDependents m else { e with world }) :
    (e'.world.get m).lineage = (e.world.get m).lineage ∨
      ∀ s ∈ e.world.watchers (.superclass m), e.isLive s = true → s ∈ e'.queue.toList := by
  have hset : Grows e.world (e.world.modify m fun x => { x with decls := f x.decls }) :=
    .aside rfl rfl rfl fun hc => (hc.within m).of_eq rfl rfl rfl
  have hgrows := hset.trans
    (Grows.refresh (e.world.modify m fun x => { x with decls := f x.decls }) m)
  have hlineage : ((e.world.modify m fun x => { x with decls := f x.decls }).get m).lineage =
      (e.world.get m).lineage := by
    rw [get_modify]
    split <;> rfl
  have hsame := lineage_of_refresh (w := e.world.modify m fun x => { x with decls := f x.decls })
    (m := m)
  generalize World.refresh _ m = outcome at *
  obtain ⟨changed, world⟩ := outcome
  cases changed with
  | false =>
    refine .inl ?_
    rw [show e' = { e with world } from h]
    exact (hsame rfl).trans hlineage
  | true =>
    refine .inr fun s hs hl => ?_
    have h : e' = { e with world }.scheduleDependents m := h
    have hworld : e'.world = world := by
      rw [h]
      exact world_scheduleAll ..
    rw [h]
    refine mem_queue_scheduleDependents (hworld ▸ hc) ?_ hl
    exact (hgrows.watchers (.superclass m)).symm ▸ hs

end Announcements

theorem warns_enter (hr : e.world.Related) (origin : DefOrigin) (entry : Entry)
    (hc : (e.enter origin entry).world.Closed) : e.Warns (e.enter origin entry) := by
  have hrelated := related_enter hr origin entry hc
  refine .of_revises (revises_enter e origin entry)
    (fun name v hv => (edits_enter e origin entry).globals.symm ▸ hv)
    (fun _ _ => shared_of_turn (edits_enter e origin entry).turn) ?_ ?_ ?_
  · rintro key hkey
    cases entry with
    | const key' => cases hkey; exact announces_addConstDef origin e key
    | _ => cases hkey
  · rintro m hm
    cases entry with
    | module m' decl => cases hm; exact announces_module (·.insert origin decl) hc rfl
    | _ => cases hm
  · rintro key hkey
    cases entry with
    | ivar key' =>
      cases hkey
      refine announces_ivar _ hrelated (revises_enter e origin (.ivar key)) hr.closed ?_
        (addIvarDef_kept_or_told origin e key)
      exact (SameStock.ensureIvar e key).sites
    | _ => cases hkey

theorem warns_unregister (hr : e.world.Related) (origin : DefOrigin) (r : Registration)
    (hc : (e.unregister origin r).world.Closed) : e.Warns (e.unregister origin r) := by
  have hrelated := related_unregister hr origin r hc
  refine .of_revises (revises_unregister e origin r)
    (fun name v hv => (edits_unregister e origin r).globals.symm ▸ hv)
    (fun _ _ => shared_of_turn (edits_unregister e origin r).turn) ?_ ?_ ?_
  · rintro key rfl
    exact announces_removeConstDef origin e key
  · rintro m rfl
    exact announces_module (·.erase origin) hc rfl
  · rintro key rfl
    refine announces_ivar _ hrelated (revises_unregister e origin (.ivar key)) hr.closed ?_
      (removeIvarDef_kept_or_told origin e key)
    exact (SameStock.ensureIvar e key).sites

theorem adoptNode_keeps {β : Type} (view : Engine → β)
    (hview : ∀ (e : Engine) nodes sites blocks graph world,
      view { e with nodes, sites, blocks, graph, world } = view e)
    (e : Engine) (path : String) (rename : NodeId → NodeId) (new : Node) (old : NodeId) :
    view (e.adoptNode path rename new old) = view e := by
  have hrekey (e : Engine) (r : Registration) :
      view (e.rekey (.node old) (.node new.id) r) = view e := by
    cases r <;> exact hview e e.nodes e.sites e.blocks e.graph _
  have hfold : ∀ (regs : List Registration) (e : Engine),
      view (regs.foldl (fun e r => e.rekey (.node old) (.node new.id) r) e) = view e := by
    intro regs
    induction regs with
    | nil => exact fun _ => rfl
    | cons r regs ih => exact fun e => (ih _).trans (hrekey e r)
  cases hr : e.record? old with
  | none =>
    unfold adoptNode
    rw [hr]
  | some record =>
    obtain ⟨record', -, he⟩ := adoptNode_eq hr path rename new
    obtain ⟨slots, hsites⟩ := foldl_modifySite_eq (Site.relabel new.id rename) record.sites.toList
      ({ e with nodes := e.nodes.erase old } : Engine)
    have hrelabelled : view (record.sites.toList.foldl (fun e s =>
        e.modifySite s (Site.relabel new.id rename)) { e with nodes := e.nodes.erase old }) =
        view e := by
      rw [hsites]
      exact hview e (e.nodes.erase old) _ e.blocks e.graph e.world
    rw [he, hview]
    refine (hfold record.registrations _).trans (.trans ?_ hrelabelled)
    cases record.block with
    | none | some => exact hview (record.sites.toList.foldl _ _) _ _ _ _ _

theorem warns_adoptNode (e : Engine) (path : String) (rename : NodeId → NodeId) (new : Node)
    (old : NodeId) : e.Warns (e.adoptNode path rename new old) := by
  refine .of_recalls (recalls_adoptNode e path rename new old) (fun _ _ hv => ?_) fun _ _ hv => ?_
  · rw [adoptNode_keeps Engine.globals fun _ _ _ _ _ _ => rfl]
    exact hv
  · exact (idle_adoptNode path rename e new old).shared ▸ hv

end Engine

namespace State

open Engine

variable {s s' : State}

/-- Whatever a move changes about names, it announces. -/
theorem Move.warns (hm : Move s s') (hr : s.engine.world.Related)
    (hc : s'.engine.world.Closed) : s.engine.Warns s'.engine := by
  have ha := hm.amends
  generalize s'.engine = e', s'.progress.log = log at ha hc ⊢
  cases ha with
  | upholds hup => exact hup.warns
  | @define n _ entry =>
    have hw := warns_enter hr (.node n) entry hc
    exact { hw with }
  | @unregister n _ _ r => exact warns_unregister hr (.node n) r hc
  | adopt _ path rename new old => exact warns_adoptNode _ path rename new old

end State

end TypeFlow
