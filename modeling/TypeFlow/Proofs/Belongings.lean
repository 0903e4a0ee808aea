import TypeFlow.Proofs.Kinship

/-!
# Definitions belong to records

A definition names the node that made it, and the record of the node lists the definition, or what
is left of the record while it is torn down. What is built in has no node, and no move touches it.
-/

set_option autoImplicit false

namespace TypeFlow

open State

theorem OrderedMap.mem_keys_rekey {κ α : Type} [DecidableEq κ] {m : OrderedMap κ α} {k k' x : κ}
    (h : x ∈ (m.rekey k k').keys) : x ∈ m.keys ∧ x ≠ k ∨ x = k' := by
  rw [keys_rekey, List.mem_map] at h
  obtain ⟨y, hy, rfl⟩ := h
  split
  · exact .inr rfl
  · next hne => exact .inl ⟨hy, hne⟩

theorem OrderedSet.mem_rename {α : Type} [DecidableEq α] {s : OrderedSet α} {a a' x : α}
    (h : x ∈ (s.rename a a').toList) : x ∈ s.toList ∧ x ≠ a ∨ x = a' := by
  obtain ⟨y, hy, rfl⟩ := List.mem_map.1 h
  split
  · exact .inr rfl
  · next hne => exact .inl ⟨hy, hne⟩

namespace World

variable {w : World} {o : DefOrigin} {r : Registration}
variable {f : OrderedSet DefOrigin → OrderedSet DefOrigin} {m target : ModuleId} {key : MemberKey}

theorem knows_of_mem_origins (h : o ∈ w.origins r) : w.Knows r.home := by
  by_contra hk
  rw [origins, get_of_not_knows hk] at h
  cases r <;> simp [Module.origins, Sided.get, OrderedMap.keys, OrderedMap.get?] at h

theorem mem_origins_modify {f : Module → Module} (h : o ∈ (w.modify r.home f).origins r) :
    o ∈ (f (w.get r.home)).origins r := by
  have hk : w.Knows r.home := knows_modify.1 (knows_of_mem_origins h)
  rwa [origins, get_modify, if_pos ⟨rfl, hk⟩] at h

theorem mem_origins_inclusion :
    o ∈ w.origins (.inclusion m target) ↔ (o, target) ∈ (w.get m).includes.keys := by
  simp [origins, Module.origins, Registration.home]

theorem mem_origins_const {key : ConstKey} :
    o ∈ w.origins (.const key) ↔ ∃ c, w.const? key = some c ∧ o ∈ c.defs.toList := by
  show o ∈ ((w.const? key).map fun c => c.defs.toList).getD [] ↔ _
  cases w.const? key <;> simp

theorem mem_origins_ivar :
    o ∈ w.origins (.ivar key) ↔ ∃ i, w.ivar? key = some i ∧ o ∈ i.defs.toList := by
  show o ∈ ((w.ivar? key).map fun i => i.defs.toList).getD [] ↔ _
  cases w.ivar? key <;> simp

theorem mem_origins_alias :
    o ∈ w.origins (.alias key) ↔ o ∈ ((w.method? key).getD {}).aliases.keys := by
  show o ∈ ((w.method? key).map fun m => m.aliases.keys).getD [] ↔ _
  cases w.method? key <;> simp

theorem mem_modifyDecls
    {f : OrderedMap DefOrigin ModuleDecl → OrderedMap DefOrigin ModuleDecl}
    (h : o ∈ (w.modify m fun x => { x with decls := f x.decls }).origins (.module m)) :
    o ∈ (f (w.get m).decls).keys :=
  mem_origins_modify (r := .module m) h

theorem mem_modifyIncludes
    {f : OrderedMap (DefOrigin × ModuleId) (List SigType) →
      OrderedMap (DefOrigin × ModuleId) (List SigType)}
    (h : o ∈ (w.modify m fun x => { x with includes := f x.includes }).origins
      (.inclusion m target)) : (o, target) ∈ (f (w.get m).includes).keys := by
  simpa [Module.origins, Registration.home] using mem_origins_modify (r := .inclusion m target) h

theorem mem_constDefs {key : ConstKey}
    (h : o ∈ (w.modifyConst key fun c => { c with defs := f c.defs }).origins (.const key)) :
    ∃ c, w.const? key = some c ∧ o ∈ (f c.defs).toList := by
  have hmem := mem_origins_modify (r := .const key) h
  simp only [Module.origins, OrderedMap.get?_modify, if_true, Option.map_map] at hmem
  cases hc : (w.get key.module).consts.get? key.name with
  | none => simp [hc, Registration.home] at hmem
  | some c =>
    refine ⟨c, hc, ?_⟩
    simpa [hc, Registration.home] using hmem

theorem mem_ivarDefs
    (h : o ∈ (w.modifyIvar key fun i => { i with defs := f i.defs }).origins (.ivar key)) :
    ∃ i, w.ivar? key = some i ∧ o ∈ (f i.defs).toList := by
  have hmem := mem_origins_modify (r := .ivar key) h
  simp only [Module.origins, Sided.get_modify, OrderedMap.get?_modify, if_true, Option.map_map]
    at hmem
  cases hi : ((w.get key.side.module).ivars.get key.side.singleton).get? key.name with
  | none => simp [hi, Registration.home] at hmem
  | some i =>
    refine ⟨i, hi, ?_⟩
    simpa [hi, Registration.home] using hmem

theorem mem_aliases
    {f : OrderedMap DefOrigin String → OrderedMap DefOrigin String}
    (h : o ∈ (w.modifyMethod key fun m => { m with aliases := f m.aliases }).origins
      (.alias key)) :
    o ∈ (f (((w.method? key).getD {}).aliases)).keys := by
  have hmem := mem_origins_modify (r := .alias key) h
  simp only [Module.origins, Sided.get_modify, OrderedMap.get?_upsert, if_true, Option.map_some,
    Option.getD_some] at hmem
  exact hmem

end World

namespace Engine

open World

variable {e : Engine} {o origin : DefOrigin} {r : Registration}

theorem mem_origins_enter {entry : Entry} (h : o ∈ (e.enter origin entry).world.origins r) :
    o ∈ e.world.origins r ∨ o = origin ∧ r = entry.registration := by
  by_cases hr : r = entry.registration
  · subst hr
    refine Or.imp_right (⟨·, rfl⟩) (Or.symm ?_)
    cases entry with
    | module m decl =>
      change o ∈ ((e.addModuleDecl m origin decl).world.get m).decls.keys at h
      rw [world_addModuleDecl, declare, (get_refresh _ m m).1] at h
      exact OrderedMap.mem_keys_insert.1 (mem_modifyDecls (f := (·.insert origin decl)) h)
    | inclusion m target args =>
      change o ∈ (Engine.scheduleDependents _ m).world.origins _ at h
      rw [Engine.scheduleDependents, world_scheduleAll] at h
      have hmem := mem_modifyIncludes (f := (·.insert (origin, target) args)) h
      exact (OrderedMap.mem_keys_insert.1 hmem).imp (congrArg Prod.fst) mem_origins_inclusion.2
    | const key =>
      change o ∈ (e.addConstDef key origin).2.world.origins _ at h
      rw [world_addConstDef] at h
      obtain ⟨c, hc, hmem⟩ := mem_constDefs (f := (·.insert origin)) h
      refine (OrderedSet.mem_insert.1 hmem).symm.imp_right fun hmem => ?_
      rw [← (e.stays_ensureConst key).origins]
      exact mem_origins_const.2 ⟨c, hc, hmem⟩
    | ivar key =>
      change o ∈ (e.addIvarDef key origin).2.world.origins _ at h
      rw [world_addIvarDef] at h
      obtain ⟨i, hi, hmem⟩ := mem_ivarDefs (f := (·.insert origin)) h
      refine (OrderedSet.mem_insert.1 hmem).symm.imp_right fun hmem => ?_
      rw [← (e.stays_ensureIvar key).origins]
      exact mem_origins_ivar.2 ⟨i, hi, hmem⟩
    | «alias» key target =>
      change o ∈ (Engine.scheduleCallsites _ key).world.origins _ at h
      rw [Engine.scheduleCallsites, world_scheduleAll] at h
      have hmem := mem_aliases (f := (·.insert origin target)) h
      exact (OrderedMap.mem_keys_insert.1 hmem).imp_right mem_origins_alias.2
  · rw [(revises_enter e origin entry).origins r hr] at h
    exact .inl h

theorem mem_origins_unregister {reg : Registration}
    (h : o ∈ (e.unregister origin reg).world.origins r) :
    o ∈ e.world.origins r ∧ ¬(o = origin ∧ r = reg) := by
  by_cases hr : r = reg
  · subst hr
    refine And.imp_right (fun hne heq => hne heq.1) (?_ : _ ∧ o ≠ origin)
    cases r with
    | module m =>
      change o ∈ ((e.removeModuleDecl m origin).world.get m).decls.keys at h
      rw [world_removeModuleDecl, withdraw, (get_refresh _ m m).1] at h
      exact OrderedMap.mem_keys_erase.1 (mem_modifyDecls (f := (·.erase origin)) h)
    | inclusion m target =>
      change o ∈ (e.removeInclude m origin target).world.origins _ at h
      unfold Engine.removeInclude at h
      split at h
      · rw [Engine.scheduleDependents, world_scheduleAll] at h
        obtain ⟨hmem, hne⟩ := OrderedMap.mem_keys_erase.1
          (mem_modifyIncludes (f := (·.erase (origin, target))) h)
        exact ⟨mem_origins_inclusion.2 hmem, fun heq => hne (heq ▸ rfl)⟩
      · next hnot =>
        refine ⟨h, ?_⟩
        rintro rfl
        exact hnot (OrderedMap.contains_iff.2 (mem_origins_inclusion.1 h))
    | const key =>
      change o ∈ (e.removeConstDef key origin).world.origins _ at h
      rw [world_removeConstDef] at h
      obtain ⟨c, hc, hmem⟩ := mem_constDefs (f := (·.erase origin)) h
      refine (OrderedSet.mem_erase.1 hmem).imp_left fun hmem => ?_
      rw [← (e.stays_ensureConst key).origins]
      exact mem_origins_const.2 ⟨c, hc, hmem⟩
    | ivar key =>
      change o ∈ (e.removeIvarDef key origin).world.origins _ at h
      rw [world_removeIvarDef] at h
      obtain ⟨i, hi, hmem⟩ := mem_ivarDefs (f := (·.erase origin)) h
      refine (OrderedSet.mem_erase.1 hmem).imp_left fun hmem => ?_
      rw [← (e.stays_ensureIvar key).origins]
      exact mem_origins_ivar.2 ⟨i, hi, hmem⟩
    | «alias» key =>
      change o ∈ (Engine.scheduleCallsites _ key).world.origins _ at h
      rw [Engine.scheduleCallsites, world_scheduleAll] at h
      have hmem := mem_aliases (f := (·.erase origin)) h
      exact (OrderedMap.mem_keys_erase.1 hmem).imp_left mem_origins_alias.2
  · rw [(revises_unregister e origin reg).origins r hr] at h
    exact ⟨h, fun heq => hr heq.2⟩

theorem mem_origins_rekey {old new : DefOrigin} {reg : Registration}
    (h : o ∈ (e.rekey old new reg).world.origins r) :
    o ∈ e.world.origins r ∧ ¬(o = old ∧ r = reg) ∨ o = new ∧ r = reg := by
  by_cases hr : r = reg
  · subst hr
    refine Or.imp (And.imp_right fun hne heq => hne heq.1) (⟨·, rfl⟩) (?_ : _ ∧ o ≠ old ∨ o = new)
    cases r with
    | module m => exact OrderedMap.mem_keys_rekey (mem_modifyDecls (f := (·.rekey old new)) h)
    | inclusion m target =>
      have hmem := mem_modifyIncludes (f := (·.rekey (old, target) (new, target))) h
      refine (OrderedMap.mem_keys_rekey hmem).imp (fun ⟨hmem, hne⟩ => ?_) (congrArg Prod.fst)
      exact ⟨mem_origins_inclusion.2 hmem, fun heq => hne (heq ▸ rfl)⟩
    | const key =>
      obtain ⟨c, hc, hmem⟩ := mem_constDefs (f := (·.rename old new)) h
      refine (OrderedSet.mem_rename hmem).imp_left (And.imp_left fun hmem => ?_)
      exact mem_origins_const.2 ⟨c, hc, hmem⟩
    | ivar key =>
      obtain ⟨i, hi, hmem⟩ := mem_ivarDefs (f := (·.rename old new)) h
      refine (OrderedSet.mem_rename hmem).imp_left (And.imp_left fun hmem => ?_)
      exact mem_origins_ivar.2 ⟨i, hi, hmem⟩
    | «alias» key =>
      have hmem := mem_aliases (f := (·.rekey old new)) h
      exact (OrderedMap.mem_keys_rekey hmem).imp_left (And.imp_left mem_origins_alias.2)
  · rw [(revises_rekey e old new reg).origins r hr] at h
    exact .inl ⟨h, fun heq => hr heq.2⟩

theorem mem_origins_adoptNode {old : NodeId} {record : NodeRecord} {new : Node} {path : String}
    {rename : NodeId → NodeId} (hr : e.record? old = some record)
    (h : o ∈ (e.adoptNode path rename new old).world.origins r) :
    o ∈ e.world.origins r ∧ ¬(o = .node old ∧ r ∈ record.registrations) ∨
      o = .node new.id ∧ r ∈ record.registrations := by
  have hfold : ∀ (regs : List Registration) (e : Engine),
      o ∈ (regs.foldl (fun e r => e.rekey (.node old) (.node new.id) r) e).world.origins r →
        o ∈ e.world.origins r ∧ ¬(o = .node old ∧ r ∈ regs) ∨ o = .node new.id ∧ r ∈ regs := by
    intro regs
    induction regs with
    | nil => exact fun e h => .inl ⟨h, fun hin => absurd hin.2 List.not_mem_nil⟩
    | cons reg regs ih =>
      intro e h
      rcases ih _ h with ⟨hmem, hnot⟩ | ⟨ho, hin⟩
      · rcases mem_origins_rekey hmem with ⟨hmem, hne⟩ | ⟨ho, rfl⟩
        · refine .inl ⟨hmem, fun ⟨ho, hin⟩ => ?_⟩
          rcases List.mem_cons.1 hin with hreg | hin
          · exact hne ⟨ho, hreg⟩
          · exact hnot ⟨ho, hin⟩
        · exact .inr ⟨ho, List.mem_cons_self⟩
      · exact .inr ⟨ho, List.mem_cons_of_mem _ hin⟩
  obtain ⟨e0, hworld, he⟩ := exists_world_adoptNode hr path rename new
  rw [he] at h
  rw [← hworld]
  exact hfold _ e0 h

section Tables

variable (e : Engine) (origin : DefOrigin) (m : ModuleId)

theorem includes_enter (entry : Entry) :
    ((e.enter origin entry).world.get m).includes = (e.world.get m).includes ∨
      ∃ target args, entry = .inclusion m target args ∧
        ((e.enter origin entry).world.get m).includes =
          (e.world.get m).includes.insert (origin, target) args := by
  by_cases hr : ∀ target, entry.registration ≠ .inclusion m target
  · exact .inl ((revises_enter e origin entry).includes m hr)
  · push Not at hr
    obtain ⟨target, hr⟩ := hr
    cases entry with
    | inclusion m' target' args =>
      cases hr
      have hworld : (e.enter origin (.inclusion m target args)).world = e.world.modify m fun x =>
          { x with includes := x.includes.insert (origin, target) args } := by
        show (Engine.scheduleDependents _ m).world = _
        rw [Engine.scheduleDependents, world_scheduleAll]
        rfl
      rw [hworld, get_modify]
      split
      · exact .inr ⟨target, args, rfl, rfl⟩
      · exact .inl rfl
    | _ => cases hr

theorem includes_unregister (r : Registration) :
    ((e.unregister origin r).world.get m).includes = (e.world.get m).includes ∨
      ∃ target, r = .inclusion m target ∧ ((e.unregister origin r).world.get m).includes =
        (e.world.get m).includes.erase (origin, target) := by
  by_cases hr : ∀ target, r ≠ .inclusion m target
  · exact .inl ((revises_unregister e origin r).includes m hr)
  · push Not at hr
    obtain ⟨target, rfl⟩ := hr
    show ((e.removeInclude m origin target).world.get m).includes = _ ∨ ∃ t, _ ∧
      ((e.removeInclude m origin target).world.get m).includes = _
    unfold Engine.removeInclude
    split
    · rw [Engine.scheduleDependents, world_scheduleAll]
      show (World.get (World.modify _ m _) m).includes = _ ∨ ∃ t, _ ∧
        (World.get (World.modify _ m _) m).includes = _
      rw [get_modify]
      split
      · exact .inr ⟨target, rfl, rfl⟩
      · exact .inl rfl
    · exact .inl rfl

theorem includes_rekey (new : DefOrigin) (r : Registration) :
    ((e.rekey origin new r).world.get m).includes = (e.world.get m).includes ∨
      ∃ target, r = .inclusion m target ∧ ((e.rekey origin new r).world.get m).includes =
        (e.world.get m).includes.rekey (origin, target) (new, target) := by
  by_cases hr : ∀ target, r ≠ .inclusion m target
  · exact .inl ((revises_rekey e origin new r).includes m hr)
  · push Not at hr
    obtain ⟨target, rfl⟩ := hr
    show (World.get (World.modify _ m _) m).includes = _ ∨ ∃ t, _ ∧
      (World.get (World.modify _ m _) m).includes = _
    rw [get_modify]
    split
    · exact .inr ⟨target, rfl, rfl⟩
    · exact .inl rfl

theorem decls_enter (entry : Entry) :
    ((e.enter origin entry).world.get m).decls = (e.world.get m).decls ∨
      ∃ decl, entry = .module m decl ∧ ((e.enter origin entry).world.get m).decls =
        (e.world.get m).decls.insert origin decl := by
  by_cases hr : entry.registration = .module m
  · cases entry with
    | module m' decl =>
      cases hr
      show ((e.addModuleDecl m origin decl).world.get m).decls = _ ∨ ∃ t, _ ∧
        ((e.addModuleDecl m origin decl).world.get m).decls = _
      rw [world_addModuleDecl, declare, (get_refresh _ m m).1, get_modify]
      split
      · exact .inr ⟨decl, rfl, rfl⟩
      · exact .inl rfl
    | _ => cases hr
  · exact .inl ((revises_enter e origin entry).decls m hr)

theorem decls_unregister (r : Registration) :
    ((e.unregister origin r).world.get m).decls = (e.world.get m).decls ∨
      r = .module m ∧ ((e.unregister origin r).world.get m).decls =
        (e.world.get m).decls.erase origin := by
  by_cases hr : r = .module m
  · subst hr
    show ((e.removeModuleDecl m origin).world.get m).decls = _ ∨ _ ∧
      ((e.removeModuleDecl m origin).world.get m).decls = _
    rw [world_removeModuleDecl, withdraw, (get_refresh _ m m).1, get_modify]
    split
    · exact .inr ⟨rfl, rfl⟩
    · exact .inl rfl
  · exact .inl ((revises_unregister e origin r).decls m hr)

theorem decls_rekey (new : DefOrigin) (r : Registration) :
    ((e.rekey origin new r).world.get m).decls = (e.world.get m).decls ∨
      r = .module m ∧ ((e.rekey origin new r).world.get m).decls =
        (e.world.get m).decls.rekey origin new := by
  by_cases hr : r = .module m
  · subst hr
    show (World.get (World.modify _ m _) m).decls = _ ∨ _ ∧
      (World.get (World.modify _ m _) m).decls = _
    rw [get_modify]
    split
    · exact .inr ⟨rfl, rfl⟩
    · exact .inl rfl
  · exact .inl ((revises_rekey e origin new r).decls m hr)

end Tables

end Engine

def DefOrigin.native : DefOrigin → Bool
  | .builtin => true
  | .node _ => false

structure World.SameNative (w w' : World) : Prop where
  size : w.modules.size ≤ w'.modules.size
  path : ∀ m, w.Knows m → (w'.get m).path = (w.get m).path
  decls : ∀ m, (w'.get m).decls.entries.filter (fun x => x.1.native) =
    (w.get m).decls.entries.filter fun x => x.1.native
  includes : ∀ m, (w'.get m).includes.entries.filter (fun x => x.1.1.native) =
    (w.get m).includes.entries.filter fun x => x.1.1.native
  origins : ∀ r, .builtin ∈ w'.origins r → .builtin ∈ w.origins r

namespace World.SameNative

variable {w w' w'' : World}

theorem refl (w : World) : SameNative w w :=
  ⟨Nat.le_refl _, fun _ _ => rfl, fun _ => rfl, fun _ => rfl, fun _ => id⟩

theorem trans (h : SameNative w w') (h' : SameNative w' w'') : SameNative w w'' :=
  ⟨h.size.trans h'.size, fun m hm => (h'.path m (Nat.lt_of_lt_of_le hm h.size)).trans (h.path m hm),
    fun m => (h'.decls m).trans (h.decls m), fun m => (h'.includes m).trans (h.includes m),
    fun r hr => h.origins r (h'.origins r hr)⟩

theorem of_agrees (h : Agrees w w') : SameNative w w' where
  size := h.size
  path := h.path
  decls m := by rw [(h.akin m).decls]
  includes m := by rw [(h.akin m).includes]
  origins r hr := cast (congrArg (.builtin ∈ ·) ((h.akin r.home).origins r)) hr

end World.SameNative

namespace Engine

open World

variable (e : Engine)

theorem sameNative_define (n : NodeId) (entry : Entry) :
    SameNative e.world (e.define n entry).world where
  size := (revises_enter e (.node n) entry).size
  path := (revises_enter e (.node n) entry).path
  decls m := by
    rcases decls_enter e (.node n) m entry with hsame | ⟨decl, -, hdecls⟩
    · exact congrArg (fun t => t.entries.filter fun x => x.1.native) hsame
    · refine (congrArg (fun t => t.entries.filter fun x => x.1.native) hdecls).trans ?_
      exact OrderedMap.filter_insert (p := DefOrigin.native) rfl decl
  includes m := by
    rcases includes_enter e (.node n) m entry with hsame | ⟨target, args, -, hincludes⟩
    · exact congrArg (fun t => t.entries.filter fun x => x.1.1.native) hsame
    · refine (congrArg (fun t => t.entries.filter fun x => x.1.1.native) hincludes).trans ?_
      exact OrderedMap.filter_insert (p := fun k : DefOrigin × ModuleId => k.1.native) rfl args
  origins r hr := (mem_origins_enter hr).resolve_right fun h => by cases h.1

theorem sameNative_unregister (n : NodeId) (r : Registration) :
    SameNative e.world (e.unregister (.node n) r).world where
  size := (revises_unregister e (.node n) r).size
  path := (revises_unregister e (.node n) r).path
  decls m := by
    rcases decls_unregister e (.node n) m r with hsame | ⟨-, hdecls⟩
    · rw [hsame]
    · rw [hdecls]
      exact OrderedMap.filter_erase (p := DefOrigin.native) rfl
  includes m := by
    rcases includes_unregister e (.node n) m r with hsame | ⟨target, -, hincludes⟩
    · rw [hsame]
    · rw [hincludes]
      exact OrderedMap.filter_erase (p := fun k : DefOrigin × ModuleId => k.1.native) rfl
  origins r hr := (mem_origins_unregister hr).1

theorem sameNative_rekey (old new : NodeId) (r : Registration) :
    SameNative e.world (e.rekey (.node old) (.node new) r).world where
  size := (revises_rekey e (.node old) (.node new) r).size
  path := (revises_rekey e (.node old) (.node new) r).path
  decls m := by
    rcases decls_rekey e (.node old) m (.node new) r with hsame | ⟨-, hdecls⟩
    · rw [hsame]
    · rw [hdecls]
      exact OrderedMap.filter_rekey (p := DefOrigin.native) rfl rfl
  includes m := by
    rcases includes_rekey e (.node old) m (.node new) r with hsame | ⟨target, -, hincludes⟩
    · rw [hsame]
    · rw [hincludes]
      exact OrderedMap.filter_rekey (p := fun k : DefOrigin × ModuleId => k.1.native) rfl rfl
  origins r hr := ((mem_origins_rekey hr).resolve_right fun h => by cases h.1).1

end Engine

theorem State.Move.sameNative {s s' : State} (hm : Move s s') :
    World.SameNative s.engine.world s'.engine.world := by
  have ha := hm.amends
  generalize s'.engine = e', s'.progress.log = log at ha ⊢
  cases ha with
  | upholds hup => exact .of_agrees hup.world
  | @define n _ entry => exact s.engine.sameNative_define n entry
  | @unregister n _ _ r => exact s.engine.sameNative_unregister n r
  | adopt _ path rename new old =>
    exact Engine.world_adoptNode (P := World.SameNative s.engine.world) (.refl _) path rename new
      old
      fun e r he => he.trans (e.sameNative_rekey old new.id r)

namespace State

variable {s s' : State} {e e' : Engine} {ts ts' : List Task} {d d' : Progress}

def Holds (s : State) (n : NodeId) (r : NodeRecord) : Prop :=
  s.engine.record? n = some r ∨ s.progress.lifted = some (n, r)

def Signed (s : State) : Prop := ∀ reg n, .node n ∈ s.engine.world.origins reg →
  ∃ r, s.Holds n r ∧ reg ∈ r.registrations

theorem Signed.grow (h : Signed ⟨e, ts, d⟩)
    (ho : ∀ reg n, .node n ∈ e'.world.origins reg → .node n ∈ e.world.origins reg)
    (hr : ∀ n r, e.record? n = some r →
      ∃ r', e'.record? n = some r' ∧ r.registrations ⊆ r'.registrations)
    (hl : ∀ n r, d.lifted = some (n, r) →
      ∃ r', d'.lifted = some (n, r') ∧ r.registrations ⊆ r'.registrations) :
    Signed ⟨e', ts', d'⟩ := by
  intro reg n hn
  obtain ⟨r, hholds, hreg⟩ := h reg n (ho reg n hn)
  rcases hholds with hrec | hlift
  · obtain ⟨r', hr', hsub⟩ := hr n r hrec
    exact ⟨r', .inl hr', hsub hreg⟩
  · obtain ⟨r', hr', hsub⟩ := hl n r hlift
    exact ⟨r', .inr hr', hsub hreg⟩

theorem Signed.keep (h : Signed ⟨e, ts, d⟩) (ho : ∀ reg, e'.world.origins reg = e.world.origins reg)
    (hn : e'.nodes = e.nodes) (hl : d'.lifted = d.lifted) : Signed ⟨e', ts', d'⟩ :=
  h.grow (fun reg _ hn => ho reg ▸ hn)
    (fun n r hr => ⟨r, (congrArg (OrderedMap.get? · n) hn).trans hr, fun _ => id⟩)
    fun _ r hr => ⟨r, hl.trans hr, fun _ => id⟩

theorem Signed.edit (h : Signed ⟨e, ts, d⟩) (n : NodeId) {f : NodeRecord → NodeRecord}
    (ho : ∀ reg, e'.world.origins reg = e.world.origins reg) (hn : e'.nodes =
      (e.modifyNode n f).nodes)
    (hf : ∀ r, (f r).registrations = r.registrations) (hl : d'.lifted = d.lifted) :
    Signed ⟨e', ts', d'⟩ := by
  refine h.grow (fun reg _ hn => ho reg ▸ hn) (fun m r hr => ?_)
    fun _ r hr => ⟨r, hl.trans hr, fun _ => id⟩
  have hget : e'.record? m = (e.modifyNode n f).record? m := congrArg (OrderedMap.get? · m) hn
  rw [hget, Engine.record?_modifyNode]
  split
  · exact ⟨f r, by rw [hr]; rfl, fun _ hreg => (hf r).symm ▸ hreg⟩
  · exact ⟨r, hr, fun _ => id⟩

theorem Signed.relift (h : Signed ⟨e, ts, d⟩) {n : NodeId} {r r' : NodeRecord}
    (ho : ∀ reg n, .node n ∈ e'.world.origins reg → .node n ∈ e.world.origins reg)
    (hn : e'.nodes = e.nodes) (hl : d.lifted = some (n, r)) (hl' : d'.lifted = some (n, r'))
    (hr : r.registrations ⊆ r'.registrations) : Signed ⟨e', ts', d'⟩ := by
  refine h.grow ho (fun m x hx => ⟨x, (congrArg (OrderedMap.get? · m) hn).trans hx, fun _ => id⟩)
    fun m x hx => ?_
  cases hl.symm.trans hx
  exact ⟨r', hl', hr⟩

theorem Signed.adopt {old : NodeId} {new : Node} {record : NodeRecord} (h : Signed ⟨e, ts, d⟩)
    (hr : e.record? old = some record) (hnew : e.record? new.id = none) (hl : d.lifted = none)
    (path : String) (rename : NodeId → NodeId) :
    Signed ⟨e.adoptNode path rename new old, ts', d'⟩ := by
  intro reg n hn
  obtain ⟨record', hinherits, hget⟩ := Engine.record?_adoptNode hr path rename new
  rcases Engine.mem_origins_adoptNode hr hn with ⟨hmem, hnot⟩ | ⟨ho, hreg⟩
  · obtain ⟨r, hholds, hreg⟩ := h reg n hmem
    have hrec := hholds.resolve_right fun hlift => by cases hl.symm.trans hlift
    have hold : old ≠ n := by
      rintro rfl
      cases hr.symm.trans hrec
      exact hnot ⟨rfl, hreg⟩
    have hne : new.id ≠ n := by
      rintro rfl
      cases hnew.symm.trans hrec
    refine ⟨r, .inl ?_, hreg⟩
    rw [show Engine.record? _ n = _ from hget n, if_neg hne, if_neg hold]
    exact hrec
  · cases ho
    refine ⟨record', .inl ?_, hinherits.registrations ▸ hreg⟩
    rw [show Engine.record? _ new.id = _ from hget new.id, if_pos rfl]

theorem Signed.move (h : s.Signed) (hm : Move s s') (hk : s.Kept) (hc : s'.Called) : s'.Signed := by
  obtain ⟨roll, hroll⟩ := hm.called hc
  have hhomed := hk.homed roll hroll
  cases hm with
  | aside hq => exact h.keep hq.entries.origins hq.nodes rfl
  | @sweep e d ho =>
    refine h.keep (fun reg => ?_) (Engine.nodes_reclaim e) rfl
    show e.reclaim.2.world.origins reg = _
    unfold Engine.reclaim
    split <;> rfl
  | @start e d n path span hl =>
    refine h.grow (fun _ _ => id) (fun m r hr => ⟨r, ?_, fun _ => id⟩) fun m r hr => ⟨r, hr,
      fun _ => id⟩
    have hne : n ≠ m := by
      rintro rfl
      cases hr.symm.trans (hk.start hc rfl)
    rw [Engine.record?_insert, if_neg hne]
    exact hr
  | annotate n ha => exact h.edit n (fun _ => rfl) rfl ha.registrations rfl
  | ownVertex n label => exact h.edit n (fun _ => rfl) rfl (fun _ => by rfl) rfl
  | ownSource | closeNode => exact h.edit _ (fun _ => rfl) rfl (fun _ => by rfl) rfl
  | @define e ts d n entry hn ht =>
    have hstock := Engine.SameStock.enter e (.node n) entry
    intro reg m hm
    have hrecord : ∀ m, (e.define n entry).record? m = if n = m then (e.record? m).map fun r =>
        { r with registrations := r.registrations ++ [entry.registration] } else e.record? m :=
          fun m => by
      unfold Engine.define
      rw [Engine.record?_modifyNode, show (e.enter (.node n) entry).record? m = e.record? m from
        congrArg (OrderedMap.get? · m) hstock.nodes]
    rcases Engine.mem_origins_enter (e := e) hm with hmem | ⟨ho, rfl⟩
    · obtain ⟨r, hholds, hreg⟩ := h reg m hmem
      rcases hholds with hrec | hlift
      · by_cases hnm : n = m
        · exact ⟨_, .inl ((hrecord m).trans
            (by rw [if_pos hnm, show e.record? m = some r from hrec]; rfl)),
            List.mem_append_left _ hreg⟩
        · exact ⟨r, .inl ((hrecord m).trans ((if_neg hnm).trans hrec)), hreg⟩
      · exact ⟨r, .inr hlift, hreg⟩
    · cases ho
      obtain ⟨r, hr⟩ := (hhomed.keys n).1 (hhomed.mem_keys_of_opens (Roll.young_subset hroll) hn)
      exact ⟨_, .inl ((hrecord n).trans
        (by rw [if_pos rfl, show e.record? n = some r from hr]; rfl)),
        List.mem_append_right _ (List.mem_singleton_self _)⟩
  | @installBlock e ts d b rest returns ho =>
    have hblock : Signed ⟨(e.addBlock b).2, ts, d⟩ := h.keep (fun _ => rfl) rfl rfl
    have hreturns : Signed ⟨(e.addBlock b).2.modifyNode b.node fun r => { r with returns }, ts,
      d⟩ :=
      hblock.edit b.node (fun _ => rfl) rfl (fun _ => by rfl) rfl
    exact hreturns.edit b.node (fun _ => rfl) rfl (fun _ => by rfl) rfl
  | @adopt e d path rename new old hl =>
    obtain ⟨⟨record, hrecord⟩, hnone⟩ := hk.adopt hc rfl
    exact h.adopt hrecord hnone hl path rename
  | @lift e d n x hx hh hl ho =>
    intro reg m hm
    obtain ⟨r, hholds, hreg⟩ := h reg m hm
    have hrec := hholds.resolve_right fun hlift => by cases hl.symm.trans hlift
    by_cases hnm : n = m
    · subst hnm
      cases hx.symm.trans hrec
      exact ⟨x, .inr rfl, hreg⟩
    · exact ⟨r, .inl (by rw [Engine.record?_erase, if_neg hnm]; exact hrec), hreg⟩
  | openLifted hl | clearSite hl => exact h.relift (fun _ _ => id) rfl hl rfl fun _ => id
  | buryLifted hl hh hv =>
    exact h.relift (fun _ _ hn => by rwa [Engine.destroyVertex,
      (Engine.exists_adoptGraph_eq _ _).choose_spec] at hn)
      (Engine.SameStock.adoptGraph _ _).nodes hl rfl fun _ => id
  | @removeBlock e d n x hl =>
    rw [(Engine.exists_removeBlock_eq e x.block).choose_spec]
    exact h.relift (fun _ _ => id) rfl hl rfl fun _ => id
  | @unregister e d n x regs reg hl hx =>
    intro reg' m hm
    obtain ⟨hmem, hne⟩ := Engine.mem_origins_unregister hm
    obtain ⟨r, hholds, hreg⟩ := h reg' m hmem
    rcases hholds with hrec | hlift
    · refine ⟨r, .inl ?_, hreg⟩
      exact (congrArg (OrderedMap.get? · m) (Engine.SameStock.unregister e
        (.node n) reg).nodes).trans hrec
    · cases hl.symm.trans hlift
      refine ⟨_, .inr rfl, ?_⟩
      rw [hx, List.mem_append, List.mem_singleton] at hreg
      exact hreg.resolve_right fun heq => hne ⟨rfl, heq⟩
  | @putDown e d n x hl he hs hx hblock hv =>
    intro reg m hm
    obtain ⟨r, hholds, hreg⟩ := h reg m hm
    rcases hholds with hrec | hlift
    · exact ⟨r, .inl hrec, hreg⟩
    · cases hl.symm.trans hlift
      rw [hx] at hreg
      exact absurd hreg List.not_mem_nil
  | @beginDestroy e ts d u x hx hlive hs =>
    exact h.edit (f := fun r => { r with sites := r.sites.erase u }) x.node
      (fun reg => ((Engine.Upholds.destroying e u x).world.akin reg.home).origins reg)
      (Engine.nodes_destroying e u x) (fun _ => rfl) rfl
  | @placeSite e ts d t ask ha hk =>
    exact h.edit (f := fun r => { r with sites := r.sites.insert (e.placeSite ask.2.1 ask.2.2).1 })
      ask.2.1 (fun reg => ((Engine.Upholds.placeSite e _ _).world.akin reg.home).origins reg)
      (Engine.nodes_placeSite e _ _) (fun _ => rfl) rfl
  | @installEdges e ts d t =>
    refine h.keep (fun reg => ?_) (Engine.SameStock.installEdges ⟨e, t.effects⟩).nodes rfl
    obtain ⟨graph, queue, he, -⟩ := Engine.Rewires.installEdges e t.effects
    rw [he]
  | bury hh =>
    exact h.keep (fun _ => by rw [Engine.destroyVertex,
      (Engine.exists_adoptGraph_eq _ _).choose_spec])
      (Engine.SameStock.adoptGraph _ _).nodes rfl
  | note | forget => exact h.keep (World.Stays.watch _ _ _).origins rfl rfl
  | _ => exact h.keep (fun _ => rfl) rfl rfl

end State

end TypeFlow
