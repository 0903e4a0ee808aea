import TypeFlow.Proofs.Compound
import TypeFlow.Proofs.Entries
import TypeFlow.Proofs.Hierarchy

/-!
# Definitions are revised one at a time

Making a definition, withdrawing it and handing it over to another node change what is entered under
one registration. Everything that is entered under others stays, and so do the sites posted and the
vertices named; only a declaration brings a new lineage along, and only to its own module.
-/

set_option autoImplicit false

namespace TypeFlow

namespace World

structure Revises (r : Registration) (w w' : World) : Prop where
  size : w.modules.size ≤ w'.modules.size
  path : ∀ m, w.Knows m → (w'.get m).path = (w.get m).path
  posts : ∀ p, w'.posts p = w.posts p
  origins : ∀ r', r' ≠ r → w'.origins r' = w.origins r'
  consts : ∀ m name v, (w.get m).constVertex? name = some v →
    (w'.get m).constVertex? name = some v
  ivars : ∀ m b name v, (w.get m).ivarVertex? b name = some v →
    (w'.get m).ivarVertex? b name = some v
  lineage : ∀ m, r ≠ .module m → (w'.get m).lineage = (w.get m).lineage
  decls : ∀ m, r ≠ .module m → (w'.get m).decls = (w.get m).decls
  includes : ∀ m, (∀ target, r ≠ .inclusion m target) → (w'.get m).includes = (w.get m).includes

namespace Revises

variable {r : Registration} {w w' w'' : World}

theorem knows (h : Revises r w w') {m : ModuleId} (hm : w.Knows m) : w'.Knows m :=
  Nat.lt_of_lt_of_le hm h.size

theorem trans (h : Revises r w w') (h' : Revises r w' w'') : Revises r w w'' where
  size := h.size.trans h'.size
  path m hm := (h'.path m (h.knows hm)).trans (h.path m hm)
  posts p := (h'.posts p).trans (h.posts p)
  origins r' hr := (h'.origins r' hr).trans (h.origins r' hr)
  consts m name v hv := h'.consts m name v (h.consts m name v hv)
  ivars m b name v hv := h'.ivars m b name v (h.ivars m b name v hv)
  lineage m hm := (h'.lineage m hm).trans (h.lineage m hm)
  decls m hm := (h'.decls m hm).trans (h.decls m hm)
  includes m hm := (h'.includes m hm).trans (h.includes m hm)

theorem of_stays (h : Stays w w') : Revises r w w' where
  size := h.size
  path := h.path
  posts := h.posts
  origins r' _ := h.origins r'
  consts m := (h.same m).consts
  ivars m := (h.same m).ivars
  lineage m _ := (h.same m).lineage
  decls m _ := (h.same m).decls
  includes m _ := (h.same m).includes

theorem modify {m : ModuleId} {f : Module → Module} (hpath : (f (w.get m)).path = (w.get m).path)
    (hposts : ∀ p, (f (w.get m)).posts p = (w.get m).posts p)
    (horigins : ∀ r', r'.home = m → r' ≠ r → (f (w.get m)).origins r' = (w.get m).origins r')
    (hconsts : ∀ name v, (w.get m).constVertex? name = some v →
      (f (w.get m)).constVertex? name = some v)
    (hivars : ∀ b name v, (w.get m).ivarVertex? b name = some v →
      (f (w.get m)).ivarVertex? b name = some v)
    (hlineage : r ≠ .module m → (f (w.get m)).lineage = (w.get m).lineage)
    (hdecls : r ≠ .module m → (f (w.get m)).decls = (w.get m).decls)
    (hincludes : (∀ target, r ≠ .inclusion m target) →
      (f (w.get m)).includes = (w.get m).includes) : Revises r w (w.modify m f) := by
  have hget : ∀ (P : ModuleId → Module → Prop), P m (f (w.get m)) → (∀ u, P u (w.get u)) →
      ∀ u, P u ((w.modify m f).get u) := fun P hm hu u => by
    rw [get_modify]
    split
    · next h => exact h.1 ▸ hm
    · exact hu u
  exact {
    size := Nat.le_of_eq (size_modify ..).symm
    path := fun u _ => hget (fun u x => x.path = (w.get u).path) hpath (fun _ => rfl) u
    posts := fun p => hget (fun u x => x.posts p = (w.get u).posts p) (hposts p)
      (fun _ => rfl) p.module
    origins := fun r' hr => hget
      (fun u x => r'.home = u → x.origins r' = (w.get u).origins r')
      (fun h => horigins r' h hr) (fun _ _ => rfl) r'.home rfl
    consts := hget (fun u x => ∀ name v, (w.get u).constVertex? name = some v →
      x.constVertex? name = some v) hconsts fun _ _ _ => id
    ivars := hget (fun u x => ∀ b name v, (w.get u).ivarVertex? b name = some v →
      x.ivarVertex? b name = some v) hivars fun _ _ _ _ => id
    lineage := hget (fun u x => r ≠ .module u → x.lineage = (w.get u).lineage) hlineage
      fun _ _ => rfl
    decls := hget (fun u x => r ≠ .module u → x.decls = (w.get u).decls) hdecls fun _ _ => rfl
    includes := hget (fun u x => (∀ target, r ≠ .inclusion u target) →
      x.includes = (w.get u).includes) hincludes fun _ _ => rfl }

theorem modifyDecls (w : World) (m : ModuleId)
    (f : OrderedMap DefOrigin ModuleDecl → OrderedMap DefOrigin ModuleDecl) :
    Revises (.module m) w (w.modify m fun x => { x with decls := f x.decls }) := by
  refine modify rfl (fun p => by cases p <;> rfl) (fun r' hm hr => ?_) (fun _ _ => id)
    (fun _ _ _ => id) (fun _ => rfl) (fun h => absurd rfl h) fun _ => rfl
  cases r' with
  | module u => exact absurd (congrArg Registration.module hm) hr
  | inclusion | const | ivar | «alias» => rfl

theorem modifyIncludes (w : World) (m target : ModuleId)
    {f : OrderedMap (DefOrigin × ModuleId) (List SigType) →
      OrderedMap (DefOrigin × ModuleId) (List SigType)}
    (hf : ∀ t ≠ target, ∀ x, (f x).keys.filter (fun k => k.2 = t) = x.keys.filter fun k => k.2 =
      t) :
    Revises (.inclusion m target) w (w.modify m fun x => { x with includes := f x.includes }) := by
  refine modify rfl (fun p => by cases p <;> rfl) (fun r' hm hr => ?_) (fun _ _ => id)
    (fun _ _ _ => id) (fun _ => rfl) (fun _ => rfl) fun h => absurd rfl (h target)
  cases r' with
  | inclusion u t =>
    obtain rfl : u = m := hm
    exact congrArg (List.map Prod.fst) (hf t (fun h => hr (h ▸ rfl)) _)
  | module | const | ivar | «alias» => rfl

theorem constDefs (w : World) (key : ConstKey) (f : OrderedSet DefOrigin → OrderedSet DefOrigin) :
    Revises (.const key) w (w.modifyConst key fun c => { c with defs := f c.defs }) := by
  refine modify rfl (fun p => by cases p <;> rfl) (fun r' hm hr => ?_) (fun name v hv => ?_)
    (fun _ _ _ => id) (fun _ => rfl) (fun _ => rfl) fun _ => rfl
  · cases r' with
    | const key' =>
      have hne : key.name ≠ key'.name := fun hn => hr (by
        rw [show key' = key from by
          cases key
          cases key'
          simp_all [Registration.home]])
      simp only [Module.origins, OrderedMap.get?_modify, if_neg hne]
    | module | inclusion | ivar | «alias» => rfl
  · unfold Module.constVertex? at hv ⊢
    rw [OrderedMap.get?_modify]
    split
    · rw [Option.map_map]
      exact hv
    · exact hv

theorem ivarDefs (w : World) (key : MemberKey) (f : OrderedSet DefOrigin → OrderedSet DefOrigin) :
    Revises (.ivar key) w (w.modifyIvar key fun i => { i with defs := f i.defs }) := by
  refine modify rfl (fun p => by cases p <;> rfl) (fun r' hm hr => ?_) (fun _ _ => id)
    (fun b name v hv => ?_) (fun _ => rfl) (fun _ => rfl) fun _ => rfl
  · cases r' with
    | ivar key' =>
      simp only [Module.origins, Sided.get_modify]
      split
      · next hb =>
        have hne : key.name ≠ key'.name := fun hn => hr (by
          obtain ⟨⟨u, b⟩, name⟩ := key
          obtain ⟨⟨u', b'⟩, name'⟩ := key'
          simp_all [Registration.home])
        rw [OrderedMap.get?_modify, if_neg hne]
      · rfl
    | module | inclusion | const | «alias» => rfl
  · unfold Module.ivarVertex? at hv ⊢
    rw [Sided.get_modify]
    split
    · rw [OrderedMap.get?_modify]
      split
      · rw [Option.map_map]
        exact hv
      · exact hv
    · exact hv

theorem aliases (w : World) (key : MemberKey)
    (f : OrderedMap DefOrigin String → OrderedMap DefOrigin String) :
    Revises (.alias key) w (w.modifyMethod key fun m => { m with aliases := f m.aliases }) := by
  have hposts : ∀ (g : MethodEntity → List SiteId) (b : Bool) (name : String),
      (∀ m : MethodEntity, g { m with aliases := f m.aliases } = g m) → g {} = [] → _ :=
    fun g b name hg hempty => (w.get key.side.module).getD_map_methods hg hempty
      key.side.singleton b key.name name
  refine modify rfl (fun p => ?_) (fun r' hm hr => ?_) (fun _ _ => id) (fun _ _ _ => id)
    (fun _ => rfl) (fun _ => rfl) fun _ => rfl
  · cases p with
    | signature key' => exact hposts (fun m => m.decls.toList) _ _ (fun _ => rfl) rfl
    | body key' => exact hposts (fun m => m.defs.toList) _ _ (fun _ => rfl) rfl
    | reader => rfl
  · cases r' with
    | «alias» key' =>
      simp only [Module.origins, Sided.get_modify]
      split
      · next hb =>
        have hne : key.name ≠ key'.name := fun hn => hr (by
          obtain ⟨⟨u, b⟩, name⟩ := key
          obtain ⟨⟨u', b'⟩, name'⟩ := key'
          simp_all [Registration.home])
        rw [OrderedMap.get?_upsert, if_neg hne]
      · rfl
    | module | inclusion | const | ivar => rfl

theorem subclasses (w : World) (m : ModuleId) (f : OrderedSet ModuleId → OrderedSet ModuleId) :
    Revises r w (w.modify m fun x => { x with subclasses := f x.subclasses }) :=
  modify rfl (fun p => by cases p <;> rfl) (fun r' _ _ => by cases r' <;> rfl) (fun _ _ => id)
    (fun _ _ _ => id) (fun _ => rfl) (fun _ => rfl) fun _ => rfl

theorem moveSubclass (w : World) (m : ModuleId) (old new : Option ModuleId) :
    Revises r w (w.moveSubclass m old new) := by
  unfold World.moveSubclass
  split
  · exact of_stays (.refl w)
  · cases old with
    | none =>
      cases new with
      | none => exact of_stays (.refl w)
      | some p => exact subclasses w p (·.insert m)
    | some q =>
      cases new with
      | none => exact subclasses w q (·.erase m)
      | some p => exact (subclasses w q (·.erase m)).trans (subclasses _ p (·.insert m))

theorem refresh (w : World) (m : ModuleId) : Revises (.module m) w (w.refresh m).2 := by
  have hread : Stays w (w.declaredLineage m).2 := by
    rw [world_declaredLineage]
    cases w.namedParent m with
    | some ref => exact .resolve w ref.path
    | none => exact .refl w
  unfold World.refresh
  dsimp only
  split
  · exact of_stays hread
  · have hlineage : Revises (.module m) (w.declaredLineage m).2 ((w.declaredLineage m).2.modify m
        fun x => { x with lineage := (w.declaredLineage m).1 }) :=
      modify rfl (fun p => by cases p <;> rfl) (fun r' _ _ => by cases r' <;> rfl) (fun _ _ => id)
        (fun _ _ _ => id) (fun h => absurd rfl h) (fun _ => rfl) fun _ => rfl
    exact ((of_stays hread).trans hlineage).trans (moveSubclass _ _ _ _)

theorem redeclare (w : World) (m : ModuleId)
    (f : OrderedMap DefOrigin ModuleDecl → OrderedMap DefOrigin ModuleDecl) :
    Revises (.module m) w ((w.modify m fun x => { x with decls := f x.decls }).refresh m).2 :=
  (modifyDecls w m f).trans (refresh _ m)

end Revises

end World

namespace OrderedMap

variable {κ α : Type} [DecidableEq κ]

theorem keys_rekey (m : OrderedMap κ α) (k k' : κ) :
    (m.rekey k k').keys = m.keys.map fun x => if x = k then k' else x := by
  unfold keys rekey
  simp only [List.map_map]
  refine List.map_congr_left fun x _ => ?_
  by_cases h : x.1 = k <;> simp [h]

section Filter

variable {m : OrderedMap κ α} {k k' : κ} {p : κ → Bool}

theorem filter_insert (hp : p k = false) (a : α) :
    (m.insert k a).entries.filter (fun x => p x.1) = m.entries.filter fun x => p x.1 := by
  unfold insert
  split
  · unfold modify
    rw [List.filter_map]
    refine (List.map_congr_left fun x hx => if_neg ?_).trans (List.map_id _ |>.trans ?_)
    · rintro rfl
      simp_all
    · refine List.filter_congr fun x _ => ?_
      by_cases h : x.1 = k <;> simp [h]
  · simp [hp]

theorem filter_erase (hp : p k = false) :
    (m.erase k).entries.filter (fun x => p x.1) = m.entries.filter fun x => p x.1 := by
  unfold erase
  rw [List.filter_filter]
  refine List.filter_congr fun x _ => ?_
  by_cases h : x.1 = k <;> simp [h, hp]

theorem filter_rekey (hp : p k = false) (hp' : p k' = false) :
    (m.rekey k k').entries.filter (fun x => p x.1) = m.entries.filter fun x => p x.1 := by
  unfold rekey
  induction m.entries with
  | nil => rfl
  | cons x xs ih => by_cases h : x.1 = k <;> simp [List.filter_cons, h, hp, hp', ih]

omit [DecidableEq κ] in
theorem filter_keys (m : OrderedMap κ α) (p : κ → Bool) :
    m.keys.filter p = (m.entries.filter fun x => p x.1).map Prod.fst := by
  rw [keys, List.filter_map]
  rfl

theorem filter_keys_insert (hp : p k = false) (a : α) :
    (m.insert k a).keys.filter p = m.keys.filter p := by
  rw [filter_keys, filter_keys, filter_insert hp]

theorem filter_keys_erase (hp : p k = false) : (m.erase k).keys.filter p = m.keys.filter p := by
  rw [filter_keys, filter_keys, filter_erase hp]

theorem filter_keys_rekey (hp : p k = false) (hp' : p k' = false) :
    (m.rekey k k').keys.filter p = m.keys.filter p := by
  rw [filter_keys, filter_keys, filter_rekey hp hp']

end Filter

end OrderedMap

namespace Engine

open World

theorem stays_ensureConst (e : Engine) (key : ConstKey) :
    Stays e.world (e.ensureConst key).2.world := by
  unfold Engine.ensureConst
  split
  · exact .refl _
  · next h => exact .nameConst h rfl

theorem stays_ensureIvar (e : Engine) (key : MemberKey) :
    Stays e.world (e.ensureIvar key).2.world := by
  unfold Engine.ensureIvar
  split
  · exact .refl _
  · next h => exact .nameIvar h rfl

section Worlds

variable (e : Engine) (origin : DefOrigin)

theorem world_addModuleDecl (m : ModuleId) (decl : ModuleDecl) :
    (e.addModuleDecl m origin decl).world = (e.world.declare m origin decl).2 := by
  unfold Engine.addModuleDecl Engine.scheduleDependents
  dsimp only
  split <;> simp

theorem world_removeModuleDecl (m : ModuleId) :
    (e.removeModuleDecl m origin).world = (e.world.withdraw m origin).2 := by
  unfold Engine.removeModuleDecl Engine.scheduleDependents
  dsimp only
  split <;> simp

theorem world_addConstDef (key : ConstKey) : (e.addConstDef key origin).2.world =
    (e.ensureConst key).2.world.modifyConst key fun c => { c with defs := c.defs.insert origin } :=
      by
  unfold Engine.addConstDef Engine.scheduleFollowers
  dsimp only
  split
  · rfl
  · exact world_scheduleAll ..

theorem world_removeConstDef (key : ConstKey) : (e.removeConstDef key origin).world =
    (e.ensureConst key).2.world.modifyConst key fun c => { c with defs := c.defs.erase origin } :=
      by
  unfold Engine.removeConstDef Engine.scheduleFollowers
  dsimp only
  split
  · exact world_scheduleAll ..
  · rfl

theorem world_addIvarDef (key : MemberKey) : (e.addIvarDef key origin).2.world =
    (e.ensureIvar key).2.world.modifyIvar key fun i => { i with defs := i.defs.insert origin } := by
  unfold Engine.addIvarDef Engine.scheduleIvarReads
  dsimp only
  split
  · rfl
  · exact world_scheduleAll ..

theorem world_removeIvarDef (key : MemberKey) : (e.removeIvarDef key origin).world =
    (e.ensureIvar key).2.world.modifyIvar key fun i => { i with defs := i.defs.erase origin } := by
  unfold Engine.removeIvarDef Engine.scheduleIvarReads
  dsimp only
  split
  · exact world_scheduleAll ..
  · rfl

end Worlds

theorem revises_enter (e : Engine) (origin : DefOrigin) (entry : Entry) :
    Revises entry.registration e.world (e.enter origin entry).world := by
  cases entry with
  | module m decl =>
    show Revises _ _ (e.addModuleDecl m origin decl).world
    rw [world_addModuleDecl]
    exact .redeclare e.world m (·.insert origin decl)
  | inclusion m target args =>
    show Revises _ _ (Engine.scheduleDependents _ m).world
    rw [Engine.scheduleDependents, world_scheduleAll]
    exact .modifyIncludes e.world m target fun t ht x =>
      OrderedMap.filter_keys_insert (by simpa using ht.symm) args
  | const key =>
    show Revises _ _ (e.addConstDef key origin).2.world
    rw [world_addConstDef]
    exact (Revises.of_stays (e.stays_ensureConst key)).trans (.constDefs _ key (·.insert origin))
  | ivar key =>
    show Revises _ _ (e.addIvarDef key origin).2.world
    rw [world_addIvarDef]
    exact (Revises.of_stays (e.stays_ensureIvar key)).trans (.ivarDefs _ key (·.insert origin))
  | «alias» key target =>
    show Revises _ _ (Engine.scheduleCallsites _ key).world
    rw [Engine.scheduleCallsites, world_scheduleAll]
    exact .aliases e.world key (·.insert origin target)

theorem revises_unregister (e : Engine) (origin : DefOrigin) (r : Registration) :
    Revises r e.world (e.unregister origin r).world := by
  cases r with
  | module m =>
    show Revises _ _ (e.removeModuleDecl m origin).world
    rw [world_removeModuleDecl]
    exact .redeclare e.world m (·.erase origin)
  | inclusion m target =>
    show Revises _ _ (e.removeInclude m origin target).world
    unfold Engine.removeInclude
    split
    · rw [Engine.scheduleDependents, world_scheduleAll]
      exact .modifyIncludes e.world m target fun t ht x =>
        OrderedMap.filter_keys_erase (by simpa using ht.symm)
    · exact .of_stays (.refl _)
  | const key =>
    show Revises _ _ (e.removeConstDef key origin).world
    rw [world_removeConstDef]
    exact (Revises.of_stays (e.stays_ensureConst key)).trans (.constDefs _ key (·.erase origin))
  | ivar key =>
    show Revises _ _ (e.removeIvarDef key origin).world
    rw [world_removeIvarDef]
    exact (Revises.of_stays (e.stays_ensureIvar key)).trans (.ivarDefs _ key (·.erase origin))
  | «alias» key =>
    show Revises _ _ (Engine.scheduleCallsites _ key).world
    rw [Engine.scheduleCallsites, world_scheduleAll]
    exact .aliases e.world key (·.erase origin)

theorem revises_rekey (e : Engine) (old new : DefOrigin) (r : Registration) :
    Revises r e.world (e.rekey old new r).world := by
  cases r with
  | module m => exact .modifyDecls e.world m (·.rekey old new)
  | inclusion m target =>
    exact .modifyIncludes e.world m target fun t ht x =>
      OrderedMap.filter_keys_rekey (by simpa using ht.symm) (by simpa using ht.symm)
  | const key => exact .constDefs e.world key (·.rename old new)
  | ivar key => exact .ivarDefs e.world key (·.rename old new)
  | «alias» key => exact .aliases e.world key (·.rekey old new)

end Engine

end TypeFlow
