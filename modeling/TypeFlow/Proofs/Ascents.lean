import TypeFlow.Proofs.Navigation
import TypeFlow.Proofs.Readers

/-!
# Who is told of a change of the way up

A declaration can change where a look-up goes on from a module: its superclass may be another one,
and from its singleton side the way leads to `Module` as soon as it counts as no class. The sites
that consulted the module or a descendant are told when the lineage of the module changes. What
counts as a class is no part of the lineage, so a declaration that changes only this is kept to
itself.
-/

set_option autoImplicit false

namespace TypeFlow

open Relation State

namespace World

variable {w w' : World} {m : ModuleId}

def Heeds (w : World) (m : ModuleId) (u : SiteId) : Prop :=
  (∃ singleton, ∃ x ∈ ((w.get m).methods.get singleton).values, u ∈ x.callsites.toList) ∨
    (∃ c ∈ (w.get m).consts.values, u ∈ c.followers.toList) ∨
    u ∈ (w.get m).subclassChecks.toList ∨ u ∈ (w.get m).ivarReads.toList

theorem mem_dependents_iff {u : SiteId} :
    u ∈ w.dependents m ↔ ∃ d ∈ w.descendants m, w.Heeds d u := by
  unfold dependents Heeds
  rw [OrderedSet.mem_ofList, List.mem_flatMap]
  refine exists_congr fun d => and_congr_right fun _ => ?_
  simp only [List.mem_append, List.mem_flatMap, Sided.get, Bool.exists_bool, if_true,
    Bool.false_eq_true, if_false, or_and_right, exists_or, or_assoc]

structure Filed (x y : Module) : Prop where
  methods : y.methods = x.methods
  consts : y.consts = x.consts
  checks : y.subclassChecks = x.subclassChecks
  reads : y.ivarReads = x.ivarReads

theorem Filed.refl (x : Module) : Filed x x := ⟨rfl, rfl, rfl, rfl⟩

theorem Filed.trans {x y z : Module} (h : Filed x y) (h' : Filed y z) : Filed x z :=
  ⟨h'.methods.trans h.methods, h'.consts.trans h.consts, h'.checks.trans h.checks,
    h'.reads.trans h.reads⟩

theorem Filed.heeds_iff (h : Filed (w.get m) (w'.get m)) (u : SiteId) :
    w'.Heeds m u ↔ w.Heeds m u := by
  unfold Heeds
  rw [h.methods, h.consts, h.checks, h.reads]

theorem filed_modify (w : World) (m u : ModuleId) {f : Module → Module} (hf : ∀ x, Filed x (f x)) :
    Filed (w.get u) ((w.modify m f).get u) := by
  rw [get_modify]
  split
  · exact hf _
  · exact .refl _

theorem filed_resolve (w : World) (path : ConstPath) (u : ModuleId) :
    Filed (w.get u) ((w.resolve path).2.get u) := by
  unfold resolve
  split
  · exact .refl _
  · rw [get_push]
    split
    · next hu =>
      have hblank : w.get u = {} := get_of_not_knows fun h => by unfold Knows at h; omega
      rw [hblank]
      exact ⟨rfl, rfl, rfl, rfl⟩
    · exact .refl _

theorem filed_declaredLineage (w : World) (m u : ModuleId) :
    Filed (w.get u) ((w.declaredLineage m).2.get u) := by
  rw [world_declaredLineage]
  cases w.namedParent m with
  | none => exact .refl _
  | some ref => exact filed_resolve w ref.path u

theorem filed_refresh (w : World) (m u : ModuleId) : Filed (w.get u) ((w.refresh m).2.get u) := by
  have hread := filed_declaredLineage w m u
  unfold refresh
  dsimp only
  split
  · exact hread
  · refine hread.trans ((filed_modify (w.declaredLineage m).2 m u
      (f := fun x => { x with lineage := (w.declaredLineage m).1 })
      fun _ => ⟨rfl, rfl, rfl, rfl⟩).trans ?_)
    obtain ⟨_, hmoved⟩ := get_moveSubclass ((w.declaredLineage m).2.modify m fun x =>
      { x with lineage := (w.declaredLineage m).1 }) m
      ((w.declaredLineage m).2.get m).lineage.superclass (w.declaredLineage m).1.superclass u
    rw [hmoved]
    exact ⟨rfl, rfl, rfl, rfl⟩

theorem refresh_eq_true_iff (w : World) (m : ModuleId) :
    (w.refresh m).1 = true ↔ ((w.refresh m).2.get m).lineage ≠ (w.get m).lineage := by
  rw [(get_refresh w m m).2, if_pos rfl]
  have hbefore := (get_declaredLineage w m m).2.1
  unfold refresh
  dsimp only
  rw [hbefore]
  split
  · next hsame => simp [hsame]
  · next hne => simp [Ne.symm hne]

theorem mem_descendants_congr (h : w.Related) (h' : w'.Related)
    (hsame : ∀ a, a ≠ m → (w'.get a).superclass = (w.get a).superclass) (d : ModuleId) :
    d ∈ w'.descendants m ↔ d ∈ w.descendants m := by
  have hpath : ∀ {w w' : World}, (∀ a, a ≠ m → (w'.get a).superclass = (w.get a).superclass) →
      ReflTransGen (fun a b => (w.get a).superclass = some b) d m →
      ReflTransGen (fun a b => (w'.get a).superclass = some b) d m := by
    intro w w' hsame hd
    induction hd using ReflTransGen.head_induction_on with
    | refl => exact .refl
    | @head a b hab _ ih =>
      by_cases ha : a = m
      · rw [ha]
      · exact .head ((hsame a ha).trans hab) ih
  rw [h.mem_descendants_iff_mem_chain, h'.mem_descendants_iff_mem_chain, mem_chain_iff h.closed,
    mem_chain_iff h'.closed, reflTransGen_parent?_iff, reflTransGen_parent?_iff]
  exact ⟨hpath fun a ha => (hsame a ha).symm, hpath hsame⟩

end World

namespace Engine

variable {e e' : Engine} {m : ModuleId} {u : SiteId}

/-- The site is alive and heeds the module or a descendant. -/
def DependsBelow (e : Engine) (m : ModuleId) (u : SiteId) : Prop :=
  e.isLive u = true ∧ ∃ d ∈ e.world.descendants m, e.world.Heeds d u

def redeclare (e : Engine) (m : ModuleId)
    (f : OrderedMap DefOrigin ModuleDecl → OrderedMap DefOrigin ModuleDecl) : Engine :=
  let (changed, world) := (e.world.modify m fun x => { x with decls := f x.decls }).refresh m
  if changed then { e with world }.scheduleDependents m else { e with world }

section Redeclaring

variable (e m) (f : OrderedMap DefOrigin ModuleDecl → OrderedMap DefOrigin ModuleDecl)

theorem world_redeclare : (e.redeclare m f).world =
    ((e.world.modify m fun x => { x with decls := f x.decls }).refresh m).2 := by
  unfold redeclare scheduleDependents
  dsimp only
  split <;> simp

theorem get_redeclare (a : ModuleId) :
    World.Filed (e.world.get a) ((e.redeclare m f).world.get a) ∧
      (a ≠ m → ((e.redeclare m f).world.get a).lineage = (e.world.get a).lineage) := by
  rw [world_redeclare]
  constructor
  · refine .trans ?_ (World.filed_refresh _ m a)
    exact World.filed_modify e.world m a fun _ => ⟨rfl, rfl, rfl, rfl⟩
  · intro ha
    rw [(World.get_refresh _ m a).2, if_neg ha, World.get_modify, if_neg fun h => ha h.1.symm]

theorem dependsBelow_redeclare (h : e.world.Related) :
    (∃ d ∈ (e.redeclare m f).world.descendants m, (e.redeclare m f).world.Heeds d u) ↔
      ∃ d ∈ e.world.descendants m, e.world.Heeds d u := by
  have hrelated : (e.redeclare m f).world.Related := by
    rw [world_redeclare]
    exact h.redeclare m f
  refine exists_congr fun d => and_congr ?_ ((e.get_redeclare m f d).1.heeds_iff u)
  exact World.mem_descendants_congr h hrelated
    (fun a ha => congrArg Lineage.superclass ((e.get_redeclare m f a).2 ha)) d

theorem queue_redeclare (h : e.world.Related) :
    (((e.redeclare m f).world.get m).lineage ≠ (e.world.get m).lineage →
      ∀ u, u ∈ (e.redeclare m f).queue.toList ↔ u ∈ e.queue.toList ∨ e.DependsBelow m u) ∧
    (((e.redeclare m f).world.get m).lineage = (e.world.get m).lineage →
      (e.redeclare m f).queue = e.queue) := by
  have hlineage : ((e.world.modify m fun x => { x with decls := f x.decls }).get m).lineage =
      (e.world.get m).lineage := by
    rw [World.get_modify]
    split <;> rfl
  have hchanged :=
    World.refresh_eq_true_iff (e.world.modify m fun x => { x with decls := f x.decls }) m
  rw [hlineage, ← world_redeclare] at hchanged
  constructor
  · intro hne u
    have hsplit : e.redeclare m f =
        { e with world := (e.redeclare m f).world }.scheduleDependents m := by
      rw [world_redeclare]
      unfold redeclare
      dsimp only
      rw [if_pos (hchanged.2 hne)]
    rw [hsplit, scheduleDependents, mem_queue_scheduleAll, World.mem_dependents_iff,
      e.dependsBelow_redeclare m f h, and_comm]
    rfl
  · intro hsame
    have hkept : ¬_ = true := fun h => hchanged.1 h hsame
    unfold redeclare
    dsimp only
    rw [if_neg hkept]

end Redeclaring

/-- Where the lineage stays, a look-up can only go on elsewhere from the singleton side, since the
module starts or stops to count as a class. -/
theorem isClass_ne_of_parent?_ne {w w' : World}
    (hlineage : (w'.get m).lineage = (w.get m).lineage)
    (hstep : ∃ singleton, w'.parent? ⟨m, singleton⟩ ≠ w.parent? ⟨m, singleton⟩) :
    (w'.get m).isClass ≠ (w.get m).isClass ∧ w'.parent? ⟨m, false⟩ = w.parent? ⟨m, false⟩ := by
  have hsuper : (w'.get m).superclass = (w.get m).superclass := congrArg Lineage.superclass hlineage
  have hinstances : w'.parent? ⟨m, false⟩ = w.parent? ⟨m, false⟩ := by
    simp only [World.parent?, hsuper, Bool.false_eq_true, if_false]
  refine ⟨fun hclass => ?_, hinstances⟩
  obtain ⟨singleton, hne⟩ := hstep
  cases singleton with
  | false => exact hne hinstances
  | true =>
    refine hne ?_
    simp only [World.parent?, hsuper, hclass]

end Engine

/-- At any moment of the work on requests, let a declaration by which look-ups go on elsewhere from
a module come or go. If the lineage of the module changes, the live sites that heed the module or a
descendant are added to the queue, and no other; this is so whenever the step on the side of
instances is another one. If the lineage stays, nobody is told that the module starts or stops to
count as a class. -/
theorem ascent_change_told_iff (config : Config) {s : State}
    (h : Moves ((Engine.boot config).rest []) s) {e' : Engine} {m : ModuleId} {origin : DefOrigin}
    {decl : ModuleDecl}
    (hchange : e' = s.engine.addModuleDecl m origin decl ∨ e' = s.engine.removeModuleDecl m origin)
    (hstep : ∃ singleton,
      e'.world.parent? ⟨m, singleton⟩ ≠ s.engine.world.parent? ⟨m, singleton⟩) :
    ((e'.world.get m).lineage ≠ (s.engine.world.get m).lineage →
      ∀ u, u ∈ e'.queue.toList ↔ u ∈ s.engine.queue.toList ∨ s.engine.DependsBelow m u) ∧
    (e'.world.parent? ⟨m, false⟩ ≠ s.engine.world.parent? ⟨m, false⟩ →
      ∀ u, s.engine.DependsBelow m u → u ∈ e'.queue.toList) ∧
    ((e'.world.get m).lineage = (s.engine.world.get m).lineage →
      e'.queue = s.engine.queue ∧ (e'.world.get m).isClass ≠ (s.engine.world.get m).isClass ∧
        e'.world.parent? ⟨m, false⟩ = s.engine.world.parent? ⟨m, false⟩) := by
  have hrelated := ((Boot.namesTracked_boot config).moves (Boot.kept_boot config).sound h).related
  obtain ⟨f, rfl⟩ : ∃ f, e' = s.engine.redeclare m f := by
    rcases hchange with rfl | rfl
    · exact ⟨(·.insert origin decl), rfl⟩
    · exact ⟨(·.erase origin), rfl⟩
  obtain ⟨htold, hkept⟩ := s.engine.queue_redeclare m f hrelated
  refine ⟨htold, fun hne u hu => ?_, fun hsame =>
    ⟨hkept hsame, Engine.isClass_ne_of_parent?_ne hsame hstep⟩⟩
  refine (htold (fun hsame => hne ?_) u).2 (.inr hu)
  exact (Engine.isClass_ne_of_parent?_ne hsame hstep).2

section Undeclared

open Workspace

def definesInModule : String :=
  "\x7b\"type\":\"class\",\"cpath\":[\"Module\"],\"superclass\":null," ++
    "\"body\":[\x7b\"type\":\"def\",\"name\":\"foo\"," ++
    "\"body\":[\x7b\"type\":\"int\",\"value\":1\x7d]\x7d]\x7d"

def callsOnUndeclared : String :=
  "\x7b\"type\":\"sig_const\",\"name\":\"X\"," ++
    "\"ty\":\x7b\"type\":\"singleton\",\"cpath\":[\"M\"]\x7d\x7d," ++
    "\x7b\"type\":\"const_write\",\"name\":\"Y\",\"value\":\x7b\"type\":\"call\"," ++
    "\"recv\":\x7b\"type\":\"const\",\"name\":\"X\"\x7d,\"name\":\"foo\",\"args\":[]\x7d\x7d"

/-- The call is told that `M` is declared as a class. -/
theorem ascent_to_object_told :
    let e := (serve {} [writing "k" definesInModule, writing "a" callsOnUndeclared]).engine
    let m : ModuleId := ⟨15⟩
    let e' := e.addModuleDecl m (.node ⟨99⟩) { isClass := true }
    e.world.find? ["M"] = some m ∧ e'.world.parent? ⟨m, false⟩ ≠ e.world.parent? ⟨m, false⟩ ∧
      (∀ u, e.DependsBelow m u → u ∈ e'.queue.toList) ∧ e'.queue.toList = [⟨3⟩] := by
  obtain ⟨s, hmoves, hs⟩ :=
    exists_moves_serve {} [writing "k" definesInModule, writing "a" callsOnUndeclared]
  have hrun : let e := (serve {} [writing "k" definesInModule, writing "a" callsOnUndeclared]).engine
      let e' := e.addModuleDecl ⟨15⟩ (.node ⟨99⟩) { isClass := true }
      e.world.find? ["M"] = some ⟨15⟩ ∧
        e'.world.parent? ⟨⟨15⟩, false⟩ ≠ e.world.parent? ⟨⟨15⟩, false⟩ ∧
        e'.queue.toList = [⟨3⟩] := by
    rw [serve_eq]
    decide +kernel
  generalize (serve {} [writing "k" definesInModule, writing "a" callsOnUndeclared]).engine = e
    at hrun hs ⊢
  subst hs
  obtain ⟨hfind, hstep, hqueue⟩ := hrun
  exact ⟨hfind, hstep, (ascent_change_told_iff {} hmoves (.inl rfl) ⟨_, hstep⟩).2.1 hstep, hqueue⟩

/-- That `M` is declared as a module lets look-ups go on at `Module`, but the call is not told. What
the constant is depends on the order of the documents. -/
theorem ascent_to_module_untold :
    let e := (serve {} [writing "k" definesInModule, writing "a" callsOnUndeclared]).engine
    let m : ModuleId := ⟨15⟩
    let e' := e.addModuleDecl m (.node ⟨99⟩) { isClass := false }
    e.world.find? ["M"] = some m ∧ e.world.parent? ⟨m, true⟩ = none ∧
      e'.world.parent? ⟨m, true⟩ = some ⟨Core.module, false⟩ ∧
      e.isLive ⟨3⟩ = true ∧ ⟨3⟩ ∈ e.world.dependents m ∧ ⟨3⟩ ∉ e'.queue.toList ∧
      (serve {} [writing "k" definesInModule, writing "a" callsOnUndeclared,
        writing "b" (declaresModule "M" "")]).constantType? ["Y"] = some "untyped" ∧
      (serve {} [writing "k" definesInModule, writing "b" (declaresModule "M" ""),
        writing "a" callsOnUndeclared]).constantType? ["Y"] = some "Integer" := by
  simp only [serve_eq]
  decide +kernel

end Undeclared

end TypeFlow
