import TypeFlow.Proofs.Worlds

/-!
# What stands in the entries

Definitions are entered under their origins, and sites of signatures, of bodies and of readers are
posted at the entities they are about. Naming things and consulting them leaves all of this, and
the hierarchy, as it is.
-/

set_option autoImplicit false

namespace TypeFlow

def Registration.home : Registration → ModuleId
  | .module m => m
  | .inclusion m _ => m
  | .const key => key.module
  | .ivar key => key.side.module
  | .alias key => key.side.module

inductive Posting where
  | signature (key : MemberKey)
  | body (key : MemberKey)
  | reader (m : ModuleId)
  deriving DecidableEq, Repr

def Posting.module : Posting → ModuleId
  | .signature key => key.side.module
  | .body key => key.side.module
  | .reader m => m

def Rule.posting? : Rule → Option Posting
  | .methodDecl r => some (.signature r.key)
  | .methodDef r => some (.body r.key)
  | .ivarRead r => some (.reader r.key.side.module)
  | _ => none

namespace Module

/-- The origins entered at a module for a definition. -/
def origins (x : Module) : Registration → List DefOrigin
  | .module _ => x.decls.keys
  | .inclusion _ target => (x.includes.keys.filter fun k => k.2 = target).map Prod.fst
  | .const key => ((x.consts.get? key.name).map fun c => c.defs.toList).getD []
  | .ivar key =>
    (((x.ivars.get key.side.singleton).get? key.name).map fun i => i.defs.toList).getD []
  | .alias key =>
    (((x.methods.get key.side.singleton).get? key.name).map fun m => m.aliases.keys).getD []

def posts (x : Module) : Posting → List SiteId
  | .signature key =>
    (((x.methods.get key.side.singleton).get? key.name).map fun m => m.decls.toList).getD []
  | .body key =>
    (((x.methods.get key.side.singleton).get? key.name).map fun m => m.defs.toList).getD []
  | .reader _ => x.ivarReads.toList

def constVertex? (x : Module) (name : String) : Option VertexId :=
  (x.consts.get? name).map ConstEntity.vertex

def ivarVertex? (x : Module) (singleton : Bool) (name : String) : Option VertexId :=
  ((x.ivars.get singleton).get? name).map IvarEntity.vertex

structure Akin (x y : Module) : Prop where
  decls : y.decls = x.decls
  lineage : y.lineage = x.lineage
  includes : y.includes = x.includes
  subclasses : y.subclasses = x.subclasses
  origins : ∀ r, y.origins r = x.origins r
  consts : ∀ name v, x.constVertex? name = some v → y.constVertex? name = some v
  ivars : ∀ b name v, x.ivarVertex? b name = some v → y.ivarVertex? b name = some v

structure Same (x y : Module) : Prop extends Akin x y where
  posts : ∀ p, y.posts p = x.posts p

theorem Akin.refl (x : Module) : Akin x x :=
  ⟨rfl, rfl, rfl, rfl, fun _ => rfl, fun _ _ => id, fun _ _ _ => id⟩

theorem Akin.trans {x y z : Module} (h : Akin x y) (h' : Akin y z) : Akin x z :=
  ⟨h'.decls.trans h.decls, h'.lineage.trans h.lineage, h'.includes.trans h.includes,
    h'.subclasses.trans h.subclasses, fun r => (h'.origins r).trans (h.origins r),
    fun name v hv => h'.consts name v (h.consts name v hv),
    fun b name v hv => h'.ivars b name v (h.ivars b name v hv)⟩

theorem Same.refl (x : Module) : Same x x := ⟨Akin.refl x, fun _ => rfl⟩

theorem same_blank (path : ConstPath) : Same {} { path } :=
  ⟨⟨rfl, rfl, rfl, rfl, fun r => by cases r <;> rfl, fun _ _ => id, fun _ _ _ => id⟩,
    fun p => by cases p <;> rfl⟩

variable (x : Module)

theorem getD_map_methods {α : Type} {g : MethodEntity → List α} {f : MethodEntity → MethodEntity}
    (hg : ∀ m, g (f m) = g m) (hempty : g {} = []) (b b' : Bool) (name name' : String) :
    ((((x.methods.modify b fun t => t.upsert name {} f).get b').get? name').map g).getD [] =
      (((x.methods.get b').get? name').map g).getD [] := by
  rw [Sided.get_modify]
  split
  · rw [OrderedMap.get?_upsert]
    split
    · next hn =>
      subst hn
      cases (x.methods.get b').get? name <;> simp [hg, hempty]
    · rfl
  · rfl

theorem akin_methods (b : Bool) (name : String) {f : MethodEntity → MethodEntity}
    (haliases : ∀ m, (f m).aliases = m.aliases) :
    Akin x { x with methods := x.methods.modify b fun t => t.upsert name {} f } := by
  refine ⟨rfl, rfl, rfl, rfl, fun r => ?_, fun _ _ => id, fun _ _ _ => id⟩
  cases r with
  | «alias» key =>
    exact x.getD_map_methods (g := fun m => m.aliases.keys) (fun m => by rw [haliases]) rfl ..
  | module | inclusion | const | ivar => rfl

theorem same_methods (b : Bool) (name : String) {f : MethodEntity → MethodEntity}
    (hdecls : ∀ m, (f m).decls = m.decls) (hdefs : ∀ m, (f m).defs = m.defs)
    (haliases : ∀ m, (f m).aliases = m.aliases) :
    Same x { x with methods := x.methods.modify b fun t => t.upsert name {} f } := by
  refine ⟨x.akin_methods b name haliases, fun p => ?_⟩
  cases p with
  | signature key =>
    exact x.getD_map_methods (g := fun m => m.decls.toList) (fun m => by rw [hdecls]) rfl ..
  | body key =>
    exact x.getD_map_methods (g := fun m => m.defs.toList) (fun m => by rw [hdefs]) rfl ..
  | reader m => rfl

theorem same_consts (name : String) {f : ConstEntity → ConstEntity}
    (hf : ∀ c, (f c).defs = c.defs) (hv : ∀ c, (f c).vertex = c.vertex) :
    Same x { x with consts := x.consts.modify name f } := by
  refine ⟨⟨rfl, rfl, rfl, rfl, fun r => ?_, fun name' v h => ?_, fun _ _ _ => id⟩,
    fun p => by cases p <;> rfl⟩
  · cases r with
    | const key =>
      simp only [origins, OrderedMap.get?_modify]
      split
      · cases x.consts.get? key.name <;> simp [hf]
      · rfl
    | module | inclusion | ivar | «alias» => rfl
  · unfold constVertex? at h ⊢
    rw [OrderedMap.get?_modify]
    split
    · rw [← h, Option.map_map]
      exact congrArg (Option.map · _) (funext hv)
    · exact h

theorem same_nameConst {x : Module} {name : String} (h : x.consts.get? name = none)
    {c : ConstEntity} (hc : c.defs = {}) :
    Same x { x with consts := x.consts.insert name c } := by
  refine ⟨⟨rfl, rfl, rfl, rfl, fun r => ?_, fun name' v hv => ?_, fun _ _ _ => id⟩,
    fun p => by cases p <;> rfl⟩
  · cases r with
    | const key =>
      simp only [origins, OrderedMap.get?_insert]
      split
      · next hn =>
        rw [← hn, h, Option.map_some, hc]
        rfl
      · rfl
    | module | inclusion | ivar | «alias» => rfl
  · unfold constVertex? at hv ⊢
    rw [OrderedMap.get?_insert]
    split
    · next hn =>
      rw [← hn, h] at hv
      cases hv
    · exact hv

theorem same_nameIvar {x : Module} {b : Bool} {name : String}
    (h : (x.ivars.get b).get? name = none) {i : IvarEntity} (hi : i.defs = {}) :
    Same x { x with ivars := x.ivars.modify b fun t => t.insert name i } := by
  refine ⟨⟨rfl, rfl, rfl, rfl, fun r => ?_, fun _ _ => id, fun b' name' v hv => ?_⟩,
    fun p => by cases p <;> rfl⟩
  · cases r with
    | ivar key =>
      simp only [origins, Sided.get_modify]
      split
      · next hb =>
        rw [OrderedMap.get?_insert]
        split
        · next hn =>
          rw [← hb, ← hn, h, Option.map_some, hi]
          rfl
        · rfl
      · rfl
    | module | inclusion | const | «alias» => rfl
  · unfold ivarVertex? at hv ⊢
    rw [Sided.get_modify]
    split
    · next hb =>
      rw [OrderedMap.get?_insert]
      split
      · next hn =>
        rw [← hb, ← hn, h] at hv
        cases hv
      · exact hv
    · exact hv

theorem same_watch (f : OrderedSet SiteId → OrderedSet SiteId) (d : Dependency) :
    Same x (x.watch f d) := by
  cases d with
  | method key => exact x.same_methods _ _ (fun _ => rfl) (fun _ => rfl) fun _ => rfl
  | const key => exact x.same_consts _ (fun _ => rfl) fun _ => rfl
  | superclass m =>
    exact ⟨⟨rfl, rfl, rfl, rfl, fun r => by cases r <;> rfl, fun _ _ => id, fun _ _ _ => id⟩,
      fun p => by cases p <;> rfl⟩

end Module

namespace World

/-- The origins entered for a definition. -/
def origins (w : World) (r : Registration) : List DefOrigin := (w.get r.home).origins r

def posts (w : World) (p : Posting) : List SiteId := (w.get p.module).posts p

structure Stays (w w' : World) : Prop where
  size : w.modules.size ≤ w'.modules.size
  path : ∀ m, w.Knows m → (w'.get m).path = (w.get m).path
  same : ∀ m, Module.Same (w.get m) (w'.get m)

namespace Stays

variable {w w' w'' : World}

theorem refl (w : World) : Stays w w := ⟨Nat.le_refl _, fun _ _ => rfl, fun _ => Module.Same.refl _⟩

theorem origins (h : Stays w w') (r : Registration) : w'.origins r = w.origins r :=
  (h.same r.home).origins r

theorem posts (h : Stays w w') (p : Posting) : w'.posts p = w.posts p := (h.same p.module).posts p

theorem modify {m : ModuleId} {f : Module → Module} (hpath : (f (w.get m)).path = (w.get m).path)
    (hsame : Module.Same (w.get m) (f (w.get m))) : Stays w (w.modify m f) := by
  refine ⟨Nat.le_of_eq (size_modify ..).symm, fun u hu => ?_, fun u => ?_⟩
  · rw [get_modify]
    split
    · next h => rw [← h.1, hpath]
    · rfl
  · rw [get_modify]
    split
    · next h => exact h.1 ▸ hsame
    · exact Module.Same.refl _

theorem resolve (w : World) (path : ConstPath) : Stays w (w.resolve path).2 := by
  unfold World.resolve
  split
  · exact refl w
  · refine ⟨by simp, fun m hm => ?_, fun m => ?_⟩
    · have hne : m.index ≠ w.modules.size := Nat.ne_of_lt hm
      rw [get_push, if_neg hne]
    · rw [get_push]
      split
      · next hm =>
        rw [get_of_not_knows (w := w) (m := m) (by unfold Knows; omega)]
        exact Module.same_blank path
      · exact Module.Same.refl _

theorem modifyMethod (w : World) (key : MemberKey) {f : MethodEntity → MethodEntity}
    (hdecls : ∀ m, (f m).decls = m.decls) (hdefs : ∀ m, (f m).defs = m.defs)
    (haliases : ∀ m, (f m).aliases = m.aliases) : Stays w (w.modifyMethod key f) :=
  Stays.modify rfl (Module.same_methods _ _ _ hdecls hdefs haliases)

theorem nameConst {key : ConstKey} (h : w.const? key = none) {c : ConstEntity}
    (hc : c.defs = {}) :
    Stays w (w.modify key.module fun x => { x with consts := x.consts.insert key.name c }) :=
  Stays.modify rfl (Module.same_nameConst h hc)

theorem nameIvar {key : MemberKey} (h : w.ivar? key = none) {i : IvarEntity} (hi : i.defs = {}) :
    Stays w (w.modify key.side.module fun x =>
      { x with ivars := x.ivars.modify key.side.singleton fun t => t.insert key.name i }) :=
  Stays.modify rfl (Module.same_nameIvar h hi)

theorem watch (w : World) (d : Dependency) (f : OrderedSet SiteId → OrderedSet SiteId) :
    Stays w (w.watch d f) := by
  refine Stays.modify ?_ (Module.same_watch _ f d)
  cases d <;> rfl

end Stays

structure Agrees (w w' : World) : Prop where
  size : w.modules.size ≤ w'.modules.size
  path : ∀ m, w.Knows m → (w'.get m).path = (w.get m).path
  akin : ∀ m, Module.Akin (w.get m) (w'.get m)

theorem Stays.agrees {w w' : World} (h : Stays w w') : Agrees w w' :=
  ⟨h.size, h.path, fun m => (h.same m).toAkin⟩

namespace Agrees

variable {w w' w'' : World}

theorem refl (w : World) : Agrees w w := (Stays.refl w).agrees

theorem knows (h : Agrees w w') {m : ModuleId} (hm : w.Knows m) : w'.Knows m :=
  Nat.lt_of_lt_of_le hm h.size

theorem trans (h : Agrees w w') (h' : Agrees w' w'') : Agrees w w'' :=
  ⟨Nat.le_trans h.size h'.size, fun m hm => (h'.path m (h.knows hm)).trans (h.path m hm),
    fun m => (h.akin m).trans (h'.akin m)⟩

theorem modify {m : ModuleId} {f : Module → Module} (hpath : (f (w.get m)).path = (w.get m).path)
    (hakin : Module.Akin (w.get m) (f (w.get m))) : Agrees w (w.modify m f) := by
  refine ⟨Nat.le_of_eq (size_modify ..).symm, fun u hu => ?_, fun u => ?_⟩
  · rw [get_modify]
    split
    · next h => rw [← h.1, hpath]
    · rfl
  · rw [get_modify]
    split
    · next h => exact h.1 ▸ hakin
    · exact Module.Akin.refl _

theorem modifyMethod (w : World) (key : MemberKey) {f : MethodEntity → MethodEntity}
    (haliases : ∀ m, (f m).aliases = m.aliases) : Agrees w (w.modifyMethod key f) :=
  Agrees.modify rfl (Module.akin_methods _ _ _ haliases)

end Agrees

end World

end TypeFlow
