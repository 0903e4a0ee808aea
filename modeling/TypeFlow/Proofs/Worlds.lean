import TypeFlow.Engine.Definitions
import TypeFlow.Proofs.Collections
import TypeFlow.World.Lookup

/-!
# Worlds that grow

A module that was entered once stays known. In a closed world everything that the hierarchy refers
to is known, so look-ups that start at known modules only consult known ones. What sites asked for
is filed under dependencies; growing leaves these files alone.
-/

set_option autoImplicit false

namespace TypeFlow

section Walks

variable {α : Type} [DecidableEq α] {P : α → Prop}

theorem forall_mem_trailFrom {next : α → Option α} (hnext : ∀ a b, P a → next a = some b → P b)
    (n : Nat) (seen : List α) {a : α} (ha : P a) : ∀ x ∈ trailFrom next n seen a, P x := by
  induction n generalizing seen a with
  | zero => exact fun x hx => absurd hx List.not_mem_nil
  | succ n ih =>
    intro x hx
    unfold trailFrom at hx
    split at hx
    · exact absurd hx List.not_mem_nil
    · rcases List.mem_cons.1 hx with rfl | hx
      · exact ha
      · cases hb : next a with
        | none =>
          rw [hb] at hx
          exact absurd hx List.not_mem_nil
        | some b =>
          rw [hb] at hx
          exact ih _ (hnext a b ha hb) x hx

theorem forall_mem_reachFrom {next : α → List α} (hnext : ∀ a, P a → ∀ b ∈ next a, P b) (n : Nat)
    {out stack : List α} (hout : ∀ x ∈ out, P x) (hstack : ∀ x ∈ stack, P x) :
    ∀ x ∈ reachFrom next n out stack, P x := by
  induction n generalizing out stack with
  | zero => exact hout
  | succ n ih =>
    cases stack with
    | nil => exact hout
    | cons a stack =>
      have ha := hstack a List.mem_cons_self
      have htail : ∀ x ∈ stack, P x := fun x hx => hstack x (List.mem_cons_of_mem _ hx)
      unfold reachFrom
      split
      · exact ih hout htail
      · refine ih (fun x hx => ?_) fun x hx => ?_
        · rcases List.mem_append.1 hx with hx | hx
          · exact hout x hx
          · exact List.mem_singleton.1 hx ▸ ha
        · rcases List.mem_append.1 hx with hx | hx
          · exact hnext a ha x hx
          · exact htail x hx

end Walks

inductive Dependency where
  | method (key : MemberKey)
  | const (key : ConstKey)
  | superclass (m : ModuleId)
  deriving DecidableEq, Repr

def Dependency.module : Dependency → ModuleId
  | .method key => key.side.module
  | .const key => key.module
  | .superclass m => m

namespace Module

def watchers (x : Module) : Dependency → List SiteId
  | .method key =>
    (((x.methods.get key.side.singleton).get? key.name).map fun m => m.callsites.toList).getD []
  | .const key => ((x.consts.get? key.name).map fun c => c.followers.toList).getD []
  | .superclass _ => x.subclassChecks.toList

def watch (x : Module) (f : OrderedSet SiteId → OrderedSet SiteId) : Dependency → Module
  | .method key =>
    { x with
      methods := x.methods.modify key.side.singleton fun t =>
        t.upsert key.name {} fun m => { m with callsites := f m.callsites } }
  | .const key =>
    { x with consts := x.consts.modify key.name fun c => { c with followers := f c.followers } }
  | .superclass _ => { x with subclassChecks := f x.subclassChecks }

end Module

theorem Sided.get_modify {α : Type} (s : Sided α) (b b' : Bool) (f : α → α) :
    (s.modify b f).get b' = if b = b' then f (s.get b') else s.get b' := by
  cases b <;> cases b' <;> rfl

namespace Module

structure Within (x : Module) (K : ModuleId → Prop) : Prop where
  superclass : ∀ p, x.superclass = some p → K p
  included : ∀ t ∈ x.included, K t
  subclasses : ∀ c ∈ x.subclasses.toList, K c

theorem Within.mono {x : Module} {K K' : ModuleId → Prop} (h : x.Within K)
    (hk : ∀ m, K m → K' m) : x.Within K' :=
  ⟨fun p hp => hk p (h.superclass p hp), fun t ht => hk t (h.included t ht),
    fun c hc => hk c (h.subclasses c hc)⟩

theorem Within.of_eq {x y : Module} {K : ModuleId → Prop} (h : x.Within K)
    (hl : y.lineage = x.lineage) (hi : y.includes = x.includes)
    (hs : y.subclasses = x.subclasses) : y.Within K := by
  refine ⟨fun p hp => h.superclass p ?_, fun t ht => h.included t ?_, fun c hc => ?_⟩
  · unfold Module.superclass at hp ⊢
    rw [← hl]
    exact hp
  · unfold Module.included at ht ⊢
    rw [← hi]
    exact ht
  · exact h.subclasses c (hs ▸ hc)

theorem within_blank (K : ModuleId → Prop) (path : ConstPath) : ({ path } : Module).Within K :=
  ⟨fun _ hp => absurd hp (by simp [superclass]), fun _ ht => absurd ht (by simp [included]),
    fun _ hc => absurd hc (by simp)⟩

def HasFile (x : Module) : Dependency → Prop
  | .const key => (x.consts.get? key.name).isSome = true
  | _ => True

variable {x : Module} {f : OrderedSet SiteId → OrderedSet SiteId} {d d' : Dependency}

theorem watchers_watch_self (h : x.HasFile d) :
    (x.watch f d).watchers d = (f ⟨x.watchers d⟩).toList := by
  cases d with
  | method key =>
    simp only [watch, watchers, Sided.get_modify, if_true, OrderedMap.get?_upsert, Option.map_some,
      Option.getD_some]
    cases (x.methods.get key.side.singleton).get? key.name <;> rfl
  | const key =>
    obtain ⟨c, hc⟩ := Option.isSome_iff_exists.1 h
    simp only [watch, watchers, OrderedMap.get?_modify, if_true, hc, Option.map_some,
      Option.getD_some]
  | superclass m => rfl

theorem watchers_watch_of_ne (hm : d.module = d'.module) (hd : d ≠ d') :
    (x.watch f d).watchers d' = x.watchers d' := by
  cases d with
  | method key =>
    cases d' with
    | method key' =>
      simp only [watch, watchers, Sided.get_modify]
      by_cases hs : key.side.singleton = key'.side.singleton
      · have hn : key.name ≠ key'.name := by
          intro hn
          refine hd (congrArg _ ?_)
          obtain ⟨⟨m, b⟩, n⟩ := key
          obtain ⟨⟨m', b'⟩, n'⟩ := key'
          simp_all [Dependency.module]
        rw [if_pos hs, OrderedMap.get?_upsert, if_neg hn]
      · rw [if_neg hs]
    | const | superclass => rfl
  | const key =>
    cases d' with
    | method | superclass => rfl
    | const key' =>
      have hn : key.name ≠ key'.name := by
        intro hn
        refine hd (congrArg _ ?_)
        obtain ⟨m, n⟩ := key
        obtain ⟨m', n'⟩ := key'
        simp_all [Dependency.module]
      simp only [watch, watchers, OrderedMap.get?_modify, if_neg hn]
  | superclass m =>
    cases d' with
    | method | const => rfl
    | superclass m' => exact absurd (congrArg _ hm) hd

theorem watchers_of_not_hasFile (h : ¬x.HasFile d) :
    x.watchers d = [] ∧ (x.watch f d).watchers d = [] := by
  cases d with
  | method | superclass => exact absurd trivial h
  | const key =>
    have hc : x.consts.get? key.name = none := by
      simpa [HasFile] using h
    simp [watch, watchers, OrderedMap.get?_modify, hc]

end Module

namespace World

def Knows (w : World) (m : ModuleId) : Prop := m.index < w.modules.size

instance (w : World) (m : ModuleId) : Decidable (w.Knows m) := inferInstanceAs (Decidable (_ < _))

def watchers (w : World) (d : Dependency) : List SiteId := (w.get d.module).watchers d

def watch (w : World) (d : Dependency) (f : OrderedSet SiteId → OrderedSet SiteId) : World :=
  w.modify d.module fun x => x.watch f d

def Files (w : World) (d : Dependency) : Prop := w.Knows d.module ∧ (w.get d.module).HasFile d

variable {w : World}
variable {m : ModuleId} {d d' : Dependency} {s t : SiteId}

theorem get_of_not_knows (h : ¬w.Knows m) : w.get m = {} := by
  unfold get
  rw [Array.getElem?_eq_none (Nat.le_of_not_lt h)]
  rfl

@[simp] theorem size_modify (w : World) (m : ModuleId) (f : Module → Module) :
    (w.modify m f).modules.size = w.modules.size := by
  simp [modify]

theorem get_modify (w : World) (m u : ModuleId) (f : Module → Module) :
    (w.modify m f).get u = if m = u ∧ w.Knows u then f (w.get u) else w.get u := by
  unfold get modify Knows
  rw [Array.getElem?_modify]
  by_cases hm : m = u
  · subst hm
    by_cases hk : m.index < w.modules.size
    · simp [hk]
    · simp [hk]
  · have hne : m.index ≠ u.index := fun he => hm (by cases m; cases u; simpa using he)
    simp [hm, hne]

theorem knows_modify {u : ModuleId} {f : Module → Module} :
    (w.modify m f).Knows u ↔ w.Knows u := by
  unfold Knows
  rw [size_modify]

theorem mem_watchers_insert (hd : w.Files d) :
    t ∈ (w.watch d (·.insert s)).watchers d' ↔ t ∈ w.watchers d' ∨ d = d' ∧ t = s := by
  unfold watchers watch
  rw [get_modify]
  by_cases hm : d.module = d'.module
  · have hk : w.Knows d'.module := hm ▸ hd.1
    rw [if_pos ⟨hm, hk⟩]
    by_cases he : d = d'
    · subst he
      rw [Module.watchers_watch_self hd.2, OrderedSet.mem_insert]
      simp
    · rw [Module.watchers_watch_of_ne hm he]
      simp [he]
  · have he : d ≠ d' := fun he => hm (congrArg _ he)
    rw [if_neg fun h => hm h.1]
    simp [he]

theorem mem_watchers_erase :
    t ∈ (w.watch d (·.erase s)).watchers d' ↔ t ∈ w.watchers d' ∧ ¬(d = d' ∧ t = s) := by
  unfold watchers watch
  rw [get_modify]
  by_cases hm : d.module = d'.module ∧ w.Knows d'.module
  · rw [if_pos hm]
    by_cases he : d = d'
    · subst he
      by_cases hf : (w.get d.module).HasFile d
      · rw [Module.watchers_watch_self hf, OrderedSet.mem_erase]
        simp
      · obtain ⟨hempty, hempty'⟩ := Module.watchers_of_not_hasFile hf
        rw [hempty', hempty]
        simp
    · rw [Module.watchers_watch_of_ne hm.1 he]
      simp [he]
  · rw [if_neg hm]
    by_cases he : d = d'
    · have hk : ¬w.Knows d'.module := fun hk => hm ⟨congrArg _ he, hk⟩
      rw [get_of_not_knows hk]
      cases d' <;> simp [Module.watchers, Sided.get, OrderedMap.get?]
    · simp [he]

/-- Everything that the hierarchy refers to is known, and so are the built-in modules. -/
structure Closed (w : World) : Prop where
  core : Core.names.length ≤ w.modules.size
  within : ∀ m, (w.get m).Within w.Knows

structure Grows (w w' : World) : Prop where
  size : w.modules.size ≤ w'.modules.size
  watchers : ∀ d, w'.watchers d = w.watchers d
  hasFile : ∀ d, (w.get d.module).HasFile d → (w'.get d.module).HasFile d
  closed : w.Closed → w'.Closed

namespace Grows

theorem refl (w : World) : Grows w w := ⟨Nat.le_refl _, fun _ => rfl, fun _ h => h, fun h => h⟩

variable {w' w'' : World}

theorem trans (h : Grows w w') (h' : Grows w' w'') : Grows w w'' :=
  ⟨Nat.le_trans h.size h'.size, fun d => (h'.watchers d).trans (h.watchers d),
    fun d hd => h'.hasFile d (h.hasFile d hd), fun hc => h'.closed (h.closed hc)⟩

theorem knows (h : Grows w w') {m : ModuleId} (hm : w.Knows m) : w'.Knows m :=
  Nat.lt_of_lt_of_le hm h.size

theorem modify {m : ModuleId} {f : Module → Module}
    (hw : ∀ d, (f (w.get m)).watchers d = (w.get m).watchers d)
    (hfile : ∀ d, (w.get m).HasFile d → (f (w.get m)).HasFile d)
    (hin : w.Closed → (f (w.get m)).Within w.Knows) : Grows w (w.modify m f) := by
  refine ⟨Nat.le_of_eq (size_modify ..).symm, fun d => ?_, fun d hd => ?_,
    fun hc => ⟨by rw [size_modify]; exact hc.core, fun u => ?_⟩⟩
  · unfold World.watchers
    rw [get_modify]
    split
    · next hu =>
      rw [← hu.1]
      exact hw d
    · rfl
  · rw [get_modify]
    split
    · next hu =>
      rw [← hu.1] at hd ⊢
      exact hfile d hd
    · exact hd
  · have hwithin : ((w.modify m f).get u).Within w.Knows := by
      rw [get_modify]
      split
      · next hu =>
        rw [← hu.1]
        exact hin hc
      · exact hc.within u
    exact hwithin.mono fun _ => knows_modify.2

end Grows

variable {m : ModuleId}

theorem get_push (w : World) (x : Module) (u : ModuleId) :
    ({ modules := w.modules.push x } : World).get u =
      if u.index = w.modules.size then x else w.get u := by
  unfold get
  rw [Array.getElem?_push]
  split <;> rfl

theorem Grows.resolve (w : World) (path : ConstPath) : Grows w (w.resolve path).2 := by
  unfold World.resolve
  split
  · exact Grows.refl w
  · have hempty : ∀ u : ModuleId, u.index = w.modules.size → w.get u = {} := fun u hu =>
      get_of_not_knows (by unfold Knows; omega)
    have hgrow : ∀ {u : ModuleId}, w.Knows u →
        ({ modules := w.modules.push { path } } : World).Knows u := fun hu => by
      unfold Knows at hu ⊢
      rw [Array.size_push]
      exact Nat.lt_succ_of_lt hu
    refine ⟨by simp, fun d => ?_, fun d hd => ?_, fun hc => ⟨?_, fun m => ?_⟩⟩
    · unfold World.watchers
      rw [get_push]
      split
      · next hu =>
        rw [hempty _ hu]
        cases d <;> rfl
      · rfl
    · rw [get_push]
      split
      · next hu =>
        rw [hempty _ hu] at hd
        cases d with
        | const key => exact hd
        | method | superclass => trivial
      · exact hd
    · rw [Array.size_push]
      exact Nat.le_succ_of_le hc.core
    · rw [get_push]
      split
      · exact Module.within_blank _ path
      · exact (hc.within m).mono fun _ => hgrow

theorem Closed.knows_core (hc : w.Closed) (hm : m.index < Core.names.length) :
    w.Knows m :=
  Nat.lt_of_lt_of_le hm hc.core

theorem knows_resolve {path : ConstPath} (hc : (w.resolve path).2.Closed) :
    (w.resolve path).2.Knows (w.resolve path).1 := by
  unfold resolve at hc ⊢
  cases hf : w.find? path with
  | none => simp [Knows]
  | some m =>
    rw [hf] at hc
    unfold find? at hf
    split at hf
    · rw [← Option.some.inj hf]
      exact hc.knows_core (m := Core.object) (by decide)
    · obtain ⟨i, hi, rfl⟩ := Option.map_eq_some_iff.1 hf
      exact (Array.findIdx?_eq_some_iff_getElem.1 hi).1

theorem Grows.modifyMethod (w : World) (key : MemberKey) {f : MethodEntity → MethodEntity}
    (hf : ∀ m, (f m).callsites = m.callsites) : Grows w (w.modifyMethod key f) := by
  refine Grows.modify (fun d => ?_) (fun d hd => ?_) fun hcl =>
    (hcl.within _).of_eq rfl rfl rfl
  · cases d with
    | method key' =>
      simp only [Module.watchers, Sided.get_modify]
      split
      · rw [OrderedMap.get?_upsert]
        split
        · next hn =>
          rw [hn]
          cases ((w.get key.side.module).methods.get key'.side.singleton).get? key'.name <;>
            simp [hf]
        · rfl
      · rfl
    | const | superclass => rfl
  · cases d with
    | const key' => exact hd
    | method | superclass => trivial

theorem Grows.modifyConst (w : World) (key : ConstKey) {f : ConstEntity → ConstEntity}
    (hf : ∀ c, (f c).followers = c.followers) : Grows w (w.modifyConst key f) := by
  refine Grows.modify (fun d => ?_) (fun d hd => ?_) fun hcl =>
    (hcl.within _).of_eq rfl rfl rfl
  · cases d with
    | method | superclass => rfl
    | const key' =>
      simp only [Module.watchers, OrderedMap.get?_modify]
      split
      · cases (w.get key.module).consts.get? key'.name <;> simp [hf]
      · rfl
  · cases d with
    | const key' =>
      simp only [Module.HasFile, OrderedMap.get?_modify] at hd ⊢
      split
      · simpa using hd
      · exact hd
    | method | superclass => trivial

theorem Grows.nameConst {key : ConstKey} (h : w.const? key = none) (c : ConstEntity)
    (hc : c.followers = {}) :
    Grows w (w.modify key.module fun x => { x with consts := x.consts.insert key.name c }) := by
  refine Grows.modify (fun d => ?_) (fun d hd => ?_) fun hcl =>
    (hcl.within _).of_eq rfl rfl rfl
  · cases d with
    | method | superclass => rfl
    | const key' =>
      simp only [Module.watchers, OrderedMap.get?_insert]
      split
      · next hn =>
        have hnone : (w.get key.module).consts.get? key'.name = none := hn ▸ h
        rw [hnone, Option.map_some, hc]
        rfl
      · rfl
  · cases d with
    | const key' =>
      simp only [Module.HasFile, OrderedMap.get?_insert] at hd ⊢
      split
      · rfl
      · exact hd
    | method | superclass => trivial

theorem knows_watch {d : Dependency} {f : OrderedSet SiteId → OrderedSet SiteId} :
    (w.watch d f).Knows m ↔ w.Knows m := knows_modify

theorem Closed.watch (hc : w.Closed) (d : Dependency) (f : OrderedSet SiteId → OrderedSet SiteId) :
    (w.watch d f).Closed := by
  refine ⟨?_, fun u => ?_⟩
  · unfold World.watch
    rw [size_modify]
    exact hc.core
  · have hwithin : ((w.watch d f).get u).Within w.Knows := by
      unfold World.watch
      rw [get_modify]
      split
      · cases d <;> exact (hc.within u).of_eq rfl rfl rfl
      · exact hc.within u
    exact hwithin.mono fun _ => knows_watch.2

theorem Grows.aside {f : Module → Module}
    (hmethods : (f (w.get m)).methods = (w.get m).methods)
    (hconsts : (f (w.get m)).consts = (w.get m).consts)
    (hchecks : (f (w.get m)).subclassChecks = (w.get m).subclassChecks)
    (hin : w.Closed → (f (w.get m)).Within w.Knows) : Grows w (w.modify m f) := by
  refine Grows.modify (fun d => ?_) (fun d hd => ?_) hin
  · cases d with
    | method key => simp only [Module.watchers, hmethods]
    | const key => simp only [Module.watchers, hconsts]
    | superclass m => simp only [Module.watchers, hchecks]
  · cases d with
    | const key =>
      simp only [Module.HasFile, hconsts] at hd ⊢
      exact hd
    | method | superclass => trivial

theorem Grows.declaredLineage (w : World) (m : ModuleId) : Grows w (w.declaredLineage m).2 := by
  unfold World.declaredLineage
  dsimp only
  split
  · exact Grows.refl w
  · split
    · split
      · exact Grows.resolve w _
      · exact Grows.resolve w _
    · split <;> exact Grows.refl w

theorem knows_declaredLineage (w : World) (m : ModuleId) : (w.declaredLineage m).2.Closed →
    ∀ p, (w.declaredLineage m).1.superclass = some p → (w.declaredLineage m).2.Knows p := by
  have hobject : ∀ {w : World}, w.Closed → ∀ p, some Core.object = some p → w.Knows p :=
    fun hc p hp => Option.some.inj hp ▸ hc.knows_core (by decide)
  unfold declaredLineage
  dsimp only
  split
  · exact fun _ p hp => absurd hp (Option.some_ne_none p).symm
  · split
    · split
      · exact hobject
      · exact fun hc p hp => Option.some.inj hp ▸ knows_resolve hc
    · split
      · exact hobject
      · exact fun _ p hp => absurd hp (Option.some_ne_none p).symm

theorem Grows.moveSubclass (hm : w.Knows m) (old new : Option ModuleId) :
    Grows w (w.moveSubclass m old new) := by
  have herase : ∀ (w : World) (p : ModuleId), Grows w
      (w.modify p fun x => { x with subclasses := x.subclasses.erase m }) := fun w p =>
    Grows.aside rfl rfl rfl fun hc => ⟨(hc.within p).superclass, (hc.within p).included,
      fun c hc' => (hc.within p).subclasses c (OrderedSet.mem_erase.1 hc').1⟩
  have hinsert : ∀ (w : World) (p : ModuleId), w.Knows m → Grows w
      (w.modify p fun x => { x with subclasses := x.subclasses.insert m }) := fun w p hm =>
    Grows.aside rfl rfl rfl fun hc => ⟨(hc.within p).superclass, (hc.within p).included,
      fun c hc' => (OrderedSet.mem_insert.1 hc').elim ((hc.within p).subclasses c) (· ▸ hm)⟩
  unfold World.moveSubclass
  split
  · exact Grows.refl w
  · cases old with
    | none =>
      cases new with
      | none => exact Grows.refl w
      | some p => exact hinsert w p hm
    | some q =>
      cases new with
      | none => exact herase w q
      | some p => exact (herase w q).trans (hinsert _ p (knows_modify.2 hm))

theorem Grows.refresh (w : World) (m : ModuleId) : Grows w (w.refresh m).2 := by
  have hline := Grows.declaredLineage w m
  unfold World.refresh
  dsimp only
  split
  · exact hline
  · next hne =>
    have hm : w.Knows m := by
      by_contra hk
      have hblank := get_of_not_knows hk
      refine hne ?_
      unfold World.declaredLineage
      dsimp only
      rw [hblank]
      simp [Module.exists?, OrderedMap.isEmpty, OrderedMap.values, hblank]
    have hset : Grows (w.declaredLineage m).2 ((w.declaredLineage m).2.modify m fun x =>
        { x with lineage := (w.declaredLineage m).1 }) :=
      Grows.aside rfl rfl rfl fun hc => ⟨knows_declaredLineage w m hc,
        (hc.within m).included, (hc.within m).subclasses⟩
    refine (hline.trans hset).trans (Grows.moveSubclass ?_ _ _)
    exact knows_modify.2 (hline.knows hm)

theorem Grows.declare (w : World) (m : ModuleId) (origin : DefOrigin) (decl : ModuleDecl) :
    Grows w (w.declare m origin decl).2 :=
  (Grows.aside rfl rfl rfl fun hc =>
    (hc.within m).of_eq rfl rfl rfl).trans
      (Grows.refresh _ m)

theorem Grows.withdraw (w : World) (m : ModuleId) (origin : DefOrigin) :
    Grows w (w.withdraw m origin).2 :=
  (Grows.aside rfl rfl rfl fun hc =>
    (hc.within m).of_eq rfl rfl rfl).trans
      (Grows.refresh _ m)

end World

end TypeFlow
