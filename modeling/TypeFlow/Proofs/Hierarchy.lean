import TypeFlow.Proofs.Lookups
import TypeFlow.Proofs.Start
import TypeFlow.Proofs.Walks

/-!
# The hierarchy is the one that was declared

Declarations come and go, and each of them brings the lineage of its module up to date. The lineage
is then what the present declarations amount to, and the subclasses of a module are those that have
it as superclass. Going down from a module therefore finds those from which going up leads to it,
also where modules descend from each other in a circle.
-/

set_option autoImplicit false

namespace TypeFlow

open Relation

namespace World

variable {w w' : World} {m : ModuleId}

section Names

def Finds (w w' : World) : Prop := ∀ path m, w.find? path = some m → w'.find? path = some m

theorem resolve_of_find? {path : ConstPath} (h : w.find? path = some m) :
    w.resolve path = (m, w) := by
  unfold resolve
  rw [h]

theorem find?_push (w : World) (x : Module) (path : ConstPath) :
    ({ modules := w.modules.push x } : World).find? path =
      (w.find? path).or (if x.path = path then some ⟨w.modules.size⟩ else none) := by
  unfold find?
  split
  · rfl
  · rw [Array.findIdx?_push, Option.map_or]
    congr 1
    by_cases h : x.path = path <;> simp [h]

theorem finds_resolve (w : World) (path : ConstPath) : Finds w (w.resolve path).2 := by
  intro q m hq
  unfold resolve
  split
  · exact hq
  · rw [find?_push, hq, Option.some_or]

theorem find?_resolve_self (w : World) (path : ConstPath) :
    (w.resolve path).2.find? path = some (w.resolve path).1 := by
  cases h : w.find? path with
  | some m => rw [resolve_of_find? h, h]
  | none =>
    unfold resolve
    rw [h]
    dsimp only
    rw [find?_push, h]
    simp

theorem find?_modify (w : World) (m : ModuleId) {f : Module → Module}
    (hf : ∀ x, (f x).path = x.path) : (w.modify m f).find? = w.find? := by
  have hpaths : (w.modify m f).modules.map Module.path = w.modules.map Module.path := by
    apply Array.ext
    · simp [modify]
    · intro i hi hi'
      simp only [modify, Array.getElem_map, Array.getElem_modify]
      split
      · exact hf _
      · rfl
  have hfind : ∀ (w : World) path, w.modules.findIdx? (fun x => x.path == path) =
      (w.modules.map Module.path).findIdx? (· == path) := fun w path => by
    rw [Array.findIdx?_map]
    rfl
  funext path
  unfold find?
  rw [hfind, hfind, hpaths]

theorem get_resolve (w : World) (path : ConstPath) (u : ModuleId) :
    ((w.resolve path).2.get u).decls = (w.get u).decls ∧
      ((w.resolve path).2.get u).lineage = (w.get u).lineage ∧
      ((w.resolve path).2.get u).subclasses = (w.get u).subclasses := by
  unfold resolve
  split
  · exact ⟨rfl, rfl, rfl⟩
  · rw [get_push]
    split
    · next hu =>
      have hblank : w.get u = {} := get_of_not_knows fun h => by unfold Knows at h; omega
      rw [hblank]
      exact ⟨rfl, rfl, rfl⟩
    · exact ⟨rfl, rfl, rfl⟩

end Names

section Lineages

def lineageOf (w : World) (m : ModuleId) (decls : List ModuleDecl) : Lineage :=
  let typeParams := ((decls.find? fun d => !d.typeParams.isEmpty).map ModuleDecl.typeParams).getD []
  if m = Core.basicObject ∨ decls = [] then { typeParams }
  else
    match decls.findSome? ModuleDecl.superclass with
    | some ref =>
      if w.find? ref.path = some m then { superclass := some Core.object, typeParams }
      else { superclass := w.find? ref.path, superclassArgs := ref.args, typeParams }
    | none => { superclass := if decls.head?.all ModuleDecl.isClass then some Core.object else none,
                typeParams }

def namedParent (w : World) (m : ModuleId) : Option SuperclassRef :=
  if m = Core.basicObject then none
  else (w.get m).decls.values.findSome? ModuleDecl.superclass

theorem world_declaredLineage (w : World) (m : ModuleId) : (w.declaredLineage m).2 =
    match w.namedParent m with
    | some ref => (w.resolve ref.path).2
    | none => w := by
  unfold declaredLineage namedParent
  dsimp only
  by_cases hroot : m = Core.basicObject
  · simp [hroot]
  · by_cases hnone : (w.get m).exists? = false
    · have hempty : (w.get m).decls.values = [] := by
        simpa [Module.exists?, OrderedMap.isEmpty, OrderedMap.values] using hnone
      simp [hroot, hnone, hempty]
    · rw [if_neg (by simp [hroot, hnone]), if_neg hroot]
      cases (w.get m).decls.values.findSome? ModuleDecl.superclass with
      | some | none => dsimp only; split <;> rfl

theorem isClass_eq (x : Module) : x.isClass = x.decls.values.head?.all ModuleDecl.isClass := by
  simp [Module.isClass, OrderedMap.first?, OrderedMap.values, List.head?_map, Option.all_map]

/-- The lineage that is read off is that of the declarations, where superclasses are found in the
world which has them all. -/
theorem lineage_declaredLineage (w : World) (m : ModuleId) : (w.declaredLineage m).1 =
    (w.declaredLineage m).2.lineageOf m (w.get m).decls.values := by
  rw [world_declaredLineage]
  unfold declaredLineage namedParent lineageOf
  dsimp only
  have hexists : (w.get m).exists? = false ↔ (w.get m).decls.values = [] := by
    simp [Module.exists?, OrderedMap.isEmpty, OrderedMap.values]
  by_cases hroot : m = Core.basicObject
  · simp [hroot]
  · by_cases hnone : (w.get m).decls.values = []
    · simp [hnone, hexists]
    · have hcounts : ¬(m = Core.basicObject ∨ (w.get m).exists? = false) :=
        not_or.2 ⟨hroot, fun h => hnone (hexists.1 h)⟩
      simp only [if_neg hcounts, if_neg (not_or.2 ⟨hroot, hnone⟩), if_neg hroot]
      cases (w.get m).decls.values.findSome? ModuleDecl.superclass with
      | some ref =>
        dsimp only
        rw [find?_resolve_self]
        simp only [Option.some.injEq]
        split <;> rfl
      | none =>
        dsimp only
        rw [isClass_eq]
        split <;> rfl

structure Derives (w : World) (m : ModuleId) : Prop where
  lineage : (w.get m).lineage = w.lineageOf m (w.get m).decls.values
  found : ∀ ref, w.namedParent m = some ref → (w.find? ref.path).isSome = true

theorem lineageOf_congr (hfind : Finds w w') (hfound : ∀ ref, w.namedParent m = some ref →
    (w.find? ref.path).isSome = true) :
    w'.lineageOf m (w.get m).decls.values = w.lineageOf m (w.get m).decls.values := by
  unfold lineageOf
  dsimp only
  by_cases hroot : m = Core.basicObject
  · simp [hroot]
  · cases href : (w.get m).decls.values.findSome? ModuleDecl.superclass with
    | none => rfl
    | some ref =>
      have hsome := hfound ref (by rw [namedParent, if_neg hroot, href])
      obtain ⟨p, hp⟩ := Option.isSome_iff_exists.1 hsome
      simp only [hp, hfind _ _ hp]

theorem Derives.congr (h : w.Derives m) (hfind : Finds w w')
    (hdecls : (w'.get m).decls.values = (w.get m).decls.values)
    (hlineage : (w'.get m).lineage = (w.get m).lineage) : w'.Derives m := by
  constructor
  · rw [hlineage, hdecls, lineageOf_congr hfind h.found]
    exact h.lineage
  · intro ref href
    rw [namedParent, hdecls] at href
    obtain ⟨p, hp⟩ := Option.isSome_iff_exists.1 (h.found ref href)
    rw [hfind _ _ hp, Option.isSome_some]

theorem declaredLineage_of_derives (h : w.Derives m) :
    w.declaredLineage m = ((w.get m).lineage, w) := by
  have hworld : (w.declaredLineage m).2 = w := by
    rw [world_declaredLineage]
    cases href : w.namedParent m with
    | none => rfl
    | some ref =>
      obtain ⟨p, hp⟩ := Option.isSome_iff_exists.1 (h.found ref href)
      dsimp only
      rw [resolve_of_find? hp]
  refine Prod.ext ?_ hworld
  rw [lineage_declaredLineage, hworld, h.lineage]

end Lineages

section Refreshing

theorem finds_declaredLineage (w : World) (m : ModuleId) : Finds w (w.declaredLineage m).2 := by
  rw [world_declaredLineage]
  cases w.namedParent m with
  | none => exact fun _ _ h => h
  | some ref => exact finds_resolve w ref.path

theorem get_declaredLineage (w : World) (m u : ModuleId) :
    ((w.declaredLineage m).2.get u).decls = (w.get u).decls ∧
      ((w.declaredLineage m).2.get u).lineage = (w.get u).lineage ∧
      ((w.declaredLineage m).2.get u).subclasses = (w.get u).subclasses := by
  rw [world_declaredLineage]
  cases w.namedParent m with
  | none => exact ⟨rfl, rfl, rfl⟩
  | some ref => exact get_resolve w ref.path u

theorem find?_declaredLineage {ref : SuperclassRef} (h : w.namedParent m = some ref) :
    ((w.declaredLineage m).2.find? ref.path).isSome = true := by
  rw [world_declaredLineage, h]
  dsimp only
  rw [find?_resolve_self, Option.isSome_some]

/-- A module that takes over the lineage read off its declarations has the one that they amount
to, wherever it stands. -/
theorem derives_of_declaredLineage (hfind : Finds (w.declaredLineage m).2 w')
    (hdecls : (w'.get m).decls = (w.get m).decls)
    (hlineage : (w'.get m).lineage = (w.declaredLineage m).1) : w'.Derives m := by
  have hsame := (get_declaredLineage w m m).1
  have hnamed : (w.declaredLineage m).2.namedParent m = w.namedParent m := by
    rw [namedParent, hsame, namedParent]
  have hfound : ∀ ref, (w.declaredLineage m).2.namedParent m = some ref →
      ((w.declaredLineage m).2.find? ref.path).isSome = true :=
    fun ref href => find?_declaredLineage (hnamed ▸ href)
  constructor
  · rw [hlineage, lineage_declaredLineage, hdecls, ← hsame, lineageOf_congr hfind hfound]
  · intro ref href
    rw [namedParent, hdecls] at href
    obtain ⟨p, hp⟩ := Option.isSome_iff_exists.1 (find?_declaredLineage href)
    rw [hfind _ _ hp, Option.isSome_some]

theorem declaredLineage_of_not_knows (h : ¬w.Knows m) : w.declaredLineage m = ({}, w) := by
  have hblank := get_of_not_knows h
  have hnamed : w.namedParent m = none := by
    rw [namedParent, hblank]
    simp [OrderedMap.values]
  have hworld : (w.declaredLineage m).2 = w := by rw [world_declaredLineage, hnamed]
  refine Prod.ext ?_ hworld
  rw [lineage_declaredLineage, hblank]
  simp [lineageOf, OrderedMap.values]

theorem get_moveSubclass (w : World) (m : ModuleId) (old new : Option ModuleId) (u : ModuleId) :
    ∃ subclasses, (w.moveSubclass m old new).get u = { w.get u with subclasses } := by
  have hstep : ∀ (w : World) p (f : OrderedSet ModuleId → _), ∃ subclasses, (w.modify p fun x =>
      { x with subclasses := f x.subclasses }).get u = { w.get u with subclasses } := by
    intro w p f
    rw [get_modify]
    split
    · exact ⟨_, rfl⟩
    · exact ⟨_, rfl⟩
  unfold moveSubclass
  split
  · exact ⟨_, rfl⟩
  · cases old with
    | none =>
      cases new with
      | none => exact ⟨_, rfl⟩
      | some p => exact hstep w p (·.insert m)
    | some q =>
      cases new with
      | none => exact hstep w q (·.erase m)
      | some p =>
        obtain ⟨c, hc⟩ := hstep w q (·.erase m)
        obtain ⟨c', hc'⟩ := hstep (w.modify q _) p (·.insert m)
        exact ⟨c', hc'.trans (by rw [hc])⟩

theorem find?_moveSubclass (w : World) (m : ModuleId) (old new : Option ModuleId) :
    (w.moveSubclass m old new).find? = w.find? := by
  unfold moveSubclass
  split
  · rfl
  · cases old with
    | none =>
      cases new with
      | none => rfl
      | some p => exact find?_modify w p fun _ => rfl
    | some q =>
      cases new with
      | none => exact find?_modify w q fun _ => rfl
      | some p =>
        dsimp only
        rw [find?_modify, find?_modify] <;> exact fun _ => rfl

theorem mem_subclasses_moveSubclass {old new : Option ModuleId}
    (hold : ∀ p, m ∈ (w.get p).subclasses.toList ↔ old = some p)
    (hknown : ∀ p, old = some p ∨ new = some p → w.Knows p) (c p : ModuleId) :
    c ∈ ((w.moveSubclass m old new).get p).subclasses.toList ↔
      if c = m then new = some p else c ∈ (w.get p).subclasses.toList := by
  have herase : ∀ q, w.Knows q → (c ∈ ((w.modify q fun x =>
      { x with subclasses := x.subclasses.erase m }).get p).subclasses.toList ↔
      c ∈ (w.get p).subclasses.toList ∧ ¬(q = p ∧ c = m)) := by
    intro q hq
    rw [get_modify]
    split
    · next h => simp only [OrderedSet.mem_erase, h.1, true_and]
    · next h =>
      refine ⟨fun hc => ⟨hc, fun hpc => h ⟨hpc.1, hpc.1 ▸ hq⟩⟩, And.left⟩
  have hinsert : ∀ (w : World) q, w.Knows q → (c ∈ ((w.modify q fun x =>
      { x with subclasses := x.subclasses.insert m }).get p).subclasses.toList ↔
      c ∈ (w.get p).subclasses.toList ∨ q = p ∧ c = m) := by
    intro w q hq
    rw [get_modify]
    split
    · next h => simp only [OrderedSet.mem_insert, h.1, true_and]
    · next h =>
      refine ⟨Or.inl, fun hc => hc.elim id fun hpc => absurd ⟨hpc.1, hpc.1 ▸ hq⟩ h⟩
  unfold moveSubclass
  by_cases hsame : old = new
  · rw [if_pos hsame]
    split
    · next hc => rw [hc, hold p, hsame]
    · exact Iff.rfl
  · rw [if_neg hsame]
    cases old with
    | none =>
      cases new with
      | none => exact absurd rfl hsame
      | some q =>
        dsimp only
        rw [hinsert w q (hknown q (Or.inr rfl))]
        by_cases hc : c = m
        · simp [hc, hold p]
        · simp [hc]
    | some q =>
      have hq := hknown q (Or.inl rfl)
      cases new with
      | none =>
        dsimp only
        rw [herase q hq]
        by_cases hc : c = m
        · simp [hc, hold p]
        · simp [hc]
      | some q' =>
        dsimp only
        rw [hinsert _ q' (knows_modify.2 (hknown q' (Or.inr rfl))), herase q hq]
        by_cases hc : c = m
        · simp only [hc, hold p, Option.some.injEq, and_true, if_true]
          tauto
        · simp [hc]

theorem finds_refresh (w : World) (m : ModuleId) :
    Finds (w.declaredLineage m).2 (w.refresh m).2 := by
  intro path p hp
  unfold refresh
  dsimp only
  split
  · exact hp
  · rw [find?_moveSubclass, find?_modify]
    · exact hp
    · exact fun _ => rfl

theorem get_refresh (w : World) (m u : ModuleId) :
    ((w.refresh m).2.get u).decls = (w.get u).decls ∧ ((w.refresh m).2.get u).lineage =
      if u = m then (w.declaredLineage m).1 else (w.get u).lineage := by
  obtain ⟨hdecls, hlineage, -⟩ := get_declaredLineage w m u
  unfold refresh
  dsimp only
  split
  · next hsame =>
    refine ⟨hdecls, ?_⟩
    split
    · next hu => rw [hu, hsame]
    · exact hlineage
  · next hne =>
    have hm : (w.declaredLineage m).2.Knows m := by
      refine (Grows.declaredLineage w m).knows ?_
      by_contra hm
      rw [declaredLineage_of_not_knows hm, get_of_not_knows hm] at hne
      exact hne rfl
    obtain ⟨_, hmoved⟩ := get_moveSubclass ((w.declaredLineage m).2.modify m fun x =>
      { x with lineage := (w.declaredLineage m).1 }) m
      ((w.declaredLineage m).2.get m).lineage.superclass (w.declaredLineage m).1.superclass u
    rw [hmoved, get_modify]
    by_cases hu : u = m
    · rw [hu, if_pos ⟨rfl, hm⟩, if_pos rfl]
      exact ⟨(get_declaredLineage w m m).1, rfl⟩
    · rw [if_neg fun h => hu h.1.symm, if_neg hu]
      exact ⟨hdecls, hlineage⟩

theorem mem_subclasses_refresh (hclosed : w.Closed)
    (hm : ∀ p, m ∈ (w.get p).subclasses.toList ↔ (w.get m).superclass = some p)
    (c p : ModuleId) : c ∈ ((w.refresh m).2.get p).subclasses.toList ↔
      if c = m then (w.declaredLineage m).1.superclass = some p
      else c ∈ (w.get p).subclasses.toList := by
  have hclosed' := (Grows.declaredLineage w m).closed hclosed
  have hsuper : ((w.declaredLineage m).2.get m).superclass = (w.get m).superclass := by
    rw [Module.superclass, (get_declaredLineage w m m).2.1, Module.superclass]
  have hsub := fun u => (get_declaredLineage w m u).2.2
  unfold refresh
  dsimp only
  split
  · next hsame =>
    rw [hsub, ← hsame, ← Module.superclass, hsuper]
    split
    · next hc => rw [hc, hm p]
    · exact Iff.rfl
  · have hget : ∀ u, (((w.declaredLineage m).2.modify m fun x =>
        { x with lineage := (w.declaredLineage m).1 }).get u).subclasses =
          (w.get u).subclasses := fun u => by
      rw [get_modify, ← hsub u]
      split <;> rfl
    rw [mem_subclasses_moveSubclass, hget]
    · intro p
      rw [hget, ← Module.superclass, hsuper]
      exact hm p
    · rintro q (hq | hq)
      · exact knows_modify.2 ((hclosed'.within m).superclass q hq)
      · exact knows_modify.2 (knows_declaredLineage w m hclosed' q hq)

structure Related (w : World) : Prop where
  closed : w.Closed
  inverse : ∀ c p, c ∈ (w.get p).subclasses.toList ↔ (w.get c).superclass = some p
  derives : ∀ m, w.Derives m

theorem Related.resolve (h : w.Related) (path : ConstPath) : (w.resolve path).2.Related where
  closed := (Grows.resolve w path).closed h.closed
  inverse c p := by
    rw [Module.superclass, (get_resolve w path p).2.2, (get_resolve w path c).2.1]
    exact h.inverse c p
  derives m := (h.derives m).congr (finds_resolve w path)
    (congrArg OrderedMap.values (get_resolve w path m).1)
    (get_resolve w path m).2.1

theorem Related.refresh (hclosed : w.Closed)
    (hinverse : ∀ c p, c ∈ (w.get p).subclasses.toList ↔ (w.get c).superclass = some p)
    (hderives : ∀ u, u ≠ m → w.Derives u) : (w.refresh m).2.Related where
  closed := (Grows.refresh w m).closed hclosed
  inverse c p := by
    rw [mem_subclasses_refresh hclosed (hinverse m), Module.superclass, (get_refresh w m c).2]
    split
    · exact Iff.rfl
    · exact hinverse c p
  derives u := by
    by_cases hu : u = m
    · subst hu
      exact derives_of_declaredLineage (finds_refresh w u) (get_refresh w u u).1
        ((get_refresh w u u).2.trans (if_pos rfl))
    · refine (hderives u hu).congr ?_ (congrArg OrderedMap.values (get_refresh w m u).1)
        ((get_refresh w m u).2.trans (if_neg hu))
      exact fun path p hp => finds_refresh w m path p (finds_declaredLineage w m path p hp)

theorem Related.redeclare (h : w.Related) (m : ModuleId)
    (f : OrderedMap DefOrigin ModuleDecl → OrderedMap DefOrigin ModuleDecl) :
    ((w.modify m fun x => { x with decls := f x.decls }).refresh m).2.Related := by
  have hget : ∀ u, ∃ decls, (w.modify m fun x => { x with decls := f x.decls }).get u =
      { w.get u with decls } ∧ (u ≠ m → decls = (w.get u).decls) := fun u => by
    rw [get_modify]
    split
    · next hu => exact ⟨_, rfl, fun hne => absurd hu.1.symm hne⟩
    · exact ⟨_, rfl, fun _ => rfl⟩
  refine Related.refresh ?_ (fun c p => ?_) fun u hu => ?_
  · refine (Grows.aside rfl rfl rfl fun hc => ?_).closed h.closed
    exact (hc.within m).of_eq rfl rfl rfl
  · obtain ⟨_, hc, -⟩ := hget c
    obtain ⟨_, hp, -⟩ := hget p
    rw [hc, hp]
    exact h.inverse c p
  · obtain ⟨_, hx, hsame⟩ := hget u
    refine (h.derives u).congr (fun path p hp => ?_) ?_ ?_
    · rw [find?_modify]
      · exact hp
      · exact fun _ => rfl
    · rw [hx]
      exact congrArg OrderedMap.values (hsame hu)
    · rw [hx]

end Refreshing

section Walks

/-- The modules that are known, and one more. -/
def places (w : World) (m : ModuleId) : Finset ModuleId :=
  insert m ((Finset.range w.modules.size).image ModuleId.mk)

theorem mem_places (u : ModuleId) : u ∈ w.places m ↔ u = m ∨ w.Knows u := by
  simp only [places, Finset.mem_insert, Finset.mem_image, Finset.mem_range, Knows]
  refine or_congr_right ⟨?_, fun h => ⟨u.index, h, rfl⟩⟩
  rintro ⟨i, hi, rfl⟩
  exact hi

theorem foldl_steps (g : Module → Nat) (xs : List Module) (n : Nat) :
    xs.foldl (fun n x => n + g x + 1) n = n + (xs.map g).sum + xs.length := by
  induction xs generalizing n with
  | nil => simp
  | cons x xs ih =>
    rw [List.foldl_cons, ih, List.map_cons, List.sum_cons, List.length_cons]
    omega

/-- The steps allowed to a walk over all modules suffice for each way out of them. -/
theorem sum_places_le (w : World) (m : ModuleId) (g : Module → Nat) (hg : g {} = 0) (n : Nat) :
    n + ∑ u ∈ w.places m, g (w.get u) ≤ w.modules.foldl (fun n x => n + g x + 1) n := by
  have hsum : ∑ u ∈ w.places m, g (w.get u) = (w.modules.toList.map g).sum := by
    rw [places, Finset.sum_insert_of_eq_zero_if_notMem, Finset.sum_image]
    · rw [← Fin.sum_univ_fun_getElem, Finset.sum_range]
      refine Finset.sum_congr rfl fun i _ => ?_
      simp [get]
    · exact fun i _ j _ h => ModuleId.mk.inj h
    · intro hm
      rw [get_of_not_knows, hg]
      intro hk
      exact hm (Finset.mem_image.2 ⟨m.index, Finset.mem_range.2 hk, rfl⟩)
  rw [hsum, ← Array.foldl_toList, foldl_steps]
  omega

theorem mem_descendants_iff (hc : w.Closed) {x p : ModuleId} : x ∈ w.descendants p ↔
    ReflTransGen (fun a b => b ∈ (w.get a).subclasses.toList) p x := by
  unfold descendants
  refine mem_reach_iff (S := w.places p) ?_ ?_ ((mem_places p).2 (Or.inl rfl))
  · intro a _ b hb
    exact (mem_places b).2 (Or.inr ((hc.within a).subclasses b hb))
  · have hsteps := sum_places_le w p (fun x => x.subclasses.size) rfl 2
    simp only [OrderedSet.size] at hsteps ⊢
    omega

def sides (w : World) (s : Side) : Finset Side :=
  insert s (((Finset.range w.modules.size).image ModuleId.mk ×ˢ Finset.univ).image
    fun x : ModuleId × Bool => Side.mk x.1 x.2)

theorem mem_sides_self (w : World) (s : Side) : s ∈ w.sides s := Finset.mem_insert_self ..

theorem closed_sides (hc : w.Closed) (s : Side) :
    ∀ a ∈ w.sides s, ∀ b, w.parent? a = some b → b ∈ w.sides s := by
  intro a _ b hb
  have hk := hc.knows_parent hb
  refine Finset.mem_insert_of_mem (Finset.mem_image.2 ⟨(b.module, b.singleton), ?_, rfl⟩)
  exact Finset.mem_product.2 ⟨Finset.mem_image.2 ⟨_, Finset.mem_range.2 hk, rfl⟩,
    Finset.mem_univ _⟩

theorem card_sides_le (w : World) (s : Side) : (w.sides s).card ≤ 2 * w.modules.size + 1 := by
  have hinsert : (w.sides s).card ≤ _ + 1 := Finset.card_insert_le ..
  have hsides := Finset.card_image_le (s := (Finset.range w.modules.size).image ModuleId.mk ×ˢ
    Finset.univ) (f := fun x : ModuleId × Bool => Side.mk x.1 x.2)
  have hmodules := Finset.card_image_le (s := Finset.range w.modules.size) (f := ModuleId.mk)
  rw [Finset.card_product, Finset.card_univ, Fintype.card_bool] at hsides
  rw [Finset.card_range] at hmodules
  omega

theorem mem_chain_iff (hc : w.Closed) {s t : Side} :
    t ∈ w.chain s ↔ ReflTransGen (fun a b => w.parent? a = some b) s t :=
  mem_trail_iff (closed_sides hc s) (w.card_sides_le s) (w.mem_sides_self s)

theorem reflTransGen_parent?_iff {x p : ModuleId} :
    ReflTransGen (fun a b => w.parent? a = some b) ⟨x, false⟩ ⟨p, false⟩ ↔
      ReflTransGen (fun a b => (w.get a).superclass = some b) x p := by
  have hstep : ∀ a : ModuleId, w.parent? ⟨a, false⟩ =
      (w.get a).superclass.map fun q => ⟨q, false⟩ := fun a => rfl
  constructor
  · intro h
    have hall : ∀ t, ReflTransGen (fun a b => w.parent? a = some b) ⟨x, false⟩ t →
        t.singleton = false ∧
          ReflTransGen (fun a b => (w.get a).superclass = some b) x t.module := by
      intro t ht
      induction ht with
      | refl => exact ⟨rfl, .refl⟩
      | @tail b c _ hbc ih =>
        obtain ⟨bm, bs⟩ := b
        obtain ⟨rfl, hpath⟩ := ih
        rw [hstep, Option.map_eq_some_iff] at hbc
        obtain ⟨q, hq, rfl⟩ := hbc
        exact ⟨rfl, hpath.tail hq⟩
    exact (hall _ h).2
  · intro h
    induction h with
    | refl => exact .refl
    | tail _ hab ih => exact ih.tail (by rw [hstep, hab, Option.map_some])

theorem Related.mem_descendants_iff_mem_chain (h : w.Related) (x p : ModuleId) :
    x ∈ w.descendants p ↔ (⟨p, false⟩ : Side) ∈ w.chain ⟨x, false⟩ := by
  rw [mem_descendants_iff h.closed, mem_chain_iff h.closed, reflTransGen_parent?_iff,
    ← reflTransGen_swap]
  have hrel : (fun a b => b ∈ (w.get a).subclasses.toList) =
      Function.swap fun a b => (w.get a).superclass = some b := by
    funext a b
    exact propext (h.inverse b a)
  rw [hrel]

end Walks

end World

/-- A change of the hierarchy. -/
inductive HierarchyOp where
  | resolve (path : ConstPath)
  | declare (m : ModuleId) (origin : DefOrigin) (decl : ModuleDecl)
  | withdraw (m : ModuleId) (origin : DefOrigin)

namespace Engine

def arrange (e : Engine) : HierarchyOp → Engine
  | .resolve path => (e.resolvePath path).2
  | .declare m origin decl => e.addModuleDecl m origin decl
  | .withdraw m origin => e.removeModuleDecl m origin

@[simp] theorem world_scheduleAll (e : Engine) (ss : List SiteId) :
    (e.scheduleAll ss).world = e.world := by
  unfold scheduleAll
  induction ss generalizing e with
  | nil => rfl
  | cons s ss ih =>
    rw [List.foldl_cons, ih]
    unfold schedule
    split <;> rfl

theorem related_arrange {e : Engine} (h : e.world.Related) (op : HierarchyOp) :
    (e.arrange op).world.Related := by
  cases op with
  | resolve path => exact h.resolve path
  | declare m origin decl =>
    have hdeclare := h.redeclare m (·.insert origin decl)
    unfold arrange addModuleDecl
    dsimp only
    split
    · rw [scheduleDependents, world_scheduleAll]
      exact hdeclare
    · exact hdeclare
  | withdraw m origin =>
    have hwithdraw := h.redeclare m (·.erase origin)
    unfold arrange removeModuleDecl
    dsimp only
    split
    · rw [scheduleDependents, world_scheduleAll]
      exact hwithdraw
    · exact hwithdraw

theorem related_foldl_arrange {e : Engine} (h : e.world.Related) (ops : List HierarchyOp) :
    (ops.foldl arrange e).world.Related := by
  induction ops generalizing e with
  | nil => exact h
  | cons op ops ih => exact ih (related_arrange h op)

end Engine

theorem World.Related.of_known {w : World} (hcore : Core.names.length ≤ w.modules.size)
    (hwithin : ∀ i < w.modules.size, (∀ p ∈ (w.get ⟨i⟩).superclass, w.Knows p) ∧
      (∀ t ∈ (w.get ⟨i⟩).included, w.Knows t) ∧ ∀ c ∈ (w.get ⟨i⟩).subclasses.toList, w.Knows c)
    (hinverse : ∀ i < w.modules.size, ∀ j < w.modules.size,
      ⟨i⟩ ∈ (w.get ⟨j⟩).subclasses.toList ↔ (w.get ⟨i⟩).superclass = some ⟨j⟩)
    (hderives : ∀ i < w.modules.size,
      (w.get ⟨i⟩).lineage = w.lineageOf ⟨i⟩ (w.get ⟨i⟩).decls.values ∧
      ∀ ref ∈ w.namedParent ⟨i⟩, (w.find? ref.path).isSome = true) : w.Related := by
  have hclosed : w.Closed := by
    refine ⟨hcore, fun m => ?_⟩
    by_cases hm : w.Knows m
    · exact ⟨(hwithin _ hm).1, (hwithin _ hm).2.1, (hwithin _ hm).2.2⟩
    · rw [World.get_of_not_knows hm]
      exact Module.within_blank _ []
  refine ⟨hclosed, fun c p => ?_, fun m => ?_⟩
  · constructor
    · intro hc
      have hp : w.Knows p := by
        by_contra hp
        rw [World.get_of_not_knows hp] at hc
        exact absurd hc List.not_mem_nil
      exact (hinverse _ ((hclosed.within p).subclasses c hc) _ hp).1 hc
    · intro hp
      have hc : w.Knows c := by
        by_contra hc
        rw [World.get_of_not_knows hc] at hp
        exact absurd hp (Option.some_ne_none p).symm
      exact (hinverse _ hc _ ((hclosed.within c).superclass p hp)).2 hp
  · by_cases hm : w.Knows m
    · exact ⟨(hderives _ hm).1, (hderives _ hm).2⟩
    · have hread := World.declaredLineage_of_not_knows hm
      refine World.derives_of_declaredLineage (fun path p hp => ?_) rfl ?_
      · rwa [hread] at hp
      · rw [hread, World.get_of_not_knows hm]

theorem related_boot (config : Config) : (Engine.boot config).world.Related := by
  rw [Engine.world_boot]
  exact World.Related.of_known (by decide +kernel) (by decide +kernel) (by decide +kernel)
    (by decide +kernel)

/-- After any changes of the hierarchy, circles included: the subclasses of a module are the modules
that have it as superclass; the lineage of a module is the one that its present declarations amount
to, and reading it off again changes nothing; and a module is found going down from another if and
only if the other is found going up from it. Both walks list nothing twice and begin where they were
asked to. -/
theorem hierarchy_consistent (config : Config) (ops : List HierarchyOp) :
    let w := (ops.foldl Engine.arrange (Engine.boot config)).world
    (∀ c p, c ∈ (w.get p).subclasses.toList ↔ (w.get c).superclass = some p) ∧
    (∀ m, (w.get m).lineage = w.lineageOf m (w.get m).decls.values ∧
      w.declaredLineage m = ((w.get m).lineage, w)) ∧
    (∀ x p, x ∈ w.descendants p ↔ (⟨p, false⟩ : Side) ∈ w.chain ⟨x, false⟩) ∧
    (∀ p, (w.descendants p).Nodup ∧ (w.descendants p).head? = some p) ∧
    ∀ s, (w.chain s).Nodup ∧ (w.chain s).head? = some s := by
  intro w
  have hrelated : w.Related := Engine.related_foldl_arrange (related_boot config) ops
  refine ⟨hrelated.inverse, fun m => ?_, hrelated.mem_descendants_iff_mem_chain, fun p => ?_,
    fun s => ?_⟩
  · exact ⟨(hrelated.derives m).lineage, World.declaredLineage_of_derives (hrelated.derives m)⟩
  · refine ⟨nodup_reach _ _, ?_⟩
    have hsteps := w.sum_places_le p (fun x => x.subclasses.size) rfl 2
    exact head?_reach (by omega) p []
  · exact ⟨nodup_trail _ _, head?_trail (by omega) s⟩

end TypeFlow
