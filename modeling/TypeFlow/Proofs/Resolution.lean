import TypeFlow.Proofs.Navigation

/-!
# A look-up depends on what it notes

A look-up goes through aliases, inclusions and superclasses, each of which may run in circles. It
ends, for no place is searched twice, and it notes an entry of every module that it comes to. A
world that agrees there leads it the same way, however many modules and methods it has besides:
whatever else changes need not be looked at again.
-/

set_option autoImplicit false

namespace TypeFlow

/-- What a look-up reads when it consults an entry is the same in two worlds: whether it ends there,
where it is redirected to, and what the module descends from and includes. -/
structure World.SameAt (w w' : World) (key : MemberKey) : Prop where
  defined : Lookup.isDefined w' key = Lookup.isDefined w key
  redirect : Lookup.redirect w' key.side key.name = Lookup.redirect w key.side key.name
  lineage : (w'.get key.side.module).lineage = (w.get key.side.module).lineage
  isClass : (w'.get key.side.module).isClass = (w.get key.side.module).isClass
  inclusions : Lookup.inclusions w' key.side.module = Lookup.inclusions w key.side.module

namespace Lookup

open World

variable {w w' : World}

section Aliases

theorem finalName_mem (w : World) (side : Side) (name : String) :
    finalName w side name ∈ aliasTrail w side name := by
  have hne := aliasTrail_ne_nil w side name
  have hlast := List.getLast_mem hne
  unfold finalName
  rw [List.getLast?_eq_some_getLast hne, Option.getD_some]
  dsimp only
  cases hred : redirect w side ((aliasTrail w side name).getLast hne) with
  | none => exact hlast
  | some x => exact mem_aliasTrail_of_redirect hlast hred

theorem aliasTrail_congr {side : Side} {name : String}
    (h : ∀ x ∈ aliasTrail w side name, redirect w' side x = redirect w side x) :
    aliasTrail w' side name = aliasTrail w side name :=
  trailFrom_congr (closed_targets w side name) (closed_targets w' side name) _ _ []
    (Finset.mem_insert_self ..) (Finset.mem_insert_self ..)
    (by simpa using card_targets_le w side name) (by simpa using card_targets_le w' side name) h

theorem own_congr {side : Side} {l : Lookup}
    (h : ∀ key ∈ (l.own w side).consulted, w.SameAt w' key) : l.own w' side = l.own w side := by
  have hat : ∀ x ∈ aliasTrail w side l.name, w.SameAt w' ⟨side, x⟩ := fun x hx =>
    h _ (List.mem_append.2 (.inr (List.mem_map_of_mem hx)))
  have htrail := aliasTrail_congr fun x hx => (hat x hx).redirect
  have hfinal : finalName w' side l.name = finalName w side l.name := by
    have hne := aliasTrail_ne_nil w side l.name
    unfold finalName
    rw [htrail, List.getLast?_eq_some_getLast hne, Option.getD_some]
    dsimp only
    rw [(hat _ (List.getLast_mem hne)).redirect]
  have hdefined := (hat _ (finalName_mem w side l.name)).defined
  unfold own
  rw [htrail, hfinal]
  dsimp only
  rw [hdefined]

theorem exists_mem_consulted_own (w : World) (side : Side) (l : Lookup) :
    ∃ key ∈ (l.own w side).consulted, key.side = side :=
  ⟨⟨side, finalName w side l.name⟩,
    List.mem_append.2 (.inr (List.mem_map_of_mem (finalName_mem w side l.name))), rfl⟩

end Aliases

section Inclusions

variable {s : List ModuleId × Lookup} {n n' : Nat} {searched : List ModuleId} {S : Finset ModuleId}
    {m : ModuleId}

def Grows (s s' : List ModuleId × Lookup) : Prop :=
  s.1 ⊆ s'.1 ∧ s.2.consulted ⊆ s'.2.consulted

theorem Grows.refl (s : List ModuleId × Lookup) : Grows s s := ⟨fun _ => id, fun _ => id⟩

theorem Grows.trans {s' s'' : List ModuleId × Lookup} (h : Grows s s') (h' : Grows s' s'') :
    Grows s s'' := ⟨fun _ hx => h'.1 (h.1 hx), fun _ hx => h'.2 (h.2 hx)⟩

theorem grows_own (w : World) (side : Side) (v : Visit) (s : List ModuleId × Lookup) :
    Grows s (s.1, (s.2.visit v).own w side) :=
  ⟨fun _ => id, fun _ hx => List.mem_append.2 (.inl hx)⟩

def search (w : World) (n : Nat) (s : List ModuleId × Lookup) (inc : ModuleId × List SigType) :
    List ModuleId × Lookup :=
  if s.2.found.isSome then s
  else
    let s := (s.1, (s.2.visit (.enter inc.1 inc.2)).own w ⟨inc.1, false⟩)
    if s.2.found.isSome then s
    else
      let s := included w n inc.1 s
      if s.2.found.isSome then s else (s.1, s.2.visit .leave)

theorem included_succ (w : World) (n : Nat) (m : ModuleId) (searched : List ModuleId) (l : Lookup) :
    included w (n + 1) m (searched, l) = if m ∈ searched then (searched, l)
      else (inclusions w m).foldl (search w n) (m :: searched, l) := by
  rw [included]
  rfl

theorem grows_foldl {step : List ModuleId × Lookup → ModuleId × List SigType →
    List ModuleId × Lookup} (h : ∀ s inc, Grows s (step s inc))
    (incs : List (ModuleId × List SigType)) (s : List ModuleId × Lookup) :
    Grows s (incs.foldl step s) := by
  induction incs generalizing s with
  | nil => exact .refl s
  | cons inc incs ih => exact (h s inc).trans (ih (step s inc))

theorem grows_search (h : ∀ m s, Grows s (included w n m s))
    (s : List ModuleId × Lookup) (inc : ModuleId × List SigType) :
    Grows s (search w n s inc) := by
  have hown := grows_own w ⟨inc.1, false⟩ (.enter inc.1 inc.2) s
  have hdeep := hown.trans (h inc.1 _)
  unfold search
  split
  · exact .refl s
  dsimp only
  split
  · exact hown
  split
  · exact hdeep
  · exact hdeep

theorem grows_included (w : World) (n : Nat) (m : ModuleId) (s : List ModuleId × Lookup) :
    Grows s (included w n m s) := by
  induction n generalizing m s with
  | zero => exact .refl s
  | succ n ih =>
    obtain ⟨searched, l⟩ := s
    rw [included_succ]
    split
    · exact .refl _
    · have hstart : Grows (searched, l) (m :: searched, l) :=
        ⟨fun _ => List.mem_cons_of_mem m, fun _ => id⟩
      exact hstart.trans (grows_foldl (grows_search ih) (inclusions w m) _)

theorem search_congr {inc : ModuleId × List SigType}
    (hdeep : ∀ l : Lookup, inclusions w' inc.1 = inclusions w inc.1 →
      (∀ key ∈ (included w n inc.1 (s.1, l)).2.consulted, w.SameAt w' key) →
      included w' n' inc.1 (s.1, l) = included w n inc.1 (s.1, l))
    (h : ∀ key ∈ (search w n s inc).2.consulted, w.SameAt w' key) :
    search w' n' s inc = search w n s inc := by
  unfold search at h ⊢
  split
  · rfl
  · next hfound =>
    rw [if_neg hfound] at h
    dsimp only at h ⊢
    set l := (s.2.visit (.enter inc.1 inc.2)).own w ⟨inc.1, false⟩ with hl
    have hsame : ∀ key ∈ l.consulted, w.SameAt w' key := by
      intro key hkey
      refine h key ?_
      split
      · exact hkey
      · have hgrows := (grows_included w n inc.1 (s.1, l)).2 hkey
        split <;> exact hgrows
    rw [own_congr hsame]
    rw [← hl]
    split
    · rfl
    · next hown =>
      rw [if_neg hown] at h
      obtain ⟨key, hkey, hside⟩ := exists_mem_consulted_own w ⟨inc.1, false⟩
        (s.2.visit (.enter inc.1 inc.2))
      have hincl : inclusions w' inc.1 = inclusions w inc.1 := by
        have hinclusions := (hsame key hkey).inclusions
        rwa [hside] at hinclusions
      have hnoted : ∀ key ∈ (included w n inc.1 (s.1, l)).2.consulted, w.SameAt w' key := by
        intro key hkey
        refine h key ?_
        split <;> exact hkey
      rw [hdeep l hincl hnoted]

theorem foldl_search_congr
    {incs : List (ModuleId × List SigType)}
    (hdeep : ∀ inc ∈ incs, ∀ (searched' : List ModuleId) (l : Lookup), searched ⊆ searched' →
      inclusions w' inc.1 = inclusions w inc.1 →
      (∀ key ∈ (included w n inc.1 (searched', l)).2.consulted, w.SameAt w' key) →
      included w' n' inc.1 (searched', l) = included w n inc.1 (searched', l)) (hs : searched ⊆ s.1)
    (h : ∀ key ∈ (incs.foldl (search w n) s).2.consulted, w.SameAt w' key) :
    incs.foldl (search w' n') s = incs.foldl (search w n) s := by
  induction incs generalizing s with
  | nil => rw [List.foldl_nil, List.foldl_nil]
  | cons inc incs ih =>
    rw [List.foldl_cons] at h
    have hgrows := grows_search (grows_included w n) s inc
    have hlater := grows_foldl (grows_search (grows_included w n)) incs (search w n s inc)
    have hstep : search w' n' s inc = search w n s inc :=
      search_congr (fun l => hdeep inc List.mem_cons_self s.1 l hs)
        fun key hkey => h key (hlater.2 hkey)
    rw [List.foldl_cons, List.foldl_cons, hstep]
    exact ih (fun x hx => hdeep x (List.mem_cons_of_mem _ hx)) (fun x hx => hgrows.1 (hs hx)) h

theorem card_left_le {searched' : List ModuleId}
    (hm : m ∈ S) (hseen : m ∉ searched) (hsub : m :: searched ⊆ searched')
    (hn : (S \ searched.toFinset).card ≤ n + 1) : (S \ searched'.toFinset).card ≤ n := by
  have hone := card_sdiff_insert hm (fun h => hseen (List.mem_toFinset.1 h))
  have hless : (S \ searched'.toFinset).card ≤ (S \ insert m searched.toFinset).card := by
    rw [← List.toFinset_cons]
    exact Finset.card_le_card (Finset.sdiff_subset_sdiff subset_rfl
      fun x hx => List.mem_toFinset.2 (hsub (List.mem_toFinset.1 hx)))
  omega

theorem included_of_mem (w : World) (n : Nat)
    (h : m ∈ searched) (l : Lookup) : included w n m (searched, l) = (searched, l) := by
  cases n with
  | zero => rfl
  | succ n => rw [included_succ, if_pos h]

/-- The induction is on the depth left. As long as there is a level for each module that is not
searched yet, the depth cuts off nothing. -/
theorem included_congr {T : Finset ModuleId} (hS : ∀ x ∈ S, ∀ inc ∈ inclusions w x, inc.1 ∈ S)
    (hT : ∀ x ∈ T, ∀ inc ∈ inclusions w' x, inc.1 ∈ T) (n n' : Nat) (hm : m ∈ S)
    (hm' : m ∈ T) {l : Lookup}
    (hn : (S \ searched.toFinset).card ≤ n) (hn' : (T \ searched.toFinset).card ≤ n')
    (hincl : inclusions w' m = inclusions w m)
    (h : ∀ key ∈ (included w n m (searched, l)).2.consulted, w.SameAt w' key) :
    included w' n' m (searched, l) = included w n m (searched, l) := by
  induction n generalizing n' m searched l with
  | zero =>
    have hseen : m ∈ searched := (mem_seen_of_steps hm hn).resolve_left (by simp)
    rw [included_of_mem w' n' hseen, included_of_mem w 0 hseen]
  | succ n ih =>
    by_cases hseen : m ∈ searched
    · rw [included_of_mem w' n' hseen, included_of_mem w (n + 1) hseen]
    · obtain ⟨n', rfl⟩ : ∃ k, n' = k + 1 :=
        Nat.exists_eq_add_one_of_ne_zero ((mem_seen_of_steps hm' hn').resolve_right hseen)
      have hsearch := included_succ w n m searched l
      rw [if_neg hseen] at hsearch
      rw [hsearch] at h ⊢
      rw [included_succ, if_neg hseen, hincl]
      refine foldl_search_congr (fun inc hinc searched' l hsub hincl' hl => ?_) (fun _ => id) h
      exact ih n' (hS m hm inc hinc) (hT m hm' inc (hincl ▸ hinc)) (card_left_le hm hseen hsub hn)
        (card_left_le hm' hseen hsub hn') hincl' hl

theorem closed_inclusions (hc : w.Closed) (m : ModuleId) :
    ∀ x ∈ w.places m, ∀ inc ∈ inclusions w x, inc.1 ∈ w.places m := fun x _ _ hinc =>
  (mem_places _).2 (.inr ((hc.within x).included _ (fst_mem_included hinc)))

end Inclusions

section Sides

variable {side : Side} {l : Lookup} {key : MemberKey}

theorem consulted_own_subset_atSide (w : World) (side : Side) (l : Lookup) :
    (l.own w side).consulted ⊆ (l.atSide w side).consulted := by
  unfold atSide
  dsimp only
  split
  · exact fun _ => id
  · exact (grows_included w _ side.module ([], l.own w side)).2

theorem consulted_ascend (w : World) (side : Side) (l : Lookup) :
    (l.ascend w side).consulted = l.consulted := by
  unfold ascend
  split <;> rfl

theorem along_cons (w : World) (side : Side) (rest : List Side) (l : Lookup) :
    along w (side :: rest) l = if (l.atSide w side).found.isSome then l.atSide w side
      else along w rest ((l.atSide w side).ascend w side) := rfl

theorem consulted_subset_along (w : World) (sides : List Side) (l : Lookup) :
    l.consulted ⊆ (along w sides l).consulted := by
  induction sides generalizing l with
  | nil => exact fun _ => id
  | cons side sides ih =>
    have hside : l.consulted ⊆ (l.atSide w side).consulted := fun _ hx =>
      consulted_own_subset_atSide w side l (List.mem_append.2 (.inl hx))
    rw [along_cons]
    split
    · exact hside
    · exact fun _ hx => ih _ ((consulted_ascend w side (l.atSide w side)).symm ▸ hside hx)

theorem consulted_atSide_subset_along (w : World) (side : Side) (rest : List Side) (l : Lookup) :
    (l.atSide w side).consulted ⊆ (along w (side :: rest) l).consulted := by
  rw [along_cons]
  split
  · exact fun _ => id
  · rw [← consulted_ascend w side]
    exact consulted_subset_along w rest _

theorem atSide_congr (hc : w.Closed) (hc' : w'.Closed)
    (h : ∀ key ∈ (l.atSide w side).consulted, w.SameAt w' key) :
    l.atSide w' side = l.atSide w side := by
  have hsame : ∀ key ∈ (l.own w side).consulted, w.SameAt w' key := fun key hkey =>
    h key (consulted_own_subset_atSide w side l hkey)
  unfold atSide at h ⊢
  rw [own_congr hsame]
  dsimp only at h ⊢
  split
  · rfl
  · next hgoes =>
    rw [if_neg hgoes] at h
    obtain ⟨key, hkey, rfl⟩ := exists_mem_consulted_own w side l
    rw [included_congr (closed_inclusions hc _) (closed_inclusions hc' _) (w.modules.size + 1)
      (w'.modules.size + 1) ((mem_places _).2 (.inl rfl)) ((mem_places _).2 (.inl rfl))
      (by simpa using w.card_places_le _) (by simpa using w'.card_places_le _)
      (hsame key hkey).inclusions h]

theorem parent?_congr (h : w.SameAt w' key) :
    w'.parent? key.side = w.parent? key.side := by
  have hsuper : (w'.get key.side.module).superclass = (w.get key.side.module).superclass :=
    congrArg Lineage.superclass h.lineage
  unfold parent?
  rw [hsuper, h.isClass]

theorem ascend_congr (h : w.SameAt w' key) (l : Lookup) :
    l.ascend w' key.side = l.ascend w key.side := by
  unfold ascend
  rw [parent?_congr h, h.lineage]

theorem trailFrom_of_mem {next : Side → Option Side} (n : Nat) {seen : List Side}
    (h : side ∈ seen) : trailFrom next n seen side = [] := by
  cases n with
  | zero => rfl
  | succ n => rw [trailFrom, if_pos h]

/-- The induction is on the steps left. Where the method is found, the rest of the chain does not
matter, and it may be another one. -/
theorem along_congr (hc : w.Closed) (hc' : w'.Closed) {S T : Finset Side}
    (hS : ∀ x ∈ S, ∀ y, w.parent? x = some y → y ∈ S)
    (hT : ∀ x ∈ T, ∀ y, w'.parent? x = some y → y ∈ T) (n n' : Nat) (seen : List Side)
    (hs : side ∈ S) (hs' : side ∈ T) (hn : (S \ seen.toFinset).card ≤ n)
    (hn' : (T \ seen.toFinset).card ≤ n')
    (h : ∀ key ∈ (along w (trailFrom w.parent? n seen side) l).consulted, w.SameAt w' key) :
    along w' (trailFrom w'.parent? n' seen side) l =
      along w (trailFrom w.parent? n seen side) l := by
  induction n generalizing n' seen side l with
  | zero =>
    have hseen : side ∈ seen := (mem_seen_of_steps hs hn).resolve_left (by simp)
    rw [trailFrom_of_mem n' hseen, trailFrom_of_mem 0 hseen, along, along]
  | succ n ih =>
    by_cases hseen : side ∈ seen
    · rw [trailFrom_of_mem n' hseen, trailFrom_of_mem (n + 1) hseen, along, along]
    · obtain ⟨n', rfl⟩ : ∃ k, n' = k + 1 :=
        Nat.exists_eq_add_one_of_ne_zero ((mem_seen_of_steps hs' hn').resolve_right hseen)
      rw [trailFrom, if_neg hseen] at h
      have hsame : ∀ key ∈ (l.atSide w side).consulted, w.SameAt w' key := fun key hkey =>
        h key (consulted_atSide_subset_along w side _ l hkey)
      obtain ⟨key, hkey, rfl⟩ := exists_mem_consulted_own w side l
      have hkey := hsame key (consulted_own_subset_atSide w _ l hkey)
      rw [trailFrom, if_neg hseen, trailFrom, if_neg hseen, along_cons, along_cons,
        atSide_congr hc hc' hsame, parent?_congr hkey, ascend_congr hkey]
      split
      · rfl
      · next hfound =>
        rw [along_cons, if_neg hfound] at h
        cases hp : w.parent? key.side with
        | none => rw [along, along]
        | some p =>
          rw [hp] at h
          have hone := card_sdiff_insert hs (fun h => hseen (List.mem_toFinset.1 h))
          have hone' := card_sdiff_insert hs' (fun h => hseen (List.mem_toFinset.1 h))
          rw [← List.toFinset_cons] at hone hone'
          exact ih n' (key.side :: seen) (hS _ hs p hp)
            (hT _ hs' p ((parent?_congr hkey).trans hp)) (by omega) (by omega) h

end Sides

end Lookup

theorem World.lookup_congr {w w' : World} (hc : w.Closed) (hc' : w'.Closed) {side : Side}
    {name : String} (h : ∀ key ∈ (w.lookup side name).consulted, w.SameAt w' key) :
    w'.lookup side name = w.lookup side name :=
  Lookup.along_congr hc hc' (closed_sides hc side) (closed_sides hc' side) _ _ []
    (w.mem_sides_self side) (w'.mem_sides_self side) (by simpa using w.card_sides_le side)
    (by simpa using w'.card_sides_le side) h

structure World.Alike (w w' : World) : Prop where
  agrees : w.Agrees w'
  defined : ∀ key, Lookup.isDefined w' key = Lookup.isDefined w key
  redirect : ∀ side name, Lookup.redirect w' side name = Lookup.redirect w side name
  entries : ∀ key, w'.method? key = w.method? key ∨
    w.method? key = none ∧ w'.method? key = some {}

namespace World.Alike

open Lookup

variable {w w' w'' : World}

theorem refl (w : World) : Alike w w := ⟨.refl w, fun _ => rfl, fun _ _ => rfl, fun _ => .inl rfl⟩

theorem trans (h : Alike w w') (h' : Alike w' w'') : Alike w w'' := by
  refine ⟨h.agrees.trans h'.agrees, fun key => (h'.defined key).trans (h.defined key),
    fun side name => (h'.redirect side name).trans (h.redirect side name), fun key => ?_⟩
  rcases h.entries key, h'.entries key with ⟨h1 | ⟨h1, h1'⟩, h2 | ⟨h2, h2'⟩⟩
  · exact .inl (h2.trans h1)
  · exact .inr ⟨h1.symm.trans h2, h2'⟩
  · exact .inr ⟨h1, h2.trans h1'⟩
  · cases h1'.symm.trans h2

theorem of_method? (h : w.Agrees w') (hm : ∀ key, w'.method? key = w.method? key) : Alike w w' :=
  ⟨h, fun key => congrArg (Option.any MethodEntity.exists?) (hm key),
    fun side name => congrArg (Option.bind · MethodEntity.aliasTarget) (hm ⟨side, name⟩),
    fun key => .inl (hm key)⟩

theorem sameAt (h : Alike w w') (key : MemberKey) : w.SameAt w' key where
  defined := h.defined key
  redirect := h.redirect key.side key.name
  lineage := (h.agrees.akin _).lineage
  isClass := by
    unfold Module.isClass
    rw [(h.agrees.akin _).decls]
  inclusions := by
    unfold Lookup.inclusions
    rw [(h.agrees.akin _).includes]

theorem lookup (h : Alike w w') (hc : w.Closed) (side : Side) (name : String) :
    w'.lookup side name = w.lookup side name :=
  lookup_congr hc (h.agrees.closed hc) fun key _ => h.sameAt key

theorem resolve (w : World) (path : ConstPath) : Alike w (w.resolve path).2 := by
  refine .of_method? (Stays.resolve w path).agrees fun key => ?_
  unfold World.resolve
  split
  · rfl
  · unfold method?
    rw [get_push]
    split
    · next hnew =>
      have hblank : w.get key.side.module = {} :=
        get_of_not_knows fun h => by unfold Knows at h; omega
      rw [hblank]
    · rfl

theorem modify {m : ModuleId} {f : Module → Module} (h : w.Agrees (w.modify m f))
    (hf : ∀ x, (f x).methods = x.methods) : Alike w (w.modify m f) := by
  refine .of_method? h fun key => ?_
  unfold method?
  rw [get_modify]
  split
  · rw [hf]
  · rfl

theorem consult (w : World) (key : MemberKey) : Alike w (w.modifyMethod key id) := by
  have hentry : ∀ key', (w.modifyMethod key id).method? key' = w.method? key' ∨
      w.method? key' = none ∧ (w.modifyMethod key id).method? key' = some {} := by
    intro key'
    unfold method? modifyMethod
    rw [get_modify]
    split
    · rw [Sided.get_modify]
      split
      · rw [OrderedMap.get?_upsert]
        split
        · next hname =>
          rw [← hname]
          cases ((w.get key'.side.module).methods.get key'.side.singleton).get? key.name with
          | none => exact .inr ⟨rfl, rfl⟩
          | some m => exact .inl rfl
        · exact .inl rfl
      · exact .inl rfl
    · exact .inl rfl
  refine ⟨.modifyMethod w key fun _ => rfl, fun key' => ?_, fun side name => ?_, hentry⟩
  · unfold isDefined
    rcases hentry key' with h | ⟨h, h'⟩
    · rw [h]
    · rw [h, h']
      rfl
  · unfold Lookup.redirect
    rcases hentry ⟨side, name⟩ with h | ⟨h, h'⟩
    · rw [h]
    · rw [h, h']
      rfl

end World.Alike

instance Engine.bearsAlike : Engine.Bears fun e e' => e.world.Alike e'.world where
  refl e := .refl e.world
  trans := .trans
  newVertex e _ _ := .refl e.world
  newSource e _ _ := .refl e.world
  source e _ := .refl e.world
  resolvePath e path := .resolve e.world path
  consult e key := .consult e.world key
  ensureConst e key := by
    have hagrees := (e.stays_ensureConst key).agrees
    unfold Engine.ensureConst at hagrees ⊢
    split
    · exact .refl e.world
    · next h =>
      rw [h] at hagrees
      exact .modify hagrees fun _ => rfl
  ensureIvar e key := by
    have hagrees := (e.stays_ensureIvar key).agrees
    unfold Engine.ensureIvar at hagrees ⊢
    split
    · exact .refl e.world
    · next h =>
      rw [h] at hagrees
      exact .modify hagrees fun _ => rfl
  globalVertex e name := by
    unfold Engine.globalVertex
    split <;> exact .refl e.world

open Staging

structure Quiet {α : Type} (m : Staging α) : Prop where
  ends : ∀ r, ∃ a r', m r = some (a, r') ∧
    r'.effects.pending.methodReads = r.effects.pending.methodReads

namespace Quiet

variable {α β : Type}

theorem pure (a : α) : Quiet (pure a : Staging α) := ⟨fun r => ⟨a, r, rfl, rfl⟩⟩

theorem bind {m : Staging α} {f : α → Staging β} (hm : Quiet m) (hf : ∀ a, Quiet (f a)) :
    Quiet (m >>= f) := by
  refine ⟨fun r => ?_⟩
  obtain ⟨a, r1, h1, hreads1⟩ := hm.ends r
  obtain ⟨b, r2, h2, hreads2⟩ := (hf a).ends r1
  exact ⟨b, r2, Option.bind_eq_some_iff.2 ⟨(a, r1), h1, h2⟩, hreads2.trans hreads1⟩

theorem ite {c : Prop} [Decidable c] {m m' : Staging α} (hm : Quiet m) (hm' : Quiet m') :
    Quiet (if c then m else m') := by
  split
  · exact hm
  · exact hm'

theorem onEngine (f : Engine → α × Engine) : Quiet (onEngine f) := ⟨fun _ => ⟨_, _, rfl, rfl⟩⟩

theorem engine : Quiet engine := ⟨fun r => ⟨r.engine, r, rfl, rfl⟩⟩

theorem addEdges (srcs : List VertexId) (dst : VertexId) : Quiet (addEdges srcs dst) := by
  induction srcs with
  | nil => exact .pure _
  | cons src srcs ih => exact .bind ⟨fun _ => ⟨_, _, rfl, rfl⟩⟩ fun _ => ih

theorem scratch (label : String) (fit : Vertex → Bool) (create : Engine → VertexId × Engine) :
    Quiet (scratch label fit create) := ⟨fun _ => ⟨_, _, rfl, rfl⟩⟩

theorem typeSource (label : String) (t : Ty) : Quiet (typeSource label t) :=
  .ite (.onEngine _) (.scratch ..)

theorem receiverMap (recv : Ty) : Quiet (receiverMap recv) :=
  .bind (.typeSource ..) fun _ => .pure _

theorem unionOf (members : List VertexId) : Quiet (SigType.unionOf members) :=
  .bind .engine fun _ => .ite (.scratch ..)
    (.bind (.scratch ..) fun _ => .bind (.addEdges ..) fun _ => .pure _)

mutual

theorem vertex (map : ParamMap) : (t : SigType) → Quiet (t.vertex map)
  | .instanceOf path args => by
    unfold SigType.vertex
    refine .bind (.onEngine _) fun m => .ite (.onEngine _) ?_
    exact .bind (vertices map args) fun _ => .scratch ..
  | .singletonOf path => by
    unfold SigType.vertex
    exact .bind (.onEngine _) fun _ => .onEngine _
  | .var name => by
    unfold SigType.vertex
    split
    · exact .pure _
    · exact .onEngine _
  | .receiver => by
    unfold SigType.vertex
    split
    · exact .pure _
    · exact .onEngine _
  | .union members => by
    unfold SigType.vertex
    exact .bind (vertices map members) fun _ => .unionOf _
  | .optional inner => by
    unfold SigType.vertex
    exact .bind (vertex map inner) fun _ => .bind (.onEngine _) fun _ => .unionOf _
  | .tuple members => by
    unfold SigType.vertex
    exact .bind (vertices map members) fun _ => .bind (.unionOf _) fun _ => .scratch ..
  | .nil | .bool | .untyped => by
    unfold SigType.vertex
    exact .onEngine _

theorem vertices (map : ParamMap) : (ts : List SigType) → Quiet (SigType.vertices map ts)
  | [] => by
    unfold SigType.vertices
    exact .pure _
  | t :: ts => by
    unfold SigType.vertices
    exact .bind (vertex map t) fun _ => .bind (vertices map ts) fun _ => .pure _

end

theorem bindParams (map : ParamMap) (ps : List String) (as : List SigType) (out : ParamMap) :
    Quiet (ParamMap.bindParams map ps as out) := by
  induction ps generalizing as out with
  | nil => exact .pure _
  | cons p ps ih =>
    cases as with
    | nil => exact .bind (.onEngine _) fun _ => ih _ _
    | cons a as => exact .bind (.vertex map a) fun _ => ih _ _

theorem inside (recv : Ty) (map : ParamMap) (m : ModuleId) (args : List SigType) :
    Quiet (ParamMap.inside recv map m args) :=
  .bind (.receiverMap recv) fun _ => .bind .engine fun _ => .bindParams ..

theorem follow (recv : Ty) (visits : List Visit) (map : ParamMap) (outer : List ParamMap) :
    Quiet (ParamMap.follow recv visits map outer) := by
  induction visits generalizing map outer with
  | nil => exact .pure _
  | cons v visits ih =>
    cases v with
    | enter m args => exact .bind (.inside ..) fun _ => ih _ _
    | leave => exact ih _ _
    | ascend m args =>
      exact .bind .engine fun _ => .ite (ih _ _) (.bind (.inside ..) fun _ => ih _ _)

end Quiet

theorem forM_readMethod (keys : List MemberKey) (r : Run) : ∃ r', keys.forM readMethod r =
    some ((), r') ∧ r'.effects.pending.methodReads =
      keys.foldl OrderedSet.insert r.effects.pending.methodReads := by
  induction keys generalizing r with
  | nil => exact ⟨r, rfl, rfl⟩
  | cons key keys ih => exact ih _

namespace Call

def notes (c : Call) (w : World) (t : Ty) : List MemberKey :=
  ((Side.ofType? t).map fun start => (w.lookup start.1 c.name).consulted).getD []

def finds (c : Call) (w : World) (t : Ty) : Option (Ty × Option MemberKey) :=
  (Side.ofType? t).map fun start => (t, (w.lookup start.1 c.name).found)

variable (c : Call)

theorem resolveType_eq (t : Ty) (r : Run) : ∃ found r', c.resolveType t r = some (found, r') ∧
    found.map (fun x => (x.recv, x.method)) = c.finds r.engine.world t ∧
    r'.effects.pending.methodReads =
      (c.notes r.engine.world t).foldl OrderedSet.insert r.effects.pending.methodReads := by
  unfold resolveType finds notes
  cases Side.ofType? t with
  | none => exact ⟨none, r, rfl, rfl, rfl⟩
  | some start =>
    obtain ⟨side, args⟩ := start
    obtain ⟨start, r1, h1, hreads1⟩ := (Quiet.receiverMap t).ends r
    obtain ⟨r2, h2, hreads2⟩ := forM_readMethod (r.engine.world.lookup side c.name).consulted r1
    obtain ⟨map, r3, h3, hreads3⟩ := (Quiet.follow t (r.engine.world.lookup side c.name).visits
      (((r.engine.module side.module).typeParams.zip args).foldl (fun m x => m.insert x.1 x.2)
        start)
      []).ends r2
    refine ⟨some ⟨t, (r.engine.world.lookup side c.name).found, map⟩, r3, ?_, rfl, ?_⟩
    · refine Option.bind_eq_some_iff.2 ⟨(start, r1), h1, ?_⟩
      refine Option.bind_eq_some_iff.2 ⟨((), r2), h2, ?_⟩
      exact Option.bind_eq_some_iff.2 ⟨(map, r3), h3, rfl⟩
    · rw [hreads3, hreads2, hreads1]
      rfl

theorem mapM_resolveType_eq (ts : List Ty) {r : Run} (hc : r.engine.world.Closed) :
    ∃ out r', ts.mapM c.resolveType r = some (out, r') ∧
      (out.filterMap id).map (fun x => (x.recv, x.method)) =
        ts.filterMap (c.finds r.engine.world) ∧
      r'.effects.pending.methodReads = (ts.flatMap (c.notes r.engine.world)).foldl
        OrderedSet.insert r.effects.pending.methodReads := by
  rw [← List.mapM'_eq_mapM]
  induction ts generalizing r with
  | nil => exact ⟨[], r, rfl, rfl, rfl⟩
  | cons t ts ih =>
    obtain ⟨found, r1, h1, hfound, hreads1⟩ := c.resolveType_eq t r
    have halike : r.engine.world.Alike r1.engine.world :=
      (c.holds_resolveType (W := Staging.keeping fun e e' => e.world.Alike e'.world) False.elim
        found r1 h1).1
    have hlookup := halike.lookup hc
    obtain ⟨out, r2, h2, hout, hreads2⟩ := ih (halike.agrees.closed hc)
    have hfinds : c.finds r1.engine.world = c.finds r.engine.world := by
      funext t
      simp only [finds, hlookup]
    have hnotes : c.notes r1.engine.world = c.notes r.engine.world := by
      funext t
      simp only [notes, hlookup]
    refine ⟨found :: out, r2, ?_, ?_, ?_⟩
    · refine Option.bind_eq_some_iff.2 ⟨(found, r1), h1, ?_⟩
      exact Option.bind_eq_some_iff.2 ⟨(out, r2), h2, rfl⟩
    · rw [hfinds] at hout
      rw [List.filterMap_cons, List.filterMap_cons, ← hfound, ← hout]
      cases found <;> rfl
    · rw [hreads2, hnotes, hreads1, List.flatMap_cons, List.foldl_append]

/-- Whatever the buffer holds, looking the method up ends with these methods for the types of the
receiver, and notes these entries, one after the other. -/
def Resolves (e : Engine) (found : List (Ty × Option MemberKey)) (noted : List MemberKey) : Prop :=
  ∀ effects, ∃ out r, c.resolve ⟨e, effects⟩ = some (out, r) ∧
    out.map (fun x => (x.recv, x.method)) = found ∧
    r.effects.pending.methodReads = noted.foldl OrderedSet.insert effects.pending.methodReads

theorem resolves {e : Engine} (hc : e.world.Closed) :
    c.Resolves e ((e.typesAt c.recv).filterMap (c.finds e.world))
      ((e.typesAt c.recv).flatMap (c.notes e.world)) := by
  intro effects
  obtain ⟨out, r, h, hout, hreads⟩ := c.mapM_resolveType_eq (r := ⟨e, effects⟩)
    (e.typesAt c.recv) hc
  exact ⟨_, r, Option.bind_eq_some_iff.2 ⟨(out, r), h, rfl⟩, hout, hreads⟩

end Call

/-- Looking a method up for all types of a receiver ends, in an engine whose hierarchy and aliases
may run in circles. It leads to the same methods and notes the same entries in any engine where the
receiver has the same types and that agrees at the entries noted. -/
theorem resolution_depends_on_notes (c : Call) {e : Engine} (hc : e.world.Closed) :
    ∃ found noted, c.Resolves e found noted ∧
      ∀ e' : Engine, e'.world.Closed → e'.typesAt c.recv = e.typesAt c.recv →
        (∀ key ∈ noted, e.world.SameAt e'.world key) → c.Resolves e' found noted := by
  refine ⟨_, _, c.resolves hc, fun e' hc' htypes hsame => ?_⟩
  have hlookup : ∀ t ∈ e.typesAt c.recv, ∀ start, Side.ofType? t = some start →
      e'.world.lookup start.1 c.name = e.world.lookup start.1 c.name := by
    intro t ht start hstart
    refine World.lookup_congr hc hc' fun key hkey => hsame key ?_
    refine List.mem_flatMap.2 ⟨t, ht, ?_⟩
    rw [Call.notes, hstart]
    exact hkey
  have hfinds : ∀ t ∈ e.typesAt c.recv, c.finds e'.world t = c.finds e.world t := by
    intro t ht
    unfold Call.finds
    cases hstart : Side.ofType? t with
    | none => rw [Option.map_none, Option.map_none]
    | some start => rw [Option.map_some, Option.map_some, hlookup t ht start hstart]
  have hnotes : ∀ t ∈ e.typesAt c.recv, c.notes e'.world t = c.notes e.world t := by
    intro t ht
    unfold Call.notes
    cases hstart : Side.ofType? t with
    | none => rw [Option.map_none, Option.map_none]
    | some start => rw [Option.map_some, Option.map_some, hlookup t ht start hstart]
  have hresolves := c.resolves hc'
  rwa [htypes, List.filterMap_congr hfinds, List.flatMap_congr hnotes] at hresolves

section Circles

open State Workspace

theorem closed_serve (config : Config) (rs : List Request) :
    (serve config rs).engine.world.Closed :=
  let ⟨_, hmoves, _⟩ := moves_serve config rs
  ((Boot.namesTracked_boot config).moves (Boot.kept_boot config).sound hmoves).related.closed

def runsInCircles : String :=
  "\x7b\"type\":\"module\",\"cpath\":[\"M\"],\"body\":[" ++
    "\x7b\"type\":\"include\",\"cpath\":[\"M\"]\x7d]\x7d," ++
    "\x7b\"type\":\"class\",\"cpath\":[\"A\"],\"superclass\":\x7b\"cpath\":[\"B\"]\x7d,\"body\":[" ++
    "\x7b\"type\":\"include\",\"cpath\":[\"M\"]\x7d," ++
    "\x7b\"type\":\"alias\",\"new_name\":\"f\",\"old_name\":\"g\"\x7d," ++
    "\x7b\"type\":\"alias\",\"new_name\":\"g\",\"old_name\":\"f\"\x7d," ++
    "\x7b\"type\":\"def\",\"name\":\"h\",\"body\":[\x7b\"type\":\"self\"\x7d]\x7d]\x7d," ++
    "\x7b\"type\":\"class\",\"cpath\":[\"B\"],\"superclass\":\x7b\"cpath\":[\"A\"]\x7d,\"body\":[]\x7d"

/-- Looking up `f` there ends, without a method, after one entry for each name and module. -/
theorem resolution_in_circles :
    let e := (serve {} [writing "a" runsInCircles]).engine
    let c : Call := ⟨⟨35⟩, "f", [], [], none, none, false, ⟨0⟩⟩
    e.typesAt c.recv = [.plain ⟨16⟩] ∧
      (e.world.lookup ⟨⟨16⟩, false⟩ "f").found = none ∧
      (e.world.lookup ⟨⟨16⟩, false⟩ "f").consulted =
        [⟨⟨⟨16⟩, false⟩, "f"⟩, ⟨⟨⟨16⟩, false⟩, "g"⟩, ⟨⟨⟨15⟩, false⟩, "f"⟩, ⟨⟨⟨15⟩, false⟩, "f"⟩,
          ⟨⟨⟨17⟩, false⟩, "f"⟩] ∧
      ∃ found noted, c.Resolves e found noted ∧
        ∀ e' : Engine, e'.world.Closed → e'.typesAt c.recv = e.typesAt c.recv →
          (∀ key ∈ noted, e.world.SameAt e'.world key) → c.Resolves e' found noted := by
  have hclosed := closed_serve {} [writing "a" runsInCircles]
  have hrun : let e := (serve {} [writing "a" runsInCircles]).engine
      e.typesAt ⟨35⟩ = [.plain ⟨16⟩] ∧ (e.world.lookup ⟨⟨16⟩, false⟩ "f").found = none ∧
        (e.world.lookup ⟨⟨16⟩, false⟩ "f").consulted =
          [⟨⟨⟨16⟩, false⟩, "f"⟩, ⟨⟨⟨16⟩, false⟩, "g"⟩, ⟨⟨⟨15⟩, false⟩, "f"⟩,
            ⟨⟨⟨15⟩, false⟩, "f"⟩, ⟨⟨⟨17⟩, false⟩, "f"⟩] := by
    rw [serve_eq]
    decide +kernel
  generalize (serve {} [writing "a" runsInCircles]).engine = e at hclosed hrun ⊢
  obtain ⟨htypes, hfound, hconsulted⟩ := hrun
  exact ⟨htypes, hfound, hconsulted, resolution_depends_on_notes _ hclosed⟩

end Circles

end TypeFlow
