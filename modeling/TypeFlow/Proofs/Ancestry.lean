import TypeFlow.Proofs.Navigation
import TypeFlow.Workspace.Report

/-!
# What a check of ancestry rests on

A check goes up the superclasses of a module and searches what each of them includes, directly or
over other modules. It notes the superclasses that it came to. These decide the answer together with
the inclusions of all modules that they lead to by inclusions; but a module that is only included is
not noted, so another answer may come about behind it.
-/

set_option autoImplicit false

namespace TypeFlow

open Relation

namespace World

variable {w w' : World} {a f m x : ModuleId}

def Inherits (w : World) (m p : ModuleId) : Prop := (w.get m).superclass = some p

def Includes (w : World) (m x : ModuleId) : Prop := x ∈ (w.get m).included

section Answers

theorem mem_superclasses_iff (hc : w.Closed) :
    x ∈ w.superclasses m ↔ ReflTransGen w.Inherits m x :=
  mem_trail_iff (closed_places hc m) (w.card_places_le m) ((mem_places m).2 (.inl rfl))

theorem includesModule_iff (hc : w.Closed) :
    w.includesModule m x = true ↔ TransGen w.Includes m x :=
  seek_iff (fun y _ z hz => (mem_places z).2 (.inr ((hc.within y).included z hz)))
    (w.card_places_le m) ((mem_places m).2 (.inl rfl))

theorem offers_iff (hc : w.Closed) : w.offers f m = true ↔ ReflTransGen w.Includes m f := by
  unfold offers
  rw [Bool.or_eq_true, decide_eq_true_iff, includesModule_iff hc,
    reflTransGen_iff_eq_or_transGen, eq_comm]

theorem isSubclass_iff (hc : w.Closed) : (w.isSubclass a f).1 = true ↔
    ∃ m, ReflTransGen w.Inherits a m ∧ ReflTransGen w.Includes m f := by
  unfold isSubclass
  rw [List.any_eq_true]
  simp only [mem_superclasses_iff hc, offers_iff hc]

end Answers

section Notes

variable {p : ModuleId → Bool} {ms : List ModuleId}

/-- The modules that a check notes. -/
def noted (w : World) (a f : ModuleId) : List ModuleId := (w.isSubclass a f).2

theorem throughFirst_eq_self
    (h : ∀ m ∈ ms, p m = false) : throughFirst p ms = ms := by
  induction ms with
  | nil => rfl
  | cons m ms ih =>
    rw [throughFirst, h m List.mem_cons_self, if_neg Bool.false_ne_true,
      ih fun x hx => h x (List.mem_cons_of_mem _ hx)]

theorem exists_mem_throughFirst
    (hm : m ∈ ms) (hp : p m = true) : ∃ x ∈ throughFirst p ms, p x = true := by
  induction ms with
  | nil => exact absurd hm List.not_mem_nil
  | cons y ms ih =>
    unfold throughFirst
    by_cases hy : p y = true
    · rw [if_pos hy]
      exact ⟨y, List.mem_cons_self, hy⟩
    · rw [if_neg hy]
      rcases List.mem_cons.1 hm with rfl | hm
      · exact absurd hp hy
      · obtain ⟨x, hx, hpx⟩ := ih hm
        exact ⟨x, List.mem_cons_of_mem _ hx, hpx⟩

theorem throughFirst_trailFrom (p : ModuleId → Bool) (next : ModuleId → Option ModuleId) (n : Nat)
    (seen : List ModuleId) (a : ModuleId) : throughFirst p (trailFrom next n seen a) =
      trailFrom (fun m => if p m then none else next m) n seen a := by
  induction n generalizing seen a with
  | zero => rfl
  | succ n ih =>
    unfold trailFrom
    split
    · rfl
    · unfold throughFirst
      by_cases hp : p a = true
      · simp [hp]
      · simp only [hp]
        cases next a with
        | none => rfl
        | some b => exact congrArg (a :: ·) (ih (a :: seen) b)

/-- The superclasses are noted up to the first one that is the target or includes it. -/
theorem mem_noted_iff (hc : w.Closed) : m ∈ w.noted a f ↔
    ReflTransGen (fun x y => w.Inherits x y ∧ w.offers f x = false) a m := by
  have hiff : ∀ x y, (if w.offers f x then none else (w.get x).superclass) = some y ↔
      w.Inherits x y ∧ w.offers f x = false := fun x y => by
    cases w.offers f x <;> simp [Inherits]
  show m ∈ throughFirst (w.offers f) (trailFrom _ _ _ _) ↔ _
  rw [throughFirst_trailFrom]
  refine (mem_trail_iff (S := w.places a) (fun x hx y hy => ?_) (w.card_places_le a)
    ((mem_places a).2 (.inl rfl))).trans ?_
  · exact closed_places hc a x hx y ((hiff x y).1 hy).1
  · simp only [hiff]

theorem mem_noted_self (w : World) (a f : ModuleId) : a ∈ w.noted a f := by
  unfold noted isSubclass superclasses trail trailFrom throughFirst
  simp only [List.not_mem_nil, if_false]
  split <;> simp

theorem linked_noted (hc : w.Closed) (hm : m ∈ w.noted a f) :
    ReflTransGen (fun x y => x ∈ w.noted a f ∧ w.Inherits x y) a m := by
  induction (mem_noted_iff hc).1 hm with
  | refl => exact .refl
  | tail hx hy ih =>
    have hmem := (mem_noted_iff hc).2 hx
    exact (ih hmem).tail ⟨hmem, hy.1⟩

theorem noted_of_false (h : (w.isSubclass a f).1 = false) : w.noted a f = w.superclasses a :=
  throughFirst_eq_self fun m hm => by simpa using List.any_eq_false.1 h m hm

end Notes

section Agreement

/-- The second world gives a module the superclass and the inclusions that the first one does. -/
def SameKin (w w' : World) (m : ModuleId) : Prop :=
  (w'.get m).superclass = (w.get m).superclass ∧ (w'.get m).included = (w.get m).included

instance (w w' : World) (m : ModuleId) : Decidable (SameKin w w' m) :=
  inferInstanceAs (Decidable (_ ∧ _))

def Borders (w : World) (ms : List ModuleId) (x : ModuleId) : Prop :=
  x ∈ ms ∨ ∃ m ∈ ms, w.Inherits m x ∨ w.Includes m x

theorem inherits_noted (hc : w.Closed) (h : ∀ m ∈ w.noted a f, SameKin w w' m)
    (hm : m ∈ w.noted a f) : ReflTransGen w'.Inherits a m :=
  ReflTransGen.mono (fun x _ hx => (h x hx.1).1.trans hx.2) _ _ (linked_noted hc hm)

theorem found_of_borders (hc : w.Closed) (hc' : w'.Closed)
    (h : ∀ m ∈ w.noted a f, SameKin w w' m) (hf : w.Borders (w.noted a f) f) : (w'.isSubclass a
      f).1 = true := by
  rw [isSubclass_iff hc']
  rcases hf with hf | ⟨m, hm, hf | hf⟩
  · exact ⟨f, inherits_noted hc h hf, .refl⟩
  · exact ⟨f, (inherits_noted hc h hm).tail ((h m hm).1.trans hf), .refl⟩
  · refine ⟨m, inherits_noted hc h hm, .single ?_⟩
    unfold Includes
    rw [(h m hm).2]
    exact hf

theorem missed_of_closed (hc : w.Closed) (hc' : w'.Closed)
    (h : ∀ m ∈ w.noted a f, SameKin w w' m) (hmiss : (w.isSubclass a f).1 = false)
    (hin : ∀ m ∈ w.noted a f, ∀ x, w.Includes m x → x ∈ w.noted a f) :
    (w'.isSubclass a f).1 = false := by
  have hup : ∀ m ∈ w.noted a f, ∀ p, w'.Inherits m p → p ∈ w.noted a f := by
    intro m hm p hp
    have hp : w.Inherits m p := (h m hm).1.symm.trans hp
    rw [noted_of_false hmiss, mem_superclasses_iff hc] at hm ⊢
    exact hm.tail hp
  have hacross : ∀ m ∈ w.noted a f, ∀ x, w'.Includes m x → x ∈ w.noted a f := by
    intro m hm x hx
    unfold Includes at hx
    rw [(h m hm).2] at hx
    exact hin m hm x hx
  rw [Bool.eq_false_iff, ne_eq, isSubclass_iff hc']
  rintro ⟨m, hm, hf⟩
  have hfound : f ∈ w.noted a f :=
    mem_of_reflTransGen hacross (mem_of_reflTransGen hup (mem_noted_self w a f) hm) hf
  have hfalse := Bool.eq_false_iff.1 hmiss
  rw [noted_of_false hmiss, mem_superclasses_iff hc] at hfound
  exact hfalse ((isSubclass_iff hc).2 ⟨f, hfound, .refl⟩)

def restrict (w : World) (ms : List ModuleId) : World where
  modules := w.modules.mapIdx fun i x => if (⟨i⟩ : ModuleId) ∈ ms then x else {}

theorem get_restrict (w : World) (ms : List ModuleId) (m : ModuleId) :
    (w.restrict ms).get m = if m ∈ ms then w.get m else {} := by
  unfold get restrict
  rw [Array.getElem?_mapIdx]
  cases w.modules[m.index]? with
  | none => simp
  | some x => by_cases hm : m ∈ ms <;> simp [hm]

theorem sameKin_restrict (w : World) {ms : List ModuleId} (hm : m ∈ ms) :
    SameKin w (w.restrict ms) m := by
  rw [SameKin, get_restrict, if_pos hm]
  exact ⟨rfl, rfl⟩

theorem Closed.restrict (hc : w.Closed) (ms : List ModuleId) : (w.restrict ms).Closed := by
  have hsize : (w.restrict ms).modules.size = w.modules.size := Array.size_mapIdx
  refine ⟨hsize ▸ hc.core, fun m => ?_⟩
  rw [get_restrict]
  split
  · exact (hc.within m).mono fun x hx => by
      unfold Knows at hx ⊢
      rwa [hsize]
  · exact Module.within_blank _ []

theorem missed_in_restrict (hc : w.Closed) (hf : ¬w.Borders (w.noted a f) f) :
    ((w.restrict (w.noted a f)).isSubclass a f).1 = false := by
  have hup : ∀ m p, (w.restrict (w.noted a f)).Inherits m p → m ∈ w.noted a f ∧ w.Inherits m p := by
    intro m p hp
    unfold Inherits at hp
    rw [get_restrict] at hp
    split at hp
    · next hm => exact ⟨hm, hp⟩
    · exact absurd hp (Option.some_ne_none p).symm
  have hacross : ∀ m x, (w.restrict (w.noted a f)).Includes m x →
      m ∈ w.noted a f ∧ w.Includes m x := by
    intro m x hx
    unfold Includes at hx
    rw [get_restrict] at hx
    split at hx
    · next hm => exact ⟨hm, hx⟩
    · exact absurd hx List.not_mem_nil
  rw [Bool.eq_false_iff, ne_eq, isSubclass_iff (hc.restrict _)]
  rintro ⟨m, hm, hx⟩
  refine hf ?_
  rcases ReflTransGen.cases_tail hx with rfl | ⟨x, -, hx⟩
  · rcases ReflTransGen.cases_tail hm with rfl | ⟨p, -, hp⟩
    · exact .inl (mem_noted_self w f f)
    · exact .inr ⟨p, (hup p f hp).1, .inl (hup p f hp).2⟩
  · exact .inr ⟨x, (hacross x f hx).1, .inr (hacross x f hx).2⟩

def including (w : World) (x f : ModuleId) : World :=
  w.modify x fun y => { y with includes := y.includes.insert (.builtin, f) [] }

theorem Closed.including (hc : w.Closed) (x : ModuleId) (hf : w.Knows f) :
    (w.including x f).Closed := by
  refine Grows.closed (Grows.aside rfl rfl rfl fun hc => ?_) hc
  refine ⟨(hc.within x).superclass, fun t ht => ?_, (hc.within x).subclasses⟩
  obtain ⟨k, hk, rfl⟩ := List.mem_map.1 ht
  rcases OrderedMap.mem_keys_insert.1 hk with rfl | hold
  · exact hf
  · exact (hc.within x).included k.2 (List.mem_map.2 ⟨k, hold, rfl⟩)

theorem sameKin_including {ms : List ModuleId} (hx : x ∉ ms) (f : ModuleId) (hm : m ∈ ms) :
    SameKin w (w.including x f) m := by
  have hsame : (w.including x f).get m = w.get m := by
    rw [including, get_modify, if_neg fun h : x = m ∧ w.Knows m => hx (h.1 ▸ hm)]
  rw [SameKin, hsame]
  exact ⟨rfl, rfl⟩

theorem includes_including (hx : w.Knows x) (f : ModuleId) : (w.including x f).Includes x f := by
  unfold Includes including
  rw [get_modify, if_pos ⟨rfl, hx⟩]
  exact List.mem_map.2 ⟨(.builtin, f), OrderedMap.mem_keys_insert.2 (.inl rfl), rfl⟩

theorem found_in_including (hc : w.Closed) (hf : w.Knows f) (hm : m ∈ w.noted a f)
    (hx : w.Includes m x) (hnot : x ∉ w.noted a f) :
    ((w.including x f).isSubclass a f).1 = true := by
  refine (isSubclass_iff (hc.including x hf)).2
    ⟨m, inherits_noted hc (fun y hy => sameKin_including hnot f hy) hm, ?_⟩
  have hfirst : (w.including x f).Includes m x := by
    rw [Includes, (sameKin_including hnot f hm).2]
    exact hx
  exact (ReflTransGen.single hfirst).tail (includes_including ((hc.within m).included x hx) f)

/-- What is noted decides the answer if and only if the target borders on it, or is not found and
the superclasses include no modules but each other. -/
theorem isSubclass_decided_iff (hc : w.Closed) (hf : w.Knows f) :
    (∀ w' : World, w'.Closed → (∀ m ∈ w.noted a f, SameKin w w' m) →
      (w'.isSubclass a f).1 = (w.isSubclass a f).1) ↔
    if (w.isSubclass a f).1 then w.Borders (w.noted a f) f
    else ∀ m ∈ w.noted a f, ∀ x, w.Includes m x → x ∈ w.noted a f := by
  cases hanswer : (w.isSubclass a f).1 with
  | true =>
    rw [if_pos rfl]
    refine ⟨fun h => ?_, fun h w' hc' hkin => found_of_borders hc hc' hkin h⟩
    by_contra hborders
    have hfound := h _ (hc.restrict _) fun m hm => sameKin_restrict w hm
    rw [missed_in_restrict hc hborders] at hfound
    exact Bool.false_ne_true hfound
  | false =>
    rw [if_neg Bool.false_ne_true]
    refine ⟨fun h m hm x hx => ?_, fun h w' hc' hkin => missed_of_closed hc hc' hkin hanswer h⟩
    by_contra hnot
    have hfound := h _ (hc.including x hf) fun y hy => sameKin_including hnot f hy
    rw [found_in_including hc hf hm hx hnot] at hfound
    exact Bool.false_ne_true hfound.symm

/-- The answer rests on the superclasses that are noted and on the inclusions of all modules that
they lead to by inclusions. -/
theorem isSubclass_congr (hc : w.Closed) (hc' : w'.Closed)
    (hup : ∀ m ∈ w.noted a f, (w'.get m).superclass = (w.get m).superclass)
    (hacross : ∀ m ∈ w.noted a f, ∀ x, ReflTransGen w.Includes m x →
      (w'.get x).included = (w.get x).included) :
    (w'.isSubclass a f).1 = (w.isSubclass a f).1 := by
  have hkin : ∀ m ∈ w.noted a f, SameKin w w' m := fun m hm => ⟨hup m hm, hacross m hm m .refl⟩
  have hforth : ∀ m ∈ w.noted a f, ∀ x, ReflTransGen w.Includes m x →
      ReflTransGen w'.Includes m x := by
    intro m hm x hx
    induction hx with
    | refl => exact .refl
    | tail hy hz ih =>
      refine ih.tail ?_
      rw [Includes, hacross m hm _ hy]
      exact hz
  have hback : ∀ m ∈ w.noted a f, ∀ x, ReflTransGen w'.Includes m x →
      ReflTransGen w.Includes m x := by
    intro m hm x hx
    induction hx with
    | refl => exact .refl
    | tail hy hz ih =>
      refine ih.tail ?_
      rw [Includes, hacross m hm _ ih] at hz
      exact hz
  cases hanswer : (w.isSubclass a f).1 with
  | true =>
    obtain ⟨m, hm, hoffers⟩ := List.any_eq_true.1 hanswer
    obtain ⟨y, hy, hoffers⟩ := exists_mem_throughFirst hm hoffers
    exact (isSubclass_iff hc').2
      ⟨y, inherits_noted hc hkin hy, hforth y hy f ((offers_iff hc).1 hoffers)⟩
  | false =>
    have hall : ∀ m, ReflTransGen w'.Inherits a m → m ∈ w.noted a f := by
      refine fun m => mem_of_reflTransGen (fun x hx y hy => ?_) (mem_noted_self w a f)
      have hy : w.Inherits x y := (hup x hx).symm.trans hy
      rw [noted_of_false hanswer, mem_superclasses_iff hc] at hx ⊢
      exact hx.tail hy
    rw [Bool.eq_false_iff, ne_eq, isSubclass_iff hc']
    rintro ⟨m, hm, hx⟩
    have hmem := hall m hm
    have hfound := (offers_iff hc).2 (hback m hmem f hx)
    rw [noted_of_false hanswer] at hmem
    exact Bool.eq_false_iff.1 hanswer (List.any_eq_true.2 ⟨m, hmem, hfound⟩)

end Agreement

end World

namespace Matching

open World

theorem isSubclass_eq (a f : ModuleId) (r : Run) : isSubclass a f r =
    some ((r.engine.world.isSubclass a f).1,
      { r with effects := (r.engine.world.noted a f).foldl Effects.readSuperclass r.effects }) := by
  have hforM : ∀ (ms : List ModuleId) (fx : Effects), (ms.forM Staging.readSuperclass) ⟨r.engine,
    fx⟩ =
      some ((), ⟨r.engine, ms.foldl Effects.readSuperclass fx⟩) := by
    intro ms
    induction ms with
    | nil => exact fun fx => rfl
    | cons m ms ih => exact fun fx => ih (fx.readSuperclass m)
  show ((r.engine.world.noted a f).forM Staging.readSuperclass r).bind _ = _
  rw [hforM]
  rfl

theorem foldl_readSuperclass (ms : List ModuleId) (fx : Effects) :
    ms.foldl Effects.readSuperclass fx = { fx with pending := { fx.pending with
      superclassReads := ms.foldl OrderedSet.insert fx.pending.superclassReads } } := by
  induction ms generalizing fx with
  | nil => rfl
  | cons m ms ih => exact ih (fx.readSuperclass m)

end Matching

open World Workspace

/-- A check of ancestry ends in any hierarchy, with or without cycles. The answer is whether a
superclass is the target or comes to it by inclusions. It notes the superclasses up to the first
one of this kind, and changes nothing else. -/
theorem ancestry_check_exact {e : Engine} (hc : e.world.Closed) (a f : ModuleId) (fx : Effects) :
    let Offers (c : ModuleId) : Prop := c = f ∨ TransGen e.world.Includes c f
    ∃ answer reads, Matching.isSubclass a f ⟨e, fx⟩ = some (answer,
        ⟨e, { fx with pending := { fx.pending with superclassReads := reads } }⟩) ∧
      (answer = true ↔ ∃ c, ReflTransGen e.world.Inherits a c ∧ Offers c) ∧
      ∀ m, m ∈ reads.toList ↔ m ∈ fx.pending.superclassReads.toList ∨
        ReflTransGen (fun x y => e.world.Inherits x y ∧ ¬Offers x) a m := by
  intro Offers
  have hoffers : ∀ c, ReflTransGen e.world.Includes c f ↔ Offers c := fun c => by
    rw [reflTransGen_iff_eq_or_transGen, eq_comm]
  refine ⟨(e.world.isSubclass a f).1,
    (e.world.noted a f).foldl OrderedSet.insert fx.pending.superclassReads,
    (Matching.isSubclass_eq a f ⟨e, fx⟩).trans ?_, ?_, fun m => ?_⟩
  · rw [Matching.foldl_readSuperclass]
  · simp only [isSubclass_iff hc, hoffers]
  · rw [OrderedSet.mem_foldl_insert, mem_noted_iff hc]
    simp only [← Bool.not_eq_true, offers_iff hc, hoffers]

/-- `Object` includes `Kernel`, so an integer is one of its kind, and nothing above `Object` is
noted. -/
theorem ancestry_check_kernel :
    Matching.isSubclass Core.integer Core.kernel ⟨Engine.boot {}, {}⟩ = some (true,
      ⟨Engine.boot {}, { pending := { superclassReads := ⟨[Core.integer, Core.object]⟩ } }⟩) ∧
    ∀ m, m ∈ [Core.integer, Core.object] ↔
      ReflTransGen (fun x y => (Engine.boot {}).world.Inherits x y ∧
        ¬(x = Core.kernel ∨ TransGen (Engine.boot {}).world.Includes x Core.kernel))
        Core.integer m := by
  have hanswer : (Engine.boot {}).world.isSubclass Core.integer Core.kernel =
      (true, [Core.integer, Core.object]) := by
    rw [Engine.boot_start]
    decide +kernel
  obtain ⟨answer, reads, hrun, -, hreads⟩ :=
    ancestry_check_exact (related_boot {}).closed Core.integer Core.kernel {}
  have hrun' := hrun.symm.trans (Matching.isSubclass_eq ..)
  rw [noted, hanswer] at hrun'
  obtain ⟨rfl, hnoted⟩ : answer = true ∧ _ := by simpa using hrun'
  obtain rfl : reads = ⟨[Core.integer, Core.object]⟩ :=
    congrArg (fun fx : Effects => fx.pending.superclassReads) hnoted
  exact ⟨hrun, fun m => (hreads m).trans (or_iff_right List.not_mem_nil)⟩

/-- A check with an empty buffer ends in an answer and notes modules. Wherever these have the same
superclass and the same inclusions the answer is the same, if and only if the target borders on
them, or is not found and they include no modules but each other. It is always the same where all
modules that they lead to by inclusions have the same inclusions. -/
theorem subclass_check_decided_iff {e : Engine} (hc : e.world.Closed) (a : ModuleId) {f : ModuleId}
    (hf : e.world.Knows f) : ∃ answer r,
    Matching.isSubclass a f ⟨e, {}⟩ = some (answer, r) ∧
    let noted := r.effects.pending.superclassReads.toList
    ((∀ e' : Engine, e'.world.Closed → (∀ m ∈ noted, e.world.SameKin e'.world m) →
        ∃ r', Matching.isSubclass a f ⟨e', {}⟩ = some (answer, r')) ↔
      if answer then e.world.Borders noted f
      else ∀ m ∈ noted, ∀ x, e.world.Includes m x → x ∈ noted) ∧
    ∀ e' : Engine, e'.world.Closed →
      (∀ m ∈ noted, (e'.module m).superclass = (e.module m).superclass) →
      (∀ m ∈ noted, ∀ x, ReflTransGen e.world.Includes m x →
        (e'.module x).included = (e.module x).included) →
      ∃ r', Matching.isSubclass a f ⟨e', {}⟩ = some (answer, r') := by
  have hnoted : ∀ m, m ∈ ((e.world.noted a f).foldl Effects.readSuperclass
      {}).pending.superclassReads.toList ↔ m ∈ e.world.noted a f := fun m => by
    rw [Matching.foldl_readSuperclass, OrderedSet.mem_foldl_insert]
    exact or_iff_right List.not_mem_nil
  have hsame : ∀ e' : Engine, (∃ r', Matching.isSubclass a f ⟨e', {}⟩ =
      some ((e.world.isSubclass a f).1, r')) ↔
        (e'.world.isSubclass a f).1 = (e.world.isSubclass a f).1 := fun e' => by
    rw [Matching.isSubclass_eq]
    simp
  refine ⟨_, _, Matching.isSubclass_eq a f ⟨e, {}⟩, ?_, ?_⟩
  · simp only [Borders, hnoted, hsame]
    rw [← Borders, ← isSubclass_decided_iff hc hf]
    exact ⟨fun h w' hc' => h { e with world := w' } hc', fun h e' => h e'.world⟩
  · simp only [hnoted, hsame]
    exact fun e' hc' hup hacross => isSubclass_congr hc hc' hup hacross

/-- `Kernel` is included by `Object`, so that an integer is one of its kind rests on what is
noted. -/
theorem subclass_check_decided_kernel : ∃ r,
    Matching.isSubclass Core.integer Core.kernel ⟨Engine.boot {}, {}⟩ = some (true, r) ∧
    r.effects.pending.superclassReads.toList = [Core.integer, Core.object] ∧
    ∀ e' : Engine, e'.world.Closed →
      (∀ m ∈ [Core.integer, Core.object], (Engine.boot {}).world.SameKin e'.world m) →
      ∃ r', Matching.isSubclass Core.integer Core.kernel ⟨e', {}⟩ = some (true, r') := by
  have hanswer : (Engine.boot {}).world.isSubclass Core.integer Core.kernel =
      (true, [Core.integer, Core.object]) := by
    rw [Engine.boot_start]
    decide +kernel
  have hincludes : Core.kernel ∈ ((Engine.boot {}).world.get Core.object).included := by
    rw [Engine.boot_start]
    decide +kernel
  have hclosed := (related_boot {}).closed
  obtain ⟨answer, r, hrun, hiff, -⟩ := subclass_check_decided_iff hclosed Core.integer
    (hclosed.knows_core (m := Core.kernel) (by decide))
  have hrun' := hrun.symm.trans (Matching.isSubclass_eq ..)
  rw [noted, hanswer] at hrun'
  obtain ⟨rfl, rfl⟩ : answer = true ∧ r = _ := by simpa using hrun'
  exact ⟨_, hrun, rfl, hiff.2 (.inr ⟨Core.object, by decide, .inr hincludes⟩)⟩

section Overlooked

def returnsIncluding : String :=
  "\x7b\"type\":\"class\",\"cpath\":[\"A\"],\"superclass\":null,\"body\":[" ++ includesModule "X" ++
    "]\x7d,\x7b\"type\":\"sig_def\",\"name\":\"foo\",\"overloads\":[\x7b\"ret\":" ++
    "\x7b\"type\":\"instance\",\"cpath\":[\"M\"]\x7d\x7d]\x7d," ++
    "\x7b\"type\":\"def\",\"name\":\"foo\",\"body\":[\x7b\"type\":\"call\",\"name\":\"new\"," ++
    "\"recv\":\x7b\"type\":\"const\",\"name\":\"A\"\x7d\x7d]\x7d"

def includingOver : List Request :=
  [writing "m" (declaresModule "M" ""), writing "x" (declaresModule "X" (includesModule "M")),
    writing "a" returnsIncluding]

def excludingOver : Request := writing "x" (declaresModule "X" "")

def excludedOver : List Request :=
  [writing "m" (declaresModule "M" ""), excludingOver, writing "a" returnsIncluding]

def Workspace.messages (w : Workspace) (path : String) : Option (List String) :=
  (w.diagnostics path).toOption.map fun rs => rs.map Report.message

/-- The check notes `A` only, which stays as it is while the answer turns. So the check of the
returned value is not made again, and its complaint is missing. -/
theorem subclass_check_undecided :
    let before := (serve {} includingOver).engine.world
    let turned := serve {} (includingOver ++ [excludingOver])
    let after := turned.engine.world
    (ofConfig {}).accepts (includingOver ++ [excludingOver]) = true ∧
      before.find? ["A"] = some ⟨17⟩ ∧ before.find? ["M"] = some ⟨15⟩ ∧
      before.isSubclass ⟨17⟩ ⟨15⟩ = (true, [⟨17⟩]) ∧ before.SameKin after ⟨17⟩ ∧
      (after.isSubclass ⟨17⟩ ⟨15⟩).1 = false ∧ turned.messages "a" = some [] ∧
      (serve {} excludedOver).messages "a" = some ["expected: M; actual: A"] := by
  simp only [accepts_eq, ofConfig_eq, serve_eq]
  decide +kernel

end Overlooked

end TypeFlow
