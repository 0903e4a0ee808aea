import TypeFlow.Proofs.Ancestry
import TypeFlow.Proofs.Derivation

/-!
# When comparing types ends

Comparing two vertices compares parts of their types, so a comparison is a sequence of questions of
its own kind, each asked or not according to the answers before. A comparison that leads back to
itself gets no answer. There are finitely many pairs of vertices, so this is the only way not to
get one, and the bound on the nesting cuts off nothing that would end.
-/

set_option autoImplicit false

namespace TypeFlow

open Relation

inductive Query (α : Type) where
  | done (b : Bool)
  | ask (a : α) (next : Bool → Query α)

namespace Query

variable {α β : Type}

def cond : Query α → Query α → Query α → Query α
  | done b, yes, no => if b then yes else no
  | ask a next, yes, no => ask a fun b => (next b).cond yes no

def all (q : β → Query α) : List β → Query α
  | [] => done true
  | x :: xs => (q x).cond (all q xs) (done false)

def any (q : β → Query α) : List β → Query α
  | [] => done false
  | x :: xs => (q x).cond (done true) (any q xs)

def asks (as : List α) : Query α := all (ask · done) as

/-- The outcome, unless a question gets no answer. -/
def run (answer : α → Option Bool) : Query α → Option Bool
  | done b => some b
  | ask a next => (answer a).bind fun b => (next b).run answer

variable {answer : α → Option Bool}

theorem run_cond (q yes no : Query α) : (q.cond yes no).run answer =
    (q.run answer).bind fun b => if b then yes.run answer else no.run answer := by
  induction q with
  | done b => cases b <;> rfl
  | ask a next ih =>
    simp only [cond, run, Option.bind_assoc]
    exact congrArg _ (funext ih)

theorem run_mono {answer' : α → Option Bool} (h : ∀ a b, answer a = some b → answer' a = some b)
    {q : Query α} {b : Bool} (hq : q.run answer = some b) : q.run answer' = some b := by
  induction q with
  | done => exact hq
  | ask a next ih =>
    obtain ⟨c, hc, hnext⟩ := Option.bind_eq_some_iff.1 hq
    exact Option.bind_eq_some_iff.2 ⟨c, h a c hc, ih c hnext⟩

section Asking

-- every question is a query of its own
variable (plan : α → Query α)

def settle : Nat → α → Option Bool
  | 0, _ => none
  | n + 1, a => (plan a).run (settle n)

def Yields (a : α) (b : Bool) : Prop := ∃ n, settle plan n a = some b

inductive Meets : Query α → α → Prop where
  | here (a : α) (next : Bool → Query α) : Meets (ask a next) a
  | later {a c : α} {b : Bool} {next : Bool → Query α} (hyields : Yields plan a b)
    (hmeets : Meets (next b) c) : Meets (ask a next) c

/-- Answering the first question comes to the second. -/
def Calls (a b : α) : Prop := Meets plan (plan a) b

variable {plan}

theorem settle_mono {n m : Nat} (h : n ≤ m) {a : α} {b : Bool} (ha : settle plan n a = some b) :
    settle plan m a = some b := by
  induction n generalizing m a b with
  | zero => cases ha
  | succ n ih =>
    obtain ⟨k, rfl⟩ : ∃ k, m = k + 1 := ⟨m - 1, by omega⟩
    exact run_mono (fun a b => ih (by omega)) ha

theorem Yields.unique {a : α} {b c : Bool} (hb : Yields plan a b) (hc : Yields plan a c) : b = c :=
    by
  obtain ⟨n, hn⟩ := hb
  obtain ⟨m, hm⟩ := hc
  have hmax := settle_mono (Nat.le_max_left n m) hn
  exact Option.some.inj (hmax.symm.trans (settle_mono (Nat.le_max_right n m) hm))

theorem isSome_run_iff (n : Nat) (q : Query α) : (q.run (settle plan n)).isSome = true ↔
    ∀ a, Meets plan q a → (settle plan n a).isSome = true := by
  induction q with
  | done b => exact ⟨fun _ a h => (nomatch h), fun _ => rfl⟩
  | ask a next ih =>
    constructor
    · intro h c hc
      obtain ⟨b, hb⟩ := Option.isSome_iff_exists.1 h
      obtain ⟨d, hd, hnext⟩ := Option.bind_eq_some_iff.1 hb
      cases hc with
      | here => exact hd ▸ rfl
      | later hyields hmeets =>
        cases hyields.unique ⟨n, hd⟩
        exact (ih d).1 (hnext ▸ rfl) c hmeets
    · intro h
      obtain ⟨b, hb⟩ := Option.isSome_iff_exists.1 (h a (.here a next))
      rw [run, hb, Option.bind_some]
      exact (ih b).2 fun c hc => h c (.later ⟨n, hb⟩ hc)

theorem settle_succ_eq_none_iff {n : Nat} {a : α} : settle plan (n + 1) a = none ↔
    ∃ b, Calls plan a b ∧ settle plan n b = none := by
  have hsome := @isSome_run_iff _ plan n (plan a)
  rw [settle, ← Option.not_isSome_iff_eq_none, hsome]
  simp [Calls]

theorem exists_calls_of_settle_eq_none {n : Nat} {a : α} (h : settle plan n a = none) :
    ∃ f : Nat → α, f 0 = a ∧ ∀ i < n, Calls plan (f i) (f (i + 1)) := by
  induction n generalizing a with
  | zero => exact ⟨fun _ => a, rfl, fun i hi => absurd hi (Nat.not_lt_zero i)⟩
  | succ n ih =>
    obtain ⟨b, hab, hb⟩ := settle_succ_eq_none_iff.1 h
    obtain ⟨f, rfl, hf⟩ := ih hb
    refine ⟨fun i => i.casesOn a f, rfl, fun i hi => ?_⟩
    cases i with
    | zero => exact hab
    | succ i => exact hf i (by omega)

theorem settle_eq_none_of_cycle {a c : α} (hac : ReflTransGen (Calls plan) a c)
    (hc : TransGen (Calls plan) c c) (n : Nat) : settle plan n a = none := by
  induction n generalizing a with
  | zero => rfl
  | succ n ih =>
    rcases hac.cases_head with rfl | ⟨b, hab, hbc⟩
    · obtain ⟨b, hab, hbc⟩ := TransGen.head'_iff.1 hc
      exact settle_succ_eq_none_iff.2 ⟨b, hab, ih hbc⟩
    · exact settle_succ_eq_none_iff.2 ⟨b, hab, ih hbc⟩

/-- If only finitely many questions ask others, a question without an answer leads into a cycle. -/
theorem settle_eq_none_iff {S : Finset α} (hS : ∀ a b, Calls plan a b → a ∈ S) {n : Nat}
    (hn : S.card < n) {a : α} : settle plan n a = none ↔
      ∃ c, ReflTransGen (Calls plan) a c ∧ TransGen (Calls plan) c c := by
  refine ⟨fun h => ?_, fun ⟨c, hac, hc⟩ => settle_eq_none_of_cycle hac hc n⟩
  obtain ⟨f, rfl, hf⟩ := exists_calls_of_settle_eq_none h
  have hpath : ∀ i j, i ≤ j → j ≤ n → ReflTransGen (Calls plan) (f i) (f j) := by
    intro i j hij hj
    induction j, hij using Nat.le_induction with
    | base => exact .refl
    | succ j _ ih => exact (ih (by omega)).tail (hf j hj)
  have hcycle : ∀ i j, i < j → j ≤ n → f i = f j → TransGen (Calls plan) (f i) (f i) := by
    intro i j hij hj heq
    nth_rewrite 2 [heq]
    exact .head' (hf i (by omega)) (hpath (i + 1) j hij hj)
  -- there are more steps than questions that ask, so one of them asks twice
  obtain ⟨i, hi, j, hj, hne, heq⟩ := Finset.exists_ne_map_eq_of_card_lt_of_maps_to
    (s := Finset.range n) (t := S) (f := f) (by simpa using hn)
    fun i hi => hS _ _ (hf i (Finset.mem_range.1 hi))
  rw [Finset.mem_range] at hi hj
  rcases Nat.lt_or_gt_of_ne hne with hij | hij
  · exact ⟨f i, hpath 0 i (by omega) (by omega), hcycle i j hij (by omega) heq⟩
  · exact ⟨f j, hpath 0 j (by omega) (by omega), hcycle j i hij (by omega) heq.symm⟩

theorem meets_cond {q yes no : Query α} {a : α} (h : Meets plan (q.cond yes no) a) :
    Meets plan q a ∨ Meets plan yes a ∨ Meets plan no a := by
  induction q with
  | done b => cases b <;> simp [cond] at h <;> simp [h]
  | ask c next ih =>
    cases h with
    | here => exact .inl (.here ..)
    | later hyields hmeets => exact (ih _ hmeets).imp (.later hyields) id

theorem exists_of_meets_all {q : β → Query α} {xs : List β} {a : α}
    (h : Meets plan (all q xs) a) : ∃ x ∈ xs, Meets plan (q x) a := by
  induction xs with
  | nil => cases h
  | cons x xs ih =>
    rcases meets_cond h with hx | hxs | hno
    · exact ⟨x, List.mem_cons_self, hx⟩
    · obtain ⟨y, hy, hmeets⟩ := ih hxs
      exact ⟨y, List.mem_cons_of_mem x hy, hmeets⟩
    · cases hno

theorem exists_of_meets_any {q : β → Query α} {xs : List β} {a : α}
    (h : Meets plan (any q xs) a) : ∃ x ∈ xs, Meets plan (q x) a := by
  induction xs with
  | nil => cases h
  | cons x xs ih =>
    rcases meets_cond h with hx | hyes | hxs
    · exact ⟨x, List.mem_cons_self, hx⟩
    · cases hyes
    · obtain ⟨y, hy, hmeets⟩ := ih hxs
      exact ⟨y, List.mem_cons_of_mem x hy, hmeets⟩

theorem mem_of_meets_asks {as : List α} {a : α} (h : Meets plan (asks as) a) : a ∈ as := by
  obtain ⟨b, hb, hmeets⟩ := exists_of_meets_all h
  cases hmeets with
  | here => exact hb
  | later _ hdone => cases hdone

end Asking

end Query

namespace Matching

open Query

abbrev Pair := VertexId × VertexId

def nominalPlan (e : Engine) : Ty → Ty → Query Pair
  | .instanceOf a as, .instanceOf f fs =>
    if (e.world.isSubclass a f).1 then if a = f then asks (as.zip fs) else done true else done false
  | .singletonOf a, .singletonOf f => done (e.world.isSubclass a f).1
  | .singletonOf a, .instanceOf f _ =>
    done (e.world.isSubclass (if (e.module a).isClass then Core.classModule else Core.module) f).1
  | _, _ => done false

def basePlan (e : Engine) (actual formal : Ty) : Query Pair :=
  match Engine.baseType actual, Engine.baseType formal with
  | some a, some f => if a = actual ∧ f = formal then done false else nominalPlan e a f
  | _, _ => done false

def typesPlan (e : Engine) : Ty → Ty → Query Pair
  | _, .untyped | .untyped, _ | .bot, _ | _, .var .. => done true
  | .nil, .nil | .true, .true | .false, .false => done true
  | .instanceOf a as, .instanceOf f fs => nominalPlan e (.instanceOf a as) (.instanceOf f fs)
  | .singletonOf a, .singletonOf f => nominalPlan e (.singletonOf a) (.singletonOf f)
  | .singletonOf a, .instanceOf f fs => nominalPlan e (.singletonOf a) (.instanceOf f fs)
  | .array (some as) _, .array (some fs) _ =>
    if as.length = fs.length then asks (as.zip fs) else done false
  | .proc a, .proc f => done (a == f)
  | actual, formal => basePlan e actual formal

/-- What is asked to compare two vertices. -/
def plan (e : Engine) (p : Pair) : Query Pair :=
  match typeVar? (e.typesAt p.2) with
  | some _ => done true
  | none => all (fun a => any (typesPlan e a) (e.typesAt p.2)) (e.typesAt p.1)

def Answers (e : Engine) (m : Staging Bool) (v : Option Bool) : Prop :=
  ∀ r : Run, r.engine = e → (m r).map (fun x => (x.1, x.2.engine)) = v.map (·, e)

section Answers

variable {e : Engine} {m : Staging Bool} {v : Option Bool}

theorem Answers.pure (b : Bool) : Answers e (pure b) (some b) := by
  rintro r rfl
  rfl

theorem Answers.bind {k : Bool → Staging Bool} {w : Bool → Option Bool} (h : Answers e m v)
    (hk : ∀ b, Answers e (k b) (w b)) : Answers e (m >>= k) (v.bind w) := by
  intro r hr
  have hm := h r hr
  show ((m r).bind fun x => k x.1 x.2).map _ = _
  cases hmr : m r with
  | none =>
    cases v with
    | none => rfl
    | some b => rw [hmr] at hm; cases hm
  | some x =>
    cases v with
    | none => rw [hmr] at hm; cases hm
    | some b =>
      rw [hmr] at hm
      obtain ⟨rfl, hx⟩ := Prod.ext_iff.1 (Option.some.inj hm)
      exact hk x.1 x.2 hx

theorem Answers.isSubclass (a f : ModuleId) :
    Answers e (isSubclass a f) (some (e.world.isSubclass a f).1) := by
  rintro r rfl
  rw [isSubclass_eq]
  rfl

theorem Answers.allM {α : Type} {k : α → Staging Bool} {q : α → Query Pair}
    {answer : Pair → Option Bool} (h : ∀ x, Answers e (k x) ((q x).run answer)) (xs : List α) :
    Answers e (xs.allM k) ((all q xs).run answer) := by
  induction xs with
  | nil => exact .pure true
  | cons x xs ih =>
    rw [all, run_cond]
    refine (h x).bind fun b => ?_
    cases b with
    | true => exact ih
    | false => exact .pure false

theorem Answers.anyM {α : Type} {k : α → Staging Bool} {q : α → Query Pair}
    {answer : Pair → Option Bool} (h : ∀ x, Answers e (k x) ((q x).run answer)) (xs : List α) :
    Answers e (xs.anyM k) ((any q xs).run answer) := by
  induction xs with
  | nil => exact .pure false
  | cons x xs ih =>
    rw [any, run_cond]
    refine (h x).bind fun b => ?_
    cases b with
    | true => exact .pure true
    | false => exact ih

variable {compare : Compare} {answer : Pair → Option Bool}
  (hcompare : ∀ x y, Answers e (compare x y) (answer (x, y)))

include hcompare

theorem answers_compareAll (xs ys : List VertexId) :
    Answers e (compareAll compare xs ys) ((asks (xs.zip ys)).run answer) := by
  induction xs generalizing ys with
  | nil => exact .pure true
  | cons x xs ih =>
    cases ys with
    | nil => exact .pure true
    | cons y ys =>
      rw [List.zip_cons_cons, asks, all, run_cond, run]
      refine .bind ?_ fun b => ?_
      · simpa [run] using hcompare x y
      · cases b with
        | true => exact ih ys
        | false => exact .pure false

theorem answers_compareNominal (actual formal : Ty) :
    Answers e (compareNominal compare actual formal) ((nominalPlan e actual formal).run answer) :=
      by
  unfold compareNominal
  split
  · next a as f fs =>
    have hrun : (nominalPlan e (.instanceOf a as) (.instanceOf f fs)).run answer =
        (some (e.world.isSubclass a f).1).bind fun b =>
          if b then if a = f then (asks (as.zip fs)).run answer else some true else some false := by
      simp only [nominalPlan, Option.bind_some, apply_ite (run answer), run]
    rw [hrun]
    refine .bind (.isSubclass a f) fun b => ?_
    cases b with
    | true =>
      by_cases haf : a = f
      · simpa [haf] using answers_compareAll hcompare as fs
      · simpa [haf] using Answers.pure true
    | false => exact .pure false
  · next a f => exact .isSubclass a f
  · next a f fs =>
    rintro r rfl
    exact Answers.isSubclass _ f r rfl
  · next hinstances hobjects hobject =>
    have hrun : nominalPlan e actual formal = done false := by
      unfold nominalPlan
      split
      · exact (hinstances _ _ _ _ rfl rfl).elim
      · exact (hobjects _ _ rfl rfl).elim
      · exact (hobject _ _ _ rfl rfl).elim
      · rfl
    rw [hrun]
    exact .pure false

theorem answers_compareBase (actual formal : Ty) :
    Answers e (compareBase compare actual formal) ((basePlan e actual formal).run answer) := by
  unfold compareBase basePlan
  cases Engine.baseType actual with
  | none => exact .pure false
  | some a =>
    cases Engine.baseType formal with
    | none => exact .pure false
    | some f =>
      by_cases hsame : a = actual ∧ f = formal
      · simpa only [if_pos hsame] using .pure false
      · simpa only [if_neg hsame] using answers_compareNominal hcompare a f

theorem answers_compareTypes (actual formal : Ty) :
    Answers e (compareTypes compare actual formal) ((typesPlan e actual formal).run answer) := by
  have hnominal := answers_compareNominal hcompare actual formal
  have hbase := answers_compareBase hcompare actual formal
  cases actual <;> cases formal <;>
    first
    | exact .pure _
    | exact hnominal
    | exact hbase
    | skip
  case array.array elems elem elems' elem' =>
    cases elems with
    | none => exact hbase
    | some as =>
      cases elems' with
      | none => exact hbase
      | some fs =>
        by_cases hlength : as.length = fs.length
        · simpa only [compareTypes, typesPlan, if_pos hlength] using
            answers_compareAll hcompare as fs
        · simpa only [compareTypes, typesPlan, if_neg hlength] using .pure false

end Answers

theorem Answers.typesAt {e : Engine} {v : VertexId} {k : List Ty → Staging Bool} {w : Option Bool}
    (h : Answers e (k (e.typesAt v)) w) : Answers e (Staging.typesAt v >>= k) w := by
  rintro r rfl
  exact h r rfl

theorem answers_compareWithin (e : Engine) (n : Nat) (actual formal : VertexId) :
    Answers e (compareWithin n actual formal) (settle (plan e) n (actual, formal)) := by
  induction n generalizing actual formal with
  | zero => exact fun _ _ => rfl
  | succ n ih =>
    rw [compareWithin, settle]
    refine .typesAt ?_
    unfold plan
    cases typeVar? (e.typesAt formal) with
    | some v =>
      rintro r rfl
      dsimp only
      split <;> rfl
    | none =>
      refine .typesAt (.allM (fun a => .anyM (fun f => ?_) _) _)
      exact answers_compareTypes ih a f

def parts : Ty → List VertexId
  | .instanceOf _ args => args
  | .array elems elem => elem :: elems.getD []
  | _ => []

/-- A type at the first vertex is made of the second. -/
def Part (e : Engine) (v u : VertexId) : Prop := ∃ t ∈ e.typesAt v, u ∈ parts t

section Parts

variable {e : Engine} {p q : Pair}

theorem parts_of_meets_nominalPlan {a f : Ty} (h : Meets (plan e) (nominalPlan e a f) q) :
    q.1 ∈ parts a ∧ q.2 ∈ parts f := by
  unfold nominalPlan at h
  split at h
  · split at h
    · split at h
      · exact List.of_mem_zip (mem_of_meets_asks h)
      · cases h
    · cases h
  all_goals cases h

theorem parts_of_baseType {t b : Ty} (h : Engine.baseType t = some b) {v : VertexId}
    (hv : v ∈ parts b) : v ∈ parts t := by
  cases t with
  | array elems elem =>
    cases h
    exact List.mem_cons.2 (.inl (List.mem_singleton.1 hv))
  | _ => cases h <;> exact hv

theorem parts_of_meets_basePlan {a f : Ty} (h : Meets (plan e) (basePlan e a f) q) :
    q.1 ∈ parts a ∧ q.2 ∈ parts f := by
  unfold basePlan at h
  split at h
  · next ha hf =>
    split at h
    · cases h
    · exact (parts_of_meets_nominalPlan h).imp (parts_of_baseType ha) (parts_of_baseType hf)
  · cases h

theorem parts_of_meets_typesPlan {a f : Ty} (h : Meets (plan e) (typesPlan e a f) q) :
    q.1 ∈ parts a ∧ q.2 ∈ parts f := by
  unfold typesPlan at h
  split at h
  case h_11 as _ fs _ =>
    split at h
    · exact (List.of_mem_zip (mem_of_meets_asks h)).imp (List.mem_cons_of_mem _)
        (List.mem_cons_of_mem _)
    · cases h
  all_goals first
    | cases h
    | exact parts_of_meets_nominalPlan h
    | exact parts_of_meets_basePlan h

theorem part_of_calls (h : Calls (plan e) p q) : Part e p.1 q.1 ∧ Part e p.2 q.2 := by
  unfold Calls plan at h
  split at h
  · cases h
  · obtain ⟨a, ha, h⟩ := exists_of_meets_all h
    obtain ⟨f, hf, h⟩ := exists_of_meets_any h
    obtain ⟨hqa, hqf⟩ := parts_of_meets_typesPlan h
    exact ⟨⟨a, ha, hqa⟩, ⟨f, hf, hqf⟩⟩

def slotPairs (e : Engine) : Finset Pair :=
  let slots := (Finset.range e.graph.vertices.size).image VertexId.mk
  slots ×ˢ slots

theorem card_slotPairs_le (e : Engine) :
    (slotPairs e).card ≤ e.graph.vertices.size * e.graph.vertices.size := by
  have hslots : ((Finset.range e.graph.vertices.size).image VertexId.mk).card ≤
      e.graph.vertices.size := Finset.card_image_le.trans (Finset.card_range _).le
  exact (Finset.card_product ..).trans_le (Nat.mul_le_mul hslots hslots)

theorem mem_slotPairs_of_calls (h : Calls (plan e) p q) : p ∈ slotPairs e := by
  have hslot : ∀ {v u}, Part e v u → v ∈ (Finset.range e.graph.vertices.size).image VertexId.mk :=
    fun {v _} ⟨t, ht, _⟩ => Finset.mem_image.2
      ⟨v.index, Finset.mem_range.2 (Graph.lt_size_of_mem ht), rfl⟩
  exact Finset.mem_product.2 ((part_of_calls h).imp hslot hslot)

end Parts

theorem compareWithin_eq_none_iff (r : Run) (n : Nat) (actual formal : VertexId) :
    compareWithin n actual formal r = none ↔
      settle (plan r.engine) n (actual, formal) = none := by
  rw [← Option.map_eq_none_iff, answers_compareWithin r.engine n actual formal r rfl,
    Option.map_eq_none_iff]

theorem fits_eq_none_iff (r : Run) (actual formal : VertexId) : fits actual formal r = none ↔
    ∃ p, ReflTransGen (Calls (plan r.engine)) (actual, formal) p ∧
      TransGen (Calls (plan r.engine)) p p := by
  let n := r.engine.graph.vertices.size
  have hfits : fits actual formal r = compareWithin (n * n + 1) actual formal r := rfl
  rw [hfits, compareWithin_eq_none_iff]
  exact settle_eq_none_iff (fun _ _ => mem_slotPairs_of_calls)
    (Nat.lt_succ_of_le (card_slotPairs_le r.engine))

end Matching

open Matching Query

/-- Comparing two vertices ends if and only if it does not come to a comparison that comes back to
itself. The bound on the nesting breaks off nothing that would end: a comparison without an answer
has none within any bound. Then a part of the types on either side is made of itself, so types are
compared to the end if this is not so on one of the sides. -/
theorem comparison_ends_iff (r : Run) (actual formal : VertexId) :
    ((∃ b r', fits actual formal r = some (b, r')) ↔
      ¬∃ p, ReflTransGen (Calls (plan r.engine)) (actual, formal) p ∧
        TransGen (Calls (plan r.engine)) p p) ∧
    (fits actual formal r = none → (∀ n, compareWithin n actual formal r = none) ∧
      ∀ v ∈ [actual, formal], ∃ u, ReflTransGen (Part r.engine) v u ∧
        TransGen (Part r.engine) u u) := by
  constructor
  · rw [← fits_eq_none_iff, ← ne_eq, Option.ne_none_iff_exists']
    exact ⟨fun ⟨b, r', h⟩ => ⟨(b, r'), h⟩, fun ⟨x, h⟩ => ⟨x.1, x.2, h⟩⟩
  · intro h
    obtain ⟨p, hreach, hback⟩ := (fits_eq_none_iff r actual formal).1 h
    refine ⟨fun n => (compareWithin_eq_none_iff r n actual formal).2
      (settle_eq_none_of_cycle hreach hback n), ?_⟩
    have hside : ∀ side : Pair → VertexId,
        (∀ {p q}, Calls (plan r.engine) p q → Part r.engine (side p) (side q)) →
        ∃ u, ReflTransGen (Part r.engine) (side (actual, formal)) u ∧
          TransGen (Part r.engine) u u := fun side hpart =>
      ⟨side p, hreach.lift side fun _ _ => hpart, hback.lift side fun _ _ => hpart⟩
    intro v hv
    rcases List.mem_pair.1 hv with rfl | rfl
    · exact hside Prod.fst fun h => (part_of_calls h).1
    · exact hside Prod.snd fun h => (part_of_calls h).2

section Selves

open Workspace

def addsToItself : String :=
  "\x7b\"type\":\"def\",\"name\":\"f\",\"params\":\x7b\"rest\":\"r\"\x7d,\"body\":[" ++
    "\x7b\"type\":\"call\",\"recv\":\x7b\"type\":\"local_read\",\"name\":\"r\"\x7d," ++
    "\"name\":\"<<\",\"args\":[" ++
    "\x7b\"value\":\x7b\"type\":\"local_read\",\"name\":\"r\"\x7d\x7d]\x7d]\x7d"

/-- The elements of the parameter are the parameter itself, and comparing them with themselves has
no end. -/
theorem comparison_without_end :
    let e := (serve {} [writing "a" addsToItself]).engine
    e.typesAt ⟨32⟩ = [.instanceOf Core.array [⟨32⟩]] ∧
      ∀ effects, fits ⟨32⟩ ⟨32⟩ ⟨e, effects⟩ = none := by
  have hrun : let e := (serve {} [writing "a" addsToItself]).engine
      e.typesAt ⟨32⟩ = [.instanceOf Core.array [⟨32⟩]] ∧
        (e.world.isSubclass Core.array Core.array).1 = true := by
    rw [serve_eq]
    decide +kernel
  generalize (serve {} [writing "a" addsToItself]).engine = e at hrun ⊢
  obtain ⟨htypes, hsubclass⟩ := hrun
  have hcalls : Calls (plan e) (⟨32⟩, ⟨32⟩) (⟨32⟩, ⟨32⟩) := by
    unfold Calls plan
    rw [htypes]
    simp only [typeVar?, all, any, typesPlan, nominalPlan, hsubclass, asks, Query.cond, if_true,
      List.zip_cons_cons, List.zip_nil_right]
    exact .here ..
  exact ⟨htypes, fun effects => (fits_eq_none_iff ..).2 ⟨_, .refl, .single hcalls⟩⟩

end Selves

end TypeFlow
