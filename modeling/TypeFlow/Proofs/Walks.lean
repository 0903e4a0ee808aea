import Mathlib.Logic.Relation
import TypeFlow.Proofs.Worlds

/-!
# Walks find everything they can reach

A trail and an exploration list a place once and begin where they were asked to. They end when they
run out of steps, when nothing follows or when they meet what they have seen; with enough steps what
they list is closed under going on, so it is all that can be reached.
-/

set_option autoImplicit false

namespace TypeFlow

open Relation

variable {α : Type}

theorem mem_of_reflTransGen {step : α → α → Prop} {l : List α}
    (hclosed : ∀ x ∈ l, ∀ y, step x y → y ∈ l) {a b : α} (ha : a ∈ l)
    (h : ReflTransGen step a b) : b ∈ l := by
  induction h with
  | refl => exact ha
  | tail _ hstep ih => exact hclosed _ ih _ hstep

theorem closed_of_seen {next : α → Option α} {seen : List α} {a : α} (ha : a ∈ seen)
    (hseen : ∀ x ∈ seen, ∀ y, next x = some y → y ∈ seen ∨ y = a) :
    a ∈ seen ++ [] ∧ ∀ x ∈ seen ++ [], ∀ y, next x = some y → y ∈ seen ++ [] := by
  rw [List.append_nil]
  exact ⟨ha, fun x hx y hy => (hseen x hx y hy).elim id fun h => h ▸ ha⟩

theorem closed_of_stack_nil {next : α → List α} {out : List α}
    (hout : ∀ x ∈ out, ∀ y ∈ next x, y ∈ out ∨ y ∈ ([] : List α)) :
    (∀ x ∈ ([] : List α), x ∈ out) ∧ ∀ x ∈ out, ∀ y ∈ next x, y ∈ out :=
  ⟨fun _ hx => absurd hx List.not_mem_nil,
    fun x hx y hy => (hout x hx y hy).resolve_right List.not_mem_nil⟩

variable [DecidableEq α]

theorem card_sdiff_insert {S : Finset α} {seen : Finset α} {a : α} (ha : a ∈ S)
    (hseen : a ∉ seen) : (S \ insert a seen).card + 1 = (S \ seen).card := by
  rw [Finset.sdiff_insert, Finset.card_erase_add_one]
  exact Finset.mem_sdiff.2 ⟨ha, hseen⟩

section Trail

variable {next : α → Option α}

theorem nodup_trailFrom (n : Nat) (seen : List α) (a : α) :
    (trailFrom next n seen a).Nodup ∧ ∀ x ∈ trailFrom next n seen a, x ∉ seen := by
  induction n generalizing seen a with
  | zero => simp [trailFrom]
  | succ n ih =>
    unfold trailFrom
    split
    · simp
    · next ha =>
      cases hb : next a with
      | none => simpa using ha
      | some b =>
        obtain ⟨hnodup, hfresh⟩ := ih (a :: seen) b
        constructor
        · refine List.nodup_cons.2 ⟨fun hmem => ?_, hnodup⟩
          exact hfresh a hmem List.mem_cons_self
        · intro x hx
          rcases List.mem_cons.1 hx with rfl | hx
          · exact ha
          · exact fun hmem => hfresh x hx (List.mem_cons_of_mem _ hmem)

theorem nodup_trail (bound : Nat) (a : α) : (trail next bound a).Nodup :=
  (nodup_trailFrom bound [] a).1

theorem head?_trail {bound : Nat} (h : 0 < bound) (a : α) :
    (trail next bound a).head? = some a := by
  obtain ⟨n, rfl⟩ := Nat.exists_eq_add_one_of_ne_zero (Nat.ne_of_gt h)
  simp [trail, trailFrom]

/-- The induction is on the steps left. The places seen lead only to seen ones and to the present
one, and there is a step for each place not seen. -/
theorem closed_trailFrom {S : Finset α} (hS : ∀ x ∈ S, ∀ y, next x = some y → y ∈ S) (n : Nat)
    (seen : List α) {a : α} (ha : a ∈ S) (hn : (S \ seen.toFinset).card ≤ n)
    (hseen : ∀ x ∈ seen, ∀ y, next x = some y → y ∈ seen ∨ y = a) :
    a ∈ seen ++ trailFrom next n seen a ∧
      ∀ x ∈ seen ++ trailFrom next n seen a, ∀ y, next x = some y →
        y ∈ seen ++ trailFrom next n seen a := by
  induction n generalizing seen a with
  | zero =>
    have hmem : a ∈ seen := by
      by_contra hnot
      have hcard := card_sdiff_insert ha fun h => hnot (List.mem_toFinset.1 h)
      omega
    exact closed_of_seen hmem hseen
  | succ n ih =>
    unfold trailFrom
    split
    · next hmem => exact closed_of_seen hmem hseen
    · next hmem =>
      have hcard := card_sdiff_insert ha fun h => hmem (List.mem_toFinset.1 h)
      cases hb : next a with
      | none =>
        refine ⟨by simp, fun x hx y hy => ?_⟩
        rcases List.mem_append.1 hx with hx | hx
        · exact (hseen x hx y hy).elim (List.mem_append_left _) fun h => by simp [h]
        · rw [List.mem_singleton.1 hx, hb] at hy
          exact absurd hy (Option.some_ne_none y).symm
      | some b =>
        have hnext : ∀ x ∈ a :: seen, ∀ y, next x = some y → y ∈ a :: seen ∨ y = b := by
          intro x hx y hy
          rcases List.mem_cons.1 hx with rfl | hx
          · exact Or.inr (Option.some.inj (hy.symm.trans hb))
          · exact Or.inl ((hseen x hx y hy).elim (List.mem_cons_of_mem _) fun h => by simp [h])
        obtain ⟨_, hclosed⟩ := ih (a :: seen) (hS a ha b hb) (by rw [List.toFinset_cons]; omega)
          hnext
        have hperm : ∀ x, x ∈ seen ++ a :: trailFrom next n (a :: seen) b ↔
            x ∈ (a :: seen) ++ trailFrom next n (a :: seen) b := fun x => by
          simp only [List.mem_append, List.mem_cons]
          tauto
        exact ⟨by simp, fun x hx y hy => (hperm y).2 (hclosed x ((hperm x).1 hx) y hy)⟩

/-- With a step for each place of a closed set, a trail inside it lists all that follows. -/
theorem mem_trail_iff {S : Finset α} (hS : ∀ x ∈ S, ∀ y, next x = some y → y ∈ S) {bound : Nat}
    (hbound : S.card ≤ bound) {a b : α} (ha : a ∈ S) :
    b ∈ trail next bound a ↔ ReflTransGen (fun x y => next x = some y) a b := by
  constructor
  · intro hb
    exact forall_mem_trailFrom (P := ReflTransGen (fun x y => next x = some y) a)
      (fun x y hx hy => hx.tail hy) bound [] .refl b hb
  · intro h
    obtain ⟨hstart, hclosed⟩ := closed_trailFrom hS bound [] ha (by simpa using hbound)
      fun x hx => absurd hx List.not_mem_nil
    rw [List.nil_append] at hstart hclosed
    exact mem_of_reflTransGen hclosed hstart h

/-- A trail inside a closed set only stops short where it meets what it has seen. -/
theorem mem_seen_of_steps {S : Finset α} {n : Nat} {seen : List α} {a : α} (ha : a ∈ S)
    (hn : (S \ seen.toFinset).card ≤ n) : n ≠ 0 ∨ a ∈ seen := by
  by_contra h
  obtain ⟨rfl, hseen⟩ : n = 0 ∧ a ∉ seen := by simpa using h
  have hmem : a ∈ S \ seen.toFinset := by simp [ha, hseen]
  exact absurd (Finset.card_pos.2 ⟨a, hmem⟩) (by omega)

/-- Two trails that lead the same way from each place on the first are the same. -/
theorem trailFrom_congr {next' : α → Option α} {S T : Finset α}
    (hS : ∀ x ∈ S, ∀ y, next x = some y → y ∈ S) (hT : ∀ x ∈ T, ∀ y, next' x = some y → y ∈ T)
    (n n' : Nat) (seen : List α) {a : α} (ha : a ∈ S) (ha' : a ∈ T)
    (hn : (S \ seen.toFinset).card ≤ n) (hn' : (T \ seen.toFinset).card ≤ n')
    (hsame : ∀ x ∈ trailFrom next n seen a, next' x = next x) :
    trailFrom next' n' seen a = trailFrom next n seen a := by
  induction n generalizing n' seen a with
  | zero =>
    have hseen : a ∈ seen := (mem_seen_of_steps ha hn).resolve_left (by simp)
    cases n' <;> simp [trailFrom, hseen]
  | succ n ih =>
    by_cases hseen : a ∈ seen
    · cases n' <;> simp [trailFrom, hseen]
    · obtain ⟨k, rfl⟩ : ∃ k, n' = k + 1 :=
        Nat.exists_eq_succ_of_ne_zero ((mem_seen_of_steps ha' hn').resolve_right hseen)
      have hS' : (S \ insert a seen.toFinset).card + 1 = (S \ seen.toFinset).card :=
        card_sdiff_insert ha (by simpa using hseen)
      have hT' : (T \ insert a seen.toFinset).card + 1 = (T \ seen.toFinset).card :=
        card_sdiff_insert ha' (by simpa using hseen)
      simp only [trailFrom, if_neg hseen] at hsame ⊢
      have hnext : next' a = next a := hsame a List.mem_cons_self
      rw [hnext]
      cases hb : next a with
      | none => rfl
      | some b =>
        rw [hb] at hsame
        refine congrArg (a :: ·) (ih k (a :: seen) (hS a ha b hb) (hT a ha' b (hnext.trans hb)) ?_
          ?_
          fun x hx => hsame x (List.mem_cons_of_mem _ hx))
        · rw [List.toFinset_cons]
          omega
        · rw [List.toFinset_cons]
          omega

end Trail

section Exploration

variable {next : α → List α}

theorem nodup_reachFrom (n : Nat) {out : List α} (hout : out.Nodup) (stack : List α) :
    (reachFrom next n out stack).Nodup := by
  induction n generalizing out stack with
  | zero => exact hout
  | succ n ih =>
    cases stack with
    | nil => exact hout
    | cons a stack =>
      unfold reachFrom
      split
      · exact ih hout stack
      · next ha =>
        refine ih (List.nodup_append.2 ⟨hout, List.nodup_singleton a, ?_⟩) _
        intro x hx y hy hxy
        rw [List.mem_singleton.1 hy] at hxy
        exact ha (hxy ▸ hx)

theorem nodup_reach (bound : Nat) (start : List α) : (reach next bound start).Nodup :=
  nodup_reachFrom bound List.nodup_nil start

theorem prefix_reachFrom (n : Nat) (out stack : List α) :
    out <+: reachFrom next n out stack := by
  induction n generalizing out stack with
  | zero => exact List.prefix_rfl
  | succ n ih =>
    cases stack with
    | nil => exact List.prefix_rfl
    | cons a stack =>
      unfold reachFrom
      split
      · exact ih out stack
      · exact (List.prefix_append out [a]).trans (ih _ _)

theorem head?_reach {bound : Nat} (h : 0 < bound) (a : α) (rest : List α) :
    (reach next bound (a :: rest)).head? = some a := by
  obtain ⟨n, rfl⟩ := Nat.exists_eq_add_one_of_ne_zero (Nat.ne_of_gt h)
  have hprefix : [a] <+: reachFrom next n [a] (next a ++ rest) := prefix_reachFrom n [a] _
  obtain ⟨tail, htail⟩ := hprefix
  simp [reach, reachFrom, ← htail]

/-- The induction is on the steps left. What the places listed lead to is listed or on the stack,
and there is a step for each place on the stack and for each that may still be put there. -/
theorem closed_reachFrom {S : Finset α} (hS : ∀ x ∈ S, ∀ y ∈ next x, y ∈ S) (n : Nat)
    (out stack : List α) (hstack : ∀ x ∈ stack, x ∈ S)
    (hn : stack.length + ∑ x ∈ S \ out.toFinset, (next x).length ≤ n)
    (hout : ∀ x ∈ out, ∀ y ∈ next x, y ∈ out ∨ y ∈ stack) :
    (∀ x ∈ stack, x ∈ reachFrom next n out stack) ∧
      ∀ x ∈ reachFrom next n out stack, ∀ y ∈ next x, y ∈ reachFrom next n out stack := by
  induction n generalizing out stack with
  | zero =>
    obtain rfl : stack = [] := List.length_eq_zero_iff.1 (by omega)
    exact closed_of_stack_nil hout
  | succ n ih =>
    cases stack with
    | nil => exact closed_of_stack_nil hout
    | cons a stack =>
      have ha := hstack a List.mem_cons_self
      have htail : ∀ x ∈ stack, x ∈ S := fun x hx => hstack x (List.mem_cons_of_mem _ hx)
      rw [List.length_cons] at hn
      unfold reachFrom
      split
      · next hmem =>
        have hout' : ∀ x ∈ out, ∀ y ∈ next x, y ∈ out ∨ y ∈ stack := by
          intro x hx y hy
          rcases hout x hx y hy with hy | hy
          · exact Or.inl hy
          · exact (List.mem_cons.1 hy).elim (fun h => Or.inl (h ▸ hmem)) Or.inr
        obtain ⟨hfound, hclosed⟩ := ih out stack htail (by omega) hout'
        refine ⟨fun x hx => ?_, hclosed⟩
        rcases List.mem_cons.1 hx with rfl | hx
        · exact (prefix_reachFrom n out stack).subset hmem
        · exact hfound x hx
      · next hmem =>
        have hsum := Finset.sum_erase_add (S \ out.toFinset) (fun x => (next x).length)
          (Finset.mem_sdiff.2 ⟨ha, fun h => hmem (List.mem_toFinset.1 h)⟩)
        have hset : S \ (out ++ [a]).toFinset = (S \ out.toFinset).erase a := by
          ext x
          simp only [Finset.mem_sdiff, List.mem_toFinset, List.mem_append, List.mem_singleton,
            Finset.mem_erase]
          tauto
        have hout' : ∀ x ∈ out ++ [a], ∀ y ∈ next x, y ∈ out ++ [a] ∨ y ∈ next a ++ stack := by
          intro x hx y hy
          rcases List.mem_append.1 hx with hx | hx
          · rcases hout x hx y hy with hy | hy
            · exact Or.inl (List.mem_append_left _ hy)
            · rcases List.mem_cons.1 hy with rfl | hy
              · exact Or.inl (by simp)
              · exact Or.inr (List.mem_append_right _ hy)
          · rw [List.mem_singleton.1 hx] at hy
            exact Or.inr (List.mem_append_left _ hy)
        obtain ⟨hfound, hclosed⟩ := ih (out ++ [a]) (next a ++ stack)
          (fun x hx => (List.mem_append.1 hx).elim (hS a ha x) (htail x))
          (by rw [hset, List.length_append]; omega) hout'
        refine ⟨fun x hx => ?_, hclosed⟩
        rcases List.mem_cons.1 hx with rfl | hx
        · exact (prefix_reachFrom n (out ++ [x]) _).subset (by simp)
        · exact hfound x (List.mem_append_right _ hx)

/-- With a step for the start and for each way out of a closed set, an exploration from a place
inside it lists all that can be reached. -/
theorem mem_reach_iff {S : Finset α} (hS : ∀ x ∈ S, ∀ y ∈ next x, y ∈ S) {bound : Nat}
    (hbound : 1 + ∑ x ∈ S, (next x).length ≤ bound) {a b : α} (ha : a ∈ S) :
    b ∈ reach next bound [a] ↔ ReflTransGen (fun x y => y ∈ next x) a b := by
  constructor
  · intro hb
    refine forall_mem_reachFrom (P := ReflTransGen (fun x y => y ∈ next x) a)
      (fun x hx y hy => hx.tail hy) bound (fun x hx => absurd hx List.not_mem_nil) ?_ b hb
    intro x hx
    exact List.mem_singleton.1 hx ▸ .refl
  · intro h
    obtain ⟨hstart, hclosed⟩ := closed_reachFrom hS bound [] [a]
      (fun x hx => List.mem_singleton.1 hx ▸ ha) (by simpa using hbound)
      fun x hx => absurd hx List.not_mem_nil
    exact mem_of_reflTransGen hclosed (hstart a List.mem_cons_self) h

end Exploration

section Search

variable {next : α → List α} {target : α}

/-- A search that has failed has been through all that it has seen since: what follows there is not
the target, and has been seen. -/
structure Exhausts (next : α → List α) (target : α) (seen seen' : List α) : Prop where
  grows : seen ⊆ seen'
  through : ∀ x ∈ seen', x ∉ seen → ∀ y ∈ next x, y ≠ target ∧ y ∈ seen'

theorem Exhausts.trans {seen seen' seen'' : List α} (h : Exhausts next target seen seen')
    (h' : Exhausts next target seen' seen'') : Exhausts next target seen seen'' := by
  refine ⟨List.Subset.trans h.grows h'.grows, fun x hx hold y hy => ?_⟩
  by_cases hmid : x ∈ seen'
  · obtain ⟨hne, hseen⟩ := h.through x hmid hold y hy
    exact ⟨hne, h'.grows hseen⟩
  · exact h'.through x hx hmid y hy

theorem seekAny_false {visit : α → List α → Bool × List α} {bs seen seen' : List α}
    (hvisit : ∀ b ∈ bs, ∀ s s', seen ⊆ s → visit b s = (false, s') →
      Exhausts next target s s' ∧ b ∈ s')
    (h : seekAny target visit bs seen = (false, seen')) :
    Exhausts next target seen seen' ∧ ∀ b ∈ bs, b ≠ target ∧ b ∈ seen' := by
  induction bs generalizing seen with
  | nil =>
    cases h
    exact ⟨⟨List.Subset.refl _, fun _ hx hold => absurd hx hold⟩, fun _ hb => by cases hb⟩
  | cons b bs ih =>
    unfold seekAny at h
    split at h
    · cases h
    · next hne =>
      cases hb : visit b seen with
      | mk found s =>
        rw [hb] at h
        cases found with
        | true => cases h
        | false =>
          obtain ⟨hfirst, hmem⟩ := hvisit b List.mem_cons_self seen s (List.Subset.refl _) hb
          obtain ⟨hrest, hall⟩ := ih (fun c hc s1 s2 hs => hvisit c (List.mem_cons_of_mem _ hc) s1
            s2
            (List.Subset.trans hfirst.grows hs)) h
          refine ⟨hfirst.trans hrest, fun c hc => ?_⟩
          rcases List.mem_cons.1 hc with rfl | hc
          · exact ⟨hne, hrest.grows hmem⟩
          · exact hall c hc

theorem seek_false {S : Finset α} (hS : ∀ x ∈ S, ∀ y ∈ next x, y ∈ S) (n : Nat) {a : α}
    {seen seen' : List α} (ha : a ∈ S) (hn : (S \ seen.toFinset).card ≤ n)
    (h : seek next target n a seen = (false, seen')) :
    Exhausts next target seen seen' ∧ a ∈ seen' := by
  have hold : a ∈ seen → Exhausts next target seen seen ∧ a ∈ seen := fun hmem =>
    ⟨⟨List.Subset.refl _, fun _ hx hx' => absurd hx hx'⟩, hmem⟩
  induction n generalizing a seen seen' with
  | zero =>
    cases h
    refine hold (by_contra fun hmem => ?_)
    have hnone := Finset.card_eq_zero.1 (Nat.le_zero.1 hn)
    have hin : a ∈ S \ seen.toFinset := by simp [ha, hmem]
    rw [hnone] at hin
    cases hin
  | succ n ih =>
    unfold seek at h
    split at h
    · next hmem =>
      cases h
      exact hold hmem
    · next hmem =>
      have hless : ∀ s : List α, a :: seen ⊆ s → (S \ s.toFinset).card ≤ n := fun s hs => by
        have hstrict : (S \ s.toFinset).card < (S \ seen.toFinset).card := by
          refine Finset.card_lt_card (Finset.ssubset_iff_of_subset ?_ |>.2 ⟨a, ?_, ?_⟩)
          · refine Finset.sdiff_subset_sdiff subset_rfl fun x hx => ?_
            exact List.mem_toFinset.2 (hs (List.mem_cons_of_mem _ (List.mem_toFinset.1 hx)))
          · simp [ha, hmem]
          · simp [hs List.mem_cons_self]
        omega
      obtain ⟨hthrough, hnext⟩ := seekAny_false (fun b hb s s' hs hv =>
        ih (hS a ha b hb) (hless s hs) hv fun hmem =>
          ⟨⟨List.Subset.refl _, fun _ hx hx' => absurd hx hx'⟩, hmem⟩) h
      refine ⟨⟨fun x hx => hthrough.grows (List.mem_cons_of_mem _ hx), fun x hx hx' y hy => ?_⟩,
        hthrough.grows List.mem_cons_self⟩
      by_cases he : x = a
      · exact hnext y (he ▸ hy)
      · exact hthrough.through x hx (by simp [he, hx']) y hy

theorem transGen_of_seek (n : Nat) {a : α} {seen : List α} (h : (seek next target n a seen).1 =
    true) :
    TransGen (fun x y => y ∈ next x) a target := by
  induction n generalizing a seen with
  | zero => cases h
  | succ n ih =>
    unfold seek at h
    split at h
    · cases h
    · have hany : ∀ bs s, (∀ b ∈ bs, b ∈ next a) →
          (seekAny target (seek next target n) bs s).1 = true →
            TransGen (fun x y => y ∈ next x) a target := by
        intro bs
        induction bs with
        | nil => exact fun _ _ h => by cases h
        | cons b bs ihbs =>
          intro s hbs h
          unfold seekAny at h
          split at h
          · next he => exact .single (he ▸ hbs b List.mem_cons_self)
          · split at h
            · next hv => exact .head (hbs b List.mem_cons_self) (ih (congrArg Prod.fst hv))
            · exact ihbs _ (fun c hc => hbs c (List.mem_cons_of_mem _ hc)) h
      exact hany _ _ (fun _ => id) h

/-- A search as deep as a closed set is large finds the target from a place inside it if and only
if some steps lead there. -/
theorem seek_iff {S : Finset α} (hS : ∀ x ∈ S, ∀ y ∈ next x, y ∈ S) {bound : Nat}
    (hbound : S.card ≤ bound) {a : α} (ha : a ∈ S) :
    (seek next target bound a []).1 = true ↔ TransGen (fun x y => y ∈ next x) a target := by
  refine ⟨transGen_of_seek bound, fun h => by_contra fun hmiss => ?_⟩
  cases hs : seek next target bound a [] with
  | mk found seen =>
    rw [hs] at hmiss
    cases found with
    | true => exact hmiss rfl
    | false =>
      obtain ⟨hthrough, hmem⟩ := seek_false hS bound ha (by simpa using hbound) hs
      obtain ⟨x, hx, hlast⟩ := TransGen.tail'_iff.1 h
      have hseen : x ∈ seen := mem_of_reflTransGen
        (fun x hx y hy => (hthrough.through x hx List.not_mem_nil y hy).2) hmem hx
      exact (hthrough.through x hseen List.not_mem_nil target hlast).1 rfl

end Search

end TypeFlow
