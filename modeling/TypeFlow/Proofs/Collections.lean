import Mathlib
import TypeFlow.Ordered.Map
import TypeFlow.Ordered.Set
import TypeFlow.Ordered.Slots

/-!
# Reading ordered collections back

What a look-up finds after each change of an ordered map, an ordered set or a slot store. The sum of
a quantity over all slots changes by the difference at the slot that was written.
-/

set_option autoImplicit false

namespace TypeFlow

theorem countP_lt_countP {α : Type} {p q : α → Bool} {l : List α} {a : α}
    (h : ∀ x, p x = true → q x = true) (ha : a ∈ l) (hq : q a = true) (hp : p a = false) :
    l.countP p < l.countP q := by
  induction l with
  | nil => exact absurd ha List.not_mem_nil
  | cons b l ih =>
    have hmono : l.countP p ≤ l.countP q := List.countP_mono_left fun x _ => h x
    rw [List.countP_cons, List.countP_cons]
    rcases List.mem_cons.1 ha with rfl | hl
    · simp only [hp, hq, Bool.false_eq_true, if_false, if_true]
      omega
    · have := ih hl
      by_cases hb : p b = true
      · simp only [hb, h b hb, if_true]
        omega
      · rw [if_neg hb]
        omega

namespace OrderedMap

variable {κ α : Type}

@[simp] theorem keys_empty : ({} : OrderedMap κ α).keys = [] := rfl

theorem length_keys (m : OrderedMap κ α) : m.keys.length = m.size := by
  simp [keys, size]

variable [DecidableEq κ]

@[simp] theorem get?_empty (k : κ) : ({} : OrderedMap κ α).get? k = none := rfl

theorem get?_isSome_iff {m : OrderedMap κ α} {k : κ} : (m.get? k).isSome ↔ k ∈ m.keys := by
  rw [← not_iff_not, Bool.not_eq_true, Option.isSome_eq_false_iff, Option.isNone_iff_eq_none]
  exact get?_eq_none_iff

theorem mem_keys_of_get? {m : OrderedMap κ α} {k : κ} {a : α} (h : m.get? k = some a) :
    k ∈ m.keys :=
  get?_isSome_iff.1 (by rw [h]; rfl)

theorem mem_entries_of_get? {m : OrderedMap κ α} {k : κ} {a : α} (h : m.get? k = some a) :
    (k, a) ∈ m.entries := by
  unfold get? at h
  obtain ⟨e, he, rfl⟩ := Option.map_eq_some_iff.1 h
  have hk : e.1 = k := by simpa using List.find?_some he
  rw [← hk]
  exact List.mem_of_find?_eq_some he

theorem get?_of_mem_entries {m : OrderedMap κ α} {x : κ × α} (hn : m.keys.Nodup)
    (hx : x ∈ m.entries) : m.get? x.1 = some x.2 := by
  obtain ⟨es⟩ := m
  unfold get?
  unfold keys at hn
  dsimp only at hn hx ⊢
  induction es with
  | nil => exact absurd hx List.not_mem_nil
  | cons e es ih =>
    rw [List.map_cons, List.nodup_cons] at hn
    rcases List.mem_cons.1 hx with rfl | hx
    · simp
    · have hne : ¬e.1 = x.1 := fun he => hn.1 (he ▸ List.mem_map_of_mem hx)
      rw [List.find?_cons_of_neg (by simpa using hne)]
      exact ih hn.2 hx

theorem mem_values_of_get? {m : OrderedMap κ α} {k : κ} {a : α} (h : m.get? k = some a) :
    a ∈ m.values :=
  List.mem_map.2 ⟨_, mem_entries_of_get? h, rfl⟩

theorem forall_mem_values_modify {m : OrderedMap κ α} {k : κ} {f : α → α} {P : α → Prop}
    (h : ∀ a ∈ m.values, P a) (hf : ∀ a, P a → P (f a)) : ∀ a ∈ (m.modify k f).values, P a := by
  intro a ha
  obtain ⟨e, he, rfl⟩ := List.mem_map.1 ha
  obtain ⟨e', he', rfl⟩ := List.mem_map.1 he
  have hp := h e'.2 (List.mem_map.2 ⟨e', he', rfl⟩)
  split
  · exact hf _ hp
  · exact hp

theorem forall_mem_values_insert {m : OrderedMap κ α} {k : κ} {a : α} {P : α → Prop}
    (h : ∀ x ∈ m.values, P x) (ha : P a) : ∀ x ∈ (m.insert k a).values, P x := by
  unfold insert
  split
  · exact forall_mem_values_modify h fun _ _ => ha
  · intro x hx
    obtain ⟨e, he, rfl⟩ := List.mem_map.1 hx
    rcases List.mem_append.1 he with he | he
    · exact h e.2 (List.mem_map.2 ⟨e, he, rfl⟩)
    · rw [List.mem_singleton.1 he]
      exact ha

theorem mem_values_of_mem_erase {m : OrderedMap κ α} {k : κ} {a : α} (h : a ∈ (m.erase k).values) :
    a ∈ m.values := by
  obtain ⟨e, he, rfl⟩ := List.mem_map.1 h
  exact List.mem_map.2 ⟨e, (List.mem_filter.1 he).1, rfl⟩

theorem get?_modify (m : OrderedMap κ α) (k k' : κ) (f : α → α) :
    (m.modify k f).get? k' = if k = k' then (m.get? k').map f else m.get? k' := by
  unfold modify get?
  rw [List.find?_map]
  have hp : ((fun e : κ × α => decide (e.1 = k')) ∘ fun e => if e.1 = k then (e.1, f e.2) else e)
      = fun e => decide (e.1 = k') := by
    funext e
    by_cases he : e.1 = k <;> simp [he]
  rw [hp]
  cases hfound : m.entries.find? fun e => decide (e.1 = k') with
  | none => simp
  | some e =>
    have he : e.1 = k' := by simpa using List.find?_some hfound
    by_cases hk : k = k'
    · simp [he, hk]
    · simp [he, hk, show ¬k' = k from fun h => hk h.symm]

theorem get?_append_singleton {m : OrderedMap κ α} {k : κ} (hk : m.contains k = false) (k' : κ)
    (a : α) :
    (⟨m.entries ++ [(k, a)]⟩ : OrderedMap κ α).get? k' = if k = k' then some a else m.get? k' := by
  have hnone : m.get? k = none := by
    rw [get?_eq_none_iff]
    intro h
    rw [contains_iff.2 h] at hk
    exact Bool.noConfusion hk
  unfold get? at hnone ⊢
  by_cases h : k = k'
  · subst h
    have hf := Option.map_eq_none_iff.1 hnone
    simp [List.find?_append, hf]
  · simp [List.find?_append, h]

theorem get?_insert (m : OrderedMap κ α) (k k' : κ) (a : α) :
    (m.insert k a).get? k' = if k = k' then some a else m.get? k' := by
  unfold insert
  by_cases hc : m.contains k = true
  · rw [if_pos hc, get?_modify]
    by_cases h : k = k'
    · subst h
      obtain ⟨b, hb⟩ := Option.isSome_iff_exists.1 (get?_isSome_iff.2 (contains_iff.1 hc))
      simp [hb]
    · simp [h]
  · rw [if_neg hc]
    exact get?_append_singleton (by simpa using hc) k' a

theorem get?_upsert (m : OrderedMap κ α) (k k' : κ) (a : α) (f : α → α) :
    (m.upsert k a f).get? k' = if k = k' then some (f ((m.get? k).getD a)) else m.get? k' := by
  unfold upsert
  by_cases hc : m.contains k = true
  · rw [if_pos hc, get?_modify]
    by_cases h : k = k'
    · subst h
      obtain ⟨b, hb⟩ := Option.isSome_iff_exists.1 (get?_isSome_iff.2 (contains_iff.1 hc))
      simp [hb]
    · simp [h]
  · rw [if_neg hc, get?_append_singleton (by simpa using hc)]
    have hnone : m.get? k = none := get?_eq_none_iff.2 fun h => hc (contains_iff.2 h)
    simp [hnone]

theorem get?_erase (m : OrderedMap κ α) (k k' : κ) :
    (m.erase k).get? k' = if k = k' then none else m.get? k' := by
  unfold erase get?
  rw [List.find?_filter]
  by_cases h : k = k'
  · subst h
    simp
  · rw [if_neg h]
    congr 2
    funext e
    by_cases he : e.1 = k'
    · simp [he, show ¬k' = k from fun h' => h h'.symm]
    · simp [he]

theorem mem_keys_insert {m : OrderedMap κ α} {k k' : κ} {a : α} :
    k' ∈ (m.insert k a).keys ↔ k' = k ∨ k' ∈ m.keys := by
  rw [← get?_isSome_iff, ← get?_isSome_iff, get?_insert]
  by_cases h : k = k'
  · simp [h]
  · simp [h, show ¬k' = k from fun h' => h h'.symm]

theorem mem_keys_erase {m : OrderedMap κ α} {k k' : κ} :
    k' ∈ (m.erase k).keys ↔ k' ∈ m.keys ∧ k' ≠ k := by
  simp

theorem keys_upsert (m : OrderedMap κ α) (k : κ) (a : α) (f : α → α) :
    (m.upsert k a f).keys = if k ∈ m.keys then m.keys else m.keys ++ [k] := by
  unfold upsert
  by_cases h : m.contains k = true
  · simp [h, contains_iff.1 h]
  · simp only [h, Bool.false_eq_true, if_false, mt contains_iff.2 h]
    simp [keys]

theorem mem_keys_upsert {m : OrderedMap κ α} {k k' : κ} {a : α} {f : α → α} :
    k' ∈ (m.upsert k a f).keys ↔ k' = k ∨ k' ∈ m.keys := by
  rw [keys_upsert]
  by_cases hk : k ∈ m.keys
  · rw [if_pos hk]
    exact ⟨Or.inr, fun h => h.elim (fun e => e ▸ hk) id⟩
  · rw [if_neg hk, List.mem_append, List.mem_singleton, or_comm]

theorem nodup_keys_upsert {m : OrderedMap κ α} (k : κ) (a : α) (f : α → α) (h : m.keys.Nodup) :
    (m.upsert k a f).keys.Nodup := by
  rw [keys_upsert]
  by_cases hk : k ∈ m.keys
  · rwa [if_pos hk]
  · rw [if_neg hk]
    exact h.append (List.nodup_singleton k) (by simpa using hk)

theorem entries_perm {m : OrderedMap κ α} {k : κ} {a : α} (hn : m.keys.Nodup)
    (h : m.get? k = some a) : m.entries.Perm ((k, a) :: (m.erase k).entries) := by
  obtain ⟨es⟩ := m
  unfold get? at h
  unfold keys at hn
  unfold erase
  dsimp only at hn h ⊢
  induction es with
  | nil => exact absurd h (Option.some_ne_none _).symm
  | cons e es ih =>
    rw [List.map_cons, List.nodup_cons] at hn
    by_cases he : e.1 = k
    · have hval : e = (k, a) := Prod.ext he (by simpa [he] using h)
      have hrest : es.filter (fun e => !decide (e.1 = k)) = es :=
        List.filter_eq_self.2 fun x hx => by
          have hne : x.1 ≠ k := fun hk => hn.1 (he ▸ hk ▸ List.mem_map_of_mem hx)
          simpa using hne
      rw [List.filter_cons_of_neg (by simp [he]), hrest, hval]
    · rw [List.filter_cons_of_pos (by simp [he])]
      exact ((ih hn.2 (by simpa [he] using h)).cons e).trans (.swap (k, a) e _)

theorem erase_insert (m : OrderedMap κ α) (k : κ) (a : α) : (m.insert k a).erase k = m.erase k := by
  have hmodify : ∀ es : List (κ × α),
      (es.map fun e => if e.1 = k then (e.1, a) else e).filter (fun e => !decide (e.1 = k)) =
        es.filter fun e => !decide (e.1 = k) := by
    intro es
    induction es with
    | nil => rfl
    | cons e es ih => by_cases he : e.1 = k <;> simp [he, ih]
  unfold insert erase modify
  split
  · exact congrArg _ (hmodify m.entries)
  · simp

theorem entries_insert_perm {m : OrderedMap κ α} (k : κ) (a : α) (hn : m.keys.Nodup) :
    (m.insert k a).entries.Perm ((k, a) :: (m.erase k).entries) := by
  rw [← erase_insert m k a]
  exact entries_perm (nodup_keys_insert k a hn) (by rw [get?_insert, if_pos rfl])

theorem erase_of_get?_eq_none {m : OrderedMap κ α} {k : κ} (h : m.get? k = none) :
    m.erase k = m := by
  unfold erase
  rw [List.filter_eq_self.2 fun e he => ?_]
  have hne : e.1 ≠ k := fun hk => get?_eq_none_iff.1 h (hk ▸ List.mem_map_of_mem he)
  simpa using hne

end OrderedMap

namespace OrderedSet

variable {α : Type} [DecidableEq α]

theorem contains_iff {s : OrderedSet α} {a : α} : s.contains a = true ↔ a ∈ s.toList := by
  simp [contains]

theorem mem_foldl_insert {as : List α} {s : OrderedSet α} {x : α} :
    x ∈ (as.foldl insert s).toList ↔ x ∈ s.toList ∨ x ∈ as := by
  induction as generalizing s with
  | nil => simp
  | cons a as ih => rw [List.foldl_cons, ih, mem_insert, List.mem_cons, or_assoc]

theorem mem_ofList {as : List α} {x : α} : x ∈ (ofList as).toList ↔ x ∈ as :=
  mem_foldl_insert.trans (or_iff_right List.not_mem_nil)

theorem nodup_ofList (as : List α) :
    (ofList as).toList.Nodup := by
  have hfold : ∀ (as : List α) (s : OrderedSet α), s.toList.Nodup →
      (as.foldl insert s).toList.Nodup := by
    intro as
    induction as with
    | nil => exact fun _ h => h
    | cons a as ih => exact fun s h => ih _ (nodup_insert a h)
  exact hfold as {} List.nodup_nil

end OrderedSet

namespace Slots

variable {α : Type}
variable {i : Nat}

theorem lt_size_of_get? {s : Slots α} {a : α} (h : s.get? i = some a) : i < s.size := by
  unfold get? at h
  exact (Array.getElem?_eq_some_iff.1 h).1

theorem get?_eq_none_iff {s : Slots α} : s.get? i = none ↔ s.size ≤ i := by
  simp [get?, size]

theorem exists_get?_of_lt {s : Slots α} (h : i < s.size) : ∃ a, s.get? i = some a := by
  cases ha : s.get? i with
  | none => exact absurd (get?_eq_none_iff.1 ha) (by omega)
  | some a => exact ⟨a, rfl⟩

theorem perm_sweep (s : Slots α) (p : α → Bool) :
    ((s.sweep p).2.released ++ (s.sweep p).2.free).Perm (s.released ++ s.free) := by
  let accepted := fun i => (s.get? i).any p
  show ((s.released.filter fun i => !accepted i) ++
    ((s.released.filter accepted).reverse ++ s.free)).Perm _
  rw [← List.append_assoc]
  refine List.Perm.append_right _ ?_
  have hback := (List.reverse_perm (s.released.filter accepted)).append_left
    (s.released.filter fun i => !accepted i)
  exact hback.trans (List.perm_append_comm.trans (List.filter_append_perm accepted _))

theorem alloc_index (s : Slots α) (a : α) :
    (s.alloc a).1 ∈ s.free ∨ (s.alloc a).1 = s.size := by
  unfold alloc
  cases s.free with
  | nil => exact Or.inr rfl
  | cons i rest => exact Or.inl List.mem_cons_self

theorem slots_alloc {s : Slots α} (hn : (s.released ++ s.free).Nodup)
    (hlt : ∀ i ∈ s.released ++ s.free, i < s.size) (a : α) :
    (s.alloc a).2.released = s.released ∧ (s.alloc a).2.free = s.free.tail ∧
      s.size ≤ (s.alloc a).2.size ∧ ∀ i ∈ s.released ++ s.free.tail, (s.alloc a).1 ≠ i := by
  unfold alloc
  cases hf : s.free with
  | nil =>
    refine ⟨rfl, rfl, by simp [size], fun i hi he => ?_⟩
    have := hlt i (by simpa [hf] using hi)
    have he' : s.size = i := he
    omega
  | cons j rest =>
    refine ⟨rfl, rfl, by simp [size], fun i hi he => ?_⟩
    rw [hf, List.nodup_middle, List.nodup_cons] at hn
    have he' : j = i := he
    exact hn.1 (he' ▸ hi)

theorem get?_alloc_eq_or (s : Slots α) (a : α) (j : Nat) :
    (s.alloc a).2.get? j = some a ∨ (s.alloc a).2.get? j = s.get? j := by
  unfold alloc get?
  cases s.free with
  | nil =>
    dsimp only
    rw [Array.getElem?_push]
    split
    · exact Or.inl rfl
    · exact Or.inr rfl
  | cons i rest =>
    dsimp only
    rw [Array.getElem?_modify]
    split
    · cases s.slots[j]? with
      | none => exact Or.inr rfl
      | some y => exact Or.inl rfl
    · exact Or.inr rfl

theorem get?_alloc {s : Slots α} (hfree : ∀ i ∈ s.free, i < s.size) (a : α) (j : Nat) :
    (s.alloc a).2.get? j = if (s.alloc a).1 = j then some a else s.get? j := by
  unfold alloc
  cases hf : s.free with
  | nil =>
    simp only [get?]
    rw [Array.getElem?_push]
    by_cases h : j = s.slots.size
    · simp [h]
    · simp [h, show ¬s.slots.size = j from fun h' => h h'.symm]
  | cons i rest =>
    have hi : i < s.size := hfree i (by simp [hf])
    simp only [get?, Array.getElem?_modify]
    by_cases h : i = j
    · subst h
      obtain ⟨b, hb⟩ := exists_get?_of_lt hi
      simp only [get?] at hb
      simp [hb]
    · simp [h]

def total (s : Slots α) (f : α → Nat) : Nat := (s.slots.toList.map f).sum

theorem total_modify {s : Slots α} {a : α} (h : s.get? i = some a) (g : α → α)
    (f : α → Nat) : (s.modify i g).total f + f a = s.total f + f (g a) := by
  unfold get? at h
  rw [← Array.getElem?_toList] at h
  simp only [total, modify, Array.toList_modify]
  generalize s.slots.toList = l at h ⊢
  induction l generalizing i with
  | nil => simp at h
  | cons b l ih =>
    cases i with
    | zero =>
      obtain rfl : b = a := by simpa using h
      simp only [List.modify_zero_cons, List.map_cons, List.sum_cons]
      omega
    | succ i =>
      have := ih (i := i) (by simpa using h)
      simp only [List.modify_succ_cons, List.map_cons, List.sum_cons]
      omega

end Slots

end TypeFlow
