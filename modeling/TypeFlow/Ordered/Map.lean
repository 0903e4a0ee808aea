/-!
# Maps that remember insertion order

An `OrderedMap` lists its entries in the order in which their keys first arrived. Writing to a key
that is present keeps its place, erasing keeps the order of the others. The list of entries is the
view through which every operation is described.
-/

set_option autoImplicit false

namespace TypeFlow

structure OrderedMap (κ α : Type) where
  entries : List (κ × α) := []
  deriving DecidableEq, Repr, Inhabited

namespace OrderedMap

variable {κ α : Type}

def keys (m : OrderedMap κ α) : List κ := m.entries.map Prod.fst

def values (m : OrderedMap κ α) : List α := m.entries.map Prod.snd

def size (m : OrderedMap κ α) : Nat := m.entries.length

def isEmpty (m : OrderedMap κ α) : Bool := m.entries.isEmpty

def first? (m : OrderedMap κ α) : Option (κ × α) := m.entries.head?

variable [DecidableEq κ]

def get? (m : OrderedMap κ α) (k : κ) : Option α :=
  (m.entries.find? fun e => e.1 = k).map Prod.snd

def contains (m : OrderedMap κ α) (k : κ) : Bool := m.entries.any fun e => e.1 = k

def modify (m : OrderedMap κ α) (k : κ) (f : α → α) : OrderedMap κ α :=
  ⟨m.entries.map fun e => if e.1 = k then (e.1, f e.2) else e⟩

def insert (m : OrderedMap κ α) (k : κ) (a : α) : OrderedMap κ α :=
  if m.contains k then m.modify k fun _ => a else ⟨m.entries ++ [(k, a)]⟩

def upsert (m : OrderedMap κ α) (k : κ) (a : α) (f : α → α) : OrderedMap κ α :=
  if m.contains k then m.modify k f else ⟨m.entries ++ [(k, f a)]⟩

def erase (m : OrderedMap κ α) (k : κ) : OrderedMap κ α :=
  ⟨m.entries.filter fun e => !decide (e.1 = k)⟩

def rekey (m : OrderedMap κ α) (k k' : κ) : OrderedMap κ α :=
  ⟨m.entries.map fun e => if e.1 = k then (k', e.2) else e⟩

theorem contains_iff {m : OrderedMap κ α} {k : κ} : m.contains k = true ↔ k ∈ m.keys := by
  simp [contains, keys]

theorem get?_eq_none_iff {m : OrderedMap κ α} {k : κ} : m.get? k = none ↔ k ∉ m.keys := by
  simp only [get?, keys, Option.map_eq_none_iff, List.find?_eq_none, decide_eq_true_eq,
    List.mem_map, not_exists, not_and]

@[simp] theorem keys_modify (m : OrderedMap κ α) (k : κ) (f : α → α) :
    (m.modify k f).keys = m.keys := by
  simp only [keys, modify, List.map_map]
  apply List.map_congr_left
  intro e _
  by_cases h : e.1 = k <;> simp [h]

/-- A key arrives at the end and never moves afterwards. -/
theorem keys_insert (m : OrderedMap κ α) (k : κ) (a : α) :
    (m.insert k a).keys = if k ∈ m.keys then m.keys else m.keys ++ [k] := by
  unfold insert
  by_cases h : m.contains k = true
  · simp [h, contains_iff.1 h]
  · simp only [h, Bool.false_eq_true, if_false, mt contains_iff.2 h]
    simp [keys]

@[simp] theorem keys_erase (m : OrderedMap κ α) (k : κ) :
    (m.erase k).keys = m.keys.filter fun x => !decide (x = k) := by
  simp only [keys, erase, List.filter_map]
  rfl

theorem nodup_keys_insert {m : OrderedMap κ α} (k : κ) (a : α) (h : m.keys.Nodup) :
    (m.insert k a).keys.Nodup := by
  rw [keys_insert]
  split
  · exact h
  · next hk =>
    rw [List.nodup_append]
    refine ⟨h, by simp, ?_⟩
    intro x hx y hy
    rw [List.mem_singleton.1 hy]
    exact fun e => hk (e ▸ hx)

theorem nodup_keys_erase {m : OrderedMap κ α} (k : κ) (h : m.keys.Nodup) :
    (m.erase k).keys.Nodup := by
  rw [keys_erase]
  exact h.filter _

end OrderedMap

end TypeFlow
