/-!
# Sets that remember insertion order

An `OrderedSet` lists its members in the order in which they arrived; erasing keeps the order of
the others.
-/

set_option autoImplicit false

namespace TypeFlow

structure OrderedSet (α : Type) where
  toList : List α := []
  deriving DecidableEq, Repr, Inhabited

namespace OrderedSet

variable {α : Type}

def isEmpty (s : OrderedSet α) : Bool := s.toList.isEmpty

def size (s : OrderedSet α) : Nat := s.toList.length

variable [DecidableEq α]

def contains (s : OrderedSet α) (a : α) : Bool := decide (a ∈ s.toList)

def insert (s : OrderedSet α) (a : α) : OrderedSet α :=
  if a ∈ s.toList then s else ⟨s.toList ++ [a]⟩

def erase (s : OrderedSet α) (a : α) : OrderedSet α :=
  ⟨s.toList.filter fun x => !decide (x = a)⟩

def rename (s : OrderedSet α) (a a' : α) : OrderedSet α :=
  ⟨s.toList.map fun x => if x = a then a' else x⟩

def ofList (as : List α) : OrderedSet α := as.foldl insert {}

theorem mem_insert {s : OrderedSet α} {a x : α} :
    x ∈ (s.insert a).toList ↔ x ∈ s.toList ∨ x = a := by
  unfold insert
  split
  · next h => exact ⟨Or.inl, fun hx => hx.elim id fun e => e ▸ h⟩
  · simp

theorem mem_erase {s : OrderedSet α} {a x : α} :
    x ∈ (s.erase a).toList ↔ x ∈ s.toList ∧ x ≠ a := by
  simp [erase]

theorem nodup_insert {s : OrderedSet α} (a : α) (h : s.toList.Nodup) :
    (s.insert a).toList.Nodup := by
  unfold insert
  split
  · exact h
  · next ha =>
    rw [List.nodup_append]
    refine ⟨h, by simp, ?_⟩
    intro x hx y hy
    rw [List.mem_singleton.1 hy]
    exact fun e => ha (e ▸ hx)

theorem nodup_erase {s : OrderedSet α} (a : α) (h : s.toList.Nodup) :
    (s.erase a).toList.Nodup :=
  h.filter _

end OrderedSet

end TypeFlow
