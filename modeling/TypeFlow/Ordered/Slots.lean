/-!
# Slot stores

Values live in numbered slots. A slot that is given up is *released* first and only becomes *free*
when a sweep accepts it; allocation takes the slot freed last, or opens a new one. Slot numbers are
stable, so they can be handed out as identities.
-/

set_option autoImplicit false

namespace TypeFlow

structure Slots (α : Type) where
  slots : Array α := #[]
  /-- Slots given up, in the order in which they were. -/
  released : List Nat := []
  /-- Slots to be handed out again, the next one first. -/
  free : List Nat := []
  deriving Repr, Inhabited

namespace Slots

variable {α : Type}

def size (s : Slots α) : Nat := s.slots.size

def get? (s : Slots α) (i : Nat) : Option α := s.slots[i]?

def modify (s : Slots α) (i : Nat) (f : α → α) : Slots α :=
  { s with slots := s.slots.modify i f }

def set (s : Slots α) (i : Nat) (a : α) : Slots α := s.modify i fun _ => a

def alloc (s : Slots α) (a : α) : Nat × Slots α :=
  match s.free with
  | i :: rest => (i, { s with slots := s.slots.modify i fun _ => a, free := rest })
  | [] => (s.slots.size, { s with slots := s.slots.push a })

def release (s : Slots α) (i : Nat) : Slots α := { s with released := s.released ++ [i] }

def sweep (s : Slots α) (reusable : α → Bool) : Nat × Slots α :=
  let accepted := fun i => (s.get? i).any reusable
  let freed := s.released.filter accepted
  (freed.length, { s with
    released := s.released.filter fun i => !accepted i
    free := freed.reverse ++ s.free })

@[simp] theorem size_modify (s : Slots α) (i : Nat) (f : α → α) : (s.modify i f).size = s.size := by
  simp [size, modify]

theorem get?_modify (s : Slots α) (i j : Nat) (f : α → α) :
    (s.modify i f).get? j = if i = j then (s.get? j).map f else s.get? j := by
  simp [get?, modify, Array.getElem?_modify]

@[simp] theorem get?_release (s : Slots α) (i j : Nat) : (s.release i).get? j = s.get? j := rfl

@[simp] theorem get?_sweep (s : Slots α) (p : α → Bool) (j : Nat) :
    (s.sweep p).2.get? j = s.get? j := rfl

/-- Without free slots a value goes behind all others. -/
theorem alloc_of_free_nil {s : Slots α} (h : s.free = []) (a : α) :
    s.alloc a = (s.size, { s with slots := s.slots.push a }) := by
  simp [alloc, h, size]

end Slots

end TypeFlow
