import TypeFlow.Ident
import TypeFlow.Ordered.Set

/-!
# The queue of runs

Sites wait in the order in which they were scheduled. Who waits is kept in a set beside the queue,
and a site that is in the set is not queued again.
-/

set_option autoImplicit false

namespace TypeFlow

structure RunQueue where
  toList : List SiteId
  queued : OrderedSet SiteId
  nodup : toList.Nodup
  agree : ∀ s, s ∈ queued.toList ↔ s ∈ toList
  deriving DecidableEq

namespace RunQueue

def empty : RunQueue := ⟨[], {}, List.nodup_nil, fun _ => Iff.rfl⟩

def isEmpty (q : RunQueue) : Bool := q.toList.isEmpty

def size (q : RunQueue) : Nat := q.toList.length

def contains (q : RunQueue) (s : SiteId) : Bool := q.queued.contains s

def insert (q : RunQueue) (s : SiteId) : RunQueue :=
  if h : q.queued.contains s = true then q
  else
    have hs : s ∉ q.toList := fun hs => h (decide_eq_true ((q.agree s).2 hs))
    { toList := q.toList ++ [s]
      queued := q.queued.insert s
      nodup := by
        refine List.nodup_append.2 ⟨q.nodup, by simp, fun x hx y hy => ?_⟩
        exact fun he => hs (List.mem_singleton.1 hy ▸ he ▸ hx)
      agree := fun x => by rw [OrderedSet.mem_insert, q.agree x]; simp }

def pop (q : RunQueue) : RunQueue where
  toList := q.toList.tail
  queued := q.toList.head?.elim q.queued q.queued.erase
  nodup := q.nodup.tail
  agree := fun x => by
    obtain ⟨list, queued, hnodup, hagree⟩ := q
    cases list with
    | nil => exact hagree x
    | cons s rest =>
      have hs := (List.nodup_cons.1 hnodup).1
      rw [show (s :: rest).head?.elim queued queued.erase = queued.erase s from rfl,
        OrderedSet.mem_erase, hagree, List.mem_cons]
      exact ⟨fun ⟨h, hne⟩ => h.resolve_left hne, fun h => ⟨.inr h, fun he => hs (he ▸ h)⟩⟩

def skip (q : RunQueue) (dead : SiteId → Bool) : RunQueue :=
  (q.toList.takeWhile dead).foldl (fun q _ => q.pop) q

theorem toList_insert (q : RunQueue) (s : SiteId) :
    (q.insert s).toList = (OrderedSet.insert ⟨q.toList⟩ s).toList := by
  unfold insert OrderedSet.insert OrderedSet.contains
  simp only [decide_eq_true_eq, q.agree s]
  split <;> rfl

theorem mem_insert {q : RunQueue} {s x : SiteId} :
    x ∈ (q.insert s).toList ↔ x ∈ q.toList ∨ x = s := by
  rw [toList_insert]
  exact OrderedSet.mem_insert

theorem prefix_insert (q : RunQueue) (s : SiteId) : q.toList <+: (q.insert s).toList := by
  rw [toList_insert]
  unfold OrderedSet.insert
  split
  · exact List.prefix_rfl
  · exact List.prefix_append _ _

theorem eq_empty {q : RunQueue} (h : q.toList = []) : q = .empty := by
  obtain ⟨list, ⟨queued⟩, hnodup, hagree⟩ := q
  obtain rfl : list = [] := h
  obtain rfl : queued = [] := List.eq_nil_iff_forall_not_mem.2 fun s hs => by
    cases (hagree s).1 hs
  rfl

theorem toList_skip (q : RunQueue) (dead : SiteId → Bool) :
    (q.skip dead).toList = q.toList.dropWhile dead := by
  have hpop : ∀ (gone : List SiteId) (q : RunQueue),
      (gone.foldl (fun q _ => q.pop) q).toList = q.toList.drop gone.length := by
    intro gone
    induction gone with
    | nil => exact fun _ => rfl
    | cons s gone ih =>
      intro q
      rw [List.foldl_cons, ih]
      exact List.drop_tail ..
  unfold skip
  rw [hpop]
  conv => lhs; arg 2; rw [← List.takeWhile_append_dropWhile (p := dead) (l := q.toList)]
  exact List.drop_left

end RunQueue

end TypeFlow
