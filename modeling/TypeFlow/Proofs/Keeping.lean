import TypeFlow.Proofs.Releases
import TypeFlow.Proofs.Succession
import TypeFlow.Workspace.Documents

/-!
# States in order

What every state reached from the start satisfies: it is sound, each vertex has one place
at most, and if the events of its log come in a sensible order, everything is where its record says.
Once the records of a tree are gone, nothing is left of what they listed.
-/

set_option autoImplicit false

namespace TypeFlow

namespace Engine

theorem nextNode_renameOwned (e : Engine) (record : NodeRecord) (old new : NodeId)
    (rename : NodeId → NodeId) : (e.renameOwned record old new rename).nextNode = e.nextNode := by
  rw [(stock_renameOwned e record old new rename).nextNode]
  obtain ⟨slots, hslots⟩ := foldl_modifySite_eq (Site.relabel new rename) record.sites.toList e
  rw [hslots]
  cases record.block <;> rfl

theorem nextNode_adoptNode (e : Engine) (path : String) (rename : NodeId → NodeId) (new : Node)
    (old : NodeId) : (e.adoptNode path rename new old).nextNode = e.nextNode := by
  cases hr : e.record? old with
  | none =>
    unfold adoptNode
    rw [hr]
  | some record =>
    obtain ⟨record', -, he⟩ := adoptNode_eq hr path rename new
    rw [he]
    exact nextNode_renameOwned _ record old new.id rename

end Engine

namespace State

variable {s s' : State}

theorem Move.nextNode_le (hm : Move s s') : s.engine.nextNode ≤ s'.engine.nextNode := by
  cases hm with
  | aside hq => exact hq.nextNode
  | @sweep e d ho =>
    show e.nextNode ≤ e.reclaim.2.nextNode
    unfold Engine.reclaim
    split <;> exact Nat.le_refl _
  | define hn hk => exact Nat.le_of_eq (Engine.SameStock.enter _ _ _).nextNode.symm
  | adopt path rename new old hl => exact Nat.le_of_eq (Engine.nextNode_adoptNode ..).symm
  | unregister hl hr => exact Nat.le_of_eq (Engine.SameStock.unregister _ _ _).nextNode.symm
  | @removeBlock e d n r hl =>
    rw [(Engine.exists_removeBlock_eq e r.block).choose_spec]
  | buryLifted | bury => exact Nat.le_of_eq (Engine.SameStock.adoptGraph _ _).nextNode.symm
  | @beginDestroy e ts d s x hx hlive hs =>
    exact Nat.le_of_eq (Engine.SameStock.unpost s (e.markDestroyed s x) x.rule).nextNode.symm
  | @installEdges e ts d t =>
    exact Nat.le_of_eq (Engine.SameStock.installEdges ⟨e, t.effects⟩).nextNode.symm
  | @placeSite e ts d t ask ha hk =>
    exact Nat.le_of_eq
      ((Engine.SameStock.post (e.enterSite ask.2.1 ask.2.2).2 _ _).schedule [_]).nextNode.symm
  | _ => exact Nat.le_refl _

theorem Moves.nextNode_le (hm : Moves s s') : s.engine.nextNode ≤ s'.engine.nextNode := by
  induction hm with
  | refl => exact Nat.le_refl _
  | tail _ hlast ih => exact ih.trans hlast.nextNode_le

structure Kept (s : State) : Prop where
  sound : s.Sound
  keysDistinct : s.machine.KeysDistinct
  owned : ∃ born, s.machine.Owned born
  homed : ∀ r, Roll.call s.progress.log = some r → Homed r s

theorem Kept.move (h : s.Kept) (hm : Move s s') : s'.Kept := by
  obtain ⟨born, howned⟩ := h.owned
  obtain ⟨hkeysDistinct, howned⟩ := howned.steps h.keysDistinct (hm.steps h.sound.machine)
  exact ⟨h.sound.move hm, hkeysDistinct, howned, fun r hr => Homed.move h.homed h.sound hm hr⟩

theorem Kept.moves (h : s.Kept) (hm : Moves s s') : s'.Kept := by
  induction hm with
  | refl => exact h
  | tail _ hlast ih => exact ih.move hlast

end State

end TypeFlow
