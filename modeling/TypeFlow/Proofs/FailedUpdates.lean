import TypeFlow.Proofs.Evaluation

/-!
# Documents after a failed update

A failed update leaves all other documents as they were, and creates none. If the new version cannot
be installed, the document is as before, or dropped if it cannot be restored either. If it fails
only when the old version is torn down, the new version is there already and stays.
-/

set_option autoImplicit false

namespace TypeFlow

namespace Workspace

variable {w : Workspace} {path : String}
variable {f : Fault} {w' : Workspace}

/-- The fault that a request ends in. -/
def fault? (w : Workspace) (r : Request) : Option Fault :=
  match r.handle w with
  | .ok _ _ => none
  | .error f _ => some f

theorem fault?_eq (w : Workspace) (r : Request) : w.fault? r =
    match r.handleBy Node.parseBytes? w with
    | .ok _ _ => none
    | .error f _ => some f := by
  rw [fault?, r.handle_eq]

theorem onEngine_error {α : Type} {m : EngineM α}
    (h : onEngine m w = .error f w') : ∃ e, m w.engine = .error f e ∧ w' = { w with engine := e } :=
      by
  unfold onEngine at h
  cases hm : m w.engine with
  | ok a e =>
    rw [hm] at h
    cases h
  | error f e =>
    rw [hm] at h
    obtain ⟨rfl, rfl⟩ := h
    exact ⟨e, rfl, rfl⟩

theorem documents_tryInstall (path : String) (tree : Node) (w : Workspace) :
    match tryInstall path tree w with
    | .ok _ w' => w'.documents = w.documents
    | .error _ w' => w'.documents = w.documents := by
  have honEngine : ∀ m : EngineM Unit, match onEngine m w with
      | .ok _ w' => w'.documents = w.documents
      | .error _ w' => w'.documents = w.documents := fun m => by
    unfold onEngine
    cases m w.engine <;> rfl
  exact honEngine _

theorem replace_error {before : Option Node} {e e' : Engine}
    (h : (do
      match before with
      | some tree => Engine.replaceTree path tree
      | none => pure ()
      modify fun e => e.reclaim.2 : EngineM Unit) e = .error f e') :
    ∃ tree e', before = some tree ∧ Engine.replaceTree path tree e = .error f e' := by
  cases before with
  | none => cases h
  | some tree =>
    change EStateM.bind _ _ _ = _ at h
    unfold EStateM.bind at h
    cases hr : Engine.replaceTree path tree e with
    | ok _ e1 =>
      rw [hr] at h
      cases h
    | error f1 e1 =>
      rw [hr] at h
      obtain ⟨rfl, rfl⟩ := h
      exact ⟨tree, _, rfl, hr⟩

theorem document?_rollBack (failed : Node) (q : String) :
    (w.rollBack path failed).document? q = if path = q then
      (if (Engine.attempt (Engine.restore path failed (w.document? path)) w.engine).1 then
        w.document? path else none) else w.document? q := by
  unfold rollBack
  cases hdoc : w.document? path with
  | none =>
    show (w.documents.erase path).get? q = _
    rw [OrderedMap.get?_erase]
    split
    · next hq =>
      subst hq
      split <;> rfl
    · rfl
  | some doc =>
    dsimp only
    split
    · show ((w.documents.erase path).insert path doc).get? q = _
      rw [OrderedMap.get?_insert, OrderedMap.get?_erase]
      split <;> rfl
    · show (w.documents.erase path).get? q = _
      rw [OrderedMap.get?_erase]
      rfl

theorem documents_rollBack_of_none (failed : Node) (h : w.document? path = none) :
    (w.rollBack path failed).documents = w.documents := by
  unfold rollBack
  rw [h]
  exact OrderedMap.erase_of_get?_eq_none h

def Leaves (w : Workspace) (path : String) (version : Nat) (tree : Node) (f : Fault)
    (w' : Workspace) : Prop :=
  match tryInstall path (w.numberTree tree).1 (w.numberTree tree).2 with
  | .error f1 w1 => f = f1 ∧ w'.document? path =
      if (Engine.attempt (Engine.restore path (w.numberTree tree).1 (w.document? path))
        w1.engine).1 then w.document? path else none
  | .ok _ w1 => ∃ before e, w.document? path = some before ∧
      Engine.replaceTree path before.tree w1.engine = .error f e ∧
      w'.document? path = some { version, tree := (w.numberTree tree).1 }

theorem updateTree_error {version : Nat} {tree : Node}
    (h : updateTree path version tree w = .error f w') :
    (∀ q, q ≠ path → w'.document? q = w.document? q) ∧
      (w.document? path = none → w'.documents = w.documents) ∧
      w.Leaves path version tree f w' := by
  have hdocs := documents_tryInstall path (w.numberTree tree).1 (w.numberTree tree).2
  revert h hdocs
  unfold Leaves updateTree
  dsimp only
  cases tryInstall path (w.numberTree tree).1 (w.numberTree tree).2 with
  | error f1 w1 =>
    intro h hdocs
    obtain ⟨rfl, rfl⟩ := h
    have hdoc : ∀ q, w1.document? q = w.document? q := fun q => congrArg (·.get? q) hdocs
    refine ⟨fun q hq => ?_, fun hnone => ?_, rfl, ?_⟩
    · rw [document?_rollBack, if_neg (Ne.symm hq), hdoc]
    · rw [documents_rollBack_of_none _ ((hdoc path).trans hnone)]
      exact hdocs
    · rw [document?_rollBack, if_pos rfl, hdoc]
  | ok _ w1 =>
    intro h hdocs
    have hdoc : ∀ q, w1.document? q = w.document? q := fun q => congrArg (·.get? q) hdocs
    obtain ⟨e, hfault, rfl⟩ := onEngine_error h
    obtain ⟨before, e', hbefore, hfails⟩ := replace_error hfault
    obtain ⟨doc, hold, rfl⟩ := Option.map_eq_some_iff.1 hbefore
    rw [hdoc] at hold
    have hinserted : ∀ q, (w1.documents.insert path
        { version, tree := (w.numberTree tree).1 }).get? q =
        if path = q then some { version, tree := (w.numberTree tree).1 } else w1.document? q :=
      fun q => OrderedMap.get?_insert ..
    refine ⟨fun q hq => ?_, fun hnone => ?_, doc, e', hold, hfails, ?_⟩
    · exact (hinserted q).trans (by rw [if_neg (Ne.symm hq), hdoc])
    · cases hold.symm.trans hnone
    · exact (hinserted path).trans (if_pos rfl)

end Workspace

/-- A failed update changes no other document and creates none. A source that is no tree changes
nothing at all; otherwise the document at the path is as before, is dropped if it could not be
restored, or is the new version if only tearing the old one down failed. -/
theorem failed_update_documents (w : Workspace) (path : String) (version : Option Nat)
    (source : String) (f : Fault) (h : w.fault? (.update path version source) = some f) :
    let w' := w.after (.update path version source)
    (∀ q, q ≠ path → w'.document? q = w.document? q) ∧
    (w.document? path = none → w'.documents = w.documents) ∧
    (Node.parse? source = none → w' = w) ∧
    ∀ tree, Node.parse? source = some tree →
      w.Leaves path (version.getD (w.nextVersion path)) tree f w' := by
  intro w'
  have hupdate : Request.handle (.update path version source) w = match Node.parse? source with
      | some tree => Workspace.updateTree path
        (version.getD (w.nextVersion path)) tree w
      | none => .error (.parse path) w := by
    show Workspace.update path version source w = _
    unfold Workspace.update
    cases Node.parse? source <;> rfl
  have hfault : Request.handle (.update path version source) w = .error f w' := by
    revert h
    unfold w' Workspace.fault? Workspace.after
    cases Request.handle (.update path version source) w with
    | ok _ w1 => exact fun h => by cases h
    | error f1 w1 =>
      intro h
      rw [Option.some.inj h]
  rw [hupdate] at hfault
  cases hparse : Node.parse? source with
  | none =>
    rw [hparse] at hfault
    have hsame : w' = w := (EStateM.Result.error.inj hfault).2.symm
    rw [hsame]
    exact ⟨fun _ _ => rfl, fun _ => rfl, fun _ => rfl, fun _ ht => by cases ht⟩
  | some tree =>
    rw [hparse] at hfault
    obtain ⟨hothers, hnone, hleaves⟩ := Workspace.updateTree_error hfault
    refine ⟨hothers, hnone, fun hp => (by cases hp), fun tree' ht => ?_⟩
    cases ht
    exact hleaves

section Readers

def definingX : Request :=
  .update "a" none ("\x7b\"type\":\"program\",\"body\":[\x7b\"type\":\"const_write\"," ++
    "\"name\":\"X\",\"value\":\x7b\"type\":\"int\",\"value\":1\x7d\x7d]\x7d")

def readingX (path : String) : Request :=
  .update path none ("\x7b\"type\":\"program\",\"body\":[\x7b\"type\":\"const\"," ++
    "\"name\":\"X\"\x7d]\x7d")

/-- The document that defined `X` becomes empty. -/
def emptied : Request := .update "a" none "\x7b\"type\":\"program\",\"body\":[]\x7d"

/-- Two documents that read a constant may run one site at most when its definition goes. -/
def oneRun : Workspace :=
  Workspace.serve { fuel := some 1 } [definingX, readingX "b", readingX "c"]

/-- The document keeps its definition and reads two constants that nothing defines. -/
def readingMore : Request :=
  .update "a" none ("\x7b\"type\":\"program\",\"body\":[\x7b\"type\":\"const_write\"," ++
    "\"name\":\"X\",\"value\":\x7b\"type\":\"int\",\"value\":1\x7d\x7d," ++
    "\x7b\"type\":\"const\",\"name\":\"Y\"\x7d,\x7b\"type\":\"const\"," ++
    "\"name\":\"Z\"\x7d]\x7d")

/-- Both updates fail. After the first the new version is there; after the second the version
before cannot be restored either, and the document is gone. -/
theorem failed_update_not_atomic :
    oneRun.version? "a" = some 0 ∧
      (oneRun.fault? emptied = some (.fuelExhausted 1) ∧
        (oneRun.after emptied).version? "a" = some 1) ∧
      oneRun.fault? readingMore = some (.fuelExhausted 1) ∧
        (oneRun.after readingMore).version? "a" = none := by
  rw [Workspace.fault?_eq, Workspace.fault?_eq, Workspace.after_eq, Workspace.after_eq, oneRun,
    Workspace.serve_eq]
  decide +kernel

theorem failed_update_documents_oneRun :
    oneRun.fault? emptied = some (.fuelExhausted 1) ∧
      (oneRun.after emptied).document? "b" = oneRun.document? "b" ∧
      (oneRun.after emptied).document? "c" = oneRun.document? "c" := by
  have hfault : oneRun.fault? emptied = some (.fuelExhausted 1) := by
    rw [Workspace.fault?_eq, oneRun, Workspace.serve_eq]
    decide +kernel
  obtain ⟨hothers, -⟩ := failed_update_documents oneRun "a" none _ _ hfault
  exact ⟨hfault, hothers "b" (by decide), hothers "c" (by decide)⟩

end Readers

end TypeFlow
