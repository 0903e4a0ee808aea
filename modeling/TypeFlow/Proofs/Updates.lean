import TypeFlow.Proofs.Documents
import TypeFlow.Proofs.Keeping

/-!
# Updates and removals

The records of a workspace are those of the nodes of its documents. Updates and removals keep it so,
whether they succeed or fail: a version that failed is torn down, and the one before it either comes
back or is dropped together with its records. So an update never finds anything left of the version
that it replaced.
-/

set_option autoImplicit false

namespace TypeFlow

open State

def Fault.Plain : Fault → Prop
  | .parse _ | .unknownDocument _ | .endlessMatch | .fuelExhausted _ => True
  | .missingReverseIndex .. | .malformedFormals .. | .danglingReuse .. => False

theorem Engine.Stuck.plain {log log' : List Event} {f : Fault} (h : Engine.Stuck log f log') :
    f.Plain := by
  cases h <;> trivial

theorem State.Kept.not_survives {e e' : Engine} {log : List Event} {tree : Node} {r : Roll}
    (h : (e.rest log).Kept) (hr : Roll.call log = some r)
    (hm : Moves (e.rest log) (e'.rest (log ++ tree.drops))) : ¬e.Survives e' tree := by
  have hgentle : ∀ es, log ++ tree.drops = log ++ es → ∀ ev ∈ es, ev.Gentle := by
    intro es hes ev hev
    rw [← List.append_cancel_left hes] at hev
    obtain ⟨n, -, rfl⟩ := List.mem_map.1 hev
    trivial
  have hhomed := (h.moves hm).homed _ (Roll.call_drops hr tree)
  have hgone : ∀ n ∈ tree.walk, n.id ∉ r.keys \ tree.ids.toFinset := fun n hn hmem =>
    (Finset.mem_sdiff.1 hmem).2 (List.mem_toFinset.2 (List.mem_map_of_mem hn))
  obtain ⟨born, howned⟩ := h.owned
  rintro (⟨v, hv, halive⟩ | ⟨t, ht, hlive⟩)
  · obtain ⟨x, hx, hv⟩ := List.mem_flatMap.1 hv
    obtain ⟨n, hn, hx⟩ := List.mem_filterMap.1 hx
    have hnone : e'.record? n.id = none := by
      by_contra hsome
      obtain ⟨y, hy⟩ := Option.ne_none_iff_exists'.1 hsome
      exact hgone n hn ((hhomed.keys n.id).2 ⟨y, hy⟩)
    have hdead := hm.dead_of_listed h.sound h.keysDistinct howned hgentle hx hv hnone rfl
    exact Bool.false_ne_true (hdead.symm.trans halive)
  · obtain ⟨x, hx, ht⟩ := List.mem_flatMap.1 ht
    obtain ⟨n, hn, hx⟩ := List.mem_filterMap.1 hx
    have hdead := hm.not_live_of_listed h.sound (h.homed r hr) hhomed hgentle ⟨x, hx, ht⟩
      (hgone n hn) rfl
    exact Bool.false_ne_true (hdead.symm.trans hlive)

namespace Workspace

def nodesOf (docs : OrderedMap String Document) : List NodeId :=
  docs.values.flatMap fun doc => doc.tree.ids

def nodesAt (docs : OrderedMap String Document) (path : String) : List NodeId :=
  (docs.get? path).elim [] fun doc => doc.tree.ids

section Nodes

variable {docs : OrderedMap String Document} {path : String} {doc : Document}

theorem nodesAt_of_some (h : docs.get? path = some doc) : nodesAt docs path = doc.tree.ids := by
  unfold nodesAt
  rw [h]
  rfl

theorem nodesOf_insert (hn : docs.keys.Nodup) (path : String) (doc : Document) :
    (nodesOf (docs.insert path doc)).Perm (doc.tree.ids ++ nodesOf (docs.erase path)) :=
  ((OrderedMap.entries_insert_perm path doc hn).map Prod.snd).flatMap_right _

theorem nodesOf_perm (hn : docs.keys.Nodup) (path : String) :
    (nodesOf docs).Perm (nodesAt docs path ++ nodesOf (docs.erase path)) := by
  cases hdoc : docs.get? path with
  | none =>
    unfold nodesAt
    rw [hdoc, OrderedMap.erase_of_get?_eq_none hdoc]
    exact .refl _
  | some doc =>
    rw [nodesAt_of_some hdoc]
    exact ((OrderedMap.entries_perm hn hdoc).map Prod.snd).flatMap_right _

end Nodes

/-- The records are those of the nodes of the documents. -/
structure Fits (w : Workspace) (log : List Event) : Prop where
  paths : w.documents.keys.Nodup
  nodup : (nodesOf w.documents).Nodup
  dated : ∀ i ∈ nodesOf w.documents, i.index < w.engine.nextNode
  called : Roll.call log = some { keys := (nodesOf w.documents).toFinset }

variable {w w' : Workspace} {log log' : List Event} {path : String} {tree : Node}

theorem Fits.of_perm {ids : List NodeId} (hpaths : w.documents.keys.Nodup)
    (hperm : (nodesOf w.documents).Perm ids) (hnodup : ids.Nodup)
    (hdated : ∀ i ∈ ids, i.index < w.engine.nextNode)
    (hcalled : Roll.call log = some { keys := ids.toFinset }) : w.Fits log := by
  refine ⟨hpaths, hperm.nodup_iff.2 hnodup, fun i hi => hdated i (hperm.mem_iff.1 hi), ?_⟩
  rw [hcalled, List.toFinset_eq_of_perm _ _ hperm]

structure Fresh (w : Workspace) (tree : Node) : Prop where
  nodup : tree.ids.Nodup
  dated : ∀ i ∈ tree.ids, i.index < w.engine.nextNode
  unused : ∀ i ∈ tree.ids, i ∉ nodesOf w.documents

theorem Fits.numberTree (h : w.Fits log) (tree : Node) : (w.numberTree tree).2.Fits log ∧
    (w.numberTree tree).2.Fresh (w.numberTree tree).1 := by
  have hle := (Node.ids_number tree w.engine.nextNode).2
  refine ⟨⟨h.paths, h.nodup, fun i hi => (h.dated i hi).trans_le ?_, h.called⟩,
    Node.nodup_ids_number tree _, fun i hi => (Node.mem_ids_number hi).2, fun i hi hmem => ?_⟩
  · exact (Nat.le_add_right _ _).trans_eq hle.symm
  · exact absurd (h.dated i hmem) (Nat.not_lt.2 (Node.mem_ids_number hi).1)

theorem steady_reuse (w : Workspace) (path : String) (tree : Node) :
    Node.Steady (w.reuse path tree) [tree] (w.tree? path).toList := by
  unfold Workspace.reuse
  split
  · cases w.tree? path with
    | none => exact .nil _ _
    | some before => exact Node.steady_pairing tree before
  · exact .nil _ _

theorem nodesAt_eq (w : Workspace) (path : String) :
    nodesAt w.documents path = Node.idsAll (w.tree? path).toList := by
  unfold nodesAt Workspace.tree? Workspace.document? Node.idsAll
  cases w.documents.get? path <;> simp

/-- An installation takes records of the version before over, and starts others. -/
theorem Fits.events (h : w.Fits log) (hfresh : w.Fresh tree) (path : String) :
    ∃ taken Y, taken ⊆ (nodesAt w.documents path).toFinset ∧
      Roll.call (log ++ tree.events (w.reuse path tree)) =
        some ⟨((nodesOf w.documents).toFinset \ taken) ∪ tree.ids.toFinset, Y⟩ := by
  have hperm := nodesOf_perm h.paths path
  have hnodup := (List.nodup_append.1 (hperm.nodup_iff.1 h.nodup)).1
  have hnodes := nodesAt_eq w path
  have hsteady := steady_reuse w path tree
  rw [hnodes] at hnodup
  obtain ⟨Y, hY⟩ := Roll.call_events h.called hsteady hfresh.nodup
    (fun i hi => by simpa using hfresh.unused i hi) hnodup fun i hi => by
      rw [List.mem_toFinset, hperm.mem_iff, hnodes]
      exact List.mem_append_left _ hi
  refine ⟨_, Y, fun i hi => ?_, hY⟩
  rw [List.mem_toFinset] at hi ⊢
  rw [hnodes]
  exact hsteady.old.subset hi

/-- The engine of a workspace is at rest between requests. -/
def rest (w : Workspace) (log : List Event) : State := w.engine.rest log

theorem drives_onEngine {α : Type} {m : EngineM α} {E : Fault → Workspace → List Event → Prop}
    {Q : α → Workspace → List Event → Prop}
    (hm : Drives Engine.rest (fun f e => E f { w with engine := e }) m w.engine log
      fun a e => Q a { w with engine := e }) : Drives rest E (onEngine m) w log Q := by
  intro hs
  have hdone := hm hs
  revert hdone
  unfold onEngine
  cases m w.engine with
  | ok | error => exact id

def TakenBack (w : Workspace) (path : String) (failed : Node) (log : List Event) (w' : Workspace)
    (log' : List Event) : Prop :=
  ∀ K Y, Roll.call log = some ⟨K, Y⟩ → (nodesAt w.documents path).Nodup →
    w'.documents = w.documents.erase path ∧ Roll.call log' = some
        { keys := (K \ failed.ids.toFinset) \ (nodesAt w.documents path).toFinset } ∨
      ∃ doc, w.documents.get? path = some doc ∧
        w'.documents = (w.documents.erase path).insert path doc ∧ Roll.call log' = some
          { keys := (K \ failed.ids.toFinset) ∪ (nodesAt w.documents path).toFinset }

theorem closes_rollBack (w : Workspace) (path : String) (failed : Node)
    (hs : (w.rest log).Sound) :
    ∃ log', w.engine.Closes log (w.rollBack path failed).engine log' ∧
      w.TakenBack path failed log (w.rollBack path failed) log' := by
  have hdropped := Engine.Extends.drops log failed
  have hrest : (w.engine.rest log).Sound := hs
  have hrestore := Engine.drives_restore path failed (w.document? path) hrest
  revert hrestore
  unfold rollBack Engine.attempt TakenBack
  cases hdoc : w.document? path with
  | none =>
    have hnodes : nodesAt w.documents path = [] := by
      unfold nodesAt
      rw [show w.documents.get? path = none from hdoc]
      rfl
    rw [hnodes]
    dsimp only
    cases Engine.restore path failed none w.engine with
    | ok _ e =>
      rintro ⟨_, hmoves, rfl⟩
      refine ⟨_, .sweep hdropped hmoves, fun K Y hcall _ => Or.inl ⟨rfl, ?_⟩⟩
      simpa using Roll.call_sweep (Roll.call_drops hcall failed)
    | error f e =>
      rintro ⟨_, hmoves, l, hl, hf⟩
      obtain rfl := List.mem_singleton.1 hl
      refine ⟨_, .sweep (hdropped.trans hf.extends) hmoves, fun K Y hcall _ => Or.inl ⟨rfl, ?_⟩⟩
      simpa using Roll.call_sweep (Roll.call_stuck (Roll.call_drops hcall failed) hf)
  | some doc =>
    rw [nodesAt_of_some hdoc]
    have hcleared := hdropped.trans (Engine.Extends.drops _ doc.tree)
    have hlast : ∀ K : Finset NodeId, K \ doc.tree.ids.toFinset ∪ doc.tree.ids.toFinset =
        K ∪ doc.tree.ids.toFinset := fun K => Finset.sdiff_union_self_eq_union
    have hback : ∀ {log K Y}, Roll.call log = some ⟨K, Y⟩ → doc.tree.ids.Nodup →
        ∃ Y', Roll.call (log ++ doc.tree.drops ++ doc.tree.events []) =
          some ⟨K ∪ doc.tree.ids.toFinset, Y'⟩ := fun hcall hnodup => by
      obtain ⟨Y', hY'⟩ := Roll.call_events (Roll.call_drops hcall doc.tree) (.nil [doc.tree] [])
        hnodup (fun i hi => by simp [hi]) List.nodup_nil fun i hi => absurd hi List.not_mem_nil
      exact ⟨Y', by simpa [hlast] using hY'⟩
    dsimp only
    cases Engine.restore path failed (some doc) w.engine with
    | ok _ e =>
      rintro ⟨_, hmoves, rfl⟩
      refine ⟨_, .sweep (hcleared.trans (.events _ doc.tree [])) hmoves,
        fun K Y hcall hnodup => Or.inr ⟨doc, hdoc, rfl, ?_⟩⟩
      obtain ⟨Y', hY'⟩ := hback (Roll.call_drops hcall failed) hnodup
      exact Roll.call_sweep hY'
    | error f e =>
      rintro ⟨log1, hmoves, l, hl, hf⟩
      have hdrop := Engine.drives_uninstallTree doc.tree (hrest.moves hmoves)
      revert hdrop
      dsimp only
      cases Engine.uninstallTree doc.tree e with
      | error f' e' => exact fun ⟨_, _, hf'⟩ => hf'.elim
      | ok _ e' =>
        rintro ⟨_, hmoves', rfl⟩
        have hlog : Engine.Extends log l := by
          rcases List.mem_cons.1 hl with rfl | hl
          · exact hdropped
          rcases List.mem_cons.1 hl with rfl | hl
          · exact hcleared
          · rw [List.mem_singleton.1 hl]
            exact hcleared.trans (.events _ doc.tree [])
        refine ⟨_, .sweep ((hlog.trans hf.extends).trans (.drops _ doc.tree)) (hmoves.trans
          hmoves'),
          fun K Y hcall hnodup => Or.inl ⟨rfl, ?_⟩⟩
        -- whatever of the version before had been restored is torn down
        have hleft : ∃ K' Y', Roll.call l = some ⟨K', Y'⟩ ∧
            K' \ doc.tree.ids.toFinset = (K \ failed.ids.toFinset) \ doc.tree.ids.toFinset := by
          have hdrops := Roll.call_drops hcall failed
          rcases List.mem_cons.1 hl with rfl | hl
          · exact ⟨_, _, hdrops, rfl⟩
          rcases List.mem_cons.1 hl with rfl | hl
          · exact ⟨_, _, Roll.call_drops hdrops doc.tree, Finset.sdiff_idem _ _⟩
          obtain rfl := List.mem_singleton.1 hl
          obtain ⟨Y', hY'⟩ := hback hdrops hnodup
          exact ⟨_, Y', hY', Finset.union_sdiff_right _ _⟩
        obtain ⟨K', Y', hcall', hK'⟩ := hleft
        rw [← hK']
        exact Roll.call_sweep (Roll.call_drops (Roll.call_stuck hcall' hf) doc.tree)

section Outcomes

variable {w1 : Workspace} {log1 : List Event} {taken Y : Finset NodeId} {f : Fault}

/-- Where a node can be while a new version of a document is there besides the old one. -/
theorem Fits.parts (h : w.Fits log) (hfresh : w.Fresh tree) (path : String) :
    (nodesAt w.documents path ++ nodesOf (w.documents.erase path)).Nodup ∧
      (tree.ids ++ nodesOf (w.documents.erase path)).Nodup ∧
      (∀ i, i ∈ nodesOf w.documents ↔
        i ∈ nodesAt w.documents path ∨ i ∈ nodesOf (w.documents.erase path)) ∧
      ∀ i ∈ nodesAt w.documents path, i ∉ nodesOf (w.documents.erase path) := by
  have hperm := nodesOf_perm h.paths path
  have hnodup := hperm.nodup_iff.1 h.nodup
  refine ⟨hnodup, ?_, fun i => hperm.mem_iff.trans List.mem_append,
    fun i hi hmem => (List.nodup_append.1 hnodup).2.2 i hi i hmem rfl⟩
  refine List.nodup_append.2 ⟨hfresh.nodup, (List.nodup_append.1 hnodup).2.1, ?_⟩
  rintro i hi _ hj rfl
  exact hfresh.unused i hi (hperm.mem_iff.2 (List.mem_append_right _ hj))

theorem Fits.replaced {doc : Document} (h : w.Fits log) (hfresh : w.Fresh doc.tree)
    (hle : w.engine.nextNode ≤ w'.engine.nextNode)
    (hdocs : w'.documents = w.documents.insert path doc)
    (htaken : taken ⊆ (nodesAt w.documents path).toFinset)
    (hcall : Roll.call log' = some { keys := (((nodesOf w.documents).toFinset \ taken) ∪
      doc.tree.ids.toFinset) \ (nodesAt w.documents path).toFinset }) : w'.Fits log' := by
  obtain ⟨-, hnodup, hmem, hapart⟩ := h.parts hfresh path
  refine .of_perm (hdocs ▸ OrderedMap.nodup_keys_insert path doc h.paths)
    (hdocs ▸ nodesOf_insert h.paths path doc) hnodup (fun i hi => ?_) ?_
  · refine Nat.lt_of_lt_of_le ?_ hle
    rcases List.mem_append.1 hi with hi | hi
    · exact hfresh.dated i hi
    · exact h.dated i ((hmem i).2 (Or.inr hi))
  · rw [hcall]
    congr 2
    ext i
    have hi := hfresh.unused i
    have hi' := hapart i
    have hi'' := @htaken i
    simp only [Finset.mem_sdiff, Finset.mem_union, List.mem_toFinset, List.mem_append,
      hmem] at hi hi'' ⊢
    clear * - hi hi' hi''
    tauto

theorem Fits.takenBack (h : w.Fits log) (hfresh : w.Fresh tree)
    (hle : w.engine.nextNode ≤ w'.engine.nextNode) (hdocs : w1.documents = w.documents)
    (htaken : taken ⊆ (nodesAt w.documents path).toFinset)
    (hcall : Roll.call log1 = some ⟨((nodesOf w.documents).toFinset \ taken) ∪
      tree.ids.toFinset, Y⟩)
    (hback : w1.TakenBack path tree log1 w' log') : w'.Fits log' := by
  obtain ⟨hnodup, hnodup', hmem, hapart⟩ := h.parts hfresh path
  have hpaths := OrderedMap.nodup_keys_erase path h.paths
  have hdated : ∀ i ∈ nodesOf w.documents, i.index < w'.engine.nextNode := fun i hi =>
    (h.dated i hi).trans_le hle
  have hsets : ∀ i, (i ∈ tree.ids → i ∉ nodesOf w.documents) ∧
      (i ∈ nodesAt w.documents path → i ∉ nodesOf (w.documents.erase path)) ∧
      (i ∈ taken → i ∈ nodesAt w.documents path) := fun i =>
    ⟨hfresh.unused i, hapart i, fun hi => List.mem_toFinset.1 (htaken hi)⟩
  rw [TakenBack, hdocs] at hback
  rcases hback _ _ hcall (List.nodup_append.1 hnodup).1 with ⟨hdocs', hlog'⟩ | ⟨doc, hdoc, hdocs',
    hlog'⟩
  · refine .of_perm (hdocs' ▸ hpaths) (hdocs' ▸ .refl _) (List.nodup_append.1 hnodup).2.1
      (fun i hi => hdated i ((hmem i).2 (Or.inr hi))) ?_
    rw [hlog']
    congr 2
    ext i
    have hi := hsets i
    simp only [Finset.mem_sdiff, Finset.mem_union, List.mem_toFinset, hmem] at hi ⊢
    clear * - hi
    tauto
  · have herase : (w.documents.erase path).erase path = w.documents.erase path :=
      OrderedMap.erase_of_get?_eq_none (by rw [OrderedMap.get?_erase, if_pos rfl])
    have hinsert := nodesOf_insert hpaths path doc
    rw [herase, ← nodesAt_of_some hdoc] at hinsert
    have hperm : (nodesOf w'.documents).Perm
        (nodesAt w.documents path ++ nodesOf (w.documents.erase path)) := hdocs' ▸ hinsert
    refine .of_perm (hdocs' ▸ OrderedMap.nodup_keys_insert path doc hpaths) hperm hnodup
      (fun i hi => hdated i ((hmem i).2 (List.mem_append.1 hi))) ?_
    rw [hlog']
    congr 2
    ext i
    have hi := hsets i
    simp only [Finset.mem_sdiff, Finset.mem_union, List.mem_toFinset, List.mem_append, hmem] at hi ⊢
    clear * - hi
    tauto

end Outcomes

theorem drives_tryInstall (path : String) (tree : Node) :
    Drives rest (fun f w' log' => w'.documents = w.documents ∧
        Engine.Stuck (log ++ tree.events (w.reuse path tree)) f log')
      (tryInstall path tree) w log fun _ w' log' => w'.documents = w.documents ∧
        log' = log ++ tree.events (w.reuse path tree) ∧ w'.engine.queue = .empty := by
  refine Drives.withState fun _ => drives_onEngine ?_
  refine Drives.bind (Engine.drives_installTree path _ tree).sure fun _ e1 _ _ h1 => ?_
  subst h1
  exact Drives.bind ((Engine.drives_runAllAtRest e1 _).fault fun _ _ _ _ hf => ⟨rfl, hf⟩)
    fun _ _ _ _ h2 => Drives.pure ⟨rfl, h2⟩

structure Fails (w : Workspace) (log : List Event) (f : Fault) (w' : Workspace)
    (log' : List Event) : Prop where
  fits : w.Fits log → w'.Fits log'
  closes : w.engine.Closes log w'.engine log'
  honest : f.Honest
  plain : (w.rest log).Kept → w.Fits log → f.Plain

structure Succeeds (w : Workspace) (log : List Event) (_ : Unit) (w' : Workspace)
    (log' : List Event) : Prop where
  fits : w.Fits log → w'.Fits log'
  closes : w.engine.Closes log w'.engine log'
  drained : w'.engine.queue = .empty
  whole : Event.spill ∉ log → Event.spill ∉ log'

theorem Fails.of_plain {f : Fault} (h : w.Fits log → w'.Fits log')
    (hc : w.engine.Closes log w'.engine log') (hf : f.Plain) : w.Fails log f w' log' := by
  refine ⟨h, hc, ?_, fun _ _ => hf⟩
  rintro s entity rfl
  exact hf

theorem Fails.refused {f : Fault} (hf : f.Plain) : w.Fails log f w log :=
  .of_plain id (.stay (.refl log) .refl) hf

theorem drives_installed {w1 w2 : Workspace} {log2 : List Event} (doc : Document)
    (hdocs : w2.documents = w1.documents) (hle : w1.engine.nextNode ≤ w2.engine.nextNode)
    (hq : w2.engine.queue = .empty) (hlog : log2 = log ++ doc.tree.events (w1.reuse path doc.tree)) :
    Drives rest
      (fun f w' log' => (w1.Fits log → w1.Fresh doc.tree → w'.Fits log') ∧
        w2.engine.Closes log2 w'.engine log' ∧ f.Honest ∧
        ((w2.rest log2).Kept → w1.Fits log → w1.Fresh doc.tree → f.Plain))
      (onEngine (do
        match w2.tree? path with
        | some tree => Engine.replaceTree path tree
        | none => pure ()
        modify fun e => e.reclaim.2))
      { w2 with documents := w2.documents.insert path doc } log2
      fun _ w' log' => (w1.Fits log → w1.Fresh doc.tree → w'.Fits log') ∧
        w2.engine.Closes log2 w'.engine log' ∧ w'.engine.queue = .empty ∧
        log' = log2 ++ (w2.tree? path).elim [] Node.drops ++ [.sweep] := by
  have hnodes : nodesAt w1.documents path = (w2.tree? path).elim [] Node.ids := by
    unfold nodesAt Workspace.tree? Workspace.document?
    rw [hdocs]
    cases w1.documents.get? path <;> rfl
  -- once the old nodes are gone, the nodes are those of the new documents
  have hfits : ∀ (e' : Engine) (log' : List Event), Moves (w2.rest log2) (e'.rest log') →
      (∀ K Y, Roll.call log2 = some ⟨K, Y⟩ →
        Roll.call log' = some { keys := K \ ((w2.tree? path).elim [] Node.ids).toFinset }) →
      w1.Fits log → w1.Fresh doc.tree → Fits ⟨e', w2.documents.insert path doc⟩ log' := by
    intro e' log' hm hcall hfit hfresh
    obtain ⟨taken, Y, hsub, hevents⟩ := hfit.events hfresh path
    refine hfit.replaced hfresh (hle.trans (Moves.nextNode_le hm)) (by rw [hdocs]) hsub ?_
    rw [hnodes]
    exact hcall _ _ (hlog ▸ hevents)
  refine drives_onEngine ((Engine.drives_succeed path (w2.tree? path) hq).imp ?_ |>.fault ?_)
  · rintro _ e' _ hm ⟨rfl, hq', hcloses⟩
    refine ⟨hfits e' _ hm fun K Y hcall => ?_, hcloses, hq', rfl⟩
    cases w2.tree? path with
    | none => simpa using Roll.call_sweep hcall
    | some tree => exact Roll.call_sweep (Roll.call_drops hcall tree)
  · rintro f e' log' hm ⟨tree, htree, hf⟩
    have hdrops : ∀ {K Y}, Roll.call log2 = some ⟨K, Y⟩ → Roll.call (log2 ++ tree.drops) =
        some { keys := K \ ((w2.tree? path).elim [] Node.ids).toFinset } := fun hcall => by
      rw [htree]
      exact Roll.call_drops hcall tree
    rcases hf with hstuck | hleft
    · refine ⟨hfits e' _ hm fun K Y hcall => Roll.call_stuck (hdrops hcall) hstuck,
        .stay ((Engine.Extends.drops _ tree).trans hstuck.extends) hm, ?_,
        fun _ _ _ => hstuck.plain⟩
      cases hstuck <;> exact fun _ _ => Fault.noConfusion
    · obtain ⟨⟨vertices, sites, rfl⟩, rfl, hsurvives⟩ := hleft
      refine ⟨hfits e' _ hm fun K Y hcall => hdrops hcall, .stay (.drops _ tree) hm,
        fun _ _ => Fault.noConfusion, fun hkept hfit hfresh => ?_⟩
      obtain ⟨taken, Y, -, hevents⟩ := hfit.events hfresh path
      exact absurd hsurvives (hkept.not_survives (hlog ▸ hevents) hm)

theorem drives_turnover (path : String) (version : Nat) (tree : Node) :
    Drives rest (w.Fails log) (updateTree path version tree) w log fun u w' log' =>
      w.Succeeds log u w' log' ∧ log' = log ++ (w.numberTree tree).1.turnover
        (w.reuse path (w.numberTree tree).1) (w.tree? path) := by
  intro hs
  have hnumber : Moves (w.rest log) ((w.numberTree tree).2.rest log) := by
    refine .single (.aside (.count w.engine w.engine.stats ?_ fun _ hu _ => hu))
    exact (Nat.le_add_right _ _).trans_eq (Node.ids_number tree w.engine.nextNode).2.symm
  have htry := drives_tryInstall path (w.numberTree tree).1 (hs.moves hnumber)
  revert htry
  unfold updateTree
  dsimp only
  cases tryInstall path (w.numberTree tree).1 (w.numberTree tree).2 with
  | error f w2 =>
    rintro ⟨log2, hmoves, hdocs, hstuck⟩
    obtain ⟨log', hback, htaken⟩ := closes_rollBack w2 path (w.numberTree tree).1
      ((hs.moves hnumber).moves hmoves)
    have hcloses := hback.after ((Engine.Extends.events _ _ _).trans hstuck.extends)
      (hnumber.trans hmoves)
    refine ⟨log', hcloses.moves, .of_plain (fun hf => ?_) hcloses hstuck.plain⟩
    obtain ⟨hfit, hfresh⟩ := hf.numberTree tree
    obtain ⟨taken, Y, hsub, hcall⟩ := hfit.events hfresh path
    exact hfit.takenBack hfresh (Moves.nextNode_le (hmoves.trans hback.moves)) hdocs hsub
      (Roll.call_stuck hcall hstuck) htaken
  | ok _ w2 =>
    rintro ⟨_, hmoves, hdocs, rfl, hqueue⟩
    refine Drives.after (hnumber.trans hmoves) (((drives_installed { version, tree := _ } hdocs
      (Moves.nextNode_le hmoves) hqueue rfl).imp ?_).fault ?_) hs
    · rintro _ w' _ - ⟨hfits, hcloses, hq, rfl⟩
      refine ⟨⟨fun hf => hfits (hf.numberTree tree).1 (hf.numberTree tree).2,
        hcloses.after (.events _ _ _) (hnumber.trans hmoves), hq, fun hlog => ?_⟩, ?_⟩
      swap
      · have htree : w2.tree? path = w.tree? path := by
          unfold tree? document?
          rw [hdocs]
          rfl
        rw [Node.turnover, htree, List.append_assoc, List.append_assoc]
        rfl
      have hevents : Event.spill ∉ Node.events ((w.numberTree tree).2.reuse path
          (w.numberTree tree).1) (w.numberTree tree).1 := fun h => Node.ofRecord_of_mem_events _ h
      have hdrops : Event.spill ∉ (w2.tree? path).elim [] Node.drops := by
        cases w2.tree? path with
        | none => exact List.not_mem_nil
        | some before => exact fun h => Node.ofRecord_of_mem_drops _ h
      simp [hlog, hevents, hdrops]
    · rintro f w' log' - ⟨hfits, hcloses, hhonest, hplain⟩
      exact ⟨fun hf => hfits (hf.numberTree tree).1 (hf.numberTree tree).2,
        hcloses.after (.events _ _ _) (hnumber.trans hmoves), hhonest, fun hkept hf => hplain
          (hkept.moves (hnumber.trans hmoves)) (hf.numberTree tree).1
          (hf.numberTree tree).2⟩

theorem drives_updateTree (path : String) (version : Nat) (tree : Node) :
    Drives rest (w.Fails log) (updateTree path version tree) w log (w.Succeeds log) :=
  (drives_turnover path version tree).imp fun _ _ _ _ h => h.1

theorem drives_update (path : String) (version : Option Nat) (source : String) :
    Drives rest (w.Fails log) (update path version source) w log (w.Succeeds log) := by
  refine Drives.withState fun _ => ?_
  dsimp only
  split
  · exact drives_updateTree path _ _
  · exact Drives.throw (.refused trivial)

theorem drives_remove (path : String) :
    Drives rest (w.Fails log) (remove path) w log (w.Succeeds log) := by
  refine Drives.withState fun _ => ?_
  split
  · exact Drives.throw (.refused trivial)
  · next doc hdoc =>
    -- the records of the document go, whatever comes of the runs that follow
    have hfits : ∀ (e' : Engine) (log' : List Event), w.engine.nextNode ≤ e'.nextNode →
        (∀ K Y, Roll.call log = some ⟨K, Y⟩ →
          Roll.call log' = some { keys := K \ doc.tree.ids.toFinset }) →
        w.Fits log → Fits ⟨e', w.documents.erase path⟩ log' := by
      intro e' log' hle hcall hfit
      have hperm := nodesOf_perm hfit.paths path
      have hnodup := hperm.nodup_iff.1 hfit.nodup
      rw [nodesAt_of_some hdoc] at hperm hnodup
      refine .of_perm (OrderedMap.nodup_keys_erase path hfit.paths) (.refl _)
        (List.nodup_append.1 hnodup).2.1 (fun i hi => ?_) ?_
      · exact (hfit.dated i (hperm.mem_iff.2 (List.mem_append_right _ hi))).trans_le hle
      · rw [hcall _ _ hfit.called]
        congr 2
        ext i
        have hi := (List.nodup_append.1 hnodup).2.2 i
        simp only [Finset.mem_sdiff, List.mem_toFinset, hperm.mem_iff, List.mem_append]
        grind
    refine Drives.bind (P := fun _ w' log' =>
        w' = { w with documents := w.documents.erase path } ∧ log' = log)
      (Drives.modify _ fun _ => ⟨.refl, rfl, rfl⟩) fun _ _ _ _ h => ?_
    obtain ⟨rfl, rfl⟩ := h
    refine drives_onEngine ?_
    refine Drives.bind (Engine.drives_uninstallTree doc.tree).sure fun _ e1 _ hm1 h1 => ?_
    subst h1
    refine Drives.bind ((Engine.drives_runAllAtRest e1 _).fault fun f e' log' hm hstuck => ?_)
      fun _ e2 _ hm2 h2 => ?_
    · exact .of_plain (hfits e' log' (Moves.nextNode_le (hm1.trans hm)) fun K Y hcall =>
        Roll.call_stuck (Roll.call_drops hcall doc.tree) hstuck)
        (.stay ((Engine.Extends.drops _ doc.tree).trans hstuck.extends) (hm1.trans hm)) hstuck.plain
    obtain ⟨rfl, hq⟩ := h2
    refine (Engine.drives_reclaim hq).imp fun _ e' _ hm h => ?_
    obtain ⟨rfl, hq', rfl⟩ := h
    refine ⟨hfits _ _ (Moves.nextNode_le ((hm1.trans hm2).trans hm)) fun K Y hcall =>
      Roll.call_sweep (Roll.call_drops hcall doc.tree),
      .sweep (.drops _ doc.tree) (hm1.trans hm2), hq', fun hlog => ?_⟩
    have hdrops : Event.spill ∉ doc.tree.drops := fun h => Node.ofRecord_of_mem_drops _ h
    simp [hlog, hdrops]

end Workspace

end TypeFlow
