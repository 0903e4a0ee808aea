import TypeFlow.Proofs.Families

/-!
# Records partition what is installed

After any requests, failed or not, the records are those of the nodes of the documents, each node
belongs to one document, each listed vertex is alive and has one place in the records, and a record
lists the live sites of its node and no others. No request fails because of what it finds there.
-/

set_option autoImplicit false

namespace TypeFlow

open State

namespace Machine

variable {m : Machine} {born : VertexId → List Ty} {n n' : NodeId} {r r' : NodeRecord}
  {v : VertexId}

theorem Owned.count_listed (h : m.Owned born) (hr : m.engine.record? n = some r)
    (hv : v ∈ r.vertices) : r.vertices.count v = 1 := by
  have hone := h.listed_le v
  have hrecord := listed_erase n (v := v) hr
  have hmem := List.count_pos_iff.2 hv
  rw [if_pos (h.alive_of_listed hr hv)] at hone
  omega

theorem Owned.listed_once (h : m.Owned born) (hr : m.engine.record? n = some r)
    (hr' : m.engine.record? n' = some r') (hv : v ∈ r.vertices) (hv' : v ∈ r'.vertices) :
    n' = n := by
  by_contra hne
  have hone := h.listed_le v
  have hrecord := listed_erase n (v := v) hr
  have hother : (m.engine.nodes.erase n).get? n' = some r' := by
    rw [OrderedMap.get?_erase, if_neg (Ne.symm hne)]
    exact hr'
  have hrecord' := listed_erase n' (v := v) hother
  have hmem := List.count_pos_iff.2 hv
  have hmem' := List.count_pos_iff.2 hv'
  rw [if_pos (h.alive_of_listed hr hv)] at hone
  omega

end Machine

namespace Workspace

variable {w : Workspace} {log : List Event}

theorem Fits.path_unique (h : w.Fits log) {path path' : String} {doc doc' : Document} {n : NodeId}
    (hdoc : w.document? path = some doc) (hdoc' : w.document? path' = some doc')
    (hn : n ∈ doc.tree.ids) (hn' : n ∈ doc'.tree.ids) : path' = path := by
  by_contra hne
  have hnodup := (nodesOf_perm h.paths path).nodup_iff.1 h.nodup
  rw [nodesAt_of_some hdoc] at hnodup
  have hother : (w.documents.erase path).get? path' = some doc' := by
    rw [OrderedMap.get?_erase, if_neg (Ne.symm hne)]
    exact hdoc'
  have hmem : n ∈ nodesOf (w.documents.erase path) :=
    List.mem_flatMap.2 ⟨doc', OrderedMap.mem_values_of_get? hother, hn'⟩
  exact (List.nodup_append.1 hnodup).2.2 n hn n hmem rfl

end Workspace

/-- After every sequence of requests, failed or not, the records partition what is installed: they
are those of the nodes of the documents, no vertex has two places in them, and a site is listed
by the record of its node alone. No request finds anything left of a tree it replaced, nor a body
without a vertex for a parameter. The counter of nodes is a word of 32 bits: while it has not run
over, every node in use has an identifier of its own in it. -/
theorem records_partition (config : Config) (rs : List Request)
    (hroom : (Workspace.serve config rs).engine.nextNode < 2 ^ 32) :
    let w := Workspace.serve config rs
    let e := w.engine
    (e.nodes.keys.Perm (w.documents.values.flatMap fun doc => doc.tree.walk.map Node.id) ∧
      e.nodes.keys.Nodup ∧ ∀ n ∈ e.nodes.keys, n.index < 2 ^ 32) ∧
    (∀ path path' doc doc' n, w.document? path = some doc → w.document? path' = some doc' →
      n ∈ doc.tree.walk.map Node.id → n ∈ doc'.tree.walk.map Node.id → path' = path) ∧
    (∀ n r v, e.record? n = some r → v ∈ r.vertices →
      (e.vertex v).alive = true ∧ r.vertices.count v = 1 ∧
        ∀ n' r', e.record? n' = some r' → v ∈ r'.vertices → n' = n) ∧
    (∀ s n, (∃ r, e.record? n = some r ∧ s ∈ r.sites.toList) ↔
      ∃ x, e.site? s = some x ∧ x.destroyed = false ∧ x.node = n) ∧
    ∀ (r : Request) f w', r.handle w = .error f w' → w'.engine.nextNode < 2 ^ 32 →
      (∀ path vertices sites, f ≠ .danglingReuse path vertices sites) ∧
        ∀ method param, f ≠ .malformedFormals method param := by
  intro w e
  obtain ⟨log, hmoves, hfits⟩ := Workspace.moves_serve config rs
  have hkept := (Boot.kept_boot config).moves hmoves
  have hhomes := (hkept.homed _ hfits.called).homes
  obtain ⟨born, howned⟩ := hkept.owned
  refine ⟨⟨hfits.keys_perm hkept, hkept.keysDistinct.records, fun n hn => ?_⟩,
    fun path path' doc doc' n => hfits.path_unique, fun n r v hr hv => ?_,
    fun s n => ⟨hhomes.listed n s, fun hlive => ?_⟩, fun r f w' hfault _ => ?_⟩
  · exact (Workspace.index_lt_nextNode config List.prefix_rfl hn).trans hroom
  · exact ⟨howned.alive_of_listed hr hv, howned.count_listed hr hv,
      fun n' r' hr' hv' => howned.listed_once hr hr' hv hv'⟩
  · exact (hhomes.sites s n hlive).resolve_right fun ⟨_, hlifted, _⟩ => by cases hlifted
  · have hdone := r.drives_handle w log hkept.sound
    rw [hfault] at hdone
    obtain ⟨_, _, hfails⟩ := hdone
    have hf := hfails.plain hkept hfits
    constructor
    · rintro path vertices sites rfl
      exact hf
    · rintro method param rfl
      exact hf

/-- A slot has gone from the document that was removed to one that stays. -/
theorem records_partition_shared :
    (Workspace.serve {} sharingSlot).documents.keys = ["a", "c", "d"] ∧
      (Workspace.serve {} sharingSlot).engine.nextNode < 2 ^ 32 ∧
      (Workspace.serve {} sharingSlot).engine.nodes.keys.Nodup ∧
      ∀ n ∈ (Workspace.serve {} sharingSlot).engine.nodes.keys, n.index < 2 ^ 32 := by
  obtain ⟨hdocuments, hroom⟩ :
      (Workspace.serve {} sharingSlot).documents.keys = ["a", "c", "d"] ∧
        (Workspace.serve {} sharingSlot).engine.nextNode < 2 ^ 32 := by
    simp only [Workspace.serve_eq]
    decide +kernel
  exact ⟨hdocuments, hroom, (records_partition {} sharingSlot hroom).1.2⟩

end TypeFlow
