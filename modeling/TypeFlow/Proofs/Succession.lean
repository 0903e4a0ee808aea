import TypeFlow.Proofs.Homes
import TypeFlow.Proofs.Laying

/-!
# The succession of trees

The events of an installation can be called: a new tree starts records under fresh numbers, and
takes over records that its predecessor has, each of them once. Afterwards the records are those of
the new tree and those that were not taken over.
-/

set_option autoImplicit false

namespace TypeFlow

def Event.OfRecord : Event → Prop
  | .start _ | .adopt .. | .drop _ => True
  | .sweep | .spill => False

namespace Node

variable {reuse : Pairing} {tree : Node} {olds : List Node}
variable {c : Node} {i : NodeId}

theorem mem_walk_children {n : Node} (hn : n ∈ tree.walk) (hc : c ∈ n.children) :
    c ∈ tree.walk := by
  induction tree using induct with
  | h tree ih =>
    rw [walk_eq] at hn ⊢
    rcases List.mem_cons.1 hn with rfl | hn
    · refine List.mem_cons_of_mem _ (List.mem_flatMap.2 ⟨c, hc, ?_⟩)
      rw [walk_eq]
      exact List.mem_cons_self
    · obtain ⟨m, hm, hn⟩ := List.mem_flatMap.1 hn
      exact List.mem_cons_of_mem _ (List.mem_flatMap.2 ⟨m, hm, ih m hm hn⟩)

theorem old?_isSome_iff : (reuse.old? i).isSome = true ↔ i ∈ reuse.map Prod.fst := by
  simp [Pairing.old?, List.find?_isSome]

def succession (reuse : Pairing) (i : NodeId) : Event :=
  (reuse.old? i).elim (.start i) (.adopt i)

def drops (tree : Node) : List Event := tree.ids.reverse.map .drop

def turnover (reuse : Pairing) (tree : Node) (before : Option Node) : List Event :=
  tree.events reuse ++ (before.elim [] drops ++ [.sweep])

/-- With a node, the nodes below it are taken over. -/
def Closed (reuse : Pairing) (tree : Node) : Prop :=
  ∀ n ∈ tree.walk, (reuse.old? n.id).isSome = true →
    ∀ c ∈ n.children, (reuse.old? c.id).isSome = true

theorem Closed.child (h : Closed reuse tree) (hc : c ∈ tree.children) :
    Closed reuse c := by
  refine fun n hn => h n ?_
  rw [walk_eq]
  exact List.mem_cons_of_mem _ (List.mem_flatMap.2 ⟨c, hc, hn⟩)

theorem Closed.all (h : Closed reuse tree) (hroot : (reuse.old? tree.id).isSome = true) :
    ∀ n ∈ tree.walk, (reuse.old? n.id).isSome = true := by
  induction tree using induct with
  | h tree ih =>
    intro n hn
    have hself : tree ∈ tree.walk := by
      rw [walk_eq]
      exact List.mem_cons_self
    rw [walk_eq] at hn
    rcases List.mem_cons.1 hn with rfl | hn
    · exact hroot
    · obtain ⟨c, hc, hn⟩ := List.mem_flatMap.1 hn
      exact ih c hc (h.child hc) (h tree hself hroot c hc) n hn

theorem events_eq (h : Closed reuse tree) :
    tree.events reuse = tree.ids.map (succession reuse) := by
  induction tree using induct with
  | h tree ih =>
    cases hold : reuse.old? tree.id with
    | some old =>
      rw [events_of_paired hold]
      have hall := h.all (by rw [hold]; rfl)
      unfold takings taken ids
      rw [List.map_filterMap, List.map_map]
      rw [← List.filterMap_eq_map]
      refine List.filterMap_congr fun n hn => ?_
      obtain ⟨o, ho⟩ := Option.isSome_iff_exists.1 (hall n hn)
      simp [ho, succession]
    | none =>
      rw [events_of_unpaired hold, ids_eq, List.map_cons]
      congr 1
      · simp [succession, hold]
      · unfold eventsAll idsAll
        rw [List.map_flatMap]
        exact List.flatMap_congr fun c hc => ih c hc (h.child hc)

theorem ofRecord_of_mem_events :
    ∀ ev ∈ tree.events reuse, ev.OfRecord := by
  induction tree using induct with
  | h tree ih =>
    cases hold : reuse.old? tree.id with
    | some old =>
      rw [events_of_paired hold]
      intro ev hev
      obtain ⟨x, -, rfl⟩ := List.mem_map.1 hev
      trivial
    | none =>
      rw [events_of_unpaired hold]
      refine List.forall_mem_cons.2 ⟨trivial, fun ev hev => ?_⟩
      obtain ⟨c, hc, hev⟩ := List.mem_flatMap.1 hev
      exact ih c hc ev hev

theorem ofRecord_of_mem_drops : ∀ ev ∈ tree.drops, ev.OfRecord := by
  intro ev hev
  obtain ⟨n, -, rfl⟩ := List.mem_map.1 hev
  trivial

theorem old?_eq_none_iff : reuse.old? i = none ↔ i ∉ reuse.map Prod.fst := by
  rw [← old?_isSome_iff, Option.not_isSome_iff_eq_none]

theorem filterMap_old? {ids : List NodeId} (h : (reuse.map Prod.fst).Sublist ids)
    (hn : ids.Nodup) : ids.filterMap reuse.old? = reuse.map Prod.snd := by
  induction ids generalizing reuse with
  | nil =>
    rw [List.map_eq_nil_iff.1 (List.sublist_nil.1 h)]
    rfl
  | cons i ids ih =>
    obtain ⟨hi, hn⟩ := List.nodup_cons.1 hn
    cases reuse with
    | nil => simp [Pairing.old?]
    | cons x reuse =>
      by_cases hx : x.1 = i
      · have hrest : (reuse.map Prod.fst).Sublist ids := by
          rw [List.map_cons, hx] at h
          exact List.cons_sublist_cons.1 h
        have hold : ∀ j ∈ ids, Pairing.old? (x :: reuse) j = Pairing.old? reuse j := fun j hj => by
          have hne : x.1 ≠ j := fun he => hi (hx ▸ he ▸ hj)
          simp [Pairing.old?, hne]
        rw [List.filterMap_cons_some (b := x.2) (by simp [Pairing.old?, hx]),
          List.filterMap_congr hold, ih hrest hn, List.map_cons]
      · have hsub : ((x :: reuse).map Prod.fst).Sublist ids := by
          rw [List.map_cons] at h ⊢
          cases h with
          | cons _ h => exact h
          | cons_cons => exact absurd rfl hx
        have hnone : Pairing.old? (x :: reuse) i = none :=
          old?_eq_none_iff.2 fun hmem => hi (hsub.subset hmem)
        rw [List.filterMap_cons_none hnone, ih hsub hn]

theorem Steady.closed (h : Steady reuse [tree] olds) (hn : tree.ids.Nodup) : Closed reuse tree := by
  obtain ⟨stmts, hfst, hsub⟩ := h.new
  rw [List.flatMap_singleton] at hsub
  intro n hmem hsome c hc
  rw [old?_isSome_iff, hfst] at hsome ⊢
  unfold idsAll ids at hsome ⊢
  rw [← List.map_flatMap] at hsome ⊢
  obtain ⟨m, hm, hid⟩ := List.mem_map.1 hsome
  obtain rfl := List.inj_on_of_nodup_map hn (hsub.subset hm) hmem hid
  obtain ⟨s, hs, hm⟩ := List.mem_flatMap.1 hm
  exact List.mem_map_of_mem (List.mem_flatMap.2 ⟨s, hs, mem_walk_children hm hc⟩)

end Node

namespace Roll

/-- What becomes of the records of some nodes that take the place of others. -/
theorem foldlM_succession {olds : List NodeId} (f : NodeId → Option NodeId) (news : List NodeId)
    (r : Roll) (hnew : news.Nodup) (hfresh : ∀ i ∈ news, i ∉ r.keys)
    (hold : news.filterMap f = olds) (hnodup : olds.Nodup)
    (hkeys : ∀ i ∈ olds, i ∈ r.keys ∧ i ∉ r.young) :
    ∃ r', (news.map fun i => (f i).elim (Event.start i) (Event.adopt i)).foldlM step r = some r' ∧
      r'.keys = (r.keys \ olds.toFinset) ∪ news.toFinset := by
  induction news generalizing r olds with
  | nil =>
    subst hold
    exact ⟨r, rfl, by simp⟩
  | cons i news ih =>
    obtain ⟨hi, hnew⟩ := List.nodup_cons.1 hnew
    have hikey := hfresh i List.mem_cons_self
    have hlater : ∀ j ∈ news, j ∉ r.keys ∧ j ≠ i := fun j hj =>
      ⟨hfresh j (List.mem_cons_of_mem _ hj), fun he => hi (he ▸ hj)⟩
    rw [List.map_cons, List.foldlM_cons]
    cases hf : f i with
    | none =>
      rw [List.filterMap_cons_none hf] at hold
      have hstep : step r (.start i) = some ⟨insert i r.keys, insert i r.young⟩ := if_neg hikey
      obtain ⟨r', hr', hkeys'⟩ := ih ⟨insert i r.keys, insert i r.young⟩ hnew
        (fun j hj => by simpa using (hlater j hj).symm) hold hnodup fun j hj => by
          have hne : j ≠ i := fun he => hikey (he ▸ (hkeys j hj).1)
          simpa [hne] using hkeys j hj
      refine ⟨r', ?_, ?_⟩
      · show (step r (.start i)).bind _ = _
        rw [hstep]
        exact hr'
      · have hiold : i ∉ olds := fun hmem => hikey (hkeys i hmem).1
        rw [hkeys']
        ext j
        simp only [Finset.mem_union, Finset.mem_sdiff, Finset.mem_insert, List.mem_toFinset,
          List.mem_cons]
        by_cases hj : j = i
        · simp [hj, hiold]
        · simp [hj]
    | some o =>
      rw [List.filterMap_cons_some hf] at hold
      subst hold
      obtain ⟨ho, hnodup⟩ := List.nodup_cons.1 hnodup
      obtain ⟨hokey, hyoung⟩ := hkeys o List.mem_cons_self
      have hstep : step r (.adopt i o) = some { r with keys := insert i (r.keys.erase o) } :=
        if_pos ⟨hokey, hyoung, hikey⟩
      obtain ⟨r', hr', hkeys'⟩ := ih { r with keys := insert i (r.keys.erase o) } hnew
        (fun j hj => by simp [(hlater j hj).1, (hlater j hj).2]) rfl hnodup fun j hj => by
          obtain ⟨hjkey, hjyoung⟩ := hkeys j (List.mem_cons_of_mem _ hj)
          have hne : j ≠ o := fun he => ho (he ▸ hj)
          simp [hne, hjkey, hjyoung]
      refine ⟨r', ?_, ?_⟩
      · show (step r (.adopt i o)).bind _ = _
        rw [hstep]
        exact hr'
      · have hiold : i ∉ news.filterMap f := fun hmem =>
          hikey (hkeys i (List.mem_cons_of_mem _ hmem)).1
        rw [hkeys']
        ext j
        simp only [Finset.mem_union, Finset.mem_sdiff, Finset.mem_insert, Finset.mem_erase,
          List.mem_toFinset, List.mem_cons]
        by_cases hj : j = i
        · simp [hj, hiold]
        · simp only [hj, false_or]
          tauto

theorem foldlM_events {reuse : Node.Pairing} {tree : Node} {olds : List Node} {r : Roll}
    (hs : Node.Steady reuse [tree] olds) (hnew : tree.ids.Nodup)
    (hfresh : ∀ i ∈ tree.ids, i ∉ r.keys) (hold : (Node.idsAll olds).Nodup)
    (hkeys : ∀ i ∈ Node.idsAll olds, i ∈ r.keys) (hyoung : r.young = ∅) :
    ∃ r', (tree.events reuse).foldlM step r = some r' ∧
      r'.keys = (r.keys \ (reuse.map Prod.snd).toFinset) ∪ tree.ids.toFinset := by
  rw [Node.events_eq (hs.closed hnew)]
  refine foldlM_succession reuse.old? tree.ids r hnew hfresh ?_ (hold.sublist hs.old) fun i hi =>
    ⟨hkeys i (hs.old.subset hi), by simp [hyoung]⟩
  obtain ⟨stmts, hfst, hsub⟩ := hs.new
  refine Node.filterMap_old? ?_ hnew
  rw [hfst]
  rw [List.flatMap_singleton] at hsub
  have hmap := hsub.map Node.id
  rw [List.map_flatMap] at hmap
  exact hmap

theorem foldlM_drops (ns : List NodeId) (r : Roll) : (ns.map Event.drop).foldlM step r =
    some ⟨r.keys \ ns.toFinset, if ns = [] then r.young else ∅⟩ := by
  induction ns generalizing r with
  | nil => simp
  | cons n ns ih =>
    have hkeys : r.keys.erase n \ ns.toFinset = r.keys \ (n :: ns).toFinset := by
      ext m
      simp only [Finset.mem_sdiff, Finset.mem_erase, List.mem_toFinset, List.mem_cons]
      tauto
    rw [List.map_cons, List.foldlM_cons]
    show (ns.map Event.drop).foldlM step ⟨r.keys.erase n, ∅⟩ = _
    rw [ih, hkeys, ite_self, if_neg (List.cons_ne_nil n ns)]

section Logs

variable {log log' : List Event} {K Y : Finset NodeId} {tree : Node} {f : Fault}

theorem call_drops (h : call log = some ⟨K, Y⟩) (tree : Node) :
    call (log ++ tree.drops) = some { keys := K \ tree.ids.toFinset } := by
  have hne : tree.ids.reverse ≠ [] := by
    rw [Node.ids_eq]
    simp
  have hids : tree.ids.reverse.toFinset = tree.ids.toFinset := by
    ext i
    simp
  rw [call_append, h, Option.bind_some, Node.drops, foldlM_drops, if_neg hne, hids]

theorem call_stuck {r : Roll} (h : call log = some r) (hs : Engine.Stuck log f log') :
    call log' = some r := by
  cases hs <;> rw [call_append, h] <;> rfl

theorem call_sweep (h : call log = some ⟨K, Y⟩) : call (log ++ [.sweep]) = some { keys := K } := by
  rw [call_append, h]
  rfl

theorem call_events {reuse : Node.Pairing} {olds : List Node} (h : call log = some { keys := K })
    (hs : Node.Steady reuse [tree] olds) (hnew : tree.ids.Nodup) (hfresh : ∀ i ∈ tree.ids, i ∉ K)
    (hold : (Node.idsAll olds).Nodup) (hkeys : ∀ i ∈ Node.idsAll olds, i ∈ K) :
    ∃ Y, call (log ++ tree.events reuse) =
      some ⟨(K \ (reuse.map Prod.snd).toFinset) ∪ tree.ids.toFinset, Y⟩ := by
  obtain ⟨⟨_, Y⟩, hr', rfl⟩ := foldlM_events (r := { keys := K }) hs hnew hfresh hold hkeys rfl
  refine ⟨Y, ?_⟩
  rw [call_append, h]
  exact hr'

end Logs

end Roll

end TypeFlow
