import TypeFlow.Flow.Edge
import TypeFlow.Proofs.Collections

/-!
# What one arrival does to a vertex

`gain` and `lose` are described by the number of times each reason stands for each type before and
after, and by the types that they report as moved: exactly those by which the sets of types differ.
A graph is read vertex by vertex.
-/

set_option autoImplicit false

namespace TypeFlow

namespace Vertex

variable {v : Vertex} {t : Ty}

structure Tidy (v : Vertex) : Prop where
  types_nodup : v.typeList.Nodup
  next_nodup : v.successors.Nodup
  reasons : ∀ t ∈ v.typeList, v.origins t ≠ []
  owned : ∀ d ∈ v.successors, 0 < v.owners d

theorem absent_tidy : absent.Tidy :=
  ⟨List.nodup_nil, List.nodup_nil, by simp [absent, typeList], by simp [absent, successors]⟩

theorem blank_tidy (label : String) (node : Option NodeId) : ({ label, node } : Vertex).Tidy :=
  ⟨List.nodup_nil, List.nodup_nil, by simp [typeList], by simp [successors]⟩

theorem origins_eq_nil (h : t ∉ v.typeList) : v.origins t = [] := by
  unfold origins
  rw [OrderedMap.get?_eq_none_iff.2 h]
  rfl

theorem Tidy.mem_typeList (h : v.Tidy) :
    t ∈ v.typeList ↔ v.origins t ≠ [] :=
  ⟨h.reasons t, fun ho => by_contra fun hm => ho (origins_eq_nil hm)⟩

theorem Tidy.mem_successors (h : v.Tidy) {d : VertexId} :
    d ∈ v.successors ↔ v.owners d ≠ 0 := by
  constructor
  · intro hd
    exact Nat.pos_iff_ne_zero.1 (h.owned d hd)
  · intro ho
    by_contra hd
    apply ho
    unfold owners
    rw [OrderedMap.get?_eq_none_iff.2 hd]
    rfl

theorem Tidy.of_eq {w : Vertex} (h : v.Tidy) (ht : w.types = v.types) (hn : w.next = v.next) :
    w.Tidy := by
  refine ⟨?_, ?_, ?_, ?_⟩
  · unfold typeList
    rw [ht]
    exact h.types_nodup
  · unfold successors
    rw [hn]
    exact h.next_nodup
  · unfold typeList origins
    rw [ht]
    exact h.reasons
  · unfold successors owners
    rw [hn]
    exact h.owned

theorem Tidy.withTypes (h : v.Tidy) {types : OrderedMap Ty (List Origin)}
    (hn : types.keys.Nodup) (hr : ∀ t ∈ types.keys, (types.get? t).getD [] ≠ []) :
    { v with types }.Tidy :=
  ⟨hn, h.next_nodup, hr, h.owned⟩

section Gain

variable (src : VertexId)
variable {v : Vertex} {t : Ty} {ts : List Ty}

theorem gainOne_eq (v : Vertex) (t : Ty) :
    (v.gainOne src t).1 = { v with types := v.types.upsert t [] (· ++ [.edge src]) } := rfl

theorem origins_gainOne (v : Vertex) (t t' : Ty) :
    (v.gainOne src t).1.origins t' =
      if t = t' then v.origins t' ++ [.edge src] else v.origins t' := by
  rw [gainOne_eq]
  simp only [origins, OrderedMap.get?_upsert]
  by_cases h : t = t' <;> simp [h]

theorem mem_typeList_gainOne {t' : Ty} :
    t' ∈ (v.gainOne src t).1.typeList ↔ t' = t ∨ t' ∈ v.typeList :=
  OrderedMap.mem_keys_upsert

theorem Tidy.gainOne (h : v.Tidy) (t : Ty) : (v.gainOne src t).1.Tidy := by
  refine h.withTypes (OrderedMap.nodup_keys_upsert _ _ _ h.types_nodup) ?_
  intro t' ht'
  change (v.gainOne src t).1.origins t' ≠ []
  rw [origins_gainOne]
  by_cases ht : t = t'
  · simp [ht]
  · rw [if_neg ht]
    rcases (mem_typeList_gainOne src).1 ht' with rfl | hm
    · exact absurd rfl ht
    · exact h.reasons t' hm

theorem gain_cons (t : Ty) (ts : List Ty) (v : Vertex) :
    gain src (t :: ts) v = ((gain src ts (v.gainOne src t).1).1,
      (v.gainOne src t).2 ++ (gain src ts (v.gainOne src t).1).2) := rfl

theorem gain_eq (ts : List Ty) (v : Vertex) :
    (gain src ts v).1 = { v with types := (gain src ts v).1.types } := by
  induction ts generalizing v with
  | nil => rfl
  | cons t ts ih =>
    rw [gain_cons, ih]
    rfl

theorem Tidy.gain (h : v.Tidy) (ts : List Ty) : (gain src ts v).1.Tidy := by
  induction ts generalizing v with
  | nil => exact h
  | cons t ts ih => exact ih (h.gainOne src t)

theorem origins_gain (ts : List Ty) (v : Vertex) (t : Ty) :
    (gain src ts v).1.origins t = v.origins t ++ List.replicate (ts.count t) (.edge src) := by
  induction ts generalizing v with
  | nil => simp [gain]
  | cons a ts ih =>
    rw [gain_cons, ih, origins_gainOne]
    by_cases ha : a = t
    · simp [ha, List.append_assoc, List.replicate_succ]
    · simp [ha]

theorem mem_typeList_gain :
    t ∈ (gain src ts v).1.typeList ↔ t ∈ ts ∨ t ∈ v.typeList := by
  induction ts generalizing v with
  | nil => simp [gain]
  | cons a ts ih =>
    rw [gain_cons, ih, mem_typeList_gainOne, List.mem_cons]
    tauto

theorem mem_fresh_gain :
    t ∈ (gain src ts v).2 ↔ t ∈ ts ∧ v.origins t = [] := by
  induction ts generalizing v with
  | nil => simp [gain]
  | cons a ts ih =>
    rw [gain_cons, List.mem_append, ih, origins_gainOne]
    by_cases ha : a = t
    · subst ha
      by_cases ho : v.origins a = [] <;> simp [gainOne, ho]
    · have hta : ¬t = a := fun h => ha h.symm
      by_cases ho : v.origins a = [] <;> simp [gainOne, ho, ha, hta]

theorem nodup_fresh_gain (ts : List Ty) (v : Vertex) : (gain src ts v).2.Nodup := by
  induction ts generalizing v with
  | nil => exact List.nodup_nil
  | cons a ts ih =>
    rw [gain_cons]
    by_cases ho : v.origins a = []
    · have hone : (v.gainOne src a).2 = [a] := by simp [gainOne, ho]
      rw [hone, List.singleton_append, List.nodup_cons]
      refine ⟨?_, ih _⟩
      intro hm
      have := ((mem_fresh_gain src).1 hm).2
      simp [origins_gainOne] at this
    · have hone : (v.gainOne src a).2 = [] := by simp [gainOne, ho]
      rw [hone, List.nil_append]
      exact ih _

end Gain

section Lose

variable (src : VertexId)
variable {v : Vertex} {t t' : Ty} {ts : List Ty}

theorem loseOne_eq (v : Vertex) (t : Ty) :
    (v.loseOne src t).1 = { v with types := (v.loseOne src t).1.types } := by
  unfold loseOne
  cases v.types.get? t with
  | none => rfl
  | some reasons => by_cases h : (reasons.erase (Origin.edge src)).isEmpty <;> simp [h]

theorem origins_loseOne (v : Vertex) (t t' : Ty) :
    (v.loseOne src t).1.origins t' =
      if t = t' then (v.origins t').erase (.edge src) else v.origins t' := by
  unfold loseOne
  cases hg : v.types.get? t with
  | none =>
    by_cases ht : t = t'
    · subst ht
      simp [origins, hg]
    · simp [ht]
  | some reasons =>
    by_cases h : (reasons.erase (Origin.edge src)).isEmpty
    · by_cases ht : t = t'
      · subst ht
        simp only [List.isEmpty_iff] at h
        simp [origins, OrderedMap.get?_erase, hg, h]
      · simp [h, origins, OrderedMap.get?_erase, ht]
    · by_cases ht : t = t'
      · subst ht
        simp [h, origins, OrderedMap.get?_insert, hg]
      · simp [h, origins, OrderedMap.get?_insert, ht]

theorem mem_typeList_loseOne :
    t' ∈ (v.loseOne src t).1.typeList ↔
      t' ∈ v.typeList ∧ (t' = t → (v.origins t).erase (.edge src) ≠ []) := by
  unfold loseOne
  cases hg : v.types.get? t with
  | none =>
    have ht : t ∉ v.typeList := OrderedMap.get?_eq_none_iff.1 hg
    constructor
    · intro h
      exact ⟨h, fun e => absurd (e ▸ h) ht⟩
    · exact And.left
  | some reasons =>
    have ho : v.origins t = reasons := by simp [origins, hg]
    have ht : t ∈ v.typeList := OrderedMap.mem_keys_of_get? hg
    rw [ho]
    by_cases h : (reasons.erase (Origin.edge src)).isEmpty
    · simp only [h, if_true, typeList, OrderedMap.mem_keys_erase]
      rw [List.isEmpty_iff] at h
      simp [h]
    · simp only [h, Bool.false_eq_true, if_false, typeList, OrderedMap.mem_keys_insert]
      rw [List.isEmpty_iff] at h
      constructor
      · rintro (rfl | hm)
        · exact ⟨ht, fun _ => h⟩
        · exact ⟨hm, fun _ => h⟩
      · exact fun hm => Or.inr hm.1

theorem mem_gone_loseOne :
    t' ∈ (v.loseOne src t).2 ↔
      t' = t ∧ t ∈ v.typeList ∧ (v.origins t).erase (.edge src) = [] := by
  unfold loseOne
  cases hg : v.types.get? t with
  | none =>
    have ht : t ∉ v.typeList := OrderedMap.get?_eq_none_iff.1 hg
    simp [ht]
  | some reasons =>
    have ho : v.origins t = reasons := by simp [origins, hg]
    have ht : t ∈ v.typeList := OrderedMap.mem_keys_of_get? hg
    rw [ho]
    by_cases h : (reasons.erase (Origin.edge src)).isEmpty
    · simp [List.isEmpty_iff.1 h, ht]
    · simp only [h, Bool.false_eq_true, if_false, List.not_mem_nil, false_iff]
      rw [List.isEmpty_iff] at h
      exact fun hm => h hm.2.2

theorem nodup_gone_loseOne (v : Vertex) (t : Ty) : (v.loseOne src t).2.Nodup := by
  unfold loseOne
  cases v.types.get? t with
  | none => exact List.nodup_nil
  | some reasons => by_cases h : (reasons.erase (Origin.edge src)).isEmpty <;> simp [h]

theorem Tidy.loseOne (h : v.Tidy) (t : Ty) : (v.loseOne src t).1.Tidy := by
  rw [loseOne_eq]
  refine h.withTypes ?_ ?_
  · unfold Vertex.loseOne
    cases v.types.get? t with
    | none => exact h.types_nodup
    | some reasons =>
      by_cases hr : (reasons.erase (Origin.edge src)).isEmpty
      · simp only [hr, if_true]
        exact OrderedMap.nodup_keys_erase t h.types_nodup
      · simp only [hr, Bool.false_eq_true, if_false]
        exact OrderedMap.nodup_keys_insert t _ h.types_nodup
  · intro t' ht'
    change (v.loseOne src t).1.origins t' ≠ []
    obtain ⟨hm, hne⟩ := (mem_typeList_loseOne src).1 ht'
    rw [origins_loseOne]
    by_cases ht : t = t'
    · rw [if_pos ht]
      exact ht ▸ hne ht.symm
    · rw [if_neg ht]
      exact h.reasons t' hm

theorem lose_cons (t : Ty) (ts : List Ty) (v : Vertex) :
    lose src (t :: ts) v = ((lose src ts (v.loseOne src t).1).1,
      (v.loseOne src t).2 ++ (lose src ts (v.loseOne src t).1).2) := rfl

theorem lose_eq (ts : List Ty) (v : Vertex) :
    (lose src ts v).1 = { v with types := (lose src ts v).1.types } := by
  induction ts generalizing v with
  | nil => rfl
  | cons t ts ih =>
    rw [lose_cons, ih, loseOne_eq]

theorem Tidy.lose (h : v.Tidy) (ts : List Ty) : (lose src ts v).1.Tidy := by
  induction ts generalizing v with
  | nil => exact h
  | cons t ts ih => exact ih (h.loseOne src t)

theorem count_origins_lose (ts : List Ty) (v : Vertex) (t : Ty) (o : Origin) :
    ((lose src ts v).1.origins t).count o =
      if o = .edge src then (v.origins t).count o - ts.count t else (v.origins t).count o := by
  induction ts generalizing v with
  | nil => simp [lose]
  | cons a ts ih =>
    rw [lose_cons, ih, origins_loseOne]
    by_cases ha : a = t
    · by_cases ho : o = .edge src
      · subst ho
        simp only [ha, if_true, List.count_erase_self, List.count_cons_self]
        omega
      · simp [ha, ho, List.count_erase_of_ne]
    · simp [ha]

theorem typeList_lose_subset
    (h : t ∈ (lose src ts v).1.typeList) : t ∈ v.typeList := by
  induction ts generalizing v with
  | nil => exact h
  | cons a ts ih => exact ((mem_typeList_loseOne src).1 (ih h)).1

theorem mem_gone_lose :
    t ∈ (lose src ts v).2 ↔ t ∈ v.typeList ∧ t ∉ (lose src ts v).1.typeList := by
  induction ts generalizing v with
  | nil => simp [lose]
  | cons a ts ih =>
    rw [lose_cons, List.mem_append, ih, mem_gone_loseOne]
    constructor
    · rintro (⟨rfl, hm, he⟩ | ⟨hm, hn⟩)
      · refine ⟨hm, fun hl => ?_⟩
        exact ((mem_typeList_loseOne src).1 (typeList_lose_subset src hl)).2 rfl he
      · exact ⟨((mem_typeList_loseOne src).1 hm).1, hn⟩
    · rintro ⟨hm, hn⟩
      by_cases hl : t ∈ (v.loseOne src a).1.typeList
      · exact Or.inr ⟨hl, hn⟩
      · rw [mem_typeList_loseOne] at hl
        push Not at hl
        obtain ⟨rfl, he⟩ := hl hm
        exact Or.inl ⟨rfl, hm, he⟩

theorem nodup_gone_lose (ts : List Ty) (v : Vertex) : (lose src ts v).2.Nodup := by
  induction ts generalizing v with
  | nil => exact List.nodup_nil
  | cons a ts ih =>
    rw [lose_cons]
    refine (nodup_gone_loseOne src v a).append (ih _) ?_
    intro t h1 h2
    obtain ⟨rfl, _, he⟩ := (mem_gone_loseOne src).1 h1
    exact ((mem_typeList_loseOne src).1 ((mem_gone_lose src).1 h2).1).2 rfl he

theorem mem_of_gone_lose (h : t ∈ (lose src ts v).2) :
    t ∈ ts := by
  induction ts generalizing v with
  | nil => simp [lose] at h
  | cons a ts ih =>
    rw [lose_cons, List.mem_append] at h
    rcases h with h | h
    · rw [((mem_gone_loseOne src).1 h).1]
      exact List.mem_cons_self
    · exact List.mem_cons_of_mem a (ih h)

end Lose

section Create

theorem origins_literals (types : List Ty) (m : OrderedMap Ty (List Origin)) (t : Ty) :
    ((types.foldl (fun m t => m.upsert t [] (· ++ [.literal])) m).get? t).getD [] =
      (m.get? t).getD [] ++ List.replicate (types.count t) .literal := by
  induction types generalizing m with
  | nil => simp
  | cons a types ih =>
    rw [List.foldl_cons, ih, OrderedMap.get?_upsert]
    by_cases ha : a = t
    · simp [ha, List.replicate_succ]
    · simp [ha]

theorem keys_literals {types : List Ty} {m : OrderedMap Ty (List Origin)} (hm : m.keys.Nodup) :
    (types.foldl (fun m t => m.upsert t [] (· ++ [.literal])) m).keys.Nodup ∧
      ∀ t, t ∈ (types.foldl (fun m t => m.upsert t [] (· ++ [.literal])) m).keys ↔
        t ∈ types ∨ t ∈ m.keys := by
  induction types generalizing m with
  | nil => exact ⟨hm, by simp⟩
  | cons a types ih =>
    obtain ⟨hn, hk⟩ := ih (OrderedMap.nodup_keys_upsert a [] (· ++ [Origin.literal]) hm)
    refine ⟨hn, fun t => ?_⟩
    rw [List.foldl_cons, hk, OrderedMap.mem_keys_upsert, List.mem_cons]
    tauto

theorem origins_ofTypes (types : List Ty) (node : Option NodeId) (t : Ty) :
    (ofTypes types node).origins t = List.replicate (types.count t) .literal := by
  unfold origins ofTypes
  rw [origins_literals]
  simp

theorem mem_typeList_ofTypes {types : List Ty} {node : Option NodeId} {t : Ty} :
    t ∈ (ofTypes types node).typeList ↔ t ∈ types := by
  unfold typeList ofTypes
  rw [(keys_literals (by simp)).2]
  simp

theorem ofTypes_tidy (types : List Ty) (node : Option NodeId) : (ofTypes types node).Tidy where
  types_nodup := (keys_literals (by simp)).1
  next_nodup := List.nodup_nil
  reasons t ht := by
    rw [mem_typeList_ofTypes] at ht
    have hc : types.count t ≠ 0 := Nat.pos_iff_ne_zero.1 (List.count_pos_iff.2 ht)
    simp [origins_ofTypes, hc]
  owned d hd := absurd hd List.not_mem_nil

end Create

end Vertex

namespace Graph

variable {g : Graph} {v : VertexId}

theorem lt_size_of_alive (h : (g.get v).alive = true) :
    v.index < g.vertices.size := by
  cases hg : g.vertices.get? v.index with
  | none => simp [get, hg, Vertex.absent] at h
  | some x => exact Slots.lt_size_of_get? hg

theorem get_modify (g : Graph) (v u : VertexId) (f : Vertex → Vertex) :
    (g.modify v f).get u =
      if v = u ∧ u.index < g.vertices.size then f (g.get u) else g.get u := by
  unfold get modify
  rw [Slots.get?_modify]
  by_cases hv : v = u
  · subst hv
    by_cases hs : v.index < g.vertices.size
    · obtain ⟨x, hx⟩ := Slots.exists_get?_of_lt hs
      simp [hx, hs]
    · simp [Slots.get?_eq_none_iff.2 (Nat.le_of_not_lt hs), hs]
  · have : v.index ≠ u.index := fun h => hv (by cases v; cases u; simp_all)
    simp [hv, this]

theorem get_modify_self (h : v.index < g.vertices.size)
    (f : Vertex → Vertex) : (g.modify v f).get v = f (g.get v) := by
  simp [get_modify, h]

theorem get_modify_of_ne (g : Graph) {u : VertexId} (h : v ≠ u) (f : Vertex → Vertex) :
    (g.modify v f).get u = g.get u := by
  simp [get_modify, h]

theorem get_set (h : v.index < g.vertices.size) (x : Vertex)
    (u : VertexId) : (g.set v x).get u = if v = u then x else g.get u := by
  unfold set
  by_cases hv : v = u
  · subst hv
    simp [get_modify_self h]
  · simp [get_modify_of_ne g hv, hv]

@[simp] theorem size_modify (g : Graph) (v : VertexId) (f : Vertex → Vertex) :
    (g.modify v f).vertices.size = g.vertices.size := by
  simp [modify]

end Graph

end TypeFlow
