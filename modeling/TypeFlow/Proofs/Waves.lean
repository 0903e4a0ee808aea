import TypeFlow.Proofs.Vertices

/-!
# Waves come to an end and keep the books

A wave ends because each vertex can move each type only once: the work that is left, together with
the edges over which something can still move, gets smaller with every arrival. While it runs, the
reasons at a vertex and the arrivals in flight add up to what the graph supplies.
-/

set_option autoImplicit false

namespace TypeFlow

structure Change.Draining (change : Change) (ripe : Vertex → Ty → Bool) : Prop where
  next : ∀ s ts v, (change s ts v).1.next = v.next
  still : ∀ s ts v t, ripe (change s ts v).1 t = true → ripe v t = true
  moved : ∀ s ts v t, t ∈ (change s ts v).2 →
    t ∈ ts ∧ ripe v t = true ∧ ripe (change s ts v).1 t = false

theorem Vertex.gain_draining :
    Change.Draining Vertex.gain fun v t => (v.origins t).isEmpty where
  next s ts v := by rw [gain_eq]
  still s ts v t h := by
    rw [origins_gain, List.isEmpty_iff, List.append_eq_nil_iff] at h
    rw [h.1]
    rfl
  moved s ts v t h := by
    obtain ⟨hm, ho⟩ := (mem_fresh_gain s).1 h
    refine ⟨hm, by simp [ho], ?_⟩
    have hc : ts.count t ≠ 0 := Nat.pos_iff_ne_zero.1 (List.count_pos_iff.2 hm)
    simp [origins_gain, ho, hc]

theorem Vertex.lose_draining : Change.Draining Vertex.lose Vertex.holds where
  next s ts v := by rw [lose_eq]
  still s ts v t h := by
    rw [holds, OrderedMap.contains_iff] at h ⊢
    exact typeList_lose_subset s h
  moved s ts v t h := by
    obtain ⟨hm, hn⟩ := (mem_gone_lose s).1 h
    refine ⟨mem_of_gone_lose s h, OrderedMap.contains_iff.2 hm, ?_⟩
    rw [← Bool.not_eq_true]
    exact fun hc => hn (OrderedMap.contains_iff.1 hc)

namespace Graph

theorem edgeCount_eq_total (g : Graph) : g.edgeCount = g.vertices.total fun v => v.next.size := by
  unfold edgeCount Slots.total
  rw [← Array.foldl_toList]
  have h : ∀ (l : List Vertex) (n : Nat),
      l.foldl (fun n v => n + v.next.size) n = n + (l.map fun v => v.next.size).sum := by
    intro l
    induction l with
    | nil => simp
    | cons v l ih =>
      intro n
      rw [List.foldl_cons, ih, List.map_cons, List.sum_cons, Nat.add_assoc]
  rw [h, Nat.zero_add]

def potential (ripe : Vertex → Ty → Bool) (ts : List Ty) (g : Graph) : Nat :=
  g.vertices.total fun v => v.next.size * ts.countP (ripe v)

theorem potential_le (ripe : Vertex → Ty → Bool) (ts : List Ty) (g : Graph) :
    g.potential ripe ts ≤ ts.length * g.edgeCount := by
  rw [edgeCount_eq_total]
  unfold potential Slots.total
  rw [← List.sum_map_mul_left]
  apply List.sum_le_sum
  intro v _
  rw [Nat.mul_comm]
  exact Nat.mul_le_mul_right _ List.countP_le_length

theorem potential_set {g : Graph} {v : VertexId} (h : v.index < g.vertices.size)
    (ripe : Vertex → Ty → Bool) (ts : List Ty) (x : Vertex) :
    (g.set v x).potential ripe ts + (g.get v).next.size * ts.countP (ripe (g.get v)) =
      g.potential ripe ts + x.next.size * ts.countP (ripe x) := by
  obtain ⟨y, hy⟩ := Slots.exists_get?_of_lt h
  have hg : g.get v = y := by simp [get, hy]
  rw [hg]
  exact Slots.total_modify hy _ _

def ripePairs (ripe : Vertex → Ty → Bool) (ts : List Ty) (g : Graph) : Set (VertexId × Ty) :=
  {x | (g.get x.1).alive = true ∧ x.2 ∈ ts ∧ ripe (g.get x.1) x.2 = true}

theorem finite_ripePairs (ripe : Vertex → Ty → Bool) (ts : List Ty) (g : Graph) :
    (g.ripePairs ripe ts).Finite := by
  refine (List.finite_toSet (((List.range g.vertices.size).map VertexId.mk).product ts)).subset ?_
  rintro ⟨v, t⟩ ⟨hv, ht, -⟩
  exact List.mem_product.2
    ⟨List.mem_map.2 ⟨v.index, List.mem_range.2 (lt_size_of_alive hv), rfl⟩, ht⟩

end Graph

namespace Wave

variable {change : Change} {ripe : Vertex → Ty → Bool}
variable {w : Wave} {a : Arrival} {rest : List Arrival} {ts : List Ty}

theorem step_nil (hw : w.work = []) : w.step change = w := by
  unfold step
  rw [hw]

theorem step_dead (hw : w.work = a :: rest)
    (ha : (w.graph.get a.target).alive = false) :
    w.step change = { w with work := rest } := by
  unfold step
  rw [hw]
  simp [ha]

def passOn (d : VertexId) (x : Vertex) (moved : List Ty) : List Arrival :=
  if moved.isEmpty then [] else x.successors.map fun dst => ⟨dst, d, moved⟩

variable (change) in
theorem step_alive (hw : w.work = a :: rest)
    (ha : (w.graph.get a.target).alive = true) :
    (w.step change).graph =
        w.graph.set a.target (change a.src a.types (w.graph.get a.target)).1 ∧
      (w.step change).work = rest ++ passOn a.target
        (change a.src a.types (w.graph.get a.target)).1
        (change a.src a.types (w.graph.get a.target)).2 := by
  unfold step passOn
  rw [hw]
  by_cases hm : (change a.src a.types (w.graph.get a.target)).2.isEmpty <;> simp [ha, hm]

theorem length_passOn_le (d : VertexId) (x : Vertex) (moved : List Ty) :
    (passOn d x moved).length ≤ x.next.size := by
  unfold passOn
  split
  · exact Nat.zero_le _
  · rw [List.length_map, Vertex.successors, OrderedMap.length_keys]

theorem mem_passOn {d : VertexId} {x : Vertex} {moved : List Ty} {b : Arrival}
    (h : b ∈ passOn d x moved) : b.types = moved := by
  unfold passOn at h
  split at h
  · exact absurd h List.not_mem_nil
  · obtain ⟨_, _, rfl⟩ := List.mem_map.1 h
    rfl

def Carries (ts : List Ty) (w : Wave) : Prop := ∀ a ∈ w.work, ∀ t ∈ a.types, t ∈ ts

theorem Carries.step (hc : change.Draining ripe) (h : w.Carries ts) :
    (w.step change).Carries ts := by
  cases hw : w.work with
  | nil => rwa [step_nil hw]
  | cons a rest =>
    intro b hb t ht
    cases ha : (w.graph.get a.target).alive with
    | false =>
      rw [step_dead hw ha] at hb
      exact h b (by rw [hw]; exact List.mem_cons_of_mem a hb) t ht
    | true =>
      rw [(step_alive _ hw ha).2, List.mem_append] at hb
      rcases hb with hb | hb
      · exact h b (by rw [hw]; exact List.mem_cons_of_mem a hb) t ht
      · rw [mem_passOn hb] at ht
        exact h a (by rw [hw]; exact List.mem_cons_self) t (hc.moved _ _ _ t ht).1

theorem step_shrinks (hc : change.Draining ripe) (h : w.Carries ts)
    (hw : w.work ≠ []) :
    (w.step change).work.length + (w.step change).graph.potential ripe ts <
      w.work.length + w.graph.potential ripe ts := by
  obtain ⟨a, rest, hw⟩ := List.exists_cons_of_ne_nil hw
  cases ha : (w.graph.get a.target).alive with
  | false =>
    rw [step_dead hw ha, hw]
    simp
  | true =>
    obtain ⟨hg, hwork⟩ := step_alive change hw ha
    set x := w.graph.get a.target with hx
    set y := (change a.src a.types x).1 with hy
    set moved := (change a.src a.types x).2 with hmoved
    have hsize : y.next.size = x.next.size := by rw [hy, hc.next]
    have hpot := Graph.potential_set (Graph.lt_size_of_alive ha) ripe ts y
    rw [← hx, hsize] at hpot
    rw [hg, hwork, hw, List.length_append, List.length_cons]
    have hlen := length_passOn_le a.target y moved
    rw [hsize] at hlen
    have hmono : ts.countP (ripe y) ≤ ts.countP (ripe x) :=
      List.countP_mono_left fun t _ ht => hc.still _ _ _ t ht
    cases hm : moved with
    | nil =>
      have hle := Nat.mul_le_mul_left x.next.size hmono
      simp only [passOn, List.isEmpty_nil, if_true, List.length_nil]
      omega
    | cons t moved' =>
      have ht : t ∈ moved := by rw [hm]; exact List.mem_cons_self
      obtain ⟨hta, hrx, hry⟩ := hc.moved _ _ _ t ht
      have hts : t ∈ ts := h a (by rw [hw]; exact List.mem_cons_self) t hta
      have hlt : ts.countP (ripe y) < ts.countP (ripe x) :=
        countP_lt_countP (hc.still _ _ _) hts hrx hry
      have hle := Nat.mul_le_mul_left x.next.size (Nat.succ_le_of_lt hlt)
      rw [Nat.mul_succ] at hle
      rw [← hm]
      omega

theorem run_induction {P : Wave → Prop} (hstep : ∀ w, P w → P (w.step change)) (n : Nat)
    (h : P w) : P (run change n w) := by
  induction n generalizing w with
  | zero => exact h
  | succ n ih =>
    unfold run
    split
    · exact h
    · exact ih (hstep w h)

theorem run_done (hc : change.Draining ripe) (ts : List Ty) {n : Nat}
    (h : w.Carries ts) (hn : w.work.length + w.graph.potential ripe ts ≤ n) :
    (run change n w).work = [] := by
  induction n generalizing w with
  | zero => exact List.length_eq_zero_iff.1 (by unfold run; omega)
  | succ n ih =>
    unfold run
    by_cases hw : w.work = []
    · simp [hw]
    · rw [if_neg (by simpa using hw)]
      apply ih (h.step hc)
      have := step_shrinks hc h hw
      omega

/-- The number of types times the number of edges, and one, is enough for every wave. -/
theorem spread_done (hc : change.Draining ripe) (g : Graph) (a : Arrival) :
    (spread change g a).work = [] := by
  unfold spread
  refine run_done hc a.types ?_ ?_
  · intro b hb t ht
    rw [List.mem_singleton.1 hb] at ht
    exact ht
  · have := Graph.potential_le ripe a.types g
    simp only [List.length_singleton]
    omega

/-- An arrival makes nothing ripe, and where it has anything passed on a type is ripe no more. -/
theorem ripePairs_step (hc : change.Draining ripe) (h : w.Carries ts) :
    (w.step change).graph.ripePairs ripe ts ⊆ w.graph.ripePairs ripe ts ∧
      ((w.step change).work = w.work.tail ∨
        (w.step change).graph.ripePairs ripe ts ⊂ w.graph.ripePairs ripe ts) := by
  cases hw : w.work with
  | nil =>
    rw [step_nil hw]
    exact ⟨subset_rfl, .inl hw⟩
  | cons a rest =>
    cases ha : (w.graph.get a.target).alive with
    | false =>
      rw [step_dead hw ha]
      exact ⟨subset_rfl, .inl rfl⟩
    | true =>
      obtain ⟨hg, hwork⟩ := step_alive change hw ha
      have hget := Graph.get_set (x := (change a.src a.types (w.graph.get a.target)).1)
        (Graph.lt_size_of_alive ha)
      have hsub : (w.step change).graph.ripePairs ripe ts ⊆ w.graph.ripePairs ripe ts := by
        rintro ⟨v, t⟩ ⟨hv, ht, hripe⟩
        rw [hg, hget] at hv hripe
        split at hv
        · next he =>
          subst he
          rw [if_pos rfl] at hripe
          exact ⟨ha, ht, hc.still _ _ _ t hripe⟩
        · next hne =>
          rw [if_neg hne] at hripe
          exact ⟨hv, ht, hripe⟩
      refine ⟨hsub, ?_⟩
      cases hm : (change a.src a.types (w.graph.get a.target)).2 with
      | nil =>
        rw [hwork, hm]
        exact .inl (List.append_nil rest)
      | cons t moved =>
        obtain ⟨hta, hripe, hspent⟩ := hc.moved _ _ _ t (hm ▸ List.mem_cons_self)
        have hts : t ∈ ts := h a (hw ▸ List.mem_cons_self) t hta
        refine .inr ((Set.ssubset_iff_of_subset hsub).2
          ⟨(a.target, t), ⟨ha, hts, hripe⟩, fun hmem => ?_⟩)
        have hstill := hmem.2.2
        rw [hg, hget, if_pos rfl, hspent] at hstill
        exact Bool.false_ne_true hstill

variable (change) in
theorem run_eq_iterate (n : Nat) (w : Wave) :
    ∃ k ≤ n, run change n w = (step change)^[k] w := by
  induction n generalizing w with
  | zero => exact ⟨0, le_rfl, rfl⟩
  | succ n ih =>
    unfold run
    split
    · exact ⟨0, Nat.zero_le _, rfl⟩
    · obtain ⟨k, hk, he⟩ := ih (w.step change)
      exact ⟨k + 1, Nat.succ_le_succ hk, he⟩

/-- The rounds of a wave that starts with one arrival: none is left after `n` of them, and each
either has nothing passed on or leaves less that is ripe, out of finitely many pairs. -/
structure Ends (change : Change) (ripe : Vertex → Ty → Bool) (g : Graph) (a : Arrival) (n : Nat) :
    Prop where
  bound : n ≤ a.types.length * g.edgeCount + 1
  done : ((step change)^[n] { graph := g, work := [a] }).work = []
  spread : spread change g a = (step change)^[n] { graph := g, work := [a] }
  finite : (g.ripePairs ripe a.types).Finite
  shrinks : ∀ k < n, let w := (step change)^[k] { graph := g, work := [a] }
    (w.step change).graph.ripePairs ripe a.types ⊆ w.graph.ripePairs ripe a.types ∧
      ((w.step change).work = w.work.tail ∨
        (w.step change).graph.ripePairs ripe a.types ⊂ w.graph.ripePairs ripe a.types)

theorem exists_ends (hc : change.Draining ripe) (g : Graph) (a : Arrival) :
    ∃ n, Ends change ripe g a n := by
  obtain ⟨n, hn, hspread⟩ := run_eq_iterate change
    (a.types.length * g.edgeCount + 1) { graph := g, work := [a] }
  have hcarries : ∀ k, ((step change)^[k] { graph := g, work := [a] }).Carries a.types := by
    intro k
    induction k with
    | zero =>
      intro b hb t ht
      rwa [List.mem_singleton.1 hb] at ht
    | succ k ih =>
      rw [Function.iterate_succ_apply']
      exact ih.step hc
  exact ⟨n, hn, hspread ▸ spread_done hc g a, hspread, g.finite_ripePairs ripe a.types,
    fun k _ => ripePairs_step hc (hcarries k)⟩

/-- In any graph, whatever its cycles and reasons, the wave that brings types and the wave that
takes them away come to an end. What is ripe is, for the one, a type without a reason at a live
vertex, and for the other a type that is held there. -/
theorem propagation_ends (g : Graph) (a : Arrival) :
    (∃ n, Ends Vertex.gain (fun v t => (v.origins t).isEmpty) g a n) ∧
      ∃ n, Ends Vertex.lose Vertex.holds g a n :=
  ⟨exists_ends Vertex.gain_draining g a, exists_ends Vertex.lose_draining g a⟩

end Wave

end TypeFlow
