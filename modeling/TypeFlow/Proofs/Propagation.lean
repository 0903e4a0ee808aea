import TypeFlow.Proofs.Arenas
import TypeFlow.Proofs.Requests

/-!
# What a change of edges makes known

A wave visits a vertex many times, but a type can move there only once. So the sites that it wakes
are those that listen where a type moved, and the moves that it counts are as many as the pairs of a
vertex and a type that differ between its start and its end.
-/

set_option autoImplicit false

namespace TypeFlow

structure Change.Exact (change : Change) (ripe : Vertex → Ty → Bool) : Prop
    extends Change.Draining change ripe where
  listeners : ∀ s ts v, (change s ts v).1.listeners = v.listeners
  spent : ∀ s ts v t, ripe v t = true → ripe (change s ts v).1 t = false → t ∈ (change s ts v).2
  once : ∀ s ts v, (change s ts v).2.Nodup

theorem Vertex.gain_exact : Change.Exact Vertex.gain fun v t => (v.origins t).isEmpty where
  toDraining := gain_draining
  listeners s ts v := by rw [gain_eq]
  spent s ts v t hripe hspent := by
    have hnone : v.origins t = [] := List.isEmpty_iff.1 hripe
    refine (mem_fresh_gain s).2 ⟨?_, hnone⟩
    by_contra hm
    rw [origins_gain, hnone, List.count_eq_zero.2 hm] at hspent
    exact Bool.noConfusion hspent
  once s ts v := nodup_fresh_gain s ts v

theorem Vertex.lose_exact : Change.Exact Vertex.lose Vertex.holds where
  toDraining := lose_draining
  listeners s ts v := by rw [lose_eq]
  spent s ts v t hripe hspent := by
    refine (mem_gone_lose s).2 ⟨OrderedMap.contains_iff.1 hripe, fun hm => ?_⟩
    rw [holds, OrderedMap.contains_iff.2 hm] at hspent
    exact Bool.noConfusion hspent
  once s ts v := nodup_gone_lose s ts v

namespace Wave

variable {change : Change} {ripe : Vertex → Ty → Bool} {g : Graph}
variable {w : Wave} {a : Arrival} {rest : List Arrival} {spent : List (VertexId × Ty)}

structure Tally (ripe : Vertex → Ty → Bool) (g : Graph) (w : Wave)
    (spent : List (VertexId × Ty)) : Prop where
  listeners : ∀ v, (w.graph.get v).listeners = (g.get v).listeners
  still : ∀ v t, ripe (w.graph.get v) t = true → ripe (g.get v) t = true
  nodup : spent.Nodup
  mem_spent : ∀ v t, (v, t) ∈ spent ↔ ripe (g.get v) t = true ∧ ripe (w.graph.get v) t = false
  woken : ∀ s, s ∈ w.woken ↔ ∃ p ∈ spent, s ∈ (g.get p.1).listeners.toList
  moved : w.moved = spent.length
  removals : w.graph.typeRemovals = g.typeRemovals

theorem Tally.start (ripe : Vertex → Ty → Bool) (g : Graph) (work : List Arrival) :
    Tally ripe g { graph := g, work } [] where
  listeners _ := rfl
  still _ _ := id
  nodup := List.nodup_nil
  mem_spent v t := by simp
  woken s := by simp
  moved := rfl
  removals := rfl

variable (change) in
theorem step_told (hw : w.work = a :: rest)
    (ha : (w.graph.get a.target).alive = true) :
    let c := change a.src a.types (w.graph.get a.target)
    (w.step change).moved = w.moved + c.2.length ∧
      ∀ s, s ∈ (w.step change).woken ↔ s ∈ w.woken ∨ c.2 ≠ [] ∧ s ∈ c.1.listeners.toList := by
  intro c
  unfold step
  rw [hw]
  cases hm : c.2 with
  | nil => simp [ha, show (change a.src a.types (w.graph.get a.target)).2 = [] from hm]
  | cons t ts =>
    have hne : (change a.src a.types (w.graph.get a.target)).2.isEmpty = false := by
      rw [show (change a.src a.types (w.graph.get a.target)).2 = t :: ts from hm]
      rfl
    simp [ha, hne, ← hm, c, List.isEmpty_eq_false_iff.1 hne]

/-- Where types arrive at a live vertex, those that move there are the ones that are new in the
list; what moved before was no longer ripe, so none of it moves again. -/
theorem Tally.step_alive (hc : change.Exact ripe)
    (h : Tally ripe g w spent) (hw : w.work = a :: rest)
    (ha : (w.graph.get a.target).alive = true) :
    Tally ripe g (w.step change)
      (spent ++ (change a.src a.types (w.graph.get a.target)).2.map (a.target, ·)) := by
  obtain ⟨hmoved, hwoken⟩ := step_told change hw ha
  set x := w.graph.get a.target with hx
  set y := (change a.src a.types x).1 with hy
  set moved := (change a.src a.types x).2 with hmovedDef
  have hgraph : (w.step change).graph = w.graph.set a.target y := (Wave.step_alive change hw ha).1
  have hget (v : VertexId) :
      (w.step change).graph.get v = if a.target = v then y else w.graph.get v := by
    rw [hgraph, Graph.get_set (Graph.lt_size_of_alive ha)]
  have hmem (v : VertexId) (t : Ty) :
      (v, t) ∈ moved.map (a.target, ·) ↔ a.target = v ∧ t ∈ moved := by
    simp only [List.mem_map, Prod.mk.injEq]
    exact ⟨fun ⟨u, hu, he, ht⟩ => ⟨he, ht ▸ hu⟩, fun ⟨he, ht⟩ => ⟨t, ht, he, rfl⟩⟩
  have hfresh (t : Ty) (ht : t ∈ moved) : (a.target, t) ∉ spent := fun hs => by
    have hripe := (hc.moved _ _ _ t ht).2.1
    rw [((h.mem_spent a.target t).1 hs).2] at hripe
    exact Bool.noConfusion hripe
  refine ⟨fun v => ?_, fun v t hv => ?_, ?_, fun v t => ?_, fun s => ?_, ?_, ?_⟩
  · rw [hget]
    by_cases hv : a.target = v
    · rw [if_pos hv, ← hv, hy, hc.listeners, hx, h.listeners]
    · rw [if_neg hv, h.listeners]
  · rw [hget] at hv
    by_cases hav : a.target = v
    · rw [if_pos hav] at hv
      rw [← hav]
      exact h.still _ t (hc.still _ _ _ t hv)
    · rw [if_neg hav] at hv
      exact h.still v t hv
  · refine List.nodup_append.2 ⟨h.nodup, ?_, ?_⟩
    · exact (hc.once _ _ _).map fun t t' ht => (Prod.mk.inj ht).2
    · rintro ⟨v, t⟩ hs p hp rfl
      obtain ⟨rfl, ht⟩ := (hmem v t).1 hp
      exact hfresh t ht hs
  · rw [List.mem_append, h.mem_spent, hmem, hget]
    by_cases hv : a.target = v
    · subst hv
      rw [if_pos rfl]
      constructor
      · rintro (⟨hg, hw'⟩ | ⟨-, ht⟩)
        · refine ⟨hg, Bool.eq_false_iff.2 fun hy' => ?_⟩
          exact Bool.eq_false_iff.1 hw' (hc.still _ _ _ t hy')
        · obtain ⟨-, hripe, hover⟩ := hc.moved _ _ _ t ht
          exact ⟨h.still _ t hripe, hover⟩
      · rintro ⟨hg, hover⟩
        by_cases hripe : ripe x t = true
        · exact .inr ⟨rfl, hc.spent _ _ _ t hripe hover⟩
        · exact .inl ⟨hg, Bool.eq_false_iff.2 hripe⟩
    · rw [if_neg hv]
      exact ⟨fun hs => hs.resolve_right fun hm => hv hm.1, .inl⟩
  · have hlisten : y.listeners = (g.get a.target).listeners := by
      rw [hy, hc.listeners, hx, h.listeners]
    rw [hwoken, h.woken, hlisten]
    simp only [List.mem_append, or_and_right, exists_or]
    refine or_congr Iff.rfl ⟨?_, ?_⟩
    · rintro ⟨hne, hs⟩
      obtain ⟨t, ht⟩ := List.exists_mem_of_ne_nil _ hne
      exact ⟨(a.target, t), (hmem _ t).2 ⟨rfl, ht⟩, hs⟩
    · rintro ⟨⟨v, t⟩, hp, hs⟩
      obtain ⟨rfl, ht⟩ := (hmem v t).1 hp
      exact ⟨List.ne_nil_of_mem ht, hs⟩
  · rw [hmoved, h.moved, List.length_append, List.length_map]
  · rw [hgraph]
    exact h.removals

theorem Tally.step (hc : change.Exact ripe)
    (h : Tally ripe g w spent) : ∃ spent', Tally ripe g (w.step change) spent' := by
  cases hw : w.work with
  | nil =>
    rw [step_nil hw]
    exact ⟨spent, h⟩
  | cons a rest =>
    cases ha : (w.graph.get a.target).alive with
    | false =>
      rw [step_dead hw ha]
      exact ⟨spent, h.listeners, h.still, h.nodup, h.mem_spent, h.woken, h.moved, h.removals⟩
    | true => exact ⟨_, h.step_alive hc hw ha⟩

theorem tally_spread (hc : change.Exact ripe) (g : Graph) (a : Arrival) :
    ∃ spent, Tally ripe g (spread change g a) spent :=
  run_induction (P := fun w => ∃ spent, Tally ripe g w spent) (fun _ ⟨_, h⟩ => h.step hc) _
    ⟨[], Tally.start ripe g [a]⟩

end Wave

namespace Graph

def Stirred (g g' : Graph) (v : VertexId) : Prop := ¬∀ t, t ∈ g.typesAt v ↔ t ∈ g'.typesAt v

structure Tells (g : Graph) (c : Changed) : Prop where
  woken : ∀ s, s ∈ c.woken ↔ ∃ v, s ∈ (g.get v).listeners.toList ∧ g.Stirred c.graph v
  removals : ∃ gone : Finset (VertexId × Ty),
    (∀ v t, (v, t) ∈ gone ↔ t ∈ g.typesAt v ∧ t ∉ c.graph.typesAt v) ∧
      c.graph.typeRemovals = g.typeRemovals + gone.card

variable {g g' : Graph}

theorem Tells.of_still (htypes : ∀ v, g'.typesAt v = g.typesAt v)
    (hremovals : g'.typeRemovals = g.typeRemovals) : g.Tells { graph := g' } where
  woken s := by simp [Stirred, htypes]
  removals := ⟨∅, by simp [htypes], hremovals⟩

theorem Tells.of_rewired {c : Changed} (h : g'.Tells c)
    (htypes : ∀ v, (g'.get v).types = (g.get v).types)
    (hlisteners : ∀ v, (g'.get v).listeners = (g.get v).listeners)
    (hremovals : g'.typeRemovals = g.typeRemovals) : g.Tells c := by
  have hsame (v : VertexId) : g'.typesAt v = g.typesAt v := by
    unfold typesAt Vertex.typeList
    rw [htypes]
  refine ⟨fun s => ?_, ?_⟩
  · simp only [h.woken, Stirred, hsame, hlisteners]
  · simpa only [hsame, hremovals] using h.removals

/-- A vertex is stirred when a type moved there in the one direction or the other. -/
theorem listens_iff_stirred {spent : List (VertexId × Ty)}
    (h : ∀ v t, (v, t) ∈ spent ↔ ¬(t ∈ g.typesAt v ↔ t ∈ g'.typesAt v)) (s : SiteId) :
    (∃ p ∈ spent, s ∈ (g.get p.1).listeners.toList) ↔
      ∃ v, s ∈ (g.get v).listeners.toList ∧ g.Stirred g' v := by
  constructor
  · rintro ⟨⟨v, t⟩, hp, hs⟩
    exact ⟨v, hs, fun hall => (h v t).1 hp (hall t)⟩
  · rintro ⟨v, hs, hstirred⟩
    obtain ⟨t, ht⟩ := not_forall.1 hstirred
    exact ⟨(v, t), (h v t).2 ht, hs⟩

def Reasoned (g : Graph) : Prop := ∀ v t, ((g.get v).origins t).isEmpty = true ↔ t ∉ g.typesAt v

theorem Tidy.reasoned (h : g.Tidy) : g.Reasoned := fun v t => by
  rw [List.isEmpty_iff, typesAt, (h v).mem_typeList, not_not]

theorem Reasoned.of_types (h : g.Reasoned) (htypes : ∀ v, (g'.get v).types = (g.get v).types) :
    g'.Reasoned := fun v t => by
  have hv := h v t
  unfold typesAt Vertex.typeList Vertex.origins at hv ⊢
  rwa [htypes]

section Waves

variable {w : Wave} {spent : List (VertexId × Ty)}

theorem tells_of_gain (h : w.Tally (fun v t => (v.origins t).isEmpty) g spent)
    (hbefore : g.Reasoned) (hafter : w.graph.Reasoned) :
    g.Tells { graph := w.graph, woken := w.woken } := by
  have hstill (v : VertexId) (t : Ty) (hm : t ∈ g.typesAt v) : t ∈ w.graph.typesAt v := by
    by_contra hn
    exact (hbefore v t).1 (h.still v t ((hafter v t).2 hn)) hm
  have hspent (v : VertexId) (t : Ty) :
      (v, t) ∈ spent ↔ ¬(t ∈ g.typesAt v ↔ t ∈ w.graph.typesAt v) := by
    have hm := hstill v t
    rw [h.mem_spent, hbefore, ← Bool.not_eq_true, hafter]
    tauto
  refine ⟨fun s => (h.woken s).trans (listens_iff_stirred hspent s), ∅, fun v t => ?_, h.removals⟩
  simpa using hstill v t

theorem tells_of_loss (h : w.Tally Vertex.holds g spent) :
    g.Tells { graph := { w.graph with typeRemovals := w.graph.typeRemovals + w.moved },
              woken := w.woken } := by
  have hholds (g : Graph) (v : VertexId) (t : Ty) : (g.get v).holds t = true ↔ t ∈ g.typesAt v :=
    OrderedMap.contains_iff
  have hgone (v : VertexId) (t : Ty) :
      (v, t) ∈ spent ↔ t ∈ g.typesAt v ∧ t ∉ w.graph.typesAt v := by
    rw [h.mem_spent, hholds, ← Bool.not_eq_true, hholds]
  have hspent (v : VertexId) (t : Ty) :
      (v, t) ∈ spent ↔ ¬(t ∈ g.typesAt v ↔ t ∈ w.graph.typesAt v) := by
    have hstill : t ∈ w.graph.typesAt v → t ∈ g.typesAt v :=
      fun hm => (hholds g v t).1 (h.still v t ((hholds w.graph v t).2 hm))
    rw [hgone]
    tauto
  refine ⟨fun s => (h.woken s).trans (listens_iff_stirred hspent s), spent.toFinset,
    fun v t => ?_, ?_⟩
  · rw [List.mem_toFinset]
    exact hgone v t
  · rw [List.toFinset_card_of_nodup h.nodup, ← h.moved, ← h.removals]

end Waves

section Edges

variable {born : VertexId → List Ty}
variable {dst src : VertexId} {next : OrderedMap VertexId Nat} {k : Nat} {types : List Ty}

theorem tells_reown (g : Graph) (src : VertexId) (f : Vertex → OrderedMap VertexId Nat) :
    g.Tells { graph := g.modify src fun v => { v with next := f v } } := by
  refine .of_still (fun v => ?_) rfl
  unfold typesAt
  rw [get_modify]
  split <;> rfl

theorem tells_link
    (ht : g.Tidy) (hr : Rewired src dst next k g g') (hremovals : g'.typeRemovals = g.typeRemovals)
    (hafter : (g'.bring dst src types).graph.Tidy) : g.Tells (g'.bring dst src types) := by
  have htypes (v : VertexId) : (g'.get v).types = (g.get v).types := by rw [hr.get]
  obtain ⟨spent, h⟩ := Wave.tally_spread Vertex.gain_exact g' ⟨dst, src, types⟩
  exact (tells_of_gain h (ht.reasoned.of_types htypes) hafter.reasoned).of_rewired htypes
    (fun v => by rw [hr.get]) hremovals

theorem tells_unlink (hr : Rewired src dst next k g g')
    (hremovals : g'.typeRemovals = g.typeRemovals) : g.Tells (g'.retract dst src types) := by
  obtain ⟨spent, h⟩ := Wave.tally_spread Vertex.lose_exact g' ⟨dst, src, types⟩
  exact (tells_of_loss h).of_rewired (fun v => by rw [hr.get])
    (fun v => by rw [hr.get]) hremovals

theorem tells_addEdge (h : g.Settled born) (src dst : VertexId) :
    g.Tells (g.addEdge src dst).2 := by
  have hafter := (h.addEdge src dst).tidy
  unfold Graph.addEdge at hafter ⊢
  by_cases hlive : ((g.get src).alive && (g.get dst).alive) = true
  · obtain ⟨hs, hd⟩ := Bool.and_eq_true_iff.1 hlive
    rw [if_pos hlive] at hafter ⊢
    by_cases ho : (g.get src).owners dst = 0
    · simp only [ho, if_true] at hafter ⊢
      exact tells_link h.tidy (rewired (·.insert dst 1) (· + 1) _ _ (lt_size_of_alive hs)
        (lt_size_of_alive hd)) rfl hafter
    · simp only [ho, if_false]
      exact tells_reown g src _
  · rw [if_neg hlive]
    exact .of_still (fun _ => rfl) rfl

theorem tells_removeEdge (h : g.Settled born) (src dst : VertexId) :
    g.Tells (g.removeEdge src dst).2 := by
  unfold Graph.removeEdge
  by_cases h0 : (g.get src).owners dst = 0
  · simp only [h0, if_true]
    exact .of_still (fun _ => rfl) rfl
  · have hm := (h.tidy src).mem_successors.2 h0
    by_cases h1 : (g.get src).owners dst = 1
    · simp only [h1, if_true]
      exact tells_unlink (rewired (·.erase dst) (· - 1) _ _ (lt_size_of_edge hm)
        (h.lt_size_of_edge_to hm)) rfl
    · simp only [h0, h1, if_false]
      exact tells_reown g src _

end Edges

end Graph

namespace Engine

variable {e e' e'' : Engine}

theorem queue_prefix_scheduleAll (e : Engine) (ss : List SiteId) :
    e.queue.toList <+: (e.scheduleAll ss).queue.toList := by
  induction ss generalizing e with
  | nil => exact List.prefix_refl _
  | cons s ss ih =>
    have hone : e.queue.toList <+: (e.schedule s).queue.toList := by
      unfold schedule
      split
      · exact e.queue.prefix_insert s
      · exact List.prefix_refl _
    exact hone.trans (ih (e.schedule s))

structure Announces (e e' : Engine) : Prop where
  front : e.queue.toList <+: e'.queue.toList
  queued : ∀ s, s ∈ e'.queue.toList ↔ s ∈ e.queue.toList ∨ e.isLive s = true ∧
    ∃ v, s ∈ (e.vertex v).listeners.toList ∧
      ¬∀ t, t ∈ (e.vertex v).typeList ↔ t ∈ (e'.vertex v).typeList
  removals : ∃ gone : Finset (VertexId × Ty),
    (∀ v t, (v, t) ∈ gone ↔ t ∈ (e.vertex v).typeList ∧ t ∉ (e'.vertex v).typeList) ∧
      e'.graph.typeRemovals = e.graph.typeRemovals + gone.card

theorem announces_adoptGraph {c : Graph.Changed} (h : e.graph.Tells c) :
    e.Announces (e.adoptGraph c) := by
  have hgraph : (e.adoptGraph c).graph = c.graph := by
    obtain ⟨queue, hq⟩ := exists_adoptGraph_eq e c
    rw [hq]
  refine ⟨queue_prefix_scheduleAll { e with graph := c.graph } c.woken, fun s => ?_, ?_⟩
  · refine (mem_queue_scheduleAll { e with graph := c.graph } c.woken s).trans ?_
    unfold vertex
    rw [hgraph, h.woken, and_comm]
    rfl
  · unfold vertex
    rw [hgraph]
    exact h.removals

def Balances (e e' : Engine) : Prop :=
  (∃ born, e.graph.Settled born) → ∃ born, e'.graph.Settled born

namespace Balances

theorem of_graph (h : e'.graph = e.graph) : Balances e e' := fun hs => by rwa [h]

theorem settles (h : ∀ born, e.graph.Settled born → ∃ born, e'.graph.Settled born) :
    Balances e e' :=
  fun ⟨born, hs⟩ => h born hs

theorem trans (h : Balances e e') (h' : Balances e' e'') : Balances e e'' := fun hs => h' (h hs)

theorem scheduleAll (e : Engine) (ss : List SiteId) : Balances e (e.scheduleAll ss) := by
  obtain ⟨queue, hq⟩ := exists_scheduleAll_eq e ss
  rw [hq]
  exact of_graph rfl

theorem adoptGraph {c : Graph.Changed} (h : ∀ born, e.graph.Settled born → c.graph.Settled born) :
    Balances e (e.adoptGraph c) := by
  have hgraph : Balances e { e with graph := c.graph } := settles fun born hs => ⟨born, h born hs⟩
  exact hgraph.trans (scheduleAll _ c.woken)

theorem newVertex (e : Engine) (label : String) (node : Option NodeId) :
    Balances e (e.newVertex label node).2 :=
  settles fun _ hs => ⟨_, hs.newVertex label node⟩

theorem ensureConst (e : Engine) (key : ConstKey) : Balances e (e.ensureConst key).2 := by
  unfold Engine.ensureConst
  split
  · exact id
  · exact (newVertex e _ none).trans (of_graph rfl)

theorem ensureIvar (e : Engine) (key : MemberKey) : Balances e (e.ensureIvar key).2 := by
  unfold Engine.ensureIvar
  split
  · exact id
  · exact (newVertex e _ none).trans (of_graph rfl)

theorem globalVertex (e : Engine) (name : String) : Balances e (e.globalVertex name).2 := by
  unfold Engine.globalVertex
  split
  · exact id
  · exact (newVertex e _ none).trans (of_graph rfl)

theorem changeDefs (e : Engine) (key : MemberKey) (f : OrderedSet SiteId → OrderedSet SiteId) :
    Balances e (e.changeDefs key f) := by
  unfold Engine.changeDefs
  dsimp only
  split
  · exact (scheduleAll (e.modifyWorld _) _)
  · exact of_graph rfl

theorem listeners (h : ∃ born, e.graph.Settled born) (vs : List VertexId)
    (f : OrderedSet SiteId → OrderedSet SiteId) : ∃ born, (vs.foldl (fun g v =>
      g.modify v fun x => { x with listeners := f x.listeners }) e.graph).Settled born := by
  obtain ⟨born, hs⟩ := h
  refine ⟨born, ?_⟩
  generalize e.graph = g at hs
  induction vs generalizing g with
  | nil => exact hs
  | cons v vs ih => exact ih _ (hs.decorate v fun _ => ⟨rfl, rfl, rfl, rfl, rfl⟩)

instance : Endures Balances where
  refl _ := id
  trans := trans
  newVertex := newVertex
  newSource _ types node := settles fun _ hs => ⟨_, hs.newSource types node⟩
  source _ types := settles fun _ hs => ⟨_, hs.source types⟩
  resolvePath _ _ := of_graph rfl
  consult _ _ := of_graph rfl
  ensureConst := ensureConst
  ensureIvar := ensureIvar
  globalVertex := globalVertex
  addEdge _ src dst := adoptGraph fun _ hs => hs.addEdge src dst
  removeEdge _ src dst := adoptGraph fun _ hs => hs.removeEdge src dst
  destroyVertex _ v := adoptGraph fun _ hs => hs.destroy v
  schedule e s := scheduleAll e [s]
  watch _ _ _ := of_graph rfl
  changeDecls e _ _ := (scheduleAll (e.modifyWorld _) _).trans (scheduleAll _ _)
  changeDefs := changeDefs
  changeIvarReads _ _ _ := of_graph rfl
  effects _ _ _ := of_graph rfl
  count _ := of_graph rfl
  enterSite e node rule h := listeners h rule.inputs (·.insert (e.enterSite node rule).1)
  destroy _ s x _ _ _ h hs := h (listeners hs x.rule.inputs (·.erase s))

theorem reclaim (e : Engine) : Balances e e.reclaim.2 := by
  unfold Engine.reclaim
  split
  · exact settles fun _ hs => ⟨_, hs.reclaim⟩
  · exact id

theorem operate (e : Engine) (op : ArenaOp) : Balances e (e.operate op) := by
  cases op with
  | newVertex label node => exact newVertex e label node
  | newSource types node => exact Bears.newSource e types node
  | source types => exact Bears.source e types
  | addEdge src dst => exact Endures.addEdge e src dst
  | removeEdge src dst => exact Recedes.removeEdge e src dst
  | destroyVertex v => exact Recedes.destroyVertex e v
  | reclaim => exact reclaim e
  | createSite node rule => exact honours_createSite (R := Balances) node rule e
  | destroySite s => exact honours_destroySite (R := Balances) s e
  | runAll => exact honours_runAll (R := Balances) (fun _ _ => of_graph rfl) e

theorem operations (e : Engine) (ops : List ArenaOp) : Balances e (ops.foldl Engine.operate e) := by
  induction ops generalizing e with
  | nil => exact id
  | cons op ops ih => exact (operate e op).trans (ih _)

end Balances

end Engine

/-- Whatever was requested, and whatever was then done to vertices, edges and sites: adding an edge
and removing one queue exactly the live sites that listen at a vertex whose set of types changes,
behind those that waited already, and count exactly the types that disappear. -/
theorem edges_announce (config : Config) (rs : List Request) (ops : List ArenaOp)
    (src dst : VertexId) :
    let e := ops.foldl Engine.operate (Workspace.serve config rs).engine
    e.Announces (e.addEdge src dst).2 ∧ e.Announces (e.removeEdge src dst).2 := by
  intro e
  obtain ⟨-, start, howned⟩ := Workspace.owned_serve config rs
  obtain ⟨born, hs⟩ := Engine.Balances.operations (Workspace.serve config rs).engine ops
    ⟨start, howned.settled⟩
  exact ⟨Engine.announces_adoptGraph (Graph.tells_addEdge hs src dst),
    Engine.announces_adoptGraph (Graph.tells_removeEdge hs src dst)⟩

end TypeFlow
