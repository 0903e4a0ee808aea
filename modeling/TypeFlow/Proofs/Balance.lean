import TypeFlow.Proofs.Waves

/-!
# Reasons balance supply

A live vertex supplies each of its types over each of its edges once. In a settled graph every
vertex records exactly what it is supplied with. While types are on their way, some reasons are
still owed to a vertex and some are due to leave it; a wave pays these debts one arrival at a time.
-/

set_option autoImplicit false

namespace TypeFlow

abbrev Debt := VertexId → VertexId → Ty → Nat

def noDebt : Debt := fun _ _ _ => 0

namespace Graph

def supply (g : Graph) : Debt := fun s d t =>
  if (g.get s).alive = true ∧ d ∈ (g.get s).successors ∧ t ∈ (g.get s).typeList then 1 else 0

def recorded (g : Graph) : Debt := fun s d t => ((g.get d).origins t).count (.edge s)

def Balanced (g : Graph) (owed due : Debt) : Prop :=
  ∀ s d t, (g.get d).alive = true → g.recorded s d t + owed s d t = g.supply s d t + due s d t

def Tidy (g : Graph) : Prop := ∀ v, (g.get v).Tidy

structure SameSlots (g g' : Graph) : Prop where
  size : g'.vertices.size = g.vertices.size
  released : g'.vertices.released = g.vertices.released
  free : g'.vertices.free = g.vertices.free

structure Retyped (g g' : Graph) : Prop extends SameSlots g g' where
  shared : g'.shared = g.shared
  added : g'.edgesAdded = g.edgesAdded
  removed : g'.edgesRemoved = g.edgesRemoved
  rest : ∀ v, g'.get v = { g.get v with types := (g'.get v).types }

structure Flowed (g g' : Graph) : Prop extends Retyped g g' where
  dead : ∀ v, (g.get v).alive = false → g'.get v = g.get v
  literals : ∀ v t, ((g'.get v).origins t).count .literal = ((g.get v).origins t).count .literal

variable {g g' g'' : Graph} {v : VertexId}

theorem SameSlots.refl (g : Graph) : SameSlots g g := ⟨rfl, rfl, rfl⟩

theorem SameSlots.trans (h : SameSlots g g') (h' : SameSlots g' g'') : SameSlots g g'' :=
  ⟨h'.size.trans h.size, h'.released.trans h.released, h'.free.trans h.free⟩

theorem SameSlots.modify (g : Graph) (v : VertexId) (f : Vertex → Vertex) :
    SameSlots g (g.modify v f) :=
  ⟨size_modify g v f, rfl, rfl⟩

namespace Retyped

theorem refl (g : Graph) : Retyped g g := ⟨.refl g, rfl, rfl, rfl, fun _ => rfl⟩

theorem trans (h : Retyped g g') (h' : Retyped g' g'') : Retyped g g'' where
  toSameSlots := h.toSameSlots.trans h'.toSameSlots
  shared := h'.shared.trans h.shared
  added := h'.added.trans h.added
  removed := h'.removed.trans h.removed
  rest v := by rw [h'.rest, h.rest]

theorem alive (h : Retyped g g') (v : VertexId) : (g'.get v).alive = (g.get v).alive := by
  rw [h.rest]

theorem successors (h : Retyped g g') (v : VertexId) :
    (g'.get v).successors = (g.get v).successors := by
  rw [h.rest]
  rfl

theorem modify (g : Graph) (v : VertexId) {f : Vertex → Vertex}
    (hf : ∀ x, f x = { x with types := (f x).types }) : Retyped g (g.modify v f) := by
  refine ⟨.modify g v f, rfl, rfl, rfl, fun u => ?_⟩
  rw [get_modify]
  split
  · exact hf _
  · rfl

theorem set {x : Vertex} (ha : (g.get v).alive = true)
    (hx : x = { g.get v with types := x.types }) : Retyped g (g.set v x) := by
  refine ⟨.modify g v _, rfl, rfl, rfl, fun u => ?_⟩
  rw [get_set (lt_size_of_alive ha)]
  split
  · next hu => rwa [← hu]
  · rfl

theorem recount (h : Retyped g g') (typeRemovals : Nat) : Retyped g { g' with typeRemovals } :=
  ⟨⟨h.size, h.released, h.free⟩, h.shared, h.added, h.removed, h.rest⟩

end Retyped

namespace Flowed

theorem refl (g : Graph) : Flowed g g := ⟨.refl g, fun _ _ => rfl, fun _ _ => rfl⟩

theorem trans (h : Flowed g g') (h' : Flowed g' g'') : Flowed g g'' where
  toRetyped := h.toRetyped.trans h'.toRetyped
  dead v hv := by rw [h'.dead v ((h.alive v).trans hv), h.dead v hv]
  literals v t := (h'.literals v t).trans (h.literals v t)

theorem set {x : Vertex} (ha : (g.get v).alive = true)
    (hx : x = { g.get v with types := x.types })
    (hl : ∀ t, (x.origins t).count .literal = ((g.get v).origins t).count .literal) :
    Flowed g (g.set v x) where
  toRetyped := .set ha hx
  dead u hu := by
    rw [get_set (lt_size_of_alive ha), if_neg]
    rintro rfl
    rw [ha] at hu
    exact Bool.noConfusion hu
  literals u t := by
    rw [get_set (lt_size_of_alive ha)]
    split
    · next h => rw [← h, hl t]
    · rfl

end Flowed

theorem Tidy.set (h : g.Tidy) {x : Vertex} (ha : (g.get v).alive = true) (hx : x.Tidy) :
    (g.set v x).Tidy := by
  intro u
  rw [get_set (lt_size_of_alive ha)]
  by_cases hu : v = u
  · rwa [if_pos hu]
  · rw [if_neg hu]
    exact h u

end Graph

structure Change.Mild (change : Change) : Prop where
  tidy : ∀ src ts {x : Vertex}, x.Tidy → (change src ts x).1.Tidy
  rest : ∀ src ts x, (change src ts x).1 = { x with types := (change src ts x).1.types }
  literals : ∀ src ts x t,
    ((change src ts x).1.origins t).count .literal = (x.origins t).count .literal

theorem Vertex.count_origins_gain (src : VertexId) (ts : List Ty) (x : Vertex) (o : Origin)
    (t : Ty) : ((gain src ts x).1.origins t).count o =
      (x.origins t).count o + if o = .edge src then ts.count t else 0 := by
  rw [origins_gain, List.count_append, List.count_replicate]
  by_cases ho : o = .edge src
  · simp [ho]
  · simp [ho, show ¬Origin.edge src = o from fun h => ho h.symm]

theorem Vertex.gain_mild : Change.Mild gain where
  tidy src ts _ h := h.gain src ts
  rest := gain_eq
  literals src ts x t := by simp [count_origins_gain]

theorem Vertex.lose_mild : Change.Mild lose where
  tidy src ts _ h := h.lose src ts
  rest := lose_eq
  literals src ts x t := by simp [count_origins_lose]

open TypeFlow.Graph

theorem Wave.graph_step (change : Change) (w : Wave) : (w.step change).graph = w.graph ∨
    ∃ a : Arrival, (w.graph.get a.target).alive = true ∧ (w.step change).graph =
      w.graph.set a.target (change a.src a.types (w.graph.get a.target)).1 := by
  cases hw : w.work with
  | nil => exact .inl (by rw [step_nil hw])
  | cons a rest =>
    cases ha : (w.graph.get a.target).alive with
    | true => exact .inr ⟨a, ha, (step_alive change hw ha).1⟩
    | false => exact .inl (by rw [step_dead hw ha])

namespace Change.Mild

variable {change : Change}

theorem retyped (hc : change.Mild) (w : Wave) : Retyped w.graph (w.step change).graph := by
  rcases w.graph_step change with hg | ⟨a, ha, hg⟩ <;> rw [hg]
  · exact .refl _
  · exact .set ha (hc.rest _ _ _)

theorem flowed {w : Wave} (hc : change.Mild) (ht : w.graph.Tidy) :
    Flowed w.graph (w.step change).graph ∧ (w.step change).graph.Tidy := by
  rcases w.graph_step change with hg | ⟨a, ha, hg⟩ <;> rw [hg]
  · exact ⟨.refl _, ht⟩
  · exact ⟨.set ha (hc.rest _ _ _) (hc.literals _ _ _), ht.set ha (hc.tidy _ _ (ht _))⟩

end Change.Mild

namespace Graph.Retyped

theorem spread {change : Change} (hc : change.Mild) (g : Graph) (a : Arrival) :
    Retyped g (Wave.spread change g a).graph :=
  Wave.run_induction (P := fun w => Retyped g w.graph) (fun w h => h.trans (hc.retyped w)) _
    (refl g)

theorem bring (g : Graph) (dst src : VertexId) (types : List Ty) :
    Retyped g (g.bring dst src types).graph :=
  spread Vertex.gain_mild g _

theorem retract (g : Graph) (dst src : VertexId) (types : List Ty) :
    Retyped g (g.retract dst src types).graph :=
  (spread Vertex.lose_mild g ⟨dst, src, types⟩).recount _

theorem retractAll (g : Graph) (src : VertexId) (types : List Ty) (ds : List VertexId) :
    Retyped g (g.retractAll src types ds).graph := by
  induction ds generalizing g with
  | nil => exact refl g
  | cons d ds ih => exact (retract g d src types).trans (ih _)

end Graph.Retyped

namespace Arrival

def carries (a : Arrival) : Debt := fun s d t =>
  if a.src = s ∧ a.target = d then a.types.count t else 0

end Arrival

namespace Wave

def inFlight (work : List Arrival) : Debt := fun s d t => (work.map fun a => a.carries s d t).sum

theorem inFlight_cons (a : Arrival) (work : List Arrival) (s d : VertexId) (t : Ty) :
    inFlight (a :: work) s d t = a.carries s d t + inFlight work s d t := by
  simp [inFlight]

theorem inFlight_append (work work' : List Arrival) (s d : VertexId) (t : Ty) :
    inFlight (work ++ work') s d t = inFlight work s d t + inFlight work' s d t := by
  simp [inFlight]

theorem inFlight_passOn_nil (v : VertexId) (x : Vertex) (s d : VertexId) (t : Ty) :
    inFlight (passOn v x []) s d t = 0 := rfl

theorem inFlight_from (v : VertexId) (types : List Ty) {ds : List VertexId} (hn : ds.Nodup)
    (s d : VertexId) (t : Ty) :
    inFlight (ds.map fun d => ⟨d, v, types⟩) s d t =
      if v = s ∧ d ∈ ds then types.count t else 0 := by
  induction ds with
  | nil => simp [inFlight]
  | cons b ds ih =>
    obtain ⟨hb, hds⟩ := List.nodup_cons.1 hn
    rw [List.map_cons, inFlight_cons, ih hds]
    by_cases hv : v = s
    · by_cases hbd : b = d
      · subst hbd
        simp [Arrival.carries, hv, hb]
      · have hdb : ¬d = b := fun h => hbd h.symm
        simp [Arrival.carries, hv, hbd, hdb]
    · simp [Arrival.carries, hv]

theorem inFlight_passOn (v : VertexId) {x : Vertex} (hx : x.Tidy) (moved : List Ty)
    (s d : VertexId) (t : Ty) :
    inFlight (passOn v x moved) s d t =
      if v = s ∧ d ∈ x.successors then moved.count t else 0 := by
  unfold passOn
  by_cases hm : moved.isEmpty
  · rw [if_pos hm]
    rw [List.isEmpty_iff] at hm
    simp [inFlight, hm]
  · rw [if_neg hm]
    exact inFlight_from v moved hx.next_nodup s d t

end Wave

namespace Graph

open Wave (inFlight passOn)

section Exchange

variable {g : Graph} {v : VertexId} {x : Vertex}

theorem recorded_set (a : Arrival) (ha : (g.get a.target).alive = true) {f : Nat → Nat → Nat}
    (hf : ∀ n, f n 0 = n) {t : Ty} (hx : ∀ s, (x.origins t).count (.edge s) =
      f (g.recorded s a.target t) (if a.src = s then a.types.count t else 0)) (s d : VertexId) :
    (g.set a.target x).recorded s d t = f (g.recorded s d t) (a.carries s d t) := by
  unfold recorded Arrival.carries
  rw [get_set (lt_size_of_alive ha)]
  by_cases hd : a.target = d
  · subst hd
    simpa [recorded] using hx s
  · simp [hd, hf]

theorem supply_set (ha : (g.get v).alive = true) (hx : x = { g.get v with types := x.types })
    (hxt : x.Tidy) (fresh gone : List Ty) (hfresh : fresh.Nodup) (hgone : gone.Nodup)
    (hf : ∀ t, t ∈ fresh ↔ t ∈ x.typeList ∧ t ∉ (g.get v).typeList)
    (hg : ∀ t, t ∈ gone ↔ t ∈ (g.get v).typeList ∧ t ∉ x.typeList) (s d : VertexId) (t : Ty) :
    (g.set v x).supply s d t + inFlight (passOn v x gone) s d t =
      g.supply s d t + inFlight (passOn v x fresh) s d t := by
  have hsucc : (g.get v).successors = x.successors := by rw [hx]; rfl
  have halive : x.alive = true := by rw [hx]; exact ha
  rw [Wave.inFlight_passOn v hxt, Wave.inFlight_passOn v hxt]
  unfold supply
  rw [get_set (lt_size_of_alive ha)]
  by_cases hs : v = s
  · subst hs
    by_cases hd : d ∈ x.successors
    · have hcf : fresh.count t = if t ∈ fresh then 1 else 0 := hfresh.count
      have hcg : gone.count t = if t ∈ gone then 1 else 0 := hgone.count
      by_cases h1 : t ∈ x.typeList <;> by_cases h2 : t ∈ (g.get v).typeList <;>
        simp [ha, halive, hsucc, hd, hcf, hcg, hf, hg, h1, h2]
    · simp [hsucc, hd]
  · simp [hs]

end Exchange

end Graph

namespace Wave

open TypeFlow.Graph

structure Rising (g0 : Graph) (w : Wave) : Prop where
  flowed : Flowed g0 w.graph
  tidy : w.graph.Tidy
  balanced : w.graph.Balanced (inFlight w.work) noDebt

structure Falling (g0 : Graph) (due : Debt) (w : Wave) : Prop where
  flowed : Flowed g0 w.graph
  tidy : w.graph.Tidy
  balanced : w.graph.Balanced noDebt fun s d t => due s d t + inFlight w.work s d t

variable {g0 : Graph} {due : Debt}
variable {a : Arrival} {d : VertexId} {w : Wave}

theorem carries_of_ne (h : a.target ≠ d) (s : VertexId) (t : Ty) :
    a.carries s d t = 0 := by
  simp [Arrival.carries, h]

theorem inFlight_of_dead {g : Graph} (ha : (g.get a.target).alive = false) (hd : (g.get d).alive =
    true) (rest : List Arrival) (s : VertexId) (t : Ty) :
    inFlight (a :: rest) s d t = inFlight rest s d t := by
  have hne : a.target ≠ d := by
    rintro rfl
    rw [ha] at hd
    exact Bool.noConfusion hd
  rw [inFlight_cons, carries_of_ne hne, Nat.zero_add]

theorem Rising.step (h : Rising g0 w) : Rising g0 (w.step Vertex.gain) := by
  obtain ⟨hflow, htidy⟩ := Vertex.gain_mild.flowed h.tidy
  have hb := h.balanced
  cases hw : w.work with
  | nil => rwa [step_nil hw]
  | cons a rest =>
    refine ⟨h.flowed.trans hflow, htidy, fun s d t hd => ?_⟩
    rw [hw] at hb
    cases ha : (w.graph.get a.target).alive with
    | false =>
      rw [step_dead hw ha] at hd ⊢
      have hbal := hb s d t hd
      simp only [inFlight_of_dead ha hd] at hbal
      exact hbal
    | true =>
      obtain ⟨hg, hwork⟩ := step_alive Vertex.gain hw ha
      set x := w.graph.get a.target with hx
      set y := (Vertex.gain a.src a.types x).1 with hy
      have hyx : y = { x with types := y.types } := Vertex.gain_eq a.src a.types x
      rw [hg, (Retyped.set ha hyx).alive] at hd
      set moved := (Vertex.gain a.src a.types x).2
      have hsup := supply_set ha hyx ((h.tidy a.target).gain a.src a.types) moved []
        (Vertex.nodup_fresh_gain a.src a.types x) List.nodup_nil
        (fun t => by
          rw [Vertex.mem_fresh_gain, Vertex.mem_typeList_gain, ← hx, (h.tidy _).mem_typeList]
          tauto)
        (fun t => by
          rw [Vertex.mem_typeList_gain]
          simp only [List.not_mem_nil, ← hx]
          tauto) s d t
      have hrec := recorded_set (x := y) (t := t) a ha (f := (· + ·)) (fun _ => rfl)
        (fun s => by
          rw [Vertex.count_origins_gain]
          simp only [Origin.edge.injEq, @eq_comm _ s]
          rfl) s d
      have hbal := hb s d t hd
      simp only [hg, hwork, hrec, inFlight_append, inFlight_cons] at hbal ⊢
      rw [inFlight_passOn_nil] at hsup
      omega

theorem Falling.step (h : Falling g0 due w) :
    Falling g0 due (w.step Vertex.lose) := by
  obtain ⟨hflow, htidy⟩ := Vertex.lose_mild.flowed h.tidy
  have hb := h.balanced
  cases hw : w.work with
  | nil => rwa [step_nil hw]
  | cons a rest =>
    refine ⟨h.flowed.trans hflow, htidy, fun s d t hd => ?_⟩
    rw [hw] at hb
    cases ha : (w.graph.get a.target).alive with
    | false =>
      rw [step_dead hw ha] at hd ⊢
      have hbal := hb s d t hd
      simp only [inFlight_of_dead ha hd] at hbal
      exact hbal
    | true =>
      obtain ⟨hg, hwork⟩ := step_alive Vertex.lose hw ha
      set x := w.graph.get a.target with hx
      set y := (Vertex.lose a.src a.types x).1 with hy
      have hyx : y = { x with types := y.types } := Vertex.lose_eq a.src a.types x
      rw [hg, (Retyped.set ha hyx).alive] at hd
      set moved := (Vertex.lose a.src a.types x).2
      have hsup := supply_set ha hyx ((h.tidy a.target).lose a.src a.types) [] moved List.nodup_nil
        (Vertex.nodup_gone_lose a.src a.types x)
        (fun t => by
          simp only [List.not_mem_nil, false_iff, not_and, not_not]
          exact Vertex.typeList_lose_subset a.src)
        (fun t => Vertex.mem_gone_lose a.src) s d t
      have hrec := recorded_set (x := y) (t := t) a ha (f := (· - ·)) (fun _ => rfl)
        (fun s => by
          rw [Vertex.count_origins_lose]
          by_cases hs : a.src = s
          · simp [hs, recorded, hx]
          · simp [hs, Ne.symm hs, recorded, hx]) s d
      have hbal := hb s d t hd
      simp only [hg, hwork, hrec, inFlight_append, inFlight_cons, noDebt] at hbal ⊢
      rw [inFlight_passOn_nil] at hsup
      omega

end Wave

namespace Graph

variable {g : Graph} {src dst : VertexId} {types : List Ty}

theorem bring_spec (ht : g.Tidy)
    (hb : g.Balanced (Arrival.carries ⟨dst, src, types⟩) noDebt) :
    Flowed g (g.bring dst src types).graph ∧ (g.bring dst src types).graph.Tidy ∧
      (g.bring dst src types).graph.Balanced noDebt noDebt := by
  have hstart : Wave.Rising g { graph := g, work := [⟨dst, src, types⟩] } := by
    refine ⟨Flowed.refl g, ht, fun s d t hd => ?_⟩
    simpa [Wave.inFlight] using hb s d t hd
  have hend : Wave.Rising g (Wave.spread Vertex.gain g ⟨dst, src, types⟩) :=
    Wave.run_induction (P := Wave.Rising g) (fun _ => Wave.Rising.step) _ hstart
  have hbal := hend.balanced
  rw [Wave.spread_done Vertex.gain_draining] at hbal
  exact ⟨hend.flowed, hend.tidy, hbal⟩

theorem retract_spec {due : Debt} (ht : g.Tidy)
    (hb : g.Balanced noDebt fun s d t => due s d t + Arrival.carries ⟨dst, src, types⟩ s d t) :
    Flowed g (g.retract dst src types).graph ∧ (g.retract dst src types).graph.Tidy ∧
      (g.retract dst src types).graph.Balanced noDebt due := by
  have hstart : Wave.Falling g due { graph := g, work := [⟨dst, src, types⟩] } := by
    refine ⟨Flowed.refl g, ht, fun s d t hd => ?_⟩
    simpa [Wave.inFlight] using hb s d t hd
  have hend : Wave.Falling g due (Wave.spread Vertex.lose g ⟨dst, src, types⟩) :=
    Wave.run_induction (P := Wave.Falling g due) (fun _ => Wave.Falling.step) _ hstart
  have hbal := hend.balanced
  rw [Wave.spread_done Vertex.lose_draining] at hbal
  have hflow := hend.flowed
  exact ⟨⟨hflow.toRetyped.recount _, hflow.dead, hflow.literals⟩, hend.tidy, hbal⟩

structure Rewires (P : Graph → Prop) : Prop where
  next : ∀ {g} v (f : OrderedMap VertexId Nat → OrderedMap VertexId Nat), P g →
    P (modify g v fun x => { x with next := f x.next })
  incoming : ∀ {g} v (f : Nat → Nat), P g →
    P (modify g v fun x => { x with incoming := f x.incoming })
  counts : ∀ {g : Graph} edgesAdded edgesRemoved, P g → P { g with edgesAdded, edgesRemoved }
  types : ∀ {g g'}, P g → Retyped g g' → P g'

theorem Rewires.addEdge {P : Graph → Prop} (h : Rewires P) (hg : P g) (src dst : VertexId) :
    P (g.addEdge src dst).2.graph := by
  unfold Graph.addEdge
  split
  · have hout := h.next src (·.insert dst ((g.get src).owners dst + 1)) hg
    dsimp only
    split
    · exact h.types (h.counts _ _ (h.incoming dst (· + 1) hout)) (.bring ..)
    · exact hout
  · exact hg

theorem Rewires.removeEdge {P : Graph → Prop} (h : Rewires P) (hg : P g) (src dst : VertexId) :
    P (g.removeEdge src dst).2.graph := by
  unfold Graph.removeEdge
  dsimp only
  split
  · exact hg
  · split
    · have hout := h.next src (·.erase dst) hg
      exact h.types (h.counts _ _ (h.incoming dst (· - 1) hout)) (.retract ..)
    · exact h.next src (·.insert dst ((g.get src).owners dst - 1)) hg

theorem destroy_of_alive {v : VertexId} (hv : (g.get v).alive = true) :
    ∃ g', Retyped (g.modify v fun x => { x with alive := false }) g' ∧
      (g.destroy v).graph = { g' with vertices := g'.vertices.release v.index } := by
  unfold destroy
  rw [if_pos hv]
  exact ⟨_, (Retyped.retractAll ..).trans (.modify _ v fun _ => rfl), rfl⟩

end Graph

end TypeFlow
