import TypeFlow.Proofs.Alerts
import TypeFlow.Proofs.FailedUpdates
import TypeFlow.Proofs.Families

/-!
# What successful requests leave

After requests that all succeed nothing waits and no run was broken off. So each live site that only
looks names up is steady: a constant is read from where its name leads at present.
-/

set_option autoImplicit false

namespace TypeFlow

namespace State

structure NamesTracked (s : State) : Prop where
  related : s.engine.world.Related
  posted : s.engine.Posted
  alert : s.Alert

variable {s s' : State}

theorem NamesTracked.move (h : s.NamesTracked) (hs : s.Sound) (hm : Move s s') : s'.NamesTracked :=
  ⟨related_move h.related hs hm, posted_move h.posted hs hm, h.alert.move hs h.related h.posted hm⟩

theorem NamesTracked.moves (h : s.NamesTracked) (hs : s.Sound) (hm : Moves s s') :
    s'.NamesTracked := by
  induction hm with
  | refl => exact h
  | tail hfirst hlast ih => exact ih.move (hs.moves hfirst) hlast

end State

/-- No site is posted in a module whose methods have neither signatures nor bodies and whose
variables nobody reads. -/
theorem Module.posts_eq_nil {x : Module} (hreads : x.ivarReads = {})
    (hmethods : ∀ b, ∀ m ∈ (x.methods.get b).values, m.decls = {} ∧ m.defs = {}) (p : Posting) :
    x.posts p = [] := by
  cases p with
  | signature key =>
    unfold Module.posts
    dsimp only
    cases hm : (x.methods.get key.side.singleton).get? key.name with
    | none => rfl
    | some m => exact congrArg OrderedSet.toList (hmethods _ m (OrderedMap.mem_values_of_get? hm)).1
  | body key =>
    unfold Module.posts
    dsimp only
    cases hm : (x.methods.get key.side.singleton).get? key.name with
    | none => rfl
    | some m => exact congrArg OrderedSet.toList (hmethods _ m (OrderedMap.mem_values_of_get? hm)).2
  | reader => exact congrArg OrderedSet.toList hreads

namespace Boot

open Engine

theorem queue_boot (config : Config) : (Engine.boot config).queue = .empty := by
  rw [Engine.boot_start]
  rfl

theorem posts_boot (config : Config) (p : Posting) : (Engine.boot config).world.posts p = [] := by
  have hblank : ∀ i < startWorld.modules.size, (startWorld.get ⟨i⟩).ivarReads = {} ∧ ∀ b,
      ∀ m ∈ ((startWorld.get ⟨i⟩).methods.get b).values, m.decls = {} ∧ m.defs = {} := by
    decide +kernel
  rw [Engine.world_boot, World.posts]
  generalize startWorld = w at hblank
  by_cases hp : w.Knows p.module
  · obtain ⟨hreads, hmethods⟩ := hblank p.module.index hp
    exact Module.posts_eq_nil hreads hmethods p
  · rw [World.get_of_not_knows hp]
    exact Module.posts_eq_nil rfl (by decide) p

theorem listeners_boot (config : Config) (v : VertexId) :
    ((Engine.boot config).graph.get v).listeners = {} := by
  have hnone : ∀ i < startGraph.vertices.size, (startGraph.get ⟨i⟩).listeners = {} := by
    decide +kernel
  rw [Engine.graph_boot]
  generalize startGraph = g at hnone
  by_cases hv : v.index < g.vertices.size
  · exact hnone v.index hv
  · rw [Graph.get_of_size_le (Nat.le_of_not_lt hv)]
    rfl

theorem namesTracked_boot (config : Config) : ((Engine.boot config).rest []).NamesTracked where
  related := related_boot config
  posted := by
    change (Engine.boot config).Posted
    refine ⟨fun p u hu => ?_, fun v u hu => ?_, fun u x i hx => ?_⟩
    · rw [posts_boot] at hu
      exact absurd hu List.not_mem_nil
    · rw [listeners_boot] at hu
      exact absurd hu List.not_mem_nil
    · exact absurd ((site?_boot config u).symm.trans hx) (Option.some_ne_none x).symm
  alert := .inr fun u x hx =>
    absurd ((site?_boot config u).symm.trans hx) (Option.some_ne_none x).symm

end Boot

namespace Workspace

variable {rs : List Request} {w : Workspace} {log : List Event}

open State

/-- All the requests succeed, one after the other. -/
def accepts (w : Workspace) : List Request → Bool
  | [] => true
  | r :: rs => (w.fault? r).isNone && (w.after r).accepts rs

def acceptsBytes (w : Workspace) : List Request → Bool
  | [] => true
  | r :: rs => (match r.handleBy Node.parseBytes? w with
    | .ok _ w' => w'.acceptsBytes rs
    | .error _ _ => false)

theorem accepts_eq (w : Workspace) (rs : List Request) : w.accepts rs = w.acceptsBytes rs := by
  induction rs generalizing w with
  | nil => rfl
  | cons r rs ih =>
    rw [accepts, acceptsBytes, ih, after_eq, fault?, r.handle_eq, afterBy]
    cases r.handleBy Node.parseBytes? w <;> rfl

/-- Successful requests leave nothing that waits, and break off no run. -/
theorem moves_of_accepts
    (hs : (w.rest log).Sound) (hq : w.engine.queue = .empty) (h : w.accepts rs = true) : ∃ log',
      Moves (w.rest log) ((rs.foldl after w).rest log') ∧
      (w.Fits log → (rs.foldl after w).Fits log') ∧ (rs.foldl after w).engine.queue = .empty ∧
      (Event.spill ∉ log → Event.spill ∉ log') := by
  induction rs generalizing w log with
  | nil => exact ⟨log, .refl, id, hq, id⟩
  | cons r rs ih =>
    obtain ⟨hfault, hrest⟩ := Bool.and_eq_true_iff.1 h
    have hdone := r.drives_handle w log hs
    unfold fault? at hfault
    cases hr : r.handle w with
    | error f w' =>
      rw [hr] at hfault
      cases hfault
    | ok u w' =>
      have hafter : w.after r = w' := by
        unfold after
        rw [hr]
      rw [hr] at hdone
      obtain ⟨log1, hmoves, hsucceeds⟩ := hdone
      rw [hafter] at hrest
      obtain ⟨log2, hmore, hfits, hdrained, hwhole⟩ :=
        ih (hs.moves hmoves) hsucceeds.drained hrest
      refine ⟨log2, ?_, ?_, ?_, ?_⟩
      · rw [List.foldl_cons, hafter]
        exact hmoves.trans hmore
      · rw [List.foldl_cons, hafter]
        exact hfits ∘ hsucceeds.fits
      · rw [List.foldl_cons, hafter]
        exact hdrained
      · exact hwhole ∘ hsucceeds.whole

/-- What holds after requests that all succeed. -/
structure Settled (w : Workspace) (log : List Event) : Prop where
  kept : (w.rest log).Kept
  fits : w.Fits log
  namesTracked : (w.rest log).NamesTracked
  drained : w.engine.queue = .empty
  whole : Event.spill ∉ log

theorem settled_serve (config : Config)
    (h : (ofConfig config).accepts rs = true) : ∃ log,
      Moves ((Engine.boot config).rest []) ((serve config rs).rest log) ∧
        (serve config rs).Settled log := by
  have hboot := Boot.kept_boot config
  obtain ⟨log, hmoves, hfits, hdrained, hwhole⟩ :=
    moves_of_accepts (w := ofConfig config) hboot.sound (Boot.queue_boot config) h
  exact ⟨log, hmoves, hboot.moves hmoves, hfits (fits_ofConfig config),
    (Boot.namesTracked_boot config).moves hboot.sound hmoves, hdrained, hwhole List.not_mem_nil⟩

/-- A site that only looks names up is steady. -/
theorem Settled.steady (h : w.Settled log) {u : SiteId}
    {x : Site} (hx : w.engine.site? u = some x) (hlive : x.destroyed = false)
    (hn : x.rule.Nominal) : x.Steady w.engine := by
  have hidle : ¬(w.rest log).Attends u := by
    rintro (hwaits | hruns)
    · have hwaits : u ∈ w.engine.queue.toList := hwaits
      rw [h.drained] at hwaits
      exact List.not_mem_nil hwaits
    · exact List.not_mem_nil hruns
  exact (h.namesTracked.alert.resolve_left h.whole u x hx hlive hn).resolve_left hidle

end Workspace

open Workspace

/-- After requests that all succeed, each live read of a constant has one edge in place, from the
vertex of the constant that its name leads to at present, and none if it leads nowhere. A name leads
to the innermost enclosing scope that has the constant, or else to the nearest superclass of the
innermost scope; a qualified one to the nearest superclass of its scope. -/
theorem constant_reads_current (config : Config) {rs : List Request}
    (h : (ofConfig config).accepts rs = true) :
    let e := (serve config rs).engine
    ∀ u x c, e.site? u = some x → x.destroyed = false → x.rule = .constRead c →
      x.effects.installed.edges.toList = (c.target? e.world).toList.map fun v => (v, c.ret) := by
  intro e u x c hx hlive hc
  obtain ⟨log, -, hsettled⟩ := settled_serve config h
  have hsteady := hsettled.steady hx hlive (hc.symm ▸ trivial)
  have hpending : x.effects.pending = {} := congrArg Effects.pending hsteady.plain
  have hagain := hsteady.again
  rw [hc] at hagain
  have hedges : x.effects.installed.edges = (c.target? e.world).elim x.effects.pending.edges fun
    v =>
      x.effects.pending.edges.insert (v, c.ret) :=
    c.edges_run (r := ⟨e, x.effects⟩) hsettled.kept.sound.machine.grounded.closed hagain
  rw [hedges, hpending]
  cases c.target? e.world <;> rfl

section MovedConstant

def readsInherited : String :=
  "\x7b\"type\":\"class\",\"cpath\":[\"A\"],\"superclass\":null,\"body\":[" ++
    "\x7b\"type\":\"const_write\",\"name\":\"X\"," ++
    "\"value\":\x7b\"type\":\"int\",\"value\":1\x7d\x7d]\x7d," ++
    "\x7b\"type\":\"class\",\"cpath\":[\"B\"],\"superclass\":\x7b\"cpath\":[\"A\"]\x7d," ++
    "\"body\":[\x7b\"type\":\"const_write\",\"name\":\"Y\"," ++
    "\"value\":\x7b\"type\":\"const\",\"name\":\"X\"\x7d\x7d]\x7d"

def assignsOutermost : String :=
  "\x7b\"type\":\"const_write\",\"name\":\"X\"," ++
    "\"value\":\x7b\"type\":\"str\",\"value\":\"s\"\x7d\x7d"

def movingConstant : List Request := [writing "a" readsInherited, writing "b" assignsOutermost]

/-- The read turns to the scope. -/
theorem constant_read_moved :
    let e := (serve {} movingConstant).engine
    (ofConfig {}).accepts movingConstant = true ∧ ∃ x c, e.site? ⟨0⟩ = some x ∧
      x.destroyed = false ∧ x.rule = .constRead c ∧
      x.effects.installed.edges.toList = [(⟨39⟩, c.ret)] := by
  intro e
  obtain ⟨haccepts, hread⟩ : (ofConfig {}).accepts movingConstant = true ∧
      ((e.site? ⟨0⟩).any fun x => !x.destroyed && match x.rule with
        | .constRead c => decide (c.target? e.world = some ⟨39⟩)
        | _ => false) = true := by
    rw [accepts_eq, ofConfig_eq, show e = (serveBytes {} movingConstant).engine by rw [← serve_eq]]
    decide +kernel
  have hcurrent : ∀ x c, e.site? ⟨0⟩ = some x → x.destroyed = false → x.rule = .constRead c →
      x.effects.installed.edges.toList = (c.target? e.world).toList.map fun v => (v, c.ret) :=
    constant_reads_current {} haccepts ⟨0⟩
  refine ⟨haccepts, ?_⟩
  clear_value e
  cases hx : e.site? ⟨0⟩ with
  | none => simp [hx] at hread
  | some x =>
    rw [hx, Option.any_some, Bool.and_eq_true_iff] at hread
    obtain ⟨hlive, hread⟩ := hread
    split at hread
    · next c hc =>
      have hlive : x.destroyed = false := by simpa using hlive
      refine ⟨x, c, rfl, hlive, hc, ?_⟩
      rw [hcurrent x c hx hlive hc, of_decide_eq_true hread]
      rfl
    · cases hread

end MovedConstant

end TypeFlow
