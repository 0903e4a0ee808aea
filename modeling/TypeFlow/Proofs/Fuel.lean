import TypeFlow.Proofs.Replay
import TypeFlow.Proofs.Scheduling

/-!
# Fuel

The configuration is looked at before the first run of a drain and never during a run. So two
engines that differ in their configuration run in step, and a limit on the number of runs cuts a
drain off without changing anything that comes before.
-/

set_option autoImplicit false

namespace TypeFlow

def Run.configured (r : Run) (config : Config) : Run :=
  { r with engine := r.engine.configured config }

section Work

variable {σ α β : Type} {f : σ → σ}

def onState (f : σ → σ) : EStateM.Result Fault σ α → EStateM.Result Fault σ α
  | .ok a st => .ok a (f st)
  | .error x st => .error x (f st)

def Ignores (f : σ → σ) (m : EStateM Fault σ α) : Prop := ∀ st, m (f st) = onState f (m st)

theorem ignores_pure (a : α) : Ignores f (pure a : EStateM Fault σ α) := fun _ => rfl

theorem ignores_modify {g : σ → σ} (hg : ∀ st, g (f st) = f (g st)) :
    Ignores f (modify g : EStateM Fault σ PUnit) :=
  fun st => congrArg (EStateM.Result.ok ()) (hg st)

theorem ignores_modifyGet {g : σ → α × σ} (hg : ∀ st, g (f st) = ((g st).1, f (g st).2)) :
    Ignores f (modifyGet g : EStateM Fault σ α) := by
  intro st
  change EStateM.Result.ok (g (f st)).1 (g (f st)).2 = .ok (g st).1 (f (g st).2)
  rw [hg]

theorem ignores_get {k : σ → EStateM Fault σ α} (hf : ∀ st, k (f st) = k st)
    (hk : ∀ st, k st (f st) = onState f (k st st)) :
    Ignores f (get >>= k : EStateM Fault σ α) :=
  fun st => (congrFun (hf st) (f st)).trans (hk st)

theorem ignores_bind {m : EStateM Fault σ α} {k : α → EStateM Fault σ β} (hm : Ignores f m)
    (hk : ∀ a, Ignores f (k a)) : Ignores f (m >>= k) := by
  intro st
  change EStateM.bind m k (f st) = onState f (EStateM.bind m k st)
  unfold EStateM.bind
  rw [hm st]
  cases m st with
  | ok a st' => exact hk a st'
  | error x st' => rfl

theorem ignores_forM {k : α → EStateM Fault σ PUnit} (hk : ∀ a, Ignores f (k a)) (as : List α) :
    Ignores f (as.forM k) := by
  induction as with
  | nil => exact ignores_pure _
  | cons a as ih => exact ignores_bind (hk a) fun _ => ih

end Work

variable {config : Config}

namespace Staging

theorem onEngine_configured {α : Type} {f : Engine → α × Engine} {r : Run}
    (hf : f (r.engine.configured config) = ((f r.engine).1, (f r.engine).2.configured config)) :
    onEngine f (r.configured config) =
      (onEngine f r).map fun x => (x.1, x.2.configured config) := by
  change some ((f (r.engine.configured config)).1,
    { r with engine := (f (r.engine.configured config)).2 }) = _
  rw [hf]
  rfl

theorem scratch_configured {label : String} {fit : Vertex → Bool}
    {create : Engine → VertexId × Engine} {r : Run}
    (hcreate : create (r.engine.configured config) =
      ((create r.engine).1, (create r.engine).2.configured config)) :
    scratch label fit create (r.configured config) =
      (scratch label fit create r).map fun x => (x.1, x.2.configured config) := by
  cases hreuse : reusable? r (r.effects.nextScratchKey label).1 fit with
  | some v =>
    rw [scratch_of_reusable hreuse]
    exact scratch_of_reusable hreuse
  | none =>
    rw [scratch_of_not_reusable hreuse]
    refine (scratch_of_not_reusable (r := r.configured config) hreuse).trans ?_
    change some ((create (r.engine.configured config)).1,
      Run.mk (create (r.engine.configured config)).2
        (r.effects.addPrivate label (create (r.engine.configured config)).1)) = _
    rw [hcreate]
    rfl

def ignoring (config : Config) : Walk where
  strict := False
  Holds m r Q :=
    m (r.configured config) = (m r).map (fun x => (x.1, x.2.configured config)) ∧
      ∀ a r', m r = some (a, r') → Q a r'
  intro h := h False.elim
  pure h := by
    refine ⟨rfl, fun a r' he => ?_⟩
    cases he
    exact h
  bind {_ _ m k r _ _} hm hk := by
    obtain ⟨hfirst, hp⟩ := hm
    change (m (r.configured config)).bind (fun x => k x.1 x.2) =
      ((m r).bind fun x => k x.1 x.2).map _ ∧ ∀ b r', (m r).bind (fun x => k x.1 x.2) = _ → _
    rw [hfirst]
    cases hm : m r with
    | none => exact ⟨rfl, fun b r' he => absurd he (Option.some_ne_none _).symm⟩
    | some x => exact hk x.1 x.2 ⟨False.elim, False.elim⟩ (hp x.1 x.2 hm)
  endless _ := ⟨rfl, fun _ _ he => absurd he (Option.some_ne_none _).symm⟩
  look {_ k r _} hc h := by
    obtain ⟨hrest, hq⟩ := h
    refine ⟨?_, hq⟩
    change k (r.engine.configured config) (r.configured config) = _
    rw [show k (r.engine.configured config) = k r.engine from hc r.engine config, hrest]
    rfl
  addEdge _ _ _ := ⟨rfl, fun _ _ _ => trivial⟩
  addDiagnostic _ _ _ _ := ⟨rfl, fun _ _ _ => trivial⟩
  readSuperclass _ := ⟨rfl, fun _ _ _ => trivial⟩
  readMethod _ := ⟨rfl, fun _ _ _ => trivial⟩
  readConst _ := ⟨rfl, fun _ _ _ => trivial⟩
  source _ := ⟨rfl, fun _ _ _ => trivial⟩
  resolvePath _ _ := ⟨rfl, fun _ _ _ => False.elim⟩
  freshVertex _ _ := ⟨scratch_configured rfl, fun _ _ _ => trivial⟩
  freshSource _ _ _ _ := ⟨scratch_configured rfl, fun _ _ _ => trivial⟩
  ensureConst key r :=
    ⟨onEngine_configured (r.engine.ensureConst_configured config key), fun _ _ _ => trivial⟩
  ensureIvar key r := by
    refine ⟨onEngine_configured ?_, fun _ _ _ => trivial⟩
    unfold Engine.ensureIvar
    rw [Engine.world_configured]
    cases r.engine.world.ivar? key <;> rfl
  globalVertex name r := by
    refine ⟨onEngine_configured ?_, fun _ _ _ => trivial⟩
    unfold Engine.globalVertex
    rw [show (r.engine.configured config).globals = r.engine.globals from rfl]
    cases r.engine.globals.get? name <;> rfl

end Staging

namespace Engine

theorem adoptGraph_configured (e : Engine) (x : Graph.Changed) :
    (e.configured config).adoptGraph x = (e.adoptGraph x).configured config :=
  scheduleAll_configured { e with graph := x.graph } config x.woken

theorem scheduleCallsites_configured (e : Engine) (key : MemberKey) :
    (e.configured config).scheduleCallsites key = (e.scheduleCallsites key).configured config :=
  scheduleAll_configured e config _

theorem changeDecls_configured (e : Engine) (key : MemberKey)
    (f : OrderedSet SiteId → OrderedSet SiteId) :
    (e.configured config).changeDecls key f = (e.changeDecls key f).configured config := by
  let changed := e.modifyWorld (·.modifyMethod key fun m => { m with decls := f m.decls })
  change ((changed.configured config).scheduleCallsites key).scheduleDefs key = _
  rw [scheduleCallsites_configured]
  exact scheduleAll_configured (changed.scheduleCallsites key) config _

theorem changeDefs_configured (e : Engine) (key : MemberKey)
    (f : OrderedSet SiteId → OrderedSet SiteId) :
    (e.configured config).changeDefs key f = (e.changeDefs key f).configured config := by
  let changed := e.modifyWorld (·.modifyMethod key fun m => { m with defs := f m.defs })
  change (if (changed.world.method? key).all fun m => m.decls.isEmpty then
    (changed.configured config).scheduleCallsites key else changed.configured config) = _
  rw [scheduleCallsites_configured]
  exact (apply_ite (configured · config) _ _ _).symm

end Engine

theorem Rule.ignores_register (s : SiteId) (rule : Rule) :
    Ignores (Engine.configured · config) (rule.register s) := by
  cases rule with
  | methodDecl r => exact ignores_modify fun e => e.changeDecls_configured r.key _
  | methodDef r =>
    unfold Rule.register
    dsimp only
    split
    · exact fun e => rfl
    · exact ignores_modify fun e => e.changeDefs_configured r.key _
  | ivarRead r => exact ignores_modify fun e => rfl
  | constRead | typeRead | returnCheck | call | globalRead | multiAssign => exact ignores_pure _

theorem Rule.unregister_configured (s : SiteId) (e : Engine) (rule : Rule) :
    rule.unregister s (e.configured config) = (rule.unregister s e).configured config := by
  cases rule with
  | methodDecl r => exact e.changeDecls_configured r.key (·.erase s)
  | methodDef r => exact e.changeDefs_configured r.key (·.erase s)
  | ivarRead | constRead | typeRead | returnCheck | call | globalRead | multiAssign => rfl

namespace Run

variable {destroy : SiteId → EngineM Unit}

theorem ignores_ofEngine {α : Type} {m : EngineM α}
    (hm : Ignores (Engine.configured · config) m) :
    Ignores (Run.configured · config) (RunM.ofEngine m) := by
  intro r
  unfold RunM.ofEngine
  rw [show m (r.configured config).engine = _ from hm r.engine]
  cases m r.engine <;> rfl

theorem installEdges_configured (r : Run) :
    (r.configured config).installEdges = r.installEdges.configured config := by
  have hadd : ∀ (e : Engine) (x : VertexId × VertexId), ((e.configured config).addEdge x.1 x.2).2 =
      (e.addEdge x.1 x.2).2.configured config := fun e _ => e.adoptGraph_configured _
  have hremove : ∀ (e : Engine) (x : VertexId × VertexId),
      ((e.configured config).removeEdge x.1 x.2).2 = (e.removeEdge x.1 x.2).2.configured config :=
    fun e _ => e.adoptGraph_configured _
  change Run.mk (List.foldl _ (List.foldl _ (r.engine.configured config) _) _) _ = _
  rw [Boot.foldl_configured _ _ hadd, Boot.foldl_configured _ _ hremove]
  rfl

theorem installScratch_configured (r : Run) :
    (r.configured config).installScratch = r.installScratch.configured config := by
  have hdestroy : ∀ (e : Engine) (x : ScratchKey × VertexId),
      (e.configured config).destroyVertex x.2 = (e.destroyVertex x.2).configured config :=
    fun e _ => e.adoptGraph_configured _
  change Run.mk (List.foldl _ (r.engine.configured config) _) _ = _
  rw [Boot.foldl_configured _ _ hdestroy]
  rfl

theorem ignores_createSites (asks : List (SiteKey × NodeId × Rule))
    (out : OrderedMap SiteKey SiteId) :
    Ignores (Engine.configured · config) (createSites asks out) := by
  induction asks generalizing out with
  | nil => exact ignores_pure _
  | cons ask asks ih =>
    obtain ⟨key, node, rule⟩ := ask
    refine ignores_bind ?_ fun s => ih (out.insert key s)
    refine ignores_bind (ignores_modifyGet fun e => rfl) fun s => ?_
    refine ignores_bind (rule.ignores_register s) fun _ => ?_
    exact ignores_bind (ignores_modify fun e => e.schedule_configured config s) fun _ =>
      ignores_pure s

theorem ignores_installSites
    (hd : ∀ s, Ignores (Engine.configured · config) (destroy s)) :
    Ignores (Run.configured · config) (installSites destroy) := by
  intro r
  let bare : Run := { r with effects := {
    installed := { r.effects.installed with sites := {} }
    pending := { r.effects.pending with sites := {} } } }
  refine ignores_bind (ignores_ofEngine (ignores_forM (fun x : SiteKey × SiteId => hd x.2) _))
    (fun _ => ?_) bare
  exact ignores_bind (ignores_ofEngine (ignores_createSites _ _)) fun sites =>
    ignores_modify fun r => rfl

theorem ignores_forgetEach (s : SiteId) (deps : List Dependency) :
    Ignores (Engine.configured · config) (forgetEach s deps) := by
  induction deps with
  | nil => exact ignores_pure _
  | cons d deps ih =>
    intro e
    change (if s ∈ e.world.watchers d then _ else _ : EngineM Unit) (e.configured config) =
      onState _ ((if s ∈ e.world.watchers d then _ else _ : EngineM Unit) e)
    split
    · exact ih (e.modifyWorld (·.watch d (·.erase s)))
    · rfl

theorem ignores_installReads (owner : Owner) :
    Ignores (Run.configured · config) (installReads owner) := by
  have hfile : ∀ s (e : Engine) (d : Dependency), file s (e.configured config) d =
      (file s e d).configured config := fun s e d => by
    cases d with
    | const key =>
      unfold file
      dsimp only
      rw [Engine.ensureConst_configured]
      rfl
    | method | superclass => rfl
  cases owner with
  | node n => exact ignores_pure _
  | site s =>
    have hbook : ∀ olds news fx, Ignores (Run.configured · config) (rebook s olds news fx) :=
      fun olds news fx => ignores_bind (ignores_ofEngine (ignores_forgetEach s olds)) fun _ =>
        ignores_modify fun r =>
          congrArg (Run.mk · fx) (Boot.foldl_configured r.engine config (hfile s) news)
    refine ignores_bind (fun r => ?_) fun _ => ignores_bind (fun r => ?_) fun _ r => ?_
    · rw [installMethodReads_eq, installMethodReads_eq]
      exact hbook _ _ _ r
    · rw [installConstReads_eq, installConstReads_eq]
      exact hbook _ _ _ r
    · rw [installSuperclassReads_eq, installSuperclassReads_eq]
      exact hbook _ _ _ r

theorem ignores_installWith
    (hd : ∀ s, Ignores (Engine.configured · config) (destroy s)) (owner : Owner) :
    Ignores (Run.configured · config) (installWith destroy owner) := by
  refine ignores_bind (ignores_modify installEdges_configured) fun _ => ?_
  refine ignores_bind (ignores_installSites hd) fun _ => ?_
  refine ignores_bind (ignores_modify fun r => rfl) fun _ => ?_
  exact ignores_bind (ignores_installReads owner) fun _ =>
    ignores_modify installScratch_configured

end Run

namespace Engine

theorem ignores_onSiteEffects (s : SiteId) (fx : Effects) {work : RunM Unit}
    {finish : Engine → Engine} (hwork : Ignores (Run.configured · config) work)
    (hfinish : ∀ e, finish (e.configured config) = (finish e).configured config) :
    Ignores (Engine.configured · config) (onSiteEffects s fx work finish) := by
  intro e
  have hr := hwork ⟨e.modifySite s fun x => { x with effects := {} }, fx⟩
  unfold onSiteEffects
  rw [show work ⟨(e.configured config).modifySite s fun x => { x with effects := {} }, fx⟩ = _
    from hr]
  have hback : ∀ r : Run, finish ((r.configured config).engine.modifySite s fun x =>
      { x with effects := r.effects }) =
        (finish (r.engine.modifySite s fun x =>
          { x with effects := r.effects })).configured config :=
    fun r => hfinish (r.engine.modifySite s fun x => { x with effects := r.effects })
  cases work ⟨e.modifySite s fun x => { x with effects := {} }, fx⟩ with
  | ok _ r => exact congrArg (EStateM.Result.ok ()) (hback r)
  | error f r => exact congrArg (EStateM.Result.error f) (hback r)

theorem ignores_destroyWithin (n : Nat) (s : SiteId) :
    Ignores (Engine.configured · config) (destroyWithin n s) := by
  induction n generalizing s with
  | zero => exact ignores_pure _
  | succ n ih =>
    refine ignores_get (fun _ => rfl) fun e => ?_
    cases e.site? s with
    | none => rfl
    | some x =>
      dsimp only
      split
      · rfl
      · refine ignores_bind (f := (configured · config)) (ignores_modify fun e => ?_) (fun _ => ?_)
          e
        · exact x.rule.unregister_configured s (e.markDestroyed s x)
        · exact ignores_onSiteEffects s _ (Run.ignores_installWith ih (.site s)) fun e => rfl

theorem ignores_destroySite (s : SiteId) : Ignores (configured · config) (destroySite s) :=
  ignores_get (fun _ => rfl) fun e => ignores_destroyWithin (e.sites.size + 1) s e

theorem ignores_runSite (s : SiteId) : Ignores (configured · config) (runSite s) := by
  refine ignores_get (fun e => rfl) fun e => ?_
  cases e.site? s with
  | none => rfl
  | some x =>
    dsimp only
    split
    · rfl
    · have hrule : ∀ r, (Staging.ignoring config).At r (x.rule.run x.node) := fun r =>
        Rule.holds_run (F := { Staging.ignoring config with
          own := x.node
          addSite := fun _ _ _ _ _ _ _ => ⟨rfl, fun _ _ _ => trivial⟩ }) False.elim
      have hstaged : Ignores (Run.configured · config) (ofStaging (x.rule.run x.node)) := by
        intro r
        unfold ofStaging
        rw [show x.rule.run x.node (r.configured config) = _ from (hrule r).1]
        cases x.rule.run x.node r <;> rfl
      refine ignores_bind (f := (configured · config)) (ignores_modify fun e => rfl) (fun _ => ?_) e
      exact ignores_onSiteEffects s _ (ignores_bind hstaged fun _ =>
        Run.ignores_installWith ignores_destroySite (.site s)) fun e => rfl

theorem takeNext_configured (e : Engine) : (e.configured config).takeNext =
    (e.takeNext.1, e.takeNext.2.configured config) := rfl

end Engine

def Moment.configured (m : Moment) (config : Config) : Moment :=
  { m with engine := m.engine.configured config }

namespace Engine

inductive Empties : Engine → List Moment → Engine → Prop
  | rest {e e' : Engine} (next : e.takeNext = (none, e')) : Empties e [] e'
  | run {e e1 e2 e' : Engine} {s : SiteId} {ran : List Moment} (next : e.takeNext = (some s, e1))
    (runs : runSite s e1 = .ok () e2) (later : Empties e2 ran e') :
    Empties e (⟨.run s, e2⟩ :: ran) e'

variable {e e' : Engine}

theorem empties_of_drain {n runs total : Nat} (h : drain n runs e = .ok total e') :
    ∃ ran, Empties e ran e' ∧ ran.length ≤ n ∧ runs + ran.length = total := by
  induction n generalizing e runs with
  | zero =>
    rcases hnext : e.takeNext with ⟨_ | s, e1⟩
    · rw [drain_of_none hnext] at h
      cases h
      exact ⟨[], .rest hnext, Nat.le_refl 0, rfl⟩
    · rw [drain_zero_of_some hnext] at h
      cases h
  | succ n ih =>
    rcases hnext : e.takeNext with ⟨_ | s, e1⟩
    · rw [drain_of_none hnext] at h
      cases h
      exact ⟨[], .rest hnext, Nat.zero_le _, rfl⟩
    · rw [drain_succ_of_some hnext] at h
      cases hrun : runSite s e1 with
      | ok _ e2 =>
        rw [hrun] at h
        obtain ⟨ran, hran, hle, htotal⟩ := ih h
        refine ⟨⟨.run s, e2⟩ :: ran, .run hnext hrun hran, Nat.succ_le_succ hle, ?_⟩
        rw [List.length_cons]
        omega
      | error f e2 =>
        rw [hrun] at h
        cases h

namespace Empties

variable {ran : List Moment} {f : Nat}

theorem turn_run (h : Empties e ran e') : ∀ x ∈ ran, ∃ s, x.turn = .run s := by
  induction h with
  | rest => exact fun _ hx => absurd hx List.not_mem_nil
  | run _ _ _ ih => exact List.forall_mem_cons.2 ⟨⟨_, rfl⟩, ih⟩

protected theorem configured (h : Empties e ran e') (config : Config) :
    Empties (e.configured config) (ran.map (·.configured config)) (e'.configured config) := by
  induction h with
  | rest next => exact .rest (by rw [takeNext_configured, next])
  | @run e e1 e2 e' s ran next runs _ ih =>
    have hnext : (e.configured config).takeNext = (some s, e1.configured config) := by
      rw [takeNext_configured, next]
    have hrun : runSite s (e1.configured config) = .ok () (e2.configured config) := by
      rw [show runSite s (e1.configured config) = _ from ignores_runSite s e1, runs]
      rfl
    exact .run hnext hrun ih

theorem drain_of_le (h : Empties e ran e') (hf : ran.length ≤ f) (runs : Nat) :
    drain f runs e = .ok (runs + ran.length) e' ∧ drainTurns f e = ran ++ [⟨.rest, e'⟩] := by
  induction h generalizing f runs with
  | rest next =>
    refine ⟨drain_of_none next f runs, ?_⟩
    cases f <;> simp [drainTurns, next]
  | run next hrun _ ih =>
    obtain ⟨f, rfl⟩ : ∃ k, f = k + 1 := Nat.exists_eq_succ_of_ne_zero (by simp at hf; omega)
    obtain ⟨hdrain, hturns⟩ := ih (Nat.le_of_succ_le_succ hf) (runs + 1)
    rw [drain_succ_of_some next, hrun]
    refine ⟨hdrain.trans ?_, by simp [drainTurns, next, hrun, hturns]⟩
    rw [List.length_cons, Nat.add_assoc, Nat.add_comm 1]

theorem drain_of_lt (h : Empties e ran e') (hf : f < ran.length) (runs : Nat) :
    ∃ s e1 e2, ran[f]? = some ⟨.run s, e2⟩ ∧ runSite s e1 = .ok () e2 ∧
      drain f runs e = .error (.fuelExhausted (runs + f)) e1 ∧
      drainTurns f e = ran.take f ++ [⟨.refuse s, e1⟩] := by
  induction h generalizing f runs with
  | rest => exact absurd hf (Nat.not_lt_zero f)
  | @run e e1 e2 e' s ran next hrun _ ih =>
    cases f with
    | zero =>
      exact ⟨s, e1, e2, rfl, hrun, drain_zero_of_some next runs, by simp [drainTurns, next]⟩
    | succ f =>
      obtain ⟨s', e3, e4, hat, hrun', hdrain, hturns⟩ := ih (Nat.lt_of_succ_lt_succ hf) (runs + 1)
      refine ⟨s', e3, e4, hat, hrun', ?_, by simp [drainTurns, next, hrun, hturns]⟩
      rw [drain_succ_of_some next, hrun]
      refine hdrain.trans ?_
      rw [Nat.add_assoc, Nat.add_comm 1]

end Empties

/-- Fuel is only a bound. If a drain ends after `n` runs, one that may make as many takes
the same turns to the same end, and one that may make fewer makes the first of these runs and
refuses the site whose turn is next. -/
theorem fuel_only_bounds {n : Nat} (hrun : runAll e = .ok n e') (f : Nat) :
    let config : Config := { e.config with fuel := some f }
    let limited := e.configured config
    let turns := e.turns .runAll
    (∃ ran, turns = ran ++ [⟨.rest, e'⟩] ∧ ran.length = n ∧ ∀ x ∈ ran, ∃ s, x.turn = .run s) ∧
    (n ≤ f → runAll limited = .ok n (e'.configured config) ∧
      limited.turns .runAll = turns.map (·.configured config)) ∧
    (f < n → ∃ s stopped next, turns[f]? = some ⟨.run s, next⟩ ∧
      runSite s stopped = .ok () (next.configured config) ∧
      runAll limited = .error (.fuelExhausted f) stopped ∧
      limited.turns .runAll =
        (turns.take f).map (·.configured config) ++ [⟨.refuse s, stopped⟩]) := by
  intro config limited turns
  obtain ⟨ran, hran, hlimit, hcount⟩ := empties_of_drain hrun
  rw [Nat.zero_add] at hcount
  have hturns : turns = ran ++ [⟨.rest, e'⟩] := (hran.drain_of_le hlimit 0).2
  refine ⟨⟨ran, hturns, hcount, hran.turn_run⟩, fun hf => ?_, fun hf => ?_⟩
  · obtain ⟨hdrain, hsame⟩ := (hran.configured config).drain_of_le
      (by simpa [hcount] using hf : (ran.map _).length ≤ f) 0
    rw [List.length_map, hcount, Nat.zero_add] at hdrain
    exact ⟨hdrain, hsame.trans (by rw [hturns, List.map_append]; rfl)⟩
  · obtain ⟨s, stopped, next, hat, hnext, hdrain, hsame⟩ :=
      (hran.configured config).drain_of_lt (by simpa [hcount] using hf : f < (ran.map _).length) 0
    rw [List.getElem?_map, Option.map_eq_some_iff] at hat
    obtain ⟨⟨turn, last⟩, hat, heq⟩ := hat
    cases heq
    have hlt : f < ran.length := hcount ▸ hf
    refine ⟨s, stopped, last, ?_, hnext, by rwa [Nat.zero_add] at hdrain, hsame.trans ?_⟩
    · rw [hturns, List.getElem?_append_left hlt]
      exact hat
    · rw [hturns, List.take_append_of_le_length hlt.le, List.map_take]

/-- Two sites wait, and the second one is refused. -/
theorem fuel_only_bounds_two :
    let first := leftBy (createSite ⟨0⟩ (.globalRead ⟨"$a", ⟨0⟩⟩)) {}
    let e := leftBy (createSite ⟨0⟩ (.globalRead ⟨"$b", ⟨0⟩⟩)) first
    (∃ e', runAll e = .ok 2 e') ∧
      ∃ stopped, runAll (e.configured { fuel := some 1 }) = .error (.fuelExhausted 1) stopped := by
  intro first e
  have hcount : EStateM.run' runAll e = some 2 := by decide +kernel
  obtain ⟨e', hrun⟩ : ∃ e', runAll e = .ok 2 e' := by
    unfold EStateM.run' EStateM.run at hcount
    cases h : runAll e with
    | ok n e' =>
      rw [h] at hcount
      cases hcount
      exact ⟨e', rfl⟩
    | error f e' =>
      rw [h] at hcount
      cases hcount
  obtain ⟨s, stopped, -, -, -, hstopped, -⟩ := (fuel_only_bounds hrun 1).2.2 (by decide)
  exact ⟨⟨e', hrun⟩, stopped, hstopped⟩

end Engine

end TypeFlow
