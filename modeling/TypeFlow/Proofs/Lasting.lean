import TypeFlow.Engine.Drain
import TypeFlow.Proofs.Installing
import TypeFlow.Proofs.Parts

/-!
# What lasts through a run

A run makes few kinds of changes to the engine. A relation between engines that each of them
respects is respected by the runs of all rules, by the installation of what they ask for, and by the
creation and destruction of sites. The proofs follow the code and look at no rule in particular.
-/

set_option autoImplicit false

namespace TypeFlow

class Engine.Bears (R : Engine → Engine → Prop) : Prop where
  refl : ∀ e, R e e
  trans : ∀ {e e' e''}, R e e' → R e' e'' → R e e''
  newVertex : ∀ e label node, R e (Engine.newVertex e label node).2
  newSource : ∀ e types node, R e (Engine.newSource e types node).2
  source : ∀ e types, R e (Engine.source e types).2
  resolvePath : ∀ e path, R e (Engine.resolvePath e path).2
  consult : ∀ e key, R e (Engine.modifyWorld e (·.modifyMethod key id))
  ensureConst : ∀ e key, R e (Engine.ensureConst e key).2
  ensureIvar : ∀ e key, R e (Engine.ensureIvar e key).2
  globalVertex : ∀ e name, R e (Engine.globalVertex e name).2

namespace Staging

def Keeps (R : Engine → Engine → Prop) {α : Type} (m : Staging α) : Prop :=
  ∀ r a r', m r = some (a, r') → R r.engine r'.engine

variable {R : Engine → Engine → Prop} {α β : Type}

theorem keeps_onEngine {f : Engine → α × Engine} (hf : ∀ e, R e (f e).2) :
    Keeps R (onEngine f) := by
  intro r _ r' h
  cases h
  exact hf r.engine

variable [Engine.Bears R]

@[simp] theorem keeps_pure (a : α) : Keeps R (pure a : Staging α) := by
  intro r _ r' h
  cases h
  exact Engine.Bears.refl _

@[simp] theorem keeps_bind {m : Staging α} {f : α → Staging β} (hm : Keeps R m)
    (hf : ∀ a, Keeps R (f a)) : Keeps R (m >>= f) := by
  intro r b r' h
  obtain ⟨⟨a, r1⟩, h1, h2⟩ := Option.bind_eq_some_iff.1 h
  exact Engine.Bears.trans (hm r a r1 h1) (hf a r1 b r' h2)

@[simp] theorem keeps_onEffects (f : Effects → Effects) : Keeps R (onEffects f) := by
  intro r _ r' h
  cases h
  exact Engine.Bears.refl _

theorem keeps_scratch {label : String} {fit : Vertex → Bool} {create : Engine → VertexId × Engine}
    (hcreate : ∀ e, R e (create e).2) : Keeps R (scratch label fit create) := by
  intro r _ r' h
  cases h
  dsimp only
  split
  · exact Engine.Bears.refl _
  · exact hcreate r.engine

def keeping (R : Engine → Engine → Prop) [Engine.Bears R] : Walk where
  strict := False
  Holds m r Q := ∀ a r', m r = some (a, r') → R r.engine r'.engine ∧ Q a r'
  intro h := h False.elim
  pure {_ a r _} h _ r' he := by
    cases he
    exact ⟨Engine.Bears.refl _, h⟩
  bind hm hk b r' he := by
    obtain ⟨⟨a, r1⟩, h1, h2⟩ := Option.bind_eq_some_iff.1 he
    obtain ⟨hfirst, hp⟩ := hm a r1 h1
    obtain ⟨hrest, hq⟩ := hk a r1 ⟨False.elim, False.elim⟩ hp b r' h2
    exact ⟨Engine.Bears.trans hfirst hrest, hq⟩
  endless _ _ _ _ he := absurd he (Option.some_ne_none _).symm
  look _ h := h
  addEdge _ _ r a r' he := ⟨keeps_onEffects _ r a r' he, trivial⟩
  addDiagnostic _ _ _ r a r' he := ⟨keeps_onEffects _ r a r' he, trivial⟩
  readSuperclass {_ r} _ a r' he := ⟨keeps_onEffects _ r a r' he, trivial⟩
  readMethod {key r} _ a r' he :=
    ⟨keeps_bind (keeps_onEngine fun e => Engine.Bears.consult e key) (fun _ => keeps_onEffects _)
      r a r' he, trivial⟩
  readConst {_ r} _ a r' he := ⟨keeps_onEffects _ r a r' he, trivial⟩
  source {types r} _ a r' he :=
    ⟨keeps_onEngine (fun e => Engine.Bears.source e types) r a r' he, trivial⟩
  resolvePath path r a r' he :=
    ⟨keeps_onEngine (fun e => Engine.Bears.resolvePath e path) r a r' he, False.elim⟩
  freshVertex label r a r' he :=
    ⟨keeps_scratch (fun e => Engine.Bears.newVertex e label none) r a r' he, trivial⟩
  freshSource _ {types r} _ a r' he :=
    ⟨keeps_scratch (fun e => Engine.Bears.newSource e types none) r a r' he, trivial⟩
  ensureConst key r a r' he :=
    ⟨keeps_onEngine (fun e => Engine.Bears.ensureConst e key) r a r' he, trivial⟩
  ensureIvar key r a r' he :=
    ⟨keeps_onEngine (fun e => Engine.Bears.ensureIvar e key) r a r' he, trivial⟩
  globalVertex name r a r' he :=
    ⟨keeps_onEngine (fun e => Engine.Bears.globalVertex e name) r a r' he, trivial⟩

theorem keeps_of_fine {m : Staging α} (h : (keeping R).Fine m) : Keeps R m :=
  fun r a r' he => (h r a r' he).1

end Staging

theorem Rule.keeps_run {R : Engine → Engine → Prop} [Engine.Bears R] (node : NodeId)
    (rule : Rule) : Staging.Keeps R (rule.run node) :=
  Staging.keeps_of_fine fun _ => Rule.holds_run
    (F := { Staging.keeping R with
      own := node
      addSite := fun _ _ _ r _ _ _ a r' he => ⟨Staging.keeps_onEffects _ r a r' he, trivial⟩ })
    False.elim

section Work

variable {σ α β : Type}

def leftBy (m : EStateM Fault σ α) (st : σ) : σ :=
  match m st with
  | .ok _ st' => st'
  | .error _ st' => st'

def Honours (R : Engine → Engine → Prop) (view : σ → Engine) (m : EStateM Fault σ α) : Prop :=
  ∀ st, R (view st) (view (leftBy m st))

variable {R : Engine → Engine → Prop} {view : σ → Engine}

theorem honours_modifyGet {f : σ → α × σ} (hf : ∀ st, R (view st) (view (f st).2)) :
    Honours R view (modifyGet f : EStateM Fault σ α) :=
  hf

theorem honours_modify {f : σ → σ} (hf : ∀ st, R (view st) (view (f st))) :
    Honours R view (modify f : EStateM Fault σ PUnit) :=
  hf

theorem honours_get {k : σ → EStateM Fault σ β}
    (hk : ∀ st, R (view st) (view (leftBy (k st) st))) : Honours R view (get >>= k) :=
  hk

variable [Engine.Bears R]

theorem honours_pure (a : α) : Honours R view (pure a : EStateM Fault σ α) :=
  fun _ => Engine.Bears.refl _

theorem honours_throw (f : Fault) : Honours R view (throw f : EStateM Fault σ α) :=
  fun _ => Engine.Bears.refl _

theorem honours_bind {m : EStateM Fault σ α} {k : α → EStateM Fault σ β} (hm : Honours R view m)
    (hk : ∀ a, Honours R view (k a)) : Honours R view (m >>= k) := by
  intro st
  have hfirst := hm st
  unfold leftBy at hfirst ⊢
  show R _ (view (match (EStateM.bind m k) st with | .ok _ st' => st' | .error _ st' => st'))
  unfold EStateM.bind
  cases h : m st with
  | ok a st' =>
    rw [h] at hfirst
    exact Engine.Bears.trans hfirst (hk a st')
  | error f st' =>
    rw [h] at hfirst
    exact hfirst

theorem honours_forM {f : α → EStateM Fault σ PUnit} (hf : ∀ a, Honours R view (f a))
    (as : List α) : Honours R view (as.forM f) := by
  induction as with
  | nil => exact honours_pure _
  | cons a as ih => exact honours_bind (hf a) fun _ => ih

theorem related_foldl {f : Engine → α → Engine} {as : List α} (hf : ∀ a ∈ as, ∀ e, R e (f e a))
    (e : Engine) : R e (as.foldl f e) := by
  induction as generalizing e with
  | nil => exact Engine.Bears.refl e
  | cons a as ih =>
    exact Engine.Bears.trans (hf a List.mem_cons_self e)
      (ih (fun b hb => hf b (List.mem_cons_of_mem a hb)) _)

end Work

class Engine.Recedes (R : Engine → Engine → Prop) : Prop extends Engine.Bears R where
  removeEdge : ∀ e src dst, R e (Engine.removeEdge e src dst).2
  destroyVertex : ∀ e v, R e (Engine.destroyVertex e v)
  schedule : ∀ e s, R e (Engine.schedule e s)
  watch : ∀ e d f, R e (Engine.modifyWorld e (·.watch d f))
  changeDecls : ∀ e key f, R e (Engine.changeDecls e key f)
  changeDefs : ∀ e key f, R e (Engine.changeDefs e key f)
  changeIvarReads : ∀ e m (f : OrderedSet SiteId → OrderedSet SiteId),
    R e (Engine.modifyWorld e (·.modify m fun x => { x with ivarReads := f x.ivarReads }))
  effects : ∀ e s fx, R e (Engine.modifySite e s fun x => { x with effects := fx })
  count : ∀ e : Engine, R e { e with stats := { e.stats with runs := e.stats.runs + 1 } }
  enterSite : ∀ e node rule, R e (Engine.enterSite e node rule).2
  destroy : ∀ (e : Engine) s x e', e.site? s = some x → x.destroyed = false →
    R (e.markDestroyed s x) e' → R e { e' with
      sites := e'.sites.release s.index
      stats := e'.stats.destroy x.rule.name }

class Engine.Endures (R : Engine → Engine → Prop) : Prop extends Engine.Recedes R where
  addEdge : ∀ e src dst, R e (Engine.addEdge e src dst).2

theorem honours_ofEngine {R : Engine → Engine → Prop} {α : Type} {m : EngineM α}
    (hm : Honours R id m) : Honours R Run.engine (RunM.ofEngine m) := by
  intro r
  have hr := hm r.engine
  unfold leftBy at hr ⊢
  unfold RunM.ofEngine
  cases h : m r.engine <;> rw [h] at hr <;> exact hr

section Lives

open Engine

variable {R : Engine → Engine → Prop} [Recedes R]

theorem Rule.honours_register (s : SiteId) (rule : Rule) : Honours R id (rule.register s) := by
  cases rule with
  | methodDecl r =>
    have hdecl : ∀ e : Engine, R e (e.addMethodDecl r.key s) := fun e =>
      Recedes.changeDecls e r.key _
    exact honours_modify hdecl
  | methodDef r =>
    have hdef : ∀ e : Engine, R e (e.addMethodDef r.key s) := fun e =>
      Recedes.changeDefs e r.key _
    unfold Rule.register
    dsimp only
    split
    · exact honours_get fun e => Bears.refl e
    · exact honours_modify hdef
  | ivarRead r =>
    have hread : ∀ e : Engine, R e (e.modifyWorld (·.modify r.key.side.module fun x =>
        { x with ivarReads := x.ivarReads.insert s })) := fun e =>
      Recedes.changeIvarReads e r.key.side.module (·.insert s)
    exact honours_modify hread
  | constRead | typeRead | returnCheck | call | globalRead | multiAssign => exact honours_pure _

theorem Rule.related_unregister (s : SiteId) (e : Engine) (rule : Rule) :
    R e (rule.unregister s e) := by
  cases rule with
  | methodDecl r =>
    have hdecl : R e (e.removeMethodDecl r.key s) := Recedes.changeDecls e r.key _
    exact hdecl
  | methodDef r =>
    have hdef : R e (e.removeMethodDef r.key s) := Recedes.changeDefs e r.key _
    exact hdef
  | ivarRead r =>
    have hread : R e (e.modifyWorld (·.modify r.key.side.module fun x =>
        { x with ivarReads := x.ivarReads.erase s })) :=
      Recedes.changeIvarReads e r.key.side.module (·.erase s)
    exact hread
  | constRead | typeRead | returnCheck | call | globalRead | multiAssign => exact Bears.refl e

theorem Engine.honours_createSite (node : NodeId) (rule : Rule) :
    Honours R id (createSite node rule) := by
  have henter : ∀ e : Engine, R e (e.enterSite node rule).2 := fun e =>
    Recedes.enterSite e node rule
  have hschedule : ∀ s (e : Engine), R e (e.schedule s) := fun s e => Recedes.schedule e s
  refine honours_bind (honours_modifyGet henter) fun s => ?_
  refine honours_bind (rule.honours_register s) fun _ => ?_
  exact honours_bind (honours_modify (hschedule s)) fun _ => honours_pure s

namespace Run

variable {r : Run} {destroy : SiteId → EngineM Unit}

theorem related_installEdges
    (hadd : ∀ x ∈ r.effects.pending.edges.toList, ∀ e : Engine, R e (e.addEdge x.1 x.2).2) :
    R r.engine r.installEdges.engine := by
  have hremove : ∀ (x : VertexId × VertexId) (e : Engine), R e (e.removeEdge x.1 x.2).2 :=
    fun x e => Recedes.removeEdge e x.1 x.2
  exact Bears.trans (related_foldl (fun x hx => hadd x (List.mem_of_mem_filter hx)) r.engine)
    (related_foldl (fun x _ => hremove x) _)

theorem honours_createSites (asks : List (SiteKey × NodeId × Rule))
    (sites : OrderedMap SiteKey SiteId) : Honours R id (createSites asks sites) := by
  induction asks generalizing sites with
  | nil => exact honours_pure _
  | cons ask asks ih =>
    obtain ⟨key, node, rule⟩ := ask
    exact honours_bind (honours_createSite node rule) fun s => ih (sites.insert key s)

theorem honours_installSites
    (hd : ∀ s, Honours R id (destroy s)) : Honours R Run.engine (installSites destroy) := by
  refine honours_get fun r => ?_
  let bare : Run := { r with effects := {
    installed := { r.effects.installed with sites := {} }
    pending := { r.effects.pending with sites := {} } } }
  refine honours_bind (honours_ofEngine (honours_forM (fun x : SiteKey × SiteId => hd x.2) _))
    (fun _ => ?_) bare
  refine honours_bind (honours_ofEngine (honours_createSites _ _)) fun sites => ?_
  exact honours_modify fun r => Bears.refl r.engine

theorem honours_forgetEach (s : SiteId) (deps : List Dependency) :
    Honours R id (forgetEach s deps) := by
  induction deps with
  | nil => exact honours_pure _
  | cons d deps ih =>
    refine honours_get fun e => ?_
    split
    · have hwatch : R e (e.modifyWorld (·.watch d (·.erase s))) := Recedes.watch e d _
      exact Bears.trans hwatch (ih _)
    · exact Bears.refl e

theorem related_file (s : SiteId) (e : Engine) (d : Dependency) : R e (file s e d) := by
  have hwatch : ∀ e : Engine, R e (e.modifyWorld (·.watch d (·.insert s))) := fun e =>
    Recedes.watch e d _
  cases d with
  | const key =>
    have hname : R e (e.ensureConst key).2 := Bears.ensureConst e key
    exact Bears.trans hname (hwatch _)
  | method | superclass => exact hwatch e

theorem honours_installReads (owner : Owner) : Honours R Run.engine (installReads owner) := by
  cases owner with
  | node n => exact honours_pure _
  | site s =>
    have hbook : ∀ olds news fx, Honours R Run.engine (rebook s olds news fx) := fun olds news fx =>
      honours_bind (honours_ofEngine (honours_forgetEach s olds)) fun _ =>
        honours_modify fun r => related_foldl (fun d _ e => related_file s e d) r.engine
    have hsame : ∀ {m : RunM Unit} {olds news fx r}, m r = rebook s olds news fx r →
        R r.engine (leftBy m r).engine := fun h => by
      unfold leftBy
      rw [h]
      exact hbook _ _ _ _
    exact honours_bind (fun _ => hsame installMethodReads_eq) fun _ =>
      honours_bind (fun _ => hsame installConstReads_eq) fun _ _ => hsame installSuperclassReads_eq

theorem related_installWith
    (hd : ∀ s, Honours R id (destroy s)) (owner : Owner)
    (hadd : ∀ x ∈ r.effects.pending.edges.toList, ∀ e : Engine, R e (e.addEdge x.1 x.2).2) :
    R r.engine (leftBy (installWith destroy owner) r).engine := by
  have hscratch : ∀ r : Run, R r.engine r.installScratch.engine := fun r => by
    have hbury : ∀ (x : ScratchKey × VertexId) (e : Engine), R e (e.destroyVertex x.2) :=
      fun x e => Recedes.destroyVertex e x.2
    exact related_foldl (fun x _ => hbury x) r.engine
  have hrest := honours_bind (honours_installSites hd) fun _ =>
    honours_bind (honours_modify (f := installDiagnostics) fun r => Bears.refl r.engine) fun _ =>
      honours_bind (honours_installReads owner) fun _ => honours_modify hscratch
  exact Bears.trans (related_installEdges hadd) (hrest r.installEdges)

end Run

namespace Engine

theorem leftBy_onSiteEffects (s : SiteId) (fx : Effects) (work : RunM Unit)
    (finish : Engine → Engine) (e : Engine) :
    let r := leftBy work ⟨e.modifySite s fun x => { x with effects := {} }, fx⟩
    leftBy (onSiteEffects s fx work finish) e =
      finish (r.engine.modifySite s fun x => { x with effects := r.effects }) := by
  unfold leftBy onSiteEffects
  cases work ⟨e.modifySite s fun x => { x with effects := {} }, fx⟩ <;> rfl

theorem related_onSiteEffects (s : SiteId) (fx : Effects) {work : RunM Unit}
    (hwork : ∀ e, R e (leftBy work ⟨e, fx⟩).engine) (e : Engine) :
    R e (leftBy (onSiteEffects s fx work id) e) := by
  have heffects : ∀ (e : Engine) fx, R e (e.modifySite s fun x => { x with effects := fx }) :=
    fun e fx => Recedes.effects e s fx
  rw [leftBy_onSiteEffects]
  have hr := hwork (e.modifySite s fun x => { x with effects := {} })
  exact Bears.trans (heffects e {}) (Bears.trans hr (heffects _ _))

theorem honours_destroyWithin (n : Nat) (s : SiteId) : Honours R id (destroyWithin n s) := by
  induction n generalizing s with
  | zero => exact honours_pure _
  | succ n ih =>
    refine honours_get fun e => ?_
    cases hx : e.site? s with
    | none => exact Bears.refl e
    | some x =>
      dsimp only
      split
      · exact Bears.refl e
      · next hlive =>
        have hmarked := x.rule.related_unregister (R := R) s (e.markDestroyed s x)
        -- nothing is asked for any more, so no edge is added
        have hwork := related_onSiteEffects (R := R) s x.effects.discard
          (fun e => Run.related_installWith (r := ⟨e, x.effects.discard⟩) ih (.site s)
            fun _ hx => absurd hx List.not_mem_nil) (x.rule.unregister s (e.markDestroyed s x))
        have hdestroy := Recedes.destroy e s x _ hx (Bool.eq_false_iff.2 hlive)
          (Bears.trans hmarked hwork)
        rw [leftBy_onSiteEffects] at hdestroy
        have hleft := leftBy_onSiteEffects s x.effects.discard
          (Run.installWith (destroyWithin n) (.site s)) (fun e => { e with
            sites := e.sites.release s.index
            stats := e.stats.destroy x.rule.name }) (x.rule.unregister s (e.markDestroyed s x))
        exact hleft ▸ hdestroy

theorem honours_destroySite (s : SiteId) : Honours R id (destroySite s) :=
  honours_get fun e => honours_destroyWithin (e.sites.size + 1) s e

theorem related_install (owner : Owner) {r : Run}
    (hadd : ∀ x ∈ r.effects.pending.edges.toList, ∀ e : Engine, R e (e.addEdge x.1 x.2).2) :
    R r.engine (leftBy (install owner) r).engine :=
  Run.related_installWith honours_destroySite owner hadd

theorem honours_ofStaging {m : Staging Unit} (hm : Staging.Keeps R m) :
    Honours R Run.engine (ofStaging m) := by
  intro r
  unfold leftBy ofStaging
  cases h : m r with
  | none => exact Bears.refl r.engine
  | some a => exact hm r a.1 a.2 h

end Engine

end Lives

namespace Engine

variable {R : Engine → Engine → Prop} [Endures R]

theorem honours_install (owner : Owner) : Honours R Run.engine (install owner) := fun _ =>
  related_install owner fun x _ e => Endures.addEdge e x.1 x.2

theorem honours_runSite (s : SiteId) : Honours R id (runSite s) := by
  refine honours_get fun e => ?_
  cases hx : e.site? s with
  | none => exact Bears.refl e
  | some x =>
    dsimp only
    split
    · exact Bears.refl e
    · have hcount : R e { e with stats := { e.stats with runs := e.stats.runs + 1 } } :=
        Recedes.count e
      have hrun := honours_bind (honours_ofStaging (x.rule.keeps_run x.node)) fun _ =>
        honours_install (R := R) (.site s)
      exact Bears.trans hcount (related_onSiteEffects s x.effects.discard (fun e => hrun ⟨e, _⟩) _)

theorem honours_drain (hq : ∀ (e : Engine) (queue : RunQueue), R e { e with queue })
    (n runs : Nat) : Honours R id (drain n runs) := by
  have htake : ∀ e : Engine, R e e.takeNext.2 := fun e => hq e _
  induction n generalizing runs with
  | zero =>
    refine honours_bind (honours_modifyGet htake) fun next => ?_
    cases next with
    | none => exact honours_pure _
    | some s => exact honours_throw _
  | succ n ih =>
    refine honours_bind (honours_modifyGet htake) fun next => ?_
    cases next with
    | none => exact honours_pure _
    | some s => exact honours_bind (honours_runSite s) fun _ => ih _

theorem honours_runAll (hq : ∀ (e : Engine) (queue : RunQueue), R e { e with queue }) :
    Honours R id runAll :=
  honours_get fun e => honours_drain hq e.config.runLimit 0 e

end Engine

namespace Engine

theorem takeNext_none {e e' : Engine} (h : e.takeNext = (none, e')) :
    e' = { e with queue := .empty } ∧ ∀ s ∈ e.queue.toList, e.isLive s = false := by
  unfold takeNext at h
  dsimp only at h
  obtain ⟨hhead, rfl⟩ := Prod.mk.inj h
  have hnil := List.head?_eq_none_iff.1 hhead
  rw [RunQueue.eq_empty hnil]
  rw [RunQueue.toList_skip] at hnil
  exact ⟨rfl, fun s hs => by simpa using List.dropWhile_eq_nil_iff.1 hnil s hs⟩

theorem takeNext_some {e e' : Engine} {s : SiteId} (h : e.takeNext = (some s, e')) :
    ∃ gone queue, e.queue.toList = gone ++ s :: queue.toList ∧ e' = { e with queue } ∧
      e.isLive s = true ∧ ∀ x ∈ gone, e.isLive x = false := by
  unfold takeNext at h
  dsimp only at h
  obtain ⟨hhead, rfl⟩ := Prod.mk.inj h
  obtain ⟨rest, hrest⟩ := List.head?_eq_some_iff.1 hhead
  have hpop : (e.queue.skip fun s => !e.isLive s).pop.toList = rest := congrArg List.tail hrest
  rw [RunQueue.toList_skip] at hrest
  refine ⟨e.queue.toList.takeWhile fun s => !e.isLive s, _, ?_, rfl, ?_, fun x hx => ?_⟩
  · rw [hpop, ← hrest, List.takeWhile_append_dropWhile]
  · have hfirst := List.head?_dropWhile_not (fun s => !e.isLive s) e.queue.toList
    rw [hrest] at hfirst
    simpa using hfirst
  · simpa using List.mem_takeWhile_imp hx

section Drain

variable {e e' : Engine} {s : SiteId}

theorem drain_of_none (h : e.takeNext = (none, e')) (n runs : Nat) :
    drain n runs e = .ok runs e' := by
  cases n <;>
    simp [drain, bind, EStateM.bind, modifyGet, MonadStateOf.modifyGet, EStateM.modifyGet, h, pure,
      EStateM.pure]

theorem drain_zero_of_some (h : e.takeNext = (some s, e')) (runs : Nat) :
    drain 0 runs e = .error (.fuelExhausted runs) e' := by
  simp [drain, bind, EStateM.bind, modifyGet, MonadStateOf.modifyGet, EStateM.modifyGet, h, throw,
    throwThe, MonadExceptOf.throw, EStateM.throw]

theorem drain_succ_of_some (h : e.takeNext = (some s, e')) (n runs : Nat) :
    drain (n + 1) runs e = match runSite s e' with
      | .ok _ e => drain n (runs + 1) e
      | .error f e => .error f e := by
  simp only [drain, bind, EStateM.bind, modifyGet, MonadStateOf.modifyGet, EStateM.modifyGet, h]
  cases runSite s e' <;> rfl

end Drain

end Engine

end TypeFlow
