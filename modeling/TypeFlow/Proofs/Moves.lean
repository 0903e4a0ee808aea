import TypeFlow.Proofs.Entries
import TypeFlow.Proofs.Stock

/-!
# Moves

A move says exactly what is done to an engine, where a step only says which kind of change it is.
Beside the effects in work it keeps what the work is for: the children that are still to be entered,
the records that are being written or torn down, and a log of what became of records. Every move is
a number of steps.
-/

set_option autoImplicit false

namespace TypeFlow

open Machine

def Rule.Complete : Rule → Prop
  | .methodDef r => ∀ name ∈ r.formals.positional, (r.args.get? name).isSome = true
  | _ => True

abbrev Ask := SiteKey × NodeId × Rule

namespace Effects

structure Beside (fx fx' : Effects) : Prop extends Alike fx fx' where
  edges : fx'.installed.edges = fx.installed.edges
  askedEdges : fx'.pending.edges = fx.pending.edges
  ordinals : fx'.pending.ordinals = fx.pending.ordinals

def addPrivate (fx : Effects) (label : String) (v : VertexId) : Effects :=
  (fx.nextScratchKey label).2.addScratch (fx.nextScratchKey label).1 v

structure Neat (fx : Effects) : Prop where
  edges : fx.installed.edges.toList.Nodup
  sites : fx.installed.sites.keys.Nodup
  askedEdges : fx.pending.edges.toList.Nodup
  askedSites : fx.pending.sites.keys.Nodup

structure Modest (n : NodeId) (w : World) (fx : Effects) : Prop where
  fresh : fx.installed = {}
  edges : fx.pending.edges.toList.Nodup
  sites : fx.pending.sites.keys.Nodup
  asked : ∀ x ∈ fx.pending.sites.values, x.1 = n ∧ x.2.Known w ∧ x.2.Complete
  reads : ∀ d, ¬fx.pending.Reads d
  bare : fx.pending.scratch = {}

end Effects

structure Task where
  work : Work
  effects : Effects
  /-- All sites that were children of the owner at some time of the work. -/
  limbo : List SiteId := []
  /-- The node of the owner. -/
  home : Option NodeId := none
  /-- Children that are still to be entered. -/
  asks : List Ask := []
  /-- Children that are not listed in the effects: those that were taken out, and new ones. -/
  out : List SiteId := []

def Task.frame (t : Task) : Frame := ⟨t.work, t.effects, t.limbo⟩

/-- What becomes of records. -/
inductive Event where
  | start (n : NodeId)
  | adopt (new old : NodeId)
  | drop (n : NodeId)
  /-- Slots that were given up become free. -/
  | sweep
  /-- A run is broken off or refused. -/
  | spill
  deriving DecidableEq, Repr

structure Opening where
  node : NodeId
  blocked : Bool := false

structure Progress where
  /-- Private vertices that are to be destroyed. -/
  hand : List VertexId := []
  /-- What is left of a record that is being torn down. -/
  lifted : Option (NodeId × NodeRecord) := none
  /-- The records being written, the innermost one first. -/
  opened : List Opening := []
  log : List Event := []

namespace Progress

def note (d : Progress) (event : Event) : Progress := { d with log := d.log ++ [event] }

def notes (d : Progress) (events : List Event) : Progress := { d with log := d.log ++ events }

theorem notes_nil (d : Progress) : d.notes [] = d := by
  simp [notes]

theorem notes_append (d : Progress) (es es' : List Event) :
    d.notes (es ++ es') = (d.notes es).notes es' := by
  simp [notes]

def liftedVertices (d : Progress) : List VertexId := d.lifted.elim [] fun x => x.2.vertices

def Opens (d : Progress) (n : NodeId) : Prop := ∃ o ∈ d.opened, o.node = n

end Progress

structure State where
  engine : Engine
  tasks : List Task := []
  progress : Progress := {}

namespace State

def machine (s : State) : Machine :=
  ⟨s.engine, s.tasks.map Task.frame, s.progress.hand ++ s.progress.liftedVertices⟩

end State

structure Engine.Quiet (e e' : Engine) : Prop extends Engine.Aside e e' where
  blocks : e'.blocks = e.blocks
  entries : World.Stays e.world e'.world
  nextNode : e.nextNode ≤ e'.nextNode
  globals : ∀ name v, e.globals.get? name = some v → e'.globals.get? name = some v
  queue : ∀ s ∈ e.queue.toList, e.isLive s = true → s ∈ e'.queue.toList

structure Engine.Upholds (e e' : Engine) : Prop where
  world : World.Agrees e.world e'.world
  globals : ∀ name v, e.globals.get? name = some v → e'.globals.get? name = some v
  shared : ∀ types v, e.graph.shared.get? types = some v → e'.graph.shared.get? types = some v

def Rule.Ran (rule : Rule) (node : NodeId) (e : Engine) (fx : Effects) : Prop :=
  ∃ (r r' : Run) (sites : OrderedMap SiteKey SiteId), r.effects.pending = {} ∧
    r.engine.world.Closed ∧ rule.Known r.engine.world ∧
    rule.run node r = some ((), r') ∧ r'.engine.Upholds e ∧
    (r'.effects.pending.sites = {} → sites = {}) ∧ fx = {
      installed := {
        edges := r'.effects.pending.edges
        sites
        diagnostics := r'.effects.pending.diagnostics
        methodReads := r'.effects.pending.methodReads
        constReads := r'.effects.pending.constReads
        superclassReads := r'.effects.pending.superclassReads
        scratch := r'.effects.pending.scratch } }

structure NodeRecord.Annotates (f : NodeRecord → NodeRecord) : Prop where
  vertices : ∀ r, (f r).vertices = r.vertices
  effects : ∀ r, (f r).effects = r.effects
  sites : ∀ r, (f r).sites = r.sites
  registrations : ∀ r, (f r).registrations = r.registrations
  block : ∀ r, (f r).block = r.block

def Task.Reaches (e : Engine) (t : Task) (n : NodeId) : Prop :=
  t.home = some n ∨ ∃ b x, e.block? b = some x ∧ x.node = n

namespace State

inductive Move : State → State → Prop where
  | aside {e e' : Engine} {ts : List Task} {d : Progress} (h : e.Quiet e') :
    Move ⟨e, ts, d⟩ ⟨e', ts, d⟩
  | newVertex {e : Engine} {ts : List Task} {d : Progress} (label : String) :
    Move ⟨e, ts, d⟩ ⟨(e.newVertex label none).2, ts, d⟩
  | source {e : Engine} {ts : List Task} {d : Progress} {types : List Ty}
    (h : ∀ t ∈ types, t.Known e.world) : Move ⟨e, ts, d⟩ ⟨(e.source types).2, ts, d⟩
  | sweep {e : Engine} {d : Progress} (ho : d.opened = []) :
    Move ⟨e, [], d⟩ ⟨e.reclaim.2, [], d.note .sweep⟩
  -- records are written
  | start {e : Engine} {d : Progress} (n : NodeId) (path : String) (span : Span) (h : d.lifted =
    none) :
    Move ⟨e, [], d⟩ ⟨{ e with nodes := e.nodes.insert n { path, span } }, [],
      { d.note (.start n) with opened := ⟨n, false⟩ :: d.opened }⟩
  | annotate {e : Engine} {ts : List Task} {d : Progress} {f : NodeRecord → NodeRecord} (n : NodeId)
    (h : NodeRecord.Annotates f) : Move ⟨e, ts, d⟩ ⟨e.modifyNode n f, ts, d⟩
  | ownVertex {e : Engine} {ts : List Task} {d : Progress} (n : NodeId) (label : String) :
    Move ⟨e, ts, d⟩ ⟨(e.newVertex label (some n)).2.modifyNode n fun x =>
      { x with vertices := x.vertices ++ [(e.newVertex label (some n)).1] }, ts, d⟩
  | ownSource {e : Engine} {ts : List Task} {d : Progress} {n : NodeId} {t : Ty} (hn : d.Opens n)
    (h : t.Known e.world) :
    Move ⟨e, ts, d⟩ ⟨(e.newSource [t] (some n)).2.modifyNode n fun x =>
      { x with vertices := x.vertices ++ [(e.newSource [t] (some n)).1] }, ts, d⟩
  | define {e : Engine} {ts : List Task} {d : Progress} {n : NodeId} {entry : Entry} (hn : d.Opens
    n)
    (h : entry.Known e.world) : Move ⟨e, ts, d⟩ ⟨e.define n entry, ts, d⟩
  | installBlock {e : Engine} {ts : List Task} {d : Progress} {b : Block} {rest : List Opening}
    (returns : List NodeId) (h : d.opened = ⟨b.node, false⟩ :: rest) :
    Move ⟨e, ts, d⟩
      ⟨e.installBlock b returns, ts, { d with opened := ⟨b.node, true⟩ :: rest }⟩
  | openNode {e : Engine} {d : Progress} {n : NodeId} {fx : Effects} (hl : d.lifted = none)
    (hn : d.Opens n) (h : fx.Modest n e.world) :
    Move ⟨e, [], d⟩ ⟨e, [{ work := .node n, effects := fx, home := some n }], d⟩
  | closeNode {e : Engine} {d : Progress} {t : Task} {n : NodeId} {o : Opening} {rest : List
    Opening}
    (ret : Option VertexId) (nameSpan : Option Span) (hw : t.work = .node n)
    (ho : d.opened = o :: rest) (hn : o.node = n) (hp : t.effects.pending.scratch = {})
    (hout : t.out = []) :
    Move ⟨e, [t], d⟩
      ⟨e.modifyNode n fun x => { x with ret, nameSpan, effects := t.effects }, [],
        { d with opened := rest }⟩
  | adopt {e : Engine} {d : Progress} (path : String) (rename : NodeId → NodeId) (new : Node)
    (old : NodeId) (h : d.lifted = none) :
    Move ⟨e, [], d⟩ ⟨e.adoptNode path rename new old, [], d.note (.adopt new.id old)⟩
  -- records are torn down
  | lift {e : Engine} {d : Progress} {n : NodeId} {r : NodeRecord} (h : e.nodes.get? n = some r)
    (hh : d.hand = []) (hl : d.lifted = none) (ho : d.opened = []) :
    Move ⟨e, [], d⟩ ⟨{ e with nodes := e.nodes.erase n }, [],
      { d.note (.drop n) with lifted := some (n, r) }⟩
  | miss {e : Engine} {d : Progress} {n : NodeId} (h : e.nodes.get? n = none) (ho : d.opened = []) :
    Move ⟨e, [], d⟩ ⟨e, [], d.note (.drop n)⟩
  | openLifted {e : Engine} {d : Progress} {n : NodeId} {r : NodeRecord}
    (hl : d.lifted = some (n, r)) (hr : r.effects.installed.scratch = {}) :
    Move ⟨e, [], d⟩ ⟨e, [{ work := .node n, effects := r.effects.discard }],
      { d with lifted := some (n, { r with effects := {} }) }⟩
  | dropNode {e : Engine} {d : Progress} {t : Task} {n : NodeId} (hw : t.work = .node n)
    (he : t.effects.installed.edges = {}) (hs : t.effects.holdings = [])
    (hc : t.effects.installed.sites = {}) (hout : t.out = []) :
    Move ⟨e, [t], d⟩ ⟨e, [], d⟩
  | clearSite {e : Engine} {d : Progress} {n : NodeId} {r : NodeRecord} {s : SiteId}
    {rest : List SiteId} (hl : d.lifted = some (n, r)) (hs : r.sites.toList = s :: rest)
    (h : e.isLive s = false) :
    Move ⟨e, [], d⟩ ⟨e, [], { d with lifted := some (n, { r with sites := ⟨rest⟩ }) }⟩
  | unregister {e : Engine} {d : Progress} {n : NodeId} {r : NodeRecord} {regs : List Registration}
    {reg : Registration} (hl : d.lifted = some (n, r)) (hr : r.registrations = regs ++ [reg]) :
    Move ⟨e, [], d⟩ ⟨e.unregister (.node n) reg, [],
      { d with lifted := some (n, { r with registrations := regs }) }⟩
  | removeBlock {e : Engine} {d : Progress} {n : NodeId} {r : NodeRecord}
    (hl : d.lifted = some (n, r)) :
    Move ⟨e, [], d⟩ ⟨r.block.elim e e.removeBlock, [],
      { d with lifted := some (n, { r with block := none }) }⟩
  | buryLifted {e : Engine} {d : Progress} {n : NodeId} {r : NodeRecord} {v : VertexId}
    {vs : List VertexId} (hl : d.lifted = some (n, r)) (hh : d.hand = [])
    (hv : r.vertices = v :: vs) :
    Move ⟨e, [], d⟩ ⟨e.destroyVertex v, [],
      { d with lifted := some (n, { r with vertices := vs }) }⟩
  | putDown {e : Engine} {d : Progress} {n : NodeId} {r : NodeRecord} (hl : d.lifted = some (n, r))
    (he : r.effects = {}) (hs : r.sites = {}) (hr : r.registrations = []) (hb : r.block = none)
    (hv : r.vertices = []) : Move ⟨e, [], d⟩ ⟨e, [], { d with lifted := none }⟩
  -- the works themselves
  /-- The first live site leaves the queue and runs. -/
  | beginRun {e : Engine} {d : Progress} {s : SiteId} {x : Site} {queue : RunQueue}
    (hl : d.lifted = none) (hx : e.site? s = some x) (hlive : x.destroyed = false)
    (hq : ∀ u ∈ e.queue.toList, e.isLive u = true → u = s ∨ u ∈ queue.toList) :
    Move ⟨e, [], d⟩ ⟨{ e.modifySite s fun x => { x with effects := {} } with queue },
      [{ work := .run s, effects := x.effects.discard, home := some x.node }], d⟩
  | endRun {e : Engine} {ts : List Task} {d : Progress} {t : Task} {s : SiteId} (hw : t.work =
    .run s)
    (hp : t.effects.pending = {}) (hout : t.out = [])
    (hran : ∀ x, e.site? s = some x → x.rule.Ran x.node e t.effects) :
    Move ⟨e, t :: ts, d⟩ ⟨e.modifySite s fun x => { x with effects := t.effects }, ts, d⟩
  | breakRun {e : Engine} {ts : List Task} {d : Progress} {t : Task} {s : SiteId}
    (hw : t.work = .run s) (hout : t.out = []) :
    Move ⟨e, t :: ts, d⟩
      ⟨e.modifySite s fun x => { x with effects := t.effects }, ts, d.note .spill⟩
  /-- A site leaves the queue and does not run. -/
  | refuse {e : Engine} {d : Progress} (queue : RunQueue) :
    Move ⟨e, [], d⟩ ⟨{ e with queue }, [], d.note .spill⟩
  | beginDestroy {e : Engine} {ts : List Task} {d : Progress} {s : SiteId} {x : Site}
    (hx : e.site? s = some x) (hlive : x.destroyed = false)
    (hs : ∀ t ∈ ts.head?, s ∈ t.limbo) :
    Move ⟨e, ts, d⟩ ⟨(e.destroying s x).engine,
      { work := .destroy s, effects := x.effects.discard } :: ts, d⟩
  | endDestroy {e : Engine} {ts : List Task} {d : Progress} {t : Task} {s : SiteId}
    (hw : t.work = .destroy s) (h : t.effects = {}) (hout : t.out = []) :
    Move ⟨e, t :: ts, d⟩ ⟨{ e with sites :=
      (e.modifySite s fun x => { x with effects := t.effects }).sites.release s.index }, ts, d⟩
  -- what an owner asks for
  | jot {e : Engine} {ts : List Task} {d : Progress} {t : Task} {fx : Effects}
    (h : t.effects.Beside fx) : Move ⟨e, t :: ts, d⟩ ⟨e, { t with effects := fx } :: ts, d⟩
  | askEdge {e : Engine} {ts : List Task} {d : Progress} {t : Task} (src dst : VertexId) :
    Move ⟨e, t :: ts, d⟩ ⟨e, { t with effects := t.effects.addEdge src dst } :: ts, d⟩
  | askSite {e : Engine} {ts : List Task} {d : Progress} {t : Task} {node : NodeId} {rule : Rule}
    (key : SiteKey) (hh : t.home ≠ none) (hn : t.Reaches e node) (h : rule.Known e.world)
    (hc : rule.Complete) :
    Move ⟨e, t :: ts, d⟩ ⟨e, { t with effects := t.effects.addSite key node rule } :: ts, d⟩
  | read {e : Engine} {ts : List Task} {d : Progress} {t : Task} (dep : Dependency)
    (h : e.world.Knows dep.module) :
    Move ⟨e, t :: ts, d⟩ ⟨e, { t with effects := t.effects.read dep } :: ts, d⟩
  | reuse {e : Engine} {ts : List Task} {d : Progress} {t : Task} {label : String} {v : VertexId}
    (h : t.effects.installed.scratch.get? (t.effects.nextScratchKey label).1 = some v) :
    Move ⟨e, t :: ts, d⟩ ⟨e, { t with effects := t.effects.addPrivate label v } :: ts, d⟩
  | freshVertex {e : Engine} {ts : List Task} {d : Progress} {t : Task} {s : SiteId}
    (hw : t.work = .run s) (label : String) :
    Move ⟨e, t :: ts, d⟩ ⟨(e.newVertex label none).2,
      { t with effects := t.effects.addPrivate label (e.newVertex label none).1 } :: ts, d⟩
  | freshSource {e : Engine} {ts : List Task} {d : Progress} {t : Task} {s : SiteId}
    {types : List Ty} (hw : t.work = .run s) (label : String)
    (h : ∀ t ∈ types, t.Known e.world) :
    Move ⟨e, t :: ts, d⟩ ⟨(e.newSource types none).2,
      { t with effects := t.effects.addPrivate label (e.newSource types none).1 } :: ts, d⟩
  -- what is asked for is put in place
  | installEdges {e : Engine} {ts : List Task} {d : Progress} {t : Task} :
    Move ⟨e, t :: ts, d⟩ ⟨(Run.mk e t.effects).installEdges.engine,
      { t with effects := (Run.mk e t.effects).installEdges.effects } :: ts, d⟩
  | detach {e : Engine} {ts : List Task} {d : Progress} {t : Task} :
    Move ⟨e, t :: ts, d⟩ ⟨e, { t with
      effects := t.effects.detach
      limbo := t.effects.installed.sites.values ++ t.limbo
      asks := t.effects.pending.sites.entries
      out := t.effects.installed.sites.values ++ t.out } :: ts, d⟩
  | placeSite {e : Engine} {ts : List Task} {d : Progress} {t : Task} {ask : Ask}
    (ha : ask ∈ t.asks)
    (h : ask.2.2.Known e.world) :
    Move ⟨e, t :: ts, d⟩ ⟨(e.placeSite ask.2.1 ask.2.2).2, { t with
      limbo := (e.placeSite ask.2.1 ask.2.2).1 :: t.limbo
      out := (e.placeSite ask.2.1 ask.2.2).1 :: t.out } :: ts, d⟩
  /-- Children that are out come back, all that live. -/
  | attach {e : Engine} {ts : List Task} {d : Progress} {t : Task} {sites : OrderedMap SiteKey
    SiteId}
    (h : ∀ s ∈ sites.values, s ∈ t.limbo) (hk : sites.keys.Nodup)
    (hn : t.effects.installed.sites = {}) (hc : ∀ s, sites.values.count s ≤ t.out.count s)
    (hd : ∀ s ∈ t.out, s ∈ sites.values ∨ e.isLive s = false) :
    Move ⟨e, t :: ts, d⟩ ⟨e, { t with effects := t.effects.attach sites, out := [] } :: ts, d⟩
  | note {e : Engine} {ts : List Task} {d : Progress} {t : Task} {s : SiteId} {dep : Dependency}
    (hs : t.work.site? = some s) (h : e.world.Files dep) :
    Move ⟨e, t :: ts, d⟩ ⟨e.modifyWorld (·.watch dep (·.insert s)),
      { t with effects := t.effects.mapInstalled (·.addRead dep) } :: ts, d⟩
  | forget {e : Engine} {ts : List Task} {d : Progress} {t : Task} {s : SiteId} {dep : Dependency}
    (hs : t.work.site? = some s) :
    Move ⟨e, t :: ts, d⟩ ⟨e.modifyWorld (·.watch dep (·.erase s)),
      { t with effects := t.effects.mapInstalled (·.dropRead dep) } :: ts, d⟩
  | shed {e : Engine} {ts : List Task} {d : Progress} {t : Task} :
    Move ⟨e, t :: ts, d⟩ ⟨e, { t with effects := t.effects.shed } :: ts,
      { d with hand := t.effects.stale ++ d.hand }⟩
  | bury {e : Engine} {ts : List Task} {d : Progress} {v : VertexId} {vs : List VertexId}
    (h : d.hand = v :: vs) : Move ⟨e, ts, d⟩ ⟨e.destroyVertex v, ts, { d with hand := vs }⟩

/-- Any number of moves. -/
abbrev Moves : State → State → Prop := Relation.ReflTransGen Move

structure Neat (s : State) : Prop where
  tasks : ∀ t ∈ s.tasks, t.effects.Neat
  slots : ∀ u x, s.engine.site? u = some x → x.effects.Neat
  records : ∀ n r, s.engine.record? n = some r → r.effects.Neat
  lifted : ∀ x, s.progress.lifted = some x → x.2.effects.Neat

structure Sound (s : State) : Prop where
  machine : s.machine.Sound
  neat : s.Neat
  complete : ∀ t ∈ s.tasks, ∀ x ∈ t.effects.pending.sites.values, x.2.Complete

variable {s s' s'' : State}

theorem Move.steps (h : Move s s') (hs : s.machine.Sound) : Steps s.machine s'.machine := by
  have hstage : ∀ {fx : Effects} (label : String), fx.Alike (fx.nextScratchKey label).2 :=
    fun _ => ⟨rfl, rfl, rfl, rfl, rfl, rfl, Or.inl rfl, Or.inl rfl, Or.inl rfl, rfl⟩
  cases h with
  | aside h => exact .single (.aside h.toAside)
  | newVertex label => exact .single (.newVertex label none)
  | source h => exact .single (.source h)
  | sweep ho => exact .single .reclaim
  | start n path span h => exact .single (.beginNode n path span)
  | annotate n h => exact .single (.editNode n h.vertices h.effects)
  | ownVertex n label => exact .single (.ownVertex n label)
  | ownSource hn h => exact .single (.ownSource _ h)
  | define hn h => exact Engine.steps_define _ _ h
  | installBlock returns h => exact Engine.steps_installBlock _ _ returns
  | openNode hl hn h =>
    refine .single (.openNode _ (fun x hx => (h.asked x hx).2.1) h.reads ?_)
    exact Effects.holdings_eq_nil.2 ⟨by rw [h.fresh], h.bare⟩
  | @closeNode e d t n o rest ret nameSpan hw ho hn hp hout =>
    obtain ⟨w, fx, limbo, home, asks, out⟩ := t
    subst hw
    exact .single (.closeNode ret nameSpan)
  | @adopt e d path rename new old h =>
    exact Engine.steps_adoptNode path rename e new old hs
  | @lift e d n r h hh hl ho =>
    have hstep : Step ⟨e, [], []⟩ ⟨{ e with nodes := e.nodes.erase n }, [], r.vertices ++ []⟩ :=
      .lift h
    simpa [machine, Progress.liftedVertices, Progress.note, hh,
      hl] using Relation.ReflTransGen.single hstep
  | miss h ho => exact .refl
  | @openLifted e d n r hl hr =>
    have hbare : r.effects.discard.holdings = [] := Effects.holdings_eq_nil.2 ⟨hr, rfl⟩
    have hstep : Step (State.machine ⟨e, [], d⟩)
        ⟨e, [⟨.node n, r.effects.discard, []⟩], d.hand ++ d.liftedVertices⟩ :=
      .openNode n (fun _ hx => absurd hx List.not_mem_nil)
        (fun d => by cases d <;> exact List.not_mem_nil) hbare
    simpa [machine, Task.frame, Progress.liftedVertices, hl] using Relation.ReflTransGen.single
      hstep
  | @dropNode e d t n hw he hs' hc hout =>
    obtain ⟨w, fx, limbo, home, asks, out⟩ := t
    subst hw
    exact .single .dropNode
  | clearSite hl hs' h =>
    simpa [machine, Progress.liftedVertices, hl] using Relation.ReflTransGen.refl
  | @unregister e d n r regs reg hl hr =>
    have hsteps : Steps (State.machine ⟨e, [], d⟩)
        ⟨e.unregister (.node n) reg, [], d.hand ++ d.liftedVertices⟩ :=
      Engine.steps_unregister e _ reg
    simpa [machine, Progress.liftedVertices, hl] using hsteps
  | @removeBlock e d n r hl =>
    have hsteps : Steps (State.machine ⟨e, [], d⟩)
        ⟨r.block.elim e e.removeBlock, [], d.hand ++ d.liftedVertices⟩ := by
      rw [(Engine.exists_removeBlock_eq e r.block).choose_spec]
      exact .single (.aside ⟨rfl, rfl, rfl, rfl, World.Grows.refl _⟩)
    simpa [machine, Progress.liftedVertices, hl] using hsteps
  | @buryLifted e d n r v vs hl hh hv =>
    have hstep : Step ⟨e, [], v :: vs⟩ ⟨e.destroyVertex v, [], vs⟩ := .bury
    simpa [machine, Progress.liftedVertices, hh, hl, hv] using Relation.ReflTransGen.single hstep
  | putDown hl he hs' hr hb hv =>
    simpa [machine, Progress.liftedVertices, hl, hv] using Relation.ReflTransGen.refl
  | @beginRun e d s x queue hl hx hlive hq =>
    have hqueue : Step (State.machine ⟨e, [], d⟩) (State.machine ⟨{ e with queue }, [], d⟩) :=
      .aside ⟨rfl, rfl, rfl, rfl, World.Grows.refl _⟩
    exact (Relation.ReflTransGen.single hqueue).tail (.beginRun hx hlive)
  | refuse queue => exact .single (.aside ⟨rfl, rfl, rfl, rfl, World.Grows.refl _⟩)
  | @endRun e ts d t s hw | @breakRun e ts d t s hw =>
    obtain ⟨w, fx, limbo, home, asks, out⟩ := t
    subst hw
    exact .single .endRun
  | @beginDestroy e ts d s x hx hlive hs' =>
    refine Engine.steps_destroying hx hlive fun f hf => ?_
    rw [List.head?_map] at hf
    obtain ⟨t, ht, rfl⟩ := Option.map_eq_some_iff.1 hf
    exact hs' t ht
  | @endDestroy e ts d t s hw hfx hout =>
    obtain ⟨w, fx, limbo, home, asks, out⟩ := t
    subst hw hfx
    exact .single (.endDestroy Installed.not_reads_empty)
  | jot h => exact .single (.stage h.toAlike)
  | askEdge src dst =>
    exact .single (.stage ⟨rfl, rfl, rfl, rfl, rfl, rfl, Or.inl rfl, Or.inl rfl, Or.inl rfl, rfl⟩)
  | askSite key hh hn h hc => exact .single (.askSite key _ h)
  | read dep h => exact .single (.read h)
  | @reuse e ts d t label v h =>
    exact (Relation.ReflTransGen.single (.stage (hstage label))).tail
      (.reuse (f := { t.frame with effects := (t.effects.nextScratchKey label).2 }) h)
  | @freshVertex e ts d t s hw label =>
    obtain ⟨w, fx, limbo, home, asks, out⟩ := t
    subst hw
    exact (Relation.ReflTransGen.single (.stage (hstage label))).tail (.freshVertex _ label)
  | @freshSource e ts d t s types hw label h =>
    obtain ⟨w, fx, limbo, home, asks, out⟩ := t
    subst hw
    exact (Relation.ReflTransGen.single (.stage (hstage label))).tail (.freshSource _ h)
  | @installEdges e ts d t => exact Run.steps_installEdges ⟨e, t.effects⟩
  | detach => exact .single .detach
  | placeSite ha h => exact Engine.steps_placeSite _ _ h
  | attach h hk hn hc hd => exact .single (.attach h)
  | note hs' h => exact .single (.note hs' h)
  | forget hs' => exact .single (.forget hs')
  | @shed e ts d t =>
    have hstep : Step (State.machine ⟨e, t :: ts, d⟩)
        ⟨e, { t.frame with effects := t.effects.shed } :: ts.map Task.frame,
          t.effects.stale ++ (d.hand ++ d.liftedVertices)⟩ :=
      .shed
    rw [← List.append_assoc] at hstep
    exact .single hstep
  | @bury e ts d v vs h =>
    have hstep : Step ⟨e, ts.map Task.frame, v :: (vs ++ d.liftedVertices)⟩
        ⟨e.destroyVertex v, ts.map Task.frame, vs ++ d.liftedVertices⟩ := .bury
    simpa [machine, Progress.liftedVertices, h] using Relation.ReflTransGen.single hstep

def Busy (s : State) (u : SiteId) : Prop := ∃ t ∈ s.tasks, t.work.site? = some u

section Origins

variable {n : NodeId} {u : SiteId} {x : Site} {r : NodeRecord}

theorem Move.opens (hm : Move s s') (h : s'.progress.Opens n) :
    s.progress.Opens n ∨ s'.progress.log = s.progress.log ++ [.start n] := by
  cases hm with
  | start m path span hl =>
    obtain ⟨o, ho, hn⟩ := h
    rcases List.mem_cons.1 ho with rfl | ho
    · exact .inr (by rw [← hn]; rfl)
    · exact .inl ⟨o, ho, hn⟩
  | installBlock returns ho =>
    obtain ⟨o, hmem, hn⟩ := h
    rcases List.mem_cons.1 hmem with rfl | hmem
    · exact .inl ⟨_, List.mem_of_mem_head? (congrArg List.head? ho), hn⟩
    · exact .inl ⟨o, ho ▸ .tail _ hmem, hn⟩
  | closeNode ret nameSpan hw ho hn hp hout =>
    obtain ⟨o, hmem, hn⟩ := h
    exact .inl ⟨o, ho ▸ .tail _ hmem, hn⟩
  | _ => exact .inl h

/-- What is lifted after a move was lifted before, if with more effects, or is taken up now. -/
theorem Move.lifts (hm : Move s s') (h : s'.progress.lifted = some (n, r)) :
    (∃ r0, s.progress.lifted = some (n, r0) ∧ (r.effects = r0.effects ∨ r.effects = {})) ∨
      s.engine.record? n = some r ∧ s'.progress.log = s.progress.log ++ [.drop n] := by
  cases hm with
  | lift hx hh hl ho =>
    cases h
    exact .inr ⟨hx, rfl⟩
  | openLifted hl hr =>
    cases h
    exact .inl ⟨_, hl, .inr rfl⟩
  | clearSite hl | unregister hl | removeBlock hl | buryLifted hl =>
    cases h
    exact .inl ⟨_, hl, .inl rfl⟩
  | putDown hl he hs hr hb hv => cases h
  | _ => exact .inl ⟨r, h, .inl rfl⟩

theorem Move.busy (hm : Move s s') (h : s'.Busy u) :
    s.Busy u ∨ ∀ x, s'.engine.site? u = some x → x.effects = {} := by
  obtain ⟨t, ht, hw⟩ := h
  have hempty : ∀ (e : Engine) {g : Site → Site}, (∀ x, (g x).effects = {}) →
      ∀ x, (e.modifySite u g).site? u = some x → x.effects = {} := fun e g hg x hx => by
    rw [Engine.site?_modifySite, if_pos rfl] at hx
    obtain ⟨y, -, rfl⟩ := Option.map_eq_some_iff.1 hx
    exact hg y
  cases hm with
  | openNode | openLifted =>
    rw [List.mem_singleton.1 ht] at hw
    cases hw
  | closeNode | dropNode => cases ht
  | beginRun =>
    rw [List.mem_singleton.1 ht] at hw
    cases hw
    exact .inr (hempty _ fun _ => rfl)
  | @beginDestroy e ts d v y hy hlive hs =>
    rcases List.mem_cons.1 ht with rfl | ht
    · cases hw
      refine .inr fun x hx => hempty e (g := fun x => { x with destroyed := true, effects := {} })
        (fun _ => rfl) x ?_
      rw [← hx]
      unfold Engine.site?
      rw [Engine.sites_destroying]
    · exact .inl ⟨t, ht, hw⟩
  | endRun | breakRun | endDestroy => exact .inl ⟨t, .tail _ ht, hw⟩
  | jot | askEdge | askSite | read | reuse | freshVertex | freshSource | installEdges | detach
  | placeSite | attach | note | forget | shed =>
    rcases List.mem_cons.1 ht with rfl | ht
    · exact .inl ⟨_, .head _, hw⟩
    · exact .inl ⟨t, .tail _ ht, hw⟩
  | _ => exact .inl ⟨t, ht, hw⟩

/-- A slot was there before, up to the names in its messages, or it is emptied, or work on the site
ends and its effects are put back. -/
theorem Move.slot (hm : Move s s') (hx : s'.engine.site? u = some x) :
    (∃ y diagnostics, s.engine.site? u = some y ∧ x.destroyed = y.destroyed ∧
      x.effects = { y.effects with installed := { y.effects.installed with diagnostics } }) ∨
    x.effects = {} ∨ ∃ t, s.tasks = t :: s'.tasks ∧ x.effects = t.effects ∧
      t.work = .run u ∧ ∃ y, s.engine.site? u = some y ∧ x.destroyed = y.destroyed := by
  have keep : ∀ {e e' : Engine}, e'.sites = e.sites → e'.site? u = some x →
      ∃ y diagnostics, e.site? u = some y ∧ x.destroyed = y.destroyed ∧
        x.effects = { y.effects with installed := { y.effects.installed with diagnostics } } :=
    fun h hx => ⟨x, _, (congrArg (Slots.get? · u.index) h).symm.trans hx, rfl, rfl⟩
  have change : ∀ {e : Engine} {v : SiteId} {g : Site → Site}, (e.modifySite v g).site? u = some x →
      (∃ y, v = u ∧ e.site? u = some y ∧ x = g y) ∨ e.site? u = some x := fun hx => by
    rw [Engine.site?_modifySite] at hx
    split at hx
    · next hv =>
      obtain ⟨y, hy, rfl⟩ := Option.map_eq_some_iff.1 hx
      exact .inl ⟨y, hv, hy, rfl⟩
    · exact .inr hx
  cases hm with
  | aside hq => exact .inl (keep hq.sites hx)
  | @sweep e d ho => exact .inl ⟨x, _, (Engine.site?_reclaim e u).symm.trans hx, rfl, rfl⟩
  | define => exact .inl (keep (Engine.SameStock.enter _ _ _).sites hx)
  | @adopt e d path rename new old hl =>
    cases hr : e.record? old with
    | none =>
      rw [Engine.adoptNode_none hr] at hx
      exact .inl (keep rfl hx)
    | some record =>
      rw [Engine.site?_adoptNode hr] at hx
      obtain ⟨y, hy, rfl⟩ := Option.map_eq_some_iff.1 hx
      obtain ⟨diagnostics, hfx⟩ := Engine.relabel_iterate_effects y (record.sites.toList.count u)
      exact .inl ⟨y, diagnostics, hy, (Engine.relabel_iterate y _).2, hfx⟩
  | unregister => exact .inl (keep (Engine.SameStock.unregister _ _ _).sites hx)
  | @removeBlock e d n r hl =>
    rw [(Engine.exists_removeBlock_eq e r.block).choose_spec] at hx
    exact .inl (keep rfl hx)
  | buryLifted | bury => exact .inl (keep (Engine.SameStock.adoptGraph _ _).sites hx)
  | beginRun hl hy hlive hq =>
    rcases change hx with ⟨y, rfl, -, rfl⟩ | hx
    · exact .inr (.inl rfl)
    · exact .inl (keep rfl hx)
  | @endRun e ts d t v hw | @breakRun e ts d t v hw =>
    rcases change hx with ⟨y, rfl, hy, rfl⟩ | hx
    · exact .inr (.inr ⟨t, rfl, rfl, hw, y, hy, rfl⟩)
    · exact .inl (keep rfl hx)
  | @beginDestroy e ts d v y hy hlive hs =>
    have hx : (e.modifySite v fun x => { x with destroyed := true, effects := {} }).site? u =
        some x := by
      rw [← hx]
      unfold Engine.site?
      rw [Engine.sites_destroying]
    rcases change hx with ⟨y, rfl, -, rfl⟩ | hx
    · exact .inr (.inl rfl)
    · exact .inl (keep rfl hx)
  | endDestroy hw hfx =>
    rcases change hx with ⟨y, rfl, hy, rfl⟩ | hx
    · exact .inr (.inl hfx)
    · exact .inl (keep rfl hx)
  | installEdges => exact .inl (keep (Engine.SameStock.installEdges _).sites hx)
  | @placeSite e ts d t ask ha hk =>
    have hx : (e.placeSite ask.2.1 ask.2.2).2.sites.get? u.index = some x := hx
    rw [Engine.sites_placeSite] at hx
    rcases Slots.get?_alloc_eq_or e.sites { node := ask.2.1, rule := ask.2.2 } u.index
      with hnew | hold
    · cases hnew.symm.trans hx
      exact .inr (.inl rfl)
    · exact .inl (keep rfl (hold.symm.trans hx))
  | _ => exact .inl (keep rfl hx)

/-- A record was there before with the same effects, or it is empty, or what was asked for in its
name is filed, or it is handed over. -/
theorem Move.record (hm : Move s s') (hr : s'.engine.record? n = some r) :
    (∃ r0, s.engine.record? n = some r0 ∧ r.effects = r0.effects) ∨ r.effects = {} ∨
      (∃ t o, s.tasks = [t] ∧ s.progress.opened = o :: s'.progress.opened ∧ o.node = n ∧
        r.effects = t.effects) ∨
      ∃ old r0, s'.progress.log = s.progress.log ++ [.adopt n old] ∧ s.engine.record? old =
        some r0 ∧
        r.effects = r0.effects := by
  have keep : ∀ {e e' : Engine}, e'.nodes = e.nodes → e'.record? n = some r →
      ∃ r0, e.record? n = some r0 ∧ r.effects = r0.effects :=
    fun h hr => ⟨r, (congrArg (OrderedMap.get? · n) h).symm.trans hr, rfl⟩
  have change : ∀ {e e' : Engine} {m : NodeId} {g : NodeRecord → NodeRecord} {r : NodeRecord},
      e'.nodes = e.nodes → (e'.modifyNode m g).record? n = some r →
      (∀ r, (g r).effects = r.effects) → ∃ r0, e.record? n = some r0 ∧ r.effects = r0.effects :=
    fun {e e' m g r} h hr hg => by
      have hr : (e.nodes.modify m g).get? n = some r := h ▸ hr
      rw [OrderedMap.get?_modify] at hr
      split at hr
      · obtain ⟨r0, hr0, rfl⟩ := Option.map_eq_some_iff.1 hr
        exact ⟨r0, hr0, hg r0⟩
      · exact ⟨r, hr, rfl⟩
  cases hm with
  | aside hq => exact .inl (keep hq.nodes hr)
  | @sweep e d ho => exact .inl (keep (Engine.nodes_reclaim e) hr)
  | start m path span hl =>
    rw [Engine.record?_insert] at hr
    split at hr
    · cases hr
      exact .inr (.inl rfl)
    · exact .inl ⟨r, hr, rfl⟩
  | annotate m ha => exact .inl (change rfl hr ha.effects)
  | ownVertex | ownSource => exact .inl (change rfl hr fun _ => rfl)
  | define =>
    unfold Engine.define at hr
    exact .inl (change (Engine.SameStock.enter _ _ _).nodes hr fun _ => rfl)
  | installBlock =>
    obtain ⟨r1, hr1, hfx1⟩ := change rfl hr fun _ => rfl
    obtain ⟨r0, hr0, hfx0⟩ := change rfl hr1 fun _ => rfl
    exact .inl ⟨r0, hr0, hfx1.trans hfx0⟩
  | @closeNode e d t m o rest ret nameSpan hw ho hn =>
    rw [Engine.record?_modifyNode] at hr
    split at hr
    · next hm =>
      obtain ⟨r0, -, rfl⟩ := Option.map_eq_some_iff.1 hr
      exact .inr (.inr (.inl ⟨t, o, rfl, ho, hn.trans hm, rfl⟩))
    · exact .inl ⟨r, hr, rfl⟩
  | @adopt e d path rename new old hl =>
    cases hrecord : e.record? old with
    | none =>
      rw [Engine.adoptNode_none hrecord] at hr
      exact .inl (keep rfl hr)
    | some record =>
      obtain ⟨record', hinherits, hget⟩ := Engine.record?_adoptNode hrecord path rename new
      rw [hget] at hr
      split at hr
      · next hn =>
        subst hn
        cases hr
        exact .inr (.inr (.inr ⟨old, record, rfl, hrecord, hinherits.effects⟩))
      · split at hr
        · cases hr
        · exact .inl ⟨r, hr, rfl⟩
  | lift =>
    rw [Engine.record?_erase] at hr
    split at hr
    · cases hr
    · exact .inl ⟨r, hr, rfl⟩
  | unregister => exact .inl (keep (Engine.SameStock.unregister _ _ _).nodes hr)
  | @removeBlock e d m x hl =>
    rw [(Engine.exists_removeBlock_eq e x.block).choose_spec] at hr
    exact .inl (keep rfl hr)
  | buryLifted | bury => exact .inl (keep (Engine.SameStock.adoptGraph _ _).nodes hr)
  | @beginDestroy e ts d v y hy hlive hs =>
    rw [Engine.record?_destroying] at hr
    split at hr
    · obtain ⟨r0, hr0, rfl⟩ := Option.map_eq_some_iff.1 hr
      exact .inl ⟨r0, hr0, rfl⟩
    · exact .inl ⟨r, hr, rfl⟩
  | installEdges => exact .inl (keep (Engine.SameStock.installEdges _).nodes hr)
  | @placeSite e ts d t ask ha hk =>
    rw [Engine.record?_placeSite] at hr
    split at hr
    · obtain ⟨r0, hr0, rfl⟩ := Option.map_eq_some_iff.1 hr
      exact .inl ⟨r0, hr0, rfl⟩
    · exact .inl ⟨r, hr, rfl⟩
  | _ => exact .inl ⟨r, hr, rfl⟩

end Origins

variable {e e' : Engine} {t t' : Task} {ts : List Task} {d d' : Progress}

theorem Neat.top
    (h : Neat ⟨e, t :: ts, d⟩) (ht : t.effects.Neat → t'.effects.Neat) :
    ∀ u ∈ (State.mk e' (t' :: ts) d').tasks, u.effects.Neat := by
  obtain ⟨htop, hrest⟩ := List.forall_mem_cons.1 h.tasks
  exact List.forall_mem_cons.2 ⟨ht htop, hrest⟩

theorem Neat.move_tasks (h : s.Neat) (hm : Move s s') : ∀ t ∈ s'.tasks, t.effects.Neat := by
  have hdiscard : ∀ {fx : Effects}, fx.Neat → fx.discard.Neat := fun hfx =>
    ⟨hfx.edges, hfx.sites, List.nodup_nil, List.nodup_nil⟩
  cases hm with
  | openNode hl hn hf =>
    refine List.forall_mem_singleton.2 ⟨?_, ?_, hf.edges, hf.sites⟩ <;> rw [hf.fresh] <;>
      exact List.nodup_nil
  | closeNode | dropNode => exact fun t ht => nomatch ht
  | openLifted hl hr => exact List.forall_mem_singleton.2 (hdiscard (h.lifted _ hl))
  | beginRun hl hx => exact List.forall_mem_singleton.2 (hdiscard (h.slots _ _ hx))
  | beginDestroy hx => exact List.forall_mem_cons.2 ⟨hdiscard (h.slots _ _ hx), h.tasks⟩
  | endRun | breakRun | endDestroy => exact (List.forall_mem_cons.1 h.tasks).2
  | jot hb =>
    exact h.top fun hfx => ⟨hb.edges ▸ hfx.edges, hb.sites ▸ hfx.sites,
      hb.askedEdges ▸ hfx.askedEdges, hb.askedSites ▸ hfx.askedSites⟩
  | askEdge src dst =>
    exact h.top fun hfx =>
      ⟨hfx.edges, hfx.sites, OrderedSet.nodup_insert _ hfx.askedEdges, hfx.askedSites⟩
  | askSite key hh hn hk hc =>
    exact h.top fun hfx =>
      ⟨hfx.edges, hfx.sites, hfx.askedEdges, OrderedMap.nodup_keys_insert _ _ hfx.askedSites⟩
  | @read _ _ _ _ dep | @note _ _ _ _ _ dep | @forget _ _ _ _ _ dep =>
    refine h.top fun hfx => ?_
    cases dep <;> exact ⟨hfx.edges, hfx.sites, hfx.askedEdges, hfx.askedSites⟩
  | reuse | freshVertex | freshSource | shed | placeSite =>
    exact h.top fun hfx => ⟨hfx.edges, hfx.sites, hfx.askedEdges, hfx.askedSites⟩
  | installEdges =>
    exact h.top fun hfx => ⟨hfx.askedEdges, hfx.sites, List.nodup_nil,
      hfx.askedSites⟩
  | detach => exact h.top fun hfx => ⟨hfx.edges, List.nodup_nil, hfx.askedEdges, List.nodup_nil⟩
  | attach hl hk => exact h.top fun hfx => ⟨hfx.edges, hk, hfx.askedEdges, hfx.askedSites⟩
  | _ => exact h.tasks

theorem Neat.move (h : s.Neat) (hm : Move s s') : s'.Neat := by
  have hempty : ({} : Effects).Neat := ⟨List.nodup_nil, List.nodup_nil, List.nodup_nil,
    List.nodup_nil⟩
  refine ⟨h.move_tasks hm, fun u x hx => ?_, fun n r hr => ?_, fun ⟨n, r⟩ hx => ?_⟩
  · rcases hm.slot hx with ⟨y, diagnostics, hy, -, hfx⟩ | hfx | ⟨t, ht, hfx, -⟩
    · have hneat := h.slots u y hy
      exact hfx ▸ ⟨hneat.edges, hneat.sites, hneat.askedEdges, hneat.askedSites⟩
    · exact hfx ▸ hempty
    · exact hfx ▸ h.tasks t (ht ▸ .head _)
  · rcases hm.record hr with ⟨r0, hr0, hfx⟩ | hfx | ⟨t, o, ht, -, -, hfx⟩ | ⟨old, r0, -, hr0, hfx⟩
    · exact hfx ▸ h.records n r0 hr0
    · exact hfx ▸ hempty
    · exact hfx ▸ h.tasks t (ht ▸ .head _)
    · exact hfx ▸ h.records old r0 hr0
  · rcases hm.lifts hx with ⟨r0, hr0, hfx | hfx⟩ | ⟨hr, -⟩
    · exact hfx ▸ h.lifted _ hr0
    · exact hfx ▸ hempty
    · exact h.records n r hr

theorem Sound.top
    (h : Sound ⟨e, t :: ts, d⟩)
    (ht : ∀ x ∈ t'.effects.pending.sites.values, x ∈ t.effects.pending.sites.values ∨
      x.2.Complete) :
    ∀ u ∈ (State.mk e' (t' :: ts) d').tasks, ∀ x ∈ u.effects.pending.sites.values,
      x.2.Complete := by
  obtain ⟨htop, hrest⟩ := List.forall_mem_cons.1 h.complete
  exact List.forall_mem_cons.2 ⟨fun x hx => (ht x hx).elim (htop x) id, hrest⟩

theorem Sound.move (h : s.Sound) (hm : Move s s') : s'.Sound := by
  refine ⟨h.machine.steps (hm.steps h.machine), h.neat.move hm, ?_⟩
  have hnone : ∀ (w : Work) (fx : Effects) (home : Option NodeId),
      ∀ t ∈ [({ work := w, effects := fx.discard, home } : Task)],
      ∀ x ∈ t.effects.pending.sites.values, x.2.Complete := fun w fx home t ht x hx => by
    rw [List.mem_singleton.1 ht] at hx
    exact absurd hx List.not_mem_nil
  have hnil : ∀ t ∈ ([] : List Task), ∀ x ∈ t.effects.pending.sites.values, x.2.Complete :=
    fun t ht => absurd ht List.not_mem_nil
  cases hm with
  | openNode hl hn hx =>
    intro t ht x hmem
    rw [List.mem_singleton.1 ht] at hmem
    exact (hx.asked x hmem).2.2
  | closeNode | dropNode => exact hnil
  | openLifted | beginRun => exact hnone _ _ _
  | endRun | breakRun | endDestroy => exact (List.forall_mem_cons.1 h.complete).2
  | beginDestroy hx hlive hs =>
    exact List.forall_mem_cons.2 ⟨fun x hx => absurd hx List.not_mem_nil, h.complete⟩
  | jot hb => exact h.top fun x hx => Or.inl (hb.askedSites ▸ hx)
  | askEdge | reuse | freshVertex | freshSource | installEdges | attach | note | forget | shed
  | placeSite => exact h.top fun x hx => Or.inl hx
  | askSite key hh hn hk hc =>
    refine h.top fun x hx => ?_
    exact OrderedMap.forall_mem_values_insert (P := fun x => x ∈ _ ∨ x.2.Complete)
      (fun _ => Or.inl) (Or.inr hc) x hx
  | read dep hk =>
    refine h.top fun x hx => Or.inl ?_
    cases dep <;> exact hx
  | detach => exact h.top fun x hx => absurd hx List.not_mem_nil
  | _ => exact h.complete

theorem Sound.moves (h : s.Sound) (hm : Moves s s') : s'.Sound := by
  induction hm with
  | refl => exact h
  | tail _ hlast ih => exact ih.move hlast

theorem Moves.steps (hm : Moves s s') (h : s.Sound) : Steps s.machine s'.machine := by
  induction hm with
  | refl => exact .refl
  | tail hfirst hlast ih => exact ih.trans (hlast.steps (h.moves hfirst).machine)

theorem Moves.learns (hm : Moves s s') (h : s.Sound) : Machine.Learns s.machine s'.machine :=
  Learns.of_steps (hm.steps h)

end State

namespace Engine

open State

variable {e e' e'' : Engine} {ts : List Task} {d : Progress}

/-- Counting and numbering leave everything else alone, and so does a change of the queue by which
no live site leaves it. -/
theorem Quiet.count (e : Engine) (stats : SiteStats) {queue : RunQueue} {next : Nat}
    (h : e.nextNode ≤ next)
    (hq : ∀ s ∈ e.queue.toList, e.isLive s = true → s ∈ queue.toList) :
    e.Quiet { e with stats, queue, nextNode := next } :=
  ⟨⟨rfl, rfl, rfl, rfl, World.Grows.refl _⟩, rfl, World.Stays.refl _, h, fun _ _ => id, hq⟩

theorem Quiet.setWorld {w : World} (h : World.Grows e.world w) (hs : World.Stays e.world w) :
    e.Quiet { e with world := w } :=
  ⟨⟨rfl, rfl, rfl, rfl, h⟩, rfl, hs, Nat.le_refl _, fun _ _ => id, fun _ hs _ => hs⟩

theorem Quiet.resolvePath (e : Engine) (path : ConstPath) : e.Quiet (e.resolvePath path).2 :=
  .setWorld (.resolve _ path) (.resolve _ path)

theorem Quiet.consult (e : Engine) (key : MemberKey) :
    e.Quiet (e.modifyWorld (·.modifyMethod key id)) :=
  .setWorld (Aside.modifyMethod e key fun _ => rfl).world
    (.modifyMethod _ key (fun _ => rfl) (fun _ => rfl) fun _ => rfl)

theorem moves_ensureConst (e : Engine) (key : ConstKey) :
    Moves ⟨e, ts, d⟩ ⟨(e.ensureConst key).2, ts, d⟩ := by
  unfold Engine.ensureConst
  cases hc : e.world.const? key with
  | some c => exact .refl
  | none =>
    refine (Relation.ReflTransGen.single
      (.newVertex ("const:" ++ e.world.constName key))).tail (.aside ?_)
    exact .setWorld (Aside.nameConst _ key _ hc rfl).world (.nameConst hc rfl)

theorem moves_ensureIvar (e : Engine) (key : MemberKey) :
    Moves ⟨e, ts, d⟩ ⟨(e.ensureIvar key).2, ts, d⟩ := by
  unfold Engine.ensureIvar
  cases hc : e.world.ivar? key with
  | some i => exact .refl
  | none =>
    refine (Relation.ReflTransGen.single (.newVertex ("ivar:" ++ key.name))).tail (.aside ?_)
    exact .setWorld (Aside.nameIvar _ key _).world (.nameIvar hc rfl)

theorem moves_globalVertex (e : Engine) (name : String) :
    Moves ⟨e, ts, d⟩ ⟨(e.globalVertex name).2, ts, d⟩ := by
  unfold Engine.globalVertex
  cases hname : e.globals.get? name with
  | some v => exact .refl
  | none =>
    refine (Relation.ReflTransGen.single (.newVertex ("gvar:" ++ name))).tail (.aside ?_)
    refine ⟨⟨rfl, rfl, rfl, rfl, World.Grows.refl _⟩, rfl, World.Stays.refl _, Nat.le_refl _,
      fun name' v hv => ?_, fun _ hs _ => hs⟩
    have hne : name ≠ name' := fun h => by
      subst h
      exact absurd (hname.symm.trans hv) (by simp)
    exact (OrderedMap.get?_insert ..).trans ((if_neg hne).trans hv)

@[simp] theorem blocks_ensureConst (e : Engine) (key : ConstKey) :
    (e.ensureConst key).2.blocks = e.blocks := by
  unfold Engine.ensureConst
  split <;> rfl

@[simp] theorem blocks_ensureIvar (e : Engine) (key : MemberKey) :
    (e.ensureIvar key).2.blocks = e.blocks := by
  unfold Engine.ensureIvar
  split <;> rfl

@[simp] theorem blocks_globalVertex (e : Engine) (name : String) :
    (e.globalVertex name).2.blocks = e.blocks := by
  unfold Engine.globalVertex
  split <;> rfl

end Engine

end TypeFlow
