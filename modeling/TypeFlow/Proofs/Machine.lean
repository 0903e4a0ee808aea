import TypeFlow.Document.Adopt
import TypeFlow.Proofs.Lookups

/-!
# What an engine does, step by step

Running a site, destroying it and installing what a node asks for keep effects outside of the
engine for a while. A machine is an engine with these effects in frames, the work in progress on
top, and with the vertices that were taken off a record or off effects and are to be destroyed or
put elsewhere. Every change is one of a few steps.
-/

set_option autoImplicit false

namespace TypeFlow

namespace Engine

theorem exists_scheduleAll_eq (e : Engine) (ss : List SiteId) :
    ∃ queue, e.scheduleAll ss = { e with queue } := by
  induction ss generalizing e with
  | nil => exact ⟨e.queue, rfl⟩
  | cons s ss ih =>
    have hone : ∃ queue, e.schedule s = { e with queue } := by
      unfold schedule
      split
      · exact ⟨_, rfl⟩
      · exact ⟨e.queue, rfl⟩
    obtain ⟨q, hq⟩ := hone
    show ∃ queue, (e.schedule s).scheduleAll ss = { e with queue }
    rw [hq]
    exact ih { e with queue := q }

theorem mem_queue_scheduleAll (e : Engine) (ss : List SiteId) (s : SiteId) :
    s ∈ (e.scheduleAll ss).queue.toList ↔
      s ∈ e.queue.toList ∨ s ∈ ss ∧ e.isLive s = true := by
  induction ss generalizing e with
  | nil => simp [scheduleAll]
  | cons u ss ih =>
    have hlive : (e.schedule u).isLive s = e.isLive s := by
      unfold schedule
      split <;> rfl
    have hone : s ∈ (e.schedule u).queue.toList ↔
        s ∈ e.queue.toList ∨ s = u ∧ e.isLive s = true := by
      unfold schedule
      split
      · next hu =>
        rw [RunQueue.mem_insert]
        constructor
        · rintro (h | rfl)
          · exact .inl h
          · exact .inr ⟨rfl, hu⟩
        · rintro (h | ⟨rfl, -⟩)
          · exact .inl h
          · exact .inr rfl
      · next hu =>
        refine ⟨.inl, ?_⟩
        rintro (h | ⟨rfl, hs⟩)
        · exact h
        · exact absurd hs hu
    show s ∈ ((e.schedule u).scheduleAll ss).queue.toList ↔ _
    rw [ih (e.schedule u), hone, hlive, List.mem_cons]
    tauto

theorem exists_adoptGraph_eq (e : Engine) (c : Graph.Changed) :
    ∃ queue, e.adoptGraph c = { e with graph := c.graph, queue } :=
  exists_scheduleAll_eq { e with graph := c.graph } c.woken

theorem site?_modifySite {e : Engine} {s t : SiteId} {f : Site → Site} :
    (e.modifySite s f).site? t = if s = t then (e.site? t).map f else e.site? t := by
  unfold site? modifySite
  rw [Slots.get?_modify]
  by_cases h : s = t
  · subst h
    simp
  · have hne : s.index ≠ t.index := fun he => h (by cases s; cases t; simpa using he)
    simp [h, hne]

end Engine

def Ty.Known (w : World) : Ty → Prop
  | .instanceOf m _ => w.Knows m
  | .singletonOf m => w.Knows m
  | _ => True

def Rule.Known (w : World) : Rule → Prop
  | .constRead r => (∀ m ∈ r.scope, w.Knows m) ∧ ∀ m ∈ r.scopes, w.Knows m
  | .methodDef r => w.Knows r.key.side.module
  | .ivarRead r => w.Knows r.key.side.module
  | _ => True

namespace Installed

def Reads (x : Installed) : Dependency → Prop
  | .method key => key ∈ x.methodReads.toList
  | .const key => key ∈ x.constReads.toList
  | .superclass m => m ∈ x.superclassReads.toList

def addRead (x : Installed) : Dependency → Installed
  | .method key => { x with methodReads := x.methodReads.insert key }
  | .const key => { x with constReads := x.constReads.insert key }
  | .superclass m => { x with superclassReads := x.superclassReads.insert m }

def dropRead (x : Installed) : Dependency → Installed
  | .method key => { x with methodReads := x.methodReads.erase key }
  | .const key => { x with constReads := x.constReads.erase key }
  | .superclass m => { x with superclassReads := x.superclassReads.erase m }

end Installed

namespace Pending

def Reads (x : Pending) : Dependency → Prop
  | .method key => key ∈ x.methodReads.toList
  | .const key => key ∈ x.constReads.toList
  | .superclass m => m ∈ x.superclassReads.toList

end Pending

namespace Effects

def mapInstalled (fx : Effects) (f : Installed → Installed) : Effects :=
  { fx with installed := f fx.installed }

def read (fx : Effects) : Dependency → Effects
  | .method key => fx.readMethod key
  | .const key => fx.readConst key
  | .superclass m => fx.readSuperclass m

def holdings (fx : Effects) : List VertexId :=
  fx.installed.scratch.values ++ (fx.pending.scratch.entries.filter fun x =>
    !decide (fx.installed.scratch.get? x.1 = some x.2)).map Prod.snd

def stale (fx : Effects) : List VertexId :=
  (fx.installed.scratch.entries.filter fun x =>
    !decide (fx.pending.scratch.get? x.1 = some x.2)).map Prod.snd

def shed (fx : Effects) : Effects where
  installed := { fx.installed with scratch := fx.pending.scratch }
  pending := { fx.pending with scratch := {}, ordinals := {} }

def detach (fx : Effects) : Effects where
  installed := { fx.installed with sites := {} }
  pending := { fx.pending with sites := {} }

def attach (fx : Effects) (sites : OrderedMap SiteKey SiteId) : Effects :=
  fx.mapInstalled fun x => { x with sites }

structure Alike (fx fx' : Effects) : Prop where
  sites : fx'.installed.sites = fx.installed.sites
  methodReads : fx'.installed.methodReads = fx.installed.methodReads
  constReads : fx'.installed.constReads = fx.installed.constReads
  superclassReads : fx'.installed.superclassReads = fx.installed.superclassReads
  scratch : fx'.installed.scratch = fx.installed.scratch
  askedSites : fx'.pending.sites = fx.pending.sites
  askedMethods : fx'.pending.methodReads = fx.pending.methodReads ∨ fx'.pending.methodReads = {}
  askedConsts : fx'.pending.constReads = fx.pending.constReads ∨ fx'.pending.constReads = {}
  askedSuperclasses : fx'.pending.superclassReads = fx.pending.superclassReads ∨
    fx'.pending.superclassReads = {}
  askedScratch : fx'.pending.scratch = fx.pending.scratch

end Effects

inductive Work where
  | run (s : SiteId)
  | destroy (s : SiteId)
  | node (n : NodeId)
  deriving DecidableEq, Repr

namespace Work

def owner : Work → Owner
  | run s => .site s
  | destroy s => .site s
  | node n => .node n

def site? : Work → Option SiteId
  | run s => some s
  | destroy s => some s
  | node _ => none

end Work

structure Frame where
  work : Work
  effects : Effects
  /-- Sites that are children of the owner while they are not listed in the effects. -/
  limbo : List SiteId := []

structure Machine where
  engine : Engine
  frames : List Frame := []
  /-- Vertices that neither a record nor effects list any more. -/
  hand : List VertexId := []

structure Engine.Aside (e e' : Engine) : Prop where
  graph : e'.graph = e.graph
  sites : e'.sites = e.sites
  nodes : e'.nodes = e.nodes
  config : e'.config = e.config
  world : World.Grows e.world e'.world

def Vertex.Decorates (f : Vertex → Vertex) : Prop :=
  ∀ x, (f x).types = x.types ∧ (f x).next = x.next ∧ (f x).incoming = x.incoming ∧
    (f x).source = x.source ∧ (f x).alive = x.alive

namespace Machine

inductive Step : Machine → Machine → Prop where
  | aside {e e' : Engine} {fs : List Frame} {hand : List VertexId} (h : e.Aside e') :
    Step ⟨e, fs, hand⟩ ⟨e', fs, hand⟩
  | newVertex {e : Engine} {fs : List Frame} {hand : List VertexId} (label : String)
    (node : Option NodeId) : Step ⟨e, fs, hand⟩ ⟨(e.newVertex label node).2, fs, hand⟩
  | source {e : Engine} {fs : List Frame} {hand : List VertexId} {types : List Ty}
    (h : ∀ t ∈ types, t.Known e.world) : Step ⟨e, fs, hand⟩ ⟨(e.source types).2, fs, hand⟩
  | addEdge {e : Engine} {fs : List Frame} {hand : List VertexId} (src dst : VertexId) :
    Step ⟨e, fs, hand⟩ ⟨(e.addEdge src dst).2, fs, hand⟩
  | removeEdge {e : Engine} {fs : List Frame} {hand : List VertexId} (src dst : VertexId) :
    Step ⟨e, fs, hand⟩ ⟨(e.removeEdge src dst).2, fs, hand⟩
  | decorate {e : Engine} {fs : List Frame} {hand : List VertexId} {f : Vertex → Vertex}
    (v : VertexId) (h : Vertex.Decorates f) :
    Step ⟨e, fs, hand⟩ ⟨{ e with graph := e.graph.modify v f }, fs, hand⟩
  | reclaim {e : Engine} {hand : List VertexId} : Step ⟨e, [], hand⟩ ⟨e.reclaim.2, [], hand⟩
  /-- A vertex in hand is destroyed. -/
  | bury {e : Engine} {fs : List Frame} {v : VertexId} {hand : List VertexId} :
    Step ⟨e, fs, v :: hand⟩ ⟨e.destroyVertex v, fs, hand⟩
  /-- Vertices in hand are left to themselves. -/
  | abandon {e : Engine} {fs : List Frame} {hand : List VertexId} :
    Step ⟨e, fs, hand⟩ ⟨e, fs, []⟩
  | beginNode {e : Engine} {fs : List Frame} {hand : List VertexId} (n : NodeId) (path : String)
    (span : Span) :
    Step ⟨e, fs, hand⟩ ⟨{ e with nodes := e.nodes.insert n { path, span } }, fs, hand⟩
  | editNode {e : Engine} {fs : List Frame} {hand : List VertexId} {f : NodeRecord → NodeRecord}
    (n : NodeId) (hv : ∀ x, (f x).vertices = x.vertices) (he : ∀ x, (f x).effects = x.effects) :
    Step ⟨e, fs, hand⟩ ⟨e.modifyNode n f, fs, hand⟩
  | ownVertex {e : Engine} {fs : List Frame} {hand : List VertexId} (n : NodeId) (label : String) :
    Step ⟨e, fs, hand⟩ ⟨(e.newVertex label (some n)).2.modifyNode n fun x =>
      { x with vertices := x.vertices ++ [(e.newVertex label (some n)).1] }, fs, hand⟩
  | ownSource {e : Engine} {fs : List Frame} {hand : List VertexId} {t : Ty} (n : NodeId)
    (h : t.Known e.world) :
    Step ⟨e, fs, hand⟩ ⟨(e.newSource [t] (some n)).2.modifyNode n fun x =>
      { x with vertices := x.vertices ++ [(e.newSource [t] (some n)).1] }, fs, hand⟩
  /-- A record is taken off, and its vertices are in hand. -/
  | lift {e : Engine} {fs : List Frame} {hand : List VertexId} {n : NodeId} {r : NodeRecord}
    (h : e.nodes.get? n = some r) :
    Step ⟨e, fs, hand⟩ ⟨{ e with nodes := e.nodes.erase n }, fs, r.vertices ++ hand⟩
  /-- A record is put down again, with its vertices. -/
  | place {e : Engine} {fs : List Frame} {hand : List VertexId} {r : NodeRecord} (n : NodeId)
    (h : r.effects.installed.scratch = {}) :
    Step ⟨e, fs, r.vertices ++ hand⟩ ⟨{ e with nodes := e.nodes.insert n r }, fs, hand⟩
  | enterSite {e : Engine} {f : Frame} {fs : List Frame} {hand : List VertexId} {node : NodeId}
    {rule : Rule} (h : rule.Known e.world) :
    Step ⟨e, f :: fs, hand⟩
      ⟨{ e with sites := (e.sites.alloc { node, rule }).2 },
        { f with limbo := ⟨(e.sites.alloc { node, rule }).1⟩ :: f.limbo } :: fs, hand⟩
  | relabelSite {e : Engine} {fs : List Frame} {hand : List VertexId} (s : SiteId) (n : NodeId)
    (rename : NodeId → NodeId) :
    Step ⟨e, fs, hand⟩ ⟨e.modifySite s fun x =>
      { x with node := n, effects := x.effects.renameNodes rename }, fs, hand⟩
  | beginRun {e : Engine} {hand : List VertexId} {s : SiteId} {x : Site}
    (hx : e.site? s = some x) (hlive : x.destroyed = false) :
    Step ⟨e, [], hand⟩
      ⟨e.modifySite s fun x => { x with effects := {} }, [⟨.run s, x.effects.discard, []⟩], hand⟩
  | endRun {e : Engine} {fs : List Frame} {hand : List VertexId} {s : SiteId} {fx : Effects}
    {limbo : List SiteId} :
    Step ⟨e, ⟨.run s, fx, limbo⟩ :: fs, hand⟩
      ⟨e.modifySite s fun x => { x with effects := fx }, fs, hand⟩
  /-- A site is destroyed on its own account, or as a child of the owner on top. -/
  | beginDestroy {e : Engine} {fs : List Frame} {hand : List VertexId} {s : SiteId} {x : Site}
    (hx : e.site? s = some x) (hlive : x.destroyed = false)
    (hs : ∀ f ∈ fs.head?, s ∈ f.limbo) :
    Step ⟨e, fs, hand⟩
      ⟨e.modifySite s fun x => { x with destroyed := true, effects := {} },
        ⟨.destroy s, x.effects.discard, []⟩ :: fs, hand⟩
  | endDestroy {e : Engine} {fs : List Frame} {hand : List VertexId} {s : SiteId} {fx : Effects}
    {limbo : List SiteId} (h : ∀ d, ¬fx.installed.Reads d) :
    Step ⟨e, ⟨.destroy s, fx, limbo⟩ :: fs, hand⟩
      ⟨{ e with sites :=
          (e.modifySite s fun x => { x with effects := fx }).sites.release s.index }, fs, hand⟩
  | openNode {e : Engine} {hand : List VertexId} {fx : Effects} (n : NodeId)
    (hasked : ∀ x ∈ fx.pending.sites.values, x.2.Known e.world)
    (hreads : ∀ d, ¬fx.pending.Reads d) (hscratch : fx.holdings = []) :
    Step ⟨e, [], hand⟩ ⟨e, [⟨.node n, fx, []⟩], hand⟩
  | closeNode {e : Engine} {fs : List Frame} {hand : List VertexId} {n : NodeId} {fx : Effects}
    {limbo : List SiteId} (ret : Option VertexId) (nameSpan : Option Span) :
    Step ⟨e, ⟨.node n, fx, limbo⟩ :: fs, hand⟩
      ⟨e.modifyNode n fun x => { x with ret, nameSpan, effects := fx }, fs, hand⟩
  | dropNode {e : Engine} {fs : List Frame} {hand : List VertexId} {n : NodeId} {fx : Effects}
    {limbo : List SiteId} : Step ⟨e, ⟨.node n, fx, limbo⟩ :: fs, hand⟩ ⟨e, fs, hand⟩
  | stage {e : Engine} {f : Frame} {fs : List Frame} {hand : List VertexId} {fx : Effects}
    (h : f.effects.Alike fx) : Step ⟨e, f :: fs, hand⟩ ⟨e, { f with effects := fx } :: fs, hand⟩
  | askSite {e : Engine} {f : Frame} {fs : List Frame} {hand : List VertexId} {rule : Rule}
    (key : SiteKey) (node : NodeId) (h : rule.Known e.world) :
    Step ⟨e, f :: fs, hand⟩
      ⟨e, { f with effects := f.effects.addSite key node rule } :: fs, hand⟩
  | read {e : Engine} {f : Frame} {fs : List Frame} {hand : List VertexId} {d : Dependency}
    (h : e.world.Knows d.module) :
    Step ⟨e, f :: fs, hand⟩ ⟨e, { f with effects := f.effects.read d } :: fs, hand⟩
  /-- A private vertex is asked for again. -/
  | reuse {e : Engine} {f : Frame} {fs : List Frame} {hand : List VertexId} {key : ScratchKey}
    {v : VertexId} (h : f.effects.installed.scratch.get? key = some v) :
    Step ⟨e, f :: fs, hand⟩ ⟨e, { f with effects := f.effects.addScratch key v } :: fs, hand⟩
  | freshVertex {e : Engine} {s : SiteId} {fx : Effects} {limbo : List SiteId} {fs : List Frame}
    {hand : List VertexId} (key : ScratchKey) (label : String) :
    Step ⟨e, ⟨.run s, fx, limbo⟩ :: fs, hand⟩
      ⟨(e.newVertex label none).2,
        ⟨.run s, fx.addScratch key (e.newVertex label none).1, limbo⟩ :: fs, hand⟩
  | freshSource {e : Engine} {s : SiteId} {fx : Effects} {limbo : List SiteId} {fs : List Frame}
    {hand : List VertexId} {types : List Ty} (key : ScratchKey)
    (h : ∀ t ∈ types, t.Known e.world) :
    Step ⟨e, ⟨.run s, fx, limbo⟩ :: fs, hand⟩
      ⟨(e.newSource types none).2,
        ⟨.run s, fx.addScratch key (e.newSource types none).1, limbo⟩ :: fs, hand⟩
  /-- The children of the owner are taken out. -/
  | detach {e : Engine} {f : Frame} {fs : List Frame} {hand : List VertexId} :
    Step ⟨e, f :: fs, hand⟩
      ⟨e, { f with
        effects := f.effects.detach
        limbo := f.effects.installed.sites.values ++ f.limbo } :: fs, hand⟩
  | attach {e : Engine} {f : Frame} {fs : List Frame} {hand : List VertexId}
    {sites : OrderedMap SiteKey SiteId} (h : ∀ s ∈ sites.values, s ∈ f.limbo) :
    Step ⟨e, f :: fs, hand⟩ ⟨e, { f with effects := f.effects.attach sites } :: fs, hand⟩
  /-- A dependency of a site is filed. -/
  | note {e : Engine} {f : Frame} {fs : List Frame} {hand : List VertexId} {s : SiteId}
    {d : Dependency} (hs : f.work.site? = some s) (hd : e.world.Files d) :
    Step ⟨e, f :: fs, hand⟩
      ⟨e.modifyWorld (·.watch d (·.insert s)),
        { f with effects := f.effects.mapInstalled (·.addRead d) } :: fs, hand⟩
  | forget {e : Engine} {f : Frame} {fs : List Frame} {hand : List VertexId} {s : SiteId}
    {d : Dependency} (hs : f.work.site? = some s) :
    Step ⟨e, f :: fs, hand⟩
      ⟨e.modifyWorld (·.watch d (·.erase s)),
        { f with effects := f.effects.mapInstalled (·.dropRead d) } :: fs, hand⟩
  /-- The private vertices that were not asked for again come to hand. -/
  | shed {e : Engine} {f : Frame} {fs : List Frame} {hand : List VertexId} :
    Step ⟨e, f :: fs, hand⟩
      ⟨e, { f with effects := f.effects.shed } :: fs, f.effects.stale ++ hand⟩

abbrev Steps : Machine → Machine → Prop := Relation.ReflTransGen Step

def effectsIn (sites : Slots Site) (s : SiteId) : List Frame → Effects
  | [] => ((sites.get? s.index).map Site.effects).getD {}
  | f :: fs => if f.work.site? = some s then f.effects else effectsIn sites s fs

def effectsOf (m : Machine) (s : SiteId) : Effects := effectsIn m.engine.sites s m.frames

end Machine

end TypeFlow
