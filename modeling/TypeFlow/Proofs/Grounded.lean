import TypeFlow.Proofs.Census
import TypeFlow.Proofs.Machine

/-!
# Everything named is known

The types in the graph, the rules of the sites and whatever a run asks for only refer to modules
that the world knows, and only sites have private vertices. Every step keeps this.
-/

set_option autoImplicit false

namespace TypeFlow

theorem Ty.Known.mono {w w' : World} {t : Ty} (h : t.Known w)
    (hk : ∀ m, w.Knows m → w'.Knows m) : t.Known w' := by
  cases t with
  | instanceOf m | singletonOf m => exact hk m h
  | _ => trivial

theorem Rule.Known.mono {w w' : World} {r : Rule} (h : r.Known w)
    (hk : ∀ m, w.Knows m → w'.Knows m) : r.Known w' := by
  cases r with
  | constRead r => exact ⟨fun m hm => hk m (h.1 m hm), fun m hm => hk m (h.2 m hm)⟩
  | methodDef | ivarRead => exact hk _ h
  | _ => trivial

namespace Effects

variable {fx fx' : Effects}

theorem reads_read {d d' : Dependency} :
    (fx.read d).pending.Reads d' ↔ fx.pending.Reads d' ∨ d' = d := by
  cases d <;> cases d' <;>
    simp [read, readMethod, readConst, readSuperclass, mapPending, Pending.Reads,
      OrderedSet.mem_insert]

theorem holdings_eq_nil : fx.holdings = [] ↔
    fx.installed.scratch = {} ∧ fx.pending.scratch = {} := by
  constructor
  · intro h
    obtain ⟨h1, h2⟩ := List.append_eq_nil_iff.1 h
    have hi : fx.installed.scratch.entries = [] := List.map_eq_nil_iff.1 h1
    have hempty : fx.installed.scratch = {} := by
      cases hx : fx.installed.scratch
      rw [hx] at hi
      exact congrArg _ hi
    refine ⟨hempty, ?_⟩
    have hp : fx.pending.scratch.entries = [] := by
      rw [List.map_eq_nil_iff, hempty] at h2
      simpa using h2
    cases hx : fx.pending.scratch
    rw [hx] at hp
    exact congrArg _ hp
  · rintro ⟨h1, h2⟩
    unfold holdings
    rw [h1, h2]
    rfl

theorem Alike.holdings (h : fx.Alike fx') : fx'.holdings = fx.holdings := by
  unfold Effects.holdings
  rw [h.scratch, h.askedScratch]

theorem Alike.reads (h : fx.Alike fx') {d : Dependency} (hd : fx'.pending.Reads d) :
    fx.pending.Reads d := by
  have hsub : ∀ {α : Type} {s s' : OrderedSet α} {a : α}, s' = s ∨ s' = {} → a ∈ s'.toList →
      a ∈ s.toList := by
    rintro α s s' a (rfl | rfl) ha
    · exact ha
    · exact absurd ha List.not_mem_nil
  cases d with
  | method key => exact hsub h.askedMethods hd
  | const key => exact hsub h.askedConsts hd
  | superclass m => exact hsub h.askedSuperclasses hd

end Effects

structure Frame.Grounded (w : World) (f : Frame) : Prop where
  asked : ∀ x ∈ f.effects.pending.sites.values, x.2.Known w
  reads : ∀ d, f.effects.pending.Reads d → w.Knows d.module
  bare : f.work.site? = none → f.effects.holdings = []

theorem Frame.Grounded.mono {w w' : World} {f : Frame} (h : f.Grounded w)
    (hk : ∀ m, w.Knows m → w'.Knows m) : f.Grounded w' :=
  ⟨fun x hx => (h.asked x hx).mono hk, fun d hd => hk _ (h.reads d hd), h.bare⟩

namespace Frame.Grounded

variable {w : World} {f : Frame}

theorem stage {fx : Effects} (h : f.Grounded w) (ha : f.effects.Alike fx) :
    { f with effects := fx }.Grounded w := by
  refine ⟨fun x hx => h.asked x ?_, fun d hd => h.reads d (ha.reads hd), fun hn => ?_⟩
  · rw [← ha.askedSites]
    exact hx
  · rw [ha.holdings]
    exact h.bare hn

theorem askSite {rule : Rule} (h : f.Grounded w) (key : SiteKey) (node : NodeId)
    (hr : rule.Known w) : { f with effects := f.effects.addSite key node rule }.Grounded w :=
  ⟨OrderedMap.forall_mem_values_insert h.asked hr, h.reads, h.bare⟩

theorem read {d : Dependency} (h : f.Grounded w) (hd : w.Knows d.module) :
    { f with effects := f.effects.read d }.Grounded w := by
  refine ⟨fun x hx => h.asked x ?_, fun d' hd' => ?_, fun hn => ?_⟩
  · cases d <;> exact hx
  · rcases Effects.reads_read.1 hd' with hold | rfl
    · exact h.reads d' hold
    · exact hd
  · have hbare := Effects.holdings_eq_nil.1 (h.bare hn)
    cases d <;> exact Effects.holdings_eq_nil.2 hbare

theorem reuse {key : ScratchKey} {v : VertexId} (h : f.Grounded w)
    (hv : f.effects.installed.scratch.get? key = some v) :
    { f with effects := f.effects.addScratch key v }.Grounded w := by
  refine ⟨h.asked, h.reads, fun hn => ?_⟩
  rw [(Effects.holdings_eq_nil.1 (h.bare hn)).1] at hv
  exact absurd hv (Option.some_ne_none v).symm

theorem detach {limbo : List SiteId} (h : f.Grounded w) :
    { f with effects := f.effects.detach, limbo }.Grounded w :=
  ⟨fun _ hx => absurd hx List.not_mem_nil, h.reads, h.bare⟩

theorem mapInstalled {g : Installed → Installed} (h : f.Grounded w)
    (hg : ∀ x, (g x).scratch = x.scratch) :
    { f with effects := f.effects.mapInstalled g }.Grounded w := by
  refine ⟨h.asked, h.reads, fun hn => ?_⟩
  obtain ⟨hi, hp⟩ := Effects.holdings_eq_nil.1 (h.bare hn)
  exact Effects.holdings_eq_nil.2 ⟨(hg _).trans hi, hp⟩

theorem shed (h : f.Grounded w) : { f with effects := f.effects.shed }.Grounded w :=
  ⟨h.asked, h.reads, fun hn =>
    Effects.holdings_eq_nil.2 ⟨(Effects.holdings_eq_nil.1 (h.bare hn)).2, rfl⟩⟩

theorem discarded {x : Effects} {s : SiteId} {work : Work} (hw : work.site? = some s) :
    (Frame.mk work x.discard []).Grounded w :=
  ⟨fun _ hx => absurd hx List.not_mem_nil,
    fun d hd => by cases d <;> exact absurd hd List.not_mem_nil,
    fun hn => absurd (hw.symm.trans hn) (Option.some_ne_none s)⟩

end Frame.Grounded

namespace Machine

structure Grounded (m : Machine) : Prop where
  closed : m.engine.world.Closed
  types : m.engine.graph.Holds (Ty.Known m.engine.world)
  rules : ∀ s x, m.engine.site? s = some x → x.rule.Known m.engine.world
  frames : ∀ f ∈ m.frames, f.Grounded m.engine.world
  records : ∀ r ∈ m.engine.nodes.values, r.effects.installed.scratch = {}

theorem rules_modifySite {e : Engine} {s : SiteId} {f : Site → Site} {w : World}
    (h : ∀ t x, e.site? t = some x → x.rule.Known w) (hf : ∀ x, (f x).rule = x.rule) :
    ∀ t x, (e.modifySite s f).site? t = some x → x.rule.Known w := by
  intro t x hx
  rw [Engine.site?_modifySite] at hx
  split at hx
  · obtain ⟨y, hy, rfl⟩ := Option.map_eq_some_iff.1 hx
    rw [hf]
    exact h t y hy
  · exact h t x hx

variable {m m' : Machine}

theorem Grounded.watch {e : Engine} {f f' : Frame} {fs : List Frame} {hand : List VertexId}
    (h : (Machine.mk e (f :: fs) hand).Grounded) (d : Dependency)
    (g : OrderedSet SiteId → OrderedSet SiteId) (hf' : f'.Grounded e.world) :
    (Machine.mk (e.modifyWorld (·.watch d g)) (f' :: fs) hand).Grounded := by
  obtain ⟨hf, hfs⟩ := List.forall_mem_cons.1 h.frames
  have hk : ∀ u, e.world.Knows u → (e.world.watch d g).Knows u := fun _ => World.knows_watch.2
  exact ⟨h.closed.watch d g, h.types.mono fun _ ht => ht.mono hk,
    fun s x hx => (h.rules s x hx).mono hk,
    List.forall_mem_cons.2 ⟨hf'.mono hk, fun f hf => (hfs f hf).mono hk⟩, h.records⟩

theorem Grounded.step (h : m.Grounded) (hs : Step m m') : m'.Grounded := by
  have hall := h
  obtain ⟨hclosed, htypes, hrules, hframes, hrecords⟩ := h
  cases hs with
  | aside ha =>
    have hk := fun u => ha.world.knows (m := u)
    refine ⟨ha.world.closed hclosed, ?_, fun s x hx => ?_, fun f hf => (hframes f hf).mono hk, ?_⟩
    · rw [ha.graph]
      exact htypes.mono fun _ ht => ht.mono hk
    · unfold Engine.site? at hx
      rw [ha.sites] at hx
      exact (hrules s x hx).mono hk
    · rw [ha.nodes]
      exact hrecords
  | newVertex label node =>
    exact ⟨hclosed, htypes.newVertex label node, hrules, hframes, hrecords⟩
  | source hk => exact ⟨hclosed, htypes.source hk, hrules, hframes, hrecords⟩
  | @addEdge e _ _ src dst =>
    obtain ⟨q, hq⟩ := e.exists_adoptGraph_eq (e.graph.addEdge src dst).2
    rw [show (e.addEdge src dst).2 = _ from hq]
    exact ⟨hclosed, htypes.addEdge src dst, hrules, hframes, hrecords⟩
  | @removeEdge e _ _ src dst =>
    obtain ⟨q, hq⟩ := e.exists_adoptGraph_eq (e.graph.removeEdge src dst).2
    rw [show (e.removeEdge src dst).2 = _ from hq]
    exact ⟨hclosed, htypes.removeEdge src dst, hrules, hframes, hrecords⟩
  | decorate v hf =>
    exact ⟨hclosed, htypes.modify v fun x => (hf x).1, hrules, hframes, hrecords⟩
  | reclaim =>
    unfold Engine.reclaim
    split
    · exact ⟨hclosed, htypes.reclaim, hrules, hframes, hrecords⟩
    · exact ⟨hclosed, htypes, hrules, hframes, hrecords⟩
  | @bury e _ v _ =>
    obtain ⟨q, hq⟩ := e.exists_adoptGraph_eq (e.graph.destroy v)
    rw [show e.destroyVertex v = _ from hq]
    exact ⟨hclosed, htypes.destroy v, hrules, hframes, hrecords⟩
  | abandon => exact ⟨hclosed, htypes, hrules, hframes, hrecords⟩
  | beginNode n path span =>
    exact ⟨hclosed, htypes, hrules, hframes,
      OrderedMap.forall_mem_values_insert hrecords rfl⟩
  | editNode n hv he =>
    refine ⟨hclosed, htypes, hrules, hframes,
      OrderedMap.forall_mem_values_modify hrecords fun r hr => ?_⟩
    rw [he]
    exact hr
  | ownVertex n label =>
    exact ⟨hclosed, htypes.newVertex label _, hrules, hframes,
      OrderedMap.forall_mem_values_modify hrecords fun r hr => hr⟩
  | ownSource n ht =>
    refine ⟨hclosed, htypes.newSource ?_ _, hrules, hframes,
      OrderedMap.forall_mem_values_modify hrecords fun r hr => hr⟩
    exact fun t hm => List.mem_singleton.1 hm ▸ ht
  | lift hr =>
    exact ⟨hclosed, htypes, hrules, hframes,
      fun r hm => hrecords r (OrderedMap.mem_values_of_mem_erase hm)⟩
  | place n hr =>
    exact ⟨hclosed, htypes, hrules, hframes, OrderedMap.forall_mem_values_insert hrecords hr⟩
  | enterSite hr =>
    obtain ⟨hf, hfs⟩ := List.forall_mem_cons.1 hframes
    refine ⟨hclosed, htypes, fun s x hx => ?_,
      List.forall_mem_cons.2 ⟨⟨hf.asked, hf.reads, hf.bare⟩, hfs⟩, hrecords⟩
    rcases Slots.get?_alloc_eq_or _ _ s.index with he | he
    · rw [← Option.some.inj (he.symm.trans hx)]
      exact hr
    · exact hrules s x (he.symm.trans hx)
  | relabelSite s n rename =>
    exact ⟨hclosed, htypes, rules_modifySite hrules fun _ => rfl, hframes, hrecords⟩
  | beginRun | beginDestroy =>
    exact ⟨hclosed, htypes, rules_modifySite hrules fun _ => rfl,
      List.forall_mem_cons.2 ⟨Frame.Grounded.discarded rfl, hframes⟩, hrecords⟩
  | endRun | endDestroy =>
    exact ⟨hclosed, htypes, rules_modifySite hrules fun _ => rfl,
      fun f hf => hframes f (List.mem_cons_of_mem _ hf), hrecords⟩
  | openNode n hasked hreads hscratch =>
    exact ⟨hclosed, htypes, hrules, List.forall_mem_cons.2
      ⟨⟨hasked, fun d hd => absurd hd (hreads d), fun _ => hscratch⟩, hframes⟩, hrecords⟩
  | closeNode ret nameSpan =>
    obtain ⟨hf, hfs⟩ := List.forall_mem_cons.1 hframes
    exact ⟨hclosed, htypes, hrules, hfs, OrderedMap.forall_mem_values_modify hrecords fun r hr =>
      (Effects.holdings_eq_nil.1 (hf.bare rfl)).1⟩
  | dropNode =>
    exact ⟨hclosed, htypes, hrules, fun f hf => hframes f (List.mem_cons_of_mem _ hf), hrecords⟩
  | stage ha =>
    obtain ⟨hf, hfs⟩ := List.forall_mem_cons.1 hframes
    exact ⟨hclosed, htypes, hrules, List.forall_mem_cons.2 ⟨hf.stage ha, hfs⟩, hrecords⟩
  | askSite key node hk =>
    obtain ⟨hf, hfs⟩ := List.forall_mem_cons.1 hframes
    exact ⟨hclosed, htypes, hrules, List.forall_mem_cons.2 ⟨hf.askSite key node hk, hfs⟩, hrecords⟩
  | read hk =>
    obtain ⟨hf, hfs⟩ := List.forall_mem_cons.1 hframes
    exact ⟨hclosed, htypes, hrules, List.forall_mem_cons.2 ⟨hf.read hk, hfs⟩, hrecords⟩
  | reuse hv =>
    obtain ⟨hf, hfs⟩ := List.forall_mem_cons.1 hframes
    exact ⟨hclosed, htypes, hrules, List.forall_mem_cons.2 ⟨hf.reuse hv, hfs⟩, hrecords⟩
  | freshVertex key label =>
    obtain ⟨hf, hfs⟩ := List.forall_mem_cons.1 hframes
    exact ⟨hclosed, htypes.newVertex label none, hrules, List.forall_mem_cons.2
      ⟨⟨hf.asked, hf.reads, fun hn => absurd hn (Option.some_ne_none _)⟩, hfs⟩, hrecords⟩
  | freshSource key hk =>
    obtain ⟨hf, hfs⟩ := List.forall_mem_cons.1 hframes
    exact ⟨hclosed, htypes.newSource hk none, hrules, List.forall_mem_cons.2
      ⟨⟨hf.asked, hf.reads, fun hn => absurd hn (Option.some_ne_none _)⟩, hfs⟩, hrecords⟩
  | detach =>
    obtain ⟨hf, hfs⟩ := List.forall_mem_cons.1 hframes
    exact ⟨hclosed, htypes, hrules, List.forall_mem_cons.2 ⟨hf.detach, hfs⟩, hrecords⟩
  | attach hs =>
    obtain ⟨hf, hfs⟩ := List.forall_mem_cons.1 hframes
    exact ⟨hclosed, htypes, hrules, List.forall_mem_cons.2
      ⟨hf.mapInstalled fun _ => rfl, hfs⟩, hrecords⟩
  | @note _ _ _ _ _ d | @forget _ _ _ _ _ d =>
    refine hall.watch d _ ((hframes _ List.mem_cons_self).mapInstalled fun _ => ?_)
    cases d <;> rfl
  | shed =>
    obtain ⟨hf, hfs⟩ := List.forall_mem_cons.1 hframes
    exact ⟨hclosed, htypes, hrules, List.forall_mem_cons.2 ⟨hf.shed, hfs⟩, hrecords⟩

end Machine

end TypeFlow
