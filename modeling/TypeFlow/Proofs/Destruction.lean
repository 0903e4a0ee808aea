import TypeFlow.Proofs.Accounts
import TypeFlow.Proofs.ReverseIndexes
import TypeFlow.Proofs.Settled

/-!
# What goes with a site

A site that is destroyed takes along its children, theirs and so on, and the private vertices of all
of them. Nobody lists them afterwards, and they have nothing in place.
-/

set_option autoImplicit false

namespace TypeFlow

open State

namespace State

variable {s s' : State} {e : Engine} {log : List Event}

structure Leaves (s : State) (e : Engine) : Prop where
  blank : s.Blank
  numbered : s.Numbered
  sites : e.SitesAge s.engine
  graph : e.graph.Ages s.engine.graph
  kept : ∀ u a x, e.site? u = some x → x.effects.installed.Holds a → e.Spares a →
    s.engine.Spares a → s.HoldsOn u a

theorem Leaves.move (h : s.Leaves e) (he : (e.rest log).Kept) (hm : Move s s')
    (hk : s.Kept) (hc : s'.Called) (hlog : s'.progress.log = s.progress.log) : s'.Leaves e := by
  have hsites : s.engine.SitesAge s'.engine := hm.sitesAge hk.sound fun es hes ev hev => by
    rw [hlog, List.self_eq_append_right] at hes
    rw [hes] at hev
    cases hev
  have hgraph : s.engine.graph.Ages s'.engine.graph := by
    obtain ⟨born, howned⟩ := hk.owned
    exact (hm.turn.resolve_right (by simp [hlog])).ages howned.settled
  refine ⟨h.blank.move hm hk hc, h.numbered.move hm, h.sites.trans hsites, h.graph.trans hgraph,
    fun u a x hx hmem hfirst ha => (h.kept u a x hx hmem hfirst ?_).move hm hk h.blank h.numbered
      (by simp [hlog]) ha⟩
  cases a with
  | inl c =>
    obtain ⟨y, hy, hlive⟩ := (Option.any_eq_true ..).1 ha
    have hfree : c.index ∉ e.sites.free := fun hi => by
      obtain ⟨⟨z, hz, hgone⟩, -⟩ :=
        he.sound.machine.filed.given_up c.index (List.mem_append_right _ hi)
      have hz : e.site? c = some z := hz
      simp [Engine.Spares, Engine.isLive, hz, hgone] at hfirst
    obtain ⟨z, hz, hlive, -⟩ := hsites.lives c y.node
      ((Engine.lt_size_of_isLive hfirst).trans_le h.sites.size) (fun hi => hfree (h.sites.free _
        hi))
      ⟨y, hy, by simpa using hlive, rfl⟩
    simp [Engine.Spares, Engine.isLive, hz, hlive]
  | inr v =>
    obtain ⟨born, howned⟩ := he.owned
    obtain ⟨hsize, hfree⟩ := Graph.Settled.uses_of_alive howned.settled hfirst
    exact hgraph.alive v (Nat.lt_of_lt_of_le hsize h.graph.size)
      (fun hi => hfree (h.graph.free _ hi)) ha

theorem Leaves.moves (h : s.Leaves e) (he : (e.rest log).Kept) (hm : Moves s s')
    (hk : s.Kept) (hc : s'.Called) (hlog : s'.progress.log = s.progress.log) : s'.Leaves e := by
  induction hm with
  | refl => exact h
  | tail hfirst hlast ih =>
    obtain ⟨es, hes⟩ := Moves.log hfirst
    obtain ⟨es', hes'⟩ := hlast.log
    rw [hlog, hes, List.append_assoc, List.self_eq_append_right, List.append_eq_nil_iff] at hes'
    rw [hes'.1, List.append_nil] at hes
    exact (ih (hlast.called hc) hes).move he hlast (hk.moves hfirst) hc (hlog.trans hes.symm)

/-- The private vertices of a site are alive. -/
theorem Kept.alive_of_scratch (h : (e.rest log).Kept) {u : SiteId} {x : Site} {v : VertexId}
    (hx : e.site? u = some x) (hv : v ∈ x.effects.installed.scratch.values) :
    (e.graph.get v).alive = true := by
  obtain ⟨born, howned⟩ := h.owned
  by_contra hnot
  have hnone := howned.held_of_dead (Bool.eq_false_iff.2 hnot)
  have hcount : x.effects.holdings.count v ≤ Machine.stored e.sites v :=
    List.le_sum_of_mem (List.mem_map_of_mem (Array.mem_toList_iff.2 (Array.mem_of_getElem? hx)))
  have hpos := List.count_pos_iff.2 (mem_holdings.2 (.inl hv))
  have hnone : _ + Machine.stored e.sites v + _ + _ = 0 := hnone
  omega

end State

namespace Engine

def Child (e : Engine) (u c : SiteId) : Prop :=
  ∃ x, e.site? u = some x ∧ c ∈ x.effects.installed.sites.values

structure Forgets (e : Engine) (u : SiteId) : Prop where
  dead : e.isLive u = false
  listeners : ∀ v, u ∉ (e.graph.get v).listeners.toList
  methods : ∀ key m, e.world.method? key = some m →
    u ∉ m.callsites.toList ∧ u ∉ m.decls.toList ∧ u ∉ m.defs.toList
  consts : ∀ key c, e.world.const? key = some c → u ∉ c.followers.toList
  modules : ∀ m, u ∉ (e.module m).subclassChecks.toList ∧ u ∉ (e.module m).ivarReads.toList

theorem forgets_of_dead {e : Engine} {hand : List VertexId} {u : SiteId} (hp : e.Posted)
    (hx : (Machine.mk e [] hand).Exact) (hu : e.isLive u = false) : e.Forgets u := by
  have hgone : ∀ {wants}, ¬e.Keeps wants u := by
    rintro wants ⟨x, hx, hlive, -⟩
    simp [isLive, hx, hlive] at hu
  have hfile := hx.not_mem_watchers hu
  have hpost : ∀ p, u ∉ e.world.posts p := fun p h => hgone (hp.live p u h)
  refine ⟨hu, fun v h => hgone (hp.heard v u h), fun key m hm => ⟨fun h => ?_, fun h => ?_,
    fun h => ?_⟩, fun key c hc h => ?_, fun m => ⟨hfile (.superclass m), hpost (.reader m)⟩⟩
  · exact hfile (.method key) (World.mem_watchers_method.2 ⟨m, hm, h⟩)
  · refine hpost (.signature key) ?_
    show u ∈ ((e.world.method? key).map fun m => m.decls.toList).getD []
    rwa [hm]
  · refine hpost (.body key) ?_
    show u ∈ ((e.world.method? key).map fun m => m.defs.toList).getD []
    rwa [hm]
  · exact hfile (.const key) (World.mem_watchers_const.2 ⟨c, hc, h⟩)

end Engine

def Effects.Bare (fx : Effects) : Prop :=
  fx.installed.edges = {} ∧ fx.installed.sites = {} ∧ (∀ d, ¬fx.installed.Reads d) ∧
    fx.installed.scratch = {} ∧ fx.pending = {}

/-- After any requests, failed or not, every site can be destroyed. Then it and all sites below it
are gone and forgotten, have nothing in place, and their private vertices are dead. -/
theorem destroyed_sites_leave_nothing (config : Config) (rs : List Request) (s : SiteId) :
    let e := (Workspace.serve config rs).engine
    ∃ e', Engine.destroySite s e = .ok () e' ∧
      ∀ u, Relation.ReflTransGen e.Child s u → e'.Forgets u ∧ ∀ x, e.site? u = some x →
        (∃ y, e'.site? u = some y ∧ y.destroyed = true ∧ y.effects.Bare) ∧
          ∀ v ∈ x.effects.installed.scratch.values, (e'.graph.get v).alive = false := by
  intro e
  obtain ⟨log, hserve, hfits⟩ := Workspace.moves_serve config rs
  obtain ⟨_, hinvariants, -⟩ := Workspace.invariants_serve config rs
  have hboot := Boot.kept_boot config
  have hserve : Moves _ (e.rest log) := hserve
  have hblank : (e.rest log).Blank := ⟨hinvariants.blank.slots, hinvariants.blank.opened⟩
  clear_value e
  have hkept := hboot.moves hserve
  obtain ⟨_, e', _, hok, hmoves, hdead, hdwindles⟩ :=
    (Engine.destroys_destroySite e.population e [] { log } s (by simp) (Nat.le_refl _)).ok
      hkept.sound
  have hmoves : Moves (e.rest log) (e'.rest log) := hmoves
  have hrun := hserve.trans hmoves
  have hkept' := hkept.moves hmoves
  have hleaves : (e'.rest log).Leaves e :=
    Leaves.moves (s := e.rest log) ⟨hblank, fun _ ht => absurd ht List.not_mem_nil, .refl e,
      .refl e.graph, fun u a x hx hmem _ _ => .slot hx hmem⟩ hkept hmoves hkept ⟨_,
        hfits.called⟩ rfl
  have hbare : ∀ {u y}, e'.isLive u = false → e'.site? u = some y →
      y.destroyed = true ∧ y.effects.Bare := by
    intro u y hu hy
    have hgone : y.destroyed = true := by simpa [Engine.isLive, hy] using hu
    obtain ⟨hload, hheld, hpending⟩ := hleaves.blank.slots u y hy (.inl hgone)
    obtain ⟨hedges, hsites⟩ := Prod.ext_iff.1 hload
    refine ⟨hgone, hedges, hsites, hkept'.sound.machine.filed.idle u y hy hgone
      (fun f hf => absurd hf List.not_mem_nil), ?_, hpending⟩
    have hvalues := (List.append_eq_nil_iff.1 hheld).1
    exact congrArg OrderedMap.mk (List.map_eq_nil_iff.1 hvalues)
  have hall : ∀ u, Relation.ReflTransGen e.Child s u → e'.isLive u = false := by
    intro u hu
    induction hu with
    | refl => exact hdead
    | tail _ hchild ih =>
      obtain ⟨x, hx, hmem⟩ := hchild
      refine Bool.eq_false_iff.2 fun hlive => ?_
      cases hleaves.kept _ (.inl _) x hx hmem (hdwindles _ hlive) hlive with
      | slot hy h =>
        unfold Installed.Holds at h
        rw [(hbare ih hy).2.2.1] at h
        cases h
      | task ht => cases ht
  refine ⟨e', hok, fun u hu => ⟨Engine.forgets_of_dead
    ((Boot.namesTracked_boot config).moves hboot.sound hrun).posted
      hkept'.sound.machine.filed.toExact
    (hall u hu), fun x hx => ⟨?_, fun v hv => ?_⟩⟩⟩
  · have hsize : u.index < e'.sites.size := (Slots.lt_size_of_get? hx).trans_le hleaves.sites.size
    obtain ⟨y, hy⟩ : ∃ y, e'.site? u = some y := ⟨_, Array.getElem?_eq_getElem hsize⟩
    exact ⟨y, hy, hbare (hall u hu) hy⟩
  · refine Bool.eq_false_iff.2 fun hlive => ?_
    cases hleaves.kept u (.inr v) x hx hv (hkept.alive_of_scratch hx hv) hlive with
    | slot hy h =>
      unfold Installed.Holds at h
      rw [(hbare (hall u hu) hy).2.2.2.2.1] at h
      cases h
    | task ht => cases ht
    | hand h => cases h

end TypeFlow
