import TypeFlow.Proofs.Turns

/-!
# What is torn down is released

While records are only dropped, a vertex leaves its record only to be destroyed, and a site stays
with its node until it is destroyed. So once the record of a node is gone, nothing that it listed
is left.
-/

set_option autoImplicit false

namespace TypeFlow

open State Machine

def Event.Gentle : Event → Prop
  | .drop _ | .spill => True
  | .start _ | .adopt .. | .sweep => False

theorem State.Move.log {s s' : State} (hm : Move s s') : ∃ es, s'.progress.log =
    s.progress.log ++ es := by
  cases hm with
  | sweep | start | adopt | lift | miss | breakRun | refuse => exact ⟨[_], rfl⟩
  | _ => exact ⟨[], (List.append_nil _).symm⟩

theorem State.Moves.log {s s' : State} (hm : Moves s s') :
    ∃ es, s'.progress.log = s.progress.log ++ es := by
  induction hm with
  | refl => exact ⟨[], (List.append_nil _).symm⟩
  | tail _ hlast ih =>
    obtain ⟨es, hes⟩ := ih
    obtain ⟨es', hes'⟩ := hlast.log
    exact ⟨es ++ es', by rw [hes', hes, List.append_assoc]⟩

namespace Engine

variable {e e' e'' : Engine}

def Enlists (e e' : Engine) : Prop :=
  ∀ n r, e.record? n = some r → ∃ r', e'.record? n = some r' ∧ ∀ v ∈ r.vertices, v ∈ r'.vertices

theorem Enlists.of_nodes (h : e'.nodes = e.nodes) : e.Enlists e' := fun n r hr => by
  refine ⟨r, ?_, fun _ => id⟩
  unfold record?
  rw [h]
  exact hr

theorem Enlists.modifyNode (e : Engine) (m : NodeId) {f : NodeRecord → NodeRecord}
    (hf : ∀ r, ∀ v ∈ r.vertices, v ∈ (f r).vertices) : e.Enlists (e.modifyNode m f) := by
  intro n r hr
  rw [record?_modifyNode]
  split
  · exact ⟨f r, by rw [hr]; rfl, hf r⟩
  · exact ⟨r, hr, fun _ => id⟩

theorem Enlists.trans (h : e.Enlists e') (h' : e'.Enlists e'') : e.Enlists e'' := by
  intro n r hr
  obtain ⟨r', hr', hv⟩ := h n r hr
  obtain ⟨r'', hr'', hv'⟩ := h' n r' hr'
  exact ⟨r'', hr'', fun v hmem => hv' v (hv v hmem)⟩

theorem Enlists.installBlock (e : Engine) (b : Block) (returns : List NodeId) :
    e.Enlists (e.installBlock b returns) := by
  have hadd : e.Enlists (e.addBlock b).2 := .of_nodes rfl
  have hreturns := Enlists.modifyNode (e.addBlock b).2 b.node
    (f := fun r => { r with returns }) fun r v hv => hv
  exact (hadd.trans hreturns).trans (.modifyNode _ _ fun r v hv => hv)

theorem Enlists.placeSite (e : Engine) (node : NodeId) (rule : Rule) :
    e.Enlists (e.placeSite node rule).2 := by
  have henter := Enlists.modifyNode e node
    (f := fun r => { r with sites := r.sites.insert (e.enterSite node rule).1 }) fun r v hv => hv
  exact henter.trans (.of_nodes ((SameStock.post (e.enterSite node rule).2 _ rule).schedule
    [_]).nodes)

theorem Enlists.destroying (e : Engine) (s : SiteId) (x : Site) :
    e.Enlists (e.destroying s x).engine := by
  have hmark := Enlists.modifyNode e x.node
    (f := fun r => { r with sites := r.sites.erase s }) fun r v hv => hv
  exact hmark.trans (.of_nodes (SameStock.unpost s (e.markDestroyed s x) x.rule).nodes)

structure SitesAge (e e' : Engine) : Prop where
  size : e.sites.size ≤ e'.sites.size
  free : ∀ i ∈ e'.sites.free, i ∈ e.sites.free
  lives : ∀ t n, t.index < e.sites.size → t.index ∉ e.sites.free → e'.Lives t n → e.Lives t n

theorem SitesAge.refl (e : Engine) : e.SitesAge e :=
  ⟨Nat.le_refl _, fun _ => id, fun _ _ _ _ => id⟩

theorem SitesAge.of_sites (h : e'.sites = e.sites) : e.SitesAge e' :=
  ⟨Nat.le_of_eq (congrArg Slots.size h).symm, fun _ hi => h ▸ hi,
    fun _ _ _ _ => (lives_congr h).1⟩

theorem SitesAge.trans (h : e.SitesAge e') (h' : e'.SitesAge e'') : e.SitesAge e'' where
  size := h.size.trans h'.size
  free i hi := h.free i (h'.free i hi)
  lives t n hlt hfree hl := h.lives t n hlt hfree
    (h'.lives t n (Nat.lt_of_lt_of_le hlt h.size) (fun hi => hfree (h.free _ hi)) hl)

theorem SitesAge.modifySite (e : Engine) (s : SiteId) {f : Site → Site}
    (hn : ∀ x, (f x).node = x.node) (hd : ∀ x, (f x).destroyed = false → x.destroyed = false) :
    e.SitesAge (e.modifySite s f) := by
  refine ⟨Nat.le_of_eq (Slots.size_modify _ _ _).symm, fun _ hi => hi, ?_⟩
  rintro t n - - ⟨x, hx, hlive, hxn⟩
  rw [site?_modifySite] at hx
  split at hx
  · obtain ⟨y, hy, rfl⟩ := Option.map_eq_some_iff.1 hx
    exact ⟨y, hy, hd y hlive, (hn y).symm.trans hxn⟩
  · exact ⟨x, hx, hlive, hxn⟩

theorem SitesAge.placeSite (e : Engine) (node : NodeId) (rule : Rule)
    (hs : (e.sites.released ++ e.sites.free).Nodup)
    (hlt : ∀ i ∈ e.sites.released ++ e.sites.free, i < e.sites.size) :
    e.SitesAge (e.placeSite node rule).2 := by
  have hstock : (e.placeSite node rule).2.sites = (e.sites.alloc { node, rule }).2 :=
    ((SameStock.post (e.enterSite node rule).2 _ rule).schedule [_]).sites
  obtain ⟨-, hfree, hsize, -⟩ := Slots.slots_alloc hs hlt { node, rule }
  refine ⟨hstock ▸ hsize, fun i hi => ?_, ?_⟩
  · rw [hstock, hfree] at hi
    exact List.mem_of_mem_tail hi
  · rintro t n hlt' hnot ⟨x, hx, hlive, hxn⟩
    unfold site? at hx
    rw [hstock, Slots.get?_alloc (fun i hi => hlt i (List.mem_append_right _ hi)), if_neg] at hx
    · exact ⟨x, hx, hlive, hxn⟩
    · rintro he
      rcases e.sites.alloc_index { node, rule } with hi | hi
      · exact hnot (he ▸ hi)
      · omega

end Engine

namespace State

variable {s s' : State} {n : NodeId} {v : VertexId} {t : SiteId}

def Enrols (s : State) (n : NodeId) (v : VertexId) : Prop :=
  (∃ r, s.engine.record? n = some r ∧ v ∈ r.vertices) ∨
    ∃ r, s.progress.lifted = some (n, r) ∧ v ∈ r.vertices

theorem Enrols.of_enlists (h : s.Enrols n v) (he : s.engine.Enlists s'.engine)
    (hl : s'.progress.lifted = s.progress.lifted) : s'.Enrols n v := by
  rcases h with ⟨r, hr, hv⟩ | ⟨r, hr, hv⟩
  · obtain ⟨r', hr', hsub⟩ := he n r hr
    exact Or.inl ⟨r', hr', hsub v hv⟩
  · exact Or.inr ⟨r, hl.trans hr, hv⟩

theorem Enrols.of_nodes (h : s.Enrols n v) (he : s'.engine.nodes = s.engine.nodes)
    (hl : s'.progress.lifted = s.progress.lifted) : s'.Enrols n v :=
  h.of_enlists (.of_nodes he) hl

theorem Enrols.relift {m : NodeId} {x x' : NodeRecord} (h : s.Enrols n v)
    (he : s'.engine.nodes = s.engine.nodes) (hl : s.progress.lifted = some (m, x))
    (hl' : s'.progress.lifted = some (m, x')) (hv : v ∈ x.vertices → v ∈ x'.vertices) :
    s'.Enrols n v := by
  rcases h with ⟨r, hr, hmem⟩ | ⟨r, hr, hmem⟩
  · obtain ⟨r', hr', hsub⟩ := Engine.Enlists.of_nodes he n r hr
    exact Or.inl ⟨r', hr', hsub v hmem⟩
  · rw [hl] at hr
    cases hr
    exact Or.inr ⟨x', hl', hv hmem⟩

/-- A vertex leaves its record only to die, or with a record that is handed over. -/
theorem Move.enrols (hm : Move s s') (hfresh : ∀ m, s'.progress.log = s.progress.log ++ [.start m] ∨
      (∃ old, s'.progress.log = s.progress.log ++ [.adopt m old]) → s.engine.record? m = none)
    (h : s.Enrols n v) : s'.Enrols n v ∨ (s'.engine.graph.get v).alive = false ∨
      ∃ new, s'.progress.log = s.progress.log ++ [.adopt new n] ∧ s'.Enrols new v := by
  cases hm with
  | sweep => exact Or.inl (h.of_nodes (Engine.nodes_reclaim _) rfl)
  | @start e d m path span hl =>
    refine Or.inl (h.of_enlists (fun k r hr => ⟨r, ?_, fun _ => id⟩) rfl)
    have hm : m ≠ k := fun he => absurd (hfresh m (.inl rfl))
      (by rw [he, show e.record? k = _ from hr]; simp)
    rw [Engine.record?_insert, if_neg hm]
    exact hr
  | @adopt e d path rename new old hl =>
    cases ho : e.record? old with
    | none =>
      rw [Engine.adoptNode_none ho]
      exact Or.inl h
    | some record =>
      obtain ⟨r, hr, hv⟩ := h.resolve_right fun ⟨_, hr, _⟩ => by cases hl.symm.trans hr
      have hr : e.record? n = some r := hr
      have hnew : e.record? new.id = none := hfresh new.id (.inr ⟨old, rfl⟩)
      obtain ⟨record', hinherits, hget⟩ := Engine.record?_adoptNode ho path rename new
      by_cases hn : old = n
      · subst hn
        cases ho.symm.trans hr
        exact Or.inr (Or.inr ⟨new.id, rfl, Or.inl ⟨record', by rw [hget, if_pos rfl],
          hinherits.vertices ▸ hv⟩⟩)
      · refine Or.inl (Or.inl ⟨r, ?_, hv⟩)
        rw [hget, if_neg, if_neg hn]
        · exact hr
        · rintro rfl
          cases hnew.symm.trans hr
  | aside hq => exact Or.inl (h.of_nodes hq.nodes rfl)
  | annotate m ha =>
    exact Or.inl (h.of_enlists (.modifyNode _ m fun r v hv => ha.vertices r ▸ hv) rfl)
  | ownVertex | ownSource =>
    exact Or.inl (h.of_enlists ((Engine.Enlists.of_nodes rfl).trans
      (.modifyNode _ _ fun r v hv => List.mem_append_left _ hv)) rfl)
  | define hn hk =>
    exact Or.inl (h.of_enlists ((Engine.Enlists.of_nodes (Engine.SameStock.enter _ _ _).nodes).trans
      (.modifyNode _ _ fun r v hv => hv)) rfl)
  | installBlock returns ho => exact Or.inl (h.of_enlists (.installBlock _ _ returns) rfl)
  | closeNode ret nameSpan hw ho hn hp =>
    exact Or.inl (h.of_enlists (.modifyNode _ _ fun r v hv => hv) rfl)
  | @lift e d m x hx hh hl ho =>
    rcases h with ⟨r, hr, hv⟩ | ⟨r, hr, -⟩
    · by_cases hm : m = n
      · subst hm
        cases hx.symm.trans hr
        exact Or.inl (Or.inr ⟨x, rfl, hv⟩)
      · exact Or.inl (Or.inl ⟨r, by rw [Engine.record?_erase, if_neg hm]; exact hr, hv⟩)
    · cases hl.symm.trans hr
  | openLifted hl | clearSite hl => exact Or.inl (h.relift rfl hl rfl id)
  | unregister hl hr => exact Or.inl (h.relift (Engine.SameStock.unregister _ _ _).nodes hl rfl id)
  | @removeBlock e d m x hl =>
    rw [(Engine.exists_removeBlock_eq e x.block).choose_spec]
    exact Or.inl (h.relift rfl hl rfl id)
  | @buryLifted e d m x u us hl hh hu =>
    by_cases huv : u = v
    · have hgraph : (e.destroyVertex u).graph = (e.graph.destroy u).graph :=
        Engine.graph_adoptGraph _ _
      refine Or.inr (Or.inl ?_)
      show ((e.destroyVertex u).graph.get v).alive = false
      rw [hgraph, (Graph.destroy_life _ _).2, if_pos huv]
    · refine Or.inl (h.relift (Engine.SameStock.adoptGraph _ _).nodes hl rfl fun hv => ?_)
      rw [hu] at hv
      exact (List.mem_cons.1 hv).resolve_left fun he => huv he.symm
  | putDown hl he hs hr hb hv =>
    refine Or.inl (Or.inl (h.resolve_right ?_))
    rintro ⟨r, hr', hmem⟩
    cases hl.symm.trans hr'
    rw [hv] at hmem
    cases hmem
  | beginDestroy hx hlive hs => exact Or.inl (h.of_enlists (.destroying _ _ _) rfl)
  | placeSite ha hk => exact Or.inl (h.of_enlists (.placeSite _ _ _) rfl)
  | @installEdges e ts d t =>
    exact Or.inl (h.of_nodes (Engine.SameStock.installEdges ⟨e, t.effects⟩).nodes rfl)
  | bury hh => exact Or.inl (h.of_nodes (Engine.SameStock.adoptGraph _ _).nodes rfl)
  | _ => exact Or.inl (h.of_nodes rfl rfl)

theorem Move.sitesAge (hm : Move s s') (hs : s.Sound) (hlog : ∀ es,
    s'.progress.log = s.progress.log ++ es → ∀ ev ∈ es, ev.Gentle) : s.engine.SitesAge s'.engine :=
      by
  have hrough : ∀ {ev : Event}, s'.progress.log = s.progress.log ++ [ev] → ev.Gentle := fun he =>
    hlog _ he _ (List.mem_singleton_self _)
  cases hm with
  | sweep | start | adopt => exact (hrough rfl).elim
  | aside hq => exact .of_sites hq.sites
  | define hn hk => exact .of_sites (Engine.SameStock.enter _ _ _).sites
  | unregister hl hr => exact .of_sites (Engine.SameStock.unregister _ _ _).sites
  | @removeBlock e d m x hl =>
    rw [(Engine.exists_removeBlock_eq e x.block).choose_spec]
    exact .of_sites rfl
  | buryLifted | bury => exact .of_sites (Engine.SameStock.adoptGraph _ _).sites
  | @installEdges e ts d t => exact .of_sites (Engine.SameStock.installEdges ⟨e, t.effects⟩).sites
  | @beginRun e d s x queue hl hx hlive hq =>
    have hage := Engine.SitesAge.modifySite e s (f := fun x => { x with effects := {} })
      (fun _ => rfl) fun _ => id
    exact hage.trans (.of_sites rfl)
  | endRun | breakRun => exact .modifySite _ _ (fun _ => rfl) fun _ => id
  | @beginDestroy e ts d s x hx hlive hs' =>
    have hmark := Engine.SitesAge.modifySite e s
      (f := fun x =>
        { x with destroyed := true, effects := {} }) (fun _ => rfl) fun _ hx => by cases hx
    exact hmark.trans (.of_sites (Engine.sites_destroying e s x))
  | @endDestroy e ts d t s =>
    have h := Engine.SitesAge.modifySite e s (f := fun x => { x with effects := t.effects })
      (fun _ => rfl) fun _ => id
    exact ⟨h.size, h.free, h.lives⟩
  | placeSite ha hk =>
    have horderly := hs.machine.filed.toOrderly
    refine .placeSite _ _ _ horderly.nodup fun i hi => ?_
    obtain ⟨⟨x, hx, -⟩, -⟩ := horderly.given_up i hi
    exact Slots.lt_size_of_get? hx
  | _ => exact .of_sites rfl

structure Ties (n : NodeId) (v : VertexId) (s : State) : Prop where
  slot : v.index < s.engine.graph.vertices.size
  kept : v.index ∉ s.engine.graph.vertices.free
  enrolled : (s.engine.graph.get v).alive = true → s.Enrols n v

theorem Ties.move {born : VertexId → List Ty} (h : Ties n v s) (hm : Move s s')
    (ho : s.machine.Owned born) (hlog : ∀ es, s'.progress.log = s.progress.log ++ es →
      ∀ ev ∈ es, ev.Gentle) : Ties n v s' := by
  have hturn : s.engine.graph.Turn s'.engine.graph :=
    hm.turn.resolve_right fun he => hlog _ he _ (List.mem_singleton_self _)
  have hages := hturn.ages ho.settled
  refine ⟨Nat.lt_of_lt_of_le h.slot hages.size, fun hi => h.kept (hages.free _ hi), fun hlive => ?_⟩
  have hrough : ∀ {ev : Event}, s'.progress.log = s.progress.log ++ [ev] → ev.Gentle := fun he =>
    hlog _ he _ (List.mem_singleton_self _)
  have hbefore := h.enrolled (hages.alive v h.slot h.kept hlive)
  have hrecords := hm.enrols (n := n) (v := v) fun m hnew =>
    (hnew.elim hrough fun ⟨_, hnew⟩ => hrough hnew : False).elim
  rcases hrecords hbefore with hafter | hdead | ⟨new, hnew, -⟩
  · exact hafter
  · cases hlive.symm.trans hdead
  · exact (hrough hnew).elim

theorem forall_of_append {P : Event → Prop} {log0 log1 log2 es es2 : List Event}
    (h1 : log1 = log0 ++ es) (h2 : log2 = log1 ++ es2)
    (h : ∀ es, log2 = log0 ++ es → ∀ ev ∈ es, P ev) :
    (∀ es, log1 = log0 ++ es → ∀ ev ∈ es, P ev) ∧ ∀ es, log2 = log1 ++ es → ∀ ev ∈ es, P ev := by
  subst h1 h2
  have hall := h (es ++ es2) (List.append_assoc _ _ _)
  constructor
  · intro es' he ev hev
    rw [← List.append_cancel_left he] at hev
    exact hall ev (List.mem_append_left _ hev)
  · intro es' he ev hev
    rw [← List.append_cancel_left he] at hev
    exact hall ev (List.mem_append_right _ hev)

theorem Ties.moves {born : VertexId → List Ty} (h : Ties n v s) (hm : Moves s s') (hs : s.Sound)
    (ht : s.machine.KeysDistinct) (ho : s.machine.Owned born)
    (hlog : ∀ es, s'.progress.log = s.progress.log ++ es → ∀ ev ∈ es, ev.Gentle) : Ties n v s' := by
  induction hm with
  | refl => exact h
  | tail hfirst hlast ih =>
    obtain ⟨es, hes⟩ := Moves.log hfirst
    obtain ⟨es', hes'⟩ := hlast.log
    obtain ⟨hlog1, hlog2⟩ := forall_of_append hes hes' hlog
    obtain ⟨-, born', ho'⟩ := ho.steps ht (Moves.steps hfirst hs)
    exact (ih hlog1).move hlast ho' hlog2

theorem Moves.sitesAge (hm : Moves s s') (hs : s.Sound)
    (hlog : ∀ es, s'.progress.log = s.progress.log ++ es → ∀ ev ∈ es, ev.Gentle) :
    s.engine.SitesAge s'.engine := by
  induction hm with
  | refl => exact .refl _
  | tail hfirst hlast ih =>
    obtain ⟨es, hes⟩ := Moves.log hfirst
    obtain ⟨es', hes'⟩ := hlast.log
    obtain ⟨hlog1, hlog2⟩ := forall_of_append hes hes' hlog
    exact (ih hlog1).trans (hlast.sitesAge (hs.moves hfirst) hlog2)

end State

namespace Machine

variable {m : Machine} {born : VertexId → List Ty} {n : NodeId} {r : NodeRecord} {v : VertexId}

theorem Owned.listed_le (h : m.Owned born) (v : VertexId) :
    listed m.engine.nodes v ≤ if (m.engine.graph.get v).alive = true then 1 else 0 := by
  have hheld := h.held v
  unfold Machine.held at hheld
  omega

theorem Owned.alive_of_listed (h : m.Owned born) (hr : m.engine.record? n = some r)
    (hv : v ∈ r.vertices) : (m.engine.graph.get v).alive = true := by
  have herase := listed_erase n (v := v) hr
  have hcount := List.count_pos_iff.2 hv
  have hle := h.listed_le v
  by_contra hdead
  rw [if_neg hdead] at hle
  omega

end Machine

namespace State

variable {s s' : State} {n : NodeId} {v : VertexId} {t : SiteId} {born : VertexId → List Ty}

theorem Moves.dead_of_listed {r : NodeRecord} (hm : Moves s s') (hs : s.Sound)
    (ht : s.machine.KeysDistinct) (ho : s.machine.Owned born)
    (hlog : ∀ es, s'.progress.log = s.progress.log ++ es → ∀ ev ∈ es, ev.Gentle)
    (hr : s.engine.record? n = some r) (hv : v ∈ r.vertices) (hn : s'.engine.record? n = none)
    (hl : s'.progress.lifted = none) : (s'.engine.graph.get v).alive = false := by
  have halive : (s.engine.graph.get v).alive = true := ho.alive_of_listed hr hv
  have hties : Ties n v s := ⟨Graph.lt_size_of_alive halive, ho.settled.not_free_of_alive halive,
    fun _ => Or.inl ⟨r, hr, hv⟩⟩
  by_contra hlive
  rcases (hties.moves hm hs ht ho hlog).enrolled (by simpa using hlive) with ⟨x, hx, -⟩ | ⟨x, hx, -⟩
  · cases hn.symm.trans hx
  · cases hl.symm.trans hx

theorem Moves.not_live_of_listed {roll roll' : Roll} (hm : Moves s s') (hs : s.Sound)
    (h : Homed roll s) (h' : Homed roll' s')
    (hlog : ∀ es, s'.progress.log = s.progress.log ++ es → ∀ ev ∈ es, ev.Gentle)
    (hlists : s.engine.Lists n t) (hn : n ∉ roll'.keys) (hl : s'.progress.lifted = none) :
    s'.engine.isLive t = false := by
  have hlives := h.homes.listed n t hlists
  obtain ⟨x, hx, hlive, -⟩ := id hlives
  have hlt : t.index < s.engine.sites.size := Slots.lt_size_of_get? hx
  have hfree : t.index ∉ s.engine.sites.free := fun hi => by
    obtain ⟨⟨y, hy, hdead⟩, -⟩ := hs.machine.filed.given_up t.index (List.mem_append_right _ hi)
    cases hx.symm.trans hy
    rw [hlive] at hdead
    cases hdead
  have hgone : ∀ m, ¬s'.engine.Lives t m := fun m hm' => by
    have hsame := Engine.lives_unique hlives ((hm.sitesAge hs hlog).lives t m hlt hfree hm')
    subst hsame
    obtain ⟨y, hy, -⟩ := (h'.homes.sites t n hm').resolve_right
      fun ⟨_, he, _⟩ => by cases hl.symm.trans he
    exact hn ((h'.keys n).2 ⟨y, hy⟩)
  by_contra hlive'
  obtain ⟨y, hy, hylive⟩ := (Option.any_eq_true ..).1 (by simpa [Engine.isLive] using hlive')
  exact hgone y.node ⟨y, hy, by simpa using hylive, rfl⟩

end State

end TypeFlow
