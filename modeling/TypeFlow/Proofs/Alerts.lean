import TypeFlow.Proofs.Warnings

/-!
# Who looked names up knows when to look again

A site whose rule only looks names up is steady as long as another run of it would ask for what is
in place. Names that come to lead elsewhere are announced, so at every moment such a site waits for
its run, or runs, or is steady.
-/

set_option autoImplicit false

namespace TypeFlow

/-- What a run has to ask for to find it in place: edges and names. -/
def Installed.asked (x : Installed) : Pending where
  edges := x.edges
  constReads := x.constReads
  superclassReads := x.superclassReads

theorem Rule.Nominal.run_eq {rule : Rule} (h : rule.Nominal) (n n' : NodeId) :
    rule.run n = rule.run n' := by
  cases rule with
  | constRead | globalRead | methodDecl | typeRead | ivarRead => rfl
  | _ => cases h

namespace Site

structure Steady (e : Engine) (x : Site) : Prop where
  plain : x.effects = { installed := {
    edges := x.effects.installed.edges
    constReads := x.effects.installed.constReads
    superclassReads := x.effects.installed.superclassReads } }
  again : x.rule.run x.node ⟨e, x.effects⟩ =
    some ((), ⟨e, ⟨x.effects.installed, x.effects.installed.asked⟩⟩)

variable {e e' : Engine} {x x' : Site}

open Engine

/-- A site whose effects are those of a run is steady where names lead as in the run. -/
theorem Steady.of_ran (hn : x.rule.Nominal) (hc : e.world.Closed)
    (h : x.rule.Ran x.node e x.effects) : x.Steady e := by
  obtain ⟨r, r', sites, hpending, hclosed, hknown, hrun, hup, hsites, hfx⟩ := h
  obtain ⟨-, hwithin, hagain⟩ := Rule.echoes_run hn x.node hclosed hknown () r' hrun
  have hrest := hwithin.rest
  rw [hpending] at hrest hagain
  have hagain := hagain e x.effects.installed (hup.confirms hc x.rule _)
  generalize r'.effects.pending = asked at *
  obtain ⟨edges, asks, diagnostics, methodReads, constReads, superclassReads, scratch, ordinals⟩ :=
    asked
  cases hrest
  cases hsites rfl
  rw [hfx] at hagain
  refine ⟨?_, ?_⟩
  · rw [hfx]
  · rw [hfx]
    exact hagain

theorem Steady.confirm (h : x.Steady e) (hn : x.rule.Nominal) (hc : e.world.Closed)
    (hk : x.rule.Known e.world)
    (hconf : Confirms x.rule x.effects.installed.asked e e') (hrule : x'.rule = x.rule)
    (hfx : x'.effects = x.effects) : x'.Steady e' := by
  refine ⟨hfx ▸ h.plain, ?_⟩
  obtain ⟨-, -, hagain⟩ := Rule.echoes_run (r := ⟨e, x.effects⟩) hn x.node hc hk () _ h.again
  rw [hrule, hfx, hn.run_eq x'.node x.node]
  exact hagain e' x.effects.installed hconf

theorem Steady.superclasses (h : x.Steady e) (hc : e.world.Closed) {i : IvarRead}
    (hi : x.rule = .ivarRead i) (hside : i.key.side.singleton = false) {m : ModuleId}
    (hm : m ∈ x.effects.installed.superclassReads.toList) :
    m ∈ e.world.superclasses i.key.side.module := by
  have hagain := h.again
  rw [hi] at hagain
  have heq := congrArg Prod.snd (Option.some.inj ((IvarRead.run_eq i ⟨e, x.effects⟩ rfl).symm.trans
    hagain))
  have hown : (e.ensureIvar i.key).2 = e := congrArg Run.engine heq
  have hreads := congrArg (fun r => r.effects.pending.superclassReads) heq
  have hpending : x.effects.pending = {} := congrArg Effects.pending h.plain
  have hside : i.key.side = ⟨i.key.side.module, false⟩ := by rw [← hside]
  change (((e.ensureIvar i.key).2.world.chain i.key.side).map Side.module).foldl OrderedSet.insert
    x.effects.pending.superclassReads = x.effects.installed.superclassReads at hreads
  rw [hown, hpending, hside, World.modules_chain hc] at hreads
  rw [← hreads] at hm
  exact (OrderedSet.mem_foldl_insert.1 hm).resolve_left List.not_mem_nil

theorem effects_relabel_iterate {new : NodeId} {rename : NodeId → NodeId}
    (h : x.effects.installed.diagnostics = []) (k : Nat) :
    ((Site.relabel new rename)^[k] x).effects = x.effects := by
  induction k with
  | zero => rfl
  | succ k ih =>
    rw [Function.iterate_succ_apply']
    show ((Site.relabel new rename)^[k] x).effects.renameNodes rename = _
    rw [ih]
    unfold Effects.renameNodes
    rw [h, List.map_nil, ← h]

end Site

theorem Rule.Ran.upholds {rule : Rule} {node : NodeId} {e e' : Engine} {fx : Effects}
    (h : rule.Ran node e fx) (hup : e.Upholds e') : rule.Ran node e' fx := by
  obtain ⟨r, r', sites, hpending, hclosed, hknown, hrun, hran, hsites, hfx⟩ := h
  exact ⟨r, r', sites, hpending, hclosed, hknown, hrun, hran.trans hup, hsites, hfx⟩

namespace Engine

theorem Prolongs.post (e : Engine) (s : SiteId) (rule : Rule) : e.Prolongs (e.post s rule) := by
  cases rule with
  | methodDecl r =>
    have hdecl : e.Prolongs (e.changeDecls r.key (·.insert s)) := Recedes.changeDecls ..
    exact hdecl
  | methodDef r =>
    have hdef : e.Prolongs (e.changeDefs r.key (·.insert s)) := Recedes.changeDefs ..
    exact hdef
  | ivarRead r => exact .of_eq rfl rfl
  | _ => exact .refl e

theorem Prolongs.placeSite (e : Engine) (node : NodeId) (rule : Rule) :
    e.Prolongs (e.placeSite node rule).2 :=
  ((Prolongs.enterSite e node rule).trans (.post _ _ rule)).trans (.schedule _ _)

theorem Prolongs.destroying (e : Engine) (s : SiteId) (x : Site) :
    e.Prolongs (e.destroying s x).engine := by
  have hmark : e.Prolongs (e.modifySite s fun x => { x with destroyed := true }) :=
    .modifySite e s _ fun _ _ => rfl
  have hunlisted : (e.modifySite s fun x => { x with destroyed := true }).Prolongs
      (e.markDestroyed s x) := .of_eq rfl rfl
  have hunposted := Rule.related_unregister (R := Prolongs) s (e.markDestroyed s x) x.rule
  exact (hmark.trans (hunlisted.trans hunposted)).trans (.modifySite _ s _ fun _ => id)

end Engine

namespace State

open Engine

def Attends (s : State) (u : SiteId) : Prop :=
  u ∈ s.engine.queue.toList ∨ .run u ∈ s.tasks.map Task.work

def Alert (s : State) : Prop :=
  .spill ∈ s.progress.log ∨ ∀ u x, s.engine.site? u = some x → x.destroyed = false →
    x.rule.Nominal → s.Attends u ∨ x.Steady s.engine

variable {s s' : State} {u : SiteId} {x x' : Site}

/-- Between its runs a live site is filed under all that it consulted. -/
theorem Sound.watches (hs : s.Sound) (hx : s.engine.site? u = some x) (hlive : x.destroyed = false)
    (hidle : ¬s.Attends u) {d : Dependency} (hd : x.effects.installed.Reads d) :
    u ∈ s.engine.world.watchers d := by
  have hfree : Machine.Unheld (s.tasks.map Task.frame) u := by
    intro f hf hw
    obtain ⟨t, ht, rfl⟩ := List.mem_map.1 hf
    have hfits := hs.machine.filed.toOrderly.fits _ hf
    have hframe : t.frame.work = t.work := rfl
    rw [hframe] at hw
    rw [Machine.Fits, hframe] at hfits
    cases hwork : t.work with
    | run u' =>
      rw [hwork] at hw
      cases hw
      exact hidle (.inr (List.mem_map.2 ⟨t, ht, hwork⟩))
    | destroy u' =>
      rw [hwork] at hw hfits
      cases hw
      obtain ⟨y, hy, hdead⟩ := hfits
      cases hx.symm.trans hy
      cases hlive.symm.trans hdead
    | node n =>
      rw [hwork] at hw
      cases hw
  refine (hs.machine.filed.toExact.filed u d).2 ?_
  rw [State.machine, Machine.effectsOf_unheld hfree, hx]
  exact hd

theorem Sound.steady (hs : s.Sound) (hposted : s.engine.Posted) (hw : s.engine.Warns s'.engine)
    (hc : s'.engine.world.Closed) (hx : s.engine.site? u = some x) (hlive : x.destroyed = false)
    (hn : x.rule.Nominal) (hsteady : x.Steady s.engine) (hidle : ¬s.Attends u)
    (hrule : x'.rule = x.rule) (hfx : x'.effects = x.effects) :
    u ∈ s'.engine.queue.toList ∨ x'.Steady s'.engine := by
  have hup : s.engine.isLive u = true := isLive_of_site? hx hlive
  by_cases hq : u ∈ s'.engine.queue.toList
  · exact .inl hq
  refine .inr (hsteady.confirm hn hs.machine.grounded.closed (hs.machine.grounded.rules u x hx) ?_
    hrule hfx)
  refine { hw.toRemembers with closed := hc, constsAt := ?_, lineage := ?_, ivarsAt := ?_ }
  · intro key hkey
    refine (hw.constsAt key).resolve_right fun htold => hq (htold u ?_ hup)
    exact hs.watches hx hlive hidle (d := .const key) hkey
  · intro m hm
    refine (hw.lineage m).resolve_right fun htold => hq (htold u ?_ hup)
    exact hs.watches hx hlive hidle (d := .superclass m) hm
  · intro i hi m hm
    rw [hi] at hn
    refine (hw.ivarsAt m i.key.name).resolve_right fun htold => hq (htold i.key.side.module ?_ u ?_
      hup)
    · exact hsteady.superclasses hs.machine.grounded.closed hi hn hm
    · exact hposted.readers u x i hx hlive hi

theorem Alert.carry (h : s.Alert) (hs : s.Sound) (hposted : s.engine.Posted)
    (hw : s.engine.Warns s'.engine) (hc : s'.engine.world.Closed)
    (hlog : Event.spill ∈ s.progress.log → Event.spill ∈ s'.progress.log)
    (hsite : ∀ u x', s'.engine.site? u = some x' → x'.destroyed = false → x'.rule.Nominal →
      s'.Attends u ∨ x'.Steady s'.engine ∨
        ∃ x, s.engine.site? u = some x ∧ x.destroyed = false ∧ x'.rule = x.rule ∧
          (x.Steady s.engine → x'.effects = x.effects) ∧ (s.Attends u → s'.Attends u)) :
    s'.Alert := by
  refine h.imp hlog fun h u x' hx' hlive' hn' => ?_
  rcases hsite u x' hx' hlive' hn' with hattends | hsteady | ⟨x, hx, hlive, hrule, hfx, hstill⟩
  · exact .inl hattends
  · exact .inr hsteady
  by_cases hattends : s.Attends u
  · exact .inl (hstill hattends)
  have hn : x.rule.Nominal := hrule ▸ hn'
  have hsteady := (h u x hx hlive hn).resolve_left hattends
  exact (hs.steady hposted hw hc hx hlive hn hsteady hattends hrule (hfx hsteady)).imp_left .inl

theorem Alert.keep (h : s.Alert) (hs : s.Sound) (hposted : s.engine.Posted)
    (hw : s.engine.Warns s'.engine) (hc : s'.engine.world.Closed)
    (hlog : Event.spill ∈ s.progress.log → Event.spill ∈ s'.progress.log)
    (hsites : ∀ u, s'.engine.site? u = s.engine.site? u)
    (hattends : ∀ u, s.engine.isLive u = true → s.Attends u → s'.Attends u) : s'.Alert := by
  refine h.carry hs hposted hw hc hlog fun u x hx hlive _ => .inr (.inr ?_)
  rw [hsites] at hx
  exact ⟨x, hx, hlive, rfl, fun _ => rfl, hattends u (isLive_of_site? hx hlive)⟩

theorem mem_log_note {d : Progress} {event : Event} {e : Event} (h : e ∈ d.log) :
    e ∈ (d.note event).log :=
  List.mem_append_left _ h

theorem Alert.change (h : s.Alert) (hs : s.Sound) (hposted : s.engine.Posted)
    (hw : s.engine.Warns s'.engine) (hc : s'.engine.world.Closed)
    (hlog : Event.spill ∈ s.progress.log → Event.spill ∈ s'.progress.log)
    (hsites : ∀ v ≠ u, s'.engine.site? v = s.engine.site? v)
    (hattends : ∀ v ≠ u, s.engine.isLive v = true → s.Attends v → s'.Attends v)
    (hself : ∀ x, s'.engine.site? u = some x → x.destroyed = false → x.rule.Nominal →
      s'.Attends u ∨ x.Steady s'.engine) : s'.Alert := by
  refine h.carry hs hposted hw hc hlog fun v x hx hlive hn => ?_
  by_cases hv : v = u
  · subst hv
    exact (hself x hx hlive hn).imp_right .inl
  · rw [hsites v hv] at hx
    exact .inr (.inr ⟨x, hx, hlive, rfl, fun _ => rfl, hattends v hv (isLive_of_site? hx hlive)⟩)

theorem Alert.rewires (h : s.Alert) (hs : s.Sound) (hposted : s.engine.Posted)
    (hw : s.engine.Warns s'.engine) (hc : s'.engine.world.Closed)
    (hlog : Event.spill ∈ s.progress.log → Event.spill ∈ s'.progress.log)
    (hrewires : s.engine.Rewires s'.engine)
    (htasks : s'.tasks.map Task.work = s.tasks.map Task.work) : s'.Alert := by
  obtain ⟨graph, queue, he, hq⟩ := hrewires
  refine h.keep hs hposted hw hc hlog (fun u => by rw [he]; rfl) fun u _ => ?_
  unfold Attends
  rw [htasks, he]
  exact Or.imp_left (hq u)

theorem Alert.adopt {e : Engine} {d d' : Progress} (h : Alert ⟨e, [], d⟩) (hs : Sound ⟨e, [], d⟩)
    (hposted : e.Posted) (path : String) (rename : NodeId → NodeId) (new : Node) (old : NodeId)
    (hw : e.Warns (e.adoptNode path rename new old))
    (hc : (e.adoptNode path rename new old).world.Closed)
    (hlog : Event.spill ∈ d.log → Event.spill ∈ d'.log) :
    Alert ⟨e.adoptNode path rename new old, [], d'⟩ := by
  have hqueue : (e.adoptNode path rename new old).queue = e.queue :=
    adoptNode_keeps Engine.queue (fun _ _ _ _ _ _ => rfl) e path rename new old
  cases hr : e.record? old with
  | none =>
    rw [adoptNode_none hr] at hw hc ⊢
    exact h.keep hs hposted hw hc hlog (fun _ => rfl) fun _ _ => id
  | some record =>
    refine h.carry hs hposted hw hc hlog fun u x' hx' hlive hn => .inr (.inr ?_)
    have hx' : (e.adoptNode path rename new old).site? u = some x' := hx'
    rw [site?_adoptNode hr] at hx'
    obtain ⟨x, hx, rfl⟩ := Option.map_eq_some_iff.1 hx'
    refine ⟨x, hx, (relabel_iterate x _).2 ▸ hlive, rule_relabel_iterate x _, fun hsteady => ?_, ?_⟩
    · exact Site.effects_relabel_iterate (congrArg (·.installed.diagnostics) hsteady.plain) _
    · exact Or.imp_left fun hu => (congrArg RunQueue.toList hqueue).symm ▸ hu

theorem Alert.move (h : s.Alert) (hs : s.Sound) (hr : s.engine.world.Related)
    (hposted : s.engine.Posted) (hm : Move s s') : s'.Alert := by
  have hc : s'.engine.world.Closed := (hs.move hm).machine.grounded.closed
  have hw := hm.warns hr hc
  cases hm with
  | aside hq =>
    refine h.keep hs hposted hw hc id (fun u => congrArg (Slots.get? · u.index) hq.sites) ?_
    exact fun u hl => Or.imp_left fun hu => hq.queue u hu hl
  | @sweep e d ho =>
    refine h.keep hs hposted hw hc mem_log_note (fun u => site?_reclaim ..) fun u _ => Or.imp_left
      ?_
    show u ∈ e.queue.toList → u ∈ e.reclaim.2.queue.toList
    unfold Engine.reclaim
    split <;> exact id
  | start | lift | miss => exact h.keep hs hposted hw hc mem_log_note (fun _ => rfl) fun _ _ => id
  | @define e ts d n entry hn hk =>
    refine h.keep hs hposted hw hc id
      (fun u => congrArg (Slots.get? · u.index) (SameStock.enter e (.node n) entry).sites) ?_
    exact fun u _ => Or.imp_left fun hu => (edits_enter e (.node n) entry).prolongs.queue.subset hu
  | openNode | openLifted =>
    exact h.keep hs hposted hw hc id (fun _ => rfl) fun _ _ =>
      Or.imp_right fun hrun => absurd hrun List.not_mem_nil
  | closeNode ret nameSpan hwork | dropNode hwork =>
    refine h.keep hs hposted hw hc id (fun _ => rfl) fun _ _ => Or.imp_right fun hrun => ?_
    cases hwork.symm.trans (List.mem_singleton.1 hrun).symm
  | @unregister e d n r regs reg hl hregs =>
    refine h.keep hs hposted hw hc id
      (fun u => congrArg (Slots.get? · u.index) (SameStock.unregister e (.node n) reg).sites) ?_
    exact fun u _ => Or.imp_left fun hu => (edits_unregister e (.node n) reg).prolongs.queue.subset
      hu
  | adopt path rename new old hl => exact h.adopt hs hposted path rename new old hw hc mem_log_note
  | @removeBlock e d n r hl =>
    rw [(exists_removeBlock_eq e r.block).choose_spec] at hw hc ⊢
    exact h.keep hs hposted hw hc id (fun _ => rfl) fun _ _ => id
  | buryLifted | bury => exact h.rewires hs hposted hw hc id (.adoptGraph _ _) rfl
  | @beginRun e d u x queue hl hx hlive hq =>
    refine h.change (u := u) hs hposted hw hc id (fun v hv => ?_) (fun v hv hvlive => ?_)
      fun _ _ _ _ => .inl (.inr (List.mem_singleton.2 rfl))
    · exact site?_modifySite.trans (if_neg fun heq => hv heq.symm)
    · exact Or.imp (fun hwaits => (hq v hwaits hvlive).resolve_left hv)
        fun hrun => absurd hrun List.not_mem_nil
  | @endRun e ts d t u hwork hp hout hran =>
    refine h.change (u := u) hs hposted hw hc id (fun v hv => ?_) (fun v hv hvlive => ?_)
      fun x hx hlive hn => .inr ?_
    · exact site?_modifySite.trans (if_neg fun heq => hv heq.symm)
    · refine Or.imp_right fun hrun => (List.mem_cons.1 hrun).resolve_left fun htop => hv ?_
      cases htop.trans hwork
      rfl
    · rw [site?_modifySite, if_pos rfl] at hx
      obtain ⟨y, hy, rfl⟩ := Option.map_eq_some_iff.1 hx
      exact .of_ran hn hc ((hran y hy).upholds (.of_eq rfl rfl rfl))
  | breakRun | refuse => exact .inl (List.mem_append_right _ (List.mem_singleton.2 rfl))
  | @beginDestroy e ts d u x hx hlive hin =>
    have hsite : ∀ v, (e.destroying u x).engine.site? v = if u = v then
        (e.site? v).map fun x => { x with destroyed := true, effects := {} } else e.site? v :=
      fun v => by
        rw [← site?_modifySite]
        exact congrArg (Slots.get? · v.index) (sites_destroying e u x)
    refine h.change (u := u) hs hposted hw hc id (fun v hv => ?_) (fun v hv hvlive => ?_)
      fun y hy hdead => ?_
    · exact (hsite v).trans (if_neg fun heq => hv heq.symm)
    · exact Or.imp (fun hwaits => (Prolongs.destroying e u x).queue.subset hwaits)
        fun hrun => List.mem_cons_of_mem _ hrun
    · rw [hsite, if_pos rfl] at hy
      obtain ⟨z, -, rfl⟩ := Option.map_eq_some_iff.1 hy
      cases hdead
  | @endDestroy e ts d t u hwork hfx hout =>
    refine h.change (u := u) hs hposted hw hc id (fun v hv => ?_) (fun v hv hvlive => ?_)
      fun y hy hlive => ?_
    · exact site?_modifySite.trans (if_neg fun heq => hv heq.symm)
    · refine Or.imp_right fun hrun => (List.mem_cons.1 hrun).resolve_left fun htop => ?_
      cases htop.trans hwork
    · have hy : (e.modifySite u fun x => { x with effects := t.effects }).site? u = some y := hy
      rw [site?_modifySite, if_pos rfl] at hy
      obtain ⟨z, hz, rfl⟩ := Option.map_eq_some_iff.1 hy
      have hfits : Machine.Fits e t.frame :=
        hs.machine.filed.toOrderly.fits t.frame (List.mem_cons_self ..)
      unfold Machine.Fits at hfits
      rw [show t.frame.work = .destroy u from hwork] at hfits
      obtain ⟨x, hx, hdead⟩ := hfits
      cases hx.symm.trans hz
      cases hlive.symm.trans hdead
  | @installEdges e ts d t => exact h.rewires hs hposted hw hc id (.installEdges e t.effects) rfl
  | @placeSite e ts d t ask ha hk =>
    have hsite := site?_placeSite hs.machine.filed.toOrderly ask.2.1 ask.2.2
    refine h.change (u := (e.placeSite ask.2.1 ask.2.2).1) hs hposted hw hc id (fun v hv => ?_)
      (fun v hv hvlive => ?_) fun x hx hlive _ => .inl (.inl ?_)
    · exact (hsite v).trans (if_neg fun heq => hv heq.symm)
    · exact Or.imp_left fun hwaits => (Prolongs.placeSite e ask.2.1 ask.2.2).queue.subset hwaits
    · exact mem_queue_schedule (isLive_of_site? hx hlive)
  | _ => exact h.keep hs hposted hw hc id (fun _ => rfl) fun _ _ => id

end State

end TypeFlow
