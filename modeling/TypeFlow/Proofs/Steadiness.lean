import TypeFlow.Proofs.Ancestry
import TypeFlow.Proofs.Repetition
import TypeFlow.Proofs.ReverseIndexes

/-!
# Running steady sites again

A steady site asks for what is in place already, so another run of it leaves everything as it is, up
to the order in which sites are listed with what they consulted. After requests that all succeed,
all sites that only look names up can be scheduled once more without any effect. A check of what a
method returns cannot.
-/

set_option autoImplicit false

namespace TypeFlow

theorem Slots.modify_eq_self {α : Type} {s : Slots α} {i : Nat} {a : α} {f : α → α}
    (h : s.get? i = some a) (hf : f a = a) : s.modify i f = s := by
  have hslots : s.slots.modify i f = s.slots := by
    refine Array.ext_getElem? fun j => ?_
    rw [Array.getElem?_modify]
    split
    · next hij =>
      have ha : s.slots[j]? = some a := hij ▸ h
      rw [ha, Option.map_some, hf]
    · rfl
  unfold modify
  rw [hslots]

namespace Engine

variable {e e' e'' : Engine} {u : SiteId} {x : Site}
variable {us : List SiteId}

structure Rests (e e' : Engine) : Prop where
  engine : e' = { e with
    world := e'.world
    queue := e'.queue
    stats := { e.stats with runs := e'.stats.runs } }
  upholds : e.Upholds e'
  watchers : ∀ d s, s ∈ e'.world.watchers d ↔ s ∈ e.world.watchers d

theorem Rests.trans (h : e.Rests e') (h' : e'.Rests e'') : e.Rests e'' where
  engine := by
    rw [h'.engine, h.engine]
  upholds := h.upholds.trans h'.upholds
  watchers d s := (h'.watchers d s).trans (h.watchers d s)

theorem Rests.site? (h : e.Rests e') (u : SiteId) : e'.site? u = e.site? u := by
  rw [h.engine]
  rfl

theorem Rests.setQueue (e : Engine) (queue : RunQueue) : e.Rests { e with queue } where
  engine := rfl
  upholds := .of_eq rfl rfl rfl
  watchers _ _ := Iff.rfl

structure Idles (e : Engine) (u : SiteId) (x : Site) : Prop where
  found : e.site? u = some x
  live : x.destroyed = false
  nominal : x.rule.Nominal
  known : x.rule.Known e.world
  steady : x.Steady e
  once : x.effects.installed.ReadsOnce
  watches : ∀ d, x.effects.installed.Reads d → u ∈ e.world.watchers d

theorem Idles.rests (h : e.Idles u x) (hc : e.world.Closed) (hr : e.Rests e') : e'.Idles u x where
  found := (hr.site? u).trans h.found
  live := h.live
  nominal := h.nominal
  known := h.known.mono fun _ => hr.upholds.world.knows
  steady := h.steady.confirm h.nominal hc h.known
    (hr.upholds.confirms (hr.upholds.world.closed hc) _ _) rfl rfl
  once := h.once
  watches d hd := (hr.watchers d u).2 (h.watches d hd)

def lending (e : Engine) (u : SiteId) : Engine :=
  { e with stats := { e.stats with runs := e.stats.runs + 1 } }.modifySite u fun x =>
    { x with effects := {} }

theorem modifySite_lending (hx : e.site? u = some x) (w : World) :
    ({ e.lending u with world := w }).modifySite u (fun y => { y with effects := x.effects }) =
      { e with world := w, stats := { e.stats with runs := e.stats.runs + 1 } } := by
  have hsites : (e.sites.modify u.index fun x => { x with effects := {} }).modify u.index
      (fun y => { y with effects := x.effects }) = e.sites := by
    rw [Slots.modify_modify]
    exact Slots.modify_eq_self hx rfl
  unfold lending modifySite
  rw [hsites]

theorem Idles.run_lending (h : e.Idles u x) (hc : e.world.Closed) :
    x.rule.run x.node ⟨e.lending u, x.effects⟩ =
      some ((), ⟨e.lending u, ⟨x.effects.installed, x.effects.installed.asked⟩⟩) := by
  have hup : e.Upholds (e.lending u) := .of_eq rfl rfl rfl
  exact (h.steady.confirm h.nominal hc h.known (hup.confirms hc _ _) rfl rfl).again

/-- Installing what is in place leaves the site with the effects that it had. -/
theorem Idles.install_lending (h : e.Idles u x) : ∃ w,
    install (.site u) ⟨e.lending u, ⟨x.effects.installed, x.effects.installed.asked⟩⟩ =
      .ok () ⟨{ e.lending u with world := w }, x.effects⟩ ∧
      ∀ d s, s ∈ w.watchers d ↔ s ∈ e.world.watchers d := by
  have hproper : x.effects.installed.asked.Proper fun _ => True :=
    { Pending.Proper.empty (P := fun _ => True) with
      once := ⟨List.nodup_nil, h.once.consts, h.once.superclasses⟩
      reads := fun _ _ => trivial }
  have hfiled : ∀ d, x.effects.installed.asked.Reads d → u ∈ e.world.watchers d := fun d hd => by
    cases d with
    | method key => exact absurd hd List.not_mem_nil
    | const key => exact h.watches (.const key) hd
    | superclass m => exact h.watches (.superclass m) hd
  let before : Run := ⟨e.lending u, x.effects⟩
  have hplain : before.effects =
      (Effects.mk x.effects.installed x.effects.installed.asked).settled {} (.site u) :=
    h.steady.plain
  obtain ⟨r, hinstall, huntouched⟩ := Run.install_again
    (r := ⟨e.lending u, ⟨x.effects.installed, x.effects.installed.asked⟩⟩) hproper hplain
    List.nodup_nil
    (fun _ hkey => absurd hkey List.not_mem_nil) (fun _ hask => absurd hask List.not_mem_nil)
    fun s hs => by cases hs; exact hfiled
  have hnone : x.effects.installed.sites = {} :=
    congrArg (fun fx => fx.installed.sites) h.steady.plain
  have hchildren : r.effects.installed.sites = {} := by
    have hentries : r.effects.installed.sites.entries = [] :=
      List.eq_nil_iff_forall_not_mem.2 fun child hchild => by
        have hthere := (huntouched.children child).1 hchild
        rw [show before.effects.installed.sites = {} from hnone] at hthere
        exact List.not_mem_nil hthere
    cases hr : r.effects.installed.sites
    rw [hr] at hentries
    cases hentries
    rfl
  have heffects : r.effects = x.effects := by
    rw [huntouched.rest, hchildren, ← hnone]
    rfl
  refine ⟨r.engine.world, ?_, huntouched.watchers⟩
  refine hinstall.trans (congrArg (EStateM.Result.ok ()) ?_)
  rw [← heffects, ← show r.engine = { e.lending u with world := r.engine.world } from
    huntouched.engine]

theorem onSiteEffects_ok {effects : Effects} {work : RunM Unit} {finish : Engine → Engine} {r : Run}
    (h : work ⟨e.modifySite u fun x => { x with effects := {} }, effects⟩ = .ok () r) :
    onSiteEffects u effects work finish e =
      .ok () (finish (r.engine.modifySite u fun x => { x with effects := r.effects })) := by
  unfold onSiteEffects
  rw [h]

theorem runSite_of_site? (hx : e.site? u = some x) (hlive : x.destroyed = false) :
    runSite u e = onSiteEffects u x.effects.discard
      (do ofStaging (x.rule.run x.node); install (.site u)) id
      { e with stats := { e.stats with runs := e.stats.runs + 1 } } := by
  unfold runSite
  simp only [bind, EStateM.bind, get, getThe, MonadStateOf.get, EStateM.get, hx]
  simp [hlive]
  rfl

theorem Idles.runSite (h : e.Idles u x) (hc : e.world.Closed) : ∃ w,
    runSite u e = .ok () { e with
      world := w
      stats := { e.stats with runs := e.stats.runs + 1 } } ∧
      ∀ d s, s ∈ w.watchers d ↔ s ∈ e.world.watchers d := by
  have hpending : x.effects.discard = x.effects := by
    have hplain := congrArg Effects.pending h.steady.plain
    unfold Effects.discard
    rw [← show x.effects.pending = {} from hplain]
  obtain ⟨w, hinstall, hwatchers⟩ := h.install_lending
  refine ⟨w, ?_, hwatchers⟩
  have hwork : (do ofStaging (x.rule.run x.node); install (.site u) : RunM Unit)
      ⟨e.lending u, x.effects⟩ = .ok () ⟨{ e.lending u with world := w }, x.effects⟩ := by
    refine EStateM.bind_ok.2 ⟨(), _, ?_, hinstall⟩
    unfold ofStaging
    rw [h.run_lending hc]
  rw [runSite_of_site? h.found h.live, hpending]
  exact (onSiteEffects_ok hwork).trans (congrArg (EStateM.Result.ok ()) (modifySite_lending h.found
    w))

theorem Idles.rests_runSite (h : e.Idles u x) (hc : e.world.Closed) : ∃ e',
    Engine.runSite u e = .ok () e' ∧ e.Rests e' ∧ e'.queue = e.queue ∧
      e'.stats.runs = e.stats.runs + 1 := by
  obtain ⟨w, hrun, hwatchers⟩ := h.runSite hc
  refine ⟨_, hrun, ⟨rfl, ?_, hwatchers⟩, rfl, rfl⟩
  have hup := honours_runSite (R := Upholds) u e
  rw [leftBy_of_ok hrun] at hup
  exact hup

theorem takeNext_of_live (hu : e.isLive u = true) (hq : e.queue.toList = u :: us) :
    ∃ queue, queue.toList = us ∧ e.takeNext = (some u, { e with queue }) := by
  have hskip : (e.queue.skip fun s => !e.isLive s).toList = u :: us := by
    rw [RunQueue.toList_skip, hq]
    simp [hu]
  exact ⟨_, congrArg List.tail hskip, Prod.ext (congrArg List.head? hskip) rfl⟩

/-- Idle sites run one after the other, and each finds what the one before it has found. -/
theorem drain_idles {limit : Nat} (runs : Nat) (hc : e.world.Closed)
    (hlimit : us.length ≤ limit) (hq : e.queue.toList = us) (hus : ∀ u ∈ us, ∃ x, e.Idles u x) :
    ∃ e', drain limit runs e = .ok (runs + us.length) e' ∧ e.Rests e' ∧ e'.queue = .empty ∧
      e'.stats.runs = e.stats.runs + us.length := by
  induction us generalizing e limit runs with
  | nil =>
    have hnext : e.takeNext = (none, { e with queue := .empty }) := by
      have hskip : (e.queue.skip fun s => !e.isLive s).toList = [] := by
        rw [RunQueue.toList_skip, hq]
        rfl
      unfold takeNext
      rw [RunQueue.eq_empty hskip]
      rfl
    exact ⟨_, drain_of_none hnext limit runs, .setQueue e .empty, rfl, rfl⟩
  | cons u us ih =>
    obtain ⟨x, hx⟩ := hus u List.mem_cons_self
    obtain ⟨limit, rfl⟩ := Nat.exists_eq_add_one.2 (Nat.lt_of_lt_of_le (Nat.succ_pos _) hlimit)
    obtain ⟨queue, hus', hnext⟩ := takeNext_of_live (isLive_of_site? hx.found hx.live) hq
    have hrest : e.Rests { e with queue } := .setQueue e queue
    obtain ⟨e1, hrun, hrests, hqueue, hruns⟩ := (hx.rests hc hrest).rests_runSite hc
    have hsofar := hrest.trans hrests
    obtain ⟨e2, hdrain, hrests2, hqueue2, hruns2⟩ := ih (runs + 1)
      (hsofar.upholds.world.closed hc) (Nat.le_of_succ_le_succ hlimit) (hqueue ▸ hus') fun v hv =>
        by
        obtain ⟨y, hy⟩ := hus v (List.mem_cons_of_mem u hv)
        exact ⟨y, hy.rests hc hsofar⟩
    refine ⟨e2, ?_, hsofar.trans hrests2, hqueue2, ?_⟩
    · rw [drain_succ_of_some hnext, hrun]
      rw [List.length_cons, Nat.add_comm us.length 1, ← Nat.add_assoc]
      exact hdrain
    · rw [hruns2, hruns, List.length_cons, Nat.add_comm us.length 1, ← Nat.add_assoc]

theorem scheduleAll_eq (h : ∀ u ∈ us, e.isLive u = true) :
    e.scheduleAll us = { e with queue := us.foldl RunQueue.insert e.queue } := by
  induction us generalizing e with
  | nil => rfl
  | cons u us ih =>
    have hone : e.schedule u = { e with queue := e.queue.insert u } :=
      if_pos (h u List.mem_cons_self)
    show (e.schedule u).scheduleAll us = _
    rw [hone]
    exact ih fun v hv => h v (List.mem_cons_of_mem u hv)

end Engine

open Engine

namespace Workspace

variable {w : Workspace} {log : List Event}

theorem Settled.idles (h : w.Settled log) {u : SiteId} {x : Site} (hx : w.engine.site? u = some x)
    (hlive : x.destroyed = false) (hn : x.rule.Nominal) : w.engine.Idles u x := by
  have hsound := h.kept.sound
  have hexact : (Machine.mk w.engine [] (w.rest log).machine.hand).Exact :=
    hsound.machine.filed.toExact
  have hfx : (Machine.mk w.engine [] (w.rest log).machine.hand).effectsOf u = x.effects := by
    rw [Machine.effectsOf_unheld fun f hf => absurd hf List.not_mem_nil, hx]
    rfl
  exact {
    found := hx
    live := hlive
    nominal := hn
    known := hsound.machine.grounded.rules u x hx
    steady := h.steady hx hlive hn
    once := hfx ▸ hexact.once u
    watches := fun d => (hexact.mem_watchers_iff hx d).2 }

theorem Settled.rests_runAll (h : w.Settled log) {us : List SiteId}
    (hlimit : (OrderedSet.ofList us).size ≤ w.engine.config.runLimit)
    (hus : ∀ u ∈ us, ∃ x, w.engine.Idles u x) :
    ∃ e', runAll (w.engine.scheduleAll us) = .ok (OrderedSet.ofList us).size e' ∧
      w.engine.Rests e' ∧ e'.queue = w.engine.queue ∧
      e'.stats.runs = w.engine.stats.runs + (OrderedSet.ofList us).size := by
  have hc : w.engine.world.Closed := h.kept.sound.machine.grounded.closed
  have hlist : ∀ (us : List SiteId) (q : RunQueue), (us.foldl RunQueue.insert q).toList =
      (us.foldl OrderedSet.insert ⟨q.toList⟩).toList := by
    intro us
    induction us with
    | nil => exact fun _ => rfl
    | cons u us ih => exact fun q => (ih (q.insert u)).trans (by rw [RunQueue.toList_insert]; rfl)
  let queue := us.foldl RunQueue.insert .empty
  have hrest : w.engine.Rests { w.engine with queue } := .setQueue _ _
  have hqueued : w.engine.scheduleAll us = { w.engine with queue } := by
    have hlive : ∀ u ∈ us, w.engine.isLive u = true := fun u hu => by
      obtain ⟨x, hx⟩ := hus u hu
      exact isLive_of_site? hx.found hx.live
    rw [scheduleAll_eq hlive, h.drained]
  obtain ⟨e', hdrain, hrests, hqueue, hruns⟩ := drain_idles 0
      (e := { w.engine with queue }) hc hlimit (hlist us .empty) fun u hu => by
    obtain ⟨x, hx⟩ := hus u (OrderedSet.mem_ofList.1 hu)
    exact ⟨x, hx.rests hc hrest⟩
  rw [Nat.zero_add] at hdrain
  refine ⟨e', ?_, hrest.trans hrests, hqueue.trans h.drained.symm, hruns⟩
  rw [hqueued]
  exact hdrain

end Workspace

open Workspace

/-- After requests that all succeed, any live sites that only look names up can be put into the
queue and run once more: vertices and edges, sites, records and diagnostics stay as they are, and
names are defined as before. -/
theorem name_reads_settled (config : Config) {rs : List Request}
    (h : (ofConfig config).accepts rs = true) :
    let w := serve config rs
    let e := w.engine
    ∀ us : List SiteId, (OrderedSet.ofList us).size ≤ e.config.runLimit →
      (∀ u ∈ us, ∃ x, e.site? u = some x ∧ x.destroyed = false ∧ x.rule.Nominal) →
      ∃ world stats, runAll (e.scheduleAll us) =
          .ok (OrderedSet.ofList us).size { e with world, stats } ∧
        stats = { e.stats with runs := e.stats.runs + (OrderedSet.ofList us).size } ∧
        e.world.Agrees world ∧
        (∀ d s, s ∈ world.watchers d ↔ s ∈ e.world.watchers d) ∧
        ∀ path, diagnostics { w with engine := { e with world, stats } } path =
          w.diagnostics path := by
  intro w e us hlimit hus
  obtain ⟨log, -, hsettled⟩ := settled_serve config h
  obtain ⟨e', hrun, hrests, hqueue, hruns⟩ := hsettled.rests_runAll hlimit fun u hu => by
    obtain ⟨x, hx, hlive, hn⟩ := hus u hu
    exact ⟨x, hsettled.idles hx hlive hn⟩
  have hsame := hrests.engine
  rw [hqueue, hruns] at hsame
  refine ⟨e'.world, _, hrun.trans (congrArg (EStateM.Result.ok _) hsame), rfl,
    hrests.upholds.world, hrests.watchers, fun path => rfl⟩

section StaleCheck

def returnsGlobal : String :=
  "\x7b\"type\":\"sig_def\",\"name\":\"foo\",\"overloads\":[\x7b\"req\":[]," ++
    "\"ret\":\x7b\"type\":\"instance\",\"cpath\":[\"Integer\"]\x7d\x7d]\x7d," ++
    "\x7b\"type\":\"def\",\"name\":\"foo\",\"params\":\x7b\x7d,\"body\":[" ++
    "\x7b\"type\":\"return\",\"value\":\x7b\"type\":\"gvar_read\",\"name\":\"$a\"\x7d\x7d," ++
    "\x7b\"type\":\"return\",\"value\":\x7b\"type\":\"str\",\"value\":\"s\"\x7d\x7d]\x7d"

def assignsGlobal : String :=
  "\x7b\"type\":\"gvar_write\",\"name\":\"$a\"," ++
    "\"value\":\x7b\"type\":\"str\",\"value\":\"s\"\x7d\x7d"

def assigningLate : List Request := [writing "a" returnsGlobal, writing "b" assignsGlobal]

/-- The signature and the read of the global run again without effect. -/
theorem name_reads_run_again :
    let e := (serve {} assigningLate).engine
    (ofConfig {}).accepts assigningLate = true ∧ ∃ world stats,
      runAll (e.scheduleAll [⟨0⟩, ⟨1⟩]) = .ok 2 { e with world, stats } := by
  have hrun : (ofConfig {}).accepts assigningLate = true ∧
      (serve {} assigningLate).engine.config.fuel = none ∧
      ∀ u ∈ [⟨0⟩, ⟨1⟩], (((serve {} assigningLate).engine.site? u).any fun x =>
        !x.destroyed && match x.rule with
          | .globalRead _ | .methodDecl _ => true
          | _ => false) = true := by
    rw [accepts_eq, ofConfig_eq, serve_eq]
    decide +kernel
  obtain ⟨haccepts, hfuel, hnames⟩ := hrun
  have hsettled := name_reads_settled {} haccepts [⟨0⟩, ⟨1⟩]
  refine ⟨haccepts, ?_⟩
  generalize serve {} assigningLate = w at hfuel hnames hsettled ⊢
  have hlimit : 2 ≤ w.engine.config.runLimit := by
    unfold Config.runLimit
    rw [hfuel]
    decide
  obtain ⟨world, stats, hagain, -⟩ := hsettled hlimit fun u hu => by
    obtain ⟨x, hx, hname⟩ := (Option.any_eq_true _ _).1 (hnames u hu)
    obtain ⟨hlive, hrule⟩ := Bool.and_eq_true_iff.1 hname
    refine ⟨x, hx, by simpa using hlive, ?_⟩
    split at hrule
    · next g hg => exact hg ▸ trivial
    · next m hm => exact hm ▸ trivial
    · cases hrule
  exact ⟨world, stats, hagain⟩

/-- What the method returns as a whole does not change when the global comes to hold a string, so
its check is not made again. A check made now complains about both returns. -/
theorem return_check_stale :
    let w := serve {} assigningLate
    (ofConfig {}).accepts assigningLate = true ∧
      w.messages "a" = some ["expected: Integer; actual: String"] ∧
      (leftBy (rerun "a") w).messages "a" =
        some ["expected: Integer; actual: String", "expected: Integer; actual: String"] := by
  rw [accepts_eq, ofConfig_eq, serve_eq]
  decide +kernel

end StaleCheck

end TypeFlow
