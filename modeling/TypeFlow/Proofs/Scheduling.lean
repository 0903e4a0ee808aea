import TypeFlow.Proofs.Lasting
import TypeFlow.Proofs.Start

/-!
# No run is forgotten

Only a drain takes sites off the queue, one at a time and the first one first; everything else that
happens to an engine leaves the waiting sites where they are. So a live site that waits goes on
waiting until its run, with one exception: the site at which a drain finds its runs used up.
-/

set_option autoImplicit false

namespace TypeFlow

namespace Engine

structure Prolongs (e e' : Engine) : Prop where
  queue : e.queue.toList <+: e'.queue.toList
  grows : e.sites.size ≤ e'.sites.size
  free : e.sites.free = [] → e'.sites.free = []
  dead : e.sites.free = [] → ∀ s : SiteId, s.index < e.sites.size → e.isLive s = false →
    e'.isLive s = false

namespace Prolongs

theorem refl (e : Engine) : e.Prolongs e :=
  ⟨List.prefix_rfl, le_rfl, id, fun _ _ _ => id⟩

theorem trans {e e' e'' : Engine} (h : e.Prolongs e') (h' : e'.Prolongs e'') :
    e.Prolongs e'' where
  queue := h.queue.trans h'.queue
  grows := h.grows.trans h'.grows
  free hf := h'.free (h.free hf)
  dead hf s hs hd := h'.dead (h.free hf) s (hs.trans_le h.grows) (h.dead hf s hs hd)

theorem of_sites {e e' : Engine} (hq : e'.queue = e.queue) (hsize : e'.sites.size = e.sites.size)
    (hfree : e'.sites.free = e.sites.free)
    (hlive : ∀ s : SiteId, e.isLive s = false → e'.isLive s = false) : e.Prolongs e' where
  queue := hq ▸ List.prefix_rfl
  grows := hsize.ge
  free hf := hfree.trans hf
  dead _ s _ := hlive s

theorem of_eq {e e' : Engine} (hq : e'.queue = e.queue) (hs : e'.sites = e.sites) :
    e.Prolongs e' := by
  refine of_sites hq (by rw [hs]) (by rw [hs]) fun s hd => ?_
  rwa [isLive, site?, hs]

theorem schedule (e : Engine) (s : SiteId) : e.Prolongs (e.schedule s) := by
  unfold Engine.schedule
  split
  · exact ⟨e.queue.prefix_insert s, le_rfl, id, fun _ _ _ => id⟩
  · exact refl e

theorem scheduleAll (ss : List SiteId) (e : Engine) : e.Prolongs (e.scheduleAll ss) := by
  induction ss generalizing e with
  | nil => exact refl e
  | cons s ss ih => exact (schedule e s).trans (ih _)

theorem adoptGraph (e : Engine) (c : Graph.Changed) : e.Prolongs (e.adoptGraph c) := by
  have hgraph : e.Prolongs { e with graph := c.graph } := of_eq rfl rfl
  exact hgraph.trans (scheduleAll c.woken _)

theorem modifySite (e : Engine) (s : SiteId) (f : Site → Site)
    (hf : ∀ x, x.destroyed = true → (f x).destroyed = true) : e.Prolongs (e.modifySite s f) := by
  refine of_sites rfl (Slots.size_modify _ _ _) rfl fun s' hd => ?_
  unfold isLive site? at hd ⊢
  unfold Engine.modifySite
  rw [Slots.get?_modify]
  cases hx : e.sites.get? s'.index with
  | none => simp
  | some x =>
    rw [hx] at hd
    have hmark : x.destroyed = true := by simpa using hd
    split
    · simpa using hf x hmark
    · simpa using hmark

theorem enterSite (e : Engine) (node : NodeId) (rule : Rule) :
    e.Prolongs (e.enterSite node rule).2 := by
  have hsites : (e.enterSite node rule).2.sites = (e.sites.alloc { node, rule }).2 := rfl
  have hgrows : e.sites.size ≤ (e.sites.alloc { node, rule }).2.size := by
    unfold Slots.alloc Slots.size
    split <;> simp
  refine ⟨List.prefix_rfl, hsites ▸ hgrows, fun hf => ?_, fun hf s hs hd => ?_⟩
  · rw [hsites, Slots.alloc_of_free_nil hf]
    exact hf
  · unfold isLive site? at hd ⊢
    rw [hsites, Slots.alloc_of_free_nil hf]
    have hold : (e.sites.slots.push { node, rule })[s.index]? = e.sites.get? s.index := by
      rw [Array.getElem?_push, if_neg (by exact Nat.ne_of_lt hs)]
      rfl
    exact (congrArg (Option.any _) hold).trans hd

theorem ensureConst (e : Engine) (key : ConstKey) : e.Prolongs (e.ensureConst key).2 := by
  unfold Engine.ensureConst
  split
  · exact refl e
  · exact of_eq rfl rfl

theorem ensureIvar (e : Engine) (key : MemberKey) : e.Prolongs (e.ensureIvar key).2 := by
  unfold Engine.ensureIvar
  split
  · exact refl e
  · exact of_eq rfl rfl

theorem globalVertex (e : Engine) (name : String) : e.Prolongs (e.globalVertex name).2 := by
  unfold Engine.globalVertex
  split
  · exact refl e
  · exact of_eq rfl rfl

theorem modifyWorld (e : Engine) (f : World → World) : e.Prolongs (e.modifyWorld f) :=
  of_eq rfl rfl

instance : Endures Prolongs where
  refl := refl
  trans := trans
  newVertex _ _ _ := of_eq rfl rfl
  newSource _ _ _ := of_eq rfl rfl
  source _ _ := of_eq rfl rfl
  resolvePath _ _ := of_eq rfl rfl
  consult e _ := modifyWorld e _
  ensureConst := ensureConst
  ensureIvar := ensureIvar
  globalVertex := globalVertex
  addEdge e src dst := adoptGraph e (e.graph.addEdge src dst).2
  removeEdge e src dst := adoptGraph e (e.graph.removeEdge src dst).2
  destroyVertex e v := adoptGraph e (e.graph.destroy v)
  schedule := schedule
  watch e _ _ := modifyWorld e _
  changeDecls e _ _ :=
    ((modifyWorld e _).trans (scheduleAll _ _)).trans (scheduleAll _ _)
  changeDefs e key f := by
    unfold changeDefs
    dsimp only
    split
    · exact (modifyWorld e _).trans (scheduleAll _ _)
    · exact modifyWorld e _
  changeIvarReads e _ _ := modifyWorld e _
  effects e s _ := modifySite e s _ fun _ => id
  count _ := of_eq rfl rfl
  enterSite := enterSite
  destroy e s x e' _ _ h := by
    have hmark : e.Prolongs (e.modifySite s fun x => { x with destroyed := true }) :=
      modifySite e s _ fun _ _ => rfl
    have hunlisted : (e.modifySite s fun x => { x with destroyed := true }).Prolongs
        (e.markDestroyed s x) := of_eq rfl rfl
    have hreleased : e'.Prolongs { e' with
        sites := e'.sites.release s.index
        stats := e'.stats.destroy x.rule.name } := of_sites rfl rfl rfl fun _ => id
    exact (hmark.trans hunlisted).trans (h.trans hreleased)

end Prolongs

end Engine

/-- What a caller can ask of the queue. -/
inductive QueueOp where
  | schedule (s : SiteId)
  | create (node : NodeId) (rule : Rule)
  | destroy (s : SiteId)
  | runAll

inductive Turn where
  | call (op : QueueOp)
  /-- The first live site was taken off the queue and executed. -/
  | run (s : SiteId)
  /-- The first live site was taken off the queue when all permitted runs had been made. -/
  | refuse (s : SiteId)
  /-- No live site was waiting. -/
  | rest

structure Moment where
  turn : Turn
  engine : Engine

namespace Engine

/-- The engine after an operation, whether it ends in a fault or not. -/
def perform (e : Engine) : QueueOp → Engine
  | .schedule s => e.schedule s
  | .create node rule => leftBy (createSite node rule) e
  | .destroy s => leftBy (destroySite s) e
  | .runAll => leftBy runAll e

def drainTurns : Nat → Engine → List Moment
  | 0, e =>
    match e.takeNext with
    | (none, e) => [⟨.rest, e⟩]
    | (some s, e) => [⟨.refuse s, e⟩]
  | n + 1, e =>
    match e.takeNext with
    | (none, e) => [⟨.rest, e⟩]
    | (some s, e) =>
      match runSite s e with
      | .ok () e => ⟨.run s, e⟩ :: drainTurns n e
      | .error _ e => [⟨.run s, e⟩]

def turns (e : Engine) : QueueOp → List Moment
  | .runAll => drainTurns e.config.runLimit e
  | op => [⟨.call op, e.perform op⟩]

/-- Everything that happens in a sequence of operations. -/
def history (e : Engine) : List QueueOp → List Moment
  | [] => []
  | op :: ops => e.turns op ++ history (e.perform op) ops

/-- The engine after some moments. -/
def after (e : Engine) (ms : List Moment) : Engine := (ms.getLast?.map Moment.engine).getD e

theorem after_cons (e : Engine) (m : Moment) (ms : List Moment) :
    e.after (m :: ms) = m.engine.after ms := by
  unfold after
  cases ms with
  | nil => rfl
  | cons m' ms => simp [List.getLast?_cons]

theorem after_append (e : Engine) (ms ms' : List Moment) :
    e.after (ms ++ ms') = (e.after ms).after ms' := by
  induction ms generalizing e with
  | nil => rfl
  | cons m ms ih => rw [List.cons_append, after_cons, after_cons, ih]

theorem after_drainTurns (n runs : Nat) (e : Engine) :
    e.after (drainTurns n e) = leftBy (drain n runs) e := by
  induction n generalizing e runs with
  | zero =>
    unfold drainTurns leftBy
    split
    · next e' h => rw [drain_of_none h]; rfl
    · next s e' h => rw [drain_zero_of_some h]; rfl
  | succ n ih =>
    unfold drainTurns leftBy
    split
    · next e' h => rw [drain_of_none h]; rfl
    · next s e' h =>
      rw [drain_succ_of_some h]
      split
      · next e'' hrun =>
        rw [hrun, after_cons]
        exact ih (runs + 1) e''
      · next f e'' hrun => rw [hrun]; rfl

theorem after_turns (e : Engine) (op : QueueOp) : e.after (e.turns op) = e.perform op := by
  cases op with
  | runAll => exact after_drainTurns e.config.runLimit 0 e
  | schedule | create | destroy => rfl

theorem after_history (e : Engine) (ops : List QueueOp) :
    e.after (e.history ops) = ops.foldl perform e := by
  induction ops generalizing e with
  | nil => rfl
  | cons op ops ih => rw [history, after_append, after_turns, ih, List.foldl_cons]

theorem refuse_mem_drainTurns {n : Nat} {e : Engine} {m : Moment} {s : SiteId}
    (hm : m ∈ drainTurns n e) (ht : m.turn = .refuse s) (runs : Nat) :
    drain n runs e = .error (.fuelExhausted (runs + n)) m.engine ∧
      ∃ ran, drainTurns n e = ran ++ [m] ∧ ran.length = n ∧ ∀ x ∈ ran, ∃ s', x.turn = .run s' := by
  induction n generalizing e runs with
  | zero =>
    unfold drainTurns at hm ⊢
    split at hm
    · cases List.mem_singleton.1 hm
      cases ht
    · next s' e' h =>
      cases List.mem_singleton.1 hm
      exact ⟨drain_zero_of_some h runs, [], rfl, rfl, fun _ hx => by cases hx⟩
  | succ n ih =>
    unfold drainTurns at hm ⊢
    split at hm
    · cases List.mem_singleton.1 hm
      cases ht
    · next s' e' h =>
      rw [drain_succ_of_some h]
      split at hm
      · next e'' hrun =>
        rcases List.mem_cons.1 hm with rfl | hlater
        · cases ht
        obtain ⟨hdrain, ran, hturns, hlength, hran⟩ := ih hlater (runs + 1)
        rw [hrun]
        refine ⟨?_, ⟨.run s', e''⟩ :: ran, by simp [hturns], by simp [hlength], ?_⟩
        · simpa [Nat.add_assoc, Nat.add_comm 1 n] using hdrain
        · simpa using hran
      · cases List.mem_singleton.1 hm
        cases ht

end Engine

/-- The operation asks for a run of the site. -/
def QueueOp.Asks (op : QueueOp) (e : Engine) (s : SiteId) : Prop :=
  match op with
  | .schedule t => t = s
  | .create node rule => ∃ e', Engine.createSite node rule e = .ok s e'
  | .destroy _ | .runAll => False

structure Moment.Follows (m : Moment) (e : Engine) : Prop where
  waits : ∀ s ∈ e.queue.toList, e.isLive s = true →
    s ∈ m.engine.queue.toList ∨ m.turn = .run s ∨ m.turn = .refuse s
  asked : ∀ op s, m.turn = .call op → op.Asks e s → m.engine.isLive s = true →
    s ∈ m.engine.queue.toList
  grows : e.sites.size ≤ m.engine.sites.size
  free : e.sites.free = [] → m.engine.sites.free = []
  dead : e.sites.free = [] → ∀ s : SiteId, s.index < e.sites.size → e.isLive s = false →
    m.engine.isLive s = false

namespace Engine

variable {e e' : Engine} {s : SiteId}

theorem mem_queue_schedule (h : (e.schedule s).isLive s = true) :
    s ∈ (e.schedule s).queue.toList := by
  unfold schedule at h ⊢
  split at h
  · next hlive =>
    rw [if_pos hlive]
    exact RunQueue.mem_insert.2 (.inr rfl)
  · next hdead => exact absurd h hdead

theorem createSite_ok {node : NodeId} {rule : Rule}
    (h : createSite node rule e = .ok s e') : ∃ e1 : Engine, e' = e1.schedule s := by
  change EStateM.bind (rule.register (e.enterSite node rule).1) _ (e.enterSite node rule).2 = _ at h
  unfold EStateM.bind at h
  cases hregister : rule.register (e.enterSite node rule).1 (e.enterSite node rule).2 with
  | ok _ e1 =>
    rw [hregister] at h
    cases h
    exact ⟨e1, rfl⟩
  | error f e1 =>
    rw [hregister] at h
    cases h

theorem follows_call {op : QueueOp} (e : Engine) (hop : op ≠ .runAll) :
    Moment.Follows ⟨.call op, e.perform op⟩ e := by
  have hprolongs : e.Prolongs (e.perform op) := by
    cases op with
    | schedule s => exact .schedule e s
    | create node rule => exact honours_createSite node rule e
    | destroy s => exact honours_destroySite s e
    | runAll => exact absurd rfl hop
  refine ⟨fun s hs _ => .inl (hprolongs.queue.subset hs), fun op' s hcall hasks hlive => ?_,
    hprolongs.grows, hprolongs.free, hprolongs.dead⟩
  cases hcall
  cases op with
  | schedule t =>
    cases hasks
    exact mem_queue_schedule hlive
  | create node rule =>
    obtain ⟨e', he'⟩ := hasks
    have hleft : e.perform (.create node rule) = e' := by
      show leftBy (createSite node rule) e = e'
      unfold leftBy
      rw [he']
    obtain ⟨e1, rfl⟩ := createSite_ok he'
    dsimp only at hlive ⊢
    rw [hleft] at hlive ⊢
    exact mem_queue_schedule hlive
  | destroy | runAll => cases hasks

theorem follows_taken {m : Moment} (h : e.takeNext = (some s, e'))
    (hafter : e'.Prolongs m.engine) (ht : m.turn = .run s ∨ m.turn = .refuse s) :
    m.Follows e := by
  obtain ⟨gone, queue, hq, rfl, -, hgone⟩ := takeNext_some h
  refine ⟨fun x hx hlive => ?_, fun op x hcall => ?_, hafter.grows, hafter.free, hafter.dead⟩
  · rw [hq, List.mem_append, List.mem_cons] at hx
    rcases hx with hx | rfl | hx
    · exact absurd hlive (by rw [hgone x hx]; exact Bool.false_ne_true)
    · exact .inr ht
    · exact .inl (hafter.queue.subset hx)
  · rw [hcall] at ht
    rcases ht with ht | ht <;> cases ht

theorem follows_rest (h : e.takeNext = (none, e')) :
    Moment.Follows ⟨.rest, e'⟩ e := by
  obtain ⟨rfl, hdead⟩ := takeNext_none h
  refine ⟨fun s hs hlive => ?_, fun op s hcall => ?_, le_rfl, id, fun _ _ _ => id⟩
  · exact absurd hlive (by rw [hdead s hs]; exact Bool.false_ne_true)
  · cases hcall

def Linked : Engine → List Moment → Prop
  | _, [] => True
  | e, m :: ms => m.Follows e ∧ Linked m.engine ms

theorem linked_append {ms ms' : List Moment} :
    e.Linked (ms ++ ms') ↔ e.Linked ms ∧ (e.after ms).Linked ms' := by
  induction ms generalizing e with
  | nil => exact (and_iff_right trivial).symm
  | cons m ms ih => rw [List.cons_append, Linked, Linked, ih, after_cons, and_assoc]

theorem linked_drainTurns (n : Nat) (e : Engine) : e.Linked (drainTurns n e) := by
  induction n generalizing e with
  | zero =>
    unfold drainTurns
    split
    · next e' h => exact ⟨follows_rest h, trivial⟩
    · next s e' h => exact ⟨follows_taken h (.refl e') (.inr rfl), trivial⟩
  | succ n ih =>
    unfold drainTurns
    split
    · next e' h => exact ⟨follows_rest h, trivial⟩
    · next s e' h =>
      have hrun : e'.Prolongs (leftBy (runSite s) e') := honours_runSite s e'
      unfold leftBy at hrun
      split
      · next e'' hok =>
        rw [hok] at hrun
        exact ⟨follows_taken h hrun (.inl rfl), ih e''⟩
      · next f e'' herror =>
        rw [herror] at hrun
        exact ⟨follows_taken h hrun (.inl rfl), trivial⟩

theorem linked_history (e : Engine) (ops : List QueueOp) : e.Linked (e.history ops) := by
  induction ops generalizing e with
  | nil => trivial
  | cons op ops ih =>
    refine linked_append.2 ⟨?_, after_turns e op ▸ ih _⟩
    cases op with
    | runAll => exact linked_drainTurns _ e
    | schedule | create | destroy => exact ⟨follows_call e (by rintro ⟨⟩), trivial⟩

namespace Linked

variable {e : Engine} {ms : List Moment} {s : SiteId}

theorem waits (h : e.Linked ms) (hs : s ∈ e.queue.toList) (hlive : e.isLive s = true)
    (hms : ∀ x ∈ ms, x.engine.isLive s = true) :
    s ∈ (e.after ms).queue.toList ∨ ∃ x ∈ ms, x.turn = .run s ∨ x.turn = .refuse s := by
  induction ms generalizing e with
  | nil => exact .inl hs
  | cons m ms ih =>
    rcases h.1.waits s hs hlive with hwaits | hturn
    · rw [after_cons]
      have hlater := ih h.2 hwaits (hms m List.mem_cons_self) fun x hx =>
        hms x (List.mem_cons_of_mem m hx)
      exact hlater.imp_right fun ⟨x, hx, ht⟩ => ⟨x, List.mem_cons_of_mem m hx, ht⟩
    · exact .inr ⟨m, List.mem_cons_self, hturn⟩

theorem lives (h : e.Linked ms) (hfree : e.sites.free = []) (hs : s.index < e.sites.size)
    (hlive : (e.after ms).isLive s = true) :
    e.isLive s = true ∧ ∀ x ∈ ms, x.engine.isLive s = true := by
  induction ms generalizing e with
  | nil => exact ⟨hlive, fun x hx => by cases hx⟩
  | cons m ms ih =>
    rw [after_cons] at hlive
    obtain ⟨hm, hms⟩ := ih h.2 (h.1.free hfree) (hs.trans_le h.1.grows) hlive
    refine ⟨?_, List.forall_mem_cons.2 ⟨hm, hms⟩⟩
    by_contra hdead
    have hstays := h.1.dead hfree s hs (Bool.eq_false_iff.2 hdead)
    exact Bool.false_ne_true (hstays.symm.trans hm)

theorem free (h : e.Linked ms) (hfree : e.sites.free = []) : (e.after ms).sites.free = [] := by
  induction ms generalizing e with
  | nil => exact hfree
  | cons m ms ih =>
    rw [after_cons]
    exact ih h.2 (h.1.free hfree)

end Linked

theorem refuse_mem_history {e : Engine} {ops : List QueueOp} {m : Moment} {s : SiteId}
    (hm : m ∈ e.history ops) (ht : m.turn = .refuse s) :
    ∃ done rest, ops = done ++ .runAll :: rest ∧
      runAll (done.foldl perform e) =
        .error (.fuelExhausted (done.foldl perform e).config.runLimit) m.engine := by
  induction ops generalizing e with
  | nil => cases hm
  | cons op ops ih =>
    rcases List.mem_append.1 hm with hm | hm
    · cases op with
      | runAll =>
        obtain ⟨hdrain, -⟩ := refuse_mem_drainTurns hm ht 0
        refine ⟨[], ops, rfl, ?_⟩
        rw [Nat.zero_add] at hdrain
        exact hdrain
      | schedule | create | destroy =>
        cases List.mem_singleton.1 hm
        cases ht
    · obtain ⟨done, rest, rfl, hrun⟩ := ih hm
      exact ⟨op :: done, rest, rfl, hrun⟩

end Engine

/-- Callers schedule, create and destroy sites and drain the queue, in any order and with any limit
on runs. The queue never holds a site twice. A live site that waits, or that a call asks for, goes
on waiting for as long as it lives, until a drain executes it or refuses it; and a drain refuses
only the one site at which it ends because its runs are used up. Where no slot is free, a site that
lives at the end lived all along, since its slot was not handed out again. -/
theorem Engine.waiting_until_run (e : Engine) (ops : List QueueOp) :
    e.after (e.history ops) = ops.foldl perform e ∧
    ∀ before m mid, before ++ m :: mid <+: e.history ops →
      m.engine.queue.toList.Nodup ∧
      (∀ s, m.engine.queue.queued.contains s = true ↔ s ∈ m.engine.queue.toList) ∧
      ∀ s, m.engine.isLive s = true →
        (s ∈ m.engine.queue.toList ∨ ∃ op, m.turn = .call op ∧ op.Asks (e.after before) s) →
        ((∀ x ∈ mid, x.engine.isLive s = true) ∨
          e.sites.free = [] ∧ (m.engine.after mid).isLive s = true) →
        s ∈ (m.engine.after mid).queue.toList ∨
          ∃ x ∈ mid, x.turn = .run s ∨
            x.turn = .refuse s ∧ ∃ done rest, ops = done ++ .runAll :: rest ∧
              runAll (done.foldl perform e) =
                .error (.fuelExhausted (done.foldl perform e).config.runLimit) x.engine := by
  refine ⟨after_history e ops, fun before m mid hsplit => ?_⟩
  obtain ⟨rest, hrest⟩ := hsplit
  have hlinked := linked_history e ops
  rw [← hrest, List.append_assoc, linked_append] at hlinked
  obtain ⟨hbefore, hm, hlater⟩ := hlinked
  have hmid := (linked_append.1 hlater).1
  have hmem : ∀ x ∈ mid, x ∈ e.history ops := fun x hx => by
    rw [← hrest]
    simp [hx]
  refine ⟨m.engine.queue.nodup, fun s => decide_eq_true_iff.trans (m.engine.queue.agree s),
    fun s hlive hs hlasts => ?_⟩
  have hwaiting : s ∈ m.engine.queue.toList := by
    rcases hs with hs | ⟨op, hcall, hasks⟩
    · exact hs
    · exact hm.asked op s hcall hasks hlive
  have hlasting : ∀ x ∈ mid, x.engine.isLive s = true := by
    rcases hlasts with hlasts | ⟨hfree, hend⟩
    · exact hlasts
    · exact (hmid.lives (hm.free (hbefore.free hfree)) (lt_size_of_isLive hlive) hend).2
  rcases hmid.waits hwaiting hlive hlasting with hstill | ⟨x, hx, hrun | hrefuse⟩
  · exact .inl hstill
  · exact .inr ⟨x, hx, .inl hrun⟩
  · exact .inr ⟨x, hx, .inr ⟨hrefuse, refuse_mem_history (hmem x hx) hrefuse⟩⟩

/-- An engine that permits no run, with one site that waits. -/
def waitingOne : Engine :=
  (Engine.boot { fuel := some 0 }).perform (.create ⟨1⟩ (.globalRead ⟨"$x", ⟨0⟩⟩))

def creatingTwo : List QueueOp :=
  [.create ⟨1⟩ (.globalRead ⟨"$x", ⟨0⟩⟩), .create ⟨1⟩ (.globalRead ⟨"$y", ⟨0⟩⟩)]

/-- Two sites wait, and one run is permitted. -/
def waitingTwo : Engine := creatingTwo.foldl Engine.perform (Engine.boot { fuel := some 1 })

theorem Engine.history_creatingTwo (e : Engine) :
    ∃ first second, e.history (creatingTwo ++ [.runAll]) = [first] ++ second ::
      (creatingTwo.foldl perform e).turns .runAll ∧ second.engine = creatingTwo.foldl perform e :=
  ⟨_, _, congrArg (_ :: _ :: ·) (List.append_nil _), rfl⟩

/-- Both sites live, and neither waits in the end: one was executed, and the drain ended at the
other. -/
theorem waiting_until_run_two : ∀ s ∈ [SiteId.mk 0, ⟨1⟩],
    (waitingTwo.perform .runAll).isLive s = true ∧
      s ∉ (waitingTwo.perform .runAll).queue.toList ∧ ∃ x ∈ waitingTwo.turns .runAll,
        x.turn = .run s ∨ x.turn = .refuse s ∧
          Engine.runAll waitingTwo = .error (.fuelExhausted 1) x.engine := by
  intro s hs
  have hlast : ∀ {done rest}, creatingTwo ++ [.runAll] = done ++ .runAll :: rest →
      creatingTwo = done := by
    intro done rest h
    match done, h with
    | [_, _], h => cases h; rfl
    | _ :: _ :: _ :: _, h => simp [creatingTwo] at h
  have hfacts : waitingTwo.config.runLimit = 1 ∧ ∀ s ∈ [SiteId.mk 0, ⟨1⟩],
      waitingTwo.isLive s = true ∧ s ∈ waitingTwo.queue.toList ∧
      (∀ x ∈ waitingTwo.turns .runAll, x.engine.isLive s = true) ∧
      (waitingTwo.perform .runAll).isLive s = true ∧
      s ∉ (waitingTwo.perform .runAll).queue.toList := by
    rw [waitingTwo, Engine.boot_start]
    decide +kernel
  obtain ⟨hlimit, hsites⟩ := hfacts
  obtain ⟨hlive, hwaits, hlasts, hend, hgone⟩ := hsites s hs
  refine ⟨hend, hgone, ?_⟩
  have hall := (Engine.waiting_until_run (Engine.boot { fuel := some 1 })
    (creatingTwo ++ [.runAll])).2
  obtain ⟨first, second, hhistory, hsecond⟩ :=
    Engine.history_creatingTwo (Engine.boot { fuel := some 1 })
  rw [hhistory] at hall
  have hsplit := hall [first] second _ List.prefix_rfl
  rw [hsecond, ← waitingTwo, Engine.after_turns] at hsplit
  rcases hsplit.2.2 s hlive (.inl hwaits) (.inl hlasts) with hstill | ⟨x, hx, hrun | ⟨href, hstop⟩⟩
  · exact absurd hstill hgone
  · exact ⟨x, hx, .inl hrun⟩
  · obtain ⟨done, rest, hdone, hfault⟩ := hstop
    obtain rfl := hlast hdone
    rw [← waitingTwo, hlimit] at hfault
    exact ⟨x, hx, .inr ⟨href, hfault⟩⟩

theorem Engine.turns_of_no_runs {e : Engine} {s : SiteId} (hlimit : e.config.runLimit = 0)
    (htake : e.takeNext.1 = some s) :
    e.turns .runAll = [⟨.refuse s, e.perform .runAll⟩] := by
  have hpair : e.takeNext = (some s, e.takeNext.2) := Prod.ext htake rfl
  have hleft : e.perform .runAll = e.takeNext.2 := by
    show leftBy (drain e.config.runLimit 0) e = _
    rw [hlimit]
    unfold leftBy
    rw [drain_zero_of_some hpair]
  rw [hleft]
  show drainTurns e.config.runLimit e = _
  rw [hlimit]
  unfold drainTurns
  rw [hpair]

theorem Engine.history_create_runAll (e : Engine) (node : NodeId) (rule : Rule) :
    e.history [.create node rule, .runAll] =
      ⟨.call (.create node rule), e.perform (.create node rule)⟩ ::
        (e.perform (.create node rule)).turns .runAll :=
  congrArg _ (List.append_nil _)

/-- With no run permitted, draining forgets a live site that waits: afterwards it neither waits nor
has been executed. -/
theorem refused_run_forgotten :
    ¬ ∀ before m mid, before ++ m :: mid <+: (Engine.boot { fuel := some 0 }).history
        [.create ⟨1⟩ (.globalRead ⟨"$x", ⟨0⟩⟩), .runAll] →
      ∀ s ∈ m.engine.queue.toList, (m.engine.after mid).isLive s = true →
        s ∈ (m.engine.after mid).queue.toList ∨ ∃ x ∈ mid, x.turn = .run s := by
  intro h
  have hfacts : waitingOne.config.runLimit = 0 ∧ waitingOne.takeNext.1 = some ⟨0⟩ ∧
      ⟨0⟩ ∈ waitingOne.queue.toList ∧ (waitingOne.perform .runAll).isLive ⟨0⟩ = true ∧
      ⟨0⟩ ∉ (waitingOne.perform .runAll).queue.toList := by
    rw [waitingOne, Engine.boot_start]
    decide +kernel
  obtain ⟨hlimit, htake, hwaits, hlive, hgone⟩ := hfacts
  rw [Engine.history_create_runAll, ← waitingOne, Engine.turns_of_no_runs hlimit htake] at h
  generalize waitingOne.perform .runAll = refused at h hlive hgone
  generalize waitingOne = waiting at h hwaits
  rcases h [] _ _ List.prefix_rfl ⟨0⟩ hwaits hlive with hstill | ⟨x, hx, hrun⟩
  · exact hgone hstill
  · cases List.mem_singleton.1 hx
    cases hrun

end TypeFlow
