import TypeFlow.Proofs.Staged
import TypeFlow.Proofs.Upholding

/-!
# The lives of sites in moves

Destroying a site, running it and draining the queue are moves. Destroying never ends in a
fault; a run does only when a comparison of types never ends, and a drain only then or when it may
make no further run.
-/

set_option autoImplicit false

namespace TypeFlow

open State

def Fault.Honest (f : Fault) : Prop := ∀ s entity, f ≠ .missingReverseIndex s entity

namespace Engine

variable {ts : List Task} {d : Progress} {e : Engine} {s : SiteId} {x : Site}
variable {r : Run} {b : UnlistedChildren} {e' : Engine}

theorem drives_onSiteEffects {γ : Type} {put : Engine → γ → State}
    {E : Fault → Engine → γ → Prop} {F : Fault → Run → UnlistedChildren → Prop} {w : Work}
    {home : Option NodeId} {e0 : Engine} {g0 : γ} {fx : Effects} {work : RunM Unit}
    {finish : Engine → Engine} {P : Unit → Run → UnlistedChildren → Prop} {Q : Unit → Engine → γ →
      Prop}
    (hbegin : Moves (put e0 g0)
      (Run.under w home ts d ⟨e.modifySite s fun x => { x with effects := {} }, fx⟩ {}))
    (hwork : Drives (Run.under w home ts d) F work
      ⟨e.modifySite s fun x => { x with effects := {} }, fx⟩ {} P)
    (hend : ∀ (r : Run) b, (r.under w home ts d b).Sound → P () r b →
      ∃ g, Moves (r.under w home ts d b)
        (put (finish (r.engine.modifySite s fun x => { x with effects := r.effects })) g) ∧
        Q () (finish (r.engine.modifySite s fun x => { x with effects := r.effects })) g)
    (hfault : ∀ f (r : Run) b, F f r b →
      ∃ g, Moves (r.under w home ts d b)
        (put (finish (r.engine.modifySite s fun x => { x with effects := r.effects })) g) ∧
        E f (finish (r.engine.modifySite s fun x => { x with effects := r.effects })) g) :
    Drives put E (fun _ => onSiteEffects s fx work finish e) e0 g0 Q := by
  intro hs
  have hs' := hs.moves hbegin
  have hdone := hwork hs'
  revert hdone
  unfold onSiteEffects
  cases work ⟨e.modifySite s fun x => { x with effects := {} }, fx⟩ with
  | ok _ r =>
    rintro ⟨b, hmoves, hp⟩
    obtain ⟨g, hlast, hq⟩ := hend r b (hs'.moves hmoves) hp
    exact ⟨g, (hbegin.trans hmoves).trans hlast, hq⟩
  | error f r =>
    rintro ⟨b, hmoves, hf⟩
    obtain ⟨g, hlast, he⟩ := hfault f r b hf
    exact ⟨g, (hbegin.trans hmoves).trans hlast, he⟩

theorem moves_endDestroy (h : r.effects = {}) (hout : b.out = [])
    (stats : SiteStats) : Moves (r.under (.destroy s) none ts d b)
      ⟨{ (r.engine.modifySite s fun x => { x with effects := r.effects }) with
          sites := (r.engine.modifySite s fun x => { x with effects := r.effects }).sites.release
            s.index
          stats }, ts, d⟩ := by
  have hend : Moves (r.under (.destroy s) none ts d b) _ := .single (.endDestroy rfl h hout)
  exact hend.tail (.aside (.count _ _ (Nat.le_refl _) fun _ hu _ => hu))

theorem isLive_endDestroy
    (hs : (r.under (.destroy s) none ts d b).Sound) (stats : SiteStats) (u : SiteId) :
    Engine.isLive { (r.engine.modifySite s fun x => { x with effects := r.effects }) with
      sites := (r.engine.modifySite s fun x => { x with effects := r.effects }).sites.release
        s.index
      stats } u = if s = u then false else r.engine.isLive u := by
  show (r.engine.modifySite s fun x => { x with effects := r.effects }).isLive u = _
  rw [isLive_modifySite s fun _ => by rfl]
  split
  · next h =>
    subst h
    obtain ⟨x, hx, hgone⟩ : ∃ x, r.engine.site? s = some x ∧ x.destroyed = true :=
      hs.machine.filed.fits _ List.mem_cons_self
    simp [isLive, hx, hgone]
  · rfl

theorem drives_destroyWithin {n : Nat} (hd : Run.Destroys n (destroyWithin n))
    (hs : ∀ t ∈ ts.head?, s ∈ t.limbo) (hn : e.population ≤ n + 1) :
    Drives (Engine.under ts d) Never (destroyWithin (n + 1) s) e ()
      fun _ e' _ => e'.isLive s = false ∧ e.Dwindles e' := by
  refine Drives.withState fun _ => ?_
  cases hx : e.site? s with
  | none => exact Drives.pure ⟨by simp [isLive, hx], .refl e⟩
  | some x =>
    dsimp only
    split
    · next hgone => exact Drives.pure ⟨by simp [isLive, hx, hgone], .refl e⟩
    · next hlive =>
      let close : Engine → Engine := fun e =>
        { e with
          sites := e.sites.release s.index
          stats := e.stats.destroy x.rule.name }
      refine Drives.congr (m := fun _ => onSiteEffects s _ (Run.installWith (destroyWithin n) _)
        close (x.rule.unregister s (e.markDestroyed s x))) ?_ rfl
      have hbegin : Moves ⟨e, ts, d⟩
          (Run.under (.destroy s) none ts d (e.destroying s x) {}) :=
        .single (.beginDestroy hx (Bool.eq_false_iff.2 hlive) hs)
      -- The site is marked first, so one site less is live when its children are taken down.
      have hdwindles : e.Dwindles (e.destroying s x).engine := .destroying hx
      have hfewer : (e.destroying s x).engine.population < e.population :=
        hdwindles.population_lt (s := s) (by simp [isLive, hx, hlive])
          (by rw [isLive_destroying hx, if_pos rfl])
      refine drives_onSiteEffects hbegin
        (Run.drives_installWith (w := .destroy s) hd (Nat.le_of_lt_succ (hfewer.trans_le hn)) rfl)
        (fun r b hs' hr => ?_)
        fun _ _ _ hf => False.elim hf
      obtain ⟨sites, hr, hout, hnone⟩ := hr
      obtain ⟨rfl, hrest⟩ := hnone rfl
      refine ⟨(), moves_endDestroy hr hout _, ?_, fun u hu => ?_⟩
      · exact (isLive_endDestroy hs' _ s).trans (if_pos rfl)
      · rw [show Engine.isLive (close _) u = _ from isLive_endDestroy hs' _ u] at hu
        split at hu
        · cases hu
        · exact hdwindles u (hrest u hu)

theorem destroys_destroyWithin (n : Nat) : Run.Destroys n (destroyWithin n) := by
  induction n with
  | zero =>
    refine fun e _ _ s _ hn => Drives.pure ⟨Bool.eq_false_iff.2 fun hlive => ?_, .refl e⟩
    have hpos : 0 < e.population := Finset.card_pos.2 ⟨s.index, Finset.mem_filter.2
      ⟨Finset.mem_range.2 (lt_size_of_isLive hlive), hlive⟩⟩
    omega
  | succ n ih => exact fun e ts d s hs hn => drives_destroyWithin ih hs hn

theorem destroys_destroySite (limit : Nat) : Run.Destroys limit destroySite :=
  fun e ts d s hs _ => Drives.withState fun _ =>
    destroys_destroyWithin _ e ts d s hs (e.population_le_size.trans (Nat.le_succ _))

theorem drives_ofStaging {own : NodeId} {m : Staging Unit} (hm : Fine own m r) :
    Drives (Run.under (.run s) (some own) [] d) (fun f _ b => f = .endlessMatch ∧ b.out = [])
      (ofStaging m) r {} fun _ r' b => b.out = [] ∧ m r = some ((), r') := by
  intro hs
  unfold ofStaging
  cases hr : m r with
  | none => exact ⟨{}, .refl, rfl, rfl⟩
  | some a => exact ⟨{}, (hm (s, d) hs a.1 a.2 hr).1, rfl, rfl⟩

def idle (e : Engine) (d : Progress) : State := ⟨e, [], d⟩

theorem mem_queue_takeNext (h : e.takeNext = (some s, e')) :
    ∀ u ∈ e.queue.toList, e.isLive u = true → u = s ∨ u ∈ e'.queue.toList := by
  obtain ⟨gone, queue, hqueue, rfl, -, hgone⟩ := takeNext_some h
  intro u hu hlive
  rw [hqueue, List.mem_append, List.mem_cons] at hu
  rcases hu with hu | hu
  · exact absurd hlive (by simp [hgone u hu])
  · exact hu

/-- What is installed for a site after its run is what the run asked for. -/
theorem ran_of_install {r' : Run} {sites : OrderedMap SiteKey SiteId}
    (hslot : s.index < r.engine.sites.size ∧ s.index ∉ r.engine.sites.free)
    (hx : (r.engine.site? s).map (fun x => (x.rule, x.node)) = some (x.rule, x.node))
    (hpending : r.effects.pending = {}) (hclosed : r.engine.world.Closed)
    (hknown : x.rule.Known r.engine.world) {r1 : Run} (hrun : x.rule.run x.node r = some ((), r1))
    (hinstall : install (.site s) r1 = .ok () r')
    (hsites : r1.effects.pending.sites = {} → sites = {})
    (hfx : r'.effects = r1.effects.settled sites (.site s)) :
    ∀ y, r'.engine.site? s = some y → y.rule.Ran y.node r'.engine r'.effects := by
  intro y hy
  have hleft : leftBy (install (.site s)) r1 = r' := by
    unfold leftBy
    rw [hinstall]
  have hupholds : r1.engine.Upholds (leftBy (install (.site s)) r1).engine :=
    honours_install (.site s) r1
  have hhouses : Houses s r.engine r1.engine := x.rule.keeps_run x.node r () r1 hrun
  have hhoused : Houses s r1.engine (leftBy (install (.site s)) r1).engine :=
    honours_install (.site s) r1
  rw [hleft] at hupholds hhoused
  obtain ⟨-, -, hsame⟩ := hhouses.trans hhoused hslot.1 hslot.2
  rw [hy, hx] at hsame
  obtain ⟨hrule, hnode⟩ := Prod.ext_iff.1 (Option.some.inj hsame)
  rw [show y.rule = x.rule from hrule, show y.node = x.node from hnode]
  exact ⟨r, r1, sites, hpending, hclosed, hknown, hrun, hupholds, hsites, hfx⟩

/-- The first live site runs. Its run may be broken off because a comparison of types never ends. -/
theorem drives_runSite (hnext : e.takeNext = (some s, e')) (hd : d.lifted = none) :
    Drives idle (fun f _ d' => f = .endlessMatch ∧ d' = d.note .spill) (fun _ => runSite s e') e d
      fun _ _ d' => d' = d := by
  have hwait := mem_queue_takeNext hnext
  obtain ⟨gone, queue, -, rfl, hlives, -⟩ := takeNext_some hnext
  refine Drives.intro fun hs => ?_
  cases hx : e.site? s with
  | none => exact absurd hlives (by simp [isLive, hx])
  | some x =>
    have hlive : x.destroyed = false := by simpa [isLive, hx] using hlives
    have hknown := hs.machine.grounded.rules s x hx
    have hgiven := hs.machine.filed.toOrderly.not_given_up hx hlive
    rw [List.mem_append, not_or] at hgiven
    let counted : Engine := { e with
      queue
      stats := { e.stats with runs := e.stats.runs + 1 } }
    have hbegin : Moves (e.idle d) (Run.under (.run s) (some x.node) [] d
        ⟨counted.modifySite s fun x => { x with effects := {} }, x.effects.discard⟩ {}) := by
      have hcount : Move (e.idle d)
          (Engine.idle { e with stats := { e.stats with runs := e.stats.runs + 1 } } d) :=
        .aside (.count _ _ (Nat.le_refl _) fun _ hu _ => hu)
      exact (Relation.ReflTransGen.single hcount).tail (.beginRun hd hx hlive hwait)
    have hrun : runSite s { e with queue } = onSiteEffects s x.effects.discard
        (do ofStaging (x.rule.run x.node); install (.site s)) id counted := by
      unfold runSite
      simp only [bind, EStateM.bind, get, getThe, MonadStateOf.get, EStateM.get]
      rw [show Engine.site? { e with queue } s = some x from hx]
      simp [hlive]
      rfl
    refine Drives.congr (m := fun _ => onSiteEffects s x.effects.discard
      (do ofStaging (x.rule.run x.node); install (.site s)) id counted) ?_ hrun
    refine drives_onSiteEffects
      (P := fun _ r b => r.effects.pending = {} ∧ b.out = [] ∧
        ∀ y, r.engine.site? s = some y → y.rule.Ran y.node r.engine r.effects)
      (F := fun f _ b => f = .endlessMatch ∧ b.out = []) hbegin
      (Drives.bind (drives_ofStaging (Rule.fine_run hknown)) fun _ r b _ hr => ?_)
      (fun r b _ hr => ⟨d, .single (.endRun rfl hr.1 hr.2.1 hr.2.2), rfl⟩)
      fun _ r b hf => ⟨d.note .spill, .single (.breakRun rfl hf.2), hf.1, rfl⟩
    obtain ⟨hout, hasked⟩ := hr
    refine ((Run.drives_installWith (w := .run s) (destroys_destroySite _) (Nat.le_refl _)
      hout).result.imp fun _ r' _ _ hr => ?_).sure
    obtain ⟨⟨sites, hr, hout', hsites⟩, hinstall⟩ := hr
    refine ⟨?_, hout', ran_of_install ⟨?_, hgiven.2⟩ ?_ rfl hs.machine.grounded.closed hknown hasked
      hinstall (fun h => (hsites h).1) hr⟩
    · rw [hr]
      rfl
    · exact (Slots.size_modify ..).symm ▸ lt_size_of_isLive (e := e) hlives
    · rw [site?_modifySite, if_pos rfl, show counted.site? s = some x from hx]
      rfl

inductive Stuck (log : List Event) : Fault → List Event → Prop where
  | endless : Stuck log .endlessMatch (log ++ [.spill])
  | exhausted (runs : Nat) : Stuck log (.fuelExhausted runs) (log ++ [.spill])

def Stalls (d : Progress) (f : Fault) (_ : Engine) (d' : Progress) : Prop :=
  ∃ log, d' = { d with log } ∧ Stuck d.log f log

theorem drives_drained (hnext : e.takeNext = (none, e')) (limit runs : Nat) :
    Drives idle (Stalls d) (drain limit runs) e d fun _ e' d' => d' = d ∧ e'.queue = .empty := by
  refine Drives.congr (m := fun _ => .ok runs e') (fun _ => ?_) (drain_of_none hnext limit runs)
  obtain ⟨rfl, hdead⟩ := takeNext_none hnext
  exact ⟨d, .single (.aside (.count _ _ (Nat.le_refl _) fun u hu hlive =>
    absurd hlive (by simp [hdead u hu]))), rfl, rfl⟩

theorem drives_drain (limit runs : Nat) (e : Engine) (hd : d.lifted = none) :
    Drives idle (Stalls d) (drain limit runs) e d
      fun _ e' d' => d' = d ∧ e'.queue = .empty := by
  induction limit generalizing runs e with
  | zero =>
    cases hnext : e.takeNext with
    | mk next e' =>
      cases next with
      | none => exact drives_drained hnext _ runs
      | some s =>
        refine Drives.congr (m := fun _ => .error (.fuelExhausted runs) e') (fun _ => ?_)
          (drain_zero_of_some hnext runs)
        obtain ⟨gone, queue, -, rfl, -, -⟩ := takeNext_some hnext
        exact ⟨d.note .spill, .single (.refuse _), _, rfl, .exhausted runs⟩
  | succ limit ih =>
    cases hnext : e.takeNext with
    | mk next e' =>
      cases next with
      | none => exact drives_drained hnext _ runs
      | some s =>
        refine Drives.congr (m := (fun _ => runSite s e') >>= fun _ => drain limit (runs + 1)) ?_
          ((drain_succ_of_some hnext limit runs).trans ?_)
        swap
        · simp only [bind, EStateM.bind]
          cases runSite s e' <;> rfl
        refine Drives.bind ((drives_runSite hnext hd).fault ?_) fun _ e'' _ _ h => ?_
        · rintro f _ _ _ ⟨rfl, rfl⟩
          exact ⟨_, rfl, .endless⟩
        · subst h
          exact ih (runs + 1) e''

theorem drives_runAll (e : Engine) (hd : d.lifted = none) :
    Drives idle (Stalls d) runAll e d
      fun _ e' d' => d' = d ∧ e'.queue = .empty :=
  Drives.withState fun _ => drives_drain _ 0 e hd

end Engine

end TypeFlow
