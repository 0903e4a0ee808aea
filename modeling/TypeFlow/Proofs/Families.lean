import TypeFlow.Proofs.Evaluation
import TypeFlow.Proofs.Places
import TypeFlow.Workspace.Query

/-!
# Who lists a site

A site that is created is out until its owner lists it, and an owner that takes its children out
lists those again that live. So every live site is listed somewhere. As long as no slot becomes free
whose site is still listed, no site is listed twice either.
-/

set_option autoImplicit false

namespace TypeFlow

open State

namespace State

def listings (c : SiteId) (s : State) : Nat := placed (fun l => l.2.values.count c) s + outs c s

section Listings

variable (e : Engine) (ts : List Task) (t t' : Task) (d : Progress) (c : SiteId)

theorem listings_installEdges : listings c ⟨(Run.mk e t.effects).installEdges.engine,
    { t with effects := (Run.mk e t.effects).installEdges.effects } :: ts, d⟩ =
      listings c ⟨e, t :: ts, d⟩ := by
  have hstock := Engine.SameStock.installEdges ⟨e, t.effects⟩
  exact congrArg (· + outs c ⟨e, t :: ts, d⟩) (placed_of_stock hstock.nodes hstock.sites rfl rfl)

theorem listings_reclaim : listings c ⟨e.reclaim.2, [], d.note .sweep⟩ = listings c ⟨e, [], d⟩ :=
  congrArg (· + 0) (placed_reclaim _ e [] d)

theorem listings_top : listings c ⟨e, t' :: ts, d⟩ +
    (t.effects.installed.sites.values.count c + t.out.count c) = listings c ⟨e, t :: ts, d⟩ +
      (t'.effects.installed.sites.values.count c + t'.out.count c) := by
  simp only [listings, placed, outs, Effects.load, List.map_cons, List.sum_cons]
  omega

theorem listings_detach : listings c ⟨e, { t with
    effects := t.effects.detach
    limbo := t.effects.installed.sites.values ++ t.limbo
    asks := t.effects.pending.sites.entries
    out := t.effects.installed.sites.values ++ t.out } :: ts, d⟩ = listings c ⟨e, t :: ts, d⟩ := by
  refine Nat.add_right_cancel ((listings_top e ts t _ d c).trans ?_)
  rw [List.count_append]
  exact congrArg _ (Nat.zero_add _)

theorem count_out_le_listings : t.out.count c ≤ listings c ⟨e, t :: ts, d⟩ := by
  simp only [listings, outs, List.map_cons, List.sum_cons]
  omega

theorem listings_attach (sites : OrderedMap SiteKey SiteId) (hn : t.effects.installed.sites = {}) :
    listings c ⟨e,
      { t with effects := t.effects.attach sites, out := [] } :: ts, d⟩ + t.out.count c =
      listings c ⟨e, t :: ts, d⟩ + sites.values.count c := by
  have htop := listings_top e ts t { t with effects := t.effects.attach sites, out := [] } d c
  rw [hn, show (t.effects.attach sites).installed.sites = sites from rfl] at htop
  rwa [show ({} : OrderedMap SiteKey SiteId).values = [] from rfl, List.count_nil,
    Nat.zero_add] at htop

theorem listings_placeSite {node : NodeId} {rule : Rule} (hplaced : ∀ f, f Load.none = 0 →
    placed f ⟨(e.placeSite node rule).2, { t with
      limbo := (e.placeSite node rule).1 :: t.limbo
      out := (e.placeSite node rule).1 :: t.out } :: ts, d⟩ = placed f ⟨e, t :: ts, d⟩) :
    listings c ⟨(e.placeSite node rule).2, { t with
      limbo := (e.placeSite node rule).1 :: t.limbo
      out := (e.placeSite node rule).1 :: t.out } :: ts, d⟩ =
        listings c ⟨e, t :: ts, d⟩ + if (e.placeSite node rule).1 = c then 1 else 0 := by
  unfold listings
  rw [hplaced _ rfl]
  simp only [outs, List.map_cons, List.sum_cons, List.count_cons, beq_iff_eq]
  omega

end Listings

variable {s s' : State}

def Listed (s : State) : Prop := ∀ c, s.engine.isLive c = true → 1 ≤ listings c s

theorem Carries.listed (hm : Carries s s') (hk : s.Kept) (h : s.Listed) : s'.Listed := by
  intro c hlive
  cases hm with
  | keep hwanes hplaced hout =>
    unfold listings
    rw [hplaced _ rfl, hout]
    exact h c (hwanes.lives c hlive)
  | @sweep e d =>
    rw [listings_reclaim]
    refine h c ?_
    unfold Engine.isLive at hlive ⊢
    rwa [Engine.site?_reclaim] at hlive
  | @installEdges e ts d t =>
    rw [listings_installEdges]
    exact h c (Engine.Dwindles.of_sites (Engine.SameStock.installEdges ⟨e,
      t.effects⟩).sites c hlive)
  | detach =>
    rw [listings_detach]
    exact h c hlive
  | @placeSite e ts d t node rule hplaced =>
    have horderly : (Machine.mk e _ _).Orderly := hk.sound.machine.filed.toOrderly
    rw [Engine.isLive_placeSite horderly] at hlive
    rw [listings_placeSite e ts t d c hplaced]
    split
    · exact Nat.le_add_left _ _
    · next hne =>
      rw [if_neg hne] at hlive
      exact h c hlive
  | @attach e ts d t sites hn hcount hback =>
    have hinvariants := listings_attach e ts t d c sites hn
    have hbefore := h c hlive
    by_cases hout : c ∈ t.out
    · have hmem := (hback c hout).resolve_right (by simpa using hlive)
      have hpos := List.count_pos_iff.2 hmem
      have hout := count_out_le_listings e ts t d c
      omega
    · have hnone := List.count_eq_zero.2 hout
      omega

structure ListedOnce (s : State) : Prop where
  once : ∀ c, listings c s ≤ 1
  spare : ∀ i, i ∈ s.engine.sites.free ∨ s.engine.sites.size ≤ i → listings ⟨i⟩ s = 0

theorem Carries.listedOnce (hm : Carries s s') (hk : s.Kept)
    (hlog : ∀ es, s'.progress.log = s.progress.log ++ es → ∀ ev ∈ es,
      ev ≠ .sweep) (h : s.ListedOnce) :
    s'.ListedOnce := by
  cases hm with
  | keep hwanes hplaced hout =>
    have hsame : ∀ c, listings c s' = listings c s := fun c => by
      unfold listings
      rw [hplaced _ rfl, hout]
    refine ⟨fun c => hsame c ▸ h.once c, fun i hi => hsame _ ▸ h.spare i ?_⟩
    exact hi.imp (hwanes.free i) hwanes.size.trans
  | sweep => exact absurd rfl (hlog [.sweep] rfl _ (List.mem_singleton_self _))
  | @installEdges e ts d t =>
    have hsites := (Engine.SameStock.installEdges ⟨e, t.effects⟩).sites
    refine ⟨fun c => listings_installEdges e ts t d c ▸ h.once c, fun i hi => ?_⟩
    rw [listings_installEdges]
    exact h.spare i (hsites ▸ hi)
  | @detach e ts d t =>
    refine ⟨fun c => listings_detach e ts t d c ▸ h.once c, fun i hi => ?_⟩
    rw [listings_detach]
    exact h.spare i hi
  | @placeSite e ts d t node rule hplaced =>
    have horderly : (Machine.mk e _ _).Orderly := hk.sound.machine.filed.toOrderly
    have hlt : ∀ i ∈ e.sites.released ++ e.sites.free, i < e.sites.size := fun i hi => by
      obtain ⟨⟨x, hx, -⟩, -⟩ := horderly.given_up i hi
      exact Slots.lt_size_of_get? hx
    obtain ⟨-, hfree, hsize, hne⟩ := Slots.slots_alloc horderly.nodup hlt { node, rule }
    have hnew : listings (e.placeSite node rule).1 ⟨e, t :: ts, d⟩ = 0 :=
      h.spare _ ((e.sites.alloc_index { node, rule }).imp id fun he => Nat.le_of_eq he.symm)
    refine ⟨fun c => ?_, fun i hi => ?_⟩
    · rw [listings_placeSite e ts t d c hplaced]
      split
      · next he => rw [← he, hnew]
      · exact h.once c
    · rw [show (State.mk (e.placeSite node rule).2 _ d).engine.sites = _ from
        Engine.sites_placeSite e node rule, hfree] at hi
      rw [listings_placeSite e ts t d _ hplaced, if_neg]
      · exact h.spare i (hi.imp List.mem_of_mem_tail hsize.trans)
      · intro he
        have hindex : (e.sites.alloc { node, rule }).1 = i := congrArg SiteId.index he
        rcases hi with hi | hi
        · exact hne i (List.mem_append_right _ hi) hindex
        · have hsite := Engine.site?_placeSite horderly node rule (e.placeSite node rule).1
          rw [if_pos rfl] at hsite
          have hlt' := Slots.lt_size_of_get? hsite
          rw [Engine.sites_placeSite, show (e.placeSite node rule).1.index = i from hindex] at hlt'
          omega
  | @attach e ts d t sites hn hcount hback =>
    have hle : ∀ c, listings c _ ≤ listings c _ := fun c => by
      have hinvariants := listings_attach e ts t d c sites hn
      have hc := hcount c
      show listings c ⟨e, { t with effects := t.effects.attach sites, out := [] } :: ts, d⟩ ≤
        listings c ⟨e, t :: ts, d⟩
      omega
    exact ⟨fun c => (hle c).trans (h.once c),
      fun i hi => Nat.le_zero.1 ((hle _).trans (Nat.le_of_eq (h.spare i hi)))⟩

theorem ListedOnce.sweep {e : Engine} {d : Progress} (h : ListedOnce ⟨e, [], d⟩) (hk : Kept ⟨e,
    [], d⟩)
    (hlive : ∀ c, 1 ≤ listings c ⟨e, [], d⟩ → e.isLive c = true) :
    ListedOnce ⟨e.reclaim.2, [], d.note .sweep⟩ := by
  have hfree : ∀ i ∈ e.reclaim.2.sites.free, i ∈ e.sites.released ++ e.sites.free := by
    unfold Engine.reclaim
    split
    · exact fun i hi => (e.sites.perm_sweep Site.destroyed).mem_iff.1 (List.mem_append_right _ hi)
    · exact fun i hi => List.mem_append_right _ hi
  have hsize : e.reclaim.2.sites.size = e.sites.size := by
    unfold Engine.reclaim
    split <;> rfl
  refine ⟨fun c => listings_reclaim e d c ▸ h.once c, fun i hi => ?_⟩
  rw [listings_reclaim]
  rcases hi with hi | hi
  · obtain ⟨⟨x, hx, hgone⟩, -⟩ := hk.sound.machine.filed.given_up i (hfree i hi)
    by_contra hne
    have halive := hlive ⟨i⟩ (Nat.pos_of_ne_zero hne)
    simp [Engine.isLive, show e.site? ⟨i⟩ = some x from hx, hgone] at halive
  · exact h.spare i (Or.inr (hsize ▸ hi))

theorem Blank.moves (hm : Moves s s') (hk : s.Kept) (hc : s'.Called) (h : s.Blank) : s'.Blank :=
  hm.preserve (fun _ _ hk hc hm h => h.move hm hk hc) hk hc h

theorem Listed.moves (hm : Moves s s') (hk : s.Kept) (hc : s'.Called) (hb : s.Blank)
    (h : s.Listed) : s'.Listed :=
  (hm.preserve (P := fun s => s.Blank ∧ s.Listed)
    (fun _ _ hk hc hm h => ⟨h.1.move hm hk hc, (hm.carries hk h.1 hc).listed hk h.2⟩) hk hc
    ⟨hb, h⟩).2

theorem ListedOnce.moves (hm : Moves s s') (hk : s.Kept) (hc : s'.Called) (hb : s.Blank)
    (hlog : ∀ es, s'.progress.log = s.progress.log ++ es → ∀ ev ∈ es,
      ev ≠ .sweep) (h : s.ListedOnce) :
    s'.ListedOnce := by
  induction hm with
  | refl => exact h
  | tail hfirst hlast ih =>
    obtain ⟨es, hes⟩ := Moves.log hfirst
    obtain ⟨es', hes'⟩ := hlast.log
    obtain ⟨hlog1, hlog2⟩ := forall_of_append hes hes' hlog
    have hc1 := hlast.called hc
    have hk1 := hk.moves hfirst
    have hb1 := Blank.moves hfirst hk hc1 hb
    exact (hlast.carries hk1 hb1 hc).listedOnce hk1 hlog2 (ih hc1 hlog1)

end State

namespace Engine

def buffers (e : Engine) : List Installed :=
  (e.nodes.values.map fun r => r.effects.installed) ++
    (e.sites.slots.toList.filter fun x => !x.destroyed).map fun x => x.effects.installed

def owners (e : Engine) (c : SiteId) : Nat :=
  e.buffers.countP fun b => decide (c ∈ b.sites.values)

def ChildrenLive (e : Engine) : Prop :=
  ∀ b ∈ e.buffers, ∀ c ∈ b.sites.values, e.isLive c = true

def Forest (e : Engine) : Prop :=
  e.ChildrenLive ∧ ∀ c, e.isLive c = true → e.owners c = 1

variable {e : Engine} {log : List Event} {c : SiteId}

theorem listings_rest (hb : (e.rest log).Blank) :
    listings c (e.rest log) = (e.buffers.map fun b => b.sites.values.count c).sum := by
  have hslots : ∀ l : List Site, (∀ x ∈ l, x.destroyed = true → x.effects.load = .none) →
      (l.map fun x => x.effects.load.2.values.count c).sum =
        ((l.filter fun x => !x.destroyed).map fun x => x.effects.load.2.values.count c).sum := by
    intro l
    induction l with
    | nil => exact fun _ => rfl
    | cons x l ih =>
      intro h
      obtain ⟨hx, hl⟩ := List.forall_mem_cons.1 h
      rw [List.map_cons, List.sum_cons, ih hl, List.filter_cons]
      cases hgone : x.destroyed with
      | true => simp [hx hgone, Load.none, OrderedMap.values]
      | false => simp
  have htotal := hslots e.sites.slots.toList fun x hx hgone => by
    obtain ⟨i, hi⟩ := List.mem_iff_getElem?.1 hx
    rw [Array.getElem?_toList] at hi
    exact (hb.slots ⟨i⟩ x hi (Or.inl hgone)).1
  have hrest : listings c (e.rest log) =
      (e.nodes.entries.map fun x => x.2.effects.load.2.values.count c).sum +
        (e.sites.slots.toList.map fun x => x.effects.load.2.values.count c).sum := rfl
  rw [hrest, htotal]
  simp [buffers, OrderedMap.values, Effects.load, Function.comp_def]

theorem owners_le_listings (hb : (e.rest log).Blank) : e.owners c ≤ listings c (e.rest log) := by
  rw [listings_rest hb]
  unfold owners
  induction e.buffers with
  | nil => exact Nat.le_refl _
  | cons b bs ih =>
    rw [List.countP_cons, List.map_cons, List.sum_cons]
    by_cases hc : c ∈ b.sites.values
    · have hpos := List.count_pos_iff.2 hc
      simp only [hc, decide_true, if_true]
      omega
    · simp only [hc, decide_false, Bool.false_eq_true, if_false]
      omega

theorem exists_owner (hb : (e.rest log).Blank) (h : 1 ≤ listings c (e.rest log)) :
    ∃ b ∈ e.buffers, c ∈ b.sites.values := by
  rw [listings_rest hb] at h
  obtain ⟨n, hn, hne⟩ := List.exists_mem_ne_zero_of_sum_ne_zero (Nat.pos_iff_ne_zero.1 h)
  obtain ⟨b, hmem, rfl⟩ := List.mem_map.1 hn
  exact ⟨b, hmem, List.count_pos_iff.1 (Nat.pos_of_ne_zero hne)⟩

theorem one_le_owners (hb : (e.rest log).Blank) (h : 1 ≤ listings c (e.rest log)) :
    1 ≤ e.owners c := by
  obtain ⟨b, hmem, hc⟩ := exists_owner hb h
  exact List.countP_pos_iff.2 ⟨b, hmem, decide_eq_true hc⟩

theorem childrenLive_reclaim (h : e.reclaim.2.ChildrenLive) : e.ChildrenLive := by
  have hbuffers : e.reclaim.2.buffers = e.buffers := by
    unfold buffers
    rw [nodes_reclaim]
    unfold reclaim
    split <;> rfl
  intro b hb c hc
  have hlive := h b (hbuffers ▸ hb) c hc
  unfold isLive at hlive ⊢
  rwa [site?_reclaim] at hlive

end Engine

namespace Workspace

variable {w : Workspace} {log log' : List Event} {e : Engine}

structure Invariants (w : Workspace) (log : List Event) : Prop where
  kept : (w.rest log).Kept
  fits : w.Fits log
  blank : (w.rest log).Blank
  listed : (w.rest log).Listed

theorem invariants_ofConfig (config : Config) : (ofConfig config).Invariants [] ∧
    ((ofConfig config).rest []).ListedOnce := by
  have hstock := Boot.stock_boot config
  have hsite := Boot.site?_boot config
  have hnone : ∀ c, listings c ((ofConfig config).rest []) = 0 := fun c => by
    show (Engine.boot config).nodes.tally _ + (Engine.boot config).sites.total _ + 0 + 0 + 0 = 0
    rw [hstock.nodes, hstock.sites]
    rfl
  refine ⟨⟨Boot.kept_boot config, fits_ofConfig config, ⟨fun u x hx => ?_, fun n hopens => ?_⟩,
    fun c hlive => ?_⟩, fun c => (hnone c).trans_le (Nat.zero_le _), fun i _ => hnone _⟩
  · exact absurd (hx.symm.trans (hsite u)) (by simp)
  · obtain ⟨o, hmem, -⟩ := hopens
    exact absurd hmem List.not_mem_nil
  · have hlive : (Engine.boot config).isLive c = true := hlive
    simp [Engine.isLive, hsite] at hlive

theorem Invariants.after (h : w.Invariants log) (r : Request) : ∃ log',
    (w.after r).Invariants log' ∧
    ((w.rest log).ListedOnce → (∀ c, listings c ((w.after r).rest log') ≤ 1) ∧
      ((w.after r).engine.ChildrenLive → ((w.after r).rest log').ListedOnce)) := by
  obtain ⟨log', hcloses, hfits⟩ := closes_after w r h.kept.sound
  have hmoves := hcloses.moves
  have hcalled : ((w.after r).rest log').Called := ⟨_, (hfits h.fits).called⟩
  have hblank := Blank.moves hmoves h.kept hcalled h.blank
  refine ⟨log', ⟨h.kept.moves hmoves, hfits h.fits, hblank,
    .moves hmoves h.kept hcalled h.blank h.listed⟩, fun hlistedOnce => ?_⟩
  obtain ⟨e1, log1, ⟨es, rfl, hes⟩, hm, hlast⟩ := hcloses
  have hquiet : ∀ es', log ++ es = log ++ es' → ∀ ev ∈ es', ev ≠ .sweep := by
    intro es' he ev hev
    rw [← List.append_cancel_left he] at hev
    exact fun hsweep => hes (hsweep ▸ hev)
  have hlistedOnce1 : (e1.rest (log ++ es)).Called → (e1.rest (log ++ es)).ListedOnce := fun hc =>
    .moves hm h.kept hc h.blank hquiet hlistedOnce
  show (∀ c, listings c ((w.after r).engine.rest log') ≤ 1) ∧
    (_ → ((w.after r).engine.rest log').ListedOnce)
  rcases hlast with ⟨he, rfl⟩ | ⟨he, rfl⟩
  · rw [he]
    have hafter := hlistedOnce1 ⟨_, (hfits h.fits).called⟩
    exact ⟨hafter.once, fun _ => hafter⟩
  · obtain ⟨roll, hroll, -⟩ := Roll.call_snoc.1 (hfits h.fits).called
    have hc1 : (e1.rest (log ++ es)).Called := ⟨roll, hroll⟩
    have hb1 := Blank.moves hm h.kept hc1 h.blank
    rw [he]
    refine ⟨fun c => (listings_reclaim e1 (e1.rest (log ++ es)).progress c).trans_le ((hlistedOnce1
      hc1).once c),
      fun hlive => ?_⟩
    refine (hlistedOnce1 hc1).sweep (h.kept.moves hm) fun c hc => ?_
    obtain ⟨b, hmem, hb⟩ := Engine.exists_owner hb1 hc
    exact Engine.childrenLive_reclaim hlive b hmem c hb

theorem invariants_serve (config : Config) (rs : List Request) : ∃ log,
    (serve config rs).Invariants log ∧
    ((∀ k < rs.length, (serve config (rs.take k)).engine.ChildrenLive) →
      (∀ c, listings c ((serve config rs).rest log) ≤ 1) ∧
        ((serve config rs).engine.ChildrenLive → ((serve config rs).rest log).ListedOnce)) := by
  induction rs using List.reverseRecOn with
  | nil =>
    obtain ⟨hinvariants, hlistedOnce⟩ := invariants_ofConfig config
    exact ⟨[], hinvariants, fun _ => ⟨hlistedOnce.once, fun _ => hlistedOnce⟩⟩
  | append_singleton rs r ih =>
    obtain ⟨log, hinvariants, hlistedOnce⟩ := ih
    obtain ⟨log', hinvariants', hlistedOnce'⟩ := hinvariants.after r
    have hserve : serve config (rs ++ [r]) = (serve config rs).after r := by
      unfold serve
      rw [List.foldl_append]
      rfl
    rw [hserve]
    refine ⟨log', hinvariants', fun hlive => hlistedOnce' ((hlistedOnce fun k hk => ?_).2 ?_)⟩
    · have hbefore := hlive k (by rw [List.length_append]; omega)
      rwa [List.take_append_of_le_length hk.le] at hbefore
    · have hlast := hlive rs.length (by rw [List.length_append]; exact Nat.lt_succ_self _)
      rwa [List.take_left] at hlast

end Workspace

open Workspace in
/-- After every sequence of requests, every live site is listed by an owner. If no request before
the last one left an owner with a dead child, then every live site has one owner only. So ownership
stays a forest if and only if no request leaves an owner with a dead child. -/
theorem site_owners (config : Config) (rs : List Request) :
    let state k := (serve config (rs.take k)).engine
    (∀ k c, (state k).isLive c = true → 1 ≤ (state k).owners c) ∧
    (∀ n, (∀ k < n, (state k).ChildrenLive) →
      ∀ c, (state n).isLive c = true → (state n).owners c = 1) ∧
    ((∀ k, (state k).Forest) ↔ ∀ k, (state k).ChildrenLive) := by
  intro state
  have howned : ∀ k c, (state k).isLive c = true → 1 ≤ (state k).owners c := by
    intro k c hlive
    obtain ⟨log, hinvariants, -⟩ := invariants_serve config (rs.take k)
    exact Engine.one_le_owners hinvariants.blank (hinvariants.listed c hlive)
  have honce : ∀ n, (∀ k < n, (state k).ChildrenLive) →
      ∀ c, (state n).isLive c = true → (state n).owners c = 1 := by
    intro n hbefore c hlive
    obtain ⟨log, hinvariants, hlistedOnce⟩ := invariants_serve config (rs.take n)
    refine Nat.le_antisymm ?_ (howned n c hlive)
    refine (Engine.owners_le_listings hinvariants.blank).trans ((hlistedOnce fun k hk => ?_).1 c)
    rw [List.length_take] at hk
    rw [List.take_take, Nat.min_eq_left (by omega)]
    exact hbefore k (by omega)
  exact ⟨howned, honce, fun h k => (h k).1,
    fun h k => ⟨h k, honce k fun j _ => h j⟩⟩

section SharedSlot

def declaresBar : String :=
  "\x7b\"type\":\"sig_def\",\"name\":\"bar\",\"overloads\":[\x7b\"block\":\x7b\"req\":[]," ++
    "\"ret\":\x7b\"type\":\"instance\",\"cpath\":[\"Integer\"]\x7d\x7d," ++
    "\"ret\":\x7b\"type\":\"nil\"\x7d\x7d]\x7d"

def callsBar : String :=
  "\x7b\"type\":\"gvar_write\",\"name\":\"$b\",\"value\":\x7b\"type\":\"gvar_read\"," ++
    "\"name\":\"$b\"\x7d\x7d,\x7b\"type\":\"call\",\"recv\":null,\"name\":\"bar\"," ++
    "\"args\":[],\"block\":\x7b\"type\":\"gvar_read\",\"name\":\"$b\"\x7d\x7d"

def assignsBlock : String :=
  "\x7b\"type\":\"gvar_write\",\"name\":\"$b\",\"value\":\x7b\"type\":\"block\"," ++
    "\"params\":[],\"body\":[\x7b\"type\":\"int\",\"value\":1\x7d]\x7d\x7d"

def copiesInteger : String :=
  "\x7b\"type\":\"gvar_write\",\"name\":\"$z\",\"value\":\x7b\"type\":\"int\"," ++
    "\"value\":1\x7d\x7d,\x7b\"type\":\"const_write\",\"name\":\"C\"," ++
    "\"value\":\x7b\"type\":\"gvar_read\",\"name\":\"$z\"\x7d\x7d"

def writing (path statements : String) : Request :=
  .update path none ("\x7b\"type\":\"program\",\"body\":[" ++ statements ++ "]\x7d")

/-- The check of a block goes with the document of the block, and its slot goes to a site of `"c"`. -/
def sharingSlot : List Request :=
  [writing "a" (declaresBar ++ "," ++ callsBar), writing "b" assignsBlock, .remove "b",
    writing "c" copiesInteger, writing "d" declaresBar]

/-- The call still lists the slot when it has become a site of `"c"`, and destroys that site when it
runs again. -/
theorem site_with_two_owners :
    let shared := Workspace.serve {} (sharingSlot.take 4)
    let after := Workspace.serve {} sharingSlot
    ["a", "b", "c", "d"].map after.version? = [some 0, none, some 0, some 0] ∧
      shared.engine.isLive ⟨4⟩ = true ∧ shared.engine.owners ⟨4⟩ = 2 ∧
      shared.constantType? ["C"] = some "Integer" ∧
      after.engine.isLive ⟨4⟩ = false ∧ after.engine.owners ⟨4⟩ = 1 ∧
      after.constantType? ["C"] = some "untyped" := by
  simp only [Workspace.serve_eq]
  decide +kernel

end SharedSlot

end TypeFlow
