import TypeFlow.Proofs.Keeping

/-!
# Where effects are

The effects of an owner are in its record, in the slot of a site, in a task, or with a record that
is being torn down. Moves carry them from place to place; the edges and children that they list
change only when something is put in place. So a sum over all places changes only then, and places
that are written over are empty.
-/

set_option autoImplicit false

namespace TypeFlow

open State Machine

namespace OrderedMap

variable {κ α : Type} [DecidableEq κ] {m : OrderedMap κ α} {f : κ × α → Nat} {k : κ} {a : α}

theorem tally_eq (hn : m.keys.Nodup) (h : m.get? k = some a) :
    m.tally f = f (k, a) + (m.erase k).tally f := by
  have hsum := ((entries_perm hn h).map f).sum_eq
  simpa [tally] using hsum

theorem erase_modify (m : OrderedMap κ α) (k : κ) (g : α → α) : (m.modify k g).erase k =
    m.erase k := by
  obtain ⟨es⟩ := m
  unfold modify erase
  congr 1
  induction es with
  | nil => rfl
  | cons x es ih =>
    rw [List.map_cons, List.filter_cons, List.filter_cons, ih]
    by_cases hx : x.1 = k <;> simp [hx]

theorem tally_modify (hn : m.keys.Nodup) (h : m.get? k = some a) (g : α → α) :
    (m.modify k g).tally f + f (k, a) = m.tally f + f (k, g a) := by
  have hn' : (m.modify k g).keys.Nodup := by rwa [keys_modify]
  have h' : (m.modify k g).get? k = some (g a) := by rw [get?_modify, if_pos rfl, h,
    Option.map_some]
  rw [tally_eq hn' h', tally_eq hn h, erase_modify]
  omega

theorem tally_modify_same (m : OrderedMap κ α) (k : κ) {g : α → α}
    (hg : ∀ a, f (k, g a) = f (k, a)) : (m.modify k g).tally f = m.tally f := by
  unfold tally modify
  rw [List.map_map]
  refine congrArg List.sum (List.map_congr_left fun x _ => ?_)
  by_cases hx : x.1 = k
  · simp only [Function.comp_apply, hx, if_true, hg]
    rw [← hx]
  · simp [hx]

theorem tally_insert_of_none (h : m.get? k = none) (a : α) :
    (m.insert k a).tally f = m.tally f + f (k, a) := by
  have hk : m.contains k = false := Bool.eq_false_iff.2 fun hc =>
    get?_eq_none_iff.1 h (contains_iff.1 hc)
  unfold insert
  rw [if_neg (Bool.eq_false_iff.1 hk)]
  simp [tally]

end OrderedMap

namespace Slots

variable {α : Type} {s s' : Slots α} {f : α → Nat}

theorem total_congr (h : ∀ i, (s'.get? i).map f = (s.get? i).map f) : s'.total f = s.total f := by
  refine congrArg List.sum (List.ext_getElem? fun i => ?_)
  rw [List.getElem?_map, List.getElem?_map, Array.getElem?_toList, Array.getElem?_toList]
  exact h i

theorem total_modify_same (i : Nat) {g : α → α} (hg : ∀ a, f (g a) = f a) :
    (s.modify i g).total f = s.total f := by
  refine total_congr fun j => ?_
  rw [get?_modify]
  split
  · rw [Option.map_map, show f ∘ g = f from funext hg]
  · rfl

theorem total_alloc (h : ∀ i ∈ s.free, ∃ b, s.get? i = some b ∧ f b = 0) (a : α) :
    (s.alloc a).2.total f = s.total f + f a := by
  unfold alloc
  cases hfree : s.free with
  | nil => simp [total]
  | cons i rest =>
    obtain ⟨b, hb, hzero⟩ := h i (hfree ▸ List.mem_cons_self)
    have hsum : (s.modify i fun _ => a).total f + f b = s.total f + f a :=
      total_modify hb (fun _ => a) f
    rw [hzero] at hsum
    exact hsum

end Slots

abbrev Load := OrderedSet (VertexId × VertexId) × OrderedMap SiteKey SiteId

def Load.none : Load := ({}, {})

def Effects.load (fx : Effects) : Load := (fx.installed.edges, fx.installed.sites)

namespace State

def placed (f : Load → Nat) (s : State) : Nat :=
  s.engine.nodes.tally (fun x => f x.2.effects.load) +
    s.engine.sites.total (fun x => f x.effects.load) +
    (s.tasks.map fun t => f t.effects.load).sum +
    s.progress.lifted.elim 0 fun x => f x.2.effects.load

def outs (c : SiteId) (s : State) : Nat := (s.tasks.map fun t => t.out.count c).sum

def Called (s : State) : Prop := ∃ r, Roll.call s.progress.log = some r

structure Blank (s : State) : Prop where
  slots : ∀ u x, s.engine.site? u = some x → x.destroyed = true ∨ s.Busy u →
    x.effects.load = .none ∧ x.effects.holdings = [] ∧ x.effects.pending = {}
  opened : ∀ n, s.progress.Opens n → ∀ r, s.engine.record? n = some r → r.effects.load = .none

variable {s s' : State} {e e' : Engine} {ts ts' : List Task} {t t' : Task} {d d' : Progress}
  {f : Load → Nat}
variable {old : NodeId} {u : SiteId} {x : Site}

theorem Move.called (hm : Move s s') (h : s'.Called) : s.Called := by
  obtain ⟨r, hr⟩ := h
  obtain ⟨es, hes⟩ := hm.log
  rw [hes, Roll.call_append] at hr
  obtain ⟨r0, hr0, -⟩ := Option.bind_eq_some_iff.1 hr
  exact ⟨r0, hr0⟩

theorem Kept.start (hk : s.Kept) (hc : s'.Called) {n : NodeId}
    (hlog : s'.progress.log = s.progress.log ++ [.start n]) : s.engine.record? n = none := by
  obtain ⟨roll', hroll'⟩ := hc
  obtain ⟨roll, hroll, hstep⟩ := Roll.call_snoc.1 (hlog ▸ hroll')
  exact Option.eq_none_iff_forall_not_mem.2 fun x hx =>
    (Roll.step_start hstep).1 (((hk.homed roll hroll).keys n).2 ⟨x, hx⟩)

theorem Kept.adopt (hk : s.Kept) (hc : s'.Called) {new : NodeId}
    (hlog : s'.progress.log = s.progress.log ++ [.adopt new old]) :
    (∃ r, s.engine.record? old = some r) ∧ s.engine.record? new = none := by
  obtain ⟨roll', hroll'⟩ := hc
  obtain ⟨roll, hroll, hstep⟩ := Roll.call_snoc.1 (hlog ▸ hroll')
  obtain ⟨⟨hold, -, hnew⟩, -⟩ := Roll.step_adopt hstep
  have hkeys := (hk.homed roll hroll).keys
  exact ⟨(hkeys old).1 hold, Option.eq_none_iff_forall_not_mem.2 fun x hx =>
    hnew ((hkeys new).2 ⟨x, hx⟩)⟩

theorem Moves.preserve {P : State → Prop}
    (hstep : ∀ s s', s.Kept → s'.Called → Move s s' → P s → P s') (hm : Moves s s')
    (hk : s.Kept) (hc : s'.Called) (h : P s) : P s' := by
  induction hm with
  | refl => exact h
  | tail hfirst hlast ih =>
    exact hstep _ _ (hk.moves hfirst) hc hlast (ih (hlast.called hc))

theorem placed_of_stock (hn : e'.nodes = e.nodes) (hs : e'.sites = e.sites)
    (ht : (ts'.map fun t => f t.effects.load) = ts.map fun t => f t.effects.load)
    (hl : (d'.lifted.elim 0 fun x => f x.2.effects.load) =
      d.lifted.elim 0 fun x => f x.2.effects.load) :
    placed f ⟨e', ts', d'⟩ = placed f ⟨e, ts, d⟩ := by
  unfold placed
  dsimp only
  rw [hn, hs, ht, hl]

theorem placed_still (hn : e'.nodes = e.nodes) (hs : e'.sites = e.sites)
    (hl : d'.lifted = d.lifted) : placed f ⟨e', ts, d'⟩ = placed f ⟨e, ts, d⟩ :=
  placed_of_stock hn hs rfl (by rw [hl])

theorem placed_top (hn : e'.nodes = e.nodes) (hs : e'.sites = e.sites)
    (hl : d'.lifted = d.lifted) : placed f ⟨e', t' :: ts, d'⟩ + f t.effects.load =
      placed f ⟨e, t :: ts, d⟩ + f t'.effects.load := by
  unfold placed
  dsimp only
  rw [hn, hs, hl, List.map_cons, List.sum_cons, List.map_cons, List.sum_cons]
  omega

theorem placed_reclaim (f : Load → Nat) (e : Engine) (ts : List Task) (d : Progress) :
    placed f ⟨e.reclaim.2, ts, d.note .sweep⟩ = placed f ⟨e, ts, d⟩ := by
  unfold placed
  dsimp only
  rw [Engine.nodes_reclaim, Slots.total_congr fun i => congrArg _ (Engine.site?_reclaim e ⟨i⟩)]
  rfl

theorem placed_modifyNode (n : NodeId) {g : NodeRecord → NodeRecord}
    (hg : ∀ r, (g r).effects = r.effects) :
    placed f ⟨e.modifyNode n g, ts, d⟩ = placed f ⟨e, ts, d⟩ := by
  unfold placed
  dsimp only
  rw [show (e.modifyNode n g).nodes = e.nodes.modify n g from rfl,
    OrderedMap.tally_modify_same _ _ fun r => by rw [hg]]
  rfl

theorem placed_putBack (hx : e.site? u = some x)
    (hb : x.effects.load = .none) (hf : f .none = 0) (hl : d'.lifted = d.lifted) :
    placed f ⟨e.modifySite u fun x => { x with effects := t.effects }, ts, d'⟩ =
      placed f ⟨e, t :: ts, d⟩ := by
  have htotal := Slots.total_modify hx (fun x => { x with effects := t.effects })
    fun x => f x.effects.load
  unfold placed
  dsimp only at htotal ⊢
  rw [hb, hf] at htotal
  rw [hl, List.map_cons, List.sum_cons]
  show _ + (e.sites.modify u.index _).total _ + _ + _ = _
  rw [show (e.modifySite u _).nodes = e.nodes from rfl]
  omega

theorem placed_takeOut (hx : e.site? u = some x) (hf : f .none = 0)
    (b : Site → Bool) (ht : t.effects.load = x.effects.load) :
    placed f ⟨e.modifySite u fun x => { x with effects := {}, destroyed := b x }, t :: ts, d⟩ =
      placed f ⟨e, ts, d⟩ := by
  have htotal := Slots.total_modify hx (fun x => { x with effects := {}, destroyed := b x })
    fun x => f x.effects.load
  unfold placed
  dsimp only at htotal ⊢
  rw [show f ({} : Effects).load = 0 from hf] at htotal
  rw [List.map_cons, List.sum_cons, ht]
  show _ + (e.sites.modify u.index _).total _ + _ + _ = _
  rw [show (e.modifySite u _).nodes = e.nodes from rfl]
  omega

theorem placed_adopt {record : NodeRecord} {new : Node} (hk : e.nodes.keys.Nodup)
    (hr : e.record? old = some record) (hn : e.record? new.id = none) (path : String)
    (rename : NodeId → NodeId) (hl : d'.lifted = d.lifted) :
    placed f ⟨e.adoptNode path rename new old, ts, d'⟩ = placed f ⟨e, ts, d⟩ := by
  obtain ⟨record', hinherits, he⟩ := Engine.adoptNode_eq hr path rename new
  have hnodes : (e.adoptNode path rename new old).nodes.tally (fun x => f x.2.effects.load) =
      e.nodes.tally fun x => f x.2.effects.load := by
    have hnone : (e.nodes.erase old).get? new.id = none := by
      rw [OrderedMap.get?_erase]
      split
      · rfl
      · exact hn
    rw [he]
    show ((e.nodes.erase old).insert new.id record').tally _ = _
    rw [OrderedMap.tally_insert_of_none hnone, OrderedMap.tally_eq hk hr, hinherits.effects]
    exact Nat.add_comm _ _
  have hsites : (e.adoptNode path rename new old).sites.total (fun x => f x.effects.load) =
      e.sites.total fun x => f x.effects.load := by
    refine Slots.total_congr fun i => ?_
    have hsite := Engine.site?_adoptNode hr path rename new ⟨i⟩
    rw [show (e.adoptNode path rename new old).sites.get? i = _ from hsite, Option.map_map]
    refine congrArg (fun g => Option.map g (e.site? ⟨i⟩)) (funext fun x => ?_)
    obtain ⟨diagnostics, hfx⟩ := Engine.relabel_iterate_effects x (record.sites.toList.count ⟨i⟩)
    show f (Effects.load _) = _
    rw [hfx]
    rfl
  unfold placed
  dsimp only
  rw [hnodes, hsites, hl]

inductive Carries : State → State → Prop where
  | keep {s s' : State} (hwanes : s.engine.Wanes s'.engine)
    (hplaced : ∀ f, f Load.none = 0 → placed f s' = placed f s)
    (hout : ∀ c, outs c s' = outs c s) : Carries s s'
  | sweep {e : Engine} {d : Progress} : Carries ⟨e, [], d⟩ ⟨e.reclaim.2, [], d.note .sweep⟩
  | installEdges {e : Engine} {ts : List Task} {d : Progress} {t : Task} :
    Carries ⟨e, t :: ts, d⟩ ⟨(Run.mk e t.effects).installEdges.engine,
      { t with effects := (Run.mk e t.effects).installEdges.effects } :: ts, d⟩
  | detach {e : Engine} {ts : List Task} {d : Progress} {t : Task} :
    Carries ⟨e, t :: ts, d⟩ ⟨e, { t with
      effects := t.effects.detach
      limbo := t.effects.installed.sites.values ++ t.limbo
      asks := t.effects.pending.sites.entries
      out := t.effects.installed.sites.values ++ t.out } :: ts, d⟩
  | placeSite {e : Engine} {ts : List Task} {d : Progress} {t : Task} (node : NodeId) (rule : Rule)
    (hplaced : ∀ f, f Load.none = 0 → placed f ⟨(e.placeSite node rule).2, { t with
      limbo := (e.placeSite node rule).1 :: t.limbo
      out := (e.placeSite node rule).1 :: t.out } :: ts, d⟩ = placed f ⟨e, t :: ts, d⟩) :
    Carries ⟨e, t :: ts, d⟩ ⟨(e.placeSite node rule).2, { t with
      limbo := (e.placeSite node rule).1 :: t.limbo
      out := (e.placeSite node rule).1 :: t.out } :: ts, d⟩
  | attach {e : Engine} {ts : List Task} {d : Progress} {t : Task} {sites : OrderedMap SiteKey
    SiteId}
    (hn : t.effects.installed.sites = {}) (hc : ∀ s, sites.values.count s ≤ t.out.count s)
    (hd : ∀ s ∈ t.out, s ∈ sites.values ∨ e.isLive s = false) :
    Carries ⟨e, t :: ts, d⟩ ⟨e, { t with effects := t.effects.attach sites, out := [] } :: ts, d⟩

theorem outs_drop {c : SiteId} (hout : t.out = []) : outs c ⟨e', ts, d'⟩ = outs c ⟨e, t :: ts, d⟩ :=
    by
  simp [outs, hout]

theorem Blank.ofWork (h : Blank ⟨e, t :: ts, d⟩) (hk : Kept ⟨e, t :: ts, d⟩)
    (hw : t.work.site? = some u) : ∃ x, e.site? u = some x ∧ x.effects.load = .none ∧
      x.effects.holdings = [] ∧ x.effects.pending = {} := by
  obtain ⟨x, hx⟩ := site?_of_fits (hk.sound.machine.filed.fits t.frame List.mem_cons_self) hw
  exact ⟨x, hx, h.slots u x hx (Or.inr ⟨t, List.mem_cons_self, hw⟩)⟩

theorem Move.carries (hm : Move s s') (hk : s.Kept) (hb : s.Blank) (hc : s'.Called) :
    Carries s s' := by
  obtain ⟨r, hr⟩ := hm.called hc
  have hhomed := hk.homed r hr
  have hrecords : s.engine.nodes.keys.Nodup := hk.keysDistinct.records
  have hnew : ({} : Effects).load = .none := rfl
  cases hm with
  | aside hq =>
    exact .keep (.of_sites hq.sites) (fun _ _ => placed_still hq.nodes hq.sites rfl) fun
      _ => rfl
  | newVertex | source | miss =>
    exact .keep (.of_sites rfl) (fun _ _ => placed_still rfl rfl rfl) fun _ => rfl
  | sweep => exact .sweep
  | @start e d n path span hl =>
    refine .keep (.of_sites rfl) (fun f hf => ?_) fun _ => rfl
    unfold placed
    dsimp only
    rw [OrderedMap.tally_insert_of_none (hk.start hc rfl), hnew, hf]
    rfl
  | annotate n ha =>
    exact .keep (.of_sites rfl) (fun _ _ => placed_modifyNode n ha.effects) fun
      _ => rfl
  | @ownVertex e ts d n label =>
    refine .keep (.of_sites rfl) (fun f _ => ?_) fun _ => rfl
    have hnew : placed f ⟨(e.newVertex label (some n)).2, ts, d⟩ = placed f ⟨e, ts, d⟩ :=
      placed_still rfl rfl rfl
    exact (placed_modifyNode n (g := fun x => { x with
      vertices := x.vertices ++ [(e.newVertex label (some n)).1] }) fun _ => rfl).trans hnew
  | @ownSource e ts d n t hn ht =>
    refine .keep (.of_sites rfl) (fun f _ => ?_) fun _ => rfl
    have hnew : placed f ⟨(e.newSource [t] (some n)).2, ts, d⟩ = placed f ⟨e, ts, d⟩ :=
      placed_still rfl rfl rfl
    exact (placed_modifyNode n (g := fun x => { x with
      vertices := x.vertices ++ [(e.newSource [t] (some n)).1] }) fun _ => rfl).trans hnew
  | @define e ts d n entry hn ht =>
    have hstock := Engine.SameStock.enter e (.node n) entry
    refine .keep (.of_sites hstock.sites) (fun f _ => ?_) fun _ => rfl
    have hnew : placed f ⟨e.enter (.node n) entry, ts, d⟩ = placed f ⟨e, ts, d⟩ :=
      placed_still hstock.nodes hstock.sites rfl
    exact (placed_modifyNode n (g := fun x => { x with
      registrations := x.registrations ++ [entry.registration] }) fun _ => rfl).trans hnew
  | @installBlock e ts d b rest returns ho =>
    refine .keep (.of_sites rfl) (fun f _ => ?_) fun _ => rfl
    have hnew : placed f ⟨(e.addBlock b).2, ts, d⟩ = placed f ⟨e, ts, d⟩ := placed_still rfl rfl rfl
    have hreturns : placed f ⟨(e.addBlock b).2.modifyNode b.node fun r => { r with returns }, ts,
      d⟩ =
        placed f ⟨(e.addBlock b).2, ts, d⟩ := placed_modifyNode b.node fun _ => rfl
    exact (placed_modifyNode b.node (g := fun r => { r with block := some (e.addBlock b).1 })
      fun _ => rfl).trans (hreturns.trans hnew)
  | @openNode e d n fx hl hn hx =>
    have hload : fx.load = .none := by
      unfold Effects.load
      rw [hx.fresh]
      rfl
    refine .keep (.of_sites rfl) (fun f hf => ?_) fun _ => rfl
    simp [placed, hload, hf]
  | @closeNode e d t n o rest ret nameSpan hw ho hn hp hout =>
    refine .keep (.of_sites rfl) (fun f hf => ?_) fun _ => outs_drop hout
    have hopens : d.Opens n := ⟨o, ho ▸ List.mem_cons_self, hn⟩
    obtain ⟨x, hx⟩ := (hhomed.keys n).1 (hhomed.mem_keys_of_opens (Roll.young_subset hr) hopens)
    have htally := OrderedMap.tally_modify (f := fun x => f x.2.effects.load) hrecords hx
      fun x => { x with ret, nameSpan, effects := t.effects }
    dsimp only at htally
    rw [hb.opened n hopens x hx, hf] at htally
    simp only [placed, Engine.modifyNode, List.map_cons, List.map_nil, List.sum_cons, List.sum_nil]
    omega
  | @adopt e d path rename new old hl =>
    obtain ⟨⟨record, hrecord⟩, hnone⟩ := hk.adopt hc rfl
    refine .keep (.adoptNode hrecord path rename new) (fun f _ => ?_) fun _ => rfl
    exact placed_adopt hrecords hrecord hnone path rename rfl
  | @lift e d n x hx hh hl ho =>
    refine .keep (.of_sites rfl) (fun f _ => ?_) fun _ => rfl
    have htally : e.nodes.tally (fun x => f x.2.effects.load) = f x.effects.load + _ :=
      OrderedMap.tally_eq hrecords hx
    simp only [placed, hl, Option.elim_some, Option.elim_none]
    omega
  | @openLifted e d n x hl hx =>
    refine .keep (.of_sites rfl) (fun f hf => ?_) fun _ => rfl
    have hload : x.effects.discard.load = x.effects.load := rfl
    simp [placed, hl, hload, hnew, hf]
  | @dropNode e d t n hw he hs hsites hout =>
    refine .keep (.of_sites rfl) (fun f hf => ?_) fun _ => outs_drop hout
    have hload : t.effects.load = .none := by
      unfold Effects.load
      rw [he, hsites]
      rfl
    simp [placed, hload, hf]
  | clearSite hl hs hd =>
    exact .keep (.of_sites rfl)
      (fun f _ => placed_of_stock rfl rfl rfl (by rw [hl]; rfl)) fun _ => rfl
  | @unregister e d n x regs reg hl hx =>
    have hstock := Engine.SameStock.unregister e (.node n) reg
    exact .keep (.of_sites hstock.sites) (fun f _ => placed_of_stock hstock.nodes hstock.sites rfl
      (by rw [hl]; rfl)) fun _ => rfl
  | @removeBlock e d n x hl =>
    rw [(Engine.exists_removeBlock_eq e x.block).choose_spec]
    exact .keep (.of_sites rfl) (fun f _ => placed_of_stock rfl rfl rfl (by rw [hl]; rfl)) fun _ =>
      rfl
  | @buryLifted e d n x v vs hl hh hv =>
    have hstock := Engine.SameStock.adoptGraph e (e.graph.destroy v)
    exact .keep (.of_sites hstock.sites) (fun f _ => placed_of_stock hstock.nodes hstock.sites rfl
      (by rw [hl]; rfl)) fun _ => rfl
  | @putDown e d n x hl he hs hx hblock hv =>
    refine .keep (.of_sites rfl) (fun f hf => placed_of_stock rfl rfl rfl ?_) fun _ => rfl
    rw [hl]
    show 0 = f x.effects.load
    rw [he, hnew, hf]
  | @beginRun e d u x queue hl hx hlive hq =>
    have hwanes := Engine.Wanes.modifySite e u (f := fun x => { x with effects := {} })
      fun _ => rfl
    exact .keep ⟨hwanes.size, hwanes.free, hwanes.lives⟩ (fun f hf => placed_takeOut hx hf
      Site.destroyed rfl) fun _ => rfl
  | endRun hw hp hout | breakRun hw hout =>
    obtain ⟨x, hx, hblank, -⟩ := hb.ofWork hk (congrArg Work.site? hw)
    exact .keep (.modifySite _ _ fun _ => rfl) (fun f hf => placed_putBack hx hblank hf rfl) fun
      _ => outs_drop hout
  | refuse | askEdge | askSite | reuse | freshVertex | freshSource | shed =>
    exact .keep (.of_sites rfl) (fun f _ => placed_of_stock rfl rfl rfl rfl) fun _ => rfl
  | @beginDestroy e ts d u x hx hlive hs =>
    refine .keep (.destroying hx) (fun f hf => ?_) fun c => by simp [outs]
    have hnodes : (e.destroying u x).engine.nodes.tally (fun x => f x.2.effects.load) =
        e.nodes.tally fun x => f x.2.effects.load := by
      rw [Engine.nodes_destroying]
      exact OrderedMap.tally_modify_same _ _ fun _ => rfl
    have htake : placed f ⟨e.modifySite u fun x => { x with effects := {}, destroyed := true },
        { work := .destroy u, effects := x.effects.discard } :: ts, d⟩ = placed f ⟨e, ts, d⟩ :=
      placed_takeOut hx hf (fun _ => true) rfl
    unfold placed at htake ⊢
    dsimp only at htake ⊢
    rw [hnodes, Engine.sites_destroying]
    exact htake
  | @endDestroy e ts d t u hw hfx hout =>
    obtain ⟨x, hx, hblank, -⟩ := hb.ofWork hk (congrArg Work.site? hw)
    have hwanes := Engine.Wanes.modifySite e u (f := fun x => { x with effects := t.effects })
      fun _ => rfl
    exact .keep ⟨hwanes.size, hwanes.free, hwanes.lives⟩ (fun f hf => placed_putBack hx hblank hf
      rfl) fun _ => outs_drop hout
  | @jot e ts d t fx hbeside =>
    have hload : fx.load = t.effects.load := Prod.ext hbeside.edges hbeside.sites
    exact .keep (.of_sites rfl) (fun f _ => placed_of_stock rfl rfl (by simp [hload]) rfl) fun _ =>
      rfl
  | @read _ _ _ _ dep | @note _ _ _ _ _ dep | @forget _ _ _ _ _ dep =>
    refine .keep (.of_sites rfl) (fun f _ => placed_of_stock rfl rfl ?_ rfl) fun _ => rfl
    cases dep <;> rfl
  | @bury e ts d v vs hh =>
    have hstock := Engine.SameStock.adoptGraph e (e.graph.destroy v)
    exact .keep (.of_sites hstock.sites) (fun f _ => placed_still hstock.nodes hstock.sites rfl) fun
      _ => rfl
  | installEdges => exact .installEdges
  | detach => exact .detach
  | attach hl hkeys hn hcount hd => exact .attach hn hcount hd
  | @placeSite e ts d t ask ha hknown =>
    refine .placeSite ask.2.1 ask.2.2 fun f hf => ?_
    have hfree : ∀ i ∈ e.sites.free, ∃ x, e.sites.get? i = some x ∧ f x.effects.load = 0 := by
      intro i hi
      obtain ⟨⟨x, hx, hgone⟩, -⟩ :=
        hk.sound.machine.filed.given_up i (List.mem_append_right _ hi)
      refine ⟨x, hx, ?_⟩
      rw [(hb.slots ⟨i⟩ x hx (Or.inl hgone)).1, hf]
    have hnodes : (e.placeSite ask.2.1 ask.2.2).2.nodes.tally (fun x => f x.2.effects.load) =
        e.nodes.tally fun x => f x.2.effects.load := by
      rw [Engine.nodes_placeSite]
      exact OrderedMap.tally_modify_same _ _ fun _ => rfl
    have hsites := Slots.total_alloc hfree { node := ask.2.1, rule := ask.2.2 }
    rw [show f (Effects.load {}) = 0 from hf, Nat.add_zero] at hsites
    unfold placed
    dsimp only
    rw [hnodes, Engine.sites_placeSite, hsites]
    rfl

theorem Kept.held_below {v : SiteId} (hk : Kept ⟨e, t :: ts, d⟩) (hw : t.work.site? = some u)
    (hv : ∃ t0 ∈ ts, t0.work.site? = some v) : v ≠ u := by
  obtain ⟨t0, hmem, hv⟩ := hv
  rintro rfl
  obtain ⟨age, haged⟩ := hk.sound.machine.filed.aged
  exact haged.unheld_top hw t0.frame (List.mem_map_of_mem hmem) hv

theorem Kept.idle_endRun (hk : Kept ⟨e, t :: ts, d⟩) (hw : t.work = .run u)
    (hx : e.site? u = some x) : x.destroyed = false ∧ ¬Busy ⟨e', ts, d'⟩ u := by
  have hfit := hk.sound.machine.filed.fits t.frame (.head _)
  unfold Fits at hfit
  rw [show t.frame.work = .run u from hw] at hfit
  obtain ⟨y, hy, hlive⟩ := hfit
  cases hx.symm.trans hy
  exact ⟨hlive, fun hbusy => hk.held_below (congrArg Work.site? hw) hbusy rfl⟩

theorem Blank.move (h : s.Blank) (hm : Move s s') (hk : s.Kept) (hc : s'.Called) : s'.Blank where
  slots u x hx hgone := by
    rcases hm.slot hx with ⟨y, diagnostics, hy, hlife, hfx⟩ | hfx | ⟨t, ht, -, hw, y, hy, hlife⟩
    · rcases hgone.imp_right hm.busy with hd | hbusy | hempty
      · exact hfx ▸ h.slots u y hy (.inl (hlife ▸ hd))
      · exact hfx ▸ h.slots u y hy (.inr hbusy)
      · exact hempty x hx ▸ ⟨rfl, rfl, rfl⟩
    · exact hfx ▸ ⟨rfl, rfl, rfl⟩
    · obtain ⟨e, ts, d⟩ := s
      cases ht
      obtain ⟨hlive, hidle⟩ := hk.idle_endRun hw hy
      exact absurd hgone (not_or.2 ⟨by rw [hlife, hlive]; exact Bool.false_ne_true, hidle⟩)
  opened n hopens r hr := by
    obtain ⟨roll, hroll⟩ := hm.called hc
    have hhomed := hk.homed roll hroll
    rcases hm.record hr with ⟨r0, hr0, hfx⟩ | hfx | ⟨t, o, -, ho, rfl, -⟩ | ⟨old, r0, hlog, -, -⟩
    · rw [hfx]
      rcases hm.opens hopens with hold | hnew
      · exact h.opened n hold r0 hr0
      · cases hr0.symm.trans (hk.start hc hnew)
    · rw [hfx]
      rfl
    · -- what is filed is not among the records that are still being written
      have honce := hhomed.once
      rw [ho, List.map_cons, List.nodup_cons] at honce
      exact absurd (List.mem_map.2 hopens) honce.1
    · rcases hm.opens hopens with ⟨o, hmem, rfl⟩ | hnew
      · obtain ⟨r1, hr1⟩ := (hhomed.keys _).1 (Roll.young_subset hroll (hhomed.opened o hmem).1)
        cases hr1.symm.trans (hk.adopt hc hlog).2
      · cases List.append_cancel_left (hlog.symm.trans hnew)

end State

end TypeFlow
