import TypeFlow.Proofs.Grounded
import TypeFlow.Proofs.Origins

/-!
# Every private vertex has one holder

Vertices are destroyed when the record, the effects or the hand that lists them gives them up. No
step lists a vertex twice: counted over all records, effects and hands, only the vertex that a step
creates gains a place. For this, no table may have two entries under one key.
-/

set_option autoImplicit false

namespace TypeFlow

namespace OrderedMap

variable {κ α : Type}

def tally (m : OrderedMap κ α) (f : κ × α → Nat) : Nat := (m.entries.map f).sum

variable [DecidableEq κ] {m : OrderedMap κ α} {f : κ × α → Nat} {k : κ}

theorem tally_modify_le {g : α → α} {c : Nat} (hn : m.keys.Nodup)
    (hg : ∀ a, f (k, g a) ≤ f (k, a) + c) : (m.modify k g).tally f ≤ m.tally f + c := by
  obtain ⟨es⟩ := m
  unfold tally modify
  unfold keys at hn
  dsimp only at hn ⊢
  induction es with
  | nil => exact Nat.zero_le _
  | cons e es ih =>
    rw [List.map_cons, List.nodup_cons] at hn
    by_cases he : e.1 = k
    · have hrest : es.map (fun e => if e.1 = k then (e.1, g e.2) else e) = es := by
        refine (List.map_congr_left fun x hx => if_neg fun hk => hn.1 ?_).trans (List.map_id _)
        rw [he, ← hk]
        exact List.mem_map_of_mem hx
      have hone := hg e.2
      rw [List.map_cons, if_pos he, hrest, List.map_cons, List.sum_cons, List.map_cons,
        List.sum_cons, he]
      have heq : f e = f (k, e.2) := by rw [← he]
      omega
    · have := ih hn.2
      rw [List.map_cons, if_neg he, List.map_cons, List.sum_cons, List.map_cons, List.sum_cons]
      omega

theorem tally_insert_le (hn : m.keys.Nodup) (a : α) :
    (m.insert k a).tally f ≤ m.tally f + f (k, a) := by
  unfold insert
  split
  · exact tally_modify_le hn fun _ => Nat.le_add_left _ _
  · simp [tally]

theorem tally_erase {a : α} (h : m.get? k = some a) :
    (m.erase k).tally f + f (k, a) ≤ m.tally f := by
  obtain ⟨es⟩ := m
  unfold tally erase
  unfold get? at h
  dsimp only at h ⊢
  have hsub : ∀ es : List (κ × α), ((es.filter fun e => !decide (e.1 = k)).map f).sum ≤
      (es.map f).sum := by
    intro es
    induction es with
    | nil => exact Nat.le_refl _
    | cons e es ih =>
      rw [List.filter_cons]
      split <;> simp only [List.map_cons, List.sum_cons] <;> omega
  induction es with
  | nil => exact absurd h (Option.some_ne_none _).symm
  | cons e es ih =>
    by_cases he : e.1 = k
    · have hval : a = e.2 := by simpa [he] using h.symm
      have heq : f e = f (k, a) := by rw [hval, ← he]
      have := hsub es
      rw [List.filter_cons_of_neg (by simp [he]), List.map_cons, List.sum_cons]
      omega
    · have := ih (by simpa [he] using h)
      rw [List.filter_cons_of_pos (by simp [he]), List.map_cons, List.sum_cons, List.map_cons,
        List.sum_cons]
      omega

end OrderedMap

namespace Slots

variable {α : Type} {s : Slots α} {f : α → Nat}

theorem total_modify_le {i : Nat} {g : α → α} {c : Nat} (hg : ∀ a, f (g a) ≤ f a + c) :
    (s.modify i g).total f ≤ s.total f + c := by
  cases ha : s.get? i with
  | some a =>
    have := total_modify ha g f
    have := hg a
    omega
  | none =>
    have hsame : s.slots.modify i g = s.slots := by
      refine Array.ext_getElem? fun j => ?_
      rw [Array.getElem?_modify]
      split
      · next hj =>
        subst hj
        rw [show s.slots[i]? = none from ha]
        rfl
      · rfl
    unfold total modify
    rw [hsame]
    exact Nat.le_add_right _ _

theorem total_alloc_le (a : α) : (s.alloc a).2.total f ≤ s.total f + f a := by
  unfold alloc
  cases s.free with
  | nil => simp [total]
  | cons i rest => exact total_modify_le (s := s) (i := i) fun _ => Nat.le_add_left _ _

end Slots

namespace Effects

structure Keyed (fx : Effects) : Prop where
  installed : fx.installed.scratch.keys.Nodup
  pending : fx.pending.scratch.keys.Nodup

theorem keyed_empty : ({} : Effects).Keyed := ⟨List.nodup_nil, List.nodup_nil⟩

variable {fx : Effects} {v : VertexId}

theorem keyed_of_bare (h : fx.holdings = []) : fx.Keyed := by
  obtain ⟨hi, hp⟩ := holdings_eq_nil.1 h
  exact ⟨hi ▸ List.nodup_nil, hp ▸ List.nodup_nil⟩

theorem count_filter_eq (es : List (ScratchKey × VertexId)) {p : ScratchKey × VertexId → Bool} :
    ((es.filter p).map Prod.snd).count v =
      (es.map fun x => if p x = true ∧ x.2 = v then 1 else 0).sum := by
  induction es with
  | nil => rfl
  | cons e es ih =>
    rw [List.map_cons, List.sum_cons, ← ih, List.filter_cons]
    by_cases hp : p e = true
    · rw [if_pos hp, List.map_cons, List.count_cons]
      by_cases hv : e.2 = v
      · simp [hp, hv, Nat.add_comm]
      · simp [hv]
    · simp [hp]

theorem count_holdings (fx : Effects) (v : VertexId) : fx.holdings.count v =
    (fx.installed.scratch.tally fun x => if x.2 = v then 1 else 0) +
      fx.pending.scratch.tally fun x =>
        if ¬fx.installed.scratch.get? x.1 = some x.2 ∧ x.2 = v then 1 else 0 := by
  unfold holdings OrderedMap.tally
  rw [List.count_append, count_filter_eq]
  congr 1
  · have hall := count_filter_eq fx.installed.scratch.entries (p := fun _ => true) (v := v)
    simpa [OrderedMap.values] using hall
  · simp

theorem count_holdings_discard_le : fx.discard.holdings.count v ≤ fx.holdings.count v := by
  rw [count_holdings, count_holdings]
  exact Nat.add_le_add_left (Nat.zero_le _) _

theorem count_addScratch_le (h : fx.Keyed) (key : ScratchKey) (u : VertexId) :
    (fx.addScratch key u).holdings.count v ≤ fx.holdings.count v +
      if ¬fx.installed.scratch.get? key = some u ∧ u = v then 1 else 0 := by
  rw [count_holdings, count_holdings, Nat.add_assoc]
  exact Nat.add_le_add_left (OrderedMap.tally_insert_le h.pending u) _

theorem Keyed.addScratch (h : fx.Keyed) (key : ScratchKey) (u : VertexId) :
    (fx.addScratch key u).Keyed :=
  ⟨h.installed, OrderedMap.nodup_keys_insert key u h.pending⟩

theorem shared_le {P I : OrderedMap ScratchKey VertexId} (hP : P.keys.Nodup) :
    (P.tally fun x => if I.get? x.1 = some x.2 ∧ x.2 = v then 1 else 0) ≤
      I.tally fun x => if P.get? x.1 = some x.2 ∧ x.2 = v then 1 else 0 := by
  have hlength : ∀ (es : List (ScratchKey × VertexId)) (q : ScratchKey × VertexId → Prop)
      [DecidablePred q], (es.map fun x => if q x then 1 else 0).sum =
        (es.filter fun x => decide (q x)).length := by
    intro es q _
    induction es with
    | nil => rfl
    | cons e es ih =>
      rw [List.map_cons, List.sum_cons, ih, List.filter_cons]
      by_cases he : q e
      · simp [he, Nat.add_comm]
      · simp [he]
  unfold OrderedMap.tally
  rw [hlength, hlength]
  have hnodup : P.entries.Nodup := List.Nodup.of_map Prod.fst hP
  refine (List.subperm_of_subset (hnodup.filter _) fun x hx => ?_).length_le
  obtain ⟨hmem, hq⟩ := List.mem_filter.1 hx
  obtain ⟨hI, hv⟩ := of_decide_eq_true hq
  refine List.mem_filter.2 ⟨OrderedMap.mem_entries_of_get? hI, decide_eq_true ⟨?_, hv⟩⟩
  exact OrderedMap.get?_of_mem_entries hP hmem

theorem tally_split {P : OrderedMap ScratchKey VertexId} (q : ScratchKey × VertexId → Prop)
    [DecidablePred q] : (P.tally fun x => if x.2 = v then 1 else 0) =
      (P.tally fun x => if q x ∧ x.2 = v then 1 else 0) +
        P.tally fun x => if ¬q x ∧ x.2 = v then 1 else 0 := by
  unfold OrderedMap.tally
  induction P.entries with
  | nil => rfl
  | cons e es ih =>
    simp only [List.map_cons, List.sum_cons, ih]
    by_cases hq : q e <;> by_cases hv : e.2 = v <;> simp [hq, hv] <;> omega

theorem count_shed (h : fx.Keyed) :
    fx.shed.holdings.count v + fx.stale.count v = fx.holdings.count v := by
  have hshed : fx.shed.holdings.count v =
      fx.pending.scratch.tally fun x => if x.2 = v then 1 else 0 := by
    rw [count_holdings]
    rfl
  have hstale : fx.stale.count v = fx.installed.scratch.tally fun x =>
      if ¬fx.pending.scratch.get? x.1 = some x.2 ∧ x.2 = v then 1 else 0 := by
    unfold stale OrderedMap.tally
    rw [count_filter_eq]
    simp
  have hboth := Nat.le_antisymm (shared_le (v := v) (I := fx.installed.scratch) h.pending)
    (shared_le (v := v) (I := fx.pending.scratch) h.installed)
  have hold := tally_split (v := v) (P := fx.installed.scratch)
    fun x => fx.pending.scratch.get? x.1 = some x.2
  have hnew := tally_split (v := v) (P := fx.pending.scratch)
    fun x => fx.installed.scratch.get? x.1 = some x.2
  rw [hshed, hstale, count_holdings]
  omega

theorem Keyed.shed (h : fx.Keyed) : fx.shed.Keyed := ⟨h.pending, List.nodup_nil⟩

end Effects

theorem Graph.Settled.decorate {g : Graph} {born : VertexId → List Ty} (h : g.Settled born)
    (v : VertexId) {f : Vertex → Vertex} (hf : Vertex.Decorates f) :
    (g.modify v f).Settled born := by
  have hget (u : VertexId) :
      (g.modify v f).get u = g.get u ∨ (g.modify v f).get u = f (g.get u) := by
    rw [Graph.get_modify]
    split
    · exact Or.inr rfl
    · exact Or.inl rfl
  have hsame : ∀ u, ((g.modify v f).get u).types = (g.get u).types ∧
      ((g.modify v f).get u).next = (g.get u).next ∧
      ((g.modify v f).get u).incoming = (g.get u).incoming ∧
      ((g.modify v f).get u).alive = (g.get u).alive := fun u => by
    rcases hget u with he | he
    · rw [he]
      exact ⟨rfl, rfl, rfl, rfl⟩
    · obtain ⟨h1, h2, h3, -, h5⟩ := hf (g.get u)
      rw [he]
      exact ⟨h1, h2, h3, h5⟩
  refine h.similar (.modify g v f) (fun u => ?_) (fun u => (hsame u).1)
    (fun u => congrArg OrderedMap.keys (hsame u).2.1) (fun u => (hsame u).2.2.2)
    fun u => (hsame u).2.2.1
  exact (h.tidy u).of_eq (hsame u).1 (hsame u).2.1

namespace Machine

section Records

variable (n : NodeId) (v : VertexId)
variable {nodes : OrderedMap NodeId NodeRecord}

def listed (nodes : OrderedMap NodeId NodeRecord) (v : VertexId) : Nat :=
  nodes.tally fun x => x.2.vertices.count v

theorem listed_modify_le (hn : nodes.keys.Nodup)
    {f : NodeRecord → NodeRecord} {c : Nat}
    (hf : ∀ x, (f x).vertices.count v ≤ x.vertices.count v + c) :
    listed (nodes.modify n f) v ≤ listed nodes v + c :=
  OrderedMap.tally_modify_le hn hf

theorem listed_insert_le (hn : nodes.keys.Nodup)
    (r : NodeRecord) : listed (nodes.insert n r) v ≤ listed nodes v + r.vertices.count v :=
  OrderedMap.tally_insert_le hn r

theorem listed_erase {r : NodeRecord}
    (h : nodes.get? n = some r) :
    listed (nodes.erase n) v + r.vertices.count v ≤ listed nodes v :=
  OrderedMap.tally_erase (f := fun x => x.2.vertices.count v) h

def stored (sites : Slots Site) (v : VertexId) : Nat :=
  sites.total fun x => x.effects.holdings.count v

theorem stored_put_le (sites : Slots Site) (s : SiteId) (fx : Effects) (b : Site → Bool) :
    stored (sites.modify s.index fun x => { x with effects := fx, destroyed := b x }) v ≤
      stored sites v + fx.holdings.count v :=
  Slots.total_modify_le fun _ => Nat.le_add_left _ _

theorem stored_take {sites : Slots Site} {s : SiteId} {x : Site}
    (hx : sites.get? s.index = some x) (b : Site → Bool) :
    stored (sites.modify s.index fun x => { x with effects := {}, destroyed := b x }) v +
      x.effects.holdings.count v = stored sites v :=
  Slots.total_modify hx (fun x => { x with effects := {}, destroyed := b x })
    fun x => x.effects.holdings.count v

end Records

def held (m : Machine) (v : VertexId) : Nat :=
  listed m.engine.nodes v + stored m.engine.sites v +
    (m.frames.map fun f => f.effects.holdings.count v).sum + m.hand.count v

structure KeysDistinct (m : Machine) : Prop where
  records : m.engine.nodes.keys.Nodup
  slots : ∀ s x, m.engine.site? s = some x → x.effects.Keyed
  frames : ∀ f ∈ m.frames, f.effects.Keyed

inductive PlaceChange (m m' : Machine) : Prop where
  | flow (hsettled : ∀ born, m.engine.graph.Settled born → m'.engine.graph.Settled born)
    (hlife : Graph.SameLife m.engine.graph m'.engine.graph) (hheld : ∀ v, m'.held v ≤ m.held v)
  | create (x : Vertex) (types : List Ty) (halive : x.alive = true)
    (hgraph : m'.engine.graph = (m.engine.graph.alloc x).2)
    (hsettled : ∀ born, m.engine.graph.Settled born →
      m'.engine.graph.Settled (Function.update born (m.engine.graph.alloc x).1 types))
    (hheld : ∀ v, m'.held v ≤ m.held v + if (m.engine.graph.alloc x).1 = v then 1 else 0)
  | share (types : List Ty) (hgraph : m'.engine.graph = (m.engine.graph.source types).2)
    (hheld : ∀ v, m'.held v ≤ m.held v)
  | bury (v : VertexId) (hgraph : m'.engine.graph = (m.engine.graph.destroy v).graph)
    (hheld : ∀ u, m'.held u + (if v = u then 1 else 0) ≤ m.held u)

variable {e e' : Engine} {fs : List Frame} {hand : List VertexId}

theorem PlaceChange.still {m m' : Machine} (hg : m'.engine.graph = m.engine.graph)
    (hheld : ∀ v, m'.held v ≤ m.held v) : PlaceChange m m' :=
  .flow (fun _ h => hg ▸ h) (hg ▸ Graph.SameLife.refl _) hheld

theorem PlaceChange.top {f f' : Frame} {hand' : List VertexId} (hg : e'.graph = e.graph)
    (hn : e'.nodes = e.nodes) (hs : e'.sites = e.sites)
    (h : ∀ v, f'.effects.holdings.count v + hand'.count v ≤
      f.effects.holdings.count v + hand.count v) :
    PlaceChange ⟨e, f :: fs, hand⟩ ⟨e', f' :: fs, hand'⟩ := by
  refine PlaceChange.still hg fun v => ?_
  have := h v
  simp only [held, hn, hs, List.map_cons, List.sum_cons]
  omega

theorem held_congr (hn : e'.nodes = e.nodes) (hs : e'.sites = e.sites) (v : VertexId) :
    (Machine.mk e' fs hand).held v = (Machine.mk e fs hand).held v := by
  simp only [held, hn, hs]

theorem PlaceChange.own (h : (Machine.mk e fs hand).KeysDistinct) (n : NodeId) {x : Vertex}
    (types : List Ty)
    (halive : x.alive = true) (hsettled : ∀ born, e.graph.Settled born →
      (e.graph.alloc x).2.Settled (Function.update born (e.graph.alloc x).1 types)) :
    PlaceChange ⟨e, fs, hand⟩ ⟨{ e with graph := (e.graph.alloc x).2 }.modifyNode n fun r =>
      { r with vertices := r.vertices ++ [(e.graph.alloc x).1] }, fs, hand⟩ := by
  refine PlaceChange.create x types halive rfl hsettled fun v => ?_
  have hlisted := listed_modify_le n v h.records
    (f := fun r => { r with vertices := r.vertices ++ [(e.graph.alloc x).1] })
    (c := if (e.graph.alloc x).1 = v then 1 else 0) fun r => by
      rw [List.count_append, List.count_singleton]
      simp
  unfold held
  simp only [Engine.modifyNode] at hlisted ⊢
  omega

theorem PlaceChange.fresh {s : SiteId} {fx : Effects} {limbo : List SiteId} (hkeyed : fx.Keyed)
    (key : ScratchKey) {x : Vertex} (types : List Ty) (halive : x.alive = true)
    (hsettled : ∀ born, e.graph.Settled born →
      (e.graph.alloc x).2.Settled (Function.update born (e.graph.alloc x).1 types)) :
    PlaceChange ⟨e, ⟨.run s, fx, limbo⟩ :: fs, hand⟩ ⟨{ e with graph := (e.graph.alloc x).2 },
      ⟨.run s, fx.addScratch key (e.graph.alloc x).1, limbo⟩ :: fs, hand⟩ := by
  refine PlaceChange.create x types halive rfl hsettled fun v => ?_
  have hcount := Effects.count_addScratch_le (v := v) hkeyed key (e.graph.alloc x).1
  have hone : (if ¬fx.installed.scratch.get? key = some (e.graph.alloc x).1 ∧
      (e.graph.alloc x).1 = v then 1 else 0) ≤ if (e.graph.alloc x).1 = v then 1 else 0 := by
    by_cases hv : (e.graph.alloc x).1 = v
    · rw [if_pos hv]
      split <;> omega
    · simp [hv]
  unfold held
  simp only [List.map_cons, List.sum_cons]
  omega

theorem PlaceChange.putBack {f : Frame} (s : SiteId) {sites : Slots Site} {b : Site → Bool}
    (hslots : sites.slots = (e.sites.modify s.index fun x =>
      { x with effects := f.effects, destroyed := b x }).slots) :
    PlaceChange ⟨e, f :: fs, hand⟩ ⟨{ e with sites }, fs, hand⟩ := by
  refine PlaceChange.still rfl fun v => ?_
  have hput := stored_put_le v e.sites s f.effects b
  have hsame : stored sites v = stored (e.sites.modify s.index fun x =>
      { x with effects := f.effects, destroyed := b x }) v := by
    unfold stored Slots.total
    rw [hslots]
  simp only [held, List.map_cons, List.sum_cons]
  omega

theorem PlaceChange.takeOut {s : SiteId} {x : Site} (hx : e.site? s = some x) (b : Site → Bool)
    (w : Work) :
    PlaceChange ⟨e, fs, hand⟩ ⟨e.modifySite s fun x => { x with effects := {}, destroyed := b x },
      ⟨w, x.effects.discard, []⟩ :: fs, hand⟩ := by
  refine PlaceChange.still rfl fun v => ?_
  have htake := stored_take v hx b
  have hdiscard : x.effects.discard.holdings.count v ≤ x.effects.holdings.count v :=
    Effects.count_holdings_discard_le
  simp only [held, Engine.modifySite, List.map_cons, List.sum_cons] at htake ⊢
  omega

variable {m m' : Machine}

/-- Only creation gives a vertex a new place, and what is buried had one. -/
theorem Step.placeChange (hs : Step m m') (h : m.KeysDistinct) : PlaceChange m m' := by
  cases hs with
  | aside ha =>
    exact PlaceChange.still ha.graph fun v => Nat.le_of_eq (held_congr ha.nodes ha.sites
      v)
  | newVertex label node =>
    exact PlaceChange.create { label, node } [] rfl rfl (fun _ h => h.newVertex label node)
      fun v => Nat.le_add_right _ _
  | source ht => exact PlaceChange.share _ rfl fun v => Nat.le_refl _
  | @addEdge e _ _ src dst =>
    obtain ⟨q, hq⟩ := e.exists_adoptGraph_eq (e.graph.addEdge src dst).2
    rw [show (e.addEdge src dst).2 = _ from hq]
    exact PlaceChange.flow (fun _ h => h.addEdge src dst) (Graph.sameLife_addEdge _ src dst)
      fun v => Nat.le_refl _
  | @removeEdge e _ _ src dst =>
    obtain ⟨q, hq⟩ := e.exists_adoptGraph_eq (e.graph.removeEdge src dst).2
    rw [show (e.removeEdge src dst).2 = _ from hq]
    exact PlaceChange.flow (fun _ h => h.removeEdge src dst) (Graph.sameLife_removeEdge _ src dst)
      fun v => Nat.le_refl _
  | decorate v hf =>
    exact PlaceChange.flow (fun _ h => h.decorate v hf)
      (Graph.SameLife.modify _ v fun x => (hf x).2.2.2.2) fun v => Nat.le_refl _
  | reclaim =>
    unfold Engine.reclaim
    split
    · exact PlaceChange.flow (fun _ h => h.reclaim) ⟨rfl, fun _ => rfl⟩ fun v => Nat.le_refl _
    · exact PlaceChange.still rfl fun v => Nat.le_refl _
  | @bury e _ v _ =>
    obtain ⟨q, hq⟩ := e.exists_adoptGraph_eq (e.graph.destroy v)
    rw [show e.destroyVertex v = _ from hq]
    refine PlaceChange.bury v rfl fun u => ?_
    simp only [held, List.count_cons]
    by_cases hu : v = u
    · simp [hu]
    · simp [hu]
  | abandon =>
    refine PlaceChange.still rfl fun v => ?_
    simp only [held, List.count_nil]
    omega
  | beginNode n path span =>
    refine PlaceChange.still rfl fun v => ?_
    have := listed_insert_le n v h.records { path, span }
    simp only [held, List.count_nil] at this ⊢
    omega
  | editNode n hv he =>
    refine PlaceChange.still rfl fun v => ?_
    have := listed_modify_le n v h.records (c := 0) fun x =>
      Nat.le_of_eq (by rw [hv x, Nat.add_zero])
    simp only [held, Engine.modifyNode] at this ⊢
    omega
  | ownVertex n label =>
    exact PlaceChange.own h n [] rfl fun _ h => h.newVertex label (some n)
  | ownSource n ht =>
    exact PlaceChange.own h n _ rfl fun _ h => h.newSource _ (some n)
  | lift hr =>
    refine PlaceChange.still rfl fun v => ?_
    have := listed_erase _ v hr
    simp only [held, List.count_append]
    omega
  | @place _ _ _ r n hr =>
    refine PlaceChange.still rfl fun v => ?_
    have := listed_insert_le n v h.records r
    simp only [held, List.count_append] at this ⊢
    omega
  | @enterSite e _ _ _ node rule hr =>
    refine PlaceChange.still rfl fun v => ?_
    have : stored (e.sites.alloc { node, rule }).2 v ≤ stored e.sites v + 0 :=
      Slots.total_alloc_le (f := fun x : Site => x.effects.holdings.count v) { node, rule }
    simp only [held, List.map_cons, List.sum_cons]
    omega
  | @relabelSite e _ _ s n rename =>
    refine PlaceChange.still rfl fun v => ?_
    have : stored (e.modifySite s fun x =>
        { x with node := n, effects := x.effects.renameNodes rename }).sites v ≤
          stored e.sites v + 0 :=
      Slots.total_modify_le fun x => Nat.le_refl _
    simp only [held, Engine.modifySite] at this ⊢
    omega
  | beginRun hx hlive => exact PlaceChange.takeOut hx Site.destroyed _
  | endRun | endDestroy => exact PlaceChange.putBack _ (b := Site.destroyed) rfl
  | beginDestroy hx hlive hs => exact PlaceChange.takeOut hx (fun _ => true) _
  | openNode n hasked hreads hscratch =>
    refine PlaceChange.still rfl fun v => ?_
    simp [held, hscratch]
  | @closeNode _ _ _ n fx _ ret nameSpan =>
    refine PlaceChange.still rfl fun v => ?_
    have := listed_modify_le n v h.records (c := 0)
      (f := fun x => { x with ret, nameSpan, effects := fx }) fun x => Nat.le_refl _
    simp only [held, Engine.modifyNode, List.map_cons, List.sum_cons] at this ⊢
    omega
  | dropNode =>
    refine PlaceChange.still rfl fun v => ?_
    simp only [held, List.map_cons, List.sum_cons]
    omega
  | stage ha => exact PlaceChange.top rfl rfl rfl fun v => by rw [ha.holdings]
  | askSite | detach | attach => exact PlaceChange.top rfl rfl rfl fun v => Nat.le_refl _
  | @read _ _ _ _ d | @note _ _ _ _ _ d | @forget _ _ _ _ _ d =>
    refine PlaceChange.top rfl rfl rfl fun v => ?_
    cases d <;> exact Nat.le_refl _
  | @reuse _ _ _ _ key u hk =>
    refine PlaceChange.top rfl rfl rfl fun v => ?_
    have := Effects.count_addScratch_le (v := v) (h.frames _ List.mem_cons_self) key u
    rw [if_neg fun hc => hc.1 hk] at this
    exact Nat.add_le_add_right this _
  | freshVertex key label =>
    exact PlaceChange.fresh (h.frames _ List.mem_cons_self) key [] rfl fun _ h => h.newVertex label
      none
  | freshSource key ht =>
    exact PlaceChange.fresh (h.frames _ List.mem_cons_self) key _ rfl fun _ h => h.newSource _ none
  | shed =>
    refine PlaceChange.top rfl rfl rfl fun v => ?_
    have := Effects.count_shed (v := v) (h.frames _ List.mem_cons_self)
    rw [List.count_append]
    dsimp only
    omega

theorem KeysDistinct.still (h : m.KeysDistinct) (hn : m'.engine.nodes = m.engine.nodes)
    (hs : m'.engine.sites = m.engine.sites) (hf : m'.frames = m.frames) : m'.KeysDistinct := by
  refine ⟨hn ▸ h.records, fun s x hx => h.slots s x ?_, hf ▸ h.frames⟩
  unfold Engine.site? at hx ⊢
  rwa [hs] at hx

theorem KeysDistinct.top {f f' : Frame} {hand' : List VertexId}
    (h : (Machine.mk e (f :: fs) hand).KeysDistinct) (hn : e'.nodes = e.nodes) (hs : e'.sites =
      e.sites)
    (hf : f.effects.Keyed → f'.effects.Keyed) : (Machine.mk e' (f' :: fs) hand').KeysDistinct := by
  obtain ⟨htop, hrest⟩ := List.forall_mem_cons.1 h.frames
  refine ⟨hn ▸ h.records, fun s x hx => h.slots s x ?_, List.forall_mem_cons.2 ⟨hf htop, hrest⟩⟩
  unfold Engine.site? at hx ⊢
  rwa [hs] at hx

theorem nodup_keys_modify {nodes : OrderedMap NodeId NodeRecord} (n : NodeId)
    {f : NodeRecord → NodeRecord} (h : nodes.keys.Nodup) : (nodes.modify n f).keys.Nodup := by
  rw [OrderedMap.keys_modify]
  exact h

theorem KeysDistinct.records_of (h : (Machine.mk e fs hand).KeysDistinct) {hand' : List VertexId}
    {nodes : OrderedMap NodeId NodeRecord} (hn : nodes.keys.Nodup) :
    (Machine.mk { e with nodes } fs hand').KeysDistinct :=
  ⟨hn, h.slots, h.frames⟩

theorem KeysDistinct.modifySite (h : (Machine.mk e fs hand).KeysDistinct) (s : SiteId) {f : Site →
    Site}
    (hf : ∀ x, x.effects.Keyed → (f x).effects.Keyed) :
    ∀ t x, (e.modifySite s f).site? t = some x → x.effects.Keyed := by
  intro t x hx
  rw [Engine.site?_modifySite] at hx
  split at hx
  · obtain ⟨y, hy, rfl⟩ := Option.map_eq_some_iff.1 hx
    exact hf y (h.slots t y hy)
  · exact h.slots t x hx

theorem KeysDistinct.step (h : m.KeysDistinct) (hs : Step m m') : m'.KeysDistinct := by
  cases hs with
  | aside ha => exact h.still ha.nodes ha.sites rfl
  | newVertex | source | decorate | abandon => exact h.still rfl rfl rfl
  | @addEdge e _ _ src dst =>
    obtain ⟨q, hq⟩ := e.exists_adoptGraph_eq (e.graph.addEdge src dst).2
    rw [show (e.addEdge src dst).2 = _ from hq]
    exact h.still rfl rfl rfl
  | @removeEdge e _ _ src dst =>
    obtain ⟨q, hq⟩ := e.exists_adoptGraph_eq (e.graph.removeEdge src dst).2
    rw [show (e.removeEdge src dst).2 = _ from hq]
    exact h.still rfl rfl rfl
  | reclaim =>
    unfold Engine.reclaim
    split
    · exact ⟨h.records, h.slots, h.frames⟩
    · exact h
  | @bury e _ v _ =>
    obtain ⟨q, hq⟩ := e.exists_adoptGraph_eq (e.graph.destroy v)
    rw [show e.destroyVertex v = _ from hq]
    exact h.still rfl rfl rfl
  | beginNode n | place n => exact h.records_of (OrderedMap.nodup_keys_insert n _ h.records)
  | editNode n hv he => exact h.records_of (nodup_keys_modify n h.records)
  | ownVertex n | ownSource n => exact ⟨nodup_keys_modify n h.records, h.slots, h.frames⟩
  | lift hr => exact h.records_of (OrderedMap.nodup_keys_erase _ h.records)
  | @enterSite e _ _ _ node rule hr =>
    refine ⟨h.records, fun s x hx => ?_, List.forall_mem_cons.2 (List.forall_mem_cons.1 h.frames)⟩
    rcases Slots.get?_alloc_eq_or e.sites { node, rule } s.index with hnew | hold
    · rw [← Option.some.inj (hnew.symm.trans hx)]
      exact Effects.keyed_empty
    · exact h.slots s x (hold.symm.trans hx)
  | relabelSite s n rename =>
    exact ⟨h.records, h.modifySite s fun x hx => ⟨hx.installed, hx.pending⟩, h.frames⟩
  | @beginRun e _ s x hx | @beginDestroy e fs _ s x hx =>
    refine ⟨h.records, h.modifySite s fun _ _ => Effects.keyed_empty, ?_⟩
    exact List.forall_mem_cons.2 ⟨⟨(h.slots s x hx).installed, List.nodup_nil⟩, h.frames⟩
  | @endRun e fs _ s | @endDestroy e fs _ s =>
    obtain ⟨htop, hrest⟩ := List.forall_mem_cons.1 h.frames
    exact ⟨h.records, h.modifySite s fun _ _ => htop, hrest⟩
  | openNode n hasked hreads hscratch =>
    exact ⟨h.records, h.slots, List.forall_mem_cons.2 ⟨Effects.keyed_of_bare hscratch, h.frames⟩⟩
  | @closeNode _ _ _ n _ _ ret nameSpan =>
    exact ⟨nodup_keys_modify n h.records, h.slots, (List.forall_mem_cons.1 h.frames).2⟩
  | dropNode => exact ⟨h.records, h.slots, (List.forall_mem_cons.1 h.frames).2⟩
  | stage ha =>
    exact h.top rfl rfl fun hk => ⟨ha.scratch ▸ hk.installed, ha.askedScratch ▸ hk.pending⟩
  | askSite | detach | attach => exact h.top rfl rfl fun hk => ⟨hk.installed, hk.pending⟩
  | @read _ _ _ _ d | @note _ _ _ _ _ d | @forget _ _ _ _ _ d =>
    refine h.top rfl rfl fun hk => ?_
    cases d <;> exact ⟨hk.installed, hk.pending⟩
  | reuse hk | freshVertex | freshSource => exact h.top rfl rfl fun hk => hk.addScratch _ _
  | shed => exact h.top rfl rfl fun hk => hk.shed

structure Owned (m : Machine) (born : VertexId → List Ty) : Prop where
  settled : m.engine.graph.Settled born
  interned : m.engine.graph.Interned born
  held : ∀ v, m.held v ≤ if (m.engine.graph.get v).alive = true then 1 else 0
  apart : ∀ ts v, m.engine.graph.shared.get? ts = some v → m.held v = 0

variable {born : VertexId → List Ty}

theorem Owned.held_of_dead (h : m.Owned born) {v : VertexId}
    (hv : (m.engine.graph.get v).alive = false) : m.held v = 0 := by
  have := h.held v
  rw [hv] at this
  simpa using this

theorem Owned.flow (h : m.Owned born) (hsettled : m'.engine.graph.Settled born)
    (hlife : Graph.SameLife m.engine.graph m'.engine.graph) (hheld : ∀ v, m'.held v ≤ m.held v) :
    m'.Owned born := by
  refine ⟨hsettled, h.interned.sameLife hlife, fun v => ?_, fun ts v hv => ?_⟩
  · rw [hlife.alive]
    exact (hheld v).trans (h.held v)
  · rw [hlife.shared] at hv
    exact Nat.le_zero.1 ((hheld v).trans (Nat.le_of_eq (h.apart ts v hv)))

theorem Owned.create (h : m.Owned born) {x : Vertex} {types : List Ty} (halive : x.alive = true)
    (hgraph : m'.engine.graph = (m.engine.graph.alloc x).2)
    (hsettled : m'.engine.graph.Settled (Function.update born (m.engine.graph.alloc x).1 types))
    (hheld : ∀ v, m'.held v ≤ m.held v + if (m.engine.graph.alloc x).1 = v then 1 else 0) :
    m'.Owned (Function.update born (m.engine.graph.alloc x).1 types) := by
  refine ⟨hsettled, hgraph ▸ h.interned.alloc h.settled x types, fun v => ?_, fun ts v hv => ?_⟩
  · have hv := hheld v
    rw [hgraph, Graph.get_alloc h.settled]
    by_cases hnew : (m.engine.graph.alloc x).1 = v
    · have hdead := (Graph.alloc_detached h.settled x).1
      rw [hnew] at hdead
      rw [h.held_of_dead hdead, if_pos hnew] at hv
      rw [if_pos hnew, if_pos halive]
      exact hv
    · rw [if_neg hnew] at hv ⊢
      exact hv.trans (h.held v)
  · rw [hgraph] at hv
    have hshared : m.engine.graph.shared.get? ts = some v := hv
    have hle := hheld v
    rw [if_neg (h.interned.alloc_ne h.settled x hshared), h.apart ts v hshared] at hle
    exact Nat.le_zero.1 hle

theorem Owned.share (h : m.Owned born) {types : List Ty}
    (hgraph : m'.engine.graph = (m.engine.graph.source types).2)
    (hheld : ∀ v, m'.held v ≤ m.held v) :
    m'.Owned (m.engine.graph.bornWithSource born types) := by
  have hzero : ∀ {v}, m.held v = 0 → m'.held v = 0 := fun h0 =>
    Nat.le_zero.1 ((hheld _).trans (Nat.le_of_eq h0))
  refine ⟨hgraph ▸ h.settled.source types, hgraph ▸ h.interned.source h.settled types,
    fun v => ?_, fun ts v hv => ?_⟩
  · cases hs : m.engine.graph.shared.get? types with
    | some u =>
      rw [hgraph, Graph.source_eq_of_some hs]
      exact (hheld v).trans (h.held v)
    | none =>
      rw [hgraph, Graph.source_eq_of_none hs]
      refine (hheld v).trans ((h.held v).trans ?_)
      show _ ≤ if ((m.engine.graph.alloc (Vertex.ofTypes types none)).2.get v).alive = true
        then 1 else 0
      rw [Graph.get_alloc h.settled]
      by_cases hnew : (m.engine.graph.alloc (Vertex.ofTypes types none)).1 = v
      · rw [if_pos hnew]
        show _ ≤ 1
        split <;> omega
      · rw [if_neg hnew]
  · cases hs : m.engine.graph.shared.get? types with
    | some u =>
      rw [hgraph, Graph.source_eq_of_some hs] at hv
      exact hzero (h.apart ts v hv)
    | none =>
      rw [hgraph, Graph.source_eq_of_none hs] at hv
      change (m.engine.graph.shared.insert types _).get? ts = some v at hv
      rw [OrderedMap.get?_insert] at hv
      split at hv
      · rw [← Option.some.inj hv]
        exact hzero (h.held_of_dead (Graph.alloc_detached h.settled _).1)
      · exact hzero (h.apart ts v hv)

theorem Owned.bury (h : m.Owned born) {v : VertexId}
    (hgraph : m'.engine.graph = (m.engine.graph.destroy v).graph)
    (hheld : ∀ u, m'.held u + (if v = u then 1 else 0) ≤ m.held u) : m'.Owned born := by
  obtain ⟨hshared, halive⟩ := Graph.destroy_life m.engine.graph v
  have hheld' : ∀ u, m'.held u ≤ m.held u := fun u => (Nat.le_add_right _ _).trans (hheld u)
  have hplace : 1 ≤ m.held v := by
    have := hheld v
    rw [if_pos rfl] at this
    omega
  have hprivate : ∀ ts, m.engine.graph.shared.get? ts ≠ some v := fun ts hts => by
    have := h.apart ts v hts
    omega
  refine ⟨hgraph ▸ h.settled.destroy v, hgraph ▸ h.interned.destroy hprivate, fun u => ?_,
    fun ts u hu => ?_⟩
  · rw [hgraph, halive]
    have hu := hheld u
    have hbefore := h.held u
    by_cases hvu : v = u
    · rw [if_pos hvu] at hu ⊢
      rw [if_neg Bool.false_ne_true]
      split at hbefore <;> omega
    · rw [if_neg hvu]
      exact (hheld' u).trans hbefore
  · rw [hgraph, hshared] at hu
    exact Nat.le_zero.1 ((hheld' u).trans (Nat.le_of_eq (h.apart ts u hu)))

theorem Owned.step (h : m.Owned born) (ht : m.KeysDistinct) (hs : Step m m') :
    ∃ born', m'.Owned born' := by
  cases hs.placeChange ht with
  | flow hsettled hlife hheld => exact ⟨born, h.flow (hsettled born h.settled) hlife hheld⟩
  | create x types halive hgraph hsettled hheld =>
    exact ⟨_, h.create halive hgraph (hsettled born h.settled) hheld⟩
  | share types hgraph hheld => exact ⟨_, h.share hgraph hheld⟩
  | bury v hgraph hheld => exact ⟨born, h.bury hgraph hheld⟩

theorem PlaceChange.shared (h : PlaceChange m m') {ts : List Ty} {v : VertexId}
    (hv : m.engine.graph.shared.get? ts = some v) :
    m'.engine.graph.shared.get? ts = some v := by
  cases h with
  | flow hsettled hlife hheld => rwa [hlife.shared]
  | create x types halive hgraph hsettled hheld =>
    rw [hgraph]
    exact hv
  | share types hgraph hheld =>
    rw [hgraph]
    cases hs : m.engine.graph.shared.get? types with
    | some u =>
      rw [Graph.source_eq_of_some hs]
      exact hv
    | none =>
      rw [Graph.source_eq_of_none hs]
      show (m.engine.graph.shared.insert types _).get? ts = some v
      rw [OrderedMap.get?_insert, if_neg]
      · exact hv
      · intro hts
        rw [hts, hv] at hs
        exact Option.some_ne_none v hs
  | bury u hgraph hheld => rwa [hgraph, (Graph.destroy_life m.engine.graph u).1]

theorem Owned.steps (h : m.Owned born) (ht : m.KeysDistinct) (hs : Steps m m') :
    m'.KeysDistinct ∧ ∃ born', m'.Owned born' := by
  induction hs with
  | refl => exact ⟨ht, born, h⟩
  | tail _ hlast ih =>
    obtain ⟨ht', born', h'⟩ := ih
    exact ⟨ht'.step hlast, h'.step ht' hlast⟩

theorem KeysDistinct.steps_shared (h : m.KeysDistinct) (hs : Steps m m') {ts : List Ty}
    {v : VertexId}
    (hv : m.engine.graph.shared.get? ts = some v) :
    m'.engine.graph.shared.get? ts = some v := by
  have hrun : m'.KeysDistinct ∧ m'.engine.graph.shared.get? ts = some v := by
    induction hs with
    | refl => exact ⟨h, hv⟩
    | tail _ hlast ih => exact ⟨ih.1.step hlast, (hlast.placeChange ih.1).shared ih.2⟩
  exact hrun.2

end Machine

end TypeFlow
