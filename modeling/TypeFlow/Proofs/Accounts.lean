import TypeFlow.Proofs.EdgeOwners
import TypeFlow.Proofs.Places
import TypeFlow.Proofs.Replay

/-!
# Accounts

Every edge is stored with no more owners than have it in place, and with exactly as many between
vertices that live on. A vertex with literals is a shared source or has a place. So once nothing is
in place any more, no edge and no literal is left but those of the start.
-/

set_option autoImplicit false

namespace TypeFlow

open State Machine

namespace Graph

variable {g g' : Graph} {born : VertexId → List Ty} {u v w : VertexId} {t : Ty}

inductive EdgeNeutral (g : Graph) : Graph → Prop where
  | same {g' : Graph} (hshared : g'.shared = g.shared) (hrest : ∀ v, g'.get v =
      { g.get v with node := (g'.get v).node, listeners := (g'.get v).listeners }) : EdgeNeutral g
        g'
  | create (label : String) (node : Option NodeId) : EdgeNeutral g (g.newVertex label node).2
  | share (types : List Ty) : EdgeNeutral g (g.source types).2
  | bury (v : VertexId) : EdgeNeutral g (g.destroy v).graph

theorem Idle.edgeNeutral (h : Idle g g') : EdgeNeutral g g' := .same h.shared h.rest

theorem owners_alloc (h : g.Settled born) {x : Vertex} (hx : x.next = {}) :
    ((g.alloc x).2.get u).owners w = (g.get u).owners w := by
  rw [get_alloc h]
  split
  · next hu =>
    rw [← hu, (h.owners_alloc x w).1]
    unfold Vertex.owners
    rw [hx]
    rfl
  · rfl

theorem EdgeNeutral.owners (h : EdgeNeutral g g') (hs : g.Settled born) :
    (g'.get u).owners w = (g.get u).owners w := by
  cases h with
  | same hshared hrest =>
    rw [hrest]
    rfl
  | create label node => exact owners_alloc hs rfl
  | share types =>
    cases hshared : g.shared.get? types with
    | some v => rw [source_eq_of_some hshared]
    | none =>
      rw [source_eq_of_none hshared]
      exact owners_alloc (x := Vertex.ofTypes types none) hs rfl
  | bury v => exact (destroy_spec g v).2.2 u w

def HasLiteral (g : Graph) (v : VertexId) (t : Ty) : Prop :=
  (g.get v).alive = true ∧ .literal ∈ (g.get v).origins t

theorem Settled.hasLiteral_iff (h : g.Settled born) :
    g.HasLiteral v t ↔ (g.get v).alive = true ∧ t ∈ born v := by
  refine and_congr_right fun hv => ?_
  rw [← List.count_pos_iff, h.literals v t hv, List.count_pos_iff]

theorem EdgeNeutral.hasLiteral (h : EdgeNeutral g g') (hs : g.Settled born) (hv : g'.HasLiteral v t)
    :
    g.HasLiteral v t ∨ ∃ types, g'.shared.get? types = some v := by
  cases h with
  | same hshared hrest =>
    unfold HasLiteral at hv
    rw [hrest] at hv
    exact .inl hv
  | create label node =>
    unfold HasLiteral newVertex at hv
    rw [get_alloc hs] at hv
    split at hv
    · exact absurd hv.2 (by simp [Vertex.origins, OrderedMap.get?])
    · exact .inl hv
  | share types =>
    cases hshared : g.shared.get? types with
    | some u =>
      rw [source_eq_of_some hshared] at hv
      exact .inl hv
    | none =>
      rw [source_eq_of_none hshared] at hv ⊢
      change (g.alloc (Vertex.ofTypes types none)).2.HasLiteral v t at hv
      unfold HasLiteral at hv
      rw [get_alloc hs] at hv
      split at hv
      · next hnew =>
        refine .inr ⟨types, ?_⟩
        rw [OrderedMap.get?_insert, if_pos rfl]
        exact congrArg some hnew
      · exact .inl hv
  | bury u =>
    rw [(hs.destroy u).hasLiteral_iff, (destroy_life g u).2] at hv
    refine .inl (hs.hasLiteral_iff.2 ⟨?_, hv.2⟩)
    by_cases huv : u = v
    · rw [if_pos huv] at hv
      cases hv.1
    · rw [if_neg huv] at hv
      exact hv.1

theorem Settled.rewire (h : g.Settled born) (new gone : List (VertexId × VertexId)) :
    (g.rewire new gone).Settled born :=
  rewire_induct (P := fun g => g.Settled born) (fun _ src dst h => h.addEdge src dst)
    (fun _ src dst h => h.removeEdge src dst) h new gone

end Graph

theorem Engine.Edits.edgeNeutral {e e' : Engine} (h : e.Edits e') : e.graph.EdgeNeutral e'.graph :=
    by
  induction h with
  | tell => exact (Graph.Idle.refl _).edgeNeutral
  | name label => exact .create label none
  | schedule _ ss ih => rwa [Engine.graph_scheduleAll]

abbrev Holding := SiteId ⊕ VertexId

def Installed.Holds (x : Installed) : Holding → Prop
  | .inl c => c ∈ x.sites.values
  | .inr v => v ∈ x.scratch.values

def Task.Holds (t : Task) : Holding → Prop
  | .inl c => c ∈ t.effects.installed.sites.values ++ t.out
  | .inr v => v ∈ t.effects.holdings

def Engine.Spares (e : Engine) : Holding → Prop
  | .inl c => e.isLive c = true
  | .inr v => (e.graph.get v).alive = true

namespace State

variable {s s' : State} {e e' : Engine} {ts ts' : List Task} {t t' : Task} {d d' : Progress}
  {u v w : VertexId}

theorem mem_holdings {fx : Effects} : v ∈ fx.holdings ↔
    v ∈ fx.installed.scratch.values ∨ v ∈ fx.pending.scratch.values := by
  refine List.mem_append.trans ⟨Or.imp_right fun h => ?_, fun h => ?_⟩
  · obtain ⟨x, hx, rfl⟩ := List.mem_map.1 h
    exact List.mem_map_of_mem (List.mem_of_mem_filter hx)
  · refine or_iff_not_imp_left.2 fun hnot => ?_
    obtain ⟨x, hx, rfl⟩ := List.mem_map.1 (h.resolve_left hnot)
    refine List.mem_map_of_mem (List.mem_filter.2 ⟨hx, ?_⟩)
    simpa using fun hold => hnot (OrderedMap.mem_values_of_get? hold)

theorem mem_holdings_addPrivate (fx : Effects) (label : String) (v : VertexId) :
    v ∈ (fx.addPrivate label v).holdings :=
  mem_holdings.2 (.inr (OrderedMap.mem_values_of_get? ((OrderedMap.get?_insert ..).trans
    (if_pos rfl))))

inductive HoldsOn (s : State) (u : SiteId) : Holding → Prop where
  | slot {a : Holding} {x : Site} (hx : s.engine.site? u = some x) (h : x.effects.installed.Holds a)
    :
    HoldsOn s u a
  | task {a : Holding} {t : Task} (ht : t ∈ s.tasks) (hw : t.work.site? = some u) (h : t.Holds a) :
    HoldsOn s u a
  | hand {v : VertexId} (h : v ∈ s.progress.hand) : HoldsOn s u (.inr v)

def Places (s : State) (v : VertexId) : Prop :=
  (∃ n, s.Enrols n v) ∨ ∃ u, s.HoldsOn u (.inr v)

inductive EdgeChange : State → State → Prop where
  | edgeNeutral {s s' : State} (h : s.engine.graph.EdgeNeutral s'.engine.graph) : EdgeChange s s'
  /-- A private source comes to be, and gets a place. -/
  | source {s s' : State} (types : List Ty) (node : Option NodeId)
    (hgraph : s'.engine.graph = (s.engine.graph.newSource types node).2)
    (hplace : s'.Places (s.engine.graph.newSource types node).1) : EdgeChange s s'
  | edges {e : Engine} {ts : List Task} {d : Progress} {t : Task} :
    EdgeChange ⟨e, t :: ts, d⟩ ⟨(Run.mk e t.effects).installEdges.engine,
      { t with effects := (Run.mk e t.effects).installEdges.effects } :: ts, d⟩

theorem Move.edgeChange (hm : Move s s') (hk : s.Kept) (hc : s'.Called) : EdgeChange s s' := by
  obtain ⟨r, hr⟩ := hm.called hc
  have hhomed := hk.homed r hr
  cases hm with
  | @sweep e d ho =>
    refine .edgeNeutral (.same ?_ fun v => by rw [Engine.get_reclaim])
    show e.reclaim.2.graph.shared = _
    unfold Engine.reclaim
    split <;> rfl
  | aside h => exact .edgeNeutral (h.graph ▸ (Graph.Idle.refl _).edgeNeutral)
  | newVertex label | freshVertex hw label => exact .edgeNeutral (.create label none)
  | ownVertex n label => exact .edgeNeutral (.create label (some n))
  | source h => exact .edgeNeutral (.share _)
  | @ownSource e ts d n t hn h =>
    refine .source [t] (some n) rfl ?_
    obtain ⟨x, hx⟩ := (hhomed.keys n).1 (hhomed.mem_keys_of_opens (Roll.young_subset hr) hn)
    have hrecord : ((e.newSource [t] (some n)).2.modifyNode n fun x => { x with
        vertices := x.vertices ++ [(e.newSource [t] (some n)).1] }).record? n = some { x with
          vertices := x.vertices ++ [(e.newSource [t] (some n)).1] } := by
      rw [Engine.record?_modifyNode, if_pos rfl, show (e.newSource [t] (some n)).2.record? n =
        some x
        from hx, Option.map_some]
    exact .inl ⟨n, .inl ⟨_, hrecord, List.mem_append_right _ (List.mem_singleton_self _)⟩⟩
  | @freshSource e ts d t s types hw label h =>
    exact .source types none rfl (.inr ⟨s, .task List.mem_cons_self (congrArg Work.site? hw)
      (mem_holdings_addPrivate t.effects label (e.newSource types none).1)⟩)
  | @define e ts d n entry hn h =>
    exact .edgeNeutral (Engine.edits_enter e (.node n) entry).edgeNeutral
  | @unregister e d n r regs reg hl hr =>
    exact .edgeNeutral (Engine.edits_unregister e (.node n) reg).edgeNeutral
  | adopt path rename new old h => exact .edgeNeutral (Engine.idle_adoptNode ..).edgeNeutral
  | @removeBlock e d n r hl =>
    rw [(Engine.exists_removeBlock_eq e r.block).choose_spec]
    exact .edgeNeutral (Graph.Idle.refl _).edgeNeutral
  | beginDestroy hx hlive hs => exact .edgeNeutral (Engine.idle_destroying ..).edgeNeutral
  | placeSite ha h => exact .edgeNeutral (Engine.idle_placeSite ..).edgeNeutral
  | installEdges => exact .edges
  | buryLifted | bury => exact .edgeNeutral (Engine.graph_adoptGraph _ _ ▸ .bury _)
  | _ => exact .edgeNeutral (Graph.Idle.refl _).edgeNeutral

section Edges

/-- A vertex that lives and has no place stays so: only what has a place is buried. -/
theorem aliveUnheld_step {m m' : Machine} {born : VertexId → List Ty} (h : m.Owned born)
    (ht : m.KeysDistinct)
    (hs : Step m m') (hv : (m.engine.graph.get v).alive = true ∧ m.held v = 0) :
    (m'.engine.graph.get v).alive = true ∧ m'.held v = 0 := by
  cases hs.placeChange ht with
  | flow hsettled hlife hheld =>
    exact ⟨(hlife.alive v).trans hv.1, Nat.le_zero.1 ((hheld v).trans_eq hv.2)⟩
  | create x types halive hgraph hsettled hheld =>
    have hne : (m.engine.graph.alloc x).1 ≠ v := by
      rintro rfl
      cases hv.1.symm.trans (Graph.alloc_detached h.settled x).1
    have hle := hheld v
    rw [if_neg hne, hv.2] at hle
    refine ⟨?_, Nat.le_zero.1 hle⟩
    rw [hgraph, Graph.get_alloc h.settled, if_neg hne]
    exact hv.1
  | share types hgraph hheld =>
    refine ⟨?_, Nat.le_zero.1 ((hheld v).trans_eq hv.2)⟩
    rw [hgraph]
    cases hshared : m.engine.graph.shared.get? types with
    | some u =>
      rw [Graph.source_eq_of_some hshared]
      exact hv.1
    | none =>
      rw [Graph.source_eq_of_none hshared]
      show ((m.engine.graph.alloc (Vertex.ofTypes types none)).2.get v).alive = true
      rw [Graph.get_alloc h.settled]
      split
      · rfl
      · exact hv.1
  | bury u hgraph hheld =>
    have hle := hheld v
    rw [hv.2] at hle
    have hne : u ≠ v := fun heq => by
      rw [if_pos heq] at hle
      omega
    refine ⟨?_, by omega⟩
    rw [hgraph, (Graph.destroy_life _ u).2, if_neg hne]
    exact hv.1

def laid (u w : VertexId) (s : State) : Nat :=
  placed (fun l => if (u, w) ∈ l.1.toList then 1 else 0) s

def AliveUnheld (v : VertexId) (s : State) : Prop :=
  (s.engine.graph.get v).alive = true ∧ s.machine.held v = 0

theorem AliveUnheld.move (hm : Move s s') (hk : s.Kept) (hv : AliveUnheld v s) : AliveUnheld v s' :=
    by
  have hrun : ∀ {m : Machine}, Steps s.machine m → m.KeysDistinct ∧ (∃ born, m.Owned born) ∧
      (m.engine.graph.get v).alive = true ∧ m.held v = 0 := by
    intro m hsteps
    induction hsteps with
    | refl => exact ⟨hk.keysDistinct, hk.owned, hv⟩
    | tail _ hlast ih =>
      obtain ⟨hkeysDistinct, ⟨born, howned⟩, haliveUnheld⟩ := ih
      exact ⟨hkeysDistinct.step hlast, howned.step hkeysDistinct hlast,
        aliveUnheld_step howned hkeysDistinct hlast haliveUnheld⟩
  exact (hrun (hm.steps hk.sound.machine)).2.2

theorem Carries.laid (hm : Carries s s') : laid u w s' = laid u w s ∨
    ∃ e ts d t, s = ⟨e, t :: ts, d⟩ ∧ s' = ⟨(Run.mk e t.effects).installEdges.engine,
      { t with effects := (Run.mk e t.effects).installEdges.effects } :: ts, d⟩ := by
  cases hm with
  | keep hwanes hplaced | placeSite node rule hplaced => exact .inl (hplaced _ rfl)
  | sweep => exact .inl (placed_reclaim _ _ _ _)
  | installEdges => exact .inr ⟨_, _, _, _, rfl, rfl⟩
  | detach | attach => exact .inl (placed_of_stock rfl rfl rfl rfl)

theorem owners_installEdges (e : Engine) (ts : List Task) (d : Progress) (hn : t.effects.Neat)
    (u w : VertexId) :
    let s : State := ⟨e, t :: ts, d⟩
    let s' : State := ⟨(Run.mk e t.effects).installEdges.engine,
      { t with effects := (Run.mk e t.effects).installEdges.effects } :: ts, d⟩
    let had := if (u, w) ∈ t.effects.installed.edges.toList then 1 else 0
    let asked := if (u, w) ∈ t.effects.pending.edges.toList then 1 else 0
    had ≤ laid u w s ∧ laid u w s' + had = laid u w s + asked ∧
      (s'.engine.graph.get u).owners w ≤ (s.engine.graph.get u).owners w + (asked - had) -
        (had - asked) ∧
      ((e.graph.get u).alive = true → (e.graph.get w).alive = true →
        (s'.engine.graph.get u).owners w = (s.engine.graph.get u).owners w + (asked - had) -
          (had - asked)) := by
  intro s s' had asked
  have hstock := Engine.SameStock.installEdges ⟨e, t.effects⟩
  have howners := Graph.owners_rewire e.graph
    (hn.askedEdges.filter fun x => !t.effects.installed.edges.contains x)
    (hn.edges.filter fun x => !t.effects.pending.edges.contains x) u w
  rw [← Engine.graph_installEdges] at howners
  simp only [List.mem_filter, Bool.not_eq_true', ← Bool.not_eq_true, OrderedSet.contains_iff]
    at howners
  refine ⟨?_, placed_top hstock.nodes hstock.sites rfl, ?_⟩
  · have htask : had ≤ (s.tasks.map fun t => if (u, w) ∈ t.effects.load.1.toList then 1 else
      0).sum :=
      List.le_sum_of_mem List.mem_cons_self
    unfold laid placed
    dsimp only
    omega
  · show (((Run.mk e t.effects).installEdges.engine.graph.get u).owners w ≤ _) ∧ (_ → _ →
      ((Run.mk e t.effects).installEdges.engine.graph.get u).owners w = _)
    rw [howners]
    by_cases hhad : (u, w) ∈ t.effects.installed.edges.toList <;>
      by_cases hasked : (u, w) ∈ t.effects.pending.edges.toList <;>
        simp +contextual [had, asked, hhad, hasked, s]
    split <;> omega

structure OwnersAtMost (exact : Prop) (u w : VertexId) (base : Nat) (s : State) : Prop where
  le : (s.engine.graph.get u).owners w ≤ laid u w s + base
  aliveUnheld : exact → AliveUnheld u s ∧ AliveUnheld w s
  eq : exact → (s.engine.graph.get u).owners w = laid u w s + base

variable {exact : Prop} {base : Nat}

theorem OwnersAtMost.keep (h : OwnersAtMost exact u w base s) (hm : Move s s') (hk : s.Kept)
    (howners : (s'.engine.graph.get u).owners w = (s.engine.graph.get u).owners w)
    (hlaid : laid u w s' = laid u w s) : OwnersAtMost exact u w base s' where
  le := by
    rw [howners, hlaid]
    exact h.le
  aliveUnheld hx := ⟨(h.aliveUnheld hx).1.move hm hk, (h.aliveUnheld hx).2.move hm hk⟩
  eq hx := by
    rw [howners, hlaid]
    exact h.eq hx

theorem OwnersAtMost.installEdges (h : OwnersAtMost exact u w base ⟨e, t :: ts, d⟩)
    (hk : Kept ⟨e, t :: ts, d⟩) : OwnersAtMost exact u w base
      ⟨(Run.mk e t.effects).installEdges.engine,
      { t with effects := (Run.mk e t.effects).installEdges.effects } :: ts, d⟩ := by
  obtain ⟨hhad, hlaid, hle, heq⟩ := owners_installEdges e ts d
    (hk.sound.neat.tasks t List.mem_cons_self) u w
  have hbefore := h.le
  refine ⟨by omega, fun hx => ⟨(h.aliveUnheld hx).1.move .installEdges hk,
    (h.aliveUnheld hx).2.move .installEdges hk⟩, fun hx => ?_⟩
  rw [heq (h.aliveUnheld hx).1.1 (h.aliveUnheld hx).2.1, h.eq hx]
  omega

theorem OwnersAtMost.move (h : OwnersAtMost exact u w base s) (hm : Move s s') (hk : s.Kept)
    (hb : s.Blank)
    (hc : s'.Called) : OwnersAtMost exact u w base s' := by
  obtain ⟨born, howned⟩ := hk.owned
  rcases (hm.carries hk hb hc).laid (u := u) (w := w) with hlaid | ⟨e, ts, d, t, rfl, rfl⟩
  · cases hm.edgeChange hk hc with
    | edgeNeutral hedgeNeutral => exact h.keep hm hk (hedgeNeutral.owners howned.settled) hlaid
    | source types node hgraph hheld =>
      refine h.keep hm hk ?_ hlaid
      rw [hgraph]
      exact Graph.owners_alloc (x := Vertex.ofTypes types node) howned.settled rfl
    | edges => exact h.installEdges hk
  · exact h.installEdges hk

end Edges

section Places

def Numbered (s : State) : Prop := ∀ t ∈ s.tasks, t.effects.Numbered

theorem Numbered.move (h : s.Numbered) (hm : Move s s') : s'.Numbered := by
  have hfresh : ∀ {fx : Effects}, fx.pending.scratch = {} → fx.Numbered := fun hfx key hkey => by
    rw [hfx] at hkey
    cases hkey
  have htop : ∀ {t t' : Task} {ts : List Task}, s.tasks = t :: ts →
      (t.effects.Numbered → t'.effects.Numbered) → ∀ u ∈ t' :: ts, u.effects.Numbered := by
    intro t t' ts hs hn
    unfold Numbered at h
    rw [hs] at h
    exact List.forall_mem_cons.2 ((List.forall_mem_cons.1 h).imp hn id)
  cases hm with
  | openNode hl hn hx => exact List.forall_mem_singleton.2 (hfresh hx.bare)
  | closeNode | dropNode => exact fun t ht => nomatch ht
  | openLifted | beginRun => exact List.forall_mem_singleton.2 (hfresh rfl)
  | endRun | breakRun | endDestroy => exact (List.forall_mem_cons.1 h).2
  | beginDestroy => exact List.forall_mem_cons.2 ⟨hfresh rfl, h⟩
  | jot hb =>
    refine htop rfl fun hn key hkey => ?_
    rw [hb.askedScratch] at hkey
    rw [hb.ordinals]
    exact hn key hkey
  | reuse | freshVertex | freshSource => exact htop rfl fun hn => hn.addPrivate _ _
  | shed => exact htop rfl fun _ => hfresh rfl
  | @read e ts d t dep hd =>
    refine htop rfl ?_
    cases dep <;> exact id
  | askEdge | askSite | detach | attach | note | forget | installEdges | placeSite =>
    exact htop rfl id
  | _ => exact h

theorem mem_addPrivate {fx : Effects} (hn : fx.Numbered) (label : String) (u : VertexId)
    (h : v ∈ fx.holdings) : v ∈ (fx.addPrivate label u).holdings := by
  refine mem_holdings.2 ((mem_holdings.1 h).imp_right fun h => ?_)
  show v ∈ (fx.pending.scratch.insert (fx.privateKey label) u).values
  unfold OrderedMap.insert
  rw [if_neg fun hkey => hn.not_mem_privateKey label (OrderedMap.contains_iff.1 hkey)]
  exact (List.map_append ▸ List.mem_append_left _ h :)

/-- What a site has in place stays in its slot or goes to the work on it. -/
theorem Move.bears (hm : Move s s') (hk : s.Kept) (hb : s.Blank) {u : SiteId} {x : Site}
    (hx : s.engine.site? u = some x) : x.effects.load = .none ∧ x.effects.holdings = [] ∨
      (∃ y, s'.engine.site? u = some y ∧ y.effects.installed.sites = x.effects.installed.sites ∧
        y.effects.installed.scratch = x.effects.installed.scratch) ∨
      ∃ t ∈ s'.tasks, t.work.site? = some u ∧ t.effects = x.effects.discard := by
  have hsame : s'.engine.sites = s.engine.sites → ∃ y, s'.engine.site? u = some y ∧
      y.effects.installed.sites = x.effects.installed.sites ∧
        y.effects.installed.scratch = x.effects.installed.scratch := fun hs =>
    ⟨x, (congrArg (Slots.get? · u.index) hs).trans hx, rfl, rfl⟩
  have hother : ∀ {w : SiteId} {f : Site → Site}, w ≠ u →
      s'.engine.site? u = (s.engine.modifySite w f).site? u → ∃ y, s'.engine.site? u = some y ∧
        y.effects.installed.sites = x.effects.installed.sites ∧
          y.effects.installed.scratch = x.effects.installed.scratch := fun hw he =>
    ⟨x, he.trans (by rw [Engine.site?_modifySite, if_neg hw]; exact hx), rfl, rfl⟩
  have hbusy : ∀ {t : Task} {ts : List Task} {w : SiteId}, s.tasks = t :: ts →
      t.work.site? = some w → w = u → x.effects.load = .none ∧ x.effects.holdings = [] := by
    rintro t ts w hts hw rfl
    obtain ⟨e, ts', d⟩ := s
    cases hts
    obtain ⟨y, hy, hload, hbare, -⟩ := hb.ofWork hk hw
    cases hx.symm.trans hy
    exact ⟨hload, hbare⟩
  cases hm with
  | sweep => exact .inr (.inl ⟨x, (Engine.site?_reclaim _ u).trans hx, rfl, rfl⟩)
  | aside hq => exact .inr (.inl (hsame hq.sites))
  | define => exact .inr (.inl (hsame (Engine.SameStock.enter _ _ _).sites))
  | unregister => exact .inr (.inl (hsame (Engine.SameStock.unregister _ _ _).sites))
  | @removeBlock e d n r hl =>
    rw [(Engine.exists_removeBlock_eq e r.block).choose_spec] at hsame ⊢
    exact .inr (.inl (hsame rfl))
  | buryLifted | bury => exact .inr (.inl (hsame (Engine.SameStock.adoptGraph _ _).sites))
  | @installEdges e ts d t =>
    exact .inr (.inl (hsame (Engine.SameStock.installEdges ⟨e, t.effects⟩).sites))
  | @adopt e d path rename new old hl =>
    cases hr : e.record? old with
    | none =>
      rw [Engine.adoptNode_none hr] at hsame ⊢
      exact .inr (.inl (hsame rfl))
    | some record =>
      have hsite := Engine.site?_adoptNode hr path rename new u
      rw [show e.site? u = some x from hx, Option.map_some] at hsite
      obtain ⟨diagnostics, hfx⟩ := Engine.relabel_iterate_effects x (record.sites.toList.count u)
      exact .inr (.inl ⟨_, hsite, by rw [hfx], by rw [hfx]⟩)
  | @beginRun e d w y queue hl hy hlive hq =>
    by_cases hw : w = u
    · subst hw
      cases hx.symm.trans hy
      exact .inr (.inr ⟨_, List.mem_cons_self, rfl, rfl⟩)
    · exact .inr (.inl (hother hw rfl))
  | @beginDestroy e ts d w y hy hlive hs =>
    by_cases hw : w = u
    · subst hw
      cases hx.symm.trans hy
      exact .inr (.inr ⟨_, List.mem_cons_self, rfl, rfl⟩)
    · exact .inr (.inl (hother hw (congrArg (Slots.get? · u.index) (Engine.sites_destroying e w
        y))))
  | @endRun e ts d t w hw | @breakRun e ts d t w hw | @endDestroy e ts d t w hw =>
    by_cases hwu : w = u
    · exact .inl (hbusy rfl (congrArg Work.site? hw) hwu)
    · exact .inr (.inl (hother hwu rfl))
  | @placeSite e ts d t ask ha hknown =>
    have hgiven := hk.sound.machine.filed.given_up
    have hsize : u.index < e.sites.size := Slots.lt_size_of_get? hx
    by_cases hfree : u.index ∈ e.sites.free
    · obtain ⟨⟨y, hy, hgone⟩, -⟩ := hgiven u.index (List.mem_append_right _ hfree)
      cases hx.symm.trans hy
      obtain ⟨hload, hbare, -⟩ := hb.slots u x hx (.inl hgone)
      exact .inl ⟨hload, hbare⟩
    · refine .inr (.inl ⟨x, ?_, rfl, rfl⟩)
      unfold Engine.site?
      rw [Engine.sites_placeSite, Slots.get?_alloc, if_neg]
      · exact hx
      · rcases e.sites.alloc_index { node := ask.2.1, rule := ask.2.2 } with hi | hi
        · exact fun he => hfree (he ▸ hi)
        · omega
      · intro i hi
        obtain ⟨⟨y, hy, -⟩, -⟩ := hgiven i (List.mem_append_right _ hi)
        exact Slots.lt_size_of_get? hy
  | _ => exact .inr (.inl (hsame rfl))

theorem Move.holdsOn_task (hm : Move s s') (hk : s.Kept) (hb : s.Blank) (hn : s.Numbered)
    (hlog : s'.progress.log ≠ s.progress.log ++ [.spill]) {u : SiteId} {a : Holding}
      (ht : t ∈ s.tasks)
    (hw : t.work.site? = some u) (h : t.Holds a) (ha : s'.engine.Spares a) : s'.HoldsOn u a := by
  have htop : ∀ {t0 t1 : Task} {ts : List Task}, s.tasks = t0 :: ts → s'.tasks = t1 :: ts →
      t1.work = t0.work → (t0.Holds a → t1.Holds a) → s'.HoldsOn u a := by
    intro t0 t1 ts hts hts' hwork hsub
    rcases List.mem_cons.1 (hts ▸ ht) with rfl | ht
    · exact .task (hts' ▸ List.mem_cons_self) (hwork ▸ hw) (hsub h)
    · exact .task (hts' ▸ List.mem_cons_of_mem _ ht) hw h
  cases hm with
  | sweep | start | adopt | lift | miss | openNode | openLifted | clearSite | unregister |
    removeBlock
  | buryLifted | putDown | beginRun | refuse => cases ht
  | closeNode _ _ hnode | dropNode hnode =>
    cases List.mem_singleton.1 ht
    rw [hnode] at hw
    cases hw
  | endDestroy _ hfx hout =>
    rcases List.mem_cons.1 ht with rfl | ht
    · unfold Task.Holds at h
      rw [hfx, hout] at h
      cases a <;> cases h
    · exact .task ht hw h
  | @endRun e ts d t0 w hrun hp hout =>
    rcases List.mem_cons.1 ht with rfl | ht
    · obtain ⟨x, hx, -⟩ := hb.ofWork hk hw
      cases Option.some.inj ((congrArg Work.site? hrun).symm.trans hw)
      refine .slot (x := { x with effects := t.effects }) ?_ ?_
      · rw [Engine.site?_modifySite, if_pos rfl, hx, Option.map_some]
      · cases a with
        | inl c => simpa [Task.Holds, Installed.Holds, hout] using h
        | inr v =>
          refine (mem_holdings.1 h).resolve_right ?_
          rw [hp]
          exact List.not_mem_nil
    · exact .task ht hw h
  | breakRun => exact absurd rfl hlog
  | beginDestroy => exact .task (List.mem_cons_of_mem _ ht) hw h
  | @read _ _ _ _ dep | @note _ _ _ _ _ dep | @forget _ _ _ _ _ dep =>
    exact htop rfl rfl rfl (by cases dep <;> exact id)
  | askEdge | askSite | detach | installEdges => exact htop rfl rfl rfl id
  | jot hbeside =>
    refine htop rfl rfl rfl ?_
    unfold Task.Holds
    rw [hbeside.sites, hbeside.toAlike.holdings]
    exact id
  | reuse | freshVertex | freshSource =>
    refine htop rfl rfl rfl fun h => ?_
    cases a with
    | inl c => exact h
    | inr v => exact mem_addPrivate (hn _ List.mem_cons_self) _ _ h
  | placeSite =>
    refine htop rfl rfl rfl fun h => ?_
    cases a with
    | inl c => exact List.mem_append.2 ((List.mem_append.1 h).imp_right (List.mem_cons_of_mem _))
    | inr v => exact h
  | attach _ _ hnone _ hd =>
    refine htop rfl rfl rfl fun h => ?_
    cases a with
    | inl c =>
      unfold Task.Holds at h
      rw [hnone] at h
      rcases hd c h with hback | hdead
      · exact List.mem_append_left _ hback
      · cases ha.symm.trans hdead
    | inr v => exact h
  | @shed e ts d t0 =>
    rcases List.mem_cons.1 ht with rfl | ht
    · cases a with
      | inl c => exact .task List.mem_cons_self hw h
      | inr v =>
        by_cases hasked : v ∈ t.effects.pending.scratch.values
        · exact .task List.mem_cons_self hw (mem_holdings.2 (.inl hasked))
        · obtain ⟨x, hx, rfl⟩ := List.mem_map.1 ((mem_holdings.1 h).resolve_right hasked)
          refine .hand (List.mem_append_left _ (List.mem_map_of_mem (List.mem_filter.2 ⟨hx, ?_⟩)))
          simpa using fun hold => hasked (OrderedMap.mem_values_of_get? hold)
    · exact .task (List.mem_cons_of_mem _ ht) hw h
  | _ => exact .task ht hw h

/-- What a site holds stays with it for as long as it lives, unless a run is broken off. -/
theorem HoldsOn.move {u : SiteId} {a : Holding} (h : s.HoldsOn u a) (hm : Move s s') (hk : s.Kept)
    (hb : s.Blank) (hn : s.Numbered) (hlog : s'.progress.log ≠ s.progress.log ++ [.spill])
    (ha : s'.engine.Spares a) : s'.HoldsOn u a := by
  cases h with
  | @slot _ x hx h =>
    rcases hm.bears hk hb hx with ⟨hload, hbare⟩ | ⟨y, hy, hsites, hscratch⟩ | ⟨t, ht, hw, hfx⟩
    · have hsites : x.effects.installed.sites = {} := congrArg Prod.snd hload
      have hscratch := (List.append_eq_nil_iff.1 hbare).1
      unfold Installed.Holds at h
      rw [hsites, hscratch] at h
      cases a <;> cases h
    · refine .slot hy ?_
      unfold Installed.Holds at h ⊢
      rwa [hsites, hscratch]
    · refine .task ht hw ?_
      unfold Task.Holds
      rw [hfx]
      cases a with
      | inl c => exact List.mem_append_left _ h
      | inr v => exact mem_holdings.2 (.inl h)
  | task ht hw h => exact hm.holdsOn_task hk hb hn hlog ht hw h ha
  | @hand v h =>
    cases hm with
    | shed => exact .hand (List.mem_append_right _ h)
    | @bury e ts d u us hh =>
      rcases List.mem_cons.1 (hh ▸ h) with rfl | h
      · have ha : ((e.destroyVertex v).graph.get v).alive = true := ha
        rw [Engine.destroyVertex, Engine.graph_adoptGraph, (Graph.destroy_life _ v).2,
          if_pos rfl] at ha
        cases ha
      · exact .hand h
    | _ => exact .hand h

theorem Places.move (h : s.Places v) (hm : Move s s') (hk : s.Kept) (hb : s.Blank) (hn : s.Numbered)
    (hc : s'.Called) (hlog : s'.progress.log ≠ s.progress.log ++ [.spill])
    (hv : (s'.engine.graph.get v).alive = true) : s'.Places v := by
  rcases h with ⟨n, h⟩ | ⟨u, h⟩
  · have hrecords := hm.enrols (n := n) (v := v) fun m hnew =>
      hnew.elim (hk.start hc) fun ⟨_, hnew⟩ => (hk.adopt hc hnew).2
    rcases hrecords h with h | hdead | ⟨new, -, h⟩
    · exact .inl ⟨n, h⟩
    · cases hv.symm.trans hdead
    · exact .inl ⟨new, h⟩
  · exact .inr ⟨u, h.move hm hk hb hn hlog hv⟩

def LiteralsPlaced (s : State) : Prop := ∀ v t, s.engine.graph.HasLiteral v t →
  (∃ types, s.engine.graph.shared.get? types = some v) ∨ s.Places v

theorem LiteralsPlaced.move (h : s.LiteralsPlaced) (hm : Move s s') (hk : s.Kept) (hb : s.Blank)
    (hn : s.Numbered) (hc : s'.Called) (hlog : s'.progress.log ≠ s.progress.log ++ [.spill]) :
    s'.LiteralsPlaced := by
  intro v t hv
  obtain ⟨born, howned⟩ := hk.owned
  have hsettled : s.engine.graph.Settled born := howned.settled
  have hkeep : s.engine.graph.HasLiteral v t →
      (∃ types, s'.engine.graph.shared.get? types = some v) ∨ s'.Places v := fun hold =>
    (h v t hold).imp
      (fun ⟨types, htypes⟩ =>
        ⟨types, hk.keysDistinct.steps_shared (hm.steps hk.sound.machine) htypes⟩)
      fun hplace => hplace.move hm hk hb hn hc hlog hv.1
  cases hm.edgeChange hk hc with
  | edgeNeutral hedgeNeutral => exact (hedgeNeutral.hasLiteral hsettled hv).elim hkeep .inl
  | source types node hgraph hplace =>
    by_cases hnew : (s.engine.graph.newSource types node).1 = v
    · exact .inr (hnew ▸ hplace)
    · refine hkeep ?_
      unfold Graph.HasLiteral at hv
      rwa [hgraph, Graph.newSource, Graph.get_alloc hsettled, if_neg (show ¬(Graph.alloc _ _).1 = v
        from hnew)] at hv
  | @edges e ts d t =>
    change e.graph.Settled born at hsettled
    refine hkeep (hsettled.hasLiteral_iff.2 ?_)
    have hgraph : (Run.mk e t.effects).installEdges.engine.graph = _ :=
      Engine.graph_installEdges e t.effects
    rw [hgraph, (hsettled.rewire _ _).hasLiteral_iff, (Graph.sameLife_rewire _ _ _).alive] at hv
    exact hv

end Places

end State

end TypeFlow
