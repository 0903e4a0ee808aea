import TypeFlow.Proofs.Moves

/-!
# Every site has a home

A live site is listed by the record of its node and by no other, and so is an installed block. This
holds as long as records are started, handed over and dropped in a sensible order: a roll is called
over the log of these events, and it can be called to the end only if no record is started twice or
handed over while it is being written.
-/

set_option autoImplicit false

namespace TypeFlow

open State

structure Roll where
  keys : Finset NodeId := ∅
  young : Finset NodeId := ∅

namespace Roll

variable {log : List Event} {r r' : Roll}

def step (r : Roll) : Event → Option Roll
  | .start n =>
    if n ∈ r.keys then none else some ⟨insert n r.keys, insert n r.young⟩
  | .adopt new old =>
    if old ∈ r.keys ∧ old ∉ r.young ∧ new ∉ r.keys then
      some { r with keys := insert new (r.keys.erase old) }
    else none
  | .drop n => some ⟨r.keys.erase n, ∅⟩
  | .sweep => some { r with young := ∅ }
  | .spill => some r

/-- The roll after the events of a log, if they come in a sensible order. -/
def call (log : List Event) : Option Roll := log.foldlM step {}

theorem call_append (log log' : List Event) :
    call (log ++ log') = (call log).bind fun r => log'.foldlM step r := by
  unfold call
  rw [List.foldlM_append]
  rfl

theorem call_snoc {event : Event} :
    call (log ++ [event]) = some r' ↔ ∃ r, call log = some r ∧ r.step event = some r' := by
  rw [call_append, Option.bind_eq_some_iff]
  simp

theorem step_start {n : NodeId} (h : r.step (.start n) = some r') :
    n ∉ r.keys ∧ r' = ⟨insert n r.keys, insert n r.young⟩ := by
  change (if n ∈ r.keys then none else some _) = some r' at h
  split at h
  · cases h
  · next hn => exact ⟨hn, (Option.some.inj h).symm⟩

theorem step_adopt {new old : NodeId} (h : r.step (.adopt new old) = some r') :
    (old ∈ r.keys ∧ old ∉ r.young ∧ new ∉ r.keys) ∧
      r' = { r with keys := insert new (r.keys.erase old) } := by
  change (if old ∈ r.keys ∧ old ∉ r.young ∧ new ∉ r.keys then some _ else none) = some r' at h
  split at h
  · next hn => exact ⟨hn, (Option.some.inj h).symm⟩
  · cases h

theorem young_subset (h : call log = some r) : r.young ⊆ r.keys := by
  induction log using List.reverseRecOn generalizing r with
  | nil =>
    cases h
    exact Finset.Subset.refl _
  | append_singleton log event ih =>
    obtain ⟨r0, hr0, hstep⟩ := call_snoc.1 h
    have hsub := ih hr0
    cases event with
    | start n =>
      rw [(step_start hstep).2]
      exact Finset.insert_subset_insert n hsub
    | adopt new old =>
      obtain ⟨⟨-, hold, -⟩, rfl⟩ := step_adopt hstep
      intro m hm
      show m ∈ insert new (r0.keys.erase old)
      rw [Finset.mem_insert, Finset.mem_erase]
      exact Or.inr ⟨fun he => hold (he ▸ hm), hsub hm⟩
    | drop | sweep =>
      rw [← Option.some.inj hstep]
      exact Finset.empty_subset _
    | spill =>
      rw [← Option.some.inj hstep]
      exact hsub

end Roll

section Places

namespace Engine

variable {e e' : Engine} {l l' : Option (NodeId × NodeRecord)} {n m : NodeId} {t s : SiteId}
  {b : BlockId}

def Lives (e : Engine) (t : SiteId) (n : NodeId) : Prop :=
  ∃ x, e.site? t = some x ∧ x.destroyed = false ∧ x.node = n

def Lists (e : Engine) (n : NodeId) (t : SiteId) : Prop :=
  ∃ r, e.record? n = some r ∧ t ∈ r.sites.toList

def Stands (e : Engine) (b : BlockId) (n : NodeId) : Prop :=
  ∃ x, e.block? b = some x ∧ x.node = n

def Boxes (e : Engine) (n : NodeId) (b : BlockId) : Prop :=
  ∃ r, e.record? n = some r ∧ r.block = some b

structure Homes (e : Engine) (l : Option (NodeId × NodeRecord)) : Prop where
  sites : ∀ t n, e.Lives t n → e.Lists n t ∨ ∃ r, l = some (n, r) ∧ t ∈ r.sites.toList
  listed : ∀ n t, e.Lists n t → e.Lives t n
  blocks : ∀ b n, e.Stands b n ↔ e.Boxes n b ∨ ∃ r, l = some (n, r) ∧ r.block = some b
  spare : (e.blocks.released ++ e.blocks.free).Nodup ∧
    ∀ i ∈ e.blocks.released ++ e.blocks.free, e.blocks.get? i = some none

theorem lives_unique (h : e.Lives t n) (h' : e.Lives t m) : n = m := by
  obtain ⟨x, hx, -, rfl⟩ := h
  obtain ⟨y, hy, -, rfl⟩ := h'
  rw [Option.some.inj (hx.symm.trans hy)]

theorem stands_unique (h : e.Stands b n) (h' : e.Stands b m) : n = m := by
  obtain ⟨x, hx, rfl⟩ := h
  obtain ⟨y, hy, rfl⟩ := h'
  rw [Option.some.inj (hx.symm.trans hy)]

structure SamePlaces (e e' : Engine) : Prop where
  sites : ∀ t, (e'.site? t).map (fun x => (x.node, x.destroyed)) =
    (e.site? t).map fun x => (x.node, x.destroyed)
  records : ∀ n, (e'.record? n).map (fun r => (r.sites, r.block)) =
    (e.record? n).map fun r => (r.sites, r.block)
  blocks : e'.blocks = e.blocks

theorem SamePlaces.of_eq (hs : e'.sites = e.sites) (hn : e'.nodes = e.nodes)
    (hb : e'.blocks = e.blocks) : e.SamePlaces e' := by
  refine ⟨fun t => ?_, fun n => ?_, hb⟩
  · unfold site?
    rw [hs]
  · unfold record?
    rw [hn]

theorem SameStock.places (h : e.SameStock e') : e.SamePlaces e' :=
  .of_eq h.sites h.nodes h.blocks

theorem SamePlaces.modifyNode (e : Engine) (n : NodeId) {f : NodeRecord → NodeRecord}
    (hs : ∀ r, (f r).sites = r.sites) (hb : ∀ r, (f r).block = r.block) :
    e.SamePlaces (e.modifyNode n f) := by
  refine ⟨fun _ => rfl, fun m => ?_, rfl⟩
  rw [record?_modifyNode]
  split
  · simp [Function.comp_def, hs, hb]
  · rfl

theorem SamePlaces.modifySite (e : Engine) (s : SiteId) {f : Site → Site}
    (hn : ∀ x, (f x).node = x.node) (hd : ∀ x, (f x).destroyed = x.destroyed) :
    e.SamePlaces (e.modifySite s f) := by
  refine ⟨fun t => ?_, fun _ => rfl, rfl⟩
  rw [site?_modifySite]
  split
  · simp [Function.comp_def, hn, hd]
  · rfl

variable {e'' : Engine}

theorem SamePlaces.trans (h : e.SamePlaces e') (h' : e'.SamePlaces e'') : e.SamePlaces e'' :=
  ⟨fun t => (h'.sites t).trans (h.sites t), fun n => (h'.records n).trans (h.records n),
    h'.blocks.trans h.blocks⟩

theorem SamePlaces.symm (h : e.SamePlaces e') : e'.SamePlaces e :=
  ⟨fun t => (h.sites t).symm, fun n => (h.records n).symm, h.blocks.symm⟩

theorem Lives.of_same (h : e.SamePlaces e') (ht : e.Lives t n) : e'.Lives t n := by
  obtain ⟨x, hx, hlive, hn⟩ := ht
  have hsame := h.sites t
  rw [hx] at hsame
  obtain ⟨y, hy, hxy⟩ := Option.map_eq_some_iff.1 hsame
  obtain ⟨hnode, hdestroyed⟩ := Prod.mk.inj hxy
  exact ⟨y, hy, hdestroyed.trans hlive, hnode.trans hn⟩

theorem record?_of_same (h : e.SamePlaces e') {r : NodeRecord} (hr : e.record? n = some r) :
    ∃ r', e'.record? n = some r' ∧ r'.sites = r.sites ∧ r'.block = r.block := by
  have hsame := h.records n
  rw [hr] at hsame
  obtain ⟨r', hr', heq⟩ := Option.map_eq_some_iff.1 hsame
  exact ⟨r', hr', (Prod.mk.inj heq).1, (Prod.mk.inj heq).2⟩

theorem Lists.of_same (h : e.SamePlaces e') (ht : e.Lists n t) : e'.Lists n t := by
  obtain ⟨r, hr, hmem⟩ := ht
  obtain ⟨r', hr', hsites, -⟩ := record?_of_same h hr
  exact ⟨r', hr', hsites ▸ hmem⟩

theorem Boxes.of_same (h : e.SamePlaces e') (ht : e.Boxes n b) : e'.Boxes n b := by
  obtain ⟨r, hr, hblock⟩ := ht
  obtain ⟨r', hr', -, heq⟩ := record?_of_same h hr
  exact ⟨r', hr', heq.trans hblock⟩

theorem stands_congr (hb : e'.blocks = e.blocks) : e'.Stands b n ↔ e.Stands b n := by
  unfold Stands block?
  rw [hb]

theorem boxes_congr (hn : e'.nodes = e.nodes) : e'.Boxes n b ↔ e.Boxes n b := by
  unfold Boxes record?
  rw [hn]

theorem lives_congr (hs : e'.sites = e.sites) : e'.Lives t n ↔ e.Lives t n := by
  unfold Lives site?
  rw [hs]

theorem lists_congr (hn : e'.nodes = e.nodes) : e'.Lists n t ↔ e.Lists n t := by
  unfold Lists record?
  rw [hn]

theorem Homes.of_same (h : e.Homes l) (hs : e.SamePlaces e') : e'.Homes l := by
  refine ⟨fun t n ht => ?_, fun n t ht => ?_, fun b n => ?_, ?_⟩
  · exact (h.sites t n (ht.of_same hs.symm)).imp (·.of_same hs) id
  · exact (h.listed n t (ht.of_same hs.symm)).of_same hs
  · rw [stands_congr hs.blocks, h.blocks]
    exact or_congr ⟨(·.of_same hs), (·.of_same hs.symm)⟩ Iff.rfl
  · rw [hs.blocks]
    exact h.spare

theorem Homes.of_records (h : e.Homes l) (hs : e'.sites = e.sites) (hb : e'.blocks = e.blocks)
    (hlists : ∀ n t, e'.Lists n t ↔ e.Lists n t) (hboxes : ∀ n b, e'.Boxes n b ↔ e.Boxes n b) :
    e'.Homes l := by
  refine ⟨fun t n ht => ?_, fun n t ht => ?_, fun b n => ?_, ?_⟩
  · rw [hlists]
    exact h.sites t n ((lives_congr hs).1 ht)
  · exact (lives_congr hs).2 (h.listed n t ((hlists n t).1 ht))
  · rw [stands_congr hb, hboxes]
    exact h.blocks b n
  · rw [hb]
    exact h.spare

theorem Homes.start (h : e.Homes l) (hn : e.record? n = none) (path : String) (span : Span) :
    ({ e with nodes := e.nodes.insert n { path, span } } : Engine).Homes l := by
  refine h.of_records rfl rfl (fun m t => ?_) fun m b => ?_
  · unfold Lists
    rw [record?_insert]
    split
    · next he =>
      subst he
      simp [hn]
    · rfl
  · unfold Boxes
    rw [record?_insert]
    split
    · next he =>
      subst he
      simp [hn]
    · rfl

theorem Homes.lift {r : NodeRecord} (h : e.Homes none) (hr : e.record? n = some r) :
    ({ e with nodes := e.nodes.erase n } : Engine).Homes (some (n, r)) := by
  have hrecord : ∀ m, n ≠ m →
      ({ e with nodes := e.nodes.erase n } : Engine).record? m = e.record? m := fun m hm => by
    rw [record?_erase, if_neg hm]
  refine ⟨fun t m ht => ?_, fun m t ⟨x, hx, ht⟩ => ?_, fun b m => ?_, h.spare⟩
  · obtain ⟨x, hx, hmem⟩ := (h.sites t m ht).resolve_right (by simp)
    by_cases hm : n = m
    · subst hm
      exact Or.inr ⟨r, rfl, Option.some.inj (hr.symm.trans hx) ▸ hmem⟩
    · exact Or.inl ⟨x, (hrecord m hm).trans hx, hmem⟩
  · rw [record?_erase] at hx
    split at hx
    · cases hx
    · exact h.listed m t ⟨x, hx, ht⟩
  · refine (h.blocks b m).trans ?_
    by_cases hm : n = m
    · subst hm
      simp [Boxes, record?_erase, hr]
    · simp [Boxes, record?_erase, hm]

theorem Homes.clearSite {r : NodeRecord} {rest : List SiteId} (h : e.Homes (some (n, r)))
    (hs : r.sites.toList = s :: rest) (hdead : e.isLive s = false) :
    e.Homes (some (n, { r with sites := ⟨rest⟩ })) := by
  refine ⟨fun t m ht => (h.sites t m ht).imp id ?_, h.listed, fun b m => (h.blocks b m).trans ?_,
    h.spare⟩
  · rintro ⟨r', heq, hmem⟩
    cases heq
    refine ⟨_, rfl, ?_⟩
    rw [hs] at hmem
    refine (List.mem_cons.1 hmem).resolve_left ?_
    rintro rfl
    obtain ⟨x, hx, hlive, -⟩ := ht
    simp [isLive, hx, hlive] at hdead
  · simp

theorem Homes.relift {r r' : NodeRecord} (h : e.Homes (some (n, r))) (hs : r'.sites = r.sites)
    (hb : r'.block = r.block) : e.Homes (some (n, r')) := by
  refine ⟨fun t m ht => ?_, h.listed, fun b m => (h.blocks b m).trans ?_, h.spare⟩
  · simpa [hs] using h.sites t m ht
  · simp [hb]

theorem Homes.putDown {r : NodeRecord} (h : e.Homes (some (n, r))) (hs : r.sites = {})
    (hb : r.block = none) : e.Homes none := by
  refine ⟨fun t m ht => Or.inl ?_, h.listed, fun b m => (h.blocks b m).trans ?_, h.spare⟩
  · refine (h.sites t m ht).resolve_right ?_
    rintro ⟨r', heq, hmem⟩
    cases heq
    rw [hs] at hmem
    cases hmem
  · simp [hb]

theorem boxes_modifyNode {f : NodeRecord → NodeRecord} (hf : ∀ r, (f r).block = r.block) :
    (e.modifyNode m f).Boxes n b ↔ e.Boxes n b := by
  unfold Boxes
  rw [record?_modifyNode]
  split
  · simp [hf]
  · rfl

theorem Homes.place {y : Site} (h : e.Homes l)
    (hdead : ∀ x, e.site? s = some x → x.destroyed = true) (hy : y.destroyed = false)
    (hr : ∃ r, e.record? y.node = some r)
    (hsites : ∀ t, e'.site? t = if s = t then some y else e.site? t)
    (hnodes : e'.nodes = (e.modifyNode y.node fun r => { r with sites := r.sites.insert s }).nodes)
    (hblocks : e'.blocks = e.blocks) : e'.Homes l := by
  have hrecord : ∀ m, e'.record? m = (e.modifyNode y.node fun r =>
      { r with sites := r.sites.insert s }).record? m := fun m => by
    unfold record?
    rw [hnodes]
  have hgrows : ∀ m t, e.Lists m t → e'.Lists m t := by
    rintro m t ⟨r, hm, ht⟩
    unfold Lists
    rw [hrecord, record?_modifyNode]
    split
    · exact ⟨_, by rw [hm]; rfl, OrderedSet.mem_insert.2 (Or.inl ht)⟩
    · exact ⟨r, hm, ht⟩
  refine ⟨fun t m => ?_, fun m t => ?_, fun b m => ?_, ?_⟩
  · rintro ⟨x, hx, hlive, hm⟩
    rw [hsites] at hx
    split at hx
    · next he =>
      subst he
      cases hx
      obtain ⟨r, hr⟩ := hr
      refine Or.inl ⟨{ r with sites := r.sites.insert s }, ?_,
        OrderedSet.mem_insert.2 (Or.inr rfl)⟩
      rw [hrecord, record?_modifyNode, if_pos hm, ← hm, hr]
      rfl
    · exact (h.sites t m ⟨x, hx, hlive, hm⟩).imp (hgrows m t) id
  · rintro ⟨r, hm, ht⟩
    rw [hrecord, record?_modifyNode] at hm
    have hold : e.Lists m t → e'.Lives t m := fun hlists => by
      obtain ⟨x, hx, hlive, hxm⟩ := h.listed m t hlists
      refine ⟨x, ?_, hlive, hxm⟩
      rw [hsites, if_neg]
      · exact hx
      · rintro rfl
        exact absurd hlive (by simp [hdead x hx])
    split at hm
    · next he =>
      obtain ⟨r0, hr0, rfl⟩ := Option.map_eq_some_iff.1 hm
      rcases OrderedSet.mem_insert.1 ht with ht | rfl
      · exact hold ⟨r0, hr0, ht⟩
      · exact ⟨y, by rw [hsites, if_pos rfl], hy, he⟩
    · exact hold ⟨r, hm, ht⟩
  · rw [stands_congr hblocks, boxes_congr hnodes, boxes_modifyNode]
    · exact h.blocks b m
    · exact fun _ => rfl
  · rw [hblocks]
    exact h.spare

theorem Homes.destroy {x : Site} {f : Site → Site} (h : e.Homes l) (hx : e.site? s = some x)
    (hlive : x.destroyed = false) (hf : ∀ x, (f x).destroyed = true)
    (hsites : e'.sites = (e.modifySite s f).sites)
    (hnodes : e'.nodes = (e.modifyNode x.node fun r => { r with sites := r.sites.erase s }).nodes)
    (hblocks : e'.blocks = e.blocks) : e'.Homes l := by
  have hsite : ∀ t, e'.site? t = if s = t then (e.site? t).map f else e.site? t := fun t => by
    rw [← site?_modifySite]
    unfold site?
    rw [hsites]
  have hrecord : ∀ m, e'.record? m = (e.modifyNode x.node fun r =>
      { r with sites := r.sites.erase s }).record? m := fun m => by
    unfold record?
    rw [hnodes]
  refine ⟨fun t m => ?_, fun m t => ?_, fun b m => ?_, ?_⟩
  · rintro ⟨y, hy, hylive, hm⟩
    rw [hsite] at hy
    split at hy
    · obtain ⟨z, -, rfl⟩ := Option.map_eq_some_iff.1 hy
      simp [hf] at hylive
    · next hne =>
      refine (h.sites t m ⟨y, hy, hylive, hm⟩).imp ?_ id
      rintro ⟨r, hr, ht⟩
      unfold Lists
      rw [hrecord, record?_modifyNode]
      split
      · exact ⟨_, by rw [hr]; rfl, OrderedSet.mem_erase.2 ⟨ht, fun he => hne he.symm⟩⟩
      · exact ⟨r, hr, ht⟩
  · rintro ⟨r, hm, ht⟩
    rw [hrecord, record?_modifyNode] at hm
    have hold : e.Lists m t → s ≠ t → e'.Lives t m := fun hlists hne => by
      obtain ⟨y, hy, hylive, hym⟩ := h.listed m t hlists
      exact ⟨y, by rw [hsite, if_neg hne]; exact hy, hylive, hym⟩
    split at hm
    · obtain ⟨r0, hr0, rfl⟩ := Option.map_eq_some_iff.1 hm
      obtain ⟨ht, hne⟩ := OrderedSet.mem_erase.1 ht
      exact hold ⟨r0, hr0, ht⟩ hne.symm
    · next hne =>
      refine hold ⟨r, hm, ht⟩ ?_
      rintro rfl
      exact hne (lives_unique ⟨x, hx, hlive, rfl⟩ (h.listed m s ⟨r, hm, ht⟩))
  · rw [stands_congr hblocks, boxes_congr hnodes, boxes_modifyNode]
    · exact h.blocks b m
    · exact fun _ => rfl
  · rw [hblocks]
    exact h.spare

theorem Homes.reclaim (h : e.Homes l) : e.reclaim.2.Homes l := by
  unfold Engine.reclaim
  split
  · have hperm := e.blocks.perm_sweep Option.isNone
    exact ⟨h.sites, h.listed, h.blocks, hperm.nodup_iff.2 h.spare.1,
      fun i hi => h.spare.2 i (hperm.mem_iff.1 hi)⟩
  · exact h

theorem block?_eq_some_iff {x : Block} :
    e.block? b = some x ↔ e.blocks.get? b.index = some (some x) :=
  Option.join_eq_some_iff

theorem Homes.spare_lt (h : e.Homes l) :
    ∀ i ∈ e.blocks.released ++ e.blocks.free, i < e.blocks.size :=
  fun i hi => Slots.lt_size_of_get? (h.spare.2 i hi)

theorem Homes.addBlock_spec (h : e.Homes l) (x : Block) :
    e.block? (e.addBlock x).1 = none ∧ ∀ b,
      (e.addBlock x).2.block? b = if (e.addBlock x).1 = b then some x else e.block? b := by
  constructor
  · show (e.blocks.get? (e.blocks.alloc (some x)).1).join = none
    rcases e.blocks.alloc_index (some x) with hi | hi
    · rw [h.spare.2 _ (List.mem_append_right _ hi)]
      rfl
    · rw [hi, Slots.get?_eq_none_iff.2 (Nat.le_refl _)]
      rfl
  · intro b
    show ((e.blocks.alloc (some x)).2.get? b.index).join = _
    rw [Slots.get?_alloc fun i hi => h.spare_lt i (List.mem_append_right _ hi)]
    have hiff : (e.blocks.alloc (some x)).1 = b.index ↔ (e.addBlock x).1 = b := by
      cases b
      exact BlockId.mk.injEq _ _ ▸ Iff.rfl
    simp only [hiff]
    split <;> rfl

theorem Homes.installBlock {x : Block} {r : NodeRecord} (h : e.Homes l)
    (hr : e.record? x.node = some r) (hb : r.block = none) (returns : List NodeId) :
    (e.installBlock x returns).Homes l := by
  obtain ⟨hnone, hblock⟩ := h.addBlock_spec x
  obtain ⟨hrel, hfree, -, hne⟩ := Slots.slots_alloc h.spare.1 h.spare_lt (some x)
  have hrecord : ∀ m, (e.installBlock x returns).record? m = if x.node = m then
      (e.record? m).map fun r => { r with returns, block := some (e.addBlock x).1 }
      else e.record? m := fun m => by
    unfold Engine.installBlock
    rw [record?_modifyNode, record?_modifyNode]
    split
    · rw [Option.map_map]
      rfl
    · rfl
  have hlists : ∀ m t, (e.installBlock x returns).Lists m t ↔ e.Lists m t := fun m t => by
    unfold Lists
    rw [hrecord]
    split
    · simp
    · rfl
  have hstands : ∀ b m, (e.installBlock x returns).Stands b m ↔
      ((e.addBlock x).1 = b ∧ x.node = m) ∨ e.Stands b m := fun b m => by
    have hget : (e.installBlock x returns).block? b = _ := hblock b
    unfold Stands
    rw [hget]
    split
    · next he => simp [← he, hnone]
    · next he => simp [he]
  have hboxes : ∀ b m, (e.installBlock x returns).Boxes m b ↔
      ((e.addBlock x).1 = b ∧ x.node = m) ∨ e.Boxes m b := fun b m => by
    unfold Boxes
    rw [hrecord]
    split
    · next he => simp [← he, hr, hb]
    · next he => simp [he]
  refine ⟨fun t m ht => ?_, fun m t ht => h.listed m t ((hlists m t).1 ht), fun b m => ?_, ?_, ?_⟩
  · rw [hlists]
    exact h.sites t m ht
  · rw [hstands, hboxes, h.blocks, or_assoc]
  · show ((e.blocks.alloc (some x)).2.released ++ (e.blocks.alloc (some x)).2.free).Nodup
    rw [hrel, hfree]
    exact h.spare.1.sublist ((List.tail_sublist _).append_left _)
  · show ∀ i ∈ (e.blocks.alloc (some x)).2.released ++ (e.blocks.alloc (some x)).2.free,
      (e.blocks.alloc (some x)).2.get? i = some none
    rw [hrel, hfree]
    intro i hi
    rw [Slots.get?_alloc (fun i hi => h.spare_lt i (List.mem_append_right _ hi)), if_neg (hne i hi)]
    exact h.spare.2 i (((List.tail_sublist _).append_left _).subset hi)

theorem Homes.removeBlock {r : NodeRecord} (h : e.Homes (some (n, r))) (hn : e.record? n = none) :
    (r.block.elim e e.removeBlock).Homes (some (n, { r with block := none })) := by
  cases hb : r.block with
  | none => exact h.relift rfl hb.symm
  | some b0 =>
    obtain ⟨x, hx, hxn⟩ := (h.blocks b0 n).2 (Or.inr ⟨r, rfl, hb⟩)
    have hremove : e.removeBlock b0 =
        { e with blocks := (e.blocks.set b0.index none).release b0.index } := by
      unfold Engine.removeBlock
      rw [if_pos (by rw [hx]; rfl)]
    have hget : ∀ i, (e.removeBlock b0).blocks.get? i =
        if b0.index = i then some none else e.blocks.get? i := fun i => by
      rw [hremove]
      show ((e.blocks.set b0.index none).release b0.index).get? i = _
      rw [Slots.get?_release, Slots.set, Slots.get?_modify]
      split
      · next he => rw [← he, block?_eq_some_iff.1 hx]; rfl
      · rfl
    have hnot : b0.index ∉ e.blocks.released ++ e.blocks.free := fun hmem => by
      have hspare := h.spare.2 _ hmem
      rw [block?_eq_some_iff.1 hx] at hspare
      cases hspare
    have hstands : ∀ b m, (e.removeBlock b0).Stands b m ↔ b0 ≠ b ∧ e.Stands b m := fun b m => by
      unfold Stands block?
      rw [hget]
      have hiff : b0.index = b.index ↔ b0 = b := by
        cases b0
        cases b
        exact BlockId.mk.injEq _ _ ▸ Iff.rfl
      simp only [hiff]
      split
      · next he => simp [he]
      · next he => simp [he]
    have hsites : (e.removeBlock b0).sites = e.sites := by rw [hremove]
    have hnodes : (e.removeBlock b0).nodes = e.nodes := by rw [hremove]
    have hgiven : (e.removeBlock b0).blocks.released ++ (e.removeBlock b0).blocks.free =
        e.blocks.released ++ b0.index :: e.blocks.free := by
      rw [hremove]
      exact List.append_assoc _ _ _
    show (e.removeBlock b0).Homes _
    refine ⟨fun t m ht => ?_, fun m t ht => ?_, fun b m => ?_, ?_, fun i hi => ?_⟩
    · rw [lists_congr hnodes]
      refine (h.sites t m ((lives_congr hsites).1 ht)).imp id ?_
      rintro ⟨r', heq, ht⟩
      cases heq
      exact ⟨_, rfl, ht⟩
    · exact (lives_congr hsites).2 (h.listed m t ((lists_congr hnodes).1 ht))
    · rw [hstands, h.blocks, boxes_congr hnodes]
      constructor
      · rintro ⟨hne, hbox | ⟨r', heq, hr'⟩⟩
        · exact Or.inl hbox
        · cases heq
          exact absurd (Option.some.inj (hb.symm.trans hr')) hne
      · rintro (hbox | ⟨r', heq, hr'⟩)
        · refine ⟨?_, Or.inl hbox⟩
          rintro rfl
          have hm := stands_unique ((h.blocks b0 m).2 (Or.inl hbox)) ⟨x, hx, hxn⟩
          obtain ⟨y, hy, -⟩ := hbox
          rw [hm, hn] at hy
          cases hy
        · cases heq
          cases hr'
    · rw [hgiven, List.nodup_middle, List.nodup_cons]
      exact ⟨hnot, h.spare.1⟩
    · rw [hget]
      split
      · rfl
      · next hne =>
        rw [hgiven, List.mem_append, List.mem_cons] at hi
        refine h.spare.2 i (List.mem_append.2 (hi.imp id fun hi => hi.resolve_left ?_))
        exact fun he => hne he.symm

theorem Homes.adoptNode {record : NodeRecord} {old : NodeId} {new : Node} (h : e.Homes none)
    (hr : e.record? old = some record)
    (hnew : e.record? new.id = none) (path : String) (rename : NodeId → NodeId) :
    (e.adoptNode path rename new old).Homes none := by
  obtain ⟨record', hinherits, hrecord⟩ := record?_adoptNode hr path rename new
  have hmine : ∀ t, t ∈ record.sites.toList → e.Lives t old := fun t ht => h.listed old t ⟨_, hr,
    ht⟩
  have hlives : ∀ t m, (e.adoptNode path rename new old).Lives t m ↔
      (t ∈ record.sites.toList ∧ new.id = m) ∨ (t ∉ record.sites.toList ∧ e.Lives t m) := by
    intro t m
    unfold Lives
    rw [site?_adoptNode hr]
    by_cases ht : t ∈ record.sites.toList
    · have hcount : record.sites.toList.count t ≠ 0 := fun hc => List.count_eq_zero.1 hc ht
      obtain ⟨x, hx, hlive, -⟩ := hmine t ht
      simp [ht, hx, hcount, relabel_iterate, hlive]
    · rw [List.count_eq_zero.2 ht]
      simp [ht]
  have hlists : ∀ m t, (e.adoptNode path rename new old).Lists m t ↔
      (t ∈ record.sites.toList ∧ new.id = m) ∨ (t ∉ record.sites.toList ∧ e.Lists m t) := by
    intro m t
    unfold Lists
    rw [hrecord]
    by_cases hm : new.id = m
    · simp [← hm, hinherits.sites, hnew]
    · by_cases ho : old = m
      · subst ho
        simp [hm, hr]
      · rw [if_neg hm, if_neg ho]
        simp only [hm, and_false, false_or]
        refine ⟨fun ht => ⟨fun hmem => ho ?_, ht⟩, And.right⟩
        exact lives_unique (hmine t hmem) (h.listed m t ht)
  have hstands : ∀ b m, (e.adoptNode path rename new old).Stands b m ↔
      (record.block = some b ∧ new.id = m) ∨ (record.block ≠ some b ∧ e.Stands b m) := by
    intro b m
    unfold Stands
    rw [block?_adoptNode hr]
    by_cases hb : record.block = some b
    · obtain ⟨x, hx, -⟩ := (h.blocks b old).2 (Or.inl ⟨_, hr, hb⟩)
      simp [hb, hx]
    · simp [hb]
  have hboxes : ∀ b m, (e.adoptNode path rename new old).Boxes m b ↔
      (record.block = some b ∧ new.id = m) ∨ (record.block ≠ some b ∧ e.Boxes m b) := by
    intro b m
    unfold Boxes
    rw [hrecord]
    by_cases hm : new.id = m
    · simp [← hm, hinherits.block, hnew]
    · by_cases ho : old = m
      · subst ho
        simp [hm, hr]
      · rw [if_neg hm, if_neg ho]
        simp only [hm, and_false, false_or]
        refine ⟨fun ht => ⟨fun hmem => ho ?_, ht⟩, And.right⟩
        exact stands_unique ((h.blocks b old).2 (Or.inl ⟨_, hr, hmem⟩))
          ((h.blocks b m).2 (Or.inl ht))
  refine ⟨fun t m => ?_, fun m t => ?_, fun b m => ?_, ?_⟩
  · rw [hlives, hlists]
    exact fun ht => Or.inl (ht.imp id fun ht => ⟨ht.1, (h.sites t m ht.2).resolve_right (by simp)⟩)
  · rw [hlives, hlists]
    exact Or.imp id fun ht => ⟨ht.1, h.listed m t ht.2⟩
  · rw [hstands, hboxes, h.blocks]
    simp
  · have hget : ∀ i, e.blocks.get? i = some none →
        (e.adoptNode path rename new old).blocks.get? i = some none := fun i hi => by
      rw [blocks_adoptNode hr]
      cases record.block with
      | none => exact hi
      | some b =>
        show (e.blocks.modify b.index _).get? i = _
        rw [Slots.get?_modify, hi]
        simp
    have hgiven : (e.adoptNode path rename new old).blocks.released ++
        (e.adoptNode path rename new old).blocks.free = e.blocks.released ++ e.blocks.free := by
      rw [blocks_adoptNode hr]
      cases record.block <;> rfl
    rw [hgiven]
    exact ⟨h.spare.1, fun i hi => hget i (h.spare.2 i hi)⟩

end Engine

end Places

section Calls

structure Task.Housed (r : Roll) (l : Option (NodeId × NodeRecord)) (t : Task) : Prop where
  home : ∀ n, t.home = some n → n ∈ r.keys ∧ l = none
  asks : ∀ x ∈ t.asks, x.2.1 ∈ r.keys
  pending : ∀ x ∈ t.effects.pending.sites.values, x.1 ∈ r.keys

structure State.Homed (r : Roll) (s : State) : Prop where
  keys : ∀ n, n ∈ r.keys ↔ ∃ x, s.engine.record? n = some x
  homes : s.engine.Homes s.progress.lifted
  once : (s.progress.opened.map Opening.node).Nodup
  opened : ∀ o ∈ s.progress.opened, o.node ∈ r.young ∧
    (o.blocked = false → ∀ x, s.engine.record? o.node = some x → x.block = none)
  lifted : ∀ x, s.progress.lifted = some x → x.1 ∉ r.keys
  tasks : ∀ t ∈ s.tasks, t.Housed r s.progress.lifted

namespace State

variable {r : Roll} {s s' : State} {e e' : Engine} {ts : List Task} {t t' : Task} {d d' : Progress}
variable {ts' : List Task} {n : NodeId} {r' : Roll} {x : NodeRecord}

theorem Homed.renew (h : Homed r ⟨e, ts, d⟩)
    (hb : ∀ n, (e'.record? n).map NodeRecord.block = (e.record? n).map NodeRecord.block)
    (hh : e'.Homes d'.lifted) (ho : d'.opened.Sublist d.opened)
    (hl : ∀ x, d'.lifted = some x → x.1 ∉ r.keys) (ht : ∀ t ∈ ts', t.Housed r d'.lifted) :
    Homed r ⟨e', ts', d'⟩ where
  keys n := by
    have hsome := congrArg Option.isSome (hb n)
    rw [Option.isSome_map, Option.isSome_map, Bool.eq_iff_iff, Option.isSome_iff_exists,
      Option.isSome_iff_exists] at hsome
    exact (h.keys n).trans hsome.symm
  homes := hh
  once := h.once.sublist (ho.map _)
  opened o hmem := by
    refine ⟨(h.opened o (ho.subset hmem)).1, fun hfree x hx => ?_⟩
    have hblock := hb o.node
    rw [show e'.record? o.node = some x from hx] at hblock
    obtain ⟨y, hy, hxy⟩ := Option.map_eq_some_iff.1 hblock.symm
    exact hxy.symm.trans ((h.opened o (ho.subset hmem)).2 hfree y hy)
  lifted := hl
  tasks := ht

theorem Homed.change (h : Homed r ⟨e, ts, d⟩) (hp : e.SamePlaces e')
    (hl : d'.lifted = d.lifted) (ho : d'.opened.Sublist d.opened)
    (ht : ∀ t ∈ ts', t.Housed r d.lifted) : Homed r ⟨e', ts', d'⟩ := by
  refine h.renew (fun n => ?_) ?_ ho (fun x hx => h.lifted x (hl ▸ hx)) (hl ▸ ht)
  · have hsame := congrArg (Option.map Prod.snd) (hp.records n)
    simpa [Function.comp_def] using hsame
  · rw [hl]
    exact h.homes.of_same hp

theorem Homed.top (h : Homed r ⟨e, t :: ts, d⟩) (hh : t'.home = t.home) (ha : t'.asks = t.asks)
    (hp : ∀ x ∈ t'.effects.pending.sites.values,
      x ∈ t.effects.pending.sites.values ∨ x.1 ∈ r.keys) :
    ∀ u ∈ t' :: ts, u.Housed r d.lifted := by
  obtain ⟨htop, hrest⟩ := List.forall_mem_cons.1 h.tasks
  refine List.forall_mem_cons.2 ⟨⟨?_, ?_, fun x hx => ?_⟩, hrest⟩
  · rw [hh]
    exact htop.home
  · rw [ha]
    exact htop.asks
  · exact (hp x hx).elim (htop.pending x) id

theorem Homed.onTop (h : Homed r ⟨e, t :: ts, d⟩) (hstock : e.SameStock e')
    (hh : t'.home = t.home) (ha : t'.asks = t.asks) (hp : ∀ x ∈ t'.effects.pending.sites.values,
      x ∈ t.effects.pending.sites.values ∨ x.1 ∈ r.keys) : Homed r ⟨e', t' :: ts, d⟩ :=
  h.change hstock.places rfl (List.Sublist.refl _) (h.top hh ha hp)

theorem Homed.rest (h : Homed r ⟨e, t :: ts, d⟩) : ∀ u ∈ ts, u.Housed r d.lifted :=
  (List.forall_mem_cons.1 h.tasks).2

theorem Homed.keep (h : Homed r ⟨e, ts, d⟩) (hp : e.SamePlaces e') : Homed r ⟨e', ts, d⟩ :=
  h.change hp rfl (List.Sublist.refl _) h.tasks

theorem housed_idle (w : Work) (fx : Effects) (l : Option (NodeId × NodeRecord)) :
    Task.Housed r l { work := w, effects := fx.discard } where
  home _ hn := by cases hn
  asks _ hx := absurd hx List.not_mem_nil
  pending _ hx := absurd hx List.not_mem_nil

theorem Homed.mem_keys_of_opens (h : Homed r ⟨e, ts, d⟩) (hy : r.young ⊆ r.keys)
    (hn : d.Opens n) : n ∈ r.keys := by
  obtain ⟨o, ho, rfl⟩ := hn
  exact hy (h.opened o ho).1

theorem Homed.start (h : Homed r ⟨e, [], d⟩) (hy : r.young ⊆ r.keys)
    (hr : r.step (.start n) = some r') (hl : d.lifted = none) (path : String) (span : Span) :
    Homed r' ⟨{ e with nodes := e.nodes.insert n { path, span } }, [],
      { d.note (.start n) with opened := ⟨n, false⟩ :: d.opened }⟩ := by
  obtain ⟨hn, rfl⟩ := Roll.step_start hr
  have hnone : e.record? n = none := Option.eq_none_iff_forall_not_mem.2 fun x hx =>
    hn ((h.keys n).2 ⟨x, hx⟩)
  refine ⟨fun m => ?_, h.homes.start hnone path span, ?_, ?_, ?_, ?_⟩
  · show m ∈ insert n r.keys ↔ _
    rw [Finset.mem_insert, h.keys, Engine.record?_insert]
    by_cases hm : n = m
    · simp [hm]
    · simp [hm, Ne.symm hm]
  · refine List.nodup_cons.2 ⟨fun hmem => ?_, h.once⟩
    obtain ⟨o, ho, hon⟩ := List.mem_map.1 hmem
    exact hn (h.mem_keys_of_opens hy ⟨o, ho, hon⟩)
  · refine List.forall_mem_cons.2 ⟨⟨Finset.mem_insert_self _ _, fun _ x hx => ?_⟩, fun o ho =>
      ⟨Finset.mem_insert_of_mem (h.opened o ho).1, fun hb x hx => ?_⟩⟩
    · rw [Engine.record?_insert, if_pos rfl] at hx
      cases hx
      rfl
    · rw [Engine.record?_insert] at hx
      split at hx
      · cases hx
        rfl
      · exact (h.opened o ho).2 hb x hx
  · intro x hx
    rw [show d.lifted = some x from hx] at hl
    cases hl
  · exact fun t ht => absurd ht List.not_mem_nil

theorem Homed.adopt {old : NodeId} {new : Node} (h : Homed r ⟨e, [], d⟩)
    (hr : r.step (.adopt new.id old) = some r') (hy : r.young ⊆ r.keys) (hl : d.lifted = none)
    (path : String) (rename : NodeId → NodeId) :
    Homed r' ⟨e.adoptNode path rename new old, [], d.note (.adopt new.id old)⟩ := by
  obtain ⟨⟨hold, hyoung, hnew⟩, rfl⟩ := Roll.step_adopt hr
  obtain ⟨record, hrecord⟩ := (h.keys old).1 hold
  have hnone : e.record? new.id = none := Option.eq_none_iff_forall_not_mem.2 fun x hx =>
    hnew ((h.keys _).2 ⟨x, hx⟩)
  obtain ⟨record', -, hget⟩ := Engine.record?_adoptNode hrecord path rename new
  have hhomes : e.Homes none := hl ▸ h.homes
  refine ⟨fun m => ?_, ?_, h.once, fun o ho => ⟨(h.opened o ho).1, fun hb x hx => ?_⟩, ?_, ?_⟩
  · show m ∈ insert new.id (r.keys.erase old) ↔ _
    rw [Finset.mem_insert, Finset.mem_erase, h.keys, hget]
    by_cases hm : new.id = m
    · simp [hm]
    · by_cases ho : old = m
      · simp [hm, ho, Ne.symm hm]
      · simp [hm, ho, Ne.symm hm, Ne.symm ho]
  · show (e.adoptNode path rename new old).Homes d.lifted
    rw [hl]
    exact hhomes.adoptNode hrecord hnone path rename
  · have hmem := (h.opened o ho).1
    rw [hget, if_neg, if_neg] at hx
    · exact (h.opened o ho).2 hb x hx
    · rintro rfl
      exact hyoung hmem
    · intro he
      exact hnew (he ▸ hy hmem)
  · intro x hx
    rw [show d.lifted = some x from hx] at hl
    cases hl
  · exact fun t ht => absurd ht List.not_mem_nil

theorem Homed.mem_keys_of_lists {u : SiteId} (h : Homed r ⟨e, ts, d⟩)
    (hn : e.Lists n u) : n ∈ r.keys := by
  obtain ⟨x, hx, -⟩ := hn
  exact (h.keys n).2 ⟨x, hx⟩

theorem Homed.mem_keys_of_reaches (h : Homed r ⟨e, t :: ts, d⟩) (ht : t.home ≠ none)
    (hn : t.Reaches e n) : n ∈ r.keys := by
  obtain ⟨m, hm⟩ := Option.ne_none_iff_exists'.1 ht
  obtain ⟨hkey, hl⟩ := (h.tasks t List.mem_cons_self).home m hm
  rcases hn with hn | ⟨b, x, hb⟩
  · rw [hm] at hn
    exact Option.some.inj hn ▸ hkey
  · obtain ⟨y, hy, -⟩ := ((h.homes.blocks b n).1 ⟨x, hb⟩).resolve_right
      fun ⟨_, he, _⟩ => absurd (hl.symm.trans he) (by simp)
    exact (h.keys n).2 ⟨y, hy⟩

theorem Homed.settle (h : Homed r ⟨e, [], d⟩) (ho : d.opened = []) (event : Event) :
    Homed { r with young := ∅ } ⟨e, [], d.note event⟩ :=
  ⟨h.keys, h.homes, h.once, fun o hmem => absurd (show o ∈ d.opened from hmem) (by simp [ho]),
    h.lifted, fun t ht => absurd ht List.not_mem_nil⟩

theorem Homed.lift (h : Homed r ⟨e, [], d⟩)
    (hx : e.record? n = some x) (hl : d.lifted = none) (ho : d.opened = []) :
    Homed ⟨r.keys.erase n, ∅⟩ ⟨{ e with nodes := e.nodes.erase n }, [],
      { d.note (.drop n) with lifted := some (n, x) }⟩ := by
  have hhomes : e.Homes none := hl ▸ h.homes
  refine ⟨fun m => ?_, hhomes.lift hx, h.once, ?_, ?_, ?_⟩
  · rw [Finset.mem_erase, h.keys, Engine.record?_erase]
    by_cases hm : n = m
    · simp [hm]
    · simp [hm, Ne.symm hm]
  · exact fun o hmem => absurd (show o ∈ d.opened from hmem) (by simp [ho])
  · rintro y hy
    cases hy
    exact Finset.notMem_erase n _
  · exact fun t ht => absurd ht List.not_mem_nil

theorem Homed.installBlock {b : Block} {rest : List Opening} (h : Homed r ⟨e, ts, d⟩)
    (hy : r.young ⊆ r.keys) (ho : d.opened = ⟨b.node, false⟩ :: rest) (returns : List NodeId) :
    Homed r ⟨e.installBlock b returns, ts, { d with opened := ⟨b.node, true⟩ :: rest }⟩ := by
  have hfront : (⟨b.node, false⟩ : Opening) ∈ d.opened := ho ▸ List.mem_cons_self
  obtain ⟨x, hx⟩ := (h.keys _).1 (hy (h.opened _ hfront).1)
  have hrecord : ∀ m, b.node ≠ m → (e.installBlock b returns).record? m = e.record? m := by
    intro m hm
    unfold Engine.installBlock
    rw [Engine.record?_modifyNode, if_neg hm, Engine.record?_modifyNode, if_neg hm]
    rfl
  have hsome : ∀ m, (∃ y, (e.installBlock b returns).record? m = some y) ↔
      ∃ y, e.record? m = some y := by
    intro m
    by_cases hm : b.node = m
    · subst hm
      unfold Engine.installBlock
      rw [Engine.record?_modifyNode, Engine.record?_modifyNode]
      simp [show (e.addBlock b).2.record? b.node = e.record? b.node from rfl]
    · rw [hrecord m hm]
  have hnodup : (b.node :: rest.map Opening.node).Nodup := by
    have := h.once
    rwa [show (State.mk e ts d).progress.opened = _ from ho] at this
  refine ⟨fun m => (h.keys m).trans (hsome m).symm,
    h.homes.installBlock hx ((h.opened _ hfront).2 rfl x hx) returns, hnodup, ?_, h.lifted, h.tasks⟩
  refine List.forall_mem_cons.2 ⟨⟨(h.opened _ hfront).1, fun hb => by cases hb⟩, fun o hmem => ?_⟩
  have hold := h.opened o (ho ▸ List.mem_cons_of_mem _ hmem)
  refine ⟨hold.1, fun hb y hy => hold.2 hb y ?_⟩
  rw [← hrecord]
  · exact hy
  · intro he
    exact (List.nodup_cons.1 hnodup).1 (he ▸ List.mem_map_of_mem hmem)

theorem Homed.relift {x' : NodeRecord} (h : Homed r ⟨e, ts, d⟩)
    (hl : d.lifted = some (n, x)) (hn : e'.nodes = e.nodes)
    (hh : e.Homes (some (n, x)) → e.record? n = none → e'.Homes (some (n, x')))
    (ht : ∀ t ∈ ts', t.Housed r (some (n, x'))) :
    Homed r ⟨e', ts', { d with lifted := some (n, x') }⟩ := by
  have hkey : n ∉ r.keys := h.lifted _ hl
  have hnone : e.record? n = none := Option.eq_none_iff_forall_not_mem.2 fun y hy =>
    hkey ((h.keys n).2 ⟨y, hy⟩)
  refine h.renew (fun m => ?_) (hh (hl ▸ h.homes) hnone) (List.Sublist.refl _) ?_ ht
  · unfold Engine.record?
    rw [hn]
  · rintro y hy
    cases hy
    exact hkey

theorem Homed.placeSite {ask : Ask} (h : Homed r ⟨e, t :: ts, d⟩)
    (hs : Sound ⟨e, t :: ts, d⟩) (ha : ask ∈ t.asks) :
    Homed r ⟨(e.placeSite ask.2.1 ask.2.2).2, { t with
      limbo := (e.placeSite ask.2.1 ask.2.2).1 :: t.limbo
      out := (e.placeSite ask.2.1 ask.2.2).1 :: t.out } :: ts, d⟩ := by
  obtain ⟨key, node, rule⟩ := ask
  obtain ⟨-, hdead, -⟩ := hs.machine.filed.toOrderly.alloc_spec { node, rule }
  have hrecord := (h.keys node).1 ((h.tasks t List.mem_cons_self).asks _ ha)
  have hstock : (e.enterSite node rule).2.SameStock (e.placeSite node rule).2 :=
    (Engine.SameStock.post _ _ rule).schedule [_]
  refine h.renew (fun n => ?_) ?_ (List.Sublist.refl _) h.lifted (h.top rfl rfl fun _ => Or.inl)
  · unfold Engine.record?
    rw [hstock.nodes]
    show ((e.modifyNode node _).record? n).map NodeRecord.block = _
    rw [Engine.record?_modifyNode]
    split
    · rw [Option.map_map]
      rfl
    · rfl
  · exact h.homes.place (y := { node, rule }) hdead rfl hrecord
      (Engine.site?_placeSite hs.machine.filed.toOrderly node rule) hstock.nodes hstock.blocks

theorem Homed.destroying {s : SiteId} {x : Site} (h : Homed r ⟨e, ts, d⟩) (hx : e.site? s = some x)
    (hlive : x.destroyed = false) : Homed r ⟨(e.destroying s x).engine,
      { work := .destroy s, effects := x.effects.discard } :: ts, d⟩ := by
  have hstock := Engine.SameStock.unpost s (e.markDestroyed s x) x.rule
  refine h.renew (fun n => ?_) ?_ (List.Sublist.refl _) h.lifted
    (List.forall_mem_cons.2 ⟨housed_idle _ _ _, h.tasks⟩)
  · show ((x.rule.unregister s (e.markDestroyed s x)).record? n).map NodeRecord.block = _
    unfold Engine.record?
    rw [hstock.nodes]
    show ((e.modifyNode x.node _).record? n).map NodeRecord.block = _
    rw [Engine.record?_modifyNode]
    split
    · rw [Option.map_map]
      rfl
    · rfl
  · refine h.homes.destroy (f := fun x => { x with destroyed := true, effects := {} }) hx hlive
      (fun _ => rfl) ?_ hstock.nodes hstock.blocks
    exact Engine.sites_destroying e s x

theorem Homed.move (h : ∀ r, Roll.call s.progress.log = some r → Homed r s) (hs : s.Sound)
    (hm : Move s s') (hr : Roll.call s'.progress.log = some r) : Homed r s' := by
  have hnil : ∀ {l}, ∀ t ∈ ([] : List Task), t.Housed r l :=
    fun t ht => absurd ht List.not_mem_nil
  cases hm with
  | aside hq => exact (h r hr).keep (.of_eq hq.sites hq.nodes hq.blocks)
  | newVertex label => exact (h r hr).keep (Engine.SameStock.newVertex _ _ _).places
  | source hk => exact (h r hr).keep (Engine.SameStock.source _ _).places
  | sweep ho =>
    obtain ⟨r0, hr0, hstep⟩ := Roll.call_snoc.1 hr
    cases hstep
    have hsettled := (h r0 hr0).settle ho .sweep
    refine hsettled.renew (fun n => ?_) hsettled.homes.reclaim (List.Sublist.refl _)
      hsettled.lifted hsettled.tasks
    unfold Engine.record?
    rw [Engine.nodes_reclaim]
  | start n path span hl =>
    obtain ⟨r0, hr0, hstep⟩ := Roll.call_snoc.1 hr
    exact (h r0 hr0).start (Roll.young_subset hr0) hstep hl path span
  | annotate n ha => exact (h r hr).keep (.modifyNode _ n ha.sites ha.block)
  | ownVertex n label =>
    exact (h r hr).keep ((Engine.SameStock.newVertex _ _ _).places.trans
      (.modifyNode _ n (fun _ => rfl) fun _ => rfl))
  | ownSource hn hk =>
    exact (h r hr).keep ((Engine.SameStock.newSource _ _ _).places.trans
      (.modifyNode _ _ (fun _ => rfl) fun _ => rfl))
  | define hn hk =>
    exact (h r hr).keep ((Engine.SameStock.enter _ _ _).places.trans
      (.modifyNode _ _ (fun _ => rfl) fun _ => rfl))
  | installBlock returns ho => exact (h r hr).installBlock (Roll.young_subset hr) ho returns
  | @openNode e d n fx hl hn hf =>
    refine (h r hr).change (Engine.SameStock.refl _).places rfl (List.Sublist.refl _) ?_
    have hkey := (h r hr).mem_keys_of_opens (Roll.young_subset hr) hn
    refine List.forall_mem_singleton.2 ⟨?_, fun x hx => absurd hx List.not_mem_nil, fun x hx => ?_⟩
    · rintro m hm
      cases hm
      exact ⟨hkey, hl⟩
    · rw [(hf.asked x hx).1]
      exact hkey
  | closeNode ret nameSpan hw ho hn hp hout =>
    refine (h r hr).change (.modifyNode _ _ (fun _ => rfl) fun _ => rfl) rfl ?_ hnil
    rw [ho]
    exact List.sublist_cons_self _ _
  | adopt path rename new old hl =>
    obtain ⟨r0, hr0, hstep⟩ := Roll.call_snoc.1 hr
    exact (h r0 hr0).adopt hstep (Roll.young_subset hr0) hl path rename
  | lift hx hh hl ho =>
    obtain ⟨r0, hr0, hstep⟩ := Roll.call_snoc.1 hr
    cases hstep
    exact (h r0 hr0).lift hx hl ho
  | @miss e d n hx ho =>
    obtain ⟨r0, hr0, hstep⟩ := Roll.call_snoc.1 hr
    cases hstep
    have hn : n ∉ r0.keys := fun hn => by
      obtain ⟨y, hy⟩ := ((h r0 hr0).keys n).1 hn
      exact absurd (hx.symm.trans hy) (by simp)
    rw [Finset.erase_eq_of_notMem hn]
    exact (h r0 hr0).settle ho _
  | openLifted hl hx =>
    exact (h r hr).relift hl rfl (fun hh _ => hh.relift rfl rfl)
      (List.forall_mem_singleton.2 (housed_idle _ _ _))
  | dropNode hw he hh hc hout =>
    exact (h r hr).change (Engine.SameStock.refl _).places rfl (List.Sublist.refl _) hnil
  | clearSite hl hs' hd => exact (h r hr).relift hl rfl (fun hh _ => hh.clearSite hs' hd) hnil
  | @unregister e d n x regs reg hl hx =>
    have hstock := Engine.SameStock.unregister e (.node n) reg
    exact (h r hr).relift hl hstock.nodes
      (fun hh _ => (hh.of_same hstock.places).relift rfl rfl) hnil
  | @removeBlock e d n x hl =>
    refine (h r hr).relift hl ?_ (fun hh hn => hh.removeBlock hn) hnil
    rw [(Engine.exists_removeBlock_eq e x.block).choose_spec]
  | @buryLifted e d n x v vs hl hh hv =>
    have hstock := Engine.SameStock.adoptGraph e (e.graph.destroy v)
    exact (h r hr).relift hl hstock.nodes
      (fun hh _ => (hh.of_same hstock.places).relift rfl rfl) hnil
  | @putDown e d n x hl he hs' hx hb hv =>
    have hhomes : e.Homes (some (n, x)) := hl ▸ (h r hr).homes
    exact (h r hr).renew (fun _ => rfl) (hhomes.putDown hs' hb) (List.Sublist.refl _)
      (fun _ hy => by cases hy) hnil
  | @beginRun e d s x queue hl hx hlive hq =>
    have hplaces : e.SamePlaces (e.modifySite s fun x => { x with effects := {} }) :=
      .modifySite _ _ (fun _ => rfl) fun _ => rfl
    refine (h r hr).change ⟨hplaces.sites, hplaces.records, hplaces.blocks⟩ rfl
      (List.Sublist.refl _) (List.forall_mem_singleton.2 ⟨fun n hn => ?_,
        fun y hy => absurd hy List.not_mem_nil,
        fun y hy => absurd hy List.not_mem_nil⟩)
    cases hn
    have hplace := (h r hr).homes.sites s x.node ⟨x, hx, hlive, rfl⟩
    exact ⟨(h r hr).mem_keys_of_lists (hplace.resolve_right (by simp [hl])), hl⟩
  | endRun hw hp hout hran =>
    exact (h r hr).change (.modifySite _ _ (fun _ => rfl) fun _ => rfl) rfl (List.Sublist.refl _)
      (h r hr).rest
  | breakRun hw hout =>
    obtain ⟨r0, hr0, hstep⟩ := Roll.call_snoc.1 hr
    cases hstep
    exact (h r hr0).change (.modifySite _ _ (fun _ => rfl) fun _ => rfl) rfl (List.Sublist.refl _)
      (h r hr0).rest
  | refuse queue =>
    obtain ⟨r0, hr0, hstep⟩ := Roll.call_snoc.1 hr
    cases hstep
    exact (h r hr0).change (.of_eq rfl rfl rfl) rfl (List.Sublist.refl _) hnil
  | beginDestroy hx hlive hs' => exact (h r hr).destroying hx hlive
  | @endDestroy e ts d t s hw hfx hout =>
    have hplaces : e.SamePlaces (e.modifySite s fun x => { x with effects := t.effects }) :=
      .modifySite _ _ (fun _ => rfl) fun _ => rfl
    exact (h r hr).change ⟨hplaces.sites, hplaces.records, hplaces.blocks⟩ rfl
      (List.Sublist.refl _) (h r hr).rest
  | jot hb =>
    exact (h r hr).onTop (.refl _) rfl rfl fun x hx => Or.inl (hb.askedSites ▸ hx)
  | askEdge | reuse | attach => exact (h r hr).onTop (.refl _) rfl rfl fun x hx => Or.inl hx
  | shed =>
    exact (h r hr).change (Engine.SameStock.refl _).places rfl (List.Sublist.refl _)
      ((h r hr).top rfl rfl fun x hx => Or.inl hx)
  | @askSite e ts d t node rule key hh hn hk hc =>
    refine (h r hr).onTop (.refl _) rfl rfl ?_
    exact OrderedMap.forall_mem_values_insert (fun _ => Or.inl)
      (Or.inr ((h r hr).mem_keys_of_reaches hh hn))
  | read dep hk =>
    refine (h r hr).onTop (.refl _) rfl rfl fun x hx => Or.inl ?_
    cases dep <;> exact hx
  | freshVertex hw label =>
    exact (h r hr).onTop (.newVertex _ _ _) rfl rfl fun x hx => Or.inl hx
  | freshSource hw label hk =>
    exact (h r hr).onTop (.newSource _ _ _) rfl rfl fun x hx => Or.inl hx
  | @installEdges e ts d t =>
    exact (h r hr).onTop (.installEdges ⟨e, t.effects⟩) rfl rfl fun x hx => Or.inl hx
  | detach =>
    refine (h r hr).change (Engine.SameStock.refl _).places rfl (List.Sublist.refl _)
      (List.forall_mem_cons.2 ⟨⟨((h r hr).tasks _ List.mem_cons_self).home, fun x hx => ?_,
        fun x hx => absurd hx List.not_mem_nil⟩, (h r hr).rest⟩)
    exact ((h r hr).tasks _ List.mem_cons_self).pending _ (List.mem_map_of_mem hx)
  | placeSite ha hk => exact (h r hr).placeSite hs ha
  | note | forget => exact (h r hr).onTop (.modifyWorld _ _) rfl rfl fun x hx => Or.inl hx
  | bury hh =>
    exact (h r hr).change (Engine.SameStock.adoptGraph _ _).places rfl (List.Sublist.refl _)
      (h r hr).tasks

end State

end Calls

end TypeFlow
