import TypeFlow.Proofs.Places

/-!
# Slots and counters

The counters of edges and sites agree with what is stored, and a slot is handed out again only when
nothing refers to it. A site that is being destroyed is marked first and counted later, so the books
of the sites list the destructions under way.
-/

set_option autoImplicit false

namespace TypeFlow

namespace OrderedMap

variable {κ α : Type} [DecidableEq κ]

theorem size_insert (m : OrderedMap κ α) (k : κ) (a : α) :
    (m.insert k a).size = m.size + if k ∈ m.keys then 0 else 1 := by
  rw [← length_keys, ← length_keys, keys_insert]
  split <;> simp

theorem size_erase {m : OrderedMap κ α} {k : κ} (hn : m.keys.Nodup) (hk : k ∈ m.keys) :
    (m.erase k).size + 1 = m.size := by
  obtain ⟨a, ha⟩ := Option.isSome_iff_exists.1 (get?_isSome_iff.2 hk)
  exact (entries_perm hn ha).length_eq.symm

end OrderedMap

namespace Graph

structure SameCounts (g g' : Graph) : Prop where
  added : g'.edgesAdded = g.edgesAdded
  removed : g'.edgesRemoved = g.edgesRemoved
  stored : g'.edgeCount = g.edgeCount

namespace SameCounts

variable {g g' g'' : Graph}

theorem refl (g : Graph) : SameCounts g g := ⟨rfl, rfl, rfl⟩

theorem trans (h : SameCounts g g') (h' : SameCounts g' g'') : SameCounts g g'' :=
  ⟨h'.added.trans h.added, h'.removed.trans h.removed, h'.stored.trans h.stored⟩

theorem modify (g : Graph) (v : VertexId) {f : Vertex → Vertex}
    (hf : ∀ x, (f x).next.size = x.next.size) : SameCounts g (g.modify v f) := by
  refine ⟨rfl, rfl, ?_⟩
  rw [edgeCount_eq_total, edgeCount_eq_total]
  exact Slots.total_modify_same v.index hf

end SameCounts

theorem Retyped.sameCounts {g g' : Graph} (h : Retyped g g') : SameCounts g g' := by
  refine ⟨h.added, h.removed, ?_⟩
  rw [edgeCount_eq_total, edgeCount_eq_total]
  exact total_congr h.size fun v => by rw [h.rest]

theorem edgeCount_modify_next {g : Graph} {src : VertexId} (hs : src.index < g.vertices.size)
    (change : OrderedMap VertexId Nat → OrderedMap VertexId Nat) :
    (g.modify src fun v => { v with next := change v.next }).edgeCount + (g.get src).next.size =
      g.edgeCount + (change (g.get src).next).size := by
  rw [edgeCount_eq_total, edgeCount_eq_total]
  exact Slots.total_modify (get?_eq_some hs) _ fun y => y.next.size

theorem edgeCount_modify_incoming (g : Graph) (dst : VertexId) (f : Nat → Nat) :
    (g.modify dst fun v => { v with incoming := f v.incoming }).edgeCount = g.edgeCount :=
  (SameCounts.modify g dst (f := fun v => { v with incoming := f v.incoming }) fun _ => rfl).stored

structure Counted (g : Graph) : Prop where
  settled : ∃ born, g.Settled born
  edges : g.edgesAdded = g.edgesRemoved + g.edgeCount

namespace Counted

variable {g g' : Graph}

theorem same (h : g.Counted) (hs : ∃ born, g'.Settled born) (hc : SameCounts g g') :
    g'.Counted :=
  ⟨hs, by rw [hc.added, hc.removed, hc.stored, h.edges]⟩

theorem alloc (h : g.Counted) {x : Vertex} (hx : x.next = {})
    (hs : ∃ born, (g.alloc x).2.Settled born) : (g.alloc x).2.Counted := by
  refine h.same hs ⟨rfl, rfl, ?_⟩
  obtain ⟨born, hborn⟩ := h.settled
  rw [edgeCount_eq_total, edgeCount_eq_total]
  refine (Slots.total_alloc (fun i hi => ?_) x).trans (by rw [hx]; rfl)
  have hlt := (hborn.given_up i (List.mem_append_right _ hi)).1
  refine ⟨g.get ⟨i⟩, get?_eq_some hlt, ?_⟩
  rw [← OrderedMap.length_keys]
  exact congrArg List.length (hborn.detached i hi).1

theorem newVertex (h : g.Counted) (label : String) (node : Option NodeId) :
    (g.newVertex label node).2.Counted := by
  obtain ⟨born, hborn⟩ := h.settled
  exact h.alloc rfl ⟨_, hborn.newVertex label node⟩

theorem newSource (h : g.Counted) (types : List Ty) (node : Option NodeId) :
    (g.newSource types node).2.Counted := by
  obtain ⟨born, hborn⟩ := h.settled
  exact h.alloc rfl ⟨_, hborn.newSource types node⟩

theorem source (h : g.Counted) (types : List Ty) : (g.source types).2.Counted := by
  cases hshared : g.shared.get? types with
  | some v =>
    rw [source_eq_of_some hshared]
    exact h
  | none =>
    obtain ⟨born, hborn⟩ := h.settled
    have hsettled := hborn.source types
    rw [source_eq_of_none hshared] at hsettled ⊢
    exact ⟨⟨_, hsettled⟩, (h.newSource types none).edges⟩

theorem addEdge (h : g.Counted) (src dst : VertexId) : (g.addEdge src dst).2.graph.Counted := by
  obtain ⟨born, hborn⟩ := h.settled
  refine ⟨⟨born, hborn.addEdge src dst⟩, ?_⟩
  have hedges := h.edges
  unfold Graph.addEdge
  split
  · next hlive =>
    obtain ⟨hs, hd⟩ := Bool.and_eq_true_iff.1 hlive
    have hsum := edgeCount_modify_next (lt_size_of_alive hs)
      (·.insert dst ((g.get src).owners dst + 1))
    rw [OrderedMap.size_insert] at hsum
    have hmem : dst ∈ (g.get src).next.keys ↔ (g.get src).owners dst ≠ 0 :=
      (hborn.tidy src).mem_successors
    dsimp only
    split
    · next hnone =>
      rw [if_neg fun hm => hmem.1 hm hnone] at hsum
      obtain ⟨hadded, hremoved, hstored⟩ := (Retyped.bring _ dst src _).sameCounts
      rw [hadded, hremoved, hstored]
      show g.edgesAdded + 1 = g.edgesRemoved + ((g.modify src _).modify dst _).edgeCount
      rw [edgeCount_modify_incoming _ dst (· + 1)]
      omega
    · next hsome =>
      rw [if_pos (hmem.2 hsome)] at hsum
      show g.edgesAdded = g.edgesRemoved + (g.modify src _).edgeCount
      omega
  · exact hedges

theorem removeEdge (h : g.Counted) (src dst : VertexId) :
    (g.removeEdge src dst).2.graph.Counted := by
  obtain ⟨born, hborn⟩ := h.settled
  refine ⟨⟨born, hborn.removeEdge src dst⟩, ?_⟩
  have hedges := h.edges
  have htidy := hborn.tidy src
  unfold Graph.removeEdge
  dsimp only
  split
  · exact hedges
  · next hsome =>
    have hmem : dst ∈ (g.get src).next.keys := htidy.mem_successors.2 hsome
    have hs := lt_size_of_edge hmem
    split
    · have hsum := edgeCount_modify_next hs (·.erase dst)
      have hsize := OrderedMap.size_erase htidy.next_nodup hmem
      obtain ⟨hadded, hremoved, hstored⟩ := (Retyped.retract _ dst src _).sameCounts
      rw [hadded, hremoved, hstored]
      show g.edgesAdded = g.edgesRemoved + 1 + ((g.modify src _).modify dst _).edgeCount
      rw [edgeCount_modify_incoming _ dst (· - 1)]
      omega
    · have hsum := edgeCount_modify_next hs (·.insert dst ((g.get src).owners dst - 1))
      rw [OrderedMap.size_insert, if_pos hmem] at hsum
      show g.edgesAdded = g.edgesRemoved + (g.modify src _).edgeCount
      omega

theorem destroy (h : g.Counted) (v : VertexId) : (g.destroy v).graph.Counted := by
  obtain ⟨born, hborn⟩ := h.settled
  refine h.same ⟨born, hborn.destroy v⟩ ?_
  by_cases hv : (g.get v).alive = true
  · obtain ⟨g', hflow, hg⟩ := destroy_of_alive hv
    have hkilled := SameCounts.modify g v (f := fun x => { x with alive := false }) fun _ => rfl
    obtain ⟨hadded, hremoved, hstored⟩ := hkilled.trans hflow.sameCounts
    rw [hg]
    exact ⟨hadded, hremoved, hstored⟩
  · unfold Graph.destroy
    rw [if_neg hv]
    exact .refl g

theorem reclaim (h : g.Counted) : g.reclaim.2.Counted := by
  obtain ⟨born, hborn⟩ := h.settled
  exact h.same ⟨born, hborn.reclaim⟩ ⟨rfl, rfl, rfl⟩

theorem listeners (h : g.Counted) (vs : List VertexId)
    (f : OrderedSet SiteId → OrderedSet SiteId) :
    (vs.foldl (fun g v => g.modify v fun x => { x with listeners := f x.listeners }) g).Counted :=
      by
  induction vs generalizing g with
  | nil => exact h
  | cons v vs ih =>
    obtain ⟨born, hborn⟩ := h.settled
    refine ih (h.same ⟨born, hborn.decorate v fun _ => ?_⟩ (.modify g v fun _ => rfl))
    exact ⟨rfl, rfl, rfl, rfl, rfl⟩

end Counted

end Graph

namespace Site

def lives (x : Site) : Nat := if x.destroyed then 0 else 1

def livesAs (rule : String) (x : Site) : Nat :=
  if x.destroyed = false ∧ x.rule.name = rule then 1 else 0

theorem sum_livesAs_one {names : List String} (hn : names.Nodup) {x : Site}
    (hx : x.destroyed = false → x.rule.name ∈ names) :
    (names.map fun k => livesAs k x).sum = lives x := by
  have hcount : ∀ ks : List String,
      (ks.map fun k => livesAs k x).sum = if x.destroyed then 0 else ks.count x.rule.name := by
    intro ks
    induction ks with
    | nil => simp
    | cons k ks ih =>
      rw [List.map_cons, List.sum_cons, ih, List.count_cons]
      by_cases hk : k = x.rule.name
      · cases hd : x.destroyed <;> simp [livesAs, hd, hk, Nat.add_comm]
      · cases hd : x.destroyed <;> simp [livesAs, hd, hk, Ne.symm hk]
  rw [hcount]
  unfold lives
  cases hd : x.destroyed with
  | true => rfl
  | false => exact List.count_eq_one_of_mem hn (hx hd)

theorem sum_livesAs {names : List String} (hn : names.Nodup) (xs : List Site)
    (hx : ∀ x ∈ xs, x.destroyed = false → x.rule.name ∈ names) :
    (names.map fun k => (xs.map (livesAs k)).sum).sum = (xs.map lives).sum := by
  induction xs with
  | nil => simp
  | cons x xs ih =>
    simp only [List.map_cons, List.sum_cons, List.sum_map_add]
    rw [ih fun y hy => hx y (List.mem_cons_of_mem x hy),
      sum_livesAs_one hn (hx x List.mem_cons_self)]

end Site

structure SiteCounts (sites : Slots Site) (stats : SiteStats) (dying : List (Nat × String)) :
    Prop where
  nodup : (sites.released ++ sites.free ++ dying.map Prod.fst).Nodup
  given_up : ∀ i ∈ sites.released ++ sites.free ++ dying.map Prod.fst,
    ∃ x, sites.get? i = some x ∧ x.destroyed = true
  keys : stats.live.keys.Nodup
  live : ∀ k, (stats.live.get? k).getD 0 =
    sites.total (Site.livesAs k) + (dying.map Prod.snd).count k
  created : stats.created = stats.destroyed + sites.total Site.lives + dying.length

namespace SiteCounts

variable {sites : Slots Site} {stats : SiteStats} {dying : List (Nat × String)}

theorem modify (h : SiteCounts sites stats dying) (i : Nat) {f : Site → Site}
    (hf : ∀ x, (f x).destroyed = x.destroyed ∧ (f x).rule = x.rule) :
    SiteCounts (sites.modify i f) stats dying where
  nodup := h.nodup
  given_up j hj := by
    obtain ⟨x, hx, hd⟩ := h.given_up j hj
    rw [Slots.get?_modify, hx]
    split
    · exact ⟨f x, rfl, (hf x).1.trans hd⟩
    · exact ⟨x, rfl, hd⟩
  keys := h.keys
  live k := by
    rw [h.live, Slots.total_modify_same]
    intro x
    rw [Site.livesAs, (hf x).1, (hf x).2, Site.livesAs]
  created := by
    rw [h.created, Slots.total_modify_same]
    intro x
    rw [Site.lives, (hf x).1, Site.lives]

theorem runs (h : SiteCounts sites stats dying) (n : Nat) :
    SiteCounts sites { stats with runs := n } dying :=
  ⟨h.nodup, h.given_up, h.keys, h.live, h.created⟩

theorem enter (h : SiteCounts sites stats dying) (node : NodeId) (rule : Rule) :
    SiteCounts (sites.alloc { node, rule }).2 (stats.create rule.name) dying := by
  have hgiven : ∀ i ∈ sites.released ++ sites.free, ∃ x, sites.get? i = some x ∧
      x.destroyed = true := fun i hi => h.given_up i (List.mem_append_left _ hi)
  have hlt : ∀ i ∈ sites.released ++ sites.free, i < sites.size := fun i hi =>
    Slots.lt_size_of_get? (hgiven i hi).choose_spec.1
  have hn := (List.nodup_append.1 h.nodup).1
  obtain ⟨hreleased, hfree, -, hne⟩ := Slots.slots_alloc hn hlt ({ node, rule } : Site)
  have hzero : ∀ f : Site → Nat, (∀ x, x.destroyed = true → f x = 0) →
      ∀ i ∈ sites.free, ∃ x, sites.get? i = some x ∧ f x = 0 := fun f hf i hi => by
    obtain ⟨x, hx, hd⟩ := hgiven i (List.mem_append_right _ hi)
    exact ⟨x, hx, hf x hd⟩
  have hsub : ((sites.alloc { node, rule }).2.released ++ (sites.alloc { node, rule }).2.free ++
      dying.map Prod.fst).Sublist (sites.released ++ sites.free ++ dying.map Prod.fst) := by
    rw [hreleased, hfree]
    exact ((List.Sublist.refl _).append (List.tail_sublist _)).append_right _
  refine ⟨h.nodup.sublist hsub, fun i hi => ?_, OrderedMap.nodup_keys_upsert _ _ _ h.keys,
    fun k => ?_, ?_⟩
  · obtain ⟨x, hx, hd⟩ := h.given_up i (hsub.subset hi)
    refine ⟨x, ?_, hd⟩
    rw [Slots.get?_alloc fun j hj => hlt j (List.mem_append_right _ hj), if_neg, hx]
    rintro rfl
    rw [hreleased, hfree, List.mem_append] at hi
    rcases hi with hi | hi
    · exact hne _ hi rfl
    · rcases Slots.alloc_index sites ({ node, rule } : Site) with hpick | hpick
      · have hdisjoint := (List.nodup_append.1 h.nodup).2.2
        exact hdisjoint _ (List.mem_append_right _ hpick) _ hi rfl
      · exact absurd (Slots.lt_size_of_get? hx) (by omega)
  · show ((stats.live.upsert rule.name 0 (· + 1)).get? k).getD 0 = _
    rw [OrderedMap.get?_upsert, Slots.total_alloc (hzero _ fun x hd => by simp [Site.livesAs, hd])]
    by_cases hk : rule.name = k
    · subst hk
      have hlive := h.live rule.name
      simp only [if_true, Option.getD_some, Site.livesAs, true_and]
      omega
    · have hlive := h.live k
      simp only [hk, if_false, Site.livesAs, and_false]
      omega
  · show stats.created + 1 = stats.destroyed + _ + _
    rw [Slots.total_alloc (hzero _ fun x hd => by simp [Site.lives, hd]), h.created]
    simp only [Site.lives, Bool.false_eq_true, if_false]
    omega

theorem mark (h : SiteCounts sites stats dying) {i : Nat} {x : Site} (hx : sites.get? i = some x)
    (hlive : x.destroyed = false) :
    SiteCounts (sites.modify i fun x => { x with destroyed := true }) stats
      ((i, x.rule.name) :: dying) := by
  have hnew : i ∉ sites.released ++ sites.free ++ dying.map Prod.fst := fun hi => by
    obtain ⟨y, hy, hd⟩ := h.given_up i hi
    rw [hx] at hy
    cases hy
    exact Bool.false_ne_true (hlive.symm.trans hd)
  refine ⟨?_, fun j hj => ?_, h.keys, fun k => ?_, ?_⟩
  · rw [List.map_cons, List.nodup_middle]
    exact List.nodup_cons.2 ⟨hnew, h.nodup⟩
  · rw [Slots.get?_modify]
    split
    · next he =>
      subst he
      exact ⟨_, congrArg (Option.map _) hx, rfl⟩
    · next hne =>
      refine h.given_up j ?_
      rw [List.map_cons, List.mem_append, List.mem_cons] at hj
      rcases hj with hj | rfl | hj
      · exact List.mem_append_left _ hj
      · exact absurd rfl hne
      · exact List.mem_append_right _ hj
  · have hsum := Slots.total_modify hx (fun x => { x with destroyed := true }) (Site.livesAs k)
    have hold := h.live k
    rw [List.map_cons, List.count_cons]
    simp only [Site.livesAs, hlive, Bool.true_eq_false, false_and, if_false, true_and] at hsum
    simp only [beq_iff_eq]
    omega
  · have hsum := Slots.total_modify hx (fun x => { x with destroyed := true }) Site.lives
    have hold := h.created
    simp only [Site.lives, hlive, Bool.false_eq_true, if_false, if_true] at hsum
    rw [List.length_cons]
    omega

theorem release {i : Nat} {rule : String} (h : SiteCounts sites stats ((i, rule) :: dying)) :
    SiteCounts (sites.release i) (stats.destroy rule) dying := by
  have hperm : ((sites.release i).released ++ (sites.release i).free ++ dying.map Prod.fst).Perm
      (sites.released ++ sites.free ++ ((i, rule) :: dying).map Prod.fst) := by
    show (sites.released ++ [i] ++ sites.free ++ dying.map Prod.fst).Perm _
    rw [List.map_cons, List.append_assoc, List.append_assoc, List.append_assoc]
    refine List.Perm.append_left _ ?_
    rw [List.singleton_append]
    exact List.perm_middle.symm
  refine ⟨hperm.nodup_iff.2 h.nodup, fun j hj => h.given_up j (hperm.subset hj), ?_, fun k => ?_,
    ?_⟩
  · show (stats.live.modify rule (· - 1)).keys.Nodup
    rw [OrderedMap.keys_modify]
    exact h.keys
  · show ((stats.live.modify rule (· - 1)).get? k).getD 0 = sites.total (Site.livesAs k) + _
    have hold := h.live k
    rw [List.map_cons, List.count_cons] at hold
    rw [OrderedMap.get?_modify]
    by_cases hk : rule = k
    · subst hk
      cases hcount : stats.live.get? rule with
      | none => rw [hcount] at hold; simp at hold
      | some n =>
        rw [hcount] at hold
        simp only [Option.getD_some, BEq.rfl, if_true] at hold
        simp only [if_true, Option.map_some, Option.getD_some]
        omega
    · simp only [beq_iff_eq, hk, if_false] at hold ⊢
      exact hold
  · have hold := h.created
    rw [List.length_cons] at hold
    show stats.created = stats.destroyed + 1 + sites.total Site.lives + dying.length
    omega

theorem sweep (h : SiteCounts sites stats dying) (p : Site → Bool) :
    SiteCounts (sites.sweep p).2 stats dying := by
  have hperm := (Slots.perm_sweep sites p).append_right (dying.map Prod.fst)
  exact ⟨hperm.nodup_iff.2 h.nodup, fun i hi => h.given_up i (hperm.subset hi), h.keys, h.live,
    h.created⟩

theorem liveCount (h : SiteCounts sites stats []) : stats.liveCount = sites.total Site.lives := by
  have hvalues : stats.live.values =
      stats.live.keys.map fun k => (stats.live.get? k).getD 0 := by
    unfold OrderedMap.values OrderedMap.keys
    rw [List.map_map]
    refine List.map_congr_left fun x hx => ?_
    rw [Function.comp_apply, OrderedMap.get?_of_mem_entries h.keys hx, Option.getD_some]
  have hcounts : stats.live.values =
      stats.live.keys.map fun k => (sites.slots.toList.map (Site.livesAs k)).sum := by
    rw [hvalues]
    exact List.map_congr_left fun k _ => h.live k
  unfold SiteStats.liveCount
  rw [← List.sum_eq_foldl, hcounts, Site.sum_livesAs h.keys]
  · rfl
  · intro x hx hlive
    by_contra hk
    have hnone := h.live x.rule.name
    rw [OrderedMap.get?_eq_none_iff.2 hk] at hnone
    have hzero : (sites.slots.toList.map (Site.livesAs x.rule.name)).sum = 0 :=
      Nat.eq_zero_of_add_eq_zero_right hnone.symm
    have hone := List.sum_eq_zero_iff.1 hzero _ (List.mem_map_of_mem hx)
    simp [Site.livesAs, hlive] at hone

end SiteCounts

namespace Engine

/-- The books of an engine with some destructions under way. -/
structure CountsAgree (e : Engine) (dying : List (Nat × String)) : Prop where
  graph : e.graph.Counted
  sites : SiteCounts e.sites e.stats dying

def KeepsCounts (e e' : Engine) : Prop := ∀ dying, e.CountsAgree dying → e'.CountsAgree dying

namespace KeepsCounts

variable {e e' : Engine}

theorem of_graph (hg : e.graph.Counted → e'.graph.Counted) (hs : e'.sites = e.sites)
    (ht : e'.stats = e.stats) : KeepsCounts e e' :=
  fun _ h => ⟨hg h.graph, hs ▸ ht ▸ h.sites⟩

theorem schedule (e : Engine) (s : SiteId) : KeepsCounts e (e.schedule s) := by
  unfold Engine.schedule
  split <;> exact of_graph id rfl rfl

theorem scheduleAll (e : Engine) (ss : List SiteId) : KeepsCounts e (e.scheduleAll ss) := by
  obtain ⟨queue, hq⟩ := exists_scheduleAll_eq e ss
  rw [hq]
  exact of_graph id rfl rfl

theorem adoptGraph {c : Graph.Changed} (hc : e.graph.Counted → c.graph.Counted) :
    KeepsCounts e (e.adoptGraph c) := by
  obtain ⟨queue, hq⟩ := exists_adoptGraph_eq e c
  rw [hq]
  exact of_graph hc rfl rfl

theorem modifyWorld (e : Engine) (f : World → World) : KeepsCounts e (e.modifyWorld f) :=
  of_graph id rfl rfl

theorem trans {e'' : Engine} (h : KeepsCounts e e') (h' : KeepsCounts e' e'') : KeepsCounts e e'' :=
  fun dying hb => h' dying (h dying hb)

theorem ensureConst (e : Engine) (key : ConstKey) : KeepsCounts e (e.ensureConst key).2 := by
  unfold Engine.ensureConst
  split
  · exact fun _ => id
  · exact of_graph (fun h => h.newVertex _ none) rfl rfl

theorem ensureIvar (e : Engine) (key : MemberKey) : KeepsCounts e (e.ensureIvar key).2 := by
  unfold Engine.ensureIvar
  split
  · exact fun _ => id
  · exact of_graph (fun h => h.newVertex _ none) rfl rfl

theorem globalVertex (e : Engine) (name : String) : KeepsCounts e (e.globalVertex name).2 := by
  unfold Engine.globalVertex
  split
  · exact fun _ => id
  · exact of_graph (fun h => h.newVertex _ none) rfl rfl

theorem changeDefs (e : Engine) (key : MemberKey) (f : OrderedSet SiteId → OrderedSet SiteId) :
    KeepsCounts e (e.changeDefs key f) := by
  unfold Engine.changeDefs
  dsimp only
  split
  · exact (modifyWorld e _).trans (scheduleAll _ _)
  · exact modifyWorld e _

theorem destroy {s : SiteId} {x : Site} (hx : e.site? s = some x) (hlive : x.destroyed = false)
    (h : KeepsCounts (e.markDestroyed s x) e') : KeepsCounts e { e' with
      sites := e'.sites.release s.index
      stats := e'.stats.destroy x.rule.name } := by
  intro dying hb
  have hmarked : (e.markDestroyed s x).CountsAgree ((s.index, x.rule.name) :: dying) :=
    ⟨hb.graph.listeners x.rule.inputs (·.erase s), hb.sites.mark hx hlive⟩
  have hlater := h _ hmarked
  exact ⟨hlater.graph, hlater.sites.release⟩

instance : Endures KeepsCounts where
  refl _ _ := id
  trans := trans
  newVertex _ label node := of_graph (fun h => h.newVertex label node) rfl rfl
  newSource _ types node := of_graph (fun h => h.newSource types node) rfl rfl
  source _ types := of_graph (fun h => h.source types) rfl rfl
  resolvePath _ _ := of_graph id rfl rfl
  consult e _ := modifyWorld e _
  ensureConst := ensureConst
  ensureIvar := ensureIvar
  globalVertex := globalVertex
  addEdge _ src dst := adoptGraph fun h => h.addEdge src dst
  removeEdge _ src dst := adoptGraph fun h => h.removeEdge src dst
  destroyVertex _ v := adoptGraph fun h => h.destroy v
  schedule := schedule
  watch e _ _ := modifyWorld e _
  changeDecls e _ _ := ((modifyWorld e _).trans (scheduleAll _ _)).trans (scheduleAll _ _)
  changeDefs := changeDefs
  changeIvarReads e _ _ := modifyWorld e _
  effects _ s _ _ h := ⟨h.graph, h.sites.modify s.index fun _ => ⟨rfl, rfl⟩⟩
  count _ _ h := ⟨h.graph, h.sites.runs _⟩
  enterSite e node rule _ h :=
    ⟨h.graph.listeners rule.inputs (·.insert (e.enterSite node rule).1), h.sites.enter node rule⟩
  destroy _ _ _ _ hx hlive h := destroy hx hlive h

theorem reclaim (e : Engine) : KeepsCounts e e.reclaim.2 := by
  intro dying h
  unfold Engine.reclaim
  split
  · exact ⟨h.graph.reclaim, h.sites.sweep _⟩
  · exact h

end KeepsCounts

end Engine

/-- An operation on vertices, edges or sites. -/
inductive ArenaOp where
  | newVertex (label : String) (node : Option NodeId)
  | newSource (types : List Ty) (node : Option NodeId)
  | source (types : List Ty)
  | addEdge (src dst : VertexId)
  | removeEdge (src dst : VertexId)
  | destroyVertex (v : VertexId)
  | reclaim
  | createSite (node : NodeId) (rule : Rule)
  | destroySite (s : SiteId)
  | runAll

namespace Engine

def operate (e : Engine) : ArenaOp → Engine
  | .newVertex label node => (e.newVertex label node).2
  | .newSource types node => (e.newSource types node).2
  | .source types => (e.source types).2
  | .addEdge src dst => (e.addEdge src dst).2
  | .removeEdge src dst => (e.removeEdge src dst).2
  | .destroyVertex v => e.destroyVertex v
  | .reclaim => e.reclaim.2
  | .createSite node rule => leftBy (Engine.createSite node rule) e
  | .destroySite s => leftBy (Engine.destroySite s) e
  | .runAll => leftBy Engine.runAll e

theorem CountsAgree.operate {e : Engine} (h : e.CountsAgree []) (op : ArenaOp) :
    (e.operate op).CountsAgree [] := by
  have hqueue : ∀ (e : Engine) (queue : RunQueue), KeepsCounts e { e with queue } :=
    fun e queue => .of_graph id rfl rfl
  cases op with
  | newVertex label node =>
    have hkeepsCounts : KeepsCounts e (e.newVertex label node).2 := Bears.newVertex e label node
    exact hkeepsCounts [] h
  | newSource types node =>
    have hkeepsCounts : KeepsCounts e (e.newSource types node).2 := Bears.newSource e types node
    exact hkeepsCounts [] h
  | source types =>
    have hkeepsCounts : KeepsCounts e (e.source types).2 := Bears.source e types
    exact hkeepsCounts [] h
  | addEdge src dst =>
    have hkeepsCounts : KeepsCounts e (e.addEdge src dst).2 := Endures.addEdge e src dst
    exact hkeepsCounts [] h
  | removeEdge src dst =>
    have hkeepsCounts : KeepsCounts e (e.removeEdge src dst).2 := Recedes.removeEdge e src dst
    exact hkeepsCounts [] h
  | destroyVertex v =>
    have hkeepsCounts : KeepsCounts e (e.destroyVertex v) := Recedes.destroyVertex e v
    exact hkeepsCounts [] h
  | reclaim => exact KeepsCounts.reclaim e [] h
  | createSite node rule => exact honours_createSite (R := KeepsCounts) node rule e [] h
  | destroySite s => exact honours_destroySite (R := KeepsCounts) s e [] h
  | runAll => exact honours_runAll (R := KeepsCounts) hqueue e [] h

theorem CountsAgree.of_empty {e : Engine} {born : VertexId → List Ty} (hs : e.graph.Settled born)
    (hcounts : e.graph.edgesAdded = e.graph.edgesRemoved + e.graph.edgeCount)
    (hsize : e.sites.size = 0) (hreleased : e.sites.released = []) (hfree : e.sites.free = [])
    (hstats : e.stats = {}) : e.CountsAgree [] := by
  have htotal : ∀ f, e.sites.total f = 0 := fun f => by
    unfold Slots.total
    rw [List.eq_nil_of_length_eq_zero (l := e.sites.slots.toList) hsize]
    rfl
  refine ⟨⟨⟨born, hs⟩, hcounts⟩, ?_, fun i hi => ?_, ?_, fun k => ?_, ?_⟩
  · rw [hreleased, hfree]
    exact List.nodup_nil
  · rw [hreleased, hfree] at hi
    cases hi
  · rw [hstats]
    exact List.nodup_nil
  · rw [hstats, htotal]
    rfl
  · rw [hstats, htotal]
    rfl

theorem countsAgree_boot (config : Config) : (Engine.boot config).CountsAgree [] := by
  have hcounts : Boot.startGraph.edgesAdded =
      Boot.startGraph.edgesRemoved + Boot.startGraph.edgeCount := by decide +kernel
  obtain ⟨born, hborn⟩ := Boot.sourced_boot config
  have hsettled := hborn.settled
  rw [boot_start] at hsettled ⊢
  exact .of_empty hsettled hcounts rfl rfl rfl rfl

theorem countsAgree_operations (config : Config) (ops : List ArenaOp) :
    (ops.foldl operate (Engine.boot config)).CountsAgree [] := by
  have hrun : ∀ (ops : List ArenaOp) (e : Engine), e.CountsAgree [] →
    (ops.foldl operate e).CountsAgree [] := by
    intro ops
    induction ops with
    | nil => exact fun _ h => h
    | cons op ops ih => exact fun e h => ih _ (h.operate op)
  exact hrun ops _ (countsAgree_boot config)

end Engine

/-- A slot that is to be handed out is dead, and no edge and no reason refers to it. -/
theorem Graph.Settled.unreferenced {g : Graph} {born : VertexId → List Ty} (h : g.Settled born)
    (x : Vertex) (u : VertexId) :
    (g.alloc x).1 ∉ (g.get u).successors ∧ ∀ t, .edge (g.alloc x).1 ∉ (g.get u).origins t := by
  obtain ⟨-, hsucc, hin⟩ := alloc_detached h x
  refine ⟨fun hm => ?_, fun t hm => ?_⟩
  · have hpos := indegree_pos hm
    rw [← h.incoming, hin] at hpos
    exact Nat.lt_irrefl 0 hpos
  · by_cases hu : (g.get u).alive = true
    · have hcount := h.count_edge hu (g.alloc x).1 t
      rw [hsucc, if_neg fun hc => List.not_mem_nil hc.1] at hcount
      exact List.count_eq_zero.1 hcount hm
    · unfold Vertex.origins at hm
      rw [h.dead u (Bool.eq_false_iff.2 hu)] at hm
      cases hm

theorem Slots.total_indicator {α : Type} (s : Slots α) (p : α → Prop) [DecidablePred p] :
    s.total (fun x => if p x then 1 else 0) = s.slots.toList.countP fun x => decide (p x) := by
  unfold Slots.total
  induction s.slots.toList with
  | nil => rfl
  | cons x xs ih =>
    rw [List.map_cons, List.sum_cons, ih, List.countP_cons, Nat.add_comm]
    simp only [decide_eq_true_eq]

theorem Site.total_lives (sites : Slots Site) :
    sites.total Site.lives = sites.slots.toList.countP fun x => !x.destroyed := by
  have hlives : Site.lives = fun x => if (!x.destroyed) = true then 1 else 0 := by
    funext x
    cases hd : x.destroyed <;> simp [Site.lives, hd]
  rw [hlives, Slots.total_indicator]
  simp only [Bool.decide_eq_true]

/-- Whatever was done to vertices, edges and sites since the start: the slots that were given up are
distinct and their vertices dead; the slot that is handed out next is dead, and no edge and no
reason refers to it; vertices know the number of edges into them; the edges stored are those added
and not removed; and the counts of sites agree with the slots that are not marked destroyed. -/
theorem arenas_exact (config : Config) (ops : List ArenaOp) :
    let e := ops.foldl Engine.operate (Engine.boot config)
    let g := e.graph
    (g.vertices.released ++ g.vertices.free).Nodup ∧
    (∀ i ∈ g.vertices.released ++ g.vertices.free, (e.vertex ⟨i⟩).alive = false) ∧
    (∀ x, (e.vertex (g.alloc x).1).alive = false ∧ (e.vertex (g.alloc x).1).successors = [] ∧
      ∀ u, (g.alloc x).1 ∉ (e.vertex u).successors ∧
        ∀ t, .edge (g.alloc x).1 ∉ (e.vertex u).origins t) ∧
    (∀ d, (e.vertex d).incoming = g.vertices.slots.toList.countP fun x => d ∈ x.successors) ∧
    g.edgesAdded = g.edgesRemoved + g.edgeCount ∧
    (e.sites.released ++ e.sites.free).Nodup ∧
    (∀ i ∈ e.sites.released ++ e.sites.free, e.isLive ⟨i⟩ = false) ∧
    e.stats.created = e.stats.destroyed + e.stats.liveCount ∧
    e.stats.liveCount = e.sites.slots.toList.countP fun x => !x.destroyed := by
  intro e g
  have hcountsAgree := Engine.countsAgree_operations config ops
  obtain ⟨born, hborn⟩ := hcountsAgree.graph.settled
  have hsites := hcountsAgree.sites
  have hlive := hsites.liveCount
  refine ⟨hborn.nodup, fun i hi => (hborn.given_up i hi).2, fun x => ?_, fun d => ?_,
    hcountsAgree.graph.edges, (List.nodup_append.1 hsites.nodup).1, fun i hi => ?_, ?_, ?_⟩
  · obtain ⟨hdead, hsucc, -⟩ := Graph.alloc_detached hborn x
    exact ⟨hdead, hsucc, hborn.unreferenced x⟩
  · exact (hborn.incoming d).trans (Slots.total_indicator _ _)
  · obtain ⟨x, hx, hd⟩ := hsites.given_up i (List.mem_append_left _ hi)
    have hsite : e.site? ⟨i⟩ = some x := hx
    rw [Engine.isLive, hsite, Option.any_some, hd]
    rfl
  · rw [hlive]
    exact hsites.created
  · exact hlive.trans (Site.total_lives e.sites)

end TypeFlow
