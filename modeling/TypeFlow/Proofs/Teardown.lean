import TypeFlow.Proofs.Accounts
import TypeFlow.Proofs.Belongings
import TypeFlow.Proofs.ReverseIndexes
import TypeFlow.Proofs.Settled
import TypeFlow.Proofs.SharedSources

/-!
# Removing everything leads back to the start

Once requests that all succeed have left no document, nothing is left of what they brought: what
records listed went with the records, what sites had in place went with the sites, and what is built
in is as it was.
-/

set_option autoImplicit false

namespace TypeFlow

open State Machine Workspace

/-- The contents of an engine are those of the start: no site lives, no node has a record, nothing
waits; names have the definitions that are built in, and nobody asked for them; the edges and types
are those of the start. -/
structure Engine.Restored (e boot : Engine) : Prop where
  sites : ∀ s, e.isLive s = false
  records : e.nodes = {}
  queue : e.queue = .empty
  methods : ∀ key m, e.world.method? key = some m →
    m.decls = {} ∧ m.defs = {} ∧ m.aliases = {} ∧ m.callsites = {}
  consts : ∀ key c, e.world.const? key = some c → (∀ o ∈ c.defs.toList, o = .builtin) ∧
    c.followers = {}
  ivars : ∀ key i, e.world.ivar? key = some i → ∀ o ∈ i.defs.toList, o = .builtin
  decls : ∀ m, (e.world.get m).decls = (boot.world.get m).decls
  includes : ∀ m, (e.world.get m).includes = (boot.world.get m).includes
  lineage : ∀ m, (e.world.get m).lineage = (boot.world.get m).lineage
  subclasses : ∀ m c, c ∈ (e.world.get m).subclasses.toList ↔
    c ∈ (boot.world.get m).subclasses.toList
  /-- Modules that are not built in have nothing. -/
  others : ∀ m, Core.names.length ≤ m.index → (e.world.get m).decls = {} ∧
    (e.world.get m).includes = {} ∧ (e.world.get m).lineage = {} ∧ (e.world.get m).subclasses = {}
  checks : ∀ m, (e.world.get m).subclassChecks = {} ∧ (e.world.get m).ivarReads = {}
  edges : ∀ u v, (v ∈ (e.vertex u).successors ↔ v ∈ (boot.vertex u).successors) ∧
    (e.vertex u).owners v = if v ∈ (boot.vertex u).successors then 1 else 0
  /-- Only shared sources and the constants of the start hold types. -/
  types : ∀ v, (∀ ts, e.graph.shared.get? ts ≠ some v) →
    (∀ key c, boot.world.const? key = some c → c.vertex ≠ v) → e.typesAt v = []

theorem OrderedSet.eq_empty {α : Type} {s : OrderedSet α} (h : ∀ a, a ∉ s.toList) : s = {} := by
  obtain ⟨l⟩ := s
  exact congrArg OrderedSet.mk (List.eq_nil_iff_forall_not_mem.2 h)

theorem OrderedMap.eq_empty {κ α : Type} {m : OrderedMap κ α} (h : ∀ k, k ∉ m.keys) : m = {} := by
  obtain ⟨es⟩ := m
  refine congrArg OrderedMap.mk (List.eq_nil_iff_forall_not_mem.2 fun x hx => h x.1 ?_)
  exact List.mem_map_of_mem hx

namespace State

variable {s s' : State} {boot : Engine}

structure Audited (boot : Engine) (s : State) : Prop where
  blank : s.Blank
  signed : s.Signed
  native : World.SameNative boot.world s.engine.world
  edges : ∀ u w, OwnersAtMost (w ∈ (boot.graph.get u).successors) u w ((boot.graph.get u).owners w)
    s
  numbered : s.Numbered
  literalsPlaced : Event.spill ∉ s.progress.log → s.LiteralsPlaced

theorem Audited.move (h : s.Audited boot) (hm : Move s s') (hk : s.Kept) (hc : s'.Called) :
    s'.Audited boot where
  blank := h.blank.move hm hk hc
  signed := h.signed.move hm hk hc
  native := h.native.trans hm.sameNative
  edges u w := (h.edges u w).move hm hk h.blank hc
  numbered := h.numbered.move hm
  literalsPlaced hlog := by
    obtain ⟨es, hes⟩ := hm.log
    have hliteralsPlaced := h.literalsPlaced fun hspill => hlog (hes ▸ List.mem_append_left _
      hspill)
    refine hliteralsPlaced.move hm hk h.blank h.numbered hc fun hspill => hlog ?_
    rw [hspill]
    exact List.mem_append_right _ (List.mem_singleton_self _)

theorem Audited.moves (hm : Moves s s') (hk : s.Kept) (hc : s'.Called) (h : s.Audited boot) :
    s'.Audited boot :=
  hm.preserve (fun _ _ hk hc hm h => h.move hm hk hc) hk hc h

end State

namespace Boot

theorem origins_boot (config : Config) {r : Registration} {o : DefOrigin}
    (h : o ∈ (Engine.boot config).world.origins r) : o = .builtin := by
  have hall : ∀ i < startWorld.modules.size, let x := startWorld.get ⟨i⟩
      (∀ k ∈ x.decls.keys, k = .builtin) ∧ (∀ k ∈ x.includes.keys, k.1 = .builtin) ∧
      (∀ c ∈ x.consts.values, ∀ k ∈ c.defs.toList, k = .builtin) ∧ ∀ b,
        (∀ c ∈ (x.ivars.get b).values, ∀ k ∈ c.defs.toList, k = .builtin) ∧
        ∀ m ∈ (x.methods.get b).values, ∀ k ∈ m.aliases.keys, k = .builtin := by
    decide +kernel
  have hknows := World.knows_of_mem_origins h
  rw [Engine.world_boot] at h hknows
  generalize startWorld = w at hall h hknows
  obtain ⟨hdecls, hincludes, hconsts, hsides⟩ := hall r.home.index hknows
  cases r with
  | module m => exact hdecls o h
  | inclusion m target => exact hincludes _ (World.mem_origins_inclusion.1 h)
  | const key =>
    obtain ⟨c, hc, ho⟩ := World.mem_origins_const.1 h
    exact hconsts c (List.mem_map_of_mem (OrderedMap.mem_entries_of_get? hc)) o ho
  | ivar key =>
    obtain ⟨i, hi, ho⟩ := World.mem_origins_ivar.1 h
    exact (hsides _).1 i (List.mem_map_of_mem (OrderedMap.mem_entries_of_get? hi)) o ho
  | «alias» key =>
    rw [World.mem_origins_alias] at h
    cases hm : w.method? key with
    | none =>
      rw [hm] at h
      exact absurd h List.not_mem_nil
    | some m =>
      rw [hm] at h
      exact (hsides _).2 m (List.mem_map_of_mem (OrderedMap.mem_entries_of_get? hm)) o h

theorem audited_boot (config : Config) :
    ((Engine.boot config).rest []).Audited (Engine.boot config) := by
  have hstock := stock_boot config
  have hboot : (Engine.boot config).graph = startGraph := Engine.graph_boot config
  have hgraph : ∀ i < startGraph.vertices.size, (startGraph.get ⟨i⟩).alive = true ∧
      (∀ w ∈ (startGraph.get ⟨i⟩).successors, w.index < startGraph.vertices.size) ∧
      ∀ x ∈ (startGraph.get ⟨i⟩).types.entries, .literal ∈ x.2 →
        ∃ y ∈ startGraph.shared.entries, y.2 = ⟨i⟩ := by
    decide +kernel
  have hunique : startGraph.shared.keys.Nodup := by decide +kernel
  rw [← hboot] at hgraph hunique
  have hnone : ∀ u w, laid u w ((Engine.boot config).rest []) = 0 := fun u w => by
    show (Engine.boot config).nodes.tally _ + (Engine.boot config).sites.total _ + 0 + 0 = 0
    rw [hstock.nodes, hstock.sites]
    rfl
  have haliveUnheld : ∀ v, v.index < (Engine.boot config).graph.vertices.size →
      AliveUnheld v ((Engine.boot config).rest []) := fun v hv => ⟨(hgraph v.index hv).1,
        held_boot config v⟩
  refine ⟨(invariants_ofConfig config).1.blank, fun reg n hn => ?_, .refl _, fun u w => ?_,
    fun t ht => absurd ht List.not_mem_nil, fun _ => ?_⟩
  · cases origins_boot config hn
  · refine ⟨?_, fun hw => ?_, fun _ => ?_⟩
    · rw [hnone]
      exact Nat.le_add_left _ _
    · have hu := Graph.lt_size_of_edge hw
      exact ⟨haliveUnheld u hu, haliveUnheld w ((hgraph u.index hu).2.1 w hw)⟩
    · rw [hnone]
      exact (Nat.zero_add _).symm
  · rintro v t ⟨hlive, hliteral⟩
    have hv := Graph.lt_size_of_alive hlive
    have hlive : ((Engine.boot config).graph.get v).alive = true := hlive
    have hliteral : .literal ∈ ((Engine.boot config).graph.get v).origins t := hliteral
    have htypes := (hgraph v.index hv).2.2
    unfold Vertex.origins at hliteral
    cases horigins : ((Engine.boot config).graph.get v).types.get? t with
    | none =>
      rw [horigins] at hliteral
      exact absurd hliteral List.not_mem_nil
    | some os =>
      rw [horigins] at hliteral
      obtain ⟨y, hy, hyv⟩ := htypes _ (OrderedMap.mem_entries_of_get? horigins) hliteral
      exact .inl ⟨y.1, (OrderedMap.get?_of_mem_entries hunique hy).trans (congrArg some hyv)⟩

end Boot

namespace Workspace

variable {w : Workspace} {log : List Event} {boot : Engine}

theorem Settled.records_empty (h : w.Settled log) (hd : w.documents = {}) : w.engine.nodes =
    {} := by
  refine OrderedMap.eq_empty fun n hn => ?_
  obtain ⟨r, hr⟩ := Option.isSome_iff_exists.1 (OrderedMap.get?_isSome_iff.2 hn)
  have hkey := ((h.kept.homed _ h.fits.called).keys n).2 ⟨r, hr⟩
  simp [hd, nodesOf, OrderedMap.values] at hkey

theorem Settled.sites_dead (h : w.Settled log) (hd : w.documents = {}) (s : SiteId) :
    w.engine.isLive s = false := by
  cases hx : w.engine.site? s with
  | none => simp [Engine.isLive, hx]
  | some x =>
    cases hdead : x.destroyed with
    | true => simp [Engine.isLive, hx, hdead]
    | false =>
      rcases (h.kept.homed _ h.fits.called).homes.sites s x.node ⟨x, hx, hdead, rfl⟩ with
        ⟨r, hr, -⟩ | ⟨r, hr, -⟩
      · have hr : w.engine.nodes.get? x.node = some r := hr
        rw [h.records_empty hd] at hr
        cases hr
      · cases hr

theorem Settled.posts_empty (h : w.Settled log) (hd : w.documents = {}) (p : Posting) :
    w.engine.world.posts p = [] := by
  refine List.eq_nil_iff_forall_not_mem.2 fun u hu => ?_
  obtain ⟨x, hx, hlive, -⟩ := h.namesTracked.posted.live p u hu
  have hx : w.engine.site? u = some x := hx
  have hdead := h.sites_dead hd u
  simp [Engine.isLive, hx, hlive] at hdead

theorem Settled.origins_native (h : w.Settled log) (ha : (w.rest log).Audited boot)
    (hd : w.documents = {}) {r : Registration} {o : DefOrigin} (ho : o ∈ w.engine.world.origins r) :
    o = .builtin := by
  cases o with
  | builtin => rfl
  | node n =>
    obtain ⟨x, hrec | hlift, -⟩ := ha.signed r n ho
    · have hrec : w.engine.nodes.get? n = some x := hrec
      rw [h.records_empty hd] at hrec
      cases hrec
    · cases hlift

theorem Settled.slots_dead (h : w.Settled log) (hd : w.documents = {}) {s : SiteId} {x : Site}
    (hx : w.engine.site? s = some x) : x.destroyed = true := by
  have hdead := h.sites_dead hd s
  simpa [Engine.isLive, hx] using hdead

section Native

variable (hboot : ∀ r, ∀ o ∈ boot.world.origins r, o = .builtin)

include hboot

theorem Settled.decls_native (h : w.Settled log) (ha : (w.rest log).Audited boot)
    (hd : w.documents = {}) (m : ModuleId) :
    (w.engine.world.get m).decls = (boot.world.get m).decls := by
  have hall : ∀ {v : World}, (∀ o ∈ v.origins (.module m), o = .builtin) →
      (v.get m).decls.entries.filter (fun x => x.1.native) = (v.get m).decls.entries := by
    refine fun hv => List.filter_eq_self.2 fun x hx => ?_
    rw [hv x.1 (List.mem_map_of_mem hx)]
    rfl
  have hsame := ha.native.decls m
  rw [hall (hboot _)] at hsame
  exact congrArg OrderedMap.mk ((hall fun o => h.origins_native ha hd).symm.trans hsame)

theorem Settled.includes_native (h : w.Settled log) (ha : (w.rest log).Audited boot)
    (hd : w.documents = {}) (m : ModuleId) :
    (w.engine.world.get m).includes = (boot.world.get m).includes := by
  have hall : ∀ {v : World}, (∀ target, ∀ o ∈ v.origins (.inclusion m target), o = .builtin) →
      (v.get m).includes.entries.filter (fun x => x.1.1.native) = (v.get m).includes.entries := by
    refine fun hv => List.filter_eq_self.2 fun x hx => ?_
    rw [hv x.1.2 x.1.1 (World.mem_origins_inclusion.2 (List.mem_map_of_mem hx))]
    rfl
  have hsame := ha.native.includes m
  rw [hall fun _ => hboot _] at hsame
  exact congrArg OrderedMap.mk ((hall fun _ o => h.origins_native ha hd).symm.trans hsame)

theorem Settled.lineage_native (h : w.Settled log) (ha : (w.rest log).Audited boot)
    (hd : w.documents = {}) (hr : boot.world.Related) (m : ModuleId) :
    (w.engine.world.get m).lineage = (boot.world.get m).lineage := by
  have hlineage : (w.engine.world.get m).lineage = _ := (h.namesTracked.related.derives m).lineage
  rw [hlineage, (hr.derives m).lineage]
  show w.engine.world.lineageOf m (w.engine.world.get m).decls.values = _
  rw [h.decls_native hboot ha hd]
  exact World.lineageOf_congr (World.finds_of_path ha.native.size ha.native.path)
    (hr.derives m).found

end Native

theorem Settled.laid_zero (h : w.Settled log) (ha : (w.rest log).Audited boot)
    (hd : w.documents = {}) (u v : VertexId) : laid u v (w.rest log) = 0 := by
  show w.engine.nodes.tally _ + w.engine.sites.total _ + 0 + 0 = 0
  rw [h.records_empty hd]
  refine (Nat.add_zero _).trans ((Nat.zero_add _).trans (List.sum_eq_zero fun n hn => ?_))
  obtain ⟨x, hx, rfl⟩ := List.mem_map.1 hn
  obtain ⟨i, hi⟩ := List.mem_iff_getElem?.1 hx
  rw [Array.getElem?_toList] at hi
  have hx : w.engine.site? ⟨i⟩ = some x := hi
  rw [(ha.blank.slots ⟨i⟩ x hx (.inl (h.slots_dead hd hx))).1]
  rfl

theorem Settled.not_places (h : w.Settled log) (ha : (w.rest log).Audited boot)
    (hd : w.documents = {}) (v : VertexId) : ¬(w.rest log).Places v := by
  rintro (⟨n, ⟨r, hr, -⟩ | ⟨r, hr, -⟩⟩ | ⟨u, ⟨hx, hv⟩ | ⟨ht, -⟩ | hv⟩)
  · have hr : w.engine.nodes.get? n = some r := hr
    rw [h.records_empty hd] at hr
    cases hr
  · cases hr
  · have hheld := mem_holdings.2 (.inl hv)
    rw [(ha.blank.slots _ _ hx (.inl (h.slots_dead hd hx))).2.1] at hheld
    exact List.not_mem_nil hheld
  · cases ht
  · cases hv

theorem Settled.owners_native {config : Config} (h : w.Settled log)
    (ha : (w.rest log).Audited (Engine.boot config)) (hd : w.documents = {}) (u v : VertexId) :
    (w.engine.graph.get u).owners v =
      if v ∈ ((Engine.boot config).graph.get u).successors then 1 else 0 := by
  obtain ⟨hle, -, heq⟩ := ha.edges u v
  have hbase := Boot.owners_boot config u v
  rw [h.laid_zero ha hd, hbase, Nat.zero_add] at hle heq
  split
  · next hv => exact (heq hv).trans (if_pos hv)
  · next hv => exact Nat.le_zero.1 (hle.trans_eq (if_neg hv))

end Workspace

theorem Graph.mem_successors_iff {g : Graph} {born : VertexId → List Ty} (h : g.Settled born)
    {u v : VertexId} : v ∈ (g.get u).successors ↔ 0 < (g.get u).owners v := by
  refine ⟨(h.tidy u).owned v, fun hpos => ?_⟩
  by_contra hv
  rw [Vertex.owners, OrderedMap.get?_eq_none_iff.2 hv] at hpos
  exact Nat.lt_irrefl 0 hpos

theorem Boot.const_of_edge (config : Config) {u v : VertexId}
    (h : v ∈ ((Engine.boot config).graph.get u).successors) :
    ∃ key c, (Engine.boot config).world.const? key = some c ∧ c.vertex = v := by
  have hall : ∀ i < startGraph.vertices.size, ∀ v ∈ (startGraph.get ⟨i⟩).successors,
      ∃ x ∈ (startWorld.get Core.object).consts.entries, x.2.vertex = v := by
    decide +kernel
  have hunique : (startWorld.get Core.object).consts.keys.Nodup := by decide +kernel
  rw [Engine.graph_boot] at h
  rw [Engine.world_boot]
  generalize startGraph = g at hall h
  generalize startWorld = w at hall hunique
  obtain ⟨x, hx, hv⟩ := hall u.index (Graph.lt_size_of_edge h) v h
  exact ⟨⟨Core.object, x.1⟩, x.2, OrderedMap.get?_of_mem_entries hunique hx, hv⟩

namespace Workspace

variable {w : Workspace} {log : List Event} {boot : Engine}

theorem Settled.method_blank (h : w.Settled log) (ha : (w.rest log).Audited boot)
    (hd : w.documents = {}) (hno : ∀ key, .builtin ∉ boot.world.origins (.alias key))
    {key : MemberKey} {m : MethodEntity} (hm : w.engine.world.method? key = some m) :
    m.decls = {} ∧ m.defs = {} ∧ m.aliases = {} ∧ m.callsites = {} := by
  have hsignatures : ((w.engine.world.method? key).map fun m => m.decls.toList).getD [] = [] :=
    h.posts_empty hd (.signature key)
  have hbodies : ((w.engine.world.method? key).map fun m => m.defs.toList).getD [] = [] :=
    h.posts_empty hd (.body key)
  rw [hm] at hsignatures hbodies
  refine ⟨congrArg OrderedSet.mk hsignatures, congrArg OrderedSet.mk hbodies,
    OrderedMap.eq_empty fun o ho => ?_, OrderedSet.eq_empty fun u hu => ?_⟩
  · have ho : o ∈ w.engine.world.origins (.alias key) :=
      World.mem_origins_alias.2 (by rw [hm]; exact ho)
    cases h.origins_native ha hd ho
    exact hno key (ha.native.origins _ ho)
  · exact h.kept.sound.machine.filed.toExact.not_mem_watchers (h.sites_dead hd u) (.method key)
      (World.mem_watchers_method.2 ⟨m, hm, hu⟩)

theorem Settled.types_native (h : w.Settled log) (ha : (w.rest log).Audited boot)
    (hd : w.documents = {}) {v : VertexId}
    (hs : ∀ ts, w.engine.graph.shared.get? ts ≠ some v)
    (he : ∀ u, v ∉ (w.engine.graph.get u).successors) : w.engine.typesAt v = [] := by
  obtain ⟨born, howned⟩ := h.kept.owned
  have hsettled : w.engine.graph.Settled born := howned.settled
  refine List.eq_nil_iff_forall_not_mem.2 fun t ht => ?_
  have ht : t ∈ (w.engine.graph.get v).typeList := ht
  cases hv : (w.engine.graph.get v).alive with
  | false =>
    rw [Vertex.typeList, hsettled.dead v hv] at ht
    exact List.not_mem_nil ht
  | true =>
    rcases (hsettled.mem_typeList hv).1 ht with hborn | ⟨u, hu, -⟩
    · rcases ha.literalsPlaced h.whole v t (hsettled.hasLiteral_iff.2 ⟨hv, hborn⟩) with ⟨ts,
        hts⟩ | hplace
      · exact hs ts hts
      · exact h.not_places ha hd v hplace
    · exact he u hu

end Workspace

theorem Boot.not_mem_aliases (config : Config) (key : MemberKey) :
    .builtin ∉ (Engine.boot config).world.origins (.alias key) := by
  have hall : ∀ i < startWorld.modules.size, ∀ b,
      ∀ m ∈ ((startWorld.get ⟨i⟩).methods.get b).values, m.aliases.keys = [] := by
    decide +kernel
  intro h
  have hknows := World.knows_of_mem_origins h
  rw [Engine.world_boot] at h hknows
  generalize startWorld = w at hall h hknows
  rw [World.mem_origins_alias] at h
  cases hm : w.method? key with
  | none =>
    rw [hm] at h
    exact List.not_mem_nil h
  | some m =>
    rw [hm, Option.getD_some, hall _ hknows _ m (List.mem_map_of_mem
      (OrderedMap.mem_entries_of_get? hm))] at h
    exact List.not_mem_nil h

theorem Boot.get_of_not_core (config : Config) {m : ModuleId} (hm : Core.names.length ≤ m.index) :
    (Engine.boot config).world.get m = {} := by
  have hsize : startWorld.modules.size = Core.names.length := rfl
  rw [Engine.world_boot]
  refine World.get_of_not_knows fun hknows => ?_
  rw [World.Knows, hsize] at hknows
  omega

theorem sum_map_le_length {α : Type} {f : α → Nat} (hf : ∀ a, f a ≤ 1) (l : List α) :
    (l.map f).sum ≤ l.length := by
  have hsum := List.sum_le_card_nsmul (l.map f) 1 fun n hn => by
    obtain ⟨a, -, rfl⟩ := List.mem_map.1 hn
    exact hf a
  simpa using hsum

theorem placed_rest_le {f : Load → Nat} (hf : ∀ l, f l ≤ 1) (e : Engine) (log : List Event) :
    placed f (e.rest log) ≤ e.nodes.size + e.sites.size := by
  have hrecords : e.nodes.tally (fun x => f x.2.effects.load) ≤ e.nodes.size :=
    sum_map_le_length (fun x => hf _) _
  have hsites : e.sites.total (fun x => f x.effects.load) ≤ e.sites.size :=
    (sum_map_le_length (fun x => hf _) _).trans_eq Array.length_toList
  show e.nodes.tally _ + e.sites.total _ + 0 + 0 ≤ _
  omega

/-- An edge has at most one owner for each record and each slot for a site, and one of the start. -/
theorem owners_le_serve (config : Config) (rs : List Request) (u v : VertexId) :
    ((serve config rs).engine.vertex u).owners v ≤
      (serve config rs).engine.nodes.size + (serve config rs).engine.sites.size + 1 := by
  obtain ⟨log, hmoves, hfits⟩ := moves_serve config rs
  have ha := (Boot.audited_boot config).moves hmoves (Boot.kept_boot config) ⟨_, hfits.called⟩
  have hstart : ((Engine.boot config).graph.get u).owners v ≤ 1 := by
    rw [Boot.owners_boot config u v]
    split <;> decide
  have hplaced : laid u v ((serve config rs).rest log) ≤ _ :=
    placed_rest_le (fun l => by split <;> decide) (serve config rs).engine log
  exact (ha.edges u v).le.trans (Nat.add_le_add hplaced hstart)

/-- After requests that all succeed and leave no document, the contents of the engine are those of
the start. The counter of nodes is a word of 32 bits and does not go back: if it has not run over
at the end, no identifier on the way was too large for it. Nor was a count of owners, with fewer
records and slots for sites than such a word can count. -/
theorem removal_restores_start (config : Config) {rs : List Request}
    (h : (ofConfig config).accepts rs = true) (hd : (serve config rs).documents.keys = [])
    (hroom : (serve config rs).engine.nextNode < 2 ^ 32) :
    (serve config rs).engine.Restored (Engine.boot config) ∧
      ∀ before, before <+: rs → let e := (serve config before).engine
        (∀ n ∈ e.nodes.keys, n.index < 2 ^ 32) ∧
          ∀ u v, (e.vertex u).owners v ≤ e.nodes.size + e.sites.size + 1 := by
  refine ⟨?_, fun before hp => ⟨fun n hn => (index_lt_nextNode config hp hn).trans hroom,
    owners_le_serve config before⟩⟩
  replace hd : (serve config rs).documents = {} := OrderedMap.eq_empty fun k hk => by
    rw [hd] at hk
    exact List.not_mem_nil hk
  obtain ⟨log, hmoves, hsettled⟩ := settled_serve config h
  have ha := (Boot.audited_boot config).moves hmoves (Boot.kept_boot config) ⟨_,
    hsettled.fits.called⟩
  have hboot : ∀ r, ∀ o ∈ (Engine.boot config).world.origins r, o = .builtin :=
    fun r o => Boot.origins_boot config
  have hlineage := hsettled.lineage_native hboot ha hd (related_boot config)
  have hdecls := hsettled.decls_native hboot ha hd
  have hincludes := hsettled.includes_native hboot ha hd
  have hrelated : (serve config rs).engine.world.Related := hsettled.namesTracked.related
  have hsubclasses : ∀ m c, c ∈ ((serve config rs).engine.world.get m).subclasses.toList ↔
      c ∈ ((Engine.boot config).world.get m).subclasses.toList := fun m c => by
    rw [hrelated.inverse, (related_boot config).inverse, Module.superclass, Module.superclass,
      hlineage]
  have hexact := hsettled.kept.sound.machine.filed.toExact
  obtain ⟨born, howned⟩ := hsettled.kept.owned
  have hgraph : (serve config rs).engine.graph.Settled born := howned.settled
  have howners := hsettled.owners_native ha hd
  have hedge : ∀ u v, v ∈ ((serve config rs).engine.graph.get u).successors ↔
      v ∈ ((Engine.boot config).graph.get u).successors := fun u v => by
    rw [Graph.mem_successors_iff hgraph, howners]
    split <;> simp [*]
  exact {
    sites := hsettled.sites_dead hd
    records := hsettled.records_empty hd
    queue := hsettled.drained
    methods := fun key m => hsettled.method_blank ha hd (Boot.not_mem_aliases config)
    consts := fun key c hc =>
      ⟨fun o ho => hsettled.origins_native ha hd (World.mem_origins_const.2 ⟨c, hc, ho⟩),
        OrderedSet.eq_empty fun u hu => hexact.not_mem_watchers (hsettled.sites_dead hd u)
          (.const key) (World.mem_watchers_const.2 ⟨c, hc, hu⟩)⟩
    ivars := fun key i hi o ho =>
      hsettled.origins_native ha hd (World.mem_origins_ivar.2 ⟨i, hi, ho⟩)
    decls := hdecls
    includes := hincludes
    lineage := hlineage
    subclasses := hsubclasses
    others := fun m hm => by
      have hnew := Boot.get_of_not_core config hm
      refine ⟨(hdecls m).trans (hnew ▸ rfl), (hincludes m).trans (hnew ▸ rfl),
        (hlineage m).trans (hnew ▸ rfl), OrderedSet.eq_empty fun c hc => ?_⟩
      rw [hsubclasses, hnew] at hc
      exact List.not_mem_nil hc
    checks := fun m => ⟨OrderedSet.eq_empty fun u hu =>
      hexact.not_mem_watchers (hsettled.sites_dead hd u) (.superclass m) hu,
        congrArg OrderedSet.mk (hsettled.posts_empty hd (.reader m))⟩
    edges := fun u v => ⟨hedge u v, howners u v⟩
    types := fun v hs hc => hsettled.types_native ha hd hs fun u hu => by
      obtain ⟨key, c, hkey, hv⟩ := Boot.const_of_edge config ((hedge u v).1 hu)
      exact hc key c hkey hv }

/-- A slot is shared between two documents for a while; then all documents go. -/
def removingAll : List Request := sharingSlot ++ ["a", "c", "d"].map .remove

theorem removal_restores_start_shared :
    (serve {} sharingSlot).engine.nodes.keys ≠ [] ∧ (ofConfig {}).accepts removingAll = true ∧
      (serve {} removingAll).documents.keys = [] ∧
      (serve {} removingAll).engine.nextNode < 2 ^ 32 ∧
      (serve {} removingAll).engine.Restored (Engine.boot {}) := by
  obtain ⟨hbefore, haccepts, hdocuments, hroom⟩ :
      (serve {} sharingSlot).engine.nodes.keys ≠ [] ∧ (ofConfig {}).accepts removingAll = true ∧
        (serve {} removingAll).documents.keys = [] ∧
        (serve {} removingAll).engine.nextNode < 2 ^ 32 := by
    simp only [accepts_eq, ofConfig_eq, serve_eq]
    decide +kernel
  exact ⟨hbefore, haccepts, hdocuments, hroom,
    (removal_restores_start {} haccepts hdocuments hroom).1⟩

end TypeFlow
