import TypeFlow.Document.Install
import TypeFlow.Proofs.Lives
import TypeFlow.Proofs.Trees

/-!
# Trees are installed in moves

An installation works on an engine with no work in progress; every part of it is a number of moves,
and none of them fails. The types of `self` in the enclosing scopes stay known, and what a node asks
for is known and can be entered. What becomes of records follows the tree.
-/

set_option autoImplicit false

namespace TypeFlow

open State

section Events

namespace Node

variable {reuse : Pairing} {tree : Node}

def taken (reuse : Pairing) (tree : Node) : List (Node × NodeId) :=
  tree.walk.filterMap fun n => (reuse.old? n.id).map fun old => (n, old)

def takings (reuse : Pairing) (tree : Node) : List Event :=
  (tree.taken reuse).map fun x => .adopt x.1.id x.2

def events (reuse : Pairing) (tree : Node) : List Event :=
  match reuse.old? tree.id with
  | some _ => tree.takings reuse
  | none => .start tree.id :: tree.children.attach.flatMap fun c => c.1.events reuse
termination_by sizeOf tree
decreasing_by exact sizeOf_lt_of_mem_children c.2

def eventsAll (reuse : Pairing) (trees : List Node) : List Event :=
  trees.flatMap (events reuse)

theorem eventsAll_cons (reuse : Pairing) (tree : Node) (trees : List Node) :
    eventsAll reuse (tree :: trees) = tree.events reuse ++ eventsAll reuse trees :=
  List.flatMap_cons

theorem eventsAll_append (reuse : Pairing) (trees trees' : List Node) :
    eventsAll reuse (trees ++ trees') = eventsAll reuse trees ++ eventsAll reuse trees' :=
  List.flatMap_append

theorem eventsAll_singleton (reuse : Pairing) (tree : Node) :
    eventsAll reuse [tree] = tree.events reuse :=
  List.flatMap_singleton _ _

theorem events_of_paired {old : NodeId}
    (h : reuse.old? tree.id = some old) : tree.events reuse = tree.takings reuse := by
  rw [events, h]

theorem events_of_unpaired (h : reuse.old? tree.id = none) :
    tree.events reuse = .start tree.id :: eventsAll reuse tree.children := by
  rw [events, h]
  simp [eventsAll, List.flatMap_subtype]

end Node

variable {d : Progress} {rest : List Opening} {o : Opening}

def Progress.blocking (d : Progress) : Form → Progress
  | .block .. => { d with opened := d.opened.modifyHead fun o => { o with blocked := true } }
  | _ => d

def Progress.begun (d : Progress) (n : NodeId) : Progress :=
  { d.note (.start n) with opened := ⟨n, false⟩ :: d.opened }

theorem Progress.opened_begun (d : Progress) (n : NodeId) (es : List Event) (f : Form) :
    ∃ o, o.node = n ∧ (((d.begun n).notes es).blocking f).opened = o :: d.opened := by
  cases f with
  | block => exact ⟨⟨n, true⟩, rfl, rfl⟩
  | _ => exact ⟨⟨n, false⟩, rfl, rfl⟩

theorem Progress.closed_begun (d : Progress) (n : NodeId) (es : List Event) (f : Form) :
    { ((d.begun n).notes es).blocking f with opened := d.opened } = d.notes (.start n :: es) := by
  cases f <;> simp [blocking, begun, notes, note]

theorem Progress.blocking_block {n : NodeId}
    (h : d.opened = ⟨n, false⟩ :: rest) {params : List String} {body : List Node} :
    d.blocking (.block params body) = { d with opened := ⟨n, true⟩ :: rest } := by
  simp [Progress.blocking, h]

theorem Progress.opens_front (h : d.opened = o :: rest) :
    d.Opens o.node :=
  ⟨o, h ▸ List.mem_cons_self, rfl⟩

theorem Progress.opens_notes {es : List Event}
    (h : d.opened = o :: rest) : (d.notes es).Opens o.node :=
  Progress.opens_front h

end Events

namespace Installation

def bare (i : Installation) (d : Progress) : State := ⟨i.engine, [], d⟩

structure Known (i : Installation) (d : Progress) : Prop where
  selves : ∀ s ∈ i.scopes, s.self.Known i.engine.world
  lifted : d.lifted = none

def Learns (i i' : Installation) : Prop := ∀ m, i.engine.world.Knows m → i'.engine.world.Knows m

theorem Learns.refl (i : Installation) : i.Learns i := fun _ => id

theorem Learns.trans {i i' i'' : Installation} (h : i.Learns i') (h' : i'.Learns i'') :
    i.Learns i'' := fun m hm => h' m (h m hm)

end Installation

def Lays {α : Type} (m : InstallM α) (i : Installation) (d d' : Progress)
    (Q : α → Installation → Prop) : Prop :=
  i.Known d → Drives Installation.bare Never m i d fun a i' d'' =>
    d'' = d' ∧ i'.Known d' ∧ Q a i'

namespace Lays

variable {α β : Type} {m : InstallM α} {i : Installation} {d d' d'' : Progress}
  {P Q : α → Installation → Prop}

theorem intro (h : (i.bare d).machine.Sound → i.Known d → Lays m i d d' Q) : Lays m i d d' Q :=
  fun hi hs => h hs.machine hi hi hs

theorem pure {a : α} (h : Q a i) : Lays (pure a) i d d Q := fun hi => Drives.pure ⟨rfl, hi, h⟩

/-- A part in which nothing becomes of records. -/
theorem still (h : Lays m i d d Q) : Lays m i d (d.notes []) Q := by
  rwa [Progress.notes_nil]

theorem bind {k : α → InstallM β} {R : β → Installation → Prop} {c : Progress} (hm : Lays m i d c P)
    (hk : ∀ a i', i.Learns i' → P a i' → Lays (k a) i' c d' R) : Lays (m >>= k) i d d' R :=
  fun hi => Drives.intro fun hs => Drives.bind (hm hi) fun a i' _ hmoves hp => by
    obtain ⟨rfl, hi', hp⟩ := hp
    exact hk a i' (hmoves.learns hs) hp hi'

theorem imp (h : Lays m i d d' P) (hq : ∀ a i', P a i' → Q a i') : Lays m i d d' Q := fun hi =>
  (h hi).imp fun a i' _ _ ⟨hd, hi', hp⟩ => ⟨hd, hi', hq a i' hp⟩

theorem withState {k : Installation → InstallM β} {R : β → Installation → Prop}
    (h : (i.bare d).machine.Sound → i.Known d → Lays (k i) i d d' R) :
    Lays (get >>= k) i d d' R := fun hi =>
  Drives.withState fun hs => h hs.machine hi hi

theorem scopes : Lays InstallM.scopes i d d fun ss i' =>
    i' = i ∧ ∀ s ∈ ss, s.self.Known i.engine.world :=
  Lays.withState fun _ hi => Lays.pure ⟨rfl, hi.selves⟩

theorem changing {k : InstallM β} {R : β → Installation → Prop} {e : Engine} {m : InstallM β}
    {c : Progress} (hm : m i = k { i with engine := e }) (hd : c.lifted = d.lifted)
    (hmoves : Moves (i.bare d) ⟨e, [], c⟩)
    (hk : i.Learns { i with engine := e } → Lays k { i with engine := e } c d' R) :
    Lays m i d d' R := fun hi hs => by
  have hlearns := hmoves.learns hs
  refine (Drives.after (c := c) hmoves (hk hlearns ⟨fun s hmem => ?_, ?_⟩)).congr hm hs
  · exact (hi.selves s hmem).mono hlearns
  · exact hd.trans hi.lifted

theorem onEngine {f : Engine → α × Engine} (hd : d'.lifted = d.lifted)
    (hmoves : (i.bare d).machine.Sound → Moves (i.bare d) ⟨(f i.engine).2, [], d'⟩)
    (hq : (i.bare d).machine.Sound → Q (f i.engine).1 { i with engine := (f i.engine).2 }) :
    Lays (InstallM.onEngine f) i d d' Q :=
  Lays.intro fun hs _ => Lays.changing (k := Pure.pure (f i.engine).1) rfl hd (hmoves hs)
    fun _ => Lays.pure (hq hs)

theorem changeEngine {f : Engine → Engine} (hd : d'.lifted = d.lifted)
    (hmoves : (i.bare d).machine.Sound → Moves (i.bare d) ⟨f i.engine, [], d'⟩) :
    Lays (InstallM.changeEngine f) i d d' fun _ _ => True :=
  Lays.onEngine hd hmoves fun _ => trivial

theorem changeScopes {f : List Scope → List Scope}
    (h : ∀ s ∈ f i.scopes, s.self.Known i.engine.world) :
    Lays (InstallM.changeScopes f) i d d fun _ _ => True := fun hi =>
  Drives.modify d fun _ => ⟨.refl, rfl, ⟨h, hi.lifted⟩, trivial⟩

theorem mapM {f : α → InstallM β} {R : α → β → Prop} {as : List α}
    (h : ∀ a ∈ as, ∀ i', i.Learns i' → Lays (f a) i' d d fun b _ => R a b) :
    Lays (as.mapM f) i d d fun bs _ => List.Forall₂ R as bs := by
  induction as generalizing i with
  | nil => exact Lays.pure .nil
  | cons a as ih =>
    rw [List.mapM_cons]
    refine Lays.bind (h a List.mem_cons_self i (Installation.Learns.refl i)) fun b i' hi' hb => ?_
    refine Lays.bind (ih fun c hc i'' hi'' => h c (List.mem_cons_of_mem _ hc) i'' (hi'.trans hi''))
      fun bs _ _ hbs => Lays.pure (.cons hb hbs)

end Lays

namespace Engine

theorem moves_adoptTree (e : Engine) (path : String) (reuse : Node.Pairing) (tree : Node)
    {d : Progress} (hl : d.lifted = none) :
    Moves ⟨e, [], d⟩ ⟨e.adoptTree path reuse tree, [], d.notes (tree.takings reuse)⟩ := by
  have hfold : ∀ (xs : List (Node × NodeId)) (rename : NodeId → NodeId) (e : Engine) (d : Progress),
      d.lifted = none → Moves ⟨e, [], d⟩
        ⟨xs.foldl (fun e x => e.adoptNode path rename x.1 x.2) e, [],
          d.notes (xs.map fun x => .adopt x.1.id x.2)⟩ := by
    intro xs rename
    induction xs with
    | nil =>
      intro e d _
      rw [List.map_nil, Progress.notes_nil]
      exact .refl
    | cons x xs ih =>
      intro e d hl
      have hone : Moves ⟨e, [], d⟩ _ := .single (.adopt path rename x.1 x.2 hl)
      have hrest := hone.trans (ih (e.adoptNode path rename x.1 x.2) (d.note (.adopt x.1.id x.2))
        hl)
      rwa [show (d.note (.adopt x.1.id x.2)).notes _ = d.notes _ from (Progress.notes_append d _
        _).symm]
        at hrest
  exact hfold (tree.taken reuse) _ e d hl

end Engine

namespace Effects

variable {n : NodeId} {w : World} {fx : Effects}

theorem Modest.mono {w' : World} (h : fx.Modest n w) (hw : ∀ m, w.Knows m → w'.Knows m) :
    fx.Modest n w' :=
  ⟨h.fresh, h.edges, h.sites,
    fun x hx => ⟨(h.asked x hx).1, (h.asked x hx).2.1.mono hw, (h.asked x hx).2.2⟩, h.reads, h.bare⟩

theorem modest_empty : ({} : Effects).Modest n w :=
  ⟨rfl, List.nodup_nil, List.nodup_nil, fun _ hx => absurd hx List.not_mem_nil,
    fun d => by cases d <;> exact List.not_mem_nil, rfl⟩

theorem Modest.addEdge (h : fx.Modest n w) (src dst : VertexId) : (fx.addEdge src dst).Modest n w :=
  ⟨h.fresh, OrderedSet.nodup_insert _ h.edges, h.sites, h.asked,
    fun d hd => h.reads d (by cases d <;> exact hd), h.bare⟩

theorem Modest.addSite (h : fx.Modest n w) (key : SiteKey) {rule : Rule} (hr : rule.Known w)
    (hc : rule.Complete) : (fx.addSite key n rule).Modest n w :=
  ⟨h.fresh, h.edges, OrderedMap.nodup_keys_insert _ _ h.sites,
    OrderedMap.forall_mem_values_insert h.asked ⟨rfl, hr, hc⟩,
    fun d hd => h.reads d (by cases d <;> exact hd), h.bare⟩

theorem modest_ofEdges (edges : List (VertexId × VertexId)) : (ofEdges edges).Modest n w := by
  have hfold : ∀ (es : List (VertexId × VertexId)) {fx : Effects}, fx.Modest n w →
      (es.foldl (fun fx e => fx.addEdge e.1 e.2) fx).Modest n w := by
    intro es
    induction es with
    | nil => exact fun h => h
    | cons e es ih => exact fun h => ih (h.addEdge e.1 e.2)
  exact hfold edges modest_empty

theorem modest_ofSite (slot : String) {rule : Rule} (hr : rule.Known w) (hc : rule.Complete) :
    (ofSite slot n rule).Modest n w :=
  modest_empty.addSite _ hr hc

end Effects

namespace VertexTable

theorem isSome_get?_ofList {es : List (String × VertexId)} {name : String}
    (h : name ∈ es.map Prod.fst) : ((ofList es).get? name).isSome = true := by
  have hkeys : ∀ (es : List (String × VertexId)) (m : OrderedMap String VertexId),
      name ∈ es.map Prod.fst ∨ name ∈ m.keys →
        name ∈ (es.foldl (fun m e => m.insert e.1 e.2) m).keys := by
    intro es
    induction es with
    | nil => exact fun m h => h.resolve_left List.not_mem_nil
    | cons e es ih =>
      refine fun m h => ih _ ?_
      rw [OrderedMap.mem_keys_insert]
      simp only [List.map_cons, List.mem_cons] at h
      tauto
  obtain ⟨x, hx, hname⟩ := List.mem_map.1 (hkeys es {} (Or.inl h))
  rw [get?, Option.isSome_map, List.find?_isSome]
  exact ⟨x, List.mem_mergeSort.2 hx, by simpa using hname⟩

end VertexTable

namespace Place

def Known (p : Place) (w : World) : Prop := ∀ m ∈ p.nesting, w.Knows m

theorem Known.module {p : Place} {w : World} (h : p.Known w) (hc : w.Closed) :
    w.Knows p.module := by
  unfold Place.module
  cases hn : p.nesting with
  | nil => exact hc.knows_core (by decide)
  | cons m ms => exact h m (hn ▸ List.mem_cons_self)

end Place

namespace Lays

variable {i : Installation} {d d' : Progress} {n : NodeId}

section Primitives

theorem source {t : Ty} (h : t.Known i.engine.world) :
    Lays (InstallM.source t) i d d fun _ _ => True :=
  Lays.onEngine rfl (fun _ => .single (.source fun _ hx => List.mem_singleton.1 hx ▸ h))
    fun _ => trivial

theorem emptyVertex : Lays (InstallM.onEngine Engine.emptyVertex) i d d fun _ _ => True :=
  Lays.onEngine rfl (fun _ => .single (.source fun _ hx => absurd hx List.not_mem_nil))
    fun _ => trivial

theorem nil : Lays InstallM.nil i d d fun _ _ => True := Lays.source trivial

theorem symbol : Lays InstallM.symbol i d d fun _ _ => True :=
  Lays.intro fun hs _ => Lays.source (hs.grounded.closed.knows_core (m := Core.symbol) (by decide))

theorem owned {create : Engine → VertexId × Engine}
    (hmove : Move (i.bare d) ⟨(create i.engine).2.modifyNode n fun x =>
      { x with vertices := x.vertices ++ [(create i.engine).1] }, [], d⟩) :
    Lays (do let v ← InstallM.onEngine create; InstallM.own n v; return v) i d d fun _ _ => True :=
  Lays.changing (k := Pure.pure (create i.engine).1) rfl rfl (.single hmove) fun _ => Lays.pure
    trivial

theorem vertex (n : NodeId) (label : String) :
    Lays (InstallM.vertex n label) i d d fun _ _ => True :=
  Lays.owned (.ownVertex n label)

theorem ownedSource (hn : d.Opens n) {t : Ty} (h : t.Known i.engine.world) :
    Lays (InstallM.ownedSource n t) i d d fun _ _ => True :=
  Lays.owned (.ownSource hn h)

theorem resolvePath (path : ConstPath) :
    Lays (InstallM.onEngine (·.resolvePath path)) i d d fun m i' => i'.engine.world.Knows m :=
  Lays.onEngine rfl (fun _ => .single (.aside (Engine.Quiet.resolvePath _ path))) fun hs =>
    World.knows_resolve ((World.Grows.resolve _ path).closed hs.grounded.closed)

theorem globalVertex (name : String) :
    Lays (InstallM.onEngine (·.globalVertex name)) i d d fun _ _ => True :=
  Lays.onEngine rfl (fun _ => Engine.moves_globalVertex _ name) fun _ => trivial

theorem defining {α β : Type} {f : Engine → α × Engine} {k : α → InstallM β}
    {R : β → Installation → Prop} (entry : Entry) (hn : d.Opens n)
    (hf : (f i.engine).2 = i.engine.enter (.node n) entry) (hknown : entry.Known i.engine.world)
    (hk : ∀ i', i.Learns i' → Lays (k (f i.engine).1) i' d d' R) :
    Lays (do let a ← InstallM.onEngine f; InstallM.register n entry.registration; k a) i d d' R :=
      by
  refine Lays.changing (k := k (f i.engine).1) (e := i.engine.define n entry) ?_ rfl
    (.single (.define hn hknown)) fun h => hk _ h
  show k (f i.engine).1 { i with engine := (f i.engine).2.modifyNode n fun r =>
    { r with registrations := r.registrations ++ [entry.registration] } } = _
  rw [hf]
  rfl

theorem setReturns (n : NodeId) (scope : Option Scope) :
    Lays (InstallM.setReturns n scope) i d d fun _ _ => True :=
  Lays.changeEngine rfl fun _ =>
    .single (.annotate n ⟨fun _ => rfl, fun _ => rfl, fun _ => rfl, fun _ => rfl, fun _ => rfl⟩)

end Primitives

section Scopes

variable {w : World} {f : Scope → Scope} {ss : List Scope} {p : Place}

theorem known_modifyInnermost (hf : ∀ s, (f s).self = s.self) (h : ∀ s ∈ ss, s.self.Known w) :
    ∀ s ∈ Scope.modifyInnermost f ss, s.self.Known w := by
  cases ss with
  | nil => exact h
  | cons s ss =>
    obtain ⟨hs, hss⟩ := List.forall_mem_cons.1 h
    refine List.forall_mem_cons.2 ⟨?_, hss⟩
    rw [hf]
    exact hs

theorem known_modifyMethod (hf : ∀ s, (f s).self = s.self) (h : ∀ s ∈ ss, s.self.Known w) :
    ∀ s ∈ Scope.modifyMethod f ss, s.self.Known w := by
  induction ss with
  | nil => exact h
  | cons s ss ih =>
    obtain ⟨hs, hss⟩ := List.forall_mem_cons.1 h
    unfold Scope.modifyMethod
    split
    · refine List.forall_mem_cons.2 ⟨?_, hss⟩
      rw [hf]
      exact hs
    · exact List.forall_mem_cons.2 ⟨hs, ih hss⟩
    · exact h
    · exact h

theorem changeInnermost (hf : ∀ s, (f s).self = s.self) :
    Lays (InstallM.changeScopes (Scope.modifyInnermost f)) i d d fun _ _ => True :=
  Lays.intro fun _ hi => Lays.changeScopes (known_modifyInnermost hf hi.selves)

theorem pushScope {s : Scope} (h : s.self.Known i.engine.world) :
    Lays (InstallM.pushScope s) i d d fun _ _ => True :=
  Lays.intro fun _ hi => Lays.changeScopes (List.forall_mem_cons.2 ⟨h, hi.selves⟩)

theorem popScope : Lays InstallM.popScope i d d fun _ _ => True := fun hi =>
  Drives.modifyGet d fun _ => ⟨.refl, rfl,
    ⟨fun s hs => hi.selves s (List.mem_of_mem_tail hs), hi.lifted⟩, trivial⟩

theorem known_selfType (hc : w.Closed)
    (h : ∀ s ∈ ss, s.self.Known w) : (Scope.selfType ss).Known w := by
  unfold Scope.selfType
  cases ss with
  | nil => exact hc.knows_core (m := Core.object) (by decide)
  | cons s ss => exact h s List.mem_cons_self

theorem defineLocal (name : String) : Lays (InstallM.defineLocal name) i d d fun _ _ => True := by
  refine Lays.bind Lays.scopes fun ss _ _ _ => ?_
  split
  · exact Lays.emptyVertex
  · refine Lays.bind (Lays.vertex _ _) fun v _ _ _ => ?_
    exact Lays.bind (Lays.changeInnermost fun _ => rfl) fun _ _ _ _ => Lays.pure trivial

theorem localVar (name : String) : Lays (InstallM.localVar name) i d d fun _ _ => True := by
  refine Lays.bind Lays.scopes fun ss _ _ _ => ?_
  split
  · exact Lays.pure trivial
  · exact Lays.defineLocal name

theorem selfSide (hp : p.Known i.engine.world) :
    Lays (InstallM.selfSide p) i d d fun side i' => i'.engine.world.Knows side.module := by
  refine Lays.intro fun hs _ => Lays.bind Lays.scopes fun ss i' _ hss => ?_
  obtain ⟨rfl, hss⟩ := hss
  have hself := known_selfType hs.grounded.closed hss
  split
  · next m hm =>
    rw [hm] at hself
    exact Lays.pure hself
  · next m _ hm =>
    rw [hm] at hself
    exact Lays.pure hself
  · exact Lays.pure (hp.module hs.grounded.closed)

theorem defineIvar (hp : p.Known i.engine.world) (hn : d.Opens n) (name : String) :
    Lays (InstallM.defineIvar p n name) i d d fun _ _ => True :=
  Lays.bind (Lays.selfSide hp) fun side _ _ _ =>
    Lays.defining (.ivar ⟨side, name⟩) hn rfl trivial fun _ _ => Lays.pure trivial

theorem lastOrNil (vs : List VertexId) : Lays (InstallM.lastOrNil vs) i d d fun _ _ => True := by
  unfold InstallM.lastOrNil
  split
  · exact Lays.pure trivial
  · exact Lays.nil

end Scopes

section Nodes

def Wired (n : NodeId) (x : Wiring) (i : Installation) : Prop := x.2.Modest n i.engine.world

theorem beginNode (p : Place) (n : NodeId) (span : Span) :
    Lays (InstallM.beginNode p n span) i d (d.begun n) fun _ _ => True :=
  Lays.intro fun _ hi => Lays.changeEngine rfl fun _ => .single (.start n p.path span hi.lifted)

theorem finishNode {o : Opening} {rest : List Opening} (ho : d.opened = o :: rest) (hn : o.node = n)
    (nameSpan : Option Span) (v : VertexId) {fx : Effects} (h : fx.Modest n i.engine.world) :
    Lays (InstallM.finishNode n nameSpan v fx) i d { d with opened := rest } fun _ _ => True := by
  intro hi hs
  have hopens : d.Opens n := ⟨o, ho ▸ List.mem_cons_self, hn⟩
  have hopen : Moves (i.bare d) (Run.under (.node n) (some n) [] d ⟨i.engine, fx⟩ {}) :=
    .single (.openNode hi.lifted hopens h)
  have hinstall : Drives (Run.under (.node n) (some n) [] d) Never (Engine.install (.node n))
      ⟨i.engine, fx⟩ {} _ :=
    Run.drives_installWith (w := .node n) (Engine.destroys_destroySite _) (Nat.le_refl _) rfl
  replace hinstall := hinstall (hs.moves hopen)
  revert hinstall
  unfold InstallM.finishNode
  cases Engine.install (.node n) ⟨i.engine, fx⟩ with
  | error f r => exact fun ⟨_, _, hf⟩ => hf.elim
  | ok _ r =>
    rintro ⟨b, hmoves, sites, hr, hout, -⟩
    have hbare : r.effects.pending.scratch = {} := by
      rw [hr]
      rfl
    have hclose : Moves (i.bare d) ⟨r.engine.modifyNode n fun x =>
        { x with ret := some v, nameSpan, effects := r.effects }, [], { d with opened := rest }⟩ :=
      (hopen.trans hmoves).tail (.closeNode (some v) nameSpan rfl ho hn hbare hout)
    exact ⟨_, hclose, rfl, ⟨fun s hmem => (hi.selves s hmem).mono (hclose.learns hs), hi.lifted⟩,
      trivial⟩

theorem closeBody (body : List Node) (values : List VertexId) (ret : VertexId) :
    Lays (InstallM.closeBody body values ret) i d d fun _ _ => True := by
  unfold InstallM.closeBody
  split
  · split
    · exact Lays.pure trivial
    · exact Lays.bind (Lays.changeInnermost fun _ => rfl) fun _ _ _ _ => Lays.pure trivial
  · exact Lays.bind Lays.nil fun _ _ _ _ => Lays.pure trivial

theorem receiver (given : Option VertexId) : Lays (InstallM.receiver given) i d d fun _ _ => True :=
    by
  unfold InstallM.receiver
  split
  · exact Lays.pure trivial
  · refine Lays.intro fun hs _ => Lays.bind Lays.scopes fun ss i' _ hss => ?_
    obtain ⟨rfl, hss⟩ := hss
    exact Lays.source (known_selfType hs.grounded.closed hss)

theorem returnFrom (scope : Option Scope) {note : (Scope → Scope) → List Scope → List Scope}
    (hnote : ∀ (f : Scope → Scope), (∀ s, (f s).self = s.self) → ∀ (w : World) (ss : List Scope),
      (∀ s ∈ ss, s.self.Known w) → ∀ s ∈ note f ss, s.self.Known w) (n : NodeId) (v : VertexId) :
    Lays (InstallM.returnFrom scope note n v) i d d (Wired n) := by
  unfold InstallM.returnFrom
  split
  · exact Lays.pure Effects.modest_empty
  · refine Lays.bind (Lays.intro fun _ hi => Lays.changeScopes ?_) fun _ _ _ _ =>
      Lays.pure (Effects.modest_ofEdges _)
    exact hnote (Scope.addReturn n) (fun _ => rfl) _ _ hi.selves

theorem openModule (p : Place) (hn : d.Opens n) (path : ConstPath) (decl : ModuleDecl) :
    Lays (InstallM.openModule p n path decl) i d d fun x i' =>
      i'.engine.world.Knows x.1 ∧ x.2.Modest n i'.engine.world := by
  refine Lays.withState fun _ _ => ?_
  refine Lays.bind (Lays.resolvePath _) fun m i1 _ hm => ?_
  refine Lays.defining (f := fun e => ((), e.addModuleDecl m (.node n) decl)) (.module m decl) hn
    rfl trivial fun i2 h2 => ?_
  have hm2 := h2 m hm
  split
  · exact Lays.pure ⟨hm2, Effects.modest_empty⟩
  · next name _ =>
    refine Lays.bind (Lays.resolvePath _) fun parent i3 h3 _ => ?_
    refine Lays.defining (.const ⟨parent, name⟩) hn rfl trivial fun i4 h4 => ?_
    have hm4 := h4 m (h3 m hm2)
    refine Lays.bind (Lays.source (t := .singletonOf m) hm4) fun src i5 h5 _ => ?_
    exact Lays.pure ⟨h5 m hm4, Effects.modest_ofEdges _⟩

theorem defineLocals (names : List String) :
    Lays (InstallM.defineLocals names) i d d fun vars _ => vars.map Prod.fst = names := by
  have hall : Lays (InstallM.defineLocals names) i d d fun vars _ =>
      List.Forall₂ (fun name x => x.1 = name) names vars :=
    Lays.mapM fun name _ _ _ => Lays.bind (Lays.defineLocal name) fun _ _ _ _ => Lays.pure rfl
  refine hall.imp fun vars _ h => ?_
  clear hall
  induction h with
  | nil => rfl
  | cons hx _ ih => rw [List.map_cons, hx, ih]

theorem defineRest (hn : d.Opens n) (rest : Option String) :
    Lays (InstallM.defineRest n rest) i d d fun x _ => x.1.map Prod.fst = rest.toList := by
  cases rest with
  | none => exact Lays.pure rfl
  | some name =>
    refine Lays.bind (Lays.vertex n _) fun elem _ _ _ => ?_
    refine Lays.bind (Lays.defineLocal name) fun v _ _ _ => Lays.intro fun hs _ => ?_
    have hknown := hs.grounded.closed.knows_core (m := Core.array) (by decide)
    exact Lays.bind (Lays.ownedSource hn (t := .instanceOf Core.array [elem]) hknown)
      fun _ _ _ _ => Lays.pure rfl

theorem assignTarget {p : Place} (hp : p.Known i.engine.world) (hn : d.Opens n) (t : Target) :
    Lays (InstallM.assignTarget p n t) i d d fun _ _ => True := by
  cases t with
  | localVar name => exact Lays.localVar name
  | ivar name => exact Lays.defineIvar hp hn name
  | gvar name => exact Lays.globalVertex name

theorem defineConst (p : Place) (hn : d.Opens n) (name : String) :
    Lays (InstallM.defineConst p n name) i d d fun _ _ => True :=
  Lays.defining (.const ⟨p.module, name⟩) hn rfl trivial fun _ _ => Lays.pure trivial

theorem installBlock {β : Type} {rest : List Opening} {k : BlockId → InstallM β}
    {R : β → Installation → Prop} (hd : d.opened = ⟨n, false⟩ :: rest) (params : List VertexId)
    (ret : VertexId) (scope : Option Scope)
    (hk : ∀ b i', i.Learns i' →
      Lays (k b) i' { d with opened := ⟨n, true⟩ :: rest } d' R) :
    Lays (do
      let b ← InstallM.onEngine (·.addBlock { node := n, params, ret })
      InstallM.setReturns n scope
      InstallM.changeEngine (·.modifyNode n fun r => { r with block := some b })
      k b) i d d' R :=
  Lays.changing (e := i.engine.installBlock { node := n, params, ret } (scope.elim
    [] Scope.returns))
    (k := k (i.engine.addBlock { node := n, params, ret }).1)
    (c := { d with opened := ⟨n, true⟩ :: rest }) rfl rfl
    (.single (.installBlock (b := { node := n, params, ret }) _ hd)) fun h => hk _ _ h

theorem adopt (p : Place) (tree : Node) :
    Lays (InstallM.adopt p tree) i d (d.notes (tree.takings p.reuse)) fun _ _ => True := by
  refine Lays.intro fun _ hi => Lays.bind (c := d.notes (tree.takings p.reuse))
    (Lays.changeEngine rfl fun _ => Engine.moves_adoptTree _ _ _ tree hi.lifted)
    fun _ _ _ _ => Lays.withState fun _ _ => ?_
  split
  · exact Lays.pure trivial
  · exact Lays.emptyVertex

end Nodes

section Trees

variable {p : Place}
variable {m : ModuleId} {params : Params} {o : Option Node} {rest : List Opening}

theorem literal {t : Ty} (h : t.Known i.engine.world) :
    Lays (do return (← InstallM.source t, {}) : InstallM Wiring) i d (d.notes []) (Wired n) :=
  Lays.still (Lays.bind (Lays.source h) fun _ _ _ _ => Lays.pure Effects.modest_empty)

theorem coreLiteral (h : m.index < Core.names.length) :
    Lays (do return (← InstallM.source (.plain m), {}) : InstallM Wiring) i d (d.notes [])
      (Wired n) :=
  Lays.intro fun hs _ => literal (hs.grounded.closed.knows_core (m := m) h)

theorem placed {i' : Installation} (h : i.Learns i') (hp : p.Known i.engine.world) :
    p.Known i'.engine.world :=
  fun m hm => h m (hp m hm)

theorem moduleBody {i1 : Installation} (h1 : i.Learns i1) (hp : p.Known i.engine.world)
    {fx : Effects} (hm : i1.engine.world.Knows m)
    (hfx : fx.Modest n i1.engine.world) {body : InstallM (List VertexId)}
    (hbody : ∀ {i' : Installation},
      Place.Known { p with nesting := m :: p.nesting } i'.engine.world →
      Lays body i' d d' fun _ _ => True) :
    Lays (do
      InstallM.pushScope { kind := .moduleBody, owner := n, self := .singletonOf m }
      let vs ← body
      let _ ← InstallM.popScope
      return (← InstallM.lastOrNil vs, fx) : InstallM Wiring) i1 d d' (Wired n) := by
  refine Lays.bind (Lays.pushScope hm) fun _ _ h2 _ => ?_
  refine Lays.bind (hbody (List.forall_mem_cons.2 ⟨h2 m hm, placed (h1.trans h2) hp⟩))
    fun vs _ h3 _ => ?_
  refine Lays.bind Lays.popScope fun _ _ h4 _ => ?_
  refine Lays.bind (Lays.lastOrNil vs) fun _ _ h5 _ => Lays.pure ?_
  exact hfx.mono fun m hm => h5 m (h4 m (h3 m (h2 m hm)))

/-- Every parameter by position has a vertex that arguments flow to. -/
theorem complete_methodDef {args : List (String × VertexId)} {key : MemberKey}
    {block : Option VertexId} {ret : VertexId}
    (h : args.map Prod.fst = params.req ++ params.opt.map OptParam.name ++ params.rest.toList ++
      params.post) :
    Rule.Complete (.methodDef {
      key, block, ret, args := .ofList args,
      formals := {
        req := params.req, opt := params.opt.map OptParam.name, rest := params.rest,
        post := params.post, block := params.block } }) := by
  intro name hname
  refine VertexTable.isSome_get?_ofList ?_
  rw [h]
  exact hname

def Laid (tree : Node) : Prop :=
  ∀ {p : Place} {i : Installation} {d : Progress}, p.Known i.engine.world →
    Lays (tree.install p) i d (d.notes (tree.events p.reuse)) fun _ _ => True

theorem installOne {value : Node} (hp : p.Known i.engine.world) (h : ∀ c ∈ [value], Laid c) :
    Lays (value.install p) i d (d.notes (Node.eventsAll p.reuse [value])) fun _ _ => True := by
  rw [Node.eventsAll_singleton]
  exact h value List.mem_cons_self hp

theorem installList {ns : List Node} (hp : p.Known i.engine.world) (h : ∀ c ∈ ns, Laid c) :
    Lays (Node.installList p ns) i d (d.notes (Node.eventsAll p.reuse ns)) fun _ _ => True := by
  induction ns generalizing i d with
  | nil => exact Lays.still (Lays.pure trivial)
  | cons n ns ih =>
    obtain ⟨hn, hns⟩ := List.forall_mem_cons.1 h
    rw [Node.eventsAll_cons, Progress.notes_append]
    unfold Node.installList
    refine Lays.bind (hn hp) fun v _ h1 _ => ?_
    exact Lays.bind (ih (placed h1 hp) hns) fun _ _ _ _ => Lays.pure trivial

theorem installOption (hp : p.Known i.engine.world)
    (h : ∀ c ∈ o.toList, Laid c) :
    Lays (Node.installOption p o) i d (d.notes (Node.eventsAll p.reuse o.toList))
      fun _ _ => True := by
  cases o with
  | none => exact Lays.still (Lays.pure trivial)
  | some n => exact Lays.bind (installOne hp h) fun _ _ _ _ => Lays.pure trivial

theorem installOrNil (hp : p.Known i.engine.world)
    (h : ∀ c ∈ o.toList, Laid c) :
    Lays (Node.installOrNil p o) i d (d.notes (Node.eventsAll p.reuse o.toList))
      fun _ _ => True := by
  cases o with
  | none => exact Lays.still Lays.nil
  | some n => exact installOne hp h

theorem installArgs {args : List Arg} (hp : p.Known i.engine.world)
    (h : ∀ c ∈ args.map Arg.value, Laid c) :
    Lays (Node.installArgs p args) i d (d.notes (Node.eventsAll p.reuse (args.map Arg.value)))
      fun _ _ => True := by
  induction args generalizing i d with
  | nil => exact Lays.still (Lays.pure trivial)
  | cons arg args ih =>
    obtain ⟨value, splat⟩ := arg
    obtain ⟨hvalue, hargs⟩ := List.forall_mem_cons.1 h
    rw [List.map_cons, Node.eventsAll_cons, Progress.notes_append]
    unfold Node.installArgs
    refine Lays.bind (hvalue hp) fun v _ h1 _ => ?_
    exact Lays.bind (ih (placed h1 hp) hargs) fun _ _ _ _ => Lays.pure trivial

theorem installOpts {opts : List OptParam} (hp : p.Known i.engine.world)
    (h : ∀ c ∈ opts.map OptParam.value, Laid c) :
    Lays (Node.installOpts p opts) i d
      (d.notes (Node.eventsAll p.reuse (opts.map OptParam.value)))
      fun x _ => x.1.map Prod.fst = opts.map OptParam.name := by
  induction opts generalizing i d with
  | nil => exact Lays.still (Lays.pure rfl)
  | cons opt opts ih =>
    obtain ⟨name, value⟩ := opt
    obtain ⟨hvalue, hopts⟩ := List.forall_mem_cons.1 h
    rw [List.map_cons, Node.eventsAll_cons, Progress.notes_append]
    unfold Node.installOpts
    refine Lays.bind (Lays.defineLocal name) fun var _ h1 _ => ?_
    refine Lays.bind (hvalue (placed h1 hp)) fun v _ h2 _ => ?_
    refine Lays.bind (ih (placed (h1.trans h2) hp) hopts) fun x _ _ hx => Lays.pure ?_
    exact congrArg (name :: ·) hx

theorem installParams {o : Opening}
    (hp : p.Known i.engine.world) (hd : d.opened = o :: rest)
    (h : ∀ c ∈ params.opt.map OptParam.value, Laid c) (blk : VertexId) :
    Lays (Node.installParams p o.node blk params) i d
      (d.notes (Node.eventsAll p.reuse (params.opt.map OptParam.value))) fun x _ =>
        x.1.map Prod.fst =
          params.req ++ params.opt.map OptParam.name ++ params.rest.toList ++ params.post := by
  obtain ⟨req, opt, splat, post, block⟩ := params
  unfold Node.installParams
  refine Lays.bind (Lays.defineLocals req) fun reqVars _ h1 hreq => ?_
  refine Lays.bind (installOpts (placed h1 hp) h) fun opts _ _ hopt => ?_
  refine Lays.bind (Lays.defineRest (Progress.opens_notes hd) splat) fun rests _ _ hrest => ?_
  refine Lays.bind (Lays.defineLocals post) fun postVars _ _ hpost => ?_
  have hnames : (reqVars ++ opts.1 ++ rests.1 ++ postVars).map Prod.fst =
      req ++ opt.map OptParam.name ++ splat.toList ++ post := by
    simp only [List.map_append, hreq, hopt, hrest, hpost]
  cases block with
  | some name =>
    exact Lays.bind (Lays.changeInnermost fun _ => rfl) fun _ _ _ _ => Lays.pure hnames
  | none => exact Lays.pure hnames

theorem installForm {form : Form} (hp : p.Known i.engine.world)
    (hd : d.opened = ⟨n, false⟩ :: rest) (h : ∀ c ∈ form.children, Laid c) :
    Lays (Node.installForm p n form) i d
      ((d.notes (Node.eventsAll p.reuse form.children)).blocking form) (Wired n) := by
  unfold Node.installForm
  cases form with
  | program body =>
    have hself : ∀ {w : World}, w.Closed → (Ty.plain Core.object).Known w := fun hc =>
      hc.knows_core (m := Core.object) (by decide)
    refine Lays.intro fun hs _ => ?_
    refine Lays.bind (Lays.pushScope (hself hs.grounded.closed)) fun _ _ h1 _ => ?_
    refine Lays.bind (installList (placed h1 hp) h) fun vs _ _ _ => ?_
    refine Lays.bind Lays.popScope fun _ _ _ _ => ?_
    exact Lays.bind (Lays.lastOrNil vs) fun _ _ _ _ => Lays.pure Effects.modest_empty
  | moduleDef path | classDef path =>
    refine Lays.bind (Lays.openModule p (Progress.opens_front hd) path _) fun x i1 h1 hx => ?_
    exact moduleBody h1 hp hx.1 hx.2 fun hp' => installList hp' h
  | methodDef name singleton params body =>
    obtain ⟨hparams, hbody⟩ := List.forall_mem_append.1 h
    rw [Form.children, Node.eventsAll_append, Progress.notes_append]
    refine Lays.intro fun hs _ => ?_
    have hm := hp.module hs.grounded.closed
    refine Lays.bind (Lays.vertex n _) fun ret _ h1 _ => ?_
    refine Lays.bind (Lays.vertex n _) fun blk _ h2 _ => ?_
    have hself := h2 _ (h1 _ hm)
    refine Lays.bind (Lays.pushScope ?_) fun _ _ h3 _ => ?_
    · dsimp only
      split <;> exact hself
    have h13 := (h1.trans h2).trans h3
    refine Lays.bind (installParams (placed h13 hp) hd hparams blk)
      fun args _ h4 hargs => ?_
    refine Lays.bind (installList (placed (h13.trans h4) hp) hbody) fun vs _ h5 _ => ?_
    refine Lays.bind (Lays.closeBody body vs ret) fun closing _ h6 _ => ?_
    refine Lays.bind Lays.popScope fun scope _ h7 _ => ?_
    refine Lays.bind (Lays.setReturns n scope) fun _ _ h8 _ => ?_
    refine Lays.bind Lays.symbol fun v _ h9 _ => Lays.pure ?_
    refine (Effects.modest_ofEdges _).addSite _ ?_ (complete_methodDef hargs)
    exact h9 _ (h8 _ (h7 _ (h6 _ (h5 _ (h4 _ (h13 _ hm))))))
  | ret value =>
    refine Lays.bind (installOrNil hp h) fun v _ _ _ => ?_
    refine Lays.bind Lays.scopes fun ss _ _ _ => ?_
    exact Lays.returnFrom _ (fun f hf w ss => known_modifyMethod hf) n v
  | next value =>
    refine Lays.bind (installOrNil hp h) fun v _ _ _ => ?_
    refine Lays.bind Lays.scopes fun ss _ _ _ => ?_
    exact Lays.returnFrom _ (fun f hf w ss => known_modifyInnermost hf) n v
  | call recv name nameSpan args keywords block subclasses =>
    obtain ⟨hrest, hblock⟩ := List.forall_mem_append.1 h
    obtain ⟨hrest, hkeywords⟩ := List.forall_mem_append.1 hrest
    obtain ⟨hrecv, hargs⟩ := List.forall_mem_append.1 hrest
    rw [Form.children, Node.eventsAll_append, Node.eventsAll_append, Node.eventsAll_append,
      Progress.notes_append, Progress.notes_append, Progress.notes_append]
    refine Lays.bind (installOption hp hrecv) fun given _ h1 _ => ?_
    refine Lays.bind (Lays.receiver given) fun recvVertex _ h2 _ => ?_
    have h12 := h1.trans h2
    refine Lays.bind (installArgs (placed h12 hp) hargs) fun argVertices _ h3 _ => ?_
    have h13 := h12.trans h3
    refine Lays.bind (installOption (placed h13 hp) hkeywords) fun keywordVertex _ h4 _ => ?_
    refine Lays.bind (installOption (placed (h13.trans h4) hp) hblock) fun blockVertex _ _ _ => ?_
    refine Lays.bind (Lays.vertex n _) fun ret _ _ _ => ?_
    exact Lays.withState fun _ _ => Lays.pure (Effects.modest_ofSite _ trivial trivial)
  | block params body =>
    refine Lays.bind (Lays.vertex n _) fun ret _ h1 _ => Lays.intro fun hs _ => ?_
    refine Lays.bind Lays.scopes fun ss i2 h2 hss => ?_
    obtain ⟨rfl, hss⟩ := hss
    refine Lays.bind (Lays.pushScope (known_selfType hs.grounded.closed hss)) fun _ _ h3 _ => ?_
    refine Lays.bind (Lays.defineLocals params) fun vars _ h4 _ => ?_
    refine Lays.bind (installList (placed ((h1.trans h3).trans h4) hp) h) fun vs _ _ _ => ?_
    refine Lays.bind (Lays.closeBody body vs ret) fun closing _ _ _ => ?_
    refine Lays.bind Lays.popScope fun scope _ _ _ => ?_
    refine Lays.installBlock (d := d.notes _) hd (vars.map Prod.snd) ret scope fun b _ _ => ?_
    rw [Progress.blocking_block (d := d.notes _) hd]
    refine Lays.bind (Lays.ownedSource ?_ (t := .proc b) trivial) fun _ _ _ _ =>
      Lays.pure (Effects.modest_ofEdges _)
    exact ⟨_, List.mem_cons_self, rfl⟩
  | yield args =>
    refine Lays.bind Lays.scopes fun ss _ h1 _ => ?_
    refine Lays.bind (P := fun _ _ => True) (c := d) ?_ fun recv _ h2 _ => ?_
    · split
      · exact Lays.pure trivial
      · exact Lays.emptyVertex
    refine Lays.bind (installArgs (placed (h1.trans h2) hp) h) fun argVertices _ _ _ => ?_
    refine Lays.bind (Lays.vertex n _) fun ret _ _ _ => ?_
    exact Lays.pure (Effects.modest_ofSite _ trivial trivial)
  | const name scope =>
    refine Lays.still ?_
    refine Lays.bind (P := fun m i' => ∀ x ∈ m, i'.engine.world.Knows x) (c := d) ?_
      fun scope _ h1 hscope => ?_
    · cases scope with
      | some path =>
        refine Lays.bind (Lays.resolvePath path) fun m _ _ hm => Lays.pure fun x hx => ?_
        rw [← Option.some.inj hx]
        exact hm
      | none => exact Lays.pure fun x hx => absurd hx (Option.some_ne_none _).symm
    refine Lays.bind (Lays.vertex n _) fun ret _ h2 _ => Lays.pure ?_
    refine Effects.modest_ofSite _ ⟨fun m hm => h2 m (hscope m hm), fun m hm => ?_⟩ trivial
    exact placed (h1.trans h2) hp m hm
  | constWrite name value =>
    refine Lays.bind (installOne hp h) fun v _ _ _ => ?_
    refine Lays.bind (Lays.defineConst p (Progress.opens_notes hd) name) fun _ _ _ _ => ?_
    exact Lays.pure (Effects.modest_ofEdges _)
  | localRead name =>
    exact Lays.still (Lays.bind (Lays.localVar name) fun _ _ _ _ => Lays.pure Effects.modest_empty)
  | localWrite name value =>
    refine Lays.bind (installOne hp h) fun v _ _ _ => ?_
    exact Lays.bind (Lays.localVar name) fun _ _ _ _ => Lays.pure (Effects.modest_ofEdges _)
  | ivarRead name =>
    refine Lays.still (Lays.bind (Lays.selfSide hp) fun side _ _ hside => ?_)
    refine Lays.bind (Lays.vertex n _) fun proxy _ h1 _ => ?_
    refine Lays.bind (Lays.vertex n _) fun ret _ h2 _ => Lays.pure ?_
    exact Effects.modest_ofSite _ (h2 _ (h1 _ hside)) trivial
  | ivarWrite name value =>
    refine Lays.bind (installOne hp h) fun v _ h1 _ => ?_
    refine Lays.bind (Lays.defineIvar (placed h1 hp) (Progress.opens_notes hd) name)
      fun var _ _ _ => ?_
    exact Lays.pure (Effects.modest_ofEdges _)
  | gvarRead name =>
    refine Lays.still (Lays.bind (Lays.vertex n _) fun ret _ _ _ => ?_)
    exact Lays.pure (Effects.modest_ofSite _ trivial trivial)
  | gvarWrite name value =>
    refine Lays.bind (installOne hp h) fun v _ _ _ => ?_
    refine Lays.bind (Lays.globalVertex name) fun var _ _ _ => ?_
    exact Lays.pure (Effects.modest_ofEdges _)
  | multiAssign targets value =>
    refine Lays.bind (installOne hp h) fun rhs _ h1 _ => ?_
    refine Lays.bind (Lays.mapM (R := fun _ _ => True) fun t _ _ h2 => ?_) fun lhs _ _ _ => ?_
    · exact Lays.assignTarget (placed (h1.trans h2) hp) (Progress.opens_notes hd) t
    · exact Lays.pure (Effects.modest_ofSite _ trivial trivial)
  | cond test thenBody elseBody =>
    obtain ⟨hrest, helse⟩ := List.forall_mem_append.1 h
    obtain ⟨htest, hthen⟩ := List.forall_mem_cons.1 hrest
    rw [Form.children, Node.eventsAll_append, Node.eventsAll_cons, Progress.notes_append,
      Progress.notes_append]
    refine Lays.bind (htest hp) fun _ _ h1 _ => ?_
    refine Lays.bind (installList (placed h1 hp) hthen) fun thens _ h2 _ => ?_
    refine Lays.bind (Lays.lastOrNil thens) fun thenValue _ h3 _ => ?_
    refine Lays.bind (installList (placed ((h1.trans h2).trans h3) hp) helse)
      fun elses _ _ _ => ?_
    refine Lays.bind (Lays.lastOrNil elses) fun elseValue _ _ _ => ?_
    refine Lays.bind (Lays.vertex n _) fun ret _ _ _ => ?_
    exact Lays.pure (Effects.modest_ofEdges _)
  | selfRef =>
    refine Lays.intro fun hs _ => Lays.bind Lays.scopes fun ss i' _ hss => ?_
    obtain ⟨rfl, hss⟩ := hss
    exact literal (known_selfType hs.grounded.closed hss)
  | nil | true | false => exact literal trivial
  | int | float | str | sym => exact coreLiteral (by decide)
  | array elems =>
    refine Lays.bind (installList hp h) fun vs _ _ _ => ?_
    refine Lays.bind (Lays.vertex n _) fun elem _ _ _ => ?_
    refine Lays.bind (Lays.ownedSource (Progress.opens_notes hd) (t :=
      .array (some vs) elem) trivial)
      fun v _ _ _ => ?_
    exact Lays.pure (Effects.modest_ofEdges _)
  | «alias» newName oldName =>
    let key : MemberKey := ⟨⟨p.module, false⟩, newName⟩
    exact Lays.defining (f := fun e => ((), e.addAlias key (.node n) oldName)) (.alias key oldName)
      (Progress.opens_front hd) rfl trivial fun _ _ => literal trivial
  | «include» path args =>
    refine Lays.bind (Lays.resolvePath path) fun target _ _ ht => ?_
    exact Lays.defining (f := fun e => ((), e.addInclude p.module (.node n) target args))
      (.inclusion p.module target args) (Progress.opens_front hd) rfl ht fun _ _ => literal trivial
  | sigDef name singleton overloads overloading =>
    refine Lays.still (Lays.bind Lays.symbol fun _ _ _ _ => ?_)
    exact Lays.pure (Effects.modest_ofSite _ trivial trivial)
  | sigConst name type =>
    refine Lays.still (Lays.bind (Lays.defineConst p (Progress.opens_front hd) name)
      fun const _ _ _ => ?_)
    refine Lays.bind (Lays.vertex n _) fun ret _ _ _ => ?_
    refine Lays.pure (Effects.Modest.addEdge ?_ _ _)
    exact Effects.modest_ofSite _ trivial trivial
  | sigGvar name type =>
    refine Lays.still (Lays.bind (Lays.vertex n _) fun ret _ _ _ => ?_)
    refine Lays.bind (Lays.globalVertex name) fun var _ _ _ => ?_
    refine Lays.pure (Effects.Modest.addEdge ?_ _ _)
    exact Effects.modest_ofSite _ trivial trivial


/-- Installing any tree proceeds in moves and never fails. -/
theorem install (tree : Node) : Laid tree := by
  refine Node.induct (P := Laid) (fun tree ih {p i d} hp => ?_) tree
  obtain ⟨n, span, form⟩ := tree
  unfold Node.install
  cases hn : p.reuse.old? n with
  | some old =>
    rw [Node.events_of_paired (show p.reuse.old? (Node.mk n span form).id = some old from hn)]
    exact Lays.adopt p _
  | none =>
    rw [Node.events_of_unpaired (show p.reuse.old? (Node.mk n span form).id = none from hn)]
    refine Lays.bind (Lays.beginNode p n span) fun _ _ h1 _ => ?_
    refine Lays.bind (installForm (placed h1 hp) rfl ih) fun x _ _ hx => ?_
    obtain ⟨o, hn, ho⟩ := d.opened_begun n (Node.eventsAll p.reuse form.children) form
    refine Lays.bind (Lays.finishNode ho hn form.nameSpan x.1 hx) fun _ _ _ _ => ?_
    rw [Progress.closed_begun]
    exact Lays.pure trivial

end Trees

end Lays

end TypeFlow
