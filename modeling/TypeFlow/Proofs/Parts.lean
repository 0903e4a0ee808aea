import TypeFlow.Proofs.Moves

/-!
# The parts of a run

A run is composed of few kinds of primitive parts: it looks at the engine, takes a vertex, names an
entity, or asks for an effect. What holds of these and is handed on by composition holds of the runs
of all rules. The proofs follow the code and look at no property in particular. What a part looks up
starts at modules that are known, where the property needs that, and nothing that a run looks at
depends on the configuration.
-/

set_option autoImplicit false

namespace TypeFlow

@[simp] def Ty.rootless : Ty → Bool
  | .instanceOf _ _ | .singletonOf _ => Bool.false
  | _ => Bool.true

theorem Ty.known_of_rootless {t : Ty} (h : t.rootless) (w : World) : t.Known w := by
  cases t with
  | instanceOf | singletonOf => exact absurd h Bool.false_ne_true
  | _ => trivial

namespace Run

structure Founded (r : Run) : Prop where
  closed : r.engine.world.Closed
  types : ∀ v, ∀ t ∈ r.engine.typesAt v, t.Known r.engine.world

variable (strict : Prop)

def Knows (r : Run) (m : ModuleId) : Prop := strict → r.engine.world.Knows m

def Known (r : Run) (t : Ty) : Prop := strict → t.Known r.engine.world

structure Learns (r r' : Run) : Prop where
  modules : strict → ∀ m, r.engine.world.Knows m → r'.engine.world.Knows m
  blocks : strict → r'.engine.blocks = r.engine.blocks

namespace Learns

variable {strict : Prop} {r r' r'' : Run}

theorem refl (r : Run) : r.Learns strict r := ⟨fun _ _ => id, fun _ => rfl⟩

theorem trans (h : r.Learns strict r') (h' : r'.Learns strict r'') : r.Learns strict r'' :=
  ⟨fun hs m hm => h'.modules hs m (h.modules hs m hm),
    fun hs => (h'.blocks hs).trans (h.blocks hs)⟩

theorem knows (h : r.Learns strict r') {m : ModuleId} (hm : r.Knows strict m) :
    r'.Knows strict m :=
  fun hs => h.modules hs m (hm hs)

theorem known (h : r.Learns strict r') {t : Ty} (ht : r.Known strict t) : r'.Known strict t :=
  fun hs => (ht hs).mono (h.modules hs)

end Learns

end Run

open Staging

structure Walk where
  strict : Prop
  Holds : {α : Type} → Staging α → Run → (α → Run → Prop) → Prop
  intro {α : Type} {m : Staging α} {r : Run} {Q : α → Run → Prop} :
    ((strict → r.Founded) → Holds m r Q) → Holds m r Q
  pure {α : Type} {a : α} {r : Run} {Q : α → Run → Prop} : Q a r → Holds (pure a) r Q
  bind {α β : Type} {m : Staging α} {k : α → Staging β} {r : Run} {P : α → Run → Prop}
    {Q : β → Run → Prop} : Holds m r P →
    (∀ a r', r.Learns strict r' → P a r' → Holds (k a) r' Q) → Holds (m >>= k) r Q
  endless {α : Type} (r : Run) {Q : α → Run → Prop} : Holds (endless : Staging α) r Q
  look {α : Type} {k : Engine → Staging α} {r : Run} {Q : α → Run → Prop} :
    (∀ e c, k { e with config := c } = k e) → Holds (k r.engine) r Q → Holds (engine >>= k) r Q
  addEdge (src dst : VertexId) (r : Run) : Holds (addEdge src dst) r fun _ _ => True
  addDiagnostic (node : NodeId) (kind : Diagnostic.Kind) (message : String) (r : Run) :
    Holds (addDiagnostic node kind message) r fun _ _ => True
  readSuperclass {m : ModuleId} {r : Run} (h : r.Knows strict m) :
    Holds (readSuperclass m) r fun _ _ => True
  readMethod {key : MemberKey} {r : Run} (h : r.Knows strict key.side.module) :
    Holds (readMethod key) r fun _ _ => True
  readConst {key : ConstKey} {r : Run} (h : r.Knows strict key.module) :
    Holds (onEffects (·.readConst key)) r fun _ _ => True
  source {types : List Ty} {r : Run} (h : ∀ t ∈ types, r.Known strict t) :
    Holds (source types) r fun _ _ => True
  resolvePath (path : ConstPath) (r : Run) :
    Holds (resolvePath path) r fun m r' => r'.Knows strict m
  freshVertex (label : String) (r : Run) : Holds (freshVertex label) r fun _ _ => True
  freshSource (label : String) {types : List Ty} {r : Run} (h : ∀ t ∈ types, r.Known strict t) :
    Holds (freshSource label types) r fun _ _ => True
  ensureConst (key : ConstKey) (r : Run) : Holds (onEngine (·.ensureConst key)) r fun _ _ => True
  ensureIvar (key : MemberKey) (r : Run) : Holds (onEngine (·.ensureIvar key)) r fun _ _ => True
  globalVertex (name : String) (r : Run) :
    Holds (onEngine (·.globalVertex name)) r fun _ _ => True

structure FullWalk extends Walk where
  own : NodeId
  addSite (key : SiteKey) {node : NodeId} {rule : Rule} {r : Run}
    (hn : strict → node = own ∨ ∃ b x, r.engine.block? b = some x ∧ x.node = node)
    (h : rule.Known r.engine.world) (hc : rule.Complete) :
    Holds (addSite key node rule) r fun _ _ => True

namespace Walk

variable {W : Walk} {α β : Type} {r r' : Run}

abbrev At (W : Walk) (r : Run) (m : Staging α) : Prop := W.Holds m r fun _ _ => True

def Fine (W : Walk) (m : Staging α) : Prop := ∀ r, W.At r m

section Composition

variable {m : Staging α} {P Q : α → Run → Prop}

theorem imp (h : W.Holds m r P) (hq : ∀ a r', P a r' → Q a r') : W.Holds m r Q := by
  rw [← bind_pure m]
  exact W.bind h fun a r' _ hp => W.pure (hq a r' hp)

theorem bindFine {k : α → Staging β} (hm : W.Holds m r P) (hk : ∀ a, W.Fine (k a)) :
    W.At r (m >>= k) :=
  W.bind hm fun a r' _ _ => hk a r'

@[simp] theorem fine_pure (a : α) : W.Fine (Pure.pure a) := fun _ => W.pure trivial

@[simp] theorem fine_bind {k : α → Staging β} (hm : W.Fine m) (hk : ∀ a, W.Fine (k a)) :
    W.Fine (m >>= k) :=
  fun r => bindFine (hm r) hk

theorem fine_look {k : Engine → Staging α} (hc : ∀ e c, k { e with config := c } = k e)
    (hk : ∀ e, W.Fine (k e)) : W.Fine (engine >>= k) :=
  fun r => W.look hc (hk r.engine r)

@[simp] theorem fine_ite {c : Prop} [Decidable c] {m m' : Staging α} (hm : W.Fine m)
    (hm' : W.Fine m') : W.Fine (if c then m else m') := by
  split
  · exact hm
  · exact hm'

@[simp] theorem fine_map {f : α → β} (hm : W.Fine m) : W.Fine (f <$> m) := by
  rw [map_eq_pure_bind]
  exact fine_bind hm fun _ => fine_pure _

end Composition

section Lists

variable {as : List α}

theorem forM {f : α → Staging PUnit} (h : ∀ a ∈ as, ∀ r', r.Learns W.strict r' → W.At r' (f a)) :
    W.At r (as.forM f) := by
  induction as generalizing r with
  | nil => exact W.pure trivial
  | cons a as ih =>
    refine W.bind (h a List.mem_cons_self r (.refl r)) fun _ r' hr _ => ?_
    exact ih fun b hb r'' hr' => h b (List.mem_cons_of_mem _ hb) r'' (hr.trans hr')

theorem mapM {f : α → Staging β} {R : β → Run → Prop}
    (hmono : ∀ b r r', Run.Learns W.strict r r' → R b r → R b r')
    (h : ∀ a ∈ as, ∀ r', r.Learns W.strict r' → W.Holds (f a) r' R) :
    W.Holds (as.mapM f) r fun bs r' => ∀ b ∈ bs, R b r' := by
  induction as generalizing r with
  | nil => exact W.pure fun _ hb => absurd hb List.not_mem_nil
  | cons a as ih =>
    rw [List.mapM_cons]
    refine W.bind (h a List.mem_cons_self r (.refl r)) fun b r' hr hb => ?_
    refine W.bind (ih fun c hc r'' hr' => h c (List.mem_cons_of_mem _ hc) r'' (hr.trans hr'))
      fun bs r'' hr' hbs => W.pure (List.forall_mem_cons.2 ⟨hmono b r' r'' hr' hb, hbs⟩)

theorem allM {p : α → Staging Bool} (h : ∀ a ∈ as, ∀ r', r.Learns W.strict r' → W.At r' (p a)) :
    W.At r (as.allM p) := by
  induction as generalizing r with
  | nil => exact W.pure trivial
  | cons a as ih =>
    refine W.bind (h a List.mem_cons_self r (.refl r)) fun b r' hr _ => ?_
    cases b with
    | false => exact W.pure trivial
    | true => exact ih fun c hc r'' hr' => h c (List.mem_cons_of_mem _ hc) r'' (hr.trans hr')

theorem anyM {p : α → Staging Bool} (h : ∀ a ∈ as, ∀ r', r.Learns W.strict r' → W.At r' (p a)) :
    W.At r (as.anyM p) := by
  induction as generalizing r with
  | nil => exact W.pure trivial
  | cons a as ih =>
    refine W.bind (h a List.mem_cons_self r (.refl r)) fun b r' hr _ => ?_
    cases b with
    | true => exact W.pure trivial
    | false => exact ih fun c hc r'' hr' => h c (List.mem_cons_of_mem _ hc) r'' (hr.trans hr')

@[simp] theorem fine_forM {f : α → Staging PUnit} (hf : ∀ a, W.Fine (f a)) :
    W.Fine (ForM.forM as f) :=
  fun _ => forM fun a _ r' _ => hf a r'

@[simp] theorem fine_mapM {f : α → Staging β} (hf : ∀ a, W.Fine (f a)) : W.Fine (as.mapM f) :=
  fun _ => imp (mapM (R := fun _ _ => True) (fun _ _ _ _ => id) fun a _ r' _ => hf a r')
    fun _ _ _ => trivial

@[simp] theorem fine_allM {p : α → Staging Bool} (hp : ∀ a, W.Fine (p a)) : W.Fine (as.allM p) :=
  fun _ => allM fun a _ r' _ => hp a r'

end Lists

section Primitives

theorem holds_typesAt (v : VertexId) :
    W.Holds (Staging.typesAt v) r fun ts r' => r' = r ∧ ∀ t ∈ ts, r.Known W.strict t :=
  W.intro fun hr => W.look (fun _ _ => rfl) (W.pure ⟨rfl, fun t ht hs => (hr hs).types v t ht⟩)

@[simp] theorem fine_typesAt (v : VertexId) : W.Fine (Staging.typesAt v) :=
  fun _ => imp (holds_typesAt v) fun _ _ _ => trivial

@[simp] theorem fine_addEdge (src dst : VertexId) : W.Fine (Staging.addEdge src dst) :=
    W.addEdge src dst

@[simp] theorem fine_addEdges (srcs : List VertexId) (dst : VertexId) :
    W.Fine (Staging.addEdges srcs dst) :=
  fine_forM fun src => fine_addEdge src dst

@[simp] theorem fine_addDiagnostic (node : NodeId) (kind : Diagnostic.Kind) (message : String) :
    W.Fine (Staging.addDiagnostic node kind message) :=
  W.addDiagnostic node kind message

@[simp] theorem fine_freshVertex (label : String) : W.Fine (Staging.freshVertex label) :=
  W.freshVertex label

@[simp] theorem fine_source {types : List Ty} (h : types.all Ty.rootless = true) :
    W.Fine (Staging.source types) :=
  fun _ => W.source fun t ht _ => Ty.known_of_rootless (List.all_eq_true.1 h t ht) _

@[simp] theorem fine_freshSource (label : String) {types : List Ty}
    (h : types.all Ty.rootless = true) : W.Fine (Staging.freshSource label types) :=
  fun _ => W.freshSource label fun t ht _ => Ty.known_of_rootless (List.all_eq_true.1 h t ht) _

@[simp] theorem fine_emptyVertex : W.Fine Staging.emptyVertex :=
  fine_source rfl

theorem holds_typeSource (label : String) {t : Ty} (h : r.Known W.strict t) :
    W.At r (Staging.typeSource label t) := by
  have hall : ∀ x ∈ [t], r.Known W.strict x := fun x hx => List.mem_singleton.1 hx ▸ h
  unfold Staging.typeSource
  split
  · exact W.source hall
  · exact W.freshSource label hall

theorem holds_receiverMap {recv : Ty} (h : r.Known W.strict recv) : W.At r (Staging.receiverMap
    recv) :=
  bindFine (holds_typeSource "self" h) fun _ => fine_pure _

end Primitives

end Walk

theorem Render.vertexWithin_config (e : Engine) (c : Config) (n : Nat) (visiting : List VertexId)
    (v : VertexId) :
    vertexWithin { e with config := c } n visiting v = vertexWithin e n visiting v := by
  induction n generalizing visiting v with
  | zero => rfl
  | succ n ih =>
    have hrest : vertexWithin { e with config := c } n (v :: visiting) =
        vertexWithin e n (v :: visiting) := funext fun u => ih (v :: visiting) u
    unfold vertexWithin
    rw [hrest]
    rfl

theorem Engine.showVertex_config (e : Engine) (c : Config) (v : VertexId) :
    { e with config := c }.showVertex v = e.showVertex v :=
  Render.vertexWithin_config e c _ [] v

theorem Engine.showType_config (e : Engine) (c : Config) (t : Ty) :
    { e with config := c }.showType t = e.showType t := by
  have hvertex : Render.vertexWithin { e with config := c } e.renderDepth [] =
      Render.vertexWithin e e.renderDepth [] :=
    funext fun v => Render.vertexWithin_config e c _ [] v
  show Render.type _ (Render.vertexWithin { e with config := c } e.renderDepth []) t = _
  rw [hvertex]
  rfl


open Walk

variable {W : Walk} {F : FullWalk} {r : Run}

namespace SigType

@[simp] theorem fine_unionOf (members : List VertexId) : W.Fine (unionOf members) := by
  intro r
  refine W.intro fun hr => W.look (fun _ _ => rfl) ?_
  split
  · refine W.freshSource _ fun t ht hs => ?_
    obtain ⟨m, -, hm⟩ := List.mem_flatMap.1 (OrderedSet.mem_ofList.1 ht)
    exact (hr hs).types m t hm
  · exact fine_bind (fine_freshVertex _) (by simp) r

mutual

@[simp] theorem fine_vertex (map : ParamMap) : (t : SigType) → W.Fine (t.vertex map)
  | .instanceOf path args => by
    intro r
    refine W.bind (W.resolvePath path r) fun m r' _ hm => ?_
    split
    · exact W.source fun t ht => List.mem_singleton.1 ht ▸ hm
    · refine W.bind (fine_vertices map args r') fun vs r'' hr _ => ?_
      exact W.freshSource _ fun t ht => List.mem_singleton.1 ht ▸ hr.knows hm
  | .singletonOf path => fun r => W.bind (W.resolvePath path r) fun m r' _ hm =>
      W.source fun t ht => List.mem_singleton.1 ht ▸ hm
  | .var name => by
    unfold vertex
    split <;> simp
  | .receiver => by
    unfold vertex
    split <;> simp
  | .union members => by simp [vertex, fine_vertices map members]
  | .optional inner => fine_bind (fine_vertex map inner) fun v => by simp
  | .tuple members => fine_bind (fine_vertices map members) fun elems => by simp
  | .nil | .bool | .untyped => by simp [vertex]

@[simp] theorem fine_vertices (map : ParamMap) : (ts : List SigType) → W.Fine (vertices map ts)
  | [] => by simp [vertices]
  | t :: ts => by simp [vertices, fine_vertex map t, fine_vertices map ts]

end

end SigType

theorem Ty.Known.baseType {w : World} (hc : w.Closed) {t b : Ty} (h : t.Known w)
    (hb : Engine.baseType t = some b) : b.Known w := by
  have hcore : ∀ {m : ModuleId} {vs : List VertexId}, m.index < Core.names.length →
      some (Ty.instanceOf m vs) = some b → b.Known w := fun hm he =>
    Option.some.inj he ▸ hc.knows_core hm
  cases t with
  | instanceOf | singletonOf => exact Option.some.inj hb ▸ h
  | nil | true | false | array | proc => exact hcore (by decide) hb
  | bot | untyped | var => exact absurd hb (Option.some_ne_none _).symm

namespace Matching

theorem holds_isSubclass {m : ModuleId} (h : r.Knows W.strict m) (target : ModuleId) :
    W.At r (isSubclass m target) := by
  refine W.intro fun hr => W.look (fun _ _ => rfl) ?_
  refine bindFine (Walk.forM fun x hx r' hr' => ?_) fun _ => fine_pure _
  refine W.readSuperclass (hr'.knows fun hs => ?_)
  exact (hr hs).closed.knows_isSubclass (h hs) target x hx

theorem holds_classOf (m : ModuleId) : W.Holds (classOf m) r fun c r' => r'.Knows W.strict c := by
  refine W.intro fun hr => W.look (fun _ _ => rfl) (W.pure fun hs => ?_)
  split <;> exact (hr hs).closed.knows_core (by decide)

variable {compare : Compare}

theorem fine_compareAll (hc : ∀ x y, W.Fine (compare x y)) (xs ys : List VertexId) :
    W.Fine (compareAll compare xs ys) := by
  induction xs generalizing ys with
  | nil => simp [compareAll]
  | cons x xs ih => cases ys <;> simp [compareAll, hc, ih]

theorem holds_compareNominal (hc : ∀ x y, W.Fine (compare x y)) {actual : Ty}
    (h : r.Known W.strict actual) (formal : Ty) :
    W.At r (compareNominal compare actual formal) := by
  unfold compareNominal
  split
  · exact bindFine (holds_isSubclass h _) fun _ => by simp [fine_compareAll hc]
  · exact holds_isSubclass h _
  · exact W.bind (holds_classOf _) fun c _ _ hm => holds_isSubclass hm _
  · exact W.pure trivial

theorem holds_compareBase (hc : ∀ x y, W.Fine (compare x y)) {actual : Ty}
    (h : r.Known W.strict actual) (formal : Ty) : W.At r (compareBase compare actual formal) := by
  refine W.intro fun hr => ?_
  unfold compareBase
  split
  · next a f ha hf =>
    split
    · exact W.pure trivial
    · exact holds_compareNominal hc (fun hs => (h hs).baseType (hr hs).closed ha) f
  · exact W.pure trivial

theorem holds_compareTypes (hc : ∀ x y, W.Fine (compare x y)) {actual : Ty}
    (h : r.Known W.strict actual) (formal : Ty) : W.At r (compareTypes compare actual formal) := by
  unfold compareTypes
  split
  any_goals exact W.pure trivial
  any_goals exact holds_compareNominal hc h _
  · exact fine_ite (fine_compareAll hc _ _) (fine_pure _) r
  · exact holds_compareBase hc h _

theorem fine_compareWithin (n : Nat) (actual formal : VertexId) :
    W.Fine (compareWithin n actual formal) := by
  induction n generalizing actual formal with
  | zero => exact fun r => W.endless r
  | succ n ih =>
    refine fine_bind (fine_typesAt formal) fun formals => ?_
    split
    · simp
    · refine fun r => W.bind (holds_typesAt actual) fun actuals _ _ ht => ?_
      obtain ⟨rfl, ht⟩ := ht
      refine Walk.allM fun a ha r1 h1 => Walk.anyM fun f _ r2 h2 => ?_
      exact holds_compareTypes ih (h2.known (h1.known (ht a ha))) f

@[simp] theorem fine_fits (actual formal : VertexId) : W.Fine (fits actual formal) :=
  fine_look (fun _ _ => rfl) fun _ => fine_compareWithin _ actual formal

end Matching

namespace Arguments

theorem holds_spreadType {t : Ty} (h : r.Known W.strict t) : W.At r (spreadType t) := by
  unfold spreadType
  split
  · split
    · split
      · exact W.pure trivial
      · exact fine_emptyVertex r
    · exact holds_typeSource _ h
  · exact holds_typeSource _ h

@[simp] theorem fine_spread (arg : VertexId) (splat : Bool) : W.Fine (spread arg splat) := by
  refine fine_ite (fun r => W.bind (holds_typesAt arg) fun ts _ _ ht => ?_) (fine_pure _)
  obtain ⟨rfl, ht⟩ := ht
  refine imp (Walk.mapM (R := fun _ _ => True) (fun _ _ _ _ => id) fun t h r1 h1 => ?_)
    fun _ _ _ => trivial
  exact holds_spreadType (h1.known (ht t h))

@[simp] theorem fine_between (args : List VertexId) (splats : List Bool) (start stop : Nat) :
    W.Fine (between args splats start stop) := by
  simp [between]

end Arguments

namespace MethodDef

variable (d : MethodDef)

@[simp] theorem fine_bind (actual : VertexId) (name : String) : W.Fine (d.bind actual name) := by
  unfold MethodDef.bind
  split <;> simp

@[simp] theorem fine_bindEach (actuals : List VertexId) (names : List String) :
    W.Fine (d.bindEach actuals names) := by
  induction actuals generalizing names with
  | nil => simp [bindEach]
  | cons actual actuals ih => cases names <;> simp [bindEach, ih]

@[simp] theorem fine_bindAll (actuals : List VertexId) (name : String) :
    W.Fine (d.bindAll actuals name) :=
  fine_forM fun actual => fine_bind d actual name

@[simp] theorem fine_reportArity (callNode : Option NodeId) (actual : Nat) :
    W.Fine (d.reportArity callNode actual) := by
  unfold reportArity
  split <;> simp

theorem fine_bindRest (actuals : List VertexId) : W.Fine (match d.formals.rest with
    | some name => d.bindAll actuals name
    | none => pure ()) := by
  split <;> simp

@[simp] theorem fine_bindPlain (args : List VertexId) : W.Fine (d.bindPlain args) := by
  refine Walk.fine_bind (fine_bindEach d _ _) fun _ => ?_
  refine Walk.fine_bind (fine_bindEach d _ _) fun _ => ?_
  exact Walk.fine_bind (fine_bindEach d _ _) fun _ => fine_bindRest d _

@[simp] theorem fine_bindSpread (args : List VertexId) (splats : List Bool) (first last : Nat) :
    W.Fine (d.bindSpread args splats first last) := by
  refine Walk.fine_bind (Arguments.fine_between _ _ _ _) fun rest => ?_
  refine Walk.fine_bind (fine_bindEach d _ _) fun _ => ?_
  refine Walk.fine_bind (fine_forM fun name => fine_bindAll d rest name) fun _ => ?_
  refine Walk.fine_bind (fine_forM fun x => fine_ite ?_ ?_) fun _ => fine_bindRest d rest
  · split <;> simp
  · simp

@[simp] theorem fine_passPositionals (callNode : Option NodeId) (args : List VertexId)
    (splats : List Bool) : W.Fine (d.passPositionals callNode args splats) := by
  unfold passPositionals
  split <;> simp

@[simp] theorem fine_connect (node : NodeId) (args : List VertexId) (splats : List Bool)
    (block : Option VertexId) (ret : VertexId) :
    W.Fine (d.connect node args splats block ret) := by
  refine Walk.fine_bind (fine_passPositionals d _ args splats) fun b => fine_ite ?_ (fine_pure _)
  split <;> simp

end MethodDef

namespace MethodType

@[simp] theorem fine_matchEach (map : ParamMap) (actuals : List VertexId) (ts : List SigType) :
    W.Fine (matchEach map actuals ts) := by
  induction actuals generalizing ts with
  | nil => simp [matchEach]
  | cons actual actuals ih => cases ts <;> simp [matchEach, ih]

@[simp] theorem fine_matchAll (map : ParamMap) (actuals : List VertexId) (t : SigType) :
    W.Fine (matchAll map actuals t) := by
  simp [matchAll]

@[simp] theorem fine_matchArguments (mt : MethodType) (map : ParamMap) (args : List VertexId)
    (splats : List Bool) : W.Fine (mt.matchArguments map args splats) := by
  refine fine_ite (fine_pure _) (fine_bind (fine_matchEach map _ _) fun _ => ?_)
  refine fine_ite (fine_pure _) (fine_ite (fine_pure _) (fine_ite (fine_pure _) ?_))
  refine fine_bind (fine_matchEach map _ _) fun _ => fine_ite (fine_pure _) ?_
  refine fine_bind (fine_matchEach map _ _) fun _ => fine_ite (fine_pure _) ?_
  refine fine_ite (fine_bind (Arguments.fine_between _ _ _ _) fun rest => ?_) (fine_pure _)
  refine fine_bind (fine_allM fun t => fine_matchAll map rest t) fun _ => ?_
  refine fine_ite (fine_pure _) ?_
  split <;> simp

@[simp] theorem fine_openVariable (name : String) : W.Fine (openVariable name) :=
  fine_bind (fine_freshVertex _) fun v => by simp

@[simp] theorem fine_applyBlock (t : BlockType) (map : ParamMap) (id : BlockId) :
    F.Fine (applyBlock t map id) := by
  refine fun r => F.look (fun _ _ => rfl) ?_
  split
  · exact F.pure trivial
  · next block hblock =>
    refine F.bind (SigType.fine_vertex map t.ret r) fun formal r' hr _ => ?_
    refine bindFine (F.addSite _ (fun hs => ?_) trivial trivial) fun _ =>
      fine_ite (fine_forM fun x => ?_) (fine_pure _)
    · refine Or.inr ⟨id, block, ?_, rfl⟩
      unfold Engine.block? at hblock ⊢
      rw [hr.blocks hs]
      exact hblock
    · exact fine_bind (SigType.fine_vertex map x.1) fun v => fine_addEdge v x.2

@[simp] theorem fine_apply (mt : MethodType) (map : ParamMap) (args : List VertexId)
    (splats : List Bool) (block : Option VertexId) (ret : VertexId) :
    F.Fine (mt.apply map args splats block ret) := by
  have hresult : ∀ closed : ParamMap, F.Fine (do
      let v ← mt.ret.vertex closed
      Staging.addEdge v ret
      return true) := fun closed => by simp
  refine fine_bind (by simp) fun vars => fine_bind (by simp) fun fit => ?_
  refine fine_ite (fine_pure _) (fine_ite (fine_pure _) ?_)
  split
  · refine fine_bind (by simp [blocksAt]) fun ids => ?_
    exact fine_bind (fine_forM fun id => fine_applyBlock _ _ id) fun _ => hresult _
  · exact hresult _

end MethodType

@[simp] theorem MethodDecl.fine_connect (d : MethodDecl) (node : NodeId) (map : ParamMap)
    (args : List VertexId) (splats : List Bool) (block : Option VertexId) (ret : VertexId) :
    F.Fine (d.connect node map args splats block ret) := by
  simp [MethodDecl.connect]

namespace ParamMap

theorem fine_bindParams (map : ParamMap) (ps : List String) (as : List SigType) (out : ParamMap) :
    W.Fine (bindParams map ps as out) := by
  induction ps generalizing as out with
  | nil => simp [bindParams]
  | cons p ps ih => cases as <;> simp [bindParams, ih]

theorem holds_inside {recv : Ty} (h : r.Known W.strict recv) (map : ParamMap) (m : ModuleId)
    (args : List SigType) : W.At r (inside recv map m args) :=
  bindFine (holds_receiverMap h) fun start =>
    fine_look (fun _ _ => rfl) fun _ => fine_bindParams map _ args start

theorem holds_follow {recv : Ty} (h : r.Known W.strict recv) (visits : List Visit) (map : ParamMap)
    (outer : List ParamMap) : W.At r (follow recv visits map outer) := by
  induction visits generalizing r map outer with
  | nil => exact W.pure trivial
  | cons v visits ih =>
    have hinside : ∀ m args outer', W.At r (do
        let inner ← inside recv map m args
        follow recv visits inner outer') := fun m args _ =>
      W.bind (holds_inside h map m args) fun _ _ hr _ => ih (hr.known h) _ _
    cases v with
    | enter m args => exact hinside m args _
    | leave => exact ih h _ _
    | ascend m args =>
      refine W.look (fun _ _ => rfl) ?_
      split
      · exact ih h _ _
      · exact hinside m args _

end ParamMap

theorem Ty.Known.side {w : World} (hc : w.Closed) {t : Ty} (h : t.Known w) {side : Side}
    {args : List VertexId} (ht : Side.ofType? t = some (side, args)) : w.Knows side.module := by
  unfold Side.ofType? at ht
  split at ht
  · next m as hb =>
    obtain ⟨rfl, rfl⟩ := Prod.mk.inj (Option.some.inj ht)
    exact h.baseType hc hb
  · next m hb =>
    obtain ⟨rfl, rfl⟩ := Prod.mk.inj (Option.some.inj ht)
    exact h.baseType hc hb
  · exact absurd ht (Option.some_ne_none _).symm

namespace Call

variable (c : Call)
variable {recv : Ty}

theorem holds_resolveType (h : r.Known W.strict recv) :
    W.Holds (c.resolveType recv) r fun found r' => ∀ x ∈ found, r'.Known W.strict x.recv := by
  unfold resolveType
  split
  · exact W.pure fun x hx => absurd hx (Option.some_ne_none _).symm
  · next side typeArgs ht =>
    refine W.intro fun hr => W.look (fun _ _ => rfl) ?_
    refine W.bind (holds_receiverMap h) fun start r1 h1 _ => ?_
    refine W.bind (Walk.forM fun key hk r2 h2 => W.readMethod (h2.knows (h1.knows fun hs => ?_)))
      fun _ r2 h2 _ => ?_
    · have hc := (hr hs).closed
      exact hc.known_lookup ((h hs).side hc ht) c.name key hk
    · have hrecv := h2.known (h1.known h)
      refine W.bind (ParamMap.holds_follow hrecv _ _ _) fun map r3 h3 _ => W.pure fun x hx => ?_
      rw [← Option.some.inj hx]
      exact h3.known hrecv

theorem holds_resolve : W.Holds c.resolve r fun rs r' => ∀ x ∈ rs, r'.Known W.strict x.recv := by
  refine W.bind (holds_typesAt c.recv) fun ts _ _ ht => ?_
  obtain ⟨rfl, ht⟩ := ht
  refine W.bind (Walk.mapM (fun o r1 r2 hr ho x hx => hr.known (ho x hx)) fun t h r1 h1 =>
    c.holds_resolveType (h1.known (ht t h))) fun found r1 _ hf => W.pure fun x hx => ?_
  obtain ⟨o, ho, rfl⟩ := List.mem_filterMap.1 hx
  exact hf _ ho x rfl

@[simp] theorem fine_connectDefs (node : NodeId) (sites : List SiteId)
    (called : OrderedSet SiteId) : W.Fine (c.connectDefs node sites called) := by
  induction sites generalizing called with
  | nil => simp [connectDefs]
  | cons s sites ih =>
    refine fine_ite (ih called) (fine_look (fun _ _ => rfl) fun e => ?_)
    split <;> simp [ih]

theorem holds_newInstance (h : r.Known F.strict recv) :
    F.At r (c.newInstance F.own recv) := by
  unfold newInstance
  split
  · refine F.look (fun _ _ => rfl) ?_
    split
    · refine bindFine (F.source fun t ht => List.mem_singleton.1 ht ▸ h) fun inst => ?_
      refine fine_bind (fine_freshVertex _) fun ret => ?_
      refine fine_bind (fun r => ?_) fun _ => fine_addEdge inst c.ret
      exact F.addSite _ (fun _ => Or.inl rfl) trivial trivial
    · exact F.pure trivial
  · exact F.pure trivial

theorem fine_callBlock (recv : Ty) : W.Fine (c.callBlock recv) := by
  unfold callBlock
  split
  · refine fine_look (fun _ _ => rfl) fun e => ?_
    split <;> simp
  · simp

theorem holds_pushElement (h : r.Known W.strict recv) :
    W.At r (c.pushElement recv) := by
  have hresult : ∀ {r' : Run}, r.Learns W.strict r' → W.At r' (do
      let v ← typeSource "array-push" recv
      Staging.addEdge v c.ret) := fun hr =>
    bindFine (holds_typeSource _ (hr.known h)) fun v => fine_addEdge v c.ret
  unfold pushElement
  split
  · exact W.bind (W.addEdge _ _ r) fun _ _ hr _ => hresult hr
  · exact hresult (.refl r)

theorem holds_callBuiltin (h : r.Known F.strict recv) (b : Builtin) :
    F.At r (c.callBuiltin F.own recv b) := by
  cases b with
  | classNew => exact c.holds_newInstance h
  | acceptAll => exact F.pure trivial
  | procCall => exact c.fine_callBlock recv r
  | arrayAt =>
    unfold callBuiltin
    dsimp only
    split
    · exact F.addEdge _ _ r
    · exact F.pure trivial
  | arrayPush => exact c.holds_pushElement h

theorem fine_connectDecls (node : NodeId) (map : ParamMap) (sites : List SiteId) :
    F.Fine (c.connectDecls node map sites) := by
  induction sites with
  | nil => simp [connectDecls]
  | cons s sites ih =>
    refine fine_look (fun _ _ => rfl) fun e => ?_
    split <;> simp [ih]

theorem holds_dispatch (h : r.Known F.strict recv) (key : MemberKey) (map : ParamMap)
    (called : OrderedSet SiteId) : F.At r (c.dispatch F.own recv key map called) := by
  refine F.look (fun _ _ => rfl) ?_
  split
  · exact F.pure trivial
  · split
    · exact bindFine (c.holds_callBuiltin h _) fun _ => fine_pure _
    · exact fine_ite (c.fine_connectDefs F.own _ called)
        (fine_bind (c.fine_connectDecls F.own map _) fun _ => fine_pure _) r

theorem holds_dispatchAll {found : List Resolution} (h : ∀ x ∈ found, r.Known F.strict x.recv)
    (called : OrderedSet SiteId) : F.At r (c.dispatchAll F.own found called) := by
  induction found generalizing r called with
  | nil => exact F.pure trivial
  | cons x found ih =>
    have hrest : ∀ {r'}, r.Learns F.strict r' → ∀ y ∈ found, r'.Known F.strict y.recv :=
      fun hr y hy => hr.known (h y (List.mem_cons_of_mem x hy))
    unfold dispatchAll
    split
    · refine F.bind (c.holds_dispatch (h x List.mem_cons_self) _ _ _) fun _ _ hr _ => ?_
      exact ih (hrest hr) _
    · refine F.look (fun e c => ?_) ?_
      · rw [Engine.showType_config]
      · exact F.bind (F.addDiagnostic _ _ _ r) fun _ _ hr _ => ih (hrest hr) _

theorem fine_resolveOverrides : W.Fine c.resolveOverrides := by
  refine fun r => W.intro fun hr => W.look (fun _ _ => rfl) ?_
  refine W.bind (holds_typesAt c.recv) fun ts _ _ ht => ?_
  obtain ⟨rfl, ht⟩ := ht
  refine bindFine (Walk.forM fun key hk r1 h1 => W.readMethod (h1.knows fun hs => ?_))
    fun _ => fine_pure _
  obtain ⟨t, h, hk⟩ := List.mem_flatMap.1 hk
  split at hk
  · next side args hside =>
    have hc := (hr hs).closed
    exact hc.knows_overrides ((ht t h hs).side hc hside) c.name key hk
  · exact absurd hk List.not_mem_nil

theorem fine_run : F.Fine (c.run F.own) := by
  refine fun r => F.bind c.holds_resolve fun found r1 _ hf => ?_
  refine bindFine (c.holds_dispatchAll hf {}) fun called => fine_ite ?_ (fine_pure _)
  refine fine_bind c.fine_resolveOverrides fun keys => fine_look (fun _ _ => rfl) fun e => ?_
  exact fine_bind (c.fine_connectDefs F.own _ called) fun _ => fine_pure _

end Call

namespace ConstRead

variable (c : ConstRead)
variable {m : ModuleId} {ms : List ModuleId}

theorem holds_lookIn (h : r.Knows W.strict m) : W.At r (c.lookIn m) :=
  W.bind (W.ensureConst _ r) fun _ _ hr _ =>
    bindFine (W.readConst (hr.knows h)) fun _ => by simp

theorem holds_lookInScopes (h : ∀ m ∈ ms, r.Knows W.strict m) :
    W.At r (c.lookInScopes ms) := by
  induction ms generalizing r with
  | nil => exact W.pure trivial
  | cons m ms ih =>
    refine W.bind (c.holds_lookIn (h m List.mem_cons_self)) fun found _ hr _ => ?_
    cases found with
    | some v => exact W.pure trivial
    | none => exact ih fun x hx => hr.knows (h x (List.mem_cons_of_mem m hx))

theorem holds_lookInAncestors (h : ∀ m ∈ ms, r.Knows W.strict m) :
    W.At r (c.lookInAncestors ms) := by
  induction ms generalizing r with
  | nil => exact W.pure trivial
  | cons m ms ih =>
    have hm := h m List.mem_cons_self
    refine W.bind (W.readSuperclass hm) fun _ r1 h1 _ => ?_
    refine W.bind (c.holds_lookIn (h1.knows hm)) fun found r2 h2 _ => ?_
    cases found with
    | some v => exact W.pure trivial
    | none => exact ih fun x hx => h2.knows (h1.knows (h x (List.mem_cons_of_mem m hx)))

theorem holds_ancestors (h : r.Knows W.strict m) :
    W.Holds (ancestors m) r fun ms r' => ∀ x ∈ ms, r'.Knows W.strict x := by
  refine W.intro fun hr => W.look (fun _ _ => rfl) (W.pure fun x hx hs => ?_)
  obtain ⟨side, hside, rfl⟩ := List.mem_map.1 hx
  exact (hr hs).closed.knows_chain (s := ⟨m, false⟩) (h hs) side hside

theorem holds_resolve (h : W.strict → (Rule.constRead c).Known r.engine.world) :
    W.At r c.resolve := by
  have hfrom : ∀ {m : ModuleId} {r' : Run}, r'.Knows W.strict m →
      W.At r' (ConstRead.ancestors m >>= c.lookInAncestors) := fun hm =>
    W.bind (holds_ancestors hm) fun _ _ _ hms => c.holds_lookInAncestors hms
  unfold ConstRead.resolve
  split
  · next m hscope => exact hfrom fun hs => (h hs).1 m hscope
  · refine W.bind (c.holds_lookInScopes fun m hm hs => (h hs).2 m hm) fun found _ hr _ => ?_
    cases found with
    | some v => exact W.pure trivial
    | none =>
      dsimp only
      split
      · exact W.pure trivial
      · next m ms hscopes =>
        exact hfrom (hr.knows fun hs => (h hs).2 m (hscopes ▸ List.mem_cons_self))

end ConstRead

theorem IvarRead.holds_run (c : IvarRead) (h : W.strict → (Rule.ivarRead c).Known r.engine.world) :
    W.At r c.run := by
  refine W.bind (W.ensureIvar _ r) fun own r1 h1 _ => ?_
  refine W.intro fun hr => W.look (fun _ _ => rfl) ?_
  refine bindFine (Walk.forM fun side hside r2 h2 => W.readSuperclass (h2.knows fun hs => ?_))
    fun _ => ?_
  · exact (hr hs).closed.knows_chain (s := c.key.side) (h1.knows h hs) side hside
  · split
    · exact fine_ite (by simp) (by simp)
    · exact fine_pure _

namespace MultiAssign

@[simp] theorem fine_assignEach (srcs dsts : List VertexId) : W.Fine (assignEach srcs dsts) := by
  induction dsts generalizing srcs with
  | nil => simp [assignEach]
  | cons dst dsts ih => cases srcs <;> simp [assignEach, ih]

variable (c : MultiAssign) {t : Ty}

theorem holds_assignFirst (h : r.Known W.strict t) : W.At r (c.assignFirst t) := by
  unfold assignFirst
  split
  · exact bindFine (holds_typeSource _ h) fun _ => by simp
  · exact W.pure trivial

theorem holds_assignType (h : r.Known W.strict t) : W.At r (c.assignType t) := by
  have hall : ∀ src dsts, W.Fine (assignAll src dsts) := fun src dsts => by simp [assignAll]
  unfold assignType
  split
  · exact fine_assignEach _ _ r
  · exact hall _ _ r
  · split
    · split
      · exact hall _ _ r
      · exact W.pure trivial
    · exact c.holds_assignFirst h
  · exact c.holds_assignFirst h

theorem fine_run : W.Fine c.run := by
  refine fun r => W.bind (holds_typesAt c.rhs) fun _ _ _ ht => ?_
  obtain ⟨rfl, ht⟩ := ht
  exact Walk.forM fun t h _ hr => c.holds_assignType (hr.known (ht t h))

end MultiAssign

theorem ReturnCheck.fine_checkNode (c : ReturnCheck) (n : NodeId) : W.Fine (c.checkNode n) := by
  refine fine_look (fun _ _ => rfl) fun e => ?_
  split
  · simp
  · refine fine_bind (Matching.fine_fits _ _) fun fit => fine_ite ?_ (fine_pure _)
    refine fine_look (fun e c => ?_) fun e => fine_addDiagnostic _ _ _
    simp only [Engine.showVertex_config]

namespace MethodDef

theorem fine_declaredArgs (mt : MethodType) (map : ParamMap) : W.Fine (declaredArgs mt map) := by
  refine Walk.fine_bind (by simp) fun _ => Walk.fine_bind ?_ fun _ => by simp
  split
  · refine Walk.fine_bind (SigType.fine_vertex map _) fun elem => Walk.fine_bind ?_ (by simp)
    refine fun r => W.intro fun hr => W.freshSource _ fun t ht hs => ?_
    rw [List.mem_singleton.1 ht]
    exact (hr hs).closed.knows_core (by decide)
  · exact fine_pure _

theorem known_selfType {w : World} {d : MethodDef} (h : w.Knows d.key.side.module) :
    d.selfType.Known w := by
  unfold selfType
  split <;> exact h

theorem holds_run (d : MethodDef) (h : F.strict → (Rule.methodDef d).Known r.engine.world) :
    F.At r (d.run F.own) := by
  refine F.look (fun _ _ => rfl) ?_
  split
  · exact F.pure trivial
  · refine bindFine (holds_receiverMap fun hs => known_selfType (h hs)) fun map => ?_
    refine Walk.fine_bind (fine_declaredArgs _ map) fun x => ?_
    refine Walk.fine_bind (fine_passPositionals d _ x.1 x.2) fun _ => fine_ite ?_ (fine_pure _)
    refine Walk.fine_bind (SigType.fine_vertex map _) fun formal r' => ?_
    exact F.addSite _ (fun _ => Or.inl rfl) trivial trivial

end MethodDef

/-- Whatever the rule of a site, its run has the property, if it starts at known modules. -/
theorem Rule.holds_run {rule : Rule} (h : F.strict → rule.Known r.engine.world) :
    F.At r (rule.run F.own) := by
  cases rule with
  | constRead c =>
    refine bindFine (c.holds_resolve h) fun found => ?_
    split <;> simp
  | typeRead c => exact fine_bind (SigType.fine_vertex _ _) (fun _ => fine_addEdge _ _) r
  | methodDecl c => exact F.pure trivial
  | methodDef c => exact c.holds_run h
  | returnCheck c =>
    refine fine_bind (Matching.fine_fits _ _) (fun _ => fine_ite ?_ (fine_pure _)) r
    exact fine_look (fun _ _ => rfl) fun e => fine_forM c.fine_checkNode
  | call c => exact c.fine_run r
  | globalRead c => exact bindFine (F.globalVertex _ r) fun _ => fine_addEdge _ _
  | ivarRead c => exact c.holds_run h
  | multiAssign c => exact c.fine_run r

end TypeFlow
