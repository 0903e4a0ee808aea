import TypeFlow.Proofs.Resolution
import TypeFlow.Proofs.Splats
import TypeFlow.Workspace.Report

/-!
# Checks of blocks

An overload that a call fits and that declares what its block returns asks for a check of every
block that the call passes. A call keeps one check for each block, so of several that it asks for
the last one stays. What a call tries is listed beside what it does, overload by overload.
-/

set_option autoImplicit false

namespace TypeFlow

open Staging Walk

structure BlockCheck where
  block : BlockId
  node : NodeId
  check : ReturnCheck

namespace BlockCheck

def key (b : BlockId) : SiteKey := { slot := "block-return", index := b.index }

def child (x : BlockCheck) : NodeId × Rule := (x.node, .returnCheck x.check)

end BlockCheck

/-- What comes of an overload when a call tries it. -/
structure Attempt where
  declaration : SiteId
  overload : MethodType
  fits : Bool := false
  checks : List BlockCheck := []

namespace MethodType

def passParams (t : BlockType) (map : ParamMap) (block : Block) : Staging Unit := do
  if t.req.length = block.params.length then
    (t.req.zip block.params).forM fun (t, param) => do
      let v ← t.vertex map
      addEdge v param

def checkBlock (t : BlockType) (map : ParamMap) (id : BlockId) : Staging (List BlockCheck) := do
  match (← engine).block? id with
  | none => return []
  | some block =>
    let formal ← t.ret.vertex map
    addSite (BlockCheck.key id) block.node (.returnCheck { actual := block.ret, formal })
    passParams t map block
    return [⟨id, block.node, { actual := block.ret, formal }⟩]

def checkBlocks (t : BlockType) (map : ParamMap) : List BlockId → Staging (List BlockCheck)
  | [] => return []
  | id :: ids => do
    let checks ← checkBlock t map id
    return checks ++ (← checkBlocks t map ids)

def attempt (mt : MethodType) (s : SiteId) (map : ParamMap) (args : List VertexId)
    (splats : List Bool) (block : Option VertexId) (ret : VertexId) : Staging Attempt := do
  let vars ← mt.typeParams.mapM fun name => return (name, ← openVariable name)
  let opened := vars.foldl (fun m x => m.insert x.1 x.2.2) map
  if !(← mt.matchArguments opened args splats) then return { declaration := s, overload := mt }
  if mt.block.isSome != block.isSome then return { declaration := s, overload := mt }
  let checks ← (match mt.block, block with
    | some t, some b => do checkBlocks t opened (← blocksAt b)
    | _, _ => pure [])
  let closed := vars.foldl (fun m x => m.insert x.1 x.2.1) opened
  let v ← mt.ret.vertex closed
  addEdge v ret
  return { declaration := s, overload := mt, fits := true, checks }

variable (t : BlockType) (map : ParamMap)

theorem applyBlock_eq (id : BlockId) : applyBlock t map id = (fun _ => ()) <$> checkBlock t map id := by
  unfold applyBlock checkBlock
  simp only [map_bind]
  refine bind_congr fun e => ?_
  cases e.block? id with
  | none => rfl
  | some block =>
    simp only [map_bind]
    refine bind_congr fun formal => bind_congr fun _ => ?_
    unfold passParams
    split <;> simp

theorem forM_applyBlock_eq (ids : List BlockId) :
    (ids.forM fun id => applyBlock t map id) = (fun _ => ()) <$> checkBlocks t map ids := by
  induction ids with
  | nil => rfl
  | cons id ids ih =>
    change (applyBlock t map id >>= fun _ => ids.forM fun id => applyBlock t map id) = _
    rw [ih, applyBlock_eq]
    simp [checkBlocks]

theorem apply_eq (mt : MethodType) (s : SiteId) (args : List VertexId) (splats : List Bool)
    (block : Option VertexId) (ret : VertexId) : mt.apply map args splats block ret =
      Attempt.fits <$> mt.attempt s map args splats block ret := by
  unfold apply attempt
  simp only [map_bind]
  refine bind_congr fun vars => bind_congr fun fit => ?_
  split
  · simp
  · cases mt.block <;> cases block <;> simp [forM_applyBlock_eq]

end MethodType

namespace MethodDecl

variable (d : MethodDecl) (s : SiteId) (node : NodeId) (map : ParamMap) (args : List VertexId)
  (splats : List Bool) (block : Option VertexId) (ret : VertexId)

def attemptEach : List MethodType → Staging (List Attempt)
  | [] => return []
  | mt :: mts => do
    let first ← mt.attempt s map args splats block ret
    return first :: (← attemptEach mts)

def attempts : Staging (List Attempt) := do
  let tried ← attemptEach s map args splats block ret d.overloads
  if !(tried.map Attempt.fits).any id then
    addDiagnostic node .unresolvedOverload "failed to resolve overloads"
  return tried

theorem mapM_apply_eq (mts : List MethodType) :
    (mts.mapM fun mt => mt.apply map args splats block ret) =
      List.map Attempt.fits <$> attemptEach s map args splats block ret mts := by
  rw [← List.mapM'_eq_mapM]
  induction mts with
  | nil => rfl
  | cons mt mts ih =>
    rw [List.mapM'_cons, ih, mt.apply_eq map s]
    simp [attemptEach]

theorem connect_eq : d.connect node map args splats block ret =
    (fun _ => ()) <$> d.attempts s node map args splats block ret := by
  unfold connect attempts
  rw [mapM_apply_eq s]
  simp only [map_bind, bind_map_left]
  refine bind_congr fun tried => ?_
  split <;> simp

end MethodDecl

namespace Call

variable (c : Call) (node : NodeId)

def attemptDecl (map : ParamMap) (s : SiteId) : Option Rule → Staging (List Attempt)
  | some (.methodDecl d) => d.attempts s node map c.args c.splats c.block c.ret
  | _ => return []

def attemptDecls (map : ParamMap) : List SiteId → Staging (List Attempt)
  | [] => return []
  | s :: rest => do
    let first ← c.attemptDecl node map s ((← engine).rule? s)
    return first ++ (← attemptDecls map rest)

def attemptOn (recv : Ty) (key : MemberKey) (map : ParamMap) (called : OrderedSet SiteId) :
    Staging (List Attempt × OrderedSet SiteId) := do
  match (← engine).world.method? key with
  | none => return ([], called)
  | some entity =>
    match entity.builtin with
    | some b =>
      c.callBuiltin node recv b
      return ([], called)
    | none =>
      if entity.decls.isEmpty then return ([], ← c.connectDefs node entity.defs.toList called)
      else return (← c.attemptDecls node map entity.decls.toList, called)

def attemptAll : List Resolution → OrderedSet SiteId →
    Staging (List Attempt × OrderedSet SiteId)
  | [], called => return ([], called)
  | r :: rest, called => do
    match r.method with
    | some key =>
      let (first, called) ← c.attemptOn node r.recv key r.map called
      let (later, called) ← attemptAll rest called
      return (first ++ later, called)
    | none =>
      addDiagnostic node .undefinedMethod
        ("undefined method: " ++ (← engine).showType r.recv ++ "#" ++ c.name)
      attemptAll rest called

/-- The run of a call that lists what it tries. -/
def attempts : Staging (List Attempt) := do
  let resolutions ← c.resolve
  let (tried, called) ← c.attemptAll node resolutions {}
  if c.subclasses then
    let keys ← c.resolveOverrides
    let e ← engine
    let defs := keys.flatMap fun key => ((e.world.method? key).map fun m => m.defs.toList).getD []
    let _ ← c.connectDefs node defs called
  return tried

theorem connectDecls_eq (map : ParamMap) (ss : List SiteId) :
    c.connectDecls node map ss = (fun _ => ()) <$> c.attemptDecls node map ss := by
  induction ss with
  | nil => rfl
  | cons s rest ih =>
    unfold connectDecls attemptDecls
    rw [ih]
    simp only [map_bind]
    refine bind_congr fun e => ?_
    unfold attemptDecl
    cases e.rule? s with
    | none => simp
    | some rule => cases rule <;> simp [MethodDecl.connect_eq _ s]

theorem dispatch_eq (recv : Ty) (key : MemberKey) (map : ParamMap) (called : OrderedSet SiteId) :
    c.dispatch node recv key map called =
      Prod.snd <$> c.attemptOn node recv key map called := by
  unfold dispatch attemptOn
  simp only [map_bind]
  refine bind_congr fun e => ?_
  cases e.world.method? key with
  | none => simp
  | some entity =>
    dsimp only
    cases entity.builtin with
    | some b => simp
    | none =>
      dsimp only
      split <;> simp [connectDecls_eq]

theorem dispatchAll_eq (found : List Resolution) (called : OrderedSet SiteId) :
    c.dispatchAll node found called = Prod.snd <$> c.attemptAll node found called := by
  induction found generalizing called with
  | nil => rfl
  | cons r rest ih =>
    unfold dispatchAll attemptAll
    cases r.method with
    | some key => simp [dispatch_eq, ih]
    | none => simp [ih]

theorem run_eq_attempts : c.run node = (fun _ => ()) <$> c.attempts node := by
  unfold run attempts
  simp only [map_bind, dispatchAll_eq, bind_map_left]
  refine bind_congr fun found => bind_congr fun x => ?_
  split <;> simp

end Call

structure Engine.Apart (e e' : Engine) : Prop where
  blocks : e'.blocks = e.blocks
  sites : e'.sites = e.sites
  world : e.world.Alike e'.world
  graph : ∀ born, e.graph.Settled born → e.graph.Extended e'.graph

instance Engine.bearsApart : Engine.Bears Engine.Apart where
  refl e := ⟨rfl, rfl, .refl e.world, fun _ => .refl⟩
  trans h h' := ⟨h'.blocks.trans h.blocks, h'.sites.trans h.sites, h.world.trans h'.world,
    fun born hs =>
      have hfirst := h.graph born hs
      hfirst.trans (h'.graph _ hfirst.settled.choose_spec)⟩
  newVertex e label node := ⟨rfl, rfl, .refl e.world, fun _ hs => .newVertex hs label node⟩
  newSource e types node := ⟨rfl, rfl, .refl e.world, fun _ hs => .newSource hs types node⟩
  source e types := ⟨rfl, rfl, .refl e.world, fun _ hs => .source hs types⟩
  resolvePath e path := ⟨rfl, rfl, .resolve e.world path, fun _ => .refl⟩
  consult e key := ⟨rfl, rfl, .consult e.world key, fun _ => .refl⟩
  ensureConst e key := by
    have hworld := Engine.bearsAlike.ensureConst e key
    unfold Engine.ensureConst at hworld ⊢
    split
    · exact ⟨rfl, rfl, .refl e.world, fun _ => .refl⟩
    · next h =>
      rw [h] at hworld
      exact ⟨rfl, rfl, hworld, fun _ hs => .newVertex hs _ none⟩
  ensureIvar e key := by
    have hworld := Engine.bearsAlike.ensureIvar e key
    unfold Engine.ensureIvar at hworld ⊢
    split
    · exact ⟨rfl, rfl, .refl e.world, fun _ => .refl⟩
    · next h =>
      rw [h] at hworld
      exact ⟨rfl, rfl, hworld, fun _ hs => .newVertex hs _ none⟩
  globalVertex e name := by
    unfold Engine.globalVertex
    split
    · exact ⟨rfl, rfl, .refl e.world, fun _ => .refl⟩
    · exact ⟨rfl, rfl, .refl e.world, fun _ hs => .newVertex hs _ none⟩

/-- A part of a run that asks for these checks of blocks. -/
structure Asks (checks : List BlockCheck) (r r' : Run) : Prop where
  engine : r.engine.Apart r'.engine
  children : ∀ id, r'.effects.pending.sites.get? (BlockCheck.key id) =
    ((checks.filter fun x => decide (x.block = id)).getLast?.map BlockCheck.child).or
      (r.effects.pending.sites.get? (BlockCheck.key id))

namespace Asks

variable {checks checks' : List BlockCheck} {r r' r'' : Run}

theorem of_effects (he : r.engine.Apart r'.engine)
    (hs : r'.effects.pending.sites = r.effects.pending.sites) : Asks [] r r' :=
  ⟨he, fun id => by rw [hs]; rfl⟩

theorem refl (r : Run) : Asks [] r r := of_effects (Engine.Bears.refl _) rfl

theorem trans (h : Asks checks r r') (h' : Asks checks' r' r'') :
    Asks (checks ++ checks') r r'' := by
  refine ⟨Engine.Bears.trans h.engine h'.engine, fun id => ?_⟩
  rw [h'.children, h.children, List.filter_append, List.getLast?_append, Option.map_or,
    Option.or_assoc]

theorem addSite (x : BlockCheck) (r : Run) : Asks [x] r
    { r with effects := r.effects.addSite (BlockCheck.key x.block) x.node (.returnCheck x.check) } := by
  refine ⟨Engine.Bears.refl _, fun id => ?_⟩
  show (r.effects.pending.sites.insert _ _).get? _ = _
  rw [OrderedMap.get?_insert]
  by_cases hx : x.block = id
  · simp [hx, BlockCheck.child]
  · have hkey : BlockCheck.key x.block ≠ BlockCheck.key id := fun h =>
      hx (congrArg BlockId.mk (congrArg SiteKey.index h))
    simp [hx, hkey]

end Asks

/-- All that a run does besides asking for children. -/
def Staging.childless : Walk where
  strict := False
  Holds m r Q := ∀ a r', m r = some (a, r') → Asks [] r r' ∧ Q a r'
  intro h := h False.elim
  pure h _ _ he := by
    cases he
    exact ⟨.refl _, h⟩
  bind hm hk b r' he := by
    obtain ⟨⟨a, r1⟩, h1, h2⟩ := Option.bind_eq_some_iff.1 he
    obtain ⟨hfirst, hp⟩ := hm a r1 h1
    obtain ⟨hrest, hq⟩ := hk a r1 ⟨False.elim, False.elim⟩ hp b r' h2
    exact ⟨hfirst.trans hrest, hq⟩
  endless _ _ _ _ he := absurd he (Option.some_ne_none _).symm
  look _ h := h
  addEdge _ _ _ _ _ he := by cases he; exact ⟨.of_effects (Engine.Bears.refl _) rfl, trivial⟩
  addDiagnostic _ _ _ _ _ _ he := by
    cases he; exact ⟨.of_effects (Engine.Bears.refl _) rfl, trivial⟩
  readSuperclass _ _ _ he := by cases he; exact ⟨.of_effects (Engine.Bears.refl _) rfl, trivial⟩
  readMethod _ _ _ he := by cases he; exact ⟨.of_effects (Engine.Bears.consult _ _) rfl, trivial⟩
  readConst _ _ _ he := by cases he; exact ⟨.of_effects (Engine.Bears.refl _) rfl, trivial⟩
  source _ _ _ he := by cases he; exact ⟨.of_effects (Engine.Bears.source _ _) rfl, trivial⟩
  resolvePath _ _ _ _ he := by
    cases he; exact ⟨.of_effects (Engine.Bears.resolvePath _ _) rfl, False.elim⟩
  freshVertex label r a r' he := by
    have hengine := keeps_scratch (fun e => Engine.bearsApart.newVertex e label none) r a r' he
    cases he
    exact ⟨.of_effects hengine rfl, trivial⟩
  freshSource _ {types r} _ a r' he := by
    have hengine := keeps_scratch (fun e => Engine.bearsApart.newSource e types none) r a r' he
    cases he
    exact ⟨.of_effects hengine rfl, trivial⟩
  ensureConst _ _ _ _ he := by
    cases he; exact ⟨.of_effects (Engine.Bears.ensureConst _ _) rfl, trivial⟩
  ensureIvar _ _ _ _ he := by
    cases he; exact ⟨.of_effects (Engine.Bears.ensureIvar _ _) rfl, trivial⟩
  globalVertex _ _ _ _ he := by
    cases he; exact ⟨.of_effects (Engine.Bears.globalVertex _ _) rfl, trivial⟩

theorem Staging.exists_of_bind {α β : Type} {m : Staging α} {k : α → Staging β} {r r' : Run}
    {b : β} (h : (m >>= k) r = some (b, r')) :
    ∃ a r1, m r = some (a, r1) ∧ k a r1 = some (b, r') := by
  obtain ⟨⟨a, r1⟩, hm, hk⟩ := Option.bind_eq_some_iff.1 h
  exact ⟨a, r1, hm, hk⟩

theorem asks_of_fine {α : Type} {m : Staging α} (hm : childless.Fine m) {r r' : Run} {a : α}
    (h : m r = some (a, r')) : Asks [] r r' := (hm r a r' h).1

/-- A block, if it is there, is checked against what is declared. -/
def BlockType.Checks (t : BlockType) (e : Engine) (id : BlockId) (xs : List BlockCheck) : Prop :=
  ∀ b, e.block? id = some b → ∃ formal map r r', t.ret.vertex map r = some (formal, r') ∧
    ⟨id, b.node, { actual := b.ret, formal }⟩ ∈ xs

/-- An overload that fits asks for a check of every block at hand. -/
def Attempt.ChecksBlocks (a : Attempt) (block : Option VertexId) (e : Engine) : Prop :=
  a.fits = true → ∀ t v, a.overload.block = some t → block = some v →
    (e.vertex v).alive = true → ∀ id, .proc id ∈ e.typesAt v → t.Checks e id a.checks

namespace Engine

/-- The overloads of a declaration. -/
def overloadsAt (e : Engine) (s : SiteId) : List (SiteId × MethodType) :=
  match e.rule? s with
  | some (.methodDecl d) => d.overloads.map (s, ·)
  | _ => []

/-- The overloads of all declarations of a method, if it is not built in. -/
def declared (e : Engine) (key : MemberKey) : List (SiteId × MethodType) :=
  (e.world.method? key).elim [] fun m =>
    if m.builtin.isSome then [] else m.decls.toList.flatMap e.overloadsAt

namespace Apart

variable {e e' : Engine}

theorem checks (h : e.Apart e') {t : BlockType} {id : BlockId} {xs ys : List BlockCheck}
    (hc : t.Checks e' id xs) (hsub : xs ⊆ ys) : t.Checks e id ys := by
  intro b hb
  have hblock : e'.block? id = e.block? id := by
    unfold Engine.block?
    rw [h.blocks]
  obtain ⟨formal, map, r, r', hvertex, hmem⟩ := hc b (hblock.trans hb)
  exact ⟨formal, map, r, r', hvertex, hsub hmem⟩

theorem overloadsAt (h : e.Apart e') : e'.overloadsAt = e.overloadsAt := by
  funext s
  unfold Engine.overloadsAt Engine.rule? Engine.site?
  rw [h.sites]

theorem declared (h : e.Apart e') : e'.declared = e.declared := by
  funext key
  unfold Engine.declared
  rw [h.overloadsAt]
  rcases h.world.entries key with hsame | ⟨hnone, hnew⟩
  · rw [hsame]
  · rw [hnone, hnew]
    rfl

end Apart

end Engine

/-- A part of a run in which overloads are tried. -/
structure Tries (block : Option VertexId) (as : List Attempt) (r r' : Run) : Prop where
  asks : Asks (as.flatMap Attempt.checks) r r'
  checks : ∀ born, r.engine.graph.Settled born → ∀ a ∈ as, a.ChecksBlocks block r.engine

namespace Tries

variable {block : Option VertexId} {as bs : List Attempt} {r r1 r' : Run}

theorem none (h : Asks [] r r') : Tries block [] r r' :=
  ⟨h, fun _ _ _ ha => absurd ha List.not_mem_nil⟩

theorem append (h : Tries block as r r1) (h' : Tries block bs r1 r') :
    Tries block (as ++ bs) r r' := by
  refine ⟨?_, fun born hs a ha => ?_⟩
  · rw [List.flatMap_append]
    exact h.asks.trans h'.asks
  · rcases List.mem_append.1 ha with ha | ha
    · exact h.checks born hs a ha
    · intro hfits t v ht hv halive id hid
      have hext := h.asks.engine.graph born hs
      obtain ⟨born', hs'⟩ := hext.settled
      have hvertex : r1.engine.vertex v = r.engine.vertex v := hext.get v halive
      rw [← show r1.engine.typesAt v = r.engine.typesAt v from hext.typesAt halive] at hid
      exact h.asks.engine.checks
        (h'.checks born' hs' a ha hfits t v ht hv (hvertex ▸ halive) id hid) (List.Subset.refl _)

theorem behind (h : Asks [] r r1) (h' : Tries block as r1 r') : Tries block as r r' :=
  append (none h) h'

theorem ahead (h : Tries block as r r1) (h' : Asks [] r1 r') : Tries block as r r' := by
  have hall := append h (none h')
  rwa [List.append_nil] at hall

end Tries

namespace MethodType

variable {t : BlockType} {map : ParamMap} {r r' : Run} {xs : List BlockCheck}

theorem fine_passParams {W : Walk} (block : Block) : W.Fine (passParams t map block) := by
  unfold passParams
  split <;> simp

theorem checkBlock_spec {id : BlockId} (h : checkBlock t map id r = some (xs, r')) :
    Asks xs r r' ∧ t.Checks r.engine id xs := by
  unfold checkBlock at h
  obtain ⟨e, _, he, h⟩ := exists_of_bind h
  cases he
  cases hblock : r.engine.block? id with
  | none =>
    simp only [hblock] at h
    cases h
    exact ⟨.refl _, fun b hb => by cases hblock.symm.trans hb⟩
  | some block =>
    simp only [hblock] at h
    obtain ⟨formal, r1, h1, h⟩ := exists_of_bind h
    obtain ⟨_, r2, h2, h⟩ := exists_of_bind h
    obtain ⟨_, r3, h3, h⟩ := exists_of_bind h
    have hvertex : Asks [] r r1 := asks_of_fine (SigType.fine_vertex map t.ret) h1
    have hsite : Asks [⟨id, block.node, { actual := block.ret, formal }⟩] r1 r2 := by
      cases h2
      exact .addSite ⟨id, block.node, { actual := block.ret, formal }⟩ r1
    have hparams : Asks [] r2 r3 := asks_of_fine (fine_passParams block) h3
    cases h
    refine ⟨(hvertex.trans hsite).trans hparams, fun b hb => ?_⟩
    cases hblock.symm.trans hb
    exact ⟨formal, map, r, r1, h1, List.mem_singleton_self _⟩

theorem checkBlocks_spec {ids : List BlockId} (h : checkBlocks t map ids r = some (xs, r')) :
    Asks xs r r' ∧ ∀ id ∈ ids, t.Checks r.engine id xs := by
  induction ids generalizing r xs with
  | nil =>
    cases h
    exact ⟨.refl _, fun _ hid => absurd hid List.not_mem_nil⟩
  | cons id ids ih =>
    obtain ⟨first, r1, h1, h⟩ := exists_of_bind h
    obtain ⟨later, r2, h2, h⟩ := exists_of_bind h
    cases h
    obtain ⟨hfirst, hone⟩ := checkBlock_spec h1
    obtain ⟨hlater, hrest⟩ := ih h2
    refine ⟨hfirst.trans hlater, List.forall_mem_cons.2 ⟨?_, fun id' hid => ?_⟩⟩
    · exact Engine.Apart.checks (Engine.Bears.refl _) hone (List.subset_append_left _ _)
    · exact hfirst.engine.checks (hrest id' hid) (List.subset_append_right _ _)

theorem attempt_spec {mt : MethodType} {s : SiteId} {args : List VertexId} {splats : List Bool}
    {block : Option VertexId} {ret : VertexId} {a : Attempt}
    (h : mt.attempt s map args splats block ret r = some (a, r')) :
    Tries block [a] r r' ∧ (a.declaration, a.overload) = (s, mt) := by
  have hmisfit : ∀ {r1 : Run}, Asks [] r r1 →
      Tries block [{ declaration := s, overload := mt }] r r1 := fun hasks =>
    ⟨hasks, fun _ _ a ha hfits => by
      rw [List.mem_singleton.1 ha] at hfits
      cases hfits⟩
  unfold attempt at h
  obtain ⟨vars, r1, h1, h⟩ := exists_of_bind h
  obtain ⟨fit, r2, h2, h⟩ := exists_of_bind h
  have hopened : Asks [] r r1 := asks_of_fine (by simp) h1
  have hmatched : Asks [] r r2 := hopened.trans (asks_of_fine (fine_matchArguments _ _ _ _) h2)
  split at h
  · cases h
    exact ⟨hmisfit hmatched, rfl⟩
  split at h
  · cases h
    exact ⟨hmisfit hmatched, rfl⟩
  obtain ⟨checks, r3, h3, h⟩ := exists_of_bind h
  obtain ⟨v, r4, h4, h⟩ := exists_of_bind h
  obtain ⟨_, r5, h5, h⟩ := exists_of_bind h
  have hresult : Asks [] r3 r5 :=
    (asks_of_fine (SigType.fine_vertex _ mt.ret) h4).trans (asks_of_fine (fine_addEdge v ret) h5)
  cases h
  have hchecks : Asks checks r2 r3 ∧ ∀ t v, mt.block = some t → block = some v →
      ∀ id, .proc id ∈ r2.engine.typesAt v → t.Checks r2.engine id checks := by
    cases hblock : mt.block with
    | none =>
      simp only [hblock] at h3
      cases h3
      exact ⟨.refl _, fun t v ht => by cases ht⟩
    | some t =>
      cases block with
      | none =>
        simp only [hblock] at h3
        cases h3
        exact ⟨.refl _, fun t v _ hv => by cases hv⟩
      | some v =>
        simp only [hblock] at h3
        obtain ⟨ids, _, hids, h3⟩ := exists_of_bind h3
        cases hids
        obtain ⟨hasks, hall⟩ := checkBlocks_spec h3
        refine ⟨hasks, fun t' v' ht hv id hid => ?_⟩
        cases ht
        cases hv
        exact hall id (List.mem_filterMap.2 ⟨.proc id, hid, rfl⟩)
  refine ⟨.behind hmatched (.ahead ⟨?_, fun _ _ a ha => ?_⟩ hresult), rfl⟩
  · rw [List.flatMap_singleton]
    exact hchecks.1
  · rw [List.mem_singleton.1 ha]
    exact fun _ t v ht hv _ => hchecks.2 t v ht hv

end MethodType

theorem MethodDecl.attemptEach_spec {s : SiteId} {map : ParamMap} {args : List VertexId}
    {splats : List Bool} {block : Option VertexId} {ret : VertexId} {mts : List MethodType}
    {as : List Attempt} {r r' : Run}
    (h : attemptEach s map args splats block ret mts r = some (as, r')) :
    Tries block as r r' ∧ as.map (fun a => (a.declaration, a.overload)) = mts.map (s, ·) := by
  induction mts generalizing r as with
  | nil =>
    cases h
    exact ⟨.none (.refl _), rfl⟩
  | cons mt mts ih =>
    obtain ⟨first, r1, h1, h⟩ := exists_of_bind h
    obtain ⟨later, r2, h2, h⟩ := exists_of_bind h
    cases h
    obtain ⟨hfirst, hof⟩ := MethodType.attempt_spec h1
    obtain ⟨hlater, hrest⟩ := ih h2
    exact ⟨hfirst.append hlater, by rw [List.map_cons, List.map_cons, hof, hrest]⟩

namespace Call

variable {c : Call} {node : NodeId} {as : List Attempt} {r r' : Run}
  {called called' : OrderedSet SiteId}

theorem asks_newInstance {recv : Ty} (h : c.newInstance node recv r = some ((), r')) :
    Asks [] r r' := by
  unfold newInstance at h
  split at h
  · obtain ⟨e, r1, he, h⟩ := exists_of_bind h
    cases he
    split at h
    · obtain ⟨inst, r1, h1, h⟩ := exists_of_bind h
      obtain ⟨ret, r2, h2, h⟩ := exists_of_bind h
      obtain ⟨_, r3, h3, h⟩ := exists_of_bind h
      have hsource : Asks [] r r1 := (childless.source (fun _ _ => False.elim) _ _ h1).1
      have hsite : Asks [] r2 r3 := by
        cases h3
        refine ⟨Engine.Bears.refl _, fun id => ?_⟩
        show (r2.effects.pending.sites.insert _ _).get? _ = _
        have hslot : "initialize" ≠ "block-return" := by decide
        rw [OrderedMap.get?_insert, if_neg fun hkey => hslot (congrArg SiteKey.slot hkey)]
        rfl
      exact (hsource.trans (asks_of_fine (fine_freshVertex _) h2)).trans
        (hsite.trans (asks_of_fine (fine_addEdge inst c.ret) h))
    · cases h
      exact .refl _
  · cases h
    exact .refl _

theorem asks_callBuiltin {recv : Ty} {b : Builtin}
    (h : c.callBuiltin node recv b r = some ((), r')) : Asks [] r r' := by
  cases b with
  | classNew => exact asks_newInstance h
  | procCall => exact asks_of_fine (c.fine_callBlock recv) h
  | arrayPush => exact (c.holds_pushElement (W := childless) False.elim () r' h).1
  | acceptAll =>
    cases h
    exact .refl _
  | arrayAt =>
    have hfine : childless.Fine (c.callBuiltin node recv .arrayAt) := by
      unfold callBuiltin
      dsimp only
      split <;> simp
    exact asks_of_fine hfine h

theorem attemptDecl_spec {map : ParamMap} {s : SiteId}
    (h : c.attemptDecl node map s (r.engine.rule? s) r = some (as, r')) :
    Tries c.block as r r' ∧
      as.map (fun a => (a.declaration, a.overload)) = r.engine.overloadsAt s := by
  unfold Engine.overloadsAt
  cases hrule : r.engine.rule? s with
  | none =>
    rw [hrule] at h
    cases h
    exact ⟨.none (.refl _), rfl⟩
  | some rule =>
    rw [hrule] at h
    cases rule with
    | methodDecl d =>
      obtain ⟨tried, r1, h1, h⟩ := exists_of_bind h
      obtain ⟨htries, hof⟩ := MethodDecl.attemptEach_spec h1
      dsimp only at h
      split at h
      · obtain ⟨_, r2, h2, h⟩ := exists_of_bind h
        cases h
        exact ⟨htries.ahead (asks_of_fine (fine_addDiagnostic _ _ _) h2), hof⟩
      · cases h
        exact ⟨htries, hof⟩
    | _ =>
      cases h
      exact ⟨.none (.refl _), rfl⟩

theorem attemptDecls_spec {map : ParamMap} {ss : List SiteId}
    (h : c.attemptDecls node map ss r = some (as, r')) : Tries c.block as r r' ∧
      as.map (fun a => (a.declaration, a.overload)) = ss.flatMap r.engine.overloadsAt := by
  induction ss generalizing r as with
  | nil =>
    cases h
    exact ⟨.none (.refl _), rfl⟩
  | cons s rest ih =>
    unfold attemptDecls at h
    obtain ⟨e, _, he, h⟩ := exists_of_bind h
    cases he
    obtain ⟨first, r1, h1, h⟩ := exists_of_bind h
    obtain ⟨later, r2, h2, h⟩ := exists_of_bind h
    cases h
    obtain ⟨hfirst, hof⟩ := attemptDecl_spec h1
    obtain ⟨hlater, hrest⟩ := ih h2
    rw [hfirst.asks.engine.overloadsAt] at hrest
    exact ⟨hfirst.append hlater, by rw [List.map_append, hof, hrest, List.flatMap_cons]⟩

theorem attemptOn_spec {recv : Ty} {key : MemberKey} {map : ParamMap}
    (h : c.attemptOn node recv key map called r = some ((as, called'), r')) :
    Tries c.block as r r' ∧
      as.map (fun a => (a.declaration, a.overload)) = r.engine.declared key := by
  unfold attemptOn at h
  obtain ⟨e, _, he, h⟩ := exists_of_bind h
  cases he
  unfold Engine.declared
  cases hm : r.engine.world.method? key with
  | none =>
    simp only [hm] at h
    cases h
    exact ⟨.none (.refl _), rfl⟩
  | some m =>
    simp only [hm] at h
    rw [Option.elim_some]
    cases hb : m.builtin with
    | some b =>
      simp only [hb] at h
      obtain ⟨_, r1, h1, h⟩ := exists_of_bind h
      cases h
      exact ⟨.none (asks_callBuiltin h1), rfl⟩
    | none =>
      simp only [hb] at h
      rw [if_neg (by simp)]
      split at h
      · next hempty =>
        obtain ⟨_, r1, h1, h⟩ := exists_of_bind h
        cases h
        rw [List.isEmpty_iff.1 hempty]
        exact ⟨.none (asks_of_fine (c.fine_connectDefs node _ _) h1), rfl⟩
      · obtain ⟨tried, r1, h1, h⟩ := exists_of_bind h
        cases h
        exact attemptDecls_spec h1

theorem attemptAll_spec {found : List Resolution}
    (h : c.attemptAll node found called r = some ((as, called'), r')) :
    Tries c.block as r r' ∧ as.map (fun a => (a.declaration, a.overload)) =
      found.flatMap fun x => x.method.elim [] r.engine.declared := by
  induction found generalizing r as called with
  | nil =>
    cases h
    exact ⟨.none (.refl _), rfl⟩
  | cons x rest ih =>
    unfold attemptAll at h
    rw [List.flatMap_cons]
    cases hx : x.method with
    | some key =>
      simp only [hx] at h
      obtain ⟨⟨first, called1⟩, r1, h1, h⟩ := exists_of_bind h
      obtain ⟨⟨later, called2⟩, r2, h2, h⟩ := exists_of_bind h
      cases h
      obtain ⟨hfirst, hof⟩ := attemptOn_spec h1
      obtain ⟨hlater, hrest⟩ := ih h2
      rw [hfirst.asks.engine.declared] at hrest
      exact ⟨hfirst.append hlater, by rw [List.map_append, hof, hrest, Option.elim_some]⟩
    | none =>
      simp only [hx] at h
      obtain ⟨e, _, he, h⟩ := exists_of_bind h
      cases he
      obtain ⟨_, r1, h1, h⟩ := exists_of_bind h
      have hnote : Asks [] r r1 := asks_of_fine (fine_addDiagnostic _ _ _) h1
      obtain ⟨hlater, hrest⟩ := ih h
      rw [hnote.engine.declared] at hrest
      exact ⟨.behind hnote hlater, hrest⟩

end Call

section TwoBlockTypes

open Workspace

theorem exists_settled_serve (config : Config) (rs : List Request) :
    ∃ born, (serve config rs).engine.graph.Settled born := by
  obtain ⟨-, born, howned⟩ := owned_serve config rs
  exact ⟨born, howned.settled⟩

def declaresBlocks : String :=
  "\x7b\"type\":\"sig_def\",\"name\":\"f\",\"overloads\":[" ++
    "\x7b\"block\":\x7b\"ret\":\x7b\"type\":\"instance\",\"cpath\":[\"String\"]\x7d\x7d," ++
    "\"ret\":\x7b\"type\":\"nil\"\x7d\x7d," ++
    "\x7b\"block\":\x7b\"ret\":\x7b\"type\":\"instance\",\"cpath\":[\"Integer\"]\x7d\x7d," ++
    "\"ret\":\x7b\"type\":\"nil\"\x7d\x7d]\x7d"

def passesBlock : String :=
  "\x7b\"type\":\"call\",\"recv\":null,\"name\":\"f\",\"args\":[],\"block\":" ++
    "\x7b\"type\":\"block\",\"body\":[\x7b\"type\":\"int\",\"value\":1\x7d]\x7d\x7d"

/-- A block that returns a number is passed to a method with two overloads, one for blocks that
return a string and one for blocks that return a number. -/
def passingBlock : Workspace :=
  serve {} [writing "a" (declaresBlocks ++ "," ++ passesBlock)]

def Engine.call? (e : Engine) (s : SiteId) : Option (Call × NodeId) :=
  (e.site? s).bind fun x => match x.rule with
    | .call c => some (c, x.node)
    | _ => none

/-- The return types that a call asks its blocks to be checked against when it runs. -/
def Engine.askedReturns (e : Engine) (s : SiteId) : Option (List String) := do
  let (c, node) ← e.call? s
  let (tried, r) ← c.attempts node ⟨e, {}⟩
  return (tried.flatMap Attempt.checks).map fun x => r.engine.showVertex x.check.formal

/-- The return types that the blocks of a call are checked against. -/
def Engine.checkedReturns (e : Engine) (s : SiteId) : List String :=
  ((e.site? s).elim [] fun x => x.effects.installed.sites.values).filterMap fun s =>
    match e.rule? s with
    | some (.returnCheck x) => some (e.showVertex x.formal)
    | _ => none

end TwoBlockTypes

end TypeFlow
