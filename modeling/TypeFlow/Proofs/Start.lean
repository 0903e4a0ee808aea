import TypeFlow.Engine.Boot
import TypeFlow.Proofs.Ledger

/-!
# The start does not depend on the configuration

Whatever its configuration, an engine starts with the same graph and the same world, so what holds
of one start can be computed once. The start is written out, so that nothing of it has to be
computed again.
-/

set_option autoImplicit false

namespace TypeFlow

namespace Engine

def configured (e : Engine) (config : Config) : Engine := { e with config }

variable (e : Engine) (config : Config)

@[simp] theorem world_configured : (e.configured config).world = e.world := rfl

theorem schedule_configured (s : SiteId) :
    (e.configured config).schedule s = (e.schedule s).configured config := by
  unfold schedule
  show (if e.isLive s then _ else _) = _
  split <;> rfl

theorem scheduleAll_configured (ss : List SiteId) :
    (e.configured config).scheduleAll ss = (e.scheduleAll ss).configured config := by
  unfold scheduleAll
  induction ss generalizing e with
  | nil => rfl
  | cons s ss ih => rw [List.foldl_cons, List.foldl_cons, schedule_configured, ih]

theorem addModuleDecl_configured (m : ModuleId) (origin : DefOrigin) (decl : ModuleDecl) :
    (e.configured config).addModuleDecl m origin decl =
      (e.addModuleDecl m origin decl).configured config := by
  unfold addModuleDecl
  rw [world_configured]
  dsimp only
  split
  · exact scheduleAll_configured { e with world := (e.world.declare m origin decl).2 } config _
  · rfl

theorem addInclude_configured (m : ModuleId) (origin : DefOrigin) (target : ModuleId)
    (args : List SigType) : (e.configured config).addInclude m origin target args =
      (e.addInclude m origin target args).configured config :=
  scheduleAll_configured (e.modifyWorld (·.modify m fun x =>
    { x with includes := x.includes.insert (origin, target) args })) config _

theorem ensureConst_configured (key : ConstKey) : (e.configured config).ensureConst key =
    ((e.ensureConst key).1, (e.ensureConst key).2.configured config) := by
  unfold ensureConst
  rw [world_configured]
  cases e.world.const? key <;> rfl

theorem addConstDef_configured (key : ConstKey) (origin : DefOrigin) :
    (e.configured config).addConstDef key origin =
      ((e.addConstDef key origin).1, (e.addConstDef key origin).2.configured config) := by
  unfold addConstDef
  rw [ensureConst_configured]
  dsimp only
  refine Prod.ext rfl ?_
  dsimp only
  split
  · rfl
  · exact scheduleAll_configured ((e.ensureConst key).2.modifyWorld (·.modifyConst key fun c =>
      { c with defs := c.defs.insert origin })) config _

theorem addEdge_configured (src dst : VertexId) :
    ((e.configured config).addEdge src dst).2 = (e.addEdge src dst).2.configured config :=
  scheduleAll_configured { e with graph := (e.graph.addEdge src dst).2.graph } config _

end Engine

namespace Boot

variable (e : Engine) (config : Config)

theorem foldl_configured {α : Type} {f : Engine → α → Engine}
    (hf : ∀ e a, f (e.configured config) a = (f e a).configured config) (as : List α) :
    as.foldl f (e.configured config) = (as.foldl f e).configured config := by
  induction as generalizing e with
  | nil => rfl
  | cons a as ih => rw [List.foldl_cons, List.foldl_cons, hf, ih]

theorem declareClasses_configured :
    declareClasses (e.configured config) = (declareClasses e).configured config := by
  have hdeclare : ∀ (e : Engine) m decl,
      declare (e.configured config) m decl = (declare e m decl).configured config :=
    fun e m decl => e.addModuleDecl_configured config m .builtin decl
  unfold declareClasses
  simp only [hdeclare, Engine.addInclude_configured]
  rw [foldl_configured _ _ fun e m => hdeclare e m _]
  simp only [hdeclare]

theorem defineConstant_configured (m : ModuleId) :
    defineConstant (e.configured config) m = (defineConstant e m).configured config := by
  unfold defineConstant
  rw [Engine.world_configured, Engine.addConstDef_configured]
  exact Engine.addEdge_configured
    ((e.addConstDef ⟨Core.object, e.world.name m⟩ .builtin).2.source [.singletonOf m]).2 config _ _

theorem defineConstants_configured :
    defineConstants (e.configured config) = (defineConstants e).configured config :=
  foldl_configured (f := fun e i => defineConstant e ⟨i⟩) e config
    (fun e i => defineConstant_configured e config ⟨i⟩) (List.range Core.names.length)

end Boot

theorem Engine.boot_eq (config : Config) :
    Engine.boot config = (Engine.boot {}).configured config := by
  unfold Engine.boot
  have hnames : Boot.enterNames { config } = (Boot.enterNames {}).configured config :=
    Boot.foldl_configured {} config (fun _ _ => rfl) Core.names
  rw [hnames, Boot.declareClasses_configured, Boot.defineConstants_configured]
  exact Boot.foldl_configured _ config (fun _ _ => rfl) _

section Written

deriving instance DecidableEq for Slots, Graph, Module, World, Site, NodeRecord, Engine

namespace Boot

def classVertices (m : Nat) (name : String) : List Vertex :=
  [{ label := "const:" ++ name, types := ⟨[(.singletonOf ⟨m⟩, [.edge ⟨2 * m + 1⟩])]⟩, incoming := 1 },
    { label := "source", types := ⟨[(.singletonOf ⟨m⟩, [.literal])]⟩, next := ⟨[(⟨2 * m⟩, 1)]⟩,
      source := true }]

def startGraph : Graph where
  vertices := { slots := (Core.names.zipIdx.flatMap fun x => classVertices x.2 x.1).toArray }
  shared := ⟨(List.range Core.names.length).map fun m => ([.singletonOf ⟨m⟩], ⟨2 * m + 1⟩)⟩
  edgesAdded := Core.names.length

def coreClass (name : String) (superclass : ModuleId × String) (typeParams : List String)
    (methods : List (String × Builtin)) : Module where
  path := [name]
  decls := ⟨[(.builtin, classDecl (some superclass.2) typeParams)]⟩
  lineage := { superclass := some superclass.1, typeParams }
  methods := ⟨⟨methods.map fun x => (x.1, { builtin := some x.2 })⟩, {}⟩

def plainClass (name : String) : Module := coreClass name (Core.object, "Object") [] []

def startWorld : World where
  modules := #[
    { path := ["BasicObject"], decls := ⟨[(.builtin, classDecl none [])]⟩
      subclasses := ⟨[Core.object]⟩
      methods := ⟨⟨[("initialize", { builtin := some .acceptAll })]⟩, {}⟩ },
    { coreClass "Object" (Core.basicObject, "BasicObject") [] [] with
      includes := ⟨[((.builtin, Core.kernel), [])]⟩
      subclasses := ⟨[Core.module, Core.integer, Core.float, Core.string, Core.symbol,
        Core.nilClass, Core.trueClass, Core.falseClass, Core.proc, Core.array, Core.hash]⟩
      consts := ⟨Core.names.zipIdx.map fun x =>
        (x.1, { defs := ⟨[.builtin]⟩, vertex := ⟨2 * x.2⟩ })⟩ },
    { plainClass "Module" with subclasses := ⟨[Core.classModule]⟩ },
    coreClass "Class" (Core.module, "Module") [] [("new", .classNew)],
    { path := ["Kernel"], decls := ⟨[(.builtin, { isClass := false })]⟩ },
    plainClass "Integer", plainClass "Float", plainClass "String", plainClass "Symbol",
    plainClass "NilClass", plainClass "TrueClass", plainClass "FalseClass",
    coreClass "Array" (Core.object, "Object") ["Elem"] [("[]", .arrayAt), ("<<", .arrayPush)],
    coreClass "Hash" (Core.object, "Object") ["K", "V"] [],
    coreClass "Proc" (Core.object, "Object") [] [("call", .procCall)]]

end Boot

def Engine.start (config : Config) : Engine :=
  { config, graph := Boot.startGraph, world := Boot.startWorld }

theorem Engine.boot_start (config : Config) : Engine.boot config = Engine.start config := by
  have hplain : Engine.boot {} = Engine.start {} := by decide +kernel
  rw [boot_eq, hplain]
  rfl

theorem Engine.graph_boot (config : Config) : (Engine.boot config).graph = Boot.startGraph := by
  rw [boot_start]
  rfl

theorem Engine.world_boot (config : Config) : (Engine.boot config).world = Boot.startWorld := by
  rw [boot_start]
  rfl

end Written

namespace Boot

theorem owners_boot (config : Config) (s d : VertexId) :
    ((Engine.boot config).graph.get s).owners d =
      if d ∈ ((Engine.boot config).graph.get s).successors then 1 else 0 := by
  have hall : ∀ i < Boot.startGraph.vertices.size,
      ∀ x ∈ (Boot.startGraph.get ⟨i⟩).next.entries, x.2 = 1 := by decide +kernel
  rw [Engine.graph_boot]
  generalize Boot.startGraph = g at hall ⊢
  unfold Vertex.owners
  split
  · next hd =>
    obtain ⟨k, hk⟩ := Option.isSome_iff_exists.1 (OrderedMap.get?_isSome_iff.2 hd)
    have hone : k = 1 :=
      hall s.index (Graph.lt_size_of_edge hd) _ (OrderedMap.mem_entries_of_get? hk)
    rw [hk, hone, Option.getD_some]
  · next hd => rw [OrderedMap.get?_eq_none_iff.2 hd, Option.getD_none]

end Boot

end TypeFlow
