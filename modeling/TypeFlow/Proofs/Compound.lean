import TypeFlow.Proofs.Sound

/-!
# Compound steps

Entering a site, destroying it, making a definition and handing a record over each change several
parts of an engine at once. Each of them is a number of steps of the machine.
-/

set_option autoImplicit false

namespace TypeFlow

open Machine

theorem Slots.modify_modify {α : Type} (s : Slots α) (i : Nat) (f g : α → α) :
    (s.modify i f).modify i g = s.modify i fun a => g (f a) := by
  have hslots : (s.slots.modify i f).modify i g = s.slots.modify i fun a => g (f a) := by
    refine Array.ext_getElem? fun j => ?_
    simp only [Array.getElem?_modify]
    split
    · rw [Option.map_map]
      rfl
    · rfl
  unfold modify
  rw [hslots]

namespace Engine

variable {e : Engine} {f : Frame} {fs : List Frame} {hand : List VertexId}

theorem steps_foldl {α : Type} {f : Engine → α → Engine}
    (hf : ∀ e a, Steps ⟨e, fs, hand⟩ ⟨f e a, fs, hand⟩) (e : Engine) (as : List α) :
    Steps ⟨e, fs, hand⟩ ⟨as.foldl f e, fs, hand⟩ := by
  induction as generalizing e with
  | nil => exact .refl
  | cons a as ih => exact (hf e a).trans (ih (f e a))

section Sites

theorem steps_modifyListeners (e : Engine) (vs : List VertexId)
    (f : OrderedSet SiteId → OrderedSet SiteId) :
    Steps ⟨e, fs, hand⟩ ⟨e.modifyListeners vs f, fs, hand⟩ := by
  induction vs generalizing e with
  | nil => exact .refl
  | cons v vs ih =>
    have hone : Step ⟨e, fs, hand⟩ ⟨{ e with graph := e.graph.modify v fun x =>
        { x with listeners := f x.listeners } }, fs, hand⟩ :=
      .decorate v fun x => ⟨rfl, rfl, rfl, rfl, rfl⟩
    exact (Relation.ReflTransGen.single hone).trans (ih _)

theorem steps_enterSite (e : Engine) (node : NodeId) {rule : Rule} (h : rule.Known e.world) :
    Steps ⟨e, f :: fs, hand⟩ ⟨(e.enterSite node rule).2,
      { f with limbo := (e.enterSite node rule).1 :: f.limbo } :: fs, hand⟩ := by
  let s : SiteId := ⟨(e.sites.alloc { node, rule }).1⟩
  let f' : Frame := { f with limbo := s :: f.limbo }
  let slotted : Engine := { e with sites := (e.sites.alloc { node, rule }).2 }
  let counted : Engine := { slotted with stats := e.stats.create rule.name }
  have hslot : Steps ⟨e, f :: fs, hand⟩ ⟨slotted, f' :: fs, hand⟩ := .single (.enterSite h)
  have hcount : Step ⟨slotted, f' :: fs, hand⟩ ⟨counted, f' :: fs, hand⟩ :=
    .aside ⟨rfl, rfl, rfl, rfl, World.Grows.refl _⟩
  have hlisten : Steps ⟨counted, f' :: fs, hand⟩
      ⟨counted.modifyListeners rule.inputs (·.insert s), f' :: fs, hand⟩ :=
    steps_modifyListeners counted rule.inputs (·.insert s)
  exact ((hslot.tail hcount).trans hlisten).tail (.editNode node (fun _ => rfl) fun _ => rfl)

def post (e : Engine) (s : SiteId) : Rule → Engine
  | .methodDecl r => e.addMethodDecl r.key s
  | .methodDef r => e.addMethodDef r.key s
  | .ivarRead r =>
    e.modifyWorld (·.modify r.key.side.module fun x => { x with ivarReads := x.ivarReads.insert s })
  | _ => e

theorem Aside.changeIvarReads (e : Engine) (m : ModuleId)
    (f : OrderedSet SiteId → OrderedSet SiteId) :
    e.Aside (e.modifyWorld (·.modify m fun x => { x with ivarReads := f x.ivarReads })) :=
  .modifyWorld (World.Grows.aside rfl rfl rfl fun hc => (hc.within _).of_eq rfl rfl rfl)

theorem Aside.post (e : Engine) (s : SiteId) (rule : Rule) : e.Aside (e.post s rule) := by
  cases rule with
  | methodDecl r => exact Aside.changeDecls e r.key (·.insert s)
  | methodDef r => exact Aside.changeDefs e r.key (·.insert s)
  | ivarRead r => exact Aside.changeIvarReads e r.key.side.module (·.insert s)
  | constRead | typeRead | returnCheck | call | globalRead | multiAssign => exact Aside.refl e

theorem Aside.unregister (s : SiteId) (e : Engine) (rule : Rule) :
    e.Aside (rule.unregister s e) := by
  cases rule with
  | methodDecl r => exact Aside.changeDecls e r.key (·.erase s)
  | methodDef r => exact Aside.changeDefs e r.key (·.erase s)
  | ivarRead r => exact Aside.changeIvarReads e r.key.side.module (·.erase s)
  | constRead | typeRead | returnCheck | call | globalRead | multiAssign => exact Aside.refl e

def placeSite (e : Engine) (node : NodeId) (rule : Rule) : SiteId × Engine :=
  let (s, e) := e.enterSite node rule
  (s, (e.post s rule).schedule s)

theorem steps_placeSite (e : Engine) (node : NodeId) {rule : Rule} (h : rule.Known e.world) :
    Steps ⟨e, f :: fs, hand⟩ ⟨(e.placeSite node rule).2,
      { f with limbo := (e.placeSite node rule).1 :: f.limbo } :: fs, hand⟩ :=
  ((steps_enterSite e node h).tail (.aside (Aside.post _ _ rule))).tail
    (.aside (Aside.scheduleAll _ [_]))

def destroying (e : Engine) (s : SiteId) (x : Site) : Run where
  engine := (x.rule.unregister s (e.markDestroyed s x)).modifySite s fun x =>
    { x with effects := {} }
  effects := x.effects.discard

variable {s : SiteId} {x : Site}

theorem steps_destroying (hx : e.site? s = some x) (hlive : x.destroyed = false)
    (hs : ∀ f ∈ fs.head?, s ∈ f.limbo) :
    Steps ⟨e, fs, hand⟩
      ⟨(e.destroying s x).engine, ⟨.destroy s, x.effects.discard, []⟩ :: fs, hand⟩ := by
  let marked := e.modifySite s fun x => { x with destroyed := true, effects := {} }
  have hmark : Steps ⟨e, fs, hand⟩ ⟨marked, ⟨.destroy s, x.effects.discard, []⟩ :: fs, hand⟩ :=
    .single (.beginDestroy hx hlive hs)
  refine ((hmark.trans (steps_modifyListeners _ x.rule.inputs (·.erase s))).tail
    (.editNode x.node (f := fun r => { r with sites := r.sites.erase s }) (fun _ => rfl)
      fun _ => rfl)).tail (.aside ?_)
  have haside := Aside.unregister s (e.markDestroyed s x) x.rule
  refine ⟨haside.graph, ?_, haside.nodes, haside.config, haside.world⟩
  show (x.rule.unregister s (e.markDestroyed s x)).sites.modify s.index _ = marked.sites
  rw [haside.sites]
  exact Slots.modify_modify _ _ _ _

end Sites

end Engine

inductive Entry where
  | module (m : ModuleId) (decl : ModuleDecl)
  | inclusion (m target : ModuleId) (args : List SigType)
  | const (key : ConstKey)
  | ivar (key : MemberKey)
  | alias (key : MemberKey) (target : String)

namespace Entry

def registration : Entry → Registration
  | module m _ => .module m
  | inclusion m target _ => .inclusion m target
  | const key => .const key
  | ivar key => .ivar key
  | «alias» key _ => .alias key

def Known (w : World) : Entry → Prop
  | inclusion _ target _ => w.Knows target
  | _ => True

end Entry

namespace Engine

variable {e : Engine} {f : Frame} {fs : List Frame} {hand : List VertexId}

section Definitions

def enter (e : Engine) (origin : DefOrigin) : Entry → Engine
  | .module m decl => e.addModuleDecl m origin decl
  | .inclusion m target args => e.addInclude m origin target args
  | .const key => (e.addConstDef key origin).2
  | .ivar key => (e.addIvarDef key origin).2
  | .alias key target => e.addAlias key origin target

def define (e : Engine) (n : NodeId) (entry : Entry) : Engine :=
  (e.enter (.node n) entry).modifyNode n fun r =>
    { r with registrations := r.registrations ++ [entry.registration] }

theorem steps_enter (e : Engine) (origin : DefOrigin) {entry : Entry} (h : entry.Known e.world) :
    Steps ⟨e, fs, hand⟩ ⟨e.enter origin entry, fs, hand⟩ := by
  cases entry with
  | module m decl => exact .single (.aside (Aside.addModuleDecl e m origin decl))
  | inclusion m target args => exact .single (.aside (Aside.addInclude e m origin args h))
  | const key => exact steps_addConstDef e key origin
  | ivar key => exact steps_addIvarDef e key origin
  | «alias» key target =>
    exact .single (.aside (Aside.changeAliases e key (·.insert origin
      target)))

theorem steps_define (e : Engine) (n : NodeId) {entry : Entry} (h : entry.Known e.world) :
    Steps ⟨e, fs, hand⟩ ⟨e.define n entry, fs, hand⟩ :=
  (steps_enter e (.node n) h).tail (.editNode n (fun _ => rfl) fun _ => rfl)

def installBlock (e : Engine) (b : Block) (returns : List NodeId) : Engine :=
  ((e.addBlock b).2.modifyNode b.node fun r => { r with returns }).modifyNode b.node fun r =>
    { r with block := some (e.addBlock b).1 }

theorem steps_installBlock (e : Engine) (b : Block) (returns : List NodeId) :
    Steps ⟨e, fs, hand⟩ ⟨e.installBlock b returns, fs, hand⟩ := by
  have hadd : Step ⟨e, fs, hand⟩ ⟨(e.addBlock b).2, fs, hand⟩ :=
    .aside ⟨rfl, rfl, rfl, rfl, World.Grows.refl _⟩
  exact ((Relation.ReflTransGen.single hadd).tail
    (.editNode b.node (f := fun r => { r with returns }) (fun _ => rfl) fun _ => rfl)).tail
    (.editNode b.node (f := fun r => { r with block := some (e.addBlock b).1 }) (fun _ => rfl)
      fun _ => rfl)

theorem exists_removeBlock_eq (e : Engine) (b : Option BlockId) :
    ∃ blocks, b.elim e e.removeBlock = { e with blocks } := by
  cases b with
  | none => exact ⟨e.blocks, rfl⟩
  | some b =>
    show ∃ blocks, e.removeBlock b = _
    unfold Engine.removeBlock
    split <;> exact ⟨_, rfl⟩

end Definitions

section Records

theorem Aside.rekey (e : Engine) (old new : DefOrigin) (r : Registration) :
    e.Aside (e.rekey old new r) := by
  cases r with
  | module m =>
    show e.Aside (e.modifyWorld (·.modify m fun x => { x with decls := x.decls.rekey old new }))
    exact Aside.modifyWorld (World.Grows.aside rfl rfl rfl fun hc =>
      (hc.within _).of_eq rfl rfl rfl)
  | inclusion m target =>
    show e.Aside (e.modifyWorld (·.modify m fun x =>
      { x with includes := x.includes.rekey (old, target) (new, target) }))
    refine Aside.modifyWorld (World.Grows.aside rfl rfl rfl fun hc => ?_)
    refine ⟨(hc.within m).superclass, fun t ht => ?_, (hc.within m).subclasses⟩
    have hsame : ((e.world.get m).includes.rekey (old, target) (new, target)).keys.map Prod.snd =
        (e.world.get m).includes.keys.map Prod.snd := by
      simp only [OrderedMap.rekey, OrderedMap.keys, List.map_map]
      refine List.map_congr_left fun x _ => ?_
      dsimp only [Function.comp]
      split
      · next hx => rw [hx]
      · rfl
    refine (hc.within m).included t ?_
    unfold Module.included at ht ⊢
    rwa [hsame] at ht
  | const key => exact Aside.modifyConst e key fun _ => rfl
  | ivar key => exact Aside.modifyIvar e key _
  | «alias» key => exact Aside.modifyMethod e key fun _ => rfl

theorem steps_renameVertices (e : Engine) (n : NodeId) (fs : List Frame) (vs : List VertexId) :
    Steps ⟨e, fs, hand⟩ ⟨{ e with graph := vs.foldl (fun g v =>
      g.modify v fun x => { x with node := some n }) e.graph }, fs, hand⟩ := by
  induction vs generalizing e with
  | nil => exact .refl
  | cons v vs ih =>
    have hone : Step ⟨e, fs, hand⟩ ⟨{ e with graph := e.graph.modify v fun x =>
        { x with node := some n } }, fs, hand⟩ :=
      .decorate v fun x => ⟨rfl, rfl, rfl, rfl, rfl⟩
    exact (Relation.ReflTransGen.single hone).trans (ih _)

theorem steps_renameOwned (e : Engine) (record : NodeRecord) (old new : NodeId)
    (rename : NodeId → NodeId) :
    Steps ⟨e, [], hand⟩ ⟨e.renameOwned record old new rename, [], hand⟩ := by
  have hsites : Steps ⟨e, [], hand⟩ ⟨record.sites.toList.foldl (fun e s => e.modifySite s fun x =>
      { x with node := new, effects := x.effects.renameNodes rename }) e, [], hand⟩ :=
    steps_foldl (fun e s => .single (.relabelSite s new rename)) e record.sites.toList
  have hnamed := hsites.trans (steps_renameVertices _ new [] record.vertices)
  have hrekeyed (e' : Engine) : Steps ⟨e', [], hand⟩ ⟨record.registrations.foldl
      (fun e r => e.rekey (.node old) (.node new) r) e', [], hand⟩ :=
    steps_foldl (fun e r => .single (.aside (Aside.rekey e _ _ r))) e' record.registrations
  unfold renameOwned
  cases record.block with
  | some b =>
    have hblock (e' : Engine) : e'.Aside (e'.modifyBlock b fun x => { x with node := new }) :=
      ⟨rfl, rfl, rfl, rfl, World.Grows.refl _⟩
    exact (hnamed.tail (.aside (hblock _))).trans (hrekeyed _)
  | none => exact hnamed.trans (hrekeyed _)

theorem steps_adoptNode (path : String) (rename : NodeId → NodeId) (e : Engine) (new : Node)
    (old : NodeId) (hs : (Machine.mk e [] hand).Sound) :
    Steps ⟨e, [], hand⟩ ⟨e.adoptNode path rename new old, [], hand⟩ := by
  unfold Engine.adoptNode
  cases hr : e.record? old with
  | none => exact .refl
  | some record =>
    have hlift : Steps ⟨e, [], hand⟩ ⟨{ e with nodes := e.nodes.erase old }, [],
        record.vertices ++ hand⟩ := .single (.lift hr)
    refine (hlift.trans (steps_renameOwned _ _ old new.id rename)).tail (.place (r := { record with
      path
      span := new.span
      nameSpan := new.nameSpan
      returns := record.returns.map rename }) new.id ?_)
    exact hs.grounded.records record (OrderedMap.mem_values_of_get? hr)

end Records

end Engine

namespace Run

variable {w : Work} {limbo : List SiteId} {fs : List Frame} {hand : List VertexId}

theorem steps_installEdges (r : Run) :
    Steps ⟨r.engine, ⟨w, r.effects, limbo⟩ :: fs, hand⟩
      ⟨r.installEdges.engine, ⟨w, r.installEdges.effects, limbo⟩ :: fs, hand⟩ := by
  have hadd : ∀ (e : Engine) (x : VertexId × VertexId), Steps ⟨e, ⟨w, r.effects, limbo⟩ :: fs, hand⟩
      ⟨(e.addEdge x.1 x.2).2, ⟨w, r.effects, limbo⟩ :: fs, hand⟩ := fun e x =>
    .single (.addEdge x.1 x.2)
  have hremove : ∀ (e : Engine) (x : VertexId × VertexId),
      Steps ⟨e, ⟨w, r.effects, limbo⟩ :: fs, hand⟩
        ⟨(e.removeEdge x.1 x.2).2, ⟨w, r.effects, limbo⟩ :: fs, hand⟩ := fun e x =>
    .single (.removeEdge x.1 x.2)
  have hall : ∀ (e : Engine) (new gone : List (VertexId × VertexId)),
      Steps ⟨e, ⟨w, r.effects, limbo⟩ :: fs, hand⟩
        ⟨gone.foldl (fun e x => (e.removeEdge x.1 x.2).2)
          (new.foldl (fun e x => (e.addEdge x.1 x.2).2) e), ⟨w, r.effects, limbo⟩ :: fs, hand⟩ :=
    fun e new gone => (Engine.steps_foldl hadd e new).trans (Engine.steps_foldl hremove _ gone)
  refine (hall _ _ _).tail (.stage ?_)
  exact ⟨rfl, rfl, rfl, rfl, rfl, rfl, Or.inl rfl, Or.inl rfl, Or.inl rfl, rfl⟩

end Run

end TypeFlow
