import TypeFlow.Document.Adopt

/-!
# Installing a tree

Each node gets a record of the vertices it created, the definitions it made, and the edges and sites
it asked for; these are put in place when its children are. The value of a node is the vertex that
its types flow to.
-/

set_option autoImplicit false

namespace TypeFlow

def Form.nameSpan : Form → Option Span
  | .call _ _ nameSpan _ _ _ _ => nameSpan
  | _ => none

namespace Effects

def ofEdges (edges : List (VertexId × VertexId)) : Effects :=
  edges.foldl (fun fx e => fx.addEdge e.1 e.2) {}

def ofSite (slot : String) (n : NodeId) (rule : Rule) : Effects := addSite {} { slot } n rule

end Effects

abbrev Wiring := VertexId × Effects

namespace InstallM

def beginNode (p : Place) (n : NodeId) (span : Span) : InstallM Unit :=
  changeEngine fun e => { e with nodes := e.nodes.insert n { path := p.path, span } }

def finishNode (n : NodeId) (nameSpan : Option Span) (v : VertexId) (fx : Effects) :
    InstallM Unit := fun i =>
  match Engine.install (.node n) { engine := i.engine, effects := fx } with
  | .ok () r => .ok () { i with engine := r.engine.modifyNode n fun x =>
      { x with ret := some v, nameSpan, effects := r.effects } }
  | .error f r => .error f { i with engine := r.engine }

def adopt (p : Place) (n : Node) : InstallM VertexId := do
  changeEngine fun e => e.adoptTree p.path p.reuse n
  match ((← get).engine.record? n.id).bind NodeRecord.ret with
  | some v => return v
  | none => onEngine Engine.emptyVertex

def jumps (body : List Node) : Bool :=
  body.getLast?.any fun n => match n.form with
    | .ret _ | .next _ => true
    | _ => false

def closeBody (body : List Node) (values : List VertexId) (ret : VertexId) :
    InstallM (List (VertexId × VertexId)) := do
  match body.getLast?, values.getLast? with
  | some last, some v =>
    if jumps body then return []
    changeScopes (Scope.modifyInnermost (Scope.addReturn last.id))
    return [(v, ret)]
  | _, _ => return [(← nil, ret)]

def receiver (given : Option VertexId) : InstallM VertexId := do
  match given with
  | some v => return v
  | none => source (Scope.selfType (← scopes))

def returnFrom (scope : Option Scope) (note : (Scope → Scope) → List Scope → List Scope)
    (n : NodeId) (v : VertexId) : InstallM Wiring := do
  match scope with
  | none => return (v, {})
  | some s =>
    changeScopes (note (Scope.addReturn n))
    return (v, .ofEdges (s.ret.toList.map fun ret => (v, ret)))

def openModule (p : Place) (n : NodeId) (path : ConstPath) (decl : ModuleDecl) :
    InstallM (ModuleId × Effects) := do
  let outer := (← get).engine.module p.module
  let full := if p.module = Core.object then path else outer.path ++ path
  let m ← onEngine (·.resolvePath full)
  changeEngine (·.addModuleDecl m (.node n) decl)
  register n (.module m)
  match full.getLast? with
  | none => return (m, {})
  | some name =>
    let parent ← onEngine (·.resolvePath full.dropLast)
    let key : ConstKey := ⟨parent, name⟩
    let v ← onEngine (·.addConstDef key (.node n))
    register n (.const key)
    let src ← source (.singletonOf m)
    return (m, .ofEdges [(src, v)])

def defineLocals (names : List String) : InstallM (List (String × VertexId)) :=
  names.mapM fun name => return (name, ← defineLocal name)

def defineRest (n : NodeId) : Option String →
    InstallM (List (String × VertexId) × List (VertexId × VertexId))
  | none => return ([], [])
  | some name => do
    let elem ← vertex n "rest"
    let v ← defineLocal name
    let src ← ownedSource n (.instanceOf Core.array [elem])
    return ([(name, elem)], [(src, v)])

def assignTarget (p : Place) (n : NodeId) : Target → InstallM VertexId
  | .localVar name => localVar name
  | .ivar name => defineIvar p n name
  | .gvar name => onEngine (·.globalVertex name)

def setReturns (n : NodeId) (scope : Option Scope) : InstallM Unit :=
  changeEngine (·.modifyNode n fun r => { r with returns := scope.elim [] Scope.returns })

def defineConst (p : Place) (n : NodeId) (name : String) : InstallM VertexId := do
  let key : ConstKey := ⟨p.module, name⟩
  let v ← onEngine (·.addConstDef key (.node n))
  register n (.const key)
  return v

end InstallM

namespace Node

open InstallM

mutual

def install (p : Place) : Node → InstallM VertexId
  | .mk n span form => do
    match p.reuse.old? n with
    | some _ => InstallM.adopt p (.mk n span form)
    | none =>
      beginNode p n span
      let (v, fx) ← installForm p n form
      finishNode n form.nameSpan v fx
      return v

def installForm (p : Place) (n : NodeId) : Form → InstallM Wiring
  | .program body => do
    pushScope { kind := .toplevel, owner := n, self := .plain Core.object }
    let vs ← installList p body
    let _ ← popScope
    return (← lastOrNil vs, {})
  | .moduleDef path typeParams body => do
    let (m, fx) ← openModule p n path { isClass := false, typeParams }
    pushScope { kind := .moduleBody, owner := n, self := .singletonOf m }
    let vs ← installList { p with nesting := m :: p.nesting } body
    let _ ← popScope
    return (← lastOrNil vs, fx)
  | .classDef path superclass typeParams body => do
    let (m, fx) ← openModule p n path { isClass := true, superclass, typeParams }
    pushScope { kind := .moduleBody, owner := n, self := .singletonOf m }
    let vs ← installList { p with nesting := m :: p.nesting } body
    let _ ← popScope
    return (← lastOrNil vs, fx)
  | .methodDef name singleton params body => do
    let m := p.module
    let ret ← vertex n "ret"
    let blk ← vertex n "block"
    pushScope {
      kind := .method, owner := n, ret := some ret, blockParam := some blk,
      self := if singleton then .singletonOf m else .plain m }
    let (args, edges) ← installParams p n blk params
    let vs ← installList p body
    let closing ← closeBody body vs ret
    let scope ← popScope
    setReturns n scope
    let formals : Formals := {
      req := params.req, opt := params.opt.map OptParam.name, rest := params.rest,
      post := params.post, block := params.block }
    let rule : Rule := .methodDef {
      key := ⟨⟨m, singleton⟩, name⟩, formals, args := .ofList args, block := some blk, ret }
    return (← symbol, (Effects.ofEdges (edges ++ closing)).addSite { slot := "method" } n rule)
  | .ret value => do
    let v ← installOrNil p value
    returnFrom (Scope.method? (← scopes)) Scope.modifyMethod n v
  | .next value => do
    let v ← installOrNil p value
    returnFrom (Scope.block? (← scopes)) Scope.modifyInnermost n v
  | .call recv name _ args keywords block subclasses => do
    let recvVertex ← receiver (← installOption p recv)
    let argVertices ← installArgs p args
    let keywordVertex ← installOption p keywords
    let blockVertex ← installOption p block
    let ret ← vertex n "call"
    let selfCalls := (← get).engine.config.subclassDispatchForSelfCalls
    return (ret, .ofSite "call" n (.call {
      recv := recvVertex, name, args := argVertices, splats := args.map Arg.splat,
      keywords := keywordVertex, block := blockVertex,
      subclasses := subclasses.getD (recv.isNone && selfCalls), ret }))
  | .block params body => do
    let ret ← vertex n "block-ret"
    pushScope { kind := .block, owner := n, self := Scope.selfType (← scopes), ret := some ret }
    let vars ← defineLocals params
    let vs ← installList p body
    let closing ← closeBody body vs ret
    let scope ← popScope
    let b ← onEngine (·.addBlock { node := n, params := vars.map Prod.snd, ret })
    setReturns n scope
    changeEngine (·.modifyNode n fun r => { r with block := some b })
    return (← ownedSource n (.proc b), .ofEdges closing)
  | .yield args => do
    let recv ← (match (Scope.method? (← scopes)).bind Scope.blockParam with
      | some v => return v
      | none => onEngine Engine.emptyVertex)
    let argVertices ← installArgs p args
    let ret ← vertex n "yield"
    return (ret, .ofSite "yield" n (.call {
      recv, name := "call", args := argVertices, splats := args.map Arg.splat,
      keywords := none, block := none, subclasses := false, ret }))
  | .const name scope => do
    let scope ← (match scope with
      | some path => return some (← onEngine (·.resolvePath path))
      | none => return none)
    let ret ← vertex n "const"
    return (ret, .ofSite "const" n (.constRead { name, scope, scopes := p.nesting, ret }))
  | .constWrite name value => do
    let v ← install p value
    let const ← defineConst p n name
    return (v, .ofEdges [(v, const)])
  | .localRead name => return (← localVar name, {})
  | .localWrite name value => do
    let v ← install p value
    let var ← localVar name
    return (v, .ofEdges [(v, var)])
  | .ivarRead name => do
    let side ← selfSide p
    let proxy ← vertex n "ivar-proxy"
    let ret ← vertex n "ivar"
    return (ret, .ofSite "ivar" n (.ivarRead { key := ⟨side, name⟩, proxy, ret }))
  | .ivarWrite name value => do
    let v ← install p value
    let var ← defineIvar p n name
    return (v, .ofEdges [(v, var)])
  | .gvarRead name => do
    let ret ← vertex n "gvar"
    return (ret, .ofSite "gvar" n (.globalRead { name, ret }))
  | .gvarWrite name value => do
    let v ← install p value
    let var ← onEngine (·.globalVertex name)
    return (v, .ofEdges [(v, var)])
  | .multiAssign targets value => do
    let rhs ← install p value
    let lhs ← targets.mapM (assignTarget p n)
    return (rhs, .ofSite "masgn" n (.multiAssign { rhs, lhs }))
  | .cond test thenBody elseBody => do
    let _ ← install p test
    let thenValue ← lastOrNil (← installList p thenBody)
    let elseValue ← lastOrNil (← installList p elseBody)
    let ret ← vertex n "if"
    return (ret, .ofEdges [(thenValue, ret), (elseValue, ret)])
  | .selfRef => return (← source (Scope.selfType (← scopes)), {})
  | .nil => return (← nil, {})
  | .true => return (← source .true, {})
  | .false => return (← source .false, {})
  | .int _ => return (← source (.plain Core.integer), {})
  | .float _ => return (← source (.plain Core.float), {})
  | .str _ => return (← source (.plain Core.string), {})
  | .sym _ => return (← symbol, {})
  | .array elems => do
    let vs ← installList p elems
    let elem ← vertex n "array-elem"
    let v ← ownedSource n (.array (some vs) elem)
    return (v, .ofEdges (vs.map fun v => (v, elem)))
  | .alias newName oldName => do
    let key : MemberKey := ⟨⟨p.module, false⟩, newName⟩
    changeEngine (·.addAlias key (.node n) oldName)
    register n (.alias key)
    return (← nil, {})
  | .include path args => do
    let target ← onEngine (·.resolvePath path)
    changeEngine (·.addInclude p.module (.node n) target args)
    register n (.inclusion p.module target)
    return (← nil, {})
  | .sigDef name singleton overloads overloading => do
    let rule : Rule := .methodDecl { key := ⟨⟨p.module, singleton⟩, name⟩, overloads, overloading }
    return (← symbol, .ofSite "decl" n rule)
  | .sigConst name type => do
    let const ← defineConst p n name
    let ret ← vertex n "sig-const"
    return (ret, (Effects.ofSite "type" n (.typeRead { type, ret })).addEdge ret const)
  | .sigGvar name type => do
    let ret ← vertex n "sig-gvar"
    let var ← onEngine (·.globalVertex name)
    return (ret, (Effects.ofSite "type" n (.typeRead { type, ret })).addEdge ret var)

def installList (p : Place) : List Node → InstallM (List VertexId)
  | [] => return []
  | s :: rest => do
    let v ← install p s
    let vs ← installList p rest
    return v :: vs

def installOption (p : Place) : Option Node → InstallM (Option VertexId)
  | none => return none
  | some n => return some (← install p n)

def installOrNil (p : Place) : Option Node → InstallM VertexId
  | none => nil
  | some n => install p n

def installArgs (p : Place) : List Arg → InstallM (List VertexId)
  | [] => return []
  | .mk value _ :: rest => do
    let v ← install p value
    let vs ← installArgs p rest
    return v :: vs

def installParams (p : Place) (n : NodeId) (blk : VertexId) :
    Params → InstallM (List (String × VertexId) × List (VertexId × VertexId))
  | .mk req opt rest post block => do
    let reqVars ← defineLocals req
    let (optVars, optEdges) ← installOpts p opt
    let (restVars, restEdges) ← defineRest n rest
    let postVars ← defineLocals post
    match block with
    | some name => changeScopes (Scope.modifyInnermost (Scope.addVar name blk))
    | none => pure ()
    return (reqVars ++ optVars ++ restVars ++ postVars, optEdges ++ restEdges)

def installOpts (p : Place) :
    List OptParam → InstallM (List (String × VertexId) × List (VertexId × VertexId))
  | [] => return ([], [])
  | .mk name value :: rest => do
    let var ← defineLocal name
    let v ← install p value
    let (vars, edges) ← installOpts p rest
    return ((name, var) :: vars, (v, var) :: edges)

end

end Node

end TypeFlow
