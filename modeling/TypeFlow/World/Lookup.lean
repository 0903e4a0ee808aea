import TypeFlow.World.Hierarchy

/-!
# Looking a method up

A look-up consults one side after the other: the side itself, the modules included there, the last
one first, each followed by what it includes in turn, and then the side of the superclass. On each
side aliases are followed, and the name they lead to is the one looked for from then on. A look-up
notes every entry that it consulted and every step that matters for type arguments.
-/

set_option autoImplicit false

namespace TypeFlow

inductive Visit where
  /-- An included module, with the type arguments given to it. -/
  | enter (m : ModuleId) (args : List SigType)
  /-- Back from the module entered last. -/
  | leave
  /-- The superclass, with the type arguments given to it. -/
  | ascend (m : ModuleId) (args : List SigType)
  deriving DecidableEq

structure Lookup where
  /-- The name looked for, after the aliases met so far. -/
  name : String
  found : Option MemberKey := none
  consulted : List MemberKey := []
  visits : List Visit := []
  deriving DecidableEq

namespace Lookup

def redirect (w : World) (side : Side) (name : String) : Option String :=
  (w.method? ⟨side, name⟩).bind MethodEntity.aliasTarget

def aliasTrail (w : World) (side : Side) (name : String) : List String :=
  trail (redirect w side) (((w.get side.module).methods.get side.singleton).size + 2) name

def finalName (w : World) (side : Side) (name : String) : String :=
  let last := (aliasTrail w side name).getLast?.getD name
  (redirect w side last).getD last

def isDefined (w : World) (key : MemberKey) : Bool := (w.method? key).any MethodEntity.exists?

def own (w : World) (side : Side) (l : Lookup) : Lookup :=
  let key : MemberKey := ⟨side, finalName w side l.name⟩
  { l with
    name := key.name
    consulted := l.consulted ++ (aliasTrail w side l.name).map (MemberKey.mk side)
    found := if isDefined w key then some key else none }

def visit (v : Visit) (l : Lookup) : Lookup := { l with visits := l.visits ++ [v] }

def inclusions (w : World) (m : ModuleId) : List (ModuleId × List SigType) :=
  ((w.get m).includes.entries.map fun e => (e.1.2, e.2)).reverse

def included (w : World) : Nat → ModuleId → List ModuleId × Lookup → List ModuleId × Lookup
  | 0, _, s => s
  | n + 1, m, (searched, l) =>
    if m ∈ searched then (searched, l)
    else
      (inclusions w m).foldl (fun s inc =>
        if s.2.found.isSome then s
        else
          let s := (s.1, (s.2.visit (.enter inc.1 inc.2)).own w ⟨inc.1, false⟩)
          if s.2.found.isSome then s
          else
            let s := included w n inc.1 s
            if s.2.found.isSome then s else (s.1, s.2.visit .leave))
        (m :: searched, l)

def atSide (w : World) (side : Side) (l : Lookup) : Lookup :=
  let l := l.own w side
  if l.found.isSome || side.singleton then l
  else (included w (w.modules.size + 1) side.module ([], l)).2

def ascend (w : World) (side : Side) (l : Lookup) : Lookup :=
  match w.parent? side with
  | some p => l.visit (.ascend p.module (w.get side.module).lineage.superclassArgs)
  | none => l

def along (w : World) : List Side → Lookup → Lookup
  | [], l => l
  | side :: rest, l =>
    let l := l.atSide w side
    if l.found.isSome then l else along w rest (l.ascend w side)

end Lookup

namespace World

def lookup (w : World) (side : Side) (name : String) : Lookup :=
  Lookup.along w (w.chain side) { name }

def overrides (w : World) (side : Side) (name : String) : List MemberKey :=
  ((w.descendants side.module).drop 1).map fun d => ⟨⟨d, side.singleton⟩, name⟩

end World

end TypeFlow
