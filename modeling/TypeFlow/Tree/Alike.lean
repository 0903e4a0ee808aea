import TypeFlow.Tree.Node

/-!
# Equality of trees

Two nodes are alike when they have the same form: identities and places do not count, save for the
place of a method name, which belongs to the form of a call.
-/

set_option autoImplicit false

namespace TypeFlow.Node

mutual

def alike : Node → Node → Bool
  | .mk _ _ f, .mk _ _ g => alikeForm f g

def alikeForm : Form → Form → Bool
  | .program a, .program b => alikeList a b
  | .moduleDef p t a, .moduleDef q u b => p == q && t == u && alikeList a b
  | .classDef p s t a, .classDef q r u b => p == q && s == r && t == u && alikeList a b
  | .methodDef n s p a, .methodDef m t q b => n == m && s == t && alikeParams p q && alikeList a b
  | .ret a, .ret b => alikeOption a b
  | .next a, .next b => alikeOption a b
  | .call r n s a k b c, .call r' n' s' a' k' b' c' =>
    alikeOption r r' && n == n' && s == s' && alikeArgs a a' && alikeOption k k'
      && alikeOption b b' && c == c'
  | .block p a, .block q b => p == q && alikeList a b
  | .yield a, .yield b => alikeArgs a b
  | .const n s, .const m t => n == m && s == t
  | .constWrite n a, .constWrite m b => n == m && alike a b
  | .localRead n, .localRead m => n == m
  | .localWrite n a, .localWrite m b => n == m && alike a b
  | .ivarRead n, .ivarRead m => n == m
  | .ivarWrite n a, .ivarWrite m b => n == m && alike a b
  | .gvarRead n, .gvarRead m => n == m
  | .gvarWrite n a, .gvarWrite m b => n == m && alike a b
  | .multiAssign t a, .multiAssign u b => t == u && alike a b
  | .cond c t e, .cond c' t' e' => alike c c' && alikeList t t' && alikeList e e'
  | .selfRef, .selfRef => true
  | .nil, .nil => true
  | .true, .true => true
  | .false, .false => true
  | .int a, .int b => a == b
  | .float a, .float b => a.sameValue b
  | .str a, .str b => a == b
  | .sym a, .sym b => a == b
  | .array a, .array b => alikeList a b
  | .alias n o, .alias m p => n == m && o == p
  | .include p a, .include q b => p == q && a == b
  | .sigDef n s o g, .sigDef m t p h => n == m && s == t && o == p && g == h
  | .sigConst n t, .sigConst m u => n == m && t == u
  | .sigGvar n t, .sigGvar m u => n == m && t == u
  | _, _ => false

def alikeList : List Node → List Node → Bool
  | [], [] => true
  | a :: as, b :: bs => alike a b && alikeList as bs
  | _, _ => false

def alikeOption : Option Node → Option Node → Bool
  | none, none => true
  | some a, some b => alike a b
  | _, _ => false

def alikeArgs : List Arg → List Arg → Bool
  | [], [] => true
  | .mk a s :: as, .mk b t :: bs => alike a b && s == t && alikeArgs as bs
  | _, _ => false

def alikeParams : Params → Params → Bool
  | .mk r o x p k, .mk r' o' x' p' k' =>
    r == r' && alikeOpts o o' && x == x' && p == p' && k == k'

def alikeOpts : List OptParam → List OptParam → Bool
  | [], [] => true
  | .mk n a :: as, .mk m b :: bs => n == m && alike a b && alikeOpts as bs
  | _, _ => false

end

end TypeFlow.Node
