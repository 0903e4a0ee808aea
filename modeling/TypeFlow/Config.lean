import TypeFlow.Json.Fields
import TypeFlow.Json.Reader

/-!
# Configuration

The settings of an engine. A written configuration is a record; fields that are missing keep their
defaults, and what other fields hold is skipped unread.
-/

set_option autoImplicit false

namespace TypeFlow

structure Config where
  /-- The greatest number of site runs in one drain of the queue, if it is limited. -/
  fuel : Option Nat := none
  /-- Whether an update is checked for state shared with the tree it replaced. -/
  validateInvariants : Bool := true
  /-- Whether a call on the receiver itself also reaches overriding methods of subclasses. -/
  subclassDispatchForSelfCalls : Bool := true
  /-- Whether definitions that did not change keep their installed state. -/
  reuseUnchangedDefinitions : Bool := true
  deriving DecidableEq, Repr, Inhabited

namespace Config

open Json (Fields Reads)

def decode : Reads Config
  | .object fs => do
    return {
      fuel := ← Fields.optional fs "fuel" (Reads.below (Nat.pow 2 64)),
      validateInvariants := ← Fields.withDefault fs "validate_invariants" Reads.flag true,
      subclassDispatchForSelfCalls :=
        ← Fields.withDefault fs "subclass_dispatch_for_self_calls" Reads.flag true,
      reuseUnchangedDefinitions :=
        ← Fields.withDefault fs "reuse_unchanged_definitions" Reads.flag true }
  | _ => none

def parse? (text : String) : Option Config := (Json.parse? text).bind decode

def encode (c : Config) : Json :=
  .object [
    ("fuel", Json.ofOption (fun (n : Nat) => Json.int n) c.fuel),
    ("validate_invariants", .bool c.validateInvariants),
    ("subclass_dispatch_for_self_calls", .bool c.subclassDispatchForSelfCalls),
    ("reuse_unchanged_definitions", .bool c.reuseUnchangedDefinitions)]

def withFuel (c : Config) (fuel : Nat) : Config := { c with fuel := some fuel }

def withoutReuse (c : Config) : Config := { c with reuseUnchangedDefinitions := false }

end Config

end TypeFlow
