import TypeFlow.Site.Lifecycle

/-!
# Draining the queue

Waiting sites run one after the other, first come first, until none waits or the permitted number of
runs is used up. The site whose run is refused has left the queue by then.
-/

set_option autoImplicit false

namespace TypeFlow

def Config.runLimit (c : Config) : Nat := c.fuel.getD (Nat.pow 2 64)

namespace Engine

def takeNext (e : Engine) : Option SiteId × Engine :=
  let queue := e.queue.skip fun s => !e.isLive s
  (queue.toList.head?, { e with queue := queue.pop })

def drain : Nat → Nat → EngineM Nat
  | 0, runs => do
    match ← modifyGet takeNext with
    | none => return runs
    | some _ => throw (.fuelExhausted runs)
  | limit + 1, runs => do
    match ← modifyGet takeNext with
    | none => return runs
    | some s =>
      runSite s
      drain limit (runs + 1)

def runAll : EngineM Nat := do drain (← get).config.runLimit 0

end Engine

end TypeFlow
