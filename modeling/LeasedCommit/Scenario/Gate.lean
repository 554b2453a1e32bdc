set_option autoImplicit false

/-! # Gates

A `Gate` is closed at first and is opened once. Whoever arrives is counted and waits until the
gate is open. -/

namespace LeasedCommit.Scenario

/-- A barrier for those who arrive at it. -/
structure Gate where
  isOpen : Bool
  /-- How many have arrived so far. -/
  arrived : Nat
deriving DecidableEq

/-- What is done with a gate. -/
inductive GateStep
  | opened
  /-- Wait until so many have arrived, or until patience ends. -/
  | awaitArrivals (count : Nat)
  /-- Somebody arrives. -/
  | pass
deriving DecidableEq

namespace Gate

/-- A gate that nobody has opened or reached. -/
def closed : Gate := { isOpen := false, arrived := 0 }

/-- Let everybody through from now on. -/
def opened (g : Gate) : Gate := { g with isOpen := true }

/-- Somebody arrives. -/
def arrive (g : Gate) : Gate := { g with arrived := g.arrived + 1 }

/-- One step by a single visitor, and what it is told. With nobody else about, waiting for more
arrivals than there were ends without them. -/
def step (g : Gate) : GateStep → Gate × Option Bool
  | .opened => (g.opened, none)
  | .awaitArrivals count => (g, some (count ≤ g.arrived))
  | .pass => (g.arrive, some true)

/-- All steps in turn: the gate after each with what was told, and how many have passed. -/
def run (steps : List GateStep) : List (Option Bool × Gate) × Nat :=
  let visits := steps.foldl (fun (seen : List (Option Bool × Gate) × Gate) s =>
    let (gate, told) := seen.2.step s
    ((told, gate) :: seen.1, gate)) ([], closed)
  (visits.1.reverse, steps.countP (· == .pass))

end Gate

end LeasedCommit.Scenario
