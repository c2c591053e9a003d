import MeshPartition.Closure

/-!
# Settings of a run
-/

namespace MeshPartition

/-- Into how many parts a mesh is cut, and how far dependencies are closed. -/
structure Config where
  partCount : Nat
  closure : ClosureMode
deriving DecidableEq

namespace Config

/-- Fails unless there is at least one part. Settings read from a text are not checked before. -/
def validate (c : Config) : Except Error Unit :=
  if c.partCount = 0 then .error (.invalidPartitionCount 0) else .ok ()

/-- The settings for a number of parts, with dependencies closed to a fixed point. -/
def ofPartCount (n : Nat) : Except Error Config := do
  let c : Config := ⟨n, .fixedPoint⟩
  c.validate
  return c

/-- The settings with another closure mode. -/
def withClosure (c : Config) (mode : ClosureMode) : Config := { c with closure := mode }

end Config

end MeshPartition
