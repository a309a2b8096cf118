import Striping.Error

/-!
# Options

What a caller may set when a column is opened for writing or reading.
-/

namespace Striping

/-- The options of writers and readers. -/
structure Options where
  /-- How many positions are buffered between two physical writes, and how many a
  physical read asks for. -/
  bufferLength : Nat := 4096
deriving DecidableEq, Repr, Inhabited

/-- Refuses a buffer of no length. -/
def Options.validate (o : Options) : Except Error Unit :=
  if o.bufferLength = 0 then .error (.invalidArgument .bufferLength) else .ok ()

end Striping
