import Mathlib.Tactic.Common

/-!
# Paths

A path is its characters. The paths of the source are C strings; `call_real_realpath`
returns absolute ones without symbolic links.
-/

namespace TokuBackup.Kernel

abbrev Path := List Char

/-- `pathcat`: put a `/` between the two unless `a` ends with one; one leading `/` of `b`
is dropped. -/
def pathcat (a b : Path) : Path :=
  let b := if b.head? = some '/' then b.tail else b
  if a.getLast? = some '/' then a ++ b else a ++ '/' :: b

end TokuBackup.Kernel
