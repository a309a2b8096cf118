import Striping.Physical.Stripe

/-!
# Row groups

* `RowGroup`: the stripes of all columns of a schema, side by side.
* `RowGroup.close`: a row group is complete once every column was written.
-/

namespace Striping

/-- Columns and their stripes, in the same order. -/
structure RowGroup (P : Type) where
  /-- The columns. -/
  columns : List Column
  /-- The stripes. -/
  stripes : List (Stripe P)

namespace RowGroup

variable {P : Type}

/-- The empty row group of some columns. -/
def ofColumns (columns : List Column) : RowGroup P := ⟨columns, columns.map .ofColumn⟩

/-- The row group with every stripe rewound. -/
def rewind (g : RowGroup P) : RowGroup P := { g with stripes := g.stripes.map .rewind }

/-- Replaces a stripe. -/
def set (g : RowGroup P) (i : Nat) (s : Stripe P) : RowGroup P :=
  { g with stripes := g.stripes.set i s }

/-- The stripes, if every one of them was written. -/
def close (g : RowGroup P) : Except Error (List (Stripe P)) :=
  let initialized := g.stripes.countP Stripe.isInitialized
  if initialized < g.stripes.length then
    .error (.incompleteRowGroup initialized g.stripes.length)
  else .ok g.stripes

end RowGroup

end Striping
