/-!
# Column paths

A column is addressed by the names on the way from the schema root to its leaf.

* `Path.ofDotted`, `Path.toDotted`: the dotted spelling; the empty text is the root.
* `Path.compare`: paths in order of their names, each name by its code points.
* `Path.render`: the spelling used in messages, where the root has a name of its own.
-/

namespace Striping

/-- The names from the schema root down to a node. -/
structure Path where
  /-- The names, outermost first. -/
  parts : List String
deriving DecidableEq, Repr, Inhabited

namespace Path

/-- The path of the schema root, which has no names. -/
def root : Path := ⟨[]⟩

/-- Reads a dotted path. Every dot separates two names, which may be empty; the
empty text is the root and not a single empty name. -/
def ofDotted (s : String) : Path :=
  if s = "" then root else ⟨(s.toList.splitOn '.').map String.ofList⟩

/-- The names joined by dots. -/
def toDotted (p : Path) : String := ".".intercalate p.parts

/-- Holds of the path without names. -/
def isRoot (p : Path) : Bool := p.parts.isEmpty

/-- The number of names. -/
def depth (p : Path) : Nat := p.parts.length

/-- The path one name further down. -/
def append (p : Path) (name : String) : Path := ⟨p.parts ++ [name]⟩

/-- The first `n` names. -/
def take (p : Path) (n : Nat) : Path := ⟨p.parts.take n⟩

/-- Lexicographic order: by the first name that differs, a path before its extensions. -/
protected def compare (p q : Path) : Ordering := Ord.compare p.parts q.parts

instance : Ord Path := ⟨Path.compare⟩

/-- The spelling of a path in messages. -/
def render (p : Path) : String := if p.isRoot then "<root>" else p.toDotted

instance : ToString Path := ⟨render⟩

end Path

end Striping
