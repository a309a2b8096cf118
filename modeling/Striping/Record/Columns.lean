import Striping.Schema.Leaves
import Striping.Shape.Cache

/-!
# Opening the columns of a schema

* `ShapeCache.openEach`: opens columns one after the other with shapes from a cache. What
  the cache learned stays, also when a later column fails.
-/

namespace Striping.ShapeCache

/-- Opens each column with what it is opened on, up to the first failure. -/
def openEach {χ β : Type} (start : ColumnShape → χ → Except Error β) :
    ShapeCache → List (Column × χ) → Outcome ShapeCache (List β)
  | cache, [] => (.ok [], cache)
  | cache, (column, x) :: rest =>
    match cache.getOrBuild column with
    | (.error e, cache) => (.error e, cache)
    | (.ok shared, cache) =>
      match start shared.shape x with
      | .error e => (.error e, cache)
      | .ok b => Outcome.map (b :: ·) (openEach start cache rest)

end Striping.ShapeCache
