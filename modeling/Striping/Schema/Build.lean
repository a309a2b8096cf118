import Striping.Schema.Leaves

/-!
# Declaring fields

Short forms for the fields of a schema. Lists declare their elements under
`elementName`, maps their keys and values under `keyName` and `valueName`.
-/

namespace Striping.Field

/-- A required leaf. -/
def required (leaf : Primitive) (name : String) : Field := .mk name (.primitive leaf) false

/-- An optional leaf. -/
def optional (leaf : Primitive) (name : String) : Field := .mk name (.primitive leaf) true

/-- The elements of a list. -/
def element (type : DataType) (nullable : Bool) : Field := .mk elementName type nullable

/-- A required list. -/
def list (name : String) (element : Field) : Field := .mk name (.list element) false

/-- An optional list. -/
def optionalList (name : String) (element : Field) : Field := .mk name (.list element) true

/-- The type of maps with required keys. -/
def mapType (key value : DataType) (nullable : Bool) : DataType :=
  .map (.mk keyName key false) (.mk valueName value nullable)

/-- A required map. -/
def map (name : String) (key value : DataType) (nullable : Bool) : Field :=
  .mk name (mapType key value nullable) false

/-- An optional map. -/
def optionalMap (name : String) (key value : DataType) (nullable : Bool) : Field :=
  .mk name (mapType key value nullable) true

/-- A required list of required leaves. -/
def repeatedLeaf (leaf : Primitive) (name : String) : Field :=
  list name (element (.primitive leaf) false)

/-- A required struct. -/
def group (name : String) (fields : List Field) : Field := .mk name (.struct fields) false

/-- An optional struct. -/
def optionalGroup (name : String) (fields : List Field) : Field := .mk name (.struct fields) true

/-- A required list of required structs. -/
def repeatedGroup (name : String) (fields : List Field) : Field :=
  list name (element (.struct fields) false)

end Striping.Field

namespace Striping.Schema

/-- The schema with one more field behind the others. -/
def field (s : Schema) (f : Field) : Schema := { s with fields := s.fields ++ [f] }

end Striping.Schema
