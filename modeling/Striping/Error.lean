import Striping.Leaf.Basic
import Striping.Shape.Basic
import Striping.Text.Utf8

/-!
# Errors

Every failure is a value that tells its cause; the wording of all messages is in this
module.

* `ShapeFault`, `StreamFault`, `ArgumentFault`, `ConversionFault`: the causes of the
  four kinds of error that have several. Each has room for a cause stated in words,
  for readers and writers that live outside this library.
* `Error`, `Error.message`.
-/

namespace Striping

/-- Why frames, a shape, a leaf type or a value do not fit a column. -/
inductive ShapeFault where
  /-- There are no frames. -/
  | noFrames
  /-- The last frame is not a leaf. -/
  | lastNotLeaf (last : Frame)
  /-- A frame above the last one is a leaf. -/
  | earlyLeaf (depth : Nat)
  /-- More frames are optional or repeated than levels can count. -/
  | levelOverflow
  /-- The shape goes on below the last frame. -/
  | tooDeep (shape : Shape) (frames : Nat)
  /-- The shape has a scalar where the frames do not end in a leaf. -/
  | scalarAt (frame : Frame) (remaining : Nat)
  /-- The leaf is repeated without the groups of a list around it. -/
  | repeatedLeaf
  /-- The shape has a struct where the frame is not one. -/
  | structAt (frame : Frame)
  /-- The shape has a list where too few frames are left for one. -/
  | shortList (remaining : Nat)
  /-- The shape has a list where the frame is not one. -/
  | listAt (frame : Frame)
  /-- The outer group of a list holds something else than a repeated group. -/
  | notRepeated (outer inner : Frame)
  /-- The leaf is reached at another definition level than the greatest one. -/
  | leafLevel (reached greatest : Level)
  /-- Values of the leaf type have no place in the column. -/
  | cannotStore (leaf : LeafType) (physical : PhysicalType)
  /-- Values of the leaf type cannot come from the column. -/
  | cannotRead (leaf : LeafType) (physical : PhysicalType)
  /-- A value of another variant than the one the column has at this place. -/
  | wrongVariant (written expected : Variant)
  /-- A cause given in words. -/
  | stated (text : String)
deriving DecidableEq, Repr

/-- The wording of a shape fault. -/
def ShapeFault.message : ShapeFault → String
  | noFrames => "a column needs at least one schema frame"
  | lastNotLeaf last => s!"last frame must be a primitive leaf, found {last.render}"
  | earlyLeaf depth => s!"primitive frame at depth {depth} is not the leaf"
  | levelOverflow => "definition level overflow"
  | tooDeep shape frames =>
    s!"{shape.render} value is nested deeper than the {frames} schema frames"
  | scalarAt frame remaining =>
    s!"scalar value found at {frame.render}, {remaining} frames above the leaf"
  | repeatedLeaf => "repeated leaf outside of a list encoding"
  | structAt frame => s!"struct value found at {frame.render}"
  | shortList remaining =>
    "list encoding needs a list group, a repeated group and an element, " ++
      s!"found {remaining} frames"
  | listAt frame => s!"list value found at {frame.render}"
  | notRepeated outer inner =>
    s!"expected a repeated group below {outer.render}, found {inner.render}"
  | leafLevel reached greatest => s!"leaf is defined at level {reached}, expected {greatest}"
  | cannotStore leaf physical =>
    s!"values of type {leaf.title} cannot be stored in a {physical.label} column"
  | cannotRead leaf physical =>
    s!"values of type {leaf.title} cannot be read from a {physical.label} column"
  | wrongVariant written expected =>
    s!"{written.label} value written where the column expects a {expected.label}"
  | stated text => text

/-- Why a stream of levels and values is not the stripe of any rows. -/
inductive StreamFault where
  /-- A level lies outside the bounds of the column. -/
  | outOfBounds (definition repetition : Level)
  /-- A position calls for a value, and the batch has no more. -/
  | missingValue
  /-- The batch has values that no position called for. -/
  | spareValues (count : Nat)
  /-- The reader reports counts that contradict each other or the request. -/
  | badCounts (values levels batch : Nat)
  /-- The column ends inside a row. -/
  | cutShort
  /-- The definition level belongs to a frame above the one that is read. -/
  | belowMinimum (minimum : Level) (node : String)
  /-- The repetition level belongs to a list inside the one that goes on. -/
  | tooDeep (list : Level)
  /-- A row starts in the middle of a list. -/
  | rowStart
  /-- Columns of one record batch hold different numbers of rows. -/
  | unevenRows (held expected : Nat)
  /-- Some columns hold a null where others do not. -/
  | mixedNull
  /-- A column holds something else where the others hold a struct. -/
  | notStruct (found : Variant)
  /-- A column holds something else where the others hold a list. -/
  | notList (found : Variant)
  /-- The columns of a list hold different numbers of elements. -/
  | unevenLists
  /-- A column holds something else where the schema has a leaf. -/
  | notLeaf (found : Variant)
  /-- A cause given in words. -/
  | stated (text : String)
deriving DecidableEq, Repr

/-- The wording of a stream fault. -/
def StreamFault.message : StreamFault → String
  | outOfBounds definition repetition =>
    s!"levels exceed the column maximum (max def: {definition}, max rep: {repetition})"
  | missingValue => "present level without a matching value"
  | spareValues count => s!"{count} values left over without a matching level"
  | badCounts values levels batch =>
    s!"reader returned {values} values and {levels} levels for a batch of {batch}"
  | cutShort => "column ended inside a nested value"
  | belowMinimum minimum node => s!"definition level is below the minimum {minimum} of a {node}"
  | tooDeep list => s!"repetition level is deeper than the innermost list at level {list}"
  | rowStart => "top-level entry does not start at repetition level 0"
  | unevenRows held expected => s!"column holds {held} rows, expected {expected}"
  | mixedNull => "columns disagree on a null value"
  | notStruct found => s!"{found.label} found where columns hold a struct"
  | notList found => s!"{found.label} found where columns hold a list"
  | unevenLists => "list columns hold different element counts"
  | notLeaf found => s!"{found.label} found where a leaf value is expected"
  | stated text => text

/-- Why an argument is refused. -/
inductive ArgumentFault where
  /-- Options with a buffer of no length. -/
  | bufferLength
  /-- A write buffer without slots. -/
  | capacity
  /-- Reads of no positions. -/
  | batchSize
  /-- More slots than the buffer has. -/
  | slots (requested size : Nat)
  /-- Fewer rows left than asked for. -/
  | rows (column : String) (held requested : Nat)
  /-- A batch that brings other kinds of levels than the column stores. -/
  | levelKinds (definitions repetitions : Bool)
  /-- A batch with different numbers of definition and repetition levels. -/
  | levelCounts (repetitions positions : Nat)
  /-- A batch with another number of values than of present positions. -/
  | valueCount (values present : Nat)
  /-- A read of definition levels that the column does not have. -/
  | noDefinitions
  /-- A read of repetition levels that the column does not have. -/
  | noRepetitions
  /-- A column at the root of the schema. -/
  | rootColumn
  /-- A column that is not in the schema. -/
  | foreignColumn (column : String)
  /-- Another number of writers than of columns. -/
  | writerCount (writers columns : Nat) (schema : String)
  /-- Another number of readers than of columns. -/
  | readerCount (readers columns : Nat) (schema : String)
  /-- A cause given in words. -/
  | stated (name text : String)
deriving DecidableEq, Repr

namespace ArgumentFault

/-- The argument that is refused. -/
def name : ArgumentFault → String
  | bufferLength => "buffer_length"
  | capacity => "capacity"
  | batchSize => "batch_size"
  | slots _ _ => "n"
  | rows _ _ _ => "rows"
  | levelKinds _ _ => "levels"
  | levelCounts _ _ => "rep_levels"
  | valueCount _ _ => "values"
  | noDefinitions => "def_levels"
  | noRepetitions => "rep_levels"
  | rootColumn | foreignColumn _ => "column"
  | writerCount _ _ _ => "writers"
  | readerCount _ _ _ => "readers"
  | stated name _ => name

/-- The wording of an argument fault. -/
def message : ArgumentFault → String
  | bufferLength => "buffer length must be at least 1"
  | capacity => "buffer capacity must be at least 1"
  | batchSize => "read batch size must be at least 1"
  | slots requested size => s!"cannot reserve {requested} slots in a buffer of capacity {size}"
  | rows column held requested => s!"column {column} holds {held} more rows, {requested} requested"
  | levelKinds definitions repetitions =>
    s!"column stores definition levels: {definitions}, repetition levels: {repetitions}"
  | levelCounts repetitions positions =>
    s!"{repetitions} repetition levels for {positions} positions"
  | valueCount values present => s!"{values} values for {present} present positions"
  | noDefinitions => "column stores no definition levels"
  | noRepetitions => "column stores no repetition levels"
  | rootColumn => "column path is empty"
  | foreignColumn column => s!"{column} is not in the schema"
  | writerCount writers columns schema =>
    s!"{writers} writers for {columns} columns of schema {schema}"
  | readerCount readers columns schema =>
    s!"{readers} readers for {columns} columns of schema {schema}"
  | stated _ text => text

end ArgumentFault

/-- Why a stored value has no logical counterpart. -/
inductive ConversionFault where
  /-- The number lies above the range of the leaf type. -/
  | tooLarge (number : Int)
  /-- The number lies below the range of the leaf type. -/
  | tooSmall (number : Int)
  /-- The bytes are not text. -/
  | notText (fault : Text.Utf8Fault)
  /-- A value of another storage type than the field has. -/
  | wrongType (found : PhysicalType) (type field : String)
  /-- A cause given in words. -/
  | stated (text : String)
deriving DecidableEq, Repr

/-- The wording of a conversion fault. -/
def ConversionFault.message : ConversionFault → String
  | tooLarge number => s!"{number}: number too large to fit in target type"
  | tooSmall number => s!"{number}: number too small to fit in target type"
  | notText fault => fault.message
  | wrongType found type field => s!"{found.label} value found in {type} field '{field}'"
  | stated text => text

/-- A failure of this library or of the physical layer below it. -/
inductive Error where
  /-- Frames, a shape, a leaf type or a value do not fit the column. -/
  | unsupportedShape (column : String) (fault : ShapeFault)
  /-- A null where the column requires a `what`. -/
  | nullWrite (column what : String)
  /-- The stream of the column is not the stripe of any rows. -/
  | corruptStream (column : String) (levels : Levels) (fault : StreamFault)
  /-- An argument is out of range. -/
  | invalidArgument (fault : ArgumentFault)
  /-- A stored value has no counterpart in the target type. -/
  | conversion (target : String) (fault : ConversionFault)
  /-- A member of a record has another type than its field. -/
  | typeMismatch (path expected : String)
  /-- A struct has a member that its type does not declare. -/
  | unknownProperty (property path : String)
  /-- A struct has a member twice. -/
  | duplicateProperty (property path : String)
  /-- A row group is closed before every column was written. -/
  | incompleteRowGroup (initialized total : Nat)
  /-- A writer is used after a failed write left part of a batch behind. -/
  | writerFailed (column : String)
  /-- A failure of the physical layer. -/
  | physical (column cause : String)
deriving DecidableEq, Repr

namespace Error

/-- The wording of an error. -/
def message : Error → String
  | unsupportedShape column fault =>
    s!"unsupported shape for column '{column}': {fault.message}"
  | nullWrite column what =>
    s!"cannot write a null {what} value for a required {what} column '{column}'"
  | corruptStream column levels fault =>
    s!"invalid input stream for column '{column}' at definition level {levels.definition} " ++
      s!"repetition level {levels.repetition}: {fault.message}"
  | invalidArgument fault => s!"invalid argument {fault.name}: {fault.message}"
  | conversion target fault => s!"cannot convert physical value to {target}: {fault.message}"
  | typeMismatch path expected =>
    s!"value does not match expected type: {expected} for field path: {path}"
  | unknownProperty property path =>
    s!"property '{property}' is not defined in struct at path: {path}"
  | duplicateProperty property path =>
    s!"duplicate property '{property}' in struct at path: {path}"
  | incompleteRowGroup initialized total =>
    s!"Only {initialized} out of {total} columns are initialized"
  | writerFailed column => s!"column '{column}' is unusable after a failed write"
  | physical column _ => s!"physical layer error for column '{column}'"

/-- The failure of the physical layer behind an error. -/
def cause? : Error → Option String
  | physical _ cause => some cause
  | _ => none

end Error

end Striping
