import Striping.Leaf.Conversion

/-!
# Byte arenas

Byte strings of a batch are copied into one arena, which is sized for the next batch
by the batch before.

* `ByteArena.append`: copies bytes and gives a handle to the copy. A handle is the
  bytes themselves, so it outlives the batch.
* `ByteArena.reset`: starts the next batch.
* `LeafType.store`: the stored form of a value, copied where the leaf type asks for it.
-/

namespace Striping

/-- An arena for the byte strings of a batch. -/
structure ByteArena where
  /-- Bytes appended since the last reset. -/
  pending : Nat := 0
  /-- Bytes that fit without a new allocation, at least. -/
  room : Nat := 0
deriving DecidableEq, Repr, Inhabited

namespace ByteArena

/-- Copies bytes into the arena. -/
def append (a : ByteArena) (bytes : ByteArray) : ByteArray × ByteArena :=
  (bytes, { pending := a.pending + bytes.size, room := a.room - bytes.size })

/-- Starts a batch with room for as many bytes as the last one held. -/
def reset (a : ByteArena) : ByteArena := { pending := 0, room := max a.room a.pending }

end ByteArena

/-- The stored form of a value. Text and copied byte strings go through the arena. -/
def LeafType.store (a : ByteArena) : (t : LeafType) → t.Value → t.Physical × ByteArena
  | .text, v => a.append (LeafType.text.toPhysical v)
  | .bytes, v => a.append (LeafType.bytes.toPhysical v)
  | .bool, v => (LeafType.bool.toPhysical v, a)
  | .int8, v => (LeafType.int8.toPhysical v, a)
  | .int16, v => (LeafType.int16.toPhysical v, a)
  | .int32, v => (LeafType.int32.toPhysical v, a)
  | .int64, v => (LeafType.int64.toPhysical v, a)
  | .uint8, v => (LeafType.uint8.toPhysical v, a)
  | .uint16, v => (LeafType.uint16.toPhysical v, a)
  | .uint32, v => (LeafType.uint32.toPhysical v, a)
  | .uint64, v => (LeafType.uint64.toPhysical v, a)
  | .float32, v => (LeafType.float32.toPhysical v, a)
  | .float64, v => (LeafType.float64.toPhysical v, a)
  | .sharedBytes, v => (LeafType.sharedBytes.toPhysical v, a)
  | .cell, v => (LeafType.cell.toPhysical v, a)

end Striping
