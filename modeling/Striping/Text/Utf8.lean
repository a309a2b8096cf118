/-!
# Decoding UTF-8

* `Text.Utf8Fault`: where and why bytes stop being UTF-8.
* `Text.firstFault`: the first ill-formed place, from the well-formedness table of the
  encoding.
* `Text.decode`: the text the bytes encode, or the first fault.
-/

namespace Striping.Text

/-- The first place at which bytes are not UTF-8. -/
inductive Utf8Fault where
  /-- The `length` bytes from `index` on begin no character. -/
  | invalid (index length : Nat)
  /-- The bytes end inside the character that begins at `index`. -/
  | incomplete (index : Nat)
deriving DecidableEq, Repr

/-- The wording of a fault. -/
def Utf8Fault.message : Utf8Fault → String
  | .invalid index length => s!"invalid utf-8 sequence of {length} bytes from index {index}"
  | .incomplete index => s!"incomplete utf-8 byte sequence from index {index}"

/-- How a character that begins with a given byte goes on: the range of its second
byte and the number of bytes after that one. -/
structure Continuation where
  /-- The least second byte. -/
  low : Nat
  /-- The greatest second byte. -/
  high : Nat
  /-- Further bytes, each between 80 and BF. -/
  more : Nat

/-- The continuation demanded by a leading byte above 7F, if it begins a character. -/
def Continuation.ofLead? (b : Nat) : Option Continuation :=
  if 0xC2 ≤ b ∧ b ≤ 0xDF then some ⟨0x80, 0xBF, 0⟩
  else if b = 0xE0 then some ⟨0xA0, 0xBF, 1⟩
  else if b = 0xED then some ⟨0x80, 0x9F, 1⟩
  else if 0xE1 ≤ b ∧ b ≤ 0xEF then some ⟨0x80, 0xBF, 1⟩
  else if b = 0xF0 then some ⟨0x90, 0xBF, 2⟩
  else if 0xF1 ≤ b ∧ b ≤ 0xF3 then some ⟨0x80, 0xBF, 2⟩
  else if b = 0xF4 then some ⟨0x80, 0x8F, 2⟩
  else none

/-- Holds of the bytes that continue a character. -/
def isTrail (b : UInt8) : Bool := 0x80 ≤ b && b ≤ 0xBF

/-- Scans bytes for the first fault. `index` is the position of the first byte, and
`skip` counts bytes still to come of a character already found well formed. -/
def firstFaultFrom : List UInt8 → Nat → Nat → Option Utf8Fault
  | [], _, _ => none
  | _ :: rest, index, skip + 1 => firstFaultFrom rest (index + 1) skip
  | lead :: rest, index, 0 =>
    if lead < 0x80 then firstFaultFrom rest (index + 1) 0
    else
      match Continuation.ofLead? lead.toNat with
      | none => some (.invalid index 1)
      | some next =>
        match rest with
        | [] => some (.incomplete index)
        | second :: tail =>
          if next.low ≤ second.toNat ∧ second.toNat ≤ next.high then
            let good := ((tail.take next.more).takeWhile isTrail).length
            if good = next.more then firstFaultFrom rest (index + 1) (next.more + 1)
            else if tail.length ≤ good then some (.incomplete index)
            else some (.invalid index (good + 2))
          else some (.invalid index 1)

/-- The first fault of the bytes, if they are not UTF-8. -/
def firstFault (bytes : ByteArray) : Option Utf8Fault := firstFaultFrom bytes.data.toList 0 0

/-- The text that the bytes encode. -/
def decode (bytes : ByteArray) : Except Utf8Fault String :=
  match String.fromUTF8? bytes with
  | some text => .ok text
  | none => .error ((firstFault bytes).getD (.incomplete bytes.size))

end Striping.Text
