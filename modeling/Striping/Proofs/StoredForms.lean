import Striping.Leaf.Arena
import Striping.Proofs.Utf8

/-!
# Stored forms

**Scope.** All leaf types, all their values, all stored forms, and any byte arena.

* `LeafType.Represents`: which value a stored form stands for, said by numbers, bits and bytes and
  not by the conversions. `LeafType.Accepts`: the forms that stand for some value.
* `LeafType.represents_iff`, `LeafType.accepts_iff`: a value has just one form, and the accepted
  forms are those of the values.
* `LeafType.conversions_inverse`: **storing and reading undo each other.** A form is refused
  exactly if no value is stored so.
-/

namespace Striping.LeafType

/-- The stored forms that a leaf type has values for. -/
def Accepts : (t : LeafType) → t.Physical → Prop
  | int8, (p : Int32) => -128 ≤ p.toInt ∧ p.toInt ≤ 127
  | int16, (p : Int32) => -32768 ≤ p.toInt ∧ p.toInt ≤ 32767
  | uint8, (p : Int32) => 0 ≤ p.toInt ∧ p.toInt ≤ 255
  | uint16, (p : Int32) => 0 ≤ p.toInt ∧ p.toInt ≤ 65535
  | text, (p : ByteArray) => Text.WellFormed p.data.toList
  | _, _ => True

/-- What a stored form stands for: the same number for the narrow integers, the same bits for the
unsigned wide ones and for floating-point numbers, the bytes of the characters for text. -/
def Represents : (t : LeafType) → t.Physical → t.Value → Prop
  | bool, (p : Bool), (v : Bool) => p = v
  | int8, (p : Int32), (v : Int8) => p.toInt = v.toInt
  | int16, (p : Int32), (v : Int16) => p.toInt = v.toInt
  | int32, (p : Int32), (v : Int32) => p = v
  | int64, (p : Int64), (v : Int64) => p = v
  | uint8, (p : Int32), (v : UInt8) => p.toInt = v.toNat
  | uint16, (p : Int32), (v : UInt16) => p.toInt = v.toNat
  | uint32, (p : Int32), (v : UInt32) => p.toBitVec = v.toBitVec
  | uint64, (p : Int64), (v : UInt64) => p.toBitVec = v.toBitVec
  | float32, (p : Binary32), (v : Binary32) => p.bits = v.bits
  | float64, (p : Binary64), (v : Binary64) => p.bits = v.bits
  | text, (p : ByteArray), (v : String) =>
    p.data.toList = v.toList.flatMap String.utf8EncodeChar
  | bytes, (p : ByteArray), (v : ByteArray) => p = v
  | sharedBytes, (p : ByteArray), (v : ByteArray) => p = v
  | cell, (p : Cell), (v : Cell) => p = v

/-- Copying into the arena does not change a stored form. -/
theorem store_fst (arena : ByteArena) (t : LeafType) (v : t.Value) :
    (t.store arena v).1 = t.toPhysical v := by
  cases t <;> rfl

/-- A 32-bit number that is the number of a narrower one is its stored form. -/
theorem toInt_eq_int8 {n : Int32} {v : Int8} : n.toInt = v.toInt ↔ n = v.toInt32 := by
  rw [← Int8.toInt_toInt32, Int32.toInt_inj]

theorem toInt_eq_int16 {n : Int32} {v : Int16} : n.toInt = v.toInt ↔ n = v.toInt32 := by
  rw [← Int16.toInt_toInt32, Int32.toInt_inj]

theorem toInt_eq_ofNat {n : Int32} {k : Nat} (h : k ≤ 65535) :
    n.toInt = k ↔ n = Int32.ofNat k := by
  rw [← ofNat_toInt h, Int32.toInt_inj]

theorem toList_eq_text {bytes : ByteArray} {s : String} :
    bytes.data.toList = s.toList.flatMap String.utf8EncodeChar ↔ bytes = s.toUTF8 := by
  rw [← Text.toList_toUTF8, Array.toList_inj]
  exact ⟨ByteArray.ext, congrArg ByteArray.data⟩

/-- A value is stored as the one form that stands for it. -/
theorem represents_iff {t : LeafType} {p : t.Physical} {v : t.Value} :
    t.Represents p v ↔ p = t.toPhysical v := by
  cases t with
  | int8 => exact toInt_eq_int8
  | int16 => exact toInt_eq_int16
  | uint8 => exact toInt_eq_ofNat (Nat.le_of_lt_succ (Nat.lt_trans (UInt8.toNat_lt v) (by decide)))
  | uint16 => exact toInt_eq_ofNat (Nat.le_of_lt_succ (UInt16.toNat_lt v))
  | uint32 => exact Int32.toBitVec_inj
  | uint64 => exact Int64.toBitVec_inj
  | float32 => exact ⟨congrArg Binary32.mk, congrArg Binary32.bits⟩
  | float64 => exact ⟨congrArg Binary64.mk, congrArg Binary64.bits⟩
  | text => exact toList_eq_text
  | bool | int32 | int64 | bytes | sharedBytes | cell => exact Iff.rfl

/-- The whole numbers of a range are those of the values of a narrow type. -/
theorem exists_toInt_eq {α : Type} (toInt : α → Int) (ofInt : Int → α) {low high i : Int}
    (hrange : ∀ v, low ≤ toInt v ∧ toInt v ≤ high)
    (hof : ∀ i, low ≤ i → i ≤ high → toInt (ofInt i) = i) :
    low ≤ i ∧ i ≤ high ↔ ∃ v, i = toInt v := by
  constructor
  · rintro ⟨hlow, hhigh⟩
    exact ⟨ofInt i, (hof i hlow hhigh).symm⟩
  · rintro ⟨v, rfl⟩
    exact hrange v

/-- The accepted forms are those that stand for a value. -/
theorem accepts_iff {t : LeafType} {p : t.Physical} : t.Accepts p ↔ ∃ v, t.Represents p v := by
  have hall (v : t.Value) (h : t.Represents p v) : True ↔ ∃ v, t.Represents p v :=
    ⟨fun _ => ⟨v, h⟩, fun _ => trivial⟩
  cases t with
  | int8 =>
    exact exists_toInt_eq Int8.toInt Int8.ofInt
      (fun v => ⟨v.le_toInt, Int.le_of_lt_add_one v.toInt_lt⟩)
      fun i h1 h2 => Int8.toInt_ofInt_of_le h1 (Int.lt_add_one_of_le h2)
  | int16 =>
    exact exists_toInt_eq Int16.toInt Int16.ofInt
      (fun v => ⟨v.le_toInt, Int.le_of_lt_add_one v.toInt_lt⟩)
      fun i h1 h2 => Int16.toInt_ofInt_of_le h1 (Int.lt_add_one_of_le h2)
  | uint8 =>
    refine exists_toInt_eq (fun v : UInt8 => v.toNat) UInt8.ofInt (fun v => ?_)
      fun i h1 h2 => ?_
    · have := v.toNat_lt
      omega
    · simp only [UInt8.ofInt, UInt8.toNat_ofNat']
      omega
  | uint16 =>
    refine exists_toInt_eq (fun v : UInt16 => v.toNat) UInt16.ofInt (fun v => ?_)
      fun i h1 h2 => ?_
    · have := v.toNat_lt
      omega
    · simp only [UInt16.ofInt, UInt16.toNat_ofNat']
      omega
  | text =>
    exact Text.wellFormed_iff.trans (exists_congr fun s => eq_comm.trans toList_eq_text.symm)
  | uint32 => exact hall p.toUInt32 rfl
  | uint64 => exact hall p.toUInt64 rfl
  | bool | int32 | int64 | float32 | float64 | bytes | sharedBytes | cell => exact hall p rfl

/-- What storing and reading the values of a leaf type have to do with each other. -/
structure Inverse (t : LeafType) : Prop where
  /-- What is stored is read back, whatever was copied into the arena before. -/
  read_store : ∀ (arena : ByteArena) (v : t.Value), t.ofPhysical (t.store arena v).1 = .ok v
  /-- Just the forms in which a value is stored are read. -/
  reads_iff_stored : ∀ p : t.Physical,
    (∃ v, t.ofPhysical p = .ok v) ↔ ∃ arena v, (t.store arena v).1 = p
  /-- Just the numbers in range, the well-formed texts and all else are read. -/
  reads_iff_accepts : ∀ p : t.Physical, (∃ v, t.ofPhysical p = .ok v) ↔ t.Accepts p
  /-- What is read is stored as it was. -/
  store_read : ∀ (arena : ByteArena) (p : t.Physical) (v : t.Value),
    t.ofPhysical p = .ok v → (t.store arena v).1 = p
  /-- A form is read as the value it stands for. -/
  reads_iff : ∀ (p : t.Physical) (v : t.Value), t.ofPhysical p = .ok v ↔ t.Represents p v
  /-- A value is stored as the form that stands for it. -/
  stores_iff : ∀ (arena : ByteArena) (p : t.Physical) (v : t.Value),
    (t.store arena v).1 = p ↔ t.Represents p v

theorem inverse (t : LeafType) : t.Inverse where
  read_store arena v := by rw [store_fst, ofPhysical_toPhysical]
  reads_iff_stored p := by
    simp only [store_fst, ofPhysical_eq_ok_iff, exists_const]
    exact exists_congr fun v => eq_comm
  reads_iff_accepts p := by
    rw [accepts_iff]
    exact exists_congr fun v => ofPhysical_eq_ok_iff.trans represents_iff.symm
  store_read arena p v h := by rw [store_fst, ← ofPhysical_eq_ok_iff.1 h]
  reads_iff p v := ofPhysical_eq_ok_iff.trans represents_iff.symm
  stores_iff arena p v := by rw [store_fst, represents_iff, eq_comm]

/-- If every form is read, values and forms match one to one. -/
theorem bijective_store {t : LeafType} (h : ∀ p : t.Physical, t.Accepts p) (arena : ByteArena) :
    Function.Bijective fun v : t.Value => (t.store arena v).1 := by
  constructor
  · intro v w hvw
    have hread := (inverse t).read_store arena v
    rw [show (t.store arena v).1 = (t.store arena w).1 from hvw, (inverse t).read_store] at hread
    exact (Except.ok.inj hread).symm
  · intro p
    obtain ⟨v, hv⟩ := ((inverse t).reads_iff_accepts p).2 (h p)
    exact ⟨v, (inverse t).store_read arena p v hv⟩

/-- **Storing and reading undo each other, for every leaf type.** The unsigned 32- and 64-bit
integers match the signed ones one to one. -/
theorem conversions_inverse :
    (∀ t : LeafType, t.Inverse) ∧
      (∀ arena, Function.Bijective fun v : UInt32 => ((uint32.store arena v).1 : Int32)) ∧
      ∀ arena, Function.Bijective fun v : UInt64 => ((uint64.store arena v).1 : Int64) :=
  ⟨inverse, bijective_store (t := uint32) fun _ => trivial,
    bijective_store (t := uint64) fun _ => trivial⟩

/-- The largest unsigned numbers have the bits of minus one. -/
example : (uint32.store {} (4294967295 : UInt32)).1 = (-1 : Int32) ∧
    (uint64.store {} (18446744073709551615 : UInt64)).1 = (-1 : Int64) :=
  ⟨rfl, rfl⟩

end Striping.LeafType
