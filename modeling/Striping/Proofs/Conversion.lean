import Mathlib.Tactic.Common
import Striping.Leaf.Conversion

/-!
# Leaf values and their stored form

A leaf value and its stored form determine each other.

* `LeafType.ofPhysical_eq_ok_iff`: a stored form is read as the value that is stored
  so. A stored form that no value has is refused.
* `LeafType.ofPhysical_toPhysical`: so what is stored is read back.
-/

namespace Striping

/-- Text is read back from its own bytes. -/
theorem Text.decode_toUTF8 (s : String) : Text.decode s.toUTF8 = .ok s := by
  have hv : s.toUTF8.IsValidUTF8 := s.isValidUTF8
  unfold Text.decode String.fromUTF8?
  rw [dif_pos hv]
  exact congrArg Except.ok (String.toByteArray_inj.1 rfl)

theorem Text.toUTF8_of_decode {bytes : ByteArray} {s : String} (h : Text.decode bytes = .ok s) :
    s.toUTF8 = bytes := by
  unfold Text.decode String.fromUTF8? at h
  by_cases hv : bytes.IsValidUTF8
  · rw [dif_pos hv] at h
    obtain rfl := Except.ok.inj h
    rfl
  · rw [dif_neg hv] at h
    cases h

namespace LeafType

theorem textOf_eq_ok_iff {bytes : ByteArray} {s : String} :
    textOf bytes = .ok s ↔ bytes = s.toUTF8 := by
  unfold textOf
  constructor
  · intro h
    cases hd : Text.decode bytes with
    | error e => rw [hd] at h; cases h
    | ok s' =>
      rw [hd] at h
      obtain rfl := Except.ok.inj h
      exact (Text.toUTF8_of_decode hd).symm
  · rintro rfl
    rw [Text.decode_toUTF8]

/-- Narrowing keeps the numbers between its bounds and refuses all others. -/
theorem narrow_eq_ok_iff {t : LeafType} {low high i : Int} {n : Int32} :
    narrow t low high n = .ok i ↔ low ≤ n.toInt ∧ n.toInt ≤ high ∧ i = n.toInt := by
  unfold narrow
  split
  · simp; omega
  · split
    · simp; omega
    · simp only [Except.ok.injEq]; omega

/-- Numbers narrowed to a type whose values are the whole range of the bounds. -/
theorem narrow_map_eq_ok_iff {α : Type} {t : LeafType} {low high : Int} {ofInt : Int → α}
    (wide : α → Int32) (hrange : ∀ a, low ≤ (wide a).toInt ∧ (wide a).toInt ≤ high)
    (hof : ∀ a, ofInt (wide a).toInt = a)
    (hwide : ∀ i, low ≤ i → i ≤ high → (wide (ofInt i)).toInt = i) {n : Int32} {a : α} :
    (narrow t low high n).map ofInt = .ok a ↔ n = wide a := by
  constructor
  · intro h
    cases hn : narrow t low high n with
    | error e => rw [hn] at h; cases h
    | ok i =>
      obtain ⟨h1, h2, rfl⟩ := narrow_eq_ok_iff.1 hn
      rw [hn] at h
      obtain rfl := Except.ok.inj h
      exact Int32.toInt.inj (hwide _ h1 h2).symm
  · rintro rfl
    rw [narrow_eq_ok_iff.2 ⟨(hrange a).1, (hrange a).2, rfl⟩]
    exact congrArg Except.ok (hof a)

theorem narrow_int8 {n : Int32} {v : Int8} :
    (narrow int8 (-128) 127 n).map Int8.ofInt = .ok v ↔ n = v.toInt32 := by
  refine narrow_map_eq_ok_iff Int8.toInt32 (fun v => ?_) (fun v => ?_) (fun i h1 h2 => ?_)
  · have h1 := v.le_toInt
    have h2 := v.toInt_lt
    rw [Int8.toInt_toInt32]; omega
  · rw [Int8.toInt_toInt32, Int8.ofInt_toInt]
  · rw [Int8.toInt_toInt32, Int8.toInt_ofInt_of_le (by omega) (by omega)]

theorem narrow_int16 {n : Int32} {v : Int16} :
    (narrow int16 (-32768) 32767 n).map Int16.ofInt = .ok v ↔ n = v.toInt32 := by
  refine narrow_map_eq_ok_iff Int16.toInt32 (fun v => ?_) (fun v => ?_) (fun i h1 h2 => ?_)
  · have h1 := v.le_toInt
    have h2 := v.toInt_lt
    rw [Int16.toInt_toInt32]; omega
  · rw [Int16.toInt_toInt32, Int16.ofInt_toInt]
  · rw [Int16.toInt_toInt32, Int16.toInt_ofInt_of_le (by omega) (by omega)]

theorem ofNat_toInt {n : Nat} (h : n ≤ 65535) : (Int32.ofNat n).toInt = n :=
  Int32.toInt_ofNat_of_lt (by omega)

theorem narrow_uint8 {n : Int32} {v : UInt8} :
    (narrow uint8 0 255 n).map UInt8.ofInt = .ok v ↔ n = Int32.ofNat v.toNat := by
  refine narrow_map_eq_ok_iff (fun v : UInt8 => Int32.ofNat v.toNat) (fun v => ?_)
    (fun v => ?_) (fun i h1 h2 => ?_)
  · have h := v.toNat_lt
    rw [ofNat_toInt (by omega)]; omega
  · have h := v.toNat_lt
    rw [ofNat_toInt (by omega)]
    refine UInt8.toNat_inj.1 ?_
    simp only [UInt8.ofInt, UInt8.toNat_ofNat']
    omega
  · have h := (UInt8.ofInt i).toNat_lt
    rw [ofNat_toInt (by omega)]
    simp only [UInt8.ofInt, UInt8.toNat_ofNat']
    omega

theorem narrow_uint16 {n : Int32} {v : UInt16} :
    (narrow uint16 0 65535 n).map UInt16.ofInt = .ok v ↔ n = Int32.ofNat v.toNat := by
  refine narrow_map_eq_ok_iff (fun v : UInt16 => Int32.ofNat v.toNat) (fun v => ?_)
    (fun v => ?_) (fun i h1 h2 => ?_)
  · have h := v.toNat_lt
    rw [ofNat_toInt (by omega)]; omega
  · have h := v.toNat_lt
    rw [ofNat_toInt (by omega)]
    refine UInt16.toNat_inj.1 ?_
    simp only [UInt16.ofInt, UInt16.toNat_ofNat']
    omega
  · have h := (UInt16.ofInt i).toNat_lt
    rw [ofNat_toInt (by omega)]
    simp only [UInt16.ofInt, UInt16.toNat_ofNat']
    omega

/-- **A stored form is read as a value exactly if the value is stored so.** -/
theorem ofPhysical_eq_ok_iff {t : LeafType} {p : t.Physical} {v : t.Value} :
    t.ofPhysical p = .ok v ↔ p = t.toPhysical v := by
  cases t with
  | int8 => exact narrow_int8
  | int16 => exact narrow_int16
  | uint8 => exact narrow_uint8
  | uint16 => exact narrow_uint16
  | text => exact textOf_eq_ok_iff
  | uint32 =>
    constructor
    · intro h
      obtain rfl := Except.ok.inj h
      rfl
    · rintro rfl
      rfl
  | uint64 =>
    constructor
    · intro h
      obtain rfl := Except.ok.inj h
      rfl
    · rintro rfl
      rfl
  | _ => exact ⟨Except.ok.inj, congrArg Except.ok⟩

theorem ofPhysical_toPhysical (t : LeafType) (v : t.Value) :
    t.ofPhysical (t.toPhysical v) = .ok v := ofPhysical_eq_ok_iff.2 rfl

end LeafType

end Striping
