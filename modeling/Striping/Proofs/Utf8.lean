import Mathlib.Data.List.Basic
import Mathlib.Data.List.TakeWhile
import Mathlib.Tactic.Common
import Striping.Proofs.Conversion

/-!
# Well-formed UTF-8

**Scope.** Byte strings of any length.

* `Text.Letter`, `Text.WellFormed`: the byte sequences of characters and of texts, from the table
  of well-formed sequences alone: no overlong form, no surrogate, nothing above 10FFFF.
* `Text.letter_iff`: a sequence is in the table exactly if a character is encoded so.
* `Text.wellFormed_iff`: **bytes are well formed exactly if they are the bytes of a text.**
* `Text.firstFault_eq_none_iff`: the scan for faults finds one in all other bytes, so a refusal
  always says where the bytes go wrong.
-/

namespace Striping.Text

/-- A byte of a range. -/
def Within (low high : Nat) (b : UInt8) : Prop := low ≤ b.toNat ∧ b.toNat ≤ high

instance (low high : Nat) (b : UInt8) : Decidable (Within low high b) := instDecidableAnd

/-- A byte that continues a character. -/
abbrev Trail (b : UInt8) : Prop := Within 0x80 0xBF b

/-- The byte sequences of single characters, a row of the table each. -/
inductive Letter : List UInt8 → Prop where
  | one {a : UInt8} : Within 0x00 0x7F a → Letter [a]
  | two {a b : UInt8} : Within 0xC2 0xDF a → Trail b → Letter [a, b]
  | e0 {a b c : UInt8} : Within 0xE0 0xE0 a → Within 0xA0 0xBF b → Trail c → Letter [a, b, c]
  | e1ec {a b c : UInt8} : Within 0xE1 0xEC a → Trail b → Trail c → Letter [a, b, c]
  | ed {a b c : UInt8} : Within 0xED 0xED a → Within 0x80 0x9F b → Trail c → Letter [a, b, c]
  | eeef {a b c : UInt8} : Within 0xEE 0xEF a → Trail b → Trail c → Letter [a, b, c]
  | f0 {a b c d : UInt8} : Within 0xF0 0xF0 a → Within 0x90 0xBF b → Trail c → Trail d →
      Letter [a, b, c, d]
  | f1f3 {a b c d : UInt8} : Within 0xF1 0xF3 a → Trail b → Trail c → Trail d →
      Letter [a, b, c, d]
  | f4 {a b c d : UInt8} : Within 0xF4 0xF4 a → Within 0x80 0x8F b → Trail c → Trail d →
      Letter [a, b, c, d]

/-- The byte sequences of texts: those of some characters one after the other. -/
inductive WellFormed : List UInt8 → Prop where
  | nil : WellFormed []
  | cons {letter rest : List UInt8} : Letter letter → WellFormed rest → WellFormed (letter ++ rest)

/-! ## The table and the characters -/

/-- The numbers of characters are those below 110000 that are no surrogates. -/
theorem exists_char {n : Nat} (h : n < 0xD800 ∨ 0xDFFF < n ∧ n < 0x110000) :
    ∃ c : Char, c.val.toNat = n :=
  ⟨Char.ofNat n, by rw [Char.ofNat, dif_pos h]; rfl⟩

theorem ofNat_eq {n : Nat} {b : UInt8} (h : n = b.toNat) : UInt8.ofNat n = b := by
  rw [h, UInt8.ofNat_toNat]

theorem within_ofNat {low high n : Nat} (hlow : low ≤ n) (hhigh : n ≤ high) (h : high < 256) :
    Within low high (UInt8.ofNat n) := by
  have hn : (UInt8.ofNat n).toNat = n := UInt8.toNat_ofNat_of_lt' (Nat.lt_of_le_of_lt hhigh h)
  exact ⟨hn.symm ▸ hlow, hn.symm ▸ hhigh⟩

/-- The table has the bytes of every character. -/
theorem letter_utf8EncodeChar (c : Char) : Letter (String.utf8EncodeChar c) := by
  have hvalid : c.val.toNat < 0xD800 ∨ 0xDFFF < c.val.toNat ∧ c.val.toNat < 0x110000 := c.valid
  unfold String.utf8EncodeChar
  generalize c.val.toNat = n at hvalid
  have htrail (m : Nat) : Trail (UInt8.ofNat (m % 64 + 0x80)) :=
    within_ofNat (by omega) (by omega) (by omega)
  simp only
  split
  · exact .one (within_ofNat (by omega) (by omega) (by omega))
  · split
    · exact .two (within_ofNat (by omega) (by omega) (by omega)) (htrail n)
    · split
      · -- The rows of three bytes, by the four leading bits of the number.
        rcases (by omega : n / 4096 = 0 ∨ 1 ≤ n / 4096 ∧ n / 4096 ≤ 12 ∨ n / 4096 = 13 ∨
          14 ≤ n / 4096) with h | h | h | h
        · exact .e0 (within_ofNat (by omega) (by omega) (by omega))
            (within_ofNat (by omega) (by omega) (by omega)) (htrail n)
        · exact .e1ec (within_ofNat (by omega) (by omega) (by omega)) (htrail _) (htrail n)
        · exact .ed (within_ofNat (by omega) (by omega) (by omega))
            (within_ofNat (by omega) (by omega) (by omega)) (htrail n)
        · exact .eeef (within_ofNat (by omega) (by omega) (by omega)) (htrail _) (htrail n)
      · rcases (by omega : n / 262144 = 0 ∨ 1 ≤ n / 262144 ∧ n / 262144 ≤ 3 ∨
          n / 262144 = 4) with h | h | h
        · exact .f0 (within_ofNat (by omega) (by omega) (by omega))
            (within_ofNat (by omega) (by omega) (by omega)) (htrail _) (htrail n)
        · exact .f1f3 (within_ofNat (by omega) (by omega) (by omega)) (htrail _) (htrail _)
            (htrail n)
        · exact .f4 (within_ofNat (by omega) (by omega) (by omega))
            (within_ofNat (by omega) (by omega) (by omega)) (htrail _) (htrail n)

/-- Two bytes with a number that needs two are those of a character. -/
theorem exists_char_two {a b : UInt8} (ha : Within 0xC2 0xDF a) (hb : Trail b) :
    ∃ c, String.utf8EncodeChar c = [a, b] := by
  obtain ⟨ha, ha'⟩ := ha
  obtain ⟨hb, hb'⟩ := hb
  obtain ⟨c, hc⟩ := exists_char (n := (a.toNat - 0xC0) * 64 + (b.toNat - 0x80)) (by omega)
  refine ⟨c, ?_⟩
  unfold String.utf8EncodeChar
  simp only
  rw [hc, if_neg (by omega), if_pos (by omega), ofNat_eq (b := a) (by omega),
    ofNat_eq (b := b) (by omega)]

/-- Three bytes with a number that needs three and is no surrogate are those of a character. -/
theorem exists_char_three {a b c : UInt8} (ha : Within 0xE0 0xEF a) (hb : Trail b) (hc : Trail c)
    (hlong : a.toNat = 0xE0 → 0xA0 ≤ b.toNat) (hsurrogate : a.toNat = 0xED → b.toNat ≤ 0x9F) :
    ∃ ch, String.utf8EncodeChar ch = [a, b, c] := by
  obtain ⟨ha, ha'⟩ := ha
  obtain ⟨hb, hb'⟩ := hb
  obtain ⟨hc, hc'⟩ := hc
  obtain ⟨ch, hch⟩ := exists_char
    (n := (a.toNat - 0xE0) * 4096 + (b.toNat - 0x80) * 64 + (c.toNat - 0x80)) (by omega)
  refine ⟨ch, ?_⟩
  unfold String.utf8EncodeChar
  simp only
  rw [hch, if_neg (by omega), if_neg (by omega), if_pos (by omega),
    ofNat_eq (b := a) (by omega), ofNat_eq (b := b) (by omega), ofNat_eq (b := c) (by omega)]

/-- Four bytes with a number that needs four and is not too large are those of a character. -/
theorem exists_char_four {a b c d : UInt8} (ha : Within 0xF0 0xF4 a) (hb : Trail b) (hc : Trail c)
    (hd : Trail d) (hlong : a.toNat = 0xF0 → 0x90 ≤ b.toNat)
    (hlarge : a.toNat = 0xF4 → b.toNat ≤ 0x8F) :
    ∃ ch, String.utf8EncodeChar ch = [a, b, c, d] := by
  obtain ⟨ha, ha'⟩ := ha
  obtain ⟨hb, hb'⟩ := hb
  obtain ⟨hc, hc'⟩ := hc
  obtain ⟨hd, hd'⟩ := hd
  obtain ⟨ch, hch⟩ := exists_char
    (n := (a.toNat - 0xF0) * 262144 + (b.toNat - 0x80) * 4096 + (c.toNat - 0x80) * 64
      + (d.toNat - 0x80)) (by omega)
  refine ⟨ch, ?_⟩
  unfold String.utf8EncodeChar
  simp only
  rw [hch, if_neg (by omega), if_neg (by omega), if_neg (by omega),
    ofNat_eq (b := a) (by omega), ofNat_eq (b := b) (by omega), ofNat_eq (b := c) (by omega),
    ofNat_eq (b := d) (by omega)]

theorem Within.mono {low low' high high' : Nat} {b : UInt8} (h : Within low high b)
    (hlow : low' ≤ low) (hhigh : high ≤ high') : Within low' high' b :=
  ⟨Nat.le_trans hlow h.1, Nat.le_trans h.2 hhigh⟩

/-- The table has no other sequences than those of characters. -/
theorem Letter.exists_char {letter : List UInt8} (h : Letter letter) :
    ∃ c, String.utf8EncodeChar c = letter := by
  cases h with
  | @one a ha =>
    obtain ⟨c, hc⟩ := Text.exists_char (n := a.toNat) (by have := ha.2; omega)
    refine ⟨c, ?_⟩
    unfold String.utf8EncodeChar
    simp only
    rw [hc, if_pos ha.2, UInt8.ofNat_toNat]
  | two ha hb => exact exists_char_two ha hb
  | e0 ha hb hc =>
    exact exists_char_three (ha.mono (by omega) (by omega)) (hb.mono (by omega) (by omega)) hc
      (fun _ => hb.1) (fun h => absurd ha.2 (by omega))
  | e1ec ha hb hc =>
    exact exists_char_three (ha.mono (by omega) (by omega)) hb hc
      (fun h => absurd ha.1 (by omega)) (fun h => absurd ha.2 (by omega))
  | ed ha hb hc =>
    exact exists_char_three (ha.mono (by omega) (by omega)) (hb.mono (by omega) (by omega)) hc
      (fun h => absurd ha.1 (by omega)) (fun _ => hb.2)
  | eeef ha hb hc =>
    exact exists_char_three (ha.mono (by omega) (by omega)) hb hc
      (fun h => absurd ha.1 (by omega)) (fun h => absurd ha.1 (by omega))
  | f0 ha hb hc hd =>
    exact exists_char_four (ha.mono (by omega) (by omega)) (hb.mono (by omega) (by omega)) hc hd
      (fun _ => hb.1) (fun h => absurd ha.2 (by omega))
  | f1f3 ha hb hc hd =>
    exact exists_char_four (ha.mono (by omega) (by omega)) hb hc hd
      (fun h => absurd ha.1 (by omega)) (fun h => absurd ha.2 (by omega))
  | f4 ha hb hc hd =>
    exact exists_char_four (ha.mono (by omega) (by omega)) (hb.mono (by omega) (by omega)) hc hd
      (fun h => absurd ha.1 (by omega)) (fun _ => hb.2)

theorem letter_iff {letter : List UInt8} :
    Letter letter ↔ ∃ c, String.utf8EncodeChar c = letter := by
  constructor
  · exact Letter.exists_char
  · rintro ⟨c, rfl⟩
    exact letter_utf8EncodeChar c

/-! ## Texts -/

theorem wellFormed_flatMap (chars : List Char) :
    WellFormed (chars.flatMap String.utf8EncodeChar) := by
  induction chars with
  | nil => exact .nil
  | cons c chars ih => exact .cons (letter_utf8EncodeChar c) ih

theorem wellFormed_iff_exists_chars {bytes : List UInt8} :
    WellFormed bytes ↔ ∃ chars : List Char, chars.flatMap String.utf8EncodeChar = bytes := by
  constructor
  · intro h
    induction h with
    | nil => exact ⟨[], rfl⟩
    | cons hletter _ ih =>
      obtain ⟨c, rfl⟩ := hletter.exists_char
      obtain ⟨chars, rfl⟩ := ih
      exact ⟨c :: chars, rfl⟩
  · rintro ⟨chars, rfl⟩
    exact wellFormed_flatMap chars

/-- The bytes of a text are those of its characters. -/
theorem toList_toUTF8 (s : String) :
    s.toUTF8.data.toList = s.toList.flatMap String.utf8EncodeChar := by
  conv => lhs; rw [← String.ofList_toList (s := s)]
  exact List.data_toByteArray ▸ rfl

/-- **Bytes are well formed exactly if they are the bytes of a text.** -/
theorem wellFormed_iff {bytes : ByteArray} :
    WellFormed bytes.data.toList ↔ ∃ s : String, s.toUTF8 = bytes := by
  constructor
  · intro h
    obtain ⟨chars, hchars⟩ := wellFormed_iff_exists_chars.1 h
    refine ⟨String.ofList chars, ByteArray.ext (Array.toList_inj.1 ?_)⟩
    rw [toList_toUTF8, String.toList_ofList, hchars]
  · rintro ⟨s, rfl⟩
    rw [toList_toUTF8]
    exact wellFormed_flatMap s.toList

/-! ## Faults -/

theorem isTrail_iff {b : UInt8} : isTrail b ↔ Trail b := by
  unfold isTrail
  rw [Bool.and_eq_true, decide_eq_true_iff, decide_eq_true_iff, UInt8.le_iff_toNat_le,
    UInt8.le_iff_toNat_le]
  rfl

/-- What each row of the table demands after its leading byte. -/
theorem ofLead?_of_letter {lead : UInt8} {more : List UInt8} (h : Letter (lead :: more))
    (hlead : 0x80 ≤ lead.toNat) :
    ∃ next second tail, Continuation.ofLead? lead.toNat = some next ∧ more = second :: tail ∧
      Within next.low next.high second ∧ tail.length = next.more ∧ ∀ b ∈ tail, Trail b := by
  unfold Continuation.ofLead?
  cases h with
  | one ha => exact absurd ha.2 (by omega)
  | two ha hb => exact ⟨_, _, _, if_pos ha, rfl, hb, rfl, by simp⟩
  | e0 ha hb hc =>
    obtain ⟨ha, ha'⟩ := ha
    refine ⟨⟨0xA0, 0xBF, 1⟩, _, _, ?_, rfl, hb, rfl, by simpa using hc⟩
    split_ifs <;> first | rfl | omega
  | e1ec ha hb hc =>
    obtain ⟨ha, ha'⟩ := ha
    refine ⟨⟨0x80, 0xBF, 1⟩, _, _, ?_, rfl, hb, rfl, by simpa using hc⟩
    split_ifs <;> first | rfl | omega
  | ed ha hb hc =>
    obtain ⟨ha, ha'⟩ := ha
    refine ⟨⟨0x80, 0x9F, 1⟩, _, _, ?_, rfl, hb, rfl, by simpa using hc⟩
    split_ifs <;> first | rfl | omega
  | eeef ha hb hc =>
    obtain ⟨ha, ha'⟩ := ha
    refine ⟨⟨0x80, 0xBF, 1⟩, _, _, ?_, rfl, hb, rfl, by simpa using hc⟩
    split_ifs <;> first | rfl | omega
  | f0 ha hb hc hd =>
    obtain ⟨ha, ha'⟩ := ha
    refine ⟨⟨0x90, 0xBF, 2⟩, _, _, ?_, rfl, hb, rfl, by simpa using ⟨hc, hd⟩⟩
    split_ifs <;> first | rfl | omega
  | f1f3 ha hb hc hd =>
    obtain ⟨ha, ha'⟩ := ha
    refine ⟨⟨0x80, 0xBF, 2⟩, _, _, ?_, rfl, hb, rfl, by simpa using ⟨hc, hd⟩⟩
    split_ifs <;> first | rfl | omega
  | f4 ha hb hc hd =>
    obtain ⟨ha, ha'⟩ := ha
    refine ⟨⟨0x80, 0x8F, 2⟩, _, _, ?_, rfl, hb, rfl, by simpa using ⟨hc, hd⟩⟩
    split_ifs <;> first | rfl | omega

/-- What meets the demands of a leading byte is a row of the table. -/
theorem letter_of_ofLead? {lead second : UInt8} {tail : List UInt8} {next : Continuation}
    (hnext : Continuation.ofLead? lead.toNat = some next)
    (hsecond : Within next.low next.high second) (hlength : tail.length = next.more)
    (htail : ∀ b ∈ tail, Trail b) : Letter (lead :: second :: tail) := by
  unfold Continuation.ofLead? at hnext
  split_ifs at hnext with h1 h2 h3 h4 h5 h6 h7 <;> obtain rfl := Option.some.inj hnext
  · obtain rfl := List.length_eq_zero_iff.1 hlength
    exact .two h1 hsecond
  · obtain ⟨c, rfl⟩ := List.length_eq_one_iff.1 hlength
    exact .e0 ⟨by omega, by omega⟩ hsecond (htail c (by simp))
  · obtain ⟨c, rfl⟩ := List.length_eq_one_iff.1 hlength
    exact .ed ⟨by omega, by omega⟩ hsecond (htail c (by simp))
  · obtain ⟨c, rfl⟩ := List.length_eq_one_iff.1 hlength
    have hc := htail c (by simp)
    by_cases hlead : lead.toNat ≤ 0xEC
    · exact .e1ec ⟨h4.1, hlead⟩ hsecond hc
    · exact .eeef ⟨by omega, h4.2⟩ hsecond hc
  · obtain ⟨c, d, rfl⟩ := List.length_eq_two.1 hlength
    exact .f0 ⟨by omega, by omega⟩ hsecond (htail c (by simp)) (htail d (by simp))
  · obtain ⟨c, d, rfl⟩ := List.length_eq_two.1 hlength
    exact .f1f3 h6 hsecond (htail c (by simp)) (htail d (by simp))
  · obtain ⟨c, d, rfl⟩ := List.length_eq_two.1 hlength
    exact .f4 ⟨by omega, by omega⟩ hsecond (htail c (by simp)) (htail d (by simp))

/-- Bytes of a character already found well formed are passed over. -/
theorem firstFaultFrom_append (xs rest : List UInt8) (index : Nat) :
    firstFaultFrom (xs ++ rest) index xs.length = firstFaultFrom rest (index + xs.length) 0 := by
  induction xs generalizing index with
  | nil => rfl
  | cons x xs ih =>
    rw [List.cons_append, List.length_cons, firstFaultFrom, ih, Nat.add_right_comm, Nat.add_assoc]

/-- Bytes are counted in full as trailing exactly if there are enough, and all are trailing. -/
theorem length_takeWhile_take_iff {xs : List UInt8} {n : Nat} :
    ((xs.take n).takeWhile isTrail).length = n ↔ n ≤ xs.length ∧ ∀ b ∈ xs.take n, Trail b := by
  have hle := (List.takeWhile_prefix (l := xs.take n) isTrail).length_le
  have htake : (xs.take n).length = min n xs.length := List.length_take
  constructor
  · intro h
    have hall : (xs.take n).takeWhile isTrail = xs.take n :=
      (List.takeWhile_prefix isTrail).eq_of_length (by omega)
    exact ⟨by omega, fun b hb => isTrail_iff.1 (List.takeWhile_eq_self_iff.1 hall b hb)⟩
  · rintro ⟨hn, htrail⟩
    rw [List.takeWhile_eq_self_iff.2 fun b hb => isTrail_iff.2 (htrail b hb)]
    omega

theorem not_letter_nil : ¬ Letter [] := by
  intro h
  cases h

/-- A leading byte below 80 is a character of its own. -/
theorem Letter.eq_nil {lead : UInt8} {more : List UInt8} (h : Letter (lead :: more))
    (hlead : lead.toNat < 0x80) : more = [] := by
  cases h with
  | one _ => rfl
  | two ha _ | e0 ha _ _ | e1ec ha _ _ | ed ha _ _ | eeef ha _ _ | f0 ha _ _ _ | f1f3 ha _ _ _
  | f4 ha _ _ _ => exact absurd ha.1 (by omega)

/-- The scan passes over a character and goes on behind it. -/
theorem firstFaultFrom_letter {letter : List UInt8} (h : Letter letter) (rest : List UInt8)
    (index : Nat) :
    firstFaultFrom (letter ++ rest) index 0 = firstFaultFrom rest (index + letter.length) 0 := by
  cases letter with
  | nil => exact absurd h not_letter_nil
  | cons lead more =>
    by_cases hlead : lead.toNat < 0x80
    · rw [h.eq_nil hlead, List.singleton_append, firstFaultFrom,
        if_pos (UInt8.lt_iff_toNat_lt.2 hlead)]
      rfl
    · obtain ⟨next, second, tail, hnext, rfl, hsecond, hlength, htail⟩ :=
        ofLead?_of_letter h (by omega)
      have hgood : (((tail ++ rest).take next.more).takeWhile isTrail).length = next.more := by
        rw [length_takeWhile_take_iff, ← hlength, List.take_left, List.length_append]
        exact ⟨by omega, htail⟩
      have hskip := firstFaultFrom_append (second :: tail) rest (index + 1)
      rw [List.length_cons, hlength, List.cons_append] at hskip
      rw [List.cons_append, List.cons_append, firstFaultFrom,
        if_neg (mt UInt8.lt_iff_toNat_lt.1 hlead), hnext]
      simp only
      rw [if_pos ⟨hsecond.1, hsecond.2⟩, if_pos hgood, hskip, List.length_cons, List.length_cons,
        hlength]
      congr 1
      omega

/-- The scan finds no fault at a first byte only if a character begins there. -/
theorem letter_of_firstFaultFrom {lead : UInt8} {more : List UInt8} {index : Nat}
    (h : firstFaultFrom (lead :: more) index 0 = none) :
    ∃ letter rest, lead :: more = letter ++ rest ∧ Letter letter := by
  rw [firstFaultFrom] at h
  split at h
  case isTrue hlead =>
    have hlead := UInt8.lt_iff_toNat_lt.1 hlead
    exact ⟨[lead], more, rfl, .one ⟨Nat.zero_le _, Nat.le_of_lt_succ hlead⟩⟩
  case isFalse hlead =>
    split at h
    · cases h
    · rename_i next hnext
      split at h
      · cases h
      · rename_i second tail
        simp only at h
        split_ifs at h with hsecond hgood
        obtain ⟨hlength, htail⟩ := length_takeWhile_take_iff.1 hgood
        refine ⟨lead :: second :: tail.take next.more, tail.drop next.more, ?_, ?_⟩
        · rw [List.cons_append, List.cons_append, List.take_append_drop]
        · exact letter_of_ofLead? hnext hsecond (by rw [List.length_take]; omega) htail

theorem firstFaultFrom_eq_none_iff {bytes : List UInt8} {index : Nat} :
    firstFaultFrom bytes index 0 = none ↔ WellFormed bytes := by
  constructor
  · intro h
    -- By induction on the length: behind a character the scan goes on as at the beginning.
    induction hn : bytes.length using Nat.strong_induction_on generalizing bytes index with
    | _ n ih =>
      subst hn
      cases bytes with
      | nil => exact .nil
      | cons lead more =>
        obtain ⟨letter, rest, heq, hletter⟩ := letter_of_firstFaultFrom h
        rw [heq] at h ih ⊢
        rw [firstFaultFrom_letter hletter] at h
        have hpos : letter ≠ [] := fun hnil => not_letter_nil (hnil ▸ hletter)
        have hshort : rest.length < (letter ++ rest).length := by
          have := List.length_pos_iff.2 hpos
          rw [List.length_append]
          omega
        exact .cons hletter (ih _ hshort h rfl)
  · intro h
    induction h generalizing index with
    | nil => rfl
    | cons hletter _ ih => rw [firstFaultFrom_letter hletter, ih]

instance (bytes : List UInt8) : Decidable (WellFormed bytes) :=
  decidable_of_iff (firstFaultFrom bytes 0 0 = none) firstFaultFrom_eq_none_iff

/-- A surrogate has no bytes, and NUL has but one byte. -/
example : WellFormed [0xED, 0x9F, 0xBF] ∧ ¬ WellFormed [0xED, 0xA0, 0x80] ∧
    ¬ WellFormed [0xC0, 0x80] := by
  decide

/-- **The scan finds no fault exactly in well-formed bytes.** -/
theorem firstFault_eq_none_iff {bytes : ByteArray} :
    firstFault bytes = none ↔ WellFormed bytes.data.toList := firstFaultFrom_eq_none_iff

/-- Bytes are decoded exactly if they are well formed. -/
theorem exists_decode_iff {bytes : ByteArray} :
    (∃ s, decode bytes = .ok s) ↔ WellFormed bytes.data.toList := by
  rw [wellFormed_iff]
  exact exists_congr fun s => ⟨toUTF8_of_decode, fun h => h ▸ decode_toUTF8 s⟩

/-- **A refusal reports the first fault of the bytes.** -/
theorem firstFault_of_decode {bytes : ByteArray} {fault : Utf8Fault}
    (h : decode bytes = .error fault) : firstFault bytes = some fault := by
  have hfault : firstFault bytes ≠ none := by
    intro hnone
    obtain ⟨s, hs⟩ := exists_decode_iff.2 (firstFault_eq_none_iff.1 hnone)
    rw [hs] at h
    cases h
  obtain ⟨first, hfirst⟩ := Option.ne_none_iff_exists'.1 hfault
  unfold decode at h
  split at h
  · cases h
  · rw [hfirst] at h
    exact hfirst.trans (congrArg some (Except.error.inj h))

end Striping.Text
