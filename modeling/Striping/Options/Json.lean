import Striping.Options.Basic

/-!
# Options as JSON

Options are kept as a JSON object. Reading is lenient about members it does not know
and strict about everything else.

* `Json.skipValue`: recognises one JSON value, which is not kept.
* `Options.ofJson?`: reads an object, or an array of at most one number. A missing
  buffer length is the default one, a repeated one is refused.
* `Options.toJson`: the object that reads back as the options.
-/

namespace Striping

namespace Json

/-- Drops the blanks that may stand between tokens. -/
def skipBlank (cs : List Char) : List Char :=
  cs.dropWhile fun c => c == ' ' || c == '\n' || c == '\t' || c == '\r'

/-- The value of a hexadecimal digit. -/
def hexDigit? (c : Char) : Option Nat :=
  if '0' ≤ c ∧ c ≤ '9' then some (c.toNat - '0'.toNat)
  else if 'a' ≤ c ∧ c ≤ 'f' then some (c.toNat - 'a'.toNat + 10)
  else if 'A' ≤ c ∧ c ≤ 'F' then some (c.toNat - 'A'.toNat + 10)
  else none

/-- The value of four hexadecimal digits. -/
def hexWord? (a b c d : Char) : Option Nat := do
  return (((← hexDigit? a) * 16 + (← hexDigit? b)) * 16 + (← hexDigit? c)) * 16 + (← hexDigit? d)

/-- The character of a one-letter escape. -/
def shortEscape? (c : Char) : Option Char :=
  if c = '"' ∨ c = '\\' ∨ c = '/' then some c
  else if c = 'b' then some '\x08'
  else if c = 'f' then some '\x0c'
  else if c = 'n' then some '\n'
  else if c = 'r' then some '\r'
  else if c = 't' then some '\t'
  else none

/-- Reads a text behind its opening quote. A surrogate escape counts only together
with its partner. -/
def readText : List Char → Option (List Char × List Char)
  | '"' :: rest => some ([], rest)
  | '\\' :: 'u' :: a :: b :: c :: d :: rest =>
    match hexWord? a b c d with
    | none => none
    | some high =>
      if 0xD800 ≤ high ∧ high ≤ 0xDBFF then
        match rest with
        | '\\' :: 'u' :: a :: b :: c :: d :: rest =>
          match hexWord? a b c d with
          | none => none
          | some low =>
            if 0xDC00 ≤ low ∧ low ≤ 0xDFFF then
              let char := Char.ofNat (0x10000 + (high - 0xD800) * 0x400 + (low - 0xDC00))
              (readText rest).map fun (text, rest) => (char :: text, rest)
            else none
        | _ => none
      else if 0xDC00 ≤ high ∧ high ≤ 0xDFFF then none
      else (readText rest).map fun (text, rest) => (Char.ofNat high :: text, rest)
  | '\\' :: c :: rest =>
    match shortEscape? c with
    | none => none
    | some char => (readText rest).map fun (text, rest) => (char :: text, rest)
  | c :: rest =>
    if c < ' ' then none else (readText rest).map fun (text, rest) => (c :: text, rest)
  | [] => none

/-- Recognises a text behind its opening quote. Surrogate escapes may stand alone. -/
def skipText : List Char → Option (List Char)
  | '"' :: rest => some rest
  | '\\' :: 'u' :: a :: b :: c :: d :: rest =>
    match hexWord? a b c d with
    | none => none
    | some _ => skipText rest
  | '\\' :: c :: rest =>
    match shortEscape? c with
    | none => none
    | some _ => skipText rest
  | c :: rest => if c < ' ' then none else skipText rest
  | [] => none

/-- Drops at least one digit. -/
def skipDigits : List Char → Option (List Char)
  | c :: rest => if c.isDigit then some (rest.dropWhile Char.isDigit) else none
  | [] => none

/-- Recognises the exponent of a number, if there is one. -/
def skipExponent : List Char → Option (List Char)
  | c :: rest =>
    if c = 'e' ∨ c = 'E' then
      match rest with
      | '+' :: digits => skipDigits digits
      | '-' :: digits => skipDigits digits
      | digits => skipDigits digits
    else some (c :: rest)
  | [] => some []

/-- Recognises the fraction and the exponent of a number, if there are any. -/
def skipFraction : List Char → Option (List Char)
  | '.' :: digits => (skipDigits digits).bind skipExponent
  | rest => skipExponent rest

/-- Recognises a number without its sign. No digit follows a leading zero. -/
def skipNumber : List Char → Option (List Char)
  | '0' :: rest =>
    match rest with
    | c :: _ => if c.isDigit then none else skipFraction rest
    | [] => some []
  | rest => (skipDigits rest).bind skipFraction

mutual

/-- Recognises a value. `fuel` bounds the nesting and the number of tokens. -/
def skipValueFrom : Nat → List Char → Option (List Char)
  | 0, _ => none
  | fuel + 1, cs =>
    match skipBlank cs with
    | 'n' :: 'u' :: 'l' :: 'l' :: rest => some rest
    | 't' :: 'r' :: 'u' :: 'e' :: rest => some rest
    | 'f' :: 'a' :: 'l' :: 's' :: 'e' :: rest => some rest
    | '"' :: rest => skipText rest
    | '[' :: rest =>
      match skipBlank rest with
      | ']' :: rest => some rest
      | rest => skipItems fuel rest
    | '\x7b' :: rest =>
      match skipBlank rest with
      | '\x7d' :: rest => some rest
      | rest => skipMembers fuel rest
    | '-' :: rest => skipNumber rest
    | rest => skipNumber rest

/-- Recognises the items of an array and its closing bracket. -/
def skipItems : Nat → List Char → Option (List Char)
  | 0, _ => none
  | fuel + 1, cs =>
    match skipValueFrom fuel cs with
    | none => none
    | some rest =>
      match skipBlank rest with
      | ',' :: rest => skipItems fuel rest
      | ']' :: rest => some rest
      | _ => none

/-- Recognises the members of an object and its closing brace. -/
def skipMembers : Nat → List Char → Option (List Char)
  | 0, _ => none
  | fuel + 1, cs =>
    match skipBlank cs with
    | '"' :: rest =>
      match (skipText rest).map skipBlank with
      | some (':' :: rest) =>
        match skipValueFrom fuel rest with
        | none => none
        | some rest =>
          match skipBlank rest with
          | ',' :: rest => skipMembers fuel rest
          | '\x7d' :: rest => some rest
          | _ => none
      | _ => none
    | _ => none

end

/-- Recognises one value and gives what follows it. Every call looks at a bracket, a
comma or the start of a value, so the length of the text bounds their number. -/
def skipValue (cs : List Char) : Option (List Char) := skipValueFrom (2 * cs.length + 1) cs

/-- Reads an unsigned 64-bit integer without fraction and exponent. -/
def readCount (cs : List Char) : Option (Nat × List Char) :=
  match skipBlank cs with
  | '0' :: rest => some (0, rest)
  | cs =>
    let digits := cs.takeWhile Char.isDigit
    let number := digits.foldl (fun n c => 10 * n + (c.toNat - '0'.toNat)) 0
    if digits.isEmpty ∨ UInt64.size ≤ number then none else some (number, cs.dropWhile Char.isDigit)

end Json

namespace Options

open Json

/-- Reads the members of an object from the first quote on, up to its closing brace.
`found` is the buffer length, if it came already. -/
def readMembers : Nat → List Char → Option Nat → Option (Options × List Char)
  | 0, _, _ => none
  | fuel + 1, cs, found =>
    match skipBlank cs with
    | '"' :: rest =>
      match readText rest with
      | none => none
      | some (key, rest) =>
        match skipBlank rest with
        | ':' :: rest =>
          let known := key == "buffer_length".toList
          let value :=
            if known then
              if found.isSome then none else (readCount rest).map fun (n, rest) => (some n, rest)
            else (skipValue rest).map fun rest => (found, rest)
          match value with
          | none => none
          | some (found, rest) =>
            match skipBlank rest with
            | ',' :: rest => readMembers fuel rest found
            | '\x7d' :: rest => some ((found.map Options.mk).getD {}, rest)
            | _ => none
        | _ => none
    | _ => none

/-- Reads the options of an object or an array, behind its opening bracket. -/
def readBody (cs : List Char) : Option (Options × List Char) :=
  match cs with
  | '\x7b' :: rest =>
    match skipBlank rest with
    | '\x7d' :: rest => some ({}, rest)
    | rest => readMembers rest.length rest none
  | '[' :: rest =>
    match skipBlank rest with
    | ']' :: rest => some ({}, rest)
    | rest =>
      match readCount rest with
      | none => none
      | some (n, rest) =>
        match skipBlank rest with
        | ']' :: rest => some (⟨n⟩, rest)
        | _ => none
  | _ => none

/-- Reads options; nothing else than blanks may stand around them. -/
def ofJson? (text : String) : Option Options :=
  match readBody (skipBlank text.toList) with
  | some (options, rest) => if skipBlank rest = [] then some options else none
  | none => none

/-- The JSON object of the options. -/
def toJson (o : Options) : String :=
  "\x7b\"buffer_length\":" ++ toString o.bufferLength ++ "\x7d"

end Options

end Striping
