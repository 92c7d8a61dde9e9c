/-!
# UTF-8 with replacement

Bytes are read as UTF-8 without ever failing: each longest piece that starts a character but cannot
be finished, and each byte that starts none, is read as one replacement character. A byte order
mark is a character like any other.
-/

namespace LolMarkup.Text.Utf8

/-- The character that stands for an ill-formed piece. -/
def replacement : Char := '\uFFFD'

/-- A character that has begun: the bits read so far, how many bytes are still owed, and the range
in which the next of them has to lie. -/
structure Pending where
  bits : Nat
  owed : Nat
  low : Nat
  high : Nat
deriving DecidableEq, Repr

/-- What a byte does where a character may begin: the characters it completes, and the character
it leaves begun. The first continuation byte has a smaller range where a full one would allow
overlong forms, surrogates or numbers past the last code point. -/
def lead (b : Nat) : List Char × Option Pending :=
  if b < 0x80 then ([Char.ofNat b], none)
  else if 0xC2 ≤ b ∧ b ≤ 0xDF then ([], some ⟨b - 0xC0, 1, 0x80, 0xBF⟩)
  else if 0xE0 ≤ b ∧ b ≤ 0xEF then
    ([], some ⟨b - 0xE0, 2, if b = 0xE0 then 0xA0 else 0x80, if b = 0xED then 0x9F else 0xBF⟩)
  else if 0xF0 ≤ b ∧ b ≤ 0xF4 then
    ([], some ⟨b - 0xF0, 3, if b = 0xF0 then 0x90 else 0x80, if b = 0xF4 then 0x8F else 0xBF⟩)
  else ([replacement], none)

/-- What a byte does after an optional begun character. A byte that does not continue the character
ends it with a replacement and is then read as a first byte. -/
def feed : Option Pending → Nat → List Char × Option Pending
  | none, b => lead b
  | some p, b =>
      if p.low ≤ b ∧ b ≤ p.high then
        let bits := p.bits * 64 + (b - 0x80)
        if p.owed ≤ 1 then ([Char.ofNat bits], none)
        else ([], some ⟨bits, p.owed - 1, 0x80, 0xBF⟩)
      else
        let (chars, next) := lead b
        (replacement :: chars, next)

/-- The characters of a byte sequence after an optional begun character. -/
def decodeFrom : Option Pending → List UInt8 → List Char
  | none, [] => []
  | some _, [] => [replacement]
  | state, b :: bytes =>
      let (chars, next) := feed state b.toNat
      chars ++ decodeFrom next bytes

/-- The text that a byte sequence stands for. -/
def decode (bytes : List UInt8) : String :=
  String.ofList (decodeFrom none bytes)

/-- The bytes of a text. -/
def encode (s : String) : List UInt8 :=
  s.toList.flatMap String.utf8EncodeChar

end LolMarkup.Text.Utf8
