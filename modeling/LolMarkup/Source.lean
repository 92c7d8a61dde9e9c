import LolMarkup.Text.Units

/-!
# Sources and places in them

A source is a text together with the path under which it is reported. A position in it is a line
and a column, both counted from one, and an offset in 16-bit units. Columns count characters, so a
character of two units takes one column.
-/

namespace LolMarkup

open Text (width)

/-- A place in a text: its line and column, and its offset from the start of the text. -/
structure Position where
  line : Int
  column : Int
  offset : Int
deriving DecidableEq, Repr

namespace Position

/-- The start of a text. -/
def origin : Position := ⟨1, 1, 0⟩

/-- The position after one more character. A line feed starts the next line. -/
def advance (p : Position) (c : Char) : Position :=
  if c = '\n' then ⟨p.line + 1, 1, p.offset + 1⟩
  else ⟨p.line, p.column + 1, p.offset + width c⟩

/-- The position after a run of characters. -/
def after (p : Position) (cs : List Char) : Position :=
  cs.foldl advance p

/-- Without characters the position stays. -/
@[simp] theorem after_nil (p : Position) : p.after [] = p := rfl

/-- The first character is passed before the others. -/
@[simp] theorem after_cons (p : Position) (c : Char) (cs : List Char) :
    p.after (c :: cs) = (p.advance c).after cs := rfl

/-- The position after two runs is found one run at a time. -/
@[simp] theorem after_append (p : Position) (cs ds : List Char) :
    p.after (cs ++ ds) = (p.after cs).after ds :=
  List.foldl_append

/-- The position that lies the given number of units further, or at the end of the characters if
that comes first. The first half of a character of two units counts as a column of its own. -/
def seek (p : Position) : List Char → Nat → Position
  | [], _ => p
  | c :: cs, distance =>
      if distance = 0 then p
      else if width c ≤ distance then (p.advance c).seek cs (distance - width c)
      else ⟨p.line, p.column + 1, p.offset + distance⟩

end Position

/-- A stretch of a named text, from its first position up to the one after its last character. -/
structure Span where
  file : String
  start : Position
  stop : Position
deriving DecidableEq, Repr

/-- A text with the path under which places in it are reported. -/
structure Source where
  path : String
  text : String
deriving DecidableEq, Repr

namespace Source

/-- The offsets just after each line feed, when the characters begin at the given offset. -/
def lineStartsAfter (offset : Int) : List Char → List Int
  | [] => []
  | c :: cs =>
      let next := offset + width c
      if c = '\n' then next :: lineStartsAfter next cs else lineStartsAfter next cs

/-- The offset of the first character of every line, in ascending order. -/
def lineStarts (source : Source) : List Int :=
  0 :: lineStartsAfter 0 source.text.toList

/-- The position at an offset. An offset before the start counts as the start, one past the end as
the end. -/
def positionAt (source : Source) (offset : Int) : Position :=
  Position.origin.seek source.text.toList offset.toNat

/-- The span between two offsets. An end before the start collapses to the start. -/
def span (source : Source) (first last : Int) : Span :=
  ⟨source.path, source.positionAt first, source.positionAt (max first last)⟩

end Source

end LolMarkup
