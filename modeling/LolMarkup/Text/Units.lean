/-!
# Measuring text in 16-bit units

Offsets in a text count 16-bit code units: a character of the basic plane takes one unit and every
other character takes two. The same units give an order on texts, which differs from the order of
code points where a character outside the basic plane meets one at the top of it.
-/

namespace LolMarkup.Text

/-- The 16-bit units of a character: itself, or a high half followed by a low half. -/
def charUnits (c : Char) : List Nat :=
  if c.toNat < 0x10000 then [c.toNat]
  else [0xD800 + (c.toNat - 0x10000) / 0x400, 0xDC00 + (c.toNat - 0x10000) % 0x400]

/-- How many 16-bit units a character takes. -/
def width (c : Char) : Nat :=
  if c.toNat < 0x10000 then 1 else 2

/-- Every character takes at least one unit. -/
theorem width_pos (c : Char) : 0 < width c := by
  unfold width; split <;> decide

/-- The width of a character is the number of its units. -/
theorem length_charUnits (c : Char) : (charUnits c).length = width c := by
  unfold charUnits width; split <;> rfl

/-- The 16-bit units of a text in order. -/
def units (s : String) : List Nat :=
  s.toList.flatMap charUnits

/-- Whether the first text comes no later than the second in the order of their units. -/
def unitsLe (s t : String) : Bool :=
  !(decide (units t < units s))

end LolMarkup.Text
