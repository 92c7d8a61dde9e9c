import LolMarkup.Proofs.Lexing.Positions
import Mathlib.Data.List.DropRight

/-!
# Positions from a table of lines

The position at an offset can be looked up in the table of the offsets at which the lines of a text
start: `LineTable.lookup` finds the line by halving the table and counts the code points from the
start of the line. All of this is done on 16-bit units, so halves of characters that stand alone
are covered too.

`Position.counted` is the position that counting gives: the line feeds among the units before the
offset, and the code points after the last of them. `counted_concat` says what one more unit does
to it, and everything else rests on that: looking up is counting (`lookup_eq_counted`), positions
never go back as the offset grows (`noLater_counted_append`), they move on from every place that is
not between the two halves of a character (`before_counted_append`), and seeking the position
character by character counts as well (`seek_counted`).
-/

namespace LolMarkup

/-! ## Units before an offset -/

namespace Text

/-- The unit that ends a line. -/
def lineFeed : Nat := '\n'.toNat

/-- The unit is the first half of a character of two units. -/
def IsHigh (unit : Nat) : Prop := 0xD800 ≤ unit ∧ unit < 0xDC00

/-- The unit is the second half of a character of two units. -/
def IsLow (unit : Nat) : Prop := 0xDC00 ≤ unit ∧ unit < 0xE000

/-- Whether a unit is a first half is decided by comparing numbers. -/
instance (unit : Nat) : Decidable (IsHigh unit) := inferInstanceAs (Decidable (_ ∧ _))

/-- Whether a unit is a second half is decided by comparing numbers. -/
instance (unit : Nat) : Decidable (IsLow unit) := inferInstanceAs (Decidable (_ ∧ _))

/-- No unit is both halves of a character. -/
theorem IsLow.not_isHigh {unit : Nat} (h : IsLow unit) : ¬IsHigh unit := by
  unfold IsLow at h
  unfold IsHigh
  omega

/-- A line feed is no first half of a character. -/
theorem not_isHigh_lineFeed : ¬IsHigh lineFeed := by decide

/-- A line feed is no second half of a character. -/
theorem not_isLow_lineFeed : ¬IsLow lineFeed := by decide

/-- How many code points the units stand for. A high half and the low half after it are one code
point, and so is every other unit by itself. -/
def codePoints : List Nat → Nat
  | [] => 0
  | [_] => 1
  | first :: second :: rest =>
      if IsHigh first ∧ IsLow second then codePoints rest + 1
      else codePoints (second :: rest) + 1

/-- The units after the last line feed. -/
def lastLine (units : List Nat) : List Nat :=
  units.rtakeWhile (· ≠ lineFeed)

/-- The unit is the second half of a character whose first half is the last of the units before. -/
def Completes (before : List Nat) (unit : Nat) : Prop :=
  IsLow unit ∧ ∃ high ∈ before.getLast?, IsHigh high

/-- Whether a unit completes a character is decided by the unit before it. -/
instance (before : List Nat) (unit : Nat) : Decidable (Completes before unit) :=
  inferInstanceAs (Decidable (_ ∧ ∃ high ∈ before.getLast?, _))

variable {before : List Nat} {unit : Nat}

/-- Only a second half completes a character. -/
theorem not_completes_of_not_isLow (h : ¬IsLow unit) : ¬Completes before unit :=
  fun hcompletes => h hcompletes.1

/-- One more unit is one more code point, unless it completes a character. -/
theorem codePoints_concat (before : List Nat) (unit : Nat) :
    codePoints (before ++ [unit]) = codePoints before + if Completes before unit then 0 else 1 := by
  fun_induction codePoints before with
  | case1 => simp [codePoints, Completes]
  | case2 first =>
      simp only [List.singleton_append, codePoints, Completes, List.getLast?_singleton,
        Option.mem_some, exists_eq_left', and_comm]
      split <;> rfl
  | case3 first second rest hpair ih =>
      -- After a whole character nothing can be completed, whatever stands in front of it.
      have hcompletes : Completes (first :: second :: rest) unit ↔ Completes rest unit := by
        cases rest with
        | nil => simp [Completes, hpair.2.not_isHigh]
        | cons third rest => simp [Completes]
      simp only [List.cons_append, codePoints, if_pos hpair, ih, hcompletes]
      omega
  | case4 first second rest hpair ih =>
      have hcompletes :
          Completes (first :: second :: rest) unit ↔ Completes (second :: rest) unit := by
        simp [Completes]
      simp only [List.cons_append] at ih
      simp only [List.cons_append, codePoints, if_neg hpair, ih, hcompletes]
      omega

/-- One more unit goes on with the last line, or starts another one. -/
theorem lastLine_concat (before : List Nat) (unit : Nat) :
    lastLine (before ++ [unit]) = if unit = lineFeed then [] else lastLine before ++ [unit] := by
  by_cases h : unit = lineFeed <;> simp [lastLine, h]

/-- There is no line feed in the last line. -/
theorem lineFeed_notMem_lastLine (units : List Nat) : lineFeed ∉ lastLine units := by
  intro hmem
  have := List.mem_rtakeWhile_imp hmem
  simp at this

/-- A line feed is no half, so what completes a character does so on the last line. -/
theorem completes_lastLine_iff : Completes (lastLine before) unit ↔ Completes before unit := by
  rcases List.eq_nil_or_concat before with rfl | ⟨front, last, rfl⟩
  · rfl
  · rw [List.concat_eq_append, lastLine_concat]
    split
    next hfeed => simp [Completes, hfeed, not_isHigh_lineFeed]
    next => simp [Completes]

/-- Before the last line there is nothing, or what ends in a line feed. -/
theorem exists_lines (units : List Nat) :
    ∃ lines, units = lines ++ lastLine units ∧
      (lines = [] ∨ ∃ front, lines = front ++ [lineFeed]) := by
  induction units using List.reverseRecOn with
  | nil => exact ⟨[], rfl, .inl rfl⟩
  | append_singleton front unit ih =>
      rw [lastLine_concat]
      split
      next hfeed => exact ⟨front ++ [unit], by simp, .inr ⟨front, by rw [hfeed]⟩⟩
      next =>
        obtain ⟨lines, hfront, hlines⟩ := ih
        exact ⟨lines, by rw [← List.append_assoc, ← hfront], hlines⟩

/-- The offset inside the units that is nearest to the given one. -/
def clamp (units : List Nat) (offset : Int) : Int :=
  max 0 (min offset units.length)

/-- The units before an offset. -/
def unitsBefore (units : List Nat) (offset : Int) : List Nat :=
  units.take (clamp units offset).toNat

/-- The number of units before an offset is the offset, moved into the text. -/
theorem length_unitsBefore (units : List Nat) (offset : Int) :
    ((unitsBefore units offset).length : Int) = clamp units offset := by
  unfold unitsBefore clamp
  rw [List.length_take]
  omega

/-- The units before an offset are as many as it says, if there are that many. -/
theorem unitsBefore_eq_take (units : List Nat) (offset : Int) :
    unitsBefore units offset = units.take offset.toNat := by
  unfold unitsBefore clamp
  rw [List.take_eq_take_iff]
  omega

/-- Before a later offset stand the same units, and then more. -/
theorem exists_unitsBefore_append (units : List Nat) {offset later : Int} (h : offset ≤ later) :
    ∃ more, unitsBefore units later = unitsBefore units offset ++ more := by
  rw [unitsBefore_eq_take, unitsBefore_eq_take]
  obtain ⟨more, hmore⟩ : units.take offset.toNat <+: units.take later.toNat :=
    List.take_isPrefix_take.mpr (by omega)
  exact ⟨more, hmore.symm⟩

/-- The offset lies in the units or at their end, and not between the two halves of a character. -/
def IsBoundary (units : List Nat) (offset : Nat) : Prop :=
  offset ≤ units.length ∧ ∀ unit ∈ units[offset]?, ¬Completes (units.take offset) unit

/-- Whether an offset is a boundary is decided by the two units beside it. -/
instance (units : List Nat) (offset : Nat) : Decidable (IsBoundary units offset) :=
  inferInstanceAs (Decidable (_ ∧ ∀ unit ∈ units[offset]?, _))

end Text

open Text

/-! ## Positions by counting -/

namespace Position

/-- The position after some units, by counting the line feeds among them and the code points after
the last line feed. -/
def counted (before : List Nat) : Position :=
  ⟨1 + before.count lineFeed, 1 + codePoints (lastLine before), before.length⟩

/-- One more unit starts a line, takes a column, or completes the character in the last column. -/
theorem counted_concat (before : List Nat) (unit : Nat) :
    counted (before ++ [unit]) =
      if unit = lineFeed then ⟨(counted before).line + 1, 1, (counted before).offset + 1⟩
      else ⟨(counted before).line,
        (counted before).column + if Completes before unit then 0 else 1,
        (counted before).offset + 1⟩ := by
  unfold counted
  rw [lastLine_concat, List.length_append, List.count_append]
  split
  next hfeed =>
    rw [hfeed, List.count_singleton_self]
    congr 1
  next hfeed =>
    rw [codePoints_concat, List.count_singleton, if_neg (by simpa using hfeed)]
    simp only [completes_lastLine_iff]
    congr 1
    push_cast
    exact (Int.add_assoc ..).symm

/-- The first position comes no later than the second, by line and column. -/
def NoLater (p q : Position) : Prop :=
  p.line < q.line ∨ p.line = q.line ∧ p.column ≤ q.column

variable {p q r : Position} {before : List Nat} {unit : Nat}

/-- Coming no later is transitive. -/
theorem NoLater.trans (hpq : p.NoLater q) (hqr : q.NoLater r) : p.NoLater r := by
  unfold NoLater at *
  omega

/-- What comes before a position comes before all that are no earlier than it. -/
theorem Before.trans_noLater (hpq : p.Before q) (hqr : q.NoLater r) : p.Before r := by
  unfold NoLater at hqr
  unfold Before at *
  omega

/-- One more unit does not lead back. -/
theorem noLater_counted_concat (before : List Nat) (unit : Nat) :
    (counted before).NoLater (counted (before ++ [unit])) := by
  rw [counted_concat]
  split
  next => exact .inl (by simp)
  next => exact .inr ⟨rfl, by split <;> simp⟩

/-- A unit that completes no character leads to a later position. -/
theorem before_counted_concat (h : ¬Completes before unit) :
    (counted before).Before (counted (before ++ [unit])) := by
  rw [counted_concat, if_neg h]
  split
  next => exact .inl (by simp)
  next => exact .inr ⟨rfl, by simp⟩

/-- More units never lead back. -/
theorem noLater_counted_append (before more : List Nat) :
    (counted before).NoLater (counted (before ++ more)) := by
  induction more using List.reverseRecOn with
  | nil => exact .inr ⟨by rw [List.append_nil], by rw [List.append_nil]⟩
  | append_singleton more unit ih =>
      rw [← List.append_assoc]
      exact ih.trans (noLater_counted_concat _ unit)

/-- More units lead on from every place where they do not begin by completing a character. -/
theorem before_counted_append {more : List Nat} (h : ¬Completes before unit) :
    (counted before).Before (counted (before ++ unit :: more)) := by
  rw [← List.singleton_append, ← List.append_assoc]
  exact (before_counted_concat h).trans_noLater (noLater_counted_append _ more)

end Position

/-! ## The table of lines -/

namespace LineTable

/-- The offsets just after each line feed, when the units begin at the given offset. -/
def startsAfter (offset : Int) : List Nat → List Int
  | [] => []
  | unit :: units =>
      if unit = lineFeed then (offset + 1) :: startsAfter (offset + 1) units
      else startsAfter (offset + 1) units

/-- The offset of the first unit of every line, in ascending order. -/
def starts (units : List Nat) : List Int :=
  0 :: startsAfter 0 units

/-- The index of the last start at or before an offset, found by halving the indices from `low`
to `high`. Where two are in the middle, the upper one is looked at. -/
def search (starts : List Int) (offset : Int) (low high : Nat) : Nat :=
  if low < high then
    let middle := (low + high + 1) / 2
    if starts.getD middle 0 ≤ offset then search starts offset middle high
    else search starts offset low (middle - 1)
  else low
termination_by high - low

/-- The index of the line that an offset lies in. -/
def lineIndex (starts : List Int) (offset : Int) : Nat :=
  search starts offset 0 (starts.length - 1)

/-- The position at an offset of the units, looked up in the table of their lines. An offset before
the start counts as the start, one past the end as the end. -/
def lookup (units : List Nat) (offset : Int) : Position :=
  let index := lineIndex (starts units) (clamp units offset)
  let start := (starts units).getD index 0
  ⟨index + 1, codePoints ((unitsBefore units offset).drop start.toNat) + 1, clamp units offset⟩

variable {offset : Int} {units line : List Nat} {early late : List Int} {low high : Nat}

/-- In a table with the starts up to the offset in front, a start is up to the offset exactly if its
index is among theirs. -/
theorem getD_le_iff (hearly : ∀ start ∈ early, start ≤ offset)
    (hlate : ∀ start ∈ late, offset < start) {index : Nat} (h : index < (early ++ late).length) :
    (early ++ late).getD index 0 ≤ offset ↔ index < early.length := by
  rw [List.getD_eq_getElem _ _ h]
  by_cases hindex : index < early.length
  · rw [List.getElem_append_left hindex]
    exact iff_of_true (hearly _ (List.getElem_mem hindex)) hindex
  · rw [List.getElem_append_right (by omega)]
    exact iff_of_false (not_le.mpr (hlate _ (List.getElem_mem _))) hindex

/-- Halving a table ends at the last of the starts up to the offset, which the indices from `low`
to `high` never lose. -/
theorem search_append (hearly : ∀ start ∈ early, start ≤ offset)
    (hlate : ∀ start ∈ late, offset < start) (hlow : low < early.length)
    (hhigh : early.length ≤ high + 1) (hlast : high < (early ++ late).length) :
    search (early ++ late) offset low high = early.length - 1 := by
  fun_induction search (early ++ late) offset low high with
  | case1 low high hlt middle hmiddle ih =>
      rw [getD_le_iff hearly hlate (by omega)] at hmiddle
      exact ih hmiddle hhigh hlast
  | case2 low high hlt middle hmiddle ih =>
      rw [getD_le_iff hearly hlate (by omega)] at hmiddle
      exact ih hlow (by omega) (by omega)
  | case3 low high hlt => omega

/-- The lines that start in two pieces of a text start in it, one piece after the other. -/
theorem startsAfter_append (offset : Int) (units more : List Nat) :
    startsAfter offset (units ++ more) =
      startsAfter offset units ++ startsAfter (offset + units.length) more := by
  induction units generalizing offset with
  | nil => simp [startsAfter]
  | cons unit units ih =>
      have hoffset : offset + (unit :: units).length = offset + 1 + units.length := by
        push_cast [List.length_cons]
        omega
      simp only [List.cons_append, startsAfter, ih, hoffset]
      split <;> rfl

/-- Every line feed starts a line. -/
theorem length_startsAfter (offset : Int) (units : List Nat) :
    (startsAfter offset units).length = units.count lineFeed := by
  induction units generalizing offset with
  | nil => rfl
  | cons unit units ih =>
      rw [startsAfter, List.count_cons]
      split <;> simp_all

/-- A line starts after the units begin and no later than they end. -/
theorem bounds_of_mem_startsAfter {start : Int} (h : start ∈ startsAfter offset units) :
    offset < start ∧ start ≤ offset + units.length := by
  induction units generalizing offset with
  | nil => simp [startsAfter] at h
  | cons unit units ih =>
      have hrest : start ∈ startsAfter (offset + 1) units →
          offset < start ∧ start ≤ offset + (unit :: units).length := by
        intro hmem
        have := ih hmem
        push_cast [List.length_cons]
        omega
      rw [startsAfter] at h
      split at h
      next =>
        rcases List.mem_cons.mp h with rfl | hmem
        · push_cast [List.length_cons]
          omega
        · exact hrest hmem
      next => exact hrest h

/-- No line starts within a line. -/
theorem startsAfter_of_notMem (h : lineFeed ∉ line) : startsAfter offset line = [] := by
  rw [← List.length_eq_zero_iff, length_startsAfter]
  exact List.count_eq_zero.mpr h

/-- There is one line more than there are line feeds. -/
@[simp] theorem length_starts (units : List Nat) :
    (starts units).length = units.count lineFeed + 1 := by
  rw [starts, List.length_cons, length_startsAfter]

/-- No line starts after the end. -/
theorem le_of_mem_starts {start : Int} (h : start ∈ starts units) : start ≤ units.length := by
  rcases List.mem_cons.mp h with rfl | hmem
  · omega
  · have := bounds_of_mem_startsAfter hmem
    omega

/-- The table of a text splits behind every line that has begun. -/
theorem starts_append (lines rest : List Nat) (h : lineFeed ∉ line) :
    starts (lines ++ line ++ rest) =
      starts lines ++ startsAfter (lines.length + line.length) rest := by
  simp [starts, startsAfter_append, startsAfter_of_notMem h]

/-- After whole lines, the next line starts where they end. -/
theorem getD_starts {lines : List Nat} (h : lines = [] ∨ ∃ front, lines = front ++ [lineFeed]) :
    (starts lines).getD (lines.count lineFeed) 0 = lines.length := by
  rcases h with rfl | ⟨front, rfl⟩
  · rfl
  · simp [starts, startsAfter_append, startsAfter, ← length_startsAfter 0 front]

/-- An offset lies in the line that begins after all line feeds before it. -/
theorem lineIndex_starts (lines rest : List Nat) (h : lineFeed ∉ line) :
    lineIndex (starts (lines ++ line ++ rest)) (lines.length + line.length) =
      lines.count lineFeed := by
  have hearly : ∀ start ∈ starts lines, start ≤ lines.length + line.length := by
    intro start hmem
    have := le_of_mem_starts hmem
    omega
  have hlate : ∀ start ∈ startsAfter (lines.length + line.length) rest,
      lines.length + line.length < start :=
    fun start hmem => (bounds_of_mem_startsAfter hmem).1
  rw [lineIndex, starts_append lines rest h,
    search_append hearly hlate (by simp) (by simp) (by simp), length_starts,
    Nat.add_sub_cancel]

/-- Looking a position up is counting. -/
theorem lookup_eq_counted (units : List Nat) (offset : Int) :
    lookup units offset = .counted (unitsBefore units offset) := by
  obtain ⟨lines, hbefore, hlines⟩ := exists_lines (unitsBefore units offset)
  have hline := lineFeed_notMem_lastLine (unitsBefore units offset)
  have hclamp := length_unitsBefore units offset
  have hunits : units = unitsBefore units offset ++ units.drop (clamp units offset).toNat :=
    (List.take_append_drop ..).symm
  unfold lookup Position.counted
  generalize lastLine (unitsBefore units offset) = line at hbefore hline ⊢
  generalize units.drop (clamp units offset).toNat = rest at hunits
  rw [hbefore] at hunits hclamp ⊢
  rw [List.length_append, Nat.cast_add] at hclamp
  have hindex : lineIndex (starts units) (clamp units offset) = lines.count lineFeed := by
    rw [← hclamp, hunits, lineIndex_starts lines rest hline]
  have hstart : (starts units).getD (lines.count lineFeed) 0 = lines.length := by
    rw [hunits, starts_append lines rest hline, List.getD_append _ _ _ _ (by simp),
      getD_starts hlines]
  simp only [hindex, hstart, Int.toNat_natCast, List.drop_left, List.count_append,
    List.count_eq_zero.mpr hline, List.length_append, Nat.cast_add, hclamp]
  congr 1 <;> omega

end LineTable

/-! ## Characters and their halves -/

namespace Text

/-- A character is one unit that is no second half, or a first half and a second half. -/
theorem charUnits_cases (c : Char) :
    width c = 1 ∧ charUnits c = [c.toNat] ∧ ¬IsLow c.toNat ∨
      width c = 2 ∧ c ≠ '\n' ∧
        ∃ high low, charUnits c = [high, low] ∧ IsHigh high ∧ IsLow low := by
  have hvalid : c.toNat < 0xD800 ∨ 0xDFFF < c.toNat ∧ c.toNat < 0x110000 := c.valid
  unfold width charUnits IsHigh IsLow
  split
  next hone => exact .inl ⟨rfl, rfl, by omega⟩
  next htwo =>
    refine .inr ⟨rfl, ?_, _, _, rfl, by omega, by omega⟩
    rintro rfl
    exact htwo (by decide)

/-- A character is a line feed exactly if its code is that of one. -/
theorem toNat_eq_lineFeed_iff (c : Char) : c.toNat = lineFeed ↔ c = '\n' :=
  Char.toNat_inj

/-- A first half is no line feed. -/
theorem IsHigh.ne_lineFeed {unit : Nat} (h : IsHigh unit) : unit ≠ lineFeed := by
  rintro rfl
  exact not_isHigh_lineFeed h

/-- A second half is no line feed. -/
theorem IsLow.ne_lineFeed {unit : Nat} (h : IsLow unit) : unit ≠ lineFeed := by
  rintro rfl
  exact not_isLow_lineFeed h

/-- A second half after a first half completes a character. -/
theorem completes_concat (before : List Nat) {high low : Nat} (hhigh : IsHigh high)
    (hlow : IsLow low) : Completes (before ++ [high]) low :=
  ⟨hlow, high, by simp, hhigh⟩

/-- What completes a character does so with more units before it. -/
theorem Completes.append_left (front : List Nat) {before : List Nat} {unit : Nat}
    (h : Completes before unit) : Completes (front ++ before) unit := by
  obtain ⟨hlow, high, hlast, hhigh⟩ := h
  refine ⟨hlow, high, ?_, hhigh⟩
  rw [Option.mem_def] at hlast ⊢
  rw [List.getLast?_append, hlast, Option.some_or]

/-- No text starts with the second half of a character. -/
theorem not_isLow_head {cs : List Char} {unit : Nat} (h : unit ∈ (cs.flatMap charUnits).head?) :
    ¬IsLow unit := by
  cases cs with
  | nil => simp at h
  | cons c cs =>
      rcases charUnits_cases c with ⟨-, hunits, hlow⟩ | ⟨-, -, high, low, hunits, hhigh, -⟩
      · obtain rfl : c.toNat = unit := by simpa [hunits] using h
        exact hlow
      · obtain rfl : high = unit := by simpa [hunits] using h
        exact fun hlow => hlow.not_isHigh hhigh

/-- A boundary stays one when the units in front are left out. -/
theorem IsBoundary.of_append {front units : List Nat} {offset : Nat}
    (h : IsBoundary (front ++ units) offset) (hfront : front.length ≤ offset) :
    IsBoundary units (offset - front.length) := by
  have hlength := h.1
  rw [List.length_append] at hlength
  refine ⟨by omega, ?_⟩
  intro unit hunit hcompletes
  refine h.2 unit ?_ ?_
  · rwa [List.getElem?_append_right hfront]
  · rw [List.take_append, List.take_of_length_le hfront]
    exact hcompletes.append_left front

/-- Among the units of characters the boundaries are the offsets between characters. -/
theorem isBoundary_flatMap_iff (cs : List Char) (offset : Nat) :
    IsBoundary (cs.flatMap charUnits) offset ↔
      ∃ front back, cs = front ++ back ∧ (offset : Int) = extent front := by
  constructor
  · intro h
    induction cs generalizing offset with
    | nil =>
        obtain rfl : offset = 0 := by simpa using h.1
        exact ⟨[], [], rfl, rfl⟩
    | cons c cs ih =>
        rw [List.flatMap_cons] at h
        by_cases hwidth : width c ≤ offset
        · rw [← length_charUnits] at hwidth
          obtain ⟨front, back, rfl, hfront⟩ := ih _ (h.of_append hwidth)
          rw [length_charUnits] at hwidth hfront
          exact ⟨c :: front, back, rfl, by rw [extent_cons]; omega⟩
        · by_cases hzero : offset = 0
          · exact ⟨[], c :: cs, rfl, by simp [hzero]⟩
          · rcases charUnits_cases c with ⟨hone, -⟩ | ⟨htwo, -, high, low, hunits, hhigh, hlow⟩
            · omega
            · obtain rfl : offset = 1 := by omega
              rw [hunits] at h
              exact absurd (completes_concat [] hhigh hlow) (h.2 low (by simp))
  · rintro ⟨front, back, rfl, hoffset⟩
    obtain rfl : offset = (front.flatMap charUnits).length := by
      rw [extent] at hoffset
      omega
    rw [List.flatMap_append]
    refine ⟨by simp, ?_⟩
    intro unit hunit
    rw [List.getElem?_append_right le_rfl, Nat.sub_self, ← List.head?_eq_getElem?] at hunit
    exact not_completes_of_not_isLow (not_isLow_head hunit)

end Text

namespace Position

/-- A first half takes a column of its own. -/
theorem counted_high (before : List Nat) {high : Nat} (h : IsHigh high) :
    counted (before ++ [high]) =
      ⟨(counted before).line, (counted before).column + 1, (counted before).offset + 1⟩ := by
  have hcompletes : ¬Completes before high := fun hlow => hlow.1.not_isHigh h
  rw [counted_concat, if_neg h.ne_lineFeed, if_neg hcompletes]

/-- One more character moves a counted position as its units do. -/
theorem advance_counted (before : List Nat) (c : Char) :
    (counted before).advance c = counted (before ++ charUnits c) := by
  rcases charUnits_cases c with
    ⟨hwidth, hunits, hlow⟩ | ⟨hwidth, hne, high, low, hunits, hhigh, hlow⟩
  · rw [hunits, counted_concat, if_neg (not_completes_of_not_isLow hlow), advance, hwidth]
    simp only [toNat_eq_lineFeed_iff]
    rfl
  · have hpair : before ++ charUnits c = before ++ [high] ++ [low] := by simp [hunits]
    rw [hpair, counted_concat, if_neg hlow.ne_lineFeed, if_pos (completes_concat before hhigh hlow),
      counted_high before hhigh, advance, if_neg hne, hwidth]
    congr 1

/-- Seeking a position character by character counts the units passed. -/
theorem seek_counted (before : List Nat) (cs : List Char) (distance : Nat) :
    (counted before).seek cs distance =
      counted (before ++ (cs.flatMap charUnits).take distance) := by
  induction cs generalizing before distance with
  | nil => simp [seek]
  | cons c cs ih =>
      have hlength := length_charUnits c
      rw [seek, List.flatMap_cons, List.take_append, hlength]
      split
      next hzero => simp [hzero]
      next hpos =>
        split
        next hwidth =>
          rw [advance_counted, ih, List.append_assoc,
            List.take_of_length_le (l := charUnits c) (by omega)]
        next hwidth =>
          -- Only a character of two units can be cut, and only between its halves.
          rcases charUnits_cases c with ⟨hone, -⟩ | ⟨htwo, -, high, low, hunits, hhigh, -⟩
          · omega
          · obtain rfl : distance = 1 := by omega
            rw [hunits, htwo]
            exact (counted_high before hhigh).symm

end Position

namespace Source

variable (source : Source)

/-- Seeking a position from the start of a text is looking it up in the table of its lines. -/
theorem positionAt_eq_lookup (offset : Int) :
    source.positionAt offset = LineTable.lookup (units source.text) offset := by
  rw [LineTable.lookup_eq_counted, unitsBefore_eq_take]
  exact Position.seek_counted [] source.text.toList offset.toNat

/-- The line starts of characters are those of their units. -/
theorem lineStartsAfter_eq_startsAfter (offset : Int) (cs : List Char) :
    lineStartsAfter offset cs = LineTable.startsAfter offset (cs.flatMap charUnits) := by
  induction cs generalizing offset with
  | nil => rfl
  | cons c cs ih =>
      rw [lineStartsAfter, ih, List.flatMap_cons]
      rcases charUnits_cases c with
        ⟨hwidth, hunits, -⟩ | ⟨hwidth, hne, high, low, hunits, hhigh, hlow⟩
      · rw [hunits, hwidth, List.singleton_append, LineTable.startsAfter]
        simp only [toNat_eq_lineFeed_iff]
        rfl
      · have hfeed : lineFeed ∉ charUnits c := by
          simp [hunits, hhigh.ne_lineFeed.symm, hlow.ne_lineFeed.symm]
        rw [if_neg hne, LineTable.startsAfter_append, LineTable.startsAfter_of_notMem hfeed,
          length_charUnits, List.nil_append]

/-- The line starts of a source are those of its units. -/
theorem lineStarts_eq_starts : source.lineStarts = LineTable.starts (units source.text) :=
  congrArg (0 :: ·) (lineStartsAfter_eq_startsAfter 0 source.text.toList)

end Source

/-! ## Order and boundaries -/

namespace LineTable

variable {units : List Nat}

/-- Positions never go back as the offset grows. -/
theorem noLater_lookup {offset later : Int} (h : offset ≤ later) :
    (lookup units offset).NoLater (lookup units later) := by
  obtain ⟨more, hmore⟩ := exists_unitsBefore_append units h
  rw [lookup_eq_counted, lookup_eq_counted, hmore]
  exact Position.noLater_counted_append _ more

/-- Positions move on from every boundary. -/
theorem before_lookup {offset later : Nat} (hoffset : IsBoundary units offset)
    (hlater : later ≤ units.length) (h : offset < later) :
    (lookup units offset).Before (lookup units later) := by
  have hlt : offset < units.length := by omega
  have hsplit : units.take later =
      units.take offset ++ units[offset] :: (units.take later).drop (offset + 1) := by
    have htake : offset < (units.take later).length := by
      rw [List.length_take]
      omega
    have hcut := List.take_append_drop offset (units.take later)
    rw [List.take_take, min_eq_left h.le, List.drop_eq_getElem_cons htake,
      List.getElem_take] at hcut
    exact hcut.symm
  rw [lookup_eq_counted, lookup_eq_counted, unitsBefore_eq_take, unitsBefore_eq_take,
    Int.toNat_natCast, Int.toNat_natCast, hsplit]
  exact Position.before_counted_append (hoffset.2 _ (by simp))

/-- Different boundaries have different positions. -/
theorem lookup_inj {offset other : Nat} (hoffset : IsBoundary units offset)
    (hother : IsBoundary units other)
    (hline : (lookup units offset).line = (lookup units other).line)
    (hcolumn : (lookup units offset).column = (lookup units other).column) : offset = other := by
  rcases Nat.lt_trichotomy offset other with hlt | heq | hgt
  · have := before_lookup hoffset hother.1 hlt
    unfold Position.Before at this
    omega
  · exact heq
  · have := before_lookup hother hoffset.1 hgt
    unfold Position.Before at this
    omega

/-- The position that the table gives for an offset is found by counting: it has the offset clamped
to the units, one line more than the line feeds before it, and one column more than the code points
from the last of them on. Line and column never go back as the offset grows, and two boundaries
that share both are the same. For a source the table is the one it carries, its positions are
those looked up in it, and the boundaries are the offsets between its characters. -/
theorem lookup_counts (units : List Nat) :
    (∀ offset : Int,
      (lookup units offset).offset = max 0 (min offset units.length) ∧
      (lookup units offset).line = 1 + (unitsBefore units offset).count lineFeed ∧
      (lookup units offset).column = 1 + codePoints (lastLine (unitsBefore units offset))) ∧
    (∀ offset later : Int, offset ≤ later → (lookup units offset).NoLater (lookup units later)) ∧
    (∀ offset other : Nat, IsBoundary units offset → IsBoundary units other →
      (lookup units offset).line = (lookup units other).line →
      (lookup units offset).column = (lookup units other).column → offset = other) ∧
    ∀ source : Source, Text.units source.text = units →
      source.lineStarts = starts units ∧
      (∀ offset, source.positionAt offset = lookup units offset) ∧
      ∀ offset : Nat, IsBoundary units offset ↔
        ∃ front back, source.text.toList = front ++ back ∧ (offset : Int) = extent front := by
  refine ⟨?_, fun _ _ => noLater_lookup, fun _ _ => lookup_inj, ?_⟩
  · intro offset
    rw [lookup_eq_counted]
    exact ⟨length_unitsBefore units offset, rfl, rfl⟩
  · rintro source rfl
    exact ⟨source.lineStarts_eq_starts, source.positionAt_eq_lookup,
      isBoundary_flatMap_iff source.text.toList⟩

/-- A text with a character of two units, an empty line and a line feed at its end. -/
def smile : Source := ⟨"smile", "a😀\n\nb\n"⟩

/-- Inside the character the column is already that of the place after it, which is why only
boundaries are told apart. Offsets outside the text count as its ends. -/
theorem lookup_counts_smile :
    IsBoundary (Text.units smile.text) 3 ∧ ¬IsBoundary (Text.units smile.text) 2 ∧
    smile.positionAt 2 = ⟨1, 3, 2⟩ ∧ smile.positionAt 3 = ⟨1, 3, 3⟩ ∧
    smile.positionAt 5 = ⟨3, 1, 5⟩ ∧
    smile.positionAt (-4) = ⟨1, 1, 0⟩ ∧ smile.positionAt 99 = ⟨4, 1, 7⟩ ∧
    (smile.positionAt 3).NoLater (smile.positionAt 5) ∧
    (∀ other : Nat, IsBoundary (Text.units smile.text) other →
      (smile.positionAt other).line = 1 → (smile.positionAt other).column = 3 → other = 3) := by
  obtain ⟨-, hmonotone, hinjective, hsources⟩ := lookup_counts (Text.units smile.text)
  obtain ⟨-, hpositions, -⟩ := hsources smile rfl
  have hthree : IsBoundary (Text.units smile.text) 3 := by decide +kernel
  have hposition : smile.positionAt 3 = ⟨1, 3, 3⟩ := by decide +kernel
  refine ⟨hthree, by decide +kernel, by decide +kernel, hposition, by decide +kernel,
    by decide +kernel, by decide +kernel, ?_, ?_⟩
  · rw [hpositions, hpositions]
    exact hmonotone 3 5 (by decide)
  · intro other hother hline hcolumn
    rw [hpositions] at hline hcolumn hposition
    refine hinjective other 3 hother hthree ?_ ?_
    · exact hline.trans (congrArg Position.line hposition).symm
    · exact hcolumn.trans (congrArg Position.column hposition).symm

end LineTable

end LolMarkup
