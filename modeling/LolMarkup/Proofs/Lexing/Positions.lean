import LolMarkup.Proofs.Lexing.Tiling

/-!
# Positions of a text

The position at an offset where no character is cut in two is the position after the characters
before it (`Source.positionAt_extent`). `Source.HasPosition` says that a position is such a one. Of
two of them the one with the lower offset comes first by line and column
(`Source.HasPosition.before`). The tokens of a source stand between such positions
(`Source.locate`), one after another (`Source.sorted_tokens`).
-/

namespace LolMarkup

open Lexing

/-- Seeking as many units as some characters take leads to the position after them. -/
theorem Position.seek_extent (p : Position) (cs ds : List Char) :
    p.seek (cs ++ ds) (Text.extent cs).toNat = p.after cs := by
  induction cs generalizing p with
  | nil => cases ds <;> rfl
  | cons c cs ih =>
      have hwidth := Text.width_pos c
      have hrest := Text.extent_nonneg cs
      have hdistance : (Text.extent (c :: cs)).toNat = Text.width c + (Text.extent cs).toNat := by
        rw [Text.extent_cons]
        omega
      show p.seek (c :: (cs ++ ds)) _ = (p.advance c).after cs
      rw [hdistance, seek, if_neg (by omega), if_pos (by omega), Nat.add_sub_cancel_left]
      exact ih (p.advance c)

/-- The first of some segments is a token if it has a lexeme, and the others follow it. -/
theorem Scan.placed_cons (position : Position) (segment : Segment) (segments : List Segment) :
    placed position (segment :: segments) =
      (segment.lexeme.map (⟨·, position, position.after segment.chars⟩)).toList ++
        placed (position.after segment.chars) segments := by
  simp only [placed]
  cases segment.lexeme <;> rfl

/-- The tokens of segments stand one after another. -/
theorem Scan.placed_sorted (position : Position) (segments : List Segment) :
    (placed position segments).Pairwise
        (fun first second => first.stop.offset ≤ second.start.offset) ∧
      ∀ token ∈ placed position segments, position.offset ≤ token.start.offset := by
  induction segments generalizing position with
  | nil => exact ⟨.nil, by simp [placed]⟩
  | cons segment segments ih =>
      obtain ⟨hsorted, hlater⟩ := ih (position.after segment.chars)
      have hextent := Text.extent_nonneg segment.chars
      have hoffset := position.offset_after segment.chars
      have hstart : ∀ token ∈ placed (position.after segment.chars) segments,
          position.offset ≤ token.start.offset := by
        intro token hmem
        have hnext := hlater token hmem
        omega
      rw [placed_cons]
      cases segment.lexeme with
      | none => exact ⟨hsorted, hstart⟩
      | some lexeme =>
          refine ⟨List.pairwise_cons.mpr ⟨hlater, hsorted⟩, ?_⟩
          intro token hmem
          rcases List.mem_cons.mp hmem with rfl | hmem
          · exact Int.le_refl _
          · exact hstart token hmem

namespace Source

variable {source : Source} {p q : Position}

/-- The position at the offset after some characters is the one reached after them. -/
theorem positionAt_extent {front back : List Char} (h : source.text.toList = front ++ back) :
    source.positionAt (Text.extent front) = reached front := by
  rw [positionAt, h]
  exact Position.seek_extent .origin front back

/-- The position is the one at its own offset in the text, and no character is cut in two there. -/
structure HasPosition (source : Source) (p : Position) : Prop where
  eq : p = source.positionAt p.offset
  boundary : ∃ front back, source.text.toList = front ++ back ∧ p.offset = Text.extent front

/-- What is reached after some characters of a text is a position of it. -/
theorem hasPosition_reached {front back : List Char} (h : source.text.toList = front ++ back) :
    source.HasPosition (reached front) where
  eq := by rw [offset_reached, positionAt_extent h]
  boundary := ⟨front, back, h, offset_reached front⟩

/-- A position of a text is reached after the characters before it. -/
theorem HasPosition.reached (h : source.HasPosition p) :
    ∃ front back, source.text.toList = front ++ back ∧ p = Lexing.reached front := by
  obtain ⟨front, back, htext, hoffset⟩ := h.boundary
  refine ⟨front, back, htext, ?_⟩
  rw [h.eq, hoffset, positionAt_extent htext]

/-- A position of a text lies in it or at its end. -/
theorem HasPosition.bounds (h : source.HasPosition p) :
    0 ≤ p.offset ∧ p.offset ≤ Text.extent source.text.toList := by
  obtain ⟨front, back, htext, hoffset⟩ := h.boundary
  have hfront := Text.extent_nonneg front
  have hback := Text.extent_nonneg back
  rw [hoffset, htext, Text.extent_append]
  omega

/-- The position with the lower offset comes first by line and column. -/
theorem HasPosition.before (hp : source.HasPosition p) (hq : source.HasPosition q)
    (h : p.offset < q.offset) : p.Before q := by
  obtain ⟨front, back, htext, rfl⟩ := hp.reached
  obtain ⟨longer, rest, htext', rfl⟩ := hq.reached
  rw [offset_reached, offset_reached] at h
  have hfront : front <+: source.text.toList := ⟨back, htext.symm⟩
  have hlonger : longer <+: source.text.toList := ⟨rest, htext'.symm⟩
  rcases List.prefix_or_prefix_of_prefix hfront hlonger with ⟨more, rfl⟩ | ⟨more, rfl⟩
  · have hne : more ≠ [] := by
      intro hnil
      rw [hnil, List.append_nil] at h
      omega
    rw [reached_append]
    exact Position.before_after _ hne
  · have hmore := Text.extent_nonneg more
    rw [Text.extent_append] at h
    omega

/-- The token stands in the text: from its start to its end there are characters that are written
for its lexeme. -/
def Writes (source : Source) (token : Token) : Prop :=
  ∃ front chars back, source.text.toList = front ++ chars ++ back ∧
    token.start = Lexing.reached front ∧ token.stop = Lexing.reached (front ++ chars) ∧
    Spells back token.lexeme chars

/-- Every token of a source stands in the text, and not before the end of those in front of it. -/
theorem locate {before after : List Token} {token : Token}
    (h : source.scan.tokens = before ++ token :: after) :
    source.Writes token ∧ (resumed .origin before).offset ≤ token.start.offset := by
  have htiling : Tiling [] _ source.scan.tokens source.scan.ending :=
    Scan.tiling source.text.toList
  obtain ⟨passed, gap, chars, back, htext, hresumed, hstart, hstop, -, -, hspells⟩ :=
    htiling.locate h
  rw [List.nil_append] at hstart hstop
  refine ⟨⟨passed ++ gap, chars, back, htext, hstart, hstop, hspells⟩, ?_⟩
  have hgap := Text.extent_nonneg gap
  have hoffset : (resumed .origin before).offset = Text.extent passed :=
    (congrArg Position.offset hresumed).trans (offset_reached _)
  rw [hoffset, hstart, offset_reached, Text.extent_append]
  omega

namespace Writes

variable {token : Token}

/-- A token starts at a position of the text. -/
theorem start (h : source.Writes token) : source.HasPosition token.start := by
  obtain ⟨front, chars, back, htext, hstart, -, -⟩ := h
  rw [hstart]
  exact hasPosition_reached (by rw [htext, List.append_assoc])

/-- A token ends at a position of the text. -/
theorem stop (h : source.Writes token) : source.HasPosition token.stop := by
  obtain ⟨front, chars, back, htext, -, hstop, -⟩ := h
  rw [hstop]
  exact hasPosition_reached htext

/-- A token ends after it starts. -/
theorem advances (h : source.Writes token) : token.start.offset < token.stop.offset := by
  obtain ⟨front, chars, back, -, hstart, hstop, hspells⟩ := h
  have hchars := Text.extent_pos hspells.ne_nil
  rw [hstart, hstop, offset_reached, offset_reached, Text.extent_append]
  omega

/-- The text between start and end of a token is written for its lexeme. -/
theorem slice (h : source.Writes token) :
    ∃ back, Spells back token.lexeme
      (Text.slice token.start.offset token.stop.offset source.text.toList) := by
  obtain ⟨front, chars, back, htext, hstart, hstop, hspells⟩ := h
  refine ⟨back, ?_⟩
  rwa [Text.slice_eq front chars back htext (by rw [hstart, offset_reached])
    (by rw [hstop, offset_reached])]

end Writes

/-- The tokens of a source stand one after another. -/
theorem sorted_tokens (source : Source) :
    source.scan.tokens.Pairwise (fun first second => first.stop.offset ≤ second.start.offset) :=
  (Scan.placed_sorted .origin _).1

/-- Two tokens are apart in the text, and the tokens between them lie between them there. -/
theorem between_tokens {before inner after : List Token} {opening closing : Token}
    (h : source.scan.tokens = before ++ opening :: (inner ++ closing :: after)) :
    opening.stop.offset ≤ closing.start.offset ∧
      ∀ token ∈ inner, opening.stop.offset ≤ token.start.offset ∧
        token.stop.offset ≤ closing.start.offset := by
  have hsorted := source.sorted_tokens
  rw [h, List.pairwise_append] at hsorted
  obtain ⟨hopening, hrest⟩ := List.pairwise_cons.mp hsorted.2.1
  have hclosing := (List.pairwise_append.mp hrest).2.2
  refine ⟨hopening closing (by simp), fun token hmem => ?_⟩
  exact ⟨hopening token (List.mem_append_left _ hmem), hclosing token hmem closing (by simp)⟩

end Source

end LolMarkup
