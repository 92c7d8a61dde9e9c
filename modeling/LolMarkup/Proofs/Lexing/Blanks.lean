import LolMarkup.Proofs.Lexing.Writing

/-!
# Blank characters around segments

`Segmentation.content` is what the segments of a text say: their lexemes, and the fault that ends
them. Spaces and tabs say nothing wherever they stand between two segments, and other blank
characters say nothing at the end of a line (`Lexing.Idle`, `Segmentation.content_idle`). They may
also become part of the segment before them, without a change to its lexeme
(`Segmentation.content_idle_segment`): a segment that is not free text stays the same before
anything that does not start with a letter or digit (`Segment.first_closed`), and free text is
trimmed (`Segment.lexeme_ofFree_append`).
-/

namespace LolMarkup

namespace Text

/-- Blank characters at the end of a text are trimmed. -/
theorem trim_append_blank {blanks : List Char} (cs : List Char)
    (h : ∀ c ∈ blanks, isBlank c = true) : trim (cs ++ blanks) = trim cs := by
  unfold trim
  rw [List.dropWhile_append]
  split
  · next hblank =>
      rw [List.isEmpty_iff.mp hblank, List.dropWhile_eq_nil_iff.mpr h]
  · exact trimEnd_append_blank _ h

/-- Nothing is left of blank characters when they are trimmed. -/
theorem trim_of_blank {blanks : List Char} (h : ∀ c ∈ blanks, isBlank c = true) :
    trim blanks = [] := by
  have hnil := trim_append_blank [] h
  rwa [List.nil_append] at hnil

end Text

namespace Lexing

/-- A `#` is not blank. -/
theorem ne_hash_of_isBlank {c : Char} (h : Text.isBlank c = true) : c ≠ '#' := by
  intro hhash
  rw [hhash] at h
  exact absurd h (by decide)

/-- A letter is not blank. -/
theorem not_isAlpha_of_isBlank {c : Char} (h : Text.isBlank c = true) : c.isAlpha = false :=
  not_isAlpha_of_not_accepted (.inr (not_isAlphanum_of_isBlank h))

/-- Blank characters other than line feeds may stand in free text. -/
theorem isFree_of_isBlank {c : Char} (h : Text.isBlank c = true) (hline : c ≠ '\n') :
    Segment.isFree c = true := by
  simp [Segment.isFree, hline, ne_hash_of_isBlank h]

/-- Where letters and digits stop, letters do. -/
theorem Stops.isAlpha {after : List Char} (h : Stops Char.isAlphanum after) :
    Stops Char.isAlpha after :=
  fun c hc => not_isAlpha_of_not_accepted (.inr (h c hc))

/-- A class stops at a character that is not in it. -/
theorem stops_cons {accept : Char → Bool} {c : Char} (h : accept c = false) (cs : List Char) :
    Stops accept (c :: cs) := by
  intro d hd
  cases hd
  exact h

/-- A run up to the end of the characters in front does not go on over what stops it. -/
theorem takeWhile_append_stops {accept : Char → Bool} {after : List Char} (front : List Char)
    (h : Stops accept after) :
    (front ++ after).takeWhile accept = front.takeWhile accept := by
  rw [List.takeWhile_append, takeWhile_of_stops h, List.append_nil]
  split
  · next hall => exact (List.IsPrefix.eq_of_length (List.takeWhile_prefix _) hall).symm
  · rfl

/-- The characters are blank, stand on one line and are not seen before what follows: they are
spaces and tabs, or the line ends after them. -/
structure Idle (run after : List Char) : Prop where
  blank : ∀ c ∈ run, Text.isBlank c = true ∧ c ≠ '\n'
  quiet : (∀ c ∈ run, Segment.isSeparator c = true) ∨ after.head? = some '\n'

/-- Spaces and tabs are idle before anything. -/
theorem idle_of_separators {run : List Char} (h : ∀ c ∈ run, Segment.isSeparator c = true)
    (after : List Char) : Idle run after :=
  ⟨fun c hc => Segment.blank_of_isSeparator (h c hc), .inl h⟩

namespace Idle

variable {run after : List Char}

/-- Idle characters may stand in free text. -/
theorem isFree (h : Idle run after) : ∀ c ∈ run, Segment.isFree c = true :=
  fun c hc => isFree_of_isBlank (h.blank c hc).1 (h.blank c hc).2

/-- Words stop before idle characters. -/
theorem stops (h : Idle run after) (hne : run ≠ []) : Stops Char.isAlphanum (run ++ after) := by
  cases run with
  | nil => exact absurd rfl hne
  | cons c run => exact stops_cons (not_isAlphanum_of_isBlank (h.blank c List.mem_cons_self).1) _

/-- Spaces and tabs in front of idle characters are idle with them. -/
theorem append {front : List Char} (hfront : ∀ c ∈ front, Segment.isSeparator c = true)
    (h : Idle run after) : Idle (front ++ run) after := by
  constructor
  · intro c hc
    rcases List.mem_append.mp hc with hc | hc
    · exact Segment.blank_of_isSeparator (hfront c hc)
    · exact h.blank c hc
  · rcases h.quiet with hquiet | hquiet
    · left
      intro c hc
      rcases List.mem_append.mp hc with hc | hc
      · exact hfront c hc
      · exact hquiet c hc
    · exact .inr hquiet

end Idle

end Lexing

open Lexing

namespace Segment

/-- What a segment can start with: each start is cut in a way of its own. -/
inductive Start (c : Char) : Prop where
  | separator (h : isSeparator c = true)
  | newline (h : c = '\n')
  | hash (h : c = '#')
  | letter (h : c.isAlpha = true)
  | free (hseparator : isSeparator c = false) (hline : c ≠ '\n') (hhash : c ≠ '#')
      (hletter : c.isAlpha = false)

/-- Every character starts a segment in one of these ways. -/
theorem start (c : Char) : Start c := by
  by_cases hseparator : isSeparator c = true
  · exact .separator hseparator
  by_cases hline : c = '\n'
  · exact .newline hline
  by_cases hhash : c = '#'
  · exact .hash hhash
  by_cases hletter : c.isAlpha = true
  · exact .letter hletter
  · exact .free (Bool.eq_false_iff.mpr hseparator) hline hhash (Bool.eq_false_iff.mpr hletter)

variable {c : Char} {tail run after other : List Char} {segment : Segment}

/-- Spaces and tabs are a gap as far as they go. -/
theorem first_separator (h : isSeparator c = true) (cs : List Char) :
    first c cs = .ok ⟨c :: cs.takeWhile isSeparator, none⟩ := by
  rw [first, if_pos h]

/-- A line feed is a newline of its own. -/
theorem first_newline (cs : List Char) : first '\n' cs = .ok ⟨['\n'], some .newline⟩ := rfl

/-- What starts with a `#` is cut as a hash word or a comment. -/
theorem first_hash (cs : List Char) : first '#' cs = ofHash cs := rfl

/-- A letter starts a word that goes on with letters and digits. -/
theorem first_letter (h : c.isAlpha = true) (cs : List Char) :
    first c cs = .ok (ofWord (c :: cs.takeWhile Char.isAlphanum)) := by
  have hseparator := Segmentation.not_isSeparator_of_isAlpha h
  have hline : c ≠ '\n' := by
    intro hc
    rw [hc] at h
    exact absurd h (by decide)
  have hhash : c ≠ '#' := by
    intro hc
    rw [hc] at h
    exact absurd h (by decide)
  rw [first, if_neg (Bool.eq_false_iff.mp hseparator), if_neg hline, if_neg hhash, if_pos h]

/-- Free text is taken up to something at which it stops. -/
theorem first_free (hseparator : isSeparator c = false) (hline : c ≠ '\n') (hhash : c ≠ '#')
    (hletter : c.isAlpha = false) (hrun : ∀ d ∈ run, isFree d = true)
    (hstops : Stops isFree after) :
    first c (run ++ after) = .ok (ofFree (c :: run)) := by
  rw [first, if_neg (Bool.eq_false_iff.mp hseparator), if_neg hline, if_neg hhash,
    if_neg (Bool.eq_false_iff.mp hletter), takeWhile_run hrun hstops]

/-- A segment other than spaces and free text is the same before anything that does not start with
a letter or digit. -/
theorem first_closed (hc : c = '\n' ∨ c = '#' ∨ c.isAlpha = true)
    (hother : Stops Char.isAlphanum other) (h : first c (tail ++ after) = .ok segment)
    (hchars : segment.chars = c :: tail) : first c (tail ++ other) = .ok segment := by
  rcases hc with rfl | rfl | hletter
  · exact h
  · exact ofHash_swap (fun _ => hother.isAlpha) h hchars
  · rw [first_letter hletter] at h ⊢
    cases h
    rw [chars_ofWord] at hchars
    have htail := (List.cons.inj hchars).2
    rw [htail, takeWhile_swap (fun _ => hother) htail]

/-- Without a `#` in front there are no faults. -/
theorem exists_first_of_ne_hash (hhash : c ≠ '#') (cs : List Char) :
    ∃ segment, first c cs = .ok segment := by
  unfold first
  rw [if_neg hhash]
  split
  · exact ⟨_, rfl⟩
  split
  · exact ⟨_, rfl⟩
  split
  · exact ⟨_, rfl⟩
  · exact ⟨_, rfl⟩

/-- A segment that starts at no `#` has no `#` and no newline after its first character. -/
theorem plain_of_first {cs : List Char} (hhash : c ≠ '#') (hfirst : first c cs = .ok segment)
    (hchars : segment.chars = c :: tail) : ∀ d ∈ tail, d ≠ '#' ∧ d ≠ '\n' := by
  have hrun {accept : Char → Bool} (haccept : accept '#' = false ∧ accept '\n' = false)
      (htail : cs.takeWhile accept = tail) : ∀ d ∈ tail, d ≠ '#' ∧ d ≠ '\n' := by
    intro d hd
    rw [← htail] at hd
    have htaken : accept d = true := List.mem_takeWhile_imp hd
    constructor
    · intro hd
      rw [hd, haccept.1] at htaken
      cases htaken
    · intro hd
      rw [hd, haccept.2] at htaken
      cases htaken
  rcases Segment.start c with hc | hc | hc | hc | ⟨hseparator, hline, -, hletter⟩
  · rw [first_separator hc] at hfirst
    cases hfirst
    exact hrun (by decide) (List.cons.inj hchars).2
  · subst hc
    cases hfirst
    rw [← (List.cons.inj hchars).2]
    exact List.forall_mem_nil _
  · exact absurd hc hhash
  · rw [first_letter hc] at hfirst
    cases hfirst
    rw [chars_ofWord] at hchars
    exact hrun (by decide) (List.cons.inj hchars).2
  · rw [first, if_neg (Bool.eq_false_iff.mp hseparator), if_neg hline, if_neg hhash,
      if_neg (Bool.eq_false_iff.mp hletter)] at hfirst
    cases hfirst
    rw [chars_ofFree] at hchars
    exact hrun (by decide) (List.cons.inj hchars).2

/-- Blank characters at the end of free text do not change its lexeme. -/
theorem lexeme_ofFree_append {blanks : List Char} (chars : List Char)
    (h : ∀ d ∈ blanks, Text.isBlank d = true) :
    (ofFree (chars ++ blanks)).lexeme = (ofFree chars).lexeme := by
  unfold ofFree
  rw [Text.trim_append_blank chars h]
  dsimp only
  split <;> rfl

/-- Free text that is all blank is no lexeme. -/
theorem lexeme_ofFree_of_blank {blanks : List Char} (h : ∀ d ∈ blanks, Text.isBlank d = true) :
    (ofFree blanks).lexeme = none := by
  unfold ofFree
  rw [Text.trim_of_blank h]
  rfl

/-- A comment goes on over characters at none of which it is closed. -/
theorem comment_append {front : List Char} (cs : List Char)
    (h : ∀ before back, front = before ++ '#' :: back →
      upper ((back ++ cs).takeWhile Char.isAlpha) ≠ "TLDR") :
    comment (front ++ cs) = (comment cs).map (front ++ ·) := by
  induction front with
  | nil =>
      rw [List.nil_append]
      cases comment cs <;> rfl
  | cons c front ih =>
      have hopen : ¬ (c = '#' ∧ upper ((front ++ cs).takeWhile Char.isAlpha) = "TLDR") := by
        intro hclose
        exact h [] front (by rw [hclose.1, List.nil_append]) hclose.2
      have hrest := ih fun before back hfront => h (c :: before) back (by rw [hfront]; rfl)
      rw [List.cons_append, comment, if_neg hopen, hrest, Option.map_map]
      rfl

end Segment

namespace Segmentation

/-- What segments say: their lexemes, and the fault that ends them. -/
def content (cut : Segmentation) : List Lexeme × Option Fault :=
  (cut.lexemes, cut.fault)

/-- What a segment says comes before what the others say. -/
theorem content_cons (segment : Segment) (cut : Segmentation) :
    (cons segment cut).content =
      (segment.lexeme.toList ++ cut.content.1, cut.content.2) := by
  unfold content lexemes cons
  rw [List.filterMap_cons]
  cases segment.lexeme <;> rfl

/-- A gap in front says nothing. -/
theorem content_cons_gap (chars : List Char) (cut : Segmentation) :
    (cons ⟨chars, none⟩ cut).content = cut.content := rfl

/-- What segments in front say comes before what the others say. -/
theorem content_prepend (front : List Segment) (cut : Segmentation) :
    (prepend front cut).content =
      (front.filterMap Segment.lexeme ++ cut.content.1, cut.content.2) := by
  unfold content lexemes prepend
  rw [List.filterMap_append]

/-- A line feed in front is cut off alone. -/
theorem ofChars_newline (cs : List Char) :
    ofChars ('\n' :: cs) = cons ⟨['\n'], some .newline⟩ (ofChars cs) := by
  have hfirst : Segment.first '\n' ([] ++ cs) = .ok ⟨['\n'], some .newline⟩ :=
    Segment.first_newline cs
  exact ofChars_of_first hfirst rfl

/-- A line feed in front is a newline before all else. -/
theorem content_newline (cs : List Char) :
    (ofChars ('\n' :: cs)).content =
      (.newline :: (ofChars cs).content.1, (ofChars cs).content.2) := by
  rw [ofChars_newline, content_cons]
  rfl

/-- Spaces and tabs in front say nothing. -/
theorem content_dropWhile (cs : List Char) :
    (ofChars (cs.dropWhile Segment.isSeparator)).content = (ofChars cs).content := by
  cases cs with
  | nil => rfl
  | cons c cs =>
      rw [List.dropWhile_cons]
      split
      · next hseparator =>
          have hsplit := List.takeWhile_append_dropWhile (p := Segment.isSeparator) (l := cs)
          have hfirst : Segment.first c (cs.takeWhile Segment.isSeparator ++
              cs.dropWhile Segment.isSeparator) =
                .ok ⟨c :: cs.takeWhile Segment.isSeparator, none⟩ := by
            rw [hsplit]
            exact Segment.first_separator hseparator cs
          have hcut := ofChars_of_first hfirst rfl
          rw [List.cons_append, hsplit] at hcut
          rw [hcut, content_cons_gap]
      · rfl

/-- Spaces and tabs in front of a text say nothing. -/
theorem content_separators {run : List Char} (cs : List Char)
    (h : ∀ c ∈ run, Segment.isSeparator c = true) :
    (ofChars (run ++ cs)).content = (ofChars cs).content := by
  rw [← content_dropWhile, List.dropWhile_append_of_pos h, content_dropWhile]

/-- Free text that is all blank says nothing. -/
theorem content_free {c : Char} {run after : List Char} (hseparator : Segment.isSeparator c = false)
    (hblank : ∀ d ∈ c :: run, Text.isBlank d = true ∧ d ≠ '\n')
    (hafter : Stops Segment.isFree after) :
    (ofChars (c :: run ++ after)).content = (ofChars after).content := by
  obtain ⟨hc, hline⟩ := hblank c List.mem_cons_self
  have hrun : ∀ d ∈ run, Segment.isFree d = true := by
    intro d hd
    obtain ⟨hd, hdline⟩ := hblank d (List.mem_cons_of_mem c hd)
    exact isFree_of_isBlank hd hdline
  have hfirst := Segment.first_free hseparator hline (ne_hash_of_isBlank hc)
    (not_isAlpha_of_isBlank hc) hrun hafter
  have hcut := ofChars_of_first hfirst (Segment.chars_ofFree _)
  rw [Segment.chars_ofFree] at hcut
  rw [hcut, content_cons, Segment.lexeme_ofFree_of_blank fun d hd => (hblank d hd).1]
  rfl

/-- Blank characters that are not seen say nothing in front of what follows. -/
theorem content_idle {run after : List Char} (h : Idle run after) :
    (ofChars (run ++ after)).content = (ofChars after).content := by
  rcases h.quiet with hseparators | hnewline
  · exact content_separators after hseparators
  · obtain ⟨more, rfl⟩ := List.head?_eq_some_iff.mp hnewline
    have hstops : Stops Segment.isFree ('\n' :: more) := stops_cons (by decide) more
    -- spaces and tabs are a gap, and the rest of the run is free text
    have hsplit := List.takeWhile_append_dropWhile (p := Segment.isSeparator) (l := run)
    have hspaces : ∀ c ∈ run.takeWhile Segment.isSeparator, Segment.isSeparator c = true :=
      fun c hc => List.mem_takeWhile_imp hc
    rw [← hsplit, List.append_assoc, content_separators _ hspaces]
    have hrest : ∀ c ∈ run.dropWhile Segment.isSeparator, Text.isBlank c = true ∧ c ≠ '\n' :=
      fun c hc => h.blank c ((List.dropWhile_sublist _).mem hc)
    cases hdrop : run.dropWhile Segment.isSeparator with
    | nil => rfl
    | cons c rest =>
        have hseparator : Segment.isSeparator c = false :=
          stops_dropWhile Segment.isSeparator run c (by rw [hdrop]; rfl)
        rw [hdrop] at hrest
        exact content_free hseparator hrest hstops

/-- Blank characters that are not seen after a segment do not change what it says. -/
theorem content_idle_segment {c : Char} {tail run after : List Char} {segment : Segment}
    (hfirst : Segment.first c (tail ++ after) = .ok segment) (hchars : segment.chars = c :: tail)
    (hrun : Idle run after) :
    (ofChars (segment.chars ++ (run ++ after))).content =
      (cons segment (ofChars after)).content := by
  by_cases hne : run = []
  · rw [hne, List.nil_append, ofChars_of_first hfirst hchars]
  have hclosed (hc : c = '\n' ∨ c = '#' ∨ c.isAlpha = true) :
      (ofChars (segment.chars ++ (run ++ after))).content =
        (cons segment (ofChars after)).content := by
    have hsame := Segment.first_closed hc (hrun.stops hne) hfirst hchars
    rw [ofChars_of_first hsame hchars, content_cons, content_cons, content_idle hrun]
  rcases Segment.start c with hc | hc | hc | hc | ⟨hseparator, hline, hhash, hletter⟩
  · -- the gap goes on, at least up to the last of its spaces and tabs
    rw [Segment.first_separator hc] at hfirst
    cases hfirst
    have hspaces : ∀ d ∈ c :: tail, Segment.isSeparator d = true := by
      intro d hd
      rcases List.mem_cons.mp hd with rfl | hd
      · exact hc
      · exact (run_of_takeWhile (List.cons.inj hchars).2).1 d hd
    rw [hchars, ← List.append_assoc, content_idle (hrun.append hspaces), content_cons_gap]
  · exact hclosed (.inl hc)
  · exact hclosed (.inr (.inl hc))
  · exact hclosed (.inr (.inr hc))
  · -- the blank characters become the end of the free text
    have htaken : (tail ++ after).takeWhile Segment.isFree = tail := by
      rw [Segment.first, if_neg (Bool.eq_false_iff.mp hseparator), if_neg hline, if_neg hhash,
        if_neg (Bool.eq_false_iff.mp hletter)] at hfirst
      cases hfirst
      rw [Segment.chars_ofFree] at hchars
      exact (List.cons.inj hchars).2
    obtain ⟨htail, hstops⟩ := run_of_takeWhile htaken
    have hold := Segment.first_free hseparator hline hhash hletter htail hstops
    obtain rfl : Segment.ofFree (c :: tail) = segment := Except.ok.inj (hold.symm.trans hfirst)
    have hfree : ∀ d ∈ tail ++ run, Segment.isFree d = true := by
      intro d hd
      rcases List.mem_append.mp hd with hd | hd
      · exact htail d hd
      · exact hrun.isFree d hd
    have hnew := Segment.first_free hseparator hline hhash hletter hfree hstops
    have hcut := ofChars_of_first hnew (Segment.chars_ofFree _)
    rw [Segment.chars_ofFree, ← List.cons_append, List.append_assoc] at hcut
    rw [hchars, hcut, content_cons, content_cons,
      Segment.lexeme_ofFree_append _ fun d hd => (hrun.blank d hd).1]

end Segmentation

end LolMarkup
