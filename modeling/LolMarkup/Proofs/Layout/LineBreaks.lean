import LolMarkup.Proofs.Layout.Content
import LolMarkup.Proofs.Lexing.Blanks

/-!
# Writing the line breaks of a text in another way

A line break may be written with white space before it, as several breaks, or with the next line
indented. What a `#` starts is decided before the break, unless it is a comment that goes on over
the break (`Segment.hashEnd`); all other segments end before it. So two texts that differ in one
line break say the same, but for the number of newlines in a row (`Segmentation.collapsed_break`),
and so do texts that differ in many (`rebroken_agree`).
-/

namespace LolMarkup

namespace Lexing

/-- The characters are a line break with white space around it: blank characters with a newline
among them, and only spaces and tabs after the last one. -/
def IsBreak (chars : List Char) : Prop :=
  ∃ blanks indent, chars = blanks ++ '\n' :: indent ∧ (∀ c ∈ blanks, Text.isBlank c = true) ∧
    ∀ c ∈ indent, Segment.isSeparator c = true

/-- A text and the same text with some of its newlines written as other line breaks. -/
inductive Rebroken : List Char → List Char → Prop where
  | nil : Rebroken [] []
  | keep (c : Char) {cs ds : List Char} : Rebroken cs ds → Rebroken (c :: cs) (c :: ds)
  | rebreak {chars cs ds : List Char} : IsBreak chars → Rebroken cs ds →
      Rebroken ('\n' :: cs) (chars ++ ds)

/-- Characters in front may stay as they are. -/
theorem Rebroken.keeps (front : List Char) {cs ds : List Char} (h : Rebroken cs ds) :
    Rebroken (front ++ cs) (front ++ ds) := by
  induction front with
  | nil => exact h
  | cons c front ih => exact .keep c ih

/-- The characters start with a line break. -/
def Broken (after : List Char) : Prop :=
  ∃ chars back, IsBreak chars ∧ after = chars ++ back

variable {chars after : List Char}

/-- A line feed alone is a line break. -/
theorem isBreak_newline : IsBreak ['\n'] :=
  ⟨[], [], rfl, by simp, by simp⟩

/-- What starts with a line feed is broken there. -/
theorem broken_newline (back : List Char) : Broken ('\n' :: back) :=
  ⟨['\n'], back, isBreak_newline, rfl⟩

/-- A line break is made of blank characters. -/
theorem IsBreak.blank (h : IsBreak chars) : ∀ c ∈ chars, Text.isBlank c = true := by
  obtain ⟨blanks, indent, rfl, hblanks, hindent⟩ := h
  intro c hc
  rcases List.mem_append.mp hc with hc | hc
  · exact hblanks c hc
  · rcases List.mem_cons.mp hc with rfl | hc
    · decide
    · exact (Segment.blank_of_isSeparator (hindent c hc)).1

/-- There is a line feed in every line break. -/
theorem IsBreak.newline_mem (h : IsBreak chars) : '\n' ∈ chars := by
  obtain ⟨blanks, indent, rfl, -, -⟩ := h
  exact List.mem_append_right blanks List.mem_cons_self

/-- A line break has its first newline after blank characters that are not seen. -/
theorem IsBreak.split (h : IsBreak chars) :
    ∃ run more, chars = run ++ '\n' :: more ∧ ∀ back, Idle run ('\n' :: back) := by
  obtain ⟨run, more, hchars, hrun⟩ := List.eq_append_cons_of_mem h.newline_mem
  refine ⟨run, more, hchars, fun back => ⟨?_, .inr rfl⟩⟩
  intro c hc
  refine ⟨h.blank c (by rw [hchars]; exact List.mem_append_left _ hc), ?_⟩
  intro hline
  rw [hline] at hc
  exact hrun hc

/-- Words end before a line break. -/
theorem Broken.stops (h : Broken after) : Stops Char.isAlphanum after := by
  obtain ⟨chars, back, hbreak, rfl⟩ := h
  have hblank := hbreak.blank
  have hmem := hbreak.newline_mem
  cases chars with
  | nil => cases hmem
  | cons c chars => exact stops_cons (not_isAlphanum_of_isBlank (hblank c List.mem_cons_self)) _

/-- No letter follows the first space of a line break. -/
theorem Broken.stops_tail {c : Char} {more : List Char} (h : Broken (c :: more)) (hc : c ≠ '\n') :
    Stops Char.isAlpha more := by
  obtain ⟨chars, back, hbreak, hmore⟩ := h
  have hmem := hbreak.newline_mem
  have hblank := hbreak.blank
  cases chars with
  | nil => cases hmem
  | cons d chars =>
      obtain ⟨rfl, rfl⟩ := List.cons.inj hmore
      cases chars with
      | nil => exact absurd (List.mem_singleton.mp hmem).symm hc
      | cons e chars => exact stops_cons (not_isAlpha_of_isBlank (hblank e (by simp))) _

end Lexing

open Lexing

/-- The second word of a hash word is not empty. -/
theorem HashWord.ne_empty_of_partner? {first partner : String} (h : partner? first = some partner) :
    partner ≠ "" := by
  simp only [partner?, pairs, List.lookup] at h
  grind

namespace Segment

/-! ## What a hash starts before a line break -/

/-- A word that waits for a second one is spelled alone if a line break follows. -/
theorem spelling_of_waiting {first after : List Char} {partner : String}
    (hletters : ∀ c ∈ first, c.isAlpha = true)
    (hpartner : HashWord.partner? (upper first) = some partner) (hafter : Broken after) :
    (hashWord (first ++ after)).1 = upper first := by
  have hstops := hafter.stops.isAlpha
  simp only [hashWord, takeWhile_run hletters hstops, hpartner, dropWhile_run hletters hstops]
  split
  next more hsame =>
      cases hsame
      have hsecond := takeWhile_of_stops (hafter.stops_tail (by decide))
      rw [hsecond, if_neg]
      exact Ne.symm (HashWord.ne_empty_of_partner? hpartner)
  · rfl

/-- A hash word before a line break is decided before the break. Only a word that waits for a
second one can take a space from the break, and then it is unknown. -/
theorem hashWord_broken (front : List Char) :
    (∃ spelling, HashWord.ofSpelling? ("#" ++ spelling) = none ∧
      ∀ after, Broken after → (hashWord (front ++ after)).1 = spelling) ∨
    (∃ spelling chars rest, front = chars ++ rest ∧
      ∀ after, Broken after → hashWord (front ++ after) = (spelling, chars)) := by
  have hfirst (after : List Char) (hafter : Broken after) :
      (front ++ after).takeWhile Char.isAlpha = front.takeWhile Char.isAlpha :=
    takeWhile_append_stops front hafter.stops.isAlpha
  have hsplit := List.takeWhile_append_dropWhile (p := Char.isAlpha) (l := front)
  have hletters : ∀ c ∈ front.takeWhile Char.isAlpha, c.isAlpha = true :=
    fun c hc => List.mem_takeWhile_imp hc
  generalize front.takeWhile Char.isAlpha = first at *
  cases hpartner : HashWord.partner? (upper first) with
  | none =>
      refine .inr ⟨upper first, first, front.dropWhile Char.isAlpha, hsplit.symm, ?_⟩
      intro after hafter
      simp only [hashWord, hfirst after hafter, hpartner]
  | some partner =>
      cases hdrop : front.dropWhile Char.isAlpha with
      | nil =>
          -- the break comes where the second word should stand
          rw [hdrop, List.append_nil] at hsplit
          subst hsplit
          exact .inl ⟨upper first, HashWord.ofSpelling?_of_partner? hpartner,
            fun after hafter => spelling_of_waiting hletters hpartner hafter⟩
      | cons d rest =>
          have hrest (after : List Char) : (front ++ after).dropWhile Char.isAlpha =
              d :: (rest ++ after) := by
            have hstops : Stops Char.isAlpha (d :: rest ++ after) := by
              have hhead := stops_dropWhile Char.isAlpha front
              rw [hdrop] at hhead
              exact stops_cons (hhead d rfl) _
            rw [← hsplit, hdrop, List.append_assoc]
            exact dropWhile_run hletters hstops
          by_cases hspace : d = ' '
          · subst hspace
            have hsecond (after : List Char) (hafter : Broken after) :
                (rest ++ after).takeWhile Char.isAlpha = rest.takeWhile Char.isAlpha :=
              takeWhile_append_stops rest hafter.stops.isAlpha
            refine .inr ⟨if upper (rest.takeWhile Char.isAlpha) = partner then
                upper (first ++ ' ' :: rest.takeWhile Char.isAlpha) else upper first,
              first ++ ' ' :: rest.takeWhile Char.isAlpha, rest.dropWhile Char.isAlpha, ?_, ?_⟩
            · rw [List.append_assoc, List.cons_append, List.takeWhile_append_dropWhile, ← hdrop,
                hsplit]
            · intro after hafter
              simp only [hashWord, hfirst after hafter, hpartner, hrest after, hsecond after hafter]
          · refine .inr ⟨upper first, first, d :: rest, by rw [← hdrop, hsplit], ?_⟩
            intro after hafter
            simp only [hashWord, hfirst after hafter, hpartner, hrest after]
            split
            next hd => exact absurd (List.cons.inj hd).1 hspace
            · rfl

/-- A comment is closed before what stops letters, or goes on over it. -/
theorem comment_append_stops (front : List Char) :
    (∃ body rest, front = body ++ rest ∧
      ∀ after, Stops Char.isAlpha after → comment (front ++ after) = some body) ∨
    (∀ after, Stops Char.isAlpha after →
      comment (front ++ after) = (comment after).map (front ++ ·)) := by
  induction front with
  | nil =>
      right
      intro after _
      simp
  | cons c front ih =>
      have hword (after : List Char) (hafter : Stops Char.isAlpha after) :
          (front ++ after).takeWhile Char.isAlpha = front.takeWhile Char.isAlpha :=
        takeWhile_append_stops front hafter
      by_cases hclose : c = '#' ∧ upper (front.takeWhile Char.isAlpha) = "TLDR"
      · refine .inl ⟨c :: front.takeWhile Char.isAlpha, front.dropWhile Char.isAlpha, ?_, ?_⟩
        · rw [List.cons_append, List.takeWhile_append_dropWhile]
        · intro after hafter
          rw [List.cons_append, comment, hword after hafter, if_pos hclose]
      · have hnext (after : List Char) (hafter : Stops Char.isAlpha after) :
            comment (c :: front ++ after) = (comment (front ++ after)).map (c :: ·) := by
          rw [List.cons_append, comment, hword after hafter, if_neg hclose]
        rcases ih with ⟨body, rest, rfl, hbody⟩ | hopen
        · refine .inl ⟨c :: body, rest, rfl, ?_⟩
          intro after hafter
          rw [hnext after hafter, hbody after hafter]
          rfl
        · right
          intro after hafter
          rw [hnext after hafter, hopen after hafter, Option.map_map]
          rfl

/-- The gap that is a comment with the given opening, if the rest of the comment is there. -/
def ofComment (opening : List Char) : Option (List Char) → Except Fault Segment
  | none => .error .unclosedComment
  | some body => .ok ⟨opening ++ body, none⟩

/-- What stands in front of the rest of a comment belongs to its opening. -/
theorem ofComment_map (opening front : List Char) (body : Option (List Char)) :
    ofComment opening (body.map (front ++ ·)) = ofComment (opening ++ front) body := by
  cases body with
  | none => rfl
  | some body => simp [ofComment]

/-- How a segment that starts at a `#` ends, if the given characters and a line break follow: with a
fault, before the break, or, if it is a comment, not before the break. -/
inductive HashEnd (front : List Char) : Prop where
  | fault (fault : Fault) (h : ∀ after, Broken after → ofHash (front ++ after) = .error fault)
  | within (segment : Segment) (tail rest : List Char) (hchars : segment.chars = '#' :: tail)
      (hfront : front = tail ++ rest)
      (h : ∀ after, Broken after → ofHash (front ++ after) = .ok segment)
  | over (h : ∀ after, Broken after →
      ofHash (front ++ after) = ofComment ('#' :: front) (comment after))

/-- Every segment that starts at a `#` ends in one of these ways. -/
theorem hashEnd (front : List Char) : HashEnd front := by
  rcases hashWord_broken front with
    ⟨spelling, hunknown, hword⟩ | ⟨spelling, chars, rest, rfl, hword⟩
  · refine .fault (.unknownWord ("#" ++ spelling)) ?_
    intro after hafter
    simp only [ofHash, hword after hafter, hunknown]
  · cases hfound : HashWord.ofSpelling? ("#" ++ spelling) with
    | none =>
        refine .fault (.unknownWord ("#" ++ spelling)) ?_
        intro after hafter
        simp only [ofHash, hword after hafter, hfound]
    | some word =>
        by_cases hobtw : word = .obtw
        · subst hobtw
          have hofHash (after : List Char) (hafter : Broken after) :
              ofHash (chars ++ rest ++ after) =
                ofComment ('#' :: chars) (comment (rest ++ after)) := by
            have hdrop : (chars ++ rest ++ after).drop chars.length = rest ++ after := by
              rw [List.append_assoc, List.drop_left]
            simp only [ofHash, hword after hafter, hfound, hdrop]
            cases comment (rest ++ after) <;> rfl
          rcases comment_append_stops rest with ⟨body, back, rfl, hbody⟩ | hopen
          · refine .within ⟨'#' :: chars ++ body, none⟩ (chars ++ body) back rfl (by simp) ?_
            intro after hafter
            rw [hofHash after hafter, hbody after hafter.stops.isAlpha, ofComment]
          · refine .over ?_
            intro after hafter
            rw [hofHash after hafter, hopen after hafter.stops.isAlpha, ofComment_map,
              List.cons_append]
        · refine .within ⟨'#' :: chars, some (.hashWord word)⟩ chars rest rfl rfl ?_
          intro after hafter
          simp only [ofHash, hword after hafter, hfound]

end Segment

/-! ## Lexemes with one newline for several -/

namespace Lexeme

/-- What lexemes come to depends on what the lexemes after them come to. -/
theorem collapsed_append {back other : List Lexeme} (front : List Lexeme)
    (h : collapsed back = collapsed other) :
    collapsed (front ++ back) = collapsed (front ++ other) := by
  induction front with
  | nil => exact h
  | cons lexeme front ih => rw [List.cons_append, List.cons_append, collapsed, collapsed, ih]

/-- Two newlines in front are collapsed to one. -/
theorem collapsed_newlines (rest : List Lexeme) :
    collapsed (.newline :: .newline :: rest) = collapsed (.newline :: rest) := by
  have hhead : (collapsed (.newline :: rest)).head? = some .newline := by
    rw [collapsed]
    split
    next hnext => exact hnext.2
    · rfl
  rw [collapsed, if_pos ⟨rfl, hhead⟩]

/-- The end of the input is kept when newlines are collapsed. -/
theorem collapsed_concat_eof (lexemes : List Lexeme) :
    collapsed (lexemes ++ [.eof]) = collapsed lexemes ++ [.eof] := by
  induction lexemes with
  | nil => rfl
  | cons lexeme lexemes ih =>
      have hhead : (collapsed lexemes ++ [Lexeme.eof]).head? = some .newline ↔
          (collapsed lexemes).head? = some .newline := by
        cases collapsed lexemes with
        | nil => simp
        | cons first rest => rfl
      rw [List.cons_append, collapsed, collapsed, ih]
      simp only [hhead]
      split <;> rfl

end Lexeme

namespace Segmentation

/-- What segments say, with one newline for several in a row. -/
def collapsed (cut : Segmentation) : List Lexeme × Option Fault :=
  (Lexeme.collapsed cut.content.1, cut.content.2)

/-- Segments that say the same say the same when newlines are collapsed. -/
theorem collapsed_of_content {first second : Segmentation} (h : first.content = second.content) :
    first.collapsed = second.collapsed := by
  rw [collapsed, collapsed, h]

/-- The same segment in front of what says the same, newlines collapsed, keeps this so. -/
theorem collapsed_cons {first second : Segmentation} (segment : Segment)
    (h : first.collapsed = second.collapsed) :
    (cons segment first).collapsed = (cons segment second).collapsed := by
  obtain ⟨hlexemes, hfault⟩ := Prod.mk.inj h
  rw [collapsed, collapsed, content_cons, content_cons]
  exact Prod.ext (Lexeme.collapsed_append _ hlexemes) hfault

/-- Two texts that come to the same do so after a newline too. -/
theorem collapsed_newline {cs ds : List Char}
    (h : (ofChars cs).collapsed = (ofChars ds).collapsed) :
    (ofChars ('\n' :: cs)).collapsed = (ofChars ('\n' :: ds)).collapsed := by
  rw [ofChars_newline, ofChars_newline]
  exact collapsed_cons _ h

/-- Two line feeds in front say the same as one, when newlines are collapsed. -/
theorem collapsed_newlines (cs : List Char) :
    (ofChars ('\n' :: '\n' :: cs)).collapsed = (ofChars ('\n' :: cs)).collapsed := by
  rw [collapsed, collapsed, content_newline, content_newline]
  exact Prod.ext (Lexeme.collapsed_newlines _) rfl

/-! ## One line break written in another way -/

/-- A line break in front of a text comes to one newline. -/
theorem collapsed_break_start {chars : List Char} (hbreak : IsBreak chars) (back : List Char) :
    (ofChars (chars ++ back)).collapsed = (ofChars ('\n' :: back)).collapsed := by
  obtain ⟨blanks, indent, rfl, hblanks, hindent⟩ := hbreak
  -- the induction is on the blank characters that are left; those of the current line are in `run`
  have hline (run : List Char) (hrun : ∀ c ∈ run, Text.isBlank c = true ∧ c ≠ '\n') :
      (ofChars (run ++ (blanks ++ '\n' :: (indent ++ back)))).collapsed =
        (ofChars ('\n' :: back)).collapsed := by
    induction blanks generalizing run with
    | nil =>
        rw [List.nil_append, collapsed_of_content (content_idle ⟨hrun, .inr rfl⟩)]
        exact collapsed_newline (collapsed_of_content (content_separators back hindent))
    | cons c blanks ih =>
        have hrest := ih fun d hd => hblanks d (List.mem_cons_of_mem c hd)
        by_cases hc : c = '\n'
        · subst hc
          rw [List.cons_append, collapsed_of_content (content_idle ⟨hrun, .inr rfl⟩)]
          have hnext := hrest [] (by simp)
          rw [List.nil_append] at hnext
          exact (collapsed_newline hnext).trans (collapsed_newlines back)
        · have hlonger := hrest (run ++ [c]) (by
            intro d hd
            rcases List.mem_append.mp hd with hd | hd
            · exact hrun d hd
            · rw [List.mem_singleton.mp hd]
              exact ⟨hblanks c List.mem_cons_self, hc⟩)
          rwa [List.append_assoc] at hlonger
  have hwhole := hline [] (by simp)
  rwa [List.nil_append, ← List.cons_append, ← List.append_assoc] at hwhole

/-- Characters without a newline that a text starts with end before its first newline. -/
theorem exists_rest_of_notMem {tail after front back : List Char}
    (h : tail ++ after = front ++ '\n' :: back) (hline : '\n' ∉ tail) :
    ∃ rest, front = tail ++ rest ∧ after = rest ++ '\n' :: back := by
  rcases List.append_eq_append_iff.mp h with ⟨rest, hfront, hrest⟩ | ⟨more, htail, hmore⟩
  · exact ⟨rest, hfront, hrest⟩
  · cases more with
    | nil => exact ⟨[], by rw [htail, List.append_nil, List.append_nil], hmore.symm⟩
    | cons d more =>
        rw [htail, (List.cons.inj hmore).1.symm] at hline
        exact absurd (List.mem_append_right front List.mem_cons_self) hline

/-- A line break comes to one newline after any segment that ends before it. -/
theorem collapsed_break_segment {c : Char} {tail chars : List Char} {segment : Segment}
    (hbreak : IsBreak chars) (back : List Char)
    (hfirst : Segment.first c (tail ++ '\n' :: back) = .ok segment)
    (hchars : segment.chars = c :: tail) :
    (ofChars (segment.chars ++ (chars ++ back))).collapsed =
      (cons segment (ofChars ('\n' :: back))).collapsed := by
  obtain ⟨run, more, hsplit, hrun⟩ := hbreak.split
  have hedge : SameEdge ('\n' :: back) ('\n' :: (more ++ back)) := .inl rfl
  have hsame := Segment.first_swap hedge hfirst hchars
  have htext : chars ++ back = run ++ '\n' :: (more ++ back) := by
    rw [hsplit, List.append_assoc, List.cons_append]
  have hrest : (ofChars ('\n' :: (more ++ back))).collapsed =
      (ofChars ('\n' :: back)).collapsed := by
    rw [← collapsed_of_content (content_idle (hrun (more ++ back))), ← htext]
    exact collapsed_break_start hbreak back
  rw [htext, collapsed_of_content (content_idle_segment hsame hchars (hrun (more ++ back)))]
  exact collapsed_cons segment hrest

/-- A comment that goes on over a line break says nothing, however the break is written. -/
theorem content_break_over {front back chars : List Char} (hbreak : IsBreak chars)
    (hover : ∀ after, Broken after →
      Segment.ofHash (front ++ after) = Segment.ofComment ('#' :: front) (Segment.comment after)) :
    (ofChars ('#' :: front ++ (chars ++ back))).content = match Segment.comment back with
      | none => ([], some .unclosedComment)
      | some body => (ofChars (back.drop body.length)).content := by
  have hopen : Segment.comment (chars ++ back) = (Segment.comment back).map (chars ++ ·) := by
    apply Segment.comment_append
    intro before after hsplit
    have hmem : '#' ∈ chars := by
      rw [hsplit]
      exact List.mem_append_right before List.mem_cons_self
    exact absurd rfl (ne_hash_of_isBlank (hbreak.blank _ hmem))
  have hofHash := hover (chars ++ back) ⟨chars, back, hbreak, rfl⟩
  rw [hopen, Segment.ofComment_map] at hofHash
  cases hbody : Segment.comment back with
  | none =>
      rw [hbody, ← Segment.first_hash] at hofHash
      rw [List.cons_append, ofChars_of_error hofHash]
      rfl
  | some body =>
      obtain ⟨after, rfl⟩ := Segment.isPrefix_comment hbody
      rw [hbody] at hofHash
      have hfirst : Segment.first '#' ((front ++ chars ++ body) ++ after) =
          .ok ⟨'#' :: front ++ chars ++ body, none⟩ := by
        rw [Segment.first_hash, List.append_assoc, List.append_assoc]
        exact hofHash
      have hcut := ofChars_of_first hfirst rfl
      have htext : '#' :: front ++ (chars ++ (body ++ after)) =
          ('#' :: front ++ chars ++ body) ++ after := by
        simp only [List.append_assoc]
      show _ = (ofChars ((body ++ after).drop body.length)).content
      rw [List.drop_left, htext]
      exact (congrArg content hcut).trans (content_cons_gap _ _)

/-- Two texts that differ in one line break come to the same. -/
theorem collapsed_break {chars : List Char} (hbreak : IsBreak chars) (front back : List Char) :
    (ofChars (front ++ (chars ++ back))).collapsed =
      (ofChars (front ++ '\n' :: back)).collapsed := by
  have hbroken : Broken (chars ++ back) := ⟨chars, back, hbreak, rfl⟩
  have hnewline : Broken ('\n' :: back) := broken_newline back
  induction hlength : front.length using Nat.strongRecOn generalizing front with
  | ind n ih =>
  cases front with
  | nil => exact collapsed_break_start hbreak back
  | cons c front =>
  by_cases hhash : c = '#'
  · -- what the `#` starts is decided before the break, or is a comment over it
    subst hhash
    rcases Segment.hashEnd front with
      ⟨fault, hfault⟩ | ⟨segment, tail, rest, hsegment, rfl, hwithin⟩ | hover
    · have hcut (after : List Char) (hafter : Broken after) :
          ofChars ('#' :: front ++ after) = ⟨[], some fault⟩ := by
        apply ofChars_of_error
        rw [Segment.first_hash]
        exact hfault after hafter
      rw [hcut _ hbroken, hcut _ hnewline]
    · have hcut (after : List Char) (hafter : Broken after) :
          ofChars ('#' :: (tail ++ rest) ++ after) = cons segment (ofChars (rest ++ after)) := by
        have hfirst : Segment.first '#' (tail ++ (rest ++ after)) = .ok segment := by
          rw [Segment.first_hash, ← List.append_assoc]
          exact hwithin after hafter
        rw [← ofChars_of_first hfirst hsegment, hsegment, List.cons_append, List.cons_append,
          List.append_assoc]
      rw [hcut _ hbroken, hcut _ hnewline]
      refine collapsed_cons segment (ih rest.length ?_ rest rfl)
      rw [← hlength, List.length_cons, List.length_append]
      omega
    · exact collapsed_of_content ((content_break_over hbreak hover).trans
        (content_break_over isBreak_newline hover).symm)
  · -- any other segment ends before the break
    obtain ⟨segment, hfirst⟩ := Segment.exists_first_of_ne_hash hhash (front ++ '\n' :: back)
    obtain ⟨tail, hchars, after, hafter⟩ := Segment.isPrefix_first hfirst
    have hline : '\n' ∉ tail := fun hmem =>
      (Segment.plain_of_first hhash hfirst hchars _ hmem).2 rfl
    obtain ⟨rest, rfl, rfl⟩ := exists_rest_of_notMem hafter hline
    rw [← hafter] at hfirst
    have hshorter : rest.length < n := by
      rw [← hlength, List.length_cons, List.length_append]
      omega
    have htext (after : List Char) :
        c :: (tail ++ rest) ++ after = segment.chars ++ (rest ++ after) := by
      rw [hchars, List.cons_append, List.cons_append, List.append_assoc]
    rw [htext, htext, ofChars_of_first hfirst hchars]
    cases rest with
    | nil => exact collapsed_break_segment hbreak back hfirst hchars
    | cons d rest =>
        have hedge : SameEdge (d :: rest ++ '\n' :: back) (d :: rest ++ (chars ++ back)) := .inl rfl
        have hsame := Segment.first_swap hedge hfirst hchars
        rw [ofChars_of_first hsame hchars]
        exact collapsed_cons segment (ih _ hshorter (d :: rest) rfl)

/-- Texts that differ in how their line breaks are written come to the same. -/
theorem collapsed_rebroken {cs ds : List Char} (h : Rebroken cs ds) (front : List Char) :
    (ofChars (front ++ cs)).collapsed = (ofChars (front ++ ds)).collapsed := by
  induction h generalizing front with
  | nil => rfl
  | keep c h ih =>
      have hlonger := ih (front ++ [c])
      rwa [List.append_assoc, List.append_assoc] at hlonger
  | rebreak hbreak h ih =>
      rename_i chars cs ds
      rw [← collapsed_break hbreak, ← List.append_assoc, ← List.append_assoc]
      exact ih (front ++ chars)

end Segmentation

/-- A source whose newlines are written as other line breaks has the same lexemes but for newlines
in a row, or the same lexical error, and it has the same document, page and messages. -/
theorem rebroken_agree {first second : Source} (h : Rebroken first.text.toList second.text.toList) :
    first.bareLexemes.map Lexeme.collapsed = second.bareLexemes.map Lexeme.collapsed ∧
      first.Agrees second := by
  have hcollapsed : (Segmentation.ofChars first.text.toList).collapsed =
      (Segmentation.ofChars second.text.toList).collapsed := Segmentation.collapsed_rebroken h []
  have hlexemes : Lexeme.collapsed (Segmentation.ofChars first.text.toList).lexemes =
      Lexeme.collapsed (Segmentation.ofChars second.text.toList).lexemes :=
    congrArg Prod.fst hcollapsed
  have hfault : (Segmentation.ofChars first.text.toList).fault =
      (Segmentation.ofChars second.text.toList).fault := congrArg Prod.snd hcollapsed
  refine ⟨?_, Source.agrees_of_lexemes hlexemes hfault⟩
  rw [Source.bareLexemes_eq, Source.bareLexemes_eq, hfault]
  cases (Segmentation.ofChars second.text.toList).fault with
  | some fault => rfl
  | none =>
      show Except.ok _ = Except.ok _
      rw [Lexeme.collapsed_concat_eof, Lexeme.collapsed_concat_eof, hlexemes]

/-- A comment over two lines and free text, with the breaks written as a carriage return and a
newline, as several lines, and with a tab in front of the next line. -/
theorem rebroken_agree_commented :
    (Source.mk "doc.lol" "#HAI\n#OBTW\n#TLDR!\n#KTHXBYE").bareLexemes.map Lexeme.collapsed =
      (Source.mk "doc.lol" "#HAI\r\n\t#OBTW \n\n #TLDR!\u2028\n\n#KTHXBYE").bareLexemes.map
        Lexeme.collapsed ∧
    Source.Agrees ⟨"doc.lol", "#HAI\n#OBTW\n#TLDR!\n#KTHXBYE"⟩
      ⟨"doc.lol", "#HAI\r\n\t#OBTW \n\n #TLDR!\u2028\n\n#KTHXBYE"⟩ := by
  have hfirst : IsBreak ['\r', '\n', '\t'] :=
    ⟨['\r'], ['\t'], rfl, by simp [Text.isBlank, Text.blankRanges], by simp [Segment.isSeparator]⟩
  have hsecond : IsBreak [' ', '\n', '\n', ' '] :=
    ⟨[' ', '\n'], [' '], rfl, by simp [Text.isBlank, Text.blankRanges],
      by simp [Segment.isSeparator]⟩
  have hthird : IsBreak ['\u2028', '\n', '\n'] :=
    ⟨['\u2028', '\n'], [], rfl, by simp [Text.isBlank, Text.blankRanges],
      by simp [Segment.isSeparator]⟩
  apply rebroken_agree
  exact .keeps "#HAI".toList (.rebreak hfirst (.keeps "#OBTW".toList (.rebreak hsecond
    (.keeps "#TLDR!".toList (.rebreak hthird (.keeps "#KTHXBYE".toList .nil))))))

end LolMarkup
