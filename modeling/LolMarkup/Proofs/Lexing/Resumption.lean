import LolMarkup.Proofs.Lexing.Shape

/-!
# Cutting goes on from every boundary

Where a segment ends is decided by its own characters and by the first character after it. What
follows a segment may therefore be replaced by anything that starts in the same way, or that starts
with a `#` or a line feed, at which every run ends (`Segment.first_swap`).
`Segmentation.ofChars_resume` is the consequence for a whole text: the text up to a boundary between
two segments is cut in the same way when it goes on with a `#` or with another line.
-/

namespace LolMarkup

namespace Lexing

/-- The characters are empty or start with a `#` or a line feed, so that every run ends before
them. -/
def EndsRuns (after : List Char) : Prop :=
  ∀ c, after.head? = some c → c = '#' ∨ c = '\n'

/-- What stands in the place of some characters starts as they do or ends every run. -/
def SameEdge (after other : List Char) : Prop :=
  other.head? = after.head? ∨ EndsRuns other

/-- Nothing ends every run. -/
theorem endsRuns_nil : EndsRuns [] := by
  intro c hc
  cases hc

/-- A `#` ends every run. -/
theorem endsRuns_hash (cs : List Char) : EndsRuns ('#' :: cs) := by
  intro c hc
  cases hc
  exact .inl rfl

/-- A line feed ends every run. -/
theorem endsRuns_newline (cs : List Char) : EndsRuns ('\n' :: cs) := by
  intro c hc
  cases hc
  exact .inr rfl

variable {accept : Char → Bool} {run after other : List Char}

/-- A class without `#` and line feeds stops where every run ends. -/
theorem EndsRuns.stops (h : EndsRuns after) (hhash : accept '#' = false)
    (hline : accept '\n' = false) : Stops accept after := by
  intro c hc
  rcases h c hc with rfl | rfl
  · exact hhash
  · exact hline

/-- A class without `#` and line feeds stops before what has the same edge. -/
theorem SameEdge.stops (hedge : SameEdge after other) (hhash : accept '#' = false)
    (hline : accept '\n' = false) (h : Stops accept after) : Stops accept other := by
  rcases hedge with hsame | hends
  · intro c hc
    exact h c (hsame ▸ hc)
  · exact hends.stops hhash hline

/-- Nothing is taken where a class stops. -/
theorem takeWhile_of_stops (h : Stops accept after) : after.takeWhile accept = [] := by
  cases after with
  | nil => rfl
  | cons c cs => rw [List.takeWhile_cons, h c rfl, if_neg Bool.false_ne_true]

/-- Nothing is dropped where a class stops. -/
theorem dropWhile_of_stops (h : Stops accept after) : after.dropWhile accept = after := by
  cases after with
  | nil => rfl
  | cons c cs => rw [List.dropWhile_cons, h c rfl, if_neg Bool.false_ne_true]

/-- A run of a class in front is taken whole if the class stops after it. -/
theorem takeWhile_run (hrun : ∀ c ∈ run, accept c = true) (h : Stops accept after) :
    (run ++ after).takeWhile accept = run := by
  rw [List.takeWhile_append_of_pos hrun, takeWhile_of_stops h, List.append_nil]

/-- A run of a class in front is dropped whole if the class stops after it. -/
theorem dropWhile_run (hrun : ∀ c ∈ run, accept c = true) (h : Stops accept after) :
    (run ++ after).dropWhile accept = after := by
  rw [List.dropWhile_append_of_pos hrun, dropWhile_of_stops h]

/-- What is taken in front is a run of the class, and the class stops after it. -/
theorem run_of_takeWhile (h : (run ++ after).takeWhile accept = run) :
    (∀ c ∈ run, accept c = true) ∧ Stops accept after := by
  have hrun : ∀ c ∈ run, accept c = true := by
    intro c hc
    rw [← h] at hc
    exact List.mem_takeWhile_imp hc
  refine ⟨hrun, ?_⟩
  have hdrop : (run ++ after).dropWhile accept = after := by
    have hsplit := List.takeWhile_append_dropWhile (p := accept) (l := run ++ after)
    rw [h] at hsplit
    exact List.append_cancel_left hsplit
  rw [← hdrop]
  exact stops_dropWhile accept (run ++ after)

/-- A run that is taken in front is still taken before something at which the class stops too. -/
theorem takeWhile_swap (hedge : Stops accept after → Stops accept other)
    (h : (run ++ after).takeWhile accept = run) : (run ++ other).takeWhile accept = run := by
  obtain ⟨hrun, hstops⟩ := run_of_takeWhile h
  exact takeWhile_run hrun (hedge hstops)

/-- A run that is taken in front is still taken before something with the same edge. -/
theorem SameEdge.takeWhile (hedge : SameEdge after other) (hhash : accept '#' = false)
    (hline : accept '\n' = false) (h : (run ++ after).takeWhile accept = run) :
    (run ++ other).takeWhile accept = run :=
  takeWhile_swap (hedge.stops hhash hline) h

end Lexing

namespace Segment

open Lexing

variable {chars tail after other : List Char} {segment : Segment}

/-- A hash word in front is the same before something at which letters stop too. -/
theorem hashWord_swap {spelling : String}
    (hedge : Stops Char.isAlpha after → Stops Char.isAlpha other)
    (h : hashWord (chars ++ after) = (spelling, chars))
    (hspelling : HashWord.ofSpelling? ("#" ++ spelling) ≠ none) :
    hashWord (chars ++ other) = (spelling, chars) := by
  have hcs := List.takeWhile_append_dropWhile (p := Char.isAlpha) (l := chars ++ after)
  simp only [hashWord] at h
  split at h
  next partner rest hpartner hrest =>
      -- two words with a space between them
      obtain ⟨hword, hchars⟩ := Prod.mk.inj h
      generalize hfirst : (chars ++ after).takeWhile Char.isAlpha = first at *
      generalize hsecond : rest.takeWhile Char.isAlpha = second at *
      have hletters : ∀ c ∈ first, c.isAlpha = true := by
        rw [← hfirst]
        exact fun c hc => List.mem_takeWhile_imp hc
      have hrest' : rest = second ++ after := by
        rw [hrest, ← hchars, List.append_assoc, List.cons_append] at hcs
        exact (List.cons.inj (List.append_cancel_left hcs)).2
      have hspace : ∀ more, Stops Char.isAlpha (' ' :: more) := by
        intro more c hc
        cases hc
        decide
      have htaken : (second ++ other).takeWhile Char.isAlpha = second := by
        rw [hrest'] at hsecond
        exact takeWhile_swap hedge hsecond
      rw [← hchars, List.append_assoc, List.cons_append]
      simp only [hashWord, takeWhile_run hletters (hspace _), dropWhile_run hletters (hspace _),
        hpartner, htaken, hword]
  next hsingle =>
      obtain ⟨hword, hchars⟩ := Prod.mk.inj h
      have htaken := takeWhile_swap hedge hchars
      cases hpartner : HashWord.partner? (upper chars) with
      | none => simp only [hashWord, htaken, hpartner, ← hword, hchars]
      | some partner =>
          -- a word that waits for another one is no hash word
          rw [← hword, hchars, HashWord.ofSpelling?_of_partner? hpartner] at hspelling
          exact absurd rfl hspelling

/-- There is a `#` in the rest of every comment, in the word that closes it. -/
theorem hash_mem_comment {cs body : List Char} (h : comment cs = some body) : '#' ∈ body := by
  induction cs generalizing body with
  | nil => simp [comment] at h
  | cons c cs ih =>
      simp only [comment] at h
      split at h
      next hclose =>
          cases h
          rw [hclose.1]
          exact List.mem_cons_self
      · obtain ⟨rest, hrest, rfl⟩ := Option.map_eq_some_iff.mp h
        exact List.mem_cons_of_mem c (ih hrest)

/-- The letters in front of some characters with a `#` among them do not depend on what follows. -/
theorem takeWhile_of_hash_mem (h : '#' ∈ chars) :
    (chars ++ after).takeWhile Char.isAlpha = (chars ++ other).takeWhile Char.isAlpha := by
  induction chars with
  | nil => cases h
  | cons c chars ih =>
      rw [List.cons_append, List.cons_append, List.takeWhile_cons, List.takeWhile_cons]
      by_cases hc : c.isAlpha = true
      · have hmem : '#' ∈ chars := by
          rcases List.mem_cons.mp h with rfl | hmem
          · exact absurd hc (by decide)
          · exact hmem
        rw [if_pos hc, if_pos hc, ih hmem]
      · rw [if_neg hc, if_neg hc]

/-- A comment ends at the same word before something at which letters stop too. -/
theorem comment_swap {body : List Char}
    (hedge : Stops Char.isAlpha after → Stops Char.isAlpha other)
    (h : comment (body ++ after) = some body) : comment (body ++ other) = some body := by
  induction body with
  | nil => exact absurd (hash_mem_comment h) List.not_mem_nil
  | cons c body ih =>
      rw [List.cons_append] at h ⊢
      simp only [comment] at h ⊢
      split at h
      next hclose =>
          have hbody : (body ++ after).takeWhile Char.isAlpha = body :=
            (List.cons.inj (Option.some.inj h)).2
          have htaken := takeWhile_swap hedge hbody
          rw [hbody] at hclose
          rw [htaken, if_pos hclose]
      next hopen =>
          obtain ⟨rest, hrest, hcons⟩ := Option.map_eq_some_iff.mp h
          obtain rfl : rest = body := (List.cons.inj hcons).2
          rw [takeWhile_of_hash_mem (hash_mem_comment hrest)] at hopen
          rw [if_neg hopen, ih hrest]
          rfl

/-- A segment that starts at a `#` is the same before something at which letters stop too. -/
theorem ofHash_swap (hedge : Stops Char.isAlpha after → Stops Char.isAlpha other)
    (h : ofHash (tail ++ after) = .ok segment)
    (hchars : segment.chars = '#' :: tail) : ofHash (tail ++ other) = .ok segment := by
  obtain ⟨more, hmore⟩ := isPrefix_hashWord (tail ++ after)
  generalize hword : hashWord (tail ++ after) = word at *
  obtain ⟨spelling, chars⟩ := word
  simp only [ofHash, hword] at h
  simp only at hmore
  split at h
  · cases h
  next hobtw =>
      split at h
      · cases h
      next body hbody =>
          cases h
          obtain rfl : tail = chars ++ body := (List.cons.inj hchars).2.symm
          rw [List.append_assoc] at hmore hword ⊢
          rw [List.append_assoc, List.drop_left] at hbody
          have hedge' :
              Stops Char.isAlpha (body ++ after) → Stops Char.isAlpha (body ++ other) := by
            cases body with
            | nil => exact absurd (hash_mem_comment hbody) List.not_mem_nil
            | cons c body => exact id
          have hsame := hashWord_swap hedge' hword (by rw [hobtw]; simp)
          simp only [ofHash, hsame, hobtw, List.drop_left, comment_swap hedge hbody]
  next found hne hfound =>
      cases h
      obtain rfl : tail = chars := (List.cons.inj hchars).2.symm
      have hsame := hashWord_swap hedge hword (by rw [hfound]; simp)
      simp only [ofHash, hsame, hfound]

/-- The first segment of a text stays the first one before something with the same edge. -/
theorem first_swap {c : Char} (hedge : SameEdge after other)
    (h : first c (tail ++ after) = .ok segment) (hchars : segment.chars = c :: tail) :
    first c (tail ++ other) = .ok segment := by
  unfold first at h ⊢
  split at h
  next hseparator =>
      cases h
      have htaken := hedge.takeWhile (by decide) (by decide) (List.cons.inj hchars).2
      rw [if_pos hseparator, htaken, (List.cons.inj hchars).2]
  next hseparator =>
  rw [if_neg hseparator]
  split at h
  next hline =>
      rw [if_pos hline]
      exact h
  next hline =>
  rw [if_neg hline]
  split at h
  next hhash =>
      subst hhash
      rw [if_pos rfl]
      exact ofHash_swap (hedge.stops (by decide) (by decide)) h hchars
  next hhash =>
  rw [if_neg hhash]
  split at h
  next halpha =>
      cases h
      rw [chars_ofWord] at hchars
      have htaken := hedge.takeWhile (by decide) (by decide) (List.cons.inj hchars).2
      rw [if_pos halpha, htaken, (List.cons.inj hchars).2]
  next halpha =>
      cases h
      rw [chars_ofFree] at hchars
      have htaken := hedge.takeWhile (by decide) (by decide) (List.cons.inj hchars).2
      rw [if_neg halpha, htaken, (List.cons.inj hchars).2]

end Segment

namespace Segmentation

open Lexing

/-- Put segments in front. -/
def prepend (front : List Segment) (rest : Segmentation) : Segmentation :=
  { rest with segments := front ++ rest.segments }

/-- Putting segments in front is putting them in front one by one. -/
theorem prepend_cons (segment : Segment) (front : List Segment) (rest : Segmentation) :
    prepend (segment :: front) rest = cons segment (prepend front rest) := rfl

/-- A text with a segment starts with it, and what remains has the other segments. -/
theorem uncons_ofChars {cs : List Char} {segment : Segment} {segments : List Segment}
    {fault : Option Fault} (h : ofChars cs = ⟨segment :: segments, fault⟩) :
    ∃ c tail after, cs = c :: (tail ++ after) ∧ segment.chars = c :: tail ∧
      Segment.first c (tail ++ after) = .ok segment ∧ ofChars after = ⟨segments, fault⟩ := by
  cases cs with
  | nil => simp at h
  | cons c cs =>
      cases hfirst : Segment.first c cs with
      | error reason =>
          rw [ofChars_of_error hfirst] at h
          simp at h
      | ok found =>
          obtain ⟨tail, htail, after, rfl⟩ := Segment.isPrefix_first hfirst
          have hrest : (c :: (tail ++ after)).drop found.chars.length = after := by
            rw [htail, ← List.cons_append, List.drop_left]
          rw [ofChars_of_ok hfirst, hrest] at h
          simp only [cons, mk.injEq, List.cons.injEq] at h
          obtain ⟨⟨rfl, hsegments⟩, hfault⟩ := h
          refine ⟨c, tail, after, rfl, htail, hfirst, ?_⟩
          rw [← hsegments, ← hfault]

/-- A text that starts with a segment is cut into this segment and those of the rest. -/
theorem ofChars_of_first {c : Char} {tail after : List Char} {segment : Segment}
    (h : Segment.first c (tail ++ after) = .ok segment) (hchars : segment.chars = c :: tail) :
    ofChars (segment.chars ++ after) = cons segment (ofChars after) := by
  have hok := ofChars_of_ok h
  rwa [← List.cons_append, ← hchars, List.drop_left] at hok

/-- The characters of the first segments of a text are cut into these segments when they go on with
something that ends every run. -/
theorem ofChars_resume {cs ds : List Char} {front back : List Segment} {fault : Option Fault}
    (h : ofChars cs = ⟨front ++ back, fault⟩) (hds : EndsRuns ds) :
    ofChars (front.flatMap Segment.chars ++ ds) = prepend front (ofChars ds) := by
  induction front generalizing cs with
  | nil => rfl
  | cons segment front ih =>
      obtain ⟨c, tail, after, rfl, hchars, hfirst, hafter⟩ := uncons_ofChars h
      have hedge : SameEdge after (front.flatMap Segment.chars ++ ds) := by
        cases front with
        | nil => exact .inr hds
        | cons next front =>
            obtain ⟨d, more, _, rfl, hnext, -, -⟩ := uncons_ofChars hafter
            left
            rw [List.flatMap_cons, hnext]
            rfl
      have hsame := Segment.first_swap hedge hfirst hchars
      rw [List.flatMap_cons, List.append_assoc, ofChars_of_first hsame hchars, ih hafter,
        prepend_cons]

/-- The segments of a text lie end to end in it. -/
theorem flatMap_chars_ofChars {cs : List Char} {front back : List Segment} {fault : Option Fault}
    (h : ofChars cs = ⟨front ++ back, fault⟩) : ∃ rest, cs = front.flatMap Segment.chars ++ rest ∧
      ofChars rest = ⟨back, fault⟩ := by
  induction front generalizing cs with
  | nil => exact ⟨cs, rfl, h⟩
  | cons segment front ih =>
      obtain ⟨c, tail, after, rfl, hchars, -, hafter⟩ := uncons_ofChars h
      obtain ⟨rest, rfl, hrest⟩ := ih hafter
      exact ⟨rest, by simp [hchars], hrest⟩

end Segmentation

end LolMarkup
