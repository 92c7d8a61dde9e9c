import LolMarkup.Token.Segment
import Mathlib

/-!
# The shapes of segments

What a stretch of text may look like, said without the functions that cut it. `Spells after lexeme
chars` says that `chars`, standing before `after`, is written for the lexeme. `Gap after chars` says
that `chars` is made of blank characters and comments alone. `Segment.shape_of_first` shows that the
first segment of every text has one of these shapes, and `Segmentation.ofChars_induction` carries
what holds of one segment to all segments of a text.
-/

namespace LolMarkup

namespace Lexing

open Segment (upper isFree)

/-- No character of the given class stands first, so that a run of the class ends here. -/
def Stops (accept : Char → Bool) (after : List Char) : Prop :=
  ∀ c, after.head? = some c → accept c = false

/-- The characters are a `#` and a maximal run of letters that spells the given word in whatever
letter case. -/
def MarkedBy (word : String) (after chars : List Char) : Prop :=
  ∃ letters, chars = '#' :: letters ∧ (∀ c ∈ letters, c.isAlpha) ∧ upper letters = word ∧
    Stops Char.isAlpha after

/-- The characters are a comment: from `#OBTW` up to and including the first `#TLDR` after it. -/
def IsComment (after chars : List Char) : Prop :=
  ∃ opening inner closing,
    chars = opening ++ inner ++ closing ∧
    MarkedBy "OBTW" (inner ++ closing ++ after) opening ∧
    MarkedBy "TLDR" after closing ∧
    ∀ front back, inner = front ++ '#' :: back →
      upper ((back ++ closing ++ after).takeWhile Char.isAlpha) ≠ "TLDR"

/-- The characters are a concatenation of comments and of blank characters other than line feeds. -/
inductive Gap (after : List Char) : List Char → Prop where
  | nil : Gap after []
  | blank (c rest) : Text.isBlank c = true → c ≠ '\n' → Gap after rest → Gap after (c :: rest)
  | comment (chars rest) : IsComment (rest ++ after) chars → Gap after rest →
      Gap after (chars ++ rest)

/-- The characters are a letter and the letters and digits after it, up to a character that is
neither. -/
def IsWord (after chars : List Char) : Prop :=
  ∃ c rest, chars = c :: rest ∧ c.isAlpha = true ∧ (∀ d ∈ rest, d.isAlphanum) ∧
    Stops Char.isAlphanum after

/-- The characters are a run without line feeds and `#` that does not start with a letter, up to a
line feed, a `#` or the end. -/
def IsFreeRun (after chars : List Char) : Prop :=
  Stops Char.isAlpha chars ∧ (∀ c ∈ chars, c ≠ '\n' ∧ c ≠ '#') ∧ Stops isFree after

/-- The characters are written for the lexeme. The end of the input is written for by none. -/
inductive Spells (after : List Char) : Lexeme → List Char → Prop where
  | newline : Spells after .newline ['\n']
  | name (chars) : IsWord after chars → Keyword.ofSpelling? (upper chars) = none →
      Spells after (.name (String.ofList chars)) chars
  | keyword (word chars) : IsWord after chars → word.spelling = upper chars →
      Spells after (.keyword word) chars
  | hashWord (word chars) : word ≠ .obtw → word.spelling = upper chars →
      Stops Char.isAlpha after → Spells after (.hashWord word) chars
  | text (chars) : IsFreeRun after chars → Text.trim chars ≠ [] →
      Spells after (.text (String.ofList (Text.trim chars))) chars

/-- What a segment is: a gap, or the text of its lexeme. -/
inductive Shape (after : List Char) : Segment → Prop where
  | gap (chars) : chars ≠ [] → Gap after chars → Shape after ⟨chars, none⟩
  | lexeme (chars lexeme) : Spells after lexeme chars → Shape after ⟨chars, some lexeme⟩

/-! ## Runs of one class -/

/-- The characters after a maximal run of a class do not start with a character of the class. -/
theorem stops_dropWhile (accept : Char → Bool) (cs : List Char) :
    Stops accept (cs.dropWhile accept) := by
  intro c hc
  have h := List.head?_dropWhile_not accept cs
  rw [hc] at h
  exact h

/-- Blank characters other than line feeds make a gap. -/
theorem Gap.of_blank {after chars : List Char}
    (h : ∀ c ∈ chars, Text.isBlank c = true ∧ c ≠ '\n') : Gap after chars := by
  induction chars with
  | nil => exact .nil
  | cons c rest ih =>
      obtain ⟨hblank, hline⟩ := h c (by simp)
      exact .blank _ _ hblank hline (ih fun d hd => h d (by simp [hd]))

/-- A comment is a gap. -/
theorem Gap.of_comment {after chars : List Char} (h : IsComment after chars) :
    Gap after chars := by
  have hcomment : IsComment ([] ++ after) chars := h
  simpa using Gap.comment _ _ hcomment .nil

/-- Two gaps that follow one another are one gap. -/
theorem Gap.append {after first second : List Char} (hfirst : Gap (second ++ after) first)
    (hsecond : Gap after second) : Gap after (first ++ second) := by
  induction hfirst with
  | nil => exact hsecond
  | blank c rest hblank hline _ ih => exact .blank _ _ hblank hline ih
  | comment chars rest hcomment _ ih =>
      rw [List.append_assoc]
      refine .comment _ _ ?_ ih
      rwa [List.append_assoc]

end Lexing

namespace HashWord

/-- A hash word found by a text is spelled like it. -/
theorem spelling_of_ofSpelling? {text : String} {word : HashWord}
    (h : ofSpelling? text = some word) : word.spelling = text := by
  simpa using List.find?_some h

/-- A word that opens a hash word of two words is no hash word by itself. -/
theorem ofSpelling?_of_partner? {first partner : String} (h : partner? first = some partner) :
    ofSpelling? ("#" ++ first) = none := by
  have hmem : first ∈ ["I", "IT", "LEMME"] := by
    simp only [partner?, pairs, List.lookup] at h
    split at h <;> simp_all
    split at h <;> simp_all
    split at h <;> simp_all
  simp only [List.mem_cons, List.not_mem_nil, or_false] at hmem
  rcases hmem with rfl | rfl | rfl <;> decide

end HashWord

/-- A keyword found by a text is spelled like it. -/
theorem Keyword.spelling_of_ofSpelling? {text : String} {word : Keyword}
    (h : ofSpelling? text = some word) : word.spelling = text := by
  simpa using List.find?_some h

namespace Segment

open Lexing

/-- A `#` has no letter case. -/
theorem upper_hash (cs : List Char) : upper ('#' :: cs) = "#" ++ upper cs := by
  apply String.toList_inj.mp
  simp [upper]

/-! ## Hash words and comments -/

/-- What the characters after a `#` are read as: one word, two words that belong together, or a
word that waits for another one than the one that follows. -/
theorem hashWord_cases (cs : List Char) :
    (hashWord cs = (upper (cs.takeWhile Char.isAlpha), cs.takeWhile Char.isAlpha)) ∨
    (∃ first second after, cs = first ++ ' ' :: second ++ after ∧ Stops Char.isAlpha after ∧
      hashWord cs = (upper (first ++ ' ' :: second), first ++ ' ' :: second)) ∨
    (∃ partner, HashWord.partner? (hashWord cs).1 = some partner) := by
  have hcs := List.takeWhile_append_dropWhile (p := Char.isAlpha) (l := cs)
  cases hpartner : HashWord.partner? (upper (cs.takeWhile Char.isAlpha)) with
  | none => left; simp [hashWord, hpartner]
  | some partner =>
      cases hdrop : cs.dropWhile Char.isAlpha with
      | nil => left; simp [hashWord, hdrop]
      | cons c rest =>
          by_cases hc : c = ' '
          · subst hc
            by_cases hsecond : upper (rest.takeWhile Char.isAlpha) = partner
            · refine .inr (.inl ⟨cs.takeWhile Char.isAlpha, rest.takeWhile Char.isAlpha,
                rest.dropWhile Char.isAlpha, ?_, stops_dropWhile _ _, ?_⟩)
              · rw [List.append_assoc, List.cons_append, List.takeWhile_append_dropWhile, ← hdrop,
                  List.takeWhile_append_dropWhile]
              · simp [hashWord, hpartner, hdrop, hsecond]
            · refine .inr (.inr ⟨partner, ?_⟩)
              simp [hashWord, hpartner, hdrop, hsecond]
          · left
            simp [hashWord, hpartner, hdrop, hc]

/-- A comment body ends with the first closing word in it. -/
theorem closing_of_comment {cs body : List Char} (h : comment cs = some body) :
    ∃ inner closing after, body = inner ++ closing ∧ cs = inner ++ closing ++ after ∧
      MarkedBy "TLDR" after closing ∧
      ∀ front back, inner = front ++ '#' :: back →
        upper ((back ++ closing ++ after).takeWhile Char.isAlpha) ≠ "TLDR" := by
  induction cs generalizing body with
  | nil => simp [comment] at h
  | cons c cs ih =>
      simp only [comment] at h
      split at h
      next hclose =>
          obtain ⟨rfl, hword⟩ := hclose
          cases h
          refine ⟨[], '#' :: cs.takeWhile Char.isAlpha, cs.dropWhile Char.isAlpha, rfl, ?_,
            ⟨_, rfl, fun c hc => List.mem_takeWhile_imp hc, hword, stops_dropWhile _ _⟩, ?_⟩
          · simp
          · intro front back hinner
            cases front <;> cases hinner
      next hopen =>
          obtain ⟨rest, hrest, rfl⟩ := Option.map_eq_some_iff.mp h
          obtain ⟨inner, closing, after, rfl, rfl, hmarked, hfirst⟩ := ih hrest
          refine ⟨c :: inner, closing, after, rfl, rfl, hmarked, ?_⟩
          intro front back hinner
          cases front with
          | nil =>
              -- the first character itself is a `#`, which was just found not to close
              obtain ⟨rfl, rfl⟩ := List.cons.inj hinner
              exact fun hword => hopen ⟨rfl, hword⟩
          | cons d front => exact hfirst front back (List.cons.inj hinner).2

/-- The opening word of a comment is a single word. -/
theorem hashWord_of_obtw {cs : List Char} (h : HashWord.ofSpelling? ("#" ++ (hashWord cs).1) =
    some .obtw) :
    (hashWord cs).2 = cs.takeWhile Char.isAlpha ∧ upper (cs.takeWhile Char.isAlpha) = "OBTW" := by
  have hletters : (hashWord cs).1.toList = "OBTW".toList := by
    simpa [HashWord.spelling] using
      (congrArg String.toList (HashWord.spelling_of_ofSpelling? h)).symm
  rcases hashWord_cases cs with hone | ⟨first, second, _, -, -, htwo⟩ | ⟨partner, hpartner⟩
  · rw [hone] at hletters ⊢
    exact ⟨rfl, String.toList_inj.mp hletters⟩
  · have hspace : ' ' ∈ "OBTW".toList := by
      rw [← hletters, htwo]
      simp [upper]
    simp at hspace
  · simp [HashWord.ofSpelling?_of_partner? hpartner] at h

/-- The segment that starts at a `#` is a comment or a hash word. -/
theorem shape_of_ofHash {cs : List Char} {segment : Segment} (h : ofHash cs = .ok segment) :
    ∃ after, '#' :: cs = segment.chars ++ after ∧ Shape after segment := by
  simp only [ofHash] at h
  split at h
  · cases h
  next hobtw =>
      obtain ⟨hchars, hword⟩ := hashWord_of_obtw hobtw
      have hcs := List.takeWhile_append_dropWhile (p := Char.isAlpha) (l := cs)
      have hrest : cs.drop (hashWord cs).2.length = cs.dropWhile Char.isAlpha := by
        have hdrop : (cs.takeWhile Char.isAlpha ++ cs.dropWhile Char.isAlpha).drop
            (cs.takeWhile Char.isAlpha).length = cs.dropWhile Char.isAlpha := List.drop_left
        rwa [hcs, ← hchars] at hdrop
      rw [hrest, hchars] at h
      split at h
      · cases h
      next body hbody =>
          cases h
          obtain ⟨inner, closing, after, rfl, hdrop, hclosing, hfirst⟩ := closing_of_comment hbody
          refine ⟨after, ?_, .gap _ (by simp) (.of_comment ?_)⟩
          · conv => lhs; rw [← hcs, hdrop]
            simp
          · refine ⟨'#' :: cs.takeWhile Char.isAlpha, inner, closing, by simp, ?_, hclosing, hfirst⟩
            refine ⟨_, rfl, fun c hc => List.mem_takeWhile_imp hc, hword, ?_⟩
            rw [← hdrop]
            exact stops_dropWhile _ _
  next word hne hword =>
      cases h
      have hspelling := HashWord.spelling_of_ofSpelling? hword
      rcases hashWord_cases cs with hone | ⟨first, second, after, hcs, hstops, htwo⟩ | ⟨_, hpartner⟩
      · rw [hone] at hspelling ⊢
        refine ⟨cs.dropWhile Char.isAlpha, by simp, .lexeme _ _ (.hashWord _ _ hne ?_ ?_)⟩
        · rw [hspelling, upper_hash]
        · exact stops_dropWhile _ _
      · rw [htwo] at hspelling ⊢
        refine ⟨after, by simp [hcs], .lexeme _ _ (.hashWord _ _ hne ?_ hstops)⟩
        rw [hspelling, upper_hash]
      · simp [HashWord.ofSpelling?_of_partner? hpartner] at hword

/-! ## The first segment -/

/-- The segment of a word is the text of a keyword or of an identifier. -/
theorem shape_of_ofWord {after chars : List Char} (h : IsWord after chars) :
    Shape after (ofWord chars) := by
  unfold ofWord
  split
  next word hword =>
      exact .lexeme _ _ (.keyword _ _ h (Keyword.spelling_of_ofSpelling? hword))
  next hword => exact .lexeme _ _ (.name _ h hword)

/-- What a run of free text looks like once all of it is found to be blank. -/
theorem blank_of_trim_eq_nil {chars : List Char} (h : Text.trim chars = []) :
    ∀ c ∈ chars, Text.isBlank c = true := by
  intro c hc
  have hdrop : chars.dropWhile Text.isBlank = [] := by
    simp only [Text.trim, Text.trimEnd, List.reverse_eq_nil_iff, List.dropWhile_eq_nil_iff,
      List.mem_reverse] at h
    cases hrest : chars.dropWhile Text.isBlank with
    | nil => rfl
    | cons d rest =>
        have hd := List.head?_dropWhile_not Text.isBlank chars
        rw [hrest] at h hd
        simp [h d (by simp)] at hd
  exact List.dropWhile_eq_nil_iff.mp hdrop c hc

/-- The segment of a run of free text is a gap or the text of a lexeme. -/
theorem shape_of_ofFree {after chars : List Char} (hne : chars ≠ []) (h : IsFreeRun after chars) :
    Shape after (ofFree chars) := by
  simp only [ofFree]
  split
  next hblank =>
      have hall := blank_of_trim_eq_nil (List.isEmpty_iff.mp hblank)
      exact .gap _ hne (.of_blank fun c hc => ⟨hall c hc, (h.2.1 c hc).1⟩)
  next hblank =>
      exact .lexeme _ _ (.text _ h (by simpa using hblank))

/-- Spaces and tabs are blank. -/
theorem blank_of_isSeparator {c : Char} (h : isSeparator c = true) :
    Text.isBlank c = true ∧ c ≠ '\n' := by
  simp only [isSeparator, Bool.or_eq_true, decide_eq_true_eq] at h
  rcases h with rfl | rfl <;> decide

/-- The first segment of a text has one of the shapes of segments. -/
theorem shape_of_first {c : Char} {cs : List Char} {segment : Segment}
    (h : first c cs = .ok segment) : ∃ after, c :: cs = segment.chars ++ after ∧
      Shape after segment := by
  unfold first at h
  split at h
  next hseparator =>
      cases h
      refine ⟨cs.dropWhile isSeparator, by simp, .gap _ (by simp) (.of_blank ?_)⟩
      intro d hd
      rcases List.mem_cons.mp hd with rfl | hd
      · exact blank_of_isSeparator hseparator
      · exact blank_of_isSeparator (List.mem_takeWhile_imp hd)
  next hseparator =>
  split at h
  next hline =>
      cases h
      subst hline
      exact ⟨cs, rfl, .lexeme _ _ .newline⟩
  next hline =>
  split at h
  next hhash =>
      subst hhash
      exact shape_of_ofHash h
  next hhash =>
  split at h
  next halpha =>
      cases h
      refine ⟨cs.dropWhile Char.isAlphanum, by simp, shape_of_ofWord ?_⟩
      exact ⟨c, _, rfl, halpha, fun d hd => List.mem_takeWhile_imp hd, stops_dropWhile _ _⟩
  next halpha =>
      cases h
      refine ⟨cs.dropWhile isFree, by simp, shape_of_ofFree (by simp) ⟨?_, ?_, stops_dropWhile _ _⟩⟩
      · intro d hd
        cases hd
        simpa using halpha
      · intro d hd
        rcases List.mem_cons.mp hd with rfl | hd
        · exact ⟨hline, hhash⟩
        · simpa [isFree] using List.mem_takeWhile_imp hd

end Segment

namespace Segmentation

open Lexing

/-- What holds of a text without segments and is passed from what remains to a text with one more
segment in front holds of every text and its segmentation. -/
theorem ofChars_induction {motive : List Char → Segmentation → Prop}
    (nil : motive [] ⟨[], none⟩)
    (fault : ∀ c cs fault, Segment.first c cs = .error fault → motive (c :: cs) ⟨[], some fault⟩)
    (segment : ∀ c cs segment after, Segment.first c cs = .ok segment →
      c :: cs = segment.chars ++ after → Shape after segment → motive after (ofChars after) →
      motive (c :: cs) (cons segment (ofChars after)))
    (cs : List Char) : motive cs (ofChars cs) := by
  induction hlength : cs.length using Nat.strongRecOn generalizing cs with
  | ind length ih =>
      cases cs with
      | nil => exact nil
      | cons c cs =>
          cases hfirst : Segment.first c cs with
          | error reason =>
              rw [ofChars_of_error hfirst]
              exact fault c cs reason hfirst
          | ok first =>
              obtain ⟨after, hcs, hshape⟩ := Segment.shape_of_first hfirst
              obtain ⟨tail, htail, -⟩ := Segment.isPrefix_first hfirst
              have hlt : after.length < length := by
                have hlengths := congrArg List.length hcs
                simp only [htail, List.length_cons, List.length_append] at hlengths hlength
                omega
              have hrest : (c :: cs).drop first.chars.length = after := by
                rw [hcs, List.drop_left]
              rw [ofChars_of_ok hfirst, hrest]
              exact segment c cs first after hfirst hcs hshape (ih _ hlt after rfl)

end Segmentation

end LolMarkup
