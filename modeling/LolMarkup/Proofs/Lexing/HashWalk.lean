import LolMarkup.Proofs.Lexing.Blanks
import LolMarkup.Proofs.Reading.Placement
import LolMarkup.Proofs.Reading.Refusal

/-!
# What is wrong with a text is decided by its hash words

`HashWalk.walk` looks at nothing but the words after each `#`: it goes from one `#` to the next,
reads the word there, and jumps over comments. It knows neither blanks nor newlines, identifiers,
keywords or free text. `tokenize_by_hash_words` says that scanning fails exactly if the walk does,
with the same message at the same place, and that otherwise the hash words are those of the walk.
-/

namespace LolMarkup

namespace HashWalk

open Segment (upper)
open Lexing (Shape)

/-- A word that the walk meets: the offset of its `#`, and its spelling with the `#`. -/
structure Word where
  offset : Int
  spelling : String
deriving DecidableEq, Repr

/-- Where the walk fails: the offset of the `#`, the identifier of the diagnostic and its
message. -/
structure Failure where
  offset : Int
  id : String
  message : String
deriving DecidableEq, Repr

/-- The maximal run of letters in front of the characters. -/
def letters (cs : List Char) : List Char :=
  cs.takeWhile Char.isAlpha

/-- The word that may follow one of the words that open a hash word of two words. -/
def second? (first : String) : Option String :=
  if first = "I" then some "HAZ"
  else if first = "IT" then some "IZ"
  else if first = "LEMME" then some "SEE"
  else none

/-- The word in front of the characters that follow a `#`, in upper case, and how many characters
are read for it. A second word is read if the first one asks for it and one space follows, and it is
part of the word if it is the one that was asked for. -/
def word (cs : List Char) : String × Nat :=
  let first := letters cs
  match second? (upper first), cs.dropWhile Char.isAlpha with
  | some second, ' ' :: rest =>
      (if upper (letters rest) = second then upper first ++ " " ++ second else upper first,
        first.length + 1 + (letters rest).length)
  | _, _ => (upper first, first.length)

/-- How many characters there are up to the end of the first `#` with the letters `TLDR`. -/
def commentLength? : List Char → Option Nat
  | [] => none
  | c :: cs =>
      if c = '#' ∧ upper (letters cs) = "TLDR" then some (1 + (letters cs).length)
      else (commentLength? cs).map (1 + ·)

/-- The words from an offset on, where `skip` of the characters are already read. -/
def walk (offset : Int) : Nat → List Char → Except Failure (List Word)
  | _, [] => .ok []
  | skip + 1, c :: cs => walk (offset + Text.width c) skip cs
  | 0, c :: cs =>
      if c = '#' then
        let (spelling, length) := word cs
        if "#" ++ spelling ∈ HashWord.all.map HashWord.spelling then
          if spelling = "OBTW" then
            match commentLength? (cs.drop length) with
            | none => .error ⟨offset, "LOL101", "Unclosed comment block - missing #TLDR"⟩
            | some more =>
                (walk (offset + 1) (length + more) cs).map (⟨offset, "#" ++ spelling⟩ :: ·)
          else (walk (offset + 1) length cs).map (⟨offset, "#" ++ spelling⟩ :: ·)
        else .error ⟨offset, "LOL100", "Unrecognized hashtag word '#" ++ spelling ++ "'"⟩
      else walk (offset + Text.width c) 0 cs

/-- The walk over a whole text. -/
def ofText (text : String) : Except Failure (List Word) :=
  walk 0 0 text.toList

/-- The hash words among some tokens. -/
def ofTokens (tokens : List Token) : List Word :=
  tokens.filterMap fun token =>
    match token.lexeme with
    | .hashWord word => some ⟨token.start.offset, word.spelling⟩
    | _ => none

/-! ## Words and comments -/

/-- The walk joins the same words as the lexer does. -/
theorem second?_eq_partner? (first : String) : second? first = HashWord.partner? first := by
  unfold second? HashWord.partner? HashWord.pairs
  simp only [List.lookup]
  grind

/-- The upper case of two words with a space between them is that of each word. -/
theorem upper_append_space (first second : List Char) :
    upper (first ++ ' ' :: second) = upper first ++ " " ++ upper second := by
  apply String.toList_inj.mp
  simp [upper]

/-- The walk reads the same word after a `#` as the scan. -/
theorem word_eq (cs : List Char) :
    word cs = ((Segment.hashWord cs).1, (Segment.hashWord cs).2.length) := by
  simp only [word, Segment.hashWord, letters, second?_eq_partner?]
  cases HashWord.partner? (upper (cs.takeWhile Char.isAlpha)) with
  | none => rfl
  | some second =>
      cases cs.dropWhile Char.isAlpha with
      | nil => rfl
      | cons c rest =>
          by_cases hspace : c = ' '
          · subst hspace
            have hlength : (cs.takeWhile Char.isAlpha).length + 1 +
                (rest.takeWhile Char.isAlpha).length =
                  (cs.takeWhile Char.isAlpha ++ ' ' :: rest.takeWhile Char.isAlpha).length := by
              rw [List.length_append, List.length_cons]
              omega
            by_cases hsecond : upper (rest.takeWhile Char.isAlpha) = second
            · simp only [hsecond, if_true, hlength, upper_append_space]
            · simp only [hsecond, if_false, hlength]
          · simp [hspace]

/-- The walk jumps to the end of a comment that is closed. -/
theorem commentLength?_eq (cs : List Char) :
    commentLength? cs = (Segment.comment cs).map List.length := by
  induction cs with
  | nil => rfl
  | cons c cs ih =>
      by_cases hclose : c = '#' ∧ upper (cs.takeWhile Char.isAlpha) = "TLDR"
      · rw [commentLength?, Segment.comment, letters, if_pos hclose, if_pos hclose]
        exact congrArg some (Nat.add_comm _ _)
      · rw [commentLength?, Segment.comment, letters, if_neg hclose, if_neg hclose, ih]
        cases Segment.comment cs with
        | none => rfl
        | some body => exact congrArg some (Nat.add_comm _ _)

/-- The spelling of a hash word is one of the spellings. -/
theorem mem_spellings {text : String} {found : HashWord}
    (h : HashWord.ofSpelling? text = some found) : text ∈ HashWord.all.map HashWord.spelling :=
  List.mem_map.mpr ⟨found, List.mem_of_find?_eq_some h, HashWord.spelling_of_ofSpelling? h⟩

/-- What spells no hash word is none of the spellings. -/
theorem not_mem_spellings {text : String} (h : HashWord.ofSpelling? text = none) :
    text ∉ HashWord.all.map HashWord.spelling := by
  intro hmem
  obtain ⟨found, hfound, hspelling⟩ := List.mem_map.mp hmem
  simpa [hspelling] using List.find?_eq_none.mp h found hfound

/-- Only the word that starts a comment is spelled `OBTW`. -/
theorem eq_obtw_iff {spelling : String} {found : HashWord}
    (h : HashWord.ofSpelling? ("#" ++ spelling) = some found) :
    spelling = "OBTW" ↔ found = .obtw := by
  have hspelling := HashWord.spelling_of_ofSpelling? h
  constructor
  · rintro rfl
    exact (Option.some.inj h).symm
  · rintro rfl
    apply String.toList_inj.mp
    simpa [HashWord.spelling] using (congrArg String.toList hspelling).symm

/-- The message about an unknown hash word names it. -/
theorem message_unknownWord (spelling : String) :
    (Fault.unknownWord ("#" ++ spelling)).message =
      "Unrecognized hashtag word '#" ++ spelling ++ "'" := by
  show "Unrecognized hashtag word '" ++ ("#" ++ spelling) ++ "'" = _
  apply String.toList_inj.mp
  simp

/-! ## Going on -/

/-- Skipping characters is dropping them. -/
theorem walk_skip (offset : Int) (skip : Nat) (cs : List Char) :
    walk offset skip cs = walk (offset + Text.extent (cs.take skip)) 0 (cs.drop skip) := by
  induction cs generalizing offset skip with
  | nil => cases skip <;> simp [walk]
  | cons c cs ih =>
      cases skip with
      | zero => simp
      | succ skip =>
          rw [walk, ih, List.take_succ_cons, List.drop_succ_cons, Text.extent_cons, Int.add_assoc]

/-- Where there is no `#` the walk goes on. -/
theorem walk_append (offset : Int) {front : List Char} (h : ∀ c ∈ front, c ≠ '#')
    (after : List Char) :
    walk offset 0 (front ++ after) = walk (offset + Text.extent front) 0 after := by
  induction front generalizing offset with
  | nil => simp
  | cons c front ih =>
      have hrest := ih (offset + Text.width c) fun d hd => h d (List.mem_cons_of_mem c hd)
      rw [List.cons_append, walk, if_neg (h c List.mem_cons_self), hrest, Text.extent_cons,
        Int.add_assoc]

/-- What was read after a `#` is passed over. -/
theorem walk_taken (offset : Int) {taken cs : List Char} (h : taken <+: cs) :
    walk (offset + 1) taken.length cs =
      walk (offset + Text.extent ('#' :: taken)) 0 (('#' :: cs).drop ('#' :: taken).length) := by
  have htaken : cs.take taken.length = taken := (List.prefix_iff_eq_take.mp h).symm
  have hextent : Text.extent ('#' :: taken) = 1 + Text.extent taken := Text.extent_cons '#' taken
  rw [walk_skip, htaken, hextent, Int.add_assoc, List.length_cons, List.drop_succ_cons]

/-- Where the scan stops at a `#`, the walk fails with the same message. -/
theorem walk_of_error (offset : Int) {cs : List Char} {fault : Fault}
    (h : Segment.ofHash cs = .error fault) :
    walk offset 0 ('#' :: cs) = .error ⟨offset, fault.code.id, fault.message⟩ := by
  simp only [walk, word_eq, if_true]
  simp only [Segment.ofHash] at h
  split at h
  next hnone =>
      cases h
      rw [if_neg (not_mem_spellings hnone), message_unknownWord]
      rfl
  next hobtw =>
      rw [if_pos (mem_spellings hobtw), if_pos ((eq_obtw_iff hobtw).mpr rfl), commentLength?_eq]
      split at h
      next hopen =>
          cases h
          rw [hopen]
          rfl
      next => cases h
  next => cases h

/-- Where the scan goes on after a `#`, the walk does so with a word that is a comment exactly if
the scan takes the characters for a gap. -/
theorem walk_of_ok (offset : Int) {cs : List Char} {segment : Segment}
    (h : Segment.ofHash cs = .ok segment) :
    ∃ word : HashWord, (segment.lexeme = none ∧ word = .obtw ∨
        segment.lexeme = some (.hashWord word) ∧ word ≠ .obtw) ∧
      walk offset 0 ('#' :: cs) = (walk (offset + Text.extent segment.chars) 0
        (('#' :: cs).drop segment.chars.length)).map (⟨offset, word.spelling⟩ :: ·) := by
  obtain ⟨taken, htaken, hprefix⟩ := Segment.isPrefix_ofHash h
  have hwalk := walk_taken offset hprefix
  rw [← htaken] at hwalk
  rw [← hwalk]
  simp only [walk, word_eq, if_true]
  simp only [Segment.ofHash] at h
  split at h
  next => cases h
  next hobtw =>
      rw [if_pos (mem_spellings hobtw), if_pos ((eq_obtw_iff hobtw).mpr rfl), commentLength?_eq]
      split at h
      next => cases h
      next body hbody =>
          cases h
          refine ⟨.obtw, .inl ⟨rfl, rfl⟩, ?_⟩
          obtain rfl : taken = (Segment.hashWord cs).2 ++ body := (List.cons.inj htaken).2.symm
          rw [hbody, HashWord.spelling_of_ofSpelling? hobtw, List.length_append]
          rfl
  next found hne hfound =>
      cases h
      refine ⟨found, .inr ⟨rfl, hne⟩, ?_⟩
      obtain rfl := (List.cons.inj htaken).2
      rw [if_pos (mem_spellings hfound), if_neg (mt (eq_obtw_iff hfound).mp hne),
        HashWord.spelling_of_ofSpelling? hfound]

/-! ## The scan and the walk -/

/-- The scan says what the walk does: it ends with a fault of the same place and message if the walk
fails, and else it has the hash words of the walk. -/
def Matches (scan : Scan) : Except Failure (List Word) → Prop
  | .ok words => (∃ position, scan.ending = .endOfInput position) ∧
      ofTokens scan.tokens = words.filter (·.spelling ≠ "#OBTW")
  | .error failure => ∃ error, scan.ending = .fault error ∧
      error.position.offset = failure.offset ∧ error.fault.code.id = failure.id ∧
      error.fault.message = failure.message

/-- Only what starts with a `#` is a hash word. -/
theorem hash_of_lexeme {c : Char} {cs after : List Char} {segment : Segment} {word : HashWord}
    (hcs : c :: cs = segment.chars ++ after) (hshape : Shape after segment)
    (hlexeme : segment.lexeme = some (.hashWord word)) : c = '#' := by
  cases hshape with
  | gap => cases hlexeme
  | lexeme chars found hspells =>
      cases hlexeme
      obtain ⟨rest, rfl⟩ := hspells.head_hashWord
      exact (List.cons.inj hcs).1

/-- The hash words of tokens that follow one another follow one another. -/
theorem ofTokens_append (front back : List Token) :
    ofTokens (front ++ back) = ofTokens front ++ ofTokens back :=
  List.filterMap_append

/-- A segment that is no hash word changes nothing. -/
theorem Matches.plain {position : Position} {segment : Segment} {cut : Segmentation}
    {result : Except Failure (List Word)}
    (h : Matches (.ofSegmentation (position.after segment.chars) cut) result)
    (hlexeme : ∀ word, segment.lexeme ≠ some (.hashWord word)) :
    Matches (.ofSegmentation position (.cons segment cut)) result := by
  have htokens : ofTokens (Scan.ofSegmentation position (.cons segment cut)).tokens =
      ofTokens (Scan.ofSegmentation (position.after segment.chars) cut).tokens := by
    show ofTokens (Scan.placed position (segment :: cut.segments)) = _
    rw [Scan.placed_cons, ofTokens_append]
    cases hfound : segment.lexeme with
    | none => rfl
    | some lexeme =>
        cases lexeme with
        | hashWord word => exact absurd hfound (hlexeme word)
        | _ => rfl
  cases result with
  | error failure => exact h
  | ok words => exact ⟨h.1, htokens.trans h.2⟩

/-- A hash word in front is one word more, unless it opens a comment. -/
theorem Matches.hash {position : Position} {segment : Segment} {cut : Segmentation}
    {result : Except Failure (List Word)} {word : HashWord}
    (h : Matches (.ofSegmentation (position.after segment.chars) cut) result)
    (hlexeme : segment.lexeme = none ∧ word = .obtw ∨
      segment.lexeme = some (.hashWord word) ∧ word ≠ .obtw) :
    Matches (.ofSegmentation position (.cons segment cut))
      (result.map (⟨position.offset, word.spelling⟩ :: ·)) := by
  cases result with
  | error failure => exact h
  | ok words =>
      refine ⟨h.1, ?_⟩
      rcases hlexeme with ⟨hgap, rfl⟩ | ⟨hword, hne⟩
      · have hplain : Matches (.ofSegmentation position (.cons segment cut)) (.ok words) :=
          h.plain (by simp [hgap])
        exact hplain.2
      · have hspelling : word.spelling ≠ "#OBTW" := by
          intro hspelling
          have hfound := congrArg HashWord.ofSpelling? hspelling
          rw [HashWord.ofSpelling?_spelling] at hfound
          exact hne (Option.some.inj hfound)
        have hkept : (Word.mk position.offset word.spelling :: words).filter
            (·.spelling ≠ "#OBTW") = ⟨position.offset, word.spelling⟩ ::
              words.filter (·.spelling ≠ "#OBTW") :=
          List.filter_cons_of_pos (by simpa using hspelling)
        show ofTokens (Scan.placed position (segment :: cut.segments)) = List.filter _ (_ :: words)
        rw [hkept, ← h.2, Scan.placed_cons, ofTokens_append, hword]
        rfl

/-- The scan of every text says what the walk over it does. -/
theorem matches_walk (position : Position) (cs : List Char) :
    Matches (.ofSegmentation position (Segmentation.ofChars cs)) (walk position.offset 0 cs) := by
  induction cs using Segmentation.ofChars_induction generalizing position with
  | nil => exact ⟨⟨_, rfl⟩, rfl⟩
  | fault c cs fault hfirst =>
      have hhash : c = '#' := by
        by_contra hhash
        obtain ⟨segment, hsegment⟩ := Segment.exists_first_of_ne_hash hhash cs
        rw [hsegment] at hfirst
        cases hfirst
      subst hhash
      rw [walk_of_error position.offset hfirst]
      exact ⟨_, rfl, rfl, rfl, rfl⟩
  | segment c cs segment after hfirst hcs hshape ih =>
      have hrest := ih (position.after segment.chars)
      rw [Position.offset_after] at hrest
      by_cases hhash : c = '#'
      · subst hhash
        obtain ⟨word, hlexeme, hwalk⟩ := walk_of_ok position.offset hfirst
        rw [hwalk, hcs, List.drop_left]
        exact hrest.hash hlexeme
      · obtain ⟨tail, htail, -⟩ := Segment.isPrefix_first hfirst
        have hplain : ∀ d ∈ segment.chars, d ≠ '#' := by
          intro d hd
          rw [htail] at hd
          rcases List.mem_cons.mp hd with rfl | hd
          · exact hhash
          · exact (Segment.plain_of_first hhash hfirst htail d hd).1
        rw [hcs, walk_append _ hplain]
        exact hrest.plain fun word hlexeme => hhash (hash_of_lexeme hcs hshape hlexeme)

/-- The diagnostic says what the walk failed with, at the place of the `#`. -/
structure Failure.Reported (source : Source) (failure : Failure) (d : Diagnostic) : Prop where
  id : d.code.id = failure.id
  message : d.message = failure.message
  line : d.line = some (source.positionAt failure.offset).line
  column : d.column = some (source.positionAt failure.offset).column
  severity : d.severity = .error
  file : d.file = source.path

/-- A failure is reported in one way. -/
theorem Failure.Reported.unique {source : Source} {failure : Failure} {d other : Diagnostic}
    (h : failure.Reported source d) (hother : failure.Reported source other) : d = other := by
  have hcode : d.code = other.code := by
    have hid := congrArg Code.ofId? (h.id.trans hother.id.symm)
    rwa [Code.ofId?_id, Code.ofId?_id, Option.some.injEq] at hid
  cases d
  cases other
  simp only [Diagnostic.mk.injEq]
  exact ⟨hcode, h.severity.trans hother.severity.symm, h.message.trans hother.message.symm,
    h.file.trans hother.file.symm, h.line.trans hother.line.symm,
    h.column.trans hother.column.symm⟩

end HashWalk

open Lexing

/-- A lexical error stands at the position of its offset. -/
theorem Source.positionAt_of_fault {source : Source} {error : LexicalError}
    (h : source.scan.ending = .fault error) :
    source.positionAt error.position.offset = error.position := by
  have hcut : Segmentation.ofChars source.text.toList =
      ⟨(Segmentation.ofChars source.text.toList).segments ++ [],
        (Segmentation.ofChars source.text.toList).fault⟩ := by
    rw [List.append_nil]
  obtain ⟨rest, htext, -⟩ := Segmentation.flatMap_chars_ofChars hcut
  have hposition : error.position =
      reached ((Segmentation.ofChars source.text.toList).segments.flatMap Segment.chars) := by
    rw [reached, ← Scan.endPosition_eq]
    rw [scan, Scan.ofChars, Scan.ofSegmentation] at h
    cases hfault : (Segmentation.ofChars source.text.toList).fault with
    | none => rw [hfault] at h; cases h
    | some fault => rw [hfault] at h; cases h; rfl
  rw [hposition]
  exact (hasPosition_reached htext).eq.symm

/-- Whether a text has a lexical error is decided by its hash words alone: scanning fails exactly if
the walk over the hash words does, with the identifier and the message of the walk and at the place
where it fails. Otherwise the hash words of the text are those that the walk meets, apart from the
words that open comments. -/
theorem tokenize_by_hash_words (source : Source) :
    (∀ d, source.tokenize = .error d ↔ ∃ failure,
      HashWalk.ofText source.text = .error failure ∧ failure.Reported source d) ∧
    ∀ tokens, source.tokenize = .ok tokens → ∃ words, HashWalk.ofText source.text = .ok words ∧
      HashWalk.ofTokens tokens = words.filter (·.spelling ≠ "#OBTW") := by
  have hmatches : HashWalk.Matches source.scan (HashWalk.ofText source.text) :=
    HashWalk.matches_walk .origin source.text.toList
  cases hwalk : HashWalk.ofText source.text with
  | ok words =>
      rw [hwalk] at hmatches
      obtain ⟨⟨position, hending⟩, hwords⟩ := hmatches
      constructor
      · intro d
        constructor
        · intro hd
          obtain ⟨error, hfault, -⟩ := Source.tokenize_eq_error_iff.mp hd
          rw [hending] at hfault
          cases hfault
        · rintro ⟨failure, hfailure, -⟩
          cases hfailure
      · intro tokens htokens
        obtain ⟨last, -, rfl⟩ := Source.tokenize_eq_ok_iff.mp htokens
        refine ⟨words, rfl, ?_⟩
        rw [HashWalk.ofTokens_append, hwords]
        exact List.append_nil _
  | error failure =>
      rw [hwalk] at hmatches
      obtain ⟨error, hfault, hoffset, hid, hmessage⟩ := hmatches
      have hposition := Source.positionAt_of_fault hfault
      rw [hoffset] at hposition
      have hreported : failure.Reported source (error.diagnostic source.path) :=
        ⟨hid, hmessage, by rw [hposition]; rfl, by rw [hposition]; rfl, rfl, rfl⟩
      have herror := Source.tokenize_eq_error_iff.mpr ⟨error, hfault, rfl⟩
      constructor
      · intro d
        constructor
        · intro hd
          rw [herror] at hd
          cases hd
          exact ⟨failure, rfl, hreported⟩
        · rintro ⟨other, hother, hd⟩
          cases hother
          rw [hreported.unique hd] at herror
          exact herror
      · intro tokens htokens
        rw [herror] at htokens
        cases htokens

/-- A second word that does not belong to the first is read with it, so that the `#` after it is the
next one, and words in a comment are none. -/
example : HashWalk.ofText "a#OBTW #HAI#tldr #i haz#It is#OIC" =
    .error ⟨23, "LOL100", "Unrecognized hashtag word '#IT'"⟩ := by
  rfl

end LolMarkup
