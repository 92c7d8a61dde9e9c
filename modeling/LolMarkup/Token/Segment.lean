import LolMarkup.Diagnostic
import LolMarkup.Text.Blank
import LolMarkup.Token.Basic

/-!
# Cutting a text into segments

A text is cut from left to right into segments that lie end to end. A segment is either the text of
one lexeme or a gap: a run of spaces and tabs, a comment, or a run of free text that is all blank.
Which segment stands first is decided by the first character alone; where it ends depends on
the characters that follow. Cutting stops at the first `#` that starts neither a hash word nor a
closed comment.
-/

namespace LolMarkup

/-- What stops the cutting of a text. -/
inductive Fault where
  | unknownWord (spelling : String)
  | unclosedComment
deriving DecidableEq, Repr

namespace Fault

/-- The code under which a fault is diagnosed. -/
def code : Fault → Code
  | unknownWord _ => .unknownHashWord
  | unclosedComment => .unclosedComment

/-- What the user is told about a fault. -/
def message : Fault → String
  | unknownWord spelling => s!"Unrecognized hashtag word '{spelling}'"
  | unclosedComment => "Unclosed comment block - missing #TLDR"

end Fault

/-- A nonempty stretch of text, with its lexeme unless it is a gap. -/
structure Segment where
  chars : List Char
  lexeme : Option Lexeme
deriving DecidableEq, Repr

namespace Segment

/-- Spaces and tabs separate tokens; other blank characters belong to free text. -/
def isSeparator (c : Char) : Bool :=
  c = ' ' || c = '\t'

/-- Free text runs up to the end of the line or the next `#`. -/
def isFree (c : Char) : Bool :=
  c ≠ '\n' && c ≠ '#'

/-- The text of the characters with its letters in upper case. -/
def upper (cs : List Char) : String :=
  String.ofList (cs.map Char.toUpper)

/-- The hash word in front of the characters that follow a `#`: its spelling, and the characters it
takes. A word that can open a hash word of two words takes one space and the word after it
too, and is spelled with that word only if the two belong together. -/
def hashWord (cs : List Char) : String × List Char :=
  let first := cs.takeWhile Char.isAlpha
  match HashWord.partner? (upper first), cs.dropWhile Char.isAlpha with
  | some partner, ' ' :: rest =>
      let second := rest.takeWhile Char.isAlpha
      let spelling := if upper second = partner then upper (first ++ ' ' :: second) else upper first
      (spelling, first ++ ' ' :: second)
  | _, _ => (upper first, first)

/-- The characters of a hash word stand in front. -/
theorem isPrefix_hashWord (cs : List Char) : (hashWord cs).2 <+: cs := by
  have hfirst := List.takeWhile_append_dropWhile (p := Char.isAlpha) (l := cs)
  simp only [hashWord]
  split
  next rest _ hrest =>
      rw [hrest] at hfirst
      conv => rhs; rw [← hfirst]
      exact (List.prefix_append_right_inj _).mpr
        (List.cons_prefix_cons.mpr ⟨rfl, List.takeWhile_prefix _⟩)
  · exact List.takeWhile_prefix _

/-- The characters of a comment after its opening word, up to and including the word that closes
it, or nothing if the comment is never closed. -/
def comment : List Char → Option (List Char)
  | [] => none
  | c :: cs =>
      let word := cs.takeWhile Char.isAlpha
      if c = '#' ∧ upper word = "TLDR" then some (c :: word)
      else (comment cs).map (c :: ·)

/-- The characters of a comment stand in front. -/
theorem isPrefix_comment {cs body : List Char} (h : comment cs = some body) : body <+: cs := by
  induction cs generalizing body with
  | nil => simp [comment] at h
  | cons c cs ih =>
      simp only [comment] at h
      split at h
      · cases h
        exact List.cons_prefix_cons.mpr ⟨rfl, List.takeWhile_prefix _⟩
      · obtain ⟨rest, hrest, rfl⟩ := Option.map_eq_some_iff.mp h
        exact List.cons_prefix_cons.mpr ⟨rfl, ih hrest⟩

/-- The segment that starts at a `#` with the given characters after it. -/
def ofHash (cs : List Char) : Except Fault Segment :=
  let (word, chars) := hashWord cs
  match HashWord.ofSpelling? ("#" ++ word) with
  | none => .error (.unknownWord ("#" ++ word))
  | some .obtw =>
      match comment (cs.drop chars.length) with
      | none => .error .unclosedComment
      | some body => .ok ⟨'#' :: chars ++ body, none⟩
  | some word => .ok ⟨'#' :: chars, some (.hashWord word)⟩

/-- The characters of a segment that starts at a `#` stand in front. -/
theorem isPrefix_ofHash {cs : List Char} {segment : Segment} (h : ofHash cs = .ok segment) :
    ∃ tail, segment.chars = '#' :: tail ∧ tail <+: cs := by
  have hword := isPrefix_hashWord cs
  simp only [ofHash] at h
  split at h
  · cases h
  · split at h
    · cases h
    next body hbody =>
        cases h
        refine ⟨_, rfl, ?_⟩
        conv => rhs; rw [← List.prefix_iff_eq_append.mp hword]
        exact (List.prefix_append_right_inj _).mpr (isPrefix_comment hbody)
  · cases h
    exact ⟨_, rfl, hword⟩

/-- The segment of a word: a keyword in whatever letter case, or else an identifier. -/
def ofWord (chars : List Char) : Segment :=
  match Keyword.ofSpelling? (upper chars) with
  | some word => ⟨chars, some (.keyword word)⟩
  | none => ⟨chars, some (.name (String.ofList chars))⟩

/-- A word takes all of its characters. -/
@[simp] theorem chars_ofWord (chars : List Char) : (ofWord chars).chars = chars := by
  unfold ofWord
  split <;> rfl

/-- The segment of a run of free text, which is a gap if all of it is blank. -/
def ofFree (chars : List Char) : Segment :=
  let content := Text.trim chars
  if content.isEmpty then ⟨chars, none⟩ else ⟨chars, some (.text (String.ofList content))⟩

/-- Free text takes all of its characters, blank ones included. -/
@[simp] theorem chars_ofFree (chars : List Char) : (ofFree chars).chars = chars := by
  simp only [ofFree]
  split <;> rfl

/-- The first segment of the text that starts with `c` and goes on with `cs`. -/
def first (c : Char) (cs : List Char) : Except Fault Segment :=
  if isSeparator c then .ok ⟨c :: cs.takeWhile isSeparator, none⟩
  else if c = '\n' then .ok ⟨[c], some .newline⟩
  else if c = '#' then ofHash cs
  else if c.isAlpha then .ok (ofWord (c :: cs.takeWhile Char.isAlphanum))
  else .ok (ofFree (c :: cs.takeWhile isFree))

/-- The characters of the first segment stand in front, and the first of them is its first. -/
theorem isPrefix_first {c : Char} {cs : List Char} {segment : Segment}
    (h : first c cs = .ok segment) : ∃ tail, segment.chars = c :: tail ∧ tail <+: cs := by
  unfold first at h
  split at h
  · cases h
    exact ⟨_, rfl, List.takeWhile_prefix _⟩
  split at h
  · cases h
    exact ⟨_, rfl, List.nil_prefix⟩
  split at h
  next hc =>
      subst hc
      exact isPrefix_ofHash h
  split at h
  · cases h
    exact ⟨_, chars_ofWord _, List.takeWhile_prefix _⟩
  · cases h
    exact ⟨_, chars_ofFree _, List.takeWhile_prefix _⟩

end Segment

/-- A text cut into segments, up to its end or to a fault. -/
structure Segmentation where
  segments : List Segment
  fault : Option Fault
deriving DecidableEq, Repr

namespace Segmentation

/-- Put a segment in front. -/
def cons (segment : Segment) (rest : Segmentation) : Segmentation :=
  { rest with segments := segment :: rest.segments }

/-- Cut the characters, the first `skip` of which belong to a segment that is already cut. -/
def cut : Nat → List Char → Segmentation
  | _, [] => ⟨[], none⟩
  | skip + 1, _ :: cs => cut skip cs
  | 0, c :: cs =>
      match Segment.first c cs with
      | .error fault => ⟨[], some fault⟩
      | .ok segment => cons segment (cut (segment.chars.length - 1) cs)

/-- Skipping characters of a segment that is already cut is dropping them. -/
theorem cut_eq_cut_drop (skip : Nat) (cs : List Char) : cut skip cs = cut 0 (cs.drop skip) := by
  induction cs generalizing skip with
  | nil => cases skip <;> rfl
  | cons c cs ih =>
      cases skip with
      | zero => rfl
      | succ skip => exact ih skip

/-- Cut a text into segments. -/
def ofChars (cs : List Char) : Segmentation :=
  cut 0 cs

/-- An empty text has no segments and no fault. -/
@[simp] theorem ofChars_nil : ofChars [] = ⟨[], none⟩ := rfl

/-- A text that starts with a fault is not cut at all. -/
theorem ofChars_of_error {c : Char} {cs : List Char} {fault : Fault}
    (h : Segment.first c cs = .error fault) : ofChars (c :: cs) = ⟨[], some fault⟩ := by
  simp [ofChars, cut, h]

/-- A text is its first segment followed by the segments of what remains. -/
theorem ofChars_of_ok {c : Char} {cs : List Char} {segment : Segment}
    (h : Segment.first c cs = .ok segment) :
    ofChars (c :: cs) = cons segment (ofChars ((c :: cs).drop segment.chars.length)) := by
  obtain ⟨tail, htail, -⟩ := Segment.isPrefix_first h
  simp only [ofChars, cut, h, htail, List.length_cons, List.drop_succ_cons, Nat.add_sub_cancel]
  rw [cut_eq_cut_drop]

end Segmentation

end LolMarkup
