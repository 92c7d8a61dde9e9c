import LolMarkup.Compilation
import LolMarkup.Proofs.Lexing.Positions
import LolMarkup.Proofs.Lexing.UpperCase

/-!
# The letter case of reserved words

Two texts that differ only in letter case, and not within names and free text, have the same scan
(`Source.scan_of_letters`): in upper case they are the same text, so that their tokens have the same
places and kinds, and a name or a free text says what is written there. No name and no free text
lies where a reserved word does (`Source.InReserved.not_keepsCase`), so that the case of letters may
be changed in all of these at once (`letter_case_irrelevant`).
-/

namespace LolMarkup

open Lexing

namespace Lexeme

/-- The lexeme has the letters with which it is written. -/
def KeepsCase : Lexeme → Prop
  | text _ => True
  | name _ => True
  | _ => False

/-- A lexeme that does not keep its letters is known by its upper case. -/
theorem eq_of_raised {lexeme other : Lexeme} (h : ¬ lexeme.KeepsCase)
    (hraised : other.raised = lexeme.raised) : other = lexeme := by
  cases lexeme with
  | text | name => exact absurd trivial h
  | _ => cases other <;> simp_all [raised]

end Lexeme

/-- Names, or free texts, that are written with the same characters are the same. -/
theorem Lexing.Spells.eq_of_keepsCase {back back' chars : List Char} {lexeme other : Lexeme}
    (h : Spells back lexeme chars) (hother : Spells back' other chars) (hkeeps : lexeme.KeepsCase)
    (hraised : other.raised = lexeme.raised) : other = lexeme := by
  cases h with
  | text =>
      cases hother with
      | text => rfl
      | _ => cases hraised
  | name =>
      cases hother with
      | name => rfl
      | _ => cases hraised
  | _ => exact absurd hkeeps id

namespace Source

variable {source other : Source}

/-- Every token of a scan stands in the text. -/
theorem writes_of_mem {token : Token} (h : token ∈ source.scan.tokens) : source.Writes token := by
  obtain ⟨before, after, htokens⟩ := List.append_of_mem h
  exact (locate htokens).1

/-- Tokens that have the same places and, in whatever letter case, say the same are the same, if
those that keep their case are written with the same letters. -/
theorem tokens_eq_of_raised {tokens others : List Token}
    (htokens : ∀ token ∈ tokens, source.Writes token)
    (hothers : ∀ token ∈ others, other.Writes token)
    (hraised : others.map Token.raised = tokens.map Token.raised)
    (hkept : ∀ token ∈ tokens, token.lexeme.KeepsCase →
      Text.slice token.start.offset token.stop.offset other.text.toList =
        Text.slice token.start.offset token.stop.offset source.text.toList) :
    others = tokens := by
  induction tokens generalizing others with
  | nil => exact List.map_eq_nil_iff.mp hraised
  | cons token tokens ih =>
      obtain ⟨changed, rest, rfl, hfirst, hrest⟩ := List.map_eq_cons_iff.mp hraised
      obtain ⟨lexeme, start, stop⟩ := token
      obtain ⟨lexeme', start', stop'⟩ := changed
      obtain ⟨hlexeme, rfl, rfl⟩ := Token.mk.inj hfirst
      have hsame : lexeme' = lexeme := by
        by_cases hkeeps : lexeme.KeepsCase
        · obtain ⟨back, hspells⟩ := (htokens _ List.mem_cons_self).slice
          obtain ⟨back', hspells'⟩ := (hothers _ List.mem_cons_self).slice
          rw [hkept _ List.mem_cons_self hkeeps] at hspells'
          exact hspells.eq_of_keepsCase hspells' hkeeps hlexeme
        · exact Lexeme.eq_of_raised hkeeps hlexeme
      have hlater := ih (fun token hmem => htokens token (List.mem_cons_of_mem _ hmem))
        (fun token hmem => hothers token (List.mem_cons_of_mem _ hmem)) hrest
        (fun token hmem => hkept token (List.mem_cons_of_mem _ hmem))
      rw [hsame, hlater]

/-- A text that differs from another one only in letter case, and not within names and free text,
has the same scan. -/
theorem scan_of_letters
    (hletters : other.text.toList.map Char.toUpper = source.text.toList.map Char.toUpper)
    (hkept : ∀ token ∈ source.scan.tokens, token.lexeme.KeepsCase →
      Text.slice token.start.offset token.stop.offset other.text.toList =
        Text.slice token.start.offset token.stop.offset source.text.toList) :
    other.scan = source.scan := by
  have hraised : other.scan.raised = source.scan.raised := by
    rw [scan, ← Scan.ofChars_raised, hletters, Scan.ofChars_raised, ← scan]
  obtain ⟨htokens, hending⟩ := Scan.mk.inj hraised
  have hsame : other.scan.tokens = source.scan.tokens :=
    tokens_eq_of_raised (fun _ => writes_of_mem) (fun _ => writes_of_mem) htokens hkept
  rw [show other.scan = ⟨other.scan.tokens, other.scan.ending⟩ from rfl, hsame, hending]

end Source

/-! ## Reserved words -/

namespace Text

/-- The characters from an offset on, and the same characters with the case of letters changed at
some of the offsets where this is allowed. -/
inductive Recased (allowed : Int → Prop) : Int → List Char → List Char → Prop where
  | nil (offset : Int) : Recased allowed offset [] []
  | keep (c : Char) {offset : Int} {cs ds : List Char} :
      Recased allowed (offset + width c) cs ds → Recased allowed offset (c :: cs) (c :: ds)
  | change (c d : Char) {offset : Int} {cs ds : List Char} : d.toUpper = c.toUpper →
      allowed offset → Recased allowed (offset + width c) cs ds →
      Recased allowed offset (c :: cs) (d :: ds)

namespace Recased

variable {allowed : Int → Prop} {offset first last : Int} {cs ds : List Char}

/-- Characters in front may stay as they are. -/
theorem keeps (front : List Char) (h : Recased allowed (offset + extent front) cs ds) :
    Recased allowed offset (front ++ cs) (front ++ ds) := by
  induction front generalizing offset with
  | nil => simpa using h
  | cons c front ih =>
      refine .keep c (ih ?_)
      rwa [extent_cons, ← Int.add_assoc] at h

/-- Only the case of letters changes. -/
theorem letters (h : Recased allowed offset cs ds) :
    ds.map Char.toUpper = cs.map Char.toUpper := by
  induction h with
  | nil => rfl
  | keep c _ ih => rw [List.map_cons, List.map_cons, ih]
  | change c d hcase _ _ ih => rw [List.map_cons, List.map_cons, hcase, ih]

/-- Where no change is allowed the characters are the same. -/
theorem sliceAt (h : Recased allowed offset cs ds)
    (hnone : ∀ place, first ≤ place → place < last → ¬ allowed place) :
    Text.sliceAt offset first last ds = Text.sliceAt offset first last cs := by
  induction h with
  | nil => rfl
  | keep c _ ih => rw [Text.sliceAt, Text.sliceAt, ih]
  | @change c d offset cs ds hcase hallowed _ ih =>
      have hwidth : width d = width c := by rw [← width_toUpper, hcase, width_toUpper]
      have houtside : ¬ (first ≤ offset ∧ offset < last) :=
        fun hin => hnone offset hin.1 hin.2 hallowed
      rw [Text.sliceAt, Text.sliceAt, if_neg houtside, if_neg houtside, hwidth, ih]

end Recased

end Text

/-- The offset lies in what a token takes of the text. -/
def Token.Covers (token : Token) (offset : Int) : Prop :=
  token.start.offset ≤ offset ∧ offset < token.stop.offset

/-- Whether a token covers an offset is decided by comparing offsets. -/
instance (token : Token) (offset : Int) : Decidable (token.Covers offset) :=
  inferInstanceAs (Decidable (_ ∧ _))

namespace Source

variable {source : Source}

/-- The offset lies in a reserved word of the source: in a hash word or a keyword, or in a word that
opens or closes a comment and thus lies in no token. -/
inductive InReserved (source : Source) (offset : Int) : Prop where
  | hashWord (token : Token) (word : HashWord) : token ∈ source.scan.tokens →
      token.lexeme = .hashWord word → token.Covers offset → InReserved source offset
  | keyword (token : Token) (word : Keyword) : token ∈ source.scan.tokens →
      token.lexeme = .keyword word → token.Covers offset → InReserved source offset
  | delimiter (front mark back : List Char) : source.text.toList = front ++ mark ++ back →
      Segment.upper mark = "#OBTW" ∨ Segment.upper mark = "#TLDR" →
      Text.extent front ≤ offset → offset < Text.extent (front ++ mark) →
      (∀ token ∈ source.scan.tokens, ¬ token.Covers offset) → InReserved source offset

/-- Only one token lies at an offset. -/
theorem eq_of_covers {first second : Token} {offset : Int} (hfirst : first ∈ source.scan.tokens)
    (hsecond : second ∈ source.scan.tokens) (hcovers : first.Covers offset)
    (hother : second.Covers offset) : first = second := by
  let Apart (first second : Token) : Prop :=
    first.stop.offset ≤ second.start.offset ∨ second.stop.offset ≤ first.start.offset
  have : Std.Symm Apart := ⟨fun _ _ h => h.symm⟩
  have hapart : source.scan.tokens.Pairwise Apart :=
    source.sorted_tokens.imp .inl
  by_contra hne
  have hsides := hapart.forall hfirst hsecond hne
  unfold Token.Covers at hcovers hother
  rcases hsides with hside | hside
  · omega
  · omega

/-- No name and no free text lies at an offset in a reserved word. -/
theorem InReserved.not_keepsCase {token : Token} {offset : Int} (h : source.InReserved offset)
    (hmem : token ∈ source.scan.tokens) (hcovers : token.Covers offset) :
    ¬ token.lexeme.KeepsCase := by
  cases h with
  | hashWord other word hother hword hin =>
      rw [eq_of_covers hmem hother hcovers hin, hword]
      exact id
  | keyword other word hother hword hin =>
      rw [eq_of_covers hmem hother hcovers hin, hword]
      exact id
  | delimiter _ _ _ _ _ _ _ hnone => exact absurd hcovers (hnone token hmem)

end Source

/-- The letter case of reserved words is irrelevant. If the case of letters is changed within hash
words, keywords and the words around comments, then the tokens, the document and all that is
compiled stay the same, and so do the diagnostics. -/
theorem letter_case_irrelevant {path text changed : String}
    (h : Text.Recased (Source.mk path text).InReserved 0 text.toList changed.toList) :
    (Source.mk path changed).tokenize = (Source.mk path text).tokenize ∧
      (Source.mk path changed).document = (Source.mk path text).document ∧
      ∀ (here : Path) (options : Options),
        (Source.mk path changed).compile here options =
          (Source.mk path text).compile here options := by
  have hscan : (Source.mk path changed).scan = (Source.mk path text).scan := by
    refine Source.scan_of_letters h.letters ?_
    intro token hmem hkeeps
    refine h.sliceAt ?_
    intro offset hstart hstop hreserved
    exact hreserved.not_keepsCase hmem ⟨hstart, hstop⟩ hkeeps
  have htokenize : (Source.mk path changed).tokenize = (Source.mk path text).tokenize := by
    rw [Source.tokenize, hscan]
    rfl
  have hdocument : (Source.mk path changed).document = (Source.mk path text).document := by
    rw [Source.document, Source.read, hscan]
    rfl
  refine ⟨htokenize, hdocument, fun here options => ?_⟩
  simp only [Source.compile, Source.listing, htokenize, hdocument]
  rfl

/-- Letters are changed in a hash word, in both words around a comment and in a keyword, and the
name between them keeps its own. -/
theorem letter_case_irrelevant_commented :
    Text.Recased (Source.mk "doc.lol" "#Hai aB #OBTW#TLDR Bold").InReserved 0
        "#Hai aB #OBTW#TLDR Bold".toList "#hai aB #oBTW#TlDR BOld".toList ∧
      (Source.mk "doc.lol" "#hai aB #oBTW#TlDR BOld").tokenize =
        .ok [⟨.hashWord .hai, ⟨1, 1, 0⟩, ⟨1, 5, 4⟩⟩, ⟨.name "aB", ⟨1, 6, 5⟩, ⟨1, 8, 7⟩⟩,
          ⟨.keyword .bold, ⟨1, 20, 19⟩, ⟨1, 24, 23⟩⟩, ⟨.eof, ⟨1, 24, 23⟩, ⟨1, 24, 23⟩⟩] := by
  have htokens : (Source.mk "doc.lol" "#Hai aB #OBTW#TLDR Bold").scan.tokens =
      [⟨.hashWord .hai, ⟨1, 1, 0⟩, ⟨1, 5, 4⟩⟩, ⟨.name "aB", ⟨1, 6, 5⟩, ⟨1, 8, 7⟩⟩,
        ⟨.keyword .bold, ⟨1, 20, 19⟩, ⟨1, 24, 23⟩⟩] := by rfl
  have hhai : (Source.mk "doc.lol" "#Hai aB #OBTW#TLDR Bold").InReserved 1 :=
    .hashWord ⟨.hashWord .hai, ⟨1, 1, 0⟩, ⟨1, 5, 4⟩⟩ .hai (by simp [htokens]) rfl (by decide)
  have hobtw : (Source.mk "doc.lol" "#Hai aB #OBTW#TLDR Bold").InReserved 9 :=
    .delimiter "#Hai aB ".toList "#OBTW".toList "#TLDR Bold".toList rfl (.inl (by decide))
      (by decide) (by decide) (by simp [htokens, Token.Covers])
  have htldr : (Source.mk "doc.lol" "#Hai aB #OBTW#TLDR Bold").InReserved 15 :=
    .delimiter "#Hai aB #OBTW".toList "#TLDR".toList " Bold".toList rfl (.inr (by decide))
      (by decide) (by decide) (by simp [htokens, Token.Covers])
  have hbold : (Source.mk "doc.lol" "#Hai aB #OBTW#TLDR Bold").InReserved 20 :=
    .keyword ⟨.keyword .bold, ⟨1, 20, 19⟩, ⟨1, 24, 23⟩⟩ .bold (by simp [htokens]) rfl (by decide)
  have hrecased : Text.Recased (Source.mk "doc.lol" "#Hai aB #OBTW#TLDR Bold").InReserved 0
      "#Hai aB #OBTW#TLDR Bold".toList "#hai aB #oBTW#TlDR BOld".toList :=
    .keeps "#".toList <| .change 'H' 'h' rfl hhai <| .keeps "ai aB #".toList <|
      .change 'O' 'o' rfl hobtw <| .keeps "BTW#T".toList <| .change 'L' 'l' rfl htldr <|
      .keeps "DR B".toList <| .change 'o' 'O' rfl hbold <| .keeps "ld".toList <| .nil _
  refine ⟨hrecased, ?_⟩
  rw [(letter_case_irrelevant hrecased).1]
  rfl

end LolMarkup
