import LolMarkup.Token.Basic
import Mathlib

/-!
# The grammar of documents

The grammar is a family of languages over lexemes, one for each construct. Only a paragraf holds
sections, so that `sectionOver` is the rule of sections over an arbitrary language of inner sections
and `sections` its least solution. `Body` is the content of a document: at the top level stray words
and keywords are let through, and a declaration keeps its assignment.
-/

namespace LolMarkup

namespace Grammar

open scoped Computability

/-- The word of one given lexeme. -/
def lexeme (lexeme : Lexeme) : Language Lexeme :=
  {[lexeme]}

/-- One given word with a hash. -/
def word (word : HashWord) : Language Lexeme :=
  lexeme (.hashWord word)

/-- One given keyword. -/
def key (word : Keyword) : Language Lexeme :=
  lexeme (.keyword word)

/-- Any keyword. -/
def keyword : Language Lexeme :=
  {w | ∃ word, w = [.keyword word]}

/-- One newline. -/
def newline : Language Lexeme :=
  lexeme .newline

/-- Newlines. -/
def newlines : Language Lexeme :=
  newline∗

/-- A free text. -/
def text : Language Lexeme :=
  {w | ∃ content, w = [.text content]}

/-- A name. -/
def name : Language Lexeme :=
  {w | ∃ identifier, w = [.name identifier]}

/-- A free text or a name, which counts as text where no name is due. -/
def plain : Language Lexeme :=
  text + name

/-- A declaration. -/
def declaration : Language Lexeme :=
  word .iHaz * name

/-- An assignment. -/
def assignment : Language Lexeme :=
  word .itIz * (plain∗ * word .mkay)

/-- A reference. -/
def reference : Language Lexeme :=
  word .lemmeSee * (name * word .mkay)

/-- A piece of a run. -/
def piece : Language Lexeme :=
  plain + reference

/-- What follows the first word of a styled construct. -/
def style : Language Lexeme :=
  key .newline +
    (key .soundz + key .vidz) * ((plain + newline)∗ * word .mkay) +
    (key .bold + key .italics) * (piece∗ * word .mkay)

/-- A line break, embedded media or an emphasis. -/
def styled : Language Lexeme :=
  word .gimmeh * style

/-- A title of a head. -/
def title : Language Lexeme :=
  word .gimmeh * (key .title * ((plain + newline)∗ * word .mkay))

/-- An item of a list. -/
def item : Language Lexeme :=
  word .gimmeh * (key .item * (piece∗ * word .mkay))

/-- Any number of units with newlines before each of them and after the last. -/
def spaced (unit : Language Lexeme) : Language Lexeme :=
  (newlines * unit)∗ * newlines

/-- What a paragraf may hold, if the given sections may stand in it. -/
def contentOver (inner : Language Lexeme) : Language Lexeme :=
  declaration + assignment + reference + styled + inner + plain

/-- What follows the first word of a section and newlines. -/
def sectionTail (inner : Language Lexeme) : Language Lexeme :=
  key .head * (spaced title * word .oic) +
    key .paragraf * (spaced (contentOver inner) * word .oic) +
    key .list * (spaced item * word .oic)

/-- The sections whose paragrafs hold the given sections. -/
def sectionOver (inner : Language Lexeme) : Language Lexeme :=
  word .maek * (newlines * sectionTail inner)

/-- The words that are sections. -/
inductive Section : List Lexeme → Prop where
  | intro (inner : Language Lexeme) (w : List Lexeme) :
      (∀ v ∈ inner, Section v) → w ∈ sectionOver inner → Section w

/-- The sections, to any depth. -/
def sections : Language Lexeme :=
  {w | Section w}

/-- A word that starts nothing between two nodes of the document. -/
def stray : Language Lexeme :=
  word .hai + word .tldr + word .oic + word .mkay + word .itIz

/-- What may stand in the body of a document next to declarations without an assignment. -/
def bodyItem : Language Lexeme :=
  sections + declaration * (newlines * assignment) + reference + styled + plain + keyword + stray

/-- The first lexeme that is not a newline. -/
def nextWord? (w : List Lexeme) : Option Lexeme :=
  w.find? (· != .newline)

/-- The words that are the body of a document. A declaration before `#IT IZ` goes together with an
assignment. -/
inductive Body : List Lexeme → Prop where
  | nil : Body []
  | item (w rest : List Lexeme) : w ∈ newlines * bodyItem → Body rest → Body (w ++ rest)
  | declaration (w rest : List Lexeme) : w ∈ newlines * declaration →
      nextWord? rest ≠ some (.hashWord .itIz) → Body rest → Body (w ++ rest)

/-- The bodies of documents. -/
def body : Language Lexeme :=
  {w | Body w}

/-- What follows the first word of a document. -/
def bodyTail : Language Lexeme :=
  body * (newlines * (word .kthxbye * newlines))

/-- The documents, up to the end of the input. -/
def program : Language Lexeme :=
  word .hai * (bodyTail * lexeme .eof)

/-! ## Sections solve their rule -/

/-- More units make more words in which they are spaced. -/
theorem spaced_mono {unit other : Language Lexeme} (h : unit ≤ other) :
    spaced unit ≤ spaced other := by
  unfold spaced
  gcongr

/-- More inner sections make more sections over them. -/
theorem sectionOver_mono {inner other : Language Lexeme} (h : inner ≤ other) :
    sectionOver inner ≤ sectionOver other := by
  have hcontent : spaced (contentOver inner) ≤ spaced (contentOver other) := by
    apply spaced_mono
    unfold contentOver
    gcongr
  unfold sectionOver sectionTail
  gcongr

/-- The sections are the words that the rule of sections makes of sections. -/
theorem sections_eq : sections = sectionOver sections := by
  apply le_antisymm
  · intro w hw
    cases hw with
    | intro inner _ hinner hw => exact sectionOver_mono (fun v hv => hinner v hv) hw
  · intro w hw
    exact .intro sections w (fun v hv => hv) hw

end Grammar

end LolMarkup
