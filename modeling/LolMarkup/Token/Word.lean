/-!
# Reserved words

Hash words are the structural words of the language, written after a `#`. Three of them are made of
two words with one space between. Keywords name the kinds of sections and styles.
-/

namespace LolMarkup

/-- The structural words. -/
inductive HashWord where
  | hai
  | kthxbye
  | obtw
  | tldr
  | maek
  | oic
  | gimmeh
  | mkay
  | iHaz
  | itIz
  | lemmeSee
deriving DecidableEq, Repr

namespace HashWord

/-- All hash words in the order in which they are documented. -/
def all : List HashWord :=
  [hai, kthxbye, obtw, tldr, maek, oic, gimmeh, mkay, iHaz, itIz, lemmeSee]

/-- The spelling of a hash word in upper case. -/
def spelling : HashWord → String
  | hai => "#HAI"
  | kthxbye => "#KTHXBYE"
  | obtw => "#OBTW"
  | tldr => "#TLDR"
  | maek => "#MAEK"
  | oic => "#OIC"
  | gimmeh => "#GIMMEH"
  | mkay => "#MKAY"
  | iHaz => "#I HAZ"
  | itIz => "#IT IZ"
  | lemmeSee => "#LEMME SEE"

/-- The hash word with the given spelling. -/
def ofSpelling? (text : String) : Option HashWord :=
  all.find? (·.spelling = text)

/-- A hash word is found by its spelling. -/
@[simp] theorem ofSpelling?_spelling (word : HashWord) : ofSpelling? word.spelling = some word := by
  cases word <;> decide

/-- The words that open a hash word of two words, each with the word that completes it. -/
def pairs : List (String × String) :=
  [("I", "HAZ"), ("IT", "IZ"), ("LEMME", "SEE")]

/-- The word that completes a hash word of two words opened by `first`. -/
def partner? (first : String) : Option String :=
  pairs.lookup first

end HashWord

/-- The names of section and style kinds. -/
inductive Keyword where
  | head
  | title
  | paragraf
  | bold
  | italics
  | list
  | item
  | newline
  | soundz
  | vidz
deriving DecidableEq, Repr

namespace Keyword

/-- All keywords in the order in which they are documented. -/
def all : List Keyword :=
  [head, title, paragraf, bold, italics, list, item, newline, soundz, vidz]

/-- The spelling of a keyword in upper case. -/
def spelling : Keyword → String
  | head => "HEAD"
  | title => "TITLE"
  | paragraf => "PARAGRAF"
  | bold => "BOLD"
  | italics => "ITALICS"
  | list => "LIST"
  | item => "ITEM"
  | newline => "NEWLINE"
  | soundz => "SOUNDZ"
  | vidz => "VIDZ"

/-- The keyword with the given spelling. -/
def ofSpelling? (text : String) : Option Keyword :=
  all.find? (·.spelling = text)

/-- A keyword is found by its spelling. -/
@[simp] theorem ofSpelling?_spelling (word : Keyword) : ofSpelling? word.spelling = some word := by
  cases word <;> decide

end Keyword

end LolMarkup
