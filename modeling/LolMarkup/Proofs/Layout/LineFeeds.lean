import LolMarkup.Proofs.Image.Soundness
import LolMarkup.Proofs.Lexing.Positions
import LolMarkup.Proofs.Scoping.Agreement
import LolMarkup.Token.Listing

/-!
# Where line feeds stand in what is written

The content of a document holds no line feeds, so that those of a page are the ones that its
elements have, right after a tag (`Source.breaksAfter_page`). The values that names are given are
content as well, and a walk over the document keeps this of all values in scope
(`Node.breaksAfter_render`).
The rows of a listing hold no control characters at all (`Listing.printable_row`).
-/

namespace LolMarkup

open Lexing

namespace Text

/-- A text without line feeds. -/
def OneLine (s : String) : Prop :=
  '\n' ∉ s.toList

/-- Every line feed of a text comes right after the given character. -/
def BreaksAfter (mark : Char) (s : String) : Prop :=
  ∀ front back, s.toList = front ++ '\n' :: back → front.getLast? = some mark

/-- The empty text is on one line. -/
theorem oneLine_empty : OneLine "" := List.not_mem_nil

/-- Two texts together are on one line if each of them is. -/
@[simp] theorem oneLine_append (s t : String) : OneLine (s ++ t) ↔ OneLine s ∧ OneLine t := by
  simp [OneLine]

/-- A text on one line breaks no lines. -/
theorem OneLine.breaksAfter {s : String} (h : OneLine s) (mark : Char) : BreaksAfter mark s := by
  intro front back hs
  have hmem : '\n' ∈ s.toList := by simp [hs]
  exact absurd hmem h

namespace BreaksAfter

variable {mark : Char} {s t : String}

/-- Texts that break their lines after a character do so together, too. -/
theorem append (hs : BreaksAfter mark s) (ht : BreaksAfter mark t) : BreaksAfter mark (s ++ t) := by
  intro front back hst
  rw [String.toList_append] at hst
  rcases List.append_eq_append_iff.mp hst with ⟨middle, rfl, hback⟩ | ⟨middle, hfront, hback⟩
  · -- The line feed is in the second text, and so is the character before it.
    have hlast := ht middle back hback
    rw [List.getLast?_append, hlast, Option.some_or]
  · cases middle with
    | nil =>
        have hlast := ht [] back hback.symm
        cases hlast
    | cons c middle =>
        obtain ⟨rfl, -⟩ := List.cons.inj hback
        exact hs front middle hfront

/-- A text may break its line after the character. -/
theorem line (h : BreaksAfter mark s) (hlast : s.toList.getLast? = some mark) :
    BreaksAfter mark (s ++ "\n") := by
  intro front back hs
  rw [String.toList_append] at hs
  rcases List.append_eq_append_iff.mp hs with ⟨middle, rfl, hback⟩ | ⟨middle, hfront, hback⟩
  · cases middle with
    | nil => rwa [List.append_nil]
    | cons c middle => simp at hback
  · cases middle with
    | nil =>
        rw [List.append_nil] at hfront
        rwa [← hfront]
    | cons c middle =>
        obtain ⟨rfl, -⟩ := List.cons.inj hback
        exact h front middle hfront

/-- Any number of texts that break their lines after a character do so together. -/
theorem join {parts : List String} (h : ∀ s ∈ parts, BreaksAfter mark s) :
    BreaksAfter mark (String.join parts) := by
  induction parts with
  | nil => exact oneLine_empty.breaksAfter mark
  | cons first rest ih =>
      rw [String.join_cons]
      exact (h first List.mem_cons_self).append (ih fun s hs => h s (List.mem_cons_of_mem first hs))

end BreaksAfter

end Text

open Text

/-! ## Pages -/

namespace Html

variable {tag content : String}

/-- An element ends with an angle bracket. -/
theorem getLast?_element (tag content : String) :
    (element tag content).toList.getLast? = some '>' := by
  rw [element, String.toList_append, List.getLast?_append]
  rfl

/-- A tag on one line is written on one line. -/
theorem oneLine_tag {bracket : String} (hbracket : OneLine bracket) (htag : OneLine tag) :
    OneLine (bracket ++ tag ++ ">") := by
  rw [oneLine_append, oneLine_append]
  exact ⟨⟨hbracket, htag⟩, by simp [OneLine]⟩

/-- What stands before the content of an element. -/
theorem breaksAfter_opening (htag : OneLine tag) : BreaksAfter '>' ("<" ++ tag ++ ">") :=
  (oneLine_tag (by simp [OneLine]) htag).breaksAfter '>'

/-- What stands behind the content of an element. -/
theorem breaksAfter_closing (htag : OneLine tag) : BreaksAfter '>' ("</" ++ tag ++ ">") :=
  (oneLine_tag (by simp [OneLine]) htag).breaksAfter '>'

/-- An element breaks its lines after tags if its content does. -/
theorem breaksAfter_element (htag : OneLine tag) (h : BreaksAfter '>' content) :
    BreaksAfter '>' (element tag content) := by
  have hall := ((breaksAfter_opening htag).append h).append (breaksAfter_closing htag)
  rwa [← String.append_assoc, ← String.append_assoc] at hall

/-- The content of an element may start on a new line. -/
theorem breaksAfter_element_line (htag : OneLine tag) (h : BreaksAfter '>' content) :
    BreaksAfter '>' (element tag (line "" ++ content)) := by
  have hopening : BreaksAfter '>' ("<" ++ tag ++ ">" ++ "\n") := by
    refine (breaksAfter_opening htag).line ?_
    rw [String.toList_append, List.getLast?_append]
    rfl
  have hall := (hopening.append h).append (breaksAfter_closing htag)
  have hline : line "" = "\n" := rfl
  rw [element, hline, ← String.append_assoc]
  rwa [← String.append_assoc, ← String.append_assoc] at hall

/-- An element with a line of its own breaks its lines after tags if its content does. -/
theorem breaksAfter_lineElement (htag : OneLine tag) (h : BreaksAfter '>' content) :
    BreaksAfter '>' (lineElement tag content) :=
  (breaksAfter_element htag h).line (getLast?_element tag content)

/-- A block breaks its lines after tags if its content does. -/
theorem breaksAfter_blockElement (htag : OneLine tag) (h : BreaksAfter '>' content) :
    BreaksAfter '>' (blockElement tag content) :=
  (breaksAfter_element_line htag h).line (getLast?_element tag _)

/-- A player breaks its lines after tags if its address is on one line. -/
theorem breaksAfter_player {url : String} (htag : OneLine tag) (h : OneLine url) :
    BreaksAfter '>' (player tag url) := by
  have hfragment : OneLine ("<" ++ tag ++ " controls src=\"" ++ url ++ "\"></" ++ tag ++ ">") := by
    simp only [oneLine_append]
    exact ⟨⟨⟨⟨⟨⟨by simp [OneLine], htag⟩, by simp [OneLine]⟩, h⟩, by simp [OneLine]⟩, htag⟩,
      by simp [OneLine]⟩
  refine (hfragment.breaksAfter '>').line ?_
  rw [String.toList_append, List.getLast?_append]
  rfl

/-- A page breaks its lines after tags if its body does. -/
theorem breaksAfter_page {body : String} (h : BreaksAfter '>' body) :
    BreaksAfter '>' (page body) := by
  have hcharset : BreaksAfter '>' (line "<meta charset=\"UTF-8\">") :=
    (OneLine.breaksAfter (by simp [OneLine]) '>').line rfl
  have htitle : BreaksAfter '>' (lineElement "title" pageTitle) :=
    breaksAfter_lineElement (by simp [OneLine])
      (OneLine.breaksAfter (by simp [OneLine, pageTitle]) '>')
  have hhead : BreaksAfter '>' pageHead :=
    breaksAfter_blockElement (by simp [OneLine]) (hcharset.append htitle)
  have hbody : BreaksAfter '>' (blockElement "body" body) :=
    breaksAfter_blockElement (by simp [OneLine]) h
  have hdoctype : BreaksAfter '>' (line "<!DOCTYPE html>") :=
    (OneLine.breaksAfter (by simp [OneLine]) '>').line rfl
  have hpage : page body = line "<!DOCTYPE html>" ++
      element "html" (line "" ++ (pageHead ++ blockElement "body" body)) := by
    rw [page, ← String.append_assoc]
  rw [hpage]
  exact hdoctype.append (breaksAfter_element_line (by simp [OneLine]) (hhead.append hbody))

end Html

/-! ## Values in scopes -/

namespace Scope

variable {p : String → Prop} {scope : Scope}

/-- The values that a scope gives to names are such ones. -/
def Holds (p : String → Prop) (scope : Scope) : Prop :=
  ∀ name value, scope.get? name = some (.assigned value) → p value

/-- Inserting a name gives it no value, and all values stay such ones. -/
theorem Holds.insert (h : scope.Holds p) (name : String) : (scope.insert name).Holds p := by
  intro other value hget
  rw [get?_insert, Option.or_eq_some_iff] at hget
  rcases hget with hget | ⟨-, hget⟩
  · exact h other value hget
  · split at hget <;> cases hget

/-- Setting a name to such a value leaves all values such ones. -/
theorem Holds.set (h : scope.Holds p) (name : String) {value : String} (hvalue : p value) :
    (scope.set name value).Holds p := by
  intro other found hget
  rw [get?_set] at hget
  split at hget
  · obtain ⟨-, -, hfound⟩ := Option.map_eq_some_iff.mp hget
    cases hfound
    exact hvalue
  · exact h other found hget

end Scope

namespace Scopes

variable {p : String → Prop} {scopes : Scopes}

/-- The values that all scopes give to names are such ones, also those that are hidden. -/
def Holds (p : String → Prop) : Scopes → Prop
  | global scope => scope.Holds p
  | nested scope outer => scope.Holds p ∧ outer.Holds p

/-- A new scope has no values. -/
theorem Holds.push (h : scopes.Holds p) : scopes.push.Holds p :=
  ⟨fun _ _ hget => absurd hget (by simp), h⟩

/-- Leaving a scope leaves the values of the others. -/
theorem Holds.pop (h : scopes.Holds p) : scopes.pop.Holds p := by
  cases scopes with
  | global scope => exact h
  | nested scope outer => exact h.2

/-- Declaring a name changes no values. -/
theorem Holds.declare (h : scopes.Holds p) {name : String} {declared : Scopes}
    (hdeclared : scopes.declare? name = some declared) : declared.Holds p := by
  cases scopes with
  | global scope =>
      rw [declare?] at hdeclared
      split at hdeclared <;> cases hdeclared
      exact Scope.Holds.insert h name
  | nested scope outer =>
      rw [declare?] at hdeclared
      split at hdeclared <;> cases hdeclared
      exact ⟨h.1.insert name, h.2⟩

/-- Assigning such a value leaves all values such ones. -/
theorem Holds.assign (h : scopes.Holds p) {name value : String} (hvalue : p value)
    {assigned : Scopes} (hassigned : scopes.assign? name value = some assigned) :
    assigned.Holds p := by
  induction scopes generalizing assigned with
  | global scope =>
      rw [assign?] at hassigned
      split at hassigned <;> cases hassigned
      exact Scope.Holds.set h name hvalue
  | nested scope outer ih =>
      rw [assign?] at hassigned
      split at hassigned
      · cases hassigned
        exact ⟨h.1.set name hvalue, h.2⟩
      · obtain ⟨inner, hinner, rfl⟩ := Option.map_eq_some_iff.mp hassigned
        exact ⟨h.1, ih h.2 hinner⟩

/-- A value that is looked up is such a one. -/
theorem Holds.lookup (h : scopes.Holds p) {name value : String}
    (hlookup : scopes.lookup name = some (.assigned value)) : p value := by
  induction scopes with
  | global scope => exact h name value hlookup
  | nested scope outer ih =>
      rw [Scopes.lookup, Option.or_eq_some_iff] at hlookup
      rcases hlookup with hlookup | ⟨-, hlookup⟩
      · exact h.1 name value hlookup
      · exact ih h.2 hlookup

end Scopes

/-! ## Rendering -/

/-- A piece is on one line. -/
theorem Lexing.IsPiece.oneLine {s : String} (h : IsPiece s) : OneLine s :=
  fun hmem => (h.2.2 '\n' hmem).2 rfl

/-- Pieces are joined on one line if the separator is. -/
theorem Joined.oneLine {separator content : String} (h : Joined IsPiece separator content)
    (hseparator : ∀ c ∈ separator.toList, c ≠ '#' ∧ c ≠ '\n') : OneLine content := by
  obtain ⟨pieces, hpieces, rfl⟩ := h
  by_cases hne : pieces = []
  · rw [hne]
    exact oneLine_empty
  · exact (isPiece_intercalate hseparator hpieces hne).oneLine

section

variable {scopes : Scopes}

/-- A piece of a run is rendered on one line, where all values are on one line. -/
theorem Inline.oneLine_render (hscopes : scopes.Holds OneLine) {piece : Inline}
    (h : piece.Shaped IsPiece) : OneLine (piece.render scopes).html := by
  have hspaced {content : String} (hcontent : OneLine content) : OneLine (Html.spaced content) :=
    (oneLine_append _ _).mpr ⟨hcontent, by simp [OneLine]⟩
  cases piece with
  | text span content => exact hspaced (IsPiece.oneLine h)
  | reference span name =>
      have hname : OneLine (Html.unresolved name) := by
        simp only [Html.unresolved, oneLine_append]
        exact ⟨⟨by simp [OneLine], (IsName.isPiece h).oneLine⟩, by simp [OneLine]⟩
      rw [Inline.render]
      split
      next value hlookup => exact hspaced (hscopes.lookup hlookup)
      · exact hspaced hname
      · exact hspaced hname

/-- A run is rendered on one line, where all values are on one line. -/
theorem Inline.oneLine_renderRun (hscopes : scopes.Holds OneLine) {run : List Inline}
    (h : ∀ piece ∈ run, piece.Shaped IsPiece) : OneLine (Inline.renderRun scopes run).html := by
  induction run with
  | nil => exact oneLine_empty
  | cons piece run ih =>
      rw [renderRun_cons, Rendering.html_append, oneLine_append]
      exact ⟨Inline.oneLine_render hscopes (h piece List.mem_cons_self),
        ih fun other hother => h other (List.mem_cons_of_mem piece hother)⟩

end

mutual

/-- Where the values in scope are without line feeds, a node is rendered with line feeds after tags
alone, and gives no other value to a name. -/
theorem Node.breaksAfter_render {scopes : Scopes} (hscopes : scopes.Holds OneLine) (node : Node)
    (h : node.Shaped IsPiece IsPiece) :
    BreaksAfter '>' (node.render scopes).2.html ∧ (node.render scopes).1.Holds OneLine := by
  cases node with
  | head span titles =>
      rw [Node.render]
      refine ⟨BreaksAfter.join ?_, hscopes⟩
      intro html hhtml
      obtain ⟨title, htitle, rfl⟩ := List.mem_map.mp hhtml
      exact Html.breaksAfter_lineElement (by simp [OneLine])
        ((Joined.oneLine (h title htitle) (by simp)).breaksAfter '>')
  | paragraf span children =>
      obtain ⟨hhtml, hinner⟩ := Node.breaksAfter_renderAll hscopes.push children h
      rw [Node.render_paragraf]
      exact ⟨Html.breaksAfter_blockElement (by simp [OneLine]) hhtml, hinner.pop⟩
  | list span items =>
      rw [Node.render]
      refine ⟨Html.breaksAfter_blockElement (by simp [OneLine]) (BreaksAfter.join ?_), hscopes⟩
      intro html hhtml
      obtain ⟨item, hitem, rfl⟩ := List.mem_map.mp hhtml
      exact Html.breaksAfter_lineElement (by simp [OneLine])
        ((Inline.oneLine_renderRun hscopes.push (h item hitem)).breaksAfter '>')
  | declaration span name =>
      rw [Node.render]
      split
      next declared hdeclared => exact ⟨oneLine_empty.breaksAfter '>', hscopes.declare hdeclared⟩
      · exact ⟨oneLine_empty.breaksAfter '>', hscopes⟩
  | assignment span name value =>
      cases name with
      | none =>
          rw [Node.render]
          exact ⟨oneLine_empty.breaksAfter '>', hscopes⟩
      | some name =>
          rw [Node.render]
          split
          next assigned hassigned =>
              have hvalue : OneLine value := Joined.oneLine h (by simp)
              exact ⟨oneLine_empty.breaksAfter '>', hscopes.assign hvalue hassigned⟩
          · exact ⟨oneLine_empty.breaksAfter '>', hscopes⟩
  | inline piece =>
      rw [Node.render]
      exact ⟨(Inline.oneLine_render hscopes h).breaksAfter '>', hscopes⟩
  | emphasis span style children =>
      rw [Node.render]
      refine ⟨Html.breaksAfter_element ?_ ((Inline.oneLine_renderRun hscopes h).breaksAfter '>'),
        hscopes⟩
      cases style <;> simp [OneLine, Emphasis.tag]
  | lineBreak span =>
      rw [Node.render]
      exact ⟨(OneLine.breaksAfter (by simp [OneLine]) '>').line rfl, hscopes⟩
  | media span kind url =>
      rw [Node.render]
      refine ⟨Html.breaksAfter_player ?_ (Joined.oneLine h (by simp)), hscopes⟩
      cases kind <;> simp [OneLine, Media.tag]

/-- Nodes are rendered so that lines break after tags only, and the values they assign are on one
line. -/
theorem Node.breaksAfter_renderAll {scopes : Scopes} (hscopes : scopes.Holds OneLine)
    (nodes : List Node) (h : Node.AllShaped IsPiece nodes) :
    BreaksAfter '>' (Node.renderAll scopes nodes).2.html ∧
      (Node.renderAll scopes nodes).1.Holds OneLine := by
  cases nodes with
  | nil =>
      rw [Node.renderAll]
      exact ⟨oneLine_empty.breaksAfter '>', hscopes⟩
  | cons node rest =>
      obtain ⟨hfirst, hnext⟩ := Node.breaksAfter_render hscopes node h.1
      obtain ⟨hothers, hlast⟩ := Node.breaksAfter_renderAll hnext rest h.2
      rw [Node.renderAll_cons, Rendering.html_append]
      exact ⟨hfirst.append hothers, hlast⟩

end

/-- The page of a document that is read breaks its lines after tags alone. -/
theorem Source.breaksAfter_page {source : Source} {document : Document}
    (h : source.document = .ok document) : BreaksAfter '>' document.render.html := by
  have hshaped := (Node.allShaped_iff _).mpr (Source.wellMade_of_document h).shaped
  have hinitial : Scopes.initial.Holds OneLine := fun _ _ hget => absurd hget (by simp)
  exact Html.breaksAfter_page (Node.breaksAfter_renderAll hinitial _ hshaped).1

/-! ## Listings -/

/-- A text without control characters. -/
def Text.Printable (s : String) : Prop :=
  ∀ c ∈ s.toList, 0x20 ≤ c.toNat

/-- Two texts together are printable if each of them is. -/
@[simp] theorem Text.printable_append (s t : String) :
    Printable (s ++ t) ↔ Printable s ∧ Printable t := by
  simp [Printable, or_imp, forall_and]

/-- There are no control characters in a printable text. -/
theorem Text.Printable.notMem {s : String} (h : Printable s) {c : Char} (hc : c.toNat < 0x20) :
    c ∉ s.toList :=
  fun hmem => Nat.not_le.mpr hc (h c hmem)

/-- A printable text is on one line. -/
theorem Text.Printable.oneLine {s : String} (h : Printable s) : OneLine s :=
  h.notMem (by decide)

/-- Letters and digits are no control characters. -/
theorem Text.le_toNat_of_isAlphanum {c : Char} (h : c.isAlphanum = true) : 0x20 ≤ c.toNat := by
  simp only [Char.isAlphanum, Char.isAlpha, Char.isUpper, Char.isLower, Char.isDigit,
    Bool.or_eq_true, Bool.and_eq_true, decide_eq_true_eq, ge_iff_le, UInt32.le_iff_toNat_le] at h
  simp only [Char.toNat]
  rcases h with (⟨h, -⟩ | ⟨h, -⟩) | ⟨h, -⟩ <;> exact Nat.le_trans (by decide) h

/-- A natural number is printable. -/
theorem Text.printable_repr (n : Nat) : Printable n.repr := by
  intro c hmem
  rw [Nat.toList_repr] at hmem
  have hdigit := Nat.isDigit_of_mem_toDigits (by decide) (by decide) hmem
  exact le_toNat_of_isAlphanum (by rw [Char.isAlphanum, hdigit, Bool.or_true])

/-- An integer is printable. -/
theorem Text.printable_toString (n : Int) : Printable (toString n) := by
  rw [Int.toString_eq_repr, Int.repr_eq_if]
  split
  · exact printable_repr _
  · exact (printable_append _ _).mpr ⟨by simp [Printable], printable_repr _⟩

/-- The quoted form of a character is printable. -/
theorem Text.printable_quoteChar (c : Char) : ∀ d ∈ quoteChar c, 0x20 ≤ d.toNat := by
  have hdigit : ∀ n < 16, 0x20 ≤ (hexDigit n).toNat := by decide
  unfold quoteChar
  split
  case h_8 =>
    split
    · next hlow =>
        have hfirst := hdigit (c.toNat / 16) (by omega)
        have hsecond := hdigit (c.toNat % 16) (by omega)
        simp [hfirst, hsecond]
    · next hhigh =>
        intro d hd
        rw [List.mem_singleton.mp hd]
        exact Nat.not_lt.mp hhigh
  all_goals simp

/-- A quoted text is printable, whatever is in it. -/
theorem Text.printable_quoted (s : String) : Printable (quoted s) := by
  intro c hmem
  rw [quoted, String.toList_ofList, List.mem_append, List.mem_cons, List.mem_flatMap,
    List.mem_singleton] at hmem
  rcases hmem with (rfl | ⟨d, -, hd⟩) | rfl
  · simp
  · exact printable_quoteChar d c hd
  · simp

/-- A name is printable. -/
theorem Lexing.IsName.printable {s : String} (h : IsName s) : Printable s := by
  obtain ⟨⟨first, rest, hs, hfirst, hrest, -⟩, -⟩ := h
  intro c hc
  rw [hs] at hc
  apply le_toNat_of_isAlphanum
  rcases List.mem_cons.mp hc with rfl | hc
  · rw [Char.isAlphanum, hfirst, Bool.true_or]
  · exact hrest c hc

/-- What a listing shows of a lexeme is printable. -/
theorem Lexeme.printable_listed {lexeme : Lexeme} (h : lexeme.Writable) :
    Printable lexeme.listed := by
  cases lexeme with
  | hashWord word => cases word <;> simp [Printable, listed, HashWord.spelling]
  | keyword word => cases word <;> simp [Printable, listed, Keyword.spelling]
  | text content => exact printable_quoted content
  | name identifier => exact IsName.printable h
  | newline | eof => simp [Printable, listed]

namespace Listing

/-- Padding to the width of a column keeps a text printable. -/
theorem printable_column {s : String} (h : Printable s) (width : Nat) :
    Printable (column width s) := by
  refine (printable_append _ _).mpr ⟨h, ?_⟩
  intro c hmem
  rw [String.toList_ofList, List.mem_replicate] at hmem
  simp [hmem.2]

/-- The row of a token holds no control characters, and so no line feed. -/
theorem printable_row {token : Token} (h : Printable token.lexeme.listed) :
    Printable (row token) := by
  have hplace : Printable s!"{token.start.line}:{token.start.column}" := by
    show Printable (toString token.start.line ++ ":" ++ toString token.start.column)
    rw [printable_append, printable_append]
    exact ⟨⟨printable_toString _, by simp [Printable]⟩, printable_toString _⟩
  have hkind : Printable token.lexeme.kindName := by
    cases token.lexeme <;> simp [Printable, Lexeme.kindName]
  have hcells := (printable_append _ _).mpr
    ⟨(printable_append _ _).mpr ⟨printable_column hplace 8, printable_column hkind 10⟩, h⟩
  intro c hmem
  rw [row, String.toList_ofList, Text.trimEnd, List.mem_reverse] at hmem
  exact hcells c (List.mem_reverse.mp ((List.dropWhile_sublist _).subset hmem))

/-- The header of a listing is printable. -/
theorem printable_header (count : Nat) : Printable (header count) := by
  show Printable ("; token listing (" ++ count.repr ++ " tokens)")
  rw [printable_append, printable_append]
  exact ⟨⟨by simp [Printable], printable_repr count⟩, by simp [Printable]⟩

/-- The rows of a listing are printable if what they show of the lexemes is. -/
theorem printable_rows {tokens : List Token}
    (h : ∀ token ∈ tokens, Printable token.lexeme.listed) : ∀ row ∈ rows tokens, Printable row := by
  intro shown hshown
  rcases List.mem_cons.mp hshown with rfl | hshown
  · exact printable_header _
  · obtain ⟨token, htoken, rfl⟩ := List.mem_map.mp hshown
    exact printable_row (h token htoken)

end Listing

/-- The lexemes of the tokens of a source can stand in a text, the last one apart, which is the end
of the input. -/
theorem Source.writable_of_tokenize {source : Source} {tokens : List Token}
    (h : source.tokenize = .ok tokens) :
    ∀ token ∈ tokens, token.lexeme.Writable ∨ token.lexeme = .eof := by
  obtain ⟨position, -, rfl⟩ := tokenize_eq_ok_iff.mp h
  intro token htoken
  rcases List.mem_append.mp htoken with htoken | htoken
  · obtain ⟨before, after, htokens⟩ := List.append_of_mem htoken
    obtain ⟨⟨_, _, _, _, _, _, hspells⟩, -⟩ := source.locate htokens
    exact .inl hspells.writable
  · rw [List.mem_singleton.mp htoken]
    exact .inr rfl

/-- The tokens of a source are listed without control characters. -/
theorem Source.printable_listed {source : Source} {tokens : List Token}
    (h : source.tokenize = .ok tokens) :
    ∀ token ∈ tokens, Printable token.lexeme.listed := by
  intro token htoken
  rcases writable_of_tokenize h token htoken with hwritable | heof
  · exact Lexeme.printable_listed hwritable
  · simp [heof, Printable, Lexeme.listed]

end LolMarkup
