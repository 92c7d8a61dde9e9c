import LolMarkup.Proofs.Image.Printing
import LolMarkup.Proofs.Layout.Excerpts
import LolMarkup.Proofs.Scoping.Resolution

/-!
# Literals

A value or an address is cut into words and free text where it is written and joined again where it
is read. A literal comes out of this as it was written (`literal_survives`): a text that is one free
text, one word, or a word and the free text right after it (`Lexing.Splits`).
-/

namespace LolMarkup

namespace Lexing

/-- A piece that, if it starts with a letter, starts with a word that is no keyword in any letter
case and has no blank character right after it. -/
def IsLiteral (s : String) : Prop :=
  IsPiece s ∧ ∀ c, s.toList.head? = some c → c.isAlpha = true →
    Keyword.ofSpelling? (Segment.upper (s.toList.takeWhile Char.isAlphanum)) = none ∧
      Stops Text.isBlank (s.toList.dropWhile Char.isAlphanum)

/-- The lexemes that a literal is cut into. -/
inductive Splits : String → List Lexeme → Prop where
  | text (s : String) : Splits s [.text s]
  | name (s : String) : Splits s [.name s]
  | both (word rest : String) : Splits (word ++ rest) [.name word, .text rest]

end Lexing

open Lexing Reader

namespace Segmentation

/-- A space in front of a text says nothing. -/
theorem content_space (cs : List Char) :
    (ofChars (' ' :: cs)).content = (ofChars cs).content := by
  have hspace : ∀ c ∈ [' '], Segment.isSeparator c = true := by simp [Segment.isSeparator]
  exact content_separators cs hspace

/-- A word or hash word before a space. -/
theorem content_word {c : Char} {tail : List Char} {lexeme : Lexeme}
    (hc : c = '\n' ∨ c = '#' ∨ c.isAlpha = true)
    (h : Segment.first c (tail ++ []) = .ok ⟨c :: tail, some lexeme⟩) (after : List Char) :
    (ofChars (c :: tail ++ ' ' :: after)).content =
      (lexeme :: (ofChars after).content.1, (ofChars after).content.2) := by
  have hstops : Stops Char.isAlphanum (' ' :: after) := stops_cons (by decide) after
  have hcut : ofChars (c :: tail ++ ' ' :: after) = cons _ (ofChars (' ' :: after)) :=
    ofChars_of_first (Segment.first_closed hc hstops h rfl) rfl
  rw [hcut, content_cons, content_space]
  rfl

/-- Free text with a space and a hash word after it. -/
theorem content_piece {s : String} (h : IsPiece s)
    (hletter : ∀ c, s.toList.head? = some c → c.isAlpha = false) (after : List Char) :
    (ofChars (s.toList ++ ' ' :: '#' :: after)).content =
      (.text s :: (ofChars ('#' :: after)).content.1, (ofChars ('#' :: after)).content.2) := by
  have hlexeme : (Segment.ofFree (s.toList ++ [' '])).lexeme = some (.text s) := by
    rw [Segment.lexeme_ofFree_append _ (by simp [Text.isBlank, Text.blankRanges]), Segment.ofFree,
      h.trim, String.ofList_toList, if_neg (by simpa using h.1)]
  have hrun : ∀ d ∈ s.toList ++ [' '], Segment.isFree d = true := by
    intro d hd
    rcases List.mem_append.mp hd with hd | hd
    · simp [Segment.isFree, h.2.2 d hd]
    · cases List.mem_singleton.mp hd
      decide
  cases hchars : s.toList with
  | nil => exact absurd (String.toList_eq_nil_iff.mp hchars) h.1
  | cons c cs =>
      have hhead : s.toList.head? = some c := by
        rw [hchars]
        rfl
      rw [hchars] at hlexeme hrun
      obtain ⟨hhash, hline⟩ := h.2.2 c (hchars ▸ List.mem_cons_self)
      have hseparator : Segment.isSeparator c = false := by
        rw [Bool.eq_false_iff]
        intro hseparator
        have hblank := (Segment.blank_of_isSeparator hseparator).1
        rw [h.head hhead] at hblank
        cases hblank
      have hfirst : Segment.first c (cs ++ [' '] ++ '#' :: after) = .ok _ :=
        Segment.first_free hseparator hline hhash (hletter c hhead)
          (fun d hd => hrun d (List.mem_cons_of_mem c hd)) (stops_cons (by decide) after)
      have hcut := ofChars_of_first hfirst (Segment.chars_ofFree _)
      rw [Segment.chars_ofFree] at hcut
      have hsplit : c :: cs ++ ' ' :: '#' :: after = c :: (cs ++ [' ']) ++ '#' :: after := by simp
      rw [hsplit, hcut, content_cons]
      rw [List.cons_append] at hlexeme
      rw [hlexeme]
      rfl

/-- A literal that starts with a letter is cut after its first word. -/
theorem content_lettered {s : String} {c : Char} (hhead : s.toList.head? = some c)
    (hletter : c.isAlpha = true)
    (hkeyword : Keyword.ofSpelling? (Segment.upper (s.toList.takeWhile Char.isAlphanum)) = none)
    (after : List Char) :
    (ofChars (s.toList ++ ' ' :: after)).content =
      (.name (String.ofList (s.toList.takeWhile Char.isAlphanum)) ::
        (ofChars (s.toList.dropWhile Char.isAlphanum ++ ' ' :: after)).content.1,
        (ofChars (s.toList.dropWhile Char.isAlphanum ++ ' ' :: after)).content.2) := by
  obtain ⟨cs, hchars⟩ := List.head?_eq_some_iff.mp hhead
  have halphanum : c.isAlphanum = true := by simp [Char.isAlphanum, hletter]
  rw [hchars, List.takeWhile_cons_of_pos halphanum] at hkeyword
  rw [hchars, List.takeWhile_cons_of_pos halphanum, List.dropWhile_cons_of_pos halphanum]
  have hstops : Stops Char.isAlphanum (' ' :: after) := stops_cons (by decide) after
  have hlexeme : (Segment.ofWord (c :: cs.takeWhile Char.isAlphanum)).lexeme =
      some (.name (String.ofList (c :: cs.takeWhile Char.isAlphanum))) := by
    rw [Segment.ofWord, hkeyword]
  have hsplit : cs ++ ' ' :: after = cs.takeWhile Char.isAlphanum ++
      (cs.dropWhile Char.isAlphanum ++ ' ' :: after) := by
    rw [← List.append_assoc, List.takeWhile_append_dropWhile]
  have hfirst : Segment.first c (cs.takeWhile Char.isAlphanum ++
      (cs.dropWhile Char.isAlphanum ++ ' ' :: after)) =
        .ok (Segment.ofWord (c :: cs.takeWhile Char.isAlphanum)) := by
    rw [← hsplit, Segment.first_letter hletter, takeWhile_append_stops cs hstops]
  have hcut := ofChars_of_first hfirst (Segment.chars_ofWord _)
  rw [Segment.chars_ofWord, List.cons_append, ← hsplit, ← List.cons_append] at hcut
  rw [hcut, content_cons, hlexeme]
  rfl

/-- What follows the first word of a literal is a piece. -/
theorem isPiece_rest {s : String} (h : IsPiece s)
    (hblank : Stops Text.isBlank (s.toList.dropWhile Char.isAlphanum))
    (hrest : s.toList.dropWhile Char.isAlphanum ≠ []) :
    IsPiece (String.ofList (s.toList.dropWhile Char.isAlphanum)) := by
  have hsuffix : s.toList.dropWhile Char.isAlphanum <:+ s.toList := List.dropWhile_suffix _
  refine ⟨by simpa using hrest, ?_, ?_⟩
  · rw [Text.trimmed, String.toList_ofList, Text.trim_eq_self hblank]
    intro c hc
    refine h.last ?_
    obtain ⟨front, hfront⟩ := hsuffix
    rw [← hfront, List.getLast?_append_of_ne_nil _ hrest, hc]
  · rw [String.toList_ofList]
    exact fun c hc => h.2.2 c (hsuffix.mem hc)

/-- A literal is cut into the lexemes it splits into. -/
theorem exists_splits {s : String} (h : IsLiteral s) :
    ∃ lexemes, Splits s lexemes ∧ ∀ after, (ofChars (s.toList ++ ' ' :: '#' :: after)).content =
      (lexemes ++ (ofChars ('#' :: after)).content.1, (ofChars ('#' :: after)).content.2) := by
  by_cases hletter : ∀ c, s.toList.head? = some c → c.isAlpha = false
  · exact ⟨_, .text s, fun after => content_piece h.1 hletter after⟩
  · simp only [not_forall, Bool.not_eq_false] at hletter
    obtain ⟨c, hhead, hc⟩ := hletter
    obtain ⟨hkeyword, hblank⟩ := h.2 c hhead hc
    have hcontent := content_lettered hhead hc hkeyword
    have hsplit := List.takeWhile_append_dropWhile (p := Char.isAlphanum) (l := s.toList)
    by_cases hrest : s.toList.dropWhile Char.isAlphanum = []
    · rw [hrest, List.append_nil] at hsplit
      refine ⟨_, .name s, fun after => ?_⟩
      rw [hcontent, hrest, hsplit, String.ofList_toList, List.nil_append, content_space]
      rfl
    · have hpiece := isPiece_rest h.1 hblank hrest
      have hunlettered : ∀ c, (String.ofList (s.toList.dropWhile Char.isAlphanum)).toList.head? =
          some c → c.isAlpha = false := by
        rw [String.toList_ofList]
        exact (stops_dropWhile Char.isAlphanum s.toList).isAlpha
      have hboth := Splits.both (String.ofList (s.toList.takeWhile Char.isAlphanum))
        (String.ofList (s.toList.dropWhile Char.isAlphanum))
      rw [← String.ofList_append, hsplit, String.ofList_toList] at hboth
      refine ⟨_, hboth, fun after => ?_⟩
      have hfree := content_piece hpiece hunlettered after
      rw [String.toList_ofList] at hfree
      rw [hcontent, hfree]
      rfl

/-- An assignment of a text holds the lexemes of the text between its words. -/
theorem content_assignment {s : String} {lexemes : List Lexeme}
    (h : ∀ after, (ofChars (s.toList ++ ' ' :: '#' :: after)).content =
      (lexemes ++ (ofChars ('#' :: after)).content.1, (ofChars ('#' :: after)).content.2)) :
    (ofChars ("#IT IZ " ++ s ++ " #MKAY").toList).content =
      (.hashWord .itIz :: (lexemes ++ [.hashWord .mkay]), none) := by
  have hword : Segment.first '#' ("IT IZ".toList ++ []) =
      .ok ⟨'#' :: "IT IZ".toList, some (.hashWord .itIz)⟩ := rfl
  have hlast : (ofChars ('#' :: "MKAY".toList)).content = ([.hashWord .mkay], none) := rfl
  have htext : ("#IT IZ " ++ s ++ " #MKAY").toList =
      '#' :: "IT IZ".toList ++ ' ' :: (s.toList ++ ' ' :: '#' :: "MKAY".toList) := by
    rw [String.toList_append, String.toList_append, List.append_assoc]
    rfl
  rw [htext, content_word (.inr (.inl rfl)) hword, h, hlast]

/-- The address of embedded media holds the lexemes of its text between the words around it. -/
theorem content_media {s : String} {lexemes : List Lexeme} (kind : Media)
    (h : ∀ after, (ofChars (s.toList ++ ' ' :: '#' :: after)).content =
      (lexemes ++ (ofChars ('#' :: after)).content.1, (ofChars ('#' :: after)).content.2)) :
    (ofChars ("#GIMMEH " ++ kind.keyword.spelling ++ " " ++ s ++ " #MKAY").toList).content =
      (.hashWord .gimmeh :: .keyword kind.keyword :: (lexemes ++ [.hashWord .mkay]), none) := by
  have hword : Segment.first '#' ("GIMMEH".toList ++ []) =
      .ok ⟨'#' :: "GIMMEH".toList, some (.hashWord .gimmeh)⟩ := rfl
  have hkeyword : ∃ c tail, kind.keyword.spelling.toList = c :: tail ∧ c.isAlpha = true ∧
      Segment.first c (tail ++ []) = .ok ⟨c :: tail, some (.keyword kind.keyword)⟩ := by
    cases kind
    · exact ⟨'S', "OUNDZ".toList, rfl, rfl, rfl⟩
    · exact ⟨'V', "IDZ".toList, rfl, rfl, rfl⟩
  obtain ⟨c, tail, hspelling, hletter, hfirst⟩ := hkeyword
  have hlast : (ofChars ('#' :: "MKAY".toList)).content = ([.hashWord .mkay], none) := rfl
  have htext : ("#GIMMEH " ++ kind.keyword.spelling ++ " " ++ s ++ " #MKAY").toList =
      '#' :: "GIMMEH".toList ++ ' ' :: (c :: tail ++ ' ' ::
        (s.toList ++ ' ' :: '#' :: "MKAY".toList)) := by
    simp only [String.toList_append, hspelling, List.append_assoc]
    rfl
  rw [htext, content_word (.inr (.inl rfl)) hword, content_word (.inr (.inr hletter)) hfirst, h,
    hlast]

end Segmentation

namespace Reader

/-- The lexemes of a literal are gathered where texts and names are. -/
theorem Inside.reads_splits {s : String} {lexemes : List Lexeme} (h : Splits s lexemes)
    (place : Array String → Inside)
    (hplace : ∀ lexeme content done, lexeme = .text content ∨ lexeme = .name content →
      (place done).Reads [lexeme] (place (done.push content))) :
    ∃ parts, (place #[]).Reads lexemes (place parts) ∧ joined "" parts = Text.trimmed s := by
  cases h with
  | text => exact ⟨#[s], hplace _ _ _ (.inl rfl), by simp [joined]⟩
  | name => exact ⟨#[s], hplace _ _ _ (.inr rfl), by simp [joined]⟩
  | both word rest =>
      exact ⟨#[word, rest], (hplace _ word _ (.inr rfl)).trans (hplace _ rest _ (.inl rfl)),
        by simp [joined]⟩

/-- An assignment of a literal is read with its value. -/
theorem Inside.fresh_reads_assignment {s : String} {lexemes : List Lexeme} (h : Splits s lexemes) :
    Inside.fresh.Reads (.hashWord .itIz :: (lexemes ++ [.hashWord .mkay]))
      ⟨none, ⟨.origin, #[.assignment .blank none (Text.trimmed s)]⟩, [], .content false⟩ := by
  have hopen : Inside.fresh.Reads [.hashWord .itIz]
      (Inside.fresh.focusing (.assignment .origin #[])) := rfl
  obtain ⟨parts, hparts, hjoined⟩ := Inside.reads_splits h
    (fun done => Inside.fresh.focusing (.assignment .origin done)) (by
      rintro lexeme content done (rfl | rfl) <;> rfl)
  have hclose : (Inside.fresh.focusing (.assignment .origin parts)).Reads [.hashWord .mkay]
      ⟨none, ⟨.origin, #[.assignment .blank none (joined "" parts)]⟩, [], .content false⟩ := rfl
  rw [hjoined] at hclose
  exact hopen.trans (hparts.trans hclose)

/-- Media with a literal as address are read with it. -/
theorem Inside.fresh_reads_media {s : String} {lexemes : List Lexeme} (h : Splits s lexemes)
    (kind : Media) :
    Inside.fresh.Reads
      (.hashWord .gimmeh :: .keyword kind.keyword :: (lexemes ++ [.hashWord .mkay]))
      ⟨none, ⟨.origin, #[.media .blank kind (Text.trimmed s)]⟩, [], .content false⟩ := by
  have hopen : Inside.fresh.Reads [.hashWord .gimmeh, .keyword kind.keyword]
      (Inside.fresh.focusing (.media .origin kind #[])) := by
    cases kind <;> rfl
  obtain ⟨parts, hparts, hjoined⟩ := Inside.reads_splits h
    (fun done => Inside.fresh.focusing (.media .origin kind done)) (by
      rintro lexeme content done (rfl | rfl) <;> rfl)
  have hclose : (Inside.fresh.focusing (.media .origin kind parts)).Reads [.hashWord .mkay]
      ⟨none, ⟨.origin, #[.media .blank kind (joined "" parts)]⟩, [], .content false⟩ := rfl
  rw [hjoined] at hclose
  exact hopen.trans (hparts.trans hclose)

end Reader

/-- A node is, up to spans and names, what the lexemes of its text lead to. -/
theorem Source.bare_of_excerpt {source : Source} {document : Document}
    (h : source.document = .ok document) {node alone : Node}
    (hnode : node ∈ Node.preorderAll document.children) {lexemes : List Lexeme}
    {pending : Option String} {opened : Position} {declared : Bool}
    (hcontent : (Segmentation.ofChars (source.excerpt node.span).toList).content = (lexemes, none))
    (hreads : Inside.fresh.Reads lexemes ⟨pending, ⟨opened, #[alone]⟩, [], .content declared⟩) :
    node.bare.unnamed = alone.unnamed := by
  obtain ⟨tokens, hexcerpt, htokens⟩ := Source.exists_excerpt h hnode
  obtain ⟨_, _, found, _, hfollow, hfound⟩ := hexcerpt.reads
  have hlexemes : tokens.map Token.lexeme = lexemes := by
    have hnil : (Segmentation.ofChars ((source.excerpt node.span).toList ++ [])).content =
        (tokens.map Token.lexeme ++ [], none) := htokens [] endsRuns_nil
    rw [List.append_nil, List.append_nil, hcontent] at hnil
    exact (congrArg Prod.fst hnil).symm
  have hrun := State.run?_of_follow? hfollow
  rw [hlexemes, State.bare_fresh, State.bare_alone, hreads] at hrun
  simp only [Option.some.injEq, State.inside.injEq, Inside.mk.injEq, Block.mk.injEq,
    Array.singleton_inj] at hrun
  rw [hrun.2.1.2, ← Node.bare_unnamed found, hfound, Node.bare_unnamed]

open Scoping in
/-- A literal survives where it is written. An assignment that is written with it has it as value,
and a reference that resolves to this assignment shows it with a space after it. Media that are
written with it have it as address, and their player plays it. The page is made of what references
show and of players by position. -/
theorem literal_survives {source : Source} {document : Document}
    (h : source.document = .ok document) {u : String} (hu : IsLiteral u) :
    (∀ span name value,
      Node.assignment span name value ∈ Node.preorderAll document.children →
      source.excerpt span = "#IT IZ " ++ u ++ " #MKAY" → value = u) ∧
    (∀ reference ∈ document.sites, ∀ name, reference.use = .refers name →
      ∀ assignment, document.resolved? reference = some assignment →
      source.excerpt assignment.span = "#IT IZ " ++ u ++ " #MKAY" →
      inlineHtml document.past reference.scopes reference.address
        (.reference reference.span name) = u ++ " ") ∧
    (∀ span kind url, Node.media span kind url ∈ Node.preorderAll document.children →
      ∀ written : Media,
      source.excerpt span = "#GIMMEH " ++ written.keyword.spelling ++ " " ++ u ++ " #MKAY" →
      kind = written ∧ url = u ∧ ∀ scopes, (Node.render scopes (.media span kind url)).2.html =
        "<" ++ written.tag ++ " controls src=\"" ++ u ++ "\"></" ++ written.tag ++ ">" ++ "\n") ∧
    document.render.html = document.page := by
  obtain ⟨lexemes, hsplits, hcontent⟩ := Segmentation.exists_splits hu
  have htrimmed : Text.trimmed u = u := hu.1.2.1
  have hvalue : ∀ span name value,
      Node.assignment span name value ∈ Node.preorderAll document.children →
      source.excerpt span = "#IT IZ " ++ u ++ " #MKAY" → value = u := by
    intro span name value hnode htext
    have hassignment := Segmentation.content_assignment hcontent
    rw [← htext] at hassignment
    have hsame := Source.bare_of_excerpt h hnode hassignment (Inside.fresh_reads_assignment hsplits)
    cases hsame
    exact htrimmed
  refine ⟨hvalue, ?_, ?_, document.render_html_eq_page⟩
  · intro reference _ name huse assignment hresolved htext
    obtain ⟨value, hnode, hshown⟩ := Document.shown_of_resolved? hresolved
    rw [huse] at hshown
    rw [inlineHtml, show name = (Use.refers name).name from rfl, hshown, hvalue _ _ _ hnode htext]
    rfl
  · intro span kind url hnode written htext
    have hmedia := Segmentation.content_media written hcontent
    rw [← htext] at hmedia
    have hsame := Source.bare_of_excerpt h hnode hmedia (Inside.fresh_reads_media hsplits written)
    cases hsame
    rw [htrimmed]
    exact ⟨rfl, rfl, fun scopes => rfl⟩

/-- A literal of a word and free text with a blank in it, as value and as address. -/
theorem literal_survives_version :
    let source : Source := ⟨"doc.lol", "#HAI #I HAZ x #IT IZ v1.0 é #MKAY #LEMME SEE x #MKAY " ++
      "#GIMMEH VIDZ v1.0 é #MKAY #KTHXBYE"⟩
    IsLiteral "v1.0 é" ∧ ∃ document reference assignment span kind url,
      source.document = .ok document ∧ reference ∈ document.sites ∧
      document.resolved? reference = some assignment ∧
      source.excerpt assignment.span = "#IT IZ v1.0 é #MKAY" ∧
      Scoping.inlineHtml document.past reference.scopes reference.address
        (.reference reference.span "x") = "v1.0 é " ∧
      .media span kind url ∈ Node.preorderAll document.children ∧
      source.excerpt span = "#GIMMEH VIDZ v1.0 é #MKAY" ∧ kind = .video ∧ url = "v1.0 é" := by
  intro source
  have hliteral : IsLiteral "v1.0 é" := by
    have hrest : Stops Text.isBlank ".0 é".toList := stops_cons (by decide) "0 é".toList
    exact ⟨⟨by decide, by cbv, by simp⟩, fun _ _ _ => ⟨by cbv, hrest⟩⟩
  have hdocument : source.document =
      .ok ⟨⟨"doc.lol", ⟨1, 1, 0⟩, ⟨1, 88, 87⟩⟩,
        [.declaration ⟨"doc.lol", ⟨1, 6, 5⟩, ⟨1, 14, 13⟩⟩ "x",
          .assignment ⟨"doc.lol", ⟨1, 15, 14⟩, ⟨1, 34, 33⟩⟩ (some "x") "v1.0 é",
          .inline (.reference ⟨"doc.lol", ⟨1, 35, 34⟩, ⟨1, 53, 52⟩⟩ "x"),
          .media ⟨"doc.lol", ⟨1, 54, 53⟩, ⟨1, 79, 78⟩⟩ .video "v1.0 é"]⟩ := by
    cbv
  have hvalue : source.excerpt ⟨"doc.lol", ⟨1, 15, 14⟩, ⟨1, 34, 33⟩⟩ = "#IT IZ v1.0 é #MKAY" := by
    cbv
  have haddress : source.excerpt ⟨"doc.lol", ⟨1, 54, 53⟩, ⟨1, 79, 78⟩⟩ =
      "#GIMMEH VIDZ v1.0 é #MKAY" := by
    cbv
  obtain ⟨-, hreference, hmedia, -⟩ := literal_survives hdocument hliteral
  have hshown := hreference _ (.tail _ (.tail _ (.head _))) "x" rfl _ rfl hvalue
  obtain ⟨hkind, hurl, -⟩ := hmedia _ _ _ (.tail _ (.tail _ (.tail _ (.head _)))) .video haddress
  exact ⟨hliteral, _, _, _, _, _, _, hdocument, .tail _ (.tail _ (.head _)), rfl, hvalue, hshown,
    .tail _ (.tail _ (.tail _ (.head _))), haddress, hkind, hurl⟩

end LolMarkup
