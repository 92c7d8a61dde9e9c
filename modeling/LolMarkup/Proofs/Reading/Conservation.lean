import LolMarkup.Proofs.Reading.Laziness
import LolMarkup.Proofs.Reading.Moves

/-!
# The content of a document

What the author writes is in the document once and in order. `Lexeme.said` collects it from the
lexemes: free text, names, and the keywords that are not the kind of a construct, which are those
right after `#MAEK` or `#GIMMEH`. While a document is read, all that was said so far stands in the
constructs that are open or closed (`Stack.written`). A move adds to it what its token says
(`Stack.written_move`), so that the content of the document is in the end what was said
(`content_conserved`).
-/

namespace LolMarkup

namespace Lexeme

/-- The kind of a construct comes after the lexeme. -/
def opensKind : Lexeme → Bool
  | hashWord word => word = .maek || word = .gimmeh
  | _ => false

/-- The closest lexeme before, newlines aside, is one after which a kind comes. -/
def namesKind (before : List Lexeme) : Bool :=
  (before.reverse.find? (· != newline)).any opensKind

/-- What lexemes say that come after others. -/
def said (before : List Lexeme) : List Lexeme → List String
  | [] => []
  | lexeme :: rest => (lexeme.said? (namesKind before)).toList ++ said (before ++ [lexeme]) rest

/-- A newline does not change whether a kind comes next, and any other lexeme decides it. -/
theorem namesKind_concat (before : List Lexeme) (lexeme : Lexeme) :
    namesKind (before ++ [lexeme]) =
      if lexeme = newline then namesKind before else lexeme.opensKind := by
  rw [namesKind, List.reverse_concat, List.find?_cons]
  by_cases h : lexeme = newline
  · simp [h, namesKind]
  · rw [if_neg h, bne_iff_ne.mpr h]
    rfl

/-- What lexemes say is what those in front say and then the others. -/
theorem said_append (before first second : List Lexeme) :
    said before (first ++ second) = said before first ++ said (before ++ first) second := by
  induction first generalizing before with
  | nil => rw [List.nil_append, said, List.nil_append, List.append_nil]
  | cons lexeme first ih => rw [List.cons_append, said, ih, said, List.append_assoc,
      List.append_assoc, List.singleton_append]

/-- What one lexeme says depends on whether a kind comes next. -/
theorem said_singleton (before : List Lexeme) (lexeme : Lexeme) :
    said before [lexeme] = (lexeme.said? (namesKind before)).toList :=
  List.append_nil _

end Lexeme

/-- What is written in parts and the parts within them, blank characters aside. -/
def Part.written (parts : List Part) : List Char :=
  Text.solid (String.join ((Part.preorderAll parts).map Part.own))

/-- What is written in parts that follow one another follows one another. -/
theorem Part.written_append (first second : List Part) :
    Part.written (first ++ second) = Part.written first ++ Part.written second := by
  simp [Part.written]

/-- What is written in a part is its own text and then that of its children. -/
theorem Part.written_singleton (part : Part) :
    Part.written [part] = Text.solid part.own ++ Part.written part.children := by
  simp [Part.written, part.preorder_eq]

namespace Reader

/-- What is written so far, blank characters aside. -/
def Stack.written : Stack → List Char
  | root parts => Part.written parts
  | level _ _ gathered children outer =>
      outer.written ++ Text.solid (String.join gathered) ++ Part.written children

/-- A part that is added adds what is written in it. -/
theorem Stack.written_add (stack : Stack) (part : Part) :
    (stack.add part).written =
      stack.written ++ (Text.solid part.own ++ Part.written part.children) := by
  cases stack with
  | root parts => rw [add, written, Part.written_append, Part.written_singleton, written]
  | level first opened gathered children outer =>
      rw [add, written, Part.written_append, Part.written_singleton, written,
        List.append_assoc _ (Part.written children)]

/-- A move adds what its token says at the end. -/
theorem Stack.written_move {file : String} {due : Bool} {token : Token} {stack next : Stack}
    (h : Move file due token stack next) :
    next.written =
      stack.written ++ Text.solid (String.join (token.lexeme.said? due).toList) := by
  cases h with
  | pass _ hsaid _ => simp [hsaid]
  | text _ content hsaid =>
      rw [written_add, hsaid]
      simp [Part.written, Part.preorderAll]
  | gather first opened gathered outer content hsaid _ =>
      simp [written, hsaid, Part.written, Part.preorderAll]
  | opens _ word hlexeme => simp [written, hlexeme, Lexeme.said?, Part.written, Part.preorderAll]
  | closes first opened gathered children outer own hchildren hown _ =>
      rw [written_add, hown, written]
      rcases hchildren with rfl | hsaid
      · simp [Part.written, Part.preorderAll]
      · simp [hsaid]

/-- Whether a kind is due is decided by the last lexeme that is no newline. -/
theorem Place.kindDue_next? {nested : Bool} {place next : Place} {lexeme : Lexeme}
    (h : place.next? nested lexeme = some next) :
    next.kindDue = if lexeme = .newline then place.kindDue else lexeme.opensKind := by
  have hresume (host : Option Host) : (Place.resume host).kindDue = false := by cases host <;> rfl
  have hclose (host : Host) : (Place.close host).kindDue = false := by cases host <;> rfl
  unfold Place.next? at h
  split at h <;> grind [Place.kindDue, Lexeme.opensKind]

/-- A kind is due exactly after the lexemes that announce one, and newlines. -/
theorem Control.kindDue_next? {control next : Control} {lexeme : Lexeme}
    (h : control.next? lexeme = some next) :
    next.kindDue = if lexeme = .newline then control.kindDue else lexeme.opensKind := by
  cases Control.move_of_next? h with
  | start | finish | leave | enter | trail => rfl
  | within place following depth _ hnext => exact Place.kindDue_next? hnext

end Reader

open Reader

/-- What is written in a document is what its tokens say. -/
theorem Source.written_of_document {source : Source} {document : Document}
    (h : source.document = .ok document) :
    Part.written [document.part] =
      Text.solid (String.join (Lexeme.said [] (source.scan.tokens.map Token.lexeme))) := by
  have hkept := Source.kept_of_document (fun before state =>
    state.control.kindDue = Lexeme.namesKind (before.map Token.lexeme) ∧
      state.stack.written = Text.solid (String.join (Lexeme.said [] (before.map Token.lexeme))))
    ⟨rfl, rfl⟩ ?_ h
  · exact hkept.2
  · intro before token after state next htokens hstate hnext
    obtain ⟨hdue, hwritten⟩ := hstate
    have hcontrol : state.control.next? token.lexeme = some next.control := by
      rw [← State.control_next? source.path, hnext, Option.map_some]
    have hmove := Stack.written_move (State.move_of_next? hnext)
    rw [List.map_append, List.map_singleton]
    refine ⟨?_, ?_⟩
    · rw [Control.kindDue_next? hcontrol, Lexeme.namesKind_concat, hdue]
    · rw [hmove, hwritten, hdue, Lexeme.said_append, Lexeme.said_singleton, String.join_append,
        Text.solid_append, List.nil_append]

/-- Nothing that is written in a source is lost or repeated: in document order, the parts of the
document hold what its tokens say in their order, blank characters aside. -/
theorem content_conserved {source : Source} {document : Document}
    (h : source.document = .ok document) :
    ∃ tokens, source.tokenize = .ok tokens ∧
      Text.solid (String.join (document.part.preorder.map Part.own)) =
        Text.solid (String.join (Lexeme.said [] (tokens.map Token.lexeme))) := by
  obtain ⟨tokens, htokens⟩ := Source.exists_tokenize_of_document h
  obtain ⟨position, -, rfl⟩ := Source.tokenize_eq_ok_iff.mp htokens
  refine ⟨_, htokens, ?_⟩
  have hwritten := Source.written_of_document h
  rw [Part.written, Part.preorderAll_singleton] at hwritten
  rw [hwritten, List.map_append, Lexeme.said_append]
  -- The end of the input says nothing.
  show _ = Text.solid (String.join (_ ++ []))
  rw [List.append_nil]

/-- A keyword between two nodes is text in upper case, and the words of a title have a space between
them. -/
theorem content_conserved_title :
    ∃ document, (Source.mk "doc.lol" "#HAI bold #MAEK HEAD#GIMMEH TITLE a b#MKAY#OIC#KTHXBYE"
        ).document = .ok document ∧
      document.part.preorder.map Part.own = ["", "BOLD", "", "a b"] ∧
      ∃ tokens, (Source.mk "doc.lol" "#HAI bold #MAEK HEAD#GIMMEH TITLE a b#MKAY#OIC#KTHXBYE"
          ).tokenize = .ok tokens ∧
        Text.solid (String.join (document.part.preorder.map Part.own)) =
          Text.solid (String.join (Lexeme.said [] (tokens.map Token.lexeme))) := by
  have hdocument : (Source.mk "doc.lol" "#HAI bold #MAEK HEAD#GIMMEH TITLE a b#MKAY#OIC#KTHXBYE"
      ).document = .ok ⟨⟨"doc.lol", ⟨1, 1, 0⟩, ⟨1, 55, 54⟩⟩,
        [.inline (.text ⟨"doc.lol", ⟨1, 6, 5⟩, ⟨1, 10, 9⟩⟩ "BOLD"),
          .head ⟨"doc.lol", ⟨1, 11, 10⟩, ⟨1, 47, 46⟩⟩
            [⟨⟨"doc.lol", ⟨1, 21, 20⟩, ⟨1, 43, 42⟩⟩, "a b"⟩]]⟩ := by
    cbv
  exact ⟨_, hdocument, rfl, content_conserved hdocument⟩

end LolMarkup
