import LolMarkup.Proofs.Lexing.Positions
import LolMarkup.Proofs.Lexing.Writing
import LolMarkup.Proofs.Reading.Moves

/-!
# Where the parts of a document stand

`Part.Placed` says how the span of a part lies in the text: between two positions of it, around the
spans of its children, which follow one another, and from the first token of the part to its own
last one, which is the first token that could end the part and lies in none of its children
(`Part.CouldEnd`). While a document is read, the parts that are closed in a construct form a row
between its first word and the token that comes next (`Row`), and nothing that is read behind the
word could end the construct, for every construct that is open (`Stack.Placed`). Every move keeps
this (`Stack.Placed.move`), so that all parts of a document that is read are placed, and none of
them could end elsewhere (`spans_placed`).
-/

namespace LolMarkup

open Lexing Reader

/-- The text that a lexeme stands for where free text may stand: the characters themselves, in upper
case if they are a keyword. -/
def Lexeme.asText (lexeme : Lexeme) (chars : List Char) : String :=
  match lexeme with
  | keyword _ => Segment.upper chars
  | _ => String.ofList chars

/-- The token lies within the span. -/
def Span.Holds (span : Span) (token : Token) : Prop :=
  span.start.offset ≤ token.start.offset ∧ token.stop.offset ≤ span.stop.offset

namespace Part

/-- The token could be the last one of a part with the given first word and children: a construct
that starts with the word can end with it, and it lies in none of the children. -/
def CouldEnd (first : HashWord) (children : List Part) (token : Token) : Prop :=
  first.endedBy token.lexeme = true ∧ ∀ child ∈ children, ¬ child.span.Holds token

/-- The tokens of a part. A text is one token, and its content is what stands there without blank
characters at the ends. Any other part starts with a `#`, which is that of its first word, and ends
with its own last token, the first one behind that word that could end it. The children are between
the two. -/
def Framed (source : Source) (part : Part) : Prop :=
  match part.frame with
  | .text =>
      ∃ token ∈ source.scan.tokens, token.start = part.span.start ∧ token.stop = part.span.stop ∧
        part.own = token.lexeme.asText (Text.trim
          (Text.slice part.span.start.offset part.span.stop.offset source.text.toList))
  | .words first last =>
      Text.slice part.span.start.offset (part.span.start.offset + 1) source.text.toList = ['#'] ∧
        ∃ before opening inner closing after,
          source.scan.tokens = before ++ opening :: (inner ++ closing :: after) ∧
          opening.lexeme = .hashWord first ∧ opening.start = part.span.start ∧
          closing.lexeme = last ∧ closing.stop = part.span.stop ∧
          (∀ child ∈ part.children, opening.stop.offset ≤ child.span.start.offset ∧
            child.span.stop.offset ≤ closing.start.offset) ∧
          CouldEnd first part.children closing ∧
          ∀ token ∈ inner, ¬ CouldEnd first part.children token

/-- Parts follow one another without sharing any text. -/
def Apart (parts : List Part) : Prop :=
  parts.Pairwise fun first second => first.span.stop.offset ≤ second.span.start.offset

/-- How the span of a part lies in the text of a source. -/
structure Placed (source : Source) (part : Part) : Prop where
  file : part.span.file = source.path
  start : source.HasPosition part.span.start
  stop : source.HasPosition part.span.stop
  /-- The span is not empty and lies in the text. -/
  bounds : 0 ≤ part.span.start.offset ∧ part.span.start.offset < part.span.stop.offset ∧
    part.span.stop.offset ≤ Text.extent source.text.toList
  /-- The children lie strictly inside. -/
  within : ∀ child ∈ part.children, part.span.start.offset < child.span.start.offset ∧
    child.span.stop.offset < part.span.stop.offset
  apart : Apart part.children
  framed : part.Framed source

end Part

/-! ## The tokens of a part -/

/-- A hash word is written with a `#` in front. -/
theorem Lexing.Spells.head_hashWord {back chars : List Char} {word : HashWord}
    (h : Spells back (.hashWord word) chars) : ∃ rest, chars = '#' :: rest := by
  cases h with
  | hashWord _ _ _ hspelling _ =>
      have hhead : (chars.map Char.toUpper).head? = some '#' := by
        have hletters := congrArg String.toList hspelling
        rw [Segment.upper, String.toList_ofList] at hletters
        rw [← hletters]
        cases word <;> rfl
      cases chars with
      | nil => cases hhead
      | cons c rest =>
          have hc : c.toUpper = '#' := Option.some.inj hhead
          exact ⟨rest, by rw [(toUpper_eq_iff rfl).mp hc]⟩

/-- A word has no blank characters at its ends. -/
theorem Lexing.IsWord.trim {back chars : List Char} (h : IsWord back chars) :
    Text.trim chars = chars := by
  obtain ⟨c, rest, hchars, halpha, hrest, -⟩ := h
  have hpiece : IsPiece (String.ofList chars) := by
    refine isPiece_of_isWord ⟨c, rest, by rwa [String.toList_ofList], halpha, hrest, ?_⟩
    intro d hd
    cases hd
  have htrim := hpiece.trim
  rwa [String.toList_ofList] at htrim

/-- What a token says is the text that its characters stand for. -/
theorem Lexing.Spells.asText {back chars : List Char} {lexeme : Lexeme} {due : Bool}
    {content : String} (h : Spells back lexeme chars) (hsaid : lexeme.said? due = some content) :
    content = lexeme.asText (Text.trim chars) := by
  cases h with
  | newline | hashWord => cases hsaid
  | name _ hname _ =>
      cases hsaid
      rw [hname.trim]
      rfl
  | text _ _ _ =>
      cases hsaid
      rfl
  | keyword word _ hkeyword hspelling =>
      cases due with
      | true => cases hsaid
      | false =>
          cases hsaid
          rw [hkeyword.trim]
          exact hspelling

namespace Source.Writes

variable {source : Source} {token : Token}

/-- A hash word starts with a `#`. -/
theorem slice_hash (h : source.Writes token) {word : HashWord}
    (hlexeme : token.lexeme = .hashWord word) :
    Text.slice token.start.offset (token.start.offset + 1) source.text.toList = ['#'] := by
  obtain ⟨front, chars, back, htext, hstart, -, hspells⟩ := h
  rw [hlexeme] at hspells
  obtain ⟨rest, rfl⟩ := hspells.head_hashWord
  refine Text.slice_eq front ['#'] (rest ++ back) ?_ (by rw [hstart, offset_reached]) ?_
  · rw [htext]
    simp
  · rw [hstart, offset_reached, Text.extent_append]
    rfl

/-- A token is a text of its own. -/
theorem placed_text (h : source.Writes token) (hmem : token ∈ source.scan.tokens) {due : Bool}
    {content : String} (hsaid : token.lexeme.said? due = some content) :
    Part.Placed source ⟨.text, content, ⟨source.path, token.start, token.stop⟩, []⟩ where
  file := rfl
  start := h.start
  stop := h.stop
  bounds := ⟨h.start.bounds.1, h.advances, h.stop.bounds.2⟩
  within := List.forall_mem_nil _
  apart := .nil
  framed := by
    obtain ⟨back, hspells⟩ := h.slice
    exact ⟨token, hmem, rfl, rfl, hspells.asText hsaid⟩

end Source.Writes

/-- Two tokens and those between them lie between the start of the first and the end of the last. -/
theorem Source.holds_of_run {source : Source} {before inner after : List Token}
    {opening closing : Token} {file : String}
    (h : source.scan.tokens = before ++ opening :: (inner ++ closing :: after)) :
    ∀ token ∈ opening :: inner ++ [closing],
      (Span.mk file opening.start closing.stop).Holds token := by
  have hsplit : source.scan.tokens = (before ++ opening :: inner) ++ closing :: after := by
    rw [h, List.append_assoc, List.cons_append]
  have hopening := (source.locate h).1.advances
  have hclosing := (source.locate hsplit).1.advances
  obtain ⟨hapart, hinner⟩ := Source.between_tokens h
  intro token hmem
  rw [List.cons_append, List.mem_cons, List.mem_append, List.mem_singleton] at hmem
  show opening.start.offset ≤ token.start.offset ∧ token.stop.offset ≤ closing.stop.offset
  rcases hmem with rfl | hmem | rfl
  · omega
  · have hbetween := hinner token hmem
    omega
  · omega

namespace Part

/-! ## Rows -/

/-- Parts that follow one another between two offsets, all of them placed with what is in them. -/
structure Row (source : Source) (low high : Int) (parts : List Part) : Prop where
  le : low ≤ high
  placed : ∀ part ∈ Part.preorderAll parts, part.Placed source
  within : ∀ part ∈ parts, low ≤ part.span.start.offset ∧ part.span.stop.offset ≤ high
  apart : Apart parts

variable {source : Source} {low high later : Int} {parts : List Part} {part : Part}

/-- No parts at all are a row. -/
theorem row_nil (h : low ≤ high) : Row source low high [] where
  le := h
  placed := List.forall_mem_nil _
  within := List.forall_mem_nil _
  apart := .nil

/-- A row may end further on. -/
theorem Row.mono (h : Row source low high parts) (hle : high ≤ later) :
    Row source low later parts where
  le := h.le.trans hle
  placed := h.placed
  within := fun part hpart => ⟨(h.within part hpart).1, (h.within part hpart).2.trans hle⟩
  apart := h.apart

/-- A part that starts behind a row makes the row longer. -/
theorem Row.concat (h : Row source low high parts) (hpart : part.Placed source)
    (hinside : ∀ inner ∈ Part.preorderAll part.children, inner.Placed source)
    (hstart : high ≤ part.span.start.offset) :
    Row source low part.span.stop.offset (parts ++ [part]) := by
  have hle := h.le
  have hbounds := hpart.bounds
  refine ⟨by omega, ?_, ?_, ?_⟩
  · intro inner hinner
    rw [preorderAll_append, preorderAll_singleton, List.mem_append, part.preorder_eq,
      List.mem_cons] at hinner
    rcases hinner with hinner | rfl | hinner
    · exact h.placed inner hinner
    · exact hpart
    · exact hinside inner hinner
  · intro other hother
    rcases List.mem_append.mp hother with hother | hother
    · have hwithin := h.within other hother
      omega
    · rw [List.mem_singleton.mp hother]
      omega
  · refine List.pairwise_append.mpr ⟨h.apart, List.pairwise_singleton _ _, ?_⟩
    intro other hother last hlast
    have hwithin := h.within other hother
    rw [List.mem_singleton.mp hlast]
    omega

end Part

namespace Reader

/-- What was read so far belongs to the open constructs. The parts that are closed in each of them
form a row from its first word on: up to the end of what is read in the innermost one, and up to the
construct opened next in the others. No token behind the first word could have ended the construct.
-/
def Stack.Placed (source : Source) (read : List Token) : Stack → Prop
  | root parts => Part.Row source 0 (resumed .origin read).offset parts
  | level first opened _ children outer =>
      ∃ before opening inner, read = before ++ opening :: inner ∧
        opening.lexeme = .hashWord first ∧ opening.start = opened ∧
        Part.Row source opening.stop.offset (resumed .origin read).offset children ∧
        (∀ token ∈ inner, ¬ Part.CouldEnd first children token) ∧ outer.Placed source before

/-- After one more token reading resumes where this token ends. -/
theorem resumed_concat (position : Position) (tokens : List Token) (token : Token) :
    resumed position (tokens ++ [token]) = token.stop := by
  simp [resumed]

namespace Stack.Placed

variable {source : Source} {read after : List Token} {token : Token} {stack next : Stack}

/-- A token that could not end the innermost construct may be passed over. -/
theorem pass (h : stack.Placed source read) (htokens : source.scan.tokens = read ++ token :: after)
    (hends : stack.endedBy token.lexeme = false) : stack.Placed source (read ++ [token]) := by
  obtain ⟨hwrites, hlimit⟩ := source.locate htokens
  have hadvances := hwrites.advances
  have hlater : (resumed .origin read).offset ≤ (resumed .origin (read ++ [token])).offset := by
    rw [resumed_concat]
    omega
  cases stack with
  | root parts => exact Part.Row.mono h hlater
  | level first opened gathered children outer =>
      obtain ⟨before, opening, inner, rfl, hlexeme, hstart, hrow, hinner, houter⟩ := h
      refine ⟨before, opening, inner ++ [token], by simp, hlexeme, hstart, hrow.mono hlater, ?_,
        houter⟩
      intro other hmem hother
      rcases List.mem_append.mp hmem with hmem | hmem
      · exact hinner other hmem hother
      · rw [List.mem_singleton.mp hmem] at hother
        exact absurd (hother.1.symm.trans hends) (by decide)

/-- A part that is made of the tokens that come next is added to the innermost construct. -/
theorem add {part : Part} {run : List Token} (h : stack.Placed source read)
    (hpart : part.Placed source)
    (hinside : ∀ inner ∈ Part.preorderAll part.children, inner.Placed source)
    (hstart : (resumed .origin read).offset ≤ part.span.start.offset)
    (hstop : resumed .origin (read ++ run) = part.span.stop)
    (hrun : ∀ token ∈ run, part.span.Holds token) :
    (stack.add part).Placed source (read ++ run) := by
  cases stack with
  | root parts =>
      show Part.Row _ _ _ _
      rw [hstop]
      exact Part.Row.concat h hpart hinside hstart
  | level first opened gathered children outer =>
      obtain ⟨before, opening, inner, rfl, hlexeme, hopened, hrow, hinner, houter⟩ := h
      refine ⟨before, opening, inner ++ run, by simp, hlexeme, hopened, ?_, ?_, houter⟩
      · rw [hstop]
        exact hrow.concat hpart hinside hstart
      · -- The tokens of the new child lie in it, so that none of them could end the construct.
        intro token hmem hends
        rcases List.mem_append.mp hmem with hmem | hmem
        · exact hinner token hmem
            ⟨hends.1, fun child hchild => hends.2 child (List.mem_append_left _ hchild)⟩
        · exact hends.2 part (by simp) (hrun token hmem)

/-- A construct is placed when its last token comes. -/
theorem close {first : HashWord} {opened : Position} {gathered : List String}
    {children : List Part} {outer : Stack} (own : String)
    (h : (Stack.level first opened gathered children outer).Placed source read)
    (htokens : source.scan.tokens = read ++ token :: after)
    (hends : first.endedBy token.lexeme = true) :
    Part.Placed source
      ⟨.words first token.lexeme, own, ⟨source.path, opened, token.stop⟩, children⟩ := by
  obtain ⟨hwrites, hlimit⟩ := source.locate htokens
  obtain ⟨before, opening, inner, rfl, hlexeme, rfl, hrow, hinner, -⟩ := h
  have hsplit : source.scan.tokens = before ++ opening :: (inner ++ token :: after) := by
    rw [htokens, List.append_assoc, List.cons_append]
  have hfirst := (source.locate hsplit).1
  have hle := hrow.le
  have hstep := hfirst.advances
  have hlast := hwrites.advances
  have hchild (child : Part) (hmem : child ∈ children) :
      opening.stop.offset ≤ child.span.start.offset ∧
        child.span.stop.offset ≤ token.start.offset := by
    have hwithin := hrow.within child hmem
    omega
  refine ⟨rfl, hfirst.start, hwrites.stop, ⟨hfirst.start.bounds.1, ?_, hwrites.stop.bounds.2⟩, ?_,
    hrow.apart, hfirst.slice_hash hlexeme, ?_⟩
  · show opening.start.offset < token.stop.offset
    omega
  · intro child hmem
    obtain ⟨hstart, hstop⟩ := hchild child hmem
    show opening.start.offset < _ ∧ _ < token.stop.offset
    omega
  · refine ⟨before, opening, inner, token, after, hsplit, hlexeme, rfl, rfl, rfl, hchild,
      ⟨hends, ?_⟩, hinner⟩
    intro child hmem hholds
    have hbefore := (hchild child hmem).2
    have hwithin := hholds.2
    omega

/-- Every move keeps a stack placed: a token stands behind what is there already. -/
theorem move {due : Bool} (h : stack.Placed source read)
    (htokens : source.scan.tokens = read ++ token :: after)
    (hmove : Move source.path due token stack next) : next.Placed source (read ++ [token]) := by
  obtain ⟨hwrites, hlimit⟩ := source.locate htokens
  have hmem : token ∈ source.scan.tokens := by simp [htokens]
  cases hmove with
  | pass _ hsaid hends => exact h.pass htokens hends
  | gather first opened gathered outer content hsaid hends => exact h.pass htokens hends
  | text _ content hsaid =>
      refine h.add (hwrites.placed_text hmem hsaid) (List.forall_mem_nil _) hlimit
        (resumed_concat _ _ _) ?_
      intro other hother
      rw [List.mem_singleton.mp hother]
      exact ⟨le_rfl, le_rfl⟩
  | opens _ word hlexeme =>
      refine ⟨read, token, [], rfl, hlexeme, rfl, ?_, List.forall_mem_nil _, h⟩
      rw [resumed_concat]
      exact Part.row_nil le_rfl
  | closes first opened gathered children outer own hchildren hown hends =>
      have hpart := h.close own htokens hends
      obtain ⟨before, opening, inner, rfl, hlexeme, rfl, hrow, -, houter⟩ := h
      have hsplit : source.scan.tokens = before ++ opening :: (inner ++ token :: after) := by
        rw [htokens, List.append_assoc, List.cons_append]
      rw [List.append_assoc]
      refine houter.add hpart hrow.placed (source.locate hsplit).2 ?_ ?_
      · rw [← List.append_assoc]
        exact resumed_concat _ _ _
      · exact Source.holds_of_run hsplit

end Stack.Placed

end Reader

/-- A document that is read is placed with all that is in it, before the end of its last token. -/
theorem Source.row_of_document {source : Source} {document : Document}
    (h : source.document = .ok document) :
    Part.Row source 0 (resumed .origin source.scan.tokens).offset [document.part] := by
  refine Source.kept_of_document (fun read state => state.stack.Placed source read) ?_ ?_ h
  · exact Part.row_nil le_rfl
  · intro read token after state next htokens hstate hnext
    exact hstate.move htokens (State.move_of_next? hnext)

/-! ## The end of a part -/

/-- A list is split at the first element of a kind in one way only. -/
theorem split_unique {α : Type} (kind : α → Prop) {front back front' back' : List α} {a a' : α}
    (h : front ++ a :: back = front' ++ a' :: back') (ha : kind a) (ha' : kind a')
    (hfront : ∀ b ∈ front, ¬ kind b) (hfront' : ∀ b ∈ front', ¬ kind b) :
    front = front' ∧ a = a' ∧ back = back' := by
  rcases List.append_eq_append_iff.mp h with ⟨more, rfl, hmore⟩ | ⟨more, rfl, hmore⟩
  · cases more with
    | nil => simpa using hmore
    | cons b more =>
        obtain ⟨rfl, -⟩ := List.cons.inj hmore
        exact absurd ha (hfront' a (by simp))
  · cases more with
    | nil => simpa [eq_comm] using hmore
    | cons b more =>
        obtain ⟨rfl, -⟩ := List.cons.inj hmore
        exact absurd ha' (hfront a' (by simp))

/-- A token starts behind those before it. -/
theorem Source.start_lt_start {source : Source} {before after : List Token} {first token : Token}
    (h : source.scan.tokens = before ++ token :: after) (hfirst : first ∈ before) :
    first.start.offset < token.start.offset := by
  obtain ⟨front, inner, rfl⟩ := List.append_of_mem hfirst
  rw [List.append_assoc, List.cons_append] at h
  have hadvances := (source.locate h).1.advances
  have hapart := (Source.between_tokens h).1
  omega

/-- A token is known by where it starts. -/
theorem Source.split_at_start {source : Source} {before after before' after' : List Token}
    {token token' : Token} (h : source.scan.tokens = before ++ token :: after)
    (h' : source.scan.tokens = before' ++ token' :: after') (hstart : token.start = token'.start) :
    before = before' ∧ token = token' ∧ after = after' := by
  refine split_unique (fun other => other.start = token'.start) (h.symm.trans h') hstart rfl ?_ ?_
  · intro first hfirst hsame
    have hlt := Source.start_lt_start h hfirst
    rw [hsame, hstart] at hlt
    exact lt_irrefl _ hlt
  · intro first hfirst hsame
    have hlt := Source.start_lt_start h' hfirst
    rw [hsame] at hlt
    exact lt_irrefl _ hlt

namespace Part

variable {source : Source} {part : Part}

/-- The part, if it ended at another position. -/
def endingAt (part : Part) (stop : Position) : Part :=
  { part with span := { part.span with stop } }

/-- Where a part ends is determined by where it starts and by its children. -/
theorem Framed.stop_unique {stop : Position} (h : part.Framed source)
    (hother : (part.endingAt stop).Framed source) : part.span.stop = stop := by
  obtain ⟨frame, own, ⟨file, start, _⟩, children⟩ := part
  cases frame with
  | text =>
      obtain ⟨token, hmem, rfl, rfl, -⟩ := h
      obtain ⟨token', hmem', hstart, rfl, -⟩ := hother
      obtain ⟨before, after, htokens⟩ := List.append_of_mem hmem
      obtain ⟨before', after', htokens'⟩ := List.append_of_mem hmem'
      rw [(Source.split_at_start htokens htokens' hstart.symm).2.1]
  | words first last =>
      obtain ⟨-, before, opening, inner, closing, after, htokens, -, hopening, -, rfl, -, hclosing,
        hinner⟩ := h
      obtain ⟨-, before', opening', inner', closing', after', htokens', -, hopening', -, rfl, -,
        hclosing', hinner'⟩ := hother
      -- Behind the same first word both ends are the first token that could be one.
      obtain ⟨-, -, hrest⟩ := Source.split_at_start htokens htokens' (hopening.trans hopening'.symm)
      obtain ⟨-, hlast, -⟩ :=
        split_unique (CouldEnd first children) hrest hclosing hclosing' hinner hinner'
      rw [hlast]

end Part

/-- Every part of a document that is read has a span of the source, from its first token to its own
last one and around the spans of its children, which follow one another. With the same children it
could not end elsewhere. -/
theorem spans_placed {source : Source} {document : Document}
    (h : source.document = .ok document) :
    ∀ part ∈ document.part.preorder, part.Placed source ∧
      ∀ stop, (part.endingAt stop).Framed source → stop = part.span.stop := by
  have hplaced := (Source.row_of_document h).placed
  rw [Part.preorderAll_singleton] at hplaced
  intro part hpart
  refine ⟨hplaced part hpart, fun stop hother => ?_⟩
  exact ((hplaced part hpart).framed.stop_unique hother).symm

/-- A second word that could end a reference, and one that could end a paragraf, stand behind them
and are not theirs. -/
theorem spans_placed_stray :
    ∃ document, (Source.mk "doc.lol"
        "#HAI bold #LEMME SEE x #MKAY #MKAY #maek paragraf#I haz x #oic#OIC#KTHXBYE").document =
        .ok document ∧
      document.part.preorder.map (fun part => (part.own, part.span.stop.offset)) =
        [("", 74), ("BOLD", 9), ("x", 28), ("", 62), ("x", 57)] ∧
      ∀ part ∈ document.part.preorder, part.Placed ⟨"doc.lol",
          "#HAI bold #LEMME SEE x #MKAY #MKAY #maek paragraf#I haz x #oic#OIC#KTHXBYE"⟩ ∧
        ∀ stop, (part.endingAt stop).Framed ⟨"doc.lol",
            "#HAI bold #LEMME SEE x #MKAY #MKAY #maek paragraf#I haz x #oic#OIC#KTHXBYE"⟩ →
          stop = part.span.stop := by
  have hdocument : (Source.mk "doc.lol"
      "#HAI bold #LEMME SEE x #MKAY #MKAY #maek paragraf#I haz x #oic#OIC#KTHXBYE").document =
      .ok ⟨⟨"doc.lol", ⟨1, 1, 0⟩, ⟨1, 75, 74⟩⟩,
        [.inline (.text ⟨"doc.lol", ⟨1, 6, 5⟩, ⟨1, 10, 9⟩⟩ "BOLD"),
          .inline (.reference ⟨"doc.lol", ⟨1, 11, 10⟩, ⟨1, 29, 28⟩⟩ "x"),
          .paragraf ⟨"doc.lol", ⟨1, 36, 35⟩, ⟨1, 63, 62⟩⟩
            [.declaration ⟨"doc.lol", ⟨1, 50, 49⟩, ⟨1, 58, 57⟩⟩ "x"]]⟩ := by
    cbv
  exact ⟨_, hdocument, rfl, spans_placed hdocument⟩

end LolMarkup
