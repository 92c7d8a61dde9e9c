import LolMarkup.Proofs.Reading.Simulation

/-!
# The rules follow the reader

One lemma for each rule of the descent. Each one names the state in which the reader is when the
rule starts and the state it is in when the rule has read its construct: a rule for a node starts in
a state that takes the first word of the node, and ends between two nodes with the node added to the
innermost block (`Ahead.inside`). What is gathered up to a closing word is treated in common, as
`Gathers`. `reads_program` is about whole documents.
-/

namespace LolMarkup

namespace Reader

namespace Descent

variable {α β : Type} {file : String} {least : Nat} {p q : Ahead} {state : State}
  {block : Block} {outer : List Block} {focus : Focus}

/-! ## States inside the document -/

/-- The state inside the document in which the same name waits for a value. -/
def Ahead.inside (p : Ahead) (block : Block) (outer : List Block) (focus : Focus) : State :=
  .inside ⟨p.pending, block, outer, focus⟩

/-- The state after a piece of text or a reference, which belongs to a run or is a node. -/
def Ahead.afterPiece (p : Ahead) (block : Block) (outer : List Block) (host : Option OpenRun)
    (piece : Inline) : State :=
  match host with
  | some run => p.inside block outer (.run (run.push piece))
  | none => p.inside (block.push (.inline piece)) outer (.content false)

/-- A state depends only on the name that waits for a value, and not on what has been read. -/
theorem inside_congr (h : q.pending = p.pending) : p.inside = q.inside := by
  funext block outer focus
  rw [Ahead.inside, Ahead.inside, h]

/-- The state after a piece depends only on the name that waits for a value. -/
theorem afterPiece_congr (h : q.pending = p.pending) : p.afterPiece = q.afterPiece := by
  funext block outer host piece
  unfold Ahead.afterPiece
  rw [inside_congr h]

/-- A token is taken into a state inside the document. -/
theorem Reads.inside {rule : Rule Token} {taken : Token}
    (h : Reads file least rule state p (fun token after q =>
      token = taken ∧ after = p.inside block outer focus ∧ q.pending = p.pending)) :
    Reads file least rule state p (fun token after q =>
      token = taken ∧ after = q.inside block outer focus) := by
  refine h.imp ?_
  rintro token after q ⟨rfl, rfl, hpending⟩
  exact ⟨rfl, by rw [inside_congr hpending]⟩

/-- Inside a document a token that is not taken is refused with what the construct expects. -/
theorem resume_inside_of_none {expected : Expectation}
    (hnext : (p.inside block outer focus).next? file p.current = none)
    (hexpected : focus.expectation (!outer.isEmpty) = expected) :
    resume file (p.inside block outer focus) p = .error (.refused ⟨expected, p.current⟩) :=
  hexpected ▸ resume_of_none hnext rfl

/-- Unless the given lexeme is in front, the reader reports what it expects. -/
def Awaits (file : String) (lexeme : Lexeme) (expected : Expectation) (state : State)
    (p : Ahead) : Prop :=
  p.current.lexeme ≠ lexeme → resume file state p = .error (.refused ⟨expected, p.current⟩)

/-- Taking a token that the reader awaits. -/
theorem reads_awaited {lexeme : Lexeme} {expected : Expectation}
    {next : Position → Position → State} (hawaits : Awaits file lexeme expected state p)
    (htake : ∀ start stop, state.next? file ⟨lexeme, start, stop⟩ = some (next start stop)) :
    Reads file 1 (expect lexeme expected) state p
      (fun token after q => token = ⟨lexeme, p.current.start, p.current.stop⟩ ∧
        after = next p.current.start p.current.stop ∧ q.pending = p.pending) := by
  by_cases hlexeme : p.current.lexeme = lexeme
  · subst hlexeme
    exact reads_expect_of_eq rfl (htake p.current.start p.current.stop)
  · exact reads_expect_of_ne hlexeme (hawaits hlexeme)

/-- An iteration gathers what a construct holds, up to the word that closes the construct. -/
def Gathers (file : String) (iteration : α → Rule (α ⊕ α)) (closing : HashWord)
    (focus : α → Focus) : Prop :=
  ∀ block outer gathered p,
    Reads file 0 (iteration gathered) (p.inside block outer (focus gathered)) p
      (Iterates (fun gathered next q => next = q.inside block outer (focus gathered))
        (fun gathered next q => next = q.inside block outer (focus gathered) ∧
          Awaits file (.hashWord closing) (.word closing) next q) p)

section Gathers

variable {iteration : α → Rule (α ⊕ α)} {closing : HashWord} {focus : α → Focus}

/-- A loop that gathers ends where the closing word is awaited. -/
theorem Gathers.reads_loop (h : Gathers file iteration closing focus) (start : α) :
    Reads file 0 (loop iteration start) (p.inside block outer (focus start)) p
      (fun gathered next q => next = q.inside block outer (focus gathered) ∧
        Awaits file (.hashWord closing) (.word closing) next q) := by
  refine Descent.reads_loop (fun gathered next q => next = q.inside block outer (focus gathered))
    ?_ rfl
  rintro gathered _ q - rfl
  exact h block outer gathered q

/-- What is gathered and the word that closes it make up what is read. -/
theorem Gathers.reads_closed (h : Gathers file iteration closing focus) {start : α}
    {f : α → Token → β} (into : β → Block) (after : β → Focus)
    (htake : ∀ gathered (q : Ahead) first last,
      (q.inside block outer (focus gathered)).next? file ⟨.hashWord closing, first, last⟩ =
        some (q.inside (into (f gathered ⟨.hashWord closing, first, last⟩)) outer
          (after (f gathered ⟨.hashWord closing, first, last⟩)))) :
    Reads file 0 (do return f (← loop iteration start) (← expectWord closing))
      (p.inside block outer (focus start)) p
      (fun result next q => next = q.inside (into result) outer (after result)) := by
  refine .bind (h.reads_loop start) ?_
  rintro gathered _ q ⟨rfl, hawaits⟩
  refine .bind (.forget (.inside (reads_awaited hawaits (htake gathered q)))) ?_
  rintro _ _ r ⟨rfl, rfl⟩
  exact reads_pure rfl

end Gathers

/-! ## Newlines -/

/-- A newline that a state drops. -/
theorem reads_newlineIteration (waiting : Option String) (hwaiting : p.pending = waiting)
    (hkeep : ∀ start stop, state.next? file ⟨.newline, start, stop⟩ = some state) :
    Reads file 0 (newlineIteration ()) state p
      (Iterates (fun _ next q => next = state ∧ q.pending = waiting)
        (fun _ next q => next = state ∧ q.pending = waiting ∧ q.current.lexeme ≠ .newline) p) := by
  refine reads_peek ?_
  split
  next hlexeme =>
      have hnext : state.next? file p.current = some state := by
        have hcurrent := hkeep p.current.start p.current.stop
        rwa [← hlexeme] at hcurrent
      refine .goOn (reads_advance hnext) ?_
      rintro _ _ q ⟨-, rfl, hpending⟩
      exact ⟨rfl, hpending.trans hwaiting⟩
  next hlexeme => exact reads_pure ⟨rfl, hwaiting, hlexeme⟩

/-- Newlines are skipped in a state that drops them, and none is left in front. -/
theorem reads_skipNewlines
    (hkeep : ∀ start stop, state.next? file ⟨.newline, start, stop⟩ = some state) :
    Reads file 0 skipNewlines state p
      (fun _ next q => next = state ∧ q.pending = p.pending ∧ q.current.lexeme ≠ .newline) := by
  refine reads_loop (fun _ next q => next = state ∧ q.pending = p.pending) ?_ ⟨rfl, rfl⟩
  rintro _ _ q - ⟨rfl, hpending⟩
  exact reads_newlineIteration p.pending hpending hkeep

/-- Newlines that are dropped inside the document. -/
theorem reads_skipNewlines_inside
    (hkeep : ∀ start stop, (p.inside block outer focus).next? file ⟨.newline, start, stop⟩ =
      some (p.inside block outer focus)) :
    Reads file 0 skipNewlines (p.inside block outer focus) p
      (fun _ next q => next = q.inside block outer focus ∧ q.current.lexeme ≠ .newline) := by
  refine (reads_skipNewlines hkeep).imp ?_
  rintro _ _ q ⟨rfl, hpending, hlexeme⟩
  exact ⟨by rw [inside_congr hpending], hlexeme⟩

/-- Where there are no newlines nothing is skipped. -/
theorem reads_skipNewlines_of_ne (h : p.current.lexeme ≠ .newline) :
    Reads file 0 skipNewlines state p (fun _ next q => next = state ∧ q = p) := by
  have hiteration : newlineIteration () p = .ok (.inr ()) p := by
    show (if p.current.lexeme = .newline then _ else _ : Rule (Unit ⊕ Unit)) p = _
    rw [if_neg h]
    rfl
  have hskip : skipNewlines p = .ok () p := by rw [skipNewlines, loop, hiteration]
  exact .further hskip (.refl p) (Nat.le_refl _) rfl (reads_pure ⟨rfl, rfl⟩)

/-! ## Runs of text -/

/-- A token that counts as text. -/
theorem reads_text (host : Option OpenRun) {content : String}
    (hnext : state.next? file p.current =
      some (p.afterPiece block outer host (textPiece file p.current content))) :
    Reads file 1 (text file content) state p
      (fun piece next q => next = q.afterPiece block outer host piece) := by
  refine .bind (reads_advance hnext) ?_
  rintro _ _ q ⟨rfl, rfl, hpending⟩
  exact reads_pure (by rw [afterPiece_congr hpending])

/-- A reference. -/
theorem reads_reference (host : Option OpenRun)
    (hlexeme : p.current.lexeme = .hashWord .lemmeSee)
    (hnext : state.next? file p.current =
      some (p.inside block outer (.referenceName host p.current.start))) :
    Reads file 1 (reference file) state p
      (fun piece next q => next = q.afterPiece block outer host piece) := by
  refine .bind (.inside (reads_expect_of_eq hlexeme hnext)) ?_
  rintro opening _ q ⟨rfl, rfl⟩
  refine reads_peek ?_
  -- Once the lexeme in front is known, the rule and the step of the reader both compute.
  obtain ⟨⟨lexeme, start, stop⟩, rest, pending, requests⟩ := q
  cases lexeme with
  | name identifier =>
      refine .bind (.forget (.inside (reads_advance rfl))) ?_
      rintro _ _ q ⟨-, rfl⟩
      have hclosing : Awaits file (.hashWord .mkay) (.word .mkay)
          (q.inside block outer (.referenceEnd host p.current.start identifier)) q :=
        fun h => resume_inside_of_none (if_neg h) rfl
      refine .bind (.forget (reads_awaited hclosing fun _ _ => rfl)) ?_
      rintro closing _ r ⟨rfl, rfl, hpending⟩
      refine reads_pure ?_
      rw [← afterPiece_congr hpending]
      cases host <;> rfl
  | _ => exact reads_refuse (resume_inside_of_none rfl rfl)

/-- Text and references of a run. -/
theorem gathers_inline (host : RunHost) :
    Gathers file (inlineIteration file) .mkay (fun pieces => .run ⟨host, pieces⟩) := by
  intro block outer pieces p
  refine reads_peek ?_
  obtain ⟨⟨lexeme, start, stop⟩, rest, pending, requests⟩ := p
  cases lexeme with
  | hashWord word =>
      cases word with
      | lemmeSee =>
          refine .goOn (reads_reference (some ⟨host, pieces⟩) rfl rfl) ?_
          rintro piece _ q rfl
          rfl
      | mkay => exact reads_pure ⟨rfl, fun h => absurd rfl h⟩
      | _ => exact reads_pure ⟨rfl, fun _ => resume_inside_of_none rfl rfl⟩
  | text content | name content =>
      refine .goOn (reads_text (some ⟨host, pieces⟩) rfl) ?_
      rintro piece _ q rfl
      rfl
  | _ => exact reads_pure ⟨rfl, fun _ => resume_inside_of_none rfl rfl⟩

/-- Parts of an address. -/
theorem gathers_url (opened : Position) (kind : Media) :
    Gathers file urlIteration .mkay (.media opened kind) := by
  intro block outer parts p
  refine reads_peek ?_
  obtain ⟨⟨lexeme, start, stop⟩, rest, pending, requests⟩ := p
  cases lexeme with
  | hashWord word =>
      cases word with
      | mkay => exact reads_pure ⟨rfl, fun h => absurd rfl h⟩
      | _ => exact reads_pure ⟨rfl, fun _ => resume_inside_of_none rfl rfl⟩
  | text content | name content | newline =>
      refine .goOn (.inside (reads_advance rfl)) ?_
      rintro _ _ q ⟨-, rfl⟩
      rfl
  | _ => exact reads_pure ⟨rfl, fun _ => resume_inside_of_none rfl rfl⟩

/-- Parts of a title. -/
theorem gathers_title (head : OpenHead) (opened : Position) :
    Gathers file titleIteration .mkay (.title head opened) := by
  intro block outer parts p
  refine reads_peek ?_
  obtain ⟨⟨lexeme, start, stop⟩, rest, pending, requests⟩ := p
  cases lexeme with
  | hashWord word =>
      cases word with
      | mkay => exact reads_pure ⟨rfl, fun h => absurd rfl h⟩
      -- What does not belong to a title is refused here and not where the title is closed.
      | _ => exact reads_refuse (resume_inside_of_none rfl rfl)
  | text content | name content | newline =>
      refine .goOn (.inside (reads_advance rfl)) ?_
      rintro _ _ q ⟨-, rfl⟩
      rfl
  | _ => exact reads_refuse (resume_inside_of_none rfl rfl)

/-- Parts of the value of an assignment. -/
theorem gathers_value (opened : Position) :
    Gathers file valueIteration .mkay (.assignment opened) := by
  intro block outer parts p
  refine reads_peek ?_
  obtain ⟨⟨lexeme, start, stop⟩, rest, pending, requests⟩ := p
  cases lexeme with
  | hashWord word =>
      cases word with
      | mkay => exact reads_pure ⟨rfl, fun h => absurd rfl h⟩
      | _ => exact reads_pure ⟨rfl, fun _ => resume_inside_of_none rfl rfl⟩
  | text content | name content =>
      refine .goOn (.inside (reads_advance rfl)) ?_
      rintro _ _ q ⟨-, rfl⟩
      rfl
  | _ => exact reads_pure ⟨rfl, fun _ => resume_inside_of_none rfl rfl⟩

/-! ## Nodes -/

/-- The reader goes on with one more node in the innermost block. -/
def Adds (block : Block) (outer : List Block) (node : Node) (next : State) (q : Ahead) : Prop :=
  next = q.inside (block.push node) outer (.content false)

/-- A declaration. -/
theorem reads_declaration (hlexeme : p.current.lexeme = .hashWord .iHaz)
    (hnext : state.next? file p.current =
      some (p.inside block outer (.declaration p.current.start))) :
    Reads file 1 (declaration file) state p
      (fun node next q => next = q.inside (block.push node) outer (.content true)) := by
  refine .bind (.inside (reads_expect_of_eq hlexeme hnext)) ?_
  rintro opening _ q ⟨rfl, rfl⟩
  refine reads_peek ?_
  obtain ⟨⟨lexeme, start, stop⟩, rest, pending, requests⟩ := q
  cases lexeme with
  | name name =>
      refine .bind (.forget (reads_advance rfl)) ?_
      rintro last _ q ⟨rfl, rfl, -⟩
      refine .bind (reads_modify (some name)) ?_
      rintro _ _ _ ⟨rfl, rfl⟩
      exact reads_pure rfl
  | _ => exact reads_refuse (resume_inside_of_none rfl rfl)

/-- An assignment. -/
theorem reads_assignment (hlexeme : p.current.lexeme = .hashWord .itIz)
    (hnext : state.next? file p.current =
      some (p.inside block outer (.assignment p.current.start #[]))) :
    Reads file 1 (assignment file) state p (Adds block outer) := by
  refine .bind (.inside (reads_expect_of_eq hlexeme hnext)) ?_
  rintro opening _ q ⟨rfl, rfl⟩
  refine .bind ((gathers_value p.current.start).reads_loop #[]) ?_
  rintro parts _ r ⟨rfl, hawaits⟩
  refine .bind (.forget (reads_awaited hawaits fun _ _ => rfl)) ?_
  rintro closing _ s ⟨rfl, rfl, hpending⟩
  refine reads_get ?_
  refine .bind (reads_modify none) ?_
  rintro _ _ _ ⟨rfl, rfl⟩
  refine reads_pure ?_
  rw [hpending]
  rfl

/-- Embedded media. -/
theorem reads_media {opened : Position} {kind : Media}
    (hnext : state.next? file p.current = some (p.inside block outer (.media opened kind #[]))) :
    Reads file 1 (media file opened kind) state p (Adds block outer) := by
  refine .bind (.inside (reads_advance hnext)) ?_
  rintro _ _ q ⟨-, rfl⟩
  exact (gathers_url opened kind).reads_closed block.push (fun _ => .content false)
    fun _ _ _ _ => rfl

/-- An emphasis. -/
theorem reads_emphasis {opened : Position} {style : Emphasis}
    (hnext : state.next? file p.current =
      some (p.inside block outer (.run ⟨.emphasis opened style, #[]⟩))) :
    Reads file 1 (emphasis file opened style) state p (Adds block outer) := by
  refine .bind (.inside (reads_advance hnext)) ?_
  rintro _ _ q ⟨-, rfl⟩
  exact (gathers_inline (.emphasis opened style)).reads_closed block.push (fun _ => .content false)
    fun _ _ _ _ => rfl

/-- A styled node. -/
theorem reads_styled (hlexeme : p.current.lexeme = .hashWord .gimmeh)
    (hnext : state.next? file p.current = some (p.inside block outer (.style p.current.start))) :
    Reads file 1 (styled file) state p (Adds block outer) := by
  refine .bind (.inside (reads_expect_of_eq hlexeme hnext)) ?_
  rintro opening _ q ⟨rfl, rfl⟩
  refine reads_peek ?_
  obtain ⟨⟨lexeme, start, stop⟩, rest, pending, requests⟩ := q
  cases lexeme with
  | keyword word =>
      cases word with
      | newline =>
          refine .bind (.forget (.inside (reads_advance rfl))) ?_
          rintro last _ q ⟨rfl, rfl⟩
          exact reads_pure rfl
      | soundz => exact (reads_media rfl).forget
      | vidz => exact (reads_media rfl).forget
      | bold => exact (reads_emphasis rfl).forget
      | italics => exact (reads_emphasis rfl).forget
      | _ => exact reads_refuse (resume_inside_of_none rfl rfl)
  | _ => exact reads_refuse (resume_inside_of_none rfl rfl)

/-! ## Sections -/

/-- A unit of a section is opened by a word and a keyword, and closed after what it gathers. -/
theorem reads_unit {iteration : α → Rule (α ⊕ α)} {keyword : Keyword} {opened : Focus}
    {gathering : α → Focus} {start : α} (f : Position → α → Token → β) (after : β → Focus)
    (hgathers : Gathers file iteration .mkay gathering)
    (hlexeme : p.current.lexeme = .hashWord .gimmeh)
    (hnext : state.next? file p.current = some (p.inside block outer opened))
    (hawaits : ∀ q : Ahead, Awaits file (.keyword keyword) (.keyword keyword)
      (q.inside block outer opened) q)
    (hkeyword : ∀ (q : Ahead) first last,
      (q.inside block outer opened).next? file ⟨.keyword keyword, first, last⟩ =
        some (q.inside block outer (gathering start)))
    (hclose : ∀ gathered (q : Ahead) first last,
      (q.inside block outer (gathering gathered)).next? file ⟨.hashWord .mkay, first, last⟩ =
        some (q.inside block outer
          (after (f p.current.start gathered ⟨.hashWord .mkay, first, last⟩)))) :
    Reads file 1
      (do
        let opening ← expectWord .gimmeh
        let _ ← expectKeyword keyword
        let gathered ← loop iteration start
        let closing ← expectWord .mkay
        return f opening.start gathered closing)
      state p (fun unit next q => next = q.inside block outer (after unit)) := by
  refine .bind (.inside (reads_expect_of_eq hlexeme hnext)) ?_
  rintro _ _ q ⟨rfl, rfl⟩
  refine .bind (.forget (.inside (reads_awaited (hawaits q) (hkeyword q)))) ?_
  rintro _ _ q ⟨-, rfl⟩
  exact hgathers.reads_closed (fun _ => block) after hclose

/-- A title of a head. -/
theorem reads_title (head : OpenHead) (hlexeme : p.current.lexeme = .hashWord .gimmeh)
    (hnext : state.next? file p.current =
      some (p.inside block outer (.titleKeyword head p.current.start))) :
    Reads file 1 (title file) state p (fun title next q =>
      next = q.inside block outer (.head { head with titles := head.titles.push title })) :=
  reads_unit (fun opened parts closing => Title.mk (spanTo file opened closing) (joined " " parts))
    (fun title => .head { head with titles := head.titles.push title })
    (gathers_title head p.current.start) hlexeme hnext
    (fun _ h => resume_inside_of_none (if_neg h) rfl) (fun _ _ _ => rfl) fun _ _ _ _ => rfl

/-- An item of a list. -/
theorem reads_item (list : OpenList) (hlexeme : p.current.lexeme = .hashWord .gimmeh)
    (hnext : state.next? file p.current =
      some (p.inside block outer (.itemKeyword list p.current.start))) :
    Reads file 1 (item file) state p (fun item next q =>
      next = q.inside block outer (.list { list with items := list.items.push item })) :=
  reads_unit
    (fun opened (pieces : Array Inline) closing =>
      Item.mk (spanTo file opened closing) pieces.toList)
    (fun item => .list { list with items := list.items.push item })
    (gathers_inline (.item list p.current.start)) hlexeme hnext
    (fun _ h => resume_inside_of_none (if_neg h) rfl) (fun _ _ _ => rfl) fun _ _ _ _ => rfl

/-- Units of one rule are gathered up to the word that closes their section. Newlines between them
are dropped, and everything else is refused. -/
theorem gathers_units {unit : Rule α} {focus : Array α → Focus}
    (hnewline : ∀ block outer units (p : Ahead) start stop,
      (p.inside block outer (focus units)).next? file ⟨.newline, start, stop⟩ =
        some (p.inside block outer (focus units)))
    (hunit : ∀ block outer units (p : Ahead), p.current.lexeme = .hashWord .gimmeh →
      Reads file 1 unit (p.inside block outer (focus units)) p (fun unit next q =>
        next = q.inside block outer (focus (units.push unit))))
    (hother : ∀ block outer units (p : Ahead) token, token.lexeme ≠ .newline →
      token.lexeme ≠ .hashWord .gimmeh → token.lexeme ≠ .hashWord .oic →
      (p.inside block outer (focus units)).next? file token = none)
    (hexpected : ∀ nested units, (focus units).expectation nested = .word .oic) :
    Gathers file
      (fun units => do
        skipNewlines
        if (← peek) = .hashWord .gimmeh then return .inl (units.push (← unit))
        else return .inr units)
      .oic focus := by
  intro block outer units p
  refine .bind_iterates (reads_skipNewlines_inside (hnewline block outer units p)) ?_
  rintro _ _ q ⟨rfl, hlexeme⟩
  refine reads_peek ?_
  by_cases hgimmeh : q.current.lexeme = .hashWord .gimmeh
  · rw [if_pos hgimmeh]
    refine .goOn (hunit block outer units q hgimmeh) ?_
    rintro unit _ q rfl
    rfl
  · rw [if_neg hgimmeh]
    refine reads_pure ⟨rfl, fun hoic => ?_⟩
    exact resume_inside_of_none (hother block outer units q _ hlexeme hgimmeh hoic)
      (hexpected _ units)

/-- Titles of a head. -/
theorem gathers_head (opened : Position) :
    Gathers file (headIteration file) .oic (fun titles => .head ⟨opened, titles⟩) := by
  refine gathers_units (fun _ _ _ _ _ _ => rfl) ?_ ?_ fun _ _ => rfl
  · rintro block outer titles ⟨⟨lexeme, start, stop⟩, rest, pending, requests⟩ rfl
    exact reads_title ⟨opened, titles⟩ rfl rfl
  · intro block outer titles p token hnewline hgimmeh hoic
    show (head? file _ _ _).map _ = none
    rw [head?]
    split <;> first | contradiction | rfl

/-- Items of a list. -/
theorem gathers_list (opened : Position) :
    Gathers file (listIteration file) .oic (fun items => .list ⟨opened, items⟩) := by
  refine gathers_units (fun _ _ _ _ _ _ => rfl) ?_ ?_ fun _ _ => rfl
  · rintro block outer items ⟨⟨lexeme, start, stop⟩, rest, pending, requests⟩ rfl
    exact reads_item ⟨opened, items⟩ rfl rfl
  · intro block outer items p token hnewline hgimmeh hoic
    show (list? file _ _ _).map _ = none
    rw [list?]
    split <;> first | contradiction | rfl

/-- A head section. -/
theorem reads_head {opened : Position} (hlexeme : p.current.lexeme = .keyword .head)
    (hnext : state.next? file p.current = some (p.inside block outer (.head ⟨opened, #[]⟩))) :
    Reads file 1 (head file opened) state p (Adds block outer) := by
  refine .bind (.inside (reads_expect_of_eq hlexeme hnext)) ?_
  rintro _ _ q ⟨-, rfl⟩
  exact (gathers_head opened).reads_closed block.push (fun _ => .content false)
    fun _ _ _ _ => rfl

/-- A list section. -/
theorem reads_list {opened : Position} (hlexeme : p.current.lexeme = .keyword .list)
    (hnext : state.next? file p.current = some (p.inside block outer (.list ⟨opened, #[]⟩))) :
    Reads file 1 (list file opened) state p (Adds block outer) := by
  refine .bind (.inside (reads_expect_of_eq hlexeme hnext)) ?_
  rintro _ _ q ⟨-, rfl⟩
  exact (gathers_list opened).reads_closed block.push (fun _ => .content false)
    fun _ _ _ _ => rfl

/-- A rule reads a section into the innermost block. -/
def ReadsSection (file : String) (rule : Rule Node) (p : Ahead) : Prop :=
  ∀ state block outer, p.current.lexeme = .hashWord .maek →
    state.next? file p.current = some (p.inside block outer (.sectionKind p.current.start)) →
    Reads file 1 rule state p (Adds block outer)

/-- A state between two nodes of a block. -/
def Ahead.Idle (p : Ahead) (block : Block) (outer : List Block) (state : State) : Prop :=
  ∃ declared, state = p.inside block outer (.content declared)

/-- What becomes of a paragraf: a node is read, or the paragraf has to end. -/
def Contains (file : String) (block : Block) (outer : List Block) (p : Ahead) :
    Option Node → State → Ahead → Prop
  | some node, next, q =>
      p.requests.length < q.requests.length ∧ q.Idle (block.push node) outer next
  | none, next, q =>
      q.Idle block outer next ∧ Awaits file (.hashWord .oic) (.word .oic) next q

/-- A node that is read is contained in the block around it. -/
theorem Reads.contains {rule : Rule α} {f : α → Node} {mid : α → State → Ahead → Prop}
    (h : Reads file 1 rule state p mid)
    (hnode : ∀ a next q, mid a next q → q.Idle (block.push (f a)) outer next) :
    Reads file 0 (rule >>= fun a => pure (some (f a))) state p (Contains file block outer p) := by
  refine h.taking.forget.bind ?_
  rintro a next q ⟨hlength, -, hmid⟩
  exact reads_pure ⟨hlength, hnode a next q hmid⟩

/-- A node of a paragraf. -/
theorem reads_content? {inner : Rule Node} {around : Block} {declared : Bool}
    (hinner : ReadsSection file inner p) (hnewline : p.current.lexeme ≠ .newline) :
    Reads file 0 (content? file inner) (p.inside block (around :: outer) (.content declared)) p
      (Contains file block (around :: outer) p) := by
  refine reads_peek ?_
  obtain ⟨⟨lexeme, start, stop⟩, rest, pending, requests⟩ := p
  cases lexeme with
  | hashWord word =>
      cases word with
      | iHaz => exact .contains (reads_declaration rfl rfl) fun _ _ _ h => ⟨true, h⟩
      | itIz => exact .contains (reads_assignment rfl rfl) fun _ _ _ h => ⟨false, h⟩
      | lemmeSee => exact .contains (reads_reference none rfl rfl) fun _ _ _ h => ⟨false, h⟩
      | gimmeh => exact .contains (reads_styled rfl rfl) fun _ _ _ h => ⟨false, h⟩
      | maek => exact .contains (hinner _ _ _ rfl rfl) fun _ _ _ h => ⟨false, h⟩
      | oic => exact reads_pure ⟨⟨declared, rfl⟩, fun h => absurd rfl h⟩
      | _ => exact reads_pure ⟨⟨declared, rfl⟩, fun _ => resume_inside_of_none rfl rfl⟩
  | text content | name content =>
      exact .contains (reads_text none rfl) fun _ _ _ h => ⟨false, h⟩
  | newline => exact absurd rfl hnewline
  | _ => exact reads_pure ⟨⟨declared, rfl⟩, fun _ => resume_inside_of_none rfl rfl⟩

/-- The nodes of a paragraf. -/
theorem reads_paragrafIteration {inner : Rule Node} {around : Block} {opened : Position}
    {children : Array Node} {declared : Bool}
    (hinner : ∀ q, q.size ≤ p.size → ReadsSection file inner q) :
    Reads file 0 (paragrafIteration file inner children)
      (p.inside ⟨opened, children⟩ (around :: outer) (.content declared)) p
      (Iterates (fun children next q => q.Idle ⟨opened, children⟩ (around :: outer) next)
        (fun children next q => q.Idle ⟨opened, children⟩ (around :: outer) next ∧
          Awaits file (.hashWord .oic) (.word .oic) next q) p) := by
  refine .bind_iterates (.taking (reads_skipNewlines_inside fun _ _ => rfl)) ?_
  rintro _ _ q ⟨-, hsize, rfl, hnewline⟩
  refine .bind (reads_content? (hinner q hsize) hnewline) ?_
  rintro child next r hchild
  cases child with
  | some node => exact reads_pure hchild
  | none => exact reads_pure hchild

/-- The loop of a paragraf reads its nodes up to the closing word. -/
theorem reads_paragrafLoop {inner : Rule Node} {around : Block} {opened : Position}
    (hinner : ∀ q, q.size ≤ p.size → ReadsSection file inner q) :
    Reads file 0 (loop (paragrafIteration file inner) #[])
      (p.inside ⟨opened, #[]⟩ (around :: outer) (.content false)) p
      (fun children next q => q.Idle ⟨opened, children⟩ (around :: outer) next ∧
        Awaits file (.hashWord .oic) (.word .oic) next q) := by
  refine reads_loop (fun children next q => q.Idle ⟨opened, children⟩ (around :: outer) next) ?_
    ⟨false, rfl⟩
  rintro children _ q hq ⟨declared, rfl⟩
  exact reads_paragrafIteration fun r hr => hinner r (hr.trans hq)

/-- A paragraf. -/
theorem reads_paragraf {inner : Rule Node} {opened : Position}
    (hinner : ∀ q, q.size ≤ p.size → ReadsSection file inner q)
    (hlexeme : p.current.lexeme = .keyword .paragraf)
    (hnext : state.next? file p.current =
      some (p.inside ⟨opened, #[]⟩ (block :: outer) (.content false))) :
    Reads file 1 (paragraf file inner opened) state p (Adds block outer) := by
  refine .bind (.taking (.inside (reads_expect_of_eq hlexeme hnext))) ?_
  rintro _ _ q ⟨-, hsize, -, rfl⟩
  refine .bind (reads_paragrafLoop fun r hr => hinner r (by omega)) ?_
  rintro children _ r ⟨⟨declared, rfl⟩, hawaits⟩
  refine .bind (.forget (.inside (reads_awaited hawaits fun _ _ => rfl))) ?_
  rintro closing _ s ⟨rfl, rfl⟩
  exact reads_pure rfl

/-- A section over given inner sections. -/
theorem reads_sectionOver {inner : Rule Node}
    (hinner : ∀ q, q.size < p.size → ReadsSection file inner q) :
    ReadsSection file (sectionOver file inner) p := by
  intro state block outer hlexeme hnext
  refine .bind (.taking (.inside (reads_expect_of_eq hlexeme hnext))) ?_
  rintro opening _ q ⟨-, hq, rfl, rfl⟩
  refine .bind (.taking (reads_skipNewlines_inside fun _ _ => rfl)) ?_
  rintro _ _ r ⟨-, hr, rfl, hnewline⟩
  have hrest : ∀ s, s.size ≤ r.size → ReadsSection file inner s :=
    fun s hs => hinner s (by omega)
  refine reads_peek ?_
  obtain ⟨⟨lexeme, start, stop⟩, rest, pending, requests⟩ := r
  cases lexeme with
  | keyword word =>
      cases word with
      | head => exact (reads_head rfl rfl).forget
      | paragraf => exact (reads_paragraf hrest rfl rfl).forget
      | list => exact (reads_list rfl rfl).forget
      | _ => exact reads_refuse (resume_inside_of_none rfl rfl)
  | newline => exact absurd rfl hnewline
  | _ => exact reads_refuse (resume_inside_of_none rfl rfl)

/-- A section. -/
theorem reads_anySection (p : Ahead) : ReadsSection file (anySection file) p := by
  refine within_induction ?_ (fun inner p hinner => reads_sectionOver hinner) p
  intro first second q hsame h state block outer hlexeme hnext
  have hfirst := h state block outer hlexeme hnext
  unfold Reads at hfirst ⊢
  rwa [← hsame]

/-! ## Documents -/

/-- An assignment may follow a declaration. -/
theorem next?_itIz (h : p.current.lexeme = .hashWord .itIz) :
    (p.inside block [] (.content true)).next? file p.current =
      some (p.inside block [] (.assignment p.current.start #[])) := by
  obtain ⟨⟨lexeme, start, stop⟩, rest, pending, requests⟩ := p
  cases h
  rfl

/-- That an assignment may follow makes no difference if none does. -/
theorem resume_declared (hnewline : p.current.lexeme ≠ .newline)
    (hitIz : p.current.lexeme ≠ .hashWord .itIz) :
    resume file (p.inside block [] (.content true)) p =
      resume file (p.inside block [] (.content false)) p := by
  refine resume_congr ?_ rfl rfl
  obtain ⟨⟨lexeme, start, stop⟩, rest, pending, requests⟩ := p
  cases lexeme with
  | newline => exact absurd rfl hnewline
  | hashWord word =>
      cases word with
      | itIz => exact absurd rfl hitIz
      | _ => rfl
  | _ => rfl

/-- The nodes of a document. -/
theorem reads_bodyIteration {opened : Position} {children : Array Node} :
    Reads file 0 (bodyIteration file children) (p.inside ⟨opened, children⟩ [] (.content false)) p
      (Iterates (fun children next q => next = q.inside ⟨opened, children⟩ [] (.content false))
        (fun children next q => next = q.inside ⟨opened, children⟩ [] (.content false) ∧
          q.current.lexeme ∈ [Lexeme.eof, .hashWord .kthxbye]) p) := by
  refine .bind_iterates (reads_skipNewlines_inside fun _ _ => rfl) ?_
  rintro _ _ q ⟨rfl, hnewline⟩
  refine reads_peek ?_
  obtain ⟨⟨lexeme, start, stop⟩, rest, pending, requests⟩ := q
  cases lexeme with
  | hashWord word =>
      cases word with
      | kthxbye => exact reads_pure ⟨rfl, by simp⟩
      | maek => exact .goOn (reads_anySection _ _ _ _ rfl rfl) fun _ _ _ h => h
      | iHaz =>
          refine .iterates (.bind (reads_declaration rfl rfl) ?_)
          rintro declared _ q rfl
          refine .bind (reads_skipNewlines_inside fun _ _ => rfl) ?_
          rintro _ _ r ⟨rfl, hnewline⟩
          refine reads_peek ?_
          split
          next hitIz =>
              refine .bind (.forget (reads_assignment hitIz (next?_itIz hitIz))) ?_
              rintro assigned _ s rfl
              exact reads_pure ⟨_, rfl, rfl⟩
          -- The reader still waits for an assignment, which makes no difference for this token.
          next hitIz =>
              exact reads_pure_of_resume (resume_declared hnewline hitIz) ⟨_, rfl, rfl⟩
      | lemmeSee => exact .goOn (reads_reference none rfl rfl) fun _ _ _ h => h
      | gimmeh => exact .goOn (reads_styled rfl rfl) fun _ _ _ h => h
      | _ => exact .goOn (.inside (reads_advance rfl)) fun _ _ _ h => h.2
  | text content | name content | keyword word =>
      exact .goOn (reads_text none rfl) fun _ _ _ h => h
  | newline => exact absurd rfl hnewline
  | eof => exact reads_pure ⟨rfl, by simp⟩

/-- The loop of a document reads its nodes up to the last word or the end of the input. -/
theorem reads_bodyLoop {opened : Position} :
    Reads file 0 (loop (bodyIteration file) #[]) (p.inside ⟨opened, #[]⟩ [] (.content false)) p
      (fun children next q => next = q.inside ⟨opened, children⟩ [] (.content false) ∧
        q.current.lexeme ∈ [Lexeme.eof, .hashWord .kthxbye]) := by
  refine reads_loop
    (fun children next q => next = q.inside ⟨opened, children⟩ [] (.content false)) ?_ rfl
  rintro children _ q - rfl
  exact reads_bodyIteration

/-- After the last word everything but a newline and the end of the input is refused. -/
theorem resume_after_of_ne {document : Document} (hnewline : p.current.lexeme ≠ .newline)
    (heof : p.current.lexeme ≠ .eof) :
    resume file (.after document) p = .error (.refused ⟨.endOfInput, p.current⟩) := by
  have hnext : (State.after document).next? file p.current = none := if_neg hnewline
  rw [resume, if_neg heof, hnext]
  rfl

/-- A document. -/
theorem reads_program (hpending : p.pending = none) :
    Reads file 0 (program file) .before p
      (fun document next q => next = .after document ∧ q.current.lexeme = .eof) := by
  have hhai : Awaits file (.hashWord .hai) (.word .hai) .before p :=
    fun h => resume_of_none (if_neg h) rfl
  have hnext : ∀ start stop, State.before.next? file ⟨.hashWord .hai, start, stop⟩ =
      some (p.inside ⟨start, #[]⟩ [] (.content false)) := by
    intro start stop
    rw [Ahead.inside, hpending]
    rfl
  refine .bind (.forget (.inside (reads_awaited hhai hnext))) ?_
  rintro _ _ afterHai ⟨rfl, rfl⟩
  refine .bind (reads_skipNewlines_inside fun _ _ => rfl) ?_
  rintro _ _ first ⟨rfl, -⟩
  refine .bind reads_bodyLoop ?_
  rintro children _ afterBody ⟨rfl, hlast⟩
  refine .bind (reads_skipNewlines_of_ne ?_) ?_
  · rintro hnewline
    simp [hnewline] at hlast
  rintro _ _ last ⟨rfl, rfl⟩
  have hkthxbye : Awaits file (.hashWord .kthxbye) (.word .kthxbye)
      (last.inside ⟨p.current.start, children⟩ [] (.content false)) last := by
    intro h
    have heof : last.current.lexeme = .eof := by simpa [h] using hlast
    exact resume_inside_of_none (State.next?_eof _ _ heof) rfl
  refine .bind (.forget (reads_awaited hkthxbye fun _ _ => rfl)) ?_
  rintro _ _ afterKthxbye ⟨rfl, rfl, -⟩
  refine .bind (reads_skipNewlines fun _ _ => rfl) ?_
  rintro _ _ final ⟨rfl, -, hnewline⟩
  refine reads_peek ?_
  split
  next heof => exact reads_pure ⟨rfl, heof⟩
  next heof => exact reads_refuse (resume_after_of_ne hnewline heof)

end Descent

end Reader

end LolMarkup
