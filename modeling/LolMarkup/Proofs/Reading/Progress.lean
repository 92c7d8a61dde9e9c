import LolMarkup.Proofs.Reading.Rules

/-!
# Progress of the reader

Cutting off a token moves on in the text (`Cursor.advances_of_next`), and `Loop.Progresses` says of
a loop that no iteration goes on without having taken a token, and none at the end of the input.
Every loop of the descent progresses because its iterations follow the reader, so that the guards of
the loops and of the rule of sections are never needed (`Loop.Unguarded`, `anySection_eq`).
`reader_progresses` puts together what this means for a whole source: the tokens that are asked for,
in order, and that reading comes to an end.
-/

namespace LolMarkup

namespace Reader

namespace Cursor

variable {cursor rest : Cursor} {position : Position} {cs : List Char}

/-- A cursor that is further on has a greater offset. -/
theorem Advances.offset_lt (h : cursor.Advances rest) :
    cursor.position.offset < rest.position.offset := by
  obtain ⟨passed, hne, -, hposition⟩ := h
  have hpos := Text.extent_pos hne
  rw [hposition, Position.offset_after]
  omega

/-- No request follows the end of the input. -/
theorem nil_of_stream {front back : List (Except LexicalError Token)} {token : Token}
    (h : cursor.stream = front ++ .ok token :: back) (heof : token.lexeme = .eof) : back = [] := by
  fun_induction stream cursor generalizing front with
  | case1 cursor e hnext => cases front <;> simp at h
  | case2 cursor first rest hnext ih =>
      cases front with
      | nil =>
          obtain ⟨hfirst, hback⟩ := List.cons.inj h
          cases hfirst
          simpa [heof] using hback.symm
      | cons answer front =>
          obtain ⟨-, htail⟩ := List.cons.inj h
          by_cases hlast : first.lexeme = .eof
          · simp [hlast] at htail
          · rw [dif_neg hlast] at htail
            exact ih hlast htail

/-- What is asked for depends only on what comes next. -/
theorem stream_congr {other : Cursor} (h : cursor.next = other.next) :
    cursor.stream = other.stream := by
  rw [stream, stream, h]

/-- The answers are the tokens of the scan and then the end of the input or the lexical error. -/
theorem stream_eq (position : Position) (cs : List Char) :
    stream ⟨position, cs⟩ =
      (Scan.ofSegmentation position (Segmentation.ofChars cs)).tokens.map .ok ++
        (Scan.ofSegmentation position (Segmentation.ofChars cs)).ending.pull 1 := by
  induction cs using Segmentation.ofChars_induction generalizing position with
  | nil => exact stream_of_ok next_nil
  | fault c cs fault hfirst => exact stream_of_error (next_of_error hfirst)
  | segment c cs segment after hfirst hcs hshape ih =>
      cases hshape with
      | gap chars hne hgap =>
          rw [stream_congr (next_of_gap hfirst hcs)]
          exact ih (position.after chars)
      | lexeme chars lexeme hspells =>
          have heof : lexeme ≠ .eof := by
            rintro rfl
            cases hspells
          rw [stream_of_ok (next_of_lexeme hfirst hcs), if_neg heof, ih (position.after chars)]
          rfl

end Cursor

end Reader

namespace Source

open Reader

/-- The answers that a source gives are the tokens of its scan and then its ending. -/
theorem stream_start (source : Source) :
    (Cursor.start source.text.toList).stream =
      source.scan.pull (source.scan.tokens.length + 1) := by
  have hstream := Cursor.stream_eq .origin source.text.toList
  rw [Scan.pull, List.take_of_length_le (Nat.le_succ _), Nat.add_sub_cancel_left]
  exact hstream

end Source

namespace Reader.Descent

/-- A loop of the rules. -/
structure Loop where
  Carried : Type
  Result : Type
  iteration : Carried → Rule (Carried ⊕ Result)

/-- The loops of all rules. -/
def loops (file : String) : List Loop :=
  [⟨_, _, newlineIteration⟩, ⟨_, _, inlineIteration file⟩, ⟨_, _, urlIteration⟩,
    ⟨_, _, titleIteration⟩, ⟨_, _, valueIteration⟩, ⟨_, _, headIteration file⟩,
    ⟨_, _, listIteration file⟩, ⟨_, _, paragrafIteration file (anySection file)⟩,
    ⟨_, _, bodyIteration file⟩]

/-- Wherever an iteration of a loop starts, it goes on only after having taken a token, and at the
end of the input it leaves the loop or fails without asking for a token. -/
def Loop.Progresses (loop : Loop) : Prop :=
  ∀ carried p,
    match loop.iteration carried p with
    | .ok (.inl _) q => p.current.lexeme ≠ .eof ∧
        p.requests.length < q.requests.length ∧ q.size < p.size
    | .ok (.inr _) q | .error (.failed _) q => p.current.lexeme = .eof → q.requests = p.requests
    | .error .stuck _ => False

/-- An iteration that does what the reader does progresses. -/
theorem Loop.progresses_of_reads {loop : Loop}
    (h : ∀ carried p, ∃ file state inv post,
      Reads file 0 (loop.iteration carried) state p (Iterates inv post p)) : loop.Progresses := by
  intro carried p
  obtain ⟨file, state, inv, post, hreads⟩ := h carried p
  unfold Reads at hreads
  split at hreads
  next answer q hrun =>
      obtain ⟨hleads, -, next, -, hpost⟩ := hreads
      have hsame := hleads.ends.requests_of_eof
      cases answer with
      | inl following =>
          have hlength := hpost.1
          have hsize := hleads.size
          rw [hrun]
          refine ⟨?_, hlength, by omega⟩
          intro heof
          rw [hsame heof] at hlength
          exact absurd hlength (Nat.lt_irrefl _)
      | inr result =>
          rw [hrun]
          exact hsame
  next e q hrun =>
      rw [hrun]
      exact hreads.1.requests_of_eof
  next => exact hreads.elim

/-- What gathers up to a closing word progresses. -/
theorem Gathers.progresses {α : Type} (file : String) {iteration : α → Rule (α ⊕ α)}
    {closing : HashWord} {focus : α → Focus} (h : Gathers file iteration closing focus) :
    Loop.Progresses ⟨α, α, iteration⟩ :=
  Loop.progresses_of_reads fun gathered p => ⟨file, _, _, _, h ⟨.origin, #[]⟩ [] gathered p⟩

/-- Every loop progresses. For each one there are states in which the reader does what its
iterations do, wherever they start. -/
theorem progresses_of_mem_loops {file : String} {loop : Loop} (h : loop ∈ loops file) :
    loop.Progresses := by
  simp only [loops, List.mem_cons, List.not_mem_nil, or_false] at h
  rcases h with rfl | rfl | rfl | rfl | rfl | rfl | rfl | rfl | rfl
  · exact Loop.progresses_of_reads fun _ p =>
      ⟨file, p.inside ⟨.origin, #[]⟩ [] (.content false), _, _,
        reads_newlineIteration p.pending rfl fun _ _ => rfl⟩
  · exact Gathers.progresses file (gathers_inline (.item ⟨.origin, #[]⟩ .origin))
  · exact Gathers.progresses file (gathers_url .origin .sound)
  · exact Gathers.progresses file (gathers_title ⟨.origin, #[]⟩ .origin)
  · exact Gathers.progresses file (gathers_value .origin)
  · exact Gathers.progresses file (gathers_head .origin)
  · exact Gathers.progresses file (gathers_list .origin)
  · exact Loop.progresses_of_reads fun children p =>
      ⟨file, p.inside ⟨.origin, children⟩ [⟨.origin, #[]⟩] (.content false), _, _,
        reads_paragrafIteration fun q _ => reads_anySection q⟩
  · exact Loop.progresses_of_reads fun children p =>
      ⟨file, p.inside ⟨.origin, children⟩ [] (.content false), _, _, reads_bodyIteration⟩

/-! ## Guards -/

/-- A loop runs as it would without a guard. -/
def Loop.Unguarded (loop : Loop) : Prop :=
  ∀ carried p, Descent.loop loop.iteration carried p =
    match loop.iteration carried p with
    | .ok (.inl next) q => Descent.loop loop.iteration next q
    | .ok (.inr result) q => .ok result q
    | .error stop q => .error stop q

/-- A loop that progresses needs no guard. -/
theorem Loop.Progresses.unguarded {loop : Loop} (h : loop.Progresses) : loop.Unguarded := by
  intro carried p
  have hprogress := h carried p
  rw [Descent.loop]
  cases hrun : loop.iteration carried p with
  | error stop q => rfl
  | ok answer q =>
      cases answer with
      | inr result => rfl
      | inl next =>
          rw [hrun] at hprogress
          exact if_pos hprogress.2.2

section Guards

variable {α β : Type} {file : String} {p q : Ahead}

/-- Rules that do the same at a place do the same there before another rule. -/
theorem bind_congr_left {rule rule' : Rule α} {f : α → Rule β} (h : rule p = rule' p) :
    (rule >>= f) p = (rule' >>= f) p := by
  show EStateM.bind rule f p = EStateM.bind rule' f p
  rw [EStateM.bind, EStateM.bind, h]

/-- Rules that do the same after another rule do the same with it in front. -/
theorem bind_congr_right {rule : Rule α} {f g : α → Rule β}
    (h : ∀ a q, rule p = .ok a q → f a q = g a q) : (rule >>= f) p = (rule >>= g) p := by
  show EStateM.bind rule f p = EStateM.bind rule g p
  rw [EStateM.bind, EStateM.bind]
  cases hrun : rule p with
  | ok a q => exact h a q hrun
  | error stop q => rfl

/-- A token that is expected and taken leaves less to read. -/
theorem size_lt_of_expect {lexeme : Lexeme} {expected : Expectation} {token : Token}
    (hlexeme : lexeme ≠ .eof) (h : expect lexeme expected p = .ok token q) : q.size < p.size := by
  have hpeek : expect lexeme expected p =
      (if p.current.lexeme = lexeme then advance else refuse expected : Rule Token) p := rfl
  rw [hpeek] at h
  split at h
  next heq => exact size_lt_of_advance (heq ▸ hlexeme) h
  next => cases h

/-- Skipping newlines does not leave more to read. -/
theorem size_le_of_skipNewlines (h : skipNewlines p = .ok () q) : q.size ≤ p.size := by
  have hreads : Reads "" 0 skipNewlines (p.inside ⟨.origin, #[]⟩ [] (.content false)) p _ :=
    reads_skipNewlines_inside fun _ _ => rfl
  unfold Reads at hreads
  rw [h] at hreads
  have hsize := hreads.1.size
  have hlength := hreads.1.asked.length_le
  omega

/-- A loop depends only on what its iterations do further ahead. -/
theorem loop_congr {iteration iteration' : α → Rule (α ⊕ β)}
    (h : ∀ carried q, q.size ≤ p.size → iteration carried q = iteration' carried q)
    (carried : α) : loop iteration carried p = loop iteration' carried p := by
  induction hn : p.size using Nat.strong_induction_on generalizing carried p with
  | _ n ih =>
      rw [loop, loop, h carried p (Nat.le_refl _)]
      cases iteration' carried p with
      | error stop q => rfl
      | ok answer q =>
          cases answer with
          | inr result => rfl
          | inl next =>
              by_cases hq : q.size < p.size
              · have hrest := ih q.size (hn ▸ hq)
                  (fun carried r hr => h carried r (by omega)) next rfl
                simp only [if_pos hq, hrest]
              · simp only [if_neg hq]

/-- Reading a node of a paragraf depends on the rule for inner sections only at its place. -/
theorem content?_congr {inner inner' : Rule Node} (h : inner p = inner' p) :
    content? file inner p = content? file inner' p := by
  obtain ⟨⟨lexeme, start, stop⟩, rest, pending, requests⟩ := p
  cases lexeme with
  | hashWord word =>
      cases word with
      | maek => exact bind_congr_left h
      | _ => rfl
  | _ => rfl

/-- Reading a paragraf depends on the rule for inner sections only where no more is left to read. -/
theorem paragraf_congr {inner inner' : Rule Node} {opened : Position}
    (h : ∀ q, q.size ≤ p.size → inner q = inner' q) :
    paragraf file inner opened p = paragraf file inner' opened p := by
  refine bind_congr_right ?_
  intro _ q hq
  have hsize := size_lt_of_expect (by simp) hq
  refine bind_congr_left (loop_congr ?_ #[])
  intro children r hr
  refine bind_congr_right ?_
  intro _ s hs
  have hsize' := size_le_of_skipNewlines hs
  exact bind_congr_left (content?_congr (h s (by omega)))

/-- A section depends only on the sections further ahead. -/
theorem sectionOver_congr {inner inner' : Rule Node}
    (h : ∀ q, q.size < p.size → inner q = inner' q) :
    sectionOver file inner p = sectionOver file inner' p := by
  refine bind_congr_right ?_
  intro opening q hq
  have hsize := size_lt_of_expect (by simp) hq
  refine bind_congr_right ?_
  intro _ r hr
  have hsize' := size_le_of_skipNewlines hr
  have hrest : ∀ s, s.size ≤ r.size → inner s = inner' s := fun s hs => h s (by omega)
  obtain ⟨⟨lexeme, start, stop⟩, rest, pending, requests⟩ := r
  cases lexeme with
  | keyword word =>
      cases word with
      | paragraf => exact paragraf_congr hrest
      | _ => rfl
  | _ => rfl

/-- The rule of sections uses itself without a guard. -/
theorem anySection_eq : anySection file = sectionOver file (anySection file) := by
  funext p
  unfold anySection
  rw [within]
  refine sectionOver_congr ?_
  intro q hq
  exact if_pos hq

end Guards

/-! ## Reading by descent -/

/-- The rule of documents comes to what the reader comes to. -/
theorem program_outcome (file : String) {p : Ahead} (hpending : p.pending = none) :
    match program file p with
    | .ok document q => p.Ends q ∧ resume file .before p = .ok document
    | .error (.failed e) q => p.Ends q ∧ resume file .before p = .error e
    | .error .stuck _ => False := by
  have hreads : Reads file 0 (program file) .before p _ := reads_program hpending
  unfold Reads at hreads
  split at hreads
  next document q hrun =>
      obtain ⟨hleads, -, _, hsame, rfl, heof⟩ := hreads
      rw [hrun]
      refine ⟨hleads.ends, ?_⟩
      rw [hsame, resume, if_pos heof]
      rfl
  next e q hrun =>
      rw [hrun]
      exact hreads
  next => exact hreads.elim

/-- Reading by descent comes to what the reader comes to, and asks for no more tokens than the text
hands out. -/
theorem parse_eq (source : Source) :
    (parse source).1 = source.read.mapError .failed ∧
      (parse source).2 <+: (Cursor.start source.text.toList).stream := by
  have hread : source.read = Supply.lexer.read source.path .before (.start source.text.toList) :=
    Supply.read_lexer source.path source.text.toList .origin .before
  rw [hread]
  cases hfirst : (Cursor.start source.text.toList).next with
  | error e =>
      have hparse : parse source = (.error (.failed (.lexical e)), [.error e]) := by
        rw [parse, hfirst]
      rw [hparse, Supply.read_of_error hfirst, Cursor.stream_of_error hfirst]
      exact ⟨rfl, List.prefix_rfl⟩
  | ok answer =>
      obtain ⟨token, rest⟩ := answer
      have hstream : (Cursor.start source.text.toList).stream =
          (Ahead.start token rest).requests ++ (Ahead.start token rest).remaining :=
        Cursor.stream_of_ok hfirst
      have hresume : Supply.lexer.read source.path .before (.start source.text.toList) =
          resume source.path .before (.start token rest) := read_eq_resume hfirst
      have hprogram := program_outcome source.path (rfl : (Ahead.start token rest).pending = none)
      rw [hstream, hresume]
      cases hrun : program source.path (.start token rest) with
      | ok document q =>
          have hparse : parse source = (.ok document, q.requests) := by
            simp only [parse, hfirst, hrun]
          rw [hrun] at hprogram
          rw [hparse, hprogram.2]
          exact ⟨rfl, hprogram.1.answered⟩
      | error stop q =>
          have hparse : parse source = (.error stop, q.requests) := by
            simp only [parse, hfirst, hrun]
          rw [hrun] at hprogram
          cases stop with
          | stuck => exact hprogram.elim
          | failed e =>
              rw [hparse, hprogram.2]
              exact ⟨rfl, hprogram.1.answered⟩

end Reader.Descent

open Reader Reader.Descent

/-- Reading by descent comes to what the reader comes to. It asks for a token at most once for each
one that the text hands out, and never after the end of the input. A token before the end of the
input takes characters off the text, every iteration of a loop takes a token or leaves the loop, and
neither the loops nor the rule of sections need their guards. -/
theorem reader_progresses (source : Source) :
    (parse source).1 = source.read.mapError .failed ∧
    (parse source).2 <+: source.scan.pull (source.scan.tokens.length + 1) ∧
    (∀ front token back, (parse source).2 = front ++ .ok token :: back →
      token.lexeme = .eof → back = []) ∧
    (∀ cursor token rest, Cursor.next cursor = .ok (token, rest) → token.lexeme ≠ .eof →
      cursor.Advances rest ∧ cursor.position.offset < rest.position.offset) ∧
    (∀ loop ∈ loops source.path, loop.Progresses ∧ loop.Unguarded) ∧
    anySection source.path = sectionOver source.path (anySection source.path) := by
  obtain ⟨hresult, hrequests⟩ := parse_eq source
  refine ⟨hresult, source.stream_start ▸ hrequests, ?_, ?_, ?_, anySection_eq⟩
  · intro front token back hparse heof
    obtain ⟨later, hlater⟩ := hrequests
    rw [hparse, List.append_assoc, List.cons_append] at hlater
    exact (List.append_eq_nil_iff.mp (Cursor.nil_of_stream hlater.symm heof)).1
  · intro cursor token rest hnext heof
    have hadvances := Cursor.advances_of_next hnext heof
    exact ⟨hadvances, hadvances.offset_lt⟩
  · intro loop hloop
    have hprogresses := progresses_of_mem_loops hloop
    exact ⟨hprogresses, hprogresses.unguarded⟩

/-- The end of the input is refused in a title that is not closed, after at most one request for
each of the six tokens and one more. -/
theorem reader_progresses_unclosed :
    (parse ⟨"doc.lol", "#HAI #MAEK HEAD #GIMMEH TITLE x"⟩).1 =
      .error (.failed (.refused ⟨.titleText, .atEnd ⟨1, 32, 31⟩⟩)) ∧
    (parse ⟨"doc.lol", "#HAI #MAEK HEAD #GIMMEH TITLE x"⟩).2.length ≤ 7 ∧
    (∃ token rest,
      (Cursor.start "#HAI #MAEK HEAD #GIMMEH TITLE x".toList).next = .ok (token, rest) ∧
        token.lexeme = .hashWord .hai ∧ 0 < rest.position.offset) ∧
    Loop.Progresses ⟨_, _, titleIteration⟩ := by
  obtain ⟨hresult, hrequests, -, hadvances, hloops, -⟩ :=
    reader_progresses ⟨"doc.lol", "#HAI #MAEK HEAD #GIMMEH TITLE x"⟩
  have hfirst : Segment.first '#' "HAI #MAEK HEAD #GIMMEH TITLE x".toList =
      .ok ⟨"#HAI".toList, some (.hashWord .hai)⟩ := rfl
  have hnext : (Cursor.start ('#' :: "HAI #MAEK HEAD #GIMMEH TITLE x".toList)).next = _ :=
    Cursor.next_of_lexeme hfirst rfl
  refine ⟨hresult.trans rfl, hrequests.length_le.trans (Nat.le_of_eq rfl), ?_,
    (hloops _ (by simp [loops])).1⟩
  exact ⟨_, _, hnext, rfl, (hadvances _ _ _ hnext (by simp)).2⟩

end LolMarkup
