import LolMarkup.Proofs.Reading.Changes
import LolMarkup.Proofs.Reading.Control
import LolMarkup.Proofs.Reading.Descent

/-!
# Rules follow the reader

`Reads` relates a rule of the descent to the reader, which takes the same tokens one at a time:
where the rule has read something the reader goes on from a known state, and where the rule fails
the reader ends with the same error. It also says that a rule asks for no token after the end of the
input, and is never stuck. The statement holds of whole rules because it holds of the parts they are
made of: there is one lemma for taking and for refusing a token, for sequences (`Reads.bind`), for
loops (`reads_loop`) and for rules that use themselves (`within_induction`).
-/

namespace LolMarkup

namespace Reader

/-- No state takes the end of the input. -/
theorem State.next?_eof (file : String) (state : State) {token : Token}
    (h : token.lexeme = .eof) : state.next? file token = none := by
  have hcontrol : state.control.next? .eof = none := by
    cases state.control with
    | inside place depth => cases place <;> cases depth <;> rfl
    | _ => rfl
  have hnext := state.control_next? file token
  rw [h, hcontrol] at hnext
  exact Option.map_eq_none_iff.mp hnext

/-- The answers to all requests for a token, up to the end of the input or an error. -/
def Cursor.stream (cursor : Cursor) : List (Except LexicalError Token) :=
  match _ : cursor.next with
  | .error e => [.error e]
  | .ok (token, rest) => .ok token :: if _ : token.lexeme = .eof then [] else rest.stream
termination_by cursor.rest.length
decreasing_by exact length_lt_of_next ‹_› ‹_›

namespace Cursor

variable {cursor rest : Cursor}

/-- A lexical error is the last answer. -/
theorem stream_of_error {e : LexicalError} (h : cursor.next = .error e) :
    cursor.stream = [.error e] := by
  rw [stream]
  split <;> simp_all

/-- A token is answered before what follows it, and nothing follows the end of the input. -/
theorem stream_of_ok {token : Token} (h : cursor.next = .ok (token, rest)) :
    cursor.stream = .ok token :: if token.lexeme = .eof then [] else rest.stream := by
  rw [stream]
  split <;> simp_all

end Cursor

namespace Descent

variable {α β γ : Type} {file : String} {least more : Nat} {p q r : Ahead} {state next : State}

namespace Ahead

/-- The answers to all further requests for a token. At the end of the input none are made. -/
def remaining (p : Ahead) : List (Except LexicalError Token) :=
  if p.current.lexeme = .eof then [] else p.rest.stream

/-- One place is reached from another by taking tokens. -/
structure Leads (p q : Ahead) : Prop where
  asked : p.requests <+: q.requests
  answers : q.requests ++ q.remaining = p.requests ++ p.remaining
  size : q.size + q.requests.length ≤ p.size + p.requests.length

/-- One place has only seen requests that another one makes or has still to make. -/
structure Ends (p q : Ahead) : Prop where
  asked : p.requests <+: q.requests
  answered : q.requests <+: p.requests ++ p.remaining

/-- Every place leads to itself. -/
theorem Leads.refl (p : Ahead) : p.Leads p :=
  ⟨List.prefix_rfl, rfl, Nat.le_refl _⟩

/-- What a place leads to leads on. -/
theorem Leads.trans (hpq : p.Leads q) (hqr : q.Leads r) : p.Leads r :=
  ⟨hpq.asked.trans hqr.asked, hqr.answers.trans hpq.answers, hqr.size.trans hpq.size⟩

/-- What a place leads to has only seen requests that are made from there. -/
theorem Leads.ends (h : p.Leads q) : p.Ends q :=
  ⟨h.asked, h.answers ▸ List.prefix_append _ _⟩

/-- What ends after a place that is led to ends after the first one. -/
theorem Leads.trans_ends (hpq : p.Leads q) (hqr : q.Ends r) : p.Ends r :=
  ⟨hpq.asked.trans hqr.asked, hpq.answers ▸ hqr.answered⟩

/-- At the end of the input nothing is asked for. -/
theorem Ends.requests_of_eof (h : p.Ends q) (heof : p.current.lexeme = .eof) :
    q.requests = p.requests := by
  have hanswered := h.answered
  rw [remaining, if_pos heof, List.append_nil] at hanswered
  exact hanswered.eq_of_length_le h.asked.length_le

end Ahead

/-! ## The reader at a place -/

/-- What the reader comes to from a state on, when the token in front has been asked for. -/
def resume (file : String) (state : State) (p : Ahead) : Except ReadError Document :=
  if p.current.lexeme = .eof then state.finishAt p.current
  else
    match state.next? file p.current with
    | some next => Supply.lexer.read file next p.rest
    | none => .error (.refused ⟨state.expectation, p.current⟩)

/-- Reading from a cursor on is asking for a token and going on from there. -/
theorem read_eq_resume {cursor : Cursor} (h : cursor.next = .ok (p.current, p.rest)) :
    Supply.lexer.read file state cursor = resume file state p := by
  by_cases heof : p.current.lexeme = .eof
  · rw [Supply.read_of_eof h heof, resume, if_pos heof]
  · exact (Supply.read_of_token h heof).trans (if_neg heof).symm

/-- What is taken is not the end of the input. -/
theorem lexeme_ne_eof_of_next? (h : state.next? file p.current = some next) :
    p.current.lexeme ≠ .eof := by
  intro heof
  rw [State.next?_eof file state heof] at h
  cases h

/-- A token that is taken leads on to the rest of the text. -/
theorem resume_of_some (h : state.next? file p.current = some next) :
    resume file state p = Supply.lexer.read file next p.rest := by
  rw [resume, if_neg (lexeme_ne_eof_of_next? h), h]

/-- A state that takes neither the token in front nor the end of the input refuses. -/
theorem resume_of_none (h : state.next? file p.current = none)
    (hfinish : state.finishAt p.current = .error (.refused ⟨state.expectation, p.current⟩)) :
    resume file state p = .error (.refused ⟨state.expectation, p.current⟩) := by
  unfold resume
  split
  · exact hfinish
  · rw [h]

/-- States that treat the token in front alike go on alike. -/
theorem resume_congr {state' : State}
    (hnext : state.next? file p.current = state'.next? file p.current)
    (hexpectation : state.expectation = state'.expectation)
    (hfinish : state.finishAt p.current = state'.finishAt p.current) :
    resume file state p = resume file state' p := by
  unfold resume
  rw [hfinish, hnext, hexpectation]

/-! ## Reading -/

/-- A rule does what the reader does from a state on. If the rule reads something, it takes at least
so many tokens and the reader goes on from a state as said. If it fails, so does the reader. -/
def Reads (file : String) (least : Nat) (rule : Rule α) (state : State) (p : Ahead)
    (post : α → State → Ahead → Prop) : Prop :=
  match rule p with
  | .ok a q => p.Leads q ∧ p.requests.length + least ≤ q.requests.length ∧
      ∃ next, resume file state p = resume file next q ∧ post a next q
  | .error (.failed e) q => p.Ends q ∧ resume file state p = .error e
  | .error .stuck _ => False

section Reads

variable {rule : Rule α} {f : α → Rule β} {mid : α → State → Ahead → Prop}
  {post : β → State → Ahead → Prop}

/-- What is said of the state that is reached may be weakened. -/
theorem Reads.imp {mid' : α → State → Ahead → Prop} (h : Reads file least rule state p mid)
    (himp : ∀ a next q, mid a next q → mid' a next q) : Reads file least rule state p mid' := by
  unfold Reads at *
  split at h
  · obtain ⟨hleads, hleast, next, hsame, hmid⟩ := h
    exact ⟨hleads, hleast, next, hsame, himp _ _ _ hmid⟩
  · exact h
  · exact h

/-- A rule that does what another one does further ahead. -/
theorem Reads.further {rule' : Rule β} {rule : Rule β} (hrule : rule p = rule' q)
    (hleads : p.Leads q) (hleast : p.requests.length + least ≤ q.requests.length)
    (hsame : resume file state p = resume file next q)
    (h : Reads file more rule' next q post) : Reads file least rule state p post := by
  unfold Reads at *
  rw [hrule]
  split at h
  · obtain ⟨hleads', -, next', hsame', hpost⟩ := h
    have hlength := hleads'.asked.length_le
    exact ⟨hleads.trans hleads', by omega, next', hsame.trans hsame', hpost⟩
  · exact ⟨hleads.trans_ends h.1, hsame.trans h.2⟩
  · exact h

/-- Rules are read one after another. -/
theorem Reads.bind (h : Reads file least rule state p mid)
    (hf : ∀ a next q, mid a next q → Reads file 0 (f a) next q post) :
    Reads file least (rule >>= f) state p post := by
  have hbind : (rule >>= f) p = EStateM.bind rule f p := rfl
  unfold Reads at h
  cases hrule : rule p with
  | ok a q =>
      rw [hrule] at h
      obtain ⟨hleads, hleast, next, hsame, hmid⟩ := h
      rw [EStateM.bind, hrule] at hbind
      exact (hf a next q hmid).further hbind hleads hleast hsame
  | error stop q =>
      rw [hrule] at h
      rw [EStateM.bind, hrule] at hbind
      unfold Reads
      rw [hbind]
      cases stop with
      | stuck => exact h
      | failed e => exact h

/-- What is said of the least number of tokens can be forgotten. -/
theorem Reads.forget (h : Reads file least rule state p mid) : Reads file 0 rule state p mid := by
  unfold Reads at *
  split at h
  · obtain ⟨hleads, -, hnext⟩ := h
    exact ⟨hleads, hleads.asked.length_le, hnext⟩
  · exact h
  · exact h

/-- Tokens that are taken are asked for, and make what is ahead smaller. -/
theorem Reads.taking (h : Reads file least rule state p mid) :
    Reads file least rule state p (fun a next q => p.requests.length + least ≤ q.requests.length ∧
      q.size + least ≤ p.size ∧ mid a next q) := by
  unfold Reads at *
  split at h
  · obtain ⟨hleads, hleast, next, hsame, hmid⟩ := h
    have hsize := hleads.size
    exact ⟨hleads, hleast, next, hsame, hleast, by omega, hmid⟩
  · exact h
  · exact h

/-- A rule that takes nothing leaves the reader where it is. -/
theorem reads_pure {a : α} (h : mid a state p) : Reads file 0 (pure a) state p mid :=
  ⟨.refl p, Nat.le_refl _, state, rfl, h⟩

/-- The reader may go on from another state in which it does the same. -/
theorem reads_pure_of_resume {a : α} (hsame : resume file state p = resume file next p)
    (h : mid a next p) : Reads file 0 (pure a) state p mid :=
  ⟨.refl p, Nat.le_refl _, next, hsame, h⟩

/-- Looking at the token in front takes nothing. -/
theorem reads_peek {f : Lexeme → Rule β} (h : Reads file least (f p.current.lexeme) state p post) :
    Reads file least (peek >>= f) state p post :=
  h

end Reads

/-! ## Tokens -/

/-- Taking a token before the end of the input makes what is ahead smaller. -/
theorem size_lt_of_advance {token : Token} (heof : p.current.lexeme ≠ .eof)
    (h : advance p = .ok token q) : q.size < p.size := by
  unfold advance at h
  cases hrest : p.rest.next with
  | error e =>
      rw [hrest] at h
      cases h
  | ok answer =>
      obtain ⟨following, rest⟩ := answer
      rw [hrest] at h
      cases h
      have hlt : following.lexeme ≠ .eof → rest.rest.length < p.rest.rest.length :=
        Cursor.length_lt_of_next hrest
      unfold Ahead.size
      rw [if_neg heof]
      split
      · exact Nat.succ_pos _
      next hfollowing => exact Nat.succ_lt_succ (hlt hfollowing)

/-- Asking for a token when the reader takes the one in front. -/
theorem reads_advance (hnext : state.next? file p.current = some next) :
    Reads file 1 advance state p
      (fun token after q => token = p.current ∧ after = next ∧ q.pending = p.pending) := by
  have heof := lexeme_ne_eof_of_next? hnext
  have hremaining : p.remaining = p.rest.stream := if_neg heof
  have hadvance : ∀ token q, advance p = .ok token q → q.size < p.size :=
    fun _ _ => size_lt_of_advance heof
  unfold Reads
  unfold advance at hadvance ⊢
  cases hrest : p.rest.next with
  | error e =>
      refine ⟨⟨List.prefix_append _ _, ?_⟩, ?_⟩
      · rw [hremaining, Cursor.stream_of_error hrest]
      · rw [resume_of_some hnext, Supply.read_of_error hrest]
  | ok answer =>
      obtain ⟨token, rest⟩ := answer
      refine ⟨⟨List.prefix_append _ _, ?_, ?_⟩, ?_, next, ?_, rfl, rfl, rfl⟩
      · rw [hremaining, Cursor.stream_of_ok hrest, List.append_assoc]
        rfl
      · rw [hrest] at hadvance
        have hsize := hadvance _ _ rfl
        rw [List.length_append, List.length_singleton]
        omega
      · simp
      · rw [resume_of_some hnext]
        exact read_eq_resume hrest

/-- Looking at the name that waits for a value. -/
theorem reads_get {post : β → State → Ahead → Prop} {f : Ahead → Rule β}
    (h : Reads file least (f p) state p post) : Reads file least (get >>= f) state p post :=
  h

/-- Letting another name wait for a value, or none. -/
theorem reads_modify (waiting : Option String) :
    Reads file 0 (modify ({ · with pending := waiting })) state p
      (fun _ after q => after = state ∧ q = { p with pending := waiting }) :=
  ⟨⟨List.prefix_rfl, rfl, Nat.le_refl _⟩, Nat.le_refl _, state, rfl, rfl, rfl⟩

/-- Refusing the token in front when the reader does. -/
theorem reads_refuse {post : β → State → Ahead → Prop} {expected : Expectation}
    (h : resume file state p = .error (.refused ⟨expected, p.current⟩)) :
    Reads file least (refuse expected) state p post :=
  ⟨(Ahead.Leads.refl p).ends, h⟩

/-- Taking a word that is known to stand in front. -/
theorem reads_expect_of_eq {lexeme : Lexeme} {expected : Expectation}
    (hlexeme : p.current.lexeme = lexeme) (hnext : state.next? file p.current = some next) :
    Reads file 1 (expect lexeme expected) state p
      (fun token after q => token = p.current ∧ after = next ∧ q.pending = p.pending) := by
  refine reads_peek ?_
  rw [if_pos hlexeme]
  exact reads_advance hnext

/-- Refusing another token than the one that should stand in front. -/
theorem reads_expect_of_ne {mid : Token → State → Ahead → Prop} {lexeme : Lexeme}
    {expected : Expectation} (hlexeme : p.current.lexeme ≠ lexeme)
    (h : resume file state p = .error (.refused ⟨expected, p.current⟩)) :
    Reads file least (expect lexeme expected) state p mid := by
  refine reads_peek ?_
  rw [if_neg hlexeme]
  exact reads_refuse h

/-! ## Repetition and recursion -/

/-- What an iteration of a loop does: it goes on after having taken a token, or it leaves. -/
def Iterates (inv : α → State → Ahead → Prop) (post : β → State → Ahead → Prop) (p : Ahead) :
    α ⊕ β → State → Ahead → Prop
  | .inl next, state, q => p.requests.length < q.requests.length ∧ inv next state q
  | .inr result, state, q => post result state q

section Loop

variable {inv : α → State → Ahead → Prop} {post : β → State → Ahead → Prop}
  {iteration : α → Rule (α ⊕ β)}

/-- A loop reads what its iterations read one after the other. -/
theorem reads_loop (inv : α → State → Ahead → Prop) {carried : α}
    (hiteration : ∀ carried state q, q.size ≤ p.size → inv carried state q →
      Reads file 0 (iteration carried) state q (Iterates inv post q))
    (h : inv carried state p) : Reads file 0 (loop iteration carried) state p post := by
  -- By induction on what is ahead, which the guard of the loop compares as well.
  induction hn : p.size using Nat.strong_induction_on generalizing carried state p with
  | _ n ih =>
      have hfirst := hiteration carried state p (Nat.le_refl _) h
      unfold Reads at hfirst
      cases hrun : iteration carried p with
      | error stop q =>
          rw [hrun] at hfirst
          have hloop : loop iteration carried p = .error stop q := by rw [loop, hrun]
          unfold Reads
          rw [hloop]
          cases stop with
          | stuck => exact hfirst
          | failed e => exact hfirst
      | ok answer q =>
          rw [hrun] at hfirst
          obtain ⟨hleads, hleast, next, hsame, hpost⟩ := hfirst
          cases answer with
          | inr result =>
              have hloop : loop iteration carried p = .ok result q := by rw [loop, hrun]
              exact (reads_pure hpost).further hloop hleads hleast hsame
          | inl following =>
              have hsize : q.size < p.size := by
                have := hleads.size
                have := hpost.1
                omega
              have hloop : loop iteration carried p = loop iteration following q := by
                rw [loop, hrun]
                exact if_pos hsize
              have hrest := ih q.size (hn ▸ hsize)
                (fun carried state r hr => hiteration carried state r (by omega)) hpost.2 rfl
              exact hrest.further hloop hleads hleast hsame

/-- An iteration that takes a token may go on. -/
theorem Reads.iterates {rule : Rule (α ⊕ β)}
    (h : Reads file 1 rule state p
      (fun answer next q => ∃ carried, answer = .inl carried ∧ inv carried next q)) :
    Reads file 0 rule state p (Iterates inv post p) := by
  refine h.taking.forget.imp ?_
  rintro _ next q ⟨hlength, -, carried, rfl, hinv⟩
  exact ⟨hlength, hinv⟩

/-- An iteration that takes a token goes on. -/
theorem Reads.goOn {rule : Rule γ} {f : γ → α} {mid : γ → State → Ahead → Prop}
    (h : Reads file 1 rule state p mid) (hinv : ∀ c next q, mid c next q → inv (f c) next q) :
    Reads file 0 (rule >>= fun c => pure (.inl (f c))) state p (Iterates inv post p) := by
  refine .iterates (h.bind ?_)
  intro c next q hmid
  exact reads_pure ⟨f c, rfl, hinv c next q hmid⟩

/-- An iteration may start with another rule. -/
theorem Reads.bind_iterates {rule : Rule γ} {f : γ → Rule (α ⊕ β)}
    {mid : γ → State → Ahead → Prop} (h : Reads file least rule state p mid)
    (hf : ∀ c next q, mid c next q → Reads file 0 (f c) next q (Iterates inv post q)) :
    Reads file 0 (rule >>= f) state p (Iterates inv post p) := by
  refine h.taking.forget.bind ?_
  rintro c next q ⟨hlength, -, hmid⟩
  refine (hf c next q hmid).imp ?_
  intro answer last r hr
  cases answer with
  | inl carried => exact ⟨by have := hr.1; omega, hr.2⟩
  | inr result => exact hr

end Loop

/-- What holds of a rule that uses itself further ahead, as long as it holds further ahead. -/
theorem within_induction {rule : Rule α → Rule α} {P : Rule α → Ahead → Prop}
    (hlocal : ∀ first second q, first q = second q → P first q → P second q)
    (hrule : ∀ inner p, (∀ q, q.size < p.size → P inner q) → P (rule inner) p) (p : Ahead) :
    P (within rule) p := by
  induction hn : p.size using Nat.strong_induction_on generalizing p with
  | _ n ih =>
      subst hn
      have hwithin : rule (fun q => if q.size < p.size then within rule q else .error .stuck q) p =
          within rule p := by rw [within]
      refine hlocal _ _ p hwithin (hrule _ p ?_)
      intro q hq
      have hguard : within rule q =
          (fun q => if q.size < p.size then within rule q else .error .stuck q) q :=
        (if_pos hq).symm
      exact hlocal _ _ q hguard (ih q.size hq q rfl)

end Descent

end Reader

end LolMarkup
