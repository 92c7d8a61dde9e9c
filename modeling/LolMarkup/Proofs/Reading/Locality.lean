import LolMarkup.Proofs.Reading.Changes
import LolMarkup.Proofs.Reading.Context

/-!
# Nodes have tokens of their own

Every node of a document and of its paragrafs is read from tokens that stand together, and these
tokens lead to the same node, up to the names of assignments, where they are read alone
(`Source.held_of_document`). While tokens are read, this holds of the nodes that are complete, and
for each construct that is open between two nodes the latest tokens lead to it (`Local`).
-/

namespace LolMarkup

/-- The part of a node has its span. -/
theorem Node.span_part (node : Node) : node.part.span = node.span := by
  cases node with
  | inline piece => cases piece <;> rfl
  | _ => rfl

/-- The first lexeme of a part that stands in the text in the given way. -/
def Part.Frame.Starts : Part.Frame → Lexeme → Prop
  | .text, lexeme => ∃ content, lexeme.said? false = some content
  | .words first _, lexeme => lexeme = .hashWord first

namespace Reader

/-! ## The construct over a fresh document -/

/-- The constructs over a fresh document, of which the outermost starts with the given token. -/
inductive Stack.Began (first : Token) : Stack → Prop where
  | outermost (word gathered children opened) : first.lexeme = .hashWord word →
      Began first (.level word first.start gathered children (.level .hai opened [] [] (.root [])))
  | within (word opened gathered children outer) : Began first outer →
      Began first (.level word opened gathered children outer)

namespace Stack.Began

variable {first token : Token} {stack next : Stack} {file : String} {due : Bool}

/-- Adding a part leaves the outermost construct as it began. -/
theorem add (h : stack.Began first) (part : Part) : (stack.add part).Began first := by
  cases h with
  | outermost word gathered children opened hfirst => exact .outermost _ _ _ _ hfirst
  | within word opened gathered children outer houter => exact .within _ _ _ _ _ houter

/-- A move keeps the outermost construct open or ends it. -/
theorem move (h : stack.Began first) (hmove : Stack.Move file due token stack next) :
    next.Began first ∨ ∃ opened part, next = .level .hai opened [] [part] (.root []) ∧
      part.frame.Starts first.lexeme ∧ part.span = ⟨file, first.start, token.stop⟩ := by
  cases hmove with
  | pass _ _ _ => exact .inl h
  | text _ content _ => exact .inl (h.add _)
  | gather word opened gathered outer content _ _ =>
      cases h with
      | outermost _ _ _ _ hfirst => exact .inl (.outermost _ _ _ _ hfirst)
      | within _ _ _ _ _ houter => exact .inl (.within _ _ _ _ _ houter)
  | opens _ word _ => exact .inl (.within _ _ _ _ _ h)
  | closes word opened gathered children outer own _ _ _ =>
      cases h with
      | outermost _ _ _ document hfirst => exact .inr ⟨document, _, rfl, hfirst, rfl⟩
      | within _ _ _ _ _ houter => exact .inl (houter.add _)

end Stack.Began

/-- A state whose only construct is a document with one part. -/
theorem Inside.eq_of_stack {state : Inside} {document : Position} {part : Part}
    (h : state.stack = .level .hai document [] [part] (.root [])) :
    ∃ pending opened node declared,
      state = ⟨pending, ⟨opened, #[node]⟩, [], .content declared⟩ ∧ node.part = part := by
  obtain ⟨pending, ⟨opened, children⟩, outer, focus⟩ := state
  cases focus with
  | content declared =>
      cases outer with
      | nil =>
          obtain ⟨children⟩ := children
          simp only [stack, Focus.stack, Block.stack, Node.partAll_eq_map, Stack.level.injEq,
            List.map_eq_singleton_iff] at h
          obtain ⟨-, -, -, ⟨node, rfl, hpart⟩, -⟩ := h
          exact ⟨_, _, _, _, rfl, hpart⟩
      | cons around outer => simp [stack, Focus.stack, Block.stack] at h
  | run part =>
      obtain ⟨host, pieces⟩ := part
      cases host <;> simp [stack, Focus.stack, OpenRun.stack] at h
  | _ => simp [stack, Focus.stack, OpenHead.stack, OpenList.stack] at h

/-- The document itself is no construct that has begun in it. -/
theorem Stack.not_began_root {first : Token} (word : HashWord) (opened : Position)
    (gathered : List String) (children parts : List Part) :
    ¬ (Stack.level word opened gathered children (.root parts)).Began first := by
  intro h
  cases h with
  | within _ _ _ _ _ hroot => cases hroot

/-- A state over a fresh document in which something has begun is busy. -/
theorem Inside.busy_of_began {state : Inside} {first : Token} (h : state.stack.Began first) :
    state.Busy := by
  intro houter declared hfocus
  rw [stack, hfocus, houter, Focus.stack, Block.stack] at h
  exact Stack.not_began_root _ _ _ _ _ h

/-! ## Tokens that are read alone -/

/-- The state after tokens, or nothing if one of them is refused. -/
def State.follow? (file : String) (state : State) (tokens : List Token) : Option State :=
  tokens.foldlM (State.next? file) state

/-- One more token is followed after the others. -/
theorem State.follow?_concat {file : String} {state next last : State} {tokens : List Token}
    {token : Token} (h : state.follow? file tokens = some next)
    (hlast : next.next? file token = some last) :
    state.follow? file (tokens ++ [token]) = some last := by
  rw [follow?] at h
  simp [follow?, List.foldlM_append, h, hlast]

/-- Following one token is taking it. -/
theorem State.follow?_singleton (file : String) (state : State) (token : Token) :
    state.follow? file [token] = state.next? file token := by
  simp [follow?]

/-- Tokens that lead in a fresh document to a node, up to the names of assignments. The node has the
span of the tokens. -/
structure Excerpt (file : String) (tokens : List Token) (node : Node) : Prop where
  reads : ∃ pending opened alone declared,
    (State.inside .fresh).follow? file tokens =
      some (.inside ⟨pending, ⟨opened, #[alone]⟩, [], .content declared⟩) ∧
    alone.unnamed = node.unnamed
  bounds : ∃ first last, tokens.head? = some first ∧ tokens.getLast? = some last ∧
    node.span = ⟨file, first.start, last.stop⟩ ∧ node.part.frame.Starts first.lexeme

/-- The latest tokens lead in a fresh document to what a state holds over some of its blocks, up to
the names of assignments. -/
def Traced (file : String) (before : List Token) (state : Inside) (around : Block)
    (rest : List Block) : Prop :=
  ∃ early first tokens inner, before = early ++ first :: tokens ∧
    (State.inside .fresh).follow? file (first :: tokens) = some (.inside inner) ∧
    inner.stack.Began first ∧ (inner.onto around rest).unnamed = state.unnamed

/-- The node is an excerpt of the tokens. -/
def Held (file : String) (before : List Token) (node : Node) : Prop :=
  ∃ early tokens late, before = early ++ tokens ++ late ∧ Excerpt file tokens node

/-- The complete nodes of a state are excerpts of the tokens before it, and each construct that is
open between two nodes is traced by the latest of them. -/
structure Local (file : String) (before : List Token) (state : Inside) : Prop where
  opened : ∀ around rest, around :: rest <:+ state.block :: state.outer →
    (around :: rest = state.block :: state.outer → ¬ state.Idle) →
    Traced file before state around rest
  closed : ∀ block ∈ state.block :: state.outer,
    ∀ node ∈ Node.preorderAll block.children.toList, Held file before node

section Step

variable {file : String} {before : List Token} {token : Token} {state next : Inside}
  {around : Block} {rest : List Block} {node : Node}

/-- What is an excerpt of tokens is one of more tokens. -/
theorem Held.concat (h : Held file before node) (token : Token) :
    Held file (before ++ [token]) node := by
  obtain ⟨early, tokens, late, rfl, hexcerpt⟩ := h
  exact ⟨early, tokens, late ++ [token], List.append_assoc _ _ _, hexcerpt⟩

/-- The names of assignments do not matter to an excerpt. -/
theorem Held.congr {other : Node} (h : Held file before node)
    (hsame : node.unnamed = other.unnamed) : Held file before other := by
  have hpart : node.part = other.part := by rw [← node.part_unnamed, hsame, other.part_unnamed]
  obtain ⟨early, tokens, late, rfl, ⟨pending, opened, alone, declared, hfollow, halone⟩,
    first, last, hhead, hlast, hspan, hstarts⟩ := h
  refine ⟨early, tokens, late, rfl, ⟨pending, opened, alone, declared, hfollow,
    halone.trans hsame⟩, first, last, hhead, hlast, ?_, hpart ▸ hstarts⟩
  rw [← other.span_part, ← hpart, node.span_part, hspan]

/-- The state over a construct takes the same step where the construct is read alone. -/
theorem Inside.exists_next? {inner : Inside} (hbusy : inner.Busy)
    (hsame : (inner.onto around rest).unnamed = state.unnamed) {next : State}
    (hnext : state.next? file token = some next) :
    ∃ found, inner.next? file token = some found ∧
      (found.onto around rest).unnamed = next.unnamed := by
  have hmap : ((inner.next? file token).map (State.onto around rest)).map State.unnamed =
      some next.unnamed := by
    rw [← inner.next?_onto around rest hbusy, Inside.unnamed_next?, hsame, ← Inside.unnamed_next?,
      hnext, Option.map_some]
  rw [Option.map_map] at hmap
  exact Option.map_eq_some_iff.mp hmap

/-- A token goes on with a construct that is traced or ends it. -/
theorem Traced.step (h : Traced file before state around rest)
    (hnext : state.next? file token = some (.inside next)) :
    Traced file (before ++ [token]) next around rest ∨
      ∃ node, Held file (before ++ [token]) node ∧
        next.block.unnamed = (around.push node).unnamed ∧ next.outer.length = rest.length := by
  obtain ⟨early, first, tokens, inner, rfl, hfollow, hbegan, hsame⟩ := h
  obtain ⟨found, hfound, hfoundSame⟩ :=
    Inside.exists_next? (Inside.busy_of_began hbegan) hsame hnext
  have hfollowNext := State.follow?_concat hfollow hfound
  have htokens : early ++ first :: tokens ++ [token] = early ++ first :: (tokens ++ [token]) := by
    simp
  cases found with
  | before => cases hfoundSame
  | after document => cases hfoundSame
  | inside found =>
      have hfoundSame : (found.onto around rest).unnamed = next.unnamed := by
        injection hfoundSame
      rcases hbegan.move (Inside.move_of_next? hfound) with
        hlater | ⟨_, part, hstack, hstarts, hspan⟩
      · exact .inl ⟨early, first, tokens ++ [token], found, htokens, hfollowNext, hlater,
          hfoundSame⟩
      · obtain ⟨pending, opened, node, declared, rfl, rfl⟩ := Inside.eq_of_stack hstack
        have hjoin : around.join ⟨opened, #[node]⟩ = around.push node := rfl
        refine .inr ⟨node, ⟨early, first :: tokens ++ [token], [], by simp, ?_⟩, ?_, ?_⟩
        · refine ⟨⟨_, _, _, _, hfollowNext, rfl⟩, first, token, rfl, List.getLast?_concat, ?_,
            hstarts⟩
          rw [← node.span_part, hspan]
        · rw [← hjoin]
          exact (congrArg Inside.block hfoundSame).symm
        · simpa using (congrArg (fun state => state.outer.length) hfoundSame).symm

/-- A construct that is traced is open. -/
theorem Traced.not_idle (h : Traced file before state around rest)
    (hlength : state.outer.length = rest.length) : ¬ state.Idle := by
  rintro ⟨declared, hfocus⟩
  obtain ⟨early, first, tokens, inner, -, -, hbegan, hsame⟩ := h
  have hinner : inner.focus = .content declared := by
    simpa [hfocus] using congrArg Inside.focus hsame
  have houter : inner.outer = [] := by
    simpa [hlength] using congrArg (fun state => state.outer.length) hsame
  exact Inside.busy_of_began hbegan houter declared hinner

/-- A construct stays traced while the blocks under it stay. -/
theorem Traced.goes (h : Traced file before state around rest)
    (hnext : state.next? file token = some (.inside next))
    (hsuffix : around :: rest <:+ next.block :: next.outer) :
    Traced file (before ++ [token]) next around rest := by
  rcases h.step hnext with htraced | ⟨node, -, hblock, hlength⟩
  · exact htraced
  · obtain ⟨rfl, -⟩ := List.cons.inj (hsuffix.eq_of_length (by simp [hlength]))
    simpa [Block.unnamed, Block.push] using congrArg (fun block => block.children.size) hblock

/-- The node that ends a construct is read from its tokens. -/
theorem Traced.ends (h : Traced file before state around rest)
    (hnext : state.next? file token = some (.inside next)) (hblock : next.block = around.push node)
    (houter : next.outer = rest) (hidle : next.Idle) : Held file (before ++ [token]) node := by
  rcases h.step hnext with htraced | ⟨other, hheld, hsame, -⟩
  · exact absurd hidle (htraced.not_idle (congrArg List.length houter))
  · refine hheld.congr ?_
    have hpush : (around.push node).unnamed.children = (around.push other).unnamed.children := by
      rw [← hblock, hsame]
    simp only [Block.unnamed, Block.push, Array.map_push] at hpush
    exact (Array.push_eq_push.mp hpush).1.symm

namespace Local

/-- A text between two nodes is an excerpt. -/
theorem held_text {content : String} (hsaid : token.lexeme.said? false = some content)
    (hfresh : Inside.fresh.next? file token =
      some (.inside (Inside.fresh.add (.inline (textPiece file token content))))) :
    Held file (before ++ [token]) (.inline (textPiece file token content)) := by
  refine ⟨before, [token], [], by simp, ⟨none, .origin, _, false, ?_, rfl⟩, token, token, rfl, rfl,
    rfl, content, hsaid⟩
  rw [State.follow?_singleton]
  exact hfresh

/-- The word that starts a node leads in a fresh document to what it leads to elsewhere. -/
theorem traced_of_opens {focus : Focus} {word : HashWord} (hword : token.lexeme = .hashWord word)
    (hfresh : Inside.fresh.next? file token = some (.inside (Inside.fresh.focusing focus)))
    (hstack : (Inside.fresh.focusing focus).stack =
      .level word token.start [] [] Inside.fresh.stack) :
    Traced file (before ++ [token]) (state.focusing focus) state.block state.outer := by
  refine ⟨before, token, [], _, rfl, (State.follow?_singleton _ _ _).trans hfresh, ?_, ?_⟩
  · rw [hstack]
    exact .outermost _ _ _ _ hword
  · simp [Inside.onto, Inside.fresh, Inside.focusing, Block.join, Inside.unnamed]

/-- A paragraf that is open is traced. -/
theorem traced_of_outer (h : Local file before state) (hsuffix : around :: rest <:+ state.outer) :
    Traced file before state around rest := by
  refine h.opened _ _ (hsuffix.trans (List.suffix_cons _ _)) fun heq => ?_
  have hlength := hsuffix.length_le
  rw [heq, List.length_cons] at hlength
  exact absurd hlength (Nat.not_succ_le_self _)

/-- A construct that is open after a token was open before it, or the token starts it. -/
theorem opened_step (h : Local file before state)
    (hnext : state.next? file token = some (.inside next)) (around : Block) (rest : List Block)
    (hsuffix : around :: rest <:+ next.block :: next.outer)
    (hopen : around :: rest = next.block :: next.outer → ¬ next.Idle) :
    Traced file (before ++ [token]) next around rest := by
  have hgoes (hbefore : around :: rest <:+ state.block :: state.outer)
      (hbusy : around :: rest = state.block :: state.outer → ¬ state.Idle) :
      Traced file (before ++ [token]) next around rest :=
    (h.opened around rest hbefore hbusy).goes hnext hsuffix
  have hproper (hinner : around :: rest <:+ state.outer) :
      Traced file (before ++ [token]) next around rest :=
    (h.traced_of_outer hinner).goes hnext hsuffix
  -- Where the state after the token is idle, the construct does not stand on all its blocks.
  have hidle (hnextIdle : next.Idle) : around :: rest <:+ next.outer :=
    (List.suffix_cons_iff.mp hsuffix).resolve_left fun heq => hopen heq hnextIdle
  cases Inside.change_of_next? hnext with
  | goes _ hblock houter hkeeps =>
      rw [hblock, houter] at hsuffix hopen
      exact hgoes hsuffix fun heq hstate => hopen heq (hkeeps hstate)
  | opens focus word _ hword hfresh hstack =>
      by_cases heq : around :: rest = state.block :: state.outer
      · obtain ⟨rfl, rfl⟩ := List.cons.inj heq
        exact traced_of_opens hword hfresh hstack
      · exact hgoes hsuffix fun h => absurd h heq
  | text content _ _ _ => exact hproper (hidle ⟨false, rfl⟩)
  | completes _ node _ _ _ houter hnextIdle => exact hproper (houter ▸ hidle hnextIdle)
  | enters opened hbusy => exact hgoes (hidle ⟨false, rfl⟩) fun _ => hbusy
  | leaves base outer _ houter =>
      refine hproper ?_
      rw [houter]
      exact (hidle ⟨false, rfl⟩).trans (List.suffix_cons _ _)

/-- In a block with one more node there are the nodes of both. -/
theorem mem_preorderAll_push {block : Block} {added : Node} :
    node ∈ Node.preorderAll (block.push added).children.toList ↔
      node ∈ Node.preorderAll block.children.toList ∨ node ∈ added.preorder := by
  simp [Block.push, Node.preorderAll_append, Node.preorderAll]

/-- The nodes that are complete after a token were so before it, or the token ends one. -/
theorem closed_step (h : Local file before state)
    (hnext : state.next? file token = some (.inside next)) :
    ∀ block ∈ next.block :: next.outer, ∀ node ∈ Node.preorderAll block.children.toList,
      Held file (before ++ [token]) node := by
  have hold (block : Block) (hblock : block ∈ state.block :: state.outer) (node : Node)
      (hnode : node ∈ Node.preorderAll block.children.toList) :
      Held file (before ++ [token]) node :=
    (h.closed block hblock node hnode).concat token
  have hpush (block : Block) (hblock : block ∈ state.block :: state.outer) (added : Node)
      (hadded : ∀ node ∈ added.preorder, Held file (before ++ [token]) node) (node : Node)
      (hnode : node ∈ Node.preorderAll (block.push added).children.toList) :
      Held file (before ++ [token]) node :=
    (mem_preorderAll_push.mp hnode).elim (hold block hblock node) (hadded node)
  have houter : ∀ block ∈ state.outer, ∀ node ∈ Node.preorderAll block.children.toList,
      Held file (before ++ [token]) node :=
    fun block hblock => hold block (List.mem_cons_of_mem _ hblock)
  cases Inside.change_of_next? hnext with
  | goes _ hblock hsame _ =>
      rw [hblock, hsame]
      exact hold
  | opens focus word _ _ _ _ => exact hold
  | text content _ hsaid hfresh =>
      refine List.forall_mem_cons.mpr ⟨hpush _ List.mem_cons_self _ ?_, houter⟩
      exact List.forall_mem_singleton.mpr (held_text hsaid hfresh)
  | completes _ added hbusy hadded hblock hsame hidle =>
      rw [hblock, hsame]
      refine List.forall_mem_cons.mpr ⟨hpush _ List.mem_cons_self _ ?_, houter⟩
      rw [hadded, List.forall_mem_singleton]
      exact (h.opened _ _ List.suffix_rfl fun _ => hbusy).ends hnext hblock hsame hidle
  | enters opened _ =>
      refine List.forall_mem_cons.mpr ⟨?_, hold⟩
      simp [Node.preorderAll]
  | leaves base outer _ hsame =>
      have htraced : Traced file before state base outer :=
        h.traced_of_outer (hsame ▸ List.suffix_rfl)
      rw [hsame] at houter hpush
      refine List.forall_mem_cons.mpr
        ⟨hpush base (by simp) _ ?_, (List.forall_mem_cons.mp houter).2⟩
      rw [Node.preorder, List.forall_mem_cons]
      exact ⟨htraced.ends hnext rfl rfl ⟨false, rfl⟩, hold _ List.mem_cons_self⟩

/-- A token keeps what is known of the nodes. -/
theorem step (h : Local file before state)
    (hnext : state.next? file token = some (.inside next)) :
    Local file (before ++ [token]) next :=
  ⟨h.opened_step hnext, h.closed_step hnext⟩

/-- At the start of a document there are no nodes yet. -/
theorem start (opened : Position) :
    Local file before ⟨none, ⟨opened, #[]⟩, [], .content false⟩ where
  opened := fun around rest hsuffix hopen => by
    rcases List.suffix_cons_iff.mp hsuffix with heq | hnil
    · exact absurd ⟨false, rfl⟩ (hopen heq)
    · cases List.suffix_nil.mp hnil
  closed := by simp [Node.preorderAll]

end Local

end Step

/-- What is known of the nodes in any state. -/
def State.Local (file : String) (before : List Token) : State → Prop
  | .before => True
  | inside state => Reader.Local file before state
  | after document => ∀ node ∈ Node.preorderAll document.children, Held file before node

/-- Every token that is taken keeps a state local. -/
theorem State.Local.step {file : String} {before : List Token} {token : Token} {state next : State}
    (h : state.Local file before) (hnext : state.next? file token = some next) :
    next.Local file (before ++ [token]) := by
  cases state with
  | before =>
      rw [State.next?] at hnext
      split at hnext <;> cases hnext
      exact Local.start _
  | after document =>
      rw [State.next?] at hnext
      split at hnext <;> cases hnext
      exact fun node hnode => (h node hnode).concat token
  | inside state =>
      cases next with
      | before => cases Inside.change_of_next? hnext
      | inside next => exact Reader.Local.step h hnext
      | after document =>
          cases Inside.change_of_next? hnext with
          | ends span _ =>
              exact fun node hnode => (h.closed _ List.mem_cons_self node hnode).concat token

end Reader

open Reader

/-- Every node of a document and of its paragrafs is an excerpt of the tokens of the source. -/
theorem Source.held_of_document {source : Source} {document : Document}
    (h : source.document = .ok document) :
    ∀ node ∈ Node.preorderAll document.children, Held source.path source.scan.tokens node :=
  source.kept_of_document (fun before state => state.Local source.path before) trivial
    (fun _ _ _ _ _ _ hstate hnext => hstate.step hnext) h

end LolMarkup
