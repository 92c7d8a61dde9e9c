import LolMarkup.Proofs.Grammar.Basic
import LolMarkup.Proofs.Reading.Control

/-!
# What the reader accepts is in the grammar

`Control.due` is what the grammar asks for at a state of the reader. A lexeme that the reader takes
followed by what is due after it is a beginning of what was due before (`Control.due_next`), so that
by induction the lexemes that lead to the end are among those that were due (`mem_due_of_run`).
-/

namespace LolMarkup

open Reader

namespace Grammar

open scoped Computability

/-! ## Repetitions take up what they repeat -/

section Absorption

variable {front unit rest : Language Lexeme}

/-- A language is contained in another one if its words are. -/
theorem le_of_mem (h : ∀ w, w ∈ front → w ∈ unit) : front ≤ unit :=
  h

/-- Any number of units may be none. -/
theorem le_kstar_mul (unit rest : Language Lexeme) : rest ≤ unit∗ * rest :=
  le_mul_of_one_le_left' one_le_kstar

/-- One unit more in front of any number of them is still any number. -/
theorem mul_kstar_mul_le (h : front ≤ unit) : front * (unit∗ * rest) ≤ unit∗ * rest := by
  calc front * (unit∗ * rest) ≤ unit * (unit∗ * rest) := by gcongr
    _ = unit * unit∗ * rest := (mul_assoc ..).symm
    _ ≤ unit∗ * rest := by gcongr; exact mul_kstar_le_kstar

/-- One newline more in front of any number of them is still any number. -/
theorem newline_mul_newlines_mul_le : newline * (newlines * rest) ≤ newlines * rest :=
  mul_kstar_mul_le le_rfl

/-- Spaced units may be none. -/
theorem le_spaced_mul (unit rest : Language Lexeme) : rest ≤ spaced unit * rest := by
  calc rest ≤ newlines * rest := le_kstar_mul _ _
    _ ≤ (newlines * unit)∗ * (newlines * rest) := le_kstar_mul _ _
    _ = spaced unit * rest := (mul_assoc ..).symm

/-- One unit more in front of spaced ones is still spaced. -/
theorem mul_spaced_mul_le (h : front ≤ unit) :
    front * (spaced unit * rest) ≤ spaced unit * rest := by
  have hunit : front ≤ newlines * unit := h.trans (le_kstar_mul _ _)
  calc front * (spaced unit * rest) = front * ((newlines * unit)∗ * (newlines * rest)) := by
        rw [spaced, mul_assoc]
    _ ≤ (newlines * unit)∗ * (newlines * rest) := mul_kstar_mul_le hunit
    _ = spaced unit * rest := (mul_assoc ..).symm

/-- One newline more in front of spaced units is still spaced. -/
theorem newline_mul_spaced_le : newline * spaced unit ≤ spaced unit := by
  -- The newline goes to the first unit, or to the newlines at the end if there is no unit.
  have hunfold : spaced unit = newlines + newlines * (unit * spaced unit) := by
    calc spaced unit = (1 + newlines * unit * (newlines * unit)∗) * newlines := by
          rw [Language.one_add_self_mul_kstar_eq_kstar, spaced]
      _ = newlines + newlines * (unit * spaced unit) := by
          simp only [spaced, add_mul, one_mul, mul_assoc]
  have hnewlines : newline * newlines ≤ newlines := mul_kstar_le_kstar
  calc newline * spaced unit = newline * (newlines + newlines * (unit * spaced unit)) := by
        rw [← hunfold]
    _ = newline * newlines + newline * newlines * (unit * spaced unit) := by
        rw [mul_add, mul_assoc]
    _ ≤ newlines + newlines * (unit * spaced unit) := by gcongr
    _ = spaced unit := hunfold.symm

/-- One newline more in front of spaced units is still spaced, whatever follows them. -/
theorem newline_mul_spaced_mul_le : newline * (spaced unit * rest) ≤ spaced unit * rest := by
  calc newline * (spaced unit * rest) = newline * spaced unit * rest := (mul_assoc ..).symm
    _ ≤ spaced unit * rest := by gcongr; exact newline_mul_spaced_le

end Absorption

/-- A text is plain. -/
theorem lexeme_text_le_plain (content : String) : lexeme (.text content) ≤ plain := by
  rintro w rfl
  exact Or.inl ⟨content, rfl⟩

/-- An identifier is a name. -/
theorem lexeme_name_le_name (identifier : String) : lexeme (.name identifier) ≤ name := by
  rintro w rfl
  exact ⟨identifier, rfl⟩

/-- An identifier is plain. -/
theorem lexeme_name_le_plain (identifier : String) : lexeme (.name identifier) ≤ plain :=
  (lexeme_name_le_name identifier).trans le_add_self

/-- A keyword is one of the keywords. -/
theorem lexeme_keyword_le_keyword (word : Keyword) : lexeme (.keyword word) ≤ keyword := by
  rintro w rfl
  exact ⟨word, rfl⟩

/-! ## Bodies -/

/-- One item more in front of the rest of a body is still the rest of a body. -/
theorem bodyItem_mul_bodyTail_le {unit : Language Lexeme} (h : unit ≤ bodyItem) :
    unit * bodyTail ≤ bodyTail := by
  rintro _ ⟨w, hw, _, ⟨rest, hrest, tail, htail, rfl⟩, rfl⟩
  have hitem : w ∈ newlines * bodyItem := le_kstar_mul _ _ (h hw)
  show w ++ (rest ++ tail) ∈ bodyTail
  rw [← List.append_assoc]
  exact Language.append_mem_mul (Body.item w rest hitem hrest) htail

/-- One newline more in front of the rest of a body is still the rest of a body. -/
theorem newline_mul_bodyTail_le : newline * bodyTail ≤ bodyTail := by
  rintro _ ⟨_, rfl, _, ⟨front, hfront, tail, htail, rfl⟩, rfl⟩
  have hnewline : [Lexeme.newline] ∈ newline := rfl
  -- The newline goes to the first item, or to the newlines before the last word.
  cases hfront with
  | nil =>
      have hmore := newline_mul_newlines_mul_le (Language.append_mem_mul hnewline htail)
      show [] ++ ([.newline] ++ tail) ∈ bodyTail
      exact Language.append_mem_mul Body.nil hmore
  | item w rest hw hrest =>
      have hmore := newline_mul_newlines_mul_le (Language.append_mem_mul hnewline hw)
      show ([.newline] ++ w) ++ rest ++ tail ∈ bodyTail
      exact Language.append_mem_mul (Body.item _ rest hmore hrest) htail
  | declaration w rest hw hnext hrest =>
      have hmore := newline_mul_newlines_mul_le (Language.append_mem_mul hnewline hw)
      show ([.newline] ++ w) ++ rest ++ tail ∈ bodyTail
      exact Language.append_mem_mul (Body.declaration _ rest hmore hnext hrest) htail

/-- What follows a declaration that has no assignment. -/
def unassigned : Language Lexeme :=
  bodyTail ⊓ {w | nextWord? w ≠ some (.hashWord .itIz)}

/-- A declaration and what follows one that has no assignment are the rest of a body. -/
theorem declaration_mul_unassigned_le : declaration * unassigned ≤ bodyTail := by
  rintro _ ⟨w, hw, _, ⟨⟨rest, hrest, tail, htail, rfl⟩, hnext⟩, rfl⟩
  have hunit : w ∈ newlines * declaration := le_kstar_mul _ _ hw
  have hrestNext : nextWord? rest ≠ some (.hashWord .itIz) := by
    intro h
    apply hnext
    show nextWord? (rest ++ tail) = _
    rw [nextWord?, List.find?_append, ← nextWord?, h, Option.some_or]
  show w ++ (rest ++ tail) ∈ bodyTail
  rw [← List.append_assoc]
  exact Language.append_mem_mul (Body.declaration w rest hunit hrestNext hrest) htail

/-- Newlines do not turn what follows a declaration into an assignment. -/
theorem newline_mul_unassigned_le : newline * unassigned ≤ unassigned := by
  rintro _ ⟨_, rfl, rest, ⟨hrest, hnext⟩, rfl⟩
  exact ⟨newline_mul_bodyTail_le (Language.append_mem_mul rfl hrest), hnext⟩

/-- The rest of a body follows a declaration without an assignment if it starts with neither a
newline nor `#IT IZ`. -/
theorem lexeme_mul_le_unassigned {a : Lexeme} {rest : Language Lexeme} (hnewline : a ≠ .newline)
    (hitIz : a ≠ .hashWord .itIz) (h : lexeme a * rest ≤ bodyTail) :
    lexeme a * rest ≤ unassigned := by
  refine le_inf h ?_
  rintro _ ⟨_, rfl, w, -, rfl⟩
  simpa [nextWord?, hnewline] using hitIz

end Grammar

namespace Reader

open Grammar
open scoped Computability

/-! ## What is due -/

/-- What is due between two nodes with the given number of open paragrafs. -/
def afterNode : Nat → Language Lexeme
  | 0 => bodyTail
  | depth + 1 => spaced (contentOver sections) * (word .oic * afterNode depth)

/-- What is due after a declaration. At the top level an assignment must follow `#IT IZ`. -/
def afterDeclaration : Nat → Language Lexeme
  | 0 => unassigned + newlines * (assignment * bodyTail)
  | depth + 1 => afterNode (depth + 1)

/-- What is due between two titles of a head. -/
def afterTitle (depth : Nat) : Language Lexeme :=
  spaced title * (word .oic * afterNode depth)

/-- What is due between two items of a list. -/
def afterItem (depth : Nat) : Language Lexeme :=
  spaced item * (word .oic * afterNode depth)

/-- What is due after a text on several lines that is followed by the given language. -/
def inText (rest : Language Lexeme) : Language Lexeme :=
  (plain + newline)∗ * (word .mkay * rest)

/-- What is due after a run. -/
def afterRun (depth : Nat) : Host → Language Lexeme
  | .emphasis => afterNode depth
  | .item => afterItem depth

/-- What is due within a run. -/
def inRun (depth : Nat) (host : Host) : Language Lexeme :=
  piece∗ * (word .mkay * afterRun depth host)

/-- What is due after a reference. -/
def afterReference (depth : Nat) : Option Host → Language Lexeme
  | none => afterNode depth
  | some host => inRun depth host

/-- What is due in the middle of a construct. -/
def Place.due (depth : Nat) : Place → Language Lexeme
  | content false => afterNode depth
  | content true => afterDeclaration depth
  | sectionKind => newlines * (sectionTail sections * afterNode depth)
  | head => afterTitle depth
  | titleKeyword => key .title * inText (afterTitle depth)
  | title => inText (afterTitle depth)
  | list => afterItem depth
  | itemKeyword => key .item * inRun depth .item
  | run host => inRun depth host
  | referenceName host => name * (word .mkay * afterReference depth host)
  | referenceEnd host => word .mkay * afterReference depth host
  | declaration => name * afterDeclaration depth
  | assignment => plain∗ * (word .mkay * afterNode depth)
  | style => Grammar.style * afterNode depth
  | media => inText (afterNode depth)

/-- What is due at a state of the reader. -/
def Control.due : Control → Language Lexeme
  | before => word .hai * bodyTail
  | inside place depth => place.due depth
  | after => newlines

/-! ## Constructs between two nodes -/

/-- The constructs that the document and paragrafs have in common are followed by what is due
between two nodes. -/
theorem mul_afterNode_le {unit : Language Lexeme} (h : unit ≤ sections + reference + styled + plain)
    (depth : Nat) : unit * afterNode depth ≤ afterNode depth := by
  cases depth with
  | zero =>
      refine bodyItem_mul_bodyTail_le (h.trans (le_of_mem fun w hw => ?_))
      simp only [bodyItem, Language.mem_add] at hw ⊢
      tauto
  | succ depth =>
      refine mul_spaced_mul_le (h.trans (le_of_mem fun w hw => ?_))
      simp only [contentOver, Language.mem_add] at hw ⊢
      tauto

/-- Plain text is due between two nodes. -/
theorem plain_mul_afterNode_le {unit : Language Lexeme} (h : unit ≤ plain) (depth : Nat) :
    unit * afterNode depth ≤ afterNode depth :=
  mul_afterNode_le (h.trans le_add_self) depth

/-- The word of sections is due between two nodes, with what is due after it. -/
theorem maek_mul_due_le (depth : Nat) :
    word .maek * Place.sectionKind.due depth ≤ afterNode depth := by
  have hsections : sections ≤ sections + reference + styled + plain :=
    le_of_mem fun w hw => by simp only [Language.mem_add, hw, true_or]
  calc word .maek * Place.sectionKind.due depth
      = sectionOver sections * afterNode depth := by simp only [sectionOver, Place.due, mul_assoc]
    _ = sections * afterNode depth := by rw [← sections_eq]
    _ ≤ afterNode depth := mul_afterNode_le hsections depth

/-- The word of references is due between two nodes, with what is due after it. -/
theorem lemmeSee_mul_due_le (depth : Nat) :
    word .lemmeSee * (Place.referenceName none).due depth ≤ afterNode depth := by
  have hreference : reference ≤ sections + reference + styled + plain :=
    le_of_mem fun w hw => by simp only [Language.mem_add, hw, true_or, or_true]
  calc word .lemmeSee * (Place.referenceName none).due depth
      = reference * afterNode depth := by
        simp only [reference, Place.due, afterReference, mul_assoc]
    _ ≤ afterNode depth := mul_afterNode_le hreference depth

/-- The word of styled nodes is due between two nodes, with what is due after it. -/
theorem gimmeh_mul_due_le (depth : Nat) :
    word .gimmeh * Place.style.due depth ≤ afterNode depth := by
  have hstyled : styled ≤ sections + reference + styled + plain :=
    le_of_mem fun w hw => by simp only [Language.mem_add, hw, true_or, or_true]
  calc word .gimmeh * Place.style.due depth
      = styled * afterNode depth := by simp only [styled, Place.due, mul_assoc]
    _ ≤ afterNode depth := mul_afterNode_le hstyled depth

/-- A declaration is due between two nodes, with what is due after it. -/
theorem declaration_mul_afterDeclaration_le (depth : Nat) :
    declaration * afterDeclaration depth ≤ afterNode depth := by
  cases depth with
  | zero =>
      have hassigned : declaration * (newlines * assignment) ≤ bodyItem := le_of_mem fun w hw => by
        simp only [bodyItem, Language.mem_add, hw, true_or, or_true]
      calc declaration * afterDeclaration 0
          = declaration * unassigned + declaration * (newlines * assignment) * bodyTail := by
            simp only [afterDeclaration, mul_add, mul_assoc]
        _ ≤ bodyTail := add_le declaration_mul_unassigned_le (bodyItem_mul_bodyTail_le hassigned)
  | succ depth =>
      exact mul_spaced_mul_le <| le_of_mem fun w hw => by
        simp only [contentOver, Language.mem_add, hw, true_or]

/-- The word of declarations is due between two nodes, with what is due after it. -/
theorem iHaz_mul_due_le (depth : Nat) :
    word .iHaz * Place.declaration.due depth ≤ afterNode depth := by
  calc word .iHaz * Place.declaration.due depth
      = declaration * afterDeclaration depth := by simp only [declaration, Place.due, mul_assoc]
    _ ≤ afterNode depth := declaration_mul_afterDeclaration_le depth

/-- The word of assignments and what is due after it are an assignment and what is due between two
nodes. -/
theorem itIz_mul_due (depth : Nat) :
    word .itIz * Place.assignment.due depth = assignment * afterNode depth := by
  simp only [assignment, Place.due, mul_assoc]

/-! ## One lexeme between two nodes -/

section Next

variable {depth : Nat} {nested declared : Bool} {a : Lexeme} {next : Place}

/-- In a paragraf. -/
theorem due_next_nested (depth : Nat) (h : (Place.content declared).next? true a = some next) :
    lexeme a * next.due (depth + 1) ≤ afterNode (depth + 1) := by
  have hcontent : (Place.content declared).due (depth + 1) = afterNode (depth + 1) := by
    cases declared <;> rfl
  rcases a with word | word | content | identifier | _ | _
  · cases word <;> cases h
    · exact maek_mul_due_le (depth + 1)
    · exact gimmeh_mul_due_le (depth + 1)
    · exact iHaz_mul_due_le (depth + 1)
    · show word .itIz * Place.assignment.due (depth + 1) ≤ _
      rw [itIz_mul_due]
      exact mul_spaced_mul_le <| le_of_mem fun w hw => by
        simp only [contentOver, Language.mem_add, hw, true_or, or_true]
    · exact lemmeSee_mul_due_le (depth + 1)
  all_goals cases h
  · exact plain_mul_afterNode_le (lexeme_text_le_plain content) (depth + 1)
  · exact plain_mul_afterNode_le (lexeme_name_le_plain identifier) (depth + 1)
  · rw [hcontent]
    exact newline_mul_spaced_mul_le

/-- Stray words are due at the top level. -/
theorem stray_mul_bodyTail_le {word : HashWord}
    (h : word ∈ [HashWord.hai, .tldr, .oic, .mkay, .itIz]) :
    lexeme (.hashWord word) * bodyTail ≤ bodyTail := by
  refine bodyItem_mul_bodyTail_le (le_trans ?_ le_add_self)
  refine le_of_mem fun w hw => ?_
  simp only [List.mem_cons, List.not_mem_nil, or_false] at h
  simp only [stray, Language.mem_add]
  rcases h with rfl | rfl | rfl | rfl | rfl
  · exact Or.inl (Or.inl (Or.inl (Or.inl hw)))
  · exact Or.inl (Or.inl (Or.inl (Or.inr hw)))
  · exact Or.inl (Or.inl (Or.inr hw))
  · exact Or.inl (Or.inr hw)
  · exact Or.inr hw

/-- At the top level, not after a declaration. -/
theorem due_next_top (h : (Place.content false).next? false a = some next)
    (hobtw : a ≠ .hashWord .obtw) : lexeme a * next.due 0 ≤ bodyTail := by
  rcases a with word | word | content | identifier | _ | _
  · cases word <;> cases h
    · exact stray_mul_bodyTail_le (by decide)
    · exact absurd rfl hobtw
    · exact stray_mul_bodyTail_le (by decide)
    · exact maek_mul_due_le 0
    · exact stray_mul_bodyTail_le (by decide)
    · exact gimmeh_mul_due_le 0
    · exact stray_mul_bodyTail_le (by decide)
    · exact iHaz_mul_due_le 0
    · exact stray_mul_bodyTail_le (by decide)
    · exact lemmeSee_mul_due_le 0
  all_goals cases h
  · refine bodyItem_mul_bodyTail_le ((lexeme_keyword_le_keyword word).trans ?_)
    exact le_of_mem fun w hw => by simp only [bodyItem, Language.mem_add, hw, true_or, or_true]
  · exact plain_mul_afterNode_le (lexeme_text_le_plain content) 0
  · exact plain_mul_afterNode_le (lexeme_name_le_plain identifier) 0
  · exact newline_mul_bodyTail_le

/-- At the top level, after a declaration and newlines. -/
theorem due_next_declared (h : (Place.content true).next? false a = some next)
    (hobtw : a ≠ .hashWord .obtw) : lexeme a * next.due 0 ≤ afterDeclaration 0 := by
  by_cases hnewline : a = .newline
  · subst hnewline
    cases h
    calc newline * afterDeclaration 0
        = newline * unassigned + newline * (newlines * (assignment * bodyTail)) := mul_add ..
      _ ≤ afterDeclaration 0 := add_le_add newline_mul_unassigned_le newline_mul_newlines_mul_le
  · by_cases hitIz : a = .hashWord .itIz
    · subst hitIz
      cases h
      calc word .itIz * Place.assignment.due 0 = assignment * bodyTail := itIz_mul_due 0
        _ ≤ newlines * (assignment * bodyTail) := le_kstar_mul _ _
        _ ≤ afterDeclaration 0 := le_add_self
    · -- Every other lexeme is taken as if there had been no declaration.
      have hfalse : (Place.content false).next? false a = some next := by
        rw [← h]
        rcases a with word | _ | _ | _ | _ | _
        · cases word <;> first | rfl | exact absurd rfl hitIz
        all_goals first | rfl | exact absurd rfl hnewline
      calc lexeme a * next.due 0
          ≤ unassigned := lexeme_mul_le_unassigned hnewline hitIz (due_next_top hfalse hobtw)
        _ ≤ afterDeclaration 0 := le_self_add

/-- What the control takes between two nodes is due there, with all that is due after it. -/
theorem due_next_content (h : (Place.content declared).next? (depth != 0) a = some next)
    (hobtw : a ≠ .hashWord .obtw) :
    lexeme a * next.due depth ≤ (Place.content declared).due depth := by
  cases depth with
  | zero =>
      cases declared with
      | false => exact due_next_top h hobtw
      | true => exact due_next_declared h hobtw
  | succ depth =>
      have hnested := due_next_nested depth h
      cases declared <;> exact hnested

/-! ## One lexeme within a construct -/

/-- The keyword of a section, its content and its closing word are due after the word of sections.
-/
theorem kind_mul_le_due {kind content : Language Lexeme}
    (h : kind * (content * word .oic) ≤ sectionTail sections) (depth : Nat) :
    kind * (content * (word .oic * afterNode depth)) ≤ Place.sectionKind.due depth := by
  calc kind * (content * (word .oic * afterNode depth))
      = kind * (content * word .oic) * afterNode depth := by simp only [mul_assoc]
    _ ≤ sectionTail sections * afterNode depth := by gcongr
    _ ≤ Place.sectionKind.due depth := le_kstar_mul _ _

/-- What the control takes as the kind of a section is due there. -/
theorem due_next_sectionKind (h : Place.sectionKind.next? nested a = some next) :
    lexeme a * next.due depth ≤ Place.sectionKind.due depth := by
  rcases a with word | word | _ | _ | _ | _
  · cases word <;> cases h
  · cases word <;> cases h
    · exact kind_mul_le_due (le_self_add.trans le_self_add) depth
    · exact kind_mul_le_due le_add_self depth
  all_goals cases h
  exact newline_mul_newlines_mul_le

/-- What the control takes between two titles is due there. -/
theorem due_next_head (h : Place.head.next? nested a = some next) :
    lexeme a * next.due depth ≤ Place.head.due depth := by
  rcases a with word | _ | _ | _ | _ | _
  · cases word <;> cases h
    · exact le_spaced_mul _ _
    · calc word .gimmeh * (key .title * inText (afterTitle depth))
          = title * afterTitle depth := by simp only [title, inText, mul_assoc]
        _ ≤ afterTitle depth := mul_spaced_mul_le le_rfl
  all_goals cases h
  exact newline_mul_spaced_mul_le

/-- What the control takes between two items is due there. -/
theorem due_next_list (h : Place.list.next? nested a = some next) :
    lexeme a * next.due depth ≤ Place.list.due depth := by
  rcases a with word | _ | _ | _ | _ | _
  · cases word <;> cases h
    · exact le_spaced_mul _ _
    · calc word .gimmeh * (key .item * inRun depth .item)
          = item * afterItem depth := by simp only [item, inRun, afterRun, mul_assoc]
        _ ≤ afterItem depth := mul_spaced_mul_le le_rfl
  all_goals cases h
  exact newline_mul_spaced_mul_le

/-- Plain text is due within a text on several lines. -/
theorem mul_inText_le {unit : Language Lexeme} (h : unit ≤ plain) (rest : Language Lexeme) :
    unit * inText rest ≤ inText rest :=
  mul_kstar_mul_le (h.trans le_self_add)

/-- A newline is due within a text on several lines. -/
theorem newline_mul_inText_le (rest : Language Lexeme) : newline * inText rest ≤ inText rest :=
  mul_kstar_mul_le le_add_self

/-- What the control takes within a title is due there. -/
theorem due_next_title (h : Place.title.next? nested a = some next) :
    lexeme a * next.due depth ≤ Place.title.due depth := by
  rcases a with word | _ | content | identifier | _ | _
  · cases word <;> cases h
    exact le_kstar_mul _ _
  all_goals cases h
  · exact mul_inText_le (lexeme_text_le_plain content) _
  · exact mul_inText_le (lexeme_name_le_plain identifier) _
  · exact newline_mul_inText_le _

/-- What the control takes within an address is due there. -/
theorem due_next_media (h : Place.media.next? nested a = some next) :
    lexeme a * next.due depth ≤ Place.media.due depth := by
  rcases a with word | _ | content | identifier | _ | _
  · cases word <;> cases h
    exact le_kstar_mul _ _
  all_goals cases h
  · exact mul_inText_le (lexeme_text_le_plain content) _
  · exact mul_inText_le (lexeme_name_le_plain identifier) _
  · exact newline_mul_inText_le _

/-- What the control takes within a run is due there. -/
theorem due_next_run {host : Host} (h : (Place.run host).next? nested a = some next) :
    lexeme a * next.due depth ≤ (Place.run host).due depth := by
  rcases a with word | _ | content | identifier | _ | _
  · cases word <;> cases h
    · cases host <;> exact le_kstar_mul _ _
    · calc word .lemmeSee * (name * (word .mkay * inRun depth host))
          = reference * inRun depth host := by simp only [reference, mul_assoc]
        _ ≤ inRun depth host := mul_kstar_mul_le le_add_self
  all_goals cases h
  · exact mul_kstar_mul_le ((lexeme_text_le_plain content).trans le_self_add)
  · exact mul_kstar_mul_le ((lexeme_name_le_plain identifier).trans le_self_add)

/-- What the control takes within the value of an assignment is due there. -/
theorem due_next_assignment (h : Place.assignment.next? nested a = some next) :
    lexeme a * next.due depth ≤ Place.assignment.due depth := by
  rcases a with word | _ | content | identifier | _ | _
  · cases word <;> cases h
    exact le_kstar_mul _ _
  all_goals cases h
  · exact mul_kstar_mul_le (lexeme_text_le_plain content)
  · exact mul_kstar_mul_le (lexeme_name_le_plain identifier)

/-- The keyword of media is due after the word of styled nodes, with what is due after it. -/
theorem media_mul_due_le {kind : Language Lexeme} (h : kind ≤ key .soundz + key .vidz)
    (depth : Nat) : kind * Place.media.due depth ≤ Place.style.due depth := by
  calc kind * Place.media.due depth
      ≤ (key .soundz + key .vidz) * Place.media.due depth := by gcongr
    _ = (key .soundz + key .vidz) * ((plain + newline)∗ * word .mkay) * afterNode depth := by
        simp only [Place.due, inText, mul_assoc]
    _ ≤ style * afterNode depth := by gcongr; exact le_add_self.trans le_self_add

/-- The keyword of an emphasis is due after the word of styled nodes, with what is due after it. -/
theorem emphasis_mul_due_le {kind : Language Lexeme} (h : kind ≤ key .bold + key .italics)
    (depth : Nat) : kind * (Place.run .emphasis).due depth ≤ Place.style.due depth := by
  calc kind * (Place.run .emphasis).due depth
      ≤ (key .bold + key .italics) * (Place.run .emphasis).due depth := by gcongr
    _ = (key .bold + key .italics) * (piece∗ * word .mkay) * afterNode depth := by
        simp only [Place.due, inRun, afterRun, mul_assoc]
    _ ≤ style * afterNode depth := by gcongr; exact le_add_self

/-- What the control takes as a style is due there. -/
theorem due_next_style (h : Place.style.next? nested a = some next) :
    lexeme a * next.due depth ≤ Place.style.due depth := by
  rcases a with word | word | _ | _ | _ | _
  · cases word <;> cases h
  · cases word <;> cases h
    · exact emphasis_mul_due_le le_self_add depth
    · exact emphasis_mul_due_le le_add_self depth
    · show key .newline * afterNode depth ≤ style * afterNode depth
      gcongr
      exact le_self_add.trans le_self_add
    · exact media_mul_due_le le_self_add depth
    · exact media_mul_due_le le_add_self depth
  all_goals cases h

/-- One lexeme that leaves the number of open paragrafs. -/
theorem Place.due_next {place : Place} (h : place.next? (depth != 0) a = some next)
    (hobtw : a ≠ .hashWord .obtw) : lexeme a * next.due depth ≤ place.due depth := by
  cases place with
  | content declared => exact due_next_content h hobtw
  | sectionKind => exact due_next_sectionKind h
  | head => exact due_next_head h
  | titleKeyword =>
      rcases a with word | word | _ | _ | _ | _
      · cases word <;> cases h
      · cases word <;> cases h
        exact le_rfl
      all_goals cases h
  | title => exact due_next_title h
  | list => exact due_next_list h
  | itemKeyword =>
      rcases a with word | word | _ | _ | _ | _
      · cases word <;> cases h
      · cases word <;> cases h
        exact le_rfl
      all_goals cases h
  | run host => exact due_next_run h
  | referenceName host =>
      rcases a with word | _ | _ | identifier | _ | _
      · cases word <;> cases h
      all_goals cases h
      exact mul_le_mul_left (lexeme_name_le_name identifier) _
  | referenceEnd host =>
      rcases a with word | _ | _ | _ | _ | _
      · cases word <;> cases h
        cases host <;> exact le_rfl
      all_goals cases h
  | declaration =>
      rcases a with word | _ | _ | identifier | _ | _
      · cases word <;> cases h
      all_goals cases h
      exact mul_le_mul_left (lexeme_name_le_name identifier) _
  | assignment => exact due_next_assignment h
  | style => exact due_next_style h
  | media => exact due_next_media h

end Next

/-! ## Whole runs -/

/-- A lexeme that the reader takes and what is due after it were due before. -/
theorem Control.due_next {control next : Control} {a : Lexeme} (h : control.next? a = some next)
    (hobtw : a ≠ .hashWord .obtw) : lexeme a * next.due ≤ control.due := by
  cases move_of_next? h with
  | start => exact le_rfl
  | finish declared =>
      -- The body may end here, also after a declaration.
      have hend : word .kthxbye * newlines ≤ bodyTail := by
        calc word .kthxbye * newlines
            ≤ newlines * (word .kthxbye * newlines) := le_kstar_mul _ _
          _ ≤ bodyTail := le_mul_of_one_le_left' (by rintro w rfl; exact Body.nil)
      cases declared with
      | false => exact hend
      | true =>
          have hnext : word .kthxbye * newlines ≤ unassigned :=
            lexeme_mul_le_unassigned (by decide) (by decide) hend
          exact hnext.trans le_self_add
  | leave declared depth =>
      cases declared <;> exact le_spaced_mul _ _
  | enter depth => exact kind_mul_le_due (le_add_self.trans le_self_add) depth
  | within place next depth lexeme hnext => exact Place.due_next hnext hobtw
  | trail => exact mul_kstar_le_kstar

/-- The lexemes that lead to the end were due. -/
theorem Control.mem_due_of_run {control : Control} {w : List Lexeme}
    (hobtw : .hashWord .obtw ∉ w) (h : control.run? w = some .after) : w ∈ control.due := by
  induction w generalizing control with
  | nil =>
      cases h
      exact Language.nil_mem_kstar _
  | cons a w ih =>
      rw [run?_cons, Option.bind_eq_some_iff] at h
      obtain ⟨next, hnext, hrest⟩ := h
      rw [List.mem_cons, not_or] at hobtw
      have hw : w ∈ next.due := ih hobtw.2 hrest
      have ha : [a] ∈ lexeme a := rfl
      exact due_next hnext (Ne.symm hobtw.1) (Language.append_mem_mul ha hw)

end Reader

end LolMarkup
