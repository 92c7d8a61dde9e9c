import LolMarkup.Proofs.Grammar.Basic
import LolMarkup.Proofs.Reading.Control

/-!
# What is in the grammar is accepted

`Leads P L Q` says that every word of the language `L` leads the control of the reader from any
state in `P` to some state in `Q`. It follows the operations on languages, so that each construct of
the grammar has one lemma, stated at every number of open paragrafs. Sections follow by induction on
their nesting and bodies by induction on their items.
-/

namespace LolMarkup

open Reader

namespace Grammar

open scoped Computability

/-- Every word of the language leads the control from one set of states to the other. -/
def Leads (P : Set Control) (L : Language Lexeme) (Q : Set Control) : Prop :=
  ∀ control ∈ P, ∀ w ∈ L, ∃ next ∈ Q, control.run? w = some next

section Leads

variable {P Q R : Set Control} {L M : Language Lexeme}

/-- A language leads from fewer states and to more of them. -/
theorem Leads.mono {P' Q' : Set Control} (h : Leads P L Q) (hP : P' ⊆ P) (hQ : Q ⊆ Q') :
    Leads P' L Q' := by
  intro control hcontrol w hw
  obtain ⟨next, hnext, hrun⟩ := h control (hP hcontrol) w hw
  exact ⟨next, hQ hnext, hrun⟩

/-- Languages that lead from state to state can be put one after another. -/
theorem Leads.mul (hL : Leads P L Q) (hM : Leads Q M R) : Leads P (L * M) R := by
  rintro control hcontrol _ ⟨w, hw, v, hv, rfl⟩
  obtain ⟨next, hnext, hrun⟩ := hL control hcontrol w hw
  obtain ⟨last, hlast, hrest⟩ := hM next hnext v hv
  refine ⟨last, hlast, ?_⟩
  show control.run? (w ++ v) = some last
  rw [Control.run?_append, hrun, Option.bind_some, hrest]

/-- A language leads on if each of two alternatives does. -/
theorem Leads.add (hL : Leads P L Q) (hM : Leads P M Q) : Leads P (L + M) Q := by
  rintro control hcontrol w (hw | hw)
  · exact hL control hcontrol w hw
  · exact hM control hcontrol w hw

/-- What leads back to where it starts can be repeated. -/
theorem Leads.kstar (h : Leads P L P) : Leads P L∗ P := by
  rintro control hcontrol _ ⟨words, rfl, hwords⟩
  induction words generalizing control with
  | nil => exact ⟨control, hcontrol, rfl⟩
  | cons w words ih =>
      obtain ⟨next, hnext, hrun⟩ := h control hcontrol w (hwords w List.mem_cons_self)
      obtain ⟨last, hlast, hrest⟩ :=
        ih next hnext fun v hv => hwords v (List.mem_cons_of_mem w hv)
      refine ⟨last, hlast, ?_⟩
      rw [List.flatten_cons, Control.run?_append, hrun, Option.bind_some, hrest]

/-- What leads back to where it starts can be repeated with newlines between. -/
theorem Leads.spaced (hnewline : Leads P newline P) (h : Leads P L P) :
    Leads P (Grammar.spaced L) P :=
  (hnewline.kstar.mul h).kstar.mul hnewline.kstar

/-- A lexeme leads on if the control takes it in every state. -/
theorem leads_lexeme {a : Lexeme} (h : ∀ control ∈ P, ∃ next ∈ Q, control.next? a = some next) :
    Leads P (lexeme a) Q := by
  rintro control hcontrol w rfl
  obtain ⟨next, hnext, hstep⟩ := h control hcontrol
  exact ⟨next, hnext, by rw [Control.run?_cons, hstep]; rfl⟩

end Leads

/-- One lexeme between two given states. -/
theorem leads_of_next {control next : Control} {a : Lexeme} (h : control.next? a = some next) :
    Leads {control} (lexeme a) {next} :=
  leads_lexeme (by rintro _ rfl; exact ⟨next, rfl, h⟩)

/-- A name leads on if the control takes every identifier in the same way. -/
theorem leads_name {control next : Control}
    (h : ∀ identifier, control.next? (.name identifier) = some next) :
    Leads {control} name {next} := by
  rintro control' hcontrol _ ⟨identifier, rfl⟩
  exact leads_of_next (h identifier) control' hcontrol _ rfl

/-- Plain text leads on if the control takes texts and names in the same way. -/
theorem leads_plain {control next : Control}
    (htext : ∀ content, control.next? (.text content) = some next)
    (hname : ∀ identifier, control.next? (.name identifier) = some next) :
    Leads {control} plain {next} := by
  refine Leads.add ?_ (leads_name hname)
  rintro control' hcontrol _ ⟨content, rfl⟩
  exact leads_of_next (htext content) control' hcontrol _ rfl

/-! ## Constructs within a node -/

section Constructs

variable (depth : Nat)

/-- Text on several lines leads on to its closing word, if the control stays where it is within it.
-/
theorem leads_inText {control next : Control} (hnewline : control.next? .newline = some control)
    (htext : ∀ content, control.next? (.text content) = some control)
    (hname : ∀ identifier, control.next? (.name identifier) = some control)
    (hmkay : control.next? (.hashWord .mkay) = some next) :
    Leads {control} ((plain + newline)∗ * word .mkay) {next} :=
  ((leads_plain htext hname).add (leads_of_next hnewline)).kstar.mul (leads_of_next hmkay)

/-- A title leads from one place between titles to the next. -/
theorem leads_title : Leads {.inside .head depth} title {.inside .head depth} := by
  have hopen : Leads {.inside .head depth} (word .gimmeh) {.inside .titleKeyword depth} :=
    leads_of_next rfl
  have hkey : Leads {.inside .titleKeyword depth} (key .title) {.inside .title depth} :=
    leads_of_next rfl
  have htext : Leads {.inside .title depth} ((plain + newline)∗ * word .mkay)
      {.inside .head depth} := leads_inText rfl (fun _ => rfl) (fun _ => rfl) rfl
  exact hopen.mul (hkey.mul htext)

/-- The name of a reference and its closing word lead back to where the reference stands. -/
theorem leads_referenceTail (host : Option Host) :
    Leads {.inside (.referenceName host) depth} (name * word .mkay)
      {.inside (.resume host) depth} := by
  have hname : Leads {.inside (.referenceName host) depth} name
      {.inside (.referenceEnd host) depth} := leads_name fun _ => rfl
  exact hname.mul (leads_of_next rfl)

/-- The pieces of a run and its closing word lead to where the run is closed. -/
theorem leads_run (host : Host) :
    Leads {.inside (.run host) depth} (piece∗ * word .mkay) {.inside (.close host) depth} := by
  have hplain : Leads {.inside (.run host) depth} plain {.inside (.run host) depth} :=
    leads_plain (fun _ => rfl) (fun _ => rfl)
  have hopen : Leads {.inside (.run host) depth} (word .lemmeSee)
      {.inside (.referenceName (some host)) depth} := leads_of_next rfl
  have hreference := hopen.mul (leads_referenceTail depth (some host))
  exact (hplain.add hreference).kstar.mul (leads_of_next rfl)

/-- An item leads from one place between items to the next. -/
theorem leads_item : Leads {.inside .list depth} item {.inside .list depth} := by
  have hopen : Leads {.inside .list depth} (word .gimmeh) {.inside .itemKeyword depth} :=
    leads_of_next rfl
  have hkey : Leads {.inside .itemKeyword depth} (key .item) {.inside (.run .item) depth} :=
    leads_of_next rfl
  exact hopen.mul (hkey.mul (leads_run depth .item))

/-! ## Nodes -/

/-- The state after a node. -/
def settled : Control :=
  .inside (.content false) depth

/-- The states between two nodes. -/
def between : Set Control :=
  {control | ∃ declared, control = .inside (.content declared) depth}

/-- The state after a node is one of those between two nodes. -/
theorem settled_subset_between : {settled depth} ⊆ between depth := by
  rintro _ rfl
  exact ⟨false, rfl⟩

/-- A style with its content leads to the state after a node. -/
theorem leads_style : Leads {.inside .style depth} style {settled depth} := by
  have hbreak : Leads {.inside .style depth} (key .newline) {settled depth} :=
    leads_of_next rfl
  have hmedia : Leads {.inside .style depth} (key .soundz + key .vidz) {.inside .media depth} :=
    (leads_of_next rfl).add (leads_of_next rfl)
  have htext : Leads {.inside .media depth} ((plain + newline)∗ * word .mkay)
      {settled depth} := leads_inText rfl (fun _ => rfl) (fun _ => rfl) rfl
  have hemphasis : Leads {.inside .style depth} (key .bold + key .italics)
      {.inside (.run .emphasis) depth} := (leads_of_next rfl).add (leads_of_next rfl)
  exact (hbreak.add (hmedia.mul htext)).add (hemphasis.mul (leads_run depth .emphasis))

/-- A lexeme leads on between two nodes if it does so with and without a declaration in front of it.
-/
theorem leads_between {a : Lexeme} {Q : Set Control}
    (h : ∀ declared, ∃ next ∈ Q, (Control.inside (.content declared) depth).next? a = some next) :
    Leads (between depth) (lexeme a) Q :=
  leads_lexeme (by rintro _ ⟨declared, rfl⟩; exact h declared)

/-- Newlines between two nodes lead nowhere else. -/
theorem leads_newline_between : Leads (between depth) newline (between depth) :=
  leads_between depth fun declared => ⟨_, ⟨declared, rfl⟩, by cases depth <;> rfl⟩

/-- Plain text between two nodes is a node. -/
theorem leads_plain_between : Leads (between depth) plain {settled depth} := by
  rintro _ ⟨declared, rfl⟩ w hw
  have hplain : Leads {.inside (.content declared) depth} plain {settled depth} :=
    leads_plain (fun _ => by cases depth <;> rfl) (fun _ => by cases depth <;> rfl)
  exact hplain _ rfl w hw

/-- A reference between two nodes is a node. -/
theorem leads_reference : Leads (between depth) reference {settled depth} := by
  have hopen : Leads (between depth) (word .lemmeSee) {.inside (.referenceName none) depth} :=
    leads_between depth fun _ => ⟨_, rfl, by cases depth <;> rfl⟩
  exact hopen.mul (leads_referenceTail depth none)

/-- A styled text between two nodes is a node. -/
theorem leads_styled : Leads (between depth) styled {settled depth} := by
  have hopen : Leads (between depth) (word .gimmeh) {.inside .style depth} :=
    leads_between depth fun _ => ⟨_, rfl, by cases depth <;> rfl⟩
  exact hopen.mul (leads_style depth)

/-- A declaration leads to the state in which its assignment may follow. -/
theorem leads_declaration :
    Leads (between depth) declaration {.inside (.content true) depth} := by
  have hopen : Leads (between depth) (word .iHaz) {.inside .declaration depth} :=
    leads_between depth fun _ => ⟨_, rfl, by cases depth <;> rfl⟩
  exact hopen.mul (leads_name fun _ => rfl)

/-- The value of an assignment and its closing word lead to the state after a node. -/
theorem leads_assignmentTail :
    Leads {.inside .assignment depth} (plain∗ * word .mkay) {settled depth} := by
  have hplain : Leads {.inside .assignment depth} plain {.inside .assignment depth} :=
    leads_plain (fun _ => rfl) (fun _ => rfl)
  exact hplain.kstar.mul (leads_of_next rfl)

/-- An assignment in a paragraf is a node, whatever comes before it. -/
theorem leads_assignment_nested :
    Leads (between (depth + 1)) assignment {settled (depth + 1)} := by
  have hopen : Leads (between (depth + 1)) (word .itIz) {.inside .assignment (depth + 1)} :=
    leads_between (depth + 1) fun _ => ⟨_, rfl, rfl⟩
  exact hopen.mul (leads_assignmentTail (depth + 1))

/-- At the top level an assignment is read after a declaration only. -/
theorem leads_assignment_declared :
    Leads {.inside (.content true) 0} assignment {settled 0} := by
  have hopen : Leads {.inside (.content true) 0} (word .itIz) {.inside .assignment 0} :=
    leads_of_next rfl
  exact hopen.mul (leads_assignmentTail 0)

/-! ## Sections -/

variable {inner : Language Lexeme}

/-- What a paragraf may hold leads from one node to the next, if its sections do. -/
theorem leads_contentOver (h : Leads (between (depth + 1)) inner {settled (depth + 1)}) :
    Leads (between (depth + 1)) (contentOver inner) (between (depth + 1)) := by
  have hafter := settled_subset_between (depth + 1)
  have hdeclaration : Leads (between (depth + 1)) declaration (between (depth + 1)) :=
    (leads_declaration (depth + 1)).mono subset_rfl (by rintro _ rfl; exact ⟨true, rfl⟩)
  have hassignment := (leads_assignment_nested depth).mono subset_rfl hafter
  have hreference := (leads_reference (depth + 1)).mono subset_rfl hafter
  have hstyled := (leads_styled (depth + 1)).mono subset_rfl hafter
  have hplain := (leads_plain_between (depth + 1)).mono subset_rfl hafter
  exact ((((hdeclaration.add hassignment).add hreference).add hstyled).add
    (h.mono subset_rfl hafter)).add hplain

/-- The kind of a section and its content lead to the state after the section, if inner sections are
nodes. -/
theorem leads_sectionTail (h : Leads (between (depth + 1)) inner {settled (depth + 1)}) :
    Leads {.inside .sectionKind depth} (sectionTail inner) {settled depth} := by
  have hhead : Leads {.inside .sectionKind depth} (key .head * (spaced title * word .oic))
      {settled depth} := by
    have htitles := Leads.spaced (leads_of_next rfl) (leads_title depth)
    exact (leads_of_next rfl).mul (htitles.mul (leads_of_next rfl))
  have hparagraf : Leads {.inside .sectionKind depth}
      (key .paragraf * (spaced (contentOver inner) * word .oic)) {settled depth} := by
    have hcontent := Leads.spaced (leads_newline_between (depth + 1)) (leads_contentOver depth h)
    have hopen : Leads {.inside .sectionKind depth} (key .paragraf) (between (depth + 1)) :=
      (leads_of_next rfl).mono subset_rfl (settled_subset_between (depth + 1))
    have hclose : Leads (between (depth + 1)) (word .oic) {settled depth} :=
      leads_between (depth + 1) fun _ => ⟨_, rfl, rfl⟩
    exact hopen.mul (hcontent.mul hclose)
  have hlist : Leads {.inside .sectionKind depth} (key .list * (spaced item * word .oic))
      {settled depth} := by
    have hitems := Leads.spaced (leads_of_next rfl) (leads_item depth)
    exact (leads_of_next rfl).mul (hitems.mul (leads_of_next rfl))
  exact (hhead.add hparagraf).add hlist

/-- A section is a node, if inner sections are. -/
theorem leads_sectionOver (h : Leads (between (depth + 1)) inner {settled (depth + 1)}) :
    Leads (between depth) (sectionOver inner) {settled depth} := by
  have hopen : Leads (between depth) (word .maek) {.inside .sectionKind depth} :=
    leads_between depth fun _ => ⟨_, rfl, by cases depth <;> rfl⟩
  have hnewline : Leads {.inside .sectionKind depth} newline {.inside .sectionKind depth} :=
    leads_of_next rfl
  exact hopen.mul (hnewline.kstar.mul (leads_sectionTail depth h))

/-- Sections are nodes at every depth. -/
theorem leads_sections : Leads (between depth) sections {settled depth} := by
  intro control hcontrol w hw
  -- The inner sections of a section are read with one more paragraf open.
  induction hw generalizing depth control with
  | intro inner w _ hw ih =>
      have hinner : Leads (between (depth + 1)) inner {settled (depth + 1)} :=
        fun control hcontrol v hv => ih v hv (depth + 1) control hcontrol
      exact leads_sectionOver depth hinner control hcontrol w hw

end Constructs

/-! ## Bodies -/

/-- Newlines in front do not change which word comes next. -/
theorem nextWord?_append_of_newlines {front : List Lexeme} (h : front ∈ newlines)
    (w : List Lexeme) : nextWord? (front ++ w) = nextWord? w := by
  obtain ⟨words, rfl, hwords⟩ := h
  induction words with
  | nil => rfl
  | cons word words ih =>
      have hword : word = [.newline] := hwords word List.mem_cons_self
      have hrest := ih fun v hv => hwords v (List.mem_cons_of_mem word hv)
      rw [List.flatten_cons, hword, ← hrest]
      rfl

/-- Every item but a stray `#IT IZ` can also follow a declaration. -/
theorem run_bodyItem {declared : Bool} {w : List Lexeme} (hw : w ∈ bodyItem)
    (hitIz : declared = true → w ≠ [.hashWord .itIz]) :
    (Control.inside (.content declared) 0).run? w = some (settled 0) := by
  have run_of_leads {L : Language Lexeme} (h : Leads (between 0) L {settled 0}) (hw : w ∈ L) :
      (Control.inside (.content declared) 0).run? w = some (settled 0) := by
    obtain ⟨_, rfl, hrun⟩ := h _ ⟨declared, rfl⟩ w hw
    exact hrun
  have hassigned : Leads (between 0) (declaration * (newlines * assignment)) {settled 0} := by
    have hnewline : Leads {.inside (.content true) 0} newline {.inside (.content true) 0} :=
      leads_of_next rfl
    exact (leads_declaration 0).mul (hnewline.kstar.mul leads_assignment_declared)
  rcases hw with (((((hw | hw) | hw) | hw) | hw) | ⟨word, rfl⟩) | hw
  · exact run_of_leads (leads_sections 0) hw
  · exact run_of_leads hassigned hw
  · exact run_of_leads (leads_reference 0) hw
  · exact run_of_leads (leads_styled 0) hw
  · exact run_of_leads (leads_plain_between 0) hw
  · rfl
  · rcases hw with (((rfl | rfl) | rfl) | rfl) | rfl
    · rfl
    · rfl
    · rfl
    · rfl
    · cases declared with
      | false => rfl
      | true => exact absurd rfl (hitIz rfl)

/-- A state that drops newlines drops any number of them. -/
theorem run_newlines {control : Control} (h : control.next? .newline = some control)
    {front : List Lexeme} (hfront : front ∈ newlines) : control.run? front = some control := by
  have hleads : Leads {control} newlines {control} := (leads_of_next h).kstar
  obtain ⟨_, rfl, hrun⟩ := hleads control rfl front hfront
  exact hrun

/-- The control goes through the body of a document. After a declaration the body must not start
with `#IT IZ`. -/
theorem run_body {w : List Lexeme} (h : Body w) (declared : Bool)
    (hnext : declared = true → nextWord? w ≠ some (.hashWord .itIz)) :
    ∃ control ∈ between 0, (Control.inside (.content declared) 0).run? w = some control := by
  induction h generalizing declared with
  | nil => exact ⟨_, ⟨declared, rfl⟩, rfl⟩
  | item w rest hw hrest ih =>
      obtain ⟨front, hfront, item, hitem, rfl⟩ := hw
      have hstray : declared = true → item ≠ [.hashWord .itIz] := by
        rintro hdeclared rfl
        apply hnext hdeclared
        show nextWord? (front ++ [.hashWord .itIz] ++ rest) = _
        rw [List.append_assoc, nextWord?_append_of_newlines hfront]
        rfl
      obtain ⟨control, hcontrol, hrun⟩ := ih false (by simp)
      refine ⟨control, hcontrol, ?_⟩
      show Control.run? _ (front ++ item ++ rest) = _
      rw [Control.run?_append, Control.run?_append, run_newlines rfl hfront, Option.bind_some,
        run_bodyItem hitem hstray, Option.bind_some]
      exact hrun
  | declaration w rest hw hitIz hrest ih =>
      obtain ⟨front, hfront, item, hitem, rfl⟩ := hw
      obtain ⟨_, rfl, hdeclaration⟩ := leads_declaration 0 _ ⟨declared, rfl⟩ item hitem
      -- The rest is read as after a declaration, which is why it must not start with `#IT IZ`.
      obtain ⟨control, hcontrol, hrun⟩ := ih true (fun _ => hitIz)
      refine ⟨control, hcontrol, ?_⟩
      show Control.run? _ (front ++ item ++ rest) = _
      rw [Control.run?_append, Control.run?_append, run_newlines rfl hfront, Option.bind_some,
        hdeclaration, Option.bind_some]
      exact hrun

/-- What follows the first word of a document leads to its end. -/
theorem leads_bodyTail : Leads {settled 0} bodyTail {.after} := by
  have hbody : Leads {settled 0} body (between 0) := by
    rintro _ rfl w hw
    exact run_body hw false (by simp)
  have hend : Leads (between 0) (word .kthxbye) {.after} :=
    leads_between 0 fun _ => ⟨_, rfl, rfl⟩
  have htrail : Leads {.after} newline {.after} := leads_of_next rfl
  exact hbody.mul ((leads_newline_between 0).kstar.mul (hend.mul htrail.kstar))

/-- The documents of the grammar lead to the end. -/
theorem run_of_mem {w : List Lexeme} (hw : w ∈ word .hai * bodyTail) :
    Control.before.run? w = some .after := by
  have hstart : Leads {.before} (word .hai) {settled 0} := leads_of_next rfl
  obtain ⟨_, rfl, hrun⟩ := (hstart.mul leads_bodyTail) _ rfl w hw
  exact hrun

end Grammar

end LolMarkup
