import LolMarkup.Proofs.Compiling.Contract
import LolMarkup.Proofs.Layout.LineFeeds

/-!
# Line endings of artifacts

Where the lines of an artifact end by a carriage return and a line feed, taking the carriage returns
before line feeds away gives the artifact whose lines end by line feeds (`Text.Reverts`). A page can
be written so because its line feeds come after tags and therefore not after a carriage return of
the document (`Text.LineEnding.reverts_apply`), a listing because its rows are without line feeds
(`Listing.reverts_text`). The line ending changes nothing else in a compilation
(`line_endings_revert`). For an arbitrary page, `returns_inserted` says where carriage returns are
put in, and what follows for a page that has some already.
-/

namespace LolMarkup

namespace Text

/-! ## Taking carriage returns away -/

/-- Replace every carriage return that has a line feed after it, and the line feed, by the line feed
alone. -/
def removeReturns : List Char → List Char
  | [] => []
  | '\r' :: '\n' :: rest => '\n' :: removeReturns rest
  | c :: rest => c :: removeReturns rest

/-- The characters of a text, each with the one before it. -/
def withBefore (cs : List Char) : List (Option Char × Char) :=
  (none :: cs.map some).zip cs

/-- What is written for a character after another one: a line feed gets a carriage return, unless
it has one already. -/
def returned : Option Char × Char → List Char
  | (before, c) => if c = '\n' ∧ before ≠ some '\r' then ['\r', c] else [c]

/-- A written text breaks its lines after carriage returns only, and without these it is another
text. -/
structure Reverts (written plain : String) : Prop where
  returned : BreaksAfter '\r' written
  reverted : String.ofList (removeReturns written.toList) = plain

/-- What is not before a line feed stays. -/
theorem removeReturns_cons {rest : List Char} (h : rest.head? ≠ some '\n') (c : Char) :
    removeReturns (c :: rest) = c :: removeReturns rest := by
  rw [removeReturns]
  intro more _ hrest
  rw [hrest] at h
  exact h rfl

/-- A row without line feeds is kept when the carriage return behind it is removed. -/
theorem removeReturns_append {row : List Char} (h : '\n' ∉ row) (rest : List Char) :
    removeReturns (row ++ '\r' :: '\n' :: rest) = row ++ '\n' :: removeReturns rest := by
  induction row with
  | nil => rfl
  | cons c row ih =>
      have hrow : '\n' ∉ row := fun hmem => h (List.mem_cons_of_mem c hmem)
      have hhead : (row ++ '\r' :: '\n' :: rest).head? ≠ some '\n' := by
        cases row with
        | nil => simp
        | cons d row =>
            intro hd
            exact hrow (by rw [Option.some.inj hd]; exact List.mem_cons_self)
      rw [List.cons_append, removeReturns_cons hhead, ih hrow, List.cons_append]

namespace LineEnding

/-- With carriage returns added, no text starts with a line feed. -/
theorem head?_addReturns (cs : List Char) : (addReturns cs).head? ≠ some '\n' := by
  unfold addReturns
  split
  · simp
  · simp
  · simp
  next c rest _ hc =>
      intro hhead
      exact hc (Option.some.inj hhead)

/-- Carriage returns that are added can be taken away, unless there were some before. -/
theorem removeReturns_addReturns {cs : List Char} (h : ¬ ['\r', '\n'] <:+: cs) :
    removeReturns (addReturns cs) = cs := by
  have htail {c : Char} {rest : List Char} (h : ¬ ['\r', '\n'] <:+: c :: rest) :
      ¬ ['\r', '\n'] <:+: rest :=
    fun hrest => h (List.infix_cons hrest)
  fun_induction addReturns cs with
  | case1 => rfl
  | case2 rest ih => exact absurd ⟨[], rest, rfl⟩ h
  | case3 rest ih => rw [removeReturns, ih (htail h)]
  | case4 c rest _ _ ih => rw [removeReturns_cons (head?_addReturns rest), ih (htail h)]

/-- With carriage returns added, a text breaks its lines after them only. -/
theorem breaksAfter_addReturns (cs : List Char) :
    BreaksAfter '\r' (String.ofList (addReturns cs)) := by
  have hreturn {rest : List Char} (h : BreaksAfter '\r' (String.ofList rest)) :
      BreaksAfter '\r' (String.ofList ('\r' :: '\n' :: rest)) := by
    have hmark : BreaksAfter '\r' ("\r" ++ "\n") :=
      (OneLine.breaksAfter (by simp [OneLine]) '\r').line rfl
    have happend := hmark.append h
    simpa [BreaksAfter] using happend
  fun_induction addReturns cs with
  | case1 => exact oneLine_empty.breaksAfter '\r'
  | case2 rest ih => exact hreturn ih
  | case3 rest ih => exact hreturn ih
  | case4 c rest _ hc ih =>
      have hone : OneLine (String.ofList [c]) := by
        rw [OneLine, String.toList_ofList, List.mem_singleton]
        exact fun hbreak => hc hbreak.symm
      have happend := (hone.breaksAfter '\r').append ih
      simpa [BreaksAfter] using happend

/-- What is neither a line feed nor a carriage return before one stays. -/
theorem addReturns_cons {c : Char} {rest : List Char} (hc : c ≠ '\n')
    (hrest : c = '\r' → rest.head? ≠ some '\n') :
    addReturns (c :: rest) = c :: addReturns rest := by
  rw [addReturns]
  · intro more hreturn hmore
    exact hrest hreturn (by rw [hmore]; rfl)
  · exact hc

/-- Each character is written as it has to be after the one before it. -/
theorem addReturns_eq_flatMap (cs : List Char) :
    addReturns cs = (withBefore cs).flatMap returned := by
  -- The character before the first matters only if it is a carriage return before a line feed.
  suffices hfrom : ∀ before, (before = some '\r' → cs.head? ≠ some '\n') →
      addReturns cs = ((before :: cs.map some).zip cs).flatMap returned from hfrom none (by simp)
  fun_induction addReturns cs with
  | case1 => simp
  | case2 rest ih =>
      intro before _
      have hrest := ih (some '\n') (by simp)
      simp [returned, ← hrest]
  | case3 rest ih =>
      intro before hbefore
      have hrest := ih (some '\n') (by simp)
      have hne : before ≠ some '\r' := fun hreturn => hbefore hreturn rfl
      simp [returned, ← hrest, hne]
  | case4 c rest hreturn hc ih =>
      intro before _
      have hne : c ≠ '\n' := fun h => hc h
      have hrest := ih (some c) (by
        intro hsome hhead
        obtain ⟨more, rfl⟩ := List.head?_eq_some_iff.mp hhead
        exact hreturn more (Option.some.inj hsome) rfl)
      simp [returned, ← hrest, hne]

/-- A text that breaks its lines after carriage returns gets no further ones. -/
theorem addReturns_of_breaksAfter {cs : List Char} (h : BreaksAfter '\r' (String.ofList cs)) :
    addReturns cs = cs := by
  have htail (front : List Char) {rest : List Char}
      (h : BreaksAfter '\r' (String.ofList (front ++ rest)))
      (hedge : front.getLast? = some '\r' → rest.head? ≠ some '\n') (hne : front ≠ []) :
      BreaksAfter '\r' (String.ofList rest) := by
    intro middle back hsplit
    rw [String.toList_ofList] at hsplit
    have hlast := h (front ++ middle) back (by rw [String.toList_ofList, hsplit, List.append_assoc])
    cases middle with
    | nil =>
        rw [List.append_nil] at hlast
        exact absurd (by rw [hsplit]; rfl) (hedge hlast)
    | cons d middle => rwa [List.getLast?_append_of_ne_nil _ (List.cons_ne_nil d middle)] at hlast
  fun_induction addReturns cs with
  | case1 => rfl
  | case2 rest ih => rw [ih (htail ['\r', '\n'] h (by simp) (by simp))]
  | case3 rest ih =>
      have hlast := h [] rest (String.toList_ofList)
      simp at hlast
  | case4 c rest hreturn hc ih =>
      rw [ih (htail [c] h ?_ (by simp))]
      intro hlast hhead
      obtain ⟨more, rfl⟩ := List.head?_eq_some_iff.mp hhead
      exact hreturn more (by simpa using hlast) rfl

/-- A line feed that is left in front stood there, alone or after a carriage return. -/
theorem head_of_removeReturns {cs : List Char} (h : (removeReturns cs).head? = some '\n') :
    cs.head? = some '\n' ∨ ∃ rest, cs = '\r' :: '\n' :: rest := by
  unfold removeReturns at h
  split at h
  · cases h
  next rest => exact .inr ⟨rest, rfl⟩
  next c rest _ => exact .inl h

/-- Carriage returns may be taken away before they are added, unless two stood before a line
feed. -/
theorem addReturns_removeReturns {cs : List Char} (h : ¬ ['\r', '\r', '\n'] <:+: cs) :
    addReturns (removeReturns cs) = addReturns cs := by
  have htail {c : Char} {rest : List Char} (h : ¬ ['\r', '\r', '\n'] <:+: c :: rest) :
      ¬ ['\r', '\r', '\n'] <:+: rest :=
    fun hrest => h (List.infix_cons hrest)
  fun_induction removeReturns cs with
  | case1 => rfl
  | case2 rest ih => rw [addReturns, addReturns, ih (htail (htail h))]
  | case3 c rest hreturn ih =>
      have hrest := ih (htail h)
      by_cases hc : c = '\n'
      · rw [hc, addReturns, addReturns, hrest]
      · have hhead : c = '\r' → rest.head? ≠ some '\n' := by
          intro hcr hhead
          obtain ⟨more, rfl⟩ := List.head?_eq_some_iff.mp hhead
          exact hreturn more hcr rfl
        rw [addReturns_cons hc hhead, addReturns_cons hc ?_, hrest]
        intro hcr hleft
        rcases head_of_removeReturns hleft with hline | ⟨more, rfl⟩
        · exact hhead hcr hline
        · exact h ⟨[], more, by rw [hcr]; rfl⟩

/-- A page that breaks its lines after tags is written reversibly. -/
theorem reverts_apply {page : String} (h : BreaksAfter '>' page) :
    Reverts (apply .crlf page) (apply .lf page) := by
  refine ⟨breaksAfter_addReturns page.toList, ?_⟩
  have hinfix : ¬ ['\r', '\n'] <:+: page.toList := by
    intro ⟨front, back, hpage⟩
    have hlast := h (front ++ ['\r']) back (by rw [← hpage]; simp)
    simp at hlast
  show String.ofList (removeReturns (String.ofList (addReturns page.toList)).toList) = page
  rw [String.toList_ofList, removeReturns_addReturns hinfix, String.ofList_toList]

end LineEnding

end Text

open Text

namespace Listing

/-- A listing of rows without line feeds is written reversibly. -/
theorem reverts_text {tokens : List Token} (h : ∀ token ∈ tokens, Printable token.lexeme.listed) :
    Reverts (text .crlf tokens) (text .lf tokens) := by
  have hrows : ∀ row ∈ rows tokens, OneLine row :=
    fun row hrow => (printable_rows h row hrow).oneLine
  rw [text, text]
  generalize rows tokens = shown at hrows
  refine ⟨BreaksAfter.join ?_, ?_⟩
  · intro s hs
    obtain ⟨row, hrow, rfl⟩ := List.mem_map.mp hs
    have hreturn : OneLine (row ++ "\r") :=
      (oneLine_append _ _).mpr ⟨hrows row hrow, by simp [OneLine]⟩
    have hline := (hreturn.breaksAfter '\r').line (by simp)
    rwa [String.append_assoc] at hline
  · induction shown with
    | nil => rfl
    | cons row shown ih =>
        have hrest := ih fun other hother => hrows other (List.mem_cons_of_mem row hother)
        have hwritten (more : String) :
            (row ++ Text.LineEnding.crlf.mark ++ more).toList =
              row.toList ++ '\r' :: '\n' :: more.toList := by
          simp [Text.LineEnding.mark]
        have hplain (more : List Char) :
            String.ofList (row.toList ++ '\n' :: more) =
              row ++ Text.LineEnding.lf.mark ++ String.ofList more := by
          simp [Text.LineEnding.mark, ← String.toList_inj]
        rw [List.map_cons, String.join_cons, hwritten,
          removeReturns_append (hrows row List.mem_cons_self), hplain, hrest, List.map_cons,
          String.join_cons]

end Listing

/-! ## Compilations -/

/-- An artifact with returned lines is another one but for its line endings. An outline has none. -/
def Artifact.Reverts : Artifact → Artifact → Prop
  | html written, html plain => Text.Reverts written plain
  | tokens written, tokens plain => Text.Reverts written plain
  | outline record, outline other => record = other
  | _, _ => False

/-- An artifact is of the same kind as what it reverts to. -/
theorem Artifact.Reverts.kind {written plain : Artifact} (h : written.Reverts plain) :
    written.kind = plain.kind := by
  cases written <;> cases plain <;> trivial

/-- Artifacts are of the same kinds as what they revert to. -/
theorem Artifact.map_kind_of_reverts {written plain : List Artifact}
    (h : List.Forall₂ Artifact.Reverts written plain) :
    written.map kind = plain.map kind := by
  induction h with
  | nil => rfl
  | cons hfirst _ ih => rw [List.map_cons, List.map_cons, hfirst.kind, ih]

namespace Source

variable {source : Source}

/-- What a compilation finds depends on where it is to stop and on whether the tokens are asked
for, and on no other option. -/
theorem diagnostics_compile (here : Path) (source : Source) {options other : Options}
    (hlex : other.lexOnly = options.lexOnly) (hemit : other.emitTokens = options.emitTokens) :
    (source.compile here other).diagnostics = (source.compile here options).diagnostics := by
  have hlisting : (∃ d, source.listing other = .error d ∧ source.listing options = .error d) ∨
      ∃ drafts drafts', source.listing other = .ok drafts ∧
        source.listing options = .ok drafts' := by
    unfold listing
    rw [hlex, hemit]
    split
    · cases source.tokenize with
      | error d => exact .inl ⟨d, rfl, rfl⟩
      | ok tokens => exact .inr ⟨_, _, rfl, rfl⟩
    · exact .inr ⟨_, _, rfl, rfl⟩
  rcases hlisting with ⟨d, hother, hoptions⟩ | ⟨drafts, drafts', hother, hoptions⟩
  · rw [compile, hother, compile, hoptions]
  · rw [compile, hother, compile, hoptions]
    simp only [hlex]
    split
    · rfl
    · cases source.document with
      | error e => rfl
      | ok document =>
          simp only
          split <;> rfl

/-- Listings with either line ending. -/
theorem reverts_listed (here : Path) (options : Options) {tokens : List Token}
    (h : source.tokenize = .ok tokens) :
    List.Forall₂ Artifact.Reverts
      ((Options.listed { options with lineEnding := .crlf } tokens).map (Draft.write here))
      ((Options.listed { options with lineEnding := .lf } tokens).map (Draft.write here)) := by
  cases options.emitTokens with
  | true => exact .cons (Listing.reverts_text (printable_listed h)) .nil
  | false => exact .nil

/-- Outlines with either line ending. -/
theorem reverts_outline (here : Path) (source : Source) (options : Options) (document : Document) :
    List.Forall₂ Artifact.Reverts
      ((source.outline here { options with lineEnding := .crlf } document).map (Draft.write here))
      ((source.outline here { options with lineEnding := .lf } document).map
        (Draft.write here)) := by
  cases options.emitOutline with
  | true => exact .cons rfl .nil
  | false => exact .nil

/-- All artifacts with either line ending. -/
theorem reverts_artifacts (here : Path) (source : Source) (options : Options) :
    List.Forall₂ Artifact.Reverts
      (source.compile here { options with lineEnding := .crlf }).artifacts
      (source.compile here { options with lineEnding := .lf }).artifacts := by
  have o := source.outcome here { options with lineEnding := .crlf }
  have o' := source.outcome here { options with lineEnding := .lf }
  have hsame : (source.compile here { options with lineEnding := .lf }).Fails ↔
      (source.compile here { options with lineEnding := .crlf }).Fails :=
    source.fails_iff_of_lexOnly here rfl
  by_cases h : (source.compile here { options with lineEnding := .crlf }).Fails
  · rw [o.artifacts_of_fails h, o'.artifacts_of_fails (hsame.mpr h)]
    exact .nil
  · -- Both compilations have the same tokens and the same document, as far as they have any.
    rcases o.cases_of_not_fails h with
      ⟨tokens, hlex, htokens, hartifacts⟩ | ⟨tokens, document, hlex, htokens, hdocument, hartifacts⟩
    · rcases o'.cases_of_not_fails (hsame.not.mpr h) with
        ⟨tokens', -, htokens', hartifacts'⟩ | ⟨-, -, hlex', -⟩
      · rw [htokens] at htokens'
        cases htokens'
        rw [hartifacts, hartifacts']
        exact reverts_listed here options htokens
      · cases hlex.symm.trans hlex'
    · rcases o'.cases_of_not_fails (hsame.not.mpr h) with
        ⟨-, hlex', -⟩ | ⟨tokens', document', -, htokens', hdocument', hartifacts'⟩
      · cases hlex.symm.trans hlex'
      · rw [htokens] at htokens'
        rw [hdocument] at hdocument'
        cases htokens'
        cases hdocument'
        rw [hartifacts, hartifacts', List.map_append, List.map_append]
        refine List.rel_append (.cons ?_ (reverts_listed here options htokens))
          (source.reverts_outline here options document)
        exact LineEnding.reverts_apply (breaksAfter_page hdocument)

end Source

/-- The line ending that is asked for changes nothing but the line endings of pages and listings,
and these can be reverted. -/
theorem line_endings_revert (here : Path) (source : Source) (options : Options) :
    (source.compile here { options with lineEnding := .crlf }).diagnostics =
      (source.compile here { options with lineEnding := .lf }).diagnostics ∧
    (source.compile here { options with lineEnding := .crlf }).artifacts.map Artifact.kind =
      (source.compile here { options with lineEnding := .lf }).artifacts.map Artifact.kind ∧
    List.Forall₂ Artifact.Reverts
      (source.compile here { options with lineEnding := .crlf }).artifacts
      (source.compile here { options with lineEnding := .lf }).artifacts := by
  have hartifacts := source.reverts_artifacts here options
  exact ⟨source.diagnostics_compile here rfl rfl, Artifact.map_kind_of_reverts hartifacts,
    hartifacts⟩

/-! ## Where carriage returns are put in -/

/-- A page whose lines are to end by a carriage return and a line feed is written with a carriage
return before exactly those line feeds that do not follow one. So writing it again changes nothing,
no line feed is left without a carriage return, and it does not matter whether carriage returns
before line feeds are taken away first, as long as there are no two in a row. -/
theorem returns_inserted (here : Path) (page : String) :
    ∃ written, (Draft.html page .crlf).write here = .html written ∧
      written.toList = (Text.withBefore page.toList).flatMap Text.returned ∧
      (Draft.html written .crlf).write here = .html written ∧
      Text.BreaksAfter '\r' written ∧
      (¬ ['\r', '\r', '\n'] <:+: page.toList →
        (Draft.html (String.ofList (Text.removeReturns page.toList)) .crlf).write here =
          .html written) := by
  have hwrite (text : String) : (Draft.html text .crlf).write here =
      .html (String.ofList (Text.LineEnding.addReturns text.toList)) := rfl
  have hbreaks := Text.LineEnding.breaksAfter_addReturns page.toList
  refine ⟨_, hwrite page, ?_, ?_, hbreaks, ?_⟩
  · rw [String.toList_ofList, Text.LineEnding.addReturns_eq_flatMap]
  · rw [hwrite, String.toList_ofList, Text.LineEnding.addReturns_of_breaksAfter hbreaks]
  · intro hpage
    rw [hwrite, String.toList_ofList, Text.LineEnding.addReturns_removeReturns hpage]

/-- A line feed alone, one after a carriage return, one after another line feed, and carriage
returns that stand before none. -/
theorem returns_inserted_mixed :
    (Draft.html "a\nb\r\n\n\rc\r" .crlf).write ⟨[]⟩ = .html "a\r\nb\r\n\r\n\rc\r" ∧
      (Draft.html "a\nb\n\n\rc\r" .crlf).write ⟨[]⟩ = .html "a\r\nb\r\n\r\n\rc\r" := by
  obtain ⟨written, hwritten, -, -, -, hremoved⟩ := returns_inserted ⟨[]⟩ "a\nb\r\n\n\rc\r"
  obtain rfl : "a\r\nb\r\n\r\n\rc\r" = written := by
    rw [← Artifact.html.injEq, ← hwritten]
    rfl
  exact ⟨hwritten, hremoved (by decide)⟩

/-- Two carriage returns before a line feed stay, and taking one away first makes a difference. -/
example : Text.LineEnding.addReturns "\r\r\n".toList = "\r\r\n".toList ∧
    Text.LineEnding.addReturns (Text.removeReturns "\r\r\n".toList) = "\r\n".toList := by
  decide

end LolMarkup
