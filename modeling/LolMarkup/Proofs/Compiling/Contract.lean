import LolMarkup.Compilation
import LolMarkup.Proofs.Reading.Laziness

/-!
# What a compilation hands over

`Source.Outcome` lists the ways in which a compilation can end, each with the stages that were
passed. `Source.outcome` shows that every compilation ends in one of them, so that the other results
never look into the compilation itself. `compile_contract` says what the artifacts are, and on which
options they and the failure of a compilation depend.
-/

namespace LolMarkup

namespace Artifact

/-- The kinds of artifacts. -/
inductive Kind where
  | html
  | tokens
  | outline
deriving DecidableEq, Repr

/-- The kind of an artifact. -/
def kind : Artifact → Kind
  | html _ => .html
  | tokens _ => .tokens
  | outline _ => .outline

/-- The text of a page. -/
def page? : Artifact → Option String
  | html text => some text
  | _ => none

/-- The text of a token listing. -/
def listing? : Artifact → Option String
  | tokens text => some text
  | _ => none

end Artifact

/-- The kinds of artifacts that the options ask for, in the order in which they are handed over. -/
def Options.kinds (options : Options) : List Artifact.Kind :=
  (if options.lexOnly then [] else [.html]) ++ (if options.emitTokens then [.tokens] else []) ++
    (if options.emitOutline && !options.lexOnly then [.outline] else [])

namespace Compilation

/-- One of the diagnostics is an error. -/
def Fails (compilation : Compilation) : Prop :=
  Diagnostic.anyError compilation.diagnostics = true

/-- The page among the artifacts. -/
def page? (compilation : Compilation) : Option String :=
  compilation.artifacts.findSome? Artifact.page?

/-- The token listing among the artifacts. -/
def listing? (compilation : Compilation) : Option String :=
  compilation.artifacts.findSome? Artifact.listing?

end Compilation

/-- The draft of a listing of the given tokens, if one is asked for. -/
def Options.listed (options : Options) (tokens : List Token) : List Draft :=
  if options.emitTokens then [.tokens tokens options.lineEnding] else []

namespace Source

/-- The ways in which a compilation ends. -/
inductive Outcome (here : Path) (source : Source) (options : Options) : Compilation → Prop where
  /-- The tokens are asked for and there is a lexical error. -/
  | faulty (d : Diagnostic) : source.tokenize = .error d →
      Outcome here source options (.failed [d] [])
  /-- Nothing but the tokens is asked for. -/
  | scanned (tokens : List Token) : options.lexOnly = true → source.tokenize = .ok tokens →
      Outcome here source options
        ⟨[], options.listed tokens, (options.listed tokens).map (Draft.write here)⟩
  /-- There is no document. -/
  | unread (d : Diagnostic) (drafts : List Draft) : options.lexOnly = false →
      source.document = .error d → Outcome here source options (.failed [d] drafts)
  /-- The document has problems. -/
  | invalid (document : Document) (drafts : List Draft) : options.lexOnly = false →
      source.document = .ok document → Diagnostic.anyError document.diagnostics = true →
      Outcome here source options (.failed document.diagnostics drafts)
  /-- All stages are passed. -/
  | finished (tokens : List Token) (document : Document) (drafts : List Draft) :
      options.lexOnly = false → source.tokenize = .ok tokens → source.document = .ok document →
      Diagnostic.anyError document.diagnostics = false →
      Outcome here source options ⟨document.diagnostics, drafts,
        (.html document.render.html options.lineEnding :: options.listed tokens ++
          source.outline here options document).map (Draft.write here)⟩

/-- The listing of a source is that of its tokens, unless a lexical error is found. -/
theorem listing_cases (source : Source) (options : Options) :
    (∃ d, source.tokenize = .error d ∧ source.listing options = .error d) ∨
    (options.lexOnly = false ∧ options.emitTokens = false ∧ source.listing options = .ok []) ∨
    ∃ tokens, source.tokenize = .ok tokens ∧
      source.listing options = .ok (options.listed tokens) := by
  by_cases hasked : (options.lexOnly || options.emitTokens) = true
  · cases htokens : source.tokenize with
    | error d => exact .inl ⟨d, rfl, by simp [listing, hasked, htokens, Except.map]⟩
    | ok tokens =>
        refine .inr (.inr ⟨tokens, rfl, ?_⟩)
        simp [listing, hasked, htokens, Except.map, Options.listed]
  · obtain ⟨hlex, hemit⟩ := Bool.or_eq_false_iff.mp (Bool.eq_false_iff.mpr hasked)
    exact .inr (.inl ⟨hlex, hemit, by simp [listing, hlex, hemit]⟩)

/-- A compilation that goes on after the listing ends with the document. -/
theorem outcome_of_listing (here : Path) {source : Source} {options : Options}
    {drafts : List Draft} (hlex : options.lexOnly = false)
    (hlisting : source.listing options = .ok drafts)
    (hdrafts : ∀ tokens, source.tokenize = .ok tokens → drafts = options.listed tokens) :
    Outcome here source options (source.compile here options) := by
  unfold compile
  simp only [hlisting, hlex, Bool.false_eq_true, if_false]
  cases hdocument : source.document with
  | error d => exact .unread d drafts hlex hdocument
  | ok document =>
      simp only
      split
      next hproblems => exact .invalid document drafts hlex hdocument hproblems
      next hproblems =>
          obtain ⟨tokens, htokens⟩ := exists_tokenize_of_document hdocument
          rw [hdrafts tokens htokens]
          exact .finished tokens document _ hlex htokens hdocument
            (Bool.eq_false_iff.mpr hproblems)

/-- Every compilation ends in one of the outcomes. -/
theorem outcome (here : Path) (source : Source) (options : Options) :
    Outcome here source options (source.compile here options) := by
  rcases source.listing_cases options with
    ⟨d, htokens, hlisting⟩ | ⟨hlex, hemit, hlisting⟩ | ⟨tokens, htokens, hlisting⟩
  · rw [compile, hlisting]
    exact .faulty d htokens
  · exact outcome_of_listing here hlex hlisting fun tokens _ => by simp [Options.listed, hemit]
  · cases hlex : options.lexOnly with
    | true =>
        rw [compile, hlisting]
        simp only [hlex, if_true]
        exact .scanned tokens hlex htokens
    | false =>
        refine outcome_of_listing here hlex hlisting fun other hother => ?_
        rw [htokens] at hother
        cases hother
        rfl

/-! ## Failing -/

/-- A lexical error is an error, and not a warning. -/
theorem isError_of_tokenize {source : Source} {d : Diagnostic} (h : source.tokenize = .error d) :
    d.severity = .error := by
  obtain ⟨error, -, rfl⟩ := tokenize_eq_error_iff.mp h
  rfl

/-- What keeps a source from being read is an error, and not a warning. -/
theorem isError_of_document {source : Source} {d : Diagnostic} (h : source.document = .error d) :
    d.severity = .error := by
  rw [document] at h
  cases hread : source.read with
  | ok document => simp [hread, Except.mapError] at h
  | error reason =>
      rw [hread] at h
      cases h
      cases reason <;> rfl

/-- A compilation fails if its only diagnostic is an error. -/
theorem fails_singleton {d : Diagnostic} (drafts : List Draft) (h : d.severity = .error) :
    (Compilation.failed [d] drafts).Fails := by
  simp [Compilation.Fails, Compilation.failed, Diagnostic.anyError, Diagnostic.isError, h]

namespace Outcome

variable {here : Path} {source : Source} {options : Options} {compilation : Compilation}

/-- A compilation of the tokens alone fails exactly if there is a lexical error. -/
theorem fails_lexOnly_iff (o : Outcome here source options compilation)
    (h : options.lexOnly = true) :
    compilation.Fails ↔ ¬ ∃ tokens, source.tokenize = .ok tokens := by
  cases o with
  | faulty d htokens => simp [htokens, fails_singleton [] (isError_of_tokenize htokens)]
  | scanned tokens _ htokens => simp [htokens, Compilation.Fails, Diagnostic.anyError]
  | unread _ _ hlex | invalid _ _ hlex | finished _ _ _ hlex => simp [h] at hlex

/-- A whole compilation fails exactly if there is no document without problems. -/
theorem fails_full_iff (o : Outcome here source options compilation)
    (h : options.lexOnly = false) :
    compilation.Fails ↔ ¬ ∃ document, source.document = .ok document ∧
      Diagnostic.anyError document.diagnostics = false := by
  cases o with
  | faulty d htokens =>
      obtain ⟨e, hdocument, -⟩ := document_of_tokenize_error htokens
      simp [hdocument, fails_singleton [] (isError_of_tokenize htokens)]
  | scanned _ hlex => simp [h] at hlex
  | unread d drafts _ hdocument =>
      simp [hdocument, fails_singleton drafts (isError_of_document hdocument)]
  | invalid document drafts _ hdocument hproblems =>
      simp [hdocument, hproblems, Compilation.Fails, Compilation.failed]
  | finished _ document _ _ _ hdocument hproblems =>
      simp [hdocument, hproblems, Compilation.Fails]

/-- If a compilation fails, it comes to no artifacts. -/
theorem artifacts_of_fails (o : Outcome here source options compilation)
    (h : compilation.Fails) : compilation.artifacts = [] := by
  cases o with
  | faulty | unread | invalid => rfl
  | scanned => simp [Compilation.Fails, Diagnostic.anyError] at h
  | finished _ _ _ _ _ _ hproblems => simp [Compilation.Fails, hproblems] at h

/-- A compilation without an error has scanned the tokens, or has finished. -/
theorem cases_of_not_fails (o : Outcome here source options compilation)
    (h : ¬ compilation.Fails) :
    (∃ tokens, options.lexOnly = true ∧ source.tokenize = .ok tokens ∧
      compilation.artifacts = (options.listed tokens).map (Draft.write here)) ∨
    ∃ tokens document, options.lexOnly = false ∧ source.tokenize = .ok tokens ∧
      source.document = .ok document ∧
      compilation.artifacts = (.html document.render.html options.lineEnding ::
        options.listed tokens ++ source.outline here options document).map (Draft.write here) := by
  cases o with
  | faulty d htokens => exact absurd (fails_singleton [] (isError_of_tokenize htokens)) h
  | scanned tokens hlex htokens => exact .inl ⟨tokens, hlex, htokens, rfl⟩
  | unread d drafts _ hdocument =>
      exact absurd (fails_singleton drafts (isError_of_document hdocument)) h
  | invalid _ _ _ _ hproblems => exact absurd hproblems h
  | finished tokens document _ hlex htokens hdocument _ =>
      exact .inr ⟨tokens, document, hlex, htokens, hdocument, rfl⟩

/-- Without an error the artifacts are those that are asked for. -/
theorem kinds_of_not_fails (o : Outcome here source options compilation)
    (h : ¬ compilation.Fails) : compilation.artifacts.map Artifact.kind = options.kinds := by
  rcases o.cases_of_not_fails h with
    ⟨tokens, hlex, -, hartifacts⟩ | ⟨tokens, document, hlex, -, -, hartifacts⟩
  · cases hemit : options.emitTokens <;>
      simp [hartifacts, Options.kinds, Options.listed, hlex, hemit, Draft.write, Artifact.kind]
  · cases hemit : options.emitTokens <;> cases houtline : options.emitOutline <;>
      simp [hartifacts, Options.kinds, Options.listed, outline, hlex, hemit, houtline, Draft.write,
        Artifact.kind]

/-- Without an error the page is that of the document with its lines ended as asked for. -/
theorem page_of_not_fails (o : Outcome here source options compilation)
    (h : ¬ compilation.Fails) :
    compilation.page? = if options.lexOnly then none else
      source.document.toOption.map (options.lineEnding.apply ·.render.html) := by
  rcases o.cases_of_not_fails h with
    ⟨tokens, hlex, -, hartifacts⟩ | ⟨tokens, document, hlex, -, hdocument, hartifacts⟩
  · rw [if_pos hlex, Compilation.page?, hartifacts, Options.listed]
    split <;> rfl
  · rw [if_neg (by simp [hlex]), Compilation.page?, hartifacts, hdocument]
    rfl

/-- Without an error the listing, if it is asked for, is that of the tokens. -/
theorem listing_of_not_fails (o : Outcome here source options compilation)
    (h : ¬ compilation.Fails) (hemit : options.emitTokens = true) :
    compilation.listing? = source.tokenize.toOption.map (Listing.text options.lineEnding) := by
  have hlisted (tokens : List Token) :
      options.listed tokens = [.tokens tokens options.lineEnding] := if_pos hemit
  rcases o.cases_of_not_fails h with
    ⟨tokens, -, htokens, hartifacts⟩ | ⟨tokens, document, -, htokens, -, hartifacts⟩
  · rw [Compilation.listing?, hartifacts, hlisted, htokens]
    rfl
  · rw [Compilation.listing?, hartifacts, hlisted, htokens]
    rfl

end Outcome

/-- Whether a compilation fails depends on the source and on where it is to stop, and on no other
option. -/
theorem fails_iff_of_lexOnly (here : Path) (source : Source) {options other : Options}
    (h : other.lexOnly = options.lexOnly) :
    (source.compile here other).Fails ↔ (source.compile here options).Fails := by
  have o := source.outcome here options
  have o' := source.outcome here other
  cases hlex : options.lexOnly with
  | true => rw [o.fails_lexOnly_iff hlex, o'.fails_lexOnly_iff (h.trans hlex)]
  | false => rw [o.fails_full_iff hlex, o'.fails_full_iff (h.trans hlex)]

end Source

/-- A compilation with an error hands over nothing, and otherwise exactly what is asked for. Whether
there is an error depends only on where the compilation is to stop, the page not on what else is
asked for, and the listing not even on where it is to stop. -/
theorem compile_contract (here : Path) (source : Source) (options : Options) :
    ((source.compile here options).Fails → (source.compile here options).artifacts = []) ∧
    (¬ (source.compile here options).Fails →
      (source.compile here options).artifacts.map Artifact.kind = options.kinds) ∧
    (∀ other : Options, other.lexOnly = options.lexOnly →
      ((source.compile here other).Fails ↔ (source.compile here options).Fails) ∧
      (other.lineEnding = options.lineEnding → ¬ (source.compile here options).Fails →
        (source.compile here other).page? = (source.compile here options).page?)) ∧
    (options.lexOnly = false → ¬ (source.compile here options).Fails →
      ∀ other : Options, other.lexOnly = true →
        ¬ (source.compile here other).Fails ∧
        (options.emitTokens = true → other.emitTokens = true →
          other.lineEnding = options.lineEnding →
            (source.compile here other).listing? = (source.compile here options).listing?)) := by
  have o := source.outcome here options
  refine ⟨o.artifacts_of_fails, o.kinds_of_not_fails, ?_, ?_⟩
  · intro other hlex
    have hfails := source.fails_iff_of_lexOnly here hlex
    refine ⟨hfails, fun hending h => ?_⟩
    have o' := source.outcome here other
    rw [o.page_of_not_fails h, o'.page_of_not_fails (hfails.not.mpr h), hlex, hending]
  · intro hfull h other hlex
    have o' := source.outcome here other
    have hother : ¬ (source.compile here other).Fails := by
      rw [o.fails_full_iff hfull, not_not] at h
      obtain ⟨document, hdocument, -⟩ := h
      rw [o'.fails_lexOnly_iff hlex, not_not]
      exact Source.exists_tokenize_of_document hdocument
    refine ⟨hother, fun hemit hemit' hending => ?_⟩
    rw [o.listing_of_not_fails h hemit, o'.listing_of_not_fails hother hemit', hending]

end LolMarkup
