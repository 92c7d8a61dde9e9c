import LolMarkup.Proofs.CommandLine.Frame
import LolMarkup.Proofs.Reading.Placement
import LolMarkup.Proofs.Scoping.Agreement

/-!
# The order of diagnostics

The parts of a document start one after another in document order (`Part.Row.ascending`), and the
problems of a document are met in that order (`Document.problems_sublist`). The diagnostics of a
compilation are therefore in the order of the source (`Diagnostic.InSourceOrder`): they name one
file, and each is placed before the next. Sorting them for printing changes nothing, whatever way of
comparing texts is used, so that a run prints them as the walk over the document met them
(`diagnostics_in_source_order`).
-/

namespace LolMarkup

/-! ## Parts in document order -/

namespace Part

variable {source : Source}

/-- Parts that start one after another between two offsets. -/
structure Ascending (low high : Int) (parts : List Part) : Prop where
  within : ∀ part ∈ parts, low ≤ part.span.start.offset ∧ part.span.start.offset < high
  pairwise : parts.Pairwise fun first second => first.span.start.offset < second.span.start.offset

/-- Parts that ascend up to an offset and parts that ascend from there on ascend together. -/
theorem Ascending.append {low middle high : Int} {first second : List Part}
    (hfirst : Ascending low middle first) (hsecond : Ascending middle high second)
    (hlow : low ≤ middle) (hhigh : middle ≤ high) : Ascending low high (first ++ second) := by
  constructor
  · intro part hpart
    rcases List.mem_append.mp hpart with hpart | hpart
    · have hwithin := hfirst.within part hpart
      omega
    · have hwithin := hsecond.within part hpart
      omega
  · refine List.pairwise_append.mpr ⟨hfirst.pairwise, hsecond.pairwise, ?_⟩
    intro one hone other hother
    have hbefore := hfirst.within one hone
    have hafter := hsecond.within other hother
    omega

/-- The children of a part are a row behind its start. -/
theorem Placed.row {part : Part} (h : part.Placed source)
    (hinside : ∀ inner ∈ Part.preorderAll part.children, inner.Placed source) :
    Row source (part.span.start.offset + 1) part.span.stop.offset part.children where
  le := by
    have hbounds := h.bounds
    omega
  placed := hinside
  within := by
    intro child hchild
    have hwithin := h.within child hchild
    omega
  apart := h.apart

/-- Behind the first part of a row the others are a row. -/
theorem Row.tail {low high : Int} {part : Part} {rest : List Part}
    (h : Row source low high (part :: rest)) :
    Row source part.span.stop.offset high rest where
  le := (h.within part List.mem_cons_self).2
  placed := fun inner hinner => h.placed inner (List.mem_append_right _ hinner)
  within := fun other hother =>
    ⟨List.rel_of_pairwise_cons h.apart hother, (h.within other (List.mem_cons_of_mem _ hother)).2⟩
  apart := h.apart.of_cons

mutual

/-- A part and the parts within it start one after another. -/
theorem ascending_preorder (part : Part) (h : ∀ inner ∈ part.preorder, inner.Placed source) :
    Ascending part.span.start.offset part.span.stop.offset part.preorder := by
  match part with
  | ⟨frame, own, span, children⟩ =>
      have hself := h _ List.mem_cons_self
      have hinside : ∀ inner ∈ Part.preorderAll children, inner.Placed source :=
        fun inner hinner => h inner (List.mem_cons_of_mem _ hinner)
      have hchildren := Row.ascending children (hself.row hinside)
      have hbounds : _ ∧ span.start.offset < span.stop.offset ∧ _ := hself.bounds
      have hbehind (inner : Part) (hinner : inner ∈ Part.preorderAll children) :
          span.start.offset < inner.span.start.offset ∧
            inner.span.start.offset < span.stop.offset := by
        obtain ⟨hlow, hhigh⟩ := hchildren.within inner hinner
        exact ⟨Int.lt_of_add_one_le hlow, hhigh⟩
      constructor
      · intro inner hinner
        show span.start.offset ≤ _ ∧ _ < span.stop.offset
        rcases List.mem_cons.mp hinner with rfl | hinner
        · exact ⟨le_rfl, hbounds.2.1⟩
        · have hinner := hbehind inner hinner
          omega
      · exact List.pairwise_cons.mpr
          ⟨fun inner hinner => (hbehind inner hinner).1, hchildren.pairwise⟩

/-- The parts of a row and the parts within them start one after another. -/
theorem Row.ascending {low high : Int} (parts : List Part) (h : Row source low high parts) :
    Ascending low high (Part.preorderAll parts) := by
  match parts with
  | [] => exact ⟨List.forall_mem_nil _, .nil⟩
  | part :: rest =>
      -- All that is in the first part starts before its end, and the others start from there on.
      have hfirst := ascending_preorder part fun inner hinner =>
        h.placed inner (List.mem_append_left _ hinner)
      have hrest := Row.ascending rest h.tail
      have hwithin := h.within part List.mem_cons_self
      have hbounds := (h.placed part (List.mem_append_left _ (by
        rw [part.preorder_eq]
        exact List.mem_cons_self))).bounds
      have hlow : Ascending low part.span.stop.offset part.preorder := by
        refine ⟨?_, hfirst.pairwise⟩
        intro inner hinner
        have hinner := hfirst.within inner hinner
        omega
      exact hlow.append hrest (by omega) hwithin.2

end

end Part

/-! ## Problems in document order -/

/-- The problems of a piece are about parts of it, in their order. -/
theorem Inline.problems_sublist (scopes : Scopes) (piece : Inline) :
    ((piece.render scopes).problems.map Problem.span).Sublist
      (piece.part.preorder.map Part.span) := by
  cases piece with
  | text span content => exact List.nil_sublist _
  | reference span name =>
      rw [Inline.render]
      split
      · exact List.nil_sublist _
      · exact List.Sublist.refl _
      · exact List.Sublist.refl _

/-- The problems of a run are about parts of it, in their order. -/
theorem Inline.problems_sublist_run (scopes : Scopes) (run : List Inline) :
    ((Inline.renderRun scopes run).problems.map Problem.span).Sublist
      ((Part.preorderAll (run.map Inline.part)).map Part.span) := by
  induction run with
  | nil => exact List.nil_sublist _
  | cons piece run ih =>
      rw [renderRun_cons, Rendering.problems_append, List.map_append, List.map_cons,
        Part.preorderAll, List.map_append]
      exact (piece.problems_sublist scopes).append ih

mutual

/-- The problems of a node are about parts of it, in their order. -/
theorem Node.problems_sublist (scopes : Scopes) (node : Node) :
    ((node.render scopes).2.problems.map Problem.span).Sublist
      (node.part.preorder.map Part.span) := by
  cases node with
  | head | list | lineBreak | media =>
      rw [Node.render]
      exact List.nil_sublist _
  | paragraf span children =>
      rw [Node.render_paragraf]
      exact (Node.problems_sublist_all scopes.push children).cons span
  | declaration span name =>
      rw [Node.render]
      split
      · exact List.nil_sublist _
      · exact List.Sublist.refl _
  | assignment span name value =>
      cases name with
      | none =>
          rw [Node.render]
          exact List.nil_sublist _
      | some name =>
          rw [Node.render]
          split
          · exact List.nil_sublist _
          · exact List.Sublist.refl _
  | inline piece =>
      rw [Node.render]
      exact piece.problems_sublist scopes
  | emphasis span style children =>
      rw [Node.render]
      exact (Inline.problems_sublist_run scopes children).cons span

/-- The problems of nodes are about parts of them, in their order. -/
theorem Node.problems_sublist_all (scopes : Scopes) (nodes : List Node) :
    ((Node.renderAll scopes nodes).2.problems.map Problem.span).Sublist
      ((Part.preorderAll (Node.partAll nodes)).map Part.span) := by
  cases nodes with
  | nil =>
      rw [Node.renderAll]
      exact List.nil_sublist _
  | cons node rest =>
      rw [Node.renderAll_cons, Rendering.problems_append, List.map_append, Node.partAll,
        Part.preorderAll, List.map_append]
      exact (Node.problems_sublist scopes node).append (Node.problems_sublist_all _ rest)

end

/-- The problems of a document are at parts of it, in document order. -/
theorem Document.problems_sublist (document : Document) :
    (document.render.problems.map Problem.span).Sublist
      (document.part.preorder.map Part.span) :=
  (Node.problems_sublist_all .initial document.children).cons document.span

/-- The parts of a document that is read come one after another by line and column. -/
theorem Source.pairwise_preorder {source : Source} {document : Document}
    (h : source.document = .ok document) :
    (document.part.preorder.map Part.span).Pairwise fun one other =>
      one.start.Before other.start := by
  have hrow := Source.row_of_document h
  have hascending := (Part.Row.ascending _ hrow).pairwise
  have hplaced := hrow.placed
  rw [Part.preorderAll_singleton] at hascending hplaced
  rw [List.pairwise_map]
  exact hascending.imp_of_mem fun hone hother hlt =>
    (hplaced _ hone).start.before (hplaced _ hother).start hlt

namespace Diagnostic

/-! ## Diagnostics in source order -/

/-- A diagnostic is placed before another one, by line and then by column. -/
def Precedes (a b : Diagnostic) : Prop :=
  ∃ line column line' column', a.line = some line ∧ a.column = some column ∧
    b.line = some line' ∧ b.column = some column' ∧
    (line < line' ∨ line = line' ∧ column < column')

/-- Diagnostics that concern one file, each of them placed before those that follow. -/
structure InSourceOrder (file : String) (ds : List Diagnostic) : Prop where
  file : ∀ d ∈ ds, d.file = file
  located : 1 < ds.length → ∀ d ∈ ds, ∃ line column, d.line = some line ∧ d.column = some column
  ascending : ds.Pairwise Precedes

/-- The order in which diagnostics are printed, with texts compared in a given way. -/
def orderBy (collate : String → String → Ordering) (a b : Diagnostic) : Ordering :=
  (collate a.fileKey b.fileKey).then <|
    compareCoordinate a.line b.line <| compareCoordinate a.column b.column <|
      (compare a.severity.rank b.severity.rank).then <|
        (collate a.code.id b.code.id).then (collate a.message b.message)

/-- The order in which diagnostics are printed compares texts character by character. -/
theorem order_eq_orderBy : order = orderBy compare := rfl

/-- Of two diagnostics of one file the one that is placed first is printed first, however texts are
compared. -/
theorem Precedes.orderBy {collate : String → String → Ordering} (hcollate : ∀ s, collate s s = .eq)
    {a b : Diagnostic} (hfile : a.file = b.file) (h : a.Precedes b) :
    Diagnostic.orderBy collate a b = .lt := by
  obtain ⟨line, column, line', column', hline, hcolumn, hline', hcolumn', hbefore⟩ := h
  have hkey : collate a.fileKey b.fileKey = .eq := by rw [fileKey, hfile]; exact hcollate _
  rw [Diagnostic.orderBy, hkey, hline, hline', hcolumn, hcolumn']
  rcases hbefore with hlt | ⟨rfl, hlt⟩
  · rw [compareCoordinate, compare_lt_iff_lt.mpr hlt]
    rfl
  · rw [compareCoordinate, compareCoordinate, compare_eq_iff_eq.mpr rfl,
      compare_lt_iff_lt.mpr hlt]
    rfl

namespace InSourceOrder

variable {file : String} {ds : List Diagnostic}

/-- No diagnostics at all are in source order. -/
theorem nil : InSourceOrder file [] where
  file := List.forall_mem_nil _
  located := fun _ => List.forall_mem_nil _
  ascending := .nil

/-- A single diagnostic about a file is in source order. -/
theorem singleton {d : Diagnostic} (h : d.file = file) : InSourceOrder file [d] where
  file := by simpa using h
  located := fun hlength => absurd hlength (lt_irrefl 1)
  ascending := List.pairwise_singleton _ _

/-- Sorting diagnostics that are in source order changes nothing. -/
theorem mergeSort_eq (h : InSourceOrder file ds) {collate : String → String → Ordering}
    (hcollate : ∀ s, collate s s = .eq) :
    ds.mergeSort (fun a b => (orderBy collate a b).isLE) = ds := by
  refine List.mergeSort_of_pairwise (h.ascending.imp_of_mem ?_)
  intro a b ha hb hprecedes
  rw [hprecedes.orderBy hcollate ((h.file a ha).trans (h.file b hb).symm)]
  rfl

/-- Diagnostics that are in source order are not moved when they are sorted. -/
theorem sorted_eq (h : InSourceOrder file ds) : Diagnostic.sorted ds = ds := by
  rw [sorted, order_eq_orderBy]
  exact h.mergeSort_eq fun _ => compare_eq_iff_eq.mpr rfl

end InSourceOrder

end Diagnostic

open Diagnostic

/-- The diagnostics of a document that is read are in source order. -/
theorem Source.inSourceOrder_of_document {source : Source} {document : Document}
    (h : source.document = .ok document) : InSourceOrder source.path document.diagnostics := by
  have hproblems := document.problems_sublist
  have hplaced := (Source.row_of_document h).placed
  rw [Part.preorderAll_singleton] at hplaced
  refine ⟨?_, ?_, ?_⟩
  · intro d hd
    obtain ⟨problem, hproblem, rfl⟩ := List.mem_map.mp hd
    obtain ⟨part, hpart, hspan⟩ :=
      List.mem_map.mp (hproblems.subset (List.mem_map_of_mem hproblem))
    show problem.span.file = source.path
    rw [← hspan, (hplaced part hpart).file]
  · intro _ d hd
    obtain ⟨problem, -, rfl⟩ := List.mem_map.mp hd
    exact ⟨_, _, rfl, rfl⟩
  · have hbefore := (Source.pairwise_preorder h).sublist hproblems
    rw [List.pairwise_map] at hbefore
    rw [Document.diagnostics, List.pairwise_map]
    exact hbefore.imp fun hbefore => ⟨_, _, _, _, rfl, rfl, rfl, rfl, hbefore⟩

namespace Source

variable {source : Source} {d : Diagnostic}

/-- A lexical error is about the source in which it is found. -/
theorem file_of_tokenize (h : source.tokenize = .error d) : d.file = source.path := by
  obtain ⟨error, -, rfl⟩ := tokenize_eq_error_iff.mp h
  rfl

/-- An error of the document is about the source in which it is found. -/
theorem file_of_document (h : source.document = .error d) : d.file = source.path := by
  rw [document] at h
  cases hread : source.read with
  | ok document => simp [hread, Except.mapError] at h
  | error reason =>
      rw [hread] at h
      cases h
      cases reason <;> rfl

namespace Outcome

variable {here : Path} {options : Options} {compilation : Compilation}

/-- The diagnostics of a compilation are in source order. -/
theorem inSourceOrder (o : Outcome here source options compilation) :
    InSourceOrder source.path compilation.diagnostics := by
  cases o with
  | faulty d htokens => exact .singleton (file_of_tokenize htokens)
  | scanned => exact .nil
  | unread d _ _ hdocument => exact .singleton (file_of_document hdocument)
  | invalid _ _ _ hdocument | finished _ _ _ _ _ hdocument =>
      exact inSourceOrder_of_document hdocument

/-- A whole compilation of a document diagnoses the problems of the document. -/
theorem diagnostics_of_document (o : Outcome here source options compilation)
    (hlex : options.lexOnly = false) {document : Document} (h : source.document = .ok document) :
    compilation.diagnostics = document.diagnostics := by
  cases o with
  | faulty d htokens =>
      obtain ⟨tokens, hok⟩ := exists_tokenize_of_document h
      rw [htokens] at hok
      cases hok
  | scanned _ htrue =>
      rw [hlex] at htrue
      cases htrue
  | unread d _ _ hdocument =>
      rw [h] at hdocument
      cases hdocument
  | invalid other _ _ hdocument | finished _ other _ _ _ hdocument =>
      rw [h] at hdocument
      cases hdocument
      rfl

/-- Everything that a compilation diagnoses is an error. -/
theorem diagnostics_of_not_fails (o : Outcome here source options compilation)
    (h : ¬ compilation.Fails) : compilation.diagnostics = [] := by
  cases o with
  | faulty d htokens => exact absurd (fails_singleton [] (isError_of_tokenize htokens)) h
  | scanned => rfl
  | unread d drafts _ hdocument =>
      exact absurd (fails_singleton drafts (isError_of_document hdocument)) h
  | invalid _ _ _ _ hproblems => exact absurd hproblems h
  | finished _ document _ _ _ _ hproblems =>
      show document.diagnostics = []
      rw [List.eq_nil_iff_forall_not_mem]
      intro d hd
      have hnot := List.any_eq_false.mp hproblems d hd
      obtain ⟨problem, -, rfl⟩ := List.mem_map.mp hd
      exact hnot rfl

end Outcome

end Source

/-- The diagnostics of a compilation are in source order. -/
theorem FileSystem.inSourceOrder (files : FileSystem) (here : Path) (entry : String)
    (options : Options) :
    InSourceOrder (here.resolve entry).toString
      (files.compile here entry options).diagnostics := by
  unfold compile
  cases hsource : files.entrySource (here.resolve entry) with
  | error e => exact .singleton rfl
  | ok source =>
      have hpath : source.path = (here.resolve entry).toString := by
        unfold entrySource at hsource
        split at hsource
        · cases hsource
        · split at hsource
          · cases hsource
          · cases hsource
            rfl
      rw [← hpath]
      exact (source.outcome here options).inSourceOrder

namespace CommandLine

namespace Request

variable {here : Path} {files : FileSystem} {request : Request}

/-- How a run reports the compilation that it was asked for. -/
structure Reports (here : Path) (files : FileSystem) (request : Request) (outcome : Outcome) :
    Prop where
  /-- Sorting the diagnostics changes nothing, however texts are compared. -/
  sorted : ∀ collate : String → String → Ordering, (∀ s, collate s s = .eq) →
    (request.compilation here files).diagnostics.mergeSort
      (fun a b => (Diagnostic.orderBy collate a b).isLE) =
        (request.compilation here files).diagnostics
  /-- The diagnostics are printed as they are, one per line. -/
  printed : outcome.code ≠ 2 → outcome.stderr =
    String.join ((request.compilation here files).diagnostics.map (·.format ++ "\n"))
  /-- Where there is a diagnostic, nothing is written that could go wrong. -/
  stopped : (request.compilation here files).diagnostics ≠ [] → outcome.code = 1

/-- Unless it ends with code 2, a run tells its diagnostics and nothing else. -/
theorem stderr_run (h : (request.run here files).code ≠ 2) :
    (request.run here files).stderr =
      report (request.compilation here files).diagnostics := by
  unfold run at h ⊢
  simp only at h ⊢
  split
  · rfl
  next hfails =>
      rw [if_neg hfails] at h
      split
      · rfl
      next written e hpublish =>
          rw [hpublish] at h
          exact absurd rfl h

/-- Carrying out a request reports its compilation. -/
theorem reports_run (here : Path) (files : FileSystem) (request : Request) :
    request.Reports here files (request.run here files) := by
  have horder := files.inSourceOrder here request.entry request.options
  refine ⟨fun collate hcollate => horder.mergeSort_eq hcollate, ?_, ?_⟩
  · intro hcode
    rw [stderr_run hcode, report]
    exact congrArg (fun ds => String.join (List.map _ ds)) horder.sorted_eq
  · intro hsome
    by_contra hcode
    have hfails : ¬ (request.compilation here files).Fails := code_run_eq_one_iff.not.mp hcode
    obtain ⟨source, -, hcompile⟩ := FileSystem.exists_source_of_not_fails hfails
    rw [compilation, hcompile] at hfails hsome
    exact hsome ((source.outcome here request.options).diagnostics_of_not_fails hfails)

end Request

end CommandLine

open CommandLine

/-- The diagnostics of every compilation are in source order, and those of a document are at its
parts as the walk over it meets them. A run prints them in this order. -/
theorem diagnostics_in_source_order (here : Path) :
    (∀ (source : Source) (options : Options),
      InSourceOrder source.path (source.compile here options).diagnostics ∧
      (options.lexOnly = false → ∀ document, source.document = .ok document →
        (source.compile here options).diagnostics =
          document.render.problems.map Problem.diagnostic ∧
        (document.render.problems.map Problem.span).Sublist
          (document.part.preorder.map Part.span))) ∧
    (∀ (files : FileSystem) (entry : String) (options : Options),
      InSourceOrder (here.resolve entry).toString
        (files.compile here entry options).diagnostics) ∧
    (∀ (files : FileSystem) (arguments : List String) (request : Request),
      Command.ofArguments arguments = .ok (.compile request) →
      request.Reports here files (run here files arguments)) := by
  refine ⟨?_, ?_, ?_⟩
  · intro source options
    have o := source.outcome here options
    exact ⟨o.inSourceOrder, fun hlex document hdocument =>
      ⟨o.diagnostics_of_document hlex hdocument, document.problems_sublist⟩⟩
  · intro files entry options
    exact files.inSourceOrder here entry options
  · intro files arguments request harguments
    rw [run_of_compile harguments]
    exact request.reports_run here files

end LolMarkup
