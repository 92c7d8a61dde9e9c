import LolMarkup.Proofs.CommandLine.Arguments
import LolMarkup.Proofs.CommandLine.Frame
import LolMarkup.Proofs.Files.Resolution

/-!
# Where the page goes

With an output, a run that ends well writes the page beside the path that is given, with the
extension of pages in lower case (`Request.page_written`). That this is the path itself depends on
the extension alone, which is the same before and after the path is resolved
(`Path.extension_resolve`). An output is accepted in whatever letter case its extension is written,
so `page_at_output_iff` has an exception: the page does not go to an output that spells it
otherwise.
-/

namespace LolMarkup

namespace CommandLine

variable {here : Path} {files : FileSystem} {request : Request} {arguments : List String}

/-- A run that ends well has a page, unless it stops after the tokens. It writes the page beside its
primary path and prints where. -/
theorem Request.page_written (hlex : request.lexOnly = false)
    (hcode : (request.run here files).code = 0) :
    ∃ page, (request.compilation here files).page? = some page ∧
      (request.run here files).files.get? ((request.primary here).withExtension ".html") =
        some (.file (Text.Utf8.encode page)) ∧
      (request.run here files).stdout =
        ((request.primary here).withExtension ".html").toString ++ "\n" := by
  have hfails : ¬ (request.compilation here files).Fails := by
    intro hfails
    rw [code_run_eq_one_iff.mpr hfails] at hcode
    cases hcode
  have hframe := frame_of_not_fails hfails
  obtain ⟨source, -, hcompile⟩ := FileSystem.exists_source_of_not_fails hfails
  have hcompilation : request.compilation here files = source.compile here request.options :=
    hcompile
  rw [hcompilation] at hfails
  rcases (source.outcome here request.options).cases_of_not_fails hfails with
    ⟨-, hscanned, -⟩ | ⟨tokens, document, -, -, -, hartifacts⟩
  · rw [show request.options.lexOnly = request.lexOnly from rfl, hlex] at hscanned
    cases hscanned
  · rw [← hcompilation] at hartifacts
    refine ⟨request.options.lineEnding.apply document.render.html, ?_, ?_, ?_⟩
    · rw [Compilation.page?, hartifacts]
      rfl
    · refine hframe.written hcode (.html _) ?_
      rw [hartifacts]
      exact List.mem_cons_self
    · rw [hframe.printed hcode hlex, Path.toString_withExtension]

/-- The page goes to the path with the extension of pages, which is the path itself if that is how
its extension is written. -/
theorem withExtension_page_eq_iff {written : String} (h : Path.writtenExtension written ≠ "") :
    ((here.resolve written).withExtension ".html").toString = (here.resolve written).toString ↔
      Path.writtenExtension written = ".html" := by
  obtain ⟨-, hextension⟩ := Path.extension_resolve h here
  rw [Path.toString_withExtension, ← Path.base_append_extension (here.resolve written), hextension,
    String.append_right_inj, eq_comm]

/-- A run that is given an output and ends well without stopping after the tokens writes the page
beside the output and prints where. The page is at the output and the output is printed exactly if
the extension of the output is written in lower case. -/
theorem page_at_output_iff {written : String}
    (hrequest : Command.ofArguments arguments = .ok (.compile request))
    (houtput : (Argument.outputs arguments).getLast? = some written)
    (hlex : .lexOnly ∉ Argument.all arguments) (hcode : (run here files arguments).code = 0) :
    ∃ page, (request.compilation here files).page? = some page ∧
      ((run here files arguments).files.get? (here.resolve written) =
            some (.file (Text.Utf8.encode page)) ∧
          (run here files arguments).stdout = (here.resolve written).toString ++ "\n" ↔
        Path.writtenExtension written = ".html") ∧
      (run here files arguments).files.get? ((here.resolve written).withExtension ".html") =
        some (.file (Text.Utf8.encode page)) ∧
      (run here files arguments).stdout =
        ((here.resolve written).withExtension ".html").toString ++ "\n" := by
  rw [run_of_compile hrequest] at hcode ⊢
  have hgiven : request.output = some written := by
    rw [Request.output_eq_getLast? hrequest, houtput]
  have hprimary : request.primary here = here.resolve written := by
    rw [Request.primary, hgiven]
    rfl
  have hunflagged : request.lexOnly = false :=
    Bool.eq_false_iff.mpr fun hset => hlex ((Request.lexOnly_iff hrequest).mp hset)
  have hextension : Path.writtenExtension written ≠ "" := by
    -- an output without an extension is not accepted
    intro hnone
    have hpage := Request.isPage_output hrequest hgiven
    rw [Gathered.isPage, hnone, decide_eq_true_eq] at hpage
    have hchars := congrArg String.toList hpage
    simp [String.toList_map] at hchars
  obtain ⟨page, hpage, hfile, hstdout⟩ := Request.page_written hunflagged hcode
  rw [hprimary] at hfile hstdout
  refine ⟨page, hpage, ?_, hfile, hstdout⟩
  constructor
  · rintro ⟨-, hprinted⟩
    rw [hstdout, String.append_left_inj] at hprinted
    exact (withExtension_page_eq_iff hextension).mp hprinted
  · intro hlower
    obtain ⟨hnames, hresolved⟩ := Path.extension_resolve hextension here
    have hsame : (here.resolve written).withExtension ".html" = here.resolve written := by
      rw [← hlower, ← hresolved, Path.withExtension_extension hnames]
    rw [hsame] at hfile hstdout
    exact ⟨hfile, hstdout⟩

/-- A directory with a document in it. -/
def desk : FileSystem :=
  ⟨[(⟨["work"]⟩, .directory),
    (⟨["work", "page.lol"]⟩, .file (Text.Utf8.encode "#HAI\n#KTHXBYE"))]⟩

/-- The last output counts, and it is found through the parts that lead nowhere. -/
theorem page_at_output_iff_dotted :
    Argument.outputs ["--output=--help", "page.lol", "-o", "new/../..html/"] =
      ["--help", "new/../..html/"] ∧
    (run ⟨["work"]⟩ desk ["--output=--help", "page.lol", "-o", "new/../..html/"]).code = 0 ∧
    ∃ page,
      (run ⟨["work"]⟩ desk ["--output=--help", "page.lol", "-o", "new/../..html/"]).files.get?
        ⟨["work", "..html"]⟩ = some (.file (Text.Utf8.encode page)) ∧
      (run ⟨["work"]⟩ desk ["--output=--help", "page.lol", "-o", "new/../..html/"]).stdout =
        "/work/..html\n" := by
  have houtputs : Argument.outputs ["--output=--help", "page.lol", "-o", "new/../..html/"] =
      ["--help", "new/../..html/"] := by decide
  have hcode : (run ⟨["work"]⟩ desk
      ["--output=--help", "page.lol", "-o", "new/../..html/"]).code = 0 := by decide +kernel
  have hrequest : Command.ofArguments ["--output=--help", "page.lol", "-o", "new/../..html/"] =
      .ok (.compile ⟨"page.lol", some "new/../..html/", false, false, false⟩) := by decide +kernel
  obtain ⟨page, -, hiff, -⟩ := page_at_output_iff hrequest (by rw [houtputs]; rfl) (by decide) hcode
  exact ⟨houtputs, hcode, page, hiff.mpr (by decide)⟩

/-- An output in capital letters is accepted, but the page does not go there. -/
theorem page_beside_capital_output :
    (run ⟨["work"]⟩ desk ["-o", "page.HTML", "page.lol"]).code = 0 ∧
    (run ⟨["work"]⟩ desk ["-o", "page.HTML", "page.lol"]).stdout = "/work/page.html\n" ∧
    (run ⟨["work"]⟩ desk ["-o", "page.HTML", "page.lol"]).files.get?
      ((⟨["work"]⟩ : Path).resolve "page.HTML") = none := by
  decide +kernel

end CommandLine

end LolMarkup
