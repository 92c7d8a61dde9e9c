import LolMarkup.Proofs.Scoping.Brackets
import LolMarkup.Proofs.Scoping.Slots
import LolMarkup.Proofs.Scoping.Visits

/-!
# Removing a section

A section may declare, hide and assign names at any depth. If it assigns only to names that it has
declared itself (`Node.SelfContained`), it leaves the scopes around it as they are
(`Node.render_section_fst`): rendered alone it meets no assignment that is rejected, and therefore
no assignment in it ever looks at the scopes around it (`Node.render_around`). A `Context` is a
document with a hole for nodes, and rendering what fills the hole splits into what comes before the
hole, what is in it and what comes after it (`Context.renderAll_fill`). `removed_section` is the
consequence: the page and the diagnostics without the section are those with it, less what the
section adds.
-/

namespace LolMarkup

open Scoping

/-! ## Sections that keep to their own names -/

/-- The nodes that are sections. -/
def Node.IsSection : Node → Prop
  | .head _ _ | .paragraf _ _ | .list _ _ => True
  | _ => False

/-- Every assignment in a node comes after a declaration of its name in the node, and the nearest
scope of the declaration is around the assignment. The sites are those of the node alone in a
document. If the node is a section, the nearest scope of a declaration in it is the node itself or a
section within it. -/
def Node.SelfContained (node : Node) : Prop :=
  ∀ earlier site later name value,
    (Document.mk node.span [node]).sites = earlier ++ site :: later →
    site.use = .assigns name value →
      ∃ declaration ∈ earlier, declaration.use = .declares name ∧
        ∃ scope ∈ site.scopes, declaration.scopes.head? = some scope

/-- No problem is an assignment that was rejected. -/
def AllAssigned (problems : List Problem) : Prop :=
  ∀ problem ∈ problems, problem.fault ≠ .assignedUndeclared

/-- An assignment that is rejected has no declaration before it in the scopes around it. -/
theorem Scoping.Site.of_assignedUndeclared {past : List Site} {site : Site}
    (h : site.fault? past = some .assignedUndeclared) :
    ∃ name value, site.use = .assigns name value ∧ holder? past site.scopes name = none := by
  unfold fault? at h
  split at h
  · split at h <;> cases h
  · next name value huse =>
      split at h
      · next hnone => exact ⟨name, value, huse, Option.isNone_iff_eq_none.mp hnone⟩
      · cases h
  · split at h
    · split at h
      · cases h
      · split at h <;> cases h
    · cases h

/-- Rendered alone, a self-contained node has no assignment that is rejected. -/
theorem Node.SelfContained.allAssigned {node : Node} (h : node.SelfContained) :
    AllAssigned (Node.render .initial node).2.problems := by
  have hproblems : (Node.render .initial node).2.problems =
      (Document.mk node.span [node]).problems := by
    rw [← Document.problems_render, Document.render, Node.renderAll_cons, Node.renderAll]
    exact (List.append_nil _).symm
  intro problem hproblem hfault
  rw [hproblems] at hproblem
  obtain ⟨site, hsite, hfound⟩ := List.mem_filterMap.mp hproblem
  obtain ⟨earlier, later, hsplit⟩ := List.append_of_mem hsite
  rw [Document.past_of_sites hsplit] at hfound
  obtain ⟨fault, hfault?, rfl⟩ := Option.map_eq_some_iff.mp hfound
  obtain rfl : fault = .assignedUndeclared := hfault
  obtain ⟨name, value, huse, hholder⟩ := Site.of_assignedUndeclared hfault?
  obtain ⟨declaration, hearlier, hdeclares, scope, hscope, hnearest⟩ :=
    h earlier site later name value hsplit huse
  refine List.find?_eq_none.mp hholder scope hscope ?_
  exact List.any_eq_true.mpr
    ⟨declaration, List.mem_reverse.mpr hearlier, decide_eq_true ⟨hdeclares, hnearest⟩⟩

/-! ## The scopes around a section -/

mutual

/-- Suppose that a node is rendered within some scopes of the list, with nothing declared around
them, and no assignment is rejected. Then it changes only these scopes, whatever is around them. -/
theorem Node.render_around {inner : List Scope} (hinner : inner ≠ []) (node : Node)
    (h : AllAssigned (Node.render (Scopes.initial.around inner) node).2.problems) :
    ∃ left : List Scope, left.length = inner.length ∧
      ∀ outer : Scopes, (Node.render (outer.around inner) node).1 = outer.around left := by
  cases node with
  | paragraf span children =>
      rw [Node.render_paragraf] at h
      obtain ⟨left, hlength, hleft⟩ :=
        Node.renderAll_around (List.cons_ne_nil Scope.empty inner) children h
      obtain ⟨scope, rest, rfl⟩ := List.exists_cons_of_length_eq_add_one hlength
      refine ⟨rest, Nat.succ.inj hlength, fun outer => ?_⟩
      rw [Node.render_paragraf]
      exact congrArg Scopes.pop (hleft outer)
  | declaration span name =>
      obtain ⟨scope, rest, rfl⟩ := List.exists_cons_of_ne_nil hinner
      obtain ⟨declared, hdeclared⟩ := Scopes.declare?_around scope rest name
      refine ⟨declared :: rest, rfl, fun outer => ?_⟩
      rw [render_declaration_fst, hdeclared outer]
  | assignment span name value =>
      cases name with
      | none => exact ⟨inner, rfl, fun _ => rfl⟩
      | some name =>
          by_cases hdeclares : ∃ scope ∈ inner, scope.declares name = true
          · obtain ⟨assigned, hlength, hassigned⟩ :=
              Scopes.assign?_around_of_declares value hdeclares
            refine ⟨assigned, hlength, fun outer => ?_⟩
            rw [render_assignment_fst, hassigned outer, Option.getD_some]
          · -- Nothing is declared around the list, so the assignment would be rejected.
            have hnone : (Scopes.initial.around inner).assign? name value = none := by
              rw [Scopes.assign?_around _ value (by simpa using hdeclares)]
              rfl
            rw [Node.render, hnone] at h
            exact absurd rfl (h _ List.mem_cons_self)
  | _ => exact ⟨inner, rfl, fun _ => rfl⟩

/-- The same of nodes that follow one another. -/
theorem Node.renderAll_around {inner : List Scope} (hinner : inner ≠ []) (nodes : List Node)
    (h : AllAssigned (Node.renderAll (Scopes.initial.around inner) nodes).2.problems) :
    ∃ left : List Scope, left.length = inner.length ∧
      ∀ outer : Scopes, (Node.renderAll (outer.around inner) nodes).1 = outer.around left := by
  cases nodes with
  | nil => exact ⟨inner, rfl, fun _ => rfl⟩
  | cons node rest =>
      rw [Node.renderAll_cons, Rendering.problems_append] at h
      obtain ⟨next, hnext, hfirst⟩ := Node.render_around hinner node
        fun problem hproblem => h problem (List.mem_append_left _ hproblem)
      rw [hfirst] at h
      have hne : next ≠ [] := List.ne_nil_of_length_pos (hnext ▸ List.length_pos_iff.mpr hinner)
      obtain ⟨left, hlength, hleft⟩ := Node.renderAll_around hne rest
        fun problem hproblem => h problem (List.mem_append_right _ hproblem)
      refine ⟨left, hlength.trans hnext, fun outer => ?_⟩
      rw [Node.renderAll_cons, hfirst outer, hleft outer]

end

/-- A self-contained section leaves the scopes as it finds them. -/
theorem Node.render_section_fst {node : Node} (hsection : node.IsSection)
    (hcontained : node.SelfContained) (scopes : Scopes) : (Node.render scopes node).1 = scopes := by
  cases node with
  | paragraf span children =>
      have hassigned := hcontained.allAssigned
      rw [Node.render_paragraf] at hassigned
      obtain ⟨left, hlength, hleft⟩ :=
        Node.renderAll_around (List.cons_ne_nil Scope.empty []) children hassigned
      obtain ⟨scope, rfl⟩ := List.length_eq_one_iff.mp hlength
      rw [Node.render_paragraf]
      exact congrArg Scopes.pop (hleft scopes)
  | head | list => rfl
  | _ => exact hsection.elim

/-! ## Documents with a hole -/

/-- Nodes that follow one another with a hole between two of them, or within a paragraf among
them. -/
inductive Context where
  | here (before after : List Node)
  | inside (before : List Node) (span : Span) (inner : Context) (after : List Node)

namespace Rendering

/-- Renderings can be put together in any grouping. -/
theorem append_assoc (first second third : Rendering) :
    first ++ second ++ third = first ++ (second ++ third) :=
  congrArg₂ Rendering.mk String.append_assoc (List.append_assoc _ _ _)

/-- Nothing in front adds nothing. -/
theorem empty_append (rendering : Rendering) : empty ++ rendering = rendering :=
  congrArg₂ Rendering.mk String.empty_append (List.nil_append _)

/-- Nothing behind adds nothing. -/
theorem append_empty (rendering : Rendering) : rendering ++ empty = rendering :=
  congrArg₂ Rendering.mk String.append_empty (List.append_nil _)

/-- A paragraph is its content between two tags. -/
theorem within_paragraph (content : Rendering) :
    content.within Html.paragraph = ofHtml (Html.Frame.block "p").opening ++ content ++
      ofHtml (Html.Frame.block "p").closing :=
  congrArg₂ Rendering.mk (Html.blockElement_eq "p" content.html) (List.append_nil _).symm

end Rendering

/-- Nodes are rendered before those that follow them, and these in the scopes they leave. -/
theorem Node.renderAll_append (scopes : Scopes) (nodes rest : List Node) :
    Node.renderAll scopes (nodes ++ rest) =
      ((Node.renderAll (Node.renderAll scopes nodes).1 rest).1,
        (Node.renderAll scopes nodes).2 ++
          (Node.renderAll (Node.renderAll scopes nodes).1 rest).2) := by
  induction nodes generalizing scopes with
  | nil => rw [List.nil_append, Node.renderAll, Rendering.empty_append]
  | cons node nodes ih =>
      rw [List.cons_append, Node.renderAll_cons, ih, Node.renderAll_cons, Rendering.append_assoc]

namespace Context

/-- The nodes with others in the hole. -/
def fill (nodes : List Node) : Context → List Node
  | here before after => before ++ nodes ++ after
  | inside before span inner after => before ++ .paragraf span (inner.fill nodes) :: after

/-- The scopes in which the walk comes to the hole. -/
def scopes (outer : Scopes) : Context → Scopes
  | here before _ => (Node.renderAll outer before).1
  | inside before _ inner _ => inner.scopes (Node.renderAll outer before).1.push

/-- What is rendered before the hole. -/
def before (outer : Scopes) : Context → Rendering
  | here before _ => (Node.renderAll outer before).2
  | inside before _ inner _ =>
      (Node.renderAll outer before).2 ++ .ofHtml (Html.Frame.block "p").opening ++
        inner.before (Node.renderAll outer before).1.push

/-- The scopes behind all the nodes, given those that the hole leaves. -/
def left (behind : Scopes) : Context → Scopes
  | here _ after => (Node.renderAll behind after).1
  | inside _ _ inner after => (Node.renderAll (inner.left behind).pop after).1

/-- What is rendered after the hole, given the scopes that it leaves. -/
def after (behind : Scopes) : Context → Rendering
  | here _ after => (Node.renderAll behind after).2
  | inside _ _ inner after =>
      inner.after behind ++ .ofHtml (Html.Frame.block "p").closing ++
        (Node.renderAll (inner.left behind).pop after).2

/-- Rendering splits at the hole. What comes after it depends on what is in it only through the
scopes that are left. -/
theorem renderAll_fill (context : Context) (outer : Scopes) (nodes : List Node) :
    Node.renderAll outer (context.fill nodes) =
      (context.left (Node.renderAll (context.scopes outer) nodes).1,
        context.before outer ++ (Node.renderAll (context.scopes outer) nodes).2 ++
          context.after (Node.renderAll (context.scopes outer) nodes).1) := by
  induction context generalizing outer with
  | here before after =>
      rw [fill, List.append_assoc, Node.renderAll_append, Node.renderAll_append,
        ← Rendering.append_assoc]
      rfl
  | inside before span inner after ih =>
      rw [fill, Node.renderAll_append, Node.renderAll_cons, Node.render_paragraf, ih,
        Rendering.within_paragraph]
      simp only [scopes, left, Context.before, Context.after, Rendering.append_assoc]

/-- The same hole with one node more before it. -/
theorem exists_fill_cons (first : Node) (context : Context) :
    ∃ next : Context, ∀ nodes, next.fill nodes = first :: context.fill nodes := by
  cases context with
  | here before after => exact ⟨.here (first :: before) after, fun _ => rfl⟩
  | inside before span inner after =>
      exact ⟨.inside (first :: before) span inner after, fun _ => rfl⟩

mutual

/-- A node of a tree is the root, or it stands in a hole of the paragraf that is the root. -/
theorem eq_or_inside_of_mem_preorder {node : Node} (root : Node) (h : node ∈ root.preorder) :
    root = node ∨ ∃ span, ∃ inner : Context, root = .paragraf span (inner.fill [node]) := by
  cases root with
  | paragraf span children =>
      rw [Node.preorder, List.mem_cons] at h
      rcases h with rfl | hchild
      · exact .inl rfl
      · obtain ⟨inner, hinner⟩ := exists_of_mem_preorderAll children hchild
        exact .inr ⟨span, inner, by rw [hinner]⟩
  | _ => exact .inl (List.mem_singleton.mp h).symm

/-- Every node of a document fills a hole in it. -/
theorem exists_of_mem_preorderAll {node : Node} (nodes : List Node)
    (h : node ∈ Node.preorderAll nodes) : ∃ context : Context, nodes = context.fill [node] := by
  cases nodes with
  | nil => cases h
  | cons first rest =>
      rw [Node.preorderAll, List.mem_append] at h
      rcases h with hfirst | hrest
      · rcases eq_or_inside_of_mem_preorder first hfirst with rfl | ⟨span, inner, rfl⟩
        · exact ⟨.here [] rest, rfl⟩
        · exact ⟨.inside [] span inner rest, rfl⟩
      · obtain ⟨context, hcontext⟩ := exists_of_mem_preorderAll rest hrest
        obtain ⟨next, hnext⟩ := exists_fill_cons first context
        exact ⟨next, by rw [hnext, hcontext]⟩

end

end Context

/-! ## Where the walk stops -/

mutual

/-- The nodes other than paragrafs that the walk comes to in a node, each with the scopes that it
has there. They decide what is rendered and reported for them. -/
def Node.stops (scopes : Scopes) : Node → List (Scopes × Node)
  | .paragraf _ children => Node.stopsAll scopes.push children
  | node => [(scopes, node)]

/-- The same of nodes that follow one another. -/
def Node.stopsAll (scopes : Scopes) : List Node → List (Scopes × Node)
  | [] => []
  | node :: rest => node.stops scopes ++ Node.stopsAll (Node.render scopes node).1 rest

end

/-- The stops at nodes come before those at the nodes that follow them. -/
theorem Node.stopsAll_append (scopes : Scopes) (nodes rest : List Node) :
    Node.stopsAll scopes (nodes ++ rest) =
      Node.stopsAll scopes nodes ++ Node.stopsAll (Node.renderAll scopes nodes).1 rest := by
  induction nodes generalizing scopes with
  | nil => rfl
  | cons node nodes ih =>
      rw [List.cons_append, Node.stopsAll, ih, Node.stopsAll, Node.renderAll_cons,
        List.append_assoc]

/-- The walk stops outside the hole at the same nodes in the same scopes, if what is in the hole
leaves the scopes as they are. -/
theorem Context.stopsAll_fill (context : Context) (outer : Scopes) :
    ∃ earlier later, ∀ nodes,
      (Node.renderAll (context.scopes outer) nodes).1 = context.scopes outer →
        Node.stopsAll outer (context.fill nodes) =
          earlier ++ Node.stopsAll (context.scopes outer) nodes ++ later := by
  induction context generalizing outer with
  | here before after =>
      refine ⟨Node.stopsAll outer before, Node.stopsAll (Node.renderAll outer before).1 after, ?_⟩
      intro nodes hnodes
      rw [fill, List.append_assoc, Node.stopsAll_append, Node.stopsAll_append]
      rw [scopes] at hnodes ⊢
      rw [hnodes, List.append_assoc]
  | inside before span inner after ih =>
      obtain ⟨earlier, later, hinner⟩ := ih (Node.renderAll outer before).1.push
      refine ⟨Node.stopsAll outer before ++ earlier,
        later ++ Node.stopsAll (inner.left
          (inner.scopes (Node.renderAll outer before).1.push)).pop after, ?_⟩
      intro nodes hnodes
      rw [scopes] at hnodes ⊢
      rw [fill, Node.stopsAll_append, Node.stopsAll, Node.stops, hinner nodes hnodes,
        Node.render_paragraf, inner.renderAll_fill, hnodes]
      simp only [List.append_assoc]

/-- Suppose that a section somewhere in a document assigns only to names that it has declared
itself. With the section, the page and the diagnostics are what comes before it, what the section
adds in the scopes in which the walk comes to it, and what comes after it. Without the section they
are the same less what it adds. All other nodes are met in the same order and in the same scopes. -/
theorem removed_section (span : Span) (context : Context) {node : Node}
    (hsection : node.IsSection) (hcontained : node.SelfContained) :
    (Document.mk span (context.fill [node])).render =
      (context.before .initial ++ (Node.render (context.scopes .initial) node).2 ++
        context.after (context.scopes .initial)).within Html.page ∧
    (Document.mk span (context.fill [])).render =
      (context.before .initial ++ context.after (context.scopes .initial)).within Html.page ∧
    (Document.mk span (context.fill [node])).diagnostics =
      (context.before .initial).problems.map Problem.diagnostic ++
        (Node.render (context.scopes .initial) node).2.problems.map Problem.diagnostic ++
        (context.after (context.scopes .initial)).problems.map Problem.diagnostic ∧
    (Document.mk span (context.fill [])).diagnostics =
      (context.before .initial).problems.map Problem.diagnostic ++
        (context.after (context.scopes .initial)).problems.map Problem.diagnostic ∧
    ∃ earlier later,
      Node.stopsAll .initial (context.fill [node]) =
        earlier ++ node.stops (context.scopes .initial) ++ later ∧
      Node.stopsAll .initial (context.fill []) = earlier ++ later := by
  have hleft := Node.render_section_fst hsection hcontained (context.scopes .initial)
  have hsingle : Node.renderAll (context.scopes .initial) [node] =
      (context.scopes .initial, (Node.render (context.scopes .initial) node).2) := by
    rw [Node.renderAll_cons, Node.renderAll, Rendering.append_empty, hleft]
  have hwith : (Document.mk span (context.fill [node])).render =
      (context.before .initial ++ (Node.render (context.scopes .initial) node).2 ++
        context.after (context.scopes .initial)).within Html.page := by
    rw [Document.render, context.renderAll_fill, hsingle]
  have hwithout : (Document.mk span (context.fill [])).render =
      (context.before .initial ++ context.after (context.scopes .initial)).within Html.page := by
    rw [Document.render, context.renderAll_fill, Node.renderAll, Rendering.append_empty]
  refine ⟨hwith, hwithout, ?_, ?_, ?_⟩
  · rw [Document.diagnostics, hwith, ← List.map_append, ← List.map_append]
    rfl
  · rw [Document.diagnostics, hwithout, ← List.map_append]
    rfl
  · obtain ⟨earlier, later, hstops⟩ := context.stopsAll_fill .initial
    refine ⟨earlier, later, ?_, ?_⟩
    · rw [hstops [node] (by rw [hsingle]), Node.stopsAll, Node.stopsAll, List.append_nil]
    · rw [hstops [] rfl, Node.stopsAll, List.append_nil]

/-- A paragraf within another declares a name again, assigns it and refers to a name that is
declared nowhere. Without it, the reference behind it shows the same value. -/
theorem removed_section_hiding :
    ∃ (span : Span) (context : Context) (node : Node), node.IsSection ∧ node.SelfContained ∧
      context.fill [node] = [.declaration span "x", .assignment span (some "x") "1",
        .paragraf span [.paragraf span [.declaration span "x", .assignment span (some "x") "2",
          .inline (.reference span "y")], .inline (.reference span "x")]] ∧
      (Document.mk span (context.fill [node])).render =
        ⟨Html.page "<p>\n<p>\n[undefined: y] </p>\n1 </p>\n", [⟨.undeclared, "y", span⟩]⟩ ∧
      (Document.mk span (context.fill [])).render = ⟨Html.page "<p>\n1 </p>\n", []⟩ := by
  generalize Span.mk "doc.lol" .origin .origin = span
  have hcontained : (Node.paragraf span [.declaration span "x", .assignment span (some "x") "2",
      .inline (.reference span "y")]).SelfContained := by
    intro earlier site later name value hsplit huse
    rcases earlier with _ | ⟨first, _ | ⟨second, _ | ⟨third, earlier⟩⟩⟩
    · cases hsplit
      cases huse
    · cases hsplit
      cases huse
      exact ⟨_, List.mem_singleton_self _, rfl, [0], List.mem_cons_self, rfl⟩
    · cases hsplit
      cases huse
    · simp [Document.sites, nodesSites, nodeSites, inlineSites] at hsplit
  have hsection (children : List Node) : (Node.paragraf span children).IsSection := trivial
  obtain ⟨hwith, hwithout, -⟩ := removed_section span
    (.inside [.declaration span "x", .assignment span (some "x") "1"] span
      (.here [] [.inline (.reference span "x")]) []) (hsection _) hcontained
  exact ⟨span, _, _, hsection _, hcontained, rfl, hwith, hwithout⟩

end LolMarkup
