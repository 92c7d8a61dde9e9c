import LolMarkup.Proofs.Scoping.Bindings
import LolMarkup.Proofs.Scoping.Order

/-!
# The walk agrees with positions

The walk that renders a document carries nested scopes along. At every point of the walk they are
tied to the sites passed so far (`Reached`), and rendering a node shows what its position says and
leaves them tied (`Reached.node`, by induction on the tree). `render_eq_by_position` states the
result for whole documents.
-/

namespace LolMarkup

/-- The HTML of renderings that follow one another follows one another. -/
theorem Rendering.html_append (one other : Rendering) :
    (one ++ other).html = one.html ++ other.html := rfl

/-- The problems of renderings that follow one another follow one another. -/
theorem Rendering.problems_append (one other : Rendering) :
    (one ++ other).problems = one.problems ++ other.problems := rfl

/-- A run is rendered piece by piece. -/
theorem Inline.renderRun_cons (scopes : Scopes) (piece : Inline) (run : List Inline) :
    renderRun scopes (piece :: run) = piece.render scopes ++ renderRun scopes run := rfl

/-- A paragraf is rendered as its children in a scope of their own. -/
theorem Node.render_paragraf (scopes : Scopes) (span : Span) (children : List Node) :
    Node.render scopes (.paragraf span children) =
      ((Node.renderAll scopes.push children).1.pop,
        (Node.renderAll scopes.push children).2.within Html.paragraph) := by
  rw [Node.render]

/-- The first of some nodes is rendered before the others, and these in the scopes it leaves. -/
theorem Node.renderAll_cons (scopes : Scopes) (node : Node) (rest : List Node) :
    Node.renderAll scopes (node :: rest) =
      ((Node.renderAll (Node.render scopes node).1 rest).1,
        (Node.render scopes node).2 ++ (Node.renderAll (Node.render scopes node).1 rest).2) := by
  rw [Node.renderAll]

namespace Scoping

/-! ## One site -/

section Site

variable {past : List Site} {scopes : Scopes} {chain : List Address} {name value : String}

/-- A reference shows what the past says, where the scopes are tied to it. -/
theorem Tied.html_reference (h : Tied past scopes chain) (span : Span) (name : String) :
    ((Inline.reference span name).render scopes).html = shown past chain name := by
  rw [Inline.render, shown, h.lookup name]
  cases hholder : holder? past chain name with
  | none => rfl
  | some scope =>
      rw [Option.bind_some, Option.bind_some, binding?, if_pos (declared_of_holder? hholder)]
      cases value? scope name past <;> rfl

variable (site : Site)

/-- A checked reference reports what the past says, where the scopes are tied to it. -/
theorem Tied.problems_reference (h : Tied past scopes site.scopes) (huse : site.use = .refers name)
    (hchecked : site.checked = true) :
    ((Inline.reference site.span name).render scopes).problems =
      (site.problem? past).toList := by
  rw [Inline.render, Site.problem?, Site.fault?, huse, h.lookup name]
  dsimp only
  rw [if_pos hchecked]
  cases hholder : holder? past site.scopes name with
  | none => rfl
  | some scope =>
      rw [Option.bind_some, binding?, if_pos (declared_of_holder? hholder)]
      cases hvalue : value? scope name past with
      | none => simp [hvalue, Use.name]
      | some value => simp [hvalue, Rendering.ofHtml]

/-- A declaration reports what the past says and keeps the scopes tied. -/
theorem Tied.render_declaration (h : Tied past scopes site.scopes)
    (huse : site.use = .declares name) :
    (Node.render scopes (.declaration site.span name)).2 = ⟨"", (site.problem? past).toList⟩ ∧
      Tied (site :: past) (Node.render scopes (.declaration site.span name)).1 site.scopes := by
  obtain ⟨hnone, htied⟩ := h.declares huse rfl
  rw [Node.render, Site.problem?, Site.fault?, huse]
  simp only [← hnone]
  cases hdeclare : scopes.declare? name with
  | none => exact ⟨rfl, by rwa [hdeclare] at htied⟩
  | some declared => exact ⟨rfl, by rwa [hdeclare] at htied⟩

/-- An assignment reports what the past says and keeps the scopes tied. -/
theorem Tied.render_assignment (h : Tied past scopes site.scopes)
    (huse : site.use = .assigns name value) :
    (Node.render scopes (.assignment site.span (some name) value)).2 =
        ⟨"", (site.problem? past).toList⟩ ∧
      Tied (site :: past) (Node.render scopes (.assignment site.span (some name) value)).1
        site.scopes := by
  obtain ⟨hnone, htied⟩ := h.assigns huse rfl
  rw [Node.render, Site.problem?, Site.fault?, huse]
  simp only [← hnone]
  cases hassign : scopes.assign? name value with
  | none => exact ⟨rfl, by rwa [hassign] at htied⟩
  | some assigned => exact ⟨rfl, by rwa [hassign] at htied⟩

end Site

/-! ## Runs -/

/-- The problems of some sites of a document. -/
def problemsAt (document : Document) (sites : List Site) : List Problem :=
  sites.filterMap fun site => site.problem? (document.past site.address)

/-- The problems of sites that follow one another follow one another. -/
theorem problemsAt_append (document : Document) (first rest : List Site) :
    problemsAt document (first ++ rest) = problemsAt document first ++ problemsAt document rest :=
  List.filterMap_append

/-- A site has the problem that its past gives it, if any. -/
theorem problemsAt_singleton (document : Document) (site : Site) :
    problemsAt document [site] = (site.problem? (document.past site.address)).toList := by
  rw [problemsAt, List.filterMap_cons]
  cases site.problem? (document.past site.address) <;> rfl

/-- The walk has passed some sites of a document, the next ones are before it, and its scopes are
tied to those it has passed. -/
structure Reached (document : Document) (scopes : Scopes) (chain : List Address)
    (earlier here later : List Site) : Prop where
  split : document.sites = earlier ++ (here ++ later)
  tied : Tied earlier.reverse scopes chain

section Reached

variable {document : Document} {scopes : Scopes} {chain : List Address} {address parent : Address}
  {earlier here first rest later : List Site} {checked : Bool}

/-- Of the sites in front the first ones may be looked at alone. -/
theorem Reached.left (h : Reached document scopes chain earlier (first ++ rest) later) :
    Reached document scopes chain earlier first (rest ++ later) where
  split := by rw [h.split, List.append_assoc]
  tied := h.tied

/-- Past the first sites the walk has reached the others. -/
theorem Reached.advance {next : Scopes}
    (h : Reached document scopes chain earlier (first ++ rest) later)
    (htied : Tied (earlier ++ first).reverse next chain) :
    Reached document next chain (earlier ++ first) rest later where
  split := by rw [h.split, List.append_assoc, List.append_assoc]
  tied := htied

/-- The past of the site in front is what the walk has passed. -/
theorem Reached.past_eq {site : Site}
    (h : Reached document scopes chain earlier (site :: here) later) :
    document.past site.address = earlier.reverse :=
  Document.past_of_sites h.split

/-- Some sites are references, all checked or none. -/
def References (checked : Bool) (sites : List Site) : Prop :=
  ∀ site ∈ sites, site.checked = checked ∧ ∃ name, site.use = .refers name

/-- The sites of a piece are references. -/
theorem references_inlineSites (piece : Inline) :
    References checked (inlineSites chain checked address piece) := by
  intro site h
  cases piece with
  | text => cases h
  | reference span name =>
      rw [inlineSites, List.mem_singleton] at h
      subst h
      exact ⟨rfl, name, rfl⟩

/-- The sites of a run are references. -/
theorem references_runSites (run : List Inline) :
    References checked (runSites chain checked parent run) := by
  intro site h
  obtain ⟨child, -, hsite⟩ := List.mem_flatMap.mp h
  exact references_inlineSites child.2 site hsite

/-- The sites of items are references, and these are not checked. -/
theorem references_itemSites (items : List Item) :
    References false (itemSites chain parent items) := by
  intro site h
  obtain ⟨child, -, hsite⟩ := List.mem_flatMap.mp h
  exact references_runSites child.2.children site hsite

/-- References that are not checked have no problems. -/
theorem problemsAt_unchecked {sites : List Site} (h : References false sites) :
    problemsAt document sites = [] := by
  rw [problemsAt, List.filterMap_eq_nil_iff]
  intro site hsite
  obtain ⟨hchecked, name, huse⟩ := h site hsite
  simp [Site.problem?, Site.fault?, huse, hchecked]

/-- Sites that are references leave the scopes tied. -/
theorem Reached.refers (h : Reached document scopes chain earlier here later)
    (hrefers : References checked here) :
    Tied (earlier ++ here).reverse scopes chain := by
  obtain ⟨-, htied⟩ := h
  induction here generalizing earlier with
  | nil => rwa [List.append_nil]
  | cons site rest ih =>
      obtain ⟨-, name, huse⟩ := hrefers site List.mem_cons_self
      have hsite : Tied (earlier ++ [site]).reverse scopes chain := by
        rw [List.reverse_append]
        exact htied.refers huse
      have hrest := ih (fun other hother => hrefers other (List.mem_cons_of_mem site hother)) hsite
      rwa [List.append_assoc] at hrest

/-- A piece shows what its position says. -/
theorem Reached.html_inline {piece : Inline}
    (h : Reached document scopes chain earlier (inlineSites chain checked address piece) later) :
    (piece.render scopes).html = inlineHtml document.past chain address piece := by
  cases piece with
  | text => rfl
  | reference span name =>
      have hpast : document.past address = earlier.reverse := h.past_eq
      rw [inlineHtml, hpast]
      exact h.tied.html_reference span name

/-- A piece reports what its position says. -/
theorem Reached.problems_inline {piece : Inline}
    (h : Reached document scopes chain earlier (inlineSites chain true address piece) later) :
    (piece.render scopes).problems =
      problemsAt document (inlineSites chain true address piece) := by
  cases piece with
  | text => rfl
  | reference span name =>
      have hpast : document.past address = earlier.reverse := h.past_eq
      rw [inlineSites, problemsAt_singleton, hpast]
      exact Tied.problems_reference ⟨address, chain, true, span, .refers name⟩ h.tied rfl rfl

/-- The pieces of a run show what their positions say. -/
theorem Reached.html_children {run : List Inline} {index : Nat}
    (h : Reached document scopes chain earlier
      ((numbered parent index run).flatMap fun child => inlineSites chain checked child.1 child.2)
      later) :
    (Inline.renderRun scopes run).html = .join ((numbered parent index run).map fun child =>
      inlineHtml document.past chain child.1 child.2) := by
  induction run generalizing index earlier with
  | nil => rfl
  | cons piece run ih =>
      rw [numbered, List.flatMap_cons] at h
      have hrest := h.advance (h.left.refers (references_inlineSites piece))
      rw [Inline.renderRun_cons, Rendering.html_append, h.left.html_inline, ih hrest, numbered,
        List.map_cons, String.join_cons]

/-- The pieces of a run report what their positions say. -/
theorem Reached.problems_children {run : List Inline} {index : Nat}
    (h : Reached document scopes chain earlier
      ((numbered parent index run).flatMap fun child => inlineSites chain true child.1 child.2)
      later) :
    (Inline.renderRun scopes run).problems = problemsAt document
      ((numbered parent index run).flatMap fun child =>
        inlineSites chain true child.1 child.2) := by
  induction run generalizing index earlier with
  | nil => rfl
  | cons piece run ih =>
      rw [numbered, List.flatMap_cons] at h
      have hrest := h.advance (h.left.refers (references_inlineSites piece))
      rw [Inline.renderRun_cons, Rendering.problems_append, h.left.problems_inline, ih hrest,
        numbered, List.flatMap_cons, problemsAt_append]

/-- Items show what their positions say. -/
theorem Reached.html_items {items : List Item} {index : Nat}
    (h : Reached document scopes chain earlier
      ((numbered parent index items).flatMap fun child =>
        runSites chain false child.1 child.2.children) later) :
    String.join (items.map (Item.html scopes)) =
      .join ((numbered parent index items).map fun child =>
        Html.bullet (runHtml document.past chain child.1 child.2.children)) := by
  induction items generalizing index earlier with
  | nil => rfl
  | cons item items ih =>
      rw [numbered, List.flatMap_cons] at h
      have hrest := h.advance (h.left.refers (references_runSites item.children))
      rw [numbered, List.map_cons, List.map_cons, String.join_cons, String.join_cons, ih hrest,
        Item.html, h.left.html_children, runHtml]

end Reached

/-! ## Nodes -/

/-- No scope of the sites is at an address or below it. -/
def Fresh (address : Address) (sites : List Site) : Prop :=
  ∀ site ∈ sites, ∀ scope ∈ site.scopes, ¬ address <+: scope

section Fresh

variable {chain : List Address} {address parent : Address} {earlier here : List Site}

/-- What is fresh is fresh further in. -/
theorem Fresh.child (h : Fresh address earlier) (k : Nat) : Fresh (address ++ [k]) earlier :=
  fun site hsite scope hscope hbelow =>
    h site hsite scope hscope ((List.prefix_append address [k]).trans hbelow)

/-- The sites of a node are not below the nodes after it. -/
theorem Fresh.after {i k : Nat} (h : Fresh (parent ++ [k]) earlier)
    (hchain : ∀ scope ∈ chain, scope.length ≤ parent.length) (hik : i < k)
    (hhere : Under chain (parent ++ [i]) here) : Fresh (parent ++ [k]) (earlier ++ here) := by
  intro site hsite scope hscope hbelow
  rcases List.mem_append.mp hsite with hsite | hsite
  · exact h site hsite scope hscope hbelow
  · rcases hhere.enclosed site hsite scope hscope with hmem | hother
    · have hlength := hbelow.length_le
      have houter := hchain scope hmem
      rw [List.length_append, List.length_singleton] at hlength
      omega
    · exact List.lt_irrefl scope (lt_of_lt_index hik hother hbelow)

end Fresh

/-- A result shows what the positions of some sites say and leaves the scopes tied. -/
structure Agrees (document : Document) (chain : List Address) (earlier here : List Site)
    (html : String) (result : Scopes × Rendering) : Prop where
  rendering : result.2 = ⟨html, problemsAt document here⟩
  tied : Tied (earlier ++ here).reverse result.1 chain

section Node

variable {document : Document} {scopes : Scopes} {chain : List Address} {address : Address}
  {earlier later : List Site}

/-- What uses no names is rendered in the same way everywhere. -/
theorem Reached.nameless (h : Reached document scopes chain earlier [] later) (html : String) :
    Agrees document chain earlier [] html (scopes, .ofHtml html) where
  rendering := rfl
  tied := by rw [List.append_nil]; exact h.tied

/-- What is one site and shows nothing. -/
theorem Reached.single {site : Site} {result : Scopes × Rendering}
    (h : Reached document scopes site.scopes earlier [site] later)
    (hrendering : result.2 = ⟨"", (site.problem? earlier.reverse).toList⟩)
    (htied : Tied (site :: earlier.reverse) result.1 site.scopes) :
    Agrees document site.scopes earlier [site] "" result where
  rendering := by rw [hrendering, problemsAt_singleton, h.past_eq]
  tied := by
    rw [List.reverse_concat]
    exact htied

/-- A declaration is rendered as its position says. -/
theorem Reached.declaration {span : Span} {name : String}
    (h : Reached document scopes chain earlier [⟨address, chain, true, span, .declares name⟩]
      later) :
    Agrees document chain earlier [⟨address, chain, true, span, .declares name⟩] ""
      (Node.render scopes (.declaration span name)) := by
  obtain ⟨hrendering, htied⟩ :=
    Tied.render_declaration ⟨address, chain, true, span, .declares name⟩ h.tied rfl
  exact h.single hrendering htied

/-- An assignment is rendered as its position says. -/
theorem Reached.assignment {span : Span} {name value : String}
    (h : Reached document scopes chain earlier [⟨address, chain, true, span, .assigns name value⟩]
      later) :
    Agrees document chain earlier [⟨address, chain, true, span, .assigns name value⟩] ""
      (Node.render scopes (.assignment span (some name) value)) := by
  obtain ⟨hrendering, htied⟩ :=
    Tied.render_assignment ⟨address, chain, true, span, .assigns name value⟩ h.tied rfl
  exact h.single hrendering htied

/-- A piece between two nodes is rendered as its position says. -/
theorem Reached.inline {piece : Inline}
    (h : Reached document scopes chain earlier (inlineSites chain true address piece) later) :
    Agrees document chain earlier (inlineSites chain true address piece)
      (inlineHtml document.past chain address piece) (scopes, piece.render scopes) where
  rendering := by rw [← h.html_inline, ← h.problems_inline]
  tied := h.refers (references_inlineSites piece)

/-- An emphasis is rendered as the positions of its pieces say. -/
theorem Reached.emphasis {children : List Inline} (tag : String)
    (h : Reached document scopes chain earlier (runSites chain true address children) later) :
    Agrees document chain earlier (runSites chain true address children)
      (Html.element tag (runHtml document.past chain address children))
      (scopes, (Inline.renderRun scopes children).within (Html.element tag)) where
  rendering := by
    unfold runHtml runSites Rendering.within
    rw [← h.html_children, ← h.problems_children]
  tied := h.refers (references_runSites children)

/-- A scope that no site has seen yet may be entered. -/
theorem Reached.push {here : List Site} (h : Reached document scopes chain earlier here later)
    (hchain : ∀ scope ∈ chain, scope.length < address.length) (hfresh : Fresh address earlier) :
    Reached document scopes.push (address :: chain) earlier here later where
  split := h.split
  tied := by
    refine h.tied.push (fun hmem => absurd (hchain address hmem) (Nat.lt_irrefl _)) ?_
    intro site hsite hmem
    exact hfresh site (List.mem_reverse.mp hsite) address hmem (List.prefix_refl address)

/-- A list is rendered as the positions of its items say. -/
theorem Reached.list {items : List Item}
    (h : Reached document scopes chain earlier (itemSites (address :: chain) address items) later)
    (hchain : ∀ scope ∈ chain, scope.length < address.length) (hfresh : Fresh address earlier) :
    Agrees document chain earlier (itemSites (address :: chain) address items)
      (Html.bulletList (itemsHtml document.past (address :: chain) address items))
      (scopes, .ofHtml (Html.bulletList (String.join (items.map (Item.html scopes.push))))) where
  rendering := by
    have hproblems : problemsAt document (itemSites (address :: chain) address items) = [] :=
      problemsAt_unchecked (references_itemSites items)
    rw [itemsHtml, (h.push hchain hfresh).html_items, hproblems]
    rfl
  tied := h.refers (references_itemSites items)

end Node

mutual

/-- A node is rendered as its position says. -/
theorem Reached.node {document : Document} {scopes : Scopes} {chain : List Address}
    {address : Address} {earlier later : List Site} (node : Node)
    (h : Reached document scopes chain earlier (nodeSites chain address node) later)
    (hchain : ∀ scope ∈ chain, scope.length < address.length) (hfresh : Fresh address earlier) :
    Agrees document chain earlier (nodeSites chain address node)
      (nodeHtml document.past chain address node) (Node.render scopes node) := by
  cases node with
  | head span titles =>
      rw [Node.render]
      exact h.nameless _
  | paragraf span children =>
      -- The children see one scope more, and no earlier site knows it.
      have hinner := Reached.nodes children (h.push hchain hfresh)
        (by
          intro scope hscope
          rcases List.mem_cons.mp hscope with rfl | hscope
          · exact Nat.le_refl _
          · exact Nat.le_of_lt (hchain scope hscope))
        (fun k _ => hfresh.child k)
      rw [Node.render_paragraf]
      exact ⟨by rw [hinner.rendering]; rfl, hinner.tied.pop h.tied.ne_nil⟩
  | list span items =>
      rw [Node.render]
      exact h.list hchain hfresh
  | declaration span name => exact h.declaration
  | assignment span name value =>
      cases name with
      | none =>
          rw [Node.render]
          exact h.nameless ""
      | some name => exact h.assignment
  | inline piece =>
      rw [Node.render]
      exact h.inline
  | emphasis span style children =>
      rw [Node.render]
      exact h.emphasis style.tag
  | lineBreak span =>
      rw [Node.render]
      exact h.nameless _
  | media span kind url =>
      rw [Node.render]
      exact h.nameless _

/-- Nodes that follow one another are rendered as their positions say. -/
theorem Reached.nodes {document : Document} {scopes : Scopes} {chain : List Address}
    {parent : Address} {index : Nat} {earlier later : List Site} (nodes : List Node)
    (h : Reached document scopes chain earlier (nodesSites chain parent index nodes) later)
    (hchain : ∀ scope ∈ chain, scope.length ≤ parent.length)
    (hfresh : ∀ k, index ≤ k → Fresh (parent ++ [k]) earlier) :
    Agrees document chain earlier (nodesSites chain parent index nodes)
      (nodesHtml document.past chain parent index nodes) (Node.renderAll scopes nodes) := by
  cases nodes with
  | nil =>
      rw [Node.renderAll]
      exact h.nameless ""
  | cons node rest =>
      have hfirst := Reached.node node h.left
        (fun scope hscope => by
          have hlength := hchain scope hscope
          rw [List.length_append, List.length_singleton]
          omega)
        (hfresh index (Nat.le_refl _))
      have hrest := Reached.nodes rest (h.advance hfirst.tied) hchain fun k hk =>
        (hfresh k (by omega)).after hchain hk (under_nodeSites chain (parent ++ [index]) node)
      rw [Node.renderAll_cons, nodesHtml, nodesSites]
      refine ⟨?_, by rw [← List.append_assoc]; exact hrest.tied⟩
      rw [hfirst.rendering, hrest.rendering, problemsAt_append]
      rfl

end

/-- The walk starts with a global scope for the document and nothing passed. -/
theorem reached_initial (document : Document) :
    Reached document .initial [Document.root] [] document.sites [] where
  split := by rw [List.nil_append, List.append_nil]
  tied := .global .empty Document.root fun _ => rfl

/-- The children of a document, rendered from the start, agree with their positions. -/
theorem agrees_children (document : Document) :
    Agrees document [Document.root] [] document.sites
      (nodesHtml document.past [Document.root] Document.root 0 document.children)
      (Node.renderAll .initial document.children) :=
  Reached.nodes document.children (reached_initial document) (by simp [Document.root])
    (by simp [Fresh])

end Scoping

/-- The page of a document is the one by position. -/
theorem Document.render_html_eq_page (document : Document) :
    document.render.html = document.page := by
  rw [render, (Scoping.agrees_children document).rendering]
  rfl

/-- The problems of a document are those by position. -/
theorem Document.problems_render (document : Document) :
    document.render.problems = document.problems := by
  rw [render, (Scoping.agrees_children document).rendering]
  rfl

/-- An inner declaration hides the value of an outer one, and items are not checked. -/
example (span : Span) :
    let shadowed : Document := ⟨span, [.declaration span "x", .assignment span (some "x") "1",
      .paragraf span [.declaration span "x", .inline (.reference span "x")],
      .inline (.reference span "x"), .declaration span "x",
      .list span [⟨span, [.reference span "y"]⟩], .assignment span (some "y") "2"]⟩
    shadowed.problems = [⟨.unassigned, "x", span⟩, ⟨.redeclared, "x", span⟩,
      ⟨.assignedUndeclared, "y", span⟩] := by
  rfl

end LolMarkup
