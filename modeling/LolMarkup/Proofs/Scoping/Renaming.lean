import LolMarkup.Proofs.Scoping.Slots

/-!
# Renaming

Names matter only in so far as they are equal or not. `Document.rename` applies a function to all
names that are declared, assigned or referred to. The sites and the slots of a document are then
renamed with it, and if the function is injective, so are the declarations that count at a site
(`declared_rename`), the scope that holds a name (`holder?_rename`), its value (`value?_rename`) and
the faults (`Site.fault?_rename`). `rename_equivariant` states the result for whole documents.
-/

namespace LolMarkup

open Scoping

/-! ## Renamed documents -/

/-- A piece of a run with its name replaced. -/
def Inline.rename (r : String → String) : Inline → Inline
  | text span content => text span content
  | reference span name => reference span (r name)

/-- An item with the names in it replaced. -/
def Item.rename (r : String → String) (item : Item) : Item :=
  ⟨item.span, item.children.map (Inline.rename r)⟩

mutual

/-- A node with all names in it replaced. -/
def Node.rename (r : String → String) : Node → Node
  | .paragraf span children => .paragraf span (Node.renameAll r children)
  | .list span items => .list span (items.map (Item.rename r))
  | .declaration span name => .declaration span (r name)
  | .assignment span name value => .assignment span (name.map r) value
  | .inline piece => .inline (piece.rename r)
  | .emphasis span style children => .emphasis span style (children.map (Inline.rename r))
  | .head span titles => .head span titles
  | .lineBreak span => .lineBreak span
  | .media span kind url => .media span kind url

/-- Nodes with all names in them replaced. -/
def Node.renameAll (r : String → String) : List Node → List Node
  | [] => []
  | node :: rest => node.rename r :: Node.renameAll r rest

end

/-- A document with all names in it replaced. -/
def Document.rename (r : String → String) (document : Document) : Document :=
  ⟨document.span, Node.renameAll r document.children⟩

/-- A problem with another name. -/
def Problem.rename (r : String → String) (problem : Problem) : Problem :=
  { problem with name := r problem.name }

/-- A fragment with another name in a placeholder. What stands as it is stays so. -/
def Fragment.rename (r : String → String) : Fragment → Fragment
  | plain html => plain html
  | placeholder name => placeholder (r name)

namespace Scoping

/-- The same use of another name. -/
def Use.rename (r : String → String) : Use → Use
  | declares name => declares (r name)
  | assigns name value => assigns (r name) value
  | refers name => refers (r name)

/-- A site with another name. -/
def Site.rename (r : String → String) (site : Site) : Site :=
  { site with use := site.use.rename r }

/-- A slot with another name. -/
def Slot.rename (r : String → String) : Slot → Slot
  | plain html => plain html
  | reference site => reference (site.rename r)

/-! ## Renamed sites and slots -/

variable {r : String → String} {scopes : List Address} {address parent : Address} {checked : Bool}

/-- Numbering does not depend on what is numbered. -/
theorem numbered_map {α β : Type} (f : α → β) (index : Nat) (xs : List α) :
    numbered parent index (xs.map f) =
      (numbered parent index xs).map fun child => (child.1, f child.2) := by
  induction xs generalizing index with
  | nil => rfl
  | cons x xs ih => rw [List.map_cons, numbered, numbered, ih, List.map_cons]

/-- If each child gives what the child before it gives, mapped, so do all children together. -/
theorem flatMap_numbered_map {α β γ : Type} {f : α → β} {g : γ → γ} {before : Address × α → List γ}
    {after : Address × β → List γ}
    (h : ∀ address x, after (address, f x) = (before (address, x)).map g) (xs : List α) :
    (numbered parent 0 (xs.map f)).flatMap after =
      ((numbered parent 0 xs).flatMap before).map g := by
  rw [numbered_map, List.flatMap_map, List.map_flatMap]
  exact List.flatMap_congr fun child _ => h child.1 child.2

/-- Renaming a piece renames its sites. -/
theorem inlineSites_rename (piece : Inline) :
    inlineSites scopes checked address (piece.rename r) =
      (inlineSites scopes checked address piece).map (Site.rename r) := by
  cases piece <;> rfl

/-- Renaming a run renames its sites. -/
theorem runSites_rename (run : List Inline) :
    runSites scopes checked parent (run.map (Inline.rename r)) =
      (runSites scopes checked parent run).map (Site.rename r) :=
  flatMap_numbered_map (fun _ piece => inlineSites_rename piece) run

/-- Renaming items renames their sites. -/
theorem itemSites_rename (items : List Item) :
    itemSites scopes parent (items.map (Item.rename r)) =
      (itemSites scopes parent items).map (Site.rename r) :=
  flatMap_numbered_map (fun _ item => runSites_rename item.children) items

mutual

/-- Renaming a node renames its sites. -/
theorem nodeSites_rename (scopes : List Address) (address : Address) (node : Node) :
    nodeSites scopes address (node.rename r) =
      (nodeSites scopes address node).map (Site.rename r) := by
  cases node with
  | paragraf span children => exact nodesSites_rename (address :: scopes) address 0 children
  | list span items => exact itemSites_rename items
  | assignment span name value => cases name <;> rfl
  | inline piece => exact inlineSites_rename piece
  | emphasis span style children => exact runSites_rename children
  | head | declaration | lineBreak | media => rfl

/-- Renaming nodes renames their sites. -/
theorem nodesSites_rename (scopes : List Address) (parent : Address) (index : Nat)
    (nodes : List Node) :
    nodesSites scopes parent index (Node.renameAll r nodes) =
      (nodesSites scopes parent index nodes).map (Site.rename r) := by
  cases nodes with
  | nil => rfl
  | cons node rest =>
      rw [Node.renameAll, nodesSites, nodeSites_rename, nodesSites_rename, nodesSites,
        List.map_append]

end

/-- There are no names in a frame. -/
theorem Slot.map_rename_framed (frame : Html.Frame) (content : List Slot) :
    (framed frame content).map (rename r) = framed frame (content.map (rename r)) := by
  simp [framed, rename]

/-- Renaming a piece renames its slots. -/
theorem inlineSlots_rename (piece : Inline) :
    inlineSlots scopes checked address (piece.rename r) =
      (inlineSlots scopes checked address piece).map (Slot.rename r) := by
  cases piece <;> rfl

/-- Renaming a run renames its slots. -/
theorem runSlots_rename (run : List Inline) :
    runSlots scopes checked parent (run.map (Inline.rename r)) =
      (runSlots scopes checked parent run).map (Slot.rename r) :=
  flatMap_numbered_map (fun _ piece => inlineSlots_rename piece) run

/-- Renaming items renames their slots. -/
theorem itemSlots_rename (items : List Item) :
    itemSlots scopes parent (items.map (Item.rename r)) =
      (itemSlots scopes parent items).map (Slot.rename r) := by
  refine flatMap_numbered_map (fun address item => ?_) items
  rw [Slot.map_rename_framed, ← runSlots_rename]
  rfl

mutual

/-- Renaming a node renames its slots. -/
theorem nodeSlots_rename (scopes : List Address) (address : Address) (node : Node) :
    nodeSlots scopes address (node.rename r) =
      (nodeSlots scopes address node).map (Slot.rename r) := by
  cases node with
  | paragraf span children =>
      rw [Node.rename, nodeSlots, nodesSlots_rename, nodeSlots, Slot.map_rename_framed]
  | list span items =>
      rw [Node.rename, nodeSlots, itemSlots_rename, nodeSlots, Slot.map_rename_framed]
  | inline piece => exact inlineSlots_rename piece
  | emphasis span style children =>
      rw [Node.rename, nodeSlots, runSlots_rename, nodeSlots, Slot.map_rename_framed]
  | head | declaration | assignment | lineBreak | media => rfl

/-- Renaming nodes renames their slots. -/
theorem nodesSlots_rename (scopes : List Address) (parent : Address) (index : Nat)
    (nodes : List Node) :
    nodesSlots scopes parent index (Node.renameAll r nodes) =
      (nodesSlots scopes parent index nodes).map (Slot.rename r) := by
  cases nodes with
  | nil => rfl
  | cons node rest =>
      rw [Node.renameAll, nodesSlots, nodeSlots_rename, nodesSlots_rename, nodesSlots,
        List.map_append]

end

/-! ## What is in force after renamed sites -/

/-- A renamed site uses the new name. -/
theorem Site.name_rename (site : Site) : (site.rename r).use.name = r site.use.name := by
  rw [Site.rename]
  cases site.use <;> rfl

section Injective

variable (hr : Function.Injective r) (past : List Site)
include hr

/-- A renamed use declares a new name exactly if it declared the old one. -/
theorem Use.rename_eq_declares_iff (use : Use) (name : String) :
    use.rename r = .declares (r name) ↔ use = .declares name := by
  cases use <;> simp [rename, hr.eq_iff]

/-- A new name is declared exactly where the old one was. -/
theorem declared_rename (scope : Address) (name : String) :
    declared (past.map (Site.rename r)) scope (r name) = declared past scope name := by
  unfold declared
  rw [List.any_map]
  congr 1
  funext site
  exact decide_eq_decide.mpr (and_congr_left' (Use.rename_eq_declares_iff hr site.use name))

/-- The scope that held an old name holds the new one. -/
theorem holder?_rename (scopes : List Address) (name : String) :
    holder? (past.map (Site.rename r)) scopes (r name) = holder? past scopes name := by
  unfold holder?
  simp only [declared_rename hr]

/-- The value of an old name is that of the new one. -/
theorem value?_rename (scope : Address) (name : String) :
    value? scope (r name) (past.map (Site.rename r)) = value? scope name past := by
  induction past with
  | nil => rfl
  | cons site past ih =>
      obtain ⟨address, scopes, checked, span, use⟩ := site
      cases use with
      | assigns target value =>
          simp only [List.map_cons, value?, Site.rename, Use.rename, hr.eq_iff, ih,
            holder?_rename hr past scopes name]
      | declares | refers => exact ih

/-- Renaming does not change the fault of a site. -/
theorem Site.fault?_rename (site : Site) :
    (site.rename r).fault? (past.map (Site.rename r)) = site.fault? past := by
  obtain ⟨address, scopes, checked, span, use⟩ := site
  cases use <;> simp only [fault?, Site.rename, Use.rename, declared_rename hr, holder?_rename hr,
    value?_rename hr]

/-- A renamed site has its problem with the new name. -/
theorem Site.problem?_rename (site : Site) :
    (site.rename r).problem? (past.map (Site.rename r)) =
      (site.problem? past).map (Problem.rename r) := by
  rw [problem?, Site.fault?_rename hr, problem?, Option.map_map, Site.name_rename]
  rfl

/-- A reference shows the same value, or a placeholder with the other name. -/
theorem Slot.fill_rename (past : Address → List Site) (slot : Slot) :
    (slot.rename r).fill (fun address => (past address).map (Site.rename r)) =
      (slot.fill past).rename r := by
  cases slot with
  | plain html => rfl
  | reference site =>
      have hvalue : Slot.value? ((past site.address).map (Site.rename r)) (site.rename r) =
          Slot.value? (past site.address) site := by
        simp only [Slot.value?, Site.name_rename, value?_rename hr]
        exact congrArg (Option.bind · _) (holder?_rename hr _ _ _)
      have haddress : (site.rename r).address = site.address := rfl
      rw [Slot.rename, fill, fill, haddress, hvalue, Site.name_rename]
      cases Slot.value? (past site.address) site <;> rfl

end Injective

end Scoping

namespace Document

variable {r : String → String} (document : Document)

/-- Renaming a document renames its sites. -/
theorem sites_rename : (document.rename r).sites = document.sites.map (Site.rename r) :=
  nodesSites_rename _ _ _ _

/-- Renaming a document renames its slots. -/
theorem slots_rename : (document.rename r).slots = document.slots.map (Slot.rename r) := by
  rw [slots, slots, Slot.map_rename_framed, ← nodesSlots_rename]
  rfl

/-- Renaming a document renames the past of every address. -/
theorem past_rename (address : Address) :
    (document.rename r).past address = (document.past address).map (Site.rename r) := by
  rw [past, past, sites_rename, List.filter_map, List.map_reverse]
  rfl

/-- An injective renaming of a document renames its fragments. -/
theorem fragments_rename (hr : Function.Injective r) :
    (document.rename r).fragments = document.fragments.map (Fragment.rename r) := by
  have hpast : (document.rename r).past =
      fun address => (document.past address).map (Site.rename r) :=
    funext document.past_rename
  rw [fragments, fragments, slots_rename, hpast, List.map_map, List.map_map]
  exact List.map_congr_left fun slot _ => Slot.fill_rename hr document.past slot

/-- An injective renaming of a document renames its problems. -/
theorem problems_rename (hr : Function.Injective r) :
    (document.rename r).render.problems = document.render.problems.map (Problem.rename r) := by
  rw [problems_render, problems_render, problems, problems, sites_rename, List.filterMap_map,
    List.map_filterMap]
  congr 1
  funext site
  rw [Function.comp_apply, past_rename]
  exact Site.problem?_rename hr _ site

end Document

/-- If all names of a document are replaced by an injective function, the diagnostics are the same
up to the names in their messages. The page is the same up to the names in the placeholders of
references without a value, and entirely the same if every reference resolves to an assignment. -/
theorem rename_equivariant {r : String → String} (hr : Function.Injective r) (document : Document) :
    (document.rename r).diagnostics = document.render.problems.map (fun problem =>
      { problem.diagnostic with message := problem.fault.message (r problem.name) }) ∧
    document.render.html = Fragment.text document.fragments ∧
    (document.rename r).render.html = Fragment.text (document.fragments.map (Fragment.rename r)) ∧
    ((∀ site ∈ document.sites, ∀ name, site.use = .refers name →
        (document.resolved? site).isSome = true) →
      (document.rename r).render.html = document.render.html) := by
  have hhtml : (document.rename r).render.html =
      Fragment.text (document.fragments.map (Fragment.rename r)) := by
    rw [Document.text_fragments, document.fragments_rename hr]
  refine ⟨?_, document.text_fragments, hhtml, ?_⟩
  · rw [Document.diagnostics, document.problems_rename hr, List.map_map]
    rfl
  · intro hresolved
    have hplain : document.fragments.map (Fragment.rename r) = document.fragments := by
      conv_rhs => rw [← List.map_id document.fragments]
      refine List.map_congr_left fun fragment hfragment => ?_
      obtain ⟨html, rfl⟩ := Document.fragments_of_resolved hresolved fragment hfragment
      rfl
    rw [hhtml, hplain, document.text_fragments]

/-- Two names are exchanged. In a document that declares only one of them the placeholder of the
other changes, and in a document that uses only this one nothing changes. -/
theorem rename_equivariant_exchange :
    ∃ (r : String → String) (span : Span) (both single : Document),
      Function.Injective r ∧ r "x" = "y" ∧ r "y" = "x" ∧
      both = ⟨span, [.declaration span "x", .assignment span (some "x") "1",
        .inline (.reference span "x"), .inline (.reference span "y")]⟩ ∧
      (both.rename r).diagnostics = [⟨.undeclared, .error,
        "Variable 'x' is used but never declared", "doc.lol", some 1, some 1⟩] ∧
      (both.rename r).render.html = Html.page "1 [undefined: x] " ∧
      single = ⟨span, [.declaration span "x", .assignment span (some "x") "1",
        .inline (.reference span "x")]⟩ ∧
      (single.rename r).render.html = single.render.html := by
  have hr : Function.Injective
      fun name : String => if name = "x" then "y" else if name = "y" then "x" else name := by
    intro one other h
    grind
  generalize hspan : Span.mk "doc.lol" .origin .origin = span
  obtain ⟨hdiagnostics, -, hhtml, -⟩ := rename_equivariant hr ⟨span, [.declaration span "x",
    .assignment span (some "x") "1", .inline (.reference span "x"), .inline (.reference span "y")]⟩
  obtain ⟨-, -, -, hsame⟩ := rename_equivariant hr ⟨span, [.declaration span "x",
    .assignment span (some "x") "1", .inline (.reference span "x")]⟩
  refine ⟨_, span, _, _, hr, rfl, rfl, rfl, ?_, hhtml, rfl, hsame ?_⟩
  · subst hspan
    exact hdiagnostics
  · intro site hsite name huse
    rcases hsite with _ | ⟨_, _ | ⟨_, _ | ⟨_, hsite⟩⟩⟩
    · cases huse
    · cases huse
    · rfl
    · cases hsite

end LolMarkup
