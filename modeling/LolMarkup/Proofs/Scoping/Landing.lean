import LolMarkup.Proofs.Image.Soundness
import LolMarkup.Proofs.Scoping.Visits

/-!
# Where an assignment lands

The reader gives an assignment the name that waits for a value, and the walk looks for a scope that
has this name. `assignment_lands` says that the two fit together: while the nearest scope of the
declaration is open, the value goes to this scope and nothing else changes, whatever the scopes
around it and the declarations before it.
-/

namespace LolMarkup

open Scoping Lexing

namespace Scoping

/-- Rendering the visited node sets a name to a value at one level: it reports nothing, leaves the
scopes open, and changes no other binding of any of them. -/
structure Visit.Sets (visit : Visit) (level : Nat) (name value : String) : Prop where
  problems : (Node.render visit.scopes visit.node).2.problems = []
  depth : (Node.render visit.scopes visit.node).1.depth = visit.scopes.depth
  binding : ∀ other key, (Node.render visit.scopes visit.node).1.binding? other key =
    if other = level ∧ key = name then some (.assigned value) else visit.scopes.binding? other key

/-- An assignment sets the name at the innermost level that has it. -/
theorem Visit.sets_of_level {visit : Visit} {level : Nat} {span : Span} {name value : String}
    (hnode : visit.node = .assignment span (some name) value)
    (h : (visit.scopes.binding? level name).isSome = true)
    (habove : ∀ above, level < above → visit.scopes.binding? above name = none) :
    visit.Sets level name value := by
  obtain ⟨assigned, hassigned, hbinding⟩ := Scopes.assign?_of_level value h habove
  have hrender : Node.render visit.scopes visit.node = (assigned, .empty) := by
    rw [hnode, Node.render, hassigned]
  refine ⟨?_, depth_render visit.scopes visit.node, ?_⟩
  · rw [hrender]
    rfl
  · rw [hrender]
    exact hbinding

/-- The last of the marks of some visits belongs to one of them, and those after it have none. -/
theorem exists_last_mark {visits : List Visit} {mark : Mark}
    (h : (visits.filterMap fun visit => visit.node.mark?).getLast? = some mark) :
    ∃ (earlier : List Visit) (last : Visit) (between : List Visit),
      visits = earlier ++ last :: between ∧ last.node.mark? = some mark ∧
        ∀ visit ∈ between, visit.node.mark? = none := by
  rw [List.getLast?_filterMap, List.findSome?_eq_some_iff] at h
  obtain ⟨after, last, earlier, hsplit, hmark, hafter⟩ := h
  refine ⟨earlier.reverse, last, after.reverse, ?_, hmark, ?_⟩
  · rw [← List.reverse_reverse visits, hsplit]
    simp
  · intro visit hvisit
    exact hafter visit (List.mem_reverse.mp hvisit)

end Scoping

/-- A name that waits for a value is declared by the last mark. -/
theorem Mark.getLast?_of_waiting {marks : List Mark} {name : String}
    (h : Mark.waiting marks = some name) : marks.getLast? = some (.declares name) := by
  rw [Mark.waiting] at h
  split at h <;> cases h
  next hlast => exact hlast

/-- The marks of a document are those of the nodes it visits. -/
theorem Document.marks_visits (document : Document) :
    Node.marks document.children = document.visits.filterMap fun visit => visit.node.mark? := by
  rw [Node.marks, ← document.map_node_visits, List.filterMap_map]
  rfl

/-- An assignment that is read has the name that waits for a value after the marks before it. -/
theorem Document.waiting_of_assignment {source : Source} {document : Document}
    (hdocument : source.document = .ok document) {before after : List Visit} {visit : Visit}
    (hvisits : document.visits = before ++ visit :: after) {span : Span} {name : Option String}
    {value : String} (hnode : visit.node = .assignment span name value) :
    name = Mark.waiting (before.filterMap fun visit => visit.node.mark?) := by
  apply (Source.wellMade_of_document hdocument).named _ name
    (after.filterMap fun visit => visit.node.mark?)
  rw [document.marks_visits, hvisits, List.filterMap_append, List.filterMap_cons, hnode]
  rfl

/-- An assignment with a name follows the declaration of this name, with no declaration and no
assignment between them. If the nearest scope of the declaration still encloses it, visiting the
assignment sets the name in exactly this scope, and reports nothing. An assignment without a name
does not follow a declaration in this way, and visiting it changes nothing. -/
theorem assignment_lands {source : Source} {document : Document}
    (hdocument : source.document = .ok document) {before after : List Visit} {visit : Visit}
    (hvisits : document.visits = before ++ visit :: after) {span : Span} {name : Option String}
    {value : String} (hnode : visit.node = .assignment span name value) :
    (∀ target, name = some target →
      ∃ (earlier : List Visit) (declaration : Visit) (between : List Visit) (place : Span),
      before = earlier ++ declaration :: between ∧
      declaration.node = .declaration place target ∧
      (∀ other ∈ between, other.node.mark? = none) ∧
      visit.scopes.depth = visit.home.length + 1 ∧
      (declaration.home <+: visit.home → visit.Sets declaration.home.length target value)) ∧
    (name = none →
      (∀ (earlier : List Visit) (last : Visit) (between : List Visit),
        before = earlier ++ last :: between → (∀ other ∈ between, other.node.mark? = none) →
        ∀ place target, last.node ≠ .declaration place target) ∧
      (Node.render visit.scopes visit.node).1 = visit.scopes) := by
  obtain ⟨hdepth, hsettled⟩ := Document.settled hvisits
  have hwaiting := Document.waiting_of_assignment hdocument hvisits hnode
  constructor
  · rintro target rfl
    obtain ⟨earlier, declaration, between, hbefore, hmark, hbetween⟩ :=
      exists_last_mark (Mark.getLast?_of_waiting hwaiting.symm)
    obtain ⟨place, hdeclaration⟩ := Node.eq_declaration_of_mark? hmark
    refine ⟨earlier, declaration, between, place, hbefore, hdeclaration, hbetween, hdepth, ?_⟩
    intro hhome
    obtain ⟨hdeclared, habove⟩ := hsettled earlier declaration between target hbefore hmark hbetween
      hhome
    exact Visit.sets_of_level hnode hdeclared habove
  · rintro rfl
    refine ⟨?_, ?_⟩
    · intro earlier last between hbefore hbetween place target hlast
      have hmarks : before.filterMap (fun visit => visit.node.mark?) =
          earlier.filterMap (fun visit => visit.node.mark?) ++ [.declares target] := by
        rw [hbefore, List.filterMap_append, List.filterMap_cons, hlast,
          List.filterMap_eq_nil_iff.mpr hbetween]
        rfl
      rw [hmarks, Mark.waiting_declares] at hwaiting
      cases hwaiting
    · rw [hnode]
      rfl

/-- The last of some visits with a mark is the one after which none has a mark. -/
theorem Scoping.getLast?_marked (earlier : List Visit) {between : List Visit} {last : Visit}
    (hlast : last.node.mark?.isSome = true)
    (hbetween : ∀ visit ∈ between, visit.node.mark? = none) :
    ((earlier ++ last :: between).filter fun visit => visit.node.mark?.isSome).getLast? =
      some last := by
  have hnone : between.filter (fun visit => visit.node.mark?.isSome) = [] := by
    rw [List.filter_eq_nil_iff]
    intro visit hvisit
    simp [hbetween visit hvisit]
  rw [List.filter_append, List.filter_cons, if_pos hlast, hnone, List.getLast?_concat]

/-- The name is declared in the document, and twice in a paragraf. The second of these two
declarations is rejected, and the assignment follows it in a paragraf further in: it sets the name
in the outer paragraf, where the first of the two declared it. -/
theorem assignment_lands_redeclared :
    ∃ (document : Document) (before : List Visit) (visit : Visit) (after : List Visit)
      (span : Span),
      (Source.mk "doc.lol"
        "#HAI#I HAZ x#MAEK PARAGRAF#I HAZ x#I HAZ x#MAEK PARAGRAF#IT IZ 2#MKAY#OIC#OIC#KTHXBYE"
        ).document = .ok document ∧
      document.visits = before ++ visit :: after ∧
      visit.node = .assignment span (some "x") "2" ∧ visit.home = [1, 2] ∧
      visit.scopes.binding? 0 "x" = some .unassigned ∧ visit.Sets 1 "x" "2" := by
  have hdocument : (Source.mk "doc.lol"
      "#HAI#I HAZ x#MAEK PARAGRAF#I HAZ x#I HAZ x#MAEK PARAGRAF#IT IZ 2#MKAY#OIC#OIC#KTHXBYE"
      ).document = .ok ⟨⟨"doc.lol", ⟨1, 1, 0⟩, ⟨1, 86, 85⟩⟩,
        [.declaration ⟨"doc.lol", ⟨1, 5, 4⟩, ⟨1, 13, 12⟩⟩ "x",
          .paragraf ⟨"doc.lol", ⟨1, 13, 12⟩, ⟨1, 78, 77⟩⟩
            [.declaration ⟨"doc.lol", ⟨1, 27, 26⟩, ⟨1, 35, 34⟩⟩ "x",
              .declaration ⟨"doc.lol", ⟨1, 35, 34⟩, ⟨1, 43, 42⟩⟩ "x",
              .paragraf ⟨"doc.lol", ⟨1, 43, 42⟩, ⟨1, 74, 73⟩⟩
                [.assignment ⟨"doc.lol", ⟨1, 57, 56⟩, ⟨1, 70, 69⟩⟩ (some "x") "2"]]]⟩ := by
    cbv
  generalize hread : Document.mk _ _ = document at hdocument
  have hvisits : document.visits = document.visits.take 5 ++ ⟨[1, 2, 0],
      .nested .empty (.nested ⟨[("x", .unassigned)]⟩ (.global ⟨[("x", .unassigned)]⟩)),
      .assignment ⟨"doc.lol", ⟨1, 57, 56⟩, ⟨1, 70, 69⟩⟩ (some "x") "2"⟩ :: [] := by
    subst hread
    rfl
  obtain ⟨earlier, declaration, between, place, hbefore, hnode, hbetween, -, hsets⟩ :=
    (assignment_lands hdocument hvisits rfl).1 "x" rfl
  have hlast := Scoping.getLast?_marked earlier (by rw [hnode]; rfl) hbetween
  rw [← hbefore] at hlast
  have hhome : declaration.home = [1] := by
    subst hread
    exact Option.some.inj (congrArg (Option.map Visit.home) hlast.symm)
  rw [hhome] at hsets
  exact ⟨document, _, _, _, _, hdocument, hvisits, rfl, rfl, rfl, hsets ⟨[2], rfl⟩⟩

end LolMarkup
