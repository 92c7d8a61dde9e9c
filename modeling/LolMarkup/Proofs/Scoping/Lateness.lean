import LolMarkup.Proofs.Scoping.Landing

/-!
# Assignments that come too late

An assignment has the name of the declaration before it, also if the scope of this declaration was
left in between. The walk then looks for the name in the scopes that are still open. `Traced` says
which of them have it: those with a declaration of the name directly in them. `late_assignment` is
the consequence: a late assignment is rejected if none of the open scopes has the name, and goes to
the innermost one otherwise. It is not always rejected (`not_forall_late_assignment_rejected`).
-/

namespace LolMarkup

open Scoping

namespace Scoping

/-- The scope at the given level around a place directly holds a declaration of the name that was
visited before. -/
def DeclaredAt (before : List Visit) (home : Address) (level : Nat) (name : String) : Prop :=
  ∃ visit ∈ before, (∃ place, visit.node = .declaration place name) ∧ visit.home <+: home ∧
    visit.home.length = level

/-- The open scopes have the names that are declared in them, and no others. -/
def Traced (before : List Visit) (home : Address) (scopes : Scopes) : Prop :=
  ∀ level name, (scopes.binding? level name).isSome = true ↔ DeclaredAt before home level name

/-- Rendering the visited node reports that the name cannot be assigned to, and nothing else. The
scopes stay as they are. -/
structure Visit.Rejects (visit : Visit) (span : Span) (name : String) : Prop where
  problems : visit.problems = [⟨.assignedUndeclared, name, span⟩]
  scopes : (Node.render visit.scopes visit.node).1 = visit.scopes

section Traced

variable {before : List Visit} {visit : Visit} {home : Address} {scopes : Scopes} {level : Nat}
  {name : String}

/-- A name is declared at a level by the last visit or before it. -/
theorem declaredAt_concat : DeclaredAt (before ++ [visit]) home level name ↔
    DeclaredAt before home level name ∨
      (∃ place, visit.node = .declaration place name) ∧ visit.home <+: home ∧
        visit.home.length = level := by
  simp only [DeclaredAt, List.mem_append, List.mem_singleton, or_and_right, exists_or,
    exists_eq_left]

/-- A visit that is no declaration declares nothing. -/
theorem declaredAt_concat_of_ne (h : ∀ place name, visit.node ≠ .declaration place name) :
    DeclaredAt (before ++ [visit]) home level name ↔ DeclaredAt before home level name := by
  rw [declaredAt_concat, or_iff_left]
  intro hvisit
  obtain ⟨place, hnode⟩ := hvisit.1
  exact h place name hnode

/-- At the start no names are declared. -/
theorem traced_initial : Traced [] Document.root .initial := by
  intro level name
  have hnone : Scopes.initial.binding? level name = none := by
    by_cases hlevel : level = 0 <;> simp [Scopes.initial, Scopes.binding?, hlevel]
  simp [hnone, DeclaredAt]

/-- After a declaration the scopes have the names that are declared in them. -/
theorem Traced.declaration {span : Span} (h : Traced before visit.home visit.scopes)
    (hdepth : visit.scopes.depth = visit.home.length + 1)
    (hnode : visit.node = .declaration span name) :
    Traced (before ++ [visit]) visit.home (Node.render visit.scopes visit.node).1 := by
  intro level key
  rw [declaredAt_concat, ← h level key, hnode, render_declaration_fst, Scopes.binding?_declare?,
    Option.isSome_or, Bool.or_eq_true, hdepth]
  refine or_congr Iff.rfl ?_
  by_cases hkey : key = name
  · subst hkey
    by_cases hlevel : visit.home.length = level
    · simp [hlevel]
    · have hother : level ≠ visit.home.length := Ne.symm hlevel
      simp [hlevel, hother]
  · have hother : name ≠ key := Ne.symm hkey
    simp [hkey, hother]

/-- After a node without nodes in it the scopes have the names that are declared in them. -/
theorem Traced.leaf (h : Traced before visit.home visit.scopes)
    (hleaf : ∀ span children, visit.node ≠ .paragraf span children)
    (hdepth : visit.scopes.depth = visit.home.length + 1) :
    Traced (before ++ [visit]) visit.home (Node.render visit.scopes visit.node).1 := by
  cases hnode : visit.node with
  | paragraf span children => exact absurd hnode (hleaf span children)
  | declaration span name =>
      rw [← hnode]
      exact h.declaration hdepth hnode
  | assignment span target value =>
      intro level key
      rw [declaredAt_concat_of_ne (by simp [hnode]), ← h level key]
      cases target with
      | none => rfl
      | some target => rw [render_assignment_fst, Scopes.isSome_binding?_assign?]
  | _ =>
      intro level key
      rw [declaredAt_concat_of_ne (by simp [hnode])]
      exact h level key

/-- In a paragraf that is just entered nothing is declared. -/
theorem Traced.enter {index : Nat} {span : Span} {children : List Node}
    (h : Traced before home scopes) (hnew : Unvisited (home ++ [index]) before) :
    Traced (before ++ [⟨home ++ [index], scopes, .paragraf span children⟩]) (home ++ [index])
      scopes.push := by
  intro level name
  rw [declaredAt_concat_of_ne (by simp), Scopes.binding?_push, h level name]
  constructor
  · rintro ⟨visit, hmem, hnode, hhome, hlevel⟩
    exact ⟨visit, hmem, hnode, hhome.trans (List.prefix_append home [index]), hlevel⟩
  · rintro ⟨visit, hmem, hnode, hhome, hlevel⟩
    rcases List.prefix_concat_iff.mp hhome with heq | hbelow
    · have hinside : home ++ [index] <+: visit.address := heq ▸ List.dropLast_prefix visit.address
      exact absurd hinside (hnew visit hmem)
    · exact ⟨visit, hmem, hnode, hbelow, hlevel⟩

/-- Leaving a paragraf leaves the levels around it, with the declarations in them. -/
theorem Traced.leave {index : Nat} (h : Traced before (home ++ [index]) scopes)
    (hdepth : scopes.pop.depth = home.length + 1) : Traced before home scopes.pop := by
  intro level name
  by_cases hopen : level < scopes.pop.depth
  · rw [Scopes.binding?_pop hopen, h level name]
    constructor
    · rintro ⟨visit, hmem, hnode, hhome, hlevel⟩
      rcases List.prefix_concat_iff.mp hhome with heq | hbelow
      · rw [heq, List.length_append, List.length_singleton] at hlevel
        omega
      · exact ⟨visit, hmem, hnode, hbelow, hlevel⟩
    · rintro ⟨visit, hmem, hnode, hhome, hlevel⟩
      exact ⟨visit, hmem, hnode, hhome.trans (List.prefix_append home [index]), hlevel⟩
  · rw [Scopes.binding?_of_depth_le (Nat.le_of_not_lt hopen)]
    refine iff_of_false (by simp) ?_
    rintro ⟨visit, -, -, hhome, hlevel⟩
    have hlength := hhome.length_le
    omega

/-- All steps of the walk keep the scopes traced. -/
theorem kept_traced : Kept Traced where
  leaf := fun _ _ hleaf hdepth h => h.leaf hleaf hdepth
  enter := fun hnew h => h.enter hnew
  leave := fun hdepth h => h.leave hdepth

end Traced

/-- An assignment to a name that no open scope has is rejected. -/
theorem Visit.rejects_of_levels {visit : Visit} {span : Span} {name value : String}
    (hnode : visit.node = .assignment span (some name) value)
    (h : ∀ level, visit.scopes.binding? level name = none) : visit.Rejects span name := by
  have hrender : Node.render visit.scopes visit.node =
      (visit.scopes, ⟨"", [⟨.assignedUndeclared, name, span⟩]⟩) := by
    rw [hnode, Node.render, Scopes.assign?_eq_none value h]
  refine ⟨?_, by rw [hrender]⟩
  rw [hnode] at hrender
  simp only [problems, hnode, hrender]

end Scoping

/-- An assignment with a name follows the declaration of this name, with no declaration and no
assignment between them. Suppose the nearest scope of the declaration no longer encloses it. If
none of the scopes around it has a declaration of the name, the assignment is reported once and no
binding changes. Otherwise it sets the name in the innermost scope that has one, and nothing is
reported. -/
theorem late_assignment {source : Source} {document : Document}
    (hdocument : source.document = .ok document) {before after : List Visit} {visit : Visit}
    (hvisits : document.visits = before ++ visit :: after) {span : Span} {target value : String}
    (hnode : visit.node = .assignment span (some target) value) :
    ∃ (earlier : List Visit) (declaration : Visit) (between : List Visit) (place : Span),
      before = earlier ++ declaration :: between ∧
      declaration.node = .declaration place target ∧
      (∀ other ∈ between, other.node.mark? = none) ∧
      (¬ declaration.home <+: visit.home →
        ((∀ level, ¬ DeclaredAt before visit.home level target) →
          visit.Rejects span target ∧
          document.render.problems = before.flatMap Visit.problems ++
            ⟨.assignedUndeclared, target, span⟩ :: after.flatMap Visit.problems) ∧
        (∀ level, DeclaredAt before visit.home level target →
          (∀ above, level < above → ¬ DeclaredAt before visit.home above target) →
            visit.Sets level target value)) := by
  have hwaiting := Document.waiting_of_assignment hdocument hvisits hnode
  obtain ⟨earlier, declaration, between, hbefore, hmark, hbetween⟩ :=
    exists_last_mark (Mark.getLast?_of_waiting hwaiting.symm)
  obtain ⟨place, hdeclaration⟩ := Node.eq_declaration_of_mark? hmark
  obtain ⟨-, htraced⟩ := Document.kept kept_traced traced_initial hvisits
  refine ⟨earlier, declaration, between, place, hbefore, hdeclaration, hbetween, ?_⟩
  intro _
  constructor
  · intro hnone
    have hlevels (level : Nat) : visit.scopes.binding? level target = none := by
      rw [← Option.not_isSome_iff_eq_none]
      exact fun hsome => hnone level ((htraced level target).mp hsome)
    have hrejects := Visit.rejects_of_levels hnode hlevels
    refine ⟨hrejects, ?_⟩
    rw [← document.flatMap_problems_visits, hvisits, List.flatMap_append, List.flatMap_cons,
      hrejects.problems]
    rfl
  · intro level hdeclared hinnermost
    apply Visit.sets_of_level hnode ((htraced level target).mpr hdeclared)
    intro above habove
    rw [← Option.not_isSome_iff_eq_none]
    exact fun hsome => hinnermost above habove ((htraced above target).mp hsome)

/-- A name is declared in one paragraf and assigned in the next one, where no open scope has it: the
assignment is rejected. -/
theorem late_assignment_next_paragraf :
    ∃ (document : Document) (before : List Visit) (visit : Visit) (after : List Visit)
      (span : Span),
      (Source.mk "doc.lol"
        "#HAI\n#MAEK PARAGRAF\n#I HAZ q\n#OIC\n#MAEK PARAGRAF\n#IT IZ late #MKAY\n#OIC\n#KTHXBYE"
        ).document = .ok document ∧
      document.visits = before ++ visit :: after ∧
      visit.node = .assignment span (some "q") "late" ∧ visit.Rejects span "q" ∧
      document.render.problems = [⟨.assignedUndeclared, "q", span⟩] := by
  have hdocument : (Source.mk "doc.lol"
      "#HAI\n#MAEK PARAGRAF\n#I HAZ q\n#OIC\n#MAEK PARAGRAF\n#IT IZ late #MKAY\n#OIC\n#KTHXBYE"
      ).document = .ok ⟨⟨"doc.lol", ⟨1, 1, 0⟩, ⟨8, 9, 80⟩⟩,
        [.paragraf ⟨"doc.lol", ⟨2, 1, 5⟩, ⟨4, 5, 33⟩⟩
            [.declaration ⟨"doc.lol", ⟨3, 1, 20⟩, ⟨3, 9, 28⟩⟩ "q"],
          .paragraf ⟨"doc.lol", ⟨5, 1, 34⟩, ⟨7, 5, 71⟩⟩
            [.assignment ⟨"doc.lol", ⟨6, 1, 49⟩, ⟨6, 18, 66⟩⟩ (some "q") "late"]]⟩ := by
    cbv
  generalize hread : Document.mk _ _ = document at hdocument
  have hvisits : document.visits = document.visits.take 3 ++ ⟨[1, 0],
      .nested .empty (.global .empty),
      .assignment ⟨"doc.lol", ⟨6, 1, 49⟩, ⟨6, 18, 66⟩⟩ (some "q") "late"⟩ :: [] := by
    subst hread
    rfl
  obtain ⟨earlier, declaration, between, place, hbefore, hnode, hbetween, hlate⟩ :=
    late_assignment hdocument hvisits rfl
  have hlast := getLast?_marked earlier (by rw [hnode]; rfl) hbetween
  rw [← hbefore] at hlast
  have hhome : declaration.home = [0] := by
    subst hread
    exact Option.some.inj (congrArg (Option.map Visit.home) hlast.symm)
  have hclosed : ¬ declaration.home <+: [1] := by
    rw [hhome]
    decide
  obtain ⟨hrejects, hproblems⟩ := (hlate hclosed).1 (by
    subst hread
    rintro level ⟨visit, hmem, ⟨place, hplace⟩, hopen, -⟩
    rcases hmem with _ | ⟨_, _ | ⟨_, _ | ⟨_, hmem⟩⟩⟩
    · cases hplace
    · exact absurd hopen (by decide)
    · cases hplace
    · cases hmem)
  refine ⟨document, _, _, _, _, hdocument, hvisits, rfl, hrejects, ?_⟩
  subst hread
  exact hproblems

/-- Not every late assignment is rejected: if the document itself declares the name too, the value
goes there. -/
theorem not_forall_late_assignment_rejected :
    ¬ ∀ (source : Source) (document : Document) (before : List Visit) (visit : Visit)
        (after : List Visit) (span : Span) (target value : String) (earlier : List Visit)
        (declaration : Visit) (between : List Visit) (place : Span),
      source.document = .ok document → document.visits = before ++ visit :: after →
      visit.node = .assignment span (some target) value →
      before = earlier ++ declaration :: between →
      declaration.node = .declaration place target →
      (∀ other ∈ between, ∀ place name, other.node ≠ .declaration place name) →
      ¬ declaration.home <+: visit.home → visit.Rejects span target := by
  intro hrejected
  have hdocument : (Source.mk "doc.lol" ("#HAI\n#I HAZ x\n#MAEK PARAGRAF\n#I HAZ x\n#OIC\n" ++
      "#MAEK PARAGRAF\n#IT IZ late #MKAY\n#OIC\n#KTHXBYE")).document =
        .ok ⟨⟨"doc.lol", ⟨1, 1, 0⟩, ⟨9, 9, 89⟩⟩,
          [.declaration ⟨"doc.lol", ⟨2, 1, 5⟩, ⟨2, 9, 13⟩⟩ "x",
            .paragraf ⟨"doc.lol", ⟨3, 1, 14⟩, ⟨5, 5, 42⟩⟩
              [.declaration ⟨"doc.lol", ⟨4, 1, 29⟩, ⟨4, 9, 37⟩⟩ "x"],
            .paragraf ⟨"doc.lol", ⟨6, 1, 43⟩, ⟨8, 5, 80⟩⟩
              [.assignment ⟨"doc.lol", ⟨7, 1, 58⟩, ⟨7, 18, 75⟩⟩ (some "x") "late"]]⟩ := by
    cbv
  have hrejects := hrejected _ _ _ _ [] _ "x" "late" _ _ _ _ hdocument
    (List.take_append_drop 4 _).symm rfl (List.take_append_drop 2 _).symm rfl
    (by
      intro other hmem place name
      rcases hmem with _ | ⟨_, hmem⟩
      · simp
      · cases hmem) (by decide)
  cases hrejects.problems

end LolMarkup
