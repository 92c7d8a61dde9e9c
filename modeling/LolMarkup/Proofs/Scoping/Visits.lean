import LolMarkup.Proofs.Image.WellMade
import LolMarkup.Proofs.Scoping.Agreement
import LolMarkup.Proofs.Scoping.Levels

/-!
# The nodes that the walk visits

`Document.visits` are the nodes of a document in the order in which the walk that renders it comes
to them, each with the scopes that the walk has there. They are the nodes in the order of the
document (`Document.map_node_visits`). What the steps of the walk keep holds at every visit
(`Document.kept`). One such thing is `Settled`, which concerns the last declaration: as long as its
nearest scope is open, the name is found at the level of this scope and nowhere further in
(`Document.settled`).
-/

namespace LolMarkup

namespace Scoping

/-- A node that the walk visits, with its address and the scopes before it. -/
structure Visit where
  address : Address
  scopes : Scopes
  node : Node

/-- The address of the nearest scope around the node: the document or the paragraf that holds it. -/
def Visit.home (visit : Visit) : Address :=
  visit.address.dropLast

mutual

/-- The visits to a node and to the nodes within it. -/
def nodeVisits (scopes : Scopes) (address : Address) : Node → List Visit
  | .paragraf span children =>
      ⟨address, scopes, .paragraf span children⟩ :: nodesVisits scopes.push address 0 children
  | node => [⟨address, scopes, node⟩]

/-- The visits to nodes that follow one another, each in the scopes that the one before leaves. -/
def nodesVisits (scopes : Scopes) (parent : Address) (index : Nat) : List Node → List Visit
  | [] => []
  | node :: rest =>
      nodeVisits scopes (parent ++ [index]) node ++
        nodesVisits (Node.render scopes node).1 parent (index + 1) rest

end

/-- The problems that the walk reports at a visit. A paragraf has none but those of its children. -/
def Visit.problems (visit : Visit) : List Problem :=
  match visit.node with
  | .paragraf _ _ => []
  | node => (Node.render visit.scopes node).2.problems

/-- If a declaration comes last of the declarations and assignments visited before, and its nearest
scope is around the given one or is this scope, then its name has a binding at the level of its
nearest scope and none further in. -/
def Settled (before : List Visit) (home : Address) (scopes : Scopes) : Prop :=
  ∀ earlier last between name, before = earlier ++ last :: between →
    last.node.mark? = some (.declares name) → (∀ visit ∈ between, visit.node.mark? = none) →
    last.home <+: home →
      (scopes.binding? last.home.length name).isSome = true ∧
        ∀ above, last.home.length < above → scopes.binding? above name = none

/-- No visit is at an address or below it. -/
def Unvisited (address : Address) (visits : List Visit) : Prop :=
  ∀ visit ∈ visits, ¬ address <+: visit.address

/-- What the steps of the walk keep between the visits so far, the nearest scope and the scopes: a
node other than a paragraf, entering a paragraf that was not visited before, and leaving one. -/
structure Kept (holds : List Visit → Address → Scopes → Prop) : Prop where
  leaf (before : List Visit) (visit : Visit) :
    (∀ span children, visit.node ≠ .paragraf span children) →
    visit.scopes.depth = visit.home.length + 1 → holds before visit.home visit.scopes →
      holds (before ++ [visit]) visit.home (Node.render visit.scopes visit.node).1
  enter {before : List Visit} {home : Address} {index : Nat} {scopes : Scopes} {span : Span}
      {children : List Node} :
    Unvisited (home ++ [index]) before → holds before home scopes →
      holds (before ++ [⟨home ++ [index], scopes, .paragraf span children⟩]) (home ++ [index])
        scopes.push
  leave {before : List Visit} {home : Address} {index : Nat} {scopes : Scopes} :
    scopes.pop.depth = home.length + 1 → holds before (home ++ [index]) scopes →
      holds before home scopes.pop

/-- At all visits the given holds after those before them, and there is one scope for the document
and each paragraf around them. -/
def HoldsAlong (holds : List Visit → Address → Scopes → Prop) (before : List Visit) :
    List Visit → Prop
  | [] => True
  | visit :: rest =>
      (visit.scopes.depth = visit.home.length + 1 ∧ holds before visit.home visit.scopes) ∧
        HoldsAlong holds (before ++ [visit]) rest

end Scoping

open Scoping

/-- The visits of the walk that renders a document. -/
def Document.visits (document : Document) : List Visit :=
  nodesVisits .initial Document.root 0 document.children

namespace Scoping

mutual

/-- The visits to a node are to it and the nodes within it, in order. -/
theorem map_node_nodeVisits (scopes : Scopes) (address : Address) (node : Node) :
    (nodeVisits scopes address node).map Visit.node = node.preorder := by
  cases node with
  | paragraf span children =>
      rw [nodeVisits, List.map_cons, map_node_nodesVisits, Node.preorder]
  | _ => rfl

/-- The visits to nodes are to them and the nodes within them, in order. -/
theorem map_node_nodesVisits (scopes : Scopes) (parent : Address) (index : Nat)
    (nodes : List Node) :
    (nodesVisits scopes parent index nodes).map Visit.node = Node.preorderAll nodes := by
  cases nodes with
  | nil => rfl
  | cons node rest =>
      rw [nodesVisits, List.map_append, map_node_nodeVisits, map_node_nodesVisits, Node.preorderAll]

end

mutual

/-- The visits to a node are at its address or below it. -/
theorem prefix_of_mem_nodeVisits {scopes : Scopes} {address : Address} (node : Node) :
    ∀ visit ∈ nodeVisits scopes address node, address <+: visit.address := by
  cases node with
  | paragraf span children =>
      intro visit hvisit
      rcases List.mem_cons.mp hvisit with rfl | hvisit
      · exact List.prefix_refl address
      · exact prefix_of_mem_nodesVisits children visit hvisit
  | _ =>
      intro visit hvisit
      rw [nodeVisits, List.mem_singleton] at hvisit
      · rw [hvisit]
      · simp

/-- Nodes are visited at addresses below that of their parent. -/
theorem prefix_of_mem_nodesVisits {scopes : Scopes} {parent : Address} {index : Nat}
    (nodes : List Node) :
    ∀ visit ∈ nodesVisits scopes parent index nodes, parent <+: visit.address := by
  cases nodes with
  | nil =>
      intro visit hvisit
      cases hvisit
  | cons node rest =>
      intro visit hvisit
      rcases List.mem_append.mp hvisit with hvisit | hvisit
      · exact (List.prefix_append parent [index]).trans (prefix_of_mem_nodeVisits node visit hvisit)
      · exact prefix_of_mem_nodesVisits rest visit hvisit

end

mutual

/-- The problems met in a node are those at the visits to it and to the nodes within it. -/
theorem flatMap_problems_nodeVisits (scopes : Scopes) (address : Address) (node : Node) :
    (nodeVisits scopes address node).flatMap Visit.problems =
      (Node.render scopes node).2.problems := by
  cases node with
  | paragraf span children =>
      rw [nodeVisits, List.flatMap_cons, flatMap_problems_nodesVisits, Node.render_paragraf]
      rfl
  | _ => exact List.append_nil _

/-- The problems of visits to nodes are those of rendering the nodes. -/
theorem flatMap_problems_nodesVisits (scopes : Scopes) (parent : Address) (index : Nat)
    (nodes : List Node) :
    (nodesVisits scopes parent index nodes).flatMap Visit.problems =
      (Node.renderAll scopes nodes).2.problems := by
  cases nodes with
  | nil => rfl
  | cons node rest =>
      rw [nodesVisits, List.flatMap_append, flatMap_problems_nodeVisits,
        flatMap_problems_nodesVisits, Node.renderAll_cons, Rendering.problems_append]

end

/-! ## What a node does to the scopes -/

/-- A declaration changes the scopes if it is accepted. -/
theorem render_declaration_fst (scopes : Scopes) (span : Span) (name : String) :
    (Node.render scopes (.declaration span name)).1 = (scopes.declare? name).getD scopes := by
  rw [Node.render]
  cases scopes.declare? name <;> rfl

/-- An assignment changes the scopes if it is accepted. -/
theorem render_assignment_fst (scopes : Scopes) (span : Span) (name value : String) :
    (Node.render scopes (.assignment span (some name) value)).1 =
      (scopes.assign? name value).getD scopes := by
  rw [Node.render]
  cases scopes.assign? name value <;> rfl

mutual

/-- Rendering leaves as many scopes as it finds. -/
theorem depth_render (scopes : Scopes) (node : Node) :
    (Node.render scopes node).1.depth = scopes.depth := by
  cases node with
  | paragraf span children =>
      have hinner := depth_renderAll scopes.push children
      have hpos := scopes.depth_pos
      rw [Scopes.depth_push] at hinner
      have hpop := (Node.renderAll scopes.push children).1.depth_pop (by omega)
      rw [Node.render_paragraf]
      show (Scopes.pop _).depth = _
      omega
  | declaration span name =>
      rw [render_declaration_fst]
      exact scopes.depth_declare? name
  | assignment span name value =>
      cases name with
      | none => rfl
      | some name =>
          rw [render_assignment_fst]
          exact scopes.depth_assign? name value
  | _ => rfl

/-- Rendering nodes leaves as many scopes open as there were. -/
theorem depth_renderAll (scopes : Scopes) (nodes : List Node) :
    (Node.renderAll scopes nodes).1.depth = scopes.depth := by
  cases nodes with
  | nil => rfl
  | cons node rest =>
      rw [Node.renderAll_cons]
      exact (depth_renderAll _ rest).trans (depth_render scopes node)

end

/-! ## The whole walk -/

variable {holds : List Visit → Address → Scopes → Prop}

/-- What holds along visits holds along the first ones and then along the others. -/
theorem holdsAlong_append (before first second : List Visit) :
    HoldsAlong holds before (first ++ second) ↔
      HoldsAlong holds before first ∧ HoldsAlong holds (before ++ first) second := by
  induction first generalizing before with
  | nil => simp [HoldsAlong]
  | cons visit first ih => simp [HoldsAlong, ih, and_assoc]

section Unvisited

variable {before : List Visit} {scopes : Scopes} {parent address : Address} {index : Nat}

/-- An address is not below its children. -/
theorem not_child_below (address : Address) (index : Nat) : ¬ address ++ [index] <+: address := by
  intro h
  have hlength := h.length_le
  rw [List.length_append, List.length_singleton] at hlength
  omega

/-- Below an address that was not visited none was. -/
theorem Unvisited.below (h : Unvisited address before) {other : Address}
    (hother : address <+: other) : Unvisited other before :=
  fun visit hvisit hbelow => h visit hvisit (hother.trans hbelow)

/-- An address that was not visited stays so after a visit elsewhere. -/
theorem Unvisited.concat {visit : Visit} (h : Unvisited address before)
    (hvisit : ¬ address <+: visit.address) : Unvisited address (before ++ [visit]) := by
  intro other hother
  rcases List.mem_append.mp hother with hother | hother
  · exact h other hother
  · rw [List.mem_singleton.mp hother]
    exact hvisit

/-- The visits to a node are not below the nodes after it. -/
theorem Unvisited.after {k : Nat} (h : Unvisited (parent ++ [k]) before) (hk : index < k)
    (node : Node) :
    Unvisited (parent ++ [k]) (before ++ nodeVisits scopes (parent ++ [index]) node) := by
  intro visit hvisit hbelow
  rcases List.mem_append.mp hvisit with hvisit | hvisit
  · exact h visit hvisit hbelow
  · -- Of two addresses of the same length only one can lead to the visit.
    have hnode := prefix_of_mem_nodeVisits node visit hvisit
    have hsame := List.prefix_of_prefix_length_le hnode hbelow (by simp)
    have hindex := hsame.eq_of_length (by simp)
    simp at hindex
    omega

end Unvisited

mutual

/-- What the steps keep holds along the walk through a node, and of the scopes that it leaves. -/
theorem Kept.nodeVisits (hkept : Kept holds) {before : List Visit} {scopes : Scopes}
    {parent : Address} {index : Nat} (node : Node) (hdepth : scopes.depth = parent.length + 1)
    (hnew : Unvisited (parent ++ [index]) before) (h : holds before parent scopes) :
    HoldsAlong holds before (nodeVisits scopes (parent ++ [index]) node) ∧
      holds (before ++ nodeVisits scopes (parent ++ [index]) node) parent
        (Node.render scopes node).1 := by
  have hhome (node : Node) : Visit.home ⟨parent ++ [index], scopes, node⟩ = parent :=
    List.dropLast_concat
  have hsingle (node : Node) : HoldsAlong holds before [⟨parent ++ [index], scopes, node⟩] := by
    refine ⟨?_, trivial⟩
    rw [hhome]
    exact ⟨hdepth, h⟩
  have hleaf (node : Node) (hnode : ∀ span children, node ≠ .paragraf span children) :
      holds (before ++ [⟨parent ++ [index], scopes, node⟩]) parent (Node.render scopes node).1 := by
    have hafter := hkept.leaf before ⟨parent ++ [index], scopes, node⟩ hnode
    rw [hhome] at hafter
    exact hafter hdepth h
  cases node with
  | paragraf span children =>
      -- The children are walked in one scope more, which is left again behind them.
      obtain ⟨hall, hleft⟩ := hkept.nodesVisits children (by simp [hdepth])
        (fun k _ => (hnew.below (List.prefix_append _ [k])).concat (not_child_below _ k))
        (hkept.enter hnew h)
      have hpop := depth_render scopes (.paragraf span children)
      rw [Node.render_paragraf] at hpop
      unfold Scoping.nodeVisits
      rw [Node.render_paragraf]
      refine ⟨⟨(hsingle _).1, hall⟩, ?_⟩
      rw [← List.append_cons] at hleft
      exact hkept.leave (hpop.trans hdepth) hleft
  | _ => exact ⟨hsingle _, hleaf _ (by simp)⟩

/-- What the steps keep holds along the walk through nodes that follow one another, and of the
scopes that it leaves. -/
theorem Kept.nodesVisits (hkept : Kept holds) {before : List Visit} {scopes : Scopes}
    {parent : Address} {index : Nat} (nodes : List Node)
    (hdepth : scopes.depth = parent.length + 1)
    (hnew : ∀ k, index ≤ k → Unvisited (parent ++ [k]) before) (h : holds before parent scopes) :
    HoldsAlong holds before (nodesVisits scopes parent index nodes) ∧
      holds (before ++ nodesVisits scopes parent index nodes) parent
        (Node.renderAll scopes nodes).1 := by
  cases nodes with
  | nil =>
      refine ⟨trivial, ?_⟩
      unfold Scoping.nodesVisits
      rwa [List.append_nil]
  | cons node rest =>
      obtain ⟨hnode, hnext⟩ := hkept.nodeVisits node hdepth (hnew index (Nat.le_refl _)) h
      obtain ⟨hrest, hleft⟩ := hkept.nodesVisits rest ((depth_render scopes node).trans hdepth)
        (fun k hk => (hnew k (by omega)).after hk node) hnext
      unfold Scoping.nodesVisits
      rw [Node.renderAll_cons, holdsAlong_append, ← List.append_assoc]
      exact ⟨⟨hnode, hrest⟩, hleft⟩

end

end Scoping

/-- The visits of a document are to its nodes in the order of the document. -/
theorem Document.map_node_visits (document : Document) :
    document.visits.map Visit.node = Node.preorderAll document.children :=
  map_node_nodesVisits _ _ _ _

/-- The problems of a document are those at its visits. -/
theorem Document.flatMap_problems_visits (document : Document) :
    document.visits.flatMap Visit.problems = document.render.problems :=
  flatMap_problems_nodesVisits _ _ _ _

/-- What holds at the start and is kept by the steps of the walk holds at every visit. -/
theorem Document.kept {holds : List Visit → Address → Scopes → Prop} (hkept : Kept holds)
    (hstart : holds [] Document.root .initial) {document : Document} {before after : List Visit}
    {visit : Visit} (h : document.visits = before ++ visit :: after) :
    visit.scopes.depth = visit.home.length + 1 ∧ holds before visit.home visit.scopes := by
  have hall : HoldsAlong holds [] document.visits :=
    (hkept.nodesVisits document.children rfl (by simp [Unvisited]) hstart).1
  rw [h, holdsAlong_append] at hall
  exact hall.2.1

namespace Scoping

/-! ## The last declaration -/

section Settled

variable {before : List Visit} {visit : Visit} {home : Address} {scopes : Scopes}

/-- Before the first visit everything is settled. -/
theorem settled_nil : Settled [] home scopes := by
  intro earlier last between name hsplit
  simp at hsplit

/-- After one visit more it is either the last declaration or leaves the last one where it is. -/
theorem settled_concat
    (hbefore : visit.node.mark? = none → Settled before home scopes)
    (hlast : ∀ name, visit.node.mark? = some (.declares name) →
      (scopes.binding? visit.home.length name).isSome = true ∧
        ∀ above, visit.home.length < above → scopes.binding? above name = none) :
    Settled (before ++ [visit]) home scopes := by
  intro earlier last between name hsplit hmark hbetween hhome
  rcases split_concat hsplit with ⟨rfl, rfl, -⟩ | ⟨between, hbefore', rfl⟩
  · exact hlast name hmark
  · exact hbefore (hbetween visit (by simp)) earlier last between name hbefore' hmark
      (fun other hother => hbetween other (List.mem_append_left _ hother)) hhome

/-- A node that neither declares nor assigns leaves everything settled. -/
theorem Settled.unmarked (h : Settled before home scopes) (hvisit : visit.node.mark? = none) :
    Settled (before ++ [visit]) home scopes := by
  refine settled_concat (fun _ => h) ?_
  intro name hmark
  rw [hvisit] at hmark
  cases hmark

/-- After a declaration the innermost scope has the name, also if the declaration was rejected. -/
theorem settled_declaration (before : List Visit) {span : Span} {name : String}
    (hnode : visit.node = .declaration span name)
    (hdepth : visit.scopes.depth = visit.home.length + 1) :
    Settled (before ++ [visit]) home (Node.render visit.scopes visit.node).1 := by
  refine settled_concat ?_ ?_
  · intro hmark
    rw [hnode] at hmark
    cases hmark
  · intro other hmark
    rw [hnode] at hmark
    cases hmark
    rw [hnode, render_declaration_fst]
    have hdeclared := visit.scopes.isSome_binding?_declare? name
    have hsame := visit.scopes.depth_declare? name
    rw [hdepth] at hdeclared hsame
    refine ⟨hdeclared, ?_⟩
    intro above habove
    exact Scopes.binding?_of_depth_le (by omega)

/-- After an assignment everything is settled, because no name waits for a value. -/
theorem settled_assignment (before : List Visit) {span : Span} {name : Option String}
    {value : String} (hnode : visit.node = .assignment span name value) :
    Settled (before ++ [visit]) home scopes := by
  refine settled_concat ?_ ?_
  · intro hmark
    rw [hnode] at hmark
    cases hmark
  · intro other hmark
    rw [hnode] at hmark
    cases hmark

/-- Entering a paragraf keeps the scopes settled, since no declaration in it was visited. -/
theorem Settled.enter {index : Nat} (h : Settled before home scopes)
    (hnew : ∀ visit ∈ before, ¬ home ++ [index] <+: visit.home) :
    Settled before (home ++ [index]) scopes.push := by
  intro earlier last between name hsplit hmark hbetween hhome
  simp only [Scopes.binding?_push]
  rcases List.prefix_concat_iff.mp hhome with heq | hbelow
  · exact absurd (heq ▸ List.prefix_refl _) (hnew last (by simp [hsplit]))
  · exact h earlier last between name hsplit hmark hbetween hbelow

/-- Leaving a paragraf keeps the scopes settled, since the levels around it stay as they are. -/
theorem Settled.leave {index : Nat} (h : Settled before (home ++ [index]) scopes)
    (hdepth : scopes.pop.depth = home.length + 1) : Settled before home scopes.pop := by
  intro earlier last between name hsplit hmark hbetween hhome
  obtain ⟨hdeclared, habove⟩ := h earlier last between name hsplit hmark hbetween
    (hhome.trans (List.prefix_append home [index]))
  -- The declaration stands around the paragraf, so its level is not the one that is left.
  have hlevel : last.home.length < scopes.pop.depth := by
    have hlength := hhome.length_le
    omega
  refine ⟨by rwa [Scopes.binding?_pop hlevel], ?_⟩
  intro above hlt
  by_cases hopen : above < scopes.pop.depth
  · rw [Scopes.binding?_pop hopen]
    exact habove above hlt
  · exact Scopes.binding?_of_depth_le (Nat.le_of_not_lt hopen)

end Settled

/-- All steps of the walk keep everything settled. -/
theorem kept_settled : Kept Settled where
  leaf := by
    intro before visit hleaf hdepth h
    cases hnode : visit.node with
    | paragraf span children => exact absurd hnode (hleaf span children)
    | declaration span name =>
        rw [← hnode]
        exact settled_declaration before hnode hdepth
    | assignment span name value => exact settled_assignment before hnode
    | _ => exact h.unmarked (by rw [hnode]; rfl)
  enter := by
    intro before home index scopes span children hnew h
    refine (h.unmarked rfl).enter ?_
    intro visit hvisit hbelow
    rcases List.mem_append.mp hvisit with hvisit | hvisit
    · exact hnew visit hvisit (hbelow.trans (List.dropLast_prefix _))
    · rw [List.mem_singleton.mp hvisit, Visit.home, List.dropLast_concat] at hbelow
      exact not_child_below home index hbelow
  leave := fun hdepth h => h.leave hdepth

end Scoping

/-- Every visit of the walk is settled after those before it. -/
theorem Document.settled {document : Document} {before after : List Visit} {visit : Visit}
    (h : document.visits = before ++ visit :: after) :
    visit.scopes.depth = visit.home.length + 1 ∧ Settled before visit.home visit.scopes :=
  Document.kept kept_settled settled_nil h

end LolMarkup
