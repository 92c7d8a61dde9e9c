import LolMarkup.Proofs.Image.WellMade
import LolMarkup.Proofs.Scoping.Agreement

/-!
# Which assignment a reference shows

A reference resolves to the last assignment that went to the innermost scope with its name
(`Document.resolved?`), and it shows the value of this assignment
(`Document.shown_of_resolved?`), which is a node of the document
(`Scoping.mem_preorderAll_of_assigns`).
-/

namespace LolMarkup

namespace Scoping

/-- The last assignment of the name that went to the given scope. -/
def assigner? (scope : Address) (name : String) : List Site → Option Site
  | [] => none
  | site :: past =>
      match site.use with
      | .assigns target _ =>
          if target = name ∧ holder? past site.scopes name = some scope then some site
          else assigner? scope name past
      | _ => assigner? scope name past

/-- The value of a name in a scope is that of the assignment that went there last. -/
theorem exists_value_of_assigner? {scope : Address} {name : String} {past : List Site} {site : Site}
    (h : assigner? scope name past = some site) :
    ∃ value, site.use = .assigns name value ∧ site ∈ past ∧
      value? scope name past = some value := by
  induction past with
  | nil => cases h
  | cons first past ih =>
      rw [assigner?] at h
      split at h
      · next target value huse =>
          split at h
          · next hlast =>
              cases h
              obtain ⟨rfl, hholder⟩ := hlast
              exact ⟨value, huse, List.mem_cons_self, by rw [value?, huse]; simp [hholder]⟩
          · next hother =>
              obtain ⟨found, hfound, hmem, hvalue⟩ := ih h
              refine ⟨found, hfound, List.mem_cons_of_mem _ hmem, ?_⟩
              rw [value?, huse]
              simp only [if_neg hother, hvalue]
      · next huse =>
          obtain ⟨found, hfound, hmem, hvalue⟩ := ih h
          refine ⟨found, hfound, List.mem_cons_of_mem _ hmem, ?_⟩
          rw [value?]
          split
          · next target value hassigns => exact absurd hassigns (huse target value)
          · exact hvalue

/-- A reference is no assignment. -/
theorem References.ne_assigns {checked : Bool} {sites : List Site} {site : Site}
    {name value : String} (h : References checked sites) (hsite : site ∈ sites) :
    site.use ≠ .assigns name value := by
  obtain ⟨-, target, huse⟩ := h site hsite
  rw [huse]
  intro heq
  cases heq

mutual

/-- A site that assigns is that of an assignment in the node. -/
theorem mem_preorder_of_assigns {scopes : List Address} {address : Address} {node : Node}
    {site : Site} {name value : String} (hsite : site ∈ nodeSites scopes address node)
    (huse : site.use = .assigns name value) :
    .assignment site.span (some name) value ∈ node.preorder := by
  cases node with
  | paragraf span children =>
      rw [nodeSites] at hsite
      exact List.mem_cons_of_mem _ (mem_preorderAll_of_assigns hsite huse)
  | assignment span target held =>
      cases target with
      | none => simp [nodeSites] at hsite
      | some target =>
          rw [nodeSites, List.mem_singleton] at hsite
          subst hsite
          cases huse
          exact List.mem_singleton_self _
  | declaration span target =>
      rw [nodeSites, List.mem_singleton] at hsite
      subst hsite
      cases huse
  | list span items => exact absurd huse ((references_itemSites items).ne_assigns hsite)
  | inline piece => exact absurd huse ((references_inlineSites piece).ne_assigns hsite)
  | emphasis span style children =>
      exact absurd huse ((references_runSites children).ne_assigns hsite)
  | head | lineBreak | media => cases hsite

/-- The site of an assignment is that of a node. -/
theorem mem_preorderAll_of_assigns {scopes : List Address} {parent : Address} {index : Nat}
    {nodes : List Node} {site : Site} {name value : String}
    (hsite : site ∈ nodesSites scopes parent index nodes) (huse : site.use = .assigns name value) :
    .assignment site.span (some name) value ∈ Node.preorderAll nodes := by
  cases nodes with
  | nil => cases hsite
  | cons node rest =>
      rw [nodesSites, List.mem_append] at hsite
      rw [Node.preorderAll, List.mem_append]
      exact hsite.imp (mem_preorder_of_assigns · huse) (mem_preorderAll_of_assigns · huse)

end

end Scoping

namespace Document

open Scoping

/-- The assignment that a use of a name resolves to: the last one before it that went to the
innermost scope around it that has the name. -/
def resolved? (document : Document) (site : Site) : Option Site :=
  (holder? (document.past site.address) site.scopes site.use.name).bind
    (assigner? · site.use.name (document.past site.address))

/-- A reference that resolves to an assignment shows its value. -/
theorem shown_of_resolved? {document : Document} {reference assignment : Site}
    (h : document.resolved? reference = some assignment) :
    ∃ value,
      .assignment assignment.span (some reference.use.name) value ∈
        Node.preorderAll document.children ∧
      shown (document.past reference.address) reference.scopes reference.use.name =
        Html.spaced value := by
  obtain ⟨scope, hholder, hassigner⟩ := Option.bind_eq_some_iff.mp h
  obtain ⟨value, huse, hpast, hvalue⟩ := exists_value_of_assigner? hassigner
  have hsite : assignment ∈ document.sites :=
    (List.mem_filter.mp (List.mem_reverse.mp hpast)).1
  refine ⟨value, mem_preorderAll_of_assigns hsite huse, ?_⟩
  rw [shown, hholder, Option.bind_some, hvalue, Option.getD_some]

end Document

end LolMarkup
