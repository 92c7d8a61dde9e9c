import LolMarkup.Proofs.Scoping.Sites

/-!
# The order of sites

The sites of a construct have addresses below its own and follow one another in the order of
addresses (`Under`), and so do the sites of constructs under one parent (`UnderFrom`). Therefore
what comes before a site of a document is what stands before it in the list of sites
(`past_of_sites`).
-/

namespace LolMarkup

namespace Scoping

variable {scopes : List Address} {parent address : Address} {index : Nat}

/-- The sites of one construct. Scopes that are not among the given ones are below it as well. -/
structure Under (scopes : List Address) (address : Address) (sites : List Site) : Prop where
  within : ∀ site ∈ sites, address <+: site.address
  sorted : sites.Pairwise fun first second => first.address < second.address
  enclosed : ∀ site ∈ sites, ∀ scope ∈ site.scopes, scope ∈ scopes ∨ address <+: scope

/-- The sites of constructs under one parent from the given index on. -/
structure UnderFrom (scopes : List Address) (parent : Address) (index : Nat) (sites : List Site) :
    Prop where
  within : ∀ site ∈ sites, ∃ k, index ≤ k ∧ parent ++ [k] <+: site.address
  sorted : sites.Pairwise fun first second => first.address < second.address
  enclosed : ∀ site ∈ sites, ∀ scope ∈ site.scopes,
    scope ∈ scopes ∨ ∃ k, index ≤ k ∧ parent ++ [k] <+: scope

/-- Addresses below earlier children come before those below later ones. -/
theorem lt_of_lt_index {i k : Nat} {first second : Address} (h : i < k)
    (hfirst : parent ++ [i] <+: first) (hsecond : parent ++ [k] <+: second) : first < second := by
  obtain ⟨below, rfl⟩ := hfirst
  obtain ⟨other, rfl⟩ := hsecond
  rw [List.append_assoc, List.append_assoc]
  exact List.append_left_lt (List.cons_lt_cons_iff.mpr (.inl h))

/-- No sites are under any address. -/
theorem Under.nil : Under scopes address [] := by
  constructor <;> simp

/-- A site is under its own address. -/
theorem Under.single (checked : Bool) (span : Span) (use : Use) :
    Under scopes address [⟨address, scopes, checked, span, use⟩] where
  within := by simp
  sorted := List.pairwise_singleton _ _
  enclosed := by
    intro site hsite scope hscope
    rw [List.mem_singleton] at hsite
    subst hsite
    exact .inl hscope

/-- A construct may be one of the scopes of its sites. -/
theorem Under.leave {sites : List Site} (h : Under (address :: scopes) address sites) :
    Under scopes address sites where
  within := h.within
  sorted := h.sorted
  enclosed := by
    intro site hsite scope hscope
    rcases h.enclosed site hsite scope hscope with hmem | hbelow
    · rcases List.mem_cons.mp hmem with rfl | hmem
      · exact .inr (List.prefix_refl scope)
      · exact .inl hmem
    · exact .inr hbelow

/-- No sites are under any index. -/
theorem UnderFrom.nil : UnderFrom scopes parent index [] := by
  constructor <;> simp

/-- The sites of a child and those of its later siblings are under their parent from this child on.
-/
theorem UnderFrom.cons {first rest : List Site} (hfirst : Under scopes (parent ++ [index]) first)
    (hrest : UnderFrom scopes parent (index + 1) rest) :
    UnderFrom scopes parent index (first ++ rest) where
  within := by
    intro site hsite
    rcases List.mem_append.mp hsite with hsite | hsite
    · exact ⟨index, Nat.le_refl _, hfirst.within site hsite⟩
    · obtain ⟨k, hk, hbelow⟩ := hrest.within site hsite
      exact ⟨k, by omega, hbelow⟩
  sorted := by
    refine List.pairwise_append.mpr ⟨hfirst.sorted, hrest.sorted, ?_⟩
    intro site hsite other hother
    obtain ⟨k, hk, hbelow⟩ := hrest.within other hother
    exact lt_of_lt_index (by omega) (hfirst.within site hsite) hbelow
  enclosed := by
    intro site hsite scope hscope
    rcases List.mem_append.mp hsite with hsite | hsite
    · rcases hfirst.enclosed site hsite scope hscope with hmem | hbelow
      · exact .inl hmem
      · exact .inr ⟨index, Nat.le_refl _, hbelow⟩
    · rcases hrest.enclosed site hsite scope hscope with hmem | ⟨k, hk, hbelow⟩
      · exact .inl hmem
      · exact .inr ⟨k, by omega, hbelow⟩

/-- Sites under the children of a parent are under the parent. -/
theorem UnderFrom.under {sites : List Site} (h : UnderFrom scopes parent index sites) :
    Under scopes parent sites where
  within := by
    intro site hsite
    obtain ⟨k, -, hbelow⟩ := h.within site hsite
    exact (List.prefix_append parent [k]).trans hbelow
  sorted := h.sorted
  enclosed := by
    intro site hsite scope hscope
    rcases h.enclosed site hsite scope hscope with hmem | ⟨k, -, hbelow⟩
    · exact .inl hmem
    · exact .inr ((List.prefix_append parent [k]).trans hbelow)

/-- The sites of numbered elements are under their indices, if those of each element are. -/
theorem underFrom_flatMap {α : Type} {sitesOf : Address × α → List Site}
    (h : ∀ child, Under scopes child.1 (sitesOf child)) (xs : List α) :
    UnderFrom scopes parent index ((numbered parent index xs).flatMap sitesOf) := by
  induction xs generalizing index with
  | nil => exact .nil
  | cons x xs ih =>
      rw [numbered, List.flatMap_cons]
      exact .cons (h (parent ++ [index], x)) ih

/-! ## The sites of nodes -/

/-- The sites of a piece are under its address. -/
theorem under_inlineSites (checked : Bool) (piece : Inline) :
    Under scopes address (inlineSites scopes checked address piece) := by
  cases piece with
  | text => exact .nil
  | reference span name => exact .single checked span (.refers name)

/-- The sites of a run are under its address. -/
theorem under_runSites (checked : Bool) (run : List Inline) :
    Under scopes address (runSites scopes checked address run) :=
  (underFrom_flatMap (fun child => under_inlineSites checked child.2) run).under

/-- The sites of items are under the address of their list. -/
theorem under_itemSites (items : List Item) :
    Under scopes address (itemSites scopes address items) :=
  (underFrom_flatMap (fun child => under_runSites false child.2.children) items).under

mutual

/-- The sites of a node are under its address. -/
theorem under_nodeSites (scopes : List Address) (address : Address) (node : Node) :
    Under scopes address (nodeSites scopes address node) := by
  cases node with
  | head | lineBreak | media => exact .nil
  | paragraf span children =>
      have hchildren := underFrom_nodesSites (address :: scopes) address 0 children
      exact hchildren.under.leave
  | list span items => exact (under_itemSites items).leave
  | declaration span name => exact .single true span (.declares name)
  | assignment span name value =>
      cases name with
      | none => exact .nil
      | some name => exact .single true span (.assigns name value)
  | inline piece => exact under_inlineSites true piece
  | emphasis span style children => exact under_runSites true children

/-- The sites of nodes are under their indices. -/
theorem underFrom_nodesSites (scopes : List Address) (parent : Address) (index : Nat)
    (nodes : List Node) : UnderFrom scopes parent index (nodesSites scopes parent index nodes) := by
  cases nodes with
  | nil => exact .nil
  | cons node rest =>
      have hrest := underFrom_nodesSites scopes parent (index + 1) rest
      exact .cons (under_nodeSites scopes (parent ++ [index]) node) hrest

end

end Scoping

/-- What comes before a site of a document is what stands before it in the list of sites. -/
theorem Document.past_of_sites {document : Document} {earlier later : List Scoping.Site}
    {site : Scoping.Site} (h : document.sites = earlier ++ site :: later) :
    document.past site.address = earlier.reverse := by
  have hsorted := (Scoping.underFrom_nodesSites [root] root 0 document.children).sorted
  change document.sites.Pairwise _ at hsorted
  rw [h, List.pairwise_append, List.pairwise_cons] at hsorted
  obtain ⟨-, ⟨hlater, -⟩, hearlier⟩ := hsorted
  have hbefore : earlier.filter (·.address < site.address) = earlier := by
    rw [List.filter_eq_self]
    intro other hother
    exact decide_eq_true (hearlier other hother site List.mem_cons_self)
  have hafter : (site :: later).filter (·.address < site.address) = [] := by
    rw [List.filter_eq_nil_iff]
    intro other hother
    rw [decide_eq_true_eq]
    rcases List.mem_cons.mp hother with rfl | hother
    · exact List.lt_irrefl _
    · exact List.lt_asymm (hlater other hother)
  rw [past, h, List.filter_append, hbefore, hafter, List.append_nil]

end LolMarkup
