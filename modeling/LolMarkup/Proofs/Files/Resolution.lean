import LolMarkup.Proofs.Files.Rooted
import Mathlib

/-!
# Resolving written paths

A written path is followed part by part. The path that is reached is in normal form if the directory
is in which it is read (`Path.normal_resolve`), and a path in normal form is reached from what is
written for it (`Path.resolve_toString`), also from the names below a directory alone
(`Path.resolve_intercalate`). The last part decides the name of what is reached, unless it is a dot
or two (`Path.exists_names_resolve`), so that an extension is that of the written path.
-/

namespace LolMarkup.Path

variable {directory path : Path} {written name : String} {names : List String}

/-- A name that a directory can hold: it is not empty, it has no slash in it, and it is neither a
dot nor two. -/
def IsName (name : String) : Prop :=
  name ≠ "" ∧ name ≠ "." ∧ name ≠ ".." ∧ '/' ∉ name.toList

/-- Whether a text can be a name is decided by comparing its characters. -/
instance : DecidablePred IsName := fun name =>
  inferInstanceAs (Decidable (name ≠ "" ∧ name ≠ "." ∧ name ≠ ".." ∧ '/' ∉ name.toList))

/-- A path in normal form. -/
def Normal (path : Path) : Prop :=
  ∀ name ∈ path.names, IsName name

/-- Whether a path is in normal form is decided name by name. -/
instance (path : Path) : Decidable path.Normal :=
  inferInstanceAs (Decidable (∀ name ∈ path.names, IsName name))

/-- The parent of a path in normal form is in normal form. -/
theorem Normal.parent (h : path.Normal) : path.parent.Normal :=
  fun name hname => h name ((List.dropLast_sublist path.names).subset hname)

/-! ## The parts of a written path -/

/-- Even an empty text has a part. -/
theorem parts_ne_nil (cs : List Char) : parts cs ≠ [] := by
  cases cs with
  | nil => exact List.cons_ne_nil _ _
  | cons c cs =>
      unfold parts
      split <;> exact List.cons_ne_nil _ _

/-- A character that is no slash belongs to the first part. -/
theorem exists_parts_cons {c : Char} (h : c ≠ '/') (cs : List Char) :
    ∃ part rest, parts cs = part :: rest ∧ parts (c :: cs) = (c :: part) :: rest := by
  obtain ⟨part, rest, hparts⟩ := List.exists_cons_of_ne_nil (parts_ne_nil cs)
  exact ⟨part, rest, hparts, by simp [parts, hparts]⟩

/-- A written path is split at its slashes. -/
theorem parts_eq_splitOn (cs : List Char) : parts cs = cs.splitOn '/' := by
  induction cs with
  | nil => rfl
  | cons c cs ih =>
      rw [List.splitOn_eq_splitOnP] at ih ⊢
      rw [List.splitOnP_cons_eq_if_modifyHead, ← ih]
      by_cases hc : c = '/'
      · subst hc
        rfl
      · obtain ⟨part, rest, hparts, hcons⟩ := exists_parts_cons hc cs
        rw [if_neg (by simpa using hc), hcons, hparts]
        rfl

/-- The parts hold the characters of the written path but its slashes. -/
theorem mem_of_mem_parts {part cs : List Char} {c : Char} (h : part ∈ parts cs) (hc : c ∈ part) :
    c ∈ cs ∧ c ≠ '/' := by
  induction cs generalizing part with
  | nil =>
      rw [List.mem_singleton.mp h] at hc
      cases hc
  | cons d cs ih =>
      have hrest (hc : c ∈ cs ∧ c ≠ '/') : c ∈ d :: cs ∧ c ≠ '/' :=
        ⟨List.mem_cons_of_mem d hc.1, hc.2⟩
      by_cases hd : d = '/'
      · subst hd
        rcases List.mem_cons.mp h with rfl | h
        · cases hc
        · exact hrest (ih h hc)
      · obtain ⟨first, rest, hparts, hcons⟩ := exists_parts_cons hd cs
        rw [hcons] at h
        rw [hparts] at ih
        rcases List.mem_cons.mp h with rfl | h
        · rcases List.mem_cons.mp hc with rfl | hc
          · exact ⟨List.mem_cons_self, hd⟩
          · exact hrest (ih List.mem_cons_self hc)
        · exact hrest (ih (List.mem_cons_of_mem first h) hc)

/-- What is written for names goes on with a slash after the first of them, or ends. -/
theorem exists_toList_intercalate (name : String) (names : List String) :
    ∃ tail, ("/".intercalate (name :: names)).toList = name.toList ++ tail ∧
      (tail = [] ∨ tail.head? = some '/') := by
  cases names with
  | nil => exact ⟨[], by rw [String.intercalate_singleton, List.append_nil], .inl rfl⟩
  | cons next names =>
      refine ⟨'/' :: ("/".intercalate (next :: names)).toList, ?_, .inr rfl⟩
      rw [String.intercalate_cons_cons, String.append_assoc, String.toList_append,
        String.toList_append]
      rfl

/-- Names without slashes are the parts of what is written for them. -/
theorem parts_intercalate (h : ∀ name ∈ names, IsName name) (hne : names ≠ []) :
    parts ("/".intercalate names).toList = names.map String.toList := by
  rw [parts_eq_splitOn, String.toList_intercalate]
  refine List.splitOn_intercalate '/' ?_ (by simpa using hne)
  intro part hpart
  obtain ⟨name, hname, rfl⟩ := List.mem_map.mp hpart
  exact (h name hname).2.2.2

/-- What is written for names does not start at the root. -/
theorem head?_intercalate (h : ∀ name ∈ names, IsName name) (hne : names ≠ []) :
    ("/".intercalate names).toList.head? ≠ some '/' := by
  obtain ⟨name, rest, rfl⟩ := List.exists_cons_of_ne_nil hne
  obtain ⟨hempty, -, -, hslash⟩ := h name List.mem_cons_self
  obtain ⟨tail, htail, -⟩ := exists_toList_intercalate name rest
  have hchars : name.toList ≠ [] := by simpa using hempty
  obtain ⟨c, cs, hname⟩ := List.exists_cons_of_ne_nil hchars
  rw [htail, hname]
  intro hhead
  rw [hname, Option.some.inj hhead] at hslash
  exact hslash List.mem_cons_self

/-! ## Following parts -/

/-- A part that leads to a name: it is not empty and neither a dot nor two. -/
def Leads (part : List Char) : Prop :=
  part ≠ [] ∧ part ≠ ['.'] ∧ part ≠ ['.', '.']

/-- A part that leads to a name adds this name. -/
theorem follow_of_leads {part : List Char} (h : Leads part) :
    follow names part = names ++ [String.ofList part] := by
  obtain ⟨hempty, hdot, hdots⟩ := h
  simp [follow, hempty, hdot, hdots]

/-- A name leads to itself. -/
theorem leads_toList (h : IsName name) : Leads name.toList := by
  obtain ⟨hempty, hdot, hdots, -⟩ := h
  refine ⟨?_, ?_, ?_⟩
  · simpa using hempty
  · exact fun hname => hdot (String.toList_injective hname)
  · exact fun hname => hdots (String.toList_injective hname)

/-- What is reached by following a part was there before, or the part leads to it. -/
theorem mem_follow {part : List Char} (h : name ∈ follow names part) :
    name ∈ names ∨ name = String.ofList part ∧ Leads part := by
  by_cases hpart : Leads part
  · rw [follow_of_leads hpart, List.mem_append, List.mem_singleton] at h
    exact h.imp_right fun hname => ⟨hname, hpart⟩
  · left
    unfold follow at h
    split at h
    · exact h
    next hsome =>
        split at h
        · exact (List.dropLast_sublist names).subset h
        next hdots =>
            rw [not_or] at hsome
            exact absurd ⟨hsome.1, hsome.2, hdots⟩ hpart

/-- Names that are reached were there before or come from parts that lead to them. -/
theorem mem_foldl_follow {parts : List (List Char)} (h : name ∈ parts.foldl follow names) :
    name ∈ names ∨ ∃ part ∈ parts, name = String.ofList part ∧ Leads part := by
  induction parts generalizing names with
  | nil => exact .inl h
  | cons part parts ih =>
      rcases ih h with hname | ⟨later, hlater, hname⟩
      · rcases mem_follow hname with hname | hname
        · exact .inl hname
        · exact .inr ⟨part, List.mem_cons_self, hname⟩
      · exact .inr ⟨later, List.mem_cons_of_mem part hlater, hname⟩

/-- Names are followed one by one. -/
theorem foldl_follow_names (h : ∀ name ∈ names, IsName name) (start : List String) :
    (names.map String.toList).foldl follow start = start ++ names := by
  induction names generalizing start with
  | nil => rw [List.map_nil, List.foldl_nil, List.append_nil]
  | cons name names ih =>
      rw [List.forall_mem_cons] at h
      rw [List.map_cons, List.foldl_cons, follow_of_leads (leads_toList h.1), String.ofList_toList,
        ih h.2, List.append_assoc, List.singleton_append]

/-- Empty parts lead nowhere. -/
theorem foldl_follow_filter (parts : List (List Char)) (start : List String) :
    (parts.filter (· ≠ [])).foldl follow start = parts.foldl follow start := by
  induction parts generalizing start with
  | nil => rfl
  | cons part parts ih =>
      by_cases hpart : part = []
      · rw [List.filter_cons_of_neg (by simpa using hpart), ih, List.foldl_cons, hpart]
        rfl
      · rw [List.filter_cons_of_pos (by simpa using hpart), List.foldl_cons, ih, List.foldl_cons]

/-! ## Resolving -/

/-- The names of what is reached are those of the directory, and names that are written. -/
theorem mem_names_resolve (h : name ∈ (directory.resolve written).names) :
    name ∈ directory.names ∨ IsName name ∧ ∀ c ∈ name.toList, c ∈ written.toList := by
  rcases mem_foldl_follow h with hname | ⟨part, hpart, rfl, hempty, hdot, hdots⟩
  · split at hname
    · cases hname
    · exact .inl hname
  · have hne {s : String} (hs : part ≠ s.toList) : String.ofList part ≠ s := by
      rintro rfl
      exact hs String.toList_ofList.symm
    refine .inr ⟨⟨hne hempty, hne hdot, hne hdots, ?_⟩, ?_⟩
    · rw [String.toList_ofList]
      exact fun hslash => (mem_of_mem_parts hpart hslash).2 rfl
    · rw [String.toList_ofList]
      exact fun c hc => (mem_of_mem_parts hpart hc).1

/-- Resolving a path in a directory in normal form gives a path in normal form. -/
theorem normal_resolve (h : directory.Normal) (written : String) :
    (directory.resolve written).Normal := by
  intro name hname
  rcases mem_names_resolve hname with hname | hname
  · exact h name hname
  · exact hname.1

/-- Names that are written one after another lead down from the directory. -/
theorem resolve_intercalate (h : ∀ name ∈ names, IsName name) (hne : names ≠ [])
    (directory : Path) :
    directory.resolve ("/".intercalate names) = ⟨directory.names ++ names⟩ := by
  rw [resolve, if_neg (head?_intercalate h hne), parts_intercalate h hne, foldl_follow_names h]

/-- A path in normal form is reached by what is written for it. -/
theorem resolve_toString (h : path.Normal) (directory : Path) :
    directory.resolve path.toString = path := by
  have hchars : path.toString.toList = '/' :: ("/".intercalate path.names).toList := by
    rw [toString, String.toList_append]
    rfl
  have hfollow : (parts path.toString.toList).foldl follow [] = path.names := by
    rw [hchars]
    -- the part before the first slash is empty
    show (parts ("/".intercalate path.names).toList).foldl follow [] = path.names
    by_cases hne : path.names = []
    · rw [hne]
      rfl
    · rw [parts_intercalate h hne, foldl_follow_names h, List.nil_append]
  rw [resolve, if_pos (by rw [hchars]; rfl), hfollow]

/-- The last part that is not empty is the last name, if it leads to one. -/
theorem exists_names_resolve {last : List Char}
    (h : ((parts written.toList).filter (· ≠ [])).getLast? = some last) (hlast : Leads last)
    (directory : Path) :
    ∃ above, (directory.resolve written).names = above ++ [String.ofList last] := by
  obtain ⟨front, hfront⟩ := List.getLast?_eq_some_iff.mp h
  rw [resolve, ← foldl_follow_filter, hfront, List.foldl_concat, follow_of_leads hlast]
  exact ⟨_, rfl⟩

/-! ## Extensions -/

/-- A part with an extension leads to a name. -/
theorem leads_of_extensionOf {part : List Char} (h : extensionOf part ≠ []) : Leads part := by
  refine ⟨?_, ?_, ?_⟩ <;> rintro rfl <;> exact h rfl

/-- A path has the extension of the written path that leads to it. -/
theorem extension_resolve (h : writtenExtension written ≠ "") (directory : Path) :
    (directory.resolve written).names ≠ [] ∧
      (directory.resolve written).extension = writtenExtension written := by
  have hextension :
      extensionOf (((parts written.toList).filter (· ≠ [])).getLast?.getD []) ≠ [] := by
    rw [← List.getLastD_eq_getLast?]
    exact fun hnone => h (by rw [writtenExtension, hnone])
  cases hlast : ((parts written.toList).filter (· ≠ [])).getLast? with
  | none =>
      rw [hlast] at hextension
      exact absurd rfl hextension
  | some last =>
      rw [hlast, Option.getD_some] at hextension
      obtain ⟨above, hnames⟩ :=
        exists_names_resolve hlast (leads_of_extensionOf hextension) directory
      refine ⟨by rw [hnames]; exact List.concat_ne_nil _ _, ?_⟩
      rw [extension, name, hnames, List.getLastD_concat, String.toList_ofList, writtenExtension,
        List.getLastD_eq_getLast?, hlast, Option.getD_some]

end LolMarkup.Path
