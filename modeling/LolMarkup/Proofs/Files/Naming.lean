import LolMarkup.Path
import Mathlib.Data.List.Basic

/-!
# Paths and their extensions

The last name of a path is its stem and its extension (`Path.stem_append_extension`), so another
extension changes the end of the written path and nothing else (`Path.toString_withExtension`). The
directories above a path are the one that holds it and those above that one (`Path.ancestors_eq`).
-/

namespace LolMarkup.Path

/-- The written form of a path less its extension. -/
def base (path : Path) : String :=
  String.ofList (path.toString.toList.take (path.toString.length - path.extension.length))

/-! ## Stem and extension -/

/-- The extension stands at the end of the name. -/
theorem extensionOf_suffix (name : List Char) : extensionOf name <:+ name := by
  unfold extensionOf
  split
  · exact List.nil_suffix
  · exact List.nil_suffix
  next d rest _ hdrop =>
      split
      · exact List.nil_suffix
      · have hdot : d = '.' := by
          have hhead := List.head?_dropWhile_not (· ≠ '.') name.reverse
          rw [hdrop] at hhead
          simpa using hhead
        have hsplit := List.takeWhile_append_dropWhile (p := (· ≠ '.')) (l := name.reverse)
        rw [hdrop, hdot] at hsplit
        generalize name.reverse.takeWhile (· ≠ '.') = after at hsplit ⊢
        refine ⟨rest.reverse, ?_⟩
        rw [← List.reverse_inj, ← hsplit]
        simp

/-- A text less its ending. -/
theorem ofList_take_append (front ending : String) :
    String.ofList ((front ++ ending).toList.take ((front ++ ending).length - ending.length)) =
      front := by
  apply String.toList_inj.mp
  simp [String.toList_append, ← String.length_toList]

/-- A name is its stem and its extension. -/
theorem stem_append_extension (path : Path) : path.stem ++ path.extension = path.name := by
  obtain ⟨front, hfront⟩ := extensionOf_suffix path.name.toList
  have hname : path.name = String.ofList front ++ path.extension := by
    apply String.toList_inj.mp
    rw [String.toList_append, String.toList_ofList, extension, String.toList_ofList, hfront]
  have hstem : path.stem = String.ofList front := by
    rw [stem, hname]
    exact ofList_take_append _ _
  rw [hstem, ← hname]

/-- A path other than the root is its name in its parent. -/
theorem names_eq {path : Path} (h : path.names ≠ []) :
    path.names = path.parent.names ++ [path.name] := by
  rw [parent, name, List.getLastD_eq_getLast?, List.getLast?_eq_some_getLast h]
  exact (List.dropLast_append_getLast h).symm

/-- A path with the extension that it has is the path itself. -/
theorem withExtension_extension {path : Path} (h : path.names ≠ []) :
    path.withExtension path.extension = path := by
  rw [withExtension, stem_append_extension, ← names_eq h]

/-- The name with another extension is the stem with this extension. -/
theorem name_withExtension (path : Path) (extension : String) :
    (path.withExtension extension).name = path.stem ++ extension := by
  rw [withExtension, name, List.getLastD_concat]

/-- A path with an extension is not the root. -/
theorem names_withExtension_ne_nil (path : Path) (extension : String) :
    (path.withExtension extension).names ≠ [] :=
  List.concat_ne_nil _ _

/-- Paths that differ in their extensions are different. -/
theorem withExtension_inj {path : Path} {first second : String} :
    path.withExtension first = path.withExtension second ↔ first = second := by
  constructor
  · intro h
    have hname := congrArg name h
    rw [name_withExtension, name_withExtension] at hname
    exact String.append_right_inj _ |>.mp hname
  · intro h
    rw [h]

/-! ## Written paths -/

/-- What ends the last name also ends all names with separators between them. -/
theorem intercalate_concat_append (separator : String) (names : List String)
    (stem ending : String) :
    separator.intercalate (names ++ [stem ++ ending]) =
      separator.intercalate (names ++ [stem]) ++ ending := by
  induction names with
  | nil => rw [List.nil_append, List.nil_append, String.intercalate_singleton,
      String.intercalate_singleton]
  | cons name names ih =>
      cases names with
      | nil =>
          simp only [List.cons_append, List.nil_append, String.intercalate_cons_cons,
            String.intercalate_singleton, String.append_assoc]
      | cons next names =>
          simp only [List.cons_append, String.intercalate_cons_cons, String.append_assoc] at ih ⊢
          rw [ih]

/-- The extension is written at the end of a path, after its stem. -/
theorem toString_withExtension_stem (path : Path) (extension : String) :
    (path.withExtension extension).toString =
      "/" ++ "/".intercalate (path.parent.names ++ [path.stem]) ++ extension := by
  rw [withExtension, toString, intercalate_concat_append, String.append_assoc]

/-- A written path ends with its own extension. -/
theorem toString_eq_stem (path : Path) :
    path.toString =
      "/" ++ "/".intercalate (path.parent.names ++ [path.stem]) ++ path.extension := by
  by_cases h : path.names = []
  · obtain ⟨names⟩ := path
    cases h
    rfl
  · rw [String.append_assoc, ← intercalate_concat_append, stem_append_extension, ← names_eq h]
    rfl

/-- The base of a path is written up to the stem. -/
theorem base_eq (path : Path) :
    path.base = "/" ++ "/".intercalate (path.parent.names ++ [path.stem]) := by
  rw [base, toString_eq_stem]
  exact ofList_take_append _ _

/-- A written path is its base and its extension. -/
theorem base_append_extension (path : Path) : path.base ++ path.extension = path.toString := by
  rw [base_eq, ← toString_eq_stem]

/-- A path beside another one is written with the base of that one. -/
theorem toString_withExtension (path : Path) (extension : String) :
    (path.withExtension extension).toString = path.base ++ extension := by
  rw [base_eq, toString_withExtension_stem]

/-! ## The directories above a path -/

/-- The directories above a path are its parent and those above the parent. -/
theorem ancestors_eq {path : Path} (h : path.names ≠ []) :
    path.ancestors = path.parent.ancestors ++ [path.parent] := by
  have hnames := names_eq h
  have hlength : path.names.length = path.parent.names.length + 1 := by
    rw [hnames, List.length_append, List.length_singleton]
  have htake (n : Nat) (hn : n ≤ path.parent.names.length) :
      path.names.take n = path.parent.names.take n := by
    rw [hnames, List.take_append_of_le_length hn]
  unfold ancestors
  rw [hlength, List.range_succ, List.map_append]
  congr 1
  · apply List.map_congr_left
    intro n hn
    rw [htake n (Nat.le_of_lt (List.mem_range.mp hn))]
  · rw [List.map_singleton, htake _ (Nat.le_refl _), List.take_length]

end LolMarkup.Path
