import LolMarkup.Json
import Mathlib

/-!
# JSON texts have one reading

A printed value determines the value and where it ends. `ReadsUniquely` says this of a printer and a
value: if the same text begins with the value and with another one, and neither is followed by
something that could belong to it, then the values are equal and so are the rests. It holds of
characters in quotes (`Text.quoteChar_append_inj`), of quoted texts, of numbers and, by induction on
the value, of all JSON values (`Json.readsUniquely`). Between brackets the character after each part
tells whether another part follows (`Json.bracketed_append_inj`).
-/

namespace LolMarkup

/-- A text that can follow a printed value: nothing, or something that starts with a comma or a line
feed. -/
def Follows (rest : List Char) : Prop :=
  ∀ c ∈ rest.head?, c = ',' ∨ c = '\n'

/-- What is printed for a value is printed for no other value, also with something after it. -/
def ReadsUniquely {α : Type} (print : α → String) (a : α) : Prop :=
  ∀ b s t, Follows s → Follows t → (print a).toList ++ s = (print b).toList ++ t → a = b ∧ s = t

/-! ## Quoted texts -/

namespace Text

/-- The number that a hexadecimal digit in lower case stands for. -/
def hexValue (c : Char) : Nat :=
  if c.toNat < 58 then c.toNat - 48 else c.toNat - 87

/-- The value of a hexadecimal digit is the number it was made for. -/
theorem hexValue_hexDigit : ∀ n < 16, hexValue (hexDigit n) = n := by
  decide

/-- The character that a quoted text begins with, and what comes after it. -/
def unquoteChar : List Char → Option (Char × List Char)
  | '\\' :: 'b' :: rest => some ('\x08', rest)
  | '\\' :: 'f' :: rest => some ('\x0c', rest)
  | '\\' :: 'n' :: rest => some ('\n', rest)
  | '\\' :: 'r' :: rest => some ('\r', rest)
  | '\\' :: 't' :: rest => some ('\t', rest)
  | '\\' :: 'u' :: _ :: _ :: high :: low :: rest =>
      some (Char.ofNat (16 * hexValue high + hexValue low), rest)
  | '\\' :: c :: rest => some (c, rest)
  | c :: rest => some (c, rest)
  | [] => none

/-- A quoted character is read back, whatever follows it. -/
theorem unquoteChar_quoteChar (c : Char) (rest : List Char) :
    unquoteChar (quoteChar c ++ rest) = some (c, rest) := by
  unfold quoteChar
  split
  case h_8 _ hbackslash _ _ _ _ _ =>
    split
    · next hlow =>
        have hhigh := hexValue_hexDigit (c.toNat / 16) (by omega)
        have hlow := hexValue_hexDigit (c.toNat % 16) (by omega)
        simp only [List.cons_append, List.nil_append, unquoteChar, hhigh, hlow, Nat.div_add_mod,
          Char.ofNat_toNat]
    · rw [List.singleton_append]
      unfold unquoteChar
      split <;> simp_all
  all_goals rfl

/-- The escaped form of a character determines the character and where it ends. -/
theorem quoteChar_append_inj {c d : Char} {s t : List Char}
    (h : quoteChar c ++ s = quoteChar d ++ t) : c = d ∧ s = t := by
  have hread := congrArg unquoteChar h
  rw [unquoteChar_quoteChar, unquoteChar_quoteChar, Option.some.injEq, Prod.mk.injEq] at hread
  exact hread

/-- A quote inside a quoted text is escaped. -/
theorem quoteChar_append_ne (c : Char) (s t : List Char) : quoteChar c ++ s ≠ '"' :: t := by
  intro h
  have hread := congrArg unquoteChar h
  rw [unquoteChar_quoteChar] at hread
  cases hread
  simp [quoteChar] at h

/-- A quoted text is its quoted characters between quotation marks. -/
theorem toList_quoted (s : String) :
    (quoted s).toList = '"' :: (s.toList.flatMap quoteChar ++ ['"']) := by
  rw [quoted, String.toList_ofList, List.cons_append]

/-- Quoted characters are read back up to the closing quotation mark. -/
theorem flatMap_quoteChar_append_inj {cs ds s t : List Char}
    (h : cs.flatMap quoteChar ++ '"' :: s = ds.flatMap quoteChar ++ '"' :: t) :
    cs = ds ∧ s = t := by
  induction cs generalizing ds with
  | nil =>
      cases ds with
      | nil => exact ⟨rfl, (List.cons.inj h).2⟩
      | cons d ds =>
          rw [List.flatMap_cons, List.append_assoc] at h
          exact absurd h.symm (quoteChar_append_ne d _ _)
  | cons c cs ih =>
      cases ds with
      | nil =>
          rw [List.flatMap_cons, List.append_assoc] at h
          exact absurd h (quoteChar_append_ne c _ _)
      | cons d ds =>
          rw [List.flatMap_cons, List.flatMap_cons, List.append_assoc, List.append_assoc] at h
          obtain ⟨rfl, hrest⟩ := quoteChar_append_inj h
          obtain ⟨rfl, hend⟩ := ih hrest
          exact ⟨rfl, hend⟩

/-- A quoted text ends at its last quote, whatever follows. -/
theorem quoted_append_inj {u v : String} {s t : List Char}
    (h : (quoted u).toList ++ s = (quoted v).toList ++ t) : u = v ∧ s = t := by
  rw [toList_quoted, toList_quoted, List.cons_append, List.cons_append, List.append_assoc,
    List.append_assoc] at h
  obtain ⟨hchars, hend⟩ := flatMap_quoteChar_append_inj (List.cons.inj h).2
  exact ⟨String.toList_injective hchars, hend⟩

/-! ## Numbers -/

/-- The characters of printed numbers. -/
def isNumeric (c : Char) : Bool :=
  c.isDigit || c = '-'

/-- A natural number is written in numeric characters. -/
theorem isNumeric_of_mem_repr {n : Nat} {c : Char} (h : c ∈ n.repr.toList) :
    isNumeric c = true := by
  rw [Nat.toList_repr] at h
  rw [isNumeric, Nat.isDigit_of_mem_toDigits (by decide) (by decide) h, Bool.true_or]

/-- An integer is written in numeric characters. -/
theorem isNumeric_of_mem_toString {n : Int} {c : Char} (h : c ∈ (toString n).toList) :
    isNumeric c = true := by
  rw [Int.toString_eq_repr, Int.repr_eq_if] at h
  split at h
  · exact isNumeric_of_mem_repr h
  · rw [String.toList_append, List.mem_append] at h
    rcases h with hsign | hdigit
    · rw [List.mem_singleton.mp hsign]
      rfl
    · exact isNumeric_of_mem_repr hdigit

/-- An integer starts with a numeric character. -/
theorem exists_toList_toString (n : Int) :
    ∃ c rest, (toString n).toList = c :: rest ∧ isNumeric c = true := by
  have hne : (toString n).toList ≠ [] := by
    rw [Int.toString_eq_repr, Int.repr_eq_if]
    split <;> simp
  obtain ⟨c, rest, hchars⟩ := List.exists_cons_of_ne_nil hne
  exact ⟨c, rest, hchars, isNumeric_of_mem_toString (hchars ▸ List.mem_cons_self)⟩

end Text

open Text

/-- What can follow a value does not go on with a number. -/
theorem Follows.takeWhile_isNumeric {rest : List Char} (h : Follows rest) :
    rest.takeWhile isNumeric = [] := by
  cases rest with
  | nil => rfl
  | cons c rest => rcases h c rfl with rfl | rfl <;> rfl

/-- A number ends before the first character that is not numeric. -/
theorem readsUniquely_toString (n : Int) : ReadsUniquely (toString : Int → String) n := by
  intro m s t hs ht h
  have hprefix (n : Int) {rest : List Char} (hrest : Follows rest) :
      ((toString n).toList ++ rest).takeWhile isNumeric = (toString n).toList := by
    rw [List.takeWhile_append_of_pos fun c hc => isNumeric_of_mem_toString hc,
      hrest.takeWhile_isNumeric, List.append_nil]
  have hchars : (toString n).toList = (toString m).toList := by
    rw [← hprefix n hs, h, hprefix m ht]
  refine ⟨Int.repr_injective (String.toList_injective hchars), ?_⟩
  rw [hchars] at h
  exact List.append_cancel_left h

/-! ## Brackets -/

namespace Json

/-- What comes after the first of some parts between brackets. -/
def remainder (level : Nat) (closing : String) : List String → List Char
  | [] => (lineStart level).toList ++ closing.toList
  | part :: rest =>
      ',' :: ((lineStart (level + 1)).toList ++ part.toList ++ remainder level closing rest)

/-- What comes after the opening bracket. -/
def inside (level : Nat) (closing : String) : List String → List Char
  | [] => closing.toList
  | part :: rest => (lineStart (level + 1)).toList ++ part.toList ++ remainder level closing rest

/-- A line starts with a line feed and two spaces for every level. -/
theorem toList_lineStart (level : Nat) :
    (lineStart level).toList = '\n' :: List.replicate (2 * level) ' ' := by
  simp [lineStart]

/-- Parts between brackets are the first one and what comes after it. -/
theorem toList_intercalate_remainder (level : Nat) (closing part : String) (rest : List String) :
    (("," ++ lineStart (level + 1)).intercalate (part :: rest) ++ lineStart level ++
      closing).toList = part.toList ++ remainder level closing rest := by
  induction rest generalizing part with
  | nil => simp [remainder]
  | cons next rest ih =>
      rw [String.intercalate_cons_cons, remainder]
      simp only [String.append_assoc, String.toList_append, List.append_assoc] at ih ⊢
      rw [ih next]
      rfl

/-- Parts between brackets come after the opening one. -/
theorem toList_bracketed (level : Nat) (opening closing : String) (parts : List String) :
    (bracketed level opening closing parts).toList =
      opening.toList ++ inside level closing parts := by
  cases parts with
  | nil => simp [bracketed, inside]
  | cons part rest =>
      have hrest := toList_intercalate_remainder level closing part rest
      rw [bracketed, if_neg (by simp), inside, List.append_assoc, ← hrest]
      simp only [String.append_assoc, String.toList_append]

variable {α : Type} {print : α → String} {level : Nat} {closing : String}

/-- What comes after a part can follow a value. -/
theorem follows_remainder (level : Nat) (closing : String) (parts : List String) (s : List Char) :
    Follows (remainder level closing parts ++ s) := by
  intro c hc
  cases parts with
  | nil =>
      rw [remainder, toList_lineStart] at hc
      exact .inr (Option.some.inj hc).symm
  | cons part rest => exact .inl (Option.some.inj hc).symm

/-- After each part a comma or a line feed tells whether there is another one. -/
theorem remainder_append_inj {as bs : List α} {s t : List Char}
    (has : ∀ a ∈ as, ReadsUniquely print a)
    (h : remainder level closing (as.map print) ++ s =
      remainder level closing (bs.map print) ++ t) : as = bs ∧ s = t := by
  induction as generalizing bs with
  | nil =>
      cases bs with
      | nil => exact ⟨rfl, List.append_cancel_left h⟩
      | cons b bs => simp [remainder, toList_lineStart] at h
  | cons a as ih =>
      cases bs with
      | nil => simp [remainder, toList_lineStart] at h
      | cons b bs =>
          simp only [List.map_cons, remainder, List.cons_append, List.append_assoc] at h
          have hpart := List.append_cancel_left (List.cons.inj h).2
          obtain ⟨rfl, hrest⟩ := has a List.mem_cons_self b _ _ (follows_remainder _ _ _ _)
            (follows_remainder _ _ _ _) hpart
          obtain ⟨rfl, hend⟩ := ih (fun a ha => has a (List.mem_cons_of_mem _ ha)) hrest
          exact ⟨rfl, hend⟩

/-- What stands between brackets has one reading if its parts have. -/
theorem bracketed_append_inj {opening : String} {as bs : List α} {s t : List Char}
    (hclosing : ∃ c, closing.toList = [c] ∧ c ≠ '\n') (has : ∀ a ∈ as, ReadsUniquely print a)
    (h : (bracketed level opening closing (as.map print)).toList ++ s =
      (bracketed level opening closing (bs.map print)).toList ++ t) : as = bs ∧ s = t := by
  obtain ⟨last, hlast, hnewline⟩ := hclosing
  rw [toList_bracketed, toList_bracketed, List.append_assoc, List.append_assoc] at h
  replace h := List.append_cancel_left h
  cases as with
  | nil =>
      cases bs with
      | nil => exact ⟨rfl, List.append_cancel_left h⟩
      | cons b bs =>
          simp only [List.map_nil, List.map_cons, inside, hlast, toList_lineStart] at h
          exact absurd (List.cons.inj h).1 hnewline
  | cons a as =>
      cases bs with
      | nil =>
          simp only [List.map_nil, List.map_cons, inside, hlast, toList_lineStart] at h
          exact absurd (List.cons.inj h).1.symm hnewline
      | cons b bs =>
          simp only [List.map_cons, inside, List.append_assoc] at h
          obtain ⟨rfl, hrest⟩ := has a List.mem_cons_self b _ _ (follows_remainder _ _ _ _)
            (follows_remainder _ _ _ _) (List.append_cancel_left h)
          obtain ⟨rfl, hend⟩ :=
            remainder_append_inj (fun a ha => has a (List.mem_cons_of_mem _ ha)) hrest
          exact ⟨rfl, hend⟩

/-! ## Values -/

/-- The text of a member of an object. -/
def prettyMember (level : Nat) (member : String × Json) : String :=
  Text.quoted member.1 ++ ": " ++ pretty level member.2

/-- Items are printed one by one. -/
theorem prettyItems_eq_map (level : Nat) (items : List Json) :
    prettyItems level items = items.map (pretty level) := by
  induction items with
  | nil => rfl
  | cons item rest ih => rw [prettyItems, ih, List.map_cons]

/-- Members are printed one by one. -/
theorem prettyMembers_eq_map (level : Nat) (members : List (String × Json)) :
    prettyMembers level members = members.map (prettyMember level) := by
  induction members with
  | nil => rfl
  | cons member rest ih =>
      obtain ⟨key, value⟩ := member
      rw [prettyMembers, ih, List.map_cons, prettyMember]

/-- An array is printed as its items in brackets. -/
theorem pretty_array (level : Nat) (items : List Json) :
    pretty level (.array items) =
      bracketed level "[" "]" (items.map (pretty (level + 1))) := by
  rw [pretty, prettyItems_eq_map]

/-- An object is printed as its members in braces. -/
theorem pretty_object (level : Nat) (members : List (String × Json)) :
    pretty level (.object members) =
      bracketed level "\x7b" "\x7d" (members.map (prettyMember (level + 1))) := by
  rw [pretty, prettyMembers_eq_map]

/-- The forms of values. -/
inductive Form where
  | number
  | string
  | array
  | object

/-- The form of a value. -/
def form : Json → Form
  | .number _ => .number
  | .string _ => .string
  | .array _ => .array
  | .object _ => .object

/-- The form of the values whose text starts with a character. -/
def Form.ofChar (c : Char) : Form :=
  if isNumeric c then .number
  else if c = '"' then .string
  else if c = '[' then .array
  else .object

/-- The first character that is printed tells the form of a value. -/
theorem exists_head_pretty (level : Nat) (json : Json) :
    ∃ c rest, (pretty level json).toList = c :: rest ∧ Form.ofChar c = json.form := by
  cases json with
  | number value =>
      obtain ⟨c, rest, hchars, hnumeric⟩ := exists_toList_toString value
      exact ⟨c, rest, by rw [pretty, hchars], by rw [Form.ofChar, if_pos hnumeric, form]⟩
  | string value => exact ⟨'"', _, by rw [pretty, toList_quoted], rfl⟩
  | array items => exact ⟨'[', _, by rw [pretty, toList_bracketed]; rfl, rfl⟩
  | object members => exact ⟨'\x7b', _, by rw [pretty, toList_bracketed]; rfl, rfl⟩

/-- The first character tells what form a value has. -/
theorem form_eq_of_append {level : Nat} {json other : Json} {s t : List Char}
    (h : (pretty level json).toList ++ s = (pretty level other).toList ++ t) :
    json.form = other.form := by
  obtain ⟨c, _, hc, hform⟩ := exists_head_pretty level json
  obtain ⟨d, _, hd, hother⟩ := exists_head_pretty level other
  rw [hc, hd] at h
  rw [← hform, ← hother, (List.cons.inj h).1]

/-- A member is read uniquely if its value is. -/
theorem readsUniquely_prettyMember {level : Nat} {member : String × Json}
    (h : ReadsUniquely (pretty level) member.2) : ReadsUniquely (prettyMember level) member := by
  intro other s t hs ht heq
  simp only [prettyMember, String.toList_append, List.append_assoc] at heq
  obtain ⟨hkey, hrest⟩ := quoted_append_inj heq
  obtain ⟨hvalue, hend⟩ := h other.2 s t hs ht (List.append_cancel_left hrest)
  exact ⟨Prod.ext hkey hvalue, hend⟩

mutual

/-- The text of a value determines the value. -/
theorem readsUniquely (level : Nat) (json : Json) : ReadsUniquely (pretty level) json := by
  intro other s t hs ht h
  have hform := form_eq_of_append h
  cases json with
  | number value =>
      cases other with
      | number m =>
          rw [pretty, pretty] at h
          obtain ⟨rfl, hend⟩ := readsUniquely_toString value m s t hs ht h
          exact ⟨rfl, hend⟩
      | _ => cases hform
  | string value =>
      cases other with
      | string u =>
          rw [pretty, pretty] at h
          obtain ⟨rfl, hend⟩ := quoted_append_inj h
          exact ⟨rfl, hend⟩
      | _ => cases hform
  | array items =>
      cases other with
      | array others =>
          rw [pretty_array, pretty_array] at h
          obtain ⟨rfl, hend⟩ := bracketed_append_inj ⟨']', rfl, by decide⟩
            (readsUniquely_items (level + 1) items) h
          exact ⟨rfl, hend⟩
      | _ => cases hform
  | object members =>
      cases other with
      | object others =>
          rw [pretty_object, pretty_object] at h
          obtain ⟨rfl, hend⟩ := bracketed_append_inj ⟨'\x7d', rfl, by decide⟩
            (readsUniquely_members (level + 1) members) h
          exact ⟨rfl, hend⟩
      | _ => cases hform

/-- The items of an array are read uniquely. -/
theorem readsUniquely_items (level : Nat) (items : List Json) :
    ∀ item ∈ items, ReadsUniquely (pretty level) item := by
  cases items with
  | nil => simp
  | cons item rest =>
      rw [List.forall_mem_cons]
      exact ⟨readsUniquely level item, readsUniquely_items level rest⟩

/-- The members of an object are read uniquely. -/
theorem readsUniquely_members (level : Nat) (members : List (String × Json)) :
    ∀ member ∈ members, ReadsUniquely (prettyMember level) member := by
  cases members with
  | nil => simp
  | cons member rest =>
      obtain ⟨key, value⟩ := member
      rw [List.forall_mem_cons]
      exact ⟨readsUniquely_prettyMember (readsUniquely level value),
        readsUniquely_members level rest⟩

end

end Json

end LolMarkup
