import LolMarkup.Path

/-!
# Diagnostics

A diagnostic is what a user is told about a document: a stable code, a severity, a message and, when
it is known, a place. The command line prints diagnostics one per line, ordered by place.
-/

namespace LolMarkup

/-- How grave a diagnostic is. -/
inductive Severity where
  | error
  | warning
  | info
deriving DecidableEq, Repr

namespace Severity

/-- The word printed for a severity. -/
def label : Severity → String
  | error => "error"
  | warning => "warning"
  | info => "info"

/-- Graver severities have lower ranks. -/
def rank : Severity → Nat
  | error => 0
  | warning => 1
  | info => 2

end Severity

/-- The conditions that are diagnosed. The first group concerns the entry file, then come lexical,
syntactic and scoping conditions. -/
inductive Code where
  | unknown
  | unreadableEntry
  | internalFailure
  | wrongExtension
  | unknownHashWord
  | unclosedComment
  | malformed
  | trailingTokens
  | redeclared
  | undeclared
  | unassigned
  | assignedUndeclared
deriving DecidableEq, Repr

namespace Code

/-- The codes in the order of their identifiers. -/
def all : List Code :=
  [unknown, unreadableEntry, internalFailure, wrongExtension, unknownHashWord, unclosedComment,
   malformed, trailingTokens, redeclared, undeclared, unassigned, assignedUndeclared]

/-- The stable identifier of a code. -/
def id : Code → String
  | unknown => "LOL000"
  | unreadableEntry => "LOL001"
  | internalFailure => "LOL002"
  | wrongExtension => "LOL003"
  | unknownHashWord => "LOL100"
  | unclosedComment => "LOL101"
  | malformed => "LOL200"
  | trailingTokens => "LOL201"
  | redeclared => "LOL300"
  | undeclared => "LOL301"
  | unassigned => "LOL302"
  | assignedUndeclared => "LOL303"

/-- The code with the given identifier. -/
def ofId? (text : String) : Option Code :=
  all.find? (·.id = text)

/-- A code is found by its identifier. -/
@[simp] theorem ofId?_id (code : Code) : ofId? code.id = some code := by
  cases code <;> decide

end Code

/-- A message about a file, with its line and column where they are known. -/
structure Diagnostic where
  code : Code
  severity : Severity
  message : String
  file : String
  line : Option Int
  column : Option Int
deriving DecidableEq, Repr

namespace Diagnostic

/-- Whether a diagnostic is an error. -/
def isError (d : Diagnostic) : Bool :=
  d.severity = .error

/-- Whether one of the diagnostics is an error. -/
def anyError (ds : List Diagnostic) : Bool :=
  ds.any isError

/-- The place that a diagnostic names: the file, and the line and column if both are known. -/
def place (d : Diagnostic) : String :=
  match d.line, d.column with
  | some line, some column => s!"{d.file}:{line}:{column}"
  | _, _ => d.file

/-- The printed form of a diagnostic. -/
def format (d : Diagnostic) : String :=
  s!"{d.place}: {d.severity.label}: [{d.code.id}] {d.message}"

/-- The name of the failure that carries a diagnostic out of a stage. -/
def failureName : String := "DiagnosticError"

/-- The text of the failure that carries a diagnostic: its name, and its message unless that is
empty. -/
def failureText (d : Diagnostic) : String :=
  if d.message.isEmpty then failureName else s!"{failureName}: {d.message}"

/-- The file of a diagnostic as it counts for ordering, where both slashes are the same. -/
def fileKey (d : Diagnostic) : String :=
  Path.slashed d.file

/-- Order by a coordinate and then by the rest. A missing coordinate comes last, and where both are
missing the rest does not count. -/
def compareCoordinate : Option Int → Option Int → Ordering → Ordering
  | some m, some n, rest => (compare m n).then rest
  | some _, none, _ => .lt
  | none, some _, _ => .gt
  | none, none, _ => .eq

/-- Order by severity, then by identifier, then by message. -/
def compareContent (a b : Diagnostic) : Ordering :=
  (compare a.severity.rank b.severity.rank).then <|
    (compare a.code.id b.code.id).then (compare a.message b.message)

/-- The order in which diagnostics are printed: by file, line, column and content. -/
def order (a b : Diagnostic) : Ordering :=
  (compare a.fileKey b.fileKey).then <|
    compareCoordinate a.line b.line <| compareCoordinate a.column b.column (compareContent a b)

/-- The diagnostics in printing order. Those that are equal in it keep their relative order. -/
def sorted (ds : List Diagnostic) : List Diagnostic :=
  ds.mergeSort fun a b => (order a b).isLE

end Diagnostic

end LolMarkup
