/-!
Tables in order of insertion. A key keeps the place where it was first written and takes the value that
was written last.
-/

namespace WorkflowAudit

/-- Keys and their values, in order. -/
abbrev Table (α : Type) := List (String × α)

namespace Table

/-- Writes a value under a key: in its place if it has one, else at the end. -/
def insert {α : Type} (table : Table α) (key : String) (value : α) : Table α :=
  match table with
  | [] => [(key, value)]
  | (k, v) :: rest => if k = key then (k, value) :: rest else (k, v) :: insert rest key value

/-- The table of the pairs of a list, written one after the other. -/
def ofList {α : Type} (pairs : List (String × α)) : Table α :=
  pairs.foldl (fun t p => insert t p.1 p.2) []

end Table

end WorkflowAudit
