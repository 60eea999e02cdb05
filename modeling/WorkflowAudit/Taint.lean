import WorkflowAudit.Expr.Fragment
import WorkflowAudit.Untrusted
import WorkflowAudit.Yaml.Node

/-!
Taint: references to untrusted properties in the expressions of a scalar. Each accessor chain is judged
once, at its full length, by following its links through the tree of untrusted paths; a chain is
reported when it arrives at the end of a path. The expressions inside a chain, its indices and a head
that is no variable, are judged before the chain itself.
-/

namespace WorkflowAudit

/-- A tree that a chain has led to, and the path that it took. -/
structure Reached where
  trie : Trie
  path : String

namespace Reached

/-- Follows a property: a declared name if there is one, else any property. -/
def property? (r : Reached) (name : String) : Option Reached :=
  match r.trie.named.find? fun c => Text.sameIgnoringCase c.1 name with
  | some (label, t) => some ⟨t, r.path ++ "." ++ label⟩
  | none => (r.trie.child? Trie.anyProperty).map fun t => ⟨t, r.path ++ "." ++ name⟩

/-- Follows a computed index, which may select any element or property. -/
def element? (r : Reached) : Option Reached :=
  ((r.trie.child? Trie.anyElement).or (r.trie.child? Trie.anyProperty)).map fun t =>
    ⟨t, r.path ++ "." ++ Trie.anyElement⟩

/-- Follows an object filter: the elements of a list, or else every declared property. -/
def filtered (r : Reached) : List Reached :=
  match r.trie.child? Trie.anyElement with
  | some t => [⟨t, r.path ++ "." ++ Trie.anyElement⟩]
  | none => r.trie.named.map fun c => ⟨c.2, r.path ++ "." ++ c.1⟩

end Reached

/-- What a chain leads to; nothing if it does not start at a variable. -/
def reach (untrusted : Trie) : Expr → List Reached
  | .var _ name => ((untrusted.child? name).map fun t => ⟨t, Text.lower name⟩).toList
  | .property _ r name => (reach untrusted r).filterMap (·.property? name)
  | .index _ e (.literal _ (.string name)) => (reach untrusted e).filterMap (·.property? name)
  | .index _ e _ => (reach untrusted e).filterMap (·.element?)
  | .filter _ r => (reach untrusted r).flatMap (·.filtered)
  | .literal .. | .call .. | .binary .. | .not .. => []

/-- The untrusted paths that a chain ends at, with its offset; nothing if there are none. -/
def judge (untrusted : Trie) (e : Expr) : List (Nat × List String) :=
  let paths := ((reach untrusted e).filter (·.trie.isLeaf)).map (·.path)
  if paths.isEmpty then [] else [(e.origin.offset, paths)]

mutual

/-- The references inside an expression, the chain that it is itself left out. -/
def innerTaints (untrusted : Trie) : Expr → List (Nat × List String)
  | .literal .. | .var .. => []
  | .property _ r _ | .filter _ r => innerTaints untrusted r
  | .index _ e k => innerTaints untrusted e ++ (innerTaints untrusted k ++ judge untrusted k)
  | .call _ _ args => argumentTaints untrusted args
  | .binary _ _ l r =>
    (innerTaints untrusted l ++ judge untrusted l) ++ (innerTaints untrusted r ++ judge untrusted r)
  | .not _ e => innerTaints untrusted e ++ judge untrusted e

/-- The references in a list of expressions. -/
def argumentTaints (untrusted : Trie) : List Expr → List (Nat × List String)
  | [] => []
  | e :: rest => (innerTaints untrusted e ++ judge untrusted e) ++ argumentTaints untrusted rest

end

/-- The references to untrusted properties in an expression: the offset of each, and its paths. -/
def exprTaints (untrusted : Trie) (e : Expr) : List (Nat × List String) :=
  innerTaints untrusted e ++ judge untrusted e

/-- A reference to untrusted input. Several paths mean that an object filter selects them all. -/
structure Taint where
  position : Position
  paths : List String
  deriving DecidableEq, Repr

namespace Taint

/-- The message for a reference. -/
def message (t : Taint) : String :=
  match t.paths with
  | [path] => s!"Expression injection, \"{path}\" is potentially untrusted."
  | paths =>
    let list := ", ".intercalate (paths.map fun p => "\"" ++ p ++ "\"")
    s!"Expression injection, object filter extracts potentially untrusted properties {list}."

/-- The references in a scalar, from left to right. Fragments that cannot be read have none. -/
def ofScalar (untrusted : Trie) (s : Yaml.Scalar) : List Taint :=
  (Fragment.all s.value).flatMap fun f =>
    match f.expr with
    | .ok e => (exprTaints untrusted e).map fun (offset, paths) =>
        ⟨s.positionAt (f.body + offset), paths⟩
    | .error _ => []

end Taint

end WorkflowAudit
