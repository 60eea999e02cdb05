import WorkflowAudit.Yaml.Alignment
import WorkflowAudit.Yaml.Outline.Document
import WorkflowAudit.Yaml.Data.Value
import WorkflowAudit.Text.Bytes

/-!
The tree of a document: scalars are decoded, aliases are replaced by copies of the nodes they name, and
merge keys are spread into the mappings that hold them. Every node knows where it begins.
-/

namespace WorkflowAudit.Yaml

/-- A decoded scalar, where it begins, how it is written, and the runs that lead from offsets in its
    value back to the document. -/
structure Scalar where
  value : String
  position : Position
  style : Style
  runs : List Run
  deriving DecidableEq, Repr

namespace Scalar

/-- The value holds an embedded expression. -/
def hasExpression (s : Scalar) : Bool :=
  Text.contains s.value "$\x7b\x7b"

/-- The position in the document of a byte offset in the value; offsets beyond the end count as the
    end. -/
def positionAt (s : Scalar) (offset : Nat) : Position :=
  let offset := min offset s.value.utf8ByteSize
  match (s.runs.takeWhile (·.offset ≤ offset)).getLast? with
  | some r => r.positionAt offset
  | none => s.position

end Scalar

/-- A node of a document. -/
inductive Node where
  | null (position : Position)
  | scalar (value : Scalar)
  | sequence (position : Position) (items : List Node)
  | mapping (position : Position) (entries : List (Scalar × Node))
  deriving Repr

/-- The entries of a mapping, in order; a key may stand more than once. -/
abbrev Entries := List (Scalar × Node)

/-- The value of the first entry with a key. -/
def Entries.get? (entries : Entries) (key : String) : Option Node :=
  (entries.find? (·.1.value = key)).map (·.2)

/-- The first entry with a key. -/
def Entries.entry? (entries : Entries) (key : String) : Option (Scalar × Node) :=
  entries.find? (·.1.value = key)

namespace Node

/-- Where a node begins. -/
def position : Node → Position
  | null p | sequence p _ | mapping p _ => p
  | scalar s => s.position

/-- The scalar that a node is. -/
def scalar? : Node → Option Scalar
  | scalar s => some s
  | _ => none

/-- The items of a node that is a sequence. -/
def items? : Node → Option (List Node)
  | sequence _ items => some items
  | _ => none

/-- The entries of a node that is a mapping. -/
def entries? : Node → Option Entries
  | mapping _ entries => some entries
  | _ => none

/-- The value under a key of a node that is a mapping. -/
def get? (n : Node) (key : String) : Option Node :=
  n.entries?.bind (·.get? key)

end Node

/-- Why a document cannot be used. -/
inductive SyntaxError where
  /-- The text is not well-formed YAML. -/
  | invalidYaml
  /-- The text is well formed, but a node is not what it should be. -/
  | malformed (position : Position) (problem : String)
  deriving DecidableEq, Repr

/-- The message of an error, with the position where there is one. -/
def SyntaxError.message : SyntaxError → String
  | invalidYaml => "input is not valid YAML"
  | malformed p problem => s!"{p.text}: {problem}"

/-- The value of a scalar written as `raw`. A plain scalar on one line is its own value; others are
    decoded as documents of their own, and keep their text when that fails. -/
def decode (style : Style) (raw : List Char) : String :=
  if style = .plain && !raw.contains '\n' then String.ofList raw
  else (Data.scalarText? raw).getD (String.ofList raw)

/-- The part of a scalar's text that its value is written in, and where it begins. -/
def bodyOf (style : Style) (raw : List Char) (position : Position) : List Char × Position :=
  match style with
  | .plain => (raw, position)
  | .single | .double => ((raw.drop 1).dropLast, ⟨position.line, position.column + 1⟩)
  | .literal | .folded => ((raw.dropWhile (· ≠ '\n')).drop 1, ⟨position.line + 1, 1⟩)

/-- The scalar that stands between two places of a document. -/
def Scalar.ofSpan (document : List Char) (style : Style) (start stop : Nat) : Scalar :=
  let raw := (document.drop start).take (stop - start)
  let position := Position.ofIndex document start
  let value := decode style raw
  let (body, begins) := bodyOf style raw position
  ⟨value, position, style, align style value.toList body begins⟩

namespace Node

/-- The anchored nodes of a document that are complete, from the latest. -/
abbrev Anchors := List (String × Node)

/-- A key that spreads the entries of its value into its mapping. -/
def isMergeKey (key : Scalar) : Bool :=
  key.value = "<<" && key.style = .plain

/-- The mappings that the value of a merge key stands for. -/
def mergeSources : Node → Except SyntaxError (List Entries)
  | mapping _ entries => .ok [entries]
  | sequence _ items => .ok (items.filterMap entries?)
  | n => .error (.malformed n.position "merge key value must be a mapping")

/-- Adds an entry whose key is not there yet. -/
def addMissing (entries : Entries) (entry : Scalar × Node) : Entries :=
  if entries.any (·.1.value = entry.1.value) then entries else entries ++ [entry]

/-- The entries of a mapping after those that its merge keys add; explicit entries win over merged
    ones, and earlier merges over later ones. -/
def mergeInto (entries : Entries) : List Node → Except SyntaxError Entries
  | [] => .ok entries
  | merge :: rest =>
    match mergeSources merge with
    | .error e => .error e
    | .ok sources => mergeInto (sources.flatten.foldl addMissing entries) rest

/-- The entries of pairs that are not merge keys, and the values of those that are. -/
def partition (pairs : Entries) : Entries × List Node :=
  (pairs.filter (!isMergeKey ·.1), (pairs.filter (isMergeKey ·.1)).map (·.2))

/-- The mapping at a position made of pairs. -/
def ofPairs (position : Position) (pairs : Entries) : Except SyntaxError Node :=
  let (entries, merges) := partition pairs
  (mergeInto entries merges).map (.mapping position)

/-- The name that an alias looks for. -/
def aliasName (written : String) : String :=
  String.ofList (written.toList.dropWhile (· = '*'))

mutual

/-- The node that an outline stands for, and the anchors that are complete after it. -/
def build (document : List Char) (outline : Outline) (anchors : Anchors) :
    Except SyntaxError (Node × Anchors) :=
  match outline with
  | .absent => .ok (.null .start, anchors)
  | .empty start => .ok (.null (Position.ofIndex document start), anchors)
  | .scalar style start stop => .ok (.scalar (Scalar.ofSpan document style start stop), anchors)
  | .alias start written =>
    let name := aliasName written
    match anchors.lookup name with
    | some n => .ok (n, anchors)
    | none => .error (.malformed (Position.ofIndex document start) s!"unknown alias `{name}`")
  | .sequence start items =>
    match buildItems document items anchors with
    | .error e => .error e
    | .ok (nodes, anchors) => .ok (.sequence (Position.ofIndex document start) nodes, anchors)
  | .mapping start pairs =>
    match buildPairs document pairs anchors with
    | .error e => .error e
    | .ok (pairs, anchors) =>
      (ofPairs (Position.ofIndex document start) pairs).map fun n => (n, anchors)
  | .pair start key value =>
    -- a pair that stands alone in a sequence
    let position := Position.ofIndex document start
    if key.isAbsent then .ok (.null position, anchors)
    else
      match build document key anchors with
      | .error e => .error e
      | .ok (.scalar k, anchors) =>
        if value.isAbsent then .ok (.mapping position [(k, .null position)], anchors)
        else
          match build document value anchors with
          | .error e => .error e
          | .ok (v, anchors) => .ok (.mapping position [(k, v)], anchors)
      | .ok _ => .error (.malformed position "mapping keys must be scalars")
  | .anchored name content =>
    match build document content anchors with
    | .error e => .error e
    | .ok (n, anchors) => .ok (n, (name, n) :: anchors)

/-- The nodes of a sequence. -/
def buildItems (document : List Char) (items : List Outline) (anchors : Anchors) :
    Except SyntaxError (List Node × Anchors) :=
  match items with
  | [] => .ok ([], anchors)
  | item :: rest =>
    match build document item anchors with
    | .error e => .error e
    | .ok (n, anchors) =>
      match buildItems document rest anchors with
      | .error e => .error e
      | .ok (ns, anchors) => .ok (n :: ns, anchors)

/-- The pairs of a mapping, merge keys among them. A pair without a key is left out; one without a
    value has a null at its key. -/
def buildPairs (document : List Char) (pairs : List Outline) (anchors : Anchors) :
    Except SyntaxError (Entries × Anchors) :=
  match pairs with
  | [] => .ok ([], anchors)
  | .pair _ key value :: rest =>
    if key.isAbsent then buildPairs document rest anchors
    else
      match build document key anchors with
      | .error e => .error e
      | .ok (.scalar k, anchors) =>
        if value.isAbsent then
          match buildPairs document rest anchors with
          | .error e => .error e
          | .ok (es, anchors) => .ok ((k, .null k.position) :: es, anchors)
        else
          match build document value anchors with
          | .error e => .error e
          | .ok (v, anchors) =>
            match buildPairs document rest anchors with
            | .error e => .error e
            | .ok (es, anchors) => .ok ((k, v) :: es, anchors)
      | .ok (n, _) => .error (.malformed n.position "mapping keys must be scalars")
  | _ :: rest => buildPairs document rest anchors

end

/-- The tree of a document whose outline is known. -/
def ofDocument (chars : List Char) (d : Document) : Except SyntaxError Node :=
  match d.reserved with
  | some i => .error (.malformed (Position.ofIndex chars i) "unexpected YAML node `reserved_directive`")
  | none =>
    match d.content with
    | .absent => .ok (.null (Position.ofIndex chars d.start))
    | content => (build chars content []).map (·.1)

/-- The tree of the first document of a text; a text without documents is null. -/
def parse (text : String) : Except SyntaxError Node :=
  let chars := text.toList
  match documents? chars with
  | none => .error .invalidYaml
  | some [] => .ok (.null .start)
  | some (d :: _) => ofDocument chars d

end Node

end WorkflowAudit.Yaml
