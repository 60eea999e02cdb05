import WorkflowAudit.Yaml.Data.Token

/-!
The value of a data document: scalars, sequences and mappings, with aliases replaced by what they name.
-/

namespace WorkflowAudit.Yaml.Data

/-- A value. Of a scalar its text is kept, whether it was written plainly, and its tag. An alias inside
    the very node it names has no finite value; such a place is `cyclic`. -/
inductive Value where
  | scalar (text : String) (plain : Bool) (tag : Option String)
  | sequence (items : List Value)
  | mapping (pairs : List (Value × Value))
  | cyclic
  deriving Repr

/-- What is kept while tokens are read into values: the tokens left, the anchors met so far from the
    latest, and the tag handles of the document. A node that is not complete has no value yet. -/
structure Build where
  tokens : List Token
  anchors : List (String × Option Value)
  handles : List (String × String)

/-- A step from tokens to values. -/
abbrev Builder := StateT Build Option

namespace Builder

/-- The next token. -/
def peek : Builder (Option Token) :=
  return (← get).tokens.head?

/-- Passes over the next token. -/
def skip : Builder Unit :=
  modify fun b => { b with tokens := b.tokens.drop 1 }

/-- Whether the next token is this one. -/
def isNext (t : Token) : Builder Bool :=
  return (← peek) = some t

/-- Whether the next token is one of these, or there is none. -/
def isOneOf (ts : List Token) : Builder Bool := do
  match ← peek with
  | some t => return ts.contains t
  | none => return true

/-- The value of a place with nothing in it. -/
def nothing : Value := .scalar "" true none

/-- The anchor and the tag in front of a node, in either order. -/
def properties : Builder (Option String × Option String) := do
  let anchor? : Builder (Option String) := do
    if let some (.anchor name) ← peek then skip; return some name else return none
  let tag? : Builder (Option (String × String)) := do
    if let some (.tag handle suffix) ← peek then skip; return some (handle, suffix) else return none
  let first ← anchor?
  let tag ← tag?
  let anchor ← if first.isNone then anchor? else pure first
  match tag with
  | none => return (anchor, none)
  | some (handle, suffix) =>
    if handle = "" then return (anchor, some suffix)
    else
      let some lead := (← get).handles.lookup handle | failure
      return (anchor, some (lead ++ suffix))

/-- Names a node that is about to be read, or that has been read. -/
def bindAnchor (anchor : Option String) (value : Option Value) : Builder Unit :=
  match anchor with
  | some name => modify fun b => { b with anchors := (name, value) :: b.anchors }
  | none => pure ()

mutual

/-- Reads a node; in a block it may be a block collection, and after a key a sequence without
    indentation of its own. -/
def node (fuel : Nat) (block indentless : Bool) : Builder Value :=
  match fuel with
  | 0 => failure
  | fuel + 1 => do
    if let some (.alias name) ← peek then
      skip
      match (← get).anchors.lookup name with
      | some (some v) => return v
      | some none => return .cyclic
      | none => failure
    let (anchor, tag) ← properties
    let t ← peek
    bindAnchor anchor none
    let value ← match t with
      | some (.scalar text plain) => do skip; pure (Value.scalar text plain tag)
      | some .openSequence => do skip; .sequence <$> flowItems fuel true []
      | some .openMapping => do skip; .mapping <$> flowPairs fuel true []
      | some .blockSequence =>
        if block then do skip; .sequence <$> dashes fuel [] else failure
      | some .blockMapping =>
        if block then do skip; .mapping <$> keys fuel [] else failure
      | some .entry =>
        if indentless then .sequence <$> bareDashes fuel []
        else if anchor.isSome || tag.isSome then pure (.scalar "" true tag) else failure
      | _ => if anchor.isSome || tag.isSome then pure (.scalar "" true tag) else failure
    bindAnchor anchor (some value)
    return value

/-- A node, unless one of these tokens comes first. -/
def nodeUnless (fuel : Nat) (ends : List Token) (block indentless : Bool) : Builder Value :=
  match fuel with
  | 0 => failure
  | fuel + 1 => do
    if ← isOneOf ends then return nothing else node fuel block indentless

/-- The items of an indented block sequence. -/
def dashes (fuel : Nat) (items : List Value) : Builder (List Value) :=
  match fuel with
  | 0 => failure
  | fuel + 1 => do
    if ← isNext .entry then
      skip
      let item ← nodeUnless fuel [.entry, .blockEnd] true false
      dashes fuel (item :: items)
    else if ← isNext .blockEnd then
      skip
      return items.reverse
    else failure

/-- The items of a block sequence without indentation of its own. -/
def bareDashes (fuel : Nat) (items : List Value) : Builder (List Value) :=
  match fuel with
  | 0 => failure
  | fuel + 1 => do
    if ← isNext .entry then
      skip
      let item ← nodeUnless fuel [.entry, .key, .value, .blockEnd] true false
      bareDashes fuel (item :: items)
    else return items.reverse

/-- The pairs of a block mapping. -/
def keys (fuel : Nat) (pairs : List (Value × Value)) : Builder (List (Value × Value)) :=
  match fuel with
  | 0 => failure
  | fuel + 1 => do
    if ← isNext .blockEnd then
      skip
      return pairs.reverse
    let key ← if ← isNext .key then do
        skip
        nodeUnless fuel [.key, .value, .blockEnd] true true
      else failure
    let value ← if ← isNext .value then do
        skip
        nodeUnless fuel [.key, .value, .blockEnd] true true
      else pure nothing
    keys fuel ((key, value) :: pairs)

/-- The items of a flow sequence. -/
def flowItems (fuel : Nat) (first : Bool) (items : List Value) : Builder (List Value) :=
  match fuel with
  | 0 => failure
  | fuel + 1 => do
    if ← isNext .closeSequence then
      skip
      return items.reverse
    if !first then
      if ← isNext .comma then skip else failure
    if ← isNext .key then
      skip
      let key ← if ← isOneOf [.value, .comma, .closeSequence] then do
          skip
          pure nothing
        else node fuel false false
      let value ← if ← isNext .value then do
          skip
          nodeUnless fuel [.comma, .closeSequence] false false
        else pure nothing
      flowItems fuel false (.mapping [(key, value)] :: items)
    else if ← isNext .closeSequence then
      skip
      return items.reverse
    else
      let item ← node fuel false false
      flowItems fuel false (item :: items)

/-- The pairs of a flow mapping. -/
def flowPairs (fuel : Nat) (first : Bool) (pairs : List (Value × Value)) :
    Builder (List (Value × Value)) :=
  match fuel with
  | 0 => failure
  | fuel + 1 => do
    if ← isNext .closeMapping then
      skip
      return pairs.reverse
    if !first then
      if ← isNext .comma then skip else failure
    if ← isNext .key then
      skip
      let key ← nodeUnless fuel [.value, .comma, .closeMapping] false false
      let value ← if ← isNext .value then do
          skip
          nodeUnless fuel [.comma, .closeMapping] false false
        else pure nothing
      flowPairs fuel false ((key, value) :: pairs)
    else if ← isNext .closeMapping then
      skip
      return pairs.reverse
    else
      let key ← node fuel false false
      flowPairs fuel false ((key, nothing) :: pairs)

end

/-- The tag handles that every document knows. -/
def knownHandles : List (String × String) :=
  [("!", "!"), ("!!", "tag:yaml.org,2002:")]

/-- Reads the directives of a document. One version, of the first generation, and each tag handle once
    at most. -/
def directives (fuel : Nat) (versioned : Bool) (handles : List (String × String)) :
    Builder (List (String × String)) :=
  match fuel with
  | 0 => failure
  | fuel + 1 => do
    match ← peek with
    | some (.version major minor) =>
      if versioned || major ≠ 1 || (minor ≠ 1 && minor ≠ 2) then failure
      skip
      directives fuel true handles
    | some (.tagHandle handle lead) =>
      if (handles.lookup handle).isSome then failure
      skip
      directives fuel versioned ((handle, lead) :: handles)
    | _ => return handles ++ knownHandles

/-- Reads the documents of a stream. A document without a marker can only be the first. -/
def documents (fuel : Nat) (first : Bool) (values : List Value) : Builder (List Value) :=
  match fuel with
  | 0 => failure
  | fuel + 1 => do
    match ← peek with
    | none => return values.reverse
    | some .documentEnd =>
      if first then failure
      skip
      documents fuel false values
    | some t =>
      let explicit := match t with
        | .version .. | .tagHandle .. | .documentStart => true
        | _ => false
      if !explicit && !first then failure
      let handles ← directives fuel false []
      if explicit then
        if ← isNext .documentStart then skip else failure
      modify fun b => { b with handles := handles, anchors := [] }
      let empty := match ← peek with
        | none => true
        | some t => match t with
          | .version .. | .tagHandle .. | .documentStart | .documentEnd => true
          | _ => false
      let value ← if explicit && empty then pure nothing else node fuel true false
      if ← isNext .documentEnd then skip
      documents fuel false (value :: values)

end Builder

/-- The values of the documents in a text, or nothing if it is not well formed. -/
def Value.allOfText? (cs : List Char) : Option (List Value) := do
  let tokens ← Token.ofText? cs
  (Builder.documents (4 * tokens.length + 4) true []).run' ⟨tokens, [], Builder.knownHandles⟩

/-- The text of a scalar. -/
def Value.text? : Value → Option String
  | scalar text _ _ => some text
  | _ => none

/-- Reads a text that is one document with one scalar. -/
def scalarText? (cs : List Char) : Option String := do
  match ← Value.allOfText? cs with
  | [v] => v.text?
  | _ => none

end WorkflowAudit.Yaml.Data
