import WorkflowAudit.Yaml.Data.Scalar

/-!
The tokens of a data document. Indentation becomes tokens that open and close block collections. A key
that carries no mark of its own is recognised only when its colon is met: its tokens are then put in
front of the place where it began, which lies on the same line and at most 1024 characters before.
-/

namespace WorkflowAudit.Yaml.Data

/-- A token of a data document. -/
inductive Token where
  | version (major minor : Nat)
  | tagHandle (handle lead : String)
  | documentStart | documentEnd
  | blockSequence | blockMapping | blockEnd
  | openSequence | closeSequence | openMapping | closeMapping
  | entry | comma | key | value
  | alias (name : String)
  | anchor (name : String)
  | tag (handle suffix : String)
  | scalar (text : String) (plain : Bool)
  deriving DecidableEq, Repr

/-- A place where a key may have begun: the number of tokens before it, its index, line and column, and
    whether there must be a key. -/
structure KeyPlace where
  tokens : Nat
  index : Nat
  line : Nat
  column : Nat
  required : Bool

/-- What is kept while the tokens are read. Each open flow collection has its own possible key. -/
structure Scan where
  cursor : Cursor
  tokens : Array Token
  indent : Int
  indents : List Int
  keyAllowed : Bool
  key : Option KeyPlace
  outerKeys : List (Option KeyPlace)

namespace Scan

/-- The beginning of a text. -/
def ofText (cs : List Char) : Scan :=
  ⟨.ofText cs, #[], -1, [], true, none, []⟩

/-- Inside a flow collection. -/
def inFlow (s : Scan) : Bool :=
  !s.outerKeys.isEmpty

/-- Adds a token at the end. -/
def push (s : Scan) (t : Token) : Scan :=
  { s with tokens := s.tokens.push t }

/-- Adds a token before the token with number `n`. -/
def insert (s : Scan) (n : Nat) (t : Token) : Scan :=
  { s with tokens := (s.tokens.toList.take n ++ t :: s.tokens.toList.drop n).toArray }

/-- Closes the block collections that are deeper than a column. -/
def closeTo (column : Int) : List Int → Int → Array Token → Int × List Int × Array Token
  | [], indent, tokens => (indent, [], tokens)
  | outer :: rest, indent, tokens =>
    if column < indent then closeTo column rest outer (tokens.push .blockEnd)
    else (indent, outer :: rest, tokens)

/-- Closes the block collections that are deeper than a column, outside flow collections. -/
def unroll (s : Scan) (column : Int) : Scan :=
  if s.inFlow then s
  else
    let (indent, indents, tokens) := closeTo column s.indents s.indent s.tokens
    { s with indent := indent, indents := indents, tokens := tokens }

/-- Opens a block collection at a column that is deeper than the block around it. -/
def roll (s : Scan) (column : Nat) (place : Option Nat) (t : Token) : Scan :=
  if s.inFlow || (column : Int) ≤ s.indent then s
  else
    let s := match place with
      | some n => s.insert n t
      | none => s.push t
    { s with indents := s.indent :: s.indents, indent := column }

/-- Gives up the possible key; one that is required must not be given up. -/
def dropKey (s : Scan) : Option Scan :=
  if s.key.any (·.required) then none else some { s with key := none }

/-- Notes that a key may begin here. -/
def noteKey (s : Scan) : Option Scan :=
  if s.keyAllowed then do
    let s ← s.dropKey
    let c := s.cursor
    return { s with key := some ⟨s.tokens.size, c.index, c.line, c.column,
      !s.inFlow && s.indent = c.column⟩ }
  else some s

/-- Whether a possible key can no longer be one here. -/
def isStale (c : Cursor) (k : KeyPlace) : Bool :=
  k.line < c.line || k.index + 1024 < c.index

/-- Gives up the keys that can no longer be keys. -/
def dropStale (s : Scan) : Option Scan :=
  let fresh (k : Option KeyPlace) : Option KeyPlace := k.filter (!isStale s.cursor ·)
  let bad (k : Option KeyPlace) : Bool := k.any fun k => isStale s.cursor k && k.required
  if bad s.key || s.outerKeys.any bad then none
  else some { s with key := fresh s.key, outerKeys := s.outerKeys.map fresh }

/-- Moves past blanks, comments and line breaks. Tabs part tokens only where no key may begin. -/
def skipGap : Nat → Scan → Scan
  | 0, s => s
  | fuel + 1, s =>
    let c := s.cursor
    let c := if c.index = 0 && c.isChar '\ufeff' then c.skip 1 else c
    let (_, c) := c.span fun x => x = ' ' || ((s.inFlow || !s.keyAllowed) && x = '\t')
    let c := if c.isChar '#' then (c.span fun x => !isBreak x).2 else c
    if c.char?.any isBreak then
      skipGap fuel { s with cursor := c.readBreak.2, keyAllowed := s.keyAllowed || !s.inFlow }
    else { s with cursor := c }

/-- Adds a token of `n` characters. -/
def mark (s : Scan) (n : Nat) (t : Token) : Scan :=
  { s.push t with cursor := s.cursor.skip n }

/-! ### Directives, anchors and tags -/

/-- The digits of a version number, at most nine. -/
def digits? (c : Cursor) : Option (Nat × Cursor) :=
  let (ds, c) := c.span Char.isDigit
  if ds.isEmpty || 9 < ds.length then none else some (Text.decimalValue ds, c)

/-- The width of a run of identifier characters and percent escapes; none if an escape is broken. -/
def uriWidth? (uri : Bool) : Nat → List Char → Option Nat
  | 0, _ => none
  | fuel + 1, cs =>
    match cs with
    | '%' :: a :: b :: rest =>
      if Text.isHexDigit a && Text.isHexDigit b then (uriWidth? uri fuel rest).map (· + 3) else none
    | '%' :: _ => none
    | c :: rest =>
      if isNameChar c || ";/?:@&=+$.!~*'()".toList.contains c || (uri && ",[]".toList.contains c)
      then (uriWidth? uri fuel rest).map (· + 1) else some 0
    | [] => some 0

/-- The handle of a tag: an exclamation mark, and perhaps a name with another. -/
def handle? (c : Cursor) : Option (List Char × Cursor) :=
  if c.isChar '!' then
    let (name, d) := (c.skip 1).span isNameChar
    if d.isChar '!' then some ('!' :: name ++ ['!'], d.skip 1) else some ('!' :: name, d)
  else none

/-- Reads a directive after its mark: a version or a tag handle. -/
def directive? (c : Cursor) : Option (Token × Cursor) := do
  let (name, c) := c.span isNameChar
  if name.isEmpty || !blankAhead c.rest then none
  let (token, c) ← if name = "YAML".toList then do
      let (_, c) := c.span isBlank
      let (major, c) ← digits? c
      if !c.isChar '.' then none
      let (minor, c) ← digits? (c.skip 1)
      pure (Token.version major minor, c)
    else if name = "TAG".toList then do
      let (_, c) := c.span isBlank
      let (handle, c) ← handle? c
      if handle.length ≠ 1 && handle.getLast? ≠ some '!' then none
      if !c.char?.any isBlank then none
      let (_, c) := c.span isBlank
      let n ← uriWidth? true (c.rest.length + 1) c.rest
      let lead := c.rest.take n
      let c := c.skip n
      if n = 0 || !blankAhead c.rest then none
      pure (Token.tagHandle (String.ofList handle) (String.ofList lead), c)
    else none
  let (_, c) := c.span isBlank
  let c := if c.isChar '#' then (c.span fun x => !isBreak x).2 else c
  if c.char?.any (!isBreak ·) then none
  return (token, c.readBreak.2)

/-- Reads the name of an anchor or alias after its mark. -/
def anchorName? (c : Cursor) : Option (String × Cursor) :=
  let (name, c) := c.span isNameChar
  let ends := blankAhead c.rest || c.char?.any ("?:,]\x7d%@`".toList.contains ·)
  if name.isEmpty || !ends then none else some (String.ofList name, c)

/-- Reads a tag. -/
def tag? (inFlow : Bool) (c : Cursor) : Option (Token × Cursor) := do
  let (token, c) ← if (c.skip 1).isChar '<' then do
      let c := c.skip 2
      let n ← uriWidth? true (c.rest.length + 1) c.rest
      let suffix := c.rest.take n
      let c := c.skip n
      if n = 0 || !c.isChar '>' then none
      pure (Token.tag "" (String.ofList suffix), c.skip 1)
    else do
      let (handle, d) ← handle? c
      let n ← uriWidth? false (d.rest.length + 1) d.rest
      let suffix := d.rest.take n
      let d := d.skip n
      if handle.length ≠ 1 && handle.getLast? = some '!' then
        if n = 0 then none
        pure (Token.tag (String.ofList handle) (String.ofList suffix), d)
      else
        let all := handle.drop 1 ++ suffix
        pure (if all.isEmpty then .tag "" "!" else .tag "!" (String.ofList all), d)
  if !blankAhead c.rest && !(inFlow && c.isChar ',') then none
  return (token, c)

/-! ### One token -/

/-- Whether a plain scalar may begin with this character. -/
def beginsPlain (inFlow : Bool) (c : Char) (rest : List Char) : Bool :=
  !(isBlank c || isBreak c || "-?:,[]\x7b\x7d#&*!|>'\"%@`".toList.contains c) ||
    (c = '-' && !rest.head?.any isBlank) ||
    (!inFlow && (c = '?' || c = ':') && !blankAhead rest)

/-- Reads a mark that opens or goes on with a block collection. -/
def blockMark? (s : Scan) (open_ : Token) (t : Token) : Option Scan := do
  let s ← if s.inFlow then some s
    else if !s.keyAllowed then none
    else some (s.roll s.cursor.column none open_)
  let s ← s.dropKey
  return { s.mark 1 t with keyAllowed := t = .entry || !s.inFlow }

/-- Reads the mark between a key and its value. -/
def valueMark? (s : Scan) : Option Scan :=
  match s.key with
  | some k =>
    let s := s.insert k.tokens .key
    let s := s.roll k.column (some k.tokens) .blockMapping
    some { s.mark 1 .value with key := none, keyAllowed := false }
  | none =>
    if !s.inFlow && !s.keyAllowed then none
    else
      let s := s.roll s.cursor.column none .blockMapping
      some { s.mark 1 .value with keyAllowed := !s.inFlow }

/-- Reads the token that begins with `c`. -/
def token? (s : Scan) (c : Char) (rest : List Char) : Option Scan := do
  let at_ := s.cursor
  let fuel := rest.length + 2
  if at_.column = 0 && c = '%' then
    let s ← (s.unroll (-1)).dropKey
    let (t, d) ← directive? (at_.skip 1)
    return { s.push t with cursor := d, keyAllowed := false }
  else if at_.atMarker then
    let s ← (s.unroll (-1)).dropKey
    return { s.mark 3 (if c = '-' then .documentStart else .documentEnd) with keyAllowed := false }
  else if c = '[' || c = '\x7b' then
    let s ← s.noteKey
    return { s.mark 1 (if c = '[' then .openSequence else .openMapping) with
      key := none, outerKeys := s.key :: s.outerKeys, keyAllowed := true }
  else if c = ']' || c = '\x7d' then
    let s ← s.dropKey
    return { s.mark 1 (if c = ']' then .closeSequence else .closeMapping) with
      key := s.outerKeys.head?.join, outerKeys := s.outerKeys.drop 1, keyAllowed := false }
  else if c = ',' then
    let s ← s.dropKey
    return { s.mark 1 .comma with keyAllowed := true }
  else if c = '-' && blankAhead rest then s.blockMark? .blockSequence .entry
  else if c = '?' && (s.inFlow || blankAhead rest) then s.blockMark? .blockMapping .key
  else if c = ':' && (s.inFlow || blankAhead rest) then s.valueMark?
  else if c = '*' || c = '&' then
    let s ← s.noteKey
    let (name, d) ← anchorName? (at_.skip 1)
    return { s.push (if c = '*' then .alias name else .anchor name) with
      cursor := d, keyAllowed := false }
  else if c = '!' then
    let s ← s.noteKey
    let (t, d) ← tag? s.inFlow at_
    return { s.push t with cursor := d, keyAllowed := false }
  else if (c = '|' || c = '>') && !s.inFlow then
    let s ← s.dropKey
    let (value, d) ← text? (c = '>') s.indent (at_.skip 1)
    return { s.push (.scalar (String.ofList value) false) with cursor := d, keyAllowed := true }
  else if c = '\'' || c = '"' then
    let s ← s.noteKey
    let (value, d) ← quoted? (c = '"') fuel [] (at_.skip 1)
    return { s.push (.scalar (String.ofList value) false) with cursor := d, keyAllowed := false }
  else if beginsPlain s.inFlow c rest then
    let s ← s.noteKey
    let (value, d, broken) ← plain? s.inFlow (s.indent + 1) fuel [] .none at_
    return { s.push (.scalar (String.ofList value) true) with cursor := d, keyAllowed := broken }
  else none

/-- Reads the tokens to the end of the text. -/
def run : Nat → Scan → Option (List Token)
  | 0, _ => none
  | fuel + 1, s => do
    let s ← (skipGap (s.cursor.rest.length + 1) s).dropStale
    let s := s.unroll s.cursor.column
    match s.cursor.rest with
    | [] =>
      let s ← (s.unroll (-1)).dropKey
      return s.tokens.toList
    | c :: rest => run fuel (← s.token? c rest)

end Scan

/-- The tokens of a text, or nothing if it is not well formed. -/
def Token.ofText? (cs : List Char) : Option (List Token) :=
  if cs.all isAllowed then Scan.run (cs.length + 2) (Scan.ofText cs) else none

end WorkflowAudit.Yaml.Data
