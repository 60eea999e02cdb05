import WorkflowAudit.Pattern.Basic
import WorkflowAudit.Text.Ascii

/-!
Patterns as text: literal characters and escapes, bracketed classes, groups with flags,
alternatives, repetitions and anchors. A text that is no pattern has no reading; look-around and
references to groups are not part of the language. The classes of Unicode properties, as in `\p{L}`,
are part of it but need tables of their own, and have no reading here.
-/

namespace WorkflowAudit.Pattern

/-- The flags in force at a place in a pattern. -/
structure Flags where
  /-- Letters match in any case. -/
  anyCase : Bool := false
  /-- `^` and `$` match at line breaks too. -/
  multiLine : Bool := false
  /-- The dot matches line breaks too. -/
  dotAll : Bool := false
  /-- Named classes and boundaries go by Unicode. -/
  unicode : Bool := true
  /-- White space and comments in the pattern are ignored. -/
  spaced : Bool := false
  /-- A carriage return breaks lines too. -/
  anyBreak : Bool := false
  deriving Repr, DecidableEq

namespace Flags

/-- The word characters under these flags. -/
def word (flags : Flags) : CharSet :=
  if flags.unicode then .word else .asciiWord

/-- The set as it reads under these flags. -/
def cased (flags : Flags) (set : CharSet) : CharSet :=
  if flags.anyCase then .anyCase set else set

/-- Turns the flag of a letter on or off. -/
def set? (flags : Flags) (value : Bool) : Char → Option Flags
  | 'i' => some { flags with anyCase := value }
  | 'm' => some { flags with multiLine := value }
  | 's' => some { flags with dotAll := value }
  | 'U' => some flags
  | 'u' => some { flags with unicode := value }
  | 'x' => some { flags with spaced := value }
  | 'R' => some { flags with anyBreak := value }
  | _ => none

/-- The dot. Without Unicode it would match parts of characters, which no text has. -/
def dot? (flags : Flags) : Option CharSet :=
  if !flags.unicode then none
  else if flags.dotAll then some (.compl .none)
  else if flags.anyBreak then some (.compl (.union (.single '\n') (.single '\r')))
  else some (.compl (.single '\n'))

/-- The complement of a set, which only Unicode has. -/
def compl? (flags : Flags) (set : CharSet) : Option CharSet :=
  if flags.unicode then some (.compl set) else none

end Flags

/-- Skips white space and comments where the flags ask for it. -/
def skipSpace (flags : Flags) (cs : List Char) : List Char :=
  if flags.spaced then go false cs else cs
where
  /-- Skips from inside or outside a comment. -/
  go (comment : Bool) : List Char → List Char
    | [] => []
    | c :: rest =>
      if comment then go (c != '\n') rest
      else if Text.isWhite c then go false rest
      else if c = '#' then go true rest
      else c :: rest

/-! ### Escapes -/

/-- What an escape stands for. -/
inductive Escape where
  | char (c : Char)
  | set (s : CharSet)
  | place (a : Anchor)

/-- The character of a code point, if there is one. -/
def charOfCode? (code : Nat) : Option Char :=
  if h : code.isValidChar then some (Char.ofNatAux code h) else none

/-- Reads exactly `n` hexadecimal digits as a character. -/
def readHexDigits (n : Nat) (cs : List Char) : Option (Char × List Char) := do
  let digits := cs.take n
  guard (digits.length = n && digits.all Text.isHexDigit)
  return (← charOfCode? (Text.hexValue digits), cs.drop n)

/-- Reads hexadecimal digits in braces, or `n` of them, as a character. -/
def readHex (n : Nat) : List Char → Option (Char × List Char)
  | '{' :: cs => do
    let digits := cs.takeWhile (· != '}')
    guard (!digits.isEmpty && digits.all Text.isHexDigit)
    let rest ← (cs.dropWhile (· != '}')).tail?
    return (← charOfCode? (Text.hexValue digits), rest)
  | cs => readHexDigits n cs

/-- Reads what follows `\b`: a kind of word boundary in braces. Braces that hold anything but letters
    and hyphens are left to be read as a repetition. -/
def readBoundary (letters : CharSet) : List Char → Option (Anchor × List Char)
  | '{' :: cs =>
    let name := cs.takeWhile fun c => c.isAlpha || c = '-'
    if name.isEmpty then some (.boundary letters, '{' :: cs)
    else match cs.drop name.length, String.ofList name with
      | '}' :: rest, "start" => some (.wordStart letters, rest)
      | '}' :: rest, "end" => some (.wordEnd letters, rest)
      | '}' :: rest, "start-half" => some (.wordStartHalf letters, rest)
      | '}' :: rest, "end-half" => some (.wordEndHalf letters, rest)
      | _, _ => none
  | cs => some (.boundary letters, cs)

/-- Reads an escape after its backslash. -/
def readEscape (flags : Flags) : List Char → Option (Escape × List Char)
  | [] => none
  | c :: rest =>
    let digits : CharSet := if flags.unicode then .digit else .asciiDigit
    let spaces : CharSet := if flags.unicode then .space else .asciiSpace
    match c with
    | 'a' => some (.char '\x07', rest)
    | 'f' => some (.char '\x0c', rest)
    | 't' => some (.char '\t', rest)
    | 'n' => some (.char '\n', rest)
    | 'r' => some (.char '\r', rest)
    | 'v' => some (.char '\x0b', rest)
    | 'x' => (readHex 2 rest).map fun (c, rest) => (.char c, rest)
    | 'u' => (readHex 4 rest).map fun (c, rest) => (.char c, rest)
    | 'U' => (readHex 8 rest).map fun (c, rest) => (.char c, rest)
    | 'd' => some (.set digits, rest)
    | 'D' => (flags.compl? digits).map fun s => (.set s, rest)
    | 's' => some (.set spaces, rest)
    | 'S' => (flags.compl? spaces).map fun s => (.set s, rest)
    | 'w' => some (.set flags.word, rest)
    | 'W' => (flags.compl? flags.word).map fun s => (.set s, rest)
    | 'A' => some (.place .textStart, rest)
    | 'z' => some (.place .textEnd, rest)
    | 'b' => (readBoundary flags.word rest).map fun (a, rest) => (.place a, rest)
    | 'B' => some (.place (.notBoundary flags.word), rest)
    | '<' => some (.place (.wordStart flags.word), rest)
    | '>' => some (.place (.wordEnd flags.word), rest)
    | c =>
      if c.toNat < 0x80 && !c.isAlphanum then some (.char c, rest) else none

/-! ### Bracketed classes -/

/-- An operation between the parts of a class. -/
inductive ClassOp where
  | inter
  | diff
  | symmDiff

/-- The set that an operation makes of its sides. -/
def ClassOp.apply : ClassOp → CharSet → CharSet → CharSet
  | .inter, a, b => .inter a b
  | .diff, a, b => .diff a b
  | .symmDiff, a, b => .symmDiff a b

/-- What has been read of a class: the side left of the last operation, and the union that is being
    read on its right. -/
structure ClassState where
  left : Option (CharSet × ClassOp) := none
  current : CharSet := .none

namespace ClassState

/-- One more set in the union. -/
def add (state : ClassState) (set : CharSet) : ClassState :=
  { state with current := .union state.current set }

/-- The set read so far. -/
def close (state : ClassState) : CharSet :=
  match state.left with
  | some (left, op) => op.apply left state.current
  | none => state.current

/-- An operation after what has been read. -/
def operate (state : ClassState) (op : ClassOp) : ClassState :=
  { left := some (state.close, op) }

end ClassState

/-- Reads a named class after `[:`; its text is a plain part of the class if it is none. -/
def readNamedClass (flags : Flags) (cs : List Char) : Option (CharSet × List Char) := do
  let (negated, cs) := match cs with
    | '^' :: rest => (true, rest)
    | _ => (false, cs)
  let name := cs.takeWhile (· != ':')
  match cs.drop name.length with
  | ':' :: ']' :: rest =>
    let set ← CharSet.ofName? (String.ofList name)
    let set := flags.cased set
    return (if negated then .compl set else set, rest)
  | _ => none

/-- Reads one member of a class: a character or a set. -/
def readMember (flags : Flags) : List Char → Option ((Char ⊕ CharSet) × List Char)
  | [] => none
  | '\\' :: rest => do
    match ← readEscape flags rest with
    | (.char c, rest) => return (.inl c, rest)
    | (.set s, rest) => return (.inr s, rest)
    | (.place _, _) => none
  | c :: rest => some (.inl c, rest)

/-- The set of a member. -/
def memberSet (flags : Flags) : Char ⊕ CharSet → CharSet
  | .inl c => flags.cased (.single c)
  | .inr s => s

/-- Reads a member, or a range between two. -/
def readRange (flags : Flags) (cs : List Char) : Option (CharSet × List Char) := do
  let (first, rest) ← readMember flags cs
  match skipSpace flags rest with
  | [] => none
  | '-' :: after =>
    match skipSpace flags after with
    | ']' :: _ | '-' :: _ => return (memberSet flags first, '-' :: after)
    | [] => none
    | second =>
      let (last, rest) ← readMember flags second
      match first, last with
      | .inl low, .inl high =>
        guard (low.toNat ≤ high.toNat)
        return (flags.cased (.span low high), rest)
      | _, _ => none
  | rest => return (memberSet flags first, rest)

/-- The hyphens and the bracket that stand for themselves at the start of a class. -/
def readClassStart (flags : Flags) (cs : List Char) : ClassState × List Char :=
  let hyphens := cs.takeWhile (· = '-')
  let cs := skipSpace flags (cs.drop hyphens.length)
  let state : ClassState := if hyphens.isEmpty then {} else ClassState.add {} (.single '-')
  match hyphens, cs with
  | [], ']' :: rest => (state.add (.single ']'), rest)
  | _, _ => (state, cs)

mutual

/-- Reads a class after its opening bracket. -/
def readClass (flags : Flags) : Nat → List Char → Option (CharSet × List Char)
  | 0, _ => none
  | fuel + 1, cs => do
    let cs := skipSpace flags cs
    let (negated, cs) := match cs with
      | '^' :: rest => (true, skipSpace flags rest)
      | _ => (false, cs)
    let (state, cs) := readClassStart flags cs
    let (set, rest) ← readClassItems flags fuel state cs
    if negated then return (← flags.compl? set, rest) else return (set, rest)

/-- Reads the rest of a class. -/
def readClassItems (flags : Flags) :
    Nat → ClassState → List Char → Option (CharSet × List Char)
  | 0, _, _ => none
  | fuel + 1, state, cs =>
    match skipSpace flags cs with
    | [] => none
    | ']' :: rest => some (state.close, rest)
    | '&' :: '&' :: rest => readClassItems flags fuel (state.operate .inter) rest
    | '-' :: '-' :: rest => readClassItems flags fuel (state.operate .diff) rest
    | '~' :: '~' :: rest => readClassItems flags fuel (state.operate .symmDiff) rest
    | '[' :: rest => do
      let named := match rest with
        | ':' :: after => readNamedClass flags after
        | _ => none
      match named with
      | some (set, rest) => readClassItems flags fuel (state.add set) rest
      | none =>
        let (set, rest) ← readClass flags fuel rest
        readClassItems flags fuel (state.add set) rest
    | cs => do
      let (set, rest) ← readRange flags cs
      readClassItems flags fuel (state.add set) rest

end

/-! ### Groups and repetitions -/

/-- Reads flags up to `:` or `)`: the flags then in force, which of the two ended them, and whether
    there were any. -/
def readFlags (flags : Flags) (value : Bool) (seen : List Char) :
    List Char → Option (Flags × Char × Bool × List Char)
  | [] => none
  | c :: rest =>
    if c = ':' || c = ')' then
      if seen.head? = some '-' then none else some (flags, c, !seen.isEmpty, rest)
    else if seen.contains c then none
    else if c = '-' then readFlags flags false (c :: seen) rest
    else match flags.set? value c with
      | some flags => readFlags flags value (c :: seen) rest
      | none => none

/-- Reads the name of a group after its `<`. -/
def readGroupName (cs : List Char) : Option (String × List Char) := do
  let name := cs.takeWhile (· != '>')
  let rest ← (cs.drop name.length).tail?
  let first ← name.head?
  guard (first = '_' || (Text.isWordChar first && !Text.isDecimalDigit first))
  guard (name.all fun c => Text.isWordChar c || c = '.' || c = '[' || c = ']')
  return (String.ofList name, rest)

/-- Reads a decimal number, with white space around it. -/
def readCount (cs : List Char) : Option (Nat × List Char) := do
  let cs := cs.dropWhile Text.isWhite
  let digits := cs.takeWhile Char.isDigit
  guard (!digits.isEmpty)
  let n := Text.decimalValue digits
  guard (n < Nat.pow 2 32)
  return (n, (cs.drop digits.length).dropWhile Text.isWhite)

/-- Reads the counts of a repetition after its `{`. -/
def readCounts (flags : Flags) (cs : List Char) : Option ((Nat × Option Nat) × List Char) := do
  let (least, cs) ← readCount (skipSpace flags cs)
  let (counts, cs) ← match skipSpace flags cs with
    | ',' :: cs =>
      match skipSpace flags cs with
      | '}' :: cs => some ((least, none), '}' :: cs)
      | cs => (readCount cs).map fun (most, cs) => ((least, some most), cs)
    | cs => some ((least, some least), cs)
  match skipSpace flags cs with
  | '}' :: rest =>
    guard (counts.2.all (least ≤ ·))
    return (counts, rest)
  | _ => none

/-- The text after the mark of a reluctant repetition, which changes no place where a match begins. -/
def skipReluctant (flags : Flags) (cs : List Char) : List Char :=
  match skipSpace flags cs with
  | '?' :: rest => rest
  | rest => rest

/-- What has been read of a group: finished alternatives and the parts of the one being read, both
    last first. A part without a pattern is a change of flags. -/
structure Group where
  flags : Flags
  alternatives : List Pattern := []
  parts : List (Option Pattern) := []

namespace Group

/-- The pattern of the parts. -/
def sequence (g : Group) : Pattern :=
  inOrder (g.parts.reverse.filterMap id)

/-- One more part. -/
def add (g : Group) (p : Pattern) : Group :=
  { g with parts := some p :: g.parts }

/-- One more alternative. -/
def next (g : Group) : Group :=
  { g with alternatives := g.sequence :: g.alternatives, parts := [] }

/-- The pattern of the group. -/
def close (g : Group) : Pattern :=
  oneOf (g.sequence :: g.alternatives).reverse

/-- The last part repeated; nothing if there is no part to repeat. -/
def repeated? (g : Group) (least : Nat) (most : Option Nat) : Option Group :=
  match g.parts with
  | some p :: rest => some { g with parts := some (.many p least most) :: rest }
  | _ => none

end Group

/-- The pattern of `^`. -/
def caret (flags : Flags) : Pattern :=
  .place (if !flags.multiLine then .textStart else if flags.anyBreak then .anyLineStart else .lineStart)

/-- The pattern of `$`. -/
def dollar (flags : Flags) : Pattern :=
  .place (if !flags.multiLine then .textEnd else if flags.anyBreak then .anyLineEnd else .lineEnd)

/-- Reads a pattern. The group being read comes with those around it, innermost first, and with the
    names of the groups opened so far. -/
def readGroup : Nat → List String → List Group → Group → List Char → Option Pattern
  | 0, _, _, _, _ => none
  | fuel + 1, names, outer, g, cs =>
    match skipSpace g.flags cs with
    | [] => if outer.isEmpty then some g.close else none
    | ')' :: rest =>
      match outer with
      | [] => none
      | around :: outer => readGroup fuel names outer (around.add g.close) rest
    | '|' :: rest => readGroup fuel names outer g.next rest
    | '(' :: rest =>
      match skipSpace g.flags rest with
      | '?' :: 'P' :: '<' :: rest | '?' :: '<' :: rest => do
        let (name, rest) ← readGroupName rest
        guard (!names.contains name)
        readGroup fuel (name :: names) (g :: outer) { flags := g.flags } rest
      | '?' :: rest => do
        let (flags, stop, some?, rest) ← readFlags g.flags true [] rest
        if stop = ':' then readGroup fuel names (g :: outer) { flags := flags } rest
        else do
          guard some?
          readGroup fuel names outer { g with flags := flags, parts := none :: g.parts } rest
      | rest => readGroup fuel names (g :: outer) { flags := g.flags } rest
    | '[' :: rest => do
      let (set, rest) ← readClass g.flags (rest.length + 1) rest
      readGroup fuel names outer (g.add (.one set)) rest
    | '*' :: rest => do
      readGroup fuel names outer (← g.repeated? 0 none) (skipReluctant g.flags rest)
    | '+' :: rest => do
      readGroup fuel names outer (← g.repeated? 1 none) (skipReluctant g.flags rest)
    | '?' :: rest => do
      readGroup fuel names outer (← g.repeated? 0 (some 1)) (skipReluctant g.flags rest)
    | '{' :: rest => do
      let ((least, most), rest) ← readCounts g.flags rest
      readGroup fuel names outer (← g.repeated? least most) (skipReluctant g.flags rest)
    | '.' :: rest => do
      readGroup fuel names outer (g.add (.one (← g.flags.dot?))) rest
    | '^' :: rest => readGroup fuel names outer (g.add (caret g.flags)) rest
    | '$' :: rest => readGroup fuel names outer (g.add (dollar g.flags)) rest
    | '\\' :: rest => do
      let (escape, rest) ← readEscape g.flags rest
      let part : Pattern := match escape with
        | .char c => .one (g.flags.cased (.single c))
        | .set s => .one s
        | .place a => .place a
      readGroup fuel names outer (g.add part) rest
    | c :: rest => readGroup fuel names outer (g.add (.one (g.flags.cased (.single c)))) rest

/-- Reads a pattern; nothing if the text is none or holds a class of a Unicode property. -/
def ofText? (text : String) : Option Pattern :=
  readGroup (text.length + 1) [] [] { flags := {} } text.toList

end WorkflowAudit.Pattern
