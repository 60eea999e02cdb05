import WorkflowAudit.JsonValue.Basic
import WorkflowAudit.Text.Ascii

/-!
Reading JSON. The text must be one value with nothing but white space around it, and values are nested
less than 128 deep.
-/

namespace WorkflowAudit.JsonValue

/-- JSON's white space. -/
def isBlank (c : Char) : Bool :=
  c = ' ' || c = '\t' || c = '\n' || c = '\r'

/-- Reads four hexadecimal digits. -/
def readUnit (cs : List Char) : Option (Nat × List Char) :=
  let digits := cs.take 4
  if digits.length = 4 && digits.all Text.isHexDigit then
    some (Text.hexValue digits, cs.drop 4)
  else none

/-- The character of a code point that is not half of a pair. -/
def scalar? (code : Nat) : Option Char :=
  if h : code.isValidChar then some (Char.ofNatAux code h) else none

/-- Reads the code units after `\u`: one, or two that are halves of a pair. -/
def readUnits (cs : List Char) : Option (Char × List Char) := do
  let (unit, rest) ← readUnit cs
  if 0xd800 ≤ unit && unit < 0xdc00 then
    match rest with
    | '\\' :: 'u' :: rest =>
      let (low, rest) ← readUnit rest
      guard (0xdc00 ≤ low && low < 0xe000)
      return (← scalar? (0x10000 + (unit - 0xd800) * 0x400 + (low - 0xdc00)), rest)
    | _ => none
  else return (← scalar? unit, rest)

/-- Reads an escape after its backslash. -/
def readEscape : List Char → Option (Char × List Char)
  | '"' :: rest => some ('"', rest)
  | '\\' :: rest => some ('\\', rest)
  | '/' :: rest => some ('/', rest)
  | 'b' :: rest => some ('\x08', rest)
  | 'f' :: rest => some ('\x0c', rest)
  | 'n' :: rest => some ('\n', rest)
  | 'r' :: rest => some ('\r', rest)
  | 't' :: rest => some ('\t', rest)
  | 'u' :: rest => readUnits rest
  | _ => none

/-- Reads a string after its opening quote; `seen` are its characters so far, last first. -/
def readString : Nat → List Char → List Char → Option (String × List Char)
  | 0, _, _ => none
  | fuel + 1, seen, cs =>
    match cs with
    | [] => none
    | '"' :: rest => some (String.ofList seen.reverse, rest)
    | '\\' :: rest => do
      let (c, rest) ← readEscape rest
      readString fuel (c :: seen) rest
    | c :: rest => if c.toNat < 32 then none else readString fuel (c :: seen) rest

/-- Reads the digits of a fraction or of an exponent, of which there must be one. -/
def readDigits (cs : List Char) : Option (List Char × List Char) :=
  let digits := cs.takeWhile Char.isDigit
  if digits.isEmpty then none else some (digits, cs.drop digits.length)

/-- Reads the whole part of a number, which starts with zero only if it is zero. -/
def readWhole (cs : List Char) : Option (List Char × List Char) :=
  match cs with
  | '0' :: rest => if rest.head?.any Char.isDigit then none else some (['0'], rest)
  | cs => readDigits cs

/-- Reads a number as it is written. -/
def readNumber (cs : List Char) : Option (String × List Char) := do
  let (sign, cs) := match cs with
    | '-' :: rest => (['-'], rest)
    | _ => ([], cs)
  let (whole, cs) ← readWhole cs
  let (fraction, cs) ← match cs with
    | '.' :: rest => (readDigits rest).map fun (digits, rest) => ('.' :: digits, rest)
    | _ => some ([], cs)
  let (exponent, cs) ← match cs with
    | e :: rest =>
      if e = 'e' || e = 'E' then
        let (mark, rest) := match rest with
          | '+' :: rest => (['+'], rest)
          | '-' :: rest => (['-'], rest)
          | _ => ([], rest)
        (readDigits rest).map fun (digits, rest) => (e :: mark ++ digits, rest)
      else some ([], cs)
    | [] => some ([], cs)
  return (String.ofList (sign ++ whole ++ fraction ++ exponent), cs)

mutual

/-- Reads a value that can hold `depth` levels of others. -/
def readValue : Nat → Nat → List Char → Option (JsonValue × List Char)
  | 0, _, _ => none
  | fuel + 1, depth, cs =>
    match cs.dropWhile isBlank with
    | 'n' :: 'u' :: 'l' :: 'l' :: rest => some (.null, rest)
    | 't' :: 'r' :: 'u' :: 'e' :: rest => some (.bool true, rest)
    | 'f' :: 'a' :: 'l' :: 's' :: 'e' :: rest => some (.bool false, rest)
    | '"' :: rest => (readString (rest.length + 1) [] rest).map fun (s, rest) => (.string s, rest)
    | '[' :: rest =>
      match depth, rest.dropWhile isBlank with
      | 0, _ => none
      | _, ']' :: rest => some (.array [], rest)
      | depth + 1, rest => readItems fuel depth [] rest
    | '{' :: rest =>
      match depth, rest.dropWhile isBlank with
      | 0, _ => none
      | _, '}' :: rest => some (.object [], rest)
      | depth + 1, rest => readMembers fuel depth [] rest
    | rest => (readNumber rest).map fun (text, rest) => (.number text, rest)

/-- Reads the items of an array that is not empty; `seen` are those before, last first. -/
def readItems : Nat → Nat → List JsonValue → List Char → Option (JsonValue × List Char)
  | 0, _, _, _ => none
  | fuel + 1, depth, seen, cs => do
    let (v, rest) ← readValue fuel depth cs
    match rest.dropWhile isBlank with
    | ',' :: rest => readItems fuel depth (v :: seen) rest
    | ']' :: rest => some (.array (v :: seen).reverse, rest)
    | _ => none

/-- Reads the members of an object that is not empty; `seen` are those before, last first. -/
def readMembers :
    Nat → Nat → List (String × JsonValue) → List Char → Option (JsonValue × List Char)
  | 0, _, _, _ => none
  | fuel + 1, depth, seen, cs => do
    match cs.dropWhile isBlank with
    | '"' :: rest =>
      let (name, rest) ← readString (rest.length + 1) [] rest
      match rest.dropWhile isBlank with
      | ':' :: rest =>
        let (v, rest) ← readValue fuel depth rest
        match rest.dropWhile isBlank with
        | ',' :: rest => readMembers fuel depth ((name, v) :: seen) rest
        | '}' :: rest => some (.object ((name, v) :: seen).reverse, rest)
        | _ => none
      | _ => none
    | _ => none

end

/-- How deep values are nested at most. -/
def maxDepth : Nat := 127

/-- Reads a text that is one value. -/
def parse? (text : String) : Option JsonValue := do
  let (v, rest) ← readValue (2 * text.length + 2) maxDepth text.toList
  if rest.all isBlank then some v else none

end WorkflowAudit.JsonValue
