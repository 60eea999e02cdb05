/-!
The character classes of YAML that tell where tokens begin and end.
-/

namespace WorkflowAudit.Yaml

/-- Space and tab. -/
def isBlank (c : Char) : Bool :=
  c = ' ' || c = '\t'

/-- The two characters that end a line. -/
def isBreak (c : Char) : Bool :=
  c = '\n' || c = '\r'

/-- Blanks and line ends. -/
def isWhite (c : Char) : Bool :=
  isBlank c || isBreak c

/-- Whether what follows is white, the end of the text included. -/
def whiteAhead : List Char → Bool
  | [] => true
  | c :: _ => isWhite c || c = '\x00'

/-- The printable characters other than blanks and line ends. -/
def isVisible (c : Char) : Bool :=
  let n := c.toNat
  (0x21 ≤ n && n ≤ 0x7e) || n = 0x85 || (0xa0 ≤ n && n ≤ 0xd7ff) || (0xe000 ≤ n && n ≤ 0xfefe) ||
    (0xff00 ≤ n && n ≤ 0xfffd) || 0x10000 ≤ n

/-- The characters that may stand between quotes. -/
def isQuotable (c : Char) : Bool :=
  c = '\t' || ' ' ≤ c

/-- The characters that structure flow collections. -/
def isFlowIndicator (c : Char) : Bool :=
  c = ',' || c = '[' || c = ']' || c = '\x7b' || c = '\x7d'

/-- The characters that begin something other than a plain scalar. -/
def isIndicator (c : Char) : Bool :=
  isFlowIndicator c || c = '-' || c = '?' || c = ':' || c = '#' || c = '&' || c = '*' || c = '!' ||
    c = '|' || c = '>' || c = '\'' || c = '"' || c = '%' || c = '@' || c = '`'

/-- The characters of a plain scalar, inside a flow collection or outside. -/
def isPlainSafe (inFlow : Bool) (c : Char) : Bool :=
  isVisible c && !(inFlow && isFlowIndicator c)

/-- The characters of an anchor's name. -/
def isAnchorChar (c : Char) : Bool :=
  isVisible c && !isFlowIndicator c

/-- Letters, digits and the hyphen. -/
def isWordChar (c : Char) : Bool :=
  c.isAlphanum || c = '-'

/-- The characters of a resource identifier, percent escapes apart. -/
def isUriChar (c : Char) : Bool :=
  isWordChar c || "#;/?:@&=+$,_.!~*'()[]".toList.contains c

/-- The characters of a tag's suffix, percent escapes apart. -/
def isTagChar (c : Char) : Bool :=
  isUriChar c && c != '!' && !isFlowIndicator c

end WorkflowAudit.Yaml
