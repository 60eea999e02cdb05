import WorkflowAudit.Expr.Parser

/-!
Expressions inside a text. A fragment opens with a dollar sign and two braces, and closes with the two
closing braces after its expression. When the expression cannot be read, the fragment closes with the
first two closing braces of any kind, or with the text.
-/

namespace WorkflowAudit

/-- A fragment of a text: the byte offsets of its opening, of its body and of its end, and the
    expression in it. -/
structure Fragment where
  start : Nat
  body : Nat
  stop : Nat
  expr : Except Expr.ParseError Expr

namespace Fragment

/-- The characters up to and including the first two closing braces, or all. -/
def uptoBraces : List Char → List Char
  | '\x7d' :: '\x7d' :: _ => ['\x7d', '\x7d']
  | c :: cs => c :: uptoBraces cs
  | [] => []

/-- The fragments of the characters from a byte offset on, in order. -/
def scan (offset : Nat) : List Char → List Fragment
  | [] => []
  | '$' :: '\x7b' :: '\x7b' :: cs =>
    match h : Expr.parseUpTo .braces cs with
    | .ok (e, rest) =>
      have : rest.length < cs.length + 3 := by
        have := Expr.length_parseUpTo h
        omega
      let stop := offset + 3 + (Text.byteSize cs - Text.byteSize rest)
      ⟨offset, offset + 3, stop, .ok e⟩ :: scan stop rest
    | .error err =>
      let raw := uptoBraces cs
      let stop := offset + 3 + Text.byteSize raw
      ⟨offset, offset + 3, stop, .error err⟩ :: scan stop (cs.drop raw.length)
  | c :: cs => scan (offset + c.utf8Size) cs
termination_by cs => cs.length

/-- All fragments of a text, from left to right. -/
def all (text : String) : List Fragment :=
  scan 0 text.toList

end Fragment

end WorkflowAudit
