import PipeLang.Parse.Cursor
import PipeLang.Text.Uppercase

/-! What the tokens ahead begin. Of their spans only adjacency matters: whether a token starts where
the one before it ends, or after that. -/

namespace PipeLang.Cursor

def atNegative (c : Cursor) : Bool :=
  c.atOperator .minus && (c.kindAt 1).isNumber && c.peek.span.stop == (c.peekAt 1).span.start

/-- A dot that touches the token before it and the identifier after it. -/
def atAccess (c : Cursor) : Bool :=
  c.atPunctuation .dot && (c.kindAt 1).isIdent && c.peek.span.stop == (c.peekAt 1).span.start &&
    match c.previous? with
    | some t => t.span.stop == c.peek.span.start
    | none => false

/-- Something stands between the previous token and the next one. -/
def afterGap (c : Cursor) : Bool :=
  match c.previous? with
  | some t => t.span.stop < c.peek.span.start
  | none => false

/-- An argument may follow by juxtaposition. A name before a colon is a record key, and a negative
number needs a gap before its sign. -/
def atArgument (c : Cursor) : Bool :=
  match c.kind with
  | .ident _ => !(c.kindAt 1).isPunctuation .colon
  | .number _ | .text _ => true
  | .keyword k => k = .true_ || k = .false_ || k = .nil_
  | .punctuation p => p = .lparen || p = .lbracket || p = .lbrace || p = .underscore
  | .operator .minus => c.atNegative && c.afterGap
  | _ => false

def atConstruct (c : Cursor) : Bool :=
  match c.kind with
  | .keyword k => k = .let_ || k = .if_ || k = .match_ || k = .try_
  | _ => false

def atDefinition (c : Cursor) : Bool := c.namesThen (TokenKind.isOperator .eq) 0

def atFunction (c : Cursor) : Bool := c.namesThen (TokenKind.isPunctuation .arrow) 1

def atCapitalized (c : Cursor) : Bool :=
  match c.kind with
  | .ident name => name.toList.head?.any isUppercase
  | _ => false

/-- The operator ahead, if it binds as tightly as `least`. -/
def operator? (least : Nat) (c : Cursor) : Option Operator :=
  c.kind.binary?.filter fun o => decide (least ≤ o.precedence)

end PipeLang.Cursor
