import PipeLang.Token.Basic
import PipeLang.Diagnostic.Basic

/-! A place in a token list. The end marker is never consumed, and a look past the end sees the last
token of the list again. -/

namespace PipeLang

structure Cursor where
  /-- The consumed tokens, latest first. -/
  before : List Token
  rest : List Token
  /-- The errors that parsing went on after, latest first. -/
  errors : List Diagnostic

namespace Cursor

def ofTokens (tokens : List Token) : Cursor := ⟨[], tokens, []⟩

/-- What a look past the end sees. -/
def final (c : Cursor) : Token :=
  match c.rest.getLast? with
  | some t => t
  | none => c.before.head?.getD .last

def peekAt (c : Cursor) (n : Nat) : Token := (c.rest[n]?).getD c.final

def peek (c : Cursor) : Token :=
  match c.rest with
  | t :: _ => t
  | [] => c.before.head?.getD .last

def kind (c : Cursor) : TokenKind := c.peek.kind

def kindAt (c : Cursor) (n : Nat) : TokenKind := (c.peekAt n).kind

def previous? (c : Cursor) : Option Token := c.before.head?

def atEnd (c : Cursor) : Bool := c.kind.isEof

/-- The cursor past one token, whatever it is. -/
def forward (c : Cursor) : Cursor :=
  match c.rest with
  | t :: ts => { c with before := t :: c.before, rest := ts }
  | [] => c

/-- The cursor past one token, unless that is the end marker. -/
def next (c : Cursor) : Cursor := if c.atEnd then c else c.forward

def skipWhile (p : TokenKind → Bool) (c : Cursor) : Cursor :=
  { c with
    before := (c.rest.takeWhile fun t => p t.kind).reverse ++ c.before
    rest := c.rest.dropWhile fun t => p t.kind }

def atKeyword (k : Keyword) (c : Cursor) : Bool := c.kind.isKeyword k

def atPunctuation (p : Punctuation) (c : Cursor) : Bool := c.kind.isPunctuation p

def atOperator (o : Operator) (c : Cursor) : Bool := c.kind.isOperator o

def atIdent (c : Cursor) : Bool := c.kind.isIdent

def atNewline (c : Cursor) : Bool := c.kind.isNewline

def atDedent (c : Cursor) : Bool := c.kind.isDedent

def afterDedent (c : Cursor) : Bool :=
  match c.previous? with
  | some t => t.kind.isDedent
  | none => false

/-- Whether identifiers, one or more, stand `n` places ahead and a token that satisfies `p` follows
them. -/
def namesThen (p : TokenKind → Bool) (n : Nat) (c : Cursor) : Bool :=
  let ahead := c.rest.drop n
  let names := ahead.takeWhile fun t => t.kind.isIdent
  let rest := ahead.dropWhile fun t => t.kind.isIdent
  !names.isEmpty && (rest.head?.map fun t => p t.kind) == some true

/-- A line end, an indentation and a token that satisfies `p` come next. -/
def atBlock (p : TokenKind → Bool) (c : Cursor) : Bool :=
  c.atNewline && (c.kindAt 1).isIndent && p (c.kindAt 2)

/-- How deep in indented blocks the cursor is. -/
def level (c : Cursor) : Int := c.before.foldr (fun t n => n + t.kind.levelChange) 0

/-- The span from the next token of `start` to the latest token consumed since. -/
def spanSince (start c : Cursor) : Span :=
  let first := (start.rest.head?.getD c.peek).span
  match c.previous? with
  | some last => if start.before.length < c.before.length then first.merge last.span else first
  | none => first

def record (c : Cursor) (d : Diagnostic) : Cursor := { c with errors := d :: c.errors }

def unexpected (c : Cursor) (place : Place) (expected : List Expected) : Diagnostic :=
  ({ cause := .unexpected c.kind place, span := c.peek.span } : Diagnostic).withExpected expected

def failure (c : Cursor) (cause : Cause) : Diagnostic := { cause, span := c.peek.span }

@[simp] theorem forward_errors (c : Cursor) : c.forward.errors = c.errors := by
  unfold forward; split <;> rfl

@[simp] theorem next_errors (c : Cursor) : c.next.errors = c.errors := by
  unfold next; split <;> simp

theorem peek_eq_peekAt (c : Cursor) : c.peek = c.peekAt 0 := by
  unfold peek peekAt
  cases h : c.rest with
  | nil => simp [final, h]
  | cons t ts => simp

theorem forward_tokens (c : Cursor) :
    c.forward.before.reverse ++ c.forward.rest = c.before.reverse ++ c.rest := by
  unfold forward; split <;> simp [*]

theorem next_tokens (c : Cursor) :
    c.next.before.reverse ++ c.next.rest = c.before.reverse ++ c.rest := by
  unfold next; split
  · rfl
  · exact forward_tokens c

theorem skipWhile_tokens (p : TokenKind → Bool) (c : Cursor) :
    (c.skipWhile p).before.reverse ++ (c.skipWhile p).rest = c.before.reverse ++ c.rest := by
  simp [skipWhile, List.takeWhile_append_dropWhile]

end Cursor

end PipeLang
