import PipeLang.Scan.Indentation
import PipeLang.Token.Identifier
import PipeLang.Text.Blank
import PipeLang.Text.Escape

/-! One step of the scanner. A character either joins what is pending, or settles it and is then read
afresh. Longest match follows: a pending token takes every character that can extend it. -/

namespace PipeLang.Scan

/-- Reads the text of an interpolation on its own, from the position where it starts. -/
abbrev Inner := Position → List Char → List Token × List Diagnostic

def nestingLimit : Nat := 64

/-- Tokens of one character that no further character can extend, brackets apart. -/
def symbol? : Char → Option TokenKind
  | '+' => some (.operator .plus)
  | '*' => some (.operator .star)
  | '%' => some (.operator .percent)
  | '=' => some (.operator .eq)
  | ',' => some (.punctuation .comma)
  | ':' => some (.punctuation .colon)
  | ';' => some (.punctuation .semicolon)
  | '.' => some (.punctuation .dot)
  | _ => none

def opening? : Char → Option Punctuation
  | '(' => some .lparen
  | '[' => some .lbracket
  | '\x7b' => some .lbrace
  | _ => none

def closing? : Char → Option Punctuation
  | ')' => some .rparen
  | ']' => some .rbracket
  | '\x7d' => some .rbrace
  | _ => none

/-- Tokens and comments whose first character leaves open what they are. -/
def pending? (p : Position) : Char → Option Mode
  | '#' => some (.note false)
  | '/' => some (.slash p)
  | '-' => some (.minus p)
  | '!' => some (.bang p)
  | '<' => some (.less p)
  | '>' => some (.greater p)
  | '|' => some (.bar p)
  | '_' => some (.underscore p)
  | '"' => some (.text ⟨p, [], []⟩)
  | c => if c.isDigit then some (.digits p [c]) else if c.isAlpha then some (.word p [c]) else none

namespace State

/-- Reads `c`, which starts at `p` and has been passed, with nothing pending. -/
def start (s : State) (p : Position) (c : Char) : State :=
  if c = ' ' ∨ c = '\t' ∨ c = '\r' then s.become .ready
  else if c = '\n' then s.endLine p
  else
    match symbol? c, opening? c, closing? c, pending? p c with
    | some kind, _, _, _ => s.emit p kind
    | _, some b, _, _ => s.openBracket p b
    | _, _, some b, _ => s.closeBracket p b
    | _, _, _, some mode => s.become mode
    | _, _, _, _ => s.fail p (.strayCharacter c)

/-- What is pending comes to an end before the next character, or with the text. -/
def settle (s : State) : State :=
  match s.mode with
  | .ready => s
  | .margin m | .marginRemark m => s.leaveMargin m
  | .marginSlash m slash => (s.leaveMargin m).emit slash (.operator .slash)
  | .note _ => s.become .ready
  | .remark opened _ _ _ => s.fail opened .unterminatedComment
  | .slash p => s.emit p (.operator .slash)
  | .minus p => s.emit p (.operator .minus)
  | .bang p => s.fail p (.strayCharacter '!')
  | .less p => s.emit p (.operator .lt)
  | .greater p => s.emit p (.operator .gt)
  | .bar p => s.emit p (.punctuation .bar)
  | .underscore p => s.emit p (.punctuation .underscore)
  | .word p text => s.emitWord p text
  | .underscoreWord p text => s.fail p (.underscoreWord text.reverse)
  | .digits p whole => s.emitNumber p whole []
  | .point p whole dot =>
    let t := { s with position := dot }.emitNumber p whole []
    { t with position := s.position }.emit dot (.punctuation .dot)
  | .fraction p whole places => s.emitNumber p whole places
  | .secondPoint p whole places dot =>
    let t := { s with position := dot }.emitNumber p whole places
    { t with position := s.position }.emit dot (.punctuation .dot)
  | .repeatedPoint p text => s.fail p (.repeatedPoint text.reverse)
  | .digitWord p text => s.fail p (.digitWord text.reverse)
  | .text q | .escape q | .hole q _ | .holeEscape q _ => s.cutText q

/-- The brace that closes an interpolation has been passed. The text between the braces is read on its
own, if interpolations may still nest. -/
def closeHole (inner : Option Inner) (s : State) (q : Quoted) (h : Hole) : State :=
  let body := h.body.reverse
  let whole := h.brace.to s.position
  if body.all isBlank then
    (s.report (Diagnostic.withHint { cause := .emptyInterpolation, span := whole }
      "write `\\\x7b` for a literal brace")).become (.text q)
  else
    match inner with
    | none =>
      (s.report (Diagnostic.withHint { cause := .interpolationNesting nestingLimit, span := whole }
        "bind the inner string to a name first")).become (.text q)
    | some scan =>
      let (tokens, errors) := scan h.start body
      let part := StringPart.hole tokens (h.start.to (h.start.after body))
      { s with
        mode := .text { q with parts := part :: q.parts }
        errors := errors.reverse ++ s.errors }

/-- A character of a string literal other than a line feed. -/
def quote (s : State) (q : Quoted) (p : Position) (c : Char) : State :=
  if c = '"' then s.emitText q
  else if c = '\\' then s.become (.escape q)
  else if c = '\x7b' then s.become (.hole q.flush ⟨p, s.position, [], [.brace 0]⟩)
  else if c = '\x7d' then
    (s.report (Diagnostic.withHint { cause := .unmatchedBrace, span := p.to s.position }
      "write `\\\x7d` for a literal brace")).become (.text q)
  else s.become (.text { q with literal := c :: q.literal })

/-- A character of an interpolation other than a line feed. -/
def burrow (inner : Option Inner) (s : State) (q : Quoted) (h : Hole) (c : Char) : State :=
  match Enclosing.next c h.enclosing with
  | [] => s.closeHole inner q h
  | up =>
    let deeper := { h with body := c :: h.body, enclosing := up }
    if c = '\\' ∧ h.enclosing.head? = some .quote then s.become (.holeEscape q deeper)
    else s.become (.hole q deeper)

def remark (s : State) (opened : Position) (depth : Nat) (last : Option Char)
    (back : Option Margin) (c : Char) : State :=
  match last, c with
  | some '/', '*' => s.become (.remark opened (depth + 1) none back)
  | some '*', '/' =>
    match depth with
    | depth + 2 => s.become (.remark opened (depth + 1) none back)
    | _ =>
      match back with
      | some m => s.become (.marginRemark m)
      | none => s.become .ready
  | _, _ => s.become (.remark opened depth (if c = '/' ∨ c = '*' then some c else none) back)

def margin (s : State) (m : Margin) (p : Position) (c : Char) : Option State :=
  if c = ' ' ∨ c = '\t' then some (s.become (.margin { m with blanks := c :: m.blanks }))
  else if c = '\n' ∨ c = '\r' then some (s.become (.margin ⟨s.position, []⟩))
  else if c = '#' then some (s.become (.note true))
  else if c = '/' then some (s.become (.marginSlash m p))
  else none

/-- The state in which `c`, which starts at `p` and has been passed, joins what is pending; none if it
does not. -/
def join (inner : Option Inner) (s : State) (p : Position) (c : Char) : Option State :=
  match s.mode with
  | .ready => none
  | .margin m => s.margin m p c
  | .marginSlash m slash =>
    if c = '*' then some (s.become (.remark slash 1 none (some m))) else none
  | .marginRemark _ =>
    if c = ' ' ∨ c = '\t' then some s
    else if c = '\n' ∨ c = '\r' then some (s.become (.margin ⟨s.position, []⟩))
    else if c = '#' then some (s.become (.note true))
    else none
  | .note alone =>
    if c ≠ '\n' then some s
    else if alone then some (s.become (.margin ⟨s.position, []⟩))
    else none
  | .remark opened depth last back => some (s.remark opened depth last back c)
  | .slash start => if c = '*' then some (s.become (.remark start 1 none none)) else none
  | .minus start => if c = '>' then some (s.emit start (.punctuation .arrow)) else none
  | .bang start => if c = '=' then some (s.emit start (.operator .notEq)) else none
  | .less start => if c = '=' then some (s.emit start (.operator .ltEq)) else none
  | .greater start => if c = '=' then some (s.emit start (.operator .gtEq)) else none
  | .bar start => if c = '>' then some (s.emit start (.punctuation .pipe)) else none
  | .underscore start =>
    if c.isAlphanum ∨ c = '_' then some (s.become (.underscoreWord start [c, '_'])) else none
  | .word start text =>
    if continuesWord c then some (s.become (.word start (c :: text)))
    else if isMark c then some (s.emitWord start (c :: text))
    else none
  | .underscoreWord start text =>
    if continuesWord c then some (s.become (.underscoreWord start (c :: text))) else none
  | .digits start whole =>
    if c.isDigit then some (s.become (.digits start (c :: whole)))
    else if c = '.' then some (s.become (.point start whole p))
    else if c.isAlpha ∨ c = '_' then some (s.become (.digitWord start (c :: whole)))
    else none
  | .point start whole _ =>
    if c.isDigit then some (s.become (.fraction start whole [c])) else none
  | .fraction start whole places =>
    if c.isDigit then some (s.become (.fraction start whole (c :: places)))
    else if c = '.' then some (s.become (.secondPoint start whole places p))
    else if c.isAlpha ∨ c = '_' then
      some (s.become (.digitWord start (c :: places ++ '.' :: whole)))
    else none
  | .secondPoint start whole places _ =>
    if c.isDigit then
      some (s.become (.repeatedPoint start (c :: '.' :: places ++ '.' :: whole)))
    else none
  | .repeatedPoint start text =>
    if c.isDigit ∨ c = '.' then some (s.become (.repeatedPoint start (c :: text))) else none
  | .digitWord start text =>
    if continuesWord c then some (s.become (.digitWord start (c :: text)))
    else if isMark c then some (s.fail start (.digitWord (c :: text).reverse))
    else none
  | .text q => if c = '\n' then none else some (s.quote q p c)
  | .escape q =>
    if c = '\n' then none
    else
      some (s.become (.text { q with
        literal := match unescape? c with
          | some d => d :: q.literal
          | none => c :: '\\' :: q.literal }))
  | .hole q h => if c = '\n' then none else some (s.burrow inner q h c)
  | .holeEscape q h =>
    if c = '\n' then none else some (s.become (.hole q { h with body := c :: h.body }))

def step (inner : Option Inner) (s : State) (c : Char) : State :=
  match (s.past c).join inner s.position c with
  | some t => t
  | none => let t := s.settle; (t.past c).start t.position c

end State

end PipeLang.Scan
