import PipeLang.Token.Basic

/-! What can go wrong in a text, as data. Each cause belongs to one class of failures and has one
message. -/

namespace PipeLang

/-- The class of a failure: malformed text, misplaced tokens, or too much nesting. -/
inductive Failure
  | scan | grammar | limit
  deriving DecidableEq

namespace Failure

def code : Failure → String
  | scan => "rill::scan"
  | grammar => "rill::syntax"
  | limit => "rill::limit"

def title : Failure → String
  | scan => "scan error"
  | grammar => "syntax error"
  | limit => "limit error"

end Failure

inductive Form
  | recordLiteral | recordPattern | listLiteral | anonymousFunction | parentheses
  deriving DecidableEq

namespace Form

def title : Form → String
  | recordLiteral => "record literal"
  | recordPattern => "record pattern"
  | listLiteral => "list literal"
  | anonymousFunction => "anonymous function"
  | parentheses => "parenthesized expression"

end Form

inductive Place
  | inputStart | afterFragment | afterStatement
  | definitionStart | parameterList | inDefinition
  | inExpression | afterDot | inInterpolation | afterIndented
  | within (form : Form) | afterKey | afterParameters | afterFunctionBody
  | stageStart | afterStage
  | letBinding | letBindings | inLet | afterLet
  | afterCondition | inIf | afterIf
  | inMatch | matchClause | afterClauses
  | inTry | catchClause | afterCatches
  | inPattern
  deriving DecidableEq

def Place.phrase : Place → String
  | .inputStart => "at start of input"
  | .afterFragment => "after fragment"
  | .afterStatement => "after statement"
  | .definitionStart => "at the start of a definition"
  | .parameterList => "in parameter list"
  | .inDefinition => "in definition"
  | .inExpression => "in expression"
  | .afterDot => "after `.`"
  | .inInterpolation => "in string interpolation"
  | .afterIndented => "after indented expression"
  | .within form => "in " ++ form.title
  | .afterKey => "after record key"
  | .afterParameters => "after parameters"
  | .afterFunctionBody => "after function body"
  | .stageStart => "at the start of a pipeline stage"
  | .afterStage => "after pipeline stage"
  | .letBinding => "in let binding"
  | .letBindings => "in let bindings"
  | .inLet => "in let expression"
  | .afterLet => "after let body"
  | .afterCondition => "after if condition"
  | .inIf => "in if expression"
  | .afterIf => "after if expression"
  | .inMatch => "in match expression"
  | .matchClause => "in match clause"
  | .afterClauses => "after match clauses"
  | .inTry => "in try expression"
  | .catchClause => "in catch clause"
  | .afterCatches => "after catch clauses"
  | .inPattern => "in pattern"

inductive Cause
  | mixedIndentation
  | shallowIndentation
  | unmatchedIndentation
  | strayCharacter (c : Char)
  | underscoreWord (word : List Char)
  | repeatedPoint (literal : List Char)
  | digitWord (literal : List Char)
  | unmatchedClosing (bracket : Punctuation)
  | mismatchedClosing (bracket : Punctuation)
  | unterminatedComment
  | unterminatedString
  | unmatchedBrace
  | emptyInterpolation
  | interpolationNesting (levels : Nat)
  | unexpected (found : TokenKind) (place : Place)
  | unterminated (form : Form)
  | comma (form : Form)
  | duplicateKey (key : String) (form : Form)
  | missingParameter
  | unevenStages
  | secondPlaceholder
  | interpolatedPattern
  | unnamedCatch
  | expressionNesting (levels : Nat)
  /-- A failure described by its own text. -/
  | stated (failure : Failure) (message : String)

namespace Cause

def failure : Cause → Failure
  | mixedIndentation | shallowIndentation | unmatchedIndentation | strayCharacter _
  | underscoreWord _ | repeatedPoint _ | digitWord _ | unmatchedClosing _ | mismatchedClosing _
  | unterminatedComment | unterminatedString | unmatchedBrace | emptyInterpolation => .scan
  | unexpected _ _ | unterminated _ | comma _ | duplicateKey _ _ | missingParameter | unevenStages
  | secondPlaceholder | interpolatedPattern | unnamedCatch => .grammar
  | interpolationNesting _ | expressionNesting _ => .limit
  | stated failure _ => failure

def message : Cause → String
  | mixedIndentation => "indentation mixes tabs and spaces"
  | shallowIndentation => "indentation must grow by at least two spaces or one tab"
  | unmatchedIndentation =>
    "inconsistent indentation: this line does not match any enclosing level"
  | strayCharacter c => "unexpected character `" ++ String.singleton c ++ "`"
  | underscoreWord word =>
    "invalid identifier `" ++ String.ofList word ++ "`: identifiers must start with a letter"
  | repeatedPoint literal =>
    "invalid number literal `" ++ String.ofList literal ++ "`: more than one decimal point"
  | digitWord literal =>
    "invalid number literal `" ++ String.ofList literal ++
      "`: identifiers cannot start with a digit"
  | unmatchedClosing bracket => "unmatched closing bracket `" ++ bracket.spelling ++ "`"
  | mismatchedClosing bracket => "mismatched closing bracket `" ++ bracket.spelling ++ "`"
  | unterminatedComment => "unterminated block comment"
  | unterminatedString => "unterminated string literal"
  | unmatchedBrace => "unmatched `\x7d` in string literal"
  | emptyInterpolation => "empty interpolation `\x7b\x7d`"
  | interpolationNesting levels =>
    "string interpolation nesting exceeds the limit of " ++ toString levels ++ " levels"
  | unexpected found place => "unexpected " ++ found.describe ++ " " ++ place.phrase
  | unterminated form => "unterminated " ++ form.title
  | comma form => "unexpected `,` in " ++ form.title
  | duplicateKey key form => "duplicate key `" ++ key ++ "` in " ++ form.title
  | missingParameter => "anonymous function needs at least one parameter"
  | unevenStages => "pipeline stages must share one indentation"
  | secondPlaceholder => "a pipeline stage takes at most one `_` placeholder"
  | interpolatedPattern => "string patterns cannot contain interpolation"
  | unnamedCatch => "catch clause needs an error tag, a binding, or both"
  | expressionNesting levels =>
    "expression nesting exceeds the limit of " ++ toString levels ++ " levels"
  | stated _ message => message

end Cause

end PipeLang
