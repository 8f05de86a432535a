import Mathlib
import PipeLang.Format.Layout
import PipeLang.Token.Basic

/-! What the printer writes, as pieces: tokens without their places, and marks where two tokens touch or
have a blank between them. A form is built from the pieces of its parts as its text is built from
their texts. -/

namespace PipeLang.Format

mutual

inductive Piece
  | gap
  | glue
  | plain (kind : TokenKind)
  | text (parts : List PiecePart)

inductive PiecePart
  | literal (text : String)
  | hole (pieces : List Piece)

end

namespace Piece

abbrev mark (p : Punctuation) : Piece := plain (.punctuation p)

abbrev word (k : Keyword) : Piece := plain (.keyword k)

abbrev name (s : String) : Piece := plain (.ident s)

/-- How many tokens a piece stands for. -/
def count : Piece → Nat
  | gap | glue => 0
  | plain _ | text _ => 1

end Piece

/-- The token of an operator; `and` and `or` are words. -/
def operatorKind : Operator → TokenKind
  | .and => .keyword .and_
  | .or => .keyword .or_
  | op => .operator op

def enclosed (l r : Punctuation) (ps : List Piece) : List Piece := .mark l :: (ps ++ [.mark r])

def parensPieces (ps : List Piece) : List Piece := enclosed .lparen .rparen ps

def placePieces (slot : Slot) (e : Expr) (ps : List Piece) : List Piece :=
  if needsParens slot e then parensPieces ps else ps

def operandPieces (precedence : Nat) (onRight : Bool) (e : Expr) (ps : List Piece) : List Piece :=
  match e.operator? with
  | some op =>
    if op.precedence < precedence || (onRight && op.precedence == precedence) then parensPieces ps
    else ps
  | none => placePieces .operand e ps

def targetPieces (e : Expr) (ps : List Piece) : List Piece :=
  match e with
  | .wildcard .. => parensPieces ps
  | e => placePieces .argument e ps

/-- Runs of pieces with a blank before each. -/
def spacedPieces (runs : List (List Piece)) : List Piece := runs.flatMap (.gap :: ·)

/-- Runs of pieces with a blank between each two. -/
def joinedPieces : List (List Piece) → List Piece
  | [] => []
  | ps :: runs => ps ++ spacedPieces runs

def fieldPieces (field : String) : List Piece :=
  [.glue, .mark .dot, .glue, .name field]

def numberPieces (x : Number) : List Piece :=
  if x.negative then [.plain (.operator .minus), .glue, .plain (.number x.neg)]
  else [.plain (.number x)]

def literalParts (s : String) : List PiecePart := if s = "" then [] else [.literal s]

def boolKeyword (b : Bool) : Keyword := if b then .true_ else .false_

def literalPieces : Literal → List Piece
  | .number value => numberPieces value
  | .text value => [.text (literalParts value)]
  | .bool value => [.word (boolKeyword value)]
  | .nil => [.word .nil_]

def keyPieces (key : String) (ps : List Piece) : List Piece :=
  .name key :: .mark .colon :: .gap :: ps

def patternFieldPieces (f : PatternField) : List Piece :=
  match f.use with
  | .bind name => if name = f.key.text then [.name f.key.text] else keyPieces f.key.text [.name name]
  | .compare value => keyPieces f.key.text (literalPieces value)
  | .ignore => keyPieces f.key.text [.mark .underscore]

def patternPieces : Pattern → List Piece
  | .record _ fields => enclosed .lbrace .rbrace (joinedPieces (fields.map patternFieldPieces))
  | .literal _ value => literalPieces value
  | .bind _ name => [.name name]
  | .wildcard _ => [.mark .underscore]
  | .otherwise _ => [.word .otherwise_]

def namePieces (n : Name) : List Piece := [.name n.text]

def headPieces (name : Name) (params : List Name) : List Piece :=
  .name name.text :: (spacedPieces (params.map namePieces) ++
    [.gap, .plain (.operator .eq), .gap])

/-- A binary expression, or a callee and its arguments. -/
def applicationPieces (op : Option Operator) (callee : Expr × List Piece)
    (args : List (Expr × List Piece)) : List Piece :=
  match op, args with
  | some op, [(left, l), (right, r)] =>
    operandPieces op.precedence false left l ++ .gap :: .plain (operatorKind op) :: .gap ::
      operandPieces op.precedence true right r
  | _, _ => joinedPieces ((callee :: args).map fun (e, ps) => placePieces .argument e ps)

def itemPieces : List (Expr × List Piece) → List (List Piece)
  | [] => []
  | (e, ps) :: rest =>
    (if rest.isEmpty && trailsBare e then ps else placePieces .argument e ps) :: itemPieces rest

def writtenPieces : List (Expr × List Piece) → List (Expr × List Piece)
  | [] => []
  | (e, ps) :: rest => if e.isPlaceholder then rest else (e, ps) :: rest

/-- What follows a clause: nothing after the last one, so that its result need not be wrapped. -/
def resultPieces (isLast : Bool) (e : Expr) (ps : List Piece) : List Piece :=
  if isLast then ps else placePieces .clause e ps

mutual

/-- The pieces of an expression without parentheses around it. -/
def pieces : Expr → List Piece
  | .ident _ name => [.name name]
  | .wildcard _ path => .mark .underscore :: path.flatMap fieldPieces
  | .number _ value => numberPieces value
  | .text _ segments => [.text (segmentParts segments)]
  | .bool _ value => [.word (boolKeyword value)]
  | .nil _ => [.word .nil_]
  | .record _ fields => enclosed .lbrace .rbrace (joinedPieces (bindingRuns fields))
  | .list _ items => enclosed .lbracket .rbracket (joinedPieces (itemPieces (withPieces items)))
  | .function _ params body =>
    enclosed .lbracket .rbracket
      (joinedPieces (params.map namePieces) ++ .gap :: .mark .arrow :: .gap :: pieces body)
  | .apply s callee args =>
    applicationPieces (Expr.apply s callee args).operator? (callee, pieces callee)
      (withPieces args)
  | .access _ target field => targetPieces target (pieces target) ++ fieldPieces field.text
  | .pipeline _ seed stages => placePieces .seed seed (pieces seed) ++ pipePieces stages
  | .letIn _ bindings body =>
    .word .let_ :: .gap :: (definitionPieces bindings ++ .gap :: .word .in_ :: .gap :: pieces body)
  | .ifElse _ branches fallback =>
    branchPieces .if_ branches ++ .gap :: .word .else_ :: .gap :: pieces fallback
  | .matchOn _ subject clauses =>
    .word .match_ :: .gap :: (placePieces .clause subject (pieces subject) ++ clausePieces clauses)
  | .tryCatch _ body catches =>
    .word .try_ :: .gap :: (placePieces .clause body (pieces body) ++ catchPieces catches)
  | .error _ => []

def withPieces : List Expr → List (Expr × List Piece)
  | [] => []
  | e :: rest => (e, pieces e) :: withPieces rest

def segmentParts : List Segment → List PiecePart
  | [] => []
  | .literal text :: rest => .literal text :: segmentParts rest
  | .hole e :: rest => .hole (pieces e) :: segmentParts rest

def bindingRuns : List Binding → List (List Piece)
  | [] => []
  | ⟨key, value⟩ :: rest =>
    keyPieces key.text (placePieces .clause value (pieces value)) :: bindingRuns rest

/-- Local definitions with semicolons between them. -/
def definitionPieces : List Binding → List Piece
  | [] => []
  | ⟨name, .function _ params body⟩ :: rest =>
    headPieces name params ++ placePieces .clause body (pieces body) ++
      (if rest.isEmpty then [] else .mark .semicolon :: .gap :: definitionPieces rest)
  | ⟨name, value⟩ :: rest =>
    headPieces name [] ++ placePieces .clause value (pieces value) ++
      (if rest.isEmpty then [] else .mark .semicolon :: .gap :: definitionPieces rest)

def stageRuns : List Stage → List (List Piece)
  | [] => []
  | ⟨_, callee, args⟩ :: rest =>
    joinedPieces (placePieces .argument callee (pieces callee) ::
      itemPieces (writtenPieces (withPieces args))) :: stageRuns rest

def pipePieces : List Stage → List Piece
  | [] => []
  | ⟨_, callee, args⟩ :: rest =>
    .gap :: .mark .pipe :: .gap ::
      (joinedPieces (placePieces .argument callee (pieces callee) ::
        itemPieces (writtenPieces (withPieces args))) ++ pipePieces rest)

/-- Branches, the first after `opener` and each further one after an `elif`. -/
def branchPieces (opener : Keyword) : List Branch → List Piece
  | [] => []
  | ⟨condition, result⟩ :: rest =>
    .word opener :: .gap :: (placePieces .clause condition (pieces condition) ++
      .gap :: .word .then_ :: .gap :: (placePieces .clause result (pieces result) ++
        (if rest.isEmpty then [] else .gap :: branchPieces .elif_ rest)))

def clausePieces : List Clause → List Piece
  | [] => []
  | ⟨_, p, none, result⟩ :: rest =>
    .gap :: .mark .bar :: .gap :: (patternPieces p ++ .gap :: .mark .arrow :: .gap ::
      (resultPieces rest.isEmpty result (pieces result) ++ clausePieces rest))
  | ⟨_, p, some guard, result⟩ :: rest =>
    .gap :: .mark .bar :: .gap :: (patternPieces p ++ .gap :: .word .when_ :: .gap ::
      (placePieces .clause guard (pieces guard) ++ .gap :: .mark .arrow :: .gap ::
        (resultPieces rest.isEmpty result (pieces result) ++ clausePieces rest)))

def catchPieces : List Catch → List Piece
  | [] => []
  | ⟨_, tag, binding, handler⟩ :: rest =>
    .gap :: .word .catch_ :: (spacedPieces ((tag.toList ++ binding.toList).map namePieces) ++
      .gap :: .mark .arrow :: .gap ::
        (resultPieces rest.isEmpty handler (pieces handler) ++ catchPieces rest))

end

theorem pieces_ident (s : Span) (name : String) : pieces (.ident s name) = [.name name] := by
  rw [pieces]

theorem withPieces_eq_map (es : List Expr) : withPieces es = es.map fun e => (e, pieces e) := by
  induction es with
  | nil => simp [withPieces]
  | cons e rest ih => simp [withPieces, ih]

theorem pipePieces_eq (stages : List Stage) :
    pipePieces stages = (stageRuns stages).flatMap fun ps =>
      .gap :: .mark .pipe :: .gap :: ps := by
  induction stages with
  | nil => simp [pipePieces, stageRuns]
  | cons g rest ih => cases g; simp [pipePieces, stageRuns, ih]

end PipeLang.Format
