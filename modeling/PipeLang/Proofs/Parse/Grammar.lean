import PipeLang.Parse.Program
import PipeLang.Token.Identifier

/-! The grammar, as a relation between tokens and the trees they are read as. `Derives mode ts p us` says
that the tokens `ts` begin with the phrase `p`, and that `us` comes after it. The tree carries all that the
parser puts into it, spans included; which of several readings of the same tokens the parser chooses is
left open. -/

namespace PipeLang

/-- The token that a name is read from. -/
def Name.token (n : Name) : Token := ⟨.ident n.text, n.span⟩

namespace Grammar

/-- Names one after the other. -/
inductive Names : List Token → List Name → List Token → Prop
  | nil {ts : List Token} : Names ts [] ts
  | cons {ts us vs : List Token} {n : Name} {names : List Name} (name : ts = n.token :: us)
    (rest : Names us names vs) : Names ts (n :: names) vs

/-- A path of fields on the placeholder. -/
inductive Path : List Token → List Name → List Token → Prop
  | nil {ts : List Token} : Path ts [] ts
  | cons {ts us vs ws : List Token} {d : Span} {n : Name} {names : List Name}
    (dot : ts = ⟨.punctuation .dot, d⟩ :: us) (name : us = n.token :: vs)
    (rest : Path vs names ws) : Path ts (n :: names) ws

/-! ## Blocks -/

/-- A further line of the block that a construct is in, or the first line of a block of its own. -/
inductive Turn : Bool → List Token → List Token → Prop
  | line {ts us : List Token} {s : Span} (newline : ts = ⟨.newline, s⟩ :: us) : Turn true ts us
  | block {ts us vs : List Token} {s t : Span} (newline : ts = ⟨.newline, s⟩ :: us)
    (indent : us = ⟨.indent, t⟩ :: vs) : Turn false ts vs

/-- What stands between two clauses: whether the construct has a block before it, and after it. -/
inductive Ahead : Bool → List Token → Bool → List Token → Prop
  | here {inBlock : Bool} {ts : List Token} : Ahead inBlock ts inBlock ts
  | turn {inBlock : Bool} {ts us : List Token} (turn : Turn inBlock ts us) : Ahead inBlock ts true us

/-- The end of a block, or nothing where there is none. -/
inductive Closing : Bool → List Token → List Token → Prop
  | none {ts : List Token} : Closing false ts ts
  | dedent {ts us : List Token} {s : Span} (dedent : ts = ⟨.dedent, s⟩ :: us) : Closing true ts us
  | line {ts us vs : List Token} {s t : Span} (newline : ts = ⟨.newline, s⟩ :: us)
    (dedent : us = ⟨.dedent, t⟩ :: vs) : Closing true ts vs

/-- What stands before the first binding of a `let`, which may be in a block. -/
inductive Opening : Bool → List Token → List Token → Prop
  | inline {ts : List Token} : Opening false ts ts
  | block {ts us : List Token} (turn : Turn false ts us) : Opening true ts us

/-- What stands between two bindings. Nothing does where the first of them ends with a block. -/
inductive Between : Bool → List Token → List Token → Prop
  | semicolon {inBlock : Bool} {ts us : List Token} {s : Span}
    (semicolon : ts = ⟨.punctuation .semicolon, s⟩ :: us) : Between inBlock ts us
  | line {ts us : List Token} {s : Span} (newline : ts = ⟨.newline, s⟩ :: us) : Between true ts us
  | closed {ts : List Token} : Between true ts ts

/-- What ends the bindings, and whether their block is still open then. -/
inductive Tail : Bool → List Token → Bool → List Token → Prop
  | ahead {inBlock : Bool} {ts us : List Token} (ahead : Ahead inBlock ts inBlock us) :
    Tail inBlock ts inBlock us
  | closed {ts us : List Token} (closing : Closing true ts us) : Tail true ts false us

/-- All of these pass over some tokens, of which no tree holds anything. -/
inductive Skips : List Token → List Token → Prop
  | refl {ts : List Token} : Skips ts ts
  | token {ts us vs : List Token} {t : Token} (first : ts = t :: us)
    (spacing : t.kind.isLayout = true ∨ t.kind = .punctuation .semicolon) (rest : Skips us vs) : Skips ts vs

theorem Turn.skips {b : Bool} {ts us : List Token} (h : Turn b ts us) : Skips ts us := by
  cases h with
  | line newline => exact .token newline (.inl rfl) .refl
  | block newline indent => exact .token newline (.inl rfl) (.token indent (.inl rfl) .refl)

theorem Ahead.skips {b c : Bool} {ts us : List Token} (h : Ahead b ts c us) : Skips ts us := by
  cases h with
  | here => exact .refl
  | turn turn => exact turn.skips

theorem Closing.skips {b : Bool} {ts us : List Token} (h : Closing b ts us) : Skips ts us := by
  cases h with
  | none => exact .refl
  | dedent dedent => exact .token dedent (.inl rfl) .refl
  | line newline dedent => exact .token newline (.inl rfl) (.token dedent (.inl rfl) .refl)

theorem Opening.skips {b : Bool} {ts us : List Token} (h : Opening b ts us) : Skips ts us := by
  cases h with
  | inline => exact .refl
  | block turn => exact turn.skips

theorem Between.skips {b : Bool} {ts us : List Token} (h : Between b ts us) : Skips ts us := by
  cases h with
  | semicolon semicolon => exact .token semicolon (.inr rfl) .refl
  | line newline => exact .token newline (.inl rfl) .refl
  | closed => exact .refl

theorem Tail.skips {b c : Bool} {ts us : List Token} (h : Tail b ts c us) : Skips ts us := by
  cases h with
  | ahead ahead => exact ahead.skips
  | closed closing => exact closing.skips

/-! ## Patterns -/

/-- A constant, with its span. -/
inductive Constant : List Token → Literal → Span → List Token → Prop
  | number {ts us : List Token} {s : Span} {v : Number} (token : ts = ⟨.number v, s⟩ :: us) :
    Constant ts (.number v) s us
  | negative {ts us vs : List Token} {s t : Span} {v : Number}
    (minus : ts = ⟨.operator .minus, s⟩ :: us) (number : us = ⟨.number v, t⟩ :: vs)
    (touch : s.stop = t.start) : Constant ts (.number v.neg) (s.merge t) vs
  | empty {ts us : List Token} {s : Span} (token : ts = ⟨.text [], s⟩ :: us) :
    Constant ts (.text "") s us
  | text {ts us : List Token} {s : Span} {text : String}
    (token : ts = ⟨.text [.literal text], s⟩ :: us) (nonempty : text ≠ "") :
    Constant ts (.text text) s us
  | yes {ts us : List Token} {s : Span} (token : ts = ⟨.keyword .true_, s⟩ :: us) :
    Constant ts (.bool true) s us
  | no {ts us : List Token} {s : Span} (token : ts = ⟨.keyword .false_, s⟩ :: us) :
    Constant ts (.bool false) s us
  | nil {ts us : List Token} {s : Span} (token : ts = ⟨.keyword .nil_, s⟩ :: us) :
    Constant ts .nil s us

/-- What a record pattern does with a field, after its key and a colon. -/
inductive Use : List Token → FieldUse → List Token → Prop
  | bind {ts us : List Token} {s : Span} {name : String} (token : ts = ⟨.ident name, s⟩ :: us) :
    Use ts (.bind name) us
  | ignore {ts us : List Token} {s : Span} (token : ts = ⟨.punctuation .underscore, s⟩ :: us) :
    Use ts .ignore us
  | compare {ts us : List Token} {s : Span} {value : Literal} (constant : Constant ts value s us) :
    Use ts (.compare value) us

inductive PatternFields : List Token → List PatternField → List Token → Prop
  | nil {ts : List Token} : PatternFields ts [] ts
  /-- A key alone binds the field to its own name. -/
  | key {ts us vs : List Token} {fields : List PatternField} {key : Name}
    (before : PatternFields ts fields us) (name : us = key.token :: vs) :
    PatternFields ts (fields ++ [⟨key, .bind key.text⟩]) vs
  | use {ts us vs ws xs : List Token} {s : Span} {fields : List PatternField} {key : Name}
    {use : FieldUse} (before : PatternFields ts fields us) (name : us = key.token :: vs)
    (colon : vs = ⟨.punctuation .colon, s⟩ :: ws) (used : Use ws use xs) :
    PatternFields ts (fields ++ [⟨key, use⟩]) xs

inductive Patterned : List Token → Pattern → List Token → Prop
  | bind {ts us : List Token} {s : Span} {name : String} (token : ts = ⟨.ident name, s⟩ :: us) :
    Patterned ts (.bind s name) us
  | wildcard {ts us : List Token} {s : Span} (token : ts = ⟨.punctuation .underscore, s⟩ :: us) :
    Patterned ts (.wildcard s) us
  | otherwise {ts us : List Token} {s : Span} (token : ts = ⟨.keyword .otherwise_, s⟩ :: us) :
    Patterned ts (.otherwise s) us
  | literal {ts us : List Token} {s : Span} {value : Literal} (constant : Constant ts value s us) :
    Patterned ts (.literal s value) us
  | record {ts us vs ws : List Token} {s t : Span} {fields : List PatternField}
    (opened : ts = ⟨.punctuation .lbrace, s⟩ :: us) (inside : PatternFields us fields vs)
    (closed : vs = ⟨.punctuation .rbrace, t⟩ :: ws) : Patterned ts (.record (s.merge t) fields) ws

/-- The tag and the binding of a catch clause. -/
inductive Caught : List Token → Option Name → Option Name → List Token → Prop
  | tag {ts us : List Token} {n : Name} (name : ts = n.token :: us) : Caught ts (some n) none us
  | binding {ts us : List Token} {n : Name} (name : ts = n.token :: us) : Caught ts none (some n) us
  | both {ts us vs : List Token} {m n : Name} (tag : ts = m.token :: us) (name : us = n.token :: vs) :
    Caught ts (some m) (some n) vs

/-! ## Expressions -/

inductive Phrase
  | expr (e : Expr)
  /-- An expression on the same line, or in a block of its own. -/
  | body (e : Expr)
  | exprs (es : List Expr)
  /-- The fields of a record literal. -/
  | fields (fields : List Binding)
  | binding (b : Binding)
  | bindings (inBlock : Bool) (bs : List Binding)
  | stage (g : Stage)
  | stages (inBlock : Bool) (gs : List Stage)
  /-- A condition and its result, after the keyword of the branch. -/
  | arm (before after : Bool) (b : Branch)
  | arms (before after : Bool) (bs : List Branch)
  | guard (g : Option Expr)
  | clauses (inBlock : Bool) (cs : List Clause)
  | catches (inBlock : Bool) (cs : List Catch)
  /-- What the parts of a string stand for. -/
  | segments (parts : List StringPart) (found : List Segment)

open Parse (binary definedValue stageOf)

/-- The tokens that a phrase is read from, with those after it. -/
inductive Derives (mode : ParseMode) : List Token → Phrase → List Token → Prop
  | ident {ts us : List Token} {s : Span} {name : String} (token : ts = ⟨.ident name, s⟩ :: us)
    (word : isIdentifier name = true) : Derives mode ts (.expr (.ident s name)) us
  | number {ts us : List Token} {s : Span} {v : Number} (token : ts = ⟨.number v, s⟩ :: us) :
    Derives mode ts (.expr (.number s v)) us
  | negative {ts us vs : List Token} {s t : Span} {v : Number}
    (minus : ts = ⟨.operator .minus, s⟩ :: us) (number : us = ⟨.number v, t⟩ :: vs)
    (touch : s.stop = t.start) : Derives mode ts (.expr (.number (s.merge t) v.neg)) vs
  | text {ts us : List Token} {s : Span} {parts : List StringPart} {found : List Segment}
    (token : ts = ⟨.text parts, s⟩ :: us) (inside : Derives mode [] (.segments parts found) []) :
    Derives mode ts (.expr (.text s found)) us
  | yes {ts us : List Token} {s : Span} (token : ts = ⟨.keyword .true_, s⟩ :: us) :
    Derives mode ts (.expr (.bool s true)) us
  | no {ts us : List Token} {s : Span} (token : ts = ⟨.keyword .false_, s⟩ :: us) :
    Derives mode ts (.expr (.bool s false)) us
  | nil {ts us : List Token} {s : Span} (token : ts = ⟨.keyword .nil_, s⟩ :: us) :
    Derives mode ts (.expr (.nil s)) us
  | wildcard {ts us vs : List Token} {s : Span} {path : List Name}
    (token : ts = ⟨.punctuation .underscore, s⟩ :: us) (fields : Path us path vs) :
    Derives mode ts
      (.expr (.wildcard (path.foldl (fun s n => s.merge n.span) s) (path.map Name.text))) vs
  | access {ts us vs ws : List Token} {d : Span} {e : Expr} {n : Name}
    (target : Derives mode ts (.expr e) us) (dot : us = ⟨.punctuation .dot, d⟩ :: vs)
    (name : vs = n.token :: ws) : Derives mode ts (.expr (.access (e.span.merge n.span) e n)) ws
  | apply {ts us vs : List Token} {head last : Expr} {args : List Expr}
    (callee : Derives mode ts (.expr head) us) (arguments : Derives mode us (.exprs args) vs)
    (final : args.getLast? = some last) :
    Derives mode ts (.expr (.apply (head.span.merge last.span) head args)) vs
  | binary {ts us vs ws : List Token} {t : Token} {op : Operator} {l r : Expr}
    (left : Derives mode ts (.expr l) us) (token : us = t :: vs) (operator : t.kind.binary? = some op)
    (right : Derives mode vs (.expr r) ws) : Derives mode ts (.expr (binary op t.span l r)) ws
  /-- Parentheses widen the span of what they enclose. -/
  | parentheses {ts us vs ws : List Token} {s t : Span} {e : Expr}
    (opened : ts = ⟨.punctuation .lparen, s⟩ :: us) (inside : Derives mode us (.expr e) vs)
    (closed : vs = ⟨.punctuation .rparen, t⟩ :: ws) :
    Derives mode ts (.expr (e.withSpan (s.merge t))) ws
  | record {ts us vs ws : List Token} {s t : Span} {fields : List Binding}
    (opened : ts = ⟨.punctuation .lbrace, s⟩ :: us) (inside : Derives mode us (.fields fields) vs)
    (closed : vs = ⟨.punctuation .rbrace, t⟩ :: ws) :
    Derives mode ts (.expr (.record (s.merge t) fields)) ws
  | list {ts us vs ws : List Token} {s t : Span} {items : List Expr}
    (opened : ts = ⟨.punctuation .lbracket, s⟩ :: us) (inside : Derives mode us (.exprs items) vs)
    (closed : vs = ⟨.punctuation .rbracket, t⟩ :: ws) :
    Derives mode ts (.expr (.list (s.merge t) items)) ws
  | function {ts us vs ws xs ys : List Token} {s t a : Span} {params : List Name} {e : Expr}
    (opened : ts = ⟨.punctuation .lbracket, s⟩ :: us) (names : Names us params vs)
    (arrow : vs = ⟨.punctuation .arrow, a⟩ :: ws) (value : Derives mode ws (.expr e) xs)
    (closed : xs = ⟨.punctuation .rbracket, t⟩ :: ys) :
    Derives mode ts (.expr (.function (s.merge t) params e)) ys
  | pipeline {ts us vs ws : List Token} {seed : Expr} {inBlock : Bool} {gs : List Stage} {last : Stage}
    (source : Derives mode ts (.expr seed) us) (stages : Derives mode us (.stages inBlock gs) vs)
    (final : gs.getLast? = some last) (closing : Closing inBlock vs ws) :
    Derives mode ts (.expr (.pipeline (seed.span.merge last.span) seed gs)) ws
  | letIn {ts us vs ws xs ys zs as : List Token} {s t : Span} {b c d : Bool} {bs : List Binding}
    {e : Expr} (start : ts = ⟨.keyword .let_, s⟩ :: us) (bindings : Derives mode us (.bindings b bs) vs)
    (tail : Tail b vs c ws) (ahead : Ahead c ws d xs) (keyword : xs = ⟨.keyword .in_, t⟩ :: ys)
    (value : Derives mode ys (.body e) zs) (closing : Closing d zs as) :
    Derives mode ts (.expr (.letIn (s.merge e.span) bs e)) as
  | ifElse {ts us vs ws xs ys zs as : List Token} {s t : Span} {b c d : Bool} {first : Branch}
    {others : List Branch} {e : Expr} (start : ts = ⟨.keyword .if_, s⟩ :: us)
    (head : Derives mode us (.arm false b first) vs) (tail : Derives mode vs (.arms b c others) ws)
    (ahead : Ahead c ws d xs) (keyword : xs = ⟨.keyword .else_, t⟩ :: ys)
    (value : Derives mode ys (.body e) zs) (closing : Closing d zs as) :
    Derives mode ts (.expr (.ifElse (s.merge e.span) (first :: others) e)) as
  | matchOn {ts us vs ws xs : List Token} {s : Span} {b : Bool} {e : Expr} {cs : List Clause}
    {last : Clause} (start : ts = ⟨.keyword .match_, s⟩ :: us) (subject : Derives mode us (.expr e) vs)
    (clauses : Derives mode vs (.clauses b cs) ws) (final : cs.getLast? = some last)
    (closing : Closing b ws xs) : Derives mode ts (.expr (.matchOn (s.merge last.span) e cs)) xs
  | tryCatch {ts us vs ws xs : List Token} {s : Span} {b : Bool} {e : Expr} {cs : List Catch}
    {last : Catch} (start : ts = ⟨.keyword .try_, s⟩ :: us) (value : Derives mode us (.body e) vs)
    (catches : Derives mode vs (.catches b cs) ws) (final : cs.getLast? = some last)
    (closing : Closing b ws xs) : Derives mode ts (.expr (.tryCatch (s.merge last.span) e cs)) xs
  | inline {ts us : List Token} {e : Expr} (value : Derives mode ts (.expr e) us) :
    Derives mode ts (.body e) us
  | indented {ts us vs ws : List Token} {e : Expr} (turn : Turn false ts us)
    (value : Derives mode us (.expr e) vs) (closing : Closing true vs ws) :
    Derives mode ts (.body e) ws
  | noExprs {ts : List Token} : Derives mode ts (.exprs []) ts
  | exprs {ts us vs : List Token} {es : List Expr} {e : Expr} (before : Derives mode ts (.exprs es) us)
    (next : Derives mode us (.expr e) vs) : Derives mode ts (.exprs (es ++ [e])) vs
  | noFields {ts : List Token} : Derives mode ts (.fields []) ts
  | fields {ts us vs ws xs : List Token} {s : Span} {fields : List Binding} {key : Name} {e : Expr}
    (before : Derives mode ts (.fields fields) us) (name : us = key.token :: vs)
    (colon : vs = ⟨.punctuation .colon, s⟩ :: ws) (value : Derives mode ws (.expr e) xs) :
    Derives mode ts (.fields (fields ++ [⟨key, e⟩])) xs
  | binding {ts us vs ws xs : List Token} {s : Span} {n : Name} {params : List Name} {e : Expr}
    (name : ts = n.token :: us) (names : Names us params vs)
    (equals : vs = ⟨.operator .eq, s⟩ :: ws) (value : Derives mode ws (.body e) xs) :
    Derives mode ts (.binding ⟨n, definedValue params e⟩) xs
  | firstBinding {ts us vs : List Token} {inBlock : Bool} {b : Binding} (opening : Opening inBlock ts us)
    (first : Derives mode us (.binding b) vs) : Derives mode ts (.bindings inBlock [b]) vs
  | bindings {ts us vs ws : List Token} {inBlock : Bool} {bs : List Binding} {b : Binding}
    (before : Derives mode ts (.bindings inBlock bs) us) (between : Between inBlock us vs)
    (next : Derives mode vs (.binding b) ws) : Derives mode ts (.bindings inBlock (bs ++ [b])) ws
  | stage {ts us vs : List Token} {head : Expr} {args : List Expr}
    (callee : Derives mode ts (.expr head) us) (arguments : Derives mode us (.exprs args) vs) :
    Derives mode ts (.stage (stageOf head args)) vs
  | noStages {ts : List Token} : Derives mode ts (.stages false []) ts
  | piped {ts us vs ws : List Token} {s : Span} {inBlock : Bool} {gs : List Stage} {g : Stage}
    (before : Derives mode ts (.stages inBlock gs) us) (pipe : us = ⟨.punctuation .pipe, s⟩ :: vs)
    (next : Derives mode vs (.stage g) ws) : Derives mode ts (.stages inBlock (gs ++ [g])) ws
  | stageLine {ts us vs ws : List Token} {inBlock : Bool} {gs : List Stage} {g : Stage}
    (before : Derives mode ts (.stages inBlock gs) us) (turn : Turn inBlock us vs)
    (next : Derives mode vs (.stage g) ws) : Derives mode ts (.stages true (gs ++ [g])) ws
  | arm {ts us vs ws xs : List Token} {s : Span} {b c : Bool} {condition result : Expr}
    (test : Derives mode ts (.expr condition) us) (ahead : Ahead b us c vs)
    (keyword : vs = ⟨.keyword .then_, s⟩ :: ws) (value : Derives mode ws (.body result) xs) :
    Derives mode ts (.arm b c ⟨condition, result⟩) xs
  | noArms {ts : List Token} {b : Bool} : Derives mode ts (.arms b b []) ts
  | arms {ts us vs ws xs : List Token} {s : Span} {b c d e : Bool} {bs : List Branch} {branch : Branch}
    (before : Derives mode ts (.arms b c bs) us) (ahead : Ahead c us d vs)
    (keyword : vs = ⟨.keyword .elif_, s⟩ :: ws) (next : Derives mode ws (.arm d e branch) xs) :
    Derives mode ts (.arms b e (bs ++ [branch])) xs
  | noGuard {ts : List Token} : Derives mode ts (.guard none) ts
  | guard {ts us vs : List Token} {s : Span} {e : Expr} (keyword : ts = ⟨.keyword .when_, s⟩ :: us)
    (value : Derives mode us (.expr e) vs) : Derives mode ts (.guard (some e)) vs
  | noClauses {ts : List Token} : Derives mode ts (.clauses false []) ts
  | clauses {ts us vs ws xs ys zs as : List Token} {s t : Span} {b c : Bool} {cs : List Clause}
    {p : Pattern} {g : Option Expr} {e : Expr} (before : Derives mode ts (.clauses b cs) us)
    (ahead : Ahead b us c vs) (bar : vs = ⟨.punctuation .bar, s⟩ :: ws) (pattern : Patterned ws p xs)
    (guard : Derives mode xs (.guard g) ys) (arrow : ys = ⟨.punctuation .arrow, t⟩ :: zs)
    (value : Derives mode zs (.body e) as) :
    Derives mode ts (.clauses c (cs ++ [⟨s.merge e.span, p, g, e⟩])) as
  | noCatches {ts : List Token} : Derives mode ts (.catches false []) ts
  | catches {ts us vs ws xs ys zs : List Token} {s t : Span} {b c : Bool} {cs : List Catch}
    {tag bound : Option Name} {e : Expr} (before : Derives mode ts (.catches b cs) us)
    (ahead : Ahead b us c vs) (keyword : vs = ⟨.keyword .catch_, s⟩ :: ws)
    (caught : Caught ws tag bound xs) (arrow : xs = ⟨.punctuation .arrow, t⟩ :: ys)
    (value : Derives mode ys (.body e) zs) :
    Derives mode ts (.catches c (cs ++ [⟨s.merge e.span, tag, bound, e⟩])) zs
  | noSegments {ts : List Token} : Derives mode ts (.segments [] []) ts
  | literal {ts : List Token} {text : String} {parts : List StringPart} {found : List Segment}
    (rest : Derives mode ts (.segments parts found) ts) :
    Derives mode ts (.segments (.literal text :: parts) (.literal text :: found)) ts
  | hole {ts us : List Token} {last : Token} {s : Span} {parts : List StringPart}
    {found : List Segment} {e : Expr} (inside : Derives mode us (.expr e) [last])
    (ended : last.kind = .eof) (rest : Derives mode ts (.segments parts found) ts) :
    Derives mode ts (.segments (.hole us s :: parts) (.hole e :: found)) ts
  /-- An interpolation that cannot be read leaves a marker, unless that is an error. -/
  | marker {ts us : List Token} {s : Span} {parts : List StringPart} {found : List Segment}
    (lenient : mode = .bestEffort) (rest : Derives mode ts (.segments parts found) ts) :
    Derives mode ts (.segments (.hole us s :: parts) (.hole (.error s) :: found)) ts

/-! ## Programs -/

inductive Stated (mode : ParseMode) : List Token → Statement → List Token → Prop
  | assign {ts us : List Token} {n : Name} {e : Expr} (definition : Derives mode ts (.binding ⟨n, e⟩) us) :
    Stated mode ts (.assign (n.span.merge e.span) n e) us
  | expr {ts us : List Token} {e : Expr} (value : Derives mode ts (.expr e) us) :
    Stated mode ts (.expr e.span e) us

/-- Statements with the ends of lines between them. -/
inductive Listed (mode : ParseMode) : List Token → List Statement → List Token → Prop
  | nil {ts : List Token} : Listed mode ts [] ts
  | line {ts us vs : List Token} {s : Span} {found : List Statement} (newline : ts = ⟨.newline, s⟩ :: us)
    (rest : Listed mode us found vs) : Listed mode ts found vs
  | statement {ts us vs : List Token} {s : Statement} {found : List Statement}
    (first : Stated mode ts s us) (rest : Listed mode us found vs) : Listed mode ts (s :: found) vs
  /-- What cannot be read up to the next statement leaves a marker, unless that is an error. -/
  | marker {ts us vs : List Token} {skipped : List Token} {first last : Token} {found : List Statement}
    (lenient : mode = .bestEffort) (tokens : ts = skipped ++ us) (start : skipped.head? = some first)
    (content : first.kind ≠ .newline ∧ first.kind ≠ .dedent ∧ first.kind ≠ .eof)
    (final : skipped.getLast? = some last) (rest : Listed mode us found vs) :
    Listed mode ts (.error (first.span.merge last.span) :: found) vs

end Grammar

end PipeLang
