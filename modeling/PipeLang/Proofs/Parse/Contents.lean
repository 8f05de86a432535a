import PipeLang.Proofs.Format.Opens
import PipeLang.Proofs.Parse.DerivedProgram
import PipeLang.Proofs.Parse.FormedProgram
import PipeLang.Proofs.Tree.Contents

/-! No rule of the parser loses a token that says something, or takes one twice. What a text says token by
token, its tree says in source order. -/

namespace PipeLang

/-- Names, numbers, strings and operators, the word operators included. -/
def TokenKind.isContent (k : TokenKind) : Bool :=
  k.isIdent || k.isNumber || k.isText || k.binary?.isSome

theorem TokenKind.isContent_of_spacing {k : TokenKind}
    (h : k.isLayout = true ∨ k = .punctuation .semicolon) : k.isContent = false := by
  obtain hlayout | rfl := h
  · cases k <;> first | rfl | cases hlayout
  · rfl

/-- What tokens say. A sign that touches a number may belong to it; a key that is followed by a colon and
itself may be one of a record pattern; the equality sign after a name and parameters may define the name.
Anything else that is content stands for itself, a string part by part. -/
inductive Reading : List Token → List Item → Prop
  | nil : Reading [] []
  | name {us : List Token} {is : List Item} {s : Span} {name : String} (rest : Reading us is) :
    Reading (⟨.ident name, s⟩ :: us) (.name name :: is)
  | ownKey {us : List Token} {is : List Item} {s : Span} {key : String} (rest : Reading us is) :
    Reading (⟨.ident key, s⟩ :: us) (.ownKey key :: is)
  | ownUse {us : List Token} {is : List Item} {s t u : Span} {key : String} (rest : Reading us is) :
    Reading (⟨.ident key, s⟩ :: ⟨.punctuation .colon, t⟩ :: ⟨.ident key, u⟩ :: us) (.ownKey key :: is)
  | definition {us : List Token} {is : List Item} {s : Span} {n : Name} {params : List Name}
    (rest : Reading us is) :
    Reading (n.token :: (params.map Name.token ++ ⟨.operator .eq, s⟩ :: us))
      (n.item :: .defined :: (params.map Name.item ++ is))
  | number {us : List Token} {is : List Item} {s : Span} {v : Number} (rest : Reading us is) :
    Reading (⟨.number v, s⟩ :: us) (.number v :: is)
  | negative {us : List Token} {is : List Item} {s t : Span} {v : Number} (touch : s.stop = t.start)
    (rest : Reading us is) :
    Reading (⟨.operator .minus, s⟩ :: ⟨.number v, t⟩ :: us) (.number v.neg :: is)
  | noParts {us : List Token} {is : List Item} {s : Span} (rest : Reading us is) :
    Reading (⟨.text [], s⟩ :: us) is
  | literal {us : List Token} {is : List Item} {s : Span} {text : String} {parts : List StringPart}
    (rest : Reading (⟨.text parts, s⟩ :: us) is) :
    Reading (⟨.text (.literal text :: parts), s⟩ :: us) (.literal text :: is)
  | hole {us inner : List Token} {is js : List Item} {s t : Span} {parts : List StringPart}
    (inside : Reading inner js) (rest : Reading (⟨.text parts, s⟩ :: us) is) :
    Reading (⟨.text (.hole inner t :: parts), s⟩ :: us) (js ++ is)
  | operator {us : List Token} {is : List Item} {t : Token} {op : Operator}
    (kind : t.kind.binary? = some op) (rest : Reading us is) : Reading (t :: us) (.operator op :: is)
  | other {us : List Token} {is : List Item} {t : Token} (kind : t.kind.isContent = false)
    (rest : Reading us is) : Reading (t :: us) is

/-- The tokens of `ts` that come before `us` say `items`. -/
def Says (ts us : List Token) (items : List Item) : Prop :=
  ∀ is, Reading us is → Reading ts (items ++ is)

namespace Says

variable {ts us vs : List Token} {is js : List Item}

theorem refl : Says ts ts [] := fun _ h => h

theorem trans (h : Says ts us is) (h' : Says us vs js) : Says ts vs (is ++ js) := by
  intro rest hrest
  rw [List.append_assoc]
  exact h _ (h' _ hrest)

theorem eq (h : Says ts us is) (his : is = js) : Says ts us js := his ▸ h

/-- A token that says nothing, before others or after them. -/
theorem after {t : Token} (ht : ts = t :: us) (hk : t.kind.isContent = false) (h : Says us vs is) :
    Says ts vs is :=
  fun _ hrest => ht ▸ .other hk (h _ hrest)

theorem before {t : Token} (h : Says ts us is) (ht : us = t :: vs) (hk : t.kind.isContent = false) :
    Says ts vs is :=
  fun _ hrest => h _ (ht ▸ .other hk hrest)

theorem silent {t : Token} (ht : ts = t :: us) (hk : t.kind.isContent = false) : Says ts us [] :=
  refl.before ht hk

theorem name {n : Name} (h : ts = n.token :: us) : Says ts us [n.item] := fun _ hrest => h ▸ .name hrest

end Says

namespace Grammar

variable {mode : ParseMode} {ts us : List Token}

theorem Names.eq_append {names : List Name} (h : Names ts names us) : ts = names.map Name.token ++ us := by
  induction h with
  | nil => rfl
  | cons name _ ih => rw [name, ih]; rfl

theorem Names.said {names : List Name} (h : Names ts names us) : Says ts us (names.map Name.item) := by
  induction h with
  | nil => exact .refl
  | cons name _ ih => exact (Says.name name).trans ih

theorem Path.said {path : List Name} (h : Path ts path us) : Says ts us (path.map Name.item) := by
  induction h with
  | nil => exact .refl
  | cons dot name _ ih => exact .after dot rfl ((Says.name name).trans ih)

theorem Skips.said (h : Skips ts us) : Says ts us [] := by
  induction h with
  | refl => exact .refl
  | token first spacing _ ih => exact .after first (TokenKind.isContent_of_spacing spacing) ih

theorem Constant.said {v : Literal} {s : Span} (h : Constant ts v s us) : Says ts us v.contents := by
  cases h with
  | number token => exact fun _ hrest => token ▸ .number hrest
  | negative minus number touch => exact fun _ hrest => minus ▸ number ▸ .negative touch hrest
  | empty token => exact fun _ hrest => token ▸ .noParts hrest
  | text token nonempty =>
    intro is hrest
    rw [token, Literal.contents, if_neg nonempty]
    exact .literal (.noParts hrest)
  | yes token | no token | nil token => exact .silent token rfl

theorem PatternFields.said {fields : List PatternField} (h : PatternFields ts fields us) :
    Says ts us (fields.flatMap PatternField.contents) := by
  induction h with
  | nil => exact .refl
  | key _ name ih =>
    rw [List.flatMap_append]
    refine ih.trans fun is hrest => ?_
    rw [name]
    simp only [List.flatMap_singleton, PatternField.contents, if_true]
    exact .ownKey hrest
  | use _ name colon used ih =>
    rw [List.flatMap_append]
    refine ih.trans fun is hrest => ?_
    rw [name, colon, List.flatMap_singleton]
    cases used with
    | bind token =>
      rw [token]
      simp only [PatternField.contents]
      split
      · next hkey =>
        rw [hkey]
        exact .ownUse hrest
      · exact .name (.other rfl (.name hrest))
    | ignore token =>
      rw [token]
      exact .name (.other rfl (.other rfl hrest))
    | compare constant => exact .name (.other rfl (constant.said is hrest))

theorem Patterned.said {p : Pattern} (h : Patterned ts p us) : Says ts us p.contents := by
  cases h with
  | bind token => exact fun _ hrest => token ▸ .name hrest
  | wildcard token | otherwise token => exact .silent token rfl
  | literal constant => exact constant.said
  | record opened inside closed => exact .after opened rfl (inside.said.before closed rfl)

theorem Caught.said {tag bound : Option Name} (h : Caught ts tag bound us) :
    Says ts us (tag.toList.map Name.item ++ bound.toList.map Name.item) := by
  cases h with
  | tag name | binding name => exact .name name
  | both tag name => exact (Says.name tag).trans (.name name)

def Phrase.contents : Phrase → List Item
  | .expr e | .body e => e.contents
  | .exprs es => exprContents es
  | .fields bs => fieldContents bs
  | .binding b => definitionContents [b]
  | .bindings _ bs => definitionContents bs
  | .stage g => stageContents [g]
  | .stages _ gs => stageContents gs
  | .arm _ _ b => branchContents [b]
  | .arms _ _ bs => branchContents bs
  | .guard g => (g.map Expr.contents).getD []
  | .clauses _ cs => clauseContents cs
  | .catches _ cs => catchContents cs
  | .segments _ found => segmentContents found

/-- The tokens of a phrase say what is in it; the parts of a string do so in a string token. -/
def Phrase.Said (ts us : List Token) : Phrase → Prop
  | .segments parts found => ∀ s vs, Says (⟨.text parts, s⟩ :: vs) vs (segmentContents found)
  | p => Says ts us p.contents

/-- A name that is read as an expression is no operator's. -/
theorem Derives.not_operator {p : Phrase} (h : Derives mode ts p us) :
    ∀ s name, p = .expr (.ident s name) → Operator.ofSpelling? name = none := by
  induction h with
  | ident token word =>
    rintro s name ⟨⟩
    exact ofSpelling?_of_isIdentifier word
  | @parentheses _ _ _ _ _ _ e opened _ closed ih =>
    intro s name he
    cases e with
    | ident t name' => exact ih t name (by cases he; rfl)
    | _ => cases he
  | _ => intro s name he; cases he

theorem contents_stageOf (head : Expr) (args : List Expr) :
    stageContents [Parse.stageOf head args] = head.contents ++ exprContents args := by
  unfold Parse.stageOf
  dsimp only
  split <;> simp [stageContents, exprContents, Expr.contents]

theorem contents_definedValue (params : List Name) (e : Expr) :
    (Parse.definedValue params e).contents = params.map Name.item ++ e.contents := by
  cases params <;> rfl

theorem contents_binary (op : Operator) (s : Span) (l r : Expr) :
    (Parse.binary op s l r).contents = l.contents ++ .operator op :: r.contents := by
  simp [Parse.binary, Expr.contents, Operator.ofSpelling?_spelling]

theorem Derives.said {p : Phrase} (hmode : mode = .strict) (h : Derives mode ts p us) : p.Said ts us := by
  induction h with
  | ident token => exact fun _ hrest => token ▸ .name hrest
  | number token => exact fun _ hrest => token ▸ .number hrest
  | negative minus number touch => exact fun _ hrest => minus ▸ number ▸ .negative touch hrest
  | text token _ inside =>
    rw [token]
    exact inside _ _
  | yes token | no token | nil token => exact .silent token rfl
  | wildcard token fields =>
    refine Says.eq (.after token rfl fields.said) ?_
    rw [Phrase.contents, Expr.contents, List.map_map]
    rfl
  | access _ dot name target => exact (Says.before target dot rfl).trans (.name name)
  | apply callee _ _ hcallee arguments =>
    exact (Says.trans hcallee arguments).eq (Expr.contents_apply (fun s name he =>
      callee.not_operator s name (congrArg Phrase.expr he)) _ _).symm
  | @binary _ us _ vs t op l r _ token operator _ left right =>
    have hright : Says us vs (.operator op :: r.contents) := fun is hrest => by
      rw [token]
      exact .operator operator (right is hrest)
    exact (Says.trans left hright).eq (contents_binary op t.span l r).symm
  | parentheses opened _ closed inside =>
    exact (Says.after opened rfl (Says.before inside closed rfl)).eq (Expr.contents_withSpan _ _).symm
  | record opened _ closed inside | list opened _ closed inside =>
    exact .after opened rfl (Says.before inside closed rfl)
  | function opened names arrow _ closed value =>
    exact .after opened rfl ((names.said.before arrow rfl).trans (Says.before value closed rfl))
  | pipeline _ _ _ closing source stages =>
    exact ((Says.trans source stages).trans closing.skips.said).eq (List.append_nil _)
  | letIn start _ tail ahead keyword _ closing bindings value =>
    have hbindings := ((Says.trans bindings tail.skips.said).trans ahead.skips.said).before keyword rfl
    refine Says.eq (.after start rfl (hbindings.trans (Says.trans value closing.skips.said))) ?_
    simp [Phrase.contents, Expr.contents]
  | ifElse start _ _ ahead keyword _ closing head tail value =>
    have hbranches := ((Says.trans head tail).trans ahead.skips.said).before keyword rfl
    refine Says.eq (.after start rfl (hbranches.trans (Says.trans value closing.skips.said))) ?_
    rw [List.append_nil, List.append_nil]
    simp only [Phrase.contents, Expr.contents, ← branchContents_append, List.singleton_append]
  | matchOn start _ _ _ closing subject clauses =>
    have hclauses := (Says.trans subject clauses).trans closing.skips.said
    exact (Says.after start rfl hclauses).eq (List.append_nil _)
  | tryCatch start _ _ _ closing value catches =>
    have hcatches := (Says.trans value catches).trans closing.skips.said
    exact (Says.after start rfl hcatches).eq (List.append_nil _)
  | inline _ value => exact value
  | indented turn _ closing value =>
    exact ((turn.skips.said.trans value).trans closing.skips.said).eq (List.append_nil _)
  | noExprs | noFields | noStages | noArms | noGuard | noClauses | noCatches => exact .refl
  | exprs _ _ before next =>
    refine (Says.trans before next).eq ?_
    simp [Phrase.contents, exprContents_append, exprContents]
  | fields _ name colon _ before value =>
    refine (Says.trans before (.trans (.before (.name name) colon rfl) value)).eq ?_
    simp [Phrase.contents, fieldContents_append, fieldContents]
  | @binding _ _ _ _ _ _ n params e name names equals _ value =>
    intro is hrest
    have hitems : (Phrase.binding ⟨n, Parse.definedValue params e⟩).contents ++ is =
        n.item :: .defined :: (params.map Name.item ++ (e.contents ++ is)) := by
      simp [Phrase.contents, definitionContents, contents_definedValue]
    rw [hitems, name, names.eq_append, equals]
    exact .definition (value is hrest)
  | firstBinding opening _ first => exact opening.skips.said.trans first
  | bindings _ between _ before next =>
    refine ((Says.trans before between.skips.said).trans next).eq ?_
    simp [Phrase.contents, definitionContents_append]
  | stage _ _ callee arguments => exact (Says.trans callee arguments).eq (contents_stageOf _ _).symm
  | piped _ pipe _ before next =>
    refine ((Says.before before pipe rfl).trans next).eq ?_
    simp [Phrase.contents, stageContents_append]
  | stageLine _ turn _ before next =>
    refine ((Says.trans before turn.skips.said).trans next).eq ?_
    simp [Phrase.contents, stageContents_append]
  | arm _ ahead keyword _ test value =>
    refine (((Says.trans test ahead.skips.said).before keyword rfl).trans value).eq ?_
    simp [Phrase.contents, branchContents]
  | arms _ ahead keyword _ before next =>
    refine (((Says.trans before ahead.skips.said).before keyword rfl).trans next).eq ?_
    simp [Phrase.contents, branchContents_append]
  | guard keyword _ value => exact .after keyword rfl value
  | @clauses _ _ _ _ _ _ _ _ _ _ _ _ _ _ g _ _ ahead bar pattern _ arrow _ before guard value =>
    have hopened := ((Says.trans before ahead.skips.said).before bar rfl).trans pattern.said
    refine (((hopened.trans guard).before arrow rfl).trans value).eq ?_
    cases g <;> simp [Phrase.contents, clauseContents_append, clauseContents]
  | catches _ ahead keyword caught arrow _ before value =>
    have hopened := ((Says.trans before ahead.skips.said).before keyword rfl).trans caught.said
    refine ((hopened.before arrow rfl).trans value).eq ?_
    simp [Phrase.contents, catchContents_append, catchContents]
  | noSegments => exact fun _ _ _ hrest => .noParts hrest
  | literal _ rest => exact fun s vs is hrest => .literal (rest s vs is hrest)
  | @hole _ us last t parts found e _ ended _ inside rest =>
    intro s vs is hrest
    have hinside : Reading us e.contents := by
      have hlast := inside [] (.other (by rw [ended]; rfl) .nil)
      rwa [List.append_nil] at hlast
    rw [segmentContents, List.append_assoc]
    exact .hole hinside (rest s vs is hrest)
  | marker lenient => rw [hmode] at lenient; cases lenient

theorem Stated.said {s : Statement} (hmode : mode = .strict) (h : Stated mode ts s us) :
    Says ts us s.contents := by
  cases h with
  | assign definition =>
    refine Says.eq (definition.said hmode) ?_
    simp [Phrase.contents, definitionContents, Statement.contents]
  | expr value => exact value.said hmode

theorem Listed.said {found : List Statement} (hmode : mode = .strict) (h : Listed mode ts found us) :
    Says ts us (found.flatMap Statement.contents) := by
  induction h with
  | nil => exact .refl
  | line newline _ ih => exact .after newline rfl ih
  | statement first _ ih => exact ((first.said hmode).trans ih).eq List.flatMap_cons.symm
  | marker lenient => rw [hmode] at lenient; cases lenient

end Grammar

/-- The items of a program that strict parsing gives are, one for one and in order, what the tokens of its
text say, those of interpolations in place. -/
theorem reading_of_parse {source : String} {tokens : List Token} {o : ParseOptions} {p : Program}
    (hlex : Scan.lex source = .ok tokens) (hmode : o.mode = .strict) (hpipes : o.resolvePipelines = false)
    (hparse : parse o tokens = .ok p) : Reading tokens p.contents := by
  obtain ⟨hquiet, -, rfl⟩ := parse_eq_ok.mp hparse
  obtain ⟨herrors, rfl⟩ := Scan.lex_eq_ok.mp hlex
  obtain ⟨last, heof, hlisted⟩ := Parse.listed_of_run (Scan.regular_scan herrors) (.inr hquiet)
  have hsaid := hlisted.said hmode [] (.other (by rw [heof]; rfl) .nil)
  rw [List.append_nil] at hsaid
  simpa [Program.desugar, hpipes, Program.contents] using hsaid

/-- A definition with a parameter, a negative number, an interpolation and both spellings of a field that is
bound to its own name. -/
theorem reading_of_parse_record :
    let source := "f x = x - 1 |> g -2 \"a\x7bx = y\x7d\"\nmatch r | \x7ba: a b\x7d -> _.c\n"
    let items := [.name "f", .defined, .name "x", .name "x", .operator .minus,
      .number (.ofLiteral ['1'] []), .name "g", .number (Number.ofLiteral ['2'] []).neg, .literal "a",
      .name "x", .operator .eq, .name "y", .name "r", .ownKey "a", .ownKey "b", .name "c"]
    ∃ tokens p, Scan.lex source = .ok tokens ∧ parse {} tokens = .ok p ∧ p.contents = items ∧
      Reading tokens p.contents := by
  intro source items
  obtain ⟨tokens, p, hlex, hparse, hitems⟩ := exists_of_read (f := Program.contents)
    (show (Scan.lex source).toOption.bind (fun tokens =>
      (parse {} tokens).toOption.map Program.contents) = some items by decide +kernel)
  exact ⟨tokens, p, hlex, hparse, hitems, reading_of_parse hlex rfl rfl hparse⟩

end PipeLang
