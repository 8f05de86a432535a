import PipeLang.Proofs.Dump.Tree
import PipeLang.Proofs.Format.RoundTrip
import PipeLang.Proofs.Parse.WellFormed

/-! The dump of a program that was read from a text determines the program but for its spans, if no
expression in it reads like another form. -/

namespace PipeLang

/-! ## Names -/

namespace Expr

/-- Every name in a well formed tree is a name of the language, or the spelling of an operator. -/
theorem Formed.named {n : Nat} {e : Expr} (h : e.Formed n) : ∀ x ∈ e.nodes, x.Named := by
  refine h.forall_nodes (fun he => ?_) fun t op => .inr ?_
  · cases he with
    | ident name_ok => exact .inl name_ok
    | wildcard path_ok => exact path_ok
    | text literals apart room holes => exact literals
    | record keys values => exact keys
    | function some_param params_ok body_ok => exact params_ok
    | access target_ok field_ok => exact field_ok
    | letIn some_binding names values body_ok => exact names
    | matchOn subject_ok some_clause patterns guards results => exact patterns
    | tryCatch body_ok some_catch named handlers => exact named
    | _ => trivial
  · rw [Operator.isName, Operator.ofSpelling?_spelling]
    rfl

theorem Named.resolve {e : Expr} (hform : ∀ s seed stages, e ≠ .pipeline s seed stages) (h : e.Named) :
    e.resolve.Named := by
  have hbindings : ∀ {bindings : List Binding}, (∀ b ∈ bindings, isIdentifier b.name.text = true) →
      ∀ b ∈ bindings.map Binding.resolve, isIdentifier b.name.text = true := by
    intro bindings hnames b hb
    obtain ⟨c, hc, rfl⟩ := List.mem_map.mp hb
    exact hnames c hc
  cases e with
  | pipeline s seed stages => exact absurd rfl (hform s seed stages)
  | text s segments =>
    rw [Expr.resolve, resolveSegments_eq_map]
    intro t ht
    obtain ⟨g, hg, hresolve⟩ := List.mem_map.mp ht
    cases g with
    | literal u =>
      cases hresolve
      exact h t hg
    | hole e => cases hresolve
  | record s fields =>
    rw [Expr.resolve, resolveBindings_eq_map]
    exact hbindings h
  | letIn s bindings body =>
    rw [Expr.resolve, resolveBindings_eq_map]
    exact hbindings h
  | matchOn s subject clauses =>
    rw [Expr.resolve, resolveClauses_eq_map]
    intro c hc
    obtain ⟨d, hd, rfl⟩ := List.mem_map.mp hc
    exact h d hd
  | tryCatch s body catches =>
    rw [Expr.resolve, resolveCatches_eq_map]
    intro c hc
    obtain ⟨d, hd, rfl⟩ := List.mem_map.mp hc
    exact ⟨(h d hd).some_name, (h d hd).tag, (h d hd).binding⟩
  | _ => exact h

/-- A name that is given a value with the operator for equality. -/
def isDefinition : Expr → Bool
  | apply _ (ident _ "=") [ident _ _, _] => true
  | _ => false

end Expr

/-! ## Statements -/

namespace Statement

def Named : Statement → Prop
  | assign _ name value => isIdentifier name.text = true ∧ ∀ x ∈ value.nodes, x.Named
  | expr _ value => ∀ x ∈ value.nodes, x.Named
  | error _ => False

/-- The statement is no expression that reads like a definition. -/
def isUnambiguous : Statement → Bool
  | expr _ value => !value.isDefinition
  | _ => true

theorem Formed.named {n : Nat} {s : Statement} (h : s.Formed n) : s.Named := by
  cases s with
  | assign t name value => exact ⟨h.1, h.2.named⟩
  | expr t value => exact Expr.Formed.named h
  | error t => exact h

theorem Named.resolve {s : Statement} (h : s.Named) : (s.mapValue Expr.resolve).Named := by
  have hresolve : ∀ {e : Expr}, (∀ x ∈ e.nodes, x.Named) → ∀ x ∈ e.resolve.nodes, x.Named :=
    fun hnamed => Expr.forall_nodes_resolve (fun _ _ _ => trivial) fun x hx hform =>
      Expr.Named.resolve hform (hnamed x hx)
  cases s with
  | assign t name value => exact ⟨h.1, hresolve h.2⟩
  | expr t value => exact hresolve h
  | error t => exact h

/-- The statement can be told from all others by its dump. -/
structure Legible (s : Statement) : Prop where
  named : s.Named
  value : ∀ e, s.value? = some e → e.Legible
  unambiguous : s.isUnambiguous = true

variable {s t : Statement}

theorem sexp_clean (h : s.Legible) : s.sexp.Clean := by
  cases s with
  | assign u name value =>
    exact .tagged (by decide) (by decide)
      (Sexp.clean_pair (.name h.named.1) (Expr.sexp_clean (h.value value rfl)))
  | expr u value => exact Expr.sexp_clean (h.value value rfl)
  | error u => exact absurd h.named id

/-- An expression with the dump of a definition is one that reads like it. -/
theorem isDefinition_of_sexp_eq {u : Span} {name : Name} {value e : Expr}
    (hname : isIdentifier name.text = true) (he : e.Legible) (h : (assign u name value).sexp = e.sexp) :
    e.isDefinition = true := by
  have hident : ∀ {f : Expr} {text : String}, f.Legible → f.sexp = .atom text →
      atomShape text = .ident → ∃ v, f = .ident v text := by
    intro f text hf hsexp hident
    have hshape := Expr.shape_sexp hf
    rw [hsexp, Sexp.shape, hident] at hshape
    cases f with
    | ident v other => exact ⟨v, by rw [Sexp.atom.inj hsexp]⟩
    | _ => cases hshape
  have hshape : e.shape = .apply := by rw [← Expr.shape_sexp he, ← h]; rfl
  cases e with
  | apply v callee args =>
    rw [Expr.sexp, exprSexps_eq_map] at h
    obtain ⟨hcallee, hargs⟩ := List.cons.inj (Sexp.list.inj h)
    obtain ⟨w, rfl⟩ := hident (he.child List.mem_cons_self) hcallee.symm (by decide)
    obtain ⟨first, rest, rfl, hfirst, hrest⟩ := List.map_eq_cons_iff.mp hargs.symm
    obtain ⟨second, more, rfl, -, hmore⟩ := List.map_eq_cons_iff.mp hrest
    obtain rfl := List.map_eq_nil_iff.mp hmore
    obtain ⟨x, rfl⟩ := hident (he.child (List.mem_cons_of_mem _ List.mem_cons_self)) hfirst
      (atomShape_identifier hname)
    rfl
  | _ => cases hshape

theorem erase_eq_of_sexp_eq (hs : s.Legible) (ht : t.Legible) (h : s.sexp = t.sexp) :
    s.erase = t.erase := by
  cases s with
  | assign u name value =>
    cases t with
    | assign v other value' =>
      obtain ⟨hname, hrest⟩ := List.cons.inj (List.cons.inj (Sexp.list.inj h)).2
      have hvalue := Expr.settles_of_legible (hs.value value rfl) value' (ht.value value' rfl)
        (List.cons.inj hrest).1
      exact congrArg₂ (assign .origin) (Name.erase_eq_of_sexp_eq hname) hvalue
    | expr v value' =>
      have hdefinition := isDefinition_of_sexp_eq hs.named.1 (ht.value value' rfl) h
      have hnot := ht.unambiguous
      rw [isUnambiguous, hdefinition] at hnot
      cases hnot
    | error v => exact absurd ht.named id
  | expr u value =>
    cases t with
    | assign v other value' =>
      have hdefinition := isDefinition_of_sexp_eq ht.named.1 (hs.value value rfl) h.symm
      have hnot := hs.unambiguous
      rw [isUnambiguous, hdefinition] at hnot
      cases hnot
    | expr v value' =>
      exact congrArg (expr .origin)
        (Expr.settles_of_legible (hs.value value rfl) value' (ht.value value' rfl) h)
    | error v => exact absurd ht.named id
  | error u => exact absurd hs.named id

end Statement

/-! ## Programs -/

namespace Program

/-- No expression in the program reads like another form, and no statement like a definition. -/
structure Unambiguous (p : Program) : Prop where
  statements : ∀ s ∈ p.statements, s.isUnambiguous = true
  nodes : ∀ e ∈ p.nodes, e.isUnambiguous = true
  numbers : ∀ x ∈ p.numbers, x.isFinite = true

instance (p : Program) : Decidable p.Unambiguous :=
  decidable_of_iff ((∀ s ∈ p.statements, s.isUnambiguous = true) ∧
    (∀ e ∈ p.nodes, e.isUnambiguous = true) ∧ ∀ x ∈ p.numbers, x.isFinite = true)
    ⟨fun h => ⟨h.1, h.2.1, h.2.2⟩, fun h => ⟨h.statements, h.nodes, h.numbers⟩⟩

variable {p q : Program}

theorem Unambiguous.legible (h : p.Unambiguous) (hnamed : ∀ s ∈ p.statements, s.Named) :
    ∀ s ∈ p.statements, s.Legible := by
  intro s hs
  refine ⟨hnamed s hs, fun e he x hx => ?_, h.statements s hs⟩
  have hvalue : e ∈ p.values := List.mem_filterMap.mpr ⟨s, hs, he⟩
  refine ⟨?_, h.nodes x (List.mem_flatMap.mpr ⟨e, hvalue, hx⟩), fun n hn => ?_⟩
  · have hstatement := hnamed s hs
    cases s with
    | assign t name value =>
      cases he
      exact hstatement.2 x hx
    | expr t value =>
      cases he
      exact hstatement x hx
    | error t => cases he
  · exact h.numbers n (List.mem_flatMap.mpr ⟨e, hvalue, List.mem_flatMap.mpr ⟨x, hx, hn⟩⟩)

/-- Programs of legible statements are told apart by their dumps. -/
theorem erase_eq_of_legible (hp : ∀ s ∈ p.statements, s.Legible) (hq : ∀ s ∈ q.statements, s.Legible)
    (h : p.dump = q.dump) : p.erase = q.erase := by
  have hlines : p.statements.map Statement.sexp = q.statements.map Statement.sexp := by
    have hclean : ∀ {statements : List Statement}, (∀ s ∈ statements, s.Legible) →
        ∀ x ∈ statements.map Statement.sexp, x.Clean := by
      intro statements hs x hx
      obtain ⟨s, hmem, rfl⟩ := List.mem_map.mp hx
      exact Statement.sexp_clean (hs s hmem)
    refine eq_of_lines_eq (hclean hp) (hclean hq) ?_
    rw [List.map_map, List.map_map]
    exact h
  have herase := map_eq_of_map_eq (k := Statement.erase)
    (fun s hs t ht => Statement.erase_eq_of_sexp_eq (hp s hs) (hq t ht)) hlines
  exact congrArg (Program.mk · .origin) herase

end Program

theorem named_of_parse {source : String} {tokens : List Token} (hlex : Scan.lex source = .ok tokens)
    {o : ParseOptions} (hmode : o.mode = .strict) {p : Program} (h : parse o tokens = .ok p) :
    ∀ s ∈ p.statements, s.Named := by
  have hformed := formed_run hmode (Scan.formed_of_lex hlex)
  obtain ⟨-, -, rfl⟩ := parse_eq_ok.mp h
  unfold Program.desugar
  split
  · intro s hs
    obtain ⟨t, ht, rfl⟩ := List.mem_map.mp hs
    exact (hformed t ht).named.resolve
  · exact fun s hs => (hformed s hs).named

/-- Two programs that were read from texts have the same dump only if they are the same but for their spans,
unless a name that heads a form is applied, a literal is an interpolation, an expression reads like a
definition or a number is not finite. -/
theorem erase_eq_of_dump_eq {source source' : String} {tokens tokens' : List Token}
    (hlex : Scan.lex source = .ok tokens) (hlex' : Scan.lex source' = .ok tokens') {o o' : ParseOptions}
    (hmode : o.mode = .strict) (hmode' : o'.mode = .strict) {p q : Program}
    (hp : parse o tokens = .ok p) (hq : parse o' tokens' = .ok q) (hplain : p.Unambiguous)
    (hplain' : q.Unambiguous) (h : p.dump = q.dump) : p.erase = q.erase :=
  Program.erase_eq_of_legible (hplain.legible (named_of_parse hlex hmode hp))
    (hplain'.legible (named_of_parse hlex' hmode' hq)) h

/-- A pipeline on one line, and the same one in a block. -/
theorem erase_eq_of_dump_eq_pipeline :
    let source := "f x = x |> g \"\x7by + 1\x7dz\"\n"
    let other := "f  x = x\n  g \"\x7b y+1 \x7dz\"\n"
    ∃ tokens tokens' p q, Scan.lex source = .ok tokens ∧ Scan.lex other = .ok tokens' ∧
      parse {} tokens = .ok p ∧ parse {} tokens' = .ok q ∧ p.Unambiguous ∧ q.Unambiguous ∧
        p.dump = q.dump ∧ p.erase = q.erase := by
  intro source other
  let dumped := "(= f (fn (x) (pipe x (g _ (string (+ y 1) \"z\")))))"
  have hread : ∀ text, ((Scan.lex text).toOption.bind fun tokens =>
      (parse {} tokens).toOption.map fun p => (decide p.Unambiguous, p.dump)) = some (true, dumped) →
      ∃ tokens p, Scan.lex text = .ok tokens ∧ parse {} tokens = .ok p ∧ p.Unambiguous ∧ p.dump = dumped := by
    intro text h
    obtain ⟨tokens, p, hlex, hp, hsaid⟩ := exists_of_read h
    exact ⟨tokens, p, hlex, hp, of_decide_eq_true (Prod.mk.inj hsaid).1, (Prod.mk.inj hsaid).2⟩
  obtain ⟨tokens, p, hlex, hp, hplain, hdump⟩ := hread source (by decide +kernel)
  obtain ⟨tokens', q, hlex', hq, hplain', hdump'⟩ := hread other (by decide +kernel)
  have hsame := hdump.trans hdump'.symm
  exact ⟨tokens, tokens', p, q, hlex, hlex', hp, hq, hplain, hplain', hsame,
    erase_eq_of_dump_eq hlex hlex' rfl rfl hp hq hplain hplain' hsame⟩

/-- A list of two names, and a function that is called `list` applied to them. -/
theorem dump_eq_of_list_applied :
    ∃ tokens tokens' p q, Scan.lex "[a b]\n" = .ok tokens ∧ Scan.lex "list a b\n" = .ok tokens' ∧
      parse {} tokens = .ok p ∧ parse {} tokens' = .ok q ∧ p.dump = q.dump ∧ p.erase ≠ q.erase := by
  have hlist : ∃ tokens, Scan.lex "[a b]\n" = .ok tokens ∧ ∃ s t items u,
      parse {} tokens = .ok ⟨[.expr s (.list t items)], u⟩ ∧
        Program.dump ⟨[.expr s (.list t items)], u⟩ = "(list a b)" :=
    ⟨_, rfl, _, _, _, _, rfl, by decide +kernel⟩
  have happly : ∃ tokens, Scan.lex "list a b\n" = .ok tokens ∧ ∃ s t callee args u,
      parse {} tokens = .ok ⟨[.expr s (.apply t callee args)], u⟩ ∧
        Program.dump ⟨[.expr s (.apply t callee args)], u⟩ = "(list a b)" :=
    ⟨_, rfl, _, _, _, _, _, rfl, by decide +kernel⟩
  obtain ⟨tokens, hlex, s, t, items, u, hp, hdump⟩ := hlist
  obtain ⟨tokens', hlex', s', t', callee, args, u', hq, hdump'⟩ := happly
  exact ⟨tokens, tokens', _, _, hlex, hlex', hp, hq, hdump.trans hdump'.symm, nofun⟩

end PipeLang
