import PipeLang.Parse.Fragment
import PipeLang.Proofs.Format.ReadApplication
import PipeLang.Proofs.Parse.Adjacency
import PipeLang.Proofs.Parse.Grammar
import PipeLang.Proofs.Parse.Stages
import PipeLang.Proofs.Tree.InOrder

/-! Names joined by binary operators are read as the one tree that keeps their order and in which every
operator binds as tightly as its precedence says. Nothing but the nesting limit stops the run, and the
limit takes as many operators. -/

namespace PipeLang

def Name.expr (n : Name) : Expr := .ident n.span n.text

/-- Names side by side, one at least. -/
structure Operand where
  head : Name
  args : List Name
  named : ∀ n ∈ head :: args, isIdentifier n.text = true

namespace Operand

def tokens (x : Operand) : List Token := (x.head :: x.args).map Name.token

/-- A name alone, or the first name applied to the ones after it. -/
def expr (x : Operand) : Expr :=
  match (x.args.map Name.expr).getLast? with
  | some last => .apply (x.head.span.merge last.span) x.head.expr (x.args.map Name.expr)
  | none => x.head.expr

theorem binary?_expr (x : Operand) : x.expr.binary? = none := by
  unfold expr
  cases (x.args.map Name.expr).getLast? with
  | none => rfl
  | some last =>
    unfold Expr.binary?
    split
    · next name left right h =>
      injection h with _ hname _
      injection hname with _ hname
      rw [← hname, ofSpelling?_of_isIdentifier (x.named _ List.mem_cons_self)]
      rfl
    · rfl

theorem operator?_expr (x : Operand) : x.expr.operator? = none := by
  rw [Expr.operator?, x.binary?_expr]
  rfl

end Operand

/-- A binary operator, as a token spells it, and the operand on its right. -/
structure Operation where
  op : Operator
  token : Token
  spelled : token.kind.binary? = some op
  operand : Operand

namespace Operation

def tokens (x : Operation) : List Token := x.token :: x.operand.tokens

def symbols (x : Operation) : List Symbol := [.operator x.op, .operand x.operand.expr]

end Operation

/-- An operand and the operations after it. -/
def chainTokens (first : Operand) (rest : List Operation) : List Token :=
  first.tokens ++ rest.flatMap Operation.tokens

def chainSymbols (first : Operand) (rest : List Operation) : List Symbol :=
  .operand first.expr :: rest.flatMap Operation.symbols

/-- A name, or an application. -/
def Expr.isApplicative : Expr → Bool
  | .ident .. | .apply .. => true
  | _ => false

namespace Cursor

/-- The tokens `ts` come next, and no error is recorded. -/
structure Stands (c : Cursor) (ts : List Token) : Prop where
  rest : c.rest = ts
  errors : c.errors = []

theorem Stands.next {c : Cursor} {t : Token} {ts : List Token} (h : c.Stands (t :: ts))
    (ht : t.kind ≠ .eof) : c.next.Stands ts :=
  ⟨Parse.next_rest h.rest ht, by rw [next_errors, h.errors]⟩

theorem Stands.kind {c : Cursor} {t : Token} {ts : List Token} (h : c.Stands (t :: ts)) :
    c.kind = t.kind :=
  Parse.kind_of_rest h.rest

end Cursor

namespace Parse

/-- The line ends after a fragment and its end marker. -/
def lineEnds (lines : List Span) (last : Span) : List Token :=
  lines.map (Token.mk .newline) ++ [⟨.eof, last⟩]

/-- What follows an operand: nothing that could belong to it. -/
structure EndsOperand (ts : List Token) : Prop where
  argument : ∀ c : Cursor, c.rest = ts → c.atArgument = false
  access : ∀ c : Cursor, c.rest = ts → c.atAccess = false
  colon : ∀ c : Cursor, c.rest = ts → c.atPunctuation .colon = false

theorem EndsOperand.of_kind {t : Token} {ts : List Token}
    (h : t.kind.binary?.isSome = true ∨ t.kind.isNewline = true ∨ t.kind.isEof = true)
    (hminus : t.kind = .operator .minus → ∃ u us, ts = u :: us ∧ u.kind.isNumber = false) :
    EndsOperand (t :: ts) := by
  have hmark : ∀ p, t.kind.isPunctuation p = false := by
    intro p
    cases hk : t.kind with
    | punctuation q => simp [hk, TokenKind.binary?, TokenKind.isNewline, TokenKind.isEof] at h
    | _ => rfl
  refine ⟨fun c hc => ?_, fun c hc => ?_, fun c hc => ?_⟩
  · have hkind : c.kind = t.kind := kind_of_rest hc
    unfold Cursor.atArgument
    rw [hkind]
    cases hk : t.kind with
    | operator op =>
      cases op with
      | minus =>
        obtain ⟨u, us, rfl, hu⟩ := hminus hk
        have hforward : c.forward.rest = u :: us := by rw [Cursor.forward, hc]
        have hone : (c.kindAt 1).isNumber = false := by
          rw [Cursor.kindAt_one hc, kind_of_rest hforward, hu]
        simp [Cursor.atNegative, hone]
      | _ => rfl
    | keyword k =>
      rw [hk] at h
      cases k <;> first | rfl | simp [TokenKind.binary?, TokenKind.isNewline, TokenKind.isEof] at h
    | newline | indent | dedent | eof => rfl
    | _ => simp [hk, TokenKind.binary?, TokenKind.isNewline, TokenKind.isEof] at h
  · unfold Cursor.atAccess Cursor.atPunctuation
    rw [kind_of_rest hc, hmark]
    rfl
  · unfold Cursor.atPunctuation
    rw [kind_of_rest hc, hmark]

theorem endsOperand_lineEnds (lines : List Span) (last : Span) : EndsOperand (lineEnds lines last) := by
  cases lines with
  | nil => exact .of_kind (.inr (.inr rfl)) nofun
  | cons line lines => exact .of_kind (.inr (.inl rfl)) nofun

theorem endsOperand_operations {rest : List Operation} {more : List Token} (h : EndsOperand more) :
    EndsOperand (rest.flatMap Operation.tokens ++ more) := by
  cases rest with
  | nil => exact h
  | cons x rest =>
    refine .of_kind (.inl (by rw [x.spelled]; rfl)) fun _ => ⟨x.operand.head.token, _, rfl, rfl⟩

theorem tooDeep_fails (o : ParseOptions) (c : Cursor) :
    ∃ d, (tooDeep o : Parse α) c = .error d c ∧ d.failure = .limit :=
  ⟨_, rfl, rfl⟩

section

variable {o : ParseOptions} {levels budget : Nat}

/-- A name is read as long as there is a level for it. -/
theorem operand_of_name {c : Cursor} {n : Name} {more : List Token} (hl : budget < levels)
    (hmore : ∀ c : Cursor, c.rest = more → c.atAccess = false) (hc : c.Stands (n.token :: more)) :
    ∃ c', operand o (primary o levels) (budget + 1) c = .ok n.expr c' ∧ c'.Stands more := by
  obtain ⟨levels, rfl⟩ : ∃ k, levels = k + 1 := ⟨levels - 1, by omega⟩
  have hnext : c.next.Stands more := hc.next nofun
  refine ⟨c.next, ?_, hnext⟩
  have hpeek : c.peek = n.token := by
    unfold Cursor.peek
    rw [hc.rest]
  have hprimary : primary o (levels + 1) (budget + 1) c = .ok n.expr c.next := by
    show primaryInside o (primary o levels) budget c = _
    unfold primaryInside
    rw [test_bind, hpeek]
    show (skip >>= _) c = _
    rw [skip_bind, hpeek]
    rfl
  unfold operand
  rw [bind_of_ok hprimary, accesses_of_atAccess (hmore _ hnext.rest)]

/-- Nor is there a field or a key where a name follows. -/
theorem not_access_of_names {ns : List Name} {more : List Token} (hmore : EndsOperand more) {c : Cursor}
    (hc : c.rest = ns.map Name.token ++ more) :
    c.atAccess = false ∧ c.atPunctuation .colon = false := by
  cases ns with
  | nil => exact ⟨hmore.access c hc, hmore.colon c hc⟩
  | cons n ns =>
    have hmark : ∀ p, c.atPunctuation p = false := by
      intro p
      unfold Cursor.atPunctuation
      rw [kind_of_rest hc]
      rfl
    unfold Cursor.atAccess
    rw [hmark]
    exact ⟨rfl, hmark _⟩

theorem manyUpTo_of_names {ns : List Name} {more : List Token} (hl : budget < levels)
    (hmore : EndsOperand more) :
    ∀ (k : Nat) {c : Cursor}, ns.length < k → c.Stands (ns.map Name.token ++ more) →
      ∃ c', manyUpTo Cursor.atArgument (operand o (primary o levels) (budget + 1)) k c =
        .ok (ns.map Name.expr) c' ∧ c'.Stands more := by
  induction ns with
  | nil =>
    intro k c hk hc
    obtain ⟨k, rfl⟩ : ∃ j, k = j + 1 := ⟨k - 1, by simp at hk; omega⟩
    refine ⟨c, ?_, hc⟩
    rw [manyUpTo, test_bind, hmore.argument c hc.rest]
    rfl
  | cons n ns ih =>
    intro k c hk hc
    obtain ⟨k, rfl⟩ : ∃ j, k = j + 1 := ⟨k - 1, by simp at hk; omega⟩
    obtain ⟨c1, hrun, hc1⟩ := operand_of_name hl (fun d hd => (not_access_of_names hmore hd).1) hc
    obtain ⟨c2, hrest, hc2⟩ := ih k (by simpa using hk) hc1
    have hready : c.atArgument = true := by
      have hcolon : (c.kindAt 1).isPunctuation .colon = false := by
        rw [Cursor.kindAt_one hc.rest]
        exact (not_access_of_names hmore (by rw [Cursor.forward, hc.rest]; rfl)).2
      unfold Cursor.atArgument
      rw [hc.kind]
      simp [Name.token, hcolon]
    refine ⟨c2, ?_, hc2⟩
    rw [manyUpTo, test_bind, hready, if_pos rfl, bind_of_ok hrun, bind_of_ok hrest]
    rfl

/-- An operand is read whole as long as there is a level for its names. -/
theorem application_of_operand {c : Cursor} (x : Operand) {more : List Token} (hl : budget < levels)
    (hmore : EndsOperand more) (hc : c.Stands (x.tokens ++ more)) :
    ∃ c', application o (primary o levels) (budget + 1) c = .ok x.expr c' ∧ c'.Stands more := by
  obtain ⟨c1, hhead, hc1⟩ := operand_of_name hl (fun d hd => (not_access_of_names hmore hd).1) hc
  obtain ⟨c2, hargs, hc2⟩ := manyUpTo_of_names (o := o) hl hmore (c1.rest.length + 1)
    (by rw [hc1.rest]; simp) hc1
  have hname : c.atConstruct = false := by
    unfold Cursor.atConstruct
    rw [hc.kind]
    rfl
  refine ⟨c2, ?_, hc2⟩
  unfold application
  rw [test_bind, hname, bind_of_ok hhead]
  simp only [Bool.false_eq_true, if_false]
  rw [bind_of_ok (show many _ _ c1 = _ from hargs)]
  unfold Operand.expr
  cases (x.args.map Name.expr).getLast? <;> rfl

theorem application_of_no_level (c : Cursor) (hc : c.atConstruct = false) :
    ∃ d, application o (primary o levels) 0 c = .error d c ∧ d.failure = .limit := by
  obtain ⟨d, hrun, hlimit⟩ := tooDeep_fails (α := Expr) o c
  have hprimary : primary o levels 0 c = .error d c := by
    rw [← hrun]
    cases levels <;> rfl
  refine ⟨d, ?_, hlimit⟩
  unfold application operand
  rw [test_bind, hc]
  exact bind_of_error (bind_of_error hprimary)

end

/-! ## Folding -/

/-- An expression that the operations `rest` may be folded onto: they bind no tighter than it does. -/
structure Foldable (left : Expr) (rest : List Operation) : Prop where
  graded : ∀ x ∈ left.nodes, x.Graded
  applicative : ∀ x ∈ left.nodes, x.isApplicative = true
  looser : ∀ p, left.operator? = some p → ∀ x ∈ rest.head?, x.op.precedence ≤ p.precedence

/-- `tree` is `left` with the operations `taken` folded onto it, which leaves those `remaining`. -/
structure Folds (least : Nat) (left tree : Expr) (taken remaining : List Operation) : Prop where
  inorder : tree.inorder = left.inorder ++ taken.flatMap Operation.symbols
  graded : ∀ x ∈ tree.nodes, x.Graded
  applicative : ∀ x ∈ tree.nodes, x.isApplicative = true
  root : tree.operator? = left.operator? ∨ ∃ p, tree.operator? = some p ∧ least ≤ p.precedence
  next : ∀ x ∈ remaining.head?, x.op.precedence < least

theorem foldable_operand (x : Operand) (rest : List Operation) : Foldable x.expr rest := by
  have hnames : ∀ (ns : List Name) {e : Expr}, e ∈ (ns.map Name.expr).flatMap Expr.nodes →
      ∃ n : Name, e = n.expr := by
    intro ns e he
    obtain ⟨child, hchild, he⟩ := List.mem_flatMap.mp he
    obtain ⟨n, _, rfl⟩ := List.mem_map.mp hchild
    exact ⟨n, by simpa [Expr.nodes_eq, Expr.children, Name.expr] using he⟩
  have hnodes : ∀ e ∈ x.expr.nodes, e = x.expr ∨ ∃ n : Name, e = n.expr := by
    intro e he
    rw [Expr.nodes_eq] at he
    refine (List.mem_cons.mp he).imp_right fun he => ?_
    unfold Operand.expr at he
    cases hlast : (x.args.map Name.expr).getLast? with
    | none =>
      rw [hlast] at he
      cases he
    | some last =>
      rw [hlast] at he
      exact hnames (x.head :: x.args) he
  refine ⟨fun e he => ?_, fun e he => ?_, fun p hp => ?_⟩
  · intro op left right hb
    rcases hnodes e he with rfl | ⟨n, rfl⟩
    · rw [x.binary?_expr] at hb
      cases hb
    · cases hb
  · rcases hnodes e he with rfl | ⟨n, rfl⟩
    · unfold Operand.expr
      cases (x.args.map Name.expr).getLast? <;> rfl
    · rfl
  · rw [x.operator?_expr] at hp
    cases hp

theorem Folds.refl {left : Expr} {rest : List Operation} {least : Nat} (h : Foldable left rest)
    (hnext : ∀ x ∈ rest.head?, x.op.precedence < least) : Folds least left left [] rest :=
  ⟨by simp, h.graded, h.applicative, .inl rfl, hnext⟩

theorem binary?_binary (op : Operator) (s : Span) (left right : Expr) :
    (binary op s left right).binary? = some (op, left, right) := by
  simp [binary, Expr.binary?, Operator.ofSpelling?_spelling]

theorem graded_binary {op : Operator} {s : Span} {left right : Expr} (hl : ∀ x ∈ left.nodes, x.Graded)
    (hr : ∀ x ∈ right.nodes, x.Graded)
    (hleft : ∀ p, left.operator? = some p → op.precedence ≤ p.precedence)
    (hright : ∀ p, right.operator? = some p → op.precedence < p.precedence) :
    ∀ x ∈ (binary op s left right).nodes, x.Graded := by
  have hb := binary?_binary op s left right
  refine (Expr.graded_nodes hb).mpr ⟨fun q l r h => ?_, hl, hr⟩
  cases hb.symm.trans h
  exact ⟨hleft, hright⟩

/-- An operation and what its right operand takes make one expression, and more can be folded onto that. -/
theorem Foldable.step {left right : Expr} {x : Operation} {taken remaining : List Operation} {s : Span}
    (hl : Foldable left (x :: (taken ++ remaining)))
    (hr : Folds (x.op.precedence + 1) x.operand.expr right taken remaining) :
    Foldable (binary x.op s left right) remaining := by
  have hb := binary?_binary x.op s left right
  refine ⟨graded_binary hl.graded hr.graded (fun p hp => hl.looser p hp x rfl) fun p hp => ?_, ?_, ?_⟩
  · rcases hr.root with hroot | ⟨q, hq, hle⟩
    · rw [hroot, x.operand.operator?_expr] at hp
      cases hp
    · cases hq.symm.trans hp
      exact hle
  · intro e he
    rw [Expr.nodes_eq] at he
    simp only [binary, Expr.children, List.flatMap_cons, List.flatMap_nil, List.append_nil,
      List.mem_cons, List.mem_append] at he
    rcases he with rfl | he | he | he
    · rfl
    · obtain rfl : e = .ident s x.op.spelling := by simpa [Expr.nodes_eq, Expr.children] using he
      rfl
    · exact hl.applicative e he
    · exact hr.applicative e he
  · intro p hp y hy
    cases (Expr.operator?_of_binary? hb).symm.trans hp
    exact Nat.le_of_lt_succ (hr.next y hy)

theorem Folds.step {left right tree : Expr} {x : Operation} {taken taken' remaining : List Operation}
    {least : Nat} {s : Span} (hleast : least ≤ x.op.precedence) {between : List Operation}
    (hr : Folds (x.op.precedence + 1) x.operand.expr right taken between)
    (h : Folds least (binary x.op s left right) tree taken' remaining) :
    Folds least left tree (x :: (taken ++ taken')) remaining := by
  have hb := binary?_binary x.op s left right
  refine ⟨?_, h.graded, h.applicative, .inr ?_, h.next⟩
  · rw [h.inorder, Expr.inorder_of_binary? hb, hr.inorder,
      Expr.inorder_of_operand x.operand.binary?_expr]
    simp [Operation.symbols]
  · rcases h.root with hroot | hroot
    · exact ⟨x.op, hroot.trans (Expr.operator?_of_binary? hb), hleast⟩
    · exact hroot

section

variable {o : ParseOptions} {levels : Nat} {more : List Token} (hmore : EndsOperand more)
  (hend : ∀ c : Cursor, c.rest = more → c.kind.binary? = none)

theorem operator?_of_operation {c : Cursor} {x : Operation} {ts : List Token} {least : Nat}
    (hc : c.Stands (x.token :: ts)) :
    c.operator? least = if least ≤ x.op.precedence then some x.op else none := by
  unfold Cursor.operator?
  rw [hc.kind, x.spelled]
  by_cases h : least ≤ x.op.precedence
  · simp [h]
  · simp [h, Nat.lt_of_not_le h]

include hmore hend

/-- Operations are folded as far as they bind as tightly as `least`, unless the limit is reached first. -/
theorem chain_folds : ∀ (budget : Nat), budget ≤ levels → ∀ {left : Expr} (least : Nat)
    {rest : List Operation} {c : Cursor}, Foldable left rest →
      c.Stands (rest.flatMap Operation.tokens ++ more) →
        (budget ≤ rest.length ∧ ∃ d c', chain o (primary o levels) budget left least c = .error d c' ∧
          d.failure = .limit) ∨
        ∃ tree taken remaining c', rest = taken ++ remaining ∧
          chain o (primary o levels) budget left least c = .ok tree c' ∧
            c'.Stands (remaining.flatMap Operation.tokens ++ more) ∧
              Folds least left tree taken remaining := by
  have stop : ∀ {left : Expr} {least : Nat} {rest : List Operation} {c : Cursor}, Foldable left rest →
      c.Stands (rest.flatMap Operation.tokens ++ more) → c.operator? least = none →
        Folds least left left [] rest := by
    intro left least rest c hleft hc hop
    refine .refl hleft fun x hx => ?_
    obtain ⟨xs, rfl⟩ := List.head?_eq_some_iff.mp hx
    rw [operator?_of_operation hc] at hop
    by_contra hle
    rw [if_pos (Nat.le_of_not_lt hle)] at hop
    cases hop
  intro budget
  induction budget with
  | zero =>
    intro hl left least rest c hleft hc
    cases hop : c.operator? least with
    | none => exact .inr ⟨left, [], rest, c, rfl, chain_of_stop hop 0 left, hc, stop hleft hc hop⟩
    | some op =>
      obtain ⟨d, hrun, hlimit⟩ := tooDeep_fails (α := Expr) o c
      refine .inl ⟨Nat.zero_le _, d, c, ?_, hlimit⟩
      rw [chain, test_bind, hop]
      exact hrun
  | succ budget ih =>
    intro hl left least rest c hleft hc
    cases hop : c.operator? least with
    | none => exact .inr ⟨left, [], rest, c, rfl, chain_of_stop hop _ left, hc, stop hleft hc hop⟩
    | some op =>
      obtain ⟨x, xs, rfl⟩ : ∃ x xs, rest = x :: xs := by
        refine List.exists_cons_of_ne_nil fun hnil => ?_
        rw [hnil] at hc
        rw [Cursor.operator?, hend c hc.rest] at hop
        cases hop
      rw [operator?_of_operation hc] at hop
      have hleast : least ≤ x.op.precedence := by
        by_contra hle
        rw [if_neg hle] at hop
        cases hop
      obtain rfl : x.op = op := by simpa [hleast] using hop
      have hrun : chain o (primary o levels) (budget + 1) left least c = (do
          let first ← application o (primary o levels) budget
          let right ← chain o (primary o levels) budget first (x.op.precedence + 1)
          chain o (primary o levels) budget (binary x.op c.peek.span left right) least) c.next := by
        rw [chain, test_bind, operator?_of_operation hc, if_pos hleast]
        rfl
      rw [hrun]
      have hnext : c.next.Stands (x.operand.tokens ++ (xs.flatMap Operation.tokens ++ more)) := by
        rw [← List.append_assoc]
        refine hc.next fun hk => ?_
        have := x.spelled
        rw [hk] at this
        cases this
      obtain rfl | ⟨b, rfl⟩ : budget = 0 ∨ ∃ b, budget = b + 1 := by
        cases budget with
        | zero => exact .inl rfl
        | succ b => exact .inr ⟨b, rfl⟩
      · obtain ⟨d, herror, hlimit⟩ : ∃ d, application o (primary o levels) 0 c.next = .error d c.next ∧
            d.failure = .limit :=
          application_of_no_level c.next (by unfold Cursor.atConstruct; rw [hnext.kind]; rfl)
        exact .inl ⟨by simp, d, c.next, bind_of_error herror, hlimit⟩
      obtain ⟨c1, happly, hc1⟩ : ∃ c1, application o (primary o levels) (b + 1) c.next =
          .ok x.operand.expr c1 ∧ c1.Stands (xs.flatMap Operation.tokens ++ more) :=
        application_of_operand x.operand (by omega) (endsOperand_operations hmore) hnext
      rw [bind_of_ok happly]
      rcases ih (by omega) (x.op.precedence + 1) (foldable_operand x.operand xs) hc1 with
        ⟨hroom, d, c2, herror, hlimit⟩ | ⟨right, taken, between, c2, rfl, hright, hc2, hr⟩
      · exact .inl ⟨by simpa using hroom, d, c2, bind_of_error herror, hlimit⟩
      rw [bind_of_ok hright]
      rcases ih (by omega) least (hleft.step (s := c.peek.span) hr) hc2 with
        ⟨hroom, d, c3, herror, hlimit⟩ | ⟨tree, taken', remaining, c3, rfl, htree, hc3, hfolds⟩
      · exact .inl ⟨by simp; omega, d, c3, herror, hlimit⟩
      · exact .inr ⟨tree, x :: (taken ++ taken'), remaining, c3, by simp, htree, hc3,
          Folds.step hleast hr hfolds⟩

end

/-! ## Whole fragments -/

section

variable {lines : List Span} {last : Span} {c : Cursor}

/-- The line ends at the end of a fragment start no operation and no stage. -/
theorem kind_of_lineEnds (h : c.rest = lineEnds lines last) : c.kind = .newline ∨ c.kind = .eof := by
  cases lines with
  | nil => exact .inr (kind_of_rest h)
  | cons line lines => exact .inl (kind_of_rest h)

theorem allStages_of_lineEnds {o : ParseOptions} {levels budget : Nat}
    (hc : c.Stands (lineEnds lines last)) : allStages o (primary o levels) budget c = .ok [] c := by
  have hkind := kind_of_lineEnds hc.rest
  have hpipe : c.atPunctuation .pipe = false := by
    unfold Cursor.atPunctuation
    rcases hkind with h | h <;> rw [h] <;> rfl
  have hended : c.Ended := ⟨⟨.eof, last⟩, by rw [hc.rest, lineEnds, List.getLast?_concat], rfl⟩
  have hblock : c.atBlock TokenKind.isIdent = false := by
    cases lines with
    | nil =>
      unfold Cursor.atBlock Cursor.atNewline
      rw [hc.kind]
      rfl
    | cons line lines =>
      have hafter : (c.kindAt 1).isIndent = false := by
        rw [Cursor.kindAt_one hc.rest]
        have hforward : c.forward.rest = lineEnds lines last := by
          unfold Cursor.forward
          rw [hc.rest]
          rfl
        rcases kind_of_lineEnds hforward with h | h <;> rw [h] <;> rfl
      unfold Cursor.atBlock
      rw [hafter, Bool.and_false, Bool.false_and]
  unfold allStages
  rw [bind_of_ok (inlineStages_of_not_pipe (moves_primary _ _) _ hended hpipe)]
  exact bind_of_ok (show openBlock TokenKind.isIdent c = .ok false c by rw [openBlock, hblock]; rfl)

theorem skipNewlines_of_lineEnds (hc : c.Stands (lineEnds lines last)) :
    ∃ c', skipNewlines c = .ok () c' ∧ c'.Stands [⟨.eof, last⟩] := by
  refine ⟨_, rfl, ?_, hc.errors⟩
  unfold Cursor.skipWhile
  rw [hc.rest]
  have hall : ∀ t ∈ lines.map (Token.mk TokenKind.newline), t.kind.isNewline = true := by
    intro t ht
    obtain ⟨_, _, rfl⟩ := List.mem_map.mp ht
    rfl
  exact List.dropWhile_append_of_pos hall

section

variable {o : ParseOptions} {t : Token} {ts : List Token} {a : Expr} {d : Cursor}
  (hline : t.kind.isNewline = false)

include hline

/-- An expression with nothing but line ends after it is the whole fragment. -/
theorem parseFragment_of_expression (hrun : rootExpression o (.ofTokens (t :: ts)) = .ok a d)
    (hd : d.Stands (lineEnds lines last)) :
    parseFragment o .expression (t :: ts) = Fragment.expression <$> a.finish o := by
  have hskip : skipNewlines (.ofTokens (t :: ts)) = .ok () (.ofTokens (t :: ts)) :=
    congrArg (EStateM.Result.ok ()) (Cursor.skipWhile_of_false rfl hline)
  have hread : fragment o .expression (.ofTokens (t :: ts)) = .ok (.expression a) d := bind_of_ok hrun
  obtain ⟨d', hlines, hd'⟩ := skipNewlines_of_lineEnds hd
  have hend : d'.atEnd = true := by
    rw [Cursor.atEnd, hd'.kind]
    rfl
  have hwhole : wholeFragment o .expression (.ofTokens (t :: ts)) = .ok (.expression a) d' := by
    unfold wholeFragment
    rw [bind_of_ok hskip, bind_of_ok hread, bind_of_ok hlines, test_bind, if_pos hend]
    rfl
  unfold parseFragment
  rw [hwhole]
  simp only [hd'.errors, List.isEmpty_nil, if_true, Fragment.finish]

/-- An error in the expression is the only one. -/
theorem parseFragment_of_failure {e : Diagnostic} (hrun : rootExpression o (.ofTokens (t :: ts)) = .error e d) :
    parseFragment o .expression (t :: ts) = .error [e] := by
  have hskip : skipNewlines (.ofTokens (t :: ts)) = .ok () (.ofTokens (t :: ts)) :=
    congrArg (EStateM.Result.ok ()) (Cursor.skipWhile_of_false rfl hline)
  have hread : fragment o .expression (.ofTokens (t :: ts)) = .error e d := bind_of_error hrun
  have hwhole : wholeFragment o .expression (.ofTokens (t :: ts)) = .error e d :=
    (bind_of_ok hskip).trans (bind_of_error hread)
  unfold parseFragment
  rw [hwhole]

end

end

/-- Whatever is built of names and applications has no keys to repeat and no stages to rewire. -/
theorem finish_of_applicative {o : ParseOptions} {tree : Expr}
    (h : ∀ x ∈ tree.nodes, x.isApplicative = true) : tree.finish o = .ok tree := by
  have hkeys : tree.keyErrors = [] := by
    rw [Expr.keyErrors_eq]
    refine List.flatMap_eq_nil_iff.mpr fun x hx => ?_
    cases x with
    | record => cases h _ hx
    | _ => rfl
  have hresolve : tree.resolve = tree := by
    clear hkeys
    induction tree using Expr.children_induction with
    | h e ih =>
      have hparts : ∀ x ∈ e.children, x.resolve = x := fun x hx =>
        ih x hx fun y hy => h y <| by
          rw [Expr.nodes_eq]
          exact List.mem_cons_of_mem _ (List.mem_flatMap.mpr ⟨x, hx, hy⟩)
      have hroot := h e (by rw [Expr.nodes_eq]; exact List.mem_cons_self)
      cases e with
      | ident => rfl
      | apply s callee args =>
        rw [Expr.resolve, resolveExprs_eq_map, hparts callee List.mem_cons_self,
          map_eq_self fun x hx => hparts x (List.mem_cons_of_mem _ hx)]
      | _ => cases hroot
  unfold Expr.finish
  rw [hkeys, hresolve, ite_self]
  rfl

/-- A chain is folded whole, or the limit is reached, which takes as many operators as there are levels. -/
theorem rootExpression_folds (o : ParseOptions) (first : Operand) (rest : List Operation) {lines : List Span}
    {last : Span} {c : Cursor}
    (hc : c.Stands (first.tokens ++ (rest.flatMap Operation.tokens ++ lineEnds lines last))) :
    (o.maxDepth ≤ rest.length ∧ ∃ d c', rootExpression o c = .error d c' ∧ d.failure = .limit) ∨
      ∃ tree c', rootExpression o c = .ok tree c' ∧ c'.Stands (lineEnds lines last) ∧
        Folds 0 first.expr tree rest [] := by
  have hmore := endsOperand_lineEnds lines last
  have hend : ∀ c : Cursor, c.rest = lineEnds lines last → c.kind.binary? = none := by
    intro c hc
    rcases kind_of_lineEnds hc with h | h <;> rw [h] <;> rfl
  cases hdepth : o.maxDepth with
  | zero =>
    obtain ⟨d, herror, hlimit⟩ : ∃ d, application o (primary o o.maxDepth) 0 c = .error d c ∧
        d.failure = .limit :=
      application_of_no_level c (by unfold Cursor.atConstruct; rw [hc.kind]; rfl)
    refine .inl ⟨Nat.zero_le _, d, c, ?_, hlimit⟩
    unfold rootExpression rootPrimary expression
    rw [hdepth] at herror ⊢
    exact bind_of_error herror
  | succ budget =>
    obtain ⟨c1, happly, hc1⟩ : ∃ c1, application o (primary o (budget + 1)) (budget + 1) c =
        .ok first.expr c1 ∧ c1.Stands (rest.flatMap Operation.tokens ++ lineEnds lines last) :=
      application_of_operand first (by omega) (endsOperand_operations hmore) hc
    have hroot : ∀ {r}, (chain o (primary o (budget + 1)) (budget + 1) first.expr 0 >>= fun seed => do
        let stages ← allStages o (primary o (budget + 1)) (budget + 1)
        pure (pipelineOf seed stages)) c1 = r → rootExpression o c = r := by
      intro r h
      unfold rootExpression rootPrimary
      rw [hdepth, expression_parts, bind_of_ok happly]
      exact h
    rcases chain_folds (o := o) hmore hend (budget + 1) (Nat.le_refl _) 0
      (foldable_operand first rest) hc1 with
      ⟨hroom, d, c2, herror, hlimit⟩ | ⟨tree, taken, remaining, c2, rfl, htree, hc2, hfolds⟩
    · exact .inl ⟨hroom, d, c2, hroot (bind_of_error herror), hlimit⟩
    · obtain rfl : remaining = [] := by
        cases remaining with
        | nil => rfl
        | cons x xs => exact absurd (hfolds.next x rfl) (Nat.not_lt_zero _)
      have hc2 : c2.Stands (lineEnds lines last) := hc2
      rw [List.append_nil]
      refine .inr ⟨tree, c2, hroot ?_, hc2, hfolds⟩
      rw [bind_of_ok htree, bind_of_ok (allStages_of_lineEnds hc2)]
      rfl

/-- A chain of names and operators that does not reach the nesting limit is read as its one graded tree.
To reach the limit takes as many operators as the limit allows levels. -/
theorem chain_reads_graded (o : ParseOptions) (first : Operand) (rest : List Operation)
    (lines : List Span) (last : Span) :
    (o.maxDepth ≤ rest.length ∧
      ∃ d, parseFragment o .expression (chainTokens first rest ++ lineEnds lines last) = .error [d] ∧
        d.failure = .limit) ∨
    ∃ tree,
      parseFragment o .expression (chainTokens first rest ++ lineEnds lines last) =
          .ok (.expression tree) ∧
        tree.inorder = chainSymbols first rest ∧ (∀ x ∈ tree.nodes, x.Graded) ∧
          ∀ other : Expr, other.inorder = chainSymbols first rest → (∀ x ∈ other.nodes, x.Graded) →
            other.erase = tree.erase := by
  have htokens : chainTokens first rest ++ lineEnds lines last = first.head.token ::
      (first.args.map Name.token ++ (rest.flatMap Operation.tokens ++ lineEnds lines last)) := by
    simp [chainTokens, Operand.tokens]
  have hstart : (Cursor.ofTokens (first.head.token :: (first.args.map Name.token ++
      (rest.flatMap Operation.tokens ++ lineEnds lines last)))).Stands
        (first.tokens ++ (rest.flatMap Operation.tokens ++ lineEnds lines last)) := ⟨rfl, rfl⟩
  rw [htokens]
  rcases rootExpression_folds o first rest hstart with
    ⟨hroom, d, c, hrun, hlimit⟩ | ⟨tree, c, hrun, hc, hfolds⟩
  · exact .inl ⟨hroom, d, parseFragment_of_failure rfl hrun, hlimit⟩
  · have hinorder : tree.inorder = chainSymbols first rest := by
      rw [hfolds.inorder, Expr.inorder_of_operand first.binary?_expr]
      rfl
    refine .inr ⟨tree, ?_, hinorder, hfolds.graded, fun other hother hgraded =>
      Expr.erase_eq_of_inorder hgraded hfolds.graded (hother.trans hinorder.symm)⟩
    rw [parseFragment_of_expression rfl hrun hc, finish_of_applicative hfolds.applicative]
    rfl

/-- A sum whose second operand is a product, in which an application is multiplied. -/
theorem chain_reads_graded_product :
    ∃ (a bd c : Operand) (rest : List Operation) (tree : Expr),
      (chainTokens a rest).map Token.kind = [.ident "a", .operator .plus, .ident "b", .ident "d",
        .operator .star, .ident "c"] ∧
      parseFragment {} .expression (chainTokens a rest ++ lineEnds [] .origin) =
        .ok (.expression tree) ∧
      tree.erase = (binary .plus .origin a.expr (binary .star .origin bd.expr c.expr)).erase := by
  let a : Operand := ⟨⟨"a", .origin⟩, [], by decide +kernel⟩
  let bd : Operand := ⟨⟨"b", .origin⟩, [⟨"d", .origin⟩], by decide +kernel⟩
  let c : Operand := ⟨⟨"c", .origin⟩, [], by decide +kernel⟩
  let rest : List Operation :=
    [⟨.plus, ⟨.operator .plus, .origin⟩, rfl, bd⟩, ⟨.star, ⟨.operator .star, .origin⟩, rfl, c⟩]
  have hnodes : ∀ x : Operand, ∀ e ∈ x.expr.nodes, e.Graded := fun x => (foldable_operand x []).graded
  have hproduct : ∀ e ∈ (binary .star .origin bd.expr c.expr).nodes, e.Graded :=
    graded_binary (hnodes bd) (hnodes c) (by simp [bd.operator?_expr]) (by simp [c.operator?_expr])
  obtain ⟨hlimit, -⟩ | ⟨tree, hread, -, -, hunique⟩ := chain_reads_graded {} a rest [] .origin
  · exact absurd hlimit (by decide)
  refine ⟨a, bd, c, rest, tree, rfl, hread, (hunique _ ?_ (graded_binary (hnodes a) hproduct ?_ ?_)).symm⟩
  · simp only [Expr.inorder_of_binary? (binary?_binary ..), Expr.inorder_of_operand (Operand.binary?_expr _)]
    rfl
  · simp [a.operator?_expr]
  · intro p hp
    cases (Expr.operator?_of_binary? (binary?_binary ..)).symm.trans hp
    decide

end Parse

end PipeLang
