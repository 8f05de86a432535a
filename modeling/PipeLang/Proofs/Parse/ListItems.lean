import PipeLang.Proofs.Format.ReadArguments
import PipeLang.Proofs.Parse.Layouts
import PipeLang.Proofs.Parse.Precedence
import PipeLang.Proofs.Scan.Spaced

/-! The elements of a list. An operand that is read alone is read as an element too, with a gap before it: what
it begins with is taken for the start of an argument, and what the next one begins with is not taken for a part
of it. -/

namespace PipeLang

/-- What an operand may begin with, apart from names, signs and the keywords of constructs. -/
def TokenKind.opensOperand : TokenKind → Bool
  | number _ | text _ => true
  | keyword k => k = .true_ || k = .false_ || k = .nil_
  | punctuation p => p = .lparen || p = .lbracket || p = .lbrace || p = .underscore
  | _ => false

/-- How the tokens of an operand may begin. After a name they are over or a field follows. -/
inductive StartsOperand : List Token → Prop
  | name {t : Token} (ident : t.kind.isIdent = true) : StartsOperand [t]
  | access {t u : Token} {rest : List Token} (ident : t.kind.isIdent = true)
    (dot : u.kind.isPunctuation .dot = true) : StartsOperand (t :: u :: rest)
  | negative {t u : Token} {rest : List Token} (minus : t.kind.isOperator .minus = true)
    (number : u.kind.isNumber = true) (touch : t.span.stop = u.span.start) :
    StartsOperand (t :: u :: rest)
  | plain {t : Token} {rest : List Token} (opens : t.kind.opensOperand = true) :
    StartsOperand (t :: rest)

/-- The kinds of first tokens. -/
def TokenKind.startsOperand (k : TokenKind) : Bool :=
  k.isIdent || k.isOperator .minus || k.opensOperand

theorem TokenKind.not_mark_of_startsOperand {k : TokenKind} (h : k.startsOperand = true) :
    (k.isPunctuation .dot = false ∧ k.isPunctuation .colon = false) ∧
      k.isPunctuation .arrow = false ∧ k.isOperator .eq = false := by
  cases k with
  | punctuation p => cases p <;> first | exact ⟨⟨rfl, rfl⟩, rfl, rfl⟩ | cases h
  | operator op => cases op <;> first | exact ⟨⟨rfl, rfl⟩, rfl, rfl⟩ | cases h
  | _ => exact ⟨⟨rfl, rfl⟩, rfl, rfl⟩

namespace StartsOperand

variable {ts w : List Token} (h : StartsOperand ts)

include h

theorem head : ∃ t rest, ts = t :: rest ∧ t.kind.startsOperand = true := by
  cases h with
  | name ident => exact ⟨_, _, rfl, by rw [TokenKind.startsOperand, ident]; rfl⟩
  | access ident _ => exact ⟨_, _, rfl, by rw [TokenKind.startsOperand, ident]; rfl⟩
  | negative minus _ _ =>
    exact ⟨_, _, rfl, by rw [TokenKind.startsOperand, minus, Bool.or_true, Bool.true_or]⟩
  | plain opens => exact ⟨_, _, rfl, by rw [TokenKind.startsOperand, opens, Bool.or_true]⟩

/-- Leading names lead to no arrow and to no equals sign, if those after the operand do not. -/
theorem names (hw : ∀ t ∈ (w.dropWhile fun t => t.kind.isIdent).head?,
      t.kind.isPunctuation .arrow = false ∧ t.kind.isOperator .eq = false) :
    ∀ t ∈ ((ts ++ w).dropWhile fun t => t.kind.isIdent).head?,
      t.kind.isPunctuation .arrow = false ∧ t.kind.isOperator .eq = false := by
  have hstop : ∀ {t : Token} {rest : List Token}, t.kind.isIdent = false →
      t.kind.isPunctuation .arrow = false ∧ t.kind.isOperator .eq = false →
        ∀ u ∈ ((t :: rest).dropWhile fun t => t.kind.isIdent).head?,
          u.kind.isPunctuation .arrow = false ∧ u.kind.isOperator .eq = false := by
    intro t rest hident hmark u hu
    rw [List.dropWhile_cons_of_neg (by simp [hident])] at hu
    cases hu
    exact hmark
  cases h with
  | name ident =>
    rw [List.singleton_append, List.dropWhile_cons_of_pos (p := fun t : Token => t.kind.isIdent) ident]
    exact hw
  | access ident dot =>
    have hdot := TokenKind.isPunctuation_iff.mp dot
    rw [List.cons_append, List.dropWhile_cons_of_pos (p := fun t : Token => t.kind.isIdent) ident]
    exact hstop (by rw [hdot]; rfl) (by rw [hdot]; exact ⟨rfl, rfl⟩)
  | negative minus _ _ =>
    have hminus := TokenKind.isOperator_iff.mp minus
    exact hstop (by rw [hminus]; rfl) (by rw [hminus]; exact ⟨rfl, rfl⟩)
  | @plain t rest opens =>
    refine hstop ?_ (TokenKind.not_mark_of_startsOperand ?_).2
    · cases hk : t.kind <;> rw [hk] at opens <;> first | rfl | cases opens
    · rw [TokenKind.startsOperand, opens, Bool.or_true]

theorem follow (hw : ∀ t ∈ (w.dropWhile fun t => t.kind.isIdent).head?,
      t.kind.isPunctuation .arrow = false ∧ t.kind.isOperator .eq = false)
    (hlast : ∃ t, w.getLast? = some t ∧ t.kind = .eof) : Follow (ts ++ w) := by
  refine ⟨?_, h.names hw, ?_⟩
  · obtain ⟨t, rest, rfl, ht⟩ := h.head
    exact ⟨t, rest ++ w, rfl, (TokenKind.not_mark_of_startsOperand ht).1⟩
  · obtain ⟨t, ht, hk⟩ := hlast
    exact ⟨t, by rw [List.getLast?_append, ht]; rfl, hk⟩

/-- An operand is taken for an argument. If it starts with a sign there has to be a gap before it. -/
theorem atArgument (hw : ∃ t us, w = t :: us ∧ t.kind.isPunctuation .colon = false) {d : Cursor}
    (hd : d.rest = ts ++ w)
    (hgap : ∀ t ∈ ts.head?, t.kind.isOperator .minus = true → d.afterGap = true) :
    d.atArgument = true := by
  have hone : ∀ {t u : Token} {rest : List Token}, d.rest = t :: u :: rest → d.peekAt 1 = u := by
    intro t u rest hd
    rw [Cursor.peekAt_one hd]
    unfold Cursor.peek Cursor.forward
    rw [hd]
  have hname : ∀ {t u : Token} {rest : List Token}, d.rest = t :: u :: rest → t.kind.isIdent = true →
      u.kind.isPunctuation .colon = false → d.atArgument = true := by
    intro t u rest hd ident hcolon
    unfold Cursor.atArgument Cursor.kindAt
    rw [Parse.kind_of_rest hd, hone hd, hcolon]
    cases hk : t.kind <;> rw [hk] at ident <;> first | rfl | cases ident
  cases h with
  | name ident =>
    obtain ⟨u, us, rfl, hcolon⟩ := hw
    exact hname hd ident hcolon
  | access ident dot => exact hname hd ident (by rw [TokenKind.isPunctuation_iff.mp dot]; rfl)
  | @negative t u rest minus number touch =>
    have hpeek : d.peek = t := by
      unfold Cursor.peek
      rw [hd]
      rfl
    have hnegative : d.atNegative = true := by
      unfold Cursor.atNegative Cursor.atOperator Cursor.kindAt
      rw [Parse.kind_of_rest hd, minus, hone hd, number, hpeek, touch, beq_self_eq_true]
      rfl
    unfold Cursor.atArgument
    rw [Parse.kind_of_rest hd, TokenKind.isOperator_iff.mp minus, hnegative,
      hgap t rfl minus]
    rfl
  | @plain t rest opens =>
    unfold Cursor.atArgument
    rw [Parse.kind_of_rest hd]
    cases hk : t.kind <;> rw [hk] at opens <;> first | exact opens | rfl | cases opens

end StartsOperand

namespace Follow

variable {v : List Token} (h : Follow v) {d : Cursor}

include h

theorem not_arrow (hd : d.rest = v) : d.atPunctuation .arrow = false := by
  obtain ⟨t, us, hv, -⟩ := h.first
  rw [hv] at hd
  rw [Cursor.atPunctuation, Parse.kind_of_rest hd, Bool.eq_false_iff]
  intro hk
  have hstop : t.kind.isIdent = false := by rw [TokenKind.isPunctuation_iff.mp hk]; rfl
  have hnone := (h.names t (by rw [hv, List.dropWhile_cons_of_neg (by simp [hstop])]; rfl)).1
  rw [hk] at hnone
  cases hnone

theorem not_function {t : Token} (hd : d.rest = t :: v) : d.atFunction = false := by
  have hnames := fun t ht => (h.names t ht).1
  have harrow : (v.dropWhile fun t => t.kind.isIdent).head?.map (fun t => t.kind.isPunctuation .arrow) ≠
      some true := by
    intro heq
    obtain ⟨u, hu, harrow⟩ := Option.map_eq_some_iff.mp heq
    rw [hnames u hu] at harrow
    cases harrow
  rw [Cursor.atFunction, Cursor.namesThen, hd, List.drop_succ_cons, List.drop_zero]
  exact Bool.and_eq_false_iff.mpr (.inr (beq_false_of_ne harrow))

end Follow

namespace Parse

variable {o : ParseOptions} {levels b : Nat} {c c' : Cursor} {a : Expr}

theorem opens_of_primary (h : primary o levels b c = .ok a c') :
    c.kind.isIdent = true ∧ c' = c.next ∨ c.atNegative = true ∨ c.kind.opensOperand = true ∨
      c.kind.isConstruct = true := by
  cases levels with
  | zero => cases h
  | succ levels =>
    cases b with
    | zero => cases h
    | succ b =>
      unfold primary primaryInside at h
      rw [test_bind] at h
      unfold Cursor.kind
      cases hk : c.peek.kind with
      | ident name =>
        rw [hk] at h
        cases h
        exact .inl ⟨rfl, rfl⟩
      | operator op =>
        rw [hk] at h
        cases op with
        | minus =>
          dsimp only at h
          rw [test_bind] at h
          cases hn : c.atNegative with
          | true => exact .inr (.inl rfl)
          | false =>
            rw [hn] at h
            cases h
        | _ => cases h
      | keyword k =>
        rw [hk] at h
        cases k <;> first | exact .inr (.inr (.inl rfl)) | exact .inr (.inr (.inr rfl)) | cases h
      | punctuation p =>
        rw [hk] at h
        cases p <;> first | exact .inr (.inr (.inl rfl)) | cases h
      | number _ | text _ => exact .inr (.inr (.inl rfl))
      | _ =>
        rw [hk] at h
        cases h

/-- A whole operand, outside of which no construct stands. -/
def ReadsOperandAlone (o : ParseOptions) (levels b : Nat) (ts : List Token) (a : Expr) : Prop :=
  Plain ts ∧ ReadsAlone (operand o (primary o levels) b) ts a

/-- It takes a level. -/
theorem ReadsOperandAlone.pos {ts : List Token} (h : ReadsOperandAlone o levels b ts a) : 0 < b := by
  obtain ⟨-, e, -, c', hrun, -⟩ := h
  obtain ⟨value, c1, hprimary, -⟩ := bind_eq_ok.mp hrun
  cases b with
  | zero => cases levels <;> cases hprimary
  | succ b => exact Nat.succ_pos b

theorem startsOperand_of_alone {ts : List Token} (h : ReadsOperandAlone o levels b ts a) :
    StartsOperand ts := by
  obtain ⟨hplain, e, he, c', hrun, hlength, -⟩ := h
  generalize hc : Cursor.ofTokens (ts ++ [e]) = c at hrun
  have hrest : c.rest = ts ++ [e] := by rw [← hc]; rfl
  obtain ⟨value, c1, hprimary, hrun⟩ := bind_eq_ok.mp hrun
  have hstart := opens_of_primary hprimary
  cases ts with
  | nil =>
    have hk : c.kind = .eof := (kind_of_rest hrest).trans he
    unfold Cursor.atNegative Cursor.atOperator at hstart
    rw [hk] at hstart
    simp [TokenKind.isIdent, TokenKind.isOperator, TokenKind.opensOperand, TokenKind.isConstruct] at hstart
  | cons t rest =>
    have hrest : c.rest = t :: (rest ++ [e]) := hrest
    have hk : c.kind = t.kind := kind_of_rest hrest
    rw [hk] at hstart
    rcases hstart with ⟨hident, rfl⟩ | hnegative | hopens | hconstruct
    · have hnext : c.next.rest = rest ++ [e] :=
        next_rest hrest fun heof => by rw [heof] at hident; cases hident
      cases haccess : c.next.atAccess with
      | false =>
        rw [accesses_of_atAccess haccess] at hrun
        cases hrun
        rw [hnext] at hlength
        obtain rfl : rest = [] := by simpa using hlength
        exact .name hident
      | true =>
        simp only [Cursor.atAccess, Bool.and_eq_true, Cursor.atPunctuation] at haccess
        cases rest with
        | nil =>
          have hdot := haccess.1.1.1
          rw [kind_of_rest hnext, he] at hdot
          cases hdot
        | cons u rest =>
          exact .access hident (by rw [← kind_of_rest (c := c.next) hnext]; exact haccess.1.1.1)
    · simp only [Cursor.atNegative, Cursor.atOperator, Cursor.kindAt, Cursor.peekAt_one hrest,
        Bool.and_eq_true, beq_iff_eq, hk] at hnegative
      obtain ⟨⟨hminus, hnumber⟩, htouch⟩ := hnegative
      have hforward : c.forward.rest = rest ++ [e] := by rw [Cursor.forward, hrest]
      cases rest with
      | nil =>
        have hend : c.forward.kind = .eof := (kind_of_rest hforward).trans he
        rw [show c.forward.peek.kind = .eof from hend] at hnumber
        cases hnumber
      | cons u rest =>
        have hpeek : c.peek = t ∧ c.forward.peek = u := by
          unfold Cursor.peek
          rw [hrest, hforward]
          exact ⟨rfl, rfl⟩
        rw [hpeek.2] at hnumber
        rw [hpeek.1, hpeek.2] at htouch
        exact .negative hminus hnumber htouch
    · exact .plain hopens
    · have henclosed := hplain.constructs [] t rest rfl rfl
      rw [henclosed] at hconstruct
      cases hconstruct

/-- An operand that is read alone is read in front of what may follow one. -/
theorem operand_of_alone {ts v : List Token} (h : ReadsOperandAlone o levels b ts a) (hv : Follow v)
    (hapart : ∀ t ∈ ts, t.Apart v) {d : Cursor} (hd : d.rest = ts ++ v) :
    ∃ d', operand o (primary o levels) b d = .ok a d' ∧ d'.rest = v ∧ d'.previous? = ts.getLast? := by
  obtain ⟨hplain, e, he, c', hrun, hlength, -⟩ := h
  have hahead : (Cursor.ofTokens (ts ++ [e])).Ahead e v ts d := ⟨rfl, hd, hplain.free, hapart⟩
  obtain ⟨d', r', hd', h'⟩ := led_operand he hv (hplain.led_primary he hv levels) b _ _ _ hahead
    ⟨rfl, hahead.ended he, rfl⟩ _ _ hrun
  have hr' : r' = [] := by
    rw [h'.front] at hlength
    simpa using hlength
  refine ⟨d', hd', by rw [h'.back, hr']; rfl, ?_⟩
  have htokens := h'.opens.tokens
  rw [h'.front, hr'] at htokens
  rw [← h'.previous, Cursor.previous?, ← List.append_cancel_right htokens, List.getLast?_reverse]

/-- What a bracket opens is a list where no function comes. -/
theorem primary_of_bracket {d : Cursor} (hd : d.kind = .punctuation .lbracket) (hfunction : d.atFunction = false)
    (harrow : d.next.atPunctuation .arrow = false) :
    primary o (levels + 1) (b + 1) d = (do
      let items ← stageArguments o (primary o levels) b
      if ← test (·.atPunctuation .rbracket) then
        let closed ← skip
        pure (.list (d.peek.span.merge closed) items)
      else
        stillOpen .listLiteral d.peek.span listExpected
        noComma .listLiteral "[1 2 3]" listExpected
        unexpected (.within .listLiteral) listExpected : Parse Expr) d.next := by
  show primaryInside o (primary o levels) b d = _
  unfold primaryInside
  rw [test_bind, show d.peek.kind = _ from hd]
  show (test Cursor.atFunction >>= _) d = _
  rw [test_bind, hfunction, if_neg Bool.false_ne_true, list, skip_bind, test_bind, harrow,
    if_neg Bool.false_ne_true]

/-! ## The loop over the elements -/

section

variable {closing : Token} {rest : List Token} (hclosing : closing.kind = .punctuation .rbracket)
  (hlast : ∃ t, rest.getLast? = some t ∧ t.kind = .eof)

include hclosing hlast

theorem follow_items {items : List (List Token)} (h : ∀ ts ∈ items, StartsOperand ts) :
    Follow (items.flatten ++ closing :: rest) := by
  induction items with
  | nil =>
    refine ⟨⟨closing, rest, rfl, by rw [hclosing]; exact ⟨rfl, rfl⟩⟩, fun t ht => ?_, ?_⟩
    · have hstop : ([].flatten ++ closing :: rest).dropWhile (fun t => t.kind.isIdent) =
          closing :: rest :=
        List.dropWhile_cons_of_neg (by rw [hclosing]; simp [TokenKind.isIdent])
      rw [hstop] at ht
      cases ht
      rw [hclosing]
      exact ⟨rfl, rfl⟩
    · obtain ⟨t, ht, hk⟩ := hlast
      exact ⟨t, by rw [List.flatten_nil, List.nil_append, List.getLast?_cons, ht]; rfl, hk⟩
  | cons ts items ih =>
    have hmore := ih fun us hus => h us (List.mem_cons_of_mem _ hus)
    rw [List.flatten_cons, List.append_assoc]
    exact (h ts List.mem_cons_self).follow hmore.names hmore.last

omit hclosing hlast in
/-- There is a gap between the tokens of an element and what comes next, unless that is the closing bracket. -/
theorem gap_after {ts : List Token} {items : List (List Token)} (hspaced : Scan.Spaced (ts :: items))
    (h : ∀ us ∈ items, StartsOperand us) {t u : Token} (ht : t ∈ ts)
    (hu : u ∈ (items.flatten ++ closing :: rest).head?) :
    u = closing ∨ t.span.stop < u.span.start := by
  cases items with
  | nil => exact .inl (Option.some.inj hu).symm
  | cons us items =>
    obtain ⟨v, more, rfl, -⟩ := (h us List.mem_cons_self).head
    obtain rfl : v = u := Option.some.inj hu
    exact .inr ((List.isChain_cons_cons.mp hspaced).1 t ht v List.mem_cons_self)

omit hclosing hlast in
theorem startsOperand_of_items {items : List (List Token)} {trees : List Expr}
    (h : List.Forall₂ (ReadsOperandAlone o levels b) items trees) : ∀ ts ∈ items, StartsOperand ts := by
  induction h with
  | nil => exact fun _ hmem => absurd hmem List.not_mem_nil
  | cons hts _ ih => exact List.forall_mem_cons.mpr ⟨startsOperand_of_alone hts, ih⟩

/-- By induction on the elements, each of which is taken for an argument where the one before it ends. -/
theorem rounds_of_items {items : List (List Token)} {trees : List Expr}
    (h : List.Forall₂ (ReadsOperandAlone o levels b) items trees) (hspaced : Scan.Spaced items) :
    ∀ (found : List Expr) {d : Cursor}, d.rest = items.flatten ++ closing :: rest →
      (∀ ts ∈ items.head?, ∀ t ∈ ts.head?, t.kind.isOperator .minus = true → d.afterGap = true) →
      ∃ d', rounds (argumentRound o (primary o levels) b) found d = .ok (trees.reverse ++ found) d' ∧
        d'.rest = closing :: rest := by
  have hm : ∀ found, Moves Round.cost (argumentRound o (primary o levels) b found) :=
    moves_argumentRound (moves_primary o levels) b
  induction h with
  | nil =>
    intro found d hd _
    have hk : d.kind = .punctuation .rbracket := (kind_of_rest hd).trans hclosing
    have hended := ended_of_rest hd (follow_items hclosing hlast (List.forall_mem_nil _)).last
    have harg : d.atArgument = false := by
      unfold Cursor.atArgument
      rw [hk]
      rfl
    have hop : d.operator? 0 = none := by
      unfold Cursor.operator?
      rw [hk]
      rfl
    have hround : argumentRound o (primary o levels) b found d = .ok (.done found) d := by
      rw [argumentRound, test_bind, harg, if_neg Bool.false_ne_true, test_bind, hop]
      rfl
    exact ⟨d, (rounds_eq hm found hended).trans (bind_of_ok hround), hd⟩
  | @cons ts a items trees hts hmore ih =>
    intro found d hd hgap
    have hstart := startsOperand_of_alone hts
    have hstarts := startsOperand_of_items hmore
    have hfollow := follow_items hclosing hlast hstarts
    have hended := ended_of_rest hd (follow_items hclosing hlast
      (List.forall_mem_cons.mpr ⟨hstart, hstarts⟩)).last
    rw [List.flatten_cons, List.append_assoc] at hd
    have hapart : ∀ t ∈ ts, t.Apart (items.flatten ++ closing :: rest) := by
      intro t ht u hu hname
      rcases gap_after hspaced hstarts ht hu with rfl | hlt
      · rw [hclosing] at hname
        cases hname
      · exact hlt.ne
    have harg : d.atArgument = true := by
      refine hstart.atArgument ?_ hd (hgap ts rfl)
      obtain ⟨t, us, ht, -, hcolon⟩ := hfollow.first
      exact ⟨t, us, ht, hcolon⟩
    obtain ⟨d1, hrun, hd1, hprevious⟩ := operand_of_alone hts hfollow hapart hd
    have hround : argumentRound o (primary o levels) b found d = .ok (.again (a :: found)) d1 := by
      rw [argumentRound, test_bind, harg, if_pos rfl, bind_of_ok hrun]
      rfl
    -- the gap before the next element is the one after the last token of this one
    have hgap1 : ∀ us ∈ items.head?, ∀ u ∈ us.head?, d1.afterGap = true := by
      intro us hus u hu
      obtain ⟨v, more, rfl, -⟩ := hstart.head
      obtain ⟨t, ht⟩ : ∃ t, (v :: more).getLast? = some t := ⟨_, List.getLast?_cons⟩
      obtain ⟨items, rfl⟩ := List.head?_eq_some_iff.mp hus
      obtain ⟨us, rfl⟩ := List.head?_eq_some_iff.mp hu
      have hpeek : d1.peek = u := by
        unfold Cursor.peek
        rw [hd1]
        rfl
      have hlt := (List.isChain_cons_cons.mp hspaced).1 t (List.mem_of_getLast? ht) u List.mem_cons_self
      unfold Cursor.afterGap
      rw [hprevious, ht, hpeek]
      exact decide_eq_true hlt
    obtain ⟨d2, hrest, hd2⟩ := ih hspaced.tail (a :: found) hd1 fun us hus t ht _ => hgap1 us hus t ht
    refine ⟨d2, ?_, hd2⟩
    rw [List.reverse_cons, List.append_assoc]
    exact (rounds_eq hm found hended).trans ((bind_of_ok hround).trans hrest)

/-- Between brackets they make a list. There is no gap before the first of them, so it does not start with a
sign. -/
theorem primary_of_items {opening : Token} (hopening : opening.kind = .punctuation .lbracket)
    {items : List (List Token)} {trees : List Expr}
    (h : List.Forall₂ (ReadsOperandAlone o levels b) items trees) (hspaced : Scan.Spaced items)
    (hfirst : ∀ ts ∈ items.head?, ∀ t ∈ ts.head?, t.kind.isOperator .minus = false) {d : Cursor}
    (hd : d.rest = opening :: (items.flatten ++ closing :: rest)) :
    ∃ d', primary o (levels + 1) (b + 1) d = .ok (.list (opening.span.merge closing.span) trees) d' ∧
      d'.rest = rest := by
  have hfollow := follow_items hclosing hlast (startsOperand_of_items h)
  have hpeek : d.peek = opening := by
    unfold Cursor.peek
    rw [hd]
  have hnext : d.next.rest = items.flatten ++ closing :: rest :=
    next_rest hd fun heof => by rw [hopening] at heof; cases heof
  obtain ⟨d1, hrounds, hd1⟩ := rounds_of_items hclosing hlast h hspaced [] hnext fun ts hts t ht hminus => by
    rw [hfirst ts hts t ht] at hminus
    cases hminus
  have hrun : stageArguments o (primary o levels) b d.next = .ok trees d1 := by
    rw [stageArguments_eq, bind_of_ok hrounds, List.append_nil, List.reverse_reverse]
    rfl
  have hend : d1.atPunctuation .rbracket = true := by
    rw [Cursor.atPunctuation, kind_of_rest hd1, hclosing]
    rfl
  have hpeek1 : d1.peek = closing := by
    unfold Cursor.peek
    rw [hd1]
  refine ⟨d1.next, ?_, next_rest hd1 fun heof => by rw [hclosing] at heof; cases heof⟩
  rw [primary_of_bracket ((kind_of_rest hd).trans hopening) (hfollow.not_function hd) (hfollow.not_arrow hnext),
    bind_of_ok hrun, test_bind, hend, if_pos rfl, skip_bind, hpeek, hpeek1]
  rfl

end

/-- A sign next to the opening bracket is not taken for the start of an element, and nothing else either. -/
theorem primary_of_minus {opening t : Token} {rest : List Token}
    (hopening : opening.kind = .punctuation .lbracket) (hminus : t.kind = .operator .minus)
    (htouch : t.span.start = opening.span.stop) {d : Cursor} (hd : d.rest = opening :: t :: rest) :
    ∃ e, primary o (levels + 1) (b + 1) d = .error e d.next ∧
      e.cause = .unexpected (.operator .minus) (.within .listLiteral) := by
  have hbracket : d.kind = .punctuation .lbracket := (kind_of_rest hd).trans hopening
  have hnext : d.next = ⟨opening :: d.before, t :: rest, d.errors⟩ := by
    rw [next_eq_forward (by rw [hbracket]; simp), Cursor.forward, hd]
  have hfunction : d.atFunction = false := by
    rw [Cursor.atFunction, Cursor.namesThen, hd]
    simp [hminus, TokenKind.isIdent]
  have hk : d.next.kind = .operator .minus := by
    rw [hnext]
    exact hminus
  have hmark : ∀ p, d.next.atPunctuation p = false := by
    intro p
    rw [Cursor.atPunctuation, hk]
    rfl
  have harg : d.next.atArgument = false := by
    have hgap : d.next.afterGap = false := by
      rw [hnext]
      exact decide_eq_false htouch.symm.not_lt
    unfold Cursor.atArgument
    rw [hk, hgap]
    simp
  have hround : argumentRound o (primary o levels) b [] d.next = .ok (.done []) d.next := by
    rw [argumentRound, test_bind, harg, if_neg Bool.false_ne_true, test_bind]
    cases d.next.operator? 0 <;> rfl
  have hargs : stageArguments o (primary o levels) b d.next = .ok [] d.next := by
    rw [stageArguments_eq]
    exact bind_of_ok (roundsUpTo_done hround _)
  have hopen : stillOpen .listLiteral d.peek.span listExpected d.next = .ok () d.next := by
    rw [stillOpen, hk]
    rfl
  have hcomma : noComma .listLiteral "[1 2 3]" listExpected d.next = .ok () d.next := by
    rw [noComma, hmark]
    rfl
  refine ⟨d.next.unexpected (.within .listLiteral) listExpected, ?_, by rw [← hk]; rfl⟩
  rw [primary_of_bracket hbracket hfunction (hmark _), bind_of_ok hargs, test_bind, hmark,
    if_neg Bool.false_ne_true, bind_of_ok hopen, bind_of_ok hcomma]
  rfl

end Parse

end PipeLang
