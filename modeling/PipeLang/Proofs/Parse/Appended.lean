import PipeLang.Proofs.Parse.Modes
import PipeLang.Proofs.Parse.SeamProgram
import PipeLang.Proofs.Parse.Shifted
import PipeLang.Proofs.Scan.Appended

/-! A program put after another one, where a line starts. Each of the two keeps its statements, unless the
first one ends in a block and the second one begins with what may go on there: the grammar does not see that
a line has ended where a block has. -/

namespace PipeLang

namespace Scan.ByLines

variable {ts lines : List Token} {n : Nat} {p : Position} (h : ByLines ts lines n p)

include h

theorem relocate (d : Shift) : ByLines (ts.map (Token.relocate (Span.shift d)))
    (lines.map (Token.relocate (Span.shift d))) n (p.shift d) := by
  refine ⟨?_, fun t ht => ?_⟩
  · rw [h.split]
    simp [Token.relocate, TokenKind.relocate]
  · rw [List.getLast?_map] at ht
    obtain ⟨u, hu, rfl⟩ := Option.map_eq_some_iff.mp ht
    show u.kind.relocate _ = .newline
    rw [h.last u hu]
    rfl

theorem within (hends : EndsOnce ts) : ∀ t ∈ lines, t.kind ≠ .eof := by
  obtain ⟨body, last, hbody, -, hplain⟩ := hends
  have hsplit : lines ++ List.replicate n ⟨.dedent, p.to p⟩ = body :=
    (List.append_inj' (h.split.symm.trans hbody) rfl).1
  exact fun t ht => hplain t (hsplit ▸ List.mem_append_left _ ht)

/-- The blocks that are open after the last line are closed by the tokens that follow it. -/
theorem levels (hr : Regular ts) : levelsOf lines = n := by
  have hzero : levelsOf ts = 0 := by
    rw [levelsOf_eq_count, hr.closed]
    omega
  have hblocks : levelsOf (List.replicate n (⟨.dedent, p.to p⟩ : Token)) = -n := by
    rw [levelsOf_eq_count, List.countP_replicate, List.countP_replicate]
    simp [TokenKind.isIndent, TokenKind.isDedent]
  rw [h.split, levelsOf_append, levelsOf_append, hblocks] at hzero
  simp [TokenKind.levelChange] at hzero
  omega

end Scan.ByLines

/-! ## The two loops -/

namespace Parse

/-- A rule that reads something where a statement may begin, and nowhere else. -/
def Begins (x : Parse α) : Prop := ∀ c a c', x c = .ok a c' → c.kind.begins = true

namespace Begins

variable {α β : Type} {x : Parse α} {f : α → Parse β}

theorem bind (h : Begins x) : Begins (x >>= f) := fun c _ _ hrun => by
  obtain ⟨a, c', hx, -⟩ := bind_eq_ok.mp hrun
  exact h c a c' hx

theorem test_bind {p : Cursor → α} (h : ∀ a, Begins (f a)) : Begins (Parse.test p >>= f) :=
  fun c b c' hrun => h (p c) c b c' hrun

end Begins

theorem begins_primary (o : ParseOptions) (levels b : Nat) : Begins (primary o levels b) := by
  intro c e c' hrun
  cases levels with
  | zero => cases hrun
  | succ levels =>
    cases b with
    | zero => cases hrun
    | succ b =>
      have hinside : primaryInside o (primary o levels) b c = .ok e c' := hrun
      unfold primaryInside at hinside
      rw [Parse.test_bind] at hinside
      unfold Cursor.kind
      cases hk : c.peek.kind with
      | operator op =>
        rw [hk] at hinside
        cases op <;> first | rfl | cases hinside
      | keyword k =>
        rw [hk] at hinside
        cases k <;> first | rfl | cases hinside
      | punctuation q =>
        rw [hk] at hinside
        cases q <;> first | rfl | cases hinside
      | newline | indent | dedent =>
        rw [hk] at hinside
        cases hinside
      | _ => rfl

theorem begins_statementLine (o : ParseOptions) : Begins (statementLine o) := by
  refine .bind fun c s c' hrun => ?_
  unfold statement at hrun
  rw [test_bind] at hrun
  split at hrun
  · have hname : Begins (definition o (rootPrimary o) o.maxDepth) := .bind fun c x c' hname => by
      obtain ⟨hk, -⟩ := identifier_eq_ok hname
      rw [hk]
      rfl
    exact (hname.bind (f := fun d => pure _)) c _ _ hrun
  · have hexpression : Begins (rootExpression o) :=
      .bind (.test_bind fun _ => .bind (.bind (begins_primary o _ _)))
    exact (hexpression.bind (f := fun e => pure _)) c _ _ hrun

variable {o : ParseOptions} {c last : Cursor} {ss : List Statement}

/-- A loop without errors starts where a statement may begin. -/
theorem begins_of_loopsTo (h : LoopsTo o c ss last) (hquiet : last.errors = []) : c.kind.begins = true := by
  cases h with
  | finish ended =>
    rw [TokenKind.isEof_iff.mp ended]
    rfl
  | stop => cases hquiet
  | turn more turn rest =>
    cases turn with
    | statement read => exact begins_statementLine o _ _ _ read
    | recovery mode read =>
      obtain ⟨later, hlater⟩ := errors_suffix_of_loopsTo rest
      rw [hquiet] at hlater
      exact absurd hlater (by simp [settled, Cursor.skipWhile, synchronize, Cursor.record])

/-- A loop without errors leaves no markers. -/
theorem eq_of_matches (h : LoopsTo o c ss last) (hquiet : last.errors = []) {found : List Statement}
    (hfound : List.Forall₂ Statement.Matches ss found) : found = ss := by
  have hmarkers := errors_of_loopsTo h
  rw [hquiet, List.length_nil] at hmarkers
  have hnone : ∀ s ∈ ss, s.isError = false := fun s hs => by
    have := List.countP_eq_zero.mp (show ss.countP Statement.isError = 0 by omega) s hs
    simpa using this
  clear * - hfound hnone
  induction hfound with
  | nil => rfl
  | @cons s s' ss found hs _ ih =>
    rw [ih fun t ht => hnone t (List.mem_cons_of_mem s ht)]
    rcases hs with rfl | ⟨he, -⟩
    · rfl
    · rw [hnone s List.mem_cons_self] at he
      cases he

theorem settled_of_kind (hc : c.Ended) (hline : c.kind ≠ .newline) (hblock : c.kind ≠ .dedent) :
    settled c = c := by
  have hnot : c.kind.isNewline = false ∧ c.kind.isDedent = false := by
    constructor <;> cases hk : c.kind <;> first | rfl | contradiction
  unfold settled
  rw [Seam.skipWhile_of_kind hc.rest_ne_nil hnot.1, Seam.skipWhile_of_kind hc.rest_ne_nil hnot.2]

theorem settled_of_begins (hc : c.Ended) (h : c.kind.begins = true) : settled c = c := by
  have hlayout := TokenKind.not_layout_of_begins h
  refine settled_of_kind hc (fun hk => ?_) fun hk => ?_
  all_goals
    rw [hk] at hlayout
    cases hlayout

section

variable {ts us lines body : List Token} {n m : Nat} {p p' q : Position} {bound : Nat}

/-- A text on its own, and its lines at some place `d` with something else behind them. -/
def seamOfLines (hlines : Scan.ByLines ts lines n p) (hends : EndsOnce ts) (hbound : bound ≤ p.offset)
    (q : Position) (hbegins : (Cursor.ofTokens us).kind.begins = true) (hended : (Cursor.ofTokens us).Ended)
    (hunsigned : 0 < n → ∀ u ∈ us.head?, u.kind ≠ .operator .minus) (d : Cursor) : Seam where
  line := lines
  blocks := n
  closed := p.to p
  closed' := q.to q
  last := ⟨.eof, p.to p⟩
  following := us
  before := []
  before' := d.before
  errors := []
  errors' := d.errors
  bound := bound
  ends := hlines.last
  within := hlines.within hends
  last_eof := rfl
  begins := by
    obtain ⟨u, vs, hus⟩ := hended.exists_cons
    exact ⟨u, vs, hus, kind_of_rest hus ▸ hbegins⟩
  unsigned := hunsigned
  ended := hended
  bound_le := ⟨hbound, hbound⟩

theorem anywhere_seamOfLines {hlines : Scan.ByLines ts lines n p} {hends : EndsOnce ts}
    {hbound : bound ≤ p.offset} {hbegins : (Cursor.ofTokens us).kind.begins = true}
    {hended : (Cursor.ofTokens us).Ended}
    {hunsigned : 0 < n → ∀ u ∈ us.head?, u.kind ≠ .operator .minus} {d : Cursor}
    (hrest : d.rest = lines ++ List.replicate n ⟨.dedent, q.to q⟩ ++ us) :
    (seamOfLines hlines hends hbound q hbegins hended hunsigned d).Anywhere (.ofTokens ts) d := by
  have hsplit := hlines.split
  rw [List.append_assoc] at hsplit hrest
  by_cases hnil : lines = []
  · rw [hnil, List.nil_append] at hsplit hrest
    exact .inr ⟨n, hsplit, hrest, [], rfl, rfl⟩
  · exact .inl ⟨[], lines, rfl, hnil, rfl, rfl, hsplit, hrest, [], rfl, rfl⟩

/-- A loop that starts in a text does the same over the tokens of that text at the end of a list. -/
theorem loopsTo_ending (hlines : Scan.ByLines ts lines n p) (hends : EndsOnce ts)
    (h : LoopsTo o (.ofTokens ts) ss last) (hquiet : last.errors = []) {d last' : Cursor}
    {ss' : List Statement} (hrest : d.rest = ts) (h' : LoopsTo o d ss' last') :
    ss' = ss ∧ last'.errors = d.errors := by
  have hfollow : (Cursor.ofTokens [⟨.eof, p.to p⟩]).kind.begins = true := rfl
  let S : Seam := seamOfLines hlines hends (Nat.zero_le _) p hfollow ⟨_, rfl, rfl⟩ (by simp) d
  have hanywhere : S.Anywhere (.ofTokens ts) d := anywhere_seamOfLines (hrest.trans hlines.split)
  obtain ⟨hended, hended'⟩ := hanywhere.ended
  have hbegins := begins_of_loopsTo h hquiet
  have hkind : (Cursor.ofTokens ts).kind = d.kind := kind_eq_of_rest_eq hended hrest.symm
  have hstart := hanywhere.settled
  rw [settled_of_begins hended hbegins, settled_of_begins hended' (hkind ▸ hbegins)] at hstart
  have hspills : ¬ S.Spills := by
    rintro ⟨-, hbound | hargument, -⟩
    · exact absurd hbound (Nat.lt_irrefl 0)
    · cases hargument
  have hearly : S.Early last.errors := ⟨[], hquiet, fun e he => absurd he List.not_mem_nil⟩
  obtain ⟨found, more, d', hfound, rfl, hpast, hmore⟩ :=
    Seam.loopsTo_common h hspills (.inl rfl) hearly hstart h'
  obtain ⟨new, hnew, hnew'⟩ := hpast.errors
  have hend : d'.atEnd = true := by
    rw [Cursor.atEnd, kind_of_rest hpast.rest']
    rfl
  cases hmore with
  | finish =>
    obtain rfl : new = [] := by
      rw [hquiet] at hnew
      exact (List.append_eq_nil_iff.mp hnew.symm).1
    exact ⟨by rw [List.append_nil, eq_of_matches h hquiet hfound], hnew'⟩
  | stop more => rw [hend] at more; cases more
  | turn more => rw [hend] at more; cases more

/-- The loop over two texts: what the first one comes to, and then what the second one comes to. An error
that it meets from `bound` on in the first text alone is none of them. -/
theorem loopsTo_joined (hr : Regular ts) (hlines : Scan.ByLines ts lines n p) (hends : EndsOnce us)
    (hbody : Scan.ByLines us body m p') (hbound : bound ≤ p.offset)
    (hunsigned : 0 < n → ∀ u ∈ us.head?, u.kind ≠ .operator .minus)
    (hspills : 0 < n → 0 < bound ∨ (Cursor.ofTokens us).atArgument = true → ¬ OpensInStage lines)
    (hmode : bound = 0 ∨ o.mode = .bestEffort)
    {as bs cs : List Statement} {last last' last'' : Cursor}
    (h : LoopsTo o (settled (.ofTokens ts)) as last) (hearly : ∀ e ∈ last.errors, e.span.start < bound)
    (h' : LoopsTo o (.ofTokens us) bs last') (hquiet : last'.errors = [])
    (hjoined : LoopsTo o (settled (.ofTokens (lines ++ List.replicate n ⟨.dedent, q.to q⟩ ++ us))) cs last'') :
    ∃ found, List.Forall₂ Statement.Matches as found ∧ cs = found ++ bs ∧ last''.errors = last.errors := by
  let S : Seam := seamOfLines hlines hr.ended hbound q (begins_of_loopsTo h' hquiet) hends.getLast? hunsigned
    (.ofTokens (lines ++ List.replicate n ⟨.dedent, q.to q⟩ ++ us))
  have hstart : S.Anywhere (.ofTokens ts) (.ofTokens (lines ++ List.replicate n ⟨.dedent, q.to q⟩ ++ us)) :=
    anywhere_seamOfLines rfl
  have hleveled : S.Leveled := ⟨rfl, hlines.levels hr⟩
  obtain ⟨found, more, d', hfound, rfl, hpast, hmore⟩ :=
    Seam.loopsTo_common h (fun ⟨hn, hgoes, hopens⟩ => hspills hn hgoes hopens)
      (hmode.imp_right fun hm => ⟨hm, hleveled⟩) ⟨last.errors, (List.append_nil _).symm, hearly⟩
      hstart.settled hjoined
  obtain ⟨rfl, hlast⟩ := loopsTo_ending hbody hends h' hquiet hpast.rest' hmore
  obtain ⟨new, hnew, hnew'⟩ := hpast.errors
  exact ⟨found, hfound, rfl, by rw [hlast, hnew, hnew']; rfl⟩

end

end Parse

/-! ## Two texts -/

/-- The last line of the text is in a block. -/
def EndsInBlock (ts : List Token) : Prop := ∃ t ∈ ts.dropLast.getLast?, t.kind = .dedent

/-- What a text begins with that may come after another one: no empty line, and no sign right after a block,
where an operation may go on. -/
structure MayFollow (ts us : List Token) : Prop where
  first : ∀ u ∈ us.head?, u.kind ≠ .newline
  unsigned : EndsInBlock ts → ∀ u ∈ us.head?, u.kind ≠ .operator .minus

theorem Scan.ByLines.endsInBlock {ts lines : List Token} {n : Nat} {p : Position}
    (h : ByLines ts lines n p) (hn : 0 < n) : EndsInBlock ts := by
  obtain ⟨n, rfl⟩ : ∃ m, n = m + 1 := ⟨n - 1, by omega⟩
  refine ⟨⟨.dedent, p.to p⟩, ?_, rfl⟩
  rw [h.split, List.dropLast_concat, List.replicate_succ', ← List.append_assoc, List.getLast?_concat]
  rfl

theorem OpensInStage.of_prefix {ts us : List Token} (h : OpensInStage ts) (hs : ts <+: us) :
    OpensInStage us := by
  obtain ⟨more, rfl⟩ := hs
  obtain ⟨l, t, r, rfl, ht, ⟨u, hu, hident⟩, l', t', u', r', rfl, hbinary, hconstruct⟩ := h
  refine ⟨l, t, l' ++ t' :: u' :: r' ++ more, by simp, ht, ⟨u, ?_, hident⟩, l', t', u', r' ++ more, by simp,
    hbinary, hconstruct⟩
  rw [List.head?_append, Option.mem_def.mp hu]
  rfl

theorem Regular.first_not_dedent {ts : List Token} (h : Regular ts) : ∀ t ∈ ts.head?, t.kind ≠ .dedent := by
  intro t ht hk
  obtain ⟨rest, hrest⟩ := List.head?_eq_some_iff.mp ht
  obtain ⟨u, hu, -⟩ := h.dedents (show ts = [] ++ t :: rest from hrest) hk
  cases hu

namespace Parse

variable {o : ParseOptions} {a b : String} {ts us : List Token}

theorem loopsTo_of_first (hends : EndsOnce us) (hline : ∀ u ∈ us.head?, u.kind ≠ .newline)
    (hblock : ∀ u ∈ us.head?, u.kind ≠ .dedent) :
    LoopsTo o (.ofTokens us) (run o us).1.statements
      (statementsUpTo o (us.length + 1) (.ofTokens us)).2 := by
  have hended : (Cursor.ofTokens us).Ended := hends.getLast?
  obtain ⟨u, vs, hus⟩ := List.exists_cons_of_ne_nil hended.rest_ne_nil
  have hkind : (Cursor.ofTokens us).kind = u.kind := kind_of_rest hus
  have hhead : u ∈ us.head? := by rw [show us = _ from hus]; rfl
  have hloop := loopsTo_statementsUpTo (o := o) (us.length + 1) (.ofTokens us) hended (Nat.lt_succ_self _)
  rwa [settled_of_kind hended (hkind ▸ hline u hhead) (hkind ▸ hblock u hhead), ← run_statements] at hloop

/-- A run over two texts, the second of which has no errors. -/
theorem run_appended (ha : Scan.lex a = .ok ts) (hlast : a.toList.getLast? = some '\n')
    (hclosed : openBrackets [] ts = some []) (hb : Scan.lex b = .ok us) (hfollows : MayFollow ts us)
    (hquiet : (run o us).2 = []) {bound : Nat} (hbound : bound ≤ a.utf8ByteSize)
    (hspills : EndsInBlock ts → 0 < bound ∨ (Cursor.ofTokens us).atArgument = true → ¬ OpensInStage ts)
    (hmode : bound = 0 ∨ o.mode = .bestEffort) (hearly : ∀ e ∈ (run o ts).2, e.span.start < bound) :
    ∃ more found, Scan.lex (a ++ b) = .ok more ∧
      List.Forall₂ Statement.Matches (run o ts).1.statements found ∧
      (run o more).1.statements = found ++ (run o us).1.statements.map
        (Statement.relocate (Span.shift ⟨a.utf8ByteSize, a.toList.count '\n'⟩)) ∧
      (run o more).2 = (run o ts).2 := by
  set d : Shift := ⟨a.utf8ByteSize, a.toList.count '\n'⟩ with hd
  obtain ⟨hascan, hats⟩ := Scan.lex_eq_ok.mp ha
  obtain ⟨hbscan, hbus⟩ := Scan.lex_eq_ok.mp hb
  have hr : Regular ts := hats ▸ Scan.regular_scan hascan
  have hr' : Regular us := hbus ▸ Scan.regular_scan hbscan
  have hblock := hr'.first_not_dedent
  have hindent : ∀ u ∈ us.head?, u.kind ≠ .indent := fun u hu hk => by
    have hbegins := begins_of_loopsTo (loopsTo_of_first hr'.ended hfollows.first hblock)
      (List.reverse_eq_nil_iff.mp hquiet)
    obtain ⟨vs, hus⟩ := List.head?_eq_some_iff.mp hu
    rw [kind_of_rest (c := .ofTokens us) hus, hk] at hbegins
    cases hbegins
  obtain ⟨lines, n, p, q, hlines, hplace, hjoined⟩ := Scan.lex_joined ha hlast hclosed hb hindent
  obtain ⟨body, m, p', hbody⟩ := Scan.byLines_of_lex hb
  obtain ⟨hmoved, hquiet'⟩ := run_shift (d := d) hr' hquiet
  have hlines' : lines <+: ts := by
    rw [hlines.split, List.append_assoc]
    exact List.prefix_append _ _
  have hargument : (Cursor.ofTokens us).atArgument =
      (Cursor.ofTokens (us.map (Token.relocate (Span.shift d)))).atArgument :=
    (Cursor.Alike.ofTokens hr'.alike_shift).look .argument
  have hfinal : Regular (lines ++ List.replicate n ⟨.dedent, q.to q⟩ ++
      us.map (Token.relocate (Span.shift d))) := by
    obtain ⟨hscan, htokens⟩ := Scan.lex_eq_ok.mp hjoined
    exact htokens ▸ Scan.regular_scan hscan
  obtain ⟨found, hfound, hall, herrors⟩ := loopsTo_joined hr hlines hr'.ended.relocate (hbody.relocate d)
    (hplace ▸ hbound) (fun hn => forall_head?_relocate rfl (hfollows.unsigned (hlines.endsInBlock hn)))
    (fun hn hgoes hopens => hspills (hlines.endsInBlock hn) (hargument ▸ hgoes) (hopens.of_prefix hlines'))
    hmode (loopsTo_run hr.delimited) (fun e he => hearly e (List.mem_reverse.mpr he))
    (loopsTo_of_first hr'.ended.relocate (forall_head?_relocate rfl hfollows.first)
      (forall_head?_relocate rfl hblock)) (List.reverse_eq_nil_iff.mp hquiet') (loopsTo_run hfinal.delimited)
  rw [← run_statements] at hfound hall
  exact ⟨_, found, hjoined, hfound, by rw [hall, hmoved], congrArg List.reverse herrors⟩

end Parse

/-! ## Statements and keys -/

theorem Statement.isError_desugar (o : ParseOptions) (s : Statement) : (s.desugar o).isError = s.isError := by
  unfold desugar
  split
  · cases s <;> rfl
  · rfl

theorem Statement.Matches.desugar {s s' : Statement} (h : s.Matches s') (o : ParseOptions) :
    (s.desugar o).Matches (s'.desugar o) :=
  h.imp (congrArg (Statement.desugar o)) fun ⟨he, he'⟩ =>
    ⟨(s.isError_desugar o).trans he, (s'.isError_desugar o).trans he'⟩

/-- The statements of two programs, of which the second one stands further on. -/
theorem Program.desugar_appended (o : ParseOptions) {q r : Program} {found : List Statement} {d : Shift}
    (h : r.statements = found ++ q.statements.map (Statement.relocate (Span.shift d))) :
    (r.desugar o).statements = found.map (Statement.desugar o) ++
      (q.desugar o).statements.map (Statement.relocate (Span.shift d)) := by
  rw [statements_desugar, statements_desugar, h, List.map_append, List.map_map, List.map_map]
  exact congrArg _ (List.map_congr_left fun s _ => s.desugar_relocate o d)

theorem Statement.Matches.value? {s s' : Statement} (h : s.Matches s') : s.value? = s'.value? := by
  rcases h with rfl | ⟨h, h'⟩
  · rfl
  · cases s <;> cases h
    cases s' <;> cases h'
    rfl

/-- The keys of the second program are in order, so the reports are those on the first one. -/
theorem Program.keyErrors_appended {p q r : Program} {found : List Statement} {d : Shift}
    (hfound : List.Forall₂ Statement.Matches p.statements found)
    (h : r.statements = found ++ q.statements.map (Statement.relocate (Span.shift d)))
    (hq : q.keyErrors = []) : r.keyErrors = p.keyErrors := by
  have hmoved : (q.relocate (Span.shift d)).keyErrors = [] := by
    rw [Program.keyErrors_relocate, hq]
    rfl
  have hvalues : p.values = found.filterMap Statement.value? := by
    unfold values
    generalize p.statements = ss at hfound
    clear * - hfound
    induction hfound with
    | nil => rfl
    | cons hs _ ih => rw [List.filterMap_cons, List.filterMap_cons, ih, hs.value?]
  have hall : r.values = p.values ++ (q.relocate (Span.shift d)).values := by
    rw [values, h, List.filterMap_append, hvalues]
    rfl
  unfold keyErrors at hmoved ⊢
  rw [hall, List.flatMap_append, hmoved, List.append_nil]

/-! ## Programs -/

section

variable {o : ParseOptions} {a b : String} {ts us : List Token} {p q : Program}

/-- A program after another one. The statements are those of the first one and then those of the second one,
unless the first one ends in a block and the second one begins with a sign or with an argument for a stage
there. -/
theorem parse_append (ha : Scan.lex a = .ok ts) (hb : Scan.lex b = .ok us) (hp : parse o ts = .ok p)
    (hq : parse o us = .ok q) (hlast : a.toList.getLast? = some '\n')
    (hclosed : openBrackets [] ts = some []) (hfollows : MayFollow ts us)
    (hargument : EndsInBlock ts → OpensInStage ts → (Cursor.ofTokens us).atArgument = false) :
    ∃ more r, Scan.lex (a ++ b) = .ok more ∧ parse o more = .ok r ∧
      r.statements = p.statements ++ q.statements.map
        (Statement.relocate (Span.shift ⟨a.utf8ByteSize, a.toList.count '\n'⟩)) := by
  obtain ⟨hquiet, hkeys, rfl⟩ := parse_eq_ok.mp hp
  obtain ⟨hquiet', hkeys', rfl⟩ := parse_eq_ok.mp hq
  obtain ⟨more, found, hjoined, hfound, hall, herrors⟩ := Parse.run_appended ha hlast hclosed hb hfollows hquiet'
    (Nat.zero_le _) (fun hblock hgoes hopens => by
      rcases hgoes with hgoes | hgoes
      · exact absurd hgoes (Nat.lt_irrefl 0)
      · rw [hargument hblock hopens] at hgoes
        cases hgoes) (.inl rfl) (fun e he => by rw [hquiet] at he; cases he)
  have hnone : (Parse.run o more).1.keyErrors = [] := (Program.keyErrors_appended hfound hall hkeys').trans hkeys
  obtain ⟨hscan, hats⟩ := Scan.lex_eq_ok.mp ha
  have hsame : found = (Parse.run o ts).1.statements := by
    rw [Parse.run_statements] at hfound ⊢
    exact Parse.eq_of_matches (Parse.loopsTo_run (hats ▸ Scan.regular_scan hscan).delimited)
      (List.reverse_eq_nil_iff.mp hquiet) hfound
  refine ⟨more, (Parse.run o more).1.desugar o, hjoined, ?_, ?_⟩
  · exact parse_eq_ok.mpr ⟨herrors.trans hquiet, hnone, rfl⟩
  · rw [Program.desugar_appended o hall, hsame, ← Program.statements_desugar]

/-- An operation among the arguments of a stage ends in a block, and a construct follows, which is no
argument. -/
theorem parse_append_construct :
    let a := "x |> f 1 + match y\n  | 1 -> a\n"
    let b := "if b then c else d\n\"\x7be\x7d\"\n"
    ∃ ts us p q more r, Scan.lex a = .ok ts ∧ Scan.lex b = .ok us ∧ parse {} ts = .ok p ∧
      parse {} us = .ok q ∧ p.statements.length = 1 ∧ q.statements.length = 2 ∧
      Scan.lex (a ++ b) = .ok more ∧ parse {} more = .ok r ∧
      r.statements = p.statements ++ q.statements.map
        (Statement.relocate (Span.shift ⟨a.utf8ByteSize, a.toList.count '\n'⟩)) := by
  intro a b
  have ha : ((Scan.lex a).toOption.bind fun ts => (parse {} ts).toOption.map (·.statements.length)) =
      some 1 := by decide +kernel
  have hb : ((Scan.lex b).toOption.bind fun us => (parse {} us).toOption.map (·.statements.length)) =
      some 2 := by decide +kernel
  have hclosed : (Scan.lex a).toOption.map (openBrackets []) = some (some []) := by decide +kernel
  have hfirst : (Scan.lex b).toOption.map (fun us => (us.head?.map (·.kind.isConstruct),
      (Cursor.ofTokens us).atArgument)) = some (some true, false) := by decide +kernel
  obtain ⟨ts, p, hats, hp, hplength⟩ := exists_of_read ha
  obtain ⟨us, q, hbus, hq, hqlength⟩ := exists_of_read hb
  rw [hats] at hclosed
  rw [hbus] at hfirst
  obtain ⟨hhead, hargument⟩ := Prod.mk.inj (Option.some.inj hfirst)
  have hkind : ∀ u ∈ us.head?, u.kind.isConstruct = true := fun u hu => by
    rw [Option.mem_def.mp hu] at hhead
    exact Option.some.inj hhead
  have hfollows : MayFollow ts us := by
    refine ⟨fun u hu hk => ?_, fun _ u hu hk => ?_⟩
    all_goals
      have hconstruct := hkind u hu
      rw [hk] at hconstruct
      cases hconstruct
  obtain ⟨more, r, h⟩ := parse_append hats hbus hp hq (by decide +kernel) (Option.some.inj hclosed) hfollows
    fun _ _ => hargument
  exact ⟨ts, us, p, q, more, r, hats, hbus, hp, hq, hplength, hqlength, h⟩

/-- Recovery in the first text leaves the second one as it is, if all errors are before the end of the first
one's last line. -/
theorem parseBestEffort_append (ha : Scan.lex a = .ok ts) (hb : Scan.lex b = .ok us)
    (hq : parse { o with mode := .strict } us = .ok q) (hlast : a.toList.getLast? = some '\n')
    (hclosed : openBrackets [] ts = some []) (hfollows : MayFollow ts us)
    (hopens : EndsInBlock ts → ¬ OpensInStage ts)
    (hearly : ∀ e ∈ (parseBestEffort o ts).2, e.span.start < a.utf8ByteSize) :
    ∃ more ss, Scan.lex (a ++ b) = .ok more ∧
      List.Forall₂ Statement.Matches (parseBestEffort o ts).1.statements ss ∧
      (parseBestEffort o more).1.statements = ss ++ q.statements.map
        (Statement.relocate (Span.shift ⟨a.utf8ByteSize, a.toList.count '\n'⟩)) ∧
      (parseBestEffort o more).2 = (parseBestEffort o ts).2 := by
  obtain ⟨hquiet, hkeys, rfl⟩ := parse_eq_ok.mp hq
  have htree : ∀ ts, (parseBestEffort o ts).1 = (Parse.run { o with mode := .bestEffort } ts).1.desugar o :=
    fun _ => rfl
  rcases Parse.run_inModes o (h := .any) (fun _ => trivial) (fun t (_ : t ∈ us) _ _ => trivial) with
    ⟨hsame, -⟩ | ⟨e, errors, hfailed, -, -⟩
  · obtain ⟨more, found, hjoined, hfound, hall, herrors⟩ := Parse.run_appended
      (o := { o with mode := .bestEffort }) ha hlast hclosed hb hfollows (by rw [hsame, hquiet])
      (Nat.le_refl _) (fun hblock _ => hopens hblock) (.inr rfl)
      (fun e he => hearly e (List.mem_append_left _ he))
    rw [hsame] at hall
    refine ⟨more, found.map (Statement.desugar o), hjoined, ?_, ?_, ?_⟩
    · rw [htree, Program.statements_desugar, List.forall₂_map_left_iff, List.forall₂_map_right_iff]
      exact hfound.imp fun _ _ hs => hs.desugar o
    · rw [htree]
      exact Program.desugar_appended o hall
    · show (Parse.run _ more).2 ++ (Parse.run _ more).1.keyErrors = _
      rw [herrors, Program.keyErrors_appended hfound hall hkeys]
      rfl
  · rw [hquiet] at hfailed
    cases hfailed

/-- A stage without a name, in a text that ends in a block. -/
theorem parseBestEffort_append_block :
    let a := "x |> 1\nmatch y\n  | 1 -> a\n"
    let b := "f x\n\"\x7be\x7d\"\n"
    ∃ ts us q more ss, Scan.lex a = .ok ts ∧ Scan.lex b = .ok us ∧ parse {} us = .ok q ∧
      (parseBestEffort {} ts).2.length = 1 ∧ q.statements.length = 2 ∧ Scan.lex (a ++ b) = .ok more ∧
      List.Forall₂ Statement.Matches (parseBestEffort {} ts).1.statements ss ∧
      (parseBestEffort {} more).1.statements = ss ++ q.statements.map
        (Statement.relocate (Span.shift ⟨a.utf8ByteSize, a.toList.count '\n'⟩)) ∧
      (parseBestEffort {} more).2 = (parseBestEffort {} ts).2 := by
  intro a b
  have ha : (Scan.lex a).toOption.map (fun ts => (openBrackets [] ts, ts.any (·.kind.binary?.isSome),
      (parseBestEffort {} ts).2.map (·.span.start))) = some (some [], false, [5]) := by decide +kernel
  have hb : ((Scan.lex b).toOption.bind fun us => (parse {} us).toOption.map (·.statements.length)) =
      some 2 := by decide +kernel
  have hfirst : (Scan.lex b).toOption.map (fun us => us.head?.map (·.kind.isIdent)) = some (some true) := by
    decide +kernel
  obtain ⟨us, q, hbus, hq, hqlength⟩ := exists_of_read hb
  obtain ⟨ts, hats, ha⟩ := Option.map_eq_some_iff.mp ha
  have hats : Scan.lex a = .ok ts := eq_ok_of_toOption hats
  rw [hbus] at hfirst
  obtain ⟨hclosed, hrest⟩ := Prod.mk.inj ha
  obtain ⟨hplain, hstarts⟩ := Prod.mk.inj hrest
  have hkind : ∀ u ∈ us.head?, u.kind.isIdent = true := fun u hu => by
    have hhead : us.head?.map (·.kind.isIdent) = some true := Option.some.inj hfirst
    rw [Option.mem_def.mp hu] at hhead
    exact Option.some.inj hhead
  have hfollows : MayFollow ts us := by
    refine ⟨fun u hu hk => ?_, fun _ u hu hk => ?_⟩
    all_goals
      have hident := hkind u hu
      rw [hk] at hident
      cases hident
  have hopens : ¬ OpensInStage ts := by
    rintro ⟨l, t, r, rfl, -, -, l', u, v, r', rfl, hbinary, -⟩
    rw [List.any_eq_false] at hplain
    exact hplain u (by simp) hbinary
  have hearly : ∀ e ∈ (parseBestEffort {} ts).2, e.span.start < a.utf8ByteSize := fun e he => by
    have hmem : e.span.start ∈ [5] := hstarts ▸ List.mem_map_of_mem he
    rw [List.mem_singleton.mp hmem]
    decide +kernel
  have hlength : (parseBestEffort {} ts).2.length = 1 := by simpa using congrArg List.length hstarts
  obtain ⟨more, ss, h⟩ := parseBestEffort_append (o := {}) hats hbus hq (by decide +kernel) hclosed hfollows
    (fun _ => hopens) hearly
  exact ⟨ts, us, q, more, ss, hats, hbus, hq, hlength, hqlength, h⟩

end

end PipeLang
