import PipeLang.Proofs.Parse.DerivedProgram
import PipeLang.Proofs.Parse.Loops
import PipeLang.Proofs.Scan.Tiles

/-! The loop over the statements. Each turn of it, also one that goes on after an error, takes a token and
stays in the list, whatever the tokens are, as long as an end marker stands last. So the loop ends, there
are no more statements than tokens, and every statement that could not be read has an error on record. -/

namespace PipeLang

/-- Empty, or with an end marker last, and so are the token lists of its interpolations. -/
def Delimited (tokens : List Token) : Prop :=
  ∀ us, Embedded us tokens → us = [] ∨ ∃ t, us.getLast? = some t ∧ t.kind = .eof

/-- The tokens of a text are delimited. -/
theorem Regular.delimited {tokens : List Token} (h : Regular tokens) : Delimited tokens := by
  suffices hends : ∀ {us ts : List Token}, Embedded us ts → EndsOnce ts → (∀ t ∈ ts, t.Enclosed) →
      EndsOnce us from fun us hus => .inr (hends hus h.ended h.interpolations).getLast?
  intro us ts hus
  induction hus with
  | self => exact fun hends _ => hends
  | hole mem kind part _ ih =>
    intro _ henclosed
    obtain ⟨hline, hinside⟩ := (henclosed _ mem).hole kind part
    exact ih hline.ended hinside

/-- Whether the statement could not be read. -/
def Statement.isError : Statement → Bool
  | error _ => true
  | _ => false

namespace Cursor

variable {c d : Cursor}

theorem final_eq (c : Cursor) :
    c.final = ((c.before.reverse ++ c.rest).getLast?).getD .last := by
  unfold final
  cases hlast : c.rest.getLast? with
  | some t => rw [List.getLast?_append, hlast]; rfl
  | none =>
    obtain hnil : c.rest = [] := List.getLast?_eq_none_iff.mp hlast
    rw [hnil, List.append_nil, List.getLast?_reverse]

/-- In a delimited list the cursor is at an end marker, or one is still ahead. -/
theorem ended_or_eof {us : List Token} (hus : us = [] ∨ ∃ t, us.getLast? = some t ∧ t.kind = .eof)
    (hc : c.before.reverse ++ c.rest = us) : (c.kind = .eof ∨ c.Ended) ∧ c.final.kind = .eof := by
  have hfinal : c.final.kind = .eof := by
    rw [final_eq, hc]
    rcases hus with rfl | ⟨t, ht, hk⟩
    · rfl
    · rw [ht]
      exact hk
  refine ⟨?_, hfinal⟩
  cases hrest : c.rest with
  | nil =>
    refine .inl ?_
    unfold final at hfinal
    unfold kind peek
    rw [hrest] at hfinal ⊢
    exact hfinal
  | cons t ts =>
    rcases hus with rfl | ⟨u, hu, hk⟩
    · rw [hrest] at hc
      simp at hc
    · refine .inr ⟨u, ?_, hk⟩
      rwa [← hc, List.getLast?_append_of_ne_nil _ (by simp [hrest])] at hu

theorem Onward.length (h : c.Onward d) :
    d.before.length + d.rest.length = c.before.length + c.rest.length := by
  obtain ⟨-, taken, hrest, hbefore⟩ := h
  rw [hrest, hbefore, List.length_append, List.length_append, List.length_reverse]
  omega

theorem Onward.length_le (h : c.Onward d) : d.rest.length ≤ c.rest.length := by
  obtain ⟨-, taken, hrest, -⟩ := h
  rw [hrest, List.length_append]
  exact Nat.le_add_left _ _

theorem Onward.rest_eq (h : c.Onward d) (hl : c.rest.length = d.rest.length) : c.rest = d.rest := by
  obtain ⟨-, taken, hrest, -⟩ := h
  rw [hrest, List.length_append] at hl
  have hnil : taken = [] := List.length_eq_zero_iff.mp (by omega)
  rw [hrest, hnil, List.nil_append]

theorem Onward.record (h : c.Onward d) (e : Diagnostic) : c.Onward (d.record e) := h

theorem Onward.tokens (h : c.Onward d) :
    d.before.reverse ++ d.rest = c.before.reverse ++ c.rest := by
  obtain ⟨-, taken, hrest, hbefore⟩ := h
  rw [hrest, hbefore]
  simp

theorem Onward.skipWhile (h : c.Ended) {p : TokenKind → Bool} (hp : p .eof = false) :
    c.Onward (c.skipWhile p) := by
  have hsplit : c.rest = (c.rest.takeWhile fun t => p t.kind) ++ (c.skipWhile p).rest :=
    List.takeWhile_append_dropWhile.symm
  refine ⟨h.of_suffix ⟨_, hsplit.symm⟩ fun hnil => ?_, _, hsplit, rfl⟩
  obtain ⟨t, ht, hk⟩ := h
  rw [hnil, List.append_nil] at hsplit
  have hskipped := List.mem_takeWhile_imp (p := fun t : Token => p t.kind)
    (hsplit ▸ List.mem_of_getLast? ht)
  rw [hk, hp] at hskipped
  cases hskipped

end Cursor

namespace Parse

open Cursor

variable {o : ParseOptions} {c c' : Cursor}

theorem onward_settled (h : c.Ended) : c.Onward (settled c) := by
  have hlines := Onward.skipWhile h (p := TokenKind.isNewline) rfl
  exact hlines.trans (.skipWhile hlines.1 rfl)

/-- Recovery takes a token, unless it starts at an end marker. -/
theorem onward_synchronize (h : c.Ended) :
    c.Onward (synchronize c) ∧ (c.kind = .eof ∨ (synchronize c).rest.length < c.rest.length) := by
  obtain ⟨skipped, hrest, hbefore, hne, -, hprogress⟩ := seekLine_spec h c.level c.before c.level_eq
  have hrest : c.rest = skipped ++ (synchronize c).rest := hrest
  refine ⟨⟨h.of_suffix ⟨_, hrest.symm⟩ hne, skipped, hrest, hbefore⟩, ?_⟩
  rcases hprogress with ⟨t, ht, hk⟩ | hskipped
  · obtain ⟨ts, hts⟩ := List.head?_eq_some_iff.mp ht
    exact .inl ((kind_of_rest hts).trans hk)
  · have := List.length_pos_iff.mpr hskipped
    rw [hrest, List.length_append]
    exact .inr (by omega)

theorem kind_eq_of_rest_eq {d : Cursor} (h : c.Ended) (hrest : c.rest = d.rest) : c.kind = d.kind := by
  obtain ⟨t, ts, ht⟩ := h.exists_cons
  rw [kind_of_rest ht, kind_of_rest (hrest ▸ ht)]

theorem onward_of_read {s : Statement} (h : c.Ended) (read : statementLine o c = .ok s c') :
    c.Onward c' ∧ c'.rest.length < c.rest.length :=
  ⟨onward_of_statementLine o h read, (moves_statementLine o c h _ _ read).2⟩

theorem onward_of_recovery {d : Diagnostic} (h : c.Ended) (more : c.atEnd = false)
    (read : statementLine o c = .error d c') :
    c.Onward (synchronize (c'.record d)) ∧ (synchronize (c'.record d)).rest.length < c.rest.length := by
  have hfailed : c.Onward (c'.record d) := (onward_statementLine o h read).record d
  obtain ⟨hsync, hprogress⟩ := onward_synchronize hfailed.1
  refine ⟨hfailed.trans hsync, ?_⟩
  rcases hprogress with heof | hless
  · -- the error came at an end marker, and tokens were taken on the way there
    refine hsync.length_le.trans_lt (hfailed.length_le.lt_of_ne fun heq => ?_)
    have hkind : c.kind = .eof := (kind_eq_of_rest_eq h (hfailed.rest_eq heq.symm)).trans heof
    rw [Cursor.atEnd, hkind] at more
    cases more
  · exact hless.trans_le hfailed.length_le

/-! ## The record of errors -/

/-- Results that both keep the errors on record. -/
inductive Recording (errors : List Diagnostic) (R : α → β → Prop) :
    EStateM.Result Diagnostic Cursor α → EStateM.Result Diagnostic Cursor β → Prop
  | ok {a : α} {b : β} {c : Cursor} (value : R a b) (kept : errors <:+ c.errors) :
    Recording errors R (.ok a c) (.ok b c)
  | error {d d' : Diagnostic} {c : Cursor} (kept : errors <:+ c.errors) :
    Recording errors R (.error d c) (.error d' c)

theorem Recording.of_suffix {α β : Type} {R : α → β → Prop} {errors errors' : List Diagnostic}
    {r : EStateM.Result Diagnostic Cursor α} {r' : EStateM.Result Diagnostic Cursor β}
    (h : errors <:+ errors') (hr : Recording errors' R r r') : Recording errors R r r' := by
  cases hr with
  | ok value kept => exact .ok value (h.trans kept)
  | error kept => exact .error (h.trans kept)

/-- The grammar beside itself, with the errors on record. -/
def recording (o : ParseOptions) : Coupling o o where
  left := id
  right := id
  holes := (· = ·)
  budgets := (· = ·)
  agree R x y := ∀ c, Recording c.errors R (x c) (y c)
  resolve := .inl rfl
  merge := Coupling.merge_id
  succ := Coupling.succ_eq
  ret h := fun _ => .ok h List.suffix_rfl
  bind {_ _ _ _ _ _ x y f g} hx hf := by
    intro c
    have hout := hx c
    generalize hxc : x c = r at hout
    generalize hyc : y c = r' at hout
    cases hout with
    | ok value kept =>
      rw [bind_of_ok hxc, bind_of_ok hyc]
      exact (hf _ _ value _).of_suffix kept
    | error kept =>
      rw [bind_of_error hxc, bind_of_error hyc]
      exact .error kept
  peek := fun _ => .ok (.refl fun _ _ => rfl) List.suffix_rfl
  look _ := fun _ => .ok rfl List.suffix_rfl
  skip := fun c => .ok rfl (by rw [Cursor.next_errors])
  openBlock {p} _ := by
    intro c
    unfold openBlock
    split
    · exact .ok rfl (by rw [Cursor.forward_errors, Cursor.forward_errors])
    · exact .ok rfl List.suffix_rfl
  fail _ := fun _ => .error List.suffix_rfl
  deep h hy := by
    intro c
    rw [hy h.symm]
    exact .error List.suffix_rfl
  bounded _ h := fun c => h _ c

theorem recording_hole (o : ParseOptions) (p : Primary) (b : Nat) (ts : List Token) (s : Span) :
    (recording o).agree ((recording o).same Expr.relocate) (hole o p b ts s) (hole o p b ts s) := by
  intro c
  unfold hole
  split
  · exact .ok rfl List.suffix_rfl
  · exact .ok rfl (List.suffix_cons _ _)
  · exact .error List.suffix_rfl

theorem recording_primary (o : ParseOptions) (levels : Nat) : ∀ b,
    (recording o).agree ((recording o).same Expr.relocate) (primary o levels b) (primary o levels b) := by
  induction levels with
  | zero => exact fun b => (recording o).deep (b := 0) rfl fun _ => rfl
  | succ levels ih =>
    intro b
    cases b with
    | zero => exact (recording o).deep (b := 0) rfl fun _ => rfl
    | succ b =>
      refine Coupling.primaryInside (C := recording o) (moves_primary o levels)
        (fun {b _} h => by cases h; exact ih b) rfl fun hts hs => ?_
      obtain rfl := hts
      obtain rfl := hs
      exact recording_hole o _ b _ _

theorem recording_statementLine (o : ParseOptions) (c : Cursor) :
    Recording c.errors ((recording o).same Statement.relocate) (statementLine o c) (statementLine o c) :=
  Coupling.statementLine (C := recording o)
    (fun {b _} h => by cases h; exact recording_primary o _ b) rfl c

/-- A statement that could be read is no marker. -/
theorem isError_of_read {s : Statement} (read : statementLine o c = .ok s c') : s.isError = false := by
  obtain ⟨t, c1, hstatement, read⟩ := bind_eq_ok.mp read
  obtain ⟨-, c2, -, read⟩ := bind_eq_ok.mp read
  cases read
  unfold statement at hstatement
  rw [test_bind] at hstatement
  split at hstatement
  · obtain ⟨d, c3, -, hpure⟩ := bind_eq_ok.mp hstatement
    cases hpure
    rfl
  · obtain ⟨e, c3, -, hpure⟩ := bind_eq_ok.mp hstatement
    cases hpure
    rfl

/-! ## The loop over the statements -/

/-- A turn of the loop, from the start of a statement to where the next one is looked for, with the
statement or the marker that it adds. -/
inductive Iteration (o : ParseOptions) (c : Cursor) : Statement → Cursor → Prop
  | statement {c' : Cursor} {s : Statement} (read : statementLine o c = .ok s c') :
    Iteration o c s (settled c')
  | recovery {c' : Cursor} {d : Diagnostic} (mode : o.mode = .bestEffort)
    (read : statementLine o c = .error d c') :
    Iteration o c (.error (c.spanSince (synchronize (c'.record d))))
      (settled (synchronize (c'.record d)))

/-- What the loop comes to, however many turns it takes. -/
inductive LoopsTo (o : ParseOptions) : Cursor → List Statement → Cursor → Prop
  | finish {c : Cursor} (ended : c.atEnd = true) : LoopsTo o c [] c
  | stop {c c' : Cursor} {d : Diagnostic} (more : c.atEnd = false) (mode : o.mode = .strict)
    (read : statementLine o c = .error d c') : LoopsTo o c [] (c'.record d)
  | turn {c c' last : Cursor} {s : Statement} {ss : List Statement} (more : c.atEnd = false)
    (turn : Iteration o c s c') (rest : LoopsTo o c' ss last) : LoopsTo o c (s :: ss) last

/-- A turn takes a token. -/
theorem onward_of_iteration {s : Statement} (h : c.Ended) (more : c.atEnd = false)
    (turn : Iteration o c s c') : c.Onward c' ∧ c'.rest.length < c.rest.length := by
  have hsettled : ∀ {e : Cursor}, c.Onward e ∧ e.rest.length < c.rest.length →
      c.Onward (settled e) ∧ (settled e).rest.length < c.rest.length := fun ⟨he, hless⟩ =>
    ⟨he.trans (onward_settled he.1), (onward_settled he.1).length_le.trans_lt hless⟩
  cases turn with
  | statement read => exact hsettled (onward_of_read h read)
  | recovery mode read => exact hsettled (onward_of_recovery h more read)

/-- The bound on the turns is never what ends the loop. -/
theorem loopsTo_statementsUpTo (n : Nat) : ∀ c : Cursor, c.Ended → c.rest.length < n →
    LoopsTo o (settled c) (statementsUpTo o n c).1 (statementsUpTo o n c).2 := by
  induction n with
  | zero => exact fun _ _ hn => absurd hn (Nat.not_lt_zero _)
  | succ n ih =>
    intro c hc hn
    have hstart := onward_settled hc
    have hle := hstart.length_le
    unfold statementsUpTo
    dsimp only
    cases hend : (settled c).atEnd with
    | true => exact .finish hend
    | false =>
      rw [if_neg Bool.false_ne_true]
      cases hread : statementLine o (settled c) with
      | ok s c' =>
        obtain ⟨honward, hless⟩ := onward_of_read hstart.1 hread
        exact .turn hend (.statement hread) (ih c' honward.1 (by omega))
      | error d c' =>
        cases hmode : o.mode with
        | strict => exact .stop hend hmode hread
        | bestEffort =>
          obtain ⟨honward, hless⟩ := onward_of_recovery hstart.1 hend hread
          exact .turn hend (.recovery hmode hread) (ih _ honward.1 (by omega))

theorem length_le_of_loopsTo {ss : List Statement} {last : Cursor} (h : LoopsTo o c ss last)
    (hc : c.Ended) : ss.length ≤ c.rest.length := by
  induction h with
  | finish | stop => exact Nat.zero_le _
  | turn more turn rest ih =>
    obtain ⟨honward, hless⟩ := onward_of_iteration hc more turn
    have := ih honward.1
    rw [List.length_cons]
    omega

/-- A turn that adds a marker adds an error to the record. -/
theorem errors_of_iteration {s : Statement} (turn : Iteration o c s c') :
    (if s.isError then 1 else 0) + c.errors.length ≤ c'.errors.length := by
  have hline := recording_statementLine o c
  cases turn with
  | statement read =>
    rw [isError_of_read read, if_neg Bool.false_ne_true, Nat.zero_add]
    rw [read] at hline
    cases hline with
    | ok _ kept => exact kept.length_le
  | recovery mode read =>
    rw [read] at hline
    cases hline with
    | error kept =>
      have := kept.length_le
      show 1 + c.errors.length ≤ _ + 1
      omega

theorem errors_of_loopsTo {ss : List Statement} {last : Cursor} (h : LoopsTo o c ss last) :
    ss.countP Statement.isError + c.errors.length ≤ last.errors.length := by
  induction h with
  | finish => simp
  | @stop c c' d more mode read =>
    have hline := recording_statementLine o c
    rw [read] at hline
    cases hline with
    | error kept =>
      have := kept.length_le
      show 0 + c.errors.length ≤ c'.errors.length + 1
      omega
  | turn more turn rest ih =>
    have := errors_of_iteration turn
    rw [List.countP_cons]
    omega

theorem loopsTo_run {tokens : List Token} (h : Delimited tokens) :
    LoopsTo o (settled (.ofTokens tokens)) (statementsUpTo o (tokens.length + 1) (.ofTokens tokens)).1
      (statementsUpTo o (tokens.length + 1) (.ofTokens tokens)).2 := by
  rcases h tokens .self with rfl | hlast
  · exact .finish rfl
  · exact loopsTo_statementsUpTo _ _ hlast (Nat.lt_succ_self _)

/-- In a delimited list, every turn of the loop over the statements goes on to a later token of the list.
So the loop comes to an end by itself, and so do the loops and the recursion within a statement, in the
list and in its interpolations. There are at most as many statements as tokens, and at least as many
errors as markers. -/
theorem run_progresses {tokens : List Token} (h : Delimited tokens) (o : ParseOptions) :
    (∀ (c c' : Cursor) (s : Statement), c.before.reverse ++ c.rest = tokens → c.atEnd = false →
      Iteration o c s c' →
      c'.before.reverse ++ c'.rest = tokens ∧ c.before.length < c'.before.length ∧
        c'.before.length < tokens.length) ∧
    (∃ ss last, LoopsTo o (settled (.ofTokens tokens)) ss last ∧
      run o tokens = (.ofStatements ss, last.errors.reverse)) ∧
    (∀ us, Embedded us tokens → ∀ c : Cursor, c.before.reverse ++ c.rest = us → BoundFree o c) ∧
    (run o tokens).1.statements.length ≤ tokens.length ∧
    (run o tokens).1.statements.countP Statement.isError ≤ (run o tokens).2.length := by
  have hloop := loopsTo_run (o := o) h
  refine ⟨fun c c' s hc more turn => ?_, ⟨_, _, hloop, rfl⟩, fun us hus c hc => ?_, ?_, ?_⟩
  · obtain ⟨hkind | hended, -⟩ := ended_or_eof (h tokens .self) hc
    · rw [Cursor.atEnd, hkind] at more
      cases more
    · obtain ⟨honward, hless⟩ := onward_of_iteration hended more turn
      have htokens := honward.tokens.trans hc
      have hpos := List.length_pos_iff.mpr honward.1.rest_ne_nil
      have hsum := honward.length
      have hlength := congrArg List.length htokens
      rw [List.length_append, List.length_reverse] at hlength
      exact ⟨htokens, by omega, by omega⟩
  · obtain ⟨hended, hfinal⟩ := ended_or_eof (h us hus) hc
    exact boundFree o hended hfinal
  · rw [run_statements]
    rcases h tokens .self with rfl | hlast
    · exact Nat.le_refl _
    · have hstart := onward_settled (c := .ofTokens tokens) hlast
      exact (length_le_of_loopsTo hloop hstart.1).trans hstart.length_le
  · have hrecord : (run o tokens).2.length = _ := List.length_reverse
    rw [run_statements, hrecord]
    exact (Nat.le_add_right _ _).trans (errors_of_loopsTo hloop)

/-- A block that ends before it began, a text with an interpolation of no tokens and one that is at its
end, a stray bracket, and an end marker in the middle. -/
def strayTokens : List Token :=
  [.dedent, .text [.hole [] .origin, .hole [⟨.eof, .origin⟩] .origin], .newline, .punctuation .rparen,
    .newline, .eof, .indent, .eof].map (⟨·, .origin⟩)

theorem delimited_strayTokens : Delimited strayTokens := by
  intro us hus
  cases hus with
  | self => exact .inr ⟨_, rfl, rfl⟩
  | hole mem kind part embedded =>
    obtain ⟨k, hk, rfl⟩ := List.mem_map.mp mem
    obtain rfl : k = .text _ := kind
    obtain rfl : _ = [StringPart.hole [] .origin, .hole [⟨.eof, .origin⟩] .origin] := by simpa using hk
    simp only [List.mem_cons, StringPart.hole.injEq, List.not_mem_nil, or_false] at part
    rcases part with ⟨rfl, -⟩ | ⟨rfl, -⟩
    · cases embedded with
      | self => exact .inl rfl
      | hole mem => cases mem
    · cases embedded with
      | self => exact .inr ⟨_, rfl, rfl⟩
      | hole mem kind =>
        obtain rfl := List.mem_singleton.mp mem
        cases kind

theorem run_progresses_stray :
    let o : ParseOptions := { mode := .bestEffort }
    let start := settled (.ofTokens strayTokens)
    Delimited strayTokens ∧ (run o strayTokens).1.statements.countP Statement.isError = 1 ∧
      ∃ s c', Iteration o start s c' ∧ start.before.length < c'.before.length ∧
        c'.before.length < strayTokens.length := by
  intro o start
  have hmarkers : (run o strayTokens).1.statements.countP Statement.isError = 1 := by decide +kernel
  refine ⟨delimited_strayTokens, hmarkers, ?_⟩
  obtain ⟨hturn, ⟨ss, last, hloop, hrun⟩, -⟩ := run_progresses delimited_strayTokens o
  rw [hrun, Program.statements_ofStatements] at hmarkers
  cases hloop with
  | finish | stop => cases hmarkers
  | turn more turn rest => exact ⟨_, _, turn, (hturn _ _ _ rfl more turn).2⟩

end Parse

end PipeLang
