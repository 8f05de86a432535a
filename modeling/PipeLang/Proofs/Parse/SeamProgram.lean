import PipeLang.Proofs.Parse.Progress
import PipeLang.Proofs.Parse.SeamConstruct

/-! The loop over the statements on either side of a seam. What starts in the common lines is the same in
both runs, recovery from an error in them included, and after them the second run goes on with a new
statement. -/

namespace PipeLang

namespace Seam

open Parse

variable {S : Seam} {c d : Cursor}

/-! ## From one statement to the next -/

theorem skipWhile_of_kind {p : TokenKind → Bool} (hc : c.rest ≠ []) (hp : p c.kind = false) :
    c.skipWhile p = c := by
  obtain ⟨t, ts, hrest⟩ := List.exists_cons_of_ne_nil hc
  rw [kind_of_rest hrest] at hp
  exact Cursor.skipWhile_of_false hrest hp

theorem Past.skipWhile {n : Nat} (h : S.Past n c d) {p : TokenKind → Bool}
    (hc : p c.kind = false) (hd : p d.kind = false) : c.skipWhile p = c ∧ d.skipWhile p = d := by
  obtain ⟨hended, hended'⟩ := Anywhere.ended (S := S) (.inr ⟨n, h⟩)
  exact ⟨skipWhile_of_kind hended.rest_ne_nil hc, skipWhile_of_kind hended'.rest_ne_nil hd⟩

theorem At.newlines {m r : List Token} (h : S.At m r c d) :
    S.Anywhere (c.skipWhile TokenKind.isNewline) (d.skipWhile TokenKind.isNewline) := by
  induction r generalizing m c d with
  | nil => exact absurd rfl h.more
  | cons t r ih =>
    cases hk : t.kind.isNewline with
    | false =>
      rw [Cursor.skipWhile_of_false h.rest hk, Cursor.skipWhile_of_false h.rest' hk]
      exact .inl h.inside
    | true =>
      rw [Cursor.skipWhile_of_true h.rest hk, Cursor.skipWhile_of_true h.rest' hk]
      cases r with
      | nil =>
        have hpast : S.Past S.blocks c.forward d.forward := by
          rw [← h.next_eq.1, ← h.next_eq.2]
          exact h.next_edge.1
        obtain ⟨hc, hd⟩ := hpast.skipWhile (p := TokenKind.isNewline) hpast.not_line.1 hpast.not_line.2
        rw [hc, hd]
        exact .inr ⟨_, hpast⟩
      | cons u r => exact ih (h.forward (List.cons_ne_nil u r))

theorem At.dedents {m r : List Token} (h : S.At m r c d) :
    S.Inside (c.skipWhile TokenKind.isDedent) (d.skipWhile TokenKind.isDedent) := by
  induction r generalizing m c d with
  | nil => exact absurd rfl h.more
  | cons t r ih =>
    cases hk : t.kind.isDedent with
    | false =>
      rw [Cursor.skipWhile_of_false h.rest hk, Cursor.skipWhile_of_false h.rest' hk]
      exact h.inside
    | true =>
      rw [Cursor.skipWhile_of_true h.rest hk, Cursor.skipWhile_of_true h.rest' hk]
      exact ih (h.forward (h.more_of_kind fun hline => by rw [hline] at hk; cases hk))

theorem Past.dedents {n : Nat} (h : S.Past n c d) :
    S.Past 0 (c.skipWhile TokenKind.isDedent) (d.skipWhile TokenKind.isDedent) := by
  induction n generalizing c d with
  | zero =>
    have hno : c.atDedent = false := by
      unfold Cursor.atDedent
      rw [(kind_of_rest h.rest).trans S.last_eof]
      rfl
    obtain ⟨hc, hd⟩ := h.skipWhile (p := TokenKind.isDedent) hno (h.atDedent.1.symm.trans hno)
    rw [hc, hd]
    exact h
  | succ n ih =>
    have hrest : c.rest = ⟨.dedent, S.closed⟩ :: S.tail n := h.rest
    have hrest' : d.rest = ⟨.dedent, S.closed'⟩ :: S.tail' n := h.rest'
    rw [Cursor.skipWhile_of_true hrest rfl, Cursor.skipWhile_of_true hrest' rfl]
    refine ih ⟨?_, ?_, ?_⟩
    · rw [Cursor.forward, hrest]
    · rw [Cursor.forward, hrest']
    · unfold Errors
      rw [Cursor.forward_errors, Cursor.forward_errors]
      exact h.errors

/-- Where the next statement is looked for: in the common lines, or past them and the blocks. -/
def Between (S : Seam) (c d : Cursor) : Prop := S.Inside c d ∨ S.Past 0 c d

theorem Anywhere.settled (h : S.Anywhere c d) : S.Between (settled c) (settled d) := by
  have hlines : S.Anywhere (c.skipWhile TokenKind.isNewline) (d.skipWhile TokenKind.isNewline) := by
    rcases h with ⟨m, r, h⟩ | ⟨n, h⟩
    · exact h.newlines
    · obtain ⟨hc, hd⟩ := h.skipWhile (p := TokenKind.isNewline) h.not_line.1 h.not_line.2
      rw [hc, hd]
      exact .inr ⟨n, h⟩
  rcases hlines with ⟨m, r, h⟩ | ⟨n, h⟩
  · exact .inl h.dedents
  · exact .inr h.dedents

/-! ## Recovery -/

/-- The cursor past what recovery drops, from a place so deep in blocks. -/
def soughtFrom (level : Int) (c : Cursor) : Cursor :=
  { c with before := (seekLine level c.before c.rest).1, rest := (seekLine level c.before c.rest).2 }

theorem soughtFrom_cons {t u : Token} {rest : List Token} (h : c.rest = t :: u :: rest) (hk : t.kind ≠ .eof)
    (level : Int) :
    soughtFrom level c =
      if decide (level + t.kind.levelChange ≤ 0) && (t.kind.isNewline || t.kind.isDedent) &&
          !(u.kind.isIndent || u.kind.isDedent) then c.forward
      else soughtFrom (level + t.kind.levelChange) c.forward := by
  have heof : ¬ t.kind.isEof = true := fun he => hk (TokenKind.isEof_iff.mp he)
  have hforward : c.forward = ⟨t :: c.before, u :: rest, c.errors⟩ := by rw [Cursor.forward, h]
  unfold soughtFrom
  rw [h, hforward, seekLine]
  dsimp only [List.head?_cons, Option.getD_some]
  rw [if_neg heof]
  split <;> rfl

/-- The ends of the blocks that are open are dropped, and nothing more. -/
theorem rest_soughtFrom {n : Nat} {s : Span} {u : Token} {us : List Token}
    (hu : u.kind.isIndent = false ∧ u.kind.isDedent = false)
    (h : c.rest = List.replicate (n + 1) ⟨.dedent, s⟩ ++ u :: us) :
    (soughtFrom (n + 1 : Nat) c).rest = u :: us := by
  induction n generalizing c with
  | zero =>
    have hrest : c.rest = ⟨.dedent, s⟩ :: u :: us := h
    rw [soughtFrom_cons hrest (by simp), hu.1, hu.2]
    rw [if_pos (by rfl), Cursor.forward, hrest]
  | succ n ih =>
    have hrest : c.rest = ⟨.dedent, s⟩ :: ⟨.dedent, s⟩ :: (List.replicate n ⟨.dedent, s⟩ ++ u :: us) := h
    rw [soughtFrom_cons hrest (by simp)]
    simp only [TokenKind.isIndent, TokenKind.isDedent, Bool.or_true, Bool.not_true, Bool.and_false,
      Bool.false_eq_true, if_false, TokenKind.levelChange]
    have hforward : c.forward.rest = List.replicate (n + 1) ⟨.dedent, s⟩ ++ u :: us := by
      rw [Cursor.forward, hrest]
      rfl
    have hlevel : ((n + 1 + 1 : Nat) : Int) + -1 = (n + 1 : Nat) := by omega
    rw [hlevel]
    exact ih hforward

/-- Both runs agree on how deep in blocks they are, and that is so deep as blocks are open after the common
lines. -/
structure Leveled (S : Seam) : Prop where
  same : levelsOf S.before.reverse = levelsOf S.before'.reverse
  opened : levelsOf (S.before.reverse ++ S.line) = S.blocks

theorem At.sought {m r : List Token} {level : Int} (h : S.At m r c d) (hlevel : level + levelsOf r = S.blocks) :
    S.Anywhere (soughtFrom level c) (soughtFrom level d) := by
  induction r generalizing m c d level with
  | nil => exact absurd rfl h.more
  | cons t r ih =>
    rw [levelsOf_cons, ← add_assoc] at hlevel
    cases r with
    | cons u r =>
      have hnext := h.forward (List.cons_ne_nil u r)
      rw [soughtFrom_cons h.rest h.running, soughtFrom_cons h.rest' h.running]
      split
      · exact .inl hnext.inside
      · exact ih hnext hlevel
    | nil =>
      obtain ⟨u, hu, hline⟩ := h.last
      obtain rfl : t = u := Option.some.inj hu
      rw [levelsOf_nil, add_zero] at hlevel
      have hforward : S.Past S.blocks c.forward d.forward := by
        rw [← h.next_eq.1, ← h.next_eq.2]
        exact h.next_edge.1
      obtain ⟨v, vs, hv, hbegins⟩ := S.begins
      have hplain : v.kind.isIndent = false ∧ v.kind.isDedent = false := by
        have hlayout := TokenKind.not_layout_of_begins hbegins
        cases hk : v.kind <;> rw [hk] at hlayout <;> first | exact ⟨rfl, rfl⟩ | cases hlayout
      have hrest := h.rest
      have hrest' := h.rest'
      have hpast := hforward.rest
      have hpast' := hforward.rest'
      unfold tail at hrest hpast
      unfold tail' at hrest' hpast'
      rw [hv] at hrest' hpast'
      generalize hn : S.blocks = n at *
      cases n with
      | zero =>
        rw [soughtFrom_cons hrest h.running, soughtFrom_cons hrest' h.running, hlevel, hline, S.last_eof,
          hplain.1, hplain.2]
        exact .inr ⟨0, hforward⟩
      | succ n =>
        rw [List.replicate_succ] at hrest hrest'
        rw [soughtFrom_cons hrest h.running, soughtFrom_cons hrest' h.running, hlevel]
        simp only [TokenKind.isIndent, TokenKind.isDedent, Bool.or_true, Bool.not_true, Bool.and_false,
          Bool.false_eq_true, if_false]
        refine .inr ⟨0, ?_, ?_, hforward.errors⟩
        · exact rest_soughtFrom (by rw [S.last_eof]; exact ⟨rfl, rfl⟩) hpast
        · rw [rest_soughtFrom hplain hpast', ← hv]
          rfl

theorem Inside.synchronize (hl : S.Leveled) (h : S.Inside c d) :
    S.Anywhere (synchronize c) (synchronize d) := by
  obtain ⟨m, r, h⟩ := h
  have hline : levelsOf m.reverse + levelsOf r = levelsOf S.line := by rw [← levelsOf_append, h.line]
  have hlevel : c.level + levelsOf r = S.blocks := by
    have hopened := hl.opened
    rw [levelsOf_append, ← hline] at hopened
    rw [c.level_eq, h.before, List.reverse_append, levelsOf_append]
    omega
  have hsame : d.level = c.level := by
    rw [d.level_eq, c.level_eq, h.before, h.before', List.reverse_append, List.reverse_append,
      levelsOf_append, levelsOf_append, hl.same]
  have hsought := h.sought hlevel
  unfold soughtFrom at hsought
  unfold Parse.synchronize
  rw [hsame]
  exact hsought

end Seam

/-! ## The loop -/

namespace Parse

variable {o : ParseOptions} {c c' last : Cursor} {s : Statement} {ss : List Statement} {e : Diagnostic}

theorem LoopsTo.of_read (h : LoopsTo o c ss last) (more : c.atEnd = false)
    (read : statementLine o c = .ok s c') : ∃ rest, ss = s :: rest ∧ LoopsTo o (settled c') rest last := by
  cases h with
  | finish ended =>
    rw [ended] at more
    cases more
  | stop _ _ failed =>
    rw [read] at failed
    cases failed
  | turn _ turn rest =>
    cases turn with
    | statement read' =>
      rw [read] at read'
      cases read'
      exact ⟨_, rfl, rest⟩
    | recovery _ failed =>
      rw [read] at failed
      cases failed

theorem LoopsTo.of_failure (h : LoopsTo o c ss last) (more : c.atEnd = false) (mode : o.mode = .bestEffort)
    (failed : statementLine o c = .error e c') :
    ∃ rest, ss = .error (c.spanSince (synchronize (c'.record e))) :: rest ∧
      LoopsTo o (settled (synchronize (c'.record e))) rest last := by
  cases h with
  | finish ended =>
    rw [ended] at more
    cases more
  | stop _ strict _ =>
    rw [mode] at strict
    cases strict
  | turn _ turn rest =>
    cases turn with
    | statement read =>
      rw [failed] at read
      cases read
    | recovery _ failed' =>
      rw [failed] at failed'
      cases failed'
      exact ⟨_, rfl, rest⟩

theorem errors_suffix_of_read (read : statementLine o c = .ok s c') : c.errors <:+ c'.errors := by
  have hline := recording_statementLine o c
  rw [read] at hline
  cases hline with
  | ok _ kept => exact kept

theorem errors_suffix_of_failure (failed : statementLine o c = .error e c') : c.errors <:+ c'.errors := by
  have hline := recording_statementLine o c
  rw [failed] at hline
  cases hline with
  | error kept => exact kept

/-- What is on record stays there. -/
theorem errors_suffix_of_loopsTo (h : LoopsTo o c ss last) : c.errors <:+ last.errors := by
  induction h with
  | finish => exact List.suffix_rfl
  | stop more mode read => exact (errors_suffix_of_failure read).trans (List.suffix_cons _ _)
  | turn more turn rest ih =>
    cases turn with
    | statement read => exact (errors_suffix_of_read read).trans ih
    | recovery mode read =>
      exact ((errors_suffix_of_failure read).trans (List.suffix_cons _ _)).trans ih

end Parse

/-- The same statement, or two markers. -/
def Statement.Matches (s s' : Statement) : Prop := s = s' ∨ s.isError = true ∧ s'.isError = true

namespace Seam

open Parse

variable {S : Seam}

/-- The errors that were found since the start of the comparison point into the common lines. -/
def Early (S : Seam) (errors : List Diagnostic) : Prop :=
  ∃ new, errors = new ++ S.errors ∧ ∀ e ∈ new, e.span.start < S.bound

theorem Early.start_lt {errors all : List Diagnostic} {e : Diagnostic} (h : S.Early all)
    (hsince : S.errors <:+ errors) (he : e :: errors <:+ all) : e.span.start < S.bound := by
  obtain ⟨new, hall, hnew⟩ := h
  obtain ⟨since, rfl⟩ := hsince
  obtain ⟨later, rfl⟩ := he
  have hsplit : later ++ e :: since ++ S.errors = new ++ S.errors := by rw [← hall]; simp
  exact hnew e (List.append_cancel_right hsplit ▸ by simp)

theorem Between.errors {c d : Cursor} (h : S.Between c d) : S.Errors c d := by
  rcases h with ⟨m, r, h⟩ | h
  · exact h.errors
  · exact h.errors

theorem Errors.suffix {c d : Cursor} (h : S.Errors c d) : S.errors <:+ c.errors := by
  obtain ⟨new, hc, -⟩ := h
  exact ⟨new, hc.symm⟩

/-- Over the common lines both loops give the same statements, and there the first one ends. -/
theorem loopsTo_common {o : ParseOptions} {c last : Cursor} {ss : List Statement}
    (h : LoopsTo o c ss last) (hspills : ¬ S.Spills)
    (hrecovers : S.bound = 0 ∨ o.mode = .bestEffort ∧ S.Leveled) (hearly : S.Early last.errors) :
    ∀ {d last' : Cursor} {ss' : List Statement}, S.Between c d → LoopsTo o d ss' last' →
      ∃ found more d', List.Forall₂ Statement.Matches ss found ∧ ss' = found ++ more ∧
        S.Past 0 last d' ∧ LoopsTo o d' more last' := by
  induction h with
  | finish ended =>
    intro d last' ss' hcd h'
    rcases hcd with hin | hpast
    · exact absurd (TokenKind.isEof_iff.mp ended) hin.running
    · exact ⟨[], ss', d, .nil, rfl, hpast, h'⟩
  | @stop c c' e more mode failed =>
    intro d last' ss' hcd h'
    have hlt := hearly.start_lt (hcd.errors.suffix.trans (errors_suffix_of_failure failed)) List.suffix_rfl
    rcases hrecovers with hzero | ⟨hmode, -⟩
    · omega
    · rw [hmode] at mode
      cases mode
  | @turn c c' last s ss more turn rest ih =>
    intro d last' ss' hcd h'
    have hin : S.Inside c d := by
      rcases hcd with hin | hpast
      · exact hin
      · rw [Cursor.atEnd, (kind_of_rest hpast.rest).trans S.last_eof] at more
        cases more
    have hmore : d.atEnd = false := by rwa [Cursor.atEnd, ← hin.kind]
    have hline := meets_statementLine o c d hin
    cases turn with
    | @statement c1 s read =>
      rw [read] at hline
      generalize hread : statementLine o d = r at hline
      cases hline with
      | @ok _ _ d1 after =>
        obtain ⟨rest', rfl, hrest'⟩ := h'.of_read hmore hread
        obtain ⟨found, others, d', hfound, rfl, hpast, hothers⟩ :=
          ih hearly after.anywhere.settled hrest'
        exact ⟨s :: found, others, d', .cons (.inl rfl) hfound, rfl, hpast, hothers⟩
      | spills spills => exact absurd spills hspills
    | @recovery c1 e mode failed =>
      have hlt := hearly.start_lt (hcd.errors.suffix.trans (errors_suffix_of_failure failed))
        (errors_suffix_of_loopsTo rest)
      rw [failed] at hline
      generalize hread : statementLine o d = r at hline
      cases hline with
      | @error _ _ d1 place =>
        obtain ⟨rest', rfl, hrest'⟩ := h'.of_failure hmore mode hread
        obtain ⟨m, r, hat⟩ := place
        have hleveled : S.Leveled := by
          rcases hrecovers with hzero | ⟨-, hleveled⟩
          · omega
          · exact hleveled
        have hsought := Inside.synchronize hleveled (hat.record e).inside
        obtain ⟨found, others, d', hfound, rfl, hpast, hothers⟩ := ih hearly hsought.settled hrest'
        exact ⟨_ :: found, others, d', .cons (.inr ⟨rfl, rfl⟩) hfound, rfl, hpast, hothers⟩
      | late past => exact absurd past (Nat.not_le_of_lt hlt)
      | spills spills => exact absurd spills hspills

end Seam

end PipeLang
