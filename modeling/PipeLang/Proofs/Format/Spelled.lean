import PipeLang.Proofs.Format.WrittenText
import PipeLang.Proofs.Scan.Spaced

/-! Tokens written out one after the other, with blanks between them, are read back as they were. Each text
is read where nothing is pending, and the blank after it settles what it leaves pending, so the texts
do not touch each other; only the brackets that are open pass from one to the next. -/

namespace PipeLang

open Scan State Parse

/-- What a token is written as. Layout has no text of its own, a string with interpolations has the texts of
their tokens, and a number whose sign is minus, zero among them, is read as a minus and a number. -/
def TokenKind.spelling? : TokenKind → Option String
  | .keyword k => some k.spelling
  | .operator op => if op.isWord then none else some op.spelling
  | .punctuation p => some p.spelling
  | .ident name => if isIdentifier name then some name else none
  | .number x => if x.isFinite && !x.negative then some x.text else none
  | .text [] => some (quoted "")
  | .text [.literal s] => if s.isEmpty then none else some (quoted s)
  | _ => none

/-- A text in which the tokens are written out, with at least one blank between each two of them. -/
inductive SpelledOut : List TokenKind → String → Prop
  | last {k : TokenKind} {text : String} (spelling : k.spelling? = some text) : SpelledOut [k] text
  | more {k : TokenKind} {ks : List TokenKind} {text line : String} (spelling : k.spelling? = some text)
    (blanks : Nat) (rest : SpelledOut ks line) :
    SpelledOut (k :: ks) (text ++ String.ofList (List.replicate (blanks + 1) ' ') ++ line)

/-- The parts of a string without interpolations. -/
def literals (text : String) : List StringPart := if text = "" then [] else [.literal text]

theorem literals_of_spelling {parts : List StringPart} {text : String}
    (h : (TokenKind.text parts).spelling? = some text) :
    ∃ literal, quoted literal = text ∧ literals literal = parts := by
  rcases parts with _ | ⟨_ | _, _ | _⟩
  · cases h
    exact ⟨"", rfl, rfl⟩
  · obtain ⟨hne, rfl⟩ : _ ≠ "" ∧ quoted _ = text := by simpa [TokenKind.spelling?] using h
    exact ⟨_, rfl, if_neg hne⟩
  all_goals cases h

section

variable {bs cs : List Punctuation} {b : Punctuation}

theorem bracketsAfter_opening (hb : b.isOpening = true) :
    bracketsAfter bs (.punctuation b) = some (b :: bs) := by
  simp [bracketsAfter, hb]

theorem bracketsAfter_closing (hb : b.isOpening = false ∧ b.isClosing = true) :
    bracketsAfter bs (.punctuation b) = some cs ↔ ∃ o, bs = o :: cs ∧ o.closing? = some b := by
  cases bs with
  | nil => simp [bracketsAfter, hb]
  | cons o outer => simp [bracketsAfter, hb, and_comm]

end

namespace Scan

variable {inner : Option Inner} {s t u : State} {k : TokenKind} {ks ls : List TokenKind} {text : String}

/-! ## The texts of single tokens -/

/-- The literal text of a string after the parts before it. -/
theorem flush_literals (q : Quoted) (text : String) :
    ({ q with literal := text.toList.reverse } : Quoted).flush.parts.reverse = q.parts.reverse ++ literals text := by
  unfold Quoted.flush literals
  by_cases h : text = ""
  · rw [if_pos h, h]
    exact (List.append_nil _).symm
  · rw [if_neg (by simpa using h), if_neg h, List.reverse_reverse, String.ofList_toList]
    exact List.reverse_cons

theorem readsToken_of_quoted (text : String) :
    ReadsToken inner (quoted text).toList (.text (literals text)) := by
  intro s hs
  have hchars : (quoted text).toList = '"' :: (text.toList.flatMap escapeChar ++ ['"']) := by
    simp [quoted]
  have hrun : s.run inner ('"' :: (text.toList.flatMap escapeChar ++ ['"'])) = _ :=
    run_quotes hs (run_literal text.toList rfl) rfl
  rw [List.append_nil, flush_literals] at hrun
  rw [hchars, hrun]
  exact ⟨rfl, settle_of_ready rfl⟩

/-! ## What has been read of a line -/

/-- Between two states the tokens `ks` have been read, of which the last may be pending. -/
structure State.Shows (s t : State) (ks : List TokenKind) : Prop where
  pending : t.mode.isToken = true
  kinds : t.settle.tokens.map Token.kind = ks.reverse ++ s.tokens.map Token.kind
  brackets : ks.foldlM bracketsAfter (s.brackets.map Prod.fst) = some (t.settle.brackets.map Prod.fst)
  errors : t.settle.errors = s.errors
  frames : t.settle.frames = s.frames

theorem State.Shows.trans {cs : List Char} (h : s.Shows t ks) (h' : (t.settle.read cs []).Shows u ls) :
    s.Shows u (ks ++ ls) where
  pending := h'.pending
  kinds := by
    rw [h'.kinds, State.read, List.reverse_append, List.append_assoc, ← h.kinds]
    rfl
  brackets := by
    rw [List.foldlM_append, h.brackets]
    exact h'.brackets
  errors := h'.errors.trans h.errors
  frames := h'.frames.trans h.frames

theorem shows_of_readsToken {cs : List Char} (h : ReadsToken inner cs k)
    (plain : ∀ bs, bracketsAfter bs k = some bs) (hs : s.mode = .ready) :
    s.Shows (s.run inner cs) [k] := by
  obtain ⟨hmode, hsettle⟩ := h s hs
  refine ⟨hmode, ?_, ?_, ?_, ?_⟩
  · rw [hsettle]
    rfl
  · rw [hsettle, List.foldlM_cons, plain]
    rfl
  · rw [hsettle, read_errors]
  · rw [hsettle, read_frames]

theorem shows_opening {c : Char} {b : Punctuation} (hc : ∀ (s : State) p, s.start p c = s.openBracket p b)
    (hb : b.isOpening = true) (hs : s.mode = .ready) :
    s.Shows (s.run inner [c]) [.punctuation b] := by
  have hrun : s.run inner [c] = (s.past c).openBracket s.position b := by
    rw [run_cons, run_nil, step_of_ready hs, hc]
  rw [hrun]
  refine ⟨rfl, rfl, ?_, rfl, rfl⟩
  rw [List.foldlM_cons, bracketsAfter_opening hb]
  rfl

/-- A closing bracket where it matches the innermost open one. -/
theorem shows_closing {c : Char} {b : Punctuation} (hc : ∀ (s : State) p, s.start p c = s.closeBracket p b)
    (hb : b.isOpening = false ∧ b.isClosing = true) (hs : s.mode = .ready)
    (hopen : (bracketsAfter (s.brackets.map Prod.fst) (.punctuation b)).isSome = true) :
    s.Shows (s.run inner [c]) [.punctuation b] := by
  have hrun : s.run inner [c] = (s.past c).closeBracket s.position b := by
    rw [run_cons, run_nil, step_of_ready hs, hc]
  obtain ⟨bs, hbs⟩ := Option.isSome_iff_exists.mp hopen
  obtain ⟨o, hopened, hmatch⟩ := (bracketsAfter_closing hb).mp hbs
  obtain ⟨⟨_, span⟩, outer, hbrackets, rfl, rfl⟩ := List.map_eq_cons_iff.mp hopened
  rw [hrun, closeBracket_of_match (s := s.past c) hbrackets hmatch]
  refine ⟨rfl, rfl, ?_, rfl, rfl⟩
  rw [List.foldlM_cons, hbs]
  rfl

theorem shows_of_spelling (h : k.spelling? = some text) (hs : s.mode = .ready)
    (hopen : (bracketsAfter (s.brackets.map Prod.fst) k).isSome = true) :
    s.Shows (s.run inner text.toList) [k] := by
  cases k with
  | keyword k =>
    cases h
    have hread : ReadsToken inner k.spelling.toList _ := readsToken_of_isWord (isWord_spelling k)
    rw [String.ofList_toList, wordKind_spelling] at hread
    exact shows_of_readsToken hread (fun _ => rfl) hs
  | operator op =>
    obtain ⟨hword, rfl⟩ : op.isWord = false ∧ op.spelling = text := by
      simpa [TokenKind.spelling?] using h
    exact shows_of_readsToken (readsToken_of_operator hword) (fun _ => rfl) hs
  | punctuation p =>
    cases h
    cases p with
    | lparen => exact shows_opening isPair_parens.opens rfl hs
    | lbracket => exact shows_opening isPair_brackets.opens rfl hs
    | lbrace => exact shows_opening isPair_braces.opens rfl hs
    | rparen => exact shows_closing isPair_parens.closes ⟨rfl, rfl⟩ hs hopen
    | rbracket => exact shows_closing isPair_brackets.closes ⟨rfl, rfl⟩ hs hopen
    | rbrace => exact shows_closing isPair_braces.closes ⟨rfl, rfl⟩ hs hopen
    | _ => exact shows_of_readsToken (readsToken_of_punctuation (by decide)) (fun _ => rfl) hs
  | ident name =>
    obtain ⟨hname, rfl⟩ : isIdentifier name = true ∧ name = text := by
      simpa [TokenKind.spelling?] using h
    obtain ⟨hword, hkind⟩ := wordKind_of_isIdentifier hname
    have hread : ReadsToken inner name.toList _ := readsToken_of_isWord hword
    rw [String.ofList_toList, hkind] at hread
    exact shows_of_readsToken hread (fun _ => rfl) hs
  | number x =>
    obtain ⟨⟨hfinite, hsign⟩, rfl⟩ : (x.isFinite = true ∧ x.negative = false) ∧ x.text = text := by
      simpa [TokenKind.spelling?] using h
    obtain ⟨w, hw⟩ := Number.text_written hsign hfinite
    have hread : ReadsToken inner x.text.toList _ := readsToken_of_written w
    rw [hw] at hread
    exact shows_of_readsToken hread (fun _ => rfl) hs
  | text parts =>
    obtain ⟨literal, rfl, rfl⟩ := literals_of_spelling h
    exact shows_of_readsToken (readsToken_of_quoted literal) (fun _ => rfl) hs
  | _ => cases h

/-! ## A whole line -/

/-- Blanks settle what is pending and nothing else. -/
theorem run_blanks (hs : s.mode.isToken = true) (n : Nat) :
    s.run inner (List.replicate (n + 1) ' ') = s.settle.read (List.replicate (n + 1) ' ') [] := by
  induction n generalizing s with
  | zero =>
    rw [List.replicate_one, run_cons, run_nil, step_of_isBreak hs rfl, Written.step_blank s.settle_ready]
  | succ n ih =>
    rw [List.replicate_succ, run_cons, step_of_isBreak hs rfl, Written.step_blank s.settle_ready,
      ih rfl, settle_of_ready rfl, read_read]
    rfl

/-- By induction on the text: its first token is read, the blanks after it settle it, and the rest is read
from there. -/
theorem shows_of_spelledOut (h : SpelledOut ks text) (hs : s.mode = .ready)
    (hopen : (ks.foldlM bracketsAfter (s.brackets.map Prod.fst)).isSome = true) :
    s.Shows (s.run inner text.toList) ks := by
  induction h generalizing s with
  | @last k text spelling =>
    exact shows_of_spelling spelling hs (by simpa using hopen)
  | @more k ks text rest spelling blanks _ ih =>
    obtain ⟨bs, hbs⟩ := Option.isSome_iff_exists.mp hopen
    rw [List.foldlM_cons] at hbs
    obtain ⟨mid, hmid, hrest⟩ := Option.bind_eq_some_iff.mp hbs
    have hfirst : s.Shows (s.run inner text.toList) [k] :=
      shows_of_spelling spelling hs (by rw [hmid]; rfl)
    have hbrackets := hfirst.brackets
    rw [List.foldlM_cons, hmid] at hbrackets
    cases hbrackets
    rw [String.toList_append, String.toList_append, String.toList_ofList, run_append, run_append,
      run_blanks hfirst.pending]
    exact hfirst.trans (ih rfl (by rw [read_brackets, hrest]; rfl))

/-- The text of a token begins with a character that shows, and with a slash only if that is all of it. -/
theorem first_of_spelling (h : k.spelling? = some text) :
    ∃ c cs, text.toList = c :: cs ∧ Visible c ∧ (c = '/' → cs = []) := by
  have alphanum : ∀ {c : Char}, c.isAlphanum = true → Visible c ∧ c ≠ '/' := by
    intro c hc
    refine ⟨⟨?_, ?_, ?_, ?_, ?_⟩, ?_⟩ <;> rintro rfl <;> exact absurd hc (by decide)
  have word : ∀ {name : String}, isWord name.toList = true →
      ∃ c cs, name.toList = c :: cs ∧ Visible c ∧ (c = '/' → cs = []) := by
    intro name hname
    obtain ⟨c, cs, hcs, hc⟩ := exists_isAlpha_of_isWord hname
    obtain ⟨hvisible, hslash⟩ := alphanum (c := c) (by simp [Char.isAlphanum, hc])
    exact ⟨c, cs, hcs, hvisible, fun h => absurd h hslash⟩
  cases k with
  | keyword k =>
    cases h
    exact word (isWord_spelling k)
  | operator op =>
    obtain ⟨-, rfl⟩ : op.isWord = false ∧ op.spelling = text := by
      simpa [TokenKind.spelling?] using h
    cases op <;> exact ⟨_, _, rfl, by decide, by decide⟩
  | punctuation p =>
    cases h
    cases p <;> exact ⟨_, _, rfl, by decide, by decide⟩
  | ident name =>
    obtain ⟨hname, rfl⟩ : isIdentifier name = true ∧ name = text := by
      simpa [TokenKind.spelling?] using h
    exact word (wordKind_of_isIdentifier hname).1
  | number x =>
    obtain ⟨⟨hfinite, hsign⟩, rfl⟩ : (x.isFinite = true ∧ x.negative = false) ∧ x.text = text := by
      simpa [TokenKind.spelling?] using h
    obtain ⟨w, -⟩ := Number.text_written hsign hfinite
    obtain ⟨c, cs, hcs, hc⟩ := exists_isDigit_of_written w
    obtain ⟨hvisible, hslash⟩ := alphanum (c := c) (by simp [Char.isAlphanum, hc])
    exact ⟨c, cs, hcs, hvisible, fun h => absurd h hslash⟩
  | text parts =>
    obtain ⟨literal, rfl, -⟩ := literals_of_spelling h
    exact ⟨'"', (escape literal ++ "\"").toList, by simp [quoted], by decide, fun h => absurd h (by decide)⟩
  | _ => cases h

theorem first_of_spelledOut (h : SpelledOut ks text) :
    ∃ c cs, text.toList = c :: cs ∧ Visible c ∧ ¬ ['/', '*'] <+: c :: cs := by
  cases h with
  | last spelling =>
    obtain ⟨c, cs, hcs, hc, hslash⟩ := first_of_spelling spelling
    refine ⟨c, cs, hcs, hc, fun hprefix => ?_⟩
    obtain ⟨rfl, hstar⟩ := List.cons_prefix_cons.mp hprefix
    rw [hslash rfl] at hstar
    simp at hstar
  | @more k ks text rest spelling blanks _ =>
    obtain ⟨c, cs, hcs, hc, hslash⟩ := first_of_spelling spelling
    refine ⟨c, cs ++ List.replicate (blanks + 1) ' ' ++ rest.toList, by simp [hcs], hc, fun hprefix => ?_⟩
    obtain ⟨rfl, hstar⟩ := List.cons_prefix_cons.mp hprefix
    rw [hslash rfl, List.nil_append, List.replicate_succ] at hstar
    exact absurd (List.cons_prefix_cons.mp hstar).1 (by decide)

/-- What is settled at the end of a text does not depend on the line that begins at its start. -/
theorem scan_settle {c : Char} {cs : List Char} (hc : Visible c) (hremark : ¬ ['/', '*'] <+: c :: cs) :
    let t := (inside .origin).run (inner? nestingLimit) (c :: cs)
    (scan (c :: cs)).settle = t.settle ∧ (scan (c :: cs)).mode.atLineStart = t.mode.atLineStart := by
  rcases initial_eq_inside hc hremark (inner? nestingLimit) with ⟨rfl, rfl⟩ | heq
  · exact ⟨rfl, rfl⟩
  · unfold scan
    rw [heq]
    exact ⟨rfl, rfl⟩

/-- A text of one line that is read without errors has its tokens, the end of the line and the end marker. -/
theorem lex_of_settle (hstart : (scan text.toList).mode.atLineStart = false)
    (hframes : (scan text.toList).settle.frames = [[]]) (herrors : (scan text.toList).settle.errors = []) :
    ∃ line last : Span, lex text =
      .ok ((scan text.toList).settle.tokens.reverse ++ [⟨.newline, line⟩, ⟨.eof, last⟩]) := by
  generalize hs : scan text.toList = s at hstart hframes herrors
  refine ⟨s.settle.position.to s.settle.position, s.settle.position.to s.settle.position,
    lex_eq_ok.mpr ?_⟩
  have hfinish : s.finish = (s.settle.emit s.settle.position .newline).closeAll.emitEof := by
    unfold finish
    rw [hstart]
    rfl
  rw [hs, hfinish]
  refine ⟨herrors, ?_⟩
  simp [emitEof, emit, closeAll, closeTo, tokenList, hframes]

theorem lex_of_shows {c : Char} {cs : List Char} (hcs : text.toList = c :: cs) (hc : Visible c)
    (hremark : ¬ ['/', '*'] <+: c :: cs)
    (hshows : (inside .origin).Shows ((inside .origin).run (inner? nestingLimit) text.toList) ks) :
    ∃ tokens, lex text = .ok tokens ∧ tokens.map Token.kind = ks ++ [.newline, .eof] := by
  obtain ⟨hsettle, hstart⟩ := scan_settle hc hremark
  rw [← hcs] at hsettle hstart
  obtain ⟨line, last, hlex⟩ := lex_of_settle
    (by rw [hstart, Mode.atLineStart_of_isToken hshows.pending])
    (by rw [hsettle, hshows.frames]; rfl) (by rw [hsettle, hshows.errors]; rfl)
  refine ⟨_, hlex, ?_⟩
  rw [List.map_append, List.map_reverse, hsettle, hshows.kinds]
  simp [inside]

/-- Tokens that are written out are read back, whatever they are and however many blanks stand between them, as
long as every closing bracket matches the innermost open one. -/
theorem lex_spelledOut (h : SpelledOut ks text) (hopen : (ks.foldlM bracketsAfter []).isSome = true) :
    ∃ tokens, lex text = .ok tokens ∧ tokens.map Token.kind = ks ++ [.newline, .eof] := by
  obtain ⟨c, cs, hcs, hc, hremark⟩ := first_of_spelledOut h
  exact lex_of_shows hcs hc hremark (shows_of_spelledOut h rfl hopen)

theorem lex_spelledOut_slash :
    ∃ tokens, lex "/  [ \"\\n*\" _" = .ok tokens ∧ tokens.map Token.kind =
      [.operator .slash, .punctuation .lbracket, .text [.literal "\n*"], .punctuation .underscore,
        .newline, .eof] := by
  have written : "/  [ \"\\n*\" _" = "/" ++ String.ofList (List.replicate 2 ' ') ++
      ("[" ++ String.ofList (List.replicate 1 ' ') ++
        ("\"\\n*\"" ++ String.ofList (List.replicate 1 ' ') ++ "_")) := by decide
  rw [written]
  exact lex_spelledOut (.more (k := .operator .slash) rfl 1 (.more (k := .punctuation .lbracket) rfl 0
    (.more (k := .text [.literal "\n*"]) rfl 0 (.last (k := .punctuation .underscore) rfl)))) rfl

/-- The names are the texts that are read as a single name. -/
theorem isIdentifier_iff_lex {name : String} : isIdentifier name = true ↔
    ∃ tokens, lex name = .ok tokens ∧ tokens.map Token.kind = [.ident name, .newline, .eof] := by
  constructor
  · intro h
    have hspelling : (TokenKind.ident name).spelling? = some name := if_pos h
    obtain ⟨c, cs, hcs, hc, hremark⟩ := first_of_spelledOut (.last hspelling)
    exact lex_of_shows hcs hc hremark (shows_of_spelling hspelling rfl rfl)
  · rintro ⟨tokens, hlex, hkinds⟩
    have hmem : TokenKind.ident name ∈ tokens.map Token.kind := by
      rw [hkinds]
      exact List.mem_cons_self
    obtain ⟨t, ht, hkind⟩ := List.mem_map.mp hmem
    cases formed_of_lex hlex t ht with
    | ident hident hname =>
      rw [hkind] at hident
      cases hident
      exact hname
    | text htext =>
      rw [hkind] at htext
      cases htext
    | plain hplain =>
      rw [hkind] at hplain
      cases hplain

end Scan

end PipeLang
