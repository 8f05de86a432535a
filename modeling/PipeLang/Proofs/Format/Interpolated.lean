import PipeLang.Proofs.Format.Spelled
import PipeLang.Proofs.Scan.Nesting

/-! A string with one interpolation. Whatever is written between the braces, the string ends where it was
written to end: the brace that is found is the one that closes the interpolation, and its text is read as it
is on its own. -/

namespace PipeLang.Scan

open State

variable {inner : Option Inner} {s : State} {text : String} {ts : List Token}

/-- The text between the braces is read wherever it stands. -/
theorem Embedded.read_at (h : Embedded text ts) (p : Position) :
    ∃ found, readInside (nestingLimit - 1) p text.toList = (found, []) ∧ SameKinds ts found := by
  have hrel := Option.rel_some_some.mp (inner_alike .any nestingLimit)
  obtain ⟨hkinds, herrors⟩ : SameKinds (readInside (nestingLimit - 1) .origin text.toList).1
      (readInside (nestingLimit - 1) p text.toList).1 ∧
      ((readInside (nestingLimit - 1) .origin text.toList).2 = [] ↔
        (readInside (nestingLimit - 1) p text.toList).2 = []) := hrel .origin p trivial text.toList
  rw [h.read] at hkinds herrors
  exact ⟨_, Prod.ext rfl (herrors.mp rfl), hkinds⟩

/-- Between the quotes of a string, before anything else of it: literal text, an interpolation, and literal text
again. -/
theorem Embedded.run (h : Embedded text ts) (before after : String) {p : Position}
    (hs : s.mode = .text ⟨p, [], []⟩) : ∃ found q, SameKinds ts found ∧ q.start = p ∧
      q.flush.parts.reverse = literals before ++ .hole found
        ((s.position.after ((escape before).toList ++ ['\x7b'])).to
          (s.position.after ((escape before).toList ++ ['\x7b'] ++ text.toList))) :: literals after ∧
      s.run (inner? nestingLimit) (escape before ++ "\x7b" ++ text ++ "\x7d" ++ escape after).toList =
        s.quoting (escape before ++ "\x7b" ++ text ++ "\x7d" ++ escape after).toList q := by
  let opened : Quoted := ⟨p, [], before.toList.reverse⟩
  let head := s.quoting (escape before).toList opened
  have hhead : s.run (inner? nestingLimit) (escape before).toList = head := by
    rw [escape_toList, run_literal before.toList hs, List.append_nil, ← escape_toList]
  obtain ⟨found, hread, hkinds⟩ := h.read_at (head.position.advance '\x7b')
  let part := StringPart.hole found
    ((head.position.advance '\x7b').to ((head.position.advance '\x7b').after text.toList))
  have hhole : head.run (inner? nestingLimit) ('\x7b' :: (text.toList ++ ['\x7d'])) =
      head.quoting ('\x7b' :: (text.toList ++ ['\x7d'])) (opened.add part) := by
    have hbody : text.toList.reverse.reverse = text.toList := List.reverse_reverse _
    rw [run_hole rfl h.burrows, show inner? nestingLimit = some (readInside (nestingLimit - 1)) from rfl,
      closeHole_of_read (by rw [hbody]; exact h.visible) (by rw [hbody]; exact hread), hbody]
    rfl
  let q : Quoted := { opened.add part with literal := after.toList.reverse }
  have hafter : (head.quoting ('\x7b' :: (text.toList ++ ['\x7d'])) (opened.add part)).run (inner? nestingLimit)
      (escape after).toList = (head.quoting ('\x7b' :: (text.toList ++ ['\x7d'])) (opened.add part)).quoting
        (escape after).toList q := by
    rw [escape_toList, run_literal after.toList rfl, show (opened.add part).literal = [] from opened.flush_literal,
      List.append_nil]
  have hchars : (escape before ++ "\x7b" ++ text ++ "\x7d" ++ escape after).toList =
      (escape before).toList ++ ('\x7b' :: (text.toList ++ ['\x7d']) ++ (escape after).toList) := by
    simp
  refine ⟨found, q, hkinds, opened.add_start part, ?_, ?_⟩
  · have hempty : (opened.add part).literal = [] := opened.flush_literal
    have hopened : opened.flush.parts.reverse = literals before := flush_literals ⟨p, [], []⟩ before
    have hadd := opened.add_parts part
    rw [Quoted.flush_of_empty hempty, hopened] at hadd
    rw [flush_literals, hadd, List.append_assoc]
    simp only [part, head, Position.after_append]
    rfl
  · rw [hchars, run_append, run_append, hhead, hhole, hafter, quoting_quoting, quoting_quoting]

/-- A string with literal text, an interpolation and literal text again. The interpolation has the tokens that its
text has on its own, and its span is where that text stands. -/
theorem lex_interpolation (h : Embedded text ts) (before after : String) : ∃ found tokens,
    lex ("\"" ++ (escape before ++ "\x7b" ++ text ++ "\x7d" ++ escape after) ++ "\"") = .ok tokens ∧
    tokens.map Token.kind = [.text (literals before ++ .hole found
      (.ofText ("\"" ++ escape before ++ "\x7b").toList text.toList) :: literals after), .newline, .eof] ∧
    SameKinds ts found := by
  obtain ⟨found, q, hkinds, hstart, hparts, hrun⟩ := h.run before after
    (s := ((inside .origin).past '"').become (.text ⟨.origin, [], []⟩)) rfl
  generalize hbody : escape before ++ "\x7b" ++ text ++ "\x7d" ++ escape after = body at hrun ⊢
  have hspan : (((Position.origin.advance '"').after ((escape before).toList ++ ['\x7b'])).to
      ((Position.origin.advance '"').after ((escape before).toList ++ ['\x7b'] ++ text.toList))) =
      Span.ofText ("\"" ++ escape before ++ "\x7b").toList text.toList := by
    rw [← Position.to_after]
    simp
  have hquotes := run_quotes (s := inside .origin) rfl hrun hstart
  rw [hparts] at hquotes
  have hchars : ("\"" ++ body ++ "\"").toList = '"' :: (body.toList ++ ['"']) := by simp
  have hshows : (inside .origin).Shows ((inside .origin).run (inner? nestingLimit) ("\"" ++ body ++ "\"").toList)
      [.text (literals before ++ .hole found
        (.ofText ("\"" ++ escape before ++ "\x7b").toList text.toList) :: literals after)] := by
    rw [hchars, hquotes, ← hspan]
    exact ⟨rfl, rfl, rfl, rfl, rfl⟩
  obtain ⟨tokens, hlex, htokens⟩ := lex_of_shows hchars (by decide)
    (fun hprefix => absurd (List.cons_prefix_cons.mp hprefix).1 (by decide)) hshows
  exact ⟨found, tokens, hlex, htokens, hkinds⟩

theorem lex_interpolation_record : ∃ ts found tokens, Embedded "\x7ba: \"\\\x7d\x7bb\x7d\"\x7d" ts ∧
    lex "\"x\\\"\x7b\x7ba: \"\\\x7d\x7bb\x7d\"\x7d\x7d\"" = .ok tokens ∧
    tokens.map Token.kind = [.text [.literal "x\"", .hole found ⟨5, 17, 1, 6⟩], .newline, .eof] ∧
    SameKinds ts found := by
  have record : Embedded "\x7ba: \"\\\x7d\x7bb\x7d\"\x7d"
      (readInside (nestingLimit - 1) .origin "\x7ba: \"\\\x7d\x7bb\x7d\"\x7d".toList).1 := by
    refine ⟨by decide, by decide, fun cs hcs => ?_, Prod.ext rfl rfl, rfl⟩
    have hprefixes : ∀ cs ∈ "\x7ba: \"\\\x7d\x7bb\x7d\"\x7d".toList.inits,
        ((State.inside .origin).run (inner? (nestingLimit - 1)) cs).mode.isComment = false := by decide
    exact hprefixes cs ((List.mem_inits _ _).mpr hcs)
  obtain ⟨found, tokens, hlex, hkinds, hsame⟩ := lex_interpolation record "x\"" ""
  exact ⟨_, found, tokens, record, hlex, hkinds, hsame⟩

end PipeLang.Scan
