import PipeLang.Proofs.Format.Lines
import PipeLang.Proofs.Parse.Placed
import PipeLang.Report.Plain

/-! A diagnostic as text underlines its span. The line shown is the one that the span starts in, the carets
begin below the first character of the span, and there are as many as the span has characters in that line,
or one if it has none there. The carets are counted by bytes; since a span starts and stops between
characters, that counts characters. -/

namespace PipeLang

open String (utf8Len)

/-! ## Lines -/

/-- What stands between `before` and `after` is a line of the text. -/
structure LineOf (text before line after : List Char) : Prop where
  split : before ++ line ++ after = text
  one : '\n' ∉ line
  opens : ∀ c ∈ before.getLast?, c = '\n'
  ends : ∀ c ∈ after.head?, c = '\n'

theorem length_betweenFeeds (cs : List Char) : (betweenFeeds cs).length = cs.count '\n' + 1 := by
  induction cs with
  | nil => rfl
  | cons c cs ih =>
    rw [betweenFeeds]
    split
    · next hc => rw [hc, List.count_cons_self, List.length_cons, ih]
    · next hc =>
      obtain ⟨p, ps, hps⟩ := List.exists_cons_of_ne_nil (betweenFeeds_ne_nil cs)
      rw [hps] at ih ⊢
      rw [List.count_cons_of_ne hc, ← ih]
      rfl

/-- A line comes after as many others as there are line feeds before it. -/
theorem LineOf.getElem?_betweenFeeds {text before line after : List Char}
    (h : LineOf text before line after) : (betweenFeeds text)[before.count '\n']? = some line := by
  obtain ⟨rfl, hone, hopens, hends⟩ := h
  have hfirst : (betweenFeeds (line ++ after))[0]? = some line := by
    cases after with
    | nil =>
      rw [List.append_nil, betweenFeeds_of_feedless hone]
      rfl
    | cons c after =>
      obtain rfl : c = '\n' := hends c rfl
      rw [betweenFeeds_append hone]
      rfl
  cases before using List.reverseRecOn with
  | nil => exact hfirst
  | append_singleton before c =>
    obtain rfl : c = '\n' := hopens c List.getLast?_concat
    rw [List.append_assoc, List.append_assoc, List.singleton_append, betweenFeeds_append_feed,
      List.getElem?_append_right (by rw [length_betweenFeeds]; simp), length_betweenFeeds]
    simpa using hfirst

theorem not_mem_takeWhile_feed (cs : List Char) : '\n' ∉ cs.takeWhile (· != '\n') := fun h => by
  simpa using List.mem_takeWhile_imp h

/-- The line around a place in a text, in two parts, with what a span counts before the place. -/
theorem exists_lineOf (before after : List Char) :
    ∃ start head tail rest, before = start ++ head ∧ after = tail ++ rest ∧
      LineOf (before ++ after) start (head ++ tail) rest ∧ before.count '\n' = start.count '\n' ∧
      (before.reverse.takeWhile (· != '\n')).length = head.length := by
  have hbefore : before = (before.reverse.dropWhile (· != '\n')).reverse ++
      (before.reverse.takeWhile (· != '\n')).reverse := by
    rw [← List.reverse_append, List.takeWhile_append_dropWhile, List.reverse_reverse]
  have hafter : after = after.takeWhile (· != '\n') ++ after.dropWhile (· != '\n') :=
    List.takeWhile_append_dropWhile.symm
  have hhead := not_mem_takeWhile_feed before.reverse
  refine ⟨_, _, _, _, hbefore, hafter, ⟨?_, ?_, fun c hc => ?_, fun c hc => ?_⟩, ?_, ?_⟩
  · conv_rhs => rw [hbefore, hafter]
    simp only [List.append_assoc]
  · simp only [List.mem_append, List.mem_reverse, not_or]
    exact ⟨hhead, not_mem_takeWhile_feed after⟩
  · rw [List.getLast?_reverse] at hc
    have hnot := List.head?_dropWhile_not (· != '\n') before.reverse
    rw [hc] at hnot
    simpa using hnot
  · have hnot := List.head?_dropWhile_not (· != '\n') after
    rw [hc] at hnot
    simpa using hnot
  · conv_lhs => rw [hbefore]
    rw [List.count_append, List.count_eq_zero_of_not_mem (fun h => hhead (List.mem_reverse.mp h)),
      Nat.add_zero]
  · rw [List.length_reverse]

/-! ## Counting by bytes -/

/-- How many characters of a line that begins at the byte `offset` lie within the span. -/
def Span.covered (s : Span) (offset : Nat) (line : List Char) : Nat :=
  (List.range line.length).countP fun i =>
    s.start ≤ offset + utf8Len (line.take i) ∧ offset + utf8Len (line.take (i + 1)) ≤ s.stop

theorem utf8Len_take_lt {cs : List Char} {i j : Nat} (hij : i < j) (hj : j ≤ cs.length) :
    utf8Len (cs.take i) < utf8Len (cs.take j) := by
  obtain ⟨c, rest, hdrop⟩ : ∃ c rest, (cs.take j).drop i = c :: rest := by
    refine List.exists_cons_of_length_pos ?_
    rw [List.length_drop, List.length_take]
    omega
  have hsplit : cs.take i ++ c :: rest = cs.take j := by
    rw [← hdrop, ← Nat.min_eq_left hij.le, ← List.take_take, Nat.min_eq_left hij.le,
      List.take_append_drop]
  have hc := Char.utf8Size_pos c
  rw [← hsplit, String.utf8Len_append, String.utf8Len_cons]
  omega

theorem utf8Len_take_le_iff {cs : List Char} {i j : Nat} (hi : i ≤ cs.length) (hj : j ≤ cs.length) :
    utf8Len (cs.take i) ≤ utf8Len (cs.take j) ↔ i ≤ j := by
  constructor
  · intro h
    by_contra hlt
    exact Nat.not_lt.mpr h (utf8Len_take_lt (Nat.lt_of_not_le hlt) hi)
  · intro h
    rcases Nat.eq_or_lt_of_le h with rfl | hlt
    · exact Nat.le_refl _
    · exact (utf8Len_take_lt hlt hj).le

theorem countP_range_between (k m n : Nat) :
    (List.range m).countP (fun i => k ≤ i ∧ i + 1 ≤ n) = min m n - k := by
  induction m with
  | zero => simp
  | succ m ih =>
    rw [List.range_succ, List.countP_append, ih, List.countP_singleton]
    by_cases h : k ≤ m ∧ m + 1 ≤ n
    · rw [if_pos (decide_eq_true h)]
      omega
    · rw [if_neg (by simpa using h)]
      omega

/-- Where the bytes end between two characters, the count is of the characters up to there. -/
theorem charsWithin_take (cs : List Char) {m n : Nat} (hm : m ≤ cs.length) (hn : n ≤ cs.length) :
    Report.charsWithin (utf8Len (cs.take n)) (cs.take m) = min m n := by
  induction cs generalizing m n with
  | nil =>
    obtain rfl : m = 0 := Nat.le_zero.mp hm
    obtain rfl : n = 0 := Nat.le_zero.mp hn
    rfl
  | cons c cs ih =>
    cases n with
    | zero => simp [Report.charsWithin]
    | succ n =>
      have hc := Char.utf8Size_pos c
      rw [List.take_succ_cons, String.utf8Len_cons]
      obtain ⟨b, hb⟩ : ∃ b, utf8Len (cs.take n) + c.utf8Size = b + 1 := ⟨_, (Nat.succ_pred (by omega)).symm⟩
      cases m with
      | zero => rw [hb]; simp [Report.charsWithin]
      | succ m =>
        rw [hb, List.take_succ_cons, Report.charsWithin, ← hb, Nat.add_sub_cancel,
          ih (Nat.le_of_succ_le_succ hm) (Nat.le_of_succ_le_succ hn), Nat.succ_min_succ]

/-- The carets under a span from the character `k` to the character `n` of a text, in the line that ends
before its character `m`. -/
theorem caretCount_eq (cs : List Char) (s : Span) {k m n offset : Nat} (hkn : k ≤ n)
    (hm : m ≤ cs.length) (hn : n ≤ cs.length) (hstart : s.start = offset + utf8Len (cs.take k))
    (hstop : s.stop = offset + utf8Len (cs.take n)) :
    Report.caretCount (cs.take m) (k + 1) s.length = max 1 (s.covered offset (cs.take m)) := by
  have hcovered : s.covered offset (cs.take m) = min m n - k := by
    unfold Span.covered
    rw [List.length_take, Nat.min_eq_left hm, ← countP_range_between k m n]
    refine List.countP_congr fun i hi => ?_
    have hi : i < m := List.mem_range.mp hi
    rw [hstart, hstop, List.take_take, List.take_take, Nat.min_eq_left hi.le, Nat.min_eq_left hi]
    simp only [Nat.add_le_add_iff_left, decide_eq_true_eq]
    rw [utf8Len_take_le_iff (by omega) (by omega), utf8Len_take_le_iff (by omega) (by omega)]
  have hlength : s.length = utf8Len ((cs.drop k).take (n - k)) := by
    have hsplit : cs.take n = cs.take k ++ (cs.drop k).take (n - k) := by
      rw [← List.take_add, Nat.add_sub_cancel' hkn]
    rw [Span.length, hstart, hstop, hsplit, String.utf8Len_append]
    omega
  unfold Report.caretCount
  rw [hcovered, hlength, Nat.add_sub_cancel, List.drop_take,
    charsWithin_take (cs.drop k) (by rw [List.length_drop]; omega) (by rw [List.length_drop]; omega)]
  omega

/-! ## The text of a diagnostic -/

/-- The line of the text that a span starts in. -/
structure Span.StartsIn (text : List Char) (s : Span) (before line after : List Char) : Prop where
  lineOf : LineOf text before line after
  number : s.line = before.count '\n' + 1
  column : ∃ head tail, line = head ++ tail ∧ s.column = head.length + 1 ∧
    s.start = utf8Len before + utf8Len head

/-- What is shown of a line that may end in a carriage return. -/
def Shows (line shown : List Char) : Prop :=
  line = shown ++ ['\r'] ∨ line = shown ∧ shown.getLast? ≠ some '\r'

theorem shows_dropReturn (line : List Char) : Shows line (dropReturn line) := by
  unfold dropReturn
  split
  · next h => exact .inl (List.dropLast_append_getLast? _ h).symm
  · next h => exact .inr ⟨rfl, h⟩

theorem Shows.begins {line shown : List Char} (h : Shows line shown) : shown <+: line := by
  rcases h with rfl | ⟨rfl, -⟩
  · exact List.prefix_append _ _
  · exact List.prefix_rfl

/-- An error that may be returned for a text. -/
inductive Returned (source : String) : Diagnostic → Prop
  | lex {ds : List Diagnostic} {d : Diagnostic} (read : Scan.lex source = .error ds) (mem : d ∈ ds) :
    Returned source d
  | strict {tokens : List Token} {o : ParseOptions} {ds : List Diagnostic} {d : Diagnostic}
    (read : Scan.lex source = .ok tokens) (parsed : parse o tokens = .error ds) (mem : d ∈ ds) :
    Returned source d
  | bestEffort {tokens : List Token} {o : ParseOptions} {d : Diagnostic}
    (read : Scan.lex source = .ok tokens) (mem : d ∈ (parseBestEffort o tokens).2) : Returned source d

theorem Returned.placed {source : String} {d : Diagnostic} (h : Returned source d) :
    d.Placed source.toList := by
  cases h with
  | lex read mem => exact Scan.placed_of_lex read d mem
  | strict read parsed mem => exact (placed_of_parse read _).1 _ parsed d mem
  | bestEffort read mem => exact (placed_of_parse read _).2 d mem

theorem Diagnostic.Placed.spans {text : List Char} {d : Diagnostic} (h : d.Placed text) :
    ∀ s ∈ d.span :: d.labels.map Prod.fst, s.Placed text := by
  refine List.forall_mem_cons.mpr ⟨h.span, fun s hs => ?_⟩
  obtain ⟨l, hl, rfl⟩ := List.mem_map.mp hs
  exact h.labels l hl

theorem Span.Placed.stop_le {text : List Char} {s : Span} (h : s.Placed text) : s.stop ≤ utf8Len text := by
  obtain ⟨before, inner, after, rfl, rfl⟩ := h
  simp [ofText]

namespace Report

/-- The text above the line that is shown: what went wrong, and where. -/
def above (name : String) (d : Diagnostic) : String :=
  header d ++ "\n" ++ ("  --> " ++ location name d.span.line d.span.column ++ "\n") ++
    (blanks (toString d.span.line).length ++ " |\n")

/-- The text below the carets: every label, note and hint on a line of its own. -/
def below (name : String) (d : Diagnostic) : String :=
  let gutter := blanks (toString d.span.line).length
  String.join (d.labels.map fun l =>
      gutter ++ " = " ++ l.2 ++ ": " ++ location name l.1.line l.1.column ++ "\n") ++
    String.join (d.notes.map fun note => gutter ++ " = note: " ++ note ++ "\n") ++
    String.join (d.hints.map fun hint => gutter ++ " = hint: " ++ hint ++ "\n")

/-- A text `shown` beside the number of the line, and under it carets from the column of the span on. -/
def underlined (d : Diagnostic) (shown : List Char) (carets : Nat) : String :=
  let number := toString d.span.line
  let marks := List.replicate (d.span.column - 1) ' ' ++ List.replicate carets '^'
  number ++ " | " ++ String.ofList shown ++ "\n" ++
    (String.ofList (List.replicate number.length ' ') ++ " | " ++ String.ofList marks ++ "\n")

/-- The text of a diagnostic shows the line that its span starts in and underlines what the span covers of
it. -/
structure Underlines (name source : String) (d : Diagnostic) (before line after shown : List Char) : Prop where
  startsIn : d.span.StartsIn source.toList before line after
  shows : Shows line shown
  text : plain name source d = above name d ++
    underlined d shown (max 1 (d.span.covered (utf8Len before) shown)) ++ below name d

theorem plain_eq (name source : String) {d : Diagnostic} (hline : 0 < d.span.line)
    (hcolumn : 0 < d.span.column) :
    plain name source d = above name d ++
      underlined d (lineAt source d.span.line)
        (caretCount (lineAt source d.span.line) d.span.column d.span.length) ++ below name d := by
  unfold plain plainLines
  rw [Nat.max_eq_right hline, Nat.max_eq_right hcolumn]
  simp [above, underlined, below, blanks, String.join_cons, String.join_append, String.append_assoc,
    String.ofList_append, Function.comp_def]

theorem exists_underlines {source : String} {d : Diagnostic} (h : d.span.Placed source.toList)
    (name : String) : ∃ before line after shown, Underlines name source d before line after shown := by
  obtain ⟨before, inner, after, hsplit, hspan⟩ := h
  obtain ⟨start, head, tail, rest, rfl, hafter, hline, hcount, hcolumn⟩ :=
    exists_lineOf before (inner ++ after)
  rw [← List.append_assoc, hsplit] at hline
  have hnumber : d.span.line = start.count '\n' + 1 := by rw [hspan, ← hcount, Nat.add_comm]; rfl
  have hcolumn : d.span.column = head.length + 1 := by rw [hspan, ← hcolumn, Nat.add_comm]; rfl
  have hstart : d.span.start = utf8Len start + utf8Len head := by
    rw [hspan, ← String.utf8Len_append]
    rfl
  have hstop : d.span.stop = utf8Len start + utf8Len (head ++ inner) := by
    rw [hspan, ← String.utf8Len_append, ← List.append_assoc]
    rfl
  have hshown : lineAt source d.span.line = dropReturn (head ++ tail) := by
    rw [lineAt, hnumber, Nat.add_sub_cancel, hline.getElem?_betweenFeeds, Option.getD_some]
  have hshows := shows_dropReturn (head ++ tail)
  refine ⟨start, head ++ tail, rest, dropReturn (head ++ tail),
    ⟨hline, hnumber, head, tail, rfl, hcolumn, hstart⟩, hshows, ?_⟩
  -- the line, and the text up to the end of the span, both begin the text from the start of the line on
  have hbegins : dropReturn (head ++ tail) <+: head ++ inner ++ after := by
    refine hshows.begins.trans ⟨rest, ?_⟩
    rw [List.append_assoc, List.append_assoc, hafter]
  have htake := List.prefix_iff_eq_take.mp hbegins
  have hfirst : d.span.start = utf8Len start + utf8Len ((head ++ inner ++ after).take head.length) := by
    rw [hstart, List.append_assoc, List.take_left]
  have hlast : d.span.stop =
      utf8Len start + utf8Len ((head ++ inner ++ after).take (head.length + inner.length)) := by
    rw [hstop, ← List.length_append, List.take_left]
  have hcarets := caretCount_eq (head ++ inner ++ after) d.span (Nat.le_add_right head.length inner.length)
    hbegins.length_le (by simp) hfirst hlast
  rw [← htake, ← hcolumn] at hcarets
  rw [plain_eq name source (by omega) (by omega), hshown, hcarets]

end Report

/-- Every error of a text points into it, and as text it underlines what it points at. -/
theorem plain_underlines {source : String} {d : Diagnostic} (h : Returned source d) (name : String) :
    (∀ s ∈ d.span :: d.labels.map Prod.fst,
      s.Placed source.toList ∧ s.start ≤ s.stop ∧ s.stop ≤ utf8Len source.toList) ∧
    ∃ before line after shown, Report.Underlines name source d before line after shown := by
  have hplaced := h.placed
  refine ⟨fun s hs => ?_, Report.exists_underlines hplaced.span name⟩
  have hs : s.Placed source.toList := hplaced.spans s hs
  exact ⟨hs, hs.start_le_stop, hs.stop_le⟩

/-- A comment that never ends, after two-byte text, of which the rest of a line is shown. -/
theorem plain_underlines_comment :
    let source := "\"é\" /* c\r\nd"
    ∃ d, Returned source d ∧
      Report.plain "f" source d =
        "scan error[rill::scan]: unterminated block comment\n  --> f:1:5\n  |\n" ++
          "1 | \"é\" /* c\n  |     ^^^^\n" ∧
      ∃ before line after shown, Report.Underlines "f" source d before line after shown := by
  intro source
  have hread : (Scan.scan source.toList).finish.errorList.map (Report.plain "f" source) =
      ["scan error[rill::scan]: unterminated block comment\n  --> f:1:5\n  |\n" ++
        "1 | \"é\" /* c\n  |     ^^^^\n"] := by decide +kernel
  have herrors : (Scan.scan source.toList).finish.errors.isEmpty = false := by decide +kernel
  obtain ⟨d, hd, htext⟩ := List.map_eq_singleton_iff.mp hread
  have hlex : Scan.lex source = .error [d] := by
    rw [Scan.lex, ← hd]
    exact if_neg (Bool.eq_false_iff.mp herrors)
  have hreturned : Returned source d := .lex hlex (List.mem_singleton_self d)
  exact ⟨d, hreturned, htext, (plain_underlines hreturned "f").2⟩

end PipeLang
