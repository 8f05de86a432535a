import PipeLang.Proofs.Format.WrittenToken

/-! String literals as they are written. The characters of a literal segment go back through their
escapes, and what stands between braces is read on its own, as far as interpolations may nest. -/

namespace PipeLang

open Scan State

namespace Scan.Quoted

theorem flush_of_empty {q : Quoted} (h : q.literal = []) : q.flush = q := by
  unfold Quoted.flush
  rw [h]
  rfl

theorem flush_literal (q : Quoted) : q.flush.literal = [] := by
  unfold Quoted.flush
  split
  · next h => simpa using h
  · rfl

/-- A part after what is there so far. -/
def add (q : Quoted) (part : StringPart) : Quoted :=
  { q.flush with parts := part :: q.flush.parts }

theorem add_start (q : Quoted) (part : StringPart) : (q.add part).start = q.start := by
  unfold add Quoted.flush
  split <;> rfl

theorem add_parts (q : Quoted) (part : StringPart) :
    (q.add part).flush.parts.reverse = q.flush.parts.reverse ++ [part] := by
  have hempty : (q.add part).literal = [] := flush_literal q
  rw [flush_of_empty hempty]
  exact List.reverse_cons

end Scan.Quoted

namespace Scan.State

variable {inner : Option Inner} {s : State} {c : Char}

/-- The state after `cs` has been read inside a string literal, of which `q` is there so far. -/
def quoting (s : State) (cs : List Char) (q : Quoted) : State :=
  { s with mode := .text q, position := s.position.after cs }

theorem quoting_quoting (cs ds : List Char) (q r : Quoted) :
    (s.quoting cs q).quoting ds r = s.quoting (cs ++ ds) r := by
  simp [quoting, Position.after_append]

theorem quoting_nil {q : Quoted} (h : s.mode = .text q) : s.quoting [] q = s := by
  cases s
  cases h
  rfl

/-- A character that stands for itself. -/
theorem step_plain {q : Quoted} (hs : s.mode = .text q)
    (hc : c ≠ '\\' ∧ c ≠ '"' ∧ c ≠ '\x7b' ∧ c ≠ '\x7d' ∧ c ≠ '\n') :
    s.step inner c = (s.past c).become (.text { q with literal := c :: q.literal }) := by
  rw [step_text hs hc.2.2.2.2]
  unfold quote
  rw [if_neg hc.2.1, if_neg hc.1, if_neg hc.2.2.1, if_neg hc.2.2.2.1]

/-- A backslash and the character that its escape stands for. -/
theorem run_escape {q : Quoted} {d : Char} (hs : s.mode = .text q) (hd : unescape? d = some c)
    (hn : d ≠ '\n') :
    s.run inner ['\\', d] = s.quoting ['\\', d] { q with literal := c :: q.literal } := by
  have hslash : s.step inner '\\' = (s.past '\\').become (.escape q) := by
    rw [step_text hs (by decide)]
    rfl
  rw [run_cons, run_cons, run_nil, hslash]
  refine step_of_join ?_
  show (if d = '\n' then _ else _) = _
  rw [if_neg hn, hd]
  rfl

theorem run_literal {q : Quoted} (text : List Char) (hs : s.mode = .text q) :
    s.run inner (text.flatMap escapeChar) =
      s.quoting (text.flatMap escapeChar) { q with literal := text.reverse ++ q.literal } := by
  induction text generalizing s q with
  | nil => exact (quoting_nil hs).symm
  | cons c text ih =>
    have hfirst : s.run inner (escapeChar c) =
        s.quoting (escapeChar c) { q with literal := c :: q.literal } := by
      rcases escapeChar_cases c with ⟨he, hplain⟩ | ⟨d, he, hd, hn⟩
      · rw [he, run_cons, run_nil, step_plain hs hplain]
        rfl
      · rw [he, run_escape hs hd hn]
    rw [List.flatMap_cons, run_append, hfirst, ih rfl, quoting_quoting]
    simp

/-- What stands between two braces, if it leaves what encloses it as it was. -/
theorem run_hole {q : Quoted} {cs : List Char} (hs : s.mode = .text q)
    (hcs : Burrows (.brace 0) cs) :
    s.run inner ('\x7b' :: (cs ++ ['\x7d'])) =
      ({ s with
          mode := .hole q.flush
            ⟨s.position, s.position.advance '\x7b', cs.reverse, [.brace 0]⟩
          position := s.position.after ('\x7b' :: (cs ++ ['\x7d'])) }).closeHole inner q.flush
        ⟨s.position, s.position.advance '\x7b', cs.reverse, [.brace 0]⟩ := by
  have hopen : s.step inner '\x7b' = (s.past '\x7b').become
      (.hole q.flush ⟨s.position, s.position.advance '\x7b', [], [.brace 0]⟩) := by
    rw [step_text hs (by decide)]
    rfl
  rw [run_cons, run_append, hopen, hcs inner _ q.flush _ [] rfl rfl, run_cons, run_nil,
    step_hole rfl (by decide), List.append_nil]
  unfold burrow
  dsimp only [Enclosing.next]
  simp [past, become, Position.after_append]

/-- Quotes around what is read as the literal `q`. -/
theorem run_quotes {cs : List Char} {q : Quoted} (hs : s.mode = .ready)
    (hq : ((s.past '"').become (.text ⟨s.position, [], []⟩)).run inner cs =
      ((s.past '"').become (.text ⟨s.position, [], []⟩)).quoting cs q) (hstart : q.start = s.position) :
    s.run inner ('"' :: (cs ++ ['"'])) = s.read ('"' :: (cs ++ ['"']))
      [⟨.text q.flush.parts.reverse, s.position.to (s.position.after ('"' :: (cs ++ ['"'])))⟩] := by
  have hopen : s.step inner '"' = (s.past '"').become (.text ⟨s.position, [], []⟩) := by
    rw [step_of_ready hs]
    rfl
  rw [run_cons, run_append, hopen, hq, run_cons, run_nil, step_text rfl (by decide)]
  unfold quote
  rw [if_pos rfl]
  unfold emitText
  rw [hstart]
  simp [State.read, quoting, emit, past, become, Position.after_append]

theorem closeHole_of_read {q : Quoted} {h : Hole} {scan : Inner} {tokens : List Token}
    (hblank : h.body.reverse.all isBlank = false)
    (hread : scan h.start h.body.reverse = (tokens, [])) :
    s.closeHole (some scan) q h =
      { s with
        mode := .text { q with
          parts := .hole tokens (h.start.to (h.start.after h.body.reverse)) :: q.parts } } := by
  unfold closeHole
  dsimp only
  rw [hblank, if_neg Bool.false_ne_true, hread]
  rfl

end Scan.State

namespace Parse

open Format

variable {n : Nat} {cs : List Char} {ps : List Piece}

/-- What is written reads back as a text of its own that ends with its end marker. -/
theorem Written.readInside (h : Written n cs ps) (p : Position) :
    ∃ tokens, readInside n p cs = (tokens, []) ∧ At ps Cursor.Finished (.ofTokens tokens) := by
  obtain ⟨hmode, ts, hsettle, hlaid⟩ := h.reads (State.inside p) rfl
  have hfinish : ((State.inside p).run (inner? n) cs).finishInside =
      ((State.inside p).read cs ts).emitEof := by
    unfold finishInside
    rw [hsettle]
  refine ⟨ts ++ [⟨.eof, (p.after cs).to (p.after cs)⟩], ?_, ?_⟩
  · rw [readInside_eq, hfinish]
    simp [emitEof, emit, State.read, tokenList, errorList, State.inside]
  · obtain ⟨_, _, x, more, _, rfl, hx⟩ := h.head
    have hr : (Cursor.ofTokens (ts ++ [⟨.eof, (p.after cs).to (p.after cs)⟩])).rest =
        ts ++ ⟨.eof, (p.after cs).to (p.after cs)⟩ :: [] := rfl
    refine hlaid.ahead hr (Nat.le_refl _) (.inr ?_) ⟨_, rfl, rfl⟩
    intro y hy
    cases hy
    exact hx.token

theorem Written.not_blank (h : Written n cs ps) : cs.all isBlank = false := by
  obtain ⟨c, rest, _, _, rfl, _, hc⟩ := h.head
  rw [List.all_cons, hc.visible, Bool.false_and]

/-- Reading `cs` inside a string literal adds `parts` to it. A literal part must not follow another. -/
def ReadsParts (n : Nat) (cs : List Char) (parts : List PiecePart) (opens : Bool) : Prop :=
  ∀ (s : State) (q : Quoted), s.mode = .text q → (opens = true → q.literal = []) →
    ∃ q', s.run (inner? n) cs = s.quoting cs q' ∧ q'.start = q.start ∧
      ∃ found, q'.flush.parts.reverse = q.flush.parts.reverse ++ found ∧ PartsAt parts found

def opensWithLiteral (segments : List Segment) : Bool := segments.head?.any Segment.isLiteral

theorem reads_segments {segments : List Segment}
    (literals : ∀ text, .literal text ∈ segments → text ≠ "")
    (apart : Apart Segment.isLiteral segments)
    (holes : ∀ e, .hole e ∈ segments → 0 < n ∧ Written (n - 1) (bare e).toList (pieces e)) :
    ReadsParts n (segmentsText segments).toList (segmentParts segments)
      (opensWithLiteral segments) := by
  induction segments with
  | nil =>
    intro s q hs _
    refine ⟨q, ?_, rfl, [], (List.append_nil _).symm, by simp [segmentParts, PartsAt]⟩
    rw [segmentsText]
    exact (quoting_nil hs).symm
  | cons x rest ih =>
    have hrest := ih (fun t ht => literals t (List.mem_cons_of_mem x ht)) apart.tail
      fun e he => holes e (List.mem_cons_of_mem x he)
    intro s q hs hq
    cases x with
    | literal text =>
      have hempty : q.literal = [] := hq rfl
      have htext : text ≠ "" := literals text List.mem_cons_self
      have hrun : s.run (inner? n) (text.toList.flatMap escapeChar) =
          s.quoting (text.toList.flatMap escapeChar)
            { q with literal := text.toList.reverse ++ q.literal } := run_literal text.toList hs
      have hopens : opensWithLiteral rest = false := by
        cases rest with
        | nil => rfl
        | cons y rest =>
          have := (List.isChain_cons_cons.mp apart).1
          simpa [opensWithLiteral, Segment.isLiteral] using this
      obtain ⟨q', hq', hstart, found, hfound, hat⟩ := hrest
        (s.quoting (text.toList.flatMap escapeChar)
          { q with literal := text.toList.reverse ++ q.literal }) _ rfl
        (by rw [hopens]; nofun)
      refine ⟨q', ?_, hstart, .literal text :: found, ?_, ?_⟩
      · simp only [segmentsText, String.toList_append, escape_toList]
        rw [run_append, hrun, hq', quoting_quoting]
      · rw [hfound, Quoted.flush_of_empty hempty]
        simp [Quoted.flush, hempty, htext]
      · rw [segmentParts, PartsAt]
        exact ⟨rfl, hat⟩
    | hole e =>
      obtain ⟨hpos, hwritten⟩ := holes e List.mem_cons_self
      obtain ⟨m, rfl⟩ : ∃ m, n = m + 1 := ⟨n - 1, by omega⟩
      have hrun : s.run (inner? (m + 1)) ('\x7b' :: ((bare e).toList ++ ['\x7d'])) = _ :=
        run_hole hs (hwritten.passes 0)
      obtain ⟨tokens, hinside, hahead⟩ := hwritten.readInside (s.position.advance '\x7b')
      let part := StringPart.hole tokens ((s.position.advance '\x7b').to
        ((s.position.advance '\x7b').after (bare e).toList))
      have hclose : s.run (inner? (m + 1)) ('\x7b' :: ((bare e).toList ++ ['\x7d'])) =
          s.quoting ('\x7b' :: ((bare e).toList ++ ['\x7d'])) (q.add part) := by
        have hbody : (bare e).toList.reverse.reverse = (bare e).toList := List.reverse_reverse _
        rw [hrun]
        unfold inner?
        rw [closeHole_of_read (by rw [hbody]; exact hwritten.not_blank)
          (by rw [hbody]; exact hinside), hbody]
        rfl
      obtain ⟨q', hq', hstart, found, hfound, hat⟩ := hrest
        (s.quoting ('\x7b' :: ((bare e).toList ++ ['\x7d'])) (q.add part)) _ rfl
        (fun _ => Quoted.flush_literal q)
      refine ⟨q', ?_, ?_, part :: found, ?_, ?_⟩
      · have hchars : (segmentsText (.hole e :: rest)).toList =
            '\x7b' :: ((bare e).toList ++ ['\x7d']) ++ (segmentsText rest).toList := by
          simp [segmentsText, braces]
        rw [hchars, run_append, hclose, hq', quoting_quoting]
      · rw [hstart]
        exact q.add_start part
      · rw [hfound, q.add_parts, List.append_assoc]
        rfl
      · rw [segmentParts, PartsAt]
        exact ⟨hahead, hat⟩

theorem burrows_segments {segments : List Segment}
    (holes : ∀ e, .hole e ∈ segments → Passes (bare e).toList) :
    Burrows .quote (segmentsText segments).toList := by
  induction segments with
  | nil => exact .nil
  | cons x rest ih =>
    have hrest := ih fun e he => holes e (List.mem_cons_of_mem x he)
    cases x with
    | literal text =>
      simp only [segmentsText, String.toList_append, escape_toList]
      exact (Burrows.literal text.toList).append hrest
    | hole e =>
      simp only [segmentsText, braces, String.toList_append]
      exact (Burrows.hole (holes e List.mem_cons_self 0)).append hrest

/-- A string literal. -/
theorem Written.text {parts : List PiecePart} {opens : Bool} (h : ReadsParts n cs parts opens)
    (hb : Burrows .quote cs) : Written n ('"' :: (cs ++ ['"'])) [.text parts] := by
  refine ⟨⟨'"', _, _, [], rfl, rfl, rfl, rfl, by decide, nofun⟩, fun k => hb.quotes, ?_⟩
  intro s hs
  obtain ⟨q, hq, hstart, found, hfound, hat⟩ :=
    h ((s.past '"').become (.text ⟨s.position, [], []⟩)) _ rfl fun _ => rfl
  have hparts : q.flush.parts.reverse = found := hfound
  rw [run_quotes hs hq hstart, hparts]
  refine ⟨rfl, _, settle_of_ready rfl, ?_⟩
  exact .text rfl hat rfl (Position.offset_le_after _ _) (.nil _ _)

/-- A string without interpolations. -/
theorem Written.quoted (text : String) :
    Written n (quoted text).toList [.text (literalParts text)] := by
  have hchars : (PipeLang.quoted text).toList =
      '"' :: (text.toList.flatMap escapeChar ++ ['"']) := by
    simp [PipeLang.quoted]
  rw [hchars]
  suffices hreads : ReadsParts n (text.toList.flatMap escapeChar) (literalParts text) true from
    Written.text hreads (Burrows.literal text.toList)
  by_cases hempty : text = ""
  · subst hempty
    have h : ReadsParts n (segmentsText []).toList (segmentParts []) false :=
      reads_segments (by nofun) .nil (by nofun)
    intro s q hs _
    exact h s q hs nofun
  · have h : ReadsParts n (segmentsText [.literal text]).toList (segmentParts [.literal text]) true :=
      reads_segments (fun t ht => by rw [List.mem_singleton] at ht; cases ht; exact hempty)
      (.singleton _) (fun e he => by simp at he)
    unfold literalParts
    rw [if_neg hempty]
    simpa [segmentsText, segmentParts, opensWithLiteral, Segment.isLiteral] using h

end Parse

end PipeLang
