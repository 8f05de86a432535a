import PipeLang.Format.Source
import PipeLang.Proofs.Format.Lines

/-! A diff as a patch. It is read back from its text, for every entry is a line of its own and shows its sign
and its number before any of the text it is about. What the entries of a line say, done to the old line,
gives the new one. -/

namespace PipeLang

/-! ## Lines -/

theorem not_mem_of_mem_betweenFeeds {cs : List Char} : ∀ piece ∈ betweenFeeds cs, '\n' ∉ piece := by
  induction cs with
  | nil => simp [betweenFeeds]
  | cons c cs ih =>
    rw [betweenFeeds]
    split
    · exact List.forall_mem_cons.mpr ⟨List.not_mem_nil, ih⟩
    next hc =>
    cases hpieces : betweenFeeds cs with
    | nil => exact absurd hpieces (betweenFeeds_ne_nil cs)
    | cons p ps =>
      rw [hpieces] at ih
      obtain ⟨hp, hps⟩ := List.forall_mem_cons.mp ih
      exact List.forall_mem_cons.mpr ⟨fun h => (List.mem_cons.mp h).elim (fun h => hc h.symm) hp, hps⟩

theorem mem_of_mem_dropReturn {c : Char} {line : List Char} (h : c ∈ dropReturn line) : c ∈ line := by
  unfold dropReturn at h
  split at h
  · exact List.mem_of_mem_dropLast h
  · exact h

theorem not_mem_of_mem_endLines {pieces : List (List Char)} (h : ∀ piece ∈ pieces, '\n' ∉ piece) :
    ∀ line ∈ endLines pieces, '\n' ∉ line := by
  induction pieces with
  | nil => exact fun _ hline => absurd hline List.not_mem_nil
  | cons p ps ih =>
    obtain ⟨hp, hps⟩ := List.forall_mem_cons.mp h
    cases ps with
    | nil =>
      rw [endLines]
      split
      · exact fun _ hline => absurd hline List.not_mem_nil
      · exact h
    | cons q ps =>
      exact List.forall_mem_cons.mpr ⟨fun hmem => hp (mem_of_mem_dropReturn hmem), ih hps⟩

theorem feedFree_of_mem_lines {text line : String} (h : line ∈ lines text) : FeedFree line := by
  obtain ⟨cs, hcs, rfl⟩ := List.mem_map.mp h
  rw [FeedFree, String.toList_ofList]
  exact not_mem_of_mem_endLines not_mem_of_mem_betweenFeeds cs hcs

namespace Diff

inductive Sign
  | removed | added
  deriving DecidableEq

def Sign.spelling : Sign → String
  | removed => "-"
  | added => "+"

/-- A line that a diff mentions. -/
structure Entry where
  sign : Sign
  number : Nat
  line : String
  deriving DecidableEq

/-! ## Reading a diff -/

def readSign? : Char → Option Sign
  | '-' => some .removed
  | '+' => some .added
  | _ => none

def afterBar? : List Char → Option String
  | ' ' :: '|' :: ' ' :: line => some (String.ofList line)
  | _ => none

/-- A sign, a number with blanks before it, and what comes after the bar. -/
def readLine? : List Char → Option Entry
  | [] => none
  | c :: cs => do
    let sign ← readSign? c
    let number := cs.dropWhile (· == ' ')
    let line ← afterBar? (number.dropWhile Char.isDigit)
    some ⟨sign, digitsValue (number.takeWhile Char.isDigit), line⟩

/-- The entries of a diff. Each of them ends with a line feed. -/
def read? (diff : String) : Option (List Entry) :=
  let pieces := betweenFeeds diff.toList
  if pieces.getLast? = some [] then pieces.dropLast.mapM readLine? else none

/-- An entry without the line feed that ends it. -/
def Entry.chars (e : Entry) : List Char :=
  e.sign.spelling.toList ++ (lineNumber e.number).toList ++ " | ".toList ++ e.line.toList

def Entry.text (e : Entry) : String := entry e.sign.spelling e.number (some e.line)

theorem Entry.toList_text (e : Entry) : e.text.toList = e.chars ++ ['\n'] := by
  simp [text, entry, chars]

theorem toList_lineNumber (n : Nat) : (lineNumber n).toList =
    List.replicate (4 - (Nat.toDigits 10 n).length) ' ' ++ Nat.toDigits 10 n := by
  have hdigits : toString n = String.ofList (Nat.toDigits 10 n) := rfl
  rw [lineNumber, hdigits]
  simp

/-- The number ends where the blank before the bar begins, and it has a digit. -/
theorem number_of_lineNumber (n : Nat) (rest : List Char) :
    let number := ((lineNumber n).toList ++ ' ' :: rest).dropWhile (· == ' ')
    number.takeWhile Char.isDigit = Nat.toDigits 10 n ∧
      number.dropWhile Char.isDigit = ' ' :: rest := by
  have hall : ∀ c ∈ Nat.toDigits 10 n, c.isDigit = true := fun _ hc => Decimal.isDigit_of_mem_toDigits hc
  obtain ⟨d, ds, hds⟩ := List.exists_cons_of_ne_nil (Nat.toDigits_ne_nil (n := n) (b := 10))
  have hnumber : ((lineNumber n).toList ++ ' ' :: rest).dropWhile (· == ' ') =
      Nat.toDigits 10 n ++ ' ' :: rest := by
    rw [toList_lineNumber, List.append_assoc, List.dropWhile_append_of_pos fun c hc => by
      rw [List.eq_of_mem_replicate hc]
      rfl]
    rw [hds] at hall ⊢
    refine List.dropWhile_cons_of_neg fun hd => ?_
    rw [beq_iff_eq] at hd
    have hdigit := hall d List.mem_cons_self
    rw [hd] at hdigit
    cases hdigit
  dsimp only
  rw [hnumber, List.takeWhile_append_of_pos hall, List.dropWhile_append_of_pos hall]
  exact ⟨List.append_nil _, rfl⟩

theorem readLine?_chars (e : Entry) : readLine? e.chars = some e := by
  obtain ⟨sign, n, line⟩ := e
  obtain ⟨hvalue, hrest⟩ := number_of_lineNumber n ('|' :: ' ' :: line.toList)
  have hread : ∀ c, readSign? c = some sign →
      readLine? (c :: ((lineNumber n).toList ++ ' ' :: '|' :: ' ' :: line.toList)) =
        some ⟨sign, n, line⟩ := by
    intro c hc
    simp only [readLine?, hc, hrest, hvalue, afterBar?, digitsValue_toDigits, String.ofList_toList,
      Option.bind_eq_bind, Option.bind_some]
  cases sign with
  | removed => simpa [Entry.chars, Sign.spelling] using hread '-' rfl
  | added => simpa [Entry.chars, Sign.spelling] using hread '+' rfl

theorem Entry.feedFree_chars {e : Entry} (h : FeedFree e.line) : '\n' ∉ e.chars := by
  have hnumber : '\n' ∉ (lineNumber e.number).toList := by
    rw [toList_lineNumber]
    intro hmem
    rcases List.mem_append.mp hmem with hmem | hmem
    · exact absurd (List.eq_of_mem_replicate hmem) (by decide)
    · exact absurd (Decimal.isDigit_of_mem_toDigits hmem) (by decide)
  have hsign : '\n' ∉ e.sign.spelling.toList := by
    cases e.sign <;> decide
  simp only [chars, List.mem_append, not_or]
  exact ⟨⟨⟨hsign, hnumber⟩, by decide⟩, h⟩

theorem betweenFeeds_join {entries : List Entry} (h : ∀ e ∈ entries, FeedFree e.line) :
    betweenFeeds (String.join (entries.map Entry.text)).toList = entries.map Entry.chars ++ [[]] := by
  induction entries with
  | nil => rfl
  | cons e entries ih =>
    obtain ⟨he, hentries⟩ := List.forall_mem_cons.mp h
    rw [List.map_cons, String.join_cons, String.toList_append, e.toList_text, List.append_assoc,
      List.singleton_append, betweenFeeds_append (Entry.feedFree_chars he), ih hentries]
    rfl

/-- A diff is read back whole, whatever text it is about. -/
theorem read?_join {entries : List Entry} (h : ∀ e ∈ entries, FeedFree e.line) :
    read? (String.join (entries.map Entry.text)) = some entries := by
  have hentries : (entries.map Entry.chars).mapM readLine? = some entries := by
    clear h
    induction entries with
    | nil => rfl
    | cons e entries ih => simp [readLine?_chars, ih]
  unfold read?
  dsimp only
  rw [betweenFeeds_join h]
  simp [hentries]

/-! ## Replaying a diff -/

/-- Line `n`, which was `old`: the line that is added there, or nothing if it is only taken away, or else
what it was. -/
def replayLine (entries : List Entry) (n : Nat) (old : Option String) : Option String :=
  let here := entries.filter (·.number = n)
  match here.find? (·.sign = .added) with
  | some e => some e.line
  | none => if here.isEmpty then old else none

/-- The lines that `old` becomes, up to its last line and to the last one that is mentioned. -/
def replay (entries : List Entry) (old : List String) : List String :=
  let last := (entries.map Entry.number).foldl max old.length
  (List.range last).filterMap fun i => replayLine entries (i + 1) old[i]?

/-- What the diff of two texts says of line `n`. -/
def lineEntries (n : Nat) (old new : Option String) : List Entry :=
  if old = new then []
  else old.toList.map (⟨.removed, n, ·⟩) ++ new.toList.map (⟨.added, n, ·⟩)

def entries (old new : List String) : List Entry :=
  (List.range (max old.length new.length)).flatMap fun i => lineEntries (i + 1) old[i]? new[i]?

theorem change_eq_join (n : Nat) (old new : Option String) :
    change n old new = String.join ((lineEntries n old new).map Entry.text) := by
  unfold change lineEntries
  split
  · rfl
  · cases old <;> cases new <;> simp [entry, Entry.text, Sign.spelling]

theorem text_eq_join (old new : List String) :
    text old new = String.join ((entries old new).map Entry.text) := by
  unfold text entries
  induction List.range (max old.length new.length) with
  | nil => rfl
  | cons i is ih =>
    rw [List.map_cons, String.join_cons, ih, List.flatMap_cons, List.map_append, String.join_append,
      change_eq_join]

section

variable {n : Nat} {o w : Option String} {old new : List String} {e : Entry}

theorem number_of_mem_lineEntries (h : e ∈ lineEntries n o w) : e.number = n := by
  unfold lineEntries at h
  split at h
  · cases h
  · rcases List.mem_append.mp h with h | h <;> obtain ⟨_, _, rfl⟩ := List.mem_map.mp h <;> rfl

theorem line_of_mem_lineEntries (h : e ∈ lineEntries n o w) : o = some e.line ∨ w = some e.line := by
  unfold lineEntries at h
  split at h
  · cases h
  · rcases List.mem_append.mp h with h | h <;> obtain ⟨line, hline, rfl⟩ := List.mem_map.mp h
    · exact .inl (Option.mem_toList.mp hline)
    · exact .inr (Option.mem_toList.mp hline)

theorem feedFree_of_mem_entries {a b : String} (h : e ∈ entries (lines a) (lines b)) : FeedFree e.line := by
  obtain ⟨i, _, hi⟩ := List.mem_flatMap.mp h
  rcases line_of_mem_lineEntries hi with hline | hline <;>
    exact feedFree_of_mem_lines (List.mem_of_getElem? hline)

/-- What is said of other lines does not count. -/
theorem filter_flatMap_lineEntries (old new : List String) (i m : Nat) :
    ((List.range m).flatMap fun j => lineEntries (j + 1) old[j]? new[j]?).filter (·.number = i + 1) =
      if i < m then lineEntries (i + 1) old[i]? new[i]? else [] := by
  induction m with
  | zero => rfl
  | succ m ih =>
    rw [List.range_succ, List.flatMap_append, List.filter_append, ih, List.flatMap_singleton]
    by_cases him : i = m
    · subst him
      rw [if_neg (Nat.lt_irrefl i), if_pos (Nat.lt_succ_self i), List.nil_append]
      exact List.filter_eq_self.mpr fun e he => by simp [number_of_mem_lineEntries he]
    · have hnone : (lineEntries (m + 1) old[m]? new[m]?).filter (·.number = i + 1) = [] := by
        refine List.filter_eq_nil_iff.mpr fun e he => ?_
        rw [number_of_mem_lineEntries he]
        simp [Ne.symm him]
      rw [hnone, List.append_nil]
      exact if_congr (by omega) rfl rfl

theorem filter_entries (old new : List String) (i : Nat) :
    (entries old new).filter (·.number = i + 1) = lineEntries (i + 1) old[i]? new[i]? := by
  refine (filter_flatMap_lineEntries old new i _).trans ?_
  split
  · rfl
  · next hlast =>
    rw [List.getElem?_eq_none (by omega), List.getElem?_eq_none (by omega)]
    rfl

theorem replayLine_entries (old new : List String) (i : Nat) :
    replayLine (entries old new) (i + 1) old[i]? = new[i]? := by
  unfold replayLine
  rw [filter_entries]
  unfold lineEntries
  by_cases hsame : old[i]? = new[i]?
  · simp [hsame]
  · rw [if_neg hsame]
    cases ho : old[i]? <;> cases hw : new[i]? <;> simp_all

theorem le_foldl_max (ns : List Nat) (m : Nat) : m ≤ ns.foldl max m ∧ ∀ n ∈ ns, n ≤ ns.foldl max m := by
  induction ns generalizing m with
  | nil => exact ⟨Nat.le_refl m, fun _ h => absurd h List.not_mem_nil⟩
  | cons n ns ih =>
    obtain ⟨hm, hns⟩ := ih (max m n)
    exact ⟨(Nat.le_max_left m n).trans hm, List.forall_mem_cons.mpr ⟨(Nat.le_max_right m n).trans hm, hns⟩⟩

/-- Lines that are added past the end are mentioned, the last of them too. -/
theorem length_le_last (old new : List String) :
    new.length ≤ ((entries old new).map Entry.number).foldl max old.length := by
  obtain ⟨hold, hall⟩ := le_foldl_max ((entries old new).map Entry.number) old.length
  rcases Nat.lt_or_ge old.length new.length with hlt | hle
  · refine hall _ (List.mem_map.mpr ?_)
    have hnone : old[new.length - 1]? = none := List.getElem?_eq_none (by omega)
    have hsome : new[new.length - 1]? = some new[new.length - 1] := List.getElem?_eq_getElem (by omega)
    refine ⟨⟨.added, new.length, new[new.length - 1]⟩, List.mem_flatMap.mpr ⟨new.length - 1, ?_, ?_⟩, rfl⟩
    · exact List.mem_range.mpr (by omega)
    · rw [hnone, hsome, Nat.sub_add_cancel (by omega)]
      simp [lineEntries]
  · exact hle.trans hold

theorem filterMap_getElem?_range {α : Type} {as : List α} {m : Nat} (h : as.length ≤ m) :
    (List.range m).filterMap (as[·]?) = as := by
  induction as generalizing m with
  | nil => simp
  | cons a as ih =>
    obtain ⟨m, rfl⟩ := Nat.exists_eq_add_one_of_ne_zero (Nat.ne_of_gt (Nat.zero_lt_of_lt h))
    rw [List.range_succ_eq_map, List.filterMap_cons, List.filterMap_map]
    exact congrArg (a :: ·) (ih (Nat.le_of_succ_le_succ h))

/-- The entries of a diff take the old lines to the new ones. -/
theorem replay_entries (old new : List String) : replay (entries old new) old = new := by
  unfold replay
  dsimp only
  simp only [replayLine_entries]
  exact filterMap_getElem?_range (length_le_last old new)

end

end Diff

/-- There is no diff exactly when a text is in canonical form already. Otherwise the entries that are read
back from the diff, done to the lines of the text, give those of its canonical form. -/
theorem formatDiff_replays {source text : String} (h : format {} source = .ok text) :
    (formatDiff? source = .ok none ↔ isFormatted source = .ok true) ∧
      (formatDiff? source = .ok none ∨ ∃ diff entries, formatDiff? source = .ok (some diff) ∧
        Diff.read? diff = some entries ∧ Diff.replay entries (lines source) = lines text) := by
  have hformatted : isFormatted source = .ok (source == text) := by
    rw [isFormatted, h]
    rfl
  have hdiff : formatDiff? source =
      .ok (if source = text then none else some (Diff.text (lines source) (lines text))) := by
    rw [formatDiff?, h]
    rfl
  rw [hformatted, hdiff]
  by_cases hsame : source = text
  · simp [hsame]
  · have hread : Diff.read? (Diff.text (lines source) (lines text)) =
        some (Diff.entries (lines source) (lines text)) := by
      rw [Diff.text_eq_join]
      exact Diff.read?_join fun _ => Diff.feedFree_of_mem_entries
    rw [if_neg hsame]
    exact ⟨by simp [hsame], .inr ⟨_, _, rfl, hread, Diff.replay_entries _ _⟩⟩

/-- A line that changes, one that stays and two that go. -/
theorem formatDiff_replays_shorter :
    let source := "x  = 1\r\n\n# | 1 |\ny = \"+   4 | \u00e9\""
    let text := "x = 1\ny = \"+   4 | \u00e9\"\n"
    format {} source = .ok text ∧
      (formatDiff? source = .ok none ↔ isFormatted source = .ok true) ∧
      (formatDiff? source = .ok none ∨ ∃ diff entries, formatDiff? source = .ok (some diff) ∧
        Diff.read? diff = some entries ∧ Diff.replay entries (lines source) = lines text) := by
  intro source text
  have hformat : format {} source = .ok text := eq_ok_of_toOption (by decide +kernel)
  exact ⟨hformat, formatDiff_replays hformat⟩

end PipeLang
