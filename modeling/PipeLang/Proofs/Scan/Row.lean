import PipeLang.Proofs.Scan.Filled
import PipeLang.Proofs.Scan.Lossless

/-! Spans that are places in a text, and tokens whose spans are such places, one after the other. Those of
an interpolation stand between its braces, and so within the string it is in. -/

namespace PipeLang

open String (utf8Len)

namespace Span

/-- A place in `text`: between two of its characters, with the line and column of its start. -/
def Placed (text : List Char) (s : Span) : Prop :=
  ∃ before inner after, before ++ inner ++ after = text ∧ s = .ofText before inner

/-- A place with some text in it. -/
structure Located (text : List Char) (s : Span) : Prop where
  placed : s.Placed text
  nonempty : s.start < s.stop

/-- `t` lies inside `s`. -/
structure Covers (s t : Span) : Prop where
  start : s.start ≤ t.start
  stop : t.stop ≤ s.stop

variable {text : List Char} {s t u : Span}

theorem Covers.refl : s.Covers s := ⟨Nat.le_refl _, Nat.le_refl _⟩

theorem Covers.trans (h : s.Covers t) (h' : t.Covers u) : s.Covers u :=
  ⟨Nat.le_trans h.start h'.start, Nat.le_trans h'.stop h.stop⟩

theorem covers_merge_left : (s.merge t).Covers s :=
  ⟨by rw [merge_start]; exact Nat.min_le_left _ _, by rw [merge_stop]; exact Nat.le_max_left _ _⟩

theorem covers_merge_right : (s.merge t).Covers t :=
  ⟨by rw [merge_start]; exact Nat.min_le_right _ _, by rw [merge_stop]; exact Nat.le_max_right _ _⟩

theorem Covers.merge (hs : u.Covers s) (ht : u.Covers t) : u.Covers (s.merge t) :=
  ⟨by rw [merge_start]; exact Nat.le_min.mpr ⟨hs.start, ht.start⟩,
    by rw [merge_stop]; exact Nat.max_le.mpr ⟨hs.stop, ht.stop⟩⟩

variable {α : Type} {f : α → Span} {as : List α}

theorem covers_foldl_merge (f : α → Span) (s : Span) (as : List α) :
    (as.foldl (fun s a => s.merge (f a)) s).Covers s ∧
      ∀ a ∈ as, (as.foldl (fun s a => s.merge (f a)) s).Covers (f a) := by
  induction as generalizing s with
  | nil => exact ⟨.refl, fun _ ha => absurd ha List.not_mem_nil⟩
  | cons b as ih =>
    obtain ⟨hfirst, hrest⟩ := ih (s.merge (f b))
    refine ⟨hfirst.trans covers_merge_left, fun a ha => ?_⟩
    rcases List.mem_cons.mp ha with rfl | ha
    · exact hfirst.trans covers_merge_right
    · exact hrest a ha

theorem Covers.foldl_merge (hs : u.Covers s) (has : ∀ a ∈ as, u.Covers (f a)) :
    u.Covers (as.foldl (fun s a => s.merge (f a)) s) := by
  induction as generalizing s with
  | nil => exact hs
  | cons b as ih =>
    exact ih (hs.merge (has b List.mem_cons_self)) fun a ha => has a (List.mem_cons_of_mem b ha)

theorem Placed.start_le_stop (h : s.Placed text) : s.start ≤ s.stop := by
  obtain ⟨before, inner, after, -, rfl⟩ := h
  simp [ofText]

end Span

/-- The shorter of two beginnings of a text begins the longer one. -/
theorem prefix_of_utf8Len_le {b e text : List Char} (hb : b <+: text) (he : e <+: text)
    (hle : utf8Len b ≤ utf8Len e) : b <+: e := by
  rcases List.prefix_or_prefix_of_prefix hb he with h | ⟨r, rfl⟩
  · exact h
  · have hr : utf8Len r = 0 := by
      rw [String.utf8Len_append] at hle
      omega
    rw [String.utf8Len_eq_zero.mp hr, List.append_nil]

theorem Span.placed_iff {text : List Char} {s : Span} : s.Placed text ↔
    ∃ b e, b <+: text ∧ e <+: text ∧ utf8Len b ≤ utf8Len e ∧
      s = (Position.origin.after b).to (.after .origin e) := by
  constructor
  · rintro ⟨before, inner, after, rfl, rfl⟩
    exact ⟨before, before ++ inner, ⟨inner ++ after, by simp⟩, ⟨after, rfl⟩, by simp,
      (Position.to_after before inner).symm⟩
  · rintro ⟨b, e, hb, he, hle, rfl⟩
    obtain ⟨inner, rfl⟩ := prefix_of_utf8Len_le hb he hle
    obtain ⟨after, hafter⟩ := he
    exact ⟨b, inner, after, hafter, Position.to_after b inner⟩

/-- From the earlier start to the later end is a place again. -/
theorem Span.Placed.merge {text : List Char} {s t : Span} (hs : s.Placed text) (ht : t.Placed text) :
    (s.merge t).Placed text := by
  obtain ⟨b, e, hb, he, hle, rfl⟩ := Span.placed_iff.mp hs
  obtain ⟨b', e', hb', he', hle', rfl⟩ := Span.placed_iff.mp ht
  simp only [Span.placed_iff, Span.merge, Position.to, Position.after_origin]
  rcases Nat.lt_or_ge (utf8Len b') (utf8Len b) with hstart | hstart <;>
    rcases Nat.le_total (utf8Len e) (utf8Len e') with hstop | hstop
  · exact ⟨b', e', hb', he', hle', by simp [hstart, hstop]⟩
  · exact ⟨b', e, hb', he, by omega, by simp [hstart, hstop]⟩
  · exact ⟨b, e', hb, he', by omega, by simp [Nat.not_lt.mpr hstart, hstop]⟩
  · exact ⟨b, e, hb, he, hle, by simp [Nat.not_lt.mpr hstart, hstop]⟩

theorem Span.Located.merge {text : List Char} {s t : Span} (hs : s.Located text) (ht : t.Placed text) :
    (s.merge t).Located text := by
  refine ⟨hs.placed.merge ht, ?_⟩
  have hcovers := Span.covers_merge_left (s := s) (t := t)
  exact Nat.lt_of_le_of_lt hcovers.start (Nat.lt_of_lt_of_le hs.nonempty hcovers.stop)

theorem Span.Located.foldl_merge {α : Type} {text : List Char} {s : Span} {f : α → Span} {as : List α}
    (hs : s.Located text) (has : ∀ a ∈ as, (f a).Placed text) :
    (as.foldl (fun s a => s.merge (f a)) s).Located text := by
  induction as generalizing s with
  | nil => exact hs
  | cons b as ih =>
    exact ih (hs.merge (has b List.mem_cons_self)) fun a ha => has a (List.mem_cons_of_mem b ha)

/-! ## Tokens in a row -/

/-- Tokens with text: all but the ends of lines, of blocks and of the text. -/
def TokenKind.isSolid (k : TokenKind) : Bool := !(k.isNewline || k.isDedent || k.isEof)

/-- The tokens `ts` stand in `text` one after the other, between the bytes `lo` and `hi`. -/
inductive Row (text : List Char) : Nat → List Token → Nat → Prop
  | nil {lo hi : Nat} (le : lo ≤ hi) : Row text lo [] hi
  | cons {lo hi : Nat} {t : Token} {ts : List Token} (after : lo ≤ t.span.start)
    (placed : t.span.Placed text) (nonempty : t.kind.isSolid = true → t.span.start < t.span.stop)
    (within : ∀ parts, t.kind = .text parts → ∀ us s, .hole us s ∈ parts →
      t.span.Covers s ∧ s.Located text)
    (inside : ∀ parts, t.kind = .text parts → ∀ us s, .hole us s ∈ parts → Row text s.start us s.stop)
    (rest : Row text t.span.stop ts hi) : Row text lo (t :: ts) hi

namespace Row

variable {text : List Char} {lo hi : Nat} {t : Token} {ts us : List Token}

theorem le (h : Row text lo ts hi) : lo ≤ hi := by
  induction h with
  | nil le => exact le
  | cons after placed _ _ _ _ _ ih => exact Nat.le_trans after (Nat.le_trans placed.start_le_stop ih)

theorem head (h : Row text lo (t :: ts) hi) :
    lo ≤ t.span.start ∧ t.span.Placed text ∧ Row text t.span.stop ts hi := by
  cases h with
  | cons after placed _ _ _ rest => exact ⟨after, placed, rest⟩

theorem located (h : Row text lo (t :: ts) hi) (hsolid : t.kind.isSolid = true) : t.span.Located text := by
  cases h with
  | cons _ placed nonempty => exact ⟨placed, nonempty hsolid⟩

theorem hole (h : Row text lo (t :: ts) hi) {parts : List StringPart} (ht : t.kind = .text parts)
    {inner : List Token} {s : Span} (hmem : .hole inner s ∈ parts) :
    t.span.Covers s ∧ s.Located text ∧ Row text s.start inner s.stop := by
  cases h with
  | cons _ _ _ within inside =>
    obtain ⟨hcovers, hlocated⟩ := within parts ht inner s hmem
    exact ⟨hcovers, hlocated, inside parts ht inner s hmem⟩

/-- Some tokens stand before where the last of them stops, and the others are in a row from there. -/
theorem after {skipped : List Token} {last : Token} (h : Row text lo (skipped ++ us) hi)
    (hlast : skipped.getLast? = some last) :
    Row text last.span.stop us hi ∧
      ∀ t ∈ skipped, t.span.Placed text ∧ lo ≤ t.span.start ∧ t.span.stop ≤ last.span.stop := by
  induction skipped generalizing lo with
  | nil => cases hlast
  | cons t rest ih =>
    obtain ⟨hafter, hplaced, hrest⟩ := head h
    have hrow : Row text last.span.stop us hi ∧ t.span.stop ≤ last.span.stop ∧
        ∀ u ∈ rest, u.span.Placed text ∧ t.span.stop ≤ u.span.start ∧
          u.span.stop ≤ last.span.stop := by
      cases rest with
      | nil =>
        obtain rfl : t = last := Option.some.inj hlast
        exact ⟨hrest, Nat.le_refl _, fun _ hu => absurd hu List.not_mem_nil⟩
      | cons u rest =>
        rw [List.getLast?_cons_cons] at hlast
        obtain ⟨hus, hall⟩ := ih hrest hlast
        obtain ⟨hu, hstart, hstop⟩ := hall u List.mem_cons_self
        exact ⟨hus, Nat.le_trans hstart (Nat.le_trans hu.start_le_stop hstop), hall⟩
    obtain ⟨hus, hstop, hall⟩ := hrow
    refine ⟨hus, fun u hu => ?_⟩
    rcases List.mem_cons.mp hu with rfl | hu
    · exact ⟨hplaced, hafter, hstop⟩
    · obtain ⟨hu, hustart, hustop⟩ := hall u hu
      exact ⟨hu, Nat.le_trans hafter (Nat.le_trans hplaced.start_le_stop hustart), hustop⟩

end Row

/-- Every token with text has some. -/
theorem Spells.nonempty {before x : List Char} {t : Token} (h : Spells before x t.kind) {n : Nat}
    (hformed : t.Formed n) (hsolid : t.kind.isSolid = true) : x ≠ [] := by
  obtain ⟨k, s⟩ := t
  change Spells before x k at h
  cases h with
  | ident name =>
    cases hformed with
    | ident kind hname =>
      cases kind
      intro hnil
      have hword : isWord name.toList = true := by
        simp only [isIdentifier, Bool.and_eq_true] at hname
        exact hname.1
      rw [hnil] at hword
      cases hword
    | text kind => cases kind
    | plain kind => cases kind
  | keyword k => cases k <;> exact List.cons_ne_nil _ _
  | operator o => cases o <;> exact List.cons_ne_nil _ _
  | punctuation p => cases p <;> exact List.cons_ne_nil _ _
  | whole nonempty => exact nonempty
  | places => simp
  | text => simp
  | indent nonempty => exact nonempty
  | newline | lastLine | dedent | eof => cases hsolid

/-- Tokens that account for the text of an interpolation, which is not empty, are in a row. -/
def InRow (text : List Char) (us : List Token) (s : Span) : Prop :=
  s.start < s.stop ∧ ∀ b x r, b ++ x ++ r = text → s = .ofText b x → Tiles b x us →
    Row text s.start us s.stop

/-- An interpolation stands between the quotes of its string. -/
theorem Spells.within {text before x after : List Char} {parts : List StringPart}
    (h : Spells before x (.text parts)) (hsplit : before ++ x ++ after = text)
    (hinside : TokenKind.Holds (InRow text) (.text parts)) {us : List Token} {s : Span}
    (hmem : .hole us s ∈ parts) :
    ((Span.ofText before x).Covers s ∧ s.Located text) ∧ Row text s.start us s.stop := by
  obtain ⟨hnonempty, hrow⟩ := hinside parts rfl us s hmem
  cases h with
  | text quotes =>
    obtain ⟨b, y, r, rfl, hs, htiles⟩ := quotes.tiles hmem
    have hplace : before ++ ['"'] ++ b ++ y ++ (r ++ '"' :: after) = text := by simpa using hsplit
    refine ⟨⟨?_, ⟨_, _, _, hplace, hs⟩, hnonempty⟩, hrow _ _ _ hplace hs htiles⟩
    rw [hs]
    constructor <;> simp [Span.ofText]

theorem Tiles.row {text before cs after : List Char} {ts : List Token} (h : Tiles before cs ts)
    (hsplit : before ++ cs ++ after = text) (hformed : ∀ t ∈ ts, ∃ n, t.Formed n)
    (hinside : ∀ t ∈ ts, t.kind.Holds (InRow text)) :
    Row text (utf8Len before) ts (utf8Len (before ++ cs)) := by
  have hspells := h.spells
  obtain ⟨hhead, hchain⟩ := h.chain
  have hle : utf8Len before ≤ utf8Len (before ++ cs) := by simp
  clear h
  generalize utf8Len before = lo at hhead hle ⊢
  induction ts generalizing lo with
  | nil => exact .nil hle
  | cons t ts ih =>
    obtain ⟨hnext, hchain⟩ := List.isChain_cons.mp hchain
    obtain ⟨b, x, r, hplace, hspan, htext⟩ := hspells t List.mem_cons_self
    obtain ⟨n, hx⟩ := hformed t List.mem_cons_self
    have hkind := hinside t List.mem_cons_self
    have hb : b ++ x ++ (r ++ after) = text := by simp [← hsplit, hplace]
    have hstop : t.span.stop ≤ utf8Len (before ++ cs) := by
      rw [hspan, hplace]
      simp [Span.ofText]
    have hrest := ih (fun u hu => hformed u (List.mem_cons_of_mem t hu))
      (fun u hu => hinside u (List.mem_cons_of_mem t hu))
      (fun u hu => hspells u (List.mem_cons_of_mem t hu)) hchain t.span.stop hnext hstop
    refine .cons (hhead t rfl) ⟨b, x, r ++ after, hb, hspan⟩ (fun hsolid => ?_) ?_ ?_ hrest
    · have hne : 0 < utf8Len x :=
        Nat.pos_of_ne_zero fun hzero => htext.nonempty hx hsolid (String.utf8Len_eq_zero.mp hzero)
      rw [hspan]
      simpa [Span.ofText] using hne
    all_goals
      intro parts hparts us s hmem
      rw [hparts] at htext hkind
      obtain ⟨hwithin, hrow⟩ := htext.within hb hkind hmem
    · exact hspan ▸ hwithin
    · exact hrow

/-- By induction on the interpolations in one another. -/
theorem Filled.inRow {text : List Char} {us : List Token} {s : Span} (h : Filled us s) :
    (∀ u ∈ us, ∃ n, u.Formed n) → InRow text us s := by
  induction h with
  | @mk us s nonempty _ ih =>
    intro hformed
    refine ⟨nonempty, fun b x r hsplit hs htiles => ?_⟩
    have hrow := htiles.row hsplit hformed fun u hu parts hparts vs span hmem => by
      obtain ⟨n, hu'⟩ := hformed u hu
      exact ih u hu parts hparts vs span hmem fun v hv => ⟨n - 1, hu'.hole hparts hmem v hv⟩
    rwa [hs]

namespace Scan

theorem row_scan {source : String} (h : (scan source.toList).finish.errors = []) :
    Row source.toList 0 (scan source.toList).finish.tokenList (utf8Len source.toList) := by
  have hformed := formed_of_lex (lex_eq_ok.mpr ⟨h, rfl⟩)
  refine (tiles_scan h).row (List.append_nil _) (fun t ht => ⟨_, hformed t ht⟩) ?_
  intro t ht parts hparts us s hmem
  exact (filled_scan _ t ht parts hparts us s hmem).inRow fun u hu =>
    ⟨_, (hformed t ht).hole hparts hmem u hu⟩

end Scan

end PipeLang
