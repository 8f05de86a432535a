import PipeLang.Proofs.Parse.Run
import PipeLang.Proofs.Tree.Relocate

/-! Tokens and diagnostics that differ in their spans alone. Two functions say which spans correspond:
those that the first one and the second one send to the same span. Constant functions let every span
correspond to every other, and identities only to itself. What the tokens of interpolations have in
common is left open. -/

namespace PipeLang

/-- The first token of either pair ends where the second one starts, or before that, if the first of
the other does. -/
structure Token.SameGap (t u t' u' : Token) : Prop where
  touch : t.span.stop = u.span.start ↔ t'.span.stop = u'.span.start
  apart : t.span.stop < u.span.start ↔ t'.span.stop < u'.span.start

def TokenKind.isText : TokenKind → Bool
  | text _ => true
  | _ => false

def StringPart.hole? : StringPart → Option (List Token)
  | literal _ => none
  | hole tokens _ => some tokens

/-- The tokens of each interpolation in a string. -/
def TokenKind.interpolations : TokenKind → List (List Token)
  | text parts => parts.filterMap StringPart.hole?
  | _ => []

/-- A fact about kinds for which all strings are the same. -/
def TokenKind.Blind (p : TokenKind → α) : Prop := ∀ ps qs, p (.text ps) = p (.text qs)

section

variable (f g : Span → Span) (holes : List Token → List Token → Prop)

inductive StringPart.Alike : StringPart → StringPart → Prop
  | literal (text : String) : StringPart.Alike (.literal text) (.literal text)
  | hole {ts us : List Token} {s s' : Span} (tokens : holes ts us) (span : f s = g s') :
    StringPart.Alike (.hole ts s) (.hole us s')

/-- The same kind, up to what stands in its interpolations. -/
inductive TokenKind.Alike : TokenKind → TokenKind → Prop
  | plain {k : TokenKind} (not_text : k.isText = false) : TokenKind.Alike k k
  | text {ps qs : List StringPart} (parts : List.Forall₂ (StringPart.Alike f g holes) ps qs) :
    TokenKind.Alike (.text ps) (.text qs)

/-- The same kind and corresponding spans. -/
structure Token.Alike (t t' : Token) : Prop where
  kind : TokenKind.Alike f g holes t.kind t'.kind
  span : f t.span = g t'.span

/-- Causes that name alike tokens. -/
inductive Cause.Alike : Cause → Cause → Prop
  | same (cause : Cause) : Cause.Alike cause cause
  | unexpected {k k' : TokenKind} (kind : TokenKind.Alike f g holes k k') (place : Place) :
    Cause.Alike (.unexpected k place) (.unexpected k' place)

structure Diagnostic.Alike (d d' : Diagnostic) : Prop where
  cause : Cause.Alike f g holes d.cause d'.cause
  span : f d.span = g d'.span
  expected : d.expected = d'.expected
  labels : List.Forall₂ (fun l l' => f l.1 = g l'.1 ∧ l.2 = l'.2) d.labels d'.labels
  notes : d.notes = d'.notes
  hints : d.hints = d'.hints

end

variable {f g : Span → Span} {holes : List Token → List Token → Prop}

namespace TokenKind.Alike

variable {k k' : TokenKind}

theorem blind {p : TokenKind → α} (h : TokenKind.Alike f g holes k k') (hp : Blind p) : p k = p k' := by
  cases h with
  | plain => rfl
  | text => exact hp _ _

theorem describe (h : TokenKind.Alike f g holes k k') : k.describe = k'.describe := h.blind fun _ _ => rfl

end TokenKind.Alike

namespace Cause.Alike

variable {a b : Cause}

theorem failure (h : Cause.Alike f g holes a b) : a.failure = b.failure := by
  cases h with
  | same => rfl
  | unexpected => rfl

theorem message (h : Cause.Alike f g holes a b) : a.message = b.message := by
  cases h with
  | same => rfl
  | unexpected kind place =>
    exact congrArg (fun found => "unexpected " ++ found ++ " " ++ place.phrase) kind.describe

end Cause.Alike

namespace Diagnostic.Alike

variable {d d' : Diagnostic}

theorem withExpected (h : Diagnostic.Alike f g holes d d') (new : List Expected) :
    Diagnostic.Alike f g holes (d.withExpected new) (d'.withExpected new) :=
  ⟨h.cause, h.span, congrArg (Expected.addNew · new) h.expected, h.labels, h.notes, h.hints⟩

theorem withLabel (h : Diagnostic.Alike f g holes d d') {s s' : Span} (hs : f s = g s') (label : String) :
    Diagnostic.Alike f g holes (d.withLabel s label) (d'.withLabel s' label) :=
  ⟨h.cause, h.span, h.expected, List.rel_append h.labels (.cons ⟨hs, rfl⟩ .nil), h.notes, h.hints⟩

theorem withNote (h : Diagnostic.Alike f g holes d d') (note : String) :
    Diagnostic.Alike f g holes (d.withNote note) (d'.withNote note) :=
  ⟨h.cause, h.span, h.expected, h.labels, congrArg (· ++ [note]) h.notes, h.hints⟩

theorem withHint (h : Diagnostic.Alike f g holes d d') (hint : String) :
    Diagnostic.Alike f g holes (d.withHint hint) (d'.withHint hint) :=
  ⟨h.cause, h.span, h.expected, h.labels, h.notes, congrArg (· ++ [hint]) h.hints⟩

theorem withExample (h : Diagnostic.Alike f g holes d d') (examples : List Example) :
    Diagnostic.Alike f g holes (d.withExample examples) (d'.withExample examples) := by
  cases examples with
  | nil => exact h
  | cons e es =>
    have hinted := h.withHint ("for example: `" ++ e.code ++ "`")
    simp only [Diagnostic.withExample]
    cases e.note with
    | some note => exact hinted.withNote note
    | none => exact hinted

theorem new {a b : Cause} {s s' : Span} (ha : Cause.Alike f g holes a b) (hs : f s = g s') :
    Diagnostic.Alike f g holes { cause := a, span := s } { cause := b, span := s' } :=
  ⟨ha, hs, rfl, .nil, rfl, rfl⟩

end Diagnostic.Alike

namespace Token.Alike

variable {c c' : Cursor}

theorem failure (h : Token.Alike f g holes c.peek c'.peek) (cause : Cause) :
    Diagnostic.Alike f g holes (c.failure cause) (c'.failure cause) :=
  .new (.same cause) h.span

theorem unexpected (h : Token.Alike f g holes c.peek c'.peek) (place : Place) (expected : List Expected) :
    Diagnostic.Alike f g holes (c.unexpected place expected) (c'.unexpected place expected) :=
  (Diagnostic.Alike.new (.unexpected h.kind place) h.span).withExpected expected

end Token.Alike

/-! ## Only equal spans correspond -/

/-- A token is like itself if what its interpolations hold is. -/
theorem Token.Alike.refl {t : Token} (h : ∀ ts ∈ t.kind.interpolations, holes ts ts) :
    Token.Alike id id holes t t := by
  obtain ⟨k, s⟩ := t
  refine ⟨?_, rfl⟩
  cases k with
  | text parts =>
    refine .text (List.forall₂_same.mpr fun part hpart => ?_)
    cases part with
    | literal text => exact .literal text
    | hole ts s => exact .hole (h ts (List.mem_filterMap.mpr ⟨_, hpart, rfl⟩)) rfl
  | _ => exact .plain rfl

section

variable (hholes : ∀ ts us, holes ts us → ts = us)

include hholes

theorem TokenKind.Alike.eq_of_id {k k' : TokenKind} (h : TokenKind.Alike id id holes k k') :
    k = k' := by
  cases h with
  | plain => rfl
  | text parts =>
    refine congrArg TokenKind.text ?_
    induction parts with
    | nil => rfl
    | cons hpart _ ih =>
      rw [ih]
      cases hpart with
      | literal => rfl
      | @hole ts us s s' tokens span => rw [hholes _ _ tokens, show s = s' from span]

theorem Diagnostic.Alike.eq_of_id {d d' : Diagnostic} (h : Diagnostic.Alike id id holes d d') :
    d = d' := by
  obtain ⟨cause, span, expected, labels, notes, hints⟩ := h
  obtain ⟨c, s, x, ls, ns, hs, _⟩ := d
  obtain ⟨c', s', x', ls', ns', hs', _⟩ := d'
  dsimp only at cause span expected labels notes hints
  subst expected
  have hcause : c = c' := by
    cases cause with
    | same => rfl
    | unexpected kind place => rw [kind.eq_of_id hholes]
  have hlabels : ls = ls' := by
    clear * - labels
    induction labels with
    | nil => rfl
    | cons h _ ih => rw [ih, Prod.ext h.1 h.2]
  rw [hcause, show s = s' from span, hlabels, notes, hints]

end

end PipeLang
