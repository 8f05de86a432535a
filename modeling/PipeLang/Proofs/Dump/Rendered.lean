import Mathlib
import PipeLang.Text.Escape
import PipeLang.Tree.Sexp

/-! S-expressions are determined by their texts, as long as every atom is either a quoted string or a run of
characters none of which ends an atom. -/

namespace PipeLang

/-- A character of an atom that is not quoted. -/
def isBare (c : Char) : Bool := c != ' ' && c != '(' && c != ')' && c != '"' && c != '\n'

inductive IsAtom : String → Prop
  | bare {text : String} (some_char : text.toList ≠ []) (chars : ∀ c ∈ text.toList, isBare c = true) :
    IsAtom text
  | string (body : String) : IsAtom (quoted body)

inductive Sexp.Clean : Sexp → Prop
  | atom {text : String} (text_ok : IsAtom text) : Clean (.atom text)
  | list {items : List Sexp} (items_ok : ∀ s ∈ items, Clean s) : Clean (.list items)

/-- No atom goes on here. -/
def EndsAtom (cs : List Char) : Prop := ∀ c ∈ cs.head?, isBare c = false

/-- What is taken as long as `p` holds is the same if the whole is the same. -/
theorem eq_of_append_eq {α : Type} {p : α → Bool} {as bs us vs : List α}
    (has : ∀ a ∈ as, p a = true) (hbs : ∀ b ∈ bs, p b = true) (hus : ∀ u ∈ us.head?, p u = false)
    (hvs : ∀ v ∈ vs.head?, p v = false) (h : as ++ us = bs ++ vs) : as = bs ∧ us = vs := by
  have hstop : ∀ {xs : List α}, (∀ x ∈ xs.head?, p x = false) → xs.takeWhile p = [] := by
    intro xs hxs
    cases xs with
    | nil => rfl
    | cons x xs => rw [List.takeWhile_cons_of_neg (by simp [hxs x rfl])]
  have htaken := congrArg (List.takeWhile p) h
  rw [List.takeWhile_append_of_pos has, List.takeWhile_append_of_pos hbs, hstop hus, hstop hvs,
    List.append_nil, List.append_nil] at htaken
  subst htaken
  exact ⟨rfl, List.append_cancel_left h⟩

/-- The first quote that is not escaped ends a string. -/
theorem eq_of_flatMap_escapeChar {cs ds us vs : List Char}
    (h : cs.flatMap escapeChar ++ '"' :: us = ds.flatMap escapeChar ++ '"' :: vs) : cs = ds ∧ us = vs := by
  have hquote : ∀ {c : Char} {rest us vs : List Char},
      escapeChar c ++ rest ++ '"' :: us ≠ '"' :: vs := by
    intro c rest us vs h
    rcases escapeChar_cases c with ⟨hc, -, hne, -⟩ | ⟨d, hc, -⟩
    · rw [hc] at h
      exact hne (List.cons.inj h).1
    · rw [hc] at h
      exact absurd (List.cons.inj h).1 (by decide)
  induction cs generalizing ds with
  | nil =>
    cases ds with
    | nil => exact ⟨rfl, (List.cons.inj h).2⟩
    | cons d ds => exact absurd h.symm hquote
  | cons c cs ih =>
    cases ds with
    | nil => exact absurd h hquote
    | cons d ds =>
      simp only [List.flatMap_cons, List.append_assoc] at h
      have hsame : c = d ∧ cs.flatMap escapeChar ++ '"' :: us = ds.flatMap escapeChar ++ '"' :: vs := by
        rcases escapeChar_cases c with ⟨hc, hslash, -⟩ | ⟨c', hc, hread, -⟩ <;>
          rcases escapeChar_cases d with ⟨hd, hslash', -⟩ | ⟨d', hd, hread', -⟩ <;>
            rw [hc, hd] at h
        · exact List.cons.inj h
        · exact absurd (List.cons.inj h).1 hslash
        · exact absurd (List.cons.inj h).1.symm hslash'
        · obtain ⟨hsame, hrest⟩ := List.cons.inj (List.cons.inj h).2
          rw [hsame, hread'] at hread
          exact ⟨(Option.some.inj hread).symm, hrest⟩
      obtain ⟨rfl, hrest⟩ := hsame
      obtain ⟨rfl, hafter⟩ := ih hrest
      exact ⟨rfl, hafter⟩

theorem toList_quoted (body : String) :
    (quoted body).toList = '"' :: (body.toList.flatMap escapeChar ++ ['"']) := by
  simp [quoted]

theorem quoted_injective {a b : String} (h : quoted a = quoted b) : a = b := by
  have hchars := congrArg String.toList h
  rw [toList_quoted, toList_quoted] at hchars
  exact String.toList_inj.mp (eq_of_flatMap_escapeChar (List.cons.inj hchars).2).1

namespace IsAtom

/-- An atom is cut out of a text whole. -/
theorem eq_of_text_append {a b : String} (ha : IsAtom a) (hb : IsAtom b) {us vs : List Char} (hus : EndsAtom us)
    (hvs : EndsAtom vs) (h : a.toList ++ us = b.toList ++ vs) : a = b ∧ us = vs := by
  have hquote : ∀ {a body : String} {us vs : List Char}, a.toList ≠ [] →
      (∀ c ∈ a.toList, isBare c = true) → a.toList ++ us ≠ (quoted body).toList ++ vs := by
    intro a body us vs hne hbare h
    obtain ⟨c, cs, hcons⟩ := List.exists_cons_of_ne_nil hne
    rw [hcons, toList_quoted] at h
    rw [hcons, (List.cons.inj h).1] at hbare
    exact absurd (hbare '"' List.mem_cons_self) (by decide)
  cases ha with
  | bare hne hbare =>
    cases hb with
    | bare hne' hbare' =>
      obtain ⟨hsame, hrest⟩ := eq_of_append_eq hbare hbare' hus hvs h
      exact ⟨String.toList_inj.mp hsame, hrest⟩
    | string body => exact absurd h (hquote hne hbare)
  | string body =>
    cases hb with
    | bare hne hbare => exact absurd h.symm (hquote hne hbare)
    | string body' =>
      simp only [toList_quoted, List.cons_append, List.append_assoc, List.nil_append] at h
      obtain ⟨hsame, hrest⟩ := eq_of_flatMap_escapeChar (List.cons.inj h).2
      rw [String.toList_inj.mp hsame]
      exact ⟨rfl, hrest⟩

/-- An atom starts with neither parenthesis. -/
theorem head {a : String} (h : IsAtom a) :
    ∃ c cs, a.toList = c :: cs ∧ c ≠ '(' ∧ c ≠ ')' := by
  cases h with
  | bare hne hbare =>
    obtain ⟨c, cs, hcons⟩ := List.exists_cons_of_ne_nil hne
    have hc := hbare c (by rw [hcons]; exact List.mem_cons_self)
    refine ⟨c, cs, hcons, ?_, ?_⟩ <;> rintro rfl <;> cases hc
  | string body => exact ⟨'"', _, toList_quoted body, by decide, by decide⟩

end IsAtom

/-! ## Lists -/

theorem toList_spaced (pieces : List String) :
    (spaced pieces).toList = pieces.flatMap fun p => ' ' :: p.toList := by
  induction pieces with
  | nil => rfl
  | cons p ps ih => simp [spaced, ih]

namespace Sexp

/-- The items of a list after the first one, the end of the list and what comes after it. -/
def tail (items : List Sexp) (us : List Char) : List Char :=
  (items.flatMap fun s => ' ' :: s.render.toList) ++ ')' :: us

theorem toList_list (items : List Sexp) (us : List Char) : (Sexp.list items).render.toList ++ us =
    '(' :: match items with
      | [] => ')' :: us
      | s :: rest => s.render.toList ++ tail rest us := by
  rw [render, renderAll_eq_map]
  cases items with
  | nil => rfl
  | cons s rest =>
    simp only [List.map_cons, joined, String.toList_append, toList_spaced, List.flatMap_map, tail]
    simp

theorem endsAtom_tail (items : List Sexp) (us : List Char) : EndsAtom (tail items us) := by
  cases items with
  | nil =>
    intro c hc
    obtain rfl : ')' = c := by simpa [tail] using hc
    decide
  | cons s rest =>
    intro c hc
    obtain rfl : ' ' = c := by simpa [tail] using hc
    decide

/-- An expression does not start like the end of a list. -/
theorem Clean.head {s : Sexp} (h : s.Clean) : ∃ c cs, s.render.toList = c :: cs ∧ c ≠ ')' := by
  cases h with
  | atom htext =>
    obtain ⟨c, cs, hcons, -, hne⟩ := htext.head
    exact ⟨c, cs, by rw [render, hcons], hne⟩
  | @list items hitems =>
    have hlist := toList_list items []
    rw [List.append_nil] at hlist
    exact ⟨'(', _, hlist, by decide⟩

/-- Items can be cancelled from the front of a list if each of them can be. -/
theorem tail_injective {items others : List Sexp}
    (hitem : ∀ s ∈ items, ∀ t ∈ others, ∀ us vs, EndsAtom us → EndsAtom vs →
      s.render.toList ++ us = t.render.toList ++ vs → s = t ∧ us = vs)
    {us vs : List Char} (h : tail items us = tail others vs) : items = others ∧ us = vs := by
  induction items generalizing others with
  | nil =>
    cases others with
    | nil => exact ⟨rfl, (List.cons.inj h).2⟩
    | cons t others => exact absurd (List.cons.inj h).1 (by decide)
  | cons s items ih =>
    cases others with
    | nil => exact absurd (List.cons.inj h).1 (by decide)
    | cons t others =>
      have hfirst : s.render.toList ++ tail items us = t.render.toList ++ tail others vs := by
        simpa [tail] using h
      obtain ⟨rfl, hrest⟩ := hitem s List.mem_cons_self t List.mem_cons_self _ _ (endsAtom_tail items us)
        (endsAtom_tail others vs) hfirst
      obtain ⟨rfl, hafter⟩ := ih (fun s hs t ht => hitem s (List.mem_cons_of_mem _ hs) t
        (List.mem_cons_of_mem _ ht)) hrest
      exact ⟨rfl, hafter⟩

/-- An S-expression is cut out of a text whole. -/
theorem Clean.eq_of_render_append {s : Sexp} (hs : s.Clean) : ∀ {t : Sexp}, t.Clean → ∀ us vs, EndsAtom us →
    EndsAtom vs → s.render.toList ++ us = t.render.toList ++ vs → s = t ∧ us = vs := by
  have hparen : ∀ {a : String} {items : List Sexp} {us vs : List Char}, IsAtom a →
      a.toList ++ us ≠ (Sexp.list items).render.toList ++ vs := by
    intro a items us vs ha h
    obtain ⟨c, cs, hcons, hne, -⟩ := ha.head
    rw [hcons, toList_list] at h
    exact hne (List.cons.inj h).1
  induction hs with
  | @atom a ha =>
    intro t ht us vs hus hvs h
    cases ht with
    | @atom b hb =>
      rw [render, render] at h
      obtain ⟨rfl, hrest⟩ := ha.eq_of_text_append hb hus hvs h
      exact ⟨rfl, hrest⟩
    | list => exact absurd h (hparen ha)
  | @list items hitems ih =>
    intro t ht us vs hus hvs h
    cases ht with
    | atom hb => exact absurd h.symm (hparen hb)
    | @list others hothers =>
      rw [toList_list, toList_list] at h
      have hinside := (List.cons.inj h).2
      cases items with
      | nil =>
        cases others with
        | nil => exact ⟨rfl, (List.cons.inj hinside).2⟩
        | cons t others =>
          obtain ⟨c, cs, hcons, hne⟩ := (hothers t List.mem_cons_self).head
          dsimp only at hinside
          rw [hcons] at hinside
          exact absurd (List.cons.inj hinside).1.symm hne
      | cons s items =>
        cases others with
        | nil =>
          obtain ⟨c, cs, hcons, hne⟩ := (hitems s List.mem_cons_self).head
          dsimp only at hinside
          rw [hcons] at hinside
          exact absurd (List.cons.inj hinside).1 hne
        | cons t others =>
          have hspaced : tail (s :: items) us = tail (t :: others) vs := by
            simpa [tail] using hinside
          obtain ⟨hsame, hafter⟩ := tail_injective
            (fun s hs t ht => ih s hs (hothers t ht)) hspaced
          rw [hsame]
          exact ⟨rfl, hafter⟩

end Sexp

/-! ## Lines -/

/-- Lines after the first one. -/
def linesAfter (items : List Sexp) : List Char := items.flatMap fun s => '\n' :: s.render.toList

theorem endsAtom_linesAfter (items : List Sexp) : EndsAtom (linesAfter items) := by
  cases items with
  | nil => exact fun c hc => by cases hc
  | cons s rest =>
    intro c hc
    obtain rfl : '\n' = c := by simpa [linesAfter] using hc
    decide

theorem toList_lines (s : Sexp) (rest : List Sexp) :
    ("\n".intercalate ((s :: rest).map Sexp.render)).toList = s.render.toList ++ linesAfter rest := by
  induction rest generalizing s with
  | nil => simp [linesAfter]
  | cons t rest ih =>
    rw [List.map_cons, List.map_cons, String.intercalate_cons_cons, String.toList_append,
      String.toList_append, ← List.map_cons, ih]
    simp [linesAfter]

theorem linesAfter_injective {items others : List Sexp} (hitems : ∀ s ∈ items, s.Clean)
    (hothers : ∀ s ∈ others, s.Clean) (h : linesAfter items = linesAfter others) : items = others := by
  induction items generalizing others with
  | nil =>
    cases others with
    | nil => rfl
    | cons t others => cases h
  | cons s items ih =>
    cases others with
    | nil => cases h
    | cons t others =>
      have hline := (List.cons.inj h).2
      obtain ⟨rfl, hrest⟩ := (hitems s List.mem_cons_self).eq_of_render_append (hothers t List.mem_cons_self)
        _ _ (endsAtom_linesAfter items) (endsAtom_linesAfter others) hline
      rw [ih (fun s hs => hitems s (List.mem_cons_of_mem _ hs))
        (fun s hs => hothers s (List.mem_cons_of_mem _ hs)) hrest]

/-- Lines of S-expressions are determined by their text. -/
theorem eq_of_lines_eq {items others : List Sexp} (hitems : ∀ s ∈ items, s.Clean)
    (hothers : ∀ s ∈ others, s.Clean)
    (h : "\n".intercalate (items.map Sexp.render) = "\n".intercalate (others.map Sexp.render)) :
    items = others := by
  have hempty : ∀ {s : Sexp} {rest : List Sexp}, s.Clean →
      "\n".intercalate ((s :: rest).map Sexp.render) ≠ "" := by
    intro s rest hs hnone
    have hchars := congrArg String.toList hnone
    obtain ⟨c, cs, hcons, -⟩ := hs.head
    rw [toList_lines, hcons] at hchars
    cases hchars
  cases items with
  | nil =>
    cases others with
    | nil => rfl
    | cons t others => exact absurd h.symm (hempty (hothers t List.mem_cons_self))
  | cons s items =>
    cases others with
    | nil => exact absurd h (hempty (hitems s List.mem_cons_self))
    | cons t others =>
      have hchars := congrArg String.toList h
      rw [toList_lines, toList_lines] at hchars
      refine linesAfter_injective hitems hothers ?_
      exact congrArg ('\n' :: ·) hchars

end PipeLang
