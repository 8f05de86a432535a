import PipeLang.Proofs.Dump.Atoms
import PipeLang.Proofs.Tree.Nodes

/-! The dump of a pattern determines the pattern but for its spans. -/

namespace PipeLang

/-- Lists that are the same under one map are the same under another that tells no more of their items. -/
theorem map_eq_of_map_eq {α β γ : Type} {g : α → β} {k : α → γ} {as bs : List α}
    (h : ∀ a ∈ as, ∀ b ∈ bs, g a = g b → k a = k b) (heq : as.map g = bs.map g) :
    as.map k = bs.map k := by
  induction as generalizing bs with
  | nil =>
    cases bs with
    | nil => rfl
    | cons b bs => cases heq
  | cons a as ih =>
    cases bs with
    | nil => cases heq
    | cons b bs =>
      obtain ⟨hfirst, hrest⟩ := List.cons.inj heq
      rw [List.map_cons, List.map_cons, h a List.mem_cons_self b List.mem_cons_self hfirst,
        ih (fun a ha b hb => h a (List.mem_cons_of_mem _ ha) b (List.mem_cons_of_mem _ hb)) hrest]

namespace Literal

def shape : Literal → Shape
  | number _ => .number
  | text _ => .text
  | bool _ => .bool
  | nil => .nil

variable {l m : Literal}

theorem atomShape_dump (h : ∀ x, l = .number x → x.isFinite = true) : atomShape l.dump = l.shape := by
  cases l with
  | number x => exact atomShape_number (h x rfl)
  | text s => exact atomShape_quoted s
  | bool b => exact atomShape_boolWord b
  | nil => decide

theorem isAtom_dump (h : ∀ x, l = .number x → x.isFinite = true) : IsAtom l.dump := by
  cases l with
  | number x => exact isAtom_number (h x rfl)
  | text s => exact .string s
  | bool b => exact isAtom_boolWord b
  | nil => exact isAtom_of_all (by decide) (by decide)

theorem dump_injective (hl : ∀ x, l = .number x → x.isFinite = true)
    (hm : ∀ x, m = .number x → x.isFinite = true) (h : l.dump = m.dump) : l = m := by
  have hshape : l.shape = m.shape := by rw [← atomShape_dump hl, h, atomShape_dump hm]
  cases l with
  | number x =>
    cases m with
    | number y => rw [Number.text_injective (hl x rfl) (hm y rfl) h]
    | _ => cases hshape
  | text s =>
    cases m with
    | text t => rw [quoted_injective h]
    | _ => cases hshape
  | bool b =>
    cases m with
    | bool c => rw [boolWord_injective h]
    | _ => cases hshape
  | nil =>
    cases m with
    | nil => rfl
    | _ => cases hshape

end Literal

/-- A constant that can be told from others by its text. -/
def FieldUse.Finite (u : FieldUse) : Prop := ∀ x, u = .compare (.number x) → x.isFinite = true

namespace FieldUse

variable {u v : FieldUse}

theorem Finite.literal {l : Literal} (h : (compare l).Finite) : ∀ x, l = .number x → x.isFinite = true :=
  fun x hx => h x (congrArg compare hx)

def shape : FieldUse → Shape
  | bind _ => .ident
  | compare l => l.shape
  | ignore => .wildcard

theorem atomShape_dump (hu : u.Formed) (hf : u.Finite) : atomShape u.dump = u.shape := by
  cases u with
  | bind name => exact atomShape_identifier hu
  | compare l => exact Literal.atomShape_dump hf.literal
  | ignore => decide

theorem isAtom_dump (hu : u.Formed) (hf : u.Finite) : IsAtom u.dump := by
  cases u with
  | bind name => exact isAtom_identifier hu
  | compare l => exact Literal.isAtom_dump hf.literal
  | ignore => exact isAtom_path (fun _ h => absurd h List.not_mem_nil)

theorem dump_injective (hu : u.Formed) (hf : u.Finite) (hv : v.Formed) (hf' : v.Finite)
    (h : u.dump = v.dump) : u = v := by
  have hshape : u.shape = v.shape := by rw [← atomShape_dump hu hf, h, atomShape_dump hv hf']
  cases u with
  | bind name =>
    cases v with
    | bind other => exact congrArg bind h
    | compare m => cases m <;> cases hshape
    | ignore => cases hshape
  | compare l =>
    cases v with
    | bind other => cases l <;> cases hshape
    | compare m => rw [Literal.dump_injective hf.literal hf'.literal h]
    | ignore => cases l <;> cases hshape
  | ignore =>
    cases v with
    | bind other => cases hshape
    | compare m => cases m <;> cases hshape
    | ignore => rfl

/-- The other spelling of the catch-all is reserved. -/
theorem dump_ne_otherwise (hu : u.Formed) (hf : u.Finite) : u.dump ≠ "otherwise" := by
  intro h
  cases u with
  | bind name =>
    obtain rfl : name = "otherwise" := h
    cases hu
  | compare l =>
    have hshape := Literal.atomShape_dump hf.literal
    rw [show l.dump = "otherwise" from h] at hshape
    cases l <;> cases hshape
  | ignore => exact absurd h (by decide)

end FieldUse

namespace Pattern

variable {p q : Pattern} {u : FieldUse}

/-- What a pattern that is no record does with the whole value, as it would with a field. -/
def use? : Pattern → Option FieldUse
  | literal _ value => some (.compare value)
  | bind _ name => some (.bind name)
  | wildcard _ => some .ignore
  | record .. | otherwise _ => none

theorem sexp_of_use (h : p.use? = some u) : p.sexp = .atom u.dump := by
  cases p <;> cases h <;> rfl

theorem erase_of_use (hp : p.use? = some u) (hq : q.use? = some u) : p.erase = q.erase := by
  cases p <;> cases hp <;> cases q <;> cases hq <;> rfl

/-- All numbers in the pattern are finite. -/
def Finite (p : Pattern) : Prop := ∀ x ∈ p.numbers, x.isFinite = true

theorem Formed.use (h : p.Formed) (hu : p.use? = some u) : u.Formed := by
  cases p <;> cases hu <;> exact h

theorem Finite.use (h : p.Finite) (hu : p.use? = some u) : u.Finite := by
  rintro x rfl
  cases p <;> cases hu
  exact h x (List.mem_singleton_self x)

theorem Finite.field {s : Span} {fields : List PatternField} (h : (record s fields).Finite) :
    ∀ f ∈ fields, f.use.Finite := by
  intro f hf x hx
  refine h x (List.mem_flatMap.mpr ⟨f, hf, ?_⟩)
  rw [hx]
  exact List.mem_singleton_self x

theorem sexp_clean (hp : p.Formed) (hf : p.Finite) : p.sexp.Clean := by
  cases hu : p.use? with
  | some u =>
    rw [sexp_of_use hu]
    exact .atom (FieldUse.isAtom_dump (hp.use hu) (hf.use hu))
  | none =>
    cases p with
    | record s fields =>
      refine .list (List.forall_mem_cons.mpr ⟨.atom (isAtom_of_all (by decide) (by decide)), fun x hx => ?_⟩)
      obtain ⟨f, hmem, rfl⟩ := List.mem_map.mp hx
      obtain ⟨hkey, huse⟩ := hp.1 f hmem
      refine .list (List.forall_mem_cons.mpr ⟨.atom (isAtom_identifier hkey), fun y hy => ?_⟩)
      obtain rfl := List.mem_singleton.mp hy
      exact .atom (FieldUse.isAtom_dump huse (hf.field f hmem))
    | otherwise s => exact .atom (isAtom_of_all (by decide) (by decide))
    | _ => cases hu

theorem erase_eq_of_sexp_eq (hp : p.Formed) (hf : p.Finite) (hq : q.Formed) (hf' : q.Finite)
    (h : p.sexp = q.sexp) : p.erase = q.erase := by
  cases hu : p.use? with
  | some u =>
    cases hv : q.use? with
    | some v =>
      rw [sexp_of_use hu, sexp_of_use hv] at h
      obtain rfl := FieldUse.dump_injective (hp.use hu) (hf.use hu) (hq.use hv) (hf'.use hv)
        (Sexp.atom.inj h)
      exact erase_of_use hu hv
    | none =>
      rw [sexp_of_use hu] at h
      cases q with
      | otherwise t =>
        exact absurd (Sexp.atom.inj h) (FieldUse.dump_ne_otherwise (hp.use hu) (hf.use hu))
      | record t others => cases h
      | _ => cases hv
  | none =>
    cases hv : q.use? with
    | some v =>
      rw [sexp_of_use hv] at h
      cases p with
      | otherwise s =>
        exact absurd (Sexp.atom.inj h).symm (FieldUse.dump_ne_otherwise (hq.use hv) (hf'.use hv))
      | record s fields => cases h
      | _ => cases hu
    | none =>
      cases p with
      | record s fields =>
        cases q with
        | record t others =>
          refine congrArg (record .origin) (map_eq_of_map_eq (fun f hmem g hmem' hfield => ?_)
            (List.cons.inj (Sexp.list.inj h)).2)
          obtain ⟨hkey, huse⟩ := List.cons.inj (Sexp.list.inj hfield)
          have huse := FieldUse.dump_injective (hp.1 f hmem).2 (hf.field f hmem) (hq.1 g hmem').2
            (hf'.field g hmem') (Sexp.atom.inj (List.cons.inj huse).1)
          unfold PatternField.relocate Name.relocate
          rw [Sexp.atom.inj hkey, huse]
        | otherwise t => cases h
        | _ => cases hv
      | otherwise s =>
        cases q with
        | record t others => cases h
        | otherwise t => rfl
        | _ => cases hv
      | _ => cases hu

end Pattern

end PipeLang
