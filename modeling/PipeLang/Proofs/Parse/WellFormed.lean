import PipeLang.Proofs.Format.Opens
import PipeLang.Proofs.Parse.FormedProgram
import PipeLang.Proofs.Scan.Formed
import PipeLang.Proofs.Tree.Unmarked

/-! A tree that is read from a text is well formed in all its parts. The grammar gives every list its
length and every name its form, the scanner gives it the names, and the check of repeated keys, made on
the whole tree, leaves no record literal with a key twice. -/

namespace PipeLang

theorem repeatedKeys_eq_nil {seen : List Name} {fields : List Binding} :
    repeatedKeys seen fields = [] ↔ (fields.map fun b => b.name.text).Nodup ∧
      ∀ b ∈ fields, ∀ n ∈ seen, n.text ≠ b.name.text := by
  induction fields generalizing seen with
  | nil => simp [repeatedKeys]
  | cons b rest ih =>
    obtain ⟨key, value⟩ := b
    unfold repeatedKeys
    cases hseen : seen.find? fun n => n.text == key.text with
    | some earlier =>
      have hmem := List.mem_of_find?_eq_some hseen
      have hsame : earlier.text = key.text := by simpa using List.find?_some hseen
      refine iff_of_false (List.cons_ne_nil _ _) fun h => ?_
      exact h.2 ⟨key, value⟩ List.mem_cons_self earlier hmem hsame
    | none =>
      have hnew : ∀ n ∈ seen, n.text ≠ key.text := by simpa using List.find?_eq_none.mp hseen
      dsimp only
      rw [ih]
      simp only [List.map_cons, List.nodup_cons, List.mem_map, List.forall_mem_cons]
      grind

namespace Expr

/-- A record literal gives no key twice. -/
def DistinctKeys : Expr → Prop
  | record _ fields => (fields.map fun b => b.name.text).Nodup
  | _ => True

/-- An application whose callee is spelled like an operator has the two operands as its arguments. -/
def TakesOperands : Expr → Prop
  | apply _ (ident _ name) args => Operator.isName name = true → args.length = 2
  | _ => True

theorem distinctKeys_of_keyErrors {e : Expr} (h : e.keyErrors = []) : ∀ x ∈ e.nodes, x.DistinctKeys := by
  rw [keyErrors_eq, List.flatMap_eq_nil_iff] at h
  intro x hx
  cases x with
  | record s fields => exact (repeatedKeys_eq_nil.mp (h _ hx)).1
  | _ => trivial

theorem takesOperands_of_formed {n : Nat} {e : Expr} (h : e.Formed n) : e.TakesOperands := by
  cases h with
  | binary op left right => exact fun _ => rfl
  | @apply _ s callee args some_arg callee_ok args_ok =>
    cases callee_ok with
    | ident name_ok =>
      intro hname
      rw [Operator.isName, ofSpelling?_of_isIdentifier name_ok] at hname
      cases hname
    | _ => trivial
  | _ => trivial

theorem takesOperands_nodes {n : Nat} {e : Expr} (h : e.Formed n) : ∀ x ∈ e.nodes, x.TakesOperands :=
  h.forall_nodes takesOperands_of_formed fun _ _ => trivial

end Expr

theorem Program.Formed.value {n : Nat} {p : Program} (h : p.Formed n) :
    ∀ e ∈ p.values, e.Formed n := by
  intro e he
  obtain ⟨s, hs, hvalue⟩ := List.mem_filterMap.mp he
  have hformed := h s hs
  cases s with
  | assign span name value =>
    obtain rfl := Option.some.inj hvalue
    exact hformed.2
  | expr span value =>
    obtain rfl := Option.some.inj hvalue
    exact hformed
  | error span => cases hvalue

/-- The tree of a text is well formed, in its interpolations as well: every list is as long and every name
as it has to be, nothing is marked as unread, no record gives a key twice, and what is applied like an
operator has two operands. -/
theorem wellFormed_of_parse {source : String} {tokens : List Token} (hlex : Scan.lex source = .ok tokens)
    {o : ParseOptions} (hmode : o.mode = .strict) (hplain : o.resolvePipelines = false) {p : Program}
    (h : parse o tokens = .ok p) :
    p.Formed Scan.nestingLimit ∧ ∀ e ∈ p.nodes, e.DistinctKeys ∧ e.TakesOperands := by
  have hformed := formed_of_parse hmode hplain (Scan.formed_of_lex hlex) h
  have hkeys := List.flatMap_eq_nil_iff.mp (keyErrors_of_parse hplain h)
  refine ⟨hformed, fun e he => ?_⟩
  obtain ⟨value, hvalue, he⟩ := List.mem_flatMap.mp he
  exact ⟨Expr.distinctKeys_of_keyErrors (hkeys value hvalue) e he,
    Expr.takesOperands_nodes (hformed.value value hvalue) e he⟩

/-- A pipeline with a record and an operator in an interpolation, and a match on a record pattern. -/
theorem wellFormed_of_parse_pipeline :
    let source := "f x = x |> g \"\x7b\x7ba: 1 b: y + 2\x7d.a\x7d\"\n" ++
      "match f 1 | \x7ba b: _\x7d -> try a catch E e -> b\n"
    ∃ tokens p, Scan.lex source = .ok tokens ∧ parse {} tokens = .ok p ∧ p.nodes.length = 20 ∧
      p.Formed Scan.nestingLimit ∧ ∀ e ∈ p.nodes, e.DistinctKeys ∧ e.TakesOperands := by
  intro source
  obtain ⟨tokens, p, hlex, hparse, hlength⟩ := exists_of_read (f := fun p => p.nodes.length)
    (show (Scan.lex source).toOption.bind (fun tokens =>
      (parse {} tokens).toOption.map fun p => p.nodes.length) = some 20 by decide +kernel)
  exact ⟨tokens, p, hlex, hparse, hlength, wellFormed_of_parse hlex rfl rfl hparse⟩

end PipeLang
