import PipeLang.Proofs.Tree.Nodes

/-! The reports of repeated keys, one by one: which fields they are about, in which order they come, and which
of the earlier uses of the key they point at. -/

namespace PipeLang

/-- A field whose key was given before, with the earlier uses of the key in the same literal, in order. -/
structure Repeat where
  key : Name
  earlier : List Name
  some_earlier : earlier ≠ []

/-- The uses of the text of `key` as a key. -/
def usesOf (key : Name) (fields : List Binding) : List Name :=
  (fields.map Binding.name).filter fun n => n.text == key.text

def Binding.repeat? (b : Binding) (before : List Binding) : Option Repeat :=
  if h : usesOf b.name before = [] then none else some ⟨b.name, usesOf b.name before, h⟩

/-- The repeats of a record literal, each field compared with all fields before it. -/
def Expr.repeats : Expr → List Repeat
  | .record _ fields => (fields.zip fields.inits).filterMap fun f => f.1.repeat? f.2
  | _ => []

/-- The repeats of all record literals in a program, those of a literal before those of the ones in it. -/
def Program.repeats (p : Program) : List Repeat := p.nodes.flatMap Expr.repeats

/-- The latest of the earlier uses, not the first of them, is the one that is pointed at. -/
def Repeat.report (r : Repeat) : Diagnostic :=
  { cause := .duplicateKey r.key.text .recordLiteral
    span := r.key.span
    expected := [.identifier, .punctuation .rbrace]
    labels := [((r.earlier.getLast r.some_earlier).span, "first defined here")]
    notes := ["each key may appear once in a record literal"]
    expected_nodup := by decide }

/-- The search from the latest key on ends at the last of the earlier uses. -/
theorem find?_reverse_eq_getLast? (key : Name) (before : List Binding) :
    (before.map Binding.name).reverse.find? (fun n => n.text == key.text) = (usesOf key before).getLast? := by
  rw [usesOf, ← List.head?_filter, List.filter_reverse, List.head?_reverse]

theorem repeatedKeys_cons (seen : List Name) (b : Binding) (rest : List Binding) :
    repeatedKeys seen (b :: rest) = (match seen.find? fun n => n.text == b.name.text with
      | some earlier => [{ cause := .duplicateKey b.name.text .recordLiteral
                           span := b.name.span
                           expected := [.identifier, .punctuation .rbrace]
                           labels := [(earlier.span, "first defined here")]
                           notes := ["each key may appear once in a record literal"]
                           expected_nodup := by decide }]
      | none => []) ++ repeatedKeys (b.name :: seen) rest := by
  obtain ⟨key, value⟩ := b
  rw [repeatedKeys]
  cases seen.find? fun n => n.text == key.text <;> rfl

/-- By induction on the fields still to be checked. -/
theorem repeatedKeys_eq_map_report (before fields : List Binding) :
    repeatedKeys (before.map Binding.name).reverse fields =
      ((fields.zip (fields.inits.map (before ++ ·))).filterMap fun f => f.1.repeat? f.2).map
        Repeat.report := by
  induction fields generalizing before with
  | nil => rfl
  | cons b rest ih =>
    have hseen : b.name :: (before.map Binding.name).reverse = ((before ++ [b]).map Binding.name).reverse := by
      simp
    have hlater : (rest.inits.map (b :: ·)).map (before ++ ·) = rest.inits.map (before ++ [b] ++ ·) := by
      simp [Function.comp_def]
    rw [repeatedKeys_cons, hseen, ih, find?_reverse_eq_getLast?, List.inits_cons, List.map_cons,
      List.append_nil, hlater, List.zip_cons_cons, List.filterMap_cons]
    by_cases hnone : usesOf b.name before = []
    · rw [Binding.repeat?, dif_pos hnone, hnone]
      rfl
    · rw [Binding.repeat?, dif_neg hnone, List.getLast?_eq_some_getLast hnone]
      rfl

theorem Expr.ownRepeatedKeys_eq_map_report (e : Expr) : e.ownRepeatedKeys = e.repeats.map Repeat.report := by
  cases e with
  | record s fields =>
    rw [ownRepeatedKeys, repeats]
    simpa using repeatedKeys_eq_map_report [] fields
  | _ => rfl

/-- Every field with a key that was given before in its literal is reported once, nothing else is, and the
reports come in the order of the literals and of their fields. -/
theorem Program.keyErrors_eq_map_report (p : Program) : p.keyErrors = p.repeats.map Repeat.report := by
  rw [keyErrors, repeats, nodes, List.flatMap_assoc, List.map_flatMap]
  refine List.flatMap_congr fun e _ => ?_
  rw [Expr.keyErrors_eq, List.map_flatMap]
  exact List.flatMap_congr fun x _ => x.ownRepeatedKeys_eq_map_report

/-- The report of a key's third use points at the second. -/
theorem third_use_points_at_second :
    ∃ p : Program, (p.repeats.map fun r => (r.key.span, [(r.earlier.head r.some_earlier).span])) ≠
      p.keyErrors.map fun d => (d.span, d.labels.map Prod.fst) := by
  let key (start : Nat) : Name := ⟨"a", ⟨start, start + 1, 1, start + 1⟩⟩
  let fields := [1, 6, 11].map fun start => (⟨key start, .nil .origin⟩ : Binding)
  exact ⟨.ofStatements [.expr .origin (.record .origin fields)], by decide⟩

end PipeLang
