import PipeLang.Proofs.Dump.Pattern

/-! Legible trees: every name in them is a name, and no application reads like another form. The dump of a
legible tree is made of atoms, and tells what form each expression in it has. -/

namespace PipeLang

/-! ## The parts of expressions -/

def Segment.sexp : Segment → Sexp
  | .literal text => .atom (quoted text)
  | .hole e => e.sexp

def Binding.sexp (b : Binding) : Sexp := .list [b.name.sexp, b.value.sexp]

def Stage.sexp (g : Stage) : Sexp := .list (g.callee.sexp :: g.args.map Expr.sexp)

def Branch.sexp (b : Branch) : Sexp := .list [b.condition.sexp, b.result.sexp]

def Clause.sexp (c : Clause) : Sexp :=
  .tagged "->" (c.pattern.sexp :: ((c.guard.map fun g => Sexp.tagged "when" [g.sexp]).toList ++
    [c.result.sexp]))

def Catch.sexp (c : Catch) : Sexp :=
  .tagged "catch" ((c.tag.map fun n => Sexp.tagged "tag" [n.sexp]).toList ++
    (c.binding.map fun n => Sexp.tagged "bind" [n.sexp]).toList ++ [c.handler.sexp])

theorem exprSexps_eq_map (es : List Expr) : exprSexps es = es.map Expr.sexp := by
  induction es with
  | nil => rfl
  | cons e rest ih => rw [exprSexps, ih, List.map_cons]

theorem segmentSexps_eq_map (segments : List Segment) :
    segmentSexps segments = segments.map Segment.sexp := by
  induction segments with
  | nil => rfl
  | cons g rest ih => cases g <;> rw [segmentSexps, ih] <;> rfl

theorem bindingSexps_eq_map (bindings : List Binding) :
    bindingSexps bindings = bindings.map Binding.sexp := by
  induction bindings with
  | nil => rfl
  | cons b rest ih =>
    cases b
    rw [bindingSexps, ih]
    rfl

theorem stageSexps_eq_map (stages : List Stage) : stageSexps stages = stages.map Stage.sexp := by
  induction stages with
  | nil => rfl
  | cons g rest ih =>
    cases g
    rw [stageSexps, ih, exprSexps_eq_map]
    rfl

theorem branchSexps_eq_map (branches : List Branch) :
    branchSexps branches = branches.map Branch.sexp := by
  induction branches with
  | nil => rfl
  | cons b rest ih =>
    cases b
    rw [branchSexps, ih]
    rfl

theorem clauseSexps_eq_map (clauses : List Clause) : clauseSexps clauses = clauses.map Clause.sexp := by
  induction clauses with
  | nil => rfl
  | cons c rest ih =>
    obtain ⟨s, pattern, guard, result⟩ := c
    cases guard <;> rw [clauseSexps, ih] <;> rfl

theorem catchSexps_eq_map (catches : List Catch) : catchSexps catches = catches.map Catch.sexp := by
  induction catches with
  | nil => rfl
  | cons c rest ih =>
    cases c
    rw [catchSexps, ih]
    rfl

/-! ## Legible trees -/

/-- The words that head a form, and the forms. -/
def formHeads : List (String × Shape) :=
  [("record", .record), ("list", .list), ("fn", .function), (".", .access), ("pipe", .pipeline),
    ("let", .letIn), ("if", .ifElse), ("match", .matchOn), ("try", .tryCatch), ("string", .text)]

/-- An interpolation that is nothing but a literal. -/
def Segment.isNestedLiteral : Segment → Bool
  | .hole (.text _ [.literal _]) => true
  | _ => false

namespace Expr

/-- The names that an expression has of its own are names of the language, or those of operators, no
literal segment is empty, and nothing is marked as unread. -/
def Named : Expr → Prop
  | ident _ name => isIdentifier name = true ∨ Operator.isName name = true
  | wildcard _ path => ∀ f ∈ path, isIdentifier f = true
  | text _ segments => ∀ t, .literal t ∈ segments → t ≠ ""
  | record _ fields | letIn _ fields _ => ∀ b ∈ fields, isIdentifier b.name.text = true
  | function _ params _ => ∀ p ∈ params, isIdentifier p.text = true
  | access _ _ field => isIdentifier field.text = true
  | matchOn _ _ clauses => ∀ c ∈ clauses, c.pattern.Formed
  | tryCatch _ _ catches => ∀ c ∈ catches, c.Named
  | error _ => False
  | number .. | bool .. | nil _ | list .. | apply .. | pipeline .. | ifElse .. => True

/-- What is applied is not spelled like the head of a form, and no interpolation in a string is a literal
string. -/
def isUnambiguous : Expr → Bool
  | apply _ (ident _ name) _ => (formHeads.lookup name).isNone
  | text _ segments => segments.all fun g => !g.isNestedLiteral
  | _ => true

/-- Each expression in the tree can be told from all others by its dump. -/
def Legible (e : Expr) : Prop :=
  ∀ x ∈ e.nodes, x.Named ∧ x.isUnambiguous = true ∧ ∀ n ∈ x.ownNumbers, n.isFinite = true

variable {e f : Expr}

theorem Legible.own (h : e.Legible) :
    e.Named ∧ e.isUnambiguous = true ∧ ∀ n ∈ e.ownNumbers, n.isFinite = true :=
  h e (by rw [nodes_eq]; exact List.mem_cons_self)

theorem Legible.child (h : e.Legible) {child : Expr} (hc : child ∈ e.children) : child.Legible := by
  intro x hx
  refine h x ?_
  rw [nodes_eq]
  exact List.mem_cons_of_mem _ (List.mem_flatMap.mpr ⟨child, hc, hx⟩)

end Expr

/-! ## The atoms of legible trees -/

namespace Sexp

variable {head : String} {items : List Sexp}

theorem Clean.tagged (hempty : head.toList.isEmpty = false) (hbare : head.toList.all isBare = true)
    (h : ∀ s ∈ items, s.Clean) : (Sexp.tagged head items).Clean :=
  .list (List.forall_mem_cons.mpr ⟨.atom (isAtom_of_all hempty hbare), h⟩)

theorem Clean.name {n : Name} (h : isIdentifier n.text = true) : n.sexp.Clean :=
  .atom (isAtom_identifier h)

theorem clean_pair {s t : Sexp} (hs : s.Clean) (ht : t.Clean) : ∀ u ∈ [s, t], u.Clean :=
  List.forall_mem_cons.mpr ⟨hs, List.forall_mem_singleton.mpr ht⟩

end Sexp

namespace Expr

open Sexp

theorem sexp_clean {e : Expr} (h : e.Legible) : e.sexp.Clean := by
  induction e using children_induction with
  | h e ih =>
    obtain ⟨hnamed, -, hfinite⟩ := h.own
    replace ih : ∀ child ∈ e.children, child.sexp.Clean := fun child hc => ih child hc (h.child hc)
    have hbindings : ∀ {bindings : List Binding}, (∀ b ∈ bindings, isIdentifier b.name.text = true) →
        (∀ b ∈ bindings, b.value.sexp.Clean) → ∀ s ∈ bindings.map Binding.sexp, s.Clean := by
      intro bindings hnames hvalues s hs
      obtain ⟨b, hb, rfl⟩ := List.mem_map.mp hs
      exact .list (clean_pair (.name (hnames b hb)) (hvalues b hb))
    cases e with
    | ident s name =>
      refine .atom ?_
      rcases hnamed with hname | hname
      · exact isAtom_identifier hname
      · obtain ⟨op, hop⟩ := Option.isSome_iff_exists.mp hname
        rw [← Operator.spelling_of_ofSpelling? hop]
        exact isAtom_operator op
    | wildcard s path => exact .atom (isAtom_path hnamed)
    | number s value => exact .atom (isAtom_number (hfinite value (List.mem_singleton_self value)))
    | text s segments =>
      rw [sexp, segmentSexps_eq_map]
      unfold segmentsSexp
      split
      · exact .atom (.string "")
      · exact .atom (.string _)
      · refine .tagged (by decide) (by decide) fun x hx => ?_
        obtain ⟨g, hg, rfl⟩ := List.mem_map.mp hx
        cases g with
        | literal t => exact .atom (.string t)
        | hole e => exact ih e (List.mem_flatMap.mpr ⟨_, hg, List.mem_singleton_self e⟩)
    | bool s b => exact .atom (isAtom_boolWord b)
    | nil s => exact .atom (isAtom_of_all (by decide) (by decide))
    | record s fields =>
      rw [sexp, bindingSexps_eq_map]
      exact .tagged (by decide) (by decide)
        (hbindings hnamed fun b hb => ih _ (List.mem_map_of_mem hb))
    | list s items =>
      rw [sexp, exprSexps_eq_map]
      refine .tagged (by decide) (by decide) fun x hx => ?_
      obtain ⟨e, he, rfl⟩ := List.mem_map.mp hx
      exact ih e he
    | function s params body =>
      rw [sexp]
      refine .tagged (by decide) (by decide) (clean_pair (.list fun x hx => ?_)
        (ih body (List.mem_singleton_self body)))
      obtain ⟨n, hn, rfl⟩ := List.mem_map.mp hx
      exact .name (hnamed n hn)
    | apply s callee args =>
      rw [sexp, exprSexps_eq_map, ← List.map_cons]
      refine .list fun x hx => ?_
      obtain ⟨e, he, rfl⟩ := List.mem_map.mp hx
      exact ih e he
    | access s target field =>
      rw [sexp]
      exact .tagged (by decide) (by decide)
        (clean_pair (ih target (List.mem_singleton_self target)) (.name hnamed))
    | pipeline s seed stages =>
      rw [sexp, stageSexps_eq_map]
      refine .tagged (by decide) (by decide) (List.forall_mem_cons.mpr ⟨ih seed List.mem_cons_self,
        fun x hx => ?_⟩)
      obtain ⟨g, hg, rfl⟩ := List.mem_map.mp hx
      rw [Stage.sexp, ← List.map_cons]
      refine .list fun x hx => ?_
      obtain ⟨e, he, rfl⟩ := List.mem_map.mp hx
      exact ih e (List.mem_cons_of_mem _ (List.mem_flatMap.mpr ⟨g, hg, he⟩))
    | letIn s bindings body =>
      rw [sexp, bindingSexps_eq_map]
      refine .tagged (by decide) (by decide) (clean_pair (.list ?_) (ih body ?_))
      · exact hbindings hnamed fun b hb => ih _ (List.mem_append_left _ (List.mem_map_of_mem hb))
      · exact List.mem_append_right _ (List.mem_singleton_self body)
    | ifElse s branches fallback =>
      rw [sexp, branchSexps_eq_map]
      refine .tagged (by decide) (by decide) (List.forall_mem_append.mpr ⟨fun x hx => ?_,
        List.forall_mem_singleton.mpr (.tagged (by decide) (by decide)
          (List.forall_mem_singleton.mpr (ih fallback ?_)))⟩)
      · obtain ⟨b, hb, rfl⟩ := List.mem_map.mp hx
        have hpart : ∀ e ∈ [b.condition, b.result], e.sexp.Clean := fun e he =>
          ih e (List.mem_append_left _ (List.mem_flatMap.mpr ⟨b, hb, he⟩))
        exact .list (clean_pair (hpart _ List.mem_cons_self)
          (hpart _ (List.mem_cons_of_mem _ List.mem_cons_self)))
      · exact List.mem_append_right _ (List.mem_singleton_self fallback)
    | matchOn s subject clauses =>
      rw [sexp, clauseSexps_eq_map]
      refine .tagged (by decide) (by decide) (List.forall_mem_cons.mpr ⟨ih subject List.mem_cons_self,
        fun x hx => ?_⟩)
      obtain ⟨c, hc, rfl⟩ := List.mem_map.mp hx
      have hpart : ∀ e ∈ c.guard.toList ++ [c.result], e.sexp.Clean := fun e he =>
        ih e (List.mem_cons_of_mem _ (List.mem_flatMap.mpr ⟨c, hc, he⟩))
      have hpattern : c.pattern.Finite := fun n hn =>
        hfinite n (List.mem_flatMap.mpr ⟨c, hc, hn⟩)
      refine .tagged (by decide) (by decide) (List.forall_mem_cons.mpr
        ⟨Pattern.sexp_clean (hnamed c hc) hpattern, List.forall_mem_append.mpr ⟨fun x hx => ?_,
          List.forall_mem_singleton.mpr (hpart _ (List.mem_append_right _ (List.mem_singleton_self _)))⟩⟩)
      obtain ⟨g, hg, rfl⟩ := Option.map_eq_some_iff.mp (Option.mem_toList.mp hx)
      exact .tagged (by decide) (by decide) (List.forall_mem_singleton.mpr
        (hpart g (List.mem_append_left _ (Option.mem_toList.mpr hg))))
    | tryCatch s body catches =>
      rw [sexp, catchSexps_eq_map]
      refine .tagged (by decide) (by decide) (List.forall_mem_cons.mpr ⟨ih body List.mem_cons_self,
        fun x hx => ?_⟩)
      obtain ⟨c, hc, rfl⟩ := List.mem_map.mp hx
      have hhandler := ih c.handler (List.mem_cons_of_mem _ (List.mem_map_of_mem hc))
      refine .tagged (by decide) (by decide) (List.forall_mem_append.mpr
        ⟨List.forall_mem_append.mpr ⟨fun x hx => ?_, fun x hx => ?_⟩,
          List.forall_mem_singleton.mpr hhandler⟩)
      · obtain ⟨n, hn, rfl⟩ := Option.map_eq_some_iff.mp (Option.mem_toList.mp hx)
        exact .tagged (by decide) (by decide)
          (List.forall_mem_singleton.mpr (.name ((hnamed c hc).tag n hn).1))
      · obtain ⟨n, hn, rfl⟩ := Option.map_eq_some_iff.mp (Option.mem_toList.mp hx)
        exact .tagged (by decide) (by decide)
          (List.forall_mem_singleton.mpr (.name ((hnamed c hc).binding n hn).1))
    | error s => exact absurd hnamed id

end Expr

/-! ## The form of an expression -/

/-- The form that a dump is of. -/
def Sexp.shape : Sexp → Shape
  | .atom text => atomShape text
  | .list (.atom head :: _) => (formHeads.lookup head).getD .apply
  | .list _ => .apply

theorem Sexp.shape_list {callee : Sexp} {args : List Sexp}
    (h : ∀ head, callee = .atom head → formHeads.lookup head = none) :
    (Sexp.list (callee :: args)).shape = .apply := by
  cases callee with
  | list items => rfl
  | atom head =>
    rw [shape, h head rfl]
    rfl

/-- Words that head a form read like names, but for the point. -/
theorem atomShape_of_lookup {head : String} {s : Shape} (h : formHeads.lookup head = some s) :
    atomShape head = .ident ∨ atomShape head = .error := by
  obtain ⟨before, after, hsplit, -⟩ := List.lookup_eq_some_iff.mp h
  have hall : ∀ p ∈ formHeads, atomShape p.1 = .ident ∨ atomShape p.1 = .error := by decide
  exact hall (head, s) (by rw [hsplit]; simp)

/-- The dump of a string is a quoted text if it has no interpolation, and has all its segments otherwise. -/
theorem segmentsSexp_cases (segments : List Segment) (items : List Sexp) :
    (∃ t, segmentsSexp segments items = .atom (quoted t) ∧
      (segments = [] ∧ t = "" ∨ segments = [.literal t])) ∨
        segmentsSexp segments items = .tagged "string" items := by
  unfold segmentsSexp
  split
  · exact .inl ⟨"", rfl, .inl ⟨rfl, rfl⟩⟩
  · exact .inl ⟨_, rfl, .inr rfl⟩
  · exact .inr rfl

namespace Expr

def shape : Expr → Shape
  | ident .. => .ident
  | wildcard .. => .wildcard
  | number .. => .number
  | text .. => .text
  | bool .. => .bool
  | nil _ => .nil
  | record .. => .record
  | list .. => .list
  | function .. => .function
  | apply .. => .apply
  | access .. => .access
  | pipeline .. => .pipeline
  | letIn .. => .letIn
  | ifElse .. => .ifElse
  | matchOn .. => .matchOn
  | tryCatch .. => .tryCatch
  | error _ => .error

theorem shape_sexp {e : Expr} (h : e.Legible) : e.sexp.shape = e.shape := by
  induction e using children_induction with
  | h e ih =>
    obtain ⟨hnamed, hplain, hfinite⟩ := h.own
    cases e with
    | ident s name =>
      rcases hnamed with hname | hname
      · exact atomShape_identifier hname
      · exact atomShape_of_isName hname
    | wildcard s path => exact atomShape_path path
    | number s value => exact atomShape_number (hfinite value (List.mem_singleton_self value))
    | text s segments =>
      rw [sexp]
      rcases segmentsSexp_cases segments (segmentSexps segments) with ⟨t, hatom, -⟩ | hlist
      · rw [hatom]
        exact atomShape_quoted t
      · rw [hlist]
        rfl
    | bool s b => exact atomShape_boolWord b
    | nil s => exact show atomShape "nil" = .nil by decide
    | apply s callee args =>
      have hcallee := h.child (List.mem_cons_self (a := callee) (l := args))
      have hshape := ih callee List.mem_cons_self hcallee
      rw [sexp]
      refine Sexp.shape_list fun head hhead => ?_
      rw [hhead] at hshape
      cases hlookup : formHeads.lookup head with
      | none => rfl
      | some form =>
        have hreads := atomShape_of_lookup hlookup
        rw [show atomShape head = callee.shape from hshape] at hreads
        cases callee with
        | ident t name =>
          obtain rfl : name = head := Sexp.atom.inj hhead
          rw [← hlookup]
          exact Option.isNone_iff_eq_none.mp hplain
        | error t => exact absurd hcallee.own.1 id
        | _ => rcases hreads with hreads | hreads <;> cases hreads
    | error s => exact absurd hnamed id
    | _ => rfl

end Expr

end PipeLang
