import PipeLang.Proofs.Parse.DerivedProgram
import PipeLang.Proofs.Parse.FormedProgram
import PipeLang.Proofs.Tree.Resolved

/-! The spans of a tree, from those of the tokens that it is read from. Tokens are in a row, so the nodes that
a rule makes of them are, and a node that reaches from the first to the last of them spans all of them. -/

namespace PipeLang

variable {text : List Char}

/-- Where `ts` are in a row, so are the nodes `os` that those before `us` are read as. -/
def Spanned (text : List Char) (ts us : List Token) (os : List Outline) : Prop :=
  ∀ lo hi, Row text lo ts hi → ∃ mid, Strung text lo os mid ∧ Row text mid us hi

namespace Spanned

variable {ts us vs : List Token} {a b : Outline} {os ps : List Outline}

theorem refl : Spanned text ts ts [] := fun lo _ h => ⟨lo, .nil (Nat.le_refl lo), h⟩

theorem trans (h : Spanned text ts us os) (h' : Spanned text us vs ps) : Spanned text ts vs (os ++ ps) := by
  intro lo hi hrow
  obtain ⟨mid, hos, hus⟩ := h lo hi hrow
  obtain ⟨mid', hps, hvs⟩ := h' mid hi hus
  exact ⟨mid', hos.append hps, hvs⟩

theorem eq (h : Spanned text ts us os) (hos : os = ps) : Spanned text ts us ps := hos ▸ h

theorem token {t : Token} (ht : ts = t :: us) (hsolid : t.kind.isSolid = true) :
    Spanned text ts us [.leaf t.span] := by
  intro lo hi hrow
  rw [ht] at hrow
  obtain ⟨hafter, -, hus⟩ := hrow.head
  exact ⟨t.span.stop, .cons hafter (Outline.nests_leaf (hrow.located hsolid)) (.nil (Nat.le_refl _)), hus⟩

/-- A token that leaves no node. -/
theorem silent {t : Token} (ht : ts = t :: us) : Spanned text ts us [] := by
  intro lo hi hrow
  rw [ht] at hrow
  obtain ⟨hafter, hplaced, hus⟩ := hrow.head
  exact ⟨t.span.stop, .nil (Nat.le_trans hafter hplaced.start_le_stop), hus⟩

theorem after {t : Token} (ht : ts = t :: us) (h : Spanned text us vs os) : Spanned text ts vs os :=
  (silent ht).trans h

theorem before {t : Token} (h : Spanned text ts us os) (ht : us = t :: vs) : Spanned text ts vs os :=
  (h.trans (silent ht)).eq (List.append_nil os)

theorem name {n : Name} (h : ts = n.token :: us) : Spanned text ts us [n.outline] := token h rfl

theorem map (h : Spanned text ts us os) (hps : ∀ lo hi, Strung text lo os hi → Strung text lo ps hi) :
    Spanned text ts us ps := by
  intro lo hi hrow
  obtain ⟨mid, hos, hus⟩ := h lo hi hrow
  exact ⟨mid, hps lo mid hos, hus⟩

/-- A node from the first to the last of some. -/
theorem node {s t : Span} (h : Spanned text ts us (a :: os)) (hfirst : a.span = s)
    (hlast : os.getLast?.map Outline.span = some t) (hps : Outline.Held text (a :: os) ps) :
    Spanned text ts us [.node (s.merge t) ps] := by
  obtain ⟨b, hb, rfl⟩ := Option.map_eq_some_iff.mp hlast
  subst hfirst
  exact h.map fun _ _ hos => hos.between rfl (by rw [List.getLast?_cons, hb]; rfl) hps

/-- A node over all of its parts. -/
theorem whole {s t : Span} (h : Spanned text ts us [a]) (h' : Spanned text us vs os) (hfirst : a.span = s)
    (hlast : os.getLast?.map Outline.span = some t) : Spanned text ts vs [.node (s.merge t) (a :: os)] :=
  (h.trans h').node hfirst hlast (Outline.held_of_subset (List.Subset.refl _))

/-- A node over its parts and the token before them. -/
theorem started {s : Span} {t : Token} (ht : ts = t :: us) (hsolid : t.kind.isSolid = true)
    (h : Spanned text us vs os) (hlast : os.getLast?.map Outline.span = some s) :
    Spanned text ts vs [.node (t.span.merge s) os] :=
  ((token ht hsolid).trans h).node rfl hlast (Outline.held_of_subset (List.subset_cons_self _ _))

/-- A node over what is between two tokens, and over these. -/
theorem around {t u : Token} {ws : List Token} (ht : ts = t :: us) (hsolid : t.kind.isSolid = true)
    (h : Spanned text us vs os) (hu : vs = u :: ws) (hsolid' : u.kind.isSolid = true)
    (hps : Outline.Held text os ps) : Spanned text ts ws [.node (t.span.merge u.span) ps] := by
  have hrow : Spanned text ts ws (.leaf t.span :: (os ++ [.leaf u.span])) :=
    (token ht hsolid).trans (h.trans (token hu hsolid'))
  refine hrow.node rfl (by simp) fun p hp => ?_
  obtain ⟨o, ho, hheld⟩ := hps p hp
  exact ⟨o, List.mem_cons_of_mem _ (List.mem_append_left _ ho), hheld⟩

theorem enclosed {t u : Token} {ws : List Token} (ht : ts = t :: us) (hsolid : t.kind.isSolid = true)
    (h : Spanned text us vs os) (hu : vs = u :: ws) (hsolid' : u.kind.isSolid = true) :
    Spanned text ts ws [.node (t.span.merge u.span) os] :=
  around ht hsolid h hu hsolid' (Outline.held_of_subset (List.Subset.refl _))

theorem expr {e : Expr} (h : Spanned text ts us [.node e.span os]) (hos : e.outline.children = os) :
    Spanned text ts us [e.outline] := by
  rwa [Expr.outline_eq_node, hos]

end Spanned

namespace Grammar

open Parse (definedValue stageOf)

variable {mode : ParseMode} {ts us : List Token}

theorem Names.spanned {names : List Name} (h : Names ts names us) :
    Spanned text ts us (names.map Name.outline) := by
  induction h with
  | nil => exact .refl
  | cons name _ ih => exact (Spanned.name name).trans ih

theorem Path.spanned {path : List Name} (h : Path ts path us) :
    Spanned text ts us (path.map Name.outline) := by
  induction h with
  | nil => exact .refl
  | cons dot name _ ih => exact .after dot ((Spanned.name name).trans ih)

theorem Skips.spanned (h : Skips ts us) : Spanned text ts us [] := by
  induction h with
  | refl => exact .refl
  | token first _ _ ih => exact .after first ih

theorem Constant.spanned {v : Literal} {s : Span} (h : Constant ts v s us) :
    Spanned text ts us [.leaf s] := by
  cases h with
  | negative minus number touch =>
    exact .enclosed minus rfl .refl number rfl
  | number token | empty token | text token | yes token | no token | nil token => exact .token token rfl

theorem Use.spanned {use : FieldUse} (h : Use ts use us) : Spanned text ts us [] := by
  cases h with
  | bind token | ignore token => exact .silent token
  | compare constant => exact constant.spanned.map fun _ _ hos => .nil hos.le

theorem PatternFields.spanned {found : List PatternField} (h : PatternFields ts found us) :
    Spanned text ts us (found.map fun f => f.key.outline) := by
  induction h with
  | nil => exact .refl
  | key _ name ih => exact (Spanned.trans ih (.name name)).eq (by simp)
  | use _ name colon used ih =>
    exact (((Spanned.trans ih (.name name)).before colon).trans used.spanned).eq (by simp)

theorem Patterned.spanned {p : Pattern} (h : Patterned ts p us) : Spanned text ts us [p.outline] := by
  cases h with
  | bind token | wildcard token | otherwise token => exact .token token rfl
  | literal constant => exact constant.spanned
  | record opened inside closed =>
    exact .enclosed opened rfl inside.spanned closed rfl

theorem Caught.spanned {tag bound : Option Name} (h : Caught ts tag bound us) :
    Spanned text ts us (tag.toList.map Name.outline ++ bound.toList.map Name.outline) := by
  cases h with
  | tag name | binding name => exact .name name
  | both tag name => exact (Spanned.name tag).trans (.name name)

def Phrase.outlines : Phrase → List Outline
  | .expr e | .body e => [e.outline]
  | .exprs es => es.map Expr.outline
  | .fields bs => bs.flatMap Binding.outlines
  | .binding b => b.outlines
  | .bindings _ bs => bs.flatMap Binding.outlines
  | .stage g => [g.outline]
  | .stages _ gs => gs.map Stage.outline
  | .arm _ _ b => b.outlines
  | .arms _ _ bs => bs.flatMap Branch.outlines
  | .guard g => g.toList.map Expr.outline
  | .clauses _ cs => cs.map Clause.outline
  | .catches _ cs => cs.map Catch.outline
  | .segments _ found => (found.flatMap Segment.exprs).map Expr.outline

/-- The nodes of a phrase are in a row; those of a string lie inside its token. -/
def Phrase.Spanned (text : List Char) (ts us : List Token) : Phrase → Prop
  | .segments parts found => ∀ s : Span,
    (∀ inner t, .hole inner t ∈ parts →
        s.Covers t ∧ t.Located text ∧ Row text t.start inner t.stop) →
      ∀ e ∈ found.flatMap Segment.exprs, e.outline.Nests text ∧ s.Covers e.span
  | p => PipeLang.Spanned text ts us p.outlines

/-- A string, with what its interpolations are read as. -/
theorem spanned_text {s : Span} {parts : List StringPart} {found : List Segment}
    (token : ts = ⟨.text parts, s⟩ :: us)
    (inside : Phrase.Spanned text [] [] (.segments parts found)) :
    Spanned text ts us [(Expr.text s found).outline] := by
  intro lo hi hrow
  rw [token] at hrow
  obtain ⟨hafter, -, hus⟩ := hrow.head
  have hfound := inside s fun inner t hmem => hrow.hole rfl hmem
  refine ⟨s.stop, .cons hafter ?_ (.nil (Nat.le_refl _)), hus⟩
  rw [Expr.outline, segmentOutlines_eq_map]
  refine Outline.nests_node (hrow.located rfl) (fun o ho => ?_) (Outline.held_of_subset (List.Subset.refl _))
  obtain ⟨e, he, rfl⟩ := List.mem_map.mp ho
  rw [Expr.span_outline]
  exact hfound e he

theorem spanned_definedValue {us vs ws xs : List Token} {s : Span} {params : List Name} {e : Expr}
    (names : Names us params vs) (equals : vs = ⟨.operator .eq, s⟩ :: ws)
    (value : Spanned text ws xs [e.outline]) : Spanned text us xs [(definedValue params e).outline] := by
  cases names with
  | nil => exact .after equals value
  | cons name rest =>
    exact .expr (.whole (.name name) ((rest.spanned.before equals).trans value) rfl (by simp)) rfl

/-- The placeholder that is not written is put where the head of the stage is. -/
theorem held_stageOf (head : Expr) (args : List Expr) :
    Outline.Held text (head.outline :: args.map Expr.outline) (stageOf head args).outline.children := by
  have hplaceholder : head.outline.Holds text (.leaf head.span) := fun h =>
    ⟨Outline.nests_leaf (Expr.located_of_nests h), by rw [Expr.span_outline]; exact .refl⟩
  simp only [stageOf, Stage.outline, Outline.children_node]
  split
  · exact Outline.held_of_subset (List.Subset.refl _)
  · intro o ho
    rcases List.mem_cons.mp ho with rfl | ho
    · exact ⟨_, List.mem_cons_self, .refl⟩
    · rcases List.mem_cons.mp ho with rfl | ho
      · exact ⟨_, List.mem_cons_self, hplaceholder⟩
      · exact ⟨o, List.mem_cons_of_mem _ ho, .refl⟩

theorem span_stageOf (head : Expr) (args : List Expr) :
    (stageOf head args).span = args.foldl (fun s a => s.merge a.span) head.span := by
  simp only [stageOf]
  split <;> simp [Expr.span]

theorem strung_stageOf {lo hi : Nat} {head : Expr} {args : List Expr}
    (h : Strung text lo (head.outline :: args.map Expr.outline) hi) :
    Strung text lo [(stageOf head args).outline] hi := by
  have hspan : (stageOf head args).span = args.foldl (fun s a => s.merge a.span) head.outline.span := by
    rw [span_stageOf, Expr.span_outline]
  have hspans : (args.map Expr.outline).map Outline.span = args.map Expr.span := by simp
  have hstrung := h.merged hspans (held_stageOf head args)
  rwa [← hspan] at hstrung

theorem Derives.spanned {p : Phrase} (h : Derives mode ts p us) : p.Spanned text ts us := by
  induction h with
  | ident token | number token | yes token | no token | nil token => exact .token token rfl
  | negative minus number touch =>
    exact .enclosed minus rfl .refl number rfl
  | text token _ inside => exact spanned_text token inside
  | wildcard token path =>
    refine .expr ((Spanned.trans (.token token rfl) path.spanned).map fun _ _ hos => ?_) rfl
    exact hos.merged (by simp) .nil
  | access _ dot name target =>
    exact .expr (.whole (Spanned.before target dot) (.name name) (by simp) (by simp)) (by simp [Expr.outline])
  | apply _ _ final callee arguments =>
    exact .expr (.whole callee arguments (by simp) (by simp [Phrase.outlines, final]))
      (by simp [Phrase.outlines, Expr.outline])
  | @binary _ _ _ _ t op l r _ token operator _ left right =>
    have hsolid : t.kind.isSolid = true := by
      cases hk : t.kind <;> rw [hk] at operator <;> first | rfl | cases operator
    have hparts : [.leaf t.span, l.outline, r.outline] ⊆ [l.outline, .leaf t.span, r.outline] := by
      intro o ho
      simp only [List.mem_cons] at ho ⊢
      tauto
    have hrow : Spanned text _ _ (l.outline :: [.leaf t.span, r.outline]) :=
      Spanned.trans left (Spanned.trans (.token token hsolid) right)
    exact .expr (hrow.node (by simp) (by simp) (Outline.held_of_subset hparts))
      (by simp [Parse.binary, Expr.outline])
  | @parentheses _ _ _ _ _ _ e opened _ closed inside =>
    have hheld : Outline.Held text [e.outline] e.outline.children :=
      fun p hp => ⟨_, List.mem_singleton_self _, .child hp⟩
    refine (Spanned.around opened rfl inside closed rfl hheld).eq ?_
    rw [Phrase.outlines, Expr.outline_withSpan]
  | record opened _ closed inside | list opened _ closed inside =>
    exact .expr (.enclosed opened rfl inside closed rfl) (by simp [Phrase.outlines, Expr.outline])
  | function opened names arrow _ closed value =>
    exact .expr (.enclosed opened rfl ((names.spanned.before arrow).trans value) closed rfl) rfl
  | pipeline _ _ final closing source stages =>
    exact .expr (.whole source (Spanned.trans stages closing.skips.spanned) (by simp)
      (by simp [Phrase.outlines, final])) (by simp [Phrase.outlines, Expr.outline])
  | letIn start _ tail ahead keyword _ closing bindings value =>
    have hbindings := ((Spanned.trans bindings tail.skips.spanned).trans ahead.skips.spanned).before keyword
    exact .expr (.started start rfl ((hbindings.trans value).trans closing.skips.spanned)
      (by simp [Phrase.outlines])) (by simp [Phrase.outlines, Expr.outline])
  | ifElse start _ _ ahead keyword _ closing head tail value =>
    have hbranches := ((Spanned.trans head tail).trans ahead.skips.spanned).before keyword
    exact .expr (.started start rfl ((hbranches.trans value).trans closing.skips.spanned)
      (by simp [Phrase.outlines])) (by simp [Phrase.outlines, Expr.outline])
  | matchOn start _ _ final closing subject clauses =>
    exact .expr (.started start rfl ((Spanned.trans subject clauses).trans closing.skips.spanned)
      (by simp [Phrase.outlines, List.getLast?_cons, final])) (by simp [Phrase.outlines, Expr.outline])
  | tryCatch start _ _ final closing value catches =>
    exact .expr (.started start rfl ((Spanned.trans value catches).trans closing.skips.spanned)
      (by simp [Phrase.outlines, List.getLast?_cons, final])) (by simp [Phrase.outlines, Expr.outline])
  | inline _ value => exact value
  | indented turn _ closing value =>
    exact (turn.skips.spanned.trans value).trans closing.skips.spanned
  | noExprs | noFields | noStages | noArms | noGuard | noClauses | noCatches => exact .refl
  | exprs _ _ before next => exact (Spanned.trans before next).eq (by simp [Phrase.outlines])
  | fields _ name colon _ before value =>
    refine (Spanned.trans before ((Spanned.before (.name name) colon).trans value)).eq ?_
    simp [Phrase.outlines, Binding.outlines]
  | binding name names equals _ value =>
    exact (Spanned.name name).trans (spanned_definedValue names equals value)
  | firstBinding opening _ first => exact (opening.skips.spanned.trans first).eq (by simp [Phrase.outlines])
  | bindings _ between _ before next =>
    exact ((Spanned.trans before between.skips.spanned).trans next).eq (by simp [Phrase.outlines])
  | stage _ _ callee arguments => exact (Spanned.trans callee arguments).map fun _ _ hos => strung_stageOf hos
  | piped _ pipe _ before next =>
    exact ((Spanned.before before pipe).trans next).eq (by simp [Phrase.outlines])
  | stageLine _ turn _ before next =>
    exact ((Spanned.trans before turn.skips.spanned).trans next).eq (by simp [Phrase.outlines])
  | arm _ ahead keyword _ test value =>
    refine (((Spanned.trans test ahead.skips.spanned).before keyword).trans value).eq ?_
    simp [Phrase.outlines, Branch.outlines]
  | arms _ ahead keyword _ before next =>
    refine (((Spanned.trans before ahead.skips.spanned).before keyword).trans next).eq ?_
    simp [Phrase.outlines]
  | guard keyword _ value => exact .after keyword value
  | @clauses _ _ _ _ _ _ _ _ s _ _ _ cs p g e _ ahead bar pattern _ arrow _ before guard value =>
    have hclause := Spanned.started (s := e.span) bar rfl
      ((pattern.spanned.trans (Spanned.before guard arrow)).trans value)
      (by simp [Phrase.outlines, List.getLast?_cons])
    refine ((Spanned.trans before ahead.skips.spanned).trans hclause).eq ?_
    simp [Phrase.outlines, Clause.outline]
  | @catches _ _ _ _ _ _ _ s _ _ _ cs tag bound e _ ahead keyword caught arrow _ before value =>
    have hcatch := Spanned.started (s := e.span) keyword rfl ((caught.spanned.before arrow).trans value)
      (by simp [Phrase.outlines])
    refine ((Spanned.trans before ahead.skips.spanned).trans hcatch).eq ?_
    simp [Phrase.outlines, Catch.outline]
  | noSegments => exact fun _ _ _ he => absurd he List.not_mem_nil
  | literal _ rest => exact fun s hs => rest s fun inner t hmem => hs inner t (List.mem_cons_of_mem _ hmem)
  | @hole _ us last t parts found e _ ended _ inside rest =>
    intro s hs e' he
    rcases List.mem_cons.mp he with rfl | he
    · obtain ⟨hcovers, hlocated, hrow⟩ := hs us t List.mem_cons_self
      obtain ⟨mid, hstrung, hlast⟩ := inside t.start t.stop hrow
      obtain ⟨hnests, hstart, hstop⟩ := hstrung.mem (List.mem_singleton_self _)
      rw [Expr.span_outline] at hstart hstop
      exact ⟨hnests, hcovers.trans ⟨hstart, Nat.le_trans hstop hlast.le⟩⟩
    · exact rest s (fun inner t hmem => hs inner t (List.mem_cons_of_mem _ hmem)) e' he
  | @marker _ us t parts found lenient _ rest =>
    intro s hs e' he
    rcases List.mem_cons.mp he with rfl | he
    · obtain ⟨hcovers, hlocated, -⟩ := hs us t List.mem_cons_self
      exact ⟨Outline.nests_leaf hlocated, hcovers⟩
    · exact rest s (fun inner t hmem => hs inner t (List.mem_cons_of_mem _ hmem)) e' he

theorem Stated.spanned {s : Statement} (h : Stated mode ts s us) : Spanned text ts us [s.outline] := by
  cases h with
  | @assign _ n e definition =>
    have hparts : Spanned text ts us (n.outline :: [e.outline]) := definition.spanned
    exact hparts.node rfl (by simp) (Outline.held_of_subset (List.Subset.refl _))
  | @expr _ e value =>
    have hvalue : Spanned text ts us [e.outline] := value.spanned
    refine hvalue.map fun _ _ hos => ?_
    obtain ⟨hnests, hstart, hstop⟩ := hos.mem (List.mem_singleton_self _)
    rw [Expr.span_outline] at hstart hstop
    refine hos.node (Expr.located_of_nests hnests) hstart hstop (fun o ho => ?_)
      (Outline.held_of_subset (List.Subset.refl _))
    rw [List.mem_singleton.mp ho, Expr.span_outline]
    exact .refl

/-- A marker spans what could not be read, from its first token to its last one. -/
theorem spanned_skipped {skipped : List Token} {first last : Token} (hts : ts = skipped ++ us)
    (hfirst : skipped.head? = some first) (hsolid : first.kind.isSolid = true)
    (hlast : skipped.getLast? = some last) :
    Spanned text ts us [.leaf (first.span.merge last.span)] := by
  intro lo hi hrow
  rw [hts] at hrow
  obtain ⟨hus, hall⟩ := hrow.after hlast
  obtain ⟨hplaced, hlo, hstop⟩ := hall last (List.mem_of_getLast? hlast)
  obtain ⟨-, hlo', hstop'⟩ := hall first (List.mem_of_head? hfirst)
  have hlocated : first.span.Located text := by
    obtain ⟨rest, rfl⟩ := List.head?_eq_some_iff.mp hfirst
    exact Row.located hrow hsolid
  have hspan : (Span.mk lo last.span.stop 0 0).Covers (first.span.merge last.span) :=
    Span.Covers.merge ⟨hlo', hstop'⟩ ⟨hlo, hstop⟩
  have hnests := Outline.nests_leaf (hlocated.merge hplaced)
  exact ⟨last.span.stop, .cons hspan.start hnests (.nil hspan.stop), hus⟩

theorem Listed.spanned {found : List Statement} (h : Listed mode ts found us) :
    Spanned text ts us (found.map Statement.outline) := by
  induction h with
  | nil => exact .refl
  | line newline _ ih => exact .after newline ih
  | statement first _ ih => exact first.spanned.trans ih
  | @marker _ _ _ _ first _ _ _ tokens start content final _ ih =>
    have hsolid : first.kind.isSolid = true := by
      obtain ⟨hnewline, hdedent, heof⟩ := content
      cases hk : first.kind <;> first | rfl | contradiction
    exact (spanned_skipped tokens start hsolid final).trans ih

end Grammar

theorem Program.spansNest_ofStatements {statements : List Statement} {lo hi : Nat}
    (h : Strung text lo (statements.map Statement.outline) hi) :
    (Program.ofStatements statements).SpansNest text := by
  unfold Program.ofStatements
  split
  · next first last hfirst hlast =>
    refine ⟨fun _ => ?_, ?_⟩
    · have hnode := h.between (a := first.outline) (b := last.outline) (by simp [hfirst]) (by simp [hlast])
        (Outline.held_of_subset (List.Subset.refl _))
      rw [Statement.span_outline, Statement.span_outline] at hnode
      exact (hnode.mem (List.mem_singleton_self _)).1
    · simpa [List.pairwise_map] using h.ordered
  · next hnone =>
    cases statements with
    | nil => exact ⟨fun hne => absurd rfl hne, .nil⟩
    | cons s rest => exact absurd (List.getLast?_eq_some_getLast (List.cons_ne_nil s rest)) (hnone s _ rfl)

theorem Parse.spansNest_of_run {o : ParseOptions} {source : String}
    (hscan : (Scan.scan source.toList).finish.errors = []) :
    let found := run o (Scan.scan source.toList).finish.tokenList
    o.mode = .bestEffort ∨ found.2 = [] → found.1.SpansNest source.toList := by
  intro found h
  obtain ⟨last, -, hlisted⟩ := listed_of_run (Scan.regular_scan hscan) h
  obtain ⟨mid, hstrung, -⟩ := hlisted.spanned _ _ (Scan.row_scan hscan)
  rw [run_statements] at hstrung
  exact Program.spansNest_ofStatements hstrung

/-- Every tree that is read from a text has its spans in the text and in one another, with and without errors
and before and after its pipelines are resolved. -/
theorem spans_nest {source : String} {tokens : List Token} (hlex : Scan.lex source = .ok tokens)
    (o : ParseOptions) :
    (∀ p, parse o tokens = .ok p → p.SpansNest source.toList ∧ p.resolve.SpansNest source.toList) ∧
      (parseBestEffort o tokens).1.SpansNest source.toList ∧
      (parseBestEffort o tokens).1.resolve.SpansNest source.toList := by
  obtain ⟨hscan, rfl⟩ := Scan.lex_eq_ok.mp hlex
  refine ⟨fun p hparse => ?_, ?_⟩
  · obtain ⟨hquiet, -, rfl⟩ := parse_eq_ok.mp hparse
    have hnest := (Parse.spansNest_of_run hscan (.inr hquiet)).desugar o
    exact ⟨hnest, hnest.resolve⟩
  · have hnest := (Parse.spansNest_of_run (o := { o with mode := .bestEffort }) hscan (.inl rfl)).desugar
      { o with mode := .bestEffort }
    exact ⟨hnest, hnest.resolve⟩

/-- A definition, a pipeline whose second stage has no placeholder, and an interpolation. -/
theorem spans_nest_pipeline :
    let source := "f x = x\nxs |> g _ \"a\x7bf x\x7d\" |> h\n"
    ∃ tokens p, Scan.lex source = .ok tokens ∧ parse {} tokens = .ok p ∧ p.statements.length = 2 ∧
      p.SpansNest source.toList ∧ p.resolve.SpansNest source.toList := by
  intro source
  obtain ⟨tokens, p, hlex, hparse, hlength⟩ := exists_of_read (f := fun p => p.statements.length)
    (show (Scan.lex source).toOption.bind (fun tokens =>
      (parse {} tokens).toOption.map fun p => p.statements.length) = some 2 by decide +kernel)
  exact ⟨tokens, p, hlex, hparse, hlength, (spans_nest hlex {}).1 p hparse⟩

end PipeLang
