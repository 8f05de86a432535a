import PipeLang.Proofs.Parse.Adjacency
import PipeLang.Proofs.Parse.Limit
import PipeLang.Proofs.Parse.Modes
import PipeLang.Proofs.Parse.Stages

/-! The two layouts of a pipeline build the same tree. -/

namespace PipeLang

namespace Parse

variable {α β : Type} {o : ParseOptions}

/-! ## Seeds in their places -/

section

variable (hfree : o.resolvePipelines = false) {e : Token} {v ts : List Token} (he : e.kind = .eof)
  (hv : StageFollow v) {levels : Nat} (hled : ∀ b c, LedFrom e v ts c (primary o levels b))

include hfree he hv hled

/-- The stages that a seed has of its own are read, and the loop is where it was after them. -/
theorem carried_inlineStages (n : Nat) : ∀ {s s' : Stages} {c c' d : Cursor} {r : List Token},
    c.rest.length ≤ n → c.Outside e v ts r d → inlineStages o (primary o levels) s c = .ok s' c' →
      s'.budget = s.budget ∧ ∃ d' r', c'.Outside e v ts r' d' ∧
        inlineStages o (primary o levels) s d = inlineStages o (primary o levels) s' d' := by
  have hm := moves_primary o levels
  induction n with
  | zero =>
    intro s s' c c' d r hn h _
    rw [h.front] at hn
    simp at hn
  | succ n ih =>
    intro s s' c c' d r hn h hrun
    rw [inlineStages_eq hm s (h.ended he)] at hrun
    cases hp : c.atPunctuation .pipe with
    | false =>
      rw [hp] at hrun
      cases hrun
      exact ⟨rfl, d, r, h, rfl⟩
    | true =>
      rw [hp] at hrun
      have hk : c.kind = .punctuation .pipe := TokenKind.isPunctuation_iff.mp hp
      have hend : c.kind ≠ .eof := by rw [hk]; simp
      obtain ⟨t, r, rfl⟩ := h.exists_cons he hend
      have hdp : d.atPunctuation .pipe = true := by
        rw [Cursor.atPunctuation, h.kind.2, ← h.kind.1, hk]
        rfl
      have hnext : c.next.Outside e v ts r d.next :=
        ⟨h.next (by rw [← h.kind.1]; exact hend),
          h.opens.next (bracketsAfter_of_not_bracket (by rw [hk]; rfl) [])⟩
      obtain ⟨s1, c1, hpush, hrun⟩ := bind_eq_ok.mp hrun
      obtain ⟨d1, r1, hdpush, h1⟩ :=
        carried_pushStage he hv hled s c.next r d.next hnext s1 c1 hpush
      have hshorter : c1.rest.length ≤ n := by
        have hless := (moves_pushStage hm s c.next (hnext.ended he) s1 c1 hpush).2
        have hskip := (h.ended he).next.2
        have hless : c1.rest.length + 1 ≤ c.next.rest.length := hless
        omega
      obtain ⟨hbudget, d', r', h', hsame⟩ := ih hshorter h1 hrun
      have hlevels : s1.budget = s.budget := by
        rw [pushStage_eq hfree] at hpush
        obtain ⟨_, _, _, hpush⟩ := bind_eq_ok.mp hpush
        cases hpush
        rfl
      refine ⟨hbudget.trans hlevels, d', r', h', ?_⟩
      rw [inlineStages_of_pipe hm (h.ended_right hv.follow) hdp hdpush, hsame]

end

theorem bind_run_eq {x y : Parse α} {f : α → Parse β} {c d : Cursor} (h : x c = y d) :
    (x >>= f) c = (y >>= f) d := by
  show EStateM.bind x f c = EStateM.bind y f d
  simp only [EStateM.bind, h]

section

variable (hfree : o.resolvePipelines = false) {levels b : Nat}

include hfree

/-- A seed that is read alone is read in front of whatever may follow it, and what comes after it is
taken for more stages. -/
theorem expression_of_alone {ts : List Token} {tree : Expr} (hplain : Plain ts)
    (halone : ReadsAlone (expression o (primary o levels) b) ts tree) :
    ∃ seed found, ∀ v, StageFollow v → ∃ d, d.rest = v ∧
      expression o (primary o levels) b (.ofTokens (ts ++ v)) = (do
        let stages ← stagesFrom o (primary o levels) ⟨b, found⟩
        pure (pipelineOf seed stages) : Parse Expr) d := by
  obtain ⟨e, he, c', hrun, hlength, -⟩ := halone
  rw [expression_parts] at hrun
  obtain ⟨first, c1, hfirst, hrun⟩ := bind_eq_ok.mp hrun
  obtain ⟨seed, c2, hseed, hrun⟩ := bind_eq_ok.mp hrun
  obtain ⟨stages, c3, hstages, hrun⟩ := bind_eq_ok.mp hrun
  cases hrun
  obtain ⟨s, c4, hinline, hblock⟩ := bind_eq_ok.mp hstages
  refine ⟨seed, s.stages, fun v hv => ?_⟩
  have hahead : (Cursor.ofTokens (ts ++ [e])).Outside e v ts ts (.ofTokens (ts ++ v)) :=
    ⟨⟨⟨rfl, rfl, hplain.free, fun t _ => hv.apart t⟩, rfl⟩, rfl,
      ⟨e, by rw [Cursor.ofTokens, List.getLast?_concat], he⟩, rfl⟩
  have hled := hplain.led_primary (o := o) he hv.follow levels
  obtain ⟨d1, r1, hd1, h1⟩ := (led_application he hv hled b _).carried _ _ hahead first c1 hfirst
  obtain ⟨d2, r2, hd2, h2⟩ := carried_chain he hv hled b first 0 _ _ _ h1 seed c2 hseed
  obtain ⟨hbudget, d4, r4, h4, hsame⟩ :=
    carried_inlineStages hfree he hv hled _ (Nat.le_refl _) h2 hinline
  have hno : c4.atNewline = false := by
    cases r4 with
    | nil =>
      unfold Cursor.atNewline
      rw [(h4.kind_nil he hv).1]
      rfl
    | cons t r => exact h4.atNewline.1
  have hclosed : openBlock TokenKind.isIdent c4 = .ok false c4 := by
    unfold openBlock Cursor.atBlock
    rw [hno]
    rfl
  rw [bind_of_ok hclosed] at hblock
  cases hblock
  have hr4 : r4 = [] := by
    rw [h4.front] at hlength
    simpa using hlength
  refine ⟨d4, by rw [h4.back, hr4]; rfl, ?_⟩
  obtain ⟨b', found⟩ := s
  obtain rfl : b' = b := hbudget
  rw [expression_parts, bind_of_ok hd1, bind_of_ok hd2]
  exact bind_run_eq (bind_run_eq hsame)

/-- One tree for both layouts. -/
theorem expression_of_layouts {seed : List Token} {tree : Expr} {stages : List (List Token)}
    {as : List Stage} (hplain : Plain seed)
    (hseed : ReadsAlone (expression o (primary o levels) b) seed tree)
    (hstages : List.Forall₂
      (fun ts a => Plain ts ∧ ReadsAlone (stage o (primary o levels) b) ts a) stages as) :
    ∃ whole, ∀ v, InlineStages stages v ∨ IndentedStages stages v →
      ∃ d, expression o (primary o levels) b (.ofTokens (seed ++ v)) = .ok whole d ∧
        d.rest.length = 1 := by
  obtain ⟨value, found, hread⟩ := expression_of_alone hfree hplain hseed
  refine ⟨pipelineOf value (found.reverse ++ as), fun v hv => ?_⟩
  have hfollows : StageFollow v := by
    rcases hv with hinline | hindented
    · exact hinline.follows
    · exact hindented.follows
  obtain ⟨d, hd, hrun⟩ := hread v hfollows
  obtain ⟨d', hfrom, hlength⟩ := stagesFrom_of_layout hfree hstages hv found hd
  refine ⟨d', ?_, hlength⟩
  rw [hrun, bind_of_ok hfrom]
  rfl

end

/-! ## Other options -/

section

variable (d : Nat) (resolving : Bool)

theorem unresolved :
    (ParseOptions.mk .strict d false).resolvePipelines = true →
      (ParseOptions.mk .strict d resolving).resolvePipelines = true := nofun

/-- Rewiring costs a strict run its levels, and nothing else. -/
theorem expression_within :
    Limited ((limited (unresolved d resolving)).same Expr.relocate)
      (rootExpression ⟨.strict, d, resolving⟩) (rootExpression ⟨.strict, d, false⟩) :=
  Coupling.expression (C := limited (unresolved d resolving)) (moves_primary _ d)
    (fun h => limited_primary (unresolved d resolving) rfl rfl d (Nat.le_refl d) h) (Nat.le_refl d)

theorem stage_within :
    Limited ((limited (unresolved d resolving)).same Stage.relocate)
      (stage ⟨.strict, d, resolving⟩ (rootPrimary ⟨.strict, d, resolving⟩) d)
      (stage ⟨.strict, d, false⟩ (rootPrimary ⟨.strict, d, false⟩) d) :=
  Coupling.stage (C := limited (unresolved d resolving)) (moves_primary _ d)
    (fun h => limited_primary (unresolved d resolving) rfl rfl d (Nat.le_refl d) h) (Nat.le_refl d)

variable {d resolving}

theorem ReadsAlone.of_within {R : α → β → Prop} {x : Parse α} {y : Parse β} (h : Limited R x y)
    {ts : List Token} {a : α} (ha : ReadsAlone x ts a) : ∃ b, ReadsAlone y ts b := by
  obtain ⟨e, he, c, hrun, hlength, hquiet⟩ := ha
  have hout := h (.ofTokens (ts ++ [e]))
  rw [hrun] at hout
  generalize hy : y (.ofTokens (ts ++ [e])) = r at hout
  cases hout with
  | @ok _ b _ value quiet => exact ⟨b, e, he, c, hy, hlength, hquiet⟩

/-- A strict run records nothing, so it has read the whole list once it is at its last token. -/
theorem ReadsAll.of_ok {ts : List Token} {a : Expr} {c : Cursor}
    (hrun : rootExpression ⟨.strict, d, false⟩ (.ofTokens ts) = .ok a c)
    (hlength : c.rest.length = 1) : ReadsAll (rootExpression ⟨.strict, d, false⟩) ts a := by
  have hout := expression_within d false (.ofTokens ts)
  rw [hrun] at hout
  cases hout with
  | ok value quiet => exact ⟨c, hrun, hlength, quiet⟩

end

/-- The strict run fails because the nesting limit was reached. -/
def ReachesLimit (o : ParseOptions) (ts : List Token) : Prop :=
  ∃ e c, rootExpression { o with mode := .strict } (.ofTokens ts) = .error e c ∧ e.failure = .limit

instance (o : ParseOptions) (ts : List Token) : Decidable (ReachesLimit o ts) :=
  match h : rootExpression { o with mode := .strict } (.ofTokens ts) with
  | .ok _ _ => .isFalse fun ⟨_, _, hrun, _⟩ => by rw [h] at hrun; cases hrun
  | .error e _ => decidable_of_iff (e.failure = .limit)
    ⟨fun he => ⟨_, _, h, he⟩, fun ⟨_, _, hrun, he⟩ => by rw [h] at hrun; cases hrun; exact he⟩

theorem ReadsAll.of_unresolved {ts : List Token} {a : Expr} (hlimit : ¬ReachesLimit o ts)
    (ha : ReadsAll (rootExpression ⟨.strict, o.maxDepth, false⟩) ts a) :
    ReadsAll (rootExpression { o with mode := .strict }) ts a := by
  obtain ⟨c, hrun, hlength, hquiet⟩ := ha
  have hout := expression_within o.maxDepth o.resolvePipelines (.ofTokens ts)
  rw [hrun] at hout
  generalize hx : rootExpression ⟨.strict, o.maxDepth, o.resolvePipelines⟩ (.ofTokens ts) = r at hout
  cases hout with
  | @ok a' _ _ value quiet =>
    have hsame : a' = a := by
      rw [← a'.relocate_id, ← a.relocate_id]
      exact value
    exact ⟨c, hsame ▸ hx, hlength, hquiet⟩
  | beyond limit _ => exact absurd ⟨_, _, hx, limit⟩ hlimit

/-- Where the strict run has no error the best-effort run does the same. -/
theorem ReadsAll.of_strict {ts : List Token} {a : Expr}
    (ha : ReadsAll (rootExpression { o with mode := .strict }) ts a) :
    ReadsAll (rootExpression o) ts a := by
  obtain ⟨c, hrun, hlength, hquiet⟩ := ha
  obtain ⟨mode, limit, resolving⟩ := o
  cases mode with
  | strict => exact ⟨c, hrun, hlength, hquiet⟩
  | bestEffort =>
    let o : ParseOptions := ⟨.bestEffort, limit, resolving⟩
    have hmodes : BothModes .any ((bothModes .any o).same Expr.relocate)
        (rootExpression { o with mode := .strict }) (rootExpression { o with mode := .bestEffort }) :=
      Coupling.expression (C := bothModes .any o) (moves_primary _ _)
        (fun {b _} h => by cases h; exact bothModes_primary o _ .any b) rfl
    have hout := hmodes (.ofTokens ts) fun _ _ _ _ => trivial
    rw [show rootExpression { o with mode := .strict } (.ofTokens ts) = _ from hrun] at hout
    generalize hy : rootExpression { o with mode := .bestEffort } (.ofTokens ts) = r at hout
    cases hout with
    | @ok _ b _ value fits quiet =>
      have hsame : a = b := by
        rw [← a.relocate_id, ← b.relocate_id]
        exact value
      exact ⟨c, hsame ▸ hy, hlength, hquiet⟩

/-- Other spans for the same tokens that leave the gaps between them as they are. -/
def Respanned (ts us : List Token) : Prop :=
  ts = us ∨ TokensAlike (fun _ => .origin) (fun _ => .origin) ts us

theorem mergeable_origin : Mergeable (fun _ => .origin) (fun _ => .origin) := fun _ _ _ _ _ _ => rfl

/-- A rule whose runs over alike tokens stay side by side reads them all or none. -/
theorem ReadsAll.of_alike {x : Parse Expr} {ts us : List Token} {a : Expr}
    (hx : SideBySide (fun _ => .origin) (fun _ => .origin)
      ((sideBySide o mergeable_origin).same Expr.relocate) x x)
    (h : TokensAlike (fun _ => .origin) (fun _ => .origin) ts us) (ha : ReadsAll x ts a) :
    ∃ b, ReadsAll x us b ∧ a.erase = b.erase := by
  obtain ⟨c, hrun, hlength, hquiet⟩ := ha
  have hout := hx _ _ (.ofTokens h)
  rw [hrun] at hout
  generalize hy : x (.ofTokens us) = r at hout
  cases hout with
  | @ok _ b _ d value cursor =>
    have herrors := cursor.errors
    rw [hquiet] at herrors
    exact ⟨b, ⟨d, hy, cursor.rest.length_eq ▸ hlength, List.forall₂_nil_left_iff.mp herrors⟩, value⟩

theorem ReadsAll.respanned {ts us : List Token} (h : Respanned ts us) {a : Expr}
    (ha : ReadsAll (rootExpression o) ts a) :
    ∃ b, ReadsAll (rootExpression o) us b ∧ a.erase = b.erase := by
  rcases h with rfl | halike
  · exact ⟨a, ha, rfl⟩
  · exact ha.of_alike (Coupling.expression (C := sideBySide o mergeable_origin) (moves_primary o _)
      (fun {b _} h => by cases h; exact sideBySide_primary o mergeable_origin _ b) rfl) halike

theorem exists_forall₂ {P : α → β → Prop} {as : List α} (h : ∀ a ∈ as, ∃ b, P a b) :
    ∃ bs, List.Forall₂ P as bs := by
  induction as with
  | nil => exact ⟨[], .nil⟩
  | cons a as ih =>
    obtain ⟨b, hb⟩ := h a List.mem_cons_self
    obtain ⟨bs, hbs⟩ := ih fun a ha => h a (List.mem_cons_of_mem _ ha)
    exact ⟨b :: bs, .cons hb hbs⟩

end Parse

open Parse

/-- A whole expression that may be the seed of a pipeline in either layout. -/
structure IsSeed (o : ParseOptions) (ts : List Token) : Prop extends Plain ts where
  reads : ∃ tree, ReadsAlone (rootExpression { o with mode := .strict }) ts tree

/-- One whole stage that may stand in a pipeline of either layout. -/
structure IsStage (o : ParseOptions) (ts : List Token) : Prop extends Plain ts where
  reads : ∃ a, ReadsAlone (stage { o with mode := .strict } (rootPrimary { o with mode := .strict })
    o.maxDepth) ts a

theorem reads_last {α : Type} {rule : Parse α} {ts : List Token}
    (h : ∃ a, ReadsAll rule (ts ++ [.last]) a) : ∃ a, ReadsAlone rule ts a := by
  obtain ⟨a, ha⟩ := h
  exact ⟨a, .last, rfl, ha⟩

/-- The stages of a pipeline may stand on one line, each after a pipe, or one a line in an indented block.
Unless the nesting limit is reached both are read to the end and without an error, and give the same
tree. This holds wherever the tokens stand in their texts, as long as the gaps between them are kept. -/
theorem layouts_agree (o : ParseOptions) {seed : List Token} {stages : List (List Token)}
    (hseed : IsSeed o seed) (hstages : ∀ ts ∈ stages, IsStage o ts) {inline indented : List Token}
    (hinline : InlineStages stages inline) (hindented : IndentedStages stages indented)
    {ts us : List Token} (hts : Respanned (seed ++ inline) ts) (hus : Respanned (seed ++ indented) us)
    (htslimit : ¬ReachesLimit o ts) (huslimit : ¬ReachesLimit o us) :
    ∃ a b, ReadsAll (rootExpression o) ts a ∧ ReadsAll (rootExpression o) us b ∧
      a.erase = b.erase := by
  obtain ⟨tree, htree⟩ := hseed.reads
  obtain ⟨tree, htree⟩ := htree.of_within (expression_within o.maxDepth o.resolvePipelines)
  have hread : ∀ ts ∈ stages, ∃ a, Plain ts ∧ ReadsAlone (stage ⟨.strict, o.maxDepth, false⟩
      (rootPrimary ⟨.strict, o.maxDepth, false⟩) o.maxDepth) ts a := by
    intro ts hts
    obtain ⟨a, ha⟩ := (hstages ts hts).reads
    obtain ⟨b, hb⟩ := ha.of_within (stage_within o.maxDepth o.resolvePipelines)
    exact ⟨b, (hstages ts hts).toPlain, hb⟩
  obtain ⟨as, has⟩ := exists_forall₂ hread
  obtain ⟨whole, hwhole⟩ := expression_of_layouts rfl hseed.toPlain htree has
  -- both layouts have one tree without rewiring, and each keeps it on the way to its own run
  have hlaid : ∀ {v ws : List Token}, InlineStages stages v ∨ IndentedStages stages v →
      Respanned (seed ++ v) ws → ¬ReachesLimit o ws →
        ∃ a, ReadsAll (rootExpression o) ws a ∧ whole.erase = a.erase := by
    intro v ws hv hws hlimit
    obtain ⟨d, hrun, hlength⟩ := hwhole v hv
    obtain ⟨a, ha, hsame⟩ := (ReadsAll.of_ok hrun hlength).respanned hws
    exact ⟨a, (ha.of_unresolved hlimit).of_strict, hsame⟩
  obtain ⟨a, ha, hsame⟩ := hlaid (.inl hinline) hts htslimit
  obtain ⟨b, hb, hsame'⟩ := hlaid (.inr hindented) hus huslimit
  exact ⟨a, b, ha, hb, hsame.symm.trans hsame'⟩

/-- A construct in brackets as an argument of the second stage, with rewiring. -/
theorem layouts_agree_construct :
    let o : ParseOptions := ⟨.bestEffort, 8, true⟩
    let token (k : TokenKind) : Token := ⟨k, .origin⟩
    let seed := [token (.ident "x")]
    let first := [token (.ident "f")]
    let second := [token (.ident "g"), token (.punctuation .lparen), token (.keyword .if_),
      token (.ident "a"), token (.keyword .then_), token (.ident "b"), token (.keyword .else_),
      token (.ident "c"), token (.punctuation .rparen)]
    let inline := token (.punctuation .pipe) :: (first ++ token (.punctuation .pipe) :: (second ++ [.last]))
    let indented := token .newline :: token .indent ::
      (first ++ token .newline :: (second ++ [token .newline, token .dedent, .last]))
    IsSeed o seed ∧ (∀ ts ∈ [first, second], IsStage o ts) ∧
      InlineStages [first, second] inline ∧ IndentedStages [first, second] indented ∧
      Respanned (seed ++ inline) (seed ++ inline) ∧ Respanned (seed ++ indented) (seed ++ indented) ∧
      ¬ReachesLimit o (seed ++ inline) ∧ ¬ReachesLimit o (seed ++ indented) ∧
      ∃ a b, ReadsAll (rootExpression o) (seed ++ inline) a ∧
        ReadsAll (rootExpression o) (seed ++ indented) b ∧ a.erase = b.erase := by
  intro o token seed first second inline indented
  have hseed : IsSeed o seed :=
    { free := by decide +kernel, constructs := by decide +kernel
      reads := reads_last (by decide +kernel) }
  have hfirst : IsStage o first :=
    { free := by decide +kernel, constructs := by decide +kernel
      reads := reads_last (by decide +kernel) }
  have hsecond : IsStage o second :=
    { free := by decide +kernel, constructs := by decide +kernel
      reads := reads_last (by decide +kernel) }
  have hstages : ∀ ts ∈ [first, second], IsStage o ts := by
    intro ts hts
    rcases List.mem_pair.mp hts with rfl | rfl
    · exact hfirst
    · exact hsecond
  have hinline : InlineStages [first, second] inline := .cons rfl (.cons rfl (.nil rfl))
  have hindented : IndentedStages [first, second] indented :=
    .block rfl rfl (.cons rfl (.last rfl rfl rfl))
  have hwithin : ¬ReachesLimit o (seed ++ inline) := by decide +kernel
  have hwithin' : ¬ReachesLimit o (seed ++ indented) := by decide +kernel
  exact ⟨hseed, hstages, hinline, hindented, .inl rfl, .inl rfl, hwithin, hwithin',
    layouts_agree o hseed hstages hinline hindented (.inl rfl) (.inl rfl) hwithin hwithin'⟩

end PipeLang
