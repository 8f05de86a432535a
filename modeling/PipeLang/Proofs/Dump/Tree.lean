import PipeLang.Proofs.Dump.Legible

/-! The dump of a legible tree determines the tree but for its spans. -/

namespace PipeLang

theorem Name.erase_eq_of_sexp_eq {n m : Name} (h : n.sexp = m.sexp) :
    n.relocate (fun _ => .origin) = m.relocate fun _ => .origin :=
  congrArg (Name.mk · .origin) (Sexp.atom.inj h)

theorem Binding.erase_eq_of_sexp_eq {b c : Binding}
    (hvalue : b.value.sexp = c.value.sexp → b.value.erase = c.value.erase) (h : b.sexp = c.sexp) :
    b.erase = c.erase := by
  obtain ⟨hname, hrest⟩ := List.cons.inj (Sexp.list.inj h)
  exact congrArg₂ Binding.mk (Name.erase_eq_of_sexp_eq hname) (hvalue (List.cons.inj hrest).1)

theorem Branch.erase_eq_of_sexp_eq {b c : Branch}
    (hcondition : b.condition.sexp = c.condition.sexp → b.condition.erase = c.condition.erase)
    (hresult : b.result.sexp = c.result.sexp → b.result.erase = c.result.erase) (h : b.sexp = c.sexp) :
    b.erase = c.erase := by
  obtain ⟨hfirst, hrest⟩ := List.cons.inj (Sexp.list.inj h)
  exact congrArg₂ Branch.mk (hcondition hfirst) (hresult (List.cons.inj hrest).1)

namespace Expr

/-- Parts of `e` have the same trees as other legible expressions with the same dumps. -/
def Settles (e : Expr) : Prop := ∀ f : Expr, f.Legible → e.sexp = f.sexp → e.erase = f.erase

theorem erase_eq_of_sexps_eq {as bs : List Expr} (ha : ∀ a ∈ as, a.Settles)
    (hb : ∀ b ∈ bs, b.Legible) (h : as.map sexp = bs.map sexp) : as.map erase = bs.map erase :=
  map_eq_of_map_eq (fun a ham b hbm => ha a ham b (hb b hbm)) h

end Expr

theorem Stage.erase_eq_of_sexp_eq {g k : Stage} (hg : ∀ e ∈ g.callee :: g.args, e.Settles)
    (hk : ∀ e ∈ k.callee :: k.args, e.Legible) (h : g.sexp = k.sexp) : g.erase = k.erase := by
  have hparts := Expr.erase_eq_of_sexps_eq hg hk (Sexp.list.inj h)
  obtain ⟨hcallee, hargs⟩ := List.cons.inj hparts
  exact congrArg₂ (Stage.mk .origin) hcallee hargs

theorem Clause.erase_eq_of_sexp_eq {c d : Clause} (hc : ∀ e ∈ c.guard.toList ++ [c.result], e.Settles)
    (hd : ∀ e ∈ d.guard.toList ++ [d.result], e.Legible)
    (hpattern : c.pattern.sexp = d.pattern.sexp → c.pattern.erase = d.pattern.erase)
    (h : c.sexp = d.sexp) : c.erase = d.erase := by
  obtain ⟨s, pattern, guard, result⟩ := c
  obtain ⟨t, other, guard', result'⟩ := d
  obtain ⟨hfirst, hrest⟩ := List.cons.inj (List.cons.inj (Sexp.list.inj h)).2
  have herase := hpattern hfirst
  cases guard with
  | none =>
    cases guard' with
    | none =>
      have hresult := hc result (List.mem_singleton_self _) result' (hd _ (List.mem_singleton_self _))
        (List.cons.inj hrest).1
      exact congrArg₂ (Clause.mk .origin · none ·) herase hresult
    | some g' => cases (List.cons.inj hrest).2
  | some g =>
    cases guard' with
    | none => cases (List.cons.inj hrest).2
    | some g' =>
      obtain ⟨hwhen, hlast⟩ := List.cons.inj hrest
      have hguard := hc g List.mem_cons_self g' (hd _ List.mem_cons_self)
        (List.cons.inj (List.cons.inj (Sexp.list.inj hwhen)).2).1
      have hresult := hc result (List.mem_cons_of_mem _ (List.mem_singleton_self _)) result'
        (hd _ (List.mem_cons_of_mem _ (List.mem_singleton_self _))) (List.cons.inj hlast).1
      show Clause.mk .origin pattern.erase (some g.erase) result.erase =
        Clause.mk .origin other.erase (some g'.erase) result'.erase
      rw [herase, hguard, hresult]

theorem Catch.erase_eq_of_sexp_eq {c d : Catch}
    (hhandler : c.handler.sexp = d.handler.sexp → c.handler.erase = d.handler.erase)
    (h : c.sexp = d.sexp) : c.erase = d.erase := by
  obtain ⟨s, tag, bound, handler⟩ := c
  obtain ⟨t, tag', bound', handler'⟩ := d
  obtain ⟨hnames, hlast⟩ := List.append_inj' (List.cons.inj (Sexp.list.inj h)).2 rfl
  have herase := hhandler (List.cons.inj hlast).1
  have htagged : ∀ {head head' : String} {n m : Name},
      Sexp.tagged head [n.sexp] = Sexp.tagged head' [m.sexp] →
        head = head' ∧ n.relocate (fun _ => .origin) = m.relocate fun _ => .origin := by
    intro head head' n m heq
    obtain ⟨hhead, hname⟩ := List.cons.inj (Sexp.list.inj heq)
    exact ⟨Sexp.atom.inj hhead, Name.erase_eq_of_sexp_eq (List.cons.inj hname).1⟩
  have hoption : ∀ {head : String} {o o' : Option Name},
      (o.map fun n => Sexp.tagged head [n.sexp]).toList =
        (o'.map fun n => Sexp.tagged head [n.sexp]).toList →
          o.map (Name.relocate fun _ => .origin) = o'.map (Name.relocate fun _ => .origin) := by
    intro head o o' heq
    cases o with
    | none =>
      cases o' with
      | none => rfl
      | some m => cases heq
    | some n =>
      cases o' with
      | none => cases heq
      | some m => exact congrArg some (htagged (List.cons.inj heq).1).2
  -- a tag that is missing on one side leaves a binding there, and the two have different heads
  have hmissing : ∀ {n : Name} {rest : List Sexp} {o : Option Name},
      Sexp.tagged "tag" [n.sexp] :: rest ≠ (o.map fun n => Sexp.tagged "bind" [n.sexp]).toList := by
    intro n rest o heq
    cases o with
    | none => cases heq
    | some m => exact absurd (htagged (List.cons.inj heq).1).1 (by decide)
  have hsame : tag.map (Name.relocate fun _ => .origin) = tag'.map (Name.relocate fun _ => .origin) ∧
      bound.map (Name.relocate fun _ => .origin) = bound'.map (Name.relocate fun _ => .origin) := by
    cases tag with
    | none =>
      cases tag' with
      | none => exact ⟨rfl, hoption hnames⟩
      | some n' => exact absurd hnames.symm hmissing
    | some n =>
      cases tag' with
      | none => exact absurd hnames hmissing
      | some n' =>
        obtain ⟨hfirst, hrest⟩ := List.cons.inj hnames
        exact ⟨congrArg some (htagged hfirst).2, hoption hrest⟩
  show Catch.mk .origin (tag.map _) (bound.map _) handler.erase =
    Catch.mk .origin (tag'.map _) (bound'.map _) handler'.erase
  rw [hsame.1, hsame.2, herase]

namespace Expr

/-- Strings with the same dump have the same segments. A segment that is quoted is a literal, for no string
without interpolations is an interpolation. -/
theorem erase_eq_of_segments_eq {s t : Span} {segments others : List Segment}
    (he : (text s segments).Legible) (hf : (text t others).Legible)
    (hsettles : ∀ e, .hole e ∈ segments → e.Settles)
    (h : (text s segments).sexp = (text t others).sexp) :
    segments.map Segment.erase = others.map Segment.erase := by
  obtain ⟨hliteral, hplain, -⟩ := he.own
  obtain ⟨hothers, hplain', -⟩ := hf.own
  rw [sexp, sexp, segmentSexps_eq_map, segmentSexps_eq_map] at h
  have hquoted : ∀ {r : Span} {hole : Expr} {segments : List Segment} {body : String},
      (text r segments).Legible → .hole hole ∈ segments → body ≠ "" →
        (segments.all fun g => !g.isNestedLiteral) = true → hole.sexp ≠ .atom (quoted body) := by
    intro r hole segments body hlegible hmem hbody hnot heq
    have hhole := hlegible.child (List.mem_flatMap.mpr ⟨_, hmem, List.mem_singleton_self hole⟩)
    have hshape := shape_sexp hhole
    rw [heq, show Sexp.shape (.atom (quoted body)) = .text from atomShape_quoted body] at hshape
    cases hole with
    | text u inner =>
      rw [sexp] at heq
      rcases segmentsSexp_cases inner (segmentSexps inner) with ⟨t, hatom, hinner⟩ | hlist
      · rw [hatom] at heq
        obtain rfl := quoted_injective (Sexp.atom.inj heq)
        rcases hinner with ⟨-, hempty⟩ | rfl
        · exact hbody hempty
        · cases List.all_eq_true.mp hnot _ hmem
      · rw [hlist] at heq
        cases heq
    | _ => cases hshape
  rcases segmentsSexp_cases segments (segments.map Segment.sexp) with ⟨b, hatom, hb⟩ | hlist
  · rcases segmentsSexp_cases others (others.map Segment.sexp) with ⟨c, hatom', hc⟩ | hlist'
    · rw [hatom, hatom'] at h
      obtain rfl := quoted_injective (Sexp.atom.inj h)
      rcases hb with ⟨rfl, rfl⟩ | rfl
      · rcases hc with ⟨rfl, -⟩ | rfl
        · rfl
        · exact absurd rfl (hothers "" (List.mem_singleton_self _))
      · rcases hc with ⟨rfl, rfl⟩ | rfl
        · exact absurd rfl (hliteral "" (List.mem_singleton_self _))
        · rfl
    · rw [hatom, hlist'] at h
      cases h
  · rcases segmentsSexp_cases others (others.map Segment.sexp) with ⟨c, hatom', hc⟩ | hlist'
    · rw [hlist, hatom'] at h
      cases h
    · rw [hlist, hlist'] at h
      refine map_eq_of_map_eq (fun g hg k hk heq => ?_) (List.cons.inj (Sexp.list.inj h)).2
      cases g with
      | literal a =>
        cases k with
        | literal b => exact congrArg Segment.literal (quoted_injective (Sexp.atom.inj heq))
        | hole e => exact absurd heq.symm (hquoted hf hk (hliteral a hg) hplain')
      | hole e =>
        cases k with
        | literal b => exact absurd heq (hquoted he hg (hothers b hk) hplain)
        | hole e' =>
          exact congrArg Segment.hole (hsettles e hg e'
            (hf.child (List.mem_flatMap.mpr ⟨_, hk, List.mem_singleton_self e'⟩)) heq)

/-- Legible trees with the same dump are the same but for their spans. -/
theorem settles_of_legible {e : Expr} (he : e.Legible) : e.Settles := by
  induction e using children_induction with
  | h e ih =>
    intro f hf h
    replace ih : ∀ child ∈ e.children, child.Settles := fun child hc => ih child hc (he.child hc)
    have hshape : e.shape = f.shape := by rw [← shape_sexp he, h, shape_sexp hf]
    have hbindings : ∀ {bs cs : List Binding}, (∀ b ∈ bs, b.value.Settles) →
        (∀ c ∈ cs, c.value.Legible) → bs.map Binding.sexp = cs.map Binding.sexp →
          bs.map Binding.erase = cs.map Binding.erase := fun hb hc =>
      map_eq_of_map_eq fun b hbm c hcm => Binding.erase_eq_of_sexp_eq (hb b hbm c.value (hc c hcm))
    cases e with
    | ident s name =>
      cases f with
      | ident t other => exact congrArg (ident .origin) (Sexp.atom.inj h)
      | _ => cases hshape
    | wildcard s path =>
      cases f with
      | wildcard t other =>
        exact congrArg (wildcard .origin) (path_injective he.own.1 hf.own.1 (Sexp.atom.inj h))
      | _ => cases hshape
    | number s value =>
      cases f with
      | number t other =>
        exact congrArg (number .origin) (Number.text_injective
          (he.own.2.2 value (List.mem_singleton_self _)) (hf.own.2.2 other (List.mem_singleton_self _))
            (Sexp.atom.inj h))
      | _ => cases hshape
    | text s segments =>
      cases f with
      | text t others =>
        have hsegments := erase_eq_of_segments_eq he hf (fun e hm =>
          ih e (List.mem_flatMap.mpr ⟨_, hm, List.mem_singleton_self e⟩)) h
        simp only [erase, relocate, relocateSegments_eq_map]
        exact congrArg (text .origin) hsegments
      | _ => cases hshape
    | bool s b =>
      cases f with
      | bool t c => exact congrArg (bool .origin) (boolWord_injective (Sexp.atom.inj h))
      | _ => cases hshape
    | nil s =>
      cases f with
      | nil t => rfl
      | _ => cases hshape
    | record s fields =>
      cases f with
      | record t others =>
        rw [sexp, sexp, bindingSexps_eq_map, bindingSexps_eq_map] at h
        have hfields := hbindings (fun b hb => ih _ (List.mem_map_of_mem hb))
          (fun c hc => hf.child (List.mem_map_of_mem hc)) (List.cons.inj (Sexp.list.inj h)).2
        simp only [erase, relocate, relocateBindings_eq_map]
        exact congrArg (record .origin) hfields
      | _ => cases hshape
    | list s items =>
      cases f with
      | list t others =>
        rw [sexp, sexp, exprSexps_eq_map, exprSexps_eq_map] at h
        have hitems := erase_eq_of_sexps_eq ih (fun b hb => hf.child hb) (List.cons.inj (Sexp.list.inj h)).2
        simp only [erase, relocate, relocateExprs_eq_map]
        exact congrArg (list .origin) hitems
      | _ => cases hshape
    | function s params body =>
      cases f with
      | function t others body' =>
        rw [sexp, sexp] at h
        obtain ⟨hparams, hrest⟩ := List.cons.inj (List.cons.inj (Sexp.list.inj h)).2
        have hnames := map_eq_of_map_eq (fun n _ m _ => Name.erase_eq_of_sexp_eq) (Sexp.list.inj hparams)
        have hbody := ih body (List.mem_singleton_self _) body' (hf.child (List.mem_singleton_self _))
          (List.cons.inj hrest).1
        exact congrArg₂ (function .origin) hnames hbody
      | _ => cases hshape
    | apply s callee args =>
      cases f with
      | apply t other args' =>
        rw [sexp, sexp, exprSexps_eq_map, exprSexps_eq_map] at h
        have hparts : (callee :: args).map erase = (other :: args').map erase :=
          erase_eq_of_sexps_eq ih (fun b hb => hf.child hb) (Sexp.list.inj h)
        obtain ⟨hcallee, hargs⟩ := List.cons.inj hparts
        simp only [erase, relocate, relocateExprs_eq_map]
        exact congrArg₂ (apply .origin) hcallee hargs
      | _ => cases hshape
    | access s target field =>
      cases f with
      | access t other field' =>
        rw [sexp, sexp] at h
        obtain ⟨htarget, hrest⟩ := List.cons.inj (List.cons.inj (Sexp.list.inj h)).2
        exact congrArg₂ (access .origin) (ih target (List.mem_singleton_self _) other
          (hf.child (List.mem_singleton_self _)) htarget)
          (Name.erase_eq_of_sexp_eq (List.cons.inj hrest).1)
      | _ => cases hshape
    | pipeline s seed stages =>
      cases f with
      | pipeline t seed' others =>
        rw [sexp, sexp, stageSexps_eq_map, stageSexps_eq_map] at h
        obtain ⟨hseed, hrest⟩ := List.cons.inj (List.cons.inj (Sexp.list.inj h)).2
        have hstages := map_eq_of_map_eq (k := Stage.erase) (fun g hg k hk => Stage.erase_eq_of_sexp_eq
          (fun e he => ih e (List.mem_cons_of_mem _ (List.mem_flatMap.mpr ⟨g, hg, he⟩)))
          (fun e he => hf.child (List.mem_cons_of_mem _ (List.mem_flatMap.mpr ⟨k, hk, he⟩)))) hrest
        simp only [erase, relocate, relocateStages_eq_map]
        exact congrArg₂ (pipeline .origin)
          (ih seed List.mem_cons_self seed' (hf.child List.mem_cons_self) hseed) hstages
      | _ => cases hshape
    | letIn s bindings body =>
      cases f with
      | letIn t others body' =>
        rw [sexp, sexp, bindingSexps_eq_map, bindingSexps_eq_map] at h
        obtain ⟨hfirst, hrest⟩ := List.cons.inj (List.cons.inj (Sexp.list.inj h)).2
        have hbs := hbindings (fun b hb => ih _ (List.mem_append_left _ (List.mem_map_of_mem hb)))
          (fun c hc => hf.child (List.mem_append_left _ (List.mem_map_of_mem hc))) (Sexp.list.inj hfirst)
        have hbody := ih body (List.mem_append_right _ (List.mem_singleton_self _)) body'
          (hf.child (List.mem_append_right _ (List.mem_singleton_self _))) (List.cons.inj hrest).1
        simp only [erase, relocate, relocateBindings_eq_map]
        exact congrArg₂ (letIn .origin) hbs hbody
      | _ => cases hshape
    | ifElse s branches fallback =>
      cases f with
      | ifElse t others fallback' =>
        rw [sexp, sexp, branchSexps_eq_map, branchSexps_eq_map] at h
        obtain ⟨hbranches, hlast⟩ := List.append_inj' (List.cons.inj (Sexp.list.inj h)).2 rfl
        have helse := (List.cons.inj (List.cons.inj (Sexp.list.inj (List.cons.inj hlast).1)).2).1
        have hfallback := ih fallback (List.mem_append_right _ (List.mem_singleton_self _)) fallback'
          (hf.child (List.mem_append_right _ (List.mem_singleton_self _))) helse
        have hbs := map_eq_of_map_eq (k := Branch.erase) (fun b hb c hc => by
          have hpart : ∀ e ∈ [b.condition, b.result], e.Settles := fun e he =>
            ih e (List.mem_append_left _ (List.mem_flatMap.mpr ⟨b, hb, he⟩))
          have hpart' : ∀ e ∈ [c.condition, c.result], e.Legible := fun e he =>
            hf.child (List.mem_append_left _ (List.mem_flatMap.mpr ⟨c, hc, he⟩))
          exact Branch.erase_eq_of_sexp_eq (hpart _ List.mem_cons_self _ (hpart' _ List.mem_cons_self))
            (hpart _ (List.mem_cons_of_mem _ List.mem_cons_self) _
              (hpart' _ (List.mem_cons_of_mem _ List.mem_cons_self)))) hbranches
        simp only [erase, relocate, relocateBranches_eq_map]
        exact congrArg₂ (ifElse .origin) hbs hfallback
      | _ => cases hshape
    | matchOn s subject clauses =>
      cases f with
      | matchOn t other clauses' =>
        rw [sexp, sexp, clauseSexps_eq_map, clauseSexps_eq_map] at h
        obtain ⟨hsubject, hrest⟩ := List.cons.inj (List.cons.inj (Sexp.list.inj h)).2
        have hclauses := map_eq_of_map_eq (k := Clause.erase) (fun c hc d hd => by
          refine Clause.erase_eq_of_sexp_eq
            (fun e he => ih e (List.mem_cons_of_mem _ (List.mem_flatMap.mpr ⟨c, hc, he⟩)))
            (fun e he => hf.child (List.mem_cons_of_mem _ (List.mem_flatMap.mpr ⟨d, hd, he⟩))) ?_
          refine Pattern.erase_eq_of_sexp_eq (he.own.1 c hc) (fun n hn => ?_) (hf.own.1 d hd)
            fun n hn => ?_
          · exact he.own.2.2 n (List.mem_flatMap.mpr ⟨c, hc, hn⟩)
          · exact hf.own.2.2 n (List.mem_flatMap.mpr ⟨d, hd, hn⟩)) hrest
        simp only [erase, relocate, relocateClauses_eq_map]
        exact congrArg₂ (matchOn .origin)
          (ih subject List.mem_cons_self other (hf.child List.mem_cons_self) hsubject) hclauses
      | _ => cases hshape
    | tryCatch s body catches =>
      cases f with
      | tryCatch t other catches' =>
        rw [sexp, sexp, catchSexps_eq_map, catchSexps_eq_map] at h
        obtain ⟨hbody, hrest⟩ := List.cons.inj (List.cons.inj (Sexp.list.inj h)).2
        have hcatches := map_eq_of_map_eq (k := Catch.erase) (fun c hc d hd =>
          Catch.erase_eq_of_sexp_eq (ih _ (List.mem_cons_of_mem _ (List.mem_map_of_mem hc)) _
            (hf.child (List.mem_cons_of_mem _ (List.mem_map_of_mem hd))))) hrest
        simp only [erase, relocate, relocateCatches_eq_map]
        exact congrArg₂ (tryCatch .origin)
          (ih body List.mem_cons_self other (hf.child List.mem_cons_self) hbody) hcatches
      | _ => cases hshape
    | error s => exact absurd he.own.1 id

end Expr

end PipeLang
