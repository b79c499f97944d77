import Lamina.Proofs.Pass.Opening
import Lamina.Proofs.Walk.Sited

/-! The passes of the library are steady: other templates reach a page through the resolver only,
and every origin in what comes out is one that went in or one the resolver gave. -/

namespace Lamina

variable {W : Type} [Preorder W]

namespace Lockstep

variable {admits : W → Failure → Prop} {L : Lockstep W WalkM admits} {P : Standing W}

theorem alike_onEnter {enter enter' : List Scope → (n : Node) → WalkM (Entered n)}
    (h : ∀ w scopes n, n.Sited (P.holds w) →
      L.holds w (enter scopes n) (enter' scopes n) (Entered.Sited P)) :
    L.Alike P (.onEnter enter) (.onEnter enter') :=
  ⟨h, fun _ _ _ hn => L.ofPure hn⟩

theorem alike_onLeave {leave leave' : List Scope → Node → WalkM Left}
    (h : ∀ w scopes n, n.Sited (P.holds w) →
      L.holds w (leave scopes n) (leave' scopes n) (Left.Sited P)) :
    L.Alike P (.onLeave leave) (.onLeave leave') :=
  ⟨fun _ _ _ hn => L.ofPure hn, h⟩

end Lockstep

namespace Pass

theorem attrTags_steady : Steady attrTags := by
  intro W _ admits L P r r' hP _
  refine Lockstep.alike_onEnter fun w scopes n hn => ?_
  cases n with
  | tag name attrs children closing o =>
    obtain ⟨ho, ha, hc⟩ := Node.sited_iff.mp hn
    dsimp only
    split
    · next origin h =>
      obtain ⟨child, hchild, rfl⟩ := exists_origin_of_splitAttrs h
      exact Lockstep.ofFailure _ (hP (Node.sited_iff.mp (hc child hchild)).1 (.parse _))
    · next more rest h =>
      simp only [Node.sited_iff_has] at hc
      obtain ⟨hm, hr⟩ := has_splitAttrs h hc
      simp only [← Node.sited_iff_has, ← Attr.sited_iff_has] at hm hr
      exact Lockstep.ofPure _ (Node.sited_iff.mpr
        ⟨ho, List.forall_mem_append.mpr ⟨ha, hm⟩, hr⟩)
  | _ => exact Lockstep.ofPure _ hn

theorem blockTags_steady : Steady blockTags := by
  intro W _ admits L P r r' hP _
  refine Lockstep.alike_onEnter fun w scopes n hn => ?_
  cases n with
  | tag tag attrs children closing o =>
    obtain ⟨ho, -, hc⟩ := Node.sited_iff.mp hn
    dsimp only
    split
    · exact Lockstep.ofPure _ hn
    · split
      · exact Lockstep.ofFailure _ (hP ho (.parse _))
      · exact Lockstep.ofPure _ (Node.sited_iff.mpr ⟨ho, List.forall_mem_nil _, hc⟩)
  | _ => exact Lockstep.ofPure _ hn

theorem hiddenTags_steady : Steady hiddenTags := by
  intro W _ admits L P r r' hP _
  refine Lockstep.alike_onEnter fun w scopes n hn => ?_
  split
  · exact Lockstep.ofPure _ (List.forall_mem_nil _)
  · exact Lockstep.ofPure _ hn

theorem stackTags_steady : Steady stackTags := by
  intro W _ admits L P r r' hP _
  refine Lockstep.alike_onEnter fun w scopes n hn => ?_
  cases n with
  | tag tag attrs children closing o =>
    obtain ⟨ho, -, hc⟩ := Node.sited_iff.mp hn
    dsimp only
    split
    · exact Lockstep.ofPure _ hn
    · split
      · exact Lockstep.ofFailure _ (hP ho (.parse _))
      · split
        · exact Lockstep.ofPure _ (Node.sited_iff.mpr ⟨ho, List.forall_mem_nil _, hc⟩)
        · split
          · exact Lockstep.ofPure _ (Node.sited_iff.mpr ⟨ho, List.forall_mem_nil _, hc⟩)
          · exact Lockstep.ofFailure _ (hP ho (.parse _))
  | _ => exact Lockstep.ofPure _ hn

theorem prepare_steady : ∀ pass ∈ prepare, Steady pass := by
  simp only [prepare, List.forall_mem_cons]
  exact ⟨attrTags_steady, blockTags_steady, hiddenTags_steady, stackTags_steady,
    List.forall_mem_nil _⟩

theorem splice_steady {admits : W → Failure → Prop} {L : Lockstep W LoadM admits} {P : Standing W}
    {r r' : Resolver} (hr : L.Resolvers P r r') {w : W} {path : String} {attrs : List (Attr Node)}
    {children : List Node} {o : Origin}
    (hn : (Node.fragment path attrs children o).Sited (P.holds w)) :
    (L.withState (Notes.Sited P)).holds w
      (liftM (r.fragment path o) >>= fun n => pure (.replace (splice attrs children o n)))
      (liftM (r'.fragment path o) >>= fun n => pure (.replace (splice attrs children o n)))
      (Left.Sited P) := by
  have hf := Lockstep.ofLift (J := Notes.Sited P) Notes.Sited.later
    (hr.fragment w path o (Node.sited_iff.mp hn).1)
  refine Lockstep.ofBind _ hf fun w' fragment hw hfragment => Lockstep.ofPure _ ?_
  have hlater := hn.later hw
  rw [Node.sited_iff_has] at hlater hfragment
  obtain ⟨-, ha, hc⟩ := Node.has_iff.mp hlater
  intro x hx
  exact Node.sited_iff_has.mpr (has_splice ha hc (Trait.sited_attaches _ o) hfragment x hx)

theorem imports_steady : Steady imports := by
  intro W _ admits L P r r' hP hr
  refine ⟨fun w scopes n hn => ?_, fun w scopes n hn => ?_⟩
  · have hfail fault := hP (Node.sited_iff.mp hn).1 (.merge fault)
    refine Lockstep.weaken (imports_links (fun _ _ ht => ht) hfail) fun w' e hw he => ?_
    have hlater := hn.later hw
    cases e with
    | replace nodes =>
      rw [he.2]
      exact List.forall_mem_nil _
    | keep m =>
      cases he.1 with
      | same => exact hlater
      | fragment =>
        obtain ⟨ho, ha, hc⟩ := Node.sited_iff.mp hlater
        exact Node.sited_iff.mpr ⟨ho, ha, hc⟩
  · refine Lockstep.ofBind _ (Lockstep.ofModify fun t ht => ht) fun w₁ _ hw₁ _ => ?_
    cases n with
    | fragment => exact splice_steady hr (hn.later hw₁)
    | _ => exact Lockstep.ofPure _ (hn.later hw₁)

theorem extension_steady (strict : Bool) : Steady (extension strict) := by
  intro W _ admits L P r r' hP hr
  refine Lockstep.alike_onLeave fun w scopes n hn => ?_
  cases n with
  | template children o =>
    dsimp only
    split
    · exact Lockstep.ofPure _ hn
    · split
      · exact Lockstep.ofPure _ hn
      · next name attrs reference others hextends =>
        rw [Node.sited_iff_has] at hn
        obtain ⟨-, -, hc⟩ := Node.has_iff.mp hn
        obtain ⟨⟨_, _, href⟩, -, -⟩ := has_takeExtends hextends hc
        have href : P.holds w reference := href
        split
        · exact Lockstep.ofFailure _ (hP href (.merge _))
        · next path _ =>
          have hl := Lockstep.ofLift (J := Notes.Sited P) Notes.Sited.later
            (hr.load w path reference href)
          refine Lockstep.ofBind _ hl fun w' parent hw hparent => ?_
          have hlater := (Node.sited_iff_has.mpr hn).later hw
          rw [Node.sited_iff_has] at hlater hparent
          obtain ⟨ho, -, hc⟩ := Node.has_iff.mp hlater
          obtain ⟨-, ha, hothers⟩ := has_takeExtends hextends hc
          have hpage := has_extended ha hothers (Trait.sited_attaches _ reference) hparent
          split
          · exact Lockstep.ofFailure _ (hP (P.later hw href) (.merge _))
          · refine Lockstep.ofPure _ (Node.sited_iff_has.mpr (Node.has_iff.mpr ⟨ho, ?_, hpage⟩))
            exact List.forall_mem_nil _
  | _ => exact Lockstep.ofPure _ hn

theorem transform_steady (strict : Bool) : ∀ pass ∈ transform strict, Steady pass := by
  simp only [transform, List.forall_mem_cons]
  exact ⟨imports_steady, extension_steady strict, List.forall_mem_nil _⟩

theorem collect_steady : Steady collect := by
  intro W _ admits L P r r' hP _
  refine Lockstep.alike_onLeave fun w scopes n hn => ?_
  cases n with
  | push name prepend children o =>
    obtain ⟨-, -, hc⟩ := Node.sited_iff.mp hn
    refine Lockstep.ofBind _ (Lockstep.ofModify fun notes hnotes => ?_) fun _ _ _ _ =>
      Lockstep.ofPure _ (List.forall_mem_nil _)
    exact List.forall_mem_append.mpr ⟨hnotes, List.forall_mem_singleton.mpr hc⟩
  | template children o =>
    dsimp only
    split
    · refine Lockstep.ofBind _ Lockstep.ofGet fun w' notes hw hnotes => Lockstep.ofPure _ ?_
      have hlater := hn.later hw
      simp only [Notes.Sited, Node.sited_iff_has] at hlater hnotes
      obtain ⟨ho, ha, hc⟩ := Node.has_iff.mp hlater
      exact Node.sited_iff_has.mpr
        (Node.has_iff.mpr ⟨ho, ha, Node.Has.fillStacksAll hnotes hc⟩)
    · exact Lockstep.ofPure _ hn
  | _ => exact Lockstep.ofPure _ hn

theorem at_of_expand {directives : Directives} {call : Call} {failure : Failure}
    (h : directives.expand call = .error failure) : failure.At call.origin := by
  unfold Directives.expand at h
  split at h
  · cases h
    exact .directive _
  · obtain ⟨fault, -, rfl⟩ := mapError_eq_error.mp h
    exact .directive _

theorem expand_steady (directives : Directives) : Steady (expand directives) := by
  intro W _ admits L P r r' hP _
  refine Lockstep.alike_onLeave fun w scopes n hn => ?_
  have ho := (Node.sited_iff.mp hn).1
  cases n with
  | directive name values body o =>
    dsimp only
    split
    · exact Lockstep.ofPure _ (Node.sited_of_leaf rfl ho)
    · split
      · next failure hexpand =>
        exact Lockstep.ofFailure _ (hP ho (at_of_expand hexpand))
      · exact Lockstep.ofPure _ (Node.sited_of_leaf rfl ho)
  | echo expr escape o =>
    dsimp only
    split
    · exact Lockstep.ofFailure _ (hP ho (.parse _))
    · exact Lockstep.ofPure _ (Node.sited_of_leaf rfl ho)
  | _ => exact Lockstep.ofPure _ hn

theorem tidy_steady (preserve : List Scope → Bool) : Steady (tidy preserve) := by
  intro W _ admits L P r r' hP _
  refine Lockstep.alike_onLeave fun w scopes n hn => ?_
  obtain ⟨ho, -, hc⟩ := Node.sited_iff.mp hn
  cases n with
  | raw text o => exact Lockstep.ofPure _ (Node.sited_of_leaf rfl ho)
  | template children o =>
    refine Lockstep.ofPure _ (Node.sited_iff.mpr ⟨ho, List.forall_mem_nil _, ?_⟩)
    by_cases hs : scopes.isEmpty
    · rw [if_pos hs]
      simp only [Node.sited_iff_has] at hc ⊢
      exact has_trimEdges hc
    · rw [if_neg hs]
      exact hc
  | _ => exact Lockstep.ofPure _ hn

theorem finalize_steady (directives : Directives) (preserve : List Scope → Bool) :
    ∀ pass ∈ finalize directives preserve, Steady pass := by
  simp only [finalize, List.forall_mem_cons]
  exact ⟨collect_steady, expand_steady directives, tidy_steady preserve, List.forall_mem_nil _⟩

end Pass

end Lamina
