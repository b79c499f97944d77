import Lamina.Proofs.Pass.Settling
import Lamina.Proofs.Pass.Stages

/-! Stacks of a page. A stack stays where it is while the nodes settle, except that one inside a
contribution goes where the contribution goes. At the end the outer stacks are filled; nothing below a
stack or in an attribute value is looked at then. -/

namespace Lamina

variable {d : Directives} {preserve : List Scope → Bool} {scopes : List Scope} {n : Node}
  {nodes out : List Node} {p : Placed}

def Trait.collected : Trait :=
  .plain (fun n => Pass.isPush n = false) (fun {n} _ _ h => by cases n <;> exact h) (fun _ _ => rfl)

namespace Placed

theorem content_eq_of_ok {l : List Node}
    (h : Node.settleAll d preserve p.inside p.node.children = .ok l) :
    p.content d preserve = l := by
  rw [content, h]
  rfl

theorem outerStacks_singleton {f g : Placed → List Node} {m : Node} (hstack : m.isStack = n.isStack)
    (hname : m.name = n.name) (hfg : f ⟨scopes, m⟩ = g ⟨scopes, n⟩) :
    outerStacks f [⟨scopes, m⟩] = outerStacks g [⟨scopes, n⟩] := by
  simp only [outerStacks, List.filter_cons, List.filter_nil, isOuter, hstack]
  split
  · simp only [List.map_cons, List.map_nil, hname, hfg]
  · rfl

end Placed

namespace Node

theorem placed_settle (h : settle d preserve scopes n = .ok out) (hp : p ∈ n.placed scopes) :
    settleAll d preserve p.inside p.node.children = .ok (p.content d preserve) := by
  induction n using byParts generalizing scopes out with
  | parts n iha ihc =>
    rcases settle_eq_ok h with ⟨hleaf, -⟩ | ⟨scope, attrs, children, hscope, hattrs, hchildren, -⟩
    · rw [placed_of_leaf hleaf, List.mem_singleton] at hp
      subst hp
      cases n with
      | raw | directive | echo | host => rfl
      | _ => cases hleaf
    · have hinside := Placed.inside_eq hscope scopes
      rcases mem_placed.mp hp with hp | hp | rfl
      · rw [hinside] at hp
        obtain ⟨a, ha, c, hc, hp⟩ := mem_placedAttrs.mp hp
        obtain ⟨l, hl⟩ := (settleAttrs_eq_ok hattrs).1 a ha
        obtain ⟨l', hl'⟩ := (settleAll_eq_ok hl).1 c hc
        exact iha a ha c hc hl' hp
      · rw [hinside] at hp
        obtain ⟨c, hc, hp⟩ := mem_placedAll.mp hp
        obtain ⟨l, hl⟩ := (settleAll_eq_ok hchildren).1 c hc
        exact ihc c hc hl hp
      · rw [← hinside] at hchildren
        rw [Placed.content_eq_of_ok hchildren]
        exact hchildren

theorem exists_stack_of_settle {x : Node} (h : settle d preserve scopes n = .ok out) (hx : x ∈ out)
    (hp : p ∈ x.placed scopes) (hstack : p.node.isStack = true) :
    ∃ q ∈ n.placed scopes, q.scopes = p.scopes ∧ q.node.stack? = p.node.stack? ∧
      p.node.children = q.content d preserve := by
  induction n using byParts generalizing scopes out x with
  | parts n iha ihc =>
    rcases settle_eq_ok h with ⟨-, n', hleaf, rfl⟩ |
      ⟨scope, attrs, children, hscope, hattrs, hchildren, rfl⟩
    · obtain rfl := List.mem_singleton.mp hx
      rw [placed_of_leaf hleaf, List.mem_singleton] at hp
      subst hp
      cases x with
      | stack => cases hleaf
      | _ => cases hstack
    · split at hx
      · cases hx
      · obtain rfl := List.mem_singleton.mp hx
        have hinside := Placed.inside_eq hscope scopes
        rw [mem_placed, Placed.inside_eq ((n.scope_withParts attrs children).trans hscope) scopes] at hp
        simp only [mem_placed, hinside]
        rcases hp with hp | hp | rfl
        · obtain ⟨b, hb, c, hc, hp⟩ := mem_placedAttrs.mp hp
          obtain ⟨a, ha, l, hl, rfl⟩ := (settleAttrs_eq_ok hattrs).2 b (mem_of_mem_withParts.1 b hb)
          obtain ⟨m, hm, l', hl', hcl⟩ := (settleAll_eq_ok hl).2 c (AttrValue.mem_of_mem_withInner hc)
          obtain ⟨q, hq, found⟩ := iha a ha m hm hl' hcl hp
          exact ⟨q, .inl (mem_placedAttrs.mpr ⟨a, ha, m, hm, hq⟩), found⟩
        · obtain ⟨c, hc, hp⟩ := mem_placedAll.mp hp
          obtain ⟨m, hm, l, hl, hcl⟩ :=
            (settleAll_eq_ok hchildren).2 c (mem_of_mem_withParts.2 c hc)
          obtain ⟨q, hq, found⟩ := ihc m hm hl hcl hp
          exact ⟨q, .inr (.inl (mem_placedAll.mpr ⟨m, hm, hq⟩)), found⟩
        · refine ⟨⟨scopes, n⟩, .inr (.inr rfl), rfl, ?_⟩
          rw [Placed.content_eq_of_ok (p := ⟨scopes, n⟩) (hinside ▸ hchildren)]
          cases n with
          | stack => exact ⟨rfl, rfl⟩
          | _ => cases hstack

theorem isStack_of_leaf (h : Scope.of? n = none) : n.isStack = false := by
  cases n with
  | stack => cases h
  | _ => rfl

theorem outerStacks_settleAll_of (h : settleAll d preserve scopes nodes = .ok out)
    (hnodes : ∀ n ∈ nodes, ∀ l, settle d preserve scopes n = .ok l →
      Placed.outerStacks (·.node.children) (placedAll scopes l) =
        Placed.outerStacks (Placed.content d preserve) (n.placed scopes)) :
    Placed.outerStacks (·.node.children) (placedAll scopes out) =
      Placed.outerStacks (Placed.content d preserve) (placedAll scopes nodes) := by
  induction nodes generalizing out with
  | nil =>
    cases Except.ok.inj h
    rfl
  | cons n nodes ih =>
    obtain ⟨first, rest, hfirst, hrest, rfl⟩ := settleAll_cons_eq_ok h
    rw [List.forall_mem_cons] at hnodes
    rw [placedAll, Placed.outerStacks_append, ← hnodes.1 first hfirst, ← ih hrest hnodes.2,
      ← Placed.outerStacks_append, placedAll_eq, placedAll_eq, placedAll_eq, List.flatMap_append]

theorem outerStacks_settle (h : settle d preserve scopes n = .ok out) :
    Placed.outerStacks (·.node.children) (placedAll scopes out) =
      Placed.outerStacks (Placed.content d preserve) (n.placed scopes) := by
  induction n using byParts generalizing scopes out with
  | parts n _ ih =>
    rcases settle_eq_ok h with ⟨hleaf, n', hleaf', rfl⟩ |
      ⟨scope, attrs, children, hscope, hattrs, hchildren, rfl⟩
    · rw [placedAll, placedAll, List.append_nil, placed_of_leaf hleaf', placed_of_leaf hleaf]
      rw [Placed.outerStacks_eq_nil, Placed.outerStacks_eq_nil]
      · exact List.forall_mem_singleton.mpr (.inl (isStack_of_leaf hleaf))
      · exact List.forall_mem_singleton.mpr (.inl (isStack_of_leaf hleaf'))
    · have hinside := Placed.inside_eq hscope scopes
      have hbelow := outerStacks_settleAll_of hchildren fun c hc l hl => ih c hc hl
      rw [outerStacks_placed, hinside, ← hbelow]
      by_cases hpush : Pass.isPush n = true
      · -- a contribution covers what is in it, and is no stack itself
        cases n with
        | push name prepend _ o =>
          cases hscope
          rw [if_pos hpush, outerStacks_placedAll_eq_nil (List.mem_append_right _ (.head _)) rfl]
          rfl
        | _ => cases hpush
      · have hkept : (n.withParts attrs children).children = children := by
          cases n with
          | raw | directive | echo | host => cases hscope
          | _ => rfl
        have hself : Placed.outerStacks (·.node.children) [⟨scopes, n.withParts attrs children⟩] =
            Placed.outerStacks (Placed.content d preserve) [⟨scopes, n⟩] := by
          have hcontent := Placed.content_eq_of_ok (p := ⟨scopes, n⟩) (hinside ▸ hchildren)
          cases n with
          | stack name _ o => exact Placed.outerStacks_singleton rfl rfl hcontent.symm
          | _ => rfl
        rw [if_neg hpush, placedAll, placedAll, List.append_nil, outerStacks_placed,
          Placed.inside_eq ((n.scope_withParts attrs children).trans hscope) scopes, hkept, hself]

theorem outerStacks_fillStacksAll_of {c : List Contribution}
    (h : ∀ n ∈ nodes, Placed.outerStacks (·.node.children) ((n.fillStacks c).placed scopes) =
      Placed.outerStacks (fun p => stackContent c p.node.name p.node.children) (n.placed scopes)) :
    Placed.outerStacks (·.node.children) (placedAll scopes (fillStacksAll c nodes)) =
      Placed.outerStacks (fun p => stackContent c p.node.name p.node.children)
        (placedAll scopes nodes) := by
  induction nodes with
  | nil => rfl
  | cons n nodes ih =>
    rw [List.forall_mem_cons] at h
    rw [fillStacksAll, placedAll, placedAll, Placed.outerStacks_append, Placed.outerStacks_append,
      h.1, ih h.2]

theorem inside_fillStacks (c : List Contribution) (n : Node) (scopes : List Scope) :
    (Placed.mk scopes (n.fillStacks c)).inside = (Placed.mk scopes n).inside := by
  cases n <;> rfl

theorem children_fillStacks (c : List Contribution) {n : Node} (h : n.isStack = false) :
    (n.fillStacks c).children = fillStacksAll c n.children := by
  cases n with
  | stack => cases h
  | _ => rfl

theorem isStack_fillStacks (c : List Contribution) (n : Node) :
    (n.fillStacks c).isStack = n.isStack := by
  cases n <;> rfl

theorem outerStacks_fillStacks (c : List Contribution) (n : Node) (scopes : List Scope) :
    Placed.outerStacks (·.node.children) ((n.fillStacks c).placed scopes) =
      Placed.outerStacks (fun p => stackContent c p.node.name p.node.children)
        (n.placed scopes) := by
  induction n using byParts generalizing scopes with
  | parts n _ ih =>
    rw [outerStacks_placed, outerStacks_placed, inside_fillStacks]
    cases hstack : n.isStack with
    | true =>
      cases n with
      | stack name children o =>
        have hmem : Scope.stack name ∈ (Placed.mk scopes (stack name children o)).inside :=
          List.mem_append_right _ (.head _)
        rw [outerStacks_placedAll_eq_nil hmem rfl, outerStacks_placedAll_eq_nil hmem rfl]
        exact Placed.outerStacks_singleton rfl rfl rfl
      | _ => cases hstack
    | false =>
      have hself := (isStack_fillStacks c n).trans hstack
      rw [children_fillStacks c hstack, outerStacks_fillStacksAll_of fun x hx => ih x hx _,
        Placed.outerStacks_eq_nil (List.forall_mem_singleton.mpr (.inl hself)),
        Placed.outerStacks_eq_nil (List.forall_mem_singleton.mpr (.inl hstack))]

/-- Filling touches nothing that is covered: what is covered afterwards was there before, or it has
come with a contribution. -/
theorem mem_placed_of_fillStacks {c : List Contribution} (hs : scopes.all (!·.covers) = true)
    (hpush : n.Has .collected) (hp : p ∈ (n.fillStacks c).placed scopes)
    (hcovered : p.isOuter = false) :
    p ∈ n.placed scopes ∨ ∃ k ∈ c, ∃ m ∈ k.nodes, ∃ around, p ∈ m.placed around := by
  induction n using byParts generalizing scopes with
  | parts n _ ih =>
    rw [mem_placed, inside_fillStacks] at hp
    rw [mem_placed]
    rcases hp with hp | hp | rfl
    · have hattrs : (n.fillStacks c).attrs = n.attrs := by cases n <;> rfl
      exact .inl (.inl (hattrs ▸ hp))
    · obtain ⟨m, hm, hp⟩ := mem_placedAll.mp hp
      cases hself : n.isStack with
      | true =>
        cases n with
        | stack name children o =>
          rcases mem_stackContent hm with hm | ⟨k, hk, hm⟩
          · exact .inl (.inr (.inl (mem_placedAll.mpr ⟨m, hm, hp⟩)))
          · exact .inr ⟨k, hk, m, hm, _, hp⟩
        | _ => cases hself
      | false =>
        -- filling goes on below `n`, and nothing there is covered by it
        have hinside : ((Placed.mk scopes n).inside).all (!·.covers) = true := by
          rw [Placed.inside, List.all_append, hs, Bool.true_and]
          have hhere := (has_iff.mp hpush).1
          cases n with
          | stack => cases hself
          | push => cases hhere
          | _ => rfl
        rw [children_fillStacks c hself, fillStacksAll_eq] at hm
        obtain ⟨x, hx, rfl⟩ := List.mem_map.mp hm
        rcases ih x hx hinside (hpush.below.2 x hx) hp with hp | found
        · exact .inl (.inr (.inl (mem_placedAll.mpr ⟨x, hx, hp⟩)))
        · exact .inr found
    · exact Bool.noConfusion (hs.symm.trans hcovered)

theorem collected_of_settle (h : settle d preserve scopes n = .ok out) :
    ∀ x ∈ out, x.Has .collected := by
  induction n using byParts generalizing scopes out with
  | parts n iha ihc =>
    rcases settle_eq_ok h with ⟨-, n', hleaf, rfl⟩ |
      ⟨scope, attrs, children, hscope, hattrs, hchildren, rfl⟩
    · refine List.forall_mem_singleton.mpr (has_of_leaf hleaf ?_)
      cases n' with
      | push => cases hleaf
      | _ => rfl
    · split
      · exact List.forall_mem_nil _
      · next hpush =>
        refine List.forall_mem_singleton.mpr (has_withParts (eq_false_of_ne_true hpush) ?_ ?_)
        · intro b hb
          obtain ⟨a, ha, l, hl, rfl⟩ := (settleAttrs_eq_ok hattrs).2 b hb
          refine Attr.has_withInner trivial fun c hc => ?_
          obtain ⟨m, hm, l', hl', hcl⟩ := (settleAll_eq_ok hl).2 c hc
          exact iha a ha m hm hl' c hcl
        · intro c hc
          obtain ⟨m, hm, l, hl, hcl⟩ := (settleAll_eq_ok hchildren).2 c hc
          exact ihc m hm hl c hcl

theorem collected_of_settleAll (h : settleAll d preserve scopes nodes = .ok out) :
    ∀ x ∈ out, x.Has .collected := by
  intro x hx
  obtain ⟨n, _, l, hl, hx⟩ := (settleAll_eq_ok h).2 x hx
  exact collected_of_settle hl x hx

end Node

namespace Pass

theorem filter_isStack_trimEdges (scopes : List Scope) (nodes : List Node) :
    (Node.placedAll scopes (trimEdges nodes)).filter (·.node.isStack) =
      (Node.placedAll scopes nodes).filter (·.node.isStack) := by
  have hfirst (nodes : List Node) : (Node.placedAll scopes (trimFirst nodes)).filter
      (·.node.isStack) = (Node.placedAll scopes nodes).filter (·.node.isStack) := by
    fun_cases trimFirst nodes <;> rfl
  have hlast (nodes : List Node) : (Node.placedAll scopes (trimLast nodes)).filter
      (·.node.isStack) = (Node.placedAll scopes nodes).filter (·.node.isStack) := by
    fun_induction trimLast nodes with
    | case1 | case2 => rfl
    | case3 node rest _ ih => simp only [Node.placedAll, List.filter_append, ih]
  have hempty (nodes : List Node) : (Node.placedAll scopes (nodes.filter (!isEmptyText ·))).filter
      (·.node.isStack) = (Node.placedAll scopes nodes).filter (·.node.isStack) := by
    induction nodes with
    | nil => rfl
    | cons n nodes ih =>
      cases hn : isEmptyText n with
      | true =>
        rw [List.filter_cons_of_neg (by simp [hn]), ih]
        cases n with
        | raw => rfl
        | _ => cases hn
      | false =>
        rw [List.filter_cons_of_pos (by simp [hn]), Node.placedAll, Node.placedAll,
          List.filter_append, List.filter_append, ih]
  -- only text changes or goes, and text is no stack and has none below it
  rw [trimEdges, hempty, hlast, hfirst]

theorem filter_isStack_placed_trimEdges (scopes : List Scope) (nodes : List Node) (o : Origin) :
    ((Node.template (trimEdges nodes) o).placed scopes).filter (·.node.isStack) =
      ((Node.template nodes o).placed scopes).filter (·.node.isStack) := by
  rw [Node.placed, Node.placed, List.filter_append, List.filter_append, filter_isStack_trimEdges]
  rfl

end Pass

end Lamina
