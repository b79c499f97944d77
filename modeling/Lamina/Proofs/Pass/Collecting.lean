import Lamina.Proofs.Pass.Stacks

/-! Contributions and the stacks they go to. The root of a page is a template, and stacks are filled
when the walk leaves it. Every outer stack gets all the contributions to it, those to the front in
reverse and the others in order. A stack that is covered gets none. -/

namespace Lamina

variable {d : Directives} {preserve : List Scope → Bool}

variable (d preserve) in
/-- What the children of the node come to stands among the nodes, in one piece. -/
def Placed.Reaches (p : Placed) (nodes : List Node) : Prop :=
  ∃ l, Node.settleAll d preserve p.inside p.node.children = .ok l ∧ l <:+: nodes

namespace Pass

theorem filter_contributions {keep : Contribution → Bool} {prepend : Bool}
    (hkeep : ∀ c, keep c = (c.prepend == prepend)) (ps : List Placed) (name : String) :
    ((contributions d preserve ps).filter (·.stack == name)).filter keep =
      (Placed.pushes name prepend ps).map fun p => ⟨name, prepend, p.content d preserve⟩ := by
  rw [Placed.pushes]
  induction ps with
  | nil => rfl
  | cons p ps ih =>
    rw [contributions, List.filterMap_cons, Placed.contribution?]
    cases hpush : p.node.push? with
    | none =>
      rw [List.filter_cons_of_neg (by simp [hpush])]
      exact ih
    | some push =>
      rw [Option.map_some, List.filter_filter]
      rw [contributions, List.filter_filter] at ih
      by_cases h : push = (name, prepend)
      · subst h
        rw [List.filter_cons_of_pos (by simp [hkeep]), List.filter_cons_of_pos (by simp [hpush]),
          List.map_cons, ih]
      · rw [List.filter_cons_of_neg, List.filter_cons_of_neg (by simpa [hpush] using h), ih]
        simp only [hkeep, Bool.and_eq_true, beq_iff_eq]
        exact fun heq => h (Prod.ext heq.2 heq.1)

theorem stackContent_contributions (ps : List Placed) (name : String) (own : List Node) :
    Node.stackContent (contributions d preserve ps) name own =
      (Placed.pushes name true ps).reverse.flatMap (·.content d preserve) ++ own ++
        (Placed.pushes name false ps).flatMap (·.content d preserve) := by
  rw [Node.stackContent, filter_contributions (fun c => (beq_true c.prepend).symm),
    filter_contributions (fun c => (beq_false c.prepend).symm), ← List.map_reverse,
    List.flatMap_map, List.flatMap_map]

theorem infix_stackContent {ps : List Placed} {q : Placed} {name : String} {prepend : Bool}
    (hq : q ∈ ps) (hpush : q.node.push? = some (name, prepend)) (own : List Node) :
    q.content d preserve <:+: Node.stackContent (contributions d preserve ps) name own := by
  have hmem := Placed.mem_pushes.mpr ⟨hq, hpush⟩
  rw [stackContent_contributions, List.flatMap_def, List.flatMap_def]
  cases prepend with
  | true =>
    have hfront : q.content d preserve <:+: _ :=
      List.infix_of_mem_flatten (List.mem_map_of_mem (List.mem_reverse.mpr hmem))
    exact hfront.trans (List.append_assoc .. ▸ (List.prefix_append _ _).isInfix)
  | false =>
    have hback : q.content d preserve <:+: _ :=
      List.infix_of_mem_flatten (List.mem_map_of_mem hmem)
    exact hback.trans (List.suffix_append _ _).isInfix

theorem exists_of_mem_contributions {ps : List Placed} {c : Contribution}
    (h : c ∈ contributions d preserve ps) :
    ∃ p ∈ ps, p.node.push? = some (c.stack, c.prepend) ∧ c.nodes = p.content d preserve := by
  obtain ⟨p, hp, hc⟩ := List.mem_filterMap.mp h
  obtain ⟨push, hpush, rfl⟩ := Option.map_eq_some_iff.mp hc
  exact ⟨p, hp, hpush, rfl⟩

variable {r : Resolver} {children : List Node} {o : Origin} {page : Node} {s s' : Session}

section Finished

variable (h : (Builder.run (finalize d preserve) r (.template children o)).run s = (.ok page, s'))
include h

theorem finalize_eq_ok :
    ∃ nodes, (Node.template children o).settle d preserve [] = .ok [.template nodes o] ∧
      page = .template (trimEdges (Node.fillStacksAll
        (contributions d preserve ((Node.template children o).placed [])) nodes)) o := by
  rw [run_finalize] at h
  rw [Node.settle, List.nil_append]
  cases hnodes : Node.settleAll d preserve [.template o.path] children with
  | error failure =>
    rw [hnodes] at h
    cases h
  | ok nodes =>
    rw [hnodes] at h
    exact ⟨nodes, rfl, (Except.ok.inj (congrArg Prod.fst h)).symm⟩

theorem collected_finalize : page.Has .collected := by
  obtain ⟨nodes, hroot, rfl⟩ := finalize_eq_ok h
  have hsettled := Node.collected_of_settle hroot _ (.head _)
  refine Node.has_iff.mpr ⟨rfl, List.forall_mem_nil _, has_trimEdges
    (Node.Has.fillStacksAll (fun c hc => ?_) hsettled.below.2)⟩
  obtain ⟨p, hp, -, hnodes⟩ := exists_of_mem_contributions hc
  exact hnodes ▸ Node.collected_of_settleAll (Node.placed_settle hroot hp)

theorem outerStacks_finalize :
    Placed.outerStacks (·.node.children) (page.placed []) =
      Placed.outerStacks (fun p => Node.stackContent
        (contributions d preserve ((Node.template children o).placed [])) p.node.name
          (p.content d preserve)) ((Node.template children o).placed []) := by
  obtain ⟨nodes, hroot, rfl⟩ := finalize_eq_ok h
  have hsettled := Node.outerStacks_settle hroot
  rw [Node.placedAll, Node.placedAll, List.append_nil] at hsettled
  -- what fills a stack depends on its name and on what it holds, so it can wait until they settle
  rw [Placed.outerStacks_congr (filter_isStack_placed_trimEdges [] _ o), ← Node.fillStacks,
    Node.outerStacks_fillStacks, Placed.outerStacks_map, hsettled, ← Placed.outerStacks_map]

/-- A stack that is covered on a finished page has been covered before, and nothing has been put
into it. -/
theorem exists_covered_stack {p : Placed} (hp : p ∈ page.placed [])
    (hstack : p.node.isStack = true) (hcovered : p.isOuter = false) :
    ∃ q ∈ (Node.template children o).placed [], q.isOuter = false ∧
      q.node.stack? = p.node.stack? ∧
      Node.settleAll d preserve q.inside q.node.children = .ok p.node.children := by
  obtain ⟨nodes, hroot, rfl⟩ := finalize_eq_ok h
  have hp := List.mem_filter (p := (·.node.isStack)).mpr ⟨hp, hstack⟩
  rw [filter_isStack_placed_trimEdges, ← Node.fillStacks] at hp
  rcases Node.mem_placed_of_fillStacks rfl (Node.collected_of_settle hroot _ (.head _))
    (List.mem_filter.mp hp).1 hcovered with hp | ⟨c, hc, m, hm, around, hp⟩
  · obtain ⟨q, hq, hscopes, hname, hcontent⟩ :=
      Node.exists_stack_of_settle hroot (.head _) hp hstack
    refine ⟨q, hq, ?_, hname, hcontent ▸ Node.placed_settle hroot hq⟩
    rw [Placed.isOuter, hscopes]
    exact hcovered
  · -- the stack has come in with a contribution
    obtain ⟨t, ht, hpush, hnodes⟩ := exists_of_mem_contributions hc
    obtain ⟨n, hn, l, hl, hml⟩ :=
      (Node.settleAll_eq_ok (Node.placed_settle hroot ht)).2 m (hnodes ▸ hm)
    obtain ⟨p', hp', hsame⟩ := Node.exists_mem_placed hp t.inside
    rw [← hsame] at hstack ⊢
    obtain ⟨q, hq, -, hname, hcontent⟩ := Node.exists_stack_of_settle hl hml hp' hstack
    have hq' := Node.mem_placed_of_mem_children ht (Node.mem_placedAll.mpr ⟨n, hn, hq⟩)
    exact ⟨q, hq', Node.not_isOuter_of_mem_placed hq (Placed.mem_inside_of_push? hpush) rfl, hname,
      hcontent ▸ Node.placed_settle hroot hq'⟩

theorem reaches_outer_stack {p q : Placed} {name : String} {front : Bool}
    (hp : p ∈ page.placed []) (hname : p.node.stack? = some name) (hout : p.isOuter = true)
    (hq : q ∈ (Node.template children o).placed []) (hpush : q.node.push? = some (name, front)) :
    q.Reaches d preserve p.node.children := by
  obtain ⟨nodes, hroot, -⟩ := finalize_eq_ok h
  have hmem : (name, p.node.children) ∈ Placed.outerStacks (·.node.children) (page.placed []) :=
    Placed.mem_outerStacks.mpr ⟨p, hp, hname, hout, rfl⟩
  rw [outerStacks_finalize h] at hmem
  obtain ⟨t, -, ht, -, hcontent⟩ := Placed.mem_outerStacks.mp hmem
  obtain rfl : t.node.name = name :=
    Option.some.inj ((t.node.stack?_eq_some (Option.isSome_of_eq_some ht)).symm.trans ht)
  exact ⟨_, Node.placed_settle hroot hq, hcontent ▸ infix_stackContent hq hpush _⟩

end Finished

theorem finalize_of_ok {nodes out : List Node} {c : List Contribution}
    (hnodes : Node.settleAll d preserve [.template o.path] children = .ok nodes)
    (hc : contributions d preserve ((Node.template children o).placed []) = c)
    (hout : trimEdges (Node.fillStacksAll c nodes) = out) :
    (Builder.run (finalize d preserve) r (.template children o)).run s =
      (.ok (.template out o), s) := by
  rw [run_finalize, hnodes, hc, ← hout]
  rfl

/-- On a finished page no contribution is left, and the outer stacks are those that were there before,
each with the contributions to its front, the latest first, then what its own children come to, then
the other contributions in the order in which the walk has left them. -/
theorem stacks_hold_contributions_in_order
    (h : (Builder.run (finalize d preserve) r (.template children o)).run s = (.ok page, s')) :
    (∀ p ∈ (Node.template children o).placed [],
      Node.settleAll d preserve p.inside p.node.children = .ok (p.content d preserve)) ∧
    (∀ n ∈ page.nodes, isPush n = false) ∧
    Placed.outerStacks (·.node.children) (page.placed []) =
      Placed.outerStacks (fun p =>
        (Placed.pushes p.node.name true ((Node.template children o).placed [])).reverse.flatMap
            (·.content d preserve) ++
          p.content d preserve ++
          (Placed.pushes p.node.name false ((Node.template children o).placed [])).flatMap
            (·.content d preserve))
        ((Node.template children o).placed []) := by
  obtain ⟨nodes, hroot, -⟩ := finalize_eq_ok h
  refine ⟨fun p => Node.placed_settle hroot, fun n hn => (collected_finalize h n hn).1, ?_⟩
  simp only [outerStacks_finalize h, stackContent_contributions]

/-- Contributions to the front and to the back of a stack, one of them inside another one. -/
theorem stacks_hold_contributions_in_order_script :
    let o : Origin := .of "default/page.stm" 1 .html ""
    let root : Node := .template [.push "s" false [.host "a" o, .push "s" true [.host "b" o] o] o,
      .stack "s" [.host "own" o] o, .push "s" true [.host "c" o] o,
      .push "s" false [.host "d" o] o] o
    let r : Resolver := ⟨fun path o => pure (.raw path o), fun path o => pure (.raw path o)⟩
    ∃ page s, (Builder.run (finalize .builtin (preserveIn [])) r root).run {} = (.ok page, s) ∧
      Placed.outerStacks (·.node.children) (page.placed []) =
        [("s", [.host "c" o, .host "b" o, .host "own" o, .host "a" o, .host "d" o])] := by
  intro o root r
  have hc : contributions .builtin (preserveIn []) (root.placed []) =
      [⟨"s", true, [.host "b" o]⟩, ⟨"s", false, [.host "a" o]⟩, ⟨"s", true, [.host "c" o]⟩,
        ⟨"s", false, [.host "d" o]⟩] := rfl
  have hpage : (Builder.run (finalize .builtin (preserveIn [])) r root).run {} = (.ok _, _) :=
    finalize_of_ok rfl hc rfl
  refine ⟨_, _, hpage, (stacks_hold_contributions_in_order hpage).2.2.trans ?_⟩
  simp only [← stackContent_contributions]
  rw [hc]
  rfl

/-- A contribution reaches every outer stack of its name. A covered stack gets nothing: it holds what
the children of a covered stack come to. So a contribution reaches every stack of its name if none of
them is covered to begin with. -/
theorem contributions_reach_outer_stacks
    (h : (Builder.run (finalize d preserve) r (.template children o)).run s = (.ok page, s')) :
    (∀ p ∈ page.placed [], ∀ name, p.node.stack? = some name → p.isOuter = true →
      ∀ q ∈ (Node.template children o).placed [], ∀ front, q.node.push? = some (name, front) →
        q.Reaches d preserve p.node.children) ∧
    (∀ p ∈ page.placed [], p.node.isStack = true → p.isOuter = false →
      ∃ q ∈ (Node.template children o).placed [], q.isOuter = false ∧
        q.node.stack? = p.node.stack? ∧
        Node.settleAll d preserve q.inside q.node.children = .ok p.node.children) ∧
    ∀ name, (∀ q ∈ (Node.template children o).placed [], q.node.stack? = some name →
        q.isOuter = true) →
      ∀ p ∈ page.placed [], p.node.stack? = some name →
        ∀ q ∈ (Node.template children o).placed [], ∀ front, q.node.push? = some (name, front) →
          q.Reaches d preserve p.node.children := by
  refine ⟨fun p hp name hname hout q hq front hpush =>
    reaches_outer_stack h hp hname hout hq hpush, fun p hp => exists_covered_stack h hp, ?_⟩
  intro name hnone p hp hname q hq front hpush
  have hout : p.isOuter = true := by
    by_contra hcovered
    obtain ⟨t, ht, hcovered, hstack, -⟩ := exists_covered_stack h hp
      (Option.isSome_of_eq_some hname) (eq_false_of_ne_true hcovered)
    exact Bool.noConfusion (hcovered.symm.trans (hnone t ht (hstack.trans hname)))
  exact reaches_outer_stack h hp hname hout hq hpush

/-- A contribution in an attribute value reaches a stack that is further up on the page. -/
theorem contributions_reach_outer_stacks_script :
    let o : Origin := .of "default/page.stm" 1 .html ""
    let push : Node := .push "s" true [.host "x" o] o
    let root : Node := .template [.tag "p" [] [.stack "s" [.host "own" o] o] .pair o,
      .tag "b" [⟨"id", .quoted '"' [push], o⟩] [] .pair o] o
    let r : Resolver := ⟨fun path o => pure (.raw path o), fun path o => pure (.raw path o)⟩
    ∃ page s, (Builder.run (finalize .builtin (preserveIn [])) r root).run {} = (.ok page, s) ∧
      ∃ q ∈ root.placed [], q.node = push ∧ ∃ p ∈ page.placed [], p.node.stack? = some "s" ∧
        q.Reaches .builtin (preserveIn []) p.node.children := by
  intro o push root r
  let stack : Node := .stack "s" [.host "x" o, .host "own" o] o
  have hpage : (Builder.run (finalize .builtin (preserveIn [])) r root).run {} =
      (.ok (.template [.tag "p" [] [stack] .pair o,
        .tag "b" [⟨"id", .quoted '"' [], o⟩] [] .pair o] o), {}) :=
    finalize_of_ok (c := [⟨"s", true, [.host "x" o]⟩]) rfl rfl rfl
  have hq : (⟨[.template o.path, .tag "b", .attr "id"], push⟩ : Placed) ∈ root.placed [] :=
    .tail _ (.tail _ (.tail _ (.tail _ (.head _))))
  have hp : (⟨[.template o.path, .tag "p"], stack⟩ : Placed) ∈ (Node.template
      [.tag "p" [] [stack] .pair o, .tag "b" [⟨"id", .quoted '"' [], o⟩] [] .pair o] o).placed [] :=
    .tail _ (.tail _ (.head _))
  have hreach := contributions_reach_outer_stacks hpage
  exact ⟨_, _, hpage, _, hq, rfl, _, hp, rfl,
    hreach.2.2 "s" (by decide +kernel) _ hp rfl _ hq true rfl⟩

/-- A stack in another one, one in an attribute value and one in a contribution stay empty. -/
theorem covered_stacks_get_nothing :
    let o : Origin := .of "default/page.stm" 1 .html ""
    let inner : Node := .stack "b" [] o
    let root : Node := .template [.stack "a" [inner] o,
      .tag "p" [⟨"id", .quoted '"' [inner], o⟩] [] .pair o,
      .push "a" false [inner] o, .push "b" false [.host "x" o] o] o
    let r : Resolver := ⟨fun path o => pure (.raw path o), fun path o => pure (.raw path o)⟩
    (Builder.run (finalize .builtin (preserveIn [])) r root).run {} =
      (.ok (.template [.stack "a" [inner, inner] o,
        .tag "p" [⟨"id", .quoted '"' [inner], o⟩] [] .pair o] o), {}) := by
  intro o inner root r
  exact finalize_of_ok (c := [⟨"a", false, [inner]⟩, ⟨"b", false, [.host "x" o]⟩]) rfl rfl rfl

end Pass

end Lamina
