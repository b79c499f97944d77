import Lamina.Proofs.Pass.Preparing

/-! Preparing conserves content. Text, echoes, directives and code are moved with the elements they
stand in. What is lost is in `hidden` elements, and in attributes that go away with the element they
belong to: those of `block:` and `stack:` elements, and those written on an element that becomes an
attribute itself. -/

namespace Lamina

namespace Scope

/-- An element that becomes a construct without attributes. -/
def isMarker : Scope → Bool
  | tag name => decide (Node.InFamily "block" name) || decide (Node.InFamily "stack" name)
  | _ => false

/-- Whether an element becomes an attribute: it is a child of an element that does not become one.
The scopes are those around a child of the element, the innermost first. -/
def consumed : List Scope → Bool
  | tag name :: tag outer :: above =>
    decide (Node.InFamily "attr" name) && !consumed (tag outer :: above)
  | _ => false

/-- Whether what is in the innermost scope goes away. -/
def drops : List Scope → Bool
  | tag name :: above =>
    name == "hidden" || (decide (Node.InFamily "attr" name) && above.head?.any isMarker)
  | attr _ :: element :: above => element.isMarker || consumed (element :: above)
  | _ => false

/-- Whether what is in the scopes goes away, the innermost first. -/
def lost (scopes : List Scope) : Bool := scopes.tails.any drops

variable {scope : Scope} {scopes : List Scope} {name outer : String}

theorem not_isMarker_of_attr (h : Node.InFamily "attr" name) : (tag name).isMarker = false := by
  have hblock : ¬ Node.InFamily "block" name := fun h' => by
    rcases List.prefix_or_prefix_of_prefix h h' with h | h <;> revert h <;> decide
  have hstack : ¬ Node.InFamily "stack" name := fun h' => by
    rcases List.prefix_or_prefix_of_prefix h h' with h | h <;> revert h <;> decide
  simp [isMarker, hblock, hstack]

theorem inFamily_of_consumed (h : consumed (tag name :: scopes) = true) :
    Node.InFamily "attr" name := by
  cases scopes with
  | nil => cases h
  | cons scope scopes =>
    cases scope with
    | tag outer =>
      rw [consumed, Bool.and_eq_true, decide_eq_true_iff] at h
      exact h.1
    | _ => cases h

theorem consumed_cons (h : Node.InFamily "attr" name)
    (houter : consumed (tag outer :: scopes) = false) :
    consumed (tag name :: tag outer :: scopes) = true := by
  rw [consumed, houter, decide_eq_true h]
  rfl

theorem lost_cons : lost (scope :: scopes) = (drops (scope :: scopes) || lost scopes) := by
  simp [lost]

theorem lost_of_suffix {inner : List Scope} (hs : scopes <:+ inner) (h : lost scopes = true) :
    lost inner = true := by
  obtain ⟨t, rfl⟩ := hs
  induction t with
  | nil => exact h
  | cons scope t ih => rw [List.cons_append, lost_cons, ih, Bool.or_true]

theorem lost_tag (hhidden : name ≠ "hidden") (hfree : consumed (tag name :: scopes) = false)
    (h : lost scopes = false) : lost (tag name :: scopes) = false := by
  have hparent : (decide (Node.InFamily "attr" name) && scopes.head?.any isMarker) = false := by
    by_cases hattr : Node.InFamily "attr" name
    · cases scopes with
      | nil => simp
      | cons scope above =>
        cases scope with
        | tag outer =>
          have houter : consumed (tag outer :: above) = true := by
            simpa [consumed, hattr] using hfree
          simp [not_isMarker_of_attr (inFamily_of_consumed houter)]
        | _ => simp [isMarker]
    · simp [hattr]
  rw [lost_cons, h, drops, hparent]
  simpa using hhidden

theorem lost_attr_child (hmarker : (tag outer).isMarker = false)
    (h : lost (tag outer :: scopes) = false) :
    lost (tag ("attr:" ++ name) :: tag outer :: scopes) = false := by
  have hhidden : "attr:" ++ name ≠ "hidden" := fun h => by
    have hhead := congrArg (fun s => s.toList.head?) h
    simp at hhead
  rw [lost_cons, h, drops, List.head?_cons, Option.any_some, hmarker]
  simpa using hhidden

theorem inFamily_attr (name : String) : Node.InFamily "attr" ("attr:" ++ name) :=
  ⟨name.toList, by simp⟩

end Scope

namespace Node

open Scope

def isLeaf (n : Node) : Bool := (Scope.of? n).isNone

def leaves (n : Node) : List Node := n.nodes.filter isLeaf

/-- The leaves that stand in a place with `p`, given by the scopes around it, the innermost first. -/
def leavesAt (p : List Scope → Bool) (scopes : List Scope) (n : Node) : List Node :=
  ((n.placed scopes).filter fun q => q.node.isLeaf && p q.scopes.reverse).map (·.node)

variable {n : Node} {scopes : List Scope} {p : List Scope → Bool}

theorem leavesAt_of_leaf (h : Scope.of? n = none) (hp : p scopes.reverse = true) :
    n.leavesAt p scopes = [n] := by
  have hleaf : n.isLeaf = true := by rw [isLeaf, h]; rfl
  rw [leavesAt, placed_of_leaf h]
  simp [hleaf, hp]

theorem leavesAt_of_scope {scope : Scope} (h : Scope.of? n = some scope) :
    n.leavesAt p scopes =
      (n.attrs.flatMap fun a =>
        a.value.inner.flatMap (leavesAt p (scopes ++ [scope] ++ [.attr a.name]))) ++
      n.children.flatMap (leavesAt p (scopes ++ [scope])) := by
  have hleaf : n.isLeaf = false := by rw [isLeaf, h]; rfl
  have hself : ([⟨scopes, n⟩] : List Placed).filter
      (fun q => q.node.isLeaf && p q.scopes.reverse) = [] := by simp [hleaf]
  rw [leavesAt, placed_eq, Placed.inside_eq h, placedAttrs_eq, placedAll_eq, List.filter_append,
    hself, List.append_nil]
  simp only [placedAll_eq, List.filter_append, List.map_append, List.filter_flatMap,
    List.map_flatMap]
  rfl

theorem leaves_of_leaf (h : Scope.of? n = none) : n.leaves = [n] := by
  have hleaf : n.isLeaf = true := by rw [isLeaf, h]; rfl
  rw [leaves, nodes_eq, attrs_of_leaf h, children_of_leaf h]
  simp [nodesAttrs, nodesAll, hleaf]

theorem leaves_of_scope {scope : Scope} (h : Scope.of? n = some scope) :
    n.leaves = (n.attrs.flatMap fun a => a.value.inner.flatMap leaves) ++
      n.children.flatMap leaves := by
  have hleaf : n.isLeaf = false := by rw [isLeaf, h]; rfl
  have hattrs (attrs : List (Attr Node)) : (nodesAttrs attrs).filter isLeaf =
      attrs.flatMap fun a => a.value.inner.flatMap leaves := by
    induction attrs with
    | nil => rfl
    | cons a attrs ih =>
      obtain ⟨name, value, o⟩ := a
      rw [nodesAttrs, nodesAttr, nodesValue_eq, nodesAll_eq, List.filter_append, ih,
        List.filter_flatMap, List.flatMap_cons]
      rfl
  rw [leaves, nodes_eq, List.filter_cons_of_neg (by simp [hleaf]), List.filter_append, hattrs,
    nodesAll_eq, List.filter_flatMap]
  rfl

theorem leavesAt_anywhere (n : Node) (scopes : List Scope) :
    n.leavesAt (fun _ => true) scopes = n.leaves := by
  induction n using byParts generalizing scopes with
  | parts n iha ihc =>
    cases h : Scope.of? n with
    | none => rw [leavesAt_of_leaf h rfl, leaves_of_leaf h]
    | some scope =>
      rw [leavesAt_of_scope h, leaves_of_scope h]
      have hattrs : ∀ a ∈ n.attrs,
          a.value.inner.flatMap (leavesAt (fun _ => true) (scopes ++ [scope] ++ [.attr a.name])) =
            a.value.inner.flatMap leaves :=
        fun a ha => List.flatMap_congr fun c hc => iha a ha c hc _
      rw [List.flatMap_congr hattrs, List.flatMap_congr fun c hc => ihc c hc _]

theorem leavesAt_perm (p : List Scope → Bool) (n : Node) (scopes : List Scope) :
    (n.leavesAt (!p ·) scopes ++ n.leavesAt p scopes).Perm n.leaves := by
  have hsplit (q : List Scope → Bool) : n.leavesAt q scopes =
      (((n.placed scopes).filter (·.node.isLeaf)).filter fun x => q x.scopes.reverse).map
        (·.node) := by
    rw [leavesAt, List.filter_filter]
    simp only [Bool.and_comm]
  have hall : ((n.placed scopes).filter (·.node.isLeaf)).map (·.node) = n.leaves := by
    rw [← leavesAt_anywhere n scopes, leavesAt]
    simp only [Bool.and_true]
  rw [hsplit, hsplit, ← List.map_append, ← hall]
  exact (List.perm_append_comm.trans (List.filter_append_perm _ _)).map _

theorem leavesAt_of_lost (h : lost scopes.reverse = true) :
    n.leavesAt (!lost ·) scopes = [] := by
  rw [leavesAt, List.map_eq_nil_iff, List.filter_eq_nil_iff]
  intro q hq
  have hsuffix : scopes.reverse <:+ q.scopes.reverse :=
    List.reverse_suffix.mpr (prefix_of_mem_placed hq)
  simp [lost_of_suffix hsuffix h]

theorem leavesAt_of_lost_inside {scope : Scope} (hscope : Scope.of? n = some scope)
    (h : lost (scope :: scopes.reverse) = true) : n.leavesAt (!lost ·) scopes = [] := by
  have hinside : lost (scopes ++ [scope]).reverse = true := List.reverse_concat ▸ h
  rw [leavesAt_of_scope hscope, List.append_eq_nil_iff, List.flatMap_eq_nil_iff,
    List.flatMap_eq_nil_iff]
  refine ⟨fun a _ => List.flatMap_eq_nil_iff.mpr fun c _ => ?_, fun c _ => leavesAt_of_lost hinside⟩
  refine leavesAt_of_lost (lost_of_suffix ?_ hinside)
  exact List.reverse_suffix.mpr (List.prefix_append _ _)

end Node

namespace Pass

open Node Scope

/-- What comes out of a node has the leaves that are not lost, unless the node becomes an attribute
or is in a scope that goes away. -/
def Conserves (n : Node) (out : List Node) : Prop :=
  ∀ scopes, lost scopes.reverse = false →
    (∀ name, Scope.of? n = some (.tag name) → consumed (.tag name :: scopes.reverse) = false) →
    (out.flatMap leaves).Perm (n.leavesAt (!lost ·) scopes)

theorem conserves_list (scopes : List Scope) {nodes : List Node} {pieces : List (List Node)}
    (h : List.Forall₂ Conserves nodes pieces) (hlost : lost scopes.reverse = false)
    (hfree : ∀ n ∈ nodes, ∀ name, Scope.of? n = some (.tag name) →
      consumed (.tag name :: scopes.reverse) = false) :
    (pieces.flatten.flatMap leaves).Perm (nodes.flatMap (leavesAt (!lost ·) scopes)) := by
  induction h with
  | nil => exact .nil
  | cons hn _ ih =>
    rw [List.forall_mem_cons] at hfree
    rw [List.flatten_cons, List.flatMap_append, List.flatMap_cons]
    exact (hn scopes hlost hfree.1).append (ih hfree.2)

theorem conserves_attrs (place : Attr Node → List Scope) {attrs attrs' : List (Attr Node)}
    (h : List.Forall₂ (Refills Conserves) attrs attrs')
    (hlost : ∀ a ∈ attrs, lost (place a).reverse = false)
    (hfree : ∀ a ∈ attrs, ∀ name, consumed (.tag name :: (place a).reverse) = false) :
    (attrs'.flatMap fun b => b.value.inner.flatMap leaves).Perm
      (attrs.flatMap fun a => a.value.inner.flatMap (leavesAt (!lost ·) (place a))) := by
  induction h with
  | nil => exact .nil
  | @cons a b attrs attrs' hab _ ih =>
    rw [List.forall_mem_cons] at hlost hfree
    rw [List.flatMap_cons, List.flatMap_cons]
    refine List.Perm.append ?_ (ih hlost.2 hfree.2)
    obtain ⟨pieces, hpieces, rfl⟩ := hab
    have hinner := conserves_list _ hpieces hlost.1 fun _ _ name _ => hfree.1 name
    obtain ⟨name, value, o⟩ := a
    cases value with
    | bare | unquoted => exact .nil
    | quoted | dynamic => exact hinner

/-- What is written in the attributes of an element stays if the element is no marker and is not
consumed. -/
theorem conserves_written {scopes : List Scope} {scope : Scope} (hmarker : scope.isMarker = false)
    (hfree : consumed (scope :: scopes.reverse) = false)
    (hinside : lost (scope :: scopes.reverse) = false) {attrs attrs' : List (Attr Node)}
    (h : List.Forall₂ (Refills Conserves) attrs attrs') :
    (attrs'.flatMap fun b => b.value.inner.flatMap leaves).Perm (attrs.flatMap fun a =>
      a.value.inner.flatMap (leavesAt (!lost ·) (scopes ++ [scope] ++ [.attr a.name]))) := by
  have hreverse : (scopes ++ [scope]).reverse = scope :: scopes.reverse := List.reverse_concat
  refine conserves_attrs (fun a => scopes ++ [scope] ++ [.attr a.name]) h ?_ ?_
  · intro a _
    rw [List.reverse_concat, hreverse, lost_cons, hinside, drops, hmarker, hfree]
    rfl
  · intro a _ inner
    rw [List.reverse_concat]
    rfl

theorem perm_splitAttrs {α : Type} {f : Node → List α} {g : Attr Node → List α}
    {nodes rest : List Node} {more : List (Attr Node)} (h : splitAttrs nodes = .ok (more, rest))
    (hfg : ∀ n ∈ nodes, ∀ a, asAttr? n = some a → f n = g a) :
    (more.flatMap g ++ rest.flatMap f).Perm (nodes.flatMap f) := by
  obtain ⟨rfl, rfl⟩ := splitAttrs_eq h
  clear h
  induction nodes with
  | nil => exact .nil
  | cons n nodes ih =>
    rw [List.forall_mem_cons] at hfg
    rw [List.flatMap_cons]
    cases hn : attrChild? n with
    | none =>
      have hnone : asAttr? n = none := by rw [asAttr?, hn, Option.map_none]
      rw [List.filterMap_cons_none hnone, List.filter_cons_of_pos (by simpa using hn),
        List.flatMap_cons]
      exact (List.perm_append_comm_assoc _ _ _).trans ((ih hfg.2).append_left _)
    | some attr =>
      have hsome : asAttr? n = some ⟨attr, .quoted '"' n.children, n.origin⟩ := by
        rw [asAttr?, hn, Option.map_some]
      rw [List.filterMap_cons_some hsome, List.filter_cons_of_neg (by simp [hn]),
        List.flatMap_cons, hfg.1 _ hsome, List.append_assoc]
      exact (ih hfg.2).append_left _

section Cases

variable {name : String} {attrs attrs' more : List (Attr Node)} {children rest : List Node}
  {pieces : List (List Node)} {closing : Closing} {o : Origin}

theorem not_consumed_of_mem_rest (hsplit : splitAttrs children = .ok (more, rest))
    {scopes : List Scope} : ∀ c ∈ rest, ∀ inner, Scope.of? c = some (.tag inner) →
      consumed (.tag inner :: scopes) = false := by
  intro c hc inner hinner
  rw [(splitAttrs_eq hsplit).2] at hc
  have hnone : attrChild? c = none := by simpa using List.of_mem_filter hc
  refine eq_false_of_ne_true fun hconsumed => ?_
  have hfamily := inFamily_of_consumed hconsumed
  cases c with
  | tag =>
    cases hinner
    exact suffix?_eq_none_iff.mp hnone hfamily
  | _ => cases hinner

theorem eq_tag_of_asAttr? {n : Node} {a : Attr Node} (h : asAttr? n = some a) :
    ∃ own closing o, n = .tag ("attr:" ++ a.name) own n.children closing o ∧
      a.value = .quoted '"' n.children := by
  obtain ⟨attr, hattr, rfl⟩ := Option.map_eq_some_iff.mp h
  cases n with
  | tag tag own children closing o =>
    obtain ⟨suffix, hsuffix, rfl⟩ := Option.map_eq_some_iff.mp hattr
    have hname : tag = "attr:" ++ String.ofList suffix := by
      rw [← String.toList_inj, Text.isPrefixOf?_eq_some.mp hsuffix]
      simp
    exact ⟨own, closing, o, by rw [hname]; rfl, rfl⟩
  | _ => cases hattr

theorem leavesAt_attrs_of_lost (attrs : List (Attr Node)) (place : Attr Node → List Scope)
    (h : ∀ a ∈ attrs, lost (place a).reverse = true) :
    (attrs.flatMap fun a => a.value.inner.flatMap (leavesAt (!lost ·) (place a))) = [] := by
  rw [List.flatMap_eq_nil_iff]
  intro a ha
  rw [List.flatMap_eq_nil_iff]
  intro c _
  exact leavesAt_of_lost (h a ha)

theorem leavesAt_of_consumed {c : Node} {a : Attr Node} (scopes : List Scope)
    (ha : asAttr? c = some a) (h : consumed (.tag ("attr:" ++ a.name) :: scopes.reverse) = true) :
    c.leavesAt (!lost ·) scopes =
      a.value.inner.flatMap (leavesAt (!lost ·) (scopes ++ [.tag ("attr:" ++ a.name)])) := by
  obtain ⟨own, closing, o, hc, hvalue⟩ := eq_tag_of_asAttr? ha
  rw [hc, leavesAt_of_scope rfl, hvalue]
  dsimp only [Node.attrs]
  rw [leavesAt_attrs_of_lost]
  · rfl
  · intro b _
    rw [List.reverse_concat, List.reverse_concat, lost_cons, drops, h, Bool.or_true, Bool.true_or]

theorem conserves_element (hsplit : splitAttrs children = .ok (more, rest))
    (hprepared : PreparedName name)
    (hattrs : List.Forall₂ (Refills Conserves) (attrs ++ more) attrs')
    (hpieces : List.Forall₂ Conserves rest pieces) :
    Conserves (.tag name attrs children closing o) [.tag name attrs' pieces.flatten closing o] := by
  intro scopes hlost hfree
  have hfree := hfree name rfl
  have hinside := lost_tag hprepared.hidden hfree hlost
  have hmarker : (Scope.tag name).isMarker = false := by
    simp [isMarker, hprepared.block, hprepared.stack]
  have hreverse : (scopes ++ [Scope.tag name]).reverse = .tag name :: scopes.reverse :=
    List.reverse_concat
  have hwritten := conserves_written hmarker hfree hinside
    (List.forall₂_take_append _ _ _ hattrs.flip).flip
  have htaken := conserves_attrs (fun a => scopes ++ [.tag name] ++ [.tag ("attr:" ++ a.name)])
    (List.forall₂_drop_append _ _ _ hattrs.flip).flip
    (fun a _ => by
      rw [List.reverse_concat, hreverse]
      exact lost_attr_child hmarker hinside)
    (fun a _ inner => by
      rw [List.reverse_concat, hreverse, consumed, consumed_cons (inFamily_attr _) hfree]
      exact Bool.and_false _)
  have hrest := conserves_list (scopes ++ [.tag name]) hpieces (hreverse ▸ hinside)
    (not_consumed_of_mem_rest hsplit)
  have hmoved := perm_splitAttrs hsplit fun c _ a ha =>
    leavesAt_of_consumed (scopes ++ [.tag name]) ha
      (hreverse ▸ consumed_cons (inFamily_attr _) hfree)
  rw [List.flatMap_singleton, leaves_of_scope rfl, leavesAt_of_scope rfl]
  dsimp only [Node.attrs, Node.children, Node.children?, Option.getD_some]
  rw [← List.take_append_drop attrs.length attrs', List.flatMap_append, List.append_assoc]
  exact hwritten.append ((htaken.append hrest).trans hmoved)

theorem conserves_marker (hsplit : splitAttrs children = .ok (more, rest))
    (hmarker : (Scope.tag name).isMarker = true) (hpieces : List.Forall₂ Conserves rest pieces)
    {m : Node} (hm : m.leaves = pieces.flatten.flatMap leaves) :
    Conserves (.tag name attrs children closing o) [m] := by
  intro scopes hlost hfree
  have hhidden : name ≠ "hidden" := by
    rintro rfl
    revert hmarker
    decide
  have hreverse : (scopes ++ [Scope.tag name]).reverse = .tag name :: scopes.reverse :=
    List.reverse_concat
  have hrest := conserves_list (scopes ++ [.tag name]) hpieces
    (hreverse ▸ lost_tag hhidden (hfree name rfl) hlost) (not_consumed_of_mem_rest hsplit)
  have hgone : ∀ c ∈ children, ∀ a, asAttr? c = some a →
      c.leavesAt (!lost ·) (scopes ++ [.tag name]) = [] := by
    intro c _ a ha
    obtain ⟨own, closing, o, hc, -⟩ := eq_tag_of_asAttr? ha
    have hscope : Scope.of? c = some (.tag ("attr:" ++ a.name)) := by
      rw [hc]
      rfl
    refine leavesAt_of_lost_inside hscope ?_
    rw [hreverse, lost_cons, drops, List.head?_cons, Option.any_some, hmarker,
      decide_eq_true (inFamily_attr _)]
    simp
  have hmoved := perm_splitAttrs hsplit hgone
  rw [List.flatMap_eq_nil_iff.mpr fun _ _ => rfl, List.nil_append] at hmoved
  have hattrs := leavesAt_attrs_of_lost attrs (fun a => scopes ++ [.tag name] ++ [.attr a.name])
    fun a _ => by
      rw [List.reverse_concat, hreverse, lost_cons, drops, hmarker, Bool.true_or, Bool.true_or]
  rw [List.flatMap_singleton, hm, leavesAt_of_scope rfl]
  dsimp only [Node.attrs, Node.children, Node.children?, Option.getD_some]
  rw [hattrs, List.nil_append]
  exact hrest.trans hmoved

end Cases

theorem conserves_other {n : Node} {attrs' : List (Attr Node)} {pieces : List (List Node)}
    (hn : n.isTag = false) (hattrs : List.Forall₂ (Refills Conserves) n.attrs attrs')
    (hpieces : List.Forall₂ Conserves n.children pieces) :
    Conserves n [n.withParts attrs' pieces.flatten] := by
  intro scopes hlost _
  rw [List.flatMap_singleton]
  cases hscope : Scope.of? n with
  | none =>
    rw [withParts_eq_self hscope, leaves_of_leaf hscope, leavesAt_of_leaf hscope (by simp [hlost])]
  | some scope =>
    have hplain : scope.isMarker = false ∧ (∀ above, consumed (scope :: above) = false) ∧
        (∀ name above, consumed (.tag name :: scope :: above) = false) ∧
        ∀ above, drops (scope :: above) = false := by
      cases n with
      | tag => cases hn
      | raw | directive | echo | host => cases hscope
      | _ =>
        cases hscope
        exact ⟨rfl, fun _ => rfl, fun _ _ => rfl, fun _ => rfl⟩
    obtain ⟨hmarker, hfree, hbelow, hdrops⟩ := hplain
    have hreverse : (scopes ++ [scope]).reverse = scope :: scopes.reverse := List.reverse_concat
    have hinside : lost (scope :: scopes.reverse) = false := by rw [lost_cons, hdrops, hlost]; rfl
    have hwritten := conserves_written hmarker (hfree _) hinside hattrs
    have hchildren := conserves_list (scopes ++ [scope]) hpieces (hreverse ▸ hinside)
      fun c _ name _ => hreverse ▸ hbelow name _
    have hparts : (n.withParts attrs' pieces.flatten).attrs = attrs' ∧
        (n.withParts attrs' pieces.flatten).children = pieces.flatten := by
      cases n with
      | fragment => exact ⟨rfl, rfl⟩
      | template | block | stack | push =>
        cases hattrs
        exact ⟨rfl, rfl⟩
      | tag => cases hn
      | raw | directive | echo | host => cases hscope
    rw [leaves_of_scope ((scope_withParts n _ _).trans hscope), hparts.1, hparts.2,
      leavesAt_of_scope hscope]
    exact hwritten.append hchildren

theorem isMarker_of_suffix? {name suffix : String}
    (h : suffix? "block" name = some suffix ∨ suffix? "stack" name = some suffix) :
    (Scope.tag name).isMarker = true := by
  have hfamily {family : String} (h : suffix? family name = some suffix) : InFamily family name :=
    not_not.mp (mt suffix?_eq_none_iff.mpr (by simp [h]))
  rcases h with h | h <;> simp [isMarker, hfamily h]

theorem Prepares.conserves {n : Node} {out : List Node} (h : Prepares n out) :
    Conserves n out := by
  refine Prepares.byOpening (fun n hopens => ?_)
    (fun n m attrs pieces hopens hattrs hpieces => ?_) h
  · cases hopens with
    | hidden =>
      intro scopes _ _
      rw [leavesAt_of_lost_inside rfl (by simp [lost_cons, drops])]
      exact .nil
  · cases hopens with
    | other hn => exact conserves_other hn hattrs hpieces
    | element split prepared => exact conserves_element split prepared hattrs hpieces
    | block split family =>
      exact conserves_marker split (isMarker_of_suffix? (.inl family)) hpieces
        (leaves_of_scope (n := .block _ _ _) rfl)
    | stack split family =>
      exact conserves_marker split (isMarker_of_suffix? (.inr family)) hpieces
        (leaves_of_scope (n := .stack _ _ _) rfl)
    | push split family =>
      exact conserves_marker split (isMarker_of_suffix? (.inr family)) hpieces
        (leaves_of_scope (n := .push _ _ _ _) rfl)

/-- Preparing moves the text, echoes, directives and code of a tree and loses those of them that are
inside `hidden` elements, inside attributes of `block:` and `stack:` elements, be they written or
given as children, and inside attributes written on elements that become attributes. -/
theorem prepare_conserves_leaves (r : Resolver) (n n' : Node) (s s' : Session)
    (h : (Builder.run prepare r n).run s = (.ok n', s')) :
    (n'.leaves ++ n.leavesAt lost []).Perm n.leaves := by
  obtain ⟨out, hout, -, hn'⟩ := run_prepare_eq_ok h
  have hleaves : n'.leaves = out.flatMap leaves := by
    rcases hn' with rfl | rfl
    · rw [List.flatMap_singleton]
    · exact leaves_of_scope rfl
  have hkept := hout.conserves [] rfl fun _ _ => rfl
  rw [hleaves]
  exact (hkept.append_right _).trans (leavesAt_perm lost n [])

/-- Text in every place where it is lost, and in two where it is kept. -/
def mixedPlaces : String :=
  "<hidden>h</hidden><p><attr:id w=\"o\">t</attr:id>" ++
    "<block:b c=\"d\"><attr:e>f</attr:e>g</block:b></p>"

set_option maxRecDepth 100000 in
theorem prepare_conserves_leaves_mixed : ∃ n n' s',
    Node.parse mixedPlaces "page" = .ok n ∧
      (Builder.run prepare ⟨fun _ _ => pure default, fun _ _ => pure default⟩ n).run {} =
        (.ok n', s') ∧
      n'.leaves.length = 2 ∧ (n.leavesAt lost []).length = 4 ∧
      (n'.leaves ++ n.leavesAt lost []).Perm n.leaves := by
  have hlengths : (Node.parse mixedPlaces "page").toOption.bind (fun n =>
      ((Builder.run prepare ⟨fun _ _ => pure default, fun _ _ => pure default⟩ n).run
        {}).1.toOption.map fun n' => (n'.leaves.length, (n.leavesAt lost []).length)) =
        some (2, 4) := by decide +kernel
  obtain ⟨n, hparse, hlengths⟩ := Option.bind_eq_some_iff.mp hlengths
  obtain ⟨n', hrun, hlengths⟩ := Option.map_eq_some_iff.mp hlengths
  obtain ⟨hkept, hlost⟩ := Prod.mk.inj hlengths
  refine ⟨n, n', _, eq_ok_of_toOption hparse, Prod.ext (eq_ok_of_toOption hrun) rfl, hkept, hlost, ?_⟩
  exact prepare_conserves_leaves _ n n' _ _ (Prod.ext (eq_ok_of_toOption hrun) rfl)

set_option maxRecDepth 100000 in
/-- An element that becomes an attribute takes along the text of an `attr:` child. -/
theorem nested_attr_keeps_text : ∃ n n' s',
    Node.parse "<a><attr:x><attr:y>T</attr:y></attr:x></a>" "page" = .ok n ∧
      (Builder.run prepare ⟨fun _ _ => pure default, fun _ _ => pure default⟩ n).run {} =
        (.ok n', s') ∧
      ((n.placed []).filter (·.node.isLeaf)).map (·.scopes) =
        [[.template "page", .tag "a", .tag "attr:x", .tag "attr:y"]] ∧
      n'.leaves.map kind = ["raw"] := by
  have hleaves : (Node.parse "<a><attr:x><attr:y>T</attr:y></attr:x></a>" "page").toOption.bind
      (fun n => ((Builder.run prepare ⟨fun _ _ => pure default, fun _ _ => pure default⟩ n).run
        {}).1.toOption.map fun n' => (((n.placed []).filter (·.node.isLeaf)).map (·.scopes),
          n'.leaves.map kind)) =
        some ([[.template "page", .tag "a", .tag "attr:x", .tag "attr:y"]], ["raw"]) := by
    decide +kernel
  obtain ⟨n, hparse, hleaves⟩ := Option.bind_eq_some_iff.mp hleaves
  obtain ⟨n', hrun, hleaves⟩ := Option.map_eq_some_iff.mp hleaves
  obtain ⟨hplaces, hkinds⟩ := Prod.mk.inj hleaves
  exact ⟨n, n', _, eq_ok_of_toOption hparse, Prod.ext (eq_ok_of_toOption hrun) rfl, hplaces, hkinds⟩

end Pass

end Lamina
