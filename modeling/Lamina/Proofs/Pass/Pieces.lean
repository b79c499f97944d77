import Lamina.Pass.Finalize
import Lamina.Pass.Merge
import Lamina.Pass.Prepare
import Lamina.Proofs.Except
import Lamina.Proofs.Fillings

/-! What the passes do to lists of nodes keeps traits: they take nodes apart, put them together and
move them, and make nothing up. -/

namespace Lamina

variable {T T' : Trait}

namespace Pass

theorem has_splitAttrs {nodes : List Node} {as ns} (h : splitAttrs nodes = .ok (as, ns))
    (hn : ∀ n ∈ nodes, n.Has T) : (∀ a ∈ as, a.Has T) ∧ ∀ n ∈ ns, n.Has T := by
  fun_induction splitAttrs nodes generalizing as ns with
  | case1 =>
    cases h
    exact ⟨List.forall_mem_nil _, List.forall_mem_nil _⟩
  | case3 => cases h
  | case4 name attrs children closing o rest attr hkey hne ih =>
    obtain ⟨⟨a, b⟩, hr, he⟩ := map_eq_ok.mp h
    cases he
    rw [List.forall_mem_cons] at hn ⊢
    have hh := ih hr hn.2
    have ht := Node.has_iff.mp hn.1
    exact ⟨⟨⟨T.asAttr ht.1 hkey (Bool.eq_false_iff.mpr hne), ht.2.2⟩, hh.1⟩, hh.2⟩
  | case2 _ _ _ _ _ _ _ ih | case5 _ _ _ ih =>
    obtain ⟨⟨a, b⟩, hr, he⟩ := map_eq_ok.mp h
    cases he
    rw [List.forall_mem_cons] at hn ⊢
    have hh := ih hr hn.2
    exact ⟨hh.1, hn.1, hh.2⟩

theorem exists_origin_of_splitAttrs {nodes : List Node} {o : Origin}
    (h : splitAttrs nodes = .error o) : ∃ n ∈ nodes, n.origin = o := by
  fun_induction splitAttrs nodes with
  | case1 => cases h
  | case2 _ _ _ _ _ _ _ ih | case4 _ _ _ _ _ _ _ _ _ ih | case5 _ _ _ ih =>
    obtain ⟨n, hn, ho⟩ := ih (map_eq_error.mp h)
    exact ⟨n, List.mem_cons_of_mem _ hn, ho⟩
  | case3 =>
    cases h
    exact ⟨_, List.mem_cons_self, rfl⟩

theorem has_takeExtends {nodes others : List Node} {name attrs o}
    (h : takeExtends nodes = some ((name, attrs, o), others)) (hn : ∀ n ∈ nodes, n.Has T) :
    (∃ children closing, T.node (.tag name attrs children closing o)) ∧
      (∀ a ∈ attrs, a.Has T) ∧ ∀ n ∈ others, n.Has T := by
  fun_induction takeExtends nodes generalizing others with
  | case1 => cases h
  | case2 name attrs children closing o rest _ =>
    cases h
    rw [List.forall_mem_cons] at hn
    have ht := Node.has_iff.mp hn.1
    exact ⟨⟨children, closing, ht.1⟩, ht.2.1, hn.2⟩
  | case3 _ _ _ _ _ _ _ ih | case4 _ _ _ ih =>
    obtain ⟨⟨found, more⟩, hr, he⟩ := Option.map_eq_some_iff.mp h
    cases he
    rw [List.forall_mem_cons] at hn ⊢
    have hh := ih hr hn.2
    exact ⟨hh.1, hh.2.1, hn.1, hh.2.2⟩

theorem has_splice {attrs : List (Attr Node)} {children : List Node} {reference : Origin}
    {fragment : Node} (ha : ∀ a ∈ attrs, a.Has T) (hc : ∀ c ∈ children, c.Has T)
    (hT : T'.Attaches reference T) (hf : fragment.Has T') :
    ∀ n ∈ splice attrs children reference fragment, n.Has T :=
  Node.Has.fillAll (Fillings.has_ofElement ha hc) (Node.Has.attachAll hT hf.contents)

theorem has_extended {attrs : List (Attr Node)} {others : List Node} {reference : Origin}
    {parent : Node} (ha : ∀ a ∈ attrs, a.Has T) (hothers : ∀ n ∈ others, n.Has T)
    (hT : T'.Attaches reference T) (hp : parent.Has T') :
    ∀ n ∈ others.filter isLeading ++
      Node.fillAll (others.foldl Fillings.addBlock (.ofAttrs ["path"] attrs))
        (Node.attachAll reference parent.contents) ++ others.filter isPush, n.Has T := by
  have hfillings := (Fillings.has_ofAttrs ["path"] ha).addBlocks hothers
  have hnodes := Node.Has.attachAll hT hp.contents
  refine List.forall_mem_append.mpr ⟨List.forall_mem_append.mpr ⟨?_, ?_⟩, ?_⟩
  · exact fun x hx => hothers x (List.mem_filter.mp hx).1
  · exact Node.Has.fillAll hfillings hnodes
  · exact fun x hx => hothers x (List.mem_filter.mp hx).1

end Pass

namespace Node

theorem fillStacksAll_eq (c : List Contribution) (nodes : List Node) :
    fillStacksAll c nodes = nodes.map (fillStacks c) := by
  induction nodes with
  | nil => rfl
  | cons n nodes ih => rw [fillStacksAll, ih, List.map_cons]

theorem mem_stackContent {c : List Contribution} {name : String} {own : List Node} {n : Node}
    (h : n ∈ stackContent c name own) : n ∈ own ∨ ∃ x ∈ c, n ∈ x.nodes := by
  have hmine {keep : Contribution → Bool} {x : Contribution}
      (hx : x ∈ (c.filter (·.stack == name)).filter keep) : x ∈ c :=
    (List.mem_filter.mp (List.mem_filter.mp hx).1).1
  rcases List.mem_append.mp h with h | h
  · rcases List.mem_append.mp h with h | h
    · obtain ⟨x, hx, hn⟩ := List.mem_flatMap.mp h
      exact .inr ⟨x, hmine (List.mem_reverse.mp hx), hn⟩
    · exact .inl h
  · obtain ⟨x, hx, hn⟩ := List.mem_flatMap.mp h
    exact .inr ⟨x, hmine hx, hn⟩

theorem has_stackContent {c : List Contribution} (hc : ∀ x ∈ c, ∀ n ∈ x.nodes, n.Has T)
    (name : String) {own : List Node} (h : ∀ n ∈ own, n.Has T) :
    ∀ n ∈ stackContent c name own, n.Has T := by
  intro n hn
  rcases mem_stackContent hn with hn | ⟨x, hx, hn⟩
  · exact h n hn
  · exact hc x hx n hn

theorem Has.fillStacks {c : List Contribution} (hc : ∀ x ∈ c, ∀ n ∈ x.nodes, n.Has T)
    (n : Node) (h : n.Has T) : (n.fillStacks c).Has T := by
  induction n using byParts with
  | parts n _ ih =>
    obtain ⟨hhere, ha, hn⟩ := has_iff.mp h
    have hall : ∀ x ∈ fillStacksAll c n.children, x.Has T := by
      rw [fillStacksAll_eq]
      exact List.forall_mem_map.mpr fun x hx => ih x hx (hn x hx)
    cases n with
    | stack name children o => exact has_withParts hhere ha (has_stackContent hc name hn)
    | template | tag | block | push | fragment => exact has_withParts hhere ha hall
    | raw | directive | echo | host => exact h

theorem Has.fillStacksAll {c : List Contribution} (hc : ∀ x ∈ c, ∀ n ∈ x.nodes, n.Has T)
    {nodes : List Node} (h : ∀ n ∈ nodes, n.Has T) : ∀ n ∈ fillStacksAll c nodes, n.Has T := by
  rw [fillStacksAll_eq]
  exact List.forall_mem_map.mpr fun n hn => (h n hn).fillStacks hc n

end Node

namespace Pass

theorem has_raw {text : String} {o : Origin} (h : (Node.raw text o).Has T) (text' : String) :
    (Node.raw text' o).Has T :=
  Node.has_of_leaf rfl (T.text text' (Node.has_iff.mp h).1)

theorem has_trimFirst {nodes : List Node} (h : ∀ n ∈ nodes, n.Has T) :
    ∀ n ∈ trimFirst nodes, n.Has T := by
  fun_cases trimFirst nodes with
  | case1 text o rest =>
    rw [List.forall_mem_cons] at h ⊢
    exact ⟨has_raw h.1 _, h.2⟩
  | case2 => exact h

theorem has_trimLast {nodes : List Node} (h : ∀ n ∈ nodes, n.Has T) :
    ∀ n ∈ trimLast nodes, n.Has T := by
  fun_induction trimLast nodes with
  | case1 => exact h
  | case2 text o =>
    rw [List.forall_mem_singleton] at h ⊢
    exact has_raw h _
  | case3 node rest _ ih =>
    rw [List.forall_mem_cons] at h ⊢
    exact ⟨h.1, ih h.2⟩

theorem has_trimEdges {nodes : List Node} (h : ∀ n ∈ nodes, n.Has T) :
    ∀ n ∈ trimEdges nodes, n.Has T :=
  fun n hn => has_trimLast (has_trimFirst h) n (List.mem_filter.mp hn).1

end Pass

end Lamina
