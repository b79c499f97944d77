import Lamina.Proofs.Node.Placed
import Lamina.Proofs.Session

/-! Walks that succeed, taken apart. What a walk returns is put together from what it returns for the
parts, so a relation between a tree and what comes out of it is established part by part. A walk that
puts one node in the place of each goes through the tree like a map. -/

namespace Lamina

def Returns {α : Type} (x : WalkM α) (a : α) : Prop :=
  ∃ notes notes' s s', (x.run notes).run s = (.ok (a, notes'), s')

namespace Returns

variable {α β : Type} {a b : α}

theorem eq_of_pure (h : Returns (pure a) b) : a = b := by
  obtain ⟨notes, notes', s, s', h⟩ := h
  cases h
  rfl

theorem not_throw (failure : Failure) : ¬ Returns (throw failure) a := by
  rintro ⟨notes, notes', s, s', h⟩
  cases h

theorem of_bind {x : WalkM α} {f : α → WalkM β} {b : β} (h : Returns (x >>= f) b) :
    ∃ a, Returns x a ∧ Returns (f a) b := by
  obtain ⟨notes, notes', s, s', h⟩ := h
  rw [StateT.run_bind] at h
  obtain ⟨⟨a, between⟩, t, hx, hf⟩ := run_bind_eq_ok.mp h
  exact ⟨a, ⟨notes, between, s, t, hx⟩, ⟨between, notes', t, s', hf⟩⟩

end Returns

def Node.onParts (f : List Scope → Node → Node) (scopes : List Scope) (n : Node) : Node :=
  let inside := (Placed.mk scopes n).inside
  n.withParts
    (n.attrs.map fun a =>
      { a with value := a.value.withInner (a.value.inner.map (f (inside ++ [.attr a.name]))) })
    (n.children.map (f inside))

theorem Node.onParts_id (scopes : List Scope) (n : Node) : n.onParts (fun _ c => c) scopes = n := by
  have hvalue (value : AttrValue Node) : value.withInner value.inner = value := by
    cases value <;> rfl
  rw [onParts]
  simp only [List.map_id', hvalue]
  cases n <;> rfl

namespace Walk

variable {visitors : List (Visitor WalkM)} {scopes : List Scope} {n m : Node}

theorem list_returns {nodes out : List Node} (h : Returns (list visitors scopes nodes) out) :
    ∃ pieces, List.Forall₂ (fun n l => Returns (node visitors scopes n) l) nodes pieces ∧
      out = pieces.flatten := by
  induction nodes generalizing out with
  | nil =>
    rw [list] at h
    exact ⟨[], .nil, h.eq_of_pure.symm⟩
  | cons n nodes ih =>
    rw [list] at h
    obtain ⟨first, hfirst, h⟩ := h.of_bind
    obtain ⟨rest, hrest, h⟩ := h.of_bind
    obtain ⟨pieces, hpieces, rfl⟩ := ih hrest
    exact ⟨first :: pieces, .cons hfirst hpieces, h.eq_of_pure.symm⟩

theorem attrList_returns {attrs attrs' : List (Attr Node)}
    (h : Returns (attrList visitors scopes attrs) attrs') :
    List.Forall₂ (fun a b => ∃ nodes,
      Returns (list visitors (scopes ++ [.attr a.name]) a.value.inner) nodes ∧
        b = { a with value := a.value.withInner nodes }) attrs attrs' := by
  induction attrs generalizing attrs' with
  | nil =>
    rw [attrList] at h
    rw [← h.eq_of_pure]
    exact .nil
  | cons a attrs ih =>
    rw [attrList_cons] at h
    obtain ⟨nodes, hnodes, h⟩ := h.of_bind
    obtain ⟨rest, hrest, h⟩ := h.of_bind
    rw [← h.eq_of_pure]
    exact .cons ⟨nodes, hnodes, rfl⟩ (ih hrest)

theorem below_returns (h : Returns (below visitors scopes n) m) :
    ∃ inner attrs pieces,
      List.Forall₂ (fun a b => ∃ nodes,
        Returns (list visitors (inner ++ [.attr a.name]) a.value.inner) nodes ∧
          b = { a with value := a.value.withInner nodes }) n.attrs attrs ∧
      List.Forall₂ (fun c l => Returns (node visitors inner c) l) n.children pieces ∧
      m = n.withParts attrs pieces.flatten := by
  rw [below_eq] at h
  cases hscope : Scope.of? n with
  | none =>
    rw [hscope] at h
    refine ⟨scopes, [], [], ?_, ?_, ?_⟩
    · rw [Node.attrs_of_leaf hscope]
      exact .nil
    · rw [Node.children_of_leaf hscope]
      exact .nil
    · rw [← h.eq_of_pure, Node.withParts_eq_self hscope]
  | some scope =>
    rw [hscope] at h
    obtain ⟨attrs, hattrs, h⟩ := h.of_bind
    obtain ⟨children, hchildren, h⟩ := h.of_bind
    obtain ⟨pieces, hpieces, rfl⟩ := list_returns hchildren
    exact ⟨_, attrs, pieces, attrList_returns hattrs, hpieces, h.eq_of_pure.symm⟩

section Map

variable {m : Type → Type} [Monad m] [LawfulMonad m] {visitors : List (Visitor m)}
  {act : Placed → m Unit} {f : List Scope → Node → Node}

theorem list_of_acts (scopes : List Scope) {nodes : List Node} (h : ∀ n ∈ nodes,
      node visitors scopes n = act ⟨scopes, n⟩ >>= fun _ => pure [f scopes n]) :
    list visitors scopes nodes =
      forM (nodes.map (.mk scopes)) act >>= fun _ => pure (nodes.map (f scopes)) := by
  induction nodes with
  | nil => simp [list]
  | cons n nodes ih =>
    rw [List.forall_mem_cons] at h
    rw [list, h.1, ih h.2]
    simp

theorem attrList_of_acts {attrs : List (Attr Node)}
    (h : ∀ a ∈ attrs, ∀ c ∈ a.value.inner, node visitors (scopes ++ [.attr a.name]) c =
      act ⟨scopes ++ [.attr a.name], c⟩ >>= fun _ => pure [f (scopes ++ [.attr a.name]) c]) :
    attrList visitors scopes attrs =
      forM (attrs.flatMap fun a => a.value.inner.map (.mk (scopes ++ [.attr a.name]))) act >>=
        fun _ => pure (attrs.map fun a => { a with
          value := a.value.withInner (a.value.inner.map (f (scopes ++ [.attr a.name]))) }) := by
  induction attrs with
  | nil => simp [attrList]
  | cons a attrs ih =>
    rw [List.forall_mem_cons] at h
    rw [attrList_cons, list_of_acts _ h.1, ih h.2]
    simp

/-- Where the visitors do something at each part and put one node in its place, the walk does that for
all parts in their order. -/
theorem below_of_acts {p : Placed} (h : ∀ q ∈ p.parts,
      node visitors q.scopes q.node = act q >>= fun _ => pure [f q.scopes q.node]) :
    below visitors p.scopes p.node =
      forM p.parts act >>= fun _ => pure (p.node.onParts f p.scopes) := by
  have hattrs := attrList_of_acts fun a ha c hc =>
    h ⟨p.inside ++ [.attr a.name], c⟩ (Placed.mem_parts.mpr (.inl ⟨a, ha, c, hc, rfl⟩))
  have hlist := list_of_acts p.inside fun c hc => h _ (Placed.mem_parts.mpr (.inr ⟨c, hc, rfl⟩))
  rw [below_eq, Node.onParts, Placed.parts]
  cases hscope : Scope.of? p.node with
  | none =>
    rw [Node.withParts_eq_self hscope, Node.attrs_of_leaf hscope, Node.children_of_leaf hscope]
    simp
  | some scope =>
    rw [Placed.inside_eq hscope] at hattrs hlist
    dsimp only
    rw [hattrs, hlist, Placed.inside_eq hscope]
    simp

theorem below_of_pure
    (ha : ∀ a ∈ n.attrs, ∀ c ∈ a.value.inner, ∀ scopes, scopes ≠ [] →
      node visitors scopes c = pure [f scopes c])
    (hc : ∀ c ∈ n.children, ∀ scopes, scopes ≠ [] → node visitors scopes c = pure [f scopes c]) :
    below visitors scopes n = pure (n.onParts f scopes) := by
  have hparts : ∀ q ∈ (Placed.mk scopes n).parts,
      node visitors q.scopes q.node = pure () >>= fun _ => pure [f q.scopes q.node] := by
    intro q hq
    rw [pure_bind]
    rcases Placed.mem_parts.mp hq with ⟨a, hm, c, hin, rfl⟩ | ⟨c, hm, rfl⟩
    · exact ha a hm c hin _ (List.concat_ne_nil _ _)
    · refine hc c hm _ fun hnil => ?_
      rw [Node.children_of_leaf (Option.toList_eq_nil_iff.mp (List.append_eq_nil_iff.mp hnil).2)] at hm
      cases hm
  have hnothing (ps : List Placed) : forM ps (fun _ => pure ()) = (pure () : m Unit) := by
    induction ps with
    | nil => rfl
    | cons p ps ih => rw [List.forM_cons, pure_bind, ih]
  rw [below_of_acts hparts, hnothing, pure_bind]

end Map

end Walk

end Lamina
