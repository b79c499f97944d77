import Lamina.Proofs.Walk.Returns

/-! The order of a walk. Visitors that change nothing are called at every node in their order,
before anything below it and again after everything below it, with the scopes of its ancestors. -/

namespace Lamina

/-- A turn of the visitors: the walk comes to a node, or everything below the node is done. -/
inductive Turn
  | enter (p : Placed)
  | leave (p : Placed)

namespace Placed

/-- The turns for a node and everything below it. -/
def turns (p : Placed) : List Turn :=
  .enter p :: (p.parts.attach.flatMap fun q => turns q.1) ++ [.leave p]
termination_by p.node.weight
decreasing_by exact weight_lt_of_mem_parts q.2

theorem turns_eq (p : Placed) : p.turns = .enter p :: p.parts.flatMap turns ++ [.leave p] := by
  rw [turns]
  simp

theorem turns_infix {p q : Placed} (h : q ∈ p.node.placed p.scopes) : q.turns <:+: p.turns := by
  induction p using byParts with
  | parts p ih =>
    rw [placed_eq_parts, List.mem_append, List.mem_flatMap, List.mem_singleton] at h
    rcases h with ⟨r, hr, hq⟩ | rfl
    · have hparts : r.turns <:+: p.parts.flatMap turns :=
        List.infix_of_mem_flatten (List.mem_map_of_mem hr)
      rw [turns_eq p]
      exact (ih r hr hq).trans (hparts.trans ⟨[.enter p], [.leave p], rfl⟩)
    · exact List.infix_rfl

end Placed

variable {m : Type → Type} [Monad m]

/-- The visitor leaves every node as it is and lets the walk go on, whatever else it does. -/
structure Visitor.Passive (v : Visitor m) : Prop where
  enter : ∀ scopes n, v.enter scopes n = (fun _ => Entered.go n) <$> v.enter scopes n
  leave : ∀ scopes n, v.leave scopes n = (fun _ => Left.keep n) <$> v.leave scopes n

/-- What the visitor does when it is its turn. -/
def Visitor.take (v : Visitor m) : Turn → m Unit
  | .enter p => (fun _ => ()) <$> v.enter p.scopes p.node
  | .leave p => (fun _ => ()) <$> v.leave p.scopes p.node

namespace Walk

/-- The walk gives the tree back after nothing but the turns of its nodes, in each of which every
visitor is called, the first one first; and the turns of what stands below a node, its attribute
values before its children, are all between the two turns of the node. -/
structure Orderly (visitors : List (Visitor m)) (t : Node) : Prop where
  run : root visitors t = (do
    forM (Placed.mk [] t).turns fun turn => forM visitors (·.take turn)
    pure t)
  around : ∀ p ∈ t.placed [],
    .enter p :: p.parts.flatMap Placed.turns ++ [.leave p] <:+: (Placed.mk [] t).turns

variable [LawfulMonad m] {visitors : List (Visitor m)}

theorem forM_flatMap {α β : Type} (l : List α) (g : α → List β) (act : β → m Unit) :
    forM (l.flatMap g) act = forM l fun a => forM (g a) act := by
  induction l with
  | nil => rfl
  | cons a l ih => simp [ih]

theorem enterAll_passive (h : ∀ v ∈ visitors, v.Passive) (p : Placed) :
    enterAll p.scopes p.node visitors =
      forM visitors (·.take (.enter p)) >>= fun _ => pure (.go p.node) := by
  induction visitors with
  | nil => simp [enterAll]
  | cons v visitors ih =>
    rw [List.forall_mem_cons] at h
    rw [enterAll, h.1.enter]
    simp [Visitor.take, Entered.go, ih h.2]

theorem leaveAll_passive (h : ∀ v ∈ visitors, v.Passive) (p : Placed) :
    leaveAll p.scopes p.node visitors =
      forM visitors (·.take (.leave p)) >>= fun _ => pure [p.node] := by
  induction visitors with
  | nil => simp [leaveAll]
  | cons v visitors ih =>
    rw [List.forall_mem_cons] at h
    rw [leaveAll, h.1.leave]
    simp [Visitor.take, ih h.2]

theorem node_passive (h : ∀ v ∈ visitors, v.Passive) (p : Placed) :
    node visitors p.scopes p.node =
      forM p.turns (fun turn => forM visitors (·.take turn)) >>= fun _ => pure [p.node] := by
  induction p using Placed.byParts with
  | parts p ih =>
    have hbelow := below_of_acts (f := fun _ c => c) ih
    rw [Node.onParts_id] at hbelow
    rw [node, enterAll_passive h, p.turns_eq]
    simp [Entered.go, hbelow, leaveAll_passive h, forM_flatMap]

/-- A template comes back from visitors that change nothing as it went in, and they are called in
the order of the tree: the scopes of a turn are those of the node's ancestors, with one for the
attribute above a node in the value of an attribute. -/
theorem passive_walk_is_orderly (h : ∀ v ∈ visitors, v.Passive) (children : List Node)
    (o : Origin) : Orderly visitors (.template children o) := by
  refine ⟨?_, fun p hp => ?_⟩
  · have hnode := node_passive h ⟨[], .template children o⟩
    dsimp only at hnode
    rw [root, hnode]
    simp
  · rw [← p.turns_eq]
    exact Placed.turns_infix hp

/-- Writes its name and the turn down each time. -/
def recorder (name : String) : Visitor (StateM (List (String × Turn))) where
  enter scopes n := do
    modify (· ++ [(name, .enter ⟨scopes, n⟩)])
    pure (.go n)
  leave scopes n := do
    modify (· ++ [(name, .leave ⟨scopes, n⟩)])
    pure (.keep n)

/-- `<p title="a">b</p>`. -/
def titled : Node :=
  let o := Origin.of "page" 1 .html "p"
  .template [.tag "p" [⟨"title", .quoted '"' [.raw "a" o], o⟩] [.raw "b" o] .pair o] o

theorem passive_walk_is_orderly_recorders :
    (∀ v ∈ [recorder "a", recorder "b"], v.Passive) ∧
      Orderly [recorder "a", recorder "b"] titled :=
  have h (name : String) : (recorder name).Passive := ⟨fun _ _ => rfl, fun _ _ => rfl⟩
  have hall : ∀ v ∈ [recorder "a", recorder "b"], v.Passive := by simp [h]
  ⟨hall, passive_walk_is_orderly hall _ _⟩

end Walk

end Lamina
