import Lamina.Proofs.Node.Trait

/-! The origins in a tree: those of its nodes and of their attributes, attribute values included. A
property of all of them is a trait of the tree. -/

namespace Lamina

namespace Node

mutual

def origins : Node → List Origin
  | template children o => o :: originsAll children
  | raw _ o => [o]
  | tag _ attrs children _ o => o :: (originsAttrs attrs ++ originsAll children)
  | directive _ _ _ o => [o]
  | echo _ _ o => [o]
  | host _ o => [o]
  | block _ children o => o :: originsAll children
  | stack _ children o => o :: originsAll children
  | push _ _ children o => o :: originsAll children
  | fragment _ attrs children o => o :: (originsAttrs attrs ++ originsAll children)

def originsAll : List Node → List Origin
  | [] => []
  | node :: rest => origins node ++ originsAll rest

def originsAttrs : List (Attr Node) → List Origin
  | [] => []
  | attr :: rest => originsAttr attr ++ originsAttrs rest

def originsAttr : Attr Node → List Origin
  | ⟨_, value, o⟩ => o :: originsValue value

def originsValue : AttrValue Node → List Origin
  | .bare => []
  | .unquoted _ => []
  | .quoted _ nodes => originsAll nodes
  | .dynamic nodes => originsAll nodes

end

theorem mem_originsAll {o : Origin} {nodes : List Node} :
    o ∈ originsAll nodes ↔ ∃ n ∈ nodes, o ∈ n.origins := by
  induction nodes with
  | nil => simp [originsAll]
  | cons n nodes ih => simp [originsAll, ih]

theorem originsValue_eq (value : AttrValue Node) : originsValue value = originsAll value.inner := by
  cases value <;> simp [originsValue, originsAll, AttrValue.inner]

theorem mem_originsAttrs {o : Origin} {attrs : List (Attr Node)} :
    o ∈ originsAttrs attrs ↔ ∃ a ∈ attrs, o = a.origin ∨ ∃ c ∈ a.value.inner, o ∈ c.origins := by
  induction attrs with
  | nil => simp [originsAttrs]
  | cons a attrs ih =>
    obtain ⟨name, value, o⟩ := a
    simp [originsAttrs, originsAttr, originsValue_eq, mem_originsAll, ih, or_assoc]

theorem origins_eq (n : Node) :
    n.origins = n.origin :: (originsAttrs n.attrs ++ originsAll n.children) := by
  cases n <;> simp [origins, origin, attrs, children, children?, originsAttrs, originsAll]

def Sited (P : Origin → Prop) (n : Node) : Prop := ∀ o ∈ n.origins, P o

end Node

def Attr.Sited (P : Origin → Prop) (a : Attr Node) : Prop :=
  P a.origin ∧ ∀ c ∈ a.value.inner, c.Sited P

namespace Node

variable {P Q : Origin → Prop}

theorem sited_iff {n : Node} :
    n.Sited P ↔ P n.origin ∧ (∀ a ∈ n.attrs, a.Sited P) ∧ ∀ c ∈ n.children, c.Sited P := by
  simp only [Sited, origins_eq n, List.mem_cons, List.mem_append, mem_originsAttrs, mem_originsAll,
    Attr.Sited]
  constructor
  · intro h
    refine ⟨h _ (.inl rfl), fun a ha => ⟨?_, fun c hc o ho => ?_⟩, fun c hc o ho => ?_⟩
    · exact h _ (.inr (.inl ⟨a, ha, .inl rfl⟩))
    · exact h _ (.inr (.inl ⟨a, ha, .inr ⟨c, hc, ho⟩⟩))
    · exact h _ (.inr (.inr ⟨c, hc, ho⟩))
  · rintro ⟨h, ha, hc⟩ o (rfl | ⟨a, hm, rfl | ⟨c, hm', ho⟩⟩ | ⟨c, hm, ho⟩)
    · exact h
    · exact (ha a hm).1
    · exact (ha a hm).2 c hm' o ho
    · exact hc c hm o ho

theorem Sited.imp {n : Node} (h : n.Sited P) (hPQ : ∀ o, P o → Q o) : n.Sited Q :=
  fun o ho => hPQ o (h o ho)

end Node

/-- The trait of constructs and attributes whose origin has the property. -/
def Trait.sited (P : Origin → Prop) : Trait where
  node n := P n.origin
  attr a := P a.origin
  parts {n} _ _ h := by cases n <;> exact h
  value _ h := h
  text _ h := h
  content _ h := h
  asAttr h _ _ := h

theorem Trait.sited_attaches (P : Origin → Prop) (r : Origin) :
    (Trait.sited fun o => P (o.attach r)).Attaches r (.sited P) :=
  ⟨fun n h => by cases n <;> exact h, fun _ _ _ h => h⟩

namespace Node

theorem sited_iff_has {n : Node} : n.Sited P ↔ n.Has (.sited P) := by
  induction n using byParts with
  | parts n iha ihc =>
    rw [sited_iff, has_iff]
    refine and_congr_right fun _ => and_congr ?_ ?_
    · refine forall₂_congr fun a ha => and_congr_right fun _ => ?_
      exact forall₂_congr fun c hc => iha a ha c hc
    · exact forall₂_congr fun c hc => ihc c hc

theorem sited_of_leaf {n : Node} (hs : Scope.of? n = none) (h : P n.origin) : n.Sited P :=
  sited_iff_has.mpr (has_of_leaf hs h)

end Node

theorem Attr.sited_iff_has {P : Origin → Prop} {a : Attr Node} : a.Sited P ↔ a.Has (.sited P) :=
  and_congr_right fun _ => forall₂_congr fun _ _ => Node.sited_iff_has

end Lamina
