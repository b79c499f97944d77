import Lamina.Pass.Merge
import Lamina.Proofs.Node.Parts

/-! Names and the fragments they stand for. A `use` element declares a name for what follows it among
its siblings and for everything below them, so the place of an element tells which fragment it stands
for. What is declared in an attribute value has a longer reach: it is good for the later attributes
of the element too, and for its children up to the first one that declares nothing. -/

namespace Lamina

namespace Node

def isUse : Node → Bool
  | tag name _ _ _ _ => name == "use"
  | _ => false

def declaration? : Node → Option (String × String)
  | tag name attrs _ _ _ => if name = "use" then Pass.declared? attrs else none
  | _ => none

/-- The path of the fragment that an element stands for by its name, where `before` are the nodes
whose declarations are good for it, the nearest first. -/
def target? (before : List Node) (name : String) : Option String :=
  match suffix? "include" name with
  | some suffix => some (Reference.ofSuffix suffix)
  | none => (before.filterMap declaration?).lookup name

def strays (attrs : List (Attr Node)) : List Node := (attrs.flatMap (·.value.inner)).reverse

/-- The nodes whose declarations are good among siblings, where `before` are the earlier ones. -/
def reach (strays before : List Node) : List Node :=
  before ++ if before.all (·.declaration?.isSome) then strays else []

mutual

/-- The tree with a fragment in place of each element that stands for one; what is inside a
declaration stays as it is. -/
def link (before : List Node) : Node → Node
  | tag name attrs children closing o =>
    if name = "use" then tag name attrs children closing o
    else
      match target? before name with
      | some path =>
        fragment path (linkAttrs before attrs) (linkAll (strays attrs) before [] children) o
      | none =>
        tag name (linkAttrs before attrs) (linkAll (strays attrs) before [] children) closing o
  | fragment path attrs children o =>
    fragment path (linkAttrs before attrs) (linkAll (strays attrs) before [] children) o
  | template children o => template (linkAll [] before [] children) o
  | block name children o => block name (linkAll [] before [] children) o
  | stack name children o => stack name (linkAll [] before [] children) o
  | push name prepend children o => push name prepend (linkAll [] before [] children) o
  | raw text o => raw text o
  | directive name values body o => directive name values body o
  | echo expr escape o => echo expr escape o
  | host code o => host code o
termination_by structural n => n

def linkAll (strays outer before : List Node) : List Node → List Node
  | [] => []
  | node :: rest =>
    link (reach strays before ++ outer) node :: linkAll strays outer (node :: before) rest
termination_by structural nodes => nodes

def linkAttrs (before : List Node) : List (Attr Node) → List (Attr Node)
  | [] => []
  | attr :: rest => linkAttr before attr :: linkAttrs (attr.value.inner.reverse ++ before) rest
termination_by structural attrs => attrs

def linkAttr (before : List Node) : Attr Node → Attr Node
  | ⟨name, value, o⟩ => ⟨name, linkValue before value, o⟩
termination_by structural attr => attr

def linkValue (before : List Node) : AttrValue Node → AttrValue Node
  | .bare => .bare
  | .unquoted text => .unquoted text
  | .quoted quote nodes => .quoted quote (linkAll [] before [] nodes)
  | .dynamic nodes => .dynamic (linkAll [] before [] nodes)
termination_by structural value => value

end

theorem linkAttr_parts (before : List Node) (a : Attr Node) :
    (linkAttr before a).name = a.name ∧
      (linkAttr before a).value.inner = linkAll [] before [] a.value.inner ∧
      ∀ nodes, { linkAttr before a with value := (linkAttr before a).value.withInner nodes } =
        { a with value := a.value.withInner nodes } := by
  obtain ⟨name, value, o⟩ := a
  cases value <;> exact ⟨rfl, rfl, fun _ => rfl⟩

theorem link_eq_self_of_isUse {n : Node} (h : n.isUse = true) (before : List Node) :
    link before n = n := by
  cases n with
  | tag name attrs children closing o => rw [link, if_pos (by simpa [isUse] using h)]
  | _ => cases h

theorem children_link {n : Node} (h : n.isUse = false) (before : List Node) :
    (link before n).children = linkAll (strays n.attrs) before [] n.children := by
  cases n with
  | tag name attrs children closing o =>
    rw [link, if_neg (by simpa [isUse] using h)]
    split <;> rfl
  | _ => rfl

theorem attrs_link {n : Node} (h : n.isUse = false) (before : List Node) :
    (link before n).attrs = linkAttrs before n.attrs := by
  cases n with
  | tag name attrs children closing o =>
    rw [link, if_neg (by simpa [isUse] using h)]
    split <;> rfl
  | _ => rfl

theorem parts_link (n : Node) (before : List Node) :
    ((link before n).withParts n.attrs n.children).attrs = n.attrs ∧
      ((link before n).withParts n.attrs n.children).children = n.children := by
  cases n with
  | tag name attrs children closing o =>
    rw [link]
    split
    · exact ⟨rfl, rfl⟩
    · split <;> exact ⟨rfl, rfl⟩
  | _ => exact ⟨rfl, rfl⟩

theorem isUse_link (n : Node) (before : List Node) : (link before n).isUse = n.isUse := by
  cases n with
  | tag name attrs children closing o =>
    rw [link]
    split
    · rfl
    · next hname =>
      split
      · simpa [isUse] using hname
      · rfl
  | _ => rfl

theorem declaration?_of_not_isUse {n : Node} (h : n.isUse = false) : n.declaration? = none := by
  cases n with
  | tag name attrs children closing o => exact if_neg (by simpa [isUse] using h)
  | _ => rfl

theorem origin_link (n : Node) (before : List Node) : (link before n).origin = n.origin := by
  cases n with
  | tag name attrs children closing o =>
    rw [link]
    split
    · rfl
    · split <;> rfl
  | _ => rfl

theorem inner_linkAttr (before : List Node) (a : Attr Node) :
    (linkAttr before a).value.inner = linkAll [] before [] a.value.inner := by
  obtain ⟨name, value, o⟩ := a
  cases value <;> rfl

theorem getElem?_linkAll (strays outer before nodes : List Node) (i : Nat) :
    (linkAll strays outer before nodes)[i]? =
      nodes[i]?.map (link (reach strays ((nodes.take i).reverse ++ before) ++ outer)) := by
  induction nodes generalizing before i with
  | nil => rfl
  | cons n nodes ih =>
    cases i with
    | zero => rfl
    | succ i =>
      rw [linkAll, List.getElem?_cons_succ, ih, List.getElem?_cons_succ, List.take_succ_cons,
        List.reverse_cons, List.append_assoc, List.singleton_append]

theorem getElem?_linkAttrs (before : List Node) (attrs : List (Attr Node)) (j : Nat) :
    (linkAttrs before attrs)[j]? =
      attrs[j]?.map (linkAttr (strays (attrs.take j) ++ before)) := by
  induction attrs generalizing before j with
  | nil => rfl
  | cons a attrs ih =>
    cases j with
    | zero => rfl
    | succ j =>
      rw [linkAttrs, List.getElem?_cons_succ, ih, List.getElem?_cons_succ, List.take_succ_cons,
        strays, strays, List.flatMap_cons, List.reverse_append, List.append_assoc]

/-- One step down a tree: to a child, or into the value of an attribute. -/
inductive Step
  | child (i : Nat)
  | inner (j i : Nat)

def step? (n : Node) : Step → Option Node
  | .child i => n.children[i]?
  | .inner j i => n.attrs[j]?.bind fun a => a.value.inner[i]?

def at? : List Step → Node → Option Node
  | [], n => some n
  | step :: place, n => (n.step? step).bind (at? place)

def above : List Step → Node → List Node
  | [], _ => []
  | step :: place, n => n :: (n.step? step).elim [] (above place)

/-- The nodes in front of a place in the same list, the nearest first. -/
def siblings (n : Node) : Step → List Node
  | .child i => (n.children.take i).reverse
  | .inner j i => ((n.attrs[j]?.elim [] (·.value.inner)).take i).reverse

/-- The nodes in front of a place or of a node around it, each in its own list, the nearest first. -/
def preceding : List Step → Node → List Node
  | [], _ => []
  | step :: place, n => (n.step? step).elim [] (preceding place) ++ n.siblings step

/-- The nodes of attribute values whose declarations reach a place outside of their value. -/
def leaked (n : Node) : Step → List Node
  | .child i => if (n.children.take i).all (·.declaration?.isSome) then strays n.attrs else []
  | .inner j _ => strays (n.attrs.take j)

/-- The nodes whose declarations are good at a place, the nearest first. -/
def visible : List Step → Node → List Node
  | [], _ => []
  | step :: place, n =>
    (n.step? step).elim [] (visible place) ++ (n.siblings step ++ n.leaked step)

theorem step?_link {n : Node} (h : n.isUse = false) (before : List Node) (step : Step) :
    (link before n).step? step =
      (n.step? step).map (link (n.siblings step ++ n.leaked step ++ before)) := by
  cases step with
  | child i =>
    rw [step?, children_link h, getElem?_linkAll, step?, List.append_nil, reach, siblings, leaked,
      List.all_reverse]
  | inner j i =>
    rw [step?, attrs_link h, getElem?_linkAttrs, step?]
    cases ha : n.attrs[j]? with
    | none => rfl
    | some a =>
      simp only [Option.map_some, Option.bind_some, inner_linkAttr, getElem?_linkAll, siblings,
        leaked, ha, Option.elim_some, reach, List.append_nil, ite_self, List.append_assoc]

theorem at?_link {place : List Step} {n : Node} (h : ∀ m ∈ n.above place, m.isUse = false)
    (before : List Node) :
    (link before n).at? place = (n.at? place).map (link (n.visible place ++ before)) := by
  induction place generalizing n before with
  | nil => rfl
  | cons step place ih =>
    rw [above, List.forall_mem_cons] at h
    rw [at?, step?_link h.1, at?, visible]
    cases hm : n.step? step with
    | none => rfl
    | some m =>
      rw [hm] at h
      simp only [Option.map_some, Option.bind_some, Option.elim_some, ih h.2, List.append_assoc]

theorem mem_inner_of_mem_leaked {n c : Node} {step : Step} (h : c ∈ n.leaked step) :
    ∃ a ∈ n.attrs, c ∈ a.value.inner := by
  cases step with
  | child i =>
    rw [leaked] at h
    split at h
    · exact List.mem_flatMap.mp (List.mem_reverse.mp h)
    · cases h
  | inner j i =>
    obtain ⟨a, ha, hc⟩ := List.mem_flatMap.mp (List.mem_reverse.mp h)
    exact ⟨a, List.mem_of_mem_take ha, hc⟩

/-- Unless an element around the place has declarations in its attribute values, what is declared at
a place is what the preceding nodes declare. -/
theorem declarations_visible {place : List Step} {n : Node}
    (h : ∀ m ∈ n.above place, ∀ a ∈ m.attrs, ∀ c ∈ a.value.inner, c.declaration? = none) :
    (n.visible place).filterMap declaration? = (n.preceding place).filterMap declaration? := by
  induction place generalizing n with
  | nil => rfl
  | cons step place ih =>
    rw [above, List.forall_mem_cons] at h
    have hleaked : (n.leaked step).filterMap declaration? = [] := by
      refine List.filterMap_eq_nil_iff.mpr fun c hc => ?_
      obtain ⟨a, ha, hc⟩ := mem_inner_of_mem_leaked hc
      exact h.1 a ha c hc
    rw [visible, preceding]
    simp only [List.filterMap_append, hleaked, List.append_nil]
    cases hm : n.step? step with
    | none => rfl
    | some m =>
      rw [hm] at h
      simp only [Option.elim_some, ih h.2]

end Node

end Lamina
