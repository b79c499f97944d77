import Lamina.Proofs.Pass.Pieces
import Lamina.Proofs.Walk.Lockstep

/-! What preparing and linking make of one node before anything below it is walked: the node stays,
goes away, or becomes a construct, unless a name is missing or unknown. -/

namespace Lamina

namespace Node

def isTag : Node → Bool
  | tag .. => true
  | _ => false

def Named (p : String → Prop) : Node → Prop
  | tag name _ _ _ _ => p name
  | _ => True

def IsHidden : Node → Prop
  | tag name _ _ _ _ => name = "hidden"
  | _ => False

/-- The name is one of a family, as `block:header` is one of `block`. -/
def InFamily (family name : String) : Prop := family.toList ++ [':'] <+: name.toList

instance (family name : String) : Decidable (InFamily family name) :=
  inferInstanceAs (Decidable (_ <+: _))

theorem suffix?_eq_none_iff {family name : String} :
    suffix? family name = none ↔ ¬ InFamily family name := by
  rw [suffix?, Option.map_eq_none_iff, Option.eq_none_iff_forall_ne_some, InFamily]
  constructor
  · rintro h ⟨rest, he⟩
    exact h rest (Text.isPrefixOf?_eq_some.mpr he.symm)
  · intro h rest he
    exact h ⟨rest, (Text.isPrefixOf?_eq_some.mp he).symm⟩

/-- No element of a prepared template has one of the other names. -/
structure PreparedName (name : String) : Prop where
  block : ¬ InFamily "block" name
  hidden : name ≠ "hidden"
  stack : ¬ InFamily "stack" name

end Node

/-- The outcome of entering a node is as `R` has it: nothing, or the node below which to go. -/
def Entered.Opens (R : Option Node → Prop) {n : Node} : Entered n → Prop
  | keep m _ descend => R (some m) ∧ descend = true
  | replace nodes => R none ∧ nodes = []

/-- Entering a node fails, or the outcome is as `R` has it. -/
inductive Entering (R : Option Node → Prop) {n : Node} : WalkM (Entered n) → Prop
  | opens {e : Entered n} (h : e.Opens R) : Entering R (pure e)
  | fails (failure : Failure) : Entering R (throw failure)

theorem Entering.enterAll {v : Visitor WalkM} {vs : List (Visitor WalkM)} {scopes : List Scope}
    {n : Node} {R R' : Option Node → Prop} (hv : Entering R (v.enter scopes n))
    (hvs : ∀ m, R (some m) → Entering R' (Walk.enterAll scopes m vs))
    (hnone : R none → R' none) : Entering R' (Walk.enterAll scopes n (v :: vs)) := by
  rw [Walk.enterAll]
  generalize v.enter scopes n = x at hv
  cases hv with
  | fails failure => exact .fails failure
  | @opens first hopens =>
    rw [pure_bind]
    cases first with
    | replace nodes => exact .opens ⟨hnone hopens.1, hopens.2⟩
    | keep m light descend =>
      obtain ⟨hm, rfl⟩ := hopens
      have hrest := hvs m hm
      dsimp only
      generalize Walk.enterAll scopes m vs = y at hrest
      cases hrest with
      | fails failure => exact .fails failure
      | @opens next hopens =>
        rw [pure_bind]
        cases next with
        | replace nodes => exact .opens hopens
        | keep => exact .opens hopens

theorem Walk.enterAll_eq_go {vs : List (Visitor WalkM)} {scopes : List Scope} {n : Node}
    (h : ∀ v ∈ vs, v.enter scopes n = pure (.go n)) : enterAll scopes n vs = pure (.go n) := by
  induction vs with
  | nil => rfl
  | cons v vs ih =>
    rw [List.forall_mem_cons] at h
    rw [enterAll, h.1, pure_bind]
    dsimp only [Entered.go]
    rw [ih h.2, pure_bind]
    rfl

namespace Pass

open Node

inductive Opens : Node → Option Node → Prop
  | other {n : Node} (h : n.isTag = false) : Opens n (some n)
  | element {name : String} {attrs more : List (Attr Node)} {children rest : List Node}
      {closing : Closing} {o : Origin} (split : splitAttrs children = .ok (more, rest))
      (prepared : PreparedName name) :
      Opens (.tag name attrs children closing o) (some (.tag name (attrs ++ more) rest closing o))
  | hidden {attrs more : List (Attr Node)} {children rest : List Node} {closing : Closing}
      {o : Origin} (split : splitAttrs children = .ok (more, rest)) :
      Opens (.tag "hidden" attrs children closing o) none
  | block {name slot : String} {attrs more : List (Attr Node)} {children rest : List Node}
      {closing : Closing} {o : Origin} (split : splitAttrs children = .ok (more, rest))
      (family : suffix? "block" name = some slot) :
      Opens (.tag name attrs children closing o) (some (.block slot rest o))
  | stack {name stack operation : String} {attrs more : List (Attr Node)}
      {children rest : List Node} {closing : Closing} {o : Origin}
      (split : splitAttrs children = .ok (more, rest))
      (family : suffix? "stack" name = some operation) :
      Opens (.tag name attrs children closing o) (some (.stack stack rest o))
  | push {name stack operation : String} {prepend : Bool} {attrs more : List (Attr Node)}
      {children rest : List Node} {closing : Closing} {o : Origin}
      (split : splitAttrs children = .ok (more, rest))
      (family : suffix? "stack" name = some operation) :
      Opens (.tag name attrs children closing o) (some (.push stack prepend rest o))

variable {r : Resolver} {scopes : List Scope}

def preparers (r : Resolver) : List (Visitor WalkM) := prepare.map fun pass => pass r

section Enter

variable {name : String} {attrs : List (Attr Node)} {children : List Node} {closing : Closing}
  {o : Origin}

theorem attrTags_opens : Entering (fun m => ∃ more rest, splitAttrs children = .ok (more, rest) ∧
      m = some (.tag name (attrs ++ more) rest closing o))
    ((attrTags r).enter scopes (.tag name attrs children closing o)) := by
  dsimp only [attrTags, Visitor.onEnter]
  split
  · exact .fails _
  · next more rest hsplit => exact .opens ⟨⟨more, rest, hsplit, rfl⟩, rfl⟩

theorem blockTags_opens :
    Entering (fun m => (¬ InFamily "block" name ∧ m = some (.tag name attrs children closing o)) ∨
      ∃ slot, suffix? "block" name = some slot ∧ m = some (.block slot children o))
    ((blockTags r).enter scopes (.tag name attrs children closing o)) := by
  dsimp only [blockTags, Visitor.onEnter]
  split
  · next hnone => exact .opens ⟨.inl ⟨suffix?_eq_none_iff.mp hnone, rfl⟩, rfl⟩
  · next slot hslot =>
    split
    · exact .fails _
    · exact .opens ⟨.inr ⟨slot, hslot, rfl⟩, rfl⟩

theorem hiddenTags_opens {n : Node} :
    Entering (fun m => (n.IsHidden ∧ m = none) ∨ (¬ n.IsHidden ∧ m = some n))
      ((hiddenTags r).enter scopes n) := by
  dsimp only [hiddenTags, Visitor.onEnter]
  split
  · exact .opens ⟨.inl ⟨rfl, rfl⟩, rfl⟩
  · next hne =>
    refine .opens ⟨.inr ⟨fun hidden => ?_, rfl⟩, rfl⟩
    cases n with
    | tag name attrs children closing o =>
      cases (hidden : name = "hidden")
      exact hne _ _ _ _ rfl
    | _ => exact hidden

theorem stackTags_opens :
    Entering (fun m => (¬ InFamily "stack" name ∧ m = some (.tag name attrs children closing o)) ∨
      ∃ operation stack prepend, suffix? "stack" name = some operation ∧
        (m = some (.stack stack children o) ∨ m = some (.push stack prepend children o)))
    ((stackTags r).enter scopes (.tag name attrs children closing o)) := by
  dsimp only [stackTags, Visitor.onEnter]
  split
  · next hnone => exact .opens ⟨.inl ⟨suffix?_eq_none_iff.mp hnone, rfl⟩, rfl⟩
  · next operation hoperation =>
    split
    · exact .fails _
    · next stack _ =>
      split
      · exact .opens ⟨.inr ⟨operation, stack, false, hoperation, .inl rfl⟩, rfl⟩
      · split
        · exact .opens ⟨.inr ⟨operation, stack, _, hoperation, .inr rfl⟩, rfl⟩
        · exact .fails _

end Enter

theorem enter_other {v : Visitor WalkM} (hv : v ∈ preparers r) {n : Node}
    (hn : n.isTag = false) : v.enter scopes n = pure (.go n) := by
  simp only [preparers, prepare, List.map_cons, List.map_nil, List.mem_cons, List.not_mem_nil,
    or_false] at hv
  cases n with
  | tag => cases hn
  | _ => rcases hv with rfl | rfl | rfl | rfl <;> rfl

theorem entering_prepare (r : Resolver) (scopes : List Scope) (n : Node) :
    Entering (Opens n) (Walk.enterAll scopes n (preparers r)) := by
  have hgo {vs : List (Visitor WalkM)} (hvs : ∀ v ∈ vs, v ∈ preparers r) {m : Node}
      (hm : m.isTag = false) (hopens : Opens n (some m)) :
      Entering (Opens n) (Walk.enterAll scopes m vs) := by
    rw [Walk.enterAll_eq_go fun v hv => enter_other (hvs v hv) hm]
    exact .opens ⟨hopens, rfl⟩
  cases n with
  | tag name attrs children closing o =>
    refine attrTags_opens.enterAll ?_ (by simp)
    rintro _ ⟨more, rest, hsplit, ⟨⟩⟩
    refine blockTags_opens.enterAll ?_ (by simp)
    rintro _ (⟨hblock, ⟨⟩⟩ | ⟨slot, hslot, ⟨⟩⟩)
    · refine hiddenTags_opens.enterAll ?_ ?_
      · rintro _ (⟨-, ⟨⟩⟩ | ⟨hhidden, ⟨⟩⟩)
        refine stackTags_opens.enterAll ?_ (by simp)
        rintro m (⟨hstack, ⟨⟩⟩ | ⟨operation, stack, prepend, hoperation, ⟨⟨⟩⟩ | ⟨⟨⟩⟩⟩)
        · exact .opens ⟨.element hsplit ⟨hblock, hhidden, hstack⟩, rfl⟩
        · exact .opens ⟨.stack hsplit hoperation, rfl⟩
        · exact .opens ⟨.push hsplit hoperation, rfl⟩
      · rintro (⟨hhidden, -⟩ | ⟨-, ⟨⟩⟩)
        cases (hhidden : name = "hidden")
        exact .hidden hsplit
    · exact hgo (fun v hv => .tail _ (.tail _ hv)) rfl (.block hsplit hslot)
  | _ => exact hgo (fun v hv => hv) rfl (.other rfl)

/-- What the pass that puts fragments in place makes of a node on entering it. -/
inductive Links (n : Node) : Option Node → Prop
  | declared : Links n none
  | same (h : n.Named fun name => name ≠ "use" ∧ ¬ InFamily "include" name) : Links n (some n)
  | fragment (path : String) : Links n (some (.fragment path n.attrs n.children n.origin))

/-- Entering a node loads nothing, so any two resolvers do for the comparison. -/
theorem imports_links {W : Type} [Preorder W] {admits : W → Failure → Prop}
    {L : Lockstep W LoadM admits} {J : W → Notes → Prop} {w : W} {r' : Resolver} {n : Node}
    (hJ : ∀ t aliases, J w t → J w { t with aliases })
    (hfail : ∀ fault, admits w (.merge fault n.origin.path n.origin.line)) :
    (L.withState J).holds w ((imports r).enter scopes n) ((imports r').enter scopes n)
      fun _ => Entered.Opens (Links n) := by
  cases n with
  | tag name attrs children closing o =>
    simp only [imports]
    split
    · split
      · exact Lockstep.ofFailure _ (hfail _)
      · refine Lockstep.ofBind _ (Lockstep.ofModify fun t ht => hJ t _ ht) fun w' _ _ _ => ?_
        exact Lockstep.ofPure _ ⟨.declared, rfl⟩
    · next huse =>
      refine Lockstep.ofBind _ Lockstep.ofGet fun w' notes _ _ => ?_
      split
      · next hpath =>
        refine Lockstep.ofPure _ ⟨.same ⟨huse, suffix?_eq_none_iff.mp ?_⟩, rfl⟩
        cases hs : suffix? "include" name with
        | none => rfl
        | some suffix => simp [fragmentPath?, hs] at hpath
      · next path _ => exact Lockstep.ofPure _ ⟨.fragment path, rfl⟩
  | _ => exact Lockstep.ofPure _ ⟨.same trivial, rfl⟩

end Pass

end Lamina
