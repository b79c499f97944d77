import Lamina.Builder
import Lamina.Proofs.Node.Everywhere
import Lamina.Proofs.Node.Linking
import Mathlib.Tactic.Choose

/-! Declared names, as the walk keeps track of them. The walk has a table of the declarations so far
with the depths they were made at, and strikes out those that are too deep whenever it leaves a node.
This comes to the same as to link the tree first and to know of no names from then on. -/

namespace Lamina

/-- `x` does what `y` does and turns the table of declarations from `t` into `t'`, where `y` has no
use for one and keeps no notes at all. -/
def Follows {α : Type} (t t' : List Alias) (x y : WalkM α) : Prop :=
  ∃ z : LoadM α, (∀ c, x.run ⟨t, c⟩ = (fun a => (a, ⟨t', c⟩)) <$> z) ∧
    ∀ notes, y.run notes = (fun a => (a, notes)) <$> z

namespace Follows

variable {α β : Type} {t t' t'' : List Alias}

theorem ofPure (a : α) : Follows t t (pure a) (pure a) :=
  ⟨pure a, fun _ => rfl, fun _ => rfl⟩

theorem ofBind {x y : WalkM α} {f g : α → WalkM β} (hx : Follows t t' x y)
    (hf : ∀ a, Follows t' t'' (f a) (g a)) : Follows t t'' (x >>= f) (y >>= g) := by
  obtain ⟨z, hx, hy⟩ := hx
  choose w hf hg using hf
  refine ⟨z >>= w, fun c => ?_, fun notes => ?_⟩
  · rw [StateT.run_bind, hx, bind_map_left, map_bind]
    exact bind_congr fun a => hf a c
  · rw [StateT.run_bind, hy, bind_map_left, map_bind]
    exact bind_congr fun a => hg a notes

theorem ofThrow (failure : Failure) :
    Follows t t' (throw failure : WalkM α) (throw failure) :=
  ⟨throw failure, fun _ => rfl, fun _ => rfl⟩

theorem ofLift (z : LoadM α) : Follows t t (liftM z) (liftM z) :=
  ⟨z, fun _ => rfl, fun _ => rfl⟩

theorem ofModify {f : Notes → Notes} (hf : ∀ c, f ⟨t, c⟩ = ⟨t', c⟩) :
    Follows t t' (modify f) (pure ()) :=
  ⟨pure (), fun c => congrArg (fun notes => (pure ((), notes) : LoadM (Unit × Notes))) (hf c),
    fun _ => rfl⟩

theorem of_run_eq {x x' y : WalkM α} (h : ∀ c, x.run ⟨t, c⟩ = x'.run ⟨t, c⟩)
    (hx : Follows t t' x' y) : Follows t t' x y := by
  obtain ⟨z, hx, hy⟩ := hx
  exact ⟨z, fun c => (h c).trans (hx c), hy⟩

theorem run'_eq {x y : WalkM α} (h : Follows [] t x y) : x.run' {} = y.run' {} := by
  obtain ⟨z, hx, hy⟩ := h
  rw [StateT.run'_eq, StateT.run'_eq, hx [], hy, Functor.map_map, Functor.map_map]

end Follows

def Mirrors (t : List Alias) (nodes : List Node) : Prop :=
  t.map (fun a => (a.name, a.path)) = nodes.filterMap Node.declaration?

namespace Mirrors

theorem fragmentPath?_eq {t : List Alias} {before : List Node} (h : Mirrors t before)
    (name : String) : Pass.fragmentPath? t name = Node.target? before name := by
  have hlookup : (t.find? (·.name == name)).map (·.path) =
      (t.map fun a => (a.name, a.path)).lookup name := by
    clear h
    induction t with
    | nil => rfl
    | cons a t ih =>
      by_cases ha : a.name = name
      · simp [ha]
      · have hne : (name == a.name) = false := beq_false_of_ne (Ne.symm ha)
        simp [List.lookup_cons, ha, hne, ih]
  rw [h] at hlookup
  unfold Pass.fragmentPath? Node.target?
  cases Node.suffix? "include" name with
  | some suffix => rfl
  | none => exact hlookup

end Mirrors

/-- The table after a node at the given depth. -/
def Alias.after (depth : Nat) (t : List Alias) (n : Node) : List Alias :=
  match n.declaration? with
  | some (name, path) => ⟨depth, name, path⟩ :: t
  | none => t.filter (·.depth ≤ depth)

/-- The table among siblings at a depth: declarations made in attribute values are one deeper than
all others, and the first sibling that declares nothing strikes them out. -/
structure Scoped (depth : Nat) (strays outer before : List Node) (t : List Alias) : Prop where
  bound : ∀ a ∈ t, a.depth ≤ depth + 1
  all : Mirrors t (Node.reach strays before ++ outer)
  own : Mirrors (t.filter (·.depth ≤ depth)) (before ++ outer)

theorem Scoped.after {depth : Nat} {strays outer before : List Node} {t : List Alias}
    (h : Scoped depth strays outer before t) (n : Node) :
    Scoped depth strays outer (n :: before) (Alias.after depth t n) := by
  obtain ⟨bound, all, own⟩ := h
  cases hn : n.declaration? with
  | none =>
    have hafter : Alias.after depth t n = t.filter (·.depth ≤ depth) := by rw [Alias.after, hn]
    have hown : Mirrors (t.filter (·.depth ≤ depth)) (n :: before ++ outer) := by
      rw [Mirrors, List.cons_append, List.filterMap_cons_none hn]
      exact own
    rw [hafter]
    refine ⟨fun a ha => bound a (List.mem_filter.mp ha).1, ?_, ?_⟩
    · rw [Node.reach, if_neg (by simp [hn]), List.append_nil]
      exact hown
    · rw [List.filter_filter]
      simp only [Bool.and_self]
      exact hown
  | some d =>
    have hafter : Alias.after depth t n = ⟨depth, d.1, d.2⟩ :: t := by rw [Alias.after, hn]
    rw [hafter]
    refine ⟨List.forall_mem_cons.mpr ⟨by simp, bound⟩, ?_, ?_⟩
    · rw [Mirrors, List.map_cons, all, Node.reach, Node.reach]
      simp [hn]
    · rw [Mirrors, List.filter_cons_of_pos (by simp), List.map_cons, own, List.cons_append,
        List.filterMap_cons_some hn]

theorem Scoped.afterAll {depth : Nat} {strays outer before : List Node} {t : List Alias}
    (h : Scoped depth strays outer before t) (nodes : List Node) :
    Scoped depth strays outer (nodes.reverse ++ before) (nodes.foldl (Alias.after depth) t) := by
  induction nodes generalizing before t with
  | nil => exact h
  | cons n nodes ih =>
    rw [List.foldl_cons, List.reverse_cons, List.append_assoc]
    exact ih (h.after n)

namespace Alias

/-- The table after the attributes of an element, whose values are at the given depth. -/
def afterAttrs (depth : Nat) (t : List Alias) (attrs : List (Attr Node)) : List Alias :=
  attrs.foldl (fun t a => a.value.inner.foldl (after depth) t) t

variable {depth d : Nat} {t : List Alias}

theorem filter_after (h : d < depth) (n : Node) :
    (after depth t n).filter (·.depth ≤ d) = t.filter (·.depth ≤ d) := by
  rw [after]
  split
  · exact List.filter_cons_of_neg (by simpa using h)
  · rw [List.filter_filter]
    refine List.filter_congr fun a _ => ?_
    simp only [Bool.and_eq_left_iff_imp, decide_eq_true_eq]
    omega

theorem filter_afterAll (h : d < depth) (nodes : List Node) :
    (nodes.foldl (after depth) t).filter (·.depth ≤ d) = t.filter (·.depth ≤ d) := by
  induction nodes generalizing t with
  | nil => rfl
  | cons n nodes ih => rw [List.foldl_cons, ih, filter_after h]

theorem filter_afterAttrs (h : d < depth) (attrs : List (Attr Node)) :
    (afterAttrs depth t attrs).filter (·.depth ≤ d) = t.filter (·.depth ≤ d) := by
  induction attrs generalizing t with
  | nil => rfl
  | cons a attrs ih =>
    rw [afterAttrs, List.foldl_cons]
    exact ih.trans (filter_afterAll h _)

theorem bound_after (h : ∀ a ∈ t, a.depth ≤ depth) (n : Node) :
    ∀ a ∈ after depth t n, a.depth ≤ depth := by
  rw [after]
  split
  · exact List.forall_mem_cons.mpr ⟨Nat.le_refl _, h⟩
  · exact fun a ha => h a (List.mem_filter.mp ha).1

theorem bound_afterAll (h : ∀ a ∈ t, a.depth ≤ depth) (nodes : List Node) :
    ∀ a ∈ nodes.foldl (after depth) t, a.depth ≤ depth := by
  induction nodes generalizing t with
  | nil => exact h
  | cons n nodes ih => exact ih (bound_after h n)

theorem scoped_value {before : List Node} (hbound : ∀ a ∈ t, a.depth ≤ depth)
    (ht : Mirrors t before) : Scoped depth [] before [] t := by
  have hall : t.filter (·.depth ≤ depth) = t := List.filter_eq_self.mpr fun a ha => by
    simpa using hbound a ha
  refine ⟨fun a ha => Nat.le_succ_of_le (hbound a ha), ht, ?_⟩
  rw [hall]
  exact ht

theorem mirrors_value {before : List Node} (hbound : ∀ a ∈ t, a.depth ≤ depth)
    (ht : Mirrors t before) (nodes : List Node) :
    Mirrors (nodes.foldl (after depth) t) (nodes.reverse ++ before) := by
  have hall := ((scoped_value hbound ht).afterAll nodes).all
  simpa only [Node.reach, ite_self, List.append_nil] using hall

theorem mirrors_afterAttrs {before : List Node} (hbound : ∀ a ∈ t, a.depth ≤ depth)
    (ht : Mirrors t before) (attrs : List (Attr Node)) :
    Mirrors (afterAttrs depth t attrs) (Node.strays attrs ++ before) := by
  induction attrs generalizing t before with
  | nil => exact ht
  | cons a attrs ih =>
    rw [afterAttrs, List.foldl_cons, Node.strays, List.flatMap_cons, List.reverse_append,
      List.append_assoc]
    exact ih (bound_afterAll hbound _) (mirrors_value hbound ht _)

theorem bound_afterAttrs (h : ∀ a ∈ t, a.depth ≤ depth) (attrs : List (Attr Node)) :
    ∀ a ∈ afterAttrs depth t attrs, a.depth ≤ depth := by
  induction attrs generalizing t with
  | nil => exact h
  | cons a attrs ih => exact ih (bound_afterAll h _)

end Alias

namespace Pass

/-- Fragments are put where they are named, declarations are taken out, and no name means anything. -/
def splicing : Pass := fun resolver =>
  { enter := fun _ n =>
      match n with
      | .tag name attrs children closing o =>
        if name = "use" then
          match declared? attrs with
          | none => unmergeable o .usePathMissing
          | some _ => return .replace []
        else return .go (.tag name attrs children closing o)
      | n => pure (.go n)
    leave := fun _ n =>
      match n with
      | .fragment path attrs children o => do
        let fragment ← resolver.fragment path o
        return .replace (splice attrs children o fragment)
      | n => return .keep n }

variable {t : List Alias} (strict : Bool) (r : Resolver) (scopes : List Scope)

theorem imports_leave_follows (n : Node) :
    Follows t (t.filter (·.depth ≤ scopes.length)) ((imports r).leave scopes n)
      ((splicing r).leave scopes n) := by
  have hprune : Follows t (t.filter (·.depth ≤ scopes.length)) (modify fun notes =>
      { notes with aliases := notes.aliases.filter (·.depth ≤ scopes.length) }) (pure ()) :=
    .ofModify fun _ => rfl
  rw [← pure_bind () fun _ => (splicing r).leave scopes n]
  refine .ofBind hprune fun _ => ?_
  cases n with
  | fragment path attrs children o => exact .ofBind (.ofLift _) fun fragment => .ofPure _
  | _ => exact .ofPure _

theorem extension_leave_follows (n : Node) :
    Follows t t ((extension strict r).leave scopes n) ((extension strict r).leave scopes n) := by
  cases n with
  | template children o =>
    simp only [extension, Visitor.onLeave]
    split
    · exact .ofPure _
    · split
      · exact .ofPure _
      · split
        · exact .ofThrow _
        · refine .ofBind (.ofLift _) fun parent => ?_
          split
          · exact .ofThrow _
          · exact .ofPure _
  | _ => exact .ofPure _

theorem leaveAll_follows (n : Node) :
    Follows t (t.filter (·.depth ≤ scopes.length))
      (Walk.leaveAll scopes n [imports r, extension strict r])
      (Walk.leaveAll scopes n [splicing r, extension strict r]) := by
  refine .ofBind (imports_leave_follows r scopes n) fun left => ?_
  cases left with
  | replace nodes => exact .ofPure _
  | keep n' =>
    refine .ofBind (extension_leave_follows strict r scopes n') fun left => ?_
    cases left with
    | replace nodes => exact .ofPure _
    | keep n'' => exact .ofPure _

theorem node_run_imports {n : Node} {before : List Node} (hn : n.isUse = false)
    (ht : Mirrors t before) (c : List Contribution) :
    (Walk.node [imports r, extension strict r] scopes n).run ⟨t, c⟩ =
      (Walk.below [imports r, extension strict r] scopes
        ((n.link before).withParts n.attrs n.children) >>= fun m =>
          Walk.leaveAll scopes m [imports r, extension strict r]).run ⟨t, c⟩ := by
  rw [Walk.node]
  cases n with
  | tag name attrs children closing o =>
    have hname : ¬ name = "use" := by simpa [Node.isUse] using hn
    have hpath := ht.fragmentPath?_eq name
    cases htarget : Node.target? before name with | none | some =>
      rw [htarget] at hpath
      simp [Walk.enterAll, imports, extension, Visitor.onLeave, hname, Entered.go, hpath, Node.link,
        htarget, Node.withParts, Node.attrs, Node.children, Node.children?]
  | _ =>
    simp [Walk.enterAll, imports, extension, Visitor.onLeave, Entered.go, Node.link,
      Node.withParts, Node.attrs, Node.children, Node.children?]

theorem node_splicing {n : Node} (hn : n.isUse = false) :
    Walk.node [splicing r, extension strict r] scopes n =
      Walk.below [splicing r, extension strict r] scopes n >>= fun m =>
        Walk.leaveAll scopes m [splicing r, extension strict r] := by
  rw [Walk.node]
  cases n with
  | tag name attrs children closing o =>
    have hname : ¬ name = "use" := by simpa [Node.isUse] using hn
    simp [Walk.enterAll, splicing, extension, Visitor.onLeave, hname, Entered.go]
  | _ => simp [Walk.enterAll, splicing, extension, Visitor.onLeave, Entered.go]

def Tracked (n : Node) : Prop :=
  ∀ (scopes : List Scope) (t : List Alias) (before : List Node),
    (∀ a ∈ t, a.depth ≤ scopes.length + 1) → Mirrors t before →
    Follows t (Alias.after scopes.length t n) (Walk.node [imports r, extension strict r] scopes n)
      (Walk.node [splicing r, extension strict r] scopes (n.link before))

variable {strict r}

theorem list_follows {nodes : List Node} (hnodes : ∀ n ∈ nodes, Tracked strict r n)
    {strays outer before : List Node} (ht : Scoped scopes.length strays outer before t) :
    Follows t (nodes.foldl (Alias.after scopes.length) t)
      (Walk.list [imports r, extension strict r] scopes nodes)
      (Walk.list [splicing r, extension strict r] scopes
        (Node.linkAll strays outer before nodes)) := by
  induction nodes generalizing t before with
  | nil =>
    rw [Node.linkAll, Walk.list, Walk.list]
    exact .ofPure _
  | cons n nodes ih =>
    rw [List.forall_mem_cons] at hnodes
    rw [Node.linkAll, Walk.list, Walk.list]
    refine .ofBind (hnodes.1 scopes t _ ht.bound ht.all) fun first => ?_
    exact .ofBind (ih hnodes.2 (ht.after n)) fun rest => .ofPure _

theorem attrs_follow {attrs : List (Attr Node)} {before : List Node}
    (hattrs : ∀ a ∈ attrs, ∀ c ∈ a.value.inner, Tracked strict r c)
    (hbound : ∀ a ∈ t, a.depth ≤ scopes.length + 1) (ht : Mirrors t before) :
    Follows t (Alias.afterAttrs (scopes.length + 1) t attrs)
      (Walk.attrList [imports r, extension strict r] scopes attrs)
      (Walk.attrList [splicing r, extension strict r] scopes (Node.linkAttrs before attrs)) := by
  induction attrs generalizing t before with
  | nil =>
    rw [Node.linkAttrs, Walk.attrList, Walk.attrList]
    exact .ofPure _
  | cons a attrs ih =>
    rw [List.forall_mem_cons] at hattrs
    obtain ⟨hname, hinner, hwith⟩ := Node.linkAttr_parts before a
    have hlength : (scopes ++ [Scope.attr a.name]).length = scopes.length + 1 := List.length_append
    have hlist := list_follows _ hattrs.1 (Alias.scoped_value (hlength ▸ hbound) ht)
    rw [hlength] at hlist
    have hrest := ih hattrs.2 (Alias.bound_afterAll hbound a.value.inner)
      (Alias.mirrors_value hbound ht a.value.inner)
    rw [Node.linkAttrs, Walk.attrList_cons, Walk.attrList_cons]
    simp only [hwith]
    rw [hname, hinner]
    exact .ofBind hlist fun nodes => .ofBind hrest fun rest => .ofPure _

theorem below_follows {n : Node} {before : List Node} (hn : n.isUse = false)
    (hattrs : ∀ a ∈ n.attrs, ∀ c ∈ a.value.inner, Tracked strict r c)
    (hchildren : ∀ c ∈ n.children, Tracked strict r c)
    (hbound : ∀ a ∈ t, a.depth ≤ scopes.length + 1) (ht : Mirrors t before) :
    ∃ t', t'.filter (·.depth ≤ scopes.length) = t.filter (·.depth ≤ scopes.length) ∧
      Follows t t' (Walk.below [imports r, extension strict r] scopes
          ((n.link before).withParts n.attrs n.children))
        (Walk.below [splicing r, extension strict r] scopes (n.link before)) := by
  rw [Walk.below_eq, Walk.below_eq, Node.scope_withParts, (n.parts_link before).1,
    (n.parts_link before).2, Node.children_link hn, Node.attrs_link hn]
  cases hscope : Scope.of? (n.link before) with
  | none =>
    rw [Node.withParts_eq_self hscope]
    exact ⟨t, rfl, .ofPure _⟩
  | some scope =>
    have hlength : (scopes ++ [scope]).length = scopes.length + 1 := List.length_append
    have hfilter : t.filter (·.depth ≤ scopes.length + 1) = t := List.filter_eq_self.mpr fun a ha => by
      simpa using hbound a ha
    have hbound' : ∀ a ∈ t, a.depth ≤ (scopes ++ [scope]).length + 1 := fun a ha => by
      have := hbound a ha
      omega
    -- attribute values are one deeper than the children, so what they declare is still there when
    -- the children begin
    have hscoped : Scoped (scopes ++ [scope]).length (Node.strays n.attrs) before []
        (Alias.afterAttrs ((scopes ++ [scope]).length + 1) t n.attrs) := by
      refine ⟨Alias.bound_afterAttrs hbound' _, Alias.mirrors_afterAttrs hbound' ht _, ?_⟩
      rw [Alias.filter_afterAttrs (Nat.lt_succ_self _), hlength, hfilter]
      exact ht
    refine ⟨n.children.foldl (Alias.after (scopes ++ [scope]).length) (Alias.afterAttrs
      ((scopes ++ [scope]).length + 1) t n.attrs), ?_, ?_⟩
    · rw [Alias.filter_afterAll (by omega), Alias.filter_afterAttrs (by omega)]
    · refine .ofBind (attrs_follow _ hattrs hbound' ht) fun attrs => ?_
      refine .ofBind (list_follows _ hchildren hscoped) fun children => ?_
      rw [Node.withParts_withParts]
      exact .ofPure _

theorem use_follows {n : Node} (hn : n.isUse = true) :
    Follows t (Alias.after scopes.length t n) (Walk.node [imports r, extension strict r] scopes n)
      (Walk.node [splicing r, extension strict r] scopes n) := by
  cases n with
  | tag name attrs children closing o =>
    obtain rfl : name = "use" := by simpa [Node.isUse] using hn
    rw [Walk.node, Walk.node, Alias.after, Node.declaration?, if_pos rfl]
    simp only [Walk.enterAll, imports, splicing, if_true]
    cases declared? attrs with
    | none => exact ⟨throw (.merge .usePathMissing o.path o.line), fun _ => rfl, fun _ => rfl⟩
    | some d => exact ⟨pure [], fun _ => rfl, fun _ => rfl⟩
  | _ => cases hn

theorem tracked (n : Node) : Tracked strict r n := by
  induction n using Node.byParts with
  | parts n hattrs hchildren =>
    intro scopes t before hbound ht
    by_cases hn : n.isUse = true
    · rw [Node.link_eq_self_of_isUse hn]
      exact use_follows scopes hn
    · rw [Bool.not_eq_true] at hn
      have hafter : Alias.after scopes.length t n = t.filter (·.depth ≤ scopes.length) := by
        rw [Alias.after, Node.declaration?_of_not_isUse hn]
      -- whatever is declared below the node is struck out when it is left
      obtain ⟨t', hfilter, hbelow⟩ := below_follows scopes hn hattrs hchildren hbound ht
      rw [hafter, ← hfilter, node_splicing strict r scopes ((n.isUse_link before).trans hn)]
      refine .of_run_eq (node_run_imports strict r scopes hn ht) ?_
      exact .ofBind hbelow fun m => leaveAll_follows strict r scopes m

/-- Resolving the references of a tree is linking it by the places of its elements and then putting
in the fragments, where no name means anything any more. -/
theorem run_transform_eq (strict : Bool) (r : Resolver) (n : Node) :
    Builder.run (transform strict) r n = Builder.run [splicing, extension strict] r (n.link []) := by
  have hnode : Follows [] (Alias.after 0 [] n) (Walk.node [imports r, extension strict r] [] n)
      (Walk.node [splicing r, extension strict r] [] (n.link [])) :=
    tracked n [] [] [] (List.forall_mem_nil _) rfl
  have hroot : Follows [] (Alias.after 0 [] n) (Walk.root [imports r, extension strict r] n)
      (Walk.root [splicing r, extension strict r] (n.link [])) := by
    refine .ofBind hnode fun nodes => ?_
    rw [n.origin_link]
    split <;> exact .ofPure _
  exact hroot.run'_eq

/-- Whether an element stands for a fragment, and for which, depends on its place: the nearest
declaration of its name that is visible there counts. Unless an element around the place has
declarations in its attribute values, these are the declarations in front of the place or of a node
around it, each in its own list of siblings. -/
theorem names_are_scoped_by_place (strict : Bool) (r : Resolver) (page : Node)
    (place : List Node.Step) (name path : String) (attrs : List (Attr Node)) (children : List Node)
    (closing : Closing) (o : Origin)
    (hat : page.at? place = some (.tag name attrs children closing o)) (hname : name ≠ "use")
    (hinclude : Node.suffix? "include" name = none)
    (habove : ∀ m ∈ page.above place, m.isUse = false) :
    let stands := ∃ attrs' children',
      (page.link []).at? place = some (.fragment path attrs' children' o)
    Builder.run (transform strict) r page =
        Builder.run [splicing, extension strict] r (page.link []) ∧
      (stands ↔ ((page.visible place).filterMap Node.declaration?).lookup name = some path) ∧
      ((∀ m ∈ page.above place, ∀ a ∈ m.attrs, ∀ c ∈ a.value.inner, c.declaration? = none) →
        (stands ↔ ((page.preceding place).filterMap Node.declaration?).lookup name = some path)) := by
  intro stands
  have hstands : stands ↔
      ((page.visible place).filterMap Node.declaration?).lookup name = some path := by
    have htarget : Node.target? (page.visible place) name =
        ((page.visible place).filterMap Node.declaration?).lookup name := by
      rw [Node.target?, hinclude]
    have hlink := Node.at?_link habove []
    rw [hat, Option.map_some, List.append_nil, Node.link, if_neg hname, htarget] at hlink
    cases hlookup : ((page.visible place).filterMap Node.declaration?).lookup name with
    | none => simp [stands, hlink, hlookup]
    | some found => simp [stands, hlink, hlookup]
  refine ⟨run_transform_eq strict r page, hstands, fun hinner => ?_⟩
  rw [hstands, Node.declarations_visible hinner]

/-- Where every path leads to a text that says the path. -/
def spelled : Resolver := ⟨fun path o => pure (.raw path o), fun path o => pure (.raw path o)⟩

def shelfOrigin : Origin := ⟨⟨"default/page.stm", 1, .html, ""⟩, []⟩

def useOf (path : String) : Node :=
  .tag "use" [⟨"path", .unquoted path, shelfOrigin⟩] [] .selfClosing shelfOrigin

def card : Node := .tag "card" [] [] .selfClosing shelfOrigin

/-- A card is declared, and another one of the same name inside an element. -/
def shelf : Node :=
  .template [useOf "a/card", .tag "div" [] [useOf "b/card", card] .pair shelfOrigin, card] shelfOrigin

theorem names_are_scoped_by_place_shelf :
    (∃ attrs children, (shelf.link []).at? [.child 1, .child 1] =
      some (.fragment "b/card" attrs children shelfOrigin)) ∧
    ∃ attrs children, (shelf.link []).at? [.child 2] =
      some (.fragment "a/card" attrs children shelfOrigin) := by
  have hinside := names_are_scoped_by_place false spelled shelf [.child 1, .child 1] "card" "b/card"
    [] [] .selfClosing shelfOrigin rfl (by decide) (by decide +kernel) (by decide +kernel)
  have hbehind := names_are_scoped_by_place false spelled shelf [.child 2] "card" "a/card"
    [] [] .selfClosing shelfOrigin rfl (by decide) (by decide +kernel) (by decide +kernel)
  exact ⟨(hinside.2.2 (by decide +kernel)).mpr (by decide +kernel),
    (hbehind.2.2 (by decide +kernel)).mpr (by decide +kernel)⟩

def drawer : Node :=
  .template [.tag "div" [⟨"t", .quoted '"' [useOf "card"], shelfOrigin⟩] [card] .pair shelfOrigin]
    shelfOrigin

/-- A declaration in an attribute value is visible outside of it: a text comes in place of the card,
which nothing in front of it or of its parent declares. -/
theorem use_in_attribute_value_leaks :
    (drawer.preceding [.child 0, .child 0]).filterMap Node.declaration? = [] ∧
      ((drawer.link []).at? [.child 0, .child 0]) = some (.fragment "card" [] [] shelfOrigin) ∧
      ((Builder.run (transform false) spelled drawer).run {}).1.toOption.map
        (·.nodes.map Node.kind) = some ["template", "tag", "raw"] := by
  refine ⟨rfl, rfl, by decide +kernel⟩

end Pass

end Lamina
