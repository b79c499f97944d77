import Lamina.Proofs.Pass.Imitation
import Lamina.Proofs.Pass.Scoping
import Lamina.Proofs.Pass.Steady

/-! Which templates a walk asks for. Once the names in a tree are linked, every fragment in it is
asked for, wherever it stands, and nothing else is until the walk is back at the root; then the
template that the page extends is loaded, if there is one. -/

namespace Lamina

inductive Resolver.Asks (r : Resolver) : List String → Session → Session → Prop
  | nil (s : Session) : Asks r [] s s
  | cons {path : String} {paths : List String} {o : Origin} {fragment : Node} {s t s' : Session}
      (first : (r.fragment path o).run s = (.ok fragment, t)) (rest : Asks r paths t s') :
      Asks r (path :: paths) s s'

theorem Resolver.Asks.append {r : Resolver} {paths more : List String} {s t s' : Session}
    (h : r.Asks paths s t) (h' : r.Asks more t s') : r.Asks (paths ++ more) s s' := by
  induction h with
  | nil => exact h'
  | cons first _ ih => exact .cons first (ih h')

def Resolver.LoadsParent (r : Resolver) (nodes : List Node) (s s' : Session) : Prop :=
  Pass.takeExtends nodes = none ∧ s' = s ∨
    ∃ name attrs reference others path parent,
      Pass.takeExtends nodes = some ((name, attrs, reference), others) ∧
        Pass.extendsPath? name attrs = some path ∧
        (r.load path reference).run s = (.ok parent, s')

/-- Whenever the step succeeds, it has asked for the fragments with these paths and done nothing
else to the session. -/
def Asking {α : Type} (r : Resolver) (x : WalkM α) (paths : String → Prop) : Prop :=
  ∀ notes s a notes' s', (x.run notes).run s = (.ok (a, notes'), s') →
    ∃ asked, r.Asks asked s s' ∧ ∀ path, path ∈ asked ↔ paths path

namespace Asking

variable {α β : Type} {r : Resolver} {x : WalkM α} {p q : String → Prop}

theorem congr (h : Asking r x p) (hpq : ∀ path, p path ↔ q path) : Asking r x q := by
  intro notes s a notes' s' hr
  obtain ⟨asked, hasks, hasked⟩ := h notes s a notes' s' hr
  exact ⟨asked, hasks, fun path => (hasked path).trans (hpq path)⟩

theorem ofPure (a : α) : Asking r (pure a) fun _ => False := by
  intro notes s _ notes' s' hr
  cases hr
  exact ⟨[], .nil s, fun path => iff_of_false List.not_mem_nil id⟩

theorem ofThrow (failure : Failure) : Asking r (throw failure : WalkM α) p := by
  intro notes s _ notes' s' hr
  cases hr

theorem ofBind {f : α → WalkM β} (hx : Asking r x p) (hf : ∀ a, Asking r (f a) q) :
    Asking r (x >>= f) fun path => p path ∨ q path := by
  intro notes s b notes' s' hr
  rw [StateT.run_bind] at hr
  obtain ⟨⟨a, between⟩, t, hxr, hfr⟩ := run_bind_eq_ok.mp hr
  obtain ⟨first, hfirst, hp⟩ := hx notes s a between t hxr
  obtain ⟨rest, hrest, hq⟩ := hf a between t b notes' s' hfr
  refine ⟨first ++ rest, hfirst.append hrest, fun path => ?_⟩
  rw [List.mem_append, hp, hq]

theorem ofFragment (path : String) (o : Origin) :
    Asking r (liftM (r.fragment path o) : WalkM Node) (· = path) := by
  intro notes s n notes' s' hr
  obtain ⟨m, t, hm, hr⟩ := run_bind_eq_ok.mp hr
  cases hr
  exact ⟨[path], .cons hm (.nil _), fun _ => List.mem_singleton⟩

end Asking

namespace Node

variable {n : Node} {path : String}

/-- A fragment with the path stands in the tree, outside of declarations. -/
inductive Names : Node → String → Prop
  | here (path : String) (attrs : List (Attr Node)) (children : List Node) (o : Origin) :
      Names (fragment path attrs children o) path
  | inner {n c : Node} {a : Attr Node} {path : String} (hn : n.isUse = false) (ha : a ∈ n.attrs)
      (hc : c ∈ a.value.inner) (h : Names c path) : Names n path
  | child {n c : Node} {path : String} (hn : n.isUse = false) (hc : c ∈ n.children)
      (h : Names c path) : Names n path

def IsFragment (path : String) : Node → Prop
  | fragment path' _ _ _ => path = path'
  | _ => False

theorem isFragment_withParts (n : Node) (attrs : List (Attr Node)) (children : List Node) :
    (n.withParts attrs children).IsFragment path ↔ n.IsFragment path := by
  cases n <;> exact Iff.rfl

theorem not_names_of_isUse (hn : n.isUse = true) : ¬ n.Names path := by
  intro h
  cases h with
  | here => cases hn
  | inner hn' => cases hn.symm.trans hn'
  | child hn' => cases hn.symm.trans hn'

theorem names_iff (hn : n.isUse = false) : n.Names path ↔
    (∃ a ∈ n.attrs, ∃ c ∈ a.value.inner, c.Names path) ∨ (∃ c ∈ n.children, c.Names path) ∨
      n.IsFragment path := by
  constructor
  · intro h
    cases h with
    | here => exact .inr (.inr rfl)
    | inner _ ha hc h => exact .inl ⟨_, ha, _, hc, h⟩
    | child _ hc h => exact .inr (.inl ⟨_, hc, h⟩)
  · rintro (⟨a, ha, c, hc, h⟩ | ⟨c, hc, h⟩ | h)
    · exact .inner hn ha hc h
    · exact .child hn hc h
    · cases n with
      | fragment path' attrs children o =>
        cases h
        exact .here path attrs children o
      | _ => exact h.elim

end Node

namespace Walk

variable {vs ws : List (Visitor WalkM)} {scopes : List Scope} {nodes : List Node} {r : Resolver}

theorem list_asking (h : ∀ n ∈ nodes, Asking r (node vs scopes n) n.Names) :
    Asking r (list vs scopes nodes) fun path => ∃ n ∈ nodes, n.Names path := by
  induction nodes with
  | nil =>
    rw [list]
    exact (Asking.ofPure _).congr fun path => by simp
  | cons n nodes ih =>
    obtain ⟨hfirst, hrest⟩ := List.forall_mem_cons.mp h
    rw [list]
    refine (hfirst.ofBind fun first => (ih hrest).ofBind fun rest => .ofPure _).congr fun path => ?_
    simp

theorem attrList_asking {attrs : List (Attr Node)}
    (h : ∀ a ∈ attrs, ∀ c ∈ a.value.inner,
      Asking r (node vs (scopes ++ [.attr a.name]) c) c.Names) :
    Asking r (attrList vs scopes attrs) fun path =>
      ∃ a ∈ attrs, ∃ c ∈ a.value.inner, c.Names path := by
  induction attrs with
  | nil =>
    rw [attrList]
    exact (Asking.ofPure _).congr fun path => by simp
  | cons a attrs ih =>
    obtain ⟨hfirst, hrest⟩ := List.forall_mem_cons.mp h
    rw [attrList_cons]
    refine ((list_asking hfirst).ofBind fun nodes => (ih hrest).ofBind fun rest =>
      .ofPure _).congr fun path => ?_
    simp

theorem list_congr (h : ∀ n ∈ nodes, node vs scopes n = node ws scopes n) :
    list vs scopes nodes = list ws scopes nodes := by
  induction nodes with
  | nil => rw [list, list]
  | cons n nodes ih =>
    obtain ⟨hfirst, hrest⟩ := List.forall_mem_cons.mp h
    rw [list, list, hfirst, ih hrest]

theorem attrList_congr {attrs : List (Attr Node)}
    (h : ∀ a ∈ attrs, ∀ c ∈ a.value.inner,
      node vs (scopes ++ [.attr a.name]) c = node ws (scopes ++ [.attr a.name]) c) :
    attrList vs scopes attrs = attrList ws scopes attrs := by
  induction attrs with
  | nil => rw [attrList, attrList]
  | cons a attrs ih =>
    obtain ⟨hfirst, hrest⟩ := List.forall_mem_cons.mp h
    rw [attrList_cons, attrList_cons, list_congr hfirst, ih hrest]

end Walk

namespace Pass

open Node

variable {r : Resolver} {scopes : List Scope}

theorem leaveAll_splicing_asking (n : Node) :
    Asking r (Walk.leaveAll scopes n [splicing r]) (n.IsFragment ·) := by
  cases n with
  | fragment path attrs children o =>
    have hleave : Walk.leaveAll scopes (.fragment path attrs children o) [splicing r] =
        liftM (r.fragment path o) >>= fun fragment => pure (splice attrs children o fragment) := by
      simp [Walk.leaveAll, splicing]
    rw [hleave]
    exact ((Asking.ofFragment path o).ofBind fun fragment => .ofPure _).congr fun path => by
      simp [IsFragment]
  | _ => exact (Asking.ofPure _).congr fun path => by simp [IsFragment]

theorem enterAll_splicing {n : Node} (hn : n.isUse = false) :
    Walk.enterAll scopes n [splicing r] = pure (.go n) := by
  cases n with
  | tag name attrs children closing o =>
    have hname : ¬ name = "use" := by simpa [Node.isUse] using hn
    simp [Walk.enterAll, splicing, hname, Entered.go]
  | _ => rfl

theorem node_splicing_eq {n : Node} (hn : n.isUse = false) :
    Walk.node [splicing r] scopes n = Walk.below [splicing r] scopes n >>= fun m =>
      Walk.leaveAll scopes m [splicing r] := by
  rw [Walk.node, enterAll_splicing hn, pure_bind]
  rfl

theorem node_splicing_of_isUse (r : Resolver) (scopes : List Scope) {n : Node}
    (hn : n.isUse = true) :
    (∀ vs, Walk.node (splicing r :: vs) scopes n = pure []) ∨
      ∃ failure, ∀ vs, Walk.node (splicing r :: vs) scopes n = throw failure := by
  cases n with
  | tag name attrs children closing o =>
    have hname : name = "use" := by simpa [Node.isUse] using hn
    subst hname
    cases hdeclared : declared? attrs with
    | none =>
      refine .inr ⟨.merge .usePathMissing o.path o.line, fun vs => ?_⟩
      have henter : (splicing r).enter scopes (.tag "use" attrs children closing o) =
          throw (.merge .usePathMissing o.path o.line) := by
        simp [splicing, hdeclared, unmergeable]
      rw [Walk.node, Walk.enterAll, henter]
      rfl
    | some declaration =>
      refine .inl fun vs => ?_
      have henter : (splicing r).enter scopes (.tag "use" attrs children closing o) =
          pure (.replace []) := by
        simp [splicing, hdeclared]
      rw [Walk.node, Walk.enterAll, henter, pure_bind]
      rfl
  | _ => cases hn

theorem node_splicing_asking (n : Node) : Asking r (Walk.node [splicing r] scopes n) n.Names := by
  induction n using byParts generalizing scopes with
  | parts n iha ihc =>
    cases hn : n.isUse with
    | true =>
      have hnone : Asking r (Walk.node [splicing r] scopes n) fun _ => False := by
        rcases node_splicing_of_isUse r scopes hn with hpure | ⟨failure, hthrow⟩
        · rw [hpure]
          exact .ofPure _
        · rw [hthrow]
          exact .ofThrow failure
      exact hnone.congr fun path => iff_of_false id (not_names_of_isUse hn)
    | false =>
      rw [node_splicing_eq hn, Walk.below_eq]
      cases hscope : Scope.of? n with
      | none =>
        dsimp only
        rw [pure_bind]
        refine (leaveAll_splicing_asking n).congr fun path => ?_
        rw [names_iff hn, attrs_of_leaf hscope, children_of_leaf hscope]
        simp
      | some scope =>
        have hattrs : Asking r (Walk.attrList [splicing r] (scopes ++ [scope]) n.attrs) _ :=
          Walk.attrList_asking fun a ha c hc => iha a ha c hc
        have hchildren : Asking r (Walk.list [splicing r] (scopes ++ [scope]) n.children) _ :=
          Walk.list_asking fun c hc => ihc c hc
        simp only [bind_assoc, pure_bind]
        have hleave (attrs : List (Attr Node)) (children : List Node) :
            Asking r (Walk.leaveAll scopes (n.withParts attrs children) [splicing r])
              (n.IsFragment ·) :=
          (leaveAll_splicing_asking _).congr fun path => isFragment_withParts n attrs children
        refine (hattrs.ofBind fun attrs => hchildren.ofBind fun children =>
          hleave attrs children).congr fun path => (names_iff hn).symm

theorem leaveAll_splicing_extension (strict : Bool) (n : Node) (hs : scopes ≠ []) :
    Walk.leaveAll scopes n [splicing r, extension strict r] =
      Walk.leaveAll scopes n [splicing r] := by
  rw [Walk.leaveAll, Walk.leaveAll]
  refine bind_congr fun left => ?_
  cases left with
  | keep n' => exact leaveAll_extension_of_pos strict (List.length_pos_iff.mpr hs) n'
  | replace nodes => rfl

theorem node_splicing_extension (strict : Bool) (n : Node) (hs : scopes ≠ []) :
    Walk.node [splicing r, extension strict r] scopes n = Walk.node [splicing r] scopes n := by
  induction n using byParts generalizing scopes with
  | parts n iha ihc =>
    cases hn : n.isUse with
    | true =>
      rcases node_splicing_of_isUse r scopes hn with hpure | ⟨failure, hthrow⟩
      · rw [hpure, hpure]
      · rw [hthrow, hthrow]
    | false =>
      have hleave := fun m => leaveAll_splicing_extension (r := r) strict m hs
      rw [node_splicing strict r scopes hn, node_splicing_eq hn, Walk.below_eq, Walk.below_eq]
      cases hscope : Scope.of? n with
      | none => exact bind_congr hleave
      | some scope =>
        dsimp only
        rw [Walk.attrList_congr fun a ha c hc => iha a ha c hc (List.concat_ne_nil _ _),
          Walk.list_congr fun c hc => ihc c hc (List.concat_ne_nil _ _)]
        exact bind_congr hleave

variable {strict : Bool} {children : List Node} {o : Origin} {n : Node} {s s' : Session}

theorem run_splicing_of_list {out : List Node} {notes : Notes}
    (h : ((Walk.list [splicing r] [.template o.path] children).run {}).run s =
      (.ok (out, notes), s')) :
    (Builder.run [splicing] r (.template children o)).run s = (.ok (.template out o), s') := by
  have hroot : Walk.root [splicing r] (.template children o) =
      Walk.list [splicing r] [.template o.path] children >>= fun out => pure (.template out o) := by
    rw [Walk.root, node_splicing_eq rfl, Walk.below]
    simp [Walk.leaveAll, splicing]
  show ((Walk.root [splicing r] (.template children o)).run' {}).run s = _
  rw [hroot, StateT.run'_eq, StateT.run_bind, map_eq_pure_bind, bind_assoc]
  exact run_bind_eq_ok.mpr ⟨(out, notes), s', h, rfl⟩

theorem extension_leave_run_eq_ok {out : List Node} {left : Left} {notes notes' : Notes}
    (h : (((extension strict r).leave [] (.template out o)).run notes).run s =
      (.ok (left, notes'), s')) :
    (takeExtends out = none ∧ left = .keep (.template out o) ∧ s' = s) ∨
      ∃ name attrs reference others path parent,
        takeExtends out = some ((name, attrs, reference), others) ∧
        extendsPath? name attrs = some path ∧ (r.load path reference).run s = (.ok parent, s') ∧
        left = .keep (.template (others.filter isLeading ++
          fillAll (others.foldl Fillings.addBlock (.ofAttrs ["path"] attrs))
            (attachAll reference parent.contents) ++ others.filter isPush) o) := by
  simp only [extension, Visitor.onLeave, List.isEmpty_nil, Bool.not_true, Bool.false_eq_true,
    if_false] at h
  split at h
  · next hnone =>
    cases h
    exact .inl ⟨hnone, rfl, rfl⟩
  · next name attrs reference others hextends =>
    split at h
    · cases h
    · next path hpath =>
      rw [StateT.run_bind] at h
      obtain ⟨⟨parent, notes₁⟩, s₁, hload, h⟩ := run_bind_eq_ok.mp h
      obtain ⟨_, _, hload, hpure⟩ := run_bind_eq_ok.mp hload
      cases hpure
      dsimp only at h
      split at h
      · cases h
      · cases h
        exact .inr ⟨name, attrs, reference, others, path, parent, hextends, hpath, hload, rfl⟩

theorem leaveAll_extension_loads {out nodes : List Node} {notes notes' : Notes}
    (h : ((Walk.leaveAll [] (.template out o) [splicing r, extension strict r]).run notes).run s =
      (.ok (nodes, notes'), s')) : r.LoadsParent out s s' := by
  simp only [Walk.leaveAll, splicing, pure_bind] at h
  rw [StateT.run_bind] at h
  obtain ⟨⟨left, between⟩, t, hextension, hrest⟩ := run_bind_eq_ok.mp h
  obtain rfl : s' = t := by cases left <;> cases hrest <;> rfl
  rcases extension_leave_run_eq_ok hextension with
    ⟨hnone, -, rfl⟩ | ⟨name, attrs, reference, others, path, parent, hfound, hpath, hload, -⟩
  · exact .inl ⟨hnone, rfl⟩
  · exact .inr ⟨name, attrs, reference, others, path, parent, hfound, hpath, hload⟩

/-- The walk through a linked page asks for its fragments and, once they are in place, loads the
template that it extends. -/
theorem exists_spliced
    (h : (Builder.run [splicing, extension strict] r (.template children o)).run s = (.ok n, s')) :
    ∃ out asked t, (Builder.run [splicing] r (.template children o)).run s =
        (.ok (.template out o), t) ∧
      r.Asks asked s t ∧ (∀ path, path ∈ asked ↔ (Node.template children o).Names path) ∧
      r.LoadsParent out t s' := by
  obtain ⟨notes, h⟩ := run'_eq_ok h
  rw [List.map_cons, List.map_cons, List.map_nil, Walk.root, StateT.run_bind] at h
  obtain ⟨⟨nodes, between⟩, t', hnode, hroot⟩ := run_bind_eq_ok.mp h
  obtain rfl : s' = t' := by
    dsimp only at hroot
    split at hroot <;> cases hroot <;> rfl
  rw [node_splicing strict r [] rfl, StateT.run_bind] at hnode
  obtain ⟨⟨page, inner⟩, t, hbelow, hleave⟩ := run_bind_eq_ok.mp hnode
  rw [Walk.below, StateT.run_bind] at hbelow
  obtain ⟨⟨out, inner'⟩, t', hlist, hpage⟩ := run_bind_eq_ok.mp hbelow
  cases hpage
  rw [Walk.list_congr fun c _ => node_splicing_extension strict c (List.concat_ne_nil _ _)] at hlist
  obtain ⟨asked, hasks, hasked⟩ :=
    Walk.list_asking (fun c _ => node_splicing_asking c) _ _ _ _ _ hlist
  refine ⟨out, asked, t, run_splicing_of_list hlist, hasks, fun path => ?_,
    leaveAll_extension_loads hleave⟩
  rw [hasked, names_iff rfl]
  simp [IsFragment, Node.attrs, Node.children, Node.children?]

theorem splicing_steady : Steady splicing := by
  intro W _ admits L P r r' hP hr
  refine ⟨fun w scopes n hn => ?_, fun w scopes n hn => ?_⟩
  · cases n with
    | tag name attrs children closing o =>
      simp only [splicing]
      split
      · split
        · exact Lockstep.ofFailure _ (hP (Node.sited_iff.mp hn).1 (.merge _))
        · exact Lockstep.ofPure _ (List.forall_mem_nil _)
      · exact Lockstep.ofPure _ hn
    | _ => exact Lockstep.ofPure _ hn
  · cases n with
    | fragment => exact splice_steady hr hn
    | _ => exact Lockstep.ofPure _ hn

end Pass

end Lamina
