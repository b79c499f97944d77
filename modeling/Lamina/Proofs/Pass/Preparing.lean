import Lamina.Builder
import Lamina.Proofs.Pass.Stages
import Lamina.Proofs.Walk.Returns

/-! What preparing makes of a tree. Each node is opened before anything below it is walked: it stays,
goes away, or becomes a construct, and then its parts are prepared. The relation between a tree and
what comes out of it follows from what opening does to one node. One walk leads to a normal form,
which another walk leaves alone. -/

namespace Lamina

namespace Pass

open Node

def asAttr? (n : Node) : Option (Attr Node) :=
  (attrChild? n).map fun name => ⟨name, .quoted '"' n.children, n.origin⟩

theorem splitAttrs_eq {nodes rest : List Node} {more : List (Attr Node)}
    (h : splitAttrs nodes = .ok (more, rest)) :
    more = nodes.filterMap asAttr? ∧ rest = nodes.filter (attrChild? · = none) := by
  have hkept {n : Node} {nodes as ns} (hn : attrChild? n = none)
      (h : as = nodes.filterMap asAttr? ∧ ns = nodes.filter (attrChild? · = none)) :
      as = (n :: nodes).filterMap asAttr? ∧ n :: ns = (n :: nodes).filter (attrChild? · = none) := by
    have hnone : asAttr? n = none := by rw [asAttr?, hn, Option.map_none]
    rw [List.filterMap_cons_none hnone, List.filter_cons_of_pos (by simpa using hn)]
    exact ⟨h.1, congrArg _ h.2⟩
  fun_induction splitAttrs nodes generalizing more rest with
  | case1 =>
    cases h
    exact ⟨rfl, rfl⟩
  | case2 name attrs children closing o nodes hnone ih =>
    obtain ⟨⟨as, ns⟩, hnodes, he⟩ := map_eq_ok.mp h
    cases he
    exact hkept hnone (ih hnodes)
  | case3 => cases h
  | case4 name attrs children closing o nodes attr hsome _ ih =>
    obtain ⟨⟨as, ns⟩, hnodes, he⟩ := map_eq_ok.mp h
    cases he
    obtain ⟨has, hns⟩ := ih hnodes
    have hself : asAttr? (tag name attrs children closing o) =
        some ⟨attr, .quoted '"' children, o⟩ := by
      rw [asAttr?, attrChild?, hsome]
      rfl
    rw [List.filterMap_cons_some hself, List.filter_cons_of_neg (by simp [attrChild?, hsome])]
    exact ⟨congrArg _ has, hns⟩
  | case5 n nodes hother ih =>
    obtain ⟨⟨as, ns⟩, hnodes, he⟩ := map_eq_ok.mp h
    cases he
    refine hkept ?_ (ih hnodes)
    cases n with
    | tag name attrs children closing o => exact (hother _ _ _ _ _ rfl).elim
    | _ => rfl

theorem splitAttrs_of_forall {nodes : List Node} (h : ∀ n ∈ nodes, attrChild? n = none) :
    splitAttrs nodes = .ok ([], nodes) := by
  induction nodes with
  | nil => rfl
  | cons n nodes ih =>
    rw [List.forall_mem_cons] at h
    cases n with
    | tag name attrs children closing o =>
      have hnone : suffix? "attr" name = none := h.1
      simp only [splitAttrs, hnone, ih h.2]
      rfl
    | _ =>
      rw [splitAttrs, ih h.2]
      · rfl
      · simp

variable {r : Resolver} {scopes : List Scope}

theorem opens_of_enterAll {n : Node} {e : Entered n}
    (h : Returns (Walk.enterAll scopes n (preparers r)) e) : e.Opens (Opens n) := by
  have hentering := entering_prepare r scopes n
  generalize Walk.enterAll scopes n (preparers r) = x at h hentering
  cases hentering with
  | opens hopens => exact h.eq_of_pure ▸ hopens
  | fails => exact (Returns.not_throw _ h).elim

def Prepares (n : Node) (out : List Node) : Prop :=
  ∃ r scopes, Returns (Walk.node (preparers r) scopes n) out

def Refills (R : Node → List Node → Prop) (a b : Attr Node) : Prop :=
  ∃ pieces, List.Forall₂ R a.value.inner pieces ∧
    b = { a with value := a.value.withInner pieces.flatten }

theorem prepares_cases {n : Node} {out : List Node} (h : Prepares n out) :
    (Opens n none ∧ out = []) ∨ ∃ m attrs pieces, Opens n (some m) ∧ m.weight ≤ n.weight ∧
      List.Forall₂ (Refills Prepares) m.attrs attrs ∧ List.Forall₂ Prepares m.children pieces ∧
      out = [m.withParts attrs pieces.flatten] := by
  obtain ⟨r, scopes, h⟩ := h
  rw [Walk.node] at h
  obtain ⟨e, he, h⟩ := h.of_bind
  have hopens := opens_of_enterAll he
  cases e with
  | replace nodes =>
    obtain ⟨hopens, rfl⟩ := hopens
    exact .inl ⟨hopens, h.eq_of_pure.symm⟩
  | keep m light descend =>
    obtain ⟨hopens, rfl⟩ := hopens
    obtain ⟨m', hbelow, h⟩ := h.of_bind
    dsimp only [preparers] at h
    rw [prepare_leave] at h
    obtain ⟨inner, attrs, pieces, hattrs, hpieces, rfl⟩ := Walk.below_returns hbelow
    refine .inr ⟨m, attrs, pieces, hopens, light, ?_, ?_, h.eq_of_pure.symm⟩
    · refine hattrs.imp fun a b hab => ?_
      obtain ⟨nodes, hnodes, rfl⟩ := hab
      obtain ⟨l, hl, rfl⟩ := Walk.list_returns hnodes
      exact ⟨l, hl.imp fun c x hx => ⟨r, _, hx⟩, rfl⟩
    · exact hpieces.imp fun c x hx => ⟨r, _, hx⟩

/-- Induction on a tree that is prepared: what holds of a node follows from what opening makes of it,
once it holds of the parts of that. -/
@[elab_as_elim]
theorem Prepares.byOpening {motive : Node → List Node → Prop}
    (gone : ∀ n, Opens n none → motive n [])
    (kept : ∀ n m attrs pieces, Opens n (some m) →
      List.Forall₂ (Refills motive) m.attrs attrs → List.Forall₂ motive m.children pieces →
      motive n [m.withParts attrs pieces.flatten])
    {n : Node} {out : List Node} (h : Prepares n out) : motive n out := by
  induction n using byLighter generalizing out with
  | parts n ih =>
    obtain ⟨hopens, rfl⟩ | ⟨m, attrs, pieces, hopens, light, hattrs, hchildren, rfl⟩ :=
      prepares_cases h
    · exact gone n hopens
    · obtain ⟨ihattrs, ihchildren⟩ := ih m light
      refine kept n m attrs pieces hopens ?_ ?_
      · have hinner := (List.forall₂_and_left _ _).mpr ⟨fun a ha => ha, hattrs⟩
        refine hinner.imp fun a b hab => ?_
        obtain ⟨ha, l, hl, rfl⟩ := hab
        have hl := (List.forall₂_and_left _ _).mpr ⟨fun c hc => hc, hl⟩
        exact ⟨l, hl.imp fun c x hx => ihattrs a ha c hx.1 hx.2, rfl⟩
      · have hl := (List.forall₂_and_left _ _).mpr ⟨fun c hc => hc, hchildren⟩
        exact hl.imp fun c x hx => ihchildren c hx.1 hx.2

theorem exists_of_mem_flatten {R : Node → List Node → Prop} {nodes : List Node}
    {pieces : List (List Node)} (h : List.Forall₂ R nodes pieces) :
    ∀ x ∈ pieces.flatten, ∃ n ∈ nodes, ∃ l, R n l ∧ x ∈ l := by
  induction h with
  | nil => exact List.forall_mem_nil _
  | @cons n l nodes pieces hn _ ih =>
    intro x hx
    rw [List.flatten_cons, List.mem_append] at hx
    rcases hx with hx | hx
    · exact ⟨n, .head _, l, hn, hx⟩
    · obtain ⟨m, hm, found⟩ := ih x hx
      exact ⟨m, .tail _ hm, found⟩

theorem exists_of_mem_refilled {R : Node → List Node → Prop} {attrs attrs' : List (Attr Node)}
    (h : List.Forall₂ (Refills R) attrs attrs') :
    ∀ b ∈ attrs', ∀ x ∈ b.value.inner, ∃ a ∈ attrs, ∃ c ∈ a.value.inner, ∃ l, R c l ∧ x ∈ l := by
  induction h with
  | nil => exact List.forall_mem_nil _
  | @cons a b attrs attrs' hab _ ih =>
    rw [List.forall_mem_cons]
    refine ⟨fun x hx => ?_, fun b' hb' x hx => ?_⟩
    · obtain ⟨pieces, hpieces, rfl⟩ := hab
      have hx := AttrValue.mem_of_mem_withInner hx
      exact ⟨a, .head _, exists_of_mem_flatten hpieces x hx⟩
    · obtain ⟨a', ha', found⟩ := ih b' hb' x hx
      exact ⟨a', .tail _ ha', found⟩

end Pass

namespace Node

open Pass

/-- The construct is not reserved, and none of its children stands for an attribute. -/
def Normal : Node → Prop
  | tag name _ children _ _ => PreparedName name ∧ ∀ c ∈ children, attrChild? c = none
  | _ => True

variable {n : Node} {out : List Node}

theorem normal_of_not_tag (h : n.isTag = false) : n.Normal := by
  cases n with
  | tag => cases h
  | _ => trivial

theorem everywhere_withParts {P : Node → Prop} {attrs : List (Attr Node)} {children : List Node}
    (h : P (n.withParts attrs children)) (ha : ∀ a ∈ attrs, ∀ c ∈ a.value.inner, c.Everywhere P)
    (hc : ∀ c ∈ children, c.Everywhere P) : (n.withParts attrs children).Everywhere P := by
  cases n with
  | tag | fragment => exact everywhere_iff.mpr ⟨h, ha, hc⟩
  | template | block | stack | push => exact everywhere_iff.mpr ⟨h, List.forall_mem_nil _, hc⟩
  | raw | directive | echo | host =>
    exact everywhere_iff.mpr ⟨h, List.forall_mem_nil _, List.forall_mem_nil _⟩

end Node

namespace Pass

open Node

theorem attrChild?_of_not_tag {n : Node} (h : n.isTag = false) : attrChild? n = none := by
  cases n with
  | tag => cases h
  | _ => rfl

theorem Prepares.normal {n : Node} {out : List Node} (h : Prepares n out) :
    ∀ x ∈ out, x.Everywhere Normal ∧ (attrChild? n = none → attrChild? x = none) := by
  refine Prepares.byOpening (fun n hopens => List.forall_mem_nil _) ?_ h
  intro n m attrs pieces hopens hattrs hpieces
  have hinner : ∀ a ∈ attrs, ∀ c ∈ a.value.inner, c.Everywhere Normal := fun a ha c hc => by
    obtain ⟨_, _, _, _, l, hl, hx⟩ := exists_of_mem_refilled hattrs a ha c hc
    exact (hl c hx).1
  have hchildren : ∀ c ∈ pieces.flatten, c.Everywhere Normal := fun c hc => by
    obtain ⟨_, _, l, hl, hx⟩ := exists_of_mem_flatten hpieces c hc
    exact (hl c hx).1
  have hplain (hm : m.isTag = false) :
      (m.withParts attrs pieces.flatten).Normal ∧
        attrChild? (m.withParts attrs pieces.flatten) = none := by
    have hm' : (m.withParts attrs pieces.flatten).isTag = false := by cases m <;> trivial
    exact ⟨normal_of_not_tag hm', attrChild?_of_not_tag hm'⟩
  suffices hself : (m.withParts attrs pieces.flatten).Normal ∧
      (attrChild? n = none → attrChild? (m.withParts attrs pieces.flatten) = none) by
    refine List.forall_mem_singleton.mpr ⟨everywhere_withParts hself.1 hinner hchildren, hself.2⟩
  cases hopens with
  | other hn => exact ⟨(hplain hn).1, fun _ => (hplain hn).2⟩
  | block | stack | push => exact ⟨(hplain rfl).1, fun _ => (hplain rfl).2⟩
  | @element name _ _ children rest _ _ split prepared =>
    refine ⟨⟨prepared, fun x hx => ?_⟩, fun hn => hn⟩
    -- the children that are left stood for no attribute before they were prepared
    obtain ⟨c, hc, l, hl, hx⟩ := exists_of_mem_flatten hpieces x hx
    refine (hl x hx).2 ?_
    have hmem : c ∈ children.filter (attrChild? · = none) := (splitAttrs_eq split).2 ▸ hc
    simpa using List.of_mem_filter hmem

theorem attrTags_of_forall {r : Resolver} {scopes : List Scope} {name : String}
    {attrs : List (Attr Node)} {children : List Node} {closing : Closing} {o : Origin}
    (h : ∀ c ∈ children, attrChild? c = none) :
    (attrTags r).enter scopes (.tag name attrs children closing o) =
      pure (.go (.tag name attrs children closing o)) := by
  have hkeep {n m : Node} (light : m.weight ≤ n.weight) (he : m = n) :
      Entered.keep m light true = .go n := by
    subst he
    rfl
  dsimp only [attrTags, Visitor.onEnter]
  split
  · next origin hsplit => cases hsplit.symm.trans (splitAttrs_of_forall h)
  · next more rest hsplit =>
    cases hsplit.symm.trans (splitAttrs_of_forall h)
    rw [hkeep _ (by rw [List.append_nil])]

theorem hiddenTags_of_not {r : Resolver} {scopes : List Scope} {n : Node} (h : ¬ n.IsHidden) :
    (hiddenTags r).enter scopes n = pure (.go n) := by
  dsimp only [hiddenTags, Visitor.onEnter]
  split
  · exact absurd rfl h
  · rfl

theorem enterAll_of_normal {r : Resolver} {scopes : List Scope} {n : Node} (h : n.Normal) :
    Walk.enterAll scopes n (preparers r) = pure (.go n) := by
  refine Walk.enterAll_eq_go fun v hv => ?_
  cases hn : n.isTag with
  | false => exact enter_other hv hn
  | true =>
    cases n with
    | tag name attrs children closing o =>
      obtain ⟨⟨hblock, hhidden, hstack⟩, hchildren⟩ := h
      have hblock := suffix?_eq_none_iff.mpr hblock
      have hstack := suffix?_eq_none_iff.mpr hstack
      simp only [preparers, prepare, List.map_cons, List.map_nil, List.mem_cons, List.not_mem_nil,
        or_false] at hv
      rcases hv with rfl | rfl | rfl | rfl
      · exact attrTags_of_forall hchildren
      · simp only [blockTags, Visitor.onEnter, hblock]
      · exact hiddenTags_of_not hhidden
      · simp only [stackTags, Visitor.onEnter, hstack]
    | _ => cases hn

theorem node_of_normal {r : Resolver} {scopes : List Scope} {n : Node}
    (h : n.Everywhere Normal) : Walk.node (preparers r) scopes n = pure [n] := by
  induction n using byParts generalizing scopes with
  | parts n iha ihc =>
    obtain ⟨hn, ha, hc⟩ := everywhere_iff.mp h
    have hbelow : Walk.below (preparers r) scopes n = pure n := by
      rw [Walk.below_of_pure (f := fun _ c => c)
        (fun a hm c hin _ _ => iha a hm c hin (ha a hm c hin)) (fun c hm _ _ => ihc c hm (hc c hm)),
        onParts_id]
    rw [Walk.node, enterAll_of_normal hn, pure_bind]
    dsimp only [Entered.go]
    rw [hbelow, pure_bind]
    exact prepare_leave scopes n

theorem run_prepare_eq_ok {r : Resolver} {n n' : Node} {s s' : Session}
    (h : (Builder.run prepare r n).run s = (.ok n', s')) :
    ∃ out, Prepares n out ∧ (∃ children o, n' = .template children o) ∧
      (out = [n'] ∨ n' = .template out n.origin) := by
  obtain ⟨notes, h⟩ := run'_eq_ok h
  have hroot : Returns (Walk.root (preparers r) n) n' := ⟨{}, notes, s, s', h⟩
  rw [Walk.root] at hroot
  obtain ⟨out, hout, hroot⟩ := hroot.of_bind
  refine ⟨out, ⟨r, [], hout⟩, ?_⟩
  split at hroot
  · next children o =>
    cases hroot.eq_of_pure
    exact ⟨⟨children, o, rfl⟩, .inl rfl⟩
  · cases hroot.eq_of_pure
    exact ⟨⟨out, n.origin, rfl⟩, .inr rfl⟩

/-- Preparing a tree leaves no reserved element in it, at any depth or in an attribute value, and no
element below another one stands for an attribute. Preparing the outcome once more changes nothing. -/
theorem prepare_reaches_normal_form (r : Resolver) (n n' : Node) (s s' : Session)
    (h : (Builder.run prepare r n).run s = (.ok n', s')) :
    n'.Everywhere Normal ∧
      ∀ r' t, (Builder.run prepare r' n').run t = (.ok n', t) := by
  obtain ⟨out, hout, ⟨children, o, rfl⟩, hn'⟩ := run_prepare_eq_ok h
  have hnormal : (template children o).Everywhere Normal := by
    rcases hn' with rfl | heq
    · exact (hout.normal _ (.head _)).1
    · rw [heq]
      exact everywhere_iff.mpr
        ⟨trivial, List.forall_mem_nil _, fun c hc => (hout.normal c hc).1⟩
  refine ⟨hnormal, fun r' t => ?_⟩
  have hroot : Walk.root (preparers r') (template children o) = pure (template children o) := by
    rw [Walk.root, node_of_normal hnormal, pure_bind]
  show ((Walk.root (preparers r') (template children o)).run' {}).run t = _
  rw [hroot]
  rfl

/-- Reserved elements inside one another. -/
def nestedMarkers : String :=
  "<hidden>n</hidden><p><attr:title><b><attr:id>t</attr:id></b></attr:title>" ++
    "<block:main a=\"1\"><stack:push name=\"s\">y</stack:push></block:main></p>"

set_option maxRecDepth 100000 in
theorem prepare_reaches_normal_form_nested : ∃ n n' s',
    Node.parse nestedMarkers "page" = .ok n ∧
      (Builder.run prepare ⟨fun _ _ => pure default, fun _ _ => pure default⟩ n).run {} =
        (.ok n', s') ∧
      n'.nodes.map kind = ["template", "tag", "tag", "raw", "block", "push", "raw"] ∧
      n'.Everywhere Normal := by
  have hkinds : (Node.parse nestedMarkers "page").toOption.bind (fun n =>
      ((Builder.run prepare ⟨fun _ _ => pure default, fun _ _ => pure default⟩ n).run
        {}).1.toOption.map fun n' => n'.nodes.map kind) =
        some ["template", "tag", "tag", "raw", "block", "push", "raw"] := by decide +kernel
  obtain ⟨n, hparse, hkinds⟩ := Option.bind_eq_some_iff.mp hkinds
  obtain ⟨n', hrun, hkinds⟩ := Option.map_eq_some_iff.mp hkinds
  refine ⟨n, n', _, eq_ok_of_toOption hparse, Prod.ext (eq_ok_of_toOption hrun) rfl, hkinds, ?_⟩
  exact (prepare_reaches_normal_form _ n n' _ _ (Prod.ext (eq_ok_of_toOption hrun) rfl)).1

end Pass

end Lamina
