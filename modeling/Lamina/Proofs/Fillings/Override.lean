import Lamina.Proofs.Fillings.Parent
import Lamina.Proofs.Node.Linking

/-! Filling slots twice. Fillings that cover the names of earlier ones make these undone, because a
slot that is filled stays a slot of its name, at its place, with the filling inside. Nothing inside
a filling is filled by the same fillings. -/

namespace Lamina

namespace Node

def isFragment : Node → Bool
  | fragment .. => true
  | _ => false

mutual

def trunk : Node → List Node
  | template children o => template children o :: trunkAll children
  | raw text o => [raw text o]
  | tag name attrs children closing o => tag name attrs children closing o :: trunkAll children
  | directive name values body o => [directive name values body o]
  | echo expr escape o => [echo expr escape o]
  | host code o => [host code o]
  | block name children o => block name children o :: trunkAll children
  | stack name children o => stack name children o :: trunkAll children
  | push name prepend children o => push name prepend children o :: trunkAll children
  | fragment path attrs children o => fragment path attrs children o :: trunkAll children

def trunkAll : List Node → List Node
  | [] => []
  | node :: rest => trunk node ++ trunkAll rest

end

theorem trunk_eq (n : Node) : n.trunk = n :: trunkAll n.children := by
  cases n <;> rfl

theorem mem_trunkAll {x : Node} {nodes : List Node} :
    x ∈ trunkAll nodes ↔ ∃ n ∈ nodes, x ∈ n.trunk := by
  induction nodes with
  | nil => simp [trunkAll]
  | cons n nodes ih => simp [trunkAll, ih]

theorem withParentAll_eq_self_of {content nodes : List Node}
    (h : ∀ n ∈ nodes, n.withParent content = [n]) : withParentAll content nodes = nodes := by
  rw [withParentAll_eq, List.flatMap_congr h]
  exact List.flatMap_pure_eq_map _ _ |>.trans (List.map_id _)

theorem withParent_eq_self (content : List Node) (n : Node)
    (h : ∀ x ∈ n.trunk, x.isParent = false) : n.withParent content = [n] := by
  induction n using byParts with
  | parts n _ ih =>
    rw [trunk_eq, List.forall_mem_cons] at h
    have hchildren : withParentAll content n.children = n.children :=
      withParentAll_eq_self_of fun c hc => ih c hc fun x hx =>
        h.2 x (mem_trunkAll.mpr ⟨c, hc, hx⟩)
    rw [withParent_eq, h.1, if_neg Bool.false_ne_true, hchildren]
    cases n <;> rfl

theorem withParentAll_eq_self (content : List Node) {nodes : List Node}
    (h : ∀ x ∈ trunkAll nodes, x.isParent = false) : withParentAll content nodes = nodes :=
  withParentAll_eq_self_of fun n hn => withParent_eq_self content n fun x hx =>
    h x (mem_trunkAll.mpr ⟨n, hn, hx⟩)

variable {f f' : Fillings} {name : String} {content : List Node}

theorem fill_block_of_some (hname : f.get? name = some content)
    (hparent : ∀ x ∈ trunkAll content, x.isParent = false) (children : List Node) (o : Origin) :
    fill f (block name children o) = block name content o := by
  simp only [fill, hname, withParentAll_eq_self children hparent]

theorem fill_block_of_none (hname : f.get? name = none) (children : List Node) (o : Origin) :
    fill f (block name children o) = block name (fillAll f children) o := by
  simp only [fill, hname]

theorem exists_fill_block (f : Fillings) (name : String) (children : List Node) (o : Origin) :
    ∃ children', fill f (block name children o) = block name children' o := by
  rw [fill]
  split <;> exact ⟨_, rfl⟩

theorem get?_eq_none_of_covers (hnames : ∀ name, f.contains name = true → f'.contains name = true)
    (hname : f'.get? name = none) : f.get? name = none := by
  rw [← Option.not_isSome_iff_eq_none] at hname ⊢
  exact fun h => hname (hnames name h)

theorem fill_fill (hnames : ∀ name, f.contains name = true → f'.contains name = true)
    (hparent : ∀ name content, f'.get? name = some content →
      ∀ x ∈ trunkAll content, x.isParent = false) (n : Node) :
    (n.fill f).fill f' = n.fill f' := by
  induction n using byParts with
  | parts n iha ihc =>
    have hall : fillAll f' (fillAll f n.children) = fillAll f' n.children := by
      rw [fillAll_eq, fillAll_eq, fillAll_eq, List.map_map]
      exact List.map_congr_left ihc
    have hattrs : fillAttrs f' (fillAttrs f n.attrs) = fillAttrs f' n.attrs := by
      rw [fillAttrs_eq, fillAttrs_eq, fillAttrs_eq, List.map_map]
      refine List.map_congr_left fun a ha => ?_
      have hinner : (a.value.inner.map (fill f)).map (fill f') = a.value.inner.map (fill f') := by
        rw [List.map_map]
        exact List.map_congr_left (iha a ha)
      obtain ⟨name, value, o⟩ := a
      cases value with
      | bare | unquoted => rfl
      | quoted quote nodes => exact congrArg (fun nodes => Attr.mk name (.quoted quote nodes) o) hinner
      | dynamic nodes => exact congrArg (fun nodes => Attr.mk name (.dynamic nodes) o) hinner
    cases n with
    | block name children o =>
      cases hf' : f'.get? name with
      | some content =>
        obtain ⟨children', hkept⟩ := exists_fill_block f name children o
        rw [hkept, fill_block_of_some hf' (hparent name content hf'),
          fill_block_of_some hf' (hparent name content hf')]
      | none =>
        rw [fill_block_of_none (get?_eq_none_of_covers hnames hf'), fill_block_of_none hf',
          fill_block_of_none hf']
        exact congrArg (block name · o) hall
    | tag name attrs children closing o =>
      exact congrArg₂ (fun attrs children => tag name attrs children closing o) hattrs hall
    | template children o => exact congrArg (template · o) hall
    | stack name children o => exact congrArg (stack name · o) hall
    | push name prepend children o => exact congrArg (push name prepend · o) hall
    | fragment path attrs children o => exact congrArg (fragment path attrs · o) hall
    | raw | directive | echo | host => rfl

theorem filled_fill (hnames : ∀ name, f.contains name = true → f'.contains name = true) (n : Node) :
    filled f' (n.fill f) = filled f' n := by
  induction n using byParts with
  | parts n iha ihc =>
    have hall : filledAll f' (fillAll f n.children) = filledAll f' n.children := by
      rw [filledAll_eq, filledAll_eq, fillAll_eq, List.flatMap_map]
      exact List.flatMap_congr ihc
    have hattrs : filledAttrs f' (fillAttrs f n.attrs) = filledAttrs f' n.attrs := by
      rw [filledAttrs_eq, filledAttrs_eq, fillAttrs_eq, List.flatMap_map]
      refine List.flatMap_congr fun a ha => ?_
      have hinner : (a.value.inner.map (fill f)).flatMap (filled f') =
          a.value.inner.flatMap (filled f') := by
        rw [List.flatMap_map]
        exact List.flatMap_congr (iha a ha)
      cases hv : a.value with
      | bare | unquoted => rfl
      | quoted | dynamic =>
        rw [hv] at hinner
        exact hinner
    cases n with
    | block name children o =>
      cases hf' : f'.get? name with
      | some content =>
        have hcontains : f'.contains name = true := Table.contains_iff.mpr ⟨content, hf'⟩
        obtain ⟨children', hkept⟩ := exists_fill_block f name children o
        rw [hkept, filled, filled, if_pos hcontains, if_pos hcontains]
      | none =>
        rw [fill_block_of_none (get?_eq_none_of_covers hnames hf')]
        simp only [filled]
        rw [show filledAll f' (fillAll f children) = filledAll f' children from hall]
    | tag name attrs children closing o => exact congrArg₂ (· ++ ·) hattrs hall
    | template | stack | push | fragment => exact hall
    | raw | directive | echo | host => rfl

theorem step?_fill {n : Node} (hslot : ∀ name ∈ n.slot?, f.get? name = none)
    (hfragment : n.isFragment = false) (step : Step) :
    (n.fill f).step? step = (n.step? step).map (fill f) := by
  have hchildren : (n.fill f).children = fillAll f n.children := by
    cases n with
    | block name children o => rw [fill_block_of_none (hslot name rfl)]; rfl
    | _ => rfl
  have hattrs : (n.fill f).attrs = fillAttrs f n.attrs := by
    cases n with
    | block name children o => rw [fill_block_of_none (hslot name rfl)]; rfl
    | fragment => cases hfragment
    | _ => rfl
  cases step with
  | child i => rw [step?, step?, hchildren, fillAll_eq, List.getElem?_map]
  | inner j i =>
    rw [step?, step?, hattrs, fillAttrs_eq, List.getElem?_map]
    cases n.attrs[j]? with
    | none => rfl
    | some a =>
      obtain ⟨name, value, o⟩ := a
      cases value with
      | bare | unquoted => rfl
      | quoted | dynamic => exact List.getElem?_map ..

theorem at?_fill {place : List Step} {n : Node}
    (hslots : ∀ m ∈ n.above place, ∀ name ∈ m.slot?, f.get? name = none)
    (hfragments : ∀ m ∈ n.above place, m.isFragment = false) :
    (n.fill f).at? place = (n.at? place).map (fill f) := by
  induction place generalizing n with
  | nil => rfl
  | cons step place ih =>
    rw [above, List.forall_mem_cons] at hslots hfragments
    rw [at?, at?, step?_fill hslots.1 hfragments.1]
    cases hm : n.step? step with
    | none => rfl
    | some m =>
      rw [hm] at hslots hfragments
      exact ih hslots.2 hfragments.2

theorem mem_nodes_of_step? {n m : Node} {step : Step} (h : n.step? step = some m) :
    ∀ x ∈ m.nodes, x ∈ n.nodes := by
  intro x hx
  rw [nodes_eq n, List.mem_cons, List.mem_append, mem_nodesAttrs, mem_nodesAll]
  cases step with
  | child i => exact .inr (.inr ⟨m, List.mem_of_getElem? h, hx⟩)
  | inner j i =>
    obtain ⟨a, ha, hm⟩ := Option.bind_eq_some_iff.mp h
    exact .inr (.inl ⟨a, List.mem_of_getElem? ha, m, List.mem_of_getElem? hm, hx⟩)

theorem mem_nodes_of_mem_above {place : List Step} {n m : Node} (h : m ∈ n.above place) :
    m ∈ n.nodes := by
  induction place generalizing n with
  | nil => cases h
  | cons step place ih =>
    rcases List.mem_cons.mp h with rfl | h
    · rw [nodes_eq]
      exact .head _
    · cases hstep : n.step? step with
      | none =>
        rw [hstep] at h
        cases h
      | some c =>
        rw [hstep] at h
        exact mem_nodes_of_step? hstep m (ih h)

/-- Fillings that have all the names of earlier ones leave nothing of them, neither in the tree nor
among the names that are filled. A slot that is filled holds the filling as it is, with none of the
slots in it filled. -/
theorem later_fillings_win (f₁ f₂ : Fillings) (nodes : List Node)
    (hfragments : ∀ x ∈ nodesAll nodes, x.isFragment = false)
    (hnames : ∀ name, f₁.contains name = true → f₂.contains name = true)
    (hparent : ∀ name content, f₂.get? name = some content →
      ∀ x ∈ trunkAll content, x.isParent = false) :
    (fillAll f₂ (fillAll f₁ nodes) = fillAll f₂ nodes ∧
      filledAll f₂ (fillAll f₁ nodes) = filledAll f₂ nodes) ∧
    (fillAll f₂ (fillAll f₂ nodes) = fillAll f₂ nodes ∧
      filledAll f₂ (fillAll f₂ nodes) = filledAll f₂ nodes) ∧
    ∀ (place : List Step) (name : String) (children content : List Node) (o r : Origin),
      (template nodes r).at? place = some (block name children o) →
      (∀ m ∈ (template nodes r).above place, ∀ slot ∈ m.slot?, f₂.get? slot = none) →
      f₂.get? name = some content →
      (template (fillAll f₂ nodes) r).at? place = some (block name content o) := by
  have hagain (f : Fillings) (hf : ∀ name, f.contains name = true → f₂.contains name = true) :
      fillAll f₂ (fillAll f nodes) = fillAll f₂ nodes ∧
        filledAll f₂ (fillAll f nodes) = filledAll f₂ nodes := by
    rw [fillAll_eq f, fillAll_eq, fillAll_eq, filledAll_eq, filledAll_eq, List.map_map,
      List.flatMap_map]
    exact ⟨List.map_congr_left fun n _ => fill_fill hf hparent n,
      List.flatMap_congr fun n _ => filled_fill hf n⟩
  refine ⟨hagain f₁ hnames, hagain f₂ fun _ h => h, ?_⟩
  intro place name children content o r hat hslots hname
  have hpage : ∀ m ∈ (template nodes r).above place, m.isFragment = false := by
    intro m hm
    have hmem := mem_nodes_of_mem_above hm
    rw [nodes_eq, List.mem_cons] at hmem
    rcases hmem with rfl | hmem
    · rfl
    · exact hfragments m hmem
  have hfilled := at?_fill hslots hpage
  rw [hat, Option.map_some, fill_block_of_some hname (hparent name content hname)] at hfilled
  exact hfilled

/-- A slot is filled twice, the second time with a slot that has a filling too and stays empty. -/
theorem later_fillings_win_paragraph :
    let o : Origin := .of "default/page.stm" 1 .html ""
    let f₁ : Fillings := .single "body" [.raw "first" o]
    let f₂ : Fillings := .ofPairs [("body", [.block "title" [] o]), ("title", [.raw "second" o])]
    let nodes := [tag "p" [⟨"id", .quoted '"' [.block "title" [] o], o⟩]
      [.block "body" [.raw "default" o] o] .pair o]
    fillAll f₂ (fillAll f₁ nodes) = fillAll f₂ nodes ∧
      (template (fillAll f₂ nodes) o).at? [.child 0, .child 0] =
        some (.block "body" [.block "title" [] o] o) := by
  intro o f₁ f₂ nodes
  have hnames : ∀ name, f₁.contains name = true → f₂.contains name = true := by
    intro name h
    rw [List.mem_singleton.mp (Table.contains_iff_mem_keys.mp h)]
    decide +kernel
  have hparent : ∀ e ∈ f₂.entries, ∀ x ∈ trunkAll e.2, x.isParent = false := by decide +kernel
  have h := later_fillings_win f₁ f₂ nodes (by decide +kernel) hnames
    fun name content hname => hparent (name, content) (Table.mem_of_get? hname)
  have hbody : f₂.get? "body" = some [.block "title" [] o] := by
    simp [f₂, Table.ofPairs, Table.get?_set]
  refine ⟨h.1.1, h.2.2 [.child 0, .child 0] "body" [.raw "default" o] _ o o rfl ?_ hbody⟩
  exact List.forall_mem_cons.mpr ⟨fun slot h => absurd h (Option.not_mem_none slot),
    List.forall_mem_singleton.mpr fun slot h => absurd h (Option.not_mem_none slot)⟩

end Node

end Lamina
