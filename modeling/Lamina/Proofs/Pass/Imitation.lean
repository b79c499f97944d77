import Lamina.Proofs.Walk.Imitation

/-! The passes over a template do not mind where its constructs come from: they do alike to trees
that are the same when bare, as long as references are answered alike. -/

namespace Lamina

open Node (bare bareAttr)

def Visitor.EntersAs (O : List Node → List Node → Prop) (v w : Visitor WalkM) : Prop :=
  ∀ (scopes scopes' : List Scope) (n n' : Node), scopes.length = scopes'.length →
    n.bare = n'.bare → Imitates (Entered.Alike O) (v.enter scopes n) (w.enter scopes' n')

theorem enterAll_imitates {O : List Node → List Node → Prop} {vs ws : List (Visitor WalkM)}
    (h : List.Forall₂ (Visitor.EntersAs O) vs ws) {scopes scopes' : List Scope} {n n' : Node}
    (hs : scopes.length = scopes'.length) (hbare : n.bare = n'.bare) :
    Imitates (Entered.Alike O) (Walk.enterAll scopes n vs) (Walk.enterAll scopes' n' ws) := by
  induction h generalizing n n' with
  | nil => exact .ofPure ⟨hbare, rfl, rfl⟩
  | cons hv _ ih =>
    refine .ofBind (hv _ _ _ _ hs hbare) fun e e' he => ?_
    cases e with
    | replace nodes =>
      cases e' with
      | replace nodes' => exact .ofPure he
      | keep => exact he.elim
    | keep m light descend =>
      cases e' with
      | replace => exact he.elim
      | keep m' light' descend' =>
        obtain ⟨hm, rfl, rfl⟩ := he
        refine .ofBind (ih hm) fun d d' hd => ?_
        cases d with
        | replace nodes =>
          cases d' with
          | replace nodes' => exact .ofPure hd
          | keep => exact hd.elim
        | keep =>
          cases d' with
          | replace => exact hd.elim
          | keep =>
            obtain ⟨hk, rfl, rfl⟩ := hd
            exact .ofPure ⟨hk, rfl, rfl⟩

def Left.Alike : Left → Left → Prop
  | keep _, keep _ | replace _, replace _ => True
  | _, _ => False

namespace Pass

variable {O : List Node → List Node → Prop} {r r' : Resolver}

theorem splitAttrs_bare {nodes nodes' ns : List Node} {as : List (Attr Node)}
    (h : splitAttrs nodes = .ok (as, ns)) (hbare : nodes.map bare = nodes'.map bare) :
    ∃ as' ns', splitAttrs nodes' = .ok (as', ns') ∧ as.map bareAttr = as'.map bareAttr ∧
      ns.map bare = ns'.map bare := by
  fun_induction splitAttrs nodes generalizing nodes' as ns with
  | case1 =>
    obtain rfl : nodes' = [] := List.map_eq_nil_iff.mp hbare.symm
    cases h
    exact ⟨[], [], rfl, rfl, rfl⟩
  | case3 => cases h
  | case2 name attrs children closing o rest hname ih =>
    obtain ⟨n', rest', rfl, hn, hrest⟩ := List.map_eq_cons_iff.mp hbare.symm
    obtain ⟨⟨more, others⟩, hsplit, he⟩ := map_eq_ok.mp h
    cases he
    obtain ⟨as', ns', hsplit', ha, hns⟩ := ih hsplit hrest.symm
    obtain ⟨attrs', children', o', rfl, -, -⟩ := Node.exists_tag_of_bare hn.symm
    refine ⟨as', .tag name attrs' children' closing o' :: ns', ?_, ha, ?_⟩
    · rw [splitAttrs, hname, hsplit']
      rfl
    · rw [List.map_cons, List.map_cons, hn, hns]
  | case4 name attrs children closing o rest attr hname hattr ih =>
    obtain ⟨n', rest', rfl, hn, hrest⟩ := List.map_eq_cons_iff.mp hbare.symm
    obtain ⟨⟨more, others⟩, hsplit, he⟩ := map_eq_ok.mp h
    cases he
    obtain ⟨as', ns', hsplit', ha, hns⟩ := ih hsplit hrest.symm
    obtain ⟨attrs', children', o', rfl, -, hc⟩ := Node.exists_tag_of_bare hn.symm
    refine ⟨⟨attr, .quoted '"' children', o'⟩ :: as', ns', ?_, ?_, hns⟩
    · rw [splitAttrs, hname, hsplit']
      simp only [hattr]
      rfl
    · simp [bareAttr, Node.bareValue, Node.bareAll_eq, hc, ha]
  | case5 node rest hnode ih =>
    obtain ⟨n', rest', rfl, hn, hrest⟩ := List.map_eq_cons_iff.mp hbare.symm
    obtain ⟨⟨more, others⟩, hsplit, he⟩ := map_eq_ok.mp h
    cases he
    obtain ⟨as', ns', hsplit', ha, hns⟩ := ih hsplit hrest.symm
    refine ⟨as', n' :: ns', ?_, ha, by rw [List.map_cons, List.map_cons, hn, hns]⟩
    rw [splitAttrs, hsplit']
    · rfl
    · rintro name attrs children closing o rfl
      obtain ⟨attrs', children', o', rfl, -, -⟩ := Node.exists_tag_of_bare hn
      exact hnode name attrs' children' closing o' rfl

theorem attrTags_entersAs : (attrTags r).EntersAs O (attrTags r') := by
  intro scopes scopes' n n' _ hbare
  cases n with
  | tag name attrs children closing o =>
    obtain ⟨attrs', children', o', rfl, ha, hc⟩ := Node.exists_tag_of_bare hbare
    dsimp only [attrTags, Visitor.onEnter]
    split
    · exact .ofThrow
    · next more rest hsplit =>
      obtain ⟨more', rest', hsplit', hmore, hrest⟩ := splitAttrs_bare hsplit hc
      split
      · next herror => rw [hsplit'] at herror; cases herror
      · next hok =>
        rw [hsplit'] at hok
        cases hok
        refine .ofPure ⟨?_, rfl, rfl⟩
        simp [bare, Node.bareAll_eq, Node.bareAttrs_eq, ha, hmore, hrest]
  | _ =>
    cases n' with
    | tag => simp [bare] at hbare
    | _ => exact .ofPure ⟨hbare, rfl, rfl⟩

theorem blockTags_entersAs : (blockTags r).EntersAs O (blockTags r') := by
  intro scopes scopes' n n' _ hbare
  cases n with
  | tag name attrs children closing o =>
    obtain ⟨attrs', children', o', rfl, ha, hc⟩ := Node.exists_tag_of_bare hbare
    dsimp only [blockTags, Visitor.onEnter]
    cases Node.suffix? "block" name with
    | none => exact .ofPure ⟨hbare, rfl, rfl⟩
    | some slot =>
      dsimp only
      split
      · exact .ofThrow
      · exact .ofPure ⟨by simp [bare, Node.bareAll_eq, hc], rfl, rfl⟩
  | _ =>
    cases n' with
    | tag => simp [bare] at hbare
    | _ => exact .ofPure ⟨hbare, rfl, rfl⟩

theorem hiddenTags_enter_of_ne {n : Node} (scopes : List Scope)
    (h : ∀ attrs children closing o, n ≠ .tag "hidden" attrs children closing o) :
    (hiddenTags r).enter scopes n = pure (.go n) := by
  dsimp only [hiddenTags, Visitor.onEnter]
  split
  · exact absurd rfl (h _ _ _ _)
  · rfl

theorem hiddenTags_entersAs (hnil : O [] []) : (hiddenTags r).EntersAs O (hiddenTags r') := by
  intro scopes scopes' n n' _ hbare
  cases n with
  | tag name attrs children closing o =>
    obtain ⟨attrs', children', o', rfl, ha, hc⟩ := Node.exists_tag_of_bare hbare
    by_cases hname : name = "hidden"
    · subst hname
      exact .ofPure hnil
    · rw [hiddenTags_enter_of_ne, hiddenTags_enter_of_ne]
      · exact .ofPure ⟨hbare, rfl, rfl⟩
      · simp [hname]
      · simp [hname]
  | _ =>
    cases n' with
    | tag => simp [bare] at hbare
    | _ => exact .ofPure ⟨hbare, rfl, rfl⟩

theorem stackTags_entersAs : (stackTags r).EntersAs O (stackTags r') := by
  intro scopes scopes' n n' _ hbare
  cases n with
  | tag name attrs children closing o =>
    obtain ⟨attrs', children', o', rfl, ha, hc⟩ := Node.exists_tag_of_bare hbare
    dsimp only [stackTags, Visitor.onEnter]
    rw [← Attr.literal?_bare "name" ha]
    cases Node.suffix? "stack" name with
    | none => exact .ofPure ⟨hbare, rfl, rfl⟩
    | some operation =>
      dsimp only
      cases (Attr.literal? "name" attrs).filter (!·.isEmpty) with
      | none => exact .ofThrow
      | some stack =>
        dsimp only
        split
        · exact .ofPure ⟨by simp [bare, Node.bareAll_eq, hc], rfl, rfl⟩
        · split
          · exact .ofPure ⟨by simp [bare, Node.bareAll_eq, hc], rfl, rfl⟩
          · exact .ofThrow
  | _ =>
    cases n' with
    | tag => simp [bare] at hbare
    | _ => exact .ofPure ⟨hbare, rfl, rfl⟩

theorem prepare_imitation (r r' : Resolver) :
    Imitation (fun n n' => n.bare = n'.bare) (fun nodes nodes' => nodes.map bare = nodes'.map bare)
      (prepare.map fun pass => pass r) (prepare.map fun pass => pass r') := by
  refine ⟨fun hs hbare => enterAll_imitates ?_ hs hbare, fun _ _ h => ?_, rfl, fun h h' => ?_,
    fun hbare hattrs hchildren => ?_⟩
  · exact .cons attrTags_entersAs (.cons blockTags_entersAs (.cons (hiddenTags_entersAs rfl)
      (.cons stackTags_entersAs .nil)))
  · exact .ofPure (by simpa using h)
  · rw [List.map_append, List.map_append, h, h']
  · rw [Node.bare_withParts, Node.bare_withParts, hbare, hchildren, Attr.bare_walked hattrs]

theorem declared?_bare {attrs attrs' : List (Attr Node)}
    (h : attrs.map bareAttr = attrs'.map bareAttr) : declared? attrs = declared? attrs' := by
  rw [declared?, pathOf?, Attr.literal?_bare "path" h, Attr.literal?_bare "as" h, declared?, pathOf?]

theorem imports_entersAs (hnil : O [] []) : (imports r).EntersAs O (imports r') := by
  intro scopes scopes' n n' hs hbare
  cases n with
  | tag name attrs children closing o =>
    obtain ⟨attrs', children', o', rfl, ha, hc⟩ := Node.exists_tag_of_bare hbare
    simp only [imports, ← declared?_bare ha, ← hs]
    split
    · cases declared? attrs with
      | none => exact .ofThrow
      | some d => exact .ofBind (.ofModify _) fun _ _ _ => .ofPure hnil
    · refine .ofBind .ofGet fun notes notes' hnotes => ?_
      subst hnotes
      cases fragmentPath? notes.aliases name with
      | none => exact .ofPure ⟨hbare, rfl, rfl⟩
      | some path =>
        exact .ofPure ⟨by simp [bare, Node.bareAll_eq, Node.bareAttrs_eq, ha, hc], rfl, rfl⟩
  | _ =>
    cases n' with
    | tag => simp [bare] at hbare
    | _ => exact .ofPure ⟨hbare, rfl, rfl⟩

theorem leaveAll_extension_of_pos (strict : Bool) {scopes : List Scope} (h : 0 < scopes.length)
    (n : Node) : Walk.leaveAll scopes n [extension strict r] = pure [n] := by
  have hne : scopes ≠ [] := List.length_pos_iff.mp h
  cases n with
  | template children o => simp [Walk.leaveAll, extension, Visitor.onLeave, hne]
  | _ => simp [Walk.leaveAll, extension, Visitor.onLeave]

theorem imports_leave_imitates {scopes scopes' : List Scope} {n n' : Node}
    (hr : ∀ path o o' s m s', (r.fragment path o).run s = (.ok m, s') →
      ∀ t, (r'.fragment path o').run t = (.ok m, t))
    (hs : scopes.length = scopes'.length)
    (h : (n.withParts [] []).bare = (n'.withParts [] []).bare) :
    Imitates Left.Alike ((imports r).leave scopes n) ((imports r').leave scopes' n') := by
  simp only [imports, ← hs]
  refine .ofBind (.ofModify _) fun _ _ _ => ?_
  cases n with
  | fragment path attrs children o =>
    obtain ⟨attrs', children', o', rfl⟩ := Node.exists_fragment_of_bare h
    have hlift : Imitates Eq (liftM (r.fragment path o) : WalkM Node) (liftM (r'.fragment path o')) :=
      .ofLift fun s m s' hm => ⟨m, rfl, hr path o o' s m s' hm⟩
    exact .ofBind hlift fun _ _ _ => .ofPure trivial
  | _ =>
    cases n' with
    | fragment => simp [bare, Node.withParts] at h
    | _ => exact .ofPure trivial

/-- Below its root, a page is resolved alike if its fragments are: whether that works out depends on
what the constructs are, not on what has come of their parts. -/
theorem transform_imitation (strict : Bool) (hr : ∀ path o o' s m s',
      (r.fragment path o).run s = (.ok m, s') → ∀ t, (r'.fragment path o').run t = (.ok m, t)) :
    Imitation (fun n n' => (n.withParts [] []).bare = (n'.withParts [] []).bare) (fun _ _ => True)
      [imports r, extension strict r] [imports r', extension strict r'] := by
  refine ⟨fun hs hbare => enterAll_imitates ?_ hs hbare, fun {scopes scopes' n n'} hs hpos h => ?_,
    trivial, fun _ _ => trivial, fun hbare _ _ => ?_⟩
  · exact .cons (imports_entersAs trivial) (.cons (fun _ _ _ _ _ h => .ofPure ⟨h, rfl, rfl⟩) .nil)
  · refine .ofBind (imports_leave_imitates hr hs h) fun left left' hleft => ?_
    cases left with
    | replace nodes =>
      cases left' with
      | replace nodes' => exact .ofPure trivial
      | keep => exact hleft.elim
    | keep m =>
      cases left' with
      | replace => exact hleft.elim
      | keep m' =>
        simp only [leaveAll_extension_of_pos strict hpos,
          leaveAll_extension_of_pos strict (hs ▸ hpos)]
        exact .ofPure trivial
  · rw [Node.withParts_withParts, Node.withParts_withParts, Node.bare_withParts,
      Node.bare_withParts, hbare]

end Pass

end Lamina
