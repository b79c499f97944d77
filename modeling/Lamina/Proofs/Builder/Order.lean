import Lamina.Proofs.Builder.Bodies

/-! The order of includes. A template that only includes others loads in any order of its elements,
except that references may nest too deep: a fragment that was loaded before is taken from the
session, however deep it would have nested. -/

namespace Lamina

/-- Both loaders find the same templates and read them alike, unless one has the identity `i` as well
as `i'`. Two templates of one loader are meant by this, or one template in two loaders. -/
structure Loader.SameBut (i i' : String) (l l' : Loader) : Prop where
  locate : l'.locate = l.locate
  read : ∀ path view, l.locate path = .ok view → view.identity ≠ i ∨ view.identity ≠ i' →
    l'.read view = l.read view

theorem Loader.SameBut.symm {i i' : String} {l l' : Loader} (h : l.SameBut i i' l') :
    l'.SameBut i' i l := by
  refine ⟨h.locate.symm, fun path view hv hne => ?_⟩
  rw [h.locate] at hv
  exact (h.read path view hv hne.symm).symm

namespace Node

theorem isInclude_bare (n : Node) : n.bare.isInclude = n.isInclude := by
  cases n <;> rfl

theorem isInclude_eq_of_bare {n n' : Node} (h : n.bare = n'.bare) : n.isInclude = n'.isInclude := by
  rw [← isInclude_bare, h, isInclude_bare]

theorem exists_tag_of_isInclude {n : Node} (h : n.isInclude = true) :
    ∃ name suffix attrs children closing o, n = .tag name attrs children closing o ∧
      suffix? "include" name = some suffix := by
  cases n with
  | tag name attrs children closing o =>
    obtain ⟨suffix, hname⟩ := Option.isSome_iff_exists.mp h
    exact ⟨name, suffix, attrs, children, closing, o, rfl, hname⟩
  | _ => cases h

def plainName? : Node → Option String
  | tag name [] [] .selfClosing _ => some name
  | _ => none

theorem bare_of_plainName? {n : Node} {name : String} (h : n.plainName? = some name) :
    n.bare = .tag name [] [] .selfClosing .nowhere := by
  unfold plainName? at h
  split at h
  · cases h
    rfl
  · cases h

theorem map_bare_of_plainName? {nodes : List Node} {names : List String}
    (h : nodes.map plainName? = names.map some) :
    nodes.map bare = names.map fun name => .tag name [] [] .selfClosing .nowhere := by
  induction nodes generalizing names with
  | nil =>
    rw [List.map_eq_nil_iff.mp h.symm]
    rfl
  | cons n nodes ih =>
    cases names with
    | nil => cases h
    | cons name names =>
      obtain ⟨hn, hnodes⟩ := List.cons.inj h
      rw [List.map_cons, List.map_cons, bare_of_plainName? hn, ih hnodes]

end Node

namespace Pass

variable {r : Resolver} {scopes scopes' : List Scope} {nodes nodes' outs : List Node}
  {notes : Notes} {s s' : Session}

theorem prepare_includes (hs : scopes.length = scopes'.length) (hpos : 0 < scopes.length)
    (hincludes : ∀ n ∈ nodes, n.isInclude = true) (hsame : ∀ n' ∈ nodes', ∃ n ∈ nodes, n.bare = n'.bare)
    (h : ((Walk.list (prepare.map fun pass : Pass => pass r) scopes nodes).run {}).run s =
      (.ok (outs, notes), s')) :
    (∀ x ∈ outs, x.isInclude = true) ∧ ∃ outs', (∀ x' ∈ outs', ∃ x ∈ outs, x.bare = x'.bare) ∧
      ∀ t, ((Walk.list (prepare.map fun pass : Pass => pass r) scopes' nodes').run {}).run t =
        (.ok (outs', {}), t) := by
  have hstep : ∀ n ∈ nodes, ∀ s out notes s',
      ((Walk.node (prepare.map fun pass : Pass => pass r) scopes n).run {}).run s =
        (.ok (out, notes), s') → notes = {} ∧ ∀ x ∈ out, x.isInclude = true := by
    intro n hn s out notes s' hrun
    obtain ⟨name, suffix, attrs, children, closing, o, rfl, hname⟩ :=
      Node.exists_tag_of_isInclude (hincludes n hn)
    obtain ⟨attrs', children', rfl⟩ := prepare_include_run hname hrun
    have hinclude : (Node.tag name attrs' children' closing o).isInclude = true :=
      Option.isSome_of_eq_some hname
    exact ⟨prepare_blank hrun, List.forall_mem_singleton.mpr hinclude⟩
  -- no element leaves notes for the next one, so each can be looked at alone
  obtain ⟨-, houts, hnodes⟩ := Walk.nodes_run_of_list hstep h
  refine ⟨houts, Walk.list_run_of_nodes fun n' hn' => ?_⟩
  obtain ⟨n, hn, hbare⟩ := hsame n' hn'
  obtain ⟨out, t, t', hrun, hout⟩ := hnodes n hn
  obtain ⟨out', hlike, hrun'⟩ :=
    (prepare_imitation r r).walk_node n scopes scopes' n' hs hpos hbare {} t out {} t' hrun
  refine ⟨out', fun x' hx' => ?_, hrun'⟩
  have hmem : x'.bare ∈ out.map Node.bare := hlike ▸ List.mem_map_of_mem hx'
  obtain ⟨x, hx, hx'⟩ := List.mem_map.mp hmem
  exact ⟨x, hout x hx, hx'⟩

/-- Includes are resolved one by one, in any order, where fragments are the same for every reference
and extend nothing. -/
theorem transform_includes {strict : Bool} (hs : scopes.length = scopes'.length)
    (hpos : 0 < scopes.length)
    (hr : ∀ path o o' s m s', (r.fragment path o).run s = (.ok m, s') →
      ∀ t, (r.fragment path o').run t = (.ok m, t))
    (hnone : ∀ path o s m s', (r.fragment path o).run s = (.ok m, s') →
      takeExtends m.contents = none)
    (hincludes : ∀ n ∈ nodes, n.isInclude = true) (hsame : ∀ n' ∈ nodes', ∃ n ∈ nodes, n.bare = n'.bare)
    (h : ((Walk.list [imports r, extension strict r] scopes nodes).run {}).run s =
      (.ok (outs, notes), s')) :
    ∃ outs', takeExtends outs' = none ∧
      ∀ t, ((Walk.list [imports r, extension strict r] scopes' nodes').run {}).run t =
        (.ok (outs', {}), t) := by
  have hstep : ∀ n, n.isInclude = true → ∀ scopes s out notes s',
      ((Walk.node [imports r, extension strict r] scopes n).run {}).run s = (.ok (out, notes), s') →
        notes = {} ∧ ∀ x ∈ out, x.isExtension = false := by
    intro n hn scopes s out notes s' hrun
    obtain ⟨name, suffix, attrs, children, closing, o, rfl, hname⟩ := Node.exists_tag_of_isInclude hn
    obtain ⟨attrs', children', m, t, t', hfragment, rfl⟩ := transform_include_run hname hrun
    exact ⟨transform_include_blank hname hrun,
      Node.not_isExtension_fillAll (hnone _ _ _ m _ hfragment)⟩
  obtain ⟨-, -, hnodes⟩ := Walk.nodes_run_of_list (fun n hn => hstep n (hincludes n hn) scopes) h
  simp only [takeExtends_eq_none_iff]
  refine Walk.list_run_of_nodes fun n' hn' => ?_
  obtain ⟨n, hn, hbare⟩ := hsame n' hn'
  obtain ⟨out, t, t', hrun, -⟩ := hnodes n hn
  obtain ⟨out', -, hrun'⟩ :=
    (transform_imitation strict hr).walk_node n scopes scopes' n' hs hpos hbare {} t out {} t' hrun
  have hinclude : n'.isInclude = true := (Node.isInclude_eq_of_bare hbare).symm.trans (hincludes n hn)
  exact ⟨out', (hstep n' hinclude scopes' t out' {} t (hrun' t)).2, hrun'⟩

end Pass

namespace Builder

variable {b : Builder} {context : Context} {view view' : View} {l : Loader} {i : String}
  {strict : Bool} {body body' : List Node} {n : Node} {path path' : String}

theorem answer_withLoader (h : l.locate = b.loader.locate) (trees : View → Option Node) :
    (b.withLoader l).answer trees = b.answer trees := by
  funext path o
  simp only [answer, withLoader, h]

theorem parse_withLoader (h : l.read view = b.loader.read view) (r : Resolver) :
    (b.withLoader l).parse context r view = b.parse context r view := by
  simp only [parse, source, withLoader, h]

/-- What is arrived at without a template is arrived at also where that template is another one. -/
theorem Avoids.withLoader (hsame : b.loader.SameBut view.identity i l) {v : View} {m : Node}
    (h : b.Avoids context (· = view.identity) v m) (hv : b.loader.locate path = .ok v) :
    (b.withLoader l).Avoids context (· = view.identity) v m := by
  induction h generalizing path with
  | intro outside loads fragments _ parsed ih =>
    rw [← answer_withLoader hsame.locate, ← answer_withLoader hsame.locate,
      ← parse_withLoader (hsame.read path _ hv (.inl outside))] at parsed
    refine .intro outside loads fragments (fun path v m hv hm => ?_) parsed
    replace hv : b.loader.locate path = .ok v := hsame.locate ▸ hv
    exact ih path v m hv hm hv

theorem parse_reordered {loads fragments : View → Option Node} {r : Resolver}
    (hr : r = ⟨b.answer loads, b.answer fragments⟩)
    (hprepare : b.prepare = Pass.prepare) (htransform : b.transform = Pass.transform strict)
    (hbody : b.HasBody context view body) (hbody' : (b.withLoader l).HasBody context view' body')
    (hincludes : ∀ n ∈ body, n.isInclude = true) (hsame : ∀ n' ∈ body', ∃ n ∈ body, n.bare = n'.bare)
    (hnone : ∀ path v m, b.loader.locate path = .ok v → fragments v = some m →
      Pass.takeExtends m.contents = none)
    {s s' : Session} (h : (b.parse context r view).run s = (.ok n, s')) :
    ∃ n' t t', ((b.withLoader l).parse context r view').run t = (.ok n', t') := by
  have hfragment : ∀ path o o' s m s', (r.fragment path o).run s = (.ok m, s') →
      (∀ t, (r.fragment path o').run t = (.ok m, t)) ∧ Pass.takeExtends m.contents = none := by
    subst hr
    intro path o o' s m s' hm
    obtain ⟨-, v, hv, hm⟩ := (answer_run_eq_ok o).mp hm
    exact ⟨fun t => (answer_run_eq_ok o').mpr ⟨rfl, v, hv, hm⟩, hnone path v m hv hm⟩
  obtain ⟨prepared, notes, s₁, outs, notes', s₂, children, hlist, hlist', -⟩ :=
    hbody.stages hprepare htransform h
  have hlength : [Scope.template view.filename].length = [Scope.template view'.filename].length := rfl
  obtain ⟨hprepared, prepared', hlike, hruns⟩ :=
    Pass.prepare_includes hlength Nat.one_pos hincludes hsame hlist
  obtain ⟨outs', hextends, hruns'⟩ := Pass.transform_includes hlength Nat.one_pos
    (fun path o o' s m s' hm => (hfragment path o o' s m s' hm).1)
    (fun path o s m s' hm => (hfragment path o o s m s' hm).2) hprepared hlike hlist'
  exact ⟨_, {}, _, hbody'.parse_of_stages hprepare htransform (hruns _) (hruns' _) hextends⟩

theorem load_reordered (hb : b.Regular) (hl : b.loader.Faithful) (hl' : l.Faithful)
    (hprepare : b.prepare = Pass.prepare) (htransform : b.transform = Pass.transform strict)
    (hview : b.loader.locate path = .ok view) (hview' : l.locate path' = .ok view')
    (hloader : b.loader.SameBut view.identity i l)
    (hbody : b.HasBody context view body) (hbody' : (b.withLoader l).HasBody context view' body')
    (hincludes : ∀ n ∈ body, n.isInclude = true) (hsame : ∀ n' ∈ body', ∃ n ∈ body, n.bare = n'.bare)
    (reference reference' : Option Origin)
    (h : ((b.load context path reference).run {}).1 = .ok n) :
    (∃ n', (((b.withLoader l).load context path' reference').run {}).1 = .ok n') ∨
      ∃ failure, (((b.withLoader l).load context path' reference').run {}).1 = .error failure ∧
        failure.TooDeep b.maxDepth := by
  have haccounts := loadBy_accounts hb hl context true b.maxDepth [] path reference
  rw [loadBy_true] at haccounts
  obtain ⟨-, -, hok⟩ := haccounts {} trusts_empty _ _ rfl
  obtain ⟨v, hv, hmeans⟩ := hok n h
  obtain rfl := Except.ok.inj (hview.symm.trans hv)
  -- the page has no part in what it includes, so the other loader comes to the same fragments
  obtain ⟨loads, fragments, s, s', answered, parsed⟩ := (avoids_of_means hmeans).rests hb hl hview
  obtain ⟨n', t, t', parsed'⟩ := parse_reordered rfl hprepare htransform hbody hbody' hincludes hsame
    (fun path v m hv hm => (answered path v m hv (.inr hm)).means.takeExtends_eq_none hprepare htransform)
    parsed
  rw [← answer_withLoader hloader.locate, ← answer_withLoader hloader.locate] at parsed'
  have havoids : (b.withLoader l).Avoids context (· ∈ []) view' n' := by
    refine .intro List.not_mem_nil loads fragments (fun path v m hv hm => ?_) parsed'
    replace hv : b.loader.locate path = .ok v := hloader.locate ▸ hv
    have hchild : b.Avoids context (· = view.identity) v m :=
      (answered path v m hv hm).anti fun _ => .inr
    exact (hchild.withLoader hloader hv).anti fun _ hi => absurd hi List.not_mem_nil
  rcases loadAt_reaches (hb.withLoader l) hl' b.maxDepth reference' hview' havoids trusts_empty with
    ⟨t, hrun⟩ | ⟨failure, t, hrun, hdeep⟩
  · exact .inl ⟨n', congrArg Prod.fst hrun⟩
  · exact .inr ⟨failure, congrArg Prod.fst hrun, hdeep⟩

/-- Including the same elements in another order makes no difference, except at the limit: two
templates whose elements are includes and the same up to their order both load or both fail, unless
one of them fails because references nest too deep. -/
theorem order_matters_only_at_limit (limit : Nat) (directives : Directives)
    (preserve : List Scope → Bool) (strict : Bool) (library library' : Library) (d d' : Disk)
    (context : Context) (path path' : String) (reference reference' : Option Origin)
    (view view' : View) (body body' : List Node)
    (hview : (library.loader d).locate path = .ok view)
    (hview' : (library'.loader d').locate path' = .ok view')
    (hloader : (library.loader d).SameBut view.identity view'.identity (library'.loader d'))
    (hbody : (nesting limit directives preserve strict (library.loader d)).HasBody context view body)
    (hbody' : (nesting limit directives preserve strict (library'.loader d')).HasBody context view'
      body')
    (hincludes : ∀ n ∈ body, n.isInclude = true)
    (hperm : (body.map Node.bare).Perm (body'.map Node.bare)) :
    let outcome := (((nesting limit directives preserve strict (library.loader d)).load context path
      reference).run {}).1
    let outcome' := (((nesting limit directives preserve strict (library'.loader d')).load context
      path' reference').run {}).1
    outcome.isOk = outcome'.isOk ∨
      ∃ failure, failure.TooDeep limit ∧ (outcome = .error failure ∨ outcome' = .error failure) := by
  intro outcome outcome'
  have hb := nesting_regular limit directives preserve strict (library.loader d)
  have hb' := nesting_regular limit directives preserve strict (library'.loader d')
  have hsame : ∀ n' ∈ body', ∃ n ∈ body, n.bare = n'.bare := fun n' hn' =>
    List.mem_map.mp (hperm.mem_iff.mpr (List.mem_map_of_mem hn'))
  have hsame' : ∀ n ∈ body, ∃ n' ∈ body', n'.bare = n.bare := fun n hn =>
    List.mem_map.mp (hperm.mem_iff.mp (List.mem_map_of_mem hn))
  have hincludes' : ∀ n' ∈ body', n'.isInclude = true := by
    intro n' hn'
    obtain ⟨n, hn, hbare⟩ := hsame n' hn'
    exact (Node.isInclude_eq_of_bare hbare).symm.trans (hincludes n hn)
  have hforth (n : Node) (h : outcome = .ok n) := load_reordered hb (library.faithful d)
    (library'.faithful d') rfl rfl hview hview' hloader hbody hbody' hincludes hsame reference
    reference' h
  have hback (n : Node) (h : outcome' = .ok n) := load_reordered hb' (library'.faithful d')
    (library.faithful d) rfl rfl hview' hview hloader.symm hbody' hbody hincludes' hsame' reference'
    reference h
  exact isOk_eq_or_error hforth hback

/-- Two pages with the same includes in either order, where one include leads to the other. -/
def stairs : Library :=
  .memory [("default:first", "<include:a/><include:b/>"), ("default:second", "<include:b/><include:a/>"),
    ("default:a", "<include:b/>"), ("default:b", "x")]

def stairsBuilder : Builder :=
  nesting 2 .builtin (Pass.preserveIn defaultPreserveTags) false (stairs.loader (.empty "/"))

def stairsPage (name : String) : View := ⟨"default/" ++ name ++ ".stm", "default", name⟩

theorem exists_body_of_names (b : Builder) (context : Context) (view : View) (names : List String)
    (h : ((b.text context view).toOption.bind fun text =>
      (Node.parse text view.filename).toOption).map (·.contents.map Node.plainName?) =
        some (names.map some)) :
    ∃ body, b.HasBody context view body ∧
      body.map Node.bare = names.map fun name => .tag name [] [] .selfClosing .nowhere := by
  obtain ⟨root, hroot, hnames⟩ := Option.map_eq_some_iff.mp h
  obtain ⟨text, htext, hparse⟩ := Option.bind_eq_some_iff.mp hroot
  have hparse := eq_ok_of_toOption hparse
  obtain ⟨-, body, -, -, rfl⟩ := Node.exists_of_parse hparse
  exact ⟨body, ⟨text, eq_ok_of_toOption htext, hparse⟩, Node.map_bare_of_plainName? hnames⟩

set_option maxRecDepth 100000 in
theorem stairs_bodies : ∃ body body',
    stairsBuilder.HasBody .empty (stairsPage "first") body ∧
      stairsBuilder.HasBody .empty (stairsPage "second") body' ∧
      (∀ n ∈ body, n.isInclude = true) ∧ (body.map Node.bare).Perm (body'.map Node.bare) := by
  obtain ⟨body, hbody, hbare⟩ := exists_body_of_names stairsBuilder .empty (stairsPage "first")
    ["include:a", "include:b"] (by decide +kernel)
  obtain ⟨body', hbody', hbare'⟩ := exists_body_of_names stairsBuilder .empty (stairsPage "second")
    ["include:b", "include:a"] (by decide +kernel)
  have hincludes : ∀ m ∈ body.map Node.bare, m.isInclude = true := by
    rw [hbare]
    decide
  refine ⟨body, body', hbody, hbody', fun n hn => ?_, ?_⟩
  · rw [← Node.isInclude_bare]
    exact hincludes n.bare (List.mem_map_of_mem hn)
  · rw [hbare, hbare']
    exact .swap _ _ _

set_option maxRecDepth 100000 in
theorem order_matters_only_at_limit_stairs :
    ∃ failure, failure.TooDeep 2 ∧
      ((stairsBuilder.load .empty "first" none).run {}).1 = .error failure := by
  obtain ⟨body, body', hbody, hbody', hincludes, hperm⟩ := stairs_bodies
  have hview : stairsBuilder.loader.locate "first" = .ok (stairsPage "first") :=
    eq_ok_of_toOption (by decide +kernel)
  have hview' : stairsBuilder.loader.locate "second" = .ok (stairsPage "second") :=
    eq_ok_of_toOption (by decide +kernel)
  have hfirst : ((stairsBuilder.load .empty "first" none).run {}).1.isOk = false := by decide +kernel
  have hsecond : ((stairsBuilder.load .empty "second" none).run {}).1.isOk = true := by
    decide +kernel
  rcases order_matters_only_at_limit 2 .builtin (Pass.preserveIn defaultPreserveTags) false stairs
    stairs (.empty "/") (.empty "/") .empty "first" "second" none none (stairsPage "first")
    (stairsPage "second") body body' hview hview' ⟨rfl, fun _ _ _ _ => rfl⟩ hbody hbody' hincludes hperm
    with hsame | ⟨failure, hdeep, hfailure | hfailure⟩
  · cases hfirst.symm.trans (hsame.trans hsecond)
  · exact ⟨failure, hdeep, hfailure⟩
  · replace hfailure : ((stairsBuilder.load .empty "second" none).run {}).1 = .error failure := hfailure
    rw [hfailure] at hsecond
    cases hsecond

set_option maxRecDepth 100000 in
/-- At the limit the order decides: two levels are enough if the inner fragment comes first, since it
is at hand when the other one asks for it. -/
theorem order_decides_at_limit :
    (∃ body body', stairsBuilder.HasBody .empty (stairsPage "first") body ∧
      stairsBuilder.HasBody .empty (stairsPage "second") body' ∧
      (∀ n ∈ body, n.isInclude = true) ∧ (body.map Node.bare).Perm (body'.map Node.bare)) ∧
    failure? ((stairsBuilder.load .empty "first" none).run {}).1 =
      some (.merge (.tooDeep 2) "default/a.stm" 1) ∧
    ((stairsBuilder.load .empty "second" none).run {}).1.isOk = true :=
  ⟨stairs_bodies, by decide +kernel⟩

end Builder

end Lamina
