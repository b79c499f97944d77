import Lamina.Proofs.Builder.Stages
import Lamina.Proofs.Builder.Bodies
import Lamina.Proofs.Pass.Preparing
import Lamina.Proofs.Pass.Splicing
import Mathlib.Algebra.BigOperators.Group.Finset.Basic

/-! How often templates are read. A session balances the reads of a template against its being known
as a fragment and against the reads of the templates that extend it: importing changes nothing in
that balance, however often it happens, and loading adds one for the template that is loaded. -/

namespace Lamina

/-- The relation between views, on their identities. -/
def Loader.Relates (l : Loader) (R : View → View → Prop) (identity identity' : String) : Prop :=
  ∃ path view view', l.locate path = .ok view ∧ view.identity = identity ∧ R view view' ∧
    view'.identity = identity'

theorem Loader.relates_iff {l : Loader} (hl : l.Faithful) {R : View → View → Prop} {path : String}
    {view : View} (hv : l.locate path = .ok view) {identity : String} :
    l.Relates R view.identity identity ↔ ∃ view', R view view' ∧ view'.identity = identity := by
  constructor
  · rintro ⟨path', v, view', hv', hi, hR, hi'⟩
    obtain rfl := hl path' path v view hv' hv hi
    exact ⟨view', hR, hi'⟩
  · rintro ⟨view', hR, hi⟩
    exact ⟨path, view, view', hv, rfl, hR, hi⟩

namespace Builder

/-- The tree of a view, prepared, with its references unresolved. -/
def Unresolved (b : Builder) (context : Context) (view : View) (root : Node) : Prop :=
  ∃ body r s s', b.HasBody context view body ∧
    (run b.prepare r (.rootOf view.filename body)).run s = (.ok root, s')

/-- References are answered by what they mean. -/
noncomputable def byMeaning (b : Builder) (context : Context) : Resolver :=
  ⟨b.answer (b.meaning? context fun _ => True), b.answer (b.meaning? context fun _ => True)⟩

/-- An element of the first view stands for the second one. -/
def Imports (b : Builder) (context : Context) (view view' : View) : Prop :=
  ∃ root path, b.Unresolved context view root ∧ (root.link []).Names path ∧
    b.loader.locate path = .ok view'

/-- The first view extends the second one, as its first element that extends one has it once the
fragments are in place. -/
def Extends (b : Builder) (context : Context) (view view' : View) : Prop :=
  ∃ root children o s name attrs reference others path, b.Unresolved context view root ∧
    (run [Pass.splicing] (b.byMeaning context) (root.link [])).run {} =
      (.ok (.template children o), s) ∧
    Pass.takeExtends children = some ((name, attrs, reference), others) ∧
    Pass.extendsPath? name attrs = some path ∧ b.loader.locate path = .ok view'

variable {b : Builder} {context : Context} {view : View} {s s' t : Session} {n : Node}

theorem prepare_run {r : Resolver} {root : Node}
    (h : (run Pass.prepare r n).run s = (.ok root, s')) :
    s' = s ∧ ∀ r' t, (run Pass.prepare r' n).run t = (.ok root, t) := by
  let silent : Resolver :=
    ⟨fun path _ => throw (.loader (.notFound path none)),
      fun path _ => throw (.loader (.notFound path none))⟩
  have hrun (t : Session) : ∃ t', (run Pass.prepare silent n).run t = (.ok root, t') ∧
      s' = s ∧ t' = t := by
    let still (u v : Session) : Prop := u = s ∧ v = t
    have hsilent : (Lockstep.simulating still).Resolvers (.anywhere Throughout) silent silent :=
      ⟨fun _ _ _ _ => Lockstep.ofThrow _, fun _ _ _ _ => Lockstep.ofThrow _⟩
    have hsited : n.Sited ((Standing.anywhere Throughout).holds .stage) := fun _ _ => trivial
    have hprepare := run_sited Pass.prepare_steady (Standing.bears _) hsilent hsited
    obtain ⟨t', ht', hstill, -⟩ := hprepare s t ⟨rfl, rfl⟩ root s' h
    exact ⟨t', ht', hstill⟩
  refine ⟨(hrun s).choose_spec.2.1, fun r' t => ?_⟩
  obtain ⟨t', ht', -, rfl⟩ := hrun t
  exact ht'

theorem HasBody.unique {body body' : List Node} (h : b.HasBody context view body)
    (h' : b.HasBody context view body') : body = body' := by
  obtain ⟨text, htext, hparse⟩ := h
  obtain ⟨text', htext', hparse'⟩ := h'
  cases htext.symm.trans htext'
  cases hparse.symm.trans hparse'
  rfl

theorem Unresolved.unique (hb : b.Merges) {root root' : Node} (h : b.Unresolved context view root)
    (h' : b.Unresolved context view root') : root = root' := by
  obtain ⟨body, r, s, s', hbody, hroot⟩ := h
  obtain ⟨body', r', t, t', hbody', hroot'⟩ := h'
  obtain rfl := hbody.unique hbody'
  rw [hb.prepare] at hroot hroot'
  cases ((prepare_run hroot).2 r' t).symm.trans hroot'
  rfl

theorem Unresolved.eq_template (hb : b.Merges) {root : Node} (h : b.Unresolved context view root) :
    ∃ children o, root = .template children o := by
  obtain ⟨body, r, s, s', hbody, hroot⟩ := h
  rw [hb.prepare] at hroot
  obtain ⟨_, _, hroot, _⟩ := Pass.run_prepare_eq_ok hroot
  exact hroot

/-- What parsing a view comes to: its fragments are asked for, and then the template that it extends
is loaded, if there is one. -/
theorem parse_spliced (hb : b.Merges) {r : Resolver}
    (h : (b.parse context r view).run s = (.ok n, s')) :
    ∃ root out o asked t, b.Unresolved context view root ∧
      (run [Pass.splicing] r (root.link [])).run (s.noteRead view.identity) =
        (.ok (.template out o), t) ∧
      r.Asks asked (s.noteRead view.identity) t ∧
      (∀ path, path ∈ asked ↔ (root.link []).Names path) ∧ r.LoadsParent out t s' := by
  obtain ⟨strict, htransform⟩ := hb.transform
  obtain ⟨body, hbody⟩ := exists_body_of_parse_run h
  rw [hbody.parse_run, htransform] at h
  obtain ⟨root, t, hprepare, h⟩ := run_bind_eq_ok.mp h
  have hroot : b.Unresolved context view root := ⟨body, r, _, t, hbody, hprepare⟩
  rw [hb.prepare] at hprepare
  obtain ⟨rfl, -⟩ := prepare_run hprepare
  obtain ⟨children, o, rfl⟩ := hroot.eq_template hb
  rw [Pass.run_transform_eq] at h
  obtain ⟨out, asked, t, hspliced, hasks, hasked, hextends⟩ := Pass.exists_spliced h
  exact ⟨_, out, o, asked, t, hroot, hspliced, hasks, hasked, hextends⟩

theorem spliced_by_meaning (hb : b.Regular) (hl : b.loader.Faithful)
    {load : String → Origin → LoadM Node}
    (hload : ∀ path o, b.Accounts context true path (load path o)) (hs : b.Trusts context s)
    {root : Node}
    (h : (run [Pass.splicing] ⟨load, b.fragmentVia load⟩ root).run s = (.ok n, s')) :
    ∃ t, (run [Pass.splicing] (b.byMeaning context) root).run {} = (.ok n, t) := by
  have hknown : b.knownMeaning? context (fun _ => True) = b.meaning? context fun _ => True :=
    funext fun _ => if_pos trivial
  have hresolvers := resolvers_accounting hb hl hload fun _ => True
  rw [hknown] at hresolvers
  have hsteady : ∀ pass ∈ [Pass.splicing], Pass.Steady pass :=
    List.forall_mem_singleton.mpr Pass.splicing_steady
  have hsited : root.Sited ((Standing.anywhere Throughout).holds .stage) := fun _ _ => trivial
  have hrun := run_sited hsteady (Standing.bears _) hresolvers hsited
  exact ((hrun s hs _ s' h).2.2 n rfl).2 (fun _ _ => trivial) {}

theorem extends_iff (hb : b.Merges) {root : Node} {out : List Node} {o : Origin} {view' : View}
    (hroot : b.Unresolved context view root)
    (hspliced : (run [Pass.splicing] (b.byMeaning context) (root.link [])).run {} =
      (.ok (.template out o), t)) :
    b.Extends context view view' ↔ ∃ name attrs reference others path,
      Pass.takeExtends out = some ((name, attrs, reference), others) ∧
        Pass.extendsPath? name attrs = some path ∧ b.loader.locate path = .ok view' := by
  constructor
  · rintro ⟨root', out', o', t', name, attrs, reference, others, path, hroot', hspliced', hfound⟩
    obtain rfl := hroot.unique hb hroot'
    cases hspliced.symm.trans hspliced'
    exact ⟨name, attrs, reference, others, path, hfound⟩
  · rintro ⟨name, attrs, reference, others, path, hfound⟩
    exact ⟨root, out, o, t, name, attrs, reference, others, path, hroot, hspliced, hfound⟩

open Classical in
/-- The reads of a template, less those that are accounted for: one if it is known as a fragment,
and those of the templates that extend it. -/
noncomputable def balance (b : Builder) (context : Context) (s : Session) (identity : String) :
    Int :=
  s.reads.count identity - s.reads.countP (b.loader.Relates (b.Extends context) · identity) -
    if s.Knows identity then 1 else 0

theorem balance_congr (hr : t.reads = s.reads) (hk : t.Knows = s.Knows) :
    b.balance context t = b.balance context s := by
  funext identity
  rw [balance, hr, hk, balance]

open Classical in
theorem balance_noteRead (s : Session) (identity i : String) :
    b.balance context (s.noteRead identity) i = b.balance context s i +
      (if i = identity then 1 else 0) -
        if b.loader.Relates (b.Extends context) identity i then 1 else 0 := by
  have hcount : ([identity].count i : Int) = if i = identity then 1 else 0 := by
    by_cases hi : i = identity
    · simp [hi]
    · simp [hi, Ne.symm hi]
  have hextends : ([identity].countP (b.loader.Relates (b.Extends context) · i) : Int) =
      if b.loader.Relates (b.Extends context) identity i then 1 else 0 := by
    by_cases hx : b.loader.Relates (b.Extends context) identity i <;> simp [hx]
  have hknows : (s.noteRead identity).Knows = s.Knows := rfl
  rw [balance, balance, hknows, Session.noteRead, List.count_append, List.countP_append,
    Int.natCast_add, Int.natCast_add, hcount, hextends]
  omega

theorem balance_remember {identity : String} (hnew : ¬ s.Knows identity) (i : String) :
    b.balance context (s.remember identity n) i =
      b.balance context s i - if i = identity then 1 else 0 := by
  have hreads : (s.remember identity n).reads = s.reads := rfl
  rw [balance, balance, hreads]
  by_cases hi : i = identity
  · subst hi
    rw [if_pos (Session.knows_remember.mpr (.inl rfl)), if_neg hnew, if_pos rfl]
    omega
  · have hknows : (s.remember identity n).Knows i = s.Knows i :=
      propext (Session.knows_remember.trans (or_iff_right hi))
    rw [hknows, if_neg hi]
    omega

/-- From `s` to `s'` templates were loaded while those of `chain` were being resolved. The balance
has changed by `extra`. What has become known was imported by a template that was read, and whatever
a template imports that was read on the way is known. -/
structure Tallied (b : Builder) (context : Context) (chain : List String) (extra : String → Int)
    (s s' : Session) : Prop where
  trusts : b.Trusts context s'
  reads : s.reads ⊆ s'.reads
  knows : s.Knows ≤ s'.Knows
  balance : ∀ identity, b.balance context s' identity =
    b.balance context s identity + extra identity
  fresh : ∀ identity ∈ chain, s'.Knows identity → s.Knows identity
  sourced : ∀ identity, s'.Knows identity → s.Knows identity ∨
    ∃ u ∈ s'.reads, b.loader.Relates (b.Imports context) u identity
  settled : ∀ u ∈ s'.reads, u ∈ s.reads ∨
    ∀ identity, b.loader.Relates (b.Imports context) u identity → s'.Knows identity

namespace Tallied

variable {chain chain' : List String} {extra extra' : String → Int}

theorem refl (h : b.Trusts context s) : b.Tallied context chain (fun _ => 0) s s where
  trusts := h
  reads := List.Subset.refl _
  knows := le_rfl
  balance _ := (Int.add_zero _).symm
  fresh _ _ := id
  sourced _ := .inl
  settled _ := .inl

theorem trans (h : b.Tallied context chain extra s t) (h' : b.Tallied context chain extra' t s') :
    b.Tallied context chain (fun identity => extra identity + extra' identity) s s' where
  trusts := h'.trusts
  reads := List.Subset.trans h.reads h'.reads
  knows := h.knows.trans h'.knows
  balance identity := by rw [h'.balance, h.balance, Int.add_assoc]
  fresh identity hi hk := h.fresh identity hi (h'.fresh identity hi hk)
  sourced identity hk := by
    rcases h'.sourced identity hk with hk | hsource
    · refine (h.sourced identity hk).imp_right ?_
      rintro ⟨u, hu, himports⟩
      exact ⟨u, h'.reads hu, himports⟩
    · exact .inr hsource
  settled u hu := by
    rcases h'.settled u hu with hu | hknown
    · exact (h.settled u hu).imp_right fun hknown identity hi =>
        h'.knows identity (hknown identity hi)
    · exact .inr hknown

theorem mono (h : b.Tallied context chain extra s s') (hc : chain' ⊆ chain)
    (he : ∀ identity, extra identity = extra' identity) : b.Tallied context chain' extra' s s' :=
  { h with
    balance := fun identity => (he identity) ▸ h.balance identity
    fresh := fun identity hi => h.fresh identity (hc hi) }

theorem congr (h : b.Tallied context chain extra t s') (hr : t.reads = s.reads)
    (hf : t.fragments = s.fragments) : b.Tallied context chain extra s s' := by
  have hknows : t.Knows = s.Knows := by
    funext identity
    rw [Session.Knows, hf, Session.Knows]
  obtain ⟨trusts, reads, knows, balance, fresh, sourced, settled⟩ := h
  rw [balance_congr hr hknows] at balance
  rw [hr] at reads settled
  rw [hknows] at knows fresh sourced
  exact ⟨trusts, reads, knows, balance, fresh, sourced, settled⟩

open Classical in
theorem reading {identity : String} (h : b.Tallied context chain extra (s.noteRead identity) s')
    (hknown : ∀ imported, b.loader.Relates (b.Imports context) identity imported →
      s'.Knows imported) :
    b.Tallied context chain (fun i => extra i + (if i = identity then 1 else 0) -
      if b.loader.Relates (b.Extends context) identity i then 1 else 0) s s' where
  trusts := h.trusts
  reads := List.Subset.trans (List.subset_append_left _ _) h.reads
  knows := h.knows
  balance i := by
    rw [h.balance, balance_noteRead]
    omega
  fresh := h.fresh
  sourced := h.sourced
  settled u hu := by
    rcases h.settled u hu with hu | hu
    · rcases List.mem_append.mp hu with hu | hu
      · exact .inl hu
      · obtain rfl := List.mem_singleton.mp hu
        exact .inr hknown
    · exact .inr hu

theorem remembering {identity : String}
    (h : b.Tallied context (chain ++ [identity]) (fun i => if i = identity then 1 else 0) s t)
    (hchain : identity ∉ chain) (hunknown : ¬ s.Knows identity)
    (himported : ∃ u ∈ t.reads, b.loader.Relates (b.Imports context) u identity)
    (hs : b.Trusts context (t.remember identity n)) :
    b.Tallied context chain (fun _ => 0) s (t.remember identity n) := by
  -- it was on the chain while it was loaded, so it has not become known before
  have hnew : ¬ t.Knows identity := fun hk =>
    hunknown (h.fresh identity (List.mem_append_right _ List.mem_cons_self) hk)
  refine ⟨hs, h.reads, fun i hk => ?_, fun i => ?_, fun i hi hk => ?_, fun i hk => ?_,
    fun u hu => ?_⟩
  · exact Session.knows_remember.mpr (.inr (h.knows i hk))
  · rw [balance_remember hnew, h.balance]
    omega
  · rcases Session.knows_remember.mp hk with rfl | hk
    · exact absurd hi hchain
    · exact h.fresh i (List.mem_append_left _ hi) hk
  · rcases Session.knows_remember.mp hk with rfl | hk
    · exact .inr himported
    · exact h.sourced i hk
  · exact (h.settled u hu).imp_right fun hknown i hi =>
      Session.knows_remember.mpr (.inr (hknown i hi))

end Tallied

/-- What succeeds in loading adds one to the balance of the template that it loads, which is not
among those being resolved. -/
def Loads {α : Type} (b : Builder) (context : Context) (chain : List String)
    (load : String → α → LoadM Node) : Prop :=
  ∀ path o s n s', b.Trusts context s → (load path o).run s = (.ok n, s') →
    ∃ view, b.loader.locate path = .ok view ∧ view.identity ∉ chain ∧
      b.Tallied context (chain ++ [view.identity])
        (fun i => if i = view.identity then 1 else 0) s s'

section Fragments

variable {chain : List String} {load : String → Origin → LoadM Node} {importer : String}

theorem fragmentVia_tallied (hl : b.loader.Faithful)
    (haccounts : ∀ path o, b.Accounts context true path (load path o))
    (hload : b.Loads context chain load) {path : String} {o : Origin} (hread : importer ∈ s.reads)
    (himports : ∀ view, b.loader.locate path = .ok view →
      b.loader.Relates (b.Imports context) importer view.identity)
    (hs : b.Trusts context s) (h : (b.fragmentVia load path o).run s = (.ok n, s')) :
    b.Tallied context chain (fun _ => 0) s s' ∧
      ∀ view, b.loader.locate path = .ok view → s'.Knows view.identity := by
  have hvia : (b.fragmentBy true load path o).run s = (.ok n, s') := h
  obtain ⟨hs', -, hok⟩ := fragmentBy_accounts hl (haccounts path o) hs hvia
  obtain ⟨view, hv, hknown, -⟩ := hok n rfl
  have hknows : ∀ view', b.loader.locate path = .ok view' → s'.Knows view'.identity := by
    intro view' hv'
    obtain rfl := Except.ok.inj (hv.symm.trans hv')
    exact hknown rfl
  refine ⟨?_, hknows⟩
  rcases fragmentVia_run_eq_ok hv h with ⟨-, rfl⟩ | ⟨hnone, s₁, hx, rfl⟩
  · exact .refl hs
  · obtain ⟨view', hv', hchain, htally⟩ := hload path o s n s₁ hs hx
    obtain rfl := Except.ok.inj (hv.symm.trans hv')
    have hunknown : ¬ s.Knows view.identity := by
      intro hk
      obtain ⟨m, hm⟩ := Session.exists_fragment? hk
      cases hnone.symm.trans hm
    exact htally.remembering hchain hunknown ⟨importer, htally.reads hread, himports view hv⟩ hs'

theorem asks_tallied (hl : b.loader.Faithful)
    (haccounts : ∀ path o, b.Accounts context true path (load path o))
    (hload : b.Loads context chain load) {loads : String → Origin → LoadM Node}
    {asked : List String} (h : Resolver.Asks ⟨loads, b.fragmentVia load⟩ asked s s')
    (hread : importer ∈ s.reads)
    (himports : ∀ path ∈ asked, ∀ view, b.loader.locate path = .ok view →
      b.loader.Relates (b.Imports context) importer view.identity)
    (hs : b.Trusts context s) :
    b.Tallied context chain (fun _ => 0) s s' ∧
      ∀ path ∈ asked, ∀ view, b.loader.locate path = .ok view → s'.Knows view.identity := by
  induction h with
  | nil s => exact ⟨.refl hs, List.forall_mem_nil _⟩
  | cons first _ ih =>
    obtain ⟨himport, himports⟩ := List.forall_mem_cons.mp himports
    obtain ⟨htally, hknows⟩ := fragmentVia_tallied hl haccounts hload hread himport hs first
    obtain ⟨htallied, hrest⟩ := ih (htally.reads hread) himports htally.trusts
    refine ⟨(htally.trans htallied).mono (List.Subset.refl _) fun _ => rfl,
      List.forall_mem_cons.mpr ⟨fun view hv => ?_, hrest⟩⟩
    exact htallied.knows _ (hknows view hv)

open Classical in
theorem extension_tallied (hb : b.Merges) (hl : b.loader.Faithful)
    (hload : b.Loads context chain load) {path : String} (hv : b.loader.locate path = .ok view)
    {root : Node} {out : List Node} {o : Origin} (hroot : b.Unresolved context view root)
    (hspliced : ∃ t', (run [Pass.splicing] (b.byMeaning context) (root.link [])).run {} =
      (.ok (.template out o), t'))
    (hs : b.Trusts context s)
    (h : Resolver.LoadsParent ⟨load, b.fragmentVia load⟩ out s s') :
    b.Tallied context chain
      (fun i => if b.loader.Relates (b.Extends context) view.identity i then 1 else 0) s s' := by
  obtain ⟨t', hspliced⟩ := hspliced
  rcases h with ⟨hnone, rfl⟩ | ⟨name, attrs, reference, others, target, parent, hfound, hpath, hrun⟩
  · refine (Tallied.refl hs).mono (List.Subset.refl _) fun i => (if_neg ?_).symm
    intro hrelates
    obtain ⟨view', hextends, -⟩ := (Loader.relates_iff hl hv).mp hrelates
    obtain ⟨_, _, _, _, _, hsome, -⟩ := (extends_iff hb hroot hspliced).mp hextends
    cases hnone.symm.trans hsome
  · obtain ⟨view', hv', -, htally⟩ := hload target reference s parent s' hs hrun
    refine htally.mono (List.subset_append_left _ _) fun i => if_congr ?_ rfl rfl
    rw [Loader.relates_iff hl hv]
    constructor
    · rintro rfl
      exact ⟨view', (extends_iff hb hroot hspliced).mpr
        ⟨name, attrs, reference, others, target, hfound, hpath, hv'⟩, rfl⟩
    · rintro ⟨view'', hextends, rfl⟩
      obtain ⟨_, _, _, _, _, hfound', hpath', hv''⟩ := (extends_iff hb hroot hspliced).mp hextends
      cases hfound.symm.trans hfound'
      cases hpath.symm.trans hpath'
      cases hv'.symm.trans hv''
      rfl

theorem parse_tallied (hb : b.Regular) (hm : b.Merges) (hl : b.loader.Faithful)
    (haccounts : ∀ path o, b.Accounts context true path (load path o))
    (hload : b.Loads context chain load) {path : String} (hv : b.loader.locate path = .ok view)
    (hs : b.Trusts context s)
    (h : (b.parse context ⟨load, b.fragmentVia load⟩ view).run s = (.ok n, s')) :
    b.Tallied context chain (fun i => if i = view.identity then 1 else 0) s s' := by
  obtain ⟨root, out, o, asked, t, hroot, hspliced, hasks, hasked, hextends⟩ := parse_spliced hm h
  have hnoted : b.Trusts context (s.noteRead view.identity) := hs
  have hread : view.identity ∈ (s.noteRead view.identity).reads :=
    List.mem_append_right _ List.mem_cons_self
  obtain ⟨hfragments, hknown⟩ := asks_tallied hl haccounts hload hasks hread (fun path hp v hv' =>
    (Loader.relates_iff hl hv).mpr ⟨v, ⟨root, path, hroot, (hasked path).mp hp, hv'⟩, rfl⟩) hnoted
  have hextension := extension_tallied hm hl hload hv hroot
    (spliced_by_meaning hb hl haccounts hnoted hspliced) hfragments.trusts hextends
  have himports : ∀ imported, b.loader.Relates (b.Imports context) view.identity imported →
      s'.Knows imported := by
    intro imported hrelates
    obtain ⟨v, ⟨root', path', hroot', hnames, hv'⟩, rfl⟩ := (Loader.relates_iff hl hv).mp hrelates
    obtain rfl := hroot.unique hm hroot'
    exact hextension.knows _ (hknown path' ((hasked path').mpr hnames) v hv')
  refine ((hfragments.trans hextension).reading himports).mono (List.Subset.refl _) fun i => ?_
  omega

end Fragments

theorem loadAt_loads (hb : b.Regular) (hm : b.Merges) (hl : b.loader.Faithful) (budget : Nat)
    (chain : List String) : b.Loads context chain (b.loadAt context budget chain) := by
  intro path reference s n s' hs h
  induction budget generalizing chain path reference s n s' with
  | zero =>
    obtain ⟨_, _, _, _, hbudget⟩ := loadAt_run_eq_ok h
    cases hbudget
  | succ budget ih =>
    obtain ⟨view, _, hv, hchain, -⟩ := loadAt_run_eq_ok h
    rw [loadAt_run context budget reference hv hchain] at h
    have haccounts (path : String) (o : Origin) : b.Accounts context true path
        (b.loadAt context budget (chain ++ [view.identity]) path (some o)) := by
      rw [← loadBy_true]
      exact loadBy_accounts hb hl context true budget _ path (some o)
    have hload : b.Loads context (chain ++ [view.identity]) fun path o =>
        b.loadAt context budget (chain ++ [view.identity]) path (some o) :=
      fun path o s n s' => ih _ path (some o) s n s'
    have hconsulted : b.Trusts context (s.consult view.filename) :=
      hs.congr (s.fragments_consult view.filename)
    exact ⟨view, hv, hchain, (parse_tallied hb hm hl haccounts hload hv hconsulted h).congr
      (s.reads_consult view.filename) (s.fragments_consult view.filename)⟩

theorem not_knows_empty (identity : String) : ¬ ({} : Session).Knows identity :=
  fun ⟨_, hm⟩ => nomatch hm

/-- In a session of its own, what is known in the end is what the templates import that were
read. -/
theorem Tallied.knows_iff {chain : List String} {extra : String → Int}
    (h : b.Tallied context chain extra {} s) (identity : String) :
    s.Knows identity ↔ ∃ u ∈ s.reads, b.loader.Relates (b.Imports context) u identity := by
  constructor
  · intro hk
    exact (h.sourced identity hk).resolve_left (not_knows_empty identity)
  · rintro ⟨u, hu, himports⟩
    exact (h.settled u hu).resolve_left List.not_mem_nil identity himports

open Classical in
theorem load_count_reads (hb : b.Regular) (hm : b.Merges) (hl : b.loader.Faithful) {path : String}
    {reference : Option Origin} (h : (b.load context path reference).run {} = (.ok n, s)) :
    ∃ view, b.loader.locate path = .ok view ∧ ∀ identity, s.reads.count identity =
      (if identity = view.identity ∨
          ∃ u ∈ s.reads, b.loader.Relates (b.Imports context) u identity then 1 else 0) +
        s.reads.countP (b.loader.Relates (b.Extends context) · identity) := by
  obtain ⟨view, hv, -, htally⟩ :=
    loadAt_loads hb hm hl b.maxDepth [] path reference {} n s trusts_empty h
  refine ⟨view, hv, fun identity => ?_⟩
  have hempty : b.balance context {} identity = 0 := by
    rw [balance, if_neg (not_knows_empty identity)]
    rfl
  have hrequested : ¬ s.Knows view.identity := fun hk =>
    not_knows_empty _ (htally.fresh _ List.mem_cons_self hk)
  have hbalance := htally.balance identity
  rw [hempty, balance] at hbalance
  -- the template that was asked for is not imported by any of those it led to
  by_cases hi : identity = view.identity
  · rw [hi, if_neg hrequested, if_pos rfl] at hbalance
    rw [if_pos (.inl hi), hi]
    omega
  · rw [if_neg hi] at hbalance
    by_cases hk : s.Knows identity
    · rw [if_pos hk] at hbalance
      rw [if_pos (.inr ((htally.knows_iff identity).mp hk))]
      omega
    · rw [if_neg hk] at hbalance
      rw [if_neg (not_or.mpr ⟨hi, fun himported => hk ((htally.knows_iff identity).mpr himported)⟩)]
      omega

open Classical in
/-- Imports are read once. Where a template loads in a session of its own, the reads of any template
are one, if it was asked for or a template that was read imports it, and those of the templates that
extend it. So a template is read once if it is imported, however often and under whatever path, and
none that was read extends it. -/
theorem imports_are_read_once (limit : Nat) (directives : Directives) (preserve : List Scope → Bool)
    (strict : Bool) (library : Library) (d : Disk) (context : Context) (path : String)
    (reference : Option Origin) (n : Node) (s : Session) :
    let b := nesting limit directives preserve strict (library.loader d)
    (b.load context path reference).run {} = (.ok n, s) →
      ∃ view, b.loader.locate path = .ok view ∧
        (∀ identity, s.reads.count identity =
          (if identity = view.identity ∨
              ∃ u ∈ s.reads, b.loader.Relates (b.Imports context) u identity then 1 else 0) +
            ∑ u ∈ s.reads.toFinset with b.loader.Relates (b.Extends context) u identity,
              s.reads.count u) ∧
        ∀ u ∈ s.reads, ∀ identity, b.loader.Relates (b.Imports context) u identity →
          (∀ v ∈ s.reads, ¬ b.loader.Relates (b.Extends context) v identity) →
            s.reads.count identity = 1 := by
  intro b h
  have hb : b.Regular := nesting_regular limit directives preserve strict (library.loader d)
  obtain ⟨view, hv, hcount⟩ := load_count_reads hb ⟨rfl, strict, rfl⟩ (library.faithful d) h
  refine ⟨view, hv, fun identity => ?_, fun u hu identity himports hextends => ?_⟩
  · rw [Finset.sum_filter_count_eq_countP]
    exact hcount identity
  · have hnone : s.reads.countP (b.loader.Relates (b.Extends context) · identity) = 0 :=
      List.countP_eq_zero.mpr fun v hv => by simpa using hextends v hv
    rw [hcount identity, if_pos (.inr ⟨u, hu, himports⟩), hnone]

/-- A page on a layout, with a card in it twice, under two names; the card and the layout both
extend a box and have an icon. -/
def shelf : Library :=
  .memory [("default:page", "<include:card/><use path='/card.stm' as='c'/><c/><extends:base/>"),
    ("default:card", "<include:icon/><extends:box/>"),
    ("default:base", "<include:icon/><extends:box/>"), ("default:box", "x"), ("default:icon", "*")]

def shelfBuilder : Builder := default (shelf.loader (.empty "/"))

def shelfReads : List String :=
  ["default:page", "default:card", "default:icon", "default:box", "default:base", "default:box"]

def shelfSession : Session := ((shelfBuilder.load .empty "page" none).run {}).2

set_option maxRecDepth 100000 in
theorem shelf_loads : ∃ n, (shelfBuilder.load .empty "page" none).run {} = (.ok n, shelfSession) ∧
    shelfSession.reads = shelfReads ∧
    shelfSession.fragments.map (·.1) = ["default:card", "default:icon"] := by
  have hparts (x : Except Failure Node × Session) :
      (x.1.toOption.isSome, x.2.reads, x.2.fragments.map (·.1)) =
        (true, shelfReads, ["default:card", "default:icon"]) →
      ∃ n, x = (.ok n, x.2) ∧ x.2.reads = shelfReads ∧
        x.2.fragments.map (·.1) = ["default:card", "default:icon"] := by
    intro h
    obtain ⟨hloads, hrest⟩ := Prod.mk.injEq .. ▸ h
    obtain ⟨hreads, hfragments⟩ := Prod.mk.injEq .. ▸ hrest
    obtain ⟨n, hn⟩ := Option.isSome_iff_exists.mp hloads
    exact ⟨n, Prod.ext (eq_ok_of_toOption hn) rfl, hreads, hfragments⟩
  exact hparts _ (by decide +kernel)

open Classical in
theorem imports_are_read_once_shelf :
    ∃ n, (shelfBuilder.load .empty "page" none).run {} = (.ok n, shelfSession) ∧
      shelfSession.reads = shelfReads ∧
      (∃ u ∈ shelfReads,
        shelfBuilder.loader.Relates (shelfBuilder.Imports .empty) u "default:icon") ∧
      ∑ u ∈ shelfReads.toFinset with
          shelfBuilder.loader.Relates (shelfBuilder.Extends .empty) u "default:box",
        shelfReads.count u = 2 := by
  obtain ⟨n, hrun, hreads, hfragments⟩ := shelf_loads
  have hb : shelfBuilder.Regular := nesting_regular ..
  have hm : shelfBuilder.Merges := ⟨rfl, false, rfl⟩
  have hl : shelfBuilder.loader.Faithful := shelf.faithful (.empty "/")
  obtain ⟨_, _, _, htally⟩ :=
    loadAt_loads hb hm hl shelfBuilder.maxDepth [] "page" none {} n shelfSession trusts_empty hrun
  have himported (identity : String) : (∃ u ∈ shelfReads,
      shelfBuilder.loader.Relates (shelfBuilder.Imports .empty) u identity) ↔
        identity ∈ ["default:card", "default:icon"] := by
    rw [← hreads, ← htally.knows_iff identity, ← hfragments, Session.Knows]
    simp
  obtain ⟨view, hv, hcount, -⟩ := imports_are_read_once defaultMaxDepth .builtin
    (Pass.preserveIn defaultPreserveTags) false shelf (.empty "/") .empty "page" none n _ hrun
  obtain rfl : view = ⟨"default/page.stm", ⟨"default", "page"⟩⟩ :=
    Except.ok.inj (hv.symm.trans (eq_ok_of_toOption (by decide +kernel)))
  have hbox := hcount "default:box"
  rw [hreads, if_neg ?neither, Nat.zero_add] at hbox
  · exact ⟨n, hrun, hreads, (himported _).mpr (by decide), hbox.symm.trans (by decide)⟩
  case neither =>
    rintro (hpage | hknown)
    · exact absurd hpage (by decide)
    · exact absurd ((himported _).mp hknown) (by decide)

end Builder

end Lamina
