import Lamina.Builder
import Lamina.Proofs.Origin
import Lamina.Proofs.Pass.Steady
import Lamina.Proofs.Session

/-! Loading depends on the files it consults and on nothing else. Two builders that differ in their
loaders only do the same as long as the loaders agree on those files, and the trees they load lead
back through those files to the file that was asked for. -/

namespace Lamina

namespace Loader

def Coherent (l : Loader) : Prop :=
  ∀ path path' view view', l.locate path = .ok view → l.locate path' = .ok view' →
    view.identity = view'.identity → view.filename = view'.filename

def Faithful (l : Loader) : Prop :=
  ∀ path path' view view', l.locate path = .ok view → l.locate path' = .ok view' →
    view.identity = view'.identity → view = view'

theorem Faithful.coherent {l : Loader} (h : l.Faithful) : l.Coherent :=
  fun path path' view view' hl hl' hi => congrArg View.filename (h path path' view view' hl hl' hi)

def AgreeOn (l l' : Loader) (files : List String) : Prop :=
  ∀ path view, l.locate path = .ok view → view.filename ∈ files →
    l'.locate path = .ok view ∧ l'.read view = l.read view

def Guards (l : Loader) (avoid : String → Prop) (chain : List String) : Prop :=
  ∀ path view, l.locate path = .ok view → avoid view.filename → view.identity ∈ chain

theorem AgreeOn.mono {l l' : Loader} {files files' : List String} (h : l.AgreeOn l' files')
    (hf : files ⊆ files') : l.AgreeOn l' files :=
  fun path view hl hv => h path view hl (hf hv)

theorem Guards.concat {l : Loader} {avoid : String → Prop} {chain : List String}
    (h : l.Guards avoid chain) (identity : String) : l.Guards avoid (chain ++ [identity]) :=
  fun path view hl hv => List.mem_append_left _ (h path view hl hv)

end Loader

/-- What a session holds is accounted for: each file was met once and can be read, everything read
lies in one of them, and so do the fragments remembered and the origins in them. -/
structure Session.Sound (l : Loader) (avoid : String → Prop) (s : Session) : Prop where
  nodup : s.paths.Nodup
  readable : ∀ file ∈ s.paths, ∃ path view source, l.locate path = .ok view ∧
    view.filename = file ∧ l.read view = .ok source
  reads : ∀ identity ∈ s.reads, ∃ path view, l.locate path = .ok view ∧
    view.identity = identity ∧ view.filename ∈ s.paths
  fragments : ∀ path view fragment, l.locate path = .ok view →
    (view.identity, fragment) ∈ s.fragments → ¬ avoid view.filename ∧ view.filename ∈ s.paths ∧
      fragment.Sited (Origin.Within s.paths avoid view.filename)

namespace Session.Sound

variable {l : Loader} {avoid : String → Prop} {s s' : Session}

theorem empty (l : Loader) (avoid : String → Prop) : Session.Sound l avoid {} :=
  ⟨List.nodup_nil, List.forall_mem_nil _, List.forall_mem_nil _, fun _ _ _ _ h => nomatch h⟩

theorem consult (h : s.Sound l avoid) {path : String} {view : View} {source : String}
    (hl : l.locate path = .ok view) (hr : l.read view = .ok source) :
    (s.consult view.filename).Sound l avoid := by
  have hle := s.le_consult view.filename
  refine ⟨nodup_consult h.nodup _, fun file hf => ?_, fun identity hi => ?_,
    fun path view fragment hl hm => ?_⟩
  · rcases mem_of_mem_consult hf with hf | rfl
    · exact h.readable file hf
    · exact ⟨path, view, source, hl, rfl, hr⟩
  · obtain ⟨path, view, hl, he, hp⟩ := h.reads identity (s.reads_consult _ ▸ hi)
    exact ⟨path, view, hl, he, Session.paths_subset hle hp⟩
  · obtain ⟨ha, hp, hs⟩ := h.fragments path view fragment hl (s.fragments_consult _ ▸ hm)
    exact ⟨ha, Session.paths_subset hle hp, hs.imp fun _ ho => ho.mono (Session.paths_subset hle)⟩

theorem noteRead (h : s.Sound l avoid) {path : String} {view : View}
    (hl : l.locate path = .ok view) (hv : view.filename ∈ s.paths) :
    (s.noteRead view.identity).Sound l avoid := by
  refine ⟨h.nodup, h.readable, fun identity hi => ?_, h.fragments⟩
  rcases List.mem_append.mp hi with hi | hi
  · exact h.reads identity hi
  · exact ⟨path, view, hl, (List.mem_singleton.mp hi).symm, hv⟩

theorem remember (hc : l.Coherent) (h : s.Sound l avoid) {path : String} {view : View}
    {fragment : Node} (hl : l.locate path = .ok view) (ha : ¬ avoid view.filename)
    (hv : view.filename ∈ s.paths) (hs : fragment.Sited (Origin.Within s.paths avoid view.filename)) :
    (s.remember view.identity fragment).Sound l avoid := by
  refine ⟨h.nodup, h.readable, h.reads, fun path' view' fragment' hl' hm => ?_⟩
  rcases List.mem_cons.mp hm with he | hm
  · obtain ⟨hi, rfl⟩ := Prod.mk.injEq .. ▸ he
    rw [hc path' path view' view hl' hl hi]
    exact ⟨ha, hv, hs⟩
  · exact h.fragments path' view' fragment' hl' hm

end Session.Sound

def Standing.within (avoid : String → Prop) (file : String) : Standing Session where
  holds s o := o.Within s.paths avoid file
  later hs h := h.mono (Session.paths_subset hs)

namespace Builder

def withLoader (b : Builder) (l : Loader) : Builder := { b with loader := l }

def beside (b : Builder) (l : Loader) (avoid : String → Prop) : Lockstep Session LoadM :=
  .ofRuns (Session.Sound b.loader avoid) (fun s => b.loader.AgreeOn l s.paths)
    fun hs h => h.mono (Session.paths_subset hs)

/-- The passes over templates are steady, and those over the page do not reach for other ones. -/
structure Regular (b : Builder) : Prop where
  prepare : ∀ pass ∈ b.prepare, Pass.Steady pass
  transform : ∀ pass ∈ b.transform, Pass.Steady pass
  finalize : ∀ pass ∈ b.finalize, Pass.Steady pass ∧ ∀ r r', pass r = pass r'

variable {b : Builder} {l : Loader} {avoid : String → Prop}

theorem Regular.withLoader (hb : b.Regular) (l : Loader) : (b.withLoader l).Regular :=
  ⟨hb.prepare, hb.transform, hb.finalize⟩

theorem modify_lockstep {f : Session → Session} {s : Session} (hle : s ≤ f s)
    (hf : s.Sound b.loader avoid → (f s).Sound b.loader avoid) :
    (b.beside l avoid).holds s (modify f) (modify f) fun s' _ => s' = f s := by
  intro hs a s' hr
  cases hr
  exact ⟨hle, hf hs, rfl, fun _ => rfl⟩

section Stage

variable {W : Type} [Preorder W] {P : Standing W}

theorem run_sited {admits : W → Failure → Prop} {L : Lockstep W LoadM admits} {passes : List Pass}
    (hp : ∀ pass ∈ passes, Pass.Steady pass) (hP : P.Bears admits) {r r' : Resolver}
    (hr : L.Resolvers P r r') {w : W} {root : Node} (h : root.Sited (P.holds w)) :
    L.holds w (run passes r root) (run passes r' root) fun w' n => n.Sited (P.holds w') := by
  rw [run, run]
  split
  · exact L.ofPure h
  · have hv : List.Forall₂ ((L.withState (Notes.Sited P)).Alike P)
        (passes.map fun pass => pass r) (passes.map fun pass => pass r') := by
      rw [List.forall₂_map_left_iff, List.forall₂_map_right_iff, List.forall₂_same]
      exact fun pass hm => hp pass hm L P hP hr
    have hroot := Lockstep.root_sited hv w root h {} (List.forall_mem_nil _)
    exact L.ofBind hroot fun _ n _ hn => L.ofPure hn.1

variable {L : Lockstep W LoadM}

theorem liftExcept_lockstep {α : Type} (x : Except Failure α) (w : W) :
    L.holds w (source.liftExcept x) (source.liftExcept x) fun _ _ => True := by
  cases x with
  | ok a => exact L.ofPure trivial
  | error failure => exact L.ofThrow

theorem processors_lockstep (processors : List Processor) (context : Context) (view : View)
    (text : String) (w : W) :
    L.holds w
      (processors.foldlM (fun text p => source.liftExcept (p.run view context text)) text)
      (processors.foldlM (fun text p => source.liftExcept (p.run view context text)) text)
      fun _ _ => True := by
  induction processors generalizing text w with
  | nil => exact L.ofPure trivial
  | cons p rest ih =>
    exact L.ofBind (liftExcept_lockstep _ w) fun w' text' _ _ => ih text' w'

end Stage

theorem read_lockstep {path : String} {view : View} (hl : b.loader.locate path = .ok view)
    {s : Session} (hv : view.filename ∈ s.paths) :
    (b.beside l avoid).holds s (source.liftExcept (b.loader.read view))
      (source.liftExcept (l.read view)) fun _ _ => True := by
  intro hs text s' hr
  obtain ⟨hle, hs', -, hsame⟩ := liftExcept_lockstep (L := b.beside l avoid) _ s hs text s' hr
  refine ⟨hle, hs', trivial, fun ha => ?_⟩
  rw [(ha path view hl (Session.paths_subset hle hv)).2]
  exact hsame ha

theorem source_lockstep (context : Context) {path : String} {view : View}
    (hl : b.loader.locate path = .ok view) {s : Session} (hv : view.filename ∈ s.paths) :
    (b.beside l avoid).holds s (b.source context view) ((b.withLoader l).source context view)
      fun _ _ => True := by
  refine Lockstep.ofBind _ (modify_lockstep List.prefix_rfl fun hs => hs.noteRead hl hv)
    fun s₁ _ _ hs₁ => ?_
  subst hs₁
  refine Lockstep.ofBind _ (read_lockstep hl hv) fun s₂ text _ _ => ?_
  exact processors_lockstep b.processors context view text s₂

theorem parse_lockstep (hb : b.Regular) (context : Context) {r r' : Resolver} {path : String}
    {view : View} (hl : b.loader.locate path = .ok view)
    (hr : (b.beside l avoid).Resolvers (.within avoid view.filename) r r') {s : Session}
    (hv : view.filename ∈ s.paths) :
    (b.beside l avoid).holds s (b.parse context r view) ((b.withLoader l).parse context r' view)
      fun s' n => n.Sited (Origin.Within s'.paths avoid view.filename) := by
  refine Lockstep.ofBind _ (source_lockstep context hl hv) fun s₁ text hs₁ _ => ?_
  split
  · exact Lockstep.ofThrow _
  · next root hroot =>
    have hsited : root.Sited (Origin.Within s₁.paths avoid view.filename) :=
      (Node.parse_sited hroot).imp fun _ ho => ho.within (Session.paths_subset hs₁ hv)
    refine Lockstep.ofBind _ (run_sited hb.prepare (Standing.bears _) hr hsited)
      fun s₂ root' _ hroot' => ?_
    exact run_sited hb.transform (Standing.bears _) hr hroot'

theorem locate_eq {path : String} {view : View} (hl : b.loader.locate path = .ok view)
    (reference : Option Origin) : b.locate path reference = pure view := by
  unfold locate
  rw [hl]

theorem locate_run_eq_ok {path : String} {reference : Option Origin} {view : View} {s s' : Session}
    (h : (b.locate path reference).run s = (.ok view, s')) : b.loader.locate path = .ok view := by
  unfold locate at h
  split at h
  · next hl =>
    cases h
    exact hl
  · cases h
  · cases h

theorem loadAt_run (context : Context) (budget : Nat) {chain : List String} {path : String}
    (reference : Option Origin) {view : View} (hl : b.loader.locate path = .ok view)
    (hc : view.identity ∉ chain) (s : Session) :
    (b.loadAt context (budget + 1) chain path reference).run s =
      (b.parse context (b.resolver (b.loadAt context budget (chain ++ [view.identity]))) view).run
        (s.consult view.filename) := by
  rw [loadAt, locate_eq hl, pure_bind, if_neg (by simpa using hc)]
  rfl

theorem parse_run_eq_ok {context : Context} {r : Resolver} {view : View} {s s' : Session} {n : Node}
    (h : (b.parse context r view).run s = (.ok n, s')) :
    ∃ source, b.loader.read view = .ok source := by
  obtain ⟨text, t, hsource, -⟩ := run_bind_eq_ok.mp h
  obtain ⟨-, t', -, hsource⟩ := run_bind_eq_ok.mp hsource
  obtain ⟨text', t'', hread, -⟩ := run_bind_eq_ok.mp hsource
  cases hr : b.loader.read view with
  | ok source => exact ⟨source, rfl⟩
  | error failure =>
    rw [hr] at hread
    cases hread

theorem loadAt_run_eq_ok {context : Context} {budget : Nat} {chain : List String} {path : String}
    {reference : Option Origin} {s s' : Session} {n : Node}
    (h : (b.loadAt context budget chain path reference).run s = (.ok n, s')) :
    ∃ view k, b.loader.locate path = .ok view ∧ view.identity ∉ chain ∧ budget = k + 1 := by
  unfold loadAt at h
  obtain ⟨view, t, hlocate, h⟩ := run_bind_eq_ok.mp h
  have hl := locate_run_eq_ok hlocate
  split at h
  · cases reference <;> cases h
  · next hc =>
    cases budget with
    | zero => cases reference <;> cases h
    | succ k => exact ⟨view, k, hl, by simpa using hc, rfl⟩

section Fragment

variable {load : String → Origin → LoadM Node} {path : String} {view : View} {s : Session}

theorem fragmentVia_run_of_some (hl : b.loader.locate path = .ok view) {fragment : Node}
    (hs : s.fragment? view.identity = some fragment) (o : Origin) :
    (b.fragmentVia load path o).run s = (.ok fragment, s) := by
  unfold fragmentVia
  rw [hl, run_get_bind]
  simp only [Except.toOption, Option.map_some, Option.bind_some, hs]
  rfl

theorem fragmentVia_run_of_none (hl : b.loader.locate path = .ok view)
    (hs : s.fragment? view.identity = none) (o : Origin) :
    (b.fragmentVia load path o).run s = (load path o >>= fun fragment =>
      modify (·.remember view.identity fragment) >>= fun _ => pure fragment).run s := by
  unfold fragmentVia
  rw [hl, run_get_bind]
  simp only [Except.toOption, Option.map_some, Option.bind_some, hs]

theorem fragmentVia_run_of_error {failure : Failure} (hl : b.loader.locate path = .error failure)
    (o : Origin) : (b.fragmentVia load path o).run s = (load path o).run s := by
  unfold fragmentVia
  rw [hl, run_get_bind]
  simp only [Except.toOption, Option.map_none, Option.bind_none]
  exact congrArg (fun x : LoadM Node => x.run s) (bind_pure (load path o))

end Fragment

/-- What loading from the session `s` on promises: the template is found, is not being resolved and
is consulted first, and its tree leads to its file. -/
def Loaded (b : Builder) (avoid : String → Prop) (chain : List String) (path : String)
    (s s' : Session) (n : Node) : Prop :=
  ∃ view, b.loader.locate path = .ok view ∧ view.identity ∉ chain ∧
    s.consult view.filename ≤ s' ∧ n.Sited (Origin.Within s'.paths avoid view.filename)

theorem Loaded.attached {chain : List String} {path : String} {s s' : Session} {n : Node}
    (h : b.Loaded avoid chain path s s' n) (hg : b.loader.Guards avoid chain) {file : String}
    {o : Origin} (ho : o.Within s.paths avoid file) (hs : s ≤ s') :
    n.Sited fun o' => (o'.attach o).Within s'.paths avoid file := by
  obtain ⟨view, hl, hc, -, hn⟩ := h
  have ho' := ho.mono (Session.paths_subset hs)
  exact hn.imp fun _ h => h.attach (fun ha => hc (hg path view hl ha)) ho'

theorem fragmentVia_lockstep (hcoherent : b.loader.Coherent) {chain : List String}
    (hg : b.loader.Guards avoid chain) (load load' : String → Origin → LoadM Node) (path : String)
    (o : Origin) (s : Session)
    (hload : (b.beside l avoid).holds s (load path o) (load' path o)
      (b.Loaded avoid chain path s)) :
    (b.beside l avoid).holds s (b.fragmentVia load path o)
      ((b.withLoader l).fragmentVia load' path o) fun s' n => ∃ view,
        b.loader.locate path = .ok view ∧ ¬ avoid view.filename ∧
          n.Sited (Origin.Within s'.paths avoid view.filename) := by
  intro hs n s' hr
  cases hl : b.loader.locate path with
  | error failure =>
    rw [fragmentVia_run_of_error hl] at hr
    obtain ⟨-, -, ⟨view, hview, -⟩, -⟩ := hload hs n s' hr
    rw [hl] at hview
    cases hview
  | ok view =>
    cases hf : s.fragment? view.identity with
    | some fragment =>
      rw [fragmentVia_run_of_some hl hf] at hr
      cases hr
      obtain ⟨ha, hv, hsited⟩ := hs.fragments path view n hl (Session.mem_of_fragment? hf)
      refine ⟨le_refl _, hs, ⟨view, rfl, ha, hsited⟩, fun hagree => ?_⟩
      exact fragmentVia_run_of_some (hagree path view hl hv).1 hf o
    | none =>
      rw [fragmentVia_run_of_none hl hf] at hr
      obtain ⟨fragment, t, hx, hr⟩ := run_bind_eq_ok.mp hr
      cases hr
      obtain ⟨hle, ht, ⟨view', hl', hc, hconsult, hsited⟩, hsame⟩ := hload hs n t hx
      obtain rfl : view = view' := by
        rw [hl] at hl'
        exact Except.ok.inj hl'
      have ha : ¬ avoid view.filename := fun h => hc (hg path view hl h)
      have hv := Session.paths_subset hconsult (s.mem_consult view.filename)
      refine ⟨hle, ht.remember hcoherent hl ha hv hsited, ⟨view, rfl, ha, hsited⟩, fun hagree => ?_⟩
      rw [fragmentVia_run_of_none (hagree path view hl hv).1 hf]
      exact run_bind_eq_ok.mpr ⟨n, t, hsame hagree, rfl⟩

theorem resolver_lockstep (hcoherent : b.loader.Coherent) {chain : List String}
    (hg : b.loader.Guards avoid chain) {load load' : String → Option Origin → LoadM Node}
    (hload : ∀ path o s, (b.beside l avoid).holds s (load path o) (load' path o)
      (b.Loaded avoid chain path s)) (file : String) :
    (b.beside l avoid).Resolvers (.within avoid file) (b.resolver load)
      ((b.withLoader l).resolver load') := by
  refine ⟨fun s path o ho => ?_, fun s path o ho => ?_⟩
  · exact Lockstep.weaken (hload path (some o) s) fun s' n hs hn => hn.attached hg ho hs
  · have hfragment := fragmentVia_lockstep hcoherent hg (fun path o => load path (some o))
      (fun path o => load' path (some o)) path o s (hload path (some o) s)
    refine Lockstep.weaken hfragment ?_
    rintro s' n hs ⟨view, -, ha, hn⟩
    exact hn.imp fun o' ho' => ho'.attach ha (ho.mono (Session.paths_subset hs))

theorem loadAt_lockstep (hb : b.Regular) (hcoherent : b.loader.Coherent) (context : Context)
    (budget : Nat) (chain : List String) (path : String) (reference : Option Origin) (s : Session)
    (hg : ∀ view, b.loader.locate path = .ok view →
      b.loader.Guards avoid (chain ++ [view.identity])) :
    (b.beside l avoid).holds s (b.loadAt context budget chain path reference)
      ((b.withLoader l).loadAt context budget chain path reference)
      (b.Loaded avoid chain path s) := by
  induction budget generalizing chain path reference s with
  | zero =>
    intro _ n s' hr
    obtain ⟨view, k, -, -, hk⟩ := loadAt_run_eq_ok hr
    cases hk
  | succ budget ih =>
    intro hs n s' hr
    obtain ⟨view, -, hl, hc, -⟩ := loadAt_run_eq_ok hr
    rw [loadAt_run context budget reference hl hc] at hr
    -- what is nested is loaded with this template on the chain, so the guard stays up
    have hnested := resolver_lockstep (l := l) hcoherent (hg view hl)
      (fun path' o t => ih (chain ++ [view.identity]) path' o t fun view' _ =>
        (hg view hl).concat view'.identity) view.filename
    have hparse := parse_lockstep hb context hl hnested (s.mem_consult view.filename)
    obtain ⟨source, hread⟩ := parse_run_eq_ok hr
    obtain ⟨hle, hs', hsited, hsame⟩ := hparse (hs.consult hl hread) n s' hr
    have hv := Session.paths_subset hle (s.mem_consult view.filename)
    refine ⟨(s.le_consult _).trans hle, hs', ⟨view, hl, hc, hle, hsited⟩, fun hagree => ?_⟩
    rw [loadAt_run context budget reference (hagree path view hl hv).1 hc]
    exact hsame hagree

def unreachable : Resolver :=
  ⟨fun path _ => throw (.loader (.unreadable path)), fun path _ => throw (.loader (.unreadable path))⟩

theorem unreachable_lockstep {L : Lockstep Session LoadM} (P : Standing Session) :
    L.Resolvers P unreachable unreachable :=
  ⟨fun _ _ _ _ => L.ofThrow, fun _ _ _ _ => L.ofThrow⟩

theorem run_finalize (hb : b.Regular) (r : Resolver) (root : Node) :
    run b.finalize r root = run b.finalize unreachable root := by
  have hpasses : (b.finalize.map fun pass => pass r) =
      b.finalize.map fun pass => pass unreachable :=
    List.map_congr_left fun pass hp => (hb.finalize pass hp).2 r unreachable
  rw [run, run, hpasses]

/-- What a build promises: the page is made from the files of the session, the one that was asked
for first, and its tree leads there. -/
def Built (b : Builder) (avoid : String → Prop) (path : String) (s : Session) (page : Page) : Prop :=
  page.paths = s.paths ∧ ∃ view, b.loader.locate path = .ok view ∧
    [view.filename] <+: s.paths ∧ page.root.Sited (Origin.Within s.paths avoid view.filename)

theorem buildM_lockstep (hb : b.Regular) (hcoherent : b.loader.Coherent) (context : Context)
    (path : String) (hg : ∀ view, b.loader.locate path = .ok view →
      b.loader.Guards avoid [view.identity]) :
    (b.beside l avoid).holds {} (b.buildM context path) ((b.withLoader l).buildM context path)
      (b.Built avoid path) := by
  have hload := loadAt_lockstep (l := l) hb hcoherent context b.maxDepth [] path none {} hg
  refine Lockstep.ofBind _ hload fun s root _ hroot => ?_
  obtain ⟨view, hl, -, hconsult, hsited⟩ := hroot
  rw [run_finalize hb, run_finalize (hb.withLoader l)]
  have hfinal := run_sited (P := .within avoid view.filename) (fun pass hp => (hb.finalize pass hp).1)
    (Standing.bears _) (unreachable_lockstep (L := b.beside l avoid) _) hsited
  refine Lockstep.ofBind _ hfinal fun s' root' hs hroot' => ?_
  intro hsound page t hr
  cases hr
  exact ⟨le_refl _, hsound, ⟨rfl, view, hl, hconsult.trans hs, hroot'⟩, fun _ => rfl⟩

end Builder

end Lamina
