import Lamina.Proofs.Builder.Stages
import Lamina.Proofs.Context.Substitution

/-! Where failures are. Whatever goes wrong in a build goes wrong in a view that has been read by
then, on one of its lines: in its source, in what the values of the context make of it, or at a
construct of it, wherever that has been moved. -/

namespace Lamina

open Lamina.Text

theorem Processor.context_fault {view : View} {context : Context} {source : String}
    {failure : Failure} (h : Processor.context.run view context source = .error failure) :
    ∃ fault line snippet, failure = .parse fault view.filename line snippet ∧
      IsLine source line := by
  obtain ⟨front, name, fallback, back, hpieces, -, -, rfl⟩ := context_eq_error_iff.mp h
  have hsource := (Placeholder.scanned_pieces source.toList).flatMap_lexeme
  rw [hpieces, List.flatMap_append] at hsource
  exact ⟨_, _, _, rfl, isLine_of_append hsource.symm⟩

/-- The view is one that the session has read, from a file that it has consulted. -/
structure Session.Consulted (l : Loader) (s : Session) (view : View) : Prop where
  located : ∃ path, l.locate path = .ok view
  file : view.filename ∈ s.paths
  read : view.identity ∈ s.reads

namespace Loader

/-- A text of the view: its source, or what the values of the context make of it. -/
def Shows (l : Loader) (context : Context) (view : View) (text : String) : Prop :=
  ∃ source, l.read view = .ok source ∧
    (text = source ∨ Processor.context.run view context source = .ok text)

/-- A view that has been seen lies in the file, and a text of it has the line. -/
def HasLine (l : Loader) (context : Context) (seen : View → Prop) (file : String) (line : Nat) :
    Prop :=
  ∃ view text, seen view ∧ view.filename = file ∧ l.Shows context view text ∧ IsLine text line

/-- Failures of the loader itself are told as such. -/
structure Plain (l : Loader) : Prop where
  locate : ∀ path failure, l.locate path = .error failure → ∃ fault, failure = .loader fault
  read : ∀ view failure, l.read view = .error failure → ∃ fault, failure = .loader fault

end Loader

theorem Templates.plain (t : Templates) : t.loader.Plain := by
  refine ⟨fun path failure h => ?_, fun view failure h => ?_⟩
  · rw [loader_locate] at h
    unfold locate at h
    generalize Reference.parse path defaultExtension = r at h
    dsimp only at h
    split at h
    · cases h
      exact ⟨_, rfl⟩
    · split at h
      · cases h
      · cases h
        exact ⟨_, rfl⟩
  · rw [loader_read] at h
    unfold read at h
    split at h
    · cases h
    · cases h
      exact ⟨_, rfl⟩

/-- A failure of a template is in a view that has been seen, on one of its lines. If the view could
not be lexed, that is the line where a construct of it starts, and the snippet shows this. -/
def Failure.Located (l : Loader) (context : Context) (seen : View → Prop) : Failure → Prop
  | lex fault file line snippet => l.HasLine context seen file line ∧
      ∃ view source text excerpt before rest, seen view ∧ view.filename = file ∧
        l.read view = .ok source ∧ Processor.context.run view context source = .ok text ∧
        snippet = some excerpt ∧ fault.Pinned text line excerpt before rest
  | parse _ file line _ | merge _ file line | directive _ file line =>
    l.HasLine context seen file line
  | loader _ => True
  | compile .. | render .. | config _ | script _ | input _ => False

theorem Loader.HasLine.mono {l : Loader} {context : Context} {seen seen' : View → Prop}
    {file : String} {line : Nat} (h : l.HasLine context seen file line) (hs : seen ≤ seen') :
    l.HasLine context seen' file line := by
  obtain ⟨view, text, hview, hrest⟩ := h
  exact ⟨view, text, hs view hview, hrest⟩

theorem Failure.Located.mono {l : Loader} {context : Context} {seen seen' : View → Prop}
    {failure : Failure} (h : failure.Located l context seen) (hs : seen ≤ seen') :
    failure.Located l context seen' := by
  cases failure with
  | lex fault file line snippet =>
    obtain ⟨hline, view, source, text, excerpt, before, rest, hview, hpinned⟩ := h
    exact ⟨hline.mono hs, view, source, text, excerpt, before, rest, hs view hview, hpinned⟩
  | parse | merge | directive => exact Loader.HasLine.mono h hs
  | loader => trivial
  | compile | render | config | script | input => exact h

/-- Origins of constructs in views that have been seen. -/
def Standing.placed (l : Loader) (context : Context) : Standing (View → Prop) where
  holds seen o := l.HasLine context seen o.path o.line
  later hs h := h.mono hs

theorem Standing.placed_bears (l : Loader) (context : Context) :
    (placed l context).Bears (Failure.Located l context · ·) := by
  intro seen o failure ho hat
  cases hat <;> exact ho

/-- The views seen have been consulted, and the fragments remembered come from such views. -/
structure Session.Tells (l : Loader) (context : Context) (seen : View → Prop) (s : Session) :
    Prop where
  views : ∀ view, seen view → s.Consulted l view
  fragments : ∀ entry ∈ s.fragments, entry.2.Sited ((Standing.placed l context).holds seen)

def Reports {W α : Type} (admits : W → Failure → Prop) (Q : W → α → Prop) (w : W) :
    Except Failure α → Prop
  | .ok a => Q w a
  | .error failure => admits w failure

/-- Runs keep the session telling what has been seen, and where they fail, the failure is located
among that. -/
def Lockstep.reporting (l : Loader) (context : Context) :
    Lockstep (View → Prop) LoadM (Failure.Located l context · ·) where
  holds seen x _ Q := ∀ s, s.Tells l context seen → ∃ seen', seen ≤ seen' ∧
    (x.run s).2.Tells l context seen' ∧
      Reports (Failure.Located l context · ·) Q seen' (x.run s).1
  ofPure {_ seen _ _} hQ s hs := ⟨seen, le_rfl, hs, hQ⟩
  ofBind {_ _ seen x _ f _ Q R} hx hf s hs := by
    obtain ⟨seen₁, hle₁, hs₁, hr₁⟩ := hx s hs
    rw [run_bind]
    cases hxr : x.run s with
    | mk r s₁ =>
      rw [hxr] at hs₁ hr₁
      cases r with
      | error failure => exact ⟨seen₁, hle₁, hs₁, hr₁⟩
      | ok a =>
        obtain ⟨seen₂, hle₂, hs₂, hr₂⟩ := hf seen₁ a hle₁ hr₁ s₁ hs₁
        exact ⟨seen₂, hle₁.trans hle₂, hs₂, hr₂⟩
  ofFailure {_ seen _ _} hfailure s hs := ⟨seen, le_rfl, hs, hfailure⟩

namespace Session

variable {l : Loader} {context : Context} {seen : View → Prop} {s : Session} {view : View}

theorem Tells.consult (h : s.Tells l context seen) (file : String) :
    (s.consult file).Tells l context seen := by
  refine ⟨fun view hview => ?_, s.fragments_consult file ▸ h.fragments⟩
  obtain ⟨hl, hfile, hread⟩ := h.views view hview
  exact ⟨hl, paths_subset (s.le_consult file) hfile, s.reads_consult file ▸ hread⟩

theorem Tells.noteRead (h : s.Tells l context seen) {path : String}
    (hl : l.locate path = .ok view) (hv : view.filename ∈ s.paths) :
    (s.noteRead view.identity).Tells l context fun v => seen v ∨ v = view := by
  refine ⟨fun v hv' => ?_, fun entry he => ?_⟩
  · rcases hv' with hv' | rfl
    · obtain ⟨hl', hfile, hread⟩ := h.views v hv'
      exact ⟨hl', hfile, List.mem_append_left _ hread⟩
    · exact ⟨⟨path, hl⟩, hv, List.mem_append_right _ (List.mem_singleton_self _)⟩
  · exact (h.fragments entry he).later (P := .placed l context) fun _ => .inl

theorem Tells.remember (h : s.Tells l context seen) (identity : String) {fragment : Node}
    (hf : fragment.Sited ((Standing.placed l context).holds seen)) :
    (s.remember identity fragment).Tells l context seen := by
  refine ⟨fun view hview => ?_, List.forall_mem_cons.mpr ⟨hf, h.fragments⟩⟩
  obtain ⟨hl, hfile, hread⟩ := h.views view hview
  exact ⟨hl, hfile, hread⟩

end Session

namespace Builder

/-- A builder that puts in the values of the context and nothing else before a source is read. -/
structure Substitutes (b : Builder) : Prop where
  processors : b.processors = [Processor.context]
  loader : b.loader.Plain

def textOf (b : Builder) (context : Context) (view : View) : LoadM String := do
  let text ← source.liftExcept (b.loader.read view)
  b.processors.foldlM (fun text p => source.liftExcept (p.run view context text)) text

def treeOf (b : Builder) (r : Resolver) (view : View) (text : String) : LoadM Node :=
  match Node.parse text view.filename with
  | .error failure => throw failure
  | .ok root => do
    let root ← run b.prepare r root
    run b.transform r root

variable {b : Builder} {context : Context} {seen : View → Prop} {view : View}

theorem textOf_reporting (hb : b.Substitutes) (hview : seen view) :
    (Lockstep.reporting b.loader context).holds seen (b.textOf context view)
      (b.textOf context view) fun seen' text => seen' view ∧ ∃ source,
        b.loader.read view = .ok source ∧
          Processor.context.run view context source = .ok text := by
  rw [textOf, hb.processors]
  simp only [List.foldlM_cons, List.foldlM_nil, bind_pure]
  cases hread : b.loader.read view with
  | error failure =>
    obtain ⟨fault, rfl⟩ := hb.loader.read view failure hread
    exact Lockstep.ofBind _ (Q := fun _ _ => False) (Lockstep.ofFailure _ trivial)
      fun _ _ _ h => h.elim
  | ok source =>
    refine Lockstep.ofBind _ (Q := fun _ text => source = text) (Lockstep.ofPure _ rfl) ?_
    rintro seen₁ _ hle rfl
    cases htext : Processor.context.run view context source with
    | error failure =>
      obtain ⟨fault, line, snippet, rfl, hline⟩ := Processor.context_fault htext
      have hshows : b.loader.Shows context view source := ⟨source, hread, .inl rfl⟩
      exact Lockstep.ofFailure _ ⟨view, source, hle view hview, rfl, hshows, hline⟩
    | ok text => exact Lockstep.ofPure _ ⟨hle view hview, source, rfl, htext⟩

theorem located_of_parse {source text : String} {failure : Failure} (hview : seen view)
    (hread : b.loader.read view = .ok source)
    (htext : Processor.context.run view context source = .ok text)
    (h : Node.parse text view.filename = .error failure) :
    failure.Located b.loader context seen := by
  have hshows : b.loader.Shows context view text := ⟨source, hread, .inr htext⟩
  rcases Node.parse_fault h with hlex | ⟨fault, line, snippet, rfl, hline⟩
  · obtain ⟨fault, line, excerpt, rfl, before, rest, hpinned⟩ := Token.lex_fault hlex
    have hline : IsLine text line := hpinned.line_eq ▸ isLine_of_append hpinned.split
    refine ⟨⟨view, text, hview, rfl, hshows, hline⟩, ?_⟩
    exact ⟨view, source, text, excerpt, before, rest, hview, rfl, hread, htext, rfl, hpinned⟩
  · exact ⟨view, text, hview, rfl, hshows, hline⟩

theorem treeOf_reporting (hb : b.Regular) {r : Resolver}
    (hr : (Lockstep.reporting b.loader context).Resolvers (.placed b.loader context) r r)
    {source text : String} (hview : seen view) (hread : b.loader.read view = .ok source)
    (htext : Processor.context.run view context source = .ok text) :
    (Lockstep.reporting b.loader context).holds seen (b.treeOf r view text) (b.treeOf r view text)
      fun seen' n => n.Sited ((Standing.placed b.loader context).holds seen') := by
  have hbears := Standing.placed_bears b.loader context
  rw [treeOf]
  split
  · next failure hparse =>
    exact Lockstep.ofFailure _ (located_of_parse hview hread htext hparse)
  · next root hparse =>
    have hroot : root.Sited ((Standing.placed b.loader context).holds seen) :=
      (Node.parse_onLine hparse).imp fun o ho =>
        ⟨view, text, hview, ho.1.1.symm, ⟨source, hread, .inr htext⟩, ho.2⟩
    refine Lockstep.ofBind _ (run_sited hb.prepare hbears hr hroot) fun seen₁ root₁ _ hroot₁ => ?_
    exact run_sited hb.transform hbears hr hroot₁

theorem fragmentVia_reporting (load : String → Origin → LoadM Node) {path : String} {o : Origin}
    (hload : (Lockstep.reporting b.loader context).holds seen (load path o) (load path o)
      fun seen' n => n.Sited ((Standing.placed b.loader context).holds seen')) :
    (Lockstep.reporting b.loader context).holds seen (b.fragmentVia load path o)
      (b.fragmentVia load path o)
      fun seen' n => n.Sited ((Standing.placed b.loader context).holds seen') := by
  intro s hs
  cases hl : b.loader.locate path with
  | error failure =>
    rw [fragmentVia_run_of_error hl]
    exact hload s hs
  | ok view =>
    cases hf : s.fragment? view.identity with
    | some fragment =>
      rw [fragmentVia_run_of_some hl hf]
      exact ⟨seen, le_rfl, hs, hs.fragments _ (Session.mem_of_fragment? hf)⟩
    | none =>
      rw [fragmentVia_run_of_none hl hf]
      refine Lockstep.ofBind (.reporting b.loader context) (g := pure) hload ?_ s hs
      intro seen₁ fragment _ hfragment s₁ hs₁
      exact ⟨seen₁, le_rfl, hs₁.remember view.identity hfragment, hfragment⟩

theorem resolver_reporting {load : String → Option Origin → LoadM Node}
    (hload : ∀ {seen} path o, (Standing.placed b.loader context).holds seen o →
      (Lockstep.reporting b.loader context).holds seen (load path (some o)) (load path (some o))
        fun seen' n => n.Sited ((Standing.placed b.loader context).holds seen')) :
    (Lockstep.reporting b.loader context).Resolvers (.placed b.loader context) (b.resolver load)
      (b.resolver load) :=
  ⟨fun _ path o ho => hload path o ho, fun _ path o ho =>
    fragmentVia_reporting (fun path o => load path (some o)) (hload path o ho)⟩

theorem parse_reporting (hb : b.Regular) (hsub : b.Substitutes) {r : Resolver}
    (hr : (Lockstep.reporting b.loader context).Resolvers (.placed b.loader context) r r)
    {path : String} (hl : b.loader.locate path = .ok view) :
    (Lockstep.reporting b.loader context).holds seen
      (modify (·.consult view.filename) >>= fun _ => b.parse context r view)
      (modify (·.consult view.filename) >>= fun _ => b.parse context r view)
      fun seen' n => n.Sited ((Standing.placed b.loader context).holds seen') := by
  intro s hs
  have hnoted := (hs.consult view.filename).noteRead hl (s.mem_consult view.filename)
  have hparsed : (Lockstep.reporting b.loader context).holds (fun v => seen v ∨ v = view)
      (b.textOf context view >>= b.treeOf r view) (b.textOf context view >>= b.treeOf r view)
      fun seen' n => n.Sited ((Standing.placed b.loader context).holds seen') := by
    refine Lockstep.ofBind _ (textOf_reporting hsub (.inr rfl)) ?_
    rintro seen₁ text - ⟨hview, source, hread, htext⟩
    exact treeOf_reporting hb hr hview hread htext
  obtain ⟨seen', hle, htells, hreports⟩ := hparsed _ hnoted
  exact ⟨seen', fun v hv => hle v (.inl hv), htells, hreports⟩

theorem locate_reporting (hb : b.Substitutes) {path : String} {reference : Option Origin}
    (hreference : ∀ o ∈ reference, (Standing.placed b.loader context).holds seen o) :
    (Lockstep.reporting b.loader context).holds seen (b.locate path reference)
      (b.locate path reference) fun _ view => b.loader.locate path = .ok view := by
  unfold locate
  split
  · next hl => exact Lockstep.ofPure _ hl
  · next failure hl =>
    obtain ⟨fault, rfl⟩ := hb.loader.locate path failure hl
    exact Lockstep.ofFailure _ trivial
  · next o _ => exact Lockstep.ofFailure _ (hreference o rfl)

theorem refuse_reporting {o : Origin} (ho : (Standing.placed b.loader context).holds seen o)
    (view : View) (fault : MergeFault) {Q : (View → Prop) → Node → Prop} :
    (Lockstep.reporting b.loader context).holds seen (refuse (some o) view fault)
      (refuse (some o) view fault) Q :=
  Lockstep.ofFailure _ ho

/-- Loading reports what goes wrong, at the reference if the view itself cannot be loaded. Without a
reference nothing is being resolved yet, so that a view that is found can be. -/
theorem loadAt_reporting (hb : b.Regular) (hsub : b.Substitutes) (budget : Nat)
    (chain : List String) (path : String) (reference : Option Origin)
    (hreference : ∀ o ∈ reference, (Standing.placed b.loader context).holds seen o)
    (hfirst : reference = none → chain = [] ∧ 0 < budget) :
    (Lockstep.reporting b.loader context).holds seen (b.loadAt context budget chain path reference)
      (b.loadAt context budget chain path reference)
      fun seen' n => n.Sited ((Standing.placed b.loader context).holds seen') := by
  -- the budget bounds how deep references nest; what is nested always has a reference
  induction budget generalizing seen chain path reference with
  | zero =>
    rw [loadAt]
    refine Lockstep.ofBind _ (locate_reporting hsub hreference) fun seen₁ view hle hl => ?_
    cases reference with
    | none => exact absurd (hfirst rfl).2 (Nat.lt_irrefl 0)
    | some o =>
      have ho := (hreference o rfl).mono hle
      split
      · exact refuse_reporting ho view _
      · exact refuse_reporting ho view _
  | succ budget ih =>
    rw [loadAt]
    refine Lockstep.ofBind _ (locate_reporting hsub hreference) fun seen₁ view hle hl => ?_
    split
    · next hold =>
      cases reference with
      | none => simp [(hfirst rfl).1] at hold
      | some o => exact refuse_reporting ((hreference o rfl).mono hle) view _
    · refine parse_reporting hb hsub (resolver_reporting fun path' o ho => ?_) hl
      have hreference' : ∀ o' ∈ some o, (Standing.placed b.loader context).holds _ o' :=
        fun o' ho' => Option.some.inj ho' ▸ ho
      exact ih (chain ++ [view.identity]) path' (some o) hreference' fun hnone =>
        absurd hnone (Option.some_ne_none o)

theorem buildM_reporting (hb : b.Regular) (hsub : b.Substitutes) (hdepth : 0 < b.maxDepth)
    (path : String) : (Lockstep.reporting b.loader context).holds seen (b.buildM context path)
      (b.buildM context path) fun _ _ => True := by
  have hload : (Lockstep.reporting b.loader context).holds seen (b.load context path none)
      (b.load context path none) _ :=
    loadAt_reporting hb hsub b.maxDepth [] path none
      (fun o ho => absurd ho (Option.not_mem_none o)) fun _ => ⟨rfl, hdepth⟩
  refine Lockstep.ofBind _ hload fun seen₁ root _ hroot => ?_
  rw [run_finalize hb]
  -- the last passes resolve nothing, so a resolver that never answers does for them
  have hunreachable : (Lockstep.reporting b.loader context).Resolvers (.placed b.loader context)
      unreachable unreachable :=
    ⟨fun _ _ _ _ => Lockstep.ofFailure _ trivial, fun _ _ _ _ => Lockstep.ofFailure _ trivial⟩
  have hfinal := run_sited (fun pass hp => (hb.finalize pass hp).1)
    (Standing.placed_bears b.loader context) hunreachable hroot
  refine Lockstep.ofBind _ hfinal fun seen₂ root' _ _ s hs => ?_
  exact ⟨seen₂, le_rfl, hs, trivial⟩

theorem located_of_build (hb : b.Regular) (hsub : b.Substitutes) (hdepth : 0 < b.maxDepth)
    {path : String} {failure : Failure} (h : (b.build context path).1 = .error failure) :
    failure.Located b.loader context ((b.build context path).2.Consulted b.loader) := by
  have hempty : Session.Tells b.loader context (fun _ => False) {} :=
    ⟨fun _ hview => hview.elim, List.forall_mem_nil _⟩
  obtain ⟨seen, -, htells, hreports⟩ := buildM_reporting hb hsub hdepth path {} hempty
  change Reports _ _ seen (b.build context path).1 at hreports
  rw [h] at hreports
  exact Failure.Located.mono hreports htells.views

theorem build_of_compile {directives : Directives} {preserve : List Scope → Bool} (hb : b.Merges)
    (hfinalize : b.finalize = Pass.finalize directives preserve) (hall : b.renderers = .all)
    {path : String} {failure : Failure} (h : (b.compile context path).1 = .error failure) :
    (b.build context path).1 = .error failure := by
  rcases hbuild : b.build context path with ⟨result, session⟩
  cases result with
  | error cause =>
    simp only [compile, hbuild] at h
    cases h
    rfl
  | ok page =>
    have hfinished := finished_of_build hb hfinalize (congrArg Prod.fst hbuild)
    have hprintable : page.root.Everywhere Node.Printable :=
      fun x hx => (hfinished x hx).1.printable
    obtain ⟨output, hok, -⟩ := Node.prints_emit page.root hprintable
    have hcompile : page.root.compile b.renderers page.paths =
        .ok (Chunk.ofOutput page.paths output) := by
      rw [hall]
      exact map_eq_ok.mpr ⟨output, hok, rfl⟩
    rw [compile_of_build hbuild hcompile] at h
    cases h

/-- Failures are where they are said to be. If a template set does not compile with the passes of the
library, the failure is one of the loader, or its file is that of a template read in this very
compilation, and its line is a line of that template, in its source or with the values of the context
put in. A lexical failure is on the line and in the column where the construct starts that cannot be
read, and its snippet shows this line with the caret. -/
theorem failures_are_located (limit : Nat) (directives : Directives) (preserve : List Scope → Bool)
    (strict : Bool) (t : Templates) (context : Context) (path : String) (failure : Failure)
    (hlimit : 1 ≤ limit)
    (h : ((nesting limit directives preserve strict t.loader).compile context path).1 =
      .error failure) :
    failure.Located t.loader context
      (((nesting limit directives preserve strict t.loader).compile context path).2.Consulted
        t.loader) := by
  have hb := nesting_regular limit directives preserve strict t.loader
  have hsub : (nesting limit directives preserve strict t.loader).Substitutes := ⟨rfl, t.plain⟩
  have hbuild := build_of_compile (b := nesting limit directives preserve strict t.loader)
    ⟨rfl, strict, rfl⟩ rfl rfl h
  exact located_of_build hb hsub hlimit hbuild

/-- A page with a card, whose second line has an echo without an end. -/
def openEcho : Templates :=
  [("default:card", "<b>@\x7btitle\x7d</b>\né \x7b\x7b x"),
    ("default:page", "<p>\n<include:card/></p>")]

/-- With a title of two lines the echo comes to stand on the third. -/
def openEchoFailure : Failure :=
  .lex (.unterminatedEcho true) "default/card.stm" 3
    (some ⟨["<b>a", "b</b>", "é \x7b\x7b x"], 3, 4⟩)

set_option maxRecDepth 100000 in
theorem failures_are_located_echo :
    ((default openEcho.loader).compile (.ofPairs [("title", "a\nb")]) "page").1 =
        .error openEchoFailure ∧
      openEchoFailure.Located openEcho.loader (.ofPairs [("title", "a\nb")])
        (((default openEcho.loader).compile (.ofPairs [("title", "a\nb")]) "page").2.Consulted
          openEcho.loader) := by
  have h : ((default openEcho.loader).compile (.ofPairs [("title", "a\nb")]) "page").1 =
      .error openEchoFailure := eq_error_of_failure? (by decide +kernel)
  exact ⟨h, failures_are_located defaultMaxDepth .builtin (Pass.preserveIn defaultPreserveTags)
    false openEcho (.ofPairs [("title", "a\nb")]) "page" openEchoFailure (by decide) h⟩

end Builder

end Lamina
