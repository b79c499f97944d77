import Lamina.Proofs.Builder.Avoiding
import Lamina.Proofs.Pass.Preparing
import Lamina.Proofs.Pass.Splicing

/-! Templates that only include others. Each element of such a template is prepared and resolved
without regard to the others, so its place among them does not matter. -/

namespace Lamina

namespace Builder

def text (b : Builder) (context : Context) (view : View) : Except Failure String := do
  let text ← b.loader.read view
  b.processors.foldlM (fun text p => p.run view context text) text

/-- The view can be read and parsed, and these are the nodes of its tree. -/
def HasBody (b : Builder) (context : Context) (view : View) (body : List Node) : Prop :=
  ∃ text, b.text context view = .ok text ∧
    Node.parse text view.filename = .ok (.rootOf view.filename body)

variable {b : Builder} {context : Context} {view : View} {body : List Node} {r : Resolver}
  {s s' : Session} {o : Origin}

theorem liftExcept_run {α : Type} (x : Except Failure α) (s : Session) :
    (source.liftExcept x).run s = (x, s) := by
  cases x <;> rfl

theorem processors_run (processors : List Processor) (context : Context) (view : View)
    (text : String) (s : Session) :
    (processors.foldlM (fun text p => source.liftExcept (p.run view context text)) text).run s =
      (processors.foldlM (fun text p => p.run view context text) text, s) := by
  induction processors generalizing text with
  | nil => rfl
  | cons p rest ih =>
    rw [List.foldlM_cons, List.foldlM_cons, run_bind, liftExcept_run]
    cases p.run view context text with
    | error failure => rfl
    | ok text' => exact ih text'

theorem source_run (b : Builder) (context : Context) (view : View) (s : Session) :
    (b.source context view).run s = (b.text context view, s.noteRead view.identity) := by
  rw [source, text]
  change (source.liftExcept (b.loader.read view) >>= _ : LoadM String).run
    (s.noteRead view.identity) = _
  rw [run_bind, liftExcept_run]
  cases b.loader.read view with
  | error failure => rfl
  | ok text => exact processors_run b.processors context view text _

theorem HasBody.parse_run (h : b.HasBody context view body) (r : Resolver) (s : Session) :
    (b.parse context r view).run s =
      (run b.prepare r (.rootOf view.filename body) >>= run b.transform r).run
        (s.noteRead view.identity) := by
  obtain ⟨text, htext, hparse⟩ := h
  rw [parse, run_bind, source_run, htext]
  simp only [hparse]

theorem exists_body_of_parse_run {n : Node} (h : (b.parse context r view).run s = (.ok n, s')) :
    ∃ body, b.HasBody context view body := by
  rw [parse, run_bind, source_run] at h
  cases htext : b.text context view with
  | error failure =>
    rw [htext] at h
    cases h
  | ok text =>
    rw [htext] at h
    dsimp only at h
    cases hparse : Node.parse text view.filename with
    | error failure =>
      rw [hparse] at h
      cases h
    | ok root =>
      obtain ⟨-, body, -, -, rfl⟩ := Node.exists_of_parse hparse
      exact ⟨body, text, htext, hparse⟩

end Builder

namespace Walk

variable {vs : List (Visitor WalkM)} {scopes : List Scope} {nodes : List Node} {s s' : Session}

/-- What comes out of a list comes out of its nodes one by one, if each of them leaves the notes
blank. -/
theorem nodes_run_of_list {P : Node → Prop} {outs : List Node} {notes : Notes}
    (hstep : ∀ n ∈ nodes, ∀ s out notes s',
      ((node vs scopes n).run {}).run s = (.ok (out, notes), s') → notes = {} ∧ ∀ x ∈ out, P x)
    (h : ((list vs scopes nodes).run {}).run s = (.ok (outs, notes), s')) :
    notes = {} ∧ (∀ x ∈ outs, P x) ∧ ∀ n ∈ nodes, ∃ out t t',
      ((node vs scopes n).run {}).run t = (.ok (out, {}), t') ∧ ∀ x ∈ out, x ∈ outs := by
  induction nodes generalizing s outs with
  | nil =>
    rw [list] at h
    cases h
    exact ⟨rfl, List.forall_mem_nil _, List.forall_mem_nil _⟩
  | cons n nodes ih =>
    rw [List.forall_mem_cons] at hstep
    rw [list, StateT.run_bind] at h
    obtain ⟨⟨first, notes₁⟩, s₁, hfirst, h⟩ := run_bind_eq_ok.mp h
    obtain ⟨rfl, hp⟩ := hstep.1 s first notes₁ s₁ hfirst
    rw [StateT.run_bind] at h
    obtain ⟨⟨rest, notes₂⟩, s₂, hrest, h⟩ := run_bind_eq_ok.mp h
    cases h
    obtain ⟨rfl, hps, hnodes⟩ := ih hstep.2 hrest
    refine ⟨rfl, List.forall_mem_append.mpr ⟨hp, hps⟩, List.forall_mem_cons.mpr ⟨?_, fun m hm => ?_⟩⟩
    · exact ⟨first, s, s₁, hfirst, fun x hx => List.mem_append_left _ hx⟩
    · obtain ⟨out, t, t', hrun, hout⟩ := hnodes m hm
      exact ⟨out, t, t', hrun, fun x hx => List.mem_append_right _ (hout x hx)⟩

theorem list_run_of_nodes {P : Node → Prop} (h : ∀ n ∈ nodes, ∃ out, (∀ x ∈ out, P x) ∧
      ∀ t, ((node vs scopes n).run {}).run t = (.ok (out, {}), t)) :
    ∃ outs, (∀ x ∈ outs, P x) ∧ ∀ t, ((list vs scopes nodes).run {}).run t = (.ok (outs, {}), t) := by
  induction nodes with
  | nil =>
    refine ⟨[], List.forall_mem_nil _, fun t => ?_⟩
    rw [list]
    rfl
  | cons n nodes ih =>
    rw [List.forall_mem_cons] at h
    obtain ⟨first, hfirst, hrun⟩ := h.1
    obtain ⟨rest, hrest, hruns⟩ := ih h.2
    refine ⟨first ++ rest, List.forall_mem_append.mpr ⟨hfirst, hrest⟩, fun t => ?_⟩
    rw [list, StateT.run_bind]
    refine run_bind_eq_ok.mpr ⟨_, t, hrun t, ?_⟩
    rw [StateT.run_bind]
    exact run_bind_eq_ok.mpr ⟨_, t, hruns t, rfl⟩

theorem node_template {body : List Node} {o : Origin} (henter :
      enterAll [] (.template body o) vs = pure (.keep (.template body o) (Nat.le_refl _) true)) :
    node vs [] (.template body o) = list vs [.template o.path] body >>= fun outs =>
      leaveAll [] (.template outs o) vs := by
  rw [node, henter, pure_bind]
  simp [below]

end Walk

namespace Builder

variable {body : List Node} {r : Resolver} {s s' : Session} {o : Origin}

theorem run_prepare_template (r : Resolver) (body : List Node) (o : Origin) :
    run Pass.prepare r (.template body o) = (fun p : List Node × Notes => Node.template p.1 o) <$>
      (Walk.list (Pass.prepare.map fun pass : Pass => pass r) [.template o.path] body).run {} := by
  rw [run, if_neg (by simp [Pass.prepare]), Walk.root, Walk.node_template rfl]
  simp [Pass.prepare_leave]

/-- What the nodes of a template become at its root: they stay as they are, or the template that the
first of them extends comes in their place. -/
def Extended (r : Resolver) (outs : List Node) (s : Session) (children : List Node) (s' : Session) :
    Prop :=
  (Pass.takeExtends outs = none ∧ children = outs ∧ s' = s) ∨
    ∃ name attrs reference others path parent,
      Pass.takeExtends outs = some ((name, attrs, reference), others) ∧
      (r.load path reference).run s = (.ok parent, s') ∧
      children = others.filter Pass.isLeading ++
        Node.fillAll (others.foldl Fillings.addBlock (.ofAttrs ["path"] attrs))
          (Node.attachAll reference parent.contents) ++ others.filter Pass.isPush

theorem leaveAll_template_run (strict : Bool) (r : Resolver) (outs : List Node) (o : Origin)
    (notes : Notes) (s : Session) :
    ((Walk.leaveAll [] (.template outs o) [Pass.imports r, Pass.extension strict r]).run notes).run s =
      ((Walk.leaveAll [] (.template outs o) [Pass.extension strict r]).run
        { notes with aliases := notes.aliases.filter (·.depth ≤ 0) }).run s :=
  rfl

theorem run_transform_eq_ok {strict : Bool} {n : Node}
    (h : (run (Pass.transform strict) r (.template body o)).run s = (.ok n, s')) :
    ∃ outs notes t children, ((Walk.list [Pass.imports r, Pass.extension strict r]
        [.template o.path] body).run {}).run s = (.ok (outs, notes), t) ∧
      n = .template children o ∧ Extended r outs t children s' := by
  rw [run, if_neg (by simp [Pass.transform])] at h
  obtain ⟨notes, h⟩ := run'_eq_ok h
  rw [Walk.root, StateT.run_bind] at h
  obtain ⟨⟨nodes, notes₁⟩, s₁, hnode, h⟩ := run_bind_eq_ok.mp h
  change ((Walk.node [Pass.imports r, Pass.extension strict r] [] _).run {}).run s = _ at hnode
  rw [Walk.node_template rfl, StateT.run_bind] at hnode
  obtain ⟨⟨outs, notes₂⟩, t, hlist, hleave⟩ := run_bind_eq_ok.mp hnode
  rw [leaveAll_template_run, Walk.leaveAll, StateT.run_bind] at hleave
  obtain ⟨⟨left, notes₃⟩, t', hextension, hrest⟩ := run_bind_eq_ok.mp hleave
  rcases Pass.extension_leave_run_eq_ok hextension with
    ⟨hnone, rfl, rfl⟩ | ⟨name, attrs, reference, others, path, parent, hfound, -, hload, rfl⟩
  · cases hrest
    cases h
    exact ⟨outs, notes₂, _, outs, hlist, rfl, .inl ⟨hnone, rfl, rfl⟩⟩
  · cases hrest
    cases h
    exact ⟨outs, notes₂, t, _, hlist, rfl,
      .inr ⟨name, attrs, reference, others, path, parent, hfound, hload, rfl⟩⟩

theorem run_transform_of_list_run {strict : Bool} {outs : List Node}
    (h : ((Walk.list [Pass.imports r, Pass.extension strict r] [.template o.path] body).run {}).run s =
      (.ok (outs, {}), s'))
    (hextends : Pass.takeExtends outs = none) :
    (run (Pass.transform strict) r (.template body o)).run s = (.ok (.template outs o), s') := by
  have hleave : ((Walk.leaveAll [] (.template outs o) [Pass.imports r, Pass.extension strict r]).run
      {}).run s' = (.ok ([.template outs o], {}), s') := by
    rw [leaveAll_template_run]
    simp only [Walk.leaveAll, Pass.extension, Visitor.onLeave, List.isEmpty_nil, Bool.not_true,
      Bool.false_eq_true, if_false, hextends]
    rfl
  have hnode : ((Walk.node [Pass.imports r, Pass.extension strict r] [] (.template body o)).run
      {}).run s = (.ok ([.template outs o], {}), s') := by
    rw [Walk.node_template rfl, StateT.run_bind]
    exact run_bind_eq_ok.mpr ⟨_, s', h, hleave⟩
  rw [run, if_neg (by simp [Pass.transform]), Walk.root, StateT.run'_eq, StateT.run_bind,
    map_eq_pure_bind]
  refine run_bind_eq_ok.mpr ⟨(.template outs o, {}), s', ?_, rfl⟩
  exact run_bind_eq_ok.mpr ⟨_, s', hnode, rfl⟩

variable {b : Builder} {context : Context} {view : View} {strict : Bool}

theorem HasBody.stages (h : b.HasBody context view body) (hprepare : b.prepare = Pass.prepare)
    (htransform : b.transform = Pass.transform strict) {n : Node}
    (hn : (b.parse context r view).run s = (.ok n, s')) :
    ∃ prepared notes s₁ outs notes' s₂ children,
      ((Walk.list (Pass.prepare.map fun pass : Pass => pass r) [.template view.filename] body).run
        {}).run (s.noteRead view.identity) = (.ok (prepared, notes), s₁) ∧
      ((Walk.list [Pass.imports r, Pass.extension strict r] [.template view.filename] prepared).run
        {}).run s₁ = (.ok (outs, notes'), s₂) ∧
      n.contents = children ∧ Extended r outs s₂ children s' := by
  rw [h.parse_run, hprepare, htransform, Node.rootOf, run_prepare_template] at hn
  obtain ⟨root, s₁, hprepared, htransformed⟩ := run_bind_eq_ok.mp hn
  rw [map_eq_pure_bind] at hprepared
  obtain ⟨⟨prepared, notes⟩, s₁, hlist, hroot⟩ := run_bind_eq_ok.mp hprepared
  cases hroot
  obtain ⟨outs, notes', s₂, children, hlist', rfl, hextended⟩ := run_transform_eq_ok htransformed
  exact ⟨prepared, notes, s₁, outs, notes', s₂, children, hlist, hlist', rfl, hextended⟩

theorem HasBody.parse_of_stages (h : b.HasBody context view body)
    (hprepare : b.prepare = Pass.prepare) (htransform : b.transform = Pass.transform strict)
    {prepared outs : List Node} {notes : Notes} {s₁ : Session}
    (hlist : ((Walk.list (Pass.prepare.map fun pass : Pass => pass r) [.template view.filename]
      body).run {}).run (s.noteRead view.identity) = (.ok (prepared, notes), s₁))
    (hlist' : ((Walk.list [Pass.imports r, Pass.extension strict r] [.template view.filename]
      prepared).run {}).run s₁ = (.ok (outs, {}), s'))
    (hextends : Pass.takeExtends outs = none) :
    (b.parse context r view).run s = (.ok (.rootOf view.filename outs), s') := by
  rw [h.parse_run, hprepare, htransform, Node.rootOf, run_prepare_template, map_eq_pure_bind]
  exact run_bind_eq_ok.mpr ⟨_, s₁, run_bind_eq_ok.mpr ⟨_, s₁, hlist, rfl⟩,
    run_transform_of_list_run hlist' hextends⟩

end Builder

/-- An element that names the fragment it stands for. -/
def Node.isInclude : Node → Bool
  | tag name _ _ _ _ => (suffix? "include" name).isSome
  | _ => false

namespace Pass

variable {r : Resolver} {scopes : List Scope} {name suffix : String} {attrs : List (Attr Node)}
  {children : List Node} {closing : Closing} {o : Origin}

theorem other_families (h : Node.suffix? "include" name = some suffix) :
    name ≠ "use" ∧ name ≠ "hidden" ∧ Node.suffix? "block" name = none ∧
      Node.suffix? "stack" name = none := by
  have hother {family : String} (hf : ¬ family.toList ++ [':'] <+: "include:".toList)
      (hf' : ¬ "include:".toList <+: family.toList ++ [':']) : Node.suffix? family name = none := by
    rw [Node.suffix?_eq_none_iff]
    intro hin
    obtain ⟨rest, hrest, -⟩ := Option.map_eq_some_iff.mp h
    have hinclude : "include:".toList <+: name.toList :=
      ⟨rest, (Text.isPrefixOf?_eq_some.mp hrest).symm⟩
    rcases List.prefix_or_prefix_of_prefix hin hinclude with hp | hp
    · exact hf hp
    · exact hf' hp
  refine ⟨?_, ?_, hother (by decide) (by decide), hother (by decide) (by decide)⟩
  · rintro rfl
    have hnone : Node.suffix? "include" "use" = none := by decide
    exact absurd (hnone.symm.trans h) nofun
  · rintro rfl
    have hnone : Node.suffix? "include" "hidden" = none := by decide
    exact absurd (hnone.symm.trans h) nofun

theorem prepare_include_run {out : List Node} {notes notes' : Notes} {s s' : Session}
    (hname : Node.suffix? "include" name = some suffix)
    (h : ((Walk.node (prepare.map fun pass : Pass => pass r) scopes
      (.tag name attrs children closing o)).run notes).run s = (.ok (out, notes'), s')) :
    ∃ attrs' children', out = [.tag name attrs' children' closing o] := by
  obtain ⟨-, hhidden, hblock, hstack⟩ := other_families hname
  obtain ⟨hopens, rfl⟩ | ⟨m, attrs', pieces, hopens, -, -, -, rfl⟩ :=
    prepares_cases ⟨r, scopes, notes, notes', s, s', h⟩
  · cases hopens
    exact absurd rfl hhidden
  · cases hopens with
    | other hn => cases hn
    | element => exact ⟨attrs', pieces.flatten, rfl⟩
    | block _ family => cases hblock.symm.trans family
    | stack _ family | push _ family => cases hstack.symm.trans family

theorem transform_include_run {strict : Bool} {out : List Node} {notes' : Notes} {s s' : Session}
    (hname : Node.suffix? "include" name = some suffix)
    (h : ((Walk.node [imports r, extension strict r] scopes
      (.tag name attrs children closing o)).run {}).run s = (.ok (out, notes'), s')) :
    ∃ attrs' children' m t t',
      (r.fragment (Reference.ofSuffix suffix) o).run t = (.ok m, t') ∧
      out = splice attrs' children' o m := by
  obtain ⟨huse, -⟩ := other_families hname
  have hmirrors : Mirrors [] [] := rfl
  have hnode := node_run_imports strict r scopes (n := .tag name attrs children closing o)
    (by simpa [Node.isUse] using huse) hmirrors []
  have hopened : ((Node.tag name attrs children closing o).link []).withParts
      (Node.tag name attrs children closing o).attrs (Node.tag name attrs children closing o).children =
        .fragment (Reference.ofSuffix suffix) attrs children o := by
    rw [Node.link, if_neg huse, Node.target?, hname]
    rfl
  rw [hopened] at hnode
  rw [hnode, StateT.run_bind] at h
  obtain ⟨⟨m, notes₁⟩, s₁, hbelow, h⟩ := run_bind_eq_ok.mp h
  obtain ⟨-, attrs', pieces, -, -, rfl⟩ := Walk.below_returns ⟨_, _, _, _, hbelow⟩
  rw [Walk.leaveAll, StateT.run_bind] at h
  obtain ⟨⟨left, notes₂⟩, s₂, hleave, h⟩ := run_bind_eq_ok.mp h
  simp only [imports, Node.withParts] at hleave
  rw [StateT.run_bind] at hleave
  obtain ⟨⟨_, notes₃⟩, s₃, hmodify, hleave⟩ := run_bind_eq_ok.mp hleave
  rw [StateT.run_bind] at hleave
  obtain ⟨⟨m, notes₄⟩, s₄, hload, hleave⟩ := run_bind_eq_ok.mp hleave
  obtain ⟨_, _, hload, hpure⟩ := run_bind_eq_ok.mp hload
  cases hpure
  cases hleave
  cases h
  exact ⟨attrs', pieces.flatten, m, _, _, hload, rfl⟩

theorem prepare_blank {n : Node} {out : List Node} {notes' : Notes} {s s' : Session}
    (h : ((Walk.node (prepare.map fun pass : Pass => pass r) scopes n).run {}).run s =
      (.ok (out, notes'), s')) : notes' = {} := by
  have hvisitors := prepare_visitors
    ((Lockstep.agreeing fun _ => True).withState fun _ (notes : Notes) => notes = {}) r
  have hwalk := Lockstep.walk_node hvisitors n .stage scopes n.has_anything
  exact (hwalk {} rfl s trivial _ s' h s _ s' h).2.2.2

theorem transform_include_blank {strict : Bool} {out : List Node} {notes' : Notes} {s s' : Session}
    (hname : Node.suffix? "include" name = some suffix)
    (h : ((Walk.node [imports r, extension strict r] scopes
      (.tag name attrs children closing o)).run {}).run s = (.ok (out, notes'), s')) :
    notes' = {} := by
  obtain ⟨huse, -⟩ := other_families hname
  have hafter : Alias.after scopes.length [] (.tag name attrs children closing o) = [] := by
    rw [Alias.after, Node.declaration?_of_not_isUse (by simpa [Node.isUse] using huse)]
    rfl
  have htracked : Tracked strict r (.tag name attrs children closing o) := tracked _
  obtain ⟨z, hz, -⟩ := htracked scopes [] [] (List.forall_mem_nil _) rfl
  rw [hafter] at hz
  rw [hz, map_eq_pure_bind] at h
  obtain ⟨_, _, -, h⟩ := run_bind_eq_ok.mp h
  cases h
  rfl

end Pass

def Node.isExtension : Node → Bool
  | tag name _ _ _ _ => Pass.isExtends name
  | _ => false

theorem Node.isExtension_attach (reference : Origin) (n : Node) :
    (n.attach reference).isExtension = n.isExtension := by
  cases n <;> rfl

theorem Node.isExtension_fill (f : Fillings) (n : Node) :
    (n.fill f).isExtension = n.isExtension := by
  cases n with
  | block name children o =>
    rw [Node.fill]
    split <;> rfl
  | _ => rfl

theorem Pass.takeExtends_eq_none_iff {nodes : List Node} :
    Pass.takeExtends nodes = none ↔ ∀ n ∈ nodes, n.isExtension = false := by
  fun_induction Pass.takeExtends nodes with
  | case1 => simp
  | case2 name attrs children closing o rest h => simp [Node.isExtension, h]
  | case3 name attrs children closing o rest h ih => simp [Node.isExtension, h, ih]
  | case4 node rest h ih =>
    cases node with
    | tag name attrs children closing o => exact absurd rfl (h name attrs children closing o)
    | _ => simp [Node.isExtension, ih]

theorem Node.not_isExtension_fillAll {f : Fillings} {reference : Origin} {nodes : List Node}
    (h : Pass.takeExtends nodes = none) :
    ∀ x ∈ fillAll f (attachAll reference nodes), x.isExtension = false := by
  rw [fillAll_eq, attachAll_eq]
  simp only [List.forall_mem_map, isExtension_fill, isExtension_attach]
  exact Pass.takeExtends_eq_none_iff.mp h

namespace Builder

variable {b : Builder} {context : Context} {known : String → Prop} {view : View} {n : Node}
  {strict : Bool}

theorem Means.takeExtends_eq_none (hprepare : b.prepare = Pass.prepare)
    (htransform : b.transform = Pass.transform strict) (h : b.Means context known view n) :
    Pass.takeExtends n.contents = none := by
  induction h with
  | intro loads fragments _ _ _ parsed ihl _ =>
    obtain ⟨body, hbody⟩ := exists_body_of_parse_run parsed
    obtain ⟨prepared, notes, s₁, outs, notes', s₂, children, -, -, hcontents, hextended⟩ :=
      hbody.stages hprepare htransform parsed
    rw [hcontents]
    rcases hextended with
      ⟨hnone, rfl, -⟩ | ⟨name, attrs, reference, others, path, parent, -, hload, rfl⟩
    · exact hnone
    · -- the parent extends nothing, and no element comes before or after it
      obtain ⟨-, v, -, hparent⟩ := (answer_run_eq_ok reference).mp hload
      have hleading : ∀ x ∈ others.filter Pass.isLeading, x.isExtension = false := by
        intro x hx
        cases x with
        | tag => simp [Pass.isLeading] at hx
        | _ => rfl
      have hpush : ∀ x ∈ others.filter Pass.isPush, x.isExtension = false := by
        intro x hx
        cases x with
        | tag => simp [Pass.isPush] at hx
        | _ => rfl
      refine Pass.takeExtends_eq_none_iff.mpr ?_
      rw [List.forall_mem_append, List.forall_mem_append]
      exact ⟨⟨hleading, Node.not_isExtension_fillAll (ihl v parent hparent)⟩, hpush⟩

end Builder

end Lamina
