import Lamina.Proofs.Builder.Stages

/-! Fillings without a slot. A template that extends another one strictly is refused if it fills what
the other one has no slot for. Slots are looked for from the outside, and what stands inside a slot
that is filled is gone by then, so a slot counts only where no filled one is around it. -/

namespace Lamina

namespace Node

/-- A node that is one of the nodes or below one of them, where no slot with one of the names is
around it. -/
inductive Exposed (names : List String) : List Node → Node → Prop
  | here {nodes : List Node} {x : Node} (hx : x ∈ nodes) : Exposed names nodes x
  | child {nodes : List Node} {n x : Node} (hn : n ∈ nodes) (hout : ∀ name ∈ n.slot?, name ∉ names)
      (hx : Exposed names n.children x) : Exposed names nodes x
  | inner {nodes : List Node} {n x : Node} {a : Attr Node} (hn : n ∈ nodes) (ha : a ∈ n.attrs)
      (hx : Exposed names a.value.inner x) : Exposed names nodes x

variable {names : List String} {nodes : List Node} {n x : Node} {f : Fillings} {name : String}

theorem Exposed.mono {nodes' : List Node} (h : Exposed names nodes x) (hs : nodes ⊆ nodes') :
    Exposed names nodes' x := by
  cases h with
  | here hx => exact .here (hs hx)
  | child hn hout hx => exact .child (hs hn) hout hx
  | inner hn ha hx => exact .inner (hs hn) ha hx

theorem Exposed.mem_nodesAll (h : Exposed names nodes x) : x ∈ nodesAll nodes := by
  induction h with
  | here hx => exact Node.mem_nodesAll.mpr ⟨_, hx, by rw [nodes_eq]; exact .head _⟩
  | child hn _ _ ih =>
    refine Node.mem_nodesAll.mpr ⟨_, hn, ?_⟩
    rw [nodes_eq]
    exact .tail _ (List.mem_append_right _ ih)
  | inner hn ha _ ih =>
    obtain ⟨c, hc, hx⟩ := Node.mem_nodesAll.mp ih
    refine Node.mem_nodesAll.mpr ⟨_, hn, ?_⟩
    rw [nodes_eq]
    exact .tail _ (List.mem_append_left _ (mem_nodesAttrs.mpr ⟨_, ha, c, hc, hx⟩))

theorem filled_attach (f : Fillings) (r : Origin) (n : Node) : filled f (n.attach r) = filled f n := by
  induction n using byParts with
  | parts n iha ihc =>
    have hall : filledAll f (attachAll r n.children) = filledAll f n.children := by
      rw [filledAll_eq, filledAll_eq, attachAll_eq, List.flatMap_map]
      exact List.flatMap_congr fun c hc => ihc c hc
    have hattrs : filledAttrs f (attachAttrs r n.attrs) = filledAttrs f n.attrs := by
      rw [filledAttrs_eq, filledAttrs_eq, attachAttrs_eq, List.flatMap_map]
      refine List.flatMap_congr fun a ha => ?_
      have hinner := iha a ha
      cases hv : a.value with
      | bare | unquoted => rfl
      | quoted | dynamic =>
        rw [hv] at hinner
        simp only [AttrValue.withInner, AttrValue.inner, List.flatMap_map]
        exact List.flatMap_congr fun c hc => hinner c hc
    cases n with
    | block name children o =>
      simp only [attach, filled]
      rw [show filledAll f (attachAll r children) = filledAll f children from hall]
    | tag name attrs children closing o => exact congrArg₂ (· ++ ·) hattrs hall
    | template | stack | push | fragment => exact hall
    | raw | directive | echo | host => rfl

theorem exposed_of_mem_filled (hf : ∀ name, f.contains name = true ↔ name ∈ names)
    (h : name ∈ filled f n) : ∃ x, Exposed names [n] x ∧ x.slot? = some name := by
  induction n using byParts with
  | parts n iha ihc =>
    have hchildren (hout : ∀ name ∈ n.slot?, name ∉ names) (h : name ∈ filledAll f n.children) :
        ∃ x, Exposed names [n] x ∧ x.slot? = some name := by
      rw [filledAll_eq] at h
      obtain ⟨c, hc, h⟩ := List.mem_flatMap.mp h
      obtain ⟨x, hx, hs⟩ := ihc c hc h
      have hsub : [c] ⊆ n.children := List.cons_subset.mpr ⟨hc, List.nil_subset _⟩
      exact ⟨x, .child (.head _) hout (hx.mono hsub), hs⟩
    cases n with
    | block slot children o =>
      rw [filled] at h
      split at h
      · exact ⟨_, .here (.head _), congrArg some (List.mem_singleton.mp h).symm⟩
      · next hnot =>
        refine hchildren (fun name hname hmem => hnot ?_) h
        cases hname
        exact (hf slot).mpr hmem
    | tag tag attrs children closing o =>
      rcases List.mem_append.mp h with h | h
      · rw [filledAttrs_eq] at h
        obtain ⟨a, ha, h⟩ := List.mem_flatMap.mp h
        obtain ⟨c, hc, h⟩ := List.mem_flatMap.mp h
        obtain ⟨x, hx, hs⟩ := iha a ha c hc h
        have hsub : [c] ⊆ a.value.inner := List.cons_subset.mpr ⟨hc, List.nil_subset _⟩
        exact ⟨x, .inner (.head _) ha (hx.mono hsub), hs⟩
      · exact hchildren (fun _ hname => nomatch hname) h
    | template | stack | push | fragment => exact hchildren (fun _ hname => nomatch hname) h
    | raw | directive | echo | host => cases h

theorem mem_filledAll_of_exposed (hf : ∀ name, f.contains name = true ↔ name ∈ names)
    (hnodes : ∀ n ∈ nodes, n.Has .merged) (hx : Exposed names nodes x) (hs : x.slot? = some name)
    (hname : name ∈ names) : name ∈ filledAll f nodes := by
  induction hx with
  | @here nodes x hx =>
    rw [filledAll_eq]
    refine List.mem_flatMap.mpr ⟨x, hx, ?_⟩
    cases x with
    | block slot children o =>
      cases hs
      rw [filled, if_pos ((hf _).mpr hname)]
      exact .head _
    | _ => cases hs
  | @child nodes n x hn hout hx ih =>
    have hmem := ih (hnodes n hn).below.2 hs
    rw [filledAll_eq]
    refine List.mem_flatMap.mpr ⟨n, hn, ?_⟩
    cases n with
    | block slot children o =>
      rw [filled, if_neg fun h => hout slot rfl ((hf slot).mp h)]
      exact hmem
    | tag => exact List.mem_append_right _ hmem
    | template | stack | push | fragment => exact hmem
    | raw | directive | echo | host => cases hmem
  | @inner nodes n x a hn ha hx ih =>
    have hmem := ih ((hnodes n hn).below.1 a ha).2 hs
    rw [filledAll_eq]
    refine List.mem_flatMap.mpr ⟨n, hn, ?_⟩
    cases n with
    | tag tag attrs children closing o =>
      refine List.mem_append_left _ ?_
      rw [filledAttrs_eq]
      rw [filledAll_eq] at hmem
      exact List.mem_flatMap.mpr ⟨a, ha, hmem⟩
    | fragment path attrs children o => exact absurd (has_iff.mp (hnodes _ hn)).1 id
    | _ => cases ha

theorem mem_filledAll_attachAll_iff (hf : ∀ name, f.contains name = true ↔ name ∈ names)
    (r : Origin) (hnodes : ∀ n ∈ nodes, n.Has .merged) (hname : name ∈ names) :
    name ∈ filledAll f (attachAll r nodes) ↔ ∃ x, Exposed names nodes x ∧ x.slot? = some name := by
  have hattach : filledAll f (attachAll r nodes) = filledAll f nodes := by
    rw [filledAll_eq, filledAll_eq, attachAll_eq, List.flatMap_map]
    exact List.flatMap_congr fun n _ => filled_attach f r n
  rw [hattach]
  constructor
  · intro h
    rw [filledAll_eq] at h
    obtain ⟨n, hn, h⟩ := List.mem_flatMap.mp h
    obtain ⟨x, hx, hs⟩ := exposed_of_mem_filled hf h
    exact ⟨x, hx.mono (List.cons_subset.mpr ⟨hn, List.nil_subset _⟩), hs⟩
  · rintro ⟨x, hx, hs⟩
    exact mem_filledAll_of_exposed hf hnodes hx hs hname

theorem Exposed.mem_nodes_of_contents (h : Exposed names n.contents x) : x ∈ n.nodes := by
  have hall := h.mem_nodesAll
  cases n with
  | template children o =>
    rw [nodes_eq]
    exact .tail _ (List.mem_append_right _ hall)
  | _ =>
    obtain ⟨c, hc, hx⟩ := Node.mem_nodesAll.mp hall
    exact List.mem_singleton.mp hc ▸ hx

end Node

namespace Fillings

/-- The names that an extending template fills: those of the attributes of its `extends` element,
except for the path, and of the slots at its root. -/
def names (attrs : List (Attr Node)) (others : List Node) : List String :=
  (attrs.map (·.name)).filter (fun name => name ≠ "" && name ≠ "path") ++
    others.filterMap Node.slot?

theorem contains_set (f : Fillings) (name : String) (content : List Node) (key : String) :
    (Table.set f name content).contains key = true ↔ key = name ∨ f.contains key = true := by
  rw [Table.contains, Table.get?_set, Table.contains]
  by_cases h : key = name <;> simp [h]

theorem contains_ofAttrs (attrs : List (Attr Node)) (key : String) :
    (ofAttrs ["path"] attrs).contains key = true ↔
      key ∈ (attrs.map (·.name)).filter fun name => name ≠ "" && name ≠ "path" := by
  induction attrs using List.reverseRecOn with
  | nil => simp [ofAttrs, Table.contains]
  | append_singleton attrs a ih =>
    rw [ofAttrs, List.foldl_concat]
    change (if a.name.isEmpty || ["path"].contains a.name then ofAttrs ["path"] attrs
      else (ofAttrs ["path"] attrs).set a.name (a.value.content a.origin)).contains key = true ↔ _
    rw [List.map_append, List.filter_append, List.mem_append, ← ih]
    by_cases ha : a.name = "" ∨ a.name = "path"
    · rw [if_pos (by simpa using ha)]
      rcases ha with ha | ha <;> simp [ha]
    · rw [if_neg (by simpa using ha), contains_set]
      rw [not_or] at ha
      simp [ha, or_comm]

theorem contains_addBlocks (f : Fillings) (others : List Node) (key : String) :
    (others.foldl addBlock f).contains key = true ↔
      f.contains key = true ∨ key ∈ others.filterMap Node.slot? := by
  induction others generalizing f with
  | nil => simp
  | cons n others ih =>
    rw [List.foldl_cons, ih]
    cases n with
    | block name children o => simp [addBlock, contains_set, Node.slot?, or_assoc, or_left_comm]
    | _ => simp [addBlock, Node.slot?]

theorem contains_iff_mem_names (attrs : List (Attr Node)) (others : List Node) (key : String) :
    (others.foldl addBlock (.ofAttrs ["path"] attrs)).contains key = true ↔
      key ∈ names attrs others := by
  rw [contains_addBlocks, contains_ofAttrs, names, List.mem_append]

end Fillings

namespace Pass

variable {r : Resolver} {children others : List Node} {o reference : Origin} {name path : String}
  {attrs : List (Attr Node)} {parent : Node} {s s' : Session}

theorem extension_refuses_iff (notes : Notes)
    (hextends : takeExtends children = some ((name, attrs, reference), others))
    (hpath : extendsPath? name attrs = some path)
    (hparent : (r.load path reference).run s = (.ok parent, s')) :
    (∃ block, ((((extension true r).leave [] (.template children o)).run notes).run s).1 =
      .error (.merge (.undefinedBlock block path) reference.path reference.line)) ↔
      let f := others.foldl Fillings.addBlock (.ofAttrs ["path"] attrs)
      ∃ block ∈ f.keys, block ∉ Node.filledAll f (Node.attachAll reference parent.contents) := by
  have hload : (StateT.run (liftM (r.load path reference) : WalkM Node) notes).run s =
      (.ok (parent, notes), s') := run_bind_eq_ok.mpr ⟨parent, s', hparent, rfl⟩
  simp only [extension, Visitor.onLeave, List.isEmpty_nil, Bool.not_true, Bool.false_eq_true,
    if_false, hextends, hpath, if_true]
  rw [StateT.run_bind, run_bind, hload]
  dsimp only
  -- the first filling without a slot, if there is one, is the one that the failure names
  split
  · next unknown hfind =>
    refine ⟨fun _ => ⟨unknown, List.mem_of_find?_eq_some hfind, ?_⟩, fun _ => ⟨unknown, rfl⟩⟩
    simpa using List.find?_some hfind
  · next hfind =>
    constructor
    · rintro ⟨_, h⟩
      cases h
    · rintro ⟨block, hmem, hnot⟩
      exact absurd (List.find?_eq_none.mp hfind block hmem) (by simpa using hnot)

end Pass

namespace Builder

/-- A template that extends another one strictly is refused exactly if it fills a name that no
exposed slot of the loaded parent has. Where every slot that it fills is exposed somewhere, that is
if it fills a name that no slot of the parent has, however deep and in attribute values too. -/
theorem strict_refuses_iff_unexposed (limit : Nat) (directives : Directives)
    (preserve : List Scope → Bool) (l : Loader) (context : Context) (budget : Nat)
    (chain : List String) (children others : List Node) (o reference : Origin)
    (name path : String) (attrs : List (Attr Node)) (parent : Node) (notes : Notes)
    (s s' : Session) (hs : s.Merged)
    (hextends : Pass.takeExtends children = some ((name, attrs, reference), others))
    (hpath : Pass.extendsPath? name attrs = some path)
    (hparent : ((nesting limit directives preserve true l).loadAt context budget chain path
      (some reference)).run s = (.ok parent, s')) :
    let b := nesting limit directives preserve true l
    let visitor := Pass.extension true (b.resolver (b.loadAt context budget chain))
    let names := Fillings.names attrs others
    let refused := ∃ block, (((visitor.leave [] (.template children o)).run notes).run s).1 =
      .error (.merge (.undefinedBlock block path) reference.path reference.line)
    (refused ↔ ∃ block ∈ names,
      ∀ x, Node.Exposed names parent.contents x → x.slot? ≠ some block) ∧
    ((∀ block ∈ names, ∀ x ∈ parent.nodes, x.slot? = some block →
        ∃ y, Node.Exposed names parent.contents y ∧ y.slot? = some block) →
      (refused ↔ ∃ block ∈ names, ∀ x ∈ parent.nodes, x.slot? ≠ some block)) := by
  intro b visitor names refused
  have hmerged : parent.Has .merged :=
    (loadAt_merging (b := b) ⟨rfl, true, rfl⟩ budget chain path (some reference) hs parent s'
      hparent).2.2.1
  have hf := Fillings.contains_iff_mem_names attrs others
  have hexposed : refused ↔ ∃ block ∈ names,
      ∀ x, Node.Exposed names parent.contents x → x.slot? ≠ some block := by
    refine (Pass.extension_refuses_iff (r := b.resolver (b.loadAt context budget chain)) notes
      hextends hpath hparent).trans ?_
    refine exists_congr fun block => ?_
    rw [← Table.contains_iff_mem_keys, hf]
    refine and_congr_right fun hblock => ?_
    rw [Node.mem_filledAll_attachAll_iff hf reference hmerged.contents hblock]
    simp only [not_exists, not_and, ne_eq, names]
  refine ⟨hexposed, fun hreach => hexposed.trans ⟨?_, ?_⟩⟩
  · rintro ⟨block, hblock, hno⟩
    refine ⟨block, hblock, fun x hx hslot => ?_⟩
    obtain ⟨y, hy, hslot'⟩ := hreach block hblock x hx hslot
    exact hno y hy hslot'
  · rintro ⟨block, hblock, hno⟩
    exact ⟨block, hblock, fun x hx => hno x hx.mem_nodes_of_contents⟩

/-- A layout with a slot in an attribute value and a slot inside another one, and a page that fills
the latter two. -/
def frame : Templates :=
  [("default:layout", "<p id=\"$\x7btitle\x7d\"><block:outer><block:inner/></block:outer></p>"),
    ("default:page", "<extends:layout/><block:outer>x</block:outer><block:inner>y</block:inner>")]

set_option maxRecDepth 100000 in
theorem strict_refuses_iff_unexposed_frame :
    let b := nesting 32 .builtin (Pass.preserveIn []) true frame.loader
    let o : Origin := ⟨⟨"default/page.stm", 1, .html, ""⟩, []⟩
    let attrs : List (Attr Node) := [⟨"title", .quoted '"' [.raw "t" o], o⟩]
    let others : List Node := [.block "outer" [.raw "x" o] o]
    ∃ parent s', (b.loadAt .empty 32 ["default:page"] "layout" (some o)).run {} = (.ok parent, s') ∧
      ∀ block ∈ Fillings.names attrs others, ∃ x,
        Node.Exposed (Fillings.names attrs others) parent.contents x ∧ x.slot? = some block := by
  intro b o attrs others
  have hload : ((b.loadAt .empty 32 ["default:page"] "layout" (some o)).run {}).1.toOption.isSome :=
    by decide +kernel
  have hfilled : failure? ((((Pass.extension true (b.resolver (b.loadAt .empty 32 ["default:page"]))
      ).leave [] (.template (.tag "extends:layout" attrs [] .void o :: others) o)).run {}).run {}).1 =
      none := by decide +kernel
  obtain ⟨parent, hsome⟩ := Option.isSome_iff_exists.mp hload
  have hparent : (b.loadAt .empty 32 ["default:page"] "layout" (some o)).run {} = (.ok parent, _) :=
    Prod.ext (eq_ok_of_toOption hsome) rfl
  have hiff := (strict_refuses_iff_unexposed 32 .builtin (Pass.preserveIn []) frame.loader .empty 32
    ["default:page"] (.tag "extends:layout" attrs [] .void o :: others) others o o "extends:layout"
    "layout" attrs parent {} {} _ (List.forall_mem_nil _) rfl rfl hparent).1
  refine ⟨parent, _, hparent, ?_⟩
  by_contra hnot
  push Not at hnot
  obtain ⟨block, h⟩ := hiff.mpr hnot
  rw [h] at hfilled
  cases hfilled

set_option maxRecDepth 100000 in
/-- A page is refused for a slot that its layout has, because the slot stands inside another one
that the page fills too. -/
theorem slot_in_filled_slot_is_refused :
    let b := nesting 32 .builtin (Pass.preserveIn []) true frame.loader
    failure? ((b.load .empty "page" none).run {}).1 =
        some (.merge (.undefinedBlock "inner" "layout") "default/page.stm" 1) ∧
      (((b.load .empty "layout" none).run {}).1.toOption.map (·.nodes.filterMap Node.slot?)) =
        some ["title", "outer", "inner"] := by
  decide +kernel

end Builder

end Lamina
