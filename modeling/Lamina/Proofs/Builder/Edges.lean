import Lamina.Proofs.Builder.Bodies
import Lamina.Proofs.Pass.Collecting
import Mathlib.Data.List.DropRight

/-! The edges of a page. Text at an edge loses its white space there, and text that is blank goes
away; what comes to the edge by that stays as it is. So white space is left at an edge exactly if
blank text stood there and, next to it, text with white space on the same side. -/

namespace Lamina

open Lamina.Text

namespace Text

variable {s : List Char}

/-- `front` trims the side of a text that `edge` looks at, and `back` trims the other side. -/
structure Trims (front back : List Char → List Char) (edge : List Char → Option Char) : Prop where
  edge_nil : edge [] = none
  clean : ∀ s, ∀ c ∈ edge (front s), isBlank c = false
  front_nil : ∀ s, front s = [] ↔ allBlank s = true
  back_nil : ∀ s, back s = [] ↔ allBlank s = true
  kept : ∀ s, allBlank s = false → edge (back s) = edge s

theorem trimStart_eq_nil_iff : trimStart s = [] ↔ allBlank s = true := by
  rw [trimStart, List.dropWhile_eq_nil_iff, allBlank, List.all_eq_true]

theorem trimEnd_eq_nil_iff : trimEnd s = [] ↔ allBlank s = true := by
  rw [allBlank, List.all_eq_true]
  exact List.rdropWhile_eq_nil_iff

theorem isBlank_head?_trimStart {c : Char} (h : c ∈ (trimStart s).head?) : isBlank c = false := by
  have hnot := List.head?_dropWhile_not isBlank s
  rw [trimStart] at h
  rw [h] at hnot
  simpa using hnot

theorem getLast?_trimEnd (s : List Char) : (trimEnd s).getLast? = (trimStart s.reverse).head? :=
  List.getLast?_reverse

theorem trims_start : Trims trimStart trimEnd List.head? where
  edge_nil := rfl
  clean _ _ hc := isBlank_head?_trimStart hc
  front_nil _ := trimStart_eq_nil_iff
  back_nil _ := trimEnd_eq_nil_iff
  kept s hs := by
    obtain ⟨t, ht⟩ : trimEnd s <+: s := List.rdropWhile_prefix isBlank s
    have hne : trimEnd s ≠ [] := mt trimEnd_eq_nil_iff.mp (ne_true_of_eq_false hs)
    conv => rhs; rw [← ht]
    rw [List.head?_append_of_ne_nil _ hne]

theorem trims_end : Trims trimEnd trimStart List.getLast? where
  edge_nil := rfl
  clean s _ hc := isBlank_head?_trimStart (getLast?_trimEnd s ▸ hc)
  front_nil _ := trimEnd_eq_nil_iff
  back_nil _ := trimStart_eq_nil_iff
  kept s hs := by
    obtain ⟨t, ht⟩ : trimStart s <:+ s := List.dropWhile_suffix isBlank
    have hne : trimStart s ≠ [] := mt trimStart_eq_nil_iff.mp (ne_true_of_eq_false hs)
    conv => rhs; rw [← ht]
    rw [List.getLast?_append_of_ne_nil _ hne]

theorem toList_onChars (f : List Char → List Char) (s : String) :
    (onChars f s).toList = f s.toList :=
  String.toList_ofList

theorem Trims.clean_back {front back : List Char → List Char} {edge : List Char → Option Char}
    (h : Trims front back edge) (s : List Char) :
    ∀ c ∈ edge (back (front s)), isBlank c = false := by
  cases hb : allBlank (front s) with
  | true =>
    rw [(h.back_nil _).mpr hb, h.edge_nil]
    intro c hc
    cases hc
  | false =>
    rw [h.kept _ hb]
    exact h.clean s

end Text

namespace Node

def text? : Node → Option String
  | raw text _ => some text
  | _ => none

def onText (f : List Char → List Char) : Node → Node
  | raw text o => raw (onChars f text) o
  | n => n

/-- The node is no text with white space at the edge. -/
def Trimmed (edge : List Char → Option Char) (n : Node) : Prop :=
  ∀ text ∈ n.text?, ∀ c ∈ edge text.toList, isBlank c = false

theorem trimmed_onText {edge : List Char → Option Char} {f : List Char → List Char}
    (h : ∀ s, ∀ c ∈ edge (f s), isBlank c = false) (n : Node) : (n.onText f).Trimmed edge := by
  cases n with
  | raw text o =>
    rintro _ ⟨⟩
    rw [onChars, String.toList_ofList]
    exact h text.toList
  | _ => rintro _ ⟨⟩

theorem not_trimmed_iff {edge : List Char → Option Char} {n : Node} : ¬ n.Trimmed edge ↔
    ∃ text o, n = raw text o ∧ ∃ c ∈ edge text.toList, isBlank c = true := by
  cases n with
  | raw text o => simp [Trimmed, text?]
  | _ => simp [Trimmed, text?]

theorem onText_eq_raw {f : List Char → List Char} {n : Node} {text : String} {o : Origin} :
    n.onText f = raw text o ↔ ∃ own, n = raw own o ∧ onChars f own = text := by
  cases n with
  | raw own o' => simp [onText, and_comm]
  | _ => simp [onText]

theorem onText_onText (f g : List Char → List Char) (n : Node) :
    (n.onText f).onText g = n.onText (g ∘ f) := by
  cases n with
  | raw text o => simp [onText, onChars]
  | _ => rfl

end Node

namespace Pass

open Node

theorem trimFirst_cons (n : Node) (nodes : List Node) :
    trimFirst (n :: nodes) = n.onText trimStart :: nodes := by
  cases n <;> rfl

theorem trimLast_concat (nodes : List Node) (n : Node) :
    trimLast (nodes ++ [n]) = nodes ++ [n.onText trimEnd] := by
  induction nodes with
  | nil => cases n <;> rfl
  | cons m nodes ih =>
    rw [List.cons_append, trimLast, ih, List.cons_append]
    intro text o _ hnil
    simp at hnil

/-- Blank text stands at the edge, and behind it, other empty text apart, text with white space on
that side. If no node is left behind that one, it is not blank itself. -/
inductive Frayed (edge : List Char → Option Char) : List Node → Prop
  | intro {blank text : String} {o o' : Origin} {between rest : List Node}
      (gone : allBlank blank.toList = true) (empty : ∀ n ∈ between, isEmptyText n = true)
      (ragged : ∃ c ∈ edge text.toList, isBlank c = true)
      (stays : rest = [] → allBlank text.toList = false) :
      Frayed edge (.raw blank o :: (between ++ .raw text o' :: rest))

theorem Frayed.two_le_length {edge : List Char → Option Char} {nodes : List Node}
    (h : Frayed edge nodes) : 2 ≤ nodes.length := by
  cases h
  simp only [List.length_cons, List.length_append]
  omega

theorem isEmptyText_onText_iff {f : List Char → List Char} {n : Node} :
    isEmptyText (n.onText f) = true ↔ ∃ text o, n = raw text o ∧ f text.toList = [] := by
  cases n with
  | raw text o => simp [isEmptyText, onText, onChars]
  | _ => simp [isEmptyText, onText]

theorem head?_filter_eq_some_iff {nodes : List Node} {n : Node} :
    (nodes.filter (!isEmptyText ·)).head? = some n ↔ isEmptyText n = false ∧
      ∃ between rest, nodes = between ++ n :: rest ∧ ∀ m ∈ between, isEmptyText m = true := by
  rw [List.head?_filter, List.find?_eq_some_iff_append]
  simp

section Edge

variable {front back : List Char → List Char} {edge : List Char → Option Char} {n l : Node}
  {mid : List Node}

theorem frayed_of_not_trimmed (h : Trims front back edge) {m : Node}
    (hm : m ∈ ((n.onText front :: (mid ++ [l.onText back])).filter (!isEmptyText ·)).head?)
    (hnot : ¬ m.Trimmed edge) : Frayed edge (n :: (mid ++ [l])) := by
  obtain ⟨hne, between, rest, heq, hempty⟩ := head?_filter_eq_some_iff.mp hm
  obtain ⟨text, o, rfl, hragged⟩ := not_trimmed_iff.mp hnot
  cases between with
  | nil =>
    obtain ⟨hfirst, -⟩ := List.cons.inj heq
    exact absurd (hfirst ▸ trimmed_onText h.clean n) hnot
  | cons b between =>
    obtain ⟨rfl, hmid⟩ := List.cons.inj heq
    obtain ⟨hfirst, hbetween⟩ := List.forall_mem_cons.mp hempty
    obtain ⟨blank, o', rfl, hblank⟩ := isEmptyText_onText_iff.mp hfirst
    have hgone := (h.front_nil _).mp hblank
    rcases List.eq_nil_or_concat' rest with rfl | ⟨rest, last, rfl⟩
    · -- the text is that of the last node, which has been trimmed on its other side
      obtain ⟨rfl, hlast⟩ := List.append_inj' hmid rfl
      obtain ⟨own, rfl, rfl⟩ := onText_eq_raw.mp (List.cons.inj hlast).1
      have hown : allBlank own.toList = false := eq_false_of_ne_true fun hb =>
        ne_true_of_eq_false hne (isEmptyText_onText_iff.mpr ⟨own, o, rfl, (h.back_nil _).mpr hb⟩)
      rw [toList_onChars, h.kept _ hown] at hragged
      exact .intro hgone hbetween hragged fun _ => hown
    · rw [List.append_eq, ← List.cons_append, ← List.append_assoc] at hmid
      obtain ⟨rfl, -⟩ := List.append_inj' hmid rfl
      rw [List.append_assoc, List.cons_append]
      exact .intro hgone hbetween hragged fun hnil => absurd hnil (by simp)

theorem exists_not_trimmed (h : Trims front back edge) (hfrayed : Frayed edge (n :: (mid ++ [l]))) :
    ∃ m ∈ ((n.onText front :: (mid ++ [l.onText back])).filter (!isEmptyText ·)).head?,
      ¬ m.Trimmed edge := by
  generalize hnodes : n :: (mid ++ [l]) = nodes at hfrayed
  obtain @⟨blank, text, o, o', between, rest, gone, empty, ragged, stays⟩ := hfrayed
  obtain ⟨rfl, hmid⟩ := List.cons.inj hnodes
  have hempty : ∀ m ∈ (raw blank o).onText front :: between, isEmptyText m = true :=
    List.forall_mem_cons.mpr
      ⟨isEmptyText_onText_iff.mpr ⟨blank, o, rfl, (h.front_nil _).mpr gone⟩, empty⟩
  rcases List.eq_nil_or_concat' rest with rfl | ⟨rest, last, rfl⟩
  · obtain ⟨rfl, hlast⟩ := List.append_inj' hmid rfl
    obtain ⟨rfl, -⟩ := List.cons.inj hlast
    refine ⟨(raw text o').onText back, head?_filter_eq_some_iff.mpr ⟨?_, _, [], rfl, hempty⟩, ?_⟩
    · refine eq_false_of_ne_true fun he => ?_
      obtain ⟨_, _, heq, hnil⟩ := isEmptyText_onText_iff.mp he
      cases heq
      exact ne_true_of_eq_false (stays rfl) ((h.back_nil _).mp hnil)
    · refine not_trimmed_iff.mpr ⟨_, o', rfl, ?_⟩
      rw [toList_onChars, h.kept _ (stays rfl)]
      exact ragged
  · rw [← List.cons_append, ← List.append_assoc] at hmid
    obtain ⟨rfl, hlast⟩ := List.append_inj' hmid rfl
    obtain ⟨rfl, -⟩ := List.cons.inj hlast
    refine ⟨raw text o', head?_filter_eq_some_iff.mpr ⟨?_, _, rest ++ [l.onText back], ?_, hempty⟩,
      not_trimmed_iff.mpr ⟨text, o', rfl, ragged⟩⟩
    · refine eq_false_of_ne_true fun he => ?_
      obtain ⟨c, hc, -⟩ := ragged
      rw [String.isEmpty_iff.mp he, String.toList_empty, h.edge_nil] at hc
      cases hc
    · simp

theorem trimmed_iff (h : Trims front back edge) (n : Node) (mid : List Node) (l : Node) :
    (∀ m ∈ ((n.onText front :: (mid ++ [l.onText back])).filter (!isEmptyText ·)).head?,
      m.Trimmed edge) ↔ ¬ Frayed edge (n :: (mid ++ [l])) := by
  constructor
  · intro htrimmed hfrayed
    obtain ⟨m, hm, hnot⟩ := exists_not_trimmed h hfrayed
    exact hnot (htrimmed m hm)
  · intro hfrayed m hm
    by_contra hnot
    exact hfrayed (frayed_of_not_trimmed h hm hnot)

theorem trimmed_singleton_iff {f : List Char → List Char}
    (h : ∀ s, ∀ c ∈ edge (f s), isBlank c = false) (n : Node) :
    (∀ m ∈ ([n.onText f].filter (!isEmptyText ·)).head?, m.Trimmed edge) ↔ ¬ Frayed edge [n] := by
  refine ⟨fun _ hfrayed => absurd hfrayed.two_le_length (by simp), fun _ m hm => ?_⟩
  have hmem := List.mem_of_mem_filter (List.mem_of_head? hm)
  rw [List.mem_singleton.mp hmem]
  exact trimmed_onText h n

end Edge

theorem trimEdges_singleton (n : Node) :
    trimEdges [n] = [n.onText (trimEnd ∘ trimStart)].filter (!isEmptyText ·) := by
  rw [trimEdges, trimFirst_cons, ← onText_onText]
  exact congrArg _ (trimLast_concat [] _)

theorem trimEdges_cons_append (n : Node) (mid : List Node) (l : Node) :
    trimEdges (n :: (mid ++ [l])) =
      (n.onText trimStart :: (mid ++ [l.onText trimEnd])).filter (!isEmptyText ·) := by
  rw [trimEdges, trimFirst_cons, ← List.cons_append, trimLast_concat]
  rfl

theorem trimmed_head_iff (nodes : List Node) :
    (∀ n ∈ (trimEdges nodes).head?, n.Trimmed List.head?) ↔ ¬ Frayed List.head? nodes := by
  induction nodes using List.bidirectionalRec with
  | nil => exact ⟨fun _ h => absurd h.two_le_length (by simp), fun _ _ hn => nomatch hn⟩
  | singleton n =>
    rw [trimEdges_singleton]
    exact trimmed_singleton_iff trims_start.clean_back n
  | cons_append n mid l =>
    rw [trimEdges_cons_append]
    exact trimmed_iff trims_start n mid l

theorem trimmed_getLast_iff (nodes : List Node) :
    (∀ n ∈ (trimEdges nodes).getLast?, n.Trimmed List.getLast?) ↔
      ¬ Frayed List.getLast? nodes.reverse := by
  rw [← List.head?_reverse]
  induction nodes using List.bidirectionalRec with
  | nil => exact ⟨fun _ h => absurd h.two_le_length (by simp), fun _ _ hn => nomatch hn⟩
  | singleton n =>
    rw [trimEdges_singleton, ← List.filter_reverse]
    exact trimmed_singleton_iff (fun s => trims_end.clean (trimStart s)) n
  | cons_append n mid l =>
    have hreverse (a b : Node) : (a :: (mid ++ [b])).reverse = b :: (mid.reverse ++ [a]) := by simp
    rw [trimEdges_cons_append, ← List.filter_reverse, hreverse, hreverse]
    exact trimmed_iff trims_end l mid.reverse n

/-- What stands on a page before its edges are trimmed: the nodes that its children come to, with
the stacks filled. -/
def assembled (d : Directives) (preserve : List Scope → Bool) (children : List Node) (o : Origin) :
    Except Failure (List Node) :=
  (Node.settleAll d preserve [.template o.path] children).map
    (Node.fillStacksAll (contributions d preserve ((Node.template children o).placed [])))

theorem exists_assembled {d : Directives} {preserve : List Scope → Bool} {r : Resolver}
    {children : List Node} {o : Origin} {page : Node} {s s' : Session}
    (h : (Builder.run (finalize d preserve) r (.template children o)).run s = (.ok page, s')) :
    ∃ nodes, assembled d preserve children o = .ok nodes ∧
      page = .template (trimEdges nodes) o := by
  rw [run_finalize] at h
  rw [assembled]
  cases hnodes : Node.settleAll d preserve [.template o.path] children with
  | error failure =>
    rw [hnodes] at h
    cases h
  | ok nodes =>
    rw [hnodes] at h
    cases h
    exact ⟨_, rfl, rfl⟩

end Pass

namespace Builder

variable {b : Builder} {context : Context} {path : String} {r : Resolver} {s s' : Session}

theorem run_eq_template {passes : List Pass} {children : List Node} {o : Origin} {n : Node}
    (h : (run passes r (.template children o)).run s = (.ok n, s')) :
    ∃ children' o', n = .template children' o' := by
  rw [run] at h
  split at h
  · cases h
    exact ⟨children, o, rfl⟩
  · obtain ⟨notes, h⟩ := run'_eq_ok h
    rw [Walk.root, StateT.run_bind] at h
    obtain ⟨⟨nodes, notes'⟩, t, -, h⟩ := run_bind_eq_ok.mp h
    dsimp only at h
    split at h
    · cases h
      exact ⟨_, _, rfl⟩
    · cases h
      exact ⟨_, _, rfl⟩

theorem parse_eq_template {view : View} {n : Node}
    (h : (b.parse context r view).run s = (.ok n, s')) :
    ∃ children o, n = .template children o := by
  obtain ⟨text, t, -, h⟩ := run_bind_eq_ok.mp h
  split at h
  · cases h
  · next root hroot =>
    obtain ⟨prepared, t', hprepare, htransform⟩ := run_bind_eq_ok.mp h
    obtain ⟨-, nodes, -, -, rfl⟩ := Node.exists_of_parse hroot
    obtain ⟨children, o, rfl⟩ := run_eq_template hprepare
    exact run_eq_template htransform

theorem load_eq_template {reference : Option Origin} {n : Node}
    (h : (b.load context path reference).run s = (.ok n, s')) :
    ∃ children o, n = .template children o := by
  obtain ⟨view, budget, hl, hc, hbudget⟩ := loadAt_run_eq_ok h
  rw [load, hbudget, loadAt_run context budget reference hl hc] at h
  exact parse_eq_template h

/-- No text at the root of a page is empty. The page starts with white space exactly if, before its
edges were trimmed, it started with blank text in front of text that starts with white space; and it
ends with white space exactly if it ended with blank text behind text that does. -/
theorem build_trims_edges (limit : Nat) (directives : Directives) (preserve : List Scope → Bool)
    (strict : Bool) (l : Loader) (context : Context) (path : String) (page : Page)
    (h : ((nesting limit directives preserve strict l).build context path).1 = .ok page) :
    (∀ text o, .raw text o ∈ page.root.children → text ≠ "") ∧
    ∃ children o s nodes,
      ((nesting limit directives preserve strict l).load context path none).run {} =
        (.ok (.template children o), s) ∧
      Pass.assembled directives preserve children o = .ok nodes ∧
      ((∀ n ∈ page.root.children.head?, n.Trimmed List.head?) ↔ ¬ Pass.Frayed List.head? nodes) ∧
      ((∀ n ∈ page.root.children.getLast?, n.Trimmed List.getLast?) ↔
        ¬ Pass.Frayed List.getLast? nodes.reverse) := by
  obtain ⟨root, s, hload, hfinalize⟩ := run_bind_eq_ok.mp
    (Prod.ext h rfl : (buildM _ context path).run {} = (.ok page, _))
  obtain ⟨children, o, rfl⟩ := load_eq_template hload
  obtain ⟨root', t, hrun, hpage⟩ := run_bind_eq_ok.mp hfinalize
  cases hpage
  obtain ⟨nodes, hnodes, rfl⟩ := Pass.exists_assembled hrun
  refine ⟨fun text o' hmem htext => ?_, children, o, s, nodes, hload, hnodes,
    Pass.trimmed_head_iff nodes, Pass.trimmed_getLast_iff nodes⟩
  have hempty := List.of_mem_filter hmem
  rw [htext] at hempty
  cases hempty

/-- A comment between white space, in front of text and behind it. -/
def noted : Templates :=
  [("default:page", " \x7b\x7b-- c --\x7d\x7d x"), ("default:end", " x \x7b\x7b-- c --\x7d\x7d ")]

set_option maxRecDepth 100000 in
theorem build_trims_edges_noted : ∃ page children o s nodes,
    ((default noted.loader).build .empty "end").1 = .ok page ∧
      ((default noted.loader).load .empty "end" none).run {} = (.ok (.template children o), s) ∧
      Pass.assembled .builtin (Pass.preserveIn defaultPreserveTags) children o = .ok nodes ∧
      ¬ Pass.Frayed List.head? nodes ∧ Pass.Frayed List.getLast? nodes.reverse := by
  have htexts : ((default noted.loader).build .empty "end").1.toOption.map (fun page =>
      page.root.children.map Node.text?) = some [some "x "] := by decide +kernel
  obtain ⟨page, hpage, htexts⟩ := Option.map_eq_some_iff.mp htexts
  have hpage := eq_ok_of_toOption hpage
  obtain ⟨n, hchildren, htext⟩ := List.map_eq_singleton_iff.mp htexts
  obtain ⟨-, children, o, s, nodes, hload, hnodes, hhead, hlast⟩ :=
    build_trims_edges defaultMaxDepth .builtin (Pass.preserveIn defaultPreserveTags) false
      noted.loader .empty "end" page hpage
  rw [hchildren] at hhead hlast
  refine ⟨page, children, o, s, nodes, hpage, hload, hnodes, hhead.mp ?_,
    not_not.mp (mt hlast.mpr fun h => ?_)⟩
  · rintro _ ⟨⟩ text hn c hc
    cases htext.symm.trans hn
    cases hc
    rfl
  · have hspace : isBlank ' ' = false := h n rfl "x " htext ' ' rfl
    cases hspace

set_option maxRecDepth 100000 in
/-- Of white space on both sides of a comment, only the outer part is trimmed. -/
theorem comment_guards_space : ∃ page n, ((default noted.loader).build .empty "page").1 = .ok page ∧
    n ∈ page.root.children.head? ∧ n.text? = some " x" ∧ ¬ n.Trimmed List.head? := by
  have hedge : ((default noted.loader).build .empty "page").1.toOption.bind (fun page =>
      page.root.children.head?.bind Node.text?) = some " x" := by decide +kernel
  obtain ⟨page, hpage, hedge⟩ := Option.bind_eq_some_iff.mp hedge
  obtain ⟨n, hn, htext⟩ := Option.bind_eq_some_iff.mp hedge
  refine ⟨page, n, eq_ok_of_toOption hpage, hn, htext, fun htrimmed => ?_⟩
  have hspace : isBlank ' ' = false := htrimmed " x" htext ' ' rfl
  cases hspace

end Builder

end Lamina
