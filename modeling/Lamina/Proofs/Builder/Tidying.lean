import Lamina.Proofs.Builder.Edges
import Lamina.Proofs.Walk.Returns
import Mathlib.Data.List.Chain

/-! What tidying does to a tree. It goes through the tree like a map that rewrites text and nothing
else, and what becomes of a text depends on the scopes around it only: either it stays, or every run
of line breaks in it becomes one line feed. The edges of the page are trimmed on top of that. -/

namespace Lamina

open Lamina.Text

namespace Text

variable {s t : List Char}

/-- `t` is `s` with one line feed in the place of each maximal run of line breaks. -/
inductive Collapsed : List Char → List Char → Prop
  | plain {s : List Char} (free : ∀ c ∈ s, isBreak c = false) : Collapsed s s
  | run {before run after after' : List Char} (free : ∀ c ∈ before, isBreak c = false)
      (some : run ≠ []) (breaks : ∀ c ∈ run, isBreak c = true)
      (maximal : ∀ c ∈ after.head?, isBreak c = false) (rest : Collapsed after after') :
      Collapsed (before ++ run ++ after) (before ++ '\n' :: after')

theorem collapseBreaks_append_of_free (h : ∀ c ∈ s, isBreak c = false) :
    collapseBreaks (s ++ t) = s ++ collapseBreaks t := by
  induction s with
  | nil => rfl
  | cons c s ih =>
    rw [List.forall_mem_cons] at h
    have hs : collapseBreaksFrom false (s ++ t) = s ++ collapseBreaks t := ih h.2
    rw [List.cons_append, collapseBreaks, collapseBreaksFrom, h.1, hs]
    rfl

theorem collapseBreaksFrom_append_of_breaks (h : ∀ c ∈ s, isBreak c = true) :
    collapseBreaksFrom true (s ++ t) = collapseBreaksFrom true t := by
  induction s with
  | nil => rfl
  | cons c s ih =>
    rw [List.forall_mem_cons] at h
    rw [List.cons_append, collapseBreaksFrom, if_pos h.1, if_pos rfl, ih h.2]

theorem collapseBreaks_append_of_breaks (hne : s ≠ []) (h : ∀ c ∈ s, isBreak c = true)
    (ht : ∀ c ∈ t.head?, isBreak c = false) :
    collapseBreaks (s ++ t) = '\n' :: collapseBreaks t := by
  have hrest : collapseBreaksFrom true t = collapseBreaks t := by
    cases t with
    | nil => rfl
    | cons c t =>
      have hc : isBreak c = false := ht c rfl
      simp [collapseBreaks, collapseBreaksFrom, hc]
  cases s with
  | nil => exact absurd rfl hne
  | cons c s =>
    rw [List.forall_mem_cons] at h
    rw [List.cons_append, collapseBreaks, collapseBreaksFrom, if_pos h.1,
      collapseBreaksFrom_append_of_breaks h.2, hrest]
    rfl

theorem exists_span (p : Char → Bool) (s : List Char) : ∃ before after, s = before ++ after ∧
    (∀ c ∈ before, p c = true) ∧ ∀ c ∈ after.head?, p c = false := by
  induction s with
  | nil => exact ⟨[], [], rfl, List.forall_mem_nil _, fun c hc => by cases hc⟩
  | cons c s ih =>
    cases hc : p c with
    | true =>
      obtain ⟨before, after, rfl, hbefore, hafter⟩ := ih
      exact ⟨c :: before, after, rfl, List.forall_mem_cons.mpr ⟨hc, hbefore⟩, hafter⟩
    | false =>
      refine ⟨[], c :: s, rfl, List.forall_mem_nil _, fun d hd => ?_⟩
      cases hd
      exact hc

theorem collapsed_collapseBreaks (s : List Char) : Collapsed s (collapseBreaks s) := by
  induction hlen : s.length using Nat.strongRecOn generalizing s with
  | ind len ih =>
    obtain ⟨before, rest, rfl, hbefore, hrest⟩ := exists_span (!isBreak ·) s
    simp only [Bool.not_eq_true', Bool.not_eq_false'] at hbefore hrest
    obtain ⟨run, after, rfl, hrun, hafter⟩ := exists_span isBreak rest
    rw [collapseBreaks_append_of_free hbefore]
    cases run with
    | nil =>
      -- what starts with a break is empty, since it does not start with one
      cases after with
      | nil =>
        simpa [collapseBreaks, collapseBreaksFrom] using Collapsed.plain hbefore
      | cons c after => exact absurd (hrest c rfl) (by simp [hafter c rfl])
    | cons c run =>
      rw [collapseBreaks_append_of_breaks (List.cons_ne_nil c run) hrun hafter, ← List.append_assoc]
      have hshorter : after.length < len := by
        simp only [← hlen, List.length_append, List.length_cons]
        omega
      exact .run hbefore (List.cons_ne_nil c run) hrun hafter (ih after.length hshorter after rfl)

theorem Collapsed.no_return (h : Collapsed s t) : '\r' ∉ t := by
  have hfree {l : List Char} (hl : ∀ c ∈ l, isBreak c = false) : '\r' ∉ l := fun hr =>
    absurd (hl _ hr) (by decide)
  induction h with
  | plain free => exact hfree free
  | run free _ _ _ _ ih =>
    rw [List.mem_append, List.mem_cons]
    rintro (h | h | h)
    · exact hfree free h
    · exact absurd h (by decide)
    · exact ih h

theorem Collapsed.head_free (h : Collapsed s t) (hs : ∀ c ∈ s.head?, isBreak c = false) :
    ∀ c ∈ t.head?, isBreak c = false := by
  cases h with
  | plain free => exact hs
  | @run before run after after' free some breaks maximal rest =>
    cases before with
    | nil =>
      cases run with
      | nil => exact absurd rfl some
      | cons c run => exact absurd (hs c rfl) (by simp [breaks c (.head _)])
    | cons c before => exact hs

theorem Collapsed.breaks_apart (h : Collapsed s t) :
    t.IsChain fun a b => isBreak a = false ∨ isBreak b = false := by
  have hplain {l rest : List Char} (hl : ∀ c ∈ l, isBreak c = false)
      (hrest : rest.IsChain fun a b => isBreak a = false ∨ isBreak b = false) :
      (l ++ rest).IsChain fun a b => isBreak a = false ∨ isBreak b = false := by
    induction l with
    | nil => exact hrest
    | cons c l ih =>
      rw [List.forall_mem_cons] at hl
      exact (ih hl.2).cons fun _ _ => .inl hl.1
  induction h with
  | plain free => simpa using hplain free .nil
  | run free _ _ maximal rest ih =>
    exact hplain free (ih.cons fun c hc => .inr (rest.head_free maximal c hc))

theorem Collapsed.no_two_feeds (h : Collapsed s t) : ¬ ['\n', '\n'] <:+: t := by
  rintro ⟨before, after, rfl⟩
  have hchain := h.breaks_apart
  rw [List.append_assoc, List.cons_append, List.cons_append, List.isChain_append_cons_cons] at hchain
  exact absurd hchain.2.1 (by decide)

end Text

namespace Node

variable (f : List Scope → String → String)

mutual

/-- The tree with every text in it put through `f`, with the scopes around the text. -/
def mapText (scopes : List Scope) : Node → Node
  | raw text o => raw (f scopes text) o
  | template children o => template (mapTextAll (scopes ++ [.template o.path]) children) o
  | tag name attrs children closing o =>
    tag name (mapTextAttrs (scopes ++ [.tag name]) attrs)
      (mapTextAll (scopes ++ [.tag name]) children) closing o
  | block name children o => block name (mapTextAll (scopes ++ [.block name]) children) o
  | stack name children o => stack name (mapTextAll (scopes ++ [.stack name]) children) o
  | push name prepend children o =>
    push name prepend (mapTextAll (scopes ++ [.push name]) children) o
  | fragment path attrs children o =>
    fragment path (mapTextAttrs (scopes ++ [.fragment path]) attrs)
      (mapTextAll (scopes ++ [.fragment path]) children) o
  | directive name values body o => directive name values body o
  | echo expr escape o => echo expr escape o
  | host code o => host code o

def mapTextAll (scopes : List Scope) : List Node → List Node
  | [] => []
  | node :: rest => mapText scopes node :: mapTextAll scopes rest

def mapTextAttrs (scopes : List Scope) : List (Attr Node) → List (Attr Node)
  | [] => []
  | attr :: rest => mapTextAttr scopes attr :: mapTextAttrs scopes rest

def mapTextAttr (scopes : List Scope) : Attr Node → Attr Node
  | ⟨name, value, o⟩ => ⟨name, mapTextValue (scopes ++ [.attr name]) value, o⟩

def mapTextValue (scopes : List Scope) : AttrValue Node → AttrValue Node
  | .bare => .bare
  | .unquoted text => .unquoted text
  | .quoted quote nodes => .quoted quote (mapTextAll scopes nodes)
  | .dynamic nodes => .dynamic (mapTextAll scopes nodes)

end

theorem mapTextAll_eq (scopes : List Scope) (nodes : List Node) :
    mapTextAll f scopes nodes = nodes.map (mapText f scopes) := by
  induction nodes with
  | nil => rfl
  | cons n nodes ih => rw [mapTextAll, ih, List.map_cons]

theorem mapTextAttrs_eq (scopes : List Scope) (attrs : List (Attr Node)) :
    mapTextAttrs f scopes attrs = attrs.map fun a =>
      { a with value :=
          a.value.withInner (a.value.inner.map (mapText f (scopes ++ [.attr a.name]))) } := by
  induction attrs with
  | nil => rfl
  | cons a attrs ih =>
    obtain ⟨name, value, o⟩ := a
    cases value <;>
      simp [mapTextAttrs, mapTextAttr, mapTextValue, AttrValue.withInner, AttrValue.inner,
        mapTextAll_eq, ih]

theorem mapText_eq_onParts {n : Node} (h : n.text? = none) (scopes : List Scope) :
    n.mapText f scopes = n.onParts (mapText f) scopes := by
  cases n with
  | raw => cases h
  | directive | echo | host => rfl
  | _ => simp [mapText, onParts, withParts, Placed.inside, Scope.of?, attrs, children, children?,
      mapTextAll_eq, mapTextAttrs_eq]

theorem parts_mapText (n : Node) (scopes : List Scope) :
    (n.mapText f scopes).attrs = mapTextAttrs f (Placed.mk scopes n).inside n.attrs ∧
      (n.mapText f scopes).children = mapTextAll f (Placed.mk scopes n).inside n.children ∧
      Scope.of? (n.mapText f scopes) = Scope.of? n := by
  cases n <;> exact ⟨rfl, rfl, rfl⟩

theorem placed_mapText (n : Node) (scopes : List Scope) :
    (n.mapText f scopes).placed scopes =
      (n.placed scopes).map fun p => ⟨p.scopes, p.node.mapText f p.scopes⟩ := by
  induction n using byParts generalizing scopes with
  | parts n iha ihc =>
    obtain ⟨hattrs, hchildren, hscope⟩ := parts_mapText f n scopes
    have hinside : (Placed.mk scopes (n.mapText f scopes)).inside = (Placed.mk scopes n).inside := by
      rw [Placed.inside, hscope]
      rfl
    have hvalue (value : AttrValue Node) (g : Node → Node) :
        (value.withInner (value.inner.map g)).inner = value.inner.map g := by
      cases value <;> rfl
    rw [placed_eq, placed_eq scopes n, hinside, hattrs, hchildren, mapTextAttrs_eq, mapTextAll_eq]
    simp only [placedAttrs_eq, placedAll_eq, List.map_append, List.map_flatMap, List.flatMap_map,
      hvalue, List.map_cons, List.map_nil]
    rw [List.flatMap_congr fun c hc => ihc c hc _]
    rw [List.flatMap_congr fun a ha => List.flatMap_congr fun c hc => iha a ha c hc _]

end Node

namespace Pass

open Node

variable {preserve : List Scope → Bool} {r : Resolver}

theorem node_tidy (n : Node) {scopes : List Scope} (hs : scopes ≠ []) :
    Walk.node [tidy preserve r] scopes n = pure [n.mapText (tidied preserve) scopes] := by
  induction n using byParts generalizing scopes with
  | parts n iha ihc =>
    have hbelow : Walk.below [tidy preserve r] scopes n =
        pure (n.onParts (mapText (tidied preserve)) scopes) :=
      Walk.below_of_pure (fun a ha c hc _ hs => iha a ha c hc hs) (fun c hc _ hs => ihc c hc hs)
    have henter : Walk.enterAll scopes n [tidy preserve r] = pure (.go n) := rfl
    rw [Walk.node, henter, pure_bind]
    dsimp only [Entered.go]
    rw [hbelow, pure_bind]
    cases n with
    | raw => rfl
    | template children o =>
      -- the edges are trimmed at the root only
      have hroot : scopes.isEmpty = false := by simpa using hs
      rw [mapText_eq_onParts _ rfl]
      simp only [Walk.leaveAll, tidy, Visitor.onLeave, onParts, withParts, hroot]
      rfl
    | _ =>
      rw [mapText_eq_onParts _ rfl]
      rfl

theorem run_tidy (children : List Node) (o : Origin) (s : Session) :
    (Builder.run [tidy preserve] r (.template children o)).run s =
      (.ok (.template (trimEdges (mapTextAll (tidied preserve) [.template o.path] children)) o),
        s) := by
  have hbelow : Walk.below [tidy preserve r] [] (.template children o) =
      pure ((Node.template children o).onParts (mapText (tidied preserve)) []) :=
    Walk.below_of_pure (fun _ _ c _ _ hs => node_tidy c hs) fun c _ _ hs => node_tidy c hs
  have henter : Walk.enterAll [] (.template children o) [tidy preserve r] =
      pure (.go (.template children o)) := rfl
  have hroot : Walk.root [tidy preserve r] (.template children o) =
      pure (.template (trimEdges (mapTextAll (tidied preserve) [.template o.path] children)) o) := by
    rw [Walk.root, Walk.node, henter, pure_bind]
    dsimp only [Entered.go]
    rw [hbelow, pure_bind, mapTextAll_eq]
    rfl
  show ((Walk.root [tidy preserve r] (.template children o)).run' {}).run s = _
  rw [hroot]
  rfl

theorem filter_trimEdges (nodes : List Node) :
    (trimEdges nodes).filter (·.text? = none) = nodes.filter (·.text? = none) := by
  have honText (f : List Char → List Char) (n : Node) :
      [n.onText f].filter (·.text? = none) = [n].filter (·.text? = none) := by
    cases n <;> rfl
  have hfirst : (trimFirst nodes).filter (·.text? = none) = nodes.filter (·.text? = none) := by
    cases nodes with
    | nil => rfl
    | cons n nodes =>
      rw [trimFirst_cons, ← List.singleton_append, List.filter_append, honText, ← List.filter_append]
      rfl
  have hlast (l : List Node) :
      (trimLast l).filter (·.text? = none) = l.filter (·.text? = none) := by
    rcases List.eq_nil_or_concat' l with rfl | ⟨l, n, rfl⟩
    · rfl
    · rw [trimLast_concat, List.filter_append, honText, ← List.filter_append]
  have hempty : ∀ n ∈ trimLast (trimFirst nodes),
      (decide (n.text? = none) && !isEmptyText n) = decide (n.text? = none) := by
    intro n _
    cases n <;> simp [text?, isEmptyText]
  rw [trimEdges, List.filter_filter, List.filter_congr hempty, hlast, hfirst]

/-- A scope whose text is kept: an attribute value, or an element with one of the names, letters being
compared without regard to case. -/
def KeepsText (names : List String) (scope : Scope) : Prop :=
  (∃ attr, scope = .attr attr) ∨ ∃ tag name, scope = .tag tag ∧ name ∈ names ∧
    name.toList.map Char.toLower = tag.toList.map Char.toLower

theorem preserveIn_iff {names : List String} {scopes : List Scope} :
    preserveIn names scopes = true ↔ ∃ scope ∈ scopes, KeepsText names scope := by
  rw [preserveIn, List.any_eq_true]
  refine exists_congr fun scope => and_congr_right fun _ => ?_
  cases scope with
  | attr name => simp [Scope.isAttr, KeepsText]
  | tag name => simp [Scope.isAttr, Scope.isTagOf, KeepsText, sameName]
  | _ => simp [Scope.isAttr, Scope.isTagOf, KeepsText]

/-- Tidying a page changes text only. Every text that is not at the root stays where it is; it stays as
it is if `preserve` holds of the scopes around it, and otherwise each run of line breaks in it becomes
one line feed. Where `preserve` looks for attribute values and certain elements, the text in these is
never changed. -/
theorem tidy_changes_text_only (preserve : List Scope → Bool) (r : Resolver) (children : List Node)
    (o : Origin) (s : Session) :
    ∃ nodes : List Node,
      (Builder.run [tidy preserve] r (.template children o)).run s =
        (.ok (.template (trimEdges nodes) o), s) ∧
      nodes = mapTextAll (tidied preserve) [.template o.path] children ∧
      (Node.template nodes o).placed [] =
        ((Node.template children o).placed []).map (fun p =>
          ⟨p.scopes, p.node.mapText (tidied preserve) p.scopes⟩) ∧
      (trimEdges nodes).filter (·.text? = none) = nodes.filter (·.text? = none) ∧
      (∀ scopes text, preserve scopes = true → tidied preserve scopes text = text) ∧
      (∀ scopes text, preserve scopes = false →
        Collapsed text.toList (tidied preserve scopes text).toList ∧
          '\r' ∉ (tidied preserve scopes text).toList ∧
          ¬ ['\n', '\n'] <:+: (tidied preserve scopes text).toList) ∧
      ∀ names, preserve = preserveIn names → ∀ scopes text,
        (∃ scope ∈ scopes, KeepsText names scope) → tidied preserve scopes text = text := by
  have hkept : ∀ scopes text, preserve scopes = true → tidied preserve scopes text = text :=
    fun scopes text h => if_pos h
  refine ⟨_, run_tidy children o s, rfl, placed_mapText _ (.template children o) [],
    filter_trimEdges _, hkept, fun scopes text h => ?_, ?_⟩
  · have hcollapsed : Collapsed text.toList (tidied preserve scopes text).toList := by
      rw [tidied, if_neg (by simp [h]), toList_onChars]
      exact collapsed_collapseBreaks text.toList
    exact ⟨hcollapsed, hcollapsed.no_return, hcollapsed.no_two_feeds⟩
  · rintro names rfl scopes text hscope
    exact hkept scopes text (preserveIn_iff.mpr hscope)

end Pass

end Lamina
