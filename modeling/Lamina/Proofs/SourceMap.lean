import Lamina.Chunk.Emit
import Lamina.Proofs.Origin
import Lamina.Proofs.Table

/-! Source maps of chunks. Every line of a chunk is mapped to an origin of the tree it comes from,
up to the line within the construct, and its frames follow the chain of that origin. -/

namespace Lamina

namespace Output

def origin : Output → Origin
  | text _ o | code _ o => o

def Below (P : Origin → Prop) (o : Origin) : Prop := ∃ o' n, P o' ∧ o = o'.down n

variable {P : Origin → Prop}

theorem below_of_mem_flush {pending : Option (String × Origin)}
    (hp : ∀ e ∈ pending, P e.2) : ∀ e ∈ flush pending, Below P e.2 := by
  cases pending with
  | none => exact nofun
  | some first => exact List.forall_mem_singleton.mpr ⟨first.2, 0, hp first rfl, rfl⟩

theorem below_of_mem_codeLines {o : Origin} (ho : P o) (n : Nat) (lines : List String) :
    ∀ e ∈ codeLines o n lines, Below P e.2 := by
  induction lines generalizing n with
  | nil => exact nofun
  | cons line rest ih => exact List.forall_mem_cons.mpr ⟨⟨o, n, ho, rfl⟩, ih (n + 1)⟩

theorem below_of_mem_linesFrom {output : List Output} (ho : ∀ out ∈ output, P out.origin)
    {pending : Option (String × Origin)} (hp : ∀ e ∈ pending, P e.2) :
    ∀ e ∈ linesFrom pending output, Below P e.2 := by
  fun_induction linesFrom pending output with
  | case1 pending => exact below_of_mem_flush hp
  | case2 pending t o rest _ ih => exact ih (List.forall_mem_cons.mp ho).2 hp
  | case3 t o rest _ ih =>
    obtain ⟨hout, hrest⟩ := List.forall_mem_cons.mp ho
    exact ih hrest fun e he => Option.mem_some.mp he ▸ hout
  | case4 t o rest _ sofar first ih =>
    exact ih (List.forall_mem_cons.mp ho).2 fun e he =>
      Option.mem_some.mp he ▸ (hp (sofar, first) rfl : P first)
  | case5 pending c o rest ih =>
    obtain ⟨hout, hrest⟩ := List.forall_mem_cons.mp ho
    refine List.forall_mem_append.mpr ⟨List.forall_mem_append.mpr ⟨?_, ?_⟩, ?_⟩
    · exact below_of_mem_flush hp
    · exact below_of_mem_codeLines hout 0 _
    · exact ih hrest nofun

end Output

namespace Node

variable {P : Origin → Prop} {r : Renderers} {output : List Output}

theorem mem_emitAll {nodes : List Node} (h : emitAll r nodes = .ok output) {out : Output}
    (ho : out ∈ output) : ∃ n ∈ nodes, ∃ part, n.emit r = .ok part ∧ out ∈ part := by
  induction nodes generalizing output with
  | nil =>
    cases h
    cases ho
  | cons n nodes ih =>
    rw [emitAll] at h
    obtain ⟨first, hfirst, h⟩ := bind_eq_ok.mp h
    obtain ⟨rest, hrest, h⟩ := bind_eq_ok.mp h
    cases h
    rcases List.mem_append.mp ho with ho | ho
    · exact ⟨n, .head _, first, hfirst, ho⟩
    · obtain ⟨n', hn', hpart⟩ := ih hrest ho
      exact ⟨n', .tail _ hn', hpart⟩

theorem mem_emitAttr {a : Attr Node} (h : emitAttr r a = .ok output) {out : Output}
    (ho : out ∈ output) : (∃ text, out = .text text a.origin) ∨
      ∃ inner, emitAll r a.value.inner = .ok inner ∧ out ∈ inner := by
  obtain ⟨name, value, o⟩ := a
  cases value with
  | bare | unquoted =>
    rw [emitAttr] at h
    cases h
    exact .inl ⟨_, List.mem_singleton.mp ho⟩
  | quoted quote nodes =>
    rw [emitAttr] at h
    obtain ⟨inner, hinner, h⟩ := bind_eq_ok.mp h
    cases h
    rcases List.mem_append.mp ho with ho | ho
    · rcases List.mem_cons.mp ho with rfl | ho
      · exact .inl ⟨_, rfl⟩
      · exact .inr ⟨inner, hinner, ho⟩
    · exact .inl ⟨_, List.mem_singleton.mp ho⟩
  | dynamic nodes =>
    rw [emitAttr] at h
    obtain ⟨inner, hinner, h⟩ := bind_eq_ok.mp h
    cases h
    rcases List.mem_cons.mp ho with rfl | ho
    · exact .inl ⟨_, rfl⟩
    · exact .inr ⟨inner, hinner, ho⟩

theorem mem_emitAttrs {attrs : List (Attr Node)} (h : emitAttrs r attrs = .ok output)
    {out : Output} (ho : out ∈ output) :
    ∃ a ∈ attrs, ∃ part, emitAttr r a = .ok part ∧ out ∈ part := by
  induction attrs generalizing output with
  | nil =>
    cases h
    cases ho
  | cons a attrs ih =>
    rw [emitAttrs] at h
    obtain ⟨first, hfirst, h⟩ := bind_eq_ok.mp h
    obtain ⟨rest, hrest, h⟩ := bind_eq_ok.mp h
    cases h
    rcases List.mem_append.mp ho with ho | ho
    · exact ⟨a, .head _, first, hfirst, ho⟩
    · obtain ⟨a', ha', hpart⟩ := ih hrest ho
      exact ⟨a', .tail _ ha', hpart⟩

theorem Has.emit {T : Trait} {Q : Output → Prop}
    (hnode : ∀ x text, T.node x → Q (.text text x.origin))
    (hattr : ∀ a text, T.attr a → Q (.text text a.origin))
    (hcode : ∀ code o, T.node (.host code o) → Q (.code code o)) (n : Node) (h : n.Has T)
    (he : n.emit r = .ok output) : ∀ out ∈ output, Q out := by
  induction n using byParts generalizing output with
  | parts n iha ihc =>
    obtain ⟨hn, ha, hc⟩ := has_iff.mp h
    have hall {part} (hpart : emitAll r n.children = .ok part) : ∀ out ∈ part, Q out := by
      intro out hout
      obtain ⟨c, hm, piece, hpiece, hout⟩ := mem_emitAll hpart hout
      exact ihc c hm (hc c hm) hpiece out hout
    have hattrs {part} (hpart : emitAttrs r n.attrs = .ok part) : ∀ out ∈ part, Q out := by
      intro out hout
      obtain ⟨a, hm, piece, hpiece, hout⟩ := mem_emitAttrs hpart hout
      rcases mem_emitAttr hpiece hout with ⟨text, rfl⟩ | ⟨inner, hinner, hout⟩
      · exact hattr a text (ha a hm).1
      · obtain ⟨c, hm', piece', hpiece', hout⟩ := mem_emitAll hinner hout
        exact iha a hm c hm' ((ha a hm).2 c hm') hpiece' out hout
    cases n with
    | template | block | stack =>
      rw [Node.emit] at he
      split at he
      · exact hall he
      · cases he
    | push =>
      rw [Node.emit] at he
      split at he
      · cases he
        exact List.forall_mem_nil _
      · cases he
    | fragment | directive =>
      rw [Node.emit] at he
      split at he <;> cases he
    | echo => cases he
    | raw text o =>
      rw [Node.emit] at he
      split at he
      · cases he
        exact List.forall_mem_singleton.mpr (hnode _ text hn)
      · cases he
    | host code o =>
      rw [Node.emit] at he
      split at he
      · cases he
        exact List.forall_mem_singleton.mpr (hcode code o hn)
      · cases he
    | tag name attrs children closing o =>
      have htext (text : String) : Q (.text text o) := hnode _ text hn
      rw [Node.emit] at he
      split at he
      · obtain ⟨as, has, he⟩ := bind_eq_ok.mp he
        have htag := hattrs has
        cases closing with
        | selfClosing | void =>
          cases he
          refine List.forall_mem_append.mpr ⟨List.forall_mem_cons.mpr ⟨htext _, htag⟩, ?_⟩
          exact List.forall_mem_singleton.mpr (htext _)
        | pair =>
          obtain ⟨inner, hinner, he⟩ := bind_eq_ok.mp he
          cases he
          refine List.forall_mem_append.mpr ⟨List.forall_mem_append.mpr ⟨?_, ?_⟩, ?_⟩
          · exact List.forall_mem_cons.mpr ⟨htext _, htag⟩
          · exact List.forall_mem_cons.mpr ⟨htext _, hall hinner⟩
          · exact List.forall_mem_singleton.mpr (htext _)
      · cases he

theorem emit_sited (n : Node) (h : n.Sited P) (he : n.emit r = .ok output) :
    ∀ out ∈ output, P out.origin :=
  Has.emit (fun _ _ hx => hx) (fun _ _ ha => ha) (fun _ _ hx => hx) n (sited_iff_has.mp h) he

end Node

namespace SourceMap

theorem head?_framesUntil (root : String) (site : Site) (via : List Site) :
    (framesUntil root (site :: via)).head? = some ⟨site.path, site.line, site.label⟩ := by
  rw [framesUntil, List.head?_cons]

theorem getLast?_framesUntil {root : String} {sites : List Site}
    (h : ∃ site ∈ sites, site.path = root) :
    ∃ frame, (framesUntil root sites).getLast? = some frame ∧ frame.file = root := by
  induction sites with
  | nil =>
    obtain ⟨site, hs, -⟩ := h
    cases hs
  | cons site via ih =>
    rw [framesUntil]
    by_cases hp : site.path = root
    · rw [if_pos hp]
      exact ⟨_, rfl, hp⟩
    · rw [if_neg hp]
      obtain ⟨site', hs, hp'⟩ := h
      have hvia : site' ∈ via := by
        rcases List.mem_cons.mp hs with rfl | hs
        · exact absurd hp' hp
        · exact hs
      obtain ⟨frame, hlast, hfile⟩ := ih ⟨site', hvia, hp'⟩
      refine ⟨frame, ?_, hfile⟩
      rw [List.getLast?_cons, hlast]
      rfl

end SourceMap

namespace SourceMap

variable {m : SourceMap} {line : Nat} {o : Origin}

theorem find?_of_mem (h : (line, o) ∈ m.lines) : m.find? line = some o := by
  obtain ⟨before, after, he⟩ := List.append_of_mem h
  have hsorted := m.lines.sorted
  rw [he, List.pairwise_append, List.pairwise_cons] at hsorted
  have hlater : after.reverse.find? (fun e => decide (e.1 ≤ line)) = none := by
    rw [List.find?_eq_none]
    intro e hmem hle
    exact Nat.not_lt.mpr (of_decide_eq_true hle) (hsorted.2.1.1 e (List.mem_reverse.mp hmem))
  rw [find?, he, List.findRev?_eq_find?_reverse, List.reverse_append, List.reverse_cons,
    List.append_assoc, List.find?_append, hlater, Option.none_or, List.singleton_append,
    List.find?_cons_of_pos (by simp)]
  rfl

theorem mem_of_find? (h : m.find? line = some o) : ∃ k, (k, o) ∈ m.lines := by
  obtain ⟨⟨k, o'⟩, hfind, rfl⟩ := Option.map_eq_some_iff.mp h
  rw [List.findRev?_eq_find?_reverse] at hfind
  exact ⟨k, List.mem_reverse.mp (List.mem_of_find?_eq_some hfind)⟩

end SourceMap

namespace Chunk

variable {paths : List String} {output : List Output}

theorem below_of_mem {P : Origin → Prop} (hp : ∀ out ∈ output, P out.origin) {line : Nat}
    {o : Origin} (h : (line, o) ∈ (ofOutput paths output).sourceMap.lines) :
    Output.Below P o := by
  obtain ⟨e, he, rfl⟩ := List.mem_map.mp (Table.mem_of_mem_numbered h)
  exact Output.below_of_mem_linesFrom hp (fun e he => absurd he (Option.not_mem_none e)) e he

end Chunk

end Lamina
