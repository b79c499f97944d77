import Lamina.SourceMap
import Mathlib.Data.List.Forall2

/-! Mentions of chunk lines in messages. A message is cut at the leftmost mentions of a chunk that
do not overlap. The first of them that leads to a template is the one that is located, and those
that do are the ones that are put into template terms. -/

namespace Lamina.SourceMap

open Lamina.Text

theorem mention?_eq_none_iff {chunk s : List Char} :
    mention? chunk s = none ↔ ∀ digits rest, ¬ Mentions chunk s digits rest := by
  simp only [Option.eq_none_iff_forall_ne_some, Prod.forall, ne_eq, mention?_eq_some_iff]

/-- The pieces of a message that is cut at the leftmost mentions that do not overlap: a mention is
taken where it starts, and a character by itself where none does. -/
inductive Leftmost (chunk : List Char) : List Char → List Piece → Prop
  | nil : Leftmost chunk [] []
  | char {c : Char} {s : List Char} {ps : List Piece}
      (none : ∀ digits rest, ¬ Mentions chunk (c :: s) digits rest) (more : Leftmost chunk s ps) :
      Leftmost chunk (c :: s) (.char c :: ps)
  | mention {s digits rest : List Char} {ps : List Piece} (starts : Mentions chunk s digits rest)
      (more : Leftmost chunk rest ps) : Leftmost chunk s (.mention digits :: ps)

theorem pieces_of_mention {chunk s digits rest : List Char} (h : Mentions chunk s digits rest) :
    pieces chunk s = .mention digits :: pieces chunk rest := by
  cases s with
  | nil => simp [Mentions] at h
  | cons c s =>
    rw [pieces]
    split
    · next d r hd =>
      rw [mention?_eq_some_iff.mpr h] at hd
      cases hd
      rfl
    · next hnone => exact absurd h (mention?_eq_none_iff.mp hnone digits rest)

theorem leftmost_iff {chunk s : List Char} {ps : List Piece} :
    Leftmost chunk s ps ↔ ps = pieces chunk s := by
  constructor
  · intro h
    induction h with
    | nil => rw [pieces]
    | @char c s ps none _ ih =>
      rw [pieces]
      split
      · next d r hd => exact absurd (mention?_eq_some_iff.mp hd) (none d r)
      · rw [ih]
    | mention starts _ ih => rw [pieces_of_mention starts, ih]
  · rintro rfl
    fun_induction pieces chunk s with
    | case1 => exact .nil
    | case2 c rest digits after h _ ih => exact .mention (mention?_eq_some_iff.mp h) ih
    | case3 c rest h ih => exact .char (mention?_eq_none_iff.mp h) ih

/-- The mention with these digits leads to a template: their number fits 64 bits, and the line of
that number or a line above it has an origin. Only ASCII digits write a number. -/
def Resolves (m : SourceMap) (digits : List Char) (line : Nat) (o : Origin) : Prop :=
  decimal? digits = some line ∧ line < UInt64.size ∧ m.find? line = some o

theorem resolve?_eq_some_iff {m : SourceMap} {digits : List Char} {line : Nat} {o : Origin} :
    m.resolve? digits = some (line, o) ↔ m.Resolves digits line o := by
  simp only [resolve?, lineOf?, Option.bind_eq_bind, Option.bind_eq_some_iff,
    Option.filter_eq_some_iff, decide_eq_true_eq, Option.pure_def, Option.some.injEq,
    Prod.mk.injEq, Resolves]
  constructor
  · rintro ⟨_, ⟨hdecimal, hsize⟩, _, hfind, rfl, rfl⟩
    exact ⟨hdecimal, hsize, hfind⟩
  · rintro ⟨hdecimal, hsize, hfind⟩
    exact ⟨line, ⟨hdecimal, hsize⟩, o, hfind, rfl, rfl⟩

theorem resolve?_eq_none_iff {m : SourceMap} {digits : List Char} :
    m.resolve? digits = none ↔ ∀ line o, ¬ m.Resolves digits line o := by
  simp only [Option.eq_none_iff_forall_ne_some, Prod.forall, ne_eq, resolve?_eq_some_iff]

/-- What a piece of a message is in template terms. -/
inductive Translates (m : SourceMap) (chunk : List Char) : Piece → List Char → Prop
  | char (c : Char) : Translates m chunk (.char c) [c]
  | found {digits : List Char} {line : Nat} {o : Origin} (resolves : m.Resolves digits line o) :
      Translates m chunk (.mention digits) s!"{o.path}:{o.line}:".toList
  | other {digits : List Char} (none : ∀ line o, ¬ m.Resolves digits line o) :
      Translates m chunk (.mention digits) (chunk ++ ':' :: digits ++ [':'])

theorem exists_translates (m : SourceMap) (message chunk : String) :
    ∃ texts, List.Forall₂ (m.Translates chunk.toList) (pieces chunk.toList message.toList) texts ∧
      (m.translate message chunk).toList = texts.flatten := by
  rw [translate, String.toList_ofList, List.flatMap_def]
  refine ⟨_, List.forall₂_map_right_iff.mpr (List.forall₂_same.mpr fun piece _ => ?_), rfl⟩
  cases piece with
  | char c => exact .char c
  | mention digits =>
    dsimp only
    split
    · next hsome => exact .found (resolve?_eq_some_iff.mp hsome)
    · next hnone => exact .other (resolve?_eq_none_iff.mp hnone)

theorem locate?_eq_some_iff {m : SourceMap} {message chunk : String} {line : Nat} :
    m.locate? message chunk = some line ↔ ∃ first digits last o,
      pieces chunk.toList message.toList = first ++ .mention digits :: last ∧
        m.Resolves digits line o ∧ ∀ d, .mention d ∈ first → ∀ k o, ¬ m.Resolves d k o := by
  rw [locate?, List.findSome?_eq_some_iff]
  constructor
  · rintro ⟨first, piece, last, hps, hpiece, hfirst⟩
    cases piece with
    | char => cases hpiece
    | mention digits =>
      obtain ⟨⟨_, o⟩, ho, rfl⟩ := Option.map_eq_some_iff.mp hpiece
      refine ⟨first, digits, last, o, hps, resolve?_eq_some_iff.mp ho, fun d hd => ?_⟩
      exact resolve?_eq_none_iff.mp (Option.map_eq_none_iff.mp (hfirst _ hd))
  · rintro ⟨first, digits, last, o, hps, ho, hfirst⟩
    have hline := congrArg (Option.map Prod.fst) (resolve?_eq_some_iff.mpr ho)
    refine ⟨first, .mention digits, last, hps, hline, fun piece hm => ?_⟩
    cases piece with
    | char => rfl
    | mention d => exact Option.map_eq_none_iff.mpr (resolve?_eq_none_iff.mpr (hfirst d hm))

theorem Leftmost.flatten_eq {m : SourceMap} {chunk s : List Char} {ps : List Piece}
    {texts : List (List Char)} (h : Leftmost chunk s ps)
    (ht : List.Forall₂ (m.Translates chunk) ps texts)
    (hnone : ∀ d, .mention d ∈ ps → ∀ line o, ¬ m.Resolves d line o) : texts.flatten = s := by
  induction h generalizing texts with
  | nil =>
    cases ht
    rfl
  | char _ _ ih =>
    obtain _ | ⟨htext, hmore⟩ := ht
    cases htext
    rw [List.flatten_cons, ih hmore fun d hd => hnone d (.tail _ hd)]
    rfl
  | mention starts _ ih =>
    obtain _ | ⟨htext, hmore⟩ := ht
    cases htext with
    | found resolves => exact absurd resolves (hnone _ (.head _) _ _)
    | other =>
      rw [List.flatten_cons, ih hmore fun d hd => hnone d (.tail _ hd), starts.1]
      simp

/-- Locating and translating agree. A message has one cut at the leftmost mentions of the chunk that
do not overlap. The line located is that of the first mention that leads to a template, if one does;
in template terms exactly the mentions that do are replaced, by the file and the line they lead to,
and the message stays as it is if none does. -/
theorem translate_replaces_what_locate_finds (m : SourceMap) (message chunk : String) :
    ∃ ps, (∀ qs, Leftmost chunk.toList message.toList qs ↔ qs = ps) ∧
      (∀ line, m.locate? message chunk = some line ↔ ∃ first digits last o,
        ps = first ++ .mention digits :: last ∧ m.Resolves digits line o ∧
          ∀ d, .mention d ∈ first → ∀ k o, ¬ m.Resolves d k o) ∧
      (∃ texts, List.Forall₂ (m.Translates chunk.toList) ps texts ∧
        (m.translate message chunk).toList = texts.flatten) ∧
      (m.locate? message chunk = none → m.translate message chunk = message) := by
  obtain ⟨texts, htexts, htranslate⟩ := exists_translates m message chunk
  refine ⟨_, fun _ => leftmost_iff, fun _ => locate?_eq_some_iff, ⟨texts, htexts, htranslate⟩, ?_⟩
  intro hlocate
  rw [locate?, List.findSome?_eq_none_iff] at hlocate
  have hnone (d : List Char) (hd : .mention d ∈ pieces chunk.toList message.toList) :=
    resolve?_eq_none_iff.mp (Option.map_eq_none_iff.mp (hlocate (.mention d) hd))
  rw [(leftmost_iff.mpr rfl).flatten_eq htexts hnone] at htranslate
  exact String.toList_inj.mp htranslate

end Lamina.SourceMap
