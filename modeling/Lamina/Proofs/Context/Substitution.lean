import Lamina.Context.Substitution
import Lamina.Proofs.Except
import Lamina.Proofs.Snippet
import Lamina.Proofs.Text

/-! Values in place of placeholders. A source falls into placeholders, the leftmost first, and the
characters between them. Each placeholder gives way to its value or to its fallback, once and for all,
and the first one that has neither is reported on its line. -/

namespace Lamina

open Lamina.Text

namespace Placeholder

/-- A name of a value: a letter or an underscore, and then also digits, dots and dashes. -/
def IsName (s : List Char) : Prop :=
  ∃ c rest, s = c :: rest ∧ isStart c = true ∧ ∀ d ∈ rest, isInner d = true

/-- A placeholder ends at the first closing brace. -/
def Piece.IsPlaceholder : Piece → Prop
  | char _ => False
  | value name fallback => IsName name ∧ ∀ text ∈ fallback, '}' ∉ text

/-- The placeholders in a source and the characters outside of them, from the left: a character is
passed only where no placeholder starts. -/
inductive Scanned : List Char → List Piece → Prop
  | done : Scanned [] []
  | found {p : Piece} {rest : List Char} {list : List Piece} (placeholder : p.IsPlaceholder)
      (more : Scanned rest list) : Scanned (p.lexeme ++ rest) (p :: list)
  | passed {c : Char} {rest : List Char} {list : List Piece}
      (none : ∀ p : Piece, p.IsPlaceholder → ¬ p.lexeme <+: c :: rest)
      (more : Scanned rest list) : Scanned (c :: rest) (.char c :: list)

/-- What comes in place of a piece, if anything does: the value, or else the fallback. -/
def Piece.filling? (context : Context) : Piece → Option (List Char)
  | char c => some [c]
  | value name fallback =>
    match context.get? (String.ofList name) with
    | some text => some text.toList
    | none => fallback

/-- What comes in place of a piece, and nothing where there is nothing to come. -/
def Piece.filling (context : Context) (p : Piece) : List Char := (p.filling? context).getD []

variable {context : Context} {p : Piece} {list : List Piece} {s rest : List Char}

theorem not_isInner_bar : isInner '|' = false := by decide

theorem not_isInner_brace : isInner '}' = false := by decide

theorem read?_eq_some_iff : read? s = some (p, rest) ↔ p.IsPlaceholder ∧ s = p.lexeme ++ rest := by
  constructor
  · intro h
    refine ⟨?_, read?_eq_some h⟩
    unfold read? at h
    split at h
    · cases h
    · cases h
    · next c inner _ =>
      split at h
      · cases h
      · next hc =>
        have hname : IsName (c :: inner.takeWhile isInner) :=
          ⟨c, _, rfl, by simpa using hc, List.all_eq_true.mp List.all_takeWhile⟩
        dsimp only at h
        split at h
        · cases h
          exact ⟨hname, nofun⟩
        · split at h
          · next text r hcut =>
            cases h
            exact ⟨hname, fun _ ht => Option.some.inj ht ▸ not_mem_of_cut hcut⟩
          · cases h
        · cases h
  · rintro ⟨hp, rfl⟩
    cases p with
    | char c => exact hp.elim
    | value name fallback =>
      obtain ⟨⟨c, inner, rfl, hc, hinner⟩, hfallback⟩ := hp
      have hend {d : Char} {t : List Char} (hd : isInner d = false) :
          (inner ++ d :: t).takeWhile isInner = inner ∧
            (inner ++ d :: t).dropWhile isInner = d :: t := by
        rw [List.takeWhile_append_of_pos hinner, List.dropWhile_append_of_pos hinner]
        simp [hd]
      cases fallback with
      | none =>
        obtain ⟨htake, hdrop⟩ := hend (t := rest) not_isInner_brace
        simp [Piece.lexeme, read?, List.isPrefixOf?, hc, htake, hdrop]
      | some text =>
        obtain ⟨htake, hdrop⟩ := hend (t := text ++ '}' :: rest) not_isInner_bar
        have hcut := cut_append_sep (hfallback text rfl) rest
        simp [Piece.lexeme, read?, List.isPrefixOf?, hc, htake, hdrop, hcut]

theorem read?_eq_none_iff :
    read? s = none ↔ ∀ p : Piece, p.IsPlaceholder → ¬ p.lexeme <+: s := by
  rw [Option.eq_none_iff_forall_ne_some]
  constructor
  · rintro h p hp ⟨rest, hrest⟩
    exact h (p, rest) (read?_eq_some_iff.mpr ⟨hp, hrest.symm⟩)
  · rintro h ⟨p, rest⟩ hread
    obtain ⟨hp, hs⟩ := read?_eq_some_iff.mp hread
    exact h p hp ⟨rest, hs.symm⟩

theorem scanned_pieces (s : List Char) : Scanned s (pieces s) := by
  fun_induction pieces s with
  | case1 => exact .done
  | case2 c rest p after hread _ ih =>
    obtain ⟨hp, hs⟩ := read?_eq_some_iff.mp hread
    exact hs ▸ .found hp ih
  | case3 c rest hread ih => exact .passed (read?_eq_none_iff.mp hread) ih

theorem pieces_of_read? (h : read? s = some (p, rest)) : pieces s = p :: pieces rest := by
  cases s with
  | nil => cases h
  | cons c s =>
    rw [pieces]
    split
    · next p' after hread =>
      obtain ⟨rfl, rfl⟩ := Prod.mk.inj (Option.some.inj (hread.symm.trans h))
      rfl
    · next hnone =>
      rw [h] at hnone
      cases hnone

theorem pieces_of_none {c : Char} (h : read? (c :: s) = none) :
    pieces (c :: s) = .char c :: pieces s := by
  rw [pieces]
  split
  · next hread =>
    rw [h] at hread
    cases hread
  · rfl

theorem Scanned.eq_pieces (h : Scanned s list) : list = pieces s := by
  induction h with
  | done => rw [pieces]
  | found hp _ ih => rw [pieces_of_read? (read?_eq_some_iff.mpr ⟨hp, rfl⟩), ih]
  | passed hnone _ ih => rw [pieces_of_none (read?_eq_none_iff.mpr hnone), ih]

theorem Scanned.flatMap_lexeme (h : Scanned s list) : list.flatMap Piece.lexeme = s := by
  induction h with
  | done => rfl
  | found _ _ ih => rw [List.flatMap_cons, ih]
  | passed _ _ ih =>
    rw [List.flatMap_cons, ih]
    rfl

theorem or_eq_filling? (name : List Char) (fallback : Option (List Char)) :
    ((context.get? (String.ofList name)).map String.toList).or fallback =
      (Piece.value name fallback).filling? context := by
  rw [Piece.filling?]
  cases context.get? (String.ofList name) <;> rfl

theorem fill_cons_of_some {text : List Char} (h : p.filling? context = some text) :
    fill context (p :: list) = ((fill context list).map (text ++ ·)).mapError
      fun fault => (fault.1, feeds p.lexeme + fault.2) := by
  cases p with
  | char c =>
    cases h
    rw [fill]
    cases fill context list <;> rfl
  | value name fallback =>
    rw [← or_eq_filling?] at h
    simp only [fill, h]
    cases fill context list <;> rfl

theorem fill_cons_of_none (h : p.filling? context = none) (list : List Piece) :
    ∃ name fallback, p = .value name fallback ∧
      fill context (p :: list) = .error (String.ofList name, 0) := by
  cases p with
  | char c => cases h
  | value name fallback =>
    refine ⟨name, fallback, rfl, ?_⟩
    rw [← or_eq_filling?] at h
    simp only [fill, h]

theorem fill_eq_ok_iff {text : List Char} : fill context list = .ok text ↔
    (∀ p ∈ list, (p.filling? context).isSome = true) ∧
      text = list.flatMap (Piece.filling context) := by
  induction list generalizing text with
  | nil =>
    refine ⟨?_, ?_⟩
    · rintro ⟨⟩
      exact ⟨List.forall_mem_nil _, rfl⟩
    · rintro ⟨-, rfl⟩
      rfl
  | cons p list ih =>
    rw [List.forall_mem_cons, List.flatMap_cons]
    cases hp : p.filling? context with
    | none =>
      obtain ⟨name, fallback, -, hfill⟩ := fill_cons_of_none hp list
      rw [hfill]
      exact ⟨nofun, fun h => absurd h.1.1 (by decide)⟩
    | some first =>
      have hfirst : p.filling context = first := by rw [Piece.filling, hp, Option.getD_some]
      rw [fill_cons_of_some hp, hfirst]
      constructor
      · intro h
        obtain ⟨more, hmore, rfl⟩ := map_eq_ok.mp (eq_ok_of_mapError h)
        obtain ⟨hall, rfl⟩ := ih.mp hmore
        exact ⟨⟨rfl, hall⟩, rfl⟩
      · rintro ⟨⟨-, hall⟩, rfl⟩
        rw [ih.mpr ⟨hall, rfl⟩]
        rfl

theorem fill_eq_error_iff {fault : String × Nat} : fill context list = .error fault ↔
    ∃ front name fallback back, list = front ++ .value name fallback :: back ∧
      (∀ p ∈ front, (p.filling? context).isSome = true) ∧
      (Piece.value name fallback).filling? context = none ∧
      fault = (String.ofList name, feeds (front.flatMap Piece.lexeme)) := by
  induction list generalizing fault with
  | nil =>
    refine ⟨nofun, ?_⟩
    rintro ⟨front, name, fallback, back, hlist, -⟩
    simp at hlist
  | cons p list ih =>
    cases hp : p.filling? context with
    | none =>
      obtain ⟨name, fallback, rfl, hfill⟩ := fill_cons_of_none hp list
      rw [hfill]
      constructor
      · rintro ⟨⟩
        exact ⟨[], name, fallback, list, rfl, List.forall_mem_nil _, hp, rfl⟩
      · rintro ⟨front, name', fallback', back, hlist, hfront, -, rfl⟩
        cases front with
        | nil =>
          cases hlist
          rfl
        | cons q front =>
          cases hlist
          exact absurd (hfront _ (.head _)) (by rw [hp]; decide)
    | some first =>
      rw [fill_cons_of_some hp, mapError_eq_error]
      constructor
      · rintro ⟨fault', herror, rfl⟩
        obtain ⟨front, name, fallback, back, rfl, hfront, hnone, rfl⟩ :=
          ih.mp (map_eq_error.mp herror)
        refine ⟨p :: front, name, fallback, back, rfl, ?_, hnone, ?_⟩
        · exact List.forall_mem_cons.mpr ⟨by rw [hp]; rfl, hfront⟩
        · rw [List.flatMap_cons, feeds_append]
      · rintro ⟨front, name, fallback, back, hlist, hfront, hnone, rfl⟩
        cases front with
        | nil =>
          cases hlist
          rw [hp] at hnone
          cases hnone
        | cons q front =>
          cases hlist
          have herror := ih.mpr
            ⟨front, name, fallback, back, rfl, (List.forall_mem_cons.mp hfront).2, hnone, rfl⟩
          refine ⟨_, map_eq_error.mpr herror, ?_⟩
          rw [List.flatMap_cons, feeds_append]

end Placeholder

namespace Processor

open Placeholder

variable {view : View} {context : Context} {source : String}

theorem context_eq_ok_iff {text : String} : Processor.context.run view context source = .ok text ↔
    (∀ p ∈ pieces source.toList, (p.filling? context).isSome = true) ∧
      text = String.ofList ((pieces source.toList).flatMap (Piece.filling context)) := by
  constructor
  · intro h
    simp only [Processor.context] at h
    split at h
    · next filled hfill =>
      cases h
      obtain ⟨hall, rfl⟩ := fill_eq_ok_iff.mp hfill
      exact ⟨hall, rfl⟩
    · cases h
  · rintro ⟨hall, rfl⟩
    simp only [Processor.context, fill_eq_ok_iff.mpr ⟨hall, rfl⟩]

theorem context_eq_error_iff {failure : Failure} :
    Processor.context.run view context source = .error failure ↔
      ∃ front name fallback back, pieces source.toList = front ++ .value name fallback :: back ∧
        (∀ p ∈ front, (p.filling? context).isSome = true) ∧
        (Piece.value name fallback).filling? context = none ∧
        failure = .parse (.undefinedValue (String.ofList name)) view.filename
          (1 + feeds (front.flatMap Piece.lexeme))
          (some (.ofSource source (1 + feeds (front.flatMap Piece.lexeme)) 1)) := by
  constructor
  · intro h
    simp only [Processor.context] at h
    split at h
    · cases h
    · next name n hfill =>
      cases h
      obtain ⟨front, key, fallback, back, hlist, hfront, hnone, hfault⟩ :=
        fill_eq_error_iff.mp hfill
      cases hfault
      refine ⟨front, key, fallback, back, hlist, hfront, hnone, ?_⟩
      rw [Nat.add_comm]
  · rintro ⟨front, name, fallback, back, hlist, hfront, hnone, rfl⟩
    have hfill := fill_eq_error_iff.mpr ⟨front, name, fallback, back, hlist, hfront, hnone, rfl⟩
    simp only [Processor.context, hfill, Nat.add_comm]

/-- Substitution is exact and goes over the source once. The placeholders are the leftmost ones that
do not overlap. If each of them has a value or a fallback, the result is the source with these in
their places, and a value as it is, whatever it looks like. If not, the first that has neither is
named, on its line. -/
theorem context_fills_placeholders (view : View) (context : Context) (source : String) :
    ∃ list, Scanned source.toList list ∧ (∀ list', Scanned source.toList list' → list' = list) ∧
      (∀ text, Processor.context.run view context source = .ok text ↔
        (∀ p ∈ list, (p.filling? context).isSome = true) ∧
          text = String.ofList (list.flatMap (Piece.filling context))) ∧
      ∀ failure, Processor.context.run view context source = .error failure ↔
        ∃ front name fallback back, list = front ++ .value name fallback :: back ∧
          (∀ p ∈ front, (p.filling? context).isSome = true) ∧
          (Piece.value name fallback).filling? context = none ∧
          failure = .parse (.undefinedValue (String.ofList name)) view.filename
            (1 + feeds (front.flatMap Piece.lexeme))
            (some (.ofSource source (1 + feeds (front.flatMap Piece.lexeme)) 1)) :=
  ⟨pieces source.toList, scanned_pieces _, fun _ h => h.eq_pieces, fun _ => context_eq_ok_iff,
    fun _ => context_eq_error_iff⟩

end Processor

end Lamina
