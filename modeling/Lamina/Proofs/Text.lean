import Lamina.Text.Search
import Mathlib.Data.List.Basic

/-! Texts cut at a separator: no piece contains it, and joining the pieces again undoes the cut. -/

namespace Lamina.Text

variable {sep : Char}

theorem not_mem_of_cut {s before after : List Char}
    (h : cut [sep] s = some (before, after)) : sep ∉ before := by
  induction s generalizing before after with
  | nil => cases h
  | cons c s ih =>
    rw [cut] at h
    split at h
    · cases h
      exact List.not_mem_nil
    · next hc =>
      obtain ⟨⟨b, a⟩, hb, he⟩ := Option.map_eq_some_iff.mp h
      cases he
      have hne : sep ≠ c := by
        rintro rfl
        simp [List.isPrefixOf?] at hc
      exact List.not_mem_cons_of_ne_of_not_mem hne (ih hb)

theorem cut_append_sep {a : List Char} (ha : sep ∉ a) (b : List Char) :
    cut [sep] (a ++ sep :: b) = some (a, b) := by
  induction a with
  | nil => simp [cut, List.isPrefixOf?]
  | cons c a ih =>
    obtain ⟨hc, ha⟩ := not_or.mp (List.mem_cons.not.mp ha)
    simp [cut, List.isPrefixOf?, hc, ih ha]

theorem eq_of_append_sep {a a' b b' : List Char} (ha : sep ∉ a) (ha' : sep ∉ a')
    (h : a ++ sep :: b = a' ++ sep :: b') : a = a' ∧ b = b' := by
  induction a generalizing a' with
  | nil =>
    cases a' with
    | nil => exact ⟨rfl, (List.cons.inj h).2⟩
    | cons c a' => exact absurd (.head _) ((List.cons.inj h).1 ▸ ha')
  | cons c a ih =>
    cases a' with
    | nil => exact absurd (.head _) ((List.cons.inj h).1 ▸ ha)
    | cons c' a' =>
      obtain ⟨hc, ht⟩ := List.cons.inj h
      have hh := ih (List.not_mem_of_not_mem_cons ha) (List.not_mem_of_not_mem_cons ha') ht
      exact ⟨by rw [hc, hh.1], hh.2⟩

theorem length_le_of_cut {needle s before after a b : List Char}
    (h : cut needle s = some (before, after)) (hs : s = a ++ needle ++ b) :
    before.length ≤ a.length := by
  induction s generalizing before after a with
  | nil =>
    obtain ⟨rest, -, he⟩ := Option.map_eq_some_iff.mp h
    cases he
    exact Nat.zero_le _
  | cons c s ih =>
    rw [cut] at h
    split at h
    · cases h
      exact Nat.zero_le _
    · next hnone =>
      obtain ⟨⟨x, y⟩, hcut, he⟩ := Option.map_eq_some_iff.mp h
      cases he
      cases a with
      | nil =>
        have hsome : needle.isPrefixOf? (c :: s) = some b := isPrefixOf?_eq_some.mpr hs
        rw [hnone] at hsome
        cases hsome
      | cons c' a =>
        have hlen := ih hcut (List.cons.inj hs).2
        simp only [List.length_cons]
        omega

/-- The text ends with `mark`, and no shorter beginning of it does. -/
def EndsAt (mark s : List Char) : Prop := mark <:+ s ∧ ∀ t, t <+: s → mark <:+ t → t = s

theorem endsAt_of_cut {mark s before after : List Char}
    (h : cut mark s = some (before, after)) : EndsAt mark (before ++ mark) := by
  refine ⟨List.suffix_append _ _, ?_⟩
  rintro t ht ⟨a, rfl⟩
  obtain ⟨b, hb⟩ := ht
  have hs : s = a ++ mark ++ (b ++ after) := by
    rw [cut_eq_some h, ← hb, List.append_assoc]
  have hlen := length_le_of_cut h hs
  have hprefix : a ++ mark <+: before ++ mark := ⟨b, hb⟩
  refine hprefix.eq_of_length_le ?_
  simp only [List.length_append]
  omega

theorem isPrefixOf?_eq_none_iff {p s : List Char} : p.isPrefixOf? s = none ↔ ¬ p <+: s := by
  rw [← Option.not_isSome_iff_eq_none, List.isSome_isPrefixOf?_eq_isPrefixOf,
    List.isPrefixOf_iff_prefix]

theorem cut_eq_none_iff {needle s : List Char} : cut needle s = none ↔ ¬ needle <:+: s := by
  induction s with
  | nil =>
    rw [cut, Option.map_eq_none_iff, isPrefixOf?_eq_none_iff, List.prefix_nil, List.infix_nil]
  | cons c s ih =>
    rw [cut, List.infix_cons_iff, not_or, ← isPrefixOf?_eq_none_iff, ← ih]
    split
    · next hsome => simp [hsome]
    · next hnone => simp [hnone]

theorem dropSuffix?_eq_some {p s r : String} : dropSuffix? p s = some r ↔ s = r ++ p := by
  rw [dropSuffix?, Option.map_eq_some_iff]
  constructor
  · rintro ⟨a, ha, rfl⟩
    rw [← String.toList_inj, String.toList_append, String.toList_ofList]
    exact (List.isSuffixOf?_eq_some_iff_append_eq.mp ha).symm
  · rintro rfl
    refine ⟨r.toList, List.isSuffixOf?_eq_some_iff_append_eq.mpr ?_, String.ofList_toList⟩
    rw [String.toList_append]

theorem startsWith_iff {p s : String} : startsWith p s = true ↔ p.toList <+: s.toList :=
  List.isPrefixOf_iff_prefix

theorem not_mem_of_mem_splitOn {s piece : List Char} (h : piece ∈ s.splitOn sep) :
    sep ∉ piece := by
  induction s generalizing piece with
  | nil =>
    rw [List.splitOn_nil, List.mem_singleton] at h
    exact h ▸ List.not_mem_nil
  | cons c s ih =>
    rw [List.splitOn_cons_eq_if_modifyHead] at h
    split at h
    · rcases List.mem_cons.mp h with rfl | h
      · exact List.not_mem_nil
      · exact ih h
    · next hc =>
      obtain ⟨first, rest, hs⟩ := List.exists_cons_of_ne_nil (List.splitOn_ne_nil sep s)
      rw [hs, List.modifyHead_cons] at h
      rw [hs] at ih
      rcases List.mem_cons.mp h with rfl | h
      · exact List.not_mem_cons_of_ne_of_not_mem (fun he => hc (beq_iff_eq.mpr he.symm))
          (ih List.mem_cons_self)
      · exact ih (List.mem_cons_of_mem _ h)

end Lamina.Text
