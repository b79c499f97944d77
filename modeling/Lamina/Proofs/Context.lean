import Lamina.Context
import Lamina.Proofs.Text

/-! The identifier of a context tells its pairs. -/

namespace Lamina.Context

theorem encodeChar_cases (c : Char) :
    encodeChar c = ['%', '2', '5'] ∧ c = '%' ∨ encodeChar c = ['%', '2', 'C'] ∧ c = ',' ∨
      encodeChar c = ['%', '3', 'D'] ∧ c = '=' ∨
      encodeChar c = [c] ∧ '%' ≠ c ∧ ',' ≠ c ∧ '=' ≠ c := by
  unfold encodeChar
  split
  · next h => exact .inl ⟨rfl, h⟩
  · next h =>
    split
    · next h => exact .inr (.inl ⟨rfl, h⟩)
    · next h' =>
      split
      · next h => exact .inr (.inr (.inl ⟨rfl, h⟩))
      · next h'' => exact .inr (.inr (.inr ⟨rfl, Ne.symm h, Ne.symm h', Ne.symm h''⟩))

theorem encodeChar_append_inj {c c' : Char} {s s' : List Char}
    (h : encodeChar c ++ s = encodeChar c' ++ s') : c = c' ∧ s = s' := by
  rcases encodeChar_cases c with ⟨hc, rfl⟩ | ⟨hc, rfl⟩ | ⟨hc, rfl⟩ | ⟨hc, hne⟩ <;>
    rcases encodeChar_cases c' with ⟨hc', rfl⟩ | ⟨hc', rfl⟩ | ⟨hc', rfl⟩ | ⟨hc', hne'⟩ <;>
    simp_all

theorem flatMap_encodeChar_inj {s s' : List Char}
    (h : s.flatMap encodeChar = s'.flatMap encodeChar) : s = s' := by
  have hne (c : Char) : encodeChar c ≠ [] := by
    rcases encodeChar_cases c with ⟨hc, -⟩ | ⟨hc, -⟩ | ⟨hc, -⟩ | ⟨hc, -⟩ <;> simp [hc]
  induction s generalizing s' with
  | nil =>
    cases s' with
    | nil => rfl
    | cons c s' => simp [hne] at h
  | cons c s ih =>
    cases s' with
    | nil => simp [hne] at h
    | cons c' s' =>
      rw [List.flatMap_cons, List.flatMap_cons] at h
      obtain ⟨rfl, hs⟩ := encodeChar_append_inj h
      rw [ih hs]

theorem encode_injective {part part' : String} (h : encode part = encode part') : part = part' :=
  String.toList_inj.mp (flatMap_encodeChar_inj (String.ofList_injective h))

theorem not_mem_encode (part : String) : ',' ∉ (encode part).toList ∧ '=' ∉ (encode part).toList := by
  have h (c : Char) : ',' ∉ encodeChar c ∧ '=' ∉ encodeChar c := by
    rcases encodeChar_cases c with ⟨hc, -⟩ | ⟨hc, -⟩ | ⟨hc, -⟩ | ⟨hc, -, hcomma, heq⟩ <;>
      simp_all
  simp only [encode, String.toList_ofList, List.mem_flatMap, not_exists, not_and]
  exact ⟨fun c _ => (h c).1, fun c _ => (h c).2⟩

def pairText (pair : String × String) : List Char :=
  (encode pair.1).toList ++ '=' :: (encode pair.2).toList

theorem pairText_injective {pair pair' : String × String} (h : pairText pair = pairText pair') :
    pair = pair' := by
  obtain ⟨hname, hvalue⟩ :=
    Text.eq_of_append_sep (not_mem_encode pair.1).2 (not_mem_encode pair'.1).2 h
  exact Prod.ext (encode_injective (String.toList_inj.mp hname))
    (encode_injective (String.toList_inj.mp hvalue))

theorem comma_not_mem_pairText (pair : String × String) : ',' ∉ pairText pair := by
  simp [pairText, (not_mem_encode pair.1).1, (not_mem_encode pair.2).1]

theorem toList_id (c : Context) :
    c.id.toList = if c.values.entries = [] then "default".toList
      else [','].intercalate (c.values.map pairText) := by
  rw [id, Table.isEmpty, apply_ite String.toList]
  refine if_congr List.isEmpty_iff rfl ?_
  rw [String.toList_intercalate, Table.map, List.map_map, Table.map]
  refine congrArg _ (List.map_congr_left fun pair _ => ?_)
  simp [pairText]

theorem mem_id {c : Context} (h : c.values.entries ≠ []) : '=' ∈ c.id.toList := by
  rw [toList_id, if_neg h, Table.map]
  cases hv : c.values.entries with
  | nil => exact absurd hv h
  | cons pair rest => cases rest <;> simp [pairText]

theorem id_injective {c c' : Context} (h : c.id = c'.id) : c = c' := by
  have hdefault {c : Context} (h : c.values.entries = []) : '=' ∉ c.id.toList := by
    rw [toList_id, if_pos h]
    decide
  have hpairs {c : Context} (hc : c.values.entries ≠ []) :
      c.id.toList.splitOn ',' = c.values.map pairText := by
    rw [toList_id, if_neg hc]
    refine List.splitOn_intercalate ',' (fun piece hp => ?_) (by simpa [Table.map] using hc)
    obtain ⟨pair, -, rfl⟩ := List.mem_map.mp hp
    exact comma_not_mem_pairText pair
  have hsame : c.values = c'.values := by
    refine Table.ext ?_
    by_cases hc : c.values.entries = [] <;> by_cases hc' : c'.values.entries = []
    · rw [hc, hc']
    · exact absurd (mem_id hc') (h ▸ hdefault hc)
    · exact absurd (mem_id hc) (h ▸ hdefault hc')
    · have hmap := hpairs hc
      rw [h, hpairs hc'] at hmap
      exact ((List.map_inj_right fun _ _ => pairText_injective).mp hmap).symm
  exact congrArg Context.mk hsame

end Lamina.Context
