/-! Finding, cutting and replacing pieces of a text, as functions on its characters. -/

namespace Lamina.Text

theorem isPrefixOf?_eq_some {p s r : List Char} : p.isPrefixOf? s = some r ↔ s = p ++ r := by
  induction p generalizing s with
  | nil => exact Option.some_inj
  | cons a p ih =>
    cases s with
    | nil => exact ⟨fun h => (by cases h), fun h => (by cases h)⟩
    | cons b s =>
      have hcons : (a :: p).isPrefixOf? (b :: s) = if a == b then p.isPrefixOf? s else none := rfl
      rw [hcons, List.cons_append, List.cons_eq_cons]
      by_cases h : a = b
      · rw [if_pos (beq_iff_eq.mpr h), ih]
        exact ⟨fun hs => ⟨h.symm, hs⟩, And.right⟩
      · rw [if_neg (mt beq_iff_eq.mp h)]
        exact ⟨fun hs => (by cases hs), fun hs => absurd hs.1.symm h⟩

def cut (needle : List Char) : List Char → Option (List Char × List Char)
  | [] => (needle.isPrefixOf? []).map ([], ·)
  | c :: s =>
    match needle.isPrefixOf? (c :: s) with
    | some after => some ([], after)
    | none => (cut needle s).map fun (before, after) => (c :: before, after)

theorem cut_eq_some {needle s before after : List Char}
    (h : cut needle s = some (before, after)) : s = before ++ needle ++ after := by
  induction s generalizing before after with
  | nil =>
    obtain ⟨r, hr, he⟩ := Option.map_eq_some_iff.1 h
    cases he
    simpa using isPrefixOf?_eq_some.1 hr
  | cons c s ih =>
    rw [cut] at h
    split at h
    · next r hr =>
      cases h
      simpa using isPrefixOf?_eq_some.1 hr
    · obtain ⟨⟨b, a⟩, hb, he⟩ := Option.map_eq_some_iff.1 h
      cases he
      simp [ih hb]

/-- `s` with the leftmost, non-overlapping occurrences of `needle` replaced; `skip` characters
belong to an occurrence already replaced. An empty needle stands between any two characters. -/
def replaceFrom (needle substitute : List Char) : Nat → List Char → List Char
  | n + 1, _ :: s => replaceFrom needle substitute n s
  | _, [] => if needle.isEmpty then substitute else []
  | 0, c :: s =>
    if needle.isEmpty then substitute ++ c :: replaceFrom needle substitute 0 s
    else if needle.isPrefixOf (c :: s) then
      substitute ++ replaceFrom needle substitute (needle.length - 1) s
    else c :: replaceFrom needle substitute 0 s

def replaceAll (needle substitute s : String) : String :=
  String.ofList (replaceFrom needle.toList substitute.toList 0 s.toList)

/-- The text before and after the first occurrence of the character `sep`. -/
def splitOnce (sep : Char) (s : String) : Option (String × String) :=
  (cut [sep] s.toList).map fun (before, after) => (String.ofList before, String.ofList after)

def startsWith (p s : String) : Bool := p.toList.isPrefixOf s.toList

def dropSuffix? (p s : String) : Option String :=
  (p.toList.isSuffixOf? s.toList).map String.ofList

end Lamina.Text
