import Lamina.Json.Printer
import Lamina.Json.Reader
import Lamina.Proofs.Text

/-! The tokens of printed JSON: strings, numbers and words are read as what was printed, whatever
follows them. -/

namespace Lamina.Json

theorem joinUnits_inr {n : Nat} (h : n < 0xD800) (units : List (Char ⊕ Nat)) :
    joinUnits (.inr n :: units) = (joinUnits units).map (Char.ofNat n :: ·) := by
  have hhigh : ¬ 0xD800 ≤ n := by omega
  have hlow : ¬ 0xDC00 ≤ n := by omega
  rcases units with _ | ⟨_ | low, rest⟩ <;> simp [joinUnits, hhigh, hlow]

theorem hexValue?_hexDigit {n : Nat} (h : n < 16) : hexValue? (hexDigit n) = some n := by
  have hall : ∀ n < 16, hexValue? (hexDigit n) = some n := by decide
  exact hall n h

theorem escapeChar_cases (c : Char) :
    (∃ e, escapeChar c = ['\\', e] ∧ e ≠ 'u' ∧ escape? e = some c) ∨
      escapeChar c =
        ['\\', 'u', '0', '0', hexDigit (c.toNat / 16), hexDigit (c.toNat % 16)] ∧
        c.toNat < 0x20 ∨
      escapeChar c = [c] ∧ c ≠ '"' ∧ c ≠ '\\' ∧ ¬ c.toNat < 0x20 := by
  unfold escapeChar
  split
  · next hc => exact .inl ⟨'"', rfl, by decide, by rw [hc]; rfl⟩
  · next hquote =>
    split
    · next hc => exact .inl ⟨'\\', rfl, by decide, by rw [hc]; rfl⟩
    · next hslash =>
      split
      · next hc => exact .inl ⟨'n', rfl, by decide, by rw [hc]; rfl⟩
      split
      · next hc => exact .inl ⟨'r', rfl, by decide, by rw [hc]; rfl⟩
      split
      · next hc => exact .inl ⟨'t', rfl, by decide, by rw [hc]; rfl⟩
      split
      · next hc => exact .inl ⟨'b', rfl, by decide, by rw [hc]; rfl⟩
      split
      · next hc => exact .inl ⟨'f', rfl, by decide, by rw [hc]; rfl⟩
      split
      · next hlow => exact .inr (.inl ⟨rfl, hlow⟩)
      · next hhigh => exact .inr (.inr ⟨rfl, hquote, hslash, hhigh⟩)

theorem literal_escapeChar (c : Char) {s rest : List Char} {units : List (Char ⊕ Nat)}
    {text : List Char} (h : literal s = some (units, rest)) (ht : joinUnits units = some text) :
    ∃ units', literal (escapeChar c ++ s) = some (units', rest) ∧
      joinUnits units' = some (c :: text) := by
  rcases escapeChar_cases c with ⟨e, hc, hu, he⟩ | ⟨hc, hlow⟩ | ⟨hc, hquote, hslash, hhigh⟩
  · refine ⟨.inl c :: units, ?_, by simp [joinUnits, ht]⟩
    simp [hc, literal, hu, he, h]
  · have hhigh := hexValue?_hexDigit (n := c.toNat / 16) (by omega)
    have hrest := hexValue?_hexDigit (n := c.toNat % 16) (by omega)
    have hzero : hexValue? '0' = some 0 := by decide
    have hunit : c.toNat / 16 * 16 + c.toNat % 16 = c.toNat := by omega
    refine ⟨.inr c.toNat :: units, ?_, ?_⟩
    · simp [hc, literal, hex4?, hhigh, hrest, hzero, h, hunit]
    · rw [joinUnits_inr (by omega), ht, Char.ofNat_toNat]
      rfl
  · refine ⟨.inl c :: units, ?_, by simp [joinUnits, ht]⟩
    rw [hc, List.singleton_append, literal.eq_def]
    split <;> simp_all

theorem literal_quote (text rest : List Char) :
    ∃ units, literal (text.flatMap escapeChar ++ '"' :: rest) = some (units, rest) ∧
      joinUnits units = some text := by
  induction text with
  | nil => exact ⟨[], by simp [literal], rfl⟩
  | cons c text ih =>
    obtain ⟨units, hl, hj⟩ := ih
    rw [List.flatMap_cons, List.append_assoc]
    exact literal_escapeChar c hl hj

theorem lexemes_mark {c : Char} (h : isMark c = true) (s : List Char) :
    lexemes (c :: s) = (lexemes s).map (.mark c :: ·) := by
  have hspace : isSpace c = false := by
    simp only [isMark, Bool.or_eq_true, beq_iff_eq] at h
    rcases h with ((((rfl | rfl) | rfl) | rfl) | rfl) | rfl <;> decide
  rw [lexemes, hspace, h]
  rfl

/-- The literal that a string is printed as; it has no escapes if nothing in it needs one. -/
def printed (s : String) : Literal :=
  ⟨some s, (s.toList ++ ['"']).isPrefixOf (s.toList.flatMap escapeChar ++ ['"'])⟩

theorem length_le_flatMap_escapeChar (text : List Char) :
    text.length ≤ (text.flatMap escapeChar).length := by
  induction text with
  | nil => simp
  | cons c text ih =>
    have hpos : 0 < (escapeChar c).length := by
      rcases escapeChar_cases c with ⟨e, hc, -⟩ | ⟨hc, -⟩ | ⟨hc, -⟩ <;> simp [hc]
    rw [List.flatMap_cons, List.length_append, List.length_cons]
    omega

theorem written_eq_printed {s : String} {units : List (Char ⊕ Nat)}
    (h : joinUnits units = some s.toList) (rest : List Char) :
    written (s.toList.flatMap escapeChar ++ '"' :: rest) units = printed s := by
  have hlength := length_le_flatMap_escapeChar s.toList
  have hbody : s.toList.flatMap escapeChar ++ '"' :: rest =
      s.toList.flatMap escapeChar ++ ['"'] ++ rest := by simp
  -- the literal in question is no longer than what was printed, so what follows is out of reach
  have hplain : (s.toList ++ ['"']).isPrefixOf
      (s.toList.flatMap escapeChar ++ ['"'] ++ rest) = (printed s).plain := by
    rw [Bool.eq_iff_iff]
    simp only [printed, List.isPrefixOf_iff_prefix]
    refine ⟨fun hp => ?_, fun hp => hp.trans (List.prefix_append _ _)⟩
    refine List.prefix_of_prefix_length_le hp (List.prefix_append _ _) ?_
    simpa using hlength
  rw [hbody, written, h]
  simp only [String.ofList_toList, hplain]
  rfl

theorem lexemes_quote (s : String) (rest : List Char) :
    lexemes ((quote s).toList ++ rest) =
      (lexemes rest).map (.value (.text (printed s)) :: ·) := by
  obtain ⟨units, hl, hj⟩ := literal_quote s.toList rest
  have hwritten := written_eq_printed hj rest
  have hquote : (quote s).toList ++ rest =
      '"' :: (s.toList.flatMap escapeChar ++ '"' :: rest) := by
    simp [quote]
  have hspace : isSpace '"' = false := by decide
  have hmark : isMark '"' = false := by decide
  rw [hquote, lexemes]
  simp only [hspace, hmark, Bool.false_eq_true, if_false, if_true]
  split
  · next hnone => exact absurd (hl.symm.trans hnone) (Option.some_ne_none _)
  · next units' rest' hsome =>
    obtain ⟨rfl, rfl⟩ : units = units' ∧ rest = rest' := by simpa using hl.symm.trans hsome
    rw [hwritten]

def Stops (rest : List Char) : Prop := ∀ c ∈ rest.head?, isPlain c = false

theorem stops_cons {c : Char} (h : isPlain c = false) (rest : List Char) : Stops (c :: rest) := by
  simpa [Stops] using h

theorem isPlain_spec {c : Char} (h : isPlain c = true) :
    isSpace c = false ∧ isMark c = false ∧ c ≠ '"' := by
  refine ⟨?_, ?_, ?_⟩
  · rw [Bool.eq_false_iff]
    intro hs
    simp only [isSpace, Bool.or_eq_true, beq_iff_eq] at hs
    rcases hs with ((rfl | rfl) | rfl) | rfl <;> exact absurd h (by decide)
  · rw [Bool.eq_false_iff]
    intro hm
    simp only [isMark, Bool.or_eq_true, beq_iff_eq] at hm
    rcases hm with ((((rfl | rfl) | rfl) | rfl) | rfl) | rfl <;> exact absurd h (by decide)
  · rintro rfl
    exact absurd h (by decide)

theorem lexemes_plain (c : Char) (plain : List Char) {rest : List Char}
    (hp : ∀ x ∈ c :: plain, isPlain x = true) (hrest : Stops rest) {value : Option Json}
    (hv : (if c.isAlpha then (word? (c :: plain)).map some else number? (c :: plain)) = some value) :
    lexemes (c :: plain ++ rest) = (lexemes rest).map (.value (.leaf value) :: ·) := by
  obtain ⟨hc, hplain⟩ := List.forall_mem_cons.mp hp
  obtain ⟨hspace, hmark, hquote⟩ := isPlain_spec hc
  have htake : (plain ++ rest).takeWhile isPlain = plain := by
    rw [List.takeWhile_append_of_pos hplain]
    cases rest with
    | nil => simp
    | cons x rest => simp [hrest x rfl]
  have hdrop : (plain ++ rest).dropWhile isPlain = rest := by
    rw [List.dropWhile_append_of_pos hplain]
    cases rest with
    | nil => rfl
    | cons x rest => simp [hrest x rfl]
  rw [List.cons_append, lexemes]
  simp only [hspace, hmark, hquote, hc, htake, hdrop, hv, Bool.false_eq_true, if_false, if_true]

theorem significand_spec (sofar : Nat) (s : List Char) :
    (Nat.ofDigitChars 10 s sofar < UInt64.size →
      significand sofar s = (Nat.ofDigitChars 10 s sofar, [])) ∧
      ((significand sofar s).2 = [] → (significand sofar s).1 = Nat.ofDigitChars 10 s sofar) := by
  induction s generalizing sofar with
  | nil => exact ⟨fun _ => rfl, fun _ => rfl⟩
  | cons c s ih =>
    have hcons : Nat.ofDigitChars 10 (c :: s) sofar =
        Nat.ofDigitChars 10 s (sofar * 10 + digit c) := by
      rw [Nat.ofDigitChars_cons, Nat.mul_comm]
      rfl
    have hle : sofar * 10 + digit c ≤ Nat.ofDigitChars 10 s (sofar * 10 + digit c) := by
      rw [Nat.ofDigitChars_eq_ofDigitChars_zero]
      exact Nat.le_add_right_of_le (Nat.le_mul_of_pos_left _ (Nat.pow_pos (by decide)))
    rw [hcons, significand]
    split
    · exact ih _
    · exact ⟨fun hsmall => by omega, nofun⟩

theorem eq_zero_of_head?_toDigits {n : Nat} (h : (Nat.toDigits 10 n).head? = some '0') : n = 0 := by
  induction n using Nat.strongRecOn with
  | ind n ih =>
    by_cases hn : n < 10
    · rw [Nat.toDigits_of_lt_base hn] at h
      have hall : ∀ n < 10, [n.digitChar].head? = some '0' → n = 0 := by decide
      exact hall n hn h
    · rw [Nat.toDigits_of_base_le (by decide) (by omega),
        List.head?_append_of_ne_nil _ Nat.toDigits_ne_nil] at h
      have := ih (n / 10) (by omega) h
      omega

theorem number?_toDigits (n : Nat) :
    ∃ value, number? (Nat.toDigits 10 n) = some value ∧
      (n < UInt64.size → value = some (.int n)) ∧ ∀ m, value = some (.int m) → m = n := by
  have hdigit : ∀ c ∈ Nat.toDigits 10 n, c.isDigit = true :=
    fun c hc => Nat.isDigit_of_mem_toDigits (by decide) (by decide) hc
  have hvalue : Nat.ofDigitChars 10 (Nat.toDigits 10 n) 0 = n :=
    Nat.ofDigitChars_toDigits (by decide) (by decide)
  have hzero : ¬ ((Nat.toDigits 10 n).length > 1 ∧ (Nat.toDigits 10 n).head? = some '0') := by
    rintro ⟨hlength, hhead⟩
    rw [eq_zero_of_head?_toDigits hhead] at hlength
    exact absurd hlength (by decide)
  obtain ⟨hsmall, hwhole⟩ := significand_spec 0 (Nat.toDigits 10 n)
  rw [hvalue] at hsmall hwhole
  have htake : (Nat.toDigits 10 n).takeWhile Char.isDigit = Nat.toDigits 10 n := by
    simpa using @List.takeWhile_append_of_pos _ _ _ [] hdigit
  have hdrop : (Nat.toDigits 10 n).dropWhile Char.isDigit = [] := by
    simpa using @List.dropWhile_append_of_pos _ _ _ [] hdigit
  have hmagnitude : magnitude? (Nat.toDigits 10 n) =
      some (if (significand 0 (Nat.toDigits 10 n)).2.isEmpty
        then .inl (significand 0 (Nat.toDigits 10 n)).1
        else .inr (scaledFloat (significand 0 (Nat.toDigits 10 n)).1
          (significand 0 (Nat.toDigits 10 n)).2.length)) := by
    simp only [magnitude?, htake, hdrop]
    rw [if_neg]
    simpa [Nat.toDigits_ne_nil] using hzero
  have hnumber {out : Nat ⊕ Option Float} (h : magnitude? (Nat.toDigits 10 n) = some out) :
      number? (Nat.toDigits 10 n) =
        some (out.elim (fun n => some (.int n)) fun x => x.map .float) := by
    rw [number?.eq_def]
    split
    · next heq => exact absurd (hdigit '-' (heq ▸ List.mem_cons_self)) (by decide)
    · rw [h]
      cases out <;> rfl
  rw [hnumber hmagnitude]
  split
  · next hempty =>
    have hn := hwhole (List.isEmpty_iff.mp hempty)
    rw [hn]
    refine ⟨_, rfl, fun _ => rfl, fun m hm => ?_⟩
    cases hm
    rfl
  · next hbig =>
    refine ⟨_, rfl, fun h => absurd ?_ hbig, fun m hm => ?_⟩
    · rw [hsmall h]
      rfl
    · obtain ⟨x, -, hx⟩ := Option.map_eq_some_iff.mp hm
      cases hx

end Lamina.Json
