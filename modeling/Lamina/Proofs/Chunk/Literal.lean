import Lamina.Chunk
import Lamina.Script.Token
import Mathlib.Tactic.SplitIfs

/-! Escaped text is the inside of a string literal: scripts read it back byte for byte, and the
closing quote is the first one that counts. -/

namespace Lamina

namespace Script.Token

theorem toList_loop (b : ByteArray) (i : Nat) (sofar : List UInt8) :
    ByteArray.toList.loop b i sofar = sofar.reverse ++ b.data.toList.drop i := by
  fun_induction ByteArray.toList.loop b i sofar with
  | case1 i sofar h ih =>
    have hi : i < b.data.toList.length := h
    rw [ih, List.drop_eq_getElem_cons hi, List.reverse_cons, List.append_assoc,
      List.singleton_append]
    simp [ByteArray.get!, getElem!_pos b.data i h]
  | case2 i sofar h =>
    have hi : b.data.toList.length ≤ i := Nat.le_of_not_lt h
    rw [List.drop_eq_nil_of_le hi, List.append_nil]

theorem toList_eq_data (b : ByteArray) : b.toList = b.data.toList := toList_loop b 0 []

theorem bytesOf_eq (c : Char) : bytesOf c = String.utf8EncodeChar c := by
  rw [bytesOf, toList_eq_data, String.toUTF8, String.toByteArray_singleton]
  simp [List.utf8Encode]

theorem push_eq_append (before b : ByteArray) : push before b.toList = before ++ b := by
  have hpush (bytes : List UInt8) (start : ByteArray) :
      (push start bytes).data = start.data ++ bytes.toArray := by
    induction bytes generalizing start with
    | nil => simp [push]
    | cons x bytes ih =>
      have := ih (start.push x)
      simp_all [push]
  apply ByteArray.ext
  rw [hpush, toList_eq_data, ByteArray.data_append]

/-- `inside` is what stands between double quotes for the bytes of `text`. -/
def Denotes (inside text : String) : Prop :=
  ∀ fuel rest, inside.toList.length < fuel →
    quoted '"' fuel .empty 0 (inside.toList ++ '"' :: rest) = .ok (text.toUTF8, 0, rest)

end Script.Token

namespace Output

open Lamina.Script

variable (fuel : Nat) (before : ByteArray) (rest : List Char)

theorem quoted_escapeChar (c : Char) :
    Token.quoted '"' (fuel + 1) before 0 (escapeChar c ++ rest) =
      Token.quoted '"' fuel (Token.push before (Token.bytesOf c)) 0 rest := by
  by_cases hslash : c = '\\'
  · subst hslash
    rw [Token.bytesOf_eq]
    rfl
  by_cases hquote : c = '"'
  · subst hquote
    rw [Token.bytesOf_eq]
    rfl
  by_cases hfeed : c = '\n'
  · subst hfeed
    rw [Token.bytesOf_eq]
    rfl
  by_cases hreturn : c = '\r'
  · subst hreturn
    rw [Token.bytesOf_eq]
    rfl
  by_cases htab : c = '\t'
  · subst htab
    rw [Token.bytesOf_eq]
    rfl
  by_cases hnull : c = '\x00'
  · subst hnull
    rw [Token.bytesOf_eq]
    rfl
  have hplain : escapeChar c = [c] := by
    simp [escapeChar, hslash, hquote, hfeed, hreturn, htab, hnull]
  simp [hplain, Token.quoted, hslash, hquote, hfeed, hreturn]

theorem quoted_escaped (text : List Char) (hfuel : text.length < fuel) :
    Token.quoted '"' fuel before 0 (text.flatMap escapeChar ++ '"' :: rest) =
      .ok (before ++ (String.ofList text).toByteArray, 0, rest) := by
  induction text generalizing fuel before with
  | nil =>
    obtain ⟨k, rfl⟩ : ∃ k, fuel = k + 1 := ⟨fuel - 1, by simp at hfuel; omega⟩
    simp [Token.quoted]
  | cons c text ih =>
    obtain ⟨k, rfl⟩ : ∃ k, fuel = k + 1 := ⟨fuel - 1, by simp at hfuel; omega⟩
    have hk : text.length < k := by
      rw [List.length_cons] at hfuel
      omega
    have hcons : String.ofList (c :: text) = String.singleton c ++ String.ofList text := by
      rw [← String.toList_inj]
      simp
    rw [List.flatMap_cons, List.append_assoc, quoted_escapeChar, ih k _ hk, Token.bytesOf,
      Token.push_eq_append, hcons, String.toByteArray_append, ByteArray.append_assoc]
    rfl

theorem length_le_escaped (text : List Char) : text.length ≤ (text.flatMap escapeChar).length := by
  induction text with
  | nil => exact Nat.le_refl _
  | cons c text ih =>
    have hone : 1 ≤ (escapeChar c).length := by
      unfold escapeChar
      split_ifs <;> simp
    rw [List.flatMap_cons, List.length_append, List.length_cons]
    omega

theorem denotes_escape (text : String) : Token.Denotes (escape text) text := by
  intro fuel rest hfuel
  rw [escape, String.toList_ofList] at hfuel ⊢
  have hlength := length_le_escaped text.toList
  rw [quoted_escaped fuel .empty rest text.toList (by omega), ByteArray.empty_append,
    String.ofList_toList]
  rfl

end Output

end Lamina
