import Lamina.Artifact
import Lamina.Proofs.Text

/-! Keys and identifiers are written in hexadecimal digits, so an identifier shows the start of its
key and of the digest of its source. -/

namespace Lamina

namespace Digest

def hexDigits : List Char := "0123456789abcdef".toList

theorem hexDigit_mem {n : Nat} (h : n < 16) : hexDigit n ∈ hexDigits := by
  have hall : ∀ n < 16, hexDigit n ∈ hexDigits := by decide
  exact hall n h

theorem mem_hexDigits_of_mem_hex {bytes : List UInt8} {c : Char} (h : c ∈ (hex bytes).toList) :
    c ∈ hexDigits := by
  rw [hex, String.toList_ofList] at h
  obtain ⟨b, -, hb⟩ := List.mem_flatMap.mp h
  have hlt : b.toNat < 256 := b.toNat_lt
  rcases List.mem_cons.mp hb with rfl | hb
  · exact hexDigit_mem (by omega)
  · rw [List.mem_singleton.mp hb]
    exact hexDigit_mem (by omega)

theorem length_hex (bytes : List UInt8) : (hex bytes).toList.length = 2 * bytes.length := by
  rw [hex, String.toList_ofList]
  induction bytes with
  | nil => rfl
  | cons b bytes ih =>
    rw [List.flatMap_cons, List.length_append, ih, List.length_cons]
    simp
    omega

theorem length_sha256 (message : List UInt8) : (sha256 message).length = 32 := by
  simp [sha256, State.words, bigEndian]

end Digest

/-- What the fingerprint of a view under a context is. -/
def IsKey (key : String) : Prop := ∃ space name contextId, key = fingerprint space name contextId

namespace IsKey

variable {key key' : String}

theorem mem_hexDigits (h : IsKey key) {c : Char} (hc : c ∈ key.toList) : c ∈ Digest.hexDigits := by
  obtain ⟨space, name, contextId, rfl⟩ := h
  exact Digest.mem_hexDigits_of_mem_hex hc

theorem length (h : IsKey key) : key.toList.length = 64 := by
  obtain ⟨space, name, contextId, rfl⟩ := h
  rw [fingerprint, Digest.length_hex, Digest.length_sha256]

end IsKey

theorem artifactId_inj {key key' source source' : String} (hk : IsKey key) (hk' : IsKey key')
    (h : artifactId key source = artifactId key' source') :
    key.toList.take 32 = key'.toList.take 32 ∧
      (Digest.ofText source).toList.take 12 = (Digest.ofText source').toList.take 12 := by
  have hsep {key : String} (hk : IsKey key) : '_' ∉ key.toList.take 32 := fun hm =>
    absurd (hk.mem_hexDigits (List.mem_of_mem_take hm)) (by decide)
  refine Text.eq_of_append_sep (hsep hk) (hsep hk') ?_
  simpa [artifactId] using congrArg String.toList h

end Lamina
