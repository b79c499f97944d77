import Lamina.Proofs.Chunk.Literal
import Lamina.Proofs.Context
import Lamina.Proofs.Key
import Mathlib.Algebra.Group.Nat.Defs

/-! What a key is a digest of. The length of a part stands in front of it, so the parts can be told
apart wherever their delimiters would be. -/

namespace Lamina

namespace Digest

theorem bigEndian_succ (width n : Nat) :
    bigEndian (width + 1) n = (n / 256 ^ width % 256).toUInt8 :: bigEndian width n := by
  simp only [bigEndian, List.range_succ_eq_map, List.map_cons, List.map_map]
  congr 1
  refine List.map_congr_left fun i _ => ?_
  have hexp : width + 1 - 1 - i.succ = width - 1 - i := by omega
  simp only [Function.comp_apply, hexp]

theorem length_bigEndian (width n : Nat) : (bigEndian width n).length = width := by
  simp [bigEndian]

theorem mod_eq_of_bigEndian {width n n' : Nat} (h : bigEndian width n = bigEndian width n') :
    n % 256 ^ width = n' % 256 ^ width := by
  induction width with
  | zero => simp [Nat.mod_one]
  | succ width ih =>
    rw [bigEndian_succ, bigEndian_succ] at h
    obtain ⟨hbyte, hrest⟩ := List.cons.inj h
    have hdigit : n / 256 ^ width % 256 = n' / 256 ^ width % 256 := by
      simpa using congrArg UInt8.toNat hbyte
    rw [Nat.mod_pow_succ, Nat.mod_pow_succ, ih hrest, hdigit]

end Digest

theorem length_utf8 (part : String) : part.toUTF8.toList.length = part.utf8ByteSize := by
  rw [Script.Token.toList_eq_data]
  rfl

theorem utf8_injective {part part' : String} (h : part.toUTF8.toList = part'.toUTF8.toList) :
    part = part' := by
  rw [Script.Token.toList_eq_data, Script.Token.toList_eq_data] at h
  exact String.toByteArray_inj.mp (ByteArray.ext (Array.toList_inj.mp h))

variable {part part' : String} {rest rest' : List UInt8}

theorem lengthPrefixed_append (part : String) (rest : List UInt8) : lengthPrefixed part ++ rest =
    (Digest.bigEndian 8 part.utf8ByteSize).reverse ++ (part.toUTF8.toList ++ rest) := by
  rw [← length_utf8, lengthPrefixed, List.append_assoc]

theorem length_eq_of_lengthPrefixed_append (hfit : part.utf8ByteSize < 2 ^ 64)
    (hfit' : part'.utf8ByteSize < 2 ^ 64)
    (h : lengthPrefixed part ++ rest = lengthPrefixed part' ++ rest') :
    part.utf8ByteSize = part'.utf8ByteSize := by
  rw [lengthPrefixed_append, lengthPrefixed_append] at h
  have hlen : (Digest.bigEndian 8 part.utf8ByteSize).reverse.length =
      (Digest.bigEndian 8 part'.utf8ByteSize).reverse.length := by
    simp [Digest.length_bigEndian]
  obtain ⟨hsame, -⟩ := List.append_inj h hlen
  have hmod := Digest.mod_eq_of_bigEndian (List.reverse_injective hsame)
  rwa [Nat.mod_eq_of_lt (by omega), Nat.mod_eq_of_lt (by omega)] at hmod

theorem lengthPrefixed_append_inj (hfit : part.utf8ByteSize < 2 ^ 64)
    (hfit' : part'.utf8ByteSize < 2 ^ 64)
    (h : lengthPrefixed part ++ rest = lengthPrefixed part' ++ rest') :
    part = part' ∧ rest = rest' := by
  have hsize := length_eq_of_lengthPrefixed_append hfit hfit' h
  rw [lengthPrefixed_append, lengthPrefixed_append, hsize] at h
  have hbytes := List.append_cancel_left h
  have hlen : part.toUTF8.toList.length = part'.toUTF8.toList.length := by
    rw [length_utf8, length_utf8, hsize]
  obtain ⟨htext, hrest⟩ := List.append_inj hbytes hlen
  exact ⟨utf8_injective htext, hrest⟩

theorem lengthPrefixed_injective (h : lengthPrefixed part = lengthPrefixed part') :
    part = part' := by
  have hlen : (Digest.bigEndian 8 part.toUTF8.toList.length).reverse.length =
      (Digest.bigEndian 8 part'.toUTF8.toList.length).reverse.length := by
    simp [Digest.length_bigEndian]
  exact utf8_injective (List.append_inj h hlen).2

/-- The bytes that the key of a view under a context is a digest of. -/
def keyInput (space name contextId : String) : List UInt8 :=
  [space, name, contextId].flatMap lengthPrefixed

theorem keyInput_eq (space name contextId : String) : keyInput space name contextId =
    lengthPrefixed space ++ (lengthPrefixed name ++ lengthPrefixed contextId) := by
  simp [keyInput]

variable {space name space' name' contextId contextId' : String}

theorem keyInput_injective (hspace : space.utf8ByteSize < 2 ^ 64)
    (hname : name.utf8ByteSize < 2 ^ 64) (hspace' : space'.utf8ByteSize < 2 ^ 64)
    (hname' : name'.utf8ByteSize < 2 ^ 64)
    (h : keyInput space name contextId = keyInput space' name' contextId') :
    space = space' ∧ name = name' ∧ contextId = contextId' := by
  rw [keyInput_eq, keyInput_eq] at h
  obtain ⟨rfl, hbehind⟩ := lengthPrefixed_append_inj hspace hspace' h
  obtain ⟨rfl, hlast⟩ := lengthPrefixed_append_inj hname hname' hbehind
  exact ⟨rfl, rfl, lengthPrefixed_injective hlast⟩

/-- Keys never share an input: what is digested for a namespace, a name and a context is digested for
no others, and no two contexts have one identifier. The lengths of namespace and name must fit into
eight bytes, as those of all texts in memory do. -/
theorem keys_share_no_input (c c' : Context) (hspace : space.utf8ByteSize < 2 ^ 64)
    (hname : name.utf8ByteSize < 2 ^ 64) (hspace' : space'.utf8ByteSize < 2 ^ 64)
    (hname' : name'.utf8ByteSize < 2 ^ 64) (hne : (space, name, c) ≠ (space', name', c')) :
    Function.Injective Context.id ∧
      fingerprint space name c.id = Digest.hex (Digest.sha256 (keyInput space name c.id)) ∧
      fingerprint space' name' c'.id = Digest.hex (Digest.sha256 (keyInput space' name' c'.id)) ∧
      keyInput space name c.id ≠ keyInput space' name' c'.id := by
  refine ⟨fun _ _ h => Context.id_injective h, rfl, rfl, fun h => hne ?_⟩
  obtain ⟨rfl, rfl, hid⟩ := keyInput_injective hspace hname hspace' hname' h
  rw [Context.id_injective hid]

/-- One value that spells two pairs, and a name that takes over the end of the namespace. -/
theorem keys_share_no_input_spelled :
    (Context.ofPairs [("a", "1,b=2")]).id = "a=1%2Cb%3D2" ∧
      (Context.ofPairs [("a", "1"), ("b", "2")]).id = "a=1,b=2" ∧
      keyInput "ab" "c" (Context.ofPairs [("a", "1,b=2")]).id ≠
        keyInput "a" "bc" (Context.ofPairs [("a", "1"), ("b", "2")]).id :=
  ⟨by decide +kernel, by decide +kernel,
    (keys_share_no_input (.ofPairs [("a", "1,b=2")]) (.ofPairs [("a", "1"), ("b", "2")])
      (by decide +kernel) (by decide +kernel) (by decide +kernel) (by decide +kernel)
      (by simp)).2.2.2⟩

end Lamina
