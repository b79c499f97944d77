import Lamina.Proofs.Chunk.Lines

/-! Alignment of a chunk with its map: as many lines as are mapped, and the same lines with the same
origins behind the preamble. Only a chunk that is a single blank line has lost its text. -/

namespace Lamina

open Lamina.Text

def Text.lineAt? (s : String) : Nat → Option String
  | 0 => none
  | n + 1 => (s.toList.splitOn '\n')[n]?.map String.ofList

namespace Chunk

/-- A chunk whose text is `body`, with every line mapped and in place in the artifact. -/
structure Aligned (chunk : Chunk) (artifact : Artifact) (body : List String) : Prop where
  ended : chunk.content = Program.joinLines body
  feedless : ∀ line ∈ body, '\n' ∉ line.toList
  counted : chunk.sourceMap.lines.length = body.length
  placed : ∀ i, 1 ≤ i → i ≤ body.length →
    lineAt? artifact.source (Program.preamble.length + i) = body[i - 1]?

variable {paths : List String} {output : List Output}

theorem keys_ofOutput (paths : List String) (output : List Output) :
    (ofOutput paths output).sourceMap.lines.keys =
      List.range' 1 (ofOutput paths output).sourceMap.lines.length := by
  rw [ofOutput, Table.length_numbered]
  exact Table.keys_numbered 1 _

theorem exists_find?_of_le {i : Nat} (hpos : 1 ≤ i)
    (hle : i ≤ (ofOutput paths output).sourceMap.lines.length) :
    ∃ o, (i, o) ∈ (ofOutput paths output).sourceMap.lines ∧
      (ofOutput paths output).sourceMap.find? i = some o := by
  have hkey : i ∈ (ofOutput paths output).sourceMap.lines.keys := by
    rw [keys_ofOutput, List.mem_range'_1]
    omega
  obtain ⟨⟨k, o⟩, hmem, rfl⟩ := List.mem_map.mp hkey
  exact ⟨o, hmem, SourceMap.find?_of_mem hmem⟩

theorem not_mem_toList_ofList {c : Char} {s : List Char} (h : c ∉ s) :
    c ∉ (String.ofList s).toList := by
  rwa [String.toList_ofList]

-- Line by line: a literal is taken for the list of its characters, which is not decoded again.
theorem feed_not_mem_preamble : ∀ line ∈ Program.preamble, '\n' ∉ line.toList := by
  simp only [Program.preamble, List.forall_mem_cons, String.toList_append, List.mem_append, not_or]
  and_intros
  all_goals first | exact not_mem_toList_ofList (by decide) | exact List.forall_mem_nil _

theorem lineAt?_assemble {chunk : Chunk} {body : List String}
    (hbody : ∀ line ∈ body, '\n' ∉ line.toList) (hcontent : chunk.content = Program.joinLines body)
    (key template : String) {i : Nat} (hpos : 1 ≤ i) (hle : i ≤ body.length) :
    lineAt? (Program.assemble key template chunk).source (Program.preamble.length + i) =
      body[i - 1]? := by
  obtain ⟨k, rfl⟩ : ∃ k, i = k + 1 := ⟨i - 1, by omega⟩
  have hsource : (Program.assemble key template chunk).source.toList =
      (Program.joinLines Program.preamble).toList ++
        ((Program.joinLines body).toList ++ (Program.joinLines Program.epilogue).toList) := by
    simp [Program.assemble, hcontent]
  have hk : k < (body.map String.toList).length := by
    rw [List.length_map]
    omega
  rw [← Nat.add_assoc, lineAt?, hsource, Program.splitOn_joinLines feed_not_mem_preamble,
    Program.splitOn_joinLines hbody, List.getElem?_append_right (by simp)]
  simp only [List.length_map, Nat.add_sub_cancel_left, Nat.add_sub_cancel]
  rw [List.getElem?_append_left hk, List.getElem?_map, Option.map_map]
  simp [Function.comp_def]

theorem aligned_of_ne_blank (hne : (Output.lines output).map Prod.fst ≠ [""])
    (key template : String) :
    Aligned (ofOutput paths output) (Program.assemble key template (ofOutput paths output))
      ((Output.lines output).map Prod.fst) := by
  have hfeed := Output.feed_not_mem_lines output
  have hcontent : (ofOutput paths output).content =
      Program.joinLines ((Output.lines output).map Prod.fst) := Output.content_eq_joinLines hne
  have hcount : (ofOutput paths output).sourceMap.lines.length =
      ((Output.lines output).map Prod.fst).length := by
    rw [ofOutput, Table.length_numbered, List.length_map, List.length_map]
  exact ⟨hcontent, hfeed, hcount, fun i hpos hle =>
    lineAt?_assemble hfeed hcontent key template hpos hle⟩

theorem not_aligned_of_blank (hblank : (Output.lines output).map Prod.fst = [""])
    (artifact : Artifact) (body : List String) :
    ¬ Aligned (ofOutput paths output) artifact body := by
  intro h
  have hempty : (ofOutput paths output).content = "" :=
    (congrArg Output.content hblank).trans (by decide)
  have hbody : body = [] := Program.eq_nil_of_joinLines (h.ended ▸ hempty)
  have hcount : (ofOutput paths output).sourceMap.lines.length = 1 := by
    rw [ofOutput, Table.length_numbered]
    simpa using congrArg List.length hblank
  have := h.counted
  simp_all

/-- The map numbers the lines from one and is moved with them by the preamble; the text has as many
lines, at the mapped places, exactly if the output is not one blank line alone. -/
theorem aligned_iff_not_lone_blank (paths : List String) (output : List Output)
    (key template : String) :
    let chunk := ofOutput paths output
    let artifact := Program.assemble key template chunk
    chunk.sourceMap.lines.keys = List.range' 1 chunk.sourceMap.lines.length ∧
    (∀ i, 1 ≤ i → i ≤ chunk.sourceMap.lines.length →
      ∃ o, (i, o) ∈ chunk.sourceMap.lines ∧ chunk.sourceMap.find? i = some o ∧
        artifact.sourceMap.find? (Program.preamble.length + i) = some o) ∧
    ((∃ body, Aligned chunk artifact body) ↔ (Output.lines output).map Prod.fst ≠ [""]) := by
  intro chunk artifact
  refine ⟨keys_ofOutput paths output, ?_, ?_, ?_⟩
  · intro i hpos hle
    obtain ⟨o, hmem, hfind⟩ := exists_find?_of_le hpos hle
    exact ⟨o, hmem, hfind, (SourceMap.find?_shift _ _ i).trans hfind⟩
  · rintro ⟨body, hbody⟩ hblank
    exact not_aligned_of_blank hblank artifact body hbody
  · intro hne
    exact ⟨_, aligned_of_ne_blank hne key template⟩

/-- A blank line of code is mapped but not written. -/
theorem lone_blank_line_is_lost :
    let chunk := ofOutput [] [.code "\n" (.of "a.stm" 1 .host "<?lua")]
    chunk.content = "" ∧ chunk.sourceMap.lines = .single 1 (.of "a.stm" 1 .host "<?lua") ∧
      ∀ artifact body, ¬ Aligned chunk artifact body := by
  refine ⟨by decide, by decide, fun artifact body => ?_⟩
  exact not_aligned_of_blank (by decide) artifact body

end Chunk

end Lamina
