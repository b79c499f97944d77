import Lamina.Proofs.Chunk.Alignment

/-! Lines of code in a chunk. Code keeps its lines, behind those of what is written before it, and
each of them is mapped to as many lines below the place of the code as it is below the first. -/

namespace Lamina

open Lamina.Text

namespace Output

theorem getElem?_codeLines (o : Origin) (n i : Nat) (code : List String) :
    (codeLines o n code)[i]? = code[i]?.map fun line => (line, o.down (n + i)) := by
  induction code generalizing n i with
  | nil => rfl
  | cons line rest ih =>
    cases i with
    | zero => rfl
    | succ i =>
      rw [codeLines, List.getElem?_cons_succ, List.getElem?_cons_succ, ih, Nat.succ_add_eq_add_succ]

theorem linesFrom_append_code (pending : Option (String × Origin)) (front : List Output)
    (code : String) (o : Origin) (back : List Output) :
    linesFrom pending (front ++ .code code o :: back) =
      linesFrom pending front ++ (codeLines o 0 (linesOf code) ++ linesFrom none back) := by
  fun_induction linesFrom pending front with
  | case1 pending => rw [List.nil_append, linesFrom, List.append_assoc]
  | case2 pending t origin rest hempty ih =>
    cases pending <;> simpa only [List.cons_append, linesFrom, if_pos hempty] using ih
  | case3 _ _ _ hempty ih | case4 _ _ _ hempty _ _ ih =>
    simpa only [List.cons_append, linesFrom, if_neg hempty] using ih
  | case5 pending c origin rest ih =>
    simp only [List.cons_append, linesFrom, ih, List.append_assoc]

theorem getElem?_lines_code (front back : List Output) {code line : String} (o : Origin) {i : Nat}
    (h : (linesOf code)[i]? = some line) :
    (lines (front ++ .code code o :: back))[(lines front).length + i]? = some (line, o.down i) := by
  have hcode : (codeLines o 0 (linesOf code))[i]? = some (line, o.down i) := by
    rw [getElem?_codeLines, h, Nat.zero_add]
    rfl
  have hlt := (List.getElem?_eq_some_iff.mp hcode).1
  rw [lines, lines, linesFrom_append_code, List.getElem?_append_right (Nat.le_add_right _ _),
    Nat.add_sub_cancel_left, List.getElem?_append_left hlt, hcode]

end Output

namespace Chunk

variable {paths : List String} {output : List Output}

theorem find?_ofOutput {i : Nat} {line : String} {o : Origin}
    (h : (Output.lines output)[i]? = some (line, o)) :
    (ofOutput paths output).sourceMap.find? (i + 1) = some o := by
  rw [Nat.add_comm]
  refine SourceMap.find?_of_mem (Table.mem_numbered ?_)
  rw [List.getElem?_map, h]
  rfl

theorem lineAt?_ofOutput {i : Nat} {line : String} {o : Origin}
    (h : (Output.lines output)[i]? = some (line, o)) :
    lineAt? (ofOutput paths output).content (i + 1) = some line := by
  have hline : ((Output.lines output).map Prod.fst)[i]? = some line := by
    rw [List.getElem?_map, h]
    rfl
  have hlt := (List.getElem?_eq_some_iff.mp hline).1
  rw [ofOutput]
  by_cases hblank : (Output.lines output).map Prod.fst = [""]
  · -- a single blank line is not ended, and is there all the same
    rw [hblank] at hline hlt ⊢
    obtain rfl : i = 0 := by simpa using hlt
    cases hline
    rfl
  · have hsplit := Program.splitOn_joinLines (Output.feed_not_mem_lines output) []
    rw [List.append_nil] at hsplit
    rw [Output.content_eq_joinLines hblank, lineAt?, hsplit,
      List.getElem?_append_left (by simpa using hlt), List.getElem?_map, hline]
    simp

/-- The line around a place in a piece of code is a line of the chunk, and is mapped to as many
lines below the place of the code as there are line feeds before the place in it. -/
theorem line_of_code (paths : List String) (front back : List Output) {code : String} (o : Origin)
    {a b : List Char} (hcode : code.toList = a ++ b) (hb : b ≠ []) :
    let chunk := ofOutput paths (front ++ .code code o :: back)
    lineAt? chunk.content ((Output.lines front).length + feeds a + 1) =
        some (String.ofList (lineAround a b)) ∧
      chunk.sourceMap.find? ((Output.lines front).length + feeds a + 1) =
        some (o.down (feeds a)) := by
  have hline : (linesOf code)[feeds a]? = some (String.ofList (lineAround a b)) := by
    rw [linesOf, List.getElem?_map, hcode, getElem?_lines a hb]
    rfl
  have hplace := Output.getElem?_lines_code front back o hline
  exact ⟨lineAt?_ofOutput hplace, find?_ofOutput hplace⟩

end Chunk

end Lamina
