import Lamina.Program
import Lamina.Proofs.SourceMap

/-! Lines of chunks. None holds a line feed, so the text of a chunk falls into its lines again, and
the numbers in its map count them. -/

namespace Lamina

namespace Text

theorem feed_not_mem_feedPieces {s line : List Char} {closed : Bool}
    (h : (line, closed) ∈ feedPieces s) : '\n' ∉ line := by
  induction s generalizing line closed with
  | nil => cases h
  | cons c s ih =>
    rw [feedPieces] at h
    by_cases hc : c = '\n'
    · rw [if_pos hc] at h
      rcases List.mem_cons.mp h with h | h
      · cases h
        exact List.not_mem_nil
      · exact ih h
    · rw [if_neg hc] at h
      cases hs : feedPieces s with
      | nil =>
        rw [hs] at h
        cases List.mem_singleton.mp h
        simpa using Ne.symm hc
      | cons piece rest =>
        rw [hs] at h ih
        rcases List.mem_cons.mp h with h | h
        · cases h
          have := ih (.head _)
          simp [this, Ne.symm hc]
        · exact ih (.tail _ h)

theorem mem_of_mem_dropReturn {line : List Char} {c : Char} (h : c ∈ dropReturn line) :
    c ∈ line := by
  unfold dropReturn at h
  split at h
  · next r hr =>
    have hline : line = r.reverse ++ ['\r'] := by simpa using congrArg List.reverse hr
    rw [hline]
    exact List.mem_append_left _ h
  · exact h

theorem feed_not_mem_linesOf {s line : String} (h : line ∈ linesOf s) : '\n' ∉ line.toList := by
  obtain ⟨chars, hchars, rfl⟩ := List.mem_map.mp h
  obtain ⟨⟨piece, closed⟩, hpiece, rfl⟩ := List.mem_map.mp hchars
  have hfeed := feed_not_mem_feedPieces hpiece
  rw [String.toList_ofList]
  cases closed with
  | true => exact fun hmem => hfeed (mem_of_mem_dropReturn hmem)
  | false => exact hfeed

end Text

namespace Output

open Lamina.Text

theorem feed_not_mem_escape (text : String) : '\n' ∉ (escape text).toList := by
  intro h
  rw [escape, String.toList_ofList, List.mem_flatMap] at h
  obtain ⟨c, -, hc⟩ := h
  by_cases hfeed : '\n' = c
  · subst hfeed
    simp [escapeChar] at hc
  · unfold escapeChar at hc
    split_ifs at hc <;> simp_all

theorem feed_not_mem_flush {pending : Option (String × Origin)} {e : String × Origin}
    (h : e ∈ flush pending) : '\n' ∉ e.1.toList := by
  cases pending with
  | none => cases h
  | some first =>
    cases List.mem_singleton.mp h
    have := feed_not_mem_escape first.1
    simp [this]

theorem fst_codeLines (o : Origin) (n : Nat) (code : List String) :
    (codeLines o n code).map Prod.fst = code := by
  induction code generalizing n with
  | nil => rfl
  | cons line rest ih => rw [codeLines, List.map_cons, ih]

theorem feed_not_mem_linesFrom {pending : Option (String × Origin)} {output : List Output}
    {e : String × Origin} (h : e ∈ linesFrom pending output) : '\n' ∉ e.1.toList := by
  fun_induction linesFrom pending output with
  | case1 pending => exact feed_not_mem_flush h
  | case2 pending t o rest _ ih => exact ih h
  | case3 t o rest _ ih => exact ih h
  | case4 t o rest _ sofar first ih => exact ih h
  | case5 pending c o rest ih =>
    rcases List.mem_append.mp h with h | h
    · rcases List.mem_append.mp h with h | h
      · exact feed_not_mem_flush h
      · have hline := List.mem_map_of_mem (f := Prod.fst) h
        rw [fst_codeLines] at hline
        exact feed_not_mem_linesOf hline
    · exact ih h

theorem feed_not_mem_lines (output : List Output) :
    ∀ line ∈ (lines output).map Prod.fst, '\n' ∉ line.toList :=
  List.forall_mem_map.mpr fun _ => feed_not_mem_linesFrom

end Output

namespace Program

open Lamina.Text

theorem joinLines_cons (line : String) (rest : List String) :
    joinLines (line :: rest) = line ++ "\n" ++ joinLines rest := by
  simp [joinLines]

theorem splitOn_joinLines {lines : List String} (h : ∀ line ∈ lines, '\n' ∉ line.toList)
    (rest : List Char) :
    ((joinLines lines).toList ++ rest).splitOn '\n' =
      lines.map String.toList ++ rest.splitOn '\n' := by
  induction lines with
  | nil => rfl
  | cons line lines ih =>
    obtain ⟨hline, hlines⟩ := List.forall_mem_cons.mp h
    have hfirst : (joinLines (line :: lines)).toList ++ rest =
        line.toList ++ '\n' :: ((joinLines lines).toList ++ rest) := by
      simp [joinLines_cons]
    rw [hfirst, List.splitOn_append_cons_self, List.splitOn_eq_singleton hline, ih hlines]
    rfl

theorem eq_nil_of_joinLines {lines : List String} (h : joinLines lines = "") : lines = [] := by
  cases lines with
  | nil => rfl
  | cons line rest =>
    have := congrArg String.toList h
    simp [joinLines_cons] at this

end Program

namespace Output

theorem intercalate_feed {lines : List String} (h : lines ≠ []) :
    "\n".intercalate lines ++ "\n" = Program.joinLines lines := by
  induction lines with
  | nil => exact absurd rfl h
  | cons line rest ih =>
    cases rest with
    | nil => simp [Program.joinLines]
    | cons next rest =>
      have hrest := ih (List.cons_ne_nil _ _)
      rw [String.intercalate_cons_cons, String.append_assoc, hrest, Program.joinLines_cons line]

theorem content_eq_joinLines {lines : List String} (h : lines ≠ [""]) :
    content lines = Program.joinLines lines := by
  cases lines with
  | nil => rfl
  | cons line rest =>
    have hjoined := intercalate_feed (List.cons_ne_nil line rest)
    have hne : "\n".intercalate (line :: rest) ≠ "" := by
      intro hempty
      cases rest with
      | nil =>
        rw [String.intercalate_singleton] at hempty
        exact h (by rw [hempty])
      | cons next rest =>
        have := congrArg String.toList hempty
        simp [String.intercalate_cons_cons] at this
    rw [content, if_neg (by simpa using hne), hjoined]

end Output

namespace SourceMap

theorem find?_shift (m : SourceMap) (n line : Nat) :
    (m.shift n).find? (n + line) = m.find? line := by
  have hentries : (m.shift n).lines.entries = m.lines.entries.map fun e => (e.1 + n, e.2) := rfl
  rw [find?, find?, hentries, List.findRev?_eq_find?_reverse, List.findRev?_eq_find?_reverse,
    ← List.map_reverse, List.find?_map, Option.map_map]
  have hkeys : (fun e : Nat × Origin => decide (e.1 + n ≤ n + line)) = fun e => decide (e.1 ≤ line) := by
    funext e
    simp only [decide_eq_decide]
    omega
  exact congrArg (fun p => Option.map Prod.snd (List.find? p m.lines.entries.reverse)) hkeys

end SourceMap

end Lamina
