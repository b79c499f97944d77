import Lamina.Snippet
import Mathlib.Data.List.TakeWhile

/-! The line that a place in a text lies in. It is one of the lines of the text by its number, and a
snippet of the text at that place shows it with a caret below. -/

namespace Lamina

namespace Text

/-- The number of a line, which starts behind as many line feeds but one. -/
def IsLine (text : String) (line : Nat) : Prop := 1 ≤ line ∧ line ≤ 1 + feeds text.toList

theorem feeds_append (s t : List Char) : feeds (s ++ t) = feeds s + feeds t := List.countP_append

theorem feeds_eq_zero_iff {s : List Char} : feeds s = 0 ↔ ∀ c ∈ s, (c != '\n') = true := by
  simp [feeds, List.countP_eq_zero]

theorem feeds_eq_zero_of_forall {p : Char → Bool} {s : List Char} (hp : p '\n' = false)
    (h : ∀ c ∈ s, p c = true) : feeds s = 0 := by
  refine feeds_eq_zero_iff.mpr fun c hc => bne_iff_ne.mpr ?_
  rintro rfl
  have hfeed := h '\n' hc
  rw [hp] at hfeed
  cases hfeed

theorem isLine_of_append {text : String} {before rest : List Char}
    (h : text.toList = before ++ rest) : IsLine text (1 + feeds before) := by
  rw [IsLine, h, feeds_append]
  omega

def lastLine (s : List Char) : List Char := (s.reverse.takeWhile (· != '\n')).reverse

theorem lastLine_concat (s : List Char) (c : Char) :
    lastLine (s ++ [c]) = if c = '\n' then [] else lastLine s ++ [c] := by
  by_cases hc : c = '\n'
  · simp [lastLine, hc]
  · simp [lastLine, hc]

theorem lastLine_of_feeds_eq_zero {s : List Char} (h : feeds s = 0) : lastLine s = s := by
  have hall : ∀ c ∈ s.reverse, (c != '\n') = true :=
    fun c hc => feeds_eq_zero_iff.mp h c (List.mem_reverse.mp hc)
  rw [lastLine, List.takeWhile_eq_self_iff.mpr hall, List.reverse_reverse]

theorem lastLine_append {s : List Char} (h : feeds s ≠ 0) (t : List Char) :
    lastLine (t ++ s) = lastLine s := by
  have hshort : (s.reverse.takeWhile (· != '\n')).length ≠ s.reverse.length := by
    intro hlen
    have hself := (List.takeWhile_prefix (p := (· != '\n')) (l := s.reverse)).eq_of_length hlen
    refine h (feeds_eq_zero_iff.mpr fun c hc => ?_)
    exact List.takeWhile_eq_self_iff.mp hself c (List.mem_reverse.mpr hc)
  rw [lastLine, List.reverse_append, List.takeWhile_append, if_neg hshort, lastLine]

theorem lastLine_feed (s : List Char) : lastLine ('\n' :: s) = lastLine s := by
  by_cases hs : feeds s = 0
  · have hall : ∀ c ∈ s.reverse, (c != '\n') = true :=
      fun c hc => feeds_eq_zero_iff.mp hs c (List.mem_reverse.mp hc)
    rw [lastLine_of_feeds_eq_zero hs, lastLine, List.reverse_cons, List.takeWhile_append_of_pos hall]
    simp
  · exact lastLine_append hs ['\n']

/-- The line around a place, with `before` in front of the place and `rest` behind it. -/
def lineAround (before rest : List Char) : List Char :=
  let line := lastLine before ++ rest.takeWhile (· != '\n')
  if '\n' ∈ rest then dropReturn line else line

theorem head?_feedPieces {s : List Char} (h : s ≠ []) :
    (feedPieces s).head? = some (s.takeWhile (· != '\n'), decide ('\n' ∈ s)) := by
  induction s with
  | nil => exact absurd rfl h
  | cons c s ih =>
    by_cases hc : c = '\n'
    · simp [feedPieces, hc]
    · rw [feedPieces, if_neg hc]
      cases s with
      | nil => simp [feedPieces, hc, Ne.symm hc]
      | cons d s =>
        obtain ⟨more, hmore⟩ := List.head?_eq_some_iff.mp (ih (by simp))
        simp [hmore, hc, Ne.symm hc]

theorem getElem?_feedPieces (before : List Char) {rest : List Char} (h : rest ≠ []) :
    (feedPieces (before ++ rest))[feeds before]? =
      some (lastLine before ++ rest.takeWhile (· != '\n'), decide ('\n' ∈ rest)) := by
  induction before with
  | nil => simpa [feeds, lastLine, List.head?_eq_getElem?] using head?_feedPieces h
  | cons c before ih =>
    rw [List.cons_append, feedPieces]
    by_cases hc : c = '\n'
    · have hfeeds : feeds (c :: before) = feeds before + 1 := by simp [feeds, hc]
      rw [if_pos hc, hfeeds, List.getElem?_cons_succ, hc, lastLine_feed]
      exact ih
    · have hfeeds : feeds (c :: before) = feeds before := by simp [feeds, hc]
      rw [if_neg hc, hfeeds]
      cases hpieces : feedPieces (before ++ rest) with
      | nil =>
        rw [hpieces] at ih
        cases ih
      | cons piece more =>
        rw [hpieces] at ih
        -- the character goes in front of the first line, which is the one asked for or not
        cases hn : feeds before with
        | zero =>
          rw [hn] at ih hfeeds
          rw [lastLine_of_feeds_eq_zero hn] at ih
          rw [lastLine_of_feeds_eq_zero hfeeds]
          cases ih
          rfl
        | succ n =>
          rw [hn] at ih
          have hlast : lastLine ([c] ++ before) = lastLine before := lastLine_append (by omega) [c]
          rw [← List.singleton_append (l := before), hlast]
          exact ih

theorem getElem?_lines (before : List Char) {rest : List Char} (h : rest ≠ []) :
    (lines (before ++ rest))[feeds before]? = some (lineAround before rest) := by
  rw [lines, List.getElem?_map, getElem?_feedPieces before h, Option.map_some, lineAround]
  by_cases hfeed : '\n' ∈ rest
  · simp [hfeed]
  · simp [hfeed]

end Text

namespace Snippet

/-- The excerpt has a line with this content and the caret below it. -/
def Shows (s : Snippet) (content : String) : Prop :=
  ∃ above below, s.text = above ++ (padLeft 4 (toString s.line) ++ " | " ++ content ++ "\n" ++
    caret s.column) ++ below

def shown (s : Snippet) : List (Nat × String) :=
  ((List.range' 1 s.lines.length).zip s.lines).filter fun line =>
    decide (s.first ≤ line.1) && decide (line.1 ≤ s.last)

theorem text_eq (s : Snippet) :
    s.text = String.join (s.shown.map fun line => s.row line.1 line.2) :=
  rfl

theorem mem_shown {s : Snippet} {n : Nat} {content : String} (hline : s.line = n + 1)
    (h : s.lines[n]? = some content) : (s.line, content) ∈ s.shown := by
  have hlen : n < s.lines.length := (List.getElem?_eq_some_iff.mp h).1
  have hfirst : s.first ≤ s.line := by
    rw [first]
    omega
  have hlast : s.line ≤ s.last := by
    rw [last]
    omega
  refine List.mem_filter.mpr ⟨List.mem_iff_getElem?.mpr ⟨n, ?_⟩, by simp [hfirst, hlast]⟩
  rw [List.getElem?_zip_eq_some, List.getElem?_range' hlen]
  exact ⟨by simp [hline, Nat.add_comm], h⟩

theorem shows_of_mem_shown {s : Snippet} {content : String} (h : (s.line, content) ∈ s.shown) :
    s.Shows content := by
  have hrow : s.row s.line content =
      padLeft 4 (toString s.line) ++ " | " ++ content ++ "\n" ++ caret s.column := if_pos rfl
  obtain ⟨above, below, hsplit⟩ := List.append_of_mem h
  refine ⟨String.join (above.map fun line => s.row line.1 line.2),
    String.join (below.map fun line => s.row line.1 line.2), ?_⟩
  rw [text_eq, hsplit, List.map_append, List.map_cons, String.join_append, String.join_cons,
    ← String.append_assoc, hrow]

theorem shows_ofSource {source : String} {before rest : List Char}
    (hsource : source.toList = before ++ rest) (hrest : rest ≠ []) (column : Nat) :
    (ofSource source (1 + Text.feeds before) column).Shows
      (String.ofList (Text.lineAround before rest)) := by
  refine shows_of_mem_shown (mem_shown (Nat.add_comm 1 _) ?_)
  rw [ofSource, Text.linesOf, hsource, List.getElem?_map, Text.getElem?_lines before hrest]
  rfl

end Snippet

end Lamina
