import Lamina.Proofs.Snippet
import Lamina.Proofs.Token.Tiling
import Mathlib.Data.List.Induction

/-! Where the lexer fails. A failure is put at the place where a construct starts that has no end or
may not stand there; the lexer remembers these places while it is inside of tags and of values. -/

namespace Lamina

open Lamina.Text

namespace Position

theorem column_advance (s : List Char) :
    (start.advance s).column = 1 + (String.ofList (lastLine s)).utf8ByteSize := by
  induction s using List.reverseRecOn with
  | nil => rfl
  | append_singleton s c ih =>
    have hadvance : start.advance (s ++ [c]) = (start.advance s).next c := by
      rw [advance_append]
      rfl
    rw [hadvance, next, lastLine_concat]
    by_cases hc : c = '\n'
    · simp [hc]
    · simp only [hc, if_false, ih, String.ofList_append, String.utf8ByteSize_append]
      simp [Nat.add_assoc]

end Position

open Scan Lexer in
/-- The construct that `rest` starts with is what the fault says of it. -/
def LexFault.Offends (rest : List Char) : LexFault → Prop
  | unterminatedComment => "<!--".toList <+: rest ∧ ¬ "-->".toList <:+: rest
  | malformedClosing name => ∃ after, rest = "</".toList ++ name.toList ++ after ∧
      (after.dropWhile isBlank).head? ≠ some '>'
  | unterminatedTag name => '<' :: name.toList <+: rest
  | unterminatedValue quote => [quote] <+: rest ∧ isQuote quote = true
  | unexpectedChar char _ => [char] <+: rest ∧ isNameEnd char = true
  | unterminatedHost => ∃ body, rest = "<?lua".toList ++ body ∧ ¬ "?>".toList <:+: body
  | unterminatedNote => "\x7b\x7b--".toList <+: rest ∧ ¬ "--\x7d\x7d".toList <:+: rest
  | unterminatedEcho true => ∃ body, rest = "\x7b\x7b".toList ++ body ∧
      delimited "\x7d\x7d".toList .outside 0 body = none
  | unterminatedEcho false => ∃ body, rest = "\x7b!!".toList ++ body ∧
      delimited "!!\x7d".toList .outside 0 body = none
  | unterminatedDirective name => ∃ inner, rest = '@' :: name.toList ++ '(' :: inner ∧
      balanced .outside 0 inner = none
  | stated _ => False

theorem LexFault.Offends.ne_nil {fault : LexFault} {rest : List Char} (h : fault.Offends rest) :
    rest ≠ [] := by
  rintro rfl
  cases fault with
  | unterminatedEcho escape => cases escape <;> simp [Offends] at h
  | _ => simp [Offends] at h

namespace Lexer

variable {here start : Position} {before : Option Char} {s : List Char} {name : String}
  {fault : LexFault}

theorem orTry_eq_error {α : Type} {first : Except LexFault (Option α)}
    {next : Unit → Except LexFault (Option α)} (h : orTry first next = .error fault) :
    first = .error fault ∨ next () = .error fault := by
  unfold orTry at h
  split at h
  · exact .inr h
  · exact .inl h

theorem host_fault (h : host s = .error fault) : fault.Offends s := by
  unfold host at h
  split at h
  · cases h
  · next body hbody =>
    split at h
    · next hcut =>
      cases h
      exact ⟨body, isPrefixOf?_eq_some.mp hbody, cut_eq_none_iff.mp hcut⟩
    · cases h

theorem note_fault (h : note s = .error fault) : fault.Offends s := by
  unfold note at h
  split at h
  · cases h
  · next body hbody =>
    split at h
    · next hcut =>
      cases h
      exact ⟨⟨body, (isPrefixOf?_eq_some.mp hbody).symm⟩, cut_eq_none_iff.mp hcut⟩
    · cases h

theorem echo_fault {opening closing : List Char} {escape : Bool}
    (h : echo opening closing escape s = .error fault) : fault = .unterminatedEcho escape ∧
      ∃ body, s = opening ++ body ∧ Scan.delimited closing .outside 0 body = none := by
  unfold echo at h
  split at h
  · cases h
  · next body hbody =>
    split at h
    · next hend =>
      cases h
      exact ⟨rfl, body, isPrefixOf?_eq_some.mp hbody, hend⟩
    · cases h

theorem directive_fault (h : directive before s = .error fault) : fault.Offends s := by
  unfold directive at h
  split at h
  · cases h
  · next after hafter =>
    split at h
    · cases h
    · next name tail hname =>
      have hname : after = name ++ tail := by
        split at hname
        · cases hname
        · exact (Scan.ident?_eq_some hname).1
      split at h
      · cases h
      · next inner hinner =>
        split at h
        · next hend =>
          cases h
          refine ⟨inner, ?_, hend⟩
          rw [isPrefixOf?_eq_some.mp hafter, hname, isPrefixOf?_eq_some.mp hinner]
          simp
        · cases h

theorem dynamic_fault {escapes : Bool} (h : dynamic escapes before s = .error fault) :
    fault.Offends s := by
  unfold dynamic at h
  rcases orTry_eq_error h with h | h
  · exact host_fault h
  rcases orTry_eq_error h with h | h
  · exact note_fault h
  rcases orTry_eq_error h with h | h
  · obtain ⟨rfl, hbody⟩ := echo_fault h
    exact hbody
  rcases orTry_eq_error h with h | h
  · obtain ⟨rfl, hbody⟩ := echo_fault h
    exact hbody
  rcases orTry_eq_error h with h | h
  · cases h
  rcases orTry_eq_error h with h | h
  · exact directive_fault h
  · cases h

theorem markup_fault (h : markup here s = .error fault) : fault.Offends s := by
  unfold markup at h
  split at h
  · next hopens =>
    split at h
    · next hcut =>
      cases h
      exact ⟨List.isPrefixOf_iff_prefix.mp hopens, cut_eq_none_iff.mp hcut⟩
    · cases h
  · split at h
    · next after hafter =>
      dsimp only at h
      split at h
      · cases h
      · split at h
        · next hend =>
          cases h
          refine ⟨(Scan.tagName after).2, ?_, fun hclose => ?_⟩
          · simp only [isPrefixOf?_eq_some.mp hafter, String.toList_ofList, List.append_assoc,
              Scan.tagName_append]
          · obtain ⟨rest, hrest⟩ := List.head?_eq_some_iff.mp hclose
            rw [isPrefixOf?_eq_some.mpr hrest] at hend
            cases hend
        · cases h
    · split at h
      · split at h
        · cases h
        · cases h
      · cases h

theorem textStep_fault {html : Bool} (h : textStep html here before s = .error fault) :
    fault.Offends s := by
  unfold textStep at h
  split at h
  · next hd =>
    cases h
    exact dynamic_fault hd
  · cases h
  · split at h
    · next hm =>
      cases h
      split at hm
      · exact markup_fault hm
      · cases hm
    · cases h
    · cases h

theorem attr_fault (hs : s ≠ []) (hend : ¬ "/>".toList <+: s)
    (h : attr name start here s = .error fault) : fault.Offends s := by
  unfold attr at h
  dsimp only at h
  split at h
  · next hkey =>
    cases h
    cases s with
    | nil => exact absurd rfl hs
    | cons c s =>
      refine ⟨⟨s, rfl⟩, ?_⟩
      by_contra hc
      -- the key then starts with `c`, and only a slash at the end of a tag is given back
      rw [List.takeWhile_cons_of_pos (by simpa using hc),
        List.dropWhile_cons_of_pos (by simpa using hc)] at hkey
      unfold keepSlash at hkey
      split at hkey
      · next hlast hrest =>
        have hempty : s.takeWhile (!isNameEnd ·) = [] := by
          cases hw : s.takeWhile (!isNameEnd ·) with
          | nil => rfl
          | cons d t => simp [hw] at hkey
        have hsplit := List.takeWhile_append_dropWhile (p := (!isNameEnd ·)) (l := s)
        rw [hempty, hrest] at hsplit
        rw [hempty] at hlast
        cases hlast
        exact hend ⟨_, by rw [← hsplit]; rfl⟩
      · cases hkey
  · cases h

theorem tagBody_fault (hs : s ≠ []) (h : tagBody name start here before s = .error fault) :
    fault.Offends s := by
  unfold tagBody at h
  split at h
  · cases h
  · next hend =>
    split at h
    · cases h
    · split at h
      · next hd =>
        cases h
        split at hd
        · exact dynamic_fault hd
        · cases hd
      · cases h
      · exact attr_fault hs (isPrefixOf?_eq_none_iff.mp hend) h

theorem valueStep_fault {quote : Char} {opened : Position}
    (h : valueStep name start quote opened before s = .error fault) : fault.Offends s := by
  unfold valueStep at h
  split at h
  · cases h
  · split at h
    · next hd =>
      cases h
      exact dynamic_fault hd
    · cases h
    · cases h

theorem rawTextStep_fault (h : rawTextStep name here before s = .error fault) :
    fault.Offends s := by
  unfold rawTextStep at h
  split at h
  · exact textStep_fault h
  · split at h
    · next hd =>
      cases h
      split at hd
      · cases hd
      · exact dynamic_fault hd
    · cases h
    · cases h

def Fault.In (source : List Char) (fault : Fault) : Prop :=
  ∃ before rest, source = before ++ rest ∧ fault.1.Offends rest ∧
    fault.2 = Position.start.advance before

end Lexer

/-- The places a mode remembers are those where the constructs start that the lexer is inside of. -/
def Mode.Inside (source : List Char) : Mode → Prop
  | text | rawText _ => True
  | tag name start => Lexer.Fault.In source (.unterminatedTag name, start)
  | value name start quote opened =>
    Lexer.Fault.In source (.unterminatedTag name, start) ∧
      Lexer.Fault.In source (.unterminatedValue quote, opened)

namespace Lexer

variable {here start : Position} {before : Option Char} {s front : List Char} {name : String}
  {r : Step}

/-- Behind the name of an attribute the lexer stays in the tag or goes into a value, which starts
with its quote. -/
theorem Valued.inside (htag : Fault.In (front ++ s) (.unterminatedTag name, start))
    (hhere : here = Position.start.advance front) (h : Valued name start here s r) :
    r.mode.Inside (front ++ s) := by
  cases h with
  | absent | ended | unquoted => exact htag
  | @quoted gap rest c split _ quote =>
    refine ⟨htag, front ++ gap, c :: rest, ?_, ⟨⟨rest, rfl⟩, quote⟩, ?_⟩
    · rw [split, List.append_assoc]
    · rw [hhere, ← Position.advance_append]

theorem InTag.inside (htag : Fault.In (front ++ s) (.unterminatedTag name, start))
    (hhere : here = Position.start.advance front) (h : InTag name start here before s r) :
    r.mode.Inside (front ++ s) := by
  cases h with
  | selfClose => trivial
  | tagEnd =>
    dsimp only
    split <;> trivial
  | construct => exact htag
  | @attr key after value split _ _ _ valued =>
    rw [split, ← List.append_assoc] at htag ⊢
    exact valued.inside (r := value) htag (by rw [hhere, ← Position.advance_append])

theorem Takes.inside {mode : Mode} (hm : mode.Inside (front ++ s))
    (hhere : here = Position.start.advance front) (h : Takes here before s mode r) :
    r.mode.Inside (front ++ s) := by
  induction h with
  | construct | run | blank => exact hm
  | comment | tagClose => trivial
  | @tagOpen name rest split =>
    refine ⟨front, s, rfl, ?_, hhere⟩
    rw [LexFault.Offends, String.toList_ofList]
    exact ⟨rest, split.symm⟩
  | closesRaw _ _ ih => exact ih trivial
  | @inTag name start blank inner r split _ inTag =>
    rw [split, ← List.append_assoc] at hm ⊢
    exact inTag.inside (r := r) hm (by rw [hhere, ← Position.advance_append])
  | valueEnd => exact hm.1

theorem step_fault {html : Bool} {mode : Mode} {fault : Fault}
    (hhere : here = Position.start.advance front) (h : step html mode here before s = .error fault) :
    fault.In (front ++ s) := by
  have hplain {x : Except LexFault Step} (hx : ∀ cause, x = .error cause → cause.Offends s)
      (h : x.mapError (·, here) = .error fault) : fault.In (front ++ s) := by
    obtain ⟨cause, hcause, rfl⟩ := mapError_eq_error.mp h
    exact ⟨front, s, rfl, hx cause hcause, hhere⟩
  cases mode with
  | text => exact hplain (fun _ => textStep_fault) h
  | value name start quote opened => exact hplain (fun _ => valueStep_fault) h
  | rawText name => exact hplain (fun _ => rawTextStep_fault) h
  | tag name start =>
    have hsplit := List.takeWhile_append_dropWhile (p := isBlank) (l := s)
    unfold step tagStep at h
    dsimp only at h
    split at h
    · cases h
    · next c rest hrest =>
      split at h
      · next cause hbody =>
        cases h
        refine ⟨front ++ s.takeWhile isBlank, c :: rest, ?_, tagBody_fault (by simp) hbody, ?_⟩
        · rw [List.append_assoc, ← hrest, hsplit]
        · rw [hhere, ← Position.advance_append]
      · cases h

theorem finish_fault {mode : Mode} {source : List Char} {fault : Fault} (hm : mode.Inside source)
    (h : finish mode = .error fault) : fault.In source := by
  cases mode with
  | text | rawText => cases h
  | tag name start =>
    cases h
    exact hm
  | value name start quote opened =>
    cases h
    exact hm.2

theorem segments_fault {html : Bool} {mode : Mode} {fault : Fault}
    (hm : mode.Inside (front ++ s)) (hhere : here = Position.start.advance front)
    (h : segments html mode here before s = .error fault) : fault.In (front ++ s) := by
  fun_induction segments html mode here before s generalizing front with
  | case1 mode here before =>
    exact finish_fault hm (map_eq_error.mp h)
  | case2 mode here before s hne fault' hstep =>
    cases h
    exact step_fault hhere hstep
  | case3 mode here before s hne r hstep _ taken =>
    rename_i ih
    have hcover : front ++ taken ++ r.rest = front ++ s := by
      rw [List.append_assoc, ← (step_covers hne hstep).1]
    have hinside := (step_takes hstep).inside hm hhere
    rw [← hcover] at hinside ⊢
    refine ih hinside ?_ (map_eq_error.mp h)
    rw [hhere, ← Position.advance_append]

end Lexer

/-- The fault is that of a construct of the source, which stands between `before` and the end; the
line is the one it starts in, which the snippet shows, and the column counts bytes of that line. -/
structure LexFault.Pinned (source : String) (line : Nat) (snippet : Snippet)
    (before rest : List Char) (fault : LexFault) : Prop where
  split : source.toList = before ++ rest
  offends : fault.Offends rest
  line_eq : line = 1 + feeds before
  numbered : snippet.line = line
  column : snippet.column = 1 + (String.ofList (lastLine before)).utf8ByteSize
  shows : snippet.Shows (String.ofList (lineAround before rest))

namespace Token

theorem lex_fault {grammar : Grammar} {source file : String} {failure : Failure}
    (h : lex grammar source file = .error failure) :
    ∃ fault line snippet, failure = .lex fault file line (some snippet) ∧
      ∃ before rest, fault.Pinned source line snippet before rest := by
  rw [lex] at h
  split at h
  · next fault p hsegments =>
    cases h
    have hstart : Mode.text.Inside ([] ++ source.toList) := trivial
    have hin : Lexer.Fault.In source.toList (fault, p) := by
      cases grammar with
      | html | dynamic | inline => exact Lexer.segments_fault hstart rfl hsegments
      | host => cases hsegments
    obtain ⟨before, rest, hsource, hoffends, rfl⟩ := hin
    have hline : (Position.start.advance before).line = 1 + feeds before :=
      Position.line_advance _ _
    refine ⟨fault, _, _, rfl, before, rest, hsource, hoffends, hline, rfl,
      Position.column_advance before, ?_⟩
    rw [hline]
    exact Snippet.shows_ofSource hsource hoffends.ne_nil _
  · cases h

theorem isLine_of_mem_lex {grammar : Grammar} {source file : String} {tokens : List Token}
    (h : lex grammar source file = .ok tokens) {t : Token} (ht : t ∈ tokens) :
    IsLine source t.line := by
  obtain ⟨before, lexeme, rest, hsplit, hstarts, -⟩ := exists_split_of_mem_lex h ht
  rw [hstarts.line]
  exact isLine_of_append hsplit

end Token

end Lamina
