import Lamina.Arguments
import Lamina.Proofs.Token.Quoting

/-! Arguments split as a scanner with a stack would split them. The scanner reads a body once from
the left; it passes over string literals, puts opening brackets on its stack, takes them off when
they are closed and ends a value at every comma it meets with an empty stack. -/

namespace Lamina.Arguments

open Lamina.Text
open Scan (isQuote)

/-- Where a scan stands: in or out of a literal, the brackets that are open, the innermost first,
the values that have ended, and the one that has not. -/
structure Scanner where
  quoting : Scan.Quoting := .outside
  opened : List Char := []
  ended : List (List Char) := []
  current : List Char := []

namespace Scanner

/-- The open brackets after a character outside of literals. A closing bracket closes the innermost
open one, which has to be of its kind. -/
def reopen : List Char → Char → Option (List Char)
  | opened, '(' => some ('(' :: opened)
  | opened, '[' => some ('[' :: opened)
  | opened, '{' => some ('{' :: opened)
  | '(' :: opened, ')' => some opened
  | '[' :: opened, ']' => some opened
  | '{' :: opened, '}' => some opened
  | _, ')' => none
  | _, ']' => none
  | _, '}' => none
  | opened, _ => some opened

/-- One more character; there is no way on from a closing bracket that closes nothing. -/
def step (s : Scanner) (c : Char) : Option Scanner :=
  if s.quoting = .outside then
    if s.opened = [] ∧ c = ',' then some { s with ended := s.ended ++ [s.current], current := [] }
    else (reopen s.opened c).map fun opened =>
      { s with quoting := s.quoting.next c, opened, current := s.current ++ [c] }
  else some { s with quoting := s.quoting.next c, current := s.current ++ [c] }

def run (s : Scanner) (text : List Char) : Option Scanner := text.foldlM step s

/-- Nothing is open, neither a literal nor a bracket. -/
def Idle (s : Scanner) : Prop := s.quoting = .outside ∧ s.opened = []

instance (s : Scanner) : Decidable s.Idle :=
  inferInstanceAs (Decidable (s.quoting = .outside ∧ s.opened = []))

/-- The stretches of text between the commas that end values. -/
def stretches (s : Scanner) : List (List Char) := s.ended ++ [s.current]

theorem run_cons (s : Scanner) (c : Char) (text : List Char) :
    run s (c :: text) = (s.step c).bind fun s' => run s' text := by
  rw [run, List.foldlM_cons]
  rfl

theorem run_append (s : Scanner) (a b : List Char) :
    run s (a ++ b) = (run s a).bind fun s' => run s' b := by
  rw [run, List.foldlM_append]
  rfl

section Brackets

variable {c d close : Char} {opened : List Char}

theorem reopen_of_opening (h : closer? c = some close) : reopen opened c = some (c :: opened) := by
  unfold closer? at h
  split at h
  · rfl
  · rfl
  · rfl
  · cases h

theorem reopen_of_closing (h : closer? c = some close) :
    reopen (c :: opened) close = some opened := by
  unfold closer? at h
  split at h <;> cases h <;> rfl

theorem reopen_of_plain (h : isBracket c = false) : reopen opened c = some opened := by
  simp only [isBracket, Bool.or_eq_false_iff, beq_eq_false_iff_ne] at h
  obtain ⟨⟨⟨⟨⟨h₁, h₂⟩, h₃⟩, h₄⟩, h₅⟩, h₆⟩ := h
  unfold reopen
  split <;> simp_all

theorem reopen_of_stray (hbracket : isBracket d = true) (hclosing : closer? d = none)
    (h : ∀ c rest, opened = c :: rest → closer? c ≠ some d) : reopen opened d = none := by
  unfold reopen
  split
  · cases hclosing
  · cases hclosing
  · cases hclosing
  · exact absurd rfl (h _ _ rfl)
  · exact absurd rfl (h _ _ rfl)
  · exact absurd rfl (h _ _ rfl)
  · rfl
  · rfl
  · rfl
  · simp_all [isBracket]

end Brackets

theorem intercalate_concat (ended : List (List Char)) (current : List Char) :
    [','].intercalate (ended ++ [current]) = ended.flatMap (· ++ [',']) ++ current := by
  induction ended with
  | nil => exact List.intercalate_singleton
  | cons value ended ih =>
    obtain ⟨next, rest, hrest⟩ : ∃ next rest, ended ++ [current] = next :: rest := by
      cases ended <;> exact ⟨_, _, rfl⟩
    rw [hrest] at ih
    rw [List.cons_append, hrest, List.intercalate_cons_cons, ih, List.flatMap_cons]
    simp only [List.append_assoc]

theorem join_step {s s' : Scanner} {c : Char} (h : s.step c = some s') :
    [','].intercalate s'.stretches = [','].intercalate s.stretches ++ [c] := by
  rw [stretches, stretches, intercalate_concat, intercalate_concat]
  unfold step at h
  split at h
  · split at h
    · next hcomma =>
      cases h
      simp [hcomma.2]
    · obtain ⟨opened, -, rfl⟩ := Option.map_eq_some_iff.mp h
      simp
  · cases h
    simp

theorem join_run {s s' : Scanner} {text : List Char} (h : run s text = some s') :
    [','].intercalate s'.stretches = [','].intercalate s.stretches ++ text := by
  induction text generalizing s with
  | nil =>
    cases h
    rw [List.append_nil]
  | cons c text ih =>
    rw [run_cons] at h
    obtain ⟨t, ht, hrest⟩ := Option.bind_eq_some_iff.mp h
    rw [ih hrest, join_step ht, List.append_assoc]
    rfl

def outcome (s : Scanner) (text : List Char) : Option (List (List Char)) :=
  (run s text).bind fun s' => if s'.Idle then some s'.stretches else none

/-- The text leaves the scanner as it was, with `opened` brackets open, and ends no value. -/
def Passes (opened text : List Char) : Prop :=
  ∀ ended current, run ⟨.outside, opened, ended, current⟩ text =
    some ⟨.outside, opened, ended, current ++ text⟩

def Fails (opened text : List Char) : Prop :=
  ∀ ended current, outcome ⟨.outside, opened, ended, current⟩ text = none

theorem Passes.nil (opened : List Char) : Passes opened [] := by
  intro ended current
  rw [List.append_nil]
  rfl

theorem Passes.append {opened a b : List Char} (ha : Passes opened a) (hb : Passes opened b) :
    Passes opened (a ++ b) := by
  intro ended current
  rw [run_append, ha, Option.bind_some, hb, List.append_assoc]

theorem Passes.outcome_append {opened a : List Char} (ha : Passes opened a) (b : List Char)
    (ended : List (List Char)) (current : List Char) :
    outcome ⟨.outside, opened, ended, current⟩ (a ++ b) =
      outcome ⟨.outside, opened, ended, current ++ a⟩ b := by
  rw [outcome, run_append, ha]
  rfl

theorem Passes.fails_append {opened a b : List Char} (ha : Passes opened a) (hb : Fails opened b) :
    Fails opened (a ++ b) := by
  intro ended current
  rw [ha.outcome_append, hb]

theorem step_outside {opened opened' : List Char} {c : Char}
    (hreopen : reopen opened c = some opened') (hcomma : opened ≠ [] ∨ c ≠ ',')
    (ended : List (List Char)) (current : List Char) :
    step ⟨.outside, opened, ended, current⟩ c =
      some ⟨Scan.Quoting.outside.next c, opened', ended, current ++ [c]⟩ := by
  have hvalue : ¬ (opened = [] ∧ c = ',') := by
    rintro ⟨hopened, hc⟩
    exact hcomma.elim (· hopened) (· hc)
  rw [step, if_pos rfl, if_neg hvalue, hreopen]
  rfl

theorem Passes.plain {opened : List Char} {c : Char} (h : isPlain c = true)
    (hcomma : opened ≠ [] ∨ c ≠ ',') : Passes opened [c] := by
  simp only [isPlain, Bool.and_eq_true, Bool.not_eq_true'] at h
  intro ended current
  have hnext : Scan.Quoting.outside.next c = .outside := if_neg (ne_true_of_eq_false h.1)
  rw [run_cons, step_outside (reopen_of_plain h.2) hcomma, hnext]
  rfl

theorem Passes.inner (c : Char) (opened : List Char) (d : Char) (h : isPlain d = true) :
    Passes (c :: opened) [d] :=
  .plain h (.inl (List.cons_ne_nil c opened))

section Literals

variable {quote : Char} {s r : List Char}

theorem run_quoted {s : Scanner} (h : s.quoting ≠ .outside) (c : Char) (text : List Char) :
    run s (c :: text) =
      run { s with quoting := s.quoting.next c, current := s.current ++ [c] } text := by
  rw [run_cons, step, if_neg h]
  rfl

theorem ne_backslash_of_isQuote (h : isQuote quote = true) : quote ≠ '\\' := by
  rintro rfl
  cases h

theorem run_literal (hquote : isQuote quote = true) (h : afterLiteral quote s = some r) :
    ∃ front, s = front ++ r ∧ ∀ opened ended current,
      run ⟨.inside quote, opened, ended, current⟩ front =
        some ⟨.outside, opened, ended, current ++ front⟩ := by
  fun_induction afterLiteral quote s with
  | case1 => cases h
  | case2 c s ih =>
    obtain ⟨front, rfl, hrun⟩ := ih h
    refine ⟨'\\' :: c :: front, rfl, fun opened ended current => ?_⟩
    rw [run_quoted (by simp), run_quoted (by simp [Scan.Quoting.next, Scan.Quoting.inLiteral])]
    simpa [Scan.Quoting.next, Scan.Quoting.inLiteral] using hrun opened ended (current ++ ['\\', c])
  | case3 s =>
    cases h
    refine ⟨[quote], rfl, fun opened ended current => ?_⟩
    rw [run_quoted (by simp)]
    simp [Scan.Quoting.next, Scan.Quoting.inLiteral, ne_backslash_of_isQuote hquote, run]
  | case4 c s hescape hc ih =>
    obtain ⟨front, rfl, hrun⟩ := ih h
    refine ⟨c :: front, rfl, fun opened ended current => ?_⟩
    have hplain : c ≠ '\\' := by
      rintro rfl
      cases hs : front ++ r with
      | nil => rw [hs] at h; cases h
      | cons d t => exact hescape d t rfl hs
    rw [run_quoted (by simp)]
    simpa [Scan.Quoting.next, Scan.Quoting.inLiteral, hplain, hc] using
      hrun opened ended (current ++ [c])

theorem run_unterminated (h : afterLiteral quote s = none)
    (opened : List Char) (ended : List (List Char)) (current : List Char) :
    outcome ⟨.inside quote, opened, ended, current⟩ s = none := by
  fun_induction afterLiteral quote s generalizing current with
  | case1 => rfl
  | case2 c s ih =>
    rw [outcome, run_quoted (by simp),
      run_quoted (by simp [Scan.Quoting.next, Scan.Quoting.inLiteral])]
    exact ih h _
  | case3 => cases h
  | case4 c s hescape hc ih =>
    rw [outcome, run_quoted (by simp)]
    by_cases hplain : c = '\\'
    · subst hplain
      cases s with
      | nil => rfl
      | cons d t => exact absurd rfl (hescape d t rfl)
    · simpa [Scan.Quoting.next, Scan.Quoting.inLiteral, hplain, hc, outcome] using ih h _

end Literals

section Items

variable {plain : Char → Bool} {c : Char} {s r : List Char}

theorem afterItem_eq_some_iff : (afterItem plain (c :: s)).map Subtype.val = some r ↔
    (isQuote c = true ∧ afterLiteral c s = some r) ∨
    (isQuote c = false ∧ ∃ close, closer? c = some close ∧ (afterItems isPlain s).1 = close :: r) ∨
    (isQuote c = false ∧ closer? c = none ∧ plain c = true ∧ s = r) := by
  rw [afterItem]
  cases hq : isQuote c with
  | true =>
    simp only [if_true]
    split
    · next r' hr => simp [hr]
    · next hr => simp [hr]
  | false =>
    simp only [Bool.false_eq_true, if_false, false_and, false_or, true_and]
    cases hclose : closer? c with
    | some close =>
      simp only [Option.some.injEq, exists_eq_left', reduceCtorEq, false_and, or_false]
      rcases hitems : afterItems isPlain s with ⟨_ | ⟨d, rest⟩, hlen⟩
      · simp
      · by_cases hd : d = close
        · simp [hd]
        · simp [hd]
    | none =>
      simp only [reduceCtorEq, false_and, exists_false, false_or, true_and]
      by_cases hp : plain c = true
      · simp only [hp, if_true, Option.map_some, Option.some.injEq, true_and]
      · simp only [hp, if_false, Option.map_none, reduceCtorEq, false_and]

theorem afterItems_of_some (h : (afterItem plain s).map Subtype.val = some r) :
    (afterItems plain s).1 = (afterItems plain r).1 := by
  rw [afterItems]
  rcases hitem : afterItem plain s with _ | ⟨r', hlen⟩
  · rw [hitem] at h
    cases h
  · rw [hitem] at h
    cases h
    rfl

theorem afterItems_of_none (h : (afterItem plain s).map Subtype.val = none) :
    (afterItems plain s).1 = s := by
  rw [afterItems, Option.map_eq_none_iff.mp h]

theorem next_of_closer? {close : Char} (h : closer? c = some close) :
    Scan.Quoting.outside.next c = .outside ∧ Scan.Quoting.outside.next close = .outside ∧
      c ≠ ',' := by
  unfold closer? at h
  split at h <;> cases h <;> decide

theorem Passes.group {opened front : List Char} {close : Char} (h : closer? c = some close)
    (hfront : Passes (c :: opened) front) : Passes opened (c :: (front ++ [close])) := by
  obtain ⟨hopen, hclose, hcomma⟩ := next_of_closer? h
  intro ended current
  rw [run_cons, step_outside (reopen_of_opening h) (.inr hcomma), hopen, Option.bind_some,
    run_append, hfront, Option.bind_some, run_cons,
    step_outside (reopen_of_closing h) (.inl (List.cons_ne_nil _ _)), hclose]
  simp [run]

theorem step_quote {opened : List Char} (h : isQuote c = true) (ended : List (List Char))
    (current : List Char) : step ⟨.outside, opened, ended, current⟩ c =
      some ⟨.inside c, opened, ended, current ++ [c]⟩ := by
  have hquote : c = '"' ∨ c = '\'' := by simpa [isQuote] using h
  have hreopen : reopen opened c = some opened := by
    rcases hquote with rfl | rfl <;> exact reopen_of_plain rfl
  have hcomma : c ≠ ',' := by
    rintro rfl
    cases h
  have hnext : Scan.Quoting.outside.next c = .inside c := if_pos h
  rw [step_outside hreopen (.inr hcomma), hnext]

/-- The scanner passes over as many items as there are, and what follows does not start with one. -/
theorem exists_passes {plain : Char → Bool} {opened : List Char}
    (hplain : ∀ c, plain c = true → Passes opened [c]) (s : List Char) :
    ∃ front, s = front ++ (afterItems plain s).1 ∧ Passes opened front ∧
      (afterItem plain (afterItems plain s).1).map Subtype.val = none := by
  cases hitem : (afterItem plain s).map Subtype.val with
  | none =>
    rw [afterItems_of_none hitem]
    exact ⟨[], rfl, .nil opened, hitem⟩
  | some r =>
    match s, hitem with
    | [], hitem =>
      rw [afterItem] at hitem
      cases hitem
    | c :: s, hitem =>
      -- one item, and then as many as follow it
      have hfirst : ∃ item, c :: s = item ++ r ∧ item ≠ [] ∧ Passes opened item := by
        rcases afterItem_eq_some_iff.mp hitem with ⟨hq, hliteral⟩ | ⟨-, close, hclose, hgroup⟩ |
          ⟨-, -, hp, rfl⟩
        · obtain ⟨front, rfl, hrun⟩ := run_literal hq hliteral
          refine ⟨c :: front, rfl, List.cons_ne_nil _ _, fun ended current => ?_⟩
          rw [run_cons, step_quote hq, Option.bind_some, hrun, List.append_assoc]
          rfl
        · obtain ⟨front, hs, hpasses, -⟩ := exists_passes (Passes.inner c opened) s
          rw [hgroup] at hs
          exact ⟨c :: (front ++ [close]), by simp [hs], List.cons_ne_nil _ _, hpasses.group hclose⟩
        · exact ⟨[c], rfl, List.cons_ne_nil _ _, hplain c hp⟩
      obtain ⟨item, hitems, hne, hpasses⟩ := hfirst
      have hlen : r.length < (c :: s).length := by
        have := List.length_pos_iff.mpr hne
        rw [hitems, List.length_append]
        omega
      obtain ⟨front, hr, hfront, hend⟩ := exists_passes hplain r
      rw [afterItems_of_some hitem]
      exact ⟨item ++ front, by rw [hitems, List.append_assoc, ← hr], hpasses.append hfront, hend⟩
termination_by s.length
decreasing_by
  · exact Nat.lt_succ_self _
  · exact hlen

theorem bracket_of_none (h : (afterItem plain (c :: s)).map Subtype.val = none)
    (hstart : ¬ (isQuote c = true ∨ closer? c ≠ none))
    (hplain : isPlain c = true → plain c = true) :
    isBracket c = true ∧ closer? c = none := by
  obtain ⟨hq, hclosing⟩ := not_or.mp hstart
  have hclosing := not_not.mp hclosing
  have hnot : isPlain c ≠ true := fun hp =>
    mt afterItem_eq_some_iff.mpr (Option.eq_none_iff_forall_ne_some.mp h s)
      (.inr (.inr ⟨eq_false_of_ne_true hq, hclosing, hplain hp, rfl⟩))
  exact ⟨by simpa [isPlain, hq] using hnot, hclosing⟩

theorem Fails.stray {opened : List Char} (hbracket : isBracket c = true)
    (hclosing : closer? c = none) (h : ∀ d rest, opened = d :: rest → closer? d ≠ some c) :
    Fails opened (c :: s) := by
  have hcomma : c ≠ ',' := by
    rintro rfl
    cases hbracket
  intro ended current
  rw [outcome, run_cons, step, if_pos rfl, if_neg (fun h => hcomma h.2),
    reopen_of_stray hbracket hclosing h]
  rfl

theorem fails_of_start {plain : Char → Bool} {c : Char} {s : List Char}
    (hstart : isQuote c = true ∨ closer? c ≠ none)
    (h : (afterItem plain (c :: s)).map Subtype.val = none) (opened : List Char) :
    Fails opened (c :: s) := by
  have hnone := fun r => mt afterItem_eq_some_iff.mpr (Option.eq_none_iff_forall_ne_some.mp h r)
  cases hq : isQuote c with
  | true =>
    have hliteral : afterLiteral c s = none :=
      Option.eq_none_iff_forall_ne_some.mpr fun r hr => hnone r (.inl ⟨hq, hr⟩)
    intro ended current
    rw [outcome, run_cons, step_quote hq, Option.bind_some]
    exact run_unterminated hliteral opened ended _
  | false =>
    obtain ⟨close, hclose⟩ : ∃ close, closer? c = some close :=
      Option.ne_none_iff_exists'.mp (hstart.resolve_left (by simp [hq]))
    obtain ⟨hnext, -, hcomma⟩ := next_of_closer? hclose
    obtain ⟨front, hs, hpasses, hend⟩ := exists_passes (Passes.inner c opened) s
    -- the group is still open where its items end
    have hrest : Fails (c :: opened) (afterItems isPlain s).1 := by
      match hr : (afterItems isPlain s).1 with
      | [] => exact fun ended current => by simp [outcome, run, Idle]
      | d :: t =>
        rw [hr] at hs hend
        by_cases hd : isQuote d = true ∨ closer? d ≠ none
        · have hlen : t.length < s.length := by
            rw [hs]
            simp
            omega
          exact fails_of_start hd hend _
        · obtain ⟨hbracket, hclosing⟩ := bracket_of_none hend hd id
          refine Fails.stray hbracket hclosing ?_
          rintro d' rest heq hd'
          obtain ⟨rfl, -⟩ := List.cons.inj heq
          cases hclose.symm.trans hd'
          exact hnone t (.inr (.inl ⟨hq, _, hclose, hr⟩))
    have hall := hpasses.fails_append hrest
    rw [← hs] at hall
    intro ended current
    rw [outcome, run_cons, step_outside (reopen_of_opening hclose) (.inr hcomma), hnext]
    exact hall ended _
termination_by s.length
decreasing_by exact hlen

end Items

theorem outcome_eq_segments (s : List Char) (ended : List (List Char)) :
    outcome ⟨.outside, [], ended, []⟩ s = (segments s).map (ended ++ ·) := by
  have hplain (c : Char) (hc : (isPlain c && c != ',') = true) : Passes [] [c] := by
    rw [Bool.and_eq_true, bne_iff_ne] at hc
    exact .plain hc.1 (.inr hc.2)
  obtain ⟨front, hs, hpasses, hend⟩ := exists_passes hplain s
  rw [segments]
  rcases hitems : afterItems (fun c => isPlain c && c != ',') s with ⟨_ | ⟨c, r⟩, hlen⟩
  · rw [hitems, List.append_nil] at hs
    subst hs
    have hout := hpasses.outcome_append [] ended []
    rw [List.append_nil] at hout
    rw [hout]
    rfl
  · rw [hitems] at hs hend
    dsimp only at hs hend ⊢
    have hout := hpasses.outcome_append (c :: r) ended []
    rw [← hs, List.nil_append] at hout
    by_cases hc : c = ','
    · subst hc
      have hfront : s.take (s.length - (r.length + 1)) = front := by
        conv => lhs; arg 2; rw [hs]
        simp [hs]
      have hr : r.length < s.length := by
        simp only [List.length_cons] at hlen
        omega
      rw [hout, if_pos rfl, hfront, Option.map_map]
      exact (outcome_eq_segments r (ended ++ [front])).trans (by simp [Function.comp_def])
    · rw [hout, if_neg hc]
      by_cases hstart : isQuote c = true ∨ closer? c ≠ none
      · exact fails_of_start hstart hend [] ended front
      · obtain ⟨hbracket, hclosing⟩ := bracket_of_none hend hstart fun hp => by simp [hp, hc]
        refine Fails.stray hbracket hclosing (fun _ _ h => ?_) ended front
        cases h
termination_by s.length
decreasing_by exact hr

theorem segments_eq_some_iff {body : List Char} {values : List (List Char)} :
    segments body = some values ↔ ∃ s, run {} body = some s ∧ s.Idle ∧ s.stretches = values := by
  have hscan := outcome_eq_segments body []
  simp only [List.nil_append, Option.map_id'] at hscan
  rw [← hscan, outcome, Option.bind_eq_some_iff]
  refine exists_congr fun s => and_congr_right fun _ => ?_
  rw [Option.ite_none_right_eq_some, Option.some.injEq]

end Scanner

/-- A body splits into values exactly if it is blank or a scanner reads it to its end with nothing
left open. A blank body has no values; the values of another one are the stretches that the scanner
has found, trimmed. Joined by commas the stretches are the body again. -/
theorem split_is_a_bracket_scan (body : String) :
    ((∃ values, split body = .ok values) ↔
      allBlank body.toList = true ∨ ∃ s, Scanner.run {} body.toList = some s ∧ s.Idle) ∧
    (allBlank body.toList = true → split body = .ok []) ∧
    ∀ s, Scanner.run {} body.toList = some s →
      [','].intercalate s.stretches = body.toList ∧
      (s.Idle → allBlank body.toList = false →
        split body = .ok (s.stretches.map fun stretch => String.ofList (trim stretch))) := by
  have hblank (hb : allBlank body.toList = true) : split body = .ok [] := by rw [split, if_pos hb]
  have hvalues (s : Scanner) (hrun : Scanner.run {} body.toList = some s) (hidle : s.Idle)
      (hb : allBlank body.toList = false) :
      split body = .ok (s.stretches.map fun stretch => String.ofList (trim stretch)) := by
    rw [split, if_neg (ne_true_of_eq_false hb),
      Scanner.segments_eq_some_iff.mpr ⟨s, hrun, hidle, rfl⟩]
  refine ⟨⟨?_, ?_⟩, hblank, fun s hrun => ⟨Scanner.join_run hrun, hvalues s hrun⟩⟩
  · rintro ⟨values, hsplit⟩
    by_cases hb : allBlank body.toList = true
    · exact .inl hb
    · rw [split, if_neg hb] at hsplit
      split at hsplit
      · cases hsplit
      · next stretches hstretches =>
        obtain ⟨s, hrun, hidle, -⟩ := Scanner.segments_eq_some_iff.mp hstretches
        exact .inr ⟨s, hrun, hidle⟩
  · rintro (hb | ⟨s, hrun, hidle⟩)
    · exact ⟨[], hblank hb⟩
    · by_cases hb : allBlank body.toList = true
      · exact ⟨[], hblank hb⟩
      · exact ⟨_, hvalues s hrun hidle (eq_false_of_ne_true hb)⟩

/-- A comma and an escaped quote in a literal, brackets in brackets, and nothing behind the last
comma. -/
theorem split_is_a_bracket_scan_call :
    split "'a, \\'(', \x7bx, (1, 2)\x7d," = .ok ["'a, \\'('", "\x7bx, (1, 2)\x7d", ""] := by
  have hscan := (split_is_a_bracket_scan "'a, \\'(', \x7bx, (1, 2)\x7d,").2.2
    ⟨.outside, [], ["'a, \\'('".toList, " \x7bx, (1, 2)\x7d".toList], []⟩ rfl
  exact hscan.2 ⟨rfl, rfl⟩ (by decide)

end Lamina.Arguments
