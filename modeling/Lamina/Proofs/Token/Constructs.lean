import Lamina.Proofs.Token.Escapes
import Lamina.Proofs.Token.Known

/-! Where constructs start, and what becomes of an attribute that is written out. A quoted text is
read as it stands exactly if no construct starts in it; otherwise the segments of the source stand
for fewer characters than the source has. -/

namespace Lamina

open Lamina.Text

namespace Lexer

variable {before : Option Char} {s : List Char}

def StartsDirective (s : List Char) : Prop :=
  ∃ c rest, s = '@' :: c :: rest ∧ Scan.isIdentStart c = true

/-- A slot that has a name and is closed. -/
def StartsSlot (s : List Char) : Prop :=
  ∃ inner rest, s = "$\x7b".toList ++ (inner ++ '}' :: rest) ∧ '}' ∉ inner ∧
    (Scan.slot? inner).isSome = true

/-- A construct or an escape starts here, behind the character `before`. -/
inductive Starts (before : Option Char) (s : List Char) : Prop
  | host (h : "<?lua".toList <+: s)
  | unescaped (h : "\x7b!!".toList <+: s)
  | escaped (h : "\x7b\x7b".toList <+: s)
  | escape (h : Escapes s)
  | directive (free : isAttached before = false) (h : StartsDirective s)
  | slot (h : StartsSlot s)

theorem host_eq_none_iff : host s = .ok none ↔ ¬ "<?lua".toList <+: s := by
  rw [← isPrefixOf?_eq_none_iff, host]
  cases hd : "<?lua".toList.isPrefixOf? s with
  | none => simp
  | some body =>
    dsimp only
    cases cut "?>".toList body <;> simp

theorem note_eq_none_iff : note s = .ok none ↔ ¬ "\x7b\x7b--".toList <+: s := by
  rw [← isPrefixOf?_eq_none_iff, note]
  cases hd : "\x7b\x7b--".toList.isPrefixOf? s with
  | none => simp
  | some body =>
    dsimp only
    cases cut "--\x7d\x7d".toList s <;> simp

theorem echo_eq_none_iff {opening closing : List Char} {escape : Bool} :
    echo opening closing escape s = .ok none ↔ ¬ opening <+: s := by
  rw [← isPrefixOf?_eq_none_iff, echo]
  cases hd : opening.isPrefixOf? s with
  | none => simp
  | some body =>
    dsimp only
    cases Scan.delimited closing .outside 0 body <;> simp

theorem escapedText_eq_none_iff : escapedText s = none ↔ ¬ Escapes s := by
  rw [Escapes, not_or, ← isPrefixOf?_eq_none_iff, ← isPrefixOf?_eq_none_iff, escapedText]
  cases hat : "@@".toList.isPrefixOf? s with
  | some => simp
  | none => cases "@\x7b\x7b".toList.isPrefixOf? s <;> simp

theorem directive_eq_none_iff :
    directive before s = .ok none ↔ ¬ (isAttached before = false ∧ StartsDirective s) := by
  rw [directive]
  cases hd : ['@'].isPrefixOf? s with
  | none =>
    have hat := isPrefixOf?_eq_none_iff.mp hd
    simp only [true_iff]
    rintro ⟨-, c, rest, rfl, -⟩
    exact hat ⟨c :: rest, rfl⟩
  | some after =>
    obtain rfl : s = '@' :: after := isPrefixOf?_eq_some.mp hd
    cases hb : isAttached before with
    | true => simp
    | false =>
      cases after with
      | nil => simp [Scan.ident?, StartsDirective]
      | cons c after =>
        by_cases hc : Scan.isIdentStart c = true
        · have hstarts : StartsDirective ('@' :: c :: after) := ⟨c, after, rfl, hc⟩
          simp only [Bool.false_eq_true, if_false, Scan.ident?, hc, if_true, hstarts, and_self,
            not_true_eq_false, iff_false]
          split
          · simp
          · split <;> simp
        · have hstarts : ¬ StartsDirective ('@' :: c :: after) := by
            rintro ⟨d, rest, hd, hident⟩
            cases hd
            exact hc hident
          simp [Scan.ident?, hc, hstarts]

theorem startsDynamic_iff : startsDynamic s = true ↔ "\x7b\x7b".toList <+: s ∨
    "\x7b!!".toList <+: s ∨ "<?lua".toList <+: s ∨ StartsDirective s := by
  unfold startsDynamic
  simp only [Bool.or_eq_true, List.isPrefixOf_iff_prefix, or_assoc]
  refine or_congr_right (or_congr_right (or_congr_right ?_))
  split
  · next after =>
    cases after with
    | nil => simp [Scan.ident?, StartsDirective]
    | cons c after =>
      by_cases hc : Scan.isIdentStart c = true <;> simp [Scan.ident?, StartsDirective, hc]
  · next hat =>
    simp only [Bool.false_eq_true, false_iff]
    rintro ⟨c, rest, rfl, -⟩
    exact hat _ rfl

theorem slot_eq_none_iff : slot s = none ↔ ¬ StartsSlot s := by
  rw [slot]
  cases hd : "$\x7b".toList.isPrefixOf? s with
  | none =>
    have hopen := isPrefixOf?_eq_none_iff.mp hd
    simp only [true_iff]
    rintro ⟨inner, rest, rfl, -⟩
    exact hopen ⟨_, rfl⟩
  | some body =>
    obtain rfl : s = "$\x7b".toList ++ body := isPrefixOf?_eq_some.mp hd
    have hbody {inner rest : List Char} (h : "$\x7b".toList ++ body =
        "$\x7b".toList ++ (inner ++ '}' :: rest)) : body = inner ++ '}' :: rest :=
      List.append_cancel_left h
    dsimp only
    cases hc : cut ['}'] body with
    | none =>
      simp only [true_iff]
      rintro ⟨inner, rest, heq, hinner, -⟩
      rw [hbody heq, cut_append_sep hinner] at hc
      cases hc
    | some found =>
      obtain ⟨inner, rest⟩ := found
      have hsplit := cut_eq_some hc
      have hinner := not_mem_of_cut hc
      have hstarts : StartsSlot ("$\x7b".toList ++ body) ↔ (Scan.slot? inner).isSome = true := by
        constructor
        · rintro ⟨inner', rest', heq, hinner', hslot⟩
          rw [hbody heq, cut_append_sep hinner'] at hc
          cases hc
          exact hslot
        · intro hslot
          refine ⟨inner, rest, ?_, hinner, hslot⟩
          rw [hsplit, List.append_assoc]
          rfl
      rw [hstarts]
      dsimp only
      cases Scan.slot? inner <;> simp

theorem orTry_eq_none_iff {α : Type} {first : Except LexFault (Option α)}
    {next : Unit → Except LexFault (Option α)} :
    orTry first next = .ok none ↔ first = .ok none ∧ next () = .ok none := by
  refine ⟨orTry_eq_none, fun ⟨hfirst, hnext⟩ => ?_⟩
  rw [hfirst]
  exact hnext

theorem dynamic_eq_none_iff : dynamic true before s = .ok none ↔ ¬ Starts before s := by
  simp only [dynamic, orTry_eq_none_iff, host_eq_none_iff, note_eq_none_iff, echo_eq_none_iff,
    if_true, Except.ok.injEq, escapedText_eq_none_iff, directive_eq_none_iff, slot_eq_none_iff]
  constructor
  · rintro ⟨hhost, -, hraw, hecho, hescape, hdirective, hslot⟩ h
    cases h with
    | host h => exact hhost h
    | unescaped h => exact hraw h
    | escaped h => exact hecho h
    | escape h => exact hescape h
    | directive free h => exact hdirective ⟨free, h⟩
    | slot h => exact hslot h
  · intro h
    have hnote : ¬ "\x7b\x7b--".toList <+: s := fun hp =>
      h (.escaped (List.IsPrefix.trans (by decide) hp))
    exact ⟨fun hp => h (.host hp), hnote, fun hp => h (.unescaped hp), fun hp => h (.escaped hp),
      fun hp => h (.escape hp), fun hp => h (.directive hp.1 hp.2), fun hp => h (.slot hp)⟩

theorem Starts.exists_head (h : Starts before s) :
    ∃ c more, s = c :: more ∧ textSpecial c = true := by
  have hfront {c : Char} {p : List Char} (hc : textSpecial c = true) (hp : c :: p <+: s) :
      ∃ c more, s = c :: more ∧ textSpecial c = true := by
    obtain ⟨more, rfl⟩ := hp
    exact ⟨c, p ++ more, rfl, hc⟩
  cases h with
  | host h => exact hfront (by decide) h
  | unescaped h => exact hfront (by decide) h
  | escaped h => exact hfront (by decide) h
  | escape h => exact h.elim (hfront (by decide)) (hfront (by decide))
  | directive _ h =>
    obtain ⟨c, more, rfl, -⟩ := h
    exact ⟨'@', c :: more, rfl, by decide⟩
  | slot h =>
    obtain ⟨inner, more, rfl, -⟩ := h
    exact ⟨'$', _, rfl, by decide⟩

section Quote

variable {quote : Char} {tail u v w : List Char}

theorem eq_of_isQuote (h : Scan.isQuote quote = true) : quote = '"' ∨ quote = '\'' := by
  simpa [Scan.isQuote] using h

theorem prefix_append_cons_iff {p : List Char} (hp : quote ∉ p) :
    p <+: v ++ quote :: tail ↔ p <+: v := by
  induction p generalizing v with
  | nil => simp
  | cons c p ih =>
    obtain ⟨hc, hp⟩ := not_or.mp (List.mem_cons.not.mp hp)
    cases v with
    | nil => simp [Ne.symm hc]
    | cons d v => rw [List.cons_append, List.cons_prefix_cons, List.cons_prefix_cons, ih hp]

theorem startsSlot_append_iff (htail : '}' ∉ tail) : StartsSlot (v ++ tail) ↔ StartsSlot v := by
  constructor
  · rintro ⟨inner, rest, heq, hinner, hslot⟩
    have hfront : '}' ∉ "$\x7b".toList ++ inner := by simp [hinner]
    have hmem : '}' ∈ v := by
      have hall : '}' ∈ v ++ tail := by
        rw [heq]
        simp
      exact (List.mem_append.mp hall).resolve_right htail
    -- the slot is closed by the first brace, and that is not in the tail
    obtain ⟨a, b, rfl, ha⟩ := List.eq_append_cons_of_mem hmem
    rw [List.append_assoc, List.cons_append, ← List.append_assoc] at heq
    obtain ⟨rfl, -⟩ := eq_of_append_sep ha hfront heq
    exact ⟨inner, b, List.append_assoc _ _ _, hinner, hslot⟩
  · rintro ⟨inner, rest, rfl, hinner, hslot⟩
    exact ⟨inner, rest ++ tail, by simp, hinner, hslot⟩

theorem startsDirective_append_iff (hq : Scan.isIdentStart quote = false) (hat : quote ≠ '@') :
    StartsDirective (v ++ quote :: tail) ↔ StartsDirective v := by
  rcases v with _ | ⟨c, _ | ⟨d, v⟩⟩
  · simp [StartsDirective, hat]
  · simp [StartsDirective, hq]
  · simp [StartsDirective]

theorem starts_append_iff (hq : Scan.isQuote quote = true) (htail : '}' ∉ tail) :
    Starts before (v ++ quote :: tail) ↔ Starts before v := by
  have hquote := eq_of_isQuote hq
  have hident : Scan.isIdentStart quote = false := by rcases hquote with rfl | rfl <;> decide
  have hat : quote ≠ '@' := by rcases hquote with rfl | rfl <;> decide
  have hbrace : '}' ∉ quote :: tail := by rcases hquote with rfl | rfl <;> simp [htail]
  have hhost : quote ∉ "<?lua".toList := by rcases hquote with rfl | rfl <;> decide
  have hraw : quote ∉ "\x7b!!".toList := by rcases hquote with rfl | rfl <;> decide
  have hecho : quote ∉ "\x7b\x7b".toList := by rcases hquote with rfl | rfl <;> decide
  have hsigns : quote ∉ "@@".toList := by rcases hquote with rfl | rfl <;> decide
  have hbraces : quote ∉ "@\x7b\x7b".toList := by rcases hquote with rfl | rfl <;> decide
  have hescapes : Escapes (v ++ quote :: tail) ↔ Escapes v := by
    rw [Escapes, Escapes, prefix_append_cons_iff hsigns, prefix_append_cons_iff hbraces]
  constructor
  · intro h
    cases h with
    | host h => exact .host ((prefix_append_cons_iff hhost).mp h)
    | unescaped h => exact .unescaped ((prefix_append_cons_iff hraw).mp h)
    | escaped h => exact .escaped ((prefix_append_cons_iff hecho).mp h)
    | escape h => exact .escape (hescapes.mp h)
    | directive free h => exact .directive free ((startsDirective_append_iff hident hat).mp h)
    | slot h => exact .slot ((startsSlot_append_iff hbrace).mp h)
  · intro h
    cases h with
    | host h => exact .host ((prefix_append_cons_iff hhost).mpr h)
    | unescaped h => exact .unescaped ((prefix_append_cons_iff hraw).mpr h)
    | escaped h => exact .escaped ((prefix_append_cons_iff hecho).mpr h)
    | escape h => exact .escape (hescapes.mpr h)
    | directive free h => exact .directive free ((startsDirective_append_iff hident hat).mpr h)
    | slot h => exact .slot ((startsSlot_append_iff hbrace).mpr h)

theorem getLast?_toList (o : Option Char) : o.toList.getLast? = o := by
  cases o <;> rfl

theorem getLast?_behind {run : List Char} (hrun : run ≠ []) (a : List Char) :
    (run.getLast?.toList ++ a).getLast? = (before.toList ++ (run ++ a)).getLast? := by
  obtain ⟨c, hc⟩ := Option.isSome_iff_exists.mp (List.getLast?_isSome.mpr hrun)
  rw [List.getLast?_append, List.getLast?_append, List.getLast?_append, getLast?_toList, hc]
  cases a.getLast? <;> rfl

theorem takeWhile_append_special (p : Char → Bool) {c : Char} (hc : p c = false)
    (s more : List Char) : (s ++ c :: more).takeWhile p = s.takeWhile p ∧
      (s ++ c :: more).dropWhile p = s.dropWhile p ++ c :: more := by
  induction s with
  | nil => simp [hc]
  | cons d s ih =>
    by_cases hd : p d = true
    · simp [hd, ih]
    · simp [hd]

theorem span_append_cons {p : Char → Bool} {c : Char} {s : List Char} (hs : ∀ d ∈ s, p d = true)
    (hc : p c = false) (more : List Char) :
    (s ++ c :: more).takeWhile p = s ∧ (s ++ c :: more).dropWhile p = c :: more := by
  rw [List.takeWhile_append_of_pos hs, List.dropWhile_append_of_pos hs]
  simp [hc]

theorem step_of_not_starts {c d : Char} {more : List Char} (hc : quote ≠ c)
    (hd : valueSpecial quote d = true) (hnot : ¬ Starts before (c :: u ++ d :: more))
    (name : String) (start opened here : Position) :
    step true (.value name start quote opened) here before (c :: u ++ d :: more) =
      .ok ⟨[.verbatim (c :: u.takeWhile (!valueSpecial quote ·))], .value name start quote opened,
        u.dropWhile (!valueSpecial quote ·) ++ d :: more⟩ := by
  have hstop : (!valueSpecial quote d) = false := by rw [hd]; rfl
  obtain ⟨htake, hdrop⟩ := takeWhile_append_special (!valueSpecial quote ·) hstop u more
  have hnone : dynamic true before (c :: (u ++ d :: more)) = .ok none :=
    dynamic_eq_none_iff.mpr hnot
  rw [step, valueStep]
  simp only [List.cons_append, List.isPrefixOf?, beq_iff_eq, hc, if_false, hnone, rawStep, rawRun,
    htake, hdrop]
  rfl

theorem segments_of_free (hq : quote ∉ u)
    (hw : ∃ c more, w = c :: more ∧ valueSpecial quote c = true)
    (hfree : ∀ a b, u = a ++ b → b ≠ [] → ¬ Starts (before.toList ++ a).getLast? (b ++ w))
    (name : String) (start opened here : Position) :
    ∃ list here', Segment.Literally list u ∧
      segments true (.value name start quote opened) here before (u ++ w) =
        (segments true (.value name start quote opened) here' (before.toList ++ u).getLast? w).map
          (list ++ ·) := by
  induction hlen : u.length using Nat.strongRecOn generalizing u before here with
  | ind n ih =>
    cases u with
    | nil =>
      refine ⟨[], here, .nil, ?_⟩
      rw [List.nil_append, List.append_nil, getLast?_toList]
      cases segments true (.value name start quote opened) here before w <;> rfl
    | cons c u =>
      obtain ⟨d, more, rfl, hd⟩ := hw
      have hc : quote ≠ c := fun hc => hq (hc ▸ List.mem_cons_self)
      have hhere := hfree [] (c :: u) rfl (List.cons_ne_nil _ _)
      rw [List.append_nil, getLast?_toList] at hhere
      have hstep := step_of_not_starts hc hd hhere name start opened here
      let run := c :: u.takeWhile (!valueSpecial quote ·)
      let after := u.dropWhile (!valueSpecial quote ·)
      have hsplit : c :: u = run ++ after := by
        rw [List.cons_append, List.takeWhile_append_dropWhile]
      have hrun : run ≠ [] := List.cons_ne_nil _ _
      have hlt : after.length < n := by
        have := List.length_pos_iff.mpr hrun
        rw [← hlen, hsplit, List.length_append]
        omega
      have hq' : quote ∉ after := fun hm => hq (hsplit ▸ List.mem_append_right _ hm)
      have hfree' : ∀ a b, after = a ++ b → b ≠ [] →
          ¬ Starts (run.getLast?.toList ++ a).getLast? (b ++ d :: more) := by
        intro a b hab hb
        rw [getLast?_behind hrun]
        refine hfree (run ++ a) b ?_ hb
        rw [hsplit, hab, List.append_assoc]
      obtain ⟨list, here', hlist, hrest⟩ := ih after.length hlt hq' hfree'
        (here.advance (Segment.source [.verbatim run])) rfl
      refine ⟨.verbatim run :: list, here', ?_, ?_⟩
      · rw [hsplit]
        exact .cons run run hlist
      · have hsource : Segment.source [.verbatim run] = run := List.append_nil run
        have hne : c :: u ++ d :: more ≠ [] := by simp
        rw [segments_of_step hne hstep]
        dsimp only
        rw [hsource] at hrest ⊢
        rw [hrest, getLast?_behind hrun, ← hsplit]
        cases segments true (.value name start quote opened) here' _ (d :: more) <;> rfl

end Quote

end Lexer

/-- The characters of the source that a token accounts for; literal text is counted elsewhere. -/
def TokenKind.size : TokenKind → Nat
  | tagOpen name => name.toList.length + 1
  | attrName name => name.toList.length
  | valueStart _ | valueEnd => 1
  | selfClose => 2
  | slot _ content => content.elim 0 fun text => text.toList.length
  | raw | unquoted _ | tagEnd | tagClose _ | echo .. | directive .. | host _ => 0

namespace Segment

def size : Segment → Nat
  | token kind _ _ => kind.size
  | literal _ text => text.length
  | gap _ => 0

def sizes : List Segment → Nat
  | [] => 0
  | segment :: list => segment.size + sizes list

theorem sizes_append (a b : List Segment) : sizes (a ++ b) = sizes a + sizes b := by
  induction a with
  | nil => exact (Nat.zero_add _).symm
  | cons segment a ih => rw [List.cons_append, sizes, sizes, ih, Nat.add_assoc]

end Segment

namespace Lexer

variable {before : Option Char} {s rest : List Char}

theorem Markup.size_le {segment : Segment} (h : Markup segment) :
    segment.size ≤ segment.lexeme.length := by
  cases h <;> simp [Segment.size, TokenKind.size, Segment.lexeme]

theorem directive_size {segment : Segment} (h : directive before s = .ok (some (segment, rest))) :
    segment.size + 2 ≤ segment.lexeme.length := by
  unfold directive at h
  split at h
  · cases h
  · split at h
    · cases h
    · next ident after hident =>
      have hne : ident ≠ [] := by
        split at hident
        · cases hident
        · exact (Scan.ident?_eq_some hident).2
      have hpos := List.length_pos_iff.mpr hne
      split at h
      · cases h
        simp only [Segment.size, TokenKind.size, Segment.lexeme, List.length_cons]
        omega
      · split at h
        · cases h
        · cases h
          simp only [Segment.size, TokenKind.size, Segment.lexeme, List.length_append,
            List.length_cons]
          omega

theorem length_slot? {inner ident content : List Char}
    (h : Scan.slot? inner = some (ident, some content)) : content.length < inner.length := by
  unfold Scan.slot? at h
  cases hc : cut ['|'] inner with
  | none =>
    rw [hc] at h
    dsimp only at h
    split at h <;> cases h
  | some found =>
    rw [hc] at h
    dsimp only at h
    have hinner := cut_eq_some hc
    split at h
    · cases h
      rw [hinner]
      simp only [List.length_append, List.length_cons, List.length_nil]
      omega
    · cases h

theorem dynamic_size {escapes : Bool} {segment : Segment}
    (h : dynamic escapes before s = .ok (some (segment, rest))) :
    segment.size < segment.lexeme.length := by
  have hne : 0 < segment.lexeme.length := List.length_pos_iff.mpr (dynamic_front h).2
  cases dynamic_found h with
  | host | note | unescaped | escaped | bare | directive => exact hne
  | atSign | braces => decide
  | @slot inner name rest content split parts =>
    cases content with
    | none => exact hne
    | some content =>
      have hlen := length_slot? parts
      simp only [Segment.size, TokenKind.size, Segment.lexeme, Option.map_some, Option.elim_some,
        String.toList_ofList, List.length_append, List.length_cons, List.length_nil]
      omega

theorem Known.size_le {segment : Segment} (h : Known segment) :
    segment.size ≤ segment.lexeme.length := by
  rcases h with h | ⟨escapes, before, s, rest, h⟩
  · exact h.size_le
  · exact (dynamic_size h).le

theorem sizes_le {list : List Segment} (h : ∀ segment ∈ list, Known segment) :
    Segment.sizes list ≤ (Segment.source list).length := by
  induction list with
  | nil => exact Nat.le_refl 0
  | cons segment list ih =>
    obtain ⟨hfirst, hrest⟩ := List.forall_mem_cons.mp h
    have hsegment := hfirst.size_le
    have hlist := ih hrest
    simp only [Segment.sizes, Segment.source, List.flatMap_cons, List.length_append] at hlist ⊢
    omega

end Lexer

end Lamina
