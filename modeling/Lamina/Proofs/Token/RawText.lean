import Lamina.Proofs.Token.Attributes
import Lamina.Proofs.Token.Tiling

/-! The bodies of scripts and style sheets. Tags, comments, comparisons and slots in them are text,
and so is a closing tag of another name; what can still start is a directive, which is cut out with
its arguments. The tokens of a body spell it. -/

namespace Lamina

open Lamina.Text

namespace Lexer

variable {name : String} {here : Position} {before : Option Char} {c stop : Char}
  {s t u more element : List Char}

/-- Text that does not end the element `name` around it and in which only directives and slots may
start. -/
structure Enclosed (name : String) (s : List Char) : Prop where
  noHost : ¬ "<?lua".toList <:+: s
  noUnescaped : ¬ "\x7b!!".toList <:+: s
  noEcho : ¬ "\x7b\x7b".toList <:+: s
  noEscape : ¬ "@@".toList <:+: s
  noClosing : ∀ after, "</".toList ++ after <:+ s →
    sameName (String.ofList (Scan.tagName after).1) name = false

theorem Enclosed.of_suffix (h : Enclosed name s) (ht : t <:+ s) : Enclosed name t where
  noHost hp := h.noHost (hp.trans ht.isInfix)
  noUnescaped hp := h.noUnescaped (hp.trans ht.isInfix)
  noEcho hp := h.noEcho (hp.trans ht.isInfix)
  noEscape hp := h.noEscape (hp.trans ht.isInfix)
  noClosing after hp := h.noClosing after (hp.trans ht)

theorem noClosing_of_tails (h : s.tails.all (!closesRaw name ·) = true) (after : List Char)
    (hafter : "</".toList ++ after <:+ s) :
    sameName (String.ofList (Scan.tagName after).1) name = false := by
  have hfree := List.all_eq_true.mp h _ ((List.mem_tails _ _).mpr hafter)
  simpa [closesRaw, List.isPrefixOf?] using hfree

theorem closesRaw_of_enclosed (h : Enclosed name (c :: u)) (more : List Char) :
    closesRaw name (c :: u ++ '<' :: more) = false := by
  unfold closesRaw
  split
  · next after hafter =>
    have hs : c :: (u ++ '<' :: more) = '<' :: '/' :: after := isPrefixOf?_eq_some.mp hafter
    obtain ⟨rfl, hu⟩ := List.cons.inj hs
    cases u with
    | nil => cases hu
    | cons d u =>
      obtain ⟨rfl, rfl⟩ : d = '/' ∧ u ++ '<' :: more = after := List.cons.inj hu
      have hstop : Scan.isTagChar '<' = false := by decide
      have hname := (takeWhile_append_special Scan.isTagChar hstop u more).1
      have hclosing := h.noClosing u List.suffix_rfl
      rw [Scan.tagName] at hclosing ⊢
      dsimp only at hclosing ⊢
      rwa [hname]
  · rfl

theorem starts_of_enclosed (h : Enclosed name (c :: u))
    (hs : Starts before (c :: u ++ '<' :: more)) : StartsSlot (c :: u ++ '<' :: more) ∨
      isAttached before = false ∧ StartsDirective (c :: u) := by
  have hfront {p : List Char} (hp : '<' ∉ p) (hs : p <+: c :: u ++ '<' :: more) :
      p <:+: c :: u :=
    ((prefix_append_cons_iff hp).mp hs).isInfix
  cases hs with
  | host hs =>
    have hs : '<' :: "?lua".toList <+: c :: (u ++ '<' :: more) := hs
    obtain ⟨rfl, hlua⟩ := List.cons_prefix_cons.mp hs
    have hrest : "?lua".toList <+: u := (prefix_append_cons_iff (by decide)).mp hlua
    have hhost : '<' :: "?lua".toList <+: '<' :: u := List.cons_prefix_cons.mpr ⟨rfl, hrest⟩
    exact absurd hhost.isInfix h.noHost
  | unescaped hs => exact absurd (hfront (by decide) hs) h.noUnescaped
  | escaped hs => exact absurd (hfront (by decide) hs) h.noEcho
  | escape hs =>
    rcases hs with hs | hs
    · exact absurd (hfront (by decide) hs) h.noEscape
    · have hbraces : "\x7b\x7b".toList <:+: "@\x7b\x7b".toList := ⟨['@'], [], rfl⟩
      exact absurd (hbraces.trans (hfront (by decide) hs)) h.noEcho
  | directive free hs =>
    exact .inr ⟨free, (startsDirective_append_iff (by decide) (by decide)).mp hs⟩
  | slot hs => exact .inl hs

theorem step_rawText (h : Enclosed name (c :: u))
    (hd : ¬ (isAttached before = false ∧ StartsDirective (c :: u))) (here : Position)
    (more : List Char) : step true (.rawText name) here before (c :: u ++ '<' :: more) =
      .ok ⟨[.verbatim (c :: u.takeWhile (!rawTextSpecial ·))], .rawText name,
        u.dropWhile (!rawTextSpecial ·) ++ '<' :: more⟩ := by
  have hnone : (if "$\x7b".toList.isPrefixOf (c :: u ++ '<' :: more) then .ok none
      else dynamic true before (c :: u ++ '<' :: more)) = .ok none := by
    split
    · rfl
    · next hdollar =>
      refine dynamic_eq_none_iff.mpr fun hs => ?_
      rcases starts_of_enclosed h hs with hslot | hdirective
      · obtain ⟨inner, rest, heq, -⟩ := hslot
        exact hdollar (List.isPrefixOf_iff_prefix.mpr ⟨_, heq.symm⟩)
      · exact hd hdirective
  have hstop : (!rawTextSpecial '<') = false := by decide
  obtain ⟨htake, hdrop⟩ := takeWhile_append_special (!rawTextSpecial ·) hstop u more
  have hrun : rawStep rawTextSpecial (.rawText name) (c :: u ++ '<' :: more) =
      ⟨[.verbatim (c :: u.takeWhile (!rawTextSpecial ·))], .rawText name,
        u.dropWhile (!rawTextSpecial ·) ++ '<' :: more⟩ := by
    rw [List.cons_append]
    simp only [rawStep, rawRun, htake, hdrop]
  simp only [step, rawTextStep, closesRaw_of_enclosed h, Bool.false_eq_true, if_false, hnone, hrun]
  rfl

def argumentText (arguments : Option (List Char)) : List Char :=
  arguments.elim [] fun inner => '(' :: inner ++ [')']

def directiveSegment (ident : List Char) (arguments : Option (List Char)) : Segment :=
  .token (.directive (String.ofList ident) (arguments.map String.ofList)) .dynamic
    ('@' :: ident ++ argumentText arguments)

theorem ident?_append_cons (hstop : Scan.isIdentChar stop = false) (u more : List Char) :
    Scan.ident? (u ++ stop :: more) =
      (Scan.ident? u).map fun found => (found.1, found.2 ++ stop :: more) := by
  cases u with
  | nil =>
    have hstart : Scan.isIdentStart stop = false := by
      simp only [Scan.isIdentChar, Char.isAlphanum, Bool.or_eq_false_iff] at hstop
      simp [Scan.isIdentStart, hstop]
    simp [Scan.ident?, hstart]
  | cons c u =>
    have hspan := takeWhile_append_special Scan.isIdentChar hstop (c :: u) more
    rw [List.cons_append] at hspan ⊢
    by_cases hc : Scan.isIdentStart c = true
    · simp only [Scan.ident?, hc, if_true, Option.map_some, hspan]
    · simp [Scan.ident?, hc]

theorem exists_arguments {tail inner body rest : List Char} (hmore : ')' ∉ more)
    (hopen : tail ++ '<' :: more = ['('] ++ inner) (hclose : inner = body ++ ')' :: rest) :
    ∃ rest', tail = '(' :: body ++ ')' :: rest' ∧ rest = rest' ++ '<' :: more := by
  subst hclose
  have hall : tail ++ '<' :: more = '(' :: body ++ ')' :: rest := hopen
  rcases List.append_eq_append_iff.mp hall with ⟨gap, -, hgap⟩ | ⟨gap, htail, hgap⟩
  · have hmem : ')' ∈ '<' :: more := hgap ▸ List.mem_append_right gap List.mem_cons_self
    simp [hmore] at hmem
  · cases gap with
    | nil => cases hgap
    | cons d rest' =>
      obtain ⟨rfl, rfl⟩ : ')' = d ∧ rest = rest' ++ '<' :: more := List.cons.inj hgap
      exact ⟨rest', htail, rfl⟩

theorem directive_of_enclosed {found : Segment × List Char} (hmore : ')' ∉ more)
    (h : directive before (c :: u ++ '<' :: more) = .ok (some found)) :
    ∃ ident arguments rest, c :: u = '@' :: ident ++ argumentText arguments ++ rest ∧
      Scan.ident? (ident ++ (argumentText arguments ++ rest)) =
        some (ident, argumentText arguments ++ rest) ∧
      found = (directiveSegment ident arguments, rest ++ '<' :: more) := by
  unfold directive at h
  split at h
  · cases h
  · next after hat =>
    obtain ⟨rfl, rfl⟩ := List.cons.inj (isPrefixOf?_eq_some.mp hat)
    split at h
    · cases h
    · next ident tail hident =>
      split at hident
      · cases hident
      · have hident : Scan.ident? (u ++ '<' :: more) = some (ident, tail) := hident
        rw [ident?_append_cons (by decide)] at hident
        obtain ⟨⟨ident', tail'⟩, hfound, he⟩ := Option.map_eq_some_iff.mp hident
        cases he
        obtain rfl := (Scan.ident?_eq_some hfound).1
        dsimp only at h
        split at h
        · cases h
          refine ⟨ident', none, tail', ?_, hfound, ?_⟩
          · simp [argumentText]
          · simp [directiveSegment, argumentText]
        · next inner hparen =>
          split at h
          · cases h
          · next body rest hbody =>
            cases h
            obtain ⟨rest', rfl, rfl⟩ :=
              exists_arguments hmore (isPrefixOf?_eq_some.mp hparen) (Scan.balanced_eq_some hbody)
            refine ⟨ident', some body, rest', ?_, ?_, ?_⟩
            · simp [argumentText]
            · simpa [argumentText] using hfound
            · simp [directiveSegment, argumentText]

end Lexer

namespace Segment

open Lexer

/-- A segment of a body in front of `rest`: text as it stands, or a directive that is named by the
whole identifier behind its sign. -/
inductive InBody (rest : List Char) : Segment → Prop
  | text {piece : List Char} (ne : piece ≠ []) : InBody rest (.verbatim piece)
  | directive {ident : List Char} {arguments : Option (List Char)}
      (named : Scan.ident? (ident ++ (argumentText arguments ++ rest)) =
        some (ident, argumentText arguments ++ rest)) :
      InBody rest (directiveSegment ident arguments)

inductive Body : List Segment → List Char → Prop
  | nil : Body [] []
  | cons {segment : Segment} {list : List Segment} {rest : List Char} (first : InBody rest segment)
      (more : Body list rest) : Body (segment :: list) (segment.lexeme ++ rest)

theorem InBody.lexeme_ne_nil {rest : List Char} {segment : Segment} (h : InBody rest segment) :
    segment.lexeme ≠ [] := by
  cases h with
  | text ne => exact ne
  | directive => exact List.cons_ne_nil _ _

end Segment

namespace Lexer

variable {name : String} {c : Char} {u more element : List Char}

theorem dynamic_of_startsDirective {s : List Char} (h : StartsDirective s)
    (before : Option Char) :
    dynamic true before s = orTry (directive before s) fun _ => .ok (slot s) := by
  obtain ⟨d, rest, rfl, hd⟩ := h
  have hmark (mark : Char) (hmark : Scan.isIdentStart mark = false) : mark ≠ d := by
    rintro rfl
    rw [hd] at hmark
    cases hmark
  have hescape : escapedText ('@' :: d :: rest) = none := by
    have hsign := hmark '@' (by decide)
    have hbrace := hmark '{' (by decide)
    simp [escapedText, List.isPrefixOf?, hsign, hbrace]
  have hothers : dynamic true before ('@' :: d :: rest) =
      orTry (.ok (escapedText ('@' :: d :: rest))) fun _ =>
        orTry (directive before ('@' :: d :: rest)) fun _ => .ok (slot ('@' :: d :: rest)) := rfl
  rw [hothers, hescape]
  rfl

theorem step_of_startsDirective (h : Enclosed name (c :: u)) (hs : StartsDirective (c :: u))
    (here : Position) (before : Option Char) (more : List Char) :
    step true (.rawText name) here before (c :: u ++ '<' :: more) =
      match directive before (c :: u ++ '<' :: more) with
      | .error fault => .error (fault, here)
      | .ok (some found) => .ok ⟨[found.1], .rawText name, found.2⟩
      | .ok none => .ok (rawStep rawTextSpecial (.rawText name) (c :: u ++ '<' :: more)) := by
  have hclosing := closesRaw_of_enclosed h more
  have hdynamic : dynamic true before (c :: u ++ '<' :: more) = _ :=
    dynamic_of_startsDirective ((startsDirective_append_iff (by decide) (by decide)).mpr hs) before
  obtain ⟨d, v, hsource, -⟩ := hs
  obtain ⟨rfl, -⟩ := List.cons.inj hsource
  have hslot : slot ('@' :: u ++ '<' :: more) = none := rfl
  have hdollar : "$\x7b".toList.isPrefixOf ('@' :: u ++ '<' :: more) = false := rfl
  rw [hslot] at hdynamic
  simp only [step, rawTextStep, hclosing, hdollar, hdynamic, Bool.false_eq_true,
    if_false]
  cases directive before ('@' :: u ++ '<' :: more) with
  | error fault => rfl
  | ok found => cases found <;> rfl

theorem step_enclosed (h : Enclosed name (c :: u)) (hmore : ')' ∉ more) (here : Position)
    (before : Option Char) :
    (∃ segment rest, c :: u = segment.lexeme ++ rest ∧ Segment.InBody rest segment ∧
      step true (.rawText name) here before (c :: u ++ '<' :: more) =
        .ok ⟨[segment], .rawText name, rest ++ '<' :: more⟩) ∨
      '@' ∈ c :: u ∧ ∃ fault,
        step true (.rawText name) here before (c :: u ++ '<' :: more) = .error fault := by
  by_cases hd : isAttached before = false ∧ StartsDirective (c :: u)
  · obtain ⟨hfree, hstarts⟩ := hd
    have hstep := step_of_startsDirective h hstarts here before more
    cases hfound : directive before (c :: u ++ '<' :: more) with
    | error fault =>
      rw [hfound] at hstep
      obtain ⟨d, v, hsource, -⟩ := hstarts
      exact .inr ⟨hsource ▸ List.mem_cons_self, _, hstep⟩
    | ok found =>
      cases found with
      | none =>
        refine absurd ⟨hfree, ?_⟩ (directive_eq_none_iff.mp hfound)
        exact (startsDirective_append_iff (by decide) (by decide)).mpr hstarts
      | some found =>
        rw [hfound] at hstep
        obtain ⟨ident, arguments, rest, hsource, hident, rfl⟩ := directive_of_enclosed hmore hfound
        exact .inl ⟨directiveSegment ident arguments, rest, hsource, .directive hident, hstep⟩
  · let run := c :: u.takeWhile (!rawTextSpecial ·)
    have hsource : c :: u = run ++ u.dropWhile (!rawTextSpecial ·) := by
      rw [List.cons_append, List.takeWhile_append_dropWhile]
    exact .inl ⟨.verbatim run, _, hsource, .text (List.cons_ne_nil _ _),
      step_rawText h hd here more⟩

theorem segments_enclosed (h : Enclosed name u) (hmore : ')' ∉ more) (here : Position)
    (before : Option Char) :
    (∃ list, Segment.Body list u ∧
      segments true (.rawText name) here before (u ++ '<' :: more) =
        (segments true (.rawText name) (here.advance u) (before.toList ++ u).getLast?
          ('<' :: more)).map (list ++ ·)) ∨
      '@' ∈ u ∧ ∃ fault,
        segments true (.rawText name) here before (u ++ '<' :: more) = .error fault := by
  induction hlen : u.length using Nat.strongRecOn generalizing u before here with
  | ind n ih =>
    cases u with
    | nil =>
      refine .inl ⟨[], .nil, ?_⟩
      have hhere : here.advance [] = here := rfl
      rw [List.nil_append, List.append_nil, getLast?_toList, hhere]
      cases segments true (.rawText name) here before ('<' :: more) <;> rfl
    | cons c u =>
      have hne : c :: u ++ '<' :: more ≠ [] := List.cons_ne_nil _ _
      rcases step_enclosed h hmore here before with ⟨segment, rest, hsource, hfirst, hstep⟩ |
        ⟨hat, fault, hstep⟩
      · have hlt : rest.length < n := by
          have := List.length_pos_iff.mpr hfirst.lexeme_ne_nil
          rw [← hlen, hsource, List.length_append]
          omega
        have hlexeme : Segment.source [segment] = segment.lexeme := List.append_nil _
        have hsegments := segments_of_step hne hstep
        dsimp only at hsegments
        rw [hlexeme] at hsegments
        rcases ih rest.length hlt (h.of_suffix (hsource ▸ List.suffix_append _ _))
          (here.advance segment.lexeme) segment.lexeme.getLast? rfl with
          ⟨list, hlist, hrest⟩ | ⟨hat, fault, hrest⟩
        · refine .inl ⟨segment :: list, hsource ▸ .cons hfirst hlist, ?_⟩
          rw [hsegments, hrest, getLast?_behind hfirst.lexeme_ne_nil, hsource,
            Position.advance_append]
          cases segments true (.rawText name) _ _ ('<' :: more) <;> rfl
        · refine .inr ⟨hsource ▸ List.mem_append_right _ hat, fault, ?_⟩
          rw [hsegments, hrest]
          rfl
      · refine .inr ⟨hat, fault, ?_⟩
        rw [segments_eq hne, hstep]
        rfl

def openSegments (element : List Char) : List Segment :=
  [elementSegment element, .gap [], .token .tagEnd .html ['>']]

def closeSegment (element : List Char) : Segment :=
  .token (.tagClose (String.ofList element)) .html ('<' :: '/' :: (element ++ ['>']))

theorem segments_open (he : IsElement element) (hraw : isRawElement (String.ofList element) = true)
    (rest : List Char) : segments true .text .start none ('<' :: (element ++ '>' :: rest)) =
      (segments true (.rawText (String.ofList element))
        (Position.start.advance ('<' :: (element ++ ['>']))) (some '>') rest).map
          (openSegments element ++ ·) := by
  have hname : step true .text .start none ('<' :: (element ++ '>' :: rest)) =
      .ok ⟨[elementSegment element], .tag (String.ofList element) .start, '>' :: rest⟩ := by
    rw [step, textStep_element he (by decide)]
    rfl
  have hend (here : Position) (before : Option Char) :
      step true (.tag (String.ofList element) .start) here before ('>' :: rest) =
        .ok ⟨[.gap [], .token .tagEnd .html ['>']], .rawText (String.ofList element), rest⟩ := by
    have hblank : isBlank '>' = false := by decide
    simp [step, tagStep, hblank, tagBody, List.isPrefixOf?, hraw]
  have hsource : Segment.source [elementSegment element] = '<' :: element := List.append_nil _
  have hgap : Segment.source [.gap [], .token .tagEnd .html ['>']] = ['>'] := rfl
  rw [segments_of_step (List.cons_ne_nil _ _) hname]
  dsimp only
  rw [segments_of_step (List.cons_ne_nil _ _) (hend _ _), hsource, hgap, ← Position.advance_append,
    List.cons_append, List.getLast?_singleton]
  cases segments true (.rawText (String.ofList element)) _ _ rest <;> rfl

theorem segments_close (he : IsElement element) (here : Position) (before : Option Char) :
    segments true (.rawText (String.ofList element)) here before
      ('<' :: '/' :: (element ++ ['>'])) = .ok [closeSegment element] := by
  obtain ⟨htake, hdrop⟩ := span_append_cons he.chars (by decide : Scan.isTagChar '>' = false) []
  have hclosing : closesRaw (String.ofList element) ('<' :: '/' :: (element ++ ['>'])) = true := by
    simp [closesRaw, List.isPrefixOf?, Scan.tagName, htake, sameName]
  have hdynamic : dynamic true before ('<' :: '/' :: (element ++ ['>'])) = .ok none := rfl
  have hblank : isBlank '>' = false := by decide
  have hne : element ≠ [] := by
    obtain ⟨c, rest, rfl, -⟩ := he.head
    exact List.cons_ne_nil _ _
  have hstep : step true (.rawText (String.ofList element)) here before
      ('<' :: '/' :: (element ++ ['>'])) = .ok ⟨[closeSegment element], .text, []⟩ := by
    simp [step, rawTextStep, hclosing, textStep, hdynamic, markup, List.isPrefixOf?, Scan.tagName,
      htake, hdrop, hblank, hne, closeSegment]
    rfl
  rw [segments_of_step (List.cons_ne_nil _ _) hstep]
  dsimp only
  rw [segments, dif_pos rfl]
  rfl

end Lexer

namespace Token

open Lexer

/-- The tokens of a body that starts at a position. A stretch of text ends where a directive starts
or where the body does. -/
inductive Body : Position → List Token → List Char → Prop
  | nil (here : Position) : Body here [] []
  | text {here : Position} {tokens : List Token} {piece rest : List Char} (ne : piece ≠ [])
      (ends : rest = [] ∨ ∃ tail, rest = '@' :: tail)
      (more : Body (here.advance piece) tokens rest) :
      Body here (⟨.raw, String.ofList piece, here.offset, here.line, .html⟩ :: tokens)
        (piece ++ rest)
  | directive {here : Position} {tokens : List Token} {ident rest : List Char}
      {arguments : Option (List Char)}
      (named : Scan.ident? (ident ++ (argumentText arguments ++ rest)) =
        some (ident, argumentText arguments ++ rest))
      (more : Body (here.advance ('@' :: ident ++ argumentText arguments)) tokens rest) :
      Body here (⟨.directive (String.ofList ident) (arguments.map String.ofList),
          String.ofList ('@' :: ident ++ argumentText arguments), here.offset, here.line,
          .dynamic⟩ :: tokens)
        ('@' :: ident ++ argumentText arguments ++ rest)

def pendingFrom (start : Position) (sofar : List Char) : Option (Position × List Char) :=
  if sofar = [] then none else some (start, sofar)

theorem getD_pendingFrom (start : Position) (sofar : List Char) :
    (pendingFrom start sofar).getD (start.advance sofar, []) = (start, sofar) := by
  unfold pendingFrom
  split
  · next h =>
    subst h
    rfl
  · rfl

theorem Body.ofPending {start : Position} {tokens : List Token} {sofar rest : List Char}
    (h : Body (start.advance sofar) tokens rest) (ends : rest = [] ∨ ∃ tail, rest = '@' :: tail) :
    Body start (Token.ofPending (pendingFrom start sofar) ++ tokens) (sofar ++ rest) := by
  unfold pendingFrom
  split
  · next hs =>
    subst hs
    exact h
  · next hs => exact .text hs ends h

variable {list : List Segment} {u : List Char}

theorem body_ofSegments (h : Segment.Body list u) (start : Position) (sofar : List Char)
    (kind : TokenKind) (grammar : Grammar) (lexeme : List Char) (more : List Segment) :
    ∃ tokens, Body start tokens (sofar ++ u) ∧
      ofSegments (start.advance sofar) (pendingFrom start sofar)
        (list ++ .token kind grammar lexeme :: more) =
          tokens ++ ofSegments (start.advance (sofar ++ u)) none
            (.token kind grammar lexeme :: more) := by
  induction h generalizing start sofar with
  | nil =>
    have hbody : Body (start.advance sofar) [] [] := .nil _
    refine ⟨Token.ofPending (pendingFrom start sofar) ++ [], hbody.ofPending (.inl rfl), ?_⟩
    rw [List.append_nil, List.append_nil]
    rfl
  | @cons _ list rest first _ ih =>
    cases first with
    | @text piece ne =>
      have hne : sofar ++ piece ≠ [] := fun h => ne (List.append_eq_nil_iff.mp h).2
      have hstep : ofSegments (start.advance sofar) (pendingFrom start sofar)
          (.verbatim piece :: (list ++ .token kind grammar lexeme :: more)) =
            ofSegments (start.advance (sofar ++ piece)) (pendingFrom start (sofar ++ piece))
              (list ++ .token kind grammar lexeme :: more) := by
        rw [Segment.verbatim, ofSegments, getD_pendingFrom, Position.advance_append, pendingFrom,
          if_neg hne]
      obtain ⟨tokens, hbody, htokens⟩ := ih start (sofar ++ piece)
      rw [List.append_assoc] at hbody htokens
      exact ⟨tokens, hbody, hstep.trans htokens⟩
    | @directive ident arguments named =>
      let written := '@' :: ident ++ argumentText arguments
      obtain ⟨tokens, hbody, htokens⟩ := ih ((start.advance sofar).advance written) []
      have hfirst : Body (start.advance sofar) _ (written ++ rest) := .directive named hbody
      have hstep : ofSegments (start.advance sofar) (pendingFrom start sofar)
          (directiveSegment ident arguments :: (list ++ .token kind grammar lexeme :: more)) =
            Token.ofPending (pendingFrom start sofar) ++
              ⟨.directive (String.ofList ident) (arguments.map String.ofList),
                String.ofList written, (start.advance sofar).offset, (start.advance sofar).line,
                .dynamic⟩ :: (tokens ++ ofSegments ((start.advance sofar).advance (written ++ rest))
                  none (.token kind grammar lexeme :: more)) := by
        rw [Position.advance_append _ written]
        exact congrArg _ (congrArg _ htokens)
      refine ⟨_, hfirst.ofPending (.inr ⟨_, rfl⟩), ?_⟩
      rw [List.append_assoc, List.cons_append, List.cons_append, Position.advance_append]
      exact hstep

end Token

namespace Lexer

variable {u element : List Char}

def enclosing (element u : List Char) : List Char :=
  '<' :: (element ++ '>' :: (u ++ '<' :: '/' :: (element ++ ['>'])))

def elementTokens (element u : List Char) (body : List Token) : List Token :=
  let inner := Position.start.advance ('<' :: (element ++ ['>']))
  ⟨.tagOpen (String.ofList element), String.ofList ('<' :: element), 0, 1, .html⟩ ::
    ⟨.tagEnd, ">", (Position.start.advance ('<' :: element)).offset,
      (Position.start.advance ('<' :: element)).line, .html⟩ ::
    (body ++ [⟨.tagClose (String.ofList element), String.ofList ('<' :: '/' :: (element ++ ['>'])),
      (inner.advance u).offset, (inner.advance u).line, .html⟩])

/-- An element with a body of text is read as its tags and the tokens of the body, unless there is
a directive in it that is not closed. -/
theorem lex_enclosing (he : IsElement element) (hraw : isRawElement (String.ofList element) = true)
    (h : Enclosed (String.ofList element) u) {source : String}
    (hsource : source.toList = enclosing element u) (file : String) :
    (∃ body, Token.Body (Position.start.advance ('<' :: (element ++ ['>']))) body u ∧
      Token.lex .html source file = .ok (elementTokens element u body)) ∨
      '@' ∈ u ∧ ∃ failure, Token.lex .html source file = .error failure := by
  have hparen : ')' ∉ '/' :: (element ++ ['>']) := by
    have hnot : ')' ∉ element := fun hm => by cases he.chars ')' hm
    simp [hnot]
  have hopen := segments_open he hraw (u ++ '<' :: '/' :: (element ++ ['>']))
  rcases segments_enclosed h hparen (Position.start.advance ('<' :: (element ++ ['>']))) (some '>')
    with ⟨list, hlist, hsegments⟩ | ⟨hat, fault, hsegments⟩
  · rw [hsegments, segments_close he] at hopen
    obtain ⟨body, hbody, htokens⟩ := Token.body_ofSegments hlist
      (Position.start.advance ('<' :: (element ++ ['>']))) [] (.tagClose (String.ofList element))
      .html ('<' :: '/' :: (element ++ ['>'])) []
    refine .inl ⟨body, hbody, ?_⟩
    have hinner : (Position.start.advance ('<' :: element)).advance ['>'] =
        Position.start.advance ('<' :: (element ++ ['>'])) :=
      (Position.advance_append _ ('<' :: element) ['>']).symm
    have hopening : Token.ofSegments .start none
        (openSegments element ++ (list ++ [closeSegment element])) = _ :: _ :: Token.ofSegments
          ((Position.start.advance ('<' :: element)).advance ['>']) none
            (list ++ [closeSegment element]) := rfl
    have hrest : Token.ofSegments (Position.start.advance ('<' :: (element ++ ['>']))) none
        (list ++ [closeSegment element]) = body ++ _ := htokens
    have hall : Token.ofSegments .start none
        (openSegments element ++ (list ++ [closeSegment element])) =
          elementTokens element u body := by
      rw [hopening, hinner, hrest]
      rfl
    rw [Token.lex, Token.segments, hsource, enclosing, hopen]
    exact congrArg Except.ok hall
  · refine .inr ⟨hat, ?_⟩
    rw [hsegments] at hopen
    rw [Token.lex, Token.segments, hsource, enclosing, hopen]
    exact ⟨_, rfl⟩

end Lexer

namespace Token

variable {here : Position} {tokens : List Token} {u : List Char}

theorem Body.eq_nil (h : Body here tokens u) (hu : u = []) : tokens = [] := by
  cases h with
  | nil => rfl
  | text ne => exact absurd (List.append_eq_nil_iff.mp hu).1 ne
  | directive => cases hu

theorem Body.eq_singleton (h : Body here tokens u) (hu : u ≠ []) (hat : '@' ∉ u) :
    tokens = [⟨.raw, String.ofList u, here.offset, here.line, .html⟩] := by
  cases h with
  | nil => exact absurd rfl hu
  | text _ ends more =>
    rcases ends with rfl | ⟨tail, rfl⟩
    · rw [more.eq_nil rfl, List.append_nil]
    · exact absurd (List.mem_append_right _ List.mem_cons_self) hat
  | directive => exact absurd List.mem_cons_self hat

/-- The body of a script is literal. Text that has no at-sign, echo or code in it and no closing tag
of that name is one token, whatever else is in it. -/
theorem script_body_is_literal (text file : String) (hne : text ≠ "") (hat : '@' ∉ text.toList)
    (hecho : ¬ "\x7b\x7b".toList <:+: text.toList)
    (hunescaped : ¬ "\x7b!!".toList <:+: text.toList)
    (hhost : ¬ "<?lua".toList <:+: text.toList)
    (hclosing : ∀ after, "</".toList ++ after <:+ text.toList →
      sameName (String.ofList (Scan.tagName after).1) "script" = false) :
    lex .html ("<script>" ++ text ++ "</script>") file =
      .ok [⟨.tagOpen "script", "<script", 0, 1, .html⟩, ⟨.tagEnd, ">", 7, 1, .html⟩,
        ⟨.raw, text, 8, 1, .html⟩,
        ⟨.tagClose "script", "</script>", 8 + text.utf8ByteSize, 1 + feeds text.toList,
          .html⟩] := by
  have hne : text.toList ≠ [] := by simpa using hne
  have hsigns : ¬ "@@".toList <:+: text.toList := fun h => hat (h.subset (by decide))
  have hsource : ("<script>" ++ text ++ "</script>").toList =
      Lexer.enclosing "script".toList text.toList := by
    rw [String.toList_append, String.toList_append, List.append_assoc]
    rfl
  have hinside : Lexer.Enclosed (String.ofList "script".toList) text.toList :=
    ⟨hhost, hunescaped, hecho, hsigns, hclosing⟩
  rcases Lexer.lex_enclosing (Lexer.isElement_of_all (by decide) (by decide)) (by decide) hinside
    hsource file with ⟨body, hbody, hlex⟩ | ⟨hmem, -⟩
  · rw [hlex, hbody.eq_singleton hne hat, Lexer.elementTokens, String.ofList_toList]
    simp only [Position.offset_advance, Position.line_advance, String.ofList_toList]
    rfl
  · exact absurd hmem hat

/-- Comparisons, a template literal with a slot, a comment, and closing tags that are of other names
or come to nothing. -/
theorem script_body_is_literal_mixed :
    lex .html ("<script>" ++
        "if (a < b && c > d)\n  p = `<li>$\x7bx\x7d</li>`; // <!-- </scripts> </" ++
        "</script>") "page.stm" =
      .ok [⟨.tagOpen "script", "<script", 0, 1, .html⟩, ⟨.tagEnd, ">", 7, 1, .html⟩,
        ⟨.raw, "if (a < b && c > d)\n  p = `<li>$\x7bx\x7d</li>`; // <!-- </scripts> </", 8, 1,
          .html⟩,
        ⟨.tagClose "script", "</script>", 72, 2, .html⟩] :=
  script_body_is_literal "if (a < b && c > d)\n  p = `<li>$\x7bx\x7d</li>`; // <!-- </scripts> </"
    "page.stm" (by decide) (by decide) (by decide) (by decide) (by decide)
    (Lexer.noClosing_of_tails (by decide))

end Token

end Lamina
