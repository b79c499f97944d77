import Lamina.Proofs.Token.Constructs

/-! An element with one attribute, read from the form it is written in. The lexer takes the element,
the name and the quotes for what they are, unless the name starts like a directive, and the text as
it stands, unless a construct starts in it. -/

namespace Lamina

open Lamina.Text

namespace Lexer

variable {here start : Position} {before : Option Char} {element key text rest : List Char}
  {quote : Char} {name : String}

/-- The name of an element as it is read. -/
structure IsElement (s : List Char) : Prop where
  head : ∃ c rest, s = c :: rest ∧ c.isAlpha = true
  chars : ∀ c ∈ s, Scan.isTagChar c = true

def Free (quote : Char) (text : List Char) : Prop :=
  ∀ u v, text = u ++ v → ¬ Starts (quote :: u).getLast? v

theorem isElement_of_all {element : List Char} (hhead : element.head?.any Char.isAlpha = true)
    (h : element.all Scan.isTagChar = true) : IsElement element := by
  cases element with
  | nil => cases hhead
  | cons c rest => exact ⟨⟨c, rest, rfl, hhead⟩, List.all_eq_true.mp h⟩

theorem free_of_plain (h : text.all (!textSpecial ·) = true) : Free quote text := by
  rintro u v rfl hstarts
  obtain ⟨c, more, rfl, hc⟩ := hstarts.exists_head
  have hplain := List.all_eq_true.mp h c (List.mem_append_right u List.mem_cons_self)
  simp [hc] at hplain

/-- The element with the attribute, as it is written. -/
def written (element key : List Char) (quote : Char) (text : List Char) : List Char :=
  '<' :: (element ++ ' ' :: (key ++ '=' :: quote :: (text ++ quote :: "/>".toList)))

theorem length_written (element key : List Char) (quote : Char) (text : List Char) :
    (written element key quote text).length = element.length + key.length + text.length + 7 := by
  have hend : "/>".toList.length = 2 := rfl
  simp only [written, List.length_append, List.length_cons, hend]
  omega

theorem textStep_element (he : IsElement element) {stop : Char}
    (hstop : Scan.isTagChar stop = false) (here : Position) (before : Option Char)
    (rest : List Char) : textStep true here before ('<' :: (element ++ stop :: rest)) =
      .ok ⟨[.token (.tagOpen (String.ofList element)) .html ('<' :: element)],
        .tag (String.ofList element) here, stop :: rest⟩ := by
  obtain ⟨c, more, rfl, hc⟩ := he.head
  have hmark {d : Char} (hd : d.isAlpha = false) : d ≠ c := by
    rintro rfl
    rw [hc] at hd
    cases hd
  have hnone : dynamic true before ('<' :: (c :: more ++ stop :: rest)) = .ok none := by
    refine dynamic_eq_none_iff.mpr fun h => ?_
    have hquestion := hmark (d := '?') (by decide)
    cases h with
    | host h => simp [hquestion] at h
    | unescaped h => simp at h
    | escaped h => simp at h
    | escape h => simp [Escapes] at h
    | directive _ h | slot h =>
      obtain ⟨_, _, h, -⟩ := h
      simp at h
  have hbang := hmark (d := '!') (by decide)
  have hslash := hmark (d := '/') (by decide)
  obtain ⟨htake, hdrop⟩ := span_append_cons he.chars hstop rest
  rw [List.cons_append] at htake hdrop hnone ⊢
  simp [textStep, hnone, markup, List.isPrefixOf?, hbang, hslash, hc, Scan.tagName, htake, hdrop]

theorem startsDynamic_eq_false (hk : IsAttrName key) (hd : ¬ StartsDirective key)
    (rest : List Char) : startsDynamic (key ++ '=' :: rest) = false := by
  refine Bool.eq_false_iff.mpr fun h => ?_
  rcases startsDynamic_iff.mp h with h | h | h | h
  · exact hk.noEcho ((prefix_append_cons_iff (by decide)).mp h)
  · exact hk.noUnescaped ((prefix_append_cons_iff (by decide)).mp h)
  · have hfront := (prefix_append_cons_iff (by decide)).mp h
    have hend := hk.chars '<' (hfront.subset (by decide))
    cases hend
  · exact hd ((startsDirective_append_iff (by decide) (by decide)).mp h)

theorem attr_of_isAttrName (hk : IsAttrName key) (hq : Scan.isQuote quote = true) (name : String)
    (start here : Position) (rest : List Char) :
    ∃ opened, attr name start here (key ++ '=' :: quote :: rest) =
      .ok ⟨[.token (.attrName (String.ofList key)) .html key, .gap ['='],
        .token (.valueStart quote) .html [quote]], .value name start quote opened, rest⟩ := by
  have hall : ∀ c ∈ key, (!isNameEnd c) = true := fun c hc => by rw [hk.chars c hc]; rfl
  obtain ⟨htake, hdrop⟩ := span_append_cons hall (by decide : (!isNameEnd '=') = false)
    (quote :: rest)
  have hslash : keepSlash key ('=' :: quote :: rest) = (key, '=' :: quote :: rest) := by
    unfold keepSlash
    split
    · next hrest => cases hrest
    · rfl
  have hne : key.isEmpty = false := by simpa using hk.ne_nil
  have hequals : isBlank '=' = false := by decide
  have hblank : isBlank quote = false := by rcases eq_of_isQuote hq with rfl | rfl <;> decide
  refine ⟨(here.advance key).advance ['='], ?_⟩
  simp [attr, htake, hdrop, hslash, hne, attrValue, List.isPrefixOf?, hequals, hblank, hq]

theorem tagStep_space {c : Char} (hc : isBlank c = false) (name : String) (start here : Position)
    (before : Option Char) (s : List Char) : tagStep name start here before (' ' :: c :: s) =
      ((tagBody name start (here.advance [' ']) (some ' ') (c :: s)).mapError
        (·, here.advance [' '])).map fun r => { r with segments := .gap [' '] :: r.segments } := by
  have hneg : ¬ isBlank c = true := Bool.eq_false_iff.mp hc
  have htake : (' ' :: c :: s).takeWhile isBlank = [' '] := by
    rw [List.takeWhile_cons_of_pos isBlank_space, List.takeWhile_cons_of_neg hneg]
  have hdrop : (' ' :: c :: s).dropWhile isBlank = c :: s := by
    rw [List.dropWhile_cons_of_pos isBlank_space, List.dropWhile_cons_of_neg hneg]
  unfold tagStep
  simp only [htake, hdrop, List.getLast?_singleton, Option.some_or]
  cases tagBody name start (here.advance [' ']) (some ' ') (c :: s) <;> rfl

theorem tagStep_attr (hk : IsAttrName key) (hd : ¬ StartsDirective key)
    (hq : Scan.isQuote quote = true) (name : String) (start here : Position) (before : Option Char)
    (rest : List Char) :
    ∃ opened, tagStep name start here before (' ' :: (key ++ '=' :: quote :: rest)) =
      .ok ⟨[.gap [' '], .token (.attrName (String.ofList key)) .html key, .gap ['='],
        .token (.valueStart quote) .html [quote]], .value name start quote opened, rest⟩ := by
  have hstarts := startsDynamic_eq_false hk hd (quote :: rest)
  have hbracket : '>' ∉ key := fun hm => by cases hk.chars '>' hm
  have hself : "/>".toList.isPrefixOf? (key ++ '=' :: quote :: rest) = none := by
    refine isPrefixOf?_eq_none_iff.mpr fun h => ?_
    exact hbracket (((prefix_append_cons_iff (by decide)).mp h).subset (by decide))
  have hend : ['>'].isPrefixOf? (key ++ '=' :: quote :: rest) = none := by
    refine isPrefixOf?_eq_none_iff.mpr fun h => ?_
    exact hbracket (((prefix_append_cons_iff (by decide)).mp h).subset (by decide))
  obtain ⟨opened, hattr⟩ := attr_of_isAttrName hk hq name start (here.advance [' ']) rest
  have hbody : tagBody name start (here.advance [' ']) (some ' ') (key ++ '=' :: quote :: rest) =
      attr name start (here.advance [' ']) (key ++ '=' :: quote :: rest) := by
    rw [tagBody, hself]
    simp only [hend, hstarts, Bool.false_eq_true, if_false]
  obtain ⟨c, more, rfl⟩ := List.exists_cons_of_ne_nil hk.ne_nil
  have hblank : isBlank c = false := by
    have hplain := hk.chars c List.mem_cons_self
    simp only [isNameEnd, Bool.or_eq_false_iff] at hplain
    exact hplain.1.1.1.1.1
  refine ⟨opened, ?_⟩
  rw [List.cons_append] at hbody hattr ⊢
  rw [tagStep_space hblank, hbody, hattr]
  rfl

theorem tagStep_directive (hd : StartsDirective key) {name : String} {start here : Position}
    {before : Option Char} {rest : List Char} {r : Step}
    (h : tagStep name start here before (' ' :: (key ++ rest)) = .ok r) :
    ∃ segment, r.segments = [.gap [' '], segment] ∧ segment.size + 2 ≤ segment.lexeme.length := by
  obtain ⟨c, more, rfl, hc⟩ := hd
  rw [List.cons_append, List.cons_append, tagStep_space (by decide)] at h
  obtain ⟨inner, hbody, rfl⟩ := map_eq_ok.mp h
  have hbody := eq_ok_of_mapError hbody
  have hdirective : StartsDirective ('@' :: c :: (more ++ rest)) := ⟨c, _, rfl, hc⟩
  have hstarts := startsDynamic_iff.mpr (.inr (.inr (.inr hdirective)))
  have hself : "/>".toList.isPrefixOf? ('@' :: c :: (more ++ rest)) = none := rfl
  have hend : ['>'].isPrefixOf? ('@' :: c :: (more ++ rest)) = none := rfl
  -- nothing else that may stand in a tag starts with an at-sign
  have hother : dynamic false (some ' ') ('@' :: c :: (more ++ rest)) =
      orTry (directive (some ' ') ('@' :: c :: (more ++ rest))) fun _ =>
        .ok (slot ('@' :: c :: (more ++ rest))) := rfl
  unfold tagBody at hbody
  simp only [hself, hend, if_pos hstarts, hother] at hbody
  cases hfound : directive (some ' ') ('@' :: c :: (more ++ rest)) with
  | error fault =>
    rw [hfound] at hbody
    cases hbody
  | ok found =>
    rw [hfound] at hbody
    cases found with
    | none => exact absurd ⟨by decide, hdirective⟩ (directive_eq_none_iff.mp hfound)
    | some found =>
      cases hbody
      exact ⟨found.1, rfl, directive_size hfound⟩

def elementSegment (element : List Char) : Segment :=
  .token (.tagOpen (String.ofList element)) .html ('<' :: element)

def frontSegments (element key : List Char) (quote : Char) : List Segment :=
  [elementSegment element, .gap [' '], .token (.attrName (String.ofList key)) .html key, .gap ['='],
    .token (.valueStart quote) .html [quote]]

def backSegments (quote : Char) : List Segment :=
  [.token .valueEnd .html [quote], .gap [], .token .selfClose .html "/>".toList]

theorem segments_element (he : IsElement element) (rest : List Char) : ∃ here before,
    segments true .text .start none ('<' :: (element ++ ' ' :: rest)) =
      (segments true (.tag (String.ofList element) .start) here before (' ' :: rest)).map
        (elementSegment element :: ·) := by
  have hstep : step true .text .start none ('<' :: (element ++ ' ' :: rest)) =
      .ok ⟨[elementSegment element], .tag (String.ofList element) .start, ' ' :: rest⟩ := by
    rw [step, textStep_element he (by decide)]
    rfl
  exact ⟨_, _, segments_of_step (List.cons_ne_nil _ _) hstep⟩

theorem segments_front (he : IsElement element) (hk : IsAttrName key) (hd : ¬ StartsDirective key)
    (hq : Scan.isQuote quote = true) (rest : List Char) : ∃ opened here,
    segments true .text .start none ('<' :: (element ++ ' ' :: (key ++ '=' :: quote :: rest))) =
      (segments true (.value (String.ofList element) .start quote opened) here (some quote) rest).map
        (frontSegments element key quote ++ ·) := by
  obtain ⟨here, before, hfirst⟩ := segments_element he (key ++ '=' :: quote :: rest)
  obtain ⟨opened, hstep⟩ := tagStep_attr hk hd hq (String.ofList element) .start here before rest
  have hsource : Segment.source [.gap [' '], .token (.attrName (String.ofList key)) .html key,
      .gap ['='], .token (.valueStart quote) .html [quote]] =
        (' ' :: (key ++ ['='])) ++ [quote] := by
    simp [Segment.source, Segment.lexeme]
  have hsecond : segments true (.tag (String.ofList element) .start) here before
      (' ' :: (key ++ '=' :: quote :: rest)) = _ := segments_of_step (List.cons_ne_nil _ _) hstep
  dsimp only at hsecond
  rw [hsource, List.getLast?_concat] at hsecond
  refine ⟨opened, here.advance ((' ' :: (key ++ ['='])) ++ [quote]), ?_⟩
  rw [hfirst, hsecond]
  cases segments true (.value (String.ofList element) .start quote opened) _ (some quote) rest <;>
    rfl

theorem segments_back (name : String) (start opened here : Position) (before : Option Char) :
    segments true (.value name start quote opened) here before (quote :: "/>".toList) =
      .ok (backSegments quote) := by
  have hvalue : step true (.value name start quote opened) here before (quote :: "/>".toList) =
      .ok ⟨[.token .valueEnd .html [quote]], .tag name start, "/>".toList⟩ := by
    simp [step, valueStep, List.isPrefixOf?]
    rfl
  have htag (here : Position) (before : Option Char) :
      step true (.tag name start) here before "/>".toList =
        .ok ⟨[.gap [], .token .selfClose .html "/>".toList], .text, []⟩ := rfl
  rw [segments_of_step (List.cons_ne_nil _ _) hvalue]
  dsimp only
  rw [segments_of_step (by decide) (htag _ _)]
  dsimp only
  rw [segments, dif_pos rfl]
  rfl

theorem segments_written (he : IsElement element) (hk : IsAttrName key) (hd : ¬ StartsDirective key)
    (hq : Scan.isQuote quote = true) (ht : quote ∉ text) (hfree : Free quote text) :
    ∃ list, Segment.Literally list text ∧
      segments true .text .start none (written element key quote text) =
        .ok (frontSegments element key quote ++ (list ++ backSegments quote)) := by
  have hstays : ∀ a b, text = a ++ b → b ≠ [] →
      ¬ Starts ((some quote).toList ++ a).getLast? (b ++ quote :: "/>".toList) := by
    intro a b hab _ hstarts
    exact hfree a b hab ((starts_append_iff hq (by decide)).mp hstarts)
  have hquote : valueSpecial quote quote = true := by simp [valueSpecial]
  obtain ⟨opened, here, hfront⟩ := segments_front he hk hd hq (text ++ quote :: "/>".toList)
  obtain ⟨list, here', hlist, hvalue⟩ := segments_of_free ht ⟨quote, _, rfl, hquote⟩ hstays
    (String.ofList element) .start opened here
  refine ⟨list, hlist, ?_⟩
  rw [written, hfront, hvalue, segments_back]
  rfl

theorem exists_first_split {P : List Char → List Char → Prop} {u v : List Char} (h : P u v) :
    ∃ a b, a ++ b = u ++ v ∧ P a b ∧ ∀ c d, a = c ++ d → d ≠ [] → ¬ P c (d ++ b) := by
  induction hlen : u.length using Nat.strongRecOn generalizing u v with
  | ind n ih =>
    by_cases hfirst : ∃ c d, u = c ++ d ∧ d ≠ [] ∧ P c (d ++ v)
    · obtain ⟨c, d, rfl, hd, hc⟩ := hfirst
      have hlt : c.length < n := by
        have := List.length_pos_iff.mpr hd
        rw [← hlen, List.length_append]
        omega
      obtain ⟨a, b, hab, hP, hleast⟩ := ih c.length hlt hc rfl
      exact ⟨a, b, by rw [hab, List.append_assoc], hP, hleast⟩
    · refine ⟨u, v, rfl, h, fun c d hcd hd hc => hfirst ⟨c, d, hcd, hd, hc⟩⟩

theorem exists_step_of_segments {html : Bool} {mode : Mode} {s : List Char} {list : List Segment}
    (hs : s ≠ []) (h : segments html mode here before s = .ok list) :
    ∃ r more, step html mode here before s = .ok r ∧ list = r.segments ++ more := by
  rw [segments_eq hs] at h
  obtain ⟨r, hstep, h⟩ := bind_eq_ok.mp h
  obtain ⟨more, -, rfl⟩ := map_eq_ok.mp h
  exact ⟨r, more, hstep, rfl⟩

theorem exists_short_segment {s : List Char} (hstarts : Starts before s)
    (hs : [quote].isPrefixOf? s = none) {opened : Position} {list : List Segment}
    (h : segments true (.value name start quote opened) here before s = .ok list) :
    ∃ segment more, list = segment :: more ∧ segment.size < segment.lexeme.length := by
  obtain ⟨c, more, rfl, -⟩ := hstarts.exists_head
  obtain ⟨r, more', hstep, rfl⟩ := exists_step_of_segments (List.cons_ne_nil _ _) h
  have hvalue := eq_ok_of_mapError hstep
  unfold valueStep at hvalue
  rw [hs] at hvalue
  dsimp only at hvalue
  split at hvalue
  · cases hvalue
  · next segment rest hfound =>
    cases hvalue
    exact ⟨segment, more', rfl, dynamic_size hfound⟩
  · next hnone => exact absurd hstarts (dynamic_eq_none_iff.mp hnone)

theorem sizes_add_le {s : List Char} {front back : List Segment} {segment : Segment} {n : Nat}
    (h : segments true .text .start none s = .ok (front ++ segment :: back))
    (hsegment : segment.size + n ≤ segment.lexeme.length) :
    Segment.sizes (front ++ segment :: back) + (Segment.source front).length + n ≤
      s.length + Segment.sizes front := by
  have hknown := segments_known h
  have hback := sizes_le fun x hx => hknown x (List.mem_append_right _ (.tail _ hx))
  have hmode : Mode.text.In .content := rfl
  have hlength := congrArg List.length (segments_lead hmode h).1
  have hsizes : Segment.sizes (front ++ segment :: back) =
      Segment.sizes front + (segment.size + Segment.sizes back) := by
    rw [Segment.sizes_append]
    rfl
  have hall : Segment.source (front ++ segment :: back) =
      Segment.source front ++ (segment.lexeme ++ Segment.source back) := by
    rw [Segment.source_append]
    rfl
  rw [hall, List.length_append, List.length_append] at hlength
  omega

theorem sizes_of_directive (he : IsElement element) (hd : StartsDirective key)
    {list : List Segment}
    (h : segments true .text .start none (written element key quote text) = .ok list) :
    Segment.sizes list + 3 ≤ (written element key quote text).length := by
  obtain ⟨here, before, hfirst⟩ :=
    segments_element he (key ++ '=' :: quote :: (text ++ quote :: "/>".toList))
  obtain ⟨more, hmore, rfl⟩ := map_eq_ok.mp (hfirst.symm.trans h)
  obtain ⟨r, back, hstep, rfl⟩ := exists_step_of_segments (List.cons_ne_nil _ _) hmore
  obtain ⟨segment, hsegments, hsize⟩ := tagStep_directive hd hstep
  have hlist : elementSegment element :: (r.segments ++ back) =
      [elementSegment element, .gap [' ']] ++ segment :: back := by rw [hsegments]; rfl
  rw [hlist] at h ⊢
  have hle := sizes_add_le h hsize
  have hfront : Segment.sizes [elementSegment element, .gap [' ']] + 1 =
      (Segment.source [elementSegment element, .gap [' ']]).length := by
    simp [Segment.sizes, Segment.source, elementSegment, Segment.size, TokenKind.size,
      Segment.lexeme]
  omega

theorem sizes_of_starts (he : IsElement element) (hk : IsAttrName key) (hd : ¬ StartsDirective key)
    (hq : Scan.isQuote quote = true) {u v : List Char} (ht : quote ∉ u ++ v)
    (hstarts : Starts (quote :: u).getLast? v)
    (hfirst : ∀ a b, u = a ++ b → b ≠ [] → ¬ Starts (quote :: a).getLast? (b ++ v))
    {list : List Segment}
    (h : segments true .text .start none (written element key quote (u ++ v)) = .ok list) :
    Segment.sizes list + 3 ≤ (written element key quote (u ++ v)).length := by
  obtain ⟨c, more, hhead, hc⟩ := hstarts.exists_head
  have hspecial : valueSpecial quote c = true := by simp [valueSpecial, hc]
  have hquote : [quote].isPrefixOf? (v ++ quote :: "/>".toList) = none := by
    have hne : quote ≠ c := fun hqc => ht (by simp [hhead, hqc])
    rw [hhead]
    simp [List.isPrefixOf?, hne]
  have hstays : ∀ a b, u = a ++ b → b ≠ [] →
      ¬ Starts ((some quote).toList ++ a).getLast? (b ++ (v ++ quote :: "/>".toList)) := by
    intro a b hab hb hstarts'
    rw [← List.append_assoc] at hstarts'
    exact hfirst a b hab hb ((starts_append_iff hq (by decide)).mp hstarts')
  have hshort := (starts_append_iff hq (by decide : '}' ∉ "/>".toList)).mpr hstarts
  obtain ⟨opened, here, hfront⟩ := segments_front he hk hd hq (u ++ (v ++ quote :: "/>".toList))
  obtain ⟨lits, here', -, hvalue⟩ := segments_of_free (fun hm => ht (List.mem_append_left _ hm))
    ⟨c, _, by rw [hhead]; rfl, hspecial⟩ hstays (String.ofList element) .start opened here
  have hread := h
  rw [written, List.append_assoc u v, hfront, hvalue] at hread
  obtain ⟨inner, hinner, rfl⟩ := map_eq_ok.mp hread
  obtain ⟨tail, htail, rfl⟩ := map_eq_ok.mp hinner
  obtain ⟨segment, back, rfl, hsize⟩ := exists_short_segment hshort hquote htail
  rw [← List.append_assoc] at h ⊢
  have hle := sizes_add_le (n := 1) h hsize
  have hsizes : Segment.sizes (frontSegments element key quote) + 2 =
      (Segment.source (frontSegments element key quote)).length := by
    simp [Segment.sizes, Segment.source, frontSegments, elementSegment, Segment.size,
      TokenKind.size, Segment.lexeme]
    omega
  have hlits : Segment.sizes lits ≤ (Segment.source lits).length :=
    sizes_le fun x hx => segments_known h x (by simp [hx])
  rw [Segment.sizes_append (frontSegments element key quote) lits, Segment.source_append,
    List.length_append] at hle
  omega

theorem sizes_written (he : IsElement element) (hk : IsAttrName key)
    (hq : Scan.isQuote quote = true) (ht : quote ∉ text)
    (hnot : StartsDirective key ∨ ¬ Free quote text) {list : List Segment}
    (h : segments true .text .start none (written element key quote text) = .ok list) :
    Segment.sizes list + 3 ≤ (written element key quote text).length := by
  by_cases hd : StartsDirective key
  · exact sizes_of_directive he hd h
  · obtain ⟨u, v, rfl, hstarts⟩ : ∃ u v, text = u ++ v ∧ Starts (quote :: u).getLast? v := by
      simpa [Free, hd] using hnot
    obtain ⟨a, b, hab, hb, hfirst⟩ :=
      exists_first_split (P := fun u v => Starts (quote :: u).getLast? v) hstarts
    rw [← hab] at h ht ⊢
    exact sizes_of_starts he hk hd hq ht hb hfirst h

end Lexer

end Lamina
