import Lamina.Proofs.Except
import Lamina.Proofs.Text
import Lamina.Token.Lexer

/-! The language of tokens. Which tokens may come next depends on where the last one has left the
reader. The lexer keeps to that at every step, and the stretches it makes no token of their own
from, literal text and gaps, are of a few known forms. -/

namespace Lamina

open Lamina.Text

/-- Where the tokens so far leave a reader: among content, in a tag, behind the name of an attribute
or in a quoted value. -/
inductive Phase
  | content
  | tag
  | named
  | value
  deriving DecidableEq

namespace Phase

def after (p : Phase) : TokenKind → Phase
  | .tagOpen _ | .valueEnd | .unquoted _ => tag
  | .attrName _ => named
  | .valueStart _ => value
  | .tagEnd | .selfClose => content
  | .raw | .tagClose _ | .echo .. | .directive .. | .slot .. | .host _ =>
    if p = named then tag else p

def allows (p : Phase) : TokenKind → Bool
  | .raw | .slot .. => p == content || p == value
  | .echo .. | .directive .. | .host _ => true
  | .tagOpen _ | .tagClose _ => p == content
  | .attrName _ | .tagEnd | .selfClose => p == tag || p == named
  | .valueStart _ | .unquoted _ => p == named
  | .valueEnd => p == value

def inTag (p : Phase) : Bool := p == tag || p == named

theorem after_raw {p : Phase} (h : p.allows .raw = true) : p.after .raw = p := by
  cases p with
  | content | value => rfl
  | tag | named => cases h

end Phase

/-- A text escape starts here. -/
def Escapes (s : List Char) : Prop := "@@".toList <+: s ∨ "@\x7b\x7b".toList <+: s

/-- With `rest` behind it, a stretch of literal text and what it contributes: an escape, or text that
is copied. What is copied holds no escape, unless it is a comment of the markup. -/
inductive Piece (rest : List Char) : List Char → List Char → Prop
  | atSign : Piece rest "@@".toList ['@']
  | braces : Piece rest "@\x7b\x7b".toList "\x7b\x7b".toList
  | comment {s : List Char} (opens : "<!--".toList <+: s) (closes : EndsAt "-->".toList s) :
      Piece rest s s
  | run {c : Char} {s : List Char} (plain : ¬ Escapes (c :: s ++ rest)) (once : '@' ∉ s) :
      Piece rest (c :: s) (c :: s)

/-- A stretch that no token is made from: a comment of the template language, whose marks may share
their dashes, and in a tag white space or the equals sign behind a name. -/
inductive Gap (p : Phase) : List Char → Prop
  | note {s : List Char} (opens : "\x7b\x7b--".toList <+: s)
      (closes : EndsAt "--\x7d\x7d".toList s) : Gap p s
  | blank {s : List Char} (inside : p.inTag = true) (blank : ∀ c ∈ s, isBlank c = true) : Gap p s
  | equals {a b : List Char} (behind : p = .named) (before : ∀ c ∈ a, isBlank c = true)
      (after : ∀ c ∈ b, isBlank c = true) : Gap p (a ++ '=' :: b)

namespace Segment

/-- The segment may stand at `p`, with `rest` behind it. -/
def Right (p : Phase) (rest : List Char) : Segment → Prop
  | token kind _ _ => kind ≠ .raw ∧ p.allows kind = true
  | literal lexeme text => p.allows .raw = true ∧ Piece rest lexeme text
  | gap lexeme => Gap p lexeme

def after (p : Phase) : Segment → Phase
  | token kind _ _ => p.after kind
  | literal .. | gap _ => p

def Leads (rest : List Char) (q p : Phase) : List Segment → Prop
  | [] => p = q
  | segment :: more =>
    segment.Right p (source more ++ rest) ∧ Leads rest q (segment.after p) more

theorem source_append (a b : List Segment) : source (a ++ b) = source a ++ source b :=
  List.flatMap_append

theorem Leads.append {rest : List Char} {p q q' : Phase} {a b : List Segment}
    (ha : Leads (source b ++ rest) q p a) (hb : Leads rest q' q b) : Leads rest q' p (a ++ b) := by
  induction a generalizing p with
  | nil =>
    cases ha
    exact hb
  | cons segment a ih =>
    obtain ⟨hright, hmore⟩ := ha
    have hsource : source (a ++ b) ++ rest = source a ++ (source b ++ rest) := by
      rw [source_append, List.append_assoc]
    exact ⟨hsource ▸ hright, ih hmore⟩

end Segment

def Mode.In (p : Phase) : Mode → Prop
  | .text | .rawText _ => p = .content
  | .tag .. => p.inTag = true
  | .value .. => p = .value

namespace Lexer

variable {here : Position} {before : Option Char} {s : List Char} {name : String}
  {start : Position} {p : Phase}

theorem orTry_eq_none {α : Type} {first : Except LexFault (Option α)}
    {next : Unit → Except LexFault (Option α)} (h : orTry first next = .ok none) :
    first = .ok none ∧ next () = .ok none := by
  unfold orTry at h
  split at h
  · exact ⟨rfl, h⟩
  · next hne => exact absurd h hne

/-- A comment is as long as its opening mark at least, since both are fronts of the source. -/
theorem note_opens {comment rest : List Char} (opens : "\x7b\x7b--".toList <+: s)
    (closes : cut "--\x7d\x7d".toList s = some (comment, rest)) :
    "\x7b\x7b--".toList <+: comment ++ "--\x7d\x7d".toList := by
  refine List.prefix_of_prefix_length_le opens ⟨rest, (cut_eq_some closes).symm⟩ ?_
  simp

theorem Found.right {segment : Segment} {rest : List Char}
    (h : Found true before s (segment, rest)) (more : List Char) (hp : p.allows .raw = true) :
    segment.Right p more ∧ segment.after p = p := by
  have hraw : p = .content ∨ p = .value := by simpa [Phase.allows] using hp
  cases h with
  | host | unescaped | escaped | bare | directive | slot =>
    rcases hraw with rfl | rfl <;> exact ⟨⟨nofun, rfl⟩, rfl⟩
  | note opens closes => exact ⟨.note (note_opens opens closes) (endsAt_of_cut closes), rfl⟩
  | atSign => exact ⟨⟨hp, .atSign⟩, rfl⟩
  | braces => exact ⟨⟨hp, .braces⟩, rfl⟩

theorem Found.right_inTag {segment : Segment} {rest : List Char}
    (h : Found false before s (segment, rest)) (hs : ¬ "$\x7b".toList <+: s) (more : List Char)
    (hp : p.inTag = true) : segment.Right p more ∧ (segment.after p).inTag = true := by
  have htag : p = .tag ∨ p = .named := by simpa [Phase.inTag] using hp
  cases h with
  | host | unescaped | escaped | bare | directive =>
    rcases htag with rfl | rfl <;> exact ⟨⟨nofun, rfl⟩, rfl⟩
  | note opens closes => exact ⟨.note (note_opens opens closes) (endsAt_of_cut closes), hp⟩
  | atSign allowed | braces allowed => cases allowed
  | slot split => exact absurd ⟨_, by rw [split, List.append_assoc, List.append_assoc]⟩ hs

theorem not_escapes_of_dynamic (h : dynamic true before s = .ok none) : ¬ Escapes s := by
  unfold dynamic at h
  have h := (orTry_eq_none h).2
  have h := (orTry_eq_none h).2
  have h := (orTry_eq_none h).2
  have h := (orTry_eq_none h).2
  have h : escapedText s = none := Except.ok.inj (orTry_eq_none h).1
  unfold escapedText at h
  split at h
  · cases h
  · next hat =>
    split at h
    · cases h
    · next hbraces =>
      rintro (⟨rest, hrest⟩ | ⟨rest, hrest⟩)
      · rw [isPrefixOf?_eq_some.mpr hrest.symm] at hat
        cases hat
      · rw [isPrefixOf?_eq_some.mpr hrest.symm] at hbraces
        cases hbraces

def Step.Leads (p : Phase) (r : Step) : Prop :=
  ∃ q, r.mode.In q ∧ Segment.Leads r.rest q p r.segments

theorem rawStep_leads {special : Char → Bool} (hat : special '@' = true) (hs : s ≠ [])
    (he : ¬ Escapes s) {mode : Mode} (hp : p.allows .raw = true) (hm : mode.In p) :
    (rawStep special mode s).Leads p := by
  cases s with
  | nil => exact absurd rfl hs
  | cons c s =>
    refine ⟨p, hm, ⟨hp, .run ?_ ?_⟩, rfl⟩
    · simpa [rawStep, rawRun, Segment.source] using he
    · intro hmem
      have := all_takeWhile _ hmem
      simp [hat] at this

theorem comment_leads {comment rest : List Char} (opens : "<!--".toList <+: s)
    (closes : cut "-->".toList s = some (comment, rest)) :
    Step.Leads .content ⟨[.verbatim (comment ++ "-->".toList)], .text, rest⟩ := by
  refine ⟨.content, rfl, ⟨rfl, .comment ?_ (endsAt_of_cut closes)⟩, rfl⟩
  obtain ⟨body, hbody⟩ := opens
  have hs := hbody.trans (cut_eq_some closes)
  -- the closing mark starts behind the exclamation mark at the earliest
  have hlen : 2 ≤ comment.length := by
    rcases comment with _ | ⟨c, _ | ⟨d, comment⟩⟩
    · simp at hs
    · simp at hs
    · simp
  refine List.prefix_of_prefix_length_le ⟨body, hs⟩ (List.prefix_append _ rest) ?_
  simp
  omega

theorem Equals.gap (h : Equals s) : Gap .named s := by
  obtain ⟨a, b, rfl, ha, hb⟩ := h
  exact .equals rfl ha hb

theorem Valued.leads {r : Step} (h : Valued name start here s r) : r.Leads .named := by
  cases h with
  | absent => exact ⟨.named, rfl, rfl⟩
  | ended equals => exact ⟨.named, rfl, equals.gap, rfl⟩
  | quoted _ equals => exact ⟨.value, rfl, equals.gap, ⟨by simp, rfl⟩, rfl⟩
  | unquoted _ equals => exact ⟨.tag, rfl, equals.gap, ⟨by simp, rfl⟩, rfl⟩

theorem not_dollar_of_startsDynamic (h : startsDynamic s = true) : ¬ "$\x7b".toList <+: s := by
  rintro ⟨body, rfl⟩
  simp [startsDynamic] at h

theorem InTag.leads {r : Step} (hp : p.inTag = true) (h : InTag name start here before s r) :
    r.Leads p := by
  cases h with
  | selfClose => exact ⟨.content, rfl, ⟨nofun, hp⟩, rfl⟩
  | tagEnd =>
    refine ⟨.content, ?_, ⟨nofun, hp⟩, rfl⟩
    dsimp only
    split <;> rfl
  | construct starts found =>
    obtain ⟨hright, hafter⟩ :=
      (dynamic_found found).right_inTag (not_dollar_of_startsDynamic starts) _ hp
    exact ⟨_, hafter, hright, rfl⟩
  | attr _ _ _ _ valued =>
    obtain ⟨q, hq, hvalue⟩ := valued.leads
    exact ⟨q, hq, ⟨nofun, hp⟩, hvalue⟩

theorem Takes.leads {mode : Mode} {r : Step} (hs : s ≠ []) (hm : mode.In p)
    (h : Takes here before s mode r) : r.Leads p := by
  have hraw {mode : Mode} (holds : Mode.holdsText mode = true) (hm : mode.In p) :
      p.allows .raw = true := by
    cases mode with
    | text | rawText | value =>
      cases hm
      rfl
    | tag => cases holds
  induction h with
  | construct holds found =>
    obtain ⟨hright, hafter⟩ := (dynamic_found found).right _ (hraw holds hm)
    exact ⟨p, hm, hright, hafter⟩
  | run holds stops plain =>
    refine rawStep_leads stops hs ?_ (hraw holds hm) hm
    rcases plain with hnone | ⟨body, rfl⟩
    · exact not_escapes_of_dynamic hnone
    · simp [Escapes]
  | comment opens closes =>
    cases hm
    exact comment_leads opens closes
  | tagClose =>
    cases hm
    exact ⟨.content, rfl, ⟨nofun, rfl⟩, rfl⟩
  | tagOpen =>
    cases hm
    exact ⟨.tag, rfl, ⟨nofun, rfl⟩, rfl⟩
  | closesRaw _ _ ih => exact ih hm
  | blank blanks => exact ⟨p, hm, .blank hm blanks, rfl⟩
  | inTag _ blanks inTag =>
    obtain ⟨q, hq, hinner⟩ := inTag.leads hm
    exact ⟨q, hq, .blank hm blanks, hinner⟩
  | valueEnd =>
    cases hm
    exact ⟨.tag, rfl, ⟨nofun, rfl⟩, rfl⟩

theorem segments_lead {html : Bool} {mode : Mode} (hm : mode.In p) {list : List Segment}
    (h : segments html mode here before s = .ok list) :
    s = Segment.source list ∧ Segment.Leads [] .content p list := by
  fun_induction segments html mode here before s generalizing p list with
  | case1 mode here before =>
    obtain ⟨_, hfinish, rfl⟩ := map_eq_ok.mp h
    refine ⟨rfl, ?_⟩
    cases mode with
    | text | rawText => exact hm
    | tag | value => cases hfinish
  | case2 => cases h
  | case3 mode here before s hne r hstep _ taken =>
    rename_i ih
    obtain ⟨more, hmore, rfl⟩ := map_eq_ok.mp h
    obtain ⟨q, hq, hleads⟩ := (step_takes hstep).leads hne hm
    obtain ⟨hrest, hlead⟩ := ih hq hmore
    have hcover := (step_covers hne hstep).1
    constructor
    · rw [Segment.source_append, ← hrest]
      exact hcover
    · rw [hrest] at hleads
      rw [← List.append_nil (Segment.source more)] at hleads
      exact hleads.append hlead

end Lexer

end Lamina
