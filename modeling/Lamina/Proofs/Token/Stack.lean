import Lamina.Proofs.Node.Agreement

/-! Lexing with a stack. The lexer can be run with the modes it is in on a stack, on which a step
pushes and pops and otherwise sees the top only. A step fails, or takes something from the source,
or leaves the body of a raw element; so twice as many steps as there are characters are enough. -/

namespace Lamina

/-- The modes that are open in this mode, the innermost first. -/
def Mode.stack : Mode → List Mode
  | text => [text]
  | tag name start => [tag name start, text]
  | value name start quote opened => [value name start quote opened, tag name start, text]
  | rawText name => [rawText name, text]

/-- Whether `s` starts with the closing tag of the raw element whose body this is. -/
def Mode.closes (s : List Char) : Mode → Bool
  | rawText name => Lexer.closesRaw name s
  | _ => false

namespace Lexer

/-- A lexer in the middle of a source; `segments` are those so far. -/
structure Machine where
  stack : List Mode
  here : Position
  before : Option Char
  rest : List Char
  segments : List Segment

namespace Machine

def start (source : String) : Machine := ⟨[.text], .start, none, source.toList, []⟩

def mode (m : Machine) : Mode := m.stack.headD .text

/-- The outermost mode is never popped. -/
def pop : List Mode → List Mode
  | _ :: mode :: outer => mode :: outer
  | stack => stack

/-- The stack after a step from the mode on top of it to another one. -/
def turn (stack : List Mode) : Mode → Mode → List Mode
  | .text, .tag name start => .tag name start :: stack
  | .tag .., .value name start quote opened => .value name start quote opened :: stack
  | .tag .., .rawText name => .rawText name :: pop stack
  | .tag .., .text | .value .., .tag .. => pop stack
  | _, _ => stack

def take (m : Machine) (r : Step) : Machine :=
  let taken := Segment.source r.segments
  ⟨turn m.stack m.mode r.mode, m.here.advance taken, taken.getLast?, r.rest,
    m.segments ++ r.segments⟩

/-- In front of its closing tag the body of a raw element is left, which takes nothing. -/
def step (html : Bool) (m : Machine) : Except Fault Machine :=
  if m.mode.closes m.rest then .ok { m with stack := pop m.stack }
  else (Lexer.step html m.mode m.here m.before m.rest).map m.take

/-- What the lexer comes to in at most `n` turns. -/
def run (html : Bool) : Nat → Machine → Option (Except Fault (List Segment))
  | 0, _ => none
  | n + 1, m =>
    if m.rest = [] then some ((finish m.mode).map fun _ => m.segments)
    else
      match m.step html with
      | .error fault => some (.error fault)
      | .ok m' => run html n m'

inductive Reaches (html : Bool) (source : String) : Machine → Prop
  | start : Reaches html source (start source)
  | step {m m' : Machine} (before : Reaches html source m) (rest : m.rest ≠ [])
      (step : m.step html = .ok m') : Reaches html source m'

variable {html : Bool} {m : Machine} {mode : Mode} {r : Step}

theorem turn_self (stack : List Mode) (mode : Mode) : turn stack mode mode = stack := by
  cases mode <;> rfl

theorem turn_of_inTag {name : String} {start here : Position} {before : Option Char} {s : List Char}
    (h : InTag name start here before s r) :
    turn (Mode.tag name start).stack (.tag name start) r.mode = r.mode.stack := by
  cases h with
  | selfClose => rfl
  | tagEnd =>
    dsimp only
    split <;> rfl
  | construct => rfl
  | attr _ _ _ _ valued => cases valued <;> rfl

theorem turn_of_takes {here : Position} {before : Option Char} {s : List Char}
    (hc : mode.closes s = false) (h : Takes here before s mode r) :
    turn mode.stack mode r.mode = r.mode.stack := by
  cases h with
  | construct | run | blank => exact turn_self _ _
  | comment | tagClose | tagOpen | valueEnd => rfl
  | closesRaw closes => cases closes.symm.trans hc
  | @inTag _ _ _ _ r _ _ inTag => exact turn_of_inTag (r := r) inTag

/-- The machine has the stack of the mode; without markup there is text only. -/
def In (html : Bool) (m : Machine) (mode : Mode) : Prop :=
  m.stack = mode.stack ∧ (html = true ∨ mode = .text)

/-- What a step can come to. -/
inductive Goes (html : Bool) (m : Machine) (mode : Mode) : Except Fault Machine → Prop
  | fails {fault : Fault} (step : Lexer.step html mode m.here m.before m.rest = .error fault) :
      Goes html m mode (.error fault)
  | takes {r : Step} (step : Lexer.step html mode m.here m.before m.rest = .ok r)
      (inside : (m.take r).In html r.mode) : Goes html m mode (.ok (m.take r))
  | pops {name : String} (raw : mode = .rawText name) (closes : closesRaw name m.rest = true)
      (tags : html = true) : Goes html m mode (.ok { m with stack := [.text] })

theorem In.mode_eq (h : m.In html mode) : m.mode = mode := by
  rw [Machine.mode, h.1]
  cases mode <;> rfl

theorem In.goes (h : m.In html mode) : m.Goes html mode (m.step html) := by
  have hmode := h.mode_eq
  obtain ⟨hstack, htags⟩ := h
  rw [step, hmode]
  split
  · next hc =>
    cases mode with
    | rawText name =>
      rw [hstack]
      exact .pops rfl hc (htags.resolve_right fun h => by cases h)
    | _ => cases hc
  · next hc =>
    cases hs : Lexer.step html mode m.here m.before m.rest with
    | error => exact .fails hs
    | ok r =>
      refine .takes hs ⟨?_, ?_⟩
      · rw [take, hmode, hstack]
        exact turn_of_takes (Bool.not_eq_true _ ▸ hc) (step_takes hs)
      · cases html with
        | true => exact .inl rfl
        | false =>
          obtain rfl := htags.resolve_left Bool.false_ne_true
          exact .inr (textStep_content (eq_ok_of_mapError hs)).1

theorem step_eq_of_closes {name : String} {s : List Char} (hc : closesRaw name s = true)
    (here : Position) (before : Option Char) :
    Lexer.step true (.rawText name) here before s = Lexer.step true .text here before s := by
  rw [Lexer.step, Lexer.step, rawTextStep, if_pos hc]

/-- A character is worth two steps: one takes it, and one may leave a raw element before it. -/
theorem In.run_eq (h : m.In html mode) {n : Nat}
    (hn : 2 * m.rest.length + (mode.closes m.rest).toNat < n) : run html n m =
      some ((Lexer.segments html mode m.here m.before m.rest).map (m.segments ++ ·)) := by
  induction n generalizing m mode with
  | zero => omega
  | succ n ih =>
    rw [run]
    by_cases hs : m.rest = []
    · rw [if_pos hs, hs, Lexer.segments, dif_pos rfl, h.mode_eq]
      cases finish mode with
      | error => rfl
      | ok => exact congrArg (some ∘ Except.ok) (List.append_nil _).symm
    · rw [if_neg hs, segments_eq hs]
      have hgoes := h.goes
      cases hstep : m.step html with
      | error fault =>
        rw [hstep] at hgoes
        cases hgoes with
        | fails hfault => rw [hfault]; rfl
      | ok m' =>
        rw [hstep] at hgoes
        cases hgoes with
        | @takes r hr inside =>
          have hlt := (step_covers hs hr).length_lt
          have hle := (r.mode.closes r.rest).toNat_le
          rw [hr]
          refine (ih inside (by dsimp only [take]; omega)).trans ?_
          dsimp only [take, bind, Except.bind]
          cases Lexer.segments html r.mode _ _ r.rest with
          | error => rfl
          | ok list => exact congrArg (some ∘ Except.ok) (List.append_assoc _ _ _)
        | pops raw closes tags =>
          subst raw tags
          have htext : Machine.In true { m with stack := [.text] } .text := ⟨rfl, .inl rfl⟩
          rw [Mode.closes, closes, Bool.toNat_true] at hn
          rw [step_eq_of_closes closes, ← segments_eq hs]
          exact ih htext (Nat.lt_of_succ_lt_succ hn)

theorem Reaches.inside {source : String} (h : Reaches html source m) : (∃ mode, m.In html mode) ∧
    ∃ done, source.toList = done ++ m.rest ∧ m.here = Position.start.advance done := by
  induction h with
  | start => exact ⟨⟨.text, rfl, .inr rfl⟩, [], rfl, rfl⟩
  | step _ hs hstep ih =>
    obtain ⟨⟨mode, hmode⟩, done, hsource, hhere⟩ := ih
    have hgoes := hmode.goes
    rw [hstep] at hgoes
    cases hgoes with
    | @takes r hr inside =>
      refine ⟨⟨r.mode, inside⟩, done ++ Segment.source r.segments, ?_, ?_⟩
      · rw [hsource, (step_covers hs hr).1, List.append_assoc]
        rfl
      · rw [Position.advance_append, ← hhere]
        rfl
    | pops _ _ tags => exact ⟨⟨.text, rfl, .inl tags⟩, done, hsource, hhere⟩

/-- The next step fails or moves the position on. -/
def Advances (html : Bool) (m : Machine) : Prop :=
  ∀ m', m.step html = .ok m' → m.here.offset < m'.here.offset

theorem offset_lt_take (hs : m.rest ≠ [])
    (hr : Lexer.step html mode m.here m.before m.rest = .ok r) : m.here.offset < (m.take r).here.offset := by
  have htaken := (step_covers hs hr).2
  rw [take, Position.offset_advance]
  have hpos : (String.ofList (Segment.source r.segments)).utf8ByteSize ≠ 0 := by simpa using htaken
  omega

theorem In.advances_or_pops (h : m.In html mode) (hs : m.rest ≠ []) : m.Advances html ∨
    ∃ name, mode = .rawText name ∧ m.step html = .ok { m with stack := [.text] } ∧
      In html { m with stack := [.text] } .text := by
  have hgoes := h.goes
  unfold Advances
  generalize m.step html = next at hgoes ⊢
  cases hgoes with
  | fails => exact .inl fun m' hm' => by cases hm'
  | takes hr =>
    refine .inl fun m' hm' => ?_
    cases hm'
    exact offset_lt_take hs hr
  | pops raw _ tags => exact .inr ⟨_, raw, rfl, rfl, .inl tags⟩

/-- The machine is at a place between two characters of the source, or at an end, with all that is
left of it ahead; its stack is that of a mode; and the next step fails or moves on, or leaves the
body of a raw element, behind which a step fails or moves on. -/
structure Safe (html : Bool) (source : String) (m : Machine) : Prop where
  place : ∃ done rest, source = done ++ rest ∧ m.here.offset = done.utf8ByteSize ∧
    m.rest = rest.toList
  stack : ∃ mode : Mode, m.stack = mode.stack
  step : m.rest ≠ [] → m.Advances html ∨ ∃ name, m.stack = [.rawText name, .text] ∧
    m.step html = .ok { m with stack := [.text] } ∧ Advances html { m with stack := [.text] }

theorem Reaches.safe {source : String} (h : Reaches html source m) : m.Safe html source := by
  obtain ⟨⟨mode, hmode⟩, done, hsource, hhere⟩ := h.inside
  refine ⟨⟨.ofList done, .ofList m.rest, ?_, ?_, by simp⟩, ⟨mode, hmode.1⟩, fun hs => ?_⟩
  · rw [← String.ofList_append, ← hsource, String.ofList_toList]
  · rw [hhere, Position.offset_advance]
    exact Nat.zero_add _
  · rcases hmode.advances_or_pops hs with hmoves | ⟨name, rfl, hstep, htext⟩
    · exact .inl hmoves
    · refine .inr ⟨name, hmode.1, hstep, (htext.advances_or_pops hs).resolve_right ?_⟩
      rintro ⟨_, hraw, -⟩
      cases hraw

/-- Lexing ends, whatever the source and the grammar it starts in. The machine gives the segments of
the source, or their fault, within twice as many steps as there are characters, and it is safe
wherever it gets to. Script code is one segment as it is, and needs no steps. -/
theorem lexing_ends (grammar : Grammar) (source : String) :
    (grammar ≠ .host → run (grammar == .html) (2 * source.length + 1) (start source) =
      some (Token.segments grammar source)) ∧
    ∀ m, Reaches (grammar == .html) source m → m.Safe (grammar == .html) source := by
  refine ⟨fun hg => ?_, fun m h => h.safe⟩
  have hstart : (start source).In (grammar == .html) .text := ⟨rfl, .inr rfl⟩
  rw [hstart.run_eq (by simp [start, Mode.closes, String.length_toList])]
  have hnil (x : Except Fault (List Segment)) : x.map ([] ++ ·) = x := by cases x <;> rfl
  cases grammar with
  | host => exact absurd rfl hg
  | html | dynamic | inline => exact congrArg some (hnil _)

end Machine

end Lexer

end Lamina
