import Lamina.Failure
import Lamina.Text.Letter
import Lamina.Token
import Lamina.Token.Scan

/-! The lexer. It cuts a source into segments, one step after the other; the mode says what a
step looks for. Every step takes at least one character, so lexing ends. -/

namespace Lamina

open Lamina.Text Lamina.Scan

/-- What the lexer is inside of. A value stands in a tag; the positions are those of the opening
angle bracket and of the opening quote. -/
inductive Mode
  | text
  | tag (name : String) (start : Position)
  | value (name : String) (start : Position) (quote : Char) (opened : Position)
  | rawText (name : String)
  deriving DecidableEq, Repr

namespace Lexer

abbrev Fault := LexFault × Position

/-- The outcome of a step: segments, the mode after them, and the rest of the source. -/
structure Step where
  segments : List Segment
  mode : Mode
  rest : List Char
  deriving DecidableEq, Repr

def isRawElement (name : String) : Bool := sameName "script" name || sameName "style" name

def isAttached : Option Char → Bool
  | none => false
  | some c => isLetterOrNumeral c || c == '_' || c == '.'

def host (s : List Char) : Except LexFault (Option (Segment × List Char)) :=
  match "<?lua".toList.isPrefixOf? s with
  | none => .ok none
  | some body =>
    match cut "?>".toList body with
    | none => .error .unterminatedHost
    | some (code, rest) =>
      .ok (some (.token (.host (String.ofList code)) .host
        ("<?lua".toList ++ code ++ "?>".toList), rest))

def note (s : List Char) : Except LexFault (Option (Segment × List Char)) :=
  match "\x7b\x7b--".toList.isPrefixOf? s with
  | none => .ok none
  | some _ =>
    match cut "--\x7d\x7d".toList s with
    | none => .error .unterminatedNote
    | some (comment, rest) => .ok (some (.gap (comment ++ "--\x7d\x7d".toList), rest))

def echo (opening closing : List Char) (escape : Bool) (s : List Char) :
    Except LexFault (Option (Segment × List Char)) :=
  match opening.isPrefixOf? s with
  | none => .ok none
  | some body =>
    match delimited closing .outside 0 body with
    | none => .error (.unterminatedEcho escape)
    | some (expr, rest) =>
      .ok (some (.token (.echo (String.ofList (trim expr)) escape) .dynamic
        (opening ++ expr ++ closing), rest))

/-- The text escapes: a doubled at-sign, and an at-sign before an echo. -/
def escapedText (s : List Char) : Option (Segment × List Char) :=
  match "@@".toList.isPrefixOf? s with
  | some rest => some (.literal "@@".toList ['@'], rest)
  | none =>
    match "@\x7b\x7b".toList.isPrefixOf? s with
    | some rest => some (.literal "@\x7b\x7b".toList "\x7b\x7b".toList, rest)
    | none => none

def directive (before : Option Char) (s : List Char) :
    Except LexFault (Option (Segment × List Char)) :=
  match ['@'].isPrefixOf? s with
  | none => .ok none
  | some after =>
    match if isAttached before then none else ident? after with
    | none => .ok none
    | some (name, tail) =>
      match ['('].isPrefixOf? tail with
      | none =>
        .ok (some (.token (.directive (String.ofList name) none) .dynamic ('@' :: name), tail))
      | some inner =>
        match balanced .outside 0 inner with
        | none => .error (.unterminatedDirective (String.ofList name))
        | some (body, rest) =>
          .ok (some (.token (.directive (String.ofList name) (some (String.ofList body)))
            .dynamic ('@' :: name ++ '(' :: body ++ [')']), rest))

def slot (s : List Char) : Option (Segment × List Char) :=
  match "$\x7b".toList.isPrefixOf? s with
  | none => none
  | some body =>
    match cut ['}'] body with
    | none => none
    | some (inner, rest) =>
      match slot? inner with
      | none => none
      | some (name, content) =>
        some (.token (.slot (String.ofList name) (content.map String.ofList)) .inline
          ("$\x7b".toList ++ inner ++ ['}']), rest)

/-- The first construct found, or the first failure; a failure ends the search. -/
def orTry {α : Type} (first : Except LexFault (Option α))
    (next : Unit → Except LexFault (Option α)) : Except LexFault (Option α) :=
  match first with
  | .ok none => next ()
  | found => found

/-- The construct at the start of `s` that is not markup, if there is one. Text escapes are read
only where literal text is collected. -/
def dynamic (escapes : Bool) (before : Option Char) (s : List Char) :
    Except LexFault (Option (Segment × List Char)) :=
  orTry (host s) fun _ =>
  orTry (note s) fun _ =>
  orTry (echo "\x7b!!".toList "!!\x7d".toList false s) fun _ =>
  orTry (echo "\x7b\x7b".toList "\x7d\x7d".toList true s) fun _ =>
  orTry (.ok (if escapes then escapedText s else none)) fun _ =>
  orTry (directive before s) fun _ => .ok (slot s)

/-- One character, and all that follow up to one that may start a construct. -/
def rawRun (special : Char → Bool) : List Char → Segment × List Char
  | [] => (.verbatim [], [])
  | c :: s => (.verbatim (c :: s.takeWhile (!special ·)), s.dropWhile (!special ·))

def textSpecial (c : Char) : Bool := c == '<' || c == '{' || c == '@' || c == '$'

def valueSpecial (quote c : Char) : Bool := c == quote || textSpecial c

def rawTextSpecial (c : Char) : Bool := c == '<' || c == '{' || c == '@'

def markup (here : Position) (s : List Char) : Except LexFault (Option Step) :=
  if "<!--".toList.isPrefixOf s then
    match cut "-->".toList s with
    | none => .error .unterminatedComment
    | some (comment, rest) =>
      .ok (some ⟨[.verbatim (comment ++ "-->".toList)], .text, rest⟩)
  else
    match "</".toList.isPrefixOf? s with
    | some after =>
      let (name, tail) := tagName after
      if name.isEmpty then .ok none
      else
        match ['>'].isPrefixOf? (tail.dropWhile isBlank) with
        | none => .error (.malformedClosing (String.ofList name))
        | some rest =>
          .ok (some ⟨[.token (.tagClose (String.ofList name)) .html
            ("</".toList ++ name ++ tail.takeWhile isBlank ++ ['>'])], .text, rest⟩)
    | none =>
      match s with
      | '<' :: c :: after =>
        if c.isAlpha then
          let (name, rest) := tagName (c :: after)
          .ok (some ⟨[.token (.tagOpen (String.ofList name)) .html ('<' :: name)],
            .tag (String.ofList name) here, rest⟩)
        else .ok none
      | _ => .ok none

def rawStep (special : Char → Bool) (mode : Mode) (s : List Char) : Step :=
  let (segment, rest) := rawRun special s
  ⟨[segment], mode, rest⟩

def textStep (html : Bool) (here : Position) (before : Option Char) (s : List Char) :
    Except LexFault Step :=
  match dynamic true before s with
  | .error fault => .error fault
  | .ok (some (segment, rest)) => .ok ⟨[segment], .text, rest⟩
  | .ok none =>
    match if html then markup here s else .ok none with
    | .error fault => .error fault
    | .ok (some step) => .ok step
    | .ok none => .ok (rawStep textSpecial .text s)

def isNameEnd (c : Char) : Bool :=
  isBlank c || c == '=' || c == '>' || c == '"' || c == '\'' || c == '<'

def keepSlash (taken rest : List Char) : List Char × List Char :=
  match taken.getLast?, rest with
  | some '/', '>' :: _ => (taken.dropLast, '/' :: rest)
  | _, _ => (taken, rest)

/-- The segments of an attribute's value and the mode after them, from the text behind the name. -/
def attrValue (name : String) (start here : Position) (after : List Char) : Step :=
  match ['='].isPrefixOf? (after.dropWhile isBlank) with
  | none => ⟨[], .tag name start, after⟩
  | some value =>
    let gap := after.takeWhile isBlank ++ '=' :: value.takeWhile isBlank
    match value.dropWhile isBlank with
    | [] => ⟨[.gap gap], .tag name start, []⟩
    | c :: rest =>
      if isQuote c then
        ⟨[.gap gap, .token (.valueStart c) .html [c]],
          .value name start c (here.advance gap), rest⟩
      else
        let all := c :: rest
        let (text, rest) := keepSlash (all.takeWhile fun c => !(isBlank c || c == '>'))
          (all.dropWhile fun c => !(isBlank c || c == '>'))
        ⟨[.gap gap, .token (.unquoted (String.ofList text)) .html text], .tag name start, rest⟩

def attr (name : String) (start here : Position) (s : List Char) : Except LexFault Step :=
  let (key, after) := keepSlash (s.takeWhile (!isNameEnd ·)) (s.dropWhile (!isNameEnd ·))
  if key.isEmpty then .error (.unexpectedChar (s.headD ' ') name)
  else
    let value := attrValue name start (here.advance key) after
    .ok { value with
      segments := .token (.attrName (String.ofList key)) .html key :: value.segments }

/-- Whether a construct other than an attribute may stand here in a tag. -/
def startsDynamic (s : List Char) : Bool :=
  "\x7b\x7b".toList.isPrefixOf s || "\x7b!!".toList.isPrefixOf s ||
    "<?lua".toList.isPrefixOf s ||
    match s with
    | '@' :: after => (ident? after).isSome
    | _ => false

def tagBody (name : String) (start here : Position) (before : Option Char) (s : List Char) :
    Except LexFault Step :=
  match "/>".toList.isPrefixOf? s with
  | some rest => .ok ⟨[.token .selfClose .html "/>".toList], .text, rest⟩
  | none =>
    match ['>'].isPrefixOf? s with
    | some rest =>
      .ok ⟨[.token .tagEnd .html ['>']], if isRawElement name then .rawText name else .text, rest⟩
    | none =>
      match if startsDynamic s then dynamic false before s else .ok none with
      | .error fault => .error fault
      | .ok (some (segment, rest)) => .ok ⟨[segment], .tag name start, rest⟩
      | .ok none => attr name start here s

def tagStep (name : String) (start here : Position) (before : Option Char) (s : List Char) :
    Except Fault Step :=
  let blank := s.takeWhile isBlank
  let there := here.advance blank
  match s.dropWhile isBlank with
  | [] => .ok ⟨[.gap blank], .tag name start, []⟩
  | c :: rest =>
    match tagBody name start there (blank.getLast?.or before) (c :: rest) with
    | .error fault => .error (fault, there)
    | .ok step => .ok { step with segments := .gap blank :: step.segments }

def valueStep (name : String) (start : Position) (quote : Char) (opened : Position)
    (before : Option Char) (s : List Char) : Except LexFault Step :=
  match [quote].isPrefixOf? s with
  | some rest => .ok ⟨[.token .valueEnd .html [quote]], .tag name start, rest⟩
  | none =>
    match dynamic true before s with
    | .error fault => .error fault
    | .ok (some (segment, rest)) => .ok ⟨[segment], .value name start quote opened, rest⟩
    | .ok none => .ok (rawStep (valueSpecial quote) (.value name start quote opened) s)

def closesRaw (name : String) (s : List Char) : Bool :=
  match "</".toList.isPrefixOf? s with
  | some after => sameName (String.ofList (tagName after).1) name
  | none => false

/-- In the body of a raw element slots are text, and only its own closing tag is markup. -/
def rawTextStep (name : String) (here : Position) (before : Option Char) (s : List Char) :
    Except LexFault Step :=
  if closesRaw name s then textStep true here before s
  else
    match if "$\x7b".toList.isPrefixOf s then .ok none else dynamic true before s with
    | .error fault => .error fault
    | .ok (some (segment, rest)) => .ok ⟨[segment], .rawText name, rest⟩
    | .ok none => .ok (rawStep rawTextSpecial (.rawText name) s)

def step (html : Bool) (mode : Mode) (here : Position) (before : Option Char) (s : List Char) :
    Except Fault Step :=
  match mode with
  | .text => (textStep html here before s).mapError (·, here)
  | .tag name start => tagStep name start here before s
  | .value name start quote opened =>
    (valueStep name start quote opened before s).mapError (·, here)
  | .rawText name => (rawTextStep name here before s).mapError (·, here)

/-- The source may end in text, and in a raw element that is never closed. -/
def finish : Mode → Except Fault Unit
  | .text | .rawText _ => .ok ()
  | .tag name start => .error (.unterminatedTag name, start)
  | .value _ _ quote opened => .error (.unterminatedValue quote, opened)

/-- The segment is a non-empty front of `s` and `rest` is what follows it. -/
def Front (s : List Char) (found : Segment × List Char) : Prop :=
  s = found.1.lexeme ++ found.2 ∧ found.1.lexeme ≠ []

def Step.Covers (s : List Char) (step : Step) : Prop :=
  s = Segment.source step.segments ++ step.rest ∧ Segment.source step.segments ≠ []

theorem orTry_eq_some {α : Type} {first : Except LexFault (Option α)}
    {next : Unit → Except LexFault (Option α)} {a : α} (h : orTry first next = .ok (some a)) :
    first = .ok (some a) ∨ next () = .ok (some a) := by
  unfold orTry at h
  split at h
  · exact .inr h
  · exact .inl h

/-- The constructs that can be found at the start of `s`, each with what follows it. -/
inductive Found (escapes : Bool) (before : Option Char) (s : List Char) :
    Segment × List Char → Prop
  | host {code rest : List Char} (split : s = "<?lua".toList ++ code ++ "?>".toList ++ rest) :
      Found escapes before s (.token (.host (String.ofList code)) .host
        ("<?lua".toList ++ code ++ "?>".toList), rest)
  | note {comment rest : List Char} (opens : "\x7b\x7b--".toList <+: s)
      (closes : cut "--\x7d\x7d".toList s = some (comment, rest)) :
      Found escapes before s (.gap (comment ++ "--\x7d\x7d".toList), rest)
  | unescaped {expr rest : List Char}
      (split : s = "\x7b!!".toList ++ expr ++ "!!\x7d".toList ++ rest) :
      Found escapes before s (.token (.echo (String.ofList (trim expr)) false) .dynamic
        ("\x7b!!".toList ++ expr ++ "!!\x7d".toList), rest)
  | escaped {expr rest : List Char}
      (split : s = "\x7b\x7b".toList ++ expr ++ "\x7d\x7d".toList ++ rest) :
      Found escapes before s (.token (.echo (String.ofList (trim expr)) true) .dynamic
        ("\x7b\x7b".toList ++ expr ++ "\x7d\x7d".toList), rest)
  | atSign {rest : List Char} (allowed : escapes = true) (split : s = "@@".toList ++ rest) :
      Found escapes before s (.literal "@@".toList ['@'], rest)
  | braces {rest : List Char} (allowed : escapes = true) (split : s = "@\x7b\x7b".toList ++ rest) :
      Found escapes before s (.literal "@\x7b\x7b".toList "\x7b\x7b".toList, rest)
  | bare {name rest : List Char} (split : s = '@' :: name ++ rest)
      (ident : ident? (name ++ rest) = some (name, rest)) :
      Found escapes before s
        (.token (.directive (String.ofList name) none) .dynamic ('@' :: name), rest)
  | directive {name inner body rest : List Char} (split : s = '@' :: name ++ '(' :: inner)
      (ident : ident? (name ++ '(' :: inner) = some (name, '(' :: inner))
      (closes : balanced .outside 0 inner = some (body, rest)) :
      Found escapes before s
        (.token (.directive (String.ofList name) (some (String.ofList body))) .dynamic
          ('@' :: name ++ '(' :: body ++ [')']), rest)
  | slot {inner name rest : List Char} {content : Option (List Char)}
      (split : s = "$\x7b".toList ++ inner ++ ['}'] ++ rest)
      (parts : slot? inner = some (name, content)) :
      Found escapes before s
        (.token (.slot (String.ofList name) (content.map String.ofList)) .inline
          ("$\x7b".toList ++ inner ++ ['}']), rest)

section

variable {escapes : Bool} {before : Option Char} {s : List Char} {found : Segment × List Char}

theorem host_found (h : host s = .ok (some found)) : Found escapes before s found := by
  unfold host at h
  split at h
  · cases h
  · next body hb =>
    split at h
    · cases h
    · next code rest hc =>
      cases h
      exact .host (by simp [isPrefixOf?_eq_some.1 hb, cut_eq_some hc])

theorem note_found (h : note s = .ok (some found)) : Found escapes before s found := by
  unfold note at h
  split at h
  · cases h
  · next body hb =>
    split at h
    · cases h
    · next comment rest hc =>
      cases h
      exact .note ⟨body, (isPrefixOf?_eq_some.1 hb).symm⟩ hc

theorem echo_eq_some {opening closing : List Char} {escape : Bool}
    (h : echo opening closing escape s = .ok (some found)) :
    ∃ expr rest, s = opening ++ expr ++ closing ++ rest ∧
      found = (.token (.echo (String.ofList (trim expr)) escape) .dynamic
        (opening ++ expr ++ closing), rest) := by
  unfold echo at h
  split at h
  · cases h
  · next body hb =>
    split at h
    · cases h
    · next expr rest he =>
      cases h
      exact ⟨expr, rest, by simp [isPrefixOf?_eq_some.1 hb, delimited_eq_some he], rfl⟩

theorem escapedText_found (h : escapedText s = some found) : Found true before s found := by
  unfold escapedText at h
  split at h
  · next rest hr =>
    cases h
    exact .atSign rfl (isPrefixOf?_eq_some.1 hr)
  · split at h
    · next rest hr =>
      cases h
      exact .braces rfl (isPrefixOf?_eq_some.1 hr)
    · cases h

theorem directive_found (h : directive before s = .ok (some found)) :
    Found escapes before s found := by
  unfold directive at h
  split at h
  · cases h
  · next after ha =>
    have hs := isPrefixOf?_eq_some.1 ha
    split at h
    · cases h
    · next name tail hn =>
      split at hn
      · cases hn
      · obtain ⟨rfl, -⟩ := ident?_eq_some hn
        split at h
        · cases h
          exact .bare hs hn
        · next inner hi =>
          obtain rfl := isPrefixOf?_eq_some.1 hi
          split at h
          · cases h
          · next body rest hb =>
            cases h
            exact .directive hs hn hb

theorem slot_found (h : slot s = some found) : Found escapes before s found := by
  unfold slot at h
  split at h
  · cases h
  · next body hb =>
    split at h
    · cases h
    · next inner rest hc =>
      split at h
      · cases h
      · next name content hslot =>
        cases h
        exact .slot (by simp [isPrefixOf?_eq_some.1 hb, cut_eq_some hc]) hslot

theorem dynamic_found (h : dynamic escapes before s = .ok (some found)) :
    Found escapes before s found := by
  unfold dynamic at h
  rcases orTry_eq_some h with h | h
  · exact host_found h
  rcases orTry_eq_some h with h | h
  · exact note_found h
  rcases orTry_eq_some h with h | h
  · obtain ⟨expr, rest, hs, rfl⟩ := echo_eq_some h
    exact .unescaped hs
  rcases orTry_eq_some h with h | h
  · obtain ⟨expr, rest, hs, rfl⟩ := echo_eq_some h
    exact .escaped hs
  rcases orTry_eq_some h with h | h
  · split at h
    · next hescapes => exact hescapes ▸ escapedText_found (Except.ok.inj h)
    · cases h
  rcases orTry_eq_some h with h | h
  · exact directive_found h
  · exact slot_found (Except.ok.inj h)

theorem Found.front (h : Found escapes before s found) : Front s found := by
  cases h with
  | note opens closes => simp [Front, Segment.lexeme, cut_eq_some closes]
  | directive split ident closes =>
    simp [Front, Segment.lexeme, split, balanced_eq_some closes]
  | host split | unescaped split | escaped split | atSign _ split | braces _ split | bare split
  | slot split => simp [Front, Segment.lexeme, split]

theorem dynamic_front (h : dynamic escapes before s = .ok (some found)) : Front s found :=
  (dynamic_found h).front

end

/-- The equals sign behind the name of an attribute, and the blanks around it. -/
def Equals (gap : List Char) : Prop :=
  ∃ a b, gap = a ++ '=' :: b ∧ (∀ c ∈ a, isBlank c = true) ∧ ∀ c ∈ b, isBlank c = true

/-- What can follow the name of an attribute. -/
inductive Valued (name : String) (start here : Position) (after : List Char) : Step → Prop
  | absent : Valued name start here after ⟨[], .tag name start, after⟩
  | ended (equals : Equals after) :
      Valued name start here after ⟨[.gap after], .tag name start, []⟩
  | quoted {gap rest : List Char} {c : Char} (split : after = gap ++ c :: rest)
      (equals : Equals gap) (quote : isQuote c = true) :
      Valued name start here after ⟨[.gap gap, .token (.valueStart c) .html [c]],
        .value name start c (here.advance gap), rest⟩
  | unquoted {gap text rest : List Char} (split : after = gap ++ (text ++ rest))
      (equals : Equals gap) :
      Valued name start here after
        ⟨[.gap gap, .token (.unquoted (String.ofList text)) .html text], .tag name start, rest⟩

/-- What can stand in a tag behind white space. -/
inductive InTag (name : String) (start here : Position) (before : Option Char) (s : List Char) :
    Step → Prop
  | selfClose {rest : List Char} (split : s = "/>".toList ++ rest) :
      InTag name start here before s ⟨[.token .selfClose .html "/>".toList], .text, rest⟩
  | tagEnd {rest : List Char} (split : s = '>' :: rest) :
      InTag name start here before s ⟨[.token .tagEnd .html ['>']],
        if isRawElement name then .rawText name else .text, rest⟩
  | construct {segment : Segment} {rest : List Char} (starts : startsDynamic s = true)
      (found : dynamic false before s = .ok (some (segment, rest))) :
      InTag name start here before s ⟨[segment], .tag name start, rest⟩
  | attr {key after : List Char} {value : Step} (split : s = key ++ after) (ne_nil : key ≠ [])
      (chars : ∀ c ∈ key, isNameEnd c = false)
      (other : startsDynamic s = true → dynamic false before s = .ok none)
      (valued : Valued name start (here.advance key) after value) :
      InTag name start here before s { value with
        segments := .token (.attrName (String.ofList key)) .html key :: value.segments }

def Mode.holdsText : Mode → Bool
  | .tag .. => false
  | _ => true

/-- What a step can take from the start of `s`. -/
inductive Takes (here : Position) (before : Option Char) (s : List Char) : Mode → Step → Prop
  | construct {mode : Mode} {segment : Segment} {rest : List Char}
      (holds : Mode.holdsText mode = true)
      (found : dynamic true before s = .ok (some (segment, rest))) :
      Takes here before s mode ⟨[segment], mode, rest⟩
  | run {mode : Mode} {special : Char → Bool} (holds : Mode.holdsText mode = true)
      (stops : special '@' = true)
      (plain : dynamic true before s = .ok none ∨ "$\x7b".toList <+: s) :
      Takes here before s mode (rawStep special mode s)
  | comment {comment rest : List Char} (opens : "<!--".toList <+: s)
      (closes : cut "-->".toList s = some (comment, rest)) :
      Takes here before s .text ⟨[.verbatim (comment ++ "-->".toList)], .text, rest⟩
  | tagClose {name blank rest : List Char} (split : s = "</".toList ++ name ++ blank ++ '>' :: rest)
      (blanks : ∀ c ∈ blank, isBlank c = true) :
      Takes here before s .text ⟨[.token (.tagClose (String.ofList name)) .html
        ("</".toList ++ name ++ blank ++ ['>'])], .text, rest⟩
  | tagOpen {name rest : List Char} (split : s = '<' :: name ++ rest)
      (chars : ∀ c ∈ name, isTagChar c = true) :
      Takes here before s .text ⟨[.token (.tagOpen (String.ofList name)) .html ('<' :: name)],
        .tag (String.ofList name) here, rest⟩
  | closesRaw {name : String} {r : Step} (closes : closesRaw name s = true)
      (takes : Takes here before s .text r) : Takes here before s (.rawText name) r
  | blank {name : String} {start : Position} (blanks : ∀ c ∈ s, isBlank c = true) :
      Takes here before s (.tag name start) ⟨[.gap s], .tag name start, []⟩
  | inTag {name : String} {start : Position} {blank inner : List Char} {r : Step}
      (split : s = blank ++ inner) (blanks : ∀ c ∈ blank, isBlank c = true)
      (inTag : InTag name start (here.advance blank) (blank.getLast?.or before) inner r) :
      Takes here before s (.tag name start) { r with segments := .gap blank :: r.segments }
  | valueEnd {name : String} {start opened : Position} {quote : Char} {rest : List Char}
      (split : s = quote :: rest) :
      Takes here before s (.value name start quote opened)
        ⟨[.token .valueEnd .html [quote]], .tag name start, rest⟩

theorem all_takeWhile {p : Char → Bool} {s : List Char} : ∀ c ∈ s.takeWhile p, p c = true :=
  List.all_eq_true.mp List.all_takeWhile

section

variable {here start : Position} {before : Option Char} {s : List Char} {name : String} {r : Step}

theorem markup_takes (h : markup here s = .ok (some r)) : Takes here before s .text r := by
  unfold markup at h
  split at h
  · next hopens =>
    split at h
    · cases h
    · next comment rest hc =>
      cases h
      exact .comment (List.isPrefixOf_iff_prefix.mp hopens) hc
  · split at h
    · next after ha =>
      dsimp only at h
      split at h
      · cases h
      · split at h
        · cases h
        · next rest hr =>
          cases h
          have ht := List.takeWhile_append_dropWhile (p := isBlank) (l := (tagName after).2)
          rw [isPrefixOf?_eq_some.1 hr, List.singleton_append] at ht
          refine .tagClose ?_ all_takeWhile
          rw [List.append_assoc, List.append_assoc]
          exact (isPrefixOf?_eq_some.1 ha).trans (by rw [ht, tagName_append])
    · split at h
      · split at h
        · cases h
          exact .tagOpen (congrArg _ List.takeWhile_append_dropWhile.symm) all_takeWhile
        · cases h
      · cases h

theorem textStep_takes {html : Bool} (h : textStep html here before s = .ok r) :
    Takes here before s .text r := by
  unfold textStep at h
  split at h
  · cases h
  · next hd =>
    cases h
    exact .construct rfl hd
  · next hd =>
    split at h
    · cases h
    · next hm =>
      cases h
      split at hm
      · exact markup_takes hm
      · cases hm
    · cases h
      exact .run rfl rfl (.inl hd)

theorem keepSlash_append (taken rest : List Char) :
    (keepSlash taken rest).1 ++ (keepSlash taken rest).2 = taken ++ rest := by
  unfold keepSlash
  split
  · next ht =>
    obtain ⟨ys, rfl⟩ := List.getLast?_eq_some_iff.1 ht
    simp
  · rfl

theorem keepSlash_prefix (taken rest : List Char) : (keepSlash taken rest).1 <+: taken := by
  unfold keepSlash
  split
  · exact List.dropLast_prefix taken
  · exact List.prefix_rfl

theorem attrValue_valued (name : String) (start here : Position) (after : List Char) :
    Valued name start here after (attrValue name start here after) := by
  unfold attrValue
  split
  · exact .absent
  · next value hv =>
    have hequals : Equals (after.takeWhile isBlank ++ '=' :: value.takeWhile isBlank) :=
      ⟨_, _, rfl, all_takeWhile, all_takeWhile⟩
    have hsplit : after =
        after.takeWhile isBlank ++ '=' :: value.takeWhile isBlank ++ value.dropWhile isBlank := by
      conv => lhs; rw [← List.takeWhile_append_dropWhile (p := isBlank) (l := after),
        isPrefixOf?_eq_some.1 hv]
      simp
    dsimp only
    split
    · next hd =>
      rw [hd, List.append_nil] at hsplit
      rw [← hsplit] at hequals ⊢
      exact .ended hequals
    · next c rest hd =>
      rw [hd] at hsplit
      split
      · next hquote => exact .quoted hsplit hequals hquote
      · refine .unquoted ?_ hequals
        rw [keepSlash_append, List.takeWhile_append_dropWhile]
        exact hsplit

theorem tagBody_inTag (h : tagBody name start here before s = .ok r) :
    InTag name start here before s r := by
  unfold tagBody at h
  split at h
  · next hr =>
    cases h
    exact .selfClose (isPrefixOf?_eq_some.1 hr)
  · split at h
    · next hr =>
      cases h
      exact .tagEnd (isPrefixOf?_eq_some.1 hr)
    · split at h
      · cases h
      · next hd =>
        cases h
        split at hd
        · next hstarts => exact .construct hstarts hd
        · cases hd
      · next hd =>
        unfold attr at h
        dsimp only at h
        split at h
        · cases h
        · next hk =>
          cases h
          refine .attr ?_ (fun hnil => hk (by rw [hnil]; rfl)) (fun c hc => ?_)
            (fun hstarts => by rwa [if_pos hstarts] at hd) (attrValue_valued _ _ _ _)
          · rw [keepSlash_append, List.takeWhile_append_dropWhile]
          · have hkept := keepSlash_prefix (s.takeWhile (!isNameEnd ·)) (s.dropWhile (!isNameEnd ·))
            simpa using all_takeWhile c (hkept.subset hc)

theorem tagStep_takes (h : tagStep name start here before s = .ok r) :
    Takes here before s (.tag name start) r := by
  have ht := List.takeWhile_append_dropWhile (p := isBlank) (l := s)
  unfold tagStep at h
  dsimp only at h
  split at h
  · next hd =>
    cases h
    rw [hd, List.append_nil] at ht
    have hblank := all_takeWhile (p := isBlank) (s := s)
    rw [ht] at hblank ⊢
    exact .blank hblank
  · next c rest hd =>
    rw [hd] at ht
    split at h
    · cases h
    · next inner hb =>
      cases h
      exact .inTag ht.symm all_takeWhile (tagBody_inTag hb)

theorem valueStep_takes {quote : Char} {opened : Position}
    (h : valueStep name start quote opened before s = .ok r) :
    Takes here before s (.value name start quote opened) r := by
  unfold valueStep at h
  split at h
  · next hr =>
    cases h
    exact .valueEnd (isPrefixOf?_eq_some.1 hr)
  · split at h
    · cases h
    · next hd =>
      cases h
      exact .construct rfl hd
    · next hd =>
      cases h
      exact .run rfl (by simp [valueSpecial, textSpecial]) (.inl hd)

theorem rawTextStep_takes (h : rawTextStep name here before s = .ok r) :
    Takes here before s (.rawText name) r := by
  unfold rawTextStep at h
  split at h
  · next hcloses => exact .closesRaw hcloses (textStep_takes h)
  · split at h
    · cases h
    · next hd =>
      cases h
      split at hd
      · cases hd
      · exact .construct rfl hd
    · next hd =>
      cases h
      refine .run rfl rfl ?_
      split at hd
      · next hslot =>
        exact .inr (List.isPrefixOf_iff_prefix.mp hslot)
      · exact .inl hd

theorem step_takes {html : Bool} {mode : Mode} (h : step html mode here before s = .ok r) :
    Takes here before s mode r := by
  have ok_of_mapError {x : Except LexFault Step} (h : x.mapError (·, here) = .ok r) :
      x = .ok r := by
    cases x with
    | error => cases h
    | ok => exact congrArg Except.ok (Except.ok.inj h)
  cases mode with
  | text => exact textStep_takes (ok_of_mapError h)
  | tag name start => exact tagStep_takes h
  | value name start quote opened => exact valueStep_takes (ok_of_mapError h)
  | rawText name => exact rawTextStep_takes (ok_of_mapError h)

theorem Front.covers {segment : Segment} {rest : List Char} {mode : Mode}
    (h : Front s (segment, rest)) : Step.Covers s ⟨[segment], mode, rest⟩ := by
  simpa [Step.Covers, Segment.source, Front] using h

theorem Valued.append (h : Valued name start here s r) :
    Segment.source r.segments ++ r.rest = s := by
  cases h with
  | absent => rfl
  | ended => simp [Segment.source, Segment.lexeme]
  | quoted split | unquoted split => simp [Segment.source, Segment.lexeme, split]

theorem InTag.covers (h : InTag name start here before s r) : r.Covers s := by
  cases h with
  | selfClose split | tagEnd split =>
    simp [Step.Covers, Segment.source, Segment.lexeme, split]
  | construct _ found => exact (dynamic_front found).covers
  | attr split ne_nil _ _ valued =>
    have happend := valued.append
    simp only [Step.Covers, Segment.source, List.flatMap_cons, Segment.lexeme] at happend ⊢
    exact ⟨by rw [List.append_assoc, happend, split], by simp [ne_nil]⟩

/-- What is taken is a non-empty front of the source, and the rest is left. -/
theorem Takes.covers {mode : Mode} (hs : s ≠ []) (h : Takes here before s mode r) :
    r.Covers s := by
  induction h with
  | construct _ found => exact (dynamic_front found).covers
  | run =>
    obtain ⟨c, s, rfl⟩ := List.exists_cons_of_ne_nil hs
    simp [rawStep, rawRun, Step.Covers, Segment.source, Segment.verbatim, Segment.lexeme]
  | comment opens closes =>
    simp [Step.Covers, Segment.source, Segment.verbatim, Segment.lexeme, cut_eq_some closes]
  | tagClose split | tagOpen split | valueEnd split =>
    simp [Step.Covers, Segment.source, Segment.lexeme, split]
  | closesRaw _ _ ih => exact ih
  | blank => simp [Step.Covers, Segment.source, Segment.lexeme, hs]
  | inTag split _ inTag =>
    obtain ⟨hsource, hne⟩ := inTag.covers
    simp only [Step.Covers, Segment.source, List.flatMap_cons, Segment.lexeme] at hsource hne ⊢
    exact ⟨by rw [List.append_assoc, ← hsource, split], by simp [hne]⟩

theorem step_covers {html : Bool} {mode : Mode} (hs : s ≠ [])
    (h : step html mode here before s = .ok r) : r.Covers s :=
  (step_takes h).covers hs

end

theorem Step.Covers.length_lt {s : List Char} {r : Step} (h : r.Covers s) :
    r.rest.length < s.length := by
  have := List.length_pos_iff.2 h.2
  rw [h.1, List.length_append]
  omega

/-- The segments of `s`, which starts at `here` behind the character `before`. -/
def segments (html : Bool) (mode : Mode) (here : Position) (before : Option Char)
    (s : List Char) : Except Fault (List Segment) :=
  if hs : s = [] then (finish mode).map fun _ => []
  else
    match h : step html mode here before s with
    | .error fault => .error fault
    | .ok r =>
      have := (step_covers hs h).length_lt
      let taken := Segment.source r.segments
      (segments html r.mode (here.advance taken) taken.getLast? r.rest).map (r.segments ++ ·)
termination_by s.length

theorem segments_eq {html : Bool} {mode : Mode} {here : Position} {before : Option Char}
    {s : List Char} (hs : s ≠ []) : segments html mode here before s = (do
      let r ← step html mode here before s
      let taken := Segment.source r.segments
      (segments html r.mode (here.advance taken) taken.getLast? r.rest).map (r.segments ++ ·)) := by
  rw [segments, dif_neg hs]
  split
  · next herror => simp only [herror, bind, Except.bind]
  · next hok => simp only [hok, bind, Except.bind]

end Lexer

namespace Token

/-- The segments of a whole source: script code is one token, markup is read for `html` only. -/
def segments (grammar : Grammar) (source : String) : Except Lexer.Fault (List Segment) :=
  match grammar with
  | .host =>
    .ok (if source.isEmpty then [] else [.token (.host source) .host source.toList])
  | .html => Lexer.segments true .text .start none source.toList
  | _ => Lexer.segments false .text .start none source.toList

/-- The tokens of `source`; a failure names `file` and shows the lines around it. -/
def lex (grammar : Grammar) (source file : String) : Except Failure (List Token) :=
  match segments grammar source with
  | .error (fault, p) =>
    .error (.lex fault file p.line (some (.ofSource source p.line p.column)))
  | .ok segments => .ok (ofSegments .start none segments)

theorem exists_of_lex {grammar : Grammar} {source file : String} {tokens : List Token}
    (h : lex grammar source file = .ok tokens) :
    ∃ list, segments grammar source = .ok list ∧ tokens = ofSegments .start none list := by
  rw [lex] at h
  split at h
  · cases h
  · next list hlist => exact ⟨list, hlist, (Except.ok.inj h).symm⟩

end Token

end Lamina
