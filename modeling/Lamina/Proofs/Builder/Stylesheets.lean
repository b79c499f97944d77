import Lamina.Proofs.Builder.Attributes
import Lamina.Proofs.Builder.Tidying
import Lamina.Proofs.Context.Substitution
import Lamina.Proofs.Pass.Preparing
import Lamina.Proofs.Token.RawText

/-! Style sheets on a page. Their at-rules look like directives and are parsed as such, with their
arguments; those that no provider knows are written out again. The parts of a sheet are tidied one
by one, which comes to the same as tidying the whole, since no run of line breaks goes on from one
part to the next. -/

namespace Lamina

open Lamina.Text

namespace Text

variable {p s t : List Char} {c : Char}

theorem collapseBreaksFrom_append_cons (hc : isBreak c = false) (inRun : Bool) (s t : List Char) :
    collapseBreaksFrom inRun (s ++ c :: t) =
      collapseBreaksFrom inRun s ++ c :: collapseBreaks t := by
  induction s generalizing inRun with
  | nil => simp [collapseBreaksFrom, collapseBreaks, hc]
  | cons d s ih =>
    rw [List.cons_append, collapseBreaksFrom, collapseBreaksFrom, ih, ih]
    cases isBreak d <;> cases inRun <;> rfl

theorem collapseBreaks_append_cons (hc : isBreak c = false) (s t : List Char) :
    collapseBreaks (s ++ c :: t) = collapseBreaks s ++ c :: collapseBreaks t :=
  collapseBreaksFrom_append_cons hc false s t

theorem collapseBreaks_concat_append (hc : isBreak c = false) (s t : List Char) :
    collapseBreaks (s ++ [c] ++ t) = collapseBreaks (s ++ [c]) ++ collapseBreaks t := by
  rw [List.append_assoc, List.singleton_append, collapseBreaks_append_cons hc,
    collapseBreaks_append_cons hc, List.append_assoc]
  rfl

theorem infix_append_cons (hp : c ∉ p) (h : p <:+: s ++ c :: t) : p <:+: s ∨ p <:+: t := by
  induction s with
  | nil =>
    rcases List.infix_cons_iff.mp h with h | h
    · exact .inl ((Lexer.prefix_append_cons_iff (v := []) hp).mp h).isInfix
    · exact .inr h
  | cons d s ih =>
    rcases List.infix_cons_iff.mp h with h | h
    · exact .inl ((Lexer.prefix_append_cons_iff (v := d :: s) hp).mp h).isInfix
    · exact (ih h).imp_left fun h => h.trans (List.suffix_cons d s).isInfix

end Text

namespace Processor

open Placeholder

theorem context_eq_ok_of_free (view : View) (context : Context) {source : String}
    (h : ¬ "@\x7b".toList <:+: source.toList) :
    Processor.context.run view context source = .ok source := by
  have hnone (s : List Char) (hs : ¬ "@\x7b".toList <:+: s) : read? s = none := by
    refine read?_eq_none_iff.mpr fun p hp hprefix => hs ?_
    cases p with
    | char => cases hp
    | value name fallback =>
      refine List.IsPrefix.isInfix (.trans ?_ hprefix)
      cases fallback <;> exact List.prefix_append _ _
  have hpieces (s : List Char) (hs : ¬ "@\x7b".toList <:+: s) : pieces s = s.map .char := by
    induction s with
    | nil => rw [pieces, List.map_nil]
    | cons c s ih =>
      have htail : ¬ "@\x7b".toList <:+: s := fun h => hs (h.trans (List.suffix_cons c s).isInfix)
      rw [pieces_of_none (hnone _ hs), ih htail, List.map_cons]
  rw [context_eq_ok_iff, hpieces _ h]
  refine ⟨fun p hp => ?_, ?_⟩
  · obtain ⟨c, -, rfl⟩ := List.mem_map.mp hp
    rfl
  · have hfilling : (source.toList.map Piece.char).flatMap (Piece.filling context) =
        source.toList := by
      rw [List.flatMap_map]
      exact List.flatMap_singleton' _
    rw [hfilling, String.ofList_toList]

end Processor

namespace Node

open Lexer

/-- The nodes of a style sheet with the text that they were read from. A stretch of text ends where
a directive starts or where the sheet does. -/
inductive Sheet : List Node → List Char → Prop
  | nil : Sheet [] []
  | text {nodes : List Node} {piece rest : List Char} {o : Origin}
      (ends : rest = [] ∨ ∃ tail, rest = '@' :: tail) (more : Sheet nodes rest) :
      Sheet (raw (String.ofList piece) o :: nodes) (piece ++ rest)
  | directive {nodes : List Node} {ident rest : List Char} {arguments : Option (List Char)}
      {values : List String} {o : Origin}
      (named : Scan.ident? (ident ++ (argumentText arguments ++ rest)) =
        some (ident, argumentText arguments ++ rest))
      (more : Sheet nodes rest) :
      Sheet (directive (String.ofList ident) values (arguments.map String.ofList) o :: nodes)
        ('@' :: ident ++ argumentText arguments ++ rest)

theorem Sheet.leaves {nodes : List Node} {u : List Char} (h : Sheet nodes u) :
    ∀ n ∈ nodes, Scope.of? n = none := by
  induction h with
  | nil => exact List.forall_mem_nil _
  | text _ _ ih | directive _ _ ih => exact List.forall_mem_cons.mpr ⟨rfl, ih⟩

end Node

namespace Parser

open Node

variable {file : String} {u : List Char} {nodes : List Node}

theorem run_body {here : Position} {tokens : List Token} (h : Token.Body here tokens u)
    (element : Open) (outer : List Open) (root : List Node) {more : List Token}
    (hr : run file ⟨element :: outer, root, .content⟩ (tokens ++ more) = .ok nodes) :
    ∃ children, Sheet children u ∧
      run file ⟨{ element with children := children.reverse ++ element.children } :: outer, root,
        .content⟩ more = .ok nodes := by
  induction h generalizing element with
  | nil => exact ⟨[], .nil, hr⟩
  | @text here _ piece _ _ ends _ ih =>
    let n := raw (String.ofList piece) (.of file here.line .html "raw")
    obtain ⟨children, hsheet, hrest⟩ := ih { element with children := n :: element.children } hr
    refine ⟨n :: children, .text ends hsheet, ?_⟩
    rwa [List.reverse_cons, List.append_assoc]
  | @directive here _ ident _ arguments named _ ih =>
    rw [List.cons_append, run] at hr
    simp only [step, contentStep, contentNode?] at hr
    -- arguments that cannot be taken apart are a failure
    cases hvalues : (arguments.map String.ofList).elim (.ok []) Arguments.split with
    | error =>
      simp only [hvalues] at hr
      cases hr
    | ok values =>
      simp only [hvalues] at hr
      let n := directive (String.ofList ident) values (arguments.map String.ofList)
        (.of file here.line .dynamic ("@" ++ String.ofList ident))
      obtain ⟨children, hsheet, hrest⟩ := ih { element with children := n :: element.children } hr
      refine ⟨n :: children, .directive named hsheet, ?_⟩
      rwa [List.reverse_cons, List.append_assoc]

end Parser

namespace Node

open Lexer

variable {source file : String} {u : List Char} {root : Node}

theorem parse_style (h : Enclosed "style" u) (hsource : source.toList = enclosing "style".toList u)
    (hparse : parse source file = .ok root) :
    ∃ children o, Sheet children u ∧ root = rootOf file [.tag "style" [] children .pair o] := by
  rcases lex_enclosing (isElement_of_all (by decide) (by decide)) (by decide) h hsource file with
    ⟨body, hbody, hlex⟩ | ⟨-, failure, hlex⟩
  · rw [parse, hlex] at hparse
    dsimp only [ofTokens] at hparse
    split at hparse
    · cases hparse
    · next nodes hrun =>
      cases hparse
      let o := Origin.of file 1 .html "style"
      obtain ⟨children, hsheet, hrest⟩ := Parser.run_body hbody ⟨"style", [], [], o⟩ [] [] hrun
      refine ⟨children, o, hsheet, ?_⟩
      have hsame : sameName "style" "style" = true := by decide
      simp only [Parser.run, Parser.step, Parser.contentStep, hsame, if_true,
        Parser.State.append, List.append_nil, List.reverse_reverse] at hrest
      cases hrest
      rfl
  · rw [parse, hlex] at hparse
    cases hparse

end Node

namespace Pass

open Node

variable {name : String} {children : List Node} {o o' : Origin}

theorem run_prepare_of_normal (r : Resolver) (h : (template children o).Everywhere Normal)
    (s : Session) :
    (Builder.run prepare r (template children o)).run s = (.ok (template children o), s) := by
  have hroot : Walk.root (preparers r) (template children o) = pure (template children o) := by
    rw [Walk.root, node_of_normal h, pure_bind]
  show ((Walk.root (preparers r) (template children o)).run' {}).run s = _
  rw [hroot]
  rfl

theorem everywhere_of_leaf {P : Node → Prop} {n : Node} (h : Scope.of? n = none) (hn : P n) :
    n.Everywhere P := by
  cases n with
  | raw | directive | echo | host =>
    exact everywhere_iff.mpr ⟨hn, List.forall_mem_nil _, List.forall_mem_nil _⟩
  | _ => cases h

theorem isTag_of_leaf {n : Node} (h : Scope.of? n = none) : n.isTag = false := by
  cases n with
  | tag => cases h
  | _ => rfl

theorem normal_of_leaves (hname : PreparedName name) (hc : ∀ c ∈ children, Scope.of? c = none) :
    (template [tag name [] children .pair o] o').Everywhere Normal := by
  have hleaf (c : Node) (h : c ∈ children) : c.Everywhere Normal :=
    everywhere_of_leaf (hc c h) (normal_of_not_tag (isTag_of_leaf (hc c h)))
  have htag : (tag name [] children .pair o).Everywhere Normal :=
    everywhere_iff.mpr ⟨⟨hname, fun c h => attrChild?_of_not_tag (isTag_of_leaf (hc c h))⟩,
      List.forall_mem_nil _, hleaf⟩
  exact everywhere_iff.mpr ⟨trivial, List.forall_mem_nil _, List.forall_mem_singleton.mpr htag⟩

theorem linkAll_of_leaves (hc : ∀ c ∈ children, Scope.of? c = none)
    (strays outer before : List Node) : linkAll strays outer before children = children := by
  induction children generalizing before with
  | nil => rfl
  | cons c children ih =>
    obtain ⟨hfirst, hrest⟩ := List.forall_mem_cons.mp hc
    rw [linkAll, ih hrest]
    cases c with
    | raw | directive | echo | host => rfl
    | _ => cases hfirst

/-- An element means nothing to the passes that bring templates together. -/
structure Plain (name : String) : Prop where
  use : name ≠ "use"
  included : suffix? "include" name = none
  extending : isExtends name = false

theorem node_of_still (strict : Bool) (r : Resolver) {n : Node} {scopes : List Scope}
    (huse : n.isUse = false) (hattrs : n.attrs = [])
    (hleave : Walk.leaveAll scopes n [splicing r, extension strict r] = pure [n])
    (hc : ∀ c ∈ n.children, ∀ scopes,
      Walk.node [splicing r, extension strict r] scopes c = pure [c]) :
    Walk.node [splicing r, extension strict r] scopes n = pure [n] := by
  have hbelow : Walk.below [splicing r, extension strict r] scopes n = pure n := by
    have hnone : ∀ a ∈ n.attrs, ∀ c ∈ a.value.inner, ∀ scopes, scopes ≠ [] →
        Walk.node [splicing r, extension strict r] scopes c = pure [c] := by
      rw [hattrs]
      exact List.forall_mem_nil _
    rw [Walk.below_of_pure (f := fun _ c => c) hnone fun c h scopes _ => hc c h scopes, onParts_id]
  rw [node_splicing strict r scopes huse, hbelow, pure_bind, hleave]

theorem run_transform_of_leaves (strict : Bool) (r : Resolver) (hname : Plain name)
    (hc : ∀ c ∈ children, Scope.of? c = none) (s : Session) :
    (Builder.run (transform strict) r (template [tag name [] children .pair o] o')).run s =
      (.ok (template [tag name [] children .pair o] o'), s) := by
  let page := template [tag name [] children .pair o] o'
  have hlink : page.link [] = page := by
    have htarget : target? (reach [] [] ++ []) name = none := by
      rw [target?, hname.included]
      rfl
    rw [link, linkAll, link, if_neg hname.use, htarget, linkAll_of_leaves hc]
    rfl
  have hleaf (c : Node) (h : c ∈ children) (scopes : List Scope) :
      Walk.node [splicing r, extension strict r] scopes c = pure [c] := by
    have hc := hc c h
    cases c with
    | raw | directive | echo | host =>
      exact node_of_still strict r rfl rfl rfl (List.forall_mem_nil _)
    | _ => cases hc
  have htag (scopes : List Scope) :
      Walk.node [splicing r, extension strict r] scopes (tag name [] children .pair o) =
        pure [tag name [] children .pair o] :=
    node_of_still strict r (by simpa [isUse] using hname.use) rfl rfl hleaf
  have hleave : Walk.leaveAll [] page [splicing r, extension strict r] = pure [page] := by
    simp [page, Walk.leaveAll, splicing, extension, Visitor.onLeave, takeExtends, hname.extending]
  have hroot : Walk.root [splicing r, extension strict r] page = pure page := by
    rw [Walk.root, node_of_still strict r rfl rfl hleave (List.forall_mem_singleton.mpr htag),
      pure_bind]
  rw [run_transform_eq, hlink]
  show ((Walk.root [splicing r, extension strict r] page).run' {}).run s = _
  rw [hroot]
  rfl

end Pass

namespace Lexer

theorem exists_last {ident : List Char} (h : Scan.IsIdent ident) (arguments : Option (List Char)) :
    ∃ front last, '@' :: ident ++ argumentText arguments = front ++ [last] ∧
      isBreak last = false := by
  cases arguments with
  | some inner => exact ⟨'@' :: ident ++ '(' :: inner, ')', by simp [argumentText], by decide⟩
  | none =>
    obtain ⟨c, rest, rfl, hc, hrest⟩ := h
    have hall : ∀ d ∈ c :: rest, Scan.isIdentChar d = true :=
      List.forall_mem_cons.mpr ⟨Scan.isIdentChar_of_start hc, hrest⟩
    obtain hnil | ⟨front, last, hlast⟩ := List.eq_nil_or_concat' (c :: rest)
    · cases hnil
    · rw [hlast] at hall ⊢
      refine ⟨'@' :: front, last, by simp [argumentText], Bool.eq_false_iff.mpr fun hbreak => ?_⟩
      have hident := hall last (List.mem_append_right _ List.mem_cons_self)
      rcases Bool.or_eq_true _ _ ▸ hbreak with hbreak | hbreak
      · rw [eq_of_beq hbreak] at hident
        cases hident
      · rw [eq_of_beq hbreak] at hident
        cases hident

theorem toList_verbatim (ident : List Char) (arguments : Option (List Char)) :
    (Pass.verbatim (String.ofList ident) (arguments.map String.ofList)).toList =
      '@' :: ident ++ argumentText arguments := by
  cases arguments <;> simp [Pass.verbatim, argumentText]

end Lexer

namespace Node

open Lexer

variable {d : Directives} {preserve : List Scope → Bool} {scopes : List Scope}

/-- In a style sheet whose directives are all unknown, everything settles as text, and that is the
text of the sheet with the runs of line breaks collapsed. -/
theorem Sheet.settles {children : List Node} {u : List Char} (h : Sheet children u)
    (hstyle : scopes.any (Scope.isTagOf ["style"]) = true) (hpreserve : preserve scopes = false)
    (hunknown : ∀ after ident rest, '@' :: after <:+ u → Scan.ident? after = some (ident, rest) →
      d.knows (String.ofList ident) = false) :
    ∃ out, settleAll d preserve scopes children = .ok out ∧
      literalAll? out = some (collapseBreaks u) ∧ ∀ n ∈ out, Scope.of? n = none := by
  have htidied (text : String) : (tidied preserve scopes text).toList =
      collapseBreaks text.toList := by
    rw [tidied, if_neg (by simp [hpreserve]), toList_onChars]
  induction h with
  | nil => exact ⟨[], rfl, rfl, List.forall_mem_nil _⟩
  | @text nodes piece rest o ends _ ih =>
    obtain ⟨out, hout, htext, hleaves⟩ := ih fun after ident after' hsuffix =>
      hunknown after ident after' (hsuffix.trans (List.suffix_append _ _))
    refine ⟨raw (tidied preserve scopes (String.ofList piece)) o :: out, ?_, ?_,
      List.forall_mem_cons.mpr ⟨rfl, hleaves⟩⟩
    · rw [settleAll, hout]
      rfl
    · have hparts : collapseBreaks (piece ++ rest) =
          collapseBreaks piece ++ collapseBreaks rest := by
        rcases ends with rfl | ⟨tail, rfl⟩
        · rw [List.append_nil]
          exact (List.append_nil _).symm
        · exact collapseBreaks_append_cons (by decide) piece tail
      rw [literalAll?, htext, hparts, literal?, htidied, String.toList_ofList]
      rfl
  | @directive nodes ident rest arguments values o named _ ih =>
    obtain ⟨out, hout, htext, hleaves⟩ := ih fun after ident after' hsuffix =>
      hunknown after ident after' (hsuffix.trans (List.suffix_append _ _))
    have hname : d.knows (String.ofList ident) = false := by
      refine hunknown _ _ _ ?_ named
      simp
    obtain ⟨front, last, hlast, hbreak⟩ := exists_last (Scan.isIdent_of_ident? named) arguments
    refine ⟨raw (tidied preserve scopes
      (Pass.verbatim (String.ofList ident) (arguments.map String.ofList))) o :: out, ?_, ?_,
      List.forall_mem_cons.mpr ⟨rfl, hleaves⟩⟩
    · rw [settleAll, settle, hname, hstyle, hout]
      rfl
    · rw [literalAll?, htext, literal?, htidied, toList_verbatim, hlast,
        collapseBreaks_concat_append hbreak]
      rfl

theorem fillStacksAll_of_leaves {nodes : List Node} (h : ∀ n ∈ nodes, Scope.of? n = none)
    (c : List Contribution) : fillStacksAll c nodes = nodes := by
  induction nodes with
  | nil => rfl
  | cons n nodes ih =>
    obtain ⟨hfirst, hrest⟩ := List.forall_mem_cons.mp h
    rw [fillStacksAll, ih hrest]
    cases n with
    | raw | directive | echo | host => rfl
    | _ => cases hfirst

theorem Sheet.assembled {children : List Node} {u : List Char} (h : Sheet children u)
    (hunknown : ∀ after ident rest, '@' :: after <:+ u → Scan.ident? after = some (ident, rest) →
      d.knows (String.ofList ident) = false) (o o' : Origin) :
    ∃ out, Pass.assembled d (Pass.preserveIn defaultPreserveTags)
        [tag "style" [] children .pair o] o' = .ok [tag "style" [] out .pair o] ∧
      literalAll? out = some (collapseBreaks u) := by
  have hstyle : [Scope.template o'.path, .tag "style"].any (Scope.isTagOf ["style"]) = true := by
    simp [Scope.isTagOf, sameName]
  have hpreserve : Pass.preserveIn defaultPreserveTags [.template o'.path, .tag "style"] = false :=
    rfl
  obtain ⟨out, hout, htext, hleaves⟩ := h.settles hstyle hpreserve hunknown
  have hsettled : settleAll d (Pass.preserveIn defaultPreserveTags) [.template o'.path]
      [tag "style" [] children .pair o] = .ok [tag "style" [] out .pair o] := by
    rw [settleAll, settle]
    exact hout ▸ rfl
  refine ⟨out, ?_, htext⟩
  rw [Pass.assembled, hsettled]
  show Except.ok (fillStacksAll _ _) = _
  rw [fillStacksAll, fillStacks, fillStacksAll_of_leaves hleaves]
  rfl

theorem spells_element (name : String) (o : Origin) {children : List Node} {text : List Char}
    (h : literalAll? children = some text) :
    Spells ((tag name [] children .pair o).emit .all)
      ('<' :: (name.toList ++ '>' :: (text ++ '<' :: '/' :: (name.toList ++ ['>'])))) := by
  obtain ⟨inner, hinner, rfl⟩ := spells_emitAll (fun n _ _ => spells_emit n) h
  refine ⟨("<" ++ name, o) :: (">", o) :: inner ++ [("</" ++ name ++ ">", o)], ?_, ?_⟩
  · rw [emit, hinner]
    simp [bind, Except.bind, pure, Except.pure, Renderers.all, emitAttrs]
  · simp [Printed.joined]

theorem spells_single {n : Node} {text : List Char} (h : Spells (n.emit .all) text) {o : Origin} :
    Spells ((template [n] o).emit .all) text := by
  obtain ⟨pieces, hemit, hjoined⟩ := h
  refine ⟨pieces, ?_, hjoined⟩
  rw [emit, emitAll, hemit]
  exact congrArg Except.ok (List.append_nil _)

theorem content_of_spells {root : Node} {text : List Char} (h : Spells (root.emit .all) text)
    (hne : text ≠ []) {paths : List String} {chunk : Chunk}
    (hcompile : root.compile .all paths = .ok chunk) :
    chunk.content = "__write(\"" ++ Output.escape (String.ofList text) ++ "\")\n" := by
  obtain ⟨pieces, hemit, rfl⟩ := h
  rw [compile, hemit] at hcompile
  cases hcompile
  have hcontent : (Chunk.ofOutput paths (pieces.map fun p => .text p.1 p.2)).content =
      Output.content ((Printed.written pieces).map Prod.fst) := by
    rw [Chunk.ofOutput, Output.lines_eq_print, Printed.ofOutput_texts]
    rfl
  rw [hcontent, String.ofList_toList]
  rcases Printed.content_written pieces with ⟨hempty, -⟩ | hline
  · rw [hempty] at hne
    exact absurd rfl hne
  · exact hline

end Node

namespace Builder

variable {limit : Nat} {directives : Directives} {preserve : List Scope → Bool} {strict : Bool}
  {l : Loader} {context : Context} {path : String} {view : View}

theorem text_of_free {text : String} (hread : l.read view = .ok text)
    (hfree : ¬ "@\x7b".toList <:+: text.toList) :
    (nesting limit directives preserve strict l).text context view = .ok text := by
  have hsource : (nesting limit directives preserve strict l).text context view =
      l.read view >>= fun text => Processor.context.run view context text >>= pure := rfl
  have hprocessed : Processor.context.run view context text = .ok text :=
    Processor.context_eq_ok_of_free view context hfree
  rw [hsource, hread]
  exact congrArg (· >>= pure) hprocessed

theorem parse_style_run {r : Resolver} {s s' : Session} {n : Node} {text : String} {u : List Char}
    (hread : l.read view = .ok text) (htext : text.toList = Lexer.enclosing "style".toList u)
    (h : Lexer.Enclosed "style" u) (hvalue : ¬ "@\x7b".toList <:+: u)
    (hparse : ((nesting limit directives preserve strict l).parse context r view).run s =
      (.ok n, s')) :
    ∃ children o o', Node.Sheet children u ∧
      n = .template [.tag "style" [] children .pair o] o' := by
  have hfree : ¬ "@\x7b".toList <:+: text.toList := by
    rw [htext]
    intro hinfix
    rcases infix_append_cons (s := '<' :: "style".toList) (by decide) hinfix with hfront | hrest
    · exact absurd hfront (by decide)
    · rcases infix_append_cons (by decide) hrest with hbody | hback
      · exact hvalue hbody
      · exact absurd hback (by decide)
  obtain ⟨body, hbody⟩ := exists_body_of_parse_run hparse
  rw [hbody.parse_run] at hparse
  obtain ⟨source, hsource, hroot⟩ := hbody
  cases (text_of_free hread hfree).symm.trans hsource
  obtain ⟨children, o, hsheet, hstyle⟩ := Node.parse_style h htext hroot
  rw [hstyle] at hparse
  obtain ⟨prepared, t, hprepare, htransform⟩ := run_bind_eq_ok.mp hparse
  have hnormal : Node.PreparedName "style" := ⟨by decide, by decide, by decide⟩
  cases (Pass.run_prepare_of_normal r (Pass.normal_of_leaves hnormal hsheet.leaves) _).symm.trans
    hprepare
  have hplain : Pass.Plain "style" := ⟨by decide, by decide, by decide⟩
  cases (Pass.run_transform_of_leaves strict r hplain hsheet.leaves _).symm.trans htransform
  exact ⟨children, o, _, hsheet, rfl⟩

/-- A style sheet passes through. If the page of a style sheet compiles, where the sheet has no
code, echo, escape or value of the context in it and all its at-rules are unknown directives, then
its chunk writes the sheet at once, with one line feed in the place of each run of line breaks. -/
theorem stylesheets_pass_through (limit : Nat) (directives : Directives) (strict : Bool)
    (l : Loader) (context : Context) (path : String) (view : View) (sheet : String) (chunk : Chunk)
    (hlocate : l.locate path = .ok view)
    (hread : l.read view = .ok ("<style>" ++ sheet ++ "</style>"))
    (hecho : ¬ "\x7b\x7b".toList <:+: sheet.toList)
    (hunescaped : ¬ "\x7b!!".toList <:+: sheet.toList)
    (hhost : ¬ "<?lua".toList <:+: sheet.toList) (hescape : ¬ "@@".toList <:+: sheet.toList)
    (hvalue : ¬ "@\x7b".toList <:+: sheet.toList)
    (hclosing : ∀ after, "</".toList ++ after <:+ sheet.toList →
      sameName (String.ofList (Scan.tagName after).1) "style" = false)
    (hunknown : ∀ after name rest, '@' :: after <:+ sheet.toList →
      Scan.ident? after = some (name, rest) → directives.knows (String.ofList name) = false)
    (h : ((nesting limit directives (Pass.preserveIn defaultPreserveTags) strict l).compile context
      path).1 = .ok chunk) :
    ∃ tidy : String, Collapsed sheet.toList tidy.toList ∧
      ∃ inside, chunk.content = "__write(\"" ++ inside ++ "\")\n" ∧
        inside = Output.escape ("<style>" ++ tidy ++ "</style>") ∧
        Script.Token.Denotes inside ("<style>" ++ tidy ++ "</style>") := by
  have hsource : ("<style>" ++ sheet ++ "</style>").toList =
      Lexer.enclosing "style".toList sheet.toList := by
    rw [String.toList_append, String.toList_append, List.append_assoc]
    rfl
  obtain ⟨page, hbuild, hpage⟩ := compile_eq_ok h
  obtain ⟨root, s, hload, hfinalize⟩ := run_bind_eq_ok.mp hbuild
  obtain ⟨view', k, hl, hc, hlimit⟩ := loadAt_run_eq_ok hload
  cases hlocate.symm.trans hl
  rw [load, hlimit, loadAt_run context k none hlocate hc] at hload
  obtain ⟨children, o, o', hsheet, rfl⟩ :=
    parse_style_run hread hsource ⟨hhost, hunescaped, hecho, hescape, hclosing⟩ hvalue hload
  obtain ⟨root', t, hrun, hroot⟩ := run_bind_eq_ok.mp hfinalize
  cases hroot
  obtain ⟨nodes, hnodes, rfl⟩ := Pass.exists_assembled hrun
  obtain ⟨out, hout, htext⟩ := hsheet.assembled hunknown o o'
  cases hout.symm.trans hnodes
  have hspells : Node.Spells
      ((Node.template (Pass.trimEdges [.tag "style" [] out .pair o]) o').emit .all) _ :=
    Node.spells_single (Node.spells_element "style" o htext)
  have hwritten : "<style>" ++ onChars collapseBreaks sheet ++ "</style>" =
      String.ofList (Lexer.enclosing "style".toList (collapseBreaks sheet.toList)) := by
    rw [← String.toList_inj, String.toList_ofList, String.toList_append, String.toList_append,
      toList_onChars, List.append_assoc]
    rfl
  refine ⟨onChars collapseBreaks sheet, ?_, _, Node.content_of_spells hspells ?_ hpage, ?_,
    hwritten ▸ Output.denotes_escape _⟩
  · rw [toList_onChars]
    exact collapsed_collapseBreaks _
  · exact List.cons_ne_nil _ _
  · rw [hwritten]
    rfl

def startsKnown (d : Directives) (s : List Char) : Bool :=
  s.head? == some '@' && (Scan.ident? s.tail).any fun found => d.knows (String.ofList found.1)

theorem unknown_of_tails {d : Directives} {s : List Char}
    (h : s.tails.all (!startsKnown d ·) = true) (after name rest : List Char)
    (hafter : '@' :: after <:+ s) (hname : Scan.ident? after = some (name, rest)) :
    d.knows (String.ofList name) = false := by
  have hstart := List.all_eq_true.mp h _ ((List.mem_tails _ _).mpr hafter)
  simpa [startsKnown, hname] using hstart

/-- At-rules with and without parentheses, runs of line breaks of both kinds, an at-sign inside a
word, and tags. -/
def shades : String :=
  "@charset \"a\";\r\n\r\n@media (b) \x7b\n\n c@d > i \x7b\x7d </b> </styles> \x7d\n"

def shadedTemplates : Templates := [("default:page", "<style>" ++ shades ++ "</style>")]

set_option maxRecDepth 100000 in
theorem stylesheets_pass_through_shades : ∃ chunk inside,
    ((default shadedTemplates.loader).compile .empty "page").1 = .ok chunk ∧
      chunk.content = "__write(\"" ++ inside ++ "\")\n" ∧
      ∃ tidy : String, Collapsed shades.toList tidy.toList ∧
        Script.Token.Denotes inside ("<style>" ++ tidy ++ "</style>") := by
  have hcompiles : ((default shadedTemplates.loader).compile .empty "page").1.toOption.isSome =
      true := by decide +kernel
  obtain ⟨chunk, hchunk⟩ := Option.isSome_iff_exists.mp hcompiles
  have hchunk := eq_ok_of_toOption hchunk
  obtain ⟨tidy, htidy, inside, hcontent, -, hdenotes⟩ := stylesheets_pass_through defaultMaxDepth
    .builtin false shadedTemplates.loader .empty "page" _ shades chunk rfl rfl (by decide +kernel)
    (by decide +kernel) (by decide +kernel) (by decide +kernel) (by decide +kernel)
    (Lexer.noClosing_of_tails (by decide +kernel)) (unknown_of_tails (by decide +kernel)) hchunk
  exact ⟨chunk, inside, hchunk, hcontent, tidy, htidy, hdenotes⟩

end Builder

end Lamina
