import Lamina.Proofs.Builder.Stages
import Lamina.Proofs.Pass.Code

/-! From what is written to the page. A trait that every template has as it is parsed, and that is
not lost where a template is attached to another, goes through all stages of a build. -/

namespace Lamina.Builder

variable {b : Builder} {context : Context} {T T' : Trait}

theorem has_of_parsed (hb : b.Merges) {directives : Directives} {preserve : List Scope → Bool}
    (hfinalize : b.finalize = Pass.finalize directives preserve) (hT : T.OfCode) (hT' : T'.OfCode)
    (he : Pass.Expands directives T T') (hattach : ∀ o, T.Attaches o T)
    (hroot : ∀ view text root, (∃ path, b.loader.locate path = .ok view) →
      b.text context view = .ok text → Node.parse text view.filename = .ok root → root.Has T)
    {path : String} {page : Page} (h : (b.build context path).1 = .ok page) :
    page.root.Has T' :=
  has_of_build hfinalize (he.finishes hT hT') (fun _ view r hl hr =>
    parse_refined hb (Pass.prepare_keeps hT r)
      (fun strict => Pass.transform_keeps hT strict hattach hr)
      (fun _ _ => ⟨hT _ rfl, hT _ rfl⟩) fun text root => hroot view text root hl) h

end Lamina.Builder
