import Folio.Proofs.Marks
import Folio.Proofs.Resanitize

set_option autoImplicit false

/-!
# The text that is shown

Where no element is dropped with what is in it, sanitizing loses no text and changes none: outside of
its tags the sanitized markup decodes to the texts of the markup, one after the other. The texts are
written one by one, and a tag between two of them may go. But every reference that is written is
whole, so none can come to be where two texts meet.
-/
namespace Folio.Markup

/-- What a reader is shown of a token. -/
def Token.shown : Token → Text
  | .text s => decode s
  | .rawText s => s
  | _ => []

def shown (ts : List Token) : Text := ts.flatMap Token.shown

/-- A token that opens no element which may be dropped with its content. -/
def Token.Lasting (t : Token) : Prop := ∀ tag ∈ t.element?, tag ∉ droppedTags ∧ tag ≠ "iframe"

instance (t : Token) : Decidable t.Lasting := inferInstanceAs (Decidable (∀ tag ∈ t.element?, _))

theorem outsideOf_append (ps qs : List Piece) : outsideOf (ps ++ qs) = outsideOf ps ++ outsideOf qs :=
  List.flatMap_append

theorem outsideOf_closing (l : List Text) : outsideOf (l.map Piece.closing) = [] := by
  induction l with
  | nil => rfl
  | cons t l ih => exact ih

section

variable [Link.HostReader] (policy : Policy) {p : Progress}

theorem openElement_lasting {tag : Text} (hd : tag ∉ droppedTags) (hf : tag ≠ "iframe")
    (attributes : List Attribute) (selfClosing : Bool) :
    outsideOf (openElement policy p tag attributes selfClosing).1 = [] ∧
      (openElement policy p tag attributes selfClosing).2.dropping = p.dropping := by
  have hkept : isDropped tag = false := by simpa [isDropped] using hd
  have hframe (l : List Kept) : (decide (tag = "iframe") && !hasEmbedSource l) = false := by
    rw [decide_eq_false hf, Bool.false_and]
  unfold openElement
  dsimp only
  rw [hkept, hframe, if_neg Bool.false_ne_true, if_neg Bool.false_ne_true]
  split
  · exact ⟨rfl, rfl⟩
  · exact ⟨rfl, by split <;> rfl⟩

omit [Link.HostReader] in
theorem closeElement_lasting (p : Progress) (tag : Text) : outsideOf (closeElement p tag).1 = [] ∧
    (closeElement p tag).2.dropping = p.dropping := by
  unfold closeElement
  split
  · exact ⟨rfl, rfl⟩
  · exact ⟨outsideOf_closing _, rfl⟩

theorem decode_outsideOf_step (hp : p.dropping = none) {t : Token} (ht : t.Lasting) :
    (∀ r, decode (outsideOf (step policy p t).1 ++ r) = t.shown ++ decode r) ∧
      (step policy p t).2.dropping = none := by
  unfold step
  rw [hp]
  cases t with
  | text s =>
    refine ⟨fun r => ?_, hp⟩
    have hone : outsideOf [.text (respell s)] = respell s := List.append_nil _
    rw [hone, (respelled s).decode_append]
    rfl
  | rawText s =>
    refine ⟨fun r => ?_, hp⟩
    have hone : outsideOf [.text (escape s)] = escape s := List.append_nil _
    rw [hone, decode_escape_append]
    rfl
  | startTag tag attributes selfClosing =>
    obtain ⟨hd, hf⟩ := ht tag rfl
    obtain ⟨hout, hdropping⟩ := openElement_lasting policy hd hf attributes selfClosing
    exact ⟨fun r => by rw [hout]; rfl, hdropping.trans hp⟩
  | endTag tag =>
    obtain ⟨hout, hdropping⟩ := closeElement_lasting p tag
    exact ⟨fun r => by rw [hout]; rfl, hdropping.trans hp⟩
  | comment s => exact ⟨fun _ => rfl, hp⟩
  | bogus => exact ⟨fun _ => rfl, hp⟩

theorem decode_outsideOf_pieces {ts : List Token} (ht : ∀ t ∈ ts, t.Lasting)
    (hp : p.dropping = none) : decode (outsideOf (pieces policy p ts)) = shown ts := by
  induction ts generalizing p with
  | nil =>
    rw [pieces, outsideOf_closing, decode]
    rfl
  | cons t ts ih =>
    obtain ⟨ht, hts⟩ := List.forall_mem_cons.1 ht
    obtain ⟨hstep, hdropping⟩ := decode_outsideOf_step policy hp ht
    rw [pieces, outsideOf_append, hstep, ih hts hdropping]
    rfl

variable {policy}

/-- Sanitized markup shows the text that the markup shows. -/
theorem decode_outside_sanitize (h : policy ≠ .trustedCode) (s : Text)
    (hs : ∀ t ∈ tokens s, t.Lasting) :
    ∃ outside tags, dissect? (sanitize policy s) = some (outside, tags) ∧
      decode outside = shown (tokens s) :=
  ⟨_, _, dissect?_sanitize h s, decode_outsideOf_pieces policy hs rfl⟩

end

theorem decode_outside_sanitize_split :
    (Policy.richContent ≠ .trustedCode ∧
      ∀ t ∈ tokens "a&<x>lt; &copy;&lt<!--c-->;<noembed>&amp;</noembed>&am<b>p;</i>", t.Lasting) ∧
    ∃ outside tags, dissect? (sanitize .richContent
        "a&<x>lt; &copy;&lt<!--c-->;<noembed>&amp;</noembed>&am<b>p;</i>") = some (outside, tags) ∧
      decode outside =
        shown (tokens "a&<x>lt; &copy;&lt<!--c-->;<noembed>&amp;</noembed>&am<b>p;</i>") := by
  have hs : ∀ t ∈ tokens "a&<x>lt; &copy;&lt<!--c-->;<noembed>&amp;</noembed>&am<b>p;</i>",
      t.Lasting := by decide +kernel
  exact ⟨⟨by decide, hs⟩, decode_outside_sanitize (by decide) _ hs⟩

end Folio.Markup
