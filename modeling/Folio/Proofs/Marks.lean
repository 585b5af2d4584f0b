import Folio.Proofs.Enclosure
import Folio.Proofs.Reread

set_option autoImplicit false

/-!
# Sanitized markup letter by letter

Sanitized markup is taken apart by its angle brackets alone: each `<` has to start a tag that ends with
the next `>`, and no other `>` may stand anywhere. There is no raw text in this reading, so every tag
that was written is met, those inside an element of raw text too.
-/
namespace Folio.Markup

def Mark.tag : Mark → Token
  | opening tag l => .startTag tag l false
  | closing tag => .endTag tag

/-- The text outside of all tags, and the tags. No answer where a `<` starts no tag or a `>` ends
    none. -/
def dissect? : Text → Option (Text × List Token)
  | [] => some ([], [])
  | c :: s =>
    if c = '<' then
      match _h : mark? s with
      | none => none
      | some (m, r) => (dissect? r).map fun (outside, tags) => (outside, m.tag :: tags)
    else if c = '>' then none
    else (dissect? s).map fun (outside, tags) => (c :: outside, tags)
termination_by s => s.length
decreasing_by
  · exact Nat.lt_succ_of_lt (length_lt_of_mark? _h)
  · exact Nat.lt_succ_self _

theorem dissect?_mark {s r : Text} {m : Mark} (h : mark? s = some (m, r)) :
    dissect? ('<' :: s) = (dissect? r).map fun (outside, tags) => (outside, m.tag :: tags) := by
  rw [dissect?, if_pos rfl]
  split
  · rename_i e
    exact nomatch e.symm.trans h
  · rename_i e
    obtain ⟨rfl, rfl⟩ := Prod.mk.inj (Option.some.inj (e.symm.trans h))
    rfl

theorem dissect?_inert_append {w : Text} (h : Inert w) (r : Text) :
    dissect? (w ++ r) = (dissect? r).map fun (outside, tags) => (w ++ outside, tags) := by
  induction w with
  | nil => simp
  | cons c w ih =>
    obtain ⟨⟨hopen, hclose, _, _⟩, hw⟩ := List.forall_mem_cons.1 h
    rw [List.cons_append, dissect?, if_neg hopen, if_neg hclose, ih hw, Option.map_map]
    rfl

def Piece.outside : Piece → Text
  | .text w => w
  | _ => []

def outsideOf (ps : List Piece) : Text := ps.flatMap Piece.outside

theorem dissect?_written {ps : List Piece} (hp : ∀ p ∈ ps, p.Legible) :
    dissect? (written ps) = some (outsideOf ps, writtenTags ps) := by
  induction ps with
  | nil => rw [written, List.flatMap_nil, dissect?]; rfl
  | cons p ps ih =>
    obtain ⟨hp, hrest⟩ := List.forall_mem_cons.1 hp
    have hps := ih hrest
    rw [← List.append_nil (written (p :: ps)), written_cons, List.append_nil]
    cases p with
    | text w => exact (dissect?_inert_append hp _).trans (by rw [hps]; rfl)
    | opening tag l =>
      have hmark := mark?_openingTag hp.1.1 (legible_attributes hp) (written ps)
      rw [attributes_reread hp] at hmark
      rw [write_opening, openingTag_append, dissect?_mark hmark, hps]
      rfl
    | closing tag =>
      have hmark := mark?_endTag hp (written ps)
      have hwrite : (Piece.closing tag).write ++ written ps =
          '<' :: '/' :: (tag ++ '>' :: written ps) := endTag_append tag _
      rw [hwrite, dissect?_mark hmark, hps]
      rfl

def Token.Quoteless : Token → Prop
  | .startTag _ l _ => ∀ a ∈ l, ∀ v ∈ a.value, '"' ∉ v
  | _ => True

theorem quoteless_writtenTags {ps : List Piece} (hp : ∀ p ∈ ps, p.Legible) :
    ∀ t ∈ writtenTags ps, t.Quoteless := by
  intro t ht
  obtain ⟨p, hmem, ht⟩ := List.mem_filterMap.1 ht
  cases p with
  | text w => simp [Piece.tag?] at ht
  | opening tag l =>
    obtain rfl := Option.some.inj ht
    intro a ha v hv
    exact ((legible_attributes (hp _ hmem) a ha).value v hv).not_mem_quote
  | closing tag =>
    obtain rfl := Option.some.inj ht
    trivial

/-- A text that falls apart into tags, which are balanced and without quotes in their values. -/
structure Tidy (s : Text) (tags : List Token) : Prop where
  read : ∃ outside, dissect? s = some (outside, tags)
  quotes : ∀ t ∈ tags, t.Quoteless
  balanced : isBalanced [] tags = true

section

variable [Link.HostReader] {policy : Policy}

theorem dissect?_sanitize (h : policy ≠ .trustedCode) (s : Text) :
    dissect? (sanitize policy s) = some (outsideOf (pieces policy .start (tokens s)),
      writtenTags (pieces policy .start (tokens s))) := by
  rw [sanitize_of_ne h]
  exact dissect?_written fun p hp => (from_sanitized policy s p hp).1

/-- Sanitized markup falls apart into the tags that were written, all of them and in their order. -/
theorem tidy_sanitize (h : policy ≠ .trustedCode) (s : Text) :
    Tidy (sanitize policy s) (writtenTags (pieces policy .start (tokens s))) := by
  have hnested : Nested [] (pieces policy .start (tokens s)) := nested_pieces policy .start _
  exact {
    read := ⟨_, dissect?_sanitize h s⟩
    quotes := quoteless_writtenTags fun p hp => (from_sanitized policy s p hp).1
    balanced := isBalanced_writtenTags hnested }

end

theorem tidy_sanitize_disordered :
    Policy.htmlBlock ≠ .trustedCode ∧
      Tidy (sanitize .htmlBlock "<noembed/><p title='\"'>a > b<i></p></div><BR></br>")
        [.startTag "noembed" [] false, .startTag "p" [⟨"title", some ("&quot;" : Text)⟩] false,
         .startTag "i" [] false, .endTag "i", .endTag "p", .startTag "br" [] false,
         .endTag "noembed"] := by
  have htags : writtenTags (pieces .htmlBlock .start
        (tokens "<noembed/><p title='\"'>a > b<i></p></div><BR></br>")) =
      [.startTag "noembed" [] false, .startTag "p" [⟨"title", some ("&quot;" : Text)⟩] false,
       .startTag "i" [] false, .endTag "i", .endTag "p", .startTag "br" [] false,
       .endTag "noembed"] := by decide +kernel
  exact ⟨by decide, htags ▸ tidy_sanitize (by decide) _⟩

end Folio.Markup
