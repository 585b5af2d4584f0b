import Folio.Markup.Element
import Folio.Proofs.Tags

set_option autoImplicit false

/-!
# Written elements read back

The elements that the renderer builds are read back from what is written as the tags of the tree, if
their names are names and the markup they hold is self-contained. An element of raw text has to hide
what it holds.
-/
namespace Folio.Markup

def spelled (a : PlainAttribute) : Attribute := ⟨a.1, a.2.map escapeAttribute⟩

theorem writeAttribute_eq (a : PlainAttribute) : Html.writeAttribute a = (spelled a).spell := by
  obtain ⟨name, value⟩ := a
  cases value <;> simp [Html.writeAttribute, Attribute.spell, spelled]

theorem startTag_eq (tag : Text) (l : List PlainAttribute) :
    Html.startTag tag l = openingTag tag (l.map spelled) := by
  have h : l.flatMap Html.writeAttribute = (l.map spelled).flatMap Attribute.spell := by
    rw [List.flatMap_map]
    exact congrArg (fun f => List.flatMap f l) (funext writeAttribute_eq)
  rw [Html.startTag, openingTag, h]

def readAttributes (l : List PlainAttribute) : List Attribute :=
  Lexer.firstOfEach ((l.map spelled).map Attribute.lowered)

def NamedAttributes (l : List PlainAttribute) : Prop := ∀ a ∈ l, isAttributeName a.1 = true

theorem legible_spelled {l : List PlainAttribute} (h : NamedAttributes l) :
    ∀ a ∈ l.map spelled, a.Legible := by
  intro a ha
  obtain ⟨b, hb, rfl⟩ := List.mem_map.1 ha
  refine ⟨h b hb, ?_⟩
  intro v hv
  obtain ⟨w, _, rfl⟩ := Option.map_eq_some_iff.1 hv
  exact inert_escapeAttribute w

theorem tags_startTag {tag : Text} (h : isTagName tag = true) {l : List PlainAttribute}
    (hl : NamedAttributes l) (r : Text) : tags (Html.startTag tag l ++ r) =
      .startTag tag (readAttributes l) false :: tagsFrom (rawOf tag) r := by
  rw [startTag_eq, tags_openingTag h (legible_spelled hl)]
  rfl

/-- Text that is passed over within a raw-text element, whatever stands behind it. -/
def Hidden (name w : Text) : Prop := ∀ r, tagsFrom (some name) (w ++ r) = tagsFrom (some name) r

theorem hidden_inert {name w : Text} (hn : name ≠ "plaintext") (h : '<' ∉ w) : Hidden name w :=
  tagsFrom_inert_append hn h

theorem hidden_append {name v w : Text} (hv : Hidden name v) (hw : Hidden name w) :
    Hidden name (v ++ w) := by
  intro r
  rw [List.append_assoc, hv, hw]

namespace Html

mutual

def tags : Html → List Token
  | element tag attributes content =>
    .startTag tag (readAttributes attributes) false ::
      ((if (rawOf tag).isSome then [] else tagsAll content) ++ [.endTag tag])
  | void tag attributes => [.startTag tag (readAttributes attributes) false]
  | text _ => []
  | markup s => Markup.tags s

def tagsAll : List Html → List Token
  | [] => []
  | h :: rest => tags h ++ tagsAll rest

end

mutual

/-- Whether a tree is read back as its tags. -/
def Legible : Html → Prop
  | element tag attributes content => isTagName tag = true ∧ NamedAttributes attributes ∧
    match rawOf tag with
    | none => LegibleAll content
    | some name => name ≠ "plaintext" ∧ Hidden name (writeAll content)
  | void tag attributes => isTagName tag = true ∧ NamedAttributes attributes ∧ rawOf tag = none
  | text _ => True
  | markup s => SelfContained s

def LegibleAll : List Html → Prop
  | [] => True
  | h :: rest => Legible h ∧ LegibleAll rest

end

mutual

theorem tags_write : (h : Html) → h.Legible → ∀ r, Markup.tags (h.write ++ r) = h.tags ++ Markup.tags r
  | element tag attributes content, hl, r => by
    obtain ⟨ht, ha, hc⟩ := hl
    rw [write, List.append_assoc, List.append_assoc, tags_startTag ht ha, tags]
    cases hraw : rawOf tag with
    | none =>
      rw [hraw] at hc
      have hin : Markup.tags (writeAll content ++ (endTag tag ++ r)) = _ := tags_writeAll content hc _
      rw [show tagsFrom none (writeAll content ++ (endTag tag ++ r)) = _ from hin, tags_endTag ht]
      simp
    | some name =>
      rw [hraw] at hc
      obtain rfl : name = tag := by
        unfold rawOf at hraw
        split at hraw
        · exact (Option.some.inj hraw).symm
        · simp at hraw
      rw [hc.2, tagsFrom_endTag_self hc.1 ht]
      simp
  | void tag attributes, hl, r => by
    obtain ⟨ht, ha, hraw⟩ := hl
    rw [write, tags_startTag ht ha, hraw, tags]
    rfl
  | text s, _, r => by
    rw [write, tags_inert_append (inert_escape s).not_mem_open, tags]
    rfl
  | markup s, hl, r => hl r

theorem tags_writeAll : (l : List Html) → LegibleAll l → ∀ r,
    Markup.tags (writeAll l ++ r) = tagsAll l ++ Markup.tags r
  | [], _, r => rfl
  | h :: rest, hl, r => by
    rw [writeAll, tagsAll, List.append_assoc, tags_write h hl.1, tags_writeAll rest hl.2,
      List.append_assoc]

end

theorem legibleAll_append {l m : List Html} (hl : LegibleAll l) (hm : LegibleAll m) :
    LegibleAll (l ++ m) := by
  induction l with
  | nil => exact hm
  | cons h l ih => exact ⟨hl.1, ih hl.2⟩

theorem tagsAll_append (l m : List Html) : tagsAll (l ++ m) = tagsAll l ++ tagsAll m := by
  induction l with
  | nil => rfl
  | cons h l ih => rw [List.cons_append, tagsAll, tagsAll, ih, List.append_assoc]

theorem tags_of_write {h : Html} (hl : h.Legible) : Markup.tags h.write = h.tags := by
  simpa using tags_write h hl []

theorem selfContained_write {h : Html} (hl : h.Legible) : SelfContained h.write := by
  intro r
  rw [tags_of_write hl, tags_write h hl]

end Html

end Folio.Markup
