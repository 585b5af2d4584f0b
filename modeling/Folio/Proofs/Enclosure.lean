import Folio.Proofs.Outline

set_option autoImplicit false

/-!
# Rendered markup stays in its element

Here markup is read letter by letter, without the rules for raw text: each `<` starts a tag that ends
with the next `>`, and each end tag has to be that of the innermost element that stands open. A
component is written as one element around contained text, that is text which leaves every element
around it open; sanitized content and the elements of the children are such text.
-/
namespace Folio.Markup

inductive Mark where
  | opening (tag : Text) (attributes : List Attribute)
  | closing (tag : Text)
deriving DecidableEq, Repr

def openingMark? (s : Text) : Option Mark :=
  if isTagName (s.takeWhile Lexer.isNameChar) then
    match Lexer.attributes? (s.dropWhile Lexer.isNameChar ++ ">") with
    | some (l, _, []) => some (.opening (s.takeWhile Lexer.isNameChar) (Lexer.firstOfEach l))
    | _ => none
  else none

def Mark.ofText? : Text → Option Mark
  | '/' :: s => if isTagName s then some (.closing s) else none
  | s => openingMark? s

/-- The tag up to the next `>`, and the text behind it. No `<` stands inside a tag. -/
def mark? (s : Text) : Option (Mark × Text) :=
  match Text.cut? ">" s with
  | none => none
  | some (inside, r) => if inside.contains '<' then none else (Mark.ofText? inside).map (·, r)

theorem length_lt_of_mark? {s r : Text} {m : Mark} (h : mark? s = some (m, r)) :
    r.length < s.length := by
  unfold mark? at h
  split at h
  · simp at h
  · rename_i inside t hc
    split at h
    · simp at h
    · obtain ⟨n, _, e⟩ := Option.map_eq_some_iff.1 h
      obtain ⟨_, rfl⟩ : n = m ∧ t = r := by simpa using e
      rw [Text.cut?_eq_some hc]
      simp only [List.length_append]
      have hone : (">" : Text).length = 1 := rfl
      omega

/-- Whether a text closes the elements that stand open, the innermost first, and ends with the end of
    the outermost. -/
def closesAll : List Text → Text → Bool
  | [], s => s.isEmpty
  | _ :: _, [] => false
  | t :: opened, c :: s =>
    if c = '<' then
      match _h : mark? s with
      | none => false
      | some (.opening tag _, r) => closesAll (push tag (t :: opened)) r
      | some (.closing tag, r) => tag = t && closesAll opened r
    else closesAll (t :: opened) s
termination_by _ s => s.length
decreasing_by
  all_goals first
    | exact Nat.lt_succ_of_lt (length_lt_of_mark? _h)
    | exact Nat.lt_succ_self _

def isElement (id : Text) : Text → Bool
  | '<' :: s =>
    match mark? s with
    | some (.opening tag l, r) =>
      (Token.startTag tag l false).id? = some id && closesAll (push tag []) r
    | _ => false
  | _ => false

theorem mark?_of_inside {inside r : Text} {m : Mark} (ho : '<' ∉ inside) (hc : '>' ∉ inside)
    (h : Mark.ofText? inside = some m) : mark? (inside ++ '>' :: r) = some (m, r) := by
  have hcut : Text.cut? ">" (inside ++ '>' :: r) = some (inside, r) := Lexer.cut?_char hc r
  unfold mark?
  rw [hcut]
  simp [ho, h]

theorem mark?_endTag {tag : Text} (h : isTagName tag = true) (r : Text) :
    mark? ('/' :: (tag ++ '>' :: r)) = some (.closing tag, r) := by
  have ho : '<' ∉ '/' :: tag := by simpa using not_mem_open_of_isTagName h
  have hc : '>' ∉ '/' :: tag := by
    have htag : '>' ∉ tag := fun hm => (isTagChar_spec (isTagChar_of_isTagName h _ hm)).2.2.2 rfl
    simpa using htag
  exact mark?_of_inside ho hc (by rw [Mark.ofText?, if_pos h])

theorem not_mem_close_spell {a : Attribute} (h : a.Legible) : '>' ∉ a.spell := by
  have hname : '>' ∉ a.name := fun hm => absurd (h.nameChar _ hm) (by decide)
  obtain ⟨name, value⟩ := a
  cases value with
  | none => simpa [Attribute.spell] using hname
  | some v =>
    have hv : '>' ∉ v := fun hm => (h.value v rfl _ hm).2.1 rfl
    simpa [Attribute.spell, hv] using hname

theorem mark?_openingTag {tag : Text} (h : isTagName tag = true) {l : List Attribute}
    (hl : ∀ a ∈ l, a.Legible) (r : Text) :
    mark? (tag ++ (l.flatMap Attribute.spell ++ '>' :: r)) =
      some (.opening tag (Lexer.firstOfEach (l.map Attribute.lowered)), r) := by
  have hspell {c : Char} (hc : ∀ a ∈ l, c ∉ a.spell) : c ∉ l.flatMap Attribute.spell := by
    intro hm
    obtain ⟨a, ha, hm⟩ := List.mem_flatMap.1 hm
    exact hc a ha hm
  have ho : '<' ∉ tag ++ l.flatMap Attribute.spell := by
    simpa [not_mem_open_of_isTagName h] using hspell fun a ha => not_mem_open_spell (hl a ha)
  have hc : '>' ∉ tag ++ l.flatMap Attribute.spell := by
    have htag : '>' ∉ tag := fun hm => (isTagChar_spec (isTagChar_of_isTagName h _ hm)).2.2.2 rfl
    simpa [htag] using hspell fun a ha => not_mem_close_spell (hl a ha)
  have hend : ∀ c ∈ (l.flatMap Attribute.spell).head?, Lexer.isNameChar c = false := by
    cases l with
    | nil => simp
    | cons a l => simp [Attribute.spell]; decide
  obtain ⟨htake, hdrop⟩ := takeWhile_tagName h hend
  have hopening : openingMark? (tag ++ l.flatMap Attribute.spell) =
      some (.opening tag (Lexer.firstOfEach (l.map Attribute.lowered))) := by
    unfold openingMark?
    rw [htake, if_pos h, hdrop, show (">" : Text) = '>' :: [] from rfl, Lexer.attributes?_spell hl]
  have hmark : Mark.ofText? (tag ++ l.flatMap Attribute.spell) =
      openingMark? (tag ++ l.flatMap Attribute.spell) := by
    obtain ⟨c, s, rfl, hlower, _⟩ := isTagName_iff.1 h
    have hslash : c ≠ '/' := by
      rintro rfl
      exact absurd hlower (by decide)
    simp [Mark.ofText?, hslash]
  rw [← List.append_assoc]
  exact mark?_of_inside ho hc (hmark.trans hopening)

theorem closesAll_openingTag {tag : Text} (h : isTagName tag = true) {l : List Attribute}
    (hl : ∀ a ∈ l, a.Legible) {opened : List Text} (ho : opened ≠ []) (r : Text) :
    closesAll opened (openingTag tag l ++ r) = closesAll (push tag opened) r := by
  obtain ⟨t, opened, rfl⟩ := List.exists_cons_of_ne_nil ho
  have hmark := mark?_openingTag h hl r
  rw [openingTag_append, closesAll, if_pos rfl]
  split
  · rename_i e
    simp [hmark] at e
  · rename_i name l' q e
    obtain ⟨⟨rfl, _⟩, rfl⟩ : (tag = name ∧ _ = l') ∧ r = q := by simpa [hmark] using e
    rfl
  · rename_i e
    simp [hmark] at e

theorem closesAll_endTag {tag : Text} (h : isTagName tag = true) (opened : List Text) (r : Text) :
    closesAll (tag :: opened) (Html.endTag tag ++ r) = closesAll opened r := by
  have hmark := mark?_endTag h r
  rw [endTag_append, closesAll, if_pos rfl]
  split
  · rename_i e
    simp [hmark] at e
  · rename_i e
    simp [hmark] at e
  · rename_i name q e
    obtain ⟨rfl, rfl⟩ : tag = name ∧ r = q := by simpa [hmark] using e
    rw [decide_eq_true rfl, Bool.true_and]

/-- Text that leaves the elements around it open. -/
def Contained (s : Text) : Prop :=
  ∀ opened, opened ≠ [] → ∀ r, closesAll opened (s ++ r) = closesAll opened r

theorem contained_nil : Contained [] := fun _ _ _ => rfl

theorem contained_append {s t : Text} (hs : Contained s) (ht : Contained t) : Contained (s ++ t) := by
  intro opened ho r
  rw [List.append_assoc, hs opened ho, ht opened ho]

theorem contained_inert {w : Text} (h : '<' ∉ w) : Contained w := by
  intro opened ho r
  obtain ⟨t, opened, rfl⟩ := List.exists_cons_of_ne_nil ho
  induction w with
  | nil => rfl
  | cons c w ih =>
    have hc : c ≠ '<' := fun e => h (e ▸ List.mem_cons_self)
    rw [List.cons_append, closesAll, if_neg hc]
    exact ih fun hm => h (List.mem_cons_of_mem c hm)

theorem push_append (tag : Text) (opened around : List Text) :
    push tag (opened ++ around) = push tag opened ++ around := by
  unfold push
  split <;> rfl

/-- Nested pieces close what stands open before them, and leave open what is around. -/
theorem closesAll_written {ps : List Piece} {opened : List Text} (hn : Nested opened ps)
    (hp : ∀ p ∈ ps, p.Legible) {around : List Text} (ha : around ≠ []) (r : Text) :
    closesAll (opened ++ around) (written ps ++ r) = closesAll around r := by
  -- with `around` empty the text would be over with the last end tag
  induction ps generalizing opened with
  | nil =>
    obtain rfl : opened = [] := hn
    rfl
  | cons p ps ih =>
    obtain ⟨hp, hrest⟩ := List.forall_mem_cons.1 hp
    have ho : opened ++ around ≠ [] := List.append_ne_nil_of_right_ne_nil opened ha
    rw [written_cons]
    cases p with
    | text w => exact (contained_inert (Inert.not_mem_open hp) _ ho _).trans (ih hn hrest)
    | opening tag l =>
      rw [write_opening, closesAll_openingTag hp.1.1 (legible_attributes hp) ho, push_append]
      exact ih hn hrest
    | closing tag =>
      obtain ⟨rest, rfl, hn⟩ := hn
      exact (closesAll_endTag hp (rest ++ around) _).trans (ih hn hrest)

theorem contained_sanitize [Link.HostReader] {policy : Policy} (h : policy ≠ .trustedCode)
    (s : Text) : Contained (sanitize policy s) := by
  have hnested : Nested [] (pieces policy .start (tokens s)) := nested_pieces policy .start _
  intro opened ho r
  rw [sanitize_of_ne h]
  exact closesAll_written hnested (fun x hx => (from_sanitized policy s x hx).1) ho r

namespace Html

mutual

/-- An element has an end tag unless it is one without content, the markup in it is contained, and
    an element of raw text holds nothing. -/
def Paired : Html → Prop
  | element tag _ content =>
    voidTags.contains tag = false ∧ (rawOf tag ≠ none → content = []) ∧ PairedAll content
  | void tag _ => voidTags.contains tag = true
  | text _ => True
  | markup s => Contained s

def PairedAll : List Html → Prop
  | [] => True
  | h :: rest => Paired h ∧ PairedAll rest

end

theorem contained_content {tag : Text} {l : List PlainAttribute} {content : List Html}
    (hl : (element tag l content).Legible) (hp : (element tag l content).Paired)
    (hc : LegibleAll content → PairedAll content → Contained (writeAll content)) :
    Contained (writeAll content) := by
  obtain ⟨_, _, hl⟩ := hl
  obtain ⟨_, hraw, hp⟩ := hp
  cases hr : rawOf tag with
  | none =>
    rw [hr] at hl
    exact hc hl hp
  | some name =>
    rw [hraw (by simp [hr])]
    exact contained_nil

mutual

theorem contained_write : (h : Html) → h.Legible → h.Paired → Contained h.write
  | element tag attributes content, hl, hp => by
    have hcontent := contained_content hl hp (contained_writeAll content)
    obtain ⟨ht, ha, _⟩ := hl
    obtain ⟨hvoid, _, _⟩ := hp
    intro opened ho r
    rw [write, List.append_assoc, List.append_assoc, startTag_eq,
      closesAll_openingTag ht (legible_spelled ha) ho, push, hvoid, if_neg Bool.false_ne_true,
      hcontent _ (List.cons_ne_nil tag opened), closesAll_endTag ht]
  | void tag attributes, hl, hp => by
    obtain ⟨ht, ha, _⟩ := hl
    have hvoid : voidTags.contains tag = true := hp
    intro opened ho r
    rw [write, startTag_eq, closesAll_openingTag ht (legible_spelled ha) ho, push, if_pos hvoid]
  | text s, _, _ => contained_inert (inert_escape s).not_mem_open
  | markup s, _, hp => hp

theorem contained_writeAll : (l : List Html) → LegibleAll l → PairedAll l → Contained (writeAll l)
  | [], _, _ => contained_nil
  | h :: rest, hl, hp =>
    contained_append (contained_write h hl.1 hp.1) (contained_writeAll rest hl.2 hp.2)

end

def outerId : Html → Option Text
  | element _ l _ => readId l
  | void _ l => readId l
  | _ => none

theorem isElement_write {h : Html} {id : Text} (hl : h.Legible) (hp : h.Paired)
    (hid : h.outerId = some id) : isElement id h.write = true := by
  cases h with
  | element tag l content =>
    have hcontent := contained_content hl hp (contained_writeAll content)
    obtain ⟨ht, ha, _⟩ := hl
    obtain ⟨hvoid, _, _⟩ := hp
    have hwrite : (element tag l content).write = '<' :: (tag ++
        ((l.map spelled).flatMap Attribute.spell ++ '>' :: (writeAll content ++ (endTag tag ++ [])))) := by
      rw [write, startTag_eq]
      simp [openingTag]
    rw [hwrite, isElement, mark?_openingTag ht (legible_spelled ha)]
    dsimp only
    rw [← readAttributes, id?_startTag, show readId l = some id from hid, push, hvoid,
      if_neg Bool.false_ne_true, hcontent _ (List.cons_ne_nil tag []), closesAll_endTag ht, closesAll]
    simp
  | void tag l =>
    obtain ⟨ht, ha, _⟩ := hl
    have hvoid : voidTags.contains tag = true := hp
    have hwrite : (void tag l).write =
        '<' :: (tag ++ ((l.map spelled).flatMap Attribute.spell ++ '>' :: [])) := by
      rw [write, startTag_eq]
      simp [openingTag]
    rw [hwrite, isElement, mark?_openingTag ht (legible_spelled ha)]
    dsimp only
    rw [← readAttributes, id?_startTag, show readId l = some id from hid, push, if_pos hvoid, closesAll]
    simp
  | text s => cases hid
  | markup s => cases hid

def isContainer (tag : Text) : Bool := !voidTags.contains tag && !rawTextElements.contains tag

theorem pairedAll_append {l m : List Html} (hl : PairedAll l) (hm : PairedAll m) :
    PairedAll (l ++ m) := by
  induction l with
  | nil => exact hm
  | cons h l ih => exact ⟨hl.1, ih hl.2⟩

theorem pairedAll_of_forall {l : List Html} (h : ∀ x ∈ l, x.Paired) : PairedAll l := by
  induction l with
  | nil => trivial
  | cons x l ih => exact ⟨h x List.mem_cons_self, ih fun y hy => h y (List.mem_cons_of_mem x hy)⟩

theorem Paired.single {h : Html} (hh : h.Paired) : PairedAll [h] := ⟨hh, trivial⟩

theorem paired_element {tag : Text} {l : List PlainAttribute} {content : List Html}
    (ht : isContainer tag = true) (hc : PairedAll content) : (element tag l content).Paired := by
  obtain ⟨hvoid, hraw⟩ : voidTags.contains tag = false ∧ rawTextElements.contains tag = false := by
    simpa only [isContainer, Bool.and_eq_true, Bool.not_eq_true'] using ht
  refine ⟨hvoid, ?_, hc⟩
  intro h
  rw [rawOf, hraw, if_neg Bool.false_ne_true] at h
  exact absurd rfl h

theorem isContainer_div : isContainer "div" = true := by decide

theorem isContainer_a : isContainer "a" = true := by decide

end Html

end Folio.Markup

namespace Folio.Render
open Markup

theorem paired_content [Link.HostReader] {policy : Policy} (h : policy ≠ .trustedCode) (p : Props)
    (keys : List Text) : (content policy p keys).Paired := by
  have hcontained : Contained (((p.firstText? keys).map (sanitize policy)).getD []) := by
    cases p.firstText? keys with
    | none => exact contained_nil
    | some s => exact contained_sanitize h s
  exact hcontained

theorem paired_box {tag : Text} (ht : Html.isContainer tag = true) (id class_ : Text)
    {content : List Html} (hc : Html.PairedAll content) : (box tag id class_ content).Paired :=
  Html.paired_element ht hc

theorem isContainer_containerTag (p : Props) : Html.isContainer (containerTag p) = true := by
  have hall : ∀ t ∈ Component.containerElements, Html.isContainer t = true := by decide
  unfold containerTag
  cases h : ((p.string? "htmlTag").map Text.lower).filter Component.containerElements.contains with
  | none => decide
  | some t => exact hall t (List.contains_iff_mem.1 (Option.filter_eq_some_iff.1 h).2)

theorem paired_heading (id : Text) (p : Props) {children : Html} (hc : children.Paired) :
    (heading id p children).Paired := by
  have htags : ∀ n ≤ 6, Html.isContainer ("h" ++ Text.ofNat n) = true := by decide
  refine Html.paired_element (htags _ (headingLevel_le p)) ⟨?_, hc.single⟩
  cases p.link? with
  | none => trivial
  | some l => exact Html.paired_element Html.isContainer_a ⟨trivial, trivial⟩

theorem paired_picture (l : List PlainAttribute) (p : Props) (src alt : Text) :
    (picture l p src alt).Paired := (by decide : voidTags.contains ("img" : Text) = true)

theorem paired_framedPicture (p : Props) (src alt : Text) : (framedPicture p src alt).Paired := by
  unfold framedPicture
  split
  · exact Html.paired_element Html.isContainer_a (paired_picture [] p src alt).single
  · exact paired_picture [] p src alt

theorem paired_figure (id : Text) (p : Props) (src alt : Text) (caption : Option Text) {children : Html}
    (hc : children.Paired) : (figure id p src alt caption children).Paired := by
  have hcaption : Html.PairedAll
      (caption.map fun c => Html.element "figcaption" [] [.text c]).toList := by
    cases caption with
    | none => trivial
    | some c =>
      have htext : (Html.text c).Paired := trivial
      exact (Html.paired_element (by decide) htext.single).single
  have hinside := Html.pairedAll_append (paired_framedPicture p src alt).single
    (Html.pairedAll_append hcaption hc.single)
  exact paired_box (by decide) id _ hinside

theorem paired_loneImage (id : Text) (p : Props) (src alt : Text) : (loneImage id p src alt).Paired := by
  unfold loneImage
  split
  · exact Html.paired_element Html.isContainer_a (paired_picture [] p src alt).single
  · exact paired_picture _ p src alt

theorem paired_image (id : Text) (p : Props) {children : Text} (hc : Contained children) :
    (image id p children).Paired := by
  unfold image
  dsimp only
  split
  · exact Html.paired_element Html.isContainer_div ⟨hc, trivial⟩
  · split
    · exact paired_figure id p _ _ _ hc
    · exact paired_loneImage id p _ _

theorem paired_icon (l : List PlainAttribute) (p : Props) : (icon l p).Paired := by
  have hcircle : (Html.element "circle" [attr "cx" "12", attr "cy" "12", attr "r" "10"] []).Paired :=
    Html.paired_element (by decide) trivial
  have hdrawing : (iconDrawing (iconSize p)).Paired := Html.paired_element (by decide) hcircle.single
  exact Html.paired_element (by decide) hdrawing.single

theorem paired_video (id : Text) (p : Props) {children : Html} (hc : children.Paired) :
    (video id p children).Paired := by
  have hframe (src title : Text) : (frame src title).Paired := ⟨by decide, fun _ => rfl, trivial⟩
  have hsource (src : Text) : (Html.void "source" [attr "src" src]).Paired :=
    (by decide : voidTags.contains ("source" : Text) = true)
  unfold video
  dsimp only
  split
  · exact Html.paired_element (by decide) ⟨hsource _, hc.single⟩
  · exact Html.paired_element Html.isContainer_div ⟨hframe _ _, hc.single⟩
  · exact Html.paired_element Html.isContainer_div ⟨hframe _ _, hc.single⟩
  · exact Html.paired_element Html.isContainer_div hc.single

theorem pairedAll_listItems (p : Props) : Html.PairedAll (listItems p) := by
  refine Html.pairedAll_of_forall fun x hx => ?_
  obtain ⟨s, _, rfl⟩ := List.mem_map.1 hx
  have htext : (Html.text s).Paired := trivial
  exact Html.paired_element (by decide) htext.single

section

variable [Link.HostReader]

theorem paired_iconText (id : Text) (p : Props) {children : Html} (hc : children.Paired) :
    (iconText id p children).Paired := by
  have htitle : Html.PairedAll (iconTitle p) := by
    unfold iconTitle
    cases p.text? "title" with
    | none => trivial
    | some t =>
      have htext : (Html.text t).Paired := trivial
      exact (Html.paired_element (by decide) htext.single).single
  have hdescription : Html.PairedAll (iconDescription p) := by
    unfold iconDescription
    cases p.firstString? ["description", "text"] with
    | none => trivial
    | some s =>
      have hmarkup : (Html.markup (sanitize .richContent s)).Paired := contained_sanitize (by decide) s
      exact (Html.paired_element Html.isContainer_div hmarkup.single).single
  have hbody : (Html.element "div" [attr "class" "pc-icon-text-body"]
      (iconTitle p ++ iconDescription p ++ [children])).Paired :=
    Html.paired_element Html.isContainer_div
      (Html.pairedAll_append (Html.pairedAll_append htitle hdescription) hc.single)
  exact paired_box Html.isContainer_div id _ ⟨paired_icon [] p, hbody.single⟩

theorem paired_component (kind : Component) (id : Text) (p : Props) {children : Text}
    (h : Contained children) : (component kind id p children).Paired := by
  have hc : (Html.markup children).Paired := h
  have htext (s : Text) : Html.PairedAll [.text s, .markup children] := ⟨trivial, hc.single⟩
  match kind with
  | .container => exact paired_box (isContainer_containerTag p) id _ hc.single
  | .section =>
    exact paired_box (by decide) id _ (Html.paired_element Html.isContainer_div hc.single).single
  | .row => exact paired_box Html.isContainer_div id _ hc.single
  | .column => exact paired_box Html.isContainer_div id _ hc.single
  | .text => exact paired_box Html.isContainer_div id _ ⟨paired_content (by decide) p _, hc.single⟩
  | .heading => exact paired_heading id p hc
  | .image => exact paired_image id p h
  | .button => exact Html.paired_element Html.isContainer_a (htext _)
  | .link => exact Html.paired_element Html.isContainer_a (htext _)
  | .divider => exact (by decide : voidTags.contains ("hr" : Text) = true)
  | .spacer => exact Html.paired_element Html.isContainer_div trivial
  | .icon => exact paired_icon _ p
  | .iconText => exact paired_iconText id p hc
  | .video => exact paired_video id p hc
  | .htmlBlock =>
    exact paired_box Html.isContainer_div id _ ⟨paired_content (by decide) p _, hc.single⟩
  | .list =>
    refine paired_box ?_ id _ (Html.pairedAll_append (pairedAll_listItems p) hc.single)
    split <;> decide

theorem outerId_component (kind : Component) (id : Text) (p : Props) (children : Text) :
    (component kind id p children).outerId = some id := by
  have himage : (image id p children).outerId = some id := by
    unfold image loneImage
    dsimp only
    split
    · rfl
    · split
      · rfl
      · split <;> rfl
  have hvideo : (video id p (.markup children)).outerId = some id := by
    unfold video
    dsimp only
    split <;> rfl
  cases kind
  case image => exact himage
  case video => exact hvideo
  all_goals rfl

theorem drawn_spec (n : Node) (id : Text) {children : Text} {ids : List Text}
    (hs : (Html.markup children).Sound ids) (hc : Contained children) :
    drawn n id children = [] ∨
      Contained (drawn n id children) ∧ isElement id (drawn n id children) = true := by
  unfold drawn
  cases Component.ofTag? n.typeTag with
  | some kind =>
    have hlegible := (sound_component kind id n.props hs).legible
    have hpaired := paired_component kind id n.props hc
    exact .inr ⟨Html.contained_write _ hlegible hpaired,
      Html.isElement_write hlegible hpaired (outerId_component kind id n.props children)⟩
  | none =>
    dsimp only
    split
    · exact .inl rfl
    · have hlegible := (sound_generic id n.typeTag hs).legible
      have hpaired : (generic id n.typeTag children).Paired :=
        Html.paired_element Html.isContainer_div ⟨hc, trivial⟩
      exact .inr ⟨Html.contained_write _ hlegible hpaired, Html.isElement_write hlegible hpaired rfl⟩

theorem contained_fragment (o : Outline) : Contained o.fragment.html := by
  -- along the outline: the children of a node stand in it, its later siblings behind it
  induction o with
  | none => exact contained_nil
  | node n id below rest hb hr =>
    have hown : Contained (assemble n id below.fragment).html := by
      rw [html_assemble]
      rcases drawn_spec n id below.sound_fragment hb with h | ⟨h, _⟩
      · rw [h]
        exact contained_nil
      · exact h
    exact contained_append hown hr

/-- A document is rendered as nothing or as one element, which has the id assigned to the root. -/
theorem isElement_renderDocument (d : Document) (scope : Scope) (r : Registry) :
    (renderDocument d scope r).1.html = [] ∨
      ∃ n, d.get? Document.rootId = some n ∧
        isElement (r.assign scope Document.rootId n.props).1 (renderDocument d scope r).1.html := by
  rw [Outline.renderDocument_eq, Outline.ofDocument, Outline.visit]
  cases d.get? Document.rootId with
  | none => exact .inl rfl
  | some n =>
    dsimp only
    split
    · exact .inl rfl
    · generalize Outline.visitAll _ _ _ = walked
      obtain ⟨below, s⟩ := walked
      have hhtml (id : Text) :
          (Outline.node n id below .none).fragment.html = drawn n id below.fragment.html := by
        rw [Outline.fragment, Fragment.append, html_assemble]
        exact List.append_nil _
      rw [hhtml]
      rcases drawn_spec n (r.assign scope Document.rootId n.props).1 below.sound_fragment
        (contained_fragment below) with h | ⟨_, h⟩
      · exact .inl h
      · exact .inr ⟨n, rfl, h⟩

end

end Folio.Render
