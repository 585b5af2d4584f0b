import Folio.Proofs.Video
import Mathlib.Data.List.Nodup

set_option autoImplicit false

/-!
# Drawn components

Whatever a node says, its component is drawn soundly: one outermost element carries the id of the
node, everything inside it but the children has no id, and every tag is harmless. Dividers, spacers
and icons leave their children out.
-/
namespace Folio.Markup

variable [Link.HostReader]

theorem unique_source {policy : Policy} {tag : Text} {attributes : List Attribute} {l : List Kept}
    (h : Opens policy tag attributes l) (hn : ((l.map Kept.attribute).map Attribute.name).Nodup)
    (ht : tag = "iframe") {a : Attribute} (ha : a ∈ l.map Kept.attribute) (hs : a.name = "src") :
    (Link.safeEmbed? a.decoded).isSome = true := by
  obtain ⟨b, hb, hbs, hsafe⟩ := h.permitted.frame ht
  rwa [List.inj_on_of_nodup_map hn ha hb (hs.trans hbs.symm)]

theorem harmlessTag_of_opens {policy : Policy} {tag : Text} {attributes : List Attribute}
    {l : List Kept} (h : Opens policy tag attributes l)
    (hn : ((l.map Kept.attribute).map Attribute.name).Nodup) :
    HarmlessTag tag (l.map Kept.attribute) := by
  refine ⟨fun hm => absurd hm h.permitted.kept, fun a ha => ?_⟩
  have hp := h.permitted.attributes a ha
  refine ⟨hp.handler, ?_, ?_, ?_, ?_⟩
  · intro e
    exact hp.blocked (e ▸ by decide)
  · intro e
    exact .inr (hp.link (e ▸ by decide))
  · intro e
    refine Link.safeResource?_true (hp.resource ?_)
    rcases e with e | e <;> rw [e] <;> decide
  · intro ht hs
    exact .inr (.inr (unique_source h hn ht ha hs))

theorem id?_of_opens {policy : Policy} {tag : Text} {attributes : List Attribute} {l : List Kept}
    (h : Opens policy tag attributes l) (selfClosing : Bool) :
    (Token.startTag tag (l.map Kept.attribute) selfClosing).id? = none := by
  rw [Token.id?, List.find?_eq_none.2, Option.map_none]
  intro a ha
  have hb := (h.permitted.attributes a ha).blocked
  rw [decide_eq_true_iff]
  intro e
  exact hb (e ▸ by decide)

theorem sound_sanitize {policy : Policy} (h : policy ≠ .trustedCode) (s : Text) :
    (Html.markup (sanitize policy s)).Sound [] := by
  have hs : sanitize policy s = sanitizeUntrusted policy s := sanitize_of_ne h s
  rw [hs]
  refine ⟨⟨selfContained_sanitizeUntrusted policy s, ?_⟩, ?_⟩
  · refine List.filterMap_eq_nil_iff.2 fun t ht => ?_
    rcases tags_sanitizeUntrusted ht with ⟨tag, rfl⟩ | ⟨tag, attributes, l, ho, rfl⟩
    · rfl
    · exact id?_of_opens ho false
  · intro t ht
    have hregular : t.Regular := regular_of_mem_tokens (List.mem_filter.1 ht).1
    rcases tags_sanitizeUntrusted ht with ⟨tag, rfl⟩ | ⟨tag, attributes, l, ho, rfl⟩
    · trivial
    · exact harmlessTag_of_opens ho hregular.2

end Folio.Markup

namespace Folio.Render
open Markup

variable [Link.HostReader] {tag : Text} {i : Option Text} {ids : List Text}

theorem soundAll_of_forall {l : List Html} (h : ∀ x ∈ l, x.Sound []) : Html.SoundAll l [] := by
  induction l with
  | nil => exact Html.soundAll_nil
  | cons x l ih =>
    have hrest := ih fun y hy => h y (List.mem_cons_of_mem x hy)
    exact (h x List.mem_cons_self).cons hrest

theorem sound_empty : (Html.markup []).Sound [] := by
  have h : Markup.tags [] = [] := tags_inert (by simp)
  simpa [h, idsOf] using Html.sound_markup selfContained_nil (by simp [h])

omit [Link.HostReader] in
theorem href_of_link? {p : Props} {l : LinkTarget} (h : p.link? = some l) :
    l.href = "#" ∨ Link.safeLink? l.href = some l.href := by
  obtain ⟨written, _, rfl⟩ := Option.map_eq_some_iff.1 h
  cases hs : Link.safeLink? written with
  | none => exact .inl rfl
  | some url => exact .inr (Link.safeLink?_self hs)

theorem sound_linkAttributes {l : LinkTarget} (h : l.href = "#" ∨ Link.safeLink? l.href = some l.href) :
    SoundAttributes tag (linkAttributes l) none := by
  unfold linkAttributes
  refine (SoundAttributes.href h).append (m := if l.newTab then _ else []) ?_
  split <;> exact .neutral rfl

theorem sound_linkOrHash (p : Props) : SoundAttributes tag (linkOrHash p.link?) none := by
  cases h : p.link? with
  | none => exact .href (.inl rfl)
  | some l => exact sound_linkAttributes (href_of_link? h)

theorem sound_box (ht : isOrdinary tag = true) (id class_ : Text) {content : List Html}
    (hc : Html.SoundAll content ids) : (box tag id class_ content).Sound (id :: ids) :=
  Html.sound_element ht (SoundAttributes.withId (.neutral rfl) id) hc

omit [Link.HostReader] in
theorem isOrdinary_containerTag (p : Props) : isOrdinary (containerTag p) = true := by
  have hall : ∀ t ∈ Component.containerElements, isOrdinary t = true := by decide
  unfold containerTag
  cases h : ((p.string? "htmlTag").map Text.lower).filter Component.containerElements.contains with
  | none => decide
  | some t =>
    have ht := (Option.filter_eq_some_iff.1 h).2
    exact hall t (List.contains_iff_mem.1 ht)

theorem sound_content {policy : Policy} (h : policy ≠ .trustedCode) (p : Props) (keys : List Text) :
    (content policy p keys).Sound [] := by
  unfold content
  cases p.firstText? keys with
  | none => exact sound_empty
  | some s => exact sound_sanitize h s

omit [Link.HostReader] in
theorem levelOf_le (x : Double) : levelOf x ≤ 6 := by
  unfold levelOf
  split
  · omega
  · split
    · split <;> omega
    · omega

omit [Link.HostReader] in
theorem headingLevel_le (p : Props) : headingLevel p ≤ 6 := by
  unfold headingLevel
  cases (p.double? "level").or ((p.string? "level").bind spelledLevel?) with
  | none => decide
  | some x => exact levelOf_le x

theorem sound_heading (id : Text) (p : Props) {children : Html} (hc : children.Sound ids) :
    (heading id p children).Sound (id :: ids) := by
  have htags : ∀ n ≤ 6, isOrdinary ("h" ++ Text.ofNat n) = true := by decide
  have haround : ∀ inner : Html, inner.Sound [] →
      (Html.element ("h" ++ Text.ofNat (headingLevel p)) [attr "id" id] [inner, children]).Sound
        (id :: ids) := by
    intro inner hinner
    exact Html.sound_element (htags _ (headingLevel_le p)) (SoundAttributes.ofId id)
      (hinner.cons hc.single)
  refine haround _ ?_
  cases h : p.link? with
  | none => exact Html.sound_text _
  | some l =>
    exact Html.sound_element Html.isOrdinary_a (sound_linkAttributes (href_of_link? h))
      (Html.sound_text _).single

omit [Link.HostReader] in
theorem href_of_imageLink? {p : Props} {l : LinkTarget} (h : imageLink? p = some l) :
    l.href = "#" ∨ Link.safeLink? l.href = some l.href := by
  unfold imageLink? at h
  split at h
  · exact href_of_link? h
  · simp at h

theorem sound_pixels (p : Props) (key : Text) (hk : isNeutral key = true) :
    SoundAttributes tag (pixels p key) none := by
  unfold pixels
  refine .neutral (List.all_eq_true.2 fun name hn => ?_)
  obtain ⟨a, ha, rfl⟩ := List.mem_map.1 hn
  obtain ⟨s, _, rfl⟩ := Option.map_eq_some_iff.1 (Option.mem_toList.1 ha)
  exact hk

theorem sound_picture {l : List PlainAttribute} (hl : SoundAttributes "img" l i) (p : Props)
    {src : Text} (alt : Text) (hs : Link.safeResource? true src = some src) :
    (picture l p src alt).Sound i.toList := by
  have hsrc : SoundAttributes "img" [attr "src" src] none := .source hs fun e => absurd e (by decide)
  have hfixed : SoundAttributes "img"
      [attr "class" "pc-image", attr "src" src, attr "alt" alt, attr "loading" "lazy",
        attr "decoding" "async"] none :=
    ((SoundAttributes.neutral (l := [attr "class" "pc-image"]) rfl).append hsrc).append
      (.neutral (l := [attr "alt" alt, attr "loading" "lazy", attr "decoding" "async"]) rfl)
  have h := ((hl.append hfixed).append (sound_pixels p "width" rfl)).append
    (sound_pixels p "height" rfl)
  simp only [Option.or_none] at h
  exact Html.sound_void (by decide) h

theorem sound_framedPicture (p : Props) {src : Text} (alt : Text)
    (hs : Link.safeResource? true src = some src) : (framedPicture p src alt).Sound [] := by
  have hpicture : (picture [] p src alt).Sound [] := sound_picture (.neutral rfl) p alt hs
  unfold framedPicture
  split
  · rename_i l h
    exact Html.sound_element Html.isOrdinary_a (sound_linkAttributes (href_of_imageLink? h)) hpicture.single
  · exact hpicture

theorem sound_figure (id : Text) (p : Props) {src : Text} (alt : Text) (caption : Option Text)
    {children : Html} (hs : Link.safeResource? true src = some src) (hc : children.Sound ids) :
    (figure id p src alt caption children).Sound (id :: ids) := by
  have hcaption : Html.SoundAll
      (caption.map fun c => Html.element "figcaption" [] [.text c]).toList [] := by
    cases caption with
    | none => exact Html.soundAll_nil
    | some c =>
      exact (Html.sound_element (by decide) (.neutral rfl) (Html.sound_text c).single).single
  exact sound_box (by decide) id _ ((sound_framedPicture p alt hs).cons (hcaption.append hc.single))

theorem sound_loneImage (id : Text) (p : Props) {src : Text} (alt : Text)
    (hs : Link.safeResource? true src = some src) :
    (loneImage id p src alt).Sound [id] := by
  unfold loneImage
  split
  · rename_i l h
    exact Html.sound_element Html.isOrdinary_a
      ((SoundAttributes.withId (.neutral rfl) id).append (sound_linkAttributes (href_of_imageLink? h)))
      (sound_picture (.neutral rfl) p alt hs).single
  · exact sound_picture (SoundAttributes.ofId id) p alt hs

theorem sound_image (id : Text) (p : Props) {children : Text} (hc : (Html.markup children).Sound ids) :
    (image id p children).Sound (id :: ids) := by
  unfold image
  dsimp only
  split
  · exact Html.sound_element Html.isOrdinary_div (SoundAttributes.withId (.neutral rfl) id) hc.single
  · rename_i src h
    obtain ⟨s, _, hs⟩ := Option.bind_eq_some_iff.1 h
    have hs := Link.safeResource?_self hs
    split
    · exact sound_figure id p _ _ hs hc
    · rename_i hlone
      obtain rfl : children = [] := by
        simp only [Bool.or_eq_true, Bool.not_eq_true', not_or] at hlone
        simpa using hlone.2
      obtain rfl : [] = ids := sound_empty.ids.symm.trans hc.ids
      exact sound_loneImage id p _ hs

omit [Link.HostReader] in
theorem map_readAttributes {l : List PlainAttribute} (h : (l.map fun a => Text.lower a.1).Nodup) :
    (readAttributes l).map (fun a => (a.name, a.decoded)) =
      l.map fun a => (Text.lower a.1, a.2.getD []) := by
  rw [readAttributes, firstOfEach_of_nodup]
  · rw [List.map_map, List.map_map]
    exact List.map_congr_left fun a _ => congrArg (Prod.mk _) (decoded_spelled a)
  · rw [List.map_map, List.map_map]
    exact h

omit [Link.HostReader] in
theorem isIconDrawing (p : Props) :
    IsIconDrawing "svg" (readAttributes (drawingAttributes (iconSize p))) := by
  have hnames : ((drawingAttributes (iconSize p)).map fun a => Text.lower a.1) =
      (["xmlns", "width", "height", "viewbox", "fill", "stroke", "stroke-width", "aria-hidden",
        "focusable"] : List Text) := rfl
  refine ⟨rfl, p, ?_⟩
  rw [map_readAttributes (hnames ▸ by decide)]
  rfl

theorem sound_iconDrawing (p : Props) : (iconDrawing (iconSize p)).Sound [] := by
  have hcircle : (Html.element "circle" [attr "cx" "12", attr "cy" "12", attr "r" "10"] []).Sound [] :=
    Html.sound_element (by decide) (.neutral rfl) Html.soundAll_nil
  exact Html.sound_element_of_harmless (by decide) rfl (fun _ => isIconDrawing p) (.neutral rfl)
    hcircle.single

theorem sound_icon {l : List PlainAttribute} (hl : SoundAttributes "span" l i) (p : Props) :
    (icon l p).Sound i.toList := by
  have h := hl.append (.neutral (l := [attr "class" "pc-icon", attr "role" "img",
    attr "aria-label" (iconLabel p), attr "data-icon" (Identity.token (iconName p))]) rfl)
  have h := Html.sound_element (by decide) h (sound_iconDrawing p).single
  rwa [Option.or_none, List.append_nil] at h

theorem soundAll_iconTitle (p : Props) : Html.SoundAll (iconTitle p) [] := by
  unfold iconTitle
  cases p.text? "title" with
  | none => exact Html.soundAll_nil
  | some t =>
    exact (Html.sound_element (by decide) (.neutral rfl) (Html.sound_text t).single).single

theorem soundAll_iconDescription (p : Props) : Html.SoundAll (iconDescription p) [] := by
  unfold iconDescription
  cases p.firstString? ["description", "text"] with
  | none => exact Html.soundAll_nil
  | some s =>
    exact (Html.sound_element Html.isOrdinary_div (.neutral rfl) (sound_sanitize (by decide) s).single).single

theorem sound_iconText (id : Text) (p : Props) {children : Html} (hc : children.Sound ids) :
    (iconText id p children).Sound (id :: ids) := by
  have hbody : (Html.element "div" [attr "class" "pc-icon-text-body"]
      (iconTitle p ++ iconDescription p ++ [children])).Sound ids :=
    Html.sound_element Html.isOrdinary_div (.neutral rfl)
      (((soundAll_iconTitle p).append (soundAll_iconDescription p)).append hc.single)
  have hicon : (icon [] p).Sound [] := sound_icon (.neutral rfl) p
  exact sound_box Html.isOrdinary_div id _ (hicon.cons hbody.single)

def holdsChildren : Component → Bool
  | .divider | .spacer | .icon => false
  | _ => true

theorem soundAll_listItems (p : Props) : Html.SoundAll (listItems p) [] := by
  refine soundAll_of_forall fun x hx => ?_
  obtain ⟨s, _, rfl⟩ := List.mem_map.1 hx
  exact Html.sound_element (by decide) (.neutral rfl) (Html.sound_text s).single

/-- A component is sound around sound children, and its ids are that of the node and, if it holds
    them, those of the children. -/
theorem sound_component (kind : Component) (id : Text) (p : Props) {children : Text}
    (hc : (Html.markup children).Sound ids) :
    (component kind id p children).Sound
      (id :: if holdsChildren kind then ids else []) := by
  match kind with
  | .container => exact sound_box (isOrdinary_containerTag p) id _ hc.single
  | .section =>
    exact sound_box (by decide) id _
      (Html.sound_element Html.isOrdinary_div (.neutral rfl) hc.single).single
  | .row => exact sound_box Html.isOrdinary_div id _ hc.single
  | .column => exact sound_box Html.isOrdinary_div id _ hc.single
  | .text => exact sound_box Html.isOrdinary_div id _ ((sound_content (by decide) p _).cons hc.single)
  | .heading => exact sound_heading id p hc
  | .image => exact sound_image id p hc
  | .button =>
    exact Html.sound_element Html.isOrdinary_a
      ((SoundAttributes.withId (.neutral rfl) id).append (sound_linkOrHash p))
      ((Html.sound_text _).cons hc.single)
  | .link =>
    exact Html.sound_element Html.isOrdinary_a
      ((SoundAttributes.withId (.neutral rfl) id).append (sound_linkOrHash p))
      ((Html.sound_text _).cons hc.single)
  | .divider => exact Html.sound_void (by decide) (SoundAttributes.withId (.neutral rfl) id)
  | .spacer =>
    exact Html.sound_element Html.isOrdinary_div (SoundAttributes.withId (.neutral rfl) id) Html.soundAll_nil
  | .icon => exact sound_icon (SoundAttributes.ofId id) p
  | .iconText => exact sound_iconText id p hc
  | .video => exact sound_video id p hc
  | .htmlBlock => exact sound_box Html.isOrdinary_div id _ ((sound_content (by decide) p _).cons hc.single)
  | .list =>
    refine sound_box ?_ id _ ((soundAll_listItems p).append hc.single)
    split <;> decide

theorem sound_generic (id typeTag : Text) {children : Text} (hc : (Html.markup children).Sound ids) :
    (generic id typeTag children).Sound (id :: ids) :=
  Html.sound_element Html.isOrdinary_div (SoundAttributes.withId (.neutral rfl) id) hc.single

end Folio.Render
