import Folio.Proofs.ElementIds
import Folio.Proofs.Sanitized
import Folio.Render.Component

set_option autoImplicit false

/-!
# Harmless markup

A tag is harmless if it runs nothing and leads nowhere unsafe. `Sound` adds to what a tree carries
that its tags are harmless, and has a rule for each way to build a tree.
-/
namespace Folio.Markup

variable [Link.HostReader]

/-- A source that a frame may show. -/
def Embeddable (url : Text) : Prop :=
  Text.startsWith "https://www.youtube-nocookie.com/embed/" url = true ∨
    Text.startsWith "https://player.vimeo.com/video/" url = true ∨
    (Link.safeEmbed? url).isSome = true

/-- What is asked of an attribute of an element: of its name in small letters and of its value. -/
structure HarmlessAttribute (tag name value : Text) : Prop where
  handler : Text.startsWith "on" name = false
  document : name ≠ "srcdoc"
  link : name = "href" → value = "#" ∨ Link.safeLink? value = some value
  resource : name = "src" ∨ name = "poster" → Link.safeResource? true value = some value
  frame : tag = "iframe" → name = "src" → Embeddable value

omit [Link.HostReader] in
/-- The drawing that stands for every icon; only its size varies. -/
def IsIconDrawing (tag : Text) (l : List Attribute) : Prop :=
  tag = "svg" ∧ ∃ p : Props, l.map (fun a => (a.name, a.decoded)) =
    ([("xmlns", "http://www.w3.org/2000/svg"), ("width", Render.iconSize p),
      ("height", Render.iconSize p), ("viewbox", "0 0 24 24"), ("fill", "none"),
      ("stroke", "currentColor"), ("stroke-width", "2"), ("aria-hidden", "true"),
      ("focusable", "false")] : List (Text × Text))

structure HarmlessTag (tag : Text) (l : List Attribute) : Prop where
  element : tag ∈ droppedTags → IsIconDrawing tag l
  attributes : ∀ a ∈ l, HarmlessAttribute tag a.name a.decoded

def Token.Harmless : Token → Prop
  | .startTag tag l _ => HarmlessTag tag l
  | .comment _ => False
  | .bogus => False
  | _ => True

structure SoundAttributes (tag : Text) (l : List PlainAttribute) (i : Option Text) : Prop extends
    Identifies l i where
  harmless : ∀ a ∈ l, HarmlessAttribute tag (Text.lower a.1) (a.2.getD [])

def guardedNames : List Text := ["srcdoc", "href", "src", "poster"]

theorem harmless_of_not_guarded {tag name value : Text} (hon : Text.startsWith "on" name = false)
    (hn : name ∉ guardedNames) : HarmlessAttribute tag name value := by
  have hne : ∀ n ∈ guardedNames, name ≠ n := by
    intro n hm e
    exact hn (e ▸ hm)
  refine ⟨hon, hne "srcdoc" (by decide), ?_, ?_, ?_⟩
  · intro e
    exact absurd e (hne "href" (by decide))
  · intro e
    rcases e with e | e
    · exact absurd e (hne "src" (by decide))
    · exact absurd e (hne "poster" (by decide))
  · intro _ e
    exact absurd e (hne "src" (by decide))

def isNeutral (name : Text) : Bool :=
  isUnmarked name && !Text.startsWith "on" (Text.lower name) &&
    !guardedNames.contains (Text.lower name)

namespace SoundAttributes

variable {tag : Text} {l m : List PlainAttribute} {i j : Option Text}

theorem neutral (h : (l.map Prod.fst).all isNeutral = true) : SoundAttributes tag l none := by
  have hn : ∀ name ∈ l.map Prod.fst, isUnmarked name = true ∧
      Text.startsWith "on" (Text.lower name) = false ∧ Text.lower name ∉ guardedNames := by
    intro name hm
    have hname := List.all_eq_true.1 h name hm
    simpa [isNeutral, and_assoc] using hname
  refine ⟨identifies_none (List.all_eq_true.2 fun name hm => (hn name hm).1), fun a ha => ?_⟩
  obtain ⟨_, hon, hg⟩ := hn a.1 (List.mem_map_of_mem ha)
  exact harmless_of_not_guarded hon hg

theorem append (hl : SoundAttributes tag l i) (hm : SoundAttributes tag m j) :
    SoundAttributes tag (l ++ m) (i.or j) where
  toIdentifies := hl.toIdentifies.append hm.toIdentifies
  harmless := fun a ha => (List.mem_append.1 ha).elim (hl.harmless a) (hm.harmless a)

theorem single {name value : Text} (hn : isUnmarked name = true)
    (h : HarmlessAttribute tag (Text.lower name) value) :
    SoundAttributes tag [attr name value] none where
  toIdentifies := identifies_none (by simpa [attr] using hn)
  harmless := List.forall_mem_singleton.2 h

theorem ofId (id : Text) : SoundAttributes tag [attr "id" id] (some id) where
  toIdentifies := identifies_id id
  harmless := List.forall_mem_singleton.2
    (show HarmlessAttribute tag ("id" : Text) id from harmless_of_not_guarded (by decide) (by decide))

theorem withId (h : SoundAttributes tag l none) (id : Text) :
    SoundAttributes tag (attr "id" id :: l) (some id) := (ofId id).append h

theorem href {url : Text} (h : url = "#" ∨ Link.safeLink? url = some url) :
    SoundAttributes tag [attr "href" url] none := by
  refine single (by decide) ⟨by decide, by decide, fun _ => h, ?_, ?_⟩
  · intro e
    exact absurd e (by decide)
  · intro _ e
    exact absurd e (by decide)

theorem source {url : Text} (h : Link.safeResource? true url = some url)
    (hf : tag = "iframe" → Embeddable url) : SoundAttributes tag [attr "src" url] none := by
  refine single (by decide) ⟨by decide, by decide, ?_, fun _ => h, fun e _ => hf e⟩
  intro e
  exact absurd e (by decide)

theorem poster {url : Text} (h : Link.safeResource? true url = some url) :
    SoundAttributes tag [attr "poster" url] none := by
  refine single (by decide) ⟨by decide, by decide, ?_, fun _ => h, ?_⟩
  · intro e
    exact absurd e (by decide)
  · intro _ e
    exact absurd e (by decide)

end SoundAttributes

omit [Link.HostReader] in
theorem mem_readAttributes {l : List PlainAttribute} {a : Attribute} (h : a ∈ readAttributes l) :
    ∃ b ∈ l, a = (spelled b).lowered := by
  have h := Lexer.firstOfEach_subset _ a h
  obtain ⟨c, hc, rfl⟩ := List.mem_map.1 h
  obtain ⟨b, hb, rfl⟩ := List.mem_map.1 hc
  exact ⟨b, hb, rfl⟩

theorem SoundAttributes.read {tag : Text} {l : List PlainAttribute} {i : Option Text}
    (h : SoundAttributes tag l i) :
    ∀ a ∈ readAttributes l, HarmlessAttribute tag a.name a.decoded := by
  intro a ha
  obtain ⟨b, hb, rfl⟩ := mem_readAttributes ha
  rw [decoded_spelled]
  exact h.harmless b hb

def isOrdinary (tag : Text) : Bool :=
  isTagName tag && !rawTextElements.contains tag && !droppedTags.contains tag

namespace Html

/-- A tree that carries the given element ids and whose tags are harmless. -/
structure Sound (h : Html) (ids : List Text) : Prop extends Carries h ids where
  harmless : ∀ t ∈ h.tags, t.Harmless

structure SoundAll (l : List Html) (ids : List Text) : Prop extends CarriesAll l ids where
  harmless : ∀ t ∈ tagsAll l, t.Harmless

variable {tag : Text} {l : List PlainAttribute} {i : Option Text} {ids ids' : List Text}

theorem soundAll_nil : SoundAll [] [] where
  toCarriesAll := carriesAll_nil
  harmless := by simp [tagsAll]

theorem Sound.cons {h : Html} {rest : List Html} (hh : Sound h ids) (hr : SoundAll rest ids') :
    SoundAll (h :: rest) (ids ++ ids') where
  toCarriesAll := hh.toCarries.cons hr.toCarriesAll
  harmless := by
    intro t ht
    rw [tagsAll] at ht
    exact (List.mem_append.1 ht).elim (hh.harmless t) (hr.harmless t)

theorem Sound.single {h : Html} (hh : Sound h ids) : SoundAll [h] ids := by
  simpa using hh.cons soundAll_nil

theorem SoundAll.append {l m : List Html} (hl : SoundAll l ids) (hm : SoundAll m ids') :
    SoundAll (l ++ m) (ids ++ ids') where
  toCarriesAll := hl.toCarriesAll.append hm.toCarriesAll
  harmless := by
    intro t ht
    rw [tagsAll_append] at ht
    exact (List.mem_append.1 ht).elim (hl.harmless t) (hm.harmless t)

theorem sound_text (s : Text) : Sound (.text s) [] where
  toCarries := carries_text s
  harmless := by simp [tags]

theorem sound_markup {s : Text} (hs : SelfContained s) (hh : ∀ t ∈ Markup.tags s, t.Harmless) :
    Sound (.markup s) (idsOf (Markup.tags s)) where
  legible := hs
  ids := rfl
  harmless := hh

omit [Link.HostReader] in
theorem isOrdinary_iff : isOrdinary tag = true ↔
    isTagName tag = true ∧ rawOf tag = none ∧ tag ∉ droppedTags := by
  simp [isOrdinary, rawOf, and_assoc]

omit [Link.HostReader] in
theorem isOrdinary_div : isOrdinary "div" = true := by decide

omit [Link.HostReader] in
theorem isOrdinary_a : isOrdinary "a" = true := by decide

theorem sound_element_of_harmless {content : List Html} (hname : isTagName tag = true)
    (hraw : rawOf tag = none) (hdrop : tag ∈ droppedTags → IsIconDrawing tag (readAttributes l))
    (hl : SoundAttributes tag l i) (hc : SoundAll content ids) :
    Sound (.element tag l content) (i.toList ++ ids) where
  toCarries := carries_element hname hraw hl.toIdentifies hc.toCarriesAll
  harmless := by
    intro t h
    rw [tags, hraw] at h
    rcases List.mem_cons.1 h with rfl | h
    · exact ⟨hdrop, hl.read⟩
    · rcases List.mem_append.1 h with h | h
      · exact hc.harmless t h
      · obtain rfl : t = .endTag tag := by simpa using h
        trivial

theorem sound_element {content : List Html} (ht : isOrdinary tag = true)
    (hl : SoundAttributes tag l i) (hc : SoundAll content ids) :
    Sound (.element tag l content) (i.toList ++ ids) := by
  obtain ⟨hname, hraw, hdrop⟩ := isOrdinary_iff.1 ht
  exact sound_element_of_harmless hname hraw (fun hm => absurd hm hdrop) hl hc

theorem sound_void (ht : isOrdinary tag = true) (hl : SoundAttributes tag l i) :
    Sound (.void tag l) i.toList := by
  obtain ⟨hname, hraw, hdrop⟩ := isOrdinary_iff.1 ht
  refine ⟨carries_void hname hraw hl.toIdentifies, fun t h => ?_⟩
  obtain rfl : t = .startTag tag (readAttributes l) false := by simpa [tags] using h
  exact ⟨fun hm => absurd hm hdrop, hl.read⟩

end Html

end Folio.Markup
