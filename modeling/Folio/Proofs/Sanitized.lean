import Folio.Link.SecureHost
import Folio.Proofs.InlineStyle
import Folio.Proofs.Pieces
import Folio.Proofs.Respell
import Folio.Proofs.Url

set_option autoImplicit false

/-!
# Sanitized markup read back

What the sanitizer writes is read back as tags that its policy permits, whatever the markup was. The
pieces it writes are legible and nested, which is kept by every step; so the tags that are read back
are among those it wrote, and those hold only attributes that were kept.
-/
namespace Folio.Markup

inductive KeptAs (tag : Text) (a : Attribute) : Kept → Prop where
  | style {css : Text} (hn : a.name = "style") (h : Style.cleanInline? a.decoded = some css) :
      KeptAs tag a (.escaped a.name css)
  | link {url : Text} (hn : a.name ∈ linkAttributes) (h : Link.safeLink? a.decoded = some url) :
      KeptAs tag a (.escaped a.name url)
  | resource {url : Text} (hn : a.name ∈ resourceAttributes)
      (h : Link.safeResource? (imageTags.contains tag) a.decoded = some url) :
      KeptAs tag a (.escaped a.name url)
  | plain (hs : a.name ≠ "style") (hl : a.name ∉ linkAttributes) (hr : a.name ∉ resourceAttributes) :
      KeptAs tag a ⟨a.name, a.decoded, guardBacktick (respell (a.value.getD []))⟩

theorem keptAs_of_keep? {tag : Text} {a : Attribute} {k : Kept} (h : keep? tag a = some k) :
    mayStay a.name = true ∧ KeptAs tag a k := by
  simp only [keep?] at h
  split at h
  · simp at h
  · rename_i hm
    refine ⟨by simpa using hm, ?_⟩
    split at h
    · rename_i hn
      obtain ⟨css, hc, rfl⟩ := Option.map_eq_some_iff.1 h
      exact .style hn hc
    · rename_i hs
      split at h
      · rename_i hl
        obtain ⟨url, hu, rfl⟩ := Option.map_eq_some_iff.1 h
        exact .link (List.contains_iff_mem.1 hl) hu
      · rename_i hl
        split at h
        · rename_i hr
          obtain ⟨url, hu, rfl⟩ := Option.map_eq_some_iff.1 h
          exact .resource (List.contains_iff_mem.1 hr) hu
        · rename_i hr
          obtain rfl := Option.some.inj h
          exact .plain hs (fun hm => hl (List.contains_iff_mem.2 hm))
            (fun hm => hr (List.contains_iff_mem.2 hm))

theorem KeptAs.name_eq {tag : Text} {a : Attribute} {k : Kept} (h : KeptAs tag a k) :
    k.name = a.name := by
  cases h <;> rfl

theorem KeptAs.inert {tag : Text} {a : Attribute} {k : Kept} (h : KeptAs tag a k) :
    Inert k.written := by
  cases h with
  | style _ _ => exact inert_escapeAttribute _
  | link _ _ => exact inert_escapeAttribute _
  | resource _ _ => exact inert_escapeAttribute _
  | plain _ _ _ => exact inert_guardBacktick (respelled _).inert

theorem decoded_escaped (name value : Text) : (Kept.escaped name value).attribute.decoded = value :=
  decode_escapeAttribute value

theorem name_of_keep? {tag : Text} {a : Attribute} {k : Kept} (h : keep? tag a = some k) :
    k.name = a.name := (keptAs_of_keep? h).2.name_eq

/-- What is written of a kept attribute decodes to the value that was checked. -/
theorem decoded_of_keep? {tag : Text} {a : Attribute} {k : Kept} (h : keep? tag a = some k) :
    k.attribute.decoded = k.value := by
  cases (keptAs_of_keep? h).2 with
  | style _ _ => exact decoded_escaped _ _
  | link _ _ => exact decoded_escaped _ _
  | resource _ _ => exact decoded_escaped _ _
  | plain _ _ _ => exact (respelled _).decode_guarded

theorem legible_of_keep? {tag : Text} {a : Attribute} {k : Kept} (h : keep? tag a = some k) :
    k.attribute.Legible := by
  obtain ⟨hm, hk⟩ := keptAs_of_keep? h
  refine ⟨?_, ?_⟩
  · simp only [mayStay, Bool.and_eq_true] at hm
    rw [Kept.attribute, hk.name_eq]
    exact hm.1.1
  · intro v hv
    obtain rfl : k.written = v := by simpa [Kept.attribute] using hv
    exact hk.inert

theorem keptNames_sublist (tag : Text) (l : List Attribute) :
    List.Sublist ((l.filterMap (keep? tag)).map Kept.name) (l.map Attribute.name) := by
  induction l with
  | nil => exact List.Sublist.slnil
  | cons a l ih =>
    cases hk : keep? tag a with
    | none =>
      rw [List.filterMap_cons_none hk]
      exact ih.cons a.name
    | some k =>
      rw [List.filterMap_cons_some hk, List.map_cons, name_of_keep? hk]
      exact ih.cons_cons a.name

def CleanStyle (s : Text) : Prop :=
  ∃ ds : List (Text × Text), s = Text.join "; " (ds.map fun d => d.1 ++ ": " ++ d.2) ∧
    ∀ d ∈ ds, Style.isPropertyName d.1 = true ∧ Style.isSafeValue d.2 = true

structure Attribute.Permitted (tag : Text) (a : Attribute) : Prop where
  handler : Text.startsWith "on" a.name = false
  blocked : a.name ∉ blockedAttributes
  link : a.name ∈ linkAttributes → Link.safeLink? a.decoded = some a.decoded
  resource : a.name ∈ resourceAttributes →
    Link.safeResource? (imageTags.contains tag) a.decoded = some a.decoded
  style : a.name = "style" → CleanStyle a.decoded

theorem cleanStyle_of_cleanInline? {s css : Text} (h : Style.cleanInline? s = some css) :
    CleanStyle css := by
  obtain ⟨ds, hpieces, hkept⟩ := (Style.cleaned_of_cleanInline? h).declared
  refine ⟨ds, ?_, fun d hd => ⟨(hkept d hd).isPropertyName, (hkept d hd).safe⟩⟩
  rw [← Text.join_pieces "; " css, hpieces]
  rfl

theorem not_link_of_resource {n : Text} (h : n ∈ resourceAttributes) : n ∉ linkAttributes := by
  have hdisjoint : ∀ n ∈ resourceAttributes, n ∉ linkAttributes := by decide
  exact hdisjoint n h

theorem permitted_of_keep? {tag : Text} {a : Attribute} {k : Kept} (h : keep? tag a = some k) :
    k.attribute.Permitted tag := by
  obtain ⟨hm, hk⟩ := keptAs_of_keep? h
  simp only [mayStay, Bool.and_eq_true, Bool.not_eq_true'] at hm
  obtain ⟨⟨_, hon⟩, hb⟩ := hm
  have hname : k.attribute.name = a.name := hk.name_eq
  have hblocked : a.name ∉ blockedAttributes := fun hmem => by
    rw [List.contains_iff_mem.2 hmem] at hb
    exact Bool.noConfusion hb
  refine ⟨by rw [hname]; exact hon, by rw [hname]; exact hblocked, ?_, ?_, ?_⟩ <;> rw [hname]
  · intro hl
    cases hk with
    | style hn _ => exact absurd (hn ▸ hl) (by decide)
    | link _ hu => rw [decoded_escaped]; exact Link.safeLink?_self hu
    | resource hr _ => exact absurd hl (not_link_of_resource hr)
    | plain _ hnl _ => exact absurd hl hnl
  · intro hr
    cases hk with
    | style hn _ => exact absurd (hn ▸ hr) (by decide)
    | link hl _ => exact absurd hl (not_link_of_resource hr)
    | resource _ hu => rw [decoded_escaped]; exact Link.safeResource?_self hu
    | plain _ _ hnr => exact absurd hr hnr
  · intro hs
    cases hk with
    | style _ hc => rw [decoded_escaped]; exact cleanStyle_of_cleanInline? hc
    | link hl _ => exact absurd (hs ▸ hl) (by decide)
    | resource hr _ => exact absurd (hs ▸ hr) (by decide)
    | plain hns _ _ => exact absurd hs hns

theorem mem_protectLink {tag : Text} {l : List Kept} {k : Kept} (h : k ∈ protectLink tag l) :
    k ∈ l ∨ k = .escaped "rel" "noopener noreferrer" := by
  unfold protectLink at h
  split at h
  · rcases List.mem_append.1 h with h | h
    · exact .inl (List.mem_filter.1 h).1
    · exact .inr (by simpa using h)
  · exact .inl h

theorem protectLink_of_ne {tag : Text} (h : tag ≠ "a") (l : List Kept) : protectLink tag l = l := by
  rw [protectLink, decide_eq_false h, Bool.false_and, if_neg Bool.false_ne_true]

theorem nodup_protectLink {tag : Text} {l : List Kept} (h : (l.map Kept.name).Nodup) :
    ((protectLink tag l).map Kept.name).Nodup := by
  unfold protectLink
  split
  · rw [List.map_append, List.nodup_append]
    refine ⟨h.sublist (List.filter_sublist.map _), by simp, ?_⟩
    intro n hn m hm e
    obtain ⟨k, hk, rfl⟩ := List.mem_map.1 hn
    obtain rfl : m = ("rel" : Text) := by simpa [Kept.escaped] using hm
    simpa [e] using (List.mem_filter.1 hk).2
  · exact h

theorem closeTo?_eq_some {tag : Text} {opened closed rest : List Text}
    (h : closeTo? tag opened = some (closed, rest)) : opened = closed ++ rest := by
  induction opened generalizing closed with
  | nil => simp [closeTo?] at h
  | cons t opened ih =>
    simp only [closeTo?] at h
    split at h
    · obtain ⟨rfl, rfl⟩ : [t] = closed ∧ opened = rest := by simpa using h
      rfl
    · obtain ⟨⟨closed', rest'⟩, h', e⟩ := Option.map_eq_some_iff.1 h
      obtain ⟨rfl, rfl⟩ : t :: closed' = closed ∧ rest' = rest := by simpa using e
      rw [ih h', List.cons_append]

theorem drop_opened (p : Progress) (tag : Text) (selfClosing : Bool) :
    (p.drop tag selfClosing).opened = p.opened := by
  unfold Progress.drop
  split <;> rfl

theorem nested_closing {closed rest : List Text} {ps : List Piece} (h : Nested rest ps) :
    Nested (closed ++ rest) (closed.map Piece.closing ++ ps) := by
  induction closed with
  | nil => exact h
  | cons t closed ih => exact ⟨closed ++ rest, rfl, ih⟩

section

variable [Link.HostReader]

/-- What is asked of a start tag before it is written with some of its attributes. -/
structure Opens (policy : Policy) (tag : Text) (attributes : List Attribute) (l : List Kept) :
    Prop where
  kept : isDropped tag = false
  allowed : isAllowed policy tag = true
  frame : tag = "iframe" → hasEmbedSource (attributes.filterMap (keep? tag)) = true
  list : l = protectLink tag (attributes.filterMap (keep? tag))

theorem Opens.closable {policy : Policy} {tag : Text} {attributes : List Attribute} {l : List Kept}
    (h : Opens policy tag attributes l) : Closable tag := by
  have ha := h.allowed
  simp only [isAllowed, Bool.and_eq_true] at ha
  refine ⟨ha.1, ?_⟩
  rintro rfl
  exact absurd h.kept (by decide)

theorem Opens.mem {policy : Policy} {tag : Text} {attributes : List Attribute} {l : List Kept}
    (h : Opens policy tag attributes l) {k : Kept} (hk : k ∈ l) :
    (∃ a ∈ attributes, keep? tag a = some k) ∨ k = .escaped "rel" "noopener noreferrer" := by
  rw [h.list] at hk
  exact (mem_protectLink hk).imp_left List.mem_filterMap.1

theorem Opens.legible {policy : Policy} {tag : Text} {attributes : List Attribute} {l : List Kept}
    {selfClosing : Bool} (h : Opens policy tag attributes l)
    (hr : (Token.startTag tag attributes selfClosing).Regular) : (Piece.opening tag l).Legible := by
  obtain ⟨hlower, hnodup⟩ := hr
  refine ⟨h.closable, ?_, ?_⟩
  · intro k hk
    rcases h.mem hk with ⟨a, ha, hk⟩ | rfl
    · exact ⟨legible_of_keep? hk, by rw [name_of_keep? hk, hlower a ha]⟩
    · refine ⟨⟨by decide, ?_⟩, by decide⟩
      intro v hv
      obtain rfl : escapeAttribute "noopener noreferrer" = v := by
        simpa [Kept.attribute, Kept.escaped] using hv
      exact inert_escapeAttribute _
  · rw [h.list]
    exact nodup_protectLink (hnodup.sublist (keptNames_sublist tag attributes))

inductive Steps (policy : Policy) (p : Progress) (t : Token) : List Piece × Progress → Prop where
  | silent {q : Progress} (h : q.opened = p.opened) : Steps policy p t ([], q)
  | text {w : Text} (h : Inert w) : Steps policy p t ([.text w], p)
  | opening {tag : Text} {attributes : List Attribute} {selfClosing : Bool} {l : List Kept}
      {q : Progress} (ht : t = .startTag tag attributes selfClosing)
      (h : Opens policy tag attributes l) (hq : q.opened = push tag p.opened) :
      Steps policy p t ([.opening tag l], q)
  | closing {closed rest : List Text} {q : Progress} (h : p.opened = closed ++ rest)
      (hq : q.opened = rest) : Steps policy p t (closed.map .closing, q)

theorem steps_openElement (policy : Policy) (p : Progress) (tag : Text)
    (attributes : List Attribute) (selfClosing : Bool) :
    Steps policy p (.startTag tag attributes selfClosing)
      (openElement policy p tag attributes selfClosing) := by
  unfold openElement
  dsimp only
  split
  · exact .silent (drop_opened p tag selfClosing)
  · rename_i hd
    split
    · exact .silent rfl
    · rename_i ha
      split
      · exact .silent (drop_opened p tag selfClosing)
      · rename_i hf
        refine .opening rfl ⟨by simpa using hd, by simpa using ha, ?_, rfl⟩ ?_
        · intro e
          simpa [e] using hf
        · unfold push
          split <;> rfl

theorem steps_step (policy : Policy) (p : Progress) (t : Token) :
    Steps policy p t (step policy p t) := by
  unfold step
  split
  · exact .silent rfl
  · cases t with
    | text s => exact .text (respelled s).inert
    | rawText s => exact .text (inert_escape s)
    | startTag tag attributes selfClosing => exact steps_openElement policy p tag attributes selfClosing
    | endTag tag =>
      dsimp only
      unfold closeElement
      split
      · exact .silent rfl
      · exact .closing (closeTo?_eq_some ‹_›) rfl
    | comment s => exact .silent rfl
    | bogus => exact .silent rfl

theorem nested_step {policy : Policy} {p : Progress} {t : Token} {ps : List Piece}
    (h : Nested (step policy p t).2.opened ps) :
    Nested p.opened ((step policy p t).1 ++ ps) := by
  have hs := steps_step policy p t
  generalize step policy p t = r at hs h
  cases hs with
  | silent hq => rwa [hq] at h
  | text _ => exact h
  | opening _ _ hq => rwa [hq] at h
  | closing hc hq =>
    rw [hq] at h
    rw [hc]
    exact nested_closing h

theorem closable_step {policy : Policy} {p : Progress} {t : Token}
    (h : ∀ n ∈ p.opened, Closable n) : ∀ n ∈ (step policy p t).2.opened, Closable n := by
  have hs := steps_step policy p t
  generalize step policy p t = r at hs
  cases hs with
  | silent hq => rwa [hq]
  | text _ => exact h
  | opening _ ho hq =>
    rw [hq]
    exact closable_push ho.closable h
  | closing hc hq =>
    intro n hn
    rw [hq] at hn
    exact h n (hc ▸ List.mem_append_right _ hn)

/-- Every piece is legible, and an opening one is for a start tag that was read. -/
def Piece.From (policy : Policy) (ts : List Token) (x : Piece) : Prop :=
  x.Legible ∧ ∀ tag l, x = .opening tag l → ∃ attributes selfClosing,
    .startTag tag attributes selfClosing ∈ ts ∧ Opens policy tag attributes l

theorem from_closing {policy : Policy} {ts : List Token} {tag : Text} (h : Closable tag) :
    (Piece.closing tag).From policy ts := by
  refine ⟨h.1, ?_⟩
  intro _ _ e
  cases e

theorem from_step {policy : Policy} {p : Progress} {t : Token} (ht : t.Regular)
    (ho : ∀ n ∈ p.opened, Closable n) : ∀ x ∈ (step policy p t).1, x.From policy [t] := by
  have hs := steps_step policy p t
  generalize step policy p t = r at hs
  intro x hx
  cases hs with
  | silent _ => simp at hx
  | text hw =>
    obtain rfl : x = .text _ := by simpa using hx
    refine ⟨hw, ?_⟩
    intro _ _ e
    cases e
  | @opening tag attributes selfClosing l q e h _ =>
    obtain rfl : x = .opening tag l := by simpa using hx
    subst e
    refine ⟨h.legible ht, ?_⟩
    intro tag' l' e
    obtain ⟨rfl, rfl⟩ : tag = tag' ∧ l = l' := by simpa using e
    exact ⟨attributes, selfClosing, List.mem_cons_self, h⟩
  | closing hc _ =>
    obtain ⟨n, hn, rfl⟩ := List.mem_map.1 hx
    exact from_closing (ho n (hc ▸ List.mem_append_left _ hn))

theorem Piece.From.mono {policy : Policy} {ts us : List Token} (h : ts ⊆ us) {x : Piece}
    (hx : x.From policy ts) : x.From policy us := by
  refine ⟨hx.1, ?_⟩
  intro tag l e
  obtain ⟨attributes, selfClosing, hm, ho⟩ := hx.2 tag l e
  exact ⟨attributes, selfClosing, h hm, ho⟩

theorem nested_pieces (policy : Policy) (p : Progress) (ts : List Token) :
    Nested p.opened (pieces policy p ts) := by
  induction ts generalizing p with
  | nil =>
    have h : Nested (p.opened ++ []) (p.opened.map Piece.closing ++ []) := nested_closing rfl
    rwa [List.append_nil, List.append_nil] at h
  | cons t ts ih => exact nested_step (ih _)

theorem from_pieces {policy : Policy} {p : Progress} {ts : List Token} (ht : ∀ t ∈ ts, t.Regular)
    (ho : ∀ n ∈ p.opened, Closable n) : ∀ x ∈ pieces policy p ts, x.From policy ts := by
  induction ts generalizing p with
  | nil =>
    intro x hx
    obtain ⟨n, hn, rfl⟩ := List.mem_map.1 hx
    exact from_closing (ho n hn)
  | cons t ts ih =>
    intro x hx
    rcases List.mem_append.1 hx with hx | hx
    · exact (from_step (ht t List.mem_cons_self) ho x hx).mono (by simp)
    · have hrest : ∀ u ∈ ts, u.Regular := fun u hu => ht u (List.mem_cons_of_mem t hu)
      exact (ih hrest (closable_step ho) x hx).mono (List.subset_cons_self t ts)

theorem sanitize_of_ne {policy : Policy} (h : policy ≠ .trustedCode) (s : Text) :
    sanitize policy s = written (pieces policy .start (tokens s)) := by
  cases policy with
  | richContent => rfl
  | htmlBlock => rfl
  | trustedCode => exact absurd rfl h

theorem from_sanitized (policy : Policy) (s : Text) :
    ∀ x ∈ pieces policy .start (tokens s), x.From policy (tokens s) :=
  from_pieces (fun _ => regular_of_mem_tokens) (by simp [Progress.start])

theorem selfContained_sanitizeUntrusted (policy : Policy) (s : Text) :
    SelfContained (sanitizeUntrusted policy s) :=
  selfContained_written (nested_pieces policy .start _) fun x hx => (from_sanitized policy s x hx).1

theorem tags_sanitizeUntrusted {policy : Policy} {s : Text} {t : Token}
    (h : t ∈ tags (sanitizeUntrusted policy s)) : (∃ tag, t = .endTag tag) ∨
      ∃ tag attributes l, Opens policy tag attributes l ∧
        t = .startTag tag (l.map Kept.attribute) false := by
  have hfrom := from_sanitized policy s
  rw [sanitizeUntrusted, tags_written_of_nested (nested_pieces policy .start _)
    fun x hx => (hfrom x hx).1] at h
  rcases mem_reread h with h | ⟨tag, l, hm, e⟩
  · exact .inl h
  · obtain ⟨attributes, _, _, ho⟩ := (hfrom _ hm).2 tag l rfl
    exact .inr ⟨tag, attributes, l, ho, e⟩

/-- What a policy permits of a start tag. -/
structure Permitted (policy : Policy) (tag : Text) (l : List Attribute) : Prop where
  name : isTagName tag = true
  kept : tag ∉ droppedTags
  listed : policy = .richContent → tag ∈ richTags
  attributes : ∀ a ∈ l, a.Permitted tag
  frame : tag = "iframe" → ∃ a ∈ l, a.name = "src" ∧ (Link.safeEmbed? a.decoded).isSome = true

def Token.Permitted (policy : Policy) : Token → Prop
  | .startTag tag l _ => Markup.Permitted policy tag l
  | .comment _ => False
  | .bogus => False
  | _ => True

theorem Opens.permitted {policy : Policy} {tag : Text} {attributes : List Attribute} {l : List Kept}
    (h : Opens policy tag attributes l) : Permitted policy tag (l.map Kept.attribute) where
  name := h.closable.1
  kept := by
    intro hm
    have hd := h.kept
    rw [isDropped, List.contains_iff_mem.2 hm] at hd
    exact Bool.noConfusion hd
  listed := by
    intro e
    have ha := h.allowed
    simp only [isAllowed, e, Bool.and_eq_true, Bool.or_eq_true] at ha
    exact List.contains_iff_mem.1 (ha.2.resolve_left (by decide))
  attributes := by
    intro a ha
    obtain ⟨k, hk, rfl⟩ := List.mem_map.1 ha
    rcases h.mem hk with ⟨b, _, hb⟩ | rfl
    · exact permitted_of_keep? hb
    · refine ⟨by decide, by decide, ?_, ?_, ?_⟩
      · intro hm
        exact absurd hm (by decide)
      · intro hm
        exact absurd hm (by decide)
      · intro hm
        exact absurd hm (by decide)
  frame := by
    rintro rfl
    obtain ⟨k, hk, hs⟩ := List.any_eq_true.1 (h.frame rfl)
    obtain ⟨hname, hsafe⟩ : k.name = "src" ∧ (Link.safeEmbed? k.value).isSome = true := by
      simpa using hs
    obtain ⟨a, _, ha⟩ := List.mem_filterMap.1 hk
    have hl : k ∈ l := by rwa [h.list, protectLink_of_ne (by decide)]
    refine ⟨k.attribute, List.mem_map_of_mem hl, hname, ?_⟩
    rwa [decoded_of_keep? ha]

/-- Sanitized markup is read back as tags that the policy permits, without a comment or anything
    bogus. -/
theorem permitted_of_mem_sanitize {policy : Policy} (h : policy ≠ .trustedCode) (s : Text) :
    ∀ t ∈ tokens (sanitize policy s), t.Permitted policy := by
  have hs : sanitize policy s = sanitizeUntrusted policy s := by
    cases policy with
    | richContent => rfl
    | htmlBlock => rfl
    | trustedCode => exact absurd rfl h
  intro t ht
  rw [hs] at ht
  cases t with
  | text _ => trivial
  | rawText _ => trivial
  | endTag _ => trivial
  | startTag tag l selfClosing =>
    rcases tags_sanitizeUntrusted (mem_tags ht rfl) with ⟨_, e⟩ | ⟨_, _, _, ho, e⟩
    · cases e
    · cases e
      exact ho.permitted
  | comment _ =>
    rcases tags_sanitizeUntrusted (mem_tags ht rfl) with ⟨_, e⟩ | ⟨_, _, _, _, e⟩ <;> cases e
  | bogus =>
    rcases tags_sanitizeUntrusted (mem_tags ht rfl) with ⟨_, e⟩ | ⟨_, _, _, _, e⟩ <;> cases e

end

theorem permitted_of_mem_sanitize_frame :
    (Policy.htmlBlock ≠ .trustedCode ∧
      .startTag "iframe" [⟨"src", some ("https://www.youtube.com/embed/x" : Text)⟩] false ∈
        tokens (sanitize .htmlBlock
          "<iframe src='https://www.youtube.com/embed/x' onload=f()><b id=x style='color: red'>")) ∧
    (Token.startTag "iframe" [⟨"src", some ("https://www.youtube.com/embed/x" : Text)⟩]
      false).Permitted .htmlBlock := by
  have hm : .startTag "iframe" [⟨"src", some ("https://www.youtube.com/embed/x" : Text)⟩] false ∈
      tokens (sanitize .htmlBlock
        "<iframe src='https://www.youtube.com/embed/x' onload=f()><b id=x style='color: red'>") := by
    decide +kernel
  exact ⟨⟨by decide, hm⟩, permitted_of_mem_sanitize (by decide) _ _ hm⟩

end Folio.Markup
