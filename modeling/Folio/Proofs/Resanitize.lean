import Folio.Proofs.InlineStyle
import Folio.Proofs.Respell
import Folio.Proofs.Sanitized

set_option autoImplicit false

/-!
# Sanitizing again

Sanitized markup is read back piece by piece, and each piece is written as it was: a text because its
references are settled, a start tag because every attribute it kept is kept with the same value, and
an end tag because its element is the innermost that stands open. So sanitizing again changes nothing,
unless an element of raw text hides pieces from the second reading.
-/
namespace Folio.Markup

section

variable {tag : Text} {a : Attribute}

theorem keep?_style (hm : mayStay a.name = true) (hn : a.name = "style") :
    keep? tag a = (Style.cleanInline? a.decoded).map (Kept.escaped a.name) := by
  unfold keep?
  dsimp only
  rw [if_neg (by simp [hm]), if_pos hn]
  rfl

theorem keep?_link (hm : mayStay a.name = true) (hl : a.name ∈ linkAttributes) :
    keep? tag a = (Link.safeLink? a.decoded).map (Kept.escaped a.name) := by
  have hstyle : a.name ≠ "style" := fun e => absurd (e ▸ hl) (by decide)
  unfold keep?
  dsimp only
  rw [if_neg (by simp [hm]), if_neg hstyle, if_pos (List.contains_iff_mem.2 hl)]
  rfl

theorem keep?_resource (hm : mayStay a.name = true) (hr : a.name ∈ resourceAttributes) :
    keep? tag a =
      (Link.safeResource? (imageTags.contains tag) a.decoded).map (Kept.escaped a.name) := by
  have hstyle : a.name ≠ "style" := fun e => absurd (e ▸ hr) (by decide)
  have hlink : ¬ linkAttributes.contains a.name = true :=
    fun h => not_link_of_resource hr (List.contains_iff_mem.1 h)
  unfold keep?
  dsimp only
  rw [if_neg (by simp [hm]), if_neg hstyle, if_neg hlink, if_pos (List.contains_iff_mem.2 hr)]
  rfl

theorem keep?_plain (hm : mayStay a.name = true) (hs : a.name ≠ "style")
    (hl : a.name ∉ linkAttributes) (hr : a.name ∉ resourceAttributes) :
    keep? tag a = some ⟨a.name, a.decoded, guardBacktick (respell (a.value.getD []))⟩ := by
  unfold keep?
  dsimp only
  rw [if_neg (by simp [hm]), if_neg hs, if_neg fun h => hl (List.contains_iff_mem.1 h),
    if_neg fun h => hr (List.contains_iff_mem.1 h)]
  rfl

theorem keep?_self {k : Kept} (h : keep? tag a = some k) : keep? tag k.attribute = some k := by
  obtain ⟨hm, hk⟩ := keptAs_of_keep? h
  cases hk with
  | @style css hn hc =>
    rw [keep?_style (a := (Kept.escaped a.name css).attribute) hm hn, decoded_escaped,
      Style.cleanInline?_self hc]
    rfl
  | @link url hl hu =>
    rw [keep?_link (a := (Kept.escaped a.name url).attribute) hm hl, decoded_escaped,
      Link.safeLink?_self hu]
    rfl
  | @resource url hr hu =>
    rw [keep?_resource (a := (Kept.escaped a.name url).attribute) hm hr, decoded_escaped,
      Link.safeResource?_self hu]
    rfl
  | plain hs hl hr =>
    -- the value is decoded anew from what was written, and written from its references
    let written := guardBacktick (respell (a.value.getD []))
    have hvalue : (⟨a.name, some written⟩ : Attribute).decoded = a.decoded := (respelled _).decode_guarded
    have hwritten : guardBacktick (respell written) = written := respell_guarded _
    have h : keep? tag ⟨a.name, some written⟩ =
        some ⟨a.name, _, guardBacktick (respell written)⟩ := keep?_plain hm hs hl hr
    rwa [hvalue, hwritten] at h

theorem keep?_escaped (hm : mayStay a.name = true) (hs : a.name ≠ "style")
    (hl : a.name ∉ linkAttributes) (hr : a.name ∉ resourceAttributes) (v : Text) :
    keep? tag (Kept.escaped a.name v).attribute = some (Kept.escaped a.name v) := by
  rw [keep?_plain (a := (Kept.escaped a.name v).attribute) hm hs hl hr, decoded_escaped]
  simp [Kept.attribute, Kept.escaped, respell_escapeAttribute]

end

theorem opensNewTab_protectLink (tag : Text) {l : List Kept} (h : opensNewTab l = true) :
    opensNewTab (protectLink tag l) = true := by
  unfold protectLink
  split
  · obtain ⟨k, hk, ht⟩ := List.any_eq_true.1 h
    refine List.any_eq_true.2 ⟨k, List.mem_append_left _ (List.mem_filter.2 ⟨hk, ?_⟩), ht⟩
    have hname : k.name = "target" := of_decide_eq_true (Bool.and_eq_true_iff.1 ht).1
    rw [hname]
    decide
  · exact h

theorem protectLink_protectLink (tag : Text) (l : List Kept) :
    protectLink tag (protectLink tag l) = protectLink tag l := by
  by_cases h : (decide (tag = "a") && opensNewTab l) = true
  · obtain ⟨htag, htab⟩ := Bool.and_eq_true_iff.1 h
    have hagain := opensNewTab_protectLink tag htab
    rw [protectLink, htag, hagain, Bool.and_true, if_pos rfl, protectLink, if_pos h,
      List.filter_append, List.filter_filter]
    simp [Kept.escaped]
  · rw [protectLink, protectLink, if_neg h, if_neg h]

section

variable [Link.HostReader]

def Piece.Fixed (policy : Policy) : Piece → Prop
  | .text w => Settled w
  | .opening tag l => rawOf tag = none ∧
      ∀ opened, openElement policy ⟨opened, none⟩ tag (l.map Kept.attribute) false =
        ([.opening tag l], ⟨push tag opened, none⟩)
  | .closing _ => True

theorem keep?_of_opens {policy : Policy} {tag : Text} {attributes : List Attribute} {l : List Kept}
    (h : Opens policy tag attributes l) : ∀ k ∈ l, keep? tag k.attribute = some k := by
  intro k hk
  rcases h.mem hk with ⟨a, _, ha⟩ | rfl
  · exact keep?_self ha
  · exact keep?_escaped (a := ⟨"rel", none⟩) (by decide) (by decide) (by decide) (by decide) _

theorem openElement_of_opens {policy : Policy} {tag : Text} {attributes : List Attribute}
    {l : List Kept} (h : Opens policy tag attributes l) (hraw : rawOf tag = none)
    (opened : List Text) :
    openElement policy ⟨opened, none⟩ tag (l.map Kept.attribute) false =
      ([.opening tag l], ⟨push tag opened, none⟩) := by
  have hkept : (l.map Kept.attribute).filterMap (keep? tag) = l := by
    rw [List.filterMap_map]
    have hself := keep?_of_opens h
    clear h
    induction l with
    | nil => rfl
    | cons k l ih =>
      obtain ⟨hk, hl⟩ := List.forall_mem_cons.1 hself
      have hk : (keep? tag ∘ Kept.attribute) k = some k := hk
      rw [List.filterMap_cons_some hk, ih hl]
  have hframe : (decide (tag = "iframe") && !hasEmbedSource l) = false := by
    have hne : tag ≠ "iframe" := by
      rintro rfl
      exact absurd hraw (by decide)
    rw [decide_eq_false hne, Bool.false_and]
  have hlink : protectLink tag l = l := by rw [h.list, protectLink_protectLink]
  unfold openElement push
  simp only [hkept, h.kept, h.allowed, hlink, hframe, Bool.not_true, Bool.false_eq_true, if_false]
  split <;> rfl

omit [Link.HostReader] in
theorem plain_inert_append {w : Text} (h : '<' ∉ w) (r : Text) :
    Lexer.plain (w ++ r) = (w ++ (Lexer.plain r).1, (Lexer.plain r).2) := by
  induction w with
  | nil => rfl
  | cons c w ih =>
    have hc : c ≠ '<' := fun e => h (e ▸ List.mem_cons_self)
    have hw := ih fun hm => h (List.mem_cons_of_mem c hm)
    rw [List.cons_append, Lexer.plain, if_neg (by simp [hc]), hw]
    rfl

/-- What is written for a text from some progress on. -/
def rewritten (policy : Policy) (p : Progress) (s : Text) : Text := written (pieces policy p (tokens s))

section

variable (policy : Policy) (opened : List Text)

theorem rewritten_nil : rewritten policy ⟨[], none⟩ [] = [] := by
  simp [rewritten, tokens, lex, lexFrom, pieces, written]

theorem rewritten_token {c : Char} {s r : Text} {t : Token} (p : Progress)
    (h : Lexer.nextIn none c s = (t, r)) (hraw : Lexer.rawAfter t = none) :
    rewritten policy p (c :: s) =
      written (step policy p t).1 ++ rewritten policy (step policy p t).2 r := by
  have htokens : tokens (c :: s) = t :: tokens r := by
    rw [tokens, lex, tokensFrom_cons, h, hraw]
    rfl
  simp [rewritten, htokens, pieces, written]

theorem rewritten_plain (s : Text) : rewritten policy ⟨opened, none⟩ s =
    respell (Lexer.plain s).1 ++ rewritten policy ⟨opened, none⟩ (Lexer.plain s).2 := by
  cases s with
  | nil => simp [Lexer.plain, respell]
  | cons c s =>
    by_cases h : (decide (c = '<') && Lexer.opensMarkup s) = true
    · simp [Lexer.plain, h, respell]
    · have hnext : Lexer.nextIn none c s = (.text (c :: (Lexer.plain s).1), (Lexer.plain s).2) := by
        rw [Lexer.nextIn, Lexer.next, if_neg h]
      rw [Lexer.plain, if_neg h, rewritten_token policy _ hnext rfl]
      simp [step, written, Piece.write]

variable {policy opened}

theorem rewritten_text {w : Text} (hs : Settled w) (hw : '<' ∉ w) (r : Text) :
    rewritten policy ⟨opened, none⟩ (w ++ r) = w ++ rewritten policy ⟨opened, none⟩ r := by
  rw [rewritten_plain, plain_inert_append hw, hs, List.append_assoc, ← rewritten_plain]

theorem rewritten_opening {tag : Text} {l : List Kept} (hl : (Piece.opening tag l).Legible)
    (hf : (Piece.opening tag l).Fixed policy) (r : Text) :
    rewritten policy ⟨opened, none⟩ ((Piece.opening tag l).write ++ r) =
      (Piece.opening tag l).write ++ rewritten policy ⟨push tag opened, none⟩ r := by
  have hnext := nextIn_openingTag hl.1.1 (legible_attributes hl) r
  rw [attributes_reread hl] at hnext
  have hstart : (Piece.opening tag l).write ++ r =
      '<' :: (tag ++ ((l.map Kept.attribute).flatMap Attribute.spell ++ '>' :: r)) := by
    rw [write_opening, openingTag_append]
  have hraw : Lexer.rawAfter (.startTag tag (l.map Kept.attribute) false) = none := hf.1
  have hstep : step policy ⟨opened, none⟩ (.startTag tag (l.map Kept.attribute) false) =
      ([.opening tag l], ⟨push tag opened, none⟩) := hf.2 opened
  rw [hstart, rewritten_token policy _ hnext hraw, hstep]
  simp [written]

theorem rewritten_closing {tag : Text} (h : isTagName tag = true) (r : Text) :
    rewritten policy ⟨tag :: opened, none⟩ ((Piece.closing tag).write ++ r) =
      (Piece.closing tag).write ++ rewritten policy ⟨opened, none⟩ r := by
  have hstart : (Piece.closing tag).write ++ r = '<' :: '/' :: (tag ++ '>' :: r) := endTag_append tag r
  rw [hstart, rewritten_token policy _ (nextIn_endTag h r) rfl]
  simp [step, closeElement, closeTo?, written, Piece.write]

theorem rewritten_written {ps : List Piece} (hn : Nested opened ps)
    (hp : ∀ p ∈ ps, p.Legible ∧ p.Fixed policy) :
    rewritten policy ⟨opened, none⟩ (written ps) = written ps := by
  -- the elements that stand open are the same in the reading and in the nesting of the pieces
  induction ps generalizing opened with
  | nil =>
    obtain rfl : opened = [] := hn
    exact rewritten_nil policy
  | cons p ps ih =>
    obtain ⟨⟨hl, hf⟩, hrest⟩ := List.forall_mem_cons.1 hp
    have hcons : written (p :: ps) = p.write ++ written ps := List.flatMap_cons
    rw [hcons]
    cases p with
    | text w => exact (rewritten_text hf (Inert.not_mem_open hl) _).trans (by rw [ih hn hrest]; rfl)
    | opening tag l => rw [rewritten_opening hl hf, ih hn hrest]
    | closing tag =>
      obtain ⟨rest, rfl, hn⟩ := hn
      rw [rewritten_closing hl, ih hn hrest]

end

theorem settled_of_mem_step {policy : Policy} {p : Progress} {t : Token} {w : Text}
    (h : .text w ∈ (step policy p t).1) : Settled w := by
  unfold step at h
  split at h
  · simp at h
  · cases t with
    | text s =>
      obtain rfl : w = respell s := by simpa using h
      exact (respelled s).settled
    | rawText s =>
      obtain rfl : w = escape s := by simpa using h
      exact settled_escape s
    | startTag tag attributes selfClosing =>
      dsimp only at h
      unfold openElement at h
      dsimp only at h
      split at h
      · simp at h
      · split at h
        · simp at h
        · split at h <;> simp at h
    | endTag tag =>
      dsimp only at h
      unfold closeElement at h
      split at h <;> simp at h
    | comment s => simp at h
    | bogus => simp at h

theorem settled_of_mem_pieces {policy : Policy} {p : Progress} {ts : List Token} {w : Text}
    (h : .text w ∈ pieces policy p ts) : Settled w := by
  induction ts generalizing p with
  | nil => simp [pieces] at h
  | cons t ts ih =>
    rcases List.mem_append.1 h with h | h
    · exact settled_of_mem_step h
    · exact ih h

def Token.element? : Token → Option Text
  | .startTag tag _ _ => some tag
  | _ => none

def keptRawElements : List Text := ["iframe", "noembed", "noframes"]

omit [Link.HostReader] in
theorem rawOf_eq_none {tag : Text} (hd : isDropped tag = false) (hk : tag ∉ keptRawElements) :
    rawOf tag = none := by
  have hraw : ∀ t ∈ rawTextElements, isDropped t = true ∨ t ∈ keptRawElements := by decide
  rw [rawOf, if_neg]
  intro h
  rcases hraw tag (List.contains_iff_mem.1 h) with h | h
  · exact Bool.false_ne_true (hd.symm.trans h)
  · exact hk h

omit [Link.HostReader] in
theorem rawOf_of_reread {ps : List Piece}
    (h : ∀ t ∈ reread none ps, ∀ tag ∈ t.element?, rawOf tag = none) {tag : Text} {l : List Kept}
    (hm : .opening tag l ∈ ps) : rawOf tag = none := by
  induction ps with
  | nil => simp at hm
  | cons p ps ih =>
    cases p with
    | text w => exact ih h (by simpa using hm)
    | closing n => exact ih (fun t ht => h t (List.mem_cons_of_mem _ ht)) (by simpa using hm)
    | opening n k =>
      -- so the reader is not in raw text behind this tag either
      have hn : rawOf n = none := h _ List.mem_cons_self n rfl
      rcases List.mem_cons.1 hm with e | hm
      · obtain ⟨rfl, rfl⟩ : tag = n ∧ l = k := by simpa using e
        exact hn
      · rw [reread, hn] at h
        exact ih (fun t ht => h t (List.mem_cons_of_mem _ ht)) hm

/-- Sanitized markup that opens no element of raw text is sanitized already. -/
theorem sanitize_sanitize {policy : Policy} (h : policy ≠ .trustedCode) (s : Text)
    (hs : ∀ t ∈ tokens (sanitize policy s), ∀ tag ∈ t.element?, tag ∉ keptRawElements) :
    sanitize policy (sanitize policy s) = sanitize policy s := by
  have hnested : Nested [] (pieces policy .start (tokens s)) := nested_pieces policy .start _
  have hfrom := from_sanitized policy s
  have hlegible : ∀ p ∈ pieces policy .start (tokens s), p.Legible := fun p hp => (hfrom p hp).1
  rw [sanitize_of_ne h s] at hs ⊢
  have hraw : ∀ t ∈ reread none (pieces policy .start (tokens s)), ∀ tag ∈ t.element?,
      rawOf tag = none := by
    intro t ht tag htag
    rcases mem_reread ht with ⟨n, rfl⟩ | ⟨n, l, hm, rfl⟩
    · cases htag
    · obtain rfl : n = tag := by simpa [Token.element?] using htag
      obtain ⟨_, _, _, hopens⟩ := (hfrom _ hm).2 n l rfl
      rw [← tags_written_of_nested hnested hlegible] at ht
      exact rawOf_eq_none hopens.kept (hs _ (List.mem_filter.1 ht).1 n rfl)
  rw [sanitize_of_ne h]
  refine rewritten_written hnested fun p hp => ⟨hlegible p hp, ?_⟩
  cases p with
  | text w => exact settled_of_mem_pieces hp
  | opening tag l =>
    have hnone := rawOf_of_reread hraw hp
    obtain ⟨_, _, _, hopens⟩ := (hfrom _ hp).2 tag l rfl
    exact ⟨hnone, openElement_of_opens hopens hnone⟩
  | closing tag => trivial

end

theorem sanitize_sanitize_heading :
    (Policy.htmlBlock ≠ .trustedCode ∧ ∀ t ∈ tokens (sanitize .htmlBlock
        "<h1 title='caf&eacute; `x`' onclick=f()>&copy; a &amp b<svg>x</svg><b>c</i>"),
      ∀ tag ∈ t.element?, tag ∉ keptRawElements) ∧
    sanitize .htmlBlock (sanitize .htmlBlock
        "<h1 title='caf&eacute; `x`' onclick=f()>&copy; a &amp b<svg>x</svg><b>c</i>") =
      sanitize .htmlBlock
        "<h1 title='caf&eacute; `x`' onclick=f()>&copy; a &amp b<svg>x</svg><b>c</i>" := by
  have hs : ∀ t ∈ tokens (sanitize .htmlBlock
        "<h1 title='caf&eacute; `x`' onclick=f()>&copy; a &amp b<svg>x</svg><b>c</i>"),
      ∀ tag ∈ t.element?, tag ∉ keptRawElements := by
    decide +kernel
  exact ⟨⟨by decide, hs⟩, sanitize_sanitize (by decide) _ hs⟩

end Folio.Markup
