import Folio.Proofs.Trusted
import Mathlib.Data.List.Forall2

set_option autoImplicit false

/-!
# What survives in a tag that is written anew

A tag with a style attribute is written from its attributes, and read back it should be the same tag with
the style stripped. Two things can be lost on the way. A bare attribute takes the next one for its value
if the name of that begins with an equals sign. And a value is decoded and escaped, so a named reference
that `decode` does not know is escaped itself and stands for its own letters afterwards.
-/
namespace Folio.Markup

/-- Without a named reference that `decode` does not read to the end of its name. -/
def Unnamed (s : Text) : Prop := ∀ w, Stands w → ¬ '&' :: (w ++ ";") <:+: s

theorem Unnamed.mono {s t : Text} (h : Unnamed t) (hs : s <:+ t) : Unnamed s :=
  fun w hw hin => h w hw (hin.trans hs.isInfix)

theorem exists_respell_of_suffix {v s : Text} (h : '&' :: v <:+ s) :
    ∃ u, respell s = u ++ respell ('&' :: v) := by
  -- an ampersand behind another one is behind what that one takes
  fun_induction respell s with
  | case1 => exact absurd (List.suffix_nil.1 h) (List.cons_ne_nil _ _)
  | case2 s ih =>
    rcases List.suffix_cons_iff.1 h with e | h
    · exact ⟨[], by rw [List.nil_append, e, respell_amp]⟩
    · obtain ⟨q, hq, hs⟩ := exists_of_respellReference s
      rw [hs] at h
      rcases suffix_append_cases h with h | ⟨u, hu, _⟩
      · obtain ⟨u, hu⟩ := ih h
        exact ⟨(respellReference s).1 ++ u, by rw [hu, List.append_assoc]⟩
      · exact absurd (hu.subset List.mem_cons_self) hq
  | case3 c s hc ih =>
    rcases List.suffix_cons_iff.1 h with e | h
    · exact absurd (List.cons.inj e).1.symm hc
    · obtain ⟨u, hu⟩ := ih h
      exact ⟨escapeChar c ++ u, by rw [hu, List.append_assoc]⟩

def escapedNames : List Text := ["amp", "lt", "gt", "quot", "#39"]

theorem not_stands_of_escapedName {w : Text} (h : w ∈ escapedNames) : ';' ∉ w ∧ ¬ Stands w := by
  simp only [escapedNames, List.mem_cons, List.not_mem_nil, or_false] at h
  rcases h with rfl | rfl | rfl | rfl | rfl
  · exact ⟨by decide, fun hw => hw.unread '&' rfl⟩
  · exact ⟨by decide, fun hw => hw.unread '<' rfl⟩
  · exact ⟨by decide, fun hw => hw.unread '>' rfl⟩
  · exact ⟨by decide, fun hw => hw.unread '"' rfl⟩
  · exact ⟨by decide, fun hw => absurd hw.letter (by decide)⟩

theorem escapeChar_ampersand (c : Char) : (escapeChar c = [c] ∧ c ≠ '&') ∨
    ∃ w ∈ escapedNames, escapeChar c = '&' :: (w ++ ";") := by
  unfold escapeChar
  split
  case h_6 h _ _ _ _ => exact .inl ⟨rfl, h⟩
  · exact .inr ⟨"amp", by decide, rfl⟩
  · exact .inr ⟨"lt", by decide, rfl⟩
  · exact .inr ⟨"gt", by decide, rfl⟩
  · exact .inr ⟨"quot", by decide, rfl⟩
  · exact .inr ⟨"#39", by decide, rfl⟩

theorem exists_of_suffix_escape {v s : Text} (h : '&' :: v <:+ escape s) :
    ∃ w ∈ escapedNames, ∃ r, v = w ++ ';' :: r := by
  induction s with
  | nil => exact absurd (List.suffix_nil.1 h) (List.cons_ne_nil _ _)
  | cons c s ih =>
    rw [escape, List.flatMap_cons, ← escape] at h
    rcases suffix_append_cases h with h | ⟨u, hu, rfl⟩
    · exact ih h
    · rcases escapeChar_ampersand c with ⟨hc, hne⟩ | ⟨w, hw, hc⟩
      · rw [hc] at hu
        exact absurd (List.mem_singleton.1 (hu.subset List.mem_cons_self)).symm hne
      · rw [hc] at hu
        have hreference : IsReference w := by
          simp only [escapedNames, List.mem_cons, List.not_mem_nil, or_false] at hw
          rcases hw with rfl | rfl | rfl | rfl | rfl
          · exact .named (by decide)
          · exact .named (by decide)
          · exact .named (by decide)
          · exact .named (by decide)
          · show IsReference ('#' :: "39")
            exact .numbered (by decide) (by decide)
        rcases List.suffix_cons_iff.1 hu with e | hu
        · exact ⟨w, hw, escape s, by rw [(List.cons.inj e).2]; simp⟩
        · have hamp := hreference.not_mem
          have hm := hu.subset List.mem_cons_self
          simp [hamp] at hm

theorem stands_ne_escapedName {w x s : Text} (hw : Stands w) :
    ¬ '&' :: (w ++ ';' :: x) <:+ escape s := by
  intro h
  obtain ⟨e, he, r, hr⟩ := exists_of_suffix_escape h
  obtain ⟨hsemicolon, hne⟩ := not_stands_of_escapedName he
  have hcut : some (w, x) = some (e, r) := by
    rw [← Text.cut?_append (p := []) (hw.not_mem (d := ';') (by decide)) x,
      ← Text.cut?_append (p := []) hsemicolon r]
    exact congrArg (Text.cut? [';']) hr
  exact hne ((Prod.mk.inj (Option.some.inj hcut)).1 ▸ hw)

/-- Respelling a text is escaping what it decodes to, but for the names that stand in it. -/
theorem respell_eq_escape_decode_iff {s : Text} : respell s = escape (decode s) ↔ Unnamed s := by
  constructor
  · rintro h w hw ⟨a, b, hs⟩
    have hsuffix : '&' :: (w ++ ';' :: b) <:+ s := ⟨a, by rw [← hs]; simp⟩
    obtain ⟨u, hu⟩ := exists_respell_of_suffix hsuffix
    have hstands : respell ('&' :: (w ++ ';' :: b)) = '&' :: (w ++ ';' :: respell b) := by
      simpa using settled_stands hw b
    rw [hstands, h] at hu
    exact stands_ne_escapedName hw ⟨u, hu.symm⟩
  · intro h
    fun_induction respell s with
    | case1 =>
      rw [decode]
      rfl
    | case2 s ih =>
      obtain ⟨q, _, hs⟩ := exists_of_respellReference s
      have hsuffix : (respellReference s).2 <:+ s := ⟨q, hs.symm⟩
      have hrest := ih (h.mono (hsuffix.trans (List.suffix_cons _ _)))
      rcases respellReference_cases s with ⟨c, r, e, hd⟩ | ⟨w, r, hw, rfl, _⟩
      · rw [e] at hrest ⊢
        rw [hrest, hd]
        rfl
      · exact absurd ⟨[], r, by simp⟩ (h w hw)
    | case3 c s hc ih =>
      rw [ih (h.mono (List.suffix_cons c s)), decode_cons_of_ne hc]
      rfl

theorem respell_escaped (s : Text) : respell (escapeAttribute s) = escape s := by
  induction s with
  | nil => rw [escapeAttribute, show guardBacktick (escape []) = [] from rfl, respell]; rfl
  | cons c s ih =>
    have hchar : respell (guardBacktick (escapeChar c) ++ escapeAttribute s) =
        escapeChar c ++ respell (escapeAttribute s) := by
      by_cases h : c = '`'
      · subst h
        exact respell_backtick _
      · rw [guardBacktick_of_not_mem (backtick_not_mem_escapeChar h), settled_escapeChar]
    rw [escapeAttribute_cons, hchar, ih]
    rfl

namespace Attribute

def shape (a : Attribute) : Text × Bool := (a.name, a.value.isSome)

theorem shape_stripped (a : Attribute) : a.stripped.shape = a.shape := by
  rw [shape, shape, stripped, Option.isSome_map]

/-- What is to be left of an attribute: its name, whether it has a value, and of the value the text; of
    style text what is left when it is stripped. -/
structure Survives (a b : Attribute) : Prop where
  shape : b.shape = a.shape
  style : a.name = "style" → ∀ v ∈ a.value, ∀ w ∈ b.value, decode w = Style.strip (decode v)
  text : a.name ≠ "style" → ∀ v ∈ a.value, ∀ w ∈ b.value, respell w = respell v

theorem value_stripped {a : Attribute} (h : a.name ≠ "style") :
    a.stripped.value = a.value.map fun v => escapeAttribute (decode v) := by
  simp only [stripped, if_neg h]

theorem survives_stripped {a : Attribute} (h : a.name ≠ "style" → ∀ v ∈ a.value, Unnamed v) :
    a.Survives a.stripped := by
  refine ⟨shape_stripped a, fun hname v hv w hw => ?_, fun hname v hv w hw => ?_⟩
  · obtain ⟨v', hv', rfl⟩ := Option.map_eq_some_iff.1 hw
    obtain rfl : v' = v := Option.some.inj (hv'.symm.trans hv)
    rw [if_pos hname, decode_escapeAttribute]
  · rw [value_stripped hname] at hw
    obtain ⟨v', hv', rfl⟩ := Option.map_eq_some_iff.1 hw
    obtain rfl : v' = v := Option.some.inj (hv'.symm.trans hv)
    rw [respell_escaped, respell_eq_escape_decode_iff.2 (h hname v' hv)]

theorem Survives.unnamed {a : Attribute} (h : a.Survives a.stripped) :
    a.name ≠ "style" → ∀ v ∈ a.value, Unnamed v := by
  intro hname v hv
  have hw : escapeAttribute (decode v) ∈ a.stripped.value := by
    rw [value_stripped hname, Option.mem_def.1 hv]
    rfl
  have htext := h.text hname v hv _ hw
  rw [respell_escaped] at htext
  exact respell_eq_escape_decode_iff.1 htext.symm

theorem shapes_of_survives {l m : List Attribute} (h : List.Forall₂ Survives l m) :
    m.map shape = l.map shape := by
  induction h with
  | nil => rfl
  | cons ha _ ih => rw [List.map_cons, List.map_cons, ha.shape, ih]

end Attribute

namespace Lexer

theorem isSome_of_value? {t r : Text} {v : Option Text}
    (h : (t.dropWhile Text.isMarkupSpace).head? = some '=') (hv : value? t = some (v, r)) :
    v.isSome = true := by
  have quoted {quote : Char} {u : Text} (hq : quoted? quote u = some (v, r)) : v.isSome = true := by
    obtain ⟨_, _, e⟩ := Option.map_eq_some_iff.1 hq
    rw [← (Prod.mk.inj e).1]
    rfl
  unfold value? at hv
  split at hv
  · split at hv
    · cases hv
    · exact quoted hv
    · exact quoted hv
    · rw [← (Prod.mk.inj (Option.some.inj hv)).1]
      rfl
  · rename_i hne
    obtain ⟨u, hu⟩ := List.head?_eq_some_iff.1 h
    exact absurd hu (hne u)

theorem shape_firstOfEach {a : Attribute} {fresh : Text → Bool} (h : fresh a.name = true)
    (m : List Attribute) :
    ((firstOfEach (a :: m)).filter fun b => fresh b.name).map Attribute.shape =
      a.shape :: ((firstOfEach m).filter fun b => fresh b.name && b.name ≠ a.name).map
        Attribute.shape := by
  rw [firstOfEach, List.filter_cons, if_pos h, List.map_cons, List.filter_filter]

theorem exists_of_attributes?_spell {a : Attribute} (ha : a.Readable) {t u : Text} {m : List Attribute}
    {closing : Bool} (ht : ∀ d ∈ t.head?, isGap d = false)
    (h : attributes? (a.spell ++ ' ' :: t) = some (m, closing, u)) :
    ∃ x rest, m = ⟨Text.lower a.name, x⟩ :: rest ∧ (x.isSome = a.value.isSome →
      (a.value = none → t.head? ≠ some '=') ∧ attributes? (' ' :: t) = some (rest, closing, u)) := by
  have hspace : ∀ c ∈ [' '], isGap c = true := by decide
  obtain ⟨name, value⟩ := a
  obtain ⟨c, name, rfl, hc, hclose, hname⟩ := ha.name
  cases value with
  | some v =>
    have hvalue : value? ('=' :: '"' :: (v ++ '"' :: ' ' :: t)) = some (some v, ' ' :: t) :=
      (value?_quoted (.inl rfl) (List.forall_mem_nil _) (List.forall_mem_nil _) _).trans
        (quoted?_append (ha.value v rfl) _)
    have hread := attributes?_cons hspace hc hclose hname (by simp; decide) hvalue
    have hspell : Attribute.spell ⟨c :: name, some v⟩ ++ ' ' :: t =
        [' '] ++ c :: (name ++ '=' :: '"' :: (v ++ '"' :: ' ' :: t)) := by simp [Attribute.spell]
    rw [hspell, hread] at h
    obtain ⟨⟨rest, _, _⟩, htail, e⟩ := Option.map_eq_some_iff.1 h
    obtain ⟨rfl, rfl, rfl⟩ : _ = m ∧ _ = closing ∧ _ = u := by simpa using e
    exact ⟨some v, rest, rfl, fun _ => ⟨fun e => absurd e (Option.some_ne_none v), htail⟩⟩
  | none =>
    have hread := attributes?_name hspace hc hclose hname (t := ' ' :: t) (by simp; decide)
    have hspell : Attribute.spell ⟨c :: name, none⟩ ++ ' ' :: t = [' '] ++ c :: (name ++ ' ' :: t) := by
      simp [Attribute.spell]
    rw [hspell, hread] at h
    obtain ⟨⟨x, r⟩, hvalue, h⟩ := Option.bind_eq_some_iff.1 h
    obtain ⟨⟨rest, _, _⟩, htail, e⟩ := Option.map_eq_some_iff.1 h
    obtain ⟨rfl, rfl, rfl⟩ : _ = m ∧ _ = closing ∧ _ = u := by simpa using e
    refine ⟨x, rest, rfl, fun hbare => ?_⟩
    have hdrop : (' ' :: t).dropWhile Text.isMarkupSpace = t := by
      rw [List.dropWhile_cons_of_pos (by decide)]
      exact Text.dropWhile_of_head fun d hd => isMarkupSpace_of_not_gap (ht d hd)
    have hne : t.head? ≠ some '=' := fun heq =>
      Bool.false_ne_true (hbare.symm.trans (isSome_of_value? (hdrop.symm ▸ heq) hvalue))
    rw [value?_bare (hdrop.symm ▸ hne)] at hvalue
    obtain ⟨rfl, rfl⟩ := Prod.mk.inj (Option.some.inj hvalue)
    exact ⟨fun _ => hne, htail⟩

theorem isChain_apart_of_attributes? {l : List Attribute} (hl : ∀ a ∈ l, a.Readable)
    (hlower : ∀ a ∈ l, Text.lower a.name = a.name) (hnodup : (l.map Attribute.name).Nodup)
    {s u : Text} {m : List Attribute} {closing : Bool}
    (h : attributes? (l.flatMap Attribute.spell ++ s) = some (m, closing, u)) (fresh : Text → Bool)
    (hfresh : ∀ a ∈ l, fresh a.name = true)
    (hm : ((firstOfEach m).filter fun a => fresh a.name).map Attribute.shape =
      l.map Attribute.shape) : l.IsChain Attribute.Apart := by
  induction l generalizing m fresh with
  | nil => exact List.isChain_nil
  | cons a l ih =>
    obtain ⟨ha, hrest⟩ := List.forall_mem_cons.1 hl
    obtain ⟨hlow, hlower'⟩ := List.forall_mem_cons.1 hlower
    obtain ⟨hnew, hfresh'⟩ := List.forall_mem_cons.1 hfresh
    obtain ⟨hnot, hnodup'⟩ := List.nodup_cons.1 hnodup
    obtain _ | ⟨b, l⟩ := l
    · exact List.isChain_singleton a
    obtain ⟨d, next, hb, hd, _⟩ := (hrest b List.mem_cons_self).name
    obtain ⟨t, ht, hhead⟩ : ∃ t, (b :: l).flatMap Attribute.spell ++ s = ' ' :: t ∧
        t.head? = b.name.head? := ⟨_, List.cons_append, by rw [hb]; rfl⟩
    rw [List.flatMap_cons, List.append_assoc, ht] at h
    rw [ht] at ih
    have hgap : ∀ c ∈ t.head?, isGap c = false := by
      rw [hhead, hb]
      simpa using hd
    obtain ⟨x, rest, rfl, hread⟩ := exists_of_attributes?_spell ha hgap h
    have hkept : fresh (Text.lower a.name) = true := hlow.symm ▸ hnew
    rw [shape_firstOfEach hkept] at hm
    obtain ⟨hshape, htail⟩ := List.cons.inj hm
    obtain ⟨hapart, hfollowing⟩ := hread (Prod.mk.inj hshape).2
    refine List.isChain_cons_cons.2 ⟨fun hbare => hhead ▸ hapart hbare, ?_⟩
    refine ih hrest hlower' hnodup' hfollowing (fun n => fresh n && n ≠ Text.lower a.name) ?_ htail
    intro a' ha'
    have hne : a'.name ≠ Text.lower a.name := fun e => hnot (hlow ▸ e ▸ List.mem_map_of_mem ha')
    simp [hfresh' a' ha', hne]

end Lexer

theorem named_of_mem_lexFrom {raw : Option Text} (hraw : ∀ name ∈ raw, name ∈ rawTextElements)
    {s tag : Text} {l : List Attribute} {closing : Bool}
    (h : .startTag tag l closing ∈ (lexFrom raw s).map Lexeme.token) : Lexer.Named tag l := by
  fun_induction lexFrom raw s with
  | case1 => cases h
  | case2 raw c s ih =>
    rcases List.mem_cons.1 h with e | h
    · obtain ⟨_, _, hletter, hread⟩ := Lexer.of_nextIn_startTag hraw (Prod.ext e.symm rfl)
      exact Lexer.named_of_startTag hletter hread
    · exact ih (fun name hname => (Lexer.exists_of_rawAfter hname).1) h

/-- What is written anew for a tag is read back as one start tag of the same name, which closes itself
    if the tag did, and of each attribute is left what is to be left of it. -/
def Preserved (tag : Text) (l : List Attribute) (closing : Bool) : Prop :=
  ∃ m, tokens (rebuildTag tag l closing) = [.startTag tag m closing] ∧
    List.Forall₂ Attribute.Survives l m

section

variable {tag : Text} {l : List Attribute} (h : Lexer.Named tag l)
  (hregular : (Token.startTag tag l false).Regular) {closing : Bool}
include h hregular

theorem tokens_rebuildTag (hl : l.IsChain Attribute.Apart) :
    tokens (rebuildTag tag l closing) = [.startTag tag (l.map Attribute.stripped) closing] := by
  obtain ⟨x, hx, hread⟩ := nextIn_rebuildTag h hregular hl closing []
  rw [List.append_nil] at hx
  rw [hx, tokens, lex, tokensFrom_cons, hread, lexFrom]
  rfl

theorem isChain_apart_of_tokens {m : List Attribute}
    (htokens : tokens (rebuildTag tag l closing) = [.startTag tag m closing])
    (hm : m.map Attribute.shape = l.map Attribute.shape) : l.IsChain Attribute.Apart := by
  obtain ⟨hgap, _⟩ := closingGap_spec closing
  have hwritten := rebuildTag_append tag l closing []
  rw [List.append_nil] at hwritten
  rw [hwritten, tokens, lex, tokensFrom_cons, nextIn_spelled h.letter h.chars _ hgap] at htokens
  have hread := (List.cons.inj htokens).1
  split at hread
  · cases hread
  · rename_i read closing' u hattributes
    obtain rfl : Lexer.firstOfEach read = m := (Token.startTag.inj hread).2.1
    have hshapes : ((Lexer.firstOfEach read).filter fun _ => true).map Attribute.shape =
        (l.map Attribute.stripped).map Attribute.shape := by
      rw [List.filter_true, hm, List.map_map]
      exact List.map_congr_left fun a _ => (Attribute.shape_stripped a).symm
    have hlower : ∀ a ∈ l.map Attribute.stripped, Text.lower a.name = a.name := by
      intro a ha
      obtain ⟨b, hb, rfl⟩ := List.mem_map.1 ha
      exact hregular.1 b hb
    have hchain := Lexer.isChain_apart_of_attributes? (readable_stripped h) hlower
      (nodup_stripped hregular) hattributes (fun _ => true) (fun _ _ => rfl) hshapes
    exact ((List.isChain_map Attribute.stripped).1 hchain).imp fun _ _ => apart_stripped.1

end

/-- A tag of the code survives being written anew if and only if its attributes stay apart and no value
    other than a style holds a named reference that `decode` does not read to its end. -/
theorem preserved_iff {s tag : Text} {l : List Attribute} {closing : Bool}
    (h : .startTag tag l closing ∈ tokens s) :
    Preserved tag l closing ↔ l.IsChain Attribute.Apart ∧
      ∀ a ∈ l, a.name ≠ "style" → ∀ v ∈ a.value, Unnamed v := by
  have hnamed : Lexer.Named tag l := named_of_mem_lexFrom (by nofun) h
  have hregular : (Token.startTag tag l closing).Regular := regular_of_mem_tokens h
  constructor
  · rintro ⟨m, htokens, hm⟩
    have hchain := isChain_apart_of_tokens hnamed hregular htokens (Attribute.shapes_of_survives hm)
    rw [tokens_rebuildTag hnamed hregular hchain] at htokens
    obtain rfl : l.map Attribute.stripped = m := (Token.startTag.inj (List.cons.inj htokens).1).2.1
    have hsurvive := List.forall₂_same.1 (List.forall₂_map_right_iff.1 hm)
    exact ⟨hchain, fun a ha => (hsurvive a ha).unnamed⟩
  · rintro ⟨hchain, hvalues⟩
    refine ⟨_, tokens_rebuildTag hnamed hregular hchain, List.forall₂_map_right_iff.2 ?_⟩
    exact List.forall₂_same.2 fun a ha => Attribute.survives_stripped (hvalues a ha)

theorem preserved_iff_odd :
    .startTag "a" [⟨"=x", none⟩, ⟨"q\"", some "'&#233;&LT`"⟩, ⟨"style", some "&copy;@import"⟩, ⟨"c", none⟩]
      true ∈ tokens "<A/=x q\"=\"'&#233;&LT`\" STYLE='&copy;@import' c/>" ∧
    Preserved "a"
      [⟨"=x", none⟩, ⟨"q\"", some "'&#233;&LT`"⟩, ⟨"style", some "&copy;@import"⟩, ⟨"c", none⟩] true := by
  have hmem : .startTag "a"
      [⟨"=x", none⟩, ⟨"q\"", some "'&#233;&LT`"⟩, ⟨"style", some "&copy;@import"⟩, ⟨"c", none⟩] true ∈
      tokens "<A/=x q\"=\"'&#233;&LT`\" STYLE='&copy;@import' c/>" := by decide +kernel
  refine ⟨hmem, (preserved_iff hmem).2 ⟨by decide, ?_⟩⟩
  have hread : respell "'&#233;&LT`" = escape (decode "'&#233;&LT`") := by decide +kernel
  intro a ha hname v hv
  simp only [List.mem_cons, List.not_mem_nil, or_false] at ha
  rcases ha with rfl | rfl | rfl | rfl
  · cases hv
  · obtain rfl := Option.some.inj hv
    exact respell_eq_escape_decode_iff.1 hread
  · exact absurd rfl hname
  · cases hv

/-- A copyright sign comes to be the letters of its name. -/
theorem not_preserved_copyright :
    .startTag "a" [⟨"style", some "x"⟩, ⟨"title", some "&copy;"⟩] false ∈
      tokens "<a style=\"x\" title=\"&copy;\">" ∧
    ¬ Preserved "a" [⟨"style", some "x"⟩, ⟨"title", some "&copy;"⟩] false := by
  have hmem : .startTag "a" [⟨"style", some "x"⟩, ⟨"title", some "&copy;"⟩] false ∈
      tokens "<a style=\"x\" title=\"&copy;\">" := by decide +kernel
  have htokens : tokens (rebuildTag "a" [⟨"style", some "x"⟩, ⟨"title", some "&copy;"⟩] false) =
      [.startTag "a" [⟨"style", some "x"⟩, ⟨"title", some "&amp;copy;"⟩] false] := by decide +kernel
  refine ⟨hmem, ?_⟩
  rintro ⟨m, hm, hsurvive⟩
  rw [htokens] at hm
  obtain rfl := (Token.startTag.inj (List.cons.inj hm).1).2.1
  obtain ⟨htitle, _⟩ := List.forall₂_cons.1 (List.forall₂_cons.1 hsurvive).2
  have htext := htitle.text (by decide) "&copy;" rfl "&amp;copy;" rfl
  exact absurd htext (by decide +kernel)

end Folio.Markup
