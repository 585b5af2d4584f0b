import Folio.Markup.Element
import Folio.Proofs.Ascii
import Folio.Proofs.Escape
import Folio.Proofs.Url
import Mathlib.Data.List.Chain

set_option autoImplicit false

/-!
# The tags of a text

Of the tokens of a text only the tags, comments and bogus parts are looked at here; how the text
between them is divided is left open. So each part of a text that a writer of markup puts down has a
rule of its own, whatever stands behind it: inert text has no tags, a start tag and an end tag are
read as themselves, and in a raw-text element everything is passed over up to the end tag.
-/
namespace Folio

theorem Text.prefix_of_prefix_append_cons {x : Char} {p s t : Text} (hx : x ∉ p)
    (h : p <+: s ++ x :: t) : p <+: s := by
  induction s generalizing p with
  | nil =>
    cases p with
    | nil => exact List.nil_prefix
    | cons a p =>
      obtain ⟨rfl, _⟩ := List.cons_prefix_cons.1 h
      exact absurd List.mem_cons_self hx
  | cons c s ih =>
    cases p with
    | nil => exact List.nil_prefix
    | cons a p =>
      obtain ⟨ha, hrest⟩ := List.cons_prefix_cons.1 h
      have hp : x ∉ p := fun hm => hx (List.mem_cons_of_mem a hm)
      exact List.cons_prefix_cons.2 ⟨ha, ih hp hrest⟩

namespace Markup

def Token.isTag : Token → Bool
  | .text _ => false
  | .rawText _ => false
  | _ => true

def tagsFrom (raw : Option Text) (s : Text) : List Token :=
  ((lexFrom raw s).map Lexeme.token).filter Token.isTag

def tags (s : Text) : List Token := tagsFrom none s

theorem mem_tags {s : Text} {t : Token} (h : t ∈ tokens s) (ht : t.isTag = true) : t ∈ tags s :=
  List.mem_filter.2 ⟨h, ht⟩

@[simp] theorem tagsFrom_nil (raw : Option Text) : tagsFrom raw [] = [] := by
  simp [tagsFrom, lexFrom]

@[simp] theorem tags_nil : tags [] = [] := tagsFrom_nil none

theorem tokensFrom_cons (raw : Option Text) (c : Char) (s : Text) :
    (lexFrom raw (c :: s)).map Lexeme.token = (Lexer.nextIn raw c s).1 ::
      (lexFrom (Lexer.rawAfter (Lexer.nextIn raw c s).1) (Lexer.nextIn raw c s).2).map Lexeme.token := by
  rw [lexFrom, List.map_cons]

theorem tagsFrom_cons (raw : Option Text) (c : Char) (s : Text) :
    tagsFrom raw (c :: s) = [(Lexer.nextIn raw c s).1].filter Token.isTag ++
      tagsFrom (Lexer.rawAfter (Lexer.nextIn raw c s).1) (Lexer.nextIn raw c s).2 := by
  rw [tagsFrom, lexFrom, List.map_cons, ← List.singleton_append, List.filter_append]
  rfl

theorem tags_plain (s : Text) : tags (Lexer.plain s).2 = tags s := by
  cases s with
  | nil => rfl
  | cons c s =>
    by_cases h : (decide (c = '<') && Lexer.opensMarkup s) = true
    · rw [Lexer.plain, if_pos h]
    · rw [Lexer.plain, if_neg h, tags, tags, tagsFrom_cons, Lexer.nextIn, Lexer.next, if_neg h]
      rfl

theorem tags_cons {c : Char} {s : Text} (h : ¬ (c = '<' ∧ Lexer.opensMarkup s = true)) :
    tags (c :: s) = tags s := by
  have hb : ¬ (decide (c = '<') && Lexer.opensMarkup s) = true := by simpa using h
  rw [← tags_plain s, tags, tagsFrom_cons, Lexer.nextIn, Lexer.next, if_neg hb]
  rfl

theorem tags_inert_append {w : Text} (h : '<' ∉ w) (r : Text) : tags (w ++ r) = tags r := by
  induction w with
  | nil => rfl
  | cons c w ih =>
    have hc : ¬ c = '<' := fun e => h (e ▸ List.mem_cons_self)
    rw [List.cons_append, tags_cons fun hm => hc hm.1]
    exact ih fun hm => h (List.mem_cons_of_mem c hm)

theorem tags_inert {w : Text} (h : '<' ∉ w) : tags w = [] := by
  simpa using tags_inert_append h []

namespace Lexer

/-- A scan that goes on until a given thing stands ahead. -/
structure Scans (stop : Text → Bool) (scan : Text → Text × Text) : Prop where
  nil : scan [] = ([], [])
  cons : ∀ c s, scan (c :: s) = if stop (c :: s) then ([], c :: s) else (c :: (scan s).1, (scan s).2)

theorem scans_rawBody (name : Text) : Scans (closes name) (rawBody name) := ⟨rfl, fun _ _ => rfl⟩

namespace Scans

variable {stop : Text → Bool} {scan : Text → Text × Text} (hscan : Scans stop scan)
include hscan

theorem eq_iff {w r : Text} : scan (w ++ r) = (w, r) ↔
    (∀ u, u ≠ [] → u <:+ w → stop (u ++ r) = false) ∧ (r = [] ∨ stop r = true) := by
  induction w with
  | nil =>
    have hnone : ∀ u : Text, u ≠ [] → u <:+ [] → stop (u ++ r) = false :=
      fun u hu hin => absurd (List.suffix_nil.1 hin) hu
    cases r with
    | nil => simpa [hscan.nil] using hnone
    | cons c r =>
      by_cases h : stop (c :: r) = true
      · simpa [hscan.cons, h] using hnone
      · simp [hscan.cons, h]
  | cons c w ih =>
    have hstep : scan (c :: (w ++ r)) = (c :: w, r) ↔
        stop (c :: (w ++ r)) = false ∧ scan (w ++ r) = (w, r) := by
      rw [hscan.cons]
      by_cases h : stop (c :: (w ++ r)) = true
      · simp [h]
      · simp [h, Prod.ext_iff]
    rw [List.cons_append, hstep, ih, ← and_assoc]
    refine and_congr_left' ⟨?_, ?_⟩
    · rintro ⟨hfirst, hrest⟩ u hu hin
      rcases List.suffix_cons_iff.1 hin with rfl | hin
      · exact hfirst
      · exact hrest u hu hin
    · intro h
      exact ⟨h _ (List.cons_ne_nil c w) (List.suffix_refl _),
        fun u hu hin => h u hu (hin.trans (List.suffix_cons c w))⟩

end Scans

end Lexer

theorem Lexer.nextIn_rawBody {name : Text} (hn : name ≠ "plaintext") {c b : Char} {s body r : Text}
    (h : rawBody name (c :: s) = (b :: body, r)) :
    nextIn (some name) c s = (.rawText (b :: body), r) := by
  have hraw : rawText name (c :: s) = (b :: body, r) := by rw [rawText, if_neg hn, h]
  simp only [nextIn, hraw]

theorem Lexer.nextIn_of_closes {name : Text} (hn : name ≠ "plaintext") {c : Char} {s : Text}
    (h : closes name (c :: s) = true) : nextIn (some name) c s = next c s := by
  have hraw : rawText name (c :: s) = ([], c :: s) := by rw [rawText, if_neg hn, rawBody, if_pos h]
  simp only [nextIn, hraw]

namespace Lexer

theorem exists_of_closes {name s : Text} (h : closes name s = true) :
    ∃ q u : Text, Text.lower q = name ∧ s = '<' :: '/' :: (q ++ u) ∧
      ∀ c ∈ u.head?, isNameChar c = false := by
  unfold closes at h
  split at h
  · simp at h
  · rename_i found
    obtain ⟨t, ht, hq⟩ := Option.bind_eq_some_iff.1 found
    obtain ⟨q, rfl, rfl⟩ := Text.dropStartUnder?_eq_some hq
    exact ⟨q, [], rfl, Text.dropStart?_eq_some ht, by simp⟩
  · rename_i c u found
    obtain ⟨t, ht, hq⟩ := Option.bind_eq_some_iff.1 found
    obtain ⟨q, rfl, rfl⟩ := Text.dropStartUnder?_eq_some hq
    refine ⟨q, c :: u, rfl, Text.dropStart?_eq_some ht, ?_⟩
    simp only [Bool.or_eq_true, decide_eq_true_eq] at h
    rcases h with (h | rfl) | rfl <;> simp [isNameChar, *]

theorem rawBody_of_unclosed {name w o : Text} (hname : '<'.toLower ∉ name)
    (hw : ∀ q, Text.lower q = name → ¬ '<' :: '/' :: q <:+: w)
    (ho : o = [] ∨ closes name o = true) : rawBody name (w ++ o) = (w, o) := by
  refine (scans_rawBody name).eq_iff.2 ⟨fun u hu hin => Bool.eq_false_iff.2 fun hclose => ?_, ho⟩
  obtain ⟨q, v, hq, hstart, _⟩ := exists_of_closes hclose
  have hprefix : '<' :: '/' :: q <+: u ++ o := ⟨v, hstart.symm⟩
  refine hw q hq (List.IsPrefix.isInfix ?_ |>.trans hin.isInfix)
  rcases o with _ | ⟨d, o⟩
  · rwa [List.append_nil] at hprefix
  · -- an end tag would have to reach into the next one
    obtain ⟨q', u', _, hd, _⟩ := exists_of_closes (ho.resolve_left (List.cons_ne_nil d o))
    obtain ⟨rfl, _⟩ := List.cons.inj hd
    obtain ⟨c, u, rfl⟩ := List.exists_cons_of_ne_nil hu
    obtain ⟨rfl, htail⟩ := List.cons_prefix_cons.1 hprefix
    have hopen : '<' ∉ '/' :: q := by
      intro hm
      have hlow : '<'.toLower ∈ Text.lower q :=
        List.mem_map_of_mem ((List.mem_cons.1 hm).resolve_left (by decide))
      exact hname (hq ▸ hlow)
    exact List.cons_prefix_cons.2 ⟨rfl, Text.prefix_of_prefix_append_cons hopen htail⟩

end Lexer

theorem tokensFrom_rawBody {name w o : Text} (hn : name ≠ "plaintext")
    (h : Lexer.rawBody name (w ++ o) = (w, o)) :
    (lexFrom (some name) (w ++ o)).map Lexeme.token =
      (if w.isEmpty then [] else [.rawText w]) ++ tokens o := by
  cases w with
  | nil =>
    cases o with
    | nil => simp [tokens, lex, lexFrom]
    | cons c o =>
      have hclose : Lexer.closes name (c :: o) = true := by
        by_contra hopen
        rw [List.nil_append, Lexer.rawBody, if_neg hopen] at h
        cases h
      rw [List.nil_append, tokensFrom_cons, Lexer.nextIn_of_closes hn hclose, tokens, lex,
        tokensFrom_cons]
      rfl
  | cons c w =>
    have hnext : Lexer.nextIn (some name) c (w ++ o) = (.rawText (c :: w), o) :=
      Lexer.nextIn_rawBody hn h
    rw [List.cons_append, tokensFrom_cons, hnext]
    rfl

theorem Lexer.exists_of_rawAfter {t : Token} {name : Text} (h : name ∈ rawAfter t) :
    name ∈ rawTextElements ∧ ∃ l, t = .startTag name l false := by
  unfold rawAfter at h
  split at h
  · split at h
    · rename_i hraw
      obtain rfl := Option.some.inj h
      exact ⟨List.contains_iff_mem.1 hraw, _, rfl⟩
    · cases h
  · cases h

theorem tagsFrom_some {name : Text} (hn : name ≠ "plaintext") (s : Text) :
    tagsFrom (some name) s = tags (Lexer.rawBody name s).2 := by
  cases s with
  | nil => rw [tagsFrom_nil, Lexer.rawBody, tags_nil]
  | cons c s =>
    have hs := Lexer.rawBody_append name (c :: s)
    rw [tagsFrom_cons, Lexer.nextIn, Lexer.rawText, if_neg hn]
    generalize Lexer.rawBody name (c :: s) = found at hs
    obtain ⟨body, rest⟩ := found
    cases body with
    | nil =>
      -- an element without raw text is left at once
      obtain rfl : rest = c :: s := hs
      exact (tagsFrom_cons none c s).symm
    | cons b body => rfl

theorem tagsFrom_cons_of_not_closes {name : Text} (hn : name ≠ "plaintext") {c : Char} {s : Text}
    (h : Lexer.closes name (c :: s) = false) :
    tagsFrom (some name) (c :: s) = tagsFrom (some name) s := by
  rw [tagsFrom_some hn, tagsFrom_some hn, Lexer.rawBody, if_neg (by simp [h])]

theorem tagsFrom_cons_of_closes {name : Text} (hn : name ≠ "plaintext") {c : Char} {s : Text}
    (h : Lexer.closes name (c :: s) = true) :
    tagsFrom (some name) (c :: s) = tags (c :: s) := by
  rw [tagsFrom_some hn, Lexer.rawBody, if_pos h]

theorem closes_cons_eq_false {name : Text} {c : Char} {s : Text} (h : c ≠ '<' ∨ s.head? ≠ some '/') :
    Lexer.closes name (c :: s) = false := by
  have hd : Text.dropStart? "</" (c :: s) = none := by
    change (if '<' = c then Text.dropStart? ['/'] s else none) = none
    split
    · rename_i e
      cases s with
      | nil => rfl
      | cons d s =>
        change (if '/' = d then some s else none) = none
        rw [if_neg]
        rintro rfl
        rcases h with h | h
        · exact h e.symm
        · exact h rfl
    · rfl
  rw [Lexer.closes, hd]
  rfl

theorem tagsFrom_inert_append {name : Text} (hn : name ≠ "plaintext") {w : Text} (h : '<' ∉ w)
    (r : Text) : tagsFrom (some name) (w ++ r) = tagsFrom (some name) r := by
  induction w with
  | nil => rfl
  | cons c w ih =>
    have hc : c ≠ '<' := fun e => h (e ▸ List.mem_cons_self)
    rw [List.cons_append, tagsFrom_cons_of_not_closes hn (closes_cons_eq_false (.inl hc))]
    exact ih fun hm => h (List.mem_cons_of_mem c hm)

def Attribute.spell (a : Attribute) : Text :=
  ' ' :: a.name ++
    match a.value with
    | none => []
    | some v => "=\"" ++ v ++ "\""

def Attribute.decoded (a : Attribute) : Text := decode (a.value.getD [])

def Attribute.lowered (a : Attribute) : Attribute := ⟨Text.lower a.name, a.value⟩

def Lexer.IsReadName (name : Text) : Prop :=
  ∃ c rest, name = c :: rest ∧ isGap c = false ∧ c ≠ '>' ∧ ∀ d ∈ rest, isAttributeNameChar d = true

structure Attribute.Readable (a : Attribute) : Prop where
  name : Lexer.IsReadName a.name
  value : ∀ v ∈ a.value, '"' ∉ v

/-- The second attribute does not give the first one a value. -/
def Attribute.Apart (a b : Attribute) : Prop := a.value = none → b.name.head? ≠ some '='

structure Attribute.Legible (a : Attribute) : Prop where
  name : isAttributeName a.name = true
  value : ∀ v ∈ a.value, Inert v

theorem Attribute.Legible.nameChar {a : Attribute} (h : a.Legible) :
    ∀ c ∈ a.name, Lexer.isAttributeNameChar c = true :=
  fun c hc => (isAttributeChar_spec ((isAttributeName_iff.1 h.name).2 c hc)).1

theorem not_mem_open_spell {a : Attribute} (h : a.Legible) : '<' ∉ a.spell := by
  have hname : '<' ∉ a.name :=
    fun hm => (isAttributeChar_spec ((isAttributeName_iff.1 h.name).2 _ hm)).2 rfl
  obtain ⟨name, value⟩ := a
  cases value with
  | none => simpa [Attribute.spell] using hname
  | some v =>
    have hv := (h.value v rfl).not_mem_open
    simpa [Attribute.spell, hv] using hname

namespace Lexer

theorem isGap_of_nameChar {c : Char} (h : isAttributeNameChar c = true) : isGap c = false := by
  simp only [isAttributeNameChar, isNameChar, Bool.and_eq_true, Bool.not_eq_true',
    decide_eq_true_eq] at h
  simp [isGap, h]

theorem nameChar_of_isGap {c : Char} (h : isGap c = true) : isAttributeNameChar c = false := by
  refine Bool.eq_false_iff.2 fun hc => ?_
  rw [isGap_of_nameChar hc] at h
  exact Bool.false_ne_true h

theorem isMarkupSpace_of_not_gap {c : Char} (h : isGap c = false) : Text.isMarkupSpace c = false :=
  (Bool.or_eq_false_iff.1 h).1

theorem attributes?_close {gap : Text} (hgap : ∀ c ∈ gap, isGap c = true) (r : Text) :
    attributes? (gap ++ '>' :: r) = some ([], decide (gap.getLast? = some '/'), r) := by
  have hstop : ∀ c ∈ ('>' :: r).head?, isGap c = false := by simp; decide
  obtain ⟨htake, hdrop⟩ := Text.span_append hgap hstop
  rw [attributes?]
  split
  · rename_i h
    simp [hdrop] at h
  · rename_i c t h
    obtain ⟨rfl, rfl⟩ : '>' = c ∧ r = t := by simpa [hdrop] using h
    rw [if_pos rfl, htake]

theorem attributes?_name {gap : Text} (hgap : ∀ d ∈ gap, isGap d = true) {c : Char}
    (hc : isGap c = false) (hclose : c ≠ '>') {name t : Text}
    (hname : ∀ d ∈ name, isAttributeNameChar d = true)
    (ht : ∀ d ∈ t.head?, isAttributeNameChar d = false) :
    attributes? (gap ++ c :: (name ++ t)) = (value? t).bind fun (v, r) =>
      (attributes? r).map fun (rest, closing, u) =>
        (⟨Text.lower (c :: name), v⟩ :: rest, closing, u) := by
  have hstop : ∀ d ∈ (c :: (name ++ t)).head?, isGap d = false := by simpa using hc
  obtain ⟨_, hs⟩ := Text.span_append hgap hstop
  obtain ⟨htake, hdrop⟩ := Text.span_append hname ht
  rw [attributes?]
  split
  · rename_i h
    simp [hs] at h
  · rename_i d u h
    obtain ⟨rfl, rfl⟩ : c = d ∧ name ++ t = u := by simpa [hs] using h
    rw [if_neg hclose]
    split
    · rename_i e
      rw [hdrop] at e
      rw [e]
      rfl
    · rename_i w q e
      rw [hdrop] at e
      rw [e, htake]
      rfl

theorem attributes?_cons {gap : Text} (hgap : ∀ d ∈ gap, isGap d = true) {c : Char}
    (hc : isGap c = false) (hclose : c ≠ '>') {name t r : Text}
    (hname : ∀ d ∈ name, isAttributeNameChar d = true)
    (ht : ∀ d ∈ t.head?, isAttributeNameChar d = false) {v : Option Text}
    (hv : value? t = some (v, r)) :
    attributes? (gap ++ c :: (name ++ t)) =
      (attributes? r).map fun (rest, closing, u) =>
        (⟨Text.lower (c :: name), v⟩ :: rest, closing, u) := by
  rw [attributes?_name hgap hc hclose hname ht, hv, Option.bind_some]

theorem cut?_char {d : Char} {v : Text} (h : d ∉ v) (r : Text) :
    Text.cut? [d] (v ++ d :: r) = some (v, r) :=
  Text.cut?_append h r

theorem value?_quoted {quote : Char} (hq : quote = '"' ∨ quote = '\'') {a b : Text}
    (ha : ∀ c ∈ a, Text.isMarkupSpace c = true) (hb : ∀ c ∈ b, Text.isMarkupSpace c = true)
    (u : Text) : value? (a ++ '=' :: (b ++ quote :: u)) = quoted? quote u := by
  have hequals := (Text.span_append ha (t := '=' :: (b ++ quote :: u)) (by simp; decide)).2
  have hspace : Text.isMarkupSpace quote = false := by rcases hq with rfl | rfl <;> decide
  have hvalue := (Text.span_append hb (t := quote :: u) (by simpa using hspace)).2
  rcases hq with rfl | rfl <;> simp only [value?, hequals, hvalue]

theorem quoted?_append {quote : Char} {v : Text} (h : quote ∉ v) (r : Text) :
    quoted? quote (v ++ quote :: r) = some (some v, r) := by
  rw [quoted?, cut?_char h]
  rfl

theorem value?_bare {t : Text} (h : (t.dropWhile Text.isMarkupSpace).head? ≠ some '=') :
    value? t = some (none, t) := by
  unfold value?
  split
  · rename_i e
    exact absurd (congrArg List.head? e) h
  · rfl

theorem head_dropWhile_gap {gap : Text} (hgap : ∀ c ∈ gap, isGap c = true) (r : Text) :
    ((gap ++ '>' :: r).dropWhile Text.isMarkupSpace).head? ≠ some '=' := by
  induction gap with
  | nil => simp [show Text.isMarkupSpace '>' = false by decide]
  | cons c gap ih =>
    obtain ⟨hc, hrest⟩ := List.forall_mem_cons.1 hgap
    by_cases hspace : Text.isMarkupSpace c = true
    · rw [List.cons_append, List.dropWhile_cons_of_pos hspace]
      exact ih hrest
    · rw [List.cons_append, List.dropWhile_cons_of_neg hspace]
      rintro e
      obtain rfl := Option.some.inj e
      exact absurd hc (by decide)

/-- What attributes are written in a tag are read back, if none gives the one before it a value. -/
theorem attributes?_written {l : List Attribute} (hl : ∀ a ∈ l, a.Readable)
    (hapart : l.IsChain Attribute.Apart) {gap : Text} (hgap : ∀ c ∈ gap, isGap c = true) (r : Text) :
    attributes? (l.flatMap Attribute.spell ++ (gap ++ '>' :: r)) =
      some (l.map Attribute.lowered, decide (gap.getLast? = some '/'), r) := by
  have hspace : ∀ c ∈ [' '], isGap c = true := by decide
  induction l with
  | nil => exact attributes?_close hgap r
  | cons a l ih =>
    obtain ⟨ha, hrest⟩ := List.forall_mem_cons.1 hl
    have hread := ih hrest hapart.tail
    obtain ⟨name, value⟩ := a
    obtain ⟨c, name, rfl, hc, hclose, hname⟩ := ha.name
    rw [List.flatMap_cons, List.append_assoc]
    generalize ht : l.flatMap Attribute.spell ++ (gap ++ '>' :: r) = t at hread ⊢
    cases value with
    | none =>
      have hhead : ∀ d ∈ t.head?, isAttributeNameChar d = false := by
        rw [← ht]
        cases l with
        | nil =>
          cases gap with
          | nil => simp; decide
          | cons d gap => simpa using nameChar_of_isGap (hgap d List.mem_cons_self)
        | cons b l => simp [Attribute.spell]; decide
      have hbare : value? t = some (none, t) := by
        refine value?_bare ?_
        rw [← ht]
        cases l with
        | nil => exact head_dropWhile_gap hgap r
        | cons b l =>
          obtain ⟨d, rest, hb, hd, _⟩ := (hrest b List.mem_cons_self).name
          have hne : d ≠ '=' := fun e =>
            (List.isChain_cons_cons.1 hapart).1 rfl (by rw [hb, e]; rfl)
          simp [Attribute.spell, hb, show Text.isMarkupSpace ' ' = true by decide,
            isMarkupSpace_of_not_gap hd, hne]
      have h := attributes?_cons hspace hc hclose hname hhead hbare
      rw [hread] at h
      simpa [Attribute.spell, Attribute.lowered] using h
    | some v =>
      have hvalue : value? ('=' :: '"' :: (v ++ '"' :: t)) = some (some v, t) :=
        (value?_quoted (.inl rfl) (List.forall_mem_nil _) (List.forall_mem_nil _) _).trans
          (quoted?_append (ha.value v rfl) t)
      have h := attributes?_cons hspace hc hclose hname (by simp; decide) hvalue
      rw [hread] at h
      simpa [Attribute.spell, Attribute.lowered] using h

end Lexer

theorem Attribute.Legible.readable {a : Attribute} (h : a.Legible) : a.Readable := by
  obtain ⟨c, name, hn⟩ := List.exists_cons_of_ne_nil (isAttributeName_iff.1 h.name).1
  have hchar : ∀ d ∈ c :: name, Lexer.isAttributeNameChar d = true := hn ▸ h.nameChar
  obtain ⟨hc, hname⟩ := List.forall_mem_cons.1 hchar
  refine ⟨⟨c, name, hn, Lexer.isGap_of_nameChar hc, ?_, hname⟩, fun v hv => (h.value v hv).not_mem_quote⟩
  rintro rfl
  exact absurd hc (by decide)

theorem isChain_apart_of_legible {l : List Attribute} (hl : ∀ a ∈ l, a.Legible) :
    l.IsChain Attribute.Apart := by
  refine (List.pairwise_of_forall_mem_list fun a _ b hb => ?_).isChain
  intro _ e
  exact absurd ((hl b hb).nameChar _ (List.mem_of_mem_head? e)) (by decide)

theorem Lexer.attributes?_spell {l : List Attribute} (hl : ∀ a ∈ l, a.Legible) (r : Text) :
    attributes? (l.flatMap Attribute.spell ++ '>' :: r) =
      some (l.map Attribute.lowered, false, r) :=
  attributes?_written (fun a ha => (hl a ha).readable) (isChain_apart_of_legible hl)
    (List.forall_mem_nil _) r

def openingTag (tag : Text) (l : List Attribute) : Text :=
  '<' :: tag ++ l.flatMap Attribute.spell ++ ">"

/-- The raw-text element that a start tag without a closing slash opens. -/
def rawOf (tag : Text) : Option Text := if rawTextElements.contains tag then some tag else none

theorem Lexer.markup_of_letter {s : Text} (h : startsWithLetter s = true) :
    opensMarkup s = true ∧ markup s = startTag s := by
  cases s with
  | nil => exact Bool.noConfusion h
  | cons c s =>
    have hne {d : Char} (hd : d.isAlpha = false) : c ≠ d := by
      rintro rfl
      exact Bool.false_ne_true (hd.symm.trans h)
    have h1 : c ≠ '!' := hne (by decide)
    have h2 : c ≠ '?' := hne (by decide)
    have h3 : c ≠ '/' := hne (by decide)
    have hc : c.isAlpha = true := h
    simp [opensMarkup, markup, h1, h2, h3, hc]

theorem startsWithLetter_of_isTagName {tag : Text} (h : isTagName tag = true) (r : Text) :
    Lexer.startsWithLetter (tag ++ r) = true := by
  obtain ⟨c, s, rfl, hc, _⟩ := isTagName_iff.1 h
  exact Text.isAlpha_of_isLower hc

theorem opensMarkup_of_isTagName {tag : Text} (h : isTagName tag = true) (r : Text) :
    Lexer.opensMarkup (tag ++ r) = true :=
  (Lexer.markup_of_letter (startsWithLetter_of_isTagName h r)).1

theorem takeWhile_tagName {tag r : Text} (h : isTagName tag = true)
    (hr : ∀ c ∈ r.head?, Lexer.isNameChar c = false) :
    (tag ++ r).takeWhile Lexer.isNameChar = tag ∧ (tag ++ r).dropWhile Lexer.isNameChar = r :=
  Text.span_append (fun c hc => (isTagChar_spec (isTagChar_of_isTagName h c hc)).1) hr

theorem nextIn_spelled {tag : Text} (hletter : ∀ r, Lexer.startsWithLetter (tag ++ r) = true)
    (htag : ∀ c ∈ tag, Lexer.isNameChar c = true) (l : List Attribute) {gap : Text}
    (hgap : ∀ c ∈ gap, Lexer.isGap c = true) (r : Text) :
    Lexer.nextIn none '<' (tag ++ (l.flatMap Attribute.spell ++ (gap ++ '>' :: r))) =
      match Lexer.attributes? (l.flatMap Attribute.spell ++ (gap ++ '>' :: r)) with
      | none => (.bogus, [])
      | some (m, closing, u) => (.startTag (Text.lower tag) (Lexer.firstOfEach m) closing, u) := by
  have hstop {c : Char} (hc : Lexer.isGap c = true) : Lexer.isNameChar c = false := by
    rcases Bool.or_eq_true_iff.1 hc with h | h
    · simp [Lexer.isNameChar, h]
    · simp [Lexer.isNameChar, of_decide_eq_true h]
  have hend : ∀ c ∈ (l.flatMap Attribute.spell ++ (gap ++ '>' :: r)).head?,
      Lexer.isNameChar c = false := by
    cases l with
    | nil =>
      cases gap with
      | nil => simp; decide
      | cons c gap => simpa using hstop (hgap c List.mem_cons_self)
    | cons a l => simp [Attribute.spell]; decide
  obtain ⟨htake, hdrop⟩ := Text.span_append htag hend
  obtain ⟨hopens, hmarkup⟩ := Lexer.markup_of_letter (hletter _)
  rewrite [Lexer.nextIn, Lexer.next, hopens, if_pos (by decide), hmarkup, Lexer.startTag, hdrop, htake]
  rfl

theorem nextIn_written {tag : Text} (hletter : ∀ r, Lexer.startsWithLetter (tag ++ r) = true)
    (htag : ∀ c ∈ tag, Lexer.isNameChar c = true) {l : List Attribute} (hl : ∀ a ∈ l, a.Readable)
    (hapart : l.IsChain Attribute.Apart) {gap : Text} (hgap : ∀ c ∈ gap, Lexer.isGap c = true)
    (r : Text) :
    Lexer.nextIn none '<' (tag ++ (l.flatMap Attribute.spell ++ (gap ++ '>' :: r))) =
      (.startTag (Text.lower tag) (Lexer.firstOfEach (l.map Attribute.lowered))
        (decide (gap.getLast? = some '/')), r) := by
  rw [nextIn_spelled hletter htag l hgap, Lexer.attributes?_written hl hapart hgap]

theorem nextIn_openingTag {tag : Text} (h : isTagName tag = true) {l : List Attribute}
    (hl : ∀ a ∈ l, a.Legible) (r : Text) :
    Lexer.nextIn none '<' (tag ++ (l.flatMap Attribute.spell ++ '>' :: r)) =
      (.startTag tag (Lexer.firstOfEach (l.map Attribute.lowered)) false, r) := by
  have hread := nextIn_written (startsWithLetter_of_isTagName h)
    (fun c hc => (isTagChar_spec (isTagChar_of_isTagName h c hc)).1) (fun a ha => (hl a ha).readable)
    (isChain_apart_of_legible hl) (List.forall_mem_nil _) r
  rwa [lower_of_isTagName h] at hread

theorem openingTag_append (tag : Text) (l : List Attribute) (r : Text) :
    openingTag tag l ++ r = '<' :: (tag ++ (l.flatMap Attribute.spell ++ '>' :: r)) := by
  simp [openingTag]

theorem tags_openingTag {tag : Text} (h : isTagName tag = true) {l : List Attribute}
    (hl : ∀ a ∈ l, a.Legible) (r : Text) :
    tags (openingTag tag l ++ r) =
      .startTag tag (Lexer.firstOfEach (l.map Attribute.lowered)) false :: tagsFrom (rawOf tag) r := by
  rw [openingTag_append, tags, tagsFrom_cons, nextIn_openingTag h hl]
  rfl

theorem endTag_append (tag r : Text) :
    Html.endTag tag ++ r = '<' :: '/' :: (tag ++ '>' :: r) := by simp [Html.endTag]

theorem nextIn_endTag {tag : Text} (h : isTagName tag = true) (r : Text) :
    Lexer.nextIn none '<' ('/' :: (tag ++ '>' :: r)) = (.endTag tag, r) := by
  have hr : ∀ c ∈ ('>' :: r).head?, Lexer.isNameChar c = false := by simp; decide
  obtain ⟨htake, hdrop⟩ := takeWhile_tagName h hr
  have hletter := startsWithLetter_of_isTagName h ('>' :: r)
  have hopens : Lexer.opensMarkup ('/' :: (tag ++ '>' :: r)) = true := by
    simp [Lexer.opensMarkup, hletter]
  have hcut : Text.cut? ">" ('>' :: r) = some ([], r) :=
    Lexer.cut?_char (d := '>') (v := []) (by simp) r
  rw [Lexer.nextIn, Lexer.next, hopens, if_pos (by decide), Lexer.markup, if_pos hletter,
    Lexer.endTag, hdrop, htake, lower_of_isTagName h, hcut]

theorem tags_endTag {tag : Text} (h : isTagName tag = true) (r : Text) :
    tags (Html.endTag tag ++ r) = .endTag tag :: tags r := by
  rw [endTag_append, tags, tagsFrom_cons, nextIn_endTag h]
  rfl

theorem closes_tagChars {name tag : Text} (hn : ∀ c ∈ name, isTagChar c = true)
    (h : ∀ c ∈ tag, isTagChar c = true) (r : Text) :
    Lexer.closes name (("</" : Text) ++ (tag ++ '>' :: r)) = decide (name = tag) := by
  rw [Lexer.closes, Text.dropStart?_append, Option.bind_some]
  induction name generalizing tag with
  | nil =>
    cases tag with
    | nil => rfl
    | cons c tag =>
      have hc := (isTagChar_spec (h c List.mem_cons_self)).1
      simp only [Lexer.isNameChar, Bool.and_eq_true, Bool.not_eq_true', decide_eq_true_eq] at hc
      simp [Text.dropStartUnder?, hc]
  | cons a name ih =>
    cases tag with
    | nil =>
      have ha := (isTagChar_spec (hn a List.mem_cons_self)).2.2.2
      simp [Text.dropStartUnder?, ha]
    | cons c tag =>
      have hc := (isTagChar_spec (h c List.mem_cons_self)).2.1
      have hrest := ih (fun d hd => hn d (List.mem_cons_of_mem a hd))
        (fun d hd => h d (List.mem_cons_of_mem c hd))
      by_cases e : a = c
      · simpa [Text.dropStartUnder?, hc, e] using hrest
      · simp [Text.dropStartUnder?, hc, e]

theorem closes_endTag {name tag : Text} (hn : isTagName name = true) (h : isTagName tag = true)
    (r : Text) : Lexer.closes name (Html.endTag tag ++ r) = decide (name = tag) := by
  rw [endTag_append]
  exact closes_tagChars (isTagChar_of_isTagName hn) (isTagChar_of_isTagName h) r

theorem tagsFrom_endTag_self {name : Text} (hp : name ≠ "plaintext") (hn : isTagName name = true)
    (r : Text) : tagsFrom (some name) (Html.endTag name ++ r) = .endTag name :: tags r := by
  have hclose := closes_endTag hn hn r
  rw [decide_eq_true rfl, endTag_append] at hclose
  rw [← tags_endTag hn, endTag_append]
  exact tagsFrom_cons_of_closes hp hclose

theorem tagsFrom_endTag_of_ne {name tag : Text} (hp : name ≠ "plaintext")
    (hn : isTagName name = true) (h : isTagName tag = true) (hne : name ≠ tag) (r : Text) :
    tagsFrom (some name) (Html.endTag tag ++ r) = tagsFrom (some name) r := by
  have hs : Html.endTag tag ++ r = '<' :: ('/' :: (tag ++ ['>']) ++ r) := by simp [endTag_append]
  have hclose : Lexer.closes name ('<' :: ('/' :: (tag ++ ['>']) ++ r)) = false := by
    rw [← hs, closes_endTag hn h, decide_eq_false hne]
  have hopen : '<' ∉ '/' :: (tag ++ ['>']) := by
    simpa using not_mem_open_of_isTagName h
  rw [hs, tagsFrom_cons_of_not_closes hp hclose, tagsFrom_inert_append hp hopen]

theorem tagsFrom_openingTag {name tag : Text} (hp : name ≠ "plaintext") (h : isTagName tag = true)
    {l : List Attribute} (hl : ∀ a ∈ l, a.Legible) (r : Text) :
    tagsFrom (some name) (openingTag tag l ++ r) = tagsFrom (some name) r := by
  have hs : openingTag tag l ++ r = '<' :: (tag ++ (l.flatMap Attribute.spell ++ ['>']) ++ r) := by
    simp [openingTag]
  have hslash : (tag ++ (l.flatMap Attribute.spell ++ ['>']) ++ r).head? ≠ some '/' := by
    obtain ⟨c, s, rfl, hc, _⟩ := isTagName_iff.1 h
    intro e
    obtain rfl : c = '/' := by simpa using e
    exact absurd hc (by decide)
  have hspell : '<' ∉ l.flatMap Attribute.spell := by
    intro hm
    obtain ⟨a, ha, hm⟩ := List.mem_flatMap.1 hm
    exact not_mem_open_spell (hl a ha) hm
  have hopen : '<' ∉ tag ++ (l.flatMap Attribute.spell ++ ['>']) := by
    simpa [hspell] using not_mem_open_of_isTagName h
  rw [hs, tagsFrom_cons_of_not_closes hp (closes_cons_eq_false (.inr hslash)),
    tagsFrom_inert_append hp hopen]

/-- A text whose tags are the same whatever stands behind it, and which leaves what stands behind it
    as it is. -/
def SelfContained (s : Text) : Prop := ∀ r, tags (s ++ r) = tags s ++ tags r

theorem selfContained_nil : SelfContained [] := by
  intro r
  simp

theorem selfContained_append {s t : Text} (hs : SelfContained s) (ht : SelfContained t) :
    SelfContained (s ++ t) := by
  intro r
  rw [List.append_assoc, hs, ht, hs, List.append_assoc]

def Token.Regular : Token → Prop
  | .startTag _ l _ => (∀ a ∈ l, Text.lower a.name = a.name) ∧ (l.map Attribute.name).Nodup
  | _ => True

namespace Lexer

theorem lower_of_attributes? {s r : Text} {l : List Attribute} {closing : Bool}
    (h : attributes? s = some (l, closing, r)) : ∀ a ∈ l, Text.lower a.name = a.name := by
  fun_induction attributes? s generalizing l closing r with
  | case1 => simp at h
  | case2 =>
    obtain ⟨rfl, _⟩ : [] = l ∧ _ := by simpa using h
    simp
  | case3 => simp at h
  | case4 s c t _ _ v u _ ih =>
    obtain ⟨⟨rest, closing', r'⟩, hrest, e⟩ := Option.map_eq_some_iff.1 h
    obtain ⟨rfl, _⟩ :
        ⟨Text.lower (c :: t.takeWhile isAttributeNameChar), v⟩ :: rest = l ∧ _ := by simpa using e
    intro a ha
    rcases List.mem_cons.1 ha with rfl | ha
    · exact Text.lower_lower _
    · exact ih hrest a ha

theorem firstOfEach_subset (l : List Attribute) : ∀ a ∈ firstOfEach l, a ∈ l := by
  induction l with
  | nil => simp [firstOfEach]
  | cons b l ih =>
    intro a ha
    rcases List.mem_cons.1 ha with rfl | ha
    · exact List.mem_cons_self
    · exact List.mem_cons_of_mem b (ih a (List.mem_filter.1 ha).1)

theorem nodup_firstOfEach (l : List Attribute) : ((firstOfEach l).map Attribute.name).Nodup := by
  induction l with
  | nil => exact List.nodup_nil
  | cons b l ih =>
    rw [firstOfEach, List.map_cons, List.nodup_cons]
    refine ⟨?_, ih.sublist (List.filter_sublist.map _)⟩
    intro hm
    obtain ⟨a, ha, e⟩ := List.mem_map.1 hm
    simpa [e] using (List.mem_filter.1 ha).2

theorem regular_startTag (s : Text) : (startTag s).1.Regular := by
  unfold startTag
  split
  · trivial
  · rename_i l closing r h
    exact ⟨fun a ha => lower_of_attributes? h a (firstOfEach_subset l a ha), nodup_firstOfEach l⟩

theorem regular_markup (s : Text) : (markup s).1.Regular := by
  unfold markup comment bogus endTag
  split
  · split <;> trivial
  · split <;> trivial
  · split <;> trivial
  · split
    · split <;> trivial
    · split <;> trivial
  · exact regular_startTag _

theorem regular_nextIn (raw : Option Text) (c : Char) (s : Text) : (nextIn raw c s).1.Regular := by
  have hnext : (next c s).1.Regular := by
    unfold next
    split
    · exact regular_markup s
    · trivial
  unfold nextIn
  split
  · exact hnext
  · split
    · exact hnext
    · trivial

end Lexer

theorem regular_of_mem_lexFrom {raw : Option Text} {s : Text} :
    ∀ l ∈ lexFrom raw s, l.token.Regular := by
  fun_induction lexFrom raw s with
  | case1 => simp
  | case2 raw c s ih =>
    intro l hl
    rcases List.mem_cons.1 hl with rfl | hl
    · exact Lexer.regular_nextIn raw c s
    · exact ih l hl

theorem regular_of_mem_tokens {s : Text} {t : Token} (h : t ∈ tokens s) : t.Regular := by
  obtain ⟨l, hl, rfl⟩ := List.mem_map.1 h
  exact regular_of_mem_lexFrom l hl

namespace Lexer

theorem isReadName_lower {c : Char} {t : Text} (hc : isGap c = false) (hclose : c ≠ '>')
    (ht : ∀ d ∈ t, isAttributeNameChar d = true) : IsReadName (Text.lower (c :: t)) := by
  have hgap (d : Char) : isGap d.toLower = isGap d := Text.congr_toLower (by decide) d
  have hend (d : Char) : decide (d.toLower = '>') = decide (d = '>') :=
    Text.congr_toLower (f := fun d => decide (d = '>')) (by decide) d
  have hchar (d : Char) : isAttributeNameChar d.toLower = isAttributeNameChar d :=
    Text.congr_toLower (by decide) d
  refine ⟨c.toLower, Text.lower t, rfl, (hgap c).trans hc, ?_, fun d hd => ?_⟩
  · exact of_decide_eq_false ((hend c).trans (decide_eq_false hclose))
  · obtain ⟨e, he, rfl⟩ := List.mem_map.1 hd
    exact (hchar e).trans (ht e he)

theorem isReadName_of_attributes? {s r : Text} {l : List Attribute} {closing : Bool}
    (h : attributes? s = some (l, closing, r)) : ∀ a ∈ l, IsReadName a.name := by
  fun_induction attributes? s generalizing l closing r with
  | case1 => simp at h
  | case2 =>
    obtain ⟨rfl, _⟩ : [] = l ∧ _ := by simpa using h
    simp
  | case3 => simp at h
  | case4 s c t hs hclose v u _ ih =>
    obtain ⟨⟨rest, closing', r'⟩, hrest, e⟩ := Option.map_eq_some_iff.1 h
    obtain ⟨rfl, _⟩ :
        ⟨Text.lower (c :: t.takeWhile isAttributeNameChar), v⟩ :: rest = l ∧ _ := by simpa using e
    refine List.forall_mem_cons.2 ⟨?_, ih hrest⟩
    exact isReadName_lower (Text.head_dropWhile s c (hs ▸ rfl)) hclose
      fun _ hd => List.mem_takeWhile_imp hd

structure Named (tag : Text) (l : List Attribute) : Prop where
  letter : ∀ r, startsWithLetter (tag ++ r) = true
  chars : ∀ c ∈ tag, isNameChar c = true
  lower : Text.lower tag = tag
  attributes : ∀ a ∈ l, IsReadName a.name

theorem named_of_startTag {s tag r : Text} {l : List Attribute} {closing : Bool}
    (hs : startsWithLetter s = true) (h : startTag s = (.startTag tag l closing, r)) : Named tag l := by
  unfold startTag at h
  split at h
  · cases h
  · rename_i l' closing' r' hl
    obtain ⟨⟨rfl, rfl, _⟩, _⟩ : (_ = tag ∧ firstOfEach l' = l ∧ _) ∧ _ := by simpa using h
    have hchar (d : Char) : isNameChar d.toLower = isNameChar d := Text.congr_toLower (by decide) d
    have halpha (d : Char) : d.toLower.isAlpha = d.isAlpha := Text.congr_toLower (by decide) d
    refine ⟨fun x => ?_, fun d hd => ?_, Text.lower_lower _,
      fun a ha => isReadName_of_attributes? hl a (firstOfEach_subset _ a ha)⟩
    · cases s with
      | nil => cases hs
      | cons c s =>
        have hc : c.isAlpha = true := hs
        have hname : isNameChar c = true := Text.forall_ascii
          (P := fun c => c.isAlpha = true → isNameChar c = true) (by decide)
          (Text.toNat_lt_of_isAlphanum (by rw [Char.isAlphanum, hc, Bool.true_or])) hc
        rw [List.takeWhile_cons_of_pos hname]
        exact (halpha c).trans hc
    · obtain ⟨e, he, rfl⟩ := List.mem_map.1 hd
      exact (hchar e).trans (List.mem_takeWhile_imp he)

end Lexer

end Markup

end Folio
