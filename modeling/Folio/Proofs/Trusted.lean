import Folio.Proofs.Local
import Folio.Proofs.Pieces
import Folio.Proofs.Stripping

set_option autoImplicit false

/-!
# Trusted code

Trusted code is copied as it is, its style text apart: the content of style elements is stripped, and a
tag with a style attribute is written anew from its attributes. What is copied is read again as it was,
since reading is local, so the tokens of the result are those of the code with the style text stripped.
There is one exception. A slash may part a bare attribute from an attribute whose name starts with an
equals sign; the tag that is written has a space there, and the second comes to be the value of the
first.
-/
namespace Folio

namespace Markup

def Attribute.stripped (a : Attribute) : Attribute :=
  ⟨a.name, a.value.map fun v =>
    escapeAttribute (if a.name = "style" then Style.strip (decode v) else decode v)⟩

def strippedText (w : Text) : Text := Style.neutralizeClose (Style.strip w)

def strippedToken (inStyle : Bool) : Token → List Token
  | .rawText w =>
    if inStyle then (if (strippedText w).isEmpty then [] else [.rawText (strippedText w)])
    else [.rawText w]
  | .startTag tag l closing =>
    [.startTag tag (if hasStyle l then l.map Attribute.stripped else l) closing]
  | t => [t]

def stripped (inStyle : Bool) : List Token → List Token
  | [] => []
  | t :: ts => strippedToken inStyle t ++ stripped (inStyleAfter inStyle t) ts

/-- No attribute of a tag that is written anew comes to have the next one for its value. -/
def Token.Separate : Token → Prop
  | .startTag _ l _ => hasStyle l = true → l.IsChain Attribute.Apart
  | _ => True

instance : DecidableRel Attribute.Apart := fun a b =>
  inferInstanceAs (Decidable (a.value = none → b.name.head? ≠ some '='))

instance : DecidablePred Token.Separate
  | .startTag _ l _ => inferInstanceAs (Decidable (hasStyle l = true → l.IsChain Attribute.Apart))
  | .text _ => .isTrue trivial
  | .rawText _ => .isTrue trivial
  | .endTag _ => .isTrue trivial
  | .comment _ => .isTrue trivial
  | .bogus => .isTrue trivial

def isRewritten (inStyle : Bool) : Token → Bool
  | .rawText _ => inStyle
  | .startTag _ l _ => hasStyle l
  | _ => false

theorem trustedLexeme_of_not_rewritten {b : Bool} {t : Token} (h : isRewritten b t = false)
    (source : Text) : trustedLexeme b ⟨t, source⟩ = source ∧ strippedToken b t = [t] := by
  cases t with
  | rawText w =>
    obtain rfl : b = false := h
    exact ⟨rfl, rfl⟩
  | startTag tag l closing =>
    have hl : hasStyle l = false := h
    simp [trustedLexeme, strippedToken, hl]
  | _ => exact ⟨rfl, rfl⟩

theorem trustedLexeme_startTag {l : List Attribute} (hl : hasStyle l = true) (b : Bool) (tag : Text)
    (closing : Bool) (source : Text) :
    trustedLexeme b ⟨.startTag tag l closing, source⟩ = rebuildTag tag l closing := if_pos hl

theorem trustedAttribute_eq (a : Attribute) : trustedAttribute a = a.stripped.spell := by
  obtain ⟨name, value⟩ := a
  cases value with
  | none => exact (List.append_nil _).symm
  | some v =>
    simp only [trustedAttribute, Attribute.stripped, Attribute.spell, Option.map_some,
      List.append_assoc]

theorem apart_stripped {a b : Attribute} : Attribute.Apart a.stripped b.stripped ↔ a.Apart b := by
  rw [Attribute.Apart, Attribute.Apart, Attribute.stripped, Option.map_eq_none_iff]
  rfl

theorem opens_rebuildTag {s tag r : Text} {l : List Attribute} {closing : Bool}
    (h : Lexer.nextIn none '<' s = (.startTag tag l closing, r)) (o : Text) :
    Lexer.opens (rebuildTag tag l closing ++ o) = true := by
  obtain ⟨_, _, hletter, hstart⟩ := Lexer.of_nextIn_startTag (by simp) h
  have hopens (x : Text) : Lexer.opensMarkup (tag ++ x) = true :=
    (Lexer.markup_of_letter ((Lexer.named_of_startTag hletter hstart).letter x)).1
  simp [rebuildTag, Lexer.opens, hopens]

theorem closes_of_startTag {s tag r : Text} {l : List Attribute} {closing : Bool}
    (h : Lexer.nextIn none '<' s = (.startTag tag l closing, r)) {name : Text}
    (hname : name ∈ rawTextElements) : Lexer.closes name ('<' :: s) = false := by
  refine Bool.eq_false_iff.2 fun hclose => ?_
  rcases Lexer.next_of_closes (Lexer.of_rawTextElement hname).1 hclose with e | ⟨x, e⟩
  · cases e.symm.trans h
  · cases e.symm.trans h

def closingGap (closing : Bool) : Text := if closing then " /" else []

theorem closingGap_spec (closing : Bool) : (∀ c ∈ closingGap closing, Lexer.isGap c = true) ∧
    decide ((closingGap closing).getLast? = some '/') = closing := by
  cases closing <;> decide

theorem rebuildTag_append (tag : Text) (l : List Attribute) (closing : Bool) (o : Text) :
    rebuildTag tag l closing ++ o =
      '<' :: (tag ++ ((l.map Attribute.stripped).flatMap Attribute.spell ++
        (closingGap closing ++ '>' :: o))) := by
  have hattributes : l.flatMap trustedAttribute = (l.map Attribute.stripped).flatMap Attribute.spell := by
    rw [List.flatMap_map]
    exact List.flatMap_congr fun a _ => trustedAttribute_eq a
  rw [rebuildTag, hattributes]
  cases closing <;> simp [closingGap]

section

variable {tag : Text} {l : List Attribute} (h : Lexer.Named tag l)
  (hregular : (Token.startTag tag l false).Regular)

include h in
theorem readable_stripped : ∀ a ∈ l.map Attribute.stripped, a.Readable := by
  intro a ha
  obtain ⟨b, hb, rfl⟩ := List.mem_map.1 ha
  refine ⟨h.attributes b hb, fun v hv => ?_⟩
  obtain ⟨w, _, rfl⟩ := Option.map_eq_some_iff.1 hv
  exact (inert_escapeAttribute _).not_mem_quote

include hregular

theorem lowered_stripped :
    (l.map Attribute.stripped).map Attribute.lowered = l.map Attribute.stripped := by
  rw [List.map_map]
  refine List.map_congr_left fun a ha => ?_
  rw [Function.comp_apply, Attribute.lowered, Attribute.stripped, hregular.1 a ha]

theorem nodup_stripped : ((l.map Attribute.stripped).map Attribute.name).Nodup := by
  rw [List.map_map]
  exact hregular.2

include h

theorem nextIn_rebuildTag (hl : l.IsChain Attribute.Apart) (closing : Bool) (o : Text) :
    ∃ x, rebuildTag tag l closing ++ o = '<' :: x ∧
      Lexer.nextIn none '<' x = (.startTag tag (l.map Attribute.stripped) closing, o) := by
  have hapart : (l.map Attribute.stripped).IsChain Attribute.Apart :=
    (List.isChain_map Attribute.stripped).2 (hl.imp fun _ _ => apart_stripped.2)
  obtain ⟨hgap, hlast⟩ := closingGap_spec closing
  have hread := nextIn_written h.letter h.chars (readable_stripped h) hapart hgap o
  rw [h.lower, lowered_stripped hregular, firstOfEach_of_nodup (nodup_stripped hregular), hlast] at hread
  exact ⟨_, rebuildTag_append tag l closing o, hread⟩

end

theorem trusted_cons {raw : Option Text} {c : Char} {s r : Text} {t : Token}
    (h : Lexer.nextIn raw c s = (t, r)) (b : Bool) : trusted b (lexFrom raw (c :: s)) =
      trustedLexeme b ⟨t, upTo (c :: s) r⟩ ++
        trusted (inStyleAfter b t) (lexFrom (Lexer.rawAfter t) r) := by
  rw [lexFrom, h, trusted]

theorem trusted_nil (raw : Option Text) (b : Bool) : trusted b (lexFrom raw []) = [] := by
  rw [lexFrom, trusted]

theorem upTo_cons (c : Char) (w r : Text) : upTo (c :: (w ++ r)) r = c :: w := by
  have h := upTo_append (s := c :: (w ++ r)) (r := r) ⟨c :: w, rfl⟩
  exact List.append_cancel_right (h.trans (List.cons_append).symm)

theorem follows_trusted (b : Bool) (s : Text) : Lexer.Follows s (trusted b (lex s)) := by
  have hbegin : Lexer.opens s = true → Lexer.opens (trusted b (lex s)) = true ∧
      ∀ name ∈ rawTextElements, Lexer.closes name s = true →
        Lexer.closes name (trusted b (lex s)) = true := by
    intro ho
    obtain ⟨s, rfl⟩ := Lexer.opens_eq_true ho
    rcases Lexer.next_local_of_opens ho with hend | ⟨q, r, t, rfl, hlocal⟩
    · -- what is never closed is copied with all that is left
      have hread : Lexer.nextIn none '<' s = (.bogus, []) := hend
      have hsame : trusted b (lex ('<' :: s)) = '<' :: s := by
        have hsource := upTo_append (s := '<' :: s) List.nil_suffix
        rw [List.append_nil] at hsource
        rw [lex, trusted_cons hread, trusted_nil, List.append_nil, trustedLexeme, hsource]
      rw [hsame]
      exact ⟨ho, fun _ _ h => h⟩
    · have hread : Lexer.nextIn none '<' (q ++ '>' :: r) = (t, r) := hlocal r
      have hsource : upTo ('<' :: (q ++ '>' :: r)) r = '<' :: (q ++ ['>']) := by
        have h := upTo_cons '<' (q ++ ['>']) r
        rwa [List.append_assoc, List.singleton_append] at h
      rw [lex, trusted_cons hread, hsource]
      generalize trusted (inStyleAfter b t) (lexFrom (Lexer.rawAfter t) r) = o
      by_cases hrewritten : isRewritten b t = true
      · cases t with
        | rawText w =>
          obtain ⟨_, hraw, _⟩ := Lexer.of_nextIn_rawText hread
          cases hraw
        | startTag tag l closing =>
          rw [trustedLexeme_startTag hrewritten]
          refine ⟨opens_rebuildTag hread o, fun name hname hclose => ?_⟩
          exact absurd hclose (Bool.eq_false_iff.1 (closes_of_startTag hread hname))
        | _ => cases hrewritten
      · rw [(trustedLexeme_of_not_rewritten (Bool.eq_false_iff.2 hrewritten) _).1, List.cons_append,
          List.append_assoc, List.singleton_append]
        refine ⟨?_, fun name hname hclose => ?_⟩
        · rw [← ho, Lexer.opens, Lexer.opens, Lexer.opensMarkup_append (.inr rfl) q o r]
        · rw [← hclose]
          exact Lexer.closes_append (.inr rfl) (Lexer.of_rawTextElement hname).2.2 '<' q o r
  refine ⟨fun ho => (hbegin ho).1, fun name hname hclose => ?_⟩
  have ho := Lexer.opens_of_closes (Lexer.of_rawTextElement hname).1 hclose
  exact (hbegin ho).2 name hname hclose

theorem tokens_styleText {w o : Text} (h : Style.Closeless w)
    (ho : o = [] ∨ Lexer.closes "style" o = true) :
    (lexFrom (some "style") (w ++ o)).map Lexeme.token =
      (if w.isEmpty then [] else [.rawText w]) ++ (lexFrom none o).map Lexeme.token :=
  tokensFrom_rawBody (by decide) (Style.rawBody_of_closeless h ho)

section

variable {raw : Option Text} {b : Bool} (hraw : ∀ name ∈ raw, name ∈ rawTextElements)
  (hstyle : ∀ name ∈ raw, b = decide (name = "style"))
include hraw hstyle

theorem tokens_trustedLexeme {c : Char} {s r o : Text} {t : Token}
    (h : Lexer.nextIn raw c s = (t, r)) (ht : t.Separate) (hempty : r = [] → o = [])
    (ho : Lexer.rawAfter t = none → Lexer.Follows r o) :
    (lexFrom raw (trustedLexeme b ⟨t, upTo (c :: s) r⟩ ++ o)).map Lexeme.token =
      strippedToken b t ++ (lexFrom (Lexer.rawAfter t) o).map Lexeme.token := by
  by_cases hrewritten : isRewritten b t = true
  · cases t with
    | rawText w =>
      obtain rfl : b = true := hrewritten
      obtain ⟨name, rfl, hend⟩ := Lexer.of_nextIn_rawText h
      obtain rfl : name = "style" := of_decide_eq_true (hstyle name rfl).symm
      have hbegin : o = [] ∨ Lexer.closes "style" o = true :=
        hend.imp hempty ((ho rfl).closes "style" (hraw _ rfl))
      exact tokens_styleText (Style.closeless_neutralizeClose _) hbegin
    | startTag tag l closing =>
      have hl : hasStyle l = true := hrewritten
      obtain ⟨rfl, rfl, hletter, hread⟩ := Lexer.of_nextIn_startTag hraw h
      have hregular : (Token.startTag tag l false).Regular := by
        have hr := Lexer.regular_nextIn none '<' s
        rwa [h] at hr
      obtain ⟨x, hx, hnext⟩ := nextIn_rebuildTag (Lexer.named_of_startTag hletter hread) hregular
        (ht hl) closing o
      rw [trustedLexeme_startTag hl, hx, tokensFrom_cons, hnext, strippedToken, if_pos hl]
      cases closing <;> rfl
    | _ => cases hrewritten
  · obtain ⟨hsource, htoken⟩ :=
      trustedLexeme_of_not_rewritten (Bool.eq_false_iff.2 hrewritten) (upTo (c :: s) r)
    obtain ⟨w, rfl, hlocal⟩ := Lexer.nextIn_local hraw h
    rw [hsource, htoken, upTo_cons, List.cons_append, tokensFrom_cons, hlocal o hempty ho]
    rfl

/-- Read again, the result has the stripped tokens of the code. -/
theorem tokens_trusted {s : Text} (hs : ∀ l ∈ lexFrom raw s, l.token.Separate) :
    (lexFrom raw (trusted b (lexFrom raw s))).map Lexeme.token =
      stripped b ((lexFrom raw s).map Lexeme.token) := by
  -- along the code: `hraw` and `hstyle` hold again of the element that a token opens
  fun_induction lexFrom raw s generalizing b with
  | case1 => simp [trusted, stripped, lexFrom]
  | case2 raw c s ih =>
    generalize hnext : Lexer.nextIn raw c s = found at *
    obtain ⟨t, r⟩ := found
    obtain ⟨ht, hrest⟩ := List.forall_mem_cons.1 hs
    have hafter : ∀ name ∈ Lexer.rawAfter t, inStyleAfter b t = decide (name = "style") := by
      intro name hname
      obtain ⟨_, l, rfl⟩ := Lexer.exists_of_rawAfter hname
      exact Bool.and_true _
    have htail := ih (fun name hname => (Lexer.exists_of_rawAfter hname).1) hafter hrest
    have hempty : r = [] → trusted (inStyleAfter b t) (lexFrom (Lexer.rawAfter t) r) = [] := by
      rintro rfl
      exact trusted_nil _ _
    have hfollows : Lexer.rawAfter t = none →
        Lexer.Follows r (trusted (inStyleAfter b t) (lexFrom (Lexer.rawAfter t) r)) := by
      intro hnone
      rw [hnone]
      exact follows_trusted _ r
    calc
      (lexFrom raw (trusted b (⟨t, upTo (c :: s) r⟩ :: lexFrom (Lexer.rawAfter t) r))).map Lexeme.token
      _ = strippedToken b t ++ (lexFrom (Lexer.rawAfter t)
            (trusted (inStyleAfter b t) (lexFrom (Lexer.rawAfter t) r))).map Lexeme.token :=
        tokens_trustedLexeme hraw hstyle hnext ht hempty hfollows
      _ = strippedToken b t ++
            stripped (inStyleAfter b t) ((lexFrom (Lexer.rawAfter t) r).map Lexeme.token) :=
        congrArg (strippedToken b t ++ ·) htail

end

theorem tokens_sanitizeTrusted {s : Text} (hs : ∀ t ∈ tokens s, t.Separate) :
    tokens (sanitizeTrusted s) = stripped false (tokens s) := by
  have hlex : ∀ l ∈ lexFrom none s, l.token.Separate := fun _ hl => hs _ (List.mem_map_of_mem hl)
  refine tokens_trusted ?_ ?_ hlex
  · nofun
  · nofun

/-- No construct stands in the raw text behind the start tag of a style element, and none in the value
    of a style attribute. -/
structure StyleClean (ts : List Token) : Prop where
  content : ∀ before l closing w after,
    ts = before ++ .startTag "style" l closing :: .rawText w :: after → Style.containsConstruct w = false
  attributes : ∀ tag l closing, .startTag tag l closing ∈ ts → ∀ a ∈ l, a.name = ("style" : Text) →
    Style.containsConstruct a.decoded = false

theorem containsConstruct_strippedText (w : Text) :
    Style.containsConstruct (strippedText w) = false :=
  (Style.containsConstruct_neutralizeClose [] _).trans (Style.containsConstruct_strip w)

theorem containsConstruct_stripped {a : Attribute} (h : a.name = "style") :
    Style.containsConstruct a.stripped.decoded = false := by
  obtain ⟨name, value⟩ := a
  obtain rfl : name = "style" := h
  cases value with
  | none => simp [Attribute.stripped, Attribute.decoded, decode, Style.containsConstruct]
  | some v =>
    have hvalue : (Attribute.stripped ⟨"style", some v⟩).decoded = Style.strip (decode v) :=
      decode_escapeAttribute _
    rw [hvalue, Style.containsConstruct_strip]

def Token.Clean (inStyle : Bool) : Token → Prop
  | .rawText w => inStyle = true → Style.containsConstruct w = false
  | .startTag _ l _ => ∀ a ∈ l, a.name = ("style" : Text) → Style.containsConstruct a.decoded = false
  | _ => True

theorem strippedToken_cases (b : Bool) (t : Token) :
    (strippedToken b t = [] ∧ inStyleAfter b t = b) ∨
      ∃ t', strippedToken b t = [t'] ∧ inStyleAfter b t' = inStyleAfter b t ∧ t'.Clean b := by
  cases t with
  | rawText w =>
    cases b with
    | false => exact .inr ⟨_, rfl, rfl, fun h => nomatch h⟩
    | true =>
      by_cases hempty : (strippedText w).isEmpty = true
      · exact .inl ⟨if_pos hempty, rfl⟩
      · exact .inr ⟨_, if_neg hempty, rfl, fun _ => containsConstruct_strippedText w⟩
  | startTag tag l closing =>
    refine .inr ⟨_, rfl, rfl, fun a ha hname => ?_⟩
    split at ha
    · obtain ⟨a', _, rfl⟩ := List.mem_map.1 ha
      exact containsConstruct_stripped hname
    · rename_i hnone
      exact absurd (List.any_eq_true.2 ⟨a, ha, decide_eq_true hname⟩) hnone
  | text w => exact .inr ⟨_, rfl, rfl, trivial⟩
  | endTag tag => exact .inr ⟨_, rfl, rfl, trivial⟩
  | comment w => exact .inr ⟨_, rfl, rfl, trivial⟩
  | bogus => exact .inr ⟨_, rfl, rfl, trivial⟩

theorem exists_of_stripped_eq {b : Bool} {ts before rest : List Token} {t : Token}
    (h : stripped b ts = before ++ t :: rest) :
    ∃ b' ts', t.Clean b' ∧ rest = stripped (inStyleAfter b' t) ts' := by
  induction ts generalizing b before with
  | nil => simp [stripped] at h
  | cons t' ts ih =>
    rw [stripped] at h
    rcases strippedToken_cases b t' with ⟨hnone, _⟩ | ⟨t'', hone, hstyle, hclean⟩
    · rw [hnone] at h
      exact ih h
    · rw [hone] at h
      cases before with
      | nil =>
        obtain ⟨rfl, rfl⟩ := List.cons.inj h
        exact ⟨b, ts, hclean, by rw [hstyle]; rfl⟩
      | cons x before => exact ih (List.cons.inj h).2

theorem clean_of_stripped_eq_cons {b : Bool} {ts rest : List Token} {t : Token}
    (h : stripped b ts = t :: rest) : t.Clean b := by
  induction ts with
  | nil => cases h
  | cons t' ts ih =>
    rw [stripped] at h
    rcases strippedToken_cases b t' with ⟨hnone, hstyle⟩ | ⟨t'', hone, _, hclean⟩
    · -- raw text that goes leaves the state as it was
      rw [hnone, hstyle] at h
      exact ih h
    · rw [hone] at h
      exact (List.cons.inj h).1 ▸ hclean

theorem rawAfter_of_rawText {raw : Option Text} {s w : Text} {before after : List Token} {t : Token}
    (h : (lexFrom raw s).map Lexeme.token = before ++ t :: .rawText w :: after) :
    Lexer.rawAfter t ≠ none := by
  fun_induction lexFrom raw s generalizing before with
  | case1 => simp at h
  | case2 raw c s ih =>
    cases before with
    | cons x before => exact ih (List.cons.inj h).2
    | nil =>
      obtain ⟨rfl, hrest⟩ := List.cons.inj h
      intro hnone
      rw [hnone] at hrest
      cases hr : (Lexer.nextIn raw c s).2 with
      | nil => simp [hr, lexFrom] at hrest
      | cons d r =>
        rw [hr, tokensFrom_cons] at hrest
        obtain ⟨_, hraw, _⟩ := Lexer.of_nextIn_rawText (Prod.ext (List.cons.inj hrest).1 rfl)
        cases hraw

/-- The style text of trusted code holds no construct any more when it is read again. -/
theorem styleClean_sanitize [Link.HostReader] {s : Text} (hs : ∀ t ∈ tokens s, t.Separate) :
    StyleClean (tokens (sanitize .trustedCode s)) := by
  have htokens : tokens (sanitize .trustedCode s) = stripped false (tokens s) :=
    tokens_sanitizeTrusted hs
  constructor
  · intro before l closing w after h
    have hraw : Lexer.rawAfter (.startTag "style" l closing) ≠ none := rawAfter_of_rawText h
    cases closing with
    | true => exact absurd rfl hraw
    | false =>
      rw [htokens] at h
      obtain ⟨b, ts, _, hrest⟩ := exists_of_stripped_eq h
      exact clean_of_stripped_eq_cons hrest.symm rfl
  · intro tag l closing h
    obtain ⟨before, after, h⟩ := List.append_of_mem h
    rw [htokens] at h
    obtain ⟨_, _, hclean, _⟩ := exists_of_stripped_eq h
    exact hclean

theorem styleClean_sanitize_spliced :
    (∀ t ∈ tokens "<style>@im@importport</sty<</STYLE><a/==x q\"='\"' style='exprexpression(ession(1)' b/c/>",
      t.Separate) ∧
    StyleClean (tokens (sanitize .trustedCode
      "<style>@im@importport</sty<</STYLE><a/==x q\"='\"' style='exprexpression(ession(1)' b/c/>")) := by
  have hs : ∀ t ∈ tokens
      "<style>@im@importport</sty<</STYLE><a/==x q\"='\"' style='exprexpression(ession(1)' b/c/>",
      t.Separate := by decide +kernel
  exact ⟨hs, styleClean_sanitize hs⟩

/-- A slash keeps the attribute `style` and the attribute `=expression(1)` apart, a space does not. -/
theorem not_styleClean_joined :
    ¬ StyleClean (tokens (sanitize .trustedCode "<a style/=expression(1)>")) := by
  intro h
  have htokens : tokens (sanitize .trustedCode "<a style/=expression(1)>") =
      [.startTag "a" [⟨"style", some "expression(1)"⟩] false] := by decide +kernel
  have hclean := h.attributes "a" [⟨"style", some "expression(1)"⟩] false
    (htokens ▸ List.mem_singleton_self _) _ (List.mem_singleton_self _) rfl
  exact absurd hclean (by decide +kernel)

end Markup

end Folio
