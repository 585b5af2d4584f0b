import Folio.Proofs.Reread

set_option autoImplicit false

/-!
# Dropped elements

An element that is dropped with raw text in it leaves nothing behind: its tags and its text are passed
over, whatever that text looks like, and what follows the end tag is read and written as if it stood
alone.
-/
namespace Folio.Markup

def hiddenElements : List Text := ["script", "style", "textarea", "title", "xmp", "noscript"]

theorem of_hiddenElement {name : Text} (h : name ∈ hiddenElements) :
    isTagName name = true ∧ name ≠ "plaintext" ∧ isDropped name = true ∧
      name ∉ voidTags ∧ rawOf name = some name :=
  (by decide : ∀ n ∈ hiddenElements, isTagName n = true ∧ n ≠ ("plaintext" : Text) ∧
    isDropped n = true ∧ n ∉ voidTags ∧ rawOf n = some n) name h

def bracketed (s : Text) : Text := '<' :: s ++ ">"

section

variable {spelled : Text} (h : isTagName (Text.lower spelled) = true)
include h

theorem nameChars_of_lower : ∀ c ∈ spelled, Lexer.isNameChar c = true := fun _ hc =>
  Lexer.nameChar_of_lower (isTagChar_of_isTagName h _ (List.mem_map_of_mem hc))

theorem nextIn_bareTag (r : Text) : Lexer.nextIn none '<' (spelled ++ '>' :: r) =
    (.startTag (Text.lower spelled) [] false, r) :=
  nextIn_written (Lexer.startsWithLetter_of_lower h) (nameChars_of_lower h) (List.forall_mem_nil _)
    List.isChain_nil (List.forall_mem_nil _) r

theorem nextIn_closingTag (r : Text) : Lexer.nextIn none '<' ('/' :: (spelled ++ '>' :: r)) =
    (.endTag (Text.lower spelled), r) := by
  have hend : ∀ c ∈ ('>' :: r).head?, Lexer.isNameChar c = false := by simp; decide
  obtain ⟨htake, hdrop⟩ := Text.span_append (nameChars_of_lower h) hend
  have hletter := Lexer.startsWithLetter_of_lower h ('>' :: r)
  have hopens : Lexer.opensMarkup ('/' :: (spelled ++ '>' :: r)) = true := by
    simp [Lexer.opensMarkup, hletter]
  have hcut : Text.cut? ">" ('>' :: r) = some ([], r) := Lexer.cut?_char (d := '>') List.not_mem_nil r
  rw [Lexer.nextIn, Lexer.next, hopens, if_pos (by decide), Lexer.markup, if_pos hletter, Lexer.endTag,
    hdrop, htake, hcut]

omit h in
theorem closes_closingTag (r : Text) :
    Lexer.closes (Text.lower spelled) ('<' :: '/' :: (spelled ++ '>' :: r)) = true := by
  have hdrop : Text.dropStart? "</" ('<' :: '/' :: (spelled ++ '>' :: r)) = some (spelled ++ '>' :: r) :=
    Text.dropStart?_append "</" _
  have hname : Text.dropStartUnder? Char.toLower (Text.lower spelled) (spelled ++ '>' :: r) =
      some ('>' :: r) := Text.dropStartUnder?_append Char.toLower spelled _
  rw [Lexer.closes, hdrop, Option.bind_some, hname]
  rfl

end

section

variable {name opening closing body : Text} (hname : name ∈ hiddenElements)
  (hopening : Text.lower opening = name) (hclosing : Text.lower closing = name)
include hname hopening hclosing

theorem tokens_hidden (hbody : ¬ '<' :: '/' :: name <:+: Text.lower body) (rest : Text) :
    tokens (bracketed opening ++ body ++ bracketed ('/' :: closing) ++ rest) =
      .startTag name [] false ::
        ((if body.isEmpty then [] else [.rawText body]) ++ .endTag name :: tokens rest) := by
  obtain ⟨htag, hplain, _, _, hraw⟩ := of_hiddenElement hname
  have hend : bracketed ('/' :: closing) ++ rest = '<' :: '/' :: (closing ++ '>' :: rest) := by
    simp [bracketed]
  have hstart : bracketed opening ++ body ++ bracketed ('/' :: closing) ++ rest =
      '<' :: (opening ++ '>' :: (body ++ '<' :: '/' :: (closing ++ '>' :: rest))) := by
    simp [bracketed]
  have hclose : Lexer.closes name ('<' :: '/' :: (closing ++ '>' :: rest)) = true := by
    rw [← hclosing]
    exact closes_closingTag rest
  have hunclosed : ∀ q, Text.lower q = name → ¬ '<' :: '/' :: q <:+: body := by
    rintro q rfl hin
    exact hbody (hin.map Char.toLower)
  have hopen : '<'.toLower ∉ name := not_mem_open_of_isTagName htag
  have hnext : Lexer.nextIn none '<' (opening ++ '>' :: (body ++ '<' :: '/' :: (closing ++ '>' :: rest))) =
      (.startTag name [] false, body ++ '<' :: '/' :: (closing ++ '>' :: rest)) := by
    subst hopening
    exact nextIn_bareTag htag _
  have hafter : Lexer.nextIn none '<' ('/' :: (closing ++ '>' :: rest)) = (.endTag name, rest) := by
    subst hclosing
    exact nextIn_closingTag htag rest
  have hmode : Lexer.rawAfter (.startTag name [] false) = some name := hraw
  rw [hstart, tokens, lex, tokensFrom_cons, hnext]
  dsimp only
  rw [hmode, tokensFrom_rawBody hplain (Lexer.rawBody_of_unclosed hopen hunclosed (.inr hclose)),
    tokens, lex, tokensFrom_cons, hafter]
  rfl

variable [Link.HostReader]

omit hopening hclosing in
/-- From the start tag to the end tag nothing is written, and then everything is as it was before. -/
theorem pieces_hidden (policy : Policy) {p : Progress} (hp : p.dropping = none) (body : Text)
    (ts : List Token) :
    pieces policy p (.startTag name [] false ::
      ((if body.isEmpty then [] else [.rawText body]) ++ .endTag name :: ts)) = pieces policy p ts := by
  obtain ⟨_, _, hdropped, hvoid, _⟩ := of_hiddenElement hname
  obtain ⟨opened, dropping⟩ := p
  obtain rfl : dropping = none := hp
  have hstart : step policy ⟨opened, none⟩ (.startTag name [] false) = ([], ⟨opened, some (name, 1)⟩) := by
    simp [step, openElement, hdropped, Progress.drop, hvoid]
  have hraw : step policy ⟨opened, some (name, 1)⟩ (.rawText body) = ([], ⟨opened, some (name, 1)⟩) := rfl
  have hend : step policy ⟨opened, some (name, 1)⟩ (.endTag name) = ([], ⟨opened, none⟩) := by
    simp [step, Progress.inside]
  rw [pieces, hstart]
  cases body.isEmpty with
  | true => simp [pieces, hend]
  | false => simp [pieces, hraw, hend]

/-- A dropped element of raw text vanishes with what is in it, and nothing else does. -/
theorem sanitize_hidden {policy : Policy} (h : policy ≠ .trustedCode)
    (hbody : ¬ '<' :: '/' :: name <:+: Text.lower body) (rest : Text) :
    sanitize policy (bracketed opening ++ body ++ bracketed ('/' :: closing) ++ rest) =
      sanitize policy rest := by
  rw [sanitize_of_ne h, sanitize_of_ne h, tokens_hidden hname hopening hclosing hbody,
    pieces_hidden hname policy rfl]

end

theorem sanitize_hidden_script :
    (("script" : Text) ∈ hiddenElements ∧ Text.lower "ScRipt" = "script" ∧
      Text.lower "SCRIPT" = "script" ∧ Policy.htmlBlock ≠ .trustedCode ∧
      ¬ '<' :: '/' :: "script" <:+: Text.lower "if (a<b) '</p>' <!-- </scrip <script>\"</") ∧
    sanitize .htmlBlock (bracketed "ScRipt" ++ "if (a<b) '</p>' <!-- </scrip <script>\"</" ++
      bracketed ('/' :: "SCRIPT") ++ "<b>x</script>") = sanitize .htmlBlock "<b>x</script>" := by
  have hbody : ¬ '<' :: '/' :: "script" <:+: Text.lower "if (a<b) '</p>' <!-- </scrip <script>\"</" := by
    decide +kernel
  exact ⟨⟨by decide, by decide, by decide, by decide, hbody⟩,
    sanitize_hidden (show ("script" : Text) ∈ hiddenElements by decide) (by decide) (by decide)
      (by decide) hbody _⟩

end Folio.Markup
