import Folio.Text.Blank
import Folio.Text.Fold

set_option autoImplicit false

/-!
# Tokens of markup

A text of markup falls into texts, raw texts, start tags, end tags, comments and whatever makes no
sense, which is bogus. Every text has tokens, each token at least one character, and the sources of
the tokens make up the text: `sources_lex`.

A `<` opens markup before a letter, `!`, `?`, or a `/` that a letter or `>` follows; elsewhere it is
text. What opens and is never closed is bogus up to the end. After the start tag of a raw-text
element everything up to its end tag is one raw text. A reader of one token is given the text after
its `<` and answers with the text after the token.
-/
namespace Folio.Markup

structure Attribute where
  /-- In small letters. -/
  name : Text
  /-- As written, references and all; a bare attribute has none. -/
  value : Option Text
deriving DecidableEq, Repr

inductive Token where
  | text (s : Text)
  | rawText (s : Text)
  | startTag (name : Text) (attributes : List Attribute) (selfClosing : Bool)
  | endTag (name : Text)
  | comment (s : Text)
  | bogus
deriving DecidableEq, Repr

structure Lexeme where
  token : Token
  source : Text
deriving DecidableEq, Repr

def rawTextElements : List Text :=
  ["script", "style", "textarea", "title", "xmp", "iframe", "noembed", "noframes", "noscript",
   "plaintext"]

namespace Lexer

def isNameChar (c : Char) : Bool := !Text.isMarkupSpace c && c ≠ '>' && c ≠ '/'

def isAttributeNameChar (c : Char) : Bool := isNameChar c && c ≠ '='

def isBareValueChar (c : Char) : Bool := !Text.isMarkupSpace c && c ≠ '>'

/-- White space and slashes stand between attributes. -/
def isGap (c : Char) : Bool := Text.isMarkupSpace c || c = '/'

def quoted? (quote : Char) (s : Text) : Option (Option Text × Text) :=
  (Text.cut? [quote] s).map fun (v, r) => (some v, r)

/-- The value after an attribute name: none where no `=` follows; no answer where the tag breaks off
    inside it. -/
def value? (s : Text) : Option (Option Text × Text) :=
  match s.dropWhile Text.isMarkupSpace with
  | '=' :: t =>
    match t.dropWhile Text.isMarkupSpace with
    | [] => none
    | '"' :: u => quoted? '"' u
    | '\'' :: u => quoted? '\'' u
    | u => some (some (u.takeWhile isBareValueChar), u.dropWhile isBareValueChar)
  | _ => some (none, s)

theorem cut?_suffix {p s a b : Text} (h : Text.cut? p s = some (a, b)) : b <:+ s :=
  ⟨a ++ p, (Text.cut?_eq_some h).symm⟩

theorem quoted?_suffix {quote : Char} {s r : Text} {v : Option Text}
    (h : quoted? quote s = some (v, r)) : r <:+ s := by
  obtain ⟨⟨a, b⟩, hc, e⟩ := Option.map_eq_some_iff.1 h
  obtain ⟨rfl, rfl⟩ : some a = v ∧ b = r := by simpa using e
  exact cut?_suffix hc

theorem value?_suffix {s r : Text} {v : Option Text} (h : value? s = some (v, r)) : r <:+ s := by
  unfold value? at h
  split at h
  · rename_i t ht
    have hs : t <:+ s :=
      (List.suffix_cons _ _).trans (ht ▸ List.dropWhile_suffix (l := s) Text.isMarkupSpace)
    have hu := List.dropWhile_suffix (l := t) Text.isMarkupSpace
    split at h
    · simp at h
    · rename_i u hu'
      exact (quoted?_suffix h).trans ((List.suffix_cons _ _).trans ((hu' ▸ hu).trans hs))
    · rename_i u hu'
      exact (quoted?_suffix h).trans ((List.suffix_cons _ _).trans ((hu' ▸ hu).trans hs))
    · obtain ⟨_, rfl⟩ : some _ = v ∧ _ = r := by simpa using h
      exact (List.dropWhile_suffix _).trans (hu.trans hs)
  · obtain ⟨_, rfl⟩ : none = v ∧ s = r := by simpa using h
    exact List.suffix_refl _

/-- What follows a tag name: the attributes, whether the tag closes itself, and the text after the
    tag; no answer where the tag breaks off. -/
def attributes? (s : Text) : Option (List Attribute × Bool × Text) :=
  match _hs : s.dropWhile isGap with
  | [] => none
  | c :: t =>
    if c = '>' then some ([], (s.takeWhile isGap).getLast? = some '/', t)
    else
      match _hv : value? (t.dropWhile isAttributeNameChar) with
      | none => none
      | some (v, r) =>
        (attributes? r).map fun (rest, closing, u) =>
          (⟨Text.lower (c :: t.takeWhile isAttributeNameChar), v⟩ :: rest, closing, u)
termination_by s.length
decreasing_by
  have h1 := (List.dropWhile_suffix (l := s) isGap).length_le
  have h2 := (List.dropWhile_suffix (l := t) isAttributeNameChar).length_le
  have h3 := (value?_suffix _hv).length_le
  simp only [_hs, List.length_cons] at h1
  omega

/-- Of attributes with one name the first counts. -/
def firstOfEach : List Attribute → List Attribute
  | [] => []
  | a :: rest => a :: (firstOfEach rest).filter fun b => b.name ≠ a.name

def startTag (s : Text) : Token × Text :=
  match attributes? (s.dropWhile isNameChar) with
  | none => (.bogus, [])
  | some (attributes, closing, r) =>
    (.startTag (Text.lower (s.takeWhile isNameChar)) (firstOfEach attributes) closing, r)

def endTag (s : Text) : Token × Text :=
  match Text.cut? ">" (s.dropWhile isNameChar) with
  | none => (.bogus, [])
  | some (_, r) => (.endTag (Text.lower (s.takeWhile isNameChar)), r)

def comment (s : Text) : Token × Text :=
  match Text.cut? "-->" s with
  | none => (.bogus, [])
  | some (body, r) => (.comment body, r)

def bogus (s : Text) : Token × Text :=
  match Text.cut? ">" s with
  | none => (.bogus, [])
  | some (_, r) => (.bogus, r)

def startsWithLetter : Text → Bool
  | c :: _ => c.isAlpha
  | [] => false

def opensMarkup : Text → Bool
  | [] => false
  | '/' :: s => startsWithLetter s || s.head? = some '>'
  | c :: _ => c.isAlpha || c = '!' || c = '?'

def markup : Text → Token × Text
  | '!' :: '-' :: '-' :: s => comment s
  | '!' :: s => bogus s
  | '?' :: s => bogus s
  | '/' :: s => if startsWithLetter s then endTag s else bogus s
  | s => startTag s

def plain : Text → Text × Text
  | [] => ([], [])
  | c :: s =>
    if c = '<' && opensMarkup s then ([], c :: s)
    else (c :: (plain s).1, (plain s).2)

def next (c : Char) (s : Text) : Token × Text :=
  if c = '<' && opensMarkup s then markup s else (.text (c :: (plain s).1), (plain s).2)

def closes (name : Text) (s : Text) : Bool :=
  match (Text.dropStart? "</" s).bind (Text.dropStartUnder? Char.toLower name) with
  | none => false
  | some [] => true
  | some (c :: _) => Text.isMarkupSpace c || c = '>' || c = '/'

def rawBody (name : Text) : Text → Text × Text
  | [] => ([], [])
  | c :: s =>
    if closes name (c :: s) then ([], c :: s)
    else (c :: (rawBody name s).1, (rawBody name s).2)

def rawText (name : Text) (s : Text) : Text × Text :=
  if name = "plaintext" then (s, []) else rawBody name s

/-- The token at the head of the text `c :: s` when a raw-text element has just been opened. -/
def nextIn (raw : Option Text) (c : Char) (s : Text) : Token × Text :=
  match raw with
  | none => next c s
  | some name =>
    match rawText name (c :: s) with
    | ([], _) => next c s
    | (body, r) => (.rawText body, r)

def rawAfter : Token → Option Text
  | .startTag name _ false => if rawTextElements.contains name then some name else none
  | _ => none

theorem attributes?_suffix {s r : Text} {l : List Attribute} {closing : Bool}
    (h : attributes? s = some (l, closing, r)) : r <:+ s := by
  fun_induction attributes? s generalizing l closing with
  | case1 => simp at h
  | case2 s t hs =>
    obtain ⟨_, _, rfl⟩ : [] = l ∧ _ = closing ∧ t = r := by simpa using h
    exact (List.suffix_cons _ _).trans (hs ▸ List.dropWhile_suffix _)
  | case3 => simp at h
  | case4 s c t hs hc v u hv ih =>
    obtain ⟨⟨l', closing', r'⟩, h', e⟩ := Option.map_eq_some_iff.1 h
    obtain ⟨_, _, rfl⟩ : _ = l ∧ closing' = closing ∧ r' = r := by simpa using e
    have ht : t <:+ s := (List.suffix_cons _ _).trans (hs ▸ List.dropWhile_suffix _)
    exact (ih h').trans ((value?_suffix hv).trans ((List.dropWhile_suffix _).trans ht))

theorem startTag_suffix (s : Text) : (startTag s).2 <:+ s := by
  unfold startTag
  split
  · exact List.nil_suffix
  · exact (attributes?_suffix ‹_›).trans (List.dropWhile_suffix _)

theorem endTag_suffix (s : Text) : (endTag s).2 <:+ s := by
  unfold endTag
  split
  · exact List.nil_suffix
  · exact (cut?_suffix ‹_›).trans (List.dropWhile_suffix _)

theorem comment_suffix (s : Text) : (comment s).2 <:+ s := by
  unfold comment
  split
  · exact List.nil_suffix
  · exact cut?_suffix ‹_›

theorem bogus_suffix (s : Text) : (bogus s).2 <:+ s := by
  unfold bogus
  split
  · exact List.nil_suffix
  · exact cut?_suffix ‹_›

theorem markup_suffix (s : Text) : (markup s).2 <:+ s := by
  unfold markup
  split
  · exact (comment_suffix _).trans ⟨['!', '-', '-'], rfl⟩
  · exact (bogus_suffix _).trans (List.suffix_cons _ _)
  · exact (bogus_suffix _).trans (List.suffix_cons _ _)
  · split
    · exact (endTag_suffix _).trans (List.suffix_cons _ _)
    · exact (bogus_suffix _).trans (List.suffix_cons _ _)
  · exact startTag_suffix _

theorem plain_append (s : Text) : (plain s).1 ++ (plain s).2 = s := by
  induction s with
  | nil => rfl
  | cons c s ih =>
    simp only [plain]
    split
    · rfl
    · simp [ih]

theorem next_suffix (c : Char) (s : Text) : (next c s).2 <:+ s := by
  unfold next
  split
  · exact markup_suffix s
  · exact ⟨_, plain_append s⟩

theorem rawBody_append (name s : Text) : (rawBody name s).1 ++ (rawBody name s).2 = s := by
  induction s with
  | nil => rfl
  | cons c s ih =>
    simp only [rawBody]
    split
    · rfl
    · simp [ih]

theorem rawText_append (name s : Text) : (rawText name s).1 ++ (rawText name s).2 = s := by
  unfold rawText
  split
  · simp
  · exact rawBody_append name s

/-- A token takes at least one character, and what it leaves is an end of the text. -/
theorem nextIn_suffix (raw : Option Text) (c : Char) (s : Text) : (nextIn raw c s).2 <:+ s := by
  unfold nextIn
  split
  · exact next_suffix c s
  · rename_i name
    have h := rawText_append name (c :: s)
    split
    · exact next_suffix c s
    · rename_i body r hne e
      rw [e] at h
      cases body with
      | nil => exact absurd rfl hne
      | cons b body => exact ⟨body, (List.cons.inj h).2⟩

end Lexer

def upTo (s r : Text) : Text := s.take (s.length - r.length)

theorem upTo_append {s r : Text} (h : r <:+ s) : upTo s r ++ r = s := by
  obtain ⟨q, rfl⟩ := h
  simp [upTo]

def lexFrom (raw : Option Text) : Text → List Lexeme
  | [] => []
  | c :: s =>
    ⟨(Lexer.nextIn raw c s).1, upTo (c :: s) (Lexer.nextIn raw c s).2⟩ ::
      lexFrom (Lexer.rawAfter (Lexer.nextIn raw c s).1) (Lexer.nextIn raw c s).2
termination_by s => s.length
decreasing_by
  have := (Lexer.nextIn_suffix raw c s).length_le
  simp only [List.length_cons]
  omega

def lex (s : Text) : List Lexeme := lexFrom none s

def tokens (s : Text) : List Token := (lex s).map Lexeme.token

def sources (l : List Lexeme) : Text := l.flatMap Lexeme.source

theorem sources_lexFrom (raw : Option Text) (s : Text) : sources (lexFrom raw s) = s := by
  fun_induction lexFrom raw s with
  | case1 => rfl
  | case2 raw c s ih =>
    simp only [sources, List.flatMap_cons] at ih ⊢
    rw [ih]
    exact upTo_append ((Lexer.nextIn_suffix raw c s).trans (List.suffix_cons _ _))

theorem sources_lex (s : Text) : sources (lex s) = s := sources_lexFrom none s

/-- Where each lexeme starts and ends, in bytes of UTF-8. -/
def spans : Nat → List Lexeme → List (Lexeme × Nat × Nat)
  | _, [] => []
  | start, l :: rest =>
    let stop := start + Text.byteLength l.source
    (l, start, stop) :: spans stop rest

end Folio.Markup
