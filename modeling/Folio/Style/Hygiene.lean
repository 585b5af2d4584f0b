import Folio.Link.Url
import Folio.Text.Fold

set_option autoImplicit false

/-!
# Hygiene of style text

Six constructs can run code from a style sheet; they are met in any letter case and with white space
before their last character. `strip` removes them until none is left, since a removal can splice a
new one together. A single value has to pass `isSafeValue`: it holds none of the constructs, none of
the characters that end a value, a rule or the style element, and each `url(...)` in it points at a
safe resource.
-/
namespace Folio.Style

/-- The constructs, and the character that completes one. -/
def constructs : List (Text × Option Char) :=
  [("expression", some '('), ("javascript", some ':'), ("vbscript", some ':'), ("@import", none),
   ("-moz-binding", none), ("behavior", some ':')]

def after? (c : Char) (s : Text) : Option Text :=
  match s.dropWhile Text.isBlank with
  | d :: r => if d = c then some r else none
  | [] => none

def complete? : Option Char → Text → Option Text
  | none, s => some s
  | some c, s => after? c s

def construct? (s : Text) : Option Text :=
  constructs.findSome? fun (word, last) =>
    (Text.dropStartUnder? Text.foldChar word s).bind (complete? last)

theorem after?_suffix {c : Char} {s r : Text} (h : after? c s = some r) : r <:+ s := by
  unfold after? at h
  split at h
  · rename_i d t e
    split at h
    · obtain rfl : t = r := by simpa using h
      exact (List.suffix_cons d _).trans (e ▸ List.dropWhile_suffix _)
    · simp at h
  · simp at h

theorem complete?_suffix {last : Option Char} {s r : Text} (h : complete? last s = some r) :
    r <:+ s := by
  cases last with
  | none => exact (Option.some.inj h) ▸ List.suffix_refl s
  | some c => exact after?_suffix h

theorem construct?_length {s r : Text} (h : construct? s = some r) : r.length < s.length := by
  obtain ⟨⟨word, last⟩, hw, h⟩ := List.exists_of_findSome?_eq_some h
  obtain ⟨t, ht, h⟩ := Option.bind_eq_some_iff.1 h
  have h1 := Text.dropStartUnder?_length ht
  have h2 := (complete?_suffix h).length_le
  have h3 : 0 < word.length := by
    simp only [constructs, List.mem_cons, Prod.mk.injEq, List.not_mem_nil, or_false] at hw
    rcases hw with ⟨rfl, _⟩ | ⟨rfl, _⟩ | ⟨rfl, _⟩ | ⟨rfl, _⟩ | ⟨rfl, _⟩ | ⟨rfl, _⟩ <;> decide
  omega

def containsConstruct : Text → Bool
  | [] => false
  | c :: s => (construct? (c :: s)).isSome || containsConstruct s

def stripOnce : Text → Text
  | [] => []
  | c :: s =>
    match _h : construct? (c :: s) with
    | some r => stripOnce r
    | none => c :: stripOnce s
termination_by s => s.length
decreasing_by
  · exact construct?_length _h
  · simp

theorem stripOnce_length_le (s : Text) : (stripOnce s).length ≤ s.length := by
  fun_induction stripOnce s with
  | case1 => simp
  | case2 c s r h ih =>
    have := construct?_length h
    omega
  | case3 c s h ih =>
    simp only [List.length_cons]
    omega

theorem stripOnce_length_lt {s : Text} (h : containsConstruct s = true) :
    (stripOnce s).length < s.length := by
  fun_induction stripOnce s with
  | case1 => simp [containsConstruct] at h
  | case2 c s r hr _ =>
    have h1 := construct?_length hr
    have h2 := stripOnce_length_le r
    omega
  | case3 c s hn ih =>
    simp only [containsConstruct, hn, Option.isSome_none, Bool.false_or] at h
    simp only [List.length_cons]
    have := ih h
    omega

def strip (s : Text) : Text :=
  if _h : containsConstruct s then strip (stripOnce s) else s
termination_by s.length
decreasing_by exact stripOnce_length_lt _h

theorem containsConstruct_strip (s : Text) : containsConstruct (strip s) = false := by
  fun_induction strip s with
  | case1 s h ih => exact ih
  | case2 s h => simpa using h

/-- Breaks up `</style`, which would end a style element. -/
def neutralizeClose : Text → Text
  | '<' :: '/' :: s =>
    if (Text.dropStartUnder? Text.foldChar "style" s).isSome then
      '<' :: '\\' :: '/' :: neutralizeClose s
    else '<' :: neutralizeClose ('/' :: s)
  | c :: s => c :: neutralizeClose s
  | [] => []

def quotedTarget? (quote : Char) : Text → Option (Text × Text)
  | [] => none
  | c :: s =>
    if c = quote then
      (Text.cut? [quote] s).bind fun (target, r) => (after? ')' r).map fun r => (target, r)
    else none

def target? (s : Text) : Option (Text × Text) :=
  let s := s.dropWhile Text.isBlank
  match quotedTarget? '"' s, quotedTarget? '\'' s with
  | some found, _ => some found
  | none, some found => some found
  | none, none => (Text.cut? ")" s).map fun (target, r) => (Text.trimEnd target, r)

theorem quotedTarget?_suffix {quote : Char} {s t r : Text}
    (h : quotedTarget? quote s = some (t, r)) : r <:+ s := by
  cases s with
  | nil => simp [quotedTarget?] at h
  | cons c s =>
    simp only [quotedTarget?] at h
    split at h
    · obtain ⟨⟨a, b⟩, hc, h⟩ := Option.bind_eq_some_iff.1 h
      obtain ⟨r', hr, e⟩ := Option.map_eq_some_iff.1 h
      obtain ⟨rfl, rfl⟩ : a = t ∧ r' = r := by simpa using e
      have hb : b <:+ s := ⟨a ++ [quote], (Text.cut?_eq_some hc).symm⟩
      exact ((after?_suffix hr).trans hb).trans (List.suffix_cons c s)
    · simp at h

theorem target?_suffix {s t r : Text} (h : target? s = some (t, r)) : r <:+ s := by
  have hs : s.dropWhile Text.isBlank <:+ s := List.dropWhile_suffix Text.isBlank
  simp only [target?] at h
  split at h
  · rename_i e
    exact (quotedTarget?_suffix (e.trans h)).trans hs
  · rename_i e
    exact (quotedTarget?_suffix (e.trans h)).trans hs
  · obtain ⟨⟨a, b⟩, hc, e⟩ := Option.map_eq_some_iff.1 h
    obtain ⟨_, rfl⟩ : Text.trimEnd a = t ∧ b = r := by simpa using e
    exact List.IsSuffix.trans ⟨a ++ [')'], (Text.cut?_eq_some hc).symm⟩ hs

def url? (s : Text) : Option (Text × Text) :=
  (Text.dropStartUnder? Text.foldChar "url(" s).bind target?

theorem url?_length {s t r : Text} (h : url? s = some (t, r)) : r.length < s.length := by
  obtain ⟨u, hu, h⟩ := Option.bind_eq_some_iff.1 h
  have h1 := Text.dropStartUnder?_length hu
  have h2 := (target?_suffix h).length_le
  have h3 : ("url(" : Text).length = 4 := by decide
  omega

/-- The targets of the `url(...)` in a value. One without a closing parenthesis has none. -/
def targets : Text → List Text
  | [] => []
  | c :: s =>
    match _h : url? (c :: s) with
    | some (t, r) => t :: targets r
    | none => targets s
termination_by s => s.length
decreasing_by
  · exact url?_length _h
  · simp

def isForbidden (c : Char) : Bool :=
  c = '<' || c = '>' || c = '{' || c = '}' || c = ';' || c = '\\'

def isSafeValue (s : Text) : Bool :=
  !Text.isBlankText s && !s.any isForbidden && !containsConstruct s &&
    (targets s).all fun t => (Link.safeResource? true t).isSome

def isPropertyName (s : Text) : Bool :=
  match (match s with | '-' :: r => r | r => r) with
  | c :: r => c.isAlpha && r.all fun c => c.isAlphanum || c = '-'
  | [] => false

def inlineDeclaration? (s : Text) : Option (Text × Text) :=
  (Text.cut? ":" s).bind fun (property, value) =>
    let property := Text.lower (Text.trim property)
    let value := Text.trim value
    if isPropertyName property && isSafeValue value then some (property, value) else none

/-- The declarations of an inline style that may stay; none where nothing stays. -/
def cleanInline? (s : Text) : Option Text :=
  let kept := (Text.split ';' (strip s)).filterMap inlineDeclaration?
  if kept.isEmpty then none
  else some (Text.join "; " (kept.map fun (property, value) => property ++ ": " ++ value))

end Folio.Style
