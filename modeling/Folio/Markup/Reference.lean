import Folio.Text.Fold

set_option autoImplicit false

/-!
# Character references

`escape` writes the five characters that markup reads as its own as references, and
`escapeAttribute` the backtick besides. `decode` reads every numeric reference, whose semicolon may
be missing, and nine named ones; any other `&` stands for itself. `respell` brings text that still
carries its references into a form that is safe to write: what `decode` knows is decoded and
escaped again, any other well-formed named reference is kept.
-/
namespace Folio.Markup

def escapeChar : Char → Text
  | '&' => "&amp;"
  | '<' => "&lt;"
  | '>' => "&gt;"
  | '"' => "&quot;"
  | '\'' => "&#39;"
  | c => [c]

def escape (s : Text) : Text := s.flatMap escapeChar

def guardBacktick (s : Text) : Text := Text.replaceChar '`' "&#96;" s

def escapeAttribute (s : Text) : Text := guardBacktick (escape s)

def replacement : Char := '\uFFFD'

def charOfCode (n : Nat) : Char :=
  if n = 0 then replacement else if n.isValidChar then Char.ofNat n else replacement

def isHexDigit (c : Char) : Bool :=
  c.isDigit || ('a' ≤ c && c ≤ 'f') || ('A' ≤ c && c ≤ 'F')

def hexValue (c : Char) : Nat :=
  if c.isDigit then c.toNat - '0'.toNat else c.toLower.toNat - 'a'.toNat + 10

def codeOf (radix : Nat) (ds : Text) : Nat := ds.foldl (fun n c => radix * n + hexValue c) 0

def dropSemicolon : Text → Text
  | ';' :: s => s
  | s => s

def digits? (radix : Nat) (isDigit : Char → Bool) (s : Text) : Option (Char × Text) :=
  let ds := s.takeWhile isDigit
  if ds.isEmpty then none
  else some (charOfCode (codeOf radix ds), dropSemicolon (s.dropWhile isDigit))

def numeric? : Text → Option (Char × Text)
  | 'x' :: s => digits? 16 isHexDigit s
  | 'X' :: s => digits? 16 isHexDigit s
  | s => digits? 10 Char.isDigit s

/-- The names, their characters, and whether the semicolon is required. -/
def names : List (Text × Char × Bool) :=
  [("amp", '&', false), ("lt", '<', false), ("gt", '>', false), ("quot", '"', false),
   ("apos", '\'', true), ("nbsp", '\u00a0', false), ("colon", ':', true), ("tab", '\t', true),
   ("newline", '\n', true)]

def named? (s : Text) : Option (Char × Text) :=
  names.findSome? fun (name, c, closed) =>
    match Text.dropStartUnder? Char.toLower name s with
    | some (';' :: r) => some (c, r)
    | some r => if closed then none else some (c, r)
    | none => none

def reference? : Text → Option (Char × Text)
  | '#' :: s => numeric? s
  | s => named? s

theorem length_dropSemicolon (s : Text) : (dropSemicolon s).length ≤ s.length := by
  unfold dropSemicolon
  split <;> simp

theorem digits?_length {radix : Nat} {isDigit : Char → Bool} {s r : Text} {c : Char}
    (h : digits? radix isDigit s = some (c, r)) : r.length ≤ s.length := by
  simp only [digits?] at h
  split at h
  · simp at h
  · obtain ⟨_, rfl⟩ : charOfCode _ = c ∧ dropSemicolon _ = r := by simpa using h
    exact Nat.le_trans (length_dropSemicolon _) (List.dropWhile_suffix _).length_le

theorem named?_length {s r : Text} {c : Char} (h : named? s = some (c, r)) : r.length ≤ s.length := by
  obtain ⟨⟨name, d, closed⟩, _, h⟩ := List.exists_of_findSome?_eq_some h
  dsimp only at h
  split at h
  · rename_i t ht
    have := Text.dropStartUnder?_length ht
    obtain ⟨_, rfl⟩ : d = c ∧ t = r := by simpa using h
    simp only [List.length_cons] at this
    omega
  · rename_i t ht _
    split at h
    · simp at h
    · have := Text.dropStartUnder?_length ‹_›
      simp_all
      omega
  · simp at h

theorem reference?_length {s r : Text} {c : Char} (h : reference? s = some (c, r)) :
    r.length ≤ s.length := by
  unfold reference? at h
  split at h
  · unfold numeric? at h
    split at h <;> have := digits?_length h <;> simp only [List.length_cons] <;> omega
  · exact named?_length h

def decode : Text → Text
  | [] => []
  | c :: s =>
    if c = '&' then
      match _h : reference? s with
      | some (d, r) => d :: decode r
      | none => '&' :: decode s
    else c :: decode s
termination_by s => s.length
decreasing_by
  all_goals simp only [List.length_cons]
  · have := reference?_length _h
    omega
  all_goals omega

/-- A name of two to thirty-two letters and digits, a letter first, and its semicolon; the name with
    the semicolon, and the text after it. -/
def spelled? (s : Text) : Option (Text × Text) :=
  let name := s.takeWhile Char.isAlphanum
  match s.dropWhile Char.isAlphanum with
  | ';' :: r =>
    if (name.head?.any Char.isAlpha) && 2 ≤ name.length && name.length ≤ 32
    then some (name ++ ";", r) else none
  | _ => none

theorem spelled?_eq_some {s n r : Text} (h : spelled? s = some (n, r)) : s = n ++ r := by
  simp only [spelled?] at h
  split at h
  · rename_i t ht
    split at h
    · obtain ⟨rfl, rfl⟩ : _ ∧ t = r := by simpa using h
      have := List.takeWhile_append_dropWhile (p := Char.isAlphanum) (l := s)
      rw [ht] at this
      simpa using this.symm
    · simp at h
  · simp at h

/-- What an ampersand at the head of a text is written as, and the text after the reference. A
    spelled name is kept unless `decode` reads just as much of it. -/
def respellReference (s : Text) : Text × Text :=
  match reference? s, spelled? s with
  | some (c, r), some (name, t) =>
    if t.length < r.length then ('&' :: name, t) else (escapeChar c, r)
  | none, some (name, t) => ('&' :: name, t)
  | some (c, r), none => (escapeChar c, r)
  | none, none => ("&amp;", s)

theorem respellReference_length (s : Text) : (respellReference s).2.length ≤ s.length := by
  have spelled {n r : Text} (h : spelled? s = some (n, r)) : r.length ≤ s.length := by
    rw [spelled?_eq_some h]
    simp
  unfold respellReference
  split
  · split
    · exact spelled ‹_›
    · exact reference?_length ‹_›
  · exact spelled ‹_›
  · exact reference?_length ‹_›
  · exact Nat.le_refl _

def respell : Text → Text
  | [] => []
  | c :: s =>
    if c = '&' then (respellReference s).1 ++ respell (respellReference s).2
    else escapeChar c ++ respell s
termination_by s => s.length
decreasing_by
  all_goals simp only [List.length_cons]
  · have := respellReference_length s
    omega
  · omega

end Folio.Markup
