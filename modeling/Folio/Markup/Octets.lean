import Folio.Markup.Token

set_option autoImplicit false

/-!
# Tokens of octets

The reader of tokens at work on a text in UTF-8. It goes by positions, looks for ASCII characters
only, and cuts slices out of the octets. A slice has to start and to end where a character does;
anything else is a fault that ends all reading. Each token ends behind its start: `lt_stop_of_next`.
-/
namespace Folio.Markup.Octets

abbrev Bytes := List UInt8

def encode (s : Text) : Bytes := s.flatMap String.utf8EncodeChar

def octet (c : Char) : UInt8 := UInt8.ofNat c.toNat

structure Spanned where
  token : Token
  start : Nat
  stop : Nat
deriving DecidableEq, Repr

/-- Why there is no answer: a slice cuts a character apart, or a tag breaks off. -/
inductive Fault where
  | panic
  | broken
deriving DecidableEq, Repr

theorem exists_of_map {α β ε : Type} {f : α → β} {a : Except ε α} {b : β} (h : a.map f = .ok b) :
    ∃ c, a = .ok c ∧ f c = b := by
  cases a with
  | error e => cases h
  | ok c => exact ⟨c, rfl, Except.ok.inj h⟩

variable (bytes : Bytes)

/-- Whether a character starts at a position or the text ends there. -/
def isBoundary (i : Nat) : Bool :=
  match bytes[i]? with
  | none => i = bytes.length
  | some b => i = 0 || b < 0x80 || 0xC0 ≤ b

def slice (i j : Nat) : Except Fault Text :=
  if i ≤ j && isBoundary bytes i && isBoundary bytes j then
    match ((bytes.drop i).take (j - i)).toByteArray.utf8Decode? with
    | some w => .ok w.toList
    | none => .error .panic
  else .error .panic

def advance (go : Nat → Bool) (i : Nat) : Nat :=
  if i < bytes.length ∧ go i = true then advance go (i + 1) else i
termination_by bytes.length - i

def skip (p : UInt8 → Bool) (i : Nat) : Nat := advance bytes (fun j => bytes[j]?.any p) i

def find? (needle : Bytes) (i : Nat) : Option Nat :=
  let j := advance bytes (fun k => !needle.isPrefixOf (bytes.drop k)) i
  if j < bytes.length then some j else none

def isSpace (b : UInt8) : Bool :=
  b = octet ' ' || b = octet '\t' || b = octet '\n' || b = octet '\r' || b = octet '\x0C'

def isLetter (b : UInt8) : Bool := (0x41 ≤ b && b ≤ 0x5A) || (0x61 ≤ b && b ≤ 0x7A)

def isNameOctet (b : UInt8) : Bool := !isSpace b && !(b = octet '>') && !(b = octet '/')

def isAttributeNameOctet (b : UInt8) : Bool := isNameOctet b && !(b = octet '=')

def isBareValueOctet (b : UInt8) : Bool := !isSpace b && !(b = octet '>')

def startsMarkup (i : Nat) : Bool :=
  match bytes[i + 1]? with
  | none => false
  | some b =>
    isLetter b || b = octet '!' || b = octet '?' ||
      (b = octet '/' && bytes[i + 2]?.any fun d => isLetter d || d = octet '>')

theorem le_advance (go : Nat → Bool) (i : Nat) : i ≤ advance bytes go i := by
  fun_induction advance bytes go i with
  | case1 i _ ih => omega
  | case2 i _ => exact Nat.le_refl i

theorem le_skip (p : UInt8 → Bool) (i : Nat) : i ≤ skip bytes p i := le_advance bytes _ i

variable {bytes} in
theorem of_find? {needle : Bytes} {i j : Nat} (h : find? bytes needle i = some j) :
    i ≤ j ∧ j < bytes.length := by
  have hle := le_advance bytes (fun k => !needle.isPrefixOf (bytes.drop k)) i
  unfold find? at h
  dsimp only at h
  split at h
  · rename_i hlt
    obtain rfl := Option.some.inj h
    exact ⟨hle, hlt⟩
  · cases h

/-- Passes over a gap between attributes, on the lookout for the slash of a tag that closes itself. -/
def gap (closing : Bool) (i : Nat) : Bool × Nat :=
  match _h : bytes[i]? with
  | none => (closing, i)
  | some b =>
    if isSpace b || b = octet '/' then
      gap (closing || (b = octet '/' && bytes[i + 1]? = some (octet '>'))) (i + 1)
    else (closing, i)
termination_by bytes.length - i
decreasing_by
  have := (List.getElem?_eq_some_iff.1 _h).1
  omega

def quoted (quote : UInt8) (i : Nat) : Except Fault (Option Text × Nat) :=
  match find? bytes [quote] i with
  | none => .error .broken
  | some close => (slice bytes i close).map fun v => (some v, close + 1)

/-- The value after an attribute name, and the position behind it. -/
def value (i : Nat) : Except Fault (Option Text × Nat) :=
  let j := skip bytes isSpace i
  if bytes[j]? = some (octet '=') then
    let j := skip bytes isSpace (j + 1)
    match bytes[j]? with
    | none => .error .broken
    | some b =>
      if b = octet '"' || b = octet '\'' then quoted bytes b (j + 1)
      else
        let stop := skip bytes isBareValueOctet j
        (slice bytes j stop).map fun v => (some v, stop)
  else .ok (none, i)

def add (seen : List Attribute) (a : Attribute) : List Attribute :=
  if seen.any fun b => b.name = a.name then seen else seen ++ [a]

theorem le_gap (closing : Bool) (i : Nat) : i ≤ (gap bytes closing i).2 := by
  fun_induction gap bytes closing i with
  | case1 => exact Nat.le_refl _
  | case2 closing i b _ _ ih => omega
  | case3 => exact Nat.le_refl _

section

variable {bytes} {i j : Nat} {v : Option Text}

theorem le_of_quoted {quote : UInt8} (h : quoted bytes quote i = .ok (v, j)) : i ≤ j := by
  unfold quoted at h
  split at h
  · cases h
  · rename_i close hclose
    have hfind := of_find? hclose
    obtain ⟨w, _, e⟩ := exists_of_map h
    obtain ⟨_, rfl⟩ := Prod.mk.inj e
    omega

theorem le_of_value (h : value bytes i = .ok (v, j)) : i ≤ j := by
  have hspace := le_skip bytes isSpace i
  have hagain := le_skip bytes isSpace (skip bytes isSpace i + 1)
  unfold value at h
  dsimp only at h
  split at h
  · generalize skip bytes isSpace (skip bytes isSpace i + 1) = k at hagain h
    split at h
    · cases h
    · split at h
      · have hquoted := le_of_quoted h
        omega
      · have hbare := le_skip bytes isBareValueOctet k
        obtain ⟨w, _, e⟩ := exists_of_map h
        obtain ⟨_, rfl⟩ := Prod.mk.inj e
        omega
  · obtain ⟨_, rfl⟩ : none = v ∧ i = j := by simpa using h
    exact Nat.le_refl i

end

def attributes (seen : List Attribute) (closing : Bool) (i : Nat) :
    Except Fault (List Attribute × Bool × Nat) :=
  match _hj : bytes[(gap bytes closing i).2]? with
  | none => .error .broken
  | some b =>
    if b = octet '>' then .ok (seen, (gap bytes closing i).1, (gap bytes closing i).2 + 1)
    else
      -- at least one octet is a name's, be it an equals sign
      let stop := skip bytes isAttributeNameOctet ((gap bytes closing i).2 + 1)
      match slice bytes (gap bytes closing i).2 stop with
      | .error e => .error e
      | .ok name =>
        match _hv : value bytes stop with
        | .error e => .error e
        | .ok (v, k) => attributes (add seen ⟨Text.lower name, v⟩) (gap bytes closing i).1 k
termination_by bytes.length - i
decreasing_by
  have h1 := le_gap bytes closing i
  have h2 := (List.getElem?_eq_some_iff.1 _hj).1
  have h3 := le_skip bytes isAttributeNameOctet ((gap bytes closing i).2 + 1)
  have h4 := le_of_value _hv
  omega

variable {bytes} in
theorem lt_of_attributes {seen l : List Attribute} {closing closing' : Bool} {i j : Nat}
    (h : attributes bytes seen closing i = .ok (l, closing', j)) : i < j := by
  fun_induction attributes bytes seen closing i with
  | case1 => cases h
  | case2 seen closing i _ =>
    have hgap := le_gap bytes closing i
    obtain ⟨_, _, rfl⟩ : seen = l ∧ _ = closing' ∧ (gap bytes closing i).2 + 1 = j := by simpa using h
    omega
  | case3 => cases h
  | case4 => cases h
  | case5 seen closing i b _ _ stop name _ v k hv ih =>
    have h1 := le_gap bytes closing i
    have h3 : (gap bytes closing i).2 + 1 ≤ stop := le_skip bytes _ _
    have h4 := le_of_value hv
    have h5 := ih h
    omega

def startTag (start : Nat) : Except Fault Spanned :=
  let i := skip bytes isNameOctet (start + 1)
  match slice bytes (start + 1) i with
  | .error e => .error e
  | .ok name =>
    match attributes bytes [] false i with
    -- a tag that breaks off takes in all that is left
    | .error .broken => .ok ⟨.bogus, start, bytes.length⟩
    | .error .panic => .error .panic
    | .ok (l, closing, stop) => .ok ⟨.startTag (Text.lower name) l closing, start, stop⟩

def endTag (start : Nat) : Except Fault Spanned :=
  let i := skip bytes isNameOctet (start + 2)
  match slice bytes (start + 2) i with
  | .error e => .error e
  | .ok name =>
    match find? bytes (encode ">") i with
    | none => .ok ⟨.bogus, start, bytes.length⟩
    | some close => .ok ⟨.endTag (Text.lower name), start, close + 1⟩

def comment (start : Nat) : Except Fault Spanned :=
  match find? bytes (encode "-->") (start + 4) with
  | none => .ok ⟨.bogus, start, bytes.length⟩
  | some close => (slice bytes (start + 4) close).map fun body => ⟨.comment body, start, close + 3⟩

def bogus (start : Nat) : Spanned :=
  match find? bytes (encode ">") start with
  | none => ⟨.bogus, start, bytes.length⟩
  | some close => ⟨.bogus, start, close + 1⟩

def markup (start : Nat) : Except Fault Spanned :=
  if (encode "<!--").isPrefixOf (bytes.drop start) then comment bytes start
  else if bytes[start + 1]? = some (octet '!') || bytes[start + 1]? = some (octet '?') then
    .ok (bogus bytes start)
  else if bytes[start + 1]? = some (octet '/') then
    if bytes[start + 2]?.any isLetter then endTag bytes start else .ok (bogus bytes start)
  else startTag bytes start

def opensAt (i : Nat) : Bool := bytes[i]? = some (octet '<') && startsMarkup bytes i

def plain (start : Nat) : Except Fault Spanned :=
  let stop := advance bytes (fun j => !opensAt bytes j) (start + 1)
  (slice bytes start stop).map fun s => ⟨.text s, start, stop⟩

def token (start : Nat) : Except Fault Spanned :=
  if opensAt bytes start then markup bytes start else plain bytes start

def lowerOctet (b : UInt8) : UInt8 := if 0x41 ≤ b && b ≤ 0x5A then b + 0x20 else b

/-- Whether the end tag of an element starts with the `</` at a position. -/
def closesAt (name : Text) (i : Nat) : Bool :=
  let stop := i + 2 + (encode name).length
  stop ≤ bytes.length &&
    ((bytes.drop (i + 2)).take (encode name).length).map lowerOctet = (encode name).map lowerOctet &&
    bytes[stop]?.all fun b => isSpace b || b = octet '>' || b = octet '/'

def findEndTag? (name : Text) (i : Nat) : Option Nat :=
  match _h : find? bytes (encode "</") i with
  | none => none
  | some j => if closesAt bytes name j then some j else findEndTag? name (j + 2)
termination_by bytes.length - i
decreasing_by
  have := of_find? _h
  omega

def rawEnd (name : Text) (i : Nat) : Nat :=
  if name = "plaintext" then bytes.length else (findEndTag? bytes name i).getD bytes.length

/-- The next token, if there is one; raw text where a raw-text element has just been opened. -/
def next (raw : Option Text) (i : Nat) : Except Fault (Option Spanned) :=
  if i < bytes.length then
    match raw with
    | none => (token bytes i).map some
    | some name =>
      let stop := rawEnd bytes name i
      if stop = i then (token bytes i).map some
      else (slice bytes i stop).map fun s => some ⟨.rawText s, i, stop⟩
  else .ok none

section

variable {bytes} {start : Nat} {x : Spanned}

theorem lt_stop_of_startTag (hs : start < bytes.length) (h : startTag bytes start = .ok x) :
    start < x.stop := by
  have hname := le_skip bytes isNameOctet (start + 1)
  unfold startTag at h
  dsimp only at h
  split at h
  · cases h
  · split at h
    · obtain rfl := Except.ok.inj h
      exact hs
    · cases h
    · rename_i l closing stop hl
      have hlt := lt_of_attributes hl
      obtain rfl := Except.ok.inj h
      dsimp only
      omega

theorem lt_stop_of_endTag (hs : start < bytes.length) (h : endTag bytes start = .ok x) :
    start < x.stop := by
  have hname := le_skip bytes isNameOctet (start + 2)
  unfold endTag at h
  dsimp only at h
  split at h
  · cases h
  · split at h
    · obtain rfl := Except.ok.inj h
      exact hs
    · rename_i close hclose
      have hle := of_find? hclose
      obtain rfl := Except.ok.inj h
      dsimp only
      omega

theorem lt_stop_of_comment (hs : start < bytes.length) (h : comment bytes start = .ok x) :
    start < x.stop := by
  unfold comment at h
  split at h
  · obtain rfl := Except.ok.inj h
    exact hs
  · rename_i close hclose
    have hle := of_find? hclose
    obtain ⟨body, _, rfl⟩ := exists_of_map h
    dsimp only
    omega

theorem lt_stop_bogus (hs : start < bytes.length) : start < (bogus bytes start).stop := by
  unfold bogus
  split
  · exact hs
  · rename_i close hclose
    exact Nat.lt_succ_of_le (of_find? hclose).1

theorem lt_stop_of_markup (hs : start < bytes.length) (h : markup bytes start = .ok x) :
    start < x.stop := by
  unfold markup at h
  split at h
  · exact lt_stop_of_comment hs h
  · split at h
    · obtain rfl := Except.ok.inj h
      exact lt_stop_bogus hs
    · split at h
      · split at h
        · exact lt_stop_of_endTag hs h
        · obtain rfl := Except.ok.inj h
          exact lt_stop_bogus hs
      · exact lt_stop_of_startTag hs h

theorem lt_stop_of_token (hs : start < bytes.length) (h : token bytes start = .ok x) :
    start < x.stop := by
  unfold token at h
  split at h
  · exact lt_stop_of_markup hs h
  · unfold plain at h
    dsimp only at h
    generalize hstop : advance bytes _ (start + 1) = stop at h
    have hle : start + 1 ≤ stop := hstop ▸ le_advance bytes _ _
    obtain ⟨s, _, rfl⟩ := exists_of_map h
    exact hle

theorem le_rawEnd {name : Text} (hs : start ≤ bytes.length) : start ≤ rawEnd bytes name start := by
  have hfound {i j : Nat} (h : findEndTag? bytes name i = some j) : i ≤ j := by
    fun_induction findEndTag? bytes name i with
    | case1 => cases h
    | case2 i j hj _ =>
      obtain rfl := Option.some.inj h
      exact (of_find? hj).1
    | case3 i j hj _ ih =>
      have h1 := of_find? hj
      have h2 := ih h
      omega
  unfold rawEnd
  split
  · exact hs
  · cases h : findEndTag? bytes name start with
    | none => exact hs
    | some j => exact hfound h

theorem lt_stop_of_next {raw : Option Text} (h : next bytes raw start = .ok (some x)) :
    start < bytes.length ∧ start < x.stop := by
  have htoken (hs : start < bytes.length) (h : (token bytes start).map some = .ok (some x)) :
      start < x.stop := by
    obtain ⟨y, hy, e⟩ := exists_of_map h
    obtain rfl := Option.some.inj e
    exact lt_stop_of_token hs hy
  unfold next at h
  split at h
  · rename_i hs
    refine ⟨hs, ?_⟩
    cases raw with
    | none => exact htoken hs h
    | some name =>
      have hle : start ≤ rawEnd bytes name start := le_rawEnd (Nat.le_of_lt hs)
      dsimp only at h
      split at h
      · exact htoken hs h
      · rename_i hne
        obtain ⟨s, _, e⟩ := exists_of_map h
        obtain rfl := Option.some.inj e
        dsimp only
        omega
  · cases h

end

def lexFrom (raw : Option Text) (i : Nat) : Except Fault (List Spanned) :=
  match _h : next bytes raw i with
  | .error e => .error e
  | .ok none => .ok []
  | .ok (some x) => (lexFrom (Lexer.rawAfter x.token) x.stop).map (x :: ·)
termination_by bytes.length - i
decreasing_by
  have := lt_stop_of_next _h
  omega

def lex : Except Fault (List Spanned) := lexFrom bytes none 0

end Folio.Markup.Octets
