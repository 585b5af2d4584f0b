import Folio.Text.Basic

set_option autoImplicit false

/-!
# White space and control characters

`isBlank` is the White_Space property: twenty-five characters in ten ranges. Trimming removes them
at the ends of a text and nowhere else.
-/
namespace Folio.Text

def blankRanges : List (Nat × Nat) :=
  [(0x09, 0x0D), (0x20, 0x20), (0x85, 0x85), (0xA0, 0xA0), (0x1680, 0x1680), (0x2000, 0x200A),
   (0x2028, 0x2029), (0x202F, 0x202F), (0x205F, 0x205F), (0x3000, 0x3000)]

def inRanges (ranges : List (Nat × Nat)) (n : Nat) : Bool :=
  ranges.any fun r => r.1 ≤ n && n ≤ r.2

def isBlank (c : Char) : Bool := inRanges blankRanges c.toNat

/-- Tab, line feed, form feed, carriage return and space: the white space of markup. -/
def isMarkupSpace (c : Char) : Bool :=
  c == ' ' || c == '\t' || c == '\n' || c == '\r' || c == '\x0c'

def isControl (c : Char) : Bool := c.toNat < 0x20 || (0x7F ≤ c.toNat && c.toNat ≤ 0x9F)

theorem isBlank_of_isMarkupSpace {c : Char} (h : isMarkupSpace c = true) : isBlank c = true := by
  simp only [isMarkupSpace, Bool.or_eq_true, beq_iff_eq] at h
  rcases h with (((h | h) | h) | h) | h <;> subst h <;> decide

def trimStart (s : Text) : Text := s.dropWhile isBlank

def trimEnd (s : Text) : Text := dropEndWhile isBlank s

def trim (s : Text) : Text := trimEnd (trimStart s)

def isBlankText (s : Text) : Bool := s.all isBlank

end Folio.Text
