set_option autoImplicit false

/-!
# Text

A text is the list of its characters, so every function on texts is a recursion on that list.
String literals stand for texts. Letter case here is that of the ASCII letters; the comparisons
that fold more live in `Folio.Text.Fold`.
-/
namespace Folio

abbrev Text := List Char

instance : Coe String Text := ⟨String.toList⟩

namespace Text

/-- What all characters of a text have is decided along the text, not over all characters. -/
instance (s : Text) (p : Char → Prop) [DecidablePred p] : Decidable (∀ c ∈ s, p c) :=
  List.decidableBAll p s

def lower (s : Text) : Text := s.map Char.toLower

def sameIgnoringCase (s t : Text) : Bool := lower s == lower t

def dropStart? : Text → Text → Option Text
  | [], s => some s
  | _ :: _, [] => none
  | p :: ps, c :: cs => if p = c then dropStart? ps cs else none

theorem dropStart?_eq_some {p s r : Text} (h : dropStart? p s = some r) : s = p ++ r := by
  induction p generalizing s with
  | nil => simpa [dropStart?] using h
  | cons a p ih =>
    cases s with
    | nil => simp [dropStart?] at h
    | cons c s =>
      simp only [dropStart?] at h
      split at h
      · rename_i e
        subst e
        simp [ih h]
      · simp at h

@[simp] theorem dropStart?_append (p r : Text) : dropStart? p (p ++ r) = some r := by
  induction p with
  | nil => rfl
  | cons a p ih => simp [dropStart?, ih]

def startsWith (p s : Text) : Bool := (dropStart? p s).isSome

def dropEnd? (p s : Text) : Option Text := (dropStart? p.reverse s.reverse).map List.reverse

def endsWith (p s : Text) : Bool := (dropEnd? p s).isSome

def cut? (p : Text) : Text → Option (Text × Text)
  | [] => if p.isEmpty then some ([], []) else none
  | c :: s =>
    match dropStart? p (c :: s) with
    | some r => some ([], r)
    | none => (cut? p s).map fun (a, b) => (c :: a, b)

theorem cut?_eq_some {p s a b : Text} (h : cut? p s = some (a, b)) : s = a ++ p ++ b := by
  induction s generalizing a with
  | nil =>
    simp only [cut?, List.isEmpty_iff] at h
    split at h
    · rename_i e
      obtain ⟨rfl, rfl⟩ : [] = a ∧ [] = b := by simpa using h
      simp [e]
    · simp at h
  | cons c s ih =>
    simp only [cut?] at h
    split at h
    · rename_i r hr
      obtain ⟨rfl, rfl⟩ : [] = a ∧ r = b := by simpa using h
      simpa using dropStart?_eq_some hr
    · obtain ⟨⟨a', b'⟩, h', e⟩ := Option.map_eq_some_iff.1 h
      obtain ⟨rfl, rfl⟩ : c :: a' = a ∧ b' = b := by simpa using e
      simp [ih h']

theorem cut?_append {d : Char} {p s : Text} (h : d ∉ s) (r : Text) :
    cut? (d :: p) (s ++ d :: (p ++ r)) = some (s, r) := by
  induction s with
  | nil =>
    have hd : dropStart? (d :: p) (d :: (p ++ r)) = some r := dropStart?_append (d :: p) r
    rw [List.nil_append, cut?, hd]
  | cons c s ih =>
    have hc : ¬ d = c := fun e => h (e ▸ List.mem_cons_self)
    have hs := ih fun hm => h (List.mem_cons_of_mem c hm)
    simp [cut?, dropStart?, hc, hs]

def split (d : Char) : Text → List Text
  | [] => [[]]
  | c :: s =>
    if c = d then [] :: split d s
    else
      match split d s with
      | [] => [[c]]
      | w :: ws => (c :: w) :: ws

theorem split_append {d : Char} {s : Text} (h : d ∉ s) (r : Text) :
    split d (s ++ d :: r) = s :: split d r := by
  induction s with
  | nil => rw [List.nil_append, split, if_pos rfl]
  | cons c s ih =>
    have hc : c ≠ d := fun e => h (e ▸ List.mem_cons_self)
    have hs := ih fun hm => h (List.mem_cons_of_mem c hm)
    rw [List.cons_append, split, if_neg hc, hs]

def join (sep : Text) (parts : List Text) : Text := sep.intercalate parts

def replaceChar (c : Char) (r : Text) (s : Text) : Text :=
  s.flatMap fun x => if x = c then r else [x]

def dropEndWhile (p : Char → Bool) (s : Text) : Text := (s.reverse.dropWhile p).reverse

def trimChar (c : Char) (s : Text) : Text := dropEndWhile (· == c) (s.dropWhile (· == c))

/-- The order of texts by code point. -/
def before : Text → Text → Bool
  | _, [] => false
  | [], _ :: _ => true
  | a :: s, b :: t => a < b || (a = b && before s t)

def byteLength : Text → Nat
  | [] => 0
  | c :: s => c.utf8Size + byteLength s

def ofNat (n : Nat) : Text := (Nat.toDigits 10 n)

def ofInt : Int → Text
  | .ofNat n => ofNat n
  | .negSucc n => '-' :: ofNat (n + 1)

def padded (width n : Nat) : Text := List.leftpad width '0' (ofNat n)

end Text

end Folio
