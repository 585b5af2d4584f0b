import Folio.Markup.Policy

set_option autoImplicit false

/-!
# ASCII characters

The characters of tag names and of identifiers are ASCII, so what holds of them is found by going
through the 128 characters.
-/
namespace Folio.Text

theorem forall_ascii {P : Char → Prop} [DecidablePred P] (h : ∀ n : Fin 128, P (Char.ofNat n))
    {c : Char} (hc : c.toNat < 128) : P c := by
  simpa using h ⟨c.toNat, hc⟩

theorem toNat_lt_of_isAlphanum {c : Char} (h : c.isAlphanum = true) : c.toNat < 128 := by
  unfold Char.isAlphanum Char.isAlpha Char.isUpper Char.isLower Char.isDigit at h
  simp only [Bool.or_eq_true, Bool.and_eq_true, decide_eq_true_eq, ge_iff_le,
    UInt32.le_iff_toNat_le] at h
  change c.val.toNat < 128
  have hA : 'Z'.val.toNat = 90 := rfl
  have hz : 'z'.val.toNat = 122 := rfl
  have h9 : '9'.val.toNat = 57 := rfl
  omega

theorem isAlpha_of_isLower {c : Char} (h : c.isLower = true) : c.isAlpha = true := by
  unfold Char.isAlpha
  rw [h, Bool.or_true]

theorem toLower_of_not_ascii {c : Char} (h : ¬ c.toNat < 128) : c.toLower = c := by
  unfold Char.toLower
  split
  · rename_i hu
    have hle : c.val.toNat ≤ 'Z'.val.toNat := UInt32.le_iff_toNat_le.1 hu.2
    have hz : 'Z'.val.toNat = 90 := rfl
    have hc : c.toNat = c.val.toNat := rfl
    omega
  · rfl

theorem congr_toLower {α : Type} [DecidableEq α] {f : Char → α}
    (h : ∀ n : Fin 128, f (Char.ofNat n).toLower = f (Char.ofNat n)) (c : Char) :
    f c.toLower = f c := by
  by_cases hc : c.toNat < 128
  · exact forall_ascii (P := fun c => f c.toLower = f c) h hc
  · rw [toLower_of_not_ascii hc]

theorem toLower_toLower (c : Char) : c.toLower.toLower = c.toLower := congr_toLower (by decide) c

theorem lower_lower (s : Text) : lower (lower s) = lower s := by
  rw [lower, lower, List.map_map]
  exact List.map_congr_left fun c _ => toLower_toLower c

end Folio.Text

namespace Folio.Markup

def isTagChar (c : Char) : Bool := c.isLower || c.isDigit || c = '-'

theorem toNat_lt_of_isTagChar {c : Char} (h : isTagChar c = true) : c.toNat < 128 := by
  simp only [isTagChar, Bool.or_eq_true, decide_eq_true_eq] at h
  rcases h with (h | h) | rfl
  · exact Text.toNat_lt_of_isAlphanum (by simp [Char.isAlphanum, Text.isAlpha_of_isLower h])
  · exact Text.toNat_lt_of_isAlphanum (by simp [Char.isAlphanum, h])
  · decide

theorem isTagChar_spec {c : Char} (h : isTagChar c = true) :
    Lexer.isNameChar c = true ∧ c.toLower = c ∧ c ≠ '<' ∧ c ≠ '>' :=
  Text.forall_ascii (P := fun c => isTagChar c = true →
    Lexer.isNameChar c = true ∧ c.toLower = c ∧ c ≠ '<' ∧ c ≠ '>') (by decide)
    (toNat_lt_of_isTagChar h) h

theorem isTagName_iff {tag : Text} :
    isTagName tag = true ↔ ∃ c s, tag = c :: s ∧ c.isLower = true ∧ ∀ d ∈ tag, isTagChar d = true := by
  constructor
  · intro h
    cases tag with
    | nil => simp [isTagName] at h
    | cons c s =>
      obtain ⟨hc, hs⟩ : c.isLower = true ∧ s.all isTagChar = true := by
        simpa [isTagName, isTagChar] using h
      refine ⟨c, s, rfl, hc, ?_⟩
      intro d hd
      rcases List.mem_cons.1 hd with rfl | hd
      · simp [isTagChar, hc]
      · exact List.all_eq_true.1 hs d hd
  · rintro ⟨c, s, rfl, hc, h⟩
    have hs : s.all isTagChar = true :=
      List.all_eq_true.2 fun d hd => h d (List.mem_cons_of_mem c hd)
    simpa [isTagName, isTagChar, hc] using hs

theorem isTagChar_of_isTagName {tag : Text} (h : isTagName tag = true) :
    ∀ d ∈ tag, isTagChar d = true := by
  obtain ⟨_, _, _, _, hs⟩ := isTagName_iff.1 h
  exact hs

theorem lower_of_isTagName {tag : Text} (h : isTagName tag = true) : Text.lower tag = tag := by
  have hs := isTagChar_of_isTagName h
  exact (List.map_congr_left fun c hc => (isTagChar_spec (hs c hc)).2.1).trans (List.map_id tag)

theorem not_mem_open_of_isTagName {tag : Text} (h : isTagName tag = true) : '<' ∉ tag :=
  fun hm => (isTagChar_spec (isTagChar_of_isTagName h _ hm)).2.2.1 rfl

def isAttributeChar (c : Char) : Bool :=
  c.isAlphanum || c = '-' || c = '_' || c = ':' || c = '.'

theorem toNat_lt_of_isAttributeChar {c : Char} (h : isAttributeChar c = true) : c.toNat < 128 := by
  simp only [isAttributeChar, Bool.or_eq_true, decide_eq_true_eq] at h
  rcases h with (((h | rfl) | rfl) | rfl) | rfl
  · exact Text.toNat_lt_of_isAlphanum h
  all_goals decide

theorem isAttributeChar_spec {c : Char} (h : isAttributeChar c = true) :
    Lexer.isAttributeNameChar c = true ∧ c ≠ '<' :=
  Text.forall_ascii
    (P := fun c => isAttributeChar c = true → Lexer.isAttributeNameChar c = true ∧ c ≠ '<')
    (by decide) (toNat_lt_of_isAttributeChar h) h

theorem isAttributeName_iff {name : Text} :
    isAttributeName name = true ↔ name ≠ [] ∧ ∀ c ∈ name, isAttributeChar c = true := by
  simp [isAttributeName, isAttributeChar]

end Folio.Markup
