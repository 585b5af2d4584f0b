import Folio.Proofs.StyleText
import Mathlib.Logic.Relation

set_option autoImplicit false

/-!
# Stripped style text

Taking a construct out can bring the two ends of another one together, so stripping goes through the
text in rounds. A round that finds something shortens the text by a construct at least, so the rounds
come to an end. What they leave holds no construct, and nothing but constructs was taken out. Breaking
up the ends of style elements afterwards brings none back.
-/
namespace Folio.Style

def startsConstruct (e : Text × Option Char) (s : Text) : Bool :=
  ((Text.dropStartUnder? Text.foldChar e.1 s).bind (complete? e.2)).isSome

theorem isSome_construct?_iff {s : Text} :
    (construct? s).isSome = true ↔ ∃ e ∈ constructs, startsConstruct e s = true := by
  rw [construct?, List.isSome_findSome?, List.any_eq_true]
  rfl

theorem after?_append_cons {c d : Char} (hblank : Text.isBlank d = false) (hd : d ≠ c) (v r : Text) :
    (after? c (v ++ d :: r)).isSome = (after? c v).isSome := by
  unfold after?
  rw [List.dropWhile_append]
  cases hv : v.dropWhile Text.isBlank with
  | nil => simp [hblank, hd]
  | cons a u =>
    simp only [List.isEmpty_cons, Bool.false_eq_true, ↓reduceIte, List.cons_append]
    split <;> rfl

/-- A character that no construct reaches over. -/
def Divides (d : Char) : Prop :=
  Text.isBlank d = false ∧ ∀ e ∈ constructs, Text.foldChar d ∉ e.1 ∧ e.2 ≠ some d

instance (d : Char) : Decidable (Divides d) := inferInstanceAs (Decidable (_ ∧ _))

section

variable {d : Char} (hd : Divides d)
include hd

theorem startsConstruct_divided {e : Text × Option Char} (he : e ∈ constructs) (w r : Text) :
    startsConstruct e (w ++ d :: r) = startsConstruct e w := by
  obtain ⟨hword, hlast⟩ := hd.2 e he
  obtain ⟨word, last⟩ := e
  rw [startsConstruct, startsConstruct, Text.dropStartUnder?_append_cons hword]
  cases Text.dropStartUnder? Text.foldChar word w with
  | none => rfl
  | some v =>
    cases last with
    | none => rfl
    | some c => exact after?_append_cons hd.1 (fun e => hlast (congrArg some e.symm)) v r

theorem isSome_construct?_divided (w r : Text) :
    (construct? (w ++ d :: r)).isSome = (construct? w).isSome := by
  rw [Bool.eq_iff_iff, isSome_construct?_iff, isSome_construct?_iff]
  constructor
  · rintro ⟨e, he, h⟩
    exact ⟨e, he, startsConstruct_divided hd he w r ▸ h⟩
  · rintro ⟨e, he, h⟩
    exact ⟨e, he, (startsConstruct_divided hd he w r).trans h⟩

theorem containsConstruct_divided (w r : Text) :
    containsConstruct (w ++ d :: r) = (containsConstruct w || containsConstruct r) := by
  induction w with
  | nil =>
    have h : (construct? (d :: r)).isSome = false := isSome_construct?_divided hd [] r
    rw [List.nil_append, containsConstruct, containsConstruct, h]
  | cons c w ih =>
    have h : (construct? (c :: (w ++ d :: r))).isSome = (construct? (c :: w)).isSome :=
      isSome_construct?_divided hd (c :: w) r
    rw [List.cons_append, containsConstruct, h, ih, containsConstruct, Bool.or_assoc]

end

theorem containsConstruct_iff {s : Text} : containsConstruct s = true ↔
    ∃ u, u <:+ s ∧ ∃ e ∈ constructs, startsConstruct e u = true := by
  induction s with
  | nil =>
    refine iff_of_false Bool.false_ne_true ?_
    rintro ⟨u, hu, h⟩
    rw [List.suffix_nil.1 hu, ← isSome_construct?_iff] at h
    exact Bool.false_ne_true h
  | cons c s ih =>
    rw [containsConstruct, Bool.or_eq_true, ih, isSome_construct?_iff]
    constructor
    · rintro (h | ⟨u, hu, h⟩)
      · exact ⟨c :: s, List.suffix_refl _, h⟩
      · exact ⟨u, hu.trans (List.suffix_cons c s), h⟩
    · rintro ⟨u, hu, h⟩
      rcases List.suffix_cons_iff.1 hu with rfl | hu
      · exact .inl h
      · exact .inr ⟨u, hu, h⟩

/-- The second text is the first with a construct taken out, wherever that starts. -/
inductive Excises : Text → Text → Prop where
  | here {s r : Text} (h : construct? s = some r) : Excises s r
  | later (c : Char) {s r : Text} (h : Excises s r) : Excises (c :: s) (c :: r)

theorem exists_of_construct? {s r : Text} (h : construct? s = some r) :
    ∃ q, s = q ++ r ∧ 7 ≤ q.length := by
  have hwords : ∀ e ∈ constructs, 7 ≤ e.1.length := by decide
  obtain ⟨⟨word, last⟩, he, h⟩ := List.exists_of_findSome?_eq_some h
  obtain ⟨t, ht, hr⟩ := Option.bind_eq_some_iff.1 h
  have hword : 7 ≤ word.length := hwords _ he
  obtain ⟨q, rfl, rfl⟩ := Text.dropStartUnder?_eq_some ht
  obtain ⟨p, rfl⟩ := complete?_suffix hr
  refine ⟨q ++ p, (List.append_assoc q p r).symm, ?_⟩
  rw [List.length_map] at hword
  rw [List.length_append]
  omega

theorem Excises.sublist {s t : Text} (h : Excises s t) : t.Sublist s := by
  induction h with
  | here h =>
    obtain ⟨q, rfl, _⟩ := exists_of_construct? h
    exact List.sublist_append_right q _
  | later c _ ih => exact ih.cons_cons c

theorem Excises.length {s t : Text} (h : Excises s t) : t.length + 7 ≤ s.length := by
  induction h with
  | here h =>
    obtain ⟨q, rfl, hq⟩ := exists_of_construct? h
    rw [List.length_append]
    omega
  | later c _ ih =>
    simp only [List.length_cons]
    omega

section

open Relation

variable {s t : Text} (h : ReflTransGen Excises s t)
include h

theorem sublist_of_excises : t.Sublist s := by
  induction h with
  | refl => exact List.Sublist.refl s
  | tail _ hstep ih => exact hstep.sublist.trans ih

theorem length_of_excises : t = s ∨ t.length + 7 ≤ s.length := by
  rcases h.cases_tail with rfl | ⟨u, hu, hstep⟩
  · exact .inl rfl
  · have hlen := hstep.length
    have hle := (sublist_of_excises hu).length_le
    exact .inr (by omega)

end

theorem excises_stripOnce (s : Text) : Relation.ReflTransGen Excises s (stripOnce s) := by
  fun_induction stripOnce s with
  | case1 => exact .refl
  | case2 c s r h ih => exact .head (.here h) ih
  | case3 c s _ ih => exact ih.lift (c :: ·) fun _ _ h => h.later c

theorem excises_strip (s : Text) : Relation.ReflTransGen Excises s (strip s) := by
  fun_induction strip s with
  | case1 s _ ih => exact (excises_stripOnce s).trans ih
  | case2 s _ => exact .refl

theorem stripOnce_eq_self_iff {s : Text} : stripOnce s = s ↔ containsConstruct s = false := by
  constructor
  · intro h
    refine Bool.eq_false_iff.2 fun hc => ?_
    have hlt := stripOnce_length_lt hc
    rw [h] at hlt
    exact Nat.lt_irrefl _ hlt
  · intro h
    fun_induction stripOnce s with
    | case1 => rfl
    | case2 c s r hr _ => simp [containsConstruct, hr] at h
    | case3 c s _ ih =>
      rw [containsConstruct, Bool.or_eq_false_iff] at h
      rw [ih h.2]

/-- The rounds that a text goes through until one changes nothing: so many before that one, and the text
    they end with. -/
inductive Rounds : Nat → Text → Text → Prop where
  | last {s : Text} (h : stripOnce s = s) : Rounds 0 s s
  | next {n : Nat} {s t : Text} (h : stripOnce s ≠ s) (rest : Rounds n (stripOnce s) t) :
    Rounds (n + 1) s t

theorem exists_rounds (s : Text) :
    ∃ n, Rounds n s (strip s) ∧ 7 * n + (strip s).length ≤ s.length := by
  fun_induction strip s with
  | case1 s hc ih =>
    obtain ⟨n, hn, hlen⟩ := ih
    have hne : stripOnce s ≠ s := by
      rw [Ne, stripOnce_eq_self_iff, hc]
      exact Bool.noConfusion
    -- a round that changes something takes a construct out
    have hround := (length_of_excises (excises_stripOnce s)).resolve_left hne
    exact ⟨n + 1, .next hne hn, by omega⟩
  | case2 s hc =>
    have hrest : stripOnce s = s := stripOnce_eq_self_iff.2 (by simpa using hc)
    exact ⟨0, .last hrest, by simp⟩

theorem strip_eq_self_iff {s : Text} : strip s = s ↔ containsConstruct s = false := by
  refine ⟨fun h => h ▸ containsConstruct_strip s, fun h => ?_⟩
  rw [strip, dif_neg (by simp [h])]

theorem containsConstruct_neutralizeClose (w s : Text) :
    containsConstruct (w ++ neutralizeClose s) = containsConstruct (w ++ s) := by
  have hopen : Divides '<' := by decide
  have hslash : Divides '/' := by decide
  have hbackslash : Divides '\\' := by decide
  fun_induction neutralizeClose s generalizing w with
  | case1 s _ ih =>
    have hs : containsConstruct (neutralizeClose s) = containsConstruct s := ih []
    have hnew (r : Text) : containsConstruct ('\\' :: '/' :: r) = containsConstruct r :=
      (containsConstruct_divided hbackslash [] _).trans (containsConstruct_divided hslash [] r)
    have hold : containsConstruct ('/' :: s) = containsConstruct s :=
      containsConstruct_divided hslash [] s
    rw [containsConstruct_divided hopen, containsConstruct_divided hopen, hnew, hold, hs]
  | case2 s _ ih =>
    have hs : containsConstruct (neutralizeClose ('/' :: s)) = containsConstruct ('/' :: s) := ih []
    rw [containsConstruct_divided hopen, containsConstruct_divided hopen, hs]
  | case3 c s _ ih =>
    have hs := ih (w ++ [c])
    rwa [List.append_assoc, List.append_assoc] at hs
  | case4 => rfl

/-- Stripping comes to an end, after one round at most for every seven characters that it takes out and
    one that changes nothing. Constructs are all it takes out, and none is left; nor is there one, or the
    end of a style element, once those are broken up. -/
theorem strip_comes_to_rest (s : Text) :
    (∃ n, Rounds n s (strip s) ∧ 7 * n + (strip s).length ≤ s.length) ∧
      containsConstruct (strip s) = false ∧
      Relation.ReflTransGen Excises s (strip s) ∧ (strip s).Sublist s ∧
      strip (strip s) = strip s ∧ (strip s = s ↔ containsConstruct s = false) ∧
      containsConstruct (neutralizeClose (strip s)) = false ∧ Unclosing (neutralizeClose (strip s)) := by
  have hclean := containsConstruct_strip s
  have hbroken : containsConstruct (neutralizeClose (strip s)) = false :=
    (containsConstruct_neutralizeClose [] (strip s)).trans hclean
  exact ⟨exists_rounds s, hclean, excises_strip s, sublist_of_excises (excises_strip s),
    strip_eq_self_iff.2 hclean, strip_eq_self_iff, hbroken, unclosing_neutralizeClose _⟩

example : strip "@imp@importort url(x)" = " url(x)" := by decide +kernel

end Folio.Style
