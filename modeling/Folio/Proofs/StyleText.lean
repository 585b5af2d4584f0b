import Folio.Proofs.Elements
import Folio.Proofs.Url
import Folio.Style.Hygiene

set_option autoImplicit false

/-!
# Text inside a style element

Style text without `</style` in it cannot end the element it stands in. The text of an author is made
so by breaking up every place where `</style` stands, and joining lines makes no new one.
-/
namespace Folio.Style

def IsClose (p : Text) : Prop := ∃ q : Text, p = "</" ++ q ∧ Text.lower q = "style"

def Closeless (s : Text) : Prop := ∀ p, IsClose p → ¬ p <:+: s

theorem IsClose.exists_cons {p : Text} (h : IsClose p) : ∃ r, p = '<' :: r := by
  obtain ⟨q, rfl, _⟩ := h
  exact ⟨'/' :: q, rfl⟩

theorem IsClose.not_mem {p : Text} (h : IsClose p) : '\n' ∉ p := by
  obtain ⟨q, rfl, hq⟩ := h
  intro hm
  rcases List.mem_append.1 hm with hm | hm
  · exact absurd hm (by decide)
  · have hlow : '\n'.toLower ∈ Text.lower q := List.mem_map_of_mem hm
    rw [hq] at hlow
    exact absurd hlow (by decide)

theorem closeless_of_not_mem {s : Text} (h : '<' ∉ s) : Closeless s := by
  intro p hp hin
  obtain ⟨r, rfl⟩ := hp.exists_cons
  exact h (hin.subset List.mem_cons_self)

theorem Closeless.mono {s t : Text} (h : Closeless t) (hs : s <:+: t) : Closeless s :=
  fun p hp hin => h p hp (hin.trans hs)

theorem closeless_cons {c : Char} {s : Text} :
    Closeless (c :: s) ↔ (∀ p, IsClose p → ¬ p <+: c :: s) ∧ Closeless s := by
  constructor
  · intro h
    exact ⟨fun p hp hin => h p hp hin.isInfix, h.mono (List.suffix_cons c s).isInfix⟩
  · intro h p hp hin
    exact (List.infix_cons_iff.1 hin).elim (h.1 p hp) (h.2 p hp)

theorem closeless_cons_of_ne {c : Char} {s : Text} (hc : c ≠ '<') (hs : Closeless s) :
    Closeless (c :: s) := by
  refine closeless_cons.2 ⟨fun p hp hin => ?_, hs⟩
  obtain ⟨r, rfl⟩ := hp.exists_cons
  exact hc (List.cons_prefix_cons.1 hin).1.symm

theorem closeless_append_line {s t : Text} (hs : Closeless s) (ht : Closeless t) :
    Closeless (s ++ '\n' :: t) := by
  induction s with
  | nil => exact closeless_cons_of_ne (by decide) ht
  | cons c s ih =>
    obtain ⟨hfirst, hrest⟩ := closeless_cons.1 hs
    refine closeless_cons.2 ⟨fun p hp hin => ?_, ih hrest⟩
    exact hfirst p hp (Text.prefix_of_prefix_append_cons hp.not_mem hin)

theorem closeless_join {parts : List Text} (h : ∀ s ∈ parts, Closeless s) :
    Closeless (Text.join "\n" parts) := by
  induction parts with
  | nil => exact closeless_of_not_mem (by simp [Text.join, List.intercalate])
  | cons s parts ih =>
    have hs := h s List.mem_cons_self
    cases parts with
    | nil => simpa [Text.join, List.intercalate] using hs
    | cons t parts =>
      rw [Text.join_cons_cons]
      exact closeless_append_line hs (ih fun u hu => h u (List.mem_cons_of_mem s hu))

theorem foldChar_of_toLower {c d : Char} (hd : d.toNat < 128) (h : c.toLower = d) :
    Text.foldChar c = d := by
  unfold Text.foldChar
  split
  · subst c
    rw [← h] at hd
    exact absurd hd (by decide)
  · split
    · subst c
      rw [← h] at hd
      exact absurd hd (by decide)
    · exact h

theorem dropStartUnder?_isSome (fold : Char → Char) {q s : Text} (h : q <+: s) :
    (Text.dropStartUnder? fold (q.map fold) s).isSome = true := by
  induction q generalizing s with
  | nil => rfl
  | cons a q ih =>
    cases s with
    | nil => simp at h
    | cons c s =>
      obtain ⟨rfl, hrest⟩ := List.cons_prefix_cons.1 h
      rw [List.map_cons, Text.dropStartUnder?, if_pos rfl]
      exact ih hrest

theorem foldChar_style {q : Text} (h : Text.lower q = "style") : q.map Text.foldChar = "style" := by
  have hascii : ∀ d ∈ ("style" : Text), d.toNat < 128 := by decide
  rw [← h, Text.lower]
  refine List.map_congr_left fun c hc => foldChar_of_toLower (hascii _ ?_) rfl
  rw [← h]
  exact List.mem_map_of_mem hc

theorem prefix_of_prefix_neutralizeClose {q s : Text} (hq : '<' ∉ q) (h : q <+: neutralizeClose s) :
    q <+: s := by
  induction q generalizing s with
  | nil => exact List.nil_prefix
  | cons a q ih =>
    have ha : a ≠ '<' := fun e => hq (e ▸ List.mem_cons_self)
    have hrest : '<' ∉ q := fun hm => hq (List.mem_cons_of_mem a hm)
    unfold neutralizeClose at h
    split at h
    · split at h
      · exact absurd (List.cons_prefix_cons.1 h).1 ha
      · exact absurd (List.cons_prefix_cons.1 h).1 ha
    · obtain ⟨hc, htail⟩ := List.cons_prefix_cons.1 h
      exact List.cons_prefix_cons.2 ⟨hc, ih hrest htail⟩
    · simp at h

theorem infix_of_infix_cons {a c : Char} {w s : Text} (hc : c ≠ a) (h : a :: w <:+: c :: s) :
    a :: w <:+: s :=
  (List.infix_cons_iff.1 h).resolve_left fun hstart => hc (List.cons_prefix_cons.1 hstart).1.symm

/-- Without `</style` in any letter case, the long s counted as one of the s. -/
def Unclosing (s : Text) : Prop :=
  ∀ q : Text, q.map Text.foldChar = "style" → ¬ '<' :: '/' :: q <:+: s

theorem Unclosing.closeless {s : Text} (h : Unclosing s) : Closeless s := by
  rintro p ⟨q, rfl, hq⟩
  exact h q (foldChar_style hq)

theorem unclosing_neutralizeClose (s : Text) : Unclosing (neutralizeClose s) := by
  intro q hq
  have hlt : '<' ∉ '/' :: q := by
    intro hm
    have hfold : Text.foldChar '<' ∈ q.map Text.foldChar :=
      List.mem_map_of_mem ((List.mem_cons.1 hm).resolve_left (by decide))
    rw [hq] at hfold
    exact absurd hfold (by decide)
  fun_induction neutralizeClose s with
  | case1 s _ ih =>
    intro hin
    have hrest : '<' :: '/' :: q <:+: '\\' :: '/' :: neutralizeClose s := by
      refine (List.infix_cons_iff.1 hin).resolve_left fun hstart => ?_
      have hslash := (List.cons_prefix_cons.1 (List.cons_prefix_cons.1 hstart).2).1
      exact absurd hslash (by decide)
    exact ih (infix_of_infix_cons (by decide) (infix_of_infix_cons (by decide) hrest))
  | case2 s hstyle ih =>
    intro hin
    rcases List.infix_cons_iff.1 hin with hin | hin
    · have hs := prefix_of_prefix_neutralizeClose hlt (List.cons_prefix_cons.1 hin).2
      have hsome := dropStartUnder?_isSome Text.foldChar (List.cons_prefix_cons.1 hs).2
      exact hstyle (hq ▸ hsome)
    · exact ih hin
  | case3 c s hne ih =>
    intro hin
    rcases List.infix_cons_iff.1 hin with hin | hin
    · obtain ⟨hc, htail⟩ := List.cons_prefix_cons.1 hin
      have hslash : ['/'] <+: neutralizeClose s := (List.prefix_append ['/'] q).trans htail
      obtain ⟨t, ht⟩ := prefix_of_prefix_neutralizeClose (by decide) hslash
      exact hne t hc.symm ht.symm
    · exact ih hin
  | case4 => simp

theorem closeless_neutralizeClose (s : Text) : Closeless (neutralizeClose s) :=
  (unclosing_neutralizeClose s).closeless

open Markup

theorem exists_close_of_closes {c : Char} {s : Text} (h : Lexer.closes "style" (c :: s) = true) :
    ∃ p, IsClose p ∧ p <+: c :: s := by
  obtain ⟨q, u, hq, hs, _⟩ := Lexer.exists_of_closes h
  exact ⟨"</" ++ q, ⟨q, rfl, hq⟩, u, hs.symm⟩

theorem closes_of_closeless {c : Char} {s : Text} (h : Closeless (c :: s)) (r : Text) :
    Lexer.closes "style" (c :: (s ++ "\n" ++ r)) = false := by
  refine Bool.eq_false_iff.2 fun hc => ?_
  obtain ⟨p, hp, hin⟩ := exists_close_of_closes hc
  rw [List.append_assoc] at hin
  exact (closeless_cons.1 h).1 p hp (Text.prefix_of_prefix_append_cons hp.not_mem hin)

/-- Such text is all the raw text before the end of its element. -/
theorem rawBody_of_closeless {w o : Text} (h : Closeless w)
    (ho : o = [] ∨ Lexer.closes "style" o = true) : Lexer.rawBody "style" (w ++ o) = (w, o) :=
  Lexer.rawBody_of_unclosed (by decide) (fun q hq => h _ ⟨q, rfl, hq⟩) ho

theorem hidden_of_closeless {s : Text} (h : Closeless s) : Hidden "style" (s ++ "\n") := by
  intro r
  induction s with
  | nil => exact hidden_inert (by decide) (by decide) r
  | cons c s ih =>
    rw [List.cons_append, List.cons_append,
      tagsFrom_cons_of_not_closes (by decide) (closes_of_closeless h r)]
    exact ih (closeless_cons.1 h).2

end Folio.Style
