import Folio.Json.Reader
import Folio.Proofs.Keys
import Folio.Proofs.Shortest

set_option autoImplicit false

/-!
# What JSON text can spell

A value starts with a character that is no white space, so blank text spells none; and every number that is
read has been rounded to a double.
-/
namespace Folio.Json

namespace Reader

def StartsInk (s : Text) : Prop := ∃ c ∈ s.head?, Text.isBlank c = false

theorem startsInk_append {p : Text} (h : StartsInk p) (r : Text) : StartsInk (p ++ r) := by
  obtain ⟨c, hc, hblank⟩ := h
  refine ⟨c, ?_, hblank⟩
  rw [List.head?_append, Option.mem_def.1 hc]
  rfl

theorem spelling?_of_not_digit {c : Char} (hminus : c ≠ '-') (hdigit : ¬ c.isDigit = true) (s : Text) :
    spelling? (c :: s) = none := by
  have hsign : minus (c :: s) = (false, c :: s) := by
    unfold minus
    split
    · rename_i e
      exact absurd (List.cons.inj e).1 hminus
    · rfl
  simp [spelling?, hsign, Numeral.digits_of_not_digit hdigit]

theorem startsInk_of_spelling? {s : Text} {found : Spelling × Text} (h : spelling? s = some found) :
    StartsInk s := by
  cases s with
  | nil => exact absurd h.symm (Option.some_ne_none found)
  | cons c s =>
    refine ⟨c, rfl, ?_⟩
    by_cases hminus : c = '-'
    · subst hminus
      decide
    · by_cases hdigit : c.isDigit = true
      · have hascii : c.toNat < 128 := Text.toNat_lt_of_isAlphanum (by simp [Char.isAlphanum, hdigit])
        exact Text.forall_ascii (P := fun c => c.isDigit = true → Text.isBlank c = false) (by decide)
          hascii hdigit
      · rw [spelling?_of_not_digit hminus hdigit] at h
        exact absurd h.symm (Option.some_ne_none found)

theorem startsInk_of_scalar? {s : Text} {found : Json × Text} (h : scalar? s = some found) :
    StartsInk s := by
  have hword {p r : Text} (hp : StartsInk p) (h : Text.dropStart? p s = some r) : StartsInk s := by
    rw [Text.dropStart?_eq_some h]
    exact startsInk_append hp r
  unfold scalar? at h
  split at h
  · rename_i hnull
    exact hword ⟨'n', rfl, by decide⟩ hnull
  · rename_i htrue _
    exact hword ⟨'t', rfl, by decide⟩ htrue
  · rename_i hfalse _ _
    exact hword ⟨'f', rfl, by decide⟩ hfalse
  · split at h
    · exact ⟨'"', rfl, by decide⟩
    · obtain ⟨_, hnumber, _⟩ := Option.map_eq_some_iff.1 h
      obtain ⟨_, hspelling, _⟩ := Option.bind_eq_some_iff.1 hnumber
      exact startsInk_of_spelling? hspelling

theorem startsInk_of_value? {depth : Nat} {s : Text} {found : Json × Text}
    (h : value? depth s = some found) : StartsInk s := by
  cases depth with
  | zero => exact startsInk_of_scalar? h
  | succ depth =>
    unfold value? at h
    split at h
    · exact ⟨'[', rfl, by decide⟩
    · exact ⟨'\x7b', rfl, by decide⟩
    · exact startsInk_of_scalar? h

theorem forall_of_items? {value? : Text → Option (Json × Text)} {P : Json → Prop}
    (hvalue : ∀ {s v r}, value? s = some (v, r) → P v) {fuel : Nat} {s r : Text} {items : List Json}
    (h : items? value? fuel s = some (items, r)) : ∀ v ∈ items, P v := by
  induction fuel generalizing s items r with
  | zero => cases h
  | succ fuel ih =>
    obtain ⟨⟨item, t⟩, hitem, h⟩ := Option.bind_eq_some_iff.1 h
    dsimp only at h
    split at h
    · obtain ⟨⟨more, u⟩, hmore, hitems⟩ := Option.map_eq_some_iff.1 h
      obtain rfl := (Prod.mk.inj hitems).1
      exact List.forall_mem_cons.2 ⟨hvalue hitem, ih hmore⟩
    · obtain rfl := (Prod.mk.inj (Option.some.inj h)).1
      exact List.forall_mem_singleton.2 (hvalue hitem)
    · cases h

theorem forall_of_fields? {value? : Text → Text → Option (Json × Text)} {P : Json → Prop}
    (hvalue : ∀ {key s v r}, value? key s = some (v, r) → P v) {fuel : Nat} {s r : Text} {fields : Fields}
    (h : fields? value? fuel s = some (fields, r)) : ∀ f ∈ fields, P f.2 := by
  have hfield : ∀ {s t : Text} {f : Text × Json}, field? value? s = some (f, t) → P f.2 := by
    intro s t f h
    obtain ⟨⟨key, u⟩, -, h⟩ := Option.bind_eq_some_iff.1 h
    dsimp only at h
    split at h
    · obtain ⟨⟨v, w⟩, hv, hf⟩ := Option.map_eq_some_iff.1 h
      obtain rfl := (Prod.mk.inj hf).1
      exact hvalue hv
    · cases h
  induction fuel generalizing s fields r with
  | zero => cases h
  | succ fuel ih =>
    obtain ⟨⟨f, t⟩, hf, h⟩ := Option.bind_eq_some_iff.1 h
    dsimp only at h
    split at h
    · obtain ⟨⟨more, u⟩, hmore, hfields⟩ := Option.map_eq_some_iff.1 h
      obtain rfl := (Prod.mk.inj hfields).1
      exact List.forall_mem_cons.2 ⟨hfield hf, ih hmore⟩
    · obtain rfl := (Prod.mk.inj (Option.some.inj h)).1
      exact List.forall_mem_singleton.2 (hfield hf)
    · cases h

theorem proper_scalar? {s r : Text} {v : Json} (h : scalar? s = some (v, r)) {x : Double} (hx : Has x v) :
    x.Proper := by
  unfold scalar? at h
  split at h
  · obtain rfl := (Prod.mk.inj (Option.some.inj h)).1
    cases hx
  · obtain rfl := (Prod.mk.inj (Option.some.inj h)).1
    cases hx
  · obtain rfl := (Prod.mk.inj (Option.some.inj h)).1
    cases hx
  · split at h
    · obtain ⟨_, _, h⟩ := Option.map_eq_some_iff.1 h
      obtain rfl := (Prod.mk.inj h).1
      cases hx
    · obtain ⟨⟨n, t⟩, hn, h⟩ := Option.map_eq_some_iff.1 h
      obtain rfl := (Prod.mk.inj h).1
      cases hx
      exact proper_number? hn

theorem proper_value? {depth : Nat} {s r : Text} {v : Json} (h : value? depth s = some (v, r)) {x : Double}
    (hx : Has x v) : x.Proper := by
  induction depth generalizing s r v with
  | zero => exact proper_scalar? h hx
  | succ depth ih =>
    unfold value? at h
    split at h
    · split at h
      · obtain rfl := (Prod.mk.inj (Option.some.inj h)).1
        cases hx with
        | item hv _ => cases hv
      · obtain ⟨⟨items, t⟩, hitems, h⟩ := Option.map_eq_some_iff.1 h
        obtain rfl := (Prod.mk.inj h).1
        cases hx with
        | item hv hx => exact forall_of_items? (P := fun v => Has x v → x.Proper) ih hitems _ hv hx
    · split at h
      · obtain rfl := (Prod.mk.inj (Option.some.inj h)).1
        cases hx with
        | field hf _ => cases hf
      · obtain ⟨⟨fields, t⟩, hfields, h⟩ := Option.map_eq_some_iff.1 h
        obtain rfl := (Prod.mk.inj h).1
        cases hx with
        | field hf hx => exact forall_of_fields? (P := fun v => Has x v → x.Proper) ih hfields _ hf hx
    · exact proper_scalar? h hx

end Reader

theorem read?_of_blank {s : Text} (h : Text.isBlankText s = true) : read? s = none := by
  have hblank : ∀ c ∈ (Reader.skip s).head?, Text.isBlank c = true := by
    intro c hc
    have hmem : c ∈ s := (List.dropWhile_suffix _).subset (List.mem_of_mem_head? hc)
    exact List.all_eq_true.1 h c hmem
  cases hvalue : Reader.value? maxDepth (Reader.skip s) with
  | none => simp [read?, readAsWritten?, hvalue]
  | some found =>
    obtain ⟨c, hc, hink⟩ := Reader.startsInk_of_value? hvalue
    exact absurd ((hblank c hc).symm.trans hink) (by decide)

theorem canonical_of_read? {s : Text} {v : Json} (h : read? s = some v) : v.canonical = v := by
  obtain ⟨w, -, rfl⟩ := Option.map_eq_some_iff.1 h
  exact canonical_canonical w

theorem proper_of_read? {s : Text} {v : Json} {x : Double} (h : read? s = some v) (hx : Has x v) :
    x.Proper := by
  obtain ⟨w, hw, rfl⟩ := Option.map_eq_some_iff.1 h
  obtain ⟨⟨u, r⟩, hu, hw⟩ := Option.bind_eq_some_iff.1 hw
  dsimp only at hw
  split at hw
  · obtain rfl := Option.some.inj hw
    exact Reader.proper_value? hu hx.of_canonical
  · cases hw

end Folio.Json
