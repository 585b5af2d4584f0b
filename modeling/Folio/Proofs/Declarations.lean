import Folio.Proofs.InlineStyle
import Folio.Proofs.Registry
import Folio.Render.Component

set_option autoImplicit false

/-!
# Sound declarations

Every declaration that is read, from a bag or from flat keys, is one of a property of the table with a
safe value, and so are the defaults of a component. Such a declaration holds no character that ends a
value, a rule or the style element. Laying declarations over others and looking up a value make no new
ones.
-/
namespace Folio.Style

def Enclosed (s : Text) : Prop := ∀ c ∈ s, isForbidden c = false

instance (s : Text) : Decidable (Enclosed s) := List.decidableBAll _ s

theorem Enclosed.not_mem_open {s : Text} (h : Enclosed s) : '<' ∉ s := by
  intro hm
  exact absurd (h '<' hm) (by decide)

theorem enclosed_of_isSafeValue {s : Text} (h : isSafeValue s = true) : Enclosed s := by
  simp only [isSafeValue, Bool.and_eq_true, Bool.not_eq_true'] at h
  intro c hc
  simpa using List.any_eq_false.1 h.1.1.2 c hc

theorem toNat_lt_of_isIdChar {c : Char} (h : Identity.isIdChar c = true) : c.toNat < 128 := by
  simp only [Identity.isIdChar, Identity.isTokenChar, Bool.or_eq_true, decide_eq_true_eq] at h
  rcases h with (h | rfl) | rfl
  · exact Text.toNat_lt_of_isAlphanum h
  · decide
  · decide

theorem enclosed_of_isId {s : Text} (h : Identity.IsId s) : Enclosed s := fun c hc =>
  Text.forall_ascii (P := fun c => Identity.isIdChar c = true → isForbidden c = false) (by decide)
    (toNat_lt_of_isIdChar (h c hc)) (h c hc)

/-- A declaration with a plain name, whose value ends nothing around it. -/
structure Declaration.Enclosed (d : Declaration) : Prop where
  property : Identity.IsId d.property
  value : Style.Enclosed d.value

def propertyNames : List Text := properties.map fun p => p.1.toList

structure Declaration.Sound (d : Declaration) : Prop where
  known : d.property ∈ propertyNames
  safe : isSafeValue d.value = true

theorem Declaration.Sound.enclosed {d : Declaration} (h : d.Sound) : d.Enclosed := by
  have hnames : ∀ p ∈ propertyNames, Identity.IsId p := by decide +kernel
  exact ⟨hnames _ h.known, enclosed_of_isSafeValue h.safe⟩

theorem sound_of_declaration? {fields : Json.Fields} {key property : Text} {kind : ValueKind}
    {d : Declaration} (hp : property ∈ propertyNames)
    (h : declaration? fields key property kind = some d) : d.Sound := by
  obtain ⟨value, hv, rfl⟩ := Option.map_eq_some_iff.1 h
  obtain ⟨v, _, hw⟩ := Option.bind_eq_some_iff.1 hv
  exact ⟨hp, Value.isSafeValue_of_write? hw⟩

theorem sound_declarations (bag : Json) : ∀ d ∈ declarations bag, d.Sound := by
  cases bag with
  | object fields =>
    intro d hd
    obtain ⟨⟨property, kind⟩, hm, h⟩ := List.mem_filterMap.1 hd
    exact sound_of_declaration? (List.mem_map_of_mem hm) h
  | _ => simp [declarations]

theorem Declarations.firstOfEach_subset (ds : List Declaration) :
    ∀ d ∈ Style.firstOfEach ds, d ∈ ds := by
  induction ds with
  | nil => simp [Style.firstOfEach]
  | cons e ds ih =>
    intro d hd
    rcases List.mem_cons.1 hd with rfl | hd
    · exact List.mem_cons_self
    · exact List.mem_cons_of_mem e (ih d (List.mem_filter.1 hd).1)

theorem sound_flatDeclarations (props : Json.Fields) : ∀ d ∈ flatDeclarations props, d.Sound := by
  have hknown : ∀ p ∈ flatProperties, p.2.1 ∈ propertyNames := by decide +kernel
  intro d hd
  have hd := Declarations.firstOfEach_subset _ d hd
  obtain ⟨⟨key, property, kind⟩, hm, h⟩ := List.mem_filterMap.1 hd
  exact sound_of_declaration? (hknown _ hm) h

theorem Declarations.mem_of_valueOf? {ds : List Declaration} {property value : Text}
    (h : valueOf? ds property = some value) : ⟨property, value⟩ ∈ ds := by
  obtain ⟨d, hd, rfl⟩ := Option.map_eq_some_iff.1 h
  obtain ⟨hmem, hproperty⟩ := List.mem_filter.1 (List.mem_of_getLast? hd)
  obtain rfl : d.property = property := by simpa using hproperty
  exact hmem

theorem Declarations.mem_overlay {ds : List Declaration} {d e : Declaration} (h : e ∈ overlay ds d) :
    e ∈ ds ∨ e = d := by
  induction ds with
  | nil => exact .inr (List.mem_singleton.1 h)
  | cons a ds ih =>
    rw [overlay] at h
    split at h
    · rename_i ha
      rcases List.mem_cons.1 h with rfl | h
      · exact .inr (by rw [ha])
      · exact .inl (List.mem_cons_of_mem a h)
    · rcases List.mem_cons.1 h with rfl | h
      · exact .inl List.mem_cons_self
      · exact (ih h).imp (List.mem_cons_of_mem a) id

theorem Declarations.mem_overlayAll {ds extra : List Declaration} {e : Declaration} (h : e ∈ overlayAll ds extra) :
    e ∈ ds ∨ e ∈ extra := by
  refine List.foldlRecOn (motive := fun made : List Declaration => e ∈ made → e ∈ ds ∨ e ∈ extra)
    extra overlay .inl (fun made hmade d hd hm => ?_) h
  rcases mem_overlay hm with hm | rfl
  · exact hmade hm
  · exact .inr hd

def isNumeralChar (c : Char) : Bool := c.isDigit || c = '.' || c = '-'

theorem toNat_lt_of_isNumeralChar {c : Char} (h : isNumeralChar c = true) : c.toNat < 128 := by
  simp only [isNumeralChar, Bool.or_eq_true, decide_eq_true_eq] at h
  rcases h with (h | rfl) | rfl
  · exact Text.toNat_lt_of_isAlphanum (by simp [Char.isAlphanum, h])
  · decide
  · decide

theorem isNumeralChar_of_mem_ofNat {n : Nat} {c : Char} (hc : c ∈ Text.ofNat n) :
    isNumeralChar c = true := by
  have hd : c.isDigit = true := Nat.isDigit_of_mem_toDigits (by omega) (by omega) hc
  rw [isNumeralChar, hd]
  rfl

theorem isNumeralChar_of_mem_zeros {n : Nat} {c : Char} (hc : c ∈ Decimal.zeros n) :
    isNumeralChar c = true := by
  rw [List.eq_of_mem_replicate hc]
  decide

theorem isNumeralChar_of_mem_positional {d : Decimal} :
    ∀ c ∈ d.positional, isNumeralChar c = true := by
  intro c hc
  unfold Decimal.positional at hc
  dsimp only at hc
  split at hc
  · exact (List.mem_append.1 hc).elim isNumeralChar_of_mem_ofNat isNumeralChar_of_mem_zeros
  · split at hc
    · rw [List.mem_append, List.mem_append] at hc
      rcases hc with (hc | hc) | hc
      · revert c
        decide
      · exact isNumeralChar_of_mem_zeros hc
      · exact isNumeralChar_of_mem_ofNat hc
    · rcases List.mem_append.1 hc with hc | hc
      · exact isNumeralChar_of_mem_ofNat (List.mem_of_mem_take hc)
      · rcases List.mem_cons.1 hc with rfl | hc
        · decide
        · exact isNumeralChar_of_mem_ofNat (List.mem_of_mem_drop hc)

theorem isNumeralChar_of_formatNumber? {x : Double} {s : Text} (h : formatNumber? x = some s) :
    ∀ c ∈ s, isNumeralChar c = true := by
  unfold formatNumber? at h
  split at h
  · simp at h
  · rename_i hfinite
    split at h
    · obtain rfl := Option.some.inj h
      decide
    · obtain rfl := Option.some.inj h
      cases x with
      | nan => simp [Double.isFinite] at hfinite
      | infinite negative => simp [Double.isFinite] at hfinite
      | finite negative mantissa exponent =>
        refine List.forall_mem_append.2 ⟨by cases negative <;> decide, ?_⟩
        unfold Notation.magnitude
        split
        · decide
        · simpa [Notation.layOut, Notation.plain] using isNumeralChar_of_mem_positional

section

variable {p : Char → Bool} (hp : ∀ c, p c = true →
    Text.isBlank c = false ∧ isForbidden c = false ∧ p (Text.foldChar c) = true)
  {s : Text} (hs : ∀ c ∈ s, p c = true)
include hp hs

theorem dropStartUnder?_of_class {word : Text} (hword : word.all p = false) :
    Text.dropStartUnder? Text.foldChar word s = none := by
  refine Option.eq_none_iff_forall_ne_some.2 fun r hr => ?_
  obtain ⟨q, rfl, rfl⟩ := Text.dropStartUnder?_eq_some hr
  obtain ⟨a, ha, hfalse⟩ := List.all_eq_false.1 hword
  obtain ⟨c, hc, rfl⟩ := List.mem_map.1 ha
  exact hfalse (hp c (hs c (List.mem_append_left r hc))).2.2

theorem targets_of_class (hurl : ("url(" : Text).all p = false) : targets s = [] := by
  induction s with
  | nil => rw [targets]
  | cons c t ih =>
    have hnone : url? (c :: t) = none := by
      rw [url?, dropStartUnder?_of_class hp hs hurl]
      rfl
    rw [targets]
    split
    · rename_i hsome
      exact absurd (hsome.symm.trans hnone) (Option.some_ne_none _)
    · exact ih (List.forall_mem_cons.1 hs).2

/-- A text of harmless characters is a safe value, if no construct and no `url(` is made of them. -/
theorem isSafeValue_of_class (hne : s ≠ []) (hurl : ("url(" : Text).all p = false)
    (hwords : ∀ e ∈ constructs, e.1.all p = false) : isSafeValue s = true := by
  have hblank : Text.isBlankText s = false := by
    obtain ⟨c, t, rfl⟩ := List.exists_cons_of_ne_nil hne
    simp [Text.isBlankText, (hp c (hs c List.mem_cons_self)).1]
  have hforbidden : s.any isForbidden = false :=
    List.any_eq_false.2 fun c hc => by simp [(hp c (hs c hc)).2.1]
  have hconstruct : containsConstruct s = false := by
    refine Bool.eq_false_iff.2 fun h => ?_
    obtain ⟨u, hu, e, he, hstart⟩ := containsConstruct_iff.1 h
    rw [startsConstruct, dropStartUnder?_of_class hp (fun c hc => hs c (hu.subset hc)) (hwords e he)]
      at hstart
    exact Bool.false_ne_true hstart
  rw [isSafeValue, hblank, hforbidden, hconstruct, targets_of_class hp hs hurl]
  rfl

end

def isLengthChar (c : Char) : Bool := isNumeralChar c || c = 'p' || c = 'x'

theorem isLengthChar_spec {c : Char} (h : isLengthChar c = true) :
    Text.isBlank c = false ∧ isForbidden c = false ∧ isLengthChar (Text.foldChar c) = true := by
  have hc : c.toNat < 128 := by
    simp only [isLengthChar, Bool.or_eq_true, decide_eq_true_eq] at h
    rcases h with (h | rfl) | rfl
    · exact toNat_lt_of_isNumeralChar h
    · decide
    · decide
  exact Text.forall_ascii (P := fun c => isLengthChar c = true →
    Text.isBlank c = false ∧ isForbidden c = false ∧ isLengthChar (Text.foldChar c) = true)
    (by decide) hc h

theorem isSafeValue_of_isLengthChar {s : Text} (hne : s ≠ []) (hs : ∀ c ∈ s, isLengthChar c = true) :
    isSafeValue s = true :=
  isSafeValue_of_class (fun _ => isLengthChar_spec) hs hne (by decide) (by decide)

end Folio.Style

namespace Folio.Render

open Style

theorem sound_defaults (kind : Component) (p : Props) : ∀ d ∈ defaults kind p, d.Sound := by
  have hheight : isSafeValue (spacerHeight p) = true := by
    refine isSafeValue_of_isLengthChar (by simp [spacerHeight]) (List.forall_mem_append.2 ⟨?_, by decide⟩)
    cases h : ((p.double? "height").filter fun x => !x.isBelowZero).bind formatNumber? with
    | none => decide
    | some s =>
      obtain ⟨x, _, hx⟩ := Option.bind_eq_some_iff.1 h
      intro c hc
      rw [isLengthChar, isNumeralChar_of_formatNumber? hx c hc]
      rfl
  cases kind with
  | spacer =>
    intro d hd
    obtain rfl : d = ⟨"height", spacerHeight p⟩ := by simpa [defaults] using hd
    exact ⟨show ("height" : Text) ∈ propertyNames by decide +kernel, hheight⟩
  | _ => simp [defaults]

theorem enclosed_defaults (kind : Component) (p : Props) : ∀ d ∈ defaults kind p, d.Enclosed :=
  fun d hd => (sound_defaults kind p d hd).enclosed

end Folio.Render
