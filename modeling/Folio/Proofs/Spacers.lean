import Folio.Proofs.FlatKeys
import Folio.Proofs.Loading
import Folio.Proofs.Shortest

set_option autoImplicit false

/-!
# Heights of spacers

A spacer has a height of its own by default, one that passes over a height set below zero. But the height
is a flat key of older documents too, and what a flat key declares takes the place of a default. So where
no bags style a spacer, its rule declares the height that is set to a number, below zero or not.
-/
namespace Folio

def Double.Same (x y : Double) : Prop := y = x ∨ x.isZero = true ∧ y.isZero = true

theorem Double.Same.isBelowZero {x y : Double} (h : x.Same y) : y.isBelowZero = x.isBelowZero := by
  rcases h with rfl | ⟨hx, hy⟩
  · rfl
  · have hzero : ∀ z : Double, z.isZero = true → z.isBelowZero = false := by
      intro z hz
      cases z with
      | finite negative m e =>
        have hm : m = 0 := of_decide_eq_true hz
        simp [Double.isBelowZero, hm]
      | _ => cases hz
    rw [hzero x hx, hzero y hy]

namespace Style

def isPixelChar (c : Char) : Bool := Numeral.isSpelling c || c = 'p' || c = 'x'

theorem isPixelChar_spec (c : Char) (h : isPixelChar c = true) :
    Text.isBlank c = false ∧ isForbidden c = false ∧ isPixelChar (Text.foldChar c) = true := by
  have hc : c.toNat < 128 := by
    simp only [isPixelChar, Numeral.isSpelling, Bool.or_eq_true, decide_eq_true_eq, or_assoc,
      List.contains_iff_mem] at h
    rcases h with h | rfl | rfl | rfl | h | rfl | rfl
    · exact Text.toNat_lt_of_isAlphanum (by simp [Char.isAlphanum, h])
    · decide
    · decide
    · decide
    · by_contra hc
      have hletters : ∀ d ∈ ("aefinty" : Text), d.toNat < 128 := by decide
      rw [Text.toLower_of_not_ascii hc] at h
      exact hc (hletters c h)
    · decide
    · decide
  exact Text.forall_ascii (P := fun c => isPixelChar c = true →
    Text.isBlank c = false ∧ isForbidden c = false ∧ isPixelChar (Text.foldChar c) = true)
    (by decide) hc h

theorem isSafeValue_of_isPixelChar {s : Text} (hne : s ≠ []) (hs : ∀ c ∈ s, isPixelChar c = true) :
    isSafeValue s = true :=
  isSafeValue_of_class isPixelChar_spec hs hne (by decide) (by decide)

/-- The number that a length is read as, the way a prop is read. -/
def lengthOf? (s : Text) : Option Double := Props.double? [("height", .string s)] "height"

theorem lengthOf?_eq (s : Text) : lengthOf? s =
    (Numeral.read? (Props.dropUnit "px" s.length (Text.trim s))).filter Double.isFinite := rfl

theorem trim_of_isPixelChar {s : Text} (hs : ∀ c ∈ s, isPixelChar c = true) : Text.trim s = s :=
  Text.trim_of_trimmed
    ⟨fun c hc => (isPixelChar_spec c (hs c (List.mem_of_mem_head? hc))).1,
      fun c hc => (isPixelChar_spec c (hs c (List.mem_of_mem_getLast? hc))).1⟩

theorem isPixelChar_of_read? {s : Text} {x : Double} (h : Numeral.read? s = some x) :
    ∀ c ∈ s, isPixelChar c = true := by
  intro c hc
  rw [isPixelChar, Numeral.isSpelling_of_read? h c hc]
  rfl

theorem not_mem_of_read? {s : Text} {x : Double} (h : Numeral.read? s = some x) : 'x' ∉ s :=
  fun hx => absurd (Numeral.isSpelling_of_read? h 'x' hx) (by decide)

theorem lengthOf?_pixels {s : Text} {x : Double} (h : Numeral.read? s = some x)
    (hx : x.isFinite = true) : isSafeValue (s ++ "px") = true ∧ lengthOf? (s ++ "px") = some x := by
  have hs : ∀ c ∈ s ++ "px", isPixelChar c = true :=
    List.forall_mem_append.2 ⟨isPixelChar_of_read? h, by decide⟩
  refine ⟨isSafeValue_of_isPixelChar (by simp) hs, ?_⟩
  have hlength : (s ++ "px").length = s.length + 1 + 1 := by simp
  rw [lengthOf?_eq, trim_of_isPixelChar hs, hlength, Props.dropUnit_append,
    Props.dropUnit_of_not_mem (by decide : 'x' ∈ ("px" : Text)) (not_mem_of_read? h), h]
  simp [hx]

theorem writeNumber?_length {x : Double} (hfinite : x.isFinite = true) (hproper : x.Proper) :
    ∃ h, Value.writeNumber? .length x = some h ∧ isSafeValue h = true ∧
      ∃ y, lengthOf? h = some y ∧ x.Same y := by
  cases hzero : x.isZero with
  | true =>
    have hformat : formatNumber? x = some "0" := by simp [formatNumber?, hfinite, hzero]
    refine ⟨"0", ?_, isSafeValue_of_isPixelChar (by decide) (by decide), .zero, by decide,
      .inr ⟨hzero, rfl⟩⟩
    rw [Value.writeNumber?, hformat]
    rfl
  | false =>
    have hread := Notation.plain.read?_write hproper
    have hformat : formatNumber? x = some (Notation.plain.write x) := by
      simp [formatNumber?, hfinite, hzero]
    have hne : Notation.plain.write x ≠ "0" := by
      intro h
      rw [h] at hread
      obtain rfl : Double.zero = x := Option.some.inj hread
      cases hzero
    obtain ⟨hsafe, hlength⟩ := lengthOf?_pixels hread hfinite
    refine ⟨_, ?_, hsafe, x, hlength, .inl rfl⟩
    rw [Value.writeNumber?, hformat]
    exact congrArg some (if_neg hne)

theorem write?_number {x : Double} (hfinite : x.isFinite = true) (hproper : x.Proper) :
    ∃ h, Value.write? .length (.number x) = some h ∧ ∃ y, lengthOf? h = some y ∧ x.Same y := by
  obtain ⟨h, hwrite, hsafe, hread⟩ := writeNumber?_length hfinite hproper
  exact ⟨h, by rw [Value.write?, Value.unchecked?, hwrite]; simp [hsafe], hread⟩

/-- A text that is a number, in pixels perhaps, is written as a length that is read as the number. -/
theorem write?_text {s : Text} {x : Double} (hx : lengthOf? s = some x) :
    ∃ h, Value.write? .length (.text s) = some h ∧ ∃ y, lengthOf? h = some y ∧ x.Same y := by
  rw [lengthOf?_eq, Option.filter_eq_some_iff] at hx
  obtain ⟨hread, hfinite⟩ := hx
  have hne : Text.trim s ≠ [] := by
    intro h
    rw [h, Props.dropUnit_of_not_mem (by decide : 'x' ∈ ("px" : Text)) (by simp)] at hread
    cases hread
  cases hbare : Numeral.read? (Text.trim s) with
  | some y =>
    -- without a unit
    rw [Props.dropUnit_of_not_mem (by decide : 'x' ∈ ("px" : Text)) (not_mem_of_read? hbare), hbare] at hread
    obtain rfl := Option.some.inj hread
    obtain ⟨h, hwrite, hsafe, hread⟩ := writeNumber?_length hfinite (Numeral.proper_read? hbare)
    refine ⟨h, ?_, hread⟩
    rw [Value.write?, Value.unchecked?, Value.writeText?]
    simp [hne, hbare, hwrite, hsafe]
  | none =>
    have hs : ∀ c ∈ Text.trim s, isPixelChar c = true := by
      obtain ⟨k, hk⟩ := Props.dropUnit_spec "px" s.length (Text.trim s)
      rw [hk]
      refine List.forall_mem_append.2 ⟨isPixelChar_of_read? hread, fun c hc => ?_⟩
      obtain ⟨u, hu, hc⟩ := List.mem_flatten.1 hc
      rw [List.eq_of_mem_replicate hu] at hc
      exact (by decide : ∀ c ∈ ("px" : Text), isPixelChar c = true) c hc
    refine ⟨Text.trim s, ?_, x, ?_, .inl rfl⟩
    · rw [Value.write?, Value.unchecked?, Value.writeText?]
      simp [hne, hbare, isSafeValue_of_isPixelChar hne hs]
    · rw [lengthOf?_eq, Text.trim_of_trimmed (Text.trimmed_trim s),
        Props.dropUnit_of_length_le (by decide) le_rfl (Text.trim_isInfix s).length_le, hread]
      simp [hfinite]

def valuesOf (property : Text) (ds : List Declaration) : List Text :=
  (ds.filter fun d => d.property = property).map Declaration.value

theorem valuesOf_append (property : Text) (ds es : List Declaration) :
    valuesOf property (ds ++ es) = valuesOf property ds ++ valuesOf property es := by
  rw [valuesOf, List.filter_append, List.map_append]
  rfl

theorem valueOf?_eq_getLast? (ds : List Declaration) (property : Text) :
    valueOf? ds property = (valuesOf property ds).getLast? := List.getLast?_map.symm

theorem valuesOf_firstOfEach (property : Text) (ds : List Declaration) :
    valuesOf property (firstOfEach ds) = (valuesOf property ds).head?.toList := by
  induction ds with
  | nil => rfl
  | cons d ds ih =>
    unfold valuesOf at ih ⊢
    rw [firstOfEach, List.filter_cons, List.filter_cons, List.filter_filter]
    split
    · -- the later declarations of the property are dropped
      rename_i h
      rw [decide_eq_true_eq] at h
      have hnone : (firstOfEach ds).filter
          (fun e => decide (e.property = property) && decide (e.property ≠ d.property)) = [] := by
        refine List.filter_eq_nil_iff.2 fun e _ => ?_
        simp [h]
      rw [hnone]
      rfl
    · rename_i h
      rw [decide_eq_true_eq] at h
      have hall : (firstOfEach ds).filter
          (fun e => decide (e.property = property) && decide (e.property ≠ d.property)) =
          (firstOfEach ds).filter fun e => e.property = property := by
        refine List.filter_congr fun e _ => ?_
        by_cases he : e.property = property <;> simp [he, Ne.symm h]
      rw [hall]
      exact ih

theorem valuesOf_declared (props : Json.Fields) (property : Text) (table : List (Text × Text × ValueKind)) :
    valuesOf property (table.filterMap fun (key, name, kind) => declaration? props key name kind) =
      (table.filter fun e => e.2.1 = property).filterMap fun (key, _, kind) =>
        ((Json.Fields.get? props key).bind Value.ofJson?).bind (Value.write? kind) := by
  induction table with
  | nil => rfl
  | cons e table ih =>
    obtain ⟨key, name, kind⟩ := e
    unfold valuesOf at ih ⊢
    rw [List.filterMap_cons, List.filter_cons]
    dsimp only
    rw [declaration?]
    cases hvalue : ((Json.Fields.get? props key).bind Value.ofJson?).bind (Value.write? kind) with
    | none =>
      by_cases hname : name = property <;> simp [hname, hvalue, ih]
    | some value =>
      by_cases hname : name = property <;> simp [hname, hvalue, ih]

/-- What the height of a node is written as. -/
def writtenHeight? (props : Json.Fields) : Option Text :=
  ((Json.Fields.get? props "height").bind Value.ofJson?).bind (Value.write? .length)

theorem valuesOf_flatDeclarations (props : Json.Fields) :
    valuesOf "height" (flatDeclarations props) = (writtenHeight? props).toList := by
  have htable : flatProperties.filter (fun e => e.2.1 = ("height" : Text)) =
      [(("height" : Text), ("height" : Text), ValueKind.length)] := by decide +kernel
  rw [flatDeclarations, valuesOf_firstOfEach, valuesOf_declared, htable]
  have hsingle : ∀ (f : Text × Text × ValueKind → Option Text) (e : Text × Text × ValueKind),
      ([e].filterMap f).head?.toList = (f e).toList := by
    intro f e
    cases h : f e <;> simp [h]
  exact hsingle _ _

theorem writtenHeight?_spec {props : Json.Fields} {x : Double} (hx : Props.double? props "height" = some x)
    (hproper : ∀ y, Json.Fields.get? props "height" = some (.number (.real y)) → y.Proper) :
    ∃ h, writtenHeight? props = some h ∧ ∃ y, lengthOf? h = some y ∧ x.Same y := by
  have hget := hx
  unfold Props.double? Props.get? at hget
  unfold writtenHeight?
  cases hvalue : Json.Fields.get? props "height" with
  | none =>
    rw [hvalue] at hget
    cases hget
  | some v =>
    rw [hvalue] at hget
    cases v with
    | number n =>
      obtain ⟨hn, hfinite⟩ := Option.filter_eq_some_iff.1 hget
      obtain rfl := Option.some.inj hn
      have hn : n.toDouble.Proper := by
        cases n with
        | integer k => exact Double.proper_ofRatio _ _ (by decide)
        | real y => exact hproper y hvalue
      exact write?_number hfinite hn
    | string s => exact write?_text hget
    | _ => cases hget

theorem usesBags_of_unset {props : Json.Fields}
    (hset : hasAnyKeySet (Json.Fields.get? props "advancedStyling") = false)
    (hbreakpoint : Json.Fields.get? props "breakpointStyling" = none) : Layers.usesBags props = false := by
  rw [Layers.usesBags, hset, Layers.breakpointEntries, hbreakpoint]
  rfl

end Style

namespace Render
open Markup Style

theorem valuesOf_withDefaults {props : Json.Fields} (hflat : Layers.usesBags props = false) :
    valuesOf "height" (((Layers.ofProps props).withDefaults (defaults .spacer props)).layer .desktop .base) =
      [(writtenHeight? props).getD (spacerHeight props)] := by
  have hheight := valuesOf_flatDeclarations props
  have hvalue := valueOf?_eq_getLast? (flatDeclarations props) "height"
  rw [Layers.layer_withDefaults, if_pos ⟨rfl, rfl⟩, Layers.layer_flat hflat, valuesOf_append, hheight,
    defaults, List.filter_cons, hvalue, hheight]
  cases writtenHeight? props with
  | none => rfl
  | some h => rfl

/-- A length that is declared lies below zero. -/
def LiesBelowZero (h : Text) : Prop := ∃ y, lengthOf? h = some y ∧ y.isBelowZero = true

/-- The first entry is the rule of the element itself, and it declares one height. -/
def DeclaresHeight (id h : Text) (entries : List Entry) : Prop :=
  ∃ ds rest, entries = .rule ⟨id, .base, ds⟩ :: rest ∧ valuesOf "height" ds = [h]

theorem entries_base {layers : Layers} {h : Text}
    (hh : valuesOf "height" (layers.layer .desktop .base) = [h]) (id : Text) :
    DeclaresHeight id h (layers.entries id) := by
  have hne : layers.layer .desktop .base ≠ [] := by
    intro hnil
    rw [hnil] at hh
    cases hh
  have hrules : ∃ rest, Layers.rulesOf id (layers.layer .desktop) =
      ⟨id, .base, layers.layer .desktop .base⟩ :: rest := by
    rw [Layers.rulesOf, Slot.all, List.filterMap_cons]
    dsimp only
    rw [if_neg (mt List.isEmpty_iff.1 hne)]
    exact ⟨_, rfl⟩
  obtain ⟨rest, hrest⟩ := hrules
  have hentries : ∃ rest, layers.entries id = .rule ⟨id, .base, layers.layer .desktop .base⟩ :: rest := by
    rw [Layers.entries, hrest]
    exact ⟨_, rfl⟩
  obtain ⟨rest, hentries⟩ := hentries
  exact ⟨_, rest, hentries, hh⟩

section

variable [Link.HostReader]

theorem assemble_spacer {n : Node} (hkind : Component.ofTag? n.typeTag = some .spacer) (id : Text)
    (children : Fragment) : (assemble n id children).entries = ownEntries n id ++ children.entries := by
  have hdrawn : (drawn n id children.html).isEmpty = false := by
    rw [drawn, hkind]
    simp [component, Html.write, Html.startTag]
  rw [assemble, hdrawn]
  rfl

/-- A spacer without a bag declares one height for itself. A height that is set to a number is declared as
    that number; so no number below zero gives way to the default. A node that is read from a text has its
    numbers as they are kept (`Document.proper_of_parse`). -/
theorem spacer_height_iff {n : Node} (hkind : Component.ofTag? n.typeTag = some .spacer)
    (hset : hasAnyKeySet (Json.Fields.get? n.props "advancedStyling") = false)
    (hbreakpoint : Json.Fields.get? n.props "breakpointStyling" = none)
    (hproper : ∀ y, Json.Fields.get? n.props "height" = some (.number (.real y)) → y.Proper)
    (id : Text) (children : Fragment) :
    ∃ h, DeclaresHeight id h (assemble n id children).entries ∧
      ∀ x, Props.double? n.props "height" = some x →
        (∃ y, lengthOf? h = some y ∧ x.Same y) ∧
        ((¬ LiesBelowZero h ∧ (x.isBelowZero = true → h = "40px")) ↔ x.isBelowZero = false) := by
  have hheight := valuesOf_withDefaults (usesBags_of_unset hset hbreakpoint)
  obtain ⟨ds, rest, hentries, hds⟩ := entries_base hheight id
  refine ⟨_, ⟨ds, rest ++ children.entries, ?_, hds⟩, fun x hx => ?_⟩
  · rw [assemble_spacer hkind, ownEntries, hkind]
    exact congrArg (· ++ children.entries) hentries
  · obtain ⟨h, hwritten, y, hy, hsame⟩ := writtenHeight?_spec hx hproper
    rw [hwritten, Option.getD_some]
    have hbelow : LiesBelowZero h ↔ x.isBelowZero = true := by
      rw [LiesBelowZero, hy, ← hsame.isBelowZero]
      simp
    refine ⟨⟨y, hy, hsame⟩, fun hclaim => ?_, fun hx => ?_⟩
    · rw [← Bool.not_eq_true, ← hbelow]
      exact hclaim.1
    · rw [hbelow, hx]
      simp

end

def sunk : Text := "\x7b\"ROOT\": \x7b\"type\": \"Spacer\", \"props\": \x7b\"height\": -3.5\x7d\x7d\x7d"

theorem spacer_height_iff_below :
    let x : Double := .finite true 7881299347898368 (-51)
    ∃ d n, Document.parse sunk = .ok d ∧ d.get? "ROOT" = some n ∧
      Component.ofTag? n.typeTag = some .spacer ∧
      hasAnyKeySet (Json.Fields.get? n.props "advancedStyling") = false ∧
      Json.Fields.get? n.props "breakpointStyling" = none ∧
      (∀ y, Json.Fields.get? n.props "height" = some (.number (.real y)) → y.Proper) ∧
      Props.double? n.props "height" = some x ∧
      ∃ h, DeclaresHeight "s" h (assemble n "s" Fragment.empty).entries ∧
        (∃ y, lengthOf? h = some y ∧ x.Same y) ∧
        ((¬ LiesBelowZero h ∧ (x.isBelowZero = true → h = "40px")) ↔ x.isBelowZero = false) := by
  intro x
  have hchecked : (Document.parse sunk).toOption.any (fun d => (d.get? "ROOT").any fun n =>
      Component.ofTag? n.typeTag = some .spacer ∧
      hasAnyKeySet (Json.Fields.get? n.props "advancedStyling") = false ∧
      (Json.Fields.get? n.props "breakpointStyling").isNone ∧
      Props.double? n.props "height" = some x) = true := by decide +kernel
  -- the text has been read; what follows is to leave it as it is
  generalize sunk = s at hchecked ⊢
  obtain ⟨d, hd, hchecked⟩ := Option.any_eq_true _ _ |>.1 hchecked
  obtain ⟨n, hn, hchecked⟩ := Option.any_eq_true _ _ |>.1 hchecked
  obtain ⟨hkind, hset, hbreakpoint, hx⟩ := of_decide_eq_true hchecked
  have hparse := Document.parse_of_toOption hd
  have hbreakpoint := Option.isNone_iff_eq_none.1 hbreakpoint
  have hproper : ∀ y, Json.Fields.get? n.props "height" = some (.number (.real y)) → y.Proper :=
    fun _ => Document.proper_of_parse hparse hn
  obtain ⟨h, hdeclared, hheight⟩ :=
    spacer_height_iff hkind hset hbreakpoint hproper "s" Fragment.empty
  exact ⟨d, n, hparse, hn, hkind, hset, hbreakpoint, hproper, hx, h, hdeclared, hheight x hx⟩

/-- A height of -3 is declared as it is, and no default stands in for it. -/
theorem not_nonnegative_spacer_height :
    ¬ ∃ h, DeclaresHeight "s" h (assemble
        ⟨"Spacer", [("height", .number (.integer (-3)))], [], [], false, none⟩ "s" Fragment.empty).entries ∧
      ¬ LiesBelowZero h := by
  rintro ⟨h, ⟨ds, rest, hentries, hds⟩, hnot⟩
  have hrule : (assemble ⟨"Spacer", [("height", .number (.integer (-3)))], [], [], false, none⟩ "s"
      Fragment.empty).entries = [.rule ⟨"s", .base, [⟨"height", "-3px"⟩]⟩] := by decide +kernel
  rw [hrule] at hentries
  obtain rfl : [⟨"height", "-3px"⟩] = ds :=
    (Rule.mk.inj (Entry.rule.inj (List.cons.inj hentries).1)).2.2
  obtain rfl : "-3px" = h := (List.cons.inj hds).1
  exact hnot ⟨_, rfl, by decide⟩

end Render
end Folio
