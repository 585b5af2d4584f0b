import Folio.Proofs.Ascii
import Folio.Proofs.Stripping

set_option autoImplicit false

/-!
# Cleaned inline styles

Cleaning an inline style leaves declarations that cleaning keeps. Each of them holds no construct,
because its value holds none and because a construct that ends at the colon would have stood in the
text the declaration was read from; and no construct reaches over the semicolon between two of them.
-/
namespace Folio

namespace Text

theorem foldChar_toLower (c : Char) : foldChar c.toLower = foldChar c := congr_toLower (by decide) c

theorem exists_trimEnd_eq (s : Text) : ∃ b, s = trimEnd s ++ b ∧ ∀ c ∈ b, isBlank c = true := by
  refine ⟨(s.reverse.takeWhile isBlank).reverse, ?_, fun c hc => ?_⟩
  · rw [trimEnd, dropEndWhile, ← List.reverse_append, List.takeWhile_append_dropWhile,
      List.reverse_reverse]
  · exact List.mem_takeWhile_imp (List.mem_reverse.1 hc)

theorem exists_trim_eq (s : Text) : ∃ a b, s = a ++ trim s ++ b ∧
    (∀ c ∈ a, isBlank c = true) ∧ ∀ c ∈ b, isBlank c = true := by
  obtain ⟨b, hb, hblank⟩ := exists_trimEnd_eq (trimStart s)
  refine ⟨s.takeWhile isBlank, b, ?_, fun c hc => List.mem_takeWhile_imp hc, hblank⟩
  rw [List.append_assoc, trim, ← hb]
  exact List.takeWhile_append_dropWhile.symm

theorem trim_blank_cons {c : Char} (h : isBlank c = true) (s : Text) : trim (c :: s) = trim s := by
  rw [trim, trimStart, List.dropWhile_cons_of_pos h, trim, trimStart]

theorem trimmed_of_forall {s : Text} (h : ∀ c ∈ s, isBlank c = false) : Trimmed s where
  first := fun c hc => h c (List.mem_of_mem_head? hc)
  last := fun c hc => h c (List.mem_of_mem_getLast? hc)

theorem split_of_not_mem {d : Char} {s : Text} (h : d ∉ s) : split d s = [s] := by
  induction s with
  | nil => rfl
  | cons c s ih =>
    have hc : c ≠ d := fun e => h (e ▸ List.mem_cons_self)
    rw [split, if_neg hc, ih fun hm => h (List.mem_cons_of_mem c hm)]

theorem append_join (sep u t : Text) (parts : List Text) :
    u ++ join sep (t :: parts) = join sep ((u ++ t) :: parts) := by
  cases parts with
  | nil => simp [join, List.intercalate]
  | cons v parts => rw [join_cons_cons, join_cons_cons, List.append_assoc]

theorem split_join {d : Char} {s : Text} {parts : List Text} (sep : Text) (hs : d ∉ s) (hsep : d ∉ sep)
    (h : ∀ t ∈ parts, d ∉ t) :
    split d (join (d :: sep) (s :: parts)) = s :: parts.map (sep ++ ·) := by
  induction parts generalizing s with
  | nil => simpa [join, List.intercalate] using split_of_not_mem hs
  | cons t parts ih =>
    obtain ⟨ht, hrest⟩ := List.forall_mem_cons.1 h
    have hnext : d ∉ sep ++ t := by simp [hsep, ht]
    have e : join (d :: sep) (s :: t :: parts) = s ++ d :: join (d :: sep) ((sep ++ t) :: parts) := by
      rw [join_cons_cons, List.cons_append, append_join]
    rw [e, split_append hs, ih hnext hrest]
    rfl

/-- The parts of a text between the places where a separator stands, found from left to right. An
    empty separator parts nothing. -/
def pieces (sep s : Text) : List Text :=
  match cut? sep s with
  | some (a, b) => if b.length < s.length then a :: pieces sep b else [s]
  | none => [s]
termination_by s.length

theorem pieces_ne_nil (sep s : Text) : pieces sep s ≠ [] := by
  rw [pieces]
  split
  · split <;> exact List.cons_ne_nil _ _
  · exact List.cons_ne_nil _ _

theorem join_pieces (sep s : Text) : join sep (pieces sep s) = s := by
  fun_induction pieces sep s with
  | case1 s a b hcut _ ih =>
    obtain ⟨part, parts, hparts⟩ := List.exists_cons_of_ne_nil (pieces_ne_nil sep b)
    rw [hparts] at ih ⊢
    rw [join_cons_cons, ih, cut?_eq_some hcut, List.append_assoc]
  | case2 => simp [join, List.intercalate]
  | case3 => simp [join, List.intercalate]

theorem pieces_of_not_mem {d : Char} {s : Text} (h : d ∉ s) (sep : Text) :
    pieces (d :: sep) s = [s] := by
  have hcut : cut? (d :: sep) s = none := by
    refine Option.eq_none_iff_forall_ne_some.2 fun ⟨a, b⟩ hcut => h ?_
    rw [cut?_eq_some hcut]
    simp
  rw [pieces, hcut]

theorem pieces_append {d : Char} {s : Text} (h : d ∉ s) (sep r : Text) :
    pieces (d :: sep) (s ++ d :: (sep ++ r)) = s :: pieces (d :: sep) r := by
  have hlen : r.length < (s ++ d :: (sep ++ r)).length := by
    simp only [List.length_append, List.length_cons]
    omega
  rw [pieces, cut?_append h]
  exact if_pos hlen

theorem pieces_join {d : Char} {s : Text} {parts : List Text} (sep : Text)
    (h : ∀ t ∈ s :: parts, d ∉ t) :
    pieces (d :: sep) (join (d :: sep) (s :: parts)) = s :: parts := by
  induction parts generalizing s with
  | nil =>
    have hs := h s List.mem_cons_self
    simpa [join, List.intercalate] using pieces_of_not_mem hs sep
  | cons t parts ih =>
    obtain ⟨hs, hrest⟩ := List.forall_mem_cons.1 h
    have e : join (d :: sep) (s :: t :: parts) = s ++ d :: (sep ++ join (d :: sep) (t :: parts)) :=
      join_cons_cons _ s t parts
    rw [e, pieces_append hs, ih hrest]

end Text

namespace Style

/-- What an inline style may keep of a text that holds no construct. -/
structure IsKept (property value : Text) : Prop where
  name : ∀ c ∈ property, c.isAlphanum = true ∨ c = '-'
  lower : Text.lower property = property
  isPropertyName : isPropertyName property = true
  trimmed : Text.Trimmed value
  safe : isSafeValue value = true

theorem mem_propertyName {s : Text} (h : isPropertyName s = true) :
    ∀ c ∈ s, c.isAlphanum = true ∨ c = '-' := by
  have hrest : ∀ (c : Char) (r : Text), (c.isAlpha && r.all fun c => c.isAlphanum || c = '-') = true →
      ∀ d ∈ c :: r, d.isAlphanum = true ∨ d = '-' := by
    intro c r hr
    obtain ⟨hc, hr⟩ := Bool.and_eq_true_iff.1 hr
    refine List.forall_mem_cons.2 ⟨.inl (by rw [Char.isAlphanum, hc, Bool.true_or]), fun d hd => ?_⟩
    simpa using List.all_eq_true.1 hr d hd
  unfold isPropertyName at h
  split at h
  · rename_i c r e
    split at e
    · exact List.forall_mem_cons.2 ⟨.inr rfl, e ▸ hrest c r h⟩
    · exact e ▸ hrest c r h
  · exact Bool.noConfusion h

theorem exists_of_inlineDeclaration? {s property value : Text}
    (h : inlineDeclaration? s = some (property, value)) :
    IsKept property value ∧ ∃ name written, s = name ++ ':' :: written ∧
      property = Text.lower (Text.trim name) ∧ value = Text.trim written := by
  obtain ⟨⟨name, written⟩, hcut, h⟩ := Option.bind_eq_some_iff.1 h
  dsimp only at h
  split at h
  · rename_i hkept
    obtain ⟨hname, hsafe⟩ := Bool.and_eq_true_iff.1 hkept
    obtain ⟨rfl, rfl⟩ := Prod.mk.inj (Option.some.inj h)
    refine ⟨⟨mem_propertyName hname, Text.lower_lower _, hname, Text.trimmed_trim _, hsafe⟩,
      name, written, ?_, rfl, rfl⟩
    simpa using Text.cut?_eq_some hcut
  · simp at h

def writeInline (d : Text × Text) : Text := d.1 ++ ": " ++ d.2

section

variable {property value : Text}

theorem IsKept.not_mem (h : IsKept property value) {c : Char} (hc : c.isAlphanum = false)
    (hd : c ≠ '-') : c ∉ property := by
  intro hm
  rcases h.name c hm with ha | ha
  · exact Bool.false_ne_true (hc.symm.trans ha)
  · exact hd ha

theorem IsKept.semicolon (h : IsKept property value) : ';' ∉ writeInline (property, value) := by
  have hproperty := h.not_mem (c := ';') (by decide) (by decide)
  have hvalue : ';' ∉ value := by
    intro hm
    have hsafe := h.safe
    simp only [isSafeValue, Bool.and_eq_true, Bool.not_eq_true', List.any_eq_false] at hsafe
    exact hsafe.1.1.2 _ hm (by decide)
  simp [writeInline, hproperty, hvalue]

theorem IsKept.blank (h : IsKept property value) : ∀ c ∈ property, Text.isBlank c = false := by
  intro c hc
  rcases h.name c hc with ha | rfl
  · exact Text.forall_ascii (P := fun c => c.isAlphanum = true → Text.isBlank c = false) (by decide)
      (Text.toNat_lt_of_isAlphanum ha) ha
  · decide

theorem IsKept.read (h : IsKept property value) {sep : Text} (hsep : sep = [] ∨ sep = [' ']) :
    inlineDeclaration? (sep ++ writeInline (property, value)) = some (property, value) := by
  have hcolon : ':' ∉ sep ++ property := by
    have hproperty := h.not_mem (c := ':') (by decide) (by decide)
    rcases hsep with rfl | rfl <;> simpa using hproperty
  have hcut : Text.cut? ":" (sep ++ writeInline (property, value)) =
      some (sep ++ property, ' ' :: value) := by
    have e : sep ++ writeInline (property, value) = (sep ++ property) ++ ':' :: ([] ++ ' ' :: value) := by
      simp [writeInline]
    rw [e]
    exact Text.cut?_append hcolon (' ' :: value)
  have hproperty : Text.trim (sep ++ property) = property := by
    have hself := Text.trim_of_trimmed (Text.trimmed_of_forall h.blank)
    rcases hsep with rfl | rfl
    · exact hself
    · exact (Text.trim_blank_cons (by decide) property).trans hself
  have hvalue : Text.trim (' ' :: value) = value :=
    (Text.trim_blank_cons (by decide) value).trans (Text.trim_of_trimmed h.trimmed)
  rw [inlineDeclaration?, hcut]
  simp [hproperty, hvalue, h.lower, h.isPropertyName, h.safe]

end

theorem foldChar_not_mem_word {d : Char} (hd : d ∈ [';', ':', ' ']) {e : Text × Option Char}
    (he : e ∈ constructs) : Text.foldChar d ∉ e.1 := by
  have hall : ∀ d ∈ [';', ':', ' '], ∀ e ∈ constructs, Text.foldChar d ∉ e.1 := by decide
  exact hall d hd e he

theorem eq_of_completes {word : Text} {c : Char} (he : (word, some c) ∈ constructs) :
    c = '(' ∨ c = ':' := by
  have hlast : ∀ e ∈ constructs, e.2.all (fun c => c = '(' || c = ':') = true := by decide
  simpa using hlast _ he

theorem after?_of_not_blank {c d : Char} (hd : Text.isBlank d = false) (s : Text) :
    (after? c (d :: s)).isSome = decide (d = c) := by
  unfold after?
  rw [List.dropWhile_cons_of_neg (by simp [hd])]
  by_cases h : d = c <;> simp [h]

theorem after?_of_blank {c : Char} (hc : Text.isBlank c = false) {tail : Text}
    (h : ∀ d ∈ tail, Text.isBlank d = true) (s : Text) : after? c (tail ++ c :: s) = some s := by
  unfold after?
  rw [List.dropWhile_append_of_pos h, List.dropWhile_cons_of_neg (by simp [hc])]
  simp

/-- A construct of a written declaration that starts in its property ends at the colon, so it stood
    in the text that the declaration was read from. -/
theorem IsKept.startsConstruct {e : Text × Option Char} (he : e ∈ constructs)
    {property value a b t : Text} (hk : IsKept property value) (hb : property = a ++ b)
    (h : startsConstruct e (b ++ ':' :: t) = true) {q tail : Text} (hq : Text.lower q = b)
    (htail : ∀ c ∈ tail, Text.isBlank c = true) (r : Text) :
    Style.startsConstruct e (q ++ (tail ++ ':' :: r)) = true := by
  have hword := foldChar_not_mem_word (d := ':') (by simp) he
  obtain ⟨word, last⟩ := e
  rw [Style.startsConstruct, Text.dropStartUnder?_append_cons hword] at h
  cases hd : Text.dropStartUnder? Text.foldChar word b with
  | none =>
    rw [hd] at h
    exact Bool.noConfusion h
  | some b₂ =>
    rw [hd] at h
    obtain ⟨b₁, rfl, rfl⟩ := Text.dropStartUnder?_eq_some hd
    obtain ⟨q₁, q₂, rfl, hq₁, hq₂⟩ := List.map_eq_append_iff.1 hq
    have hmap : b₁.map Text.foldChar = q₁.map Text.foldChar := by
      rw [← hq₁, List.map_map]
      exact List.map_congr_left fun c _ => Text.foldChar_toLower c
    rw [Style.startsConstruct, hmap, List.append_assoc, Text.dropStartUnder?_append, Option.bind_some]
    cases last with
    | none => rfl
    | some c =>
      obtain ⟨halnum, hhyphen⟩ : c.isAlphanum = false ∧ c ≠ '-' := by
        rcases eq_of_completes he with rfl | rfl <;> decide
      cases b₂ with
      | nil =>
        obtain rfl : q₂ = [] := List.map_eq_nil_iff.1 hq₂
        have hc : ':' = c := by
          have h : (after? c (':' :: t)).isSome = true := h
          rwa [after?_of_not_blank (by decide), decide_eq_true_iff] at h
        subst hc
        rw [complete?, List.nil_append, after?_of_blank (by decide) htail]
        rfl
      | cons d b₂ =>
        -- a construct word goes on with the character that completes it, and no property holds that
        have hd : d ∈ property := hb ▸ by simp
        have hc : d = c := by
          have h : (after? c (d :: (b₂ ++ ':' :: t))).isSome = true := h
          rwa [after?_of_not_blank (hk.blank d hd), decide_eq_true_iff] at h
        exact absurd (hc ▸ hd) (hk.not_mem halnum hhyphen)

theorem startsConstruct_of_foreign {e : Text × Option Char} (he : e ∈ constructs) {d : Char}
    (hd : d ∈ [';', ':', ' ']) (s : Text) : startsConstruct e (d :: s) = false := by
  have hconstructs : ∀ e ∈ constructs, e.1 ≠ [] := by decide
  obtain ⟨a, word, hw⟩ := List.exists_cons_of_ne_nil (hconstructs e he)
  have h := Text.dropStartUnder?_append_cons (foldChar_not_mem_word hd he) [] s
  rw [hw, List.nil_append, Text.dropStartUnder?, Option.map_none] at h
  rw [startsConstruct, hw, h]
  rfl

theorem IsKept.containsConstruct {property value name written : Text} (hk : IsKept property value)
    (hp : property = Text.lower (Text.trim name))
    (h : containsConstruct (name ++ ':' :: written) = false) :
    Style.containsConstruct (writeInline (property, value)) = false := by
  have hvalue : Style.containsConstruct value = false := by
    have hsafe := hk.safe
    simp only [isSafeValue, Bool.and_eq_true, Bool.not_eq_true'] at hsafe
    exact hsafe.1.2
  obtain ⟨lead, tail, hname, -, htail⟩ := Text.exists_trim_eq name
  refine Bool.eq_false_iff.2 fun hc => ?_
  obtain ⟨u, ⟨a, ha⟩, e, he, hu⟩ := containsConstruct_iff.1 hc
  have hwritten : a ++ u = property ++ ':' :: ' ' :: value := by simpa [writeInline] using ha
  rcases List.append_eq_append_iff.1 hwritten with ⟨b, hb, rfl⟩ | ⟨b, _, hb⟩
  · -- the construct starts in the property
    obtain ⟨x, q, hq, _, hlower⟩ := List.map_eq_append_iff.1 (hp.symm.trans hb)
    have hread := hk.startsConstruct he hb hu hlower htail written
    have hsuffix : q ++ (tail ++ ':' :: written) <:+ name ++ ':' :: written :=
      ⟨lead ++ x, by rw [hname, hq]; simp⟩
    exact Bool.false_ne_true (h.symm.trans (containsConstruct_iff.2 ⟨_, hsuffix, e, he, hread⟩))
  · -- it starts at the colon, at the space or in the value
    have hforeign {d : Char} (hd : d ∈ [';', ':', ' ']) {v : Text} (hv : u = d :: v) : False := by
      rw [hv, startsConstruct_of_foreign he hd] at hu
      exact Bool.false_ne_true hu
    rcases List.suffix_cons_iff.1 ⟨b, hb.symm⟩ with hcolon | hu'
    · exact hforeign (by simp) hcolon
    · rcases List.suffix_cons_iff.1 hu' with hspace | hu'
      · exact hforeign (by simp) hspace
      · exact Bool.false_ne_true (hvalue.symm.trans (containsConstruct_iff.2 ⟨u, hu', e, he, hu⟩))

theorem containsConstruct_of_mem_split {s part : Text} (h : containsConstruct s = false)
    (hp : part ∈ Text.split ';' s) : containsConstruct part = false := by
  by_cases hs : ';' ∈ s
  · obtain ⟨a, b, rfl, ha⟩ := List.eq_append_cons_of_mem hs
    rw [Text.split_append ha] at hp
    rw [containsConstruct_divided (by decide), Bool.or_eq_false_iff] at h
    rcases List.mem_cons.1 hp with rfl | hp
    · exact h.1
    · exact containsConstruct_of_mem_split h.2 hp
  · rw [Text.split_of_not_mem hs] at hp
    exact List.mem_singleton.1 hp ▸ h
termination_by s.length

theorem containsConstruct_join {parts : List Text} (h : ∀ t ∈ parts, containsConstruct t = false) :
    containsConstruct (Text.join "; " parts) = false := by
  induction parts with
  | nil => rfl
  | cons t parts ih =>
    obtain ⟨ht, hrest⟩ := List.forall_mem_cons.1 h
    cases parts with
    | nil => simpa [Text.join, List.intercalate] using ht
    | cons u parts =>
      have hspace (s : Text) : (construct? (' ' :: s)).isSome = false := by
        refine Bool.eq_false_iff.2 fun hs => ?_
        obtain ⟨e, he, hs⟩ := isSome_construct?_iff.1 hs
        rw [startsConstruct_of_foreign he (by simp)] at hs
        exact Bool.false_ne_true hs
      rw [Text.join_cons_cons]
      change containsConstruct (t ++ ';' :: ' ' :: Text.join "; " (u :: parts)) = false
      rw [containsConstruct_divided (by decide), ht, containsConstruct, hspace, ih hrest]
      rfl

theorem filterMap_writeInline {ds : List (Text × Text)} (h : ∀ d ∈ ds, IsKept d.1 d.2) :
    (ds.map fun d => ' ' :: writeInline d).filterMap inlineDeclaration? = ds := by
  induction ds with
  | nil => rfl
  | cons d ds ih =>
    obtain ⟨hd, hds⟩ := List.forall_mem_cons.1 h
    have hread : inlineDeclaration? (' ' :: writeInline d) = some d := hd.read (.inr rfl)
    rw [List.map_cons, List.filterMap_cons_some hread, ih hds]

/-- A style as cleaning leaves it: there are declarations between its separators, each one such as may
    stay, and no construct stands anywhere in it. -/
structure Cleaned (css : Text) : Prop where
  declared : ∃ ds : List (Text × Text),
    Text.pieces "; " css = ds.map writeInline ∧ ∀ d ∈ ds, IsKept d.1 d.2
  constructless : containsConstruct css = false

theorem cleaned_of_cleanInline? {s css : Text} (h : cleanInline? s = some css) : Cleaned css := by
  have hkept : ∀ d ∈ (Text.split ';' (strip s)).filterMap inlineDeclaration?,
      IsKept d.1 d.2 ∧ containsConstruct (writeInline d) = false := by
    intro d hd
    obtain ⟨part, hpart, hd⟩ := List.mem_filterMap.1 hd
    obtain ⟨hk, name, written, rfl, hp, _⟩ := exists_of_inlineDeclaration? hd
    exact ⟨hk, hk.containsConstruct hp
      (containsConstruct_of_mem_split (containsConstruct_strip s) hpart)⟩
  simp only [cleanInline?] at h
  generalize (Text.split ';' (strip s)).filterMap inlineDeclaration? = kept at h hkept
  cases kept with
  | nil => simp at h
  | cons d ds =>
    obtain rfl : Text.join "; " ((d :: ds).map writeInline) = css := Option.some.inj h
    have hparts : ∀ t ∈ (d :: ds).map writeInline, ';' ∉ t ∧ containsConstruct t = false := by
      intro t ht
      obtain ⟨d', hd', rfl⟩ := List.mem_map.1 ht
      exact ⟨(hkept d' hd').1.semicolon, (hkept d' hd').2⟩
    exact ⟨⟨d :: ds, Text.pieces_join [' '] fun t ht => (hparts t ht).1, fun d' hd' => (hkept d' hd').1⟩,
      containsConstruct_join fun t ht => (hparts t ht).2⟩

theorem Cleaned.cleanInline?_self {css : Text} (h : Cleaned css) : cleanInline? css = some css := by
  obtain ⟨ds, hpieces, hkept⟩ := h.declared
  have hcss : Text.join "; " (ds.map writeInline) = css := hpieces ▸ Text.join_pieces "; " css
  cases ds with
  | nil => exact absurd hpieces (Text.pieces_ne_nil _ css)
  | cons d ds =>
    obtain ⟨hd, hds⟩ := List.forall_mem_cons.1 hkept
    have hsplit : Text.split ';' css = writeInline d :: ds.map fun d => ' ' :: writeInline d := by
      have hparts : ∀ t ∈ ds.map writeInline, ';' ∉ t := by
        intro t ht
        obtain ⟨d', hd', rfl⟩ := List.mem_map.1 ht
        exact (hds d' hd').semicolon
      rw [← hcss, List.map_cons]
      exact (Text.split_join [' '] hd.semicolon (by simp) hparts).trans (by rw [List.map_map]; rfl)
    have hfirst : inlineDeclaration? (writeInline d) = some d := hd.read (.inl rfl)
    simp only [cleanInline?, strip_eq_self_iff.2 h.constructless, hsplit]
    rw [List.filterMap_cons_some hfirst, filterMap_writeInline hds]
    exact congrArg some hcss

theorem cleanInline?_self {s css : Text} (h : cleanInline? s = some css) :
    cleanInline? css = some css := (cleaned_of_cleanInline? h).cleanInline?_self

/-- The styles that cleaning leaves are the cleaned ones, and these are the ones it leaves as they are. -/
theorem cleanInline?_iff_cleaned (css : Text) :
    ((∃ s, cleanInline? s = some css) ↔ Cleaned css) ∧ (cleanInline? css = some css ↔ Cleaned css) := by
  have hself : Cleaned css → cleanInline? css = some css := Cleaned.cleanInline?_self
  refine ⟨⟨?_, fun h => ⟨css, hself h⟩⟩, cleaned_of_cleanInline?, hself⟩
  rintro ⟨s, h⟩
  exact cleaned_of_cleanInline? h

example : cleanInline? "color: RED; width:expression(1); x y: 1; background:url(vbscript:x)" =
    some "color: RED; width: 1); background: url(x)".toList := by decide +kernel

end Style

end Folio
