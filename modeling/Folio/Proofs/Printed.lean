import Folio.Json.Printer
import Folio.Proofs.Reader

set_option autoImplicit false

/-!
# JSON text read back

A string is written so that it is read back whatever characters it holds, and so is a value without
numbers, as long as it is not nested too deep. Reading puts the keys in order, so a value whose keys stand
in order already is read back as it is.
-/
namespace Folio.Json

theorem hexDigit?_hexDigit {n : Nat} (h : n < 16) : Reader.hexDigit? (Printer.hexDigit n) = some n := by
  have hall : ∀ n < 16, Reader.hexDigit? (Printer.hexDigit n) = some n := by decide
  exact hall n h

theorem unit?_hexDigits {n : Nat} (h : n < 256) :
    Reader.unit? '0' '0' (Printer.hexDigit (n / 16)) (Printer.hexDigit (n % 16)) = some n := by
  have hzero : Reader.hexDigit? '0' = some 0 := by decide
  have hdiv : 16 * (n / 16) + n % 16 = n := Nat.div_add_mod n 16
  rw [Reader.unit?, hexDigit?_hexDigit (by omega), hexDigit?_hexDigit (by omega), hzero]
  change some _ = some _
  congr 1
  omega

theorem chars?_cons {c : Char} (hquote : c ≠ '"') (hslash : c ≠ '\\') (hcontrol : ¬ c.toNat < 0x20)
    (r : Text) : Reader.chars? (c :: r) = (Reader.chars? r).map fun (t, u) => (c :: t, u) := by
  rw [Reader.chars?.eq_def]
  split
  · rename_i h
    exact absurd h (List.cons_ne_nil c r)
  · rename_i h
    exact absurd (List.cons.inj h).1 hquote
  · rename_i h
    exact absurd (List.cons.inj h).1 hslash
  · rename_i h
    exact absurd (List.cons.inj h).1 hslash
  · rename_i h
    obtain ⟨rfl, rfl⟩ := List.cons.inj h
    rw [if_neg (by simp [hcontrol, hslash])]

theorem chars?_escape (c : Char) (r : Text) :
    Reader.chars? (Printer.escape c ++ r) = (Reader.chars? r).map fun (t, u) => (c :: t, u) := by
  unfold Printer.escape
  iterate 7
    split
    · rename_i h
      subst h
      rfl
  rename_i hquote hslash _ _ _ _ _
  split
  · rename_i hcontrol
    have hunit := unit?_hexDigits (n := c.toNat) (by omega)
    have hlow : Reader.isLeading c.toNat = false ∧ Reader.isTrailing c.toNat = false := by
      simp only [Reader.isLeading, Reader.isTrailing, Bool.and_eq_false_iff, decide_eq_false_iff_not]
      omega
    change Reader.chars? ('\\' :: 'u' :: '0' :: '0' :: Printer.hexDigit (c.toNat / 16) ::
      Printer.hexDigit (c.toNat % 16) :: r) = _
    rw [Reader.chars?.eq_def]
    simp only [hunit, hlow.1, hlow.2, Bool.false_eq_true, if_false, Char.ofNat_toNat]
  · rename_i hcontrol
    exact chars?_cons hquote hslash hcontrol r

theorem chars?_string (s r : Text) :
    Reader.chars? (s.flatMap Printer.escape ++ '"' :: r) = some (s, r) := by
  induction s with
  | nil => rfl
  | cons c s ih =>
    rw [List.flatMap_cons, List.append_assoc, chars?_escape, ih]
    rfl

theorem string?_string (s r : Text) : Reader.string? (Printer.string s ++ r) = some (s, r) := by
  have hwritten : Printer.string s ++ r = '"' :: (s.flatMap Printer.escape ++ '"' :: r) := by
    simp [Printer.string]
  rw [hwritten]
  exact chars?_string s r

namespace Reader

theorem skip_of_startsInk {s : Text} (h : StartsInk s) : skip s = s := by
  obtain ⟨c, hc, hblank⟩ := h
  refine Text.dropWhile_of_head fun d hd => ?_
  obtain rfl := Option.some.inj ((Option.mem_def.1 hc).symm.trans hd)
  refine Bool.eq_false_iff.2 fun hspace => ?_
  have hmarkup : Text.isMarkupSpace c = true := by
    simp only [isSpace, Bool.or_eq_true, beq_iff_eq] at hspace
    rcases hspace with ((rfl | rfl) | rfl) | rfl <;> decide
  exact absurd (hblank.symm.trans (Text.isBlank_of_isMarkupSpace hmarkup)) (by decide)

theorem skip_of_value? {depth : Nat} {s : Text} {found : Json × Text} (h : value? depth s = some found) :
    skip s = s :=
  skip_of_startsInk (startsInk_of_value? h)

end Reader

theorem writeItems_eq (items : List Json) : writeItems items = items.map write := by
  induction items with
  | nil => rfl
  | cons item items ih => rw [writeItems, ih, List.map_cons]

def writeField (f : Text × Json) : Text := Printer.string f.1 ++ ':' :: write f.2

theorem writeFields_eq (fields : Fields) : writeFields fields = fields.map writeField := by
  induction fields with
  | nil => rfl
  | cons f fields ih =>
    obtain ⟨key, value⟩ := f
    rw [writeFields, ih, List.map_cons]
    rfl

/-- Between the parts of a list stands a comma, so the text is long enough to count them by. -/
theorem length_le_join {α : Type} (f : α → Text) (l : List α) (r : Text) :
    l.length ≤ (Text.join "," (l.map f) ++ r).length + 1 := by
  induction l with
  | nil => exact Nat.zero_le _
  | cons a l ih =>
    cases l with
    | nil => exact Nat.succ_le_succ (Nat.zero_le _)
    | cons b l =>
      have hone : ("," : Text).length = 1 := rfl
      rw [List.map_cons, List.map_cons, Text.join_cons_cons, ← List.map_cons]
      simp only [List.length_cons, List.length_append] at ih ⊢
      omega

variable {depth : Nat}

/-- A value whose written form is read back, whatever follows it. -/
def ReadsBack (depth : Nat) (v : Json) : Prop :=
  ∀ r, Reader.value? depth (write v ++ r) = some (v, r)

theorem ReadsBack.skip {v : Json} (h : ReadsBack depth v) (r : Text) :
    Reader.skip (write v ++ r) = write v ++ r := Reader.skip_of_value? (h r)

theorem items?_write {items : List Json} (hne : items ≠ []) (h : ∀ item ∈ items, ReadsBack depth item)
    {fuel : Nat} (hfuel : items.length ≤ fuel) (r : Text) :
    Reader.items? (Reader.value? depth) fuel (Text.join "," (items.map write) ++ ']' :: r) =
      some (items, r) := by
  induction items generalizing fuel with
  | nil => exact absurd rfl hne
  | cons item items ih =>
    obtain ⟨hitem, hrest⟩ := List.forall_mem_cons.1 h
    obtain ⟨fuel, rfl⟩ : ∃ n, fuel = n + 1 := Nat.exists_eq_succ_of_ne_zero (by
      rintro rfl
      exact absurd hfuel (Nat.not_succ_le_zero _))
    rw [Reader.items?]
    cases items with
    | nil =>
      have hwritten : Text.join "," ([item].map write) = write item := by
        simp [Text.join, List.intercalate]
      rw [hwritten, hitem.skip, hitem]
      rfl
    | cons next items =>
      have hwritten : Text.join "," ((item :: next :: items).map write) ++ ']' :: r =
          write item ++ ',' :: (Text.join "," ((next :: items).map write) ++ ']' :: r) := by
        rw [List.map_cons, List.map_cons, Text.join_cons_cons, ← List.map_cons, List.append_assoc,
          List.append_assoc]
        rfl
      have hmore := ih (List.cons_ne_nil next items) hrest (Nat.le_of_succ_le_succ hfuel)
      rw [hwritten, hitem.skip, hitem]
      change (Reader.items? _ fuel _).map _ = _
      rw [hmore]
      rfl

theorem field?_write {f : Text × Json} (h : ReadsBack depth f.2) (r : Text) :
    Reader.field? (fun _ => Reader.value? depth) (writeField f ++ r) = some (f, r) := by
  have hwritten : writeField f ++ r = Printer.string f.1 ++ ':' :: (write f.2 ++ r) := by
    simp [writeField]
  have hskip : ∀ t, Reader.skip (Printer.string f.1 ++ t) = Printer.string f.1 ++ t := fun _ => rfl
  rw [Reader.field?, hwritten, hskip, string?_string]
  change (Reader.value? depth (Reader.skip (write f.2 ++ r))).map _ = _
  rw [h.skip, h]
  rfl

theorem fields?_write {fields : Fields} (hne : fields ≠ []) (h : ∀ f ∈ fields, ReadsBack depth f.2)
    {fuel : Nat} (hfuel : fields.length ≤ fuel) (r : Text) :
    Reader.fields? (fun _ => Reader.value? depth) fuel
      (Text.join "," (fields.map writeField) ++ '\x7d' :: r) = some (fields, r) := by
  induction fields generalizing fuel with
  | nil => exact absurd rfl hne
  | cons f fields ih =>
    obtain ⟨hfirst, hrest⟩ := List.forall_mem_cons.1 h
    obtain ⟨fuel, rfl⟩ : ∃ n, fuel = n + 1 := Nat.exists_eq_succ_of_ne_zero (by
      rintro rfl
      exact absurd hfuel (Nat.not_succ_le_zero _))
    rw [Reader.fields?]
    cases fields with
    | nil =>
      have hwritten : Text.join "," ([f].map writeField) = writeField f := by
        simp [Text.join, List.intercalate]
      rw [hwritten, field?_write hfirst]
      rfl
    | cons next fields =>
      have hwritten : Text.join "," ((f :: next :: fields).map writeField) ++ '\x7d' :: r =
          writeField f ++ ',' :: (Text.join "," ((next :: fields).map writeField) ++ '\x7d' :: r) := by
        rw [List.map_cons, List.map_cons, Text.join_cons_cons, ← List.map_cons, List.append_assoc,
          List.append_assoc]
        rfl
      have hmore := ih (List.cons_ne_nil next fields) hrest (Nat.le_of_succ_le_succ hfuel)
      rw [hwritten, field?_write hfirst]
      change (Reader.fields? _ fuel _).map _ = _
      rw [hmore]
      rfl

theorem join_map_cons {α : Type} (f : α → Text) (a : α) (l : List α) :
    ∃ t, Text.join "," ((a :: l).map f) = f a ++ t := by
  cases l with
  | nil => exact ⟨[], by simp [Text.join, List.intercalate]⟩
  | cons b l => exact ⟨_, Text.join_cons_cons _ _ _ _⟩

theorem value?_bracket (s : Text) : Reader.value? depth (']' :: s) = none := by
  have hscalar : Reader.scalar? (']' :: s) = none := by
    have hnumber : Reader.number? (']' :: s) = none := by
      rw [Reader.number?, Reader.spelling?_of_not_digit (by decide) (by decide)]
      rfl
    change (Reader.number? (']' :: s)).map (fun read => (Json.number read.1, read.2)) = none
    rw [hnumber]
    rfl
  cases depth with
  | zero => exact hscalar
  | succ depth => exact hscalar

theorem readsBack_array {items : List Json} (h : ∀ item ∈ items, ReadsBack depth item) :
    ReadsBack (depth + 1) (.array items) := by
  intro r
  have hwritten : write (.array items) ++ r = '[' :: (Text.join "," (items.map write) ++ ']' :: r) := by
    rw [write, writeItems_eq]
    simp
  rw [hwritten, Reader.value?]
  cases items with
  | nil => rfl
  | cons item items =>
    have hitems := items?_write (List.cons_ne_nil item items) h
      (length_le_join write (item :: items) (']' :: r)) r
    obtain ⟨t, ht⟩ := join_map_cons write item items
    have hitem := List.forall_mem_cons.1 h
    rw [ht, List.append_assoc] at hitems ⊢
    rw [hitem.1.skip]
    split
    · rename_i u hu
      have hread := hitem.1 (t ++ ']' :: r)
      rw [hu, value?_bracket] at hread
      exact absurd hread.symm (Option.some_ne_none _)
    · rw [hitems]
      rfl

theorem readsBack_object {fields : Fields} (h : ∀ f ∈ fields, ReadsBack depth f.2) :
    ReadsBack (depth + 1) (.object fields) := by
  intro r
  have hwritten : write (.object fields) ++ r =
      '\x7b' :: (Text.join "," (fields.map writeField) ++ '\x7d' :: r) := by
    rw [write, writeFields_eq]
    simp
  rw [hwritten, Reader.value?]
  cases fields with
  | nil => rfl
  | cons f fields =>
    have hfields := fields?_write (List.cons_ne_nil f fields) h
      (length_le_join writeField (f :: fields) ('\x7d' :: r)) r
    obtain ⟨t, ht⟩ := join_map_cons writeField f fields
    rw [ht] at hfields ⊢
    change (Reader.fields? (fun _ => Reader.value? depth)
      ((writeField f ++ t ++ '\x7d' :: r).length + 1) (writeField f ++ t ++ '\x7d' :: r)).map
        (fun read => (Json.object read.1, read.2)) = _
    rw [hfields]
    rfl

theorem readsBack_null : ReadsBack depth .null := by
  intro r
  cases depth <;> rfl

theorem readsBack_bool (b : Bool) : ReadsBack depth (.bool b) := by
  intro r
  cases depth <;> cases b <;> rfl

theorem readsBack_string (s : Text) : ReadsBack depth (.string s) := by
  intro r
  have hscalar : Reader.scalar? (Printer.string s ++ r) = some (.string s, r) := by
    have hread := string?_string s r
    change (Reader.string? (Printer.string s ++ r)).map (fun (t, r) => (Json.string t, r)) = _
    rw [hread]
    rfl
  cases depth with
  | zero => exact hscalar
  | succ depth => exact hscalar

theorem readsBack_of_isPlain {v : Json} (h : isPlain depth v = true) : ReadsBack depth v := by
  induction depth generalizing v with
  | zero =>
    cases v with
    | null => exact readsBack_null
    | bool b => exact readsBack_bool b
    | string s => exact readsBack_string s
    | _ => cases h
  | succ depth ih =>
    cases v with
    | null => exact readsBack_null
    | bool b => exact readsBack_bool b
    | string s => exact readsBack_string s
    | number n => cases h
    | array items => exact readsBack_array fun item hitem => ih (List.all_eq_true.1 h item hitem)
    | object fields => exact readsBack_object fun f hf => ih (List.all_eq_true.1 h f hf)

/-- The text of a plain value is read as that value, with its keys in order. -/
theorem read?_write {v : Json} (h : isPlain maxDepth v = true) : read? (write v) = some v.canonical := by
  have hread := readsBack_of_isPlain h
  have hskip : Reader.skip (write v) = write v := by simpa using hread.skip []
  have hvalue : Reader.value? maxDepth (write v) = some (v, []) := by simpa using hread []
  rw [read?, readAsWritten?, hskip, hvalue]
  rfl

instance : LawfulCodec := ⟨read?_of_blank, canonical_of_read?, proper_of_read?, read?_write⟩

end Folio.Json
