import Folio.Proofs.Ascii
import Folio.Proofs.Url

set_option autoImplicit false

/-!
# The scheme a URL leads with

A guard decides by what stands before the first colon once all white space is gone, and then hands on
the URL with its white space in it. A browser may take out some of that. Whatever it leaves, a scheme
that it can read is the one the guard decided by: the name of a scheme has neither white space nor a
delimiter in it, so it ends at the same colon in both.
-/
namespace Folio.Link

/-- Some of the white space of a text taken out, or all of it, or none. -/
inductive Thinned : Text → Text → Prop where
  | nil : Thinned [] []
  | keep (c : Char) {s t : Text} (h : Thinned s t) : Thinned (c :: s) (c :: t)
  | drop {c : Char} (hc : Text.isBlank c = true) {s t : Text} (h : Thinned s t) : Thinned (c :: s) t

def compact (s : Text) : Text := s.filter fun c => !Text.isBlank c

theorem compact_cons_of_blank {c : Char} (h : Text.isBlank c = true) (s : Text) :
    compact (c :: s) = compact s := List.filter_cons_of_neg (by simp [h])

theorem compact_cons_of_not_blank {c : Char} (h : Text.isBlank c = false) (s : Text) :
    compact (c :: s) = c :: compact s := List.filter_cons_of_pos (by simp [h])

theorem thinned_compact (s : Text) : Thinned s (compact s) := by
  induction s with
  | nil => exact .nil
  | cons c s ih =>
    cases h : Text.isBlank c with
    | true =>
      rw [compact_cons_of_blank h]
      exact .drop h ih
    | false =>
      rw [compact_cons_of_not_blank h]
      exact .keep c ih

theorem compact_of_thinned {s t : Text} (h : Thinned s t) : compact t = compact s := by
  induction h with
  | nil => rfl
  | keep c _ ih =>
    cases h : Text.isBlank c with
    | true => rw [compact_cons_of_blank h, compact_cons_of_blank h, ih]
    | false => rw [compact_cons_of_not_blank h, compact_cons_of_not_blank h, ih]
  | drop hc _ ih => rw [compact_cons_of_blank hc, ih]

theorem compact_append {w : Text} (h : ∀ c ∈ w, Text.isBlank c = false) (r : Text) :
    compact (w ++ r) = w ++ compact r := by
  have hw : compact w = w := List.filter_eq_self.2 fun c hc => by simp [h c hc]
  rw [compact, List.filter_append]
  exact congrArg (· ++ compact r) hw

theorem exists_of_thinned_append {w r t : Text} (hw : ∀ c ∈ w, Text.isBlank c = false)
    (h : Thinned (w ++ r) t) : ∃ r', t = w ++ r' := by
  induction w generalizing t with
  | nil => exact ⟨t, rfl⟩
  | cons c w ih =>
    obtain ⟨hc, hw⟩ := List.forall_mem_cons.1 hw
    cases h with
    | keep _ h =>
      obtain ⟨r', rfl⟩ := ih hw h
      exact ⟨r', rfl⟩
    | drop hblank _ => exact absurd (hc.symm.trans hblank) Bool.false_ne_true

/-- A URL read with some of its white space taken out has a name before its first colon. -/
def Leads (name u : Text) : Prop :=
  (∀ c ∈ name, Text.isBlank c = false ∧ isSchemeChar c = true) ∧ ∃ rest, Thinned u (name ++ ':' :: rest)

theorem compact_of_leads {name u : Text} (h : Leads name u) : ∃ rest, compact u = name ++ ':' :: rest := by
  obtain ⟨hname, rest, ht⟩ := h
  have hcolon : compact (':' :: rest) = ':' :: compact rest := compact_cons_of_not_blank (by decide) rest
  exact ⟨compact rest, by rw [← compact_of_thinned ht, compact_append fun c hc => (hname c hc).1, hcolon]⟩

theorem scheme?_of_leads {name u : Text} (h : Leads name u) : scheme? u = some (Text.lower name) := by
  obtain ⟨rest, hcompact⟩ := compact_of_leads h
  have hchars : ∀ c ∈ name, isSchemeChar c = true := fun c hc => (h.1 c hc).2
  have hstop : ¬ isSchemeChar ':' = true := by decide
  have htake : (compact u).takeWhile isSchemeChar = name := by
    rw [hcompact, List.takeWhile_append_of_pos hchars, List.takeWhile_cons_of_neg hstop,
      List.append_nil]
  have hdrop : (compact u).dropWhile isSchemeChar = ':' :: rest := by
    rw [hcompact, List.dropWhile_append_of_pos hchars, List.dropWhile_cons_of_neg hstop]
  change (if ((compact u).dropWhile isSchemeChar).head? = some ':' then
    some (Text.lower ((compact u).takeWhile isSchemeChar)) else none) = _
  rw [hdrop, htake, List.head?_cons, if_pos rfl]

theorem exists_leads_of_scheme? {u scheme : Text} (h : scheme? u = some scheme) :
    ∃ name, Leads name u ∧ Text.lower name = scheme := by
  change (if ((compact u).dropWhile isSchemeChar).head? = some ':' then
    some (Text.lower ((compact u).takeWhile isSchemeChar)) else none) = _ at h
  split at h
  · rename_i hcolon
    refine ⟨(compact u).takeWhile isSchemeChar, ⟨fun c hc => ⟨?_, List.mem_takeWhile_imp hc⟩, ?_⟩,
      Option.some.inj h⟩
    · have hblank := (List.mem_filter.1 ((List.takeWhile_prefix isSchemeChar).subset hc)).2
      simpa using hblank
    · obtain ⟨rest, hrest⟩ := List.head?_eq_some_iff.1 hcolon
      refine ⟨rest, ?_⟩
      have hall := List.takeWhile_append_dropWhile (p := isSchemeChar) (l := compact u)
      rw [hrest] at hall
      rw [hall]
      exact thinned_compact u
  · simp at h

/-- A guard lets a cleaned URL pass if whatever leads it is allowed, and only then. -/
theorem guarded_eq_some_iff {allowed : Text → Text → Bool} {s u : Text} :
    guarded allowed s = some u ↔
      u = clean s ∧ u ≠ [] ∧ ∀ name, Leads name u → allowed (Text.lower name) u = true := by
  constructor
  · intro h
    obtain rfl := eq_clean_of_guarded h
    simp only [guarded] at h
    split at h
    · simp at h
    · rename_i hne
      refine ⟨rfl, by simpa using hne, fun name hn => ?_⟩
      rw [scheme?_of_leads hn] at h
      by_contra hallowed
      simp [hallowed] at h
  · rintro ⟨rfl, hne, hallowed⟩
    have hempty : ¬ (clean s).isEmpty = true := by simpa using hne
    simp only [guarded, if_neg hempty]
    split
    · rfl
    · rename_i scheme hscheme
      obtain ⟨name, hn, rfl⟩ := exists_leads_of_scheme? hscheme
      rw [if_pos (hallowed name hn)]

def isSchemeNameChar (c : Char) : Bool := c.isAlphanum || c = '+' || c = '.' || c = '-'

def isSchemeName : Text → Bool
  | [] => false
  | c :: s => c.isAlpha && s.all isSchemeNameChar

theorem isSchemeNameChar_spec {c : Char} (h : isSchemeNameChar c = true) :
    Text.isBlank c = false ∧ isSchemeChar c = true := by
  have hascii : c.toNat < 128 := by
    simp only [isSchemeNameChar, Bool.or_eq_true, decide_eq_true_eq] at h
    rcases h with ((h | rfl) | rfl) | rfl
    · exact Text.toNat_lt_of_isAlphanum h
    all_goals decide
  exact Text.forall_ascii
    (P := fun c => isSchemeNameChar c = true → Text.isBlank c = false ∧ isSchemeChar c = true)
    (by decide) hascii h

theorem isSchemeNameChar_of_isSchemeName {name : Text} (h : isSchemeName name = true) :
    ∀ c ∈ name, isSchemeNameChar c = true := by
  cases name with
  | nil => simp [isSchemeName] at h
  | cons a name =>
    obtain ⟨ha, hname⟩ := Bool.and_eq_true_iff.1 h
    intro c hc
    rcases List.mem_cons.1 hc with rfl | hc
    · simp [isSchemeNameChar, Char.isAlphanum, ha]
    · exact List.all_eq_true.1 hname c hc

def IsRaster (u : Text) : Prop :=
  ∃ type ∈ dataImageTypes, ∃ c r, Text.lower u = type ++ c :: r ∧ (c = ';' ∨ c = ',')

theorem isRaster_of_isDataImage {u : Text} (h : isDataImage u = true) : IsRaster u := by
  obtain ⟨type, htype, h⟩ := List.any_eq_true.1 h
  split at h
  · rename_i c r hrest
    exact ⟨type, htype, c, r, Text.dropStart?_eq_some hrest, by simpa using h⟩
  · exact Bool.noConfusion h

theorem isBlank_toLower (c : Char) : Text.isBlank c.toLower = Text.isBlank c :=
  Text.congr_toLower (by decide) c

theorem IsRaster.thinned {u v : Text} (h : IsRaster u) (ht : Thinned u v) : IsRaster v := by
  obtain ⟨type, htype, c, r, hlower, hc⟩ := h
  have hblank : ∀ d ∈ type ++ [c], Text.isBlank d = false := by
    have htypes : ∀ t ∈ dataImageTypes, ∀ d ∈ t, Text.isBlank d = false := by decide
    intro d hd
    rcases List.mem_append.1 hd with hd | hd
    · exact htypes type htype d hd
    · obtain rfl : d = c := by simpa using hd
      rcases hc with rfl | rfl <;> decide
  have hsplit : Text.lower u = (type ++ [c]) ++ r := by simpa using hlower
  obtain ⟨w, r₀, rfl, hw, _⟩ := List.map_eq_append_iff.1 hsplit
  obtain ⟨r', rfl⟩ := exists_of_thinned_append (fun d hd => by
    rw [← isBlank_toLower]
    exact hblank _ (hw ▸ List.mem_map_of_mem hd)) ht
  refine ⟨type, htype, c, Text.lower r', ?_, hc⟩
  rw [Text.lower, List.map_append, hw]
  simp [Text.lower]

/-- A URL with nothing in it that a browser ignores outright, and of an admitted scheme if it has one,
    however much of its white space is ignored as well. -/
structure Passed (admitted : Text → Text → Prop) (u : Text) : Prop where
  nonempty : u ≠ []
  control : ∀ c ∈ u, Text.isControl c = false
  scheme : ∀ name rest, isSchemeName name = true → Thinned u (name ++ ':' :: rest) →
    admitted (Text.lower name) (name ++ ':' :: rest)

theorem passed_of_guarded {allowed : Text → Text → Bool} {admitted : Text → Text → Prop}
    {s u : Text} (h : guarded allowed s = some u)
    (ha : ∀ scheme v, allowed scheme u = true → Thinned u v → admitted scheme v) :
    Passed admitted u := by
  obtain ⟨rfl, hne, hallowed⟩ := guarded_eq_some_iff.1 h
  refine ⟨hne, (cleaned_clean s).control, fun name rest hname ht => ha _ _ (hallowed name ?_) ht⟩
  exact ⟨fun c hc => isSchemeNameChar_spec (isSchemeNameChar_of_isSchemeName hname c hc), rest, ht⟩

def LinkScheme (scheme _u : Text) : Prop := scheme ∈ (["http", "https", "mailto", "tel"] : List Text)

def ResourceScheme (dataImages : Bool) (scheme u : Text) : Prop :=
  scheme ∈ (["http", "https"] : List Text) ∨ (scheme = "data" ∧ dataImages = true ∧ IsRaster u)

/-- What the guards let pass they let pass again, and its scheme, where it has one, is admitted. -/
theorem passed_of_safe (s : Text) :
    (∀ u, safeLink? s = some u → safeLink? u = some u ∧ Passed LinkScheme u) ∧
      ∀ dataImages u, safeResource? dataImages s = some u →
        safeResource? dataImages u = some u ∧ Passed (ResourceScheme dataImages) u := by
  constructor
  · intro u h
    exact ⟨safeLink?_self h, passed_of_guarded h fun _ _ ha _ => List.contains_iff_mem.1 ha⟩
  · intro dataImages u h
    refine ⟨safeResource?_self h, passed_of_guarded h fun scheme v ha ht => ?_⟩
    rcases Bool.or_eq_true_iff.1 ha with ha | ha
    · exact .inl (List.contains_iff_mem.1 ha)
    · obtain ⟨⟨hdata, himages⟩, hraster⟩ :
          (scheme = "data" ∧ dataImages = true) ∧ isDataImage u = true := by simpa using ha
      exact .inr ⟨hdata, himages, (isRaster_of_isDataImage hraster).thinned ht⟩

theorem passed_of_safe_spaced :
    (safeLink? " Mail\tTo :a@b.test" = some ("MailTo :a@b.test" : Text) ∧
      LinkScheme (Text.lower "MailTo") "MailTo:a@b.test") ∧
    (safeResource? true "data:image/PNG;ba se64,AA" = some ("data:image/PNG;ba se64,AA" : Text) ∧
      Passed (ResourceScheme true) "data:image/PNG;ba se64,AA") := by
  have hlink : safeLink? " Mail\tTo :a@b.test" = some ("MailTo :a@b.test" : Text) := by decide +kernel
  have hdata : safeResource? true "data:image/PNG;ba se64,AA" =
      some ("data:image/PNG;ba se64,AA" : Text) := by decide +kernel
  have hthin : Thinned "MailTo :a@b.test" (("MailTo" : Text) ++ ':' :: "a@b.test") :=
    thinned_compact "MailTo :a@b.test"
  exact ⟨⟨hlink, ((passed_of_safe _).1 _ hlink).2.scheme _ _ (by decide) hthin⟩, hdata,
    ((passed_of_safe _).2 true _ hdata).2⟩

end Folio.Link
