import Folio.Proofs.Targets
import Folio.Style.Value

set_option autoImplicit false

/-!
# Background images

The URL of an image is checked by itself and then once more as the value it is written in. Between the
quotes it is the same URL, with its own quotes respelled, so it points where it pointed and the second
check of the target passes. What the hygiene of values refuses besides is refused here as well, although
a safe URL may hold it.
-/
namespace Folio.Link

def inQuotes (u : Text) : Text := Text.replaceChar '"' "%22" u

theorem inQuotes_cons_quote (u : Text) : inQuotes ('"' :: u) = '%' :: '2' :: '2' :: inQuotes u := rfl

theorem inQuotes_cons_of_ne {c : Char} (h : c ≠ '"') (u : Text) :
    inQuotes (c :: u) = c :: inQuotes u := by
  rw [inQuotes, Text.replaceChar, List.flatMap_cons, if_neg h]
  rfl

theorem inQuotes_of_not_mem {u : Text} (h : '"' ∉ u) : inQuotes u = u := by
  induction u with
  | nil => rfl
  | cons c u ih =>
    have hc : c ≠ '"' := fun e => h (e ▸ List.mem_cons_self)
    rw [inQuotes_cons_of_ne hc, ih fun hm => h (List.mem_cons_of_mem c hm)]

theorem inQuotes_append (u v : Text) : inQuotes (u ++ v) = inQuotes u ++ inQuotes v := List.flatMap_append

theorem mem_inQuotes {c : Char} {u : Text} (h : c ∈ inQuotes u) : c ≠ '"' ∧ (c ∈ u ∨ c = '%' ∨ c = '2') := by
  obtain ⟨x, hx, hc⟩ := List.mem_flatMap.1 h
  split at hc
  · have hcode : ∀ c ∈ ("%22" : Text), c ≠ '"' ∧ (c = '%' ∨ c = '2') := by decide
    exact ⟨(hcode c hc).1, .inr (hcode c hc).2⟩
  · rename_i hne
    obtain rfl := List.mem_singleton.1 hc
    exact ⟨hne, .inl hx⟩

theorem cleaned_inQuotes {u : Text} (h : Cleaned u) : Cleaned (inQuotes u) where
  trimmed.first := by
    cases u with
    | nil => exact fun c hc => nomatch hc
    | cons d u =>
      by_cases hd : d = '"'
      · subst hd
        rintro c hc
        obtain rfl : '%' = c := Option.some.inj hc
        decide
      · rw [inQuotes_cons_of_ne hd]
        exact h.trimmed.first
  trimmed.last := by
    rcases List.eq_nil_or_concat u with rfl | ⟨v, d, rfl⟩
    · exact fun c hc => nomatch hc
    · have hlast := h.trimmed.last
      rw [List.concat_eq_append] at hlast ⊢
      rw [inQuotes_append]
      by_cases hd : d = '"'
      · subst hd
        intro c hc
        obtain rfl : '2' = c := by simpa [inQuotes_cons_quote, inQuotes_of_not_mem] using hc
        decide
      · rw [inQuotes_cons_of_ne hd]
        simpa [inQuotes_of_not_mem] using hlast
  control := by
    intro c hc
    rcases (mem_inQuotes hc).2 with hc | rfl | rfl
    · exact h.control c hc
    · decide
    · decide

theorem compact_inQuotes (u : Text) : compact (inQuotes u) = inQuotes (compact u) := by
  induction u with
  | nil => rfl
  | cons c u ih =>
    by_cases hc : c = '"'
    · subst hc
      have hquote : compact ('"' :: u) = '"' :: compact u := compact_cons_of_not_blank (by decide) u
      have hcode : compact ("%22" ++ inQuotes u) = "%22" ++ compact (inQuotes u) :=
        compact_append (by decide) _
      rw [hquote, inQuotes_cons_quote, inQuotes_cons_quote, ← ih]
      exact hcode
    · rw [inQuotes_cons_of_ne hc]
      cases hblank : Text.isBlank c with
      | true => rw [compact_cons_of_blank hblank, compact_cons_of_blank hblank, ih]
      | false =>
        rw [compact_cons_of_not_blank hblank, compact_cons_of_not_blank hblank, inQuotes_cons_of_ne hc, ih]

theorem span_inQuotes (u : Text) :
    (inQuotes u).takeWhile isSchemeChar = inQuotes (u.takeWhile isSchemeChar) ∧
      (inQuotes u).dropWhile isSchemeChar = inQuotes (u.dropWhile isSchemeChar) := by
  have hcode : ∀ c ∈ ("%22" : Text), isSchemeChar c = true := by decide
  induction u with
  | nil => exact ⟨rfl, rfl⟩
  | cons c u ih =>
    by_cases hc : c = '"'
    · subst hc
      have hquote : isSchemeChar '"' = true := by decide
      rw [List.takeWhile_cons_of_pos hquote, List.dropWhile_cons_of_pos hquote, inQuotes_cons_quote,
        inQuotes_cons_quote]
      have htake : ("%22" ++ inQuotes u).takeWhile isSchemeChar =
          "%22" ++ (inQuotes u).takeWhile isSchemeChar := List.takeWhile_append_of_pos hcode
      have hdrop : ("%22" ++ inQuotes u).dropWhile isSchemeChar = (inQuotes u).dropWhile isSchemeChar :=
        List.dropWhile_append_of_pos hcode
      rw [ih.1] at htake
      rw [ih.2] at hdrop
      exact ⟨htake, hdrop⟩
    · rw [inQuotes_cons_of_ne hc]
      by_cases hchar : isSchemeChar c = true
      · rw [List.takeWhile_cons_of_pos hchar, List.takeWhile_cons_of_pos hchar,
          List.dropWhile_cons_of_pos hchar, List.dropWhile_cons_of_pos hchar, inQuotes_cons_of_ne hc]
        exact ⟨congrArg (c :: ·) ih.1, ih.2⟩
      · rw [List.takeWhile_cons_of_neg hchar, List.takeWhile_cons_of_neg hchar,
          List.dropWhile_cons_of_neg hchar, List.dropWhile_cons_of_neg hchar, inQuotes_cons_of_ne hc]
        exact ⟨rfl, rfl⟩

theorem head?_inQuotes_iff (u : Text) : (inQuotes u).head? = some ':' ↔ u.head? = some ':' := by
  cases u with
  | nil => rfl
  | cons c u =>
    by_cases hc : c = '"'
    · subst hc
      simp [inQuotes_cons_quote]
    · rw [inQuotes_cons_of_ne hc, List.head?_cons, List.head?_cons]

theorem lower_inQuotes (u : Text) : Text.lower (inQuotes u) = inQuotes (Text.lower u) := by
  have hquote : ∀ c : Char, (c.toLower == '"') = (c == '"') :=
    Text.congr_toLower (f := fun c => c == '"') (by decide)
  induction u with
  | nil => rfl
  | cons c u ih =>
    by_cases hc : c = '"'
    · subst hc
      change '%' :: '2' :: '2' :: Text.lower (inQuotes u) = inQuotes ('"' :: Text.lower u)
      rw [ih, inQuotes_cons_quote]
    · have hlower : c.toLower ≠ '"' := by
        rw [← beq_eq_false_iff_ne, hquote, beq_eq_false_iff_ne]
        exact hc
      rw [inQuotes_cons_of_ne hc]
      exact (congrArg (c.toLower :: ·) ih).trans (inQuotes_cons_of_ne hlower _).symm

theorem scheme?_inQuotes (u : Text) : scheme? (inQuotes u) = (scheme? u).map inQuotes := by
  change (if ((compact (inQuotes u)).dropWhile isSchemeChar).head? = some ':' then
    some (Text.lower ((compact (inQuotes u)).takeWhile isSchemeChar)) else none) =
      (if ((compact u).dropWhile isSchemeChar).head? = some ':' then
        some (Text.lower ((compact u).takeWhile isSchemeChar)) else none).map inQuotes
  obtain ⟨htake, hdrop⟩ := span_inQuotes (compact u)
  rw [compact_inQuotes, htake, hdrop, lower_inQuotes]
  simp only [head?_inQuotes_iff]
  split <;> rfl

theorem isDataImage_inQuotes {u : Text} (h : isDataImage u = true) : isDataImage (inQuotes u) = true := by
  have hquote : ∀ type ∈ dataImageTypes, '"' ∉ type := by decide
  obtain ⟨type, htype, c, r, hlower, hc⟩ := isRaster_of_isDataImage h
  have hne : c ≠ '"' := by rcases hc with rfl | rfl <;> decide
  have hread : Text.lower (inQuotes u) = type ++ c :: inQuotes r := by
    rw [lower_inQuotes, hlower, inQuotes_append, inQuotes_of_not_mem (hquote type htype),
      inQuotes_cons_of_ne hne]
  refine List.any_eq_true.2 ⟨type, htype, ?_⟩
  rw [hread, Text.dropStart?_append]
  simpa using hc

/-- What is safe to load is safe in quotes, with the quotes in it respelled. -/
theorem safeResource?_inQuotes {s u : Text} (h : safeResource? true s = some u) :
    safeResource? true (inQuotes u) = some (inQuotes u) := by
  obtain ⟨rfl, hne, hallowed⟩ := guarded_eq_some_iff.1 h
  have hcleaned := cleaned_inQuotes (cleaned_clean s)
  refine guarded_eq_some_iff.2 ⟨(clean_of_cleaned hcleaned).symm, fun hnil => hne ?_, fun name hname => ?_⟩
  · refine List.eq_nil_iff_forall_not_mem.2 fun c hc => ?_
    have hmem : (if c = '"' then ("%22" : Text) else [c]) = [] :=
      List.flatMap_eq_nil_iff.1 hnil c hc
    split at hmem <;> exact nomatch hmem
  · have hscheme := scheme?_of_leads hname
    rw [scheme?_inQuotes] at hscheme
    obtain ⟨scheme, hread, hsame⟩ := Option.map_eq_some_iff.1 hscheme
    obtain ⟨own, hown, rfl⟩ := exists_leads_of_scheme? hread
    -- none of the schemes that are allowed has a quote in it
    have hadmitted := hallowed own hown
    rw [← hsame]
    simp only [Bool.or_eq_true, Bool.and_eq_true, decide_eq_true_eq] at hadmitted ⊢
    rcases hadmitted with hresource | ⟨⟨hdata, _⟩, himage⟩
    · have hfree : ∀ t ∈ resourceSchemes, '"' ∉ t := by decide
      rw [inQuotes_of_not_mem (hfree _ (List.contains_iff_mem.1 hresource))]
      exact .inl hresource
    · have hfree : '"' ∉ ("data" : Text) := by decide
      rw [hdata, inQuotes_of_not_mem hfree]
      exact .inr ⟨⟨rfl, trivial⟩, isDataImage_inQuotes himage⟩

end Folio.Link

namespace Folio.Style

def imageText (u : Text) : Text := "url(\"" ++ Link.inQuotes u ++ "\")"

theorem imageText_eq (u : Text) : imageText u = "url(" ++ '"' :: (Link.inQuotes u ++ ['"', ')']) :=
  List.append_assoc _ _ _

theorem containsConstruct_inQuotes (w u : Text) :
    containsConstruct (w ++ Link.inQuotes u) = containsConstruct (w ++ u) := by
  have hquote : Divides '"' := by decide
  have hpercent : Divides '%' := by decide
  have htwo : Divides '2' := by decide
  induction u generalizing w with
  | nil => rfl
  | cons c u ih =>
    by_cases hc : c = '"'
    · subst hc
      have hu : containsConstruct (Link.inQuotes u) = containsConstruct u := ih []
      have hcode : containsConstruct ('2' :: '2' :: Link.inQuotes u) = containsConstruct (Link.inQuotes u) :=
        (containsConstruct_divided htwo [] _).trans (containsConstruct_divided htwo [] _)
      rw [Link.inQuotes_cons_quote, containsConstruct_divided hpercent, containsConstruct_divided hquote,
        hcode, hu]
    · have hu := ih (w ++ [c])
      rw [Link.inQuotes_cons_of_ne hc]
      rwa [List.append_assoc, List.append_assoc] at hu

theorem containsConstruct_imageText (u : Text) : containsConstruct (imageText u) = containsConstruct u := by
  have hquote : Divides '"' := by decide
  have hopen : containsConstruct "url(" = false := by decide
  have hclose : containsConstruct [')'] = false := by decide
  have hu : containsConstruct (Link.inQuotes u) = containsConstruct u := containsConstruct_inQuotes [] u
  rw [imageText_eq, containsConstruct_divided hquote, containsConstruct_divided hquote, hopen, hclose, hu,
    Bool.false_or, Bool.or_false]

theorem any_isForbidden_imageText (u : Text) : (imageText u).any isForbidden = u.any isForbidden := by
  have hopen : ("url(\"" : Text).any isForbidden = false := by decide
  have hclose : ("\")" : Text).any isForbidden = false := by decide
  have hu : (Link.inQuotes u).any isForbidden = u.any isForbidden := by
    induction u with
    | nil => rfl
    | cons c u ih =>
      by_cases hc : c = '"'
      · subst hc
        exact ih
      · rw [Link.inQuotes_cons_of_ne hc, List.any_cons, List.any_cons, ih]
  change ("url(\"" ++ Link.inQuotes u ++ "\")" : Text).any isForbidden = u.any isForbidden
  rw [List.any_append, List.any_append, hopen, hclose, hu, Bool.false_or, Bool.or_false]

theorem targets_imageText (u : Text) : targets (imageText u) = [Link.inQuotes u] := by
  have hfree : '"' ∉ Link.inQuotes u := fun hm => (Link.mem_inQuotes hm).1 rfl
  have hquoted : quotedTarget? '"' ('"' :: (Link.inQuotes u ++ ['"', ')'])) = some (Link.inQuotes u, []) :=
    @quotedTarget?_append _ _ [] hfree (fun _ => nofun) []
  have htarget : target? ('"' :: (Link.inQuotes u ++ ['"', ')'])) = some (Link.inQuotes u, []) := by
    have hstart : ('"' :: (Link.inQuotes u ++ ['"', ')'])).dropWhile Text.isBlank =
        '"' :: (Link.inQuotes u ++ ['"', ')']) := List.dropWhile_cons_of_neg (by decide)
    simp only [target?, hstart, hquoted]
  have hurl : url? (imageText u) = some (Link.inQuotes u, []) := by
    rw [imageText_eq, url?_append (by decide), htarget]
  have hcons : imageText u = 'u' :: ("rl(\"" ++ Link.inQuotes u ++ "\")") := rfl
  rw [hcons] at hurl ⊢
  rw [targets]
  split
  · rename_i t r h
    obtain ⟨rfl, rfl⟩ := Prod.mk.inj (Option.some.inj (hurl.symm.trans h))
    rw [targets]
  · rename_i h
    exact absurd (hurl.symm.trans h) (Option.some_ne_none _)

theorem isSafeValue_imageText {s u : Text} (h : Link.safeResource? true s = some u) :
    isSafeValue (imageText u) = (!u.any isForbidden && !containsConstruct u) := by
  have hblank : Text.isBlankText (imageText u) = false := rfl
  rw [isSafeValue, hblank, any_isForbidden_imageText, containsConstruct_imageText, targets_imageText,
    List.all_cons, Link.safeResource?_inQuotes h]
  simp

/-- A text that is written as it stands where an image is asked for. -/
def IsImageForm (s : Text) : Prop :=
  Text.lower s = "none" ∨ ∃ f ∈ Value.imageFunctions, Text.startsWith f (Text.lower s) = true

instance (s : Text) : Decidable (IsImageForm s) := inferInstanceAs (Decidable (_ ∨ _))

theorem writeImage?_of_safe {s u : Text} (hform : ¬ IsImageForm s) (hu : Link.safeResource? true s = some u) :
    Value.writeImage? s = some (imageText u) := by
  have hplain : (decide (Text.lower s = "none") ||
      Value.imageFunctions.any fun f => Text.startsWith f (Text.lower s)) = false := by
    rw [Bool.eq_false_iff, Ne, Bool.or_eq_true, decide_eq_true_eq, List.any_eq_true]
    exact hform
  rw [Value.writeImage?, hplain, hu]
  rfl

theorem write?_text_image {s u : Text} (hform : ¬ IsImageForm (Text.trim s))
    (hu : Link.safeResource? true (Text.trim s) = some u) :
    (Value.text s).write? .image =
      if u.any isForbidden || containsConstruct u then none else some (imageText u) := by
  have hne : (Text.trim s).isEmpty = false := by
    cases hs : Text.trim s with
    | nil =>
      rw [hs] at hu
      exact nomatch hu
    | cons c t => rfl
  have hraw : (Value.text s).unchecked? .image = some (imageText u) := by
    rw [Value.unchecked?, Value.writeText?, hne]
    exact writeImage?_of_safe hform hu
  rw [Value.write?, hraw, Option.filter_some, isSafeValue_imageText hu, ← Bool.not_or]
  cases u.any isForbidden || containsConstruct u <;> rfl

/-- What a URL is refused for on purpose: angle brackets, braces, a backslash or a construct, and a semicolon
    in one that is no inline image. Every inline image in base64 has a semicolon; whether it is refused for
    that is left open. -/
def IsRefused (u : Text) : Prop :=
  (∃ c ∈ u, isForbidden c = true ∧ (c ≠ ';' ∨ Link.isDataImage u = false)) ∨ containsConstruct u = true

theorem any_isForbidden_of_isRefused {u : Text} (h : IsRefused u) :
    (u.any isForbidden || containsConstruct u) = true := by
  rw [Bool.or_eq_true, List.any_eq_true]
  -- the hygiene of values asks for the character alone, not for what the URL is
  exact h.imp_left fun ⟨c, hc, hforbidden, _⟩ => ⟨c, hc, hforbidden⟩

/-- A safe URL is written as a background image if nothing stands in it that no value may hold, and left
    out if it is refused. -/
theorem image_written_or_refused {s u : Text} (hform : ¬ IsImageForm (Text.trim s))
    (hu : Link.safeResource? true (Text.trim s) = some u) :
    ((∀ c ∈ u, isForbidden c = false) ∧ containsConstruct u = false →
        (Value.text s).write? .image = some (imageText u)) ∧
      (IsRefused u → (Value.text s).write? .image = none) := by
  rw [write?_text_image hform hu]
  constructor
  · rintro ⟨hfree, hconstruct⟩
    have hany : u.any isForbidden = false := by simpa using hfree
    rw [hany, hconstruct]
    rfl
  · intro hrefused
    exact if_pos (any_isForbidden_of_isRefused hrefused)

theorem image_written_or_refused_quoted :
    ¬ IsImageForm (Text.trim " /a\"b.png ") ∧
      Link.safeResource? true (Text.trim " /a\"b.png ") = some "/a\"b.png".toList ∧
      (Value.text " /a\"b.png ").write? .image = some "url(\"/a%22b.png\")".toList := by
  have hform : ¬ IsImageForm (Text.trim " /a\"b.png ") := by decide +kernel
  have hsafe : Link.safeResource? true (Text.trim " /a\"b.png ") = some "/a\"b.png".toList := by
    decide +kernel
  exact ⟨hform, hsafe, (image_written_or_refused hform hsafe).1 (by decide +kernel)⟩

/-- A safe URL with a brace in it is left out, and a form of an image is met in any letter case. -/
theorem not_written_braces :
    ¬ (∀ s u : Text, Text.trim s ≠ "none" →
        (∀ f ∈ Value.imageFunctions, Text.startsWith f (Text.trim s) = false) →
        Link.safeResource? true (Text.trim s) = some u →
        (Value.text s).write? .image = some (imageText u)) ∧
      (Value.text "/a\x7b1\x7d.png").write? .image = none ∧
      Link.safeResource? true "NONE" = some "NONE".toList ∧
      (Value.text "NONE").write? .image = some "NONE".toList := by
  have hbraces : (Value.text "/a\x7b1\x7d.png").write? .image = none := by decide +kernel
  refine ⟨fun h => ?_, hbraces, by decide +kernel, by decide +kernel⟩
  have hwritten := h "/a\x7b1\x7d.png" "/a\x7b1\x7d.png" (by decide) (by decide) (by decide +kernel)
  exact Option.some_ne_none _ (hwritten.symm.trans hbraces)

end Folio.Style
