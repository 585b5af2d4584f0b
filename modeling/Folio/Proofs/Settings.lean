import Folio.Page.Settings
import Folio.Proofs.Printed
import Folio.Proofs.Url

set_option autoImplicit false

/-!
# Settings read back

Reading settings trims every text and drops the blank ones, joins keywords to one text and turns every
spelling of a switch into a boolean. All that is settled after one reading: written and read again, as a
value or as a text that holds it, settings stay as they are.
-/
namespace Folio

namespace Json

def Settled (t : Option Text) : Prop := ∀ s ∈ t, s ≠ [] ∧ Text.Trimmed s

theorem settled_none : Settled none := fun _ h => absurd h.symm (Option.some_ne_none _)

theorem settled_trimmed? (v : Json) : Settled v.trimmed? := by
  intro s hs
  obtain ⟨hmap, hne⟩ := Option.filter_eq_some_iff.1 hs
  obtain ⟨t, _, rfl⟩ := Option.map_eq_some_iff.1 hmap
  exact ⟨by simpa using hne, Text.trimmed_trim t⟩

theorem trimmed?_ofOption {t : Option Text} (h : Settled t) : (ofOption .string t).trimmed? = t := by
  cases t with
  | none => rfl
  | some s =>
    obtain ⟨hne, htrimmed⟩ := h s rfl
    have htrim : Text.trim s = s := Text.trim_of_trimmed htrimmed
    simp [ofOption, trimmed?, string?, htrim, hne]

end Json

open Json

namespace PageSettings

theorem trimmed_join {words : List Text} (hne : words ≠ []) (h : ∀ w ∈ words, w ≠ [] ∧ Text.Trimmed w) :
    Text.join ", " words ≠ [] ∧ Text.Trimmed (Text.join ", " words) := by
  induction words with
  | nil => exact absurd rfl hne
  | cons w words ih =>
    obtain ⟨⟨hw, htrimmed⟩, hrest⟩ := List.forall_mem_cons.1 h
    cases words with
    | nil => simpa [Text.join, List.intercalate] using And.intro hw htrimmed
    | cons v words =>
      obtain ⟨hjoin, hjoined⟩ := ih (List.cons_ne_nil v words) hrest
      rw [Text.join_cons_cons]
      refine ⟨List.append_ne_nil_of_left_ne_nil hw _, ⟨?_, ?_⟩⟩
      · rw [List.head?_append_of_ne_nil _ hw]
        exact htrimmed.first
      · rw [List.getLast?_append_of_ne_nil _ (List.append_ne_nil_of_right_ne_nil _ hjoin),
          List.getLast?_append_of_ne_nil _ hjoin]
        exact hjoined.last

theorem settled_keywordsOf? (v : Json) : Settled (keywordsOf? v) := by
  cases v with
  | array items =>
    unfold keywordsOf?
    dsimp only
    split
    · exact settled_none
    · rename_i hwords
      intro s hs
      obtain rfl := Option.some.inj hs
      refine trimmed_join (by simpa using hwords) fun w hw => ?_
      obtain ⟨item, _, hitem⟩ := List.mem_filterMap.1 hw
      exact settled_trimmed? item w hitem
  | _ => exact settled_trimmed? _

theorem keywordsOf?_ofOption {t : Option Text} (h : Settled t) :
    keywordsOf? (ofOption .string t) = t := by
  have htext := trimmed?_ofOption h
  cases t <;> exact htext

theorem settled_bind {read? : Json → Option Text} (h : ∀ v, Settled (read? v)) (v : Option Json) :
    Settled (v.bind read?) := by
  cases v with
  | none => exact settled_none
  | some v => exact h v

end PageSettings

structure SearchSettings.IsSettled (s : SearchSettings) : Prop where
  title : Settled s.title
  description : Settled s.description
  keywords : Settled s.keywords
  canonicalUrl : Settled s.canonicalUrl

structure SocialSettings.IsSettled (s : SocialSettings) : Prop where
  title : Settled s.title
  description : Settled s.description
  image : Settled s.image
  card : Settled s.card

structure CustomCode.IsSettled (c : CustomCode) : Prop where
  head : Settled c.head
  footer : Settled c.footer
  css : Settled c.css

namespace PageSettings

/-- Settings whose texts stay as they are when they are read. -/
structure IsSettled (p : PageSettings) : Prop where
  search : p.search.IsSettled
  social : p.social.IsSettled
  code : p.code.IsSettled
  bodyClass : Settled p.bodyClass

theorem settled_text? (fields : Fields) (key : Text) : Settled (text? fields key) :=
  settled_bind settled_trimmed? _

theorem isSettled_ofFields (fields : Fields) : (ofFields fields).IsSettled where
  search := ⟨settled_text? _ _, settled_text? _ _, settled_bind settled_keywordsOf? _, settled_text? _ _⟩
  social := ⟨settled_text? _ _, settled_text? _ _, settled_text? _ _, settled_text? _ _⟩
  code := ⟨settled_text? _ _, settled_text? _ _, settled_text? _ _⟩
  bodyClass := settled_text? _ _

theorem isSettled_ofJson [Codec] (v : Json) : (ofJson v).IsSettled := by
  cases v <;> exact isSettled_ofFields _

section

variable {fields : Fields} {key : Text}

theorem text?_of_get? {t : Option Text} (hget : fields.get? key = some (ofOption .string t))
    (h : Settled t) : text? fields key = t := by
  rw [text?, hget]
  exact trimmed?_ofOption h

theorem keywords_of_get? {t : Option Text} (hget : fields.get? key = some (ofOption .string t))
    (h : Settled t) : (fields.get? key).bind keywordsOf? = t := by
  rw [hget]
  exact keywordsOf?_ofOption h

theorem flag_of_get? {b : Bool} (hget : fields.get? key = some (.bool b)) : flag fields key = b := by
  rw [flag, hget]
  rfl

end

theorem search_searchJson {s : SearchSettings} (h : s.IsSettled) :
    ∃ fields, searchJson s = .object fields ∧ searchOf fields = s := by
  refine ⟨_, rfl, ?_⟩
  unfold searchOf
  rw [text?_of_get? rfl h.title, text?_of_get? rfl h.description, keywords_of_get? rfl h.keywords,
    text?_of_get? rfl h.canonicalUrl, flag_of_get? rfl, flag_of_get? rfl]

theorem social_socialJson {s : SocialSettings} (h : s.IsSettled) :
    ∃ fields, socialJson s = .object fields ∧ socialOf fields = s := by
  refine ⟨_, rfl, ?_⟩
  unfold socialOf
  rw [text?_of_get? rfl h.title, text?_of_get? rfl h.description, text?_of_get? rfl h.image,
    text?_of_get? rfl h.card]

theorem code_codeJson {c : CustomCode} (h : c.IsSettled) :
    ∃ fields, codeJson c = .object fields ∧ codeOf fields = c := by
  refine ⟨_, rfl, ?_⟩
  unfold codeOf
  rw [text?_of_get? rfl h.head, text?_of_get? rfl h.footer, text?_of_get? rfl h.css]

theorem sectionOf_of_get? {fields found : Fields} {key : Text} {v : Json}
    (hget : fields.get? key = some v) (h : v = .object found) : sectionOf fields key = found := by
  rw [sectionOf, hget, h]
  rfl

/-- Written settings are read back, if their texts are settled. -/
theorem ofJson_toJson [Codec] {p : PageSettings} (h : p.IsSettled) : ofJson (toJson p) = p := by
  obtain ⟨search, hsearch, hsearch'⟩ := search_searchJson h.search
  obtain ⟨social, hsocial, hsocial'⟩ := social_socialJson h.social
  obtain ⟨code, hcode, hcode'⟩ := code_codeJson h.code
  change ofFields (Fields.sorted _) = p
  unfold ofFields
  rw [sectionOf_of_get? rfl hsearch, sectionOf_of_get? rfl hsocial, sectionOf_of_get? rfl hcode, hsearch',
    hsocial', hcode', text?_of_get? rfl h.bodyClass]
  rfl

def record (p : PageSettings) : Json :=
  .object [
    ("seo", .object [("title", ofOption .string p.search.title),
      ("description", ofOption .string p.search.description),
      ("keywords", ofOption .string p.search.keywords),
      ("canonicalUrl", ofOption .string p.search.canonicalUrl), ("noIndex", .bool p.search.noIndex),
      ("noFollow", .bool p.search.noFollow)]),
    ("social", .object [("ogTitle", ofOption .string p.social.title),
      ("ogDescription", ofOption .string p.social.description),
      ("ogImage", ofOption .string p.social.image), ("twitterCard", ofOption .string p.social.card)]),
    ("customCode", .object [("head", ofOption .string p.code.head),
      ("footer", ofOption .string p.code.footer), ("css", ofOption .string p.code.css)]),
    ("disableHeader", .bool p.hidesHeader), ("disableFooter", .bool p.hidesFooter),
    ("customBodyClass", ofOption .string p.bodyClass)]

theorem canonical_ofOption (t : Option Text) : (ofOption .string t).canonical = ofOption .string t := by
  cases t <;> rfl

theorem isPlain_ofOption (depth : Nat) (t : Option Text) : isPlain depth (ofOption .string t) = true := by
  cases t <;> cases depth <;> rfl

theorem canonical_record (p : PageSettings) : (record p).canonical = toJson p := by
  simp only [record, canonical, canonicalFields, canonical_ofOption]
  rfl

theorem isPlain_record (p : PageSettings) : isPlain maxDepth (record p) = true := by
  simp [record, isPlain, maxDepth, isPlain_ofOption]

section

variable [Codec]

theorem ofJson_text {s : Text} {v : Json} (h : Codec.read? s = some v) (hv : ∃ fields, v = .object fields) :
    ofJson (.string s) = ofJson v := by
  obtain ⟨fields, rfl⟩ := hv
  change ofFields (((Codec.read? s).bind object?).getD []) = _
  rw [h]
  rfl

variable [LawfulCodec]

theorem ofJson_write {p : PageSettings} {v : Json} (hv : isPlain maxDepth v = true)
    (hcanonical : v.canonical = toJson p) (h : p.IsSettled) : ofJson (.string (Codec.write v)) = p := by
  rw [ofJson_text (LawfulCodec.read?_write hv) (hcanonical ▸ ⟨_, rfl⟩), hcanonical, ofJson_toJson h]

/-- Reading settings once settles them: written as JSON, as a value or as a text in a string, they are
    read as the same settings, with the fields in the order of their keys or in that of the records. -/
theorem reading_settles (v : Json) :
    ofJson (toJson (ofJson v)) = ofJson v ∧
      ofJson (.string (Codec.write (toJson (ofJson v)))) = ofJson v ∧
      ofJson (.string (Codec.write (record (ofJson v)))) = ofJson v := by
  have hsettled := isSettled_ofJson v
  refine ⟨ofJson_toJson hsettled, ?_, ofJson_write (isPlain_record _) (canonical_record _) hsettled⟩
  rw [← canonical_record]
  refine ofJson_write (isPlain_canonical (isPlain_record _)) ?_ hsettled
  rw [canonical_canonical, canonical_record]

end

def untidy : Json :=
  .object [("seo", .object [("keywords", .array [.string " a", .string "", .string "b
"]),
    ("noIndex", .string "true"), ("title", .string "  Home ")])]

theorem reading_settles_untidy :
    (ofJson untidy).search = ⟨some "Home", none, some "a, b", none, true, false⟩ ∧
      ofJson (toJson (ofJson untidy)) = ofJson untidy ∧
      ofJson (.string (Codec.write (toJson (ofJson untidy)))) = ofJson untidy ∧
      ofJson (.string (Codec.write (record (ofJson untidy)))) = ofJson untidy :=
  ⟨by decide, reading_settles untidy⟩

end PageSettings

end Folio
