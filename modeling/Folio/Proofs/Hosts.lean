import Folio.Proofs.InlineStyle
import Folio.Proofs.Video

set_option autoImplicit false

/-!
# Hosts of videos

The name of a platform is looked for anywhere in a URL, so the place where it is first met need not be
the host. Where it is, the host belongs to the platform exactly when the name begins a label and is
written without the Kelvin sign. The classes of an id take in more than ASCII (the long s, the Kelvin
sign, the digits of all scripts), so an id is of the platform's form exactly when it is ASCII.
-/
namespace Folio.Link

def isHostChar (c : Char) : Bool := c != '/' && c != '?' && c != '#'

/-- A URL before its host and from there on. -/
def authority (url : Text) : Text × Text :=
  match Text.cut? "//" url with
  | some (a, b) => (a ++ "//", b)
  | none => ([], url)

def hostOf (url : Text) : Text := (authority url).2.takeWhile isHostChar

theorem authority_append (url : Text) : (authority url).1 ++ (authority url).2 = url := by
  unfold authority
  split
  · rename_i a b h
    exact (Text.cut?_eq_some h).symm
  · rfl

theorem hostOf_of_eq_append {url host tail : Text} (h : url = (authority url).1 ++ (host ++ '/' :: tail))
    (hhost : ∀ c ∈ host, isHostChar c = true) : hostOf url = host := by
  have hrest : (authority url).2 = host ++ '/' :: tail :=
    List.append_cancel_left ((authority_append url).trans h)
  have hslash : ¬ isHostChar '/' = true := by decide
  rw [hostOf, hrest, List.takeWhile_append_of_pos hhost, List.takeWhile_cons_of_neg hslash,
    List.append_nil]

theorem eq_of_append_slash {s t u v : Text} (hs : ∀ c ∈ s, isHostChar c = true)
    (ht : ∀ c ∈ t, isHostChar c = true) (h : s ++ '/' :: u = t ++ '/' :: v) : s = t := by
  have hslash : ¬ isHostChar '/' = true := by decide
  have hread := congrArg (List.takeWhile isHostChar) h
  rwa [List.takeWhile_append_of_pos hs, List.takeWhile_append_of_pos ht, List.takeWhile_cons_of_neg hslash,
    List.takeWhile_cons_of_neg hslash, List.append_nil, List.append_nil] at hread

def IsUnder (domain host : Text) : Prop :=
  Text.lower host = domain ∨ '.' :: domain <:+ Text.lower host

instance (domain host : Text) : Decidable (IsUnder domain host) := inferInstanceAs (Decidable (_ ∨ _))

/-- Domains in small letters, none of them the end of another. -/
structure Apart (domains : List Text) : Prop where
  ending : ∀ d ∈ domains, ∀ e ∈ domains, (e <:+ '.' :: d → e = d) ∧ ¬ '.' :: d <:+ e
  small : ∀ d ∈ domains, ∀ c ∈ d, Text.foldChar c = c ∧ isHostChar c = true
  folded : ∀ d ∈ domains, 's' ∉ d ∧ '\u212A' ∉ d

theorem map_foldChar_lower (s : Text) : (Text.lower s).map Text.foldChar = s.map Text.foldChar := by
  rw [Text.lower, List.map_map]
  exact List.map_congr_left fun c _ => Text.foldChar_toLower c

theorem map_foldChar_eq_lower {s : Text} (hlong : '\u017F' ∉ s) (hkelvin : '\u212A' ∉ s) :
    s.map Text.foldChar = Text.lower s := by
  refine List.map_congr_left fun c hc => ?_
  have hc₁ : c ≠ '\u017F' := fun e => hlong (e ▸ hc)
  have hc₂ : c ≠ '\u212A' := fun e => hkelvin (e ▸ hc)
  rw [Text.foldChar, if_neg hc₁, if_neg hc₂]

theorem eq_of_foldChar {c d : Char} (hd : d.isAlpha = false) (h : Text.foldChar c = d) : c = d := by
  have hfold : Text.foldChar c = c ∨ (Text.foldChar c).isAlpha = true := by
    by_cases hc : c.toNat < 128
    · exact Text.forall_ascii (P := fun c => Text.foldChar c = c ∨ (Text.foldChar c).isAlpha = true)
        (by decide) hc
    · unfold Text.foldChar
      split
      · exact .inr (by decide)
      · split
        · exact .inr (by decide)
        · exact .inl (Text.toLower_of_not_ascii hc)
  rcases hfold with hsame | halpha
  · exact hsame.symm.trans h
  · rw [h, hd] at halpha
    exact nomatch halpha

theorem getLast?_of_lower {s : Text} (h : (Text.lower s).getLast? = some '.') : s.getLast? = some '.' := by
  rw [Text.lower, List.getLast?_map, Option.map_eq_some_iff] at h
  obtain ⟨c, hc, hlower⟩ := h
  have hfold : Text.foldChar c = '.' := by
    rw [← Text.foldChar_toLower, hlower]
    rfl
  obtain rfl := eq_of_foldChar (by decide) hfold
  exact hc

theorem isUnder_append_iff {domain labels name : Text} (hlength : name.length = domain.length) :
    IsUnder domain (labels ++ name) ↔
      Text.lower name = domain ∧ (labels = [] ∨ labels.getLast? = some '.') := by
  have hlower : (Text.lower name).length = domain.length := (List.length_map _).trans hlength
  have hhost : Text.lower (labels ++ name) = Text.lower labels ++ Text.lower name := List.map_append
  rw [IsUnder, hhost]
  constructor
  · rintro (hsame | ⟨first, hfirst⟩)
    · obtain ⟨hnone, hname⟩ := List.append_inj' (hsame.trans (List.nil_append domain).symm) hlower
      exact ⟨hname, .inl (List.map_eq_nil_iff.1 hnone)⟩
    · have hsplit : Text.lower labels ++ Text.lower name = (first ++ ['.']) ++ domain := by
        rw [← hfirst, List.append_assoc]
        rfl
      obtain ⟨hlast, hname⟩ := List.append_inj' hsplit hlower
      refine ⟨hname, .inr (getLast?_of_lower ?_)⟩
      rw [hlast, List.getLast?_concat]
  · rintro ⟨rfl, rfl | hlast⟩
    · exact .inl rfl
    · obtain ⟨first, rfl⟩ := List.getLast?_eq_some_iff.1 hlast
      have hdot : Text.lower (first ++ ['.']) = Text.lower first ++ ['.'] := List.map_append
      refine .inr ⟨Text.lower first, ?_⟩
      rw [hdot, List.append_assoc]
      rfl

namespace Apart

variable {domains : List Text} {name : Text}

theorem map_foldChar (h : Apart domains) {d : Text} (hd : d ∈ domains) : d.map Text.foldChar = d := by
  conv_rhs => rw [← List.map_id d]
  exact List.map_congr_left fun c hc => (h.small d hd c hc).1

theorem isHostChar (h : Apart domains) (hname : name.map Text.foldChar ∈ domains) :
    ∀ c ∈ name, isHostChar c = true := by
  intro c hc
  have hsmall := (h.small _ hname (Text.foldChar c) (List.mem_map_of_mem hc)).2
  have hdelimiter : ∀ d ∈ ['/', '?', '#'], Link.isHostChar (Text.foldChar d) = false := by decide
  by_cases hd : c ∈ ['/', '?', '#']
  · rw [hdelimiter c hd] at hsmall
    exact nomatch hsmall
  · simpa [Link.isHostChar, and_assoc] using hd

theorem eq_of_isUnder (h : Apart domains) {d labels : Text} (hd : d ∈ domains)
    (hname : name.map Text.foldChar ∈ domains) (hunder : IsUnder d (labels ++ name)) :
    name.map Text.foldChar = d := by
  have hends : name.map Text.foldChar <:+ (Text.lower (labels ++ name)).map Text.foldChar := by
    rw [map_foldChar_lower, List.map_append]
    exact List.suffix_append _ _
  rcases hunder with hsame | ⟨first, hfirst⟩
  · rw [hsame, h.map_foldChar hd] at hends
    exact (h.ending d hd _ hname).1 (hends.trans (List.suffix_cons '.' d))
  · have hdomain : '.' :: d <:+ (Text.lower (labels ++ name)).map Text.foldChar := by
      rw [← hfirst, List.map_append, List.map_cons, h.map_foldChar hd]
      exact List.suffix_append _ _
    rcases List.suffix_or_suffix_of_suffix hends hdomain with hin | hin
    · exact (h.ending d hd _ hname).1 hin
    · exact absurd hin (h.ending d hd _ hname).2

/-- A host that ends in the name of a domain is under one exactly if the name begins a label and is written
    without the Kelvin sign. -/
theorem isUnder_iff (h : Apart domains) {labels : Text} (hname : name.map Text.foldChar ∈ domains) :
    (∃ d ∈ domains, IsUnder d (labels ++ name)) ↔
      '\u212A' ∉ name ∧ (labels = [] ∨ labels.getLast? = some '.') := by
  have hlength : name.length = (name.map Text.foldChar).length := (List.length_map _).symm
  constructor
  · rintro ⟨d, hd, hunder⟩
    obtain rfl := h.eq_of_isUnder hd hname hunder
    obtain ⟨hlower, hlabels⟩ := (isUnder_append_iff hlength).1 hunder
    refine ⟨fun hkelvin => (h.folded _ hd).2 ?_, hlabels⟩
    rw [← hlower]
    exact List.mem_map.2 ⟨_, hkelvin, rfl⟩
  · rintro ⟨hkelvin, hlabels⟩
    have hlong : '\u017F' ∉ name := fun hlong => (h.folded _ hname).1 (List.mem_map.2 ⟨_, hlong, rfl⟩)
    have hlower := (map_foldChar_eq_lower hlong hkelvin).symm
    exact ⟨_, hname, (isUnder_append_iff hlength).2 ⟨hlower, hlabels⟩⟩

end Apart

namespace VideoSource

def metAt? (answer? : Text → Option Text) : Text → Option (Text × Text)
  | [] => none
  | c :: s =>
    if (answer? (c :: s)).isSome then some ([], c :: s)
    else (metAt? answer? s).map fun (before, place) => (c :: before, place)

theorem first?_eq_metAt? (answer? : Text → Option Text) (s : Text) :
    first? answer? s = (metAt? answer? s).bind fun p => answer? p.2 := by
  induction s with
  | nil => rfl
  | cons c s ih =>
    rw [first?, metAt?]
    split
    · rename_i h
      obtain ⟨a, ha⟩ := Option.isSome_iff_exists.1 h
      rw [ha, Option.some_or]
      exact ha.symm
    · rename_i h
      rw [Option.not_isSome_iff_eq_none.1 h, Option.none_or, ih]
      cases metAt? answer? s <;> rfl

theorem metAt?_eq_some {answer? : Text → Option Text} {s before place : Text}
    (h : metAt? answer? s = some (before, place)) : s = before ++ place ∧ (answer? place).isSome = true := by
  induction s generalizing before with
  | nil => exact nomatch h
  | cons c s ih =>
    rw [metAt?] at h
    split at h
    · rename_i hanswer
      obtain ⟨rfl, rfl⟩ := Prod.mk.inj (Option.some.inj h)
      exact ⟨rfl, hanswer⟩
    · obtain ⟨⟨b, p⟩, hs, e⟩ := Option.map_eq_some_iff.1 h
      obtain ⟨rfl, rfl⟩ := Prod.mk.inj e
      exact (ih hs).imp_left (congrArg (c :: ·))

def youTubeDomains : List Text := ["youtube.com", "youtube-nocookie.com", "youtu.be"]

def vimeoDomains : List Text := ["vimeo.com"]

def domains : VideoSource → List Text
  | youTube _ => youTubeDomains
  | vimeo _ => vimeoDomains
  | file _ => []

def id : VideoSource → Text
  | youTube id => id
  | vimeo id => id
  | file _ => []

def answer? : VideoSource → Text → Option Text
  | youTube _ => youTubeId?
  | vimeo _ => vimeoId?
  | file _ => fun _ => none

theorem apart_domains (v : VideoSource) : Apart v.domains := by
  have hyouTube : Apart youTubeDomains := ⟨by decide, by decide, by decide⟩
  have hvimeo : Apart vimeoDomains := ⟨by decide, by decide, by decide⟩
  cases v with
  | youTube id => exact hyouTube
  | vimeo id => exact hvimeo
  | file url => exact ⟨fun _ => nofun, fun _ => nofun, fun _ => nofun⟩

theorem exists_domain_of_youTubeId? {s id : Text} (h : youTubeId? s = some id) :
    ∃ d ∈ youTubeDomains, ∃ r, after? (d ++ "/") s = some r := by
  rcases Option.or_eq_some_iff.1 h with h | ⟨_, h⟩
  · obtain ⟨r, hr, _⟩ := Option.bind_eq_some_iff.1 h
    rcases Option.or_eq_some_iff.1 hr with hr | ⟨_, hr⟩
    · exact ⟨"youtube-nocookie.com", by decide, r, hr⟩
    · exact ⟨"youtube.com", by decide, r, hr⟩
  · obtain ⟨r, hr, _⟩ := Option.bind_eq_some_iff.1 h
    exact ⟨"youtu.be", by decide, r, hr⟩

theorem exists_domain_of_vimeoId? {s id : Text} (h : vimeoId? s = some id) :
    ∃ d ∈ vimeoDomains, ∃ r, after? (d ++ "/") s = some r := by
  obtain ⟨r, hr, _⟩ := Option.bind_eq_some_iff.1 h
  exact ⟨"vimeo.com", by decide, r, hr⟩

theorem exists_name_of_answer? {v : VideoSource} {place id : Text} (h : v.answer? place = some id) :
    ∃ name tail, place = name ++ '/' :: tail ∧ name.map Text.foldChar ∈ v.domains := by
  have hdomain : ∃ d ∈ v.domains, ∃ r, after? (d ++ "/") place = some r := by
    cases v with
    | youTube _ => exact exists_domain_of_youTubeId? h
    | vimeo _ => exact exists_domain_of_vimeoId? h
    | file _ => exact nomatch h
  obtain ⟨d, hd, tail, htail⟩ := hdomain
  obtain ⟨q, hq, rfl⟩ := Text.dropStartUnder?_eq_some htail
  obtain ⟨name, last, rfl, hname, hlast⟩ := List.map_eq_append_iff.1 hq
  obtain ⟨c, rfl, hc⟩ := List.map_eq_singleton_iff.1 hlast
  obtain rfl : c = '/' := eq_of_foldChar (by decide) hc
  exact ⟨name, tail, by rw [List.append_assoc]; rfl, hname ▸ hd⟩

theorem first?_of_ofText? {s : Text} {v : VideoSource} (h : ofText? s = some v) (hv : v.domains ≠ []) :
    first? v.answer? (Text.trim s) = some v.id := by
  unfold ofText? at h
  dsimp only at h
  split at h
  · rename_i hid
    obtain rfl := Option.some.inj h
    exact hid
  · rename_i hid
    obtain rfl := Option.some.inj h
    exact hid
  · obtain ⟨url, _, rfl⟩ := Option.map_eq_some_iff.1 h
    exact absurd rfl hv

theorem exists_metAt? {s : Text} {v : VideoSource} (h : ofText? s = some v) (hv : v.domains ≠ []) :
    ∃ before name tail, metAt? v.answer? (Text.trim s) = some (before, name ++ '/' :: tail) ∧
      name.map Text.foldChar ∈ v.domains ∧ v.answer? (name ++ '/' :: tail) = some v.id := by
  have hfirst := first?_of_ofText? h hv
  rw [first?_eq_metAt?] at hfirst
  obtain ⟨⟨before, place⟩, hmet, hid⟩ := Option.bind_eq_some_iff.1 hfirst
  obtain ⟨name, tail, rfl, hname⟩ := exists_name_of_answer? hid
  exact ⟨before, name, tail, hmet, hname, hid⟩

theorem isIdChar_ascii {c : Char} (h : isIdChar c = true) :
    (c.isAlphanum = true ∨ c = '_' ∨ c = '-') ↔ c.toNat < 128 := by
  constructor
  · rintro (h | rfl | rfl)
    · exact Text.toNat_lt_of_isAlphanum h
    · decide
    · decide
  · intro hc
    exact Text.forall_ascii (P := fun c => isIdChar c = true → c.isAlphanum = true ∨ c = '_' ∨ c = '-')
      (by decide) hc h

theorem isDecimalDigit_ascii {c : Char} (h : Text.isDecimalDigit c = true) :
    c.isDigit = true ↔ c.toNat < 128 := by
  constructor
  · intro hc
    exact Text.toNat_lt_of_isAlphanum (by simp [Char.isAlphanum, hc])
  · intro hc
    have hranges : ∀ r ∈ Text.digitRanges, r = (0x30, 0x39) ∨ 128 ≤ r.1 := by decide
    obtain ⟨r, hr, hin⟩ := List.any_eq_true.1 h
    simp only [Bool.and_eq_true, decide_eq_true_eq] at hin
    rcases hranges r hr with rfl | hfar
    · rw [Char.isDigit, Bool.and_eq_true, decide_eq_true_eq, decide_eq_true_eq]
      exact hin
    · omega

/-- A platform is known by the host, and by an id as it gives them. -/
def Recognised (url : Text) (v : VideoSource) : Prop :=
  match v with
  | youTube id =>
    (∀ c ∈ id, c.isAlphanum = true ∨ c = '_' ∨ c = '-') ∧ ∃ d ∈ youTubeDomains, IsUnder d (hostOf url)
  | vimeo id => (∀ c ∈ id, c.isDigit = true) ∧ ∃ d ∈ vimeoDomains, IsUnder d (hostOf url)
  | file _ => True

instance (url : Text) (v : VideoSource) : Decidable (v.Recognised url) :=
  match v with
  | youTube _ => inferInstanceAs (Decidable (_ ∧ _))
  | vimeo _ => inferInstanceAs (Decidable (_ ∧ _))
  | file _ => inferInstanceAs (Decidable True)

theorem recognised_iff_of_answer? {v : VideoSource} {url place : Text} (h : v.answer? place = some v.id) :
    v.Recognised url ↔ (∀ c ∈ v.id, c.toNat < 128) ∧ ∃ d ∈ v.domains, IsUnder d (hostOf url) := by
  cases v with
  | youTube id =>
    refine and_congr_left' (forall₂_congr fun c hc => isIdChar_ascii ?_)
    obtain ⟨t, ht⟩ := exists_of_youTubeId? h
    exact isIdChar_of_videoId? ht c hc
  | vimeo id =>
    refine and_congr_left' (forall₂_congr fun c hc => isDecimalDigit_ascii ?_)
    obtain ⟨t, ht⟩ := exists_of_vimeoId? h
    exact isDecimalDigit_of_digits? ht c hc
  | file _ => exact nomatch h

/-- Where the host is what a platform is met by, it is recognised exactly if the id holds ASCII
    characters only and its name begins a label and is free of the Kelvin sign. -/
theorem recognised_iff {s labels name tail : Text} {v : VideoSource} (hv : ofText? s = some v)
    (hmet : metAt? v.answer? (Text.trim s) =
      some ((authority (Text.trim s)).1 ++ labels, name ++ '/' :: tail))
    (hbare : ∀ c ∈ labels ++ name, isHostChar c = true) :
    v.Recognised (Text.trim s) ↔
      (∀ c ∈ v.id, c.toNat < 128) ∧ '\u212A' ∉ name ∧ (labels = [] ∨ labels.getLast? = some '.') := by
  obtain ⟨hurl, hanswer⟩ := metAt?_eq_some hmet
  have hplatform : v.domains ≠ [] := by
    cases v with
    | youTube _ => exact List.cons_ne_nil _ _
    | vimeo _ => exact List.cons_ne_nil _ _
    | file _ => exact nomatch hanswer
  obtain ⟨before, name', tail', hmet', hname, hid⟩ := exists_metAt? hv hplatform
  obtain ⟨rfl, hplace⟩ := Prod.mk.inj (Option.some.inj (hmet'.symm.trans hmet))
  obtain rfl : name' = name :=
    eq_of_append_slash (v.apart_domains.isHostChar hname)
      (fun c hc => hbare c (List.mem_append_right _ hc)) hplace
  have hsplit : Text.trim s = (authority (Text.trim s)).1 ++ ((labels ++ name') ++ '/' :: tail) := by
    rw [List.append_assoc, ← List.append_assoc]
    exact hurl
  rw [recognised_iff_of_answer? hid, hostOf_of_eq_append hsplit hbare, v.apart_domains.isUnder_iff hname]

theorem recognised_iff_subdomain :
    ofText? " https://www.youtube.com/embed/dQw4w9WgXcQ" = some (youTube "dQw4w9WgXcQ") ∧
      (youTube "dQw4w9WgXcQ").Recognised (Text.trim " https://www.youtube.com/embed/dQw4w9WgXcQ") := by
  have hv : ofText? " https://www.youtube.com/embed/dQw4w9WgXcQ" = some (youTube "dQw4w9WgXcQ") := by
    decide +kernel
  have hmet : metAt? (youTube "dQw4w9WgXcQ").answer? (Text.trim " https://www.youtube.com/embed/dQw4w9WgXcQ") =
      some ((authority (Text.trim " https://www.youtube.com/embed/dQw4w9WgXcQ")).1 ++ ("www." : Text),
        ("youtube.com" : Text) ++ '/' :: ("embed/dQw4w9WgXcQ" : Text)) := by
    decide +kernel
  have hid : ∀ c ∈ ("dQw4w9WgXcQ" : Text), c.toNat < 128 := by decide
  exact ⟨hv, (recognised_iff hv hmet (by decide)).2 ⟨hid, by decide, .inr (by decide)⟩⟩

/-- The name of a platform in the path of another site. It need not begin a label either, and a long s
    or a digit of another script passes into an id. -/
theorem not_recognised_foreign :
    ¬ (∀ (s : Text) (v : VideoSource), ofText? s = some v → v.Recognised (Text.trim s)) ∧
      ∀ p ∈ ([("https://notyoutube.com/embed/abcdef", youTube "abcdef"),
          ("https://youtu.be/abcde\u017F", youTube "abcde\u017F"),
          ("https://vimeo.com/\u0661", vimeo "\u0661")] : List (Text × VideoSource)),
        ofText? p.1 = some p.2 ∧ ¬ p.2.Recognised (Text.trim p.1) := by
  refine ⟨fun h => ?_, by decide +kernel⟩
  have hplayed : ofText? "https://example.com/youtube.com/embed/abcdef.mp4" = some (youTube "abcdef") := by
    decide +kernel
  exact absurd (h _ _ hplayed) (by decide +kernel)

end VideoSource

end Folio.Link
