import Folio.Json.Printer
import Folio.Link.SecureHost
import Folio.Proofs.Locations
import Folio.Proofs.Url
import Folio.Route
import Folio.Server.Response
import Folio.Server.Snapshot

set_option autoImplicit false

/-!
# Where the locations of a sitemap lead

A location is the URL of a page. A path names a page by a single segment, and two names are taken by
the robots file and by the sitemap. So the location of a page leads to the page if its slug is the
homepage or such a segment; one with a slash inside leads nowhere.
-/
namespace Folio

namespace Text

theorem head_trimChar (d : Char) (s : Text) : ∀ c ∈ (trimChar d s).head?, c ≠ d := by
  intro c hc
  have h := head_dropWhile s c (head_dropEndWhile (· == d) _ c hc)
  simpa using h

theorem getLast_trimChar (d : Char) (s : Text) : ∀ c ∈ (trimChar d s).getLast?, c ≠ d := by
  intro c hc
  rw [trimChar, dropEndWhile, List.getLast?_reverse] at hc
  simpa using head_dropWhile _ c hc

theorem trimChar_of_ends {d : Char} {s : Text} (hfirst : ∀ c ∈ s.head?, c ≠ d)
    (hlast : ∀ c ∈ s.getLast?, c ≠ d) : trimChar d s = s := by
  have hstart : ∀ c ∈ s.head?, (c == d) = false := fun c hc => beq_eq_false_iff_ne.2 (hfirst c hc)
  have hend : ∀ c ∈ s.reverse.head?, (c == d) = false := by
    intro c hc
    rw [List.head?_reverse] at hc
    exact beq_eq_false_iff_ne.2 (hlast c hc)
  rw [trimChar, dropWhile_of_head hstart, dropEndWhile, dropWhile_of_head hend, List.reverse_reverse]

theorem trimChar_trimChar (d : Char) (s : Text) : trimChar d (trimChar d s) = trimChar d s :=
  trimChar_of_ends (head_trimChar d s) (getLast_trimChar d s)

theorem trimChar_of_not_mem {d : Char} {s : Text} (h : d ∉ s) : trimChar d s = s := by
  apply trimChar_of_ends
  · rintro c hc rfl
    exact h (List.mem_of_mem_head? hc)
  · rintro c hc rfl
    exact h (List.mem_of_mem_getLast? hc)

end Text

namespace Route

theorem dropLastSlash_of_last {s : Text} (h : ∀ c ∈ s.getLast?, c ≠ '/') : dropLastSlash s = s := by
  have hdrop : Text.dropStart? ['/'] s.reverse = none := by
    cases hr : s.reverse with
    | nil => rfl
    | cons c r =>
      have hc : c ∈ s.getLast? := by rw [← List.head?_reverse, hr]; rfl
      exact if_neg (h c hc).symm
  have hend : Text.dropEnd? "/" s = none := by
    rw [Text.dropEnd?]
    exact congrArg (Option.map List.reverse) hdrop
  rw [dropLastSlash, hend]
  rfl

def ofPage (homepage slug : Text) : Route :=
  let name := Text.trimChar '/' slug
  if name.isEmpty || name = homepage then home
  else if name = "robots.txt" then robots
  else if name = "sitemap.xml" then sitemap
  else if name.contains '/' then notFound
  else .slug name

theorem ofPath_segment {name : Text} (hne : name ≠ []) (hlast : ∀ c ∈ name.getLast?, c ≠ '/') :
    ofPath ('/' :: name) =
      if name = "robots.txt" then robots
      else if name = "sitemap.xml" then sitemap
      else if name.contains '/' then notFound
      else .slug name := by
  have hroot : (decide ('/' :: name = "") || decide ('/' :: name = "/")) = false := by simp [hne]
  have hrobots : ('/' :: name = "/robots.txt") ↔ name = "robots.txt" :=
    ⟨fun e => (List.cons.inj e).2, congrArg (List.cons '/')⟩
  have hsitemap : ('/' :: name = "/sitemap.xml") ↔ name = "sitemap.xml" :=
    ⟨fun e => (List.cons.inj e).2, congrArg (List.cons '/')⟩
  have hsegment : dropLastSlash (dropSlash ('/' :: name)) = name := dropLastSlash_of_last hlast
  have hempty : name.isEmpty = false := by simpa using hne
  rw [ofPath, if_neg (Bool.eq_false_iff.1 hroot), hsegment]
  simp only [hrobots, hsitemap, hempty, Bool.false_or]

theorem ofPath_pageUrl (homepage slug : Text) :
    ofPath (Site.pageUrl [] slug homepage) = ofPage homepage slug := by
  rw [Site.pageUrl, ofPage]
  split
  · rfl
  · rename_i h
    have hne : Text.trimChar '/' slug ≠ [] := by
      intro e
      rw [e] at h
      exact h rfl
    exact ofPath_segment hne (Text.getLast_trimChar '/' slug)

/-- A name that a path can give to a page. -/
structure IsSegment (slug : Text) : Prop where
  slash : '/' ∉ slug
  robots : slug ≠ "robots.txt"
  sitemap : slug ≠ "sitemap.xml"

theorem ofPage_segment {homepage slug : Text} (h : IsSegment slug) (hne : slug ≠ [])
    (hhome : slug ≠ homepage) : ofPage homepage slug = .slug slug := by
  have hempty : slug.isEmpty = false := by simpa using hne
  have hslash : slug.contains '/' = false := by simpa using h.slash
  simp only [ofPage, Text.trimChar_of_not_mem h.slash, hempty, hhome, h.robots, h.sitemap, hslash,
    decide_false, Bool.or_false, Bool.false_eq_true, if_false]

theorem ofPage_homepage {homepage : Text} (h : Text.trimChar '/' homepage = homepage) :
    ofPage homepage homepage = home := by
  simp [ofPage, h]

theorem ofPage_nested {homepage slug : Text} (hhome : Text.trimChar '/' slug ≠ homepage)
    (h : '/' ∈ Text.trimChar '/' slug) : ofPage homepage slug = notFound := by
  have hempty : (Text.trimChar '/' slug).isEmpty = false := by simpa using List.ne_nil_of_mem h
  have hrobots : Text.trimChar '/' slug ≠ "robots.txt" := fun e => absurd (e ▸ h) (by decide)
  have hsitemap : Text.trimChar '/' slug ≠ "sitemap.xml" := fun e => absurd (e ▸ h) (by decide)
  have hslash : (Text.trimChar '/' slug).contains '/' = true := by simpa using h
  simp only [ofPage, hempty, hhome, hrobots, hsitemap, hslash, decide_false, Bool.or_false,
    Bool.false_eq_true, if_false, if_true]

theorem ofPage_robots {homepage slug : Text} (hhome : slug ≠ homepage) (h : slug = "robots.txt") :
    ofPage homepage slug = robots := by
  have hslash : '/' ∉ slug := h ▸ by decide
  have hempty : slug.isEmpty = false := h ▸ by decide
  simp only [ofPage, Text.trimChar_of_not_mem hslash, hempty, hhome, decide_false, Bool.or_false,
    Bool.false_eq_true, if_false, if_pos h]

theorem ofPage_sitemap {homepage slug : Text} (hhome : slug ≠ homepage) (h : slug = "sitemap.xml") :
    ofPage homepage slug = sitemap := by
  have hslash : '/' ∉ slug := h ▸ by decide
  have hempty : slug.isEmpty = false := h ▸ by decide
  have hrobots : slug ≠ "robots.txt" := h ▸ by decide
  simp only [ofPage, Text.trimChar_of_not_mem hslash, hempty, hhome, hrobots, decide_false,
    Bool.or_false, Bool.false_eq_true, if_false, if_pos h]

end Route

theorem Site.trimChar_homepage (fields : Json.Fields) :
    Text.trimChar '/' (ofFields fields).homepage = (ofFields fields).homepage := by
  have hset : ∀ slug, homepageOf fields = some slug → Text.trimChar '/' slug = slug := by
    intro slug h
    obtain ⟨hm, _⟩ := Option.filter_eq_some_iff.1 h
    obtain ⟨written, _, rfl⟩ := Option.map_eq_some_iff.1 hm
    exact Text.trimChar_trimChar '/' written
  change Text.trimChar '/' ((homepageOf fields).getD defaultHomepage) =
    (homepageOf fields).getD defaultHomepage
  cases h : homepageOf fields with
  | none => exact Text.trimChar_of_not_mem (by decide)
  | some slug => exact hset slug h

namespace Snapshot

variable {s : Snapshot}

def listed [Json.Codec] (s : Snapshot) : List SitemapEntry := s.entries.filter SitemapEntry.isListed

/-- Whether a path is answered with a page that has a slug. -/
def Shows [Json.Codec] [Link.HostReader] (s : Snapshot) (path slug : Text) : Prop :=
  ∃ p ∈ s.publicPages, p.slug = slug ∧ ∃ ts, Response.templatesFor s.store p = .ok ts ∧
    Response.ofPath s.store path = .html 200 (Compose.page p s.site ⟨ts⟩)

theorem exists_page_of_listed [Json.Codec] {e : SitemapEntry} (h : e ∈ s.listed) :
    ∃ p ∈ s.publicPages, p.slug = e.slug := by
  obtain ⟨p, hp, rfl⟩ := List.mem_map.1 (List.mem_filter.1 h).1
  exact ⟨p, List.mem_mergeSort.1 hp, rfl⟩

theorem ne_nil_of_listed [Json.Codec] {e : SitemapEntry} (h : e ∈ s.listed) : e.slug ≠ [] := by
  have hlisted := (List.mem_filter.1 h).2
  intro hnil
  simp [SitemapEntry.isListed, Text.isBlankText, hnil] at hlisted

theorem exists_page? {p : Page} (h : p ∈ s.publicPages) :
    ∃ q ∈ s.publicPages, q.slug = p.slug ∧ s.page? p.slug = some q := by
  cases hq : s.page? p.slug with
  | none => exact absurd (List.find?_eq_none.1 hq p h) (by simp)
  | some q => exact ⟨q, List.mem_of_find?_eq_some hq, by simpa using List.find?_some hq, rfl⟩

section

variable [Json.Codec]

theorem exists_missing (s : Snapshot) (ts : List Template) (choice : Option Int)
    (kind : TemplateKind) : ∃ more, Response.missing s.store ts choice kind = .ok more := by
  unfold Response.missing
  dsimp only
  split
  · exact ⟨[], rfl⟩
  · exact ⟨_, rfl⟩

theorem exists_templatesFor (s : Snapshot) (p : Page) :
    ∃ ts, Response.templatesFor s.store p = .ok ts := by
  let chosen := s.templatesWith (p.headerId.toList ++ p.footerId.toList)
  obtain ⟨header, hh⟩ := s.exists_missing chosen p.headerId .header
  obtain ⟨footer, hf⟩ := s.exists_missing (chosen ++ header) p.footerId .footer
  refine ⟨chosen ++ header ++ footer, ?_⟩
  change (Response.missing s.store chosen p.headerId .header >>= _) = _
  rw [hh]
  change (Response.missing s.store (chosen ++ header) p.footerId .footer >>= _) = _
  rw [hf]
  rfl

variable [Link.HostReader]

theorem shows_of_page {path slug : Text} (hslug : ∃ p ∈ s.publicPages, p.slug = slug)
    (hpath : Response.ofRoute s.store (Route.ofPath path) = Response.page s.store s.site slug) :
    s.Shows path slug := by
  obtain ⟨p, hp, rfl⟩ := hslug
  obtain ⟨q, hq, hsame, hfound⟩ := exists_page? hp
  obtain ⟨ts, hts⟩ := s.exists_templatesFor q
  refine ⟨q, hq, hsame, ts, hts, ?_⟩
  have hpage : Response.page s.store s.site p.slug = .ok (.html 200 (Compose.page q s.site ⟨ts⟩)) := by
    have hask : s.store.page p.slug = .ok (some q) := congrArg Except.ok hfound
    rw [Response.page, hask]
    change (Response.templatesFor s.store q >>= _) = _
    rw [hts]
    rfl
  rw [Response.ofPath, hpath, hpage]

theorem shows_of_route {path slug : Text} (hslug : ∃ p ∈ s.publicPages, p.slug = slug)
    (hpath : Route.ofPath path = .slug slug ∨ Route.ofPath path = .home ∧ slug = s.site.homepage) :
    s.Shows path slug := by
  rcases hpath with hpath | ⟨hpath, rfl⟩
  · exact shows_of_page hslug (by rw [hpath]; rfl)
  · exact shows_of_page hslug (by rw [hpath]; rfl)

theorem status_of_notFound (s : Snapshot) {path : Text} (h : Route.ofPath path = .notFound) :
    (Response.ofPath s.store path).status = 404 := by
  rw [Response.ofPath, h]
  rfl

end

end Snapshot

namespace Sitemap

def pathOf? (site : Site) (location : Text) : Option Text :=
  Text.dropStart? (site.baseUrl?.getD []) location

theorem pathOf?_location (site : Site) (e : SitemapEntry) :
    pathOf? site (location site e) = some (Site.pageUrl [] e.slug site.homepage) := by
  have hlocation : location site e =
      site.baseUrl?.getD [] ++ Site.pageUrl [] e.slug site.homepage := by
    rw [location, Site.pageUrl, Site.pageUrl]
    split
    · rfl
    · exact List.append_assoc _ _ _
  rw [pathOf?, hlocation, Text.dropStart?_append]

end Sitemap

namespace Snapshot

section

variable [Json.Codec] [Link.HostReader]

theorem locations_sitemap (s : Snapshot) :
    Sitemap.locations (Response.ofPath s.store "/sitemap.xml").body =
      s.listed.map (Sitemap.location s.site) :=
  Sitemap.locations_write s.site s.entries

/-- Every location of the sitemap leads to the page of its entry, if the slug of the entry is the
    homepage or a name that a path can give to a page. A slash inside a slug leads nowhere, and two
    names lead to the robots file and to the sitemap. -/
theorem answer_of_listed (s : Snapshot) :
    Sitemap.locations (Response.ofPath s.store "/sitemap.xml").body =
        s.listed.map (Sitemap.location s.site) ∧
      ∀ e ∈ s.listed, ∃ path, Sitemap.pathOf? s.site (Sitemap.location s.site e) = some path ∧
        (e.slug = s.site.homepage ∨ Route.IsSegment e.slug → s.Shows path e.slug) ∧
        (Text.trimChar '/' e.slug ≠ s.site.homepage → '/' ∈ Text.trimChar '/' e.slug →
          (Response.ofPath s.store path).status = 404) ∧
        (e.slug ≠ s.site.homepage → e.slug = "robots.txt" →
          Response.ofPath s.store path = .plain 200 s.site.robotsFile) ∧
        (e.slug ≠ s.site.homepage → e.slug = "sitemap.xml" →
          Response.ofPath s.store path =
            ⟨200, some Response.xmlType, Sitemap.write s.site s.entries⟩) := by
  refine ⟨s.locations_sitemap, fun e he => ⟨_, Sitemap.pathOf?_location s.site e, ?_⟩⟩
  have hslug := exists_page_of_listed he
  have hroute := Route.ofPath_pageUrl s.site.homepage e.slug
  refine ⟨fun h => shows_of_route hslug ?_, fun hhome h => s.status_of_notFound ?_, ?_, ?_⟩
  · rw [hroute]
    by_cases hhome : e.slug = s.site.homepage
    · rw [hhome]
      exact .inr ⟨Route.ofPage_homepage (Site.trimChar_homepage s.settings), rfl⟩
    · have hname := h.resolve_left hhome
      exact .inl (Route.ofPage_segment hname (ne_nil_of_listed he) hhome)
  · rw [hroute, Route.ofPage_nested hhome h]
  · intro hhome h
    rw [Response.ofPath, hroute, Route.ofPage_robots hhome h]
    rfl
  · intro hhome h
    rw [Response.ofPath, hroute, Route.ofPage_sitemap hhome h]
    rfl

end

def lone (settings : Json.Fields) (slug : Text) : Snapshot where
  settings := settings
  pages := [⟨1, slug, "Page", .null, none, none, .null, true, false, none⟩]
  templates := []

theorem listed_lone [Json.Codec] (settings : Json.Fields) {slug : Text} (h : Text.isBlankText slug = false) :
    (lone settings slug).listed = [⟨slug, none, true, false, false⟩] := by
  have hentries : (lone settings slug).entries = [⟨slug, none, true, false, false⟩] := by
    rw [entries]
    change (List.mergeSort [_] bySlug).map SitemapEntry.ofPage = _
    rw [List.mergeSort_singleton]
    rfl
  rw [listed, hentries, List.filter_cons, if_pos (by simp [SitemapEntry.isListed, h]), List.filter_nil]

theorem answer_of_listed_about :
    let s := lone [("siteUrl", .string "https://acme.test/")] "about"
    let e : SitemapEntry := ⟨"about", none, true, false, false⟩
    e ∈ s.listed ∧ Route.IsSegment e.slug ∧ s.Shows "/about" "about" := by
  intro s e
  have he : e ∈ s.listed := by
    rw [listed_lone _ (by decide)]
    exact List.mem_cons_self
  have hsegment : Route.IsSegment e.slug := ⟨by decide, by decide, by decide⟩
  obtain ⟨path, hpath, hshows, _⟩ := (answer_of_listed s).2 e he
  have habout : Sitemap.pathOf? s.site (Sitemap.location s.site e) = some "/about" := by
    decide +kernel
  obtain rfl : path = "/about" := Option.some.inj (hpath.symm.trans habout)
  exact ⟨he, hsegment, hshows (.inr hsegment)⟩

/-- The sitemap lists a page whose slug has a slash inside, and its location leads nowhere. -/
theorem not_shows_nested :
    ("/a/b" : Text) ∈
        Sitemap.locations (Response.ofPath (lone [] "a/b").store "/sitemap.xml").body ∧
      ¬ (lone [] "a/b").Shows "/a/b" "a/b" := by
  have hroute : Route.ofPath ("/a/b" : Text) = .notFound := by decide
  constructor
  · rw [locations_sitemap, listed_lone _ (by decide)]
    exact List.mem_cons_self
  · rintro ⟨p, _, _, ts, _, h⟩
    have hstatus := (lone [] "a/b").status_of_notFound hroute
    rw [h] at hstatus
    exact absurd hstatus (by simp [Response.html])

end Snapshot

end Folio
