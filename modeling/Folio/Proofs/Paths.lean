import Folio.Proofs.Reachable

set_option autoImplicit false

/-!
# What a path is answered with

A path asks for the homepage, for the page with a slug, for one of two files, or for nothing at all.
A page that is asked for is shown if it is public, and shown on no other path. Every path that shows
no page and is not that of a file gets the not-found page.
-/
namespace Folio

namespace Route

def optionalSlash : List Text := ["", "/"]

/-- A path that names a slug: the slug is its only segment, with a slash or none on either side, and
    it is the path of neither file. -/
structure Names (path slug : Text) : Prop where
  spelled : ∃ lead ∈ optionalSlash, ∃ trail ∈ optionalSlash, path = lead ++ slug ++ trail
  ne_nil : slug ≠ []
  slash : '/' ∉ slug
  robots : path ≠ "/robots.txt"
  sitemap : path ≠ "/sitemap.xml"

theorem exists_lead (s : Text) : ∃ lead ∈ optionalSlash, s = lead ++ dropSlash s := by
  unfold dropSlash
  cases h : Text.dropStart? "/" s with
  | none => exact ⟨"", by decide, rfl⟩
  | some r => exact ⟨"/", by decide, Text.dropStart?_eq_some h⟩

theorem exists_trail (s : Text) : ∃ trail ∈ optionalSlash, s = dropLastSlash s ++ trail := by
  unfold dropLastSlash Text.dropEnd?
  cases h : Text.dropStart? ("/" : Text).reverse s.reverse with
  | none => exact ⟨"", by decide, (List.append_nil s).symm⟩
  | some r =>
    refine ⟨"/", by decide, ?_⟩
    have hs := congrArg List.reverse (Text.dropStart?_eq_some h)
    rw [List.reverse_reverse, List.reverse_append, List.reverse_reverse] at hs
    exact hs

theorem Names.segment {path slug : Text} (h : Names path slug) :
    dropLastSlash (dropSlash path) = slug := by
  obtain ⟨lead, hlead, trail, htrail, rfl⟩ := h.spelled
  have hlast : ∀ c ∈ slug.getLast?, c ≠ '/' := by
    rintro c hc rfl
    exact h.slash (List.mem_of_mem_getLast? hc)
  have hstart : dropSlash (lead ++ slug ++ trail) = slug ++ trail := by
    obtain ⟨c, rest, rfl⟩ := List.exists_cons_of_ne_nil h.ne_nil
    have hc : ¬ '/' = c := fun e => h.slash (e ▸ List.mem_cons_self)
    have hnone : Text.dropStart? "/" (c :: rest ++ trail) = none := if_neg hc
    have hcases : lead = "" ∨ lead = "/" := by simpa [optionalSlash] using hlead
    rcases hcases with rfl | rfl
    · change (Text.dropStart? "/" (c :: rest ++ trail)).getD _ = _
      rw [hnone]
      rfl
    · rfl
  have hend : dropLastSlash (slug ++ trail) = slug := by
    have hcases : trail = "" ∨ trail = "/" := by simpa [optionalSlash] using htrail
    rcases hcases with rfl | rfl
    · exact (congrArg dropLastSlash (List.append_nil slug)).trans (dropLastSlash_of_last hlast)
    · have hdrop : Text.dropEnd? "/" (slug ++ "/") = some slug := by
        have hrev : (slug ++ ("/" : Text)).reverse = ("/" : Text).reverse ++ slug.reverse :=
          List.reverse_append
        rw [Text.dropEnd?, hrev, Text.dropStart?_append, Option.map_some, List.reverse_reverse]
      rw [dropLastSlash, hdrop]
      rfl
  rw [hstart, hend]

theorem Names.ne_root {path slug : Text} (h : Names path slug) : ¬ (path = "" ∨ path = "/") := by
  rintro (rfl | rfl)
  · exact h.ne_nil h.segment.symm
  · exact h.ne_nil h.segment.symm

def Spells (path : Text) : Route → Prop
  | .home => path = "" ∨ path = "/"
  | .robots => path = "/robots.txt"
  | .sitemap => path = "/sitemap.xml"
  | .slug name => Names path name
  | .notFound => ¬ (path = "" ∨ path = "/") ∧ path ≠ "/robots.txt" ∧ path ≠ "/sitemap.xml" ∧
      ∀ name, ¬ Names path name

theorem spells_ofPath (path : Text) : Spells path (ofPath path) := by
  unfold ofPath
  split
  · rename_i h
    simpa [Spells] using h
  rename_i hroot
  split
  · rename_i h
    exact h
  rename_i hrobots
  split
  · rename_i h
    exact h
  rename_i hsitemap
  dsimp only
  split
  · rename_i h
    refine ⟨by simpa using hroot, hrobots, hsitemap, fun name hname => ?_⟩
    rw [hname.segment] at h
    simp [hname.ne_nil, hname.slash] at h
  · rename_i h
    obtain ⟨hne, hslash⟩ : dropLastSlash (dropSlash path) ≠ [] ∧
        '/' ∉ dropLastSlash (dropSlash path) := by simpa using h
    obtain ⟨lead, hlead, hstart⟩ := exists_lead path
    obtain ⟨trail, htrail, hend⟩ := exists_trail (dropSlash path)
    refine ⟨⟨lead, hlead, trail, htrail, ?_⟩, hne, hslash, hrobots, hsitemap⟩
    rw [List.append_assoc, ← hend]
    exact hstart

/-- A path has one route, and it is the one that it spells. -/
theorem ofPath_eq_iff {path : Text} {route : Route} : ofPath path = route ↔ Spells path route := by
  constructor
  · rintro rfl
    exact spells_ofPath path
  · intro h
    have hpath := spells_ofPath path
    cases route with
    | home => rcases h with rfl | rfl <;> rfl
    | robots =>
      obtain rfl : path = "/robots.txt" := h
      rfl
    | sitemap =>
      obtain rfl : path = "/sitemap.xml" := h
      rfl
    | slug name =>
      have hname : Names path name := h
      generalize ofPath path = other at hpath ⊢
      cases other with
      | home => exact absurd hpath hname.ne_root
      | robots => exact absurd hpath hname.robots
      | sitemap => exact absurd hpath hname.sitemap
      | slug other =>
        have hother : Names path other := hpath
        rw [← hname.segment, hother.segment]
      | notFound => exact absurd hname (hpath.2.2.2 name)
    | notFound =>
      obtain ⟨hroot, hrobots, hsitemap, hnone⟩ := h
      generalize ofPath path = other at hpath ⊢
      cases other with
      | home => exact absurd hpath hroot
      | robots => exact absurd hpath hrobots
      | sitemap => exact absurd hpath hsitemap
      | slug other => exact absurd hpath (hnone other)
      | notFound => rfl

end Route

namespace Snapshot

variable {s : Snapshot} {path slug : Text}

/-- Whether a page has a slug that is published and no template. -/
def Publishes (s : Snapshot) (slug : Text) : Prop :=
  ∃ p ∈ s.pages, p.published = true ∧ p.isTemplate = false ∧ p.slug = slug

/-- Whether a path asks for the page with a slug. The root asks for the homepage. -/
def Asks (s : Snapshot) (path slug : Text) : Prop :=
  (path = "" ∨ path = "/") ∧ slug = s.site.homepage ∨ Route.Names path slug

def missing [Json.Codec] [Link.HostReader] (s : Snapshot) : Response :=
  .html 404 (Compose.notFound s.site
    ⟨(s.catalog.published? .notFound).toList ++ (s.catalog.published? .header).toList ++
      (s.catalog.published? .footer).toList⟩)

theorem publishes_iff : s.Publishes slug ↔ ∃ p ∈ s.publicPages, p.slug = slug := by
  simp [Publishes, publicPages, Page.isPublic, and_assoc]

theorem asks_iff : s.Asks path slug ↔ Route.ofPath path = .slug slug ∨
    Route.ofPath path = .home ∧ slug = s.site.homepage := by
  rw [Route.ofPath_eq_iff, Route.ofPath_eq_iff, or_comm]
  rfl

theorem page?_eq_none (h : ¬ s.Publishes slug) : s.page? slug = none := by
  refine List.find?_eq_none.2 fun p hp hslug => h ?_
  exact publishes_iff.2 ⟨p, hp, by simpa using hslug⟩

section

variable [Json.Codec] [Link.HostReader]

theorem shows_of_asks (hasks : s.Asks path slug) (hpublishes : s.Publishes slug) : s.Shows path slug :=
  shows_of_route (publishes_iff.1 hpublishes) (asks_iff.1 hasks)

theorem page_eq_missing (h : ¬ s.Publishes slug) :
    Response.page s.store s.site slug = .ok s.missing := by
  have hask : s.store.page slug = .ok none := congrArg Except.ok (page?_eq_none h)
  rw [Response.page, hask]
  rfl

theorem ofPath_eq_missing (h : ∀ slug, s.Asks path slug → ¬ s.Publishes slug)
    (hrobots : path ≠ "/robots.txt") (hsitemap : path ≠ "/sitemap.xml") :
    Response.ofPath s.store path = s.missing := by
  have hroute : Response.ofRoute s.store (Route.ofPath path) = .ok s.missing := by
    cases hpath : Route.ofPath path with
    | home => exact page_eq_missing (h _ (asks_iff.2 (.inr ⟨hpath, rfl⟩)))
    | slug name => exact page_eq_missing (h _ (asks_iff.2 (.inl hpath)))
    | robots => exact absurd (Route.ofPath_eq_iff.1 hpath) hrobots
    | sitemap => exact absurd (Route.ofPath_eq_iff.1 hpath) hsitemap
    | notFound => rfl
  rw [Response.ofPath, hroute]

theorem ofPath_cases (s : Snapshot) (path : Text) :
    (∃ slug, s.Asks path slug ∧ s.Publishes slug ∧ s.Shows path slug) ∨
      path = "/robots.txt" ∧ Response.ofPath s.store path = .plain 200 s.site.robotsFile ∨
      path = "/sitemap.xml" ∧ Response.ofPath s.store path =
        ⟨200, some Response.xmlType, Sitemap.write s.site s.entries⟩ ∨
      Response.ofPath s.store path = s.missing := by
  by_cases hasked : ∃ slug, s.Asks path slug ∧ s.Publishes slug
  · obtain ⟨slug, hasks, hpublishes⟩ := hasked
    exact .inl ⟨slug, hasks, hpublishes, shows_of_asks hasks hpublishes⟩
  by_cases hrobots : path = "/robots.txt"
  · exact .inr (.inl ⟨hrobots, hrobots ▸ rfl⟩)
  by_cases hsitemap : path = "/sitemap.xml"
  · exact .inr (.inr (.inl ⟨hsitemap, hsitemap ▸ rfl⟩))
  have hnone : ∀ slug, s.Asks path slug → ¬ s.Publishes slug :=
    fun slug hasks hpublishes => hasked ⟨slug, hasks, hpublishes⟩
  exact .inr (.inr (.inr (ofPath_eq_missing hnone hrobots hsitemap)))

theorem status_of_shows (h : s.Shows path slug) : (Response.ofPath s.store path).status = 200 := by
  obtain ⟨p, _, _, ts, _, hanswer⟩ := h
  rw [hanswer]
  rfl

theorem status_ofPath (s : Snapshot) (path : Text) :
    (Response.ofPath s.store path).status = 200 ∨ (Response.ofPath s.store path).status = 404 := by
  rcases s.ofPath_cases path with ⟨_, _, _, h⟩ | ⟨_, h⟩ | ⟨_, h⟩ | h
  · exact .inl (status_of_shows h)
  · exact .inl (congrArg Response.status h)
  · exact .inl (congrArg Response.status h)
  · exact .inr (congrArg Response.status h)

theorem asks_of_page {p : Page} {catalog : Catalog}
    (h : Response.ofPath s.store path = .html 200 (Compose.page p s.site catalog)) :
    ∃ slug, s.Asks path slug ∧ s.Publishes slug := by
  rcases s.ofPath_cases path with ⟨slug, hasks, hpublishes, _⟩ | ⟨_, e⟩ | ⟨_, e⟩ | e
  · exact ⟨slug, hasks, hpublishes⟩
  · have htype : some Response.htmlType = some Response.plainType :=
      congrArg Response.contentType (h.symm.trans e)
    exact absurd htype (by decide)
  · have htype : some Response.htmlType = some Response.xmlType :=
      congrArg Response.contentType (h.symm.trans e)
    exact absurd htype (by decide)
  · have hstatus : 200 = 404 := congrArg Response.status (h.symm.trans e)
    exact absurd hstatus (by decide)

/-- A path shows a page exactly if it asks for a page that is public, and then that page. The two
    files are there on every site, and on every other path stands the not-found page. -/
theorem shows_iff_publishes (s : Snapshot) (path : Text) :
    ((∃ (p : Page) (catalog : Catalog),
        Response.ofPath s.store path = .html 200 (Compose.page p s.site catalog)) ↔
      ∃ slug, s.Asks path slug ∧ s.Publishes slug) ∧
    (∀ slug, s.Asks path slug → s.Publishes slug → s.Shows path slug) ∧
    (path = "/robots.txt" → Response.ofPath s.store path = .plain 200 s.site.robotsFile) ∧
    (path = "/sitemap.xml" → Response.ofPath s.store path =
      ⟨200, some Response.xmlType, Sitemap.write s.site s.entries⟩) ∧
    ((∀ slug, s.Asks path slug → ¬ s.Publishes slug) → path ≠ "/robots.txt" →
      path ≠ "/sitemap.xml" → Response.ofPath s.store path = s.missing) ∧
    ((Response.ofPath s.store path).status = 200 ∨ (Response.ofPath s.store path).status = 404) := by
  refine ⟨⟨fun ⟨p, catalog, h⟩ => asks_of_page h, ?_⟩, fun slug => shows_of_asks, ?_, ?_,
    ofPath_eq_missing, s.status_ofPath path⟩
  · rintro ⟨slug, hasks, hpublishes⟩
    obtain ⟨p, _, _, ts, _, hanswer⟩ := shows_of_asks hasks hpublishes
    exact ⟨p, ⟨ts⟩, hanswer⟩
  · rintro rfl
    rfl
  · rintro rfl
    rfl

end

def drafted : Snapshot where
  settings := []
  pages := [⟨1, "about", "About", .null, none, none, .null, true, false, none⟩,
    ⟨2, "secret", "Draft", .null, none, none, .null, false, false, none⟩,
    ⟨3, "layout", "Layout", .null, none, none, .null, true, true, none⟩]
  templates := []

theorem shows_iff_publishes_drafted :
    drafted.Asks "/about/" "about" ∧ drafted.Publishes "about" ∧ drafted.Shows "/about/" "about" ∧
      (∀ slug, drafted.Asks "/secret" slug → ¬ drafted.Publishes slug) ∧
      Response.ofPath drafted.store "/secret" = drafted.missing := by
  have hasks : drafted.Asks "/about/" "about" := asks_iff.2 (.inl (by decide))
  have hpublishes : drafted.Publishes "about" :=
    ⟨_, List.mem_cons_self, rfl, rfl, rfl⟩
  have hsecret : Route.ofPath "/secret" = .slug "secret" := by decide
  have hnone : ∀ slug, drafted.Asks "/secret" slug → ¬ drafted.Publishes slug := by
    intro slug h
    rw [asks_iff, hsecret] at h
    obtain rfl : ("secret" : Text) = slug := by simpa using h
    unfold Publishes
    decide
  have hmissing := (shows_iff_publishes drafted "/secret").2.2.2.2.1 hnone (by decide) (by decide)
  exact ⟨hasks, hpublishes, (shows_iff_publishes drafted "/about/").2.1 _ hasks hpublishes, hnone,
    hmissing⟩

end Snapshot

end Folio
