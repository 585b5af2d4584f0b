import Folio.Proofs.Keys
import Folio.Proofs.Reachable

set_option autoImplicit false

/-!
# What a sitemap lists

A sitemap is read as elements one behind the other, each with a location and perhaps with a date. Nothing
that an author writes can make up an element or end one, so what is read is what was listed: from a
snapshot the public pages that may be indexed and have a slug, in the order of their slugs and where these
are the same in the order of the snapshot.
-/
namespace Folio

/-- The second list is the first one in the order of a key. What has the same key stands as it stood. -/
structure Arranged {α : Type} (key : α → Text) (l arranged : List α) : Prop where
  perm : arranged.Perm l
  ordered : arranged.Pairwise fun a b => key a ≤ key b
  ties : ∀ k, (arranged.filter fun a => key a = k) = l.filter fun a => key a = k

section

variable {α : Type} (key : α → Text)

def notAfter (a b : α) : Bool := !Text.before (key b) (key a)

theorem notAfter_iff (a b : α) : notAfter key a b = true ↔ key a ≤ key b := by
  rw [notAfter, Bool.not_eq_true', ← not_lt, ← Text.before_iff_lt, Bool.not_eq_true]

theorem arranged_mergeSort (l : List α) : Arranged key l (l.mergeSort (notAfter key)) := by
  have htrans : ∀ a b c, notAfter key a b = true → notAfter key b c = true → notAfter key a c = true := by
    intro a b c hab hbc
    rw [notAfter_iff] at hab hbc ⊢
    exact hab.trans hbc
  have htotal : ∀ a b, (notAfter key a b || notAfter key b a) = true := by
    intro a b
    rw [Bool.or_eq_true, notAfter_iff, notAfter_iff]
    exact le_total _ _
  have hperm : (l.mergeSort (notAfter key)).Perm l := List.mergeSort_perm l _
  refine ⟨hperm, ?_, fun k => ?_⟩
  · exact (List.pairwise_mergeSort htrans htotal l).imp fun h => (notAfter_iff key _ _).1 h
  · -- what has one key is in order as it stands, so sorting leaves it as a sublist
    have htied : (l.filter fun a => key a = k).Pairwise fun a b => notAfter key a b = true := by
      apply List.pairwise_of_forall_mem_list
      intro a ha b hb
      have hka : key a = k := by simpa using (List.mem_filter.1 ha).2
      have hkb : key b = k := by simpa using (List.mem_filter.1 hb).2
      rw [notAfter_iff, hka, hkb]
    have hsub := (List.sublist_mergeSort htrans htotal htied List.filter_sublist).filter
      fun a => decide (key a = k)
    rw [List.filter_filter] at hsub
    simp only [Bool.and_self] at hsub
    exact (hsub.eq_of_length (hperm.filter _).length_eq.symm).symm

end

theorem Arranged.filter {α : Type} {key : α → Text} {l arranged : List α} (h : Arranged key l arranged)
    (p : α → Bool) : Arranged key (l.filter p) (arranged.filter p) where
  perm := h.perm.filter p
  ordered := h.ordered.filter p
  ties k := by rw [List.filter_comm, h.ties, List.filter_comm]

namespace Sitemap

abbrev Record := Text × Option Text

def readModified? (s : Text) : Option (Option Text × Text) :=
  match Text.dropStart? "    <lastmod>" s with
  | some s => (Text.cut? "</lastmod>\n" s).map fun (date, r) => (some date, r)
  | none => some (none, s)

def readRecord? (s : Text) : Option (Record × Text) :=
  (Text.dropStart? "  <url>\n    <loc>" s).bind fun s =>
    (Text.cut? "</loc>\n" s).bind fun (place, s) =>
      (readModified? s).bind fun (modified, s) =>
        (Text.dropStart? "  </url>\n" s).map fun r => ((unescape place, modified), r)

theorem length_le_of_readModified? {s r : Text} {modified : Option Text}
    (h : readModified? s = some (modified, r)) : r.length ≤ s.length := by
  unfold readModified? at h
  split at h
  · rename_i t ht
    obtain ⟨⟨date, u⟩, hu, e⟩ := Option.map_eq_some_iff.1 h
    obtain ⟨_, rfl⟩ := Prod.mk.inj e
    rw [Text.dropStart?_eq_some ht, Text.cut?_eq_some hu]
    simp only [List.length_append]
    omega
  · obtain ⟨_, rfl⟩ := Prod.mk.inj (Option.some.inj h)
    exact Nat.le_refl _

theorem length_lt_of_readRecord? {s r : Text} {found : Record} (h : readRecord? s = some (found, r)) :
    r.length < s.length := by
  obtain ⟨t, ht, h⟩ := Option.bind_eq_some_iff.1 h
  obtain ⟨⟨place, u⟩, hu, h⟩ := Option.bind_eq_some_iff.1 h
  obtain ⟨⟨modified, v⟩, hv, h⟩ := Option.bind_eq_some_iff.1 h
  obtain ⟨w, hw, e⟩ := Option.map_eq_some_iff.1 h
  obtain ⟨_, rfl⟩ := Prod.mk.inj e
  have hlen := length_le_of_readModified? hv
  have hopen : ("  <url>\n    <loc>" : Text).length = 17 := rfl
  rw [Text.dropStart?_eq_some hw] at hlen
  rw [Text.dropStart?_eq_some ht, Text.cut?_eq_some hu]
  simp only [List.length_append] at hlen ⊢
  omega

def readRecords? (s : Text) : Option (List Record) :=
  match _ : readRecord? s with
  | none => if s = "</urlset>\n" then some [] else none
  | some (found, r) => (readRecords? r).map fun records => found :: records
termination_by s.length
decreasing_by exact length_lt_of_readRecord? (by assumption)

def opening : Text :=
  "<?xml version=\"1.0\" encoding=\"UTF-8\"?>\n<urlset xmlns=\"" ++ nameSpace ++ "\">\n"

def read? (s : Text) : Option (List Record) := (Text.dropStart? opening s).bind readRecords?

/-- What an entry is listed with. -/
def recordOf (site : Site) (e : SitemapEntry) : Record :=
  (location site e, e.updated.map fun t => t.date.write)

def writeModified : Option Timestamp → Text
  | some t => "    <lastmod>" ++ t.date.write ++ "</lastmod>\n"
  | none => []

theorem writeEntry_eq (site : Site) (e : SitemapEntry) (r : Text) :
    writeEntry site e ++ r = "  <url>\n    <loc>" ++ (escape (location site e) ++ ("</loc>\n" ++
      (writeModified e.updated ++ ("  </url>\n" ++ r)))) := by
  have hassoc (a b c d z : Text) : a ++ b ++ c ++ d ++ z ++ r = a ++ (b ++ (c ++ (d ++ (z ++ r)))) := by
    simp only [List.append_assoc]
  exact hassoc _ _ _ _ _

theorem readModified?_write (updated : Option Timestamp) (r : Text) :
    readModified? (writeModified updated ++ ("  </url>\n" ++ r)) =
      some (updated.map fun t => t.date.write, "  </url>\n" ++ r) := by
  cases updated with
  | none =>
    have hopen : Text.dropStart? "    <lastmod>" ("  </url>\n" ++ r) = none := rfl
    change readModified? ("  </url>\n" ++ r) = some (none, _)
    rw [readModified?, hopen]
  | some t =>
    have hcut : Text.cut? "</lastmod>\n" (t.date.write ++ ("</lastmod>\n" ++ ("  </url>\n" ++ r))) =
        some (t.date.write, "  </url>\n" ++ r) :=
      Text.cut?_append (p := "/lastmod>\n") (not_mem_open_date t.date) _
    change readModified? ("    <lastmod>" ++ t.date.write ++ "</lastmod>\n" ++ ("  </url>\n" ++ r)) = _
    rw [List.append_assoc, List.append_assoc, readModified?, Text.dropStart?_append]
    dsimp only
    rw [hcut]
    rfl

theorem readRecord?_write (site : Site) (e : SitemapEntry) (r : Text) :
    readRecord? (writeEntry site e ++ r) = some (recordOf site e, r) := by
  have hcut (s : Text) : Text.cut? "</loc>\n" (escape (location site e) ++ ("</loc>\n" ++ s)) =
      some (escape (location site e), s) :=
    Text.cut?_append (p := "/loc>\n") (not_mem_open_escape _) s
  rw [writeEntry_eq, readRecord?, Text.dropStart?_append, Option.bind_some, hcut, Option.bind_some]
  dsimp only
  rw [readModified?_write, Option.bind_some]
  dsimp only
  rw [Text.dropStart?_append, unescape_escape]
  rfl

theorem readRecords?_write (site : Site) (entries : List SitemapEntry) :
    readRecords? (entries.flatMap (writeEntry site) ++ "</urlset>\n") =
      some (entries.map (recordOf site)) := by
  induction entries with
  | nil =>
    have hend : readRecord? "</urlset>\n" = none := rfl
    rw [List.flatMap_nil, List.nil_append, readRecords?]
    split
    · rw [if_pos rfl, List.map_nil]
    · rename_i hsome
      exact absurd (hend.symm.trans hsome) (Option.some_ne_none _).symm
  | cons e entries ih =>
    have hfirst := readRecord?_write site e (entries.flatMap (writeEntry site) ++ "</urlset>\n")
    rw [← List.append_assoc, ← List.flatMap_cons] at hfirst
    rw [readRecords?]
    split
    · rename_i hnone
      exact absurd (hfirst.symm.trans hnone) (Option.some_ne_none _)
    · rename_i found r hsome
      obtain ⟨rfl, rfl⟩ := Prod.mk.inj (Option.some.inj (hfirst.symm.trans hsome))
      rw [ih]
      rfl

theorem read?_write (site : Site) (entries : List SitemapEntry) :
    read? (write site entries) =
      some ((entries.filter SitemapEntry.isListed).map (recordOf site)) := by
  have hwrite : write site entries =
      opening ++ ((entries.filter SitemapEntry.isListed).flatMap (writeEntry site) ++ "</urlset>\n") :=
    List.append_assoc _ _ _
  rw [read?, hwrite, Text.dropStart?_append, Option.bind_some, readRecords?_write]

end Sitemap

/-- Whether a page is public, may be indexed and has a slug. -/
def Page.isIndexable [Json.Codec] (p : Page) : Bool :=
  p.isPublic && !(PageSettings.ofJson p.settings).search.noIndex && !Text.isBlankText p.slug

theorem SitemapEntry.isListed_ofPage [Json.Codec] (p : Page) :
    (ofPage p).isListed = p.isIndexable := rfl

namespace Snapshot

theorem filter_entries [Json.Codec] (s : Snapshot) : s.entries.filter SitemapEntry.isListed =
    ((s.publicPages.mergeSort bySlug).filter Page.isIndexable).map SitemapEntry.ofPage := by
  rw [entries, List.filter_map]
  exact congrArg _ (List.filter_congr fun p _ => SitemapEntry.isListed_ofPage p)

theorem arranged_indexable [Json.Codec] (s : Snapshot) :
    Arranged Page.slug (s.pages.filter Page.isIndexable)
      ((s.publicPages.mergeSort bySlug).filter Page.isIndexable) := by
  have hpublic : s.publicPages.filter Page.isIndexable = s.pages.filter Page.isIndexable := by
    rw [publicPages, List.filter_filter]
    refine List.filter_congr fun p _ => ?_
    rw [Page.isIndexable]
    cases p.isPublic <;> simp
  rw [← hpublic]
  exact (arranged_mergeSort Page.slug s.publicPages).filter _

end Snapshot

/-- The locations of a sitemap, and the dates with them, are those of the entries that are listed. Of the
    memory store these are the public pages that may be indexed and have a slug, by slug. -/
theorem Sitemap.reads_as_listed [Json.Codec] [Link.HostReader] :
    (∀ (site : Site) (entries : List SitemapEntry),
      locations (write site entries) = (entries.filter SitemapEntry.isListed).map (location site) ∧
      read? (write site entries) = some ((entries.filter SitemapEntry.isListed).map (recordOf site))) ∧
    ∀ s : Snapshot, s.store.entries = .ok s.entries ∧
      ∃ pages, Arranged Page.slug (s.pages.filter Page.isIndexable) pages ∧
        s.entries.filter SitemapEntry.isListed = pages.map SitemapEntry.ofPage ∧
        read? (Response.ofPath s.store "/sitemap.xml").body = some (pages.map fun p =>
          (Site.pageUrl (s.site.baseUrl?.getD []) p.slug s.site.homepage,
            p.updated.map fun t => t.date.write)) := by
  refine ⟨fun site entries => ⟨locations_write site entries, read?_write site entries⟩, fun s => ?_⟩
  refine ⟨rfl, _, s.arranged_indexable, s.filter_entries, ?_⟩
  have hbody : (Response.ofPath s.store "/sitemap.xml").body = write s.site s.entries := rfl
  rw [hbody, read?_write, s.filter_entries, List.map_map]
  rfl

end Folio
