import Folio.Json.Printer
import Folio.Link.SecureHost
import Folio.Server.Response
import Folio.Server.Snapshot
import Mathlib.Data.List.Nodup

set_option autoImplicit false

/-!
# The templates of a page

A page asks the store for the templates it chose and for the published ones in their place, and not
for all there are. With distinct ids this makes no difference: what the whole catalog would choose is
among them, and nothing among them is preferred to it.
-/
namespace Folio

namespace Catalog

theorem mem_of_least? {ts : List Template} {t : Template} (h : least? ts = some t) : t ∈ ts := by
  induction ts with
  | nil => simp [least?] at h
  | cons a ts ih =>
    rw [least?] at h
    split at h
    · obtain rfl := Option.some.inj h
      exact List.mem_cons_self
    · rename_i u hu
      split at h
      · obtain rfl := Option.some.inj h
        exact List.mem_cons_self
      · obtain rfl := Option.some.inj h
        exact List.mem_cons_of_mem a (ih hu)

theorem least?_eq_none {ts : List Template} : least? ts = none ↔ ts = [] := by
  cases ts with
  | nil => simp [least?]
  | cons a ts =>
    rw [least?]
    split
    · simp
    · split <;> simp

theorem id_le_of_least? {ts : List Template} {t : Template} (h : least? ts = some t) :
    ∀ u ∈ ts, t.id ≤ u.id := by
  induction ts generalizing t with
  | nil => simp
  | cons a ts ih =>
    rw [least?] at h
    split at h
    · rename_i hnone
      obtain rfl := Option.some.inj h
      simp [least?_eq_none.1 hnone]
    · rename_i v hv
      have hleast : t.id ≤ a.id ∧ t.id ≤ v.id := by
        split at h
        · obtain rfl := Option.some.inj h
          omega
        · obtain rfl := Option.some.inj h
          omega
      intro u hu
      rcases List.mem_cons.1 hu with rfl | hu
      · exact hleast.1
      · exact Int.le_trans hleast.2 (ih hv u hu)

/-- No two templates have the same id. -/
def Keyed (c : Catalog) : Prop := (c.templates.map Template.id).Nodup

theorem Keyed.eq_of_id {c : Catalog} (h : c.Keyed) {t u : Template} (ht : t ∈ c.templates)
    (hu : u ∈ c.templates) (e : t.id = u.id) : t = u :=
  List.inj_on_of_nodup_map h ht hu e

theorem mem_of_byId? {c : Catalog} {id : Int} {t : Template} (h : c.byId? id = some t) :
    t ∈ c.templates ∧ t.id = id :=
  ⟨List.mem_of_find?_eq_some h, by simpa using List.find?_some h⟩

theorem exists_byId? {c : Catalog} {t : Template} (h : t ∈ c.templates) :
    ∃ u, c.byId? t.id = some u := by
  cases hu : c.byId? t.id with
  | some u => exact ⟨u, rfl⟩
  | none => exact absurd (List.find?_eq_none.1 hu t h) (by simp)

theorem mem_of_published? {c : Catalog} {kind : TemplateKind} {t : Template}
    (h : c.published? kind = some t) : t ∈ c.templates ∧ isPublished kind t = true :=
  List.mem_filter.1 (mem_of_least? h)

/-- Templates among which is the one that was chosen, and the published one of a kind where the
    chosen one will not do. -/
structure Supplies (all : Catalog) (ts : List Template) (choice : Option Int) (kind : TemplateKind) :
    Prop where
  chosen : ∀ id ∈ choice, ∀ t, all.byId? id = some t → t ∈ ts
  published : (choice.bind all.byId?).filter (fun t => t.kind = kind) = none →
    ∀ t, all.published? kind = some t → t ∈ ts

theorem Supplies.append {all : Catalog} {ts : List Template} {choice : Option Int}
    {kind : TemplateKind} (h : all.Supplies ts choice kind) (us : List Template) :
    all.Supplies (ts ++ us) choice kind where
  chosen id hid t ht := List.mem_append_left us (h.chosen id hid t ht)
  published hf t ht := List.mem_append_left us (h.published hf t ht)

section Part

variable {part all : Catalog} (hsub : ∀ t ∈ part.templates, t ∈ all.templates) (hall : all.Keyed)
include hsub hall

theorem byId?_of_part {id : Int} (h : ∀ t, all.byId? id = some t → t ∈ part.templates) :
    part.byId? id = all.byId? id := by
  cases hp : part.byId? id with
  | some u =>
    obtain ⟨hu, rfl⟩ := mem_of_byId? hp
    obtain ⟨t, ht⟩ := exists_byId? (hsub u hu)
    obtain ⟨hmem, hid⟩ := mem_of_byId? ht
    rw [ht, hall.eq_of_id hmem (hsub u hu) hid]
  | none =>
    cases ha : all.byId? id with
    | none => rfl
    | some t =>
      obtain ⟨_, hid⟩ := mem_of_byId? ha
      obtain ⟨u, hu⟩ := exists_byId? (h t ha)
      rw [hid, hp] at hu
      exact absurd hu (by simp)

theorem published?_of_part {kind : TemplateKind}
    (h : ∀ t, all.published? kind = some t → t ∈ part.templates) :
    part.published? kind = all.published? kind := by
  cases ha : all.published? kind with
  | none =>
    have hnone : all.templates.filter (isPublished kind) = [] := least?_eq_none.1 ha
    refine least?_eq_none.2 (List.filter_eq_nil_iff.2 fun t ht => ?_)
    exact List.filter_eq_nil_iff.1 hnone t (hsub t ht)
  | some t =>
    obtain ⟨hmem, hpub⟩ := mem_of_published? ha
    have hpart : t ∈ part.templates.filter (isPublished kind) := List.mem_filter.2 ⟨h t ha, hpub⟩
    cases hp : part.published? kind with
    | none => exact absurd (least?_eq_none.1 hp ▸ hpart) (by simp)
    | some u =>
      obtain ⟨humem, hupub⟩ := mem_of_published? hp
      have hle : u.id ≤ t.id := id_le_of_least? hp t hpart
      have hge : t.id ≤ u.id := id_le_of_least? ha u (List.mem_filter.2 ⟨hsub u humem, hupub⟩)
      rw [hall.eq_of_id (hsub u humem) hmem (by omega)]

/-- The same template is chosen from a part that holds what a page needs. -/
theorem resolve?_of_part {choice : Option Int} {kind : TemplateKind}
    (h : all.Supplies part.templates choice kind) :
    part.resolve? choice kind = all.resolve? choice kind := by
  have hbind : choice.bind part.byId? = choice.bind all.byId? := by
    cases choice with
    | none => rfl
    | some id => exact byId?_of_part hsub hall (h.chosen id rfl)
  rw [resolve?, resolve?, hbind]
  cases hf : (choice.bind all.byId?).filter (fun t => t.kind = kind) with
  | some t => rfl
  | none => exact published?_of_part hsub hall (h.published hf)

end Part

end Catalog

namespace Compose

theorem page_congr [Json.Codec] [Link.HostReader] {p : Page} {c d : Catalog} (site : Site)
    (hh : c.resolve? p.headerId .header = d.resolve? p.headerId .header)
    (hf : c.resolve? p.footerId .footer = d.resolve? p.footerId .footer) :
    page p site c = page p site d := by
  have hparts : (Context.ofPage p site c).parts = (Context.ofPage p site d).parts := by
    simp only [Context.parts, Context.ofPage, hh, hf]
    rfl
  simp only [page, Context.compose, Context.layout, hparts]
  rfl

theorem notFound_congr [Json.Codec] [Link.HostReader] {c d : Catalog} (site : Site)
    (h : ∀ kind ∈ [TemplateKind.notFound, .header, .footer], c.published? kind = d.published? kind) :
    notFound site c = notFound site d := by
  have hparts : notFoundParts c = notFoundParts d := by
    simp only [notFoundParts, h .notFound (by decide), h .header (by decide), h .footer (by decide)]
  simp only [notFound, notFoundLayout, hparts]

end Compose

namespace Snapshot

/-- A store with the content of a snapshot. The templates for some ids come in an order of its own. -/
structure ServedBy [Json.Codec] (s : Snapshot) (store : Store) : Prop where
  site : store.site = .ok s.site
  page : ∀ slug, store.page slug = .ok (s.page? slug)
  templates : ∀ ids, ∃ ts, store.templates ids = .ok ts ∧ ts.Perm (s.templatesWith ids)
  publishedTemplate : ∀ kind, store.publishedTemplate kind = .ok (s.catalog.published? kind)
  entries : store.entries = .ok s.entries

theorem servedBy_store [Json.Codec] (s : Snapshot) : s.ServedBy s.store where
  site := rfl
  page _ := rfl
  templates _ := ⟨_, rfl, List.Perm.refl _⟩
  publishedTemplate _ := rfl
  entries := rfl

def shown [Json.Codec] [Link.HostReader] (s : Snapshot) : Option Page → Response
  | some p => .html 200 (Compose.page p s.site s.catalog)
  | none => .html 404 (Compose.notFound s.site s.catalog)

/-- The answer to a route, composed with all templates at hand. -/
def answer [Json.Codec] [Link.HostReader] (s : Snapshot) : Route → Response
  | .home => s.shown (s.page? s.site.homepage)
  | .slug slug => s.shown (s.page? slug)
  | .robots => .plain 200 s.site.robotsFile
  | .sitemap => ⟨200, some Response.xmlType, Sitemap.write s.site s.entries⟩
  | .notFound => s.shown none

end Snapshot

namespace Response

variable {s : Snapshot} {store : Store}

theorem chosen_of_any (hk : s.catalog.Keyed) {ts : List Template} (hsub : ∀ t ∈ ts, t ∈ s.templates)
    {choice : Option Int} {kind : TemplateKind}
    (h : (choice.any fun id => ts.any fun t => t.id = id && t.kind = kind) = true) :
    (choice.bind s.catalog.byId?).filter (fun t => t.kind = kind) ≠ none := by
  obtain ⟨id, rfl, hany⟩ := (Option.any_eq_true _ _).1 h
  obtain ⟨t, ht, hid⟩ := List.any_eq_true.1 hany
  obtain ⟨rfl, hkind⟩ : t.id = id ∧ t.kind = kind := by simpa using hid
  obtain ⟨u, hu⟩ := Catalog.exists_byId? (c := s.catalog) (hsub t ht)
  obtain ⟨humem, huid⟩ := Catalog.mem_of_byId? hu
  obtain rfl : u = t := hk.eq_of_id humem (hsub t ht) huid
  simp [hu, hkind]

theorem supplies_missing [Json.Codec] (h : s.ServedBy store) (hk : s.catalog.Keyed) {ts : List Template}
    (hsub : ∀ t ∈ ts, t ∈ s.templates) {choice : Option Int} (kind : TemplateKind)
    (hchosen : ∀ id ∈ choice, ∀ t, s.catalog.byId? id = some t → t ∈ ts) :
    ∃ more, missing store ts choice kind = .ok more ∧ (∀ t ∈ more, t ∈ s.templates) ∧
      s.catalog.Supplies (ts ++ more) choice kind := by
  by_cases hany : (choice.any fun id => ts.any fun t => t.id = id && t.kind = kind) = true
  · refine ⟨[], by rw [missing, if_pos hany], by simp, ?_⟩
    refine ⟨fun id hid t ht => by simpa using hchosen id hid t ht, fun hnone => ?_⟩
    exact absurd hnone (chosen_of_any hk hsub hany)
  · refine ⟨(s.catalog.published? kind).toList, ?_, ?_, ?_⟩
    · rw [missing, if_neg hany, h.publishedTemplate]
      rfl
    · intro t ht
      exact (Catalog.mem_of_published? (Option.mem_toList.1 ht)).1
    · refine ⟨fun id hid t ht => List.mem_append_left _ (hchosen id hid t ht), fun _ t ht => ?_⟩
      exact List.mem_append_right ts (Option.mem_toList.2 ht)

theorem supplies_templatesFor [Json.Codec] (h : s.ServedBy store) (hk : s.catalog.Keyed) (p : Page) :
    ∃ ts, templatesFor store p = .ok ts ∧ (∀ t ∈ ts, t ∈ s.templates) ∧
      s.catalog.Supplies ts p.headerId .header ∧ s.catalog.Supplies ts p.footerId .footer := by
  obtain ⟨chosen, hask, hperm⟩ := h.templates (p.headerId.toList ++ p.footerId.toList)
  have hsub : ∀ t ∈ chosen, t ∈ s.templates :=
    fun t ht => (List.mem_filter.1 (hperm.mem_iff.1 ht)).1
  have hchosen : ∀ id ∈ p.headerId.toList ++ p.footerId.toList,
      ∀ t, s.catalog.byId? id = some t → t ∈ chosen := by
    intro id hid t ht
    obtain ⟨hmem, rfl⟩ := Catalog.mem_of_byId? ht
    exact hperm.mem_iff.2 (List.mem_filter.2 ⟨hmem, by simpa using hid⟩)
  obtain ⟨header, hheader, hhsub, hhsup⟩ := supplies_missing h hk hsub .header
    fun id hid => hchosen id (List.mem_append_left _ (Option.mem_toList.2 hid))
  have hsub' : ∀ t ∈ chosen ++ header, t ∈ s.templates := List.forall_mem_append.2 ⟨hsub, hhsub⟩
  obtain ⟨footer, hfooter, hfsub, hfsup⟩ := supplies_missing h hk hsub' .footer
    fun id hid t ht =>
      List.mem_append_left _ (hchosen id (List.mem_append_right _ (Option.mem_toList.2 hid)) t ht)
  refine ⟨chosen ++ header ++ footer, ?_, List.forall_mem_append.2 ⟨hsub', hfsub⟩,
    hhsup.append footer, hfsup⟩
  rw [templatesFor, hask]
  change (missing store chosen p.headerId .header >>= _) = _
  rw [hheader]
  change (missing store (chosen ++ header) p.footerId .footer >>= _) = _
  rw [hfooter]
  rfl

section

variable [Json.Codec] [Link.HostReader]

theorem notFound_of_servedBy (h : s.ServedBy store) (hk : s.catalog.Keyed) :
    notFound store s.site = .ok (s.shown none) := by
  have hpart : notFound store s.site = .ok (.html 404 (Compose.notFound s.site
      ⟨(s.catalog.published? .notFound).toList ++ (s.catalog.published? .header).toList ++
        (s.catalog.published? .footer).toList⟩)) := by
    rw [notFound, h.publishedTemplate, h.publishedTemplate, h.publishedTemplate]
    rfl
  rw [hpart, Snapshot.shown]
  refine congrArg (fun body => Except.ok (Response.html 404 body)) (Compose.notFound_congr s.site ?_)
  have hsub : ∀ t ∈ (s.catalog.published? .notFound).toList ++ (s.catalog.published? .header).toList ++
      (s.catalog.published? .footer).toList, t ∈ s.templates := by
    simp only [List.forall_mem_append, Option.mem_toList]
    exact ⟨⟨fun t ht => (Catalog.mem_of_published? ht).1,
      fun t ht => (Catalog.mem_of_published? ht).1⟩, fun t ht => (Catalog.mem_of_published? ht).1⟩
  intro kind hkind
  refine Catalog.published?_of_part hsub hk fun t ht => ?_
  have hcases : kind = .notFound ∨ kind = .header ∨ kind = .footer := by simpa using hkind
  rcases hcases with rfl | rfl | rfl <;> simp [ht]

theorem page_of_servedBy (h : s.ServedBy store) (hk : s.catalog.Keyed) (slug : Text) :
    page store s.site slug = .ok (s.shown (s.page? slug)) := by
  cases hp : s.page? slug with
  | none =>
    rw [page, h.page, hp]
    exact notFound_of_servedBy h hk
  | some p =>
    obtain ⟨ts, hts, hsub, hheader, hfooter⟩ := supplies_templatesFor h hk p
    have hbody : Compose.page p s.site ⟨ts⟩ = Compose.page p s.site s.catalog :=
      Compose.page_congr s.site (Catalog.resolve?_of_part hsub hk hheader)
        (Catalog.resolve?_of_part hsub hk hfooter)
    rw [page, h.page, hp]
    change (templatesFor store p >>= _) = _
    rw [hts, Snapshot.shown, ← hbody]
    rfl

/-- A path is answered as if all templates were at hand. -/
theorem ofPath_eq_answer {s : Snapshot} {store : Store} (h : s.ServedBy store)
    (hk : (s.templates.map Template.id).Nodup) (path : Text) :
    ofPath store path = s.answer (Route.ofPath path) := by
  have hroute : ofRoute store (Route.ofPath path) = .ok (s.answer (Route.ofPath path)) := by
    rw [ofRoute, h.site]
    cases Route.ofPath path with
    | home => exact page_of_servedBy h hk _
    | slug slug => exact page_of_servedBy h hk slug
    | robots => rfl
    | sitemap =>
      change (store.entries >>= _) = _
      rw [h.entries]
      rfl
    | notFound => exact notFound_of_servedBy h hk
  rw [ofPath, hroute]

end

def crossed : Snapshot where
  settings := []
  pages := [⟨1, "about", "About", .null, some 9, some 9, .null, true, false, none⟩]
  templates := [⟨7, [], .header, .null, true⟩, ⟨9, [], .footer, .null, false⟩,
    ⟨3, [], .header, .null, true⟩]

theorem ofPath_eq_answer_crossed :
    let store := { crossed.store with templates := fun ids => .ok (crossed.templatesWith ids).reverse }
    crossed.ServedBy store ∧ (crossed.templates.map Template.id).Nodup ∧
      ofPath store "/about" = crossed.answer (.slug "about") := by
  intro store
  have hserved : crossed.ServedBy store :=
    { Snapshot.servedBy_store crossed with
      templates := fun ids => ⟨_, rfl, List.reverse_perm (crossed.templatesWith ids)⟩ }
  have hids : (crossed.templates.map Template.id).Nodup := by decide
  exact ⟨hserved, hids, ofPath_eq_answer hserved hids "/about"⟩

end Response

end Folio
