import Folio.Json.Printer
import Folio.Page.Compose
import Folio.Proofs.Layers
import Folio.Proofs.Outline

set_option autoImplicit false

/-!
# Element ids of a composed page

The page, its header and its footer claim their ids from one registry, one after the other, so no id
is claimed twice. Nothing else in a composed page has an id: neither the head, whose title and style
sheet end where they should, nor the elements around the three parts.
-/
namespace Folio.Render.Outline

theorem closeless_of_mem_fragment [Link.HostReader] {o : Outline}
    (h : ∀ id ∈ o.claims, Identity.IsId id) :
    ∀ e ∈ o.fragment.entries, Style.Closeless e.write := by
  induction o with
  | none => simp [fragment, Fragment.empty]
  | node n id below rest hb hr =>
    have hid : Identity.IsId id := h id List.mem_cons_self
    have hbelow := hb fun i hi => h i (List.mem_cons_of_mem id (List.mem_append_left _ hi))
    have hrest := hr fun i hi => h i (List.mem_cons_of_mem id (List.mem_append_right _ hi))
    refine List.forall_mem_append.2 ⟨?_, hrest⟩
    rcases assemble_cases n id below.sound_fragment with ⟨he, _⟩ | ⟨html, he, _⟩
    · rw [he]
      simp [Fragment.empty]
    · rw [he]
      exact List.forall_mem_append.2 ⟨closeless_of_mem_ownEntries n hid, hbelow⟩

end Folio.Render.Outline

namespace Folio.Markup

namespace Html

theorem tagsAll_onLines (l : List Html) : tagsAll (onLines l) = tagsAll l := by
  have h : tagsAll (l.flatMap fun h => [h, text "\n"]) = tagsAll l := by
    induction l with
    | nil => rfl
    | cons x l ih => rw [List.flatMap_cons, tagsAll_append, ih]; simp [tagsAll, tags]
  exact h

theorem legibleAll_onLines {l : List Html} (hl : LegibleAll l) : LegibleAll (onLines l) := by
  have h : LegibleAll (l.flatMap fun h => [h, text "\n"]) := by
    induction l with
    | nil => trivial
    | cons x l ih => exact ⟨hl.1, trivial, ih hl.2⟩
  exact ⟨trivial, h⟩

theorem CarriesAll.onLines {l : List Html} {ids : List Text} (h : CarriesAll l ids) :
    CarriesAll (Html.onLines l) ids where
  legible := legibleAll_onLines h.legible
  ids := by rw [tagsAll_onLines, h.ids]

theorem carriesAll_option {α : Type} (o : Option α) {f : α → Html} (h : ∀ a, (f a).Carries []) :
    CarriesAll (o.map f).toList [] := by
  cases o with
  | none => exact carriesAll_nil
  | some a => exact (h a).single

end Html

end Folio.Markup

namespace Folio
open Markup

namespace Head

theorem carries_named (name content : Text) : (named name content).Carries [] :=
  Html.carries_void (by decide) rfl (identifies_none rfl)

theorem carries_property (name content : Text) : (property name content).Carries [] :=
  Html.carries_void (by decide) rfl (identifies_none rfl)

theorem carries_linked (rel href : Text) : (linked rel href).Carries [] :=
  Html.carries_void (by decide) rfl (identifies_none rfl)

theorem carriesAll_cardLines (url siteName : Option Text) (c : ShareCard) :
    Html.CarriesAll (cardLines url siteName c) [] := by
  have hfirst : Html.CarriesAll [property "og:type" c.kind, property "og:title" c.title] [] :=
    (carries_property _ _).cons (carries_property _ _).single
  have hcard : Html.CarriesAll
      [named "twitter:card" (if c.image.isSome then "summary_large_image" else "summary"),
        named "twitter:title" c.title] [] := (carries_named _ _).cons (carries_named _ _).single
  have hproperty (o : Option Text) (name : Text) :=
    Html.carriesAll_option o (carries_property name)
  have hnamed (o : Option Text) (name : Text) := Html.carriesAll_option o (carries_named name)
  exact ((((((hfirst.append (hproperty _ _)).append (hproperty _ _)).append (hproperty _ _)).append
    (hproperty _ _)).append hcard).append (hnamed _ _)).append (hnamed _ _)

theorem carries_title (s : Text) : (Html.element "title" [] [.text s]).Carries [] := by
  refine Html.carries_raw (by decide) rfl (by decide) (identifies_none rfl) ?_
  rw [Html.writeAll, Html.writeAll, Html.write, List.append_nil]
  exact hidden_inert (by decide) (inert_escape s).not_mem_open

theorem carriesAll_styleLines {sheet : Text} (h : Style.Closeless sheet) :
    Html.CarriesAll (styleLines sheet) [] := by
  unfold styleLines
  split
  · exact Html.carriesAll_nil
  · refine (Html.carries_raw (by decide) rfl (by decide) (identifies_none rfl) ?_).single
    exact hidden_append (hidden_inert (w := "\n") (by decide) (by decide))
      (Style.hidden_of_closeless h)

theorem carriesAll_lines (h : Head) {sheet : Text} (hs : Style.Closeless sheet) :
    Html.CarriesAll (h.lines sheet []) [] := by
  have hcharset : (Html.void "meta" [attr "charset" "utf-8"]).Carries [] :=
    Html.carries_void (by decide) rfl (identifies_none rfl)
  have hfirst := hcharset.cons ((carries_named "viewport" "width=device-width, initial-scale=1").cons
    (carries_title h.title).single)
  have hcard : Html.CarriesAll (h.card.toList.flatMap (cardLines h.canonicalUrl h.siteName)) [] := by
    cases h.card with
    | none => exact Html.carriesAll_nil
    | some c => simpa using carriesAll_cardLines h.canonicalUrl h.siteName c
  have hnamed (o : Option Text) (name : Text) := Html.carriesAll_option o (carries_named name)
  have hlinked (o : Option Text) (rel : Text) := Html.carriesAll_option o (carries_linked rel)
  have hrobots := (carries_named "robots" h.robots.content).single
  exact ((((((((hfirst.append (hnamed _ _)).append (hnamed _ _)).append hrobots).append
    (hlinked _ _)).append hcard).append (hlinked _ _)).append (carriesAll_styleLines hs)).append
      Html.carriesAll_nil)

theorem carries_html (h : Head) {sheet : Text} (hs : Style.Closeless sheet) :
    (h.html sheet []).Carries [] :=
  Html.carries_unmarked (by decide) rfl rfl (h.carriesAll_lines hs).onLines

end Head

namespace Layout

theorem not_mem_toList {c : Char} {s : String} {l : List Char} (h : s = String.ofList l)
    (hl : c ∉ l) : c ∉ s.toList := by
  rwa [h, String.toList_ofList]

theorem not_mem_open_baseEntries : ∀ s ∈ baseEntries, '<' ∉ s.toList := by
  unfold baseEntries
  repeat refine List.forall_mem_cons.2 ⟨not_mem_toList rfl (by decide), ?_⟩
  exact List.forall_mem_nil _

theorem closeless_sheetOf {entries : List Text} (h : ∀ s ∈ entries, Style.Closeless s) :
    Style.Closeless (sheetOf entries) := by
  refine Style.closeless_join (List.forall_mem_append.2 ⟨fun s hs => ?_, h⟩)
  obtain ⟨t, ht, rfl⟩ := List.mem_map.1 hs
  exact Style.closeless_of_not_mem (not_mem_open_baseEntries t ht)

theorem carriesAll_framed (tag class_ : Text) (ht : isTagName tag = true) (hraw : rawOf tag = none)
    {content : Text} {ids : List Text} (hc : (Html.markup content).Carries ids) :
    Html.CarriesAll (framed tag class_ content) ids := by
  unfold framed
  split
  · rename_i h
    obtain rfl : content = [] := List.isEmpty_iff.1 h
    have hids : ids = [] := by
      rw [← hc.ids, Html.tags, tags_nil]
      rfl
    rw [hids]
    exact Html.carriesAll_nil
  · exact (Html.carries_unmarked ht hraw rfl hc.single).single

theorem tags_doctype (r : Text) : tags ("<!DOCTYPE html>\n" ++ r) = .bogus :: tags r := by
  have hnext : Lexer.nextIn none '<' ("!DOCTYPE html>\n" ++ r) = (.bogus, '\n' :: r) := rfl
  have h : tags ('<' :: ("!DOCTYPE html>\n" ++ r)) = .bogus :: tags ('\n' :: r) := by
    rw [tags, tagsFrom_cons, hnext]
    rfl
  rw [tags_cons (c := '\n') (s := r) (by simp)] at h
  exact h

theorem idsOf_write {l : Layout} {main header footer : List Text} (hhead : l.headCode = [])
    (hfoot : l.footerCode = []) (hs : Style.Closeless l.sheet)
    (hm : (Html.markup l.main).Carries main) (hh : (Html.markup l.header).Carries header)
    (hf : (Html.markup l.footer).Carries footer) :
    idsOf (tokens l.write) = header ++ (main ++ footer) := by
  have hmain : (Html.element "main" [attr "class" "pc-main"] [.markup l.main]).Carries main :=
    Html.carries_unmarked (by decide) rfl rfl hm.single
  have hbody : l.body.Carries (header ++ (main ++ footer)) := by
    have hheader := carriesAll_framed "header" "pc-site-header" (by decide) rfl hh
    have hfooter := carriesAll_framed "footer" "pc-site-footer" (by decide) rfl hf
    have hparts := (hheader.append hmain.single).append hfooter
    rw [List.append_assoc header] at hparts
    rw [body, hfoot, List.map_nil, List.append_nil]
    exact Html.carries_unmarked (by decide) rfl rfl hparts.onLines
  have hlines : Html.CarriesAll [l.head.html l.sheet [], l.body] (header ++ (main ++ footer)) :=
    (l.head.carries_html hs).cons hbody.single
  have hhtml : l.html.Carries (header ++ (main ++ footer)) := by
    rw [html, hhead]
    exact Html.carries_unmarked (by decide) rfl rfl hlines.onLines
  have htags : tags l.write = .bogus :: l.html.tags := by
    have hend : tags "\n" = [] := tags_inert (by decide)
    have hwrite : l.write = "<!DOCTYPE html>\n" ++ (l.html.write ++ "\n") := List.append_assoc _ _ _
    calc
      tags l.write = .bogus :: tags (l.html.write ++ "\n") := by rw [hwrite, tags_doctype]
      _ = .bogus :: (l.html.tags ++ tags "\n") := by rw [Html.tags_write _ hhtml.legible]
      _ = .bogus :: l.html.tags := by rw [hend, List.append_nil]
  have hbogus (ts : List Token) : idsOf (.bogus :: ts) = idsOf ts := rfl
  rw [idsOf_tokens, htags, hbogus]
  exact hhtml.ids

end Layout

namespace Compose
open Render

theorem closeless_customSheet (css : Option Text) :
    ∀ s ∈ (customSheet css).toList, Style.Closeless s := by
  intro s hs
  obtain ⟨hs, _⟩ := Option.filter_eq_some_iff.1 (Option.mem_toList.1 hs)
  obtain ⟨written, _, rfl⟩ := Option.map_eq_some_iff.1 hs
  exact (Style.closeless_neutralizeClose _).mono (Text.trim_isInfix _)

theorem carries_builtInNotFound : builtInNotFound.Carries [] := by
  have hheading : (Html.element "h1" [] [.text "Page not found"]).Carries [] :=
    Html.carries_unmarked (by decide) rfl rfl (Html.carries_text _).single
  have htext : (Html.element "p" []
      [.text "The page you are looking for does not exist or has been moved."]).Carries [] :=
    Html.carries_unmarked (by decide) rfl rfl (Html.carries_text _).single
  have hlink : (Html.element "a" [attr "class" "pc-button pc-button-primary", attr "href" "/"]
      [.text "Back to home"]).Carries [] :=
    Html.carries_unmarked (by decide) rfl rfl (Html.carries_text _).single
  exact Html.carries_unmarked (by decide) rfl rfl
    (hheading.cons (htext.cons hlink.single))

section

variable [Link.HostReader]

/-- Parts that are drawn with distinct ids. -/
structure Drawn (p : Parts) (m h f : Outline) : Prop where
  main : p.main = m.fragment
  header : p.header = h.fragment
  footer : p.footer = f.fragment
  nodup : (m.claims ++ (h.claims ++ f.claims)).Nodup
  isId : ∀ id ∈ m.claims ++ (h.claims ++ f.claims), Identity.IsId id

theorem Drawn.of_claims {p : Parts} {m h f : Outline} {r₀ r₁ r₂ r₃ : Registry}
    (hm : p.main = m.fragment) (hh : p.header = h.fragment) (hf : p.footer = f.fragment)
    (cm : m.Claims r₀ r₁) (ch : h.Claims r₁ r₂) (cf : f.Claims r₂ r₃) : Drawn p m h f := by
  have hall := cm.followedBy (ch.followedBy cf)
  have hclaims : (m.followedBy (h.followedBy f)).claims =
      m.claims ++ (h.claims ++ f.claims) := by
    rw [Outline.claims_followedBy, Outline.claims_followedBy]
  exact ⟨hm, hh, hf, hclaims ▸ hall.nodup, hclaims ▸ hall.isId⟩

section

variable [Json.Codec]

theorem exists_outline_template (t : Option Template) (scope : Scope) (r : Registry) :
    ∃ o : Outline, (template t scope r).1 = o.fragment ∧ o.Claims r (template t scope r).2 := by
  cases t with
  | none => exact ⟨.none, rfl, Outline.claims_none r⟩
  | some t =>
    refine ⟨(Outline.ofDocument t.document scope r).1, ?_, ?_⟩
    · rw [template, Outline.renderDocument_eq]
    · rw [template, Outline.renderDocument_eq]
      exact Outline.claims_ofDocument t.document scope r

theorem exists_drawn_page (c : Context) : ∃ m h f : Outline, Drawn c.parts m h f := by
  obtain ⟨h, hh, ch⟩ := exists_outline_template
    (if c.settings.hidesHeader then none else c.catalog.resolve? c.page.headerId .header) .header
    (Outline.ofDocument c.page.document .page Registry.empty).2.registry
  obtain ⟨f, hf, cf⟩ := exists_outline_template
    (if c.settings.hidesFooter then none else c.catalog.resolve? c.page.footerId .footer) .footer _
  refine ⟨_, h, f, .of_claims ?_ ?_ ?_ (Outline.claims_ofDocument c.page.document .page .empty) ch cf⟩
  · rw [Context.parts, Outline.renderDocument_eq]
  · rw [Context.parts, Outline.renderDocument_eq]
    exact hh
  · rw [Context.parts, Outline.renderDocument_eq]
    exact hf

theorem exists_drawn_notFound (catalog : Catalog) :
    ∃ m h f : Outline, Drawn (notFoundParts catalog) m h f := by
  obtain ⟨m, hm, cm⟩ := exists_outline_template (catalog.published? .notFound) .notFound .empty
  obtain ⟨h, hh, ch⟩ := exists_outline_template (catalog.published? .header) .header _
  obtain ⟨f, hf, cf⟩ := exists_outline_template (catalog.published? .footer) .footer _
  exact ⟨m, h, f, .of_claims hm hh hf cm ch cf⟩

end

namespace Drawn

variable {p : Parts} {m h f : Outline}

theorem closeless_entries (d : Drawn p m h f) : ∀ s ∈ p.entries, Style.Closeless s := by
  have hm := Outline.closeless_of_mem_fragment fun id hid => d.isId id (List.mem_append_left _ hid)
  have hh := Outline.closeless_of_mem_fragment fun id hid =>
    d.isId id (List.mem_append_right _ (List.mem_append_left _ hid))
  have hf := Outline.closeless_of_mem_fragment fun id hid =>
    d.isId id (List.mem_append_right _ (List.mem_append_right _ hid))
  rw [Parts.entries, d.main, d.header, d.footer]
  refine List.forall_mem_append.2 ⟨List.forall_mem_append.2 ⟨?_, ?_⟩, ?_⟩
  · exact List.forall_mem_map.2 hm
  · exact List.forall_mem_map.2 hh
  · exact List.forall_mem_map.2 hf

theorem nodup_ids (d : Drawn p m h f) : (h.ids ++ (m.ids ++ f.ids)).Nodup := by
  have hsub := m.ids_sublist.append (h.ids_sublist.append f.ids_sublist)
  have hnodup : (m.ids ++ (h.ids ++ f.ids)).Nodup := hsub.nodup d.nodup
  refine (List.Perm.nodup_iff ?_).1 hnodup
  rw [← List.append_assoc, ← List.append_assoc]
  exact List.perm_append_comm.append_right f.ids

end Drawn

theorem carries_notFoundMain (o : Outline) :
    (Html.markup (notFoundMain o.fragment)).Carries o.ids := by
  unfold notFoundMain
  split
  · rename_i h
    have hnil : o.fragment.html = [] := List.isEmpty_iff.1 h
    have hids : o.ids = [] := by
      rw [← o.sound_fragment.ids, hnil, Html.tags, tags_nil]
      rfl
    rw [hids]
    exact carries_builtInNotFound.write
  · exact o.sound_fragment.toCarries

variable [Json.Codec]

theorem closeless_sheet (c : Context) : Style.Closeless c.layout.sheet := by
  obtain ⟨m, h, f, hd⟩ := exists_drawn_page c
  exact Layout.closeless_sheetOf
    (List.forall_mem_append.2 ⟨hd.closeless_entries, closeless_customSheet _⟩)

theorem nodup_idsOf_compose (c : Context) (hhead : c.site.headCode = none)
    (hfoot : c.site.footerCode = none) (hhead' : c.settings.code.head = none)
    (hfoot' : c.settings.code.footer = none) : (idsOf (tokens c.compose)).Nodup := by
  obtain ⟨m, h, f, hd⟩ := exists_drawn_page c
  have hids : idsOf (tokens c.compose) = h.ids ++ (m.ids ++ f.ids) := by
    refine Layout.idsOf_write ?_ ?_ ?_ ?_ ?_ ?_
    · rw [Context.layout, hhead, hhead']
      rfl
    · rw [Context.layout, hfoot, hfoot']
      rfl
    · exact closeless_sheet c
    · rw [Context.layout, hd.main]
      exact m.sound_fragment.toCarries
    · rw [Context.layout, hd.header]
      exact h.sound_fragment.toCarries
    · rw [Context.layout, hd.footer]
      exact f.sound_fragment.toCarries
  rw [hids]
  exact hd.nodup_ids

theorem closeless_notFoundSheet (site : Site) (catalog : Catalog) :
    Style.Closeless (notFoundLayout site catalog).sheet := by
  obtain ⟨m, h, f, hd⟩ := exists_drawn_notFound catalog
  exact Layout.closeless_sheetOf hd.closeless_entries

theorem nodup_idsOf_notFound (site : Site) (catalog : Catalog) (hhead : site.headCode = none)
    (hfoot : site.footerCode = none) : (idsOf (tokens (notFound site catalog))).Nodup := by
  obtain ⟨m, h, f, hd⟩ := exists_drawn_notFound catalog
  have hids : idsOf (tokens (notFound site catalog)) = h.ids ++ (m.ids ++ f.ids) := by
    refine Layout.idsOf_write ?_ ?_ ?_ ?_ ?_ ?_
    · rw [notFoundLayout, hhead]
      rfl
    · rw [notFoundLayout, hfoot]
      rfl
    · exact closeless_notFoundSheet site catalog
    · rw [notFoundLayout, hd.main]
      exact carries_notFoundMain m
    · rw [notFoundLayout, hd.header]
      exact h.sound_fragment.toCarries
    · rw [notFoundLayout, hd.footer]
      exact f.sound_fragment.toCarries
  rw [hids]
  exact hd.nodup_ids

/-- No two elements of a composed page have the same id, if neither the site nor the page adds code
    of its own, and no two of the not-found page. -/
theorem nodup_ids_of_composed :
    (∀ c : Context, c.site.headCode = none → c.site.footerCode = none →
      c.settings.code.head = none → c.settings.code.footer = none →
        (idsOf (tokens c.compose)).Nodup) ∧
    ∀ (site : Site) (catalog : Catalog), site.headCode = none → site.footerCode = none →
      (idsOf (tokens (notFound site catalog))).Nodup :=
  ⟨nodup_idsOf_compose, nodup_idsOf_notFound⟩

end

theorem nodup_ids_of_composed_colliding :
    (idsOf (tokens (Context.compose
      { page := ⟨1, "about", "About",
          .object [("ROOT", .object [("nodes", .array [.string "a", .string "a", .string "ROOT"]),
              ("type", .string "Container")]),
            ("a", .object [("props", .object [("metadata",
              .object [("elementId", .string "pc-ROOT")])]), ("type", .string "Text")])],
          none, none, .null, true, false, none⟩
        settings := PageSettings.ofFields []
        site := Site.ofFields []
        catalog := Catalog.empty }))).Nodup ∧
    (idsOf (tokens (notFound (Site.ofFields []) Catalog.empty))).Nodup :=
  ⟨nodup_ids_of_composed.1 _ rfl rfl rfl rfl, nodup_ids_of_composed.2 _ _ rfl rfl⟩

end Compose

end Folio
