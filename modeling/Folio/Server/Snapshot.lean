import Folio.Server.Store

set_option autoImplicit false

/-!
# Snapshots

A whole site in one JSON text, and the store that serves it from memory.
-/
namespace Folio

structure Snapshot where
  settings : Json.Fields
  pages : List Page
  templates : List Template

namespace Snapshot

def fieldNames : List Text := ["settings", "pages", "templates"]

def shape : Json.Shape :=
  .record [("settings", .value), ("pages", .list Page.shape), ("templates", .list Template.shape)]

def ofJson? (value : Json) : Option Snapshot := do
  let fields ← value.record? fieldNames
  let settings ← fields.read? Json.object? [] "settings"
  let pages ← fields.read? (fun v => v.array?.bind (·.mapM Page.ofJson?)) [] "pages"
  let templates ← fields.read? (fun v => v.array?.bind (·.mapM Template.ofJson?)) [] "templates"
  some ⟨settings, pages, templates⟩

def read (s : Text) : Except StoreError Snapshot :=
  match (Json.readAs? shape s).bind ofJson? with
  | some snapshot => .ok snapshot
  | none => .error .badSnapshot

def load (content : Option Text) : Except StoreError Snapshot :=
  match content with
  | some s => read s
  | none => .error .unreadable

def site (s : Snapshot) : Site := Site.ofFields s.settings

def publicPages (s : Snapshot) : List Page := s.pages.filter Page.isPublic

def page? (s : Snapshot) (slug : Text) : Option Page := s.publicPages.find? fun p => p.slug = slug

def templatesWith (s : Snapshot) (ids : List Int) : List Template :=
  s.templates.filter fun t => ids.contains t.id

def catalog (s : Snapshot) : Catalog := ⟨s.templates⟩

/-- Puts a page behind those whose slugs do not come after its own. -/
def bySlug (p q : Page) : Bool := !Text.before q.slug p.slug

def entries [Json.Codec] (s : Snapshot) : List SitemapEntry :=
  (s.publicPages.mergeSort bySlug).map SitemapEntry.ofPage

def store [Json.Codec] (s : Snapshot) : Store where
  site := .ok s.site
  page slug := .ok (s.page? slug)
  templates ids := .ok (s.templatesWith ids)
  publishedTemplate kind := .ok (s.catalog.published? kind)
  entries := .ok s.entries

end Snapshot

end Folio
