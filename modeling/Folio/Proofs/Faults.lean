import Folio.Proofs.Catalog
import Folio.Proofs.Paths

set_option autoImplicit false

/-!
# Stores in trouble

What a path is answered with is settled by questions to the store, asked one after the other. A store
that is in trouble with a question that is asked has no say in anything else: the answer is that of the
trouble. A question that is not asked does not matter.
-/
namespace Folio

/-- A question to a store, with what is asked for. -/
inductive Query where
  | site
  | page (slug : Text)
  | templates (ids : List Int)
  | publishedTemplate (kind : TemplateKind)
  | entries

namespace Query

abbrev Answer : Query → Type
  | site => Site
  | page _ => Option Page
  | templates _ => List Template
  | publishedTemplate _ => Option Template
  | entries => List SitemapEntry

def question : Query → Question
  | site => .site
  | page _ => .page
  | templates _ => .templates
  | publishedTemplate _ => .publishedTemplate
  | entries => .entries

end Query

namespace Store

def answer (s : Store) : (q : Query) → Except Trouble q.Answer
  | .site => s.site
  | .page slug => s.page slug
  | .templates ids => s.templates ids
  | .publishedTemplate kind => s.publishedTemplate kind
  | .entries => s.entries

theorem answer_inTrouble_self (s : Store) (q : Query) (t : Trouble) :
    (s.inTrouble q.question t).answer q = .error t := by
  cases q <;> rfl

theorem answer_inTrouble_of_ne (s : Store) {q : Query} {asked : Question} (h : q.question ≠ asked)
    (t : Trouble) : (s.inTrouble asked t).answer q = s.answer q := by
  cases asked <;> cases q <;> simp [Query.question, inTrouble, answer] at h ⊢

end Store

/-- Questions that are asked in turn, each depending on the answers so far, and what is made of them
    in the end. -/
inductive Inquiry (α : Type) where
  | done (a : α)
  | ask (q : Query) (next : q.Answer → Inquiry α)

namespace Inquiry

variable {α β : Type}

def bind (p : Inquiry α) (f : α → Inquiry β) : Inquiry β :=
  match p with
  | done a => f a
  | ask q next => ask q fun x => (next x).bind f

instance : Monad Inquiry where
  pure := done
  bind := bind

/-- What comes of an inquiry at a store. The first trouble ends it. -/
def run (s : Store) : Inquiry α → Except Trouble α
  | done a => .ok a
  | ask q next => s.answer q >>= fun x => (next x).run s

def asked (s : Store) : Inquiry α → List Question
  | done _ => []
  | ask q next => q.question ::
    match s.answer q with
    | .ok x => (next x).asked s
    | .error _ => []

theorem ask_bind (q : Query) (next : q.Answer → Inquiry α) (f : α → Inquiry β) :
    ask q next >>= f = ask q fun x => next x >>= f := rfl

theorem run_bind (s : Store) (p : Inquiry α) (f : α → Inquiry β) :
    (p >>= f).run s = p.run s >>= fun a => (f a).run s := by
  induction p with
  | done a => rfl
  | ask q next ih =>
    rw [ask_bind, run, run]
    cases s.answer q with
    | error t => rfl
    | ok x => exact ih x

theorem asked_bind (s : Store) (p : Inquiry α) (f : α → Inquiry β) :
    (p >>= f).asked s = p.asked s ++
      match p.run s with
      | .ok a => (f a).asked s
      | .error _ => [] := by
  induction p with
  | done a => rfl
  | ask q next ih =>
    rw [ask_bind, asked, asked, run]
    cases s.answer q with
    | error t => rfl
    | ok x => exact congrArg (q.question :: ·) (ih x)

/-- A store in trouble with a question spoils every inquiry that asks it, and no other. -/
theorem run_inTrouble (s : Store) (trouble : Question) (t : Trouble) (p : Inquiry α) :
    p.run (s.inTrouble trouble t) = if trouble ∈ p.asked s then .error t else p.run s := by
  induction p with
  | done a => rfl
  | ask q next ih =>
    rw [run, asked]
    by_cases h : q.question = trouble
    · subst h
      rw [Store.answer_inTrouble_self, if_pos List.mem_cons_self]
      rfl
    · rw [Store.answer_inTrouble_of_ne s h, run]
      have hne : ¬ trouble = q.question := Ne.symm h
      cases hq : s.answer q with
      | error e =>
        rw [if_neg (by simpa using hne)]
        rfl
      | ok x =>
        have hmem : trouble ∈ q.question :: (next x).asked s ↔ trouble ∈ (next x).asked s := by
          simp [hne]
        simp only [hmem]
        exact ih x

def missing (templates : List Template) (choice : Option Int) (kind : TemplateKind) :
    Inquiry (List Template) :=
  let chosen := choice.any fun id => templates.any fun t => t.id = id && t.kind = kind
  if chosen then done [] else ask (.publishedTemplate kind) fun t => done t.toList

def templatesFor (page : Page) : Inquiry (List Template) :=
  ask (.templates (page.headerId.toList ++ page.footerId.toList)) fun chosen => do
    let header ← missing chosen page.headerId .header
    let footer ← missing (chosen ++ header) page.footerId .footer
    return chosen ++ header ++ footer

def notFound [Json.Codec] [Link.HostReader] (site : Site) : Inquiry Response :=
  ask (.publishedTemplate .notFound) fun main =>
    ask (.publishedTemplate .header) fun header =>
      ask (.publishedTemplate .footer) fun footer =>
        done (.html 404
          (Compose.notFound site ⟨main.toList ++ header.toList ++ footer.toList⟩))

def page [Json.Codec] [Link.HostReader] (site : Site) (slug : Text) : Inquiry Response :=
  ask (.page slug) fun
    | none => notFound site
    | some page => do
      let templates ← templatesFor page
      return .html 200 (Compose.page page site ⟨templates⟩)

def ofRoute [Json.Codec] [Link.HostReader] (route : Route) : Inquiry Response :=
  ask .site fun site =>
    match route with
    | .robots => done (.plain 200 site.robotsFile)
    | .sitemap => ask .entries fun entries =>
        done ⟨200, some Response.xmlType, Sitemap.write site entries⟩
    | .home => page site site.homepage
    | .slug slug => page site slug
    | .notFound => notFound site

theorem run_missing (s : Store) (ts : List Template) (choice : Option Int) (kind : TemplateKind) :
    (missing ts choice kind).run s = Response.missing s ts choice kind := by
  unfold missing Response.missing
  dsimp only
  split
  · rfl
  · change s.publishedTemplate kind >>= _ = _
    cases s.publishedTemplate kind <;> rfl

theorem run_templatesFor (s : Store) (p : Page) :
    (templatesFor p).run s = Response.templatesFor s p := by
  simp only [templatesFor, Response.templatesFor, run, run_bind, run_missing]
  rfl

section

variable [Json.Codec] [Link.HostReader]

theorem run_notFound (s : Store) (site : Site) :
    (notFound site).run s = Response.notFound s site := rfl

theorem run_page (s : Store) (site : Site) (slug : Text) :
    (page site slug).run s = Response.page s site slug := by
  rw [page, Response.page, run]
  refine congrArg (s.page slug >>= ·) (funext fun found => ?_)
  cases found with
  | none => exact run_notFound s site
  | some p =>
    simp only [run_bind, run_templatesFor]
    rfl

/-- The inquiry of a route comes to its answer, at every store. -/
theorem run_ofRoute (s : Store) (route : Route) :
    (ofRoute route).run s = Response.ofRoute s route := by
  rw [ofRoute, Response.ofRoute, run]
  refine congrArg (s.site >>= ·) (funext fun site => ?_)
  cases route with
  | robots => rfl
  | sitemap => rfl
  | home => exact run_page s site site.homepage
  | slug slug => exact run_page s site slug
  | notFound => exact run_notFound s site

end

end Inquiry

namespace Response

variable [Json.Codec] [Link.HostReader]

def asked (s : Store) (path : Text) : List Question := (Inquiry.ofRoute (Route.ofPath path)).asked s

theorem ofPath_inTrouble (s : Store) (path : Text) (trouble : Question) (t : Trouble) :
    ofPath (s.inTrouble trouble t) path =
      if trouble ∈ asked s path then ofTrouble t else ofPath s path := by
  rw [ofPath, ofPath, ← Inquiry.run_ofRoute, ← Inquiry.run_ofRoute, Inquiry.run_inTrouble, asked]
  by_cases h : trouble ∈ (Inquiry.ofRoute (Route.ofPath path)).asked s
  · rw [if_pos h, if_pos h]
  · rw [if_neg h, if_neg h]

end Response

namespace Snapshot

variable {s : Snapshot}

/-- Whether a template that was chosen is there and of the right kind. -/
def chooses (s : Snapshot) (choice : Option Int) (kind : TemplateKind) : Bool :=
  choice.any fun id => s.templates.any fun t => t.id = id && t.kind = kind

def fallback (s : Snapshot) (choice : Option Int) (kind : TemplateKind) : List Question :=
  if s.chooses choice kind then [] else [.publishedTemplate]

def questionsFor (s : Snapshot) : Option Page → List Question
  | none => [.publishedTemplate, .publishedTemplate, .publishedTemplate]
  | some p => .templates :: (s.fallback p.headerId .header ++ s.fallback p.footerId .footer)

def questions (s : Snapshot) : Route → List Question
  | .robots => [.site]
  | .sitemap => [.site, .entries]
  | .home => .site :: .page :: s.questionsFor (s.page? s.site.homepage)
  | .slug slug => .site :: .page :: s.questionsFor (s.page? slug)
  | .notFound => .site :: s.questionsFor none

theorem any_templatesWith {choice : Option Int} {ids : List Int} (h : ∀ id ∈ choice, id ∈ ids)
    (kind : TemplateKind) :
    (choice.any fun id => (s.templatesWith ids).any fun t => t.id = id && t.kind = kind) =
      s.chooses choice kind := by
  cases choice with
  | none => rfl
  | some id =>
    have hid : id ∈ ids := h id rfl
    rw [Bool.eq_iff_iff]
    simp only [chooses, templatesWith, Option.any_some, List.any_eq_true, List.mem_filter,
      Bool.and_eq_true, decide_eq_true_eq]
    constructor
    · rintro ⟨t, ⟨ht, _⟩, hsame⟩
      exact ⟨t, ht, hsame⟩
    · rintro ⟨t, ht, rfl, hkind⟩
      exact ⟨t, ⟨ht, List.contains_iff_mem.2 hid⟩, rfl, hkind⟩

section

variable [Json.Codec]

theorem kind_of_mem_missing {ts more : List Template} {choice : Option Int} {kind : TemplateKind}
    (h : Response.missing s.store ts choice kind = .ok more) : ∀ t ∈ more, t.kind = kind := by
  unfold Response.missing at h
  dsimp only at h
  split at h
  · obtain rfl : [] = more := Except.ok.inj h
    simp
  · obtain rfl : (s.catalog.published? kind).toList = more := Except.ok.inj h
    intro t ht
    have hpublished := (Catalog.mem_of_published? (Option.mem_toList.1 ht)).2
    simp only [Catalog.isPublished, Bool.and_eq_true, decide_eq_true_eq] at hpublished
    exact hpublished.2

theorem asked_missing (ts : List Template) (choice : Option Int) (kind : TemplateKind) :
    (Inquiry.missing ts choice kind).asked s.store =
      if choice.any fun id => ts.any fun t => t.id = id && t.kind = kind then []
      else [.publishedTemplate] := by
  unfold Inquiry.missing
  dsimp only
  split <;> rfl

theorem asked_templatesFor (s : Snapshot) (p : Page) :
    (Inquiry.templatesFor p).asked s.store = s.questionsFor (some p) := by
  let ids := p.headerId.toList ++ p.footerId.toList
  let chosen := s.templatesWith ids
  obtain ⟨header, hheader⟩ := s.exists_missing chosen p.headerId .header
  obtain ⟨footer, hfooter⟩ := s.exists_missing (chosen ++ header) p.footerId .footer
  have hhead : (Inquiry.missing chosen p.headerId .header).asked s.store =
      s.fallback p.headerId .header := by
    have hids : ∀ id ∈ p.headerId, id ∈ ids :=
      fun id hid => List.mem_append_left _ (Option.mem_toList.2 hid)
    rw [asked_missing, any_templatesWith hids, fallback]
  have hfoot : (Inquiry.missing (chosen ++ header) p.footerId .footer).asked s.store =
      s.fallback p.footerId .footer := by
    have hids : ∀ id ∈ p.footerId, id ∈ ids :=
      fun id hid => List.mem_append_right _ (Option.mem_toList.2 hid)
    -- a header that was put in does for no footer
    have hnone (id : Int) : (header.any fun t => t.id = id && t.kind = .footer) = false := by
      refine List.any_eq_false.2 fun t ht => ?_
      simp [kind_of_mem_missing hheader t ht]
    simp only [asked_missing, List.any_append, hnone, Bool.or_false]
    rw [any_templatesWith hids, fallback]
  have hasked : (Inquiry.templatesFor p).asked s.store = .templates ::
      (Inquiry.missing chosen p.headerId .header >>= fun header =>
        Inquiry.missing (chosen ++ header) p.footerId .footer >>= fun footer =>
          pure (chosen ++ header ++ footer)).asked s.store := rfl
  rw [hasked, Inquiry.asked_bind, Inquiry.run_missing, hheader, hhead]
  dsimp only
  rw [Inquiry.asked_bind, Inquiry.run_missing, hfooter, hfoot]
  exact congrArg (fun l => .templates :: (s.fallback p.headerId .header ++ l)) (List.append_nil _)

variable [Link.HostReader]

theorem asked_page (s : Snapshot) (slug : Text) :
    (Inquiry.page s.site slug).asked s.store = .page :: s.questionsFor (s.page? slug) := by
  have hanswer : s.store.answer (.page slug) = .ok (s.page? slug) := rfl
  rw [Inquiry.page, Inquiry.asked, hanswer]
  cases s.page? slug with
  | none => rfl
  | some p =>
    obtain ⟨ts, hts⟩ := s.exists_templatesFor p
    dsimp only
    rw [Inquiry.asked_bind, Inquiry.run_templatesFor, hts, asked_templatesFor]
    exact congrArg (Question.page :: ·) (List.append_nil _)

theorem asked_eq_questions (s : Snapshot) (path : Text) :
    Response.asked s.store path = s.questions (Route.ofPath path) := by
  rw [Response.asked]
  cases Route.ofPath path with
  | robots => rfl
  | sitemap => rfl
  | home => exact congrArg (.site :: ·) (s.asked_page s.site.homepage)
  | slug slug => exact congrArg (.site :: ·) (s.asked_page slug)
  | notFound => rfl

theorem not_mem_asked {path slug : Text} {p : Page} (hasks : s.Asks path slug)
    (hp : s.page? slug = some p) (hheader : s.chooses p.headerId .header = true)
    (hfooter : s.chooses p.footerId .footer = true) :
    .publishedTemplate ∉ Response.asked s.store path := by
  have hfor : s.questionsFor (some p) = [.templates] := by
    rw [questionsFor, fallback, fallback, if_pos hheader, if_pos hfooter]
    rfl
  have hasked : Response.asked s.store path = [.site, .page, .templates] := by
    rw [asked_eq_questions]
    rcases asks_iff.1 hasks with hpath | ⟨hpath, rfl⟩
    · rw [hpath, questions, hp, hfor]
    · rw [hpath, questions, hp, hfor]
  rw [hasked]
  decide

/-- Where a question is in trouble that the path asks, the answer is the plain one of the trouble, and
    where the path does not ask it, the answer is as ever. -/
theorem answer_of_trouble (s : Snapshot) (path : Text) :
    (∀ q : Question,
      (q ∉ Response.asked s.store path → ∀ t,
        Response.ofPath (s.store.inTrouble q t) path = Response.ofPath s.store path) ∧
      (q ∈ Response.asked s.store path →
        (∀ e, Response.ofPath (s.store.inTrouble q (.failed e)) path =
          .plain 500 "Internal Server Error") ∧
        Response.ofPath (s.store.inTrouble q .database) path =
          .plain 500 "Internal Server Error" ∧
        Response.ofPath (s.store.inTrouble q .stalled) path =
          .plain 503 "Service Unavailable")) ∧
    Response.asked s.store path = s.questions (Route.ofPath path) ∧
    ∀ slug p, s.Asks path slug → s.page? slug = some p → s.chooses p.headerId .header = true →
      s.chooses p.footerId .footer = true → ∀ t,
        Response.ofPath (s.store.inTrouble .publishedTemplate t) path =
          Response.ofPath s.store path := by
  have hother : ∀ q, q ∉ Response.asked s.store path → ∀ t,
      Response.ofPath (s.store.inTrouble q t) path = Response.ofPath s.store path := by
    intro q h t
    rw [Response.ofPath_inTrouble, if_neg h]
  have hasked : ∀ q, q ∈ Response.asked s.store path → ∀ t,
      Response.ofPath (s.store.inTrouble q t) path = Response.ofTrouble t := by
    intro q h t
    rw [Response.ofPath_inTrouble, if_pos h]
  refine ⟨fun q => ⟨hother q, fun h =>
      ⟨fun e => hasked q h (.failed e), hasked q h .database, hasked q h .stalled⟩⟩,
    s.asked_eq_questions path, ?_⟩
  intro slug p hasks hp hheader hfooter
  exact hother .publishedTemplate (not_mem_asked hasks hp hheader hfooter)

end

def furnished : Snapshot where
  settings := []
  pages := [⟨1, "about", "About", .null, some 7, some 9, .null, true, false, none⟩]
  templates := [⟨7, [], .header, .null, false⟩, ⟨9, [], .footer, .null, false⟩]

theorem answer_of_trouble_furnished :
    .publishedTemplate ∉ Response.asked furnished.store "/about" ∧
      Response.ofPath (furnished.store.inTrouble .publishedTemplate .stalled) "/about" =
        Response.ofPath furnished.store "/about" ∧
      .templates ∈ Response.asked furnished.store "/about" ∧
      Response.ofPath (furnished.store.inTrouble .templates .stalled) "/about" =
        .plain 503 "Service Unavailable" := by
  obtain ⟨htrouble, hasked, hfurnished⟩ := answer_of_trouble furnished "/about"
  have hroute : Route.ofPath "/about" = .slug "about" := by decide
  have hasks : furnished.Asks "/about" "about" := asks_iff.2 (.inl hroute)
  have htemplates : .templates ∈ Response.asked furnished.store "/about" := by
    rw [hasked]
    decide
  refine ⟨not_mem_asked hasks rfl (by decide) (by decide), ?_, htemplates,
    ((htrouble .templates).2 htemplates).2.2⟩
  exact hfurnished "about" _ hasks rfl (by decide) (by decide) .stalled

end Snapshot

end Folio
