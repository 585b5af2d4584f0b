import Folio.Proofs.Components
import Folio.Proofs.Registry
import Folio.Render.Walk

set_option autoImplicit false

/-!
# What a walk draws

A walk first settles which nodes are drawn where and with which ids: the outline. Everything else is
decided by it, so a property of what is rendered is proved by induction on the outline.
-/
namespace Folio.Render
open Markup

/-- A node with the id it gets, the nodes below it and the nodes after it. -/
inductive Outline where
  | none
  | node (n : Node) (id : Text) (below rest : Outline)

namespace Outline

def followedBy : Outline → Outline → Outline
  | none, p => p
  | node n id below rest, p => node n id below (rest.followedBy p)

def claims : Outline → List Text
  | none => []
  | node _ id below rest => id :: (below.claims ++ rest.claims)

theorem claims_followedBy (o p : Outline) : (o.followedBy p).claims = o.claims ++ p.claims := by
  induction o with
  | none => rfl
  | node n id below rest _ ih => simp [followedBy, claims, ih]

def visitAll (visit : Text → WalkState → Outline × WalkState) :
    List Text → WalkState → Outline × WalkState
  | [], s => (none, s)
  | id :: ids, s =>
    let (o, s) := visit id s
    let (p, s) := visitAll visit ids s
    (o.followedBy p, s)

def visit (d : Document) (scope : Scope) : Nat → Text → WalkState → Outline × WalkState
  | 0, _, s => (none, s)
  | levels + 1, nodeId, s =>
    match d.get? nodeId with
    | .none => (none, s)
    | some n =>
      if n.hidden || s.visited.contains nodeId then (none, s)
      else
        let (id, registry) := s.registry.assign scope nodeId n.props
        let (below, s) :=
          visitAll (visit d scope levels) n.allChildren ⟨registry, nodeId :: s.visited⟩
        (node n id below none, s)

def ofDocument (d : Document) (scope : Scope) (r : Registry) : Outline × WalkState :=
  visit d scope (maxDepth + 1) Document.rootId ⟨r, []⟩

/-- From one registry to the other exactly the ids of an outline are claimed. -/
structure Claims (r r' : Registry) (o : Outline) : Prop where
  taken : r'.taken = o.claims.reverse ++ r.taken
  new : ∀ id ∈ o.claims, id ∉ r.taken
  nodup : o.claims.Nodup
  isId : ∀ id ∈ o.claims, Identity.IsId id

theorem claims_none (r : Registry) : Claims r r none where
  taken := rfl
  new := by simp [claims]
  nodup := List.nodup_nil
  isId := by simp [claims]

theorem Claims.followedBy {r r' r'' : Registry} {o p : Outline} (ho : Claims r r' o)
    (hp : Claims r' r'' p) : Claims r r'' (o.followedBy p) where
  taken := by rw [claims_followedBy, hp.taken, ho.taken, List.reverse_append, List.append_assoc]
  new := by
    intro id hid
    rw [claims_followedBy] at hid
    rcases List.mem_append.1 hid with hid | hid
    · exact ho.new id hid
    · intro hr
      exact hp.new id hid (by rw [ho.taken]; exact List.mem_append_right _ hr)
  nodup := by
    rw [claims_followedBy]
    refine List.nodup_append.2 ⟨ho.nodup, hp.nodup, ?_⟩
    rintro id hid _ hid' rfl
    refine hp.new id hid' ?_
    rw [ho.taken]
    exact List.mem_append_left _ (List.mem_reverse.2 hid)
  isId := by
    intro id hid
    rw [claims_followedBy] at hid
    exact (List.mem_append.1 hid).elim (ho.isId id) (hp.isId id)

theorem Claims.node {r r' : Registry} {o : Outline} {id : Text} (n : Node) (hid : id ∉ r.taken)
    (his : Identity.IsId id) (ho : Claims ⟨id :: r.taken⟩ r' o) :
    Claims r r' (.node n id o .none) where
  taken := by simp [claims, ho.taken]
  new := by
    intro i hi
    rcases List.mem_cons.1 hi with rfl | hi
    · exact hid
    · intro hr
      exact ho.new i (by simpa [claims] using hi) (List.mem_cons_of_mem id hr)
  nodup := by
    refine List.nodup_cons.2 ⟨fun hm => ?_, by simpa [claims] using ho.nodup⟩
    exact ho.new id (by simpa [claims] using hm) List.mem_cons_self
  isId := by
    intro i hi
    rcases List.mem_cons.1 hi with rfl | hi
    · exact his
    · exact ho.isId i (by simpa [claims] using hi)

theorem claims_visitAll {visit : Text → WalkState → Outline × WalkState}
    (hv : ∀ id s, Claims s.registry (visit id s).2.registry (visit id s).1) (l : List Text)
    (s : WalkState) :
    Claims s.registry (visitAll visit l s).2.registry (visitAll visit l s).1 := by
  induction l generalizing s with
  | nil => exact claims_none s.registry
  | cons id l ih => exact (hv id s).followedBy (ih (visit id s).2)

theorem claims_visit (d : Document) (scope : Scope) (levels : Nat) (nodeId : Text) (s : WalkState) :
    Claims s.registry (visit d scope levels nodeId s).2.registry (visit d scope levels nodeId s).1 := by
  induction levels generalizing nodeId s with
  | zero => exact claims_none s.registry
  | succ levels ih =>
    rw [visit]
    split
    · exact claims_none s.registry
    · rename_i n _
      split
      · exact claims_none s.registry
      · obtain ⟨id, hassign, hfree, his⟩ := s.registry.assign_spec scope nodeId n.props
        rw [hassign]
        exact (claims_visitAll ih n.allChildren ⟨⟨id :: s.registry.taken⟩, _⟩).node n hfree his

theorem claims_ofDocument (d : Document) (scope : Scope) (r : Registry) :
    Claims r (ofDocument d scope r).2.registry (ofDocument d scope r).1 :=
  claims_visit d scope (maxDepth + 1) Document.rootId ⟨r, []⟩

end Outline

def holdsChildrenOf (n : Node) : Bool := ((Component.ofTag? n.typeTag).map holdsChildren).getD true

section

variable [Link.HostReader]

theorem sound_markup_append {s t : Text} {ids ids' : List Text} (hs : (Html.markup s).Sound ids)
    (ht : (Html.markup t).Sound ids') : (Html.markup (s ++ t)).Sound (ids ++ ids') := by
  have happend : tags (s ++ t) = tags s ++ tags t := hs.legible t
  refine ⟨⟨selfContained_append hs.legible ht.legible, ?_⟩, ?_⟩
  · rw [Html.tags, happend, idsOf_append]
    exact congrArg₂ (· ++ ·) hs.ids ht.ids
  · intro u hu
    rw [Html.tags, happend] at hu
    exact (List.mem_append.1 hu).elim (hs.harmless u) (ht.harmless u)

theorem sound_write {h : Html} {ids : List Text} (hs : h.Sound ids) :
    (Html.markup h.write).Sound ids where
  toCarries := hs.toCarries.write
  harmless := by
    rw [Html.tags, Html.tags_of_write hs.legible]
    exact hs.harmless

theorem ne_nil_of_sound {s id : Text} {ids : List Text} (hs : (Html.markup s).Sound (id :: ids)) :
    s ≠ [] := by
  rintro rfl
  exact List.cons_ne_nil id ids (hs.ids.symm.trans sound_empty.ids)

theorem drawn_cases (n : Node) (id : Text) {children : Text} {ids : List Text}
    (hc : (Html.markup children).Sound ids) :
    (drawn n id children = [] ∧ children = []) ∨ (Html.markup (drawn n id children)).Sound
      (id :: if holdsChildrenOf n then ids else []) := by
  unfold drawn holdsChildrenOf
  cases Component.ofTag? n.typeTag with
  | some kind => exact .inr (sound_write (sound_component kind id n.props hc))
  | none =>
    dsimp only
    split
    · rename_i h
      exact .inl ⟨rfl, List.isEmpty_iff.1 h⟩
    · exact .inr (sound_write (sound_generic id n.typeTag hc))

theorem html_assemble (n : Node) (id : Text) (f : Fragment) :
    (assemble n id f).html = drawn n id f.html := by
  rw [assemble]
  split
  · rename_i h
    exact (List.isEmpty_iff.1 h).symm
  · rfl

/-- A node that is drawn has its own rules and those of the children; one that is not has no
    children either. -/
theorem assemble_cases (n : Node) (id : Text) {f : Fragment} {ids : List Text}
    (hf : (Html.markup f.html).Sound ids) :
    (assemble n id f = Fragment.empty ∧ f.html = []) ∨
      ∃ html : Text, assemble n id f = ⟨html, ownEntries n id ++ f.entries⟩ ∧
        (assemble n id f).isEmpty = false ∧
        (Html.markup html).Sound (id :: if holdsChildrenOf n then ids else []) := by
  have hassemble : assemble n id f = if (drawn n id f.html).isEmpty then Fragment.empty
      else ⟨drawn n id f.html, ownEntries n id ++ f.entries⟩ := rfl
  rw [hassemble]
  rcases drawn_cases n id hf with ⟨hd, hnil⟩ | hs
  · rw [hd]
    exact .inl ⟨rfl, hnil⟩
  · have hne : (drawn n id f.html).isEmpty = false := by simpa using ne_nil_of_sound hs
    refine .inr ⟨drawn n id f.html, ?_, ?_, hs⟩
    · rw [hne]
      rfl
    · rw [hne]
      exact hne

theorem sound_assemble (n : Node) (id : Text) {f : Fragment} {ids : List Text}
    (hf : (Html.markup f.html).Sound ids) :
    (Html.markup (assemble n id f).html).Sound
      (if (assemble n id f).isEmpty then [] else id :: if holdsChildrenOf n then ids else []) := by
  rcases assemble_cases n id hf with ⟨he, _⟩ | ⟨html, he, hne, hs⟩
  · rw [he]
    exact sound_empty
  · rw [hne, he]
    exact hs

namespace Outline

def fragment : Outline → Fragment
  | none => Fragment.empty
  | node n id below rest => (assemble n id below.fragment).append rest.fragment

theorem fragment_followedBy (o p : Outline) :
    (o.followedBy p).fragment = o.fragment.append p.fragment := by
  induction o with
  | none => rfl
  | node n id below rest _ ih =>
    simp only [followedBy, fragment, ih, Fragment.append, List.append_assoc]

theorem visitAll_eq {visit : Text → WalkState → Fragment × WalkState}
    {outline : Text → WalkState → Outline × WalkState}
    (hv : ∀ id s, visit id s = ((outline id s).1.fragment, (outline id s).2)) (l : List Text)
    (s : WalkState) : Render.visitAll visit l s =
      ((visitAll outline l s).1.fragment, (visitAll outline l s).2) := by
  induction l generalizing s with
  | nil => rfl
  | cons id l ih =>
    simp only [Render.visitAll, visitAll, hv, ih, fragment_followedBy]

theorem visit_eq (d : Document) (scope : Scope) (levels : Nat) (nodeId : Text) (s : WalkState) :
    Render.visit d scope levels nodeId s =
      ((visit d scope levels nodeId s).1.fragment, (visit d scope levels nodeId s).2) := by
  induction levels generalizing nodeId s with
  | zero => rfl
  | succ levels ih =>
    rw [Render.visit, visit]
    cases d.get? nodeId with
    | none => rfl
    | some n =>
      dsimp only
      split
      · rfl
      · have happend : ∀ f : Fragment, f.append Fragment.empty = f := by
          intro f
          simp [Fragment.append, Fragment.empty]
        rw [visitAll_eq ih]
        simp only [fragment, happend]

theorem renderDocument_eq (d : Document) (scope : Scope) (r : Registry) :
    renderDocument d scope r =
      ((ofDocument d scope r).1.fragment, (ofDocument d scope r).2.registry) := by
  simp only [renderDocument, renderNode, ofDocument, visit_eq]

def ids : Outline → List Text
  | none => []
  | node n id below rest =>
    (if (assemble n id below.fragment).isEmpty then []
      else id :: if holdsChildrenOf n then below.ids else []) ++ rest.ids

theorem ids_sublist (o : Outline) : o.ids.Sublist o.claims := by
  induction o with
  | none => exact List.Sublist.slnil
  | node n id below rest hb hr =>
    have hown : (if (assemble n id below.fragment).isEmpty then []
        else id :: if holdsChildrenOf n then below.ids else []).Sublist (id :: below.claims) := by
      split
      · exact List.nil_sublist _
      · split
        · exact hb.cons_cons id
        · exact (List.nil_sublist _).cons_cons id
    exact hown.append hr

theorem sound_fragment (o : Outline) : (Html.markup o.fragment.html).Sound o.ids := by
  induction o with
  | none => exact sound_empty
  | node n id below rest hb hr => exact sound_markup_append (sound_assemble n id hb) hr

end Outline

/-- No tag of a rendered document runs anything or leads to an unsafe place. -/
theorem harmless_of_mem_renderDocument (d : Document) (scope : Scope) (r : Registry) :
    ∀ t ∈ tokens (renderDocument d scope r).1.html, t.Harmless := by
  rw [Outline.renderDocument_eq]
  intro t ht
  have hs := (Outline.ofDocument d scope r).1.sound_fragment
  cases t with
  | text _ => trivial
  | rawText _ => trivial
  | endTag _ => trivial
  | startTag tag l selfClosing => exact hs.harmless _ (mem_tags ht rfl)
  | comment s => exact hs.harmless _ (mem_tags ht rfl)
  | bogus => exact hs.harmless _ (mem_tags ht rfl)

end

def adorned : Document :=
  ⟨[("ROOT", ⟨"HtmlBlock", [("html", .string ("<a href='/about' onclick='go()'>About</a>" ++
    "<img src='/a.png' onerror='go()'>" ++
    "<iframe src='https://player.vimeo.com/video/7' srcdoc='x'></iframe>"))], [], [], false, none⟩)]⟩

theorem harmless_of_mem_renderDocument_adorned :
    let written := tokens (renderDocument adorned .page Registry.empty).1.html
    let link : Token := .startTag "a" [⟨"href", some ("/about" : Text)⟩] false
    let image : Token := .startTag "img" [⟨"src", some ("/a.png" : Text)⟩] false
    let frame : Token :=
      .startTag "iframe" [⟨"src", some ("https://player.vimeo.com/video/7" : Text)⟩] false
    (link ∈ written ∧ image ∈ written ∧ frame ∈ written) ∧
      link.Harmless ∧ image.Harmless ∧ frame.Harmless := by
  intro written link image frame
  have hwritten : link ∈ written ∧ image ∈ written ∧ frame ∈ written := by decide +kernel
  obtain ⟨hlink, himage, hframe⟩ := hwritten
  have hharmless := harmless_of_mem_renderDocument adorned .page Registry.empty
  exact ⟨⟨hlink, himage, hframe⟩, hharmless _ hlink, hharmless _ himage, hharmless _ hframe⟩

end Folio.Render
