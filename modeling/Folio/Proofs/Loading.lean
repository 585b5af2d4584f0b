import Folio.Link.SecureHost
import Folio.Proofs.Printed
import Folio.Render.Walk

set_option autoImplicit false

/-!
# Loading a text

Stored content is loaded leniently and the text of a tool strictly. Both read the same JSON, and a text
that is rejected for whatever reason is one that the lenient reader finds no root in. So both render what
is accepted alike, and what is rejected is nothing on a page.
-/
namespace Folio

namespace Document

theorem object_of_get? {fields : Json.Fields} {id : Text} {n : Node}
    (h : (ofFields fields).get? id = some n) :
    ∃ inner, (id, .object inner) ∈ fields ∧ Node.ofFields inner = n := by
  obtain ⟨⟨key, value⟩, hf, hnode⟩ := List.mem_filterMap.1 (mem_of_get? h)
  obtain ⟨m, hm, hpair⟩ := Option.map_eq_some_iff.1 hnode
  obtain ⟨rfl, rfl⟩ := Prod.mk.inj hpair
  obtain ⟨inner, hinner, rfl⟩ := Option.map_eq_some_iff.1 hm
  obtain rfl := Json.eq_of_object? hinner
  exact ⟨_, hf, rfl⟩

theorem has_of_props {fields : Json.Fields} {key : Text} {x : Double}
    (h : Json.Fields.get? (Node.ofFields fields).props key = some (.number (.real x))) :
    Json.Has x (.object fields) := by
  have hmem := Json.Fields.mem_of_get? h
  change _ ∈ ((Json.Fields.get? fields "props").bind Json.object?).getD [] at hmem
  cases hprops : (Json.Fields.get? fields "props").bind Json.object? with
  | none =>
    rw [hprops] at hmem
    exact absurd hmem List.not_mem_nil
  | some props =>
    rw [hprops] at hmem
    obtain ⟨v, hv, hobject⟩ := Option.bind_eq_some_iff.1 hprops
    obtain rfl := Json.eq_of_object? hobject
    exact .field (Json.Fields.mem_of_get? hv) (.field hmem .number)

variable [Json.Codec]

theorem parse_of_toOption {s : Text} {d : Document} (h : (parse s).toOption = some d) : parse s = .ok d := by
  cases hparse : parse s with
  | ok d' =>
    rw [hparse] at h
    exact congrArg Except.ok (Option.some.inj h)
  | error e =>
    rw [hparse] at h
    cases h

theorem fields_of_parse {s : Text} {d : Document} (h : parse s = .ok d) :
    ∃ fields, Json.Codec.read? s = some (.object fields) ∧ ofFields fields = d ∧ d.root?.isSome = true := by
  unfold parse at h
  split at h
  · cases h
  · rename_i fields hread
    dsimp only at h
    split at h
    · rename_i hroot
      obtain rfl := Except.ok.inj h
      exact ⟨fields, hread, rfl, hroot⟩
    · cases h
  · cases h

variable [Json.LawfulCodec]

/-- Blank text apart, which spells nothing, the lenient loader reads what the strict one reads. -/
theorem ofText_eq (s : Text) :
    ofText s = ((Json.Codec.read? s).map ofJson).getD empty := by
  unfold ofText
  split
  · rename_i hblank
    rw [Json.LawfulCodec.read?_of_blank hblank]
    rfl
  · cases Json.Codec.read? s <;> rfl

theorem ofText_of_parse {s : Text} {d : Document} (h : parse s = .ok d) :
    ofText s = d ∧ d.root?.isSome = true := by
  obtain ⟨fields, hread, rfl, hroot⟩ := fields_of_parse h
  rw [ofText_eq, hread]
  exact ⟨rfl, hroot⟩

theorem root?_ofText_of_parse {s : Text} {e : DocumentError} (h : parse s = .error e) :
    (ofText s).root? = none := by
  rw [ofText_eq]
  unfold parse at h
  split at h
  · rename_i hread
    rw [hread]
    rfl
  · rename_i fields hread
    dsimp only at h
    split at h
    · cases h
    · rename_i hroot
      rw [hread]
      exact Option.not_isSome_iff_eq_none.1 hroot
  · rename_i value hobject hread
    rw [hread]
    cases value with
    | object fields => exact absurd rfl (hobject fields)
    | _ => rfl

/-- The numbers among the props of a text's nodes are doubles as they are kept. -/
theorem proper_of_parse {s : Text} {d : Document} (h : parse s = .ok d) {id : Text} {n : Node}
    (hn : d.get? id = some n) {key : Text} {x : Double}
    (hx : Json.Fields.get? n.props key = some (.number (.real x))) : x.Proper := by
  obtain ⟨fields, hread, rfl, -⟩ := fields_of_parse h
  obtain ⟨inner, hinner, rfl⟩ := object_of_get? hn
  exact Json.LawfulCodec.proper_of_read? hread (.field hinner (has_of_props hx))

end Document

namespace Render

theorem render_of_rootless [Link.HostReader] {d : Document} (h : d.root? = none) : render d = Fragment.empty := by
  have hget : d.get? Document.rootId = none := h
  simp [render, renderDocument, renderNode, visit, hget]

/-- Strict and lenient loading agree: an accepted text is loaded and rendered alike, and one that is
    rejected, for whatever reason, has no root for the lenient loader and renders to nothing. -/
theorem loaders_agree [Json.Codec] [Json.LawfulCodec] [Link.HostReader] (s : Text) :
    match Document.parse s with
    | .ok d =>
      Document.ofText s = d ∧ d.root?.isSome = true ∧
        renderText s = .ok (render (Document.ofText s))
    | .error e =>
      (Document.ofText s).root? = none ∧ render (Document.ofText s) = Fragment.empty ∧
        renderText s = .error e := by
  cases h : Document.parse s with
  | ok d =>
    obtain ⟨htext, hroot⟩ := Document.ofText_of_parse h
    refine ⟨htext, hroot, ?_⟩
    rw [renderText, h, htext]
    rfl
  | error e =>
    have hroot := Document.root?_ofText_of_parse h
    refine ⟨hroot, render_of_rootless hroot, ?_⟩
    rw [renderText, h]
    rfl

def titled : Text :=
  "\x7b\"ROOT\": \x7b\"type\": \"Heading\", \"props\": \x7b\"text\": \"Home\"\x7d\x7d\x7d"

theorem loaders_agree_titled :
    (∃ d, Document.parse titled = .ok d ∧ Document.ofText titled = d ∧ d.root?.isSome = true ∧
      renderText titled = .ok (render (Document.ofText titled))) ∧
    Document.parse "[]" = .error .notAnObject ∧ (Document.ofText "[]").root? = none ∧
      render (Document.ofText "[]") = Fragment.empty ∧ renderText "[]" = .error .notAnObject := by
  have hread : (Document.parse titled).toOption.isSome = true := by decide +kernel
  have hlist : Document.parse "[]" = .error .notAnObject := rfl
  -- both texts have been read; what follows is to leave them as they are
  generalize titled = s at hread ⊢
  generalize ("[]" : Text) = t at hlist ⊢
  obtain ⟨d, hd⟩ := Option.isSome_iff_exists.1 hread
  have hparse := Document.parse_of_toOption hd
  have htitled := loaders_agree s
  have herror := loaders_agree t
  rw [hparse] at htitled
  rw [hlist] at herror
  exact ⟨⟨_, hparse, htitled⟩, hlist, herror⟩

end Render

end Folio
