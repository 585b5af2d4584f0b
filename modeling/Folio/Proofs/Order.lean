import Folio.Proofs.Calls
import Folio.Proofs.Keys
import Folio.Proofs.Printed

set_option autoImplicit false

/-!
# Rules in the order of the nodes

Ids are given on the way down and rules are put together on the way up. A node that writes nothing drops
the rules from below it too, but then no node below it has written anything either. So the rules of a
document are those of the nodes that write something, in the order in which the nodes get their ids.
-/
namespace Folio.Render

section

variable [Link.HostReader]

def Visit.html (v : Visit) : Text := drawn v.node v.id v.below.outline.fragment.html

def Visit.css (v : Visit) : List Text := (ownEntries v.node v.id).map Style.Entry.write

theorem Outline.html_nil_of_drawn_nil {n : Node} {id : Text} {o : Outline}
    (h : drawn n id o.fragment.html = []) : o.fragment.html = [] := by
  rcases drawn_cases n id o.sound_fragment with ⟨_, hnil⟩ | hs
  · exact hnil
  · exact absurd h (ne_nil_of_sound hs)

namespace Calls

def writers (c : Calls) : List Visit := c.visits.filter fun v => !v.html.isEmpty

theorem writers_rendered (nodeId : Text) (n : Node) (id : Text) (below rest : Calls) :
    (rendered nodeId n id below rest).writers =
      (if (drawn n id below.outline.fragment.html).isEmpty then below.writers
        else ⟨nodeId, n, id, below⟩ :: below.writers) ++ rest.writers := by
  rw [writers, visits, List.filter_cons, List.filter_append]
  cases h : (drawn n id below.outline.fragment.html).isEmpty with
  | true => simp [Visit.html, h, writers]
  | false => simp [Visit.html, h, writers]

theorem writers_of_html_nil {c : Calls} (h : c.outline.fragment.html = []) : c.writers = [] := by
  induction c with
  | none => rfl
  | passed nodeId rest ih => exact ih h
  | rendered nodeId n id below rest hb hr =>
    obtain ⟨hown, hrest⟩ := List.append_eq_nil_iff.1 h
    rw [html_assemble] at hown
    rw [writers_rendered, hown, hb (Outline.html_nil_of_drawn_nil hown), hr hrest]
    rfl

theorem css_eq (c : Calls) : c.outline.fragment.css = c.writers.flatMap Visit.css := by
  induction c with
  | none => rfl
  | passed nodeId rest ih => exact ih
  | rendered nodeId n id below rest hb hr =>
    have hcss : (rendered nodeId n id below rest).outline.fragment.css =
        (assemble n id below.outline.fragment).css ++ rest.outline.fragment.css := List.map_append
    rw [hcss, writers_rendered, List.flatMap_append, hr, assemble]
    split
    · rename_i h
      rw [writers_of_html_nil (Outline.html_nil_of_drawn_nil (List.isEmpty_iff.1 h))]
      rfl
    · rw [List.flatMap_cons, ← hb]
      exact congrArg (· ++ rest.writers.flatMap Visit.css) List.map_append

end Calls

variable (d : Document) (scope : Scope)

/-- What holds of a document that is rendered by calls, whatever its nodes. -/
structure InOrder [Json.Codec] (r : Registry) (c : Calls) : Prop where
  calledFor : c.calledFor = [Document.rootId]
  /-- Below a node its children are called for in their order, then those in its slots. -/
  below : ∀ v ∈ c.visits, d.visible? v.nodeId = some v.node ∧
    v.below.calledFor = v.node.children ++ v.node.slots.map Prod.snd
  slots : d.IsRead → ∀ v ∈ c.visits, v.node.SlotsByName
  visited : (renderNode d scope Document.rootId ⟨r, []⟩).2.visited = c.nodeIds.reverse
  assigned : Calls.Assigned scope r c.visits (renderDocument d scope r).2
  fragment : (renderDocument d scope r).1 = c.outline.fragment
  css : (renderDocument d scope r).1.css = c.writers.flatMap Visit.css
  css_nil : (renderDocument d scope r).1.html = [] → (renderDocument d scope r).1.css = []

/-- The rules of a document are those of the nodes that write something, in the order of their ids. -/
theorem rules_in_order [Json.Codec] [Json.LawfulCodec] (r : Registry) :
    InOrder d scope r (Calls.ofDocument d scope r).1 := by
  have hrecords : Calls.Records d scope ⟨r, []⟩ (Calls.ofDocument d scope r).2
      (Calls.ofDocument d scope r).1 := Calls.records_visit d scope (maxDepth + 1) Document.rootId _
  have hrender : renderNode d scope Document.rootId ⟨r, []⟩ =
      ((Calls.ofDocument d scope r).1.outline.fragment, (Calls.ofDocument d scope r).2) :=
    Calls.visit_eq d scope (maxDepth + 1) Document.rootId _
  have hdocument : renderDocument d scope r =
      ((Calls.ofDocument d scope r).1.outline.fragment, (Calls.ofDocument d scope r).2.registry) := by
    rw [renderDocument, hrender]
  exact {
    calledFor := Calls.calledFor_visit d scope (maxDepth + 1) Document.rootId _
    below := hrecords.sound
    slots := fun h v hv =>
      h.slotsByName _ (Document.mem_nodes_of_visible? (hrecords.sound v hv).1)
    visited := by
      rw [hrender, hrecords.visited]
      exact List.append_nil _
    assigned := by
      rw [hdocument]
      exact hrecords.assigned
    fragment := by rw [hdocument]
    css := by rw [hdocument, Calls.css_eq]
    css_nil := by
      rw [hdocument]
      intro h
      rw [Calls.css_eq, Calls.writers_of_html_nil h]
      rfl }

end

def spaced : Json :=
  .object [("low", .object [("type", .string "Spacer"), ("props", .object [("height", Json.ofInt 8)])]),
    ("ROOT", .object [("type", .string "Container"), ("nodes", .array [.string "lost"]),
      ("linkedNodes", .object [("z", .string "low"), ("a", .string "high")])]),
    ("high", .object [("type", .string "Spacer")]),
    ("lost", .object [("type", .string "Mystery"),
      ("props", .object [("advancedStyling", .object [("color", .string "red")])])])]

theorem rules_in_order_spaced :
    (Document.ofContent spaced.canonical).IsRead ∧
      (∀ v ∈ (Calls.ofDocument (Document.ofContent spaced.canonical) .page Registry.empty).1.visits,
        v.node.SlotsByName) ∧
      (renderDocument (Document.ofContent spaced.canonical) .page Registry.empty).1.css =
        ["#pc-high \x7b height: 40px; \x7d", "#pc-low \x7b height: 8px; \x7d"] ∧
      (renderDocument Document.empty .page Registry.empty).1.html = [] ∧
      (renderDocument Document.empty .page Registry.empty).1.css = [] := by
  have hread : (Document.ofContent spaced.canonical).IsRead := .inl ⟨spaced, rfl⟩
  have horder := rules_in_order (Document.ofContent spaced.canonical) .page Registry.empty
  have hempty : (renderDocument Document.empty .page Registry.empty).1.html = [] := by decide +kernel
  refine ⟨hread, horder.slots hread, ?_, hempty, ?_⟩
  · rw [horder.css]
    decide +kernel
  · exact (rules_in_order Document.empty .page Registry.empty).css_nil hempty

end Folio.Render
