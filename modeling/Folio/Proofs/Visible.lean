import Folio.Link.SecureHost
import Folio.Render.Walk

set_option autoImplicit false

/-!
# What a rendered document depends on

A walk comes only to ids that visible nodes name, from the root down, and a hidden node is to it what
a missing one is. So documents that agree on the visible nodes there are rendered alike: the same
elements, the same rules, and the same ids, numbered ones among them.
-/
namespace Folio

namespace Document

def visible? (d : Document) (id : Text) : Option Node := (d.get? id).filter fun n => !n.hidden

/-- The ids a walk from the root can come to. -/
inductive Reachable (d : Document) : Text → Prop
  | root : Reachable d rootId
  | child {id childId : Text} {n : Node} (parent : Reachable d id) (visible : d.visible? id = some n)
      (mem : childId ∈ n.allChildren) : Reachable d childId

/-- Whether a second document has the same visible nodes wherever a walk of the first can come. -/
def Agrees (d e : Document) : Prop := ∀ id, d.Reachable id → d.visible? id = e.visible? id

theorem Reachable.mem {d : Document} {ids : List Text} (hroot : rootId ∈ ids)
    (hclosed : ∀ id ∈ ids, ∀ n ∈ d.visible? id, ∀ i ∈ n.allChildren, i ∈ ids) {id : Text}
    (h : d.Reachable id) : id ∈ ids := by
  induction h with
  | root => exact hroot
  | child _ hvisible hmem ih => exact hclosed _ ih _ hvisible _ hmem

end Document

namespace Render
open Document

theorem visitAll_congr {v w : Text → WalkState → Fragment × WalkState} {ids : List Text}
    (h : ∀ id ∈ ids, ∀ s, v id s = w id s) (s : WalkState) : visitAll v ids s = visitAll w ids s := by
  induction ids generalizing s with
  | nil => rfl
  | cons id ids ih =>
    have hfirst := h id List.mem_cons_self s
    have hrest := ih fun i hi => h i (List.mem_cons_of_mem id hi)
    simp only [visitAll, hfirst, hrest]

section

variable [Link.HostReader]

theorem visit_succ (d : Document) (scope : Scope) (levels : Nat) (nodeId : Text) (s : WalkState) :
    visit d scope (levels + 1) nodeId s =
      match d.visible? nodeId with
      | none => (Fragment.empty, s)
      | some n =>
        if s.visited.contains nodeId then (Fragment.empty, s)
        else
          let (id, registry) := s.registry.assign scope nodeId n.props
          let (children, s) :=
            visitAll (visit d scope levels) n.allChildren ⟨registry, nodeId :: s.visited⟩
          (assemble n id children, s) := by
  rw [visit, visible?]
  cases d.get? nodeId with
  | none => rfl
  | some n =>
    obtain ⟨typeTag, props, children, slots, hidden, parent⟩ := n
    cases hidden with
    | true => rfl
    | false => rfl

/-- From an id that can be reached, two documents that agree are walked alike, whatever ids are taken
    and whatever nodes have been visited. -/
theorem visit_eq_of_agrees {d e : Document} (h : d.Agrees e) (scope : Scope) (levels : Nat)
    {nodeId : Text} (hr : d.Reachable nodeId) (s : WalkState) :
    visit d scope levels nodeId s = visit e scope levels nodeId s := by
  induction levels generalizing nodeId s with
  | zero => rfl
  | succ levels ih =>
    rw [visit_succ, visit_succ, ← h nodeId hr]
    cases hn : d.visible? nodeId with
    | none => rfl
    | some n =>
      have hbelow : ∀ s, visitAll (visit d scope levels) n.allChildren s =
          visitAll (visit e scope levels) n.allChildren s :=
        visitAll_congr fun id hid => ih (hr.child hn hid)
      simp only [hbelow]

theorem renderDocument_eq_of_agrees {d e : Document} (h : d.Agrees e) (scope : Scope) (r : Registry) :
    renderDocument d scope r = renderDocument e scope r := by
  rw [renderDocument, renderDocument, renderNode, renderNode, visit_eq_of_agrees h _ _ .root]

/-- Hidden nodes and nodes that cannot be reached have no part in what is rendered. -/
theorem render_eq_of_agrees {d e : Document} (h : d.Agrees e) :
    (render d).html = (render e).html ∧ (render d).css = (render e).css ∧
      ∀ scope r, renderDocument d scope r = renderDocument e scope r := by
  have hrender : render d = render e := by rw [render, render, renderDocument_eq_of_agrees h]
  exact ⟨congrArg Fragment.html hrender, congrArg Fragment.css hrender, renderDocument_eq_of_agrees h⟩

end

def withDraft : Document where
  nodes :=
    [("ROOT", ⟨"Container", [], ["draft", "a", "b"], [], false, none⟩),
     ("draft", ⟨"Box", [("metadata", .object [("elementId", .string "pc-a")])], ["b"], [], true, none⟩),
     ("a", ⟨"Text", [("text", .string "first")], [], [], false, none⟩),
     ("b", ⟨"Text", [("metadata", .object [("elementId", .string "pc-a")])], [], [], false, none⟩)]

def withoutDraft : Document where
  nodes :=
    [("stray", ⟨"Text", [("text", .string "stray")], ["a"], [], false, none⟩),
     ("ROOT", ⟨"Container", [], ["draft", "a", "b"], [], false, none⟩),
     ("a", ⟨"Text", [("text", .string "first")], [], [], false, none⟩),
     ("b", ⟨"Text", [("metadata", .object [("elementId", .string "pc-a")])], [], [], false, none⟩)]

theorem render_eq_of_agrees_draft :
    withDraft.Agrees withoutDraft ∧ (render withDraft).html = (render withoutDraft).html ∧
      (render withDraft).css = (render withoutDraft).css ∧
      ∀ scope r, renderDocument withDraft scope r = renderDocument withoutDraft scope r := by
  have hagrees : withDraft.Agrees withoutDraft := by
    intro id hid
    have hmem : id ∈ (["ROOT", "draft", "a", "b"] : List Text) := hid.mem (by decide) (by decide)
    simp only [List.mem_cons, List.not_mem_nil, or_false] at hmem
    rcases hmem with rfl | rfl | rfl | rfl <;> rfl
  exact ⟨hagrees, render_eq_of_agrees hagrees⟩

end Render

end Folio
