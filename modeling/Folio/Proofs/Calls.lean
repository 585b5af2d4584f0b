import Folio.Proofs.Outline
import Folio.Proofs.Visible
import Mathlib.Algebra.GroupWithZero.Nat
import Mathlib.Algebra.Order.BigOperators.Group.List
import Mathlib.Algebra.Order.Group.Nat

set_option autoImplicit false

/-!
# The calls of a walk

The nodes of a document are a graph, and a walk over it is a tree of calls. A call returns at once, or it
is the only one in the life of the walk that renders its node: it marks the node, gives it an id and calls
for the children. So the calls that go on are for distinct nodes, and there are not many more calls than
the document has references to children.
-/
namespace Folio

namespace Document

def childCount (d : Document) : Nat := (d.nodes.map fun e => e.2.allChildren.length).sum

theorem get?_of_visible? {d : Document} {id : Text} {n : Node} (h : d.visible? id = some n) :
    d.get? id = some n := (Option.filter_eq_some_iff.1 h).1

theorem mem_nodes_of_visible? {d : Document} {id : Text} {n : Node} (h : d.visible? id = some n) :
    (id, n) ∈ d.nodes := mem_of_get? (get?_of_visible? h)

end Document

namespace Render

/-- Calls one after the other: one returns at once, or it renders its node and calls for the children
    before the next call is made. -/
inductive Calls where
  | none
  | passed (nodeId : Text) (rest : Calls)
  | rendered (nodeId : Text) (n : Node) (id : Text) (below rest : Calls)

structure Visit where
  nodeId : Text
  node : Node
  id : Text
  below : Calls

namespace Calls

def followedBy : Calls → Calls → Calls
  | none, d => d
  | passed nodeId rest, d => passed nodeId (rest.followedBy d)
  | rendered nodeId n id below rest, d => rendered nodeId n id below (rest.followedBy d)

def calledFor : Calls → List Text
  | none => []
  | passed nodeId rest => nodeId :: rest.calledFor
  | rendered nodeId _ _ _ rest => nodeId :: rest.calledFor

/-- The nodes that are rendered, each before those below it. -/
def visits : Calls → List Visit
  | none => []
  | passed _ rest => rest.visits
  | rendered nodeId n id below rest => ⟨nodeId, n, id, below⟩ :: (below.visits ++ rest.visits)

def nodeIds (c : Calls) : List Text := c.visits.map Visit.nodeId

def count : Calls → Nat
  | none => 0
  | passed _ rest => rest.count + 1
  | rendered _ _ _ below rest => below.count + rest.count + 1

def height : Calls → Nat
  | none => 0
  | passed _ rest => rest.height
  | rendered _ _ _ below rest => max (below.height + 1) rest.height

def outline : Calls → Outline
  | none => .none
  | passed _ rest => rest.outline
  | rendered _ n id below rest => .node n id below.outline rest.outline

section

variable (c d : Calls)

theorem calledFor_followedBy : (c.followedBy d).calledFor = c.calledFor ++ d.calledFor := by
  induction c with
  | none => rfl
  | passed nodeId rest ih => simp [followedBy, calledFor, ih]
  | rendered nodeId n id below rest _ ih => simp [followedBy, calledFor, ih]

theorem visits_followedBy : (c.followedBy d).visits = c.visits ++ d.visits := by
  induction c with
  | none => rfl
  | passed nodeId rest ih => exact ih
  | rendered nodeId n id below rest _ ih => simp [followedBy, visits, ih]

theorem height_followedBy : (c.followedBy d).height = max c.height d.height := by
  induction c with
  | none => simp [followedBy, height]
  | passed nodeId rest ih => exact ih
  | rendered nodeId n id below rest _ ih => simp [followedBy, height, ih, max_assoc]

theorem outline_followedBy : (c.followedBy d).outline = c.outline.followedBy d.outline := by
  induction c with
  | none => rfl
  | passed nodeId rest ih => exact ih
  | rendered nodeId n id below rest _ ih => simp [followedBy, outline, Outline.followedBy, ih]

/-- Every call is made at the top or for a child of a rendered node. -/
theorem count_eq : c.count =
    c.calledFor.length + (c.visits.map fun v => v.below.calledFor.length).sum := by
  induction c with
  | none => rfl
  | passed nodeId rest ih =>
    simp only [count, calledFor, visits, List.length_cons, ih]
    omega
  | rendered nodeId n id below rest hb hr =>
    simp only [count, calledFor, visits, List.length_cons, List.map_cons, List.map_append, List.sum_cons,
      List.sum_append, hb, hr]
    omega

end

def visitAll (visit : Text → WalkState → Calls × WalkState) :
    List Text → WalkState → Calls × WalkState
  | [], s => (none, s)
  | id :: ids, s =>
    let (c, s) := visit id s
    let (d, s) := visitAll visit ids s
    (c.followedBy d, s)

def visit (d : Document) (scope : Scope) : Nat → Text → WalkState → Calls × WalkState
  | 0, nodeId, s => (passed nodeId none, s)
  | levels + 1, nodeId, s =>
    match d.get? nodeId with
    | .none => (passed nodeId none, s)
    | some n =>
      if n.hidden || s.visited.contains nodeId then (passed nodeId none, s)
      else
        let (id, registry) := s.registry.assign scope nodeId n.props
        let (below, s) :=
          visitAll (visit d scope levels) n.allChildren ⟨registry, nodeId :: s.visited⟩
        (rendered nodeId n id below none, s)

def ofDocument (d : Document) (scope : Scope) (r : Registry) : Calls × WalkState :=
  visit d scope (maxDepth + 1) Document.rootId ⟨r, []⟩

def ofNodes (d : Document) (scope : Scope) (nodeIds : List Text) (s : WalkState) : Calls × WalkState :=
  visitAll (visit d scope (maxDepth + 1)) nodeIds s

section

variable (d : Document) (scope : Scope)

theorem visitAll_outline {visit : Text → WalkState → Calls × WalkState}
    {outline : Text → WalkState → Outline × WalkState}
    (hv : ∀ id s, outline id s = ((visit id s).1.outline, (visit id s).2)) (l : List Text)
    (s : WalkState) : Outline.visitAll outline l s =
      ((visitAll visit l s).1.outline, (visitAll visit l s).2) := by
  induction l generalizing s with
  | nil => rfl
  | cons id l ih => simp only [Outline.visitAll, visitAll, hv, ih, outline_followedBy]

theorem visit_outline (levels : Nat) (nodeId : Text) (s : WalkState) :
    Outline.visit d scope levels nodeId s =
      ((visit d scope levels nodeId s).1.outline, (visit d scope levels nodeId s).2) := by
  induction levels generalizing nodeId s with
  | zero => rfl
  | succ levels ih =>
    rw [Outline.visit, visit]
    cases d.get? nodeId with
    | none => rfl
    | some n =>
      dsimp only
      split
      · rfl
      · rw [visitAll_outline ih]
        rfl

theorem visit_cases (levels : Nat) (nodeId : Text) (s : WalkState) :
    (visit d scope levels nodeId s = (passed nodeId none, s) ∧
      (levels = 0 ∨ d.visible? nodeId = .none ∨ nodeId ∈ s.visited)) ∨
    ∃ l n id registry, levels = l + 1 ∧ d.visible? nodeId = some n ∧ nodeId ∉ s.visited ∧
      s.registry.assign scope nodeId n.props = (id, registry) ∧
      visit d scope levels nodeId s =
        (rendered nodeId n id (visitAll (visit d scope l) n.allChildren ⟨registry, nodeId :: s.visited⟩).1 none,
          (visitAll (visit d scope l) n.allChildren ⟨registry, nodeId :: s.visited⟩).2) := by
  cases levels with
  | zero => exact .inl ⟨rfl, .inl rfl⟩
  | succ l =>
    rw [visit, Document.visible?]
    cases d.get? nodeId with
    | none => exact .inl ⟨rfl, .inr (.inl rfl)⟩
    | some n =>
      dsimp only
      split
      · rename_i h
        refine .inl ⟨rfl, .inr ?_⟩
        rcases Bool.or_eq_true_iff.1 h with h | h
        · exact .inl (by simp [h])
        · exact .inr (List.contains_iff_mem.1 h)
      · rename_i h
        obtain ⟨hhidden, hnew⟩ := Bool.or_eq_false_iff.1 (Bool.eq_false_iff.2 h)
        have hnew : nodeId ∉ s.visited := fun hm => by simp [hm] at hnew
        exact .inr ⟨l, n, _, _, rfl, by simp [hhidden], hnew, rfl, rfl⟩

theorem calledFor_visit (levels : Nat) (nodeId : Text) (s : WalkState) :
    (visit d scope levels nodeId s).1.calledFor = [nodeId] := by
  obtain ⟨he, _⟩ | ⟨_, _, _, _, _, _, _, _, he⟩ := visit_cases d scope levels nodeId s
  · rw [he]
    rfl
  · rw [he]
    rfl

theorem calledFor_visitAll {visit : Text → WalkState → Calls × WalkState}
    (hv : ∀ id s, (visit id s).1.calledFor = [id]) (l : List Text) (s : WalkState) :
    (visitAll visit l s).1.calledFor = l := by
  induction l generalizing s with
  | nil => rfl
  | cons id l ih => simp only [visitAll, calledFor_followedBy, hv, ih, List.singleton_append]

inductive Assigned : Registry → List Visit → Registry → Prop
  | nil (r : Registry) : Assigned r [] r
  | cons {r q r' : Registry} {v : Visit} {vs : List Visit}
      (first : r.assign scope v.nodeId v.node.props = (v.id, q)) (rest : Assigned q vs r') :
      Assigned r (v :: vs) r'

variable {d scope}

theorem Assigned.append {r r' r'' : Registry} {vs ws : List Visit} (h : Assigned scope r vs r')
    (h' : Assigned scope r' ws r'') : Assigned scope r (vs ++ ws) r'' := by
  induction h with
  | nil _ => exact h'
  | cons first _ ih => exact .cons first (ih h')

/-- From one state to the other exactly the nodes of the calls are marked and given ids, in this order.
    None was marked before, each is visible, and all its children are called for. -/
structure Records (d : Document) (scope : Scope) (s s' : WalkState) (c : Calls) : Prop where
  assigned : Assigned scope s.registry c.visits s'.registry
  visited : s'.visited = c.nodeIds.reverse ++ s.visited
  nodup : s.visited.Nodup → s'.visited.Nodup
  sound : ∀ v ∈ c.visits, d.visible? v.nodeId = some v.node ∧ v.below.calledFor = v.node.allChildren

theorem records_none (s : WalkState) : Records d scope s s none where
  assigned := .nil _
  visited := rfl
  nodup := id
  sound := fun _ hv => absurd hv List.not_mem_nil

theorem Records.passed {s s' : WalkState} {c : Calls} (nodeId : Text) (h : Records d scope s s' c) :
    Records d scope s s' (.passed nodeId c) where
  assigned := h.assigned
  visited := h.visited
  nodup := h.nodup
  sound := h.sound

theorem Records.followedBy {s s' s'' : WalkState} {c e : Calls} (hc : Records d scope s s' c)
    (he : Records d scope s' s'' e) : Records d scope s s'' (c.followedBy e) where
  assigned := visits_followedBy c e ▸ hc.assigned.append he.assigned
  visited := by
    rw [he.visited, hc.visited, nodeIds, nodeIds, nodeIds, visits_followedBy, List.map_append,
      List.reverse_append, List.append_assoc]
  nodup := fun h => he.nodup (hc.nodup h)
  sound := by
    intro v hv
    rw [visits_followedBy] at hv
    exact (List.mem_append.1 hv).elim (hc.sound v) (he.sound v)

theorem Records.rendered {s s' : WalkState} {nodeId id : Text} {n : Node} {registry : Registry}
    {below : Calls} (hn : d.visible? nodeId = some n) (hnew : nodeId ∉ s.visited)
    (hassign : s.registry.assign scope nodeId n.props = (id, registry))
    (hchildren : below.calledFor = n.allChildren)
    (hb : Records d scope ⟨registry, nodeId :: s.visited⟩ s' below) :
    Records d scope s s' (.rendered nodeId n id below none) where
  assigned := .cons hassign (by simpa [visits] using hb.assigned)
  visited := by simp [hb.visited, nodeIds, visits]
  nodup := fun h => hb.nodup (List.nodup_cons.2 ⟨hnew, h⟩)
  sound := by
    refine List.forall_mem_cons.2 ⟨⟨hn, hchildren⟩, fun v hv => hb.sound v ?_⟩
    simpa [visits] using hv

theorem records_visitAll {visit : Text → WalkState → Calls × WalkState}
    (hv : ∀ id s, Records d scope s (visit id s).2 (visit id s).1) (l : List Text) (s : WalkState) :
    Records d scope s (visitAll visit l s).2 (visitAll visit l s).1 := by
  induction l generalizing s with
  | nil => exact records_none s
  | cons id l ih => exact (hv id s).followedBy (ih _)

variable (d scope)

theorem records_visit (levels : Nat) (nodeId : Text) (s : WalkState) :
    Records d scope s (visit d scope levels nodeId s).2 (visit d scope levels nodeId s).1 := by
  induction levels generalizing nodeId s with
  | zero => exact (records_none s).passed nodeId
  | succ levels ih =>
    obtain ⟨he, _⟩ | ⟨l, n, id, registry, hl, hn, hnew, hassign, he⟩ := visit_cases d scope (levels + 1) nodeId s
    · rw [he]
      exact (records_none s).passed nodeId
    · obtain rfl : levels = l := Nat.succ.inj hl
      rw [he]
      refine (records_visitAll ih n.allChildren ⟨registry, nodeId :: s.visited⟩).rendered hn hnew hassign ?_
      exact calledFor_visitAll (calledFor_visit d scope levels) _ _

theorem height_visitAll {visit : Text → WalkState → Calls × WalkState} {levels : Nat}
    (hv : ∀ id s, (visit id s).1.height ≤ levels) (l : List Text) (s : WalkState) :
    (visitAll visit l s).1.height ≤ levels := by
  induction l generalizing s with
  | nil => exact Nat.zero_le levels
  | cons id l ih =>
    simp only [visitAll, height_followedBy]
    exact max_le (hv id s) (ih _)

theorem height_visit (levels : Nat) (nodeId : Text) (s : WalkState) :
    (visit d scope levels nodeId s).1.height ≤ levels := by
  induction levels generalizing nodeId s with
  | zero => exact Nat.zero_le 0
  | succ levels ih =>
    obtain ⟨he, _⟩ | ⟨l, n, id, registry, hl, _, _, _, he⟩ := visit_cases d scope (levels + 1) nodeId s
    · rw [he]
      exact Nat.zero_le _
    · obtain rfl : levels = l := Nat.succ.inj hl
      have hbelow := height_visitAll ih n.allChildren ⟨registry, nodeId :: s.visited⟩
      rw [he]
      simp only [height]
      omega

theorem mem_visited_ofNodes {nodeIds : List Text} {nodeId : Text} (hm : nodeId ∈ nodeIds)
    (hv : (d.visible? nodeId).isSome = true) (s : WalkState) :
    nodeId ∈ (ofNodes d scope nodeIds s).2.visited := by
  induction nodeIds generalizing s with
  | nil => exact absurd hm List.not_mem_nil
  | cons first rest ih =>
    have hrest : Records d scope (visit d scope (maxDepth + 1) first s).2
        (ofNodes d scope (first :: rest) s).2 _ :=
      records_visitAll (records_visit d scope (maxDepth + 1)) rest _
    rcases List.mem_cons.1 hm with rfl | hm
    · rw [hrest.visited]
      refine List.mem_append_right _ ?_
      obtain ⟨he, hl | hn | hs⟩ | ⟨_, n, _, _, _, hn, _, _, he⟩ := visit_cases d scope (maxDepth + 1) nodeId s
      · exact absurd hl (Nat.succ_ne_zero maxDepth)
      · rw [hn] at hv
        exact absurd hv (by decide)
      · rw [he]
        exact hs
      · rw [he, (records_visitAll (records_visit d scope _) n.allChildren _).visited]
        exact List.mem_append_right _ List.mem_cons_self
    · exact ih hm _

end

section

variable {d : Document} {scope : Scope} {r : Registry} {s : WalkState} {c : Calls}

theorem Records.nodup_nodeIds (h : Records d scope ⟨r, []⟩ s c) : c.nodeIds.Nodup := by
  have hv := h.nodup List.nodup_nil
  rw [h.visited] at hv
  simpa using hv

/-- The rendered nodes are distinct nodes of the document, so they do not refer to more children than
    the document does. -/
theorem Records.sum_le (h : Records d scope ⟨r, []⟩ s c) :
    (c.visits.map fun v => v.below.calledFor.length).sum ≤ d.childCount := by
  let entry : Visit → Text × Node := fun v => (v.nodeId, v.node)
  have hnodup : (c.visits.map entry).Nodup := by
    have hids : ((c.visits.map entry).map Prod.fst).Nodup := by
      rw [List.map_map]
      exact h.nodup_nodeIds
    exact hids.of_map
  have hsub : c.visits.map entry ⊆ d.nodes := by
    intro e he
    obtain ⟨v, hv, rfl⟩ := List.mem_map.1 he
    exact Document.mem_nodes_of_visible? (h.sound v hv).1
  obtain ⟨l, hperm, hl⟩ := hnodup.subperm hsub
  calc (c.visits.map fun v => v.below.calledFor.length).sum
      = ((c.visits.map entry).map fun e => e.2.allChildren.length).sum := by
        rw [List.map_map]
        exact congrArg List.sum (List.map_congr_left fun v hv => congrArg List.length (h.sound v hv).2)
    _ = (l.map fun e => e.2.allChildren.length).sum := (hperm.map _).sum_eq.symm
    _ ≤ d.childCount := (hl.map _).sum_le_sum fun _ _ => Nat.zero_le _

theorem Records.count_le (h : Records d scope ⟨r, []⟩ s c) :
    c.count ≤ c.calledFor.length + d.childCount := by
  rw [count_eq]
  exact Nat.add_le_add_left h.sum_le _

end

def fragments [Link.HostReader] : Calls → List Fragment
  | none => []
  | passed _ rest => Fragment.empty :: rest.fragments
  | rendered _ n id below rest => assemble n id below.outline.fragment :: rest.fragments

section

variable [Link.HostReader] (d : Document) (scope : Scope)

theorem fragments_followedBy (c e : Calls) : (c.followedBy e).fragments = c.fragments ++ e.fragments := by
  induction c with
  | none => rfl
  | passed nodeId rest ih => simp [followedBy, fragments, ih]
  | rendered nodeId n id below rest _ ih => simp [followedBy, fragments, ih]

theorem visit_eq (levels : Nat) (nodeId : Text) (s : WalkState) :
    Render.visit d scope levels nodeId s =
      ((visit d scope levels nodeId s).1.outline.fragment, (visit d scope levels nodeId s).2) := by
  rw [Outline.visit_eq, visit_outline]

theorem fragments_visit (levels : Nat) (nodeId : Text) (s : WalkState) :
    (visit d scope levels nodeId s).1.fragments = [(Render.visit d scope levels nodeId s).1] := by
  rw [visit_eq]
  obtain ⟨he, _⟩ | ⟨_, _, _, _, _, _, _, _, he⟩ := visit_cases d scope levels nodeId s
  · rw [he]
    rfl
  · rw [he]
    simp [fragments, outline, Outline.fragment, Fragment.append, Fragment.empty]

end

end Calls

section

variable [Link.HostReader] (d : Document) (scope : Scope)

def renderNodes : List Text → WalkState → List Fragment × WalkState
  | [], s => ([], s)
  | nodeId :: nodeIds, s =>
    let (f, s) := renderNode d scope nodeId s
    let (fs, s) := renderNodes nodeIds s
    (f :: fs, s)

open Calls

theorem renderNodes_eq (nodeIds : List Text) (s : WalkState) : renderNodes d scope nodeIds s =
    ((ofNodes d scope nodeIds s).1.fragments, (ofNodes d scope nodeIds s).2) := by
  induction nodeIds generalizing s with
  | nil => rfl
  | cons nodeId nodeIds ih =>
    have hfirst := fragments_visit d scope (maxDepth + 1) nodeId s
    rw [ofNodes, Calls.visitAll]
    simp only [renderNodes, ih, fragments_followedBy, hfirst, List.singleton_append]
    rw [renderNode, visit_eq]
    rfl

theorem renderNode_of_mem {nodeId : Text} {s : WalkState} (h : nodeId ∈ s.visited) :
    renderNode d scope nodeId s = (Fragment.empty, s) := by
  rw [renderNode, visit_eq]
  obtain ⟨he, _⟩ | ⟨_, _, _, _, _, _, hnew, _⟩ := visit_cases d scope (maxDepth + 1) nodeId s
  · rw [he]
    rfl
  · exact absurd h hnew

/-- What holds of calls for nodes one after the other on one state, whatever the document. -/
structure OncePerNode (r : Registry) (nodeIds : List Text) (c : Calls) (fs : List Fragment)
    (s : WalkState) : Prop where
  calledFor : c.calledFor = nodeIds
  fragments : fs = c.fragments
  /-- The walk ends: all calls together are bounded by the references of the document. -/
  count_le : c.count ≤ nodeIds.length + d.childCount
  height_le : c.height ≤ maxDepth + 1
  assigned : Assigned scope r c.visits s.registry
  nodup : c.nodeIds.Nodup
  complete : ∀ nodeId ∈ nodeIds, (d.visible? nodeId).isSome = true → nodeId ∈ c.nodeIds
  again : ∀ nodeId ∈ c.nodeIds, renderNode d scope nodeId s = (Fragment.empty, s)

/-- Calls on one state all end, without going deeper than allowed, and render a node once. -/
theorem renders_once (r : Registry) (nodeIds : List Text) :
    OncePerNode d scope r nodeIds (ofNodes d scope nodeIds ⟨r, []⟩).1
      (renderNodes d scope nodeIds ⟨r, []⟩).1 (renderNodes d scope nodeIds ⟨r, []⟩).2 := by
  have hrecords : Records d scope ⟨r, []⟩ (ofNodes d scope nodeIds ⟨r, []⟩).2
      (ofNodes d scope nodeIds ⟨r, []⟩).1 :=
    records_visitAll (records_visit d scope (maxDepth + 1)) nodeIds _
  have hcalled : (ofNodes d scope nodeIds ⟨r, []⟩).1.calledFor = nodeIds :=
    calledFor_visitAll (calledFor_visit d scope (maxDepth + 1)) nodeIds _
  have hmarked : ∀ nodeId, nodeId ∈ (ofNodes d scope nodeIds ⟨r, []⟩).2.visited ↔
      nodeId ∈ (ofNodes d scope nodeIds ⟨r, []⟩).1.nodeIds := by
    intro nodeId
    simp [hrecords.visited]
  rw [renderNodes_eq]
  exact {
    calledFor := hcalled
    fragments := rfl
    count_le := by
      have hcount := hrecords.count_le
      rwa [hcalled] at hcount
    height_le := height_visitAll (height_visit d scope (maxDepth + 1)) nodeIds _
    assigned := hrecords.assigned
    nodup := hrecords.nodup_nodeIds
    complete := fun nodeId hm hv => (hmarked nodeId).1 (mem_visited_ofNodes d scope hm hv _)
    again := fun nodeId hm => renderNode_of_mem d scope ((hmarked nodeId).2 hm) }

end

def entangled : Document where
  nodes :=
    [("ROOT", ⟨"Container", [], ["a", "b"], [("slot", "a")], false, none⟩),
     ("a", ⟨"Container", [], ["ROOT", "a", "b"], [], false, none⟩),
     ("b", ⟨"Text", [("text", .string "once")], [], [], false, none⟩)]

theorem renders_once_entangled :
    (entangled.visible? "b").isSome = true ∧
      ("b" : Text) ∈ (Calls.ofNodes entangled .page ["ROOT", "b"] ⟨Registry.empty, []⟩).1.nodeIds ∧
      renderNode entangled .page "b" (renderNodes entangled .page ["ROOT", "b"] ⟨Registry.empty, []⟩).2 =
        (Fragment.empty, (renderNodes entangled .page ["ROOT", "b"] ⟨Registry.empty, []⟩).2) := by
  have honce := renders_once entangled .page Registry.empty ["ROOT", "b"]
  have hvisible : (entangled.visible? "b").isSome = true := by decide
  have hrendered := honce.complete "b" (by decide) hvisible
  exact ⟨hvisible, hrendered, honce.again "b" hrendered⟩

end Render

end Folio
