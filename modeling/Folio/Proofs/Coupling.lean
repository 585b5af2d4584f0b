import Folio.Proofs.Layers
import Folio.Proofs.Outline

set_option autoImplicit false

/-!
# Rules and their elements

A rule is written for the id of one node. Its element is found in what is rendered unless the node
stands below one whose element leaves its children out: then the rules are there without the element.
-/
namespace Folio.Style

def Entry.rules : Entry → List Rule
  | rule r => [r]
  | media _ rules => rules
  | custom _ => []

theorem Layers.element_of_mem_entries (layers : Layers) (element : Text) :
    ∀ r ∈ (layers.entries element).flatMap Entry.rules, r.element = element := by
  have hrules : ∀ declared, ∀ r ∈ rulesOf element declared, r.element = element := by
    intro declared r hr
    rw [eq_of_mem_rulesOf hr]
  intro r hr
  obtain ⟨e, he, hr⟩ := List.mem_flatMap.1 hr
  rw [entries_eq] at he
  rcases List.mem_append.1 he with he | he
  · obtain ⟨r', hr', rfl⟩ | ⟨b, _, _, rfl⟩ := mem_ruled he
    · obtain rfl : r = r' := by simpa [Entry.rules] using hr
      exact hrules _ r hr'
    · exact hrules _ r hr
  · obtain ⟨css, _, rfl⟩ := List.mem_map.1 he
    simp [Entry.rules] at hr

end Folio.Style

namespace Folio.Render
open Markup

namespace Fragment

def rules (f : Fragment) : List Style.Rule := f.entries.flatMap Style.Entry.rules

theorem rules_append (f g : Fragment) : (f.append g).rules = f.rules ++ g.rules :=
  List.flatMap_append

/-- The element of every rule is that of exactly one start tag. -/
def Coupled (f : Fragment) : Prop := ∀ r ∈ f.rules, (idsOf (tokens f.html)).count r.element = 1

end Fragment

theorem element_of_mem_ownEntries (n : Node) (id : Text) :
    ∀ r ∈ (ownEntries n id).flatMap Style.Entry.rules, r.element = id :=
  Style.Layers.element_of_mem_entries _ id

namespace Outline

section

variable [Link.HostReader]

theorem rules_node (n : Node) (id : Text) (below rest : Outline) :
    (node n id below rest).fragment.rules =
      (assemble n id below.fragment).rules ++ rest.fragment.rules := Fragment.rules_append _ _

theorem element_mem_claims (o : Outline) : ∀ r ∈ o.fragment.rules, r.element ∈ o.claims := by
  induction o with
  | none => simp [fragment, Fragment.rules, Fragment.empty]
  | node n id below rest hb hr =>
    intro r h
    rw [rules_node] at h
    rw [claims, List.mem_cons, List.mem_append]
    rcases List.mem_append.1 h with h | h
    · rcases assemble_cases n id below.sound_fragment with ⟨he, _⟩ | ⟨html, he, _⟩
      · rw [he] at h
        simp [Fragment.rules, Fragment.empty] at h
      · rw [he, Fragment.rules, List.flatMap_append] at h
        rcases List.mem_append.1 h with h | h
        · exact .inl (element_of_mem_ownEntries n id r h)
        · exact .inr (.inl (hb r h))
    · exact .inr (.inr (hr r h))

theorem entries_of_html_nil {o : Outline} (h : o.fragment.html = []) : o.fragment.entries = [] := by
  induction o with
  | none => rfl
  | node n id below rest _ hr =>
    obtain ⟨hown, hrest⟩ := List.append_eq_nil_iff.1 h
    have hentries : (assemble n id below.fragment).entries = [] := by
      rcases assemble_cases n id below.sound_fragment with ⟨he, _⟩ | ⟨html, he, hne, _⟩
      · rw [he]
        rfl
      · rw [Fragment.isEmpty, hown] at hne
        exact Bool.noConfusion hne
    exact List.append_eq_nil_iff.2 ⟨hentries, hr hrest⟩

/-- No rule is for a node below one that leaves its children out. -/
def Housed : Outline → Prop
  | none => True
  | node n _ below rest =>
    (holdsChildrenOf n = false → below.fragment.rules = []) ∧ below.Housed ∧ rest.Housed

/-- Every rule is for an element that is drawn. -/
def Matched (o : Outline) : Prop := ∀ r ∈ o.fragment.rules, r.element ∈ o.ids

theorem matched_of_rules_nil {o : Outline} (h : o.fragment.rules = []) : o.Matched := by
  intro r hr
  rw [h] at hr
  simp at hr

theorem matched_node_of_empty {n : Node} {id : Text} {below rest : Outline}
    (h : assemble n id below.fragment = Fragment.empty) :
    (node n id below rest).Matched ↔ rest.Matched := by
  have hrules : (node n id below rest).fragment.rules = rest.fragment.rules := by
    rw [rules_node, h]
    rfl
  have hids : (node n id below rest).ids = rest.ids := by
    rw [ids, h]
    rfl
  rw [Matched, hrules, hids, Matched]

theorem matched_node {n : Node} {id : Text} {below rest : Outline} {html : Text}
    (hn : (node n id below rest).claims.Nodup)
    (h : assemble n id below.fragment = ⟨html, ownEntries n id ++ below.fragment.entries⟩)
    (hne : (assemble n id below.fragment).isEmpty = false) :
    (node n id below rest).Matched ↔
      (∀ r ∈ below.fragment.rules, r.element ∈ if holdsChildrenOf n then below.ids else []) ∧
        rest.Matched := by
  obtain ⟨hid, hn⟩ := List.nodup_cons.1 hn
  obtain ⟨_, _, hapart⟩ := List.nodup_append.1 hn
  have hheld : (if holdsChildrenOf n then below.ids else []) ⊆ below.claims := by
    split
    · exact below.ids_sublist.subset
    · exact List.nil_subset _
  have hids : (node n id below rest).ids =
      id :: ((if holdsChildrenOf n then below.ids else []) ++ rest.ids) := by
    rw [ids, hne]
    rfl
  have hrules : (node n id below rest).fragment.rules =
      (ownEntries n id).flatMap Style.Entry.rules ++ (below.fragment.rules ++ rest.fragment.rules) := by
    rw [rules_node, h, Fragment.rules, List.flatMap_append, List.append_assoc]
    rfl
  rw [Matched, hrules, hids]
  constructor
  · intro hall
    refine ⟨fun r hr => ?_, fun r hr => ?_⟩
    · have hc := below.element_mem_claims r hr
      have hm := hall r (List.mem_append_right _ (List.mem_append_left _ hr))
      rcases List.mem_cons.1 hm with e | hm
      · exact absurd (e ▸ List.mem_append_left _ hc) hid
      · refine (List.mem_append.1 hm).resolve_right fun hrest => ?_
        exact hapart _ hc _ (rest.ids_sublist.subset hrest) rfl
    · have hc := rest.element_mem_claims r hr
      have hm := hall r (List.mem_append_right _ (List.mem_append_right _ hr))
      rcases List.mem_cons.1 hm with e | hm
      · exact absurd (e ▸ List.mem_append_right _ hc) hid
      · refine (List.mem_append.1 hm).resolve_left fun hbelow => ?_
        exact hapart _ (hheld hbelow) _ hc rfl
  · rintro ⟨hbelow, hrest⟩ r hr
    rcases List.mem_append.1 hr with hr | hr
    · rw [element_of_mem_ownEntries n id r hr]
      exact List.mem_cons_self
    · refine List.mem_cons_of_mem _ (List.mem_append.2 ?_)
      exact (List.mem_append.1 hr).imp (hbelow r) (hrest r)

theorem matched_iff_housed {o : Outline} (hn : o.claims.Nodup) : o.Matched ↔ o.Housed := by
  induction o with
  | none => exact iff_of_true (matched_of_rules_nil rfl) trivial
  | node n id below rest hb hr =>
    have hboth : below.claims.Nodup ∧ rest.claims.Nodup := by
      have h := List.nodup_append.1 (List.nodup_cons.1 hn).2
      exact ⟨h.1, h.2.1⟩
    have hb := hb hboth.1
    have hr := hr hboth.2
    rw [Housed]
    rcases assemble_cases n id below.sound_fragment with ⟨he, hnil⟩ | ⟨html, he, hne, _⟩
    · have hrules : below.fragment.rules = [] := by
        rw [Fragment.rules, entries_of_html_nil hnil]
        rfl
      have hbelow : below.Housed := hb.1 (matched_of_rules_nil hrules)
      rw [matched_node_of_empty he, hr]
      exact ⟨fun h => ⟨fun _ => hrules, hbelow, h⟩, fun h => h.2.2⟩
    · rw [matched_node hn he hne, hr, ← and_assoc]
      refine and_congr_left' ?_
      cases holdsChildrenOf n with
      | true =>
        rw [← hb]
        exact ⟨fun h => ⟨fun e => Bool.noConfusion e, h⟩, fun h => h.2⟩
      | false =>
        constructor
        · intro h
          have hrules : below.fragment.rules = [] := by
            refine List.eq_nil_iff_forall_not_mem.2 fun r hr => ?_
            simpa using h r hr
          exact ⟨fun _ => hrules, hb.1 (matched_of_rules_nil hrules)⟩
        · intro h r hr
          rw [h.1 rfl] at hr
          simp at hr

end

end Outline

theorem idsOf_renderDocument [Link.HostReader] (d : Document) (scope : Scope) (r : Registry) :
    idsOf (tokens (renderDocument d scope r).1.html) = (Outline.ofDocument d scope r).1.ids := by
  rw [idsOf_tokens, Outline.renderDocument_eq]
  exact (Outline.ofDocument d scope r).1.sound_fragment.ids

/-- The rules of a rendered document all have their element, exactly once, if and only if no rule is
    for a node below a divider, a spacer or an icon. -/
theorem coupled_iff_housed [Link.HostReader] (d : Document) (scope : Scope) (r : Registry) :
    (renderDocument d scope r).1.Coupled ↔ (Outline.ofDocument d scope r).1.Housed := by
  have hclaims := (Outline.claims_ofDocument d scope r).nodup
  have hids := (Outline.ofDocument d scope r).1.ids_sublist.nodup hclaims
  rw [← Outline.matched_iff_housed hclaims, Fragment.Coupled, idsOf_renderDocument,
    Outline.renderDocument_eq]
  refine forall₂_congr fun rule _ => ?_
  constructor
  · intro h
    exact List.count_pos_iff.1 (by omega)
  · exact List.count_eq_one_of_mem hids

/-- The rule of a spacer stays behind where the divider above it leaves the spacer out. -/
theorem not_coupled_spacer_below_divider :
    ¬ (renderDocument ⟨[("ROOT", ⟨"Divider", [], [("s" : Text)], [], false, none⟩),
        ("s", ⟨"Spacer", [], [], [], false, none⟩)]⟩ .page Registry.empty).1.Coupled := by
  intro h
  have hcount := h ⟨"pc-s", .base, [⟨"height", "40px"⟩]⟩ (by decide)
  rw [idsOf_renderDocument] at hcount
  revert hcount
  decide

end Folio.Render
