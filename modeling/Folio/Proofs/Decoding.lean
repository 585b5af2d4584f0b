import Folio.Proofs.Bags

set_option autoImplicit false

/-!
# Compiled rules decode

What is compiled for a node are well-formed entries: rules for its id that declare properties of the
table, each once and with a safe value, alone or in the block of a narrow breakpoint. The text of a
well-formed entry comes from no other one, whatever id that is for, and it is taken apart at its braces
and semicolons without knowing the id.
-/
namespace Folio.Style

/-- A rule for an element that declares something, every property once. -/
structure Rule.WellFormed (element : Text) (r : Rule) : Prop where
  element : r.element = element
  nonempty : r.declarations ≠ []
  sound : ∀ d ∈ r.declarations, d.Sound
  once : (r.declarations.map Declaration.property).Nodup

namespace Entry

def WellFormed (element : Text) : Entry → Prop
  | rule r => r.WellFormed element
  | media b rules => b ∈ Breakpoint.narrow ∧ rules ≠ [] ∧ ∀ r ∈ rules, r.WellFormed element
  | custom _ => False

def named (s : Text) : Text := ((s.dropWhile (· ≠ '#')).drop 1).takeWhile Identity.isIdChar

/-- Takes a text apart as the entry for the id that it names. -/
def parse? (s : Text) : Option Entry := read? (named s) s

end Entry

theorem Rule.WellFormed.legible {element : Text} {r : Rule} (h : r.WellFormed element) :
    r.element = element ∧ ∀ d ∈ r.declarations, d.Enclosed :=
  ⟨h.element, fun d hd => (h.sound d hd).enclosed⟩

namespace Entry

theorem WellFormed.legible {element : Text} {e : Entry} (h : e.WellFormed element) :
    e.Legible element := by
  cases e with
  | rule r => exact Rule.WellFormed.legible h
  | media b rules => exact ⟨h.1, h.2.1, fun r hr => (h.2.2 r hr).legible⟩
  | custom css => exact h

theorem named_selector {before element : Text} (hbefore : '#' ∉ before) (h : Identity.IsId element)
    (slot : Slot) (rest : Text) :
    named (before ++ '#' :: (element ++ (slot.suffix ++ ' ' :: rest))) = element := by
  have hdrop : (before ++ '#' :: (element ++ (slot.suffix ++ ' ' :: rest))).dropWhile (· ≠ '#') =
      '#' :: (element ++ (slot.suffix ++ ' ' :: rest)) := by
    rw [List.dropWhile_append_of_pos, List.dropWhile_cons_of_neg (by simp)]
    intro c hc
    simpa using fun e : c = '#' => hbefore (e ▸ hc)
  have hstop : (slot.suffix ++ ' ' :: rest).takeWhile Identity.isIdChar = [] := by
    cases slot with
    | base => rfl
    | state s => cases s <;> rfl
  rw [named, hdrop, List.drop_one, List.tail_cons, List.takeWhile_append_of_pos h, hstop, List.append_nil]

theorem named_write {element : Text} (h : Identity.IsId element) {e : Entry} (he : e.WellFormed element) :
    named e.write = element := by
  cases e with
  | rule r =>
    obtain rfl : r.element = element := he.element
    have hwrite : (rule r).write = [] ++ '#' :: (r.element ++ (r.slot.suffix ++ ' ' ::
        ('{' :: (r.declarations.flatMap Rule.writeDeclaration ++ [' ', '}'])))) := by
      simp [write, Rule.write, Rule.selector]
    rw [hwrite, named_selector List.not_mem_nil h]
  | media b rules =>
    obtain ⟨hb, hne, hrules⟩ := he
    obtain ⟨r, rules, rfl⟩ := List.exists_cons_of_ne_nil hne
    obtain rfl : r.element = element := (hrules r List.mem_cons_self).element
    have hquery : '#' ∉ b.mediaQuery?.getD [] ++ [' ', '{', '\n', ' ', ' '] := by
      cases b <;> decide +kernel
    obtain ⟨rest, hwrite⟩ : ∃ rest, (media b (r :: rules)).write =
        (b.mediaQuery?.getD [] ++ [' ', '{', '\n', ' ', ' ']) ++
          '#' :: (r.element ++ (r.slot.suffix ++ ' ' :: rest)) := by
      rw [write_media b hne, List.flatMap_cons, Rule.write, Rule.selector]
      exact ⟨_, by simp only [List.append_assoc, List.cons_append, List.nil_append]; rfl⟩
    rw [hwrite, named_selector hquery h]
  | custom css => exact absurd he id

theorem parse?_write {element : Text} (h : Identity.IsId element) {e : Entry}
    (he : e.WellFormed element) : parse? e.write = some e := by
  rw [parse?, named_write h he, read?_write he.legible]

end Entry

namespace Layers

open Declarations

theorem wellFormed_of_mem_ruled {layers : Layers} (h : layers.Proper) {element : Text} :
    ∀ e ∈ layers.ruled element, e.WellFormed element := by
  have hrule : ∀ declared : Slot → List Declaration,
      (∀ slot, (∀ d ∈ declared slot, d.Sound) ∧ (names (declared slot)).Nodup) →
      ∀ r ∈ rulesOf element declared, r.WellFormed element := by
    intro declared hd r hr
    obtain ⟨slot, hne, rfl⟩ := mem_rulesOf.1 hr
    exact ⟨rfl, hne, (hd slot).1, (hd slot).2⟩
  intro e he
  obtain ⟨r, hr, rfl⟩ | ⟨b, hb, hne, rfl⟩ := mem_ruled he
  · exact hrule _ (fun slot => ⟨h.sound .desktop slot, h.once .desktop slot⟩) r hr
  · exact ⟨hb, hne, hrule _ (h.changedAt hb)⟩

end Layers

end Folio.Style

namespace Folio.Render

open Style

/-- What is compiled for an element, the style text of its own aside, are well-formed entries. Each text
    is taken apart again, and no other well-formed entry is written so. -/
theorem decodes_compile (kind : Component) (p : Props) {element : Text} (h : Identity.IsId element) :
    let layers := (Layers.ofProps p).withDefaults (defaults kind p)
    ∃ entries : List Entry,
      layers.compile element = entries.map Entry.write ++ layers.custom.toList ∧
      ∀ e ∈ entries, e.WellFormed element ∧ Entry.parse? e.write = some e ∧
        ∀ other f, Identity.IsId other → f.WellFormed other → f.write = e.write → f = e := by
  intro layers
  have hproper : layers.Proper := by
    refine (Layers.proper_ofProps p).withDefaults (sound_defaults kind p) ?_
    cases kind <;> simp [Declarations.names, defaults]
  refine ⟨layers.ruled element, layers.compile_eq element, fun e he => ?_⟩
  have hwell := Layers.wellFormed_of_mem_ruled hproper e he
  refine ⟨hwell, Entry.parse?_write h hwell, fun other f hother hf heq => ?_⟩
  have hsame : some f = some e := by
    rw [← Entry.parse?_write hother hf, heq, Entry.parse?_write h hwell]
  exact Option.some.inj hsame

theorem decodes_compile_spacer :
    Identity.IsId "pc-s" ∧ ∃ entries : List Entry,
      ["#pc-s \x7b height: 40px; \x7d".toList,
        "@media (max-width: 767px) \x7b\n  #pc-s \x7b height: 1rem; \x7d\n\x7d".toList] =
          entries.map Entry.write ∧
      ∀ e ∈ entries, e.WellFormed "pc-s" ∧ Entry.parse? e.write = some e ∧
        ∀ other f, Identity.IsId other → f.WellFormed other → f.write = e.write → f = e := by
  have hid : Identity.IsId "pc-s" := by decide
  obtain ⟨entries, hcompile, hentries⟩ := decodes_compile .spacer
    [("breakpointStyling", .object [("mobile", .object [("height", .string "1rem")])])] hid
  refine ⟨hid, entries, Eq.trans ?_ (hcompile.trans (List.append_nil _)), hentries⟩
  decide +kernel

end Folio.Render
