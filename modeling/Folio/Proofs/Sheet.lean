import Folio.Proofs.Layers

set_option autoImplicit false

/-!
# Reading compiled rules

A reader for the texts that the styling of one element is compiled to. It knows the element and the
grammar of rules and media blocks, but not the order or the number of anything. No name or value can
reach over the character that ends it, so a text is read back as the entry it was written from.
-/
namespace Folio.Style

def Declaration.read? : Text → Option Declaration
  | ' ' :: s => (Text.cut? [':', ' '] s).map fun (property, value) => ⟨property, value⟩
  | _ => none

namespace Rule

/-- What stands between the braces of a rule. A piece that is no declaration counts for nothing. -/
def readBody (s : Text) : List Declaration := (Text.split ';' s).filterMap Declaration.read?

def read? (element s : Text) : Option (Rule × Text) :=
  (Text.dropStart? ('#' :: element) s).bind fun s =>
    (Text.cut? [' ', '{'] s).bind fun (suffix, s) =>
      (Slot.all.find? fun slot => slot.suffix = suffix).bind fun slot =>
        (Text.cut? ['}'] s).map fun (body, rest) => (⟨element, slot, readBody body⟩, rest)

theorem length_lt_of_read? {element s rest : Text} {r : Rule} (h : read? element s = some (r, rest)) :
    rest.length < s.length := by
  obtain ⟨s₁, h₁, h⟩ := Option.bind_eq_some_iff.1 h
  obtain ⟨⟨suffix, s₂⟩, h₂, h⟩ := Option.bind_eq_some_iff.1 h
  obtain ⟨slot, _, h⟩ := Option.bind_eq_some_iff.1 h
  obtain ⟨⟨body, s₃⟩, h₃, h⟩ := Option.map_eq_some_iff.1 h
  obtain ⟨_, rfl⟩ := Prod.mk.inj h
  have e₁ := congrArg List.length (Text.dropStart?_eq_some h₁)
  have e₂ := congrArg List.length (Text.cut?_eq_some h₂)
  have e₃ := congrArg List.length (Text.cut?_eq_some h₃)
  simp only [List.length_append, List.length_cons] at e₁ e₂ e₃
  omega

def readLine? (element s : Text) : Option (Rule × Text) :=
  (Text.dropStart? ['\n', ' ', ' '] s).bind (read? element)

theorem length_lt_of_readLine? {element s rest : Text} {r : Rule}
    (h : readLine? element s = some (r, rest)) : rest.length < s.length := by
  obtain ⟨s₁, h₁, h⟩ := Option.bind_eq_some_iff.1 h
  have e₁ := congrArg List.length (Text.dropStart?_eq_some h₁)
  have hlt := length_lt_of_read? h
  rw [List.length_append] at e₁
  omega

def readLines? (element s : Text) : Option (List Rule) :=
  match _ : readLine? element s with
  | none => if s = ['\n', '}'] then some [] else none
  | some (r, rest) => (readLines? element rest).map fun rules => r :: rules
termination_by s.length
decreasing_by exact length_lt_of_readLine? (by assumption)

end Rule

def Breakpoint.ofQuery? (s : Text) : Option Breakpoint :=
  narrow.find? fun b => b.mediaQuery?.map (· ++ [' ']) = some s

namespace Entry

def readRule? (element s : Text) : Option Entry :=
  (Rule.read? element s).bind fun (r, rest) => if rest.isEmpty then some (rule r) else none

def readMedia? (element s : Text) : Option Entry :=
  (Text.cut? ['{'] s).bind fun (query, s) =>
    (Breakpoint.ofQuery? query).bind fun b => (Rule.readLines? element s).map (media b)

def read? (element : Text) : Text → Option Entry
  | '@' :: s => readMedia? element ('@' :: s)
  | s => readRule? element s

end Entry

theorem Declaration.Enclosed.not_mem_colon {d : Declaration} (h : d.Enclosed) : ':' ∉ d.property :=
  fun hm => absurd (h.property ':' hm) (by decide)

theorem Enclosed.not_mem {s : Text} (h : Enclosed s) {c : Char} (hc : isForbidden c = true) : c ∉ s :=
  fun hm => Bool.false_ne_true ((h c hm).symm.trans hc)

theorem Declaration.read?_write {d : Declaration} (h : d.Enclosed) :
    Declaration.read? (' ' :: (d.property ++ ':' :: ([' '] ++ d.value))) = some d := by
  rw [Declaration.read?, Text.cut?_append h.not_mem_colon]
  rfl

theorem not_mem_declaration {d : Declaration} (h : d.Enclosed) {c : Char} (hc : isForbidden c = true) :
    c ∉ ' ' :: (d.property ++ ':' :: ([' '] ++ d.value)) := by
  have hblank : c ≠ ' ' := by
    rintro rfl
    exact absurd hc (by decide)
  have hcolon : c ≠ ':' := by
    rintro rfl
    exact absurd hc (by decide)
  have hproperty := (enclosed_of_isId h.property).not_mem hc
  have hvalue := h.value.not_mem hc
  simp [hblank, hcolon, hproperty, hvalue]

theorem writeDeclaration_append (d : Declaration) (r : Text) :
    Rule.writeDeclaration d ++ r = (' ' :: (d.property ++ ':' :: ([' '] ++ d.value))) ++ ';' :: r := by
  simp [Rule.writeDeclaration]

theorem readBody_write {ds : List Declaration} (h : ∀ d ∈ ds, d.Enclosed) :
    Rule.readBody (ds.flatMap Rule.writeDeclaration ++ [' ']) = ds := by
  induction ds with
  | nil => rfl
  | cons d ds ih =>
    obtain ⟨hd, hds⟩ := List.forall_mem_cons.1 h
    have hrest := ih hds
    rw [Rule.readBody] at hrest ⊢
    rw [List.flatMap_cons, List.append_assoc, writeDeclaration_append,
      Text.split_append (not_mem_declaration hd (by decide)),
      List.filterMap_cons_some (Declaration.read?_write hd), hrest]

theorem not_mem_body {ds : List Declaration} (h : ∀ d ∈ ds, d.Enclosed) :
    '}' ∉ ds.flatMap Rule.writeDeclaration ++ [' '] := by
  intro hm
  rcases List.mem_append.1 hm with hm | hm
  · obtain ⟨d, hd, hm⟩ := List.mem_flatMap.1 hm
    rw [← List.append_nil (Rule.writeDeclaration d), writeDeclaration_append] at hm
    rcases List.mem_append.1 hm with hm | hm
    · exact not_mem_declaration (h d hd) (by decide) hm
    · exact absurd hm (by decide)
  · exact absurd hm (by decide)

theorem Slot.find?_suffix (slot : Slot) :
    (Slot.all.find? fun s => s.suffix = slot.suffix) = some slot := by
  cases slot with
  | base => decide
  | state s => cases s <;> decide

theorem Slot.not_mem_suffix (slot : Slot) : ' ' ∉ slot.suffix := by
  cases slot with
  | base => decide
  | state s => cases s <;> decide

namespace Rule

theorem write_append (r : Rule) (rest : Text) :
    r.write ++ rest = ('#' :: r.element) ++ (r.slot.suffix ++ ' ' :: (['{'] ++
      ((r.declarations.flatMap writeDeclaration ++ [' ']) ++ '}' :: ([] ++ rest)))) := by
  simp [write, selector]

theorem read?_write {r : Rule} (h : ∀ d ∈ r.declarations, d.Enclosed) (rest : Text) :
    read? r.element (r.write ++ rest) = some (r, rest) := by
  simp only [read?, write_append, Text.dropStart?_append, Option.bind_some,
    Text.cut?_append r.slot.not_mem_suffix, Slot.find?_suffix, Text.cut?_append (not_mem_body h),
    Option.map_some, readBody_write h]

theorem readLines?_of_line {element s rest : Text} {r : Rule}
    (h : readLine? element s = some (r, rest)) :
    readLines? element s = (readLines? element rest).map fun rules => r :: rules := by
  rw [readLines?]
  split
  · rename_i hnone
    exact nomatch hnone.symm.trans h
  · rename_i hsome
    obtain ⟨rfl, rfl⟩ := Prod.mk.inj (Option.some.inj (hsome.symm.trans h))
    rfl

theorem readLines?_end (element : Text) : readLines? element ['\n', '}'] = some [] := by
  have hend : readLine? element ['\n', '}'] = none := rfl
  rw [readLines?]
  split
  · rw [if_pos rfl]
  · rename_i hsome
    exact nomatch hend.symm.trans hsome

theorem readLines?_write {element : Text} {rules : List Rule}
    (h : ∀ r ∈ rules, r.element = element ∧ ∀ d ∈ r.declarations, d.Enclosed) :
    readLines? element ((rules.flatMap fun r => ['\n', ' ', ' '] ++ r.write) ++ ['\n', '}']) =
      some rules := by
  induction rules with
  | nil => exact readLines?_end element
  | cons r rules ih =>
    obtain ⟨⟨rfl, hr⟩, hrules⟩ := List.forall_mem_cons.1 h
    have hline : ∀ s, readLine? r.element (['\n', ' ', ' '] ++ r.write ++ s) = some (r, s) := by
      intro s
      rw [readLine?, List.append_assoc, Text.dropStart?_append, Option.bind_some, read?_write hr]
    rw [List.flatMap_cons, List.append_assoc, readLines?_of_line (hline _), ih hrules, Option.map_some]

end Rule

theorem Breakpoint.mediaQuery?_narrow {b : Breakpoint} (hb : b ∈ narrow) :
    ∃ q, b.mediaQuery?.getD [] = '@' :: q ∧ '{' ∉ b.mediaQuery?.getD [] ++ [' '] ∧
      ofQuery? (b.mediaQuery?.getD [] ++ [' ']) = some b := by
  cases b with
  | desktop => exact absurd hb (by decide)
  | tablet => exact ⟨"media (max-width: 991px)", by decide +kernel⟩
  | mobile => exact ⟨"media (max-width: 767px)", by decide +kernel⟩
  | mobilePortrait => exact ⟨"media (max-width: 479px)", by decide +kernel⟩

theorem cons_join_line {parts : List Text} (h : parts ≠ []) :
    '\n' :: Text.join ['\n'] parts = parts.flatMap fun p => '\n' :: p := by
  induction parts with
  | nil => exact absurd rfl h
  | cons p parts ih =>
    cases parts with
    | nil => simp [Text.join]
    | cons q parts =>
      rw [Text.join_cons_cons, List.flatMap_cons, ← ih (List.cons_ne_nil q parts)]
      simp

namespace Entry

/-- What can be read back: rules for one element with enclosed declarations, and no empty block. -/
def Legible (element : Text) : Entry → Prop
  | rule r => r.element = element ∧ ∀ d ∈ r.declarations, d.Enclosed
  | media b rules => b ∈ Breakpoint.narrow ∧ rules ≠ [] ∧
      ∀ r ∈ rules, r.element = element ∧ ∀ d ∈ r.declarations, d.Enclosed
  | custom _ => False

theorem write_media (b : Breakpoint) {rules : List Rule} (h : rules ≠ []) :
    (media b rules).write = (b.mediaQuery?.getD [] ++ [' ']) ++ '{' ::
      ([] ++ ((rules.flatMap fun r => ['\n', ' ', ' '] ++ r.write) ++ ['\n', '}'])) := by
  have hlines : '\n' :: Text.join ['\n'] (rules.map fun r => "  " ++ r.write) =
      rules.flatMap fun r => ['\n', ' ', ' '] ++ r.write := by
    rw [cons_join_line (by simpa using h), List.flatMap_map]
    rfl
  have hbreak : ∀ query lines : Text, query ++ [' ', '{', '\n'] ++ lines ++ ['\n', '}'] =
      (query ++ [' ']) ++ '{' :: ([] ++ ('\n' :: lines ++ ['\n', '}'])) := by
    intro query lines
    simp
  exact (hbreak _ _).trans (hlines ▸ rfl)

theorem read?_write {element : Text} {e : Entry} (h : e.Legible element) :
    read? element e.write = some e := by
  cases e with
  | rule r =>
    obtain ⟨rfl, hr⟩ := h
    have hrule : read? r.element r.write = readRule? r.element r.write := rfl
    have hread := Rule.read?_write hr []
    rw [List.append_nil] at hread
    rw [write, hrule, readRule?, hread]
    rfl
  | media b rules =>
    obtain ⟨hb, hne, hrules⟩ := h
    obtain ⟨q, hq, hopen, hquery⟩ := Breakpoint.mediaQuery?_narrow hb
    -- A media block begins with `@`, a rule with the `#` of its selector.
    have hmedia : ∀ s, read? element (b.mediaQuery?.getD [] ++ s) =
        readMedia? element (b.mediaQuery?.getD [] ++ s) := by
      intro s
      rw [hq]
      rfl
    rw [write_media b hne, List.append_assoc, hmedia, ← List.append_assoc]
    simp only [readMedia?, Text.cut?_append hopen, Option.bind_some, hquery,
      Rule.readLines?_write hrules, Option.map_some]
  | custom css => exact absurd h id

end Entry

end Folio.Style
