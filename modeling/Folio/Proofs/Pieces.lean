import Folio.Markup.Sanitize
import Folio.Proofs.Tags

set_option autoImplicit false

/-!
# Reading pieces back

Pieces that are nested, each element closed before the one around it, are read back from their written
form as the tags they stand for, except that an element of raw text hides the tags up to its end tag.
Since every element is closed, nothing that stands behind is hidden.
-/
namespace Folio.Markup

def Kept.attribute (a : Kept) : Attribute := ⟨a.name, some a.written⟩

theorem writeAttribute_eq_spell (a : Kept) : Piece.writeAttribute a = a.attribute.spell := by
  simp [Piece.writeAttribute, Attribute.spell, Kept.attribute]

theorem write_opening (tag : Text) (l : List Kept) :
    (Piece.opening tag l).write = openingTag tag (l.map Kept.attribute) := by
  have h : l.flatMap Piece.writeAttribute = (l.map Kept.attribute).flatMap Attribute.spell := by
    rw [List.flatMap_map]
    exact congrArg (fun f => List.flatMap f l) (funext writeAttribute_eq_spell)
  rw [Piece.write, openingTag, h]

theorem firstOfEach_of_nodup {l : List Attribute} (h : (l.map Attribute.name).Nodup) :
    Lexer.firstOfEach l = l := by
  induction l with
  | nil => rfl
  | cons a l ih =>
    obtain ⟨ha, hl⟩ : a.name ∉ l.map Attribute.name ∧ (l.map Attribute.name).Nodup := by
      simpa using h
    rw [Lexer.firstOfEach, ih hl]
    have hf : l.filter (fun b => b.name ≠ a.name) = l :=
      List.filter_eq_self.2 fun b hb => by
        have hne : b.name ≠ a.name := fun e => ha (e ▸ List.mem_map_of_mem hb)
        simpa using hne
    rw [hf]

/-- A tag name whose element is read up to an end tag, if it is read as raw text at all. -/
def Closable (tag : Text) : Prop := isTagName tag = true ∧ tag ≠ "plaintext"

/-- A piece that is read back as what it stands for. -/
def Piece.Legible : Piece → Prop
  | .text w => Inert w
  | .opening tag l => Closable tag ∧ (∀ a ∈ l, a.attribute.Legible ∧ Text.lower a.name = a.name) ∧
      (l.map Kept.name).Nodup
  | .closing tag => isTagName tag = true

def push (tag : Text) (opened : List Text) : List Text :=
  if voidTags.contains tag then opened else tag :: opened

theorem mem_push_of_mem {tag t : Text} {opened : List Text} (h : t ∈ opened) : t ∈ push tag opened := by
  unfold push
  split
  · exact h
  · exact List.mem_cons_of_mem tag h

theorem mem_push_self {tag : Text} (h : voidTags.contains tag = false) (opened : List Text) :
    tag ∈ push tag opened := by
  rw [push, h, if_neg Bool.false_ne_true]
  exact List.mem_cons_self

theorem closable_push {tag : Text} {opened : List Text} (h : Closable tag)
    (ho : ∀ t ∈ opened, Closable t) : ∀ t ∈ push tag opened, Closable t := by
  intro t ht
  unfold push at ht
  split at ht
  · exact ho t ht
  · rcases List.mem_cons.1 ht with rfl | ht
    · exact h
    · exact ho t ht

/-- The pieces close what they open, and then the elements that stood open before. -/
def Nested : List Text → List Piece → Prop
  | opened, [] => opened = []
  | opened, .text _ :: ps => Nested opened ps
  | opened, .opening tag _ :: ps => Nested (push tag opened) ps
  | opened, .closing tag :: ps => ∃ rest, opened = tag :: rest ∧ Nested rest ps

/-- The tags that pieces are read back as, within a raw-text element or outside. -/
def reread : Option Text → List Piece → List Token
  | _, [] => []
  | none, .text _ :: ps => reread none ps
  | none, .opening tag l :: ps =>
    .startTag tag (l.map Kept.attribute) false :: reread (rawOf tag) ps
  | none, .closing tag :: ps => .endTag tag :: reread none ps
  | some name, .closing tag :: ps =>
    if name = tag then .endTag tag :: reread none ps else reread (some name) ps
  | some name, _ :: ps => reread (some name) ps

theorem attributes_reread {tag : Text} {l : List Kept} (h : (Piece.opening tag l).Legible) :
    Lexer.firstOfEach ((l.map Kept.attribute).map Attribute.lowered) = l.map Kept.attribute := by
  obtain ⟨_, hl, hn⟩ := h
  have hlower : (l.map Kept.attribute).map Attribute.lowered = l.map Kept.attribute := by
    rw [List.map_map]
    refine List.map_congr_left fun a ha => ?_
    simp [Attribute.lowered, Kept.attribute, (hl a ha).2]
  rw [hlower, firstOfEach_of_nodup]
  rw [List.map_map]
  exact hn

theorem legible_attributes {tag : Text} {l : List Kept} (h : (Piece.opening tag l).Legible) :
    ∀ a ∈ l.map Kept.attribute, a.Legible := by
  intro a ha
  obtain ⟨k, hk, rfl⟩ := List.mem_map.1 ha
  exact (h.2.1 k hk).1

theorem tags_opening_append {tag : Text} {l : List Kept} (h : (Piece.opening tag l).Legible)
    (r : Text) : tags ((Piece.opening tag l).write ++ r) =
      .startTag tag (l.map Kept.attribute) false :: tagsFrom (rawOf tag) r := by
  rw [write_opening, tags_openingTag h.1.1 (legible_attributes h), attributes_reread h]

theorem tagsFrom_opening_append {name tag : Text} {l : List Kept} (hn : Closable name)
    (h : (Piece.opening tag l).Legible) (r : Text) :
    tagsFrom (some name) ((Piece.opening tag l).write ++ r) = tagsFrom (some name) r := by
  rw [write_opening, tagsFrom_openingTag hn.2 h.1.1 (legible_attributes h)]

theorem not_void_of_rawOf {tag name : Text} (h : rawOf tag = some name) :
    name = tag ∧ voidTags.contains tag = false := by
  have hr : ∀ t ∈ rawTextElements, voidTags.contains t = false := by decide
  unfold rawOf at h
  split at h
  · rename_i ht
    exact ⟨(Option.some.inj h).symm, hr tag (List.contains_iff_mem.1 ht)⟩
  · simp at h

theorem written_cons (p : Piece) (ps : List Piece) (r : Text) :
    written (p :: ps) ++ r = p.write ++ (written ps ++ r) := by
  simp [written]

/-- Nested pieces are read back as `reread` says, both outside and within any of the elements that
    stand open. -/
theorem tags_written {ps : List Piece} {opened : List Text} (hn : Nested opened ps)
    (ho : ∀ t ∈ opened, Closable t) (hp : ∀ p ∈ ps, p.Legible) (r : Text) :
    tags (written ps ++ r) = reread none ps ++ tags r ∧
      ∀ name ∈ opened, tagsFrom (some name) (written ps ++ r) = reread (some name) ps ++ tags r := by
  induction ps generalizing opened with
  | nil =>
    obtain rfl : opened = [] := hn
    refine ⟨rfl, ?_⟩
    intro name hname
    simp at hname
  | cons p ps ih =>
    have hhead := hp p List.mem_cons_self
    have hrest : ∀ q ∈ ps, q.Legible := fun q hq => hp q (List.mem_cons_of_mem p hq)
    rw [written_cons]
    cases p with
    | text w =>
      obtain ⟨hout, hin⟩ := ih hn ho hrest
      have hw : '<' ∉ w := Inert.not_mem_open hhead
      refine ⟨(tags_inert_append hw _).trans hout, ?_⟩
      intro name hname
      exact (tagsFrom_inert_append (ho name hname).2 hw _).trans (hin name hname)
    | opening tag l =>
      obtain ⟨hout, hin⟩ := ih hn (closable_push hhead.1 ho) hrest
      refine ⟨?_, ?_⟩
      · rw [tags_opening_append hhead, reread, List.cons_append]
        congr 1
        cases hraw : rawOf tag with
        | none => exact hout
        | some name =>
          obtain ⟨rfl, hvoid⟩ := not_void_of_rawOf hraw
          exact hin name (mem_push_self hvoid opened)
      · intro name hname
        rw [tagsFrom_opening_append (ho name hname) hhead]
        exact hin name (mem_push_of_mem hname)
    | closing tag =>
      obtain ⟨rest, rfl, hn⟩ := hn
      obtain ⟨hout, hin⟩ := ih hn (fun t ht => ho t (List.mem_cons_of_mem tag ht)) hrest
      refine ⟨?_, ?_⟩
      · exact (tags_endTag hhead _).trans (congrArg (Token.endTag tag :: ·) hout)
      · intro name hname
        obtain ⟨ht, hplain⟩ := ho name hname
        by_cases e : name = tag
        · subst e
          rw [reread, if_pos rfl]
          exact (tagsFrom_endTag_self hplain ht _).trans (congrArg (Token.endTag name :: ·) hout)
        · rw [reread, if_neg e]
          have hmem : name ∈ rest := (List.mem_cons.1 hname).resolve_left e
          exact (tagsFrom_endTag_of_ne hplain ht hhead e _).trans (hin name hmem)

theorem tags_written_of_nested {ps : List Piece} (hn : Nested [] ps) (hp : ∀ p ∈ ps, p.Legible) :
    tags (written ps) = reread none ps := by
  have h := (tags_written hn (by simp) hp []).1
  simpa using h

theorem selfContained_written {ps : List Piece} (hn : Nested [] ps) (hp : ∀ p ∈ ps, p.Legible) :
    SelfContained (written ps) := by
  intro r
  rw [tags_written_of_nested hn hp]
  exact (tags_written hn (by simp) hp r).1

theorem mem_reread {raw : Option Text} {ps : List Piece} {t : Token} (h : t ∈ reread raw ps) :
    (∃ tag, t = .endTag tag) ∨
      ∃ tag l, Piece.opening tag l ∈ ps ∧ t = .startTag tag (l.map Kept.attribute) false := by
  induction ps generalizing raw with
  | nil => simp [reread] at h
  | cons p ps ih =>
    have later {raw : Option Text} (h : t ∈ reread raw ps) : (∃ tag, t = .endTag tag) ∨
        ∃ tag l, Piece.opening tag l ∈ p :: ps ∧
          t = .startTag tag (l.map Kept.attribute) false := by
      rcases ih h with h | ⟨tag, l, hm, e⟩
      · exact .inl h
      · exact .inr ⟨tag, l, List.mem_cons_of_mem p hm, e⟩
    cases raw with
    | none =>
      cases p with
      | text w => exact later h
      | opening tag l =>
        rcases List.mem_cons.1 h with h | h
        · exact .inr ⟨tag, l, List.mem_cons_self, h⟩
        · exact later h
      | closing tag =>
        rcases List.mem_cons.1 h with h | h
        · exact .inl ⟨tag, h⟩
        · exact later h
    | some name =>
      cases p with
      | text w => exact later h
      | opening tag l => exact later h
      | closing tag =>
        rw [reread] at h
        split at h
        · rcases List.mem_cons.1 h with h | h
          · exact .inl ⟨tag, h⟩
          · exact later h
        · exact later h

end Folio.Markup
