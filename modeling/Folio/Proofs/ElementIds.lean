import Folio.Proofs.Elements

set_option autoImplicit false

/-!
# Element ids of written elements

The ids that are read back from a tree are those of its start tags. `Carries` says of a tree that it
is read back with given ids, and has a rule for each way to build one.
-/
namespace Folio.Markup

def Token.id? : Token → Option Text
  | .startTag _ l _ => (l.find? fun a => a.name = ("id" : Text)).map Attribute.decoded
  | _ => none

def idsOf (ts : List Token) : List Text := ts.filterMap Token.id?

theorem idsOf_append (ts us : List Token) : idsOf (ts ++ us) = idsOf ts ++ idsOf us :=
  List.filterMap_append

theorem idsOf_tokens (s : Text) : idsOf (tokens s) = idsOf (tags s) := by
  change (tokens s).filterMap Token.id? = ((tokens s).filter Token.isTag).filterMap Token.id?
  rw [List.filterMap_filter]
  congr 1
  funext t
  cases t <;> rfl

def readId (l : List PlainAttribute) : Option Text :=
  (l.find? fun a => Text.lower a.1 = ("id" : Text)).map fun a => a.2.getD []

theorem find?_firstOfEach (n : Text) (l : List Attribute) :
    (Lexer.firstOfEach l).find? (fun a => a.name = n) = l.find? fun a => a.name = n := by
  induction l with
  | nil => rfl
  | cons b l ih =>
    by_cases hb : b.name = n
    · simp [Lexer.firstOfEach, hb]
    · rw [Lexer.firstOfEach, List.find?_cons_of_neg (by simpa using hb),
        List.find?_cons_of_neg (by simpa using hb), List.find?_filter, ← ih]
      congr 1
      funext a
      by_cases ha : a.name = n
      · simp [ha, Ne.symm hb]
      · simp [ha]

theorem decoded_spelled (b : PlainAttribute) : (spelled b).lowered.decoded = b.2.getD [] := by
  obtain ⟨name, value⟩ := b
  cases value with
  | none => exact decode_escapeAttribute []
  | some v => exact decode_escapeAttribute v

theorem id?_startTag (tag : Text) (l : List PlainAttribute) (selfClosing : Bool) :
    (Token.startTag tag (readAttributes l) selfClosing).id? = readId l := by
  rw [Token.id?, readAttributes, find?_firstOfEach, readId, List.find?_map, List.find?_map,
    Option.map_map, Option.map_map]
  exact congrArg (Option.map · _) (funext decoded_spelled)

theorem readId_append (l m : List PlainAttribute) : readId (l ++ m) = (readId l).or (readId m) := by
  rw [readId, List.find?_append, readId, readId]
  cases l.find? fun a => Text.lower a.1 = ("id" : Text) <;> rfl

/-- Attributes that are read back and hold the element id `i`, or none. -/
structure Identifies (l : List PlainAttribute) (i : Option Text) : Prop where
  named : NamedAttributes l
  id : readId l = i

theorem Identifies.append {l m : List PlainAttribute} {i j : Option Text} (hl : Identifies l i)
    (hm : Identifies m j) : Identifies (l ++ m) (i.or j) where
  named := fun a ha => (List.mem_append.1 ha).elim (hl.named a) (hm.named a)
  id := by rw [readId_append, hl.id, hm.id]

def isUnmarked (name : Text) : Bool := isAttributeName name && Text.lower name ≠ "id"

theorem identifies_none {l : List PlainAttribute} (h : (l.map Prod.fst).all isUnmarked = true) :
    Identifies l none := by
  have hn : ∀ a ∈ l, isAttributeName a.1 = true ∧ Text.lower a.1 ≠ "id" := by
    intro a ha
    have hname := List.all_eq_true.1 h a.1 (List.mem_map_of_mem ha)
    simpa [isUnmarked] using hname
  refine ⟨fun a ha => (hn a ha).1, ?_⟩
  have hfind : l.find? (fun a => Text.lower a.1 = ("id" : Text)) = none := by
    refine List.find?_eq_none.2 fun a ha => ?_
    rw [decide_eq_true_iff]
    exact (hn a ha).2
  rw [readId, hfind]
  rfl

theorem identifies_id (id : Text) : Identifies [attr "id" id] (some id) where
  named := List.forall_mem_singleton.2 (show isAttributeName "id" = true by decide)
  id := rfl

namespace Html

structure Carries (h : Html) (ids : List Text) : Prop where
  legible : h.Legible
  ids : idsOf h.tags = ids

structure CarriesAll (l : List Html) (ids : List Text) : Prop where
  legible : LegibleAll l
  ids : idsOf (tagsAll l) = ids

variable {tag : Text} {l : List PlainAttribute} {i : Option Text} {ids ids' : List Text}

theorem carriesAll_nil : CarriesAll [] [] where
  legible := trivial
  ids := rfl

theorem Carries.cons {h : Html} {rest : List Html} (hh : Carries h ids) (hr : CarriesAll rest ids') :
    CarriesAll (h :: rest) (ids ++ ids') where
  legible := ⟨hh.legible, hr.legible⟩
  ids := by rw [tagsAll, idsOf_append, hh.ids, hr.ids]

theorem Carries.single {h : Html} (hh : Carries h ids) : CarriesAll [h] ids := by
  simpa using hh.cons carriesAll_nil

theorem CarriesAll.append {l m : List Html} (hl : CarriesAll l ids) (hm : CarriesAll m ids') :
    CarriesAll (l ++ m) (ids ++ ids') where
  legible := legibleAll_append hl.legible hm.legible
  ids := by rw [tagsAll_append, idsOf_append, hl.ids, hm.ids]

theorem Carries.write {h : Html} (hh : Carries h ids) : Carries (.markup h.write) ids where
  legible := selfContained_write hh.legible
  ids := by
    rw [tags, tags_of_write hh.legible]
    exact hh.ids

theorem carries_text (s : Text) : Carries (.text s) [] where
  legible := trivial
  ids := rfl

theorem carries_element {content : List Html} (ht : isTagName tag = true) (hraw : rawOf tag = none)
    (hl : Identifies l i) (hc : CarriesAll content ids) :
    Carries (.element tag l content) (i.toList ++ ids) where
  legible := by
    refine ⟨ht, hl.named, ?_⟩
    rw [hraw]
    exact hc.legible
  ids := by
    rw [tags, hraw, idsOf, List.filterMap_cons, id?_startTag, hl.id]
    simp only [Option.isSome_none, Bool.false_eq_true, ↓reduceIte, List.filterMap_append]
    have hids : (tagsAll content).filterMap Token.id? = ids := hc.ids
    cases i <;> simp [hids, Token.id?]

theorem carries_void (ht : isTagName tag = true) (hraw : rawOf tag = none) (hl : Identifies l i) :
    Carries (.void tag l) i.toList where
  legible := ⟨ht, hl.named, hraw⟩
  ids := by
    rw [tags, idsOf, List.filterMap_cons, id?_startTag, hl.id]
    cases i <;> rfl

theorem carries_unmarked {content : List Html} (ht : isTagName tag = true) (hraw : rawOf tag = none)
    (hl : (l.map Prod.fst).all isUnmarked = true) (hc : CarriesAll content ids) :
    Carries (.element tag l content) ids := carries_element ht hraw (identifies_none hl) hc

/-- Nothing is read back from inside an element of raw text. -/
theorem carries_raw {content : List Html} (ht : isTagName tag = true) (hraw : rawOf tag = some tag)
    (hp : tag ≠ "plaintext") (hl : Identifies l i) (hc : Hidden tag (writeAll content)) :
    Carries (.element tag l content) i.toList where
  legible := by
    refine ⟨ht, hl.named, ?_⟩
    rw [hraw]
    exact ⟨hp, hc⟩
  ids := by
    rw [tags, hraw, idsOf, List.filterMap_cons, id?_startTag, hl.id]
    cases i <;> rfl

end Html

end Folio.Markup
