import Folio.Proofs.Resanitize

set_option autoImplicit false

/-!
# Links into a new tab

A link whose target is `_blank` gets the protecting `rel`. The target is checked as `decode` reads it, but a
named reference that `decode` does not know is written as it stands, and another reader may know it. So the
links are protected for every reader whose further names stand for no part of `_blank`, and for no other.
-/
namespace Folio.Markup

/-- A named reference with the text it stands for, and whether its semicolon is required. -/
structure NamedReference where
  name : Text
  text : Text
  closed : Bool
deriving DecidableEq, Repr

namespace NamedReference

variable {e : NamedReference} {s t r : Text}

def read? (e : NamedReference) (s : Text) : Option (Text × Text) :=
  match Text.dropStart? e.name s with
  | some (';' :: r) => some (e.text, r)
  | some r => if e.closed then none else some (e.text, r)
  | none => none

theorem read?_eq_some (h : e.read? s = some (t, r)) :
    t = e.text ∧ ∃ q, s = e.name ++ q ∧ (q = ';' :: r ∨ q = r) := by
  unfold read? at h
  split at h
  · rename_i q hq
    obtain ⟨rfl, rfl⟩ : e.text = t ∧ q = r := by simpa using h
    exact ⟨rfl, _, Text.dropStart?_eq_some hq, .inl rfl⟩
  · rename_i q _ hq
    split at h
    · cases h
    · obtain ⟨rfl, rfl⟩ : e.text = t ∧ q = r := by simpa using h
      exact ⟨rfl, _, Text.dropStart?_eq_some hq, .inr rfl⟩
  · cases h

theorem read?_length (h : e.read? s = some (t, r)) : r.length ≤ s.length := by
  obtain ⟨_, q, rfl, hq⟩ := read?_eq_some h
  have hle : r.length ≤ q.length := by
    rcases hq with rfl | rfl
    · exact Nat.le_succ _
    · exact Nat.le_refl _
  rw [List.length_append]
  omega

theorem read?_self (e : NamedReference) (r : Text) :
    e.read? (e.name ++ ';' :: r) = some (e.text, r) := by
  rw [read?, Text.dropStart?_append]
  rfl

end NamedReference

def longer : Option (Text × Text) → Option (Text × Text) → Option (Text × Text)
  | some a, some b => if a.2.length < b.2.length then some a else some b
  | none, b => b
  | a, none => a

/-- The longest reference that starts a text, for a reader that knows further names. -/
def referenceWith? : List NamedReference → Text → Option (Text × Text)
  | [], s => (reference? s).map fun x => ([x.1], x.2)
  | e :: table, s => longer (e.read? s) (referenceWith? table s)

theorem longer_cases (a b : Option (Text × Text)) :
    (longer a b = a ∧ (a = none → b = none)) ∨ longer a b = b := by
  unfold longer
  split
  · split
    · exact .inl ⟨rfl, nofun⟩
    · exact .inr rfl
  · exact .inr rfl
  · exact .inl ⟨rfl, fun _ => rfl⟩

theorem referenceWith?_eq_some {table : List NamedReference} {s t r : Text}
    (h : referenceWith? table s = some (t, r)) :
    (∃ c, reference? s = some (c, r) ∧ t = [c]) ∨ ∃ e ∈ table, e.read? s = some (t, r) := by
  induction table with
  | nil =>
    obtain ⟨⟨c, q⟩, hc, e⟩ := Option.map_eq_some_iff.1 h
    obtain ⟨rfl, rfl⟩ : [c] = t ∧ q = r := by simpa using e
    exact .inl ⟨c, hc, rfl⟩
  | cons e table ih =>
    rw [referenceWith?] at h
    rcases longer_cases (e.read? s) (referenceWith? table s) with ⟨hl, _⟩ | hl
    · exact .inr ⟨e, List.mem_cons_self, hl ▸ h⟩
    · rcases ih (hl ▸ h) with hc | ⟨d, hd, hread⟩
      · exact .inl hc
      · exact .inr ⟨d, List.mem_cons_of_mem e hd, hread⟩

theorem reference?_of_referenceWith? {table : List NamedReference} {s : Text}
    (h : referenceWith? table s = none) : reference? s = none := by
  induction table with
  | nil => exact Option.map_eq_none_iff.1 h
  | cons e table ih =>
    rw [referenceWith?] at h
    rcases longer_cases (e.read? s) (referenceWith? table s) with ⟨hl, hnone⟩ | hl
    · exact ih (hnone (hl ▸ h))
    · exact ih (hl ▸ h)

theorem referenceWith?_length {table : List NamedReference} {s t r : Text}
    (h : referenceWith? table s = some (t, r)) : r.length ≤ s.length := by
  rcases referenceWith?_eq_some h with ⟨c, hc, _⟩ | ⟨e, _, he⟩
  · exact reference?_length hc
  · exact NamedReference.read?_length he

def decodeWith (table : List NamedReference) : Text → Text
  | [] => []
  | c :: s =>
    if c = '&' then
      match _h : referenceWith? table s with
      | some (t, r) => t ++ decodeWith table r
      | none => '&' :: decodeWith table s
    else c :: decodeWith table s
termination_by s => s.length
decreasing_by
  all_goals simp only [List.length_cons]
  · have := referenceWith?_length _h
    omega
  all_goals omega

theorem decodeWith_eq_or (table : List NamedReference) (s : Text) :
    decodeWith table s = decode s ∨ ∃ e ∈ table, e.text <:+: decodeWith table s := by
  have behind {t : Text} (u : Text) : (∃ e ∈ table, e.text <:+: t) → ∃ e ∈ table, e.text <:+: u ++ t :=
    fun ⟨e, he, hin⟩ => ⟨e, he, hin.trans (List.suffix_append u t).isInfix⟩
  fun_induction decodeWith table s with
  | case1 => exact .inl (by rw [decode])
  | case2 s t r h ih =>
    rcases referenceWith?_eq_some h with ⟨c, hc, rfl⟩ | ⟨e, he, hread⟩
    · rw [decode_reference hc]
      exact ih.imp (congrArg (c :: ·)) (behind [c])
    · obtain ⟨rfl, _⟩ := NamedReference.read?_eq_some hread
      exact .inr ⟨e, he, (List.prefix_append e.text _).isInfix⟩
  | case3 s h ih =>
    rw [decode_amp (reference?_of_referenceWith? h)]
    exact ih.imp (congrArg ('&' :: ·)) (behind ['&'])
  | case4 c s hc ih =>
    rw [decode_cons_of_ne hc]
    exact ih.imp (congrArg (c :: ·)) (behind [c])

section

variable {table : List NamedReference}

theorem decodeWith_append_of_not_mem {u : Text} (h : '&' ∉ u) (s : Text) :
    decodeWith table (u ++ s) = u ++ decodeWith table s := by
  induction u with
  | nil => rfl
  | cons c u ih =>
    have hc : c ≠ '&' := fun e => h (e ▸ List.mem_cons_self)
    rw [List.cons_append, decodeWith, if_neg hc, ih fun hm => h (List.mem_cons_of_mem c hm),
      List.cons_append]

theorem decodeWith_reference {s t r : Text} (h : referenceWith? table s = some (t, r)) :
    decodeWith table ('&' :: s) = t ++ decodeWith table r := by
  rw [decodeWith, if_pos rfl]
  split
  · rename_i e
    obtain ⟨rfl, rfl⟩ : _ = t ∧ _ = r := by simpa [h] using e.symm
    rfl
  · rename_i e
    simp [h] at e

end

/-- Further names, each with one meaning. A name that `decode` reads to its end keeps the one it has. -/
structure ReferenceTable where
  entries : List NamedReference
  stands : ∀ e ∈ entries, Stands e.name
  nodup : (entries.map NamedReference.name).Nodup

/-- No name stands for a part of `_blank`. -/
def SparesTarget (table : List NamedReference) : Prop :=
  ∀ e ∈ table, ¬ Text.lower e.text <:+: "_blank"

theorem NamedReference.length_lt_of_read? {d e : NamedReference} (hd : Stands d.name)
    (he : Stands e.name) (hne : d.name ≠ e.name) {v t r : Text}
    (h : d.read? (e.name ++ ';' :: v) = some (t, r)) : v.length < r.length := by
  obtain ⟨_, q, hq, hr⟩ := read?_eq_some h
  have hsemicolon : ';' ∉ e.name := he.not_mem (by decide)
  obtain ⟨p, hp⟩ := Text.prefix_of_prefix_append_cons (hd.not_mem (d := ';') (by decide)) ⟨q, hq.symm⟩
  obtain rfl : q = p ++ ';' :: v := by
    rw [← hp, List.append_assoc] at hq
    exact (List.append_cancel_left hq).symm
  cases p with
  | nil => exact absurd (by simpa using hp) hne
  | cons c p =>
    have hc : c ≠ ';' := by
      rintro rfl
      exact hsemicolon (hp ▸ List.mem_append_right _ List.mem_cons_self)
    rcases hr with hr | rfl
    · exact absurd (List.cons.inj hr).1 hc
    · simp
      omega

theorem referenceWith?_self {table : List NamedReference} (hs : ∀ e ∈ table, Stands e.name)
    (hn : (table.map NamedReference.name).Nodup) {e : NamedReference} (he : e ∈ table) (v : Text) :
    referenceWith? table (e.name ++ ';' :: v) = some (e.text, v) := by
  induction table with
  | nil => cases he
  | cons d table ih =>
    obtain ⟨hd, hs'⟩ := List.forall_mem_cons.1 hs
    obtain ⟨hnot, hn⟩ := List.nodup_cons.1 hn
    have hstands := hs e he
    rw [referenceWith?]
    rcases List.mem_cons.1 he with rfl | he
    · rw [e.read?_self]
      cases hrest : referenceWith? table (e.name ++ ';' :: v) with
      | none => rfl
      | some x =>
        obtain ⟨t, r⟩ := x
        have hlt : v.length < r.length := by
          rcases referenceWith?_eq_some hrest with ⟨c, hc, _⟩ | ⟨d, hd, hread⟩
          · exact hstands.length_lt_of_reference? hc
          · have hne : d.name ≠ e.name := fun h => hnot (h ▸ List.mem_map_of_mem hd)
            exact NamedReference.length_lt_of_read? (hs' d hd) hstands hne hread
        rw [longer, if_pos hlt]
    · rw [ih hs' hn he]
      cases hread : d.read? (e.name ++ ';' :: v) with
      | none => rfl
      | some x =>
        have hne : d.name ≠ e.name := fun h => hnot (h ▸ List.mem_map_of_mem he)
        have hlt := NamedReference.length_lt_of_read? hd hstands hne hread
        rw [longer, if_neg (Nat.not_lt.2 (Nat.le_of_lt hlt))]

/-- A link that opens a new tab for a reader has the protecting `rel`, and no other. -/
def Token.Protected (table : List NamedReference) : Token → Prop
  | .startTag tag l _ => tag = "a" →
    (∃ a ∈ l, a.name = "target" ∧
      Text.sameIgnoringCase (decodeWith table (a.value.getD [])) "_blank" = true) →
    l.filter (fun a => a.name = ("rel" : Text)) = [⟨"rel", some ("noopener noreferrer" : Text)⟩]
  | _ => True

/-- A name for a part of `_blank` stands in a target that a reader with this name takes for `_blank`, and
    `decode` does not. -/
theorem exists_overlooked (table : ReferenceTable) {e : NamedReference} (he : e ∈ table.entries)
    (h : Text.lower e.text <:+: "_blank") : ∃ w, guardBacktick (respell w) = w ∧
      Text.sameIgnoringCase (decode w) "_blank" = false ∧
      Text.sameIgnoringCase (decodeWith table.entries w) "_blank" = true := by
  obtain ⟨u, v, huv⟩ := h
  have hstands := table.stands e he
  have hplain : ∀ c ∈ ("_blank" : Text),
      guardBacktick (escapeChar c) = [c] ∧ c.toLower = c ∧ '&' ≠ c := by decide
  have part {x : Text} (hx : x ⊆ "_blank") : Firm x ∧ Text.lower x = x ∧ '&' ∉ x := by
    have hself := escapeAttribute_eq_self fun c hc => (hplain c (hx hc)).1
    have hlower : Text.lower x = x :=
      (List.map_congr_left fun c hc => (hplain c (hx hc)).2.1).trans (List.map_id x)
    exact ⟨hself ▸ firm_escapeAttribute x, hlower, fun hm => (hplain '&' (hx hm)).2.2 rfl⟩
  obtain ⟨hu, hulower, huamp⟩ := part (x := u) (by rw [← huv]; simp)
  obtain ⟨hv, hvlower, hvamp⟩ := part (x := v) (by rw [← huv]; simp)
  refine ⟨u ++ '&' :: (e.name ++ ';' :: v), ?_, ?_, ?_⟩
  · have hfirm := firm_append (firm_append hu ((settled_stands hstands).firm hstands.backtick)) hv
    simpa using hfirm.guarded_eq
  · -- what `decode` reads of the name still has the semicolon
    obtain ⟨x, hx, hdecode⟩ := exists_decode_stands hstands
    rw [decode_append_of_not_mem huamp, hdecode]
    refine beq_eq_false_iff_ne.2 fun heq => ?_
    have hmem : ';' ∈ Text.lower (u ++ (x ++ decode v)) :=
      List.mem_map.2 ⟨';', by simp [hx], by decide⟩
    exact absurd (heq ▸ hmem) (by decide)
  · have hreference := referenceWith?_self table.stands table.nodup he v
    have hrest : decodeWith table.entries v = v := by
      have happend : decodeWith table.entries (v ++ []) = v ++ decodeWith table.entries [] :=
        decodeWith_append_of_not_mem hvamp []
      rwa [List.append_nil, decodeWith, List.append_nil] at happend
    rw [decodeWith_append_of_not_mem huamp, decodeWith_reference hreference, hrest]
    have hlower : Text.lower (u ++ (e.text ++ v)) =
        Text.lower u ++ (Text.lower e.text ++ Text.lower v) := by simp [Text.lower]
    refine beq_iff_eq.2 ?_
    rw [hlower, hulower, hvlower, ← List.append_assoc, huv]
    decide

section

variable [Link.HostReader] {policy : Policy} {table : List NamedReference}

theorem protected_of_opens (hfree : SparesTarget table) {tag : Text}
    {attributes : List Attribute} {l : List Kept} (h : Opens policy tag attributes l)
    (selfClosing : Bool) :
    (Token.startTag tag (l.map Kept.attribute) selfClosing).Protected table := by
  rintro rfl ⟨a, ha, hname, hblank⟩
  obtain ⟨k, hk, rfl⟩ := List.mem_map.1 ha
  have hname : k.name = "target" := hname
  have hlower : Text.lower (decodeWith table k.written) = "_blank" := beq_iff_eq.1 hblank
  have hdecoded : decodeWith table k.written = decode k.written := by
    refine (decodeWith_eq_or table k.written).resolve_right ?_
    rintro ⟨e, he, hin⟩
    refine hfree e he ?_
    rw [← hlower]
    exact hin.map Char.toLower
  rw [h.list] at hk
  have hkept : k ∈ attributes.filterMap (keep? "a") := by
    refine (mem_protectLink hk).resolve_right ?_
    rintro rfl
    exact absurd hname (by decide)
  obtain ⟨b, _, hb⟩ := List.mem_filterMap.1 hkept
  have hvalue : k.value = decodeWith table k.written := (decoded_of_keep? hb).symm.trans hdecoded.symm
  have htab : opensNewTab (attributes.filterMap (keep? "a")) = true :=
    List.any_eq_true.2 ⟨k, hkept, Bool.and_eq_true_iff.2 ⟨decide_eq_true hname, hvalue ▸ hblank⟩⟩
  have hl : l = (attributes.filterMap (keep? "a")).filter (fun a => a.name ≠ ("rel" : Text)) ++
      [.escaped "rel" "noopener noreferrer"] := by
    rw [h.list, protectLink, htab, if_pos (by decide)]
  have hnone : ((attributes.filterMap (keep? "a")).filter fun a => a.name ≠ ("rel" : Text)).filter
      ((fun a => a.name = ("rel" : Text)) ∘ Kept.attribute) = [] := by
    refine List.filter_eq_nil_iff.2 fun k hk => ?_
    have hne : k.name ≠ "rel" := of_decide_eq_true (List.mem_filter.1 hk).2
    exact fun hrel => hne (of_decide_eq_true hrel)
  rw [hl, List.filter_map, List.filter_append, hnone]
  decide

/-- Every link that opens a new tab for a reader is protected, whatever the markup was. -/
def ProtectsNewTabs (policy : Policy) (table : List NamedReference) : Prop :=
  ∀ s, ∀ t ∈ tokens (sanitize policy s), t.Protected table

theorem exists_unprotected (h : policy ≠ .trustedCode) {w : Text}
    (hw : guardBacktick (respell w) = w)
    (hblank : Text.sameIgnoringCase (decode w) "_blank" = false) :
    ∃ s, .startTag "a" [⟨"target", some w⟩] false ∈ tokens (sanitize policy s) := by
  let a : Attribute := ⟨"target", some w⟩
  let k : Kept := ⟨"target", decode w, w⟩
  have hkeep : keep? "a" a = some k := by
    have hname : mayStay ("target" : Text) = true ∧ ("target" : Text) ≠ "style" ∧
        ("target" : Text) ∉ linkAttributes ∧ ("target" : Text) ∉ resourceAttributes := by decide
    have hplain : keep? "a" a = some ⟨"target", decode w, guardBacktick (respell w)⟩ :=
      keep?_plain hname.1 hname.2.1 hname.2.2.1 hname.2.2.2
    rwa [hw] at hplain
  have htab : opensNewTab [k] = false := by
    rw [opensNewTab, List.any_cons, hblank, Bool.and_false]
    rfl
  have hopens : Opens policy "a" [a] [k] := by
    refine ⟨by decide, by cases policy <;> decide, fun e => absurd e (by decide), ?_⟩
    rw [List.filterMap_cons_some hkeep, List.filterMap_nil, protectLink, htab, Bool.and_false,
      if_neg Bool.false_ne_true]
  have hregular : (Token.startTag "a" [a] false).Regular :=
    ⟨fun b hb => List.mem_singleton.1 hb ▸ (by decide : Text.lower "target" = "target"),
      by simp⟩
  let ps : List Piece := [.opening "a" [k], .closing "a"]
  have hnested : Nested [] ps := ⟨[], rfl, rfl⟩
  have hpieces : ∀ p ∈ ps, p.Legible ∧ p.Fixed policy := by
    intro p hp
    rcases List.mem_cons.1 hp with rfl | hp
    · have hraw : rawOf "a" = none := by decide
      exact ⟨hopens.legible hregular, hraw, openElement_of_opens hopens hraw⟩
    · obtain rfl := List.mem_singleton.1 hp
      exact ⟨show isTagName "a" = true by decide, trivial⟩
  have hsame : sanitize policy (written ps) = written ps :=
    (sanitize_of_ne h _).trans (rewritten_written hnested hpieces)
  have htags : tags (written ps) = .startTag "a" [a] false :: reread none [.closing "a"] :=
    tags_written_of_nested hnested fun p hp => (hpieces p hp).1
  have hmem : .startTag "a" [a] false ∈ tags (written ps) := htags ▸ List.mem_cons_self
  exact ⟨written ps, hsame.symm ▸ (List.mem_filter.1 hmem).1⟩

/-- The links that open a new tab are protected for every reader whose further names stand for no part of
    `_blank`; for a reader with a name for a part of it they are not. -/
theorem protectsNewTabs_iff (h : policy ≠ .trustedCode) :
    (∀ table, SparesTarget table → ProtectsNewTabs policy table) ∧
      ∀ table : ReferenceTable, ProtectsNewTabs policy table.entries ↔ SparesTarget table.entries := by
  have sufficient (table : List NamedReference) (hfree : SparesTarget table) :
      ProtectsNewTabs policy table := by
    intro s t ht
    have hs : sanitize policy s = sanitizeUntrusted policy s := sanitize_of_ne h s
    rw [hs] at ht
    cases t with
    | startTag tag l selfClosing =>
      rcases tags_sanitizeUntrusted (mem_tags ht rfl) with ⟨_, e⟩ | ⟨_, _, _, hopens, e⟩
      · cases e
      · cases e
        exact protected_of_opens hfree hopens false
    | text _ => trivial
    | rawText _ => trivial
    | endTag _ => trivial
    | comment _ => trivial
    | bogus => trivial
  refine ⟨sufficient, fun table => ⟨fun hall e he hin => ?_, sufficient table.entries⟩⟩
  obtain ⟨w, hw, hblank, htab⟩ := exists_overlooked table he hin
  obtain ⟨s, hs⟩ := exists_unprotected h hw hblank
  have hrel := hall s _ hs rfl ⟨_, List.mem_singleton_self _, rfl, htab⟩
  exact absurd hrel (by simp)

end

theorem protectsNewTabs_copyright :
    (Policy.richContent ≠ .trustedCode ∧ SparesTarget [⟨"copy", "©", true⟩] ∧
      .startTag "a" [⟨"target", some ("_BLaNK" : Text)⟩, ⟨"rel", some ("noopener noreferrer" : Text)⟩]
        false ∈ tokens (sanitize .richContent "<A REL=opener target='_BL&#97NK' rel=x>&copy;</a>")) ∧
    (Token.startTag "a"
      [⟨"target", some ("_BLaNK" : Text)⟩, ⟨"rel", some ("noopener noreferrer" : Text)⟩] false).Protected
      [⟨"copy", "©", true⟩] := by
  have hfree : SparesTarget [⟨"copy", "©", true⟩] := by
    unfold SparesTarget
    decide
  have hm : .startTag "a"
      [⟨"target", some ("_BLaNK" : Text)⟩, ⟨"rel", some ("noopener noreferrer" : Text)⟩] false ∈
      tokens (sanitize .richContent "<A REL=opener target='_BL&#97NK' rel=x>&copy;</a>") := by
    decide +kernel
  exact ⟨⟨by decide, hfree, hm⟩, (protectsNewTabs_iff (by decide)).1 _ hfree _ _ hm⟩

/-- A reader that knows the name of the low line follows this link into a new tab. -/
theorem not_protected_lowLine :
    .startTag "a" [⟨"target", some ("&lowbar;blank" : Text)⟩] false ∈
        tokens (sanitize .richContent "<a target=\"&lowbar;blank\">x</a>") ∧
      ¬ (Token.startTag "a" [⟨"target", some ("&lowbar;blank" : Text)⟩] false).Protected
        [⟨"lowbar", "_", true⟩] := by
  refine ⟨by decide +kernel, fun h => ?_⟩
  have htab : Text.sameIgnoringCase (decodeWith [⟨"lowbar", "_", true⟩] "&lowbar;blank") "_blank" =
      true := by decide +kernel
  have hrel := h rfl ⟨_, List.mem_singleton_self _, rfl, htab⟩
  exact absurd hrel (by decide)

end Folio.Markup
