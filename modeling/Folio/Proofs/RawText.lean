import Folio.Proofs.Octets

set_option autoImplicit false

/-!
# Raw text and its end tag

Raw text stands behind the start tag of its element and goes on to the first end tag of the element, or to
the end if there is none. The search for the end tag goes from one `</` to the next. It resumes behind the
slash of one that closes nothing, and as no end tag begins with a slash, it passes over none.
-/
namespace Folio.Markup.Octets

variable {bytes : Bytes} {name : Text}

theorem go_of_lt_advance {go : Nat → Bool} {i k : Nat} (hi : i ≤ k) (hk : k < advance bytes go i) :
    go k = true := by
  fun_induction advance bytes go i with
  | case1 i h ih =>
    by_cases hik : i = k
    · exact hik ▸ h.2
    · exact ih (by omega) hk
  | case2 i _ => omega

theorem not_go_advance {go : Nat → Bool} {i : Nat} (h : advance bytes go i < bytes.length) :
    go (advance bytes go i) = false := by
  fun_induction advance bytes go i with
  | case1 i _ ih => exact ih h
  | case2 i hstop => simpa [h] using hstop

theorem not_needle_of_not_isPrefixOf {needle : Bytes} {k : Nat}
    (h : (!needle.isPrefixOf (bytes.drop k)) = true) : ¬ needle <+: bytes.drop k := by
  intro hk
  rw [List.isPrefixOf_iff_prefix.2 hk] at h
  cases h

theorem first_of_find? {needle : Bytes} {i j : Nat} (h : find? bytes needle i = some j) :
    needle <+: bytes.drop j ∧ ∀ k, i ≤ k → k < j → ¬ needle <+: bytes.drop k := by
  unfold find? at h
  dsimp only at h
  split at h
  · rename_i hlt
    obtain rfl := Option.some.inj h
    refine ⟨?_, fun k hi hk => ?_⟩
    · simpa using not_go_advance hlt
    · exact not_needle_of_not_isPrefixOf (go_of_lt_advance hi hk)
  · cases h

theorem absent_of_find? {needle : Bytes} (hneedle : needle ≠ []) {i : Nat}
    (h : find? bytes needle i = none) : ∀ k, i ≤ k → ¬ needle <+: bytes.drop k := by
  intro k hi hk
  have hlt : k < bytes.length := by
    by_contra hge
    rw [List.drop_eq_nil_of_le (by omega), List.prefix_nil] at hk
    exact hneedle hk
  unfold find? at h
  dsimp only at h
  split at h
  · cases h
  · rename_i hend
    have hgo := go_of_lt_advance hi (hlt.trans_le (Nat.le_of_not_lt hend))
    exact not_needle_of_not_isPrefixOf hgo hk

/-- An end tag of an element begins at a position: `</`, the name in any letter case, and behind it white
    space, `>`, `/` or the end. -/
def EndTagAt (bytes : Bytes) (name : Text) (i : Nat) : Prop :=
  ∃ w r, bytes.drop i = encode "</" ++ (w ++ r) ∧ w.map lowerOctet = (encode name).map lowerOctet ∧
    ∀ b ∈ r.head?, isSpace b = true ∨ b = octet '>' ∨ b = octet '/'

theorem EndTagAt.opens {i : Nat} (h : EndTagAt bytes name i) : encode "</" <+: bytes.drop i := by
  obtain ⟨w, r, hdrop, _⟩ := h
  exact ⟨w ++ r, hdrop.symm⟩

theorem closesAt_iff {i : Nat} (h : encode "</" <+: bytes.drop i) :
    closesAt bytes name i = true ↔ EndTagAt bytes name i := by
  obtain ⟨t, ht⟩ := h
  have hrest : bytes.drop (i + 2) = t := by
    rw [← List.drop_drop, ← ht]
    rfl
  have hlength : bytes.length = i + 2 + t.length := by
    have hlen := congrArg List.length ht
    rw [List.length_append, List.length_drop, show (encode "</").length = 2 from rfl] at hlen
    omega
  have hafter (n : Nat) : bytes[i + 2 + n]? = (t.drop n).head? := by
    rw [← hrest, List.drop_drop, List.head?_drop]
  have hends (r : Bytes) : (r.head?.all fun b => isSpace b || decide (b = octet '>') ||
      decide (b = octet '/')) = true ↔ ∀ b ∈ r.head?, isSpace b = true ∨ b = octet '>' ∨ b = octet '/' := by
    cases r <;> simp [or_assoc]
  rw [closesAt, hrest, hafter, hlength]
  simp only [Bool.and_eq_true, decide_eq_true_eq, hends]
  constructor
  · rintro ⟨⟨_, hname⟩, hend⟩
    exact ⟨_, _, by rw [← ht, List.take_append_drop], hname, hend⟩
  · rintro ⟨w, r, hdrop, hname, hend⟩
    have hwr : t = w ++ r := List.append_cancel_left (ht.trans hdrop)
    have hw : w.length = (encode name).length := by
      rw [← List.length_map, hname, List.length_map]
    rw [hwr, ← hw, List.take_left, List.drop_left, List.length_append]
    exact ⟨⟨by omega, hname⟩, hend⟩

theorem not_endTagAt_slash {i : Nat} (h : encode "</" <+: bytes.drop i) : ¬ EndTagAt bytes name (i + 1) := by
  intro hend
  obtain ⟨t, ht⟩ := h
  obtain ⟨u, hu⟩ := hend.opens
  rw [← List.drop_drop, ← ht] at hu
  have hslash : octet '<' = octet '/' := (List.cons.inj hu).1
  exact absurd hslash (by decide)

/-- What a search from a position on should find: the first end tag of an element, if there is one. -/
def FirstEnd (bytes : Bytes) (name : Text) (i : Nat) : Option Nat → Prop
  | some j => i ≤ j ∧ EndTagAt bytes name j ∧ ∀ k, i ≤ k → k < j → ¬ EndTagAt bytes name k
  | none => ∀ k, i ≤ k → ¬ EndTagAt bytes name k

theorem FirstEnd.unique {i : Nat} {found found' : Option Nat} (h : FirstEnd bytes name i found)
    (h' : FirstEnd bytes name i found') : found = found' := by
  cases found with
  | none =>
    cases found' with
    | none => rfl
    | some j => exact absurd h'.2.1 (h j h'.1)
  | some j =>
    cases found' with
    | none => exact absurd h.2.1 (h' j h.1)
    | some k =>
      obtain ⟨hj, hend, hfirst⟩ := h
      obtain ⟨hk, hend', hfirst'⟩ := h'
      rcases Nat.lt_trichotomy j k with hlt | rfl | hgt
      · exact absurd hend (hfirst' j hj hlt)
      · rfl
      · exact absurd hend' (hfirst k hk hgt)

theorem FirstEnd.resumed {i i' : Nat} (hle : i ≤ i')
    (hpassed : ∀ k, i ≤ k → k < i' → ¬ EndTagAt bytes name k) {found : Option Nat}
    (h : FirstEnd bytes name i' found) : FirstEnd bytes name i found := by
  cases found with
  | none =>
    intro k hk
    rcases Nat.lt_or_ge k i' with hlt | hge
    · exact hpassed k hk hlt
    · exact h k hge
  | some j =>
    obtain ⟨hj, hend, hfirst⟩ := h
    refine ⟨hle.trans hj, hend, fun k hk hkj => ?_⟩
    rcases Nat.lt_or_ge k i' with hlt | hge
    · exact hpassed k hk hlt
    · exact hfirst k hge hkj

theorem firstEnd_findEndTag? (bytes : Bytes) (name : Text) (i : Nat) :
    FirstEnd bytes name i (findEndTag? bytes name i) := by
  have hopen : encode "</" ≠ [] := by decide
  -- each round passes over the text before a `</` and, where that closes nothing, over it as well
  fun_induction findEndTag? bytes name i with
  | case1 i hnone => exact fun k hk hend => absent_of_find? hopen hnone k hk hend.opens
  | case2 i j hj hcloses =>
    obtain ⟨hneedle, hfirst⟩ := first_of_find? hj
    exact ⟨(of_find? hj).1, (closesAt_iff hneedle).1 hcloses,
      fun k hi hk hend => hfirst k hi hk hend.opens⟩
  | case3 i j hj hcloses ih =>
    obtain ⟨hneedle, hfirst⟩ := first_of_find? hj
    have hle := (of_find? hj).1
    refine ih.resumed (by omega) fun k hi hk hend => ?_
    rcases Nat.lt_trichotomy k j with hlt | rfl | hgt
    · exact hfirst k hi hlt hend.opens
    · exact hcloses ((closesAt_iff hneedle).2 hend)
    · obtain rfl : k = j + 1 := by omega
      exact not_endTagAt_slash hneedle hend

theorem findEndTag?_eq_iff {i : Nat} {found : Option Nat} :
    findEndTag? bytes name i = found ↔ FirstEnd bytes name i found :=
  ⟨fun h => h ▸ firstEnd_findEndTag? bytes name i, (firstEnd_findEndTag? bytes name i).unique⟩

/-- No end tag of an element begins between two positions, and at the second one does or all ends. -/
structure RawSpan (bytes : Bytes) (name : Text) (start stop : Nat) : Prop where
  inside : ∀ i, start ≤ i → i < stop → ¬ EndTagAt bytes name i
  ends : stop = bytes.length ∨ EndTagAt bytes name stop

theorem rawSpan_rawEnd (bytes : Bytes) (hn : name ≠ "plaintext") (i : Nat) :
    RawSpan bytes name i (rawEnd bytes name i) := by
  have hfirst := firstEnd_findEndTag? bytes name i
  rw [rawEnd, if_neg hn]
  cases h : findEndTag? bytes name i with
  | none =>
    rw [h] at hfirst
    exact ⟨fun k hk _ => hfirst k hk, .inl rfl⟩
  | some j =>
    rw [h] at hfirst
    exact ⟨hfirst.2.2, .inr hfirst.2.1⟩

def isRawText : Token → Bool
  | .rawText _ => true
  | _ => false

section

variable {start : Nat} {x : Spanned}

theorem isRawText_startTag (h : startTag bytes start = .ok x) : isRawText x.token = false := by
  unfold startTag at h
  dsimp only at h
  split at h
  · cases h
  · split at h
    · obtain rfl := Except.ok.inj h
      rfl
    · cases h
    · obtain rfl := Except.ok.inj h
      rfl

theorem isRawText_endTag (h : endTag bytes start = .ok x) : isRawText x.token = false := by
  unfold endTag at h
  dsimp only at h
  split at h
  · cases h
  · split at h
    · obtain rfl := Except.ok.inj h
      rfl
    · obtain rfl := Except.ok.inj h
      rfl

theorem isRawText_comment (h : comment bytes start = .ok x) : isRawText x.token = false := by
  unfold comment at h
  split at h
  · obtain rfl := Except.ok.inj h
    rfl
  · obtain ⟨body, _, rfl⟩ := exists_of_map h
    rfl

theorem isRawText_bogus : isRawText (bogus bytes start).token = false := by
  unfold bogus
  split
  · rfl
  · rfl

theorem isRawText_markup (h : markup bytes start = .ok x) : isRawText x.token = false := by
  unfold markup at h
  split at h
  · exact isRawText_comment h
  · split at h
    · exact Except.ok.inj h ▸ isRawText_bogus
    · split at h
      · split at h
        · exact isRawText_endTag h
        · exact Except.ok.inj h ▸ isRawText_bogus
      · exact isRawText_startTag h

theorem isRawText_token (h : token bytes start = .ok x) : isRawText x.token = false := by
  unfold token at h
  split at h
  · exact isRawText_markup h
  · obtain ⟨s, _, rfl⟩ := exists_of_map h
    rfl

theorem next_cases {raw : Option Text} (h : next bytes raw start = .ok (some x)) :
    (isRawText x.token = false ∧ ∀ name ∈ raw, rawEnd bytes name start = start) ∨
      ∃ name w, raw = some name ∧ rawEnd bytes name start ≠ start ∧
        slice bytes start (rawEnd bytes name start) = .ok w ∧
        x = ⟨.rawText w, start, rawEnd bytes name start⟩ := by
  unfold next at h
  split at h
  · cases raw with
    | none =>
      obtain ⟨y, hy, e⟩ := exists_of_map h
      exact .inl ⟨Option.some.inj e ▸ isRawText_token hy, by simp⟩
    | some name =>
      dsimp only at h
      split at h
      · rename_i hempty
        obtain ⟨y, hy, e⟩ := exists_of_map h
        exact .inl ⟨Option.some.inj e ▸ isRawText_token hy, by simpa using hempty⟩
      · rename_i hne
        obtain ⟨w, hw, e⟩ := exists_of_map h
        exact .inr ⟨name, w, rfl, hne, hw, (Option.some.inj e).symm⟩
  · cases h

theorem length_le_of_next {raw : Option Text} (h : next bytes raw start = .ok none) :
    bytes.length ≤ start := by
  have hsome {α : Type} {f : α → Spanned} {a : Except Fault α} :
      a.map (fun y => some (f y)) ≠ .ok none := by
    intro h
    obtain ⟨_, _, e⟩ := exists_of_map h
    cases e
  unfold next at h
  split at h
  · cases raw with
    | none => exact absurd h hsome
    | some name =>
      dsimp only at h
      split at h
      · exact absurd h hsome
      · exact absurd h hsome
  · omega

end

section

variable {raw : Option Text} {i : Nat} {x : Spanned} {before rest : List Spanned}

theorem lexFrom_nil (h : lexFrom bytes raw i = .ok []) : bytes.length ≤ i := by
  rw [lexFrom] at h
  split at h
  · cases h
  · exact length_le_of_next ‹_›
  · obtain ⟨l, _, e⟩ := exists_of_map h
    cases e

theorem lexFrom_cons (h : lexFrom bytes raw i = .ok (x :: rest)) :
    next bytes raw i = .ok (some x) ∧ lexFrom bytes (Lexer.rawAfter x.token) x.stop = .ok rest := by
  rw [lexFrom] at h
  split at h
  · cases h
  · cases h
  · rename_i y hy
    obtain ⟨l, hl, e⟩ := exists_of_map h
    obtain ⟨rfl, rfl⟩ := List.cons.inj e
    exact ⟨hy, hl⟩

theorem lexFrom_append (h : lexFrom bytes raw i = .ok (before ++ x :: rest)) :
    lexFrom bytes (Lexer.rawAfter x.token) x.stop = .ok rest := by
  induction before generalizing raw i with
  | nil => exact (lexFrom_cons h).2
  | cons y before ih => exact ih (lexFrom_cons h).2

end

/-- Raw text stands right behind the start tag of an element of raw text, goes on to the first end tag of
    that element or, within `plaintext`, to the end, and is missing only where nothing is left for it. -/
structure RawTextEnds (bytes : Bytes) (l : List Spanned) : Prop where
  opened : ∀ before y after w, l = before ++ y :: after → y.token = .rawText w →
    ∃ earlier x name attributes, before = earlier ++ [x] ∧ x.token = .startTag name attributes false ∧
      name ∈ rawTextElements ∧ y.start = x.stop ∧ slice bytes y.start y.stop = .ok w ∧
      (name ≠ "plaintext" → RawSpan bytes name y.start y.stop) ∧
      (name = "plaintext" → y.stop = bytes.length)
  present : ∀ before x after name attributes, l = before ++ x :: after →
    x.token = .startTag name attributes false → name ∈ rawTextElements → x.stop < bytes.length →
    ¬ EndTagAt bytes name x.stop → ∃ y rest w, after = y :: rest ∧ y.token = .rawText w

theorem rawTextEnds_of_lex {l : List Spanned} (h : lex bytes = .ok l) : RawTextEnds bytes l where
  opened := by
    rintro before y after w rfl hy
    rcases List.eq_nil_or_concat' before with rfl | ⟨earlier, x, rfl⟩
    · -- at the very start no element has been opened
      obtain ⟨hother, _⟩ | ⟨name, _, hraw, _⟩ := next_cases (lexFrom_cons h).1
      · rw [hy] at hother
        cases hother
      · cases hraw
    · rw [List.append_assoc] at h
      obtain ⟨hother, _⟩ | ⟨name, w', hraw, _, hslice, rfl⟩ := next_cases (lexFrom_cons (lexFrom_append h)).1
      · rw [hy] at hother
        cases hother
      · obtain rfl := Token.rawText.inj hy
        obtain ⟨hmem, attributes, htoken⟩ := Lexer.exists_of_rawAfter hraw
        exact ⟨earlier, x, name, attributes, rfl, htoken, hmem, rfl, hslice,
          fun hn => rawSpan_rawEnd bytes hn _, fun hn => by rw [rawEnd, if_pos hn]⟩
  present := by
    rintro before x after name attributes rfl htoken hmem hlt hopen
    have hnext := lexFrom_append h
    have hraw : Lexer.rawAfter x.token = some name := by
      rw [htoken, Lexer.rawAfter, if_pos (List.contains_iff_mem.2 hmem)]
    have hne : rawEnd bytes name x.stop ≠ x.stop := by
      intro hstop
      by_cases hn : name = "plaintext"
      · rw [rawEnd, if_pos hn] at hstop
        omega
      · rcases (rawSpan_rawEnd bytes hn x.stop).ends with hend | hend
        · omega
        · exact hopen (hstop ▸ hend)
    cases after with
    | nil => exact absurd (lexFrom_nil hnext) (by omega)
    | cons y rest =>
      obtain ⟨_, hempty⟩ | ⟨_, w, _, _, _, rfl⟩ := next_cases (lexFrom_cons hnext).1
      · exact absurd (hempty name hraw) hne
      · exact ⟨_, rest, w, rfl, rfl⟩

/-- In every text raw text ends at the first end tag of its element, and the search for an end tag finds
    the first one from any position on, for any name. -/
theorem raw_text_ends_first (s : Text) :
    lex (encode s) = .ok ((spans 0 (Markup.lex s)).map Spanned.ofSpan) ∧
      RawTextEnds (encode s) ((spans 0 (Markup.lex s)).map Spanned.ofSpan) ∧
      ∀ name i found, findEndTag? (encode s) name i = found ↔ FirstEnd (encode s) name i found :=
  ⟨lex_encode s, rawTextEnds_of_lex (lex_encode s), fun _ _ _ => findEndTag?_eq_iff⟩

example : tokens "<title><</</titles></title</TITLE\n>x" =
    [.startTag "title" [] false, .rawText "<</</titles></title", .endTag "title", .text "x"] := by
  decide +kernel

end Folio.Markup.Octets
