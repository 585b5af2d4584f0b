import Folio.Proofs.Sanitized

set_option autoImplicit false

/-!
# Which of the written tags are read back

The sanitizer closes what it opens, in order. A reader sees the same tags as long as no tag is written
between the start tag of a raw-text element and its end tag, since everything there is raw text to it.
The reader of the untrusted markup goes by the same rule, so nothing can come to stand there, unless
the start tag of the markup closed itself: then the reader did not look for raw text, but the start tag
is written without its slash.
-/
namespace Folio.Markup

def Piece.tag? : Piece → Option Token
  | .text _ => none
  | .opening tag l => some (.startTag tag (l.map Kept.attribute) false)
  | .closing tag => some (.endTag tag)

def writtenTags (ps : List Piece) : List Token := ps.filterMap Piece.tag?

/-- Every end tag closes the innermost element that stands open, and nothing stays open. -/
def isBalanced : List Text → List Token → Bool
  | opened, [] => opened.isEmpty
  | opened, .startTag tag _ _ :: ts => isBalanced (push tag opened) ts
  | [], .endTag _ :: _ => false
  | innermost :: opened, .endTag tag :: ts => tag = innermost && isBalanced opened ts
  | opened, _ :: ts => isBalanced opened ts

def firstTag? : List Piece → Option Piece
  | [] => none
  | .text _ :: ps => firstTag? ps
  | p :: _ => some p

/-- No tag is written into an element of raw text. -/
def Exposed : List Piece → Prop
  | [] => True
  | .opening tag _ :: ps => (∀ name ∈ rawOf tag, firstTag? ps = some (.closing name)) ∧ Exposed ps
  | _ :: ps => Exposed ps

theorem isBalanced_filter (opened : List Text) (ts : List Token) :
    isBalanced opened (ts.filter Token.isTag) = isBalanced opened ts := by
  induction ts generalizing opened with
  | nil => rfl
  | cons t ts ih =>
    cases t with
    | text s => exact ih opened
    | rawText s => exact ih opened
    | startTag tag l selfClosing => exact ih (push tag opened)
    | endTag tag =>
      cases opened with
      | nil => rfl
      | cons innermost opened => exact congrArg (decide (tag = innermost) && ·) (ih opened)
    | comment s => exact ih opened
    | bogus => exact ih opened

theorem isBalanced_writtenTags {opened : List Text} {ps : List Piece} (h : Nested opened ps) :
    isBalanced opened (writtenTags ps) = true := by
  induction ps generalizing opened with
  | nil =>
    obtain rfl : opened = [] := h
    rfl
  | cons p ps ih =>
    cases p with
    | text w => exact ih h
    | opening tag l => exact ih h
    | closing tag =>
      obtain ⟨rest, rfl, h⟩ := h
      have hrest := ih h
      simpa [writtenTags, Piece.tag?, isBalanced] using hrest

theorem length_reread (raw : Option Text) (ps : List Piece) :
    (reread raw ps).length ≤ (writtenTags ps).length := by
  induction ps generalizing raw with
  | nil => cases raw <;> exact Nat.le_refl 0
  | cons p ps ih =>
    cases raw with
    | none =>
      cases p with
      | text w => exact ih none
      | opening tag l => exact Nat.succ_le_succ (ih (rawOf tag))
      | closing tag => exact Nat.succ_le_succ (ih none)
    | some name =>
      cases p with
      | text w => exact ih (some name)
      | opening tag l => exact Nat.le_succ_of_le (ih (some name))
      | closing tag =>
        rw [reread]
        split
        · exact Nat.succ_le_succ (ih none)
        · exact Nat.le_succ_of_le (ih (some name))

/-- Within a raw-text element that is closed all tags are read if the first one is its end tag. -/
theorem reread_some_eq_iff {name : Text} {opened : List Text} {ps : List Piece}
    (hn : Nested opened ps) (hm : name ∈ opened) :
    reread (some name) ps = writtenTags ps ↔
      firstTag? ps = some (.closing name) ∧ reread none ps = writtenTags ps := by
  -- a tag that is passed over leaves too few
  have short (raw : Option Text) (qs : List Piece) (t : Token) :
      reread raw qs ≠ t :: writtenTags qs := by
    intro e
    have hle := length_reread raw qs
    rw [e, List.length_cons] at hle
    omega
  induction ps with
  | nil =>
    obtain rfl : opened = [] := hn
    simp at hm
  | cons p ps ih =>
    cases p with
    | text w => exact ih hn
    | opening tag l =>
      constructor
      · intro e
        exact absurd e (short (some name) ps _)
      · rintro ⟨e, _⟩
        cases e
    | closing tag =>
      have hinside : reread (some name) (.closing tag :: ps) =
          if name = tag then .endTag tag :: reread none ps else reread (some name) ps := by
        rw [reread]
      by_cases e : name = tag
      · subst e
        rw [hinside, if_pos rfl]
        exact ⟨fun h => ⟨rfl, h⟩, fun h => h.2⟩
      · rw [hinside, if_neg e]
        constructor
        · intro h
          exact absurd h (short (some name) ps _)
        · rintro ⟨h, _⟩
          obtain rfl : tag = name := by simpa [firstTag?] using h
          exact absurd rfl e

/-- Every written tag is read back if and only if none is written into an element of raw text. -/
theorem reread_eq_iff {opened : List Text} {ps : List Piece} (hn : Nested opened ps) :
    reread none ps = writtenTags ps ↔ Exposed ps := by
  induction ps generalizing opened with
  | nil => exact ⟨fun _ => trivial, fun _ => rfl⟩
  | cons p ps ih =>
    cases p with
    | text w => exact ih hn
    | closing tag =>
      obtain ⟨rest, rfl, hn⟩ := hn
      have hwritten : writtenTags (.closing tag :: ps) = .endTag tag :: writtenTags ps := rfl
      rw [reread, hwritten, List.cons.injEq]
      exact (and_iff_right rfl).trans (ih hn)
    | opening tag l =>
      have hwritten : writtenTags (.opening tag l :: ps) =
          .startTag tag (l.map Kept.attribute) false :: writtenTags ps := rfl
      rw [reread, hwritten, List.cons.injEq, Exposed, ← ih hn, and_iff_right rfl]
      cases hraw : rawOf tag with
      | none => simp
      | some name =>
        obtain ⟨rfl, hvoid⟩ := not_void_of_rawOf hraw
        have hpush : Nested (push name opened) ps := hn
        have hinside := reread_some_eq_iff hpush (mem_push_self hvoid opened)
        simpa using hinside

def Shut (name : Text) : List Token → Prop
  | [] => True
  | .rawText _ :: ts => Shut name ts
  | .endTag tag :: _ => tag = name
  | .bogus :: ts => ts = []
  | _ => False

def Parted : List Token → Prop
  | [] => True
  | t :: ts => (∀ name ∈ Lexer.rawAfter t, Shut name ts) ∧ Parted ts

namespace Lexer

theorem nameChar_of_lower {c : Char} (h : isTagChar c.toLower = true) : isNameChar c = true := by
  by_cases hc : c.toNat < 128
  · exact Text.forall_ascii (P := fun c => isTagChar c.toLower = true → isNameChar c = true)
      (by decide) hc h
  · rw [Text.toLower_of_not_ascii hc] at h
    exact (isTagChar_spec h).1

theorem isAlpha_of_lower {c : Char} (h : c.toLower.isLower = true) : c.isAlpha = true := by
  by_cases hc : c.toNat < 128
  · exact Text.forall_ascii (P := fun c => c.toLower.isLower = true → c.isAlpha = true)
      (by decide) hc h
  · rw [Text.toLower_of_not_ascii hc] at h
    exact Text.isAlpha_of_isLower h

theorem startsWithLetter_of_lower {q : Text} (h : isTagName (Text.lower q) = true) (u : Text) :
    startsWithLetter (q ++ u) = true := by
  obtain ⟨a, t, ha, hlower, _⟩ := isTagName_iff.1 h
  cases q with
  | nil => cases ha
  | cons d q =>
    obtain ⟨rfl, _⟩ := List.cons.inj ha
    exact isAlpha_of_lower hlower

theorem next_of_closes {name : Text} (hn : isTagName name = true) {c : Char} {s : Text}
    (h : closes name (c :: s) = true) :
    next c s = (.bogus, []) ∨ ∃ r, next c s = (.endTag name, r) := by
  obtain ⟨q, u, rfl, hs, hu⟩ := exists_of_closes h
  obtain ⟨rfl, rfl⟩ := List.cons.inj hs
  have hq : ∀ d ∈ q, isNameChar d = true := fun d hd =>
    nameChar_of_lower (isTagChar_of_isTagName hn _ (List.mem_map_of_mem hd))
  have hletter := startsWithLetter_of_lower hn u
  have htake : (q ++ u).takeWhile isNameChar = q := (Text.span_append hq hu).1
  rw [next, opensMarkup, hletter, Bool.true_or, if_pos (by decide), markup, if_pos hletter, endTag,
    htake]
  cases Text.cut? ">" ((q ++ u).dropWhile isNameChar) with
  | none => exact .inl rfl
  | some found => exact .inr ⟨found.2, rfl⟩

theorem rawBody_closes (name s : Text) :
    (rawBody name s).2 = [] ∨ closes name (rawBody name s).2 = true := by
  induction s with
  | nil => exact .inl rfl
  | cons c s ih =>
    rw [rawBody]
    split
    · exact .inr ‹_›
    · exact ih

end Lexer

theorem shut_of_closes {name : Text} (hn : isTagName name = true) {s : Text}
    (h : s = [] ∨ Lexer.closes name s = true) : Shut name (tokens s) := by
  cases s with
  | nil => simp [tokens, lex, lexFrom, Shut]
  | cons c s =>
    have hclose : Lexer.closes name (c :: s) = true := h.resolve_left (by simp)
    have htokens := tokensFrom_cons none c s
    rw [tokens, lex, htokens, Lexer.nextIn]
    rcases Lexer.next_of_closes hn hclose with e | ⟨r, e⟩
    · rw [e]
      simp [Shut, lexFrom]
    · rw [e]
      rfl

theorem shut_lexFrom {name : Text} (h : name ∈ rawTextElements) (s : Text) :
    Shut name ((lexFrom (some name) s).map Lexeme.token) := by
  have hn : isTagName name = true := by
    revert h
    exact (by decide : ∀ n ∈ rawTextElements, isTagName n = true) name
  cases s with
  | nil => simp [lexFrom, Shut]
  | cons c s =>
    have hbody := Lexer.rawText_append name (c :: s)
    have hrest : (Lexer.rawText name (c :: s)).2 = [] ∨
        Lexer.closes name (Lexer.rawText name (c :: s)).2 = true := by
      unfold Lexer.rawText
      split
      · exact .inl rfl
      · exact Lexer.rawBody_closes name (c :: s)
    rw [tokensFrom_cons, Lexer.nextIn]
    generalize Lexer.rawText name (c :: s) = found at hbody hrest
    obtain ⟨body, r⟩ := found
    -- an end tag that follows at once is read without any raw text before it
    cases body with
    | nil =>
      obtain rfl : r = c :: s := hbody
      have hshut := shut_of_closes hn hrest
      rwa [tokens, lex, tokensFrom_cons] at hshut
    | cons b body => exact shut_of_closes hn hrest

theorem parted_lexFrom (raw : Option Text) (s : Text) :
    Parted ((lexFrom raw s).map Lexeme.token) := by
  fun_induction lexFrom raw s with
  | case1 => trivial
  | case2 raw c s ih =>
    refine ⟨?_, ih⟩
    intro name hname
    rw [Option.mem_def.1 hname]
    exact shut_lexFrom (Lexer.exists_of_rawAfter hname).1 _

theorem parted_tokens (s : Text) : Parted (tokens s) := parted_lexFrom none s

theorem exposed_closing {ps : List Piece} (h : Exposed ps) (closed : List Text) :
    Exposed (closed.map Piece.closing ++ ps) := by
  induction closed with
  | nil => exact h
  | cons t closed ih => exact ih

def Token.closesRaw : Token → Bool
  | .startTag tag _ true => rawTextElements.contains tag
  | _ => false

section

variable [Link.HostReader]

theorem dropping_of_mem_step {policy : Policy} {p : Progress} {t : Token} {x : Piece}
    (h : x ∈ (step policy p t).1) : (step policy p t).2.dropping = none := by
  unfold step at h ⊢
  split
  · rename_i tag depth hd
    simp [hd] at h
  · rename_i hd
    rw [hd] at h
    cases t with
    | text s => exact hd
    | rawText s => exact hd
    | startTag tag attributes selfClosing =>
      dsimp only at h ⊢
      unfold openElement at h ⊢
      dsimp only at h ⊢
      split at h
      · simp at h
      · rename_i hkept
        split at h
        · simp at h
        · rename_i hallowed
          split at h
          · simp at h
          · rename_i hframe
            rw [if_neg hkept, if_neg hallowed, if_neg hframe]
            dsimp only
            split <;> exact hd
    | endTag tag =>
      dsimp only
      unfold closeElement
      split <;> exact hd
    | comment s => exact hd
    | bogus => exact hd

theorem firstTag?_of_shut {policy : Policy} {name : Text} {ts : List Token} (h : Shut name ts)
    (opened : List Text) :
    firstTag? (pieces policy ⟨name :: opened, none⟩ ts) = some (.closing name) := by
  induction ts with
  | nil => rfl
  | cons t ts ih =>
    cases t with
    | text s => exact h.elim
    | rawText s => exact ih h
    | startTag tag l selfClosing => exact h.elim
    | endTag tag =>
      obtain rfl : tag = name := h
      simp [pieces, step, closeElement, closeTo?, firstTag?]
    | comment s => exact h.elim
    | bogus =>
      obtain rfl : ts = [] := h
      rfl

theorem exposed_pieces {policy : Policy} {ts : List Token} (hp : Parted ts)
    (hc : ∀ t ∈ ts, t.closesRaw = false) (p : Progress) : Exposed (pieces policy p ts) := by
  induction ts generalizing p with
  | nil =>
    have hnil : Exposed [] := trivial
    have h := exposed_closing hnil p.opened
    rwa [List.append_nil] at h
  | cons t ts ih =>
    obtain ⟨hshut, hp⟩ := hp
    obtain ⟨ht, hc⟩ := List.forall_mem_cons.1 hc
    have hrest := ih hp hc (step policy p t).2
    have hdropping {x : Piece} : x ∈ (step policy p t).1 → (step policy p t).2.dropping = none :=
      dropping_of_mem_step
    have hs := steps_step policy p t
    rw [pieces]
    generalize step policy p t = r at hs hrest hdropping
    cases hs with
    | silent _ => exact hrest
    | text _ => exact hrest
    | closing _ _ => exact exposed_closing hrest _
    | @opening tag attributes selfClosing l q e _ hq =>
      refine ⟨?_, hrest⟩
      intro name hraw
      obtain ⟨rfl, hvoid⟩ := not_void_of_rawOf hraw
      subst e
      -- the reader of the markup looked for raw text too, since the start tag did not close itself
      have hopen : selfClosing = false := by
        cases selfClosing with
        | false => rfl
        | true =>
          rw [Token.closesRaw] at ht
          rw [Option.mem_def, rawOf, ht, if_neg Bool.false_ne_true] at hraw
          cases hraw
      subst hopen
      obtain ⟨opened, dropping⟩ := q
      obtain rfl : dropping = none := hdropping List.mem_cons_self
      have hpush : opened = push name p.opened := hq
      rw [push, hvoid, if_neg Bool.false_ne_true] at hpush
      subst hpush
      exact firstTag?_of_shut (hshut name hraw) p.opened

/-- Sanitized markup is read back as exactly the tags that were written, and these are balanced. -/
def Rereads (policy : Policy) (s : Text) : Prop :=
  tags (sanitize policy s) = writtenTags (pieces policy .start (tokens s)) ∧
    isBalanced [] (tokens (sanitize policy s)) = true

/-- The written tags are read back if none was written into an element of raw text, and only then;
    so they are read back whenever no start tag for raw text closes itself. -/
theorem rereads_iff_exposed {policy : Policy} (h : policy ≠ .trustedCode) (s : Text) :
    (Rereads policy s ↔ Exposed (pieces policy .start (tokens s))) ∧
      ((∀ t ∈ tokens s, t.closesRaw = false) → Rereads policy s) := by
  have hnested : Nested [] (pieces policy .start (tokens s)) := nested_pieces policy .start _
  have htags : tags (sanitize policy s) = reread none (pieces policy .start (tokens s)) := by
    rw [sanitize_of_ne h]
    exact tags_written_of_nested hnested fun x hx => (from_sanitized policy s x hx).1
  have hiff : Rereads policy s ↔ Exposed (pieces policy .start (tokens s)) := by
    rw [← reread_eq_iff hnested, ← htags]
    refine ⟨And.left, fun e => ⟨e, ?_⟩⟩
    have hbalanced := isBalanced_filter [] (tokens (sanitize policy s))
    rw [← hbalanced]
    exact (congrArg (isBalanced []) e).trans (isBalanced_writtenTags hnested)
  exact ⟨hiff, fun hc => hiff.2 (exposed_pieces (parted_tokens s) hc .start)⟩

end

theorem rereads_iff_exposed_frame :
    Policy.richContent ≠ .trustedCode ∧
      Rereads .richContent "<p><iframe src='https://www.youtube.com/embed/x'><b></iframe><i>y</p>" :=
  ⟨by decide, (rereads_iff_exposed (by decide) _).2 (by decide +kernel)⟩

/-- A frame that closes itself takes in what follows it. -/
theorem not_rereads_closed_frame :
    ¬ Rereads .richContent "<iframe src=\"https://www.youtube.com/embed/x\"/><b>y</b>" := by
  rintro ⟨h, _⟩
  revert h
  decide +kernel

end Folio.Markup
