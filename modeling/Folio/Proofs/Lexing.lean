import Folio.Proofs.Cascade
import Folio.Proofs.Coupling

set_option autoImplicit false

/-!
# What a value leaves open

A lexer for style sheets, as far as comments, quotes, `url(` and brackets go, for texts without escapes.
A rule ends at the brace that closes its block: that is the brace it was written with if the text in the
block closes what it opens. The check of single values does not see to that. Values that are written for
numbers and for plain URLs close what they open; an authored text need not, and then the rule takes in
what comes after it.
-/
namespace Folio.Style

/-- The characters of a word. The null character counts as the one that is put in its place. -/
def isWordChar (c : Char) : Bool :=
  c.isAlphanum || c = '-' || c = '_' || c = '\x00' || 0x80 ≤ c.toNat

def isNewline (c : Char) : Bool := c = '\n' || c = '\r' || c = '\x0c'

inductive Quote where
  | single
  | double
deriving DecidableEq, Repr

namespace Quote

def char : Quote → Char
  | single => '\''
  | double => '"'

def of? : Char → Option Quote
  | '\'' => some single
  | '"' => some double
  | _ => none

end Quote

inductive Bracket where
  | paren
  | square
  | brace
deriving DecidableEq, Repr

namespace Bracket

def opened? : Char → Option Bracket
  | '(' => some paren
  | '[' => some square
  | '{' => some brace
  | _ => none

def closed? : Char → Option Bracket
  | ')' => some paren
  | ']' => some square
  | '}' => some brace
  | _ => none

def close (b : Bracket) : List Bracket → List Bracket
  | [] => []
  | a :: rest => if a = b then rest else a :: rest

end Bracket

inductive Mode where
  /-- A word in small letters, which may be empty, perhaps just after a slash. -/
  | word (w : Text) (slash : Bool)
  /-- A comment, perhaps just after a star. -/
  | comment (star : Bool)
  | quoted (q : Quote)
  /-- The white space after `url(`. -/
  | url
  /-- A target without quotes. -/
  | target
deriving DecidableEq, Repr

namespace Mode

def next : Mode → Char → Mode
  | word w slash, c =>
    if slash && c = '*' then comment false
    else if c = '/' then word [] true
    else if c = '(' && w = "url" then url
    else if isWordChar c then word (w ++ [c.toLower]) false
    else if c = '#' || c = '@' then word [c] false
    else
      match Quote.of? c with
      | some q => quoted q
      | none => word [] false
  | comment star, c => if star && c = '/' then word [] false else comment (c = '*')
  | quoted q, c => if c = q.char || isNewline c then word [] false else quoted q
  | url, c =>
    if Text.isMarkupSpace c then url
    else if c = ')' then word [] false
    else
      match Quote.of? c with
      | some q => quoted q
      | none => target
  | target, c => if c = ')' then word [] false else target

/-- The brackets that are awaited after a character. The parenthesis of `url(` counts as one only before
    a quote. -/
def shift : Mode → Char → List Bracket → List Bracket
  | word w _, c, awaited =>
    match Bracket.opened? c, Bracket.closed? c with
    | some b, _ => if c = '(' && w = "url" then awaited else b :: awaited
    | none, some b => b.close awaited
    | none, none => awaited
  | url, c, awaited => if (Quote.of? c).isSome then .paren :: awaited else awaited
  | _, _, awaited => awaited

def isWord : Mode → Bool
  | word _ _ => true
  | _ => false

end Mode

structure Lexer where
  mode : Mode
  awaited : List Bracket
deriving DecidableEq, Repr

namespace Lexer

def between (awaited : List Bracket) : Lexer := ⟨.word [] false, awaited⟩

def step (l : Lexer) (c : Char) : Lexer := ⟨l.mode.next c, l.mode.shift c l.awaited⟩

def run (l : Lexer) (s : Text) : Lexer := s.foldl step l

/-- Nothing is open. -/
def isIdle (l : Lexer) : Bool := l.mode.isWord && l.awaited.isEmpty

def afterBlock? (l : Lexer) : Text → Option Text
  | [] => none
  | c :: s =>
    if c = '}' ∧ l.awaited ≠ [] ∧ (l.step c).awaited = [] then some s else afterBlock? (l.step c) s

end Lexer

/-- A text leaves nothing open. -/
def Closed (s : Text) : Prop := ((Lexer.between []).run s).isIdle = true

instance (s : Text) : Decidable (Closed s) := inferInstanceAs (Decidable (_ = true))

/-- A rule that starts with a text ends with it, whatever follows. -/
def IsWholeRule (s : Text) : Prop := ∀ rest, (Lexer.between []).afterBlock? (s ++ rest) = some rest

def Rule.body (r : Rule) : Text := r.declarations.flatMap Rule.writeDeclaration

namespace Lexer

theorem run_cons (l : Lexer) (c : Char) (s : Text) : l.run (c :: s) = (l.step c).run s := rfl

theorem run_append (l : Lexer) (s t : Text) : l.run (s ++ t) = (l.run s).run t := List.foldl_append

def above (l : Lexer) (below : List Bracket) : Lexer := ⟨l.mode, l.awaited ++ .brace :: below⟩

theorem closed?_brace {c : Char} (h : Bracket.closed? c = some .brace) : c = '}' := by
  unfold Bracket.closed? at h
  split at h <;> first | rfl | exact nomatch h

theorem close_append {b : Bracket} (h : b ≠ .brace) (awaited below : List Bracket) :
    b.close (awaited ++ .brace :: below) = b.close awaited ++ .brace :: below := by
  cases awaited with
  | nil => exact if_neg (Ne.symm h)
  | cons a awaited =>
    rw [List.cons_append, Bracket.close, Bracket.close]
    split <;> rfl

theorem shift_append {c : Char} (hc : c ≠ '}') (m : Mode) (awaited below : List Bracket) :
    m.shift c (awaited ++ .brace :: below) = m.shift c awaited ++ .brace :: below := by
  cases m with
  | word w slash =>
    simp only [Mode.shift]
    cases Bracket.opened? c with
    | some b =>
      dsimp only
      split <;> rfl
    | none =>
      cases hclosed : Bracket.closed? c with
      | some b => exact close_append (fun hb => hc (closed?_brace (hb ▸ hclosed))) awaited below
      | none => rfl
  | url =>
    simp only [Mode.shift]
    split <;> rfl
  | _ => rfl

theorem run_above {s : Text} (hs : '}' ∉ s) (l : Lexer) (below : List Bracket) :
    (l.above below).run s = (l.run s).above below := by
  induction s generalizing l with
  | nil => rfl
  | cons c s ih =>
    obtain ⟨hc, hs⟩ := List.ne_and_not_mem_of_not_mem_cons hs
    have hstep : (l.above below).step c = (l.step c).above below :=
      congrArg (Lexer.mk _) (shift_append hc.symm l.mode l.awaited below)
    rw [run_cons, run_cons, hstep, ih hs]

theorem afterBlock?_append {s : Text} (hs : '}' ∉ s) (l : Lexer) (rest : Text) :
    l.afterBlock? (s ++ rest) = (l.run s).afterBlock? rest := by
  induction s generalizing l with
  | nil => rfl
  | cons c s ih =>
    obtain ⟨hc, hs⟩ := List.ne_and_not_mem_of_not_mem_cons hs
    rw [List.cons_append, afterBlock?, if_neg fun h => hc h.1.symm]
    exact ih hs (l.step c)

theorem awaited_step_brace_iff (l : Lexer) :
    ((l.above []).step '}').awaited = [] ↔ l.isIdle = true := by
  obtain ⟨mode, awaited⟩ := l
  cases mode with
  | word w slash =>
    cases awaited with
    | nil => exact iff_of_true rfl rfl
    | cons a awaited =>
      refine iff_of_false ?_ Bool.false_ne_true
      change ¬ (if a = .brace then awaited ++ [.brace] else a :: (awaited ++ [.brace])) = []
      split <;> simp
  | _ => simp [above, step, isIdle, Mode.isWord, Mode.shift, Quote.of?]

theorem isIdle_iff {l : Lexer} : l.isIdle = true ↔ ∃ w slash, l = ⟨.word w slash, []⟩ := by
  obtain ⟨mode, awaited⟩ := l
  cases mode <;> simp [isIdle, Mode.isWord]

theorem step_brace {l : Lexer} (h : l.isIdle = true) (awaited : List Bracket) :
    (l.above awaited).step '}' = between awaited := by
  obtain ⟨w, slash, rfl⟩ := isIdle_iff.1 h
  cases slash <;> rfl

def IsSeparator (c : Char) : Prop := c = ' ' ∨ c = ';'

theorem step_separator {c : Char} (hc : IsSeparator c) (w : Text) (slash : Bool) (awaited : List Bracket) :
    (Lexer.mk (.word w slash) awaited).step c = between awaited := by
  rcases hc with rfl | rfl <;> cases slash <;> rfl

theorem isIdle_step_space (l : Lexer) : (l.step ' ').isIdle = l.isIdle := by
  obtain ⟨mode, awaited⟩ := l
  cases mode with
  | word w slash => cases slash <;> rfl
  | comment star => cases star <;> rfl
  | quoted q => cases q <;> rfl
  | _ => rfl

end Lexer

open Lexer

def isPlain (c : Char) : Bool :=
  c ≠ '/' && (Quote.of? c).isNone && (Bracket.opened? c).isNone && (Bracket.closed? c).isNone

theorem step_plain {c : Char} (h : isPlain c = true) (w : Text) (awaited : List Bracket) :
    ∃ w', (Lexer.mk (.word w false) awaited).step c = ⟨.word w' false, awaited⟩ := by
  simp only [isPlain, Bool.and_eq_true, Option.isNone_iff_eq_none, decide_eq_true_eq] at h
  obtain ⟨⟨⟨hslash, hquote⟩, hopened⟩, hclosed⟩ := h
  have hparen : c ≠ '(' := by
    rintro rfl
    exact nomatch hopened
  simp only [step, Mode.next, Mode.shift, hslash, hquote, hopened, hclosed, hparen, decide_false,
    Bool.false_and, Bool.false_eq_true, if_false]
  split
  · exact ⟨_, rfl⟩
  · split
    · exact ⟨_, rfl⟩
    · exact ⟨_, rfl⟩

theorem run_plain {s : Text} (hs : ∀ c ∈ s, isPlain c = true) (w : Text) (awaited : List Bracket) :
    ∃ w', (Lexer.mk (.word w false) awaited).run s = ⟨.word w' false, awaited⟩ := by
  induction s generalizing w with
  | nil => exact ⟨w, rfl⟩
  | cons c s ih =>
    obtain ⟨hc, hs⟩ := List.forall_mem_cons.1 hs
    obtain ⟨w', hw⟩ := step_plain hc w awaited
    rw [run_cons, hw]
    exact ih hs w'

theorem isPlain_of_isIdChar {c : Char} (h : Identity.isIdChar c = true) : isPlain c = true :=
  Text.forall_ascii (P := fun c => Identity.isIdChar c = true → isPlain c = true) (by decide)
    (toNat_lt_of_isIdChar h) h

theorem closed_iff {s : Text} :
    Closed s ↔ ∃ w slash, (between []).run s = ⟨.word w slash, []⟩ := isIdle_iff

theorem closed_of_isPlain {s : Text} (hs : ∀ c ∈ s, isPlain c = true) : Closed s := by
  obtain ⟨w, h⟩ := run_plain hs [] []
  exact closed_iff.2 ⟨w, false, h⟩

/-- Behind a separator nothing is left of a text that is closed. -/
theorem Closed.run {s : Text} (h : Closed s) {c : Char} (hc : IsSeparator c) (t : Text) :
    (between []).run (s ++ c :: t) = (between []).run t := by
  obtain ⟨w, slash, hs⟩ := closed_iff.1 h
  rw [run_append, hs, run_cons, step_separator hc]

theorem run_writeDeclaration {d : Declaration} (h : Identity.IsId d.property) (t : Text) :
    (between []).run (Rule.writeDeclaration d ++ t) = (between []).run (d.value ++ ';' :: t) := by
  have hlead : Closed (' ' :: (d.property ++ [':'])) := by
    refine closed_of_isPlain (List.forall_mem_cons.2 ⟨by decide, List.forall_mem_append.2 ⟨?_, by decide⟩⟩)
    exact fun c hc => isPlain_of_isIdChar (h c hc)
  have hsplit : Rule.writeDeclaration d ++ t =
      (' ' :: (d.property ++ [':'])) ++ ' ' :: (d.value ++ ';' :: t) := by
    simp [Rule.writeDeclaration]
  rw [hsplit, hlead.run (.inl rfl)]

theorem closed_declarations {ds : List Declaration} (hp : ∀ d ∈ ds, Identity.IsId d.property)
    (hv : ∀ d ∈ ds, Closed d.value) : Closed (ds.flatMap Rule.writeDeclaration) := by
  induction ds with
  | nil => rfl
  | cons d ds ih =>
    obtain ⟨hp, hps⟩ := List.forall_mem_cons.1 hp
    obtain ⟨hv, hvs⟩ := List.forall_mem_cons.1 hv
    rw [List.flatMap_cons, Closed, run_writeDeclaration hp, hv.run (.inr rfl)]
    exact ih hps hvs

theorem afterBlock?_rule {r : Rule} (he : Identity.IsId r.element) (hd : ∀ d ∈ r.declarations, d.Enclosed)
    (awaited : List Bracket) (rest : Text) :
    (between awaited).afterBlock? (r.write ++ rest) =
      (((between []).run (r.body ++ [' '])).above awaited).afterBlock? ('}' :: rest) := by
  have hselector : ∀ c ∈ r.selector, isPlain c = true := by
    refine List.forall_mem_cons.2 ⟨by decide, List.forall_mem_append.2 ⟨?_, ?_⟩⟩
    · exact fun c hc => isPlain_of_isIdChar (he c hc)
    · cases r.slot with
      | base => decide
      | state s => cases s <;> decide
  have hopen : '}' ∉ r.selector ++ [' ', '{'] := by
    intro hm
    rcases List.mem_append.1 hm with hm | hm
    · exact absurd (hselector _ hm) (by decide)
    · exact absurd hm (by decide)
  have hrun : (between awaited).run (r.selector ++ [' ', '{']) = (between []).above awaited := by
    obtain ⟨w, h⟩ := run_plain hselector [] awaited
    rw [run_append, between, h, run_cons, step_separator (.inl rfl)]
    rfl
  have hsplit : r.write ++ rest = (r.selector ++ [' ', '{']) ++ ((r.body ++ [' ']) ++ '}' :: rest) := by
    simp [Rule.write, Rule.body]
  -- what stands before the last brace has none in it, so the lexer runs over it
  have hbody : '}' ∉ r.body ++ [' '] := not_mem_body hd
  rw [hsplit, afterBlock?_append hopen, hrun, afterBlock?_append hbody, run_above hbody]

/-- A rule ends at its own brace exactly where what it declares leaves nothing open. -/
theorem isWholeRule_iff {r : Rule} (he : Identity.IsId r.element)
    (hd : ∀ d ∈ r.declarations, d.Enclosed) : IsWholeRule r.write ↔ Closed r.body := by
  have hidle : ((between []).run (r.body ++ [' '])).isIdle = ((between []).run r.body).isIdle := by
    rw [run_append]
    exact isIdle_step_space _
  constructor
  · intro h
    -- with nothing after the rule, no other brace than its own can end it
    have hend := h []
    rw [afterBlock?_rule he hd, afterBlock?] at hend
    split at hend
    · rename_i hclose
      exact hidle.symm.trans ((awaited_step_brace_iff _).1 hclose.2.2)
    · exact nomatch hend
  · intro h rest
    rw [afterBlock?_rule he hd, afterBlock?, if_pos]
    exact ⟨rfl, by simp [above], (awaited_step_brace_iff _).2 (hidle.trans h)⟩

theorem afterBlock?_lines {rules : List Rule}
    (h : ∀ r ∈ rules, Identity.IsId r.element ∧ (∀ d ∈ r.declarations, d.Enclosed) ∧ Closed r.body)
    (rest : Text) :
    (between [.brace]).afterBlock? ((rules.flatMap fun r => ['\n', ' ', ' '] ++ r.write) ++ rest) =
      (between [.brace]).afterBlock? rest := by
  induction rules with
  | nil => rfl
  | cons r rules ih =>
    obtain ⟨⟨he, hd, hbody⟩, hrules⟩ := List.forall_mem_cons.1 h
    have hidle : ((between []).run (r.body ++ [' '])).isIdle = true := by
      rw [hbody.run (.inl rfl)]
      rfl
    have hindent : (between [.brace]).run ['\n', ' ', ' '] = between [.brace] := rfl
    rw [List.flatMap_cons, List.append_assoc, List.append_assoc, afterBlock?_append (by decide), hindent,
      afterBlock?_rule he hd, afterBlock?, step_brace hidle, if_neg]
    · exact ih hrules
    · -- the block's own brace is still awaited
      exact fun hclose => nomatch hclose.2.2

theorem isWholeRule_media {b : Breakpoint} (hb : b ∈ Breakpoint.narrow) {rules : List Rule}
    (hne : rules ≠ [])
    (h : ∀ r ∈ rules, Identity.IsId r.element ∧ (∀ d ∈ r.declarations, d.Enclosed) ∧ Closed r.body) :
    IsWholeRule (Entry.media b rules).write := by
  intro rest
  have hquery : '}' ∉ b.mediaQuery?.getD [] ++ [' ', '{'] ∧
      (between []).run (b.mediaQuery?.getD [] ++ [' ', '{']) = between [.brace] := by
    cases b with
    | desktop => exact absurd hb (by decide)
    | _ => decide +kernel
  have hsplit : (Entry.media b rules).write ++ rest = (b.mediaQuery?.getD [] ++ [' ', '{']) ++
      ((rules.flatMap fun r => ['\n', ' ', ' '] ++ r.write) ++ '\n' :: '}' :: rest) := by
    rw [Entry.write_media b hne]
    simp
  rw [hsplit, afterBlock?_append hquery.1, hquery.2, afterBlock?_lines h]
  rfl

theorem Entry.Legible.rules {element : Text} {e : Entry} (h : e.Legible element) :
    ∀ r ∈ e.rules, r.element = element ∧ ∀ d ∈ r.declarations, d.Enclosed := by
  cases e with
  | rule r => exact List.forall_mem_singleton.2 h
  | media b rules => exact h.2.2
  | custom css => exact absurd h id

theorem isWholeRule_entry_iff {element : Text} (hid : Identity.IsId element) {e : Entry}
    (h : e.Legible element) :
    (IsWholeRule e.write ∧ ∀ r ∈ e.rules, IsWholeRule r.write) ↔ ∀ r ∈ e.rules, Closed r.body := by
  have hrules : ∀ r ∈ e.rules, Identity.IsId r.element ∧ ∀ d ∈ r.declarations, d.Enclosed :=
    fun r hr => ⟨(h.rules r hr).1 ▸ hid, (h.rules r hr).2⟩
  constructor
  · exact fun hw r hr => (isWholeRule_iff (hrules r hr).1 (hrules r hr).2).1 (hw.2 r hr)
  · intro hclosed
    have hwhole : ∀ r ∈ e.rules, IsWholeRule r.write :=
      fun r hr => (isWholeRule_iff (hrules r hr).1 (hrules r hr).2).2 (hclosed r hr)
    refine ⟨?_, hwhole⟩
    cases e with
    | rule r => exact hwhole r List.mem_cons_self
    | media b rules =>
      exact isWholeRule_media h.1 h.2.1 fun r hr => ⟨(hrules r hr).1, (hrules r hr).2, hclosed r hr⟩
    | custom css => exact absurd h id

/-- A comment, a quote, a parenthesis, a square bracket and the parenthesis of `url(` may be left open in
    a safe value, and then the rule takes in what comes after it. -/
theorem not_closed_of_isSafeValue :
    ¬ (∀ v : Text, isSafeValue v = true → Closed v) ∧
    ∀ v ∈ (["red /*", "\"abc", "rgb(1", "[a", "url(/a"] : List Text), isSafeValue v = true ∧ ¬ Closed v ∧
      ∃ e ∈ (Layers.ofProps [("advancedStyling", .object [("fontFamily", .string v)])]).ruled "x",
        ¬ IsWholeRule e.write := by
  have hopen : ∀ v ∈ (["red /*", "\"abc", "rgb(1", "[a", "url(/a"] : List Text),
      isSafeValue v = true ∧ ¬ Closed v ∧
        ∃ e ∈ (Layers.ofProps [("advancedStyling", .object [("fontFamily", .string v)])]).ruled "x",
          (between []).afterBlock? (e.write ++ []) ≠ some [] := by decide +kernel
  refine ⟨fun h => ?_, fun v hv => ?_⟩
  · obtain ⟨hsafe, hnot, _⟩ := hopen "red /*" List.mem_cons_self
    exact hnot (h _ hsafe)
  · obtain ⟨hsafe, hnot, e, he, hend⟩ := hopen v hv
    exact ⟨hsafe, hnot, e, he, fun hwhole => hend (hwhole [])⟩

end Folio.Style

namespace Folio.Render

open Style

/-- The rules that are compiled for an element, the style text of its own aside, and the blocks that they
    stand in end at their own braces exactly where what they declare leaves nothing open, and so they do
    where no value does. -/
theorem isWholeRule_compile (kind : Component) (p : Props) {element : Text} (h : Identity.IsId element) :
    let layers := (Layers.ofProps p).withDefaults (defaults kind p)
    layers.compile element = (layers.ruled element).map Entry.write ++ layers.custom.toList ∧
      ∀ e ∈ layers.ruled element,
        ((IsWholeRule e.write ∧ ∀ r ∈ e.rules, IsWholeRule r.write) ↔ ∀ r ∈ e.rules, Closed r.body) ∧
        ((∀ r ∈ e.rules, ∀ d ∈ r.declarations, Closed d.value) → ∀ r ∈ e.rules, Closed r.body) := by
  intro layers
  have henclosed : layers.Enclosed := (Layers.enclosed_ofProps p).withDefaults (enclosed_defaults kind p)
  refine ⟨layers.compile_eq element, fun e he => ?_⟩
  have hlegible := Layers.legible_of_mem_ruled henclosed e he
  refine ⟨isWholeRule_entry_iff h hlegible, fun hvalues r hr => ?_⟩
  exact closed_declarations (fun d hd => ((hlegible.rules r hr).2 d hd).property) (hvalues r hr)

theorem isWholeRule_compile_image :
    Identity.IsId "x" ∧
      IsWholeRule "#x \x7b background-image: url(\"/a%22b.png\"); \x7d" ∧
      IsWholeRule "@media (max-width: 767px) \x7b\n  #x \x7b color: rgb(1, 2, 3); \x7d\n\x7d" := by
  have hid : Identity.IsId "x" := by decide
  let p : Props :=
    [("advancedStyling", .object [("backgroundImage", .string "/a\"b.png")]),
     ("breakpointStyling", .object [("mobile", .object [("color", .string "rgb(1, 2, 3)")])])]
  let layers := (Layers.ofProps p).withDefaults (defaults .section p)
  have hwhole : ∀ e ∈ layers.ruled "x", IsWholeRule e.write := by
    have hvalues : ∀ e ∈ layers.ruled "x", ∀ r ∈ e.rules, ∀ d ∈ r.declarations, Closed d.value := by
      decide +kernel
    intro e he
    obtain ⟨hiff, hclosed⟩ := (isWholeRule_compile .section p hid).2 e he
    exact (hiff.2 (hclosed (hvalues e he))).1
  have hwrite : (layers.ruled "x").map Entry.write =
      ["#x \x7b background-image: url(\"/a%22b.png\"); \x7d".toList,
        "@media (max-width: 767px) \x7b\n  #x \x7b color: rgb(1, 2, 3); \x7d\n\x7d".toList] := by
    decide +kernel
  have hall : ∀ s ∈ (layers.ruled "x").map Entry.write, IsWholeRule s := List.forall_mem_map.2 hwhole
  rw [hwrite] at hall
  exact ⟨hid, hall _ List.mem_cons_self, hall _ (List.mem_cons_of_mem _ List.mem_cons_self)⟩

end Folio.Render
