import Folio.Proofs.Declarations
import Folio.Proofs.Requests

set_option autoImplicit false

/-!
# Authored ids

The words of a text are its runs of token characters, and its token is the words with hyphens between
them. A text without words has the token of the text with the one word `node`. So an author's id counts,
whatever the scope and the id of the node, unless that is its one word; then the node gets an id as if the
author had given none.
-/
namespace Folio
namespace Identity

inductive Spaced : Text → List Text → Prop
  | gap {g : Text} (hg : ∀ c ∈ g, isTokenChar c = false) : Spaced g []
  | word {g w s : Text} {words : List Text} (hg : ∀ c ∈ g, isTokenChar c = false) (hne : w ≠ [])
      (hw : ∀ c ∈ w, isTokenChar c = true) (hend : ∀ c ∈ s.head?, isTokenChar c = false)
      (rest : Spaced s words) : Spaced (g ++ (w ++ s)) (w :: words)

/-- Every character that is in no token written as a hyphen. -/
def hyphened (s : Text) : Text := s.map fun c => if isTokenChar c then c else '-'

theorem runs_eq (s : Text) : runs s = (Text.split '-' (hyphened s)).filter fun w => !w.isEmpty := rfl

theorem hyphened_of_word {w : Text} (hw : ∀ c ∈ w, isTokenChar c = true) : hyphened w = w := by
  have hid : hyphened w = w.map id := List.map_congr_left fun c hc => if_pos (hw c hc)
  rw [hid, List.map_id]

theorem not_mem_of_word {w : Text} (hw : ∀ c ∈ w, isTokenChar c = true) : '-' ∉ w :=
  fun hm => absurd (hw _ hm) (by decide)

theorem hyphened_cons_of_gap {c : Char} (hc : isTokenChar c = false) (s : Text) :
    hyphened (c :: s) = '-' :: hyphened s := by
  rw [hyphened, List.map_cons, if_neg (by simp [hc])]
  rfl

theorem runs_gap_append {g : Text} (hg : ∀ c ∈ g, isTokenChar c = false) (s : Text) :
    runs (g ++ s) = runs s := by
  induction g with
  | nil => rfl
  | cons c g ih =>
    obtain ⟨hc, hg⟩ := List.forall_mem_cons.1 hg
    have hsplit : Text.split '-' (hyphened (c :: (g ++ s))) = [] :: Text.split '-' (hyphened (g ++ s)) := by
      rw [hyphened_cons_of_gap hc]
      exact Text.split_append (s := []) List.not_mem_nil _
    rw [List.cons_append, runs_eq, hsplit, List.filter_cons_of_neg (by simp), ← runs_eq, ih hg]

theorem runs_word_append {w s : Text} (hne : w ≠ []) (hw : ∀ c ∈ w, isTokenChar c = true)
    (hend : ∀ c ∈ s.head?, isTokenChar c = false) : runs (w ++ s) = w :: runs s := by
  have happend : hyphened (w ++ s) = w ++ hyphened s := by
    rw [hyphened, List.map_append]
    exact congrArg (· ++ hyphened s) (hyphened_of_word hw)
  have hkept (l : List Text) : ((w :: l).filter fun w => !w.isEmpty) = w :: l.filter fun w => !w.isEmpty :=
    List.filter_cons_of_pos (by simpa using hne)
  cases s with
  | nil =>
    rw [runs_eq, happend, show w ++ hyphened [] = w from List.append_nil w,
      Text.split_of_not_mem (not_mem_of_word hw), hkept]
    rfl
  | cons c s =>
    have hgap := hend c rfl
    rw [runs_eq, happend, hyphened_cons_of_gap hgap, Text.split_append (not_mem_of_word hw),
      hkept, ← runs_eq]
    exact congrArg (w :: ·) (runs_gap_append (g := [c]) (by simpa using hgap) s).symm

theorem Spaced.runs_eq {s : Text} {words : List Text} (h : Spaced s words) : runs s = words := by
  induction h with
  | @gap g hg =>
    have hruns := runs_gap_append hg []
    rwa [List.append_nil] at hruns
  | word hg hne hw hend _ ih => rw [runs_gap_append hg, runs_word_append hne hw hend, ih]

theorem Spaced.gap_cons {c : Char} {s : Text} {words : List Text} (hc : isTokenChar c = false)
    (h : Spaced s words) : Spaced (c :: s) words := by
  cases h with
  | gap hg => exact .gap (List.forall_mem_cons.2 ⟨hc, hg⟩)
  | word hg hne hw hend rest => exact .word (List.forall_mem_cons.2 ⟨hc, hg⟩) hne hw hend rest

theorem Spaced.word_cons {c : Char} {s : Text} {words : List Text} (hc : isTokenChar c = true)
    (h : Spaced s words) : ∃ words', Spaced (c :: s) words' := by
  have hnone : ∀ d ∈ ([] : Text), isTokenChar d = false := by simp
  have hone : ∀ d ∈ [c], isTokenChar d = true := by simpa using hc
  cases h with
  | gap hg =>
    have hend : ∀ d ∈ s.head?, isTokenChar d = false := fun d hd => hg d (List.mem_of_mem_head? hd)
    exact ⟨_, .word hnone (List.cons_ne_nil c []) hone hend (.gap hg)⟩
  | @word g w s words hg hne hw hend rest =>
    cases g with
    | nil =>
      exact ⟨_, .word hnone (List.cons_ne_nil c w) (List.forall_mem_cons.2 ⟨hc, hw⟩) hend rest⟩
    | cons b g =>
      have hb : ∀ d ∈ (b :: g ++ (w ++ s)).head?, isTokenChar d = false := by
        simpa using hg b List.mem_cons_self
      exact ⟨_, .word hnone (List.cons_ne_nil c []) hone hb (.word hg hne hw hend rest)⟩

theorem spaced_runs (s : Text) : Spaced s (runs s) := by
  have hspaced : ∃ words, Spaced s words := by
    induction s with
    | nil => exact ⟨[], .gap (by simp)⟩
    | cons c s ih =>
      obtain ⟨words, h⟩ := ih
      cases hc : isTokenChar c with
      | false => exact ⟨words, h.gap_cons hc⟩
      | true => exact h.word_cons hc
  obtain ⟨words, h⟩ := hspaced
  exact h.runs_eq ▸ h

theorem spaced_iff {s : Text} {words : List Text} : Spaced s words ↔ runs s = words :=
  ⟨Spaced.runs_eq, fun h => h ▸ spaced_runs s⟩

theorem runs_ne_nil {s : Text} (h : ∃ c ∈ s, isTokenChar c = true) : runs s ≠ [] := by
  intro hruns
  obtain ⟨c, hmem, hc⟩ := h
  cases spaced_iff.2 hruns with
  | gap hg => exact absurd hc (by simp [hg c hmem])

theorem token_of_ne_nil {s : Text} (h : runs s ≠ []) : token s = Text.join "-" (runs s) := by
  unfold token
  exact if_neg (by simpa using h)

theorem isTokenChar_of_isBlank {c : Char} (h : Text.isBlank c = true) : isTokenChar c = false := by
  refine Bool.eq_false_iff.2 fun hc => ?_
  have hid : isIdChar c = true := by rw [isIdChar, hc, Bool.true_or]
  have hnone : isTokenChar c = false :=
    Text.forall_ascii (P := fun c => Text.isBlank c = true → isTokenChar c = false) (by decide)
      (Style.toNat_lt_of_isIdChar hid) h
  exact Bool.false_ne_true (hnone.symm.trans hc)

theorem Spaced.append_gap {s b : Text} {words : List Text} (h : Spaced s words)
    (hb : ∀ c ∈ b, isTokenChar c = false) : Spaced (s ++ b) words := by
  induction h with
  | gap hg => exact .gap (List.forall_mem_append.2 ⟨hg, hb⟩)
  | @word g w s words hg hne hw hend rest ih =>
    have hend : ∀ c ∈ (s ++ b).head?, isTokenChar c = false := by
      cases s with
      | nil => exact fun c hc => hb c (List.mem_of_mem_head? hc)
      | cons d s => exact hend
    rw [List.append_assoc, List.append_assoc]
    exact .word hg hne hw hend ih

theorem runs_trim (s : Text) : runs (Text.trim s) = runs s := by
  obtain ⟨a, b, hs, ha, hb⟩ := Text.exists_trim_eq s
  have hgap {t : Text} (ht : ∀ c ∈ t, Text.isBlank c = true) : ∀ c ∈ t, isTokenChar c = false :=
    fun c hc => isTokenChar_of_isBlank (ht c hc)
  have hspaced := (spaced_runs (a ++ Text.trim s)).append_gap (hgap hb)
  rw [← hs, runs_gap_append (hgap ha)] at hspaced
  exact hspaced.runs_eq.symm

theorem token_trim (s : Text) : token (Text.trim s) = token s := by
  unfold token
  rw [runs_trim]

theorem token_eq_emptyToken_iff {s : Text} (h : runs s ≠ []) :
    token s = emptyToken ↔ Spaced s [emptyToken] := by
  rw [token_of_ne_nil h, spaced_iff]
  match runs s, h with
  | [w], _ => simp [Text.join, List.intercalate]
  | w :: v :: words, _ =>
    refine iff_of_false (fun e => ?_) (by simp)
    have hhyphen : '-' ∈ Text.join "-" (w :: v :: words) := by
      rw [Text.join_cons_cons]
      exact List.mem_append_right w List.mem_cons_self
    rw [e] at hhyphen
    exact absurd hhyphen (by decide)

theorem authored?_of_written {props metadata : Json.Fields} {s : Text}
    (hmetadata : props.get? "metadata" = some (.object metadata))
    (hid : metadata.get? "elementId" = some (.string s)) : authored? props =
      if token (Text.trim s) = emptyToken then none else some (withLetter (token (Text.trim s))) := by
  have hget : (Json.object metadata).get? "elementId" = some (.string s) := hid
  rw [authored?, hmetadata, Option.bind_eq_bind, Option.bind_some, hget]
  rfl

/-- No id that is derived from the id of a node is comparable with the token of no word. -/
theorem derived_apart (scope : Scope) (t : Text) :
    ¬ (scopeMark scope ++ "-" ++ t : Text) <+: emptyToken ∧
      ¬ emptyToken <+: (scopeMark scope ++ "-" ++ t : Text) := by
  cases scope <;> simp [scopeMark, emptyToken]

end Identity

open Identity

namespace Registry

theorem base_prefix_free (r : Registry) (base : Text) : base <+: r.free base := by
  have hdue := due_free r base
  generalize r.free base = id at hdue
  cases hdue with
  | base _ => exact List.prefix_refl base
  | numbered _ _ _ _ _ =>
    rw [numbered, List.append_assoc]
    exact List.prefix_append base _

theorem comparable_of_claim_eq {r : Registry} {base other : Text} (h : r.claim base = r.claim other) :
    base <+: other ∨ other <+: base := by
  have hfree : r.free base = r.free other := congrArg Prod.fst h
  exact List.prefix_or_prefix_of_prefix (r.base_prefix_free base) (hfree ▸ r.base_prefix_free other)

/-- An id that an author writes with a word in it counts exactly when `node` is not its one word: its token
    is claimed, behind `el-` if it does not start with a letter. Otherwise the id of the node counts. -/
theorem authored_counts_iff (r : Registry) (scope : Scope) (nodeId : Text)
    {props metadata : Json.Fields} {s : Text}
    (hmetadata : props.get? "metadata" = some (.object metadata))
    (hid : metadata.get? "elementId" = some (.string s)) (hs : ∃ c ∈ s, isTokenChar c = true) :
    let t := token (Text.trim s)
    (∃ words, Spaced s words ∧ words ≠ [] ∧ t = Text.join "-" words) ∧
      (r.assign scope nodeId props = r.claim (if t.head?.any Char.isAlpha then t else "el-" ++ t) ↔
        ¬ Spaced s [emptyToken]) ∧
      (Spaced s [emptyToken] →
        r.assign scope nodeId props = r.claim (scopeMark scope ++ "-" ++ token nodeId)) := by
  intro t
  have hne := runs_ne_nil hs
  have hauthored := authored?_of_written hmetadata hid
  have htoken : t = token s := token_trim s
  have hempty : t = emptyToken ↔ Spaced s [emptyToken] := htoken ▸ token_eq_emptyToken_iff hne
  have hderived (h : Spaced s [emptyToken]) :
      r.assign scope nodeId props = r.claim (scopeMark scope ++ "-" ++ token nodeId) := by
    rw [assign, base, hauthored, if_pos (hempty.2 h)]
    rfl
  refine ⟨⟨runs s, spaced_runs s, hne, htoken.trans (token_of_ne_nil hne)⟩,
    ⟨fun h hword => ?_, fun h => ?_⟩, hderived⟩
  · have hplain : (if t.head?.any Char.isAlpha then t else "el-" ++ t) = emptyToken := by
      rw [hempty.2 hword]
      rfl
    rw [hderived hword, hplain] at h
    obtain ⟨hleft, hright⟩ := derived_apart scope (token nodeId)
    exact (comparable_of_claim_eq h).elim hleft hright
  · rw [assign, base, hauthored, if_neg (mt hempty.1 h)]
    rfl

theorem authored_counts_iff_seas :
    (∃ c ∈ (" 7 seas " : Text), isTokenChar c = true) ∧
      (⟨["el-7-seas"]⟩ : Registry).assign .footer "x"
          [("metadata", .object [("elementId", .string " 7 seas ")])] =
        (⟨["el-7-seas"]⟩ : Registry).claim "el-7-seas" := by
  have hs : ∃ c ∈ (" 7 seas " : Text), isTokenChar c = true := ⟨'7', by decide, by decide⟩
  have hmetadata : Json.Fields.get? [("metadata", .object [("elementId", .string " 7 seas ")])]
      "metadata" = some (.object [("elementId", .string " 7 seas ")]) := rfl
  have htoken : token (Text.trim " 7 seas ") = "7-seas" := by decide
  have hwords : ¬ Spaced " 7 seas " [emptyToken] := fun h => absurd h.runs_eq (by decide)
  have hassign := (authored_counts_iff ⟨["el-7-seas"]⟩ .footer "x" hmetadata rfl hs).2.1.2 hwords
  rw [htoken] at hassign
  exact ⟨hs, hassign⟩

/-- The id `node` has a word in it, and the node gets another id all the same. -/
theorem not_claimed_node :
    ¬ ∀ (r : Registry) (scope : Scope) (nodeId s : Text), (∃ c ∈ s, isTokenChar c = true) →
      let t := token (Text.trim s)
      r.assign scope nodeId [("metadata", .object [("elementId", .string s)])] =
        r.claim (if t.head?.any Char.isAlpha then t else "el-" ++ t) := by
  intro h
  have hnode := h empty .page "x" "node" ⟨'n', by decide, by decide⟩
  exact absurd hnode (by decide)

end Registry

end Folio
