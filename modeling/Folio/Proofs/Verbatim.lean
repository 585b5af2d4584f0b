import Folio.Proofs.Resanitize
import Folio.Proofs.Trusted

set_option autoImplicit false

/-!
# Trusted code is copied

Every lexeme of trusted code is written once and as it stands: texts, tags, comments, and markup that
is never closed. Where no tag has a style attribute, the one exception is raw text right behind the
start tag of a style element. There is raw text only behind the start tag of its element, so what is
stripped is style text and nothing else.
-/
namespace Folio.Markup

def Token.attributes : Token → List Attribute
  | .startTag _ l _ => l
  | _ => []

/-- A text that holds the sources of lexemes, the token before them given. Raw text behind the start tag
    of a style element is stripped, all else stands as it is. -/
inductive CopiedOutsideStyle : Option Token → List Lexeme → Text → Prop where
  | nil {before : Option Token} : CopiedOutsideStyle before [] []
  | same {before : Option Token} {l : Lexeme} {ls : List Lexeme} {t : Text}
      (hl : ∀ w attributes, l.token = .rawText w → before ≠ some (.startTag "style" attributes false))
      (h : CopiedOutsideStyle (some l.token) ls t) :
      CopiedOutsideStyle before (l :: ls) (l.source ++ t)
  | style {attributes : List Attribute} {w source : Text} {ls : List Lexeme} {t : Text}
      (h : CopiedOutsideStyle (some (.rawText w)) ls t) :
      CopiedOutsideStyle (some (.startTag "style" attributes false)) (⟨.rawText w, source⟩ :: ls)
        (strippedText w ++ t)

theorem CopiedOutsideStyle.eq_sources {before : Option Token} {ls : List Lexeme} {t : Text}
    (h : CopiedOutsideStyle before ls t) (hbefore : ∀ u ∈ before, u.element? ≠ some "style")
    (hls : ∀ l ∈ ls, l.token.element? ≠ some "style") : t = sources ls := by
  induction h with
  | nil => rfl
  | same _ _ ih =>
    obtain ⟨hl, hrest⟩ := List.forall_mem_cons.1 hls
    have ht := ih (by simpa using hl) hrest
    rw [sources, List.flatMap_cons, ← sources, ht]
  | style _ _ => exact absurd rfl (hbefore _ rfl)

theorem copiedOutsideStyle_trusted {before : Option Token} {raw : Option Text}
    (hraw : raw = before.bind Lexer.rawAfter) {b : Bool} (hb : ∀ name ∈ raw, b = decide (name = "style"))
    {s : Text} (hs : ∀ l ∈ lexFrom raw s, hasStyle l.token.attributes = false) :
    CopiedOutsideStyle before (lexFrom raw s) (trusted b (lexFrom raw s)) := by
  -- along the code, with the token that was read last
  fun_induction lexFrom raw s generalizing before b with
  | case1 => exact .nil
  | case2 raw c s ih =>
    generalize hnext : Lexer.nextIn raw c s = found at *
    obtain ⟨t, r⟩ := found
    obtain ⟨ht, hrest⟩ := List.forall_mem_cons.1 hs
    have hafter : ∀ name ∈ Lexer.rawAfter t, inStyleAfter b t = decide (name = "style") := by
      intro name hname
      obtain ⟨_, l, rfl⟩ := Lexer.exists_of_rawAfter hname
      exact Bool.and_true _
    have hread : Lexer.rawAfter t = (some t).bind Lexer.rawAfter := rfl
    have htail := ih hread hafter hrest
    rw [trusted]
    by_cases hstripped : isRewritten b t = true
    · cases t with
      | rawText w =>
        obtain rfl : b = true := hstripped
        obtain ⟨name, hname, _⟩ := Lexer.of_nextIn_rawText hnext
        obtain rfl : name = "style" := of_decide_eq_true (hb name hname).symm
        obtain ⟨u, rfl, hu⟩ := Option.bind_eq_some_iff.1 (hraw.symm.trans hname)
        obtain ⟨_, l, rfl⟩ := Lexer.exists_of_rawAfter hu
        exact .style htail
      | startTag tag l closing => exact absurd hstripped (Bool.eq_false_iff.1 ht)
      | _ => cases hstripped
    · rw [(trustedLexeme_of_not_rewritten (Bool.eq_false_iff.2 hstripped) _).1]
      refine .same ?_ htail
      rintro w attributes rfl rfl
      obtain rfl : raw = some "style" := hraw
      exact hstripped (hb "style" rfl)

/-- Where no tag has a style attribute, trusted code is the same outside of the raw text of style
    elements; where there is no style element either, it is the same everywhere. -/
theorem sanitize_trusted_copies [Link.HostReader] {s : Text}
    (hs : ∀ t ∈ tokens s, hasStyle t.attributes = false) :
    CopiedOutsideStyle none (lex s) (sanitize .trustedCode s) ∧
      ((∀ t ∈ tokens s, t.element? ≠ some "style") → sanitize .trustedCode s = s) := by
  have hlex : ∀ l ∈ lexFrom none s, hasStyle l.token.attributes = false :=
    fun _ hl => hs _ (List.mem_map_of_mem hl)
  have hcopied : CopiedOutsideStyle none (lex s) (sanitize .trustedCode s) :=
    copiedOutsideStyle_trusted rfl (by nofun) hlex
  refine ⟨hcopied, fun hstyle => ?_⟩
  have hsources := hcopied.eq_sources (by nofun) fun l hl => hstyle _ (List.mem_map_of_mem hl)
  exact hsources.trans (sources_lex s)

theorem sanitize_trusted_copies_broken :
    ((∀ t ∈ tokens "<script><style>@import a</script><STYLE>@import b</style/>@import<style/>@import",
        hasStyle t.attributes = false) ∧
      CopiedOutsideStyle none
        (lex "<script><style>@import a</script><STYLE>@import b</style/>@import<style/>@import")
        "<script><style>@import a</script><STYLE> b</style/>@import<style/>@import") ∧
    ((∀ t ∈ tokens "<!doctype html><SCRIPT>'<style>'</script ><!--c--></x/><a b='",
        hasStyle t.attributes = false) ∧
      (∀ t ∈ tokens "<!doctype html><SCRIPT>'<style>'</script ><!--c--></x/><a b='",
        t.element? ≠ some "style") ∧
      sanitize .trustedCode "<!doctype html><SCRIPT>'<style>'</script ><!--c--></x/><a b='" =
        ("<!doctype html><SCRIPT>'<style>'</script ><!--c--></x/><a b='" : Text)) := by
  have hscript : ∀ t ∈ tokens
      "<script><style>@import a</script><STYLE>@import b</style/>@import<style/>@import",
      hasStyle t.attributes = false := by decide +kernel
  have hstripped : sanitize .trustedCode
      "<script><style>@import a</script><STYLE>@import b</style/>@import<style/>@import" =
      ("<script><style>@import a</script><STYLE> b</style/>@import<style/>@import" : Text) := by
    decide +kernel
  have hbroken : ∀ t ∈ tokens "<!doctype html><SCRIPT>'<style>'</script ><!--c--></x/><a b='",
      hasStyle t.attributes = false := by decide +kernel
  have hplain : ∀ t ∈ tokens "<!doctype html><SCRIPT>'<style>'</script ><!--c--></x/><a b='",
      t.element? ≠ some "style" := by decide +kernel
  have hcopied := (sanitize_trusted_copies hscript).1
  rw [hstripped] at hcopied
  exact ⟨⟨hscript, hcopied⟩, hbroken, hplain, (sanitize_trusted_copies hbroken).2 hplain⟩

end Folio.Markup
