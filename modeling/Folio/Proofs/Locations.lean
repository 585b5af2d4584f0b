import Folio.Sitemap

set_option autoImplicit false

/-!
# Reading a sitemap back

The locations of a sitemap are the texts between `<loc>` and `</loc>`, with their references undone.
No slug and no site URL can forge such a place, so the locations are those of the listed entries, each
once and in their order.
-/
namespace Folio.Sitemap

def unescape : Text → Text
  | '&' :: 'a' :: 'm' :: 'p' :: ';' :: s => '&' :: unescape s
  | '&' :: 'l' :: 't' :: ';' :: s => '<' :: unescape s
  | '&' :: 'g' :: 't' :: ';' :: s => '>' :: unescape s
  | '&' :: 'q' :: 'u' :: 'o' :: 't' :: ';' :: s => '"' :: unescape s
  | '&' :: 'a' :: 'p' :: 'o' :: 's' :: ';' :: s => '\'' :: unescape s
  | c :: s => c :: unescape s
  | [] => []

theorem unescape_cons_of_ne {c : Char} (h : c ≠ '&') (s : Text) :
    unescape (c :: s) = c :: unescape s := by
  rw [unescape] <;> exact fun _ e => absurd e h

theorem unescape_escapeChar (c : Char) (r : Text) : unescape (escapeChar c ++ r) = c :: unescape r := by
  unfold escapeChar
  split
  · simp [unescape]
  · simp [unescape]
  · simp [unescape]
  · simp [unescape]
  · simp [unescape]
  · rename_i hamp _ _ _ _
    exact unescape_cons_of_ne hamp r

theorem unescape_escape (s : Text) : unescape (escape s) = s := by
  induction s with
  | nil => rfl
  | cons c s ih =>
    have hs : unescape (s.flatMap escapeChar) = s := ih
    rw [escape, List.flatMap_cons, unescape_escapeChar, hs]

theorem not_mem_open_escape (s : Text) : '<' ∉ escape s := by
  intro h
  obtain ⟨c, _, hc⟩ := List.mem_flatMap.1 h
  unfold escapeChar at hc
  split at hc
  · exact absurd hc (by decide)
  · exact absurd hc (by decide)
  · exact absurd hc (by decide)
  · exact absurd hc (by decide)
  · exact absurd hc (by decide)
  · rename_i hopen _ _ _
    exact hopen (List.mem_singleton.1 hc).symm

/-- The texts after each `<loc>` up to the next `</loc>`. -/
def places : Text → List Text
  | [] => []
  | c :: s =>
    match (Text.dropStart? "<loc>" (c :: s)).bind (Text.cut? "</loc>") with
    | some (place, _) => place :: places s
    | none => places s

def locations (s : Text) : List Text := (places s).map unescape

theorem places_cons_of_ne {c : Char} (h : c ≠ '<') (s : Text) : places (c :: s) = places s := by
  have hd : Text.dropStart? "<loc>" (c :: s) = none := if_neg h.symm
  rw [places, hd]
  rfl

theorem places_append {w : Text} (h : '<' ∉ w) (r : Text) : places (w ++ r) = places r := by
  induction w with
  | nil => rfl
  | cons c w ih =>
    have hc : c ≠ '<' := fun e => h (e ▸ List.mem_cons_self)
    rw [List.cons_append, places_cons_of_ne hc]
    exact ih fun hm => h (List.mem_cons_of_mem c hm)

theorem places_place {w : Text} (h : '<' ∉ w) (r : Text) :
    places ("<loc>" ++ (w ++ ("</loc>" ++ r))) = w :: places r := by
  have hplace : (Text.dropStart? "<loc>" ("<loc>" ++ (w ++ ("</loc>" ++ r)))).bind
      (Text.cut? "</loc>") = some (w, r) := by
    rw [Text.dropStart?_append, Option.bind_some]
    exact Text.cut?_append (p := "/loc>") h r
  have hclose : places ("</loc>" ++ r) = places r := rfl
  have hrest : places ("loc>" ++ (w ++ ("</loc>" ++ r))) = places r := by
    rw [places_append (by decide), places_append h, hclose]
  change places ('<' :: ("loc>" ++ (w ++ ("</loc>" ++ r)))) = _
  rw [places, ← hrest]
  exact congrArg (fun found : Option (Text × Text) => match found with
    | some (place, _) => place :: places ("loc>" ++ (w ++ ("</loc>" ++ r)))
    | none => places ("loc>" ++ (w ++ ("</loc>" ++ r)))) hplace

theorem not_mem_open_padded (width n : Nat) : '<' ∉ Text.padded width n := by
  intro h
  rw [Text.padded, List.leftpad] at h
  rcases List.mem_append.1 h with h | h
  · exact absurd (List.eq_of_mem_replicate h) (by decide)
  · have hdigit : '<'.isDigit = true := Nat.isDigit_of_mem_toDigits (by omega) (by omega) h
    exact absurd hdigit (by decide)

theorem not_mem_open_date (d : Date) : '<' ∉ d.write := by
  have hyear : '<' ∉ Date.writeYear d.year := by
    unfold Date.writeYear
    split
    · exact not_mem_open_padded _ _
    · intro h
      rcases List.mem_cons.1 h with h | h
      · split at h
        · exact absurd h (by decide)
        · exact absurd h (by decide)
      · exact not_mem_open_padded _ _ h
  simp [Date.write, hyear, not_mem_open_padded]

theorem places_modified (updated : Option Timestamp) (r : Text) :
    places ((match updated with
      | some t => "    <lastmod>" ++ t.date.write ++ "</lastmod>\n"
      | none => ([] : Text)) ++ r) = places r := by
  cases updated with
  | none => rfl
  | some t =>
    have hwrite : "    <lastmod>" ++ t.date.write ++ "</lastmod>\n" ++ r =
        "    <lastmod>" ++ (t.date.write ++ ("</lastmod>\n" ++ r)) := by
      exact (List.append_assoc _ _ _).trans (List.append_assoc _ _ _)
    have hopen (s : Text) : places ("    <lastmod>" ++ s) = places s := rfl
    have hclose : places ("</lastmod>\n" ++ r) = places r := rfl
    calc
      _ = places ("    <lastmod>" ++ (t.date.write ++ ("</lastmod>\n" ++ r))) := congrArg places hwrite
      _ = places (t.date.write ++ ("</lastmod>\n" ++ r)) := hopen _
      _ = places ("</lastmod>\n" ++ r) := places_append (not_mem_open_date t.date) _
      _ = places r := hclose

theorem places_writeEntry (site : Site) (e : SitemapEntry) (r : Text) :
    places (writeEntry site e ++ r) = escape (location site e) :: places r := by
  have hassoc (a b c d z : Text) : a ++ b ++ c ++ d ++ z ++ r = a ++ (b ++ (c ++ (d ++ (z ++ r)))) := by
    simp only [List.append_assoc]
  have hopen (s : Text) : places ("  <url>\n    " ++ s) = places s := rfl
  have hbreak (s : Text) : places ("\n" ++ s) = places s := rfl
  have hclose : places ("  </url>\n" ++ r) = places r := rfl
  have hrest := places_modified e.updated ("  </url>\n" ++ r)
  calc
    _ = places ("  <url>\n    " ++ ("<loc>" ++ (escape (location site e) ++ ("</loc>" ++ ("\n" ++
          ((match e.updated with
            | some t => "    <lastmod>" ++ t.date.write ++ "</lastmod>\n"
            | none => ([] : Text)) ++ ("  </url>\n" ++ r))))))) := congrArg places (hassoc _ _ _ _ _)
    _ = _ := by rw [hopen, places_place (not_mem_open_escape _), hbreak, hrest, hclose]

theorem locations_write (site : Site) (entries : List SitemapEntry) :
    locations (write site entries) =
      (entries.filter SitemapEntry.isListed).map (location site) := by
  have hentries (l : List SitemapEntry) (r : Text) :
      places (l.flatMap (writeEntry site) ++ r) =
        l.map (fun e => escape (location site e)) ++ places r := by
    induction l with
    | nil => rfl
    | cons e l ih =>
      rw [List.flatMap_cons, List.append_assoc, places_writeEntry, ih, List.map_cons, List.cons_append]
  have hopen (s : Text) : places ("<?xml version=\"1.0\" encoding=\"UTF-8\"?>\n<urlset xmlns=\"" ++
      nameSpace ++ "\">\n" ++ s) = places s := rfl
  have hclose : places ("</urlset>\n" : Text) = [] := rfl
  have hplaces : places (write site entries) =
      (entries.filter SitemapEntry.isListed).map fun e => escape (location site e) := by
    calc
      _ = places (_ ++ (_ ++ _)) := congrArg places (List.append_assoc _ _ _)
      _ = _ := by rw [hopen, hentries, hclose, List.append_nil]
  rw [locations, hplaces, List.map_map]
  exact List.map_congr_left fun e _ => unescape_escape _

end Folio.Sitemap
