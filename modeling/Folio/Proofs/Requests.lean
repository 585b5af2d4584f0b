import Folio.Proofs.Registry

set_option autoImplicit false

/-!
# Requests for ids

Whatever was asked of a registry before, a request is answered with the id it asks for, or, if that was
given out, with the least numbered form that was not. The search for it ends: there are more numbers to
try than there are given ids. So no id is given out twice, and one that is assigned to a node is a
letter with letters, digits, underscores and hyphens behind it.
-/
namespace Folio
namespace Identity

theorem exists_firstFree (taken : List Text) (base : Text) (fuel n : Nat) :
    ∃ m, n ≤ m ∧ firstFree taken base fuel n = numbered base m ∧
      ∀ i, n ≤ i → i < m → numbered base i ∈ taken := by
  induction fuel generalizing n with
  | zero => exact ⟨n, le_rfl, rfl, fun i _ _ => by omega⟩
  | succ fuel ih =>
    rw [firstFree]
    split
    · rename_i hn
      obtain ⟨m, hm, he, hbelow⟩ := ih (n + 1)
      refine ⟨m, by omega, he, fun i hi him => ?_⟩
      by_cases hin : i = n
      · rw [hin]
        exact List.contains_iff_mem.1 hn
      · exact hbelow i (by omega) him
    · exact ⟨n, le_rfl, rfl, fun i _ _ => by omega⟩

theorem numbered_ne (base : Text) (n : Nat) : base ≠ numbered base n := by
  intro h
  have hlength := congrArg List.length h
  simp [numbered] at hlength

theorem le_of_passed {given : List Text} {base : Text} {n : Nat} (hbase : base ∈ given)
    (hbelow : ∀ i, 2 ≤ i → i < n → numbered base i ∈ given) : n ≤ given.length + 1 := by
  let passed := base :: (List.range (n - 2)).map fun i => numbered base (i + 2)
  have hnodup : passed.Nodup := by
    refine List.nodup_cons.2 ⟨fun hm => ?_, List.nodup_range.map fun i j e => ?_⟩
    · obtain ⟨i, _, he⟩ := List.mem_map.1 hm
      exact numbered_ne base _ he.symm
    · have := numbered_inj e
      omega
  have hsub : passed ⊆ given := by
    intro t ht
    rcases List.mem_cons.1 ht with rfl | ht
    · exact hbase
    · obtain ⟨i, hi, rfl⟩ := List.mem_map.1 ht
      have := List.mem_range.1 hi
      exact hbelow (i + 2) (by omega) (by omega)
  have hlength := (hnodup.subperm hsub).length_le
  simp only [passed, List.length_cons, List.length_map, List.length_range] at hlength
  omega

/-- The id that is due to a request for a base after some ids were given out: the base, or its least
    numbered form, whose number is bounded by how many were given out. -/
inductive Due (given : List Text) (base : Text) : Text → Prop
  | base (new : base ∉ given) : Due given base base
  | numbered {n : Nat} (taken : base ∈ given) (two_le : 2 ≤ n) (le : n ≤ given.length + 1)
      (new : numbered base n ∉ given) (least : ∀ m, 2 ≤ m → m < n → numbered base m ∈ given) :
      Due given base (numbered base n)

theorem Due.perm {given given' : List Text} {base id : Text} (h : Due given base id)
    (hp : given.Perm given') : Due given' base id := by
  cases h with
  | base new => exact .base (mt hp.mem_iff.2 new)
  | numbered taken two_le le new least =>
    exact .numbered (hp.mem_iff.1 taken) two_le (hp.length_eq ▸ le) (mt hp.mem_iff.2 new)
      fun m hm hmn => hp.mem_iff.1 (least m hm hmn)

def IsElementId : Text → Prop
  | [] => False
  | c :: s => c.isAlpha = true ∧ IsId s

theorem IsElementId.append {s t : Text} (hs : IsElementId s) (ht : IsId t) : IsElementId (s ++ t) := by
  cases s with
  | nil => exact hs.elim
  | cons c s => exact ⟨hs.1, isId_append hs.2 ht⟩

theorem isElementId_withLetter {t : Text} (ht : IsId t) : IsElementId (withLetter t) := by
  have hel : IsElementId (("el-" : Text) ++ t) := ⟨by decide, isId_append (s := ['l', '-']) (by decide) ht⟩
  cases t with
  | nil => exact hel
  | cons c s =>
    by_cases hc : c.isAlpha = true
    · rw [withLetter, if_pos (by simpa using hc)]
      exact ⟨hc, fun d hd => ht d (List.mem_cons_of_mem c hd)⟩
    · rw [withLetter, if_neg (by simpa using hc)]
      exact hel

theorem isElementId_base (scope : Scope) (nodeId : Text) (props : Json.Fields) :
    IsElementId (base scope nodeId props) := by
  unfold base
  cases h : authored? props with
  | none =>
    have hmark : IsElementId (scopeMark scope ++ "-") := by
      cases scope <;> exact ⟨by decide, by decide⟩
    exact hmark.append (isId_token nodeId)
  | some t =>
    unfold authored? at h
    obtain ⟨metadata, _, h⟩ := Option.bind_eq_some_iff.1 h
    obtain ⟨written, _, h⟩ := Option.bind_eq_some_iff.1 h
    dsimp only at h
    split at h
    · simp at h
    · obtain rfl := Option.some.inj h
      exact isElementId_withLetter (isId_token _)

theorem Due.isElementId {given : List Text} {base id : Text} (h : Due given base id)
    (hb : IsElementId base) : IsElementId id := by
  cases h with
  | base _ => exact hb
  | @numbered n _ _ _ _ _ =>
    rw [Identity.numbered, List.append_assoc]
    exact hb.append (isId_numbered (s := []) (by decide) n)

end Identity

open Identity

namespace Registry

theorem due_free (r : Registry) (base : Text) : Due r.taken base (r.free base) := by
  have hnew := r.free_not_mem base
  rw [free] at hnew ⊢
  split
  · rename_i htaken
    rw [if_pos htaken] at hnew
    have htaken := List.contains_iff_mem.1 htaken
    obtain ⟨n, hn, he, hbelow⟩ := exists_firstFree r.taken base r.taken.length 2
    rw [he] at hnew ⊢
    exact .numbered htaken hn (le_of_passed htaken hbelow) hnew hbelow
  · rename_i hfree
    exact .base fun hm => hfree (List.contains_iff_mem.2 hm)

end Registry

inductive Request where
  | claim (base : Text)
  | assign (scope : Scope) (nodeId : Text) (props : Json.Fields)

namespace Registry

def serve (r : Registry) : Request → Text × Registry
  | .claim base => r.claim base
  | .assign scope nodeId props => r.assign scope nodeId props

/-- The answers to requests made one after the other. -/
def serveAll (r : Registry) : List Request → List Text × Registry
  | [] => ([], r)
  | q :: qs =>
    let (id, r) := r.serve q
    let (ids, r) := r.serveAll qs
    (id :: ids, r)

theorem serve_spec (r : Registry) (q : Request) :
    ∃ id, r.serve q = (id, ⟨id :: r.taken⟩) ∧ id ∉ r.taken := by
  cases q with
  | claim base => exact ⟨_, rfl, r.free_not_mem base⟩
  | assign scope nodeId props => exact ⟨_, rfl, r.free_not_mem _⟩

theorem serveAll_spec (r : Registry) (qs : List Request) :
    (r.serveAll qs).2.taken = (r.serveAll qs).1.reverse ++ r.taken ∧
      (r.taken.Nodup → (r.serveAll qs).2.taken.Nodup) := by
  induction qs generalizing r with
  | nil => exact ⟨rfl, id⟩
  | cons q qs ih =>
    obtain ⟨id, he, hnew⟩ := r.serve_spec q
    obtain ⟨htaken, hnodup⟩ := ih ⟨id :: r.taken⟩
    simp only [serveAll, he]
    refine ⟨by simp [htaken], fun h => hnodup (List.nodup_cons.2 ⟨hnew, h⟩)⟩

/-- After any requests the answers are distinct, and a further request gets what is due to it. -/
theorem answers_after (history : List Request) :
    let given := (empty.serveAll history).1
    let r := (empty.serveAll history).2
    given.Nodup ∧ (∀ base, Due given base (r.claim base).1) ∧
      ∀ scope nodeId props, Due given (Identity.base scope nodeId props) (r.assign scope nodeId props).1 ∧
        IsElementId (r.assign scope nodeId props).1 := by
  obtain ⟨htaken, hnodup⟩ := empty.serveAll_spec history
  rw [show empty.taken = [] from rfl, List.append_nil] at htaken
  have hperm : (empty.serveAll history).2.taken.Perm (empty.serveAll history).1 := by
    rw [htaken]
    exact List.reverse_perm _
  have hdue : ∀ base, Due (empty.serveAll history).1 base ((empty.serveAll history).2.free base) :=
    fun base => (due_free _ base).perm hperm
  refine ⟨hperm.nodup_iff.1 (hnodup List.nodup_nil), hdue, fun scope nodeId props => ?_⟩
  have hassigned := hdue (Identity.base scope nodeId props)
  exact ⟨hassigned, hassigned.isElementId (isElementId_base scope nodeId props)⟩

example : (empty.serveAll [.claim "a-2", .claim "a", .claim "a", .claim "a-2"]).1 =
    (["a-2", "a", "a-3", "a-2-2"] : List String).map String.toList := by decide

end Registry

end Folio
