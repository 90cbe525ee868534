import Refuter.Pointer
import Refuter.Proofs.Run

/-!
# Merging pointers is a meet

Merging two pointers gives the pointer that both can be at once. `Pointer.MergeOutcome` says in
which cases it gives what. With narrowing the candidates of the result are the common ones, so that
on candidates merging is intersection, whatever numbers are taken on the way.
-/

namespace Refuter

/-! ## 1. Common members -/

/-- The sets have a common member. -/
def SortedSet.Meets (cs ds : Locations) : Prop := ∃ x ∈ cs, x ∈ ds

namespace SortedSet

variable {cs ds es : Locations}

theorem isEmpty_eq_false_iff : cs.isEmpty = false ↔ ∃ y, y ∈ cs := by
  unfold isEmpty
  rw [Bool.eq_false_iff, Ne, List.isEmpty_iff, List.eq_nil_iff_forall_not_mem]
  exact Classical.not_forall_not

theorem inter_eq_left (h : ∀ x ∈ cs, x ∈ ds) : cs.inter ds = cs := by
  refine ext_mem fun x => ?_
  rw [mem_inter]
  exact ⟨fun hx => hx.1, fun hx => ⟨hx, h x hx⟩⟩

theorem inter_eq_right (h : ∀ x ∈ ds, x ∈ cs) : cs.inter ds = ds := by
  rw [inter_comm]
  exact inter_eq_left h

theorem inter_self : cs.inter cs = cs := inter_eq_left fun _ hx => hx

theorem inter_assoc : (cs.inter ds).inter es = cs.inter (ds.inter es) :=
  ext_mem fun x => by simp only [mem_inter, and_assoc]

theorem size_inter_le_left : (cs.inter ds).size ≤ cs.size := List.length_filter_le _ _

theorem size_inter_le_right : (cs.inter ds).size ≤ ds.size := by
  rw [inter_comm]
  exact size_inter_le_left

theorem meets_iff : cs.Meets ds ↔ ∃ x, x ∈ cs.inter ds :=
  exists_congr fun _ => mem_inter.symm

theorem isEmpty_inter_eq_false_iff : (cs.inter ds).isEmpty = false ↔ cs.Meets ds :=
  isEmpty_eq_false_iff.trans meets_iff.symm

theorem inter_eq_empty (h : ¬ cs.Meets ds) : cs.inter ds = ∅ :=
  ext_mem fun x => ⟨fun hx => absurd (meets_iff.2 ⟨x, hx⟩) h, fun hx => absurd hx (not_mem_empty x)⟩

end SortedSet

/-! ## 2. How a merge comes out -/

namespace Pointer

variable {p q r : Pointer} {cs : Locations} {n : Nat} {narrowing : Bool}

/-- What merging computes: nothing for pointers without a common candidate, one of the two where
that will do, and otherwise a pointer over the common candidates. -/
inductive MergeOutcome (narrowing : Bool) (p q : Pointer) : Fresh (Option Pointer) → Prop
  | apart (hno : ¬ p.candidates.Meets q.candidates) : MergeOutcome narrowing p q (pure none)
  | same (hpq : p = q) : MergeOutcome narrowing p q (pure (some p))
  | left (hp : narrowing = true ∨ p.isChoice = false) (hq : q.isChoice = true)
      (hm : p.candidates.Meets q.candidates) (hsub : ∀ x ∈ p.candidates, x ∈ q.candidates) :
      MergeOutcome narrowing p q (pure (some p))
  | right (hp : p.isChoice = true) (hq : narrowing = true ∨ q.isChoice = false)
      (hm : p.candidates.Meets q.candidates) (hsub : ∀ x ∈ q.candidates, x ∈ p.candidates) :
      MergeOutcome narrowing p q (pure (some q))
  | wider (hoff : narrowing = false) (hp : p.isChoice = true) (hq : q.isChoice = true)
      (hm : p.candidates.Meets q.candidates) :
      MergeOutcome narrowing p q
        (pure (some (if p.candidates.size ≥ q.candidates.size then p else q)))
  | common (hon : narrowing = true) (hp : p.isChoice = true) (hq : q.isChoice = true)
      (hm : p.candidates.Meets q.candidates)
      (hltp : (p.candidates.inter q.candidates).size < p.candidates.size)
      (hltq : (p.candidates.inter q.candidates).size < q.candidates.size) :
      MergeOutcome narrowing p q (ofCandidates (p.candidates.inter q.candidates))

theorem contains_iff {x : Location} : p.contains x = true ↔ x ∈ p.candidates := decide_eq_true_iff

theorem meets_known {x : Location} :
    p.candidates.Meets (known x).candidates ↔ x ∈ p.candidates := by
  constructor
  · rintro ⟨y, hp, hy⟩
    exact SortedSet.mem_singleton.1 hy ▸ hp
  · intro hp
    exact ⟨x, hp, SortedSet.mem_singleton.2 rfl⟩

theorem known_meets {x : Location} :
    (known x).candidates.Meets q.candidates ↔ x ∈ q.candidates := by
  constructor
  · rintro ⟨y, hy, hq⟩
    exact SortedSet.mem_singleton.1 hy ▸ hq
  · intro hq
    exact ⟨x, SortedSet.mem_singleton.2 rfl, hq⟩

theorem merge_outcome (narrowing : Bool) (p q : Pointer) :
    MergeOutcome narrowing p q (merge narrowing p q) := by
  unfold merge
  by_cases hpq : p = q
  · rw [if_pos hpq]
    exact .same hpq
  rw [if_neg hpq]
  cases p with
  | known x =>
    dsimp only
    by_cases hcontains : q.contains x = true
    · rw [if_pos hcontains]
      have hx : x ∈ q.candidates := contains_iff.1 hcontains
      cases q with
      | known y =>
        -- two known pointers with a common candidate are the same
        exact absurd (congrArg known (SortedSet.mem_singleton.1 hx)) hpq
      | choice j ds =>
        exact .left (.inr rfl) rfl (known_meets.2 hx) fun y hy => SortedSet.mem_singleton.1 hy ▸ hx
    · rw [if_neg hcontains]
      exact .apart fun hm => hcontains (contains_iff.2 (known_meets.1 hm))
  | choice i cs =>
    cases q with
    | known y =>
      dsimp only
      by_cases hcontains : (choice i cs).contains y = true
      · rw [if_pos hcontains]
        have hy : y ∈ cs := contains_iff.1 hcontains
        exact .right rfl (.inr rfl) (meets_known.2 hy) fun x hx => SortedSet.mem_singleton.1 hx ▸ hy
      · rw [if_neg hcontains]
        exact .apart fun hm => hcontains (contains_iff.2 (meets_known.1 hm))
    | choice j ds =>
      dsimp only
      by_cases hm : cs.Meets ds
      · have hboth : (cs.inter ds).isEmpty = false := SortedSet.isEmpty_inter_eq_false_iff.2 hm
        rw [if_neg (by rw [hboth]; exact Bool.false_ne_true)]
        cases narrowing with
        | false => exact .wider rfl rfl rfl hm
        | true =>
          -- equal sizes mean that one set is part of the other
          rw [if_neg (by decide)]
          by_cases hcs : (cs.inter ds).size = cs.size
          · rw [if_pos hcs]
            exact .left (.inl rfl) rfl hm fun x => SortedSet.mem_of_size_inter hcs
          rw [if_neg hcs]
          by_cases hds : (cs.inter ds).size = ds.size
          · rw [if_pos hds]
            rw [SortedSet.inter_comm] at hds
            exact .right rfl (.inl rfl) hm fun x => SortedSet.mem_of_size_inter hds
          rw [if_neg hds]
          exact .common rfl rfl rfl hm (Nat.lt_of_le_of_ne SortedSet.size_inter_le_left hcs)
            (Nat.lt_of_le_of_ne SortedSet.size_inter_le_right hds)
      · have hboth : (cs.inter ds).isEmpty = true := by
          rw [SortedSet.inter_eq_empty hm]
          rfl
        rw [if_pos hboth]
        exact .apart hm

/-! ## 3. What a merged pointer is -/

theorem exists_mem_candidates (h : p.isWellFormed = true) : ∃ x, x ∈ p.candidates := by
  cases p with
  | known x => exact ⟨x, SortedSet.mem_singleton.2 rfl⟩
  | choice i cs =>
    have hsize : 2 ≤ cs.toList.length := of_decide_eq_true h
    have hpos : 0 < cs.toList.length := by omega
    obtain ⟨x, hx⟩ := List.exists_mem_of_length_pos hpos
    exact ⟨x, hx⟩

/-- A pointer over candidates is known or takes the next number. -/
theorem ofCandidates_spec (h : cs.isEmpty = false) (n : Nat) :
    ∃ r m, ofCandidates cs n = (some r, m) ∧ r.candidates = cs ∧ n ≤ m ∧
      ∀ i, r.id? = some i → i = n ∧ n < m := by
  obtain ⟨hempty, -⟩ | ⟨x, rfl, heq⟩ | ⟨-, heq⟩ := ofCandidates_cases cs n
  · rw [hempty] at h
    cases h
  · refine ⟨.known x, n, heq, rfl, Nat.le_refl n, fun i hi => ?_⟩
    cases hi
  · refine ⟨.choice n cs, n + 1, heq, rfl, Nat.le_succ n, fun i hi => ?_⟩
    cases hi
    exact ⟨rfl, Nat.lt_succ_self n⟩

theorem isWellFormed_of_ofCandidates (h : (ofCandidates cs n).1 = some r) :
    r.isWellFormed = true := by
  obtain ⟨-, heq⟩ | ⟨x, -, heq⟩ | ⟨hsize, heq⟩ := ofCandidates_cases cs n
  · rw [heq] at h
    cases h
  · rw [heq] at h
    cases h
    rfl
  · rw [heq] at h
    cases h
    exact decide_eq_true hsize

theorem isWellFormed_of_merge (hp : p.isWellFormed = true) (hq : q.isWellFormed = true)
    (h : (merge narrowing p q n).1 = some r) : r.isWellFormed = true := by
  have hout := merge_outcome narrowing p q
  generalize merge narrowing p q = x at hout h
  cases hout with
  | apart => cases h
  | same | left =>
    cases h
    exact hp
  | right =>
    cases h
    exact hq
  | wider =>
    cases h
    split
    · exact hp
    · exact hq
  | common => exact isWellFormed_of_ofCandidates h

/-- What two pointers are merged to differs only from a choice. -/
theorem eq_or_isChoice_of_merge {m : Nat} (h : merge narrowing p q n = (some r, m)) :
    (p = r ∨ p.isChoice = true) ∧ (q = r ∨ q.isChoice = true) := by
  have hout := merge_outcome narrowing p q
  generalize merge narrowing p q = x at hout h
  cases hout with
  | apart => cases h
  | same hpq =>
    cases h
    exact ⟨.inl rfl, .inl hpq.symm⟩
  | left _ hqc =>
    cases h
    exact ⟨.inl rfl, .inr hqc⟩
  | right hpc =>
    cases h
    exact ⟨.inr hpc, .inl rfl⟩
  | wider _ hpc hqc => exact ⟨.inr hpc, .inr hqc⟩
  | common _ hpc hqc => exact ⟨.inr hpc, .inr hqc⟩

/-- Merging fails exactly for pointers without a common candidate. -/
theorem merge_eq_none_iff (hq : ∃ x, x ∈ q.candidates) :
    (merge narrowing p q n).1 = none ↔ ¬ p.candidates.Meets q.candidates := by
  have hsome : ∀ {r : Pointer}, p.candidates.Meets q.candidates →
      (some r = none ↔ ¬ p.candidates.Meets q.candidates) := fun hm =>
    ⟨fun h => (by cases h), fun hno => absurd hm hno⟩
  have hout := merge_outcome narrowing p q
  generalize merge narrowing p q = x at hout ⊢
  cases hout with
  | apart hno => exact ⟨fun _ => hno, fun _ => rfl⟩
  | same hpq =>
    obtain ⟨x, hx⟩ := hq
    exact hsome ⟨x, hpq ▸ hx, hx⟩
  | left _ _ hm | right _ _ hm | wider _ _ _ hm => exact hsome hm
  | common _ _ _ hm =>
    obtain ⟨r, m, hr, -⟩ := ofCandidates_spec (SortedSet.isEmpty_inter_eq_false_iff.2 hm) n
    rw [hr]
    exact hsome hm

theorem overlaps_of_meets (h : p.candidates.Meets q.candidates) : p.overlaps q = true := by
  obtain ⟨x, hp, hq⟩ := h
  cases p with
  | known y =>
    obtain rfl := SortedSet.mem_singleton.1 hp
    exact decide_eq_true hq
  | choice i cs =>
    cases q with
    | known y =>
      obtain rfl := SortedSet.mem_singleton.1 hq
      exact decide_eq_true hp
    | choice j ds =>
      refine Bool.or_eq_true_iff.2 (.inr (List.any_eq_true.2 ⟨x, hp, ?_⟩))
      exact decide_eq_true hq

/-- Where a number stands for the same candidates, pointers that overlap have one in common. -/
theorem meets_of_overlaps (hp : p.isWellFormed = true)
    (hids : ∀ i, p.id? = some i → q.id? = some i → p.candidates = q.candidates)
    (h : p.overlaps q = true) : p.candidates.Meets q.candidates := by
  cases p with
  | known x => exact known_meets.2 (contains_iff.1 h)
  | choice i cs =>
    cases q with
    | known y => exact meets_known.2 (contains_iff.1 h)
    | choice j ds =>
      obtain hij | hany := Bool.or_eq_true_iff.1 h
      · -- choices with one number overlap without a look at the candidates
        obtain rfl : i = j := of_decide_eq_true hij
        obtain ⟨x, hx⟩ := exists_mem_candidates hp
        exact ⟨x, hx, hids i rfl rfl ▸ hx⟩
      · obtain ⟨x, hx, hmem⟩ := List.any_eq_true.1 hany
        exact ⟨x, hx, of_decide_eq_true hmem⟩

/-! ## 4. Merging with narrowing -/

/-- Locations that a pointer can be, if there is one. -/
def candidatesOf : Option Pointer → Locations
  | none => ∅
  | some p => p.candidates

/-- Merges two pointers that may be missing. -/
def meet : Option Pointer → Option Pointer → Fresh (Option Pointer)
  | some p, some q => merge true p q
  | _, _ => pure none

theorem candidatesOf_merge :
    candidatesOf (merge true p q n).1 = p.candidates.inter q.candidates := by
  have hout := merge_outcome true p q
  generalize merge true p q = x at hout ⊢
  cases hout with
  | apart hno => exact (SortedSet.inter_eq_empty hno).symm
  | same hpq =>
    subst hpq
    exact SortedSet.inter_self.symm
  | left _ _ _ hsub => exact (SortedSet.inter_eq_left hsub).symm
  | right _ _ _ hsub => exact (SortedSet.inter_eq_right hsub).symm
  | wider hoff => cases hoff
  | common _ _ _ hm =>
    obtain ⟨r, m, hr, hcandidates, -⟩ :=
      ofCandidates_spec (SortedSet.isEmpty_inter_eq_false_iff.2 hm) n
    rw [hr]
    exact hcandidates

theorem candidatesOf_meet {o o' : Option Pointer} :
    candidatesOf (meet o o' n).1 = (candidatesOf o).inter (candidatesOf o') := by
  cases o with
  | none => rfl
  | some p =>
    cases o' with
    | none =>
      refine (SortedSet.inter_eq_empty ?_).symm
      rintro ⟨x, -, hx⟩
      exact SortedSet.not_mem_empty x hx
    | some q => exact candidatesOf_merge

/-- How two merges in a row are grouped makes no difference to the candidates. -/
theorem candidatesOf_merge_assoc {m : Nat} :
    candidatesOf ((merge true p q >>= fun o => meet o (some r)) n).1 =
      candidatesOf ((merge true q r >>= fun o => meet (some p) o) m).1 := by
  rw [Fresh.bind_apply, Fresh.bind_apply, candidatesOf_meet, candidatesOf_meet,
    candidatesOf_merge, candidatesOf_merge]
  exact SortedSet.inter_assoc

/-! ## 5. Merging without narrowing, and numbers -/

/-- Without narrowing one of the two pointers stays, and no common candidate is lost. -/
theorem merge_covers (h : (merge false p q n).1 = some r) :
    (r = p ∨ r = q) ∧ ∀ x ∈ p.candidates.inter q.candidates, x ∈ r.candidates := by
  have hleft : ∀ x ∈ p.candidates.inter q.candidates, x ∈ p.candidates := fun x hx =>
    (SortedSet.mem_inter.1 hx).1
  have hright : ∀ x ∈ p.candidates.inter q.candidates, x ∈ q.candidates := fun x hx =>
    (SortedSet.mem_inter.1 hx).2
  have hout := merge_outcome false p q
  generalize merge false p q = x at hout h
  cases hout with
  | apart => cases h
  | same | left =>
    cases h
    exact ⟨.inl rfl, hleft⟩
  | right =>
    cases h
    exact ⟨.inr rfl, hright⟩
  | wider =>
    cases h
    split
    · exact ⟨.inl rfl, hleft⟩
    · exact ⟨.inr rfl, hright⟩
  | common hon => cases hon

/-- Merging takes a number for a proper part of both sets with more than one candidate. -/
theorem snd_merge : (merge narrowing p q n).2 =
    if narrowing = true ∧ 2 ≤ (p.candidates.inter q.candidates).size ∧
      (p.candidates.inter q.candidates).size < p.candidates.size ∧
      (p.candidates.inter q.candidates).size < q.candidates.size then n + 1 else n := by
  have hout := merge_outcome narrowing p q
  generalize merge narrowing p q = x at hout ⊢
  cases hout with
  | apart hno =>
    rw [SortedSet.inter_eq_empty hno]
    exact (if_neg fun h => absurd h.2.1 (by decide)).symm
  | same hpq =>
    subst hpq
    rw [SortedSet.inter_self]
    exact (if_neg fun h => Nat.lt_irrefl _ h.2.2.1).symm
  | left _ _ _ hsub =>
    rw [SortedSet.inter_eq_left hsub]
    exact (if_neg fun h => Nat.lt_irrefl _ h.2.2.1).symm
  | right _ _ _ hsub =>
    rw [SortedSet.inter_eq_right hsub]
    exact (if_neg fun h => Nat.lt_irrefl _ h.2.2.2).symm
  | wider hoff => exact (if_neg fun h => by cases hoff.symm.trans h.1).symm
  | common hon _ _ hm hltp hltq =>
    obtain ⟨hempty, -⟩ | ⟨x, hx, heq⟩ | ⟨htwo, heq⟩ :=
      ofCandidates_cases (p.candidates.inter q.candidates) n
    · rw [SortedSet.isEmpty_inter_eq_false_iff.2 hm] at hempty
      cases hempty
    · rw [heq, hx]
      exact (if_neg fun h => Nat.not_succ_le_self 1 h.2.1).symm
    · rw [heq]
      exact (if_pos ⟨hon, htwo, hltp, hltq⟩).symm

theorem le_merge : n ≤ (merge narrowing p q n).2 := by
  rw [snd_merge]
  split
  · exact Nat.le_succ n
  · exact Nat.le_refl n

/-- Merging is a meet: it fails exactly for pointers without a common candidate, which are those
that do not overlap. With narrowing the candidates that are left are the common ones, so merging is
commutative, idempotent and associative on candidates. Without narrowing one of the two sets stays,
with all common candidates. What is left is known or a choice between at least two, and a number is
taken exactly if that choice had to be made anew. -/
theorem merge_isMeet (hp : p.isWellFormed = true) (hq : q.isWellFormed = true)
    (hids : ∀ i, p.id? = some i → q.id? = some i → p.candidates = q.candidates)
    (narrowing : Bool) (n : Nat) :
    ((merge narrowing p q n).1 = none ↔ ¬ p.candidates.Meets q.candidates) ∧
    (p.overlaps q = false ↔ ¬ p.candidates.Meets q.candidates) ∧
    candidatesOf (merge true p q n).1 = p.candidates.inter q.candidates ∧
    (∀ m, candidatesOf (merge true q p m).1 = candidatesOf (merge true p q n).1) ∧
    candidatesOf (merge true p p n).1 = p.candidates ∧
    (∀ r m, candidatesOf ((merge true p q >>= fun o => meet o (some r)) n).1 =
      candidatesOf ((merge true q r >>= fun o => meet (some p) o) m).1) ∧
    (∀ r, (merge false p q n).1 = some r →
      (r.candidates = p.candidates ∨ r.candidates = q.candidates) ∧
      ∀ x ∈ p.candidates.inter q.candidates, x ∈ r.candidates) ∧
    (∀ r, (merge narrowing p q n).1 = some r →
      (∃ x, r = known x) ∨ ∃ i cs, r = choice i cs ∧ 2 ≤ cs.size) ∧
    (merge narrowing p q n).2 =
      if narrowing = true ∧ 2 ≤ (p.candidates.inter q.candidates).size ∧
        (p.candidates.inter q.candidates).size < p.candidates.size ∧
        (p.candidates.inter q.candidates).size < q.candidates.size then n + 1 else n := by
  refine ⟨merge_eq_none_iff (exists_mem_candidates hq), ?_, candidatesOf_merge, fun m => ?_, ?_,
    fun r m => candidatesOf_merge_assoc, fun r hr => ?_, fun r hr => ?_, snd_merge⟩
  · rw [← Bool.not_eq_true]
    exact not_congr ⟨meets_of_overlaps hp hids, overlaps_of_meets⟩
  · rw [candidatesOf_merge, candidatesOf_merge, SortedSet.inter_comm]
  · rw [candidatesOf_merge, SortedSet.inter_self]
  · obtain ⟨hone, hcovers⟩ := merge_covers hr
    exact ⟨hone.imp (congrArg candidates) (congrArg candidates), hcovers⟩
  · have hwf := isWellFormed_of_merge hp hq hr
    cases r with
    | known x => exact .inl ⟨x, rfl⟩
    | choice i cs => exact .inr ⟨i, cs, rfl, of_decide_eq_true hwf⟩

/-- A choice between objects of one class. -/
def ofObjects (i : Nat) (ids : List UInt32) : Pointer :=
  choice i (.ofList (ids.map fun k => .site ⟨k, "A", ⟨1⟩⟩))

/-- Two choices between three objects each, two of them in common. -/
theorem merge_isMeet_partly :
    (ofObjects 0 [1, 2, 3]).isWellFormed = true ∧ (ofObjects 1 [2, 3, 4]).isWellFormed = true ∧
      candidatesOf (merge true (ofObjects 0 [1, 2, 3]) (ofObjects 1 [2, 3, 4]) 7).1 =
        (ofObjects 7 [2, 3]).candidates ∧
      (merge true (ofObjects 0 [1, 2, 3]) (ofObjects 1 [2, 3, 4]) 7).2 = 8 := by
  have hids : ∀ i, (ofObjects 0 [1, 2, 3]).id? = some i → (ofObjects 1 [2, 3, 4]).id? = some i →
      (ofObjects 0 [1, 2, 3]).candidates = (ofObjects 1 [2, 3, 4]).candidates := by
    intro i h0 h1
    cases h0
    cases h1
  obtain ⟨-, -, hcandidates, -, -, -, -, -, hnext⟩ :=
    merge_isMeet (p := ofObjects 0 [1, 2, 3]) (q := ofObjects 1 [2, 3, 4]) (by decide) (by decide)
      hids true 7
  refine ⟨by decide, by decide, hcandidates.trans ?_, hnext.trans ?_⟩
  · decide
  · decide

end Pointer

end Refuter
