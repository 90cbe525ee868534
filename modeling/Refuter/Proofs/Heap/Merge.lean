import Refuter.Proofs.Heap.StaticWrite
import Refuter.Proofs.Heap.WellFormed

/-!
# What merging leaves of two pointers

Merging takes numbers on the way, but which candidates the result has depends on the candidates of
the two pointers only (`SortedSet.merged`).
-/

namespace Refuter

/-! ## 1. Numbers taken on the way -/

namespace Fresh

variable {α β : Type} {k : Nat}

/-- Started with a number from `k` on, the computation goes upwards and its result has `Q`. -/
def Above (k : Nat) (x : Fresh α) (Q : α → Prop) : Prop :=
  ∀ n, k ≤ n → n ≤ (x n).2 ∧ Q (x n).1

theorem above_pure {a : α} {Q : α → Prop} (h : Q a) : Above k (pure a) Q :=
  fun n _ => ⟨Nat.le_refl n, h⟩

theorem Above.mono {x : Fresh α} {Q R : α → Prop} (h : Above k x Q) (hQ : ∀ a, Q a → R a) :
    Above k x R :=
  fun n hn => ⟨(h n hn).1, hQ _ (h n hn).2⟩

theorem Above.bind {x : Fresh α} {f : α → Fresh β} {Q : α → Prop} {R : β → Prop}
    (hx : Above k x Q) (hf : ∀ a, Q a → Above k (f a) R) : Above k (x >>= f) R := by
  intro n hn
  obtain ⟨hle, hQ⟩ := hx n hn
  obtain ⟨hle', hR⟩ := hf _ hQ (x n).2 (Nat.le_trans hn hle)
  rw [Fresh.bind_apply]
  exact ⟨Nat.le_trans hle hle', hR⟩

theorem above_allM {test : α → Fresh Bool} {P : α → Prop} {l : List α}
    (h : ∀ a ∈ l, Above k (test a) fun b => b = true ↔ P a) :
    Above k (l.allM test) fun b => b = true ↔ ∀ a ∈ l, P a := by
  induction l with
  | nil => exact above_pure ⟨fun _ a ha => (by cases ha), fun _ => rfl⟩
  | cons a rest ih =>
    have hrest := ih fun b hb => h b (List.mem_cons_of_mem _ hb)
    rw [List.allM]
    refine (h a List.mem_cons_self).bind fun b hb => ?_
    cases b with
    | true =>
      refine hrest.mono fun c hc => ?_
      rw [hc, List.forall_mem_cons]
      exact ⟨fun hP => ⟨hb.1 rfl, hP⟩, fun hP => hP.2⟩
    | false =>
      refine above_pure ⟨fun hfalse => (by cases hfalse), fun hP => ?_⟩
      exact hb.2 (hP a List.mem_cons_self)

/-- The results are those of the elements. -/
theorem above_mapM {f : α → Fresh β} {Q : α → β → Prop} {l : List α}
    (h : ∀ a ∈ l, Above k (f a) (Q a)) :
    Above k (l.mapM f) fun bs => (∀ b ∈ bs, ∃ a ∈ l, Q a b) ∧ ∀ a ∈ l, ∃ b ∈ bs, Q a b := by
  induction l with
  | nil => exact above_pure ⟨fun b hb => (by cases hb), fun a ha => (by cases ha)⟩
  | cons a rest ih =>
    have hrest := ih fun b hb => h b (List.mem_cons_of_mem _ hb)
    rw [List.mapM_cons]
    refine (h a List.mem_cons_self).bind fun b hb => hrest.bind fun bs hbs => above_pure ⟨?_, ?_⟩
    · intro c hc
      obtain rfl | hc := List.mem_cons.1 hc
      · exact ⟨a, List.mem_cons_self, hb⟩
      · obtain ⟨d, hd, hQ⟩ := hbs.1 c hc
        exact ⟨d, List.mem_cons_of_mem _ hd, hQ⟩
    · intro c hc
      obtain rfl | hc := List.mem_cons.1 hc
      · exact ⟨b, List.mem_cons_self, hb⟩
      · obtain ⟨d, hd, hQ⟩ := hbs.2 c hc
        exact ⟨d, List.mem_cons_of_mem _ hd, hQ⟩

end Fresh

/-! ## 2. Candidates of a merged pointer -/

namespace SortedSet

variable {cs ds : Locations}

/-- Candidates that merging leaves two pointers with these ones: the common ones, but of two
choices that must not be narrowed the wider one stays. -/
def merged (narrowing : Bool) (cs ds : Locations) : Locations :=
  if narrowing || cs.size = 1 || ds.size = 1 then cs.inter ds
  else if cs.size ≥ ds.size then cs else ds

variable {narrowing : Bool}

theorem merged_self : merged narrowing cs cs = cs := by
  unfold merged
  split
  · exact inter_self
  · split <;> rfl

theorem merged_eq_inter (h : narrowing = true ∨ cs.size = 1 ∨ ds.size = 1) :
    merged narrowing cs ds = cs.inter ds := by
  refine if_pos ?_
  simp only [Bool.or_eq_true, decide_eq_true_eq, or_assoc]
  exact h

/-- What is left still meets the first set. -/
theorem Meets.merged_left (h : cs.Meets ds) : (merged narrowing cs ds).Meets cs := by
  obtain ⟨x, hc, hd⟩ := h
  refine ⟨x, ?_, hc⟩
  unfold merged
  split
  · exact mem_inter.2 ⟨hc, hd⟩
  · split
    · exact hc
    · exact hd

theorem Meets.merged_self (h : cs.Meets ds) :
    (merged narrowing cs ds).Meets (merged narrowing cs ds) := by
  obtain ⟨x, hx, -⟩ : (merged narrowing cs ds).Meets cs := h.merged_left
  exact ⟨x, hx, hx⟩

/-- A single candidate that is left is one of the second set. -/
theorem mem_right_of_merged {x : Location} (h : merged narrowing cs ds = .singleton x) :
    x ∈ ds := by
  have hx : x ∈ merged narrowing cs ds := by
    rw [h]
    exact mem_singleton.2 rfl
  unfold merged at h hx
  split at hx
  · exact (mem_inter.1 hx).2
  · rename_i hmore
    rw [if_neg hmore] at h
    simp only [Bool.or_eq_true, decide_eq_true_eq, not_or] at hmore
    split at hx
    · rename_i hwider
      rw [if_pos hwider] at h
      exact absurd (congrArg SortedSet.size h) hmore.1.2
    · exact hx

end SortedSet

namespace Pointer

variable {p q r : Pointer} {cs : Locations} {k n : Nat} {narrowing : Bool}

/-- A well-formed pointer with a single candidate is known. -/
theorem eq_known_of_candidates {x : Location} (h : p.isWellFormed = true)
    (hc : p.candidates = .singleton x) : p = .known x := by
  cases p with
  | known y =>
    have hy : y ∈ SortedSet.singleton x := by
      rw [← hc]
      exact SortedSet.mem_singleton.2 rfl
    rw [SortedSet.mem_singleton.1 hy]
  | choice i cs =>
    obtain rfl : cs = .singleton x := hc
    cases h

/-- A pointer that can be an object is no root. -/
theorem isUnique_eq_false_of_meets (h : p.candidates.Meets cs)
    (hcs : ∀ x ∈ cs, x.isSite = true) : p.isUnique = false := by
  cases p with
  | choice i ds => rfl
  | known x =>
    obtain ⟨y, hy, hmem⟩ := h
    obtain rfl := SortedSet.mem_singleton.1 hy
    have hsite := hcs y hmem
    cases y with
    | site a => rfl
    | _ => cases hsite

theorem eq_known_of_id? (h : ∀ i, p.id? ≠ some i) : ∃ x, p = .known x := by
  cases p with
  | known x => exact ⟨x, rfl⟩
  | choice i cs => exact absurd rfl (h i)

/-- `r` is what merging `p` and `q` may give. A choice that is neither of them has a number from
`k` on. -/
structure IsMerged (narrowing : Bool) (k : Nat) (p q r : Pointer) : Prop where
  candidates : r.candidates = SortedSet.merged narrowing p.candidates q.candidates
  wellFormed : r.isWellFormed = true
  origin : r = p ∨ r = q ∨ ∀ i, r.id? = some i → k ≤ i

theorem size_candidates_of_isChoice_eq_false (h : p.isChoice = false) :
    p.candidates.size = 1 := by
  cases p with
  | known x => rfl
  | choice i cs => cases h

theorem two_le_size_candidates (h : p.isWellFormed = true) (hc : p.isChoice = true) :
    2 ≤ p.candidates.size := by
  cases p with
  | known x => cases hc
  | choice i cs => exact of_decide_eq_true h

theorem above_merge_of_meets (hp : p.isWellFormed = true) (hq : q.isWellFormed = true)
    (h : p.candidates.Meets q.candidates) :
    Fresh.Above k (merge narrowing p q) fun o => ∃ r, o = some r ∧ IsMerged narrowing k p q r := by
  have hout := merge_outcome narrowing p q
  generalize merge narrowing p q = x at hout ⊢
  cases hout with
  | apart hno => exact absurd h hno
  | same hpq =>
    subst hpq
    exact Fresh.above_pure ⟨p, rfl, SortedSet.merged_self.symm, hp, .inl rfl⟩
  | left hone _ _ hsub =>
    have hmerged : SortedSet.merged narrowing p.candidates q.candidates = p.candidates :=
      (SortedSet.merged_eq_inter (hone.imp_right fun hknown =>
        .inl (size_candidates_of_isChoice_eq_false hknown))).trans (SortedSet.inter_eq_left hsub)
    exact Fresh.above_pure ⟨p, rfl, hmerged.symm, hp, .inl rfl⟩
  | right _ hone _ hsub =>
    have hmerged : SortedSet.merged narrowing p.candidates q.candidates = q.candidates :=
      (SortedSet.merged_eq_inter (hone.imp_right fun hknown =>
        .inr (size_candidates_of_isChoice_eq_false hknown))).trans (SortedSet.inter_eq_right hsub)
    exact Fresh.above_pure ⟨q, rfl, hmerged.symm, hq, .inr (.inl rfl)⟩
  | wider hoff hpc hqc _ =>
    have hps : 2 ≤ p.candidates.size := two_le_size_candidates hp hpc
    have hqs : 2 ≤ q.candidates.size := two_le_size_candidates hq hqc
    have hmerged : SortedSet.merged narrowing p.candidates q.candidates =
        if p.candidates.size ≥ q.candidates.size then p.candidates else q.candidates := by
      refine if_neg ?_
      simp only [hoff, Bool.false_or, Bool.or_eq_true, decide_eq_true_eq]
      omega
    refine Fresh.above_pure ⟨_, rfl, ?_⟩
    split
    · rename_i hwider
      rw [if_pos hwider] at hmerged
      exact ⟨hmerged.symm, hp, .inl rfl⟩
    · rename_i hwider
      rw [if_neg hwider] at hmerged
      exact ⟨hmerged.symm, hq, .inr (.inl rfl)⟩
  | common hon _ _ _ _ _ =>
    intro n hn
    obtain ⟨r, m, hr, hcandidates, hle, hnew⟩ :=
      ofCandidates_spec (SortedSet.isEmpty_inter_eq_false_iff.2 h) n
    rw [hr]
    refine ⟨hle, r, rfl, ?_, isWellFormed_of_ofCandidates (congrArg Prod.fst hr), ?_⟩
    · exact hcandidates.trans (SortedSet.merged_eq_inter (.inl hon)).symm
    · refine .inr (.inr fun i hi => ?_)
      rw [(hnew i hi).1]
      exact hn

theorem above_merge_isSome (hq : q.isWellFormed = true) :
    Fresh.Above k (merge narrowing p q) fun o => o.isSome = true ↔
      p.candidates.Meets q.candidates := by
  intro n _
  refine ⟨le_merge, ?_⟩
  dsimp only
  rw [Option.isSome_iff_ne_none, Ne, merge_eq_none_iff (exists_mem_candidates hq)]
  exact Classical.not_not

end Pointer

theorem Pointer.IsMerged.eq_known {narrowing : Bool} {k : Nat} {p r : Pointer} {y : Location}
    (h : Pointer.IsMerged narrowing k p (.known y) r) (hm : p.candidates.Meets (.singleton y)) :
    r = .known y := by
  have hy : y ∈ p.candidates := Pointer.meets_known.1 hm
  have hinter : p.candidates.inter (.singleton y) = .singleton y :=
    SortedSet.inter_eq_right fun x hx => SortedSet.mem_singleton.1 hx ▸ hy
  refine Pointer.eq_known_of_candidates h.wellFormed (h.candidates.trans ?_)
  exact (SortedSet.merged_eq_inter (.inr (.inr rfl))).trans hinter

/-- Merging with a pointer to objects gives no root. -/
theorem Pointer.IsMerged.isUnique_eq_false {narrowing : Bool} {k : Nat} {p q r : Pointer}
    (h : Pointer.IsMerged narrowing k p q r) (hq : ∀ x ∈ q.candidates, x.isSite = true) :
    r.isUnique = false := by
  cases r with
  | choice i cs => rfl
  | known x =>
    have hsite := hq x (SortedSet.mem_right_of_merged h.candidates.symm)
    cases x with
    | site a => rfl
    | _ => cases hsite

end Refuter
