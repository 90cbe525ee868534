import Refuter.Proofs.Pointer.Meet

/-!
# What choices stand for

A reading picks one location for every number that was handed out. Building, merging and narrowing
pointers may hand out further numbers; each time the reading can be extended so that the new
pointer stands for the location that the old ones stood for.
-/

namespace Refuter

/-- The location that a pointer stands for, given one for every number. -/
def Pointer.pick (location : Nat → Location) : Pointer → Location
  | .known x => x
  | .choice i _ => location i

/-- The location each number stands for, and the first number that was not handed out. -/
structure Reading where
  location : Nat → Location
  next : Nat

theorem SortedSet.nodup_toList {α : Type} [Ord α] [Std.ReflOrd α] (s : SortedSet α) :
    s.toList.Nodup := by
  refine s.increasing.imp fun {a b} h hab => ?_
  subst hab
  have heq : compare a a = .eq := Std.ReflCmp.compare_self
  rw [heq] at h
  cases h

theorem Pointer.isSite_iff {p : Pointer} :
    p.isSite = true ↔ ∀ x ∈ p.candidates, x.isSite = true := List.all_eq_true

namespace Reading

/-- A later reading: more numbers are handed out and the earlier ones stand for the same. -/
instance : LE Reading := ⟨fun R R' => R.next ≤ R'.next ∧ ∀ i < R.next, R'.location i = R.location i⟩

theorem le_refl (R : Reading) : R ≤ R := ⟨Nat.le_refl _, fun _ _ => rfl⟩

theorem le_trans {R R' R'' : Reading} (h : R ≤ R') (h' : R' ≤ R'') : R ≤ R'' :=
  ⟨Nat.le_trans h.1 h'.1, fun i hi => (h'.2 i (Nat.lt_of_lt_of_le hi h.1)).trans (h.2 i hi)⟩

/-- Hands out the next number for `x`. -/
def give (R : Reading) (x : Location) : Reading :=
  ⟨fun i => if i = R.next then x else R.location i, R.next + 1⟩

theorem le_give (R : Reading) (x : Location) : R ≤ R.give x := by
  refine ⟨Nat.le_succ _, fun i hi => ?_⟩
  exact if_neg (Nat.ne_of_lt hi)

/-- `p` stands for `x`: it is well formed, its number was handed out and `x` is a candidate. -/
structure Names (R : Reading) (p : Pointer) (x : Location) : Prop where
  pick_eq : p.pick R.location = x
  mem : x ∈ p.candidates
  wellFormed : p.isWellFormed = true
  handedOut : ∀ i ∈ p.id?, i < R.next

theorem names_known (R : Reading) (x : Location) : R.Names (.known x) x :=
  ⟨rfl, SortedSet.mem_singleton.2 rfl, rfl, fun _ hi => by cases hi⟩

namespace Names

variable {R R' : Reading} {p q : Pointer} {x y : Location}

theorem known_eq (h : R.Names (.known x) y) : x = y := h.pick_eq

theorem mono (h : R.Names p x) (hR : R ≤ R') : R'.Names p x := by
  refine ⟨?_, h.mem, h.wellFormed, fun i hi => Nat.lt_of_lt_of_le (h.handedOut i hi) hR.1⟩
  cases p with
  | known y => exact h.pick_eq
  | choice i cs => exact (hR.2 i (h.handedOut i rfl)).trans h.pick_eq

theorem unique (hx : R.Names p x) (hy : R.Names p y) : x = y := hx.pick_eq.symm.trans hy.pick_eq

/-- A pointer that stands for an allocation site is not a root. -/
theorem isUnique_eq_false {s : AllocSite} (h : R.Names p (.site s)) : p.isUnique = false := by
  cases p with
  | known y =>
    rw [h.known_eq]
    rfl
  | choice => rfl

end Names

/-! ## 1. Computations that hand out numbers -/

variable {α β : Type} {R : Reading}

/-- The reading extends over the numbers that `x` hands out so that the result satisfies `Q`. -/
def Gives (R : Reading) (x : Fresh α) (Q : α → Reading → Prop) : Prop :=
  ∃ a R', x R.next = (a, R'.next) ∧ R ≤ R' ∧ Q a R'

theorem gives_pure {a : α} {Q : α → Reading → Prop} (h : Q a R) : R.Gives (pure a) Q :=
  ⟨a, R, rfl, R.le_refl, h⟩

theorem Gives.bind {x : Fresh α} {k : α → Fresh β} {Q : α → Reading → Prop}
    {Q' : β → Reading → Prop} (hx : R.Gives x Q)
    (hk : ∀ a R', R ≤ R' → Q a R' → R'.Gives (k a) Q') : R.Gives (x >>= k) Q' := by
  obtain ⟨a, R', hxa, hR, hQ⟩ := hx
  obtain ⟨b, R'', hkb, hR', hQ'⟩ := hk a R' hR hQ
  refine ⟨b, R'', ?_, le_trans hR hR', hQ'⟩
  rw [Fresh.bind_apply, hxa]
  exact hkb

theorem Gives.mono {x : Fresh α} {Q Q' : α → Reading → Prop} (hx : R.Gives x Q)
    (hQ : ∀ a R', R ≤ R' → Q a R' → Q' a R') : R.Gives x Q' := by
  obtain ⟨a, R', hxa, hR, hq⟩ := hx
  exact ⟨a, R', hxa, hR, hQ a R' hR hq⟩

/-- A test of all elements comes out true if each test does, however many numbers the others
take. -/
theorem gives_allM {test : α → Fresh Bool} {l : List α} {R : Reading}
    (h : ∀ a ∈ l, ∀ R', R ≤ R' → R'.Gives (test a) fun ok _ => ok = true) :
    R.Gives (l.allM test) fun ok _ => ok = true := by
  induction l generalizing R with
  | nil => exact gives_pure rfl
  | cons a rest ih =>
    refine (h a List.mem_cons_self R R.le_refl).bind fun ok R' hR hok => ?_
    subst hok
    exact ih fun b hb R'' hR' => h b (List.mem_cons_of_mem _ hb) R'' (le_trans hR hR')

/-! ## 2. Building pointers -/

/-- A pointer over candidates that include `x` can stand for `x`. -/
theorem gives_ofCandidates {cs : Locations} {x : Location} (hx : x ∈ cs) :
    R.Gives (Pointer.ofCandidates cs) fun o R' => ∃ p, o = some p ∧ R'.Names p x := by
  have hmem : x ∈ cs.toList := hx
  unfold Pointer.ofCandidates
  match h : cs.toList with
  | [] => rw [h] at hmem; cases hmem
  | [y] =>
    obtain rfl : x = y := by rw [h] at hmem; exact List.mem_singleton.1 hmem
    exact gives_pure ⟨.known x, rfl, R.names_known x⟩
  | y :: z :: rest =>
    -- two candidates or more: the new choice takes the next number
    have hsize : 2 ≤ cs.size := by unfold SortedSet.size; rw [h]; simp
    refine ⟨_, R.give x, rfl, R.le_give x, .choice R.next cs, rfl, if_pos rfl, hx, ?_, ?_⟩
    · exact decide_eq_true hsize
    · intro i hi
      cases hi
      exact Nat.lt_succ_self _

/-- The reading extends over the numbers that a pointer takes, whatever its candidates. -/
theorem gives_ofCandidates_any {cs : Locations} :
    R.Gives (Pointer.ofCandidates cs) fun _ _ => True := by
  cases h : cs.toList with
  | nil =>
    unfold Pointer.ofCandidates
    rw [h]
    exact gives_pure trivial
  | cons x rest =>
    have hx : x ∈ cs := by
      rw [← SortedSet.mem_toList, h]
      exact List.mem_cons_self
    exact (gives_ofCandidates hx).mono fun _ _ _ _ => trivial

/-! ## 3. Merging and narrowing -/

theorem gives_merge_self (narrowing : Bool) (p : Pointer) :
    R.Gives (Pointer.merge narrowing p p) fun o _ => o = some p := by
  unfold Pointer.merge
  rw [if_pos rfl]
  exact gives_pure rfl

/-- Two pointers that stand for the same location can be merged, and the result stands for it. -/
theorem gives_merge (narrowing : Bool) {p q : Pointer} {x : Location} (hp : R.Names p x)
    (hq : R.Names q x) :
    R.Gives (Pointer.merge narrowing p q) fun o R' => ∃ r, o = some r ∧ R'.Names r x := by
  have hm : p.candidates.Meets q.candidates := ⟨x, hp.mem, hq.mem⟩
  have hout := Pointer.merge_outcome narrowing p q
  generalize Pointer.merge narrowing p q = y at hout ⊢
  cases hout with
  | apart hno => exact absurd hm hno
  | same | left => exact gives_pure ⟨p, rfl, hp⟩
  | right => exact gives_pure ⟨q, rfl, hq⟩
  | wider =>
    refine gives_pure ⟨_, rfl, ?_⟩
    split
    · exact hp
    · exact hq
  | common => exact gives_ofCandidates (SortedSet.mem_inter.2 ⟨hp.mem, hq.mem⟩)

/-- Restricting to a set that allows the location leaves the pointer or gives one for the same
location. -/
theorem gives_narrow {p : Pointer} {x : Location} {allowed : Locations} (hp : R.Names p x)
    (hx : x ∈ allowed) :
    R.Gives (p.narrow allowed) fun n R' => n = .same ∨ ∃ q, n = .to q ∧ R'.Names q x := by
  cases p with
  | known y =>
    obtain rfl := hp.known_eq
    simp only [Pointer.narrow, hx, if_true]
    exact gives_pure (.inl rfl)
  | choice i cs =>
    have hx : x ∈ cs.inter allowed := SortedSet.mem_inter.2 ⟨hp.mem, hx⟩
    have hboth : (cs.inter allowed).isEmpty = false := SortedSet.isEmpty_eq_false_iff.2 ⟨x, hx⟩
    simp only [Pointer.narrow, hboth, Bool.false_eq_true, if_false]
    split
    · exact gives_pure (.inl rfl)
    · refine (gives_ofCandidates hx).bind fun o R' _ ho => ?_
      obtain ⟨q, rfl, hq⟩ := ho
      exact gives_pure (.inr ⟨q, rfl, hq⟩)

end Reading

end Refuter
