import Refuter.HeapStore.Narrow
import Refuter.Proofs.Heap.Family
import Refuter.Proofs.Reading
import Refuter.Proofs.State
import Mathlib.Algebra.Order.BigOperators.Group.List
import Mathlib.Algebra.Order.Ring.Nat

/-!
# Narrowing computes the largest consistent family

Narrowing replaces one choice at a time. A round that replaces a choice keeps what is left for
each pointer in the largest consistent family, unless something is empty there; then something is
empty afterwards too. When no round is asked for any more, the family of all candidates is
consistent, and so it is the largest one.
-/

namespace Refuter

open StoreM

/-! ## 1. One round -/

namespace Pointer

/-- The number of a choice is one of the first `n`. -/
def Drawn (n : Nat) (p : Pointer) : Prop := ∀ i ∈ p.id?, i < n

instance (n : Nat) (p : Pointer) : Decidable (p.Drawn n) :=
  inferInstanceAs (Decidable (∀ i ∈ p.id?, i < n))

theorem Drawn.mono {n m : Nat} {p : Pointer} (h : p.Drawn n) (hn : n ≤ m) : p.Drawn m :=
  fun i hi => Nat.lt_of_lt_of_le (h i hi) hn

theorem drawn_known {n : Nat} {x : Location} : (known x).Drawn n := fun i hi => by cases hi

/-- `q` was made of the choice `p`, with fewer candidates and, if it is a choice, a new number. -/
structure Shrinks (n m : Nat) (p q : Pointer) : Prop where
  isChoice : p.isChoice = true
  sub : ∀ x ∈ q.candidates, x ∈ p.candidates
  size_lt : q.candidates.size < p.candidates.size
  loses : ∃ x ∈ p.candidates, ¬ x ∈ q.candidates
  keeps : ∃ x, x ∈ q.candidates
  le : n ≤ m
  drawn : q.Drawn m
  isNew : q.Drawn n → q.isChoice = false

/-- Restricting a pointer leaves it, empties it, or leaves the allowed candidates. -/
theorem narrow_cases (p : Pointer) (allowed : Locations) (n : Nat) :
    (p.narrow allowed n = (.same, n) ∧ ∀ x ∈ p.candidates, x ∈ allowed) ∨
    (p.narrow allowed n = (.empty, n) ∧ ∀ x ∈ p.candidates, ¬ x ∈ allowed) ∨
    ∃ q m, p.narrow allowed n = (.to q, m) ∧ p.Shrinks n m q ∧
      ∀ x, x ∈ q.candidates ↔ x ∈ p.candidates ∧ x ∈ allowed := by
  cases p with
  | known y =>
    by_cases hy : y ∈ allowed
    · exact .inl ⟨by simp [narrow, hy, Fresh.pure_apply], by simpa [candidates] using hy⟩
    · exact .inr (.inl ⟨by simp [narrow, hy, Fresh.pure_apply], by simpa [candidates] using hy⟩)
  | choice i cs =>
    unfold narrow
    dsimp only
    by_cases hempty : (cs.inter allowed).isEmpty = true
    · refine .inr (.inl ⟨by rw [if_pos hempty]; rfl, fun x hx hmem => ?_⟩)
      have hne : (cs.inter allowed).isEmpty = false :=
        SortedSet.isEmpty_eq_false_iff.2 ⟨x, SortedSet.mem_inter.2 ⟨hx, hmem⟩⟩
      rw [hempty] at hne
      cases hne
    have hkeeps := SortedSet.isEmpty_eq_false_iff.1 (Bool.eq_false_iff.2 hempty)
    rw [if_neg hempty]
    by_cases hsize : (cs.inter allowed).size = cs.size
    · exact .inl ⟨by rw [if_pos hsize]; rfl, fun x hx => SortedSet.mem_of_size_inter hsize hx⟩
    rw [if_neg hsize, Fresh.bind_apply]
    have hlt : (cs.inter allowed).size < cs.size :=
      Nat.lt_of_le_of_ne (List.length_filter_le _ _) hsize
    have hsub : ∀ x ∈ cs.inter allowed, x ∈ cs := fun x hx => (SortedSet.mem_inter.1 hx).1
    have hloses : ∃ x ∈ cs, ¬ x ∈ cs.inter allowed := by
      obtain ⟨x, hx, hout⟩ := List.length_filter_lt_length_iff_exists.1 hlt
      exact ⟨x, hx, fun hin => hout (decide_eq_true (SortedSet.mem_inter.1 hin).2)⟩
    obtain ⟨hnone, -⟩ | ⟨y, hy, heq⟩ | ⟨-, heq⟩ := ofCandidates_cases (cs.inter allowed) n
    · exact absurd hnone hempty
    · refine .inr (.inr ⟨known y, n, by rw [heq]; rfl, ?_, fun x => ?_⟩)
      · rw [hy] at hsub hlt hloses hkeeps
        exact ⟨rfl, hsub, hlt, hloses, hkeeps, Nat.le_refl _, drawn_known, fun _ => rfl⟩
      · rw [candidates, ← hy]
        exact SortedSet.mem_inter
    · refine .inr (.inr ⟨choice n (cs.inter allowed), n + 1, by rw [heq]; rfl, ?_, fun x =>
        SortedSet.mem_inter⟩)
      refine ⟨rfl, hsub, hlt, hloses, hkeeps, Nat.le_succ n, ?_, fun hd => ?_⟩
      · rintro j hj
        cases hj
        exact Nat.lt_succ_self n
      · exact absurd (hd n rfl) (Nat.lt_irrefl n)

theorem isFrame_of_isSite {p : Pointer} (hp : p.isSite = true) : p.isFrame = false := by
  cases p with
  | known x =>
    have hx := isSite_iff.1 hp x (SortedSet.mem_singleton.2 rfl)
    cases x with
    | site => rfl
    | slot | result | global | index => cases hx
  | choice => rfl

/-- A pointer of sites denotes its candidates. -/
theorem mem_ofPointer_of_isSite {h : HeapGraph} {p : Pointer} (hp : p.isSite = true)
    {x : Location} : x ∈ h.ofPointer p ↔ x ∈ p.candidates := by
  have hself : ∀ y ∈ p.candidates, h.ofLocation y = .singleton y := by
    intro y hy
    have hy := isSite_iff.1 hp y hy
    cases y with
    | site => rfl
    | slot | result | global | index => cases hy
  rw [HeapGraph.mem_ofPointer]
  constructor
  · rintro ⟨y, hy, hx⟩
    rw [hself y hy, SortedSet.mem_singleton] at hx
    exact hx ▸ hy
  · intro hx
    exact ⟨x, hx, by rw [hself x hx]; exact SortedSet.mem_singleton.2 rfl⟩

/-- A frame root denotes what the facts say of it. -/
theorem exists_root_of_isFrame {h : HeapGraph} {p : Pointer} (hp : p.isFrame = true) :
    ∃ r, p = known r ∧ r.isFrame = true ∧ h.ofPointer p = h.ofRoot r := by
  cases p with
  | known r =>
    have hroot : r.isRoot = true := by
      cases r with
      | slot | result | global => rfl
      | site | index => cases hp
    exact ⟨r, rfl, hp, SortedSet.ext_mem fun x => HeapGraph.mem_ofPointer_root hroot⟩
  | choice => cases hp

end Pointer

/-- What narrowing may assume of the owed edges: every end has a candidate and, if it is a choice,
a number that was handed out, and a field edge with facts leads from a frame root or sites to
sites. -/
structure Narrowable (n : Nat) (owed : SortedSet Edge) : Prop where
  candidate : ∀ p : Pointer, p.IsEndOf owed → ∃ x, x ∈ p.candidates
  drawn : ∀ p : Pointer, p.IsEndOf owed → p.Drawn n
  source : ∀ e ∈ owed, ∀ f, e.HasFacts f → e.source.isFrame = true ∨ e.source.isSite = true
  sink : ∀ e ∈ owed, ∀ f, e.HasFacts f → e.sink.isSite = true

/-- `p` is an end of an owed edge, and in every consistent family it is left candidates of the
smaller `q` only. -/
structure HeapGraph.Cuts (h : HeapGraph) (owed : SortedSet Edge) (n m : Nat) (p q : Pointer) :
    Prop extends p.Shrinks n m q where
  isSite : p.isSite = true
  isEndOf : p.IsEndOf owed
  bound : ∀ D, h.Consistent owed D → ∀ x, D p x → x ∈ q.candidates

namespace NarrowStep

/-- What the outcome of a round says: `P` if there is nothing to do, and otherwise that something
is left empty in every consistent family, or that a pointer is cut. -/
def Justified (h : HeapGraph) (owed : SortedSet Edge) (n : Nat) (P : Prop) :
    NarrowStep × Nat → Prop
  | (done, m) => m = n ∧ P
  | (stuck _, _) => ∀ D, h.Consistent owed D → ¬ D.Inhabits owed
  | (rename p q, m) => h.Cuts owed n m p q

variable {h : HeapGraph} {owed : SortedSet Edge} {n : Nat} {e : Edge} {f : Field} {P Q : Prop}

theorem Justified.mono {step : NarrowStep × Nat} (hstep : Justified h owed n P step)
    (hPQ : P → Q) : Justified h owed n Q step := by
  match step with
  | (done, m) => exact ⟨hstep.1, hPQ hstep.2⟩
  | (stuck d, m) => exact hstep
  | (rename p q, m) => exact hstep

/-- If the first part of a round finds nothing to do, the second one decides. -/
theorem Justified.orElse {x : Fresh NarrowStep} {k : NarrowStep → Fresh NarrowStep}
    (hx : Justified h owed n P (x n)) (hdone : P → Justified h owed n Q (k done n))
    (hstep : ∀ step m, step ≠ done → k step m = (step, m)) :
    Justified h owed n Q ((x >>= k) n) := by
  rw [Fresh.bind_apply]
  match hxn : x n with
  | (done, m) =>
    rw [hxn] at hx
    obtain ⟨rfl, hP⟩ := hx
    exact hdone hP
  | (stuck d, m) =>
    rw [hxn] at hx
    have hk : k (stuck d) m = (stuck d, m) := hstep _ m (by simp)
    rw [hk]
    exact hx
  | (rename p q, m) =>
    rw [hxn] at hx
    have hk : k (rename p q) m = (rename p q, m) := hstep _ m (by simp)
    rw [hk]
    exact hx

/-- Restricting an end to locations that every consistent family keeps to. -/
theorem justified_ofNarrowed {p : Pointer} {allowed : Locations} (hp : p.IsEndOf owed)
    (hsite : p.isSite = true)
    (hbound : ∀ D, h.Consistent owed D → ∀ x, D p x → x ∈ allowed) :
    Justified h owed n (∀ x ∈ p.candidates, x ∈ allowed)
      ((do return ofNarrowed e p (← p.narrow allowed) : Fresh NarrowStep) n) := by
  rw [Fresh.bind_apply]
  obtain ⟨hn, hall⟩ | ⟨hn, hnone⟩ | ⟨q, m, hn, hq, hmem⟩ := p.narrow_cases allowed n
  · rw [hn]
    exact ⟨rfl, hall⟩
  · rw [hn]
    intro D hD hinh
    obtain ⟨x, hx⟩ := hinh p hp
    exact hnone x (hD.candidate p x hx) (hbound D hD x hx)
  · rw [hn]
    exact
      { hq with
        isSite := hsite
        isEndOf := hp
        bound := fun D hD x hx => (hmem x).2 ⟨hD.candidate p x hx, hbound D hD x hx⟩ }

variable (hs : Narrowable n owed) (he : e ∈ owed) (hf : e.HasFacts f)

include hs he hf

theorem justified_ofSink :
    Justified h owed n ((∃ x, x ∈ h.ofPointer e.source) → ∀ y ∈ e.sink.candidates,
      ∃ x ∈ h.ofPointer e.source, y ∈ h.pointsTo x f) (ofSink h e f n) := by
  unfold ofSink
  split
  · rename_i hempty
    refine ⟨rfl, fun hne => ?_⟩
    rw [SortedSet.isEmpty_eq_false_iff.2 hne] at hempty
    cases hempty
  rename_i hne
  have hne := SortedSet.isEmpty_eq_false_iff.1 (Bool.eq_false_iff.2 hne)
  have hbound : ∀ D, h.Consistent owed D → ∀ y, D e.sink y →
      y ∈ SortedSet.bind (h.ofPointer e.source).toList (h.pointsTo · f) := by
    intro D hD y hy
    rw [SortedSet.mem_bind]
    by_cases hframe : e.source.isFrame = true
    · obtain ⟨r, hr, hr', hof⟩ := Pointer.exists_root_of_isFrame hframe
      rw [hof] at hne ⊢
      exact (hD.supports e he).frame f hf r hr hr' hne y hy
    · have hsite := (hs.source e he f hf).resolve_left hframe
      obtain ⟨x, hx, hxy⟩ := (hD.supports e he).sink f hf (Bool.eq_false_iff.2 hframe) y hy
      exact ⟨x, (Pointer.mem_ofPointer_of_isSite hsite).2 (hD.candidate _ x hx), hxy⟩
  refine (justified_ofNarrowed (Pointer.isEndOf_sink he) (hs.sink e he f hf) hbound).mono
    fun hall _ y hy => ?_
  exact SortedSet.mem_bind.1 (hall y hy)

theorem justified_ofSource :
    Justified h owed n (e.source.isFrame = false → ∀ x ∈ e.source.candidates,
      ∃ y ∈ e.sink.candidates, x ∈ h.pointsAt y f) (ofSource h e f n) := by
  have hsink : ∀ {y}, y ∈ h.ofPointer e.sink ↔ y ∈ e.sink.candidates :=
    Pointer.mem_ofPointer_of_isSite (hs.sink e he f hf)
  unfold ofSource
  split
  · rename_i hframe
    exact ⟨rfl, fun h => by rw [hframe] at h; cases h⟩
  rename_i hframe
  extract_lets sinks
  split
  · rename_i hempty
    -- the sink has a candidate
    obtain ⟨y, hy⟩ := hs.candidate _ (Pointer.isEndOf_sink he)
    rw [SortedSet.isEmpty_eq_false_iff.2 ⟨y, hsink.2 hy⟩] at hempty
    cases hempty
  have hsite := (hs.source e he f hf).resolve_left hframe
  have hbound : ∀ D, h.Consistent owed D → ∀ x, D e.source x →
      x ∈ SortedSet.bind sinks.toList (h.pointsAt · f) := by
    intro D hD x hx
    obtain ⟨y, hy, hxy⟩ := (hD.supports e he).source f hf (Bool.eq_false_iff.2 hframe) x hx
    exact SortedSet.mem_bind.2 ⟨y, hsink.2 (hD.candidate _ y hy), hxy⟩
  refine (justified_ofNarrowed (Pointer.isEndOf_source he) hsite hbound).mono
    fun hall _ x hx => ?_
  obtain ⟨y, hy, hxy⟩ := SortedSet.mem_bind.1 (hall x hx)
  exact ⟨y, hsink.1 hy, hxy⟩

omit hf

theorem justified_ofEdge :
    Justified h owed n (h.Supports (fun p x => x ∈ p.candidates) e) (ofEdge h e n) := by
  unfold ofEdge
  cases hfield : e.field with
  | none =>
    refine ⟨rfl, HeapGraph.supports_of_forall_not fun f hf => ?_⟩
    cases hfield.symm.trans hf.1
  | some f =>
    dsimp only
    by_cases hpseudo : f.isPseudo = true
    · rw [if_pos hpseudo]
      refine ⟨rfl, HeapGraph.supports_of_forall_not fun g hg => ?_⟩
      cases hfield.symm.trans hg.1
      rw [hg.2] at hpseudo
      cases hpseudo
    rw [if_neg hpseudo]
    have hf : e.HasFacts f := ⟨hfield, Bool.eq_false_iff.2 hpseudo⟩
    refine (justified_ofSink hs he hf).orElse (fun hsink => ?_) fun step m hstep => ?_
    · refine (justified_ofSource hs he hf).mono fun hsource => ?_
      have heq : ∀ g, e.HasFacts g → g = f := fun g hg => by cases hfield.symm.trans hg.1; rfl
      refine ⟨fun g hg hframe y hy => ?_, fun g hg r hr hframe hne y hy => ?_, fun g hg => ?_⟩
      · obtain rfl := heq g hg
        have hsite := (hs.source e he g hf).resolve_left (Bool.eq_false_iff.1 hframe)
        have hmem : ∀ {x}, x ∈ h.ofPointer e.source ↔ x ∈ e.source.candidates :=
          Pointer.mem_ofPointer_of_isSite hsite
        obtain ⟨x, hx⟩ := hs.candidate _ (Pointer.isEndOf_source he)
        obtain ⟨x, hx, hxy⟩ := hsink ⟨x, hmem.2 hx⟩ y hy
        exact ⟨x, hmem.1 hx, hxy⟩
      · obtain rfl := heq g hg
        obtain ⟨r', hr', -, hof⟩ := Pointer.exists_root_of_isFrame (h := h) (p := e.source)
          (by rw [hr]; exact hframe)
        cases hr.symm.trans hr'
        rw [hof] at hsink
        exact hsink hne y hy
      · obtain rfl := heq g hg
        exact hsource
    · cases step with
      | done => exact absurd rfl hstep
      | stuck | rename => rfl

omit he

theorem justified_first {edges : List Edge} (hedges : ∀ e ∈ edges, e ∈ owed) :
    Justified h owed n (∀ e ∈ edges, h.Supports (fun p x => x ∈ p.candidates) e)
      (first h edges n) := by
  induction edges with
  | nil => exact ⟨rfl, fun e he => absurd he List.not_mem_nil⟩
  | cons e rest ih =>
    unfold first
    refine (justified_ofEdge hs (hedges e List.mem_cons_self)).orElse (fun hedge => ?_)
      fun step m hstep => ?_
    · refine (ih fun d hd => hedges d (List.mem_cons_of_mem _ hd)).mono fun hrest d hd => ?_
      rcases List.mem_cons.1 hd with rfl | hd
      · exact hedge
      · exact hrest d hd
    · cases step with
      | done => exact absurd rfl hstep
      | stuck | rename => rfl

end NarrowStep

/-! ## 2. A replacement -/

theorem Edge.rename_eq_onEnds (p q : Pointer) : Edge.rename p q = Edge.onEnds (p.rename q) := rfl

namespace HeapGraph.Cuts

variable {h : HeapGraph} {owed : SortedSet Edge} {n m : Nat} {p q x y : Pointer}
  (hcut : h.Cuts owed n m p q)

include hcut

theorem mem_of_mem_rename (x : Pointer) (z : Location) (hz : z ∈ (p.rename q x).candidates) :
    z ∈ x.candidates := by
  by_cases hx : x = p
  · subst hx
    rw [Pointer.rename_self] at hz
    exact hcut.sub z hz
  · rwa [Pointer.rename_of_ne hx] at hz

theorem ne : p ≠ q := by
  rintro rfl
  exact Nat.lt_irrefl _ hcut.size_lt

theorem isSite_right : q.isSite = true :=
  Pointer.isSite_iff.2 fun z hz => Pointer.isSite_iff.1 hcut.isSite z (hcut.sub z hz)

theorem keepsRoots : KeepsRoots (p.rename q) where
  known z := by
    refine Pointer.rename_of_ne fun hz => ?_
    have hchoice := hcut.isChoice
    rw [← hz] at hchoice
    cases hchoice
  isFrame x := by
    by_cases hx : x = p
    · subst hx
      rw [Pointer.rename_self, Pointer.isFrame_of_isSite hcut.isSite,
        Pointer.isFrame_of_isSite hcut.isSite_right]
    · rw [Pointer.rename_of_ne hx]

/-- Only the new pointer can come from two: from the one it replaces and, if it is known, from
itself. -/
theorem eq_or_of_rename_eq (hx : x.Drawn n) (hy : y.Drawn n) (heq : p.rename q x = p.rename q y) :
    x = y ∨ q.isChoice = false ∧ p.rename q x = q := by
  by_cases hxp : x = p
  · subst hxp
    by_cases hyx : y = x
    · exact .inl hyx.symm
    · rw [Pointer.rename_self, Pointer.rename_of_ne hyx] at heq
      exact .inr ⟨hcut.isNew (heq ▸ hy), Pointer.rename_self⟩
  · by_cases hyp : y = p
    · subst hyp
      rw [Pointer.rename_self, Pointer.rename_of_ne hxp] at heq
      exact .inr ⟨hcut.isNew (heq ▸ hx), (Pointer.rename_of_ne hxp).trans heq⟩
    · rw [Pointer.rename_of_ne hxp, Pointer.rename_of_ne hyp] at heq
      exact .inl heq

theorem drawn_rename (hx : x.Drawn n) : (p.rename q x).Drawn m := by
  by_cases hxp : x = p
  · subst hxp
    rw [Pointer.rename_self]
    exact hcut.drawn
  · rw [Pointer.rename_of_ne hxp]
    exact hx.mono hcut.le

variable (hs : Narrowable n owed)

include hs

theorem narrowable : Narrowable m (owed.map (Edge.onEnds (p.rename q))) where
  candidate := by
    intro r hr
    obtain ⟨x, hx, rfl⟩ := Pointer.isEndOf_map.1 hr
    by_cases hxp : x = p
    · subst hxp
      rw [Pointer.rename_self]
      exact hcut.keeps
    · rw [Pointer.rename_of_ne hxp]
      exact hs.candidate x hx
  drawn := by
    intro r hr
    obtain ⟨x, hx, rfl⟩ := Pointer.isEndOf_map.1 hr
    exact hcut.drawn_rename (hs.drawn x hx)
  source := by
    intro e' he' f hf
    obtain ⟨e, he, rfl⟩ := SortedSet.mem_map.1 he'
    refine (hs.source e he f hf).imp (fun hframe => ?_) fun hsite => ?_
    · exact (hcut.keepsRoots.isFrame _).trans hframe
    · exact Pointer.isSite_iff.2 fun z hz =>
        Pointer.isSite_iff.1 hsite z (hcut.mem_of_mem_rename _ z hz)
  sink := by
    intro e' he' f hf
    obtain ⟨e, he, rfl⟩ := SortedSet.mem_map.1 he'
    exact Pointer.isSite_iff.2 fun z hz =>
      Pointer.isSite_iff.1 (hs.sink e he f hf) z (hcut.mem_of_mem_rename _ z hz)

omit hs

/-- What is left in a family of the store after the replacement is left before it. -/
theorem largest_of_rename {z : Location}
    (hz : h.largest (owed.map (Edge.onEnds (p.rename q))) (p.rename q x) z) :
    h.largest owed x z :=
  (Consistent.pull hcut.keepsRoots consistent_largest hcut.mem_of_mem_rename).le_largest x z hz

/-- If nothing is empty, what is left stays through the replacement. -/
theorem largest_rename {z : Location} (hinh : (h.largest owed).Inhabits owed)
    (hs : Narrowable n owed) (hx : x.Drawn n) (hz : h.largest owed x z) :
    h.largest (owed.map (Edge.onEnds (p.rename q))) (p.rename q x) z := by
  have hcons : h.Consistent owed (h.largest owed) := consistent_largest
  -- candidates of what a pointer became
  have hmem : ∀ x z, h.largest owed x z → z ∈ (p.rename q x).candidates := by
    intro x z hz
    by_cases hxp : x = p
    · subst hxp
      rw [Pointer.rename_self]
      exact hcut.bound _ hcons z hz
    · rw [Pointer.rename_of_ne hxp]
      exact hcons.candidate x z hz
  have hpush := Consistent.push (G := Pointer.Drawn n) hcut.keepsRoots hcons
    (fun x z _ => hmem x z) hs.drawn
  refine (hpush fun r hr x z hx hz heq => ?_).le_largest _ z ⟨x, hx, rfl, hz⟩
  obtain rfl | ⟨hknown, hq⟩ := hcut.eq_or_of_rename_eq hx (hs.drawn r hr) heq
  · exact hz
  -- both became one known location, and that is all that is left for either
  obtain ⟨z', hz'⟩ := hinh r hr
  have hzq := hmem x z hz
  have hzq' := hmem r z' hz'
  rw [← heq] at hzq'
  rw [hq] at hzq hzq'
  cases q with
  | known w =>
    obtain rfl := SortedSet.mem_singleton.1 hzq
    obtain rfl := SortedSet.mem_singleton.1 hzq'
    exact hz'
  | choice => cases hknown

theorem inhabits_iff (hs : Narrowable n owed) :
    (h.largest (owed.map (Edge.onEnds (p.rename q)))).Inhabits
      (owed.map (Edge.onEnds (p.rename q))) ↔ (h.largest owed).Inhabits owed := by
  constructor
  · intro hinh x hx
    obtain ⟨z, hz⟩ := hinh _ (Pointer.isEndOf_map.2 ⟨x, hx, rfl⟩)
    exact ⟨z, hcut.largest_of_rename hz⟩
  · intro hinh r hr
    obtain ⟨x, hx, rfl⟩ := Pointer.isEndOf_map.1 hr
    obtain ⟨z, hz⟩ := hinh x hx
    exact ⟨z, hcut.largest_rename hinh hs (hs.drawn x hx) hz⟩

end HeapGraph.Cuts

/-! ## 3. Rounds end -/

theorem Pointer.size_rename_le {p q : Pointer} (hlt : q.candidates.size < p.candidates.size)
    (x : Pointer) : (p.rename q x).candidates.size ≤ x.candidates.size := by
  by_cases hx : x = p
  · rw [hx, Pointer.rename_self]
    exact Nat.le_of_lt hlt
  · rw [Pointer.rename_of_ne hx]

theorem Edge.weight_rename_le {p q : Pointer} (hlt : q.candidates.size < p.candidates.size)
    (e : Edge) : (e.rename p q).weight ≤ e.weight :=
  Nat.add_le_add (Pointer.size_rename_le hlt e.source) (Pointer.size_rename_le hlt e.sink)

theorem Edge.weight_rename_lt {p q : Pointer} (hlt : q.candidates.size < p.candidates.size)
    {e : Edge} (he : e.mentions p = true) : (e.rename p q).weight < e.weight := by
  have hself : (p.rename q p).candidates.size < p.candidates.size := by
    rw [Pointer.rename_self]
    exact hlt
  rcases Edge.mentions_iff.1 he with rfl | rfl
  · exact Nat.add_lt_add_of_lt_of_le hself (Pointer.size_rename_le hlt e.sink)
  · exact Nat.add_lt_add_of_le_of_lt (Pointer.size_rename_le hlt e.source) hself

theorem HeapStore.weight_eq_sum (s : HeapStore) :
    s.weight = (s.owed.toList.map Edge.weight).sum := by
  rw [HeapStore.weight, List.sum_eq_foldr, List.foldr_map]

theorem sum_weight_insertInto_le (e : Edge) (l : List Edge) :
    ((SortedSet.insertInto e l).map Edge.weight).sum ≤ e.weight + (l.map Edge.weight).sum := by
  induction l with
  | nil => exact Nat.le_refl _
  | cons d rest ih =>
    unfold SortedSet.insertInto
    split
    · exact Nat.le_refl _
    · exact Nat.le_add_left _ _
    · simp only [List.map_cons, List.sum_cons]
      omega

theorem sum_weight_ofList_le (l : List Edge) :
    ((SortedSet.ofList l).toList.map Edge.weight).sum ≤ (l.map Edge.weight).sum := by
  induction l with
  | nil => exact Nat.le_refl _
  | cons e rest ih =>
    refine (sum_weight_insertInto_le e _).trans ?_
    rw [List.map_cons, List.sum_cons]
    exact Nat.add_le_add_left ih _

theorem HeapGraph.Cuts.weight_lt {h : HeapGraph} {s : HeapStore} {n m : Nat} {p q : Pointer}
    (hcut : h.Cuts s.owed n m p q) : (s.replace p q).weight < s.weight := by
  obtain ⟨e, he, hp⟩ := hcut.isEndOf
  rw [HeapStore.weight_eq_sum, HeapStore.weight_eq_sum]
  calc _ ≤ ((s.owed.toList.map (Edge.rename p q)).map Edge.weight).sum := sum_weight_ofList_le _
    _ = (s.owed.toList.map fun e => (e.rename p q).weight).sum := by rw [List.map_map]; rfl
    _ < _ := List.sum_lt_sum _ _ (fun d _ => Edge.weight_rename_le hcut.size_lt d)
      ⟨e, he, Edge.weight_rename_lt hcut.size_lt hp⟩

namespace HeapM

variable {h : HeapGraph} {f : Frame HeapStore} {m rounds : Nat} {p q : Pointer} {step : NarrowStep}

/-- The rest of narrowing after the first step is known. -/
def narrowFrom (h : HeapGraph) (rounds : Nat) : NarrowStep → HeapM Unit
  | .done => pure ()
  | .stuck e => refute (.narrowed e)
  | .rename p q => do
    rename p q
    narrowRounds h rounds

theorem narrowRounds_succ
    (hstep : NarrowStep.first h f.store.owed.toList f.session.nextId = (step, m)) :
    narrowRounds h (rounds + 1) f = narrowFrom h rounds step (f.supply m) := by
  have hstore : (store : HeapM HeapStore) f = .ok f.store f := rfl
  have hfresh : (fresh (NarrowStep.first h f.store.owed.toList) : HeapM NarrowStep) f =
      .ok step (f.supply m) := by
    change EStateM.Result.ok (NarrowStep.first h f.store.owed.toList f.session.nextId).1
      (f.supply (NarrowStep.first h f.store.owed.toList f.session.nextId).2) = _
    rw [hstep]
  unfold narrowRounds
  rw [bind_of_ok hstore, bind_of_ok hfresh]
  cases step <;> rfl

/-- The frame after a round that replaces `p` by `q`. -/
def renamed (p q : Pointer) (f : Frame HeapStore) : Frame HeapStore :=
  { f.note ⟨.debug, .heap, p.text ++ " := " ++ q.text⟩ with
    store := { f.store.replace p q with renames := f.store.renames ++ [(p, q)] } }

theorem narrowFrom_rename (hne : p ≠ q) :
    narrowFrom h rounds (.rename p q) f = narrowRounds h rounds (renamed p q f) := by
  have hrename : rename p q f = .ok () (renamed p q f) := by
    unfold rename
    rw [if_neg hne]
    rfl
  exact bind_of_ok hrename

/-- More rounds than there are candidates change nothing. -/
theorem narrowRounds_eq (hs : Narrowable f.session.nextId f.store.owed) {rounds' : Nat}
    (hr : f.store.weight < rounds) (hr' : f.store.weight < rounds') :
    narrowRounds h rounds f = narrowRounds h rounds' f := by
  induction rounds generalizing rounds' f with
  | zero => exact absurd hr (Nat.not_lt_zero _)
  | succ rounds ih =>
    cases rounds' with
    | zero => exact absurd hr' (Nat.not_lt_zero _)
    | succ rounds' =>
      have hjust := NarrowStep.justified_first hs (h := h) fun e he => he
      match hstep : NarrowStep.first h f.store.owed.toList f.session.nextId with
      | (.done, m) => rw [narrowRounds_succ hstep, narrowRounds_succ hstep]; rfl
      | (.stuck e, m) => rw [narrowRounds_succ hstep, narrowRounds_succ hstep]; rfl
      | (.rename p q, m) =>
        rw [hstep] at hjust
        have hcut : h.Cuts f.store.owed f.session.nextId m p q := hjust
        have hlt := hcut.weight_lt
        rw [narrowRounds_succ hstep, narrowRounds_succ hstep, narrowFrom_rename (hcut.ne),
          narrowFrom_rename (hcut.ne)]
        exact ih (hcut.narrowable hs) (Nat.lt_of_lt_of_le hlt (Nat.le_of_lt_succ hr))
          (Nat.lt_of_lt_of_le hlt (Nat.le_of_lt_succ hr'))

end HeapM

/-! ## 4. What is left at the end -/

/-- Replacing the ends twice. -/
theorem SortedSet.map_onEnds (owed : SortedSet Edge) (σ τ : Pointer → Pointer) :
    (owed.map (Edge.onEnds σ)).map (Edge.onEnds τ) = owed.map (Edge.onEnds fun p => τ (σ p)) := by
  refine SortedSet.ext_mem fun e => ?_
  simp only [SortedSet.mem_map]
  constructor
  · rintro ⟨_, ⟨d, hd, rfl⟩, rfl⟩
    exact ⟨d, hd, rfl⟩
  · rintro ⟨d, hd, rfl⟩
    exact ⟨_, ⟨d, hd, rfl⟩, rfl⟩

/-- `t` is `s` with its pointers replaced so that each is left what `D` says. -/
structure HeapStore.NarrowedTo (D : Family) (n : Nat) (s : HeapStore)
    (renames : List (Pointer × Pointer)) (t : HeapStore) : Prop where
  store : t = { s with
    owed := s.owed.map (Edge.onEnds (Pointer.renameAll renames))
    produced := s.produced.map (Edge.onEnds (Pointer.renameAll renames))
    renames := s.renames ++ renames }
  candidates : ∀ p : Pointer, p.Drawn n → ∀ x, x ∈ (p.renameAll renames).candidates ↔ D p x
  known : ∀ x, (Pointer.known x).renameAll renames = .known x
  /-- a pointer that loses nothing stays -/
  stays : ∀ p : Pointer, p.Drawn n → (∀ x ∈ p.candidates, D p x) → p.renameAll renames = p
  /-- different choices stay different as long as they are choices -/
  apart : ∀ p q : Pointer, p.Drawn n → q.Drawn n → p.renameAll renames = q.renameAll renames →
    p = q ∨ (p.renameAll renames).isChoice = false

namespace HeapStore.NarrowedTo

variable {h : HeapGraph} {n m : Nat} {s t : HeapStore} {p q : Pointer}
  {renames : List (Pointer × Pointer)}

/-- If the candidates themselves are consistent nothing is replaced. -/
theorem refl (hs : h.Consistent s.owed fun p x => x ∈ p.candidates) :
    NarrowedTo (h.largest s.owed) n s [] s where
  store := by
    have howed : s.owed.map (Edge.onEnds (Pointer.renameAll [])) = s.owed := by
      refine SortedSet.ext_mem fun e => ?_
      rw [SortedSet.mem_map]
      exact ⟨fun ⟨_, hd, heq⟩ => heq ▸ hd, fun he => ⟨e, he, rfl⟩⟩
    have hproduced : s.produced.map (Edge.onEnds (Pointer.renameAll [])) = s.produced :=
      List.map_id _
    rw [howed, hproduced, List.append_nil]
  candidates p _ x := ⟨hs.le_largest p x, HeapGraph.consistent_largest.candidate p x⟩
  known _ := rfl
  stays _ _ _ := rfl
  apart _ _ _ _ heq := .inl heq

/-- One replacement, and then the others. -/
theorem cons (hs : Narrowable n s.owed) (hinh : (h.largest s.owed).Inhabits s.owed)
    (hcut : h.Cuts s.owed n m p q)
    (ht : NarrowedTo (h.largest (s.replace p q).owed) m
      { s.replace p q with renames := s.renames ++ [(p, q)] } renames t) :
    NarrowedTo (h.largest s.owed) n s ((p, q) :: renames) t where
  store := by
    rw [ht.store]
    simp only [HeapStore.replace, Edge.rename_eq_onEnds, SortedSet.map_onEnds, List.map_map,
      List.append_assoc, List.singleton_append]
    rfl
  candidates x hx z :=
    (ht.candidates _ (hcut.drawn_rename hx) z).trans
      ⟨hcut.largest_of_rename, hcut.largest_rename hinh hs hx⟩
  known x := by
    change (p.rename q (.known x)).renameAll renames = _
    rw [hcut.keepsRoots.known]
    exact ht.known x
  stays x hx hall := by
    -- the replaced pointer does lose a candidate
    have hne : x ≠ p := by
      rintro rfl
      obtain ⟨z, hz, hout⟩ := hcut.loses
      exact hout (hcut.bound _ HeapGraph.consistent_largest z (hall z hz))
    change (p.rename q x).renameAll renames = x
    rw [Pointer.rename_of_ne hne]
    refine ht.stays x (hx.mono hcut.le) fun z hz => ?_
    have hz := hcut.largest_rename hinh hs hx (hall z hz)
    rwa [Pointer.rename_of_ne hne] at hz
  apart x y hx hy heq := by
    obtain heq | hknown := ht.apart _ _ (hcut.drawn_rename hx) (hcut.drawn_rename hy) heq
    · obtain rfl | ⟨hq, hxq⟩ := hcut.eq_or_of_rename_eq hx hy heq
      · exact .inl rfl
      · right
        change ((p.rename q x).renameAll renames).isChoice = false
        rw [hxq]
        cases q with
        | known z => rw [ht.known]; rfl
        | choice => cases hq
    · exact .inr hknown

end HeapStore.NarrowedTo

namespace HeapM

variable {h : HeapGraph} {f : Frame HeapStore} {rounds : Nat}

/-- Narrowing ends with what is left in the largest family if nothing is empty there, and otherwise
it refutes. -/
theorem results_narrowRounds (hs : Narrowable f.session.nextId f.store.owed)
    (hr : f.store.weight < rounds) :
    Results (narrowRounds h rounds) f
      (fun _ g => (h.largest f.store.owed).Inhabits f.store.owed ∧
        ∃ renames, f.store.NarrowedTo (h.largest f.store.owed) f.session.nextId renames g.store)
      fun halt g => ¬ (h.largest f.store.owed).Inhabits f.store.owed ∧
        (∃ e, halt = .refuted (.narrowed e)) ∧ g.store.feasible = false := by
  induction rounds generalizing f with
  | zero => exact absurd hr (Nat.not_lt_zero _)
  | succ rounds ih =>
    have hjust := NarrowStep.justified_first hs (h := h) fun e he => he
    unfold Results
    match hstep : NarrowStep.first h f.store.owed.toList f.session.nextId with
    | (.done, m) =>
      rw [hstep] at hjust
      rw [narrowRounds_succ hstep]
      have hall : h.Consistent f.store.owed fun p x => x ∈ p.candidates :=
        ⟨fun _ _ hx => hx, hjust.2⟩
      refine ⟨fun p hp => ?_, [], HeapStore.NarrowedTo.refl hall⟩
      obtain ⟨x, hx⟩ := hs.candidate p hp
      exact ⟨x, hall.le_largest p x hx⟩
    | (.stuck e, m) =>
      rw [hstep] at hjust
      rw [narrowRounds_succ hstep]
      exact ⟨hjust _ HeapGraph.consistent_largest, ⟨e, rfl⟩, rfl⟩
    | (.rename p q, m) =>
      rw [hstep] at hjust
      have hcut : h.Cuts f.store.owed f.session.nextId m p q := hjust
      rw [narrowRounds_succ hstep, narrowFrom_rename hcut.ne]
      have hrest := ih (f := renamed p q (f.supply m)) (hcut.narrowable hs)
        (Nat.lt_of_lt_of_le hcut.weight_lt (Nat.le_of_lt_succ hr))
      refine hrest.mono (fun _ g hg => ?_) fun halt g hg => ?_
      · obtain ⟨hinh, renames, hg⟩ := hg
        have hinh := (hcut.inhabits_iff hs).1 hinh
        exact ⟨hinh, (p, q) :: renames, hg.cons hs hinh hcut⟩
      · exact ⟨fun hinh => hg.1 ((hcut.inhabits_iff hs).2 hinh), hg.2⟩

end HeapM

namespace HeapM

variable {h : HeapGraph} {f : Frame HeapStore}

theorem narrow_eq_narrowRounds (hon : f.session.options.narrowFromConstraints = true) :
    narrow h f = narrowRounds h (f.store.weight + 1) f := by
  have hoptions : (options : HeapM Options) f = .ok f.session.options f := rfl
  have hstore : (store : HeapM HeapStore) f = .ok f.store f := rfl
  unfold narrow
  rw [bind_of_ok hoptions, if_pos hon, bind_of_ok hstore]

/-- Narrowing ends, whatever number of rounds it is given beyond the number of candidates. It
leaves each pointer what the largest consistent family leaves, if that is something for every end,
and otherwise it refutes. The numbers of the choices, and so the order of the edges, play no part
in that family. -/
theorem narrow_largest (hon : f.session.options.narrowFromConstraints = true)
    (hs : Narrowable f.session.nextId f.store.owed) :
    (h.Consistent f.store.owed (h.largest f.store.owed) ∧
      ∀ D, h.Consistent f.store.owed D → ∀ p x, D p x → h.largest f.store.owed p x) ∧
    (∀ rounds > f.store.weight, narrowRounds h rounds f = narrow h f) ∧
    ((h.largest f.store.owed).Inhabits f.store.owed → Ends (narrow h) f fun _ g =>
      ∃ renames,
        f.store.NarrowedTo (h.largest f.store.owed) f.session.nextId renames g.store) ∧
    (¬ (h.largest f.store.owed).Inhabits f.store.owed →
      ∃ e g, narrow h f = .error (.refuted (.narrowed e)) g ∧ g.store.feasible = false) ∧
    ∀ label, Relabels label → ∀ p x,
      h.largest (f.store.owed.map (Edge.onEnds label)) (label p) x ↔
        h.largest f.store.owed p x := by
  have hnarrow := narrow_eq_narrowRounds (h := h) hon
  have hres := results_narrowRounds (h := h) hs (Nat.lt_succ_self f.store.weight)
  rw [hnarrow]
  refine ⟨⟨HeapGraph.consistent_largest, fun D hD => hD.le_largest⟩, fun rounds hr => ?_,
    fun hinh => ?_, fun hinh => ?_, fun label hl => h.largest_relabel hl _⟩
  · exact narrowRounds_eq hs hr (Nat.lt_succ_self _)
  · cases hrun : narrowRounds h (f.store.weight + 1) f with
    | ok a g => exact ⟨a, g, hnarrow.trans hrun, (hres.of_ok hrun).2⟩
    | error e g => exact absurd hinh (hres.of_error hrun).1
  · cases hrun : narrowRounds h (f.store.weight + 1) f with
    | ok a g => exact absurd (hres.of_ok hrun).1 hinh
    | error halt g =>
      obtain ⟨-, ⟨e, rfl⟩, hfeasible⟩ := hres.of_error hrun
      exact ⟨e, g, rfl, hfeasible⟩

namespace Chain

def object (n : UInt32) : Location := .site ⟨n, "A", ⟨1⟩⟩

def next : Field := .named "A" "next"

/-- Only the first of two heads has a successor, and that has two of three. -/
def facts : HeapGraph :=
  { edges := [⟨object 1, next, object 3⟩, ⟨object 3, next, object 6⟩, ⟨object 3, next, object 7⟩,
      ⟨object 4, next, object 5⟩] }

def head : Pointer := .choice 0 (.ofList [object 1, object 2])

def middle : Pointer := .choice 1 (.ofList [object 3, object 4])

def last : Pointer := .choice 2 (.ofList [object 5, object 6, object 7])

def owed : SortedSet Edge := .ofList [.ofField head next middle, .ofField middle next last]

def frame : Frame HeapStore := ⟨{ owed := owed }, { nextId := 3 }⟩

theorem mem_owed {e : Edge} :
    e ∈ owed ↔ e = .ofField head next middle ∨ e = .ofField middle next last := by
  unfold owed
  rw [SortedSet.mem_ofList]
  simp

theorem isEndOf {p : Pointer} (hp : p.IsEndOf owed) : p = head ∨ p = middle ∨ p = last := by
  obtain ⟨e, he, hp⟩ := hp
  rcases mem_owed.1 he with rfl | rfl <;>
    rcases Edge.mentions_iff.1 hp with rfl | rfl <;> simp [Edge.ofField]

theorem narrowable : Narrowable 3 owed where
  candidate p hp := by
    rcases isEndOf hp with rfl | rfl | rfl
    · exact ⟨object 1, by decide⟩
    · exact ⟨object 3, by decide⟩
    · exact ⟨object 5, by decide⟩
  drawn p hp := by rcases isEndOf hp with rfl | rfl | rfl <;> decide
  source e he f hf := by rcases mem_owed.1 he with rfl | rfl <;> exact .inr (by decide)
  sink e he f hf := by rcases mem_owed.1 he with rfl | rfl <;> decide

/-- What the run replaces. -/
def replaced : List (Pointer × Pointer) :=
  [(middle, .known (object 3)), (last, .choice 3 (.ofList [object 6, object 7])),
    (head, .known (object 1))]

/-- The run decides what the largest family is. -/
theorem largest_chain : Narrowable frame.session.nextId frame.store.owed ∧
    (facts.largest owed).Inhabits owed ∧
    (∀ x, facts.largest owed head x ↔ x = object 1) ∧
    (∀ x, facts.largest owed middle x ↔ x = object 3) ∧
    ∀ x, facts.largest owed last x ↔ x = object 6 ∨ x = object 7 := by
  have hrun : Ends (narrow facts) frame fun _ g => decide (g.store.renames = replaced) = true :=
    ends_of_endsWith (by decide +kernel)
  obtain ⟨a, g, hrun, hrenames⟩ := hrun
  have hrenames : g.store.renames = replaced := of_decide_eq_true hrenames
  obtain ⟨-, -, hends, hrefuted, -⟩ := narrow_largest (h := facts) (f := frame) rfl narrowable
  have hinh : (facts.largest owed).Inhabits owed := by
    by_contra hinh
    obtain ⟨e, g', herror, -⟩ := hrefuted hinh
    cases hrun.symm.trans herror
  obtain ⟨b, g', hrun', renames, hg⟩ := hends hinh
  cases hrun.symm.trans hrun'
  have heq : renames = replaced := by
    rw [← hrenames, hg.store]
    rfl
  subst heq
  have hmem : ∀ p : Pointer, p.Drawn 3 → ∀ x, facts.largest owed p x ↔
      x ∈ (p.renameAll replaced).candidates := fun p hp x => (hg.candidates p hp x).symm
  refine ⟨narrowable, hinh, fun x => ?_, fun x => ?_, fun x => ?_⟩
  · rw [hmem head (by decide), show head.renameAll replaced = .known (object 1) by decide]
    exact SortedSet.mem_singleton
  · rw [hmem middle (by decide), show middle.renameAll replaced = .known (object 3) by decide]
    exact SortedSet.mem_singleton
  · rw [hmem last (by decide), show last.renameAll replaced =
      .choice 3 (.ofList [object 6, object 7]) by decide]
    simp [Pointer.candidates]

end Chain

end HeapM

end Refuter
