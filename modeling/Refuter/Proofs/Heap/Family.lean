import Refuter.Heap.Edge
import Refuter.Heap.Graph

/-!
# Families of candidates

A family says which candidates are left for each pointer. It is consistent with some edges if
every object that is left for one end of a field edge has a partner at the other end, as far as
the points-to facts speak of the field. Consistent families are closed under union, so there is a
largest one. It does not depend on the numbers of the choices.

Families are carried along a replacement of pointers both ways: back always, and forth if the
pointers that become one agree.
-/

namespace Refuter

/-! ## 1. Edges and their ends -/

/-- The edge is on a proper field, so that there are facts about it. -/
def Edge.HasFacts (e : Edge) (f : Field) : Prop := e.field = some f ∧ f.isPseudo = false

/-- The pointer is an end of one of the edges. -/
def Pointer.IsEndOf (owed : SortedSet Edge) (p : Pointer) : Prop :=
  ∃ e ∈ owed, e.mentions p = true

theorem Pointer.isEndOf_source {owed : SortedSet Edge} {e : Edge} (he : e ∈ owed) :
    e.source.IsEndOf owed :=
  ⟨e, he, Edge.mentions_iff.2 (.inl rfl)⟩

theorem Pointer.isEndOf_sink {owed : SortedSet Edge} {e : Edge} (he : e ∈ owed) :
    e.sink.IsEndOf owed :=
  ⟨e, he, Edge.mentions_iff.2 (.inr rfl)⟩

theorem Pointer.isEndOf_map {owed : SortedSet Edge} {τ : Pointer → Pointer} {q : Pointer} :
    q.IsEndOf (owed.map (Edge.onEnds τ)) ↔ ∃ p : Pointer, p.IsEndOf owed ∧ τ p = q := by
  constructor
  · rintro ⟨e', he', hq⟩
    obtain ⟨e, he, rfl⟩ := SortedSet.mem_map.1 he'
    rcases Edge.mentions_iff.1 hq with rfl | rfl
    · exact ⟨e.source, isEndOf_source he, rfl⟩
    · exact ⟨e.sink, isEndOf_sink he, rfl⟩
  · rintro ⟨p, ⟨e, he, hp⟩, rfl⟩
    refine ⟨e.onEnds τ, SortedSet.mem_map.2 ⟨e, he, rfl⟩, Edge.mentions_iff.2 ?_⟩
    exact (Edge.mentions_iff.1 hp).imp (congrArg τ) (congrArg τ)

/-- A replacement that leaves known pointers alone and makes no frame root. -/
structure KeepsRoots (τ : Pointer → Pointer) : Prop where
  known : ∀ x, τ (.known x) = .known x
  isFrame : ∀ p, (τ p).isFrame = p.isFrame

theorem KeepsRoots.eq_known {τ : Pointer → Pointer} (hτ : KeepsRoots τ) {p : Pointer}
    {x : Location} (hp : τ p = .known x) (hx : x.isFrame = true) : p = .known x := by
  have hframe := hτ.isFrame p
  rw [hp] at hframe
  cases p with
  | known y =>
    rw [hτ.known] at hp
    exact hp
  | choice => cases hframe.symm.trans hx

/-! ## 2. Consistent families -/

/-- The candidates that are left for each pointer. -/
abbrev Family := Pointer → Location → Prop

/-- Something is left for every end. -/
def Family.Inhabits (D : Family) (owed : SortedSet Edge) : Prop :=
  ∀ p : Pointer, p.IsEndOf owed → ∃ x, D p x

namespace HeapGraph

/-- Every object left for an end of the edge has a partner at the other end. A frame root is not
restricted, and if nothing is known about it neither is the sink. -/
structure Supports (h : HeapGraph) (D : Family) (e : Edge) : Prop where
  sink : ∀ f, e.HasFacts f → e.source.isFrame = false →
    ∀ y, D e.sink y → ∃ x, D e.source x ∧ y ∈ h.pointsTo x f
  frame : ∀ f, e.HasFacts f → ∀ r, e.source = .known r → r.isFrame = true →
    (∃ x, x ∈ h.ofRoot r) → ∀ y, D e.sink y → ∃ x ∈ h.ofRoot r, y ∈ h.pointsTo x f
  source : ∀ f, e.HasFacts f → e.source.isFrame = false →
    ∀ x, D e.source x → ∃ y, D e.sink y ∧ x ∈ h.pointsAt y f

theorem supports_of_forall_not {h : HeapGraph} {D : Family} {e : Edge}
    (he : ∀ f, ¬ e.HasFacts f) : h.Supports D e :=
  ⟨fun f hf => absurd hf (he f), fun f hf => absurd hf (he f), fun f hf => absurd hf (he f)⟩

/-- Only candidates are left, and all owed edges are supported. -/
structure Consistent (h : HeapGraph) (owed : SortedSet Edge) (D : Family) : Prop where
  candidate : ∀ p x, D p x → x ∈ p.candidates
  supports : ∀ e ∈ owed, h.Supports D e

/-- What is left for a pointer in some consistent family. -/
def largest (h : HeapGraph) (owed : SortedSet Edge) : Family := fun p x =>
  ∃ D, h.Consistent owed D ∧ D p x

variable {h : HeapGraph} {owed : SortedSet Edge} {D : Family} {τ : Pointer → Pointer}

theorem Consistent.le_largest (hD : h.Consistent owed D) (p : Pointer) (x : Location)
    (hx : D p x) : h.largest owed p x := ⟨D, hD, hx⟩

theorem consistent_largest : h.Consistent owed (h.largest owed) where
  candidate := by
    rintro p x ⟨D, hD, hx⟩
    exact hD.candidate p x hx
  supports e he :=
    { sink := by
        rintro f hf hframe y ⟨D, hD, hy⟩
        obtain ⟨x, hx, hxy⟩ := (hD.supports e he).sink f hf hframe y hy
        exact ⟨x, hD.le_largest _ x hx, hxy⟩
      frame := by
        rintro f hf r hr hframe hne y ⟨D, hD, hy⟩
        exact (hD.supports e he).frame f hf r hr hframe hne y hy
      source := by
        rintro f hf hframe x ⟨D, hD, hx⟩
        obtain ⟨y, hy, hxy⟩ := (hD.supports e he).source f hf hframe x hx
        exact ⟨y, hD.le_largest _ y hy, hxy⟩ }

/-- A family of the store after a replacement, read before it. -/
theorem Consistent.pull (hτ : KeepsRoots τ) (hD : h.Consistent (owed.map (Edge.onEnds τ)) D)
    (hsub : ∀ p x, x ∈ (τ p).candidates → x ∈ p.candidates) :
    h.Consistent owed fun p => D (τ p) where
  candidate p x hx := hsub p x (hD.candidate _ x hx)
  supports e he := by
    have hs : h.Supports D (e.onEnds τ) :=
      hD.supports _ (SortedSet.mem_map.2 ⟨e, he, rfl⟩)
    exact
      { sink := fun f hf hframe => hs.sink f hf ((hτ.isFrame _).trans hframe)
        frame := fun f hf r hr => hs.frame f hf r (by rw [Edge.onEnds, hr, hτ.known])
        source := fun f hf hframe => hs.source f hf ((hτ.isFrame _).trans hframe) }

/-- A family of the store before a replacement, read after it: a pointer is left what is left for
those of `G` that became it. If several became one, they must agree. -/
theorem Consistent.push {G : Pointer → Prop} (hτ : KeepsRoots τ) (hD : h.Consistent owed D)
    (hsub : ∀ p x, G p → D p x → x ∈ (τ p).candidates)
    (hends : ∀ r : Pointer, r.IsEndOf owed → G r)
    (hagree : ∀ r : Pointer, r.IsEndOf owed → ∀ p x, G p → D p x → τ p = τ r → D r x) :
    h.Consistent (owed.map (Edge.onEnds τ)) fun q x => ∃ p, G p ∧ τ p = q ∧ D p x where
  candidate := by
    rintro q x ⟨p, hp, rfl, hx⟩
    exact hsub p x hp hx
  supports := by
    intro e' he'
    obtain ⟨e, he, rfl⟩ := SortedSet.mem_map.1 he'
    have hs := hD.supports e he
    have hsource := Pointer.isEndOf_source he
    have hsink := Pointer.isEndOf_sink he
    refine ⟨?_, ?_, ?_⟩
    · rintro f hf hframe y ⟨p, hp, hpe, hy⟩
      obtain ⟨x, hx, hxy⟩ :=
        hs.sink f hf ((hτ.isFrame _).symm.trans hframe) y (hagree e.sink hsink p y hp hy hpe)
      exact ⟨x, ⟨e.source, hends _ hsource, rfl, hx⟩, hxy⟩
    · rintro f hf r hr hframe hne y ⟨p, hp, hpe, hy⟩
      exact hs.frame f hf r (hτ.eq_known hr hframe) hframe hne y (hagree e.sink hsink p y hp hy hpe)
    · rintro f hf hframe x ⟨p, hp, hpe, hx⟩
      obtain ⟨y, hy, hxy⟩ :=
        hs.source f hf ((hτ.isFrame _).symm.trans hframe) x (hagree e.source hsource p x hp hx hpe)
      exact ⟨y, ⟨e.sink, hends _ hsink, rfl, hy⟩, hxy⟩

end HeapGraph

/-! ## 3. Numbers play no part -/

/-- New numbers for choices: candidates stay and no two pointers become one. -/
structure Relabels (label : Pointer → Pointer) : Prop where
  injective : ∀ p q, label p = label q → p = q
  candidates : ∀ p, (label p).candidates = p.candidates
  known : ∀ x, label (.known x) = .known x

theorem Relabels.keepsRoots {label : Pointer → Pointer} (hl : Relabels label) :
    KeepsRoots label where
  known := hl.known
  isFrame p := by
    cases p with
    | known x => rw [hl.known]
    | choice i cs =>
      cases hp : label (.choice i cs) with
      | known x =>
        have heq := hl.injective _ _ (hp.trans (hl.known x).symm)
        cases heq
      | choice => rfl

theorem HeapGraph.largest_relabel {label : Pointer → Pointer} (hl : Relabels label)
    (h : HeapGraph) (owed : SortedSet Edge) (p : Pointer) (x : Location) :
    h.largest (owed.map (Edge.onEnds label)) (label p) x ↔ h.largest owed p x := by
  constructor
  · intro hx
    exact (Consistent.pull hl.keepsRoots consistent_largest fun q y hy =>
      hl.candidates q ▸ hy).le_largest p x hx
  · intro hx
    have hcons : h.Consistent owed (h.largest owed) := consistent_largest
    have hpush := Consistent.push (G := fun _ => True) hl.keepsRoots hcons
      (fun q y _ hy => (hl.candidates q).symm ▸ hcons.candidate q y hy) (fun _ _ => trivial)
      fun r _ q y _ hy heq => hl.injective q r heq ▸ hy
    exact hpush.le_largest _ x ⟨p, trivial, rfl, hx⟩

end Refuter
