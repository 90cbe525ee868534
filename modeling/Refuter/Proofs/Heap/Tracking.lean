import Refuter.HeapStore.Narrow
import Refuter.Proofs.Reading
import Refuter.Proofs.State

/-!
# States behind a heap store

`State.Satisfies σ s` says that the edges owed by `s` hold in `σ`. While an operation runs, the
choice of candidates behind it is carried along as a reading: `Reading.Tracks`. Adding an edge that
the state explains and narrowing by facts that cover the state keep the store tracked, so neither
halts.
-/

namespace Refuter

/-- `x` holds an object of the site `y`: as a root, or in the field `f` of an object of the site
`x`. -/
def State.Shows (σ : State) (x : Location) (f : Option Field) (y : Location) : Prop :=
  match f with
  | none => σ.Points x y
  | some f => σ.PointsBy x f y

/-- One candidate can be chosen for every number so that the state holds all owed edges. -/
def State.Satisfies (σ : State) (s : HeapStore) : Prop :=
  ∃ location : Nat → Location, ∀ e ∈ s.owed,
    e.source.pick location ∈ e.source.candidates ∧ e.sink.pick location ∈ e.sink.candidates ∧
      σ.Shows (e.source.pick location) e.field (e.sink.pick location)

namespace Reading

/-! ## 1. Explained edges -/

/-- The ends of the edge stand for locations between which the state holds the edge. -/
def Explains (R : Reading) (σ : State) (e : Edge) : Prop :=
  ∃ x y, R.Names e.source x ∧ R.Names e.sink y ∧ σ.Shows x e.field y

variable {R R' : Reading} {σ : State} {e : Edge} {f : Frame HeapStore}

theorem Explains.mono (h : R.Explains σ e) (hR : R ≤ R') : R'.Explains σ e := by
  obtain ⟨x, y, hx, hy, hs⟩ := h
  exact ⟨x, y, hx.mono hR, hy.mono hR, hs⟩

/-- The two pointers stand for one location. -/
def Agree (R : Reading) (p q : Pointer) : Prop := ∃ x, R.Names p x ∧ R.Names q x

theorem Agree.mono {p q : Pointer} (h : R.Agree p q) (hR : R ≤ R') : R'.Agree p q := by
  obtain ⟨x, hp, hq⟩ := h
  exact ⟨x, hp.mono hR, hq.mono hR⟩

theorem Names.rename {p q r : Pointer} {x : Location} (h : R.Names r x) (hpq : R.Agree p q) :
    R.Names (p.rename q r) x := by
  by_cases hr : r = p
  · rw [hr, Pointer.rename_self]
    subst hr
    obtain ⟨y, hy, hq⟩ := hpq
    rw [h.unique hy]
    exact hq
  · rw [Pointer.rename_of_ne hr]
    exact h

/-- Replacing a pointer by another one for the same location changes nothing. -/
theorem Explains.rename {p q : Pointer} (h : R.Explains σ e) (hpq : R.Agree p q) :
    R.Explains σ (e.rename p q) := by
  obtain ⟨x, y, hx, hy, hs⟩ := h
  exact ⟨x, y, hx.rename hpq, hy.rename hpq, hs⟩

theorem Explains.renameAll {renames : List (Pointer × Pointer)} (h : R.Explains σ e)
    (hr : ∀ r ∈ renames, R.Agree r.1 r.2) : R.Explains σ (e.renameAll renames) :=
  Edge.renameAll_induction h fun r hmem _ hd => hd.rename (hr r hmem)

/-- An edge whose source is unique is on a root: objects are told apart by their site only. -/
theorem Explains.root_of_isUnique (h : R.Explains σ e) (hu : e.source.isUnique = true) :
    ∃ x y, e.source = .known x ∧ e.field = none ∧ R.Names e.sink y ∧ σ.Points x y := by
  obtain ⟨x, y, hx, hy, hs⟩ := h
  cases hf : e.field with
  | some f =>
    rw [hf] at hs
    obtain ⟨-, b, -, -, rfl, -⟩ := hs
    rw [hx.isUnique_eq_false] at hu
    cases hu
  | none =>
    rw [hf] at hs
    cases hp : e.source with
    | known z =>
      rw [hp] at hx
      obtain rfl := hx.known_eq
      exact ⟨z, y, rfl, rfl, hy, hs⟩
    | choice i cs =>
      rw [hp] at hu
      cases hu

/-- Two explained edges on one root have sinks for the same location. -/
theorem Explains.sinks_agree {d : Edge} (hd : R.Explains σ d) (he : R.Explains σ e)
    (hu : e.source.isUnique = true) (hs : d.source = e.source) : R.Agree d.sink e.sink := by
  obtain ⟨x, y, hx, -, hy, hxy⟩ := he.root_of_isUnique hu
  obtain ⟨x', y', hx', -, hy', hxy'⟩ := hd.root_of_isUnique (hs ▸ hu)
  obtain rfl : x' = x := by
    rw [hs, hx] at hx'
    cases hx'
    rfl
  obtain rfl := hxy.unique hxy'
  exact ⟨y, hy', hy⟩

/-! ## 2. Tracked stores -/

/-- The reading explains every owed edge of a feasible store and covers the session's numbers. -/
structure Tracks (R : Reading) (σ : State) (f : Frame HeapStore) : Prop where
  feasible : f.store.feasible = true
  next : f.session.nextId = R.next
  owed : ∀ e ∈ f.store.owed, R.Explains σ e

theorem Tracks.satisfies (h : R.Tracks σ f) : σ.Satisfies f.store := by
  refine ⟨R.location, fun e he => ?_⟩
  obtain ⟨x, y, hx, hy, hs⟩ := h.owed e he
  rw [hx.pick_eq, hy.pick_eq]
  exact ⟨hx.mem, hy.mem, hs⟩

end Reading

/-- If the choices of a store have candidates and numbers, a state that satisfies it gives a
reading. -/
theorem State.Satisfies.exists_reading {σ : State} {s : HeapStore} {next : Nat}
    (h : σ.Satisfies s)
    (hformed : ∀ e ∈ s.owed, e.source.isWellFormed = true ∧ e.sink.isWellFormed = true)
    (hnumbered : ∀ e ∈ s.owed, ∀ n, n ∈ e.source.id? ∨ n ∈ e.sink.id? → n < next) :
    ∃ R : Reading, R.next = next ∧ ∀ e ∈ s.owed, R.Explains σ e := by
  obtain ⟨location, h⟩ := h
  refine ⟨⟨location, next⟩, rfl, fun e he => ?_⟩
  obtain ⟨hsource, hsink, hshows⟩ := h e he
  obtain ⟨hws, hwk⟩ := hformed e he
  exact ⟨_, _, ⟨rfl, hsource, hws, fun n hn => hnumbered e he n (.inl hn)⟩,
    ⟨rfl, hsink, hwk, fun n hn => hnumbered e he n (.inr hn)⟩, hshows⟩

namespace HeapM

open StoreM

variable {R : Reading} {σ : State} {f : Frame HeapStore}

/-- Numbers that an operation takes extend the reading and leave the store alone. -/
theorem ends_fresh_of_gives {α : Type} {x : Fresh α} {Q : α → Reading → Prop}
    (ht : R.Tracks σ f) (hx : R.Gives x Q) :
    Ends (fresh x) f fun a g => ∃ R', R ≤ R' ∧ R'.Tracks σ g ∧ g.store = f.store ∧ Q a R' := by
  obtain ⟨a, R', hxa, hR, hQ⟩ := hx
  rw [ends_fresh, ht.next, hxa]
  exact ⟨R', hR, ⟨ht.feasible, rfl, fun e he => (ht.owed e he).mono hR⟩, rfl, hQ⟩

theorem ends_requireFeasible {Q : Unit → Frame HeapStore → Prop} (hf : f.store.feasible = true)
    (hQ : Q () f) : Ends requireFeasible f Q := by
  unfold requireFeasible
  rw [ends_bind, ends_store, hf]
  exact ends_pure.2 hQ

theorem ends_requireWellFormed {p : Pointer} {Q : Unit → Frame HeapStore → Prop}
    (hp : p.isWellFormed = true) (hQ : Q () f) : Ends (requireWellFormed p) f Q := by
  cases p with
  | known x => exact ends_pure.2 hQ
  | choice i cs =>
    have hsize : ¬ cs.size < 2 := Nat.not_lt.2 (of_decide_eq_true hp)
    unfold requireWellFormed
    simp only [hsize, if_false]
    exact ends_pure.2 hQ

theorem ends_rename {p q : Pointer} (ht : R.Tracks σ f) (hpq : R.Agree p q) :
    Ends (rename p q) f fun _ g => R.Tracks σ g := by
  unfold rename
  by_cases h : p = q
  · rw [if_pos h]
    exact ends_pure.2 ht
  · rw [if_neg h, ends_bind, ends_debug, ends_modifyStore]
    refine ⟨ht.feasible, ht.next, fun e he => ?_⟩
    obtain ⟨d, hd, rfl⟩ := SortedSet.mem_map.1 he
    exact (ht.owed d hd).rename hpq

theorem ends_renameChoices {p : Pointer} {olds : List Pointer} (ht : R.Tracks σ f)
    (ho : ∀ old ∈ olds, R.Agree old p) :
    Ends (renameChoices p olds) f fun renames g =>
      R.Tracks σ g ∧ ∀ r ∈ renames, R.Agree r.1 r.2 := by
  induction olds generalizing f with
  | nil => exact ends_pure.2 ⟨ht, fun r hr => by cases hr⟩
  | cons old rest ih =>
    have hold : R.Agree old p := ho old List.mem_cons_self
    have hrest : ∀ o ∈ rest, R.Agree o p := fun o h => ho o (List.mem_cons_of_mem _ h)
    unfold renameChoices
    split
    · rw [ends_bind]
      refine (ends_rename ht hold).mono fun _ g hg => ?_
      rw [ends_bind]
      refine (ih hg hrest).mono fun renames g' hg' => ends_pure.2 ⟨hg'.1, fun r hr => ?_⟩
      obtain rfl | hr := List.mem_cons.1 hr
      · exact hold
      · exact hg'.2 r hr
    · exact ih ht hrest

/-! ## 3. Adding edges -/

/-- An explained edge can be added; where its root is bound already the two sinks agree. -/
theorem ends_addEdge {e : Edge} (ht : R.Tracks σ f) (he : R.Explains σ e) :
    Ends (addEdge e) f fun renames g =>
      ∃ R', R ≤ R' ∧ R'.Tracks σ g ∧ ∀ r ∈ renames, R'.Agree r.1 r.2 := by
  obtain ⟨x, y, hx, hy, hs⟩ := he
  unfold addEdge
  rw [ends_bind]
  refine ends_requireFeasible ht.feasible ?_
  rw [ends_bind]
  refine ends_requireWellFormed hx.wellFormed ?_
  rw [ends_bind]
  refine ends_requireWellFormed hy.wellFormed ?_
  rw [ends_bind, ends_store]
  cases hb : binding? f.store e with
  | none =>
    simp only [ends_bind, ends_debug, owe, ends_modifyStore, ends_pure]
    refine ⟨R, R.le_refl, ⟨ht.feasible, ht.next, fun d hd => ?_⟩, fun r hr => by cases hr⟩
    obtain rfl | hd := SortedSet.mem_insert.1 hd
    · exact ⟨x, y, hx, hy, hs⟩
    · exact ht.owed d hd
  | some bound =>
    -- the root holds one object, so the two sinks stand for the same
    obtain ⟨hu, hmem, hsource, -⟩ := binding?_eq_some hb
    obtain ⟨z, hz, hz'⟩ := (ht.owed bound hmem).sinks_agree ⟨x, y, hx, hy, hs⟩ hu hsource
    simp only [ends_bind, ends_options]
    refine (ends_fresh_of_gives ht (Reading.gives_merge _ hz hz')).mono fun o g hg => ?_
    obtain ⟨R', hR, htg, -, p, rfl, hp⟩ := hg
    refine (ends_renameChoices htg fun old ho => ?_).mono fun renames g' hg' =>
      ⟨R', hR, hg'.1, hg'.2⟩
    simp only [List.mem_cons, List.not_mem_nil, or_false] at ho
    obtain rfl | rfl := ho
    · exact ⟨z, hz.mono hR, hp⟩
    · exact ⟨z, hz'.mono hR, hp⟩

/-- Explained edges can be added in turn. Renames caused on the way keep the later ones
explained. -/
theorem ends_addEdges {renames : List (Pointer × Pointer)} {edges : List Edge}
    (ht : R.Tracks σ f) (hr : ∀ r ∈ renames, R.Agree r.1 r.2)
    (he : ∀ e ∈ edges, R.Explains σ e) :
    Ends (addEdges renames edges) f fun _ g => ∃ R', R ≤ R' ∧ R'.Tracks σ g := by
  induction edges generalizing R f renames with
  | nil => exact ends_pure.2 ⟨R, R.le_refl, ht⟩
  | cons e rest ih =>
    unfold addEdges
    rw [ends_bind]
    have hfirst := (he e List.mem_cons_self).renameAll hr
    refine (ends_addEdge ht hfirst).mono fun caused g hg => ?_
    obtain ⟨R', hR, htg, hc⟩ := hg
    have hboth : ∀ r ∈ renames ++ caused, R'.Agree r.1 r.2 := by
      intro r hmem
      obtain hmem | hmem := List.mem_append.1 hmem
      · exact (hr r hmem).mono hR
      · exact hc r hmem
    have hrest : ∀ e ∈ rest, R'.Explains σ e := fun e h => (he e (List.mem_cons_of_mem _ h)).mono hR
    refine (ih htg hboth hrest).mono fun _ g' hg' => ?_
    obtain ⟨R'', hR', htg'⟩ := hg'
    exact ⟨R'', Reading.le_trans hR hR', htg'⟩

end HeapM

/-! ## 4. Narrowing -/

namespace NarrowStep

variable {R : Reading} {σ : State} {h : HeapGraph} {e : Edge}

/-- The round does not refute, and what it renames stands for one location. -/
def Sound (R : Reading) : NarrowStep → Prop
  | done => True
  | stuck _ => False
  | rename p q => R.Agree p q

theorem gives_ofNarrowed {p : Pointer} {x : Location} {allowed : Locations} (hp : R.Names p x)
    (hx : x ∈ allowed) :
    R.Gives (do return ofNarrowed e p (← p.narrow allowed)) fun step R' => step.Sound R' := by
  refine (Reading.gives_narrow hp hx).bind fun n R' hR hn => Reading.gives_pure ?_
  obtain rfl | ⟨q, rfl, hq⟩ := hn
  · trivial
  · exact ⟨x, hp.mono hR, hq⟩

theorem mem_ofPointer_of_names {p : Pointer} {s : AllocSite} (hp : R.Names p (.site s)) :
    .site s ∈ h.ofPointer p :=
  HeapGraph.mem_ofPointer.2 ⟨_, hp.mem, SortedSet.mem_singleton.2 rfl⟩

theorem gives_ofSink {f : Field} (hc : h.Covers σ) (he : R.Explains σ e) (hf : e.field = some f) :
    R.Gives (ofSink h e f) fun step R' => step.Sound R' := by
  obtain ⟨x, y, hx, hy, hs⟩ := he
  rw [hf] at hs
  have hxy : y ∈ h.pointsTo x f := hc.fields x f y hs
  obtain ⟨-, b, -, -, rfl, -⟩ := hs
  unfold ofSink
  dsimp only
  split
  · exact Reading.gives_pure trivial
  · exact gives_ofNarrowed hy (SortedSet.mem_bind.2 ⟨_, mem_ofPointer_of_names hx, hxy⟩)

theorem gives_ofSource {f : Field} (hc : h.Covers σ) (he : R.Explains σ e)
    (hf : e.field = some f) : R.Gives (ofSource h e f) fun step R' => step.Sound R' := by
  obtain ⟨x, y, hx, hy, hs⟩ := he
  rw [hf] at hs
  have hxy : x ∈ h.pointsAt y f := HeapGraph.mem_pointsAt.2 (hc.fields x f y hs)
  obtain ⟨-, -, -, -, -, -, b, -, rfl⟩ := hs
  unfold ofSource
  dsimp only
  split
  · exact Reading.gives_pure trivial
  split
  · exact Reading.gives_pure trivial
  · exact gives_ofNarrowed hx (SortedSet.mem_bind.2 ⟨_, mem_ofPointer_of_names hy, hxy⟩)

theorem gives_ofEdge (hc : h.Covers σ) (he : R.Explains σ e) :
    R.Gives (ofEdge h e) fun step R' => step.Sound R' := by
  unfold ofEdge
  cases hf : e.field with
  | none => exact Reading.gives_pure trivial
  | some f =>
    dsimp only
    split
    · exact Reading.gives_pure trivial
    · refine (gives_ofSink hc he hf).bind fun step R' hR hstep => ?_
      cases step with
      | done => exact gives_ofSource hc (he.mono hR) hf
      | stuck => exact hstep.elim
      | rename p q => exact Reading.gives_pure hstep

/-- What the first edge in need asks for is sound if all edges are explained. -/
theorem gives_first {edges : List Edge} (hc : h.Covers σ) (he : ∀ e ∈ edges, R.Explains σ e) :
    R.Gives (first h edges) fun step R' => step.Sound R' := by
  induction edges generalizing R with
  | nil => exact Reading.gives_pure trivial
  | cons e rest ih =>
    unfold first
    refine (gives_ofEdge hc (he e List.mem_cons_self)).bind fun step R' hR hstep => ?_
    cases step with
    | done => exact ih fun e h => (he e (List.mem_cons_of_mem _ h)).mono hR
    | stuck => exact hstep.elim
    | rename p q => exact Reading.gives_pure hstep

end NarrowStep

namespace HeapM

open StoreM

variable {R : Reading} {σ : State} {h : HeapGraph} {f : Frame HeapStore}

theorem ends_narrowRounds (hc : h.Covers σ) (rounds : Nat) (ht : R.Tracks σ f) :
    Ends (narrowRounds h rounds) f fun _ g => ∃ R', R ≤ R' ∧ R'.Tracks σ g := by
  -- any number of rounds will do, since each keeps the store tracked
  induction rounds generalizing R f with
  | zero => exact ends_pure.2 ⟨R, R.le_refl, ht⟩
  | succ rounds ih =>
    unfold narrowRounds
    rw [ends_bind, ends_store, ends_bind]
    refine (ends_fresh_of_gives ht (NarrowStep.gives_first hc ht.owed)).mono fun step g hg => ?_
    obtain ⟨R', hR, htg, -, hstep⟩ := hg
    cases step with
    | done => exact ends_pure.2 ⟨R', hR, htg⟩
    | stuck => exact hstep.elim
    | rename p q =>
      simp only [ends_bind]
      refine (ends_rename htg hstep).mono fun _ g' htg' => (ih htg').mono fun _ g'' hg'' => ?_
      obtain ⟨R'', hR', htg''⟩ := hg''
      exact ⟨R'', Reading.le_trans hR hR', htg''⟩

/-- Narrowing by facts that cover the state refutes nothing. -/
theorem ends_narrow (hc : h.Covers σ) (ht : R.Tracks σ f) :
    Ends (narrow h) f fun _ g => ∃ R', R ≤ R' ∧ R'.Tracks σ g := by
  unfold narrow
  rw [ends_bind, ends_options]
  split
  · rw [ends_bind, ends_store]
    exact ends_narrowRounds hc _ ht
  · exact ends_pure.2 ⟨R, R.le_refl, ht⟩

end HeapM

end Refuter
