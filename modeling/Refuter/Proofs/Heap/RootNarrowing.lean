import Refuter.Proofs.Heap.Narrowing

/-!
# Narrowing edges on roots

A field edge on a root speaks of the objects that the root holds. Narrowing looks these up when it
restricts the sink. When it restricts the source it leaves frame roots alone, but compares a static
field itself with the objects whose field may lead to the sink. `HeapM.narrow_rooted_iff` says
exactly which edges between a root and one site pass both restrictions: a static field passes only
if the facts give it fields of its own, as if it were an object.
-/

namespace Refuter

open StoreM

/-! ## 1. What the facts say of a root -/

namespace HeapGraph

/-- Some object that the root may hold has `x` in its field, or nothing is known about the root. -/
def MayReach (h : HeapGraph) (r : Location) (f : Field) (x : Location) : Prop :=
  (h.ofRoot r).isEmpty = true ∨ ∃ y ∈ (h.ofRoot r).toList, x ∈ h.pointsTo y f

instance (h : HeapGraph) (r : Location) (f : Field) (x : Location) : Decidable (h.MayReach r f x) :=
  inferInstanceAs (Decidable (_ ∨ ∃ y ∈ (h.ofRoot r).toList, x ∈ h.pointsTo y f))

theorem ofPointer_root (h : HeapGraph) {r : Location} (hr : r.isRoot = true) :
    h.ofPointer (.known r) = h.ofRoot r :=
  SortedSet.ext_mem fun _ => mem_ofPointer_root hr

theorem ofPointer_site (h : HeapGraph) (s : AllocSite) :
    h.ofPointer (.site s) = .singleton (.site s) :=
  SortedSet.ext_mem fun _ => Pointer.mem_ofPointer_of_isSite rfl

/-- Both restrictions let the edge pass, if it leads from a root to a site. -/
def Admits (h : HeapGraph) (e : Edge) : Prop :=
  ∀ r f s, e = .ofField (.known r) f (.site s) →
    h.MayReach r f (.site s) ∧ (r.isFrame = true ∨ r ∈ h.pointsAt (.site s) f)

theorem admits_root (h : HeapGraph) (p q : Pointer) : h.Admits (.root p q) := by
  intro r f s he
  cases he

theorem admits_field_iff {h : HeapGraph} {r : Location} {f : Field} {s : AllocSite} :
    h.Admits (.ofField (.known r) f (.site s)) ↔
      h.MayReach r f (.site s) ∧ (r.isFrame = true ∨ r ∈ h.pointsAt (.site s) f) := by
  constructor
  · exact fun he => he r f s rfl
  · intro he r' f' s' heq
    cases heq
    exact he

end HeapGraph

/-- A root edge, or an edge on a proper field that leads from a root to one site. -/
inductive Edge.IsRooted : Edge → Prop
  | root (p q : Pointer) : IsRooted (.root p q)
  | field (r : Location) (f : Field) (s : AllocSite) (hr : r.isRoot = true)
      (hf : f.isPseudo = false) : IsRooted (.ofField (.known r) f (.site s))

/-! ## 2. One round -/

namespace NarrowStep

variable {h : HeapGraph} {e : Edge} {f : Field} {x r : Location} {n : Nat} {P Q : Prop}

/-- There is nothing to do if `P` holds, and otherwise the round is stuck on `e`. It takes no
number. -/
def Decides (n : Nat) (e : Edge) (P : Prop) (step : NarrowStep × Nat) : Prop :=
  (step = (done, n) ∧ P) ∨ (step = (stuck e, n) ∧ ¬ P)

theorem Decides.congr {step : NarrowStep × Nat} (hstep : Decides n e P step) (hPQ : P ↔ Q) :
    Decides n e Q step :=
  hstep.imp (And.imp_right hPQ.1) (And.imp_right (mt hPQ.2))

/-- Restricting a known end. -/
theorem decides_ofNarrowed {p : Pointer} {allowed : Locations} (hp : p = .known x) :
    Decides n e (x ∈ allowed) ((do return ofNarrowed e p (← p.narrow allowed) :
      Fresh NarrowStep) n) := by
  have hnarrow : p.narrow allowed n = (if x ∈ allowed then .same else .empty, n) := by
    rw [hp]
    rfl
  rw [Fresh.bind_apply, hnarrow]
  by_cases hx : x ∈ allowed
  · rw [if_pos hx]
    exact .inl ⟨rfl, hx⟩
  · rw [if_neg hx]
    exact .inr ⟨rfl, hx⟩

/-- A known sink passes if nothing is known about the source, or if one of its objects leads to the
sink. -/
theorem decides_ofSink (hx : e.sink = .known x) :
    Decides n e ((h.ofPointer e.source).isEmpty = true ∨
      ∃ y ∈ (h.ofPointer e.source).toList, x ∈ h.pointsTo y f) (ofSink h e f n) := by
  unfold ofSink
  by_cases hempty : (h.ofPointer e.source).isEmpty = true
  · rw [if_pos hempty]
    exact .inl ⟨rfl, .inl hempty⟩
  · rw [if_neg hempty, or_iff_right hempty, ← SortedSet.mem_bind]
    exact decides_ofNarrowed hx

/-- A known source passes if it is in a frame, if the sink denotes nothing, or if the source itself
leads to what the sink denotes. -/
theorem decides_ofSource (hr : e.source = .known r) :
    Decides n e (r.isFrame = true ∨ (h.ofPointer e.sink).isEmpty = true ∨
      ∃ y ∈ (h.ofPointer e.sink).toList, r ∈ h.pointsAt y f) (ofSource h e f n) := by
  have hframe : e.source.isFrame = r.isFrame := by
    rw [hr]
    rfl
  unfold ofSource
  rw [hframe]
  by_cases hin : r.isFrame = true
  · rw [if_pos hin]
    exact .inl ⟨rfl, .inl hin⟩
  rw [if_neg hin, or_iff_right hin]
  by_cases hempty : (h.ofPointer e.sink).isEmpty = true
  · rw [if_pos hempty]
    exact .inl ⟨rfl, .inl hempty⟩
  · rw [if_neg hempty, or_iff_right hempty, ← SortedSet.mem_bind]
    exact decides_ofNarrowed hr

/-- Both ends are restricted, the sink first. -/
theorem decides_ofEdge (hf : e.HasFacts f) (hsink : Decides n e P (ofSink h e f n))
    (hsource : Decides n e Q (ofSource h e f n)) : Decides n e (P ∧ Q) (ofEdge h e n) := by
  unfold ofEdge
  rw [hf.1]
  dsimp only
  rw [if_neg (Bool.eq_false_iff.1 hf.2), Fresh.bind_apply]
  obtain ⟨hsink, hP⟩ | ⟨hsink, hP⟩ := hsink
  · rw [hsink]
    exact hsource.congr (and_iff_right hP).symm
  · rw [hsink]
    exact .inr ⟨rfl, fun hboth => hP hboth.1⟩

/-- A rooted edge passes if the facts admit it. -/
theorem decides_ofEdge_rooted (he : e.IsRooted) : Decides n e (h.Admits e) (ofEdge h e n) := by
  cases he with
  | root p q => exact .inl ⟨rfl, h.admits_root p q⟩
  | field r f s hr hf =>
    refine (decides_ofEdge ⟨rfl, hf⟩ (decides_ofSink rfl) (decides_ofSource rfl)).congr ?_
    rw [HeapGraph.admits_field_iff]
    refine and_congr ?_ (or_congr_right ?_)
    · change (h.ofPointer (.known r)).isEmpty = true ∨
        (∃ y ∈ (h.ofPointer (.known r)).toList, .site s ∈ h.pointsTo y f) ↔ _
      rw [h.ofPointer_root hr]
      exact Iff.rfl
    · change (h.ofPointer (.site s)).isEmpty = true ∨
        (∃ y ∈ (h.ofPointer (.site s)).toList, r ∈ h.pointsAt y f) ↔ _
      rw [h.ofPointer_site]
      simp [SortedSet.isEmpty, SortedSet.singleton]

/-- The round is stuck on the first edge that is not admitted. -/
theorem first_rooted {edges : List Edge} (hedges : ∀ e ∈ edges, e.IsRooted) :
    (first h edges n = (done, n) ∧ ∀ e ∈ edges, h.Admits e) ∨
      ∃ e ∈ edges, first h edges n = (stuck e, n) ∧ ¬ h.Admits e := by
  induction edges with
  | nil => exact .inl ⟨rfl, fun e he => absurd he List.not_mem_nil⟩
  | cons e rest ih =>
    have hrest := ih fun d hd => hedges d (List.mem_cons_of_mem e hd)
    unfold first
    rw [Fresh.bind_apply]
    obtain ⟨hedge, hadmits⟩ | ⟨hedge, hadmits⟩ :=
      decides_ofEdge_rooted (h := h) (n := n) (hedges e List.mem_cons_self)
    · rw [hedge]
      obtain ⟨hfirst, hall⟩ | ⟨d, hd, hfirst, hno⟩ := hrest
      · exact .inl ⟨hfirst, List.forall_mem_cons.2 ⟨hadmits, hall⟩⟩
      · exact .inr ⟨d, List.mem_cons_of_mem e hd, hfirst, hno⟩
    · rw [hedge]
      exact .inr ⟨e, List.mem_cons_self, rfl, hadmits⟩

end NarrowStep

/-! ## 3. Narrowing -/

namespace HeapM

/-- On rooted edges one round decides: nothing is renamed, and the edge that is not admitted is
named. -/
theorem narrow_rooted_cases {h : HeapGraph} {f : Frame HeapStore}
    (hon : f.session.options.narrowFromConstraints = true)
    (hs : ∀ e ∈ f.store.owed, e.IsRooted) :
    (narrow h f = .ok () f ∧ ∀ e ∈ f.store.owed, h.Admits e) ∨
      ∃ e ∈ f.store.owed, Refutes (narrow h) f (.narrowed e) ∧ ¬ h.Admits e := by
  have hrun := narrow_eq_narrowRounds (h := h) hon
  obtain ⟨hfirst, hall⟩ | ⟨e, he, hfirst, hno⟩ :=
    NarrowStep.first_rooted (h := h) (n := f.session.nextId) hs
  · rw [narrowRounds_succ hfirst] at hrun
    exact .inl ⟨hrun, hall⟩
  · rw [narrowRounds_succ hfirst] at hrun
    exact .inr ⟨e, he, ⟨_, hrun⟩, hno⟩

/-- Edges that lead from roots to sites are narrowed without a refutation exactly if each of them
can be reached from the root, and each that starts at a static field is among the facts itself. -/
theorem narrow_rooted_iff (h : HeapGraph) (f : Frame HeapStore)
    (hon : f.session.options.narrowFromConstraints = true)
    (hs : ∀ e ∈ f.store.owed, e.IsRooted) :
    (∃ g, narrow h f = .ok () g) ↔
      ∀ r field s, .ofField (.known r) field (.site s) ∈ f.store.owed →
        h.MayReach r field (.site s) ∧ (r.isFrame = true ∨ r ∈ h.pointsAt (.site s) field) := by
  obtain ⟨hok, hall⟩ | ⟨e, he, hrefutes, hno⟩ := narrow_rooted_cases (h := h) hon hs
  · exact ⟨fun _ r field s hmem => hall _ hmem r field s rfl, fun _ => ⟨f, hok⟩⟩
  · constructor
    · rintro ⟨g, hok⟩
      exact absurd ⟨(), g, hok, trivial⟩ (hrefutes.not_ends (Q := fun _ _ => True))
    · intro hall
      refine absurd (fun r field s heq => ?_) hno
      subst heq
      exact hall r field s he

end HeapM

namespace CachedObject

def cache : Location := .global (.named "A" "s")

def holder : Location := .slot ⟨1⟩ 1

def next : Field := .named "A" "f"

def alloc (n : UInt32) : AllocSite := ⟨n, "A", ⟨1⟩⟩

/-- A local and a static field hold the first object, whose field holds the second. -/
def facts : HeapGraph where
  roots := [⟨holder, [.site (alloc 1)]⟩, ⟨cache, [.site (alloc 1)]⟩]
  edges := [⟨.site (alloc 1), next, .site (alloc 2)⟩]

/-- The field of what the root holds is the second object. -/
def edge (r : Location) : Edge := .ofField (.known r) next (.site (alloc 2))

def frame (roots : List Location) : Frame HeapStore := ⟨{ owed := .ofList (roots.map edge) }, {}⟩

theorem mem_owed {roots : List Location} {e : Edge} :
    e ∈ (frame roots).store.owed ↔ ∃ r ∈ roots, edge r = e :=
  SortedSet.mem_ofList.trans List.mem_map

theorem isRooted_frame {roots : List Location} (hroots : ∀ r ∈ roots, r.isRoot = true) :
    ∀ e ∈ (frame roots).store.owed, e.IsRooted := by
  intro e he
  obtain ⟨r, hr, rfl⟩ := mem_owed.1 he
  exact .field r next (alloc 2) (hroots r hr) rfl

/-- Both edges pass if the facts give the static field the field of its object. -/
theorem narrow_rooted_own_fact :
    (∀ e ∈ (frame [holder, cache]).store.owed, e.IsRooted) ∧
      ∃ g, HeapM.narrow (facts.addEdge cache next (.site (alloc 2))) (frame [holder, cache]) =
        .ok () g := by
  have hrooted : ∀ e ∈ (frame [holder, cache]).store.owed, e.IsRooted :=
    isRooted_frame (by decide)
  refine ⟨hrooted, (HeapM.narrow_rooted_iff _ _ rfl hrooted).2 fun r field s hmem => ?_⟩
  obtain ⟨r, hr, heq⟩ := mem_owed.1 hmem
  cases heq
  revert r
  decide

/-- The edge passes on the local. On the static field it is refuted, although the field holds the
same object. -/
theorem narrow_refutes_cached :
    facts.ofRoot cache = facts.ofRoot holder ∧
      facts.MayReach holder next (.site (alloc 2)) ∧
      facts.MayReach cache next (.site (alloc 2)) ∧
      (∃ g, HeapM.narrow facts (frame [holder]) = .ok () g) ∧
      Refutes (HeapM.narrow facts) (frame [cache]) (.narrowed (edge cache)) := by
  refine ⟨by decide, by decide, by decide, ?_, ?_⟩
  · obtain ⟨hok, -⟩ | ⟨e, he, -, hno⟩ := HeapM.narrow_rooted_cases (h := facts)
      (f := frame [holder]) rfl (isRooted_frame (by decide))
    · exact ⟨_, hok⟩
    · obtain ⟨r, hr, rfl⟩ := mem_owed.1 he
      obtain rfl := List.mem_singleton.1 hr
      exact absurd (HeapGraph.admits_field_iff.2 (by decide)) hno
  · obtain ⟨-, hall⟩ | ⟨e, he, hrefutes, -⟩ := HeapM.narrow_rooted_cases (h := facts)
      (f := frame [cache]) rfl (isRooted_frame (by decide))
    · have hadmits := hall (edge cache) (mem_owed.2 ⟨cache, List.mem_singleton.2 rfl, rfl⟩)
      exact absurd (HeapGraph.admits_field_iff.1 hadmits) (by decide)
    · obtain ⟨r, hr, rfl⟩ := mem_owed.1 he
      obtain rfl := List.mem_singleton.1 hr
      exact hrefutes

end CachedObject

end Refuter
