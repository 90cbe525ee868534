import Refuter.Proofs.Heap.Merge
import Refuter.Proofs.Query.Operations
import Refuter.Scenario.Replay

/-!
# A root is owed once

A local, a result or a static field points to one thing, so two edges on it would contradict each
other or say the same. Adding an edge merges it into the edge that binds its root, and no other
operation can bring two edges on one root: sinks are objects, so renaming a sink never makes a
root. Entering a callee is the exception; it moves edges to the result of the callee, which must
be free.
-/

namespace Refuter

open StoreM

/-! ## 1. Pointers to objects -/

namespace Pointer

variable {p q r : Pointer} {n m : Nat}

/-- What is an object is no root. -/
theorem isUnique_eq_false_of_isSite (h : p.isSite = true) : p.isUnique = false := by
  cases p with
  | choice i cs => rfl
  | known x =>
    have hx : x.isSite = true := isSite_iff.1 h x (SortedSet.mem_singleton.2 rfl)
    cases x with
    | site a => rfl
    | slot | result | global | index => cases hx

theorem isChoice_eq_false_of_isUnique (h : p.isUnique = true) : p.isChoice = false := by
  cases p with
  | known x => rfl
  | choice i cs => cases h

/-- With narrowing a merged pointer has no candidate that the second one lacks, and it is the first
one unless that is a choice. -/
theorem merge_narrows (h : merge true p q n = (some r, m)) :
    (∀ x ∈ r.candidates, x ∈ q.candidates) ∧ (r = p ∨ p.isChoice = true) := by
  have hcandidates : r.candidates = p.candidates.inter q.candidates := by
    have hmerged : candidatesOf (merge true p q n).1 = p.candidates.inter q.candidates :=
      candidatesOf_merge
    rw [h] at hmerged
    exact hmerged
  refine ⟨fun x hx => (SortedSet.mem_inter.1 (hcandidates ▸ hx)).2, ?_⟩
  exact (eq_or_isChoice_of_merge h).1.imp_left Eq.symm

/-- Pointers to objects are closed under merging and narrowing. -/
theorem law_isSite :
    Law (fun (_ : Timeless) _ => True) (fun x => x.isSite = true) fun _ p => p.isSite = true where
  mono _ _ _ := le_refl _
  candidates hp hx := isSite_iff.1 hp _ hx
  known hx := isSite_iff.2 fun y hy => (SortedSet.mem_singleton.1 hy) ▸ hx
  make {w cs} session _ := by
    refine ⟨w, le_refl w, trivial, fun p hp hcs => ?_⟩
    obtain ⟨-, heq⟩ | ⟨x, rfl, heq⟩ | ⟨-, heq⟩ := ofCandidates_cases cs session.nextId
    · rw [heq] at hp
      cases hp
    · rw [heq] at hp
      cases hp
      exact isSite_iff.2 hcs
    · rw [heq] at hp
      cases hp
      exact isSite_iff.2 hcs

end Pointer

/-! ## 2. Roots of a store -/

namespace HeapStore

/-- All owed edges lead to objects, and none but known pointers and objects are their sources. No
two of them are on the same root. -/
structure BindsOnce (s : HeapStore) : Prop where
  within : ∀ e ∈ s.owed, e.Within fun p => p.isSite = true
  once : ∀ d ∈ s.owed, ∀ e ∈ s.owed, d.source.isUnique = true → d.source = e.source →
    d.field = e.field → d = e

namespace BindsOnce

variable {s : HeapStore} {e : Edge} {p q : Pointer}

theorem of_subset {owed : SortedSet Edge} (hs : s.BindsOnce) (h : ∀ e ∈ owed, e ∈ s.owed) :
    BindsOnce { s with owed := owed } where
  within e he := hs.within e (h e he)
  once d hd e he := hs.once d (h d hd) e (h e he)

theorem insert (hs : s.BindsOnce) (he : e.Within fun p => p.isSite = true)
    (hnone : HeapM.binding? s e = none) : BindsOnce { s with owed := s.owed.insert e } where
  within d hd := by
    rcases SortedSet.mem_insert.1 hd with rfl | hd
    · exact he
    · exact hs.within d hd
  once c hc d hd hu hsource hfield := by
    have hother : ∀ b ∈ s.owed, e.source.isUnique = true → b.source = e.source →
        b.field ≠ e.field := fun b hb hunique hsame hfield =>
      HeapM.binding?_eq_none hnone hunique hb ⟨hsame, hfield⟩
    rcases SortedSet.mem_insert.1 hc with rfl | hold
    · rcases SortedSet.mem_insert.1 hd with rfl | hold
      · rfl
      · exact absurd hfield.symm (hother d hold hu hsource.symm)
    · rcases SortedSet.mem_insert.1 hd with rfl | hold'
      · exact absurd hfield (hother c hold (hsource ▸ hu) hsource)
      · exact hs.once c hold d hold' hu hsource hfield

/-- An edge that is on a root after a rename to objects was on it before. -/
theorem source_of_rename (hq : q.isSite = true)
    (hu : (e.rename p q).source.isUnique = true) : e.source = (e.rename p q).source := by
  show e.source = if e.source = p then q else e.source
  split
  · rename_i heq
    have hunique : q.isUnique = true := by
      rw [← show (e.rename p q).source = q from if_pos heq]
      exact hu
    rw [Pointer.isUnique_eq_false_of_isSite hq] at hunique
    cases hunique
  · rfl

theorem rename (hs : s.BindsOnce) (hq : q.isSite = true) :
    BindsOnce { s.replace p q with renames := s.renames ++ [(p, q)] } where
  within e he := by
    obtain ⟨d, hd, rfl⟩ := SortedSet.mem_map.1 he
    exact (hs.within d hd).rename (.inr hq) fun _ => hq
  once d hd e he hu hsource hfield := by
    obtain ⟨c, hc, rfl⟩ := SortedSet.mem_map.1 hd
    obtain ⟨b, hb, rfl⟩ := SortedSet.mem_map.1 he
    -- the sources are those before the rename, so the edges were one edge
    have hsc := source_of_rename hq hu
    have hsb := source_of_rename hq (hsource ▸ hu)
    have hcb : c = b := hs.once c hc b hb (hsc ▸ hu) (hsc.trans (hsource.trans hsb.symm)) hfield
    rw [hcb]

/-- Edges move from a local to a result that is free. -/
theorem replace_slot (hs : s.BindsOnce) {m callee : MethodId} {l : Local}
    (hfree : ∀ e ∈ s.owed, e.source ≠ .result callee) :
    (s.replace (.slot m l) (.result callee)).BindsOnce where
  within e he := by
    obtain ⟨d, hd, rfl⟩ := SortedSet.mem_map.1 he
    exact (hs.within d hd).rename (.inl rfl) fun hp => by cases hp
  once d hd e he hu hsource hfield := by
    obtain ⟨c, hc, rfl⟩ := SortedSet.mem_map.1 hd
    obtain ⟨b, hb, rfl⟩ := SortedSet.mem_map.1 he
    have hsources : c.source = b.source := by
      have hsource : (if c.source = .slot m l then Pointer.result callee else c.source) =
        if b.source = .slot m l then Pointer.result callee else b.source := hsource
      split at hsource <;> split at hsource
      · rename_i hc' hb'
        exact hc'.trans hb'.symm
      · exact absurd hsource.symm (hfree b hb)
      · exact absurd hsource (hfree c hc)
      · exact hsource
    have hunique : c.source.isUnique = true := by
      have hu :
          (if c.source = .slot m l then Pointer.result callee else c.source).isUnique = true :=
        hu
      split at hu
      · rename_i hc'
        rw [hc']
        rfl
      · exact hu
    rw [hs.once c hc b hb hunique hsources hfield]

end BindsOnce

theorem law_bindsOnce :
    HeapStore.Law (fun (_ : Timeless) _ => True) (fun _ s => s.BindsOnce) (fun _ => True)
      (fun x => x.isSite = true) fun _ p => p.isSite = true where
  pointers := Pointer.law_isSite
  mono _ _ _ := le_refl _
  notes _ _ _ _ _ := trivial
  owed hs he := hs.within _ he
  owe hs he hnone := hs.insert he hnone
  keep _ hs := hs.of_subset fun _ he => (SortedSet.mem_filter.1 he).1
  rename hs _ _ hq := hs.rename hq
  log hs _ := ⟨hs.within, hs.once⟩
  forget _ hs := ⟨hs.within, hs.once⟩
  refuted hs := ⟨hs.within, hs.once⟩
  frame {x y} hframe hsite := by
    cases x with
    | slot | result => cases hsite
    | global | site | index => cases hframe
  malformed _ _ := trivial
  refutes _ := trivial

end HeapStore

/-! ## 3. The edge that binds a root -/

namespace HeapM

variable {p : Pointer} {d e : Edge} {f : Frame HeapStore}

/-- Renaming choices to `p` leads an edge to `p` if its sink is one of them. -/
theorem results_renameChoices {olds : List Pointer} (hd : d ∈ f.store.owed)
    (hsource : d.source.isChoice = false)
    (hsink : d.sink = p ∨ d.sink ∈ olds ∧ d.sink.isChoice = true) :
    Results (renameChoices p olds) f
      (fun _ g => ⟨d.source, d.field, p⟩ ∈ g.store.owed) fun _ _ => True := by
  induction olds generalizing d f with
  | nil =>
    obtain rfl : d.sink = p := hsink.resolve_right fun h => by cases h.1
    exact hd
  | cons old rest ih =>
    unfold renameChoices
    split
    · rename_i htest
      obtain ⟨hne, hold⟩ := Bool.and_eq_true_iff.1 htest
      have hne : old ≠ p := of_decide_eq_true hne
      have hsame : (d.rename old p).source = d.source := by
        apply if_neg
        rintro rfl
        rw [hold] at hsource
        cases hsource
      have hsink' : (d.rename old p).sink = p ∨
          (d.rename old p).sink ∈ rest ∧ (d.rename old p).sink.isChoice = true := by
        by_cases heq : d.sink = old
        · exact .inl (if_pos heq)
        · rw [show (d.rename old p).sink = d.sink from if_neg heq]
          refine hsink.imp_right fun h => ⟨?_, h.2⟩
          exact (List.mem_cons.1 h.1).resolve_left heq
      unfold rename
      rw [if_neg hne]
      simp only [results_bind, results_debug, results_modifyStore, results_pure]
      have hrest := @ih (d.rename old p) { f.note ⟨.debug, .heap, old.text ++ " := " ++ p.text⟩ with
        store := { f.store.replace old p with renames := f.store.renames ++ [(old, p)] } }
        (SortedSet.mem_map.2 ⟨d, hd, rfl⟩) (hsame ▸ hsource) hsink'
      rw [hsame] at hrest
      exact hrest
    · rename_i htest
      refine ih hd hsource (hsink.elim .inl fun h => ?_)
      obtain heq | hmem := List.mem_cons.1 h.1
      · -- a choice that is not renamed is `p` itself
        left
        by_contra hne
        apply htest
        rw [← heq, h.2, Bool.and_true]
        exact decide_eq_true hne
      · exact .inr ⟨hmem, h.2⟩

/-- An added edge binds its source and field to candidates of its sink. -/
theorem results_addEdge_binds (hn : f.session.options.narrowFromConstraints = true) :
    Results (addEdge e) f (fun _ g => ∃ d ∈ g.store.owed, d.source = e.source ∧
      d.field = e.field ∧ ∀ x ∈ d.sink.candidates, x ∈ e.sink.candidates) fun _ _ => True := by
  apply results_addEdge
  · exact fun _ => trivial
  · exact fun _ => ⟨e, SortedSet.mem_insert.2 (.inl rfl), rfl, rfl, fun x hx => hx⟩
  · exact fun _ _ _ _ => trivial
  · intro bound p m hbound hmerge
    rw [hn] at hmerge
    obtain ⟨hu, hmem, hsource, hfield⟩ := binding?_eq_some hbound
    obtain ⟨hsub, hp⟩ := Pointer.merge_narrows hmerge
    have hknown : bound.source.isChoice = false :=
      Pointer.isChoice_eq_false_of_isUnique (hsource ▸ hu)
    have hrenamed : Results (renameChoices p [bound.sink, e.sink]) (f.supply m)
        (fun _ g => ⟨bound.source, bound.field, p⟩ ∈ g.store.owed) fun _ _ => True := by
      apply results_renameChoices (f := f.supply m) hmem hknown
      exact hp.imp Eq.symm fun hc => ⟨List.mem_cons_self, hc⟩
    exact hrenamed.mono (fun _ g hg => ⟨_, hg, hsource, hfield, hsub⟩) fun _ _ h => h

end HeapM

/-! ## 4. Reached queries -/

namespace Query

variable {h : HeapGraph} {session : Session} {q : Query}

theorem law_bindsOnce :
    Query.Law (fun (_ : Timeless) _ => True) (fun _ s => s.BindsOnce) (fun _ _ => True)
      (fun _ => True) (fun x => x.isSite = true) (fun _ p => p.isSite = true)
      fun _ _ => True where
  heap := HeapStore.law_bindsOnce
  path := PathStore.law_any fun _ => trivial
  renamed _ := trivial
  renames _ _ := trivial
  replayed hs := ⟨hs.within, hs.once⟩
  objects _ _ _ hsite := hsite
  asked _ _ _ _ := trivial
  checked _ := trivial
  declared _ _ := trivial

/-- What a search looks for: an edge to objects from a known source or from objects, or a
constraint. -/
inductive IsGoal : QueryM Unit → Prop
  | edge {e : Edge} (he : e.Within fun p => p.isSite = true) : IsGoal (QueryM.requireEdge e)
  | constraint (c : Constraint) : IsGoal (QueryM.requireConstraint c)

/-- A query that holds its goal only. -/
def IsStart (session : Session) (q : Query) : Prop :=
  ∃ goal first, IsGoal goal ∧ goal ⟨{}, first⟩ = .ok () ⟨q, session⟩

/-- A step with rules from the facts. A callee is entered only while no edge is owed on its
result. -/
inductive IsStep (h : HeapGraph) : Query → QueryM (List Query) → Prop
  | run {q : Query} (step : Step)
    (hfree : ∀ site call callee, step = .enterCallee site call callee →
      ∀ e ∈ q.heap.owed, e.source ≠ .result callee) :
    IsStep h q (Scenario.stepOn h .derived step)
  | check {q : Query} : IsStep h q do QueryM.check; return []

/-- A query that a search comes to, in any branch and whatever the other branches do. -/
abbrev Reached (h : HeapGraph) : Session → Query → Prop :=
  StoreM.Reached IsStart (IsStep h) fun _ _ => True

theorem IsStart.bindsOnce (hq : IsStart session q) : q.heap.BindsOnce := by
  obtain ⟨goal, first, hgoal, hrun⟩ := hq
  have hempty : HeapStore.BindsOnce {} := ⟨fun _ he => (by cases he), fun _ hd => by cases hd⟩
  cases hgoal with
  | edge he =>
    have hedge := QueryM.evolves_requireEdge law_bindsOnce (w := .world) he
    obtain ⟨_, -, -, hq, -⟩ := (hedge ⟨{}, first⟩ trivial ⟨hempty, trivial⟩).of_ok hrun
    exact hq.1
  | constraint c =>
    -- the heap store is not touched
    have hheap : Results (QueryM.requireConstraint c) ⟨{}, first⟩
        (fun _ g => g.store.heap.BindsOnce) fun _ _ => True := by
      unfold QueryM.requireConstraint QueryM.onPath
      rw [results_onPart]
      exact results_of_forall (fun _ _ => hempty) fun _ _ => trivial
    exact hheap.of_ok hrun

/-- Entering a callee whose result is free. -/
theorem results_enterCallee {call : Instruction} {caller : Site} {callee : MethodId}
    (hq : q.heap.BindsOnce) (hfree : ∀ e ∈ q.heap.owed, e.source ≠ .result callee) :
    Results (QueryM.enterCallee call caller callee) ⟨q, session⟩
      (fun _ g => g.store.heap.BindsOnce) fun _ g => g.store.heap.BindsOnce := by
  unfold QueryM.enterCallee QueryM.requireAlive
  simp only [results_bind, results_store]
  split
  · exact hq
  · apply Results.onRefuted
    unfold QueryM.onPath QueryM.onHeap
    rw [results_bind, results_onPart]
    refine results_of_forall (fun _ g => ?_) fun _ g => ⟨hq, hq⟩
    rw [results_onPart]
    refine (HeapM.results_enterCallee call caller callee _).mono (fun _ g' h => ?_) fun e g' h => ?_
    · obtain ⟨-, hsame | ⟨d, hmoved⟩⟩ := h
      · exact hsame ▸ hq
      · exact hmoved ▸ hq.replace_slot hfree
    · exact ⟨h.1 ▸ hq, h.1 ▸ hq⟩

theorem IsStep.bindsOnce {x : QueryM (List Query)} (hgraph : h.Within fun x => x.isSite = true)
    (hq : q.heap.BindsOnce) (hx : IsStep h q x) :
    Results x ⟨q, session⟩ (fun rest g => ∀ t ∈ g.store :: rest, t.heap.BindsOnce)
      fun _ g => g.store.heap.BindsOnce := by
  -- all but entering a callee keep what is known of the store
  have hevolves : ∀ {x : QueryM (List Query)}, Evolves (fun (_ : Timeless) _ => True)
      (Query.Both (fun _ s => s.BindsOnce) fun _ _ => True) (fun _ => True) .world x
      (fun w rest => ∀ t ∈ rest, Query.Both (fun _ s => s.BindsOnce) (fun _ _ => True) w t) →
      Results x ⟨q, session⟩ (fun rest g => ∀ t ∈ g.store :: rest, t.heap.BindsOnce)
        fun _ g => g.store.heap.BindsOnce := by
    intro x hx
    refine (hx.branches trivial ⟨hq, trivial⟩).mono (fun rest g h t ht => ?_) fun e g h => ?_
    · obtain ⟨_, -, hall⟩ := h
      exact (hall t ht).1
    · obtain ⟨_, -, hboth⟩ := h
      exact hboth.1
  have hreturn : ∀ {x : QueryM Unit}, Evolves (fun (_ : Timeless) _ => True)
      (Query.Both (fun _ s => s.BindsOnce) fun _ _ => True) (fun _ => True) .world x
      (fun _ _ => True) →
      Results (do x; return []) ⟨q, session⟩
        (fun rest g => ∀ t ∈ g.store :: rest, t.heap.BindsOnce)
        fun _ g => g.store.heap.BindsOnce :=
    fun hx => hevolves (hx.bind fun _ _ _ _ => evolves_pure fun t ht => by cases ht)
  cases hx with
  | check => exact hreturn (QueryM.evolves_check law_bindsOnce)
  | run step hfree =>
    cases step with
    | visit site i rules =>
      apply hevolves
      apply QueryM.evolves_visit law_bindsOnce hgraph
      exact fun _ _ => Rule.draws_derive Pointer.law_isSite hgraph (fun _ => rfl) site i
    | enterCallee site call callee =>
      refine results_bind.2 ((results_enterCallee hq (hfree site call callee rfl)).mono
        (fun _ g hg => ?_) fun _ g hg => hg)
      exact fun t ht => (List.mem_singleton.1 ht) ▸ hg
    | returnToCaller site call =>
      exact hreturn (QueryM.evolves_returnToCaller law_bindsOnce _ _ fun _ => trivial)
    | skipCall site call =>
      exact hreturn (QueryM.evolves_skipCall law_bindsOnce _ _ fun _ => trivial)
    | declareWitness => exact hreturn (QueryM.evolves_declareWitness law_bindsOnce)

theorem Reached.bindsOnce (hgraph : h.Within fun x => x.isSite = true)
    (hq : Reached h session q) : q.heap.BindsOnce := by
  have hall : ∃ w : Timeless, True ∧ q.heap.BindsOnce := by
    refine StoreM.Reached.invariant (W := Timeless) (J := fun _ _ => True)
      (P := fun _ q => q.heap.BindsOnce)
      (fun _ _ _ => le_refl _) (fun _ _ hstart => ⟨.world, trivial, hstart.bindsOnce⟩) ?_
      (fun _ _ _ _ _ => ⟨.world, le_refl _, trivial⟩) hq
    intro _ session s x _ hs hx
    exact (hx.bindsOnce hgraph hs).mono (fun _ _ h => ⟨.world, trivial, h⟩)
      fun _ _ h => ⟨.world, trivial, h⟩
  obtain ⟨_, -, hs⟩ := hall
  exact hs

/-- If roots and fields point to objects only, no query that a search comes to owes two edges on
one root; and with narrowing an edge that is added binds its source and field to candidates of its
sink. -/
theorem roots_owed_once (hroots : ∀ r ∈ h.roots, ∀ x ∈ r.pointsTo, x.isSite = true)
    (hedges : ∀ e ∈ h.edges, e.sink.isSite = true) :
    (∀ session q, Reached h session q → ∀ d ∈ q.heap.owed, ∀ e ∈ q.heap.owed,
      d.source.isUnique = true → d.source = e.source → d.field = e.field → d = e) ∧
    ∀ (f g : Frame HeapStore) (e : Edge) (renames : List (Pointer × Pointer)),
      f.session.options.narrowFromConstraints = true → HeapM.addEdge e f = .ok renames g →
      ∃ d ∈ g.store.owed, d.source = e.source ∧ d.field = e.field ∧
        ∀ x ∈ d.sink.candidates, x ∈ e.sink.candidates := by
  constructor
  · intro session q hq
    exact (hq.bindsOnce (HeapGraph.within_of_facts hroots hedges)).once
  · intro f g e renames hn hrun
    exact (HeapM.results_addEdge_binds hn).of_ok hrun

/-! A goal is read from a field: then the base is owed, and a second edge on it merges. -/

namespace FieldRead

def method : MethodId := ⟨1⟩

def object (n : UInt32) : Location := .site ⟨n, "C", method⟩

def next : Field := .named "C" "next"

def graph : HeapGraph where
  roots := [⟨.slot method 1, [object 1, object 2]⟩, ⟨.slot method 2, [object 3, object 4]⟩]
  edges := [⟨object 1, next, object 3⟩, ⟨object 2, next, object 3⟩, ⟨object 2, next, object 4⟩]

def either (id : Nat) (a b : UInt32) : Pointer := .choice id (.ofList [object a, object b])

def start : Query := { heap := { owed := .ofList [.root (.slot method 2) (either 0 3 4)] } }

def load : Step := .visit { method := method } (.load 2 1 next) none

def base : Edge := .root (.slot method 1) (either 1 1 2)

def loaded : SortedSet Edge := .ofList [base, .ofField (either 1 1 2) next (either 0 3 4)]

theorem exists_reached : ∃ session q, Reached graph session q ∧ q.heap.owed = loaded := by
  have hgoal : Ends (QueryM.requireEdge (.root (.slot method 2) (either 0 3 4)))
      ⟨{}, { nextId := 1 }⟩ fun _ g => decide (g.store = start) = true :=
    ends_of_endsWith (by decide +kernel)
  have hload : Ends (Scenario.stepOn graph .derived load) ⟨start, { nextId := 1 }⟩ fun _ g =>
      decide (g.store.heap.owed = loaded) = true := ends_of_endsWith (by decide +kernel)
  have hsink : (either 0 3 4).isSite = true := by decide
  have hedge : (Edge.root (.slot method 2) (either 0 3 4)).Within fun p => p.isSite = true :=
    ⟨.inl rfl, hsink⟩
  have hstep : IsStep graph start (Scenario.stepOn graph .derived load) :=
    .run load fun _ _ _ h => by cases h
  obtain ⟨_, ⟨q, session⟩, hrun, hq⟩ := hgoal
  obtain rfl : q = start := of_decide_eq_true hq
  have hstart : Reached graph session start := .start ⟨_, _, .edge hedge, hrun⟩
  obtain ⟨rest, g, hrun, howed⟩ := hload
  refine ⟨g.session, g.store, ?_, of_decide_eq_true howed⟩
  exact (hstart.later trivial).ends hstep hrun List.mem_cons_self

theorem roots_owed_once_base :
    (∃ session q, Reached graph session q ∧ base ∈ q.heap.owed ∧
      ∀ e ∈ q.heap.owed, base.source = e.source → base.field = e.field → base = e) ∧
    Ends (HeapM.addEdge (.root (.slot method 1) (either 5 2 7)))
      ⟨{ owed := .ofList [base] }, { nextId := 6 }⟩ fun _ g =>
        ∃ d ∈ g.store.owed, d.source = .slot method 1 ∧ d.field = none ∧
          ∀ x ∈ d.sink.candidates, x ∈ (either 5 2 7).candidates := by
  obtain ⟨honce, hbinds⟩ := roots_owed_once (h := graph) (by decide) (by decide)
  constructor
  · obtain ⟨session, q, hq, howed⟩ := exists_reached
    have hbase : base ∈ q.heap.owed := howed ▸ SortedSet.mem_ofList.2 List.mem_cons_self
    exact ⟨session, q, hq, hbase, fun e he => honce session q hq base hbase e he rfl⟩
  · have hadd : Ends (HeapM.addEdge (.root (.slot method 1) (either 5 2 7)))
        ⟨{ owed := .ofList [base] }, { nextId := 6 }⟩ fun _ _ => True := ⟨_, _, rfl, trivial⟩
    obtain ⟨renames, g, hrun, -⟩ := hadd
    exact ⟨renames, g, hrun, hbinds _ g _ renames rfl hrun⟩

end FieldRead

end Query

end Refuter
