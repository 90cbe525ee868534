import Refuter.Proofs.Heap.Transfer

/-!
# Static writes on a heap store

A static field on which nothing is owed can be written with anything: the explored path overwrites
it later. A visit nevertheless compares the written objects with the edges that were produced on the
field, and `visitDerived_staticStore_iff` says exactly when it lets the write pass.
-/

namespace Refuter

open StoreM

/-! ## 1. Pointers without a common candidate -/

/-- Merging fails exactly for pointers that cannot be the same location. -/
theorem Pointer.isNone_merge_iff {narrowing : Bool} {p q : Pointer} {n : Nat}
    (hq : q.candidates.isEmpty = false) :
    (Pointer.merge narrowing p q n).1.isNone = true ↔ ∀ y ∈ q.candidates, ¬ y ∈ p.candidates := by
  rw [Option.isNone_iff_eq_none, merge_eq_none_iff (SortedSet.isEmpty_eq_false_iff.1 hq)]
  constructor
  · intro hno y hy hp
    exact hno ⟨y, hp, hy⟩
  · rintro h ⟨y, hp, hy⟩
    exact h y hy hp

/-! ## 2. What was produced on a root -/

/-- Every edge that was produced on the root `x` may lead to one of `cs`. -/
def HeapStore.LogAgrees (s : HeapStore) (x : Location) (cs : Locations) : Prop :=
  ∀ e ∈ s.produced, e.source = .known x → e.field = none → ∃ y ∈ cs, y ∈ e.sink.candidates

/-- A test of some element comes out as the tests of the elements do, however many numbers they
take. -/
theorem Fresh.anyM_iff {α : Type} {test : α → Fresh Bool} {P : α → Prop} {l : List α} {n : Nat}
    (h : ∀ a ∈ l, ∀ m, (test a m).1 = true ↔ P a) :
    (l.anyM test n).1 = true ↔ ∃ a ∈ l, P a := by
  induction l generalizing n with
  | nil =>
    constructor
    · intro hfalse
      cases hfalse
    · rintro ⟨a, ha, -⟩
      cases ha
  | cons a rest ih =>
    have hrest : ∀ m, (rest.anyM test m).1 = true ↔ ∃ b ∈ rest, P b := fun m =>
      ih fun b hb => h b (List.mem_cons_of_mem _ hb)
    have ha := h a List.mem_cons_self n
    rw [List.anyM, Fresh.bind_apply]
    cases htest : (test a n).1 with
    | true =>
      rw [htest] at ha
      exact ⟨fun _ => ⟨a, List.mem_cons_self, ha.1 rfl⟩, fun _ => rfl⟩
    | false =>
      rw [htest] at ha
      refine (hrest _).trans ⟨?_, ?_⟩
      · rintro ⟨b, hb, hP⟩
        exact ⟨b, List.mem_cons_of_mem _ hb, hP⟩
      · rintro ⟨b, hb, hP⟩
        obtain rfl | hb := List.mem_cons.1 hb
        · cases ha.2 hP
        · exact ⟨b, hb, hP⟩

/-- A rule on a root contradicts the log exactly if they do not agree. -/
theorem Classification.isProducedOtherwise_iff {narrowing : Bool} {s : HeapStore} {r : Rule}
    {t : Location} {x : Pointer} {n : Nat} (hr : r.shown = .root (.known t) x)
    (ht : t.isUnique = true) (hx : x.candidates.isEmpty = false) :
    (isProducedOtherwise narrowing s r n).1 = true ↔ ¬ s.LogAgrees t x.candidates := by
  have hunique : r.shown.source.isUnique = true := by
    rw [hr]
    exact ht
  unfold isProducedOtherwise
  rw [if_pos hunique, hr, Fresh.anyM_iff fun e _ m => Pointer.isNone_merge_iff hx]
  unfold HeapStore.LogAgrees
  constructor
  · rintro ⟨e, he, hapart⟩ hagrees
    obtain ⟨he, hroot⟩ := List.mem_filter.1 he
    simp only [Bool.and_eq_true, decide_eq_true_eq] at hroot
    obtain ⟨y, hy, hsink⟩ := hagrees e he hroot.2 hroot.1
    exact hapart y hy hsink
  · intro hnot
    refine Classical.byContradiction fun hnone => hnot fun e he hsource hfield => ?_
    refine Classical.byContradiction fun hapart => hnone ⟨e, List.mem_filter.2 ⟨he, ?_⟩, ?_⟩
    · simp only [Bool.and_eq_true, decide_eq_true_eq]
      exact ⟨hfield, hsource⟩
    · exact fun y hy hsink => hapart ⟨y, hy, hsink⟩

/-! ## 3. The rule of a static write -/

/-- The objects that the facts let an operand be. -/
def Operand.objects (h : HeapGraph) (m : MethodId) : Operand → Locations
  | .slot l => h.ofRoot (.slot m l)
  | .const _ | .null => ∅

section

variable {h : HeapGraph} {site : Site} {f : Field} {value : Operand} {n : Nat}

theorem Rule.derive_staticStore_of_isEmpty (hv : (value.objects h site.method).isEmpty = true) :
    (Rule.derive h site (.staticStore f value) n).1 = [] := by
  cases value with
  | const | null => rfl
  | slot l =>
    have hnil : (h.ofRoot (.slot site.method l)).toList = [] := List.isEmpty_iff.1 hv
    unfold Rule.derive Rule.derive?
    dsimp only
    unfold Rule.copy Pointer.ofCandidates
    rw [hnil]
    rfl

/-- The rule gives the static field what the value may be. -/
theorem Rule.derive_staticStore (hv : (value.objects h site.method).isEmpty = false) :
    ∃ r x m, Rule.derive h site (.staticStore f value) n = ([r], m) ∧
      r.shown = .root (.known (.global f)) x ∧ x.candidates = value.objects h site.method := by
  cases value with
  | const | null => cases hv
  | slot l =>
    obtain ⟨x, m, hx, hcandidates, -⟩ := Pointer.ofCandidates_spec hv n
    have hx : Pointer.ofCandidates (h.ofRoot (.slot site.method l)) n = (some x, m) := hx
    refine ⟨⟨.root (.known (.global f)) x, [.root (.known (.slot site.method l)) x], site.method⟩,
      x, m, ?_, rfl, hcandidates⟩
    unfold Rule.derive Rule.derive?
    dsimp only
    unfold Rule.copy
    rw [Fresh.bind_apply, Fresh.bind_apply, hx]
    rfl

end

/-! ## 4. Visits -/

namespace HeapM

variable {h : HeapGraph} {site : Site} {f : Field} {value : Operand} {s : Frame HeapStore}

/-- An instruction that defines no local leaves nothing to do without a rule. -/
theorem ends_withoutRule_of_target? {i : Instruction} (hi : i.target? = none) :
    Ends (withoutRule site i 0) s fun _ g => g = s := by
  have hunproduced : unproduced? s.store site i = none := by
    unfold unproduced?
    rw [hi]
    split <;> rfl
  unfold withoutRule
  simp only [Nat.lt_irrefl, gt_iff_lt, if_false, ends_bind, ends_store, hunproduced]
  cases i with
  | metadata d => cases hi
  | _ => exact ends_pure.2 rfl

theorem refutes_withoutRule {i : Instruction} {n : Nat} (hn : 0 < n) :
    Refutes (withoutRule site i n) s (.noConsistentRule n) := by
  unfold withoutRule
  rw [if_pos hn]
  exact Refutes.bind ⟨_, rfl⟩

/-- Without a rule the store stays as it is. -/
theorem ends_dispatch_nil {i : Instruction} (hi : i.target? = none) :
    Ends (dispatch h site i []) s fun rest g => rest = [] ∧ g.store = s.store := by
  unfold dispatch classify
  simp only [ends_bind, ends_pure, List.isEmpty_nil, if_true]
  refine (ends_withoutRule_of_target? hi).mono fun _ g hg => ?_
  rw [hg]
  exact ⟨trivial, rfl⟩

variable {r : Rule} {x : Pointer}

/-- A rule that agrees with the log is passed over. -/
theorem ends_dispatch_of_agrees (hr : r.shown = .root (.known (.global f)) x)
    (hx : x.candidates.isEmpty = false) (ho : ∀ d ∈ s.store.owed, d.Avoids (.global f))
    (ha : s.store.LogAgrees (.global f) x.candidates) :
    Ends (dispatch h site (.staticStore f value) [r]) s fun rest g =>
      rest = [] ∧ g.store = s.store := by
  have hrule : ∀ narrowing n, ∃ m, Classification.ofRule narrowing s.store r n =
      (.inapplicable, m) := by
    intro narrowing n
    have hp : (Classification.isProducedOtherwise narrowing s.store r n).1 = false :=
      Bool.eq_false_iff.2 fun h =>
        (Classification.isProducedOtherwise_iff hr rfl hx).1 h ha
    exact ⟨_, Classification.ofRule_eq_of_avoids hr ho (Prod.ext hp rfl)⟩
  obtain ⟨m, hm⟩ := hrule s.session.options.narrowFromConstraints s.session.nextId
  unfold dispatch classify
  simp only [ends_bind, ends_options, ends_store, ends_fresh, hm]
  unfold classify
  simp only [ends_pure, List.isEmpty_nil, if_true, ends_bind]
  refine (ends_withoutRule_of_target? rfl).mono fun _ g hg => ?_
  rw [hg]
  exact ⟨trivial, rfl⟩

/-- A rule that contradicts the log refutes the store. -/
theorem refutes_dispatch_of_not_agrees (hr : r.shown = .root (.known (.global f)) x)
    (hx : x.candidates.isEmpty = false) (ho : ∀ d ∈ s.store.owed, d.Avoids (.global f))
    (ha : ¬ s.store.LogAgrees (.global f) x.candidates) :
    Refutes (dispatch h site (.staticStore f value) [r]) s (.noConsistentRule 1) := by
  have hrule : ∀ narrowing n, ∃ m, Classification.ofRule narrowing s.store r n =
      (.inconsistent, m) := by
    intro narrowing n
    have hp : (Classification.isProducedOtherwise narrowing s.store r n).1 = true :=
      (Classification.isProducedOtherwise_iff hr rfl hx).2 ha
    exact ⟨_, Classification.ofRule_eq_of_avoids hr ho (Prod.ext hp rfl)⟩
  obtain ⟨m, hm⟩ := hrule s.session.options.narrowFromConstraints s.session.nextId
  unfold dispatch
  refine Ends.refutes ?_
  unfold classify
  simp only [ends_bind, ends_options, ends_store, ends_fresh, hm, ends_debug]
  unfold classify
  simp only [ends_pure, List.isEmpty_nil, if_true]
  exact (refutes_withoutRule Nat.one_pos).bind

/-- A write that agrees with the log leaves the store as it is. -/
theorem ends_visitDerived_staticStore (hf : s.store.feasible = true)
    (ho : ∀ d ∈ s.store.owed, d.Avoids (.global f))
    (ha : (value.objects h site.method).isEmpty = true ∨
      s.store.LogAgrees (.global f) (value.objects h site.method)) :
    Ends (visitDerived h site (.staticStore f value)) s fun rest g =>
      rest = [] ∧ g.store = s.store := by
  unfold visitDerived
  rw [ends_bind, ends_fresh, visit_eq_dispatch (by intro v hv; cases hv), ends_bind]
  refine ends_requireFeasible hf ?_
  rw [ends_bind, ends_store]
  cases hv : (value.objects h site.method).isEmpty with
  | true =>
    rw [Rule.derive_staticStore_of_isEmpty hv]
    exact ends_dispatch_nil rfl
  | false =>
    obtain ⟨r, x, m, hderive, hr, hx⟩ := Rule.derive_staticStore (n := s.session.nextId) (f := f) hv
    have hagrees := ha.resolve_left (by rw [hv]; decide)
    rw [hderive]
    simp only [Frame.supply_store, List.filter_cons, List.filter_nil]
    -- whether the rule is relevant makes no difference
    split
    · exact ends_dispatch_of_agrees (s := s.supply m) hr (hx ▸ hv) ho (hx ▸ hagrees)
    · exact ends_dispatch_nil rfl

/-- A write that contradicts the log refutes the store. -/
theorem refutes_visitDerived_staticStore (hf : s.store.feasible = true)
    (ho : ∀ d ∈ s.store.owed, d.Avoids (.global f))
    (hv : (value.objects h site.method).isEmpty = false)
    (ha : ¬ s.store.LogAgrees (.global f) (value.objects h site.method)) :
    Refutes (visitDerived h site (.staticStore f value)) s (.noConsistentRule 1) := by
  obtain ⟨r, x, m, hderive, hr, hx⟩ := Rule.derive_staticStore (n := s.session.nextId) (f := f) hv
  -- an edge was produced on the field, for the log would agree otherwise
  have hrelevant : s.store.isRuleRelevant r = true := by
    refine Classical.byContradiction fun hno => ha fun e he hsource _ => absurd ?_ hno
    exact isRuleRelevant_of_mem (List.mem_append_right _ he) hsource (by rw [hr]; rfl)
  unfold visitDerived
  refine Ends.refutes ?_
  rw [ends_fresh, hderive, visit_eq_dispatch (by intro v hv; cases hv)]
  refine Ends.refutes (ends_requireFeasible hf ?_)
  refine Ends.refutes ?_
  simp only [ends_store, Frame.supply_store, List.filter_cons, hrelevant, if_true, List.filter_nil]
  exact refutes_dispatch_of_not_agrees (s := s.supply m) hr (hx ▸ hv) ho (hx ▸ ha)

/-- On a static field that is owed nothing, a visit passes a write over exactly if there is nothing
to write or everything that was produced on the field may be what is written. -/
theorem visitDerived_staticStore_iff (h : HeapGraph) (site : Site) (f : Field) (value : Operand)
    (s : Frame HeapStore) (hf : s.store.feasible = true)
    (ho : ∀ d ∈ s.store.owed, d.Avoids (.global f)) :
    (∃ g, visitDerived h site (.staticStore f value) s = .ok [] g ∧ g.store = s.store) ↔
      (value.objects h site.method).isEmpty = true ∨
        s.store.LogAgrees (.global f) (value.objects h site.method) := by
  constructor
  · rintro ⟨g, hok, -⟩
    refine Classical.byContradiction fun hno => ?_
    have hv : (value.objects h site.method).isEmpty = false :=
      Bool.eq_false_iff.2 fun hv => hno (.inl hv)
    have hrefutes := refutes_visitDerived_staticStore hf ho hv fun ha => hno (.inr ha)
    exact hrefutes.not_ends (Q := fun _ _ => True) ⟨[], g, hok, trivial⟩
  · intro ha
    obtain ⟨rest, g, hok, rfl, hstore⟩ := ends_visitDerived_staticStore hf ho ha
    exact ⟨g, hok, hstore⟩

end HeapM

namespace OverwrittenField

def site : Site := ⟨⟨1⟩, false⟩

def cache : Field := .named "A" "s"

def alloc (n : UInt32) : AllocSite := ⟨n, "A", ⟨1⟩⟩

/-- Locals 1 and 2 hold different objects. -/
def graph : HeapGraph where
  roots := [⟨.slot ⟨1⟩ 1, [.site (alloc 1)]⟩, ⟨.slot ⟨1⟩ 2, [.site (alloc 2)]⟩]

/-- The field was given the object of local 1, which that local still owes. -/
def frame : Frame HeapStore where
  store :=
    { owed := .singleton (.root (.slot ⟨1⟩ 1) (.site (alloc 1)))
      produced := [.root (.global cache) (.site (alloc 1))] }
  session := {}

theorem avoids_frame : ∀ d ∈ frame.store.owed, d.Avoids (.global cache) := by
  intro d hd
  rw [SortedSet.mem_singleton.1 hd]
  exact fun _ => by decide

theorem logAgrees_frame :
    frame.store.LogAgrees (.global cache) (Operand.objects graph ⟨1⟩ (.slot 1)) := by
  intro e he _ _
  rw [List.mem_singleton.1 he]
  exact ⟨.site (alloc 1), by decide, by decide⟩

/-- Writing the same object once more is passed over. -/
theorem visitDerived_staticStore_same :
    (∀ d ∈ frame.store.owed, d.Avoids (.global cache)) ∧
      ∃ g, HeapM.visitDerived graph site (.staticStore cache (.slot 1)) frame = .ok [] g ∧
        g.store = frame.store :=
  ⟨avoids_frame, (HeapM.visitDerived_staticStore_iff graph site cache (.slot 1) frame rfl
    avoids_frame).2 (.inr logAgrees_frame)⟩

/-- The path gives the field the object of local 2 and then that of local 1. Going backwards the
second write is discharged, and the first is refuted although nothing is owed on the field. -/
theorem visitDerived_staticStore_overwritten :
    ∃ start later last, HeapM.addEdge (.root (.global cache) (.site (alloc 1))) ⟨{}, {}⟩ =
        .ok [] start ∧
      HeapM.visitDerived graph site (.staticStore cache (.slot 1)) start = .ok [] later ∧
      later.store = frame.store ∧ (∀ d ∈ later.store.owed, d.Avoids (.global cache)) ∧
      HeapM.visitDerived graph site (.staticStore cache (.slot 2)) later =
        .error (.refuted (.noConsistentRule 1)) last := by
  obtain ⟨start, hstart, later, hlater, hstore⟩ :
      ∃ start, HeapM.addEdge (.root (.global cache) (.site (alloc 1))) ⟨{}, {}⟩ = .ok [] start ∧
        ∃ later, HeapM.visitDerived graph site (.staticStore cache (.slot 1)) start =
          .ok [] later ∧ later.store = frame.store := ⟨_, rfl, _, rfl, by decide⟩
  have havoids : ∀ d ∈ later.store.owed, d.Avoids (.global cache) := hstore ▸ avoids_frame
  have hlog : ¬ later.store.LogAgrees (.global cache) (Operand.objects graph ⟨1⟩ (.slot 2)) := by
    rw [hstore]
    intro hagrees
    obtain ⟨y, hy, hsink⟩ := hagrees _ List.mem_cons_self rfl rfl
    rw [SortedSet.mem_singleton.1 hsink] at hy
    revert hy
    decide
  obtain ⟨last, hlast⟩ : Refutes (HeapM.visitDerived graph site (.staticStore cache (.slot 2)))
      later (.noConsistentRule 1) :=
    HeapM.refutes_visitDerived_staticStore (hstore ▸ rfl) havoids (by decide) hlog
  exact ⟨start, later, last, hstart, hlater, hstore, havoids, hlast⟩

end OverwrittenField

end Refuter
