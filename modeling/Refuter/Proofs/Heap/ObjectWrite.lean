import Refuter.Proofs.Heap.Merge

/-!
# Writes to objects on a heap store

A write to a field may be about another object than the one an owed edge is about, so the store as
it was should always be one of the cases after a visit. It is, unless the write could have produced
some owed edge and, for each such edge, what is known of the two locals speaks against it. Then
the visit refutes the store; `visitDerived_objectWrite_iff` says exactly when.
-/

namespace Refuter

open StoreM

/-! ## 1. What a write says -/

/-- A write of what the root `value` holds to a field of what the root `base` holds, with the
objects that the facts let the two be. -/
structure ObjectWrite where
  base : Location
  field : Field
  value : Location
  bases : Locations
  values : Locations

/-- The write of an instruction, unless it writes a literal. -/
def Instruction.objectWrite? (h : HeapGraph) (m : MethodId) : Instruction → Option ObjectWrite
  | .store base field (.slot v) =>
    some ⟨.slot m base, field, .slot m v, h.ofRoot (.slot m base), h.ofRoot (.slot m v)⟩
  | .arrayStore array _ (.slot v) =>
    some ⟨.slot m array, .contents, .slot m v, h.ofRoot (.slot m array), h.ofRoot (.slot m v)⟩
  | _ => none

/-- Roots hold nothing but objects. -/
def HeapGraph.RootsHoldSites (h : HeapGraph) : Prop :=
  ∀ r ∈ h.roots, ∀ x ∈ r.pointsTo, x.isSite = true

theorem HeapGraph.RootsHoldSites.isSite {h : HeapGraph} {x y : Location} (hh : h.RootsHoldSites)
    (hy : y ∈ h.ofRoot x) : y.isSite = true := by
  obtain ⟨r, hr, hy⟩ := List.mem_flatMap.1 (SortedSet.mem_ofList.1 hy)
  exact hh r (List.mem_filter.1 hr).1 y hy

namespace ObjectWrite

variable (w : ObjectWrite) (narrowing : Bool) (s : HeapStore) (o e : Edge)

/-- The owed edge may be the one that the write makes. -/
def MayProduce : Prop :=
  o.field = some w.field ∧ o.source.candidates.Meets w.bases ∧ o.sink.candidates.Meets w.values

/-- What the written object can be if the write makes the edge. -/
def source : Locations := SortedSet.merged narrowing o.source.candidates w.bases

/-- What the written value can be if the write makes the edge. -/
def sink : Locations := SortedSet.merged narrowing o.sink.candidates w.values

/-- What the sink of another edge can be then: it may be the same unknown as an end of `o`. -/
def sinkOf : Locations :=
  if e.sink = o.source then w.source narrowing o
  else if e.sink = o.sink then w.sink narrowing o
  else e.sink.candidates

/-- All edges on the two roots leave room for the write to make the owed edge `o`. -/
def Agrees : Prop :=
  ∀ e, e ∈ s.owed ∨ e ∈ s.produced → e.field = none →
    (e.source = .known w.base → (w.sinkOf narrowing o e).Meets (w.source narrowing o)) ∧
    (e.source = .known w.value → (w.sinkOf narrowing o e).Meets (w.sink narrowing o))

/-- No owed edge may be made by the write, or there is one for which nothing speaks against it. -/
def Allowed : Prop :=
  (∀ o ∈ s.owed, ¬ w.MayProduce o) ∨ ∃ o ∈ s.owed, w.MayProduce o ∧ w.Agrees narrowing s o

end ObjectWrite

/-! ## 2. The rule of a write -/

theorem Pointer.known_ne {p : Pointer} {x : Location} (hp : p.isUnique = false)
    (hx : x.isUnique = true) : .known x ≠ p := by
  rintro rfl
  rw [show (Pointer.known x).isUnique = x.isUnique from rfl, hx] at hp
  cases hp

theorem Edge.rename_root {p q x y : Pointer} (hx : x ≠ p) :
    (Edge.root x y).rename p q = .root x (if y = p then q else y) := by
  show Edge.mk (if x = p then q else x) none (if y = p then q else y) = _
  rw [if_neg hx]
  rfl

theorem Edge.source_rename_iff {p q z : Pointer} {e : Edge} (hp : p ≠ z) (hq : q ≠ z) :
    (e.rename p q).source = z ↔ e.source = z := by
  show (if e.source = p then q else e.source) = z ↔ e.source = z
  split
  · rename_i hsource
    rw [hsource]
    exact ⟨fun h => absurd h hq, fun h => absurd h hp⟩
  · exact Iff.rfl

namespace ObjectWrite

/-- The rule, with pointers for the written object and the written value. -/
def rule (w : ObjectWrite) (m : MethodId) (b v : Pointer) : Rule :=
  ⟨.ofField b w.field v, [.root (.known w.base) b, .root (.known w.value) v], m⟩

/-- The pointers of a rule that took the numbers from `n` up to `k`. -/
structure Pointers (w : ObjectWrite) (n k : Nat) (b v : Pointer) : Prop where
  bases : b.candidates = w.bases
  values : v.candidates = w.values
  baseWellFormed : b.isWellFormed = true
  valueWellFormed : v.isWellFormed = true
  numbered : ∀ i, v.id? = some i → n ≤ i ∧ i < k
  distinct : b = v → ∃ x, v = .known x

theorem Pointers.within_rule {w : ObjectWrite} {n k : Nat} {b v : Pointer} {m : MethodId}
    (hp : w.Pointers n k b v) : (w.rule m b v).Within fun p => p.isWellFormed = true := by
  refine ⟨⟨.inr hp.baseWellFormed, hp.valueWellFormed⟩, fun e he => ?_⟩
  obtain rfl | he := List.mem_cons.1 he
  · exact ⟨.inl rfl, hp.baseWellFormed⟩
  · rw [List.mem_singleton.1 he]
    exact ⟨.inl rfl, hp.valueWellFormed⟩

/-- The write goes from a root to an object. -/
structure OnObjects (w : ObjectWrite) : Prop where
  base : w.base.isUnique = true
  value : w.value.isUnique = true
  bases : ∀ x ∈ w.bases, x.isSite = true
  values : ∀ x ∈ w.values, x.isSite = true

variable {w : ObjectWrite} {narrowing : Bool} {n k : Nat} {s : HeapStore} {o : Edge}
  {b v p q : Pointer} {m : MethodId}

/-- `p` and `q` are the ends of `o` merged with those of the rule. -/
structure Joins (w : ObjectWrite) (narrowing : Bool) (n k : Nat) (o : Edge) (b v p q : Pointer) :
    Prop where
  onObjects : w.OnObjects
  pointers : w.Pointers n k b v
  mayProduce : w.MayProduce o
  numbered : ∀ i, o.source.id? = some i → i < n
  source : Pointer.IsMerged narrowing k o.source b p
  sink : Pointer.IsMerged narrowing k o.sink v q

namespace Joins

variable (j : w.Joins narrowing n k o b v p q)
include j

theorem candidates_source : p.candidates = w.source narrowing o := by
  rw [j.source.candidates, j.pointers.bases]
  rfl

theorem candidates_sink : q.candidates = w.sink narrowing o := by
  rw [j.sink.candidates, j.pointers.values]
  rfl

/-- If the merged source is the pointer of the value then both are known, for that pointer had no
number before. -/
theorem eq_of_source_eq (h : p = v) : q = p := by
  obtain ⟨y, hy⟩ : ∃ y, v = .known y := by
    obtain hp | hp | hp := j.source.origin
    · -- the source of `o`, whose number is older
      refine Pointer.eq_known_of_id? fun i hi => ?_
      have hnew := (j.pointers.numbered i hi).1
      rw [← h, hp] at hi
      exact absurd (j.numbered i hi) (Nat.not_lt.2 hnew)
    · exact j.pointers.distinct (hp.symm.trans h)
    · -- a pointer that merging made, whose number is newer
      refine Pointer.eq_known_of_id? fun i hi => ?_
      have hold := (j.pointers.numbered i hi).2
      rw [← h] at hi
      exact absurd hold (Nat.not_lt.2 (hp i hi))
  have hmeets : o.sink.candidates.Meets (.singleton y) := by
    have hvalues := j.pointers.values
    rw [hy] at hvalues
    have hmay := j.mayProduce.2.2
    rw [← hvalues] at hmay
    exact hmay
  have hsink := j.sink
  rw [hy] at hsink
  rw [hsink.eq_known hmeets, h, hy]

/-- If the rule has one pointer for both then it is known and merging leaves it. -/
theorem source_eq_of_eq (h : v = b) : p = v := by
  obtain ⟨x, hx⟩ := j.pointers.distinct h.symm
  have hmeets : o.source.candidates.Meets (.singleton x) := by
    have hbases := j.pointers.bases
    rw [← h, hx] at hbases
    have hmay := j.mayProduce.2.1
    rw [← hbases] at hmay
    exact hmay
  have hsource := j.source
  rw [← h, hx] at hsource
  rw [hsource.eq_known hmeets, hx]

/-- The pointers on the way are those of objects. -/
theorem isUnique_eq_false : b.isUnique = false ∧ v.isUnique = false ∧ o.source.isUnique = false ∧
    o.sink.isUnique = false ∧ p.isUnique = false ∧ q.isUnique = false := by
  have hbases : ∀ x ∈ b.candidates, x.isSite = true := by
    rw [j.pointers.bases]
    exact j.onObjects.bases
  have hvalues : ∀ x ∈ v.candidates, x.isSite = true := by
    rw [j.pointers.values]
    exact j.onObjects.values
  obtain ⟨x, hx⟩ := Pointer.exists_mem_candidates j.pointers.baseWellFormed
  obtain ⟨y, hy⟩ := Pointer.exists_mem_candidates j.pointers.valueWellFormed
  refine ⟨Pointer.isUnique_eq_false_of_meets ⟨x, hx, hx⟩ hbases,
    Pointer.isUnique_eq_false_of_meets ⟨y, hy, hy⟩ hvalues, ?_, ?_,
    j.source.isUnique_eq_false hbases, j.sink.isUnique_eq_false hvalues⟩
  · exact Pointer.isUnique_eq_false_of_meets j.mayProduce.2.1 j.onObjects.bases
  · exact Pointer.isUnique_eq_false_of_meets j.mayProduce.2.2 j.onObjects.values

/-- The premises of the rule, once its edge is merged with `o`, are about the merged ends. -/
theorem premises_apply :
    (Binding.apply ⟨o, p, q⟩ (w.rule m b v)).premises =
      [.root (.known w.base) p, .root (.known w.value) q] := by
  obtain ⟨hb, hv, -, -, -, -⟩ := j.isUnique_eq_false
  have hbase : .known w.base ≠ b := Pointer.known_ne hb j.onObjects.base
  have hbase' : .known w.base ≠ v := Pointer.known_ne hv j.onObjects.base
  have hvalue : .known w.value ≠ b := Pointer.known_ne hb j.onObjects.value
  have hvalue' : .known w.value ≠ v := Pointer.known_ne hv j.onObjects.value
  -- the sink of the first premise, and that of the second
  have hfirst : (if p = v then q else p) = p := by
    split
    · rename_i h
      exact j.eq_of_source_eq h
    · rfl
  have hsecond : (if (if v = b then p else v) = v then q else if v = b then p else v) = q := by
    by_cases h : v = b
    · rw [if_pos h, if_pos (j.source_eq_of_eq h)]
    · rw [if_neg h, if_pos rfl]
  show [Edge.rename v q (Edge.rename b p (.root (.known w.base) b)),
    Edge.rename v q (Edge.rename b p (.root (.known w.value) v))] = _
  rw [Edge.rename_root hbase, Edge.rename_root hbase', Edge.rename_root hvalue,
    Edge.rename_root hvalue', if_pos rfl, hfirst, hsecond]

/-- Renaming the ends of `o` leaves the sources of root edges alone. -/
theorem source_rebind_iff {x : Location} {e : Edge} (hx : x.isUnique = true) :
    (Binding.rebind ⟨o, p, q⟩ e).source = .known x ↔ e.source = .known x := by
  obtain ⟨-, -, hsource, hsink, hp, hq⟩ := j.isUnique_eq_false
  unfold Binding.rebind
  rw [Edge.source_rename_iff (Pointer.known_ne hsink hx).symm (Pointer.known_ne hq hx).symm,
    Edge.source_rename_iff (Pointer.known_ne hsource hx).symm (Pointer.known_ne hp hx).symm]

/-- If the merged source is the sink of `o` then it is merged once more. -/
theorem sink_meets_source (hp : p = o.sink) :
    (w.sink narrowing o).Meets (w.source narrowing o) := by
  have hleft : (w.sink narrowing o).Meets o.sink.candidates := j.mayProduce.2.2.merged_left
  rw [← hp, j.candidates_source] at hleft
  exact hleft

/-- Renaming the ends of `o` leaves the sink of another edge with the candidates that were said,
but for a sink that is renamed twice. -/
theorem candidates_rebind (e : Edge) :
    (Binding.rebind ⟨o, p, q⟩ e).sink.candidates = w.sinkOf narrowing o e ∨
      p = o.sink ∧ w.sinkOf narrowing o e = w.source narrowing o ∧
        (Binding.rebind ⟨o, p, q⟩ e).sink.candidates = w.sink narrowing o := by
  have hsink : (Binding.rebind ⟨o, p, q⟩ e).sink =
      if (if e.sink = o.source then p else e.sink) = o.sink then q
      else if e.sink = o.source then p else e.sink := rfl
  rw [hsink]
  unfold sinkOf
  by_cases he : e.sink = o.source
  · rw [if_pos he, if_pos he]
    by_cases hp : p = o.sink
    · rw [if_pos hp, j.candidates_sink]
      exact .inr ⟨hp, rfl, rfl⟩
    · rw [if_neg hp, j.candidates_source]
      exact .inl rfl
  · rw [if_neg he, if_neg he]
    by_cases hs : e.sink = o.sink
    · rw [if_pos hs, if_pos hs, j.candidates_sink]
      exact .inl rfl
    · rw [if_neg hs, if_neg hs]
      exact .inl rfl

theorem meets_source_iff (e : Edge) :
    (Binding.rebind ⟨o, p, q⟩ e).sink.candidates.Meets p.candidates ↔
      (w.sinkOf narrowing o e).Meets (w.source narrowing o) := by
  rw [j.candidates_source]
  obtain hsame | ⟨hp, hof, htwice⟩ := j.candidates_rebind e
  · rw [hsame]
  · rw [hof, htwice]
    exact ⟨fun _ => j.mayProduce.2.1.merged_self, fun _ => j.sink_meets_source hp⟩

theorem meets_sink_iff (e : Edge) :
    (Binding.rebind ⟨o, p, q⟩ e).sink.candidates.Meets q.candidates ↔
      (w.sinkOf narrowing o e).Meets (w.sink narrowing o) := by
  rw [j.candidates_sink]
  obtain hsame | ⟨hp, hof, htwice⟩ := j.candidates_rebind e
  · rw [hsame]
  · rw [hof, htwice]
    obtain ⟨x, hx, hx'⟩ := j.sink_meets_source hp
    exact ⟨fun _ => ⟨x, hx', hx⟩, fun _ => j.mayProduce.2.2.merged_self⟩

/-- The bound edges on a root are the edges on it; `o` itself is on a field. -/
theorem forall_bound_iff {x : Location} {P : Edge → Prop} (hx : x.isUnique = true) :
    (∀ e ∈ (Binding.bound ⟨o, p, q⟩ s).filter fun e => e.source = .known x && e.field = none,
        P e) ↔
      ∀ e, e ∈ s.owed ∨ e ∈ s.produced → e.field = none → e.source = .known x →
        P (Binding.rebind ⟨o, p, q⟩ e) := by
  constructor
  · intro hall e he hfield hsource
    have hne : e ≠ o := by
      rintro rfl
      rw [j.mayProduce.1] at hfield
      cases hfield
    refine hall _ (List.mem_filter.2 ⟨List.mem_map_of_mem (List.mem_append.2 ?_), ?_⟩)
    · exact he.imp_left fun he => List.mem_filter.2 ⟨he, decide_eq_true hne⟩
    · rw [Bool.and_eq_true_iff]
      exact ⟨decide_eq_true ((j.source_rebind_iff hx).2 hsource), decide_eq_true hfield⟩
  · intro hall e he
    obtain ⟨he, hroot⟩ := List.mem_filter.1 he
    obtain ⟨d, hd, rfl⟩ := List.mem_map.1 he
    rw [Bool.and_eq_true_iff] at hroot
    refine hall d ?_ (of_decide_eq_true hroot.2)
      ((j.source_rebind_iff hx).1 (of_decide_eq_true hroot.1))
    exact (List.mem_append.1 hd).imp_left fun hd => (List.mem_filter.1 hd).1

/-- The test of the premises comes out as agreement says. -/
theorem above_premisesAgree :
    Fresh.Above k (Binding.premisesAgree narrowing s (w.rule m b v) ⟨o, p, q⟩) fun ok =>
      ok = true ↔ w.Agrees narrowing s o := by
  have hunique : ([Edge.root (.known w.base) p, .root (.known w.value) q].filter
      (·.source.isUnique)) = [.root (.known w.base) p, .root (.known w.value) q] := by
    refine List.filter_eq_self.2 fun e he => ?_
    obtain rfl | he := List.mem_cons.1 he
    · exact j.onObjects.base
    · obtain rfl := List.mem_singleton.1 he
      exact j.onObjects.value
  unfold Binding.premisesAgree
  rw [j.premises_apply, hunique]
  have htest : ∀ d ∈ [Edge.root (.known w.base) p, .root (.known w.value) q],
      d.sink.isWellFormed = true := by
    intro d hd
    obtain rfl | hd := List.mem_cons.1 hd
    · exact j.source.wellFormed
    · obtain rfl := List.mem_singleton.1 hd
      exact j.sink.wellFormed
  refine (Fresh.above_allM fun d hd => Fresh.above_allM fun e _ =>
    (Pointer.above_merge_isSome (htest d hd)).bind fun a ha => Fresh.above_pure ha).mono
      fun ok hok => hok.trans ?_
  rw [List.forall_mem_cons, List.forall_mem_singleton]
  -- one premise is on the base, the other on the value
  refine (and_congr (j.forall_bound_iff j.onObjects.base)
    (j.forall_bound_iff j.onObjects.value)).trans ?_
  unfold Agrees
  constructor
  · rintro ⟨hbase, hvalue⟩ e he hfield
    exact ⟨fun hsource => (j.meets_source_iff e).1 (hbase e he hfield hsource),
      fun hsource => (j.meets_sink_iff e).1 (hvalue e he hfield hsource)⟩
  · intro hagrees
    exact ⟨fun e he hfield hsource => (j.meets_source_iff e).2 ((hagrees e he hfield).1 hsource),
      fun e he hfield hsource => (j.meets_sink_iff e).2 ((hagrees e he hfield).2 hsource)⟩

end Joins

/-! ## 3. How the rule meets a store -/

/-- What it says of an owed edge that the rule meets it in a certain way. -/
def Judges (w : ObjectWrite) (narrowing : Bool) (s : HeapStore) (o : Edge) : Fit → Prop
  | .apart => ¬ w.MayProduce o
  | .clash => w.MayProduce o ∧ ¬ w.Agrees narrowing s o
  | .fits _ => w.MayProduce o ∧ w.Agrees narrowing s o

theorem above_ofEdge (hw : w.OnObjects) (hp : w.Pointers n k b v) (ho : o.WellFormed)
    (hn : ∀ i, o.source.id? = some i → i < n) :
    Fresh.Above k (Fit.ofEdge narrowing s (w.rule m b v) o) (w.Judges narrowing s o) := by
  unfold Fit.ofEdge
  by_cases hfield : o.field ≠ (w.rule m b v).shown.field
  · rw [if_pos hfield]
    exact Fresh.above_pure fun hmay => hfield hmay.1
  rw [if_neg hfield]
  by_cases hsource : ¬ o.source.candidates.Meets w.bases
  · -- no common candidate for the source
    refine (Pointer.above_merge_isSome hp.baseWellFormed).bind fun a ha => ?_
    rw [hp.bases] at ha
    cases a with
    | some p => exact absurd (ha.1 rfl) hsource
    | none => exact Fresh.above_pure fun hmay => hsource hmay.2.1
  rw [Classical.not_not] at hfield hsource
  refine (Pointer.above_merge_of_meets ho.source hp.baseWellFormed
    (hp.bases.symm ▸ hsource)).bind fun a ha => ?_
  obtain ⟨p, rfl, hpm⟩ := ha
  by_cases hsink : ¬ o.sink.candidates.Meets w.values
  · -- no common candidate for the sink; the source is no root
    have hsites : ∀ x ∈ b.candidates, x.isSite = true := hp.bases.symm ▸ hw.bases
    refine (Pointer.above_merge_isSome hp.valueWellFormed).bind fun a ha => ?_
    rw [hp.values] at ha
    cases a with
    | some q => exact absurd (ha.1 rfl) hsink
    | none =>
      dsimp only
      rw [hpm.isUnique_eq_false hsites]
      exact Fresh.above_pure fun hmay => hsink hmay.2.2
  rw [Classical.not_not] at hsink
  refine (Pointer.above_merge_of_meets ho.sink hp.valueWellFormed
    (hp.values.symm ▸ hsink)).bind fun a ha => ?_
  obtain ⟨q, rfl, hqm⟩ := ha
  have hmay : w.MayProduce o := ⟨hfield, hsource, hsink⟩
  have j : w.Joins narrowing n k o b v p q := ⟨hw, hp, hmay, hn, hpm, hqm⟩
  refine j.above_premisesAgree.bind fun ok hok => Fresh.above_pure ?_
  cases ok with
  | false => exact ⟨hmay, fun hagrees => Bool.noConfusion (hok.2 hagrees)⟩
  | true => exact ⟨hmay, hok.1 rfl⟩

/-- What it says of a store that the rule is classified in a certain way. -/
def Explains (w : ObjectWrite) (narrowing : Bool) (s : HeapStore) : Classification → Prop
  | .consistent cs => w.Allowed narrowing s ∧ cs ≠ []
  | .inconsistent => ¬ w.Allowed narrowing s
  | .inapplicable => w.Allowed narrowing s

theorem above_ofRule (hw : w.OnObjects) (hp : w.Pointers n k b v) (hs : s.WellFormed)
    (hn : ∀ e ∈ s.owed, ∀ i, e.source.id? = some i → i < n) :
    Fresh.Above k (Classification.ofRule narrowing s (w.rule m b v)) (w.Explains narrowing s) := by
  have hunique : (w.rule m b v).shown.source.isUnique = false := by
    obtain ⟨x, hx⟩ := Pointer.exists_mem_candidates hp.baseWellFormed
    exact Pointer.isUnique_eq_false_of_meets ⟨x, hx, hx⟩ (hp.bases.symm ▸ hw.bases)
  have hlog : Classification.isProducedOtherwise narrowing s (w.rule m b v) = pure false := by
    unfold Classification.isProducedOtherwise
    rw [hunique]
    rfl
  unfold Classification.ofRule
  rw [hlog]
  refine (Fresh.above_pure (Q := (· = false)) rfl).bind fun otherwise hfalse => ?_
  rw [hfalse, if_neg Bool.false_ne_true]
  refine (Fresh.above_mapM fun o ho => above_ofEdge (m := m) hw hp (hs o ho) (hn o ho)).bind
    fun fits ⟨hfits, howed⟩ => ?_
  cases hbindings : fits.filterMap Fit.binding? with
  | cons c rest =>
    have hc : c ∈ fits.filterMap Fit.binding? := hbindings ▸ List.mem_cons_self
    obtain ⟨fit, hfit, hc⟩ := List.mem_filterMap.1 hc
    obtain ⟨o, ho, hjudges⟩ := hfits fit hfit
    cases fit with
    | apart | clash => cases hc
    | fits d => exact Fresh.above_pure ⟨.inr ⟨o, ho, hjudges⟩, List.cons_ne_nil _ _⟩
  | nil =>
    -- no edge fits, so one that may be produced clashes
    have hclash : ∀ o ∈ s.owed, w.MayProduce o → ¬ w.Agrees narrowing s o ∧ .clash ∈ fits := by
      intro o ho hmay
      obtain ⟨fit, hfit, hjudges⟩ := howed o ho
      cases fit with
      | apart => exact absurd hmay hjudges
      | clash => exact ⟨hjudges.2, hfit⟩
      | fits c =>
        have hc : c ∈ fits.filterMap Fit.binding? := List.mem_filterMap.2 ⟨_, hfit, rfl⟩
        rw [hbindings] at hc
        cases hc
    refine Fresh.above_pure ?_
    split
    · rename_i hany
      obtain ⟨fit, hfit, hisClash⟩ := List.any_eq_true.1 hany
      cases fit with
      | apart | fits c => cases hisClash
      | clash =>
        obtain ⟨o, ho, hmay, -⟩ := hfits _ hfit
        rintro (hnone | ⟨d, hd, hmay', hagrees⟩)
        · exact hnone o ho hmay
        · exact (hclash d hd hmay').1 hagrees
    · rename_i hany
      refine .inl fun o ho hmay => hany (List.any_eq_true.2 ⟨.clash, (hclash o ho hmay).2, rfl⟩)

end ObjectWrite

/-! ## 4. Visits -/

section

variable {h : HeapGraph} {site : Site} {i : Instruction} {w : ObjectWrite}

theorem Instruction.target?_of_writesHeap (hi : i.writesHeap = true) : i.target? = none := by
  cases i with
  | store | arrayStore => rfl
  | _ => cases hi

theorem Instruction.derive?_of_objectWrite? (hi : i.objectWrite? h site.method = some w) :
    Rule.derive? h site i = Rule.write h site.method w.base w.field w.value ∧
      w.bases = h.ofRoot w.base ∧ w.values = h.ofRoot w.value ∧
      w.base.isUnique = true ∧ w.value.isUnique = true := by
  cases i with
  | store base field value =>
    cases value with
    | slot v =>
      cases hi
      exact ⟨rfl, rfl, rfl, rfl, rfl⟩
    | _ => cases hi
  | arrayStore array index value =>
    cases value with
    | slot v =>
      cases hi
      exact ⟨rfl, rfl, rfl, rfl, rfl⟩
    | _ => cases hi
  | _ => cases hi

theorem ObjectWrite.onObjects (hh : h.RootsHoldSites)
    (hi : i.objectWrite? h site.method = some w) : w.OnObjects := by
  obtain ⟨-, hbases, hvalues, hbase, hvalue⟩ := Instruction.derive?_of_objectWrite? hi
  refine ⟨hbase, hvalue, ?_, ?_⟩
  · rw [hbases]
    exact fun x hx => hh.isSite hx
  · rw [hvalues]
    exact fun x hx => hh.isSite hx

/-- A literal is written without a rule. -/
theorem Rule.derive_of_objectWrite?_eq_none {n : Nat} (hw : i.writesHeap = true)
    (hi : i.objectWrite? h site.method = none) : (Rule.derive h site i n).1 = [] := by
  cases i with
  | store base field value =>
    cases value with
    | slot v => cases hi
    | _ => rfl
  | arrayStore array index value =>
    cases value with
    | slot v => cases hi
    | _ => rfl
  | _ => cases hw

/-- There is a rule exactly if the facts have objects for both sides. -/
theorem ObjectWrite.derive_cases (hi : i.objectWrite? h site.method = some w) (n : Nat) :
    ((Rule.derive h site i n).1 = [] ∧ (w.bases.isEmpty = true ∨ w.values.isEmpty = true)) ∨
      ∃ b v k, Rule.derive h site i n = ([w.rule site.method b v], k) ∧ w.Pointers n k b v := by
  obtain ⟨hderive, hbases, hvalues, -, -⟩ := Instruction.derive?_of_objectWrite? hi
  unfold Rule.derive
  rw [hderive]
  unfold Rule.write
  rw [← hbases, ← hvalues]
  cases hb : w.bases.isEmpty with
  | true =>
    have hnil : Pointer.ofCandidates w.bases = pure none := by
      unfold Pointer.ofCandidates
      rw [List.isEmpty_iff.1 hb]
    rw [hnil]
    exact .inl ⟨rfl, .inl rfl⟩
  | false =>
    obtain ⟨b, l, hbn, hbc, hle, hbid⟩ := Pointer.ofCandidates_spec hb n
    cases hv : w.values.isEmpty with
    | true =>
      have hnil : Pointer.ofCandidates w.values = pure none := by
        unfold Pointer.ofCandidates
        rw [List.isEmpty_iff.1 hv]
      rw [Fresh.bind_apply, Fresh.bind_apply, hbn, hnil]
      exact .inl ⟨rfl, .inr rfl⟩
    | false =>
      obtain ⟨v, k, hvn, hvc, hle', hvid⟩ := Pointer.ofCandidates_spec hv l
      rw [Fresh.bind_apply, Fresh.bind_apply, hbn]
      dsimp only
      rw [Fresh.bind_apply, hvn]
      refine .inr ⟨b, v, k, rfl, hbc, hvc, ?_, ?_, fun i hi => ?_, fun heq => ?_⟩
      · exact Pointer.isWellFormed_of_ofCandidates (congrArg Prod.fst hbn)
      · exact Pointer.isWellFormed_of_ofCandidates (congrArg Prod.fst hvn)
      · obtain ⟨rfl, hlt⟩ := hvid i hi
        exact ⟨hle, hlt⟩
      · -- one number cannot be taken twice
        refine Pointer.eq_known_of_id? fun i hi => ?_
        have hfirst := hbid i (heq ▸ hi)
        have hsecond := hvid i hi
        omega

/-- Without a rule there is no owed edge that the write may produce. -/
theorem ObjectWrite.allowed_of_isEmpty {narrowing : Bool} {s : HeapStore}
    (he : w.bases.isEmpty = true ∨ w.values.isEmpty = true) : w.Allowed narrowing s := by
  have hnone : ∀ {cs ds : Locations}, ds.isEmpty = true → ¬ cs.Meets ds := by
    rintro cs ds hds ⟨x, -, hx⟩
    have hmem : x ∈ ds.toList := hx
    rw [List.isEmpty_iff.1 hds] at hmem
    cases hmem
  refine .inl fun o _ hmay => ?_
  obtain he | he := he
  · exact hnone he hmay.2.1
  · exact hnone he hmay.2.2

/-- A rule for an owed edge is relevant. -/
theorem ObjectWrite.isRuleRelevant {s : HeapStore} {m : MethodId} {n k : Nat} {b v : Pointer}
    {o : Edge} (hp : w.Pointers n k b v) (ho : o ∈ s.owed) (hmay : w.MayProduce o) :
    s.isRuleRelevant (w.rule m b v) = true := by
  obtain ⟨x, hx, hbases⟩ := hmay.2.1
  have hover : b.overlaps o.source = true :=
    Pointer.overlaps_of_meets ⟨x, hp.bases.symm ▸ hbases, hx⟩
  unfold HeapStore.isRuleRelevant
  refine List.any_eq_true.2 ⟨o, List.mem_append_left _ ho, ?_⟩
  refine List.any_eq_true.2 ⟨b, List.mem_cons_self, ?_⟩
  rw [hover]
  rfl

namespace HeapM

variable {f : Frame HeapStore} {m : MethodId} {n k : Nat} {b v : Pointer}

theorem ends_dispatch_nil_of_writesHeap (hi : i.writesHeap = true) :
    Ends (dispatch h site i []) f fun rest g => f.store ∈ g.store :: rest := by
  refine (ends_dispatch_nil (Instruction.target?_of_writesHeap hi)).mono fun rest g hg => ?_
  rw [hg.2]
  exact List.mem_cons_self

/-- A store that is kept is among the cases. -/
theorem ends_commit_append {cases : Survivors HeapStore} {s : HeapStore} :
    Ends (commit refute { cases with live := cases.live ++ [s] }) f fun rest g =>
      s ∈ g.store :: rest := by
  refine (ends_commit (P := (· = s)) ⟨s, ?_, rfl⟩).mono fun rest g hg => ?_
  · exact List.mem_append_right _ List.mem_cons_self
  · obtain ⟨t, ht, rfl⟩ := hg
    exact ht

/-- Applying a well-formed rule in several ways ends, whatever becomes of each. -/
theorem ends_attemptAll_apply {s : HeapStore} {r : Rule} {cs : List Binding} (hs : s.WellFormed)
    (hr : r.Within fun p => p.isWellFormed = true)
    (hcs : ∀ c ∈ cs, c.Within (fun p => p.isWellFormed = true) r) :
    Ends (attemptAll ((cs.map (r, ·)).map fun (r, c) => (apply h site r c, s)) {}) f
      fun _ _ => True := by
  have hbranches : ∀ x ∈ (cs.map (r, ·)).map fun (r, c) => (apply h site r c, s), ∀ w' : Timeless,
      .world ≤ w' → EvolvesOn (fun _ _ => True) (fun _ t => t.WellFormed) IsRefutation w' x.2 x.1
        fun _ _ _ => True := by
    intro x hx w' _
    obtain ⟨y, hy, rfl⟩ := List.mem_map.1 hx
    obtain ⟨c, hc, rfl⟩ := List.mem_map.1 hy
    exact (evolves_apply HeapStore.law_wellFormed hr (hcs c hc)).on hs
  have hlive : ∀ t ∈ ({} : Survivors HeapStore).live, t.WellFormed := fun t ht => by cases ht
  -- only faults go on, and there are none
  have hfault : ∀ b, IsRefutation (.fault b) → False := by
    rintro b ⟨r, hr⟩
    cases hr
  have hall := evolves_attemptAll (P := fun _ (_ : HeapStore) => True) (E := fun _ => False)
    (fun _ _ _ => le_refl _) HeapStore.law_wellFormed.mono hfault hbranches hlive
  exact (hall.halts trivial trivial).ends

variable (hi : i.writesHeap = true) (hw : w.OnObjects) (hp : w.Pointers n k b v)
  (hs : f.store.WellFormed) (hn : ∀ e ∈ f.store.owed, ∀ l, e.source.id? = some l → l < n)
  (hk : k ≤ f.session.nextId)
include hw hp hs hn hk

include hi in
theorem ends_dispatch_of_allowed
    (ha : w.Allowed f.session.options.narrowFromConstraints f.store) :
    Ends (dispatch h site i [w.rule m b v]) f fun rest g => f.store ∈ g.store :: rest := by
  have hexplains : w.Explains f.session.options.narrowFromConstraints f.store
      (Classification.ofRule f.session.options.narrowFromConstraints f.store (w.rule m b v)
        f.session.nextId).1 :=
    (ObjectWrite.above_ofRule hw hp hs hn f.session.nextId hk).2
  unfold dispatch classify
  simp only [ends_bind, ends_options, ends_store, ends_fresh]
  cases hc : (Classification.ofRule f.session.options.narrowFromConstraints f.store
    (w.rule m b v) f.session.nextId).1 with
  | inconsistent =>
    rw [hc] at hexplains
    exact absurd ha hexplains
  | inapplicable =>
    unfold classify
    simp only [ends_pure, List.isEmpty_nil, if_true, ends_bind]
    refine (ends_withoutRule_of_target? (Instruction.target?_of_writesHeap hi)).mono
      fun _ g hg => ?_
    rw [hg]
    exact List.mem_cons_self
  | consistent cs =>
    rw [hc] at hexplains
    have hrule : (w.rule m b v).Within fun p => p.isWellFormed = true := hp.within_rule
    have hwithin : ∀ c ∈ cs, c.Within (fun p => p.isWellFormed = true) (w.rule m b v) := by
      obtain ⟨_, -, -, hbindings⟩ := Classification.draws_ofRule (w := .world)
        Pointer.law_isWellFormed (fun e he => Edge.wellFormed_iff_within.1 (hs e he)) hrule
        f.session trivial
      exact fun c hcs => (hbindings cs hc c hcs).2
    -- the written object is no root, so the store is kept
    have hkeep : (w.rule m b v).shown.source.isUnique = false := by
      obtain ⟨x, hx⟩ := Pointer.exists_mem_candidates hp.baseWellFormed
      exact Pointer.isUnique_eq_false_of_meets ⟨x, hx, hx⟩ (hp.bases.symm ▸ hw.bases)
    have hchosen : (cs.map (w.rule m b v, ·)).isEmpty = false := by
      cases cs with
      | nil => exact absurd rfl hexplains.2
      | cons c rest => rfl
    unfold classify
    simp only [ends_pure, hchosen, Bool.false_eq_true, if_false, ends_bind, ends_store, hkeep,
      Bool.not_false, Bool.or_true, if_true, List.nil_append]
    exact (ends_attemptAll_apply hs hrule hwithin).mono fun cases g _ => ends_commit_append

theorem refutes_dispatch_of_not_allowed
    (ha : ¬ w.Allowed f.session.options.narrowFromConstraints f.store) :
    Refutes (dispatch h site i [w.rule m b v]) f (.noConsistentRule 1) := by
  have hexplains : w.Explains f.session.options.narrowFromConstraints f.store
      (Classification.ofRule f.session.options.narrowFromConstraints f.store (w.rule m b v)
        f.session.nextId).1 :=
    (ObjectWrite.above_ofRule hw hp hs hn f.session.nextId hk).2
  unfold dispatch
  refine Ends.refutes ?_
  unfold classify
  simp only [ends_bind, ends_options, ends_store, ends_fresh]
  cases hc : (Classification.ofRule f.session.options.narrowFromConstraints f.store
    (w.rule m b v) f.session.nextId).1 with
  | inapplicable =>
    rw [hc] at hexplains
    exact absurd hexplains ha
  | consistent cs =>
    rw [hc] at hexplains
    exact absurd hexplains.1 ha
  | inconsistent =>
    unfold classify
    simp only [ends_bind, ends_debug, ends_pure, List.isEmpty_nil, if_true]
    exact (refutes_withoutRule Nat.one_pos).bind

end HeapM

end

namespace HeapM

section

variable {h : HeapGraph} {site : Site} {i : Instruction} {w : ObjectWrite} {f : Frame HeapStore}
  (hi : i.writesHeap = true) (hh : h.RootsHoldSites) (hf : f.store.feasible = true)
  (hs : f.store.WellFormed)
  (hn : ∀ e ∈ f.store.owed, ∀ n, e.source.id? = some n → n < f.session.nextId)
include hi hh hf hs hn

theorem ends_visitDerived_of_allowed
    (ha : ∀ w, i.objectWrite? h site.method = some w →
      w.Allowed f.session.options.narrowFromConstraints f.store) :
    Ends (visitDerived h site i) f fun rest g => f.store ∈ g.store :: rest := by
  have hret : ∀ v, i ≠ .ret v := by
    rintro v rfl
    cases hi
  unfold visitDerived
  rw [ends_bind, ends_fresh, visit_eq_dispatch hret, ends_bind]
  refine ends_requireFeasible hf ?_
  rw [ends_bind, ends_store, Frame.supply_store]
  cases hw : i.objectWrite? h site.method with
  | none =>
    rw [Rule.derive_of_objectWrite?_eq_none hi hw]
    exact ends_dispatch_nil_of_writesHeap hi
  | some w =>
    obtain ⟨hnil, -⟩ | ⟨b, v, k, hderive, hp⟩ :=
      ObjectWrite.derive_cases hw f.session.nextId
    · rw [hnil]
      exact ends_dispatch_nil_of_writesHeap hi
    · rw [hderive]
      simp only [List.filter_cons, List.filter_nil]
      split
      · exact ends_dispatch_of_allowed (f := f.supply k) hi (ObjectWrite.onObjects hh hw) hp hs hn
          (Nat.le_refl k) (ha w hw)
      · exact ends_dispatch_nil_of_writesHeap hi

theorem refutes_visitDerived_of_not_allowed (hw : i.objectWrite? h site.method = some w)
    (ha : ¬ w.Allowed f.session.options.narrowFromConstraints f.store) :
    Refutes (visitDerived h site i) f (.noConsistentRule 1) := by
  have hret : ∀ v, i ≠ .ret v := by
    rintro v rfl
    cases hi
  obtain ⟨-, hempty⟩ | ⟨b, v, k, hderive, hp⟩ := ObjectWrite.derive_cases hw f.session.nextId
  · exact absurd (ObjectWrite.allowed_of_isEmpty hempty) ha
  -- some owed edge may be produced, so the rule is relevant
  have hrelevant : f.store.isRuleRelevant (w.rule site.method b v) = true := by
    refine Classical.byContradiction fun hno => ha (.inl fun o ho hmay => hno ?_)
    exact ObjectWrite.isRuleRelevant hp ho hmay
  unfold visitDerived
  refine Ends.refutes ?_
  rw [ends_fresh, hderive, visit_eq_dispatch hret]
  refine Ends.refutes (ends_requireFeasible hf (Ends.refutes ?_))
  simp only [ends_store, Frame.supply_store, List.filter_cons, hrelevant, if_true, List.filter_nil]
  exact refutes_dispatch_of_not_allowed (f := f.supply k) (ObjectWrite.onObjects hh hw) hp hs hn
    (Nat.le_refl k) ha

end

/-- A visit of a write to objects keeps the store as one of the cases exactly if no owed edge may be
what is written, or one may and the edges on the two locals leave room for it. Otherwise it refutes
the store. -/
theorem visitDerived_objectWrite_iff (h : HeapGraph) (site : Site) (i : Instruction)
    (f : Frame HeapStore) (hi : i.writesHeap = true) (hh : h.RootsHoldSites)
    (hf : f.store.feasible = true) (hs : f.store.WellFormed)
    (hn : ∀ e ∈ f.store.owed, ∀ n, e.source.id? = some n → n < f.session.nextId) :
    ((∃ rest g, visitDerived h site i f = .ok rest g ∧ f.store ∈ g.store :: rest) ↔
      ∀ w, i.objectWrite? h site.method = some w →
        w.Allowed f.session.options.narrowFromConstraints f.store) ∧
    ((∃ g, visitDerived h site i f = .error (.refuted (.noConsistentRule 1)) g) ↔
      ∃ w, i.objectWrite? h site.method = some w ∧
        ¬ w.Allowed f.session.options.narrowFromConstraints f.store) := by
  refine ⟨⟨fun hends w hw => ?_, ends_visitDerived_of_allowed hi hh hf hs hn⟩,
    ⟨fun hrefutes => ?_, ?_⟩⟩
  · refine Classical.byContradiction fun ha => ?_
    have hrefutes := refutes_visitDerived_of_not_allowed hi hh hf hs hn hw ha
    exact hrefutes.not_ends hends
  · refine Classical.byContradiction fun hno => ?_
    have hends := ends_visitDerived_of_allowed hi hh hf hs hn fun w hw =>
      Classical.byContradiction fun ha => hno ⟨w, hw, ha⟩
    exact Refutes.not_ends hrefutes hends
  · rintro ⟨w, hw, ha⟩
    exact refutes_visitDerived_of_not_allowed hi hh hf hs hn hw ha

end HeapM

namespace BoundBase

def site : Site := ⟨⟨1⟩, false⟩

def next : Field := .named "A" "f"

def alloc (n : UInt32) : AllocSite := ⟨n, "A", ⟨1⟩⟩

/-- Local 1 holds one of two objects, and the field of both may hold that of local 2. -/
def graph : HeapGraph where
  roots := [⟨.slot ⟨1⟩ 1, [.site (alloc 1), .site (alloc 2)]⟩, ⟨.slot ⟨1⟩ 2, [.site (alloc 5)]⟩]
  edges := [⟨.site (alloc 1), next, .site (alloc 5)⟩, ⟨.site (alloc 2), next, .site (alloc 5)⟩]

/-- Local 1 is bound to object `n`, and the field of object 1 is owed. -/
def frame (n : UInt32) : Frame HeapStore where
  store := { owed := .ofList [.root (.slot ⟨1⟩ 1) (.site (alloc n)),
    .ofField (.site (alloc 1)) next (.site (alloc 5))] }
  session := {}

def write : ObjectWrite :=
  ⟨.slot ⟨1⟩ 1, next, .slot ⟨1⟩ 2, graph.ofRoot (.slot ⟨1⟩ 1), graph.ofRoot (.slot ⟨1⟩ 2)⟩

theorem rootsHoldSites : graph.RootsHoldSites := by
  intro r hr
  obtain rfl | hr := List.mem_cons.1 hr
  · decide
  · obtain rfl := List.mem_singleton.1 hr
    decide

theorem mem_frame {n : UInt32} {e : Edge} (he : e ∈ (frame n).store.owed) :
    e = .root (.slot ⟨1⟩ 1) (.site (alloc n)) ∨
      e = .ofField (.site (alloc 1)) next (.site (alloc 5)) := by
  obtain he | he := List.mem_cons.1 (SortedSet.mem_ofList.1 he)
  · exact .inl he
  · exact .inr (List.mem_singleton.1 he)

theorem wellFormed_frame (n : UInt32) : (frame n).store.WellFormed := by
  intro e he
  obtain rfl | rfl := mem_frame he
  · exact ⟨rfl, rfl⟩
  · exact ⟨rfl, rfl⟩

theorem numbered_frame (n : UInt32) : ∀ e ∈ (frame n).store.owed, ∀ l, e.source.id? = some l →
    l < (frame n).session.nextId := by
  intro e he l hl
  obtain rfl | rfl := mem_frame he
  · cases hl
  · cases hl

/-- The local is bound to the very object whose field is owed. -/
theorem agrees_frame : write.Agrees true (frame 1).store
    (.ofField (.site (alloc 1)) next (.site (alloc 5))) := by
  intro e he hfield
  obtain he | he := he
  · obtain rfl | rfl := mem_frame he
    · refine ⟨fun _ => ⟨.site (alloc 1), by decide, by decide⟩, fun hsource => ?_⟩
      exact absurd hsource (by decide)
    · cases hfield
  · cases he

theorem allowed_frame : write.Allowed true (frame 1).store := by
  refine .inr ⟨.ofField (.site (alloc 1)) next (.site (alloc 5)), ?_, ⟨rfl, ?_, ?_⟩, agrees_frame⟩
  · exact SortedSet.mem_ofList.2 (List.mem_cons_of_mem _ List.mem_cons_self)
  · exact ⟨.site (alloc 1), by decide, by decide⟩
  · exact ⟨.site (alloc 5), by decide, by decide⟩

/-- With the local bound to the object that is owed a field, the store is kept. -/
theorem visitDerived_objectWrite_bound :
    graph.RootsHoldSites ∧ (frame 1).store.WellFormed ∧
      ∃ rest g, HeapM.visitDerived graph site (.store 1 next (.slot 2)) (frame 1) = .ok rest g ∧
        (frame 1).store ∈ g.store :: rest := by
  refine ⟨rootsHoldSites, wellFormed_frame 1, ?_⟩
  refine (HeapM.visitDerived_objectWrite_iff graph site (.store 1 next (.slot 2)) (frame 1) rfl
    rootsHoldSites rfl (wellFormed_frame 1) (numbered_frame 1)).1.2 fun w hw => ?_
  obtain rfl : write = w := Option.some.inj hw
  exact allowed_frame

/-- With the local bound to the other object, the write is about that one and cannot have made the
owed edge. The store is refuted all the same. -/
theorem visitDerived_objectWrite_other :
    ∃ start later last,
      HeapM.addEdge (.ofField (.site (alloc 1)) next (.site (alloc 5))) ⟨{}, {}⟩ = .ok [] start ∧
      HeapM.addEdge (.root (.slot ⟨1⟩ 1) (.site (alloc 2))) start = .ok [] later ∧
      later.store = (frame 2).store ∧ later.store.feasible = true ∧
      HeapM.visitDerived graph site (.store 1 next (.slot 2)) later =
        .error (.refuted (.noConsistentRule 1)) last :=
  ⟨_, _, _, rfl, rfl, by decide, rfl, rfl⟩

end BoundBase

end Refuter
