import Refuter.Proofs.Path.Branches
import Refuter.Proofs.Path.FieldWrite

/-!
# A goal on the way back through a trace

Assignments, casts and allocations replace the two sides of a goal by what the locals stand for
before them. Each side stays a constant, a read through a local, or the site of an object that was
created on the way, and what it stands for keeps the value that it has at the end. Which local it is
read through depends on the instructions alone.
-/

namespace Refuter

open StoreM

/-! ## 1. Traces -/

/-- Assignments, casts and allocations of objects. -/
def Instruction.movesOrCreates : Instruction → Bool
  | assign .. | checkCast .. | new .. => true
  | _ => false

/-- The local that holds before the instruction what `x` holds after it, if there is one. -/
def Instruction.source? (site : Site) : Instruction → Location → Option Location
  | assign d v, x | checkCast d v, x =>
    if x = .slot site.method d then v.local?.map (.slot site.method) else some x
  | new d _, x => if x = .slot site.method d then none else some x
  | _, x => some x

namespace State

/-- Objects that were not live before have zero in every field. -/
def Defaults (σ τ : State) : Prop :=
  ∀ r b, σ.heap r = none → τ.heap r = some b → ∀ f, b.field f = .int 0

/-- The instructions of one method take the first state to the second, one after the other. -/
inductive Traces (site : Site) : List Instruction → State → State → Prop
  | nil (σ : State) : Traces site [] σ σ
  | cons {i : Instruction} {rest : List Instruction} {σ τ σ' : State}
      (hi : i.movesOrCreates = true) (h : σ.Executes site i τ) (hnew : σ.Defaults τ)
      (hrest : Traces site rest τ σ') : Traces site (i :: rest) σ σ'

/-- Objects stay as they are. -/
def Extends (σ τ : State) : Prop := ∀ r b, σ.heap r = some b → τ.heap r = some b

theorem Extends.heap_eq_none {σ τ : State} {r : Ref} (h : σ.Extends τ) (hr : τ.heap r = none) :
    σ.heap r = none := by
  cases hb : σ.heap r with
  | none => rfl
  | some b =>
    rw [h r b hb] at hr
    cases hr

/-- Chains from a live value read the same before and after. -/
theorem Extends.follow_eq {σ τ : State} (h : σ.Extends τ) {x : Value}
    (hx : ∀ r, x = .ref r → (σ.heap r).isSome) (fields : List Field) :
    τ.follow x fields = σ.follow x fields := by
  induction fields generalizing x with
  | nil => cases x <;> rfl
  | cons f rest ih =>
    cases x with
    | int => rfl
    | ref r =>
      obtain ⟨b, hb⟩ := Option.isSome_iff_exists.1 (hx r rfl)
      have hnext : ∀ q, b.field f = .ref q → (σ.heap q).isSome := fun q hq =>
        σ.field_live r b f q hb (.inl hq)
      rw [follow_cons, follow_cons, hb, h r b hb]
      exact ih hnext

theorem Assigns.extends {σ τ : State} {x : Location} {v : Value} (h : σ.Assigns τ x v) :
    σ.Extends τ := by
  intro r b hb
  rw [h.1]
  exact hb

theorem Allocates.extends {σ τ : State} {x : Location} {s : AllocSite} (h : σ.Allocates τ x s) :
    σ.Extends τ := by
  obtain ⟨r, c, hfree, -, -, hheap, -⟩ := h
  intro q b hb
  have hne : q ≠ r := by
    rintro rfl
    rw [hfree] at hb
    cases hb
  rw [hheap q, if_neg hne]
  exact hb

theorem Assigns.root_of_ne {σ τ : State} {x y : Location} {v : Value} (h : σ.Assigns τ x v)
    (hy : y ≠ x) : τ.root y = σ.root y := by
  rw [h.2, if_neg hy]

theorem Allocates.root_of_ne {σ τ : State} {x y : Location} {s : AllocSite}
    (h : σ.Allocates τ x s) (hy : y ≠ x) : τ.root y = σ.root y := by
  obtain ⟨r, b, -, -, -, -, hroot⟩ := h
  rw [hroot, if_neg hy]

theorem Executes.extends {site : Site} {i : Instruction} {σ τ : State}
    (hi : i.movesOrCreates = true) (h : σ.Executes site i τ) : σ.Extends τ := by
  cases i with
  | assign | checkCast => exact Assigns.extends h
  | new => exact Allocates.extends h
  | _ => cases hi

theorem Traces.extends {site : Site} {trace : List Instruction} {σ σ' : State}
    (h : Traces site trace σ σ') : σ.Extends σ' := by
  induction h with
  | nil => exact fun _ _ hb => hb
  | cons hi h _ _ ih => exact fun r b hb => ih r b (h.extends hi r b hb)

end State

/-! ## 2. What stands for a side of the goal -/

/-- The fields that a term reads. -/
def Term.chain : Term → List Field
  | .var v => v.fields
  | _ => []

/-- The local that a term is read through. -/
def Term.local? : Term → Option Location
  | .var ⟨.known (.slot m l), _⟩ => some (.slot m l)
  | _ => none

/-- The local that a side of the goal is read through before part of a trace, if it is still a read
there. -/
def Term.origin? (site : Site) (t : Term) : List Instruction → Option Location
  | [] => t.local?
  | i :: rest => (t.origin? site rest).bind (i.source? site)

/-- A term that stands, before part of a trace that ends in `σ'`, for a side of the goal whose value
is `x` in the end: the number, a read that has that value by now, or the site of an object that is
not there yet. -/
inductive Term.Stands (σ σ' : State) (chain : List Field) (x : Value) : Term → Prop
  | const {k : Int64} (hx : x = .int k.toInt) : Stands σ σ' chain x (.const k)
  | read {m : MethodId} {l : Local} (hx : σ.follow (σ.root (.slot m l)) chain = some x) :
      Stands σ σ' chain x (.var ⟨.slot m l, chain⟩)
  | created {r : Ref} {b : Object} (hx : x = .ref r) (hfree : σ.heap r = none)
      (hb : σ'.heap r = some b) : Stands σ σ' chain x (.var ⟨.site b.site, []⟩)

/-- A term on its own or a bare pointer, of the kind of the value that it stands for. -/
def Term.Fits (x : Value) : Term → Prop
  | .const k => x = .int k.toInt
  | .var v => v.isSite = true → ∃ r, x = .ref r
  | .bin .. => False

/-- The only path of such a term is the term. -/
theorem Term.Fits.eq_var {t : Term} {x : Value} {v : AccessPath} (h : t.Fits x)
    (hv : v ∈ t.paths) : t = .var v := by
  cases t with
  | const => cases hv
  | var w => rw [List.mem_singleton.1 hv]
  | bin => cases h

theorem AccessPath.isSite_slot (m : MethodId) (l : Local) (fields : List Field) :
    (AccessPath.mk (.slot m l) fields).isSite = false := by
  simp [AccessPath.isSite, Pointer.slot, Pointer.isSite, Pointer.candidates, SortedSet.singleton,
    Location.isSite]

/-- What replaces `t`, or `t` itself, has the property. -/
def Replacement.Yields (L : Term → Prop) (t : Term) (r : Replacement Term) : Prop :=
  r ≠ .unsupported ∧ L (r.getD t)

theorem Replacement.yields_unchanged {L : Term → Prop} {t : Term} (h : L t) :
    (unchanged : Replacement Term).Yields L t := ⟨by simp, h⟩

theorem Replacement.yields_changed {L : Term → Prop} {t u : Term} (h : L u) :
    (changed u).Yields L t := ⟨by simp, h⟩

namespace Term

theorem mentions_of_local? {t : Term} {m : MethodId} {d : Local}
    (h : t.local? = some (.slot m d)) : t.mentions (.slot m d) = true := by
  unfold local? at h
  split at h
  · cases h
    simp [mentions, paths, Pointer.slot]
  · cases h

/-- An instruction only moves the local that it writes. -/
theorem local?_bind_of_not_mentions {t : Term} {m : MethodId} {d : Local}
    {source? : Location → Option Location} (hsource : ∀ y, y ≠ .slot m d → source? y = some y)
    (h : t.mentions (.slot m d) = false) : t.local?.bind source? = t.local? := by
  cases hx : t.local? with
  | none => rfl
  | some x =>
    refine hsource x fun heq => ?_
    rw [mentions_of_local? (heq ▸ hx)] at h
    cases h

theorem substitute_self (insert : Term) (p : Pointer) (fields : List Field) :
    substitute insert ⟨p, []⟩ (var ⟨p, fields⟩) = insert.extendBare fields := by
  simp [substitute, replacePaths, AccessPath.restAfter?, fieldsAfter?]

theorem substitute_of_not_mentions {insert t : Term} {p : Pointer} (h : t.mentions p = false) :
    substitute insert ⟨p, []⟩ t = .unchanged := by
  refine replacePaths_eq_unchanged_iff.2 fun v hv => ?_
  have hne : v.base ≠ p := by
    intro heq
    rw [mentions, List.any_eq_false] at h
    exact h v hv (decide_eq_true heq)
  simp [AccessPath.restAfter?, hne]

namespace Stands

variable {σ τ σ' : State} {chain : List Field} {x : Value} {t : Term} {m : MethodId} {d : Local}

theorem fits (h : t.Stands σ σ' chain x) : t.Fits x := by
  cases h with
  | const hx => exact hx
  | read =>
    intro hsite
    rw [AccessPath.isSite_slot] at hsite
    cases hsite
  | created hx => exact fun _ => ⟨_, hx⟩

/-- Only a read through a local mentions it. -/
theorem eq_of_mentions (h : t.Stands σ σ' chain x) (hm : t.mentions (.slot m d) = true) :
    t = .var ⟨.slot m d, chain⟩ ∧ σ.follow (σ.root (.slot m d)) chain = some x := by
  cases h with
  | const => cases hm
  | @read n l hx =>
    have hbase : Pointer.slot n l = .slot m d := by simpa [mentions, paths] using hm
    cases hbase
    exact ⟨rfl, hx⟩
  | created => simp [mentions, paths, Pointer.slot, Pointer.site] at hm

/-- A term that does not mention the local which a step writes stands for the same before it, and is
read through the same local. -/
theorem keep {source? : Location → Option Location} (h : t.Stands τ σ' chain x)
    (hext : σ.Extends τ) (hroot : ∀ {y}, y ≠ .slot m d → τ.root y = σ.root y)
    (hsource : ∀ y, y ≠ .slot m d → source? y = some y) (hne : t.mentions (.slot m d) = false) :
    t.Stands σ σ' chain x ∧ t.local? = t.local?.bind source? := by
  refine ⟨?_, (local?_bind_of_not_mentions hsource hne).symm⟩
  cases h with
  | const hx => exact .const hx
  | @read n l hx =>
    have hslot : Location.slot n l ≠ .slot m d := by
      intro heq
      simp [mentions, paths, Pointer.slot, heq] at hne
    rw [hroot hslot, hext.follow_eq (σ.root_live _)] at hx
    exact .read hx
  | created hx hfree hb => exact .created hx (hext.heap_eq_none hfree) hb

/-- The assigned operand, put for the local, stands for the same before the assignment. -/
theorem yields_assign {site : Site} {v : Operand} (h : t.Stands τ σ' chain x)
    (hassign : σ.Assigns τ (.slot site.method d) (σ.operand site.method v)) :
    (substitute (v.term site) ⟨.slot site.method d, []⟩ t).Yields (fun u => u.Stands σ σ' chain x ∧
      u.local? = t.local?.bind ((Instruction.assign d v).source? site)) t := by
  by_cases hm : t.mentions (.slot site.method d) = true
  · obtain ⟨rfl, hx⟩ := h.eq_of_mentions hm
    have hsource : (Instruction.assign d v).source? site (.slot site.method d) =
        v.local?.map (.slot site.method) := if_pos rfl
    rw [hassign.2, if_pos rfl] at hx
    rw [substitute_self]
    cases v with
    | slot l =>
      have hread : (var ⟨.slot site.method l, chain⟩).Stands σ σ' chain x := by
        refine .read ?_
        rw [← hassign.extends.follow_eq (σ.root_live _)]
        exact hx
      cases chain <;> exact Replacement.yields_changed ⟨hread, hsource.symm⟩
    | const | null =>
      -- nothing is read through a number
      cases chain with
      | nil =>
        exact Replacement.yields_changed ⟨.const (Option.some.inj hx).symm, hsource.symm⟩
      | cons => cases hx
  · have hne : t.mentions (.slot site.method d) = false := by simpa using hm
    rw [substitute_of_not_mentions hne]
    exact Replacement.yields_unchanged
      (h.keep hassign.extends hassign.root_of_ne (fun _ hy => if_neg hy) hne)

end Stands

/-- The first fields that are read through `p` are among the given ones. -/
def ReadsOnly (p : Pointer) (fields : List Field) (t : Term) : Prop :=
  ∀ f rest, t = var ⟨p, f :: rest⟩ → f ∈ fields

theorem ReadsOnly.of_not_mentions {p : Pointer} {t : Term} (h : t.mentions p = false)
    (fields : List Field) : t.ReadsOnly p fields := by
  rintro f rest rfl
  simp [mentions, paths] at h

namespace Stands

variable {σ τ σ' : State} {chain fields : List Field} {x : Value} {t : Term} {m : MethodId}
  {d : Local} {s : AllocSite} {f : Field}

/-- The fields of a new object read zero. -/
theorem yields_default {source? : Location → Option Location} (h : t.Stands τ σ' chain x)
    (hreads : t.ReadsOnly (.slot m d) (f :: fields)) (hnew : σ.Allocates τ (.slot m d) s)
    (hzero : σ.Defaults τ) (hsource : source? (.slot m d) = none) :
    (spliceRead (.const 0) (.slot m d) f t).Yields (fun u => (u.Stands τ σ' chain x ∧
      u.local?.bind source? = t.local?.bind source?) ∧ u.ReadsOnly (.slot m d) fields) t := by
  by_cases hm : t.mentions (.slot m d) = true
  · obtain ⟨rfl, hx⟩ := h.eq_of_mentions hm
    cases chain with
    | nil =>
      refine Replacement.yields_unchanged ⟨⟨h, rfl⟩, fun g rest heq => ?_⟩
      cases heq
    | cons g rest =>
      obtain ⟨r, b, hfree, -, -, hheap, hroot⟩ := hnew
      have hb : τ.heap r = some b := by rw [hheap r, if_pos rfl]
      rw [hroot, if_pos rfl, State.follow_cons, hb] at hx
      have hx : τ.follow (b.field g) rest = some x := hx
      rw [hzero r b hfree hb g] at hx
      cases rest with
      | cons => cases hx
      | nil =>
        have hconst : (Term.const 0).Stands τ σ' [g] x := .const (Option.some.inj hx).symm
        by_cases hg : g = f
        · have hsplice : spliceRead (.const 0) (.slot m d) f (var ⟨.slot m d, [g]⟩) =
              .changed (.const 0) := by simp [spliceRead, replacePaths, extend, hg]
          rw [hsplice]
          refine Replacement.yields_changed ⟨⟨hconst, hsource.symm⟩, fun g rest heq => ?_⟩
          cases heq
        · have hsplice : spliceRead (.const 0) (.slot m d) f (var ⟨.slot m d, [g]⟩) =
              .unchanged := by simp [spliceRead, replacePaths, hg]
          rw [hsplice]
          refine Replacement.yields_unchanged ⟨⟨h, rfl⟩, fun g' rest heq => ?_⟩
          exact (List.mem_cons.1 (hreads g' rest heq)).resolve_left (by cases heq; exact hg)
  · have hne : t.mentions (.slot m d) = false := by simpa using hm
    have hsplice : spliceRead (.const 0) (.slot m d) f t = .unchanged := by
      refine replacePaths_eq_unchanged_iff.2 fun v hv => ?_
      have hbase : v.base ≠ .slot m d := by
        intro heq
        rw [mentions, List.any_eq_false] at hne
        exact hne v hv (decide_eq_true heq)
      exact AccessPath.written_of_base_ne hbase
    rw [hsplice]
    exact Replacement.yields_unchanged ⟨⟨h, rfl⟩, .of_not_mentions hne fields⟩

/-- The site, put for the local, stands for the object that was not there before. -/
theorem yields_create {site : Site} (h : t.Stands τ σ' chain x)
    (hreads : t.ReadsOnly (.slot site.method d) [])
    (hnew : σ.Allocates τ (.slot site.method d) s) (hrest : τ.Extends σ') :
    (substitute (.bare (.site s)) ⟨.slot site.method d, []⟩ t).Yields
      (fun u => u.Stands σ σ' chain x ∧
        u.local? = t.local?.bind ((Instruction.new d s).source? site)) t := by
  by_cases hm : t.mentions (.slot site.method d) = true
  · obtain ⟨rfl, hx⟩ := h.eq_of_mentions hm
    cases chain with
    | cons g rest => cases hreads g rest rfl
    | nil =>
      obtain ⟨r, b, hfree, rfl, -, hheap, hroot⟩ := hnew
      have hb : τ.heap r = some b := by rw [hheap r, if_pos rfl]
      have hsource : (Instruction.new d b.site).source? site (.slot site.method d) = none :=
        if_pos rfl
      rw [hroot, if_pos rfl] at hx
      rw [substitute_self]
      exact Replacement.yields_changed
        ⟨.created (Option.some.inj hx).symm hfree (hrest r b hb), hsource.symm⟩
  · have hne : t.mentions (.slot site.method d) = false := by simpa using hm
    rw [substitute_of_not_mentions hne]
    exact Replacement.yields_unchanged
      (h.keep hnew.extends hnew.root_of_ne (fun _ hy => if_neg hy) hne)

end Stands

end Term

/-! ## 3. Stores with one constraint -/

/-- A side of the goal is a number, and not read through a local. -/
def SideIsNumber (a b : Value) (o p : Option Location) : Prop :=
  (∃ n, a = .int n) ∧ o = none ∨ (∃ n, b = .int n) ∧ p = none

/-- The goal is the only constraint, with terms for its sides, or it was decided because a side of
it is a number. The locals that the sides are read through are `o` and `p`. -/
structure PathStore.Tracks (goal : Constraint) (a b : Value) (o p : Option Location)
    (L R : Term → Prop) (s : PathStore) : Prop where
  feasible : s.feasible = true
  constraints : s.constraints = [] ∧ SideIsNumber a b o p ∨
    ∃ l r, s.constraints = [{ goal with lhs := l, rhs := r }] ∧ L l ∧ R r

section

variable {goal : Constraint} {a b : Value} {o p o' p' : Option Location} {L R L' R' : Term → Prop}

theorem SideIsNumber.bind (h : SideIsNumber a b o p) (source? : Location → Option Location) :
    SideIsNumber a b (o.bind source?) (p.bind source?) := by
  obtain ⟨ha, rfl⟩ | ⟨hb, rfl⟩ := h
  · exact .inl ⟨ha, rfl⟩
  · exact .inr ⟨hb, rfl⟩

theorem PathStore.Tracks.mono {s : PathStore} (h : s.Tracks goal a b o p L R)
    (hnumber : SideIsNumber a b o p → SideIsNumber a b o' p')
    (hL : ∀ c ∈ s.constraints, L c.lhs → L' c.lhs) (hR : ∀ c ∈ s.constraints, R c.rhs → R' c.rhs) :
    s.Tracks goal a b o' p' L' R' := by
  refine ⟨h.feasible, h.constraints.imp (And.imp_right hnumber) ?_⟩
  rintro ⟨l, r, hs, hl, hr⟩
  rw [hs] at hL hR
  exact ⟨l, r, hs, hL _ List.mem_cons_self hl, hR _ List.mem_cons_self hr⟩

/-- A number differs from an object, so a comparison of the two is true only if it says so. -/
theorem CmpOp.eq_ne_of_truth {op : CmpOp} {n : Int} {r : Ref}
    (h : op.truth (.int n) (.ref r) = some true ∨ op.truth (.ref r) (.int n) = some true) :
    op = .ne := by
  cases op <;> simp [CmpOp.truth] at h ⊢

/-- A true comparison is kept as it is, or decided true because a side of it is a number. -/
theorem Constraint.settle_of_fits {c : Constraint} (hl : c.lhs.Fits a) (hr : c.rhs.Fits b)
    (htruth : c.op.truth a b = some true) :
    c.settle = .changed c ∨
      c.settle = .resolved true ∧ ((∃ k, c.lhs = .const k) ∨ ∃ k, c.rhs = .const k) := by
  obtain ⟨l, op, r, id⟩ := c
  cases l with
  | bin => cases hl
  | const j =>
    obtain rfl : a = .int j.toInt := hl
    cases r with
    | bin => cases hr
    | const k =>
      obtain rfl : b = .int k.toInt := hr
      have happly : op.apply j.toInt k.toInt = true := by simpa [CmpOp.truth_int] using htruth
      refine .inr ⟨?_, .inl ⟨_, rfl⟩⟩
      simp [settle, isConstant, evaluate, Term.isConstant, Term.evaluate, happly]
    | var w =>
      by_cases hw : w.isSite = true
      · obtain ⟨q, rfl⟩ := hr hw
        obtain rfl := CmpOp.eq_ne_of_truth (.inl htruth)
        refine .inr ⟨?_, .inl ⟨_, rfl⟩⟩
        simp [settle, isConstant, evaluate, isLiteralTest, Term.isConstant, Term.isSite, hw]
      · exact .inl (by simp [settle, isConstant, isLiteralTest, Term.isConstant, Term.isSite, hw])
  | var v =>
    cases r with
    | bin => cases hr
    | const k =>
      obtain rfl : b = .int k.toInt := hr
      by_cases hv : v.isSite = true
      · obtain ⟨q, rfl⟩ := hl hv
        obtain rfl := CmpOp.eq_ne_of_truth (.inr htruth)
        refine .inr ⟨?_, .inr ⟨_, rfl⟩⟩
        simp [settle, isConstant, evaluate, isLiteralTest, Term.isConstant, Term.isSite, hv]
      · exact .inl (by simp [settle, isConstant, isLiteralTest, Term.isConstant, Term.isSite, hv])
    | var w => exact .inl (by simp [settle, isConstant, isLiteralTest, Term.isConstant])

theorem Constraint.replace_of_supported {change : Term → Replacement Term} {c : Constraint}
    (hl : change c.lhs ≠ .unsupported) (hr : change c.rhs ≠ .unsupported) :
    c.replace change = .unchanged ∧
        c = { c with lhs := (change c.lhs).getD c.lhs, rhs := (change c.rhs).getD c.rhs } ∨
      c.replace change =
        settle { c with lhs := (change c.lhs).getD c.lhs, rhs := (change c.rhs).getD c.rhs } := by
  unfold replace
  generalize change c.lhs = l at hl
  generalize change c.rhs = r at hr
  cases l <;> cases r <;> simp_all [Replacement.both, Replacement.getD]

/-- Replacing terms that stand for the sides keeps track of the goal. -/
theorem PathM.ends_replace_tracks {f : Frame PathStore} {change : Term → Replacement Term}
    (hs : f.store.Tracks goal a b o p L R) (htruth : goal.op.truth a b = some true)
    (hnumber : SideIsNumber a b o p → SideIsNumber a b o' p')
    (hL : ∀ t, L t → (change t).Yields L' t) (hR : ∀ t, R t → (change t).Yields R' t)
    (hfitL : ∀ t, L' t → t.Fits a) (hfitR : ∀ t, R' t → t.Fits b)
    (hnoneL : ∀ k, L' (.const k) → o' = none) (hnoneR : ∀ k, R' (.const k) → p' = none) :
    Ends (changeAll (Constraint.replace change)) f fun _ g =>
      g.store.Tracks goal a b o' p' L' R' := by
  obtain ⟨hf, ⟨hnone, hdecided⟩ | ⟨l, r, hsome, hl, hr⟩⟩ := hs
  · refine (ends_changeAll_of_unchanged hf fun c hc => ?_).mono fun _ g hg => ?_
    · rw [hnone] at hc
      cases hc
    · rw [hg]
      exact ⟨hf, .inl ⟨hnone, hnumber hdecided⟩⟩
  · obtain ⟨hlne, hl⟩ := hL l hl
    obtain ⟨hrne, hr⟩ := hR r hr
    -- the goal with its sides replaced, whether or not anything changed in it
    let d : Constraint := { goal with lhs := (change l).getD l, rhs := (change r).getD r }
    obtain ⟨hreplace, hsame⟩ | hreplace := Constraint.replace_of_supported
      (c := { goal with lhs := l, rhs := r }) hlne hrne
    · have hkept : { goal with lhs := l, rhs := r } = d := hsame
      refine (ends_changeAll_single hf hsome (by rw [hreplace]; rfl)).mono fun _ g hg => ?_
      rw [hreplace] at hg
      exact ⟨hg.1, .inr ⟨_, _, hg.2.trans (congrArg ([·]) hkept), hl, hr⟩⟩
    · obtain hsettle | ⟨hsettle, hconst⟩ :=
        Constraint.settle_of_fits (c := d) (hfitL _ hl) (hfitR _ hr) htruth
      · have hchange := hreplace.trans hsettle
        refine (ends_changeAll_single hf hsome (by rw [hchange]; rfl)).mono fun _ g hg => ?_
        rw [hchange] at hg
        exact ⟨hg.1, .inr ⟨_, _, hg.2, hl, hr⟩⟩
      · have hchange := hreplace.trans hsettle
        refine (ends_changeAll_single hf hsome (by rw [hchange]; rfl)).mono fun _ g hg => ?_
        rw [hchange] at hg
        refine ⟨hg.1, .inl ⟨hg.2, ?_⟩⟩
        obtain ⟨k, hk⟩ | ⟨k, hk⟩ := hconst
        · have hl : L' (.const k) := hk ▸ hl
          exact .inl ⟨⟨_, hfitL _ hl⟩, hnoneL k hl⟩
        · have hr : R' (.const k) := hk ▸ hr
          exact .inr ⟨⟨_, hfitR _ hr⟩, hnoneR k hr⟩

end

/-! ## 4. Visits -/

namespace PathM

variable {goal : Constraint} {a b : Value} {o p : Option Location} {σ τ σ' : State} {site : Site}
  {d : Local} {chainL chainR : List Field} {f : Frame PathStore}

/-- The store tracks the goal at the state `σ` of a trace that ends in `σ'`. -/
abbrev TracksAt (goal : Constraint) (a b : Value) (σ' σ : State) (o p : Option Location) :
    PathStore → Prop :=
  PathStore.Tracks goal a b o p
    (fun t => t.Stands σ σ' goal.lhs.chain a ∧ t.local? = o)
    (fun t => t.Stands σ σ' goal.rhs.chain b ∧ t.local? = p)

theorem mentions_of_not_isRelevant {s : PathStore} {p : Pointer} (h : s.isRelevant p = false)
    {c : Constraint} (hc : c ∈ s.constraints) :
    c.lhs.mentions p = false ∧ c.rhs.mentions p = false := by
  rw [PathStore.isRelevant_eq_any] at h
  have hmentions := List.any_eq_false.1 h c hc
  simpa [Constraint.mentions] using hmentions

/-- A step that writes a local does not matter to a goal that does not mention it. -/
theorem TracksAt.keep {s : PathStore} {source? : Location → Option Location}
    (hs : TracksAt goal a b σ' τ o p s) (hext : σ.Extends τ)
    (hroot : ∀ {y}, y ≠ .slot site.method d → τ.root y = σ.root y)
    (hsource : ∀ y, y ≠ .slot site.method d → source? y = some y)
    (hrel : s.isRelevant (.slot site.method d) = false) :
    TracksAt goal a b σ' σ (o.bind source?) (p.bind source?) s := by
  refine hs.mono (fun h => h.bind source?) (fun c hc hl => ?_) fun c hc hr => ?_
  · exact hl.2 ▸ hl.1.keep hext hroot hsource (mentions_of_not_isRelevant hrel hc).1
  · exact hr.2 ▸ hr.1.keep hext hroot hsource (mentions_of_not_isRelevant hrel hc).2

theorem ends_assign_tracks {v : Operand} (hs : TracksAt goal a b σ' τ o p f.store)
    (htruth : goal.op.truth a b = some true)
    (hassign : σ.Assigns τ (.slot site.method d) (σ.operand site.method v)) :
    Ends (whenRelevant (.slot site.method d)
      (substitute (v.term site) ⟨.slot site.method d, []⟩)) f fun _ g =>
        TracksAt goal a b σ' σ (o.bind ((Instruction.assign d v).source? site))
          (p.bind ((Instruction.assign d v).source? site)) g.store := by
  unfold whenRelevant
  rw [ends_bind, ends_store]
  split
  · rw [ends_bind]
    refine (ends_replace_tracks hs htruth (fun h => h.bind _) ?_ ?_ (fun _ hl => hl.1.fits)
      (fun _ hr => hr.1.fits) (fun _ hl => hl.2.symm) fun _ hr => hr.2.symm).mono
        fun _ g hg => ends_pure.2 hg
    · rintro t ⟨hl, rfl⟩
      exact hl.yields_assign hassign
    · rintro t ⟨hr, rfl⟩
      exact hr.yields_assign hassign
  · rename_i hrel
    exact ends_pure.2
      (hs.keep hassign.extends hassign.root_of_ne (fun _ hy => if_neg hy) (by simpa using hrel))

/-- Reads through a new object are replaced one field after the other. They go back to no local. -/
theorem ends_spliceReads_tracks {s : AllocSite} {fields : List Field}
    {source? : Location → Option Location}
    (hs : f.store.Tracks goal a b o p
      (fun t => (t.Stands τ σ' chainL a ∧ t.local?.bind source? = o) ∧
        t.ReadsOnly (.slot site.method d) fields)
      (fun t => (t.Stands τ σ' chainR b ∧ t.local?.bind source? = p) ∧
        t.ReadsOnly (.slot site.method d) fields))
    (htruth : goal.op.truth a b = some true) (hnew : σ.Allocates τ (.slot site.method d) s)
    (hzero : σ.Defaults τ) (hsource : source? (.slot site.method d) = none) :
    Ends (spliceReads (.const 0) (.slot site.method d) fields) f fun _ g =>
      g.store.Tracks goal a b o p
        (fun t => (t.Stands τ σ' chainL a ∧ t.local?.bind source? = o) ∧
          t.ReadsOnly (.slot site.method d) [])
        (fun t => (t.Stands τ σ' chainR b ∧ t.local?.bind source? = p) ∧
          t.ReadsOnly (.slot site.method d) []) := by
  induction fields generalizing f with
  | nil => exact ends_pure.2 hs
  | cons g rest ih =>
    unfold spliceReads
    rw [ends_bind]
    refine (ends_replace_tracks hs htruth id ?_ ?_ (fun _ hl => hl.1.1.fits)
      (fun _ hr => hr.1.1.fits) (fun _ hl => hl.1.2.symm) fun _ hr => hr.1.2.symm).mono
        fun _ g hg => ih hg
    · rintro t ⟨⟨hl, rfl⟩, hreads⟩
      exact hl.yields_default hreads hnew hzero hsource
    · rintro t ⟨⟨hr, rfl⟩, hreads⟩
      exact hr.yields_default hreads hnew hzero hsource

theorem readsOnly_fieldsReadThrough {s : PathStore} {p : Pointer} {c : Constraint} {t : Term}
    (hc : c ∈ s.constraints) (ht : t = c.lhs ∨ t = c.rhs) :
    t.ReadsOnly p (s.fieldsReadThrough p).toList := by
  rintro g rest rfl
  have hpath : ⟨p, g :: rest⟩ ∈ c.paths := by
    obtain ht | ht := ht
    · exact List.mem_append_left _ (ht ▸ List.mem_cons_self)
    · exact List.mem_append_right _ (ht ▸ List.mem_cons_self)
  refine SortedSet.mem_ofList.2 (List.mem_filterMap.2 ⟨⟨p, g :: rest⟩, ?_, rfl⟩)
  exact List.mem_filter.2 ⟨PathStore.mem_paths hc hpath, by simp⟩

theorem ends_allocate_tracks {s : AllocSite} (hs : TracksAt goal a b σ' τ o p f.store)
    (htruth : goal.op.truth a b = some true) (hnew : σ.Allocates τ (.slot site.method d) s)
    (hzero : σ.Defaults τ) (hrest : τ.Extends σ') :
    Ends (allocate (.slot site.method d) (.site s) none) f fun _ g =>
      TracksAt goal a b σ' σ (o.bind ((Instruction.new d s).source? site))
        (p.bind ((Instruction.new d s).source? site)) g.store := by
  unfold allocate
  rw [ends_bind, ends_store]
  split
  · rename_i hrel
    exact ends_pure.2
      (hs.keep hnew.extends hnew.root_of_ne (fun _ hy => if_neg hy) (by simpa using hrel))
  · -- the fields of the new object are replaced first, still at the state that has it
    let fields := (f.store.fieldsReadThrough (.slot site.method d)).toList
    let source? := (Instruction.new d s).source? site
    have hreads : f.store.Tracks goal a b (o.bind source?) (p.bind source?)
        (fun t => (t.Stands τ σ' goal.lhs.chain a ∧ t.local?.bind source? = o.bind source?) ∧
          t.ReadsOnly (.slot site.method d) fields)
        (fun t => (t.Stands τ σ' goal.rhs.chain b ∧ t.local?.bind source? = p.bind source?) ∧
          t.ReadsOnly (.slot site.method d) fields) :=
      hs.mono (fun h => h.bind source?)
        (fun _ hc hl => ⟨⟨hl.1, by rw [hl.2]⟩, readsOnly_fieldsReadThrough hc (.inl rfl)⟩)
        fun _ hc hr => ⟨⟨hr.1, by rw [hr.2]⟩, readsOnly_fieldsReadThrough hc (.inr rfl)⟩
    dsimp only
    rw [ends_bind, ends_store, ends_bind]
    refine (ends_spliceReads_tracks hreads htruth hnew hzero (if_pos rfl)).mono fun _ g hg => ?_
    rw [ends_bind]
    refine (ends_replace_tracks hg htruth id ?_ ?_ (fun _ hl => hl.1.fits)
      (fun _ hr => hr.1.fits) (fun _ hl => hl.2.symm) fun _ hr => hr.2.symm).mono
        fun _ g hg => ends_pure.2 hg
    · rintro t ⟨⟨hl, hlocal⟩, hreads⟩
      exact hlocal ▸ hl.yields_create hreads hnew hrest
    · rintro t ⟨⟨hr, hlocal⟩, hreads⟩
      exact hlocal ▸ hr.yields_create hreads hnew hrest

/-- A visit takes the goal back over one instruction. -/
theorem ends_visit_tracks {h : HeapGraph} {i : Instruction}
    (hs : TracksAt goal a b σ' τ o p f.store) (htruth : goal.op.truth a b = some true)
    (hi : i.movesOrCreates = true) (hstep : σ.Executes site i τ) (hzero : σ.Defaults τ)
    (hrest : τ.Extends σ') :
    Ends (visit h site i) f fun _ g =>
      TracksAt goal a b σ' σ (o.bind (i.source? site)) (p.bind (i.source? site)) g.store := by
  unfold visit
  rw [ends_bind]
  refine ends_requireFeasible hs.feasible ?_
  cases i with
  | assign | checkCast =>
    dsimp only
    rw [ends_bind]
    exact (ends_assign_tracks hs htruth hstep).mono fun _ g hg => ends_pure.2 hg
  | new =>
    dsimp only
    rw [ends_bind]
    exact (ends_allocate_tracks hs htruth hstep hzero hrest).mono fun _ g hg => ends_pure.2 hg
  | _ => cases hi

end PathM

end Refuter
