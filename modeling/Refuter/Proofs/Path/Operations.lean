import Refuter.PathStore.Calls
import Refuter.Proofs.Evolution
import Refuter.Proofs.Path.Tracking

/-!
# What operations do to a path store

Whatever an operation is for, it changes a path store in few ways: a newly numbered constraint is
appended, constraints are rewritten in place, or some are dropped. `PathStore.Law` collects what
these changes must keep, and every operation but a check then keeps it in every branch.
-/

namespace Refuter

open StoreM

/-! ## 1. Bases of rewritten constraints -/

/-- All access paths of the term start at pointers with `G`. -/
def Term.Within (G : Pointer → Prop) (t : Term) : Prop := ∀ v ∈ t.paths, G v.base

/-- All access paths of the term start at known pointers. -/
abbrev Term.IsKnown (t : Term) : Prop := t.Within fun p => p.isChoice = false

namespace Term

variable {G : Pointer → Prop} {l r t t' : Term} {p : Pointer}

theorem within_const {n : Int64} : (const n).Within G := fun _ hv => by cases hv

theorem within_var {v : AccessPath} (h : G v.base) : (var v).Within G := by
  intro u hu
  rw [List.mem_singleton.1 hu]
  exact h

theorem within_bin {op : ArithOp} (hl : l.Within G) (hr : r.Within G) : (bin l op r).Within G := by
  intro v hv
  obtain hv | hv := List.mem_append.1 hv
  · exact hl v hv
  · exact hr v hv

theorem isKnown_operand {site : Site} (o : Operand) : (o.term site).IsKnown := by
  cases o with
  | slot l => exact within_var rfl
  | const | null => exact within_const

/-- Folding a term brings no new paths. -/
theorem Within.folded (h : t.Within G) : (t.evaluate.elim t const).Within G := by
  cases t.evaluate with
  | none => exact h
  | some n => exact within_const

theorem within_of_extend {rest : List Field} (h : t.Within G)
    (ht : t.extend rest = .changed t') : t'.Within G := by
  unfold extend at ht
  split at ht
  · cases ht
    exact h
  · rename_i v _
    cases ht
    exact within_var (h v List.mem_cons_self)
  · cases ht

theorem within_of_extendBare {rest : List Field} (h : t.Within G)
    (ht : t.extendBare rest = .changed t') : t'.Within G := by
  unfold extendBare at ht
  split at ht
  · cases ht
    exact h
  · rename_i base _
    cases ht
    exact within_var (h ⟨base, []⟩ List.mem_cons_self)
  · cases ht

end Term

/-- `d` can stand for `c` after a rewrite that puts in pointers with `G`. -/
structure Constraint.Rewrites (G : Pointer → Prop) (c d : Constraint) : Prop where
  id : d.id = c.id
  isConstant : d.isConstant = false
  paths : ∀ v ∈ d.paths, v ∈ c.paths ∨ G v.base

/-- Every changed constraint is a rewrite of the one before. -/
def Settled.Rewrites (G : Pointer → Prop) (change : Constraint → Settled) : Prop :=
  ∀ c d, change c = .changed d → c.Rewrites G d

theorem Constraint.eq_of_settle {c d : Constraint} (h : c.settle = .changed d) :
    d = c ∧ c.isConstant = false := by
  unfold settle at h
  split at h
  · split at h <;> cases h
  · rename_i hconstant
    cases h
    exact ⟨rfl, Bool.eq_false_iff.2 hconstant⟩

theorem Settled.rewrites_replace {G : Pointer → Prop} {f : AccessPath → Replacement Term}
    (hf : ∀ v t, f v = .changed t → t.Within G) :
    Rewrites G (Constraint.replace (Term.replacePaths f)) := by
  intro c d h
  -- a path of a rewritten side was there before or belongs to a term that was put in
  have hside : ∀ t : Term, t.replacePaths f ≠ .unsupported →
      ∀ v ∈ ((t.replacePaths f).getD t).paths, v ∈ t.paths ∨ G v.base := by
    intro t ht v hv
    obtain ⟨u, hu, -, hv⟩ := Term.mem_paths_replacePaths ht hv
    cases hr : f u with
    | changed s =>
      rw [hr] at hv
      exact .inr (hf u s hr v hv)
    | unchanged | unsupported =>
      rw [hr] at hv
      rw [List.mem_singleton.1 hv]
      exact .inl hu
  unfold Constraint.replace at h
  split at h
  · cases h
  · cases h
  · rename_i e hboth
    obtain ⟨rfl, hconstant⟩ := Constraint.eq_of_settle h
    have hgetD := @Replacement.getD_both Term Constraint ({ c with lhs := ·, rhs := · }) c.lhs c.rhs
      (c.lhs.replacePaths f) (c.rhs.replacePaths f)
    rw [hboth] at hgetD
    obtain ⟨hl, hr, hd⟩ := hgetD (by simp)
    obtain rfl : d = { c with lhs := (c.lhs.replacePaths f).getD c.lhs,
                              rhs := (c.rhs.replacePaths f).getD c.rhs } := hd
    refine ⟨rfl, hconstant, fun v hv => ?_⟩
    obtain hv | hv := List.mem_append.1 hv
    · exact (hside _ hl v hv).imp_left fun h => List.mem_append.2 (.inl h)
    · exact (hside _ hr v hv).imp_left fun h => List.mem_append.2 (.inr h)

section Rewrites

variable {G : Pointer → Prop} {insert : Term} (h : insert.Within G)
include h

theorem Settled.rewrites_substitute (target : AccessPath) :
    Rewrites G (Constraint.replace (Term.substitute insert target)) := by
  refine rewrites_replace fun v t ht => ?_
  cases hrest : v.restAfter? target with
  | none =>
    rw [hrest] at ht
    cases ht
  | some rest =>
    rw [hrest] at ht
    exact Term.within_of_extendBare h ht

theorem Settled.rewrites_splice (target : AccessPath) :
    Rewrites G (Constraint.replace (Term.splice insert target)) := by
  refine rewrites_replace fun v t ht => ?_
  cases hrest : v.restAfter? target with
  | none =>
    rw [hrest] at ht
    cases ht
  | some rest =>
    rw [hrest] at ht
    exact Term.within_of_extend h ht

theorem Settled.rewrites_spliceRead (base : Pointer) (field : Field) :
    Rewrites G (Constraint.replace (Term.spliceRead insert base field)) := by
  refine rewrites_replace fun v t ht => ?_
  split at ht
  · split at ht
    · exact Term.within_of_extend h ht
    · cases ht
  · cases ht

end Rewrites

/-- What remains of a constraint is the constraint or a rewrite of it. -/
theorem Settled.remains_eq_some {G : Pointer → Prop} {change : Constraint → Settled}
    {c d : Constraint} (h : Rewrites G change) (hd : (change c).remains c = some d) :
    d = c ∨ c.Rewrites G d := by
  cases hchange : change c with
  | unchanged =>
    rw [hchange] at hd
    cases hd
    exact .inl rfl
  | changed e =>
    rw [hchange] at hd
    cases hd
    exact .inr (h c d hchange)
  | resolved | dropped =>
    rw [hchange] at hd
    cases hd

/-- The constraints after a change of all of them. -/
def Settled.remaining (change : Constraint → Settled) (cs : List Constraint) : List Constraint :=
  (cs.filterMap fun c => (change c).remains c).eraseDupsBy Constraint.sameAs

theorem Settled.exists_of_mem_remaining {G : Pointer → Prop} {change : Constraint → Settled}
    {cs : List Constraint} {d : Constraint} (h : Rewrites G change) (hd : d ∈ remaining change cs) :
    ∃ c ∈ cs, d = c ∨ c.Rewrites G d := by
  obtain ⟨c, hc, hremains⟩ := List.mem_filterMap.1 ((eraseDupsBy_sublist _).subset hd)
  exact ⟨c, hc, remains_eq_some h hremains⟩

/-! ### Comparisons in a store -/

theorem Constraint.sameAs_iff {c d : Constraint} :
    c.sameAs d = true ↔ c.op = d.op ∧ c.lhs = d.lhs ∧ c.rhs = d.rhs := by
  simp only [sameAs, Bool.and_eq_true, decide_eq_true_eq, and_assoc]

theorem Constraint.sameAs_refl (c : Constraint) : c.sameAs c = true := sameAs_iff.2 ⟨rfl, rfl, rfl⟩

theorem Constraint.sameAs_trans {c d e : Constraint} (h : c.sameAs d = true)
    (h' : c.sameAs e = true) : d.sameAs e = true := by
  obtain ⟨hop, hl, hr⟩ := sameAs_iff.1 h
  obtain ⟨hop', hl', hr'⟩ := sameAs_iff.1 h'
  exact sameAs_iff.2 ⟨hop.symm.trans hop', hl.symm.trans hl', hr.symm.trans hr'⟩

theorem Constraint.paths_eq_of_sameAs {c d : Constraint} (h : c.sameAs d = true) :
    c.paths = d.paths := by
  obtain ⟨-, hl, hr⟩ := sameAs_iff.1 h
  unfold paths
  rw [hl, hr]

/-- The store has the comparison, whatever its number. -/
def PathStore.Has (s : PathStore) (c : Constraint) : Prop :=
  ∃ d ∈ s.constraints, d.sameAs c = true

/-- A constraint that is left unchanged stays, or the same comparison does. -/
theorem Settled.exists_sameAs_of_unchanged {change : Constraint → Settled} {cs : List Constraint}
    {c : Constraint} (hc : c ∈ cs) (hchange : change c = .unchanged) :
    ∃ d ∈ remaining change cs, c.sameAs d = true := by
  refine exists_mem_eraseDupsBy Constraint.sameAs_refl (List.mem_filterMap.2 ⟨c, hc, ?_⟩)
  rw [hchange]
  rfl

/-! ## 2. The law -/

/-- The constraint is new to the store, and the store takes it. -/
structure PathStore.Takes (s : PathStore) (limit : Nat) (c : Constraint) : Prop where
  isConstant : c.isConstant = false
  new : ∀ d ∈ s.constraints, d.sameAs c = false
  room : s.constraints.length < limit

variable {W : Type} [Preorder W]

/-- What a property of session and store needs, to be kept by every operation on path stores that
puts in pointers with `G`. -/
structure PathStore.Law (J : W → Session → Prop) (P : W → PathStore → Prop) (E : Halt → Prop)
    (G : W → Pointer → Prop) : Prop where
  mono : Monotone P
  pointers : Monotone G
  known : ∀ {w : W} {p : Pointer}, p.isChoice = false → G w p
  notes : ∀ ⦃w : W⦄ ⦃s s' : Session⦄, s.Notes s' → J w s → J w s'
  /-- the name of an array index takes a number -/
  fresh : ∀ {w : W} {s : Session}, J w s → ∃ w', w ≤ w' ∧ J w' { s with nextId := s.nextId + 1 }
  /-- a constraint takes a number and may be appended -/
  number : ∀ {w : W} {session : Session} {s : PathStore}, J w session → P w s →
    ∃ w', w ≤ w' ∧ J w' { session with nextConstraint := session.nextConstraint + 1 } ∧
      ∀ c : Constraint, c.id = ⟨session.nextConstraint⟩ → (∀ v ∈ c.paths, G w v.base) →
        s.Takes session.options.maxPathConstraints.toNat c → P w' (s.put (s.constraints ++ [c]))
  change : ∀ {w : W} {s : PathStore} {change : Constraint → Settled}, P w s →
    Settled.Rewrites (G w) change →
    P w (s.put (Settled.remaining change s.constraints))
  drop : ∀ {w : W} {s : PathStore} (test : Constraint → Bool), P w s →
    P w (s.put (s.constraints.filter test))
  refuted : ∀ {w : W} {s : PathStore}, P w s → P w { s with feasible := false }
  refutes : ∀ r : Refutation, E (.refuted r)

/-- Nothing is asked of the store. -/
theorem PathStore.law_any {E : Halt → Prop} (hE : ∀ r, E (.refuted r)) :
    PathStore.Law (fun (_ : Timeless) _ => True) (fun _ _ => True) E fun _ _ => True where
  mono _ _ _ := le_refl _
  pointers _ _ _ := le_refl _
  known _ := trivial
  notes _ _ _ _ _ := trivial
  fresh _ := ⟨.world, le_refl _, trivial⟩
  number _ _ := ⟨.world, le_refl _, trivial, fun _ _ _ _ => trivial⟩
  change _ _ := trivial
  drop _ _ := trivial
  refuted _ := trivial
  refutes := hE

/-- There is no solver to ask, or it answers, or it fails. Once it does not decide it is out of
use. -/
theorem Session.check_cases (formula : Smt.Formula) (names : List String) (s : Session) :
    ((s.solver = none ∨ s.solverDisabled = true) ∧
      Session.check formula names s = (.unknown, s)) ∨
    ∃ solver, s.solver = some solver ∧ s.solverDisabled = false ∧
      ((∃ answer solver' journal, Smt.Solver.check formula names solver = .ok answer solver' ∧
          Session.check formula names s = (answer, { s with
            solver := some solver', solverDisabled := answer = .unknown, journal := journal })) ∨
        ∃ reason solver' journal, Smt.Solver.check formula names solver = .error reason solver' ∧
          Session.check formula names s = (.unknown, { s with
            solver := some solver', solverDisabled := true, journal := journal })) := by
  unfold Session.check
  simp only [bind, StateT.bind, get, getThe, MonadStateOf.get, StateT.get, pure]
  cases hsolver : s.solver with
  | none => exact .inl ⟨.inl rfl, rfl⟩
  | some solver =>
    cases hdisabled : s.solverDisabled with
    | true => exact .inl ⟨.inr rfl, rfl⟩
    | false =>
      refine .inr ⟨solver, rfl, rfl, ?_⟩
      simp only [Bool.false_eq_true, if_false]
      cases Smt.Solver.check formula names solver with
      | ok answer solver' =>
        refine .inl ?_
        by_cases hunknown : answer = .unknown
        · rw [hunknown]
          exact ⟨.unknown, solver', _, rfl, rfl⟩
        · refine ⟨answer, solver', s.journal, rfl, ?_⟩
          rw [decide_eq_false hunknown]
          simp only [hunknown, if_false]
          rfl
      | error reason solver' => exact .inr ⟨reason, solver', _, rfl, rfl⟩

/-- Asking the solver changes its state, the journal and whether it is asked again. -/
theorem Session.check_eq (formula : Smt.Formula) (names : List String) (s : Session) :
    ∃ solver disabled journal, (Session.check formula names s).2 =
      { s with solver := solver, solverDisabled := disabled, journal := journal } := by
  obtain ⟨-, hcheck⟩ | ⟨_, -, -, ⟨_, _, _, -, hcheck⟩ | ⟨_, _, _, -, hcheck⟩⟩ :=
    check_cases formula names s
  · exact ⟨s.solver, s.solverDisabled, s.journal, by rw [hcheck]⟩
  · exact ⟨_, _, _, by rw [hcheck]⟩
  · exact ⟨_, _, _, by rw [hcheck]⟩

/-! ## 3. Edits -/

namespace PathM

variable {α : Type} {f : Frame PathStore}

/-- The operation takes notes, and leaves the store as it is or changes it as `R` says; or it
refutes the store. -/
def Edits (x : PathM α) (R : Frame PathStore → PathStore → Prop) : Prop :=
  ∀ f, Results x f
    (fun _ g => f.session.Notes g.session ∧ (g.store = f.store ∨ R f g.store))
    fun e g => f.session.Notes g.session ∧ (∃ r, e = .refuted r) ∧
      (g.store = f.store ∨ g.store = { f.store with feasible := false })

theorem Edits.safe {x : PathM α} {R : Frame PathStore → PathStore → Prop} (h : Edits x R) :
    Safe x := by
  intro f b g hx
  obtain ⟨-, ⟨r, hr⟩, -⟩ := (h f).of_error hx
  cases hr

theorem results_refute {r : Refutation} {Q : α → Frame PathStore → Prop}
    {H : Halt → Frame PathStore → Prop} :
    Results (refute r) f Q H ↔
      H (.refuted r) { f.note ⟨.debug, .path, "path refuted: " ++ r.message⟩ with
        store := { f.store with feasible := false } } := by
  unfold refute
  simp only [results_bind, results_debug, results_modifyStore, results_halt]
  exact Iff.rfl

theorem results_requireFeasible {Q : Unit → Frame PathStore → Prop}
    {H : Halt → Frame PathStore → Prop} (hQ : Q () f) (hH : H (.refuted .alreadyRefuted) f) :
    Results requireFeasible f Q H := by
  unfold requireFeasible
  rw [results_bind, results_store]
  split
  · exact hH
  · exact hQ

theorem results_debugAll {texts : List String} {Q : Unit → Frame PathStore → Prop}
    {H : Halt → Frame PathStore → Prop}
    (hQ : ∀ session, f.session.Notes session → Q () { f with session := session }) :
    Results (debugAll texts) f Q H := by
  induction texts generalizing f with
  | nil => exact hQ f.session ⟨_, rfl⟩
  | cons text rest ih =>
    unfold debugAll
    rw [results_bind, results_debug]
    refine ih fun session hsession => hQ session ?_
    obtain ⟨journal, rfl⟩ := hsession
    exact ⟨journal, rfl⟩

/-- An added constraint is appended if the store takes it. -/
theorem edits_add (c : Constraint) :
    Edits (add c) fun f t => f.store.Takes f.session.options.maxPathConstraints.toNat c ∧
      t = f.store.put (f.store.constraints ++ [c]) := by
  intro f
  have hsame : f.session.Notes f.session := ⟨_, rfl⟩
  unfold add
  rw [results_bind]
  refine results_requireFeasible ?_ ⟨hsame, ⟨_, rfl⟩, .inl rfl⟩
  cases hsettle : c.settle with
  | unchanged => exact ⟨hsame, .inl rfl⟩
  | resolved value =>
    cases value with
    | true => exact ⟨hsame, .inl rfl⟩
    | false => exact results_refute.2 ⟨⟨_, rfl⟩, ⟨_, rfl⟩, .inr rfl⟩
  | dropped => exact ⟨⟨_, rfl⟩, .inl rfl⟩
  | changed d =>
    obtain ⟨rfl, hconstant⟩ := Constraint.eq_of_settle hsettle
    simp only [results_bind, results_store]
    split
    · exact ⟨hsame, .inl rfl⟩
    · rename_i hnew
      simp only [results_bind, results_options]
      split
      · exact ⟨⟨_, rfl⟩, .inl rfl⟩
      · rename_i hroom
        simp only [results_bind, results_debug]
        refine ⟨⟨_, rfl⟩, .inr ⟨⟨hconstant, fun e he => ?_, Nat.lt_of_not_le hroom⟩, rfl⟩⟩
        exact Bool.eq_false_iff.2 fun h => hnew (List.any_eq_true.2 ⟨e, he, h⟩)

/-- The constraints are put again only if one of them was changed, decided or dropped. -/
theorem edits_changeAll (change : Constraint → Settled) :
    Edits (changeAll change) fun f t =>
      (∃ c ∈ f.store.constraints, change c ≠ .unchanged) ∧
        t = f.store.put (Settled.remaining change f.store.constraints) := by
  intro f
  unfold changeAll
  rw [results_bind]
  refine results_requireFeasible ?_ ⟨⟨_, rfl⟩, ⟨_, rfl⟩, .inl rfl⟩
  simp only [results_bind, results_store]
  refine results_debugAll fun session hnotes => ?_
  split
  · refine results_refute.2 ⟨?_, ⟨_, rfl⟩, .inr rfl⟩
    obtain ⟨journal, rfl⟩ := hnotes
    exact ⟨_, rfl⟩
  · split
    · exact ⟨hnotes, .inl rfl⟩
    · rename_i hall
      refine ⟨hnotes, .inr ⟨?_, rfl⟩⟩
      simp only [List.all_eq_true, not_forall] at hall
      obtain ⟨c, hc, hchange⟩ := hall
      refine ⟨c, hc, fun hunchanged => hchange ?_⟩
      rw [hunchanged]
      rfl

/-- The constraints are put again only if one of them is dropped. -/
theorem edits_dropWhere (test : Constraint → Bool) :
    Edits (dropWhere test) fun f t =>
      (∃ c ∈ f.store.constraints, test c = true) ∧
        t = f.store.put (f.store.constraints.filter (!test ·)) := by
  intro f
  unfold dropWhere
  simp only [results_bind, results_store]
  refine results_debugAll fun session hnotes => ?_
  split
  · rename_i hany
    exact ⟨hnotes, .inr ⟨List.any_eq_true.1 hany, rfl⟩⟩
  · exact ⟨hnotes, .inl rfl⟩

/-! ### Comparisons that stay -/

section Has

variable {c : Constraint} {b : Bool} {g : Frame PathStore}

theorem has_changeAll {change : Constraint → Settled} (hs : f.store.Has c)
    (hchange : ∀ d, d.sameAs c = true → change d = .unchanged)
    (hrun : changeAll change f = .ok b g) : g.store.Has c := by
  obtain ⟨-, hg | ⟨-, hg⟩⟩ := (edits_changeAll change f).of_ok hrun
  · exact hg ▸ hs
  · obtain ⟨d, hd, hsame⟩ := hs
    obtain ⟨e, he, hde⟩ := Settled.exists_sameAs_of_unchanged hd (hchange d hsame)
    rw [hg]
    exact ⟨e, he, Constraint.sameAs_trans hde hsame⟩

/-- Rewriting leaves the comparisons without a replaced path. -/
theorem has_replacePaths {change : AccessPath → Replacement Term} (hs : f.store.Has c)
    (hchange : ∀ v ∈ c.paths, change v = .unchanged)
    (hrun : changeAll (Constraint.replace (Term.replacePaths change)) f = .ok b g) :
    g.store.Has c := by
  refine has_changeAll hs (fun d hd => ?_) hrun
  refine Constraint.replace_eq_unchanged fun v hv => hchange v ?_
  rw [← Constraint.paths_eq_of_sameAs hd]
  exact hv

theorem has_dropWhere {test : Constraint → Bool} (hs : f.store.Has c)
    (htest : ∀ d, d.sameAs c = true → test d = false) (hrun : dropWhere test f = .ok b g) :
    g.store.Has c := by
  obtain ⟨-, hg | ⟨-, hg⟩⟩ := (edits_dropWhere test f).of_ok hrun
  · exact hg ▸ hs
  · obtain ⟨d, hd, hsame⟩ := hs
    rw [hg]
    exact ⟨d, List.mem_filter.2 ⟨hd, by rw [htest d hsame]; rfl⟩, hsame⟩

theorem has_add {d : Constraint} (hs : f.store.Has c) (hrun : add d f = .ok () g) :
    g.store.Has c := by
  obtain ⟨-, hg | ⟨-, hg⟩⟩ := (edits_add d f).of_ok hrun
  · exact hg ▸ hs
  · obtain ⟨e, he, hsame⟩ := hs
    rw [hg]
    exact ⟨e, List.mem_append_left _ he, hsame⟩

theorem has_require {l r : Term} {op : CmpOp} (hs : f.store.Has c)
    (hrun : require l op r f = .ok () g) : g.store.Has c :=
  has_add (f := { f with session := (Session.constraint l op r f.session).2 })
    (d := (Session.constraint l op r f.session).1) hs hrun

/-- A store that is not full has every added comparison that is not constant. -/
theorem has_of_add (hc : c.isConstant = false)
    (hroom : f.store.constraints.length < f.session.options.maxPathConstraints.toNat)
    (hrun : add c f = .ok () g) : g.store.Has c := by
  have hsettle : c.settle = .changed c := by
    unfold Constraint.settle
    rw [hc]
    rfl
  have hadd : Results (add c) f (fun _ g => g.store.Has c) fun _ _ => True := by
    unfold add
    rw [results_bind]
    refine results_requireFeasible ?_ trivial
    rw [hsettle]
    simp only [results_bind, results_store]
    split
    · rename_i hany
      exact List.any_eq_true.1 hany
    · simp only [results_bind, results_options]
      rw [if_neg (Nat.not_le.2 hroom)]
      exact ⟨c, List.mem_append_right _ (List.mem_singleton.2 rfl), Constraint.sameAs_refl c⟩
  exact hadd.of_ok hrun

end Has

/-! ## 4. Operations -/

variable {J : W → Session → Prop} {P : W → PathStore → Prop} {E : Halt → Prop}
  {G : W → Pointer → Prop} {w : W}

theorem evolves_whenRelevant {p : Pointer} {x : PathM Bool}
    (hx : ∀ w', w ≤ w' → Evolves J P E w' x fun _ _ => True) :
    Evolves J P E w (whenRelevant p x) fun _ _ => True := by
  refine evolves_store.bind fun w₁ s hw _ => ?_
  split
  · exact (hx w₁ hw).bind fun _ _ _ _ => evolves_pure trivial
  · exact evolves_pure trivial

section Operations

variable (law : PathStore.Law J P E G)
include law

theorem evolves_refute {r : Refutation} {Q : W → α → Prop} : Evolves J P E w (refute r) Q :=
  (evolves_note law.mono law.notes).bind fun _ _ _ _ =>
    (evolves_modifyStore fun _ => law.refuted).bind fun _ _ _ _ => evolves_throw (law.refutes r)

theorem evolves_requireFeasible : Evolves J P E w requireFeasible fun _ _ => True := by
  refine evolves_store.bind fun w₁ s _ _ => ?_
  split
  · exact evolves_throw (law.refutes _)
  · exact evolves_pure trivial

theorem evolves_of_edits {x : PathM α} {R : Frame PathStore → PathStore → Prop} (hx : Edits x R)
    (h : ∀ f t, J w f.session → P w f.store → R f t → P w t) :
    Evolves J P E w x fun _ _ => True := by
  intro f hJ hP
  refine (hx f).mono (fun _ g hg => ?_) fun e g hg => ?_
  · obtain ⟨hnotes, hstore | hR⟩ := hg
    · exact ⟨w, le_refl w, law.notes hnotes hJ, hstore ▸ hP, trivial⟩
    · exact ⟨w, le_refl w, law.notes hnotes hJ, h f g.store hJ hP hR, trivial⟩
  · obtain ⟨hnotes, ⟨r, rfl⟩, hstore | hstore⟩ := hg
    · exact ⟨w, le_refl w, law.notes hnotes hJ, hstore ▸ hP, law.refutes r⟩
    · exact ⟨w, le_refl w, law.notes hnotes hJ, hstore ▸ law.refuted hP, law.refutes r⟩

theorem evolves_changeAll {change : Constraint → Settled} (h : Settled.Rewrites (G w) change) :
    Evolves J P E w (changeAll change) fun _ _ => True :=
  evolves_of_edits law (edits_changeAll change) fun _ _ _ hP ht => ht.2 ▸ law.change hP h

theorem evolves_dropWhere (test : Constraint → Bool) :
    Evolves J P E w (dropWhere test) fun _ _ => True :=
  evolves_of_edits law (edits_dropWhere test) fun _ _ _ hP ht => ht.2 ▸ law.drop _ hP

theorem evolves_require {l r : Term} {op : CmpOp} (hl : l.Within (G w)) (hr : r.Within (G w)) :
    Evolves J P E w (require l op r) fun _ _ => True := by
  intro f hJ hP
  obtain ⟨w', hw, hJ', hput⟩ := law.number hJ hP
  have hpaths : ∀ v ∈ l.paths ++ r.paths, G w v.base := fun v hv =>
    (List.mem_append.1 hv).elim (hl v) (hr v)
  have hstore : P w' f.store := law.mono hw _ hP
  unfold require
  rw [results_bind, results_session]
  -- the number is taken whether the constraint is kept or not
  refine (edits_add _ _).mono (fun _ g hg => ?_) fun e g hg => ?_
  · obtain ⟨hnotes, hg | ⟨htakes, hg⟩⟩ := hg
    · exact ⟨w', hw, law.notes hnotes hJ', hg ▸ hstore, trivial⟩
    · exact ⟨w', hw, law.notes hnotes hJ', hg ▸ hput _ rfl hpaths htakes, trivial⟩
  · obtain ⟨hnotes, ⟨r, rfl⟩, hg | hg⟩ := hg
    · exact ⟨w', hw, law.notes hnotes hJ', hg ▸ hstore, law.refutes r⟩
    · exact ⟨w', hw, law.notes hnotes hJ', hg ▸ law.refuted hstore, law.refutes r⟩

section Insertion

variable {insert : Term} (hinsert : insert.Within (G w))
include hinsert

theorem evolves_substitute (target : AccessPath) :
    Evolves J P E w (substitute insert target) fun _ _ => True :=
  evolves_changeAll law (Settled.rewrites_substitute hinsert target)

theorem evolves_splice (target : AccessPath) :
    Evolves J P E w (splice insert target) fun _ _ => True :=
  evolves_changeAll law (Settled.rewrites_splice hinsert target)

theorem evolves_spliceRead (base : Pointer) (field : Field) :
    Evolves J P E w (spliceRead insert base field) fun _ _ => True :=
  evolves_changeAll law (Settled.rewrites_spliceRead hinsert base field)

end Insertion

/-- Terms over known pointers may be put in at any time. -/
theorem within_of_isKnown {t : Term} (h : t.IsKnown) : t.Within (G w) :=
  fun v hv => law.known (h v hv)

theorem evolves_spliceReads {insert : Term} (h : insert.IsKnown) (base : Pointer)
    (fields : List Field) : Evolves J P E w (spliceReads insert base fields) fun _ _ => True := by
  induction fields generalizing w with
  | nil => exact evolves_pure trivial
  | cons f rest ih =>
    exact (evolves_spliceRead law (within_of_isKnown law h) base f).bind fun _ _ _ _ => ih

theorem evolves_rename {p q : Pointer} (hq : G w q) :
    Evolves J P E w (rename p q) fun _ _ => True := by
  refine evolves_store.bind fun w₁ s hw _ => ?_
  split
  · exact evolves_pure trivial
  · exact evolves_substitute law (Term.within_var (law.pointers hw q hq)) _

theorem evolves_dropMentioning (p : Pointer) :
    Evolves J P E w (dropMentioning p) fun _ _ => True := by
  refine evolves_store.bind fun w₁ s _ _ => ?_
  split
  · exact evolves_pure trivial
  · exact evolves_dropWhere law _

theorem evolves_define (target : Pointer) {value : Option Term} (h : ∀ t ∈ value, t.IsKnown) :
    Evolves J P E w (define target value) fun _ _ => True := by
  refine evolves_whenRelevant fun w₁ _ => ?_
  cases value with
  | none => exact evolves_dropMentioning law _
  | some t => exact evolves_substitute law (within_of_isKnown law (h t rfl).folded) _

theorem evolves_split {scrutinee : Term} (h : scrutinee.IsKnown) (values : List Int64) :
    Evolves J P E w (split scrutinee values) fun w' rest => ∀ t ∈ rest, P w' t := by
  refine evolves_store.bind fun w₁ s _ hs => ?_
  refine (evolves_attemptAll law.mono law.mono (fun _ h => h) (fun b hb w' hw => ?_)
    fun t ht => ?_).bind fun w₂ cases _ hlive =>
      evolves_commit law.mono (fun _ => evolves_refute law) hlive
  · obtain ⟨v, -, rfl⟩ := List.mem_map.1 hb
    exact (evolves_require law (within_of_isKnown law h) Term.within_const).on (law.mono hw s hs)
  · cases ht

theorem evolves_exclude {scrutinee : Term} (h : scrutinee.IsKnown) (values : List Int64) :
    Evolves J P E w (exclude scrutinee values) fun _ _ => True := by
  induction values generalizing w with
  | nil => exact evolves_pure trivial
  | cons v rest ih =>
    exact (evolves_require law (within_of_isKnown law h) Term.within_const).bind fun _ _ _ _ => ih

theorem evolves_allocate (target : Pointer) {object : Pointer} {length : Option Term}
    (hobject : object.isChoice = false) (hlength : ∀ t ∈ length, t.IsKnown) :
    Evolves J P E w (allocate target object length) fun _ _ => True := by
  refine evolves_store.bind fun w₁ s _ _ => ?_
  split
  · exact evolves_pure trivial
  · have hfields : ∀ w', Evolves J P E w' (do
        spliceReads (.const 0) target ((← store).fieldsReadThrough target).toList
        let _ ← substitute (.bare object) ⟨target, []⟩) fun _ _ => True :=
      fun w' => evolves_store.bind fun _ s _ _ =>
        (evolves_spliceReads law Term.within_const _ _).bind fun _ _ _ _ =>
        (evolves_substitute law (Term.within_var (law.known hobject)) _).bind fun _ _ _ _ =>
        evolves_pure trivial
    cases length with
    | none => exact hfields w₁
    | some t =>
      exact (evolves_spliceRead law (within_of_isKnown law (hlength t rfl)) _ _).bind
        fun w' _ _ _ => hfields w'

theorem evolves_storeField (h : HeapGraph) (base : Pointer) (field : Field) {value : Term}
    (hvalue : value.IsKnown) :
    Evolves J P E w (storeField h base field value) fun _ _ => True := by
  refine evolves_store.bind fun w₁ s _ _ => ?_
  split
  · exact evolves_pure trivial
  · exact (evolves_spliceRead law (within_of_isKnown law hvalue) _ _).bind fun _ _ _ _ =>
      (evolves_dropWhere law _).bind fun _ _ _ _ => evolves_pure trivial

theorem evolves_loadElement (target : Pointer) {array : Pointer} {index : Term}
    (harray : array.isChoice = false) (hindex : index.IsKnown) :
    Evolves J P E w (loadElement target array index) fun _ _ => True := by
  refine evolves_store.bind fun w₁ s _ _ => ?_
  split
  · exact evolves_pure trivial
  · refine evolves_options.bind fun w₂ o _ _ => ?_
    split
    · exact (evolves_dropMentioning law _).bind fun _ _ _ _ => evolves_pure trivial
    · have hnumber : Draws J w₂ Fresh.next fun _ _ => True := fun s hJ => by
        obtain ⟨w', hw, hJ'⟩ := law.fresh hJ
        exact ⟨w', hw, hJ', trivial⟩
      refine (evolves_fresh law.mono hnumber).bind fun w₃ n _ _ => ?_
      exact (evolves_splice law (Term.within_var (law.known harray)) _).bind fun _ _ _ _ =>
        evolves_require law (Term.within_var (law.known rfl)) (within_of_isKnown law hindex)

theorem evolves_splitElements (array : Pointer) {index value : Term} (hindex : index.IsKnown)
    (hvalue : value.IsKnown) (names : List UInt64) {cases : Survivors PathStore}
    (hlive : ∀ t ∈ cases.live, P w t) :
    Evolves J P E w (splitElements array index value names cases) fun w' cases =>
      ∀ t ∈ cases.live, P w' t := by
  induction names generalizing cases w with
  | nil => exact evolves_pure hlive
  | cons n rest ih =>
    have hname : ∀ w', (Term.bare (.known (.index n))).Within (G w') := fun w' =>
      Term.within_var (law.known rfl)
    have hrequire : ∀ w' op, Evolves J P E w' (require (.bare (.known (.index n))) op index)
        fun _ _ => True :=
      fun w' op => evolves_require law (hname w') (within_of_isKnown law hindex)
    refine (evolves_attemptAll law.mono law.mono (fun _ h => h) (fun b hb w' hw => ?_)
      fun t ht => ?_).bind fun _ cases _ hlive => ih hlive
    · -- the two cases of one surviving store
      obtain ⟨s, hs, hb⟩ := List.mem_flatMap.1 hb
      obtain rfl | hb := List.mem_cons.1 hb
      · exact ((evolves_spliceRead law (within_of_isKnown law hvalue) _ _).bind
          fun w₁ _ _ _ => hrequire w₁ .eq).on (law.mono hw s (hlive s hs))
      · obtain rfl := List.mem_singleton.1 hb
        exact (hrequire w' .ne).on (law.mono hw s (hlive s hs))
    · cases ht

theorem evolves_storeElement (h : HeapGraph) (array : Pointer) {index value : Term}
    (hindex : index.IsKnown) (hvalue : value.IsKnown) :
    Evolves J P E w (storeElement h array index value) fun w' rest => ∀ t ∈ rest, P w' t := by
  have hnone : ∀ w', ∀ t ∈ ([] : List PathStore), P w' t := fun w' t ht => by cases ht
  refine evolves_options.bind fun w₁ o _ _ => (evolves_dropWhere law _).bind fun w₂ _ _ _ => ?_
  split
  · exact evolves_pure (hnone w₂)
  · refine evolves_store.bind fun w₃ s _ _ => ?_
    dsimp only
    split
    · exact evolves_pure (hnone w₃)
    · refine evolves_store.bind fun w₄ s _ hs => ?_
      refine (evolves_splitElements law _ hindex hvalue _ fun t ht => ?_).bind
        fun _ cases _ hlive => evolves_commit law.mono (fun _ => evolves_refute law) hlive
      rw [List.mem_singleton.1 ht]
      exact hs

/-! ### Instructions -/

theorem evolves_visit (h : HeapGraph) (site : Site) (i : Instruction) :
    Evolves J P E w (visit h site i) fun w' rest => ∀ t ∈ rest, P w' t := by
  have hnone : ∀ w', ∀ t ∈ ([] : List PathStore), P w' t := fun w' t ht => by cases ht
  have hend : ∀ {w' : W} {x : PathM Unit}, Evolves J P E w' x (fun _ _ => True) →
      Evolves J P E w' (do x; return []) fun w' (rest : List PathStore) => ∀ t ∈ rest, P w' t :=
    fun hx => hx.bind fun w' _ _ _ => evolves_pure (hnone w')
  have hterm : ∀ {w' : W} (o : Operand), (o.term site).Within (G w') := fun o =>
    within_of_isKnown law (Term.isKnown_operand o)
  have hslot : ∀ {w' : W} {v : AccessPath}, v.base.isChoice = false →
      (Term.var v).Within (G w') := fun hv => Term.within_var (law.known hv)
  refine (evolves_requireFeasible law).bind fun w₁ _ _ _ => ?_
  cases i with
  | assign d value | checkCast d value | staticStore field value =>
    exact hend (evolves_whenRelevant fun _ _ => evolves_substitute law (hterm value) _)
  | load | staticLoad | arrayLength =>
    exact hend (evolves_whenRelevant fun _ _ => evolves_splice law (hslot rfl) _)
  | new => exact hend (evolves_allocate law _ rfl fun t ht => by cases ht)
  | newArray d s length =>
    refine hend (evolves_allocate law _ rfl fun t ht => ?_)
    cases ht
    exact Term.isKnown_operand length
  | store base field value => exact hend (evolves_storeField law h _ _ (Term.isKnown_operand value))
  | arrayLoad d array index =>
    exact hend (evolves_loadElement law _ rfl (Term.isKnown_operand index))
  | arrayStore array index value =>
    exact evolves_storeElement law h _ (Term.isKnown_operand index) (Term.isKnown_operand value)
  | binary d op lhs rhs type =>
    refine hend (evolves_define law _ fun t ht => ?_)
    split at ht
    · cases ht
      exact Term.within_bin (Term.isKnown_operand lhs) (Term.isKnown_operand rhs)
    · cases ht
  | unary d op value type =>
    cases op
    refine hend (evolves_define law _ fun t ht => ?_)
    split at ht
    · cases ht
      exact Term.within_bin Term.within_const (Term.isKnown_operand value)
    · cases ht
  | compare d lhs rhs type =>
    refine evolves_store.bind fun _ s _ _ => hend (evolves_define law _ fun t ht => ?_)
    split at ht
    · cases ht
      exact Term.within_const
    · split at ht
      · cases ht
        exact Term.within_bin (Term.isKnown_operand lhs) (Term.isKnown_operand rhs)
      · cases ht
  | conversion d value source dest =>
    refine hend (evolves_define law _ fun t ht => ?_)
    split at ht
    · cases ht
      exact Term.isKnown_operand value
    · cases ht
      exact Term.isKnown_operand value
    · cases ht
      exact Term.isKnown_operand value
    · cases ht
  | instanceOf | metadata => exact hend (evolves_define law _ fun t ht => by cases ht)
  | branch op lhs rhs taken => exact hend (evolves_require law (hterm lhs) (hterm rhs))
  | switch scrutinee cases chosen =>
    cases chosen with
    | default => exact hend (evolves_exclude law (Term.isKnown_operand scrutinee) _)
    | cases values =>
      cases values with
      | nil => exact evolves_pure (hnone w₁)
      | cons => exact evolves_split law (Term.isKnown_operand scrutinee) _
  | ret value =>
    cases value with
    | none => exact evolves_pure (hnone w₁)
    | some value =>
      exact hend (evolves_whenRelevant fun _ _ => evolves_substitute law (hterm value) _)
  | invoke | nop => exact evolves_pure (hnone w₁)

/-! ### Calls -/

theorem evolves_enterCallee (call : Instruction) (caller : Site) (callee : MethodId)
    (hcall : call.call? = none → E (.fault (.notACall .enterCallee call))) :
    Evolves J P E w (enterCallee call caller callee) fun _ _ => True := by
  refine (evolves_callOf hcall).bind fun w₁ parts _ _ => ?_
  dsimp only
  split
  · exact evolves_whenRelevant fun _ _ =>
      evolves_substitute law (Term.within_var (law.known rfl)) _
  · exact evolves_pure trivial

theorem evolves_zeroRoots (roots : List Pointer) :
    Evolves J P E w (zeroRoots roots) fun _ _ => True := by
  induction roots generalizing w with
  | nil => exact evolves_pure trivial
  | cons p rest ih =>
    exact (evolves_substitute law Term.within_const _).bind fun _ _ _ _ => ih

theorem evolves_bindFormals (caller : Site) (callee : MethodId) (args : List (Local × Operand)) :
    Evolves J P E w (bindFormals caller callee args) fun _ _ => True := by
  induction args generalizing w with
  | nil => exact evolves_pure trivial
  | cons arg rest ih =>
    exact (evolves_substitute law (within_of_isKnown law (Term.isKnown_operand arg.2)) _).bind
      fun _ _ _ _ => ih

theorem evolves_initialValues (callee : Method) :
    Evolves J P E w (initialValues callee) fun _ _ => True := by
  unfold initialValues
  split
  · exact evolves_store.bind fun _ s _ _ => evolves_spliceReads law Term.within_const _ _
  · exact evolves_store.bind fun _ s _ _ => evolves_zeroRoots law _
  · exact evolves_pure trivial

theorem evolves_returnToCaller (call : Instruction) (caller : Site)
    (hcall : call.call? = none → E (.fault (.notACall .returnToCaller call))) :
    Evolves J P E w (returnToCaller call caller) fun _ _ => True := by
  refine (evolves_callOf hcall).bind fun _ parts _ _ =>
    (evolves_initialValues law _).bind fun _ _ _ _ =>
    (evolves_bindFormals law _ _ _).bind fun _ _ _ _ => ?_
  split
  · exact (evolves_dropWhere law _).bind fun _ _ _ _ => evolves_pure trivial
  · exact evolves_pure trivial

theorem evolves_skipCall (call : Instruction) (caller : Site)
    (hcall : call.call? = none → E (.fault (.notACall .skipCall call))) :
    Evolves J P E w (skipCall call caller) fun _ _ => True := by
  have hdrop : ∀ w' test, Evolves J P E w' (do let _ ← dropWhere test) fun _ _ => True :=
    fun w' test => (evolves_dropWhere law test).bind fun _ _ _ _ => evolves_pure trivial
  refine (evolves_callOf hcall).bind fun w₁ parts _ _ => ?_
  dsimp only
  split
  · exact (evolves_dropMentioning law _).bind fun w₂ _ _ _ => hdrop w₂ _
  · exact hdrop w₁ _

/-- The pointers of the equations that are taken out come from the constraints. -/
theorem evolves_takeSiteEqualities :
    Evolves J P E w takeSiteEqualities fun w' taken =>
      ∃ s, P w' s ∧ taken = s.constraints.filterMap siteEquality? := by
  intro f hJ hP
  unfold takeSiteEqualities
  simp only [results_bind, results_store]
  refine results_debugAll fun session hnotes => ?_
  split
  · exact ⟨w, le_refl w, law.notes hnotes hJ, law.drop _ hP, f.store, hP, rfl⟩
  · exact ⟨w, le_refl w, law.notes hnotes hJ, hP, f.store, hP, rfl⟩

/-! ### Checks -/

omit law in
/-- A store that is asked about is marked, unless the answer refutes it. -/
theorem ask_of_ne_unsat {formula : Smt.Formula} {names : List String}
    {m : PathStore → PathStore} {r : Refutation}
    (h : (Session.check formula names f.session).1 ≠ .unsat) :
    (do
      let answer ← session (Session.check formula names)
      modifyStore m
      if answer = .unsat then refute r : PathM Unit) f =
        .ok () ⟨m f.store, (Session.check formula names f.session).2⟩ := by
  show (if (Session.check formula names f.session).1 = .unsat then refute r
    else (pure () : PathM Unit)) _ = _
  rw [if_neg h]
  rfl

/-- A check asks the solver about the store and may mark it. -/
theorem evolves_check_of
    (hasked : ∀ {w : W} {s : Session} (t : PathStore), J w s →
      J w (Session.check t.encoding t.symbols.toList s).2)
    (hmark : ∀ {w : W} {s : PathStore}, P w s → P w { s with checked := true }) :
    Evolves J P E w check fun _ _ => True := by
  refine (evolves_requireFeasible law).bind fun w₁ _ _ _ => evolves_store.bind fun w₂ s _ _ => ?_
  split
  · exact evolves_pure trivial
  · refine Evolves.bind (Q := fun _ _ => True) (evolves_session law.mono fun session hJ =>
      ⟨w₂, le_refl w₂, hasked s hJ, trivial⟩) fun w₃ answer _ _ => ?_
    refine (evolves_modifyStore fun _ => hmark).bind fun w₄ _ _ _ => ?_
    split
    · exact evolves_refute law
    · exact evolves_pure trivial

/-- The same for a property that does not depend on the solver. -/
theorem evolves_check
    (hsolver : ∀ {w : W} {s : Session} (solver : Option Smt.Solver) (disabled : Bool)
      (journal : List Record), J w s →
      J w { s with solver := solver, solverDisabled := disabled, journal := journal })
    (hmark : ∀ {w : W} {s : PathStore}, P w s → P w { s with checked := true }) :
    Evolves J P E w check fun _ _ => True := by
  refine evolves_check_of law (fun {w s} t hJ => ?_) hmark
  obtain ⟨solver, disabled, journal, heq⟩ := Session.check_eq t.encoding t.symbols.toList s
  exact heq ▸ hsolver solver disabled journal hJ

end Operations

end PathM

end Refuter
