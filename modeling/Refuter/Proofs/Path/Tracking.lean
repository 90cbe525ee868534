import Refuter.PathStore.Visit
import Refuter.Proofs.Path.Valuation
import Refuter.Proofs.Run

/-!
# Valuations behind a path store

An operation on the path store does not refute it if some valuation accounts for what every
constraint becomes: a changed constraint holds, and a constraint that is only kept held already.
-/

namespace Refuter

open StoreM

/-- Every constraint of the store holds. -/
def Valuation.Satisfies (V : Valuation) (s : PathStore) : Prop := ∀ c ∈ s.constraints, c.Holds V

/-- The store is not refuted, and `K` is true of every constraint. -/
structure PathStore.Admits (K : Constraint → Prop) (s : PathStore) : Prop where
  feasible : s.feasible = true
  all : ∀ c ∈ s.constraints, K c

/-- The store is not refuted and every constraint holds. -/
abbrev Valuation.Supports (V : Valuation) (s : PathStore) : Prop := s.Admits (Constraint.Holds V)

/-- Removing duplicates adds nothing and keeps the order. -/
theorem eraseDupsBy_sublist {α : Type} {r : α → α → Bool} (l : List α) :
    (l.eraseDupsBy r).Sublist l := by
  match l with
  | [] => exact List.Sublist.refl _
  | a :: rest =>
    -- the first one stays, and the rest is what differs from it
    rw [List.eraseDupsBy_cons]
    exact ((eraseDupsBy_sublist _).trans List.filter_sublist).cons_cons a
termination_by l.length
decreasing_by exact Nat.lt_succ_of_le (List.length_filter_le _ _)

/-- What is removed has a duplicate that stays. -/
theorem exists_mem_eraseDupsBy {α : Type} {r : α → α → Bool} (hr : ∀ a, r a a = true) {l : List α}
    {a : α} (ha : a ∈ l) : ∃ b ∈ l.eraseDupsBy r, r a b = true := by
  match l with
  | [] => cases ha
  | c :: rest =>
    rw [List.eraseDupsBy_cons]
    by_cases hac : r a c = true
    · exact ⟨c, List.mem_cons_self, hac⟩
    · have hne : a ≠ c := by
        rintro rfl
        exact hac (hr a)
      have hrest : a ∈ rest.filter fun b => decide (r b c = false) :=
        List.mem_filter.2 ⟨(List.mem_cons.1 ha).resolve_left hne, by simpa using hac⟩
      obtain ⟨b, hb, hab⟩ := exists_mem_eraseDupsBy hr hrest
      exact ⟨b, List.mem_cons_of_mem _ hb, hab⟩
termination_by l.length
decreasing_by exact Nat.lt_succ_of_le (List.length_filter_le _ _)

namespace PathM

variable {V : Valuation} {K : Constraint → Prop} {f : Frame PathStore} {p : Pointer}

/-! ## 1. Changing all constraints -/

theorem ends_requireFeasible {Q : Unit → Frame PathStore → Prop} (hf : f.store.feasible = true)
    (hQ : Q () f) : Ends requireFeasible f Q := by
  unfold requireFeasible
  rw [ends_bind, ends_store, hf]
  exact ends_pure.2 hQ

theorem ends_debugAll {texts : List String} {Q : Unit → Frame PathStore → Prop}
    (hQ : ∀ g : Frame PathStore, g.store = f.store → Q () g) : Ends (debugAll texts) f Q := by
  induction texts generalizing f with
  | nil => exact ends_pure.2 (hQ f rfl)
  | cons text rest ih =>
    unfold debugAll
    rw [ends_bind, ends_debug]
    exact ih hQ

/-- Constraints are changed without a refutation if each outcome keeps what it replaces. -/
theorem ends_changeAll {change : Constraint → Settled} (hf : f.store.feasible = true)
    (hc : ∀ c ∈ f.store.constraints, c.Keeps K (change c)) :
    Ends (changeAll change) f fun _ g => g.store.Admits K := by
  have hfind : f.store.constraints.find? (fun c => (change c).isFalse) = none := by
    refine List.find?_eq_none.2 fun c hmem hfalse => ?_
    have hkeeps := hc c hmem
    cases hs : change c with
    | resolved value =>
      rw [hs] at hkeeps hfalse
      obtain rfl : value = true := hkeeps
      cases hfalse
    | unchanged | changed | dropped =>
      rw [hs] at hfalse
      cases hfalse
  unfold changeAll
  rw [ends_bind]
  refine ends_requireFeasible hf ?_
  rw [ends_bind, ends_store]
  simp only [ends_bind]
  refine ends_debugAll fun g hg => ?_
  rw [hfind]
  dsimp only
  split
  · -- nothing changed, so the store is kept with its mark for the solver
    rename_i hall
    refine ends_pure.2 ⟨hg ▸ hf, fun c hmem => ?_⟩
    rw [hg] at hmem
    have hsame := List.all_eq_true.1 hall c hmem
    have hkeeps := hc c hmem
    cases hs : change c with
    | unchanged =>
      rw [hs] at hkeeps
      exact hkeeps
    | changed | resolved | dropped =>
      rw [hs] at hsame
      cases hsame
  · simp only [setConstraints, ends_bind, ends_modifyStore, ends_pure]
    refine ⟨hg ▸ hf, fun d hmem => ?_⟩
    -- whatever is left stands for one of the constraints before
    obtain ⟨c, hmem, hremains⟩ := List.mem_filterMap.1 ((eraseDupsBy_sublist _).subset hmem)
    have hkeeps := hc c hmem
    cases hs : change c with
    | unchanged =>
      rw [hs] at hkeeps hremains
      cases hremains
      exact hkeeps
    | changed e =>
      rw [hs] at hkeeps hremains
      cases hremains
      exact hkeeps
    | resolved | dropped =>
      rw [hs] at hremains
      cases hremains

/-- A change that touches no constraint leaves the store as it is. -/
theorem ends_changeAll_of_unchanged {change : Constraint → Settled}
    (hf : f.store.feasible = true) (hc : ∀ c ∈ f.store.constraints, change c = .unchanged) :
    Ends (changeAll change) f fun _ g => g.store = f.store := by
  have hfind : f.store.constraints.find? (fun c => (change c).isFalse) = none := by
    refine List.find?_eq_none.2 fun c hmem hfalse => ?_
    rw [hc c hmem] at hfalse
    cases hfalse
  have hall : f.store.constraints.all (fun c => (change c).isUnchanged) = true := by
    refine List.all_eq_true.2 fun c hmem => ?_
    rw [hc c hmem]
    rfl
  unfold changeAll
  rw [ends_bind]
  refine ends_requireFeasible hf ?_
  rw [ends_bind, ends_store]
  simp only [ends_bind]
  refine ends_debugAll fun g hg => ?_
  rw [hfind]
  dsimp only
  rw [hall]
  exact ends_pure.2 hg

/-- Changing the only constraint of a store. -/
theorem ends_changeAll_single {change : Constraint → Settled} {c : Constraint}
    (hf : f.store.feasible = true) (hc : f.store.constraints = [c])
    (hfalse : (change c).isFalse = false) :
    Ends (changeAll change) f fun _ g =>
      g.store.feasible = true ∧ g.store.constraints = ((change c).remains c).toList := by
  unfold changeAll
  rw [ends_bind]
  refine ends_requireFeasible hf ?_
  rw [ends_bind, ends_store]
  simp only [ends_bind]
  refine ends_debugAll fun g hg => ?_
  simp only [hc, List.find?_cons, hfalse, List.find?_nil, List.all_cons, List.all_nil,
    Bool.and_true]
  split
  · rename_i hsame
    refine ends_pure.2 ⟨hg ▸ hf, ?_⟩
    rw [hg, hc]
    cases hs : change c with
    | unchanged => rfl
    | changed | resolved | dropped =>
      rw [hs] at hsame
      cases hsame
  · simp only [setConstraints, ends_bind, ends_modifyStore, ends_pure]
    refine ⟨hg ▸ hf, ?_⟩
    cases hremains : (change c).remains c <;> rw [List.filterMap_cons, hremains] <;> rfl

/-- A change that makes a constraint false refutes the store. -/
theorem refutes_changeAll {change : Constraint → Settled} {c : Constraint}
    (hf : f.store.feasible = true) (hc : c ∈ f.store.constraints)
    (hfalse : (change c).isFalse = true) :
    ∃ d, Refutes (changeAll change) f (.contradiction d) := by
  have hfind : (f.store.constraints.find? fun c => (change c).isFalse).isSome = true :=
    List.find?_isSome.2 ⟨c, hc, hfalse⟩
  obtain ⟨d, hd⟩ := Option.isSome_iff_exists.1 hfind
  refine ⟨d, ?_⟩
  unfold changeAll
  refine Ends.refutes (ends_requireFeasible hf (Ends.refutes (ends_store.2 ?_)))
  refine Ends.refutes (ends_debugAll fun g _ => ?_)
  rw [hd]
  exact ⟨_, rfl⟩

/-- Replacing paths carries the store from one valuation to another. -/
theorem ends_replacePaths {V' : Valuation} {change : AccessPath → Replacement Term}
    (hV : V.SitesAreRefs) (hs : V'.Supports f.store)
    (hc : ∀ v, (Term.var v).Carries V V' (change v)) :
    Ends (changeAll (Constraint.replace (Term.replacePaths change))) f fun _ g =>
      V.Supports g.store :=
  ends_changeAll hs.feasible fun c hmem =>
    Constraint.keeps_replace hV (fun v _ => hc v) (hs.all c hmem) fun _ hd _ => hd

/-! ## 2. Forgetting constraints -/

/-- Exactly the constraints that do not satisfy the test are kept. -/
theorem ends_dropWhere_filter (test : Constraint → Bool) :
    Ends (dropWhere test) f fun _ g => g.store.feasible = f.store.feasible ∧
      g.store.constraints = f.store.constraints.filter (!test ·) := by
  unfold dropWhere
  rw [ends_bind, ends_store]
  simp only [ends_bind]
  refine ends_debugAll fun g hg => ?_
  split
  · simp only [setConstraints, ends_bind, ends_modifyStore, ends_pure]
    have hfeasible : g.store.feasible = f.store.feasible := by rw [hg]
    exact ⟨hfeasible, rfl⟩
  · rename_i hany
    rw [ends_pure, hg]
    refine ⟨rfl, (List.filter_eq_self.2 fun c hc => ?_).symm⟩
    rw [Bool.not_eq_true', Bool.eq_false_iff]
    exact fun htest => hany (List.any_eq_true.2 ⟨c, hc, htest⟩)

theorem ends_dropWhere {test : Constraint → Bool} (hf : f.store.feasible = true)
    (hc : ∀ c ∈ f.store.constraints, test c = false → K c) :
    Ends (dropWhere test) f fun _ g => g.store.Admits K := by
  refine (ends_dropWhere_filter test).mono fun _ g hg => ⟨hg.1.trans hf, fun c hmem => ?_⟩
  rw [hg.2] at hmem
  obtain ⟨hmem, htest⟩ := List.mem_filter.1 hmem
  exact hc c hmem (by simpa using htest)

theorem ends_dropWhere_of_none {test : Constraint → Bool}
    (hc : ∀ c ∈ f.store.constraints, test c = false) :
    Ends (dropWhere test) f fun _ g => g.store = f.store := by
  have hany : f.store.constraints.any test = false := by
    refine List.any_eq_false.2 fun c hmem htest => ?_
    rw [hc c hmem] at htest
    cases htest
  unfold dropWhere
  rw [ends_bind, ends_store]
  simp only [ends_bind]
  refine ends_debugAll fun g hg => ?_
  rw [hany]
  exact ends_pure.2 hg

/-- An operation for constraints on `p` may assume that there are any. -/
theorem ends_whenRelevant {x : PathM Bool} (hf : f.store.feasible = true)
    (hx : Ends x f fun _ g => V.Supports g.store)
    (hc : ∀ c ∈ f.store.constraints, c.mentions p = false → c.Holds V) :
    Ends (whenRelevant p x) f fun _ g => V.Supports g.store := by
  unfold whenRelevant
  rw [ends_bind, ends_store]
  split
  · rw [ends_bind]
    exact hx.mono fun _ g hg => ends_pure.2 hg
  · rename_i hrelevant
    refine ends_pure.2 ⟨hf, fun c hmem => ?_⟩
    refine hc c hmem (Bool.eq_false_iff.2 fun hmentions => hrelevant ?_)
    rw [PathStore.isRelevant_eq_any]
    exact List.any_eq_true.2 ⟨c, hmem, hmentions⟩

theorem ends_dropMentioning_filter (p : Pointer) :
    Ends (dropMentioning p) f fun _ g => g.store.feasible = f.store.feasible ∧
      g.store.constraints = f.store.constraints.filter (!·.mentions p) := by
  unfold dropMentioning
  rw [ends_bind, ends_store]
  split
  · rename_i hrelevant
    rw [ends_pure]
    refine ⟨rfl, (List.filter_eq_self.2 fun c hc => ?_).symm⟩
    rw [Bool.not_eq_true', Bool.eq_false_iff]
    intro hmentions
    rw [PathStore.isRelevant_eq_any, List.any_eq_true.2 ⟨c, hc, hmentions⟩] at hrelevant
    cases hrelevant
  · exact ends_dropWhere_filter _

theorem ends_dropMentioning (hf : f.store.feasible = true)
    (hc : ∀ c ∈ f.store.constraints, c.mentions p = false → c.Holds V) :
    Ends (dropMentioning p) f fun _ g => V.Supports g.store := by
  refine (ends_dropMentioning_filter p).mono fun _ g hg => ⟨hg.1.trans hf, fun c hmem => ?_⟩
  rw [hg.2] at hmem
  obtain ⟨hmem, hmentions⟩ := List.mem_filter.1 hmem
  exact hc c hmem (by simpa using hmentions)

/-! ## 3. Adding constraints -/

/-- A constraint can be added if deciding it keeps what is known of the others. -/
theorem ends_add_of_keeps {c : Constraint} (hs : f.store.Admits K) (hc : c.Keeps K c.settle) :
    Ends (add c) f fun _ g => g.store.Admits K := by
  unfold add
  rw [ends_bind]
  refine ends_requireFeasible hs.feasible ?_
  cases hsettle : c.settle with
  | unchanged => exact ends_pure.2 hs
  | resolved value =>
    rw [hsettle] at hc
    obtain rfl : value = true := hc
    exact ends_pure.2 hs
  | dropped => exact ends_debug.2 hs
  | changed d =>
    rw [hsettle] at hc
    simp only [ends_bind, ends_store]
    split
    · exact ends_pure.2 hs
    · simp only [ends_options, ends_bind]
      split
      · exact (ends_iff_of_eq rfl).2 hs
      · simp only [ends_bind, ends_debug, setConstraints, ends_modifyStore]
        refine ⟨hs.feasible, fun e hmem => ?_⟩
        obtain hmem | hmem := List.mem_append.1 hmem
        · exact hs.all e hmem
        · rw [List.mem_singleton.1 hmem]
          exact hc

/-- A constraint that holds can be required, with what is known of it. -/
theorem ends_require_of_holds {l r : Term} {op : CmpOp} (hV : V.SitesAreRefs)
    (hs : f.store.Admits K) (hc : ∀ n, Constraint.Holds V ⟨l, op, r, n⟩)
    (hK : ∀ n, K ⟨l, op, r, n⟩) : Ends (require l op r) f fun _ g => g.store.Admits K := by
  unfold require
  rw [ends_bind]
  exact (ends_iff_of_eq rfl).2 (ends_add_of_keeps hs (Constraint.keeps_settle hV (hc _) (hK _)))

theorem ends_require {l r : Term} {op : CmpOp} (hV : V.SitesAreRefs) (hs : V.Supports f.store)
    (hc : ∀ n, Constraint.Holds V ⟨l, op, r, n⟩) :
    Ends (require l op r) f fun _ g => V.Supports g.store :=
  ends_require_of_holds hV hs hc hc

/-! ## 4. Splitting -/

theorem safe_requireFeasible : Safe requireFeasible := by
  unfold requireFeasible
  refine safe_store.bind fun s => ?_
  split
  · exact safe_halt
  · exact safe_pure

theorem safe_refute {α : Type} {r : Refutation} : Safe (refute r : PathM α) :=
  safe_session.bind fun _ => safe_modifyStore.bind fun _ => safe_halt

/-- Adding a constraint never ends in a fault. -/
theorem safe_add (c : Constraint) : Safe (add c) := by
  unfold add
  refine safe_requireFeasible.bind fun _ => ?_
  split
  · exact safe_pure
  · exact safe_pure
  · exact safe_refute
  · exact safe_session
  · refine safe_store.bind fun s => ?_
    dsimp only
    split
    · exact safe_pure
    · refine safe_options.bind fun o => ?_
      split
      · exact safe_session
      · exact safe_session.bind fun _ => safe_modifyStore

theorem safe_require (l : Term) (op : CmpOp) (r : Term) : Safe (require l op r) :=
  safe_session.bind fun c => safe_add c

/-- A case with `P` is among those that survive. -/
theorem ends_attemptAll {P : PathStore → Prop} {branches : List (PathM Unit × PathStore)}
    {cases : Survivors PathStore} (hsafe : ∀ b ∈ branches, Safe b.1)
    (hgood : (∃ t ∈ cases.live, P t) ∨
      ∃ b ∈ branches, ∀ session, Ends b.1 ⟨b.2, session⟩ fun _ g => P g.store) :
    Ends (attemptAll branches cases) f fun cases _ => ∃ t ∈ cases.live, P t := by
  induction branches generalizing f cases with
  | nil =>
    refine ends_pure.2 (hgood.resolve_right ?_)
    rintro ⟨b, hb, -⟩
    cases hb
  | cons b rest ih =>
    have hrest : ∀ b ∈ rest, Safe b.1 := fun b hb => hsafe b (List.mem_cons_of_mem _ hb)
    unfold attemptAll
    rw [ends_bind]
    by_cases hb : ∀ session, Ends b.1 ⟨b.2, session⟩ fun _ g => P g.store
    · -- this branch survives, whatever becomes of the others
      refine (ends_attempt (hb f.session)).mono fun outcome g hg => ih hrest (.inl ?_)
      obtain ⟨_, g', rfl, -, hs⟩ := hg
      exact ⟨g'.store, List.mem_append_right _ (List.mem_singleton.2 rfl), hs⟩
    · refine (hsafe b List.mem_cons_self).attempt.mono fun outcome g _ => ih hrest ?_
      obtain ⟨t, ht, hs⟩ | ⟨b', hb', hends⟩ := hgood
      · refine .inl ⟨t, ?_, hs⟩
        cases outcome with
        | error r => exact ht
        | ok out => exact List.mem_append_left _ ht
      · obtain rfl | hb' := List.mem_cons.1 hb'
        · exact absurd hends hb
        · exact .inr ⟨b', hb', hends⟩

/-- One value of the switch is the right one. -/
theorem ends_split {t : Term} {values : List Int64} {v : Int64} (hV : V.SitesAreRefs)
    (hs : V.Supports f.store) (hv : v ∈ values)
    (hc : ∀ n, Constraint.Holds V ⟨t, .eq, .const v, n⟩) :
    Ends (split t values) f fun rest g => ∃ t ∈ g.store :: rest, V.Supports t := by
  unfold split
  rw [ends_bind, ends_store, ends_bind]
  refine (ends_attemptAll ?_ (.inr ?_)).mono fun cases g hg => ends_commit hg
  · intro b hb
    obtain ⟨v, -, rfl⟩ := List.mem_map.1 hb
    exact safe_require _ _ _
  · exact ⟨_, List.mem_map.2 ⟨v, hv, rfl⟩, fun session => ends_require hV hs hc⟩

theorem ends_exclude {t : Term} {values : List Int64} (hV : V.SitesAreRefs)
    (hs : V.Supports f.store) (hc : ∀ v ∈ values, ∀ n, Constraint.Holds V ⟨t, .ne, .const v, n⟩) :
    Ends (exclude t values) f fun _ g => V.Supports g.store := by
  induction values generalizing f with
  | nil => exact ends_pure.2 hs
  | cons v rest ih =>
    unfold exclude
    rw [ends_bind]
    refine (ends_require hV hs (hc v List.mem_cons_self)).mono fun _ g hg => ?_
    exact ih hg fun v' hv' => hc v' (List.mem_cons_of_mem _ hv')

end PathM

end Refuter
