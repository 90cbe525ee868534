import Refuter.PathStore.Calls
import Refuter.Proofs.Path.Transfer
import Mathlib.Tactic.ByContra

/-!
# Formals become actuals one after the other

When a callee starts, all its formals hold the values of their actuals at once. Leaving it from
behind replaces each formal by its actual in turn. The two agree as long as no later replacement
touches an actual that was just put in. Actuals are locals of the caller, so only a method that
calls itself can pass one of its formals for another one.
-/

namespace Refuter

open StoreM

/-! ## 1. Values when the callee starts -/

namespace Valuation

/-- Under `V'` the pointer holds what the operand stands for under `V`. -/
def Passes (V V' : Valuation) (m : MethodId) (p : Pointer) : Operand → Prop
  | .slot l => ∀ fields, V' ⟨p, fields⟩ = V ⟨.slot m l, fields⟩
  | .const v => V' ⟨p, []⟩ = some (.int v.toInt)
  | .null => V' ⟨p, []⟩ = some (.int 0)

/-- Every formal of the callee holds the value of its own actual, and everything else is as in the
caller. -/
structure Enters (V : Valuation) (caller callee : MethodId) (bindings : List (Local × Operand))
    (V' : Valuation) : Prop where
  formal : ∀ b ∈ bindings, V.Passes V' caller (.slot callee b.1) b.2
  other : ∀ v : AccessPath, (∀ b ∈ bindings, v.base ≠ .slot callee b.1) → V' v = V v

/-- The values of `V'` for the formals of `bindings`, and those of `V` for everything else. -/
def onFormals (V : Valuation) (callee : MethodId) (bindings : List (Local × Operand))
    (V' : Valuation) : Valuation := fun v =>
  if ∃ b ∈ bindings, v.base = .slot callee b.1 then V' v else V v

variable {V V' : Valuation} {caller callee : MethodId} {bindings : List (Local × Operand)}

theorem Enters.eq_onFormals (h : V.Enters caller callee bindings V') :
    V' = V.onFormals callee bindings V' := by
  funext v
  unfold onFormals
  split
  · rfl
  · rename_i hnone
    exact h.other v fun b hb heq => hnone ⟨b, hb, heq⟩

theorem onFormals_nil : V.onFormals callee [] V' = V := by
  funext v
  unfold onFormals
  rw [if_neg]
  rintro ⟨b, hb, -⟩
  cases hb

theorem sitesAreRefs_onFormals (hV : V.SitesAreRefs) :
    (V.onFormals callee bindings V').SitesAreRefs := by
  intro v hv
  unfold onFormals
  rw [if_neg]
  · exact hV v hv
  · rintro ⟨b, -, hb⟩
    unfold AccessPath.isSite at hv
    rw [hb, Bool.and_eq_true] at hv
    cases hv.2

theorem onFormals_cons {a : Local × Operand} {v : AccessPath} :
    V.onFormals callee (a :: bindings) V' v =
      if v.base = .slot callee a.1 then V' v else V.onFormals callee bindings V' v := by
  unfold onFormals
  by_cases ha : v.base = .slot callee a.1
  · rw [if_pos ha, if_pos ⟨a, List.mem_cons_self, ha⟩]
  · have hiff : (∃ b ∈ a :: bindings, v.base = .slot callee b.1) ↔
        ∃ b ∈ bindings, v.base = .slot callee b.1 := by simp [ha]
    simp only [if_neg ha, hiff]

/-- A local that no formal hides, unless the formal is passed to itself, has its value in the
caller. -/
theorem onFormals_slot {l : Local} (fields : List Field)
    (hpass : ∀ b ∈ bindings, V.Passes V' caller (.slot callee b.1) b.2)
    (hclear : ∀ b ∈ bindings, caller = callee → l = b.1 → b.2 = .slot b.1) :
    V.onFormals callee bindings V' ⟨.slot caller l, fields⟩ = V ⟨.slot caller l, fields⟩ := by
  unfold onFormals
  split
  · rename_i hb
    obtain ⟨b, hb, heq⟩ := hb
    cases heq
    have hself := hpass b hb
    rw [hclear b hb rfl rfl] at hself
    exact hself fields
  · rfl

/-- The first formal takes the value of its actual, if no later formal hides the actual. -/
theorem copies_onFormals {a : Local × Operand}
    (ha : V.Passes V' caller (.slot callee a.1) a.2)
    (hpass : ∀ b ∈ bindings, V.Passes V' caller (.slot callee b.1) b.2)
    (hclear : ∀ b ∈ bindings, caller = callee → a.2 = .slot b.1 → b.2 = .slot b.1) :
    (V.onFormals callee bindings V').Copies (V.onFormals callee (a :: bindings) V') caller
      (.slot callee a.1) a.2 := by
  obtain ⟨formal, actual⟩ := a
  have hupdates : (V.onFormals callee bindings V').Updates
      (V.onFormals callee ((formal, actual) :: bindings) V') (.slot callee formal)
      fun fields => V' ⟨.slot callee formal, fields⟩ := by
    rintro ⟨base, fields⟩
    rw [onFormals_cons]
    by_cases hbase : base = .slot callee formal
    · rw [if_pos hbase, if_pos hbase, hbase]
    · rw [if_neg hbase, if_neg hbase]
  cases actual with
  | slot l =>
    intro v
    rw [hupdates v]
    split
    · refine (ha v.fields).trans (onFormals_slot v.fields hpass fun b hb hmethod hl => ?_).symm
      exact hclear b hb hmethod (congrArg Operand.slot hl)
    · rfl
  | const | null => exact ⟨fun fields => V' ⟨.slot callee formal, fields⟩, ha, hupdates⟩

end Valuation

/-! ## 2. Leaving the callee -/

namespace PathM

variable {V V' : Valuation} {f : Frame PathStore} {caller : Site} {callee : MethodId}

/-- Replacing the formals in turn is sound if no actual of an earlier formal is a later formal
that is passed something else. -/
theorem ends_bindFormals {bindings : List (Local × Operand)} (hV : V.SitesAreRefs)
    (hpass : ∀ b ∈ bindings, V.Passes V' caller.method (.slot callee b.1) b.2)
    (hclear : bindings.Pairwise fun a b =>
      caller.method = callee → a.2 = .slot b.1 → b.2 = .slot b.1)
    (hs : (V.onFormals callee bindings V').Supports f.store) :
    Ends (bindFormals caller callee bindings) f fun _ g => V.Supports g.store := by
  induction bindings generalizing f with
  | nil =>
    rw [Valuation.onFormals_nil] at hs
    exact ends_pure.2 hs
  | cons a rest ih =>
    obtain ⟨ha, hrest⟩ := List.pairwise_cons.1 hclear
    have hcopies := Valuation.copies_onFormals (hpass a List.mem_cons_self)
      (fun b hb => hpass b (List.mem_cons_of_mem _ hb)) ha
    unfold bindFormals
    rw [ends_bind]
    refine (ends_substitute_of_copies (Valuation.sitesAreRefs_onFormals hV) hs hcopies).mono
      fun _ g hg => ?_
    exact ih (fun b hb => hpass b (List.mem_cons_of_mem _ hb)) hrest hg

end PathM

/-- If the constraints hold when every formal holds the value of its own actual, then leaving the
callee ends, and the constraints that remain hold in the caller. -/
def ReturnSound (target : Option Local) (callee : Method) (args : List Operand) (caller : Site) :
    Prop :=
  ∀ (V V' : Valuation) (f : Frame PathStore), V.SitesAreRefs →
    V.Enters caller.method callee.id (callee.params.zip args) V' →
    f.store.feasible = true → V'.Satisfies f.store →
    Ends (PathM.returnToCaller (.invoke target callee args) caller) f fun _ g =>
      V.Satisfies g.store

/-! ## 3. One constraint on a formal -/

/-- What becomes of a local when the formals are replaced in turn. -/
def boundInTurn : List (Local × Operand) → Local → Operand
  | [], l => .slot l
  | (formal, actual) :: rest, l =>
    if l = formal then
      match actual with
      | .slot l => boundInTurn rest l
      | actual => actual
    else boundInTurn rest l

section

variable {bindings : List (Local × Operand)}

theorem boundInTurn_of_not_mem {l : Local} (hl : ∀ b ∈ bindings, b.1 ≠ l) :
    boundInTurn bindings l = .slot l := by
  induction bindings with
  | nil => rfl
  | cons b rest ih =>
    unfold boundInTurn
    rw [if_neg fun h => hl b List.mem_cons_self h.symm]
    exact ih fun b hb => hl b (List.mem_cons_of_mem _ hb)

/-- If no later formal hides an earlier actual, each formal becomes its own actual. -/
theorem boundInTurn_of_mem {b : Local × Operand} (hnodup : (bindings.map Prod.fst).Nodup)
    (hclear : bindings.Pairwise fun a b => a.2 = .slot b.1 → b.2 = .slot b.1)
    (hb : b ∈ bindings) : boundInTurn bindings b.1 = b.2 := by
  induction bindings generalizing b with
  | nil => cases hb
  | cons a rest ih =>
    obtain ⟨ha, hrest⟩ := List.pairwise_cons.1 hclear
    obtain ⟨hfresh, hdistinct⟩ := List.nodup_cons.1 hnodup
    obtain ⟨formal, actual⟩ := a
    unfold boundInTurn
    rcases List.mem_cons.1 hb with rfl | hb
    · rw [if_pos rfl]
      cases actual with
      | slot l =>
        by_cases hl : ∃ c ∈ rest, c.1 = l
        · obtain ⟨c, hc, rfl⟩ := hl
          exact (ih hdistinct hrest hc).trans (ha c hc rfl)
        · exact boundInTurn_of_not_mem fun c hc heq => hl ⟨c, hc, heq⟩
      | const | null => rfl
    · rw [if_neg]
      · exact ih hdistinct hrest hb
      · rintro heq
        exact hfresh (heq ▸ List.mem_map.2 ⟨b, hb, rfl⟩)

/-- If a later formal hides an earlier actual, some formal does not become its own actual. -/
theorem exists_boundInTurn_ne (hnodup : (bindings.map Prod.fst).Nodup)
    (hclear : ¬ bindings.Pairwise fun a b => a.2 = .slot b.1 → b.2 = .slot b.1) :
    ∃ formal l, (formal, Operand.slot l) ∈ bindings ∧ boundInTurn bindings formal ≠ .slot l := by
  induction bindings with
  | nil => exact absurd List.Pairwise.nil hclear
  | cons a rest ih =>
    obtain ⟨hfresh, hdistinct⟩ := List.nodup_cons.1 hnodup
    by_cases hrest : rest.Pairwise fun a b => a.2 = .slot b.1 → b.2 = .slot b.1
    · -- the others are in order, so the first actual is hidden
      have hhidden : ∃ b ∈ rest, a.2 = .slot b.1 ∧ b.2 ≠ .slot b.1 := by
        by_contra hnone
        refine hclear (List.pairwise_cons.2 ⟨fun b hb hactual => ?_, hrest⟩)
        by_contra hne
        exact hnone ⟨b, hb, hactual, hne⟩
      obtain ⟨b, hb, hactual, hne⟩ := hhidden
      obtain ⟨formal, actual⟩ := a
      cases hactual
      refine ⟨formal, b.1, List.mem_cons_self, ?_⟩
      unfold boundInTurn
      rw [if_pos rfl]
      dsimp only
      rw [boundInTurn_of_mem hdistinct hrest hb]
      exact hne
    · obtain ⟨formal, l, hmem, hne⟩ := ih hdistinct hrest
      refine ⟨formal, l, List.mem_cons_of_mem _ hmem, ?_⟩
      unfold boundInTurn
      rwa [if_neg]
      rintro rfl
      exact hfresh (List.mem_map.2 ⟨_, hmem, rfl⟩)

end

namespace PathM

variable {V : Valuation} {f : Frame PathStore} {caller : Site} {callee : MethodId} {l : Local}
  {k : Int64} {id : ConstraintId}

/-- The constraint that a local of the callee equals a constant. -/
def equation (callee : MethodId) (l : Local) (k : Int64) (id : ConstraintId) : Constraint :=
  ⟨.bare (.slot callee l), .eq, .const k, id⟩

theorem replace_equation {t : Term} :
    Constraint.replace (Term.substitute t ⟨.slot callee l, []⟩) (equation callee l k id) =
      Constraint.settle ⟨t, .eq, .const k, id⟩ := by
  have hleft : Term.substitute t ⟨.slot callee l, []⟩ (.bare (.slot callee l)) = .changed t := by
    cases t <;> simp [Term.substitute, Term.bare, Term.replacePaths, AccessPath.restAfter?,
      fieldsAfter?, Term.extendBare]
  unfold Constraint.replace equation
  rw [hleft]
  rfl

theorem replace_equation_of_ne {t : Term} {formal : Local} (hne : l ≠ formal) :
    Constraint.replace (Term.substitute t ⟨.slot callee formal, []⟩) (equation callee l k id) =
      .unchanged := by
  refine Constraint.replace_eq_unchanged fun v hv => ?_
  obtain rfl : v = ⟨.slot callee l, []⟩ := List.mem_singleton.1 hv
  have hbase : ¬ Pointer.slot callee l = .slot callee formal := fun h => hne (by cases h; rfl)
  simp [AccessPath.restAfter?, hbase]

/-- A constant for the local must be the one that is asked for. -/
theorem toInt_eq_of_ends_substitute {v : Int64} {Q : Bool → Frame PathStore → Prop}
    (hf : f.store.feasible = true) (hc : f.store.constraints = [equation callee l k id])
    (hends : Ends (substitute (.const v) ⟨.slot callee l, []⟩) f Q) : v.toInt = k.toInt := by
  by_contra hne
  have hfalse : (Constraint.replace (Term.substitute (.const v) ⟨.slot callee l, []⟩)
      (equation callee l k id)).isFalse = true := by
    have hsettle : Constraint.settle ⟨.const v, .eq, .const k, id⟩ =
        .resolved (decide (v.toInt = k.toInt)) := rfl
    rw [replace_equation, hsettle, decide_eq_false hne]
    rfl
  obtain ⟨d, hrefutes⟩ := refutes_changeAll hf (hc ▸ List.mem_cons_self) hfalse
  exact hrefutes.not_ends hends

/-- Where the formals are replaced in turn, the constraint on a local becomes one on what the local
is bound to in turn. -/
theorem operand_of_ends_bindFormals {bindings : List (Local × Operand)}
    (hmethod : caller.method = callee) (hf : f.store.feasible = true)
    (hc : f.store.constraints = [equation callee l k id])
    (hends : Ends (bindFormals caller callee bindings) f fun _ g => V.Satisfies g.store) :
    V.operand callee (boundInTurn bindings l) = some (.int k.toInt) := by
  induction bindings generalizing f l with
  | nil =>
    obtain ⟨a, b, ha, hb, htruth⟩ := ends_pure.1 hends _ (hc ▸ List.mem_cons_self)
    cases hb
    obtain rfl : a = .int k.toInt := of_decide_eq_true (Option.some.inj htruth)
    exact ha
  | cons b rest ih =>
    obtain ⟨formal, actual⟩ := b
    unfold bindFormals at hends
    rw [ends_bind] at hends
    have hsub := hends
    obtain ⟨changed, g, hrun, hrest⟩ := hsub
    -- the store after this formal was replaced
    have hg : ∀ {Q : Bool → Frame PathStore → Prop},
        Ends (substitute (actual.term caller) ⟨.slot callee formal, []⟩) f Q → Q changed g :=
      fun h => (ends_iff_of_eq hrun).1 h
    unfold boundInTurn
    by_cases hl : l = formal
    · subst hl
      rw [if_pos rfl]
      cases actual with
      | slot l' =>
        have hchange : Constraint.replace
            (Term.substitute (Operand.term caller (.slot l')) ⟨.slot callee l, []⟩)
            (equation callee l k id) = .changed (equation callee l' k id) := by
          rw [replace_equation, ← hmethod]
          rfl
        obtain ⟨hfeasible, hconstraints⟩ :=
          hg (ends_changeAll_single hf hc (by rw [hchange]; rfl))
        rw [hchange] at hconstraints
        exact ih hfeasible hconstraints hrest
      | const v =>
        exact congrArg (some ∘ Value.int) (toInt_eq_of_ends_substitute hf hc hends)
      | null =>
        exact congrArg (some ∘ Value.int) (toInt_eq_of_ends_substitute hf hc hends)
    · rw [if_neg hl]
      have hsame := hg (ends_changeAll_of_unchanged hf fun c hmem => by
        rw [hc, List.mem_singleton] at hmem
        rw [hmem]
        exact replace_equation_of_ne hl)
      exact ih (hsame ▸ hf) (hsame ▸ hc) hrest

theorem initialValues_of_normal {callee : Method} (hkind : callee.kind = .normal) :
    initialValues callee = pure () := by
  unfold initialValues
  rw [hkind]

/-- Leaving a plain method replaces its formals, and then forgets its frame. -/
theorem ends_returnToCaller_iff {target : Option Local} {callee : Method} {args : List Operand}
    {Q : Frame PathStore → Prop} (hkind : callee.kind = .normal) :
    Ends (returnToCaller (.invoke target callee args) caller) f (fun _ => Q) ↔
      Ends (bindFormals caller callee.id (callee.params.zip args)) f fun _ g =>
        if caller.method = callee.id then Q g
        else Ends (dropWhere fun c => c.paths.any fun v => v.base.method? = some callee.id) g
          fun _ => Q := by
  have hcall : (callOf .returnToCaller (.invoke target callee args) : PathM _) f =
    .ok (target, callee, args) f := rfl
  unfold returnToCaller
  rw [ends_bind, ends_iff_of_eq hcall]
  dsimp only
  rw [initialValues_of_normal hkind, ends_bind, ends_pure, ends_bind]
  by_cases hmethod : caller.method = callee.id
  · simp only [hmethod, ne_eq, not_true_eq_false, if_false, if_true, ends_pure]
  · simp only [hmethod, ne_eq, not_false_eq_true, if_true, if_false, ends_bind, ends_pure]

end PathM

/-! ## 4. Exactly when leaving is sound -/

namespace Valuation

/-- Values of the chains through an operand in the frame of `m`. -/
def through (V : Valuation) (m : MethodId) : Operand → List Field → Option Value
  | .slot l, fields => V ⟨.slot m l, fields⟩
  | v, _ => V.operand m v

/-- For distinct formals there are values that agree with all actuals. -/
theorem exists_enters {bindings : List (Local × Operand)}
    (hnodup : (bindings.map Prod.fst).Nodup) (caller callee : MethodId) (V : Valuation) :
    ∃ V', V.Enters caller callee bindings V' := by
  induction bindings with
  | nil => exact ⟨V, fun b hb => absurd hb List.not_mem_nil, fun _ _ => rfl⟩
  | cons a rest ih =>
    obtain ⟨hfresh, hdistinct⟩ := List.nodup_cons.1 hnodup
    obtain ⟨W, hW⟩ := ih hdistinct
    let V' : Valuation := fun v =>
      if v.base = .slot callee a.1 then V.through caller a.2 v.fields else W v
    have hfirst : ∀ fields, V' ⟨.slot callee a.1, fields⟩ = V.through caller a.2 fields :=
      fun fields => if_pos rfl
    refine ⟨V', fun b hb => ?_, fun v hv => ?_⟩
    · rcases List.mem_cons.1 hb with rfl | hb
      · obtain ⟨formal, actual⟩ := b
        cases actual with
        | slot l => exact hfirst
        | const | null => exact hfirst []
      · have hne : ¬ Pointer.slot callee b.1 = .slot callee a.1 := fun h =>
          hfresh (List.mem_map.2 ⟨b, hb, (Location.slot.inj (Pointer.known.inj h)).2⟩)
        have hsame : ∀ fields, V' ⟨.slot callee b.1, fields⟩ = W ⟨.slot callee b.1, fields⟩ :=
          fun fields => if_neg hne
        have hb := hW.formal b hb
        obtain ⟨formal, actual⟩ := b
        cases actual with
        | slot l => exact fun fields => (hsame fields).trans (hb fields)
        | const | null => exact (hsame []).trans hb
    · have hbase : V' v = W v := if_neg (hv a List.mem_cons_self)
      exact hbase.trans (hW.other v fun b hb => hv b (List.mem_cons_of_mem _ hb))

end Valuation

namespace HiddenActual

/-- A number that the operand is not, if it is a constant. -/
def other (v : Operand) : Int64 := if v = .const 1 then 2 else 1

/-- All locals are zero but one. -/
def values (m : MethodId) (l : Local) (k : Int64) : Valuation := fun v =>
  if v = ⟨.slot m l, []⟩ then some (.int k.toInt)
  else if v.isSite then some (.ref 0) else some (.int 0)

variable {m : MethodId} {l : Local} {k : Int64}

theorem sitesAreRefs_values : (values m l k).SitesAreRefs := by
  intro v hv
  unfold values
  rw [if_neg, if_pos hv]
  · exact ⟨0, rfl⟩
  · rintro rfl
    cases hv

theorem operand_values_ne {v : Operand} (hv : v ≠ .slot l) :
    (values m l (other v)).operand m v ≠ some (.int (other v).toInt) := by
  intro h
  cases v with
  | slot l' =>
    have hpath : (⟨.slot m l', []⟩ : AccessPath) ≠ ⟨.slot m l, []⟩ := fun heq =>
      hv (congrArg Operand.slot (Location.slot.inj (Pointer.known.inj (AccessPath.mk.inj heq).1)).2)
    have hzero : (values m l (other (.slot l'))).operand m (.slot l') = some (.int 0) :=
      if_neg hpath
    rw [hzero] at h
    cases h
  | const v =>
    have heq : v = other (.const v) := Int64.toInt_inj.1 (Value.int.inj (Option.some.inj h))
    by_cases hone : v = 1
    · subst hone
      exact absurd heq (by decide)
    · exact hone (heq.trans (if_neg fun h => hone (Operand.const.inj h)))
  | null => cases h

/-- A store that asks for one value of a formal. -/
def frame (m : MethodId) (l : Local) (k : Int64) : Frame PathStore :=
  ⟨{ constraints := [PathM.equation m l k ⟨0⟩] }, {}⟩

theorem satisfies_frame {V : Valuation} (hV : V ⟨.slot m l, []⟩ = some (.int k.toInt)) :
    V.Satisfies (frame m l k).store := by
  intro c hc
  rw [List.mem_singleton.1 hc]
  exact ⟨_, _, hV, rfl, congrArg some (decide_eq_true rfl)⟩

end HiddenActual

/-- Leaving a plain method is sound exactly if no actual of a formal is a later formal of the same
frame, unless that one is passed to itself. So it is always sound for a caller other than the
method itself. -/
theorem returnSound_iff (target : Option Local) {callee : Method} (args : List Operand)
    (caller : Site) (hkind : callee.kind = .normal) (hparams : callee.params.Nodup) :
    ReturnSound target callee args caller ↔ (callee.params.zip args).Pairwise fun a b =>
      caller.method = callee.id → a.2 = .slot b.1 → b.2 = .slot b.1 := by
  constructor
  · intro hsound
    by_contra hclear
    by_cases hmethod : caller.method = callee.id
    · have hnodup : ((callee.params.zip args).map Prod.fst).Nodup := by
        rw [List.zip_eq_zip_take_min, List.map_fst_zip (by simp)]
        exact hparams.sublist (List.take_sublist _ _)
      obtain ⟨formal, l, hmem, hne⟩ := exists_boundInTurn_ne hnodup fun h =>
        hclear (h.imp fun hab _ => hab)
      -- the constraint asks for what the actual is, and ends up on something else
      let k := HiddenActual.other (boundInTurn (callee.params.zip args) formal)
      obtain ⟨V', henters⟩ := Valuation.exists_enters hnodup caller.method callee.id
        (HiddenActual.values callee.id l k)
      have hformal : V' ⟨.slot callee.id formal, []⟩ = some (.int k.toInt) := by
        have hpass := henters.formal _ hmem []
        rw [hmethod] at hpass
        exact hpass.trans (if_pos rfl)
      have hends := hsound _ V' (HiddenActual.frame callee.id formal k)
        HiddenActual.sitesAreRefs_values henters rfl (HiddenActual.satisfies_frame hformal)
      rw [PathM.ends_returnToCaller_iff hkind] at hends
      simp only [if_pos hmethod] at hends
      have hoperand := PathM.operand_of_ends_bindFormals hmethod rfl rfl hends
      exact HiddenActual.operand_values_ne hne hoperand
    · exact hclear (List.pairwise_of_forall fun a b h => absurd h hmethod)
  · intro hclear V V' f hV henters hf hs
    rw [PathM.ends_returnToCaller_iff hkind]
    have hsupports : (V.onFormals callee.id (callee.params.zip args) V').Supports f.store := by
      rw [← henters.eq_onFormals]
      exact ⟨hf, hs⟩
    refine (PathM.ends_bindFormals hV henters.formal hclear hsupports).mono fun _ g hg => ?_
    split
    · exact hg.all
    · exact (PathM.ends_dropWhere hg.feasible fun c hc _ => hg.all c hc).mono
        fun _ g hg => hg.all

namespace SelfCall

def site : Site := ⟨⟨1⟩, false⟩

def method : Method := { id := ⟨1⟩, className := "A", name := "f", params := [1, 2] }

/-- An earlier formal may be passed for a later one. -/
theorem returnSound_shift : method.kind = .normal ∧ method.params.Nodup ∧
    ReturnSound none method [.slot 3, .slot 1] site :=
  ⟨rfl, by decide, (returnSound_iff none [.slot 3, .slot 1] site rfl (by decide)).2 (by decide)⟩

/-- The two locals of the method have these values. -/
def values (first second : Int) : Valuation := fun v =>
  if v.base = .slot ⟨1⟩ 1 then some (.int first)
  else if v.base = .slot ⟨1⟩ 2 then some (.int second) else some (.ref 0)

theorem enters_swap :
    (values 7 5).Enters site.method method.id [(1, .slot 2), (2, .slot 1)] (values 5 7) where
  formal b hb := by
    rcases List.mem_cons.1 hb with rfl | hb
    · exact fun fields => rfl
    · rw [List.mem_singleton.1 hb]
      exact fun fields => rfl
  other v hv := by
    have hfirst : v.base ≠ .slot ⟨1⟩ 1 := hv _ List.mem_cons_self
    have hsecond : v.base ≠ .slot ⟨1⟩ 2 := hv _ (List.mem_cons_of_mem _ List.mem_cons_self)
    simp only [values, if_neg hfirst, if_neg hsecond]

/-- A method passes its formals to itself in exchange. The constraint that the first one is 5 should
become one on local 2, but it ends up on local 1 again. -/
theorem returnToCaller_swap :
    (values 7 5).Enters site.method method.id (method.params.zip [.slot 2, .slot 1]) (values 5 7) ∧
    (values 5 7).Satisfies (HiddenActual.frame ⟨1⟩ 1 5).store ∧
    Ends (PathM.returnToCaller (.invoke none method [.slot 2, .slot 1]) site)
      (HiddenActual.frame ⟨1⟩ 1 5) fun _ g => ¬ (values 7 5).Satisfies g.store := by
  refine ⟨enters_swap, HiddenActual.satisfies_frame rfl, ?_⟩
  have hends : Ends (PathM.returnToCaller (.invoke none method [.slot 2, .slot 1]) site)
      (HiddenActual.frame ⟨1⟩ 1 5) fun _ g =>
        decide (g.store.constraints = [PathM.equation ⟨1⟩ 1 5 ⟨0⟩]) = true :=
    ends_of_endsWith (by decide +kernel)
  refine hends.mono fun _ g hg hs => ?_
  have hc : g.store.constraints = [PathM.equation ⟨1⟩ 1 5 ⟨0⟩] := of_decide_eq_true hg
  obtain ⟨a, b, ha, hb, htruth⟩ := hs _ (hc ▸ List.mem_cons_self)
  cases ha
  cases hb
  cases htruth

end SelfCall

end Refuter
