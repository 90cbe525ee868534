import Refuter.Constraint
import Refuter.Proofs.State

/-!
# Values of terms and constraints

A valuation gives access paths their values. Terms compute with 32 bit integers and a constraint
holds only if both of its sides have a value. Folding agrees with these values, and replacing
paths carries a constraint from one valuation to another.
-/

namespace Refuter

/-- Values of access paths; a path through null has none. -/
abbrev Valuation := AccessPath → Option Value

/-- A bare pointer to allocated objects is a reference. -/
def Valuation.SitesAreRefs (V : Valuation) : Prop := ∀ v, v.isSite = true → ∃ r, V v = some (.ref r)

/-! ## 1. Arithmetic -/

/-- The exact difference, or the exact result wrapped to 32 bits. There is no result for a zero
divisor. -/
def ArithOp.result (op : ArithOp) (a b : Int) : Option Int :=
  if op = .diff then some (a - b)
  else if b = 0 && op.isDivision then none
  else some ((op.exact a b).bmod wordSize)

/-- A wrapped result is a 64 bit integer. -/
theorem ArithOp.toInt_ofInt_bmod (n : Int) :
    (Int64.ofInt (n.bmod wordSize)).toInt = n.bmod wordSize := by
  have hlow : -((wordSize : Int) / 2) ≤ n.bmod wordSize := Int.le_bmod (by decide)
  have hhigh : n.bmod wordSize < ((wordSize : Int) + 1) / 2 := Int.bmod_lt (by decide)
  have hsize : (wordSize : Int) = 4294967296 := rfl
  rw [hsize] at hlow hhigh
  exact Int64.toInt_ofInt_of_le (by omega) (by omega)

/-- Folding gives the value of the operation. -/
theorem ArithOp.result_of_apply {op : ArithOp} {l r v : Int64} (h : op.apply l r = some v) :
    op.result l.toInt r.toInt = some v.toInt := by
  unfold ArithOp.apply at h
  unfold ArithOp.result
  dsimp only at h
  by_cases hdiff : op = .diff
  · rw [if_pos hdiff] at h ⊢
    split at h
    · rename_i hlong
      cases h
      unfold ArithOp.isLong at hlong
      simp only [Bool.and_eq_true, decide_eq_true_eq] at hlong
      rw [Int64.toInt_ofInt_of_le (by omega) (by omega)]
    · cases h
  · rw [if_neg hdiff] at h ⊢
    split at h
    · cases h
    · split at h
      · cases h
      · rename_i hzero
        cases h
        rw [if_neg hzero, ArithOp.toInt_ofInt_bmod]

/-! ## 2. Terms -/

namespace Term

/-- Value of a term. Arithmetic is on integers only. -/
def meaning (V : Valuation) : Term → Option Value
  | const v => some (.int v.toInt)
  | var v => V v
  | bin l op r =>
    match l.meaning V, r.meaning V with
    | some (.int a), some (.int b) => (op.result a b).map .int
    | _, _ => none

theorem meaning_bin {V : Valuation} {l r : Term} {op : ArithOp} {x : Value} :
    (bin l op r).meaning V = some x ↔ ∃ a b c, l.meaning V = some (.int a) ∧
      r.meaning V = some (.int b) ∧ op.result a b = some c ∧ x = .int c := by
  simp only [meaning]
  constructor
  · intro h
    split at h
    · rename_i a b ha hb
      obtain ⟨c, hc, rfl⟩ := Option.map_eq_some_iff.1 h
      exact ⟨a, b, c, ha, hb, hc, rfl⟩
    · cases h
  · rintro ⟨a, b, c, ha, hb, hc, rfl⟩
    rw [ha, hb]
    simp only [hc, Option.map_some]

/-- A term that folds has the folded value. -/
theorem meaning_of_evaluate {V : Valuation} {t : Term} {k : Int64} (h : t.evaluate = some k) :
    t.meaning V = some (.int k.toInt) := by
  induction t generalizing k with
  | const v =>
    cases h
    rfl
  | var v => cases h
  | bin l op r ihl ihr =>
    simp only [evaluate, Option.bind_eq_bind] at h
    obtain ⟨a, ha, h⟩ := Option.bind_eq_some_iff.1 h
    obtain ⟨b, hb, h⟩ := Option.bind_eq_some_iff.1 h
    exact meaning_bin.2 ⟨_, _, _, ihl ha, ihr hb, ArithOp.result_of_apply h, rfl⟩

/-- A term without variables is an integer if it has a value. -/
theorem int_of_isConstant {V : Valuation} {t : Term} {x : Value} (hc : t.isConstant = true)
    (h : t.meaning V = some x) : ∃ n, x = .int n := by
  cases t with
  | const v =>
    cases h
    exact ⟨_, rfl⟩
  | var v => cases hc
  | bin l op r =>
    obtain ⟨a, b, c, -, -, -, hx⟩ := meaning_bin.1 h
    exact ⟨c, hx⟩

/-- A bare pointer to allocated objects is a reference. -/
theorem ref_of_isSite {V : Valuation} {t : Term} {x : Value} (hV : V.SitesAreRefs)
    (hs : t.isSite = true) (h : t.meaning V = some x) : ∃ r, x = .ref r := by
  cases t with
  | const | bin => cases hs
  | var v =>
    obtain ⟨r, hr⟩ := hV v hs
    have hx : V v = some x := h
    rw [hr] at hx
    cases hx
    exact ⟨r, rfl⟩

/-- Only the paths of a term matter for its value. -/
theorem meaning_congr {V V' : Valuation} {t : Term} (h : ∀ v ∈ t.paths, V v = V' v) :
    t.meaning V = t.meaning V' := by
  induction t with
  | const v => rfl
  | var v => exact h v List.mem_cons_self
  | bin l op r ihl ihr =>
    have hl := ihl fun v hv => h v (List.mem_append_left _ hv)
    have hr := ihr fun v hv => h v (List.mem_append_right _ hv)
    simp only [meaning, hl, hr]

end Term

/-! ## 3. Constraints -/

/-- Truth of a comparison. References can be compared for equality only. -/
def CmpOp.truth (op : CmpOp) (a b : Value) : Option Bool :=
  match op, a, b with
  | .eq, a, b => some (a = b)
  | .ne, a, b => some (a ≠ b)
  | op, .int a, .int b => some (op.apply a b)
  | _, _, _ => none

theorem CmpOp.truth_int (op : CmpOp) (a b : Int) :
    op.truth (.int a) (.int b) = some (op.apply a b) := by
  cases op <;> simp [CmpOp.truth, CmpOp.apply]

theorem CmpOp.truth_negate (op : CmpOp) (a b : Value) :
    op.negate.truth a b = (op.truth a b).map not := by
  cases op <;> cases a <;> cases b <;> simp [CmpOp.truth, CmpOp.negate, CmpOp.apply] <;> grind

namespace Constraint

variable {V V' : Valuation} {c : Constraint}

/-- Both sides have a value and the comparison is true of them. -/
def Holds (V : Valuation) (c : Constraint) : Prop :=
  ∃ a b, c.lhs.meaning V = some a ∧ c.rhs.meaning V = some b ∧ c.op.truth a b = some true

theorem holds_congr (h : ∀ v ∈ c.paths, V v = V' v) : c.Holds V ↔ c.Holds V' := by
  unfold Holds
  rw [Term.meaning_congr fun v hv => h v (List.mem_append_left _ hv),
    Term.meaning_congr fun v hv => h v (List.mem_append_right _ hv)]

/-- The outcome of changing `c` is no refutation, and `K` is true of what stands for `c`
afterwards. -/
def Keeps (K : Constraint → Prop) (c : Constraint) : Settled → Prop
  | .unchanged => K c
  | .changed d => K d
  | .resolved value => value = true
  | .dropped => True

/-- A literal differs from an allocated object. -/
theorem op_eq_ne_of_isLiteralTest (hV : V.SitesAreRefs) (h : c.Holds V)
    (hc : c.isLiteralTest = true) : c.op = .ne := by
  obtain ⟨a, b, ha, hb, htruth⟩ := h
  have hne : a ≠ b := by
    unfold isLiteralTest at hc
    simp only [Bool.and_eq_true, Bool.or_eq_true] at hc
    obtain ⟨-, ⟨hl, hr⟩ | ⟨hl, hr⟩⟩ := hc
    · obtain ⟨n, rfl⟩ := Term.int_of_isConstant hl ha
      obtain ⟨r, rfl⟩ := Term.ref_of_isSite hV hr hb
      intro heq
      cases heq
    · obtain ⟨r, rfl⟩ := Term.ref_of_isSite hV hl ha
      obtain ⟨n, rfl⟩ := Term.int_of_isConstant hr hb
      intro heq
      cases heq
  unfold isLiteralTest at hc
  simp only [Bool.and_eq_true, Bool.or_eq_true, decide_eq_true_eq] at hc
  obtain heq | hne' := hc.1
  · rw [heq] at htruth
    simp only [CmpOp.truth, Option.some.injEq, decide_eq_true_eq] at htruth
    exact absurd htruth hne
  · exact hne'

/-- A constraint that holds is not decided false, whatever it replaces. -/
theorem keeps_settle {K : Constraint → Prop} {d : Constraint} (hV : V.SitesAreRefs)
    (h : c.Holds V) (hK : K c) : d.Keeps K c.settle := by
  unfold settle
  by_cases hc : c.isConstant = true
  · -- a constant constraint is decided, by folding both sides or as a literal against an object
    rw [if_pos hc]
    cases he : c.evaluate with
    | none => trivial
    | some value =>
      show value = true
      unfold evaluate at he
      split at he
      · obtain ⟨l, hl, he⟩ := Option.bind_eq_some_iff.1 he
        obtain ⟨r, hr, he⟩ := Option.bind_eq_some_iff.1 he
        obtain ⟨a, b, ha, hb, htruth⟩ := h
        rw [Term.meaning_of_evaluate hl] at ha
        rw [Term.meaning_of_evaluate hr] at hb
        cases ha
        cases hb
        rw [CmpOp.truth_int] at htruth
        cases he
        exact Option.some.inj htruth
      · split at he
        · rename_i hl
          cases he
          exact decide_eq_true (op_eq_ne_of_isLiteralTest hV h hl)
        · cases he
  · rw [if_neg hc]
    exact hK

end Constraint

/-! ## 4. Replacing paths -/

theorem Replacement.getD_both {α β : Type} {make : α → α → β} {l r : α} {l' r' : Replacement α}
    (h : Replacement.both make l l' r r' ≠ .unsupported) :
    l' ≠ .unsupported ∧ r' ≠ .unsupported ∧
      (Replacement.both make l l' r r').getD (make l r) = make (l'.getD l) (r'.getD r) := by
  cases l' <;> cases r' <;> simp_all [Replacement.both, Replacement.getD]

/-- What replaces `t` has under `V` the value that `t` has under `V'`. -/
def Term.Carries (V V' : Valuation) (t : Term) (r : Replacement Term) : Prop :=
  r ≠ .unsupported → ∀ x, t.meaning V' = some x → (r.getD t).meaning V = some x

/-- Replacing every path of a term by something of the same value keeps the value of the term. -/
theorem Term.carries_replacePaths {V V' : Valuation} {f : AccessPath → Replacement Term} {t : Term}
    (hf : ∀ v ∈ t.paths, (var v).Carries V V' (f v)) : t.Carries V V' (t.replacePaths f) := by
  induction t with
  | const v => exact fun _ x hx => hx
  | var v => exact hf v List.mem_cons_self
  | bin l op r ihl ihr =>
    intro hne x hx
    unfold replacePaths at hne ⊢
    obtain ⟨hl, hr, hgetD⟩ := Replacement.getD_both hne
    rw [hgetD]
    obtain ⟨a, b, c, ha, hb, hc, rfl⟩ := meaning_bin.1 hx
    have hl := ihl (fun v hv => hf v (List.mem_append_left _ hv)) hl _ ha
    have hr := ihr (fun v hv => hf v (List.mem_append_right _ hv)) hr _ hb
    exact meaning_bin.2 ⟨a, b, c, hl, hr, hc, rfl⟩

/-- A replaced term reads what the replacements of its paths read. -/
theorem Term.mem_paths_replacePaths {f : AccessPath → Replacement Term} {t : Term}
    {w : AccessPath} (ht : t.replacePaths f ≠ .unsupported)
    (hw : w ∈ ((t.replacePaths f).getD t).paths) :
    ∃ v ∈ t.paths, f v ≠ .unsupported ∧ w ∈ ((f v).getD (.var v)).paths := by
  induction t with
  | const v => cases hw
  | var v => exact ⟨v, List.mem_cons_self, ht, hw⟩
  | bin l op r ihl ihr =>
    unfold replacePaths at ht hw
    obtain ⟨hl, hr, hgetD⟩ := Replacement.getD_both ht
    rw [hgetD] at hw
    obtain hw | hw := List.mem_append.1 hw
    · obtain ⟨v, hv, hfv⟩ := ihl hl hw
      exact ⟨v, List.mem_append_left _ hv, hfv⟩
    · obtain ⟨v, hv, hfv⟩ := ihr hr hw
      exact ⟨v, List.mem_append_right _ hv, hfv⟩

theorem Replacement.both_eq_unchanged_iff {α β : Type} {make : α → α → β} {l r : α}
    {l' r' : Replacement α} :
    both make l l' r r' = .unchanged ↔ l' = .unchanged ∧ r' = .unchanged := by
  cases l' <;> cases r' <;> simp [both]

theorem Term.replacePaths_eq_unchanged_iff {f : AccessPath → Replacement Term} {t : Term} :
    t.replacePaths f = .unchanged ↔ ∀ v ∈ t.paths, f v = .unchanged := by
  induction t with
  | const v => simp [replacePaths, paths]
  | var v => simp [replacePaths, paths]
  | bin l op r ihl ihr =>
    rw [replacePaths, Replacement.both_eq_unchanged_iff, ihl, ihr]
    simp only [paths, List.forall_mem_append]

/-- A constraint none of whose paths is replaced stays as it is. -/
theorem Constraint.replace_eq_unchanged {f : AccessPath → Replacement Term} {c : Constraint}
    (hf : ∀ v ∈ c.paths, f v = .unchanged) :
    c.replace (Term.replacePaths f) = .unchanged := by
  unfold Constraint.replace
  rw [Term.replacePaths_eq_unchanged_iff.2 fun v hv => hf v (List.mem_append_left _ hv),
    Term.replacePaths_eq_unchanged_iff.2 fun v hv => hf v (List.mem_append_right _ hv)]
  rfl

/-- Replacing paths in a constraint that holds does not decide it false. What it becomes holds, and
reads what the replacements read. -/
theorem Constraint.keeps_replace {V V' : Valuation} {f : AccessPath → Replacement Term}
    {K : Constraint → Prop} {c : Constraint} (hV : V.SitesAreRefs)
    (hf : ∀ v ∈ c.paths, (Term.var v).Carries V V' (f v)) (h : c.Holds V')
    (hK : ∀ d : Constraint, d.Holds V →
      (∀ w ∈ d.paths, ∃ v ∈ c.paths, f v ≠ .unsupported ∧ w ∈ ((f v).getD (.var v)).paths) → K d) :
    c.Keeps K (c.replace (Term.replacePaths f)) := by
  obtain ⟨a, b, ha, hb, htruth⟩ := h
  have hl := Term.carries_replacePaths fun v hv => hf v (List.mem_append_left _ hv)
  have hr := Term.carries_replacePaths fun v hv => hf v (List.mem_append_right _ hv)
  have hboth := @Replacement.getD_both Term Constraint ({ c with lhs := ·, rhs := · }) c.lhs c.rhs
    (c.lhs.replacePaths f) (c.rhs.replacePaths f)
  -- the constraint that stands for `c`, whether or not anything changed in it
  let d : Constraint := { c with lhs := (c.lhs.replacePaths f).getD c.lhs,
                                 rhs := (c.rhs.replacePaths f).getD c.rhs }
  have hd : c.lhs.replacePaths f ≠ .unsupported → c.rhs.replacePaths f ≠ .unsupported →
      d.Holds V ∧ K d := by
    intro hl' hr'
    have hholds : d.Holds V := ⟨a, b, hl hl' a ha, hr hr' b hb, htruth⟩
    refine ⟨hholds, hK d hholds fun w hw => ?_⟩
    obtain hw | hw := List.mem_append.1 hw
    · obtain ⟨v, hv, hfv⟩ := Term.mem_paths_replacePaths hl' hw
      exact ⟨v, List.mem_append_left _ hv, hfv⟩
    · obtain ⟨v, hv, hfv⟩ := Term.mem_paths_replacePaths hr' hw
      exact ⟨v, List.mem_append_right _ hv, hfv⟩
  unfold Constraint.replace
  split
  · trivial
  · rename_i heq
    rw [heq] at hboth
    obtain ⟨hl', hr', hgetD⟩ := hboth (by simp)
    have hsame : c = d := hgetD
    show K c
    rw [hsame]
    exact (hd hl' hr').2
  · rename_i e heq
    rw [heq] at hboth
    obtain ⟨hl', hr', hgetD⟩ := hboth (by simp)
    obtain rfl : e = d := hgetD
    exact keeps_settle hV (hd hl' hr').1 (hd hl' hr').2

end Refuter
