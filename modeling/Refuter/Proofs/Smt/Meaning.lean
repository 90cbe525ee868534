import Refuter.Proofs.Path.Valuation

/-!
# Meaning of solver expressions

Expressions range over unbounded integers and division is Euclidean, as SMT-LIB has it. A symbol
in bars is the symbol without them. Where folding gives a term a value, what a solver is sent for
the term has the same one.
-/

namespace Refuter.Smt

/-- A symbol without the bars that quote it. -/
def plainName (symbol : String) : String :=
  match symbol.toList with
  | '|' :: rest => .ofList rest.dropLast
  | _ => symbol

/-- Values of the declared constants. Division by zero is left open, so it has a value too. -/
structure Assignment where
  int : String → Int
  bool : String → Bool
  divZero : Int → Int
  modZero : Int → Int

namespace Assignment

variable (A : Assignment)

def quotient (a b : Int) : Int := if b = 0 then A.divZero a else a / b

def remainder (a b : Int) : Int := if b = 0 then A.modZero a else a % b

end Assignment

/-! ## 1. Expressions and formulas -/

namespace Expr

def value (A : Assignment) : Expr → Int
  | num n => n
  | sym name => A.int (plainName name)
  | neg e => -e.value A
  | add l r => l.value A + r.value A
  | sub l r => l.value A - r.value A
  | mul l r => l.value A * r.value A
  | div l r => A.quotient (l.value A) (r.value A)
  | mod l r => A.remainder (l.value A) (r.value A)
  | ifNonneg test yes no => if 0 ≤ test.value A then yes.value A else no.value A

/-- The symbols of an expression from left to right. -/
def names : Expr → List String
  | num _ => []
  | sym name => [name]
  | neg e => e.names
  | add l r | sub l r | mul l r | div l r | mod l r => l.names ++ r.names
  | ifNonneg test yes no => test.names ++ (yes.names ++ no.names)

end Expr

namespace Comparison

def Holds (A : Assignment) (c : Comparison) : Prop :=
  c.op.apply (c.lhs.value A) (c.rhs.value A) = true

def names (c : Comparison) : List String := c.lhs.names ++ c.rhs.names

end Comparison

namespace Formula

def Holds (A : Assignment) : Formula → Prop
  | sym name => A.bool (plainName name) = true
  | all parts => ∀ c ∈ parts, c.Holds A

/-- Some assignment makes the formula true. -/
def Satisfiable (F : Formula) : Prop := ∃ A, F.Holds A

end Formula

end Refuter.Smt

namespace Refuter

open Smt (Assignment Expr)

/-! ## 2. Arithmetic -/

namespace ArithOp

variable {A : Assignment}

theorem value_wrapped (e : Expr) : (wrapped e).value A = (e.value A).bmod wordSize := by
  have hvalue : (wrapped e).value A =
      (e.value A + 2147483648) % 4294967296 - 2147483648 := rfl
  have hsize : wordSize = 4294967296 := rfl
  rw [hvalue, hsize, Int.bmod_def]
  split <;> omega

/-- Dividing absolute values and putting the sign back rounds toward zero. -/
theorem value_truncated (l r : Expr) (hr : r.value A ≠ 0) :
    (truncated l r).value A = (l.value A).tdiv (r.value A) := by
  simp only [truncated, Expr.value, Assignment.quotient, if_neg hr]
  by_cases hl : 0 ≤ l.value A
  · rw [if_pos hl, Int.tdiv_eq_ediv_of_nonneg hl]
  · rw [if_neg hl, ← Int.tdiv_eq_ediv_of_nonneg (by omega), Int.neg_tdiv, Int.neg_neg]

/-- A remainder by a 32 bit integer is one too. -/
theorem bmod_tmod {b : Int} (a : Int) (hb : isInt b = true) (h0 : b ≠ 0) :
    (a.tmod b).bmod wordSize = a.tmod b := by
  have hrange : -2147483648 ≤ b ∧ b < 2147483648 := by simpa [isInt] using hb
  have hlt : (a.tmod b).natAbs < b.natAbs := by
    rw [Int.natAbs_tmod]
    exact Nat.mod_lt _ (by omega)
  have hsize : wordSize = 4294967296 := rfl
  rw [hsize]
  exact Int.bmod_eq_of_le (by omega) (by omega)

theorem isInt_of_apply {op : ArithOp} {l r v : Int64} (h : op.apply l r = some v)
    (hop : op ≠ .diff) : isInt r.toInt = true := by
  unfold apply at h
  dsimp only at h
  rw [if_neg hop] at h
  split at h
  · cases h
  · rename_i hint
    simp only [Bool.or_eq_true, Bool.not_eq_true', not_or, Bool.not_eq_false] at hint
    exact hint.2

theorem eq_bmod_of_result {op : ArithOp} {a b c : Int} (h : op.result a b = some c)
    (hop : op ≠ .diff) :
    c = (op.exact a b).bmod wordSize ∧ (op.isDivision = true → b ≠ 0) := by
  unfold result at h
  rw [if_neg hop] at h
  split at h
  · cases h
  · rename_i hzero
    refine ⟨(Option.some.inj h).symm, fun hdiv h0 => hzero ?_⟩
    simp [h0, hdiv]

/-- The encoding of an operation computes its result. Only the remainder needs its divisor in
range: it is not wrapped. -/
theorem value_encode {op : ArithOp} {a b c : Int} {l r : Expr} (h : op.result a b = some c)
    (hint : op ≠ .diff → isInt b = true) (hl : l.value A = a) (hr : r.value A = b) :
    (op.encode l r).value A = c := by
  subst hl hr
  cases op with
  | diff => exact Option.some.inj h
  | add | sub | mul =>
    rw [(eq_bmod_of_result h (by decide)).1]
    exact value_wrapped _
  | div =>
    obtain ⟨hc, h0⟩ := eq_bmod_of_result h (by decide)
    rw [hc, exact, ← value_truncated l r (h0 rfl)]
    exact value_wrapped _
  | rem =>
    obtain ⟨hc, h0⟩ := eq_bmod_of_result h (by decide)
    rw [hc, exact, bmod_tmod _ (hint (by decide)) (h0 rfl)]
    calc (encode rem l r).value A
        = l.value A - r.value A * (truncated l r).value A := rfl
      _ = l.value A - r.value A * (l.value A).tdiv (r.value A) := by
          rw [value_truncated l r (h0 rfl)]
      _ = (l.value A).tmod (r.value A) := (Int.tmod_def _ _).symm

end ArithOp

/-! ## 3. Terms and constraints -/

/-- The term with a number for each of its paths. -/
def Term.instantiate (a : AccessPath → Int64) (t : Term) : Term :=
  (t.replacePaths fun v => .changed (.const (a v))).getD t

namespace Term

variable {A : Assignment} {a : AccessPath → Int64}

theorem instantiate_bin (l r : Term) (op : ArithOp) :
    (bin l op r).instantiate a = bin (l.instantiate a) op (r.instantiate a) := by
  have hsupported : ∀ t : Term,
      t.replacePaths (fun v => .changed (.const (a v))) ≠ .unsupported := by
    intro t
    induction t with
    | const | var => simp [replacePaths]
    | bin l op r ihl ihr =>
      unfold replacePaths Replacement.both
      split <;> simp_all
  unfold instantiate
  exact (Replacement.getD_both (hsupported (bin l op r))).2.2

/-- Folding a term computes what its encoding means. -/
theorem value_encode_of_evaluate {t : Term} {v : Int64}
    (hA : ∀ p ∈ t.paths, A.int (Smt.plainName p.symbol) = (a p).toInt)
    (h : (t.instantiate a).evaluate = some v) : t.encode.value A = v.toInt := by
  induction t generalizing v with
  | const k =>
    cases h
    rfl
  | var p =>
    cases h
    exact hA p List.mem_cons_self
  | bin l op r ihl ihr =>
    rw [instantiate_bin] at h
    obtain ⟨x, hx, h⟩ := Option.bind_eq_some_iff.1 h
    obtain ⟨y, hy, h⟩ := Option.bind_eq_some_iff.1 h
    have hl := ihl (fun p hp => hA p (List.mem_append_left _ hp)) hx
    have hr := ihr (fun p hp => hA p (List.mem_append_right _ hp)) hy
    exact ArithOp.value_encode (ArithOp.result_of_apply h) (ArithOp.isInt_of_apply h) hl hr

end Term

end Refuter
