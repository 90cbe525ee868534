/-!
Orders by parts.

A type is ordered by comparing some of its parts in turn. Such an order tells two values apart
as soon as one part does.
-/

namespace Refuter

variable {α β : Type}

theorem compareOn_eq_eq [Ord β] [Std.LawfulEqOrd β] {f : α → β} {a b : α} :
    compareOn f a b = .eq ↔ f a = f b :=
  ⟨fun h => Std.LawfulEqOrd.eq_of_compare h,
    fun h => (congrArg (compare · (f b)) h).trans Std.ReflOrd.compare_self⟩

/-- An order is lawful if it finds a value equal to itself and to nothing else. -/
theorem lawfulEqCmp_of_iff {cmp : α → α → Ordering} (h : ∀ a b, cmp a b = .eq ↔ a = b) :
    Std.LawfulEqCmp cmp where
  compare_self {a} := (h a a).2 rfl
  eq_of_compare {a b} := (h a b).1

end Refuter
