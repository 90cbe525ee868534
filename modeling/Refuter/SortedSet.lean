/-!
Finite sets kept as strictly increasing lists.

A set has one list, so two sets with the same members are the same set (`SortedSet.ext_mem`), and
the order in which members are listed is the order of the element type. Each operation comes with
the rule that says which members it leaves.
-/

namespace Refuter

/-- Finite set of `α`, listed in increasing order without repetition. -/
structure SortedSet (α : Type) [Ord α] where
  toList : List α
  increasing : toList.Pairwise fun a b => compare a b = .lt

namespace SortedSet

variable {α β : Type} [Ord α] [Ord β]

theorem ext_toList {s t : SortedSet α} (h : s.toList = t.toList) : s = t := by
  cases s; cases t; cases h; rfl

instance [DecidableEq α] : DecidableEq (SortedSet α) := fun s t =>
  decidable_of_iff (s.toList = t.toList) ⟨ext_toList, fun h => h ▸ rfl⟩

/-- Sets are ordered as their lists are: by the first difference, a set before its extensions. -/
instance : Ord (SortedSet α) where
  compare := compareOn toList

instance [Std.TransOrd α] : Std.TransOrd (SortedSet α) :=
  inferInstanceAs (Std.TransCmp (compareOn toList))

instance [Std.LawfulEqOrd α] : Std.LawfulEqOrd (SortedSet α) where
  compare_self {s} := (Std.ReflCmp.compare_self : compare s.toList s.toList = .eq)
  eq_of_compare {s t} (h : compare s.toList t.toList = .eq) :=
    ext_toList (Std.LawfulEqCmp.eq_of_compare h)

instance : Membership α (SortedSet α) where
  mem s a := a ∈ s.toList

@[simp] theorem mem_toList {s : SortedSet α} {a : α} : a ∈ s.toList ↔ a ∈ s := Iff.rfl

instance [DecidableEq α] (a : α) (s : SortedSet α) : Decidable (a ∈ s) :=
  inferInstanceAs (Decidable (a ∈ s.toList))

def empty : SortedSet α := ⟨[], .nil⟩

instance : EmptyCollection (SortedSet α) := ⟨empty⟩

instance : Inhabited (SortedSet α) := ⟨empty⟩

@[simp] theorem toList_empty : (∅ : SortedSet α).toList = [] := rfl

@[simp] theorem not_mem_empty (a : α) : ¬ a ∈ (∅ : SortedSet α) := List.not_mem_nil

def isEmpty (s : SortedSet α) : Bool := s.toList.isEmpty

def size (s : SortedSet α) : Nat := s.toList.length

/-! ## Insertion -/

/-- Puts `a` at its place in an increasing list, unless an equal element is there. -/
def insertInto (a : α) : List α → List α
  | [] => [a]
  | b :: rest =>
    match compare a b with
    | .lt => a :: b :: rest
    | .eq => b :: rest
    | .gt => b :: insertInto a rest

theorem mem_insertInto [Std.LawfulEqOrd α] {a x : α} {l : List α} :
    x ∈ insertInto a l ↔ x = a ∨ x ∈ l := by
  induction l with
  | nil => simp [insertInto]
  | cons b rest ih =>
    unfold insertInto
    split
    · simp
    · rename_i h
      have hab : a = b := Std.LawfulEqOrd.eq_of_compare h
      simp [hab]
    · simp only [List.mem_cons, ih]
      exact ⟨fun h => by rcases h with h | h | h <;> simp [h],
        fun h => by rcases h with h | h | h <;> simp [h]⟩

theorem pairwise_insertInto [Std.TransOrd α] [Std.LawfulEqOrd α] (a : α) {l : List α}
    (h : l.Pairwise fun x y => compare x y = .lt) :
    (insertInto a l).Pairwise fun x y => compare x y = .lt := by
  induction l with
  | nil => simp [insertInto]
  | cons b rest ih =>
    obtain ⟨hb, hrest⟩ := List.pairwise_cons.1 h
    unfold insertInto
    split
    · rename_i hab
      refine List.pairwise_cons.2 ⟨fun x hx => ?_, h⟩
      rcases List.mem_cons.1 hx with rfl | hx
      · exact hab
      · exact Std.TransCmp.lt_trans hab (hb x hx)
    · exact h
    · rename_i hab
      refine List.pairwise_cons.2 ⟨fun x hx => ?_, ih hrest⟩
      rcases mem_insertInto.1 hx with rfl | hx
      · exact Std.OrientedCmp.lt_of_gt hab
      · exact hb x hx

variable [Std.TransOrd α] [Std.LawfulEqOrd α]

def insert (a : α) (s : SortedSet α) : SortedSet α :=
  ⟨insertInto a s.toList, pairwise_insertInto a s.increasing⟩

@[simp] theorem mem_insert {a x : α} {s : SortedSet α} : x ∈ s.insert a ↔ x = a ∨ x ∈ s :=
  mem_insertInto

/-- The members of `l` as a set. -/
def ofList (l : List α) : SortedSet α := l.foldr insert ∅

@[simp] theorem mem_ofList {x : α} {l : List α} : x ∈ ofList l ↔ x ∈ l := by
  induction l with
  | nil => simp [ofList]
  | cons a rest ih =>
    have : ofList (a :: rest) = (ofList rest).insert a := rfl
    simp [this, ih]

def singleton (a : α) : SortedSet α := ⟨[a], by simp⟩

omit [Std.TransOrd α] [Std.LawfulEqOrd α] in
@[simp] theorem mem_singleton {a x : α} : x ∈ singleton a ↔ x = a := by
  change x ∈ [a] ↔ x = a
  simp

def union (s t : SortedSet α) : SortedSet α := t.toList.foldr insert s

@[simp] theorem mem_union {x : α} {s t : SortedSet α} : x ∈ s.union t ↔ x ∈ s ∨ x ∈ t := by
  have key : ∀ l : List α, x ∈ l.foldr insert s ↔ x ∈ s ∨ x ∈ l := fun l => by
    induction l with
    | nil => simp
    | cons a rest ih => simp only [List.foldr_cons, mem_insert, ih, List.mem_cons]; grind
  exact key t.toList

/-! ## Selection -/

omit [Std.TransOrd α] [Std.LawfulEqOrd α] in
theorem pairwise_filter (p : α → Bool) (s : SortedSet α) :
    (s.toList.filter p).Pairwise fun x y => compare x y = .lt :=
  s.increasing.sublist List.filter_sublist

omit [Std.TransOrd α] [Std.LawfulEqOrd α] in
def filter (p : α → Bool) (s : SortedSet α) : SortedSet α :=
  ⟨s.toList.filter p, pairwise_filter p s⟩

omit [Std.TransOrd α] [Std.LawfulEqOrd α] in
@[simp] theorem mem_filter {p : α → Bool} {s : SortedSet α} {x : α} :
    x ∈ s.filter p ↔ x ∈ s ∧ p x := List.mem_filter

def erase [DecidableEq α] (s : SortedSet α) (a : α) : SortedSet α := s.filter (· ≠ a)

def inter [DecidableEq α] (s t : SortedSet α) : SortedSet α := s.filter (· ∈ t)

omit [Std.TransOrd α] [Std.LawfulEqOrd α] in
@[simp] theorem mem_erase [DecidableEq α] {s : SortedSet α} {a x : α} :
    x ∈ s.erase a ↔ x ∈ s ∧ x ≠ a := by simp [erase]

omit [Std.TransOrd α] [Std.LawfulEqOrd α] in
@[simp] theorem mem_inter [DecidableEq α] {s t : SortedSet α} {x : α} :
    x ∈ s.inter t ↔ x ∈ s ∧ x ∈ t := by simp [inter]

omit [Std.TransOrd α] [Std.LawfulEqOrd α] in
/-- A set that loses no member is contained in the other. -/
theorem mem_of_size_inter [DecidableEq α] {s t : SortedSet α} {x : α}
    (h : (s.inter t).size = s.size) (hx : x ∈ s) : x ∈ t :=
  of_decide_eq_true (List.length_filter_eq_length_iff.1 h x hx)

/-- Image of a set. -/
def map [Std.TransOrd β] [Std.LawfulEqOrd β] (f : α → β) (s : SortedSet α) : SortedSet β :=
  ofList (s.toList.map f)

omit [Std.TransOrd α] [Std.LawfulEqOrd α] in
@[simp] theorem mem_map [Std.TransOrd β] [Std.LawfulEqOrd β] {f : α → β} {s : SortedSet α} {y : β} :
    y ∈ s.map f ↔ ∃ x ∈ s, f x = y := by simp [map]

/-- Union of the sets `f a` over the members of a list. -/
def bind [Std.TransOrd β] [Std.LawfulEqOrd β] (l : List α) (f : α → SortedSet β) : SortedSet β :=
  ofList (l.flatMap fun a => (f a).toList)

omit [Ord α] [Std.TransOrd α] [Std.LawfulEqOrd α] in
@[simp] theorem mem_bind [Std.TransOrd β] [Std.LawfulEqOrd β] {l : List α} {f : α → SortedSet β}
    {y : β} : y ∈ bind l f ↔ ∃ a ∈ l, y ∈ f a := by simp [bind]

/-! ## Equality -/

omit [Std.LawfulEqOrd α] in
private theorem toList_eq_of_mem_iff {l m : List α}
    (hl : l.Pairwise fun x y => compare x y = .lt) (hm : m.Pairwise fun x y => compare x y = .lt)
    (h : ∀ x, x ∈ l ↔ x ∈ m) : l = m := by
  induction l generalizing m with
  | nil =>
    cases m with
    | nil => rfl
    | cons b m => simpa using (h b).2 (by simp)
  | cons a l ih =>
    cases m with
    | nil => simpa using (h a).1 (by simp)
    | cons b m =>
      obtain ⟨ha, hl'⟩ := List.pairwise_cons.1 hl
      obtain ⟨hb, hm'⟩ := List.pairwise_cons.1 hm
      have irrefl : ∀ x : α, compare x x ≠ .lt := fun x => by simp
      have hab : a = b := by
        rcases List.mem_cons.1 ((h a).1 (by simp)) with hab | hab
        · exact hab
        · rcases List.mem_cons.1 ((h b).2 (by simp)) with hba | hba
          · exact hba.symm
          · exact absurd (Std.TransCmp.lt_trans (ha b hba) (hb a hab)) (irrefl a)
      subst hab
      have htail : ∀ x, x ∈ l ↔ x ∈ m := fun x => by
        refine ⟨fun hx => ?_, fun hx => ?_⟩
        · rcases List.mem_cons.1 ((h x).1 (by simp [hx])) with rfl | h'
          · exact absurd (ha x hx) (irrefl x)
          · exact h'
        · rcases List.mem_cons.1 ((h x).2 (by simp [hx])) with rfl | h'
          · exact absurd (hb x hx) (irrefl x)
          · exact h'
      rw [ih hl' hm' htail]

omit [Std.LawfulEqOrd α] in
/-- Two sets with the same members are equal. -/
theorem ext_mem {s t : SortedSet α} (h : ∀ x, x ∈ s ↔ x ∈ t) : s = t :=
  ext_toList (toList_eq_of_mem_iff s.increasing t.increasing h)

omit [Std.LawfulEqOrd α] in
theorem inter_comm [DecidableEq α] {s t : SortedSet α} : s.inter t = t.inter s :=
  ext_mem fun x => by
    rw [mem_inter, mem_inter]
    exact And.comm

end SortedSet

end Refuter
