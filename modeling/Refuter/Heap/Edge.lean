import Refuter.Pointer

/-!
Heap edges: a root points somewhere, or a field of an object does. Renames replace their ends.
-/

namespace Refuter

namespace Pointer

/-- `x` with `p` replaced by `q`. -/
def rename (p q x : Pointer) : Pointer := if x = p then q else x

theorem rename_self {p q : Pointer} : p.rename q p = q := if_pos rfl

theorem rename_of_ne {p q x : Pointer} (hx : x ≠ p) : p.rename q x = x := if_neg hx

/-- What `x` becomes if the renames are made in turn. -/
def renameAll (renames : List (Pointer × Pointer)) (x : Pointer) : Pointer :=
  renames.foldl (fun x r => r.1.rename r.2 x) x

/-- What each rename keeps, all of them keep. -/
theorem renameAll_induction {P : Pointer → Prop} {renames : List (Pointer × Pointer)} {x : Pointer}
    (hx : P x) (hstep : ∀ r ∈ renames, ∀ y, P y → P (r.1.rename r.2 y)) :
    P (x.renameAll renames) := by
  induction renames generalizing x with
  | nil => exact hx
  | cons r rest ih =>
    exact ih (hstep r List.mem_cons_self x hx) fun t ht => hstep t (List.mem_cons_of_mem _ ht)

end Pointer

/-- `source.field -> sink`, or `source -> sink` for a root. -/
structure Edge where
  source : Pointer
  field : Option Field
  sink : Pointer
  deriving DecidableEq, Inhabited

namespace Edge

def root (source sink : Pointer) : Edge := ⟨source, none, sink⟩

def ofField (source : Pointer) (field : Field) (sink : Pointer) : Edge := ⟨source, some field, sink⟩

def isRoot (e : Edge) : Bool := e.field.isNone

def text (e : Edge) : String :=
  match e.field with
  | some f => e.source.text ++ "." ++ f.text ++ " -> " ++ e.sink.text
  | none => e.source.text ++ " -> " ++ e.sink.text

def mentions (e : Edge) (p : Pointer) : Bool := e.source = p || e.sink = p

theorem mentions_iff {e : Edge} {p : Pointer} :
    e.mentions p = true ↔ e.source = p ∨ e.sink = p := by
  simp [mentions]

/-- The edge with both ends replaced. -/
def onEnds (τ : Pointer → Pointer) (e : Edge) : Edge := ⟨τ e.source, e.field, τ e.sink⟩

/-- The edge with every end `p` replaced by `q`. -/
def rename (p q : Pointer) (e : Edge) : Edge := e.onEnds (p.rename q)

theorem rename_self (p : Pointer) (e : Edge) : e.rename p p = e := by
  have hsame : ∀ x : Pointer, p.rename p x = x := by
    intro x
    unfold Pointer.rename
    split
    · rename_i h
      exact h.symm
    · rfl
  unfold rename onEnds
  rw [hsame, hsame]

/-- The edge after renames that are made in turn. -/
def renameAll (renames : List (Pointer × Pointer)) (e : Edge) : Edge :=
  e.onEnds (Pointer.renameAll renames)

@[simp] theorem renameAll_nil (e : Edge) : e.renameAll [] = e := rfl

@[simp] theorem renameAll_cons (e : Edge) (r : Pointer × Pointer)
    (rest : List (Pointer × Pointer)) :
    e.renameAll (r :: rest) = (e.rename r.1 r.2).renameAll rest := rfl

theorem renameAll_append (e : Edge) (renames more : List (Pointer × Pointer)) :
    e.renameAll (renames ++ more) = (e.renameAll renames).renameAll more := by
  simp [renameAll, onEnds, Pointer.renameAll]

theorem renameAll_induction {P : Edge → Prop} {renames : List (Pointer × Pointer)} {e : Edge}
    (he : P e) (hstep : ∀ r ∈ renames, ∀ d, P d → P (d.rename r.1 r.2)) :
    P (e.renameAll renames) := by
  induction renames generalizing e with
  | nil => exact he
  | cons r rest ih =>
    exact ih (hstep r List.mem_cons_self e he) fun t ht => hstep t (List.mem_cons_of_mem _ ht)

/-- Same field, and each pair of ends may denote the same thing. -/
def overlaps (e d : Edge) : Bool :=
  e.field = d.field && e.source.overlaps d.source && e.sink.overlaps d.sink

/-- By source, then field (roots first), then sink. -/
def cmp : Edge → Edge → Ordering :=
  compareLex (compareOn source) <| compareLex (compareOn field) (compareOn sink)

instance : Ord Edge := ⟨cmp⟩

instance : Std.TransOrd Edge :=
  inferInstanceAs (Std.TransCmp
    (compareLex (compareOn source) <| compareLex (compareOn field) (compareOn sink)))

instance : Std.LawfulEqOrd Edge := lawfulEqCmp_of_iff fun a b => by
  change cmp a b = .eq ↔ a = b
  simp only [cmp, compareLex_eq_eq, compareOn_eq_eq]
  cases a; cases b; simp

end Edge

end Refuter
