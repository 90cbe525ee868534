import Refuter.Proofs.Path.Goal
import Refuter.Proofs.Smt.Symbol

/-!
# Allocations and the names of objects

A goal that holds at the end of a trace of assignments and allocations is followed back through the
trace, with a check after each step. An allocation turns a local into its site, and a site is one
symbol for a solver although it creates many objects. Nor does a symbol tell all fields apart.
`PathM.retrace_refutes_iff` says exactly when that refutes the trace: the goal tells apart two
objects that were both created in it at sites of one name, or it comes to tell apart two reads of
one name.
-/

namespace Refuter

open StoreM

/-! ## 1. What the solver is asked -/

/-- A bound on the number, if it is one. -/
def Value.size : Value → Nat
  | .int n => n.natAbs
  | .ref _ => 0

/-- Numbers stand for themselves and objects for numbers beyond a bound. -/
def Value.code (bound : Nat) : Value → Int
  | .int n => n
  | .ref r => bound + 1 + r

theorem Value.code_inj {bound : Nat} {a b : Value} (ha : a.size ≤ bound) (hb : b.size ≤ bound) :
    a.code bound = b.code bound ↔ a = b := by
  cases a with
  | int n =>
    cases b with
    | int k => simp [Value.code]
    | ref q =>
      have hn : n.natAbs ≤ bound := ha
      simp only [Value.code, reduceCtorEq, iff_false]
      omega
  | ref r =>
    cases b with
    | int k =>
      have hk : k.natAbs ≤ bound := hb
      simp only [Value.code, reduceCtorEq, iff_false]
      omega
    | ref q =>
      simp only [Value.code, Value.ref.injEq]
      exact (Int.add_right_inj _).trans Int.ofNat_inj

theorem Value.code_ref_ne_zero (bound : Nat) (r : Ref) : (Value.ref r).code bound ≠ 0 := by
  simp only [Value.code]
  omega

/-- Comparisons are true of the codes where they are of the values. -/
theorem CmpOp.apply_code {op : CmpOp} {a b : Value} {bound : Nat} (ha : a.size ≤ bound)
    (hb : b.size ≤ bound) (h : op.truth a b = some true) :
    op.apply (a.code bound) (b.code bound) = true := by
  have hcode := Value.code_inj ha hb
  cases op with
  | eq =>
    have hab : a = b := by simpa [CmpOp.truth] using h
    simp [CmpOp.apply, hab]
  | ne =>
    have hab : a ≠ b := by simpa [CmpOp.truth] using h
    simpa [CmpOp.apply, hcode] using hab
  | lt | le | gt | ge =>
    cases a <;> cases b <;> simp [CmpOp.truth] at h
    exact h

/-- The comparison is never true of a value and itself. -/
def CmpOp.TellsApart (op : CmpOp) : Prop := ∀ n, op.apply n n = false

theorem CmpOp.tellsApart_ne : TellsApart .ne := fun n => by simp [CmpOp.apply]

/-- Any other comparison is always true of them. -/
theorem CmpOp.apply_self_of_not_tellsApart {op : CmpOp} (h : ¬ op.TellsApart) (n : Int) :
    op.apply n n = true := by
  cases op with
  | eq | le | ge => simp [CmpOp.apply]
  | ne | lt | gt => exact absurd (fun k => by simp [CmpOp.apply]) h

namespace PathStore

variable {goal : Constraint} {a b : Value} {l r : Term} {s : PathStore}

/-- One true comparison has a solution, unless its sides have one symbol. -/
theorem satisfiable_of_fits (hcs : s.constraints = [{ goal with lhs := l, rhs := r }])
    (hl : l.Fits a) (hr : r.Fits b) (htruth : goal.op.truth a b = some true)
    (hsymbol : ∀ v w, l = .var v → r = .var w → v.symbol ≠ w.symbol) :
    s.encoding.Satisfiable := by
  let bound := a.size + b.size
  have ha : a.size ≤ bound := Nat.le_add_right _ _
  have hb : b.size ≤ bound := Nat.le_add_left _ _
  -- the symbol of the left side, if it has one, is `a`, and any other is `b`
  let A : Smt.Assignment :=
    { int := fun name => if name ∈ l.paths.map (Smt.plainName ·.symbol) then a.code bound
        else b.code bound
      bool := fun _ => false
      divZero := fun _ => 0
      modZero := fun _ => 0 }
  have hleft : l.encode.value A = a.code bound := by
    cases l with
    | bin => cases hl
    | const k => rw [show a = .int k.toInt from hl]; rfl
    | var v => simp [Term.encode, Smt.Expr.value, A, Term.paths]
  have hright : r.encode.value A = b.code bound := by
    cases r with
    | bin => cases hr
    | const k => rw [show b = .int k.toInt from hr]; rfl
    | var w =>
      show (if Smt.plainName w.symbol ∈ _ then _ else _) = _
      split
      · rename_i hmem
        obtain ⟨v, hv, hname⟩ := List.mem_map.1 hmem
        exact absurd (AccessPath.symbol_eq_of_plainName_eq hname)
          (hsymbol v w (hl.eq_var hv) rfl)
      · rfl
  rw [s.encoding_eq, hcs]
  refine ⟨A, fun c hc => ?_⟩
  obtain hc | hc := List.mem_append.1 hc
  · rw [List.mem_singleton.1 hc]
    show goal.op.apply (l.encode.value A) (r.encode.value A) = true
    rw [hleft, hright]
    exact CmpOp.apply_code ha hb htruth
  · -- a bare site is an object, whose code is not zero
    obtain ⟨name, hname, rfl⟩ := List.mem_map.1 hc
    obtain ⟨v, hpath, hv, rfl⟩ := mem_siteSymbols.1 hname
    have hnonzero : A.int (Smt.plainName v.symbol) ≠ 0 := by
      have hpath : v ∈ l.paths ∨ v ∈ r.paths := by simpa [paths, hcs, Constraint.paths] using hpath
      obtain hpath | hpath := hpath
      · have hlv : l = .var v := hl.eq_var hpath
        obtain ⟨q, rfl⟩ : ∃ q, a = .ref q := by
          rw [hlv] at hl
          exact hl hv
        rw [hlv] at hleft
        exact fun hzero => Value.code_ref_ne_zero bound q (hleft.symm.trans hzero)
      · have hrv : r = .var v := hr.eq_var hpath
        obtain ⟨q, rfl⟩ : ∃ q, b = .ref q := by
          rw [hrv] at hr
          exact hr hv
        rw [hrv] at hright
        exact fun hzero => Value.code_ref_ne_zero bound q (hright.symm.trans hzero)
    show (decide (A.int (Smt.plainName v.symbol) ≠ 0)) = true
    exact decide_eq_true hnonzero

/-- A comparison of two sides with one symbol has a solution if it does not tell values apart: the
same number for all symbols. -/
theorem satisfiable_of_not_tellsApart {v w : AccessPath}
    (hcs : s.constraints = [{ goal with lhs := .var v, rhs := .var w }])
    (hop : ¬ goal.op.TellsApart) : s.encoding.Satisfiable := by
  rw [s.encoding_eq, hcs]
  refine ⟨⟨fun _ => 1, fun _ => false, fun _ => 0, fun _ => 0⟩, fun c hc => ?_⟩
  obtain hc | hc := List.mem_append.1 hc
  · rw [List.mem_singleton.1 hc]
    exact CmpOp.apply_self_of_not_tellsApart hop 1
  · obtain ⟨name, -, rfl⟩ := List.mem_map.1 hc
    rfl

theorem not_satisfiable_of_symbol_eq {v w : AccessPath}
    (hcs : s.constraints = [{ goal with lhs := .var v, rhs := .var w }])
    (hop : goal.op.TellsApart) (h : v.symbol = w.symbol) : ¬ s.encoding.Satisfiable := by
  rw [s.encoding_eq, hcs]
  rintro ⟨A, hA⟩
  have happly := hA _ (List.mem_append_left _ List.mem_cons_self)
  simp [Constraint.encode, Smt.Comparison.Holds, Term.encode, Smt.Expr.value, h, hop _] at happly

/-- One true comparison has no solution if and only if it tells apart two sides of one symbol. -/
theorem satisfiable_iff_of_fits (hcs : s.constraints = [{ goal with lhs := l, rhs := r }])
    (hl : l.Fits a) (hr : r.Fits b) (htruth : goal.op.truth a b = some true) :
    s.encoding.Satisfiable ↔
      ¬ (goal.op.TellsApart ∧ ∃ v w, l = .var v ∧ r = .var w ∧ v.symbol = w.symbol) := by
  constructor
  · rintro hsat ⟨hop, v, w, rfl, rfl, h⟩
    exact not_satisfiable_of_symbol_eq hcs hop h hsat
  · intro hno
    by_cases hsame : ∃ v w, l = .var v ∧ r = .var w ∧ v.symbol = w.symbol
    · have hop : ¬ goal.op.TellsApart := fun hop => hno ⟨hop, hsame⟩
      obtain ⟨v, w, rfl, rfl, -⟩ := hsame
      exact satisfiable_of_not_tellsApart hcs hop
    · exact satisfiable_of_fits hcs hl hr htruth fun v w hv hw h => hsame ⟨v, w, hv, hw, h⟩

end PathStore

/-! ## 2. Objects and reads of one name -/

/-- Both values are objects that were created after `σ`, at sites that a solver knows by one
symbol. -/
def State.CreatedAlike (σ σ' : State) (x y : Value) : Prop :=
  ∃ r q b c, x = .ref r ∧ y = .ref q ∧ σ.heap r = none ∧ σ.heap q = none ∧ σ'.heap r = some b ∧
    σ'.heap q = some c ∧
    (AccessPath.mk (.site b.site) []).symbol = (AccessPath.mk (.site c.site) []).symbol

theorem State.CreatedAlike.of_extends {σ τ σ' : State} {x y : Value} (h : τ.CreatedAlike σ' x y)
    (hext : σ.Extends τ) : σ.CreatedAlike σ' x y := by
  obtain ⟨r, q, b, c, hx, hy, hr, hq, hrest⟩ := h
  exact ⟨r, q, b, c, hx, hy, hext.heap_eq_none hr, hext.heap_eq_none hq, hrest⟩

theorem State.not_createdAlike_self (σ : State) (x y : Value) : ¬ σ.CreatedAlike σ x y := by
  rintro ⟨r, q, b, c, -, -, hr, -, hb, -⟩
  rw [hr] at hb
  cases hb

/-- What a chain from a live value leads to is live. -/
theorem State.follow_live {σ : State} {x : Value} {fields : List Field} {r : Ref}
    (hx : ∀ q, x = .ref q → (σ.heap q).isSome) (h : σ.follow x fields = some (.ref r)) :
    (σ.heap r).isSome := by
  induction fields generalizing x with
  | nil =>
    have hx' : x = .ref r := by
      cases x <;> exact Option.some.inj h
    exact hx r hx'
  | cons f rest ih =>
    cases x with
    | int => cases h
    | ref q =>
      obtain ⟨b, hb⟩ := Option.isSome_iff_exists.1 (hx q rfl)
      rw [State.follow_cons, hb] at h
      exact ih (fun p hp => σ.field_live q b f p hb (.inl hp)) h

/-- The goal says that two objects differ which were both created after `σ`, at sites of one
symbol. -/
def Constraint.ApartInName (goal : Constraint) (σ σ' : State) : Prop :=
  goal.op = .ne ∧ ∃ x y, goal.lhs.meaning σ'.valuation = some x ∧
    goal.rhs.meaning σ'.valuation = some y ∧ σ.CreatedAlike σ' x y

namespace AccessPath

theorem map_symbolChar_toDigits (n : Nat) :
    (Nat.toDigits 10 n).map symbolChar = Nat.toDigits 10 n := by
  exact (List.map_congr_left fun c hc => symbolChar_of_mem_toDigits hc).trans (List.map_id _)

/-- The fields of a path within its symbol. -/
def chainText (fields : List Field) : String :=
  (String.join (fields.map ("." ++ ·.text))).map symbolChar

/-- A symbol knows the fields by their text only. -/
theorem symbol_congr {p : Pointer} {fields others : List Field}
    (h : chainText fields = chainText others) : (mk p fields).symbol = (mk p others).symbol := by
  have hchars := congrArg String.toList h
  refine String.toList_inj.1 ?_
  simpa [symbol, chainText, String.toList_map] using hchars

example : chainText [.named "A" "x|"] = chainText [.named "A" "x_"] := by cbv

theorem toList_symbol_slot (m : MethodId) (l : Local) (fields : List Field) :
    (mk (.slot m l) fields).symbol.toList =
      '|' :: 'v' :: (Nat.toDigits 10 l.toNat ++ '@' :: 'm' :: (Nat.toDigits 10 m.number.toNat ++
        ((chainText fields).toList ++ ['|']))) := by
  have hv : symbolChar 'v' = 'v' := by decide
  have hat : symbolChar '@' = '@' := by decide
  have hm : symbolChar 'm' = 'm' := by decide
  simp [symbol, chainText, baseName, Pointer.slot, Location.text, MethodId.text,
    String.toList_map, map_symbolChar_toDigits, hv, hat, hm]

/-- No digit follows the method of a local. -/
theorem stops_chainText (fields : List Field) :
    Stops Char.isDigit ((chainText fields).toList ++ ['|']) := by
  intro c h
  cases fields with
  | nil =>
    obtain rfl : '|' = c := by simpa [chainText] using h
    rfl
  | cons f rest =>
    have hdot : symbolChar '.' = '.' := by decide
    obtain rfl : '.' = c := by simpa [chainText, String.toList_map, hdot] using h
    rfl

/-- Reads through locals that have one symbol are reads through one local, by chains of one
text. -/
theorem slot_eq_of_symbol_eq {m n : MethodId} {l k : Local} {fields others : List Field}
    (h : (mk (.slot m l) fields).symbol = (mk (.slot n k) others).symbol) :
    Location.slot m l = .slot n k ∧ chainText fields = chainText others := by
  have hchars := congrArg String.toList h
  rw [toList_symbol_slot, toList_symbol_slot] at hchars
  have hat : ∀ {xs : List Char}, Stops Char.isDigit ('@' :: xs) := stops_cons (by decide)
  -- the local, then the method, then what is left of the symbol
  obtain ⟨hlocal, hrest⟩ := toDigits_append_inj hat hat
    (List.tail_eq_of_cons_eq (List.tail_eq_of_cons_eq hchars))
  obtain ⟨hmethod, hchain⟩ := toDigits_append_inj (stops_chainText fields)
    (stops_chainText others) (List.tail_eq_of_cons_eq (List.tail_eq_of_cons_eq hrest))
  refine ⟨by rw [MethodId.eq_of_toNat hmethod, UInt32.toNat_inj.1 hlocal], ?_⟩
  exact String.toList_inj.1 (List.append_cancel_right hchain)

/-- A local is never known by the name of a site. -/
theorem symbol_slot_ne_site {m : MethodId} {l : Local} {fields : List Field} {s : AllocSite} :
    (mk (.slot m l) fields).symbol ≠ (mk (.site s) []).symbol := by
  intro h
  have hchars := congrArg String.toList h
  simp [symbol, baseName, Pointer.slot, Pointer.site, Location.text, AllocSite.text,
    String.toList_map, symbolChar] at hchars

end AccessPath

/-- The goal tells apart two reads through one local that a solver knows by one symbol: their fields
differ only in characters that symbols cannot have. -/
def Constraint.ReadsAlike (goal : Constraint) (o p : Option Location) : Prop :=
  goal.op.TellsApart ∧
    AccessPath.chainText goal.lhs.chain = AccessPath.chainText goal.rhs.chain ∧
    ∃ x, o = some x ∧ p = some x

/-- The goal comes to tell apart two such reads on the way back, which takes at least one step. -/
def Constraint.ApartInText (goal : Constraint) (site : Site) (trace : List Instruction) : Prop :=
  ∃ after, after <:+ trace ∧ after ≠ [] ∧
    goal.ReadsAlike (goal.lhs.origin? site after) (goal.rhs.origin? site after)

namespace Constraint

variable {goal : Constraint} {site : Site}

theorem not_apartInText_nil : ¬ goal.ApartInText site [] := by
  rintro ⟨after, hsuffix, hne, -⟩
  exact hne (List.suffix_nil.1 hsuffix)

theorem apartInText_cons {i : Instruction} {rest : List Instruction} :
    goal.ApartInText site (i :: rest) ↔
      goal.ReadsAlike (goal.lhs.origin? site (i :: rest)) (goal.rhs.origin? site (i :: rest)) ∨
        goal.ApartInText site rest := by
  constructor
  · rintro ⟨after, hsuffix, hne, halike⟩
    obtain rfl | hsuffix := List.suffix_cons_iff.1 hsuffix
    · exact .inl halike
    · exact .inr ⟨after, hsuffix, hne, halike⟩
  · rintro (halike | ⟨after, hsuffix, hne, halike⟩)
    · exact ⟨i :: rest, List.suffix_rfl, List.cons_ne_nil _ _, halike⟩
    · exact ⟨after, List.suffix_cons_iff.2 (.inr hsuffix), hne, halike⟩

end Constraint

namespace PathM

variable {goal : Constraint} {a b : Value} {o p : Option Location} {σ σ' : State} {s : PathStore}

/-- Two sides of one symbol are read through one local or are objects of one name. -/
theorem local?_or_createdAlike {l r : Term} {v w : AccessPath}
    (hl : l.Stands σ σ' goal.lhs.chain a) (hr : r.Stands σ σ' goal.rhs.chain b) (hlv : l = .var v)
    (hrw : r = .var w) (h : v.symbol = w.symbol) :
    (AccessPath.chainText goal.lhs.chain = AccessPath.chainText goal.rhs.chain ∧
      ∃ x, l.local? = some x ∧ r.local? = some x) ∨ σ.CreatedAlike σ' a b := by
  subst hlv hrw
  cases hl with
  | read =>
    cases hr with
    | read =>
      obtain ⟨hslot, htext⟩ := AccessPath.slot_eq_of_symbol_eq h
      exact .inl ⟨htext, _, rfl, congrArg some hslot.symm⟩
    | created => exact absurd h AccessPath.symbol_slot_ne_site
  | created hx hfree hb =>
    cases hr with
    | read => exact absurd h.symm AccessPath.symbol_slot_ne_site
    | created hy hfree' hc => exact .inr ⟨_, _, _, _, hx, hy, hfree, hfree', hb, hc, h⟩

theorem eq_read_of_local? {t : Term} {chain : List Field} {x : Value} {y : Location}
    (h : t.Stands σ σ' chain x) (hy : t.local? = some y) : t = .var ⟨.known y, chain⟩ := by
  cases h with
  | const => cases hy
  | read =>
    cases hy
    rfl
  | created => cases hy

/-- An object that is not there yet is known by its site. -/
theorem eq_site_of_stands {t : Term} {chain : List Field} {r : Ref} {c : Object}
    (h : t.Stands σ σ' chain (.ref r)) (hfree : σ.heap r = none) (hc : σ'.heap r = some c) :
    t = .var ⟨.site c.site, []⟩ := by
  cases h with
  | const hx => cases hx
  | read hx =>
    have hlive := State.follow_live (σ.root_live _) hx
    rw [hfree] at hlive
    cases hlive
  | created hx hfree' hb =>
    cases hx
    rw [hc] at hb
    cases hb
    rfl

/-- Only equality and its negation compare objects. -/
theorem op_eq_ne_of_createdAlike (hop : goal.op.TellsApart)
    (htruth : goal.op.truth a b = some true) (h : σ.CreatedAlike σ' a b) : goal.op = .ne := by
  obtain ⟨p, q, b, c, rfl, rfl, -⟩ := h
  cases hgoal : goal.op with
  | ne => rfl
  | eq =>
    rw [hgoal] at hop
    exact absurd (hop 0) (by decide)
  | lt | le | gt | ge =>
    rw [hgoal] at htruth
    cases htruth

/-- What is left of a true goal has a solution if and only if it tells apart neither objects of one
name that are not there yet nor reads of one name. -/
theorem TracksAt.satisfiable_iff (hs : TracksAt goal a b σ' σ o p s)
    (htruth : goal.op.truth a b = some true) :
    s.encoding.Satisfiable ↔
      ¬ (goal.op = .ne ∧ σ.CreatedAlike σ' a b ∨ goal.ReadsAlike o p) := by
  obtain ⟨-, ⟨hcs, hnumber⟩ | ⟨l, r, hcs, ⟨hl, rfl⟩, hr, rfl⟩⟩ := hs
  · -- decided already: a side is a number
    refine ⟨fun _ => ?_, fun _ => PathStore.satisfiable_of_isEmpty (List.isEmpty_iff.2 hcs)⟩
    rintro (⟨-, q, r, b, c, rfl, rfl, -⟩ | ⟨-, -, x, rfl, rfl⟩)
    · obtain ⟨⟨n, hn⟩, -⟩ | ⟨⟨n, hn⟩, -⟩ := hnumber <;> cases hn
    · obtain ⟨-, hx⟩ | ⟨-, hx⟩ := hnumber <;> cases hx
  · rw [PathStore.satisfiable_iff_of_fits hcs hl.fits hr.fits htruth, not_iff_not]
    constructor
    · rintro ⟨hop, v, w, hv, hw, h⟩
      obtain ⟨htext, hx⟩ | hcreated := local?_or_createdAlike hl hr hv hw h
      · exact .inr ⟨hop, htext, hx⟩
      · exact .inl ⟨op_eq_ne_of_createdAlike hop htruth hcreated, hcreated⟩
    · rintro (⟨hop, q, r, b, c, rfl, rfl, hq, hr', hb, hc, hsymbol⟩ | ⟨hop, htext, x, hx, hy⟩)
      · refine ⟨hop ▸ CmpOp.tellsApart_ne, _, _, eq_site_of_stands hl hq hb,
          eq_site_of_stands hr hr' hc, hsymbol⟩
      · exact ⟨hop, _, _, eq_read_of_local? hl hx, eq_read_of_local? hr hy,
          AccessPath.symbol_congr htext⟩

/-! ## 3. Walks -/

/-- Visits the instructions from the last to the first, with a check after each. -/
def walk (h : HeapGraph) (site : Site) : List Instruction → PathM Unit
  | [] => pure ()
  | i :: rest => do
    walk h site rest
    let _ ← visit h site i
    check

/-- Follows a goal back through a trace. -/
def retrace (h : HeapGraph) (site : Site) (goal : Constraint) (trace : List Instruction) :
    PathM Unit := do
  add goal
  walk h site trace

variable {h : HeapGraph} {site : Site} {trace : List Instruction} {f : Frame PathStore}

theorem TracksAt.answered (hs : TracksAt goal a b σ' σ o p s) :
    TracksAt goal a b σ' σ o p s.answered :=
  ⟨hs.feasible, hs.constraints⟩

/-- Constraints without a solution are there, so they are the goal. -/
theorem TracksAt.ids_eq (hs : TracksAt goal a b σ' σ o p s) (hunsat : ¬ s.encoding.Satisfiable) :
    s.constraints.map Constraint.id = [goal.id] := by
  obtain ⟨hcs, -⟩ | ⟨l, r, hcs, -, -⟩ := hs.constraints
  · exact absurd (PathStore.satisfiable_of_isEmpty (by rw [hcs]; rfl)) hunsat
  · rw [hcs]
    rfl

/-- The goal is followed to the start of the trace, or the walk stops where the goal tells apart two
objects of one name that are both not there yet, or two reads of one name. -/
theorem walk_cases (htrace : σ.Traces site trace σ') (htruth : goal.op.truth a b = some true)
    (hs : TracksAt goal a b σ' σ' goal.lhs.local? goal.rhs.local? f.store)
    (hJ : f.session.Decides) (hP : f.store.MarkedSat) :
    Refutes (walk h site trace) f (.unsat [goal.id]) ∧
      (goal.op = .ne ∧ σ.CreatedAlike σ' a b ∨ goal.ApartInText site trace) ∨
    Ends (walk h site trace) f (fun _ g => g.session.Decides ∧ g.store.MarkedSat ∧
      TracksAt goal a b σ' σ (goal.lhs.origin? site trace) (goal.rhs.origin? site trace) g.store) ∧
      ¬ (goal.op = .ne ∧ σ.CreatedAlike σ' a b ∨ goal.ApartInText site trace) := by
  induction htrace with
  | nil σ =>
    refine .inr ⟨ends_pure.2 ⟨hJ, hP, hs⟩, ?_⟩
    rintro (⟨-, halike⟩ | hapart)
    · exact σ.not_createdAlike_self a b halike
    · exact Constraint.not_apartInText_nil hapart
  | cons hi hstep hzero hrest ih =>
    rename_i i rest σ τ σ'
    unfold walk
    rw [Constraint.apartInText_cons]
    obtain ⟨hrefutes, hcond⟩ | ⟨hends, hno⟩ := ih hs
    · refine .inl ⟨hrefutes.bind, hcond.imp (And.imp_right fun halike => ?_) .inr⟩
      exact halike.of_extends (hstep.extends hi)
    · obtain ⟨_, g₁, hrun₁, hJ₁, hP₁, hs₁⟩ := hends
      -- one step back
      obtain ⟨more, g₂, hrun₂, hs₂⟩ :=
        ends_visit_tracks (h := h) hs₁ htruth hi hstep hzero hrest.extends
      obtain ⟨-, -, hJ₂, hP₂, -⟩ := (keepsMarks_visit h site i g₁ hJ₁ hP₁).of_ok hrun₂
      have hsolves := hs₂.satisfiable_iff htruth
      -- and the check
      obtain ⟨hsat, hcheck⟩ | ⟨hunsat, g₃, hcheck, -⟩ := check_cases hJ₂ hP₂ hs₂.feasible
      · refine .inr ⟨?_, ?_⟩
        · simp only [ends_bind]
          refine ⟨_, g₁, hrun₁, more, g₂, hrun₂, ?_⟩
          refine hcheck.mono fun _ g₃ hg => ⟨hg.1, ?_, ?_⟩
          · rw [hg.2]
            exact fun _ _ => hsat
          · rw [hg.2]
            exact hs₂.answered
        · rintro (halike | halike | hapart)
          · exact hsolves.1 hsat (.inl halike)
          · exact hsolves.1 hsat (.inr halike)
          · exact hno (.inr hapart)
      · rw [hs₂.ids_eq hunsat] at hcheck
        refine .inl ⟨?_, ?_⟩
        · exact Ends.refutes ⟨_, g₁, hrun₁, Ends.refutes ⟨more, g₂, hrun₂, g₃, hcheck⟩⟩
        · exact (Classical.byContradiction fun hno => hunsat (hsolves.2 hno)).imp id .inl

/-! ## 4. Goals -/

end PathM

/-- The path starts at a local. -/
def AccessPath.isLocalRead (v : AccessPath) : Bool :=
  match v.base with
  | .known (.slot ..) => true
  | _ => false

/-- A number, a local or a read through a local. -/
def Term.isLocalRead : Term → Bool
  | .const _ => true
  | .var v => v.isLocalRead
  | .bin .. => false

theorem Term.stands_of_meaning {σ : State} {t : Term} {x : Value} (ht : t.isLocalRead = true)
    (h : t.meaning σ.valuation = some x) : t.Stands σ σ t.chain x := by
  cases t with
  | bin => cases ht
  | const k => exact .const (Option.some.inj h).symm
  | var v =>
    obtain ⟨base, fields⟩ := v
    cases base with
    | choice => cases ht
    | known y =>
      cases y with
      | slot m l => exact .read h
      | result | global | site | index => cases ht

namespace PathM

variable {goal : Constraint} {a b : Value} {σ σ' : State} {h : HeapGraph} {site : Site}
  {trace : List Instruction} {session : Session}

/-- A goal that holds is the first constraint, or is decided at once. -/
theorem ends_add_tracks (hroom : 0 < session.options.maxPathConstraints.toNat)
    (hl : goal.lhs.Stands σ σ goal.lhs.chain a) (hr : goal.rhs.Stands σ σ goal.rhs.chain b)
    (htruth : goal.op.truth a b = some true) :
    Ends (add goal) ⟨{}, session⟩ fun _ g =>
      TracksAt goal a b σ σ goal.lhs.local? goal.rhs.local? g.store := by
  unfold add
  rw [ends_bind]
  refine ends_requireFeasible rfl ?_
  obtain hsettle | ⟨hsettle, hconst⟩ := Constraint.settle_of_fits hl.fits hr.fits htruth
  · rw [hsettle]
    have hlimit : ¬ ([] : List Constraint).length ≥ session.options.maxPathConstraints.toNat :=
      Nat.not_le.2 hroom
    simp only [ends_bind, ends_store, List.any_nil, Bool.false_eq_true, if_false, ends_options,
      if_neg hlimit, ends_debug, setConstraints, ends_modifyStore]
    exact ⟨rfl, .inr ⟨_, _, rfl, ⟨hl, rfl⟩, hr, rfl⟩⟩
  · rw [hsettle]
    refine ends_pure.2 ⟨rfl, .inl ⟨rfl, ?_⟩⟩
    obtain ⟨k, hk⟩ | ⟨k, hk⟩ := hconst
    · rw [hk] at hl ⊢
      exact .inl ⟨⟨_, hl.fits⟩, rfl⟩
    · rw [hk] at hr ⊢
      exact .inr ⟨⟨_, hr.fits⟩, rfl⟩

/-- The goal is followed to the start of the trace with a feasible store, or refuted because it
tells apart two objects or two reads of one name. -/
theorem retrace_cases (hsession : session.Decides)
    (hroom : 0 < session.options.maxPathConstraints.toNat) (htrace : σ.Traces site trace σ')
    (hgoal : goal.lhs.isLocalRead = true ∧ goal.rhs.isLocalRead = true)
    (hholds : goal.Holds σ'.valuation) :
    Refutes (retrace h site goal trace) ⟨{}, session⟩ (.unsat [goal.id]) ∧
      (goal.ApartInName σ σ' ∨ goal.ApartInText site trace) ∨
    Ends (retrace h site goal trace) ⟨{}, session⟩ (fun _ g => g.store.feasible = true) ∧
      ¬ (goal.ApartInName σ σ' ∨ goal.ApartInText site trace) := by
  obtain ⟨a, b, ha, hb, htruth⟩ := hholds
  have hcond : goal.ApartInName σ σ' ↔ goal.op = .ne ∧ σ.CreatedAlike σ' a b := by
    simp [Constraint.ApartInName, ha, hb]
  obtain ⟨_, g, hadd, hs⟩ := ends_add_tracks hroom (Term.stands_of_meaning hgoal.1 ha)
    (Term.stands_of_meaning hgoal.2 hb) htruth
  have hnew : PathStore.MarkedSat {} := fun _ _ => PathStore.satisfiable_of_isEmpty rfl
  obtain ⟨-, -, hJ, hP, -⟩ := (keepsMarks_add goal ⟨{}, session⟩ hsession hnew).of_ok hadd
  rw [hcond]
  obtain ⟨hrefutes, hapart⟩ | ⟨hends, hno⟩ := walk_cases (h := h) htrace htruth hs hJ hP
  · exact .inl ⟨Ends.refutes ⟨_, g, hadd, hrefutes⟩, hapart⟩
  · exact .inr ⟨ends_bind.2 ⟨_, g, hadd, hends.mono fun _ g' hg => hg.2.2.feasible⟩, hno⟩

/-- Allocation traces and the solver's names: a goal that holds at the end of a trace is refuted on
the way back if and only if it tells apart two objects that were both created in the trace at
sites of one symbol, or comes to tell apart two reads through one local by chains of one text.
Otherwise the walk ends with a feasible store. -/
theorem retrace_refutes_iff (hsession : session.Decides)
    (hroom : 0 < session.options.maxPathConstraints.toNat) (htrace : σ.Traces site trace σ')
    (hgoal : goal.lhs.isLocalRead = true ∧ goal.rhs.isLocalRead = true)
    (hholds : goal.Holds σ'.valuation) :
    (Refutes (retrace h site goal trace) ⟨{}, session⟩ (.unsat [goal.id]) ↔
      goal.ApartInName σ σ' ∨ goal.ApartInText site trace) ∧
    (Ends (retrace h site goal trace) ⟨{}, session⟩ (fun _ g => g.store.feasible = true) ↔
      ¬ (goal.ApartInName σ σ' ∨ goal.ApartInText site trace)) := by
  obtain ⟨hrefutes, hapart⟩ | ⟨hends, hno⟩ :=
    retrace_cases (h := h) hsession hroom htrace hgoal hholds
  · exact ⟨⟨fun _ => hapart, fun _ => hrefutes⟩, fun hends => absurd hends hrefutes.not_ends,
      fun hno => absurd hapart hno⟩
  · exact ⟨⟨fun hrefutes => absurd hends hrefutes.not_ends, fun hapart => absurd hapart hno⟩,
      fun _ => hno, fun _ => hends⟩

end PathM

/-! ## 5. Two allocations -/

/-- The state after a new object of the site `s` was put in `x`. -/
def State.create (σ : State) (x : Location) (s : AllocSite) (r : Ref) : State where
  root y := if y = x then .ref r else σ.root y
  heap q := if q = r then some (.ofFields s fun _ => .int 0) else σ.heap q
  root_live y q h := by
    split at h
    · cases h
      simp
    · split
      · rfl
      · exact σ.root_live y q h
  field_live p b f q h hq := by
    split at h
    · cases h
      cases Object.holds_ofFields.1 hq
    · split
      · rfl
      · exact σ.field_live p b f q h hq

theorem State.allocates_create {σ : State} {x : Location} {s : AllocSite} {r : Ref}
    (hr : σ.heap r = none) : σ.Allocates (σ.create x s r) x s := by
  refine ⟨r, .ofFields s fun _ => .int 0, hr, rfl, fun f q hq => ?_, fun _ => rfl, fun _ => rfl⟩
  cases Object.holds_ofFields.1 hq

theorem State.defaults_create {σ : State} {x : Location} {s : AllocSite} {r : Ref} :
    σ.Defaults (σ.create x s r) := by
  intro q b hfree hb f
  change (if q = r then some (.ofFields s fun _ => .int 0) else σ.heap q) = some b at hb
  split at hb
  · cases hb
    rfl
  · rw [hfree] at hb
    cases hb

namespace TwoObjects

def site : Site := ⟨⟨1⟩, false⟩

def alloc (n : UInt32) : AllocSite := ⟨n, "A", ⟨1⟩⟩

/-- All roots are null and there is no object. -/
def start : State where
  root _ := .int 0
  heap _ := none
  root_live _ _ h := by cases h
  field_live _ _ _ _ h := by cases h

/-- The first local holds an object of the site 1 and the second one of the site `n`. -/
def final (n : UInt32) : State :=
  (start.create (.slot ⟨1⟩ 1) (alloc 1) 0).create (.slot ⟨1⟩ 2) (alloc n) 1

def trace (n : UInt32) : List Instruction := [.new 1 (alloc 1), .new 2 (alloc n)]

/-- The two locals hold different objects. -/
def goal : Constraint := ⟨.bare (.slot ⟨1⟩ 1), .ne, .bare (.slot ⟨1⟩ 2), ⟨0⟩⟩

noncomputable def session : Session := { solver := some { backend := Smt.decideBackend } }

theorem decides_session : session.Decides :=
  ⟨rfl, _, rfl, .of_fresh Smt.ideal_decideBackend rfl rfl⟩

theorem traces_final (n : UInt32) : start.Traces site (trace n) (final n) := by
  refine .cons rfl (State.allocates_create (r := 0) rfl) State.defaults_create ?_
  refine .cons rfl (State.allocates_create (r := 1) rfl) State.defaults_create ?_
  exact .nil _

theorem holds_goal (n : UInt32) : goal.Holds (final n).valuation :=
  ⟨.ref 0, .ref 1, rfl, rfl, rfl⟩

/-- Two objects of different sites are kept apart. -/
theorem retrace_two_sites :
    ¬ goal.ApartInName start (final 2) ∧
    Ends (PathM.retrace {} site goal (trace 2)) ⟨{}, session⟩
      fun _ g => g.store.feasible = true := by
  have hapart : ¬ goal.ApartInName start (final 2) := by
    rintro ⟨-, x, y, hx, hy, r, q, b, c, rfl, rfl, -, -, hb, hc, hsymbol⟩
    cases hx
    cases hy
    cases hb
    cases hc
    have hchars := congrArg String.toList hsymbol
    simp [AccessPath.symbol, AccessPath.baseName, Pointer.site, Location.text, AllocSite.text,
      String.toList_map, alloc, Object.ofFields, AccessPath.map_symbolChar_toDigits] at hchars
    exact absurd (Smt.toDigits_injective hchars) (by decide)
  have htext : ¬ goal.ApartInText site (trace 2) := by
    -- no local stands for the second one before it is written
    unfold trace
    rw [Constraint.apartInText_cons, Constraint.apartInText_cons]
    rintro (⟨-, -, x, -, hx⟩ | ⟨-, -, x, -, hx⟩ | hnil)
    · cases hx
    · cases hx
    · exact Constraint.not_apartInText_nil hnil
  exact ⟨hapart, (PathM.retrace_refutes_iff decides_session (by decide) (traces_final 2) ⟨rfl, rfl⟩
    (holds_goal 2)).2.2 (not_or.2 ⟨hapart, htext⟩)⟩

/-- Two objects of one site are not: the execution that makes the goal true is refuted. -/
theorem retrace_refutes_one_site :
    start.Traces site (trace 1) (final 1) ∧ goal.Holds (final 1).valuation ∧
    Refutes (PathM.retrace {} site goal (trace 1)) ⟨{}, session⟩ (.unsat [⟨0⟩]) := by
  refine ⟨traces_final 1, holds_goal 1, ?_⟩
  obtain ⟨hrefutes, -⟩ | ⟨-, hno⟩ := PathM.retrace_cases (h := {}) decides_session (by decide)
    (traces_final 1) ⟨rfl, rfl⟩ (holds_goal 1)
  · exact hrefutes
  · refine absurd (.inl ?_) hno
    exact ⟨rfl, .ref 0, .ref 1, rfl, rfl, 0, 1, _, _, rfl, rfl, rfl, rfl, rfl, rfl, rfl⟩

end TwoObjects

end Refuter
