import Refuter.Proofs.Path.Branches

/-!
# Representation of path stores

A path store keeps its constraints together with what was read off them, and every operation has
to leave both in order: no comparison twice, no number twice, nothing that is decided already and
no more than the settings allow, with the pointers, symbols and formula of exactly these
constraints. This holds of every store that a search comes to, also of the further cases of an
operation and of what a refuted one leaves.
-/

namespace Refuter

open StoreM

/-! ## 1. Constraints in order -/

theorem Constraint.sameAs_comm (c d : Constraint) : c.sameAs d = d.sameAs c := by
  simp only [sameAs, @eq_comm _ c.op, @eq_comm _ c.lhs, @eq_comm _ c.rhs]

theorem pairwise_eraseDupsBy {α : Type} {r : α → α → Bool} (l : List α) :
    (l.eraseDupsBy r).Pairwise fun a b => r b a = false := by
  match l with
  | [] => exact .nil
  | a :: rest =>
    rw [List.eraseDupsBy_cons]
    refine List.pairwise_cons.2 ⟨fun b hb => ?_, pairwise_eraseDupsBy _⟩
    have hb := (eraseDupsBy_sublist _).subset hb
    exact of_decide_eq_true (List.mem_filter.1 hb).2
termination_by l.length
decreasing_by exact Nat.lt_succ_of_le (List.length_filter_le _ _)

/-- The constraints are in order, with numbers below `next`. -/
structure PathStore.Regular (limit next : Nat) (s : PathStore) : Prop where
  distinct : s.constraints.Pairwise fun c d => c.sameAs d = false
  ids : (s.constraints.map Constraint.id).Nodup
  numbered : ∀ c ∈ s.constraints, c.id.number < next
  isConstant : ∀ c ∈ s.constraints, c.isConstant = false
  length : s.constraints.length ≤ limit

namespace PathStore.Regular

variable {limit next : Nat} {s : PathStore}

theorem of_sublist {cs : List Constraint} (h : s.Regular limit next)
    (hcs : cs.Sublist s.constraints) : (s.put cs).Regular limit next where
  distinct := h.distinct.sublist hcs
  ids := h.ids.sublist (hcs.map _)
  numbered c hc := h.numbered c (hcs.subset hc)
  isConstant c hc := h.isConstant c (hcs.subset hc)
  length := Nat.le_trans hcs.length_le h.length

theorem append {c : Constraint} (h : s.Regular limit next) (hid : c.id = ⟨next⟩)
    (htakes : s.Takes limit c) : (s.put (s.constraints ++ [c])).Regular limit (next + 1) where
  distinct := by
    refine List.pairwise_append.2 ⟨h.distinct, List.pairwise_singleton _ _, fun d hd e he => ?_⟩
    rw [List.mem_singleton.1 he]
    exact htakes.new d hd
  ids := by
    show ((s.constraints ++ [c]).map Constraint.id).Nodup
    rw [List.map_append]
    refine List.nodup_append.2 ⟨h.ids, by simp, fun a ha b hb => ?_⟩
    obtain ⟨d, hd, rfl⟩ := List.mem_map.1 ha
    obtain rfl : b = c.id := by simpa using hb
    -- the numbers in the store were handed out before
    have hlt := h.numbered d hd
    rintro heq
    rw [heq, hid] at hlt
    exact Nat.lt_irrefl _ hlt
  numbered d hd := by
    obtain hd | hd := List.mem_append.1 hd
    · exact Nat.lt_succ_of_lt (h.numbered d hd)
    · rw [List.mem_singleton.1 hd, hid]
      exact Nat.lt_succ_self next
  isConstant d hd := by
    obtain hd | hd := List.mem_append.1 hd
    · exact h.isConstant d hd
    · rw [List.mem_singleton.1 hd]
      exact htakes.isConstant
  length := by
    show (s.constraints ++ [c]).length ≤ limit
    rw [List.length_append]
    exact htakes.room

end PathStore.Regular

theorem Settled.ids_remains_sublist {G : Pointer → Prop} {change : Constraint → Settled}
    (h : Settled.Rewrites G change) (cs : List Constraint) :
    ((cs.filterMap fun c => (change c).remains c).map Constraint.id).Sublist
      (cs.map Constraint.id) := by
  induction cs with
  | nil => exact List.Sublist.refl _
  | cons c rest ih =>
    cases hd : (change c).remains c with
    | none =>
      rw [List.filterMap_cons_none (f := fun c => (change c).remains c) hd]
      exact ih.cons c.id
    | some d =>
      have hid : d.id = c.id := (remains_eq_some h hd).elim (congrArg _) Constraint.Rewrites.id
      rw [List.filterMap_cons_some (f := fun c => (change c).remains c) hd, List.map_cons, hid]
      exact ih.cons_cons c.id

theorem PathStore.Regular.change {limit next : Nat} {s : PathStore} {G : Pointer → Prop}
    {change : Constraint → Settled} (h : s.Regular limit next)
    (hchange : Settled.Rewrites G change) :
    (s.put (Settled.remaining change s.constraints)).Regular limit next := by
  let remains := s.constraints.filterMap fun c => (change c).remains c
  have hsub : (Settled.remaining change s.constraints).Sublist remains :=
    eraseDupsBy_sublist remains
  refine ⟨?_, ?_, fun d hd => ?_, fun d hd => ?_, ?_⟩
  · refine (pairwise_eraseDupsBy remains).imp fun hdc => ?_
    rw [Constraint.sameAs_comm]
    exact hdc
  · exact h.ids.sublist ((hsub.map _).trans (Settled.ids_remains_sublist hchange _))
  · obtain ⟨c, hc, rfl | hrewrites⟩ := Settled.exists_of_mem_remaining hchange hd
    · exact h.numbered d hc
    · rw [hrewrites.id]
      exact h.numbered c hc
  · obtain ⟨c, hc, rfl | hrewrites⟩ := Settled.exists_of_mem_remaining hchange hd
    · exact h.isConstant d hc
    · exact hrewrites.isConstant
  · exact Nat.le_trans (Nat.le_trans hsub.length_le (List.length_filterMap_le _ _)) h.length

/-! ## 2. Every operation keeps them in order -/

/-- How many constraints were numbered, and under which settings. -/
structure Counter where
  next : Nat
  options : Options

namespace Counter

instance : Preorder Counter where
  le a b := a.next ≤ b.next ∧ a.options = b.options
  le_refl a := ⟨Nat.le_refl _, rfl⟩
  le_trans a b c hab hbc := ⟨Nat.le_trans hab.1 hbc.1, hab.2.trans hbc.2⟩

/-- The counter of the session. -/
def Counts (n : Counter) (s : Session) : Prop := s.nextConstraint = n.next ∧ s.options = n.options

/-- The store is in order, as far as the counter tells. -/
def Orders (n : Counter) (s : PathStore) : Prop :=
  s.Regular n.options.maxPathConstraints.toNat n.next

end Counter

theorem PathStore.law_orders :
    PathStore.Law Counter.Counts Counter.Orders (fun _ => True) fun _ _ => True where
  mono a b hab s hs := by
    refine ⟨hs.distinct, hs.ids, fun c hc => ?_, hs.isConstant, ?_⟩
    · exact Nat.lt_of_lt_of_le (hs.numbered c hc) hab.1
    · exact hab.2 ▸ hs.length
  pointers _ _ _ := le_refl _
  known _ := trivial
  notes := by
    rintro n s - ⟨journal, rfl⟩ hs
    exact hs
  fresh hs := ⟨_, le_refl _, hs⟩
  number := by
    rintro n session s ⟨hnext, hoptions⟩ hs
    refine ⟨⟨n.next + 1, n.options⟩, ⟨Nat.le_succ _, rfl⟩, ⟨?_, hoptions⟩, fun c hid _ htakes => ?_⟩
    · rw [hnext]
    · rw [hnext] at hid
      rw [hoptions] at htakes
      exact hs.append hid htakes
  change hs hchange := hs.change hchange
  drop _ hs := hs.of_sublist List.filter_sublist
  refuted hs := ⟨hs.distinct, hs.ids, hs.numbered, hs.isConstant, hs.length⟩
  refutes _ := trivial

theorem PathOp.evolves_run_orders {op : PathOp} (hop : ∀ c, op ≠ .add c) (n : Counter) :
    Evolves Counter.Counts Counter.Orders (fun _ => True) n op.run
      fun n rest => ∀ t ∈ rest, n.Orders t := by
  refine PathOp.evolves_run PathStore.law_orders (fun _ => trivial) (fun _ _ => trivial) op
    (fun c hc => absurd hc (hop c)) ?_
  exact PathM.evolves_check PathStore.law_orders (fun _ _ _ hs => hs)
    fun hs => ⟨hs.distinct, hs.ids, hs.numbered, hs.isConstant, hs.length⟩

/-! ## 3. Reached stores -/

namespace PathStore

/-- A store without constraints, or with one that the session numbered. -/
def IsNew (session : Session) (s : PathStore) : Prop :=
  s = empty ∨ ∃ (c : Constraint) (first : Session), c.id.number < first.nextConstraint ∧
    PathM.add c ⟨.empty, first⟩ = .ok () ⟨s, session⟩

/-- Any operation but the addition of a constraint from outside. -/
def IsStep (_ : PathStore) (x : PathM (List PathStore)) : Prop :=
  ∃ op : PathOp, (∀ c, op ≠ .add c) ∧ x = op.run

/-- The session went on under the same settings. -/
def IsLater (session session' : Session) : Prop :=
  session'.options = session.options ∧ session.nextConstraint ≤ session'.nextConstraint

/-- A store that a search comes to. -/
abbrev Reached : Session → PathStore → Prop := StoreM.Reached IsNew IsStep IsLater

theorem regular_empty {limit next : Nat} : Regular limit next empty where
  distinct := .nil
  ids := .nil
  numbered _ hc := by cases hc
  isConstant _ hc := by cases hc
  length := Nat.zero_le limit

theorem IsNew.exists_counter {session : Session} {s : PathStore} (h : IsNew session s) :
    ∃ n : Counter, n.Counts session ∧ n.Orders s := by
  obtain rfl | ⟨c, first, hc, hrun⟩ := h
  · exact ⟨⟨session.nextConstraint, session.options⟩, ⟨rfl, rfl⟩, regular_empty⟩
  · obtain ⟨⟨journal, hsession⟩, hstore⟩ := (PathM.edits_add c ⟨.empty, first⟩).of_ok hrun
    obtain rfl : session = { first with journal := journal } := hsession
    refine ⟨⟨first.nextConstraint, first.options⟩, ⟨rfl, rfl⟩, ?_⟩
    obtain hs | ⟨htakes, hs⟩ := hstore
    · obtain rfl : s = empty := hs
      exact regular_empty
    · -- the one constraint has a number of its own
      obtain rfl : s = put empty [c] := hs
      refine ⟨List.pairwise_singleton _ _, by simp [put], fun d hd => ?_, fun d hd => ?_, ?_⟩
      · rw [List.mem_singleton.1 hd]
        exact hc
      · rw [List.mem_singleton.1 hd]
        exact htakes.isConstant
      · exact htakes.room

theorem Reached.exists_counter {session : Session} {s : PathStore} (h : Reached session s) :
    ∃ n : Counter, n.Counts session ∧ n.Orders s := by
  refine StoreM.Reached.invariant law_orders.mono (fun _ _ => IsNew.exists_counter) ?_ ?_ h
  · rintro n session s x hcounts hs ⟨op, hop, rfl⟩
    exact (op.evolves_run_orders hop n).branches hcounts hs
  · rintro n session session' ⟨hnext, hoptions⟩ ⟨hsame, hlater⟩
    refine ⟨⟨session'.nextConstraint, n.options⟩, ⟨?_, rfl⟩, rfl, hsame.trans hoptions⟩
    rw [← hnext]
    exact hlater

theorem text_notNull (name : String) : (notNull name).text = "(distinct " ++ name ++ " 0)" := by
  have hopen : "(" ++ "distinct" ++ " " = "(distinct " := by decide
  have hclose : " " ++ "0" ++ ")" = " 0)" := by decide
  show "(" ++ "distinct" ++ " " ++ name ++ " " ++ "0" ++ ")" = _
  rw [hopen, ← hclose]
  simp only [String.append_assoc]

/-- The formula as text. -/
theorem text_encoding (s : PathStore) :
    s.encoding.text = Smt.conjunctionText (s.constraints.map (·.encode.text) ++
      s.siteSymbols.toList.map fun name => "(distinct " ++ name ++ " 0)") := by
  rw [s.encoding_eq]
  simp only [Smt.Formula.text, List.map_append, List.map_map, Function.comp_def, text_notNull]

/-- A property of the paths is found at some constraint. -/
theorem exists_mem_paths_iff {s : PathStore} {Q : AccessPath → Prop} :
    (∃ v ∈ s.paths, Q v) ↔ ∃ c ∈ s.constraints, ∃ v ∈ c.paths, Q v := by
  simp only [paths, List.mem_flatMap]
  constructor
  · rintro ⟨v, ⟨c, hc, hv⟩, hQ⟩
    exact ⟨c, hc, v, hv, hQ⟩
  · rintro ⟨c, hc, v, hv, hQ⟩
    exact ⟨v, ⟨c, hc, hv⟩, hQ⟩

/-- Representation invariant: in every store that a search comes to no comparison and no number
occurs twice, nothing is constant, and there are no more constraints than allowed; the pointers,
the symbols and the formula for the solver are those of the constraints. -/
theorem Reached.representation {session : Session} {s : PathStore} (h : Reached session s) :
    s.constraints.Pairwise (fun c d => ¬ (c.lhs = d.lhs ∧ c.op = d.op ∧ c.rhs = d.rhs)) ∧
    (s.constraints.map Constraint.id).Nodup ∧
    (∀ c ∈ s.constraints, c.isConstant = false) ∧
    s.constraints.length ≤ session.options.maxPathConstraints.toNat ∧
    (∀ p, p ∈ s.pointers ↔ ∃ c ∈ s.constraints, ∃ v ∈ c.paths, v.base = p) ∧
    (∀ name, name ∈ s.symbols ↔ ∃ c ∈ s.constraints, ∃ v ∈ c.paths, v.symbol = name) ∧
    ∃ sites : SortedSet String,
      (∀ name, name ∈ sites ↔ ∃ c ∈ s.constraints, ∃ v ∈ c.paths, v.fields = [] ∧
        (∀ x ∈ v.base.candidates, x.isSite = true) ∧ v.symbol = name) ∧
      s.encoding.text = Smt.conjunctionText (s.constraints.map (·.encode.text) ++
        sites.toList.map fun name => "(distinct " ++ name ++ " 0)") := by
  obtain ⟨n, ⟨-, hoptions⟩, hs⟩ := h.exists_counter
  refine ⟨hs.distinct.imp fun hcd => ?_, hs.ids, hs.isConstant, hoptions ▸ hs.length, fun p => ?_,
    fun name => ?_, s.siteSymbols, fun name => ?_, s.text_encoding⟩
  · rintro ⟨hlhs, hop, hrhs⟩
    simp [Constraint.sameAs, hlhs, hop, hrhs] at hcd
  · rw [mem_pointers, exists_mem_paths_iff]
  · rw [mem_symbols, exists_mem_paths_iff]
  · rw [mem_siteSymbols, exists_mem_paths_iff]
    simp [AccessPath.isSite, Pointer.isSite, and_assoc]

/-! A goal and a switch: the second case holds the goal and one comparison of its own. -/

namespace SwitchCase

def slot (l : Local) : Term := .bare (.slot ⟨1⟩ l)

def goal : Constraint := ⟨slot 1, .lt, slot 2, ⟨0⟩⟩

def start : PathStore := { constraints := [goal], checked := false }

def switch : PathOp := .visit {} { method := ⟨1⟩ } (.switch (.slot 2) [1, 2] (.cases [1, 2]))

def sibling : PathStore :=
  { constraints := [goal, ⟨slot 2, .eq, .const 2, ⟨2⟩⟩], checked := false }

theorem exists_reached : ∃ session, Reached session sibling ∧ session.options = {} := by
  have hgoal : Ends (PathM.add goal) ⟨.empty, { nextConstraint := 1 }⟩ fun _ g =>
      g.store = start ∧ g.session.options = {} ∧ g.session.nextConstraint = 1 :=
    ⟨_, _, rfl, rfl, rfl, rfl⟩
  have hswitch : Ends switch.run ⟨start, { nextConstraint := 1 }⟩ fun rest g =>
      sibling ∈ rest ∧ g.session.options = {} :=
    ⟨_, _, rfl, List.mem_cons_self, rfl⟩
  have hstep : IsStep start switch.run := ⟨switch, (fun _ h => by cases h), rfl⟩
  obtain ⟨_, ⟨s, session⟩, hadd, hs, hoptions, hnext⟩ := hgoal
  obtain rfl : s = start := hs
  have hstart : Reached session start := .start (.inr ⟨goal, _, by decide, hadd⟩)
  obtain ⟨rest, g, hrun, hmem, hoptions'⟩ := hswitch
  refine ⟨g.session, ?_, hoptions'⟩
  apply (hstart.later ⟨hoptions.symm, Nat.le_of_eq hnext⟩).ends hstep hrun
  exact List.mem_cons_of_mem _ hmem

theorem representation_sibling : ∃ session, Reached session sibling ∧
    sibling.constraints.length ≤ 16 ∧ (sibling.constraints.map Constraint.id).Nodup ∧
    ∀ p, p ∈ sibling.pointers ↔ ∃ c ∈ sibling.constraints, ∃ v ∈ c.paths, v.base = p := by
  obtain ⟨session, hreached, hoptions⟩ := exists_reached
  obtain ⟨-, hids, -, hlength, hpointers, -⟩ := hreached.representation
  rw [hoptions] at hlength
  exact ⟨session, hreached, hlength, hids, hpointers⟩

end SwitchCase

end PathStore

end Refuter
