import Refuter.Proofs.Path.Operations
import Refuter.Proofs.Path.Tracking
import Refuter.Proofs.Smt.Context
import Mathlib.Logic.Relation

/-!
# Branches that share a solver

Path stores of one session are worked on in any order. Apart from a check, an operation leaves the
solver alone and unmarks a store whose constraints it changes. So a mark stands for an answer to
the very conjunction, and with an ideal backend each check decides the store's own formula.
-/

namespace Refuter

open StoreM

/-! ## 1. A check -/

/-- The solver is in use, its backend is ideal and its context is well formed. -/
def Session.Decides (s : Session) : Prop :=
  s.solverDisabled = false ∧ ∃ solver, s.solver = some solver ∧ solver.Sound

/-- A mark stands for an answer: the solver found the constraints satisfiable. -/
def PathStore.MarkedSat (s : PathStore) : Prop :=
  s.feasible = true → s.checked = true → s.encoding.Satisfiable

theorem Session.Decides.of_solver_eq {s s' : Session} (h : s.Decides)
    (hsolver : s'.solver = s.solver) (hdisabled : s'.solverDisabled = s.solverDisabled) :
    s'.Decides := by
  obtain ⟨henabled, hsound⟩ := h
  exact ⟨hdisabled.trans henabled, hsolver ▸ hsound⟩

theorem Session.check_of_ok {s : Session} {formula : Smt.Formula} {names : List String}
    {answer : Smt.Answer} {solver solver' : Smt.Solver} (henabled : s.solverDisabled = false)
    (hsolver : s.solver = some solver)
    (hcheck : Smt.Solver.check formula names solver = .ok answer solver')
    (hknown : answer ≠ .unknown) :
    Session.check formula names s = (answer, { s with solver := some solver' }) := by
  unfold Session.check
  simp only [bind, StateT.bind, get, getThe, MonadStateOf.get, StateT.get, pure, hsolver, henabled,
    Bool.false_eq_true, if_false, hcheck, hknown]
  rfl

theorem Session.check_decides {s : Session} {parts : List Smt.Comparison} {names : List String}
    (hs : s.Decides) (hnames : ∀ name ∈ names, ∃ v : AccessPath, name = v.symbol)
    (hparts : ∀ c ∈ parts, ∀ name ∈ c.names, name ∈ names) :
    ∃ answer s', Session.check (.all parts) names s = (answer, s') ∧ s'.Decides ∧
      (answer = .unsat ↔ ¬ (Smt.Formula.all parts).Satisfiable) := by
  obtain ⟨henabled, solver, hsolver, hsound⟩ := hs
  obtain ⟨answer, solver', hcheck, hsound', hanswer⟩ :=
    Smt.Solver.check_decides hsound hnames hparts
  have hknown : answer ≠ .unknown := by
    rintro rfl
    obtain ⟨h, -⟩ | ⟨h, -⟩ := hanswer <;> cases h
  refine ⟨answer, { s with solver := some solver' }, check_of_ok henabled hsolver hcheck hknown,
    ⟨henabled, solver', rfl, hsound'⟩, ?_⟩
  obtain ⟨rfl, hsat⟩ | ⟨rfl, hsat⟩ := hanswer
  · constructor
    · intro h
      cases h
    · exact fun h => absurd hsat h
  · exact ⟨fun _ => hsat, fun _ => rfl⟩

namespace PathStore

variable {s : PathStore}

theorem exists_path_of_mem_symbols {name : String} (h : name ∈ s.symbols.toList) :
    ∃ v : AccessPath, name = v.symbol := by
  obtain ⟨v, -, rfl⟩ := mem_symbols.1 h
  exact ⟨v, rfl⟩

/-- The formula for the solver is about the symbols that are declared for it. -/
theorem mem_symbols_of_mem_encoding {c : Smt.Comparison} {name : String}
    (hc : c ∈ s.constraints.map Constraint.encode ++ s.siteSymbols.toList.map notNull)
    (hname : name ∈ c.names) : name ∈ s.symbols.toList := by
  have hpath : ∃ v ∈ s.paths, name = v.symbol := by
    obtain hc | hc := List.mem_append.1 hc
    · obtain ⟨d, hd, rfl⟩ := List.mem_map.1 hc
      obtain ⟨v, hv, rfl⟩ := Constraint.mem_names_encode hname
      exact ⟨v, List.mem_flatMap.2 ⟨d, hd, hv⟩, rfl⟩
    · obtain ⟨symbol, hsymbol, rfl⟩ := List.mem_map.1 hc
      obtain rfl : name = symbol := List.mem_singleton.1 hname
      obtain ⟨v, hv, -, rfl⟩ := mem_siteSymbols.1 hsymbol
      exact ⟨v, hv, rfl⟩
  obtain ⟨v, hv, rfl⟩ := hpath
  exact mem_symbols.2 ⟨v, hv, rfl⟩

/-- The solver decides the store's formula. -/
theorem check_encoding_decides (s : PathStore) {session : Session} (hJ : session.Decides) :
    ∃ answer session', Session.check s.encoding s.symbols.toList session = (answer, session') ∧
      session'.Decides ∧ (answer = .unsat ↔ ¬ s.encoding.Satisfiable) := by
  rw [s.encoding_eq]
  exact Session.check_decides hJ (fun _ => exists_path_of_mem_symbols)
    fun _ hc _ => mem_symbols_of_mem_encoding hc

theorem satisfiable_of_isEmpty (h : s.constraints.isEmpty = true) : s.encoding.Satisfiable := by
  rw [s.encoding_eq]
  refine ⟨⟨fun _ => 0, fun _ => false, fun _ => 0, fun _ => 0⟩, fun c hc => ?_⟩
  rw [List.isEmpty_iff.1 h] at hc
  have hsites : s.siteSymbols.toList = [] := by
    unfold siteSymbols paths
    rw [List.isEmpty_iff.1 h]
    rfl
  rw [hsites] at hc
  cases hc

theorem MarkedSat.of_not_checked (h : s.checked = false) : s.MarkedSat := by
  intro _ hchecked
  rw [h] at hchecked
  cases hchecked

/-- Only a check marks a store, and no other operation uses the solver. -/
theorem law_markedSat :
    Law (fun _ : Timeless => Session.Decides) (fun _ => MarkedSat) (fun _ => True)
      fun _ _ => True where
  mono _ _ _ := le_refl _
  pointers _ _ _ := le_refl _
  known _ := trivial
  notes := by
    rintro w s - ⟨journal, rfl⟩ hs
    exact hs
  fresh hs := ⟨.world, le_refl _, hs⟩
  number hs _ := ⟨.world, le_refl _, hs, fun _ _ _ _ => .of_not_checked rfl⟩
  change _ _ := .of_not_checked rfl
  drop _ _ := .of_not_checked rfl
  refuted _ hfeasible := by cases hfeasible
  refutes _ := trivial

end PathStore

/-- The store after a check that did not refute it: there was nothing to ask, or it is marked. -/
def PathStore.answered (s : PathStore) : PathStore :=
  { s with checked := s.checked || !s.constraints.isEmpty }

namespace PathM

variable {f : Frame PathStore}

/-- The constraints of a feasible store have a solution, and the check ends, or they have none,
and the check says so. -/
theorem check_cases (hJ : f.session.Decides) (hP : f.store.MarkedSat)
    (hf : f.store.feasible = true) :
    (f.store.encoding.Satisfiable ∧
      Ends check f fun _ g => g.session.Decides ∧ g.store = f.store.answered) ∨
    (¬ f.store.encoding.Satisfiable ∧
      ∃ g, check f = .error (.refuted (.unsat (f.store.constraints.map Constraint.id))) g ∧
        g.session.Decides ∧ g.store.feasible = false) := by
  obtain ⟨⟨cs, checked, feasible, _, rfl⟩, s⟩ := f
  obtain rfl : feasible = true := hf
  by_cases hdone : (cs.isEmpty || checked) = true
  · -- nothing to ask: there is no constraint, or the answer is known
    have hrun : check ⟨{ constraints := cs, checked := checked }, s⟩ =
        .ok () ⟨{ constraints := cs, checked := checked }, s⟩ := by
      show (if (cs.isEmpty || checked) = true then (pure () : PathM Unit) else _) _ = _
      rw [if_pos hdone]
      rfl
    have hsame : { constraints := cs, checked := checked } =
        PathStore.answered { constraints := cs, checked := checked } := by
      simp only [PathStore.answered, PathStore.mk.injEq, true_and, and_true]
      cases checked <;> simp_all
    refine .inl ⟨?_, (), _, hrun, hJ, hsame⟩
    obtain hempty | hchecked := Bool.or_eq_true_iff.1 hdone
    · exact PathStore.satisfiable_of_isEmpty hempty
    · exact hP rfl hchecked
  · obtain ⟨answer, s', hcheck, hJ', hanswer⟩ :=
      PathStore.check_encoding_decides { constraints := cs, checked := checked } hJ
    have hasked : (session (Session.check
        (PathStore.encoding { constraints := cs, checked := checked })
        (PathStore.symbols { constraints := cs, checked := checked }).toList) : PathM Smt.Answer)
        ⟨{ constraints := cs, checked := checked }, s⟩ =
          .ok answer ⟨{ constraints := cs, checked := checked }, s'⟩ := by
      unfold session
      rw [hcheck]
    have hrun : check ⟨{ constraints := cs, checked := checked }, s⟩ =
        (if answer = .unsat then refute (.unsat (cs.map Constraint.id)) else pure ())
          ⟨{ constraints := cs }, s'⟩ := by
      show (if (cs.isEmpty || checked) = true then (pure () : PathM Unit) else _) _ = _
      rw [if_neg hdone]
      show EStateM.bind (session _) _ _ = _
      unfold EStateM.bind
      rw [hasked]
      rfl
    by_cases hunsat : answer = .unsat
    · refine .inr ⟨hanswer.1 hunsat, ?_⟩
      rw [hrun, if_pos hunsat]
      exact ⟨_, rfl, hJ', rfl⟩
    · have hsat : (PathStore.encoding { constraints := cs, checked := checked }).Satisfiable :=
        Classical.byContradiction fun h => hunsat (hanswer.2 h)
      have hmarked : { constraints := cs } =
          PathStore.answered { constraints := cs, checked := checked } := by
        simp only [PathStore.answered, PathStore.mk.injEq, true_and, and_true]
        cases checked <;> simp_all
      refine .inl ⟨hsat, (), ⟨{ constraints := cs }, s'⟩, ?_, hJ', hmarked⟩
      rw [hrun, if_neg hunsat]
      rfl

/-- The operation keeps the solver usable and the marks right. -/
abbrev KeepsMarks {α : Type} (x : PathM α) (Q : α → Prop) : Prop :=
  Evolves (fun _ : Timeless => Session.Decides) (fun _ => PathStore.MarkedSat) (fun _ => True)
    .world x fun _ => Q

theorem keepsMarks_add (c : Constraint) : KeepsMarks (add c) fun _ => True :=
  evolves_of_edits PathStore.law_markedSat (edits_add c) fun _ _ _ _ ht =>
    .of_not_checked (ht.2 ▸ rfl)

theorem keepsMarks_visit (h : HeapGraph) (site : Site) (i : Instruction) :
    KeepsMarks (visit h site i) fun rest => ∀ t ∈ rest, t.MarkedSat :=
  evolves_visit PathStore.law_markedSat h site i

theorem keepsMarks_check : KeepsMarks check fun _ => True := by
  intro f hJ hP
  unfold Results
  by_cases hf : f.store.feasible = true
  · obtain ⟨hsat, a, g, hrun, hJ', hg⟩ | ⟨-, g, hrun, hJ', hf'⟩ := check_cases hJ hP hf
    · rw [hrun]
      refine ⟨.world, le_refl _, hJ', fun _ _ => ?_, trivial⟩
      rw [hg]
      exact hsat
    · rw [hrun]
      refine ⟨.world, le_refl _, hJ', fun hfeasible => ?_, trivial⟩
      rw [hf'] at hfeasible
      cases hfeasible
  · have hrun : check f = .error (.refuted .alreadyRefuted) f := by
      obtain ⟨⟨cs, checked, feasible, _, _⟩, s⟩ := f
      obtain rfl : feasible = false := by simpa using hf
      rfl
    rw [hrun]
    exact ⟨.world, le_refl _, hJ, hP, trivial⟩

end PathM

/-! ## 2. Explorations -/

/-- Operation on a path store. -/
inductive PathOp where
  | add (c : Constraint)
  | visit (h : HeapGraph) (site : Site) (i : Instruction)
  | substitute (insert : Term) (target : AccessPath)
  | splice (insert : Term) (target : AccessPath)
  | spliceRead (insert : Term) (base : Pointer) (field : Field)
  | rename (p q : Pointer)
  | dropMentioning (p : Pointer)
  | enterCallee (call : Instruction) (caller : Site) (callee : MethodId)
  | returnToCaller (call : Instruction) (caller : Site)
  | skipCall (call : Instruction) (caller : Site)
  | takeSiteEqualities
  | check
  | isFeasible

namespace PathOp

/-- Runs the operation; returns the further cases. -/
def run : PathOp → PathM (List PathStore)
  | add c => do PathM.add c; return []
  | visit h site i => PathM.visit h site i
  | substitute insert target => do let _ ← PathM.substitute insert target; return []
  | splice insert target => do let _ ← PathM.splice insert target; return []
  | spliceRead insert base field => do let _ ← PathM.spliceRead insert base field; return []
  | rename p q => do let _ ← PathM.rename p q; return []
  | dropMentioning p => do let _ ← PathM.dropMentioning p; return []
  | enterCallee call caller callee => do PathM.enterCallee call caller callee; return []
  | returnToCaller call caller => do PathM.returnToCaller call caller; return []
  | skipCall call caller => do PathM.skipCall call caller; return []
  | takeSiteEqualities => do let _ ← PathM.takeSiteEqualities; return []
  | check => do PathM.check; return []
  | isFeasible => do let _ ← PathM.isFeasible; return []

/-- A law for all pointers is kept by every operation, if adding and checking keep it. -/
theorem evolves_run {W : Type} [Preorder W] {w : W} {J : W → Session → Prop}
    {P : W → PathStore → Prop} {E : Halt → Prop} {G : W → Pointer → Prop}
    (law : PathStore.Law J P E G) (hG : ∀ p, G w p)
    (hcall : ∀ step i, E (.fault (.notACall step i))) (op : PathOp)
    (hadd : ∀ c, op = .add c → Evolves J P E w (PathM.add c) fun _ _ => True)
    (hcheck : Evolves J P E w PathM.check fun _ _ => True) :
    Evolves J P E w op.run fun w' rest => ∀ t ∈ rest, P w' t := by
  have hend : ∀ {α : Type} {x : PathM α}, Evolves J P E w x (fun _ _ => True) →
      Evolves J P E w (do let _ ← x; return [])
        fun w' (rest : List PathStore) => ∀ t ∈ rest, P w' t :=
    fun hx => hx.bind fun _ _ _ _ => evolves_pure fun t ht => by cases ht
  have hterm : ∀ t : Term, t.Within (G w) := fun _ v _ => hG v.base
  cases op with
  | add c => exact hend (hadd c rfl)
  | visit g site i => exact PathM.evolves_visit law g site i
  | substitute insert target => exact hend (PathM.evolves_substitute law (hterm insert) target)
  | splice insert target => exact hend (PathM.evolves_splice law (hterm insert) target)
  | spliceRead insert base field =>
    exact hend (PathM.evolves_spliceRead law (hterm insert) base field)
  | rename p q => exact hend (PathM.evolves_rename law (hG q))
  | dropMentioning p => exact hend (PathM.evolves_dropMentioning law p)
  | enterCallee call caller callee =>
    exact hend (PathM.evolves_enterCallee law call caller callee fun _ => hcall _ _)
  | returnToCaller call caller =>
    exact hend (PathM.evolves_returnToCaller law call caller fun _ => hcall _ _)
  | skipCall call caller => exact hend (PathM.evolves_skipCall law call caller fun _ => hcall _ _)
  | takeSiteEqualities =>
    exact hend ((PathM.evolves_takeSiteEqualities law).mono fun _ _ _ _ => trivial)
  | check => exact hend hcheck
  | isFeasible => exact hend hcheck.succeeds

theorem keepsMarks_run (op : PathOp) :
    PathM.KeepsMarks op.run fun rest => ∀ t ∈ rest, t.MarkedSat :=
  evolves_run PathStore.law_markedSat (fun _ => trivial) (fun _ _ => trivial) op
    (fun c _ => PathM.keepsMarks_add c) PathM.keepsMarks_check

end PathOp

/-- Path stores of one session. -/
structure Exploration where
  session : Session
  branches : List PathStore

namespace Exploration

/-- One step of an exploration. An operation works on a copy of a branch: what it started from can
be gone back to, and what it leaves behind is there even if it halted. -/
inductive Step : Exploration → Exploration → Prop
  | start (w : Exploration) : Step w ⟨w.session, {} :: w.branches⟩
  | ends {w : Exploration} {s : PathStore} {op : PathOp} {rest : List PathStore}
      {g : Frame PathStore} (hs : s ∈ w.branches) (h : op.run ⟨s, w.session⟩ = .ok rest g) :
      Step w ⟨g.session, g.store :: rest ++ w.branches⟩
  | halts {w : Exploration} {s : PathStore} {op : PathOp} {e : Halt} {g : Frame PathStore}
      (hs : s ∈ w.branches) (h : op.run ⟨s, w.session⟩ = .error e g) :
      Step w ⟨g.session, g.store :: w.branches⟩
  /-- something else uses the session, but not its solver -/
  | other {w : Exploration} {session : Session} (hsolver : session.solver = w.session.solver)
      (hdisabled : session.solverDisabled = w.session.solverDisabled) : Step w ⟨session, w.branches⟩

/-- Nothing was asked yet and there is no branch. -/
structure IsNew (w : Exploration) : Prop where
  solver : ∃ backend transcript, backend.Ideal ∧
    w.session.solver = some { backend := backend, transcript := transcript }
  enabled : w.session.solverDisabled = false
  branches : w.branches = []

structure Sound (w : Exploration) : Prop where
  session : w.session.Decides
  branches : ∀ s ∈ w.branches, s.MarkedSat

variable {w w' : Exploration}

theorem IsNew.sound (h : w.IsNew) : w.Sound := by
  obtain ⟨backend, transcript, hideal, hsolver⟩ := h.solver
  refine ⟨⟨h.enabled, _, hsolver, .of_fresh hideal rfl rfl⟩, fun s hs => ?_⟩
  rw [h.branches] at hs
  cases hs

theorem Sound.step (h : w.Sound) (hstep : Step w w') : w'.Sound := by
  cases hstep with
  | start =>
    refine ⟨h.session, fun s hs => ?_⟩
    obtain rfl | hs := List.mem_cons.1 hs
    · exact fun _ _ => PathStore.satisfiable_of_isEmpty rfl
    · exact h.branches s hs
  | ends hs hrun =>
    rename_i s op rest g
    obtain ⟨-, -, hsession, hstore, hrest⟩ :=
      (op.keepsMarks_run ⟨s, w.session⟩ h.session (h.branches s hs)).of_ok hrun
    refine ⟨hsession, fun t ht => ?_⟩
    obtain ht | ht := List.mem_append.1 ht
    · obtain rfl | ht := List.mem_cons.1 ht
      · exact hstore
      · exact hrest t ht
    · exact h.branches t ht
  | halts hs hrun =>
    rename_i s op e g
    obtain ⟨-, -, hsession, hstore, -⟩ :=
      (op.keepsMarks_run ⟨s, w.session⟩ h.session (h.branches s hs)).of_error hrun
    refine ⟨hsession, fun t ht => ?_⟩
    obtain rfl | ht := List.mem_cons.1 ht
    · exact hstore
    · exact h.branches t ht
  | other hsolver hdisabled =>
    exact ⟨h.session.of_solver_eq hsolver hdisabled, h.branches⟩

theorem Sound.run (h : w.Sound) (hrun : Relation.ReflTransGen Step w w') : w'.Sound := by
  induction hrun with
  | refl => exact h
  | tail _ hstep ih => exact ih.step hstep

/-- Checks do not influence each other: in every exploration over one solver with an ideal backend,
a check of a feasible branch refutes it if and only if its own constraints have no solution, and
otherwise ends and leaves it as it was. -/
theorem check_refutes_iff {start : Exploration} (hstart : start.IsNew)
    (hrun : Relation.ReflTransGen Step start w) {s : PathStore} (hs : s ∈ w.branches)
    (hf : s.feasible = true) :
    (Refutes PathM.check ⟨s, w.session⟩ (.unsat (s.constraints.map Constraint.id)) ↔
      ¬ s.encoding.Satisfiable) ∧
    (Ends PathM.check ⟨s, w.session⟩ (fun _ g => g.store = s.answered) ↔
      s.encoding.Satisfiable) := by
  have hsound : w.Sound := hstart.sound.run hrun
  obtain ⟨hsat, hends⟩ | ⟨hunsat, g, hrefuted, -⟩ :=
    PathM.check_cases (f := ⟨s, w.session⟩) hsound.session (hsound.branches s hs) hf
  · have hend := hends.mono fun _ g hg => hg.2
    exact ⟨⟨fun hrefutes => absurd hend hrefutes.not_ends, fun h => absurd hsat h⟩,
      fun _ => hsat, fun _ => hend⟩
  · have hrefutes : Refutes PathM.check ⟨s, w.session⟩ (.unsat (s.constraints.map Constraint.id)) :=
      ⟨g, hrefuted⟩
    exact ⟨⟨fun _ => hunsat, fun _ => hrefutes⟩, fun hends => absurd hends hrefutes.not_ends,
      fun h => absurd h hunsat⟩

/-! Three branches of one exploration: the first is checked, then the others, of which one
contradicts the first and one contradicts itself. -/

namespace ThreeBranches

def slot1 : AccessPath := ⟨.slot ⟨1⟩ 1, []⟩

def isOne : Constraint := ⟨.var slot1, .eq, .const 1, ⟨0⟩⟩

def isTwo : Constraint := ⟨.var slot1, .eq, .const 2, ⟨1⟩⟩

def isLess : Constraint := ⟨.var slot1, .lt, .var slot1, ⟨2⟩⟩

noncomputable def start : Exploration := ⟨{ solver := some { backend := Smt.decideBackend } }, []⟩

theorem isNew_start : start.IsNew :=
  ⟨⟨Smt.decideBackend, none, Smt.ideal_decideBackend, rfl⟩, rfl, rfl⟩

/-- A new branch with one constraint. -/
theorem exists_add {w : Exploration} (c : Constraint) (hc : c.settle = .changed c)
    (hw : {} ∈ w.branches) (hoptions : w.session.options = {}) :
    ∃ w', Step w w' ∧ w'.branches = { constraints := [c], checked := false } :: w.branches ∧
      w'.session.options = {} := by
  have hadd : Ends (PathOp.add c).run ⟨{}, w.session⟩ fun rest g =>
      rest = [] ∧ g.store = { constraints := [c], checked := false } ∧ g.session.options = {} := by
    simp only [PathOp.run, PathM.add, ends_bind]
    refine PathM.ends_requireFeasible rfl ?_
    rw [hc]
    have hlimit : ¬ ([] : List Constraint).length ≥ w.session.options.maxPathConstraints.toNat := by
      rw [hoptions]
      decide
    simp only [ends_bind, ends_store, List.any_nil, Bool.false_eq_true, if_false, ends_options,
      if_neg hlimit, ends_debug, PathM.setConstraints, ends_modifyStore, ends_pure]
    exact ⟨trivial, rfl, hoptions⟩
  obtain ⟨rest, g, hrun, rfl, hstore, hoptions'⟩ := hadd
  exact ⟨_, .ends hw hrun, by simp [hstore], hoptions'⟩

/-- An exploration with the three branches, none of which was checked. -/
theorem exists_branches : ∃ w, Relation.ReflTransGen Step start w ∧
    w.branches = [{ constraints := [isLess], checked := false },
      { constraints := [isTwo], checked := false },
      { constraints := [isOne], checked := false }, {}] := by
  obtain ⟨w₁, hone, hbranches₁, hoptions₁⟩ := exists_add (w := ⟨start.session, [{}]⟩) isOne
    (by decide) List.mem_cons_self rfl
  obtain ⟨w₂, htwo, hbranches₂, hoptions₂⟩ := exists_add isTwo (by decide) (by simp [hbranches₁])
    hoptions₁
  obtain ⟨w₃, hless, hbranches₃, -⟩ := exists_add isLess (by decide)
    (by simp [hbranches₂, hbranches₁]) hoptions₂
  refine ⟨w₃, (((Relation.ReflTransGen.single (.start start)).tail hone).tail htwo).tail hless, ?_⟩
  rw [hbranches₃, hbranches₂, hbranches₁]

theorem satisfiable_of_holds {c : Constraint} (n : Int)
    (hsites : ({ constraints := [c], checked := false } : PathStore).siteSymbols.toList = [])
    (h : c.encode.Holds ⟨fun _ => n, fun _ => false, fun _ => 0, fun _ => 0⟩) :
    ({ constraints := [c], checked := false } : PathStore).encoding.Satisfiable := by
  rw [PathStore.encoding_eq]
  refine ⟨⟨fun _ => n, fun _ => false, fun _ => 0, fun _ => 0⟩, fun d hd => ?_⟩
  rw [hsites] at hd
  rw [List.mem_singleton.1 hd]
  exact h

theorem not_satisfiable_isLess :
    ¬ ({ constraints := [isLess], checked := false } : PathStore).encoding.Satisfiable := by
  rintro ⟨A, hA⟩
  have hlt := hA isLess.encode List.mem_cons_self
  simp [isLess, Constraint.encode, Smt.Comparison.Holds, CmpOp.apply] at hlt

theorem check_refutes_iff_own :
    ∃ w, Relation.ReflTransGen Step start w ∧ { constraints := [isOne] } ∈ w.branches ∧
      Ends PathM.check ⟨{ constraints := [isTwo], checked := false }, w.session⟩
        (fun _ g => g.store = { constraints := [isTwo] }) ∧
      Refutes PathM.check ⟨{ constraints := [isLess], checked := false }, w.session⟩
        (.unsat [⟨2⟩]) := by
  obtain ⟨w, hrun, hbranches⟩ := exists_branches
  -- the first branch is checked
  obtain ⟨_, g, hcheck, hstore⟩ :=
    (check_refutes_iff isNew_start hrun (s := { constraints := [isOne], checked := false })
      (by simp [hbranches]) rfl).2.2 (satisfiable_of_holds 1 rfl rfl)
  have hend : PathOp.check.run ⟨{ constraints := [isOne], checked := false }, w.session⟩ =
      .ok [] g := by
    show EStateM.bind PathM.check _ _ = _
    unfold EStateM.bind
    rw [hcheck]
    rfl
  have hstep : Step w ⟨g.session, g.store :: [] ++ w.branches⟩ :=
    .ends (by simp [hbranches]) hend
  have hrun' := hrun.tail hstep
  refine ⟨_, hrun', by simp [hstore, PathStore.answered], ?_, ?_⟩
  · exact (check_refutes_iff isNew_start hrun' (by simp [hbranches]) rfl).2.2
      (satisfiable_of_holds 2 rfl rfl)
  · exact (check_refutes_iff isNew_start hrun' (by simp [hbranches]) rfl).1.2
      not_satisfiable_isLess

end ThreeBranches

end Exploration

end Refuter
