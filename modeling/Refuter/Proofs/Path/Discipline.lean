import Refuter.Proofs.Path.Marks
import Refuter.Proofs.Smt.Protocol
import Refuter.Smt.Script

/-!
# What explorations ask of a backend

The branches of one session share a solver, and its backend may answer or fail as it likes. In every
exploration the calls it sees follow the protocol, a store that was sent is not sent again as long
as its constraints are left alone, and a backend that once gave up is left alone.
-/

namespace Refuter

open StoreM

/-! ## 1. Checks -/

/-- The calls that the backend has seen, the newest first. -/
def Session.log (s : Session) : List Smt.Call := (s.solver.map (·.calls)).getD []

/-- The frame that an operation leaves behind, whether or not it halts. -/
def StoreM.final {σ α : Type} (x : StoreM σ α) (f : Frame σ) : Frame σ :=
  match x f with
  | .ok _ g => g
  | .error _ g => g

theorem StoreM.final_of_results {σ α : Type} {x : StoreM σ α} {f : Frame σ} {P : Frame σ → Prop}
    (h : Results x f (fun _ => P) fun _ => P) : P (final x f) := by
  unfold Results at h
  unfold final
  cases hx : x f with
  | ok a g =>
    rw [hx] at h
    exact h
  | error e g =>
    rw [hx] at h
    exact h

namespace PathStore

/-- Checking the store calls the backend. -/
def IsSent (s : PathStore) (session : Session) : Prop :=
  (final PathM.check ⟨s, session⟩).session.log ≠ session.log

/-- `t` comes from `s` by operations that rewrite, add or remove no constraint. -/
def Unedited : PathStore → PathStore → Prop :=
  Relation.ReflTransGen fun s t => ∃ op : PathOp, op.Gives s t ∧ ¬ op.Edits s t

end PathStore

namespace PathM

variable {s : PathStore} {session : Session}

/-- A refuted store is not asked about, nor one without constraints or with a mark. -/
theorem results_check_of_marked (h : s.feasible = true → s.checked = true) :
    Results check ⟨s, session⟩ (fun _ g => g.session = session) fun _ g => g.session = session := by
  unfold check
  by_cases hf : s.feasible = true
  · rw [results_bind]
    refine results_requireFeasible ?_ rfl
    rw [results_bind, results_store]
    simp only [h hf, Bool.or_true, if_true, results_pure]
  · unfold requireFeasible
    simp only [results_bind, results_store]
    rw [if_pos (by simpa using hf)]
    exact rfl

/-- A check that uses the session leaves a mark. -/
theorem results_check_mark :
    Results check ⟨s, session⟩
      (fun _ g => g.session = session ∨ g.store.checked = true)
      fun _ g => g.session = session ∨ g.store.checked = true := by
  unfold check
  rw [results_bind]
  refine results_requireFeasible ?_ (.inl rfl)
  simp only [results_bind, results_store]
  split
  · exact .inl rfl
  · -- the mark is set before the answer is looked at
    simp only [results_bind, results_session, results_modifyStore]
    split
    · exact results_refute.2 (.inr rfl)
    · exact .inr rfl

/-- A solver that gave up is not asked, and refutes nothing. -/
theorem ends_check_of_disabled (hf : s.feasible = true)
    (hdisabled : session.solverDisabled = true) :
    Ends check ⟨s, session⟩ fun _ g => g.session = session := by
  have hcheck : Session.check s.encoding s.symbols.toList session = (.unknown, session) := by
    obtain ⟨-, hcheck⟩ | ⟨_, -, henabled, -⟩ :=
      Session.check_cases s.encoding s.symbols.toList session
    · exact hcheck
    · rw [hdisabled] at henabled
      cases henabled
  unfold check
  rw [ends_bind]
  refine ends_requireFeasible hf ?_
  rw [ends_bind, ends_store]
  split
  · exact ⟨(), _, rfl, rfl⟩
  · refine ⟨(), _, ask_of_ne_unsat ?_, congrArg Prod.snd hcheck⟩
    rw [hcheck]
    intro h
    cases h

end PathM

/-- A store that was sent is not sent again before its constraints are edited. -/
theorem PathStore.Unedited.not_isSent {s t : PathStore} {session : Session}
    (hsent : s.IsSent session) (h : Unedited (final PathM.check ⟨s, session⟩).store t)
    (later : Session) : ¬ t.IsSent later := by
  have hmark : (final PathM.check ⟨s, session⟩).store.checked = true := by
    refine (final_of_results PathM.results_check_mark).resolve_left fun hsame => hsent ?_
    rw [hsame]
  have ht : t.feasible = true → t.checked = true := by
    -- a store that is refuted on the way may lose its mark, but is not sent either
    induction h with
    | refl => exact fun _ => hmark
    | tail _ hstep ih =>
      obtain ⟨op, hgives, hedits⟩ := hstep
      exact hgives.checked hedits ih
  exact fun hsent' => hsent' (congrArg Session.log
    (final_of_results (P := fun g => g.session = later) (PathM.results_check_of_marked ht)))

/-! ## 2. The solver of an exploration -/

/-- A property of the solver and of whether it is in use. -/
structure Session.SolverLaw (J : Session → Prop) : Prop where
  congr : ∀ {s s' : Session}, J s → s'.solver = s.solver →
    s'.solverDisabled = s.solverDisabled → J s'
  check : ∀ (store : PathStore) {s : Session}, J s →
    J (Session.check store.encoding store.symbols.toList s).2

namespace Session.SolverLaw

variable {J : Session → Prop} (law : SolverLaw J)
include law

theorem pathLaw :
    PathStore.Law (fun _ : Timeless => J) (fun _ _ => True) (fun _ => True) fun _ _ => True where
  mono _ _ _ _ _ := trivial
  pointers _ _ _ _ _ := trivial
  known _ := trivial
  notes := by
    rintro w s - ⟨journal, rfl⟩ hs
    exact law.congr hs rfl rfl
  fresh hs := ⟨.world, le_refl _, law.congr hs rfl rfl⟩
  number hs _ := ⟨.world, le_refl _, law.congr hs rfl rfl, fun _ _ _ _ => trivial⟩
  change _ _ := trivial
  drop _ _ := trivial
  refuted _ := trivial
  refutes _ := trivial

theorem evolves_run (op : PathOp) :
    Evolves (fun _ : Timeless => J) (fun _ _ => True) (fun _ => True) .world op.run
      fun _ rest => ∀ t ∈ rest, True := by
  refine PathOp.evolves_run law.pathLaw (fun _ => trivial) (fun _ _ => trivial) op
    (fun c _ => ?_) ?_
  · exact PathM.evolves_of_edits law.pathLaw (PathM.edits_add c) fun _ _ _ _ _ => trivial
  · exact PathM.evolves_check_of law.pathLaw (fun t => law.check t) fun _ => trivial

theorem step {w w' : Exploration} (hstep : Exploration.Step w w') (h : J w.session) :
    J w'.session := by
  cases hstep with
  | start => exact h
  | ends _ hrun => exact ((law.evolves_run _ ⟨_, w.session⟩ h trivial).of_ok hrun).choose_spec.2.1
  | halts _ hrun =>
    exact ((law.evolves_run _ ⟨_, w.session⟩ h trivial).of_error hrun).choose_spec.2.1
  | other hsolver hdisabled => exact law.congr h hsolver hdisabled

theorem run {w w' : Exploration} (hrun : Relation.ReflTransGen Exploration.Step w w')
    (h : J w.session) : J w'.session := by
  induction hrun with
  | refl => exact h
  | tail _ hstep ih => exact law.step hstep ih

end Session.SolverLaw

/-! ## 3. Discipline -/

/-- The log is in order, and as long as the solver is in use every call was taken. -/
def Session.Orderly (b : Smt.Backend) (s : Session) : Prop :=
  ∃ solver, s.solver = some solver ∧ Smt.Solver.Follows b solver ∧
    (s.solverDisabled = false → solver.Open)

theorem Session.solverLaw_orderly (b : Smt.Backend) : SolverLaw (Session.Orderly b) where
  congr h hsolver hdisabled := by
    unfold Session.Orderly at h ⊢
    rw [hsolver, hdisabled]
    exact h
  check store s h := by
    obtain ⟨solver, hsolver, hfollows, hopen⟩ := h
    obtain ⟨-, hcheck⟩ | ⟨solver, hsolver', henabled, hrun⟩ :=
      Session.check_cases store.encoding store.symbols.toList s
    · rw [hcheck]
      exact ⟨solver, hsolver, hfollows, hopen⟩
    · cases hsolver.symm.trans hsolver'
      have hresults : (Smt.Solver.check store.encoding store.symbols.toList).Results solver
          (fun answer t => Smt.Solver.Follows b t ∧ (answer ≠ .unknown → t.Open))
          (Smt.Solver.Follows b) := by
        rw [← hfollows.1, store.encoding_eq]
        exact (hopen henabled).results_check (fun _ => PathStore.exists_path_of_mem_symbols)
          fun _ hc _ => PathStore.mem_symbols_of_mem_encoding hc
      obtain ⟨answer, solver', journal, hsolve, hcheck⟩ |
        ⟨reason, solver', journal, hsolve, hcheck⟩ := hrun
      · -- an undecided check is what puts the solver out of use
        obtain ⟨hfollows', hopen'⟩ := hresults.of_ok hsolve
        rw [hcheck]
        exact ⟨solver', rfl, hfollows', fun hknown => hopen' (by simpa using hknown)⟩
      · rw [hcheck]
        exact ⟨solver', rfl, hresults.of_error hsolve, nofun⟩

/-- The solver is out of use. -/
theorem Session.solverLaw_disabled (solver : Option Smt.Solver) :
    SolverLaw fun s => s.solver = solver ∧ s.solverDisabled = true where
  congr h hsolver hdisabled := ⟨hsolver.trans h.1, hdisabled.trans h.2⟩
  check store s h := by
    obtain ⟨-, hcheck⟩ | ⟨_, -, henabled, -⟩ :=
      Session.check_cases store.encoding store.symbols.toList s
    · rw [hcheck]
      exact h
    · rw [h.2] at henabled
      cases henabled

namespace Exploration

variable {b : Smt.Backend} {start w : Exploration}

/-- Nothing was asked of the backend yet and there is no branch. -/
structure Begins (b : Smt.Backend) (w : Exploration) : Prop where
  solver : ∃ transcript, w.session.solver = some { backend := b, transcript := transcript }
  enabled : w.session.solverDisabled = false
  branches : w.branches = []

theorem Begins.orderly (h : start.Begins b) : start.session.Orderly b := by
  obtain ⟨transcript, hsolver⟩ := h.solver
  exact ⟨_, hsolver, ⟨rfl, .nil b⟩, fun _ => .of_fresh rfl rfl⟩

/-- However a backend answers and fails, every exploration keeps to the protocol: the calls are
disciplined, a store that was sent is not sent again until its constraints are edited, and once the
backend gave up it is not called any more and no check refutes a store. -/
theorem calls_disciplined (hstart : start.Begins b) (hrun : Relation.ReflTransGen Step start w) :
    Smt.Disciplined b w.session.log ∧
    (∀ s : PathStore, s.IsSent w.session → ∀ t,
      PathStore.Unedited (final PathM.check ⟨s, w.session⟩).store t →
      ∀ later : Session, ¬ t.IsSent later) ∧
    (∀ calls, calls <:+ w.session.log → b.GivesUp calls →
      ∀ later, Relation.ReflTransGen Step w later → later.session.log = w.session.log ∧
        ∀ s : PathStore, s.feasible = true →
          Ends PathM.check ⟨s, later.session⟩ fun _ g => g.session.log = w.session.log) := by
  obtain ⟨solver, hsolver, ⟨hbackend, horderly⟩, hopen⟩ :=
    (Session.solverLaw_orderly b).run hrun hstart.orderly
  have hlog : w.session.log = solver.calls := by
    unfold Session.log
    rw [hsolver]
    rfl
  refine ⟨hlog ▸ horderly.disciplined, fun s hsent t ht => ht.not_isSent hsent,
    fun calls hcalls hgivesUp later hlater => ?_⟩
  -- while the solver is in use no call was refused, so it is out of use for good
  have hdisabled : w.session.solverDisabled = true := by
    by_contra henabled
    rw [← hbackend] at hgivesUp
    exact (hopen (by simpa using henabled)).not_givesUp (hlog ▸ hcalls) hgivesUp
  obtain ⟨hsolver', hdisabled'⟩ :=
    (Session.solverLaw_disabled (some solver)).run hlater ⟨hsolver, hdisabled⟩
  have hlog' : later.session.log = w.session.log := by
    unfold Session.log
    rw [hsolver', hsolver]
  refine ⟨hlog', fun s hs => (PathM.ends_check_of_disabled hs hdisabled').mono fun _ g hg => ?_⟩
  rw [hg, hlog']

/-! Two branches with one constraint each. The first is checked, and at the assertion of the second
one the backend fails. -/

namespace FailingBackend

open ThreeBranches

/-- The exploration after an operation on a branch. -/
def apply (w : Exploration) (op : PathOp) (s : PathStore) : Exploration :=
  match op.run ⟨s, w.session⟩ with
  | .ok rest g => ⟨g.session, g.store :: rest ++ w.branches⟩
  | .error _ g => ⟨g.session, g.store :: w.branches⟩

theorem step_apply {w : Exploration} {s : PathStore} (op : PathOp) (hs : s ∈ w.branches) :
    Step w (apply w op s) := by
  unfold apply
  split
  · rename_i heq
    exact .ends hs heq
  · rename_i heq
    exact .halts hs heq

def backend : Smt.Backend := Smt.Script.backend [.sat, .failAssert]

def initial : Exploration := ⟨{ solver := some { backend := backend } }, []⟩

def one : PathStore := { constraints := [isOne], checked := false }

def two : PathStore := { constraints := [isTwo], checked := false }

/-- Both branches are there, and nothing was asked. -/
def unasked : Exploration :=
  apply (apply ⟨initial.session, [.empty]⟩ (.add isOne) .empty) (.add isTwo) .empty

def failed : Exploration := apply (apply unasked .check one) .check two

def calls : List Smt.Call :=
  [.assert "m2" two.encoding, .declareBool "m2", .check "m1", .assert "m1" one.encoding,
    .declareBool "m1", .declareInt slot1.symbol]

theorem reaches_unasked : Relation.ReflTransGen Step initial unasked := by
  have hfirst : Relation.ReflTransGen Step initial ⟨initial.session, [.empty]⟩ :=
    .single (.start initial)
  exact (hfirst.tail (step_apply _ List.mem_cons_self)).tail (step_apply _ (by decide +kernel))

theorem reaches_failed : Relation.ReflTransGen Step initial failed :=
  (reaches_unasked.tail (step_apply _ (by decide +kernel))).tail (step_apply _ (by decide +kernel))

theorem calls_disciplined_failing :
    Relation.ReflTransGen Step initial failed ∧ failed.session.log = calls ∧
      Smt.Disciplined backend calls ∧ backend.GivesUp calls ∧
      (Ends PathM.check ⟨one, failed.session⟩ fun _ g => g.session.log = calls) ∧
      one.IsSent unasked.session ∧ ¬ { one with checked := true }.IsSent failed.session := by
  have hbegins : initial.Begins backend := ⟨⟨none, rfl⟩, rfl, rfl⟩
  have hlog : failed.session.log = calls := by decide +kernel
  have hgivesUp : backend.GivesUp calls := .fails (h := rfl)
  have hsent : one.IsSent unasked.session := by
    unfold PathStore.IsSent
    decide +kernel
  obtain ⟨hdisciplined, -, hgaveUp⟩ := calls_disciplined hbegins reaches_failed
  obtain ⟨-, hmarked, -⟩ := calls_disciplined hbegins reaches_unasked
  rw [hlog] at hdisciplined hgaveUp
  refine ⟨reaches_failed, hlog, hdisciplined, hgivesUp, ?_, hsent, ?_⟩
  · exact (hgaveUp calls (List.suffix_refl _) hgivesUp failed .refl).2 one rfl
  · exact hmarked one hsent _ .refl failed.session

end FailingBackend

end Exploration

end Refuter
