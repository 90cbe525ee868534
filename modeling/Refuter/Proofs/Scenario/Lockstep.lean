import Refuter.Proofs.Composition
import Refuter.Proofs.Scenario.Decided
import Refuter.Proofs.Smt.Protocol
import Refuter.Scenario.Load
import Refuter.Smt.Script

/-!
# Only refutations by the solver matter

A solver shares its session with the supplies of numbers and with the options, and marks the stores
it was asked about. As long as it never answers that a formula has no solution, none of this shows:
a replay with such a solver and a replay without one go in lockstep, over the same branches with the
same numbers, and report the same.
-/

namespace Refuter

/-! ## 1. Lockstep -/

variable {ε ω α β σ τ : Type}

/-- Two runs ended with the same result or the same error, in states that `S` relates. -/
inductive Alike (S : ω → ω → Prop) : EStateM.Result ε ω α → EStateM.Result ε ω α → Prop
  | ok {a : α} {s s' : ω} (h : S s s') : Alike S (.ok a s) (.ok a s')
  | error {e : ε} {s s' : ω} (h : S s s') : Alike S (.error e s) (.error e s')

/-- From related states, two runs end alike. -/
def Lockstep (S : ω → ω → Prop) (x : EStateM ε ω α) : Prop := ∀ s s', S s s' → Alike S (x s) (x s')

section

variable {S : ω → ω → Prop}

theorem lockstep_pure (a : α) : Lockstep S (pure a : EStateM ε ω α) := fun _ _ h => .ok h

theorem lockstep_throw (e : ε) : Lockstep S (throw e : EStateM ε ω α) := fun _ _ h => .error h

theorem Lockstep.bind {x : EStateM ε ω α} {k : α → EStateM ε ω β} (hx : Lockstep S x)
    (hk : ∀ a, Lockstep S (k a)) : Lockstep S (x >>= k) := by
  intro s s' h
  have halike := hx s s' h
  show Alike S (EStateM.bind x k s) (EStateM.bind x k s')
  unfold EStateM.bind
  -- the results of `x` are only known through how they are alike
  generalize x s = r at halike ⊢
  generalize x s' = r' at halike ⊢
  cases halike with
  | ok h' => exact hk _ _ _ h'
  | error h' => exact .error h'

end

/-! ## 2. Sessions that refute nothing -/

/-- No check is answered by `unsat`. -/
def Smt.Backend.NeverUnsat (b : Backend) : Prop :=
  ∀ marker earlier, b (.check marker :: earlier) ≠ .ok .unsat

/-- A script without such an answer. -/
theorem Smt.Script.neverUnsat {script : List Entry} (h : .unsat ∉ script) :
    (backend script).NeverUnsat := by
  -- replies are taken from the script only
  have hafter : ∀ calls, after script calls ⊆ script := by
    intro calls
    induction calls with
    | nil => exact List.Subset.refl _
    | cons call earlier ih =>
      unfold after rest
      split
      · exact List.nil_subset _
      · rename_i entry later heq
        rw [heq] at ih
        split
        · exact List.Subset.trans (List.subset_cons_self entry later) ih
        · exact heq ▸ ih
  intro marker earlier hreply
  change reply (after script earlier) (.check marker) = .ok .unsat at hreply
  unfold reply at hreply
  split at hreply
  · cases hreply
  · rename_i entry later heq
    split at hreply
    · cases hreply
    · have hentry : entry ∈ script := hafter earlier (heq ▸ List.mem_cons_self)
      split at hreply
      · exact h hentry
      · cases hreply
      · cases hreply

/-- There is no solver, or none that ever refutes. -/
def Session.Harmless (s : Session) : Prop :=
  ∀ solver, s.solver = some solver → solver.backend.NeverUnsat

/-- Two sessions that differ at most in a solver that never refutes and in the journal. -/
structure Session.Twins (s s' : Session) : Prop where
  options : s.options = s'.options
  nextId : s.nextId = s'.nextId
  nextConstraint : s.nextConstraint = s'.nextConstraint
  optimistic : s.optimistic = s'.optimistic
  left : s.Harmless
  right : s'.Harmless

/-- A harmless session is not refuted by its solver, and stays harmless and otherwise the same. -/
theorem Session.Harmless.check {s : Session} (hs : s.Harmless) (formula : Smt.Formula)
    (names : List String) :
    (Session.check formula names s).1 ≠ .unsat ∧ (Session.check formula names s).2.Harmless := by
  obtain ⟨-, hcheck⟩ | ⟨solver, hsolver, -, ⟨answer, solver', journal, hrun, hcheck⟩ |
    ⟨reason, solver', journal, hrun, hcheck⟩⟩ := Session.check_cases formula names s
  · rw [hcheck]
    exact ⟨nofun, hs⟩
  · obtain ⟨hbackend, marker, earlier, hreply⟩ :=
      (Smt.Solver.results_check_backend solver formula names).of_ok hrun
    rw [hcheck]
    refine ⟨fun hunsat => hs solver hsolver marker earlier (hreply.trans (congrArg _ hunsat)), ?_⟩
    rintro _ ⟨⟩
    rw [hbackend]
    exact hs solver hsolver
  · have hbackend := (Smt.Solver.results_check_backend solver formula names).of_error hrun
    rw [hcheck]
    refine ⟨nofun, ?_⟩
    rintro _ ⟨⟩
    rw [hbackend]
    exact hs solver hsolver

theorem Session.Twins.check {s s' : Session} (h : s.Twins s') (formula : Smt.Formula)
    (names : List String) :
    (Session.check formula names s).2.Twins (Session.check formula names s').2 := by
  have hleft := (h.left.check formula names).2
  have hright := (h.right.check formula names).2
  obtain ⟨solver, disabled, journal, heq⟩ := Session.check_eq formula names s
  obtain ⟨solver', disabled', journal', heq'⟩ := Session.check_eq formula names s'
  rw [heq] at hleft ⊢
  rw [heq'] at hright ⊢
  exact ⟨h.options, h.nextId, h.nextConstraint, h.optimistic, hleft, hright⟩

theorem Session.withBackend_eq_ok {files : Files.Tree} {options : Options} {backend : Smt.Backend}
    {session : Session} (h : Session.withBackend files options backend = .ok session) :
    ∃ solver : Smt.Solver, solver.backend = backend ∧
      session = { options, solver := some solver } := by
  unfold withBackend solverFor at h
  split at h
  · cases h
    exact ⟨_, rfl, rfl⟩
  · split at h
    · cases h
      exact ⟨_, rfl, rfl⟩
    · cases h

/-! ## 3. Operations -/

/-- The same store in sessions that are twins. -/
structure Frame.Twins (f g : Frame σ) : Prop where
  store : f.store = g.store
  session : f.session.Twins g.session

namespace StoreM

theorem lockstep_store : Lockstep Frame.Twins (store : StoreM σ σ) := by
  rintro ⟨s, session⟩ ⟨_, session'⟩ ⟨rfl, h⟩
  exact .ok ⟨rfl, h⟩

theorem lockstep_options : Lockstep Frame.Twins (options : StoreM σ Options) := by
  rintro f g ⟨hstore, h⟩
  show Alike _ (.ok f.session.options f) (.ok g.session.options g)
  rw [h.options]
  exact .ok ⟨hstore, h⟩

theorem lockstep_modifyStore (m : σ → σ) : Lockstep Frame.Twins (modifyStore m) := by
  rintro f g ⟨hstore, h⟩
  exact .ok ⟨congrArg m hstore, h⟩

theorem lockstep_session {x : SessionM α}
    (hx : ∀ s s' : Session, s.Twins s' → (x s).1 = (x s').1 ∧ (x s).2.Twins (x s').2) :
    Lockstep Frame.Twins (session x : StoreM σ α) := by
  rintro f g ⟨hstore, h⟩
  obtain ⟨hresult, h'⟩ := hx f.session g.session h
  show Alike _ (.ok (x f.session).1 _) (.ok (x g.session).1 _)
  rw [hresult]
  exact .ok ⟨hstore, h'⟩

theorem lockstep_attempt {x : StoreM τ α} (hx : Lockstep Frame.Twins x) (s : τ) :
    Lockstep Frame.Twins (attempt x s : StoreM σ _) := by
  rintro f g ⟨hstore, h⟩
  have halike := hx ⟨s, f.session⟩ ⟨s, g.session⟩ ⟨rfl, h⟩
  unfold StoreM.attempt
  generalize x ⟨s, f.session⟩ = r at halike ⊢
  generalize x ⟨s, g.session⟩ = r' at halike ⊢
  cases halike with
  | ok h' =>
    dsimp only
    rw [h'.store]
    exact .ok ⟨hstore, h'.session⟩
  | error h' =>
    rename_i e _ _
    cases e with
    -- the copy is given up, the session is not
    | refuted r => exact .ok ⟨hstore, h'.session⟩
    | fault b => exact .error ⟨hstore, h'.session⟩

theorem lockstep_onPart {x : StoreM τ α} (hx : Lockstep Frame.Twins x) (part : σ → τ)
    (put : τ → σ → σ) : Lockstep Frame.Twins (onPart part put x) := by
  rintro f g ⟨hstore, h⟩
  have halike := hx ⟨part f.store, f.session⟩ ⟨part g.store, g.session⟩ ⟨congrArg part hstore, h⟩
  unfold StoreM.onPart
  generalize x ⟨part f.store, f.session⟩ = r at halike ⊢
  generalize x ⟨part g.store, g.session⟩ = r' at halike ⊢
  cases halike with
  | ok h' => exact .ok ⟨congrArg₂ put h'.store hstore, h'.session⟩
  | error h' => exact .error ⟨congrArg₂ put h'.store hstore, h'.session⟩

theorem lockstep_onRefuted {x : StoreM σ α} (hx : Lockstep Frame.Twins x) (mark : σ → σ) :
    Lockstep Frame.Twins (onRefuted mark x) := by
  intro f g h
  have halike := hx f g h
  unfold StoreM.onRefuted
  generalize x f = r at halike ⊢
  generalize x g = r' at halike ⊢
  cases halike with
  | ok h' => exact .ok h'
  | error h' =>
    rename_i e _ _
    cases e with
    | refuted r => exact .error ⟨congrArg mark h'.store, h'.session⟩
    | fault b => exact .error h'

theorem lockstep_check : Lockstep Frame.Twins PathM.check := by
  refine Lockstep.bind (lockstep_store.bind fun s => ?_) fun _ => lockstep_store.bind fun s => ?_
  · split
    · exact lockstep_throw _
    · exact lockstep_pure _
  · split
    · exact lockstep_pure _
    · -- the answers need not be the same, but both stores are marked
      rintro f g ⟨hstore, h⟩
      rw [PathM.ask_of_ne_unsat (h.left.check _ _).1, PathM.ask_of_ne_unsat (h.right.check _ _).1,
        hstore]
      exact .ok ⟨rfl, h.check _ _⟩

end StoreM

/-- Numbers are supplied alike. -/
theorem Session.Twins.fresh {s s' : Session} (h : s.Twins s') (x : Fresh α) :
    (Session.fresh x s).1 = (Session.fresh x s').1 ∧
      (Session.fresh x s).2.Twins (Session.fresh x s').2 :=
  ⟨congrArg (fun n => (x n).1) h.nextId, h.options, congrArg (fun n => (x n).2) h.nextId,
    h.nextConstraint, h.optimistic, h.left, h.right⟩

theorem Session.Twins.constraint {s s' : Session} (h : s.Twins s') (lhs : Term) (op : CmpOp)
    (rhs : Term) :
    (Session.constraint lhs op rhs s).1 = (Session.constraint lhs op rhs s').1 ∧
      (Session.constraint lhs op rhs s).2.Twins (Session.constraint lhs op rhs s').2 :=
  ⟨congrArg (fun n => Constraint.mk lhs op rhs ⟨n⟩) h.nextConstraint, h.options, h.nextId,
    congrArg (· + 1) h.nextConstraint, h.optimistic, h.left, h.right⟩

theorem Session.Twins.note {s s' : Session} (h : s.Twins s') (level : Level) (topic : Topic)
    (text : String) :
    (Session.note level topic text s).1 = (Session.note level topic text s').1 ∧
      (Session.note level topic text s).2.Twins (Session.note level topic text s').2 :=
  ⟨rfl, h.options, h.nextId, h.nextConstraint, h.optimistic, h.left, h.right⟩

/-- Every operation on stores and queries goes in lockstep. -/
theorem closed_lockstep : StoreM.Closed fun {_ _} x => Lockstep Frame.Twins x where
  pure := lockstep_pure
  bind := Lockstep.bind
  throw := lockstep_throw
  store := StoreM.lockstep_store
  modifyStore := StoreM.lockstep_modifyStore
  options := StoreM.lockstep_options
  note _ _ _ := StoreM.lockstep_session fun _ _ h => h.note ..
  fresh x := StoreM.lockstep_session fun _ _ h => h.fresh x
  constraint _ _ _ := StoreM.lockstep_session fun _ _ h => h.constraint ..
  noteOptimistic := StoreM.lockstep_session fun _ _ h =>
    ⟨rfl, h.options, h.nextId, h.nextConstraint, congrArg (· + 1) h.optimistic, h.left, h.right⟩
  attempt := StoreM.lockstep_attempt
  onPart := StoreM.lockstep_onPart
  onRefuted := StoreM.lockstep_onRefuted
  check := StoreM.lockstep_check

/-! ## 4. Replays -/

namespace ReplayM

theorem lockstep_session {x : SessionM α}
    (hx : ∀ s s' : Session, s.Twins s' → (x s).1 = (x s').1 ∧ (x s).2.Twins (x s').2) :
    Lockstep Session.Twins (session x) := by
  intro s s' h
  obtain ⟨hresult, h'⟩ := hx s s' h
  show Alike _ (.ok (x s).1 _) (.ok (x s').1 _)
  rw [hresult]
  exact .ok h'

theorem lockstep_onQuery {x : QueryM α} (hx : Lockstep Frame.Twins x) (q : Query) :
    Lockstep Session.Twins (onQuery x q) := by
  intro s s' h
  have halike := hx ⟨q, s⟩ ⟨q, s'⟩ ⟨rfl, h⟩
  unfold onQuery
  generalize x ⟨q, s⟩ = r at halike ⊢
  generalize x ⟨q, s'⟩ = r' at halike ⊢
  cases halike with
  | ok h' =>
    dsimp only
    rw [h'.store]
    exact .ok h'.session
  | error h' =>
    rename_i e _ _
    cases e with
    | refuted r => exact .ok h'.session
    | fault b => exact .error h'.session

end ReplayM

namespace Scenario

open ReplayM

theorem lockstep_start (sc : Scenario) : Lockstep Session.Twins sc.start := by
  have hgoal : ∀ {x : QueryM Unit}, Lockstep Frame.Twins x →
      Lockstep Session.Twins (do return (← onQuery x {}).map Prod.snd) := fun hx =>
    (lockstep_onQuery hx {}).bind fun _ => lockstep_pure _
  unfold start
  split
  · refine Lockstep.bind (lockstep_session fun _ _ h => h.fresh _) fun sink => ?_
    cases sink with
    | none => exact lockstep_throw _
    | some sink => exact hgoal (QueryM.closed_requireEdge closed_lockstep _)
  · exact Lockstep.bind (lockstep_session fun _ _ h => h.constraint ..) fun c =>
      hgoal (QueryM.closed_requireConstraint closed_lockstep c)

theorem lockstep_rulesOf (n : Nat) (step : Step) : Lockstep Session.Twins (rulesOf n step) := by
  unfold rulesOf
  split
  · refine Lockstep.bind (lockstep_session fun _ _ h => h.fresh _) fun rules => ?_
    cases rules with
    | none => exact lockstep_throw _
    | some rules => exact lockstep_pure _
  · exact lockstep_pure _

theorem lockstep_stepOn (h : HeapGraph) (rules : RuleSource) (step : Step) :
    Lockstep Frame.Twins (stepOn h rules step) := by
  have hend : ∀ {x : QueryM Unit}, Lockstep Frame.Twins x →
      Lockstep Frame.Twins (do x; return [] : QueryM (List Query)) := fun hx =>
    hx.bind fun _ => lockstep_pure _
  cases step with
  | visit site i patterns => exact QueryM.closed_visit closed_lockstep h site i rules
  | enterCallee site call callee =>
    exact hend (QueryM.closed_enterCallee closed_lockstep call site callee)
  | returnToCaller site call => exact hend (QueryM.closed_returnToCaller closed_lockstep call site)
  | skipCall site call => exact hend (QueryM.closed_skipCall closed_lockstep call site)
  | declareWitness => exact hend (QueryM.closed_declareWitness closed_lockstep)

theorem lockstep_advance (place : String) {x : QueryM (List Query)} (hx : Lockstep Frame.Twins x)
    (queries : List Query) (s : Search) : Lockstep Session.Twins (advance place x queries s) := by
  induction queries generalizing s with
  | nil => exact lockstep_pure s
  | cons q rest ih =>
    refine (lockstep_onQuery hx q).bind fun outcome => ?_
    cases outcome with
    | ok cases => exact ih _
    | error r => exact ih _

theorem lockstep_replayFrom (sc : Scenario) (n : Nat) (steps : List Step) (s : Search) :
    Lockstep Session.Twins (sc.replayFrom n steps s) := by
  have hcheck : Lockstep Frame.Twins (do QueryM.check; return [] : QueryM (List Query)) :=
    Lockstep.bind (QueryM.closed_check closed_lockstep) fun _ => lockstep_pure _
  induction steps generalizing n s with
  | nil => exact lockstep_pure s
  | cons step rest ih =>
    unfold replayFrom
    split
    · exact Lockstep.bind (lockstep_session fun _ _ h => h.note ..) fun _ => lockstep_pure s
    · split
      · exact lockstep_pure s
      · exact (lockstep_rulesOf n step).bind fun rules =>
          (lockstep_advance _ (lockstep_stepOn sc.heap rules step) _ _).bind fun s =>
            (lockstep_advance _ hcheck _ _).bind fun s =>
              Lockstep.bind (lockstep_session fun _ _ h => h.note ..) fun _ => ih _ s

theorem lockstep_replay (sc : Scenario) : Lockstep Session.Twins sc.replay := by
  refine (lockstep_start sc).bind fun first =>
    (lockstep_replayFrom sc 0 sc.trace _).bind fun s => ?_
  -- of the session only the number of optimistic branches is reported
  intro session session' h
  show Alike _ (.ok (Report.mk _ _ _ _ _ session.optimistic) session)
    (.ok (Report.mk _ _ _ _ _ session'.optimistic) session')
  rw [h.optimistic]
  exact .ok h

/-- Whatever a backend answers and wherever it fails, as long as it never answers that a formula has
no solution, a scenario comes to the same as without a solver: the same report, or the same
error. -/
theorem outcome_eq_offline (sc : Scenario) {files : Files.Tree} {options : Options}
    {backend : Smt.Backend} {session : Session}
    (hsession : Session.withBackend files options backend = .ok session)
    (hbackend : backend.NeverUnsat) :
    (sc.outcome session).1 = (sc.outcome (Session.offline options)).1 := by
  obtain ⟨solver, rfl, rfl⟩ := Session.withBackend_eq_ok hsession
  -- both sessions start with the same settings and supplies
  have htwins : Session.Twins { options, solver := some solver } (.offline options) := by
    refine ⟨rfl, rfl, rfl, rfl, ?_, nofun⟩
    rintro _ ⟨⟩
    exact hbackend
  have halike := lockstep_replay sc _ _ htwins
  unfold outcome
  generalize sc.replay _ = r at halike ⊢
  generalize sc.replay _ = r' at halike ⊢
  cases halike with
  | ok => rfl
  | error =>
    rename_i e _ _ _
    cases e <;> rfl

theorem outcome_of_report? {sc : Scenario} {session : Session} {r : Report}
    (h : sc.report? session = some r) : (sc.outcome session).1 = .ok (.ok r) := by
  obtain ⟨session', hrun⟩ := replay_of_report? h
  unfold outcome
  rw [hrun]

/-! The two comparisons contradict each other, so a solver could refute the branch. This one answers
the first check, and fails at the second assertion. -/

namespace FailingSolver

def script : List Smt.Script.Entry := [.sat, .failAssert]

def site : Site := { method := ⟨1⟩ }

def scenario : Scenario where
  goal := .constraint (.path (.slot site.method 1) []) .gt (.const 0)
  trace := [.visit site (.switch (.slot 2) [5, 6] (.cases [5, 6])) none,
    .visit site (.branch .lt (.slot 1) (.const 0) true) none]

def undecided : Report where
  name := ""
  verdict := .undecided
  expected := none
  branches := 2
  refutations := []
  optimistic := 0

def session (script : List Smt.Script.Entry) : Session :=
  { solver := some { backend := Smt.Script.backend script } }

theorem outcome_eq_offline_failing :
    Session.withBackend {} {} (Smt.Script.backend script) = .ok (session script) ∧
      (Smt.Script.backend script).NeverUnsat ∧
      (scenario.outcome (session script)).1 = .ok (.ok undecided) := by
  have hsession : Session.withBackend {} {} (Smt.Script.backend script) = .ok (session script) :=
    rfl
  have hscript : (Smt.Script.backend script).NeverUnsat := Smt.Script.neverUnsat (by decide)
  have hoffline : (scenario.outcome (.offline {})).1 = .ok (.ok undecided) :=
    outcome_of_report? (by decide +kernel)
  exact ⟨hsession, hscript, (outcome_eq_offline scenario hsession hscript).trans hoffline⟩

/-- One refutation by the solver is enough for another report. -/
example : scenario.report? (session [.sat, .sat, .unsat]) ≠ some undecided := by
  decide +kernel

end FailingSolver

end Scenario

end Refuter
