import Refuter.Proofs.Scenario.Moments
import Refuter.Smt.Script

/-!
# A decided replay is final

A replay looks at its live branches before every step, and stops once a branch is a witness or no
branch is left. So a trace that was enough for a verdict can be extended by any steps: the replay
goes through the same searches, asks the solver the same questions, and never comes to the new
steps, not even to find them invalid.
-/

namespace Refuter

namespace Search

/-- A branch is a witness, or no branch is left. -/
def IsDecided (s : Search) : Prop := s.hasWitness = true ∨ s.live.isEmpty = true

theorem isDecided_of_verdict {s : Search} (h : s.verdict ≠ .undecided) : s.IsDecided := by
  unfold verdict at h
  by_cases hwitness : s.hasWitness = true
  · exact .inl hwitness
  · rw [if_neg hwitness] at h
    by_cases hempty : s.live.isEmpty = true
    · exact .inr hempty
    · rw [if_neg hempty] at h
      exact absurd rfl h

end Search

theorem Session.Notes.refl (s : Session) : s.Notes s := ⟨s.journal, rfl⟩

namespace Scenario

open ReplayM

/-- The report of a replay, if there is one. -/
def report? (sc : Scenario) (session : Session) : Option Report :=
  match sc.replay session with
  | .ok r _ => some r
  | .error _ _ => none

theorem replay_of_report? {sc : Scenario} {session : Session} {r : Report}
    (h : sc.report? session = some r) : ∃ session', sc.replay session = .ok r session' := by
  unfold report? at h
  split at h
  · cases h
    exact ⟨_, by assumption⟩
  · cases h

/-- The scenario with further steps at the end of its trace. -/
def extend (sc : Scenario) (more : List Step) : Scenario := { sc with trace := sc.trace ++ more }

/-! ## 1. One round -/

/-- Advances all branches by a step and checks what is left of them. -/
def round (sc : Scenario) (n : Nat) (step : Step) (s : Search) : ReplayM Search := do
  let place := "step " ++ toString n
  let rules ← rulesOf n step
  let s ← advance place (stepOn sc.heap rules step) s.live { s with live := [] }
  let s ← advance place (do QueryM.check; return []) s.live { s with live := [] }
  session (Session.note .debug .scenario
    (sc.name ++ ": " ++ toString s.live.length ++ " live after step " ++ toString n))
  return s

variable {sc : Scenario} {n : Nat} {steps : List Step} {s s' : Search} {session session' : Session}

/-- As long as nothing is decided, a replay goes on round by round. -/
theorem replayFrom_cons (hs : ¬ s.IsDecided) (step : Step) :
    sc.replayFrom n (step :: steps) s = sc.round n step s >>= sc.replayFrom (n + 1) steps := by
  rw [replayFrom, if_neg fun h => hs (.inl h), if_neg fun h => hs (.inr h)]
  simp only [round, bind_assoc, pure_bind]

/-! ## 2. Stopping -/

/-- A decided search stays as it is, whatever steps are left. Only the reason for the stop is
noted. -/
theorem replayFrom_of_isDecided (sc : Scenario) (n : Nat) (session : Session) (hs : s.IsDecided)
    (steps : List Step) :
    ∃ session', sc.replayFrom n steps s session = .ok s session' ∧ session.Notes session' := by
  cases steps with
  | nil => exact ⟨session, rfl, .refl session⟩
  | cons step rest =>
    rw [replayFrom]
    by_cases hwitness : s.hasWitness = true
    · rw [if_pos hwitness]
      exact ⟨_, rfl, _, rfl⟩
    · rw [if_neg hwitness, if_pos (hs.resolve_left hwitness)]
      exact ⟨session, rfl, .refl session⟩

/-- Steps behind those that decided a search change nothing. -/
theorem replayFrom_append (hrun : sc.replayFrom n steps s session = .ok s' session')
    (hs' : s'.IsDecided) (more : List Step) :
    ∃ session'', sc.replayFrom n (steps ++ more) s session = .ok s' session'' ∧
      session'.Notes session'' := by
  induction steps generalizing n s session with
  | nil =>
    cases hrun
    exact replayFrom_of_isDecided sc n _ hs' more
  | cons step rest ih =>
    by_cases hs : s.IsDecided
    · -- decided before the trace was at its end: both replays stop here
      obtain ⟨session₁, hstop, hnotes₁⟩ := replayFrom_of_isDecided sc n session hs (step :: rest)
      obtain ⟨session₂, hstop', hnotes₂⟩ :=
        replayFrom_of_isDecided sc n session hs (step :: rest ++ more)
      rw [hstop] at hrun
      cases hrun
      obtain ⟨journal₁, rfl⟩ := hnotes₁
      obtain ⟨journal₂, rfl⟩ := hnotes₂
      exact ⟨_, hstop', journal₂, rfl⟩
    · rw [replayFrom_cons hs] at hrun
      rw [List.cons_append, replayFrom_cons hs]
      obtain ⟨s₁, session₁, hround, hbind⟩ | ⟨e, session₁, -, hbind⟩ :=
        bind_cases (sc.round n step s) (sc.replayFrom (n + 1) rest) session
      · rw [hbind] at hrun
        obtain ⟨session'', hrest, hnotes⟩ := ih hrun
        exact ⟨session'', (bind_of_ok hround).trans hrest, hnotes⟩
      · rw [hbind] at hrun
        cases hrun

/-! ## 3. Reports -/

/-- What is reported of a search at the end. -/
def report (sc : Scenario) (s : Search) (session : Session) : Report where
  name := sc.name
  verdict := s.verdict
  expected := sc.expect
  branches := s.live.length
  refutations := s.refutations
  optimistic := session.optimistic

theorem replay_eq_ok_iff {r : Report} :
    sc.replay session = .ok r session' ↔
      ∃ s, sc.searchAfter sc.trace session = .ok s session' ∧ r = sc.report s session' := by
  rw [replay_eq]
  obtain ⟨s, session₁, hsearch, hbind⟩ | ⟨e, session₁, hsearch, hbind⟩ :=
    bind_cases (sc.searchAfter sc.trace) (fun s => do return sc.report s (← get)) session
  · refine ⟨fun hrun => ?_, fun ⟨s', hs', hr⟩ => ?_⟩
    · cases hbind.symm.trans hrun
      exact ⟨s, hsearch, rfl⟩
    · rw [hsearch] at hs'
      cases hs'
      rw [hr]
      exact hbind
  · refine ⟨fun hrun => ?_, fun ⟨s', hs', hr⟩ => ?_⟩
    · cases hbind.symm.trans hrun
    · rw [hsearch] at hs'
      cases hs'

theorem searchAfter_append (hrun : sc.searchAfter steps session = .ok s session')
    (hs : s.IsDecided) (more : List Step) :
    ∃ session'', sc.searchAfter (steps ++ more) session = .ok s session'' ∧
      session'.Notes session'' := by
  unfold searchAfter at hrun ⊢
  cases hstart : sc.start session with
  | ok outcome session₁ =>
    rw [bind_of_ok hstart] at hrun ⊢
    exact replayFrom_append hrun hs more
  | error e session₁ =>
    obtain ⟨_, _, hok, -⟩ | ⟨e', session₂, -, hbind⟩ := bind_cases sc.start _ session
    · rw [hstart] at hok
      cases hok
    · cases hbind.symm.trans hrun

/-- The steps are replayed alike, whatever trace they are taken from. -/
theorem replayFrom_extend (more : List Step) :
    (sc.extend more).replayFrom n steps s = sc.replayFrom n steps s := by
  induction steps generalizing n s with
  | nil => rfl
  | cons step rest ih =>
    simp only [replayFrom, ih]
    rfl

/-- A verdict is final: if a trace was enough to find a witness or to refute every branch, the
replay of any longer trace reports the same, and has asked the solver nothing else. -/
theorem replay_extend {r : Report} (hrun : sc.replay session = .ok r session')
    (hverdict : r.verdict ≠ .undecided) (more : List Step) :
    ∃ session'', (sc.extend more).replay session = .ok r session'' ∧
      session'.Notes session'' := by
  obtain ⟨s, hsearch, rfl⟩ := replay_eq_ok_iff.1 hrun
  obtain ⟨session'', hsearch', hnotes⟩ :=
    searchAfter_append hsearch (Search.isDecided_of_verdict hverdict) more
  refine ⟨session'', replay_eq_ok_iff.2 ⟨s, ?_, ?_⟩, hnotes⟩
  · unfold searchAfter at hsearch' ⊢
    simp only [replayFrom_extend]
    exact hsearch'
  · -- the journal is not reported
    obtain ⟨journal, rfl⟩ := hnotes
    rfl

/-! The solver refutes the only branch after the first step. Behind it come a step whose rule has an
edge without candidates and a step over a call that is none. -/

namespace LateSteps

def site : Site := { method := ⟨1⟩ }

def scenario : Scenario where
  goal := .constraint (.path (.slot site.method 1) []) .gt (.const 0)
  trace := [.visit site .nop none]

def late : List Step := [.visit site .nop (some [{ shown := ⟨[], none, []⟩ }]), .skipCall site .nop]

def start : Session := { solver := some { backend := Smt.Script.backend [.unsat] } }

def refuted : Report where
  name := ""
  verdict := .refuted
  expected := none
  branches := 0
  refutations := ["step 0: unsatisfiable conjunction of [c0]"]
  optimistic := 0

theorem replay_extend_late :
    (∃ session, scenario.replay start = .ok refuted session) ∧ refuted.verdict = .refuted ∧
      ∃ session, (scenario.extend late).replay start = .ok refuted session := by
  obtain ⟨session, hrun⟩ : ∃ session, scenario.replay start = .ok refuted session :=
    replay_of_report? (by decide +kernel)
  obtain ⟨session', hlate, -⟩ := replay_extend hrun (by decide) late
  exact ⟨⟨session, hrun⟩, rfl, session', hlate⟩

/-- As a trace of their own the same steps end in an error. -/
example : report? { scenario with trace := late } start = none := by decide +kernel

end LateSteps

end Scenario

end Refuter
