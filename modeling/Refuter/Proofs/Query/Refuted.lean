import Refuter.Proofs.Run
import Refuter.Query.Visit

/-!
# Refutation is absorbing

Three flags say whether a query still holds: its own and those of its two stores. A call that finds
a refutation may leave the stores in any state between two steps, but it takes one flag down, and
no call puts a flag up again. So once the query was refuted, all calls agree that it is.
-/

namespace Refuter

open StoreM

/-- Call on a query. -/
inductive QueryCall where
  | visit (h : HeapGraph) (site : Site) (i : Instruction) (source : RuleSource)
  | enterCallee (call : Instruction) (caller : Site) (callee : MethodId)
  | returnToCaller (call : Instruction) (caller : Site)
  | skipCall (call : Instruction) (caller : Site)
  | declareWitness
  | check
  | isFeasible
  | isWitness

/-- What a call gives back. -/
inductive Reply where
  /-- the further cases -/
  | cases (more : List Query)
  | truth (holds : Bool)

namespace QueryCall

def run : QueryCall → QueryM Reply
  | visit h site i source => return .cases (← QueryM.visit h site i source)
  | enterCallee call caller callee => do QueryM.enterCallee call caller callee; return .cases []
  | returnToCaller call caller => do QueryM.returnToCaller call caller; return .cases []
  | skipCall call caller => do QueryM.skipCall call caller; return .cases []
  | declareWitness => do QueryM.declareWitness; return .cases []
  | check => do QueryM.check; return .cases []
  | isFeasible => return .truth (← QueryM.isFeasible)
  | isWitness => return .truth (← store).isWitness

/-- The reply to a call, or why it halted, and what the call leaves. -/
def ask (c : QueryCall) (f : Frame Query) : Except Halt Reply × Frame Query :=
  match c.run f with
  | .ok r g => (.ok r, g)
  | .error e g => (.error e, g)

theorem ask_of_ok {c : QueryCall} {f g : Frame Query} {r : Reply} (h : c.run f = .ok r g) :
    c.ask f = (.ok r, g) := by
  unfold ask
  rw [h]

theorem ask_of_error {c : QueryCall} {f g : Frame Query} {e : Halt} (h : c.run f = .error e g) :
    c.ask f = (.error e, g) := by
  unfold ask
  rw [h]

/-- The caller is told that the query is refuted. -/
def Refutes (c : QueryCall) : Except Halt Reply → Prop
  | .error (.refuted _) => True
  | .ok (.truth holds) => c = isFeasible ∧ holds = false
  | _ => False

/-- What a caller is told about a refuted query. -/
def refutedReply : QueryCall → Except Halt Reply
  | isFeasible | isWitness => .ok (.truth false)
  | declareWitness => .ok (.cases [])
  | _ => .error (.refuted .alreadyRefuted)

end QueryCall

/-- What the callers are told, one after the other. Other branches use the session in between, so
each call finds a session of its own. -/
def Query.replies : Query → List (QueryCall × Session) → List (Except Halt Reply)
  | _, [] => []
  | q, (c, s) :: rest => (c.ask ⟨q, s⟩).1 :: replies (c.ask ⟨q, s⟩).2.store rest

/-- The query after some calls. -/
def Query.after : Query → List (QueryCall × Session) → Query
  | q, [] => q
  | q, (c, s) :: rest => after (c.ask ⟨q, s⟩).2.store rest

theorem Query.replies_append (q : Query) (calls later : List (QueryCall × Session)) :
    q.replies (calls ++ later) = q.replies calls ++ (q.after calls).replies later := by
  induction calls generalizing q with
  | nil => rfl
  | cons x rest ih => exact congrArg _ (ih _)

/-! ## 1. A refutation takes a flag down -/

namespace QueryM

variable {α β : Type}

/-- Whenever the operation halts with a refutation, the query it leaves is not alive. -/
def Marks (x : QueryM α) : Prop :=
  ∀ f, Results x f (fun _ _ => True) fun e g => ∀ r, e = .refuted r → g.store.isAlive = false

theorem Marks.bind {x : QueryM α} {k : α → QueryM β} (hx : Marks x) (hk : ∀ a, Marks (k a)) :
    Marks (x >>= k) := by
  intro f
  rw [results_bind]
  exact (hx f).mono (fun a g _ => hk a g) fun _ _ h => h

theorem marks_pure (a : α) : Marks (pure a) := fun _ => trivial

theorem marks_store : Marks store := fun _ => trivial

theorem marks_session (x : SessionM α) : Marks (session x) := fun _ => trivial

/-- A refutation on the way marks the query itself. -/
theorem marks_refuting (x : QueryM α) : Marks (refuting x) := by
  intro f
  unfold Results refuting onRefuted
  cases x f with
  | ok a g => trivial
  | error e g =>
    cases e with
    | refuted r => exact fun _ _ => rfl
    | fault b => exact fun _ h => by cases h

theorem marks_requireAlive : Marks requireAlive := by
  intro f
  unfold requireAlive
  rw [results_bind, results_store]
  by_cases h : f.store.isAlive = true
  · rw [h]
    trivial
  · rw [Bool.eq_false_iff.2 h]
    exact fun _ _ => Bool.eq_false_iff.2 h

theorem marks_requireNoNullConflict : Marks requireNoNullConflict := by
  refine marks_store.bind fun q => ?_
  split
  · exact marks_refuting _
  · exact marks_pure ()

/-- Sorting rules only logs edges. -/
theorem marks_select (site : Site) (rules : List Rule) (s : Selection) :
    Marks (select site rules s) := by
  induction rules generalizing s with
  | nil => exact marks_pure s
  | cons r rest ih =>
    refine marks_store.bind fun q => ?_
    dsimp only
    split
    · exact ih _
    · split
      · refine Marks.bind (fun f => ?_) fun _ => ih _
        unfold onHeap
        rw [results_onPart]
        trivial
      · exact ih _

/-- Refutations of the cases are collected. -/
theorem marks_attemptAll {τ : Type} (branches : List (StoreM τ α × τ)) (cases : Survivors τ) :
    Marks (attemptAll branches cases) := by
  induction branches generalizing cases with
  | nil => exact marks_pure cases
  | cons b rest ih =>
    refine Marks.bind (fun f => ?_) fun _ => ih _
    unfold Results attempt
    cases b.1 ⟨b.2, f.session⟩ with
    | ok a g => trivial
    | error e g =>
      cases e with
      | refuted r => trivial
      | fault b => exact fun _ h => by cases h

theorem marks_commit (cases : Survivors Query) :
    Marks (commit (fun r => refuting (halt r)) cases) := by
  unfold commit
  split
  · exact Marks.bind (fun _ => trivial) fun _ => marks_pure _
  · exact marks_refuting _

theorem marks_visit (h : HeapGraph) (site : Site) (i : Instruction) (source : RuleSource) :
    Marks (visit h site i source) := by
  refine marks_requireAlive.bind fun _ => marks_requireNoNullConflict.bind fun _ =>
    (marks_session _).bind fun rules => (marks_select site rules {}).bind fun selection =>
    (marks_refuting _).bind fun paths => ?_
  have hheaps : Marks (do
      let heaps ← refuting (onHeap (HeapM.visit h site i selection.relevant))
      let q ← store
      let pairs := (q.heap :: heaps).flatMap fun heap =>
        (q.path :: paths).map fun path => { q with heap, path }
      let cases ← attemptAll (pairs.map (settle h, ·)) {}
      if cases.live.length > 1 then
        debug .query (i.name ++ " splits into " ++ toString cases.live.length ++ " cases")
      commit (fun r => refuting (halt r)) cases) := by
    refine (marks_refuting _).bind fun heaps => marks_store.bind fun q =>
      (marks_attemptAll _ _).bind fun cases => ?_
    split
    · exact (marks_session _).bind fun _ => marks_commit cases
    · exact marks_commit cases
  cases selection.nullShown with
  | none => exact hheaps
  | some p => exact (marks_refuting _).bind fun _ => hheaps

theorem marks_declareWitness : Marks declareWitness := by
  refine marks_store.bind fun q => ?_
  split
  · exact marks_pure ()
  · exact (marks_session _).bind fun _ => Marks.bind (fun _ => trivial) fun _ => marks_session _

/-- The question whether the query is feasible is never answered by a refutation, and its flag is
the answer. -/
theorem results_isFeasible (f : Frame Query) :
    Results isFeasible f (fun holds g => g.store.feasible = holds)
      fun e _ => ∃ b, e = .fault b := by
  unfold isFeasible
  simp only [results_bind, results_store]
  split
  · unfold onPath PathM.isFeasible
    rw [results_bind, results_onPart]
    refine Results.succeeds (results_of_forall (fun _ _ => rfl) fun e g => ?_)
    exact ⟨fun _ _ => rfl, fun b h => ⟨b, h⟩⟩
  · exact rfl

end QueryM

namespace QueryCall

open QueryM

theorem marks_run (c : QueryCall) : Marks c.run := by
  cases c with
  | visit h site i source => exact (marks_visit h site i source).bind fun _ => marks_pure _
  | enterCallee | returnToCaller | skipCall | check =>
    exact (marks_requireAlive.bind fun _ => marks_refuting _).bind fun _ => marks_pure _
  | declareWitness => exact marks_declareWitness.bind fun _ => marks_pure _
  | isFeasible =>
    refine Marks.bind (fun f => (results_isFeasible f).mono (fun _ _ _ => trivial) ?_) fun _ =>
      marks_pure _
    rintro e g ⟨b, rfl⟩ r h
    cases h
  | isWitness => exact marks_store.bind fun _ => marks_pure _

/-- Whoever is told that the query is refuted leaves it with a flag down. -/
theorem isAlive_of_refutes {c : QueryCall} {f : Frame Query} (h : c.Refutes (c.ask f).1) :
    (c.ask f).2.store.isAlive = false := by
  cases hrun : c.run f with
  | error e g =>
    rw [ask_of_error hrun] at h ⊢
    cases e with
    | refuted r => exact (c.marks_run f).of_error hrun r rfl
    | fault b => cases h
  | ok r g =>
    rw [ask_of_ok hrun] at h ⊢
    cases r with
    | cases more => cases h
    | truth holds =>
      obtain ⟨rfl, rfl⟩ := h
      have hanswer : Results isFeasible.run f (fun r g => r = .truth g.store.feasible)
          fun _ _ => True := by
        refine results_bind.2
          ((results_isFeasible f).mono (fun holds g hg => ?_) fun _ _ _ => trivial)
        exact congrArg Reply.truth hg.symm
      have hflag : g.store.feasible = false := by
        injection (hanswer.of_ok hrun).symm
      show (g.store.feasible && g.store.heap.feasible && g.store.path.feasible) = false
      rw [hflag, Bool.false_and, Bool.false_and]

/-! ## 2. No flag goes up again -/

theorem requireAlive_of_not_isAlive {f : Frame Query} (h : f.store.isAlive = false) :
    requireAlive f = .error (.refuted .alreadyRefuted) f := by
  show (if (!f.store.isAlive) = true then halt .alreadyRefuted else pure () : QueryM Unit) f = _
  rw [h]
  rfl

/-- A store that was refuted is not asked about. -/
theorem isFeasible_of_not_isAlive {f : Frame Query} (h : f.store.isAlive = false) :
    QueryM.isFeasible f = .ok false { f with store := { f.store with feasible := false } } := by
  obtain ⟨⟨heap, path, optimistic, feasible⟩, session⟩ := f
  by_cases hstores : (feasible && heap.feasible) = true
  · -- only the path store can be the refuted one
    have hpath : path.feasible = false := by
      rw [Query.isAlive, hstores, Bool.true_and] at h
      exact h
    have hcheck :
        PathM.check ⟨path, session⟩ = .error (.refuted .alreadyRefuted) ⟨path, session⟩ := by
      apply bind_of_error
      show (if (!path.feasible) = true then halt .alreadyRefuted else pure () : PathM Unit) _ = _
      rw [hpath]
      rfl
    have hasked : onPath PathM.isFeasible ⟨⟨heap, path, optimistic, feasible⟩, session⟩ =
        .ok false ⟨⟨heap, path, optimistic, feasible⟩, session⟩ := by
      unfold onPath onPart PathM.isFeasible StoreM.succeeds
      rw [hcheck]
    show (if (feasible && heap.feasible) = true then _ else _ : QueryM Bool) _ = _
    rw [if_pos hstores]
    exact bind_of_ok hasked
  · show (if (feasible && heap.feasible) = true then _ else _ : QueryM Bool) _ = _
    rw [if_neg hstores]
    rfl

theorem declareWitness_of_not_isAlive {f : Frame Query} (h : f.store.isAlive = false) :
    ∃ g, QueryM.declareWitness f = .ok () g ∧ g.store.isAlive = false := by
  show ∃ g, (if f.store.optimistic = true then pure () else _ : QueryM Unit) f = .ok () g ∧ _
  by_cases hoptimistic : f.store.optimistic = true
  · rw [if_pos hoptimistic]
    exact ⟨f, rfl, h⟩
  · rw [if_neg hoptimistic]
    exact ⟨_, rfl, h⟩

theorem isWitness_of_not_isAlive {q : Query} (h : q.isAlive = false) : q.isWitness = false := by
  -- a witness needs all three flags
  simp only [Query.isAlive, Query.isWitness, HeapStore.isWitness, PathStore.isWitness] at h ⊢
  grind

/-- Calls on a query that is not alive all say so, and leave it so. -/
theorem ask_of_not_isAlive (c : QueryCall) {f : Frame Query} (h : f.store.isAlive = false) :
    (c.ask f).1 = c.refutedReply ∧ (c.ask f).2.store.isAlive = false := by
  -- all calls that work on the stores first ask whether the query is alive
  have halted : ∀ {α : Type} (k : Unit → QueryM α) (r : α → QueryM Reply),
      c.run = (requireAlive >>= k) >>= r → c.refutedReply = .error (.refuted .alreadyRefuted) →
      (c.ask f).1 = c.refutedReply ∧ (c.ask f).2.store.isAlive = false := by
    intro α k r hrun hreply
    have hhalt := bind_of_error (k := r) (bind_of_error (k := k) (requireAlive_of_not_isAlive h))
    rw [ask_of_error (hrun ▸ hhalt), hreply]
    exact ⟨rfl, h⟩
  cases c with
  | visit | enterCallee | returnToCaller | skipCall | check => exact halted _ _ rfl rfl
  | declareWitness =>
    obtain ⟨g, hdeclare, hg⟩ := declareWitness_of_not_isAlive h
    rw [ask_of_ok (bind_of_ok hdeclare)]
    exact ⟨rfl, hg⟩
  | isFeasible =>
    rw [ask_of_ok (bind_of_ok (isFeasible_of_not_isAlive h))]
    exact ⟨rfl, rfl⟩
  | isWitness =>
    have hrun : isWitness.run f = .ok (.truth f.store.isWitness) f := rfl
    rw [ask_of_ok hrun, isWitness_of_not_isAlive h]
    exact ⟨rfl, h⟩

end QueryCall

namespace Query

theorem replies_of_not_isAlive {q : Query} (h : q.isAlive = false)
    (calls : List (QueryCall × Session)) :
    q.replies calls = calls.map fun x => x.1.refutedReply := by
  induction calls generalizing q with
  | nil => rfl
  | cons x rest ih =>
    obtain ⟨hreply, hleft⟩ := x.1.ask_of_not_isAlive (f := ⟨q, x.2⟩) h
    rw [replies, hreply, ih hleft, List.map_cons]

/-- Refutation is absorbing: once a call has refuted the query, or has found it infeasible, later
calls are all told so, whatever happens to the session. -/
theorem replies_after_refutation {q : Query} {calls : List (QueryCall × Session)} {c : QueryCall}
    {s : Session} {replies : List (Except Halt Reply)} {r : Except Halt Reply}
    (hreplies : q.replies (calls ++ [(c, s)]) = replies ++ [r]) (hr : c.Refutes r)
    (later : List (QueryCall × Session)) :
    q.replies (calls ++ (c, s) :: later) =
      replies ++ r :: later.map fun x => x.1.refutedReply := by
  rw [replies_append] at hreplies ⊢
  -- the last reply is about the query that the earlier calls leave
  obtain ⟨hearlier, hlast⟩ := List.append_inj' hreplies rfl
  obtain rfl : (c.ask ⟨q.after calls, s⟩).1 = r := List.singleton_inj.1 hlast
  rw [hearlier, Query.replies, replies_of_not_isAlive (c.isAlive_of_refutes hr)]

/-! A local that must be null is found feasible, and then it is assigned five. The query stays
refuted, also for a call step that would be a fault of any other query. -/

namespace AssignedNull

def site : Site := { method := ⟨1⟩ }

def isNull : Constraint := ⟨.bare (.slot site.method 1), .eq, .const 0, ⟨0⟩⟩

def query : Query := { path := { constraints := [isNull], checked := false } }

def assign : QueryCall := .visit {} site (.assign 1 (.const 5)) .derived

def offline : Session := {}

def later : List (QueryCall × Session) :=
  [(.enterCallee .nop site ⟨2⟩, offline), (.declareWitness, offline), (.check, offline),
    (.isFeasible, offline), (.isWitness, offline)]

theorem replies_after_refutation_assign :
    query.replies [(.isFeasible, offline), (assign, offline)] =
      [.ok (.truth true), .error (.refuted (.contradiction isNull))] ∧
    query.replies ((.isFeasible, offline) :: (assign, offline) :: later) =
      [.ok (.truth true), .error (.refuted (.contradiction isNull)),
        .error (.refuted .alreadyRefuted), .ok (.cases []), .error (.refuted .alreadyRefuted),
        .ok (.truth false), .ok (.truth false)] := by
  have hreplies : query.replies ([(.isFeasible, offline)] ++ [(assign, offline)]) =
      [.ok (.truth true)] ++ [.error (.refuted (.contradiction isNull))] := by rfl
  exact ⟨hreplies, replies_after_refutation hreplies trivial later⟩

end AssignedNull

end Query

end Refuter
