import Refuter.Proofs.Query.Operations
import Refuter.Scenario.Replay

/-!
# Moments of a replay

A replay advances one branch after the other, so most of the time some branches have made a step
and others still wait for it. `Scenario.Moment` tells with which session and which live branches a
replay can be seen at work. What the operations on queries keep holds at every moment, of all live
branches together and with one and the same world.
-/

namespace Refuter

variable {W α β : Type} [Preorder W] {w : W} {J : W → Session → Prop} {E : Halt → Prop}
  {P : W → Query → Prop}

/-! ## 1. Rules -/

namespace ReplayM

/-- A result has `Q` in a later world that agrees with the session again, and a fault has `E`. -/
structure Passes (J : W → Session → Prop) (E : Halt → Prop) (w : W) (x : ReplayM α)
    (Q : W → α → Prop) : Prop where
  ok : ∀ {s s' : Session} {a : α}, J w s → x s = .ok a s' → ∃ w', w ≤ w' ∧ J w' s' ∧ Q w' a
  fault : ∀ {s s' : Session} {b : Fault}, J w s → x s = .error (.fault b) s' → E (.fault b)

/-- Where the first part of a replay ends and what the second part makes of it. -/
theorem bind_cases (x : ReplayM α) (k : α → ReplayM β) (s : Session) :
    (∃ a s', x s = .ok a s' ∧ (x >>= k) s = k a s') ∨
    ∃ e s', x s = .error e s' ∧ (x >>= k) s = .error e s' := by
  have hbind : (x >>= k) s = EStateM.bind x k s := rfl
  unfold EStateM.bind at hbind
  cases hrun : x s with
  | ok a s' =>
    rw [hrun] at hbind
    exact .inl ⟨a, s', rfl, hbind⟩
  | error e s' =>
    rw [hrun] at hbind
    exact .inr ⟨e, s', rfl, hbind⟩

theorem passes_pure {a : α} {Q : W → α → Prop} (h : Q w a) : Passes J E w (pure a) Q where
  ok hJ hrun := by
    cases hrun
    exact ⟨w, le_refl w, hJ, h⟩
  fault _ hrun := by cases hrun

theorem Passes.bind {x : ReplayM α} {k : α → ReplayM β} {Q : W → α → Prop} {R : W → β → Prop}
    (hx : Passes J E w x Q) (hk : ∀ w' a, w ≤ w' → Q w' a → Passes J E w' (k a) R) :
    Passes J E w (x >>= k) R where
  ok {s _ _} hJ hrun := by
    obtain ⟨a, s', hxs, heq⟩ | ⟨e, s', -, heq⟩ := bind_cases x k s
    · obtain ⟨w', hw, hJ', hQ⟩ := hx.ok hJ hxs
      obtain ⟨w'', hw', h⟩ := (hk w' a hw hQ).ok hJ' (heq.symm.trans hrun)
      exact ⟨w'', le_trans hw hw', h⟩
    · rw [heq] at hrun
      cases hrun
  fault {s _ _} hJ hrun := by
    obtain ⟨a, s', hxs, heq⟩ | ⟨e, s', hxs, heq⟩ := bind_cases x k s
    · obtain ⟨w', hw, hJ', hQ⟩ := hx.ok hJ hxs
      exact (hk w' a hw hQ).fault hJ' (heq.symm.trans hrun)
    · rw [heq] at hrun
      cases hrun
      exact hx.fault hJ hxs

theorem passes_session {x : SessionM α} {Q : W → α → Prop}
    (h : ∀ s, J w s → ∃ w', w ≤ w' ∧ J w' (x s).2 ∧ Q w' (x s).1) :
    Passes J E w (session x) Q where
  ok {s _ _} hJ hrun := by
    cases hrun
    exact h s hJ
  fault _ hrun := by cases hrun

theorem passes_fresh {x : Fresh α} {Q : W → α → Prop} (h : StoreM.Draws J w x Q) :
    Passes J E w (session (Session.fresh x)) Q :=
  passes_session h

theorem passes_get : Passes J E w get fun _ _ => True where
  ok hJ hrun := by
    cases hrun
    exact ⟨w, le_refl w, hJ, trivial⟩
  fault _ hrun := by cases hrun

theorem passes_invalid {e : ScenarioError} {Q : W → α → Prop} :
    Passes J E w (throw (.invalid e)) Q where
  ok _ hrun := by cases hrun
  fault _ hrun := by cases hrun

/-- A branch that survives has what the operation keeps. -/
theorem passes_onQuery {x : QueryM α} {q : Query} {Q : W → α → Prop}
    (hx : StoreM.Evolves J P E w x Q) (hq : P w q) :
    Passes J E w (onQuery x q) fun w' outcome => ∀ a q', outcome = .ok (a, q') →
      P w' q' ∧ Q w' a where
  ok {s _ _} hJ hrun := by
    have h := hx ⟨q, s⟩ hJ hq
    unfold onQuery at hrun
    split at hrun
    · rename_i heq
      cases hrun
      obtain ⟨w', hw, hJ', hP, hQ⟩ := h.of_ok heq
      refine ⟨w', hw, hJ', fun a q' hout => ?_⟩
      cases hout
      exact ⟨hP, hQ⟩
    · rename_i heq
      cases hrun
      obtain ⟨w', hw, hJ', -, -⟩ := h.of_error heq
      exact ⟨w', hw, hJ', fun a q' hout => by cases hout⟩
    · cases hrun
  fault {s _ _} hJ hrun := by
    have h := hx ⟨q, s⟩ hJ hq
    unfold onQuery at hrun
    split at hrun
    · cases hrun
    · cases hrun
    · rename_i heq
      cases hrun
      obtain ⟨_, -, -, -, hE⟩ := h.of_error heq
      exact hE

end ReplayM

/-! ## 2. Written rules -/

section Patterns

variable {G : W → Pointer → Prop}

/-- All pointers of the rule so far are within `G`. -/
def PatternPointers.Within (G : Pointer → Prop) (known : PatternPointers) : Prop :=
  ∀ x ∈ known, G x.2

variable (law : Pointer.Law J (fun _ => True) G)
include law

theorem PatternPointers.draws_pointer? {known : PatternPointers} (hknown : known.Within (G w))
    (candidates : List Location) :
    StoreM.Draws J w (known.pointer? candidates) fun w' o =>
      ∀ x ∈ o, G w' x.1 ∧ PatternPointers.Within (G w') x.2 := by
  unfold pointer?
  dsimp only
  split
  · -- candidates that came up before in the rule stand for the same pointer
    rename_i p hp
    refine StoreM.draws_pure fun x hx => ?_
    cases hx
    obtain ⟨before, after, rfl, -⟩ := List.lookup_eq_some_iff.1 hp
    exact ⟨hknown _ (List.mem_append.2 (.inr List.mem_cons_self)), hknown⟩
  · refine StoreM.Draws.bind law.make fun w₁ o hw ho => ?_
    cases o with
    | none => exact StoreM.draws_pure fun x hx => by cases hx
    | some p =>
      have hp : G w₁ p := ho p rfl fun _ _ => trivial
      refine StoreM.draws_pure fun x hx => ?_
      cases hx
      refine ⟨hp, fun y hy => ?_⟩
      obtain rfl | hy := List.mem_cons.1 hy
      · exact hp
      · exact law.mono hw _ (hknown y hy)

theorem EdgePattern.draws_edge? {known : PatternPointers} (hknown : known.Within (G w))
    (e : EdgePattern) :
    StoreM.Draws J w (e.edge? known) fun w' o =>
      ∀ x ∈ o, x.1.Within (G w') ∧ PatternPointers.Within (G w') x.2 := by
  unfold edge?
  refine (PatternPointers.draws_pointer? law hknown e.source).bind fun w₁ o _ hsource => ?_
  cases o with
  | none => exact StoreM.draws_pure fun x hx => by cases hx
  | some source =>
    obtain ⟨hp, hknown⟩ := hsource source rfl
    refine (PatternPointers.draws_pointer? law hknown e.sink).bind fun w₂ o hw hsink => ?_
    cases o with
    | none => exact StoreM.draws_pure fun x hx => by cases hx
    | some sink =>
      obtain ⟨hq, hknown⟩ := hsink sink rfl
      refine StoreM.draws_pure fun x hx => ?_
      cases hx
      exact ⟨⟨.inr (law.mono hw _ hp), hq⟩, hknown⟩

theorem EdgePattern.draws_edges? {known : PatternPointers} (hknown : known.Within (G w))
    (edges : List EdgePattern) :
    StoreM.Draws J w (edges? edges known) fun w' o => ∀ es ∈ o, ∀ e ∈ es, e.Within (G w') := by
  induction edges generalizing known w with
  | nil =>
    refine StoreM.draws_pure fun es hes => ?_
    cases hes
    exact fun e he => by cases he
  | cons e rest ih =>
    unfold edges?
    refine (draws_edge? law hknown e).bind fun w₁ o _ hedge => ?_
    cases o with
    | none => exact StoreM.draws_pure fun x hx => by cases hx
    | some edge =>
      obtain ⟨he, hknown⟩ := hedge edge rfl
      refine (ih hknown).bind fun w₂ o hw hrest => ?_
      cases o with
      | none => exact StoreM.draws_pure fun x hx => by cases hx
      | some more =>
        refine StoreM.draws_pure fun es hes => ?_
        cases hes
        intro d hd
        obtain rfl | hd := List.mem_cons.1 hd
        · exact he.mono (law.mono hw)
        · exact hrest more rfl d hd

theorem RulePattern.draws_rule? (r : RulePattern) (m : MethodId) :
    StoreM.Draws J w (r.rule? m) fun w' o => ∀ rule ∈ o, rule.Within (G w') := by
  unfold rule?
  refine (EdgePattern.draws_edge? law (fun x hx => by cases hx) r.shown).bind
    fun w₁ o _ hshown => ?_
  cases o with
  | none => exact StoreM.draws_pure fun x hx => by cases hx
  | some shown =>
    obtain ⟨hs, hknown⟩ := hshown shown rfl
    refine (EdgePattern.draws_edges? law hknown r.premises).bind fun w₂ o hw hpremises => ?_
    cases o with
    | none => exact StoreM.draws_pure fun x hx => by cases hx
    | some premises =>
      refine StoreM.draws_pure fun rule hrule => ?_
      cases hrule
      exact ⟨hs.mono (law.mono hw), hpremises premises rfl⟩

theorem RulePattern.draws_rules? (patterns : List RulePattern) (m : MethodId) :
    StoreM.Draws J w (rules? patterns m) fun w' o =>
      ∀ rules ∈ o, ∀ r ∈ rules, r.Within (G w') := by
  induction patterns generalizing w with
  | nil =>
    refine StoreM.draws_pure fun rules hrules => ?_
    cases hrules
    exact fun r hr => by cases hr
  | cons r rest ih =>
    unfold rules?
    refine (draws_rule? law r m).bind fun w₁ o _ hrule => ?_
    cases o with
    | none => exact StoreM.draws_pure fun x hx => by cases hx
    | some rule =>
      refine ih.bind fun w₂ o hw hrest => ?_
      cases o with
      | none => exact StoreM.draws_pure fun x hx => by cases hx
      | some more =>
        refine StoreM.draws_pure fun rules hrules => ?_
        cases hrules
        intro d hd
        obtain rfl | hd := List.mem_cons.1 hd
        · exact (hrule _ rfl).mono (law.mono hw)
        · exact hrest more rfl d hd

end Patterns

/-! ## 3. The law -/

/-- What properties of the two stores need, to be kept by every replay. Scenarios are arbitrary, so
pointers to any locations come up. -/
structure Scenario.Law (J : W → Session → Prop) (PH : W → HeapStore → Prop)
    (PP : W → PathStore → Prop) (E : Halt → Prop) (G G' : W → Pointer → Prop) : Prop
    extends Query.Law J PH PP E (fun _ => True) G G' where
  newHeap : ∀ w, PH w {}
  newPath : ∀ w, PP w {}
  /-- a trace may call anything a call -/
  notACall : ∀ (step : CallStep) (i : Instruction), E (.fault (.notACall step i))
  entered : ∀ w s p q, p.isChoice = false → q.isChoice = false → PH w s → PH w (s.replace p q)

/-- The rules come from the facts, or their pointers are within `G`. -/
def RuleSource.Within (G : Pointer → Prop) : RuleSource → Prop
  | derived => True
  | fixed rules => ∀ r ∈ rules, r.Within G

theorem RuleSource.Within.mono {G G' : Pointer → Prop} {source : RuleSource}
    (h : source.Within G) (hG : G ≤ G') : source.Within G' := by
  cases source with
  | derived => trivial
  | fixed rules => exact fun r hr => (h r hr).mono hG

namespace Scenario

open ReplayM StoreM

variable {PH : W → HeapStore → Prop} {PP : W → PathStore → Prop} {G G' : W → Pointer → Prop}
  {h : HeapGraph}

/-- Advancing branches keeps what the operation keeps. -/
theorem passes_advance {place : String} {x : QueryM (List Query)} {qs : List Query} {s : Search}
    (hmono : Monotone P)
    (hx : ∀ w', w ≤ w' → StoreM.Evolves J P E w' x fun w' rest => ∀ q ∈ rest, P w' q)
    (hqs : ∀ q ∈ qs, P w q) (hs : ∀ q ∈ s.live, P w q) :
    Passes J E w (advance place x qs s) fun w' s' => ∀ q ∈ s'.live, P w' q := by
  induction qs generalizing s w with
  | nil => exact passes_pure hs
  | cons q rest ih =>
    refine (passes_onQuery (hx w (le_refl w)) (hqs q List.mem_cons_self)).bind
      fun w₁ outcome hw hout => ?_
    -- branches that wait and those that are done only see the world grow
    have hx' := fun w' hw' => hx w' (le_trans hw hw')
    have hrest : ∀ q ∈ rest, P w₁ q := fun q hq => hmono hw q (hqs q (List.mem_cons_of_mem _ hq))
    have hlive : ∀ q ∈ s.live, P w₁ q := fun q hq => hmono hw q (hs q hq)
    cases outcome with
    | error r => exact ih hx' hrest hlive
    | ok result =>
      obtain ⟨hq, hmore⟩ := hout _ _ rfl
      refine ih hx' hrest fun q' hq' => ?_
      rcases List.mem_append.1 hq' with hq' | hq'
      · exact hlive q' hq'
      · rcases List.mem_cons.1 hq' with rfl | hq'
        · exact hq
        · exact hmore q' hq'

/-- The sides of a goal constraint start at known locations. -/
theorem isKnown_goalTerm (t : GoalTerm) : t.term.IsKnown := by
  cases t with
  | const n => exact Term.within_const
  | path base fields => exact Term.within_var rfl

theorem start_of_constraint {sc : Scenario} {lhs rhs : GoalTerm} {op : CmpOp}
    (h : sc.goal = .constraint lhs op rhs) :
    sc.start = do
      return (← onQuery (QueryM.onPath (PathM.require lhs.term op rhs.term)) {}).map Prod.snd := by
  unfold start
  rw [h]
  rfl

section Law

variable (law : Law J PH PP E G G')
include law

theorem evolves_stepOn {source : RuleSource} (hsource : source.Within (G w)) (step : Step) :
    StoreM.Evolves J (Query.Both PH PP) E w (stepOn h source step) fun w' rest =>
      ∀ q ∈ rest, Query.Both PH PP w' q := by
  have hany : h.Within fun _ => True := ⟨fun _ => trivial, fun _ => trivial⟩
  have hreturn : ∀ {x : QueryM Unit}, StoreM.Evolves J (Query.Both PH PP) E w x (fun _ _ => True) →
      StoreM.Evolves J (Query.Both PH PP) E w (do x; return []) fun w' rest =>
        ∀ q ∈ rest, Query.Both PH PP w' q :=
    fun hx => hx.bind fun _ _ _ _ => evolves_pure fun q hq => by cases hq
  cases step with
  | visit site i patterns =>
    apply QueryM.evolves_visit law.toLaw hany
    intro w₁ hw
    cases source with
    | derived => exact Rule.draws_derive law.heap.pointers hany (fun _ => trivial) site i
    | fixed rules =>
      exact draws_pure fun r hr => (hsource r hr).mono (law.heap.pointers.mono hw)
  | enterCallee site call callee =>
    apply hreturn
    exact QueryM.evolves_enterCallee law.toLaw call site callee (fun _ => law.notACall _ _)
      fun w' s d => law.entered w' s _ _ rfl rfl
  | returnToCaller site call =>
    exact hreturn (QueryM.evolves_returnToCaller law.toLaw call site fun _ => law.notACall _ _)
  | skipCall site call =>
    exact hreturn (QueryM.evolves_skipCall law.toLaw call site fun _ => law.notACall _ _)
  | declareWitness => exact hreturn (QueryM.evolves_declareWitness law.toLaw)

theorem evolves_check : StoreM.Evolves J (Query.Both PH PP) E w (do QueryM.check; return [])
    fun w' (rest : List Query) => ∀ q ∈ rest, Query.Both PH PP w' q :=
  (QueryM.evolves_check law.toLaw).bind fun _ _ _ _ => evolves_pure fun q hq => by cases hq

theorem passes_rulesOf (n : Nat) (step : Step) :
    Passes J E w (rulesOf n step) fun w' source => source.Within (G w') := by
  have hderived : Passes J E w (pure .derived) fun w' source => RuleSource.Within (G w') source :=
    passes_pure trivial
  cases step with
  | visit site i patterns =>
    cases patterns with
    | none => exact hderived
    | some patterns =>
      unfold rulesOf
      refine (passes_fresh (RulePattern.draws_rules? law.heap.pointers patterns _)).bind
        fun w₁ o _ hrules => ?_
      cases o with
      | none => exact passes_invalid
      | some rules => exact passes_pure (hrules rules rfl)
  | enterCallee | returnToCaller | skipCall | declareWitness => exact hderived

theorem passes_start (sc : Scenario) :
    Passes J E w sc.start fun w' outcome => ∀ q, outcome = .ok q → Query.Both PH PP w' q := by
  have hnew : ∀ w, Query.Both PH PP w {} := fun w => ⟨law.newHeap w, law.newPath w⟩
  have hgoal : ∀ {w : W} {x : QueryM Unit}, StoreM.Evolves J (Query.Both PH PP) E w x
      (fun _ _ => True) → Passes J E w (do return (← onQuery x {}).map Prod.snd) fun w' outcome =>
        ∀ q, outcome = .ok q → Query.Both PH PP w' q := by
    intro w x hx
    refine (passes_onQuery hx (hnew w)).bind fun w₁ outcome _ hout => passes_pure fun q hq => ?_
    cases outcome with
    | error r => cases hq
    | ok result =>
      cases hq
      exact (hout _ _ rfl).1
  cases hsc : sc.goal with
  | constraint lhs op rhs =>
    rw [start_of_constraint hsc]
    apply hgoal
    apply QueryM.evolves_onPath law.toLaw
    exact PathM.evolves_require law.path (PathM.within_of_isKnown law.path (isKnown_goalTerm lhs))
      (PathM.within_of_isKnown law.path (isKnown_goalTerm rhs))
  | edge source field sink =>
    unfold start
    rw [hsc]
    refine (passes_fresh law.heap.pointers.make).bind fun w₁ o _ hsink => ?_
    cases o with
    | none => exact passes_invalid
    | some p =>
      apply hgoal
      exact QueryM.evolves_requireEdge law.toLaw ⟨.inl rfl, hsink p rfl fun _ _ => trivial⟩

theorem passes_replayFrom (sc : Scenario) {n : Nat} {steps : List Step} {s : Search}
    (hs : ∀ q ∈ s.live, Query.Both PH PP w q) :
    Passes J E w (sc.replayFrom n steps s) fun w' s' => ∀ q ∈ s'.live, Query.Both PH PP w' q := by
  induction steps generalizing n s w with
  | nil => exact passes_pure hs
  | cons step rest ih =>
    have hnone : ∀ {w' : W}, ∀ q ∈ ([] : List Query), Query.Both PH PP w' q := fun q hq => by
      cases hq
    have hmono := QueryM.both_mono law.toLaw
    have hnote : ∀ (w' : W) (text : String),
        Passes J E w' (session (Session.note .debug .scenario text)) fun _ _ => True :=
      fun w' text => passes_session fun s hJ =>
        ⟨w', le_refl w', law.heap.notes ⟨_, rfl⟩ hJ, trivial⟩
    unfold replayFrom
    by_cases hwitness : s.hasWitness = true
    · rw [if_pos hwitness]
      exact (hnote w _).bind fun w₁ _ hw _ => passes_pure fun q hq => hmono hw q (hs q hq)
    rw [if_neg hwitness]
    by_cases hempty : s.live.isEmpty = true
    · rw [if_pos hempty]
      exact passes_pure hs
    rw [if_neg hempty]
    refine (passes_rulesOf law n step).bind fun w₁ source hw₁ hsource => ?_
    refine (passes_advance hmono
      (fun w' hw' => evolves_stepOn law (hsource.mono (law.heap.pointers.mono hw')) step)
      (fun q hq => hmono hw₁ q (hs q hq)) hnone).bind fun w₂ s₂ _ hs₂ => ?_
    -- the check is a second pass over what the step left alive
    refine (passes_advance hmono (fun w' _ => evolves_check law) hs₂ hnone).bind
      fun w₃ s₃ _ hs₃ => ?_
    exact (hnote w₃ _).bind fun w₄ _ hw₄ _ => ih fun q hq => hmono hw₄ q (hs₃ q hq)

end Law

/-! ## 4. Moments -/

/-- The search after some steps. -/
def searchAfter (sc : Scenario) (steps : List Step) : ReplayM Search := do
  let s : Search :=
    match ← start sc with
    | .ok q => { live := [q] }
    | .error r => ({} : Search).refute "goal" r
  replayFrom sc 0 steps s

/-- A replay reports on the search after all steps. -/
theorem replay_eq (sc : Scenario) :
    sc.replay = do
      let s ← sc.searchAfter sc.trace
      return {
        name := sc.name
        verdict := s.verdict
        expected := sc.expect
        branches := s.live.length
        refutations := s.refutations
        optimistic := (← get).optimistic } := by
  unfold replay searchAfter
  exact (bind_assoc _ _ _).symm

/-- All live branches of the search are about to be advanced by the operation: by the next step of
the trace, or by the check that follows it. -/
inductive Phase (sc : Scenario) (initial : Session) : Session → Search → QueryM (List Query) → Prop
  | step {steps rest : List Step} {step : Step} {s : Search} {source : RuleSource}
      {session session' : Session} (htrace : sc.trace = steps ++ step :: rest)
      (hs : sc.searchAfter steps initial = .ok s session)
      (hrules : rulesOf steps.length step session = .ok source session') :
      Phase sc initial session' s (stepOn sc.heap source step)
  | check {s s' : Search} {x : QueryM (List Query)} {place : String} {session session' : Session}
      (hphase : Phase sc initial session s x)
      (hrun : advance place x s.live { s with live := [] } session = .ok s' session') :
      Phase sc initial session' s' do QueryM.check; return []

/-- The session and the live branches at some time of a replay. -/
inductive Moment (sc : Scenario) (initial : Session) : Session → List Query → Prop
  | between {steps rest : List Step} {s : Search} {session : Session}
      (htrace : sc.trace = steps ++ rest) (hs : sc.searchAfter steps initial = .ok s session) :
      Moment sc initial session s.live
  /-- the first branches are advanced, the others wait -/
  | during {s s' : Search} {x : QueryM (List Query)} {place : String} {session session' : Session}
      {first waiting : List Query} (hphase : Phase sc initial session s x)
      (hlive : s.live = first ++ waiting)
      (hrun : advance place x first { s with live := [] } session = .ok s' session') :
      Moment sc initial session' (s'.live ++ waiting)

section Law

variable {sc : Scenario} {initial session : Session} (law : Law J PH PP E G G') (hJ : J w initial)
include law

theorem passes_searchAfter (steps : List Step) :
    Passes J E w (sc.searchAfter steps) fun w' s => ∀ q ∈ s.live, Query.Both PH PP w' q := by
  refine (passes_start law sc).bind fun w₁ outcome _ hout => passes_replayFrom law sc fun q hq => ?_
  cases outcome with
  | ok q' =>
    rw [List.mem_singleton.1 hq]
    exact hout q' rfl
  | error r => cases hq

include hJ

theorem Phase.exists_world {s : Search} {x : QueryM (List Query)}
    (h : Phase sc initial session s x) :
    ∃ w, J w session ∧ (∀ q ∈ s.live, Query.Both PH PP w q) ∧
      ∀ w', w ≤ w' → StoreM.Evolves J (Query.Both PH PP) E w' x fun w' rest =>
        ∀ q ∈ rest, Query.Both PH PP w' q := by
  induction h with
  | step htrace hs hrules =>
    obtain ⟨w₁, -, hJ₁, hlive⟩ := (passes_searchAfter law _).ok hJ hs
    obtain ⟨w₂, hw₂, hJ₂, hsource⟩ := (passes_rulesOf law _ _).ok hJ₁ hrules
    refine ⟨w₂, hJ₂, fun q hq => QueryM.both_mono law.toLaw hw₂ q (hlive q hq), fun w' hw' => ?_⟩
    exact evolves_stepOn law (hsource.mono (law.heap.pointers.mono hw')) _
  | check hphase hrun ih =>
    obtain ⟨w₁, hJ₁, hlive, hx⟩ := ih
    obtain ⟨w₂, -, hJ₂, hlive₂⟩ := (passes_advance (QueryM.both_mono law.toLaw) hx hlive
      fun q hq => by cases hq).ok hJ₁ hrun
    exact ⟨w₂, hJ₂, hlive₂, fun w' _ => evolves_check law⟩

/-- At every moment one world agrees with the session and with all live branches. -/
theorem Moment.exists_world {live : List Query} (h : Moment sc initial session live) :
    ∃ w, J w session ∧ ∀ q ∈ live, Query.Both PH PP w q := by
  cases h with
  | between htrace hs =>
    obtain ⟨w₁, -, hJ₁, hlive⟩ := (passes_searchAfter law _).ok hJ hs
    exact ⟨w₁, hJ₁, hlive⟩
  | during hphase hlive hrun =>
    obtain ⟨w₁, hJ₁, hall, hx⟩ := hphase.exists_world law hJ
    rw [hlive] at hall
    obtain ⟨w₂, hw₂, hJ₂, hadvanced⟩ := (passes_advance (QueryM.both_mono law.toLaw) hx
      (fun q hq => hall q (List.mem_append.2 (.inl hq))) fun q hq => by cases hq).ok hJ₁ hrun
    refine ⟨w₂, hJ₂, fun q hq => ?_⟩
    rcases List.mem_append.1 hq with hq | hq
    · exact hadvanced q hq
    · exact QueryM.both_mono law.toLaw hw₂ q (hall q (List.mem_append.2 (.inr hq)))

theorem fault_of_replay {b : Fault} (h : sc.replay initial = .error (.fault b) session) :
    E (.fault b) := by
  have hreplay : Passes J E w sc.replay fun _ _ => True := by
    rw [replay_eq]
    exact (passes_searchAfter law sc.trace).bind fun _ _ _ _ =>
      passes_get.bind fun _ _ _ _ => passes_pure trivial
  exact hreplay.fault hJ h

end Law

end Scenario

end Refuter
