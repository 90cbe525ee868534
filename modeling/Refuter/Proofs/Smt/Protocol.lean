import Refuter.Proofs.Run
import Refuter.Proofs.Smt.Context

/-!
# What a backend is called with

A backend may answer or fail as it likes. The calls it has seen, the newest first, still follow a
protocol: every name is declared once, an assertion uses names whose declarations were taken, a
check comes right after the declaration and the assertion of its own marker, and a call that was
not taken is the last one.
-/

namespace Refuter.Smt

/-! ## 1. Runs of a solver -/

namespace SolverM

variable {α β : Type} {s : Solver}

/-- The result and the solver afterwards satisfy `Q`, or the solver satisfies `H` after a
failure. -/
def Results (x : SolverM α) (s : Solver) (Q : α → Solver → Prop) (H : Solver → Prop) : Prop :=
  match x s with
  | .ok a t => Q a t
  | .error _ t => H t

variable {Q : α → Solver → Prop} {H : Solver → Prop}

theorem Results.of_ok {x : SolverM α} {a : α} {t : Solver} (h : Results x s Q H)
    (hx : x s = .ok a t) : Q a t := by
  unfold Results at h
  rw [hx] at h
  exact h

theorem Results.of_error {x : SolverM α} {e : String} {t : Solver} (h : Results x s Q H)
    (hx : x s = .error e t) : H t := by
  unfold Results at h
  rw [hx] at h
  exact h

theorem Results.mono {x : SolverM α} {Q' : α → Solver → Prop} (h : Results x s Q H)
    (hQ : ∀ a t, Q a t → Q' a t) : Results x s Q' H := by
  unfold Results at *
  cases hx : x s with
  | ok a t =>
    rw [hx] at h
    exact hQ a t h
  | error e t =>
    rw [hx] at h
    exact h

theorem Results.bind {x : SolverM β} {k : β → SolverM α} {R : β → Solver → Prop}
    (hx : Results x s R H) (hk : ∀ b t, R b t → Results (k b) t Q H) :
    Results (x >>= k) s Q H := by
  unfold Results
  cases hrun : x s with
  | ok b t =>
    rw [bind_of_ok hrun]
    exact hk b t (hx.of_ok hrun)
  | error e t =>
    rw [bind_of_error hrun]
    exact hx.of_error hrun

end SolverM

namespace Solver

open SolverM

variable {s : Solver} {call : Call} {name : String}

theorem send_of_error {reason : String} (h : s.backend (call :: s.calls) = .error reason) :
    send call s = .error reason (s.after call) := by
  show (send call).run s = _
  simp only [send, record, EStateM.run_bind, EStateM.run_modify, EStateM.run_get, h]
  rfl

theorem results_send {Q : Answer → Solver → Prop} {H : Solver → Prop}
    (hok : ∀ answer, s.backend (call :: s.calls) = .ok answer → Q answer (s.after call))
    (herror : H (s.after call)) : Results (send call) s Q H := by
  unfold Results
  cases hreply : s.backend (call :: s.calls) with
  | ok answer =>
    rw [send_of_ok hreply]
    exact hok answer hreply
  | error reason =>
    rw [send_of_error hreply]
    exact herror

theorem results_declare {Q : Solver → Prop} {H : Solver → Prop} (hold : name ∈ s.declared → Q s)
    (hnew : name ∉ s.declared →
      Results (send call) { s with declared := name :: s.declared } (fun _ => Q) H) :
    Results (declare name call) s (fun _ => Q) H := by
  by_cases hmem : name ∈ s.declared
  · unfold Results
    rw [declare_of_mem hmem]
    exact hold hmem
  · have hrun : declare name call s = (do let _ ← send call : SolverM Unit)
        { s with declared := name :: s.declared } := by
      show (if name ∈ s.declared then (pure () : SolverM Unit) else _) s = _
      rw [if_neg hmem]
      rfl
    unfold Results
    rw [hrun]
    exact (hnew hmem).bind fun _ _ h => h

/-- A check declares what is missing, takes a marker and sends its three calls. -/
theorem results_check {formula : Formula} {ints : List String} {Q : Answer → Solver → Prop}
    {H : Solver → Prop}
    (h : Results (declareInts ints) s (fun _ t =>
      Results (declare (markerName (t.markers + 1)) (.declareBool (markerName (t.markers + 1))))
        { t with markers := t.markers + 1 } (fun _ u =>
          Results (send (.assert (markerName (t.markers + 1)) formula)) u (fun _ v =>
            Results (send (.check (markerName (t.markers + 1)))) v (fun answer w =>
              ∀ transcript, Q answer { w with transcript := transcript }) H) H) H) H) :
    Results (check formula ints) s Q H := by
  refine h.bind fun _ t ht => ?_
  -- taking a marker only counts
  show Results (declare _ _ >>= fun _ => _) { t with markers := t.markers + 1 } Q H
  exact Results.bind ht fun _ u hu => Results.bind hu fun _ v hv =>
    Results.bind hv fun answer w hw => hw _

/-- The backend stays, and an answer is its reply to a check. -/
theorem results_check_backend (s : Solver) (formula : Formula) (ints : List String) :
    Results (check formula ints) s
      (fun answer t => t.backend = s.backend ∧
        ∃ marker earlier, s.backend (.check marker :: earlier) = .ok answer)
      fun t => t.backend = s.backend := by
  have hdeclare : ∀ (s : Solver) (name : String) (call : Call),
      Results (declare name call) s (fun _ t => t.backend = s.backend) fun t =>
        t.backend = s.backend := fun s name call => by
    refine results_declare (Q := fun t => t.backend = s.backend) (fun _ => rfl) fun _ => ?_
    apply results_send
    · exact fun _ _ => rfl
    · rfl
  have hints : Results (declareInts ints) s (fun _ t => t.backend = s.backend) fun t =>
      t.backend = s.backend := by
    induction ints generalizing s with
    | nil => exact rfl
    | cons name rest ih =>
      refine (hdeclare s name _).bind fun _ t ht => ?_
      rw [← ht]
      exact ih t
  refine results_check (hints.mono fun _ t ht => ?_)
  rw [← ht]
  refine (hdeclare { t with markers := t.markers + 1 } _ _).mono fun _ u hu => ?_
  refine results_send (fun _ _ => ?_) hu
  exact results_send (fun answer hreply transcript => ⟨hu, _, _, hu ▸ hreply⟩) hu

end Solver

/-! ## 2. Logs -/

/-- The newest call was not taken: it failed, or it is a check that was not decided. -/
inductive Backend.GivesUp (b : Backend) : List Call → Prop
  | fails {call : Call} {earlier : List Call} {reason : String}
      (h : b (call :: earlier) = .error reason) : GivesUp b (call :: earlier)
  | unknown {marker : String} {earlier : List Call}
      (h : b (.check marker :: earlier) = .ok .unknown) : GivesUp b (.check marker :: earlier)

theorem Backend.not_givesUp {b : Backend} {call : Call} {earlier : List Call} {answer : Answer}
    (h : b (call :: earlier) = .ok answer)
    (hknown : ∀ marker, call = .check marker → answer ≠ .unknown) :
    ¬ b.GivesUp (call :: earlier) := by
  rintro (hfails | hunknown)
  · rw [h] at hfails
    cases hfails
  · rw [h] at hunknown
    cases hunknown
    exact hknown _ rfl rfl

/-- The calls that did not fail. -/
def Backend.accepted (b : Backend) : List Call → List Call
  | [] => []
  | call :: earlier =>
    if (b (call :: earlier)).isOk then call :: b.accepted earlier else b.accepted earlier

/-- The marker that a call checks. -/
def Call.checks? : Call → Option String
  | check marker => some marker
  | declareInt _ | declareBool _ | assert .. => none

/-- What a backend can rely on, however it replied to the calls, the newest first. -/
structure Disciplined (b : Backend) (calls : List Call) : Prop where
  /-- no name is declared twice -/
  declaresOnce : (calls.filterMap Call.declares?).Nodup
  /-- an assertion uses only names whose declaration was taken before -/
  declaredBefore : ∀ {marker : String} {formula : Formula} {earlier : List Call},
    .assert marker formula :: earlier <:+ calls →
    .declareBool marker ∈ b.accepted earlier ∧ formula.Declared (b.accepted earlier)
  /-- a check assumes the marker that was declared and used right before it -/
  checksOwnMarker : ∀ {marker : String} {earlier : List Call}, .check marker :: earlier <:+ calls →
    ∃ formula before, earlier = .assert marker formula :: .declareBool marker :: before
  /-- no marker is checked twice -/
  checksOnce : (calls.filterMap Call.checks?).Nodup
  /-- nothing is called after a call that was not taken -/
  stops : ∀ {call : Call} {earlier : List Call}, call :: earlier <:+ calls → ¬ b.GivesUp earlier

/-- The calls are well formed, each check comes with its marker, and only the newest call may not
have been taken. -/
structure Orderly (b : Backend) (calls : List Call) : Prop where
  wellFormed : WellFormed calls
  checksOwnMarker : ∀ {marker : String} {earlier : List Call}, .check marker :: earlier <:+ calls →
    ∃ formula before, earlier = .assert marker formula :: .declareBool marker :: before
  stops : ∀ {call : Call} {earlier : List Call}, call :: earlier <:+ calls → ¬ b.GivesUp earlier

namespace Orderly

variable {b : Backend} {call : Call} {calls earlier : List Call}

theorem nil (b : Backend) : Orderly b [] where
  wellFormed := .nil
  checksOwnMarker h := by cases List.suffix_nil.1 h
  stops h := by cases List.suffix_nil.1 h

/-- One more call after calls that were all taken. -/
theorem cons (h : Orderly b calls) (htaken : ¬ b.GivesUp calls) (hwf : WellFormed (call :: calls))
    (hcheck : ∀ marker, call = .check marker →
      ∃ formula before, calls = .assert marker formula :: .declareBool marker :: before) :
    Orderly b (call :: calls) where
  wellFormed := hwf
  checksOwnMarker hsuffix := by
    obtain heq | hsuffix := List.suffix_cons_iff.1 hsuffix
    · cases heq
      exact hcheck _ rfl
    · exact h.checksOwnMarker hsuffix
  stops hsuffix := by
    obtain heq | hsuffix := List.suffix_cons_iff.1 hsuffix
    · cases heq
      exact htaken
    · exact h.stops hsuffix

theorem tail (h : Orderly b (call :: calls)) : Orderly b calls where
  wellFormed := by
    cases h.wellFormed <;> assumption
  checksOwnMarker hsuffix := h.checksOwnMarker (hsuffix.trans (List.suffix_cons _ _))
  stops hsuffix := h.stops (hsuffix.trans (List.suffix_cons _ _))

theorem of_suffix (h : Orderly b calls) (hsuffix : earlier <:+ calls) : Orderly b earlier := by
  induction calls with
  | nil =>
    rw [List.suffix_nil.1 hsuffix]
    exact h
  | cons call rest ih =>
    obtain rfl | hsuffix := List.suffix_cons_iff.1 hsuffix
    · exact h
    · exact ih h.tail hsuffix

/-- All calls before the newest one were taken. -/
theorem accepted_eq (h : Orderly b (call :: calls)) : b.accepted calls = calls := by
  induction calls generalizing call with
  | nil => rfl
  | cons first rest ih =>
    have htaken : ¬ b.GivesUp (first :: rest) := h.stops (List.suffix_refl _)
    unfold Backend.accepted
    cases hreply : b (first :: rest) with
    | ok answer =>
      rw [ih h.tail]
      rfl
    | error reason => exact absurd (.fails hreply) htaken

end Orderly

/-- A declared name is one of the symbols of the log. -/
theorem IsNew.not_mem {name : String} {calls : List Call} (h : IsNew name calls) :
    name ∉ calls.filterMap Call.declares? := by
  intro hmem
  obtain ⟨call, hcall, hdeclares⟩ := List.mem_filterMap.1 hmem
  exact h call hcall name hdeclares rfl

theorem WellFormed.declaresOnce {calls : List Call} (h : WellFormed calls) :
    (calls.filterMap Call.declares?).Nodup := by
  induction h with
  | nil => exact List.nodup_nil
  | declareInt hnew _ ih | declareBool hnew _ ih => exact List.nodup_cons.2 ⟨hnew.not_mem, ih⟩
  | assert _ _ _ ih | check _ _ ih => exact ih

/-- A marker that was checked was declared. -/
theorem WellFormed.checked_declared {calls : List Call} {marker : String} (h : WellFormed calls)
    (hmem : .check marker ∈ calls) : .declareBool marker ∈ calls := by
  induction h with
  | nil => cases hmem
  | declareInt _ _ ih | declareBool _ _ ih | assert _ _ _ ih =>
    obtain hmem | hmem := List.mem_cons.1 hmem
    · cases hmem
    · exact List.mem_cons_of_mem _ (ih hmem)
  | check hmarker _ ih =>
    apply List.mem_cons_of_mem
    obtain hmem | hmem := List.mem_cons.1 hmem
    · cases hmem
      exact hmarker
    · exact ih hmem

namespace Orderly

variable {b : Backend} {calls : List Call}

theorem checksOnce (h : Orderly b calls) : (calls.filterMap Call.checks?).Nodup := by
  induction calls with
  | nil => exact List.nodup_nil
  | cons call earlier ih =>
    cases call with
    | declareInt | declareBool | assert => exact ih h.tail
    | check marker =>
      refine List.nodup_cons.2 ⟨fun hmem => ?_, ih h.tail⟩
      obtain ⟨call, hcall, hchecks⟩ := List.mem_filterMap.1 hmem
      cases call with
      | declareInt | declareBool | assert => cases hchecks
      | check other =>
        cases hchecks
        -- an older check of the marker needs an older declaration of it
        obtain ⟨formula, before, rfl⟩ := h.checksOwnMarker (List.suffix_refl _)
        have hbefore : .check marker ∈ before := by simpa using hcall
        have hold : Orderly b (.declareBool marker :: before) := h.tail.tail
        cases hold.wellFormed with
        | declareBool hnew hwf => exact hnew _ (hwf.checked_declared hbefore) marker rfl rfl

theorem disciplined (h : Orderly b calls) : Disciplined b calls where
  declaresOnce := h.wellFormed.declaresOnce
  declaredBefore hsuffix := by
    have hassert := h.of_suffix hsuffix
    rw [hassert.accepted_eq]
    cases hassert.wellFormed with
    | assert hmarker hformula _ => exact ⟨hmarker, hformula⟩
  checksOwnMarker := h.checksOwnMarker
  checksOnce := h.checksOnce
  stops := h.stops

end Orderly

/-! ## 3. One check -/

namespace Solver

open SolverM

/-- Every call was taken, and what was declared is known. -/
structure Open (s : Solver) : Prop where
  orderly : Orderly s.backend s.calls
  taken : ¬ s.backend.GivesUp s.calls
  named : s.Named

/-- The log of a backend is in order. -/
def Follows (b : Backend) (s : Solver) : Prop := s.backend = b ∧ Orderly b s.calls

namespace Open

variable {s : Solver} {b : Backend}

/-- Before the first check there are no calls. -/
theorem of_fresh (hcalls : s.calls = []) (hdeclared : s.declared = []) : s.Open where
  orderly := hcalls ▸ .nil _
  taken := by
    rw [hcalls]
    rintro ⟨⟩
  named := .of_fresh hcalls hdeclared

theorem not_givesUp (hs : s.Open) {calls : List Call} (h : calls <:+ s.calls) :
    ¬ s.backend.GivesUp calls := by
  obtain ⟨later, heq⟩ := h
  obtain rfl | ⟨others, call, rfl⟩ := List.eq_nil_or_concat later
  · rw [List.nil_append] at heq
    rw [heq]
    exact hs.taken
  · exact hs.orderly.stops ⟨others, by simpa using heq⟩

/-- A further call that is not a check. Unless it fails, the solver stays open. -/
theorem results_send {call : Call} {names : List String} (hs : s.Open)
    (hwf : WellFormed (call :: s.calls)) (hcheck : call.checks? = none)
    (hnamed : ({ s with declared := names }.after call).Named) :
    Results (send call) { s with declared := names }
      (fun _ t => t.Open ∧ t.backend = s.backend ∧ t.calls = call :: s.calls ∧
        t.markers = s.markers)
      (Follows s.backend) := by
  have hother : ∀ marker, call ≠ .check marker := by
    rintro marker rfl
    cases hcheck
  have horderly : Orderly s.backend (call :: s.calls) :=
    hs.orderly.cons hs.taken hwf fun marker heq => absurd heq (hother marker)
  refine Solver.results_send (fun answer hreply => ⟨⟨horderly, ?_, hnamed⟩, rfl, rfl, rfl⟩)
    ⟨rfl, horderly⟩
  exact Backend.not_givesUp hreply fun marker heq => absurd heq (hother marker)

/-- Paths are declared; those that are already stay so. -/
theorem results_declareInts {names : List String} (hs : s.Open) (hb : s.backend = b)
    (hnames : ∀ name ∈ names, ∃ v : AccessPath, name = v.symbol) :
    Results (declareInts names) s
      (fun _ t => t.Open ∧ t.backend = b ∧ s.calls ⊆ t.calls ∧
        ∀ name ∈ names, .declareInt name ∈ t.calls) (Follows b) := by
  induction names generalizing s with
  | nil => exact ⟨hs, hb, List.Subset.refl _, fun name h => by cases h⟩
  | cons name rest ih =>
    obtain ⟨v, rfl⟩ := hnames name List.mem_cons_self
    have hfirst : Results (declare v.symbol (.declareInt v.symbol)) s
        (fun _ t => t.Open ∧ t.backend = b ∧ s.calls ⊆ t.calls ∧ .declareInt v.symbol ∈ t.calls)
        (Follows b) := by
      refine results_declare (Q := fun t => t.Open ∧ t.backend = b ∧ s.calls ⊆ t.calls ∧
        .declareInt v.symbol ∈ t.calls) (fun hmem => ?_) fun hmem => ?_
      · exact ⟨hs, hb, List.Subset.refl _, hs.named.declareInt_mem hmem⟩
      · rw [← hb]
        refine (hs.results_send (.declareInt (hs.named.isNew_symbol hmem) hs.orderly.wellFormed)
          rfl (hs.named.declare rfl (fun _ => ⟨v, rfl⟩) fun h => by cases h)).mono ?_
        rintro _ t ⟨ht, hbackend, hcalls, -⟩
        rw [hcalls]
        exact ⟨ht, hbackend, List.subset_cons_self _ _, List.mem_cons_self⟩
    refine hfirst.bind ?_
    rintro _ t ⟨ht, hbackend, hsub, hint⟩
    refine (ih ht hbackend fun name h => hnames name (List.mem_cons_of_mem _ h)).mono ?_
    rintro _ u ⟨hu, hbackend', hsub', hints⟩
    refine ⟨hu, hbackend', fun c hc => hsub' (hsub hc), fun name hname => ?_⟩
    obtain rfl | hname := List.mem_cons.1 hname
    · exact hsub' hint
    · exact hints name hname

/-- A new marker is declared. -/
theorem results_declareMarker (hs : s.Open) :
    Results (declare (markerName (s.markers + 1)) (.declareBool (markerName (s.markers + 1))))
      { s with markers := s.markers + 1 }
      (fun _ t => t.Open ∧ t.backend = s.backend ∧
        t.calls = .declareBool (markerName (s.markers + 1)) :: s.calls)
      (Follows s.backend) := by
  have hs₁ : { s with markers := s.markers + 1 }.Open :=
    ⟨hs.orderly, hs.taken, hs.named.nextMarker⟩
  have hnew := hs.named.isNew_markerName (Nat.lt_succ_self s.markers)
  refine results_declare (Q := fun t => t.Open ∧ t.backend = s.backend ∧
    t.calls = .declareBool (markerName (s.markers + 1)) :: s.calls)
    (fun hmem => absurd hmem (hs.named.markerName_not_mem (Nat.lt_succ_self _))) fun _ => ?_
  refine (hs₁.results_send (.declareBool hnew hs.orderly.wellFormed) rfl
    (hs₁.named.declare rfl (fun h => by cases h) fun _ => ⟨_, Nat.le_refl _, rfl⟩)).mono ?_
  rintro _ t ⟨ht, hbackend, hcalls, -⟩
  exact ⟨ht, hbackend, hcalls⟩

/-- Whatever the backend replies, a check keeps the log in order, and the solver stays open if the
check was decided. -/
theorem results_check {parts : List Comparison} {names : List String} (hs : s.Open)
    (hnames : ∀ name ∈ names, ∃ v : AccessPath, name = v.symbol)
    (hparts : ∀ c ∈ parts, ∀ name ∈ c.names, name ∈ names) :
    Results (check (.all parts) names) s
      (fun answer t => Follows s.backend t ∧ (answer ≠ .unknown → t.Open))
      (Follows s.backend) := by
  refine Solver.results_check ((hs.results_declareInts rfl hnames).mono ?_)
  rintro _ t ⟨ht, hbackend, -, hints⟩
  rw [← hbackend]
  refine ht.results_declareMarker.mono ?_
  rintro _ u ⟨hu, hbackend', hcalls⟩
  -- the assertion uses the new marker and the declared paths
  have hmarker : .declareBool (markerName (t.markers + 1)) ∈ u.calls := hcalls ▸ List.mem_cons_self
  have hformula : (Formula.all parts).Declared u.calls := fun c hc name hname => by
    rw [hcalls]
    exact List.mem_cons_of_mem _ (hints name (hparts c hc name hname))
  rw [← hbackend']
  refine (hu.results_send (.assert hmarker hformula hu.orderly.wellFormed) rfl
    (hu.named.after rfl)).mono ?_
  rintro _ v ⟨hv, hbackend'', hcalls', -⟩
  rw [← hbackend'']
  -- the check itself comes right after it
  have horderly : Orderly v.backend (.check (markerName (t.markers + 1)) :: v.calls) := by
    refine hv.orderly.cons hv.taken (.check ?_ hv.orderly.wellFormed) fun marker heq => ?_
    · rw [hcalls']
      exact List.mem_cons_of_mem _ hmarker
    · cases heq
      rw [hcalls', hcalls]
      exact ⟨_, _, rfl⟩
  refine Solver.results_send (fun answer hreply transcript => ⟨⟨rfl, horderly⟩, fun hknown => ?_⟩)
    ⟨rfl, horderly⟩
  have hnamed : (v.after (.check (markerName (t.markers + 1)))).Named := hv.named.after rfl
  exact ⟨horderly, Backend.not_givesUp hreply fun _ _ => hknown, hnamed.declared, hnamed.ints,
    hnamed.bools⟩

end Open

end Solver

end Refuter.Smt
