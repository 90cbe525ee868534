import Refuter.Proofs.Smt.Text
import Refuter.Smt.Solver

/-!
# One solver context for many checks

An ideal backend decides each check under everything asserted so far. The context declares every
name once and asserts each formula under a marker of its own, so old assertions can always be
switched off and a check decides its own formula.
-/

namespace Refuter.Smt

/-! ## 1. Ideal backends -/

/-- Every assertion holds whose marker is true. -/
def Assignment.Satisfies (A : Assignment) (calls : List Call) : Prop :=
  ∀ marker F, .assert marker F ∈ calls → A.bool (plainName marker) = true → F.Holds A

/-- The symbols of the formula are declared, with their sorts. -/
def Formula.Declared (calls : List Call) : Formula → Prop
  | sym name => .declareBool name ∈ calls
  | all parts => ∀ c ∈ parts, ∀ name ∈ c.names, .declareInt name ∈ calls

/-- The name that a call declares. -/
def Call.declares? : Call → Option String
  | declareInt name | declareBool name => some name
  | assert .. | check _ => none

/-- No declared name is the same symbol, with or without bars. -/
def IsNew (name : String) (calls : List Call) : Prop :=
  ∀ call ∈ calls, ∀ other, call.declares? = some other → plainName other ≠ plainName name

/-- The calls, the newest first, declare every name once and before it is used. -/
inductive WellFormed : List Call → Prop
  | nil : WellFormed []
  | declareInt {name : String} {calls : List Call} (hnew : IsNew name calls)
      (h : WellFormed calls) : WellFormed (.declareInt name :: calls)
  | declareBool {name : String} {calls : List Call} (hnew : IsNew name calls)
      (h : WellFormed calls) : WellFormed (.declareBool name :: calls)
  | assert {marker : String} {F : Formula} {calls : List Call}
      (hmarker : .declareBool marker ∈ calls) (hF : F.Declared calls) (h : WellFormed calls) :
      WellFormed (.assert marker F :: calls)
  | check {marker : String} {calls : List Call} (hmarker : .declareBool marker ∈ calls)
      (h : WellFormed calls) : WellFormed (.check marker :: calls)

/-- The backend takes well formed calls and decides each check. What it does with others is left
open. -/
structure Backend.Ideal (b : Backend) : Prop where
  accepts : ∀ {calls}, WellFormed calls → ∃ answer, b calls = .ok answer
  sat : ∀ {marker calls}, WellFormed (.check marker :: calls) →
    (∃ A : Assignment, A.Satisfies calls ∧ A.bool (plainName marker) = true) →
    b (.check marker :: calls) = .ok .sat
  unsat : ∀ {marker calls}, WellFormed (.check marker :: calls) →
    (¬ ∃ A : Assignment, A.Satisfies calls ∧ A.bool (plainName marker) = true) →
    b (.check marker :: calls) = .ok .unsat

open Classical in
/-- A backend that decides every check. -/
noncomputable def decideBackend : Backend
  | .check marker :: calls =>
    if ∃ A : Assignment, A.Satisfies calls ∧ A.bool (plainName marker) = true then .ok .sat
    else .ok .unsat
  | _ => .ok .sat

theorem ideal_decideBackend : Backend.Ideal decideBackend where
  accepts := by
    intro calls _
    unfold decideBackend
    split
    · split <;> exact ⟨_, rfl⟩
    · exact ⟨_, rfl⟩
  sat := fun _ h => if_pos h
  unsat := fun _ h => if_neg h

/-- Markers of assertions are declared. -/
theorem WellFormed.marker_declared {calls : List Call} {marker : String} {F : Formula}
    (h : WellFormed calls) (hmem : .assert marker F ∈ calls) : .declareBool marker ∈ calls := by
  induction h with
  | nil => cases hmem
  | declareInt _ _ ih | declareBool _ _ ih | check _ _ ih =>
    obtain hmem | hmem := List.mem_cons.1 hmem
    · cases hmem
    · exact List.mem_cons_of_mem _ (ih hmem)
  | assert hmarker _ _ ih =>
    apply List.mem_cons_of_mem
    obtain hmem | hmem := List.mem_cons.1 hmem
    · cases hmem
      exact hmarker
    · exact ih hmem

/-! ## 2. Switching assertions off -/

namespace Assignment

/-- The assignment with `marker` as the only true Boolean. -/
def only (A : Assignment) (marker : String) : Assignment :=
  { A with bool := fun name => name = plainName marker }

theorem value_only (A : Assignment) (marker : String) (e : Expr) :
    e.value (A.only marker) = e.value A := by
  induction e with
  | num | sym => rfl
  | neg e ih => simp only [Expr.value, ih]
  | add l r ihl ihr | sub l r ihl ihr | mul l r ihl ihr => simp only [Expr.value, ihl, ihr]
  | div l r ihl ihr | mod l r ihl ihr =>
    simp only [Expr.value, ihl, ihr]
    rfl
  | ifNonneg test yes no iht ihy ihn => simp only [Expr.value, iht, ihy, ihn]

end Assignment

/-- Under a marker that no other assertion has, a context allows what the formula allows. -/
theorem exists_satisfies_iff {calls : List Call} {marker : String} {parts : List Comparison}
    (hnew : ∀ other F, .assert other F ∈ calls → plainName other ≠ plainName marker) :
    (∃ A : Assignment, A.Satisfies (.assert marker (.all parts) :: calls) ∧
      A.bool (plainName marker) = true) ↔ (Formula.all parts).Satisfiable := by
  constructor
  · rintro ⟨A, hA, hmarker⟩
    exact ⟨A, hA marker (.all parts) List.mem_cons_self hmarker⟩
  · rintro ⟨A, hA⟩
    refine ⟨A.only marker, fun other F hmem htrue => ?_, by simp [Assignment.only]⟩
    have hother : plainName other = plainName marker := by simpa [Assignment.only] using htrue
    obtain hmem | hmem := List.mem_cons.1 hmem
    · cases hmem
      intro c hc
      unfold Comparison.Holds
      rw [A.value_only, A.value_only]
      exact hA c hc
    · exact absurd hother (hnew other F hmem)

/-! ## 3. Names -/

theorem toDigits_injective : Function.Injective (Nat.toDigits 10) := by
  intro j k h
  rw [← Nat.ofDigitChars_ten_toDigits (n := j), h, Nat.ofDigitChars_ten_toDigits]

/-- The marker of the check with number `k`. -/
def markerName (k : Nat) : String := "m" ++ toString k

theorem markerName_injective : Function.Injective markerName := by
  intro j k h
  have hchars := congrArg String.toList h
  simp only [markerName, String.toList_append, Nat.toString_eq_ofList_toDigits,
    String.toList_ofList] at hchars
  exact toDigits_injective (List.append_cancel_left hchars)

theorem head?_markerName (k : Nat) : (markerName k).toList.head? = some 'm' := by
  simp [markerName]

theorem plainName_markerName (k : Nat) : plainName (markerName k) = markerName k := by
  have hchars : (markerName k).toList = 'm' :: (toString k).toList := by simp [markerName]
  unfold plainName
  rw [hchars]
  rfl

end Refuter.Smt

namespace Refuter.AccessPath

/-- A path's name begins with the kind of its base. -/
theorem head?_baseName (p : Pointer) :
    ∃ c ∈ ['v', 'r', 's', 'n', 'i', '_'], (baseName p).toList.head? = some c := by
  cases p with
  | choice id cs => exact ⟨'_', by decide, by simp [baseName]⟩
  | known x =>
    cases x with
    | slot m l => exact ⟨'v', by decide, by simp [baseName, Location.text]⟩
    | result m => exact ⟨'r', by decide, by simp [baseName, Location.text]⟩
    | global f => exact ⟨'s', by decide, by simp [baseName, Location.text]⟩
    | site s => exact ⟨'n', by decide, by simp [baseName, Location.text, AllocSite.text]⟩
    | index n => exact ⟨'i', by decide, by simp [baseName, Location.text]⟩

/-- A path is never known by the name of a marker, even without its bars. -/
theorem plainName_symbol_ne_markerName (v : AccessPath) (k : Nat) :
    Smt.plainName v.symbol ≠ Smt.markerName k := by
  intro h
  have hplain : Smt.plainName v.symbol = .ofList ((baseName v.base ++
      String.join (v.fields.map ("." ++ ·.text))).map symbolChar).toList :=
    Smt.plainName_of_isQuoted (by simp [symbol])
  have hhead := Smt.head?_markerName k
  rw [← h, hplain] at hhead
  obtain ⟨c, hc, hbase⟩ := head?_baseName v.base
  obtain ⟨rest, hchars⟩ := List.head?_eq_some_iff.1 hbase
  simp only [String.toList_ofList, String.toList_map, String.toList_append, hchars,
    List.cons_append, List.map_cons, List.head?_cons, Option.some.injEq] at hhead
  have hne : ∀ c ∈ ['v', 'r', 's', 'n', 'i', '_'], symbolChar c ≠ 'm' := by simp [symbolChar]
  exact hne c hc hhead

theorem symbol_eq_of_plainName_eq {v w : AccessPath}
    (h : Smt.plainName v.symbol = Smt.plainName w.symbol) : v.symbol = w.symbol := by
  obtain ⟨cs, -, hv⟩ := v.isQuoted_symbol
  obtain ⟨ds, -, hw⟩ := w.isQuoted_symbol
  rw [Smt.plainName_of_isQuoted hv, Smt.plainName_of_isQuoted hw, String.ofList_inj] at h
  apply String.toList_inj.1
  rw [hv, hw, h]

end Refuter.AccessPath

namespace Refuter.Smt.Solver

/-! ## 4. The context -/

/-- So far paths and markers were declared, and are known to be. -/
structure Named (s : Solver) : Prop where
  declared : ∀ name, name ∈ s.declared ↔ .declareInt name ∈ s.calls ∨ .declareBool name ∈ s.calls
  ints : ∀ name, .declareInt name ∈ s.calls → ∃ v : AccessPath, name = v.symbol
  bools : ∀ name, .declareBool name ∈ s.calls → ∃ k ≤ s.markers, name = markerName k

/-- The backend is ideal, and so far paths and markers were declared, each once. -/
structure Sound (s : Solver) : Prop extends Named s where
  ideal : s.backend.Ideal
  wellFormed : WellFormed s.calls

/-- The context after a call that the backend took. -/
def after (s : Solver) (call : Call) : Solver :=
  { s with calls := call :: s.calls,
           transcript := s.transcript.map (· ++ call.command ++ "\n") }

theorem send_of_ok {s : Solver} {call : Call} {answer : Answer}
    (h : s.backend (call :: s.calls) = .ok answer) : send call s = .ok answer (s.after call) := by
  show (send call).run s = _
  simp only [send, record, EStateM.run_bind, EStateM.run_modify, EStateM.run_get, h]
  rfl

theorem declare_of_mem {s : Solver} {name : String} {call : Call} (h : name ∈ s.declared) :
    declare name call s = .ok () s := by
  show (if name ∈ s.declared then (pure () : SolverM Unit) else _) s = _
  rw [if_pos h]
  rfl

theorem declare_of_not_mem {s : Solver} {name : String} {call : Call} {answer : Answer}
    (h : name ∉ s.declared) (hok : s.backend (call :: s.calls) = .ok answer) :
    declare name call s = .ok () ({ s with declared := name :: s.declared }.after call) := by
  have hsend : send call { s with declared := name :: s.declared } = .ok answer _ := send_of_ok hok
  show (if name ∈ s.declared then (pure () : SolverM Unit) else _) s = _
  rw [if_neg h]
  show EStateM.bind (send call) _ { s with declared := name :: s.declared } = _
  unfold EStateM.bind
  rw [hsend]
  rfl

namespace Named

variable {s : Solver}

/-- Before the first check nothing is declared. -/
theorem of_fresh (hcalls : s.calls = []) (hdeclared : s.declared = []) : s.Named := by
  refine ⟨fun name => ?_, fun name h => ?_, fun name h => ?_⟩
  · rw [hcalls, hdeclared]
    simp
  · rw [hcalls] at h
    cases h
  · rw [hcalls] at h
    cases h

/-- A path that is not declared can be: no declared name is the same symbol. -/
theorem isNew_symbol (hs : s.Named) {v : AccessPath} (h : v.symbol ∉ s.declared) :
    IsNew v.symbol s.calls := by
  intro call hcall other hother heq
  cases call with
  | declareInt name =>
    cases hother
    obtain ⟨w, rfl⟩ := hs.ints other hcall
    rw [← AccessPath.symbol_eq_of_plainName_eq heq] at h
    exact h ((hs.declared _).2 (.inl hcall))
  | declareBool name =>
    cases hother
    obtain ⟨k, -, rfl⟩ := hs.bools other hcall
    rw [plainName_markerName] at heq
    exact v.plainName_symbol_ne_markerName k heq.symm
  | assert | check => cases hother

/-- A path that is declared was declared as an integer. -/
theorem declareInt_mem (hs : s.Named) {v : AccessPath} (h : v.symbol ∈ s.declared) :
    .declareInt v.symbol ∈ s.calls := by
  refine ((hs.declared _).1 h).resolve_right fun hbool => ?_
  obtain ⟨k, -, hk⟩ := hs.bools _ hbool
  apply v.plainName_symbol_ne_markerName k
  rw [hk, plainName_markerName]

/-- The next marker has not been used. -/
theorem isNew_markerName (hs : s.Named) {k : Nat} (hk : s.markers < k) :
    IsNew (markerName k) s.calls := by
  intro call hcall other hother heq
  rw [plainName_markerName] at heq
  cases call with
  | declareInt name =>
    cases hother
    obtain ⟨w, rfl⟩ := hs.ints other hcall
    exact w.plainName_symbol_ne_markerName k heq
  | declareBool name =>
    cases hother
    obtain ⟨j, hj, rfl⟩ := hs.bools other hcall
    rw [plainName_markerName] at heq
    have hjk : j = k := markerName_injective heq
    omega
  | assert | check => cases hother

theorem markerName_not_mem (hs : s.Named) {k : Nat} (hk : s.markers < k) :
    markerName k ∉ s.declared := by
  intro hmem
  have hnew := hs.isNew_markerName hk
  obtain h | h := (hs.declared _).1 hmem
  · exact hnew _ h _ rfl rfl
  · exact hnew _ h _ rfl rfl

/-- Numbers of markers may be left out. -/
theorem nextMarker (hs : s.Named) : { s with markers := s.markers + 1 }.Named := by
  refine ⟨hs.declared, hs.ints, fun name h => ?_⟩
  obtain ⟨k, hk, hname⟩ := hs.bools name h
  exact ⟨k, Nat.le_succ_of_le hk, hname⟩

/-- Names of one sort are declared alike; `hint` and `hbool` say what the name may be. -/
theorem declare (hs : s.Named) {name : String} {call : Call} (hname : call.declares? = some name)
    (hint : call = .declareInt name → ∃ v : AccessPath, name = v.symbol)
    (hbool : call = .declareBool name → ∃ k ≤ s.markers, name = markerName k) :
    ({ s with declared := name :: s.declared }.after call).Named := by
  refine ⟨fun other => ?_, fun other h => ?_, fun other h => ?_⟩
  · show other ∈ name :: s.declared ↔ _ ∈ call :: s.calls ∨ _ ∈ call :: s.calls
    have hother := hs.declared other
    cases call with
    | declareInt n | declareBool n =>
      cases hname
      grind
    | assert | check => cases hname
  · obtain heq | h := List.mem_cons.1 h
    · rw [← heq] at hname
      cases hname
      exact hint heq.symm
    · exact hs.ints other h
  · obtain heq | h := List.mem_cons.1 h
    · rw [← heq] at hname
      cases hname
      exact hbool heq.symm
    · exact hs.bools other h

/-- A call that declares nothing. -/
theorem after (hs : s.Named) {call : Call} (hname : call.declares? = none) :
    (s.after call).Named := by
  have hmem : ∀ c : Call, c.declares? ≠ none → (c ∈ call :: s.calls ↔ c ∈ s.calls) := by
    intro c hc
    refine ⟨fun h => ?_, List.mem_cons_of_mem _⟩
    obtain rfl | h := List.mem_cons.1 h
    · exact absurd hname hc
    · exact h
  refine ⟨fun name => ?_, fun name h => ?_, fun name h => ?_⟩
  · show name ∈ s.declared ↔ _ ∈ call :: s.calls ∨ _ ∈ call :: s.calls
    rw [hmem _ (by simp [Call.declares?]), hmem _ (by simp [Call.declares?])]
    exact hs.declared name
  · exact hs.ints name ((hmem _ (by simp [Call.declares?])).1 h)
  · exact hs.bools name ((hmem _ (by simp [Call.declares?])).1 h)

end Named

namespace Sound

variable {s : Solver}

/-- Before the first check nothing is declared. -/
theorem of_fresh (hideal : s.backend.Ideal) (hcalls : s.calls = []) (hdeclared : s.declared = []) :
    s.Sound :=
  ⟨.of_fresh hcalls hdeclared, hideal, hcalls ▸ .nil⟩

/-- A call that declares nothing. -/
theorem after (hs : s.Sound) {call : Call} (hname : call.declares? = none)
    (hwf : WellFormed (call :: s.calls)) : (s.after call).Sound :=
  ⟨hs.toNamed.after hname, hs.ideal, hwf⟩

end Sound

/-- Paths are declared; those that are already stay so. -/
theorem declareInts_declares {s : Solver} {names : List String} (hs : s.Sound)
    (hnames : ∀ name ∈ names, ∃ v : AccessPath, name = v.symbol) :
    ∃ s', declareInts names s = .ok () s' ∧ s'.Sound ∧ s.calls ⊆ s'.calls ∧
      ∀ name ∈ names, .declareInt name ∈ s'.calls := by
  induction names generalizing s with
  | nil => exact ⟨s, rfl, hs, List.Subset.refl _, fun name h => by cases h⟩
  | cons name rest ih =>
    obtain ⟨v, rfl⟩ := hnames name List.mem_cons_self
    have hrest : ∀ name ∈ rest, ∃ v : AccessPath, name = v.symbol := fun name h =>
      hnames name (List.mem_cons_of_mem _ h)
    -- the first name, declared before or now
    obtain ⟨s', hdeclare, hs', hsub, hint⟩ : ∃ s',
        declare v.symbol (.declareInt v.symbol) s = .ok () s' ∧ s'.Sound ∧
        s.calls ⊆ s'.calls ∧ .declareInt v.symbol ∈ s'.calls := by
      by_cases hmem : v.symbol ∈ s.declared
      · exact ⟨s, declare_of_mem hmem, hs, List.Subset.refl _, hs.declareInt_mem hmem⟩
      · have hwf : WellFormed (.declareInt v.symbol :: s.calls) :=
          .declareInt (hs.isNew_symbol hmem) hs.wellFormed
        obtain ⟨answer, hok⟩ := hs.ideal.accepts hwf
        refine ⟨_, declare_of_not_mem hmem hok, ?_, List.subset_cons_self _ _, List.mem_cons_self⟩
        exact ⟨hs.declare rfl (fun _ => ⟨v, rfl⟩) (fun h => by cases h), hs.ideal, hwf⟩
    obtain ⟨t, ht, hst, hsubt, hints⟩ := ih hs' hrest
    refine ⟨t, ?_, hst, fun c hc => hsubt (hsub hc), fun name hname => ?_⟩
    · show EStateM.bind (declare _ _) (fun _ => declareInts rest) s = _
      unfold EStateM.bind
      rw [hdeclare]
      exact ht
    · obtain rfl | hname := List.mem_cons.1 hname
      · exact hsubt hint
      · exact hints name hname

/-- A new marker can be declared. -/
theorem declare_marker {s : Solver} (hs : s.Sound) :
    ∃ s', declare (markerName (s.markers + 1)) (.declareBool (markerName (s.markers + 1)))
        { s with markers := s.markers + 1 } = .ok () s' ∧
      s'.Sound ∧ s'.calls = .declareBool (markerName (s.markers + 1)) :: s.calls := by
  let s₁ : Solver := { s with markers := s.markers + 1 }
  have hs₁ : s₁.Named := hs.nextMarker
  have hundeclared : markerName (s.markers + 1) ∉ s₁.declared :=
    hs.markerName_not_mem (Nat.lt_succ_self _)
  have hwf : WellFormed (.declareBool (markerName (s.markers + 1)) :: s₁.calls) :=
    .declareBool (hs.isNew_markerName (Nat.lt_succ_self _)) hs.wellFormed
  obtain ⟨answer, hok⟩ := hs.ideal.accepts hwf
  refine ⟨_, declare_of_not_mem hundeclared hok, ⟨?_, hs.ideal, hwf⟩, rfl⟩
  exact hs₁.declare rfl (fun h => by cases h) fun _ => ⟨s₁.markers, Nat.le_refl _, rfl⟩

/-- A check decides its own formula, whatever was checked before. -/
theorem check_decides {s : Solver} {parts : List Comparison} {names : List String} (hs : s.Sound)
    (hnames : ∀ name ∈ names, ∃ v : AccessPath, name = v.symbol)
    (hparts : ∀ c ∈ parts, ∀ name ∈ c.names, name ∈ names) :
    ∃ answer s', check (.all parts) names s = .ok answer s' ∧ s'.Sound ∧
      (answer = .sat ∧ (Formula.all parts).Satisfiable ∨
        answer = .unsat ∧ ¬ (Formula.all parts).Satisfiable) := by
  obtain ⟨s₁, hdeclare, hs₁, -, hints⟩ := declareInts_declares hs hnames
  let marker := markerName (s₁.markers + 1)
  obtain ⟨s₂, hmarker, hs₂, hcalls⟩ := declare_marker hs₁
  have hdeclared : .declareBool marker ∈ s₂.calls := hcalls ▸ List.mem_cons_self
  -- the assertion
  have hwf : WellFormed (.assert marker (.all parts) :: s₂.calls) := by
    refine .assert hdeclared (fun c hc name hname => ?_) hs₂.wellFormed
    rw [hcalls]
    exact List.mem_cons_of_mem _ (hints name (hparts c hc name hname))
  obtain ⟨answer, hok⟩ := hs₂.ideal.accepts hwf
  let s₃ : Solver := s₂.after (.assert marker (.all parts))
  have hs₃ : s₃.Sound := hs₂.after rfl hwf
  -- the check itself: no older assertion has the marker
  have hwf' : WellFormed (.check marker :: s₃.calls) :=
    .check (List.mem_cons_of_mem _ hdeclared) hs₃.wellFormed
  have hs₄ : (s₃.after (.check marker)).Sound := hs₃.after rfl hwf'
  have hold : ∀ other F, .assert other F ∈ s₂.calls → plainName other ≠ plainName marker := by
    intro other F hmem
    rw [hcalls] at hmem
    obtain hmem | hmem := List.mem_cons.1 hmem
    · cases hmem
    · exact hs₁.isNew_markerName (Nat.lt_succ_self _) _ (hs₁.wellFormed.marker_declared hmem)
        other rfl
  have hrun : ∀ answer, s₃.backend (.check marker :: s₃.calls) = .ok answer →
      ∃ s', check (.all parts) names s = .ok answer s' ∧ s'.Sound := by
    intro answer hok'
    refine ⟨{ s₃.after (.check marker) with
      transcript := (s₃.after (.check marker)).transcript.map
        (· ++ ("; " ++ answer.text) ++ "\n") },
      ?_, ⟨⟨hs₄.declared, hs₄.ints, hs₄.bools⟩, hs₄.ideal, hs₄.wellFormed⟩⟩
    show EStateM.bind (declareInts names) _ s = _
    unfold EStateM.bind
    rw [hdeclare]
    show EStateM.bind (declare marker (.declareBool marker)) _ { s₁ with markers := _ } = _
    unfold EStateM.bind
    rw [hmarker]
    show EStateM.bind (send (.assert marker (.all parts))) _ s₂ = _
    unfold EStateM.bind
    rw [send_of_ok hok]
    show EStateM.bind (send (.check marker)) _ s₃ = _
    unfold EStateM.bind
    rw [send_of_ok hok']
    rfl
  by_cases hsat : (Formula.all parts).Satisfiable
  · obtain ⟨s', hcheck, hsound⟩ :=
      hrun .sat (hs₃.ideal.sat hwf' ((exists_satisfies_iff hold).2 hsat))
    exact ⟨.sat, s', hcheck, hsound, .inl ⟨rfl, hsat⟩⟩
  · obtain ⟨s', hcheck, hsound⟩ :=
      hrun .unsat (hs₃.ideal.unsat hwf' fun h => hsat ((exists_satisfies_iff hold).1 h))
    exact ⟨.unsat, s', hcheck, hsound, .inr ⟨rfl, hsat⟩⟩

end Refuter.Smt.Solver
