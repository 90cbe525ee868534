import Refuter.StoreM

/-!
# Runs of operations on a store

`StoreM.Ends x f Q` says that `x`, started in the frame `f`, does not halt and that its result and
final frame satisfy `Q`. Every operation has a rule in this form, so a run is followed one step at
a time and what an operation reports on the way plays no part.
-/

namespace Refuter

variable {σ τ α β : Type}

/-! ## 1. Fresh numbers and sequences -/

theorem Fresh.bind_apply (x : Fresh α) (k : α → Fresh β) (n : Nat) :
    (x >>= k) n = k (x n).1 (x n).2 := rfl

theorem Fresh.pure_apply (a : α) (n : Nat) : (pure a : Fresh α) n = (a, n) := rfl

theorem bind_of_ok {ε ω : Type} {x : EStateM ε ω α} {k : α → EStateM ε ω β} {s s' : ω} {a : α}
    (h : x s = .ok a s') : (x >>= k) s = k a s' := by
  show EStateM.bind x k s = _
  unfold EStateM.bind
  rw [h]

theorem bind_of_error {ε ω : Type} {x : EStateM ε ω α} {k : α → EStateM ε ω β} {s s' : ω} {e : ε}
    (h : x s = .error e s') : (x >>= k) s = .error e s' := by
  show EStateM.bind x k s = _
  unfold EStateM.bind
  rw [h]

/-! ## 2. Frames -/

namespace Frame

/-- The frame after one more record in the journal. -/
def note (f : Frame σ) (r : Record) : Frame σ :=
  { f with session := { f.session with journal := r :: f.session.journal } }

/-- The frame after the supply of numbers went on to `n`. -/
def supply (f : Frame σ) (n : Nat) : Frame σ := { f with session := { f.session with nextId := n } }

@[simp] theorem supply_store (f : Frame σ) (n : Nat) : (f.supply n).store = f.store := rfl

end Frame

namespace StoreM

/-- The operation does not halt, and its result and final frame satisfy `Q`. -/
def Ends (x : StoreM σ α) (f : Frame σ) (Q : α → Frame σ → Prop) : Prop :=
  ∃ a g, x f = .ok a g ∧ Q a g

/-! ## 3. Rules -/

variable {f : Frame σ}

theorem Ends.mono {x : StoreM σ α} {Q Q' : α → Frame σ → Prop} (h : Ends x f Q)
    (hQ : ∀ a g, Q a g → Q' a g) : Ends x f Q' := by
  obtain ⟨a, g, hx, hq⟩ := h
  exact ⟨a, g, hx, hQ a g hq⟩

/-- An operation with a known outcome ends as that outcome says. -/
theorem ends_iff_of_eq {x : StoreM σ α} {a : α} {g : Frame σ} {Q : α → Frame σ → Prop}
    (h : x f = .ok a g) : Ends x f Q ↔ Q a g := by
  constructor
  · rintro ⟨b, g', hx, hQ⟩
    rw [h] at hx
    cases hx
    exact hQ
  · exact fun hQ => ⟨a, g, h, hQ⟩

@[simp] theorem ends_pure {a : α} {Q : α → Frame σ → Prop} : Ends (pure a) f Q ↔ Q a f :=
  ends_iff_of_eq rfl

@[simp] theorem ends_bind {x : StoreM σ α} {k : α → StoreM σ β} {Q : β → Frame σ → Prop} :
    Ends (x >>= k) f Q ↔ Ends x f fun a g => Ends (k a) g Q := by
  constructor
  · rintro ⟨b, g, h, hQ⟩
    change EStateM.bind x k f = .ok b g at h
    unfold EStateM.bind at h
    split at h
    · rename_i a g' hx
      exact ⟨a, g', hx, b, g, h, hQ⟩
    · cases h
  · rintro ⟨a, g', hx, b, g, h, hQ⟩
    refine ⟨b, g, ?_, hQ⟩
    change EStateM.bind x k f = .ok b g
    unfold EStateM.bind
    rw [hx]
    exact h

@[simp] theorem ends_store {Q : σ → Frame σ → Prop} : Ends store f Q ↔ Q f.store f :=
  ends_iff_of_eq rfl

@[simp] theorem ends_options {Q : Options → Frame σ → Prop} :
    Ends options f Q ↔ Q f.session.options f :=
  ends_iff_of_eq rfl

@[simp] theorem ends_modifyStore {m : σ → σ} {Q : Unit → Frame σ → Prop} :
    Ends (modifyStore m) f Q ↔ Q () { f with store := m f.store } :=
  ends_iff_of_eq rfl

@[simp] theorem ends_setStore {s : σ} {Q : Unit → Frame σ → Prop} :
    Ends (setStore s) f Q ↔ Q () { f with store := s } :=
  ends_iff_of_eq rfl

@[simp] theorem ends_fresh {x : Fresh α} {Q : α → Frame σ → Prop} :
    Ends (fresh x) f Q ↔ Q (x f.session.nextId).1 (f.supply (x f.session.nextId).2) :=
  ends_iff_of_eq rfl

@[simp] theorem ends_debug {topic : Topic} {text : String} {Q : Unit → Frame σ → Prop} :
    Ends (debug topic text) f Q ↔ Q () (f.note ⟨.debug, topic, text⟩) :=
  ends_iff_of_eq rfl

@[simp] theorem ends_onPart {part : σ → τ} {put : τ → σ → σ} {x : StoreM τ α}
    {Q : α → Frame σ → Prop} :
    Ends (onPart part put x) f Q ↔
      Ends x ⟨part f.store, f.session⟩ fun a g => Q a ⟨put g.store f.store, g.session⟩ := by
  constructor
  · rintro ⟨a, g, h, hQ⟩
    unfold onPart at h
    split at h
    · rename_i hx
      cases h
      exact ⟨_, _, hx, hQ⟩
    · cases h
  · rintro ⟨a, g, h, hQ⟩
    refine ⟨a, ⟨put g.store f.store, g.session⟩, ?_, hQ⟩
    unfold onPart
    rw [h]

/-- `Ends` for a run that can be evaluated. -/
def endsWith (x : StoreM σ α) (f : Frame σ) (test : α → Frame σ → Bool) : Bool :=
  match x f with
  | .ok a g => test a g
  | .error _ _ => false

theorem ends_of_endsWith {x : StoreM σ α} {test : α → Frame σ → Bool}
    (h : endsWith x f test = true) : Ends x f fun a g => test a g = true := by
  unfold endsWith at h
  split at h
  · exact ⟨_, _, by assumption, h⟩
  · cases h

/-! ## 4. Refutations -/

/-- The operation halts with the refutation `r`. -/
def Refutes (x : StoreM σ α) (f : Frame σ) (r : Refutation) : Prop :=
  ∃ g, x f = .error (.refuted r) g

theorem Refutes.not_ends {x : StoreM σ α} {r : Refutation} {Q : α → Frame σ → Prop}
    (h : Refutes x f r) : ¬ Ends x f Q := by
  rintro ⟨a, g, hok, -⟩
  obtain ⟨g', herror⟩ := h
  rw [hok] at herror
  cases herror

theorem Refutes.bind {x : StoreM σ α} {k : α → StoreM σ β} {r : Refutation} (h : Refutes x f r) :
    Refutes (x >>= k) f r := by
  obtain ⟨g, h⟩ := h
  refine ⟨g, ?_⟩
  change EStateM.bind x k f = _
  unfold EStateM.bind
  rw [h]

/-- A refutation after a first part that ends. -/
theorem Ends.refutes {x : StoreM σ α} {k : α → StoreM σ β} {r : Refutation}
    (h : Ends x f fun a g => Refutes (k a) g r) : Refutes (x >>= k) f r := by
  obtain ⟨a, g, hx, g', hk⟩ := h
  refine ⟨g', ?_⟩
  change EStateM.bind x k f = _
  unfold EStateM.bind
  rw [hx]
  exact hk

/-! ## 5. Outcomes of both kinds -/

/-- A result and the final frame satisfy `Q`, a halt and what it leaves satisfy `H`. -/
def Results (x : StoreM σ α) (f : Frame σ) (Q : α → Frame σ → Prop) (H : Halt → Frame σ → Prop) :
    Prop :=
  match x f with
  | .ok a g => Q a g
  | .error e g => H e g

section

variable {Q : α → Frame σ → Prop} {H : Halt → Frame σ → Prop}

theorem Results.mono {x : StoreM σ α} {Q' : α → Frame σ → Prop} {H' : Halt → Frame σ → Prop}
    (h : Results x f Q H) (hQ : ∀ a g, Q a g → Q' a g) (hH : ∀ e g, H e g → H' e g) :
    Results x f Q' H' := by
  unfold Results at h ⊢
  split at h
  · exact hQ _ _ h
  · exact hH _ _ h

theorem Results.and {x : StoreM σ α} {Q' : α → Frame σ → Prop} {H' : Halt → Frame σ → Prop}
    (h : Results x f Q H) (h' : Results x f Q' H') :
    Results x f (fun a g => Q a g ∧ Q' a g) fun e g => H e g ∧ H' e g := by
  unfold Results at h h' ⊢
  cases hx : x f with
  | ok a g =>
    rw [hx] at h h'
    exact ⟨h, h'⟩
  | error e g =>
    rw [hx] at h h'
    exact ⟨h, h'⟩

theorem Results.of_ok {x : StoreM σ α} {a : α} {g : Frame σ} (h : Results x f Q H)
    (hx : x f = .ok a g) : Q a g := by
  unfold Results at h
  rw [hx] at h
  exact h

/-- An operation that cannot halt ends. -/
theorem Results.ends {x : StoreM σ α} (h : Results x f Q fun _ _ => False) : Ends x f Q := by
  unfold Results at h
  split at h
  · rename_i a g hx
    exact ⟨a, g, hx, h⟩
  · exact h.elim

/-- What holds of any result holds of the one that is known to come. -/
theorem Ends.and_results {x : StoreM σ α} {Q' : α → Frame σ → Prop} (h : Ends x f Q')
    (h' : Results x f Q H) : Ends x f fun a g => Q' a g ∧ Q a g := by
  obtain ⟨a, g, hx, hQ'⟩ := h
  exact ⟨a, g, hx, hQ', h'.of_ok hx⟩

theorem Results.of_error {x : StoreM σ α} {e : Halt} {g : Frame σ} (h : Results x f Q H)
    (hx : x f = .error e g) : H e g := by
  unfold Results at h
  rw [hx] at h
  exact h

@[simp] theorem results_pure {a : α} : Results (pure a) f Q H ↔ Q a f := Iff.rfl

@[simp] theorem results_bind {x : StoreM σ β} {k : β → StoreM σ α} :
    Results (x >>= k) f Q H ↔ Results x f (fun b g => Results (k b) g Q H) H := by
  change (match EStateM.bind x k f with
    | .ok a g => Q a g
    | .error e g => H e g) ↔ _
  unfold EStateM.bind Results
  cases x f <;> exact Iff.rfl

@[simp] theorem results_store {Q : σ → Frame σ → Prop} : Results store f Q H ↔ Q f.store f :=
  Iff.rfl

@[simp] theorem results_options {Q : Options → Frame σ → Prop} :
    Results options f Q H ↔ Q f.session.options f :=
  Iff.rfl

@[simp] theorem results_modifyStore {m : σ → σ} {Q : Unit → Frame σ → Prop} :
    Results (modifyStore m) f Q H ↔ Q () { f with store := m f.store } :=
  Iff.rfl

@[simp] theorem results_session {x : SessionM α} :
    Results (session x) f Q H ↔ Q (x f.session).1 { f with session := (x f.session).2 } :=
  Iff.rfl

@[simp] theorem results_fresh {x : Fresh α} :
    Results (fresh x) f Q H ↔ Q (x f.session.nextId).1 (f.supply (x f.session.nextId).2) :=
  Iff.rfl

@[simp] theorem results_debug {topic : Topic} {text : String} {Q : Unit → Frame σ → Prop} :
    Results (debug topic text) f Q H ↔ Q () (f.note ⟨.debug, topic, text⟩) :=
  Iff.rfl

@[simp] theorem results_throw {e : Halt} : Results (throw e) f Q H ↔ H e f := Iff.rfl

@[simp] theorem results_halt {r : Refutation} : Results (halt r) f Q H ↔ H (.refuted r) f := Iff.rfl

@[simp] theorem results_onPart {part : σ → τ} {put : τ → σ → σ} {x : StoreM τ α} :
    Results (onPart part put x) f Q H ↔ Results x ⟨part f.store, f.session⟩
      (fun a g => Q a ⟨put g.store f.store, g.session⟩)
      fun e g => H e ⟨put g.store f.store, g.session⟩ := by
  unfold Results onPart
  cases x ⟨part f.store, f.session⟩ <;> exact Iff.rfl

/-- What a refutation leaves may be marked. -/
theorem Results.onRefuted {x : StoreM σ α} {mark : σ → σ}
    (h : Results x f Q fun e g => H e g ∧ H e { g with store := mark g.store }) :
    Results (onRefuted mark x) f Q H := by
  unfold Results at h ⊢
  unfold StoreM.onRefuted
  split at h
  · rename_i heq
    rw [heq]
    exact h
  · rename_i e g heq
    rw [heq]
    cases e with
    | refuted r => exact h.2
    | fault b => exact h.1

/-- Only a fault is passed on. -/
theorem Results.succeeds {x : StoreM σ α} {Q : Bool → Frame σ → Prop}
    (h : Results x f (fun _ g => Q true g) fun e g =>
      (∀ r, e = .refuted r → Q false g) ∧ ∀ b, e = .fault b → H e g) :
    Results (succeeds x) f Q H := by
  unfold Results at h ⊢
  unfold StoreM.succeeds
  split at h
  · rename_i heq
    rw [heq]
    exact h
  · rename_i e g heq
    rw [heq]
    cases e with
    | refuted r => exact h.1 r rfl
    | fault b => exact h.2 b rfl

/-- A run on another store of the session gives back how it ended, unless in a fault. -/
theorem results_attempt {x : StoreM τ β} {s : τ} {Q : Except Refutation (β × τ) → Frame σ → Prop}
    (hok : ∀ b g, x ⟨s, f.session⟩ = .ok b g →
      Q (.ok (b, g.store)) { f with session := g.session })
    (hrefuted : ∀ r g, x ⟨s, f.session⟩ = .error (.refuted r) g →
      Q (.error r) { f with session := g.session })
    (hfault : ∀ e g, x ⟨s, f.session⟩ = .error (.fault e) g →
      H (.fault e) { f with session := g.session }) : Results (attempt x s) f Q H := by
  unfold Results attempt
  cases hrun : x ⟨s, f.session⟩ with
  | ok b g => exact hok b g hrun
  | error e g =>
    cases e with
    | refuted r => exact hrefuted r g hrun
    | fault e => exact hfault e g hrun

/-- What every branch leaves, all survivors have. -/
theorem results_attemptAll_live {branches : List (StoreM τ β × τ)} {cases : Survivors τ}
    {P : τ → Prop}
    (hbranches : ∀ b ∈ branches, ∀ session,
      Results b.1 ⟨b.2, session⟩ (fun _ g => P g.store) fun _ _ => True)
    (hlive : ∀ t ∈ cases.live, P t) :
    Results (attemptAll branches cases) f (fun cases g => g.store = f.store ∧
      ∀ t ∈ cases.live, P t) fun _ _ => True := by
  induction branches generalizing f cases with
  | nil => exact ⟨rfl, hlive⟩
  | cons b rest ih =>
    have hrest := fun b' hb' => hbranches b' (List.mem_cons_of_mem b hb')
    unfold attemptAll
    rw [results_bind]
    refine results_attempt (fun a g hrun => ?_) (fun r g _ => ?_) fun _ _ _ => trivial
    · refine Results.mono (ih hrest fun t ht => ?_) (fun _ _ h => h) fun _ _ h => h
      obtain ht | ht := List.mem_append.1 ht
      · exact hlive t ht
      · rw [List.mem_singleton.1 ht]
        exact (hbranches b List.mem_cons_self f.session).of_ok hrun
    · exact Results.mono (ih hrest hlive) (fun _ _ h => h) fun _ _ h => h

/-- What the survivors have together, the store has with the cases that are returned. -/
theorem results_commit {refute : Refutation → StoreM σ (List σ)} {cases : Survivors σ}
    {R : List σ → Prop} (hrefute : ∀ r, Results (refute r) f (fun _ _ => False) H)
    (hlive : R cases.live) :
    Results (commit refute cases) f (fun rest g => R (g.store :: rest)) H := by
  unfold commit
  split
  · rename_i first rest heq
    rw [heq] at hlive
    exact hlive
  · exact (hrefute _).mono (fun _ _ h => h.elim) fun _ _ h => h

/-- A survivor is the store or one of the cases that are returned. -/
theorem ends_commit {refute : Refutation → StoreM σ (List σ)} {cases : Survivors σ}
    {P : σ → Prop} (h : ∃ t ∈ cases.live, P t) :
    Ends (commit refute cases) f fun rest g => ∃ t ∈ g.store :: rest, P t := by
  obtain ⟨t, ht, hP⟩ := h
  unfold commit
  cases hl : cases.live with
  | nil =>
    rw [hl] at ht
    cases ht
  | cons first rest =>
    simp only [ends_bind, ends_setStore, ends_pure]
    rw [hl] at ht
    exact ⟨t, ht, hP⟩

theorem results_of_ok {x : StoreM σ α} (h : ∀ a g, x f = .ok a g → Q a g) :
    Results x f Q fun _ _ => True := by
  unfold Results
  split
  · rename_i hx
    exact h _ _ hx
  · trivial

theorem results_of_forall {x : StoreM σ α} (hQ : ∀ a g, Q a g) (hH : ∀ e g, H e g) :
    Results x f Q H := by
  unfold Results
  split
  · exact hQ _ _
  · exact hH _ _

end

/-! ## 6. Operations without faults -/

/-- The halt is no fault. -/
def IsRefutation (e : Halt) : Prop := ∃ r, e = .refuted r

/-- The operation never ends in a fault; it may refute. -/
def Safe (x : StoreM σ α) : Prop := ∀ f b g, x f ≠ .error (.fault b) g

theorem safe_of_ok {x : StoreM σ α} (h : ∀ f, ∃ a g, x f = .ok a g) : Safe x := by
  intro f b g hx
  obtain ⟨a, g', ha⟩ := h f
  rw [ha] at hx
  cases hx

theorem safe_pure {a : α} : Safe (pure a : StoreM σ α) := safe_of_ok fun f => ⟨a, f, rfl⟩

theorem safe_store : Safe (store : StoreM σ σ) := safe_of_ok fun f => ⟨f.store, f, rfl⟩

theorem safe_options : Safe (options : StoreM σ Options) :=
  safe_of_ok fun f => ⟨f.session.options, f, rfl⟩

theorem safe_modifyStore {m : σ → σ} : Safe (modifyStore m) := safe_of_ok fun _ => ⟨(), _, rfl⟩

theorem safe_session {x : SessionM α} : Safe (session x : StoreM σ α) :=
  safe_of_ok fun _ => ⟨_, _, rfl⟩

theorem safe_halt {r : Refutation} : Safe (halt r : StoreM σ α) := by
  intro f b g hx
  cases hx

theorem Safe.bind {x : StoreM σ α} {k : α → StoreM σ β} (hx : Safe x) (hk : ∀ a, Safe (k a)) :
    Safe (x >>= k) := by
  intro f b g h
  change EStateM.bind x k f = _ at h
  unfold EStateM.bind at h
  split at h
  · exact hk _ _ _ _ h
  · rename_i e g' he
    cases h
    exact hx f b g he

/-- A safe operation on another store leaves this one alone. -/
theorem Safe.attempt {x : StoreM τ α} {s : τ} (hx : Safe x) :
    Ends (StoreM.attempt x s) f fun _ g => g.store = f.store := by
  unfold Ends StoreM.attempt
  split
  · exact ⟨_, _, rfl, rfl⟩
  · exact ⟨_, _, rfl, rfl⟩
  · rename_i b g he
    exact absurd he (hx _ b g)

/-- An operation on another store that ends well is among the outcomes. -/
theorem ends_attempt {x : StoreM τ α} {s : τ} {Q : α → Frame τ → Prop}
    (hx : Ends x ⟨s, f.session⟩ Q) :
    Ends (attempt x s) f fun outcome g =>
      ∃ a g', outcome = .ok (a, g'.store) ∧ g'.session = g.session ∧ Q a g' := by
  obtain ⟨a, g', hok, hQ⟩ := hx
  refine ⟨.ok (a, g'.store), { f with session := g'.session }, ?_, a, g', rfl, rfl, hQ⟩
  unfold attempt
  rw [hok]

end StoreM

end Refuter
