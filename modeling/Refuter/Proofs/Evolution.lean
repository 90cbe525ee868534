import Refuter.Proofs.Run
import Mathlib.Order.Monotone.Defs

/-!
# Invariants that grow with the session

What is known of a store often refers to the session: its numbers were handed out before, and a
number stands for the same thing in every store. Such knowledge is kept in a world, which only
grows. `StoreM.Evolves J P E w x Q` says that `x`, started where session and store agree with the
world `w`, ends in a later world with which they agree again, whether it succeeds or halts.
-/

namespace Refuter

/-- Nothing but the journal differs. -/
def Session.Notes (s s' : Session) : Prop := ∃ journal, s' = { s with journal := journal }

/-- The only world of an invariant that does not refer to the session. -/
inductive Timeless where
  | world

instance : Preorder Timeless where
  le _ _ := True
  le_refl _ := trivial
  le_trans _ _ _ _ _ := trivial

namespace StoreM

variable {W σ τ α β : Type} [Preorder W] {w : W} {J : W → Session → Prop} {P : W → σ → Prop}
  {P' : W → τ → Prop} {E E' : Halt → Prop}

/-- However the operation ends, session and store agree with a later world; a result has `Q` in
that world and a halt has `E`. -/
def Evolves (J : W → Session → Prop) (P : W → σ → Prop) (E : Halt → Prop) (w : W)
    (x : StoreM σ α) (Q : W → α → Prop) : Prop :=
  ∀ f : Frame σ, J w f.session → P w f.store →
    Results x f (fun a g => ∃ w', w ≤ w' ∧ J w' g.session ∧ P w' g.store ∧ Q w' a)
      fun e g => ∃ w', w ≤ w' ∧ J w' g.session ∧ P w' g.store ∧ E e

/-- The same of a run on the store `s`. What it gives may be compared with the store it leaves. -/
def EvolvesOn (J : W → Session → Prop) (P : W → σ → Prop) (E : Halt → Prop) (w : W) (s : σ)
    (x : StoreM σ α) (Q : W → α → σ → Prop) : Prop :=
  ∀ session : Session, J w session →
    Results x ⟨s, session⟩
      (fun a g => ∃ w', w ≤ w' ∧ J w' g.session ∧ P w' g.store ∧ Q w' a g.store)
      fun e g => ∃ w', w ≤ w' ∧ J w' g.session ∧ P w' g.store ∧ E e

/-- The same of a computation that only takes numbers. -/
def Draws (J : W → Session → Prop) (w : W) (x : Fresh α) (Q : W → α → Prop) : Prop :=
  ∀ s : Session, J w s →
    ∃ w', w ≤ w' ∧ J w' { s with nextId := (x s.nextId).2 } ∧ Q w' (x s.nextId).1

/-! ## 1. Rules -/

/-- A run that begins in a later world. -/
theorem EvolvesOn.later {w' : W} {x : StoreM σ α} {s : σ} {session : Session}
    {Q : W → α → σ → Prop} (hx : EvolvesOn J P E w' s x Q) (hw : w ≤ w') (hJ : J w' session) :
    Results x ⟨s, session⟩
      (fun a g => ∃ w', w ≤ w' ∧ J w' g.session ∧ P w' g.store ∧ Q w' a g.store)
      fun e g => ∃ w', w ≤ w' ∧ J w' g.session ∧ P w' g.store ∧ E e := by
  refine (hx session hJ).mono (fun a g h => ?_) fun e g h => ?_
  · obtain ⟨w'', hw', h⟩ := h
    exact ⟨w'', le_trans hw hw', h⟩
  · obtain ⟨w'', hw', h⟩ := h
    exact ⟨w'', le_trans hw hw', h⟩

theorem Evolves.on {x : StoreM σ α} {Q : W → α → Prop} {s : σ} (hx : Evolves J P E w x Q)
    (hs : P w s) : EvolvesOn J P E w s x fun w' a _ => Q w' a :=
  fun session hJ => hx ⟨s, session⟩ hJ hs

theorem evolves_of_on {x : StoreM σ α} {Q : W → α → Prop}
    (h : ∀ s, P w s → EvolvesOn J P E w s x fun w' a _ => Q w' a) : Evolves J P E w x Q :=
  fun f hJ hP => h f.store hP f.session hJ

theorem evolves_pure {a : α} {Q : W → α → Prop} (h : Q w a) : Evolves J P E w (pure a) Q :=
  fun _ hJ hP => ⟨w, le_refl w, hJ, hP, h⟩

theorem Evolves.bind {x : StoreM σ α} {k : α → StoreM σ β} {Q : W → α → Prop} {R : W → β → Prop}
    (hx : Evolves J P E w x Q) (hk : ∀ w' a, w ≤ w' → Q w' a → Evolves J P E w' (k a) R) :
    Evolves J P E w (x >>= k) R := by
  intro f hJ hP
  rw [results_bind]
  refine (hx f hJ hP).mono (fun a g hfirst => ?_) fun e g h => h
  obtain ⟨w', hw, hJ', hP', hQ⟩ := hfirst
  -- the second part ends in a world later than that of the first
  exact ((hk w' a hw hQ).on hP').later hw hJ'

theorem Evolves.mono {x : StoreM σ α} {Q Q' : W → α → Prop} (hx : Evolves J P E w x Q)
    (hQ : ∀ w' a, w ≤ w' → Q w' a → Q' w' a) : Evolves J P E w x Q' := by
  intro f hJ hP
  refine (hx f hJ hP).mono (fun a g h => ?_) fun e g h => h
  obtain ⟨w', hw, hJ', hP', hq⟩ := h
  exact ⟨w', hw, hJ', hP', hQ w' a hw hq⟩

/-- Whatever it does, it halts only as it may. -/
theorem Evolves.halts {x : StoreM σ α} {Q : W → α → Prop} {f : Frame σ} (hx : Evolves J P E w x Q)
    (hJ : J w f.session) (hP : P w f.store) : Results x f (fun _ _ => True) fun e _ => E e := by
  refine (hx f hJ hP).mono (fun _ _ _ => trivial) fun e g h => ?_
  obtain ⟨-, -, -, -, he⟩ := h
  exact he

theorem evolves_store : Evolves J P E w store P := fun _ hJ hP => ⟨w, le_refl w, hJ, hP, hP⟩

theorem evolves_options :
    Evolves J P E w options fun w' o => ∃ s : Session, J w' s ∧ s.options = o :=
  fun f hJ hP => ⟨w, le_refl w, hJ, hP, f.session, hJ, rfl⟩

theorem evolves_modifyStore {m : σ → σ} (h : ∀ s, P w s → P w (m s)) :
    Evolves J P E w (modifyStore m) fun _ _ => True :=
  fun f hJ hP => ⟨w, le_refl w, hJ, h f.store hP, trivial⟩

theorem evolves_setStore {s : σ} (h : P w s) : Evolves J P E w (setStore s) fun _ _ => True :=
  fun _ hJ _ => ⟨w, le_refl w, hJ, h, trivial⟩

theorem evolves_session {x : SessionM α} {Q : W → α → Prop} (hmono : Monotone P)
    (h : ∀ s, J w s → ∃ w', w ≤ w' ∧ J w' (x s).2 ∧ Q w' (x s).1) :
    Evolves J P E w (session x) Q := by
  intro f hJ hP
  obtain ⟨w', hw, hJ', hQ⟩ := h f.session hJ
  exact ⟨w', hw, hJ', hmono hw f.store hP, hQ⟩

theorem evolves_fresh {x : Fresh α} {Q : W → α → Prop} (hmono : Monotone P) (h : Draws J w x Q) :
    Evolves J P E w (fresh x) Q :=
  evolves_session hmono h

theorem evolves_note {level : Level} {topic : Topic} {text : String} (hmono : Monotone P)
    (hnotes : ∀ ⦃w : W⦄ ⦃s s' : Session⦄, s.Notes s' → J w s → J w s') :
    Evolves J P E w (session (Session.note level topic text)) fun _ _ => True :=
  evolves_session hmono fun _ hJ => ⟨w, le_refl w, hnotes ⟨_, rfl⟩ hJ, trivial⟩

theorem evolves_throw {e : Halt} {Q : W → α → Prop} (h : E e) : Evolves J P E w (throw e) Q :=
  fun _ hJ hP => ⟨w, le_refl w, hJ, hP, h⟩

theorem evolves_callOf {step : CallStep} {i : Instruction}
    (h : i.call? = none → E (.fault (.notACall step i))) :
    Evolves J P E w (callOf step i) fun _ call => i.call? = some call := by
  unfold callOf
  split
  · exact evolves_pure (by assumption)
  · exact evolves_throw (h (by assumption))

/-! ### Runs on one store -/

/-- An operation that leaves the store as it is. -/
theorem Evolves.on_eq {x : StoreM σ α} {Q : W → α → Prop} {s : σ} (hmono : Monotone P)
    (hx : Evolves J (fun _ t => t = s) E w x Q) (hs : P w s) :
    EvolvesOn J P E w s x fun w' a t => t = s ∧ Q w' a := by
  intro session hJ
  refine (hx ⟨s, session⟩ hJ rfl).mono (fun a g h => ?_) fun e g h => ?_
  · obtain ⟨w', hw, hJ', heq, hQ⟩ := h
    exact ⟨w', hw, hJ', heq ▸ hmono hw s hs, heq, hQ⟩
  · obtain ⟨w', hw, hJ', heq, hE⟩ := h
    exact ⟨w', hw, hJ', heq ▸ hmono hw s hs, hE⟩

theorem evolvesOn_pure {a : α} {s : σ} {Q : W → α → σ → Prop} (hs : P w s) (h : Q w a s) :
    EvolvesOn J P E w s (pure a) Q :=
  fun _ hJ => ⟨w, le_refl w, hJ, hs, h⟩

theorem evolvesOn_modifyStore {m : σ → σ} {s : σ} (h : P w (m s)) :
    EvolvesOn J P E w s (modifyStore m) fun w' _ t => w' = w ∧ t = m s :=
  fun _ hJ => ⟨w, le_refl w, hJ, h, rfl, rfl⟩

theorem EvolvesOn.bind {x : StoreM σ α} {k : α → StoreM σ β} {s : σ} {Q : W → α → σ → Prop}
    {R : W → β → σ → Prop} (hx : EvolvesOn J P E w s x Q)
    (hk : ∀ w' a t, w ≤ w' → P w' t → Q w' a t → EvolvesOn J P E w' t (k a) R) :
    EvolvesOn J P E w s (x >>= k) R := by
  intro session hJ
  rw [results_bind]
  refine (hx session hJ).mono (fun a g hfirst => ?_) fun e g h => h
  obtain ⟨w', hw, hJ', hP', hQ⟩ := hfirst
  exact (hk w' a g.store hw hP' hQ).later hw hJ'

theorem EvolvesOn.mono {x : StoreM σ α} {s : σ} {Q Q' : W → α → σ → Prop}
    (hx : EvolvesOn J P E w s x Q) (hQ : ∀ w' a t, w ≤ w' → P w' t → Q w' a t → Q' w' a t) :
    EvolvesOn J P E w s x Q' := by
  intro session hJ
  refine (hx session hJ).mono (fun a g h => ?_) fun e g h => h
  obtain ⟨w', hw, hJ', hP', hq⟩ := h
  exact ⟨w', hw, hJ', hP', hQ w' a g.store hw hP' hq⟩

/-! ## 2. Numbers -/

theorem draws_pure {a : α} {Q : W → α → Prop} (h : Q w a) : Draws J w (pure a) Q :=
  fun _ hJ => ⟨w, le_refl w, hJ, h⟩

theorem Draws.bind {x : Fresh α} {k : α → Fresh β} {Q : W → α → Prop} {R : W → β → Prop}
    (hx : Draws J w x Q) (hk : ∀ w' a, w ≤ w' → Q w' a → Draws J w' (k a) R) :
    Draws J w (x >>= k) R := by
  intro s hJ
  obtain ⟨w', hw, hJ', hQ⟩ := hx s hJ
  obtain ⟨w'', hw', hJ'', hR⟩ := hk w' _ hw hQ _ hJ'
  exact ⟨w'', le_trans hw hw', hJ'', hR⟩

theorem Draws.mono {x : Fresh α} {Q Q' : W → α → Prop} (hx : Draws J w x Q)
    (hQ : ∀ w' a, w ≤ w' → Q w' a → Q' w' a) : Draws J w x Q' := by
  intro s hJ
  obtain ⟨w', hw, hJ', hq⟩ := hx s hJ
  exact ⟨w', hw, hJ', hQ w' _ hw hq⟩

/-- What is drawn is the answer at some number. -/
theorem Draws.run {x : Fresh α} {Q : W → α → Prop} (hx : Draws J w x Q) :
    Draws J w x fun w' a => Q w' a ∧ ∃ n m, x n = (a, m) := by
  intro s hJ
  obtain ⟨w', hw, hJ', hQ⟩ := hx s hJ
  exact ⟨w', hw, hJ', hQ, s.nextId, _, rfl⟩

/-- A list of computations, each of which knows the worlds that the earlier ones leave. -/
theorem draws_mapM {x : α → Fresh β} {l : List α} {Q : W → β → Prop} (hmono : Monotone Q)
    (h : ∀ a ∈ l, ∀ w', w ≤ w' → Draws J w' (x a) Q) :
    Draws J w (l.mapM x) fun w' bs => ∀ b ∈ bs, Q w' b := by
  induction l generalizing w with
  | nil => exact draws_pure fun b hb => by cases hb
  | cons a rest ih =>
    rw [List.mapM_cons]
    refine (h a List.mem_cons_self w (le_refl w)).bind fun w₁ b hw₁ hb => ?_
    refine (ih fun c hc w' hw' => h c (List.mem_cons_of_mem _ hc) w' (le_trans hw₁ hw')).bind
      fun w₂ bs hw₂ hbs => draws_pure fun c hc => ?_
    obtain rfl | hc := List.mem_cons.1 hc
    · exact hmono hw₂ c hb
    · exact hbs c hc

theorem draws_allM {test : α → Fresh Bool} {l : List α}
    (h : ∀ a ∈ l, ∀ w', w ≤ w' → Draws J w' (test a) fun _ _ => True) :
    Draws J w (l.allM test) fun _ _ => True := by
  induction l generalizing w with
  | nil => exact draws_pure trivial
  | cons a rest ih =>
    refine (h a List.mem_cons_self w (le_refl w)).bind fun w₁ ok hw₁ _ => ?_
    cases ok with
    | true => exact ih fun b hb w' hw' => h b (List.mem_cons_of_mem _ hb) w' (le_trans hw₁ hw')
    | false => exact draws_pure trivial

theorem draws_anyM {test : α → Fresh Bool} {l : List α}
    (h : ∀ a ∈ l, ∀ w', w ≤ w' → Draws J w' (test a) fun _ _ => True) :
    Draws J w (l.anyM test) fun _ _ => True := by
  induction l generalizing w with
  | nil => exact draws_pure trivial
  | cons a rest ih =>
    refine (h a List.mem_cons_self w (le_refl w)).bind fun w₁ ok hw₁ _ => ?_
    cases ok with
    | true => exact draws_pure trivial
    | false => exact ih fun b hb w' hw' => h b (List.mem_cons_of_mem _ hb) w' (le_trans hw₁ hw')

/-! ## 3. Other stores of the session -/

theorem Evolves.succeeds {x : StoreM σ α} {Q : W → α → Prop} (h : Evolves J P E w x Q) :
    Evolves J P E w (succeeds x) fun _ _ => True := by
  intro f hJ hP
  refine ((h f hJ hP).mono (fun a g hg => ?_) fun e g hg => ?_).succeeds
  · obtain ⟨w', hw, hJ', hP', -⟩ := hg
    exact ⟨w', hw, hJ', hP', trivial⟩
  · obtain ⟨w', hw, hJ', hP', hE⟩ := hg
    exact ⟨fun _ _ => ⟨w', hw, hJ', hP', trivial⟩, fun _ _ => ⟨w', hw, hJ', hP', hE⟩⟩

/-- An operation on another store of the session; only its faults go on. -/
theorem EvolvesOn.attempt {x : StoreM τ α} {s : τ} {Q : W → α → τ → Prop} (hmono : Monotone P)
    (hE : ∀ b, E' (.fault b) → E (.fault b)) (h : EvolvesOn J P' E' w s x Q) :
    Evolves J P E w (attempt x s) fun w' outcome => ∀ a t, outcome = .ok (a, t) → P' w' t := by
  intro f hJ hP
  have hx := h f.session hJ
  unfold Results at hx ⊢
  unfold StoreM.attempt
  split at hx
  · rename_i a g heq
    obtain ⟨w', hw, hJ', hP', -⟩ := hx
    rw [heq]
    refine ⟨w', hw, hJ', hmono hw f.store hP, fun b t hout => ?_⟩
    cases hout
    exact hP'
  · rename_i e g heq
    obtain ⟨w', hw, hJ', -, he⟩ := hx
    rw [heq]
    cases e with
    | refuted r => exact ⟨w', hw, hJ', hmono hw f.store hP, fun b t hout => by cases hout⟩
    | fault b => exact ⟨w', hw, hJ', hmono hw f.store hP, hE b he⟩

/-- All branches that survive agree with the last world. -/
theorem evolves_attemptAll {branches : List (StoreM τ α × τ)} {cases : Survivors τ}
    (hmono : Monotone P) (hmono' : Monotone P') (hE : ∀ b, E' (.fault b) → E (.fault b))
    (hbranches : ∀ b ∈ branches, ∀ w', w ≤ w' → EvolvesOn J P' E' w' b.2 b.1 fun _ _ _ => True)
    (hlive : ∀ t ∈ cases.live, P' w t) :
    Evolves J P E w (attemptAll branches cases) fun w' cases => ∀ t ∈ cases.live, P' w' t := by
  induction branches generalizing cases w with
  | nil => exact evolves_pure hlive
  | cons b rest ih =>
    unfold attemptAll
    refine (EvolvesOn.attempt hmono hE (hbranches b List.mem_cons_self w (le_refl w))).bind
      fun w₁ outcome hw₁ hout => ?_
    refine ih (fun b hb w' hw' => hbranches b (List.mem_cons_of_mem _ hb) w' (le_trans hw₁ hw'))
      fun t ht => ?_
    cases outcome with
    | error r => exact hmono' hw₁ t (hlive t ht)
    | ok result =>
      obtain ht | ht := List.mem_append.1 ht
      · exact hmono' hw₁ t (hlive t ht)
      · rw [List.mem_singleton.1 ht]
        exact hout _ _ rfl

/-- The cases that are left agree with the last world. -/
theorem evolves_commit {refute : Refutation → StoreM σ (List σ)} {cases : Survivors σ}
    (hmono : Monotone P)
    (hrefute : ∀ r, Evolves J P E w (refute r) fun w' rest => ∀ t ∈ rest, P w' t)
    (hlive : ∀ t ∈ cases.live, P w t) :
    Evolves J P E w (commit refute cases) fun w' rest => ∀ t ∈ rest, P w' t := by
  unfold commit
  split
  · rename_i first rest heq
    rw [heq] at hlive
    refine (evolves_setStore (hlive first List.mem_cons_self)).bind fun w₁ _ hw _ => ?_
    exact evolves_pure fun t ht => hmono hw t (hlive t (List.mem_cons_of_mem _ ht))
  · exact hrefute _

/-- An operation on a part of the store. -/
theorem Evolves.onPart {part : σ → τ} {put : τ → σ → σ} {x : StoreM τ α} {Q : W → α → Prop}
    (hx : Evolves J P' E w x Q) (hpart : ∀ s, P w s → P' w (part s))
    (hput : ∀ w' s t, w ≤ w' → P w s → P' w' t → P w' (put t s)) :
    Evolves J P E w (onPart part put x) Q := by
  intro f hJ hP
  rw [results_onPart]
  refine (hx ⟨part f.store, f.session⟩ hJ (hpart f.store hP)).mono (fun a g h => ?_) fun e g h => ?_
  · obtain ⟨w', hw, hJ', hP', hQ⟩ := h
    exact ⟨w', hw, hJ', hput w' f.store _ hw hP hP', hQ⟩
  · obtain ⟨w', hw, hJ', hP', hE⟩ := h
    exact ⟨w', hw, hJ', hput w' f.store _ hw hP hP', hE⟩

theorem Evolves.onRefuted {mark : σ → σ} {x : StoreM σ α} {Q : W → α → Prop}
    (hx : Evolves J P E w x Q) (hmark : ∀ w' s, P w' s → P w' (mark s)) :
    Evolves J P E w (onRefuted mark x) Q := by
  intro f hJ hP
  apply Results.onRefuted
  refine (hx f hJ hP).mono (fun a g h => h) fun e g h => ⟨h, ?_⟩
  obtain ⟨w', hw, hJ', hP', hE⟩ := h
  exact ⟨w', hw, hJ', hmark w' _ hP', hE⟩

/-! ## 4. Reachable stores -/

/-- The stores that branches of a search come to, each with the session at that time or later.
`start` tells where a branch may begin, `step` which operations may be run on a store, and `later`
what other branches do to the session in between. What a halted operation leaves is reached too. -/
inductive Reached (start : Session → σ → Prop) (step : σ → StoreM σ (List σ) → Prop)
    (later : Session → Session → Prop) : Session → σ → Prop
  | start {session : Session} {s : σ} (h : start session s) : Reached start step later session s
  | ends {session : Session} {s t : σ} {x : StoreM σ (List σ)} {rest : List σ} {g : Frame σ}
      (hs : Reached start step later session s) (hx : step s x)
      (hrun : x ⟨s, session⟩ = .ok rest g) (ht : t ∈ g.store :: rest) :
      Reached start step later g.session t
  | halts {session : Session} {s : σ} {x : StoreM σ (List σ)} {e : Halt} {g : Frame σ}
      (hs : Reached start step later session s) (hx : step s x)
      (hrun : x ⟨s, session⟩ = .error e g) : Reached start step later g.session g.store
  | later {session session' : Session} {s : σ} (hs : Reached start step later session s)
      (h : later session session') : Reached start step later session' s

/-- What holds where branches begin and is kept by every step holds of all reached stores. -/
theorem Reached.invariant {start : Session → σ → Prop} {step : σ → StoreM σ (List σ) → Prop}
    {later : Session → Session → Prop} {session : Session} {s : σ} (hmono : Monotone P)
    (hstart : ∀ session s, start session s → ∃ w, J w session ∧ P w s)
    (hstep : ∀ w session s x, J w session → P w s → step s x →
      Results x ⟨s, session⟩ (fun rest g => ∃ w', J w' g.session ∧ ∀ t ∈ g.store :: rest, P w' t)
        fun _ g => ∃ w', J w' g.session ∧ P w' g.store)
    (hlater : ∀ w session session', J w session → later session session' →
      ∃ w', w ≤ w' ∧ J w' session')
    (h : Reached start step later session s) : ∃ w, J w session ∧ P w s := by
  induction h with
  | start h => exact hstart _ _ h
  | ends hs hx hrun ht ih =>
    obtain ⟨w, hJ, hP⟩ := ih
    obtain ⟨w', hJ', hP'⟩ := (hstep w _ _ _ hJ hP hx).of_ok hrun
    exact ⟨w', hJ', hP' _ ht⟩
  | halts hs hx hrun ih =>
    obtain ⟨w, hJ, hP⟩ := ih
    exact (hstep w _ _ _ hJ hP hx).of_error hrun
  | later hs h ih =>
    obtain ⟨w, hJ, hP⟩ := ih
    obtain ⟨w', hw, hJ'⟩ := hlater w _ _ hJ h
    exact ⟨w', hJ', hmono hw _ hP⟩

/-- A step of a search whose branches all agree with the last world. -/
theorem Evolves.branches {x : StoreM σ (List σ)} {f : Frame σ}
    (hx : Evolves J P E w x fun w' rest => ∀ t ∈ rest, P w' t) (hJ : J w f.session)
    (hP : P w f.store) :
    Results x f (fun rest g => ∃ w', J w' g.session ∧ ∀ t ∈ g.store :: rest, P w' t)
      fun _ g => ∃ w', J w' g.session ∧ P w' g.store := by
  refine (hx f hJ hP).mono (fun rest g h => ?_) fun e g h => ?_
  · obtain ⟨w', -, hJ', hP', hrest⟩ := h
    exact ⟨w', hJ', fun t ht => (List.mem_cons.1 ht).elim (fun heq => heq ▸ hP') (hrest t)⟩
  · obtain ⟨w', -, hJ', hP', -⟩ := h
    exact ⟨w', hJ', hP'⟩

end StoreM

end Refuter
