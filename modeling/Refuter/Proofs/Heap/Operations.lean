import Refuter.HeapStore.Calls
import Refuter.Proofs.Path.Operations
import Refuter.Proofs.Pointer.Meet

/-!
# What operations do to a heap store

Operations on a heap store bring in pointers that were merged from others, made from points-to
facts or moved between frames. `Pointer.Law` says which pointers a property of the session admits,
`HeapStore.Law` what the few changes of a store have to keep. Every operation then keeps it in
every branch.
-/

namespace Refuter

open StoreM

variable {W : Type} [Preorder W]

/-! ## 1. Pointers -/

/-- Pointers `G` over locations `A` that merging and narrowing stay within. -/
structure Pointer.Law (J : W → Session → Prop) (A : Location → Prop) (G : W → Pointer → Prop) :
    Prop where
  mono : Monotone G
  candidates : ∀ {w : W} {p : Pointer} {x : Location}, G w p → x ∈ p.candidates → A x
  known : ∀ {w : W} {x : Location}, A x → G w (.known x)
  make : ∀ {w : W} {cs : Locations}, Draws J w (Pointer.ofCandidates cs) fun w' o =>
    ∀ p ∈ o, (∀ x ∈ cs, A x) → G w' p

/-- `p` stays as it is, or it is a choice and `q` may replace it. -/
def Pointer.Becomes (G : Pointer → Prop) (p q : Pointer) : Prop :=
  q = p ∨ p.isChoice = true ∧ G p ∧ G q

/-- The source is known or within `G`, the sink is within `G`. -/
structure Edge.Within (G : Pointer → Prop) (e : Edge) : Prop where
  source : e.source.isChoice = false ∨ G e.source
  sink : G e.sink

namespace Edge.Within

variable {G G' : Pointer → Prop} {e : Edge} {p q : Pointer}

theorem mono (h : e.Within G) (hG : G ≤ G') : e.Within G' :=
  ⟨h.source.imp_right (hG e.source), hG e.sink h.sink⟩

theorem rename (h : e.Within G) (hq : q.isChoice = false ∨ G q) (hpq : G p → G q) :
    (e.rename p q).Within G := by
  refine ⟨?_, ?_⟩
  · show (if e.source = p then q else e.source).isChoice = false ∨
      G (if e.source = p then q else e.source)
    split
    · exact hq
    · exact h.source
  · show G (if e.sink = p then q else e.sink)
    split
    · rename_i hsink
      exact hpq (hsink ▸ h.sink)
    · exact h.sink

theorem renameAll {renames : List (Pointer × Pointer)} (h : e.Within G)
    (hr : ∀ r ∈ renames, G r.2) : (e.renameAll renames).Within G :=
  Edge.renameAll_induction h fun r hmem _ hd => hd.rename (.inr (hr r hmem)) fun _ => hr r hmem

end Edge.Within

namespace Pointer

variable {J : W → Session → Prop} {A : Location → Prop} {G : W → Pointer → Prop} {w : W}
  {p q : Pointer} {narrowing : Bool}

/-- What merging two pointers gives: it may replace the first one, and it is within `G` unless it is
a known candidate of the second one. -/
structure Merges (G : Pointer → Prop) (p q r : Pointer) : Prop where
  left : p.Becomes G r
  right : G r ∨ r.isChoice = false ∧ ∀ x ∈ r.candidates, x ∈ q.candidates

theorem Merges.mono {G G' : Pointer → Prop} {r : Pointer} (h : Merges G p q r) (hG : G ≤ G') :
    Merges G' p q r :=
  ⟨h.left.imp_right fun ⟨hc, hp, hr⟩ => ⟨hc, hG p hp, hG r hr⟩, h.right.imp_left (hG r)⟩

section Law

variable (law : Law J A G)
include law

theorem admits_of_isChoice_eq_false (hp : G w p) (hq : q.isChoice = false)
    (h : ∀ x ∈ q.candidates, x ∈ p.candidates) : G w q := by
  cases q with
  | known x => exact law.known (law.candidates hp (h x (SortedSet.mem_singleton.2 rfl)))
  | choice i cs => cases hq

theorem Merges.admits {r : Pointer} (h : Merges (G w) p q r) (hq : G w q) : G w r := by
  obtain hr | ⟨hknown, hsub⟩ := h.right
  · exact hr
  · exact admits_of_isChoice_eq_false law hq hknown hsub

/-- A merged pointer is the first one, or it may replace the first one, which is a choice then. -/
theorem draws_merge (hp : p.isChoice = false ∨ G w p) (hq : q.isChoice = false ∨ G w q) :
    Draws J w (merge narrowing p q) fun w' o => ∀ r ∈ o, Merges (G w') p q r := by
  have hchoice : ∀ {q : Pointer}, q.isChoice = false ∨ G w q → q.isChoice = true → G w q :=
    fun hq h => hq.resolve_left fun h' => by
      rw [h] at h'
      cases h'
  have hstay : (∀ x ∈ p.candidates, x ∈ q.candidates) → Merges (G w) p q p := fun hsub => by
    refine ⟨.inl rfl, ?_⟩
    cases hpc : p.isChoice with
    | true => exact .inl (hchoice hp hpc)
    | false => exact .inr ⟨rfl, hsub⟩
  have hout := merge_outcome narrowing p q
  generalize merge narrowing p q = x at hout ⊢
  cases hout with
  | apart => exact draws_pure fun r hr => by cases hr
  | same hpq =>
    refine draws_pure fun r hr => ?_
    cases hr
    exact hstay fun x hx => hpq ▸ hx
  | left _ _ _ hsub =>
    refine draws_pure fun r hr => ?_
    cases hr
    exact hstay hsub
  | right hpc _ _ hsub =>
    refine draws_pure fun r hr => ?_
    cases hr
    have hq : G w q := by
      cases hqc : q.isChoice with
      | true => exact hchoice hq hqc
      | false => exact admits_of_isChoice_eq_false law (hchoice hp hpc) hqc hsub
    exact ⟨.inr ⟨hpc, hchoice hp hpc, hq⟩, .inl hq⟩
  | wider _ hpc hqc _ =>
    refine draws_pure fun r hr => ?_
    cases hr
    split
    · exact ⟨.inl rfl, .inl (hchoice hp hpc)⟩
    · exact ⟨.inr ⟨hpc, hchoice hp hpc, hchoice hq hqc⟩, .inl (hchoice hq hqc)⟩
  | common _ hpc =>
    refine Draws.mono law.make fun w' o hw ho r hr => ?_
    have hr : G w' r := ho r hr fun x hx =>
      law.candidates (hchoice hp hpc) (SortedSet.mem_inter.1 hx).1
    exact ⟨.inr ⟨hpc, law.mono hw p (hchoice hp hpc), hr⟩, .inl hr⟩

/-- Numbers may be taken for any merge. -/
theorem draws_merge_any : Draws J w (merge narrowing p q) fun _ _ => True := by
  have hout := merge_outcome narrowing p q
  generalize merge narrowing p q = x at hout ⊢
  cases hout with
  | apart | same | left | right | wider => exact draws_pure trivial
  | common => exact Draws.mono law.make fun _ _ _ _ => trivial

/-- Only a choice is narrowed. -/
theorem draws_narrow {allowed : Locations} (hp : p.isChoice = false ∨ G w p) :
    Draws J w (p.narrow allowed) fun w' n => ∀ q, n = .to q →
      p.isChoice = true ∧ G w' p ∧ G w' q := by
  cases p with
  | known x =>
    refine draws_pure fun q hq => ?_
    split at hq <;> cases hq
  | choice i cs =>
    have hp : G w (.choice i cs) := hp.resolve_left fun h => by cases h
    unfold narrow
    dsimp only
    split
    · exact draws_pure fun q hq => by cases hq
    split
    · exact draws_pure fun q hq => by cases hq
    · refine Draws.bind law.make fun w' o hw ho => ?_
      cases o with
      | none => exact draws_pure fun q hq => by cases hq
      | some r =>
        refine draws_pure fun q hq => ?_
        cases hq
        refine ⟨rfl, law.mono hw _ hp, ho r rfl fun x hx => ?_⟩
        exact law.candidates hp (SortedSet.mem_inter.1 hx).1

end Law

end Pointer

/-! ## 2. Narrowing steps, rules and bindings -/

section Rules

variable {J : W → Session → Prop} {A : Location → Prop} {G : W → Pointer → Prop} {w : W}
  (law : Pointer.Law J A G) {h : HeapGraph}

/-- A round of narrowing replaces a choice. -/
def NarrowStep.Within (G : Pointer → Prop) (step : NarrowStep) : Prop :=
  ∀ p q, step = .rename p q → p.isChoice = true ∧ G p ∧ G q

include law

theorem NarrowStep.draws_ofNarrowed {e : Edge} {p : Pointer} {allowed : Locations}
    (hp : p.isChoice = false ∨ G w p) :
    Draws J w (do return ofNarrowed e p (← p.narrow allowed)) fun w' step =>
      step.Within (G w') := by
  refine (Pointer.draws_narrow law hp).bind fun w' n _ hn => draws_pure fun a b hstep => ?_
  match n with
  | .same => cases hstep
  | .empty => cases hstep
  | .to q =>
    cases hstep
    exact hn _ rfl

theorem NarrowStep.draws_ofEdge {e : Edge} (he : e.Within (G w)) :
    Draws J w (ofEdge h e) fun w' step => step.Within (G w') := by
  have hdone : ∀ w', (done : NarrowStep).Within (G w') := fun w' p q hstep => by cases hstep
  unfold ofEdge
  cases e.field with
  | none => exact draws_pure (hdone w)
  | some f =>
    dsimp only
    split
    · exact draws_pure (hdone w)
    have hsink : Draws J w (ofSink h e f) fun w' step => step.Within (G w') := by
      unfold ofSink
      dsimp only
      split
      · exact draws_pure (hdone w)
      · exact draws_ofNarrowed law (.inr he.sink)
    refine hsink.bind fun w' step hw hstep => ?_
    cases step with
    | done =>
      unfold ofSource
      dsimp only
      split
      · exact draws_pure (hdone w')
      split
      · exact draws_pure (hdone w')
      · exact draws_ofNarrowed law (he.mono (law.mono hw)).source
    | stuck | rename => exact draws_pure hstep

theorem NarrowStep.draws_first {edges : List Edge} (hedges : ∀ e ∈ edges, e.Within (G w)) :
    Draws J w (first h edges) fun w' step => step.Within (G w') := by
  induction edges generalizing w with
  | nil => exact draws_pure fun p q hstep => by cases hstep
  | cons e rest ih =>
    unfold first
    refine (draws_ofEdge law (hedges e List.mem_cons_self)).bind fun w' step hw hstep => ?_
    cases step with
    | done => exact ih fun d hd => (hedges d (List.mem_cons_of_mem _ hd)).mono (law.mono hw)
    | stuck | rename => exact draws_pure hstep

end Rules

/-- All edges of the rule are within `G`. -/
structure Rule.Within (G : Pointer → Prop) (r : Rule) : Prop where
  shown : r.shown.Within G
  premises : ∀ e ∈ r.premises, e.Within G

theorem Rule.Within.mono {G G' : Pointer → Prop} {r : Rule} (h : r.Within G) (hG : G ≤ G') :
    r.Within G' :=
  ⟨h.shown.mono hG, fun e he => (h.premises e he).mono hG⟩

/-- The binding merges the rule's edge with an obligation within `G`. -/
structure Binding.Within (G : Pointer → Prop) (r : Rule) (b : Binding) : Prop where
  obligation : b.obligation.Within G
  source : b.obligation.source.Merges G r.shown.source b.source
  sink : b.obligation.sink.Merges G r.shown.sink b.sink

/-- The store owes the obligation, and the rule fits it. -/
def Binding.Fits (narrowing : Bool) (s : HeapStore) (r : Rule) (b : Binding) : Prop :=
  b.obligation ∈ s.owed ∧ ∃ n m, Fit.ofEdge narrowing s r b.obligation n = (.fits b, m)

section Bindings

variable {J : W → Session → Prop} {A : Location → Prop} {G : W → Pointer → Prop} {w : W}
  {s : HeapStore} {r : Rule} {b : Binding} {narrowing : Bool}

theorem Binding.Within.mono {G G' : Pointer → Prop} (h : b.Within G r) (hG : G ≤ G') :
    b.Within G' r :=
  ⟨h.obligation.mono hG, h.source.mono hG, h.sink.mono hG⟩

theorem Binding.Within.source_within {G : Pointer → Prop} (h : b.Within G r) :
    b.source.isChoice = false ∨ G b.source := by
  obtain heq | ⟨-, -, hG⟩ := h.source.left
  · rw [heq]
    exact h.obligation.source
  · exact .inr hG

variable (law : Pointer.Law J A G)
include law

/-- The bound rule is within `G` again. -/
theorem Binding.Within.apply (h : b.Within (G w) r) (hr : r.Within (G w)) :
    (b.apply r).Within (G w) := by
  have hsink : G w b.sink := h.sink.admits law hr.shown.sink
  have hedge : ∀ e : Edge, e.Within (G w) →
      ((e.rename r.shown.source b.source).rename r.shown.sink b.sink).Within (G w) := fun e he =>
    (he.rename h.source_within (h.source.admits law)).rename (.inr hsink) fun _ => hsink
  refine ⟨hedge _ hr.shown, fun e he => ?_⟩
  simp only [Binding.apply, Rule.rename, List.map_map, List.mem_map] at he
  obtain ⟨d, hd, rfl⟩ := he
  exact hedge d (hr.premises d hd)

theorem Binding.draws_premisesAgree (b : Binding) :
    Draws J w (b.premisesAgree narrowing s r) fun _ _ => True :=
  draws_allM fun _ _ _ _ => draws_allM fun _ _ _ _ =>
    (Pointer.draws_merge_any law).bind fun _ _ _ _ => draws_pure trivial

theorem Fit.draws_ofEdge {o : Edge} (ho : o.Within (G w)) (hr : r.Within (G w)) :
    Draws J w (ofEdge narrowing s r o) fun w' fit =>
      ∀ b, fit = .fits b → b.obligation = o ∧ b.Within (G w') r := by
  unfold ofEdge
  split
  · exact draws_pure fun b hb => by cases hb
  refine (Pointer.draws_merge law ho.source hr.shown.source).bind fun w₁ source hw₁ hsource => ?_
  cases source with
  | none => exact draws_pure fun b hb => by cases hb
  | some source =>
    have ho : o.Within (G w₁) := ho.mono (law.mono hw₁)
    refine (Pointer.draws_merge law (.inr ho.sink)
      (.inr (law.mono hw₁ _ hr.shown.sink))).bind fun w₂ sink hw₂ hsink => ?_
    cases sink with
    | none =>
      refine draws_pure fun b hb => ?_
      split at hb <;> cases hb
    | some sink =>
      refine (Binding.draws_premisesAgree law _).bind fun w₃ ok hw₃ _ => draws_pure fun b hb => ?_
      split at hb
      · cases hb
        have hw := le_trans hw₂ hw₃
        exact ⟨rfl, ho.mono (law.mono hw), (hsource source rfl).mono (law.mono hw),
          (hsink sink rfl).mono (law.mono hw₃)⟩
      · cases hb

theorem Classification.draws_ofRule (hs : ∀ e ∈ s.owed, e.Within (G w)) (hr : r.Within (G w)) :
    Draws J w (ofRule narrowing s r) fun w' c => ∀ bindings, c = .consistent bindings →
      ∀ b ∈ bindings, b.Fits narrowing s r ∧ b.Within (G w') r := by
  have hproduced : Draws J w (isProducedOtherwise narrowing s r) fun _ _ => True := by
    unfold isProducedOtherwise
    split
    · exact draws_anyM fun _ _ _ _ =>
        (Pointer.draws_merge_any law).bind fun _ _ _ _ => draws_pure trivial
    · exact draws_pure trivial
  refine hproduced.bind fun w₁ otherwise hw₁ _ => ?_
  split
  · exact draws_pure fun bindings hc => by cases hc
  have hmono : Monotone fun w' (fit : Fit) =>
      ∀ b, fit = .fits b → b.Fits narrowing s r ∧ b.Within (G w') r :=
    fun a b hab fit h c hc => ⟨(h c hc).1, (h c hc).2.mono (law.mono hab)⟩
  refine (draws_mapM hmono fun o ho w' hw' => ?_).bind fun w₂ fits hw₂ hfits => ?_
  · have hw := le_trans hw₁ hw'
    refine (Fit.draws_ofEdge law ((hs o ho).mono (law.mono hw)) (hr.mono (law.mono hw))).run.mono
      fun w'' fit _ hfit b heq => ?_
    obtain ⟨hfit, n, m, hrun⟩ := hfit
    obtain ⟨rfl, hb⟩ := hfit b heq
    exact ⟨⟨ho, n, m, heq ▸ hrun⟩, hb⟩
  split
  · refine draws_pure fun bindings hc => ?_
    split at hc <;> cases hc
  · refine draws_pure fun bindings hc b hb => ?_
    cases hc
    obtain ⟨fit, hfit, hb⟩ := List.mem_filterMap.1 hb
    cases fit with
    | fits c =>
      cases hb
      exact hfits _ hfit b rfl
    | apart | clash => cases hb

end Bindings

/-! ## 3. Derived rules -/

/-- All that the facts point to is in `A`. -/
structure HeapGraph.Within (A : Location → Prop) (h : HeapGraph) : Prop where
  ofRoot : ∀ {x y : Location}, y ∈ h.ofRoot x → A y
  pointsTo : ∀ {x y : Location} {f : Field}, y ∈ h.pointsTo x f → A y

theorem HeapGraph.within_of_facts {A : Location → Prop} {h : HeapGraph}
    (hroots : ∀ r ∈ h.roots, ∀ x ∈ r.pointsTo, A x) (hedges : ∀ e ∈ h.edges, A e.sink) :
    h.Within A where
  ofRoot hy := by
    obtain ⟨r, hr, hy⟩ := List.mem_flatMap.1 (SortedSet.mem_ofList.1 hy)
    exact hroots r (List.mem_filter.1 hr).1 _ hy
  pointsTo hy := by
    obtain ⟨e, he, rfl⟩ := List.mem_map.1 (SortedSet.mem_ofList.1 hy)
    exact hedges e (List.mem_filter.1 he).1

namespace Rule

variable {J : W → Session → Prop} {A : Location → Prop} {G : W → Pointer → Prop} {w : W}
  {h : HeapGraph} {m : MethodId} {target base value : Location} {field : Field}
  (law : Pointer.Law J A G) (hgraph : h.Within A)
include law hgraph

theorem draws_copy :
    Draws J w (copy h m target base) fun w' o => ∀ r ∈ o, r.Within (G w') := by
  refine Draws.bind law.make fun w₁ o hw₁ ho => ?_
  cases o with
  | none => exact draws_pure fun r hr => by cases hr
  | some x =>
    have hx : G w₁ x := ho x rfl fun y hy => hgraph.ofRoot hy
    refine draws_pure fun r hr => ?_
    cases hr
    refine ⟨⟨.inl rfl, hx⟩, fun e he => ?_⟩
    rw [List.mem_singleton.1 he]
    exact ⟨.inl rfl, hx⟩

theorem draws_read :
    Draws J w (read h m target base field) fun w' o => ∀ r ∈ o, r.Within (G w') := by
  refine Draws.bind law.make fun w₁ o hw₁ ho => ?_
  cases o with
  | none => exact draws_pure fun r hr => by cases hr
  | some b =>
    have hb : G w₁ b := ho b rfl fun y hy => hgraph.ofRoot hy
    refine Draws.bind law.make fun w₂ o hw₂ ho => ?_
    cases o with
    | none => exact draws_pure fun r hr => by cases hr
    | some x =>
      have hb : G w₂ b := law.mono hw₂ b hb
      have hx : G w₂ x := ho x rfl fun y hy => by
        obtain ⟨z, -, hy⟩ := SortedSet.mem_bind.1 hy
        exact hgraph.pointsTo hy
      refine draws_pure fun r hr => ?_
      cases hr
      refine ⟨⟨.inl rfl, hx⟩, fun e he => ?_⟩
      obtain rfl | he := List.mem_cons.1 he
      · exact ⟨.inl rfl, hb⟩
      · rw [List.mem_singleton.1 he]
        exact ⟨.inr hb, hx⟩

theorem draws_write :
    Draws J w (write h m base field value) fun w' o => ∀ r ∈ o, r.Within (G w') := by
  refine Draws.bind law.make fun w₁ o hw₁ ho => ?_
  cases o with
  | none => exact draws_pure fun r hr => by cases hr
  | some b =>
    have hb : G w₁ b := ho b rfl fun y hy => hgraph.ofRoot hy
    refine Draws.bind law.make fun w₂ o hw₂ ho => ?_
    cases o with
    | none => exact draws_pure fun r hr => by cases hr
    | some v =>
      have hb : G w₂ b := law.mono hw₂ b hb
      have hv : G w₂ v := ho v rfl fun y hy => hgraph.ofRoot hy
      refine draws_pure fun r hr => ?_
      cases hr
      refine ⟨⟨.inr hb, hv⟩, fun e he => ?_⟩
      obtain rfl | he := List.mem_cons.1 he
      · exact ⟨.inl rfl, hb⟩
      · rw [List.mem_singleton.1 he]
        exact ⟨.inl rfl, hv⟩

theorem draws_derive? (hsite : ∀ s, A (.site s)) (site : Site) (i : Instruction) :
    Draws J w (derive? h site i) fun w' o => ∀ r ∈ o, r.Within (G w') := by
  unfold derive?
  dsimp only
  split
  · refine draws_pure fun r hr => ?_
    cases hr
    exact ⟨⟨.inl rfl, law.known (hsite _)⟩, fun e he => by cases he⟩
  · refine draws_pure fun r hr => ?_
    cases hr
    exact ⟨⟨.inl rfl, law.known (hsite _)⟩, fun e he => by cases he⟩
  · exact draws_copy law hgraph
  · exact draws_copy law hgraph
  · exact draws_read law hgraph
  · exact draws_read law hgraph
  · exact draws_copy law hgraph
  · exact draws_write law hgraph
  · exact draws_write law hgraph
  · exact draws_copy law hgraph
  · exact draws_pure fun r hr => by cases hr

theorem draws_derive (hsite : ∀ s, A (.site s)) (site : Site) (i : Instruction) :
    Draws J w (derive h site i) fun w' rules => ∀ r ∈ rules, r.Within (G w') :=
  (draws_derive? law hgraph hsite site i).bind fun _ _ _ ho => draws_pure fun r hr =>
    ho r (Option.mem_toList.1 hr)

end Rule

/-! ## 4. The law -/

/-- What a property of session and store needs, to be kept by operations that only give up edges or
refute. -/
structure HeapStore.DropLaw (J : W → Session → Prop) (P : W → HeapStore → Prop) (E : Halt → Prop) :
    Prop where
  mono : Monotone P
  notes : ∀ ⦃w : W⦄ ⦃s s' : Session⦄, s.Notes s' → J w s → J w s'
  keep : ∀ {w : W} {s : HeapStore} (test : Edge → Bool), P w s →
    P w { s with owed := s.owed.filter test }
  forget : ∀ {w : W} {s : HeapStore} (test : Edge → Bool), P w s →
    P w { s with produced := s.produced.filter test }
  refuted : ∀ {w : W} {s : HeapStore}, P w s → P w { s with feasible := false }
  refutes : ∀ r : Refutation, E (.refuted r)

/-- What it needs to be kept by every operation on heap stores whose pointers are within `G`. -/
structure HeapStore.Law (J : W → Session → Prop) (P : W → HeapStore → Prop) (E : Halt → Prop)
    (A : Location → Prop) (G : W → Pointer → Prop) : Prop extends HeapStore.DropLaw J P E where
  pointers : Pointer.Law J A G
  owed : ∀ {w : W} {s : HeapStore} {e : Edge}, P w s → e ∈ s.owed → e.Within (G w)
  owe : ∀ {w : W} {s : HeapStore} {e : Edge}, P w s → e.Within (G w) → HeapM.binding? s e = none →
    P w { s with owed := s.owed.insert e }
  rename : ∀ {w : W} {s : HeapStore} {p q : Pointer}, P w s → p.isChoice = true → G w p → G w q →
    P w { s.replace p q with renames := s.renames ++ [(p, q)] }
  log : ∀ {w : W} {s : HeapStore} {e : Edge}, P w s → e.Within (G w) →
    P w { s with produced := s.produced ++ [e] }
  /-- frame locations move from one frame to another -/
  frame : ∀ {x y : Location}, x.isFrame = true → A x → A y
  malformed : ∀ {w : W} {i : Nat} {cs : Locations}, G w (.choice i cs) → cs.size < 2 →
    E (.fault (.malformedChoice i cs.size))

/-! ## 5. Operations -/

namespace HeapM

variable {J : W → Session → Prop} {P : W → HeapStore → Prop} {E : Halt → Prop}
  {A : Location → Prop} {G : W → Pointer → Prop} {w : W} {α : Type} {h : HeapGraph}

/-- The renames that an operation reports replace choices by pointers within `G`. -/
def Renames (G : Pointer → Prop) (renames : List (Pointer × Pointer)) : Prop :=
  ∀ r ∈ renames, r.1.isChoice = true ∧ G r.1 ∧ G r.2

omit [Preorder W] in
/-- Adding an edge halts before anything is changed, or the edge is owed, or its sink is merged with
the one that its root is bound to. -/
theorem results_addEdge {e : Edge} {f : Frame HeapStore}
    {Q : List (Pointer × Pointer) → Frame HeapStore → Prop} {H : Halt → Frame HeapStore → Prop}
    (hhalt : ∀ b, H b f)
    (howe : binding? f.store e = none → Q []
      { f.note ⟨.debug, .heap, "heap += " ++ e.text⟩ with
        store := { f.store with owed := f.store.owed.insert e } })
    (hapart : ∀ bound m, binding? f.store e = some bound →
      Pointer.merge f.session.options.narrowFromConstraints bound.sink e.sink f.session.nextId =
        (none, m) → Results (refute (.emptyIntersection bound e)) (f.supply m) Q H)
    (hmerged : ∀ bound p m, binding? f.store e = some bound →
      Pointer.merge f.session.options.narrowFromConstraints bound.sink e.sink f.session.nextId =
        (some p, m) → Results (renameChoices p [bound.sink, e.sink]) (f.supply m) Q H) :
    Results (addEdge e) f Q H := by
  have hfeasible : ∀ {Q : Unit → Frame HeapStore → Prop}, Q () f →
      Results requireFeasible f Q H := by
    intro Q hQ
    unfold requireFeasible
    rw [results_bind, results_store]
    split
    · exact hhalt _
    · exact hQ
  have hwellFormed : ∀ {q : Pointer} {Q : Unit → Frame HeapStore → Prop}, Q () f →
      Results (requireWellFormed q) f Q H := by
    intro q Q hQ
    unfold requireWellFormed
    split
    · split
      · exact hhalt _
      · exact hQ
    · exact hQ
  unfold addEdge
  rw [results_bind]
  apply hfeasible
  rw [results_bind]
  apply hwellFormed
  rw [results_bind]
  apply hwellFormed
  rw [results_bind, results_store]
  cases hbound : binding? f.store e with
  | none => exact howe hbound
  | some bound =>
    rw [results_bind, results_options, results_bind, results_fresh]
    cases hmerge : Pointer.merge f.session.options.narrowFromConstraints bound.sink e.sink
        f.session.nextId with
    | mk o m =>
      cases o with
      | none => exact hapart bound m hbound hmerge
      | some p => exact hmerged bound p m hbound hmerge

section Drops

variable (law : HeapStore.DropLaw J P E)
include law

theorem evolves_refute {r : Refutation} {Q : W → α → Prop} : Evolves J P E w (refute r) Q :=
  (evolves_note law.mono law.notes).bind fun _ _ _ _ =>
    (evolves_modifyStore fun _ => law.refuted).bind fun _ _ _ _ => evolves_throw (law.refutes r)

omit law in
theorem evolves_requireFeasible (h : E (.refuted .alreadyRefuted)) :
    Evolves J P E w requireFeasible fun _ _ => True := by
  refine evolves_store.bind fun w₁ s _ _ => ?_
  split
  · exact evolves_throw h
  · exact evolves_pure trivial

theorem evolves_discharge (e : Edge) : Evolves J P E w (discharge e) fun _ _ => True :=
  evolves_modifyStore fun _ => law.keep _

omit law in
/-- Every way that is chosen has what classifying its rule gives. -/
theorem evolves_classify {B : W → Rule → Binding → Prop} (hmono : Monotone P)
    (hnotes : ∀ ⦃w : W⦄ ⦃s s' : Session⦄, s.Notes s' → J w s → J w s') (hB : Monotone B)
    {rules : List Rule} {a : Applications}
    (hrules : ∀ r ∈ rules, ∀ w' session s, w ≤ w' → J w' session → P w' s →
      Draws J w' (Classification.ofRule session.options.narrowFromConstraints s r) fun w'' c =>
        ∀ bindings, c = .consistent bindings → ∀ b ∈ bindings, B w'' r b)
    (ha : ∀ x ∈ a.chosen, B w x.1 x.2) :
    Evolves J P E w (classify rules a) fun w' a => ∀ x ∈ a.chosen, B w' x.1 x.2 := by
  induction rules generalizing a w with
  | nil => exact evolves_pure ha
  | cons r rest ih =>
    intro f hJ hP
    unfold classify
    rw [results_bind, results_options, results_bind, results_store]
    refine Evolves.bind (evolves_fresh hmono (hrules r List.mem_cons_self w f.session f.store
      (le_refl w) hJ hP)) (fun w₁ c hw hc => ?_) f hJ hP
    have ha : ∀ x ∈ a.chosen, B w₁ x.1 x.2 := fun x hx => hB hw x.1 x.2 (ha x hx)
    have hrest := fun r hr w' session s (hw' : w₁ ≤ w') =>
      hrules r (List.mem_cons_of_mem _ hr) w' session s (le_trans hw hw')
    cases c with
    | consistent bindings =>
      refine ih hrest fun x hx => ?_
      obtain hx | hx := List.mem_append.1 hx
      · exact ha x hx
      · obtain ⟨b, hb, rfl⟩ := List.mem_map.1 hx
        exact hc bindings rfl b hb
    | inconsistent =>
      exact (evolves_note hmono hnotes).bind fun w₂ _ hw₂ _ =>
        ih (fun r hr w' session s hw' => hrest r hr w' session s (le_trans hw₂ hw'))
          fun x hx => hB hw₂ x.1 x.2 (ha x hx)
    | inapplicable => exact ih hrest ha

theorem evolves_forget (edges : List Edge) : Evolves J P E w (forget edges) fun _ _ => True := by
  induction edges generalizing w with
  | nil => exact evolves_pure trivial
  | cons e rest ih =>
    exact (evolves_note law.mono law.notes).bind fun _ _ _ _ =>
      (evolves_discharge law e).bind fun _ _ _ _ => ih

/-- A refutation under a condition. -/
theorem evolves_refuteIf {c : Prop} [Decidable c] {r : Refutation} {k : Unit → HeapM α}
    {Q : W → α → Prop} (hk : ∀ w', w ≤ w' → Evolves J P E w' (k ()) Q) :
    Evolves J P E w (if c then refute r >>= k else k ()) Q := by
  split
  · exact (evolves_refute law (Q := fun _ _ => True)).bind fun w' _ hw _ => hk w' hw
  · exact hk w (le_refl w)

theorem evolves_withoutRule (site : Site) (i : Instruction) (inconsistent : Nat) :
    Evolves J P E w (withoutRule site i inconsistent) fun _ _ => True := by
  unfold withoutRule
  refine evolves_refuteIf law fun w₁ _ => evolves_store.bind fun w₂ s _ _ => ?_
  cases unproduced? s site i with
  | some e =>
    refine (evolves_refute law (Q := fun _ _ => True)).bind fun w₃ _ _ _ => ?_
    split
    · exact evolves_store.bind fun _ s _ _ => evolves_forget law _
    · exact evolves_pure trivial
  | none =>
    dsimp only
    split
    · exact evolves_store.bind fun _ s _ _ => evolves_forget law _
    · exact evolves_pure trivial

/-- The rules meet the store before anything is applied, so each way is applied to the store as it
was. -/
theorem evolvesOn_dispatch {B : W → Rule → Binding → Prop} (hB : Monotone B) {site : Site}
    {i : Instruction} {rules : List Rule} {s : HeapStore} (hs : P w s)
    (hrules : ∀ r ∈ rules, ∀ w' session, w ≤ w' → J w' session →
      Draws J w' (Classification.ofRule session.options.narrowFromConstraints s r) fun w'' c =>
        ∀ bindings, c = .consistent bindings → ∀ b ∈ bindings, B w'' r b)
    (happly : ∀ r b w', w ≤ w' → B w' r b →
      EvolvesOn J P E w' s (apply h site r b) fun _ _ _ => True) :
    EvolvesOn J P E w s (dispatch h site i rules) fun w' rest _ => ∀ t ∈ rest, P w' t := by
  have hclassify : Evolves J (fun _ t => t = s) E w (classify rules {}) fun w' a =>
      ∀ x ∈ a.chosen, B w' x.1 x.2 := by
    refine evolves_classify (fun _ _ _ => le_refl _) law.notes hB
      (fun r hr w' session t hw hJ ht => ?_) fun x hx => by cases hx
    rw [ht]
    exact hrules r hr w' session hw hJ
  refine (hclassify.on_eq law.mono hs).bind fun w₁ a t hw₁ ht hchosen => ?_
  obtain ⟨rfl, ha⟩ := hchosen
  split
  · refine ((evolves_withoutRule law site i _).bind fun _ _ _ _ => ?_).on ht
    exact evolves_pure fun t ht => by cases ht
  · intro session hJ
    rw [results_bind, results_store]
    refine Evolves.bind (evolves_attemptAll law.mono law.mono (fun _ h => h) (fun x hx w' hw' => ?_)
      fun u hu => ?_) (fun w₂ cases hw₂ hlive => evolves_commit law.mono
      (fun _ => evolves_refute law) fun u hu => ?_) ⟨t, session⟩ hJ ht
    · obtain ⟨⟨r, b⟩, hmem, rfl⟩ := List.mem_map.1 hx
      exact happly r b w' (le_trans hw₁ hw') (hB hw' r b (ha (r, b) hmem))
    · cases hu
    · obtain hu | hu := List.mem_append.1 hu
      · exact hlive u hu
      · -- the store as it was, if it is kept
        split at hu
        · rw [List.mem_singleton.1 hu]
          exact law.mono hw₂ t ht
        · cases hu

omit [Preorder W] law in
/-- Entering a callee moves the edges of at most one local to the result of the callee. -/
theorem results_enterCallee (call : Instruction) (caller : Site) (callee : MethodId)
    (f : Frame HeapStore) :
    Results (enterCallee call caller callee) f
      (fun _ g => g.session = f.session ∧ (g.store = f.store ∨
        ∃ d, g.store = f.store.replace (.slot caller.method d) (.result callee)))
      fun e g => g = f ∧ (e = .refuted .alreadyRefuted ∨
        call.call? = none ∧ e = .fault (.notACall .enterCallee call)) := by
  unfold enterCallee requireFeasible callOf
  simp only [results_bind, results_store]
  split
  · exact ⟨rfl, .inl rfl⟩
  · split
    · simp only [results_pure]
      split
      · exact ⟨rfl, .inr ⟨_, rfl⟩⟩
      · exact ⟨rfl, .inl rfl⟩
    · rename_i hcall
      exact ⟨rfl, .inr ⟨hcall, rfl⟩⟩

theorem evolves_enterCallee (call : Instruction) (caller : Site) (callee : MethodId)
    (hcall : call.call? = none → E (.fault (.notACall .enterCallee call)))
    (henter : ∀ s d, P w s → P w (s.replace (.slot caller.method d) (.result callee))) :
    Evolves J P E w (enterCallee call caller callee) fun _ _ => True := by
  intro f hJ hP
  refine (results_enterCallee call caller callee f).mono (fun _ g h => ?_) fun e g h => ?_
  · obtain ⟨hsession, hstore | ⟨d, hstore⟩⟩ := h
    · exact ⟨w, le_refl w, hsession ▸ hJ, hstore ▸ hP, trivial⟩
    · exact ⟨w, le_refl w, hsession ▸ hJ, hstore ▸ henter f.store d hP, trivial⟩
  · obtain ⟨rfl, rfl | ⟨hnone, rfl⟩⟩ := h
    · exact ⟨w, le_refl w, hJ, hP, law.refutes _⟩
    · exact ⟨w, le_refl w, hJ, hP, hcall hnone⟩

theorem evolves_reportGivenUp (edges : List Edge) :
    Evolves J P E w (reportGivenUp edges) fun _ _ => True := by
  induction edges generalizing w with
  | nil => exact evolves_pure trivial
  | cons e rest ih => exact (evolves_note law.mono law.notes).bind fun _ _ _ _ => ih

theorem evolves_skipCall (call : Instruction) (caller : Site)
    (hcall : call.call? = none → E (.fault (.notACall .skipCall call))) :
    Evolves J P E w (skipCall call caller) fun _ _ => True := by
  refine (evolves_requireFeasible (law.refutes _)).bind fun _ _ _ _ =>
    (evolves_callOf hcall).bind fun _ parts _ _ => ?_
  dsimp only
  exact evolves_store.bind fun _ s _ _ => (evolves_reportGivenUp law _).bind fun _ _ _ _ =>
    evolves_modifyStore fun s => law.keep _

end Drops

section Operations

variable (law : HeapStore.Law J P E A G)
include law

theorem evolves_logProduced {e : Edge} (he : e.Within (G w)) :
    Evolves J P E w (logProduced e) fun _ _ => True := by
  refine evolves_modifyStore fun s hs => ?_
  split
  · exact hs
  · exact law.log hs he

theorem evolves_rename {p q : Pointer} (hpq : p.Becomes (G w) q) :
    Evolves J P E w (rename p q) fun _ _ => True := by
  unfold rename
  split
  · exact evolves_pure trivial
  · rename_i hne
    obtain heq | ⟨hc, hp, hq⟩ := hpq
    · exact absurd heq.symm hne
    · refine (evolves_note law.mono law.notes).bind fun w₁ _ hw _ =>
        evolves_modifyStore fun s hs => ?_
      exact law.rename hs hc (law.pointers.mono hw p hp) (law.pointers.mono hw q hq)

theorem evolves_renameChoices {p : Pointer} {olds : List Pointer} (hp : G w p)
    (holds : ∀ old ∈ olds, G w old) :
    Evolves J P E w (renameChoices p olds) fun w' renames => Renames (G w') renames := by
  induction olds generalizing w with
  | nil => exact evolves_pure fun r hr => by cases hr
  | cons old rest ih =>
    have hold : G w old := holds old List.mem_cons_self
    unfold renameChoices
    split
    · rename_i hc
      have hc : old.isChoice = true := (Bool.and_eq_true_iff.1 hc).2
      refine (evolves_rename law (.inr ⟨hc, hold, hp⟩)).bind fun w₁ _ hw₁ _ => ?_
      refine (ih (law.pointers.mono hw₁ p hp) fun x hx =>
        law.pointers.mono hw₁ x (holds x (List.mem_cons_of_mem _ hx))).bind fun w₂ renames hw₂ hr =>
        evolves_pure fun r hmem => ?_
      obtain rfl | hmem := List.mem_cons.1 hmem
      · have hw := le_trans hw₁ hw₂
        exact ⟨hc, law.pointers.mono hw old hold, law.pointers.mono hw p hp⟩
      · exact hr r hmem
    · exact ih hp fun x hx => holds x (List.mem_cons_of_mem _ hx)

theorem evolves_requireWellFormed {p : Pointer} (hp : p.isChoice = false ∨ G w p) :
    Evolves J P E w (requireWellFormed p) fun _ _ => True := by
  cases p with
  | known x => exact evolves_pure trivial
  | choice i cs =>
    unfold requireWellFormed
    dsimp only
    split
    · rename_i hsize
      exact evolves_throw (law.malformed (hp.resolve_left fun h => by cases h) hsize)
    · exact evolves_pure trivial

theorem evolves_addEdge {e : Edge} (he : e.Within (G w)) :
    Evolves J P E w (addEdge e) fun w' renames => Renames (G w') renames := by
  refine (evolves_requireFeasible (law.refutes _)).bind fun w₁ _ hw₁ _ => ?_
  have he := he.mono (law.pointers.mono hw₁)
  refine (evolves_requireWellFormed law he.source).bind fun w₂ _ hw₂ _ => ?_
  have he := he.mono (law.pointers.mono hw₂)
  refine (evolves_requireWellFormed law (.inr he.sink)).bind fun w₃ _ hw₃ _ => ?_
  have he := he.mono (law.pointers.mono hw₃)
  -- whether the root is bound is a question to the store as it is now
  intro f hJ hP
  rw [results_bind, results_store]
  cases hbound : binding? f.store e with
  | none =>
    simp only [results_bind, results_debug]
    refine ⟨w₃, le_refl w₃, law.notes ⟨_, rfl⟩ hJ, law.owe hP he hbound, fun r hr => by cases hr⟩
  | some bound =>
    have hbound : bound.Within (G w₃) := law.owed hP (binding?_eq_some hbound).2.1
    refine Evolves.bind evolves_options (fun w₄ o hw₄ _ => ?_) f hJ hP
    have he := he.mono (law.pointers.mono hw₄)
    have hbound := hbound.mono (law.pointers.mono hw₄)
    refine (evolves_fresh law.mono (Pointer.draws_merge law.pointers (.inr hbound.sink)
      (.inr he.sink))).bind fun w₅ o hw₅ hmerged => ?_
    cases o with
    | none => exact evolves_refute law.toDropLaw
    | some p =>
      have he := he.mono (law.pointers.mono hw₅)
      have hbound := hbound.mono (law.pointers.mono hw₅)
      refine evolves_renameChoices law ((hmerged p rfl).admits law.pointers he.sink)
        fun old hold => ?_
      obtain rfl | hold := List.mem_cons.1 hold
      · exact hbound.sink
      · rw [List.mem_singleton.1 hold]
        exact he.sink

theorem evolves_addEdges {renames : List (Pointer × Pointer)} {edges : List Edge}
    (hr : Renames (G w) renames) (he : ∀ e ∈ edges, e.Within (G w)) :
    Evolves J P E w (addEdges renames edges) fun _ _ => True := by
  induction edges generalizing renames w with
  | nil => exact evolves_pure trivial
  | cons e rest ih =>
    refine (evolves_addEdge law ((he e List.mem_cons_self).renameAll fun r hmem =>
      (hr r hmem).2.2)).bind fun w₁ caused hw hc => ?_
    refine ih (fun r hmem => ?_) fun d hd =>
      (he d (List.mem_cons_of_mem _ hd)).mono (law.pointers.mono hw)
    obtain hmem | hmem := List.mem_append.1 hmem
    · obtain ⟨hchoice, hp, hq⟩ := hr r hmem
      exact ⟨hchoice, law.pointers.mono hw _ hp, law.pointers.mono hw _ hq⟩
    · exact hc r hmem

theorem evolves_narrowRounds (rounds : Nat) :
    Evolves J P E w (narrowRounds h rounds) fun _ _ => True := by
  induction rounds generalizing w with
  | zero => exact evolves_pure trivial
  | succ rounds ih =>
    refine evolves_store.bind fun w₁ s _ hs => (evolves_fresh law.mono
      (NarrowStep.draws_first law.pointers fun e he => law.owed hs he)).bind
      fun w₂ step _ hstep => ?_
    cases step with
    | done => exact evolves_pure trivial
    | stuck e => exact evolves_refute law.toDropLaw
    | rename p q => exact (evolves_rename law (.inr (hstep p q rfl))).bind fun _ _ _ _ => ih

theorem evolves_narrow : Evolves J P E w (narrow h) fun _ _ => True := by
  refine evolves_options.bind fun w₁ o _ _ => ?_
  split
  · exact evolves_store.bind fun _ s _ _ => evolves_narrowRounds law _
  · exact evolves_pure trivial

/-! ### Rules -/

theorem evolves_apply {site : Site} {r : Rule} {b : Binding} (hr : r.Within (G w))
    (hb : b.Within (G w) r) : Evolves J P E w (apply h site r b) fun _ _ => True := by
  have hmono : ∀ {w₁ w₂ : W}, w₁ ≤ w₂ → G w₁ ≤ G w₂ := fun hw => law.pointers.mono hw
  refine (evolves_note law.mono law.notes).bind fun w₁ _ hw₁ _ =>
    (evolves_discharge law.toDropLaw _).bind fun w₂ _ hw₂ _ => ?_
  have hb := (hb.mono (hmono hw₁)).mono (hmono hw₂)
  refine (evolves_rename law hb.source.left).bind fun w₃ _ hw₃ _ => ?_
  have hb := hb.mono (hmono hw₃)
  refine (evolves_rename law hb.sink.left).bind fun w₄ _ hw₄ _ => ?_
  have hb := hb.mono (hmono hw₄)
  have hrule : (b.apply r).Within (G w₄) := hb.apply law.pointers
    (hr.mono (hmono (le_trans (le_trans hw₁ hw₂) (le_trans hw₃ hw₄))))
  refine (evolves_addEdges law (fun r hmem => by cases hmem) hrule.premises).bind
    fun w₅ _ hw₅ _ => ?_
  split
  · exact (evolves_logProduced law (hrule.shown.mono (hmono hw₅))).bind fun _ _ _ _ =>
      evolves_narrow law
  · exact evolves_narrow law

theorem evolves_dispatch (site : Site) (i : Instruction) {rules : List Rule}
    (hrules : ∀ r ∈ rules, r.Within (G w)) :
    Evolves J P E w (dispatch h site i rules) fun w' rest => ∀ t ∈ rest, P w' t := by
  have hmono : ∀ {w₁ w₂ : W}, w₁ ≤ w₂ → G w₁ ≤ G w₂ := fun hw => law.pointers.mono hw
  refine evolves_of_on fun s hs => evolvesOn_dispatch law.toDropLaw
    (B := fun w r b => r.Within (G w) ∧ b.Within (G w) r)
    (fun _ _ hw r b hrb => ⟨hrb.1.mono (hmono hw), hrb.2.mono (hmono hw)⟩) hs
    (fun r hr w' session hw _ => ?_) fun r b w' hw hrb => ?_
  · have hr : r.Within (G w') := (hrules r hr).mono (hmono hw)
    refine Draws.mono (Classification.draws_ofRule law.pointers
      (fun e he => law.owed (law.mono hw s hs) he) hr) fun w'' c hw' hc bindings heq b hb => ?_
    exact ⟨hr.mono (hmono hw'), (hc bindings heq b hb).2⟩
  · exact (evolves_apply law hrb.1 hrb.2).on (law.mono hw s hs)

/-! ### Frames -/

/-- An edge keeps within `G` when it moves from one frame location to another. -/
theorem within_move {e : Edge} {x y : Location} (he : e.Within (G w)) (hx : x.isFrame = true) :
    (e.rename (.known x) (.known y)).Within (G w) :=
  he.rename (.inl rfl) fun hp => law.pointers.known
    (law.frame hx (law.pointers.candidates hp (SortedSet.mem_singleton.2 rfl)))

theorem evolves_moveEdges {x y : Location} (hx : x.isFrame = true) {edges : List Edge}
    (he : ∀ e ∈ edges, e.Within (G w)) :
    Evolves J P E w (moveEdges (.known x) (.known y) edges) fun _ _ => True := by
  induction edges generalizing w with
  | nil => exact evolves_pure trivial
  | cons e rest ih =>
    refine (evolves_discharge law.toDropLaw e).bind fun w₁ _ hw₁ _ => ?_
    have hmoved := within_move law ((he e List.mem_cons_self).mono (law.pointers.mono hw₁)) (y := y)
      hx
    refine (evolves_addEdge law hmoved).bind fun w₂ _ hw₂ _ => ih fun d hd => ?_
    exact (he d (List.mem_cons_of_mem _ hd)).mono (law.pointers.mono (le_trans hw₁ hw₂))

omit [Preorder W] law in
theorem mem_of_mem_edgesOf {s : HeapStore} {p : Pointer} {e : Edge} (he : e ∈ edgesOf s p) :
    e ∈ s.owed :=
  (List.mem_filter.1 he).1

theorem evolves_visitReturn (site : Site) (value : Option Operand) :
    Evolves J P E w (visitReturn site value) fun _ _ => True := by
  refine evolves_store.bind fun w₁ s _ hs => ?_
  split
  · exact evolves_pure trivial
  · exact evolves_moveEdges law rfl fun e he => law.owed hs (mem_of_mem_edgesOf he)
  · exact evolves_refute law.toDropLaw

theorem evolves_visit (site : Site) (i : Instruction) {rules : List Rule}
    (hrules : ∀ r ∈ rules, r.Within (G w)) :
    Evolves J P E w (visit h site i rules) fun w' rest => ∀ t ∈ rest, P w' t := by
  refine (evolves_requireFeasible (law.refutes _)).bind fun w₁ _ hw₁ _ => ?_
  split
  · exact (evolves_visitReturn law site _).bind fun _ _ _ _ =>
      evolves_pure fun t ht => by cases ht
  · refine evolves_store.bind fun w₂ s hw₂ _ => evolves_dispatch law site i fun r hr => ?_
    exact (hrules r (List.mem_filter.1 hr).1).mono (law.pointers.mono (le_trans hw₁ hw₂))

/-! ### Calls -/

theorem evolves_takeEdges {x : Location} (hx : x.isFrame = true) {actual : Option Location}
    {edges : List Edge} (he : ∀ e ∈ edges, e.Within (G w)) :
    Evolves J P E w (takeEdges (.known x) (actual.map .known) edges) fun w' taken =>
      ∀ e ∈ taken, e.Within (G w') := by
  induction edges generalizing w with
  | nil => exact evolves_pure fun e he => by cases he
  | cons e rest ih =>
    refine (evolves_discharge law.toDropLaw e).bind fun w₁ _ hw₁ _ => ?_
    have he := fun d hd => (he d hd).mono (law.pointers.mono hw₁)
    cases actual with
    | none => exact evolves_refute law.toDropLaw
    | some y =>
      refine (ih fun d hd => he d (List.mem_cons_of_mem _ hd)).bind fun w₂ taken hw₂ htaken =>
        evolves_pure fun d hd => ?_
      obtain rfl | hd := List.mem_cons.1 hd
      · exact (within_move law (he e List.mem_cons_self) hx).mono (law.pointers.mono hw₂)
      · exact htaken d hd

theorem evolves_takeFormals (caller : Site) (callee : MethodId) (args : List (Local × Operand)) :
    Evolves J P E w (takeFormals caller callee args) fun w' taken =>
      ∀ e ∈ taken, e.Within (G w') := by
  induction args generalizing w with
  | nil => exact evolves_pure fun e he => by cases he
  | cons arg rest ih =>
    have hactual : arg.2.local?.map (Pointer.slot caller.method) =
        (arg.2.local?.map (Location.slot caller.method)).map .known := by
      rw [Option.map_map]
      rfl
    unfold takeFormals
    dsimp only
    rw [hactual]
    refine evolves_store.bind fun w₁ s _ hs => (evolves_takeEdges law rfl fun e he =>
      law.owed hs (mem_of_mem_edgesOf he)).bind fun w₂ taken hw₂ htaken => ?_
    refine ih.bind fun w₃ more hw₃ hmore => evolves_pure fun e he => ?_
    obtain he | he := List.mem_append.1 he
    · exact (htaken e he).mono (law.pointers.mono hw₃)
    · exact hmore e he

theorem evolves_addAll {edges : List Edge} (he : ∀ e ∈ edges, e.Within (G w)) :
    Evolves J P E w (addAll edges) fun _ _ => True := by
  induction edges generalizing w with
  | nil => exact evolves_pure trivial
  | cons e rest ih =>
    exact (evolves_addEdge law (he e List.mem_cons_self)).bind fun w₁ _ hw _ => ih fun d hd =>
      (he d (List.mem_cons_of_mem _ hd)).mono (law.pointers.mono hw)

theorem evolves_returnToCaller (call : Instruction) (caller : Site)
    (hcall : call.call? = none → E (.fault (.notACall .returnToCaller call))) :
    Evolves J P E w (returnToCaller call caller) fun _ _ => True := by
  refine (evolves_requireFeasible (law.refutes _)).bind fun _ _ _ _ =>
    (evolves_callOf hcall).bind fun _ parts _ _ => ?_
  dsimp only
  refine (evolves_takeFormals law _ _ _).bind fun _ taken _ htaken =>
    (evolves_addAll law htaken).bind fun w₁ _ _ _ => ?_
  split
  · exact evolves_pure trivial
  · refine evolves_store.bind fun w₂ s _ _ => ?_
    split
    · exact evolves_refute law.toDropLaw
    · exact evolves_modifyStore fun s => law.forget _

end Operations

end HeapM

end Refuter
