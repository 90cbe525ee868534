import Refuter.Proofs.Heap.Renames

/-!
# Adding edges as a substitution

An added edge may be merged with the edge that binds its root. Whichever it is, the store owes
afterwards what it owed before and the new edge, with some choices replaced throughout. Known
pointers stay, so an edge keeps a known source and the ends that two edges have in common stay in
common. `HeapStore.Extends` says this of an operation; its consequences are what the proofs about
whole steps of a query use.
-/

namespace Refuter

open StoreM

/-! ## 1. Pointers over a set of locations -/

/-- All candidates are in `A`. -/
def Pointer.Over (A : Location → Prop) (p : Pointer) : Prop := ∀ x ∈ p.candidates, A x

namespace Pointer

variable {A : Location → Prop} {p q r : Pointer} {narrowing : Bool} {n m : Nat}
  {renames more : List (Pointer × Pointer)}

theorem over_of_ofCandidates {cs : Locations} (hcs : ∀ x ∈ cs, A x)
    (h : ofCandidates cs n = (some r, m)) : r.Over A := by
  obtain ⟨-, heq⟩ | ⟨x, rfl, heq⟩ | ⟨-, heq⟩ := ofCandidates_cases cs n
  · rw [heq] at h
    cases h
  · rw [heq] at h
    cases h
    exact hcs
  · rw [heq] at h
    cases h
    exact hcs

/-- Pointers over `A` are closed under merging and narrowing. -/
theorem law_over : Law (fun (_ : Timeless) _ => True) A fun _ p => p.Over A where
  mono _ _ _ := le_refl _
  candidates hp hx := hp _ hx
  known hx y hy := SortedSet.mem_singleton.1 hy ▸ hx
  make {w cs} session _ := by
    refine ⟨w, le_refl w, trivial, fun p hp hcs => ?_⟩
    exact over_of_ofCandidates hcs (Prod.ext hp rfl)

theorem over_of_merge (hp : p.Over A) (hq : q.Over A)
    (h : merge narrowing p q n = (some r, m)) : r.Over A := by
  have hdraws : Draws (fun (_ : Timeless) _ => True) .world (merge narrowing p q) fun _ o =>
      ∀ r ∈ o, Merges (Over A) p q r := draws_merge law_over (.inr hp) (.inr hq)
  obtain ⟨_, -, -, hmerged⟩ := hdraws { nextId := n } trivial
  rw [h] at hmerged
  exact (hmerged r rfl).admits law_over (w := .world) hq

/-! ## 2. Following renames -/

/-- Known pointers stay. -/
theorem renameAll_eq_self (hr : ∀ r ∈ renames, r.1.isChoice = true) (hp : p.isChoice = false) :
    p.renameAll renames = p := by
  refine renameAll_induction (P := (· = p)) rfl fun r hmem y hy => ?_
  subst hy
  refine rename_of_ne fun heq => ?_
  rw [heq, hr r hmem] at hp
  cases hp

/-- A pointer stays as it is or becomes one over `A`. -/
theorem renameAll_eq_or_over (hr : ∀ r ∈ renames, r.2.Over A) :
    p.renameAll renames = p ∨ (p.renameAll renames).Over A := by
  refine renameAll_induction (P := fun y => y = p ∨ y.Over A) (.inl rfl) fun r hmem y hy => ?_
  unfold rename
  split
  · exact .inr (hr r hmem)
  · exact hy

end Pointer

/-! ## 3. Stores -/

/-- Owed edges lead to `A`, and so do the renames that the path store has not seen: what replaces a
pointer was merged from sinks. -/
structure HeapStore.LeadsTo (A : Location → Prop) (s : HeapStore) : Prop where
  sinks : ∀ e ∈ s.owed, e.sink.Over A
  renames : ∀ r ∈ s.renames, r.2.Over A

/-- `t` owes what `s` owes and the edges `added`, with the choices of `more` replaced. -/
structure HeapStore.Extends (A : Location → Prop) (added : List Edge)
    (more : List (Pointer × Pointer)) (s t : HeapStore) : Prop where
  renamed : ∀ r ∈ more, r.1.isChoice = true ∧ r.2.Over A
  owed : ∀ e, e ∈ t.owed ↔ ∃ d, (d ∈ s.owed ∨ d ∈ added) ∧ d.renameAll more = e
  renames : t.renames = s.renames ++ more

namespace HeapStore.Extends

variable {A : Location → Prop} {added : List Edge} {more : List (Pointer × Pointer)}
  {renames : List (Pointer × Pointer)} {s t u : HeapStore} {d e : Edge} {p q : Pointer}

theorem refl (s : HeapStore) : s.Extends A [] [] s where
  renamed r hr := by cases hr
  owed e := by simp
  renames := (List.append_nil _).symm

theorem insert (e : Edge) : s.Extends A [e] [] { s with owed := s.owed.insert e } where
  renamed r hr := by cases hr
  owed d := by simp [or_comm, eq_comm]
  renames := (List.append_nil _).symm

theorem rename (hp : p.isChoice = true) (hq : q.Over A) :
    s.Extends A [] [(p, q)] { s.replace p q with renames := s.renames ++ [(p, q)] } where
  renamed r hr := by
    rw [List.mem_singleton.1 hr]
    exact ⟨hp, hq⟩
  owed e := by simp [HeapStore.replace]
  renames := rfl

/-- Edges that are added later see the renames of those before. -/
theorem trans (later : List Edge) (h : s.Extends A added renames t)
    (h' : t.Extends A (later.map (·.renameAll renames)) more u) :
    s.Extends A (added ++ later) (renames ++ more) u where
  renamed r hr := (List.mem_append.1 hr).elim (h.renamed r) (h'.renamed r)
  owed e := by
    rw [h'.owed]
    constructor
    · rintro ⟨d, hd | hd, rfl⟩
      · obtain ⟨c, hc, rfl⟩ := (h.owed d).1 hd
        refine ⟨c, hc.imp_right fun hc => List.mem_append_left _ hc, ?_⟩
        exact Edge.renameAll_append _ _ _
      · obtain ⟨c, hc, rfl⟩ := List.mem_map.1 hd
        exact ⟨c, .inr (List.mem_append_right _ hc), Edge.renameAll_append _ _ _⟩
    · rintro ⟨d, hd, rfl⟩
      refine ⟨d.renameAll renames, ?_, (Edge.renameAll_append _ _ _).symm⟩
      obtain hd | hd := hd
      · exact .inl ((h.owed _).2 ⟨d, .inl hd, rfl⟩)
      · obtain hd | hd := List.mem_append.1 hd
        · exact .inl ((h.owed _).2 ⟨d, .inr hd, rfl⟩)
        · exact .inr (List.mem_map.2 ⟨d, hd, rfl⟩)
  renames := by rw [h'.renames, h.renames, List.append_assoc]

/-! ### What an extension keeps -/

theorem renameAll_known (h : s.Extends A added more t) (hp : p.isChoice = false) :
    p.renameAll more = p :=
  Pointer.renameAll_eq_self (fun r hr => (h.renamed r hr).1) hp

/-- An edge keeps a known source. -/
theorem exists_of_known (h : s.Extends A added more t) (hd : d ∈ s.owed ∨ d ∈ added)
    (hsource : d.source.isChoice = false) :
    ∃ e ∈ t.owed, e.source = d.source ∧ e.field = d.field := by
  exact ⟨d.renameAll more, (h.owed _).2 ⟨d, hd, rfl⟩, h.renameAll_known hsource, rfl⟩

/-- Sinks and pending renames stay over `A` if the added edges lead there. -/
theorem leadsTo (h : s.Extends A added more t) (hs : s.LeadsTo A)
    (hadded : ∀ d ∈ added, d.sink.Over A) : t.LeadsTo A where
  sinks e he := by
    obtain ⟨d, hd, rfl⟩ := (h.owed e).1 he
    show (d.sink.renameAll more).Over A
    obtain heq | hover := Pointer.renameAll_eq_or_over (p := d.sink) fun r hr => (h.renamed r hr).2
    · exact heq.symm ▸ hd.elim (hs.sinks d) (hadded d)
    · exact hover
  renames r hr := by
    rw [h.renames] at hr
    exact (List.mem_append.1 hr).elim (hs.renames r) fun hr => (h.renamed r hr).2

end HeapStore.Extends

/-! ## 4. Operations -/

namespace HeapM

variable {A : Location → Prop} {f : Frame HeapStore} {e : Edge} {p q : Pointer}

theorem results_rename (hpq : p.Becomes (Pointer.Over A) q) :
    Results (rename p q) f (fun _ g => ∃ more, f.store.Extends A [] more g.store)
      fun _ _ => True := by
  unfold rename
  split
  · exact ⟨[], .refl _⟩
  · rename_i hne
    obtain hsame | ⟨hchoice, -, hq⟩ := hpq
    · exact absurd hsame.symm hne
    · exact ⟨_, .rename hchoice hq⟩

/-- All choices among `olds` become `p`. -/
theorem results_renameChoices_extends {olds : List Pointer} (hp : p.Over A) :
    Results (renameChoices p olds) f
      (fun more g => f.store.Extends A [] more g.store ∧
        ∀ q, q = p ∨ q ∈ olds ∧ q.isChoice = true → q.renameAll more = p)
      fun _ _ => True := by
  induction olds generalizing f with
  | nil =>
    refine results_pure.2 ⟨.refl _, fun q hq => ?_⟩
    exact hq.resolve_right fun h => by cases h.1
  | cons old rest ih =>
    unfold renameChoices
    split
    · rename_i htest
      obtain ⟨hne, hold⟩ := Bool.and_eq_true_iff.1 htest
      have hne : old ≠ p := of_decide_eq_true hne
      unfold rename
      rw [if_neg hne]
      simp only [results_bind, results_debug, results_modifyStore, results_pure]
      refine (ih (f := { f.note ⟨.debug, .heap, old.text ++ " := " ++ p.text⟩ with
        store := { f.store.replace old p with renames := f.store.renames ++ [(old, p)] } })).mono
        (fun more g hg => ?_) fun _ _ h => h
      obtain ⟨hextends, hrenamed⟩ := hg
      refine ⟨(HeapStore.Extends.rename hold hp).trans [] hextends, fun q hq => ?_⟩
      -- a pointer that is renamed here is `p` for the renames that follow
      show Pointer.renameAll more (if q = old then p else q) = p
      split
      · exact hrenamed p (.inl rfl)
      · rename_i hqold
        refine hrenamed q (hq.imp_right fun h => ⟨?_, h.2⟩)
        exact (List.mem_cons.1 h.1).resolve_left hqold
    · rename_i htest
      refine ih.mono (fun more g hg => ⟨hg.1, fun q hq => hg.2 q ?_⟩) fun _ _ h => h
      obtain hq | ⟨hmem, hchoice⟩ := hq
      · exact .inl hq
      · obtain rfl | hmem := List.mem_cons.1 hmem
        · -- a choice that is not renamed is `p` itself
          refine .inl (Classical.byContradiction fun hne => htest ?_)
          rw [hchoice, decide_eq_true hne]
          rfl
        · exact .inr ⟨hmem, hchoice⟩

/-- However an edge is added, the store is extended by it. -/
theorem results_addEdge_extends (hs : ∀ d ∈ f.store.owed, d.sink.Over A) (he : e.sink.Over A) :
    Results (addEdge e) f (fun more g => f.store.Extends A [e] more g.store) fun _ _ => True := by
  apply results_addEdge
  · exact fun _ => trivial
  · exact fun _ => .insert e
  · exact fun _ _ _ _ => trivial
  · intro bound p m hbound hmerge
    obtain ⟨hu, hmem, hsource, hfield⟩ := binding?_eq_some hbound
    have hp : p.Over A := Pointer.over_of_merge (hs bound hmem) he hmerge
    obtain ⟨hleft, hright⟩ := Pointer.eq_or_isChoice_of_merge hmerge
    refine (results_renameChoices_extends (f := f.supply m) hp).mono (fun more g hg => ?_)
      fun _ _ h => h
    obtain ⟨hextends, hrenamed⟩ := hg
    -- both sinks become `p`, so the new edge is what has become of the bound one
    have hsame : e.renameAll more = bound.renameAll more := by
      unfold Edge.renameAll Edge.onEnds
      rw [hsource, hfield,
        hrenamed _ (hleft.imp_right fun h => ⟨List.mem_cons_self, h⟩),
        hrenamed _ (hright.imp_right fun h => ⟨List.mem_cons_of_mem _ List.mem_cons_self, h⟩)]
    refine ⟨hextends.renamed, fun d => ?_, hextends.renames⟩
    rw [hextends.owed]
    constructor
    · rintro ⟨c, hc, rfl⟩
      exact ⟨c, .inl (hc.resolve_right List.not_mem_nil), rfl⟩
    · rintro ⟨c, hc | hc, rfl⟩
      · exact ⟨c, .inl hc, rfl⟩
      · rw [List.mem_singleton.1 hc, hsame]
        exact ⟨bound, .inl hmem, rfl⟩

/-- Edges on known sources stay while others are added. -/
theorem results_addAll {edges : List Edge} (hs : f.store.LeadsTo A)
    (he : ∀ e ∈ edges, e.sink.Over A) :
    Results (addAll edges) f (fun _ g => g.store.LeadsTo A ∧
      ∀ d ∈ f.store.owed, d.source.isChoice = false → ∃ e ∈ g.store.owed, e.source = d.source)
      fun _ _ => True := by
  induction edges generalizing f with
  | nil => exact ⟨hs, fun d hd _ => ⟨d, hd, rfl⟩⟩
  | cons e rest ih =>
    have hsink : ∀ d ∈ [e], d.sink.Over A := fun d hd =>
      he d (List.mem_cons.2 (.inl (List.mem_singleton.1 hd)))
    unfold addAll
    rw [results_bind]
    refine (results_addEdge_extends hs.sinks (hsink e List.mem_cons_self)).mono
      (fun more g hg => ?_) fun _ _ h => h
    refine (ih (hg.leadsTo hs hsink) fun d hd => he d (List.mem_cons_of_mem _ hd)).mono
      (fun _ g' hg' => ⟨hg'.1, fun d hd hknown => ?_⟩) fun _ _ h => h
    obtain ⟨d', hd', hsource, -⟩ := hg.exists_of_known (.inl hd) hknown
    obtain ⟨d'', hd'', hsource'⟩ := hg'.2 d' hd' (hsource ▸ hknown)
    exact ⟨d'', hd'', hsource'.trans hsource⟩

end HeapM

end Refuter
