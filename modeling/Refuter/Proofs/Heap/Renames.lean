import Refuter.Proofs.Heap.Operations
import Mathlib.Data.List.Forall2
import Mathlib.Data.Nat.Basic

/-!
# Renames reach all edges but those in flight

Merging and narrowing replace a choice in every edge of the store. They cannot see the edges that
an operation holds outside of it: edges that it is moving to another frame, and the ends of the
rule that it is applying. If such an edge is put back it brings the replaced choice with it, and
what was one unknown has become two. Nothing else can bring a replaced choice back.
-/

namespace Refuter

open StoreM

/-! ## 1. Replaced pointers -/

namespace HeapStore

variable {F : Pointer → Prop} {old : List (Pointer × Pointer)} {n m : Nat} {s t : HeapStore}
  {x p q : Pointer} {e : Edge}

/-- An edge of the store has the end `x`. -/
def Mentions (s : HeapStore) (x : Pointer) : Prop :=
  ∃ e ∈ s.owed.toList ++ s.produced, e.mentions x = true

instance (s : HeapStore) (x : Pointer) : Decidable (s.Mentions x) :=
  inferInstanceAs (Decidable (∃ e ∈ s.owed.toList ++ s.produced, e.mentions x = true))

/-- One of the renames that came after `old` replaced `x`. -/
def Replaced (old : List (Pointer × Pointer)) (s : HeapStore) (x : Pointer) : Prop :=
  ∃ q, (x, q) ∈ s.renames.drop old.length

/-- `x` has no number that is still to be handed out, unless it is one of `F`. -/
def Numbered (F : Pointer → Prop) (n : Nat) (x : Pointer) : Prop :=
  F x ∨ ∀ i, x.id? = some i → i < n

/-- What an edge may mention: pointers that were not replaced, and those of `F`. -/
def Usable (F : Pointer → Prop) (old : List (Pointer × Pointer)) (n : Nat) (s : HeapStore)
    (x : Pointer) : Prop :=
  F x ∨ (∀ i, x.id? = some i → i < n) ∧ ¬ s.Replaced old x

/-- All edges keep to pointers that they may mention. -/
structure Tidy (F : Pointer → Prop) (old : List (Pointer × Pointer)) (n : Nat) (s : HeapStore) :
    Prop where
  since : old <+: s.renames
  owed : ∀ e ∈ s.owed, e.Within (s.Usable F old n)
  produced : ∀ e ∈ s.produced, e.Within (s.Usable F old n)
  replaced : ∀ x, s.Replaced old x → x.isChoice = true ∧ Numbered F n x

theorem Numbered.mono (hn : n ≤ m) (hx : Numbered F n x) : Numbered F m x :=
  hx.imp_right fun hid i hi => lt_of_lt_of_le (hid i hi) hn

theorem Usable.mono (hn : n ≤ m) (hx : s.Usable F old n x) : s.Usable F old m x :=
  hx.imp_right fun h => ⟨fun i hi => lt_of_lt_of_le (h.1 i hi) hn, h.2⟩

theorem Usable.numbered (hx : s.Usable F old n x) : Numbered F n x := hx.imp_right And.left

namespace Tidy

theorem usable_known (hs : s.Tidy F old n) (y : Location) : s.Usable F old m (.known y) := by
  refine .inr ⟨fun i hi => ?_, fun hr => ?_⟩
  · cases hi
  · cases (hs.replaced _ hr).1

/-- A store with the same renames, whose edges are usable there. -/
theorem of_edges (hs : s.Tidy F old n) (hr : t.renames = s.renames)
    (howed : ∀ e ∈ t.owed, e.Within (s.Usable F old n))
    (hproduced : ∀ e ∈ t.produced, e.Within (s.Usable F old n)) : t.Tidy F old n := by
  have husable : t.Usable F old n = s.Usable F old n := by
    unfold Usable Replaced
    rw [hr]
  refine ⟨hr ▸ hs.since, husable ▸ howed, husable ▸ hproduced, fun x hx => hs.replaced x ?_⟩
  unfold Replaced at hx ⊢
  exact hr ▸ hx

theorem mono : Monotone fun n s => Tidy F old n s := fun _ _ hn _ hs =>
  { since := hs.since
    owed := fun e he => (hs.owed e he).mono fun _ => Usable.mono hn
    produced := fun e he => (hs.produced e he).mono fun _ => Usable.mono hn
    replaced := fun x hx => ⟨(hs.replaced x hx).1, (hs.replaced x hx).2.mono hn⟩ }

theorem insert (hs : s.Tidy F old n) (he : e.Within (s.Usable F old n)) :
    Tidy F old n { s with owed := s.owed.insert e } := by
  refine hs.of_edges rfl (fun d hd => ?_) hs.produced
  rcases SortedSet.mem_insert.1 hd with rfl | hd
  · exact he
  · exact hs.owed d hd

theorem log (hs : s.Tidy F old n) (he : e.Within (s.Usable F old n)) :
    Tidy F old n { s with produced := s.produced ++ [e] } := by
  refine hs.of_edges rfl hs.owed fun d hd => ?_
  rcases List.mem_append.1 hd with hd | hd
  · exact hs.produced d hd
  · exact List.mem_singleton.1 hd ▸ he

/-- In a tidy store a replaced pointer is mentioned only if it is one of `F`. -/
theorem of_mentions (hs : s.Tidy F old n)
    (hreplaced : s.Replaced old x) (hx : s.Mentions x) : F x := by
  obtain ⟨e, he, hx⟩ := hx
  have hwithin : e.Within (s.Usable F old n) := by
    rcases List.mem_append.1 he with he | he
    · exact hs.owed e he
    · exact hs.produced e he
  have husable : s.Usable F old n x := by
    rcases Edge.mentions_iff.1 hx with rfl | rfl
    · refine hwithin.source.resolve_left fun hknown => ?_
      rw [(hs.replaced _ hreplaced).1] at hknown
      cases hknown
    · exact hwithin.sink
  exact husable.resolve_right fun h => h.2 hreplaced

end Tidy

/-- The session hands out `n` next and has the options `o`. -/
def Counts (o : Options) (n : Nat) (session : Session) : Prop :=
  session.nextId = n ∧ session.options = o

theorem counts_of_notes {o : Options} ⦃n : Nat⦄ ⦃session session' : Session⦄
    (h : session.Notes session') (hcounts : Counts o n session) : Counts o n session' := by
  obtain ⟨journal, rfl⟩ := h
  exact hcounts

theorem dropLaw_tidy {o : Options} :
    DropLaw (Counts o) (fun n s => Tidy F old n s) fun _ => True where
  mono := Tidy.mono
  notes := counts_of_notes
  keep _ hs := hs.of_edges rfl (fun e he => hs.owed e (SortedSet.mem_filter.1 he).1) hs.produced
  forget _ hs := hs.of_edges rfl hs.owed fun e he => hs.produced e (List.mem_filter.1 he).1
  refuted hs := hs.of_edges rfl hs.owed hs.produced
  refutes _ := trivial

/-! ### A rename -/

/-- The store after `p` was replaced by `q`. -/
def renamed (p q : Pointer) (s : HeapStore) : HeapStore :=
  if p = q then s else { s.replace p q with renames := s.renames ++ [(p, q)] }

theorem replaced_renamed (hs : old <+: s.renames) (hx : (s.renamed p q).Replaced old x) :
    s.Replaced old x ∨ x = p ∧ p ≠ q := by
  unfold renamed at hx
  split at hx
  · exact .inl hx
  · rename_i hne
    obtain ⟨r, hr⟩ := hx
    change (x, r) ∈ (s.renames ++ [(p, q)]).drop old.length at hr
    rw [List.drop_append_of_le_length hs.length_le] at hr
    rcases List.mem_append.1 hr with hr | hr
    · exact .inl ⟨r, hr⟩
    · cases List.mem_singleton.1 hr
      exact .inr ⟨rfl, hne⟩

/-- Pointers other than the replaced one stay usable. -/
theorem Usable.renamed (hs : old <+: s.renames) (hx : s.Usable F old n x)
    (hF : x = p → p ≠ q → F x) : (s.renamed p q).Usable F old n x := by
  rcases hx with hx | ⟨hid, hx⟩
  · exact .inl hx
  · by_cases h : x = p ∧ p ≠ q
    · exact .inl (hF h.1 h.2)
    · exact .inr ⟨hid, fun hr => (replaced_renamed hs hr).elim hx h⟩

theorem within_renamed (hs : old <+: s.renames) (he : e.Within (s.Usable F old n))
    (hq : p ≠ q → s.Usable F old n q) : (e.rename p q).Within ((s.renamed p q).Usable F old n) := by
  by_cases heq : p = q
  · subst heq
    rw [Edge.rename_self, show s.renamed p p = s from if_pos rfl]
    exact he
  have hq : (s.renamed p q).Usable F old n q :=
    (hq heq).renamed hs fun h hne => absurd h.symm hne
  refine ⟨?_, ?_⟩
  · show (if e.source = p then q else e.source).isChoice = false ∨
      (s.renamed p q).Usable F old n (if e.source = p then q else e.source)
    split
    · exact .inr hq
    · rename_i hne
      exact he.source.imp_right fun h => h.renamed hs fun h _ => absurd h hne
  · show (s.renamed p q).Usable F old n (if e.sink = p then q else e.sink)
    split
    · exact hq
    · rename_i hne
      exact he.sink.renamed hs fun h _ => absurd h hne

/-- `q` may take the place of `p`. -/
def Replaces (F : Pointer → Prop) (old : List (Pointer × Pointer)) (n : Nat) (s : HeapStore)
    (p q : Pointer) : Prop :=
  p ≠ q → p.isChoice = true ∧ Numbered F n p ∧ s.Usable F old n q

theorem replaces_of_becomes (h : p.Becomes (s.Usable F old n) q) : s.Replaces F old n p q := by
  intro hne
  rcases h with heq | ⟨hchoice, hp, hq⟩
  · exact absurd heq.symm hne
  · exact ⟨hchoice, hp.numbered, hq⟩

theorem Tidy.renamed (hs : s.Tidy F old n) (hpq : s.Replaces F old n p q) :
    (s.renamed p q).Tidy F old n := by
  have hedge : ∀ d : Edge, d.Within (s.Usable F old n) →
      (d.rename p q).Within ((s.renamed p q).Usable F old n) := fun d hd =>
    within_renamed hs.since hd fun hne => (hpq hne).2.2
  have hreplaced : ∀ x, (s.renamed p q).Replaced old x → x.isChoice = true ∧ Numbered F n x := by
    intro x hx
    rcases replaced_renamed hs.since hx with hx | ⟨rfl, hne⟩
    · exact hs.replaced x hx
    · exact ⟨(hpq hne).1, (hpq hne).2.1⟩
  by_cases heq : p = q
  · rw [show s.renamed p q = s from if_pos heq]
    exact hs
  have hstore : s.renamed p q = { s.replace p q with renames := s.renames ++ [(p, q)] } :=
    if_neg heq
  refine ⟨?_, fun e he => ?_, fun e he => ?_, hreplaced⟩
  · rw [hstore]
    exact hs.since.trans (List.prefix_append _ _)
  · rw [hstore] at he
    obtain ⟨d, hd, rfl⟩ := SortedSet.mem_map.1 he
    exact hedge d (hs.owed d hd)
  · rw [hstore] at he
    obtain ⟨d, hd, rfl⟩ := List.mem_map.1 he
    exact hedge d (hs.produced d hd)

/-! ### New pointers -/

/-- Pointers that merging and narrowing make of usable ones are usable in the same store. -/
theorem Tidy.law_usable (hs : s.Tidy F old n) {o : Options} :
    Pointer.Law (fun m session => n ≤ m ∧ Counts o m session) (fun _ => True)
      fun m => s.Usable F old m where
  mono _ _ hm _ h := h.mono hm
  candidates _ _ := trivial
  known _ := hs.usable_known _
  make {m cs} session hJ := by
    obtain ⟨hn, rfl, ho⟩ := hJ
    obtain ⟨-, heq⟩ | ⟨y, -, heq⟩ | ⟨-, heq⟩ := Pointer.ofCandidates_cases cs session.nextId
    · rw [heq]
      exact ⟨session.nextId, le_refl _, ⟨hn, rfl, ho⟩, fun p hp => by cases hp⟩
    · rw [heq]
      refine ⟨session.nextId, le_refl _, ⟨hn, rfl, ho⟩, fun p hp _ => ?_⟩
      cases hp
      exact hs.usable_known y
    · rw [heq]
      refine ⟨session.nextId + 1, Nat.le_succ _, ⟨Nat.le_succ_of_le hn, rfl, ho⟩, fun p hp _ => ?_⟩
      cases hp
      by_cases hF : F (.choice session.nextId cs)
      · exact .inl hF
      refine .inr ⟨fun i hi => ?_, fun hr => ?_⟩
      · cases hi
        exact Nat.lt_succ_self _
      · -- a replaced pointer has a number that was handed out before
        have hlt := ((hs.replaced _ hr).2.resolve_left hF) session.nextId rfl
        omega

/-- The law is about a session that has handed out `n` numbers at least; so has a session that
hands out `n` next. -/
theorem draws_of_counts {α : Type} {o : Options} {x : Fresh α} {Q : Nat → α → Prop}
    (h : Draws (fun m session => n ≤ m ∧ Counts o m session) n x Q) : Draws (Counts o) n x Q := by
  intro session hJ
  obtain ⟨m, hm, hcounts, hQ⟩ := h session ⟨le_refl n, hJ⟩
  exact ⟨m, hm, hcounts.2, hQ⟩

end HeapStore

/-! ## 2. Operations -/

/-- Pointers that are held while a rule is applied: the new sink and the premises come into the
store only after the ends of the obligation were replaced, the shown edge after all premises. -/
def Binding.InFlight (b : Binding) (r : Rule) (logged : Bool) (x : Pointer) : Prop :=
  b.obligation.mentions x = true ∧ (x = b.sink ∨ ∃ e ∈ (b.apply r).premises, e.mentions x = true) ∨
  logged = true ∧ (b.apply r).shown.mentions x = true

namespace HeapM

open HeapStore

variable {F : Pointer → Prop} {old : List (Pointer × Pointer)} {o : Options} {n : Nat}
  {s : HeapStore} {p q : Pointer} {e : Edge} {α : Type} {h : HeapGraph}

/-- However `x` ends, it leaves a tidy store tidy. -/
abbrev Tidies (F : Pointer → Prop) (old : List (Pointer × Pointer)) (o : Options) (n : Nat)
    (x : HeapM α) (Q : Nat → α → Prop) : Prop :=
  Evolves (Counts o) (fun n s => Tidy F old n s) (fun _ => True) n x Q

abbrev TidiesOn (F : Pointer → Prop) (old : List (Pointer × Pointer)) (o : Options) (n : Nat)
    (s : HeapStore) (x : HeapM α) (Q : Nat → α → HeapStore → Prop) : Prop :=
  EvolvesOn (Counts o) (fun n s => Tidy F old n s) (fun _ => True) n s x Q

theorem tidiesOn_refute {r : Refutation} {Q : Nat → α → HeapStore → Prop} (hs : s.Tidy F old n) :
    TidiesOn F old o n s (refute r) Q := by
  have hrefute : TidiesOn F old o n s (refute (α := α) r) fun _ _ _ => False :=
    (evolves_refute dropLaw_tidy).on hs
  exact hrefute.mono fun _ _ _ _ _ h => h.elim

theorem tidiesOn_discharge (hs : s.Tidy F old n) (e : Edge) :
    TidiesOn F old o n s (discharge e) fun n' _ t =>
      n' = n ∧ t = { s with owed := s.owed.erase e } :=
  evolvesOn_modifyStore (dropLaw_tidy (o := o).keep _ hs)

theorem tidiesOn_rename (hs : s.Tidy F old n) (hpq : s.Replaces F old n p q) :
    TidiesOn F old o n s (rename p q) fun n' _ t => n' = n ∧ t = s.renamed p q := by
  have hrenamed : (s.renamed p q).Tidy F old n := hs.renamed hpq
  unfold rename
  by_cases heq : p = q
  · rw [if_pos heq]
    exact evolvesOn_pure hs ⟨rfl, (if_pos heq).symm⟩
  · have hstore : s.renamed p q = { s.replace p q with renames := s.renames ++ [(p, q)] } :=
      if_neg heq
    rw [if_neg heq]
    rw [hstore] at hrenamed ⊢
    exact fun _ hJ => ⟨n, le_refl n, hJ, hrenamed, rfl, rfl⟩

/-- Pointers that are not replaced stay usable, and so do those of `F`. -/
def Keeps (F : Pointer → Prop) (old : List (Pointer × Pointer)) (n : Nat) (s t : HeapStore)
    (p : Pointer) : Prop :=
  ∀ y, s.Usable F old n y → (p = y → F y) → t.Usable F old n y

theorem tidiesOn_rename_keeps (hs : s.Tidy F old n) (hpq : s.Replaces F old n p q) :
    TidiesOn F old o n s (rename p q) fun n' _ t => n' = n ∧ Keeps F old n s t p :=
  (tidiesOn_rename hs hpq).mono fun _ _ _ _ _ heq => ⟨heq.1, fun _ hy hF =>
    heq.2 ▸ hy.renamed hs.since fun h _ => hF h.symm⟩

/-- What an edge may mention before, it may mention after the renames that were caused. -/
def Carries (F : Pointer → Prop) (old : List (Pointer × Pointer)) (n : Nat) (s : HeapStore)
    (n' : Nat) (caused : List (Pointer × Pointer)) (t : HeapStore) : Prop :=
  ∀ e : Edge, e.Within (s.Usable F old n) → (e.renameAll caused).Within (t.Usable F old n')

theorem tidiesOn_renameChoices {olds : List Pointer} (hs : s.Tidy F old n)
    (hp : s.Usable F old n p) (holds : ∀ x ∈ olds, Numbered F n x) :
    TidiesOn F old o n s (renameChoices p olds) (Carries F old n s) := by
  induction olds generalizing s with
  | nil => exact evolvesOn_pure hs fun e he => he
  | cons x rest ih =>
    have hrest : ∀ y ∈ rest, Numbered F n y := fun y hy => holds y (List.mem_cons_of_mem _ hy)
    unfold renameChoices
    split
    · rename_i htest
      obtain ⟨hne, hchoice⟩ := Bool.and_eq_true_iff.1 htest
      have hne : x ≠ p := of_decide_eq_true hne
      have hreplaces : s.Replaces F old n x p := fun _ =>
        ⟨hchoice, holds x List.mem_cons_self, hp⟩
      refine (tidiesOn_rename hs hreplaces).bind fun n₁ _ t _ ht heq => ?_
      obtain ⟨rfl, rfl⟩ := heq
      -- `p` is not what was replaced, so it can take the place of the others as well
      have hp' : (s.renamed x p).Usable F old n₁ p :=
        hp.renamed hs.since fun heq => absurd heq.symm hne
      refine (ih ht hp' hrest).bind fun n₂ caused u _ hu hcarries =>
        evolvesOn_pure hu fun e he => ?_
      exact hcarries _ (within_renamed hs.since he fun _ => hp)
    · exact ih hs hp hrest

theorem tidiesOn_addEdge (hs : s.Tidy F old n) (he : e.Within (s.Usable F old n)) :
    TidiesOn F old o n s (addEdge e) (Carries F old n s) := by
  intro session hJ
  have hdraws : ∀ bound, binding? s e = some bound → ∀ r m,
      Pointer.merge session.options.narrowFromConstraints bound.sink e.sink session.nextId =
        (r, m) →
      n ≤ m ∧ Counts o m { session with nextId := m } ∧ ∀ p ∈ r, s.Usable F old m p := by
    intro bound hbound r m hmerge
    have hbound : bound.Within (s.Usable F old n) := hs.owed bound (binding?_eq_some hbound).2.1
    have law := hs.law_usable (o := o)
    obtain ⟨m', hm, hJ', hr⟩ := draws_of_counts (Pointer.draws_merge law (.inr hbound.sink)
      (.inr he.sink)) session hJ
    rw [hmerge] at hJ' hr
    obtain rfl : m = m' := hJ'.1
    exact ⟨hm, hJ', fun p hp => (hr p hp).admits law (he.sink.mono hm)⟩
  apply results_addEdge
  · exact fun _ => ⟨n, le_refl n, hJ, hs, trivial⟩
  · exact fun _ => ⟨n, le_refl n, hJ, hs.insert he, fun d hd => hd⟩
  · -- a merge uses up numbers even if nothing comes of it
    intro bound m hbound hmerge
    obtain ⟨hm, hJ', -⟩ := hdraws bound hbound _ m hmerge
    exact (tidiesOn_refute (Tidy.mono hm s hs)).later hm hJ'
  · intro bound p m hbound hmerge
    obtain ⟨hm, hJ', hp⟩ := hdraws bound hbound _ m hmerge
    have hnumbered : ∀ x ∈ [bound.sink, e.sink], Numbered F m x := by
      intro x hx
      rcases List.mem_cons.1 hx with rfl | hx
      · exact (hs.owed bound (binding?_eq_some hbound).2.1).sink.numbered.mono hm
      · exact List.mem_singleton.1 hx ▸ he.sink.numbered.mono hm
    have hrenames := tidiesOn_renameChoices (o := o) (Tidy.mono hm s hs) (hp p rfl) hnumbered
    refine (hrenames.mono fun m' caused t _ _ hcarries d hd => ?_).later hm hJ'
    exact hcarries d (hd.mono fun _ => Usable.mono hm)

theorem tidiesOn_addEdges {renames : List (Pointer × Pointer)} {edges : List Edge}
    (hs : s.Tidy F old n) (he : ∀ e ∈ edges, (e.renameAll renames).Within (s.Usable F old n)) :
    TidiesOn F old o n s (addEdges renames edges) fun _ _ _ => True := by
  induction edges generalizing renames s n with
  | nil => exact evolvesOn_pure hs trivial
  | cons e rest ih =>
    refine (tidiesOn_addEdge hs (he e List.mem_cons_self)).bind fun n₁ caused t _ ht hcarries => ?_
    -- the edges to come go through the renames that `e` caused before they are added
    refine ih ht fun d hd => ?_
    rw [Edge.renameAll_append]
    exact hcarries _ (he d (List.mem_cons_of_mem _ hd))

theorem tidies_narrowRounds (rounds : Nat) :
    Tidies F old o n (narrowRounds h rounds) fun _ _ => True := by
  induction rounds generalizing n with
  | zero => exact evolves_pure trivial
  | succ rounds ih =>
    refine evolves_of_on fun s hs => ?_
    refine (Evolves.on_eq Tidy.mono evolves_store hs).bind fun n₁ a t _ ht hstore => ?_
    obtain ⟨rfl, rfl⟩ := hstore
    have hdraws := draws_of_counts (NarrowStep.draws_first (ht.law_usable (o := o)) (h := h)
      fun e he => ht.owed e he)
    refine (Evolves.on_eq Tidy.mono (evolves_fresh (fun _ _ _ => le_refl _) hdraws) ht).bind
      fun n₂ step u _ hu hstep => ?_
    obtain ⟨rfl, hstep⟩ := hstep
    cases step with
    | done => exact evolvesOn_pure hu trivial
    | stuck e => exact tidiesOn_refute hu
    | rename p q =>
      obtain ⟨hchoice, hp, hq⟩ := hstep p q rfl
      refine (tidiesOn_rename hu fun _ => ⟨hchoice, hp.numbered, hq⟩).bind fun n₃ _ v _ hv _ => ?_
      exact ih.on hv

theorem tidies_narrow : Tidies F old o n (narrow h) fun _ _ => True := by
  refine evolves_options.bind fun _ _ _ _ => ?_
  split
  · exact evolves_store.bind fun _ s _ _ => tidies_narrowRounds _
  · exact evolves_pure trivial

/-! ### Rules -/

theorem tidies_logProduced (he : ∀ x, e.mentions x = true → F x) :
    Tidies F old o n (logProduced e) fun _ _ => True := by
  refine evolves_modifyStore fun s hs => ?_
  split
  · exact hs
  · refine hs.log ⟨.inr (.inl (he _ ?_)), .inl (he _ ?_)⟩
    · exact Edge.mentions_iff.2 (.inl rfl)
    · exact Edge.mentions_iff.2 (.inr rfl)

theorem tidiesOn_apply {site : Site} {r : Rule} {b : Binding} (hs : s.Tidy F old n)
    (hr : r.Within (s.Usable F old n)) (hb : b.Within (s.Usable F old n) r)
    (hheld : ∀ x, b.InFlight r (!site.inLoop) x → F x) :
    TidiesOn F old o n s (apply h site r b) fun _ _ _ => True := by
  unfold apply
  refine (Evolves.on_eq Tidy.mono (evolves_note (fun _ _ _ => le_refl _) counts_of_notes)
    hs).bind fun n₁ _ t hn ht heq => ?_
  obtain ⟨rfl, -⟩ := heq
  have hr : r.Within (t.Usable F old n₁) := hr.mono fun _ => Usable.mono hn
  have hb : b.Within (t.Usable F old n₁) r := hb.mono fun _ => Usable.mono hn
  have hrule : (b.apply r).Within (t.Usable F old n₁) :=
    Binding.Within.apply (G := fun m => t.Usable F old m) (ht.law_usable (o := o)) hb hr
  refine (tidiesOn_discharge ht b.obligation).bind fun n₂ _ t₁ _ ht₁ heq => ?_
  obtain ⟨rfl, rfl⟩ := heq
  refine (tidiesOn_rename_keeps ht₁ (replaces_of_becomes hb.source.left)).bind
    fun n₃ _ t₂ _ ht₂ hkeeps => ?_
  obtain ⟨rfl, hsource⟩ := hkeeps
  refine (tidiesOn_rename_keeps ht₂ fun hne => ?_).bind fun n₄ _ t₃ _ ht₃ hkeeps => ?_
  · -- the first rename could have replaced the new sink
    obtain ⟨hchoice, hnumbered, husable⟩ := replaces_of_becomes hb.sink.left hne
    refine ⟨hchoice, hnumbered, hsource b.sink husable fun heq => hheld _ (.inl ⟨?_, .inl rfl⟩)⟩
    exact Edge.mentions_iff.2 (.inl heq)
  obtain ⟨rfl, hsink⟩ := hkeeps
  -- the premises were made before the two renames, which replace ends of the obligation only
  have husable : ∀ y, t.Usable F old n₄ y → (b.obligation.mentions y = true → F y) →
      t₃.Usable F old n₄ y := by
    intro y hy hF
    apply hsink y
    · exact hsource y hy fun heq => hF (Edge.mentions_iff.2 (.inl heq))
    · exact fun heq => hF (Edge.mentions_iff.2 (.inr heq))
  refine (tidiesOn_addEdges ht₃ fun e he => ?_).bind fun n₅ _ u _ hu _ => ?_
  · have hF : ∀ y, e.mentions y = true → b.obligation.mentions y = true → F y := fun y hy hobl =>
      hheld y (.inl ⟨hobl, .inr ⟨e, he, hy⟩⟩)
    have hwithin := hrule.premises e he
    refine ⟨hwithin.source.imp_right fun hsource => husable _ hsource (hF _ ?_),
      husable _ hwithin.sink (hF _ ?_)⟩
    · exact Edge.mentions_iff.2 (.inl rfl)
    · exact Edge.mentions_iff.2 (.inr rfl)
  split
  · rename_i hlog
    refine ((tidies_logProduced fun x hx => hheld x (.inr ⟨hlog, hx⟩)).bind fun _ _ _ _ => ?_).on hu
    exact tidies_narrow
  · exact tidies_narrow.on hu

theorem tidiesOn_dispatch {site : Site} {i : Instruction} {rules : List Rule}
    (hs : s.Tidy F old n) (hrules : ∀ r ∈ rules, r.Within (s.Usable F old n))
    (hheld : ∀ r ∈ rules, ∀ b : Binding, b.Fits o.narrowFromConstraints s r →
      ∀ x, b.InFlight r (!site.inLoop) x → F x) :
    TidiesOn F old o n s (dispatch h site i rules) fun n' rest _ =>
      ∀ t ∈ rest, t.Tidy F old n' := by
  have hmono : ∀ {m m' : Nat}, m ≤ m' → s.Usable F old m ≤ s.Usable F old m' :=
    fun hm _ => Usable.mono hm
  refine evolvesOn_dispatch dropLaw_tidy (B := fun n' r b => r ∈ rules ∧
    r.Within (s.Usable F old n') ∧ b.Fits o.narrowFromConstraints s r ∧
      b.Within (s.Usable F old n') r) (fun m m' hm r b hrb => ?_) hs
    (fun r hr m session hm hJ => ?_) fun r b m hm hrb => ?_
  · exact ⟨hrb.1, hrb.2.1.mono (hmono hm), hrb.2.2.1, hrb.2.2.2.mono (hmono hm)⟩
  · have hs : s.Tidy F old m := Tidy.mono hm s hs
    have hwithin : r.Within (s.Usable F old m) := (hrules r hr).mono (hmono hm)
    rw [hJ.2]
    refine Draws.mono (draws_of_counts (Classification.draws_ofRule hs.law_usable hs.owed hwithin))
      fun m' c hm' hc bindings heq b hb => ?_
    exact ⟨hr, hwithin.mono (hmono hm'), hc bindings heq b hb⟩
  · obtain ⟨hr, hwithin, hfits, hb⟩ := hrb
    exact tidiesOn_apply (Tidy.mono hm s hs) hwithin hb (hheld r hr b hfits)

/-! ### Edges that move -/

variable {edges : List Edge} {x y : Location}

theorem within_moved (hs : s.Tidy F old n) (he : e.Within (s.Usable F old n)) :
    (e.rename (.known x) (.known y)).Within (s.Usable F old n) :=
  he.rename (.inl rfl) fun _ => hs.usable_known y

/-- An edge that may be put into any store, whatever was replaced there. -/
def Lasting (F : Pointer → Prop) (old : List (Pointer × Pointer)) (e : Edge) : Prop :=
  ∀ n (s : HeapStore), s.Tidy F old n → e.Within (s.Usable F old n)

theorem lasting_of_mem_edgesOf (he : e ∈ edgesOf s (.known x)) (hsink : F e.sink) :
    Lasting F old e := by
  have hsource : e.source = .known x := of_decide_eq_true (List.mem_filter.1 he).2
  exact fun n t _ => ⟨.inl (hsource ▸ rfl), .inl hsink⟩

/-- When the first edge is added, the others are in flight. -/
theorem tidiesOn_moveEdges (hs : s.Tidy F old n)
    (hhead : ∀ e ∈ edges.head?, e.Within (s.Usable F old n))
    (htail : ∀ e ∈ edges.tail, Lasting F old e) :
    TidiesOn F old o n s (moveEdges (.known x) (.known y) edges) fun _ _ _ => True := by
  induction edges generalizing s n with
  | nil => exact evolvesOn_pure hs trivial
  | cons e rest ih =>
    unfold moveEdges
    refine (tidiesOn_discharge hs e).bind fun n₁ _ t _ ht heq => ?_
    obtain ⟨rfl, rfl⟩ := heq
    refine (tidiesOn_addEdge ht (within_moved ht (hhead e rfl))).bind fun n₂ _ u _ hu _ => ?_
    -- adding `e` may have renamed anything, so the next edge needs more than being owed before
    exact ih hu (fun d hd => htail d (List.mem_of_mem_head? hd) n₂ u hu)
      fun d hd => htail d (List.mem_of_mem_tail hd)

theorem tidiesOn_addAll (hs : s.Tidy F old n)
    (hhead : ∀ e ∈ edges.head?, e.Within (s.Usable F old n))
    (htail : ∀ e ∈ edges.tail, Lasting F old e) :
    TidiesOn F old o n s (addAll edges) fun _ _ _ => True := by
  induction edges generalizing s n with
  | nil => exact evolvesOn_pure hs trivial
  | cons e rest ih =>
    unfold addAll
    refine (tidiesOn_addEdge hs (hhead e rfl)).bind fun n₁ _ t _ ht _ => ?_
    exact ih ht (fun d hd => htail d (List.mem_of_mem_head? hd) n₁ t ht)
      fun d hd => htail d (List.mem_of_mem_tail hd)

theorem tidiesOn_visitReturn {site : Site} {value : Option Operand} (hs : s.Tidy F old n)
    (hheld : ∀ e ∈ (edgesOf s (.result site.method)).tail, F e.sink) :
    TidiesOn F old o n s (visitReturn site value) fun _ _ _ => True := by
  unfold visitReturn
  refine (Evolves.on_eq Tidy.mono evolves_store hs).bind fun n₁ a t _ ht heq => ?_
  obtain ⟨rfl, rfl⟩ := heq
  split
  · exact evolvesOn_pure ht trivial
  · refine tidiesOn_moveEdges ht (fun e he => ?_) fun e he => ?_
    · exact ht.owed e (mem_of_mem_edgesOf (List.mem_of_mem_head? he))
    · exact lasting_of_mem_edgesOf (List.mem_of_mem_tail he) (hheld e he)
  · exact tidiesOn_refute ht

theorem tidiesOn_visit {site : Site} {i : Instruction} {rules : List Rule} (hs : s.Tidy F old n)
    (hrules : ∀ r ∈ rules, r.Within (s.Usable F old n))
    (hmoving : ∀ value, i = .ret value → ∀ e ∈ (edgesOf s (.result site.method)).tail, F e.sink)
    (happlied : (∀ value, i ≠ .ret value) → ∀ r ∈ rules, ∀ b : Binding,
      b.Fits o.narrowFromConstraints s r → ∀ x, b.InFlight r (!site.inLoop) x → F x) :
    TidiesOn F old o n s (visit h site i rules) fun n' rest _ => ∀ t ∈ rest, t.Tidy F old n' := by
  unfold visit
  refine (Evolves.on_eq Tidy.mono (evolves_requireFeasible trivial) hs).bind
    fun n₁ _ t hn ht heq => ?_
  obtain ⟨rfl, -⟩ := heq
  split
  · rename_i value
    refine (tidiesOn_visitReturn ht (hmoving value rfl)).bind fun _ _ u _ hu _ => ?_
    exact evolvesOn_pure hu fun t ht => by cases ht
  · rename_i hne
    refine (Evolves.on_eq Tidy.mono evolves_store ht).bind fun n₂ a u hn' hu heq => ?_
    obtain ⟨rfl, rfl⟩ := heq
    refine tidiesOn_dispatch hu (fun r hr => ?_) fun r hr => ?_
    · exact (hrules r (List.mem_filter.1 hr).1).mono fun _ => Usable.mono (le_trans hn hn')
    · exact happlied (fun value heq => hne value heq) r (List.mem_filter.1 hr).1

/-! ### Calls -/

/-- `t` is `s` without some of the owed edges. -/
structure Part (t s : HeapStore) : Prop where
  owed : t.owed.toList.Sublist s.owed.toList
  renames : t.renames = s.renames

/-- `d` is `e` in another frame. -/
def Moved (e d : Edge) : Prop := ∃ x y : Location, d = e.rename (.known x) (.known y)

/-- The edges owed on the formals of a callee. -/
def formalEdges (s : HeapStore) (callee : MethodId) (args : List (Local × Operand)) : List Edge :=
  args.flatMap fun arg => edgesOf s (.slot callee arg.1)

theorem tidiesOn_takeEdges {actual : Option Location} (hs : s.Tidy F old n) :
    TidiesOn F old o n s (takeEdges (.known x) (actual.map .known) edges) fun _ taken t =>
      Part t s ∧ List.Forall₂ Moved edges taken := by
  induction edges generalizing s n with
  | nil => exact evolvesOn_pure hs ⟨⟨.refl _, rfl⟩, .nil⟩
  | cons e rest ih =>
    unfold takeEdges
    refine (tidiesOn_discharge hs e).bind fun n₁ _ t _ ht heq => ?_
    obtain ⟨rfl, rfl⟩ := heq
    cases actual with
    | none => exact tidiesOn_refute ht
    | some y =>
      refine (ih ht).bind fun n₂ taken u _ hu htaken => evolvesOn_pure hu ⟨?_, ?_⟩
      · exact ⟨htaken.1.owed.trans List.filter_sublist, htaken.1.renames⟩
      · exact .cons ⟨x, y, rfl⟩ htaken.2

theorem tidiesOn_takeFormals {caller : Site} {callee : MethodId} {args : List (Local × Operand)}
    {t : HeapStore} (ht : t.Tidy F old n) (hpart : Part t s) :
    TidiesOn F old o n t (takeFormals caller callee args) fun _ taken u =>
      Part u s ∧ ∃ moving, moving.Sublist (formalEdges s callee args) ∧
        List.Forall₂ Moved moving taken := by
  induction args generalizing t n with
  | nil => exact evolvesOn_pure ht ⟨hpart, [], .refl _, .nil⟩
  | cons arg rest ih =>
    have hactual : arg.2.local?.map (Pointer.slot caller.method) =
        (arg.2.local?.map (Location.slot caller.method)).map .known := by
      rw [Option.map_map]
      rfl
    unfold takeFormals
    dsimp only
    rw [hactual]
    refine (Evolves.on_eq Tidy.mono evolves_store ht).bind fun n₁ a u _ hu heq => ?_
    obtain ⟨rfl, rfl⟩ := heq
    refine (tidiesOn_takeEdges hu).bind fun n₂ taken v _ hv htaken => ?_
    -- what the earlier formals took is gone, so the edges taken are a part of those owed at first
    have hpart' : Part v s :=
      ⟨htaken.1.owed.trans hpart.owed, htaken.1.renames.trans hpart.renames⟩
    refine (ih hv hpart').bind fun n₃ more w _ hw hmore => evolvesOn_pure hw ⟨hmore.1, ?_⟩
    obtain ⟨-, moving, hsub, hmoved⟩ := hmore
    refine ⟨edgesOf a (.slot callee arg.1) ++ moving, ?_, List.rel_append htaken.2 hmoved⟩
    exact (hpart.owed.filter _).append hsub

theorem mem_of_mem_formalEdges {callee : MethodId} {args : List (Local × Operand)}
    (he : e ∈ formalEdges s callee args) : ∃ l, e ∈ edgesOf s (.slot callee l) := by
  obtain ⟨arg, -, he⟩ := List.mem_flatMap.1 he
  exact ⟨arg.1, he⟩

theorem exists_of_mem_moved {moving taken : List Edge} {d : Edge}
    (h : List.Forall₂ Moved moving taken) (hd : d ∈ taken) : ∃ e ∈ moving, Moved e d := by
  induction h with
  | nil => cases hd
  | @cons e c _ _ hmoved _ ih =>
    rcases List.mem_cons.1 hd with rfl | hd
    · exact ⟨e, List.mem_cons_self, hmoved⟩
    · obtain ⟨e', he', h'⟩ := ih hd
      exact ⟨e', List.mem_cons_of_mem _ he', h'⟩

/-- The edges that are taken off the formals, where only the first one sees the store as it is. -/
theorem tidiesOn_addTaken {callee : MethodId} {args : List (Local × Operand)} {t : HeapStore}
    {moving taken : List Edge} (hs : s.Tidy F old n) (ht : t.Tidy F old n) (hpart : Part t s)
    (hsub : moving.Sublist (formalEdges s callee args)) (hmoved : List.Forall₂ Moved moving taken)
    (hheld : ∀ e ∈ (formalEdges s callee args).tail, F e.sink) :
    TidiesOn F old o n t (addAll taken) fun _ _ _ => True := by
  have hlasting : ∀ d ∈ taken.tail, Lasting F old d := by
    intro d hd m u hu
    cases hmoved with
    | nil => cases hd
    | cons _ hrest =>
      obtain ⟨e, he, x, y, rfl⟩ := exists_of_mem_moved hrest hd
      have he := hsub.tail.subset he
      obtain ⟨l, hl⟩ := mem_of_mem_formalEdges (List.mem_of_mem_tail he)
      exact within_moved hu (lasting_of_mem_edgesOf hl (hheld e he) m u hu)
  refine tidiesOn_addAll ht (fun d hd => ?_) hlasting
  cases hmoved with
  | nil => cases hd
  | @cons e d' _ _ hfirst _ =>
    cases hd
    obtain ⟨x, y, rfl⟩ := hfirst
    obtain ⟨l, hl⟩ := mem_of_mem_formalEdges (hsub.subset List.mem_cons_self)
    have he : e.Within (s.Usable F old n) := hs.owed e (mem_of_mem_edgesOf hl)
    -- taking edges off renames nothing
    have husable : t.Usable F old n = s.Usable F old n := by
      unfold Usable Replaced
      rw [hpart.renames]
    exact within_moved ht (husable ▸ he)

theorem tidiesOn_returnToCaller {call : Instruction} {caller : Site} (hs : s.Tidy F old n)
    (hheld : ∀ target callee args, call.call? = some (target, callee, args) →
      ∀ e ∈ (formalEdges s callee.id (callee.params.zip args)).tail, F e.sink) :
    TidiesOn F old o n s (returnToCaller call caller) fun _ _ _ => True := by
  unfold returnToCaller
  refine (Evolves.on_eq Tidy.mono (evolves_requireFeasible trivial) hs).bind
    fun n₁ _ t _ ht heq => ?_
  obtain ⟨rfl, -⟩ := heq
  refine (Evolves.on_eq Tidy.mono (evolves_callOf fun _ => trivial) ht).bind
    fun n₂ parts u _ hu hparts => ?_
  obtain ⟨rfl, hcall⟩ := hparts
  obtain ⟨target, callee, args⟩ := parts
  dsimp only
  refine (tidiesOn_takeFormals hu ⟨.refl _, rfl⟩).bind fun n₃ taken v hn hv htaken => ?_
  obtain ⟨hpart, moving, hsub, hmoved⟩ := htaken
  refine (tidiesOn_addTaken (Tidy.mono hn u hu) hv hpart hsub hmoved
    (hheld target callee args hcall)).bind fun n₄ _ w _ hw _ => ?_
  split
  · exact evolvesOn_pure hw trivial
  · refine Evolves.on (evolves_store.bind fun _ s _ _ => ?_) hw
    split
    · exact evolves_refute dropLaw_tidy
    · exact evolves_modifyStore fun s => (dropLaw_tidy (o := o)).forget _

end HeapM

/-! ## 3. What is left of a replaced choice -/

/-- The operations on heap stores that rename. -/
inductive HeapOp where
  | addEdge (e : Edge)
  | narrow (h : HeapGraph)
  | visit (h : HeapGraph) (site : Site) (i : Instruction) (rules : List Rule)
  | returnToCaller (call : Instruction) (caller : Site)

namespace HeapOp

/-- Runs the operation; returns the further cases. -/
def run : HeapOp → HeapM (List HeapStore)
  | addEdge e => do
    let _ ← HeapM.addEdge e
    return []
  | narrow h => do
    HeapM.narrow h
    return []
  | visit h site i rules => HeapM.visit h site i rules
  | returnToCaller call caller => do
    HeapM.returnToCaller call caller
    return []

/-- Edges that the operation is given. -/
def edges : HeapOp → List Edge
  | addEdge e => [e]
  | visit _ _ _ rules => rules.flatMap fun r => r.shown :: r.premises
  | narrow _ | returnToCaller _ _ => []

/-- Edges that the operation moves to another frame, in this order. -/
def moving (s : HeapStore) : HeapOp → List Edge
  | visit _ site (.ret _) _ => HeapM.edgesOf s (.result site.method)
  | returnToCaller call _ =>
    match call.call? with
    | some (_, callee, args) => HeapM.formalEdges s callee.id (callee.params.zip args)
    | none => []
  | _ => []

/-- Rules that the operation applies; a return only moves edges. -/
def rules : HeapOp → List Rule
  | visit _ _ (.ret _) _ => []
  | visit _ _ _ rules => rules
  | _ => []

/-- What a rule shows is logged. -/
def logs : HeapOp → Bool
  | visit _ site _ _ => !site.inLoop
  | _ => false

/-- The operation, run on `s`, holds the pointer outside of the store: in an edge that moves after
another one, or in a rule that it applies. -/
def InFlight (o : Options) (s : HeapStore) (op : HeapOp) (x : Pointer) : Prop :=
  (∃ e ∈ (op.moving s).tail, e.sink = x) ∨
  ∃ r ∈ op.rules, ∃ b : Binding, b.Fits o.narrowFromConstraints s r ∧ b.InFlight r op.logs x

/-- The pointer occurs with a number that the session has not handed out. -/
def Foreign (n : Nat) (s : HeapStore) (op : HeapOp) (x : Pointer) : Prop :=
  (∃ i, x.id? = some i ∧ n ≤ i) ∧ (s.Mentions x ∨ ∃ e ∈ op.edges, e.mentions x = true)

variable {F : Pointer → Prop} {old : List (Pointer × Pointer)} {o : Options} {n : Nat}
  {s : HeapStore} {op : HeapOp}

theorem tidiesOn_run (op : HeapOp) (hs : s.Tidy F old n)
    (hedges : ∀ e ∈ op.edges, e.Within (s.Usable F old n))
    (hheld : ∀ x, op.InFlight o s x → F x) :
    HeapM.TidiesOn F old o n s op.run fun n' rest _ => ∀ t ∈ rest, t.Tidy F old n' := by
  cases op with
  | addEdge e =>
    refine (HeapM.tidiesOn_addEdge hs (hedges e List.mem_cons_self)).bind fun _ _ t _ ht _ => ?_
    exact evolvesOn_pure ht fun u hu => by cases hu
  | narrow h =>
    refine (HeapM.tidies_narrow.on hs).bind fun _ _ t _ ht _ => ?_
    exact evolvesOn_pure ht fun u hu => by cases hu
  | visit h site i rules =>
    have hrule : ∀ r ∈ rules, ∀ e ∈ r.shown :: r.premises, e.Within (s.Usable F old n) :=
      fun r hr e he => hedges e (List.mem_flatMap.2 ⟨r, hr, he⟩)
    refine HeapM.tidiesOn_visit hs (fun r hr => ⟨?_, fun e he => ?_⟩) ?_ ?_
    · exact hrule r hr _ List.mem_cons_self
    · exact hrule r hr e (List.mem_cons_of_mem _ he)
    · rintro value rfl e he
      exact hheld _ (.inl ⟨e, he, rfl⟩)
    · intro hne r hr b hb x hx
      have hrules : (visit h site i rules).rules = rules := by
        cases i with
        | ret value => exact absurd rfl (hne value)
        | _ => rfl
      refine hheld x (.inr ⟨r, ?_, b, hb, hx⟩)
      rw [hrules]
      exact hr
  | returnToCaller call caller =>
    refine (HeapM.tidiesOn_returnToCaller hs fun target callee args hcall e he => ?_).bind
      fun _ _ t _ ht _ => evolvesOn_pure ht fun u hu => by cases hu
    refine hheld _ (.inl ⟨e, ?_, rfl⟩)
    unfold moving
    simp only [hcall]
    exact he

/-- Before the operation nothing is replaced, so only numbers matter. -/
theorem usable_start {x : Pointer} (hx : s.Mentions x ∨ ∃ e ∈ op.edges, e.mentions x = true) :
    s.Usable (fun x => op.InFlight o s x ∨ op.Foreign n s x) s.renames n x := by
  by_cases hnumber : ∃ i, x.id? = some i ∧ n ≤ i
  · exact .inl (.inr ⟨hnumber, hx⟩)
  · refine .inr ⟨fun i hi => ?_, fun hr => ?_⟩
    · by_contra hle
      exact hnumber ⟨i, hi, Nat.le_of_not_lt hle⟩
    · obtain ⟨q, hq⟩ := hr
      rw [List.drop_length] at hq
      cases hq

theorem within_start {e : Edge}
    (he : ∀ x, e.mentions x = true → s.Mentions x ∨ ∃ d ∈ op.edges, d.mentions x = true) :
    e.Within (s.Usable (fun x => op.InFlight o s x ∨ op.Foreign n s x) s.renames n) where
  source := .inr (usable_start (he _ (Edge.mentions_iff.2 (.inl rfl))))
  sink := usable_start (he _ (Edge.mentions_iff.2 (.inr rfl)))

theorem tidy_start : s.Tidy (fun x => op.InFlight o s x ∨ op.Foreign n s x) s.renames n where
  since := List.prefix_refl _
  owed e he := within_start fun _ hx => .inl ⟨e, List.mem_append_left _ he, hx⟩
  produced e he := within_start fun _ hx => .inl ⟨e, List.mem_append_right _ he, hx⟩
  replaced x hx := by
    obtain ⟨q, hq⟩ := hx
    rw [List.drop_length] at hq
    cases hq

/-- In every branch that an operation leaves, a choice that it replaced is mentioned only if the
operation held it outside of the store, or if the choice is none of the session's. -/
theorem inFlight_of_mentions_replaced (op : HeapOp) {f g : Frame HeapStore} {rest : List HeapStore}
    (hrun : op.run f = .ok rest g) :
    ∀ t ∈ g.store :: rest, f.store.renames <+: t.renames ∧
      ∀ r ∈ t.renames.drop f.store.renames.length, t.Mentions r.1 →
        op.InFlight f.session.options f.store r.1 ∨ op.Foreign f.session.nextId f.store r.1 := by
  have hevolves := tidiesOn_run op (o := f.session.options) (n := f.session.nextId) (s := f.store)
    tidy_start (fun e he => within_start fun _ hx => .inr ⟨e, he, hx⟩) fun x hx => .inl hx
  obtain ⟨n, -, -, hg, hrest⟩ := (hevolves f.session ⟨rfl, rfl⟩).of_ok hrun
  intro t ht
  have htidy := List.forall_mem_cons.2 ⟨hg, hrest⟩ t ht
  exact ⟨htidy.since, fun r hr hmentions => htidy.of_mentions ⟨r.2, hr⟩ hmentions⟩

/-! Two formals point to one unknown, and an edge is owed on the actual of the first. -/

namespace TwoFormals

def caller : MethodId := ⟨1⟩

def callee : Method := { id := ⟨2⟩, className := "A", name := "f", params := [1, 2] }

def object (n : UInt32) : Location := .site ⟨n, "A", caller⟩

def shared : Pointer := .choice 0 (.ofList [object 1, object 2, object 3])

def actual : Pointer := .choice 1 (.ofList [object 2, object 3, object 4])

def merged : Pointer := .choice 2 (.ofList [object 2, object 3])

def frame (e : Edge) : Frame HeapStore where
  store := { owed := .ofList [.root (.slot callee.id 1) shared, .root (.slot caller 1) actual, e] }
  session := { nextId := 2 }

def leave : HeapOp := .returnToCaller (.invoke none callee [.slot 1, .slot 2]) { method := caller }

/-- The edge of a field is not in flight, so both choices are gone from it. -/
theorem not_mentions_replaced_field :
    Ends leave.run (frame (.ofField shared (.named "A" "next") (.known (object 5)))) fun _ g =>
      g.store.renames = [(actual, merged), (shared, merged)] ∧
        ∀ r ∈ g.store.renames, ¬ g.store.Mentions r.1 := by
  have hends : Ends leave.run (frame (.ofField shared (.named "A" "next") (.known (object 5))))
      fun _ g => decide (g.store.renames = [(actual, merged), (shared, merged)]) = true :=
    ends_of_endsWith (by decide +kernel)
  obtain ⟨rest, g, hrun, hrenames⟩ := hends
  have hrenames : g.store.renames = [(actual, merged), (shared, merged)] :=
    of_decide_eq_true hrenames
  refine ⟨rest, g, hrun, hrenames, fun r hr hmentions => ?_⟩
  rcases (inFlight_of_mentions_replaced leave hrun _ List.mem_cons_self).2 r hr hmentions with h | h
  · obtain ⟨e, he, -⟩ | ⟨r, hr, -⟩ := h
    · have hmoving : (leave.moving (frame (.ofField shared (.named "A" "next")
          (.known (object 5)))).store).tail = [] := by decide +kernel
      rw [hmoving] at he
      cases he
    · cases hr
  · obtain ⟨⟨i, hi, hle⟩, -⟩ := h
    rw [hrenames] at hr
    have hlt : i < 2 := by
      rcases List.mem_cons.1 hr with rfl | hr
      · cases hi
        decide
      · cases List.mem_singleton.1 hr
        cases hi
        decide
    exact absurd hle (Nat.not_le_of_lt hlt)

/-- The edge of the second formal is in flight when the first one is merged: it brings the choice
back that was replaced. -/
theorem mentions_replaced_formal :
    Ends leave.run (frame (.root (.slot callee.id 2) shared)) fun _ g =>
      (shared, merged) ∈ g.store.renames ∧ g.store.Mentions shared := by
  have hends : Ends leave.run (frame (.root (.slot callee.id 2) shared)) fun _ g =>
      decide ((shared, merged) ∈ g.store.renames ∧ g.store.Mentions shared) = true :=
    ends_of_endsWith (by decide +kernel)
  exact hends.mono fun _ _ h => of_decide_eq_true h

end TwoFormals

end HeapOp

end Refuter
