import Refuter.Proofs.Heap.Application
import Refuter.Proofs.Heap.Substitution

/-!
# Discharging what is owed on a local

The rule of an instruction that defines a local produces the root edge of that local. A choice of
objects never is a local, so the rule meets an owed edge only on the very local, and the edge it
meets is discharged in every case. What is owed instead are the premises, which are not on the
local. Without a rule an edge on the local refutes the store or is given up.
-/

namespace Refuter

open StoreM

/-! ## 1. Edges off a root -/

/-- The edge is over `A`, and it is not a root edge of `x`. -/
structure Edge.OffRoot (A : Location → Prop) (x : Location) (e : Edge) : Prop where
  within : e.Within (Pointer.Over A)
  source : e.isRoot = true → e.source ≠ .known x

/-- Nothing is owed on the root `x`, and all that is owed or renamed is over `A`. -/
structure HeapStore.OffRoot (A : Location → Prop) (x : Location) (s : HeapStore) : Prop where
  owed : ∀ e ∈ s.owed, e.OffRoot A x
  renames : ∀ r ∈ s.renames, r.2.Over A

/-- The rule produces the root edge of `x` and its premises are not on `x`. -/
structure Rule.Defines (A : Location → Prop) (x : Location) (r : Rule) : Prop where
  isRoot : r.shown.isRoot = true
  source : r.shown.source = .known x
  sink : r.shown.sink.Over A
  premises : ∀ e ∈ r.premises, e.OffRoot A x

section OffRoot

variable {A : Location → Prop} {x : Location} {e : Edge} {p q : Pointer} {s t : HeapStore}
  {added : List Edge} {renames more : List (Pointer × Pointer)}

theorem Rule.Defines.within {r : Rule} (h : r.Defines A x) : r.Within (Pointer.Over A) where
  shown := ⟨.inl (h.source ▸ rfl), h.sink⟩
  premises e he := (h.premises e he).within

theorem Pointer.ne_known_of_over (hx : ¬ A x) (hp : p.Over A) : p ≠ .known x := by
  rintro rfl
  exact hx (hp x (SortedSet.mem_singleton.2 rfl))

variable (hx : ¬ A x)
include hx

theorem Edge.OffRoot.rename (h : e.OffRoot A x) (hq : q.Over A) : (e.rename p q).OffRoot A x where
  within := h.within.rename (.inr hq) fun _ => hq
  source hroot := by
    show (if e.source = p then q else e.source) ≠ .known x
    split
    · exact Pointer.ne_known_of_over hx hq
    · exact h.source hroot

theorem Edge.OffRoot.renameAll (h : e.OffRoot A x) (hr : ∀ r ∈ renames, r.2.Over A) :
    (e.renameAll renames).OffRoot A x :=
  Edge.renameAll_induction h fun r hmem _ hd => hd.rename hx (hr r hmem)

theorem HeapStore.Extends.offRoot (h : s.Extends A added more t) (hs : s.OffRoot A x)
    (hadded : ∀ d ∈ added, d.OffRoot A x) : t.OffRoot A x where
  owed e he := by
    obtain ⟨d, hd, rfl⟩ := (h.owed e).1 he
    exact (hd.elim (hs.owed d) (hadded d)).renameAll hx fun r hr => (h.renamed r hr).2
  renames r hr := by
    rw [h.renames] at hr
    exact (List.mem_append.1 hr).elim (hs.renames r) fun hr => (h.renamed r hr).2

end OffRoot

/-! ## 2. Applying a rule -/

namespace HeapM

variable {A : Location → Prop} {x : Location} {f : Frame HeapStore} {h : HeapGraph} {site : Site}

section

variable (hx : ¬ A x)
include hx

theorem results_addEdge_offRoot {e : Edge} (hs : f.store.OffRoot A x) (he : e.OffRoot A x) :
    Results (addEdge e) f
      (fun caused g => g.store.OffRoot A x ∧ ∀ r ∈ caused, r.2.Over A) fun _ _ => True := by
  refine (results_addEdge_extends (fun d hd => (hs.owed d hd).within.sink) he.within.sink).mono
    (fun caused g hg => ⟨hg.offRoot hx hs fun d hd => ?_, fun r hr => (hg.renamed r hr).2⟩)
    fun _ _ h => h
  rw [List.mem_singleton.1 hd]
  exact he

theorem results_addEdges_offRoot {renames : List (Pointer × Pointer)} {edges : List Edge}
    (hs : f.store.OffRoot A x) (hr : ∀ r ∈ renames, r.2.Over A) (he : ∀ e ∈ edges, e.OffRoot A x) :
    Results (addEdges renames edges) f (fun _ g => g.store.OffRoot A x) fun _ _ => True := by
  induction edges generalizing f renames with
  | nil => exact hs
  | cons e rest ih =>
    unfold addEdges
    rw [results_bind]
    refine (results_addEdge_offRoot hx hs ((he e List.mem_cons_self).renameAll hx hr)).mono
      (fun caused g hg => ?_) fun _ _ h => h
    refine ih hg.1 (fun r hmem => ?_) fun d hd => he d (List.mem_cons_of_mem _ hd)
    exact (List.mem_append.1 hmem).elim (hr r) (hg.2 r)

theorem results_rename_offRoot {p q : Pointer} (hs : f.store.OffRoot A x)
    (hpq : p.Becomes (Pointer.Over A) q) :
    Results (rename p q) f (fun _ g => g.store.OffRoot A x) fun _ _ => True := by
  refine (results_rename hpq).mono (fun _ g hg => ?_) fun _ _ h => h
  obtain ⟨more, hg⟩ := hg
  exact hg.offRoot hx hs fun d hd => by cases hd

theorem results_narrowRounds_offRoot (rounds : Nat) (hs : f.store.OffRoot A x) :
    Results (narrowRounds h rounds) f (fun _ g => g.store.OffRoot A x) fun _ _ => True := by
  induction rounds generalizing f with
  | zero => exact hs
  | succ rounds ih =>
    have hdraws : Draws (fun (_ : Timeless) _ => True) .world
        (NarrowStep.first h f.store.owed.toList) fun _ step => step.Within (Pointer.Over A) :=
      NarrowStep.draws_first Pointer.law_over fun e he => (hs.owed e he).within
    obtain ⟨_, -, -, hstep⟩ := hdraws f.session trivial
    unfold narrowRounds
    simp only [results_bind, results_store, results_fresh]
    cases hfirst : (NarrowStep.first h f.store.owed.toList f.session.nextId).1 with
    | done => exact hs
    | stuck e => trivial
    | rename p q =>
      rw [hfirst] at hstep
      dsimp only
      rw [results_bind]
      exact (results_rename_offRoot
        (f := f.supply (NarrowStep.first h f.store.owed.toList f.session.nextId).2) hx hs
        (.inr (hstep p q rfl))).mono (fun _ g hg => ih hg) fun _ _ h => h

theorem results_narrow_offRoot (hs : f.store.OffRoot A x) :
    Results (narrow h) f (fun _ g => g.store.OffRoot A x) fun _ _ => True := by
  unfold narrow
  rw [results_bind, results_options]
  split
  · rw [results_bind, results_store]
    exact results_narrowRounds_offRoot hx _ hs
  · exact hs

/-- Binding a rule leaves its premises off `x`. -/
theorem offRoot_of_mem_apply {r : Rule} {b : Binding} (hr : r.Defines A x)
    (hb : b.Within (Pointer.Over A) r) (hsource : b.source = .known x) {e : Edge}
    (he : e ∈ (b.apply r).premises) : e.OffRoot A x := by
  have hsink : b.sink.Over A := hb.sink.admits Pointer.law_over (w := Timeless.world) hr.sink
  obtain ⟨o, source, sink⟩ := b
  cases hsource
  rw [Binding.premises_apply hr.source] at he
  obtain ⟨d, hd, rfl⟩ := List.mem_map.1 he
  exact (hr.premises d hd).rename hx hsink

/-- A rule that discharges the only edge on `x` leaves a store without one. -/
theorem results_apply_offRoot {r : Rule} {b : Binding}
    (hs : ∀ e ∈ f.store.owed, e.Within (Pointer.Over A))
    (hrenames : ∀ r ∈ f.store.renames, r.2.Over A)
    (honly : ∀ e ∈ f.store.owed, e.isRoot = true → e.source = .known x → e = b.obligation)
    (hr : r.Defines A x) (hb : b.Within (Pointer.Over A) r) (hsource : b.source = .known x) :
    Results (apply h site r b) f (fun _ g => g.store.OffRoot A x) fun _ _ => True := by
  have hdischarged :
      HeapStore.OffRoot A x { f.store with owed := f.store.owed.erase b.obligation } := by
    refine ⟨fun e he => ?_, hrenames⟩
    obtain ⟨he, hne⟩ := SortedSet.mem_erase.1 he
    exact ⟨hs e he, fun hroot hx => hne (honly e he hroot hx)⟩
  unfold apply discharge
  simp only [results_bind, results_debug, results_modifyStore]
  -- nothing that comes after the discharge puts an edge on `x`
  refine (results_rename_offRoot hx hdischarged hb.source.left).mono (fun _ g hg => ?_)
    fun _ _ h => h
  refine (results_rename_offRoot hx hg hb.sink.left).mono (fun _ g hg => ?_) fun _ _ h => h
  refine (results_addEdges_offRoot hx hg (fun r hr => by cases hr) fun e he =>
    offRoot_of_mem_apply hx hr hb hsource he).mono (fun _ g hg => ?_) fun _ _ h => h
  split
  · unfold logProduced
    rw [results_bind, results_modifyStore]
    refine results_narrow_offRoot hx ?_
    dsimp only
    split
    · exact hg
    · exact ⟨hg.owed, hg.renames⟩
  · exact results_narrow_offRoot hx hg

end

/-! ## 3. The cases of a step -/

/-- A rule on a known source fits an edge only on that source. -/
theorem Binding.Fits.source_eq {narrowing : Bool} {s : HeapStore} {r : Rule} {b : Binding}
    (hb : b.Fits narrowing s r) (hr : r.shown.source = .known x) :
    b.obligation.field = r.shown.field ∧ b.source = .known x := by
  obtain ⟨-, n, m, hfits⟩ := hb
  unfold Fit.ofEdge at hfits
  split at hfits
  · cases hfits
  rename_i hfield
  rw [Fresh.bind_apply] at hfits
  cases hmerge : Pointer.merge narrowing b.obligation.source r.shown.source n with
  | mk o n₁ =>
    rw [hmerge] at hfits
    cases o with
    | none => cases hfits
    | some source =>
      have hsource : b.source = source := by
        dsimp only at hfits
        rw [Fresh.bind_apply] at hfits
        -- both of the remaining tests leave the merged source as it is
        cases hsink : Pointer.merge narrowing b.obligation.sink r.shown.sink n₁ with
        | mk o n₂ =>
          rw [hsink] at hfits
          cases o with
          | none =>
            dsimp only at hfits
            have hfit := congrArg Prod.fst hfits
            rw [Fresh.pure_apply] at hfit
            dsimp only at hfit
            split at hfit <;> cases hfit
          | some sink =>
            dsimp only at hfits
            rw [Fresh.bind_apply] at hfits
            have hfit := congrArg Prod.fst hfits
            rw [Fresh.pure_apply] at hfit
            dsimp only at hfit
            split at hfit
            · exact congrArg Binding.source (Fit.fits.inj hfit).symm
            · cases hfit
      refine ⟨not_not.1 hfield, hsource.trans ?_⟩
      obtain heq | hchoice := (Pointer.eq_or_isChoice_of_merge hmerge).2
      · exact heq.symm.trans hr
      · rw [hr] at hchoice
        cases hchoice

/-- If all rules are on roots, the store as it was is no case of its own. -/
theorem results_classify_keepUnapplied {rules : List Rule} {a : Applications}
    (hrules : ∀ r ∈ rules, r.shown.source.isUnique = true) (ha : a.keepUnapplied = false) :
    Results (classify rules a) f (fun a g => g.store = f.store ∧ a.keepUnapplied = false)
      fun _ _ => True := by
  induction rules generalizing f a with
  | nil => exact ⟨rfl, ha⟩
  | cons r rest ih =>
    have hrest := fun r' hr' => hrules r' (List.mem_cons_of_mem r hr')
    unfold classify
    simp only [results_bind, results_options, results_store, results_fresh]
    split
    · refine Results.mono (ih hrest ?_) (fun _ _ h => h) fun _ _ h => h
      rw [ha, hrules r List.mem_cons_self]
      rfl
    · rw [results_bind, results_debug]
      exact Results.mono (ih hrest ha) (fun _ _ h => h) fun _ _ h => h
    · exact Results.mono (ih hrest ha) (fun _ _ h => h) fun _ _ h => h

/-- Giving up edges leaves the others. -/
theorem results_forget {edges : List Edge} :
    Results (forget edges) f (fun _ g => g.store.renames = f.store.renames ∧
      ∀ e ∈ g.store.owed, e ∈ f.store.owed ∧ e ∉ edges) fun _ _ => True := by
  induction edges generalizing f with
  | nil => exact ⟨rfl, fun e he => ⟨he, List.not_mem_nil⟩⟩
  | cons d rest ih =>
    unfold forget discharge
    simp only [results_bind, results_debug, results_modifyStore]
    refine ih.mono (fun _ g hg => ⟨hg.1, fun e he => ?_⟩) fun _ _ h => h
    obtain ⟨he, hrest⟩ := hg.2 e he
    obtain ⟨he, hne⟩ := SortedSet.mem_erase.1 he
    exact ⟨he, List.mem_cons.not.2 (not_or.2 ⟨hne, hrest⟩)⟩

/-- Without a rule an edge on the defined local refutes the store, or it is given up. -/
theorem results_withoutRule_offRoot {i : Instruction} {d : Local} (htarget : i.target? = some d)
    (hcall : i.call? = none) (inconsistent : Nat)
    (hs : ∀ e ∈ f.store.owed, e.Within (Pointer.Over A))
    (hrenames : ∀ r ∈ f.store.renames, r.2.Over A) :
    Results (withoutRule site i inconsistent) f
      (fun _ g => g.store.OffRoot A (.slot site.method d)) fun _ _ => True := by
  -- an instruction that must produce the edges on its local leaves none of them unproduced
  have hkept : unproduced? f.store site i = none → mustProduce i = true →
      f.store.OffRoot A (.slot site.method d) := by
    intro hnone hmust
    unfold unproduced? at hnone
    rw [if_pos hmust, htarget, Option.bind_some, List.head?_eq_none_iff] at hnone
    refine ⟨fun e he => ⟨hs e he, fun hroot hsource => ?_⟩, hrenames⟩
    have hmem : e ∈ rootEdges f.store (.slot site.method d) :=
      mem_rootEdges.2 ⟨he, Option.isNone_iff_eq_none.1 hroot, hsource⟩
    rw [hnone] at hmem
    cases hmem
  unfold withoutRule
  split
  · -- metadata may be anything, so the edges on its local are given up
    cases htarget
    dsimp only
    split
    · trivial
    rw [results_bind, results_store]
    split
    · trivial
    rw [results_bind, results_store]
    refine results_forget.mono (fun _ g hg => ⟨fun e he => ?_, hg.1 ▸ hrenames⟩) fun _ _ h => h
    obtain ⟨he, hnot⟩ := hg.2 e he
    refine ⟨hs e he, fun hroot hsource => hnot ?_⟩
    exact mem_rootEdges.2 ⟨he, Option.isNone_iff_eq_none.1 hroot, hsource⟩
  · rename_i hmetadata
    dsimp only
    split
    · trivial
    rw [results_bind, results_store]
    split
    · trivial
    · rename_i hnone
      refine hkept (Option.eq_none_iff_forall_not_mem.2 fun e he => hnone e he) ?_
      cases i with
      | invoke => cases hcall
      | metadata l => exact absurd rfl (hmetadata l)
      | _ => rfl

/-- Whichever way a definition is stepped over, nothing is owed on the local afterwards. -/
theorem results_dispatch_offRoot {i : Instruction} {d : Local} (htarget : i.target? = some d)
    (hcall : i.call? = none) (hx : ¬ A (.slot site.method d)) {rules : List Rule}
    (hrules : ∀ r ∈ rules, r.Defines A (.slot site.method d))
    (hs : ∀ e ∈ f.store.owed, e.Within (Pointer.Over A))
    (hrenames : ∀ r ∈ f.store.renames, r.2.Over A)
    (honce : ∀ e ∈ rootEdges f.store (.slot site.method d),
      ∀ e' ∈ rootEdges f.store (.slot site.method d), e = e') :
    Results (dispatch h site i rules) f
      (fun rest g => ∀ t ∈ g.store :: rest, t.OffRoot A (.slot site.method d))
      fun _ _ => True := by
  -- what is known of a rule and the obligation that it was found to fit
  let B : Timeless → Rule → Binding → Prop := fun _ r b =>
    r.Defines A (.slot site.method d) ∧ b.Within (Pointer.Over A) r ∧
      ∃ narrowing, b.Fits narrowing f.store r
  have hclassify : Evolves (fun (_ : Timeless) _ => True) (fun _ t => t = f.store) (fun _ => True)
      .world (classify rules {}) fun w a => ∀ c ∈ a.chosen, B w c.1 c.2 := by
    refine evolves_classify (fun _ _ _ => le_refl _) (fun _ _ _ _ _ => trivial)
      (fun _ _ _ _ _ => le_refl _) (fun r hr w session s _ _ hstore => ?_) fun c hc => by cases hc
    rw [hstore]
    refine Draws.mono (Classification.draws_ofRule Pointer.law_over hs (hrules r hr).within)
      fun w c _ hc bindings heq b hb => ?_
    obtain ⟨hfits, hwithin⟩ := hc bindings heq b hb
    exact ⟨hrules r hr, hwithin, _, hfits⟩
  have hunique : ∀ r ∈ rules, r.shown.source.isUnique = true := fun r hr => by
    rw [(hrules r hr).source]
    rfl
  unfold dispatch
  rw [results_bind]
  refine ((hclassify f trivial rfl).and (results_classify_keepUnapplied hunique rfl)).mono
    (fun a g hg => ?_) fun _ _ _ => trivial
  obtain ⟨⟨_, -, -, hstore, hchosen⟩, -, hkeep⟩ := hg
  split
  · rw [results_bind]
    refine (results_withoutRule_offRoot htarget hcall _ (hstore ▸ hs) (hstore ▸ hrenames)).mono
      (fun _ g' hg' t ht => ?_) fun _ _ h => h
    rw [List.mem_singleton.1 ht]
    exact hg'
  · rw [results_bind, results_store, results_bind, hstore]
    refine (results_attemptAll_live (P := fun t => t.OffRoot A (.slot site.method d))
      (fun c hc session => ?_) fun t ht => ?_).mono (fun cases g' hg' => ?_) fun _ _ h => h
    · obtain ⟨⟨r, b⟩, hmem, rfl⟩ := List.mem_map.1 hc
      obtain ⟨hr, hb, narrowing, hfits⟩ := hchosen (r, b) hmem
      obtain ⟨hfield, hsource⟩ := Binding.Fits.source_eq hfits hr.source
      -- a choice of objects is no local, so the obligation is on the local itself
      have hobligation : b.obligation.source = .slot site.method d := by
        obtain heq | ⟨-, -, hover⟩ := hb.source.left
        · exact heq.symm.trans hsource
        · exact absurd hsource (Pointer.ne_known_of_over hx hover)
      have hroot : b.obligation.field = none :=
        hfield.trans (Option.isNone_iff_eq_none.1 hr.isRoot)
      refine results_apply_offRoot hx hs hrenames (fun e he hroot' hsource' => ?_) hr hb hsource
      exact honce e (mem_rootEdges.2 ⟨he, Option.isNone_iff_eq_none.1 hroot', hsource'⟩) _
        (mem_rootEdges.2 ⟨hfits.1, hroot, hobligation⟩)
    · cases ht
    · -- the rules are on a root, so that the store without any of them is no case
      rw [hkeep]
      refine results_commit (R := fun live => ∀ t ∈ live, t.OffRoot A (.slot site.method d))
        (fun _ => ?_) fun t ht => hg'.2 t ?_
      · trivial
      · simpa using ht

theorem results_visit_offRoot {i : Instruction} {d : Local} (htarget : i.target? = some d)
    (hcall : i.call? = none) (hx : ¬ A (.slot site.method d)) {rules : List Rule}
    (hrules : ∀ r ∈ rules, r.Defines A (.slot site.method d))
    (hs : ∀ e ∈ f.store.owed, e.Within (Pointer.Over A))
    (hrenames : ∀ r ∈ f.store.renames, r.2.Over A)
    (honce : ∀ e ∈ rootEdges f.store (.slot site.method d),
      ∀ e' ∈ rootEdges f.store (.slot site.method d), e = e') :
    Results (visit h site i rules) f
      (fun rest g => ∀ t ∈ g.store :: rest, t.OffRoot A (.slot site.method d))
      fun _ _ => True := by
  unfold visit requireFeasible
  simp only [results_bind, results_store]
  split
  · trivial
  · split
    · cases htarget
    · exact results_dispatch_offRoot htarget hcall hx
        (fun r hr => hrules r (List.mem_filter.1 hr).1) hs hrenames honce

end HeapM

/-! ## 4. Rules of definitions -/

namespace Rule

variable {A : Location → Prop} {h : HeapGraph} {m : MethodId} {target base : Location}
  {field : Field} (hgraph : h.Within A) (hne : base ≠ target)
include hgraph hne

theorem draws_copy_defines :
    Draws (fun (_ : Timeless) _ => True) .world (copy h m target base) fun _ o =>
      ∀ r ∈ o, r.Defines A target := by
  refine Draws.bind (Pointer.law_over (A := A)).make fun _ o _ ho => ?_
  cases o with
  | none => exact draws_pure fun r hr => by cases hr
  | some y =>
    have hy : y.Over A := ho y rfl fun z hz => hgraph.ofRoot hz
    refine draws_pure fun r hr => ?_
    cases hr
    refine ⟨rfl, rfl, hy, fun e he => ?_⟩
    rw [List.mem_singleton.1 he]
    exact ⟨⟨.inl rfl, hy⟩, fun _ heq => hne (Pointer.known.inj heq)⟩

theorem draws_read_defines :
    Draws (fun (_ : Timeless) _ => True) .world (read h m target base field) fun _ o =>
      ∀ r ∈ o, r.Defines A target := by
  refine Draws.bind (Pointer.law_over (A := A)).make fun _ o _ hb => ?_
  cases o with
  | none => exact draws_pure fun r hr => by cases hr
  | some b =>
    have hb : b.Over A := hb b rfl fun z hz => hgraph.ofRoot hz
    refine Draws.bind (Pointer.law_over (A := A)).make fun _ o _ ho => ?_
    cases o with
    | none => exact draws_pure fun r hr => by cases hr
    | some y =>
      have hy : y.Over A := ho y rfl fun z hz => by
        obtain ⟨w, -, hz⟩ := SortedSet.mem_bind.1 hz
        exact hgraph.pointsTo hz
      refine draws_pure fun r hr => ?_
      cases hr
      refine ⟨rfl, rfl, hy, fun e he => ?_⟩
      obtain rfl | he := List.mem_cons.1 he
      · exact ⟨⟨.inl rfl, hb⟩, fun _ heq => hne (Pointer.known.inj heq)⟩
      · rw [List.mem_singleton.1 he]
        exact ⟨⟨.inr hb, hy⟩, fun hroot => by cases hroot⟩

omit hne in
/-- The premises of a definition are on what it reads. -/
theorem draws_derive_defines (hsite : ∀ s, A (.site s)) {site : Site} {i : Instruction} {d : Local}
    (htarget : i.target? = some d) (hcall : i.call? = none)
    (hread : .slot site.method d ∉ i.read site.method) :
    Draws (fun (_ : Timeless) _ => True) .world (derive h site i) fun _ rules =>
      ∀ r ∈ rules, r.Defines A (.slot site.method d) := by
  have hderive : Draws (fun (_ : Timeless) _ => True) .world (derive? h site i) fun _ o =>
      ∀ r ∈ o, r.Defines A (.slot site.method d) := by
    have hnone : Draws (fun (_ : Timeless) _ => True) .world (pure none : Fresh (Option Rule))
        fun _ o => ∀ r ∈ o, r.Defines A (.slot site.method d) :=
      draws_pure fun r hr => by cases hr
    have hnew : ∀ s, Draws (fun (_ : Timeless) _ => True) .world
        (pure (some ⟨.root (.slot site.method d) (.site s), [], site.method⟩) : Fresh (Option Rule))
        fun _ o => ∀ r ∈ o, r.Defines A (.slot site.method d) := by
      refine fun s => draws_pure fun r hr => ?_
      cases hr
      exact ⟨rfl, rfl, fun y hy => SortedSet.mem_singleton.1 hy ▸ hsite s, fun e he => by cases he⟩
    have hother : ∀ {l : Local}, .slot site.method d ∉ [Location.slot site.method l] →
        Location.slot site.method l ≠ .slot site.method d :=
      fun hl heq => hl (heq ▸ List.mem_singleton.2 rfl)
    cases i with
    | new t s | newArray t s length =>
      cases htarget
      exact hnew s
    | assign t v | checkCast t v =>
      cases htarget
      cases v with
      | slot l => exact draws_copy_defines hgraph (hother hread)
      | const | null => exact hnone
    | load t b f =>
      cases htarget
      exact draws_read_defines hgraph (hother hread)
    | arrayLoad t array index =>
      cases htarget
      refine draws_read_defines hgraph (hother fun hmem => hread ?_)
      exact List.mem_cons.2 (.inl (List.mem_singleton.1 hmem))
    | staticLoad t f =>
      cases htarget
      exact draws_copy_defines hgraph (by rintro ⟨⟩)
    | invoke => cases hcall
    | arrayLength | binary | unary | compare | conversion | instanceOf | metadata => exact hnone
    | store | staticStore | arrayStore | branch | switch | ret | nop => cases htarget
  exact hderive.bind fun _ _ _ ho => draws_pure fun r hr => ho r (Option.mem_toList.1 hr)

end Rule

end Refuter
