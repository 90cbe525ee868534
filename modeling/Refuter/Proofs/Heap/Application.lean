import Refuter.HeapStore.Visit
import Refuter.Proofs.Heap.Tracking
import Refuter.Proofs.Pointer.Meet

/-!
# Rules that meet a store

A rule that writes the root `t` meets the owed edges one by one. Edges that are not on `t` stay
apart from it. An owed edge on `t` whose sink stands for what the rule writes is discharged, and
the premises of the rule take its place.
-/

namespace Refuter

open StoreM

/-! ## 1. Edges apart from a root -/

/-- No root edge that can be on `t`. -/
def Edge.Avoids (t : Location) (e : Edge) : Prop := e.field = none → ¬ t ∈ e.source.candidates

theorem Pointer.merge_known_of_not_mem {narrowing : Bool} {p : Pointer} {t : Location} {n : Nat}
    (h : ¬ t ∈ p.candidates) : Pointer.merge narrowing p (.known t) n = (none, n) := by
  have hno : ¬ p.candidates.Meets (Pointer.known t).candidates := mt Pointer.meets_known.1 h
  have hout := Pointer.merge_outcome narrowing p (.known t)
  generalize Pointer.merge narrowing p (.known t) = x at hout ⊢
  cases hout with
  | apart => rfl
  | same hp => exact absurd (hp ▸ SortedSet.mem_singleton.2 rfl) h
  | right _ _ hm => exact absurd hm hno
  | left _ hq | wider _ _ hq | common _ _ hq => cases hq

theorem Fit.ofEdge_eq_apart {narrowing : Bool} {s : HeapStore} {r : Rule} {t : Location}
    {x : Pointer} {d : Edge} {n : Nat} (hr : r.shown = .root (.known t) x) (hd : d.Avoids t) :
    Fit.ofEdge narrowing s r d n = (.apart, n) := by
  have hfield : r.shown.field = none := by rw [hr]; rfl
  have hsource : r.shown.source = .known t := by rw [hr]; rfl
  unfold Fit.ofEdge
  rw [hfield, hsource]
  by_cases hf : d.field = none
  · rw [if_neg (show ¬ d.field ≠ none from not_not_intro hf), Fresh.bind_apply,
      Pointer.merge_known_of_not_mem (hd hf)]
    rfl
  · rw [if_pos (show d.field ≠ none from hf)]
    rfl

/-- Meeting edges that avoid the root takes no numbers. -/
theorem Fit.mapM_ofEdge_eq_apart {narrowing : Bool} {s : HeapStore} {r : Rule} {t : Location}
    {x : Pointer} {edges : List Edge} {n : Nat} (hr : r.shown = .root (.known t) x)
    (hd : ∀ d ∈ edges, d.Avoids t) :
    edges.mapM (Fit.ofEdge narrowing s r) n = (edges.map fun _ => .apart, n) := by
  induction edges with
  | nil => rfl
  | cons d rest ih =>
    rw [List.mapM_cons, Fresh.bind_apply, Fit.ofEdge_eq_apart hr (hd d List.mem_cons_self)]
    rw [Fresh.bind_apply, ih fun d h => hd d (List.mem_cons_of_mem _ h)]
    rfl

theorem Fit.filterMap_apart (edges : List Edge) :
    (edges.map fun _ => Fit.apart).filterMap Fit.binding? = [] := by
  induction edges with
  | nil => rfl
  | cons d rest ih => exact ih

theorem Fit.any_isClash_apart (edges : List Edge) :
    (edges.map fun _ => Fit.apart).any Fit.isClash = false := by
  induction edges with
  | nil => rfl
  | cons d rest ih => exact ih

/-- A rule on a root that nothing owed is about applies nowhere. It can only disagree with what
was produced on that root. -/
theorem Classification.ofRule_eq_of_avoids {narrowing : Bool} {s : HeapStore} {r : Rule}
    {t : Location} {x : Pointer} {n m : Nat} {otherwise : Bool}
    (hr : r.shown = .root (.known t) x) (hd : ∀ d ∈ s.owed, d.Avoids t)
    (hp : isProducedOtherwise narrowing s r n = (otherwise, m)) :
    Classification.ofRule narrowing s r n =
      (if otherwise then .inconsistent else .inapplicable, m) := by
  unfold Classification.ofRule
  rw [Fresh.bind_apply, hp]
  cases otherwise with
  | true => rfl
  | false =>
    simp only [Bool.false_eq_true, if_false]
    rw [Fresh.bind_apply, Fit.mapM_ofEdge_eq_apart hr hd]
    simp only [Fit.filterMap_apart, Fit.any_isClash_apart, Bool.false_eq_true, if_false]
    rfl

/-- Nothing was produced on the root. -/
theorem Classification.isProducedOtherwise_eq_false {narrowing : Bool} {s : HeapStore} {r : Rule}
    {n : Nat} (hp : ∀ e ∈ s.produced, e.source ≠ r.shown.source) :
    isProducedOtherwise narrowing s r n = (false, n) := by
  unfold isProducedOtherwise
  have hnil : (s.produced.filter fun e => e.field = r.shown.field && e.source = r.shown.source)
      = [] := by
    refine List.filter_eq_nil_iff.2 fun e he => ?_
    simp [hp e he]
  rw [hnil]
  split <;> rfl

/-! ## 2. The edge that a rule discharges -/

namespace Reading

variable {R R' : Reading} {σ : State} {t y : Location} {r : Rule} {s : HeapStore} {o : Edge}
  {m : Pointer} {narrowing : Bool}

/-- The rule gives the root `t` an object of the site `y`, and the state holds its premises. -/
structure Produces (R : Reading) (σ : State) (t y : Location) (r : Rule) : Prop where
  shown : r.shown = .root (.known t) r.shown.sink
  sink : R.Names r.shown.sink y
  premises : ∀ e ∈ r.premises, R.Explains σ e

/-- `o` is the one owed edge on the root `t`, its sink stands for `y`, and the state explains all
the others. -/
structure Awaits (R : Reading) (σ : State) (t y : Location) (s : HeapStore) (o : Edge) :
    Prop where
  mem : o ∈ s.owed
  shown : o = .root (.known t) o.sink
  sink : R.Names o.sink y
  others : ∀ d ∈ s.owed, d ≠ o → R.Explains σ d ∧ d.Avoids t

theorem Produces.mono (h : R.Produces σ t y r) (hR : R ≤ R') : R'.Produces σ t y r :=
  ⟨h.shown, h.sink.mono hR, fun e he => (h.premises e he).mono hR⟩

theorem Produces.source_eq (h : R.Produces σ t y r) : r.shown.source = .known t := by
  rw [h.shown]
  rfl

theorem Awaits.mono (h : R.Awaits σ t y s o) (hR : R ≤ R') : R'.Awaits σ t y s o :=
  ⟨h.mem, h.shown, h.sink.mono hR, fun d hd hne =>
    ⟨(h.others d hd hne).1.mono hR, (h.others d hd hne).2⟩⟩

end Reading

/-- A rename to a pointer that is not unique makes no root edge. -/
theorem Edge.source_rename_of_isUnique {p q : Pointer} {e : Edge} (hq : q.isUnique = false)
    (hu : (e.rename p q).source.isUnique = true) : (e.rename p q).source = e.source := by
  refine Pointer.rename_of_ne fun hp => ?_
  change (p.rename q e.source).isUnique = true at hu
  rw [hp, Pointer.rename_self, hq] at hu
  cases hu

namespace Binding

variable {R : Reading} {σ : State} {t y : Location} {r : Rule} {s : HeapStore} {o : Edge}
  {m : Pointer} {narrowing : Bool}

theorem premises_apply (hr : r.shown.source = .known t) :
    (Binding.apply ⟨o, .known t, m⟩ r).premises = r.premises.map (Edge.rename r.shown.sink m) := by
  unfold Binding.apply Rule.rename
  rw [hr]
  simp only [List.map_map]
  refine List.map_congr_left fun e _ => ?_
  rw [Function.comp_apply, Edge.rename_self]

theorem rebind_eq (ho : o.source = .known t) (e : Edge) :
    Binding.rebind ⟨o, .known t, m⟩ e = e.rename o.sink m := by
  unfold Binding.rebind
  rw [ho, Edge.rename_self]

/-- The premises stay explained after the sinks of the rule and of the obligation were merged. -/
theorem explains_premises (hr : R.Produces σ t y r) (hm : R.Names m y) :
    ∀ e ∈ (Binding.apply ⟨o, .known t, m⟩ r).premises, R.Explains σ e := by
  intro e he
  rw [premises_apply hr.source_eq] at he
  obtain ⟨d, hd, rfl⟩ := List.mem_map.1 he
  exact (hr.premises d hd).rename ⟨y, hr.sink, hm⟩

/-- The premises agree with everything bound if nothing was produced on their roots. -/
theorem gives_premisesAgree {a : AllocSite} (hr : R.Produces σ t (.site a) r)
    (ho : R.Awaits σ t (.site a) s o) (hm : R.Names m (.site a))
    (hq : ∀ e ∈ s.produced, ∀ d ∈ r.premises, d.source.isUnique = true → e.source ≠ d.source) :
    R.Gives (Binding.premisesAgree narrowing s r ⟨o, .known t, m⟩) fun ok _ => ok = true := by
  have hsource : o.source = .known t := by rw [ho.shown]; rfl
  unfold Binding.premisesAgree
  refine Reading.gives_allM fun premise hp R' hR => ?_
  obtain ⟨hp, hu⟩ := List.mem_filter.1 hp
  refine Reading.gives_allM fun e he R'' hR' => ?_
  have hle : R ≤ R'' := Reading.le_trans hR hR'
  have hpremise : R''.Explains σ premise := (explains_premises hr hm premise hp).mono hle
  have hbound : R''.Explains σ e ∧ e.source = premise.source := by
    obtain ⟨he, hs⟩ := List.mem_filter.1 he
    simp only [Bool.and_eq_true, decide_eq_true_eq] at hs
    obtain ⟨d, hd, rfl⟩ := List.mem_map.1 he
    rw [rebind_eq hsource] at hs ⊢
    refine ⟨?_, hs.1⟩
    obtain hd | hd := List.mem_append.1 hd
    · obtain ⟨hd, hne⟩ := List.mem_filter.1 hd
      have hexp : R.Explains σ d := (ho.others d hd (of_decide_eq_true hne)).1
      exact (hexp.rename ⟨_, ho.sink, hm⟩).mono hle
    · -- a produced edge on the root of a premise: neither side got its root by a rename
      rw [premises_apply hr.source_eq] at hp
      obtain ⟨d', hd', rfl⟩ := List.mem_map.1 hp
      have hsame : (d'.rename r.shown.sink m).source = d'.source :=
        Edge.source_rename_of_isUnique hm.isUnique_eq_false hu
      have hsame' : (d.rename o.sink m).source = d.source := by
        refine Edge.source_rename_of_isUnique hm.isUnique_eq_false ?_
        rw [hs.1]
        exact hu
      rw [hsame] at hu hs
      exact absurd (hsame'.symm.trans hs.1) (hq d hd d' hd' hu)
  obtain ⟨z, hz, hz'⟩ := hbound.1.sinks_agree hpremise hu hbound.2
  refine (Reading.gives_merge narrowing hz hz').bind fun x R3 _ hx => ?_
  obtain ⟨p, rfl, -⟩ := hx
  exact Reading.gives_pure rfl

end Binding

section

variable {R : Reading} {σ : State} {t : Location} {a : AllocSite} {r : Rule} {s : HeapStore}
  {o : Edge}

/-- The rule fits the owed edge on its root. -/
theorem Fit.gives_ofEdge (narrowing : Bool) (hr : R.Produces σ t (.site a) r)
    (ho : R.Awaits σ t (.site a) s o)
    (hq : ∀ e ∈ s.produced, ∀ d ∈ r.premises, d.source.isUnique = true → e.source ≠ d.source) :
    R.Gives (Fit.ofEdge narrowing s r o) fun fit R' =>
      ∃ m, fit = .fits ⟨o, .known t, m⟩ ∧ R'.Names m (.site a) := by
  have hfield : o.field = r.shown.field := by rw [hr.shown, ho.shown]; rfl
  have hsource : o.source = .known t := by rw [ho.shown]; rfl
  unfold Fit.ofEdge
  rw [if_neg (not_not_intro hfield), hsource, hr.source_eq]
  refine (Reading.gives_merge_self narrowing (.known t)).bind fun x R1 hR1 hx => ?_
  subst hx
  refine (Reading.gives_merge narrowing (ho.sink.mono hR1) (hr.sink.mono hR1)).bind
    fun x R2 hR2 hx => ?_
  obtain ⟨m, rfl, hm⟩ := hx
  have hR : R ≤ R2 := Reading.le_trans hR1 hR2
  refine (Binding.gives_premisesAgree (hr.mono hR) (ho.mono hR) hm hq).bind fun ok R3 hR3 hok => ?_
  subst hok
  exact Reading.gives_pure ⟨m, rfl, hm.mono hR3⟩

/-- Among all owed edges the rule fits the one on its root and no other. -/
theorem Fit.gives_mapM_ofEdge (narrowing : Bool) (hr : R.Produces σ t (.site a) r)
    (ho : R.Awaits σ t (.site a) s o)
    (hq : ∀ e ∈ s.produced, ∀ d ∈ r.premises, d.source.isUnique = true → e.source ≠ d.source) :
    R.Gives (s.owed.toList.mapM (Fit.ofEdge narrowing s r)) fun fits R' =>
      ∃ m, fits.filterMap Fit.binding? = [⟨o, .known t, m⟩] ∧ R'.Names m (.site a) := by
  -- the obligation stands once in the list, between edges that avoid the root
  obtain ⟨before, after, hlist⟩ := List.append_of_mem ho.mem
  have hnodup : (before ++ o :: after).Nodup := hlist ▸ s.owed.nodup_toList
  obtain ⟨-, hafter, hbefore⟩ := List.nodup_append.1 hnodup
  have havoid : ∀ d ∈ s.owed.toList, d ≠ o → d.Avoids t := fun d hd hne => (ho.others d hd hne).2
  rw [hlist] at havoid ⊢
  have hbefore : ∀ d ∈ before, d.Avoids t := fun d hd =>
    havoid d (List.mem_append_left _ hd) (hbefore d hd o List.mem_cons_self)
  have hafter : ∀ d ∈ after, d.Avoids t := by
    intro d hd
    refine havoid d (List.mem_append_right _ (List.mem_cons_of_mem _ hd)) ?_
    rintro rfl
    exact (List.nodup_cons.1 hafter).1 hd
  obtain ⟨_, R', hfit, hR, m, rfl, hm⟩ := Fit.gives_ofEdge narrowing hr ho hq
  refine ⟨before.map (fun _ => .apart) ++ .fits ⟨o, .known t, m⟩ :: after.map fun _ => .apart, R',
    ?_, hR, m, ?_, hm⟩
  · rw [List.mapM_append, List.mapM_cons]
    simp only [Fresh.bind_apply, Fresh.pure_apply, Fit.mapM_ofEdge_eq_apart hr.shown hbefore, hfit,
      Fit.mapM_ofEdge_eq_apart hr.shown hafter]
  · rw [List.filterMap_append, Fit.filterMap_apart, List.nil_append]
    change _ :: (after.map fun _ => Fit.apart).filterMap Fit.binding? = _
    rw [Fit.filterMap_apart]

/-- The rule applies to the owed edge on its root and to nothing else. -/
theorem Classification.gives_ofRule (narrowing : Bool) (hr : R.Produces σ t (.site a) r)
    (ho : R.Awaits σ t (.site a) s o) (hp : ∀ e ∈ s.produced, e.source ≠ .known t)
    (hq : ∀ e ∈ s.produced, ∀ d ∈ r.premises, d.source.isUnique = true → e.source ≠ d.source) :
    R.Gives (Classification.ofRule narrowing s r) fun c R' =>
      ∃ m, c = .consistent [⟨o, .known t, m⟩] ∧ R'.Names m (.site a) := by
  have hother : R.Gives (isProducedOtherwise narrowing s r) fun b _ => b = false := by
    refine ⟨false, R, isProducedOtherwise_eq_false ?_, R.le_refl, rfl⟩
    rw [hr.source_eq]
    exact hp
  unfold Classification.ofRule
  refine hother.bind fun b R1 hR1 hb => ?_
  subst hb
  simp only [Bool.false_eq_true, if_false]
  refine (Fit.gives_mapM_ofEdge narrowing (hr.mono hR1) (ho.mono hR1) hq).bind
    fun fits R2 _ hfits => ?_
  obtain ⟨m, hfits, hm⟩ := hfits
  rw [hfits]
  exact Reading.gives_pure ⟨m, rfl, hm⟩

end

/-! ## 3. Applying a rule -/

namespace HeapM

variable {R : Reading} {σ : State} {t : Location} {a : AllocSite} {r : Rule} {o : Edge}
  {h : HeapGraph} {site : Site} {f : Frame HeapStore}

theorem ends_logProduced {e : Edge} (ht : R.Tracks σ f) :
    Ends (logProduced e) f fun _ g => R.Tracks σ g := by
  unfold logProduced
  rw [ends_modifyStore]
  split
  · exact ht
  · exact ⟨ht.feasible, ht.next, ht.owed⟩

/-- Once an edge is discharged only the others have to be explained. -/
theorem ends_discharge (hf : f.store.feasible = true) (hn : f.session.nextId = R.next)
    (ho : ∀ d ∈ f.store.owed, d ≠ o → R.Explains σ d) :
    Ends (discharge o) f fun _ g => R.Tracks σ g := by
  unfold discharge
  rw [ends_modifyStore]
  refine ⟨hf, hn, fun d hd => ?_⟩
  obtain ⟨hd, hne⟩ := SortedSet.mem_erase.1 hd
  exact ho d hd hne

/-- Applying the rule leaves a store that the state explains. -/
theorem ends_apply {m : Pointer} (hc : h.Covers σ) (hf : f.store.feasible = true)
    (hn : f.session.nextId = R.next) (hr : R.Produces σ t (.site a) r)
    (ho : R.Awaits σ t (.site a) f.store o) (hm : R.Names m (.site a)) :
    Ends (apply h site r ⟨o, .known t, m⟩) f fun _ g => ∃ R' : Reading, R'.Tracks σ g := by
  have hsource : o.source = .known t := by rw [ho.shown]; rfl
  unfold apply
  simp only [ends_bind, ends_debug]
  refine (ends_discharge (f := f.note _) hf hn fun d hd hne => (ho.others d hd hne).1).mono
    fun _ g1 ht1 => ?_
  rw [hsource]
  -- the source is renamed to itself and the sink to the merged one
  refine (ends_rename ht1 ⟨t, R.names_known t, R.names_known t⟩).mono fun _ g2 ht2 => ?_
  refine (ends_rename ht2 ⟨.site a, ho.sink, hm⟩).mono fun _ g3 ht3 => ?_
  have hpremises := Binding.explains_premises (o := o) hr hm
  refine (ends_addEdges ht3 (fun r hr => by cases hr) hpremises).mono fun _ g4 hg4 => ?_
  obtain ⟨R4, -, ht4⟩ := hg4
  have hnarrow : ∀ g, R4.Tracks σ g →
      Ends (narrow h) g fun _ g' => ∃ R' : Reading, R'.Tracks σ g' := by
    intro g hg
    refine (ends_narrow hc hg).mono fun _ g' hg' => ?_
    obtain ⟨R5, -, ht5⟩ := hg'
    exact ⟨R5, ht5⟩
  split
  · rw [ends_bind]
    exact (ends_logProduced ht4).mono fun _ g5 ht5 => hnarrow g5 ht5
  · exact hnarrow g4 ht4

/-- The rule that produces the owed edge on its root is the only case. -/
theorem ends_dispatch_of_awaits {i : Instruction} (hc : h.Covers σ) (htr : t.isRoot = true)
    (hf : f.store.feasible = true) (hn : f.session.nextId = R.next)
    (hr : R.Produces σ t (.site a) r) (ho : R.Awaits σ t (.site a) f.store o)
    (hp : ∀ e ∈ f.store.produced, e.source ≠ .known t)
    (hq : ∀ e ∈ f.store.produced, ∀ d ∈ r.premises,
      d.source.isUnique = true → e.source ≠ d.source) :
    Ends (dispatch h site i [r]) f fun rest g =>
      rest = [] ∧ ∃ R' : Reading, R'.Tracks σ g := by
  have hunique : r.shown.source.isUnique = true := by
    rw [hr.source_eq]
    cases t with
    | slot | result | global => rfl
    | site | index => cases htr
  unfold dispatch classify
  simp only [ends_bind, ends_options, ends_store]
  obtain ⟨c, R1, hgives, hR, m, rfl, hm⟩ :=
    Classification.gives_ofRule f.session.options.narrowFromConstraints hr ho hp hq
  rw [ends_fresh, hn, hgives]
  unfold classify
  simp only [ends_pure, List.nil_append, List.map_cons, List.map_nil, List.isEmpty_cons,
    Bool.false_eq_true, if_false, hunique, Bool.not_true, Bool.or_false, ends_bind, ends_store,
    List.append_nil]
  unfold attemptAll
  rw [ends_bind]
  have happly : Ends (apply h site r ⟨o, .known t, m⟩) (f.supply R1.next) fun _ g =>
      ∃ R' : Reading, R'.Tracks σ g := ends_apply hc hf rfl (hr.mono hR) (ho.mono hR) hm
  refine (ends_attempt happly).mono fun _ g1 hg1 => ?_
  obtain ⟨-, g', rfl, hsession, R2, ht⟩ := hg1
  unfold attemptAll commit
  simp only [ends_pure, Survivors.add, List.nil_append, ends_bind, ends_setStore]
  refine ⟨trivial, R2, ht.feasible, ?_, ht.owed⟩
  rw [← hsession]
  exact ht.next

/-! ## 4. No rule applies -/

/-- Rules on roots that nothing owed or produced is about are passed over. -/
theorem ends_classify_of_avoids {rules : List Rule} {c : Applications}
    {Q : Applications → Frame HeapStore → Prop}
    (hr : ∀ r ∈ rules, ∃ t x, r.shown = .root (.known t) x ∧
      (∀ d ∈ f.store.owed, d.Avoids t) ∧ ∀ e ∈ f.store.produced, e.source ≠ .known t)
    (hQ : Q c f) : Ends (classify rules c) f Q := by
  induction rules with
  | nil => exact ends_pure.2 hQ
  | cons r rest ih =>
    obtain ⟨t, x, hshown, hd, hp⟩ := hr r List.mem_cons_self
    have hsource : r.shown.source = .known t := by rw [hshown]; rfl
    have hnew : ∀ narrowing, Classification.ofRule narrowing f.store r f.session.nextId =
        (.inapplicable, f.session.nextId) := fun narrowing =>
      Classification.ofRule_eq_of_avoids hshown hd
        (Classification.isProducedOtherwise_eq_false (hsource ▸ hp))
    unfold classify
    simp only [ends_bind, ends_options, ends_store, ends_fresh, hnew]
    exact ih fun r' hr' => hr r' (List.mem_cons_of_mem _ hr')

theorem ends_forget {edges : List Edge} (hf : f.store.feasible = true)
    (hn : f.session.nextId = R.next) (ho : ∀ d ∈ f.store.owed, ¬ d ∈ edges → R.Explains σ d) :
    Ends (forget edges) f fun _ g => R.Tracks σ g := by
  induction edges generalizing f with
  | nil => exact ends_pure.2 ⟨hf, hn, fun d hd => ho d hd List.not_mem_nil⟩
  | cons e rest ih =>
    unfold forget discharge
    simp only [ends_bind, ends_debug, ends_modifyStore]
    refine ih hf hn fun d hd hrest => ?_
    obtain ⟨hd, hne⟩ := SortedSet.mem_erase.1 hd
    refine ho d hd fun hmem => ?_
    exact (List.mem_cons.1 hmem).elim hne hrest

theorem mem_rootEdges {s : HeapStore} {p : Pointer} {e : Edge} :
    e ∈ rootEdges s p ↔ e ∈ s.owed ∧ e.field = none ∧ e.source = p := by
  unfold rootEdges Edge.isRoot
  simp

/-- Without a rule, the state has to explain every edge but those on a local that the instruction
gives some unknown value. -/
theorem ends_withoutRule {i : Instruction} (hf : f.store.feasible = true)
    (hn : f.session.nextId = R.next)
    (ho : ∀ d ∈ f.store.owed, R.Explains σ d ∨
      ∃ l, i = .metadata l ∧ d.field = none ∧ d.source = .slot site.method l)
    (hroot : ∀ l, i.target? = some l → mustProduce i = true →
      rootEdges f.store (.slot site.method l) = []) :
    Ends (withoutRule site i 0) f fun _ g => R.Tracks σ g := by
  have hno : unproduced? f.store site i = none := by
    unfold unproduced?
    split
    · rename_i hmust
      cases hl : i.target? with
      | none => rfl
      | some l =>
        rw [Option.bind_some, hroot l hl hmust]
        rfl
    · rfl
  unfold withoutRule
  simp only [Nat.lt_irrefl, gt_iff_lt, if_false, ends_bind, ends_store, hno]
  split
  · rename_i l
    rw [ends_bind, ends_store]
    refine ends_forget hf hn fun d hd hl => ?_
    obtain hexp | ⟨l', hi, hfield, hsource⟩ := ho d hd
    · exact hexp
    · cases hi
      exact absurd (mem_rootEdges.2 ⟨hd, hfield, hsource⟩) hl
  · rename_i hi
    refine ends_pure.2 ⟨hf, hn, fun d hd => ?_⟩
    obtain hexp | ⟨l, hl, -⟩ := ho d hd
    · exact hexp
    · exact absurd hl (hi l)

/-- If no rule applies, there is nothing to split and only edges without a model are lost. -/
theorem ends_dispatch_of_avoids {i : Instruction} {rules : List Rule}
    (hf : f.store.feasible = true) (hn : f.session.nextId = R.next)
    (hr : ∀ r ∈ rules, ∃ t x, r.shown = .root (.known t) x ∧
      (∀ d ∈ f.store.owed, d.Avoids t) ∧ ∀ e ∈ f.store.produced, e.source ≠ .known t)
    (ho : ∀ d ∈ f.store.owed, R.Explains σ d ∨
      ∃ l, i = .metadata l ∧ d.field = none ∧ d.source = .slot site.method l)
    (hroot : ∀ l, i.target? = some l → mustProduce i = true →
      rootEdges f.store (.slot site.method l) = []) :
    Ends (dispatch h site i rules) f fun rest g => rest = [] ∧ ∃ R' : Reading, R'.Tracks σ g := by
  unfold dispatch
  rw [ends_bind]
  refine ends_classify_of_avoids hr ?_
  simp only [List.isEmpty_nil, if_true, ends_bind]
  refine (ends_withoutRule hf hn ho hroot).mono fun _ g ht => ?_
  exact ends_pure.2 ⟨rfl, R, ht⟩

end HeapM

end Refuter
