import Refuter.Proofs.Path.Marks
import Refuter.Proofs.Path.SkippedCall

/-!
# Where the paths of a store start

A rewrite takes the paths it replaces out of the store and puts the paths of what it inserts in
their place, so the bases afterwards are known from those before and from the inserted term. An
instruction that defines a local gives it a value that does not read it: after the step no path
starts at the local, and the constraints that did not read it are still there.
-/

namespace Refuter

open StoreM

/-! ## 1. Bases -/

/-- All access paths of the store start at pointers with `G`. -/
def PathStore.Within (G : Pointer → Prop) (s : PathStore) : Prop := ∀ v ∈ s.paths, G v.base

theorem PathStore.within_iff {G : Pointer → Prop} {s : PathStore} :
    s.Within G ↔ ∀ c ∈ s.constraints, ∀ v ∈ c.paths, G v.base := by
  simp only [Within, paths, List.mem_flatMap]
  constructor
  · exact fun h c hc v hv => h v ⟨c, hc, hv⟩
  · rintro h v ⟨c, hc, hv⟩
    exact h c hc v hv

theorem Constraint.mentions_eq_false_iff {c : Constraint} {p : Pointer} :
    c.mentions p = false ↔ ∀ v ∈ c.paths, v.base ≠ p := by
  simp [PathM.mentions_eq_any]

/-- No constraint mentions `p`. -/
theorem PathStore.within_ne_iff {s : PathStore} {p : Pointer} :
    s.Within (· ≠ p) ↔ ∀ c ∈ s.constraints, c.mentions p = false := by
  simp only [within_iff, Constraint.mentions_eq_false_iff]

theorem PathStore.within_ne_of_not_isRelevant {s : PathStore} {p : Pointer}
    (h : ¬ s.isRelevant p = true) : s.Within (· ≠ p) := by
  rw [isRelevant_eq_any, List.any_eq_true] at h
  refine within_ne_iff.2 fun c hc => Bool.eq_false_iff.2 fun hmentions => h ⟨c, hc, hmentions⟩

/-- A path of a rewritten constraint comes from one of its paths. -/
theorem Constraint.exists_path_of_remains {change : AccessPath → Replacement Term}
    {c d : Constraint} (h : (c.replace (Term.replacePaths change)).remains c = some d)
    {w : AccessPath} (hw : w ∈ d.paths) :
    ∃ v ∈ c.paths, change v ≠ .unsupported ∧ w ∈ ((change v).getD (.var v)).paths := by
  have hboth := @Replacement.getD_both Term Constraint ({ c with lhs := ·, rhs := · }) c.lhs c.rhs
    (c.lhs.replacePaths change) (c.rhs.replacePaths change)
  unfold Constraint.replace at h
  -- whether or not anything changed, `d` has the rewritten sides
  have hd : c.lhs.replacePaths change ≠ .unsupported ∧ c.rhs.replacePaths change ≠ .unsupported ∧
      d = { c with lhs := (c.lhs.replacePaths change).getD c.lhs,
                   rhs := (c.rhs.replacePaths change).getD c.rhs } := by
    split at h
    · cases h
    · rename_i hsame
      rw [hsame] at hboth
      cases h
      exact hboth (by simp)
    · rename_i e hchanged
      rw [hchanged] at hboth
      cases hsettle : e.settle with
      | changed e' =>
        rw [hsettle] at h
        cases h
        rw [(eq_of_settle hsettle).1]
        exact hboth (by simp)
      | unchanged =>
        -- deciding a constraint never leaves it unchanged
        unfold settle at hsettle
        split at hsettle
        · split at hsettle <;> cases hsettle
        · cases hsettle
      | resolved | dropped =>
        rw [hsettle] at h
        cases h
  obtain ⟨hl, hr, rfl⟩ := hd
  obtain hw | hw := List.mem_append.1 hw
  · obtain ⟨v, hv, hfrom⟩ := Term.mem_paths_replacePaths hl hw
    exact ⟨v, List.mem_append_left _ hv, hfrom⟩
  · obtain ⟨v, hv, hfrom⟩ := Term.mem_paths_replacePaths hr hw
    exact ⟨v, List.mem_append_right _ hv, hfrom⟩

namespace PathM

variable {f : Frame PathStore} {G : Pointer → Prop} {p q : Pointer} {insert : Term}

/-- What is left after a change stands for a constraint before it. -/
theorem results_changeAll {change : Constraint → Settled} :
    Results (changeAll change) f (fun _ g => ∀ d ∈ g.store.constraints,
      ∃ c ∈ f.store.constraints, (change c).remains c = some d) fun _ _ => True := by
  unfold changeAll
  rw [results_bind]
  refine results_requireFeasible ?_ trivial
  simp only [results_bind, results_store]
  refine results_debugAll fun session _ => ?_
  split
  · exact results_refute.2 trivial
  · split
    · -- nothing changed, so every constraint stands for itself
      rename_i hall
      intro c hc
      have hsame := List.all_eq_true.1 hall c hc
      refine ⟨c, hc, ?_⟩
      cases hchange : change c with
      | unchanged => rfl
      | changed | resolved | dropped =>
        rw [hchange] at hsame
        cases hsame
    · intro d hd
      exact List.mem_filterMap.1 ((eraseDupsBy_sublist _).subset hd)

theorem results_replacePaths_within {change : AccessPath → Replacement Term}
    (hsame : ∀ v ∈ f.store.paths, change v = .unchanged → G v.base)
    (hnew : ∀ v t, change v = .changed t → t.Within G) :
    Results (changeAll (Constraint.replace (Term.replacePaths change))) f
      (fun _ g => g.store.Within G) fun _ _ => True := by
  refine results_changeAll.mono (fun _ g hg => ?_) fun _ _ h => h
  refine PathStore.within_iff.2 fun d hd w hw => ?_
  obtain ⟨c, hc, hremains⟩ := hg d hd
  obtain ⟨v, hv, hsupported, hw⟩ := Constraint.exists_path_of_remains hremains hw
  cases hchange : change v with
  | unchanged =>
    rw [hchange] at hw
    rw [List.mem_singleton.1 hw]
    exact hsame v (List.mem_flatMap.2 ⟨c, hc, hv⟩) hchange
  | changed t =>
    rw [hchange] at hw
    exact hnew v t hchange w hw
  | unsupported => exact absurd hchange hsupported

/-- Every path at a replaced root is replaced. -/
theorem restAfter?_of_base_eq {v : AccessPath} (h : v.base = p) :
    v.restAfter? ⟨p, []⟩ = some v.fields := if_pos h

/-- Every path at the root is replaced, so that only the bases of the replacements are left. -/
theorem results_replaceRoot_within {carry : List Field → Replacement Term}
    (hs : f.store.Within fun r => r = p ∨ G r) (hchanges : ∀ rest, carry rest ≠ .unchanged)
    (hcarry : ∀ rest t, carry rest = .changed t → t.Within G) :
    Results (changeAll (Constraint.replace (Term.replacePaths fun v =>
        ((v.restAfter? ⟨p, []⟩).map carry).getD .unchanged))) f
      (fun _ g => g.store.Within G) fun _ _ => True := by
  refine results_replacePaths_within (fun v hv hsame => ?_) fun v t ht => ?_
  · refine (hs v hv).resolve_left fun hbase => hchanges v.fields ?_
    rw [restAfter?_of_base_eq hbase] at hsame
    exact hsame
  · by_cases hbase : v.base = p
    · rw [restAfter?_of_base_eq hbase] at ht
      exact hcarry v.fields t ht
    · rw [restAfter?_of_base_ne hbase] at ht
      cases ht

theorem extendBare_ne_unchanged (rest : List Field) : insert.extendBare rest ≠ .unchanged := by
  unfold Term.extendBare
  split <;> rintro ⟨⟩

theorem extend_ne_unchanged (rest : List Field) : insert.extend rest ≠ .unchanged := by
  unfold Term.extend
  split <;> rintro ⟨⟩

theorem results_substitute_within (hs : f.store.Within fun r => r = p ∨ G r)
    (hinsert : insert.Within G) :
    Results (substitute insert ⟨p, []⟩) f (fun _ g => g.store.Within G) fun _ _ => True :=
  results_replaceRoot_within hs extendBare_ne_unchanged fun _ _ =>
    Term.within_of_extendBare hinsert

theorem results_rename_within (hs : f.store.Within G) (hq : G q) :
    Results (rename p q) f (fun _ g => g.store.Within G) fun _ _ => True := by
  unfold rename
  rw [results_bind, results_store]
  split
  · exact hs
  · exact results_substitute_within (fun v hv => .inr (hs v hv)) (Term.within_var hq)

/-- A test that holds of every constraint with another base. -/
theorem results_dropWhere_within {test : Constraint → Bool}
    (h : ∀ c ∈ f.store.constraints, test c = false → ∀ v ∈ c.paths, G v.base) :
    Results (dropWhere test) f (fun _ g => g.store.Within G) fun _ _ => True := by
  unfold dropWhere
  simp only [results_bind, results_store]
  refine results_debugAll fun session _ => ?_
  split
  · refine PathStore.within_iff.2 fun c hc => ?_
    obtain ⟨hc, htest⟩ := List.mem_filter.1 hc
    exact h c hc (Bool.not_eq_true' _ ▸ htest)
  · rename_i hany
    refine PathStore.within_iff.2 fun c hc => h c hc (Bool.eq_false_iff.2 fun htest => ?_)
    exact hany (List.any_eq_true.2 ⟨c, hc, htest⟩)

theorem results_require_within {l r : Term} {op : CmpOp} (hs : f.store.Within G)
    (hl : l.Within G) (hr : r.Within G) :
    Results (require l op r) f (fun _ g => g.store.Within G) fun _ _ => True := by
  unfold require
  rw [results_bind, results_session]
  refine (edits_add _ _).mono (fun _ g hg => ?_) fun _ _ _ => trivial
  obtain ⟨-, hg | ⟨-, hg⟩⟩ := hg
  · exact hg ▸ hs
  · rw [hg]
    refine PathStore.within_iff.2 fun c hc => ?_
    obtain hc | hc := List.mem_append.1 hc
    · exact PathStore.within_iff.1 hs c hc
    · rw [List.mem_singleton.1 hc]
      exact fun v hv => (List.mem_append.1 hv).elim (hl v) (hr v)

end PathM

/-! ## 2. Definitions of a root -/

/-- What `s` says without `p` is said by `t` as well. -/
def PathStore.Spares (p : Pointer) (s t : PathStore) : Prop :=
  ∀ c : Constraint, c.mentions p = false → s.Has c → t.Has c

theorem PathStore.Spares.trans {p : Pointer} {s t u : PathStore} (h : s.Spares p t)
    (h' : t.Spares p u) : s.Spares p u := fun c hc hs => h' c hc (h c hc hs)

/-- Nothing is said of `p` any more, but all that was said without it. -/
structure PathStore.Consumes (p : Pointer) (s t : PathStore) : Prop where
  within : t.Within (· ≠ p)
  spares : s.Spares p t

namespace PathM

variable {f : Frame PathStore} {p : Pointer} {insert : Term}

theorem results_replacePaths_spares {change : AccessPath → Replacement Term}
    (hchange : ∀ v, v.base ≠ p → change v = .unchanged) :
    Results (changeAll (Constraint.replace (Term.replacePaths change))) f
      (fun _ g => f.store.Spares p g.store) fun _ _ => True :=
  results_of_ok fun _ _ hrun _ hc hs => has_replacePaths hs
    (fun v hv => hchange v (Constraint.mentions_eq_false_iff.1 hc v hv)) hrun

theorem results_spliceRead_spares (field : Field) :
    Results (spliceRead insert p field) f
      (fun _ g => f.store.Spares p g.store) fun _ _ => True := by
  refine results_replacePaths_spares fun v hv => ?_
  cases v.fields with
  | nil => rfl
  | cons f rest => exact if_neg (by simp [hv])

theorem results_spliceReads_spares (fields : List Field) :
    Results (spliceReads insert p fields) f
      (fun _ g => f.store.Spares p g.store) fun _ _ => True := by
  induction fields generalizing f with
  | nil => exact fun _ _ hs => hs
  | cons field rest ih =>
    unfold spliceReads
    rw [results_bind]
    refine (results_spliceRead_spares field).mono (fun _ g hg => ?_) fun _ _ h => h
    exact ih.mono (fun _ g' hg' => hg.trans hg') fun _ _ h => h

theorem results_dropMentioning_consumes :
    Results (dropMentioning p) f (fun _ g => f.store.Consumes p g.store) fun _ _ => True := by
  unfold dropMentioning
  rw [results_bind, results_store]
  split
  · rename_i hrelevant
    refine ⟨PathStore.within_ne_of_not_isRelevant ?_, fun _ _ hs => hs⟩
    simpa using hrelevant
  · have hwithin : Results (dropWhere (·.mentions p)) f (fun _ g => g.store.Within (· ≠ p))
        fun _ _ => True :=
      results_dropWhere_within fun c _ htest => Constraint.mentions_eq_false_iff.1 htest
    refine (hwithin.and (results_of_ok fun _ g hrun c hc hs => ?_)).mono
      (fun _ g hg => ⟨hg.1, hg.2⟩) fun _ _ _ => trivial
    refine has_dropWhere hs (fun d hd => ?_) hrun
    rw [Constraint.mentions_eq_false_iff] at hc ⊢
    rw [Constraint.paths_eq_of_sameAs hd]
    exact hc

/-- A root that the constraints do not read is consumed already. -/
theorem results_whenRelevant_consumes {x : PathM Bool}
    (hx : Results x f (fun _ g => f.store.Consumes p g.store) fun _ _ => True) :
    Results (whenRelevant p x) f (fun _ g => f.store.Consumes p g.store) fun _ _ => True := by
  unfold whenRelevant
  rw [results_bind, results_store]
  split
  · rw [results_bind]
    exact hx
  · rename_i hrelevant
    exact ⟨PathStore.within_ne_of_not_isRelevant hrelevant, fun _ _ hs => hs⟩

/-- Replacing a root by something that does not read it. -/
theorem results_replaceRoot_consumes {carry : List Field → Replacement Term}
    (hchanges : ∀ rest, carry rest ≠ .unchanged)
    (hcarry : ∀ rest t, carry rest = .changed t → t.Within (· ≠ p)) :
    Results (changeAll (Constraint.replace (Term.replacePaths fun v =>
        ((v.restAfter? ⟨p, []⟩).map carry).getD .unchanged))) f
      (fun _ g => f.store.Consumes p g.store) fun _ _ => True := by
  have hwithin := results_replaceRoot_within (f := f) (fun v _ => Classical.em (v.base = p))
    hchanges hcarry
  refine (hwithin.and (results_replacePaths_spares fun v hv => ?_)).mono
    (fun _ g hg => ⟨hg.1, hg.2⟩) fun _ _ _ => trivial
  rw [restAfter?_of_base_ne hv]
  rfl

theorem results_substitute_consumes (hinsert : insert.Within (· ≠ p)) :
    Results (substitute insert ⟨p, []⟩) f (fun _ g => f.store.Consumes p g.store)
      fun _ _ => True :=
  results_replaceRoot_consumes extendBare_ne_unchanged fun _ _ => Term.within_of_extendBare hinsert

theorem results_splice_consumes (hinsert : insert.Within (· ≠ p)) :
    Results (splice insert ⟨p, []⟩) f (fun _ g => f.store.Consumes p g.store)
      fun _ _ => True :=
  results_replaceRoot_consumes extend_ne_unchanged fun _ _ => Term.within_of_extend hinsert

theorem results_define_consumes {value : Option Term} (h : ∀ t ∈ value, t.Within (· ≠ p)) :
    Results (define p value) f (fun _ g => f.store.Consumes p g.store) fun _ _ => True := by
  refine results_whenRelevant_consumes ?_
  cases value with
  | none => exact results_dropMentioning_consumes
  | some t => exact results_substitute_consumes (h t rfl).folded

theorem results_allocate_consumes {object : Pointer} (length : Option Term) (hobject : object ≠ p) :
    Results (allocate p object length) f (fun _ g => f.store.Consumes p g.store)
      fun _ _ => True := by
  -- the reads of fields are rewritten first, and what is left at the root becomes the object
  have hfields : ∀ g : Frame PathStore, f.store.Spares p g.store → Results (do
      spliceReads (.const 0) p ((← store).fieldsReadThrough p).toList
      let _ ← substitute (.bare object) ⟨p, []⟩) g (fun _ g => f.store.Consumes p g.store)
      fun _ _ => True := by
    intro g hg
    simp only [results_bind, results_store, results_pure]
    refine (results_spliceReads_spares _).mono (fun _ g₁ hg₁ => ?_) fun _ _ h => h
    refine (results_substitute_consumes (Term.within_var hobject)).mono (fun _ g₂ hg₂ => ?_)
      fun _ _ h => h
    exact ⟨hg₂.within, (hg.trans hg₁).trans hg₂.spares⟩
  unfold allocate
  rw [results_bind, results_store]
  split
  · rename_i hrelevant
    refine ⟨PathStore.within_ne_of_not_isRelevant ?_, fun _ _ hs => hs⟩
    simpa using hrelevant
  · cases length with
    | none => exact hfields f fun _ _ hs => hs
    | some length =>
      rw [results_bind]
      exact (results_spliceRead_spares .length).mono (fun _ g hg => hfields g hg) fun _ _ h => h

theorem results_loadElement_consumes {array : Pointer} {index : Term} (harray : array ≠ p)
    (hname : ∀ n, p ≠ .known (.index n)) (hindex : index.Within (· ≠ p)) :
    Results (loadElement p array index) f (fun _ g => f.store.Consumes p g.store)
      fun _ _ => True := by
  unfold loadElement
  rw [results_bind, results_store]
  split
  · rename_i hrelevant
    refine ⟨PathStore.within_ne_of_not_isRelevant ?_, fun _ _ hs => hs⟩
    simpa using hrelevant
  · rw [results_bind, results_options]
    split
    · rw [results_bind]
      exact results_dropMentioning_consumes
    · simp only [results_bind, results_fresh]
      refine (results_splice_consumes (Term.within_var harray)).mono (fun _ g hg => ?_)
        fun _ _ h => h
      -- the new constraint reads the index and a name that no local has
      have hindexName : ∀ n, (Term.bare (.known (.index n))).Within (· ≠ p) := fun n =>
        Term.within_var fun heq => hname n heq.symm
      refine ((results_require_within hg.within (hindexName _) hindex).and
        (results_of_ok fun _ g' hrun c hc hs => ?_)).mono (fun _ g' hg' => ⟨hg'.1, hg'.2⟩)
        fun _ _ _ => trivial
      exact has_require (hg.spares c hc hs) hrun

/-! ### Instructions -/

theorem within_operand {site : Site} {d : Local} {o : Operand}
    (h : .slot site.method d ∉ o.roots site.method) :
    (o.term site).Within (· ≠ .slot site.method d) := by
  cases o with
  | slot l =>
    refine Term.within_var fun heq => h ?_
    cases heq
    exact List.mem_singleton.2 rfl
  | const | null => exact Term.within_const

/-- An instruction that defines a local without reading it consumes what is said of the local, and
there are no further cases. -/
theorem results_visit_consumes (h : HeapGraph) {site : Site} {i : Instruction} {d : Local}
    (htarget : i.target? = some d) (hcall : i.call? = none)
    (hread : .slot site.method d ∉ i.read site.method) :
    Results (visit h site i) f
      (fun rest g => rest = [] ∧ f.store.Consumes (.slot site.method d) g.store)
      fun _ _ => True := by
  have hend : ∀ {x : PathM Unit}, Results x f (fun _ g =>
      f.store.Consumes (.slot site.method d) g.store) (fun _ _ => True) →
      Results (do x; return []) f (fun (rest : List PathStore) g =>
        rest = [] ∧ f.store.Consumes (.slot site.method d) g.store) fun _ _ => True := by
    intro x hx
    rw [results_bind]
    exact hx.mono (fun _ g hg => ⟨rfl, hg⟩) fun _ _ h => h
  have hother : ∀ {l : Local}, .slot site.method d ∉ [Location.slot site.method l] →
      Pointer.slot site.method l ≠ .slot site.method d := by
    rintro l hl heq
    cases heq
    exact hl List.mem_cons_self
  have hlocal : ∀ {l : Local} {fields : List Field},
      .slot site.method d ∉ [Location.slot site.method l] →
      (Term.var ⟨.slot site.method l, fields⟩).Within (· ≠ .slot site.method d) :=
    fun hl => Term.within_var (hother hl)
  unfold visit
  rw [results_bind]
  refine results_requireFeasible ?_ trivial
  cases i with
  | assign t value | checkCast t value =>
    cases htarget
    exact hend (results_whenRelevant_consumes
      (results_substitute_consumes (within_operand hread)))
  | new t s =>
    cases htarget
    exact hend (results_allocate_consumes none (by rintro ⟨⟩))
  | newArray t s length =>
    cases htarget
    exact hend (results_allocate_consumes _ (by rintro ⟨⟩))
  | load t base field =>
    cases htarget
    exact hend (results_whenRelevant_consumes (results_splice_consumes (hlocal hread)))
  | arrayLength t array =>
    cases htarget
    exact hend (results_whenRelevant_consumes (results_splice_consumes (hlocal hread)))
  | staticLoad t field =>
    cases htarget
    exact hend (results_whenRelevant_consumes
      (results_splice_consumes (Term.within_var (by rintro ⟨⟩))))
  | arrayLoad t array index =>
    cases htarget
    obtain ⟨harray, hindex⟩ := not_or.1 (List.mem_cons.not.1 hread)
    refine hend (results_loadElement_consumes (hother ?_) (fun n => by rintro ⟨⟩)
      (within_operand hindex))
    exact List.mem_singleton.not.2 harray
  | binary t op l r type =>
    cases htarget
    obtain ⟨hl, hr⟩ := not_or.1 (List.mem_append.not.1 hread)
    refine hend (results_define_consumes fun t ht => ?_)
    split at ht
    · cases ht
      exact Term.within_bin (within_operand hl) (within_operand hr)
    · cases ht
  | unary t op value type =>
    cases htarget
    cases op
    refine hend (results_define_consumes fun t ht => ?_)
    split at ht
    · cases ht
      exact Term.within_bin Term.within_const (within_operand hread)
    · cases ht
  | compare t l r type =>
    cases htarget
    obtain ⟨hl, hr⟩ := not_or.1 (List.mem_append.not.1 hread)
    dsimp only
    rw [results_bind, results_store]
    refine hend (results_define_consumes fun t ht => ?_)
    split at ht
    · cases ht
      exact Term.within_const
    · split at ht
      · cases ht
        exact Term.within_bin (within_operand hl) (within_operand hr)
      · cases ht
  | conversion t value source dest =>
    cases htarget
    refine hend (results_define_consumes fun t ht => ?_)
    split at ht
    · cases ht
      exact within_operand hread
    · cases ht
      exact within_operand hread
    · cases ht
      exact within_operand hread
    · cases ht
  | instanceOf t value | metadata t =>
    cases htarget
    exact hend (results_define_consumes fun t ht => by cases ht)
  | invoke => cases hcall
  | store | staticStore | arrayStore | branch | switch | ret | nop => cases htarget

end PathM

end Refuter
