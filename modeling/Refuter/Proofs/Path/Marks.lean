import Refuter.Proofs.Path.Branches

/-!
# How long a mark lasts

A store that was sent to the solver is marked, and its copies with it. An operation takes the mark
away only where it rewrites, adds or removes a constraint: if it replaces no path that the store
reads, it leaves the constraints and the mark as they are, or the constraints are others afterwards.

That the constraints are others is not seen from one change alone, since a later change might undo
it. So the changes of each operation go in one direction: constraints become fewer, or they become
more, or, for a write to an array, their paths become shorter.
-/

namespace Refuter

open StoreM

/-! ## 1. Directions -/

/-- The constraints and the mark of `s`, or constraints that are further in a direction. -/
def PathStore.Moves (further : List Constraint → List Constraint → Prop) (s t : PathStore) : Prop :=
  t.constraints = s.constraints ∧ t.checked = s.checked ∨ further s.constraints t.constraints

theorem PathStore.Moves.refl {further : List Constraint → List Constraint → Prop} (s : PathStore) :
    s.Moves further s := .inl ⟨rfl, rfl⟩

/-- One more change in the same direction. -/
theorem PathStore.Moves.step {further : List Constraint → List Constraint → Prop}
    {s t u : PathStore} (htrans : ∀ {bs cs ds}, further bs cs → further cs ds → further bs ds)
    (ht : s.Moves further t) (hu : further t.constraints u.constraints) : s.Moves further u := by
  obtain ⟨hsame, -⟩ | ht := ht
  · exact .inr (hsame ▸ hu)
  · exact .inr (htrans ht hu)

/-- Fewer constraints. -/
def Fewer (cs ds : List Constraint) : Prop := ds.length < cs.length

theorem Fewer.irrefl (cs : List Constraint) : ¬ Fewer cs cs := Nat.lt_irrefl _

theorem Fewer.trans {bs cs ds : List Constraint} (h : Fewer bs cs) (h' : Fewer cs ds) :
    Fewer bs ds := Nat.lt_trans h' h

/-- More constraints. -/
def More (cs ds : List Constraint) : Prop := cs.length < ds.length

theorem More.irrefl (cs : List Constraint) : ¬ More cs cs := Nat.lt_irrefl _

theorem More.trans {bs cs ds : List Constraint} (h : More bs cs) (h' : More cs ds) : More bs ds :=
  Nat.lt_trans h h'

namespace PathM

variable {α : Type} {further : List Constraint → List Constraint → Prop} {s : PathStore}

/-- From stores that `s` moves to, the operation goes on to such stores. -/
abbrev Tends (further : List Constraint → List Constraint → Prop) (s : PathStore) (x : PathM α)
    (Q : α → Prop) : Prop :=
  Evolves (fun _ : Timeless => fun _ => True) (fun _ => s.Moves further) (fun _ => True) .world x
    fun _ => Q

theorem tends_mono : Monotone fun _ : Timeless => s.Moves further := fun _ _ _ => le_refl _

theorem tends_session {x : SessionM α} : Tends further s (session x) fun _ => True :=
  evolves_session tends_mono fun _ _ => ⟨.world, le_refl _, trivial, trivial⟩

theorem tends_of_edits {x : PathM α} {R : Frame PathStore → PathStore → Prop} (hx : Edits x R)
    (h : ∀ f t, s.Moves further f.store → R f t → s.Moves further t) :
    Tends further s x fun _ => True := by
  intro f _ hf
  refine (hx f).mono (fun _ g hg => ?_) fun e g hg => ?_
  · obtain ⟨-, hstore | hR⟩ := hg
    · exact ⟨.world, le_refl _, trivial, hstore ▸ hf, trivial⟩
    · exact ⟨.world, le_refl _, trivial, h f g.store hf hR, trivial⟩
  · -- a refutation takes down a flag that no direction looks at
    obtain ⟨-, -, hstore | hstore⟩ := hg
    · exact ⟨.world, le_refl _, trivial, hstore ▸ hf, trivial⟩
    · rw [hstore]
      exact ⟨.world, le_refl _, trivial, hf, trivial⟩

theorem tends_refute {r : Refutation} {Q : α → Prop} : Tends further s (refute r) Q := by
  refine tends_session.bind fun _ _ _ _ => ?_
  refine Evolves.bind (evolves_modifyStore fun t ht => ht) fun _ _ _ _ => ?_
  exact evolves_throw trivial

theorem tends_requireFeasible : Tends further s requireFeasible fun _ => True := by
  refine evolves_store.bind fun _ t _ _ => ?_
  split
  · exact evolves_throw trivial
  · exact evolves_pure trivial

/-! ## 2. Fewer constraints -/

theorem tends_dropWhere (test : Constraint → Bool) :
    Tends Fewer s (dropWhere test) fun _ => True := by
  refine tends_of_edits (edits_dropWhere test) ?_
  rintro f _ hf ⟨⟨c, hc, htest⟩, rfl⟩
  exact hf.step Fewer.trans (List.length_filter_lt_length_iff_exists.2 ⟨c, hc, by simp [htest]⟩)

/-- A change that finds nothing in `s`. In a store with fewer constraints it may find some, but
does not add any. -/
theorem tends_changeAll {change : Constraint → Settled}
    (h : ∀ c ∈ s.constraints, change c = .unchanged) :
    Tends Fewer s (changeAll change) fun _ => True := by
  refine tends_of_edits (edits_changeAll change) ?_
  rintro f _ hf ⟨⟨c, hc, hchange⟩, rfl⟩
  obtain ⟨hsame, -⟩ | hfewer := hf
  · -- the constraint would be one of `s`
    exact absurd (h c (hsame ▸ hc)) hchange
  · have hlength : (Settled.remaining change f.store.constraints).length ≤
        f.store.constraints.length :=
      Nat.le_trans (eraseDupsBy_sublist _).length_le (List.length_filterMap_le _ _)
    exact .inr (Nat.lt_of_le_of_lt hlength hfewer)

/-- A replacement of paths that `s` does not read. -/
theorem tends_replacePaths {f : AccessPath → Replacement Term}
    (h : ∀ v ∈ s.paths, f v = .unchanged) :
    Tends Fewer s (changeAll (Constraint.replace (Term.replacePaths f))) fun _ => True :=
  tends_changeAll fun c hc => Constraint.replace_eq_unchanged fun v hv =>
    h v (List.mem_flatMap.2 ⟨c, hc, hv⟩)

theorem tends_substitute {target : AccessPath} (h : ∀ v ∈ s.paths, v.restAfter? target = none)
    (insert : Term) : Tends Fewer s (substitute insert target) fun _ => True :=
  tends_replacePaths fun v hv => by simp [h v hv]

theorem tends_splice {target : AccessPath} (h : ∀ v ∈ s.paths, v.restAfter? target = none)
    (insert : Term) : Tends Fewer s (splice insert target) fun _ => True :=
  tends_replacePaths fun v hv => by simp [h v hv]

theorem tends_spliceRead {base : Pointer} {field : Field}
    (h : ∀ v ∈ s.paths, ¬ (v.base = base ∧ v.first? = some field)) (insert : Term) :
    Tends Fewer s (spliceRead insert base field) fun _ => True := by
  refine tends_replacePaths fun v hv => ?_
  have hv := h v hv
  unfold AccessPath.first? at hv
  split
  · rename_i f rest hfields
    rw [hfields] at hv
    rw [if_neg (by simpa using hv)]
  · rfl

theorem restAfter?_of_base_ne {v : AccessPath} {p : Pointer} (h : v.base ≠ p) :
    v.restAfter? ⟨p, []⟩ = none := if_neg h

section Root

variable {p : Pointer} (h : ∀ v ∈ s.paths, v.base ≠ p)
include h

/-- A root that `s` does not read can be given a value. -/
theorem tends_substitute_root (insert : Term) :
    Tends Fewer s (substitute insert ⟨p, []⟩) fun _ => True :=
  tends_substitute (fun v hv => restAfter?_of_base_ne (h v hv)) insert

theorem tends_splice_root (insert : Term) :
    Tends Fewer s (splice insert ⟨p, []⟩) fun _ => True :=
  tends_splice (fun v hv => restAfter?_of_base_ne (h v hv)) insert

end Root

/-- No field of `p` is read. -/
theorem tends_spliceReads {p : Pointer} (h : ∀ v ∈ s.paths, v.base = p → v.fields = [])
    (insert : Term) (fields : List Field) :
    Tends Fewer s (spliceReads insert p fields) fun _ => True := by
  induction fields with
  | nil => exact evolves_pure trivial
  | cons f rest ih =>
    refine (tends_spliceRead (fun v hv hread => ?_) insert).bind fun _ _ _ _ => ih
    have hnone : v.first? = none := by simp [AccessPath.first?, h v hv hread.1]
    rw [hnone] at hread
    cases hread.2

theorem tends_whenRelevant (p : Pointer) {x : PathM Bool} (hx : Tends further s x fun _ => True) :
    Tends further s (whenRelevant p x) fun _ => True :=
  evolves_whenRelevant fun _ _ => hx

theorem tends_dropMentioning (p : Pointer) : Tends Fewer s (dropMentioning p) fun _ => True := by
  refine evolves_store.bind fun _ t _ _ => ?_
  split
  · exact evolves_pure trivial
  · exact tends_dropWhere _

theorem tends_define {p : Pointer} (h : ∀ v ∈ s.paths, v.base ≠ p) (value : Option Term) :
    Tends Fewer s (define p value) fun _ => True := by
  apply tends_whenRelevant
  cases value with
  | some t => exact tends_substitute_root h _
  | none => exact tends_dropMentioning p

theorem tends_allocate {p : Pointer} (h : ∀ v ∈ s.paths, v.base ≠ p) (object : Pointer)
    (length : Option Term) : Tends Fewer s (allocate p object length) fun _ => True := by
  have hfields : Tends Fewer s (do
      spliceReads (.const 0) p ((← store).fieldsReadThrough p).toList
      let _ ← substitute (.bare object) ⟨p, []⟩) fun _ => True :=
    evolves_store.bind fun _ t _ _ =>
      (tends_spliceReads (fun v hv hbase => absurd hbase (h v hv)) _ _).bind fun _ _ _ _ =>
        (tends_substitute_root h _).bind fun _ _ _ _ => evolves_pure trivial
  refine evolves_store.bind fun _ t _ _ => ?_
  split
  · exact evolves_pure trivial
  · cases length with
    | none => exact hfields
    | some t =>
      exact (tends_spliceRead (fun v hv hread => h v hv hread.1) t).bind fun _ _ _ _ => hfields

theorem tends_storeField {base : Pointer} {field : Field}
    (h : ∀ v ∈ s.paths, ¬ (v.base = base ∧ v.first? = some field)) (g : HeapGraph) (value : Term) :
    Tends Fewer s (storeField g base field value) fun _ => True := by
  refine evolves_store.bind fun _ t _ _ => ?_
  split
  · exact evolves_pure trivial
  · exact (tends_spliceRead h value).bind fun _ _ _ _ =>
      (tends_dropWhere _).bind fun _ _ _ _ => evolves_pure trivial

theorem tends_rename {p : Pointer} (h : ∀ v ∈ s.paths, v.base ≠ p) (q : Pointer) :
    Tends Fewer s (rename p q) fun _ => True := by
  refine evolves_store.bind fun _ t _ _ => ?_
  split
  · exact evolves_pure trivial
  · exact tends_substitute_root h _

theorem tends_zeroRoots {roots : List Pointer} (h : ∀ p ∈ roots, ∀ v ∈ s.paths, v.base ≠ p) :
    Tends Fewer s (zeroRoots roots) fun _ => True := by
  induction roots with
  | nil => exact evolves_pure trivial
  | cons p rest ih =>
    exact (tends_substitute_root (h p List.mem_cons_self) _).bind fun _ _ _ _ =>
      ih fun q hq => h q (List.mem_cons_of_mem _ hq)

theorem tends_bindFormals {callee : MethodId} {args : List (Local × Operand)}
    (h : ∀ x ∈ args, ∀ v ∈ s.paths, v.base ≠ .slot callee x.1) (caller : Site) :
    Tends Fewer s (bindFormals caller callee args) fun _ => True := by
  induction args with
  | nil => exact evolves_pure trivial
  | cons x rest ih =>
    exact (tends_substitute_root (h x List.mem_cons_self) _).bind fun _ _ _ _ =>
      ih fun y hy => h y (List.mem_cons_of_mem _ hy)

theorem tends_takeSiteEqualities : Tends Fewer s takeSiteEqualities fun _ => True := by
  intro f _ hf
  unfold takeSiteEqualities
  simp only [results_bind, results_store]
  refine results_debugAll fun session _ => ?_
  split
  · rename_i htaken
    obtain ⟨c, hc, hsite⟩ : ∃ c ∈ f.store.constraints, siteEquality? c ≠ none := by
      simpa using htaken
    refine ⟨.world, le_refl _, trivial, hf.step Fewer.trans ?_, trivial⟩
    exact List.length_filter_lt_length_iff_exists.2 ⟨c, hc, by simpa using hsite⟩
  · exact ⟨.world, le_refl _, trivial, hf, trivial⟩

theorem tends_skipCall (call : Instruction) (caller : Site) :
    Tends Fewer s (skipCall call caller) fun _ => True := by
  have hdrop : ∀ test, Tends Fewer s (do let _ ← dropWhere test) fun _ => True := fun test =>
    (tends_dropWhere test).bind fun _ _ _ _ => evolves_pure trivial
  refine (evolves_callOf fun _ => trivial).bind fun _ parts _ _ => ?_
  dsimp only
  split
  · exact (tends_dropMentioning _).bind fun _ _ _ _ => hdrop _
  · exact hdrop _

/-! ## 3. More constraints -/

theorem more_append (cs : List Constraint) (c : Constraint) : More cs (cs ++ [c]) := by
  unfold More
  rw [List.length_append]
  exact Nat.lt_succ_self _

theorem tends_add (c : Constraint) : Tends More s (add c) fun _ => True := by
  refine tends_of_edits (edits_add c) ?_
  rintro f _ hf ⟨-, rfl⟩
  exact hf.step More.trans (more_append _ c)

theorem tends_require (lhs : Term) (op : CmpOp) (rhs : Term) :
    Tends More s (require lhs op rhs) fun _ => True :=
  tends_session.bind fun _ c _ _ => tends_add c

theorem tends_exclude (scrutinee : Term) (values : List Int64) :
    Tends More s (exclude scrutinee values) fun _ => True := by
  induction values with
  | nil => exact evolves_pure trivial
  | cons v rest ih => exact (tends_require scrutinee .ne _).bind fun _ _ _ _ => ih

theorem tends_split (scrutinee : Term) (values : List Int64) :
    Tends More s (split scrutinee values) fun rest => ∀ t ∈ rest, s.Moves More t := by
  refine evolves_store.bind fun _ t _ ht => ?_
  refine (evolves_attemptAll tends_mono tends_mono (fun _ h => h) (fun b hb _ _ => ?_)
    fun t ht => ?_).bind fun _ cases _ hlive =>
      evolves_commit tends_mono (fun _ => tends_refute) hlive
  · obtain ⟨v, -, rfl⟩ := List.mem_map.1 hb
    exact (tends_require scrutinee .eq _).on ht
  · cases ht

end PathM

/-! ## 4. Shorter paths -/

/-- Fields that the paths of the term read. -/
def Term.reads : Term → Nat
  | const _ => 0
  | var v => v.fields.length
  | bin l _ r => l.reads + r.reads

def Constraint.reads (c : Constraint) : Nat := c.lhs.reads + c.rhs.reads

/-- Fields that all constraints read. -/
def totalReads : List Constraint → Nat
  | [] => 0
  | c :: rest => c.reads + totalReads rest

/-- Fewer fields are read, or as many by more constraints. -/
def Shorter (cs ds : List Constraint) : Prop :=
  totalReads ds < totalReads cs ∨ totalReads ds = totalReads cs ∧ cs.length < ds.length

theorem Shorter.irrefl (cs : List Constraint) : ¬ Shorter cs cs := by
  unfold Shorter
  omega

theorem Shorter.trans {bs cs ds : List Constraint} (h : Shorter bs cs) (h' : Shorter cs ds) :
    Shorter bs ds := by
  unfold Shorter at *
  omega

theorem Term.reads_pos {t : Term} {v : AccessPath} (hv : v ∈ t.paths) (hfields : v.fields ≠ []) :
    0 < t.reads := by
  induction t with
  | const => cases hv
  | var w =>
    rw [List.mem_singleton.1 hv] at hfields
    exact List.length_pos_iff.2 hfields
  | bin l op r ihl ihr =>
    unfold reads
    obtain hv | hv := List.mem_append.1 hv
    · have hl := ihl hv
      omega
    · have hr := ihr hv
      omega

theorem Constraint.reads_pos {c : Constraint} {v : AccessPath} (hv : v ∈ c.paths)
    (hfields : v.fields ≠ []) : 0 < c.reads := by
  unfold reads
  obtain hv | hv := List.mem_append.1 hv
  · have hl := Term.reads_pos hv hfields
    omega
  · have hr := Term.reads_pos hv hfields
    omega

theorem totalReads_append (cs ds : List Constraint) :
    totalReads (cs ++ ds) = totalReads cs + totalReads ds := by
  induction cs with
  | nil => exact (Nat.zero_add _).symm
  | cons c rest ih =>
    show c.reads + totalReads (rest ++ ds) = c.reads + totalReads rest + totalReads ds
    omega

theorem totalReads_le_of_sublist {cs ds : List Constraint} (h : cs.Sublist ds) :
    totalReads cs ≤ totalReads ds := by
  induction h with
  | slnil => exact Nat.le_refl _
  | cons c _ ih => exact Nat.le_add_left_of_le ih
  | cons_cons c _ ih => exact Nat.add_le_add_left ih _

/-- What is dropped read something. -/
theorem totalReads_filter_lt {cs : List Constraint} {test : Constraint → Bool} {c : Constraint}
    (hc : c ∈ cs) (htest : test c = false) (hreads : 0 < c.reads) :
    totalReads (cs.filter test) < totalReads cs := by
  obtain ⟨before, after, rfl⟩ := List.append_of_mem hc
  have hbefore := totalReads_le_of_sublist (List.filter_sublist (p := test) (l := before))
  have hafter := totalReads_le_of_sublist (List.filter_sublist (p := test) (l := after))
  rw [List.filter_append, List.filter_cons_of_neg (by simp [htest]), totalReads_append,
    totalReads_append]
  show _ < _ + (c.reads + totalReads after)
  omega

/-- A replacement reads less than `n`, or has no model while there was something to read. -/
def Replacement.Lowers (n : Nat) : Replacement Term → Prop
  | unchanged => True
  | changed t => t.reads < n
  | unsupported => 0 < n

/-- Both parts of a pair are replaced: nothing changes, or it has no model, or it reads less. -/
theorem Replacement.both_cases {β : Type} (make : Term → Term → β) {l r : Term}
    {l' r' : Replacement Term} (hl : l'.Lowers l.reads) (hr : r'.Lowers r.reads) :
    both make l l' r r' = .unchanged ∨
      (both make l l' r r' = .unsupported ∧ 0 < l.reads + r.reads) ∨
      ∃ t u, both make l l' r r' = .changed (make t u) ∧ t.reads + u.reads < l.reads + r.reads := by
  unfold Lowers at hl hr
  cases l' with
  | unchanged =>
    cases r' with
    | unchanged => exact .inl rfl
    | changed u => exact .inr (.inr ⟨l, u, rfl, Nat.add_lt_add_left hr _⟩)
    | unsupported => exact .inr (.inl ⟨rfl, Nat.add_pos_right _ hr⟩)
  | changed t =>
    cases r' with
    | unchanged => exact .inr (.inr ⟨t, r, rfl, Nat.add_lt_add_right hl _⟩)
    | changed u => exact .inr (.inr ⟨t, u, rfl, Nat.add_lt_add hl hr⟩)
    | unsupported => exact .inr (.inl ⟨rfl, Nat.add_pos_right _ hr⟩)
  | unsupported => exact .inr (.inl ⟨rfl, Nat.add_pos_left hl _⟩)

theorem Term.lowers_replacePaths {f : AccessPath → Replacement Term}
    (hf : ∀ v, (f v).Lowers v.fields.length) (t : Term) : (t.replacePaths f).Lowers t.reads := by
  induction t with
  | const v => trivial
  | var v => exact hf v
  | bin l op r ihl ihr =>
    unfold replacePaths
    obtain heq | ⟨heq, hpos⟩ | ⟨t, u, heq, hlt⟩ := Replacement.both_cases (bin · op ·) ihl ihr
    · rw [heq]
      trivial
    · rw [heq]
      exact hpos
    · rw [heq]
      exact hlt

/-- What a constraint reads after a change; nothing if it is gone. -/
def Settled.reads (c : Constraint) (s : Settled) : Nat :=
  ((s.remains c).map Constraint.reads).getD 0

/-- A change of one of the constraints lowers what they read. -/
theorem Settled.totalReads_remaining_lt {change : Constraint → Settled}
    (h : ∀ c, change c ≠ .unchanged → (change c).reads c < c.reads) {cs : List Constraint}
    (hcs : ∃ c ∈ cs, change c ≠ .unchanged) : totalReads (remaining change cs) < totalReads cs := by
  have hle : ∀ c, (change c).reads c ≤ c.reads := by
    intro c
    by_cases hc : change c = .unchanged
    · rw [hc]
      exact Nat.le_refl _
    · exact Nat.le_of_lt (h c hc)
  have hcons : ∀ c rest, totalReads ((c :: rest).filterMap fun c => (change c).remains c) =
      (change c).reads c + totalReads (rest.filterMap fun c => (change c).remains c) := by
    intro c rest
    unfold Settled.reads
    cases hc : (change c).remains c with
    | none => simp [hc]
    | some d => simp [hc, totalReads]
  have hall : ∀ ds : List Constraint,
      totalReads (ds.filterMap fun c => (change c).remains c) ≤ totalReads ds := by
    intro ds
    induction ds with
    | nil => exact Nat.le_refl _
    | cons d rest ih =>
      rw [hcons]
      exact Nat.add_le_add (hle d) ih
  have hlt : totalReads (cs.filterMap fun c => (change c).remains c) < totalReads cs := by
    -- around the constraint that is changed, the others read no more than before
    obtain ⟨c, hc, hchange⟩ := hcs
    obtain ⟨before, after, rfl⟩ := List.append_of_mem hc
    have hbefore := hall before
    have hafter := hall after
    have hc := h c hchange
    rw [List.filterMap_append, totalReads_append, totalReads_append, hcons]
    show _ < _ + (c.reads + totalReads after)
    omega
  -- constraints that became equal are kept once
  exact Nat.lt_of_le_of_lt (totalReads_le_of_sublist (eraseDupsBy_sublist _)) hlt

theorem Constraint.reads_replace_lt {f : Term → Replacement Term}
    (hf : ∀ t, (f t).Lowers t.reads) (c : Constraint) (hc : c.replace f ≠ .unchanged) :
    (c.replace f).reads c < c.reads := by
  -- a constraint between constants is gone afterwards, any other stays as it is
  have hsettle : ∀ d : Constraint, d.settle.reads c ≤ d.reads := by
    intro d
    cases hd : d.settle with
    | unchanged =>
      unfold settle at hd
      split at hd
      · split at hd <;> cases hd
      · cases hd
    | changed e =>
      obtain ⟨rfl, -⟩ := eq_of_settle hd
      exact Nat.le_refl _
    | resolved | dropped => exact Nat.zero_le _
  unfold replace at hc ⊢
  obtain heq | ⟨heq, hpos⟩ | ⟨t, u, heq, hlt⟩ :=
    Replacement.both_cases ({ c with lhs := ·, rhs := · }) (hf c.lhs) (hf c.rhs)
  · rw [heq] at hc
    exact absurd rfl hc
  · rw [heq]
    exact hpos
  · rw [heq]
    exact Nat.lt_of_le_of_lt (hsettle _) hlt

theorem Operand.reads_term (site : Site) (o : Operand) : (o.term site).reads = 0 := by
  cases o <;> rfl

namespace PathM

variable {s : PathStore}

theorem tends_dropReads {test : Constraint → Bool} (h : ∀ c, test c = true → 0 < c.reads) :
    Tends Shorter s (dropWhere test) fun _ => True := by
  refine tends_of_edits (edits_dropWhere test) ?_
  rintro f _ hf ⟨⟨c, hc, htest⟩, rfl⟩
  exact hf.step Shorter.trans (.inl (totalReads_filter_lt hc (by simp [htest]) (h c htest)))

/-- A read gives way to a value that reads nothing itself. -/
theorem lowers_spliceRead {insert : Term} (h : insert.reads = 0) (base : Pointer) (field : Field)
    (t : Term) : (Term.spliceRead insert base field t).Lowers t.reads := by
  refine Term.lowers_replacePaths (fun v => ?_) t
  split
  · rename_i f rest hfields
    rw [hfields, List.length_cons]
    split
    · -- the first field goes, the rest is read from the value
      unfold Term.extend
      split
      · show insert.reads < _
        omega
      · rename_i w _
        have hw : w.fields.length = 0 := h
        show (w.fields ++ rest).length < _
        rw [List.length_append]
        omega
      · exact Nat.succ_pos _
    · trivial
  · trivial

theorem tends_spliceRead_bare {insert : Term} (h : insert.reads = 0) (base : Pointer)
    (field : Field) : Tends Shorter s (spliceRead insert base field) fun _ => True := by
  refine tends_of_edits (edits_changeAll _) ?_
  rintro f _ hf ⟨hchanged, rfl⟩
  exact hf.step Shorter.trans (.inl (Settled.totalReads_remaining_lt
    (Constraint.reads_replace_lt (lowers_spliceRead h base field)) hchanged))

theorem tends_require_bare {lhs rhs : Term} (hl : lhs.reads = 0) (hr : rhs.reads = 0)
    (op : CmpOp) : Tends Shorter s (require lhs op rhs) fun _ => True := by
  intro f _ hf
  unfold require
  rw [results_bind, results_session]
  refine tends_of_edits (edits_add _) ?_ _ trivial hf
  rintro g _ hg ⟨-, rfl⟩
  refine hg.step Shorter.trans (.inr ⟨?_, more_append _ _⟩)
  show totalReads (_ ++ [_]) = _
  rw [totalReads_append]
  show _ + (lhs.reads + rhs.reads + 0) = _
  omega

theorem tends_splitElements (array : Pointer) {index value : Term} (hindex : index.reads = 0)
    (hvalue : value.reads = 0) (names : List UInt64) {cases : Survivors PathStore}
    (hlive : ∀ t ∈ cases.live, s.Moves Shorter t) :
    Tends Shorter s (splitElements array index value names cases) fun cases =>
      ∀ t ∈ cases.live, s.Moves Shorter t := by
  induction names generalizing cases with
  | nil => exact evolves_pure hlive
  | cons n rest ih =>
    refine (evolves_attemptAll tends_mono tends_mono (fun _ h => h) (fun b hb _ _ => ?_)
      fun t ht => ?_).bind fun _ cases _ hlive => ih hlive
    · -- the two cases of one surviving store
      obtain ⟨t, ht, hb⟩ := List.mem_flatMap.1 hb
      obtain rfl | hb := List.mem_cons.1 hb
      · exact ((tends_spliceRead_bare hvalue _ _).bind fun _ _ _ _ =>
          tends_require_bare rfl hindex .eq).on (hlive t ht)
      · obtain rfl := List.mem_singleton.1 hb
        exact (tends_require_bare rfl hindex .ne).on (hlive t ht)
    · cases ht

theorem tends_storeElement (g : HeapGraph) (array : Pointer) {index value : Term}
    (hindex : index.reads = 0) (hvalue : value.reads = 0) :
    Tends Shorter s (storeElement g array index value) fun rest =>
      ∀ t ∈ rest, s.Moves Shorter t := by
  have hnone : ∀ t ∈ ([] : List PathStore), s.Moves Shorter t := fun t ht => by cases ht
  refine evolves_options.bind fun _ o _ _ => (tends_dropReads fun c hc => ?_).bind fun _ _ _ _ => ?_
  · -- only reads of elements are dropped
    obtain ⟨v, hv, htest⟩ := List.any_eq_true.1 hc
    refine Constraint.reads_pos hv fun hfields => ?_
    simp [readsElement, AccessPath.first?, hfields] at htest
  · split
    · exact evolves_pure hnone
    · refine evolves_store.bind fun _ t _ _ => ?_
      dsimp only
      split
      · exact evolves_pure hnone
      · refine evolves_store.bind fun _ t _ ht => ?_
        refine (tends_splitElements array hindex hvalue _ fun u hu => ?_).bind
          fun _ cases _ hlive => evolves_commit tends_mono (fun _ => tends_refute) hlive
        rw [List.mem_singleton.1 hu]
        exact ht

end PathM

/-! ## 5. Operations -/

/-- The root that an instruction gives a value. -/
def Instruction.root? (site : Site) : Instruction → Option Pointer
  | .staticStore field _ => some (.global field)
  | .ret (some _) => some (.result site.method)
  | .invoke .. => none
  | i => i.target?.map (Pointer.slot site.method)

/-- The path begins with a field that the instruction writes. -/
def Instruction.WritesField (site : Site) (v : AccessPath) : Instruction → Prop
  | .store base field _ => v.base = .slot site.method base ∧ v.first? = some field
  | _ => False

/-- The path has another value, or none, before the call than at the entry of the callee. -/
def Method.Binds (callee : Method) (args : List Operand) (v : AccessPath) : Prop :=
  (∃ x ∈ callee.params.zip args, v.base = .slot callee.id x.1) ∨
  (callee.kind = .constructor ∧ v.fields ≠ [] ∧
    ∃ receiver ∈ callee.params.head?, v.base = .slot callee.id receiver) ∨
  (callee.kind = .classInit ∧
    (v.base.global?.bind Field.declaringClass?) = some callee.className)

namespace PathOp

/-- The operation puts something else in the place of the path. -/
def Replaces (v : AccessPath) : PathOp → Prop
  | substitute _ target | splice _ target => (v.restAfter? target).isSome = true
  | spliceRead _ base field => v.base = base ∧ v.first? = some field
  | rename p _ => v.base = p
  | visit _ site i => i.root? site = some v.base ∨ i.WritesField site v
  | enterCallee call caller _ =>
    ∃ target callee args, call.call? = some (some target, callee, args) ∧
      v.base = .slot caller.method target
  | returnToCaller call _ =>
    ∃ target callee args, call.call? = some (target, callee, args) ∧ callee.Binds args v
  | add _ | dropMentioning _ | skipCall .. | takeSiteEqualities | check | isFeasible => False

/-- The operation can leave `t` behind when it works on `s`, or go on with it. -/
def Gives (op : PathOp) (s t : PathStore) : Prop :=
  ∃ session, (∃ rest g, op.run ⟨s, session⟩ = .ok rest g ∧ t ∈ g.store :: rest) ∨
    ∃ e g, op.run ⟨s, session⟩ = .error e g ∧ t = g.store

/-- On the way from `s` to `t` the operation rewrites, adds or removes a constraint. A refuted store
is not rewritten any more. -/
def Edits (op : PathOp) (s t : PathStore) : Prop :=
  t.constraints ≠ s.constraints ∨ s.feasible = true ∧ ∃ v ∈ s.paths, op.Replaces v

end PathOp

namespace PathM

variable {s : PathStore} {α : Type}

/-- No constraints at all are reached. -/
abbrev Nowhere (_ _ : List Constraint) : Prop := False

theorem moves_nowhere {t : PathStore} (ht : s.Moves Nowhere t) :
    t.constraints = s.constraints ∧ t.checked = s.checked := ht.resolve_right id

theorem tends_loadElement {p : Pointer} (h : ∀ v ∈ s.paths, v.base ≠ p) (array : Pointer)
    (index : Term) : Tends Nowhere s (loadElement p array index) fun _ => True := by
  refine evolves_store.bind fun _ t _ ht => ?_
  have hpaths : t.paths = s.paths := congrArg (·.flatMap Constraint.paths) (moves_nowhere ht).1
  have hrelevant : t.isRelevant p = false := decide_eq_false fun hp => by
    obtain ⟨v, hv, hbase⟩ := PathStore.mem_pointers.1 hp
    exact h v (hpaths ▸ hv) hbase
  rw [hrelevant]
  exact evolves_pure trivial

theorem tends_check (h : s.checked = true) : Tends Nowhere s check fun _ => True := by
  refine tends_requireFeasible.bind fun _ _ _ _ => evolves_store.bind fun _ t _ ht => ?_
  rw [(moves_nowhere ht).2, h, Bool.or_true]
  exact evolves_pure trivial

theorem tends_enterCallee {call : Instruction} {caller : Site}
    (h : ∀ target callee args, call.call? = some (some target, callee, args) →
      ∀ v ∈ s.paths, v.base ≠ .slot caller.method target) (callee : MethodId) :
    Tends Fewer s (enterCallee call caller callee) fun _ => True := by
  refine (evolves_callOf fun _ => trivial).bind fun _ parts _ hparts => ?_
  obtain ⟨target, method, args⟩ := parts
  cases target with
  | none => exact evolves_pure trivial
  | some d => exact tends_whenRelevant _ (tends_substitute_root (h d method args hparts) _)

theorem tends_initialValues {callee : Method} {args : List Operand}
    (h : ∀ v ∈ s.paths, ¬ callee.Binds args v) :
    Tends Fewer s (initialValues callee) fun _ => True := by
  unfold initialValues
  split
  · rename_i receiver rest hkind hparams
    refine evolves_store.bind fun _ t _ _ => tends_spliceReads (fun v hv hbase => ?_) _ _
    by_contra hfields
    refine h v hv (.inr (.inl ⟨hkind, hfields, receiver, ?_, hbase⟩))
    rw [hparams]
    rfl
  · rename_i hkind
    refine evolves_store.bind fun _ t _ _ => tends_zeroRoots fun p hp v hv hbase => ?_
    refine h v hv (.inr (.inr ⟨hkind, ?_⟩))
    rw [hbase]
    simpa using (List.mem_filter.1 hp).2
  · exact evolves_pure trivial

theorem tends_returnToCaller {call : Instruction} (caller : Site)
    (h : ∀ target callee args, call.call? = some (target, callee, args) →
      ∀ v ∈ s.paths, ¬ callee.Binds args v) :
    Tends Fewer s (returnToCaller call caller) fun _ => True := by
  refine (evolves_callOf fun _ => trivial).bind fun _ parts _ hparts => ?_
  obtain ⟨target, callee, args⟩ := parts
  have hbinds := h target callee args hparts
  refine (tends_initialValues hbinds).bind fun _ _ _ _ => ?_
  refine (tends_bindFormals (fun x hx v hv hbase => hbinds v hv (.inl ⟨x, hx, hbase⟩)) caller).bind
    fun _ _ _ _ => ?_
  split
  · exact (tends_dropWhere _).bind fun _ _ _ _ => evolves_pure trivial
  · exact evolves_pure trivial

/-- An instruction that replaces no path of `s` moves it in one direction. -/
theorem exists_tends_visit (g : HeapGraph) {site : Site} {i : Instruction}
    (hroot : ∀ v ∈ s.paths, i.root? site ≠ some v.base)
    (hfield : ∀ v ∈ s.paths, ¬ i.WritesField site v) :
    ∃ further, (∀ cs, ¬ further cs cs) ∧
      Tends further s (visit g site i) fun rest => ∀ t ∈ rest, s.Moves further t := by
  have hvisit : ∀ {further : List Constraint → List Constraint → Prop} {x : PathM (List PathStore)},
      Tends further s x (fun rest => ∀ t ∈ rest, s.Moves further t) →
      Tends further s (do requireFeasible; x) fun rest => ∀ t ∈ rest, s.Moves further t :=
    fun hx => tends_requireFeasible.bind fun _ _ _ _ => hx
  have hnone : ∀ {further : List Constraint → List Constraint → Prop},
      Tends further s (pure []) fun rest => ∀ t ∈ rest, s.Moves further t :=
    evolves_pure fun t ht => by cases ht
  have hend : ∀ {further : List Constraint → List Constraint → Prop} {x : PathM Unit},
      Tends further s x (fun _ => True) →
      Tends further s (do requireFeasible; x; return []) fun rest =>
        ∀ t ∈ rest, s.Moves further t := fun hx =>
    hvisit (hx.bind fun _ _ _ _ => hnone)
  -- nothing is read through the root that the instruction gives a value
  have hne : ∀ {p : Pointer}, i.root? site = some p → ∀ v ∈ s.paths, v.base ≠ p :=
    fun hp v hv hbase => hroot v hv (hbase ▸ hp)
  cases i with
  | assign | checkCast | staticStore =>
    exact ⟨Fewer, Fewer.irrefl,
      hend (tends_whenRelevant _ (tends_substitute_root (hne rfl) _))⟩
  | load | staticLoad | arrayLength =>
    exact ⟨Fewer, Fewer.irrefl, hend (tends_whenRelevant _ (tends_splice_root (hne rfl) _))⟩
  | new | newArray => exact ⟨Fewer, Fewer.irrefl, hend (tends_allocate (hne rfl) _ _)⟩
  | store base field value =>
    exact ⟨Fewer, Fewer.irrefl, hend (tends_storeField hfield g _)⟩
  | arrayLoad =>
    -- only a target that is read has its reads replaced and its index compared
    exact ⟨Nowhere, fun _ => id, hend (tends_loadElement (hne rfl) _ _)⟩
  | arrayStore array index value =>
    -- constraints are dropped and added, so their number is no direction
    exact ⟨Shorter, Shorter.irrefl,
      hvisit (tends_storeElement g _ (Operand.reads_term ..) (Operand.reads_term ..))⟩
  | binary | conversion | instanceOf | metadata =>
    exact ⟨Fewer, Fewer.irrefl, hend (tends_define (hne rfl) _)⟩
  | unary d op value type =>
    cases op
    exact ⟨Fewer, Fewer.irrefl, hend (tends_define (hne rfl) _)⟩
  | compare d lhs rhs type =>
    refine ⟨Fewer, Fewer.irrefl, hvisit (evolves_store.bind fun _ t _ _ => ?_)⟩
    exact (tends_define (hne rfl) _).bind fun _ _ _ _ => hnone
  | branch => exact ⟨More, More.irrefl, hend (tends_require _ _ _)⟩
  | switch scrutinee cases chosen =>
    cases chosen with
    | default => exact ⟨More, More.irrefl, hend (tends_exclude _ _)⟩
    | cases values =>
      cases values with
      | nil => exact ⟨More, More.irrefl, hvisit hnone⟩
      | cons => exact ⟨More, More.irrefl, hvisit (tends_split _ _)⟩
  | ret value =>
    cases value with
    | none => exact ⟨More, More.irrefl, hvisit hnone⟩
    | some value =>
      exact ⟨Fewer, Fewer.irrefl,
        hend (tends_whenRelevant _ (tends_substitute_root (hne rfl) _))⟩
  | invoke | nop => exact ⟨More, More.irrefl, hvisit hnone⟩

end PathM

namespace PathOp

open PathM

variable {s t : PathStore}

/-- An operation that replaces no path of a marked store moves it in one direction. -/
theorem exists_tends_run {op : PathOp} (hchecked : s.checked = true)
    (h : ∀ v ∈ s.paths, ¬ op.Replaces v) :
    ∃ further, (∀ cs, ¬ further cs cs) ∧
      Tends further s op.run fun rest => ∀ t ∈ rest, s.Moves further t := by
  have hend : ∀ {further : List Constraint → List Constraint → Prop} {α : Type} {x : PathM α},
      Tends further s x (fun _ => True) →
      Tends further s (do let _ ← x; return []) fun (rest : List PathStore) =>
        ∀ t ∈ rest, s.Moves further t :=
    fun hx => hx.bind fun _ _ _ _ => evolves_pure fun t ht => by cases ht
  cases op with
  | add c => exact ⟨More, More.irrefl, hend (tends_add c)⟩
  | visit g site i =>
    exact exists_tends_visit g (fun v hv hroot => h v hv (.inl hroot))
      fun v hv hfield => h v hv (.inr hfield)
  | substitute insert target =>
    refine ⟨Fewer, Fewer.irrefl, hend (tends_substitute (fun v hv => ?_) insert)⟩
    simpa [Replaces] using h v hv
  | splice insert target =>
    refine ⟨Fewer, Fewer.irrefl, hend (tends_splice (fun v hv => ?_) insert)⟩
    simpa [Replaces] using h v hv
  | spliceRead insert base field =>
    exact ⟨Fewer, Fewer.irrefl, hend (tends_spliceRead h insert)⟩
  | rename p q => exact ⟨Fewer, Fewer.irrefl, hend (tends_rename h q)⟩
  | dropMentioning p => exact ⟨Fewer, Fewer.irrefl, hend (tends_dropMentioning p)⟩
  | enterCallee call caller callee =>
    refine ⟨Fewer, Fewer.irrefl, hend (tends_enterCallee ?_ callee)⟩
    exact fun target method args hcall v hv hbase => h v hv ⟨target, method, args, hcall, hbase⟩
  | returnToCaller call caller =>
    refine ⟨Fewer, Fewer.irrefl, hend (tends_returnToCaller caller ?_)⟩
    exact fun target callee args hcall v hv hbinds => h v hv ⟨target, callee, args, hcall, hbinds⟩
  | skipCall call caller => exact ⟨Fewer, Fewer.irrefl, hend (tends_skipCall call caller)⟩
  | takeSiteEqualities => exact ⟨Fewer, Fewer.irrefl, hend tends_takeSiteEqualities⟩
  | check => exact ⟨Nowhere, fun _ => id, hend (tends_check hchecked)⟩
  | isFeasible => exact ⟨Nowhere, fun _ => id, hend (tends_check hchecked).succeeds⟩

/-- What holds of a run holds of all that it leaves behind. -/
theorem Gives.of_evolves {op : PathOp} {P : PathStore → Prop}
    (h : op.Gives s t) (hs : P s)
    (hrun : Evolves (fun _ : Timeless => fun _ => True) (fun _ => P) (fun _ => True) .world op.run
      fun _ rest => ∀ t ∈ rest, P t) : P t := by
  obtain ⟨session, ⟨rest, g, heq, ht⟩ | ⟨e, g, heq, rfl⟩⟩ := h
  · obtain ⟨-, -, -, hstore, hrest⟩ := (hrun ⟨s, session⟩ trivial hs).of_ok heq
    obtain rfl | ht := List.mem_cons.1 ht
    · exact hstore
    · exact hrest t ht
  · obtain ⟨-, -, -, hstore, -⟩ := (hrun ⟨s, session⟩ trivial hs).of_error heq
    exact hstore

theorem law_refuted :
    PathStore.Law (fun _ : Timeless => fun _ => True) (fun _ s => s.feasible = false)
      (fun _ => True) fun _ _ => True where
  mono _ _ _ := le_refl _
  pointers _ _ _ := le_refl _
  known _ := trivial
  notes _ _ _ _ _ := trivial
  fresh _ := ⟨.world, le_refl _, trivial⟩
  number _ hs := ⟨.world, le_refl _, trivial, fun _ _ _ _ => hs⟩
  change hs _ := hs
  drop _ hs := hs
  refuted _ := rfl
  refutes _ := trivial

/-- A refuted store stays refuted. -/
theorem Gives.refuted {op : PathOp} (h : op.Gives s t) (hs : s.feasible = false) :
    t.feasible = false := by
  refine h.of_evolves hs (evolves_run law_refuted (fun _ => trivial) (fun _ _ => trivial)
    op (fun c _ => ?_) ?_)
  · exact evolves_of_edits law_refuted (edits_add c) fun f _ _ hf ht => ht.2 ▸ hf
  · exact evolves_check law_refuted (fun _ _ _ _ => trivial) fun hs => hs

/-- A mark lasts until a constraint is rewritten, added or removed. -/
theorem Gives.checked {op : PathOp} (h : op.Gives s t) (hedits : ¬ op.Edits s t)
    (hs : s.feasible = true → s.checked = true) : t.feasible = true → t.checked = true := by
  intro ht
  obtain ⟨hsame, hreplaces⟩ := not_or.1 hedits
  by_cases hf : s.feasible = true
  · obtain ⟨further, hirrefl, htends⟩ :=
      exists_tends_run (hs hf) fun v hv hv' => hreplaces ⟨hf, v, hv, hv'⟩
    obtain ⟨-, hmark⟩ | hfurther := h.of_evolves (.refl s) htends
    · rw [hmark, hs hf]
    · -- a direction does not lead back to the same constraints
      rw [not_not.1 hsame] at hfurther
      exact absurd hfurther (hirrefl _)
  · rw [h.refuted (by simpa using hf)] at ht
    cases ht

end PathOp

end Refuter
