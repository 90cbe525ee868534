import Refuter.Proofs.Path.Valuation

/-!
# Substitution in terms

Replacing a path by a term, in the path itself and in all reads through it, has the effect of
changing the valuation: every read through the path gets the value of the inserted term read through
the same fields. The two kinds of substitution differ only in which reads they can express, and
replacing one field of a pointer is a case of the more general one.
-/

namespace Refuter

/-! ## 1. Reads through a path -/

/-- The path is `target` or a read through it. -/
def AccessPath.ReadsThrough (v target : AccessPath) : Prop :=
  v.base = target.base ∧ target.fields <+: v.fields

instance (v target : AccessPath) : Decidable (v.ReadsThrough target) :=
  inferInstanceAs (Decidable (_ ∧ _))

/-- The fields that are read after those of `target`. -/
def AccessPath.fieldsAfter (v target : AccessPath) : List Field :=
  v.fields.drop target.fields.length

theorem fieldsAfter?_eq (start fields : List Field) :
    fieldsAfter? start fields =
      if start <+: fields then some (fields.drop start.length) else none := by
  fun_induction fieldsAfter? start fields with
  | case1 fields => exact (if_pos (List.nil_prefix)).symm
  | case2 f start => exact (if_neg fun h => by cases List.prefix_nil.1 h).symm
  | case3 f start fields ih =>
    rw [ih]
    simp only [List.cons_prefix_cons, true_and, List.length_cons, List.drop_succ_cons]
  | case4 f start g fields hne =>
    refine (if_neg fun h => hne ?_).symm
    exact (List.cons_prefix_cons.1 h).1

namespace AccessPath

variable {v target : AccessPath}

theorem restAfter?_eq : v.restAfter? target =
    if v.ReadsThrough target then some (v.fieldsAfter target) else none := by
  unfold restAfter?
  rw [fieldsAfter?_eq]
  by_cases hbase : v.base = target.base
  · simp only [ReadsThrough, fieldsAfter, hbase, if_true, true_and]
  · rw [if_neg hbase]
    exact (if_neg fun h => hbase h.1).symm

/-- No field is read after the path itself. -/
theorem ReadsThrough.fieldsAfter_eq_nil_iff (h : v.ReadsThrough target) :
    v.fieldsAfter target = [] ↔ v = target := by
  obtain ⟨base, fields⟩ := v
  obtain ⟨rfl, rest, rfl⟩ := h
  cases target with
  | mk base start => simp [fieldsAfter]

end AccessPath

theorem Replacement.both_eq_unsupported_iff {α β : Type} {make : α → α → β} {l r : α}
    {l' r' : Replacement α} :
    both make l l' r r' = .unsupported ↔ l' = .unsupported ∨ r' = .unsupported := by
  cases l' <;> cases r' <;> simp [both]

/-! ## 2. Values of reads -/

namespace Term

variable {V V' : Valuation} {t u insert : Term} {target v : AccessPath} {rest : List Field}
  {f g : AccessPath → Replacement Term}

/-- Value of a term read through fields. Only a path can be read further. -/
def meaningThrough (V : Valuation) (t : Term) (rest : List Field) : Option Value :=
  match rest, t with
  | [], t => t.meaning V
  | rest, var v => V { v with fields := v.fields ++ rest }
  | _, _ => none

/-- A path that already reads a field. -/
def carriesFields : Term → Bool
  | var v => !v.fields.isEmpty
  | _ => false

def isPath : Term → Bool
  | var _ => true
  | _ => false

theorem meaning_extend (h : t.extend rest = .changed u) :
    u.meaning V = t.meaningThrough V rest := by
  cases rest with
  | nil =>
    cases h
    rfl
  | cons f rest =>
    cases t with
    | var v =>
      cases h
      rfl
    | const | bin => cases h

theorem extend_ne_unchanged : t.extend rest ≠ .unchanged := by
  cases rest with
  | nil => exact fun h => by cases h
  | cons f rest => cases t <;> exact fun h => by cases h

theorem extend_eq_unsupported_iff :
    t.extend rest = .unsupported ↔ t.isPath = false ∧ rest ≠ [] := by
  cases rest with
  | nil => simp [extend]
  | cons f rest => cases t <;> simp [extend, isPath]

/-- Only a path that already reads a field makes a difference. -/
theorem extendBare_eq : t.extendBare rest =
    if t.carriesFields = true ∧ rest ≠ [] then .unsupported else t.extend rest := by
  cases rest with
  | nil => simp [extend, extendBare]
  | cons f rest =>
    cases t with
    | const | bin => rfl
    | var v =>
      obtain ⟨base, fields⟩ := v
      cases fields <;> simp [extend, extendBare, carriesFields]

/-! ## 3. Replacing every path -/

theorem replacePaths_congr (h : ∀ v ∈ t.paths, f v = g v) :
    t.replacePaths f = t.replacePaths g := by
  induction t with
  | const v => rfl
  | var v => exact h v List.mem_cons_self
  | bin l op r ihl ihr =>
    unfold replacePaths
    rw [ihl fun v hv => h v (List.mem_append_left _ hv),
      ihr fun v hv => h v (List.mem_append_right _ hv)]

theorem replacePaths_eq_unsupported_iff :
    t.replacePaths f = .unsupported ↔ ∃ v ∈ t.paths, f v = .unsupported := by
  induction t with
  | const v => simp [replacePaths, paths]
  | var v => simp [replacePaths, paths]
  | bin l op r ihl ihr =>
    rw [replacePaths, Replacement.both_eq_unsupported_iff, ihl, ihr]
    simp only [paths, List.mem_append, or_and_right, exists_or]

/-- If what stands for each path has under `V` the value of the path under `V'`, so it is for the
whole term. -/
theorem meaning_replacePaths (ht : t.replacePaths f ≠ .unsupported)
    (hf : ∀ v ∈ t.paths, f v ≠ .unsupported → ((f v).getD (var v)).meaning V = V' v) :
    ((t.replacePaths f).getD t).meaning V = t.meaning V' := by
  induction t with
  | const v => rfl
  | var v => exact hf v List.mem_cons_self ht
  | bin l op r ihl ihr =>
    unfold replacePaths at ht ⊢
    obtain ⟨hl, hr, hgetD⟩ := Replacement.getD_both ht
    rw [hgetD]
    have hl := ihl hl fun v hv => hf v (List.mem_append_left _ hv)
    have hr := ihr hr fun v hv => hf v (List.mem_append_right _ hv)
    simp only [meaning, hl, hr]

/-! ## 4. Substitution -/

/-- The valuation in which `target`, and what is read through it, is `insert`. -/
def rebind (V : Valuation) (target : AccessPath) (insert : Term) : Valuation := fun v =>
  if v.ReadsThrough target then insert.meaningThrough V (v.fieldsAfter target) else V v

/-- What splicing puts for one path. -/
theorem splice_path_eq : ((v.restAfter? target).map insert.extend).getD .unchanged =
    if v.ReadsThrough target then insert.extend (v.fieldsAfter target) else .unchanged := by
  rw [AccessPath.restAfter?_eq]
  split <;> rfl

theorem substitute_path_eq : ((v.restAfter? target).map insert.extendBare).getD .unchanged =
    if insert.carriesFields = true ∧ v.ReadsThrough target ∧ v ≠ target then .unsupported
    else ((v.restAfter? target).map insert.extend).getD .unchanged := by
  rw [splice_path_eq, AccessPath.restAfter?_eq]
  by_cases hv : v.ReadsThrough target
  · have hrest : v.fieldsAfter target ≠ [] ↔ v ≠ target := not_congr hv.fieldsAfter_eq_nil_iff
    simp only [hv, if_true, Option.map_some, Option.getD_some, extendBare_eq, hrest, true_and]
  · simp only [hv, if_false, Option.map_none, Option.getD_none, false_and, and_false]

theorem meaning_splice (h : splice insert target t = .changed u) :
    u.meaning V = t.meaning (rebind V target insert) := by
  have ht : splice insert target t ≠ .unsupported := fun hno => by
    rw [h] at hno
    cases hno
  have hmeaning : ((splice insert target t).getD t).meaning V =
      t.meaning (rebind V target insert) := by
    refine meaning_replacePaths ht fun v _ hv => ?_
    rw [splice_path_eq] at hv ⊢
    unfold rebind
    by_cases hreads : v.ReadsThrough target
    · rw [if_pos hreads] at hv ⊢
      rw [if_pos hreads]
      -- a read through `target` is always replaced, if it can be expressed
      cases hextend : insert.extend (v.fieldsAfter target) with
      | unchanged => exact absurd hextend extend_ne_unchanged
      | changed w => exact meaning_extend hextend
      | unsupported => exact absurd hextend hv
    · rw [if_neg hreads, if_neg hreads]
      rfl
  rw [h] at hmeaning
  exact hmeaning

theorem splice_eq_unchanged_iff :
    splice insert target t = .unchanged ↔ ∀ v ∈ t.paths, ¬ v.ReadsThrough target := by
  refine replacePaths_eq_unchanged_iff.trans (forall₂_congr fun v _ => ?_)
  rw [splice_path_eq]
  by_cases hreads : v.ReadsThrough target
  · rw [if_pos hreads]
    exact ⟨fun h => absurd h extend_ne_unchanged, fun h => absurd hreads h⟩
  · rw [if_neg hreads]
    exact ⟨fun _ => hreads, fun _ => rfl⟩

theorem splice_eq_unsupported_iff : splice insert target t = .unsupported ↔
    insert.isPath = false ∧ ∃ v ∈ t.paths, v.ReadsThrough target ∧ v ≠ target := by
  refine replacePaths_eq_unsupported_iff.trans ?_
  have hpath : ∀ v : AccessPath,
      ((v.restAfter? target).map insert.extend).getD .unchanged = .unsupported ↔
        insert.isPath = false ∧ v.ReadsThrough target ∧ v ≠ target := by
    intro v
    rw [splice_path_eq]
    by_cases hreads : v.ReadsThrough target
    · rw [if_pos hreads, extend_eq_unsupported_iff, Ne, hreads.fieldsAfter_eq_nil_iff]
      simp only [hreads, true_and, Ne]
    · rw [if_neg hreads]
      exact ⟨fun h => (by cases h), fun h => absurd h.2.1 hreads⟩
  simp only [hpath]
  constructor
  · rintro ⟨v, hv, hinsert, hreads⟩
    exact ⟨hinsert, v, hv, hreads⟩
  · rintro ⟨hinsert, v, hv, hreads⟩
    exact ⟨v, hv, hinsert, hreads⟩

/-- Substituting is splicing, but a path that already reads a field carries no further one. -/
theorem substitute_eq : substitute insert target t =
    if insert.carriesFields = true ∧ ∃ v ∈ t.paths, v.ReadsThrough target ∧ v ≠ target
    then .unsupported else splice insert target t := by
  split
  · rename_i h
    obtain ⟨hcarries, v, hv, hreads⟩ := h
    refine replacePaths_eq_unsupported_iff.2 ⟨v, hv, ?_⟩
    exact substitute_path_eq.trans (if_pos ⟨hcarries, hreads⟩)
  · rename_i h
    refine replacePaths_congr fun v hv => substitute_path_eq.trans (if_neg fun hv' => h ?_)
    exact ⟨hv'.1, v, hv, hv'.2⟩

theorem spliceRead_eq_splice (insert : Term) (base : Pointer) (field : Field) (t : Term) :
    spliceRead insert base field t = splice insert ⟨base, [field]⟩ t := by
  refine replacePaths_congr fun v _ => ?_
  rw [splice_path_eq]
  obtain ⟨b, fields⟩ := v
  cases fields with
  | nil => exact (if_neg fun h => by cases List.prefix_nil.1 h.2).symm
  | cons g rest =>
    simp only [AccessPath.ReadsThrough, AccessPath.fieldsAfter, List.cons_prefix_cons,
      List.nil_prefix, and_true, Bool.and_eq_true, decide_eq_true_eq, eq_comm (a := g)]
    rfl

/-- Substitution changes the valuation: where it succeeds, the new term has the value of the old one
after `target` was bound to `insert`, whichever fields are read through it. Nothing changes exactly
if no path of the term is `target` or a read through it. Reads beyond `target` cannot be expressed
if the inserted term is no path, and plain substitution does not express them for a path with fields
either; apart from that the two agree, and so does replacing a field that is read through a
pointer. -/
theorem meaning_substitution (t insert : Term) (target : AccessPath) :
    (∀ (V : Valuation) (u : Term),
      splice insert target t = .changed u ∨ substitute insert target t = .changed u →
      u.meaning V = t.meaning (rebind V target insert)) ∧
    (splice insert target t = .unchanged ↔ ∀ v ∈ t.paths, ¬ v.ReadsThrough target) ∧
    (substitute insert target t = .unchanged ↔ ∀ v ∈ t.paths, ¬ v.ReadsThrough target) ∧
    (splice insert target t = .unsupported ↔
      insert.isPath = false ∧ ∃ v ∈ t.paths, v.ReadsThrough target ∧ v ≠ target) ∧
    (substitute insert target t =
      if insert.carriesFields = true ∧ ∃ v ∈ t.paths, v.ReadsThrough target ∧ v ≠ target
      then .unsupported else splice insert target t) ∧
    ∀ base field, spliceRead insert base field t = splice insert ⟨base, [field]⟩ t := by
  refine ⟨fun V u h => ?_, splice_eq_unchanged_iff, ?_, splice_eq_unsupported_iff, substitute_eq,
    fun base field => spliceRead_eq_splice insert base field t⟩
  · refine meaning_splice (h.elim id fun hu => ?_)
    rw [substitute_eq] at hu
    split at hu
    · cases hu
    · exact hu
  · rw [substitute_eq]
    split
    · rename_i h
      obtain ⟨-, v, hv, hreads, -⟩ := h
      exact ⟨fun h => (by cases h), fun h => absurd hreads (h v hv)⟩
    · exact splice_eq_unchanged_iff

end Term

end Refuter
