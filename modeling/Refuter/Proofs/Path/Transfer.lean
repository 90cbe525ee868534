import Refuter.Proofs.Path.Tracking

/-!
# Instructions on a path store

`Valuation.Executes` relates the values before and after an instruction that moves or computes a
scalar, or that guards the path. A visit never refutes a store whose constraints hold afterwards,
and the values before satisfy one of the stores that come of it.
-/

namespace Refuter

open StoreM

namespace Valuation

/-! ## 1. Values before and after -/

/-- The chains through `p` take the values `g`; everything else is as before. -/
def Updates (V V' : Valuation) (p : Pointer) (g : List Field → Option Value) : Prop :=
  ∀ v, V' v = if v.base = p then g v.fields else V v

/-- `p` and the chains through it take the values at `w`. -/
def Takes (V V' : Valuation) (p : Pointer) (w : AccessPath) : Prop :=
  V.Updates V' p fun fields => V ⟨w.base, w.fields ++ fields⟩

/-- `p` takes the value `x`. -/
def Gets (V V' : Valuation) (p : Pointer) (x : Value) : Prop :=
  ∃ g, g [] = some x ∧ V.Updates V' p g

/-- `p` takes some value. -/
def Forgets (V V' : Valuation) (p : Pointer) : Prop := ∃ g, V.Updates V' p g

/-- Value of an operand in the frame of `m`. -/
def operand (V : Valuation) (m : MethodId) : Operand → Option Value
  | .slot l => V ⟨.slot m l, []⟩
  | .const v => some (.int v.toInt)
  | .null => some (.int 0)

/-- `p` takes what the operand stands for. -/
def Copies (V V' : Valuation) (m : MethodId) (p : Pointer) : Operand → Prop
  | .slot l => V.Takes V' p ⟨.slot m l, []⟩
  | .const v => V.Gets V' p (.int v.toInt)
  | .null => V.Gets V' p (.int 0)

/-- The instruction takes the values `V` to the values `V'`. Arithmetic has a model on the 32 bit
type only, comparison on the integral types or between literals, conversion where it changes no
value. A branch goes the way its comparison says, and a switch to the label of its scrutinee. -/
def Executes (site : Site) (i : Instruction) (V V' : Valuation) : Prop :=
  let slot := Pointer.slot site.method
  let operand := V.operand site.method
  match i with
  | .assign d v | .checkCast d v => V.Copies V' site.method (slot d) v
  | .load d base f => V.Takes V' (slot d) ⟨slot base, [f]⟩
  | .staticLoad d f => V.Takes V' (slot d) ⟨.global f, []⟩
  | .staticStore f v => V.Copies V' site.method (.global f) v
  | .arrayLength d array => V.Takes V' (slot d) ⟨slot array, [.length]⟩
  | .binary d op l r type =>
    match ArithOp.ofBinary? op, type with
    | some op, .int => ∃ a b c, operand l = some (.int a) ∧ operand r = some (.int b) ∧
        op.result a b = some c ∧ V.Gets V' (slot d) (.int c)
    | _, _ => V.Forgets V' (slot d)
  | .unary d .neg v type =>
    match type with
    | .int => ∃ a c, operand v = some (.int a) ∧ ArithOp.sub.result 0 a = some c ∧
        V.Gets V' (slot d) (.int c)
    | _ => V.Forgets V' (slot d)
  | .compare d l r type =>
    if type.isIntegral || l.const?.isSome && r.const?.isSome then
      ∃ a b, operand l = some (.int a) ∧ operand r = some (.int b) ∧
        V.Gets V' (slot d) (.int (a - b).sign)
    else V.Forgets V' (slot d)
  | .conversion d v source dest =>
    match source, dest with
    | .int, .int | .int, .long | .long, .long => V.Copies V' site.method (slot d) v
    | _, _ => V.Forgets V' (slot d)
  | .instanceOf d _ | .metadata d => V.Forgets V' (slot d)
  | .branch op l r taken =>
    V' = V ∧ ∃ a b, operand l = some a ∧ operand r = some b ∧ op.truth a b = some taken
  | .switch v cases label =>
    V' = V ∧ ∃ a, operand v = some a ∧
      match label with
      | .default => ∀ n ∈ cases, a ≠ .int n.toInt
      | .cases values => ∃ n ∈ values, a = .int n.toInt
  | .ret (some v) => V.Copies V' site.method (.result site.method) v
  | .ret none | .nop => V' = V
  | .new .. | .newArray .. | .store .. | .arrayLoad .. | .arrayStore .. | .invoke .. => False

variable {V V' : Valuation} {p : Pointer} {g : List Field → Option Value}

theorem meaning_term {site : Site} {v : Operand} :
    (v.term site).meaning V = V.operand site.method v := by
  cases v <;> rfl

theorem Takes.forgets {w : AccessPath} (h : V.Takes V' p w) : V.Forgets V' p := ⟨_, h⟩

theorem Gets.forgets {x : Value} (h : V.Gets V' p x) : V.Forgets V' p := by
  obtain ⟨g, -, hg⟩ := h
  exact ⟨g, hg⟩

/-- A constraint that does not mention the updated pointer is not affected. -/
theorem Updates.holds_iff {c : Constraint} (hu : V.Updates V' p g) (hc : c.mentions p = false) :
    c.Holds V' ↔ c.Holds V := by
  refine Constraint.holds_congr fun v hv => ?_
  have hne : v.base ≠ p := by
    intro hp
    have hmentions : c.mentions p = true := by
      unfold Constraint.mentions Term.mentions
      rw [Bool.or_eq_true, List.any_eq_true, List.any_eq_true]
      exact (List.mem_append.1 hv).imp (fun hv => ⟨v, hv, decide_eq_true hp⟩)
        fun hv => ⟨v, hv, decide_eq_true hp⟩
    rw [hc] at hmentions
    cases hmentions
  rw [hu v, if_neg hne]

/-- Putting a term for a pointer carries values over if the term carries the chains it can. -/
theorem Updates.carries {ext : List Field → Replacement Term} (hu : V.Updates V' p g)
    (hext : ∀ rest, ext rest ≠ .unsupported →
      ∃ t, ext rest = .changed t ∧ ∀ x, g rest = some x → t.meaning V = some x) (v : AccessPath) :
    (Term.var v).Carries V V' (((v.restAfter? ⟨p, []⟩).map ext).getD .unchanged) := by
  intro hne x hx
  have hx : V' v = some x := hx
  rw [hu v] at hx
  unfold AccessPath.restAfter? fieldsAfter? at hne ⊢
  by_cases hp : v.base = p
  · simp only [hp, if_true, Option.map_some, Option.getD_some] at hne hx ⊢
    obtain ⟨t, ht, hmeaning⟩ := hext v.fields hne
    rw [ht]
    exact hmeaning x hx
  · simp only [hp, if_false, Option.map_none, Option.getD_none] at hx ⊢
    exact hx

end Valuation

/-! ## 2. Moving and computing values -/

namespace PathM

variable {V V' : Valuation} {f : Frame PathStore} {p q : Pointer} {site : Site}

theorem ends_splice_of_takes {w : AccessPath} (hV : V.SitesAreRefs) (hs : V'.Supports f.store)
    (h : V.Takes V' p w) :
    Ends (splice (.var w) ⟨p, []⟩) f fun _ g => V.Supports g.store := by
  refine ends_replacePaths hV hs (Valuation.Updates.carries h fun rest _ => ?_)
  cases rest with
  | nil =>
    refine ⟨.var w, rfl, fun x hx => ?_⟩
    rw [List.append_nil] at hx
    exact hx
  | cons field rest => exact ⟨_, rfl, fun x hx => hx⟩

theorem ends_substitute_of_takes (hV : V.SitesAreRefs) (hs : V'.Supports f.store)
    (h : V.Takes V' p ⟨q, []⟩) :
    Ends (substitute (.bare q) ⟨p, []⟩) f fun _ g => V.Supports g.store := by
  refine ends_replacePaths hV hs (Valuation.Updates.carries h fun rest _ => ?_)
  cases rest with
  | nil => exact ⟨.bare q, rfl, fun x hx => hx⟩
  | cons field rest => exact ⟨_, rfl, fun x hx => hx⟩

/-- A computed value carries no chains, so constraints that read through it are given up. -/
theorem ends_substitute_of_gets {t : Term} {x : Value} (hV : V.SitesAreRefs)
    (hs : V'.Supports f.store) (ht : ∀ v, t ≠ .var v) (hx : t.meaning V = some x)
    (h : V.Gets V' p x) : Ends (substitute t ⟨p, []⟩) f fun _ g => V.Supports g.store := by
  obtain ⟨g, hg, hu⟩ := h
  refine ends_replacePaths hV hs (hu.carries fun rest hne => ?_)
  cases rest with
  | nil =>
    refine ⟨t, by cases t <;> rfl, fun y hy => ?_⟩
    rw [hg] at hy
    cases hy
    exact hx
  | cons field rest =>
    cases t with
    | var v => exact absurd rfl (ht v)
    | const | bin => exact absurd rfl hne

theorem ends_substitute_of_copies {v : Operand} (hV : V.SitesAreRefs) (hs : V'.Supports f.store)
    (h : V.Copies V' site.method p v) :
    Ends (substitute (v.term site) ⟨p, []⟩) f fun _ g => V.Supports g.store := by
  cases v with
  | slot l => exact ends_substitute_of_takes hV hs h
  | const | null => exact ends_substitute_of_gets hV hs (fun v hv => by cases hv) rfl h

/-- What an instruction does to a pointer matters to the constraints that mention it only. -/
theorem ends_whenRelevant_of_forgets {x : PathM Bool} (hs : V'.Supports f.store)
    (h : V.Forgets V' p) (hx : Ends x f fun _ g => V.Supports g.store) :
    Ends (whenRelevant p x) f fun _ g => V.Supports g.store := by
  obtain ⟨g, hu⟩ := h
  exact ends_whenRelevant hs.feasible hx fun c hc hm => (hu.holds_iff hm).1 (hs.all c hc)

theorem forgets_of_copies {v : Operand} (h : V.Copies V' site.method p v) : V.Forgets V' p := by
  cases v with
  | slot => exact Valuation.Takes.forgets h
  | const | null => exact Valuation.Gets.forgets h

theorem ends_define_of_forgets (hs : V'.Supports f.store) (h : V.Forgets V' p) :
    Ends (define p none) f fun _ g => V.Supports g.store := by
  refine ends_whenRelevant_of_forgets hs h ?_
  obtain ⟨g, hu⟩ := h
  exact ends_dropMentioning hs.feasible fun c hc hm => (hu.holds_iff hm).1 (hs.all c hc)

theorem ends_define_of_gets {t : Term} {x : Value} (hV : V.SitesAreRefs) (hs : V'.Supports f.store)
    (ht : ∀ v, t ≠ .var v) (hx : t.meaning V = some x) (h : V.Gets V' p x) :
    Ends (define p (some t)) f fun _ g => V.Supports g.store := by
  refine ends_whenRelevant_of_forgets hs h.forgets ?_
  show Ends (substitute (t.evaluate.elim t .const) ⟨p, []⟩) f _
  cases he : t.evaluate with
  | none => exact ends_substitute_of_gets hV hs ht hx h
  | some k =>
    -- the folded constant is the value of the term
    have hk : (Term.const k).meaning V = some x := by
      rw [← hx, Term.meaning_of_evaluate he]
      rfl
    exact ends_substitute_of_gets hV hs (fun v hv => by cases hv) hk h

theorem ends_define_of_copies {v : Operand} (hV : V.SitesAreRefs) (hs : V'.Supports f.store)
    (h : V.Copies V' site.method p v) :
    Ends (define p (some (v.term site))) f fun _ g => V.Supports g.store := by
  cases v with
  | slot l =>
    exact ends_whenRelevant_of_forgets hs (forgets_of_copies h) (ends_substitute_of_takes hV hs h)
  | const | null => exact ends_define_of_gets hV hs (fun v hv => by cases hv) rfl h

/-! ## 3. Three way comparison -/

theorem sign_apply (op : CmpOp) (n : Int) :
    op.apply n.sign 0 = op.apply n 0 ∧ op.apply 0 n.sign = op.apply 0 n := by
  have hcases : n.sign = 1 ∧ 0 < n ∨ n.sign = 0 ∧ n = 0 ∨ n.sign = -1 ∧ n < 0 := by
    rcases Int.lt_trichotomy n 0 with h | h | h
    · exact .inr (.inr ⟨Int.sign_eq_neg_one_of_neg h, h⟩)
    · exact .inr (.inl ⟨by rw [h]; rfl, h⟩)
    · exact .inl ⟨Int.sign_eq_one_of_pos h, h⟩
  obtain ⟨hsign, hn⟩ | ⟨hsign, hn⟩ | ⟨hsign, hn⟩ := hcases <;> rw [hsign] <;>
    cases op <;> grind [CmpOp.apply]

/-- A store that tests only the sign of `p` cannot tell a number from its sign. -/
theorem supports_of_sign {n : Int} (hs : V'.Supports f.store)
    (hsign : f.store.onlySignTests p = true) (h : V.Gets V' p (.int n.sign)) :
    ∃ W : Valuation, V.Gets W p (.int n) ∧ W.Supports f.store := by
  obtain ⟨g, hg, hu⟩ := h
  have hp : V' ⟨p, []⟩ = some (.int n.sign) := by rw [hu, if_pos rfl, hg]
  -- the values after, with the number itself in place of its sign
  let W : Valuation := fun v => if v = ⟨p, []⟩ then some (.int n) else V' v
  have hW : V.Updates W p fun fields => if fields = [] then some (.int n) else g fields := by
    rintro ⟨base, fields⟩
    by_cases hbase : base = p
    · subst hbase
      by_cases hfields : fields = []
      · simp [W, hfields]
      · simp [W, hfields, hu ⟨base, fields⟩]
    · simp [W, hbase, hu ⟨base, fields⟩]
  refine ⟨W, ⟨_, if_pos rfl, hW⟩, hs.feasible, fun c hc => ?_⟩
  have hpW : (Term.bare p).meaning W = some (.int n) := if_pos rfl
  have hholds := hs.all c hc
  by_cases hm : c.mentions p = true
  · obtain ⟨a, b, ha, hb, htruth⟩ := hholds
    have htest := List.all_eq_true.1 hsign c (List.mem_filter.2 ⟨hc, hm⟩)
    simp only [Bool.or_eq_true, Bool.and_eq_true, decide_eq_true_eq] at htest
    obtain ⟨hl, hr⟩ | ⟨hl, hr⟩ := htest
    · rw [hl, show (Term.bare p).meaning V' = _ from hp] at ha
      rw [hr] at hb
      cases ha
      cases hb
      rw [CmpOp.truth_int, show (0 : Int64).toInt = 0 from rfl, (sign_apply c.op n).1] at htruth
      refine ⟨.int n, .int 0, by rw [hl, hpW], by rw [hr]; rfl, ?_⟩
      rw [CmpOp.truth_int, htruth]
    · rw [hl] at ha
      rw [hr, show (Term.bare p).meaning V' = _ from hp] at hb
      cases ha
      cases hb
      rw [CmpOp.truth_int, show (0 : Int64).toInt = 0 from rfl, (sign_apply c.op n).2] at htruth
      refine ⟨.int 0, .int n, by rw [hl]; rfl, by rw [hr, hpW], ?_⟩
      rw [CmpOp.truth_int, htruth]
  · have hm : c.mentions p = false := Bool.eq_false_iff.2 hm
    exact (hW.holds_iff hm).2 ((hu.holds_iff hm).1 hholds)

theorem toInt_threeWay (a b : Int64) : (threeWay a b).toInt = (a.toInt - b.toInt).sign := by
  unfold threeWay
  by_cases hlt : a.toInt < b.toInt
  · rw [if_pos hlt, Int.sign_eq_neg_one_of_neg (by omega)]
    rfl
  · rw [if_neg hlt]
    by_cases heq : a.toInt = b.toInt
    · rw [if_pos heq, heq, Int.sub_self]
      rfl
    · rw [if_neg heq, Int.sign_eq_one_of_pos (by omega)]
      rfl

/-- A comparison is folded, reduced to the sign of a difference, or given up. -/
theorem ends_compare {d : Local} {l r : Operand} {type : NumType} (hV : V.SitesAreRefs)
    (hs : V'.Supports f.store) (he : V.Executes site (.compare d l r type) V') :
    Ends (define (.slot site.method d) <|
      match l.const?, r.const? with
      | some a, some b => some (.const (threeWay a b))
      | _, _ =>
        if type.isIntegral && f.store.onlySignTests (.slot site.method d) then
          some (.bin (l.term site) .diff (r.term site))
        else none) f fun _ g => V.Supports g.store := by
  have hconst : ∀ {v : Operand} {k : Int64}, v.const? = some k →
      V.operand site.method v = some (.int k.toInt) := by
    intro v k hk
    cases v <;> cases hk <;> rfl
  have hforgets : V.Forgets V' (.slot site.method d) := by
    unfold Valuation.Executes at he
    dsimp only at he
    split at he
    · obtain ⟨_, _, -, -, hgets⟩ := he
      exact hgets.forgets
    · exact he
  split
  · rename_i a b ha hb
    unfold Valuation.Executes at he
    simp only [ha, hb, Option.isSome_some, Bool.and_self, Bool.or_true, if_true, hconst ha,
      hconst hb] at he
    obtain ⟨a', b', ha', hb', hgets⟩ := he
    cases ha'
    cases hb'
    rw [← toInt_threeWay] at hgets
    exact ends_define_of_gets hV hs (fun v hv => by cases hv) rfl hgets
  · by_cases hsign : (type.isIntegral && f.store.onlySignTests (.slot site.method d)) = true
    · rw [if_pos hsign]
      obtain ⟨htype, hsign⟩ := Bool.and_eq_true_iff.1 hsign
      unfold Valuation.Executes at he
      simp only [htype, Bool.true_or, if_true] at he
      obtain ⟨a, b, ha, hb, hgets⟩ := he
      obtain ⟨W, hW, hsW⟩ := supports_of_sign hs hsign hgets
      refine ends_define_of_gets hV hsW (fun v hv => by cases hv) ?_ hW
      exact Term.meaning_bin.2 ⟨a, b, a - b, Valuation.meaning_term.trans ha,
        Valuation.meaning_term.trans hb, rfl, rfl⟩
    · rw [if_neg hsign]
      exact ends_define_of_forgets hs hforgets

/-! ## 4. Visits -/

/-- An operation that returns no further case. -/
theorem ends_single {x : PathM Unit} (hx : Ends x f fun _ g => V.Supports g.store) :
    Ends (do x; return []) f fun rest g => ∃ s ∈ g.store :: rest, V.Supports s := by
  rw [ends_bind]
  exact hx.mono fun _ g hg => ends_pure.2 ⟨g.store, List.mem_cons_self, hg⟩

theorem ends_visit {h : HeapGraph} {i : Instruction} (hV : V.SitesAreRefs)
    (hs : V'.Supports f.store) (he : V.Executes site i V') :
    Ends (visit h site i) f fun rest g => ∃ s ∈ g.store :: rest, V.Supports s := by
  have hterm : ∀ v : Operand, (v.term site).meaning V = V.operand site.method v := fun v =>
    Valuation.meaning_term
  unfold visit
  rw [ends_bind]
  refine ends_requireFeasible hs.feasible ?_
  cases i with
  | assign d v | checkCast d v | staticStore d v =>
    exact ends_single (ends_whenRelevant_of_forgets hs (forgets_of_copies he)
      (ends_substitute_of_copies hV hs he))
  | load | staticLoad | arrayLength =>
    exact ends_single (ends_whenRelevant_of_forgets hs (Valuation.Takes.forgets he)
      (ends_splice_of_takes hV hs he))
  | binary d op l r type =>
    refine ends_single ?_
    unfold Valuation.Executes at he
    cases hop : ArithOp.ofBinary? op with
    | none =>
      simp only [hop] at he ⊢
      exact ends_define_of_forgets hs he
    | some op' =>
      cases type with
      | int =>
        simp only [hop] at he ⊢
        obtain ⟨a, b, c, ha, hb, hc, hgets⟩ := he
        refine ends_define_of_gets hV hs (fun v hv => by cases hv) ?_ hgets
        exact Term.meaning_bin.2 ⟨a, b, c, (hterm l).trans ha, (hterm r).trans hb, hc, rfl⟩
      | long | float | double =>
        simp only [hop] at he ⊢
        exact ends_define_of_forgets hs he
  | unary d op v type =>
    refine ends_single ?_
    cases op
    unfold Valuation.Executes at he
    cases type with
    | int =>
      obtain ⟨a, c, ha, hc, hgets⟩ := he
      refine ends_define_of_gets hV hs (fun v hv => by cases hv) ?_ hgets
      exact Term.meaning_bin.2 ⟨0, a, c, rfl, (hterm v).trans ha, hc, rfl⟩
    | long | float | double => exact ends_define_of_forgets hs he
  | compare d l r type =>
    simp only [ends_bind, ends_store]
    exact (ends_compare hV hs he).mono fun _ g hg => ends_pure.2 ⟨g.store, List.mem_cons_self, hg⟩
  | conversion d v source dest =>
    refine ends_single ?_
    unfold Valuation.Executes at he
    cases source with
    | int =>
      cases dest with
      | int | long => exact ends_define_of_copies hV hs he
      | float | double => exact ends_define_of_forgets hs he
    | long =>
      cases dest with
      | long => exact ends_define_of_copies hV hs he
      | int | float | double => exact ends_define_of_forgets hs he
    | float | double => exact ends_define_of_forgets hs he
  | instanceOf | metadata => exact ends_single (ends_define_of_forgets hs he)
  | branch op l r taken =>
    obtain ⟨rfl, a, b, ha, hb, htruth⟩ := he
    refine ends_single (ends_require hV hs fun n =>
      ⟨a, b, (hterm l).trans ha, (hterm r).trans hb, ?_⟩)
    cases taken with
    | true => exact htruth
    | false =>
      -- the way not taken is the negated comparison
      show op.negate.truth a b = some true
      rw [CmpOp.truth_negate, htruth]
      rfl
  | switch v cases label =>
    obtain ⟨rfl, a, ha, hlabel⟩ := he
    cases label with
    | default =>
      refine ends_single (ends_exclude hV hs fun k hk n => ?_)
      exact ⟨a, _, (hterm v).trans ha, rfl, congrArg some (decide_eq_true (hlabel k hk))⟩
    | cases values =>
      obtain ⟨k, hk, rfl⟩ := hlabel
      -- the case that the scrutinee takes is one of those the store splits into
      cases values with
      | nil => cases hk
      | cons first rest =>
        show Ends (split (v.term site) (first :: rest)) f _
        exact ends_split hV hs hk fun n =>
          ⟨_, _, (hterm v).trans ha, rfl, congrArg some (decide_eq_true rfl)⟩
  | ret v =>
    cases v with
    | none =>
      obtain rfl := he
      exact ends_pure.2 ⟨f.store, List.mem_cons_self, hs⟩
    | some v =>
      exact ends_single (ends_whenRelevant_of_forgets hs (forgets_of_copies he)
        (ends_substitute_of_copies hV hs he))
  | nop =>
    obtain rfl := he
    exact ends_pure.2 ⟨f.store, List.mem_cons_self, hs⟩
  | new | newArray | store | arrayLoad | arrayStore | invoke => exact he.elim

/-- A visit of a store whose constraints hold after the instruction does not refute it, and the
values before satisfy one of the stores that come of it. -/
theorem visit_satisfies (h : HeapGraph) (site : Site) (i : Instruction) (V V' : Valuation)
    (f : Frame PathStore) (hV : V.SitesAreRefs) (hf : f.store.feasible = true)
    (he : V.Executes site i V') (hs : V'.Satisfies f.store) :
    ∃ rest g, visit h site i f = .ok rest g ∧
      ∃ s ∈ g.store :: rest, s.feasible = true ∧ V.Satisfies s := by
  have hsupports : V'.Supports f.store := ⟨hf, hs⟩
  obtain ⟨rest, g, hok, s, hmem, hsupports⟩ := ends_visit (h := h) hV hsupports he
  exact ⟨rest, g, hok, s, hmem, hsupports.feasible, hsupports.all⟩

end PathM

namespace ProductCase

def site : Site := ⟨⟨0⟩, false⟩

/-- Local 2 is 65536. -/
def frame : Frame PathStore where
  store := { constraints := [⟨.bare (.slot ⟨0⟩ 2), .eq, .const 65536, ⟨0⟩⟩] }
  session := {}

/-- Local 1 is 65537, allocated objects are references and all else is null. -/
def before : Valuation := fun v =>
  if v = ⟨.slot ⟨0⟩ 1, []⟩ then some (.int 65537)
  else if v.isSite then some (.ref 0)
  else some (.int 0)

def after : Valuation := fun v => if v.base = .slot ⟨0⟩ 2 then some (.int 65536) else before v

theorem sitesAreRefs_before : before.SitesAreRefs := by
  intro v hv
  have hne : v ≠ ⟨.slot ⟨0⟩ 1, []⟩ := by
    rintro rfl
    cases hv
  exact ⟨0, by unfold before; rw [if_neg hne, if_pos hv]⟩

/-- The exact product is one word more than 65536. -/
theorem executes_product :
    before.Executes site (.binary 2 .mul (.slot 1) (.const 65536) .int) after := by
  have hfactor : before.operand ⟨0⟩ (.slot 1) = some (.int 65537) := by
    show before ⟨.slot ⟨0⟩ 1, []⟩ = _
    unfold before
    exact if_pos rfl
  exact ⟨65537, 65536, 65536, hfactor, rfl, by decide, fun _ => some (.int 65536), rfl,
    fun _ => rfl⟩

theorem satisfies_after : after.Satisfies frame.store := by
  intro c hc
  rw [List.mem_singleton.1 hc]
  have hproduct : after ⟨.slot ⟨0⟩ 2, []⟩ = some (.int 65536) := by
    unfold after
    exact if_pos rfl
  exact ⟨.int 65536, .int 65536, hproduct, rfl, rfl⟩

/-- The product wraps, and its constraint holds of the factors. -/
theorem visit_satisfies_product :
    after.Satisfies frame.store ∧
      ∃ rest g, PathM.visit {} site (.binary 2 .mul (.slot 1) (.const 65536) .int) frame =
          .ok rest g ∧
        ∃ s ∈ g.store :: rest, s.feasible = true ∧ before.Satisfies s :=
  ⟨satisfies_after, PathM.visit_satisfies {} site (.binary 2 .mul (.slot 1) (.const 65536) .int)
    before after frame sitesAreRefs_before rfl executes_product satisfies_after⟩

end ProductCase

end Refuter
