import Refuter.Proofs.Run
import Refuter.Query.Visit

/-!
# What operations are made of

Operations on path stores, heap stores and queries are composed of a few primitives: they read and
change their store, read the settings, take numbers, take notes, halt, try something on a copy, and
check a path store. `StoreM.Closed C` says that all primitives have the property `C` and that
composition keeps it. Then every operation has it, so a property is proved of the primitives only.
-/

namespace Refuter

namespace StoreM

/-- All primitives have the property, and composition keeps it. -/
structure Closed (C : ∀ {σ α : Type}, StoreM σ α → Prop) : Prop where
  pure : ∀ {σ α : Type} (a : α), C (pure a : StoreM σ α)
  bind : ∀ {σ α β : Type} {x : StoreM σ α} {k : α → StoreM σ β}, C x → (∀ a, C (k a)) → C (x >>= k)
  throw : ∀ {σ α : Type} (e : Halt), C (throw e : StoreM σ α)
  store : ∀ {σ : Type}, C (store : StoreM σ σ)
  modifyStore : ∀ {σ : Type} (m : σ → σ), C (modifyStore m)
  options : ∀ {σ : Type}, C (options : StoreM σ Options)
  note : ∀ {σ : Type} (level : Level) (topic : Topic) (text : String),
    C (session (Session.note level topic text) : StoreM σ Unit)
  fresh : ∀ {σ α : Type} (x : Fresh α), C (fresh x : StoreM σ α)
  constraint : ∀ {σ : Type} (lhs : Term) (op : CmpOp) (rhs : Term),
    C (session (Session.constraint lhs op rhs) : StoreM σ Constraint)
  noteOptimistic : ∀ {σ : Type}, C (session Session.noteOptimistic : StoreM σ Unit)
  attempt : ∀ {σ τ α : Type} {x : StoreM τ α}, C x → ∀ s, C (attempt x s : StoreM σ _)
  onPart : ∀ {σ τ α : Type} {x : StoreM τ α}, C x → ∀ (part : σ → τ) put, C (onPart part put x)
  onRefuted : ∀ {σ α : Type} {x : StoreM σ α}, C x → ∀ mark, C (onRefuted mark x)
  check : C PathM.check

variable {C : ∀ {σ α : Type}, StoreM σ α → Prop} {σ τ α : Type}

section

variable (hC : Closed C)
include hC

theorem closed_setStore (s : σ) : C (setStore s) := hC.modifyStore fun _ => s

theorem closed_callOf (step : CallStep) (i : Instruction) :
    C (callOf step i : StoreM σ (Option Local × Method × List Operand)) := by
  unfold callOf
  split
  · exact hC.pure _
  · exact hC.throw _

theorem closed_attemptAll {branches : List (StoreM τ α × τ)} (h : ∀ b ∈ branches, C b.1)
    (cases : Survivors τ) : C (attemptAll branches cases : StoreM σ _) := by
  induction branches generalizing cases with
  | nil => exact hC.pure _
  | cons b rest ih =>
    exact hC.bind (hC.attempt (h b List.mem_cons_self) b.2) fun _ =>
      ih (fun b hb => h b (List.mem_cons_of_mem _ hb)) _

theorem closed_commit {refute : Refutation → StoreM σ (List σ)} (h : ∀ r, C (refute r))
    (cases : Survivors σ) : C (commit refute cases) := by
  unfold commit
  split
  · exact hC.bind (closed_setStore hC _) fun _ => hC.pure _
  · exact h _

end

end StoreM

open StoreM

variable {C : ∀ {σ α : Type}, StoreM σ α → Prop} {α : Type} (hC : Closed C)
include hC

/-! ## 1. Path stores -/

namespace PathM

theorem closed_debugAll (texts : List String) : C (debugAll texts) := by
  induction texts with
  | nil => exact hC.pure _
  | cons text rest ih => exact hC.bind (hC.note ..) fun _ => ih

theorem closed_refute (r : Refutation) : C (refute r : PathM α) :=
  hC.bind (hC.note ..) fun _ => hC.bind (hC.modifyStore _) fun _ => hC.throw _

theorem closed_requireFeasible : C requireFeasible := by
  refine hC.bind hC.store fun s => ?_
  split
  · exact hC.throw _
  · exact hC.pure _

theorem closed_add (c : Constraint) : C (add c) := by
  refine hC.bind (closed_requireFeasible hC) fun _ => ?_
  split
  · exact hC.pure _
  · exact hC.pure _
  · exact closed_refute hC _
  · exact hC.note ..
  · refine hC.bind hC.store fun s => ?_
    dsimp only
    split
    · exact hC.pure _
    · refine hC.bind hC.options fun o => ?_
      split
      · exact hC.note ..
      · exact hC.bind (hC.note ..) fun _ => hC.modifyStore _

theorem closed_require (lhs : Term) (op : CmpOp) (rhs : Term) : C (require lhs op rhs) :=
  hC.bind (hC.constraint lhs op rhs) fun c => closed_add hC c

theorem closed_changeAll (change : Constraint → Settled) : C (changeAll change) := by
  refine hC.bind (closed_requireFeasible hC) fun _ => hC.bind hC.store fun s =>
    hC.bind (closed_debugAll hC _) fun _ => ?_
  split
  · exact closed_refute hC _
  · split
    · exact hC.pure _
    · exact hC.bind (hC.modifyStore _) fun _ => hC.pure _

theorem closed_spliceReads (insert : Term) (base : Pointer) (fields : List Field) :
    C (spliceReads insert base fields) := by
  induction fields with
  | nil => exact hC.pure _
  | cons f rest ih => exact hC.bind (closed_changeAll hC _) fun _ => ih

theorem closed_rename (p q : Pointer) : C (rename p q) := by
  refine hC.bind hC.store fun s => ?_
  split
  · exact hC.pure _
  · exact closed_changeAll hC _

theorem closed_dropWhere (test : Constraint → Bool) : C (dropWhere test) := by
  refine hC.bind hC.store fun s => hC.bind (closed_debugAll hC _) fun _ => ?_
  split
  · exact hC.bind (hC.modifyStore _) fun _ => hC.pure _
  · exact hC.pure _

theorem closed_dropMentioning (p : Pointer) : C (dropMentioning p) := by
  refine hC.bind hC.store fun s => ?_
  split
  · exact hC.pure _
  · exact closed_dropWhere hC _

theorem closed_whenRelevant (p : Pointer) {x : PathM Bool} (hx : C x) : C (whenRelevant p x) := by
  refine hC.bind hC.store fun s => ?_
  split
  · exact hC.bind hx fun _ => hC.pure _
  · exact hC.pure _

theorem closed_define (target : Pointer) (value : Option Term) : C (define target value) := by
  apply closed_whenRelevant hC
  cases value with
  | some t => exact closed_changeAll hC _
  | none => exact closed_dropMentioning hC target

theorem closed_split (scrutinee : Term) (values : List Int64) : C (split scrutinee values) := by
  refine hC.bind hC.store fun s => hC.bind (closed_attemptAll hC (fun b hb => ?_) _) fun cases =>
    closed_commit hC (fun r => closed_refute hC r) cases
  obtain ⟨v, -, rfl⟩ := List.mem_map.1 hb
  exact closed_require hC ..

theorem closed_exclude (scrutinee : Term) (values : List Int64) : C (exclude scrutinee values) := by
  induction values with
  | nil => exact hC.pure _
  | cons v rest ih => exact hC.bind (closed_require hC ..) fun _ => ih

theorem closed_allocate (target object : Pointer) (length : Option Term) :
    C (allocate target object length) := by
  have hfields : C (do
      spliceReads (.const 0) target ((← store).fieldsReadThrough target).toList
      let _ ← substitute (.bare object) ⟨target, []⟩ : PathM Unit) :=
    hC.bind hC.store fun s => hC.bind (closed_spliceReads hC ..) fun _ =>
      hC.bind (closed_changeAll hC _) fun _ => hC.pure _
  refine hC.bind hC.store fun s => ?_
  split
  · exact hC.pure _
  · cases length with
    | none => exact hfields
    | some t => exact hC.bind (closed_changeAll hC _) fun _ => hfields

theorem closed_storeField (h : HeapGraph) (base : Pointer) (field : Field) (value : Term) :
    C (storeField h base field value) := by
  refine hC.bind hC.store fun s => ?_
  split
  · exact hC.pure _
  · exact hC.bind (closed_changeAll hC _) fun _ =>
      hC.bind (closed_dropWhere hC _) fun _ => hC.pure _

theorem closed_loadElement (target array : Pointer) (index : Term) :
    C (loadElement target array index) := by
  refine hC.bind hC.store fun s => ?_
  split
  · exact hC.pure _
  · refine hC.bind hC.options fun o => ?_
    split
    · exact hC.bind (closed_dropMentioning hC _) fun _ => hC.pure _
    · exact hC.bind (hC.fresh _) fun n => hC.bind (closed_changeAll hC _) fun _ =>
        closed_require hC ..

theorem closed_splitElements (array : Pointer) (index value : Term) (names : List UInt64)
    (cases : Survivors PathStore) : C (splitElements array index value names cases) := by
  induction names generalizing cases with
  | nil => exact hC.pure _
  | cons n rest ih =>
    refine hC.bind (closed_attemptAll hC (fun b hb => ?_) _) fun _ => ih _
    obtain ⟨s, -, hb⟩ := List.mem_flatMap.1 hb
    rcases List.mem_cons.1 hb with rfl | hb
    · exact hC.bind (closed_changeAll hC _) fun _ => closed_require hC ..
    · rw [List.mem_singleton.1 hb]
      exact closed_require hC ..

theorem closed_storeElement (h : HeapGraph) (array : Pointer) (index value : Term) :
    C (storeElement h array index value) := by
  refine hC.bind hC.options fun o => hC.bind (closed_dropWhere hC _) fun _ => ?_
  split
  · exact hC.pure _
  · refine hC.bind hC.store fun s => ?_
    dsimp only
    split
    · exact hC.pure _
    · exact hC.bind hC.store fun s => hC.bind (closed_splitElements hC ..) fun cases =>
        closed_commit hC (fun r => closed_refute hC r) cases

theorem closed_visit (h : HeapGraph) (site : Site) (i : Instruction) : C (visit h site i) := by
  have hend : ∀ {x : PathM Unit}, C x → C (do x; return [] : PathM (List PathStore)) := fun hx =>
    hC.bind hx fun _ => hC.pure _
  refine hC.bind (closed_requireFeasible hC) fun _ => ?_
  cases i with
  | assign | checkCast | load | staticLoad | staticStore | arrayLength =>
    exact hend (closed_whenRelevant hC _ (closed_changeAll hC _))
  | new | newArray => exact hend (closed_allocate hC ..)
  | store => exact hend (closed_storeField hC ..)
  | arrayLoad => exact hend (closed_loadElement hC ..)
  | arrayStore => exact closed_storeElement hC ..
  | binary | conversion | instanceOf | metadata => exact hend (closed_define hC ..)
  | unary d op value type =>
    cases op
    exact hend (closed_define hC ..)
  | compare => exact hC.bind hC.store fun s => hend (closed_define hC ..)
  | branch => exact hend (closed_require hC ..)
  | switch scrutinee cases chosen =>
    cases chosen with
    | default => exact hend (closed_exclude hC ..)
    | cases values =>
      cases values with
      | nil => exact hC.pure _
      | cons => exact closed_split hC ..
  | ret value =>
    cases value with
    | none => exact hC.pure _
    | some value => exact hend (closed_whenRelevant hC _ (closed_changeAll hC _))
  | invoke | nop => exact hC.pure _

theorem closed_enterCallee (call : Instruction) (caller : Site) (callee : MethodId) :
    C (enterCallee call caller callee) := by
  refine hC.bind (closed_callOf hC _ _) fun parts => ?_
  dsimp only
  split
  · exact closed_whenRelevant hC _ (closed_changeAll hC _)
  · exact hC.pure _

theorem closed_zeroRoots (roots : List Pointer) : C (zeroRoots roots) := by
  induction roots with
  | nil => exact hC.pure _
  | cons p rest ih => exact hC.bind (closed_changeAll hC _) fun _ => ih

theorem closed_bindFormals (caller : Site) (callee : MethodId) (args : List (Local × Operand)) :
    C (bindFormals caller callee args) := by
  induction args with
  | nil => exact hC.pure _
  | cons arg rest ih => exact hC.bind (closed_changeAll hC _) fun _ => ih

theorem closed_initialValues (callee : Method) : C (initialValues callee) := by
  unfold initialValues
  split
  · exact hC.bind hC.store fun s => closed_spliceReads hC ..
  · exact hC.bind hC.store fun s => closed_zeroRoots hC _
  · exact hC.pure _

theorem closed_returnToCaller (call : Instruction) (caller : Site) :
    C (returnToCaller call caller) := by
  refine hC.bind (closed_callOf hC _ _) fun parts =>
    hC.bind (closed_initialValues hC _) fun _ => hC.bind (closed_bindFormals hC ..) fun _ => ?_
  split
  · exact hC.bind (closed_dropWhere hC _) fun _ => hC.pure _
  · exact hC.pure _

theorem closed_skipCall (call : Instruction) (caller : Site) : C (skipCall call caller) := by
  have hdrop : ∀ test, C (do let _ ← dropWhere test : PathM Unit) := fun test =>
    hC.bind (closed_dropWhere hC test) fun _ => hC.pure _
  refine hC.bind (closed_callOf hC _ _) fun parts => ?_
  dsimp only
  split
  · exact hC.bind (closed_dropMentioning hC _) fun _ => hdrop _
  · exact hdrop _

theorem closed_takeSiteEqualities : C takeSiteEqualities := by
  refine hC.bind hC.store fun s => hC.bind (closed_debugAll hC _) fun _ => ?_
  dsimp only
  split
  · exact hC.bind (hC.modifyStore _) fun _ => hC.pure _
  · exact hC.pure _

end PathM

/-! ## 2. Heap stores -/

namespace HeapM

theorem closed_refute (r : Refutation) : C (refute r : HeapM α) :=
  hC.bind (hC.note ..) fun _ => hC.bind (hC.modifyStore _) fun _ => hC.throw _

theorem closed_requireFeasible : C requireFeasible := by
  refine hC.bind hC.store fun s => ?_
  split
  · exact hC.throw _
  · exact hC.pure _

theorem closed_rename (p q : Pointer) : C (rename p q) := by
  unfold rename
  split
  · exact hC.pure _
  · exact hC.bind (hC.note ..) fun _ => hC.modifyStore _

theorem closed_requireWellFormed (p : Pointer) : C (requireWellFormed p) := by
  unfold requireWellFormed
  split
  · split
    · exact hC.throw _
    · exact hC.pure _
  · exact hC.pure _

theorem closed_renameChoices (p : Pointer) (olds : List Pointer) : C (renameChoices p olds) := by
  induction olds with
  | nil => exact hC.pure _
  | cons old rest ih =>
    unfold renameChoices
    split
    · exact hC.bind (closed_rename hC old p) fun _ => hC.bind ih fun _ => hC.pure _
    · exact ih

theorem closed_addEdge (e : Edge) : C (addEdge e) := by
  refine hC.bind (closed_requireFeasible hC) fun _ =>
    hC.bind (closed_requireWellFormed hC _) fun _ =>
      hC.bind (closed_requireWellFormed hC _) fun _ => hC.bind hC.store fun s => ?_
  split
  · exact hC.bind (hC.note ..) fun _ => hC.bind (hC.modifyStore _) fun _ => hC.pure _
  · refine hC.bind hC.options fun o => hC.bind (hC.fresh _) fun merged => ?_
    cases merged with
    | none => exact closed_refute hC _
    | some p => exact closed_renameChoices hC p _

theorem closed_addEdges (renames : List (Pointer × Pointer)) (edges : List Edge) :
    C (addEdges renames edges) := by
  induction edges generalizing renames with
  | nil => exact hC.pure _
  | cons e rest ih => exact hC.bind (closed_addEdge hC _) fun _ => ih _

theorem closed_takeRenames : C takeRenames :=
  hC.bind hC.store fun _ => hC.bind (hC.modifyStore _) fun _ => hC.pure _

theorem closed_narrowRounds (h : HeapGraph) (rounds : Nat) : C (narrowRounds h rounds) := by
  induction rounds with
  | zero => exact hC.pure _
  | succ rounds ih =>
    refine hC.bind hC.store fun s => hC.bind (hC.fresh _) fun step => ?_
    cases step with
    | done => exact hC.pure _
    | stuck e => exact closed_refute hC _
    | rename p q => exact hC.bind (closed_rename hC p q) fun _ => ih

theorem closed_narrow (h : HeapGraph) : C (narrow h) := by
  refine hC.bind hC.options fun o => ?_
  split
  · exact hC.bind hC.store fun s => closed_narrowRounds hC h _
  · exact hC.pure _

theorem closed_apply (h : HeapGraph) (site : Site) (r : Rule) (b : Binding) :
    C (apply h site r b) := by
  refine hC.bind (hC.note ..) fun _ => hC.bind (hC.modifyStore _) fun _ =>
    hC.bind (closed_rename hC _ _) fun _ => hC.bind (closed_rename hC _ _) fun _ =>
      hC.bind (closed_addEdges hC _ _) fun _ => ?_
  dsimp only
  split
  · exact hC.bind (hC.modifyStore _) fun _ => closed_narrow hC h
  · exact closed_narrow hC h

theorem closed_classify (rules : List Rule) (a : Applications) : C (classify rules a) := by
  induction rules generalizing a with
  | nil => exact hC.pure _
  | cons r rest ih =>
    refine hC.bind hC.options fun o => hC.bind hC.store fun s => hC.bind (hC.fresh _) fun c => ?_
    cases c with
    | consistent bindings => exact ih _
    | inconsistent => exact hC.bind (hC.note ..) fun _ => ih _
    | inapplicable => exact ih _

theorem closed_forget (edges : List Edge) : C (forget edges) := by
  induction edges with
  | nil => exact hC.pure _
  | cons e rest ih => exact hC.bind (hC.note ..) fun _ => hC.bind (hC.modifyStore _) fun _ => ih

/-- A refutation under a condition. -/
theorem closed_refuteIf {c : Prop} [Decidable c] (r : Refutation) {k : Unit → HeapM α}
    (hk : C (k ())) : C (if c then refute r >>= k else k ()) := by
  split
  · exact hC.bind (closed_refute hC r) fun _ => hk
  · exact hk

theorem closed_withoutRule (site : Site) (i : Instruction) (inconsistent : Nat) :
    C (withoutRule site i inconsistent) := by
  unfold withoutRule
  refine closed_refuteIf hC _ (hC.bind hC.store fun s => ?_)
  cases unproduced? s site i with
  | some e =>
    refine hC.bind (closed_refute hC _) fun _ => ?_
    split
    · exact hC.bind hC.store fun s => closed_forget hC _
    · exact hC.pure _
  | none =>
    dsimp only
    split
    · exact hC.bind hC.store fun s => closed_forget hC _
    · exact hC.pure _

theorem closed_dispatch (h : HeapGraph) (site : Site) (i : Instruction) (rules : List Rule) :
    C (dispatch h site i rules) := by
  refine hC.bind (closed_classify hC rules {}) fun a => ?_
  split
  · exact hC.bind (closed_withoutRule hC ..) fun _ => hC.pure _
  · refine hC.bind hC.store fun s => hC.bind (closed_attemptAll hC (fun b hb => ?_) _) fun cases =>
      closed_commit hC (fun r => closed_refute hC r) _
    obtain ⟨⟨r, b⟩, -, rfl⟩ := List.mem_map.1 hb
    exact closed_apply hC ..

theorem closed_moveEdges (p q : Pointer) (edges : List Edge) : C (moveEdges p q edges) := by
  induction edges with
  | nil => exact hC.pure _
  | cons e rest ih =>
    exact hC.bind (hC.modifyStore _) fun _ => hC.bind (closed_addEdge hC _) fun _ => ih

theorem closed_visitReturn (site : Site) (value : Option Operand) : C (visitReturn site value) := by
  refine hC.bind hC.store fun s => ?_
  split
  · exact hC.pure _
  · exact closed_moveEdges hC ..
  · exact closed_refute hC _

theorem closed_visit (h : HeapGraph) (site : Site) (i : Instruction) (rules : List Rule) :
    C (visit h site i rules) := by
  refine hC.bind (closed_requireFeasible hC) fun _ => ?_
  split
  · exact hC.bind (closed_visitReturn hC ..) fun _ => hC.pure _
  · exact hC.bind hC.store fun s => closed_dispatch hC ..

theorem closed_enterCallee (call : Instruction) (caller : Site) (callee : MethodId) :
    C (enterCallee call caller callee) := by
  refine hC.bind (closed_requireFeasible hC) fun _ =>
    hC.bind (closed_callOf hC _ _) fun parts => ?_
  dsimp only
  split
  · exact hC.modifyStore _
  · exact hC.pure _

theorem closed_takeEdges (formal : Pointer) (actual : Option Pointer) (edges : List Edge) :
    C (takeEdges formal actual edges) := by
  induction edges with
  | nil => exact hC.pure _
  | cons e rest ih =>
    refine hC.bind (hC.modifyStore _) fun _ => ?_
    cases actual with
    | none => exact closed_refute hC _
    | some p => exact hC.bind ih fun _ => hC.pure _

theorem closed_takeFormals (caller : Site) (callee : MethodId) (args : List (Local × Operand)) :
    C (takeFormals caller callee args) := by
  induction args with
  | nil => exact hC.pure _
  | cons arg rest ih =>
    exact hC.bind hC.store fun s => hC.bind (closed_takeEdges hC ..) fun _ =>
      hC.bind ih fun _ => hC.pure _

theorem closed_addAll (edges : List Edge) : C (addAll edges) := by
  induction edges with
  | nil => exact hC.pure _
  | cons e rest ih => exact hC.bind (closed_addEdge hC e) fun _ => ih

theorem closed_returnToCaller (call : Instruction) (caller : Site) :
    C (returnToCaller call caller) := by
  refine hC.bind (closed_requireFeasible hC) fun _ =>
    hC.bind (closed_callOf hC _ _) fun parts => hC.bind (closed_takeFormals hC ..) fun taken =>
      hC.bind (closed_addAll hC taken) fun _ => ?_
  split
  · exact hC.pure _
  · refine hC.bind hC.store fun s => ?_
    split
    · exact closed_refute hC _
    · exact hC.modifyStore _

theorem closed_reportGivenUp (edges : List Edge) : C (reportGivenUp edges) := by
  induction edges with
  | nil => exact hC.pure _
  | cons e rest ih => exact hC.bind (hC.note ..) fun _ => ih

theorem closed_skipCall (call : Instruction) (caller : Site) : C (skipCall call caller) :=
  hC.bind (closed_requireFeasible hC) fun _ => hC.bind (closed_callOf hC _ _) fun _ =>
    hC.bind hC.store fun _ => hC.bind (closed_reportGivenUp hC _) fun _ => hC.modifyStore _

end HeapM

/-! ## 3. Queries -/

namespace QueryM

theorem closed_onHeap {x : HeapM α} (hx : C x) : C (onHeap x) := hC.onPart hx _ _

theorem closed_onPath {x : PathM α} (hx : C x) : C (onPath x) := hC.onPart hx _ _

theorem closed_refuting {x : QueryM α} (hx : C x) : C (refuting x) := hC.onRefuted hx _

theorem closed_requireAlive : C requireAlive := by
  refine hC.bind hC.store fun q => ?_
  split
  · exact hC.throw _
  · exact hC.pure _

theorem closed_requireNoNullConflict : C requireNoNullConflict := by
  refine hC.bind hC.store fun q => ?_
  split
  · exact closed_refuting hC (hC.throw _)
  · exact hC.pure _

theorem closed_replay (renames : List (Pointer × Pointer)) : C (replay renames) := by
  induction renames with
  | nil => exact hC.pure _
  | cons r rest ih => exact hC.bind (closed_onPath hC (PathM.closed_rename hC ..)) fun _ => ih

theorem closed_replayPending : C replayPending :=
  hC.bind (closed_onHeap hC (HeapM.closed_takeRenames hC)) fun _ => closed_replay hC _

theorem closed_requireEdge (e : Edge) : C (requireEdge e) :=
  hC.bind (closed_onHeap hC (HeapM.closed_addEdge hC e)) fun _ => hC.pure _

theorem closed_requireConstraint (c : Constraint) : C (requireConstraint c) :=
  closed_onPath hC (PathM.closed_add hC c)

theorem closed_declareWitness : C declareWitness := by
  refine hC.bind hC.store fun q => ?_
  split
  · exact hC.pure _
  · exact hC.bind (hC.note ..) fun _ => hC.bind (closed_setStore hC _) fun _ => hC.noteOptimistic

theorem closed_check : C check :=
  hC.bind (closed_requireAlive hC) fun _ => closed_refuting hC <|
    hC.bind (closed_onHeap hC (HeapM.closed_requireFeasible hC)) fun _ =>
      closed_onPath hC hC.check

theorem closed_promote (h : HeapGraph) (e : Pointer × Field × Pointer) : C (promote h e) := by
  refine hC.bind (hC.fresh _) fun b => ?_
  split
  · exact hC.bind (closed_onHeap hC (HeapM.closed_addEdge hC _)) fun renames =>
      hC.bind (closed_replay hC renames) fun _ =>
        hC.bind (closed_onHeap hC (HeapM.closed_addEdge hC _)) fun renames =>
          closed_replay hC renames
  · exact closed_refuting hC (hC.throw _)

theorem closed_promoteAll (h : HeapGraph) (edges : List (Pointer × Field × Pointer)) :
    C (promoteAll h edges) := by
  induction edges with
  | nil => exact hC.pure _
  | cons e rest ih => exact hC.bind (closed_promote hC h e) fun _ => ih

theorem closed_settle (h : HeapGraph) : C (settle h) :=
  hC.bind (closed_replayPending hC) fun _ =>
    hC.bind (closed_onPath hC (PathM.closed_takeSiteEqualities hC)) fun edges =>
      hC.bind (closed_promoteAll hC h edges) fun _ =>
        hC.bind (closed_replayPending hC) fun _ => closed_requireNoNullConflict hC

theorem closed_select (site : Site) (rules : List Rule) (s : Selection) :
    C (select site rules s) := by
  induction rules generalizing s with
  | nil => exact hC.pure _
  | cons r rest ih =>
    refine hC.bind hC.store fun q => ?_
    dsimp only
    split
    · exact ih _
    · split
      · exact hC.bind (closed_onHeap hC (hC.modifyStore _)) fun _ => ih _
      · exact ih _

/-- The cases of both stores are paired and settled. -/
theorem closed_pair (h : HeapGraph) (i : Instruction) (paths : List PathStore)
    (heaps : List HeapStore) : C (do
      let q ← store
      let pairs := (q.heap :: heaps).flatMap fun heap =>
        (q.path :: paths).map fun path => { q with heap, path }
      let cases ← attemptAll (pairs.map (settle h, ·)) {}
      if cases.live.length > 1 then
        debug .query (i.name ++ " splits into " ++ toString cases.live.length ++ " cases")
      commit (fun r => refuting (halt r)) cases : QueryM (List Query)) := by
  refine hC.bind hC.store fun q => hC.bind (closed_attemptAll hC (fun b hb => ?_) _) fun cases => ?_
  · obtain ⟨pair, -, rfl⟩ := List.mem_map.1 hb
    exact closed_settle hC h
  · dsimp only
    have hcommit := closed_commit hC (fun r => closed_refuting hC (hC.throw (.refuted r))) cases
    split
    · exact hC.bind (hC.note ..) fun _ => hcommit
    · exact hcommit

theorem closed_visit (h : HeapGraph) (site : Site) (i : Instruction) (source : RuleSource) :
    C (visit h site i source) := by
  refine hC.bind (closed_requireAlive hC) fun _ =>
    hC.bind (closed_requireNoNullConflict hC) fun _ => hC.bind (hC.fresh _) fun rules =>
      hC.bind (closed_select hC ..) fun selection =>
        hC.bind (closed_refuting hC (closed_onPath hC (PathM.closed_visit hC ..))) fun paths => ?_
  have hheaps := hC.bind
    (closed_refuting hC (closed_onHeap hC (HeapM.closed_visit hC h site i selection.relevant)))
    fun heaps => closed_pair hC h i paths heaps
  dsimp only
  split
  · exact hC.bind (closed_refuting hC (hC.throw _)) fun _ => hheaps
  · exact hheaps

theorem closed_enterCallee (call : Instruction) (caller : Site) (callee : MethodId) :
    C (enterCallee call caller callee) :=
  hC.bind (closed_requireAlive hC) fun _ => closed_refuting hC <|
    hC.bind (closed_onPath hC (PathM.closed_enterCallee hC ..)) fun _ =>
      closed_onHeap hC (HeapM.closed_enterCallee hC ..)

theorem closed_returnToCaller (call : Instruction) (caller : Site) :
    C (returnToCaller call caller) :=
  hC.bind (closed_requireAlive hC) fun _ => closed_refuting hC <|
    hC.bind (closed_onPath hC (PathM.closed_returnToCaller hC ..)) fun _ =>
      hC.bind (closed_onHeap hC (HeapM.closed_returnToCaller hC ..)) fun _ =>
        hC.bind (closed_replayPending hC) fun _ => closed_requireNoNullConflict hC

theorem closed_skipCall (call : Instruction) (caller : Site) : C (skipCall call caller) :=
  hC.bind (closed_requireAlive hC) fun _ => closed_refuting hC <|
    hC.bind (closed_onPath hC (PathM.closed_skipCall hC ..)) fun _ =>
      closed_onHeap hC (HeapM.closed_skipCall hC ..)

end QueryM

end Refuter
