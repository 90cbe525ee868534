import Refuter.Proofs.Scenario.Moments
import Mathlib.Logic.Function.Basic

/-!
# Choices stay what they are

A choice is told apart by its number alone: the solver sees the number, and branches that were
split from one another share it. So a number must stand for the same candidates in all branches of
a replay, and no new choice may get a number that is in use. A `Numbering` records which candidates
each number stands for; it grows whenever the session hands out a number.
-/

namespace Refuter

open StoreM

/-- The numbers that were handed out, and the candidates they stand for. -/
structure Numbering where
  next : Nat
  candidates : Nat → Locations

namespace Numbering

/-- A later numbering keeps what the earlier one says of its numbers. -/
instance : Preorder Numbering where
  le a b := a.next ≤ b.next ∧ ∀ i < a.next, b.candidates i = a.candidates i
  le_refl a := ⟨Nat.le_refl _, fun _ _ => rfl⟩
  le_trans a b c hab hbc := by
    refine ⟨Nat.le_trans hab.1 hbc.1, fun i hi => ?_⟩
    rw [hbc.2 i (Nat.lt_of_lt_of_le hi hab.1), hab.2 i hi]

variable {n : Numbering} {e : Edge} {s : HeapStore} {i : Nat} {cs : Locations}

/-- The next number is that of the session. -/
def Counts (n : Numbering) (s : Session) : Prop := s.nextId = n.next

/-- A choice is well formed, and its number stands for its candidates. -/
def Knows (n : Numbering) : Pointer → Prop
  | .known _ => True
  | .choice i cs => i < n.next ∧ n.candidates i = cs ∧ 2 ≤ cs.size

/-- Hands out the next number. -/
def add (n : Numbering) (cs : Locations) : Numbering :=
  ⟨n.next + 1, Function.update n.candidates n.next cs⟩

theorem le_add : n ≤ n.add cs := by
  refine ⟨Nat.le_succ _, fun i hi => ?_⟩
  exact Function.update_of_ne (Nat.ne_of_lt hi) _ _

theorem knows_add (h : 2 ≤ cs.size) : (n.add cs).Knows (.choice n.next cs) :=
  ⟨Nat.lt_succ_self _, Function.update_self _ _ _, h⟩

theorem knows_mono : Monotone Knows := by
  intro a b hab p hp
  cases p with
  | known x => trivial
  | choice i cs =>
    obtain ⟨hi, hcs, hsize⟩ := hp
    exact ⟨Nat.lt_of_lt_of_le hi hab.1, (hab.2 i hi).trans hcs, hsize⟩

/-- The only way to a new choice. -/
theorem law_knows : Pointer.Law Counts (fun _ => True) Knows where
  mono := knows_mono
  candidates _ _ := trivial
  known _ := trivial
  make {n cs} session hcounts := by
    have hnext : session.nextId = n.next := hcounts
    obtain ⟨-, heq⟩ | ⟨x, -, heq⟩ | ⟨hsize, heq⟩ := Pointer.ofCandidates_cases cs session.nextId
    · rw [heq]
      exact ⟨n, le_refl n, hcounts, fun p hp => by cases hp⟩
    · rw [heq]
      refine ⟨n, le_refl n, hcounts, fun p hp _ => ?_⟩
      cases hp
      trivial
    · rw [heq, hnext]
      refine ⟨n.add cs, le_add, rfl, fun p hp _ => ?_⟩
      cases hp
      exact knows_add hsize

/-! ## 1. Heap stores -/

/-- All choices of the store are known. -/
structure KnowsHeap (n : Numbering) (s : HeapStore) : Prop where
  owed : ∀ e ∈ s.owed, e.Within n.Knows
  produced : ∀ e ∈ s.produced, e.Within n.Knows
  renames : ∀ r ∈ s.renames, n.Knows r.1 ∧ n.Knows r.2

theorem knowsHeap_mono : Monotone KnowsHeap := by
  intro a b hab s hs
  have hG : a.Knows ≤ b.Knows := knows_mono hab
  refine ⟨fun e he => (hs.owed e he).mono hG, fun e he => (hs.produced e he).mono hG, ?_⟩
  exact fun r hr => ⟨hG _ (hs.renames r hr).1, hG _ (hs.renames r hr).2⟩

theorem KnowsHeap.replace {p q : Pointer} (hs : n.KnowsHeap s) (hq : n.Knows q) :
    n.KnowsHeap (s.replace p q) where
  owed e he := by
    obtain ⟨d, hd, rfl⟩ := SortedSet.mem_map.1 he
    exact (hs.owed d hd).rename (.inr hq) fun _ => hq
  produced e he := by
    obtain ⟨d, hd, rfl⟩ := List.mem_map.1 he
    exact (hs.produced d hd).rename (.inr hq) fun _ => hq
  renames := hs.renames

/-- The halt is not the fault of a malformed choice. -/
def IsWell (e : Halt) : Prop := ∀ i k, e ≠ .fault (.malformedChoice i k)

theorem law_knowsHeap : HeapStore.Law Counts KnowsHeap IsWell (fun _ => True) Knows where
  pointers := law_knows
  mono := knowsHeap_mono
  notes := by
    rintro n s - ⟨journal, rfl⟩ hs
    exact hs
  owed hs he := hs.owed _ he
  owe hs he _ := by
    refine ⟨fun d hd => ?_, hs.produced, hs.renames⟩
    rcases SortedSet.mem_insert.1 hd with rfl | hd
    · exact he
    · exact hs.owed d hd
  keep _ hs := ⟨fun e he => hs.owed e (SortedSet.mem_filter.1 he).1, hs.produced, hs.renames⟩
  rename {n s p q} hs _ hp hq := by
    have hreplaced : n.KnowsHeap (s.replace p q) := hs.replace hq
    refine ⟨hreplaced.owed, hreplaced.produced, fun r hr => ?_⟩
    rcases List.mem_append.1 hr with hr | hr
    · exact hs.renames r hr
    · rw [List.mem_singleton.1 hr]
      exact ⟨hp, hq⟩
  log hs he := by
    refine ⟨hs.owed, fun d hd => ?_, hs.renames⟩
    rcases List.mem_append.1 hd with hd | hd
    · exact hs.produced d hd
    · rw [List.mem_singleton.1 hd]
      exact he
  forget _ hs := ⟨hs.owed, fun e he => hs.produced e (List.mem_filter.1 he).1, hs.renames⟩
  refuted hs := ⟨hs.owed, hs.produced, hs.renames⟩
  frame _ _ := trivial
  -- a choice that is known has two candidates
  malformed hknows hsize := by
    intro i k _
    have htwo := hknows.2.2
    omega
  refutes r := by
    intro i k heq
    cases heq

/-! ## 2. Path stores -/

/-- All choices of the store are known. -/
def KnowsPath (n : Numbering) (s : PathStore) : Prop :=
  ∀ c ∈ s.constraints, ∀ v ∈ c.paths, n.Knows v.base

theorem law_knowsPath : PathStore.Law Counts KnowsPath IsWell Knows where
  mono _ _ hab _ hs c hc v hv := knows_mono hab _ (hs c hc v hv)
  pointers := knows_mono
  known {n p} hp := by
    cases p with
    | known x => trivial
    | choice i cs => cases hp
  notes := by
    rintro n s - ⟨journal, rfl⟩ hs
    exact hs
  -- a number that no choice has stands for nothing
  fresh {n s} hs := ⟨n.add ∅, le_add, congrArg (· + 1) hs⟩
  number {n session s} hcounts hs := by
    refine ⟨n, le_refl n, hcounts, fun c _ hc _ d hd => ?_⟩
    rcases List.mem_append.1 hd with hd | hd
    · exact hs d hd
    · rw [List.mem_singleton.1 hd]
      exact hc
  change hs hchange d hd v hv := by
    obtain ⟨c, hc, rfl | hrewrites⟩ := Settled.exists_of_mem_remaining hchange hd
    · exact hs d hc v hv
    · exact (hrewrites.paths v hv).elim (hs c hc v) id
  drop _ hs c hc := hs c (List.mem_filter.1 hc).1
  refuted hs := hs
  refutes r := by
    intro i k heq
    cases heq

/-! ## 3. Replays -/

theorem scenarioLaw : Scenario.Law Counts KnowsHeap KnowsPath IsWell Knows Knows where
  heap := law_knowsHeap
  path := law_knowsPath
  renamed hp := hp
  renames hs hr := (hs.renames _ hr).2
  replayed hs := ⟨hs.owed, hs.produced, fun _ hr => by cases hr⟩
  objects hs hc hv _ := hs _ hc _ hv
  asked _ _ _ hs := hs
  checked hs := hs
  declared _ hs := hs
  newHeap n := ⟨fun _ he => (by cases he), fun _ he => (by cases he), fun _ hr => by cases hr⟩
  newPath n := fun _ hc => by cases hc
  notACall step j i k heq := by cases heq
  entered n s p q hp hq hs := by
    apply hs.replace
    cases q with
    | known x => trivial
    | choice i cs => cases hq

end Numbering

/-- What a query talks about: the ends of owed and produced edges and of renames that the path
store has not seen, and the bases of access paths. -/
def Query.pointers (q : Query) : List Pointer :=
  (q.heap.owed.toList ++ q.heap.produced).flatMap (fun e => [e.source, e.sink]) ++
    q.heap.renames.flatMap (fun r => [r.1, r.2]) ++
    q.path.constraints.flatMap fun c => c.paths.map AccessPath.base

theorem Query.knows_of_mem_pointers {n : Numbering} {q : Query} {i : Nat} {cs : Locations}
    (hq : Both Numbering.KnowsHeap Numbering.KnowsPath n q) (h : .choice i cs ∈ q.pointers) :
    n.Knows (.choice i cs) := by
  unfold pointers at h
  rcases List.mem_append.1 h with h | h
  · rcases List.mem_append.1 h with h | h
    · obtain ⟨e, he, hend⟩ := List.mem_flatMap.1 h
      have hwithin : e.Within n.Knows :=
        (List.mem_append.1 he).elim (hq.1.owed e) (hq.1.produced e)
      rcases List.mem_cons.1 hend with hsource | hend
      · rw [hsource]
        refine hwithin.source.resolve_left fun hknown => ?_
        rw [← hsource] at hknown
        cases hknown
      · rw [List.mem_singleton.1 hend]
        exact hwithin.sink
    · obtain ⟨r, hr, hend⟩ := List.mem_flatMap.1 h
      obtain ⟨hleft, hright⟩ := hq.1.renames r hr
      rcases List.mem_cons.1 hend with heq | hend
      · exact heq ▸ hleft
      · exact List.mem_singleton.1 hend ▸ hright
  · obtain ⟨c, hc, hbase⟩ := List.mem_flatMap.1 h
    obtain ⟨v, hv, heq⟩ := List.mem_map.1 hbase
    exact heq ▸ hq.2 c hc v hv

namespace Scenario

/-- At every moment of a replay all choices of all live branches have at least two candidates and a
number below the next one, and choices with the same number have the same candidates. So no replay
ends in the fault of a malformed choice. -/
theorem choices_agree (sc : Scenario) (initial : Session) :
    (∀ session live, sc.Moment initial session live →
      (∀ q ∈ live, ∀ i cs, .choice i cs ∈ q.pointers → 2 ≤ cs.size ∧ i < session.nextId) ∧
      ∀ q ∈ live, ∀ q' ∈ live, ∀ i cs ds, .choice i cs ∈ q.pointers →
        .choice i ds ∈ q'.pointers → cs = ds) ∧
    ∀ i k session, sc.replay initial ≠ .error (.fault (.malformedChoice i k)) session := by
  have hinitial : Numbering.Counts ⟨initial.nextId, fun _ => ∅⟩ initial := rfl
  constructor
  · intro session live hmoment
    obtain ⟨n, hcounts, hlive⟩ := hmoment.exists_world Numbering.scenarioLaw hinitial
    constructor
    · intro q hq i cs hmem
      obtain ⟨hnumber, -, hsize⟩ := Query.knows_of_mem_pointers (hlive q hq) hmem
      exact ⟨hsize, hcounts ▸ hnumber⟩
    · intro q hq q' hq' i cs ds hcs hds
      obtain ⟨-, hcs, -⟩ := Query.knows_of_mem_pointers (hlive q hq) hcs
      obtain ⟨-, hds, -⟩ := Query.knows_of_mem_pointers (hlive q' hq') hds
      exact hcs.symm.trans hds
  · intro i k session hrun
    exact fault_of_replay Numbering.scenarioLaw hinitial hrun i k rfl

/-! Two cases of a switch share the choice of the goal. -/

namespace SharedChoice

def method : MethodId := ⟨1⟩

def objects : List Location := [.site ⟨1, "C", method⟩, .site ⟨2, "C", method⟩]

def scenario : Scenario where
  goal := .edge (.slot method 1) none objects
  trace := [.visit { method := method } (.switch (.slot 2) [1, 2] (.cases [1, 2])) none]

def shared : Pointer := .choice 0 (.ofList objects)

/-- The branches after the switch. -/
def live : List Query :=
  match scenario.searchAfter scenario.trace {} with
  | .ok s _ => s.live
  | .error _ _ => []

theorem live_shared : live.length = 2 ∧ ∀ q ∈ live, shared ∈ q.pointers := by decide +kernel

theorem exists_moment : ∃ session, scenario.Moment {} session live := by
  have hlength := live_shared.1
  unfold live at hlength ⊢
  split
  · rename_i s session hrun
    exact ⟨session, .between (List.append_nil _).symm hrun⟩
  · rename_i hrun
    rw [hrun] at hlength
    cases hlength

theorem choices_agree_live : ∃ session, scenario.Moment {} session live ∧
    live.length = 2 ∧ (∀ q ∈ live, shared ∈ q.pointers ∧ 0 < session.nextId) ∧
    ∀ q ∈ live, ∀ ds, .choice 0 ds ∈ q.pointers → ds = .ofList objects := by
  obtain ⟨session, hmoment⟩ := exists_moment
  obtain ⟨hlength, hshared⟩ := live_shared
  obtain ⟨hwell, hsame⟩ := (choices_agree scenario {}).1 session live hmoment
  refine ⟨session, hmoment, hlength, fun q hq => ?_, fun q hq ds hds => ?_⟩
  · exact ⟨hshared q hq, (hwell q hq 0 _ (hshared q hq)).2⟩
  · exact hsame q hq q hq 0 ds _ hds (hshared q hq)

end SharedChoice

end Scenario

end Refuter
