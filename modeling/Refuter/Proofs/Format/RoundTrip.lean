import Refuter.Format.Scenario
import Refuter.Proofs.Json.Spelling

/-!
# Scenarios and settings read back

The spellings of every type of the scenario format. A record lists its parts, each with the default
value for which it may be left out; the readers supply the same defaults. So a scenario and the
settings are what is read from their JSON form, and from every other spelling.
-/

namespace Refuter

open Json

/-! ## 1. Names, operators and operands -/

instance : JsonForm.Solid MethodId := ⟨fun _ => rfl, fun _ => rfl⟩

instance : JsonForm.Spelled MethodId where
  Spells m := Spells m.number
  spells_encode m := spells_encode m.number
  decodeAt?_of_spells p m j h := by
    show (decodeAt? p j).map MethodId.mk = _
    rw [decodeAt?_of_spells p m.number j h]
    rfl

instance : JsonForm.Solid Field := ⟨fun _ => rfl, fun _ => rfl⟩

instance : JsonForm.Spelled Field where
  Spells
    | .named className name =>
      Variant "Named" (RecordOf [.required "class" className, .required "name" name])
    | .contents => (· = .str "ArrayContents")
    | .element n => Variant "ArrayElement" (Spells n)
    | .length => (· = .str "ArrayLength")
  spells_encode f := by
    cases f with
    | named => exact ⟨_, RecordOf.encoded _, rfl⟩
    | element n => exact ⟨_, spells_encode n, rfl⟩
    | contents | length => rfl
  decodeAt?_of_spells p f j h := by
    cases f with
    | named className name =>
      obtain ⟨k, hv, hk⟩ := Variant.variant? h p RecordOf.mayMiss_of_empty
      obtain ⟨m, hm, hr⟩ := hk.members? ["class", "name"] p rfl (by decide)
      exact reads hv <| reads hm <| reads (hr.required? "class" className rfl) <|
        reads (hr.required? "name" name rfl) rfl
    | element n =>
      obtain ⟨k, hv, hk⟩ := Variant.variant? h p (JsonForm.not_spells_empty n)
      exact reads hv <| reads (decodeAt?_of_spells p n k hk) rfl
    | contents | length =>
      cases h
      rfl

instance : JsonForm.Solid AllocSite := ⟨fun _ => rfl, fun _ => rfl⟩

instance : JsonForm.Spelled AllocSite where
  Spells s := RecordOf
    [.required "id" s.id, .required "class" s.className, .required "method" s.method]
  spells_encode s := RecordOf.encoded _
  decodeAt?_of_spells p s j h := by
    obtain ⟨m, hm, hr⟩ := h.members? ["id", "class", "method"] p rfl (by decide)
    exact reads hm <| reads (hr.required? "id" s.id rfl) <|
      reads (hr.required? "class" s.className rfl) <| reads (hr.required? "method" s.method rfl) rfl

instance : JsonForm.Spelled Location where
  Spells
    | .slot m l => Variant "local" (RecordOf [.required "method" m, .required "local" l])
    | .result m => Variant "return" (Spells m)
    | .global f => Variant "static" (Spells f)
    | .site s => Variant "alloc" (Spells s)
    | .index n => Variant "index" (Spells n)
  spells_encode x := by
    cases x with
    | slot => exact ⟨_, RecordOf.encoded _, rfl⟩
    | result payload | global payload | site payload | index payload =>
      exact ⟨_, spells_encode payload, rfl⟩
  decodeAt?_of_spells p x j h := by
    cases x with
    | slot m l =>
      obtain ⟨k, hv, hk⟩ := Variant.variant? h p RecordOf.mayMiss_of_empty
      obtain ⟨parts, hm, hr⟩ := hk.members? ["method", "local"] p rfl (by decide)
      exact reads hv <| reads hm <| reads (hr.required? "method" m rfl) <|
        reads (hr.required? "local" l rfl) rfl
    | result payload | global payload | site payload | index payload =>
      obtain ⟨k, hv, hk⟩ := Variant.variant? h p (JsonForm.not_spells_empty payload)
      exact reads hv <| reads (decodeAt?_of_spells p payload k hk) rfl

instance : JsonForm.Solid Operand := ⟨fun _ => rfl, fun _ => rfl⟩

instance : JsonForm.Spelled Operand where
  Spells
    | .slot l => Variant "local" (Spells l)
    | .const n => Variant "const" (Spells n)
    -- the null operand is the name of its case, not a null value
    | .null => (· = .str "null")
  spells_encode v := by
    cases v with
    | slot payload | const payload => exact ⟨_, spells_encode payload, rfl⟩
    | null => rfl
  decodeAt?_of_spells p v j h := by
    cases v with
    | slot payload | const payload =>
      obtain ⟨k, hv, hk⟩ := Variant.variant? h p (JsonForm.not_spells_empty payload)
      exact reads hv <| reads (decodeAt?_of_spells p payload k hk) rfl
    | null =>
      cases h
      rfl

instance : JsonForm.Spelled CmpOp :=
  .named (fun _ => rfl) (fun _ _ => rfl) fun op => by cases op <;> rfl

instance : JsonForm.Spelled BinaryOp :=
  .named (fun _ => rfl) (fun _ _ => rfl) fun op => by cases op <;> rfl

instance : JsonForm.Spelled UnaryOp :=
  .named (fun _ => rfl) (fun _ _ => rfl) fun op => by cases op; rfl

instance : JsonForm.Spelled NumType :=
  .named (fun _ => rfl) (fun _ _ => rfl) fun t => by cases t <;> rfl

instance : JsonForm.Spelled MethodKind :=
  .named (fun _ => rfl) (fun _ _ => rfl) fun k => by cases k <;> rfl

instance : JsonForm.Spelled SwitchLabel where
  Spells
    | .cases values => Variant "cases" (Spells values)
    | .default => (· = .str "default")
  spells_encode l := by
    cases l with
    | cases values => exact ⟨_, spells_encode values, rfl⟩
    | default => rfl
  decodeAt?_of_spells p l j h := by
    cases l with
    | cases values =>
      obtain ⟨k, hv, hk⟩ := Variant.variant? h p (JsonForm.not_spells_empty values)
      exact reads hv <| reads (decodeAt?_of_spells p values k hk) rfl
    | default =>
      cases h
      rfl

/-! ## 2. Instructions -/

instance : JsonForm.Spelled Method where
  Spells c := RecordOf [.required "id" c.id, .required "class" c.className, .required "name" c.name,
    .defaulted "params" c.params [], .defaulted "kind" c.kind .normal,
    .defaulted "modifies" c.modifies []]
  spells_encode _ := RecordOf.encoded _
  decodeAt?_of_spells p c j h := by
    obtain ⟨m, hm, hr⟩ :=
      h.members? ["id", "class", "name", "params", "kind", "modifies"] p rfl (by decide)
    exact reads hm <| reads (hr.required? "id" c.id rfl) <|
      reads (hr.required? "class" c.className rfl) <| reads (hr.required? "name" c.name rfl) <|
      reads (hr.getD? "params" c.params [] rfl) <| reads (hr.getD? "kind" c.kind .normal rfl) <|
      reads (hr.getD? "modifies" c.modifies [] rfl) rfl

instance : JsonForm.Spelled Site where
  Spells s := RecordOf [.required "method" s.method, .defaulted "in_loop" s.inLoop false]
  spells_encode _ := RecordOf.encoded _
  decodeAt?_of_spells p s j h := by
    obtain ⟨m, hm, hr⟩ := h.members? ["method", "in_loop"] p rfl (by decide)
    exact reads hm <| reads (hr.required? "method" s.method rfl) <|
      reads (hr.getD? "in_loop" s.inLoop false rfl) rfl

namespace Instruction

/-- Parts of the instruction with their defaults. -/
def layout : Instruction → List RecordPart
  | assign d v | checkCast d v | instanceOf d v => [.required "def" d, .required "value" v]
  | new d s => [.required "def" d, .required "site" s]
  | newArray d s n => [.required "def" d, .required "site" s, .required "length" n]
  | load d b f => [.required "def" d, .required "base" b, .required "field" f]
  | staticLoad d f => [.required "def" d, .required "field" f]
  | store b f v => [.required "base" b, .required "field" f, .required "value" v]
  | staticStore f v => [.required "field" f, .required "value" v]
  | arrayLoad d a n => [.required "def" d, .required "array" a, .required "index" n]
  | arrayStore a n v => [.required "array" a, .required "index" n, .required "value" v]
  | arrayLength d a => [.required "def" d, .required "array" a]
  | binary d op l r t => [.required "def" d, .required "op" op, .required "lhs" l,
      .required "rhs" r, .defaulted "ty" t .int]
  | unary d op v t => [.required "def" d, .required "op" op, .required "value" v,
      .defaulted "ty" t .int]
  | compare d l r t => [.required "def" d, .required "lhs" l, .required "rhs" r, .required "ty" t]
  | conversion d v s t => [.required "def" d, .required "value" v, .required "from" s,
      .required "to" t]
  | metadata d => [.required "def" d]
  | branch op l r t => [.required "op" op, .required "lhs" l, .required "rhs" r,
      .required "taken" t]
  | switch v values label => [.required "scrutinee" v, .required "cases" values,
      .required "label" label]
  | invoke d c args => [.defaulted "def" d none, .required "callee" c, .required "args" args]
  | ret v => [.defaulted "value" v none]
  | nop => []

theorem parts_eq (i : Instruction) : i.parts = i.layout.map RecordPart.member := by cases i <;> rfl

/-- No part of an instruction has the key of its tag. -/
theorem kind_not_mem_layout (i : Instruction) : ¬ "kind" ∈ i.layout.map RecordPart.key := by
  cases i <;> simp [layout]

/-- Each kind of instruction reads its own parts. -/
theorem ofParts?_of_record {i : Instruction} {j : Json} (h : RecordOf i.layout j) :
    ofParts? i.kind j = some i := by
  cases i with
  | assign d v | checkCast d v | instanceOf d v =>
    obtain ⟨m, hm, hr⟩ := RecordOf.members? h ["def", "value"] .within rfl (by decide)
    exact reads hm <| reads (hr.required? "def" d rfl) <| reads (hr.required? "value" v rfl) rfl
  | new d s =>
    obtain ⟨m, hm, hr⟩ := RecordOf.members? h ["def", "site"] .within rfl (by decide)
    exact reads hm <| reads (hr.required? "def" d rfl) <| reads (hr.required? "site" s rfl) rfl
  | newArray d s n =>
    obtain ⟨m, hm, hr⟩ := RecordOf.members? h ["def", "site", "length"] .within rfl (by decide)
    exact reads hm <| reads (hr.required? "def" d rfl) <| reads (hr.required? "site" s rfl) <|
      reads (hr.required? "length" n rfl) rfl
  | load d b f =>
    obtain ⟨m, hm, hr⟩ := RecordOf.members? h ["def", "base", "field"] .within rfl (by decide)
    exact reads hm <| reads (hr.required? "def" d rfl) <| reads (hr.required? "base" b rfl) <|
      reads (hr.required? "field" f rfl) rfl
  | staticLoad d f =>
    obtain ⟨m, hm, hr⟩ := RecordOf.members? h ["def", "field"] .within rfl (by decide)
    exact reads hm <| reads (hr.required? "def" d rfl) <| reads (hr.required? "field" f rfl) rfl
  | store b f v =>
    obtain ⟨m, hm, hr⟩ := RecordOf.members? h ["base", "field", "value"] .within rfl (by decide)
    exact reads hm <| reads (hr.required? "base" b rfl) <| reads (hr.required? "field" f rfl) <|
      reads (hr.required? "value" v rfl) rfl
  | staticStore f v =>
    obtain ⟨m, hm, hr⟩ := RecordOf.members? h ["field", "value"] .within rfl (by decide)
    exact reads hm <| reads (hr.required? "field" f rfl) <| reads (hr.required? "value" v rfl) rfl
  | arrayLoad d a n =>
    obtain ⟨m, hm, hr⟩ := RecordOf.members? h ["def", "array", "index"] .within rfl (by decide)
    exact reads hm <| reads (hr.required? "def" d rfl) <| reads (hr.required? "array" a rfl) <|
      reads (hr.required? "index" n rfl) rfl
  | arrayStore a n v =>
    obtain ⟨m, hm, hr⟩ := RecordOf.members? h ["array", "index", "value"] .within rfl (by decide)
    exact reads hm <| reads (hr.required? "array" a rfl) <| reads (hr.required? "index" n rfl) <|
      reads (hr.required? "value" v rfl) rfl
  | arrayLength d a =>
    obtain ⟨m, hm, hr⟩ := RecordOf.members? h ["def", "array"] .within rfl (by decide)
    exact reads hm <| reads (hr.required? "def" d rfl) <| reads (hr.required? "array" a rfl) rfl
  | binary d op l r t =>
    obtain ⟨m, hm, hr⟩ :=
      RecordOf.members? h ["def", "op", "lhs", "rhs", "ty"] .within rfl (by decide)
    exact reads hm <| reads (hr.required? "def" d rfl) <| reads (hr.required? "op" op rfl) <|
      reads (hr.required? "lhs" l rfl) <| reads (hr.required? "rhs" r rfl) <|
      reads (hr.getD? "ty" t .int rfl) rfl
  | unary d op v t =>
    obtain ⟨m, hm, hr⟩ := RecordOf.members? h ["def", "op", "value", "ty"] .within rfl (by decide)
    exact reads hm <| reads (hr.required? "def" d rfl) <| reads (hr.required? "op" op rfl) <|
      reads (hr.required? "value" v rfl) <| reads (hr.getD? "ty" t .int rfl) rfl
  | compare d l r t =>
    obtain ⟨m, hm, hr⟩ := RecordOf.members? h ["def", "lhs", "rhs", "ty"] .within rfl (by decide)
    exact reads hm <| reads (hr.required? "def" d rfl) <| reads (hr.required? "lhs" l rfl) <|
      reads (hr.required? "rhs" r rfl) <| reads (hr.required? "ty" t rfl) rfl
  | conversion d v s t =>
    obtain ⟨m, hm, hr⟩ :=
      RecordOf.members? h ["def", "value", "from", "to"] .within rfl (by decide)
    exact reads hm <| reads (hr.required? "def" d rfl) <| reads (hr.required? "value" v rfl) <|
      reads (hr.required? "from" s rfl) <| reads (hr.required? "to" t rfl) rfl
  | metadata d =>
    obtain ⟨m, hm, hr⟩ := RecordOf.members? h ["def"] .within rfl (by decide)
    exact reads hm <| reads (hr.required? "def" d rfl) rfl
  | branch op l r t =>
    obtain ⟨m, hm, hr⟩ := RecordOf.members? h ["op", "lhs", "rhs", "taken"] .within rfl (by decide)
    exact reads hm <| reads (hr.required? "op" op rfl) <| reads (hr.required? "lhs" l rfl) <|
      reads (hr.required? "rhs" r rfl) <| reads (hr.required? "taken" t rfl) rfl
  | switch v values label =>
    obtain ⟨m, hm, hr⟩ :=
      RecordOf.members? h ["scrutinee", "cases", "label"] .within rfl (by decide)
    exact reads hm <| reads (hr.required? "scrutinee" v rfl) <|
      reads (hr.required? "cases" values rfl) <| reads (hr.required? "label" label rfl) rfl
  | invoke d c args =>
    obtain ⟨m, hm, hr⟩ := RecordOf.members? h ["def", "callee", "args"] .within rfl (by decide)
    exact reads hm <| reads (hr.optional? "def" d rfl) <| reads (hr.required? "callee" c rfl) <|
      reads (hr.required? "args" args rfl) rfl
  | ret v =>
    obtain ⟨m, hm, hr⟩ := RecordOf.members? h ["value"] .within rfl (by decide)
    exact reads hm <| reads (hr.optional? "value" v rfl) rfl
  | nop =>
    cases h
    rfl

end Instruction

instance : JsonForm.Spelled Instruction where
  Spells i := RecordOf (.required "kind" i.kind :: i.layout)
  spells_encode i := by
    show RecordOf _ (.obj (("kind", .str i.kind) :: i.parts))
    rw [i.parts_eq]
    exact RecordOf.encoded _
  decodeAt?_of_spells p i j h := by
    obtain ⟨k, ht, hk⟩ := h.tagged? Instruction.kinds p i.kind_not_mem_layout
    exact reads ht <| Instruction.ofParts?_of_record hk

/-! ## 3. Facts, goals and steps -/

instance : JsonForm.Spelled RootFact where
  Spells r := RecordOf [.required "root" r.root, .required "points_to" r.pointsTo]
  spells_encode _ := RecordOf.encoded _
  decodeAt?_of_spells p r j h := by
    obtain ⟨m, hm, hr⟩ := h.members? ["root", "points_to"] p rfl (by decide)
    exact reads hm <| reads (hr.required? "root" r.root rfl) <|
      reads (hr.required? "points_to" r.pointsTo rfl) rfl

instance : JsonForm.Spelled FieldFact where
  Spells e := RecordOf
    [.required "source" e.source, .required "field" e.field, .required "sink" e.sink]
  spells_encode _ := RecordOf.encoded _
  decodeAt?_of_spells p e j h := by
    obtain ⟨m, hm, hr⟩ := h.members? ["source", "field", "sink"] p rfl (by decide)
    exact reads hm <| reads (hr.required? "source" e.source rfl) <|
      reads (hr.required? "field" e.field rfl) <| reads (hr.required? "sink" e.sink rfl) rfl

instance : JsonForm.Spelled HeapGraph where
  Spells g := RecordOf
    [.defaulted "roots" g.roots [], .defaulted "edges" g.edges [], .defaulted "fields" g.fields []]
  spells_encode _ := RecordOf.encoded _
  decodeAt?_of_spells p g j h := by
    obtain ⟨m, hm, hr⟩ := h.members? ["roots", "edges", "fields"] p rfl (by decide)
    exact reads hm <| reads (hr.getD? "roots" g.roots [] rfl) <|
      reads (hr.getD? "edges" g.edges [] rfl) <| reads (hr.getD? "fields" g.fields [] rfl) rfl

instance : JsonForm.Solid Verdict := ⟨fun _ => rfl, fun _ => rfl⟩

instance : JsonForm.Spelled Verdict :=
  .named (fun _ => rfl) (fun _ _ => rfl) fun v => by cases v <;> rfl

instance : JsonForm.Spelled GoalTerm where
  Spells
    | .const n => Variant "const" (Spells n)
    | .path base fields =>
      Variant "var" (RecordOf [.required "base" base, .defaulted "fields" fields []])
  spells_encode t := by
    cases t with
    | const n => exact ⟨_, spells_encode n, rfl⟩
    | path => exact ⟨_, RecordOf.encoded _, rfl⟩
  decodeAt?_of_spells p t j h := by
    cases t with
    | const n =>
      obtain ⟨k, hv, hk⟩ := Variant.variant? h p (JsonForm.not_spells_empty n)
      exact reads hv <| reads (decodeAt?_of_spells p n k hk) rfl
    | path base fields =>
      obtain ⟨k, hv, hk⟩ := Variant.variant? h p RecordOf.mayMiss_of_empty
      obtain ⟨m, hm, hr⟩ := hk.members? ["base", "fields"] p rfl (by decide)
      exact reads hv <| reads hm <| reads (hr.required? "base" base rfl) <|
        reads (hr.getD? "fields" fields [] rfl) rfl

instance : JsonForm.Spelled Goal where
  Spells
    | .edge source field sink => Variant "edge" (RecordOf
        [.required "source" source, .defaulted "field" field none, .required "sink" sink])
    | .constraint lhs op rhs => Variant "constraint" (RecordOf
        [.required "lhs" lhs, .required "op" op, .required "rhs" rhs])
  spells_encode g := by
    cases g with
    | edge | constraint => exact ⟨_, RecordOf.encoded _, rfl⟩
  decodeAt?_of_spells p g j h := by
    cases g with
    | edge source field sink =>
      obtain ⟨k, hv, hk⟩ := Variant.variant? h p RecordOf.mayMiss_of_empty
      obtain ⟨m, hm, hr⟩ := hk.members? ["source", "field", "sink"] p rfl (by decide)
      exact reads hv <| reads hm <| reads (hr.required? "source" source rfl) <|
        reads (hr.getD? "field" field none rfl) <| reads (hr.required? "sink" sink rfl) rfl
    | constraint lhs op rhs =>
      obtain ⟨k, hv, hk⟩ := Variant.variant? h p RecordOf.mayMiss_of_empty
      obtain ⟨m, hm, hr⟩ := hk.members? ["lhs", "op", "rhs"] p rfl (by decide)
      exact reads hv <| reads hm <| reads (hr.required? "lhs" lhs rfl) <|
        reads (hr.required? "op" op rfl) <| reads (hr.required? "rhs" rhs rfl) rfl

instance : JsonForm.Spelled EdgePattern where
  Spells e := RecordOf
    [.required "source" e.source, .defaulted "field" e.field none, .required "sink" e.sink]
  spells_encode _ := RecordOf.encoded _
  decodeAt?_of_spells p e j h := by
    obtain ⟨m, hm, hr⟩ := h.members? ["source", "field", "sink"] p rfl (by decide)
    exact reads hm <| reads (hr.required? "source" e.source rfl) <|
      reads (hr.getD? "field" e.field none rfl) <| reads (hr.required? "sink" e.sink rfl) rfl

instance : JsonForm.Spelled RulePattern where
  Spells r := RecordOf [.required "shown" r.shown, .defaulted "to_show" r.premises []]
  spells_encode _ := RecordOf.encoded _
  decodeAt?_of_spells p r j h := by
    obtain ⟨m, hm, hr⟩ := h.members? ["shown", "to_show"] p rfl (by decide)
    exact reads hm <| reads (hr.required? "shown" r.shown rfl) <|
      reads (hr.getD? "to_show" r.premises [] rfl) rfl

instance : JsonForm.Spelled Step where
  Spells
    | .visit site i rules => RecordOf [.required "step" "visit", .required "site" site,
        .required "instr" i, .defaulted "rules" rules none]
    | .enterCallee site call callee => RecordOf [.required "step" "enter_callee",
        .required "site" site, .required "call" call, .required "callee" callee]
    | .returnToCaller site call => RecordOf
        [.required "step" "return_to_caller", .required "site" site, .required "call" call]
    | .skipCall site call => RecordOf
        [.required "step" "skip_call", .required "site" site, .required "call" call]
    | .declareWitness => RecordOf [.required "step" "declare_witness"]
  spells_encode s := by
    cases s with
    | visit | enterCallee | returnToCaller | skipCall | declareWitness => exact RecordOf.encoded _
  decodeAt?_of_spells p s j h := by
    cases s with
    | visit site i rules =>
      obtain ⟨k, ht, hk⟩ := RecordOf.tagged? h Step.names p (by simp)
      obtain ⟨m, hm, hr⟩ := hk.members? ["site", "instr", "rules"] .within rfl (by decide)
      exact reads ht <| reads hm <| reads (hr.required? "site" site rfl) <|
        reads (hr.required? "instr" i rfl) <| reads (hr.getD? "rules" rules none rfl) rfl
    | enterCallee site call callee =>
      obtain ⟨k, ht, hk⟩ := RecordOf.tagged? h Step.names p (by simp)
      obtain ⟨m, hm, hr⟩ := hk.members? ["site", "call", "callee"] .within rfl (by decide)
      exact reads ht <| reads hm <| reads (hr.required? "site" site rfl) <|
        reads (hr.required? "call" call rfl) <| reads (hr.required? "callee" callee rfl) rfl
    | returnToCaller site call | skipCall site call =>
      obtain ⟨k, ht, hk⟩ := RecordOf.tagged? h Step.names p (by simp)
      obtain ⟨m, hm, hr⟩ := hk.members? ["site", "call"] .within rfl (by decide)
      exact reads ht <| reads hm <| reads (hr.required? "site" site rfl) <|
        reads (hr.required? "call" call rfl) rfl
    | declareWitness =>
      obtain ⟨k, ht, hk⟩ := RecordOf.tagged? h Step.names p (by simp)
      cases hk
      exact reads ht rfl

/-! ## 4. Scenarios and settings -/

instance : JsonForm.Spelled Scenario where
  Spells s := RecordOf [.defaulted "name" s.name "", .defaulted "heap" s.heap {},
    .required "goal" s.goal, .defaulted "trace" s.trace [], .defaulted "expect" s.expect none]
  spells_encode _ := RecordOf.encoded _
  decodeAt?_of_spells p s j h := by
    obtain ⟨m, hm, hr⟩ := h.members? Scenario.keys p rfl (by decide)
    exact reads hm <| reads (hr.getD? "name" s.name "" rfl) <|
      reads (hr.getD? "heap" s.heap {} rfl) <| reads (hr.required? "goal" s.goal rfl) <|
      reads (hr.getD? "trace" s.trace [] rfl) <| reads (hr.getD? "expect" s.expect none rfl) rfl

instance : JsonForm.Spelled SolverKind :=
  .named (fun _ => rfl) (fun _ _ => rfl) fun k => by cases k <;> rfl

/-- Unknown settings are errors, so there are no other members. -/
instance : JsonForm.Spelled Options where
  Spells o := ClosedRecordOf [.defaulted "index_sensitivity" o.indexSensitivity true,
    .defaulted "narrow_from_constraints" o.narrowFromConstraints true,
    .defaulted "max_path_constraints" o.maxPathConstraints 16, .defaulted "solver" o.solver .z3,
    .defaulted "smt_timeout" o.smtTimeout 5000,
    .defaulted "smt_transcript" o.smtTranscript none]
  spells_encode _ := ClosedRecordOf.encoded _
  decodeAt?_of_spells p o j h := by
    obtain ⟨m, hm, hr⟩ := h.closedMembers? Options.keys p rfl (by decide)
    exact reads hm <| reads (hr.getD? "index_sensitivity" o.indexSensitivity true rfl) <|
      reads (hr.getD? "narrow_from_constraints" o.narrowFromConstraints true rfl) <|
      reads (hr.getD? "max_path_constraints" o.maxPathConstraints 16 rfl) <|
      reads (hr.getD? "solver" o.solver .z3 rfl) <|
      reads (hr.getD? "smt_timeout" o.smtTimeout 5000 rfl) <|
      reads (hr.getD? "smt_transcript" o.smtTranscript none rfl) rfl

/-- **Round trip.** Scenarios and settings are read back from their JSON form, and from each of
their spellings. -/
theorem decode?_of_spells (s : Scenario) (o : Options) :
    decode? (encode s) = some s ∧ decode? (encode o) = some o ∧
      (∀ j, Spells s j → decode? j = some s) ∧ ∀ j, Spells o j → decode? j = some o :=
  ⟨decode?_of_spelling (spells_encode s), decode?_of_spelling (spells_encode o),
    fun _ h => decode?_of_spelling h, fun _ h => decode?_of_spelling h⟩

namespace ShortSpelling

def callee : Method where
  id := ⟨2⟩
  className := "A"
  name := "f"

/-- A call whose result is not used is skipped. -/
def scenario : Scenario where
  goal := .edge (.result ⟨2⟩) none [.index 18446744073709551615]
  trace := [.skipCall ⟨⟨1⟩, false⟩ (.invoke none callee [])]

-- all that has its default is left out, the rest stands in reverse order

def goalSpelling : Json :=
  variant "edge" (.obj [("sink", .arr [variant "index" (.int 18446744073709551615)]),
    ("source", variant "return" (.int 2))])

def calleeSpelling : Json := .obj [("name", .str "f"), ("class", .str "A"), ("id", .int 2)]

def callSpelling : Json :=
  .obj [("args", .arr []), ("callee", calleeSpelling), ("kind", .str "invoke")]

def stepSpelling : Json :=
  .obj [("call", callSpelling), ("site", .obj [("method", .int 1)]), ("step", .str "skip_call")]

/-- The reader does not know the last member. -/
def spelling : Json :=
  .obj [("trace", .arr [stepSpelling]), ("goal", goalSpelling), ("comment", .null)]

theorem spells_goal : Spells scenario.goal goalSpelling :=
  ⟨_, (ClosedRecordOf.obj (.keep (spells_encode _) (.leave rfl (.keep (spells_encode _) .nil)))
    (.swap ..)).record, rfl⟩

theorem spells_callee : Spells callee calleeSpelling :=
  (ClosedRecordOf.obj
    (.keep rfl (.keep rfl (.keep rfl (.leave rfl (.leave rfl (.leave rfl .nil))))))
    (List.reverse_perm _).symm).record

theorem spells_call : Spells (Instruction.invoke none callee []) callSpelling :=
  (ClosedRecordOf.obj (.keep rfl (.leave rfl (.keep spells_callee (.keep (spells_encode _) .nil))))
    (List.reverse_perm _).symm).record

theorem spells_step :
    Spells (Step.skipCall ⟨⟨1⟩, false⟩ (.invoke none callee [])) stepSpelling := by
  have hsite : Spells (⟨⟨1⟩, false⟩ : Site) (.obj [("method", .int 1)]) :=
    (ClosedRecordOf.obj (.keep rfl (.leave rfl .nil)) (.refl _)).record
  exact (ClosedRecordOf.obj (.keep rfl (.keep hsite (.keep spells_call .nil)))
    (List.reverse_perm _).symm).record

theorem spells_scenario : Spells scenario spelling := by
  have htrace : Spells scenario.trace (.arr [stepSpelling]) := ⟨_, rfl, .cons spells_step .nil⟩
  have hothers : ∀ member ∈ [("comment", Json.null)], ¬ member.1 ∈ Scenario.keys := by
    simp [Scenario.keys]
  exact .obj (.leave rfl (.leave rfl (.keep spells_goal (.keep htrace (.leave rfl .nil)))))
    hothers (.swap ..)

theorem decode?_spelling :
    Spells scenario spelling ∧ decode? spelling = some scenario ∧
      Spells ({} : Options) (.obj []) ∧ decode? (.obj []) = some ({} : Options) := by
  have hoptions : Spells ({} : Options) (.obj []) :=
    .obj (.leave rfl (.leave rfl (.leave rfl (.leave rfl (.leave rfl (.leave rfl .nil)))))) .nil
  exact ⟨spells_scenario, (decode?_of_spells scenario {}).2.2.1 _ spells_scenario, hoptions,
    (decode?_of_spells scenario {}).2.2.2 _ hoptions⟩

end ShortSpelling

end Refuter
