import Refuter.Json.Form
import Refuter.Location
import Refuter.Program.Instruction

/-!
JSON forms of the program: names, operators, operands and instructions.
-/

namespace Refuter

open Json

instance : JsonForm MethodId where
  encode m := encode m.number
  decodeAt? p j := (decodeAt? p j).map MethodId.mk

instance : JsonForm Field where
  encode
    | .named className name =>
      variant "Named" (.obj [("class", encode className), ("name", encode name)])
    | .contents => .str "ArrayContents"
    | .element n => variant "ArrayElement" (encode n)
    | .length => .str "ArrayLength"
  decodeAt? p j := do
    match ← variant? p j with
    | ("Named", payload) =>
      let m ← members? ["class", "name"] p payload
      return .named (← m.required? "class") (← m.required? "name")
    | ("ArrayContents", .null) => some .contents
    | ("ArrayElement", payload) => return .element (← decodeAt? p payload)
    | ("ArrayLength", .null) => some .length
    | _ => none

instance : JsonForm AllocSite where
  encode s := .obj [("id", encode s.id), ("class", encode s.className), ("method", encode s.method)]
  decodeAt? p j := do
    let m ← members? ["id", "class", "method"] p j
    return ⟨← m.required? "id", ← m.required? "class", ← m.required? "method"⟩

instance : JsonForm Location where
  encode
    | .slot m l => variant "local" (.obj [("method", encode m), ("local", encode l)])
    | .result m => variant "return" (encode m)
    | .global f => variant "static" (encode f)
    | .site s => variant "alloc" (encode s)
    | .index n => variant "index" (encode n)
  decodeAt? p j := do
    match ← variant? p j with
    | ("local", payload) =>
      let m ← members? ["method", "local"] p payload
      return .slot (← m.required? "method") (← m.required? "local")
    | ("return", payload) => return .result (← decodeAt? p payload)
    | ("static", payload) => return .global (← decodeAt? p payload)
    | ("alloc", payload) => return .site (← decodeAt? p payload)
    | ("index", payload) => return .index (← decodeAt? p payload)
    | _ => none

instance : JsonForm Operand where
  encode
    | .slot l => variant "local" (encode l)
    | .const v => variant "const" (encode v)
    | .null => .str "null"
  decodeAt? p j := do
    match ← variant? p j with
    | ("local", payload) => return .slot (← decodeAt? p payload)
    | ("const", payload) => return .const (← decodeAt? p payload)
    | ("null", .null) => some .null
    | _ => none

instance : JsonForm CmpOp where
  encode op := .str op.text
  decodeAt? := named? CmpOp.all CmpOp.text

instance : JsonForm BinaryOp where
  encode op := .str op.text
  decodeAt? := named? BinaryOp.all BinaryOp.text

instance : JsonForm UnaryOp where
  encode op := .str op.text
  decodeAt? := named? UnaryOp.all UnaryOp.text

instance : JsonForm NumType where
  encode t := .str t.text
  decodeAt? := named? NumType.all NumType.text

instance : JsonForm MethodKind where
  encode k := .str k.text
  decodeAt? := named? MethodKind.all MethodKind.text

instance : JsonForm SwitchLabel where
  encode
    | .cases values => variant "cases" (encode values)
    | .default => .str "default"
  decodeAt? p j := do
    match ← variant? p j with
    | ("cases", payload) => return .cases (← decodeAt? p payload)
    | ("default", .null) => some .default
    | _ => none

instance : JsonForm Method where
  encode m := .obj [("id", encode m.id), ("class", encode m.className), ("name", encode m.name),
    ("params", encode m.params), ("kind", encode m.kind), ("modifies", encode m.modifies)]
  decodeAt? p j := do
    let m ← members? ["id", "class", "name", "params", "kind", "modifies"] p j
    return {
      id := ← m.required? "id"
      className := ← m.required? "class"
      name := ← m.required? "name"
      params := ← m.getD? "params" []
      kind := ← m.getD? "kind" .normal
      modifies := ← m.getD? "modifies" [] }

instance : JsonForm Site where
  encode s := .obj [("method", encode s.method), ("in_loop", encode s.inLoop)]
  decodeAt? p j := do
    let m ← members? ["method", "in_loop"] p j
    return ⟨← m.required? "method", ← m.getD? "in_loop" false⟩

namespace Instruction

/-- Names of the instructions in their form. -/
def kinds : List String :=
  ["assign", "check_cast", "new", "new_array", "load", "static_load", "store", "static_store",
    "array_load", "array_store", "array_length", "binary", "unary", "compare", "conversion",
    "instance_of", "metadata", "branch", "switch", "invoke", "return", "nop"]

/-- Name of the instruction in its form. -/
def kind : Instruction → String
  | assign .. => "assign"
  | checkCast .. => "check_cast"
  | new .. => "new"
  | newArray .. => "new_array"
  | load .. => "load"
  | staticLoad .. => "static_load"
  | store .. => "store"
  | staticStore .. => "static_store"
  | arrayLoad .. => "array_load"
  | arrayStore .. => "array_store"
  | arrayLength .. => "array_length"
  | binary .. => "binary"
  | unary .. => "unary"
  | compare .. => "compare"
  | conversion .. => "conversion"
  | instanceOf .. => "instance_of"
  | metadata _ => "metadata"
  | branch .. => "branch"
  | switch .. => "switch"
  | invoke .. => "invoke"
  | ret _ => "return"
  | nop => "nop"

/-- Parts of the instruction in its form. -/
def parts : Instruction → List (String × Json)
  | assign d v | checkCast d v | instanceOf d v => [("def", encode d), ("value", encode v)]
  | new d s => [("def", encode d), ("site", encode s)]
  | newArray d s n => [("def", encode d), ("site", encode s), ("length", encode n)]
  | load d b f => [("def", encode d), ("base", encode b), ("field", encode f)]
  | staticLoad d f => [("def", encode d), ("field", encode f)]
  | store b f v => [("base", encode b), ("field", encode f), ("value", encode v)]
  | staticStore f v => [("field", encode f), ("value", encode v)]
  | arrayLoad d a i => [("def", encode d), ("array", encode a), ("index", encode i)]
  | arrayStore a i v => [("array", encode a), ("index", encode i), ("value", encode v)]
  | arrayLength d a => [("def", encode d), ("array", encode a)]
  | binary d op l r t => [("def", encode d), ("op", encode op), ("lhs", encode l),
      ("rhs", encode r), ("ty", encode t)]
  | unary d op v t => [("def", encode d), ("op", encode op), ("value", encode v), ("ty", encode t)]
  | compare d l r t => [("def", encode d), ("lhs", encode l), ("rhs", encode r), ("ty", encode t)]
  | conversion d v s t => [("def", encode d), ("value", encode v), ("from", encode s),
      ("to", encode t)]
  | metadata d => [("def", encode d)]
  | branch op l r t => [("op", encode op), ("lhs", encode l), ("rhs", encode r),
      ("taken", encode t)]
  | switch s cs label => [("scrutinee", encode s), ("cases", encode cs), ("label", encode label)]
  | invoke d m args => [("def", encode d), ("callee", encode m), ("args", encode args)]
  | ret v => [("value", encode v)]
  | nop => []

/-- Reads the parts of an instruction of some kind. -/
def ofParts? (kind : String) (j : Json) : Option Instruction := do
  match kind with
  | "assign" =>
    let m ← members? ["def", "value"] .within j
    return .assign (← m.required? "def") (← m.required? "value")
  | "check_cast" =>
    let m ← members? ["def", "value"] .within j
    return .checkCast (← m.required? "def") (← m.required? "value")
  | "new" =>
    let m ← members? ["def", "site"] .within j
    return .new (← m.required? "def") (← m.required? "site")
  | "new_array" =>
    let m ← members? ["def", "site", "length"] .within j
    return .newArray (← m.required? "def") (← m.required? "site") (← m.required? "length")
  | "load" =>
    let m ← members? ["def", "base", "field"] .within j
    return .load (← m.required? "def") (← m.required? "base") (← m.required? "field")
  | "static_load" =>
    let m ← members? ["def", "field"] .within j
    return .staticLoad (← m.required? "def") (← m.required? "field")
  | "store" =>
    let m ← members? ["base", "field", "value"] .within j
    return .store (← m.required? "base") (← m.required? "field") (← m.required? "value")
  | "static_store" =>
    let m ← members? ["field", "value"] .within j
    return .staticStore (← m.required? "field") (← m.required? "value")
  | "array_load" =>
    let m ← members? ["def", "array", "index"] .within j
    return .arrayLoad (← m.required? "def") (← m.required? "array") (← m.required? "index")
  | "array_store" =>
    let m ← members? ["array", "index", "value"] .within j
    return .arrayStore (← m.required? "array") (← m.required? "index") (← m.required? "value")
  | "array_length" =>
    let m ← members? ["def", "array"] .within j
    return .arrayLength (← m.required? "def") (← m.required? "array")
  | "binary" =>
    let m ← members? ["def", "op", "lhs", "rhs", "ty"] .within j
    return .binary (← m.required? "def") (← m.required? "op") (← m.required? "lhs")
      (← m.required? "rhs") (← m.getD? "ty" .int)
  | "unary" =>
    let m ← members? ["def", "op", "value", "ty"] .within j
    return .unary (← m.required? "def") (← m.required? "op") (← m.required? "value")
      (← m.getD? "ty" .int)
  | "compare" =>
    let m ← members? ["def", "lhs", "rhs", "ty"] .within j
    return .compare (← m.required? "def") (← m.required? "lhs") (← m.required? "rhs")
      (← m.required? "ty")
  | "conversion" =>
    let m ← members? ["def", "value", "from", "to"] .within j
    return .conversion (← m.required? "def") (← m.required? "value") (← m.required? "from")
      (← m.required? "to")
  | "instance_of" =>
    let m ← members? ["def", "value"] .within j
    return .instanceOf (← m.required? "def") (← m.required? "value")
  | "metadata" =>
    let m ← members? ["def"] .within j
    return .metadata (← m.required? "def")
  | "branch" =>
    let m ← members? ["op", "lhs", "rhs", "taken"] .within j
    return .branch (← m.required? "op") (← m.required? "lhs") (← m.required? "rhs")
      (← m.required? "taken")
  | "switch" =>
    let m ← members? ["scrutinee", "cases", "label"] .within j
    return .switch (← m.required? "scrutinee") (← m.required? "cases") (← m.required? "label")
  | "invoke" =>
    let m ← members? ["def", "callee", "args"] .within j
    return .invoke (← m.optional? "def") (← m.required? "callee") (← m.required? "args")
  | "return" =>
    let m ← members? ["value"] .within j
    return .ret (← m.optional? "value")
  | "nop" =>
    match j with
    | .arr (_ :: _) => none
    | _ => some .nop
  | _ => none

end Instruction

instance : JsonForm Instruction where
  encode i := tagged "kind" i.kind i.parts
  decodeAt? p j := do
    let (kind, parts) ← tagged? "kind" Instruction.kinds p j
    Instruction.ofParts? kind parts

end Refuter
