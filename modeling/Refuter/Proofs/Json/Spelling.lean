import Mathlib.Data.List.Forall2
import Refuter.Json.Form

/-!
# Values read back from their spellings

An encoder writes one of many spellings of a value. The members of an object come in any order,
those with their default value may be left out, and there may be others that the reader does not
know. A form is `Spelled` if it says what its spellings are, the encoded value is one, and each of
them reads as the value, wherever it stands.
-/

namespace Refuter

open Json

/-! ## 1. Forms with spellings -/

class JsonForm.Spelled (α : Type) [JsonForm α] where
  /-- The second value is a spelling of the first one. -/
  Spells : α → Json → Prop
  spells_encode (a : α) : Spells a (encode a)
  decodeAt?_of_spells (p : Standing) (a : α) (j : Json) (h : Spells a j) : decodeAt? p j = some a

export JsonForm.Spelled (Spells spells_encode decodeAt?_of_spells)

/-- No value is spelled as null or as an empty object, which say that there is none. -/
class JsonForm.Solid (α : Type) [JsonForm α] : Prop where
  decodeAt?_null (p : Standing) : (decodeAt? p .null : Option α) = none
  decodeAt?_empty (p : Standing) : (decodeAt? p (.obj []) : Option α) = none

/-- A value on its own is read back from every spelling. -/
theorem Json.decode?_of_spelling {α : Type} [JsonForm α] [JsonForm.Spelled α] {a : α} {j : Json}
    (h : Spells a j) : decode? j = some a := decodeAt?_of_spells .own a j h

section

variable {α : Type} [JsonForm α] [JsonForm.Spelled α] [JsonForm.Solid α]

theorem JsonForm.not_spells_null (a : α) : ¬ Spells a .null := fun h => by
  have hread := decodeAt?_of_spells .own a .null h
  rw [JsonForm.Solid.decodeAt?_null] at hread
  cases hread

theorem JsonForm.not_spells_empty (a : α) : ¬ Spells a (.obj []) := fun h => by
  have hread := decodeAt?_of_spells .own a (.obj []) h
  rw [JsonForm.Solid.decodeAt?_empty] at hread
  cases hread

end

/-- A value with one spelling only. -/
@[reducible]
def JsonForm.Spelled.exact {α : Type} [JsonForm α]
    (hdecode : ∀ (p : Standing) (a : α), decodeAt? p (encode a) = some a) : Spelled α where
  Spells a j := j = encode a
  spells_encode _ := rfl
  decodeAt?_of_spells p a j h := by
    subst h
    exact hdecode p a

/-- The names of some values tell them apart. -/
@[reducible]
def JsonForm.Spelled.named {α : Type} [JsonForm α] {all : List α} {text : α → String}
    (hencode : ∀ a : α, encode a = .str (text a))
    (hdecode : ∀ (p : Standing) (j : Json), (decodeAt? p j : Option α) = named? all text p j)
    (hfind : ∀ a, all.find? (text · = text a) = some a) : Spelled α :=
  .exact fun p a => by
    rw [hdecode, hencode]
    exact hfind a

/-! ## 2. Scalars, lists and options -/

instance : JsonForm.Spelled Bool := .exact fun _ _ => rfl

instance : JsonForm.Spelled String := .exact fun _ _ => rfl

instance : JsonForm.Spelled UInt32 := .exact fun _ n => by
  have hlow : (0 : Int) ≤ n.toNat := Int.natCast_nonneg _
  have hhigh : (n.toNat : Int) < UInt32.size := Int.ofNat_lt.2 n.toNat_lt
  show (if (decide _ && decide _) = true then some (UInt32.ofNat (Int.toNat n.toNat)) else none) = _
  rw [decide_eq_true hlow, decide_eq_true hhigh, Int.toNat_natCast, UInt32.ofNat_toNat]
  rfl

instance : JsonForm.Spelled UInt64 := .exact fun _ n => by
  have hlow : (0 : Int) ≤ n.toNat := Int.natCast_nonneg _
  have hhigh : (n.toNat : Int) < UInt64.size := Int.ofNat_lt.2 n.toNat_lt
  show (if (decide _ && decide _) = true then some (UInt64.ofNat (Int.toNat n.toNat)) else none) = _
  rw [decide_eq_true hlow, decide_eq_true hhigh, Int.toNat_natCast, UInt64.ofNat_toNat]
  rfl

instance : JsonForm.Spelled Int64 := .exact fun _ n => by
  have hlow : Int64.minValue.toInt ≤ n.toInt := Int64.minValue_le_toInt n
  have hhigh : n.toInt ≤ Int64.maxValue.toInt := Int64.toInt_le n
  show (if (decide _ && decide _) = true then some (Int64.ofInt n.toInt) else none) = _
  rw [decide_eq_true hlow, decide_eq_true hhigh, Int64.ofInt_toInt]
  rfl

instance : JsonForm.Solid String := ⟨fun _ => rfl, fun _ => rfl⟩
instance : JsonForm.Solid UInt32 := ⟨fun _ => rfl, fun _ => rfl⟩
instance : JsonForm.Solid UInt64 := ⟨fun _ => rfl, fun _ => rfl⟩
instance : JsonForm.Solid Int64 := ⟨fun _ => rfl, fun _ => rfl⟩
instance {α : Type} [JsonForm α] : JsonForm.Solid (List α) := ⟨fun _ => rfl, fun _ => rfl⟩

section

variable {α : Type} [JsonForm α] [JsonForm.Spelled α]

theorem Json.decodeAll?_of_spells {p : Standing} {as : List α} {items : List Json}
    (h : List.Forall₂ Spells as items) : decodeAll? p items = some as := by
  induction h with
  | nil => rfl
  | cons h _ ih =>
    unfold decodeAll?
    rw [decodeAt?_of_spells p _ _ h, ih]
    rfl

/-- The items of a list keep their order. -/
instance : JsonForm.Spelled (List α) where
  Spells as j := ∃ items, j = .arr items ∧ List.Forall₂ Spells as items
  spells_encode as :=
    ⟨_, rfl, List.forall₂_map_right_iff.2 (List.forall₂_same.2 fun a _ => spells_encode a)⟩
  decodeAt?_of_spells p as j h := by
    obtain ⟨items, rfl, hitems⟩ := h
    exact decodeAll?_of_spells hitems

/-- Only the absent value is null. -/
instance [JsonForm.Solid α] : JsonForm.Spelled (Option α) where
  Spells o j := o.elim (j = .null) (Spells · j)
  spells_encode o := by
    cases o with
    | none => rfl
    | some a => exact spells_encode a
  decodeAt?_of_spells p o j h := by
    cases o with
    | none =>
      cases h
      rfl
    | some a =>
      have hread : decodeAt? p j = some a := decodeAt?_of_spells p a j h
      cases j with
      -- the reader takes null for an absent value
      | null => exact absurd h (JsonForm.not_spells_null a)
      | bool | int | real | str | broken | arr | obj =>
        show (decodeAt? p _).map some = _
        rw [hread]
        rfl

end

/-! ## 3. The parts of an object -/

namespace Json

/-- A part of a record as it may be written. -/
structure RecordPart where
  key : String
  /-- what the encoder writes -/
  value : Json
  IsSpelling : Json → Prop
  /-- when it may be left out -/
  MayMiss : Prop
  isSpelling_value : IsSpelling value

namespace RecordPart

variable {α : Type} [JsonForm α] [JsonForm.Spelled α]

/-- A part that is always given. -/
def required (key : String) (a : α) : RecordPart :=
  ⟨key, encode a, Spells a, False, spells_encode a⟩

/-- A part that may be left out if it has its default value. -/
def defaulted (key : String) (a default : α) : RecordPart :=
  ⟨key, encode a, Spells a, a = default, spells_encode a⟩

@[simp]
theorem key_required (key : String) (a : α) : (required key a).key = key := rfl

@[simp]
theorem key_defaulted (key : String) (a default : α) : (defaulted key a default).key = key := rfl

/-- The member that the encoder writes. -/
def member (part : RecordPart) : String × Json := (part.key, part.value)

end RecordPart

/-- The members give these parts in order, some that may be left out aside. -/
inductive Gives : List RecordPart → List (String × Json) → Prop where
  | nil : Gives [] []
  | keep {part : RecordPart} {j : Json} {parts : List RecordPart} {members : List (String × Json)}
      (h : part.IsSpelling j) (hrest : Gives parts members) :
      Gives (part :: parts) ((part.key, j) :: members)
  | leave {part : RecordPart} {parts : List RecordPart} {members : List (String × Json)}
      (h : part.MayMiss) (hrest : Gives parts members) : Gives (part :: parts) members

/-- An object that gives these parts in any order, and perhaps others. -/
inductive RecordOf (parts : List RecordPart) : Json → Prop where
  | obj {written others members : List (String × Json)} (hwritten : Gives parts written)
      (hothers : ∀ member ∈ others, ¬ member.1 ∈ parts.map RecordPart.key)
      (hperm : (written ++ others).Perm members) : RecordOf parts (.obj members)

/-- An object that gives these parts and no others, in any order. -/
inductive ClosedRecordOf (parts : List RecordPart) : Json → Prop where
  | obj {written members : List (String × Json)} (hwritten : Gives parts written)
      (hperm : written.Perm members) : ClosedRecordOf parts (.obj members)

section

variable {parts : List RecordPart} {written members : List (String × Json)} {j : Json}

theorem Gives.encoded : ∀ parts : List RecordPart, Gives parts (parts.map RecordPart.member)
  | [] => .nil
  | part :: rest => .keep part.isSpelling_value (Gives.encoded rest)

theorem ClosedRecordOf.encoded (parts : List RecordPart) :
    ClosedRecordOf parts (.obj (parts.map RecordPart.member)) :=
  .obj (Gives.encoded parts) (.refl _)

/-- There need not be other members. -/
theorem ClosedRecordOf.record (h : ClosedRecordOf parts j) : RecordOf parts j := by
  obtain ⟨hwritten, hperm⟩ := h
  exact .obj hwritten (fun _ hmember => absurd hmember List.not_mem_nil)
    ((List.Perm.of_eq (List.append_nil _)).trans hperm)

theorem RecordOf.encoded (parts : List RecordPart) :
    RecordOf parts (.obj (parts.map RecordPart.member)) :=
  (ClosedRecordOf.encoded parts).record

/-- A record with a part that is always given is not empty. -/
theorem RecordOf.mayMiss_of_empty {part : RecordPart} (h : RecordOf (part :: parts) (.obj [])) :
    part.MayMiss := by
  obtain ⟨hwritten, -, hperm⟩ := h
  obtain ⟨rfl, -⟩ := List.append_eq_nil_iff.1 hperm.eq_nil
  cases hwritten with
  | leave hmiss => exact hmiss

/-- Only keys disappear. -/
theorem Gives.sublist_keys (h : Gives parts written) :
    (written.map Prod.fst).Sublist (parts.map RecordPart.key) := by
  induction h with
  | nil => exact .slnil
  | keep _ _ ih => exact ih.cons_cons _
  | leave _ _ ih => exact ih.cons _

theorem Gives.key_mem (h : Gives parts written) {member : String × Json}
    (hmember : member ∈ written) : member.1 ∈ parts.map RecordPart.key :=
  h.sublist_keys.subset (List.mem_map_of_mem hmember)

/-- A part is among the members, or it may be left out and no member has its key. -/
theorem Gives.mem_or_mayMiss (h : Gives parts written) (hnodup : (parts.map RecordPart.key).Nodup)
    {part : RecordPart} (hpart : part ∈ parts) :
    (∃ j, (part.key, j) ∈ written ∧ part.IsSpelling j) ∨
      part.MayMiss ∧ ¬ part.key ∈ written.map Prod.fst := by
  -- along the parts: as keys differ, no member answers for another part
  induction h with
  | nil => cases hpart
  | @keep first j rest written h hrest ih =>
    obtain ⟨hfresh, hunique⟩ := List.nodup_cons.1 hnodup
    obtain rfl | hpart := List.mem_cons.1 hpart
    · exact .inl ⟨j, List.mem_cons_self, h⟩
    · have hne : part.key ≠ first.key := fun heq => hfresh (heq ▸ List.mem_map_of_mem hpart)
      obtain ⟨j, hj, hspelling⟩ | ⟨hmiss, hnone⟩ := ih hunique hpart
      · exact .inl ⟨j, List.mem_cons_of_mem _ hj, hspelling⟩
      · exact .inr ⟨hmiss, fun hmem => (List.mem_cons.1 hmem).elim hne hnone⟩
  | @leave first rest written hmiss hrest ih =>
    obtain ⟨hfresh, hunique⟩ := List.nodup_cons.1 hnodup
    obtain rfl | hpart := List.mem_cons.1 hpart
    · exact .inr ⟨hmiss, fun hmem => hfresh (hrest.sublist_keys.subset hmem)⟩
    · exact ih hunique hpart

/-- Where no key is given twice, a member is found wherever it stands. -/
theorem lookup_of_mem {key : String} (hnodup : (members.map Prod.fst).Nodup)
    (h : (key, j) ∈ members) : members.lookup key = some j := by
  induction members with
  | nil => cases h
  | cons member rest ih =>
    obtain ⟨hfresh, hunique⟩ := List.nodup_cons.1 hnodup
    obtain rfl | h := List.mem_cons.1 h
    · exact List.lookup_cons_self
    · have hne : key ≠ member.1 := fun heq => hfresh (heq ▸ List.mem_map_of_mem h)
      rw [List.lookup_cons, beq_eq_false_iff_ne.2 hne]
      exact ih hunique h

theorem lookup_of_not_mem {key : String} (h : ¬ key ∈ members.map Prod.fst) :
    members.lookup key = none :=
  List.lookup_eq_none_iff.2 fun member hmember => by
    have hne : key ≠ member.1 := fun heq => h (heq ▸ List.mem_map_of_mem hmember)
    simpa using hne

end

/-! ## 4. Records -/

/-- A reader goes on with the part it has read. -/
theorem reads {α β : Type} {o : Option α} {a : α} {k : α → Option β} {b : Option β}
    (h : o = some a) (hk : k a = b) : (o >>= k) = b := by
  rw [h]
  exact hk

/-- What was read gives these parts by key. -/
structure Members.Reads (m : Members) (parts : List RecordPart) : Prop where
  gives : ∀ part ∈ parts, (∃ j, m.entries.lookup part.key = some j ∧ part.IsSpelling j) ∨
    part.MayMiss ∧ m.entries.lookup part.key = none
  byKey : m.positional = false

/-- Neither the order of the members nor those with other keys matter. -/
theorem RecordOf.members? {parts : List RecordPart} {j : Json} (h : RecordOf parts j)
    (keys : List String) (p : Standing) (hkeys : parts.map RecordPart.key = keys)
    (hnodup : keys.Nodup) :
    ∃ m, members? keys p j = some m ∧ m.Reads parts := by
  subst hkeys
  obtain @⟨written, others, members, hwritten, hothers, hperm⟩ := h
  -- the reader keeps the members with known keys, which are those that give the parts
  have hkept : (written ++ others).filter (·.1 ∈ parts.map RecordPart.key) = written := by
    rw [List.filter_append, List.filter_eq_self.2, List.filter_eq_nil_iff.2, List.append_nil]
    · exact fun member hmember => by simpa using hothers member hmember
    · exact fun member hmember => decide_eq_true (hwritten.key_mem hmember)
  have hknown : written.Perm (members.filter (·.1 ∈ parts.map RecordPart.key)) :=
    hkept ▸ hperm.filter _
  have hunique : ((members.filter (·.1 ∈ parts.map RecordPart.key)).map Prod.fst).Nodup :=
    (hknown.map Prod.fst).nodup_iff.1 (hnodup.sublist hwritten.sublist_keys)
  refine ⟨_, if_pos hunique, fun part hpart => ?_, rfl⟩
  obtain ⟨i, hi, hspelling⟩ | ⟨hmiss, hnone⟩ := hwritten.mem_or_mayMiss hnodup hpart
  · exact .inl ⟨i, lookup_of_mem hunique (hknown.mem_iff.1 hi), hspelling⟩
  · refine .inr ⟨hmiss, lookup_of_not_mem fun hmem => hnone ?_⟩
    exact (hknown.map Prod.fst).mem_iff.2 hmem

/-- A record without other keys is read in the same way. -/
theorem ClosedRecordOf.closedMembers? {parts : List RecordPart} {j : Json}
    (h : ClosedRecordOf parts j) (keys : List String) (p : Standing)
    (hkeys : parts.map RecordPart.key = keys) (hnodup : keys.Nodup) :
    ∃ m, closedMembers? keys p j = some m ∧ m.Reads parts := by
  have hread := h.record.members? keys p hkeys hnodup
  subst hkeys
  obtain @⟨written, members, hwritten, hperm⟩ := h
  have hall : members.all (·.1 ∈ parts.map RecordPart.key) = true :=
    List.all_eq_true.2 fun member hmember =>
      decide_eq_true (hwritten.key_mem (hperm.mem_iff.2 hmember))
  unfold Json.closedMembers?
  dsimp only
  rw [if_pos hall]
  exact hread

namespace Members.Reads

variable {α : Type} [JsonForm α] [JsonForm.Spelled α] {m : Members} {parts : List RecordPart}

theorem required? (hm : m.Reads parts) (key : String) (a : α)
    (hkey : parts.find? (·.key == key) = some (.required key a)) : m.required? key = some a := by
  unfold Members.required?
  obtain ⟨j, hj, hspells⟩ | ⟨hmiss, -⟩ := hm.gives _ (List.mem_of_find?_eq_some hkey)
  · rw [show m.entries.lookup key = some j from hj]
    exact decodeAt?_of_spells _ a j hspells
  · exact hmiss.elim

/-- A part that is left out has its default value. -/
theorem getD? (hm : m.Reads parts) (key : String) (a default : α)
    (hkey : parts.find? (·.key == key) = some (.defaulted key a default)) :
    m.getD? key default = some a := by
  unfold Members.getD?
  obtain ⟨j, hj, hspells⟩ | ⟨hmiss, hj⟩ := hm.gives _ (List.mem_of_find?_eq_some hkey)
  · rw [show m.entries.lookup key = some j from hj]
    exact decodeAt?_of_spells _ a j hspells
  · rw [show m.entries.lookup key = none from hj]
    exact congrArg some hmiss.symm

/-- A record by key may leave out what is absent. -/
theorem optional? [JsonForm.Solid α] (hm : m.Reads parts) (key : String) (o : Option α)
    (hkey : parts.find? (·.key == key) = some (.defaulted key o none)) :
    m.optional? key = some o := by
  rw [← hm.getD? key o none hkey]
  unfold Members.optional? Members.getD?
  rw [hm.byKey]
  rfl

end Members.Reads

/-! ## 5. Variants -/

/-- The case of this name with a payload of some spelling. -/
def Variant (name : String) (IsPayload : Json → Prop) (j : Json) : Prop :=
  ∃ payload, IsPayload payload ∧ j = variant name payload

theorem Variant.variant? {name : String} {IsPayload : Json → Prop} {j : Json}
    (h : Variant name IsPayload j) (p : Standing) (hempty : ¬ IsPayload (.obj [])) :
    ∃ k, variant? p j = some (name, k) ∧ IsPayload k := by
  obtain ⟨k, hk, rfl⟩ := h
  refine ⟨k, ?_, hk⟩
  show some (name, payload p k) = _
  unfold payload
  split
  · exact absurd hk hempty
  · rfl

/-- The tag of a variant is found wherever it stands among the parts. -/
theorem RecordOf.tagged? {tag name : String} {parts : List RecordPart} {j : Json}
    (h : RecordOf (.required tag name :: parts) j) (names : List String) (p : Standing)
    (htag : ¬ tag ∈ parts.map RecordPart.key) :
    ∃ k, tagged? tag names p j = some (name, k) ∧ RecordOf parts k := by
  obtain @⟨written, others, members, hwritten, hothers, hperm⟩ := h
  cases hwritten with
  | leave hmiss => exact hmiss.elim
  | @keep _ i _ rest hname hrest =>
    obtain rfl : i = .str name := hname
    -- no other member has the key of the tag
    have hne : ∀ member ∈ rest ++ others, member.1 ≠ tag := fun member hmember heq =>
      (List.mem_append.1 hmember).elim (fun hmember => htag (heq ▸ hrest.key_mem hmember))
        fun hmember => hothers member hmember (heq ▸ List.mem_cons_self)
    have htagged : members.filter (·.1 = tag) = [(tag, .str name)] := by
      have hfilter := hperm.filter (·.1 = tag)
      rw [List.cons_append, List.filter_cons_of_pos (by simp [RecordPart.required]),
        List.filter_eq_nil_iff.2 fun member hmember => by simp [hne member hmember]] at hfilter
      exact List.perm_singleton.1 hfilter.symm
    have hparts : (rest ++ others).Perm (members.filter (·.1 ≠ tag)) := by
      have hfilter := hperm.filter (·.1 ≠ tag)
      rw [List.cons_append, List.filter_cons_of_neg (by simp [RecordPart.required]),
        List.filter_eq_self.2 fun member hmember => by simp [hne member hmember]] at hfilter
      exact hfilter
    have hunknown : ∀ member ∈ others, ¬ member.1 ∈ parts.map RecordPart.key :=
      fun member hmember hkey => hothers member hmember (List.mem_cons_of_mem _ hkey)
    refine ⟨_, ?_, .obj hrest hunknown hparts⟩
    unfold Json.tagged?
    dsimp only
    rw [htagged]
    rfl

end Json

end Refuter
