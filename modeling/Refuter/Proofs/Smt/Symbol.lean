import Refuter.Proofs.Smt.Context

/-!
# Paths that a solver cannot tell apart

A symbol joins the texts of a base and of fields without escaping them, so it must be read off from
left to right: each part ends at a character that cannot occur in it. If names of classes and fields
leave out the characters that separate parts, two paths have one symbol only if they read the same
fields of bases that share a name.
-/

namespace Refuter

/-! ## 1. Reading a part off -/

/-- The characters begin with none that has `p`. -/
def Stops (p : Char → Bool) (xs : List Char) : Prop := ∀ c, xs.head? = some c → p c = false

theorem Stops.takeWhile_eq_nil {p : Char → Bool} {xs : List Char} (h : Stops p xs) :
    xs.takeWhile p = [] := by
  cases xs with
  | nil => rfl
  | cons c rest => rw [List.takeWhile_cons, h c rfl, if_neg Bool.false_ne_true]

theorem stops_cons {p : Char → Bool} {c : Char} {xs : List Char} (h : p c = false) :
    Stops p (c :: xs) := by
  intro d hd
  cases hd
  exact h

/-- A part whose characters have `p` ends where one without `p` stands. -/
theorem append_inj_of_stops {p : Char → Bool} {xs ys zs ws : List Char}
    (hxs : ∀ c ∈ xs, p c = true) (hys : ∀ c ∈ ys, p c = true) (hzs : Stops p zs)
    (hws : Stops p ws) (h : xs ++ zs = ys ++ ws) : xs = ys ∧ zs = ws := by
  have htake := congrArg (List.takeWhile p) h
  rw [List.takeWhile_append_of_pos hxs, List.takeWhile_append_of_pos hys, hzs.takeWhile_eq_nil,
    hws.takeWhile_eq_nil, List.append_nil, List.append_nil] at htake
  subst htake
  exact ⟨rfl, List.append_cancel_left h⟩

/-- Digits end where another character stands. -/
theorem toDigits_append_inj {n k : Nat} {xs ys : List Char} (hxs : Stops Char.isDigit xs)
    (hys : Stops Char.isDigit ys) (h : Nat.toDigits 10 n ++ xs = Nat.toDigits 10 k ++ ys) :
    n = k ∧ xs = ys := by
  have hdigits : ∀ j, ∀ c ∈ Nat.toDigits 10 j, c.isDigit = true := fun j c hc =>
    Nat.isDigit_of_mem_toDigits (by decide) (by decide) hc
  obtain ⟨hnk, hrest⟩ := append_inj_of_stops (hdigits n) (hdigits k) hxs hys h
  exact ⟨Smt.toDigits_injective hnk, hrest⟩

/-- What follows a base or a field in a name: nothing or a further field. -/
def EndsName (xs : List Char) : Prop := ∀ c, xs.head? = some c → c = '.'

theorem EndsName.stops {p : Char → Bool} {xs : List Char} (h : EndsName xs) (hp : p '.' = false) :
    Stops p xs := by
  intro c hc
  rw [h c hc]
  exact hp

/-! ## 2. Fields -/

/-- Characters of a class name that separate nothing. -/
def isClassChar (c : Char) : Bool := c ∉ [':', '#', '@', '|', '\\']

/-- Characters of a field name that separate nothing. -/
def isFieldChar (c : Char) : Bool := c ∉ ['.', ':', '|', '\\']

namespace Field

variable {f g : Field} {xs ys : List Char}

/-- The names of the field and of its class hold no separator. -/
def isPlain : Field → Bool
  | named className name => className.toList.all isClassChar && name.toList.all isFieldChar
  | _ => true

theorem toList_text_named (className name : String) :
    (named className name).text.toList = className.toList ++ ':' :: ':' :: name.toList := by
  simp [text]

theorem toList_text_element (n : UInt64) : (element n).text.toList =
    '@' :: '[' :: 'i' :: 'd' :: 'x' :: (Nat.toDigits 10 n.toNat ++ [']']) := by
  simp [text]

/-- Only a pseudo field begins with the mark of one. -/
theorem named_append_ne {className name : String} (h : (named className name).isPlain = true) :
    (named className name).text.toList ++ xs ≠ '@' :: ys := by
  intro heq
  have hclass : className.toList.all isClassChar = true := (Bool.and_eq_true_iff.1 h).1
  rw [toList_text_named] at heq
  cases hchars : className.toList with
  | nil =>
    rw [hchars] at heq
    simp at heq
  | cons c rest =>
    rw [hchars] at heq hclass
    obtain rfl : c = '@' := by simpa using (List.cons.inj heq).1
    simp [isClassChar] at hclass

theorem text_append_inj (hf : f.isPlain = true) (hg : g.isPlain = true) (hxs : EndsName xs)
    (hys : EndsName ys) (h : f.text.toList ++ xs = g.text.toList ++ ys) : f = g ∧ xs = ys := by
  cases f with
  | named c n =>
    cases g with
    | named d k =>
      obtain ⟨hc, hn⟩ := Bool.and_eq_true_iff.1 hf
      obtain ⟨hd, hk⟩ := Bool.and_eq_true_iff.1 hg
      have hcolon : ∀ {zs : List Char}, Stops isClassChar (':' :: zs) := stops_cons (by decide)
      rw [toList_text_named, toList_text_named, List.append_assoc, List.append_assoc] at h
      -- the class up to the first colon, then the name up to the next field
      obtain ⟨hclass, hrest⟩ := append_inj_of_stops (List.all_eq_true.1 hc) (List.all_eq_true.1 hd)
        hcolon hcolon h
      obtain ⟨hname, hrest⟩ := append_inj_of_stops (List.all_eq_true.1 hn) (List.all_eq_true.1 hk)
        (hxs.stops (by decide)) (hys.stops (by decide))
        (List.tail_eq_of_cons_eq (List.tail_eq_of_cons_eq hrest))
      rw [String.toList_inj.1 hclass, String.toList_inj.1 hname]
      exact ⟨rfl, hrest⟩
    | element k =>
      rw [toList_text_element] at h
      exact absurd h (named_append_ne hf)
    | contents | length => exact absurd h (named_append_ne hf)
  | element n =>
    cases g with
    | element k =>
      have hbracket : ∀ {zs : List Char}, Stops Char.isDigit (']' :: zs) := stops_cons (by decide)
      rw [toList_text_element, toList_text_element] at h
      simp only [List.cons_append, List.append_assoc, List.cons.injEq, true_and,
        List.nil_append] at h
      obtain ⟨hn, hrest⟩ := toDigits_append_inj hbracket hbracket h
      rw [UInt64.toNat_inj.1 hn]
      exact ⟨rfl, List.tail_eq_of_cons_eq hrest⟩
    | named d k =>
      rw [toList_text_element] at h
      exact absurd h.symm (named_append_ne hg)
    | contents | length => simp [text] at h
  | contents =>
    cases g with
    | contents => exact ⟨rfl, List.append_cancel_left h⟩
    | named d k => exact absurd h.symm (named_append_ne hg)
    | element | length => simp [text] at h
  | length =>
    cases g with
    | length => exact ⟨rfl, List.append_cancel_left h⟩
    | named d k => exact absurd h.symm (named_append_ne hg)
    | element | contents => simp [text] at h

/-- The fields of a path, one after the other. -/
def chain (fields : List Field) : List Char := fields.flatMap fun f => '.' :: f.text.toList

theorem endsName_chain (fields : List Field) : EndsName (chain fields) := by
  intro c hc
  cases fields with
  | nil => cases hc
  | cons f rest =>
    cases hc
    rfl

theorem chain_injOn {fields others : List Field} (hf : ∀ f ∈ fields, f.isPlain = true)
    (hg : ∀ g ∈ others, g.isPlain = true) (h : chain fields = chain others) : fields = others := by
  induction fields generalizing others with
  | nil =>
    cases others with
    | nil => rfl
    | cons g rest => cases h
  | cons f rest ih =>
    cases others with
    | nil => cases h
    | cons g rest' =>
      -- a field ends where the next one begins, so both chains begin with the same field
      obtain ⟨hfg, hrest⟩ := text_append_inj (hf f List.mem_cons_self) (hg g List.mem_cons_self)
        (endsName_chain rest) (endsName_chain rest') (List.tail_eq_of_cons_eq h)
      have htail := ih (fun e he => hf e (List.mem_cons_of_mem _ he))
        (fun e he => hg e (List.mem_cons_of_mem _ he)) hrest
      rw [hfg, htail]

end Field

/-! ## 3. Bases -/

def Location.isPlain : Location → Bool
  | global f => f.isPlain
  | site s => s.className.toList.all isClassChar
  | _ => true

/-- No part of the name holds a separator. Candidates are not part of it. -/
def Pointer.isPlain : Pointer → Bool
  | known x => x.isPlain
  | choice .. => true

/-- The pointers are the same, choices with one number, or sites with one class and number. -/
inductive Pointer.SharesName : Pointer → Pointer → Prop
  | known (x : Location) : SharesName (.known x) (.known x)
  | choice (i : Nat) (cs ds : Locations) : SharesName (.choice i cs) (.choice i ds)
  | site (a b : AllocSite) (hclass : a.className = b.className) (hid : a.id = b.id) :
    SharesName (.site a) (.site b)

theorem MethodId.eq_of_toNat {m n : MethodId} (h : m.number.toNat = n.number.toNat) : m = n := by
  cases m
  cases n
  exact congrArg MethodId.mk (UInt32.toNat_inj.1 h)

/-- The first character gives the kind of a location, and its parts follow. -/
theorem Location.text_append_inj {x y : Location} {xs ys : List Char} (hx : x.isPlain = true)
    (hy : y.isPlain = true) (hxs : EndsName xs) (hys : EndsName ys)
    (h : x.text.toList ++ xs = y.text.toList ++ ys) :
    (Pointer.known x).SharesName (.known y) ∧ xs = ys := by
  have hxs' : Stops Char.isDigit xs := hxs.stops (by decide)
  have hys' : Stops Char.isDigit ys := hys.stops (by decide)
  cases x with
  | slot m l =>
    cases y with
    | slot n k =>
      have hat : ∀ {zs : List Char}, Stops Char.isDigit ('@' :: zs) := stops_cons (by decide)
      have h : Nat.toDigits 10 l.toNat ++ '@' :: 'm' :: (Nat.toDigits 10 m.number.toNat ++ xs) =
          Nat.toDigits 10 k.toNat ++ '@' :: 'm' :: (Nat.toDigits 10 n.number.toNat ++ ys) := by
        simpa [Location.text, MethodId.text] using h
      obtain ⟨hlocal, hrest⟩ := toDigits_append_inj hat hat h
      obtain ⟨hmethod, hrest⟩ := toDigits_append_inj hxs' hys'
        (List.tail_eq_of_cons_eq (List.tail_eq_of_cons_eq hrest))
      rw [UInt32.toNat_inj.1 hlocal, MethodId.eq_of_toNat hmethod]
      exact ⟨.known _, hrest⟩
    | result | global | site | index => simp [Location.text, AllocSite.text] at h
  | result m =>
    cases y with
    | result n =>
      have h : Nat.toDigits 10 m.number.toNat ++ xs = Nat.toDigits 10 n.number.toNat ++ ys := by
        simpa [Location.text, MethodId.text] using h
      obtain ⟨hmethod, hrest⟩ := toDigits_append_inj hxs' hys' h
      rw [MethodId.eq_of_toNat hmethod]
      exact ⟨.known _, hrest⟩
    | slot | global | site | index => simp [Location.text, AllocSite.text] at h
  | global f =>
    cases y with
    | global g =>
      have h : f.text.toList ++ xs = g.text.toList ++ ys := by simpa [Location.text] using h
      obtain ⟨hfield, hrest⟩ := Field.text_append_inj hx hy hxs hys h
      rw [hfield]
      exact ⟨.known _, hrest⟩
    | slot | result | site | index => simp [Location.text, AllocSite.text] at h
  | site a =>
    cases y with
    | site b =>
      have hhash : ∀ {zs : List Char}, Stops isClassChar ('#' :: zs) := stops_cons (by decide)
      have h : a.className.toList ++ '#' :: (Nat.toDigits 10 a.id.toNat ++ xs) =
          b.className.toList ++ '#' :: (Nat.toDigits 10 b.id.toNat ++ ys) := by
        simpa [Location.text, AllocSite.text] using h
      -- the method is not part of the text, so the two sites need not be the same
      obtain ⟨hclass, hrest⟩ := append_inj_of_stops (List.all_eq_true.1 hx) (List.all_eq_true.1 hy)
        hhash hhash h
      obtain ⟨hid, hrest⟩ := toDigits_append_inj hxs' hys' (List.tail_eq_of_cons_eq hrest)
      exact ⟨.site a b (String.toList_inj.1 hclass) (UInt32.toNat_inj.1 hid), hrest⟩
    | slot | result | global | index => simp [Location.text, AllocSite.text] at h
  | index n =>
    cases y with
    | index k =>
      have h : Nat.toDigits 10 n.toNat ++ xs = Nat.toDigits 10 k.toNat ++ ys := by
        simpa [Location.text] using h
      obtain ⟨hn, hrest⟩ := toDigits_append_inj hxs' hys' h
      rw [UInt64.toNat_inj.1 hn]
      exact ⟨.known _, hrest⟩
    | slot | result | global | site => simp [Location.text, AllocSite.text] at h

namespace AccessPath

variable {p q : Pointer} {v w : AccessPath} {xs ys : List Char}

theorem baseName_append_inj (hp : p.isPlain = true) (hq : q.isPlain = true) (hxs : EndsName xs)
    (hys : EndsName ys) (h : (baseName p).toList ++ xs = (baseName q).toList ++ ys) :
    p.SharesName q ∧ xs = ys := by
  cases p with
  | known x =>
    cases q with
    | known y => exact Location.text_append_inj hp hq hxs hys h
    | choice j ds => cases x <;> simp [baseName, Location.text, AllocSite.text] at h
  | choice i cs =>
    cases q with
    | known y => cases y <;> simp [baseName, Location.text, AllocSite.text] at h
    | choice j ds =>
      have h : Nat.toDigits 10 i ++ xs = Nat.toDigits 10 j ++ ys := by simpa [baseName] using h
      obtain ⟨rfl, hrest⟩ := toDigits_append_inj (hxs.stops (by decide)) (hys.stops (by decide)) h
      exact ⟨.choice i cs ds, hrest⟩

theorem baseName_eq_of_sharesName (h : p.SharesName q) : baseName p = baseName q := by
  cases h with
  | known | choice => rfl
  | site a b hclass hid =>
    simp only [baseName, Pointer.site, Location.text, AllocSite.text, hclass, hid]

/-! ## 4. Symbols -/

/-- Nothing is replaced in the text. -/
def Unescaped (s : String) : Prop := ∀ c ∈ s.toList, symbolChar c = c

theorem Unescaped.append {s t : String} (hs : Unescaped s) (ht : Unescaped t) :
    Unescaped (s ++ t) := by
  unfold Unescaped
  rw [String.toList_append]
  exact List.forall_mem_append.2 ⟨hs, ht⟩

theorem symbolChar_of_mem_toDigits {n : Nat} {c : Char} (h : c ∈ Nat.toDigits 10 n) :
    symbolChar c = c := by
  have hdigit := Nat.isDigit_of_mem_toDigits (by decide) (by decide) h
  have hne : c ≠ '|' ∧ c ≠ '\\' := by
    constructor <;>
    · rintro rfl
      cases hdigit
  simp [symbolChar, hne]

theorem unescaped_toString (n : Nat) : Unescaped (toString n) := by
  intro c hc
  rw [Nat.toString_eq_ofList_toDigits, String.toList_ofList] at hc
  exact symbolChar_of_mem_toDigits hc

theorem unescaped_className {s : String} (h : s.toList.all isClassChar = true) : Unescaped s := by
  intro c hc
  have hchar := List.all_eq_true.1 h c hc
  simp only [isClassChar, List.mem_cons, not_or, decide_eq_true_eq] at hchar
  simp [symbolChar, hchar]

theorem unescaped_fieldName {s : String} (h : s.toList.all isFieldChar = true) : Unescaped s := by
  intro c hc
  have hchar := List.all_eq_true.1 h c hc
  simp only [isFieldChar, List.mem_cons, not_or, decide_eq_true_eq] at hchar
  simp [symbolChar, hchar]

theorem unescaped_field {f : Field} (h : f.isPlain = true) : Unescaped f.text := by
  cases f with
  | named c n =>
    obtain ⟨hc, hn⟩ := Bool.and_eq_true_iff.1 h
    have hcolons : Unescaped "::" := by simp [Unescaped, symbolChar]
    exact ((unescaped_className hc).append hcolons).append (unescaped_fieldName hn)
  | element n =>
    have hopen : Unescaped "@[idx" := by simp [Unescaped, symbolChar]
    have hclose : Unescaped "]" := by simp [Unescaped, symbolChar]
    exact (hopen.append (unescaped_toString _)).append hclose
  | contents | length => simp [Unescaped, symbolChar, Field.text]

theorem unescaped_method (m : MethodId) : Unescaped m.text := by
  have hm : Unescaped "m" := by simp [Unescaped, symbolChar]
  exact hm.append (unescaped_toString _)

theorem unescaped_location {x : Location} (h : x.isPlain = true) : Unescaped x.text := by
  cases x with
  | slot m l =>
    have hv : Unescaped "v" := by simp [Unescaped, symbolChar]
    have hat : Unescaped "@" := by simp [Unescaped, symbolChar]
    exact ((hv.append (unescaped_toString _)).append hat).append (unescaped_method m)
  | result m =>
    have hret : Unescaped "ret@" := by simp [Unescaped, symbolChar]
    exact hret.append (unescaped_method m)
  | global f =>
    have hstatic : Unescaped "static " := by simp [Unescaped, symbolChar]
    exact hstatic.append (unescaped_field h)
  | site a =>
    have hnew : Unescaped "new " := by simp [Unescaped, symbolChar]
    have hhash : Unescaped "#" := by simp [Unescaped, symbolChar]
    exact ((hnew.append (unescaped_className h)).append hhash).append (unescaped_toString _)
  | index n =>
    have hidx : Unescaped "idx" := by simp [Unescaped, symbolChar]
    exact hidx.append (unescaped_toString _)

theorem unescaped_baseName (h : p.isPlain = true) : Unescaped (baseName p) := by
  cases p with
  | known x => exact unescaped_location h
  | choice i cs =>
    have hsym : Unescaped "_sym" := by simp [Unescaped, symbolChar]
    exact hsym.append (unescaped_toString i)

theorem unescaped_join {fields : List Field} (h : ∀ f ∈ fields, f.isPlain = true) :
    Unescaped (String.join (fields.map ("." ++ ·.text))) := by
  induction fields with
  | nil => simp [Unescaped]
  | cons f rest ih =>
    have hdot : Unescaped "." := by simp [Unescaped, symbolChar]
    rw [List.map_cons, String.join_cons]
    exact (hdot.append (unescaped_field (h f List.mem_cons_self))).append
      (ih fun g hg => h g (List.mem_cons_of_mem _ hg))

/-- No part of the path's symbol holds a separator. -/
def isPlain (v : AccessPath) : Bool := v.base.isPlain && v.fields.all Field.isPlain

theorem toList_symbol (h : v.isPlain = true) :
    v.symbol.toList = '|' :: ((baseName v.base).toList ++ Field.chain v.fields ++ ['|']) := by
  obtain ⟨hbase, hfields⟩ := Bool.and_eq_true_iff.1 h
  have hjoin : (String.join (v.fields.map ("." ++ ·.text))).toList = Field.chain v.fields := by
    simp [String.toList_join, Field.chain, List.flatMap_map]
  have hsame : (baseName v.base ++ String.join (v.fields.map ("." ++ ·.text))).map symbolChar =
      baseName v.base ++ String.join (v.fields.map ("." ++ ·.text)) := by
    refine String.toList_inj.1 ?_
    rw [String.toList_map]
    refine (List.map_congr_left ?_).trans (List.map_id _)
    exact (unescaped_baseName hbase).append (unescaped_join (List.all_eq_true.1 hfields))
  unfold symbol
  rw [hsame]
  simp [hjoin]

/-- A solver knows two paths by one symbol exactly if they read the same fields of bases that share
a name: the same location, choices with one number, or sites with one class and number, in
whichever methods. -/
theorem symbol_eq_iff (hv : v.isPlain = true) (hw : w.isPlain = true) :
    v.symbol = w.symbol ↔ v.fields = w.fields ∧ v.base.SharesName w.base := by
  obtain ⟨hvbase, hvfields⟩ := Bool.and_eq_true_iff.1 hv
  obtain ⟨hwbase, hwfields⟩ := Bool.and_eq_true_iff.1 hw
  constructor
  · intro h
    have hchars := congrArg String.toList h
    rw [toList_symbol hv, toList_symbol hw] at hchars
    have hname := List.append_cancel_right (List.tail_eq_of_cons_eq hchars)
    obtain ⟨hbase, hchain⟩ := baseName_append_inj hvbase hwbase (Field.endsName_chain v.fields)
      (Field.endsName_chain w.fields) hname
    exact ⟨Field.chain_injOn (List.all_eq_true.1 hvfields) (List.all_eq_true.1 hwfields) hchain,
      hbase⟩
  · rintro ⟨hfields, hbase⟩
    unfold symbol
    rw [hfields, baseName_eq_of_sharesName hbase]

/-- The length of an array in an array that an object of the site with number `id` in `m` holds. -/
def created (m id : UInt32) : AccessPath :=
  ⟨.site ⟨id, "java.util.List", ⟨m⟩⟩, [.named "java.util.List" "items", .element 3, .length]⟩

/-- The method of a site does not show in a symbol, but its number does. -/
theorem symbol_eq_iff_created :
    (created 1 7).isPlain = true ∧ (created 2 7).isPlain = true ∧ (created 2 8).isPlain = true ∧
      (created 1 7).symbol = (created 2 7).symbol ∧
      (created 1 7).symbol ≠ (created 2 8).symbol := by
  refine ⟨by decide, by decide, by decide, ?_, ?_⟩
  · exact (symbol_eq_iff (by decide) (by decide)).2 ⟨rfl, .site _ _ rfl rfl⟩
  · intro h
    obtain ⟨-, hshares⟩ := (symbol_eq_iff (by decide) (by decide)).1 h
    cases hshares with
    | site _ _ _ hid => exact absurd hid (by decide)

end AccessPath

end Refuter
