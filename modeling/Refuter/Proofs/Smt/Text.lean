import Refuter.Proofs.Smt.Meaning

/-!
# Reading solver text back

A reader for the SMT-LIB text of terms and comparisons, and the meaning of what it reads. The
text of an expression is read as a tree of the expression's own value, so that folding and the
text sent to a solver agree.
-/

namespace Refuter.Smt

/-! ## 1. Reader -/

inductive Tree where
  | numeral (n : Nat)
  | symbol (name : String)
  | list (items : List Tree)

/-- What the reader is in the middle of. -/
inductive Mode where
  | blank
  | word (chars : List Char)
  | quoted (chars : List Char)

/-- Trees of the innermost open list, and of the lists around it from the inside out. -/
structure Reader where
  mode : Mode := .blank
  items : List Tree := []
  outer : List (List Tree) := []

/-- A word of digits is a number. -/
def Tree.ofWord (chars : List Char) : Tree :=
  if chars.all Char.isDigit then .numeral (Nat.ofDigitChars 10 chars 0) else .symbol (.ofList chars)

namespace Reader

/-- Ends a word. -/
def settle (r : Reader) : Reader :=
  match r.mode with
  | .word chars => { r with mode := .blank, items := r.items ++ [.ofWord chars] }
  | _ => r

/-- Bars and words do not touch. -/
def openQuote (r : Reader) : Option Reader :=
  match r.mode with
  | .blank => some { r with mode := .quoted [] }
  | _ => none

def openList (r : Reader) : Reader := { r with items := [], outer := r.items :: r.outer }

def closeList (r : Reader) : Option Reader :=
  match r.outer with
  | [] => none
  | items :: outer => some { r with items := items ++ [.list r.items], outer }

def extendWord (r : Reader) (c : Char) : Reader :=
  match r.mode with
  | .word chars => { r with mode := .word (chars ++ [c]) }
  | _ => { r with mode := .word [c] }

def step (r : Reader) (c : Char) : Option Reader :=
  match r.mode with
  | .quoted chars =>
    if c = '|' then some { r with mode := .blank, items := r.items ++ [.symbol (.ofList chars)] }
    else some { r with mode := .quoted (chars ++ [c]) }
  | _ =>
    if c = ' ' then some r.settle
    else if c = '(' then some r.settle.openList
    else if c = ')' then r.settle.closeList
    else if c = '|' then r.openQuote
    else some (r.extendWord c)

/-- The only tree, if nothing is left open. -/
def finish (r : Reader) : Option Tree :=
  match r.settle with
  | ⟨.blank, [t], []⟩ => some t
  | _ => none

end Reader

/-- Reads one tree. -/
def readTree (text : String) : Option Tree :=
  (text.toList.foldlM Reader.step {}).bind Reader.finish

/-! ## 2. Meaning of trees -/

inductive Datum where
  | int (n : Int)
  | bool (b : Bool)
  deriving DecidableEq

/-- Functions of two integers. -/
def binary (A : Assignment) (f : String) (a b : Int) : Option Datum :=
  match f with
  | "+" => some (.int (a + b))
  | "-" => some (.int (a - b))
  | "*" => some (.int (a * b))
  | "div" => some (.int (A.quotient a b))
  | "mod" => some (.int (A.remainder a b))
  | "=" => some (.bool (a = b))
  | "distinct" => some (.bool (a ≠ b))
  | "<" => some (.bool (a < b))
  | "<=" => some (.bool (a ≤ b))
  | ">" => some (.bool (a > b))
  | ">=" => some (.bool (a ≥ b))
  | _ => none

def application (A : Assignment) (f : String) (args : List Datum) : Option Datum :=
  match args with
  | [.int a] => if f = "-" then some (.int (-a)) else none
  | [.int a, .int b] => binary A f a b
  | [.bool c, .int a, .int b] => if f = "ite" then some (.int (if c then a else b)) else none
  | _ => none

mutual

/-- A list is the application of its first symbol to the others. -/
def Tree.meaning (A : Assignment) : Tree → Option Datum
  | numeral n => some (.int n)
  | symbol name => some (.int (A.int name))
  | list (symbol f :: args) => do application A f (← Tree.meanings A args)
  | list _ => none

def Tree.meanings (A : Assignment) : List Tree → Option (List Datum)
  | [] => some []
  | t :: rest => do return (← t.meaning A) :: (← Tree.meanings A rest)

end

/-- What a text says of the constants it names. -/
def textMeaning (A : Assignment) (text : String) : Option Datum :=
  (readTree text).bind (Tree.meaning A)

/-! ## 3. Reading pieces of text -/

/-- The characters are read as the trees, wherever blanks or brackets stand around them. -/
def Spells (chars : List Char) (trees : List Tree) : Prop :=
  ∀ items outer, ∃ r, chars.foldlM Reader.step ⟨.blank, items, outer⟩ = some r ∧
    r.settle = ⟨.blank, items ++ trees, outer⟩

/-- Characters of a word. -/
def isWordChar (c : Char) : Bool := c != ' ' && c != '(' && c != ')' && c != '|'

namespace Reader

theorem step_blank {r : Reader} (h : r.settle.mode = .blank) : r.step ' ' = some r.settle := by
  rcases r with ⟨_ | _ | _, items, outer⟩
  · rfl
  · rfl
  · cases h

theorem step_close {r : Reader} (h : r.settle.mode = .blank) : r.step ')' = r.settle.closeList := by
  rcases r with ⟨_ | _ | _, items, outer⟩
  · rfl
  · rfl
  · cases h

theorem step_word {items outer} (chars : List Char) {c : Char} (h : isWordChar c = true) :
    step ⟨.word chars, items, outer⟩ c = some ⟨.word (chars ++ [c]), items, outer⟩ := by
  simp only [isWordChar, Bool.and_eq_true, bne_iff_ne] at h
  simp [step, extendWord, h.1.1.1, h.1.1.2, h.1.2, h.2]

theorem foldlM_word {items outer} (chars rest : List Char) (h : rest.all isWordChar = true) :
    rest.foldlM step ⟨.word chars, items, outer⟩ =
      some ⟨.word (chars ++ rest), items, outer⟩ := by
  induction rest generalizing chars with
  | nil => simp
  | cons c rest ih =>
    simp only [List.all_cons, Bool.and_eq_true] at h
    rw [List.foldlM_cons, step_word chars h.1]
    simpa using ih (chars ++ [c]) h.2

theorem foldlM_quoted {items outer} (chars rest : List Char) (h : '|' ∉ rest) :
    rest.foldlM step ⟨.quoted chars, items, outer⟩ =
      some ⟨.quoted (chars ++ rest), items, outer⟩ := by
  induction rest generalizing chars with
  | nil => simp
  | cons c rest ih =>
    have hc : c ≠ '|' := fun hc => h (hc ▸ List.mem_cons_self)
    have hstep : step ⟨.quoted chars, items, outer⟩ c =
        some ⟨.quoted (chars ++ [c]), items, outer⟩ := by
      simp [step, hc]
    rw [List.foldlM_cons, hstep]
    simpa using ih (chars ++ [c]) fun hr => h (List.mem_cons_of_mem _ hr)

end Reader

theorem spells_word {chars : List Char} (hne : chars ≠ [])
    (h : chars.all isWordChar = true) : Spells chars [.ofWord chars] := by
  intro items outer
  obtain ⟨c, rest, rfl⟩ := List.exists_cons_of_ne_nil hne
  simp only [List.all_cons, Bool.and_eq_true] at h
  -- the first character opens the word
  have hstep : Reader.step ⟨.blank, items, outer⟩ c = some ⟨.word [c], items, outer⟩ := by
    have hc := h.1
    simp only [isWordChar, Bool.and_eq_true, bne_iff_ne] at hc
    simp [Reader.step, Reader.extendWord, hc.1.1.1, hc.1.1.2, hc.1.2, hc.2]
  refine ⟨⟨.word (c :: rest), items, outer⟩, ?_, rfl⟩
  rw [List.foldlM_cons, hstep]
  exact Reader.foldlM_word [c] rest h.2

theorem spells_quoted {chars : List Char} (h : '|' ∉ chars) :
    Spells ('|' :: (chars ++ ['|'])) [.symbol (.ofList chars)] := by
  intro items outer
  refine ⟨⟨.blank, items ++ [.symbol (.ofList chars)], outer⟩, ?_, rfl⟩
  have hopen : Reader.step ⟨.blank, items, outer⟩ '|' = some ⟨.quoted [], items, outer⟩ := rfl
  rw [List.foldlM_cons, hopen]
  show ((chars ++ ['|']).foldlM Reader.step ⟨.quoted [], items, outer⟩) = _
  rw [List.foldlM_append, Reader.foldlM_quoted [] chars h]
  rfl

/-- Texts with a blank between them are read one after the other. -/
theorem Spells.append {chars rest : List Char} {ts us : List Tree} (h : Spells chars ts)
    (hrest : Spells rest us) : Spells (chars ++ ' ' :: rest) (ts ++ us) := by
  intro items outer
  obtain ⟨r, hr, hsettle⟩ := h items outer
  obtain ⟨s, hs, hsettle'⟩ := hrest (items ++ ts) outer
  refine ⟨s, ?_, by rw [hsettle', List.append_assoc]⟩
  have hblank : r.step ' ' = some r.settle := Reader.step_blank (by rw [hsettle])
  rw [List.foldlM_append, hr]
  show (r.step ' ').bind _ = _
  rw [hblank, hsettle]
  exact hs

/-- Brackets make one tree. -/
theorem Spells.brackets {chars : List Char} {ts : List Tree} (h : Spells chars ts) :
    Spells ('(' :: (chars ++ [')'])) [.list ts] := by
  intro items outer
  obtain ⟨r, hr, hsettle⟩ := h [] (items :: outer)
  have hclose : r.step ')' = some ⟨.blank, items ++ [.list ts], outer⟩ := by
    rw [Reader.step_close (by rw [hsettle]), hsettle]
    rfl
  refine ⟨⟨.blank, items ++ [.list ts], outer⟩, ?_, rfl⟩
  have hopen : Reader.step ⟨.blank, items, outer⟩ '(' = some ⟨.blank, [], items :: outer⟩ := rfl
  rw [List.foldlM_cons, hopen]
  show ((chars ++ [')']).foldlM Reader.step ⟨.blank, [], items :: outer⟩) = _
  rw [List.foldlM_append, hr]
  show (r.step ')').bind _ = _
  rw [hclose]
  rfl

theorem readTree_of_spells {text : String} {t : Tree} (h : Spells text.toList [t]) :
    readTree text = some t := by
  obtain ⟨r, hr, hsettle⟩ := h [] []
  have hfinish : r.finish = some t := by
    unfold Reader.finish
    rw [hsettle]
    rfl
  show (text.toList.foldlM Reader.step {}).bind Reader.finish = some t
  rw [hr]
  exact hfinish

/-! ## 4. Text of expressions -/

/-- A word that is no number. -/
def isSimpleName (f : String) : Bool := f.toList.all isWordChar && !f.toList.all Char.isDigit

/-- A symbol in bars. -/
def IsQuoted (name : String) : Prop :=
  ∃ chars, '|' ∉ chars ∧ name.toList = '|' :: (chars ++ ['|'])

theorem plainName_of_isQuoted {name : String} {chars : List Char}
    (h : name.toList = '|' :: (chars ++ ['|'])) : plainName name = .ofList chars := by
  unfold plainName
  rw [h]
  simp

/-- The tree that the text of an expression is read as. -/
def Expr.tree : Expr → Tree
  | num n =>
    if n < 0 then .list [.symbol "-", .numeral n.natAbs] else .numeral n.natAbs
  | sym name => .symbol (plainName name)
  | neg e => .list [.symbol "-", e.tree]
  | add l r => .list [.symbol "+", l.tree, r.tree]
  | sub l r => .list [.symbol "-", l.tree, r.tree]
  | mul l r => .list [.symbol "*", l.tree, r.tree]
  | div l r => .list [.symbol "div", l.tree, r.tree]
  | mod l r => .list [.symbol "mod", l.tree, r.tree]
  | ifNonneg test yes no =>
    .list [.symbol "ite", .list [.symbol ">=", test.tree, .numeral 0], yes.tree, no.tree]

theorem spells_name {f : String} (h : isSimpleName f = true) : Spells f.toList [.symbol f] := by
  simp only [isSimpleName, Bool.and_eq_true, Bool.not_eq_true'] at h
  have hne : f.toList ≠ [] := by
    intro hnil
    rw [hnil] at h
    cases h.2
  have htree : Tree.ofWord f.toList = .symbol f := by
    simp [Tree.ofWord, h.2]
  rw [← htree]
  exact spells_word hne h.1

theorem isWordChar_of_isDigit {c : Char} (h : c.isDigit = true) : isWordChar c = true := by
  have hne : c ≠ ' ' ∧ c ≠ '(' ∧ c ≠ ')' ∧ c ≠ '|' := by
    refine ⟨?_, ?_, ?_, ?_⟩ <;>
    · rintro rfl
      cases h
  simp [isWordChar, hne]

theorem spells_numeral (n : Nat) : Spells (toString n).toList [.numeral n] := by
  have hchars : (toString n).toList = Nat.toDigits 10 n := by
    rw [Nat.toString_eq_ofList_toDigits, String.toList_ofList]
  have hdigits : ∀ c ∈ Nat.toDigits 10 n, c.isDigit = true := fun c hc =>
    Nat.isDigit_of_mem_toDigits (by decide) (by decide) hc
  have htree : Tree.ofWord (Nat.toDigits 10 n) = .numeral n := by
    unfold Tree.ofWord
    rw [if_pos (List.all_eq_true.2 hdigits), Nat.ofDigitChars_ten_toDigits]
  rw [hchars, ← htree]
  exact spells_word Nat.toDigits_ne_nil
    (List.all_eq_true.2 fun c hc => isWordChar_of_isDigit (hdigits c hc))

theorem spells_symbol {name : String} (h : IsQuoted name) :
    Spells name.toList [.symbol (plainName name)] := by
  obtain ⟨chars, hbar, hname⟩ := h
  rw [hname, plainName_of_isQuoted hname]
  exact spells_quoted hbar

theorem spells_unary {f e : String} {t : Tree} (hf : isSimpleName f = true)
    (he : Spells e.toList [t]) :
    Spells ("(" ++ f ++ " " ++ e ++ ")").toList [.list [.symbol f, t]] := by
  have h := ((spells_name hf).append he).brackets
  simpa using h

theorem spells_applicationText {f l r : String} {t u : Tree} (hf : isSimpleName f = true)
    (hl : Spells l.toList [t]) (hr : Spells r.toList [u]) :
    Spells (applicationText f l r).toList [.list [.symbol f, t, u]] := by
  have h := ((spells_name hf).append (hl.append hr)).brackets
  simpa [applicationText] using h

theorem spells_ite {test yes no : String} {t u v : Tree} (ht : Spells test.toList [t])
    (hu : Spells yes.toList [u]) (hv : Spells no.toList [v]) :
    Spells ("(ite (>= " ++ test ++ " 0) " ++ yes ++ " " ++ no ++ ")").toList
      [.list [.symbol "ite", .list [.symbol ">=", t, .numeral 0], u, v]] := by
  have htest : Spells (applicationText ">=" test "0").toList
      [.list [.symbol ">=", t, .numeral 0]] :=
    spells_applicationText (by decide) ht (spells_numeral 0)
  have h := ((spells_name (f := "ite") (by decide)).append (htest.append (hu.append hv))).brackets
  simpa [applicationText] using h

theorem spells_intText (n : Int) : Spells (intText n).toList [(Expr.num n).tree] := by
  unfold intText Expr.tree
  by_cases hn : n < 0
  · rw [if_pos hn, if_pos hn]
    exact spells_unary (f := "-") (by decide) (spells_numeral n.natAbs)
  · rw [if_neg hn, if_neg hn]
    exact spells_numeral n.natAbs

namespace Expr

theorem spells_text {e : Expr} (h : ∀ name ∈ e.names, IsQuoted name) :
    Spells e.text.toList [e.tree] := by
  induction e with
  | num n => exact spells_intText n
  | sym name => exact spells_symbol (h name List.mem_cons_self)
  | neg e ih => exact spells_unary (f := "-") (by decide) (ih h)
  | add l r ihl ihr | sub l r ihl ihr | mul l r ihl ihr | div l r ihl ihr | mod l r ihl ihr =>
    have hl := ihl fun name hn => h name (List.mem_append_left _ hn)
    have hr := ihr fun name hn => h name (List.mem_append_right _ hn)
    exact spells_applicationText (by decide) hl hr
  | ifNonneg test yes no iht ihy ihn =>
    have ht := iht fun name hn => h name (List.mem_append_left _ hn)
    have hy := ihy fun name hn => h name (List.mem_append_right _ (List.mem_append_left _ hn))
    have hn := ihn fun name hn => h name (List.mem_append_right _ (List.mem_append_right _ hn))
    exact spells_ite ht hy hn

/-- The tree of an expression means the value of the expression. -/
theorem meaning_tree (A : Assignment) (e : Expr) : e.tree.meaning A = some (.int (e.value A)) := by
  induction e with
  | num n =>
    unfold tree
    by_cases hn : n < 0
    · have habs : -(n.natAbs : Int) = n := by omega
      rw [if_pos hn]
      show some (Datum.int (-(n.natAbs : Int))) = some (.int n)
      rw [habs]
    · have habs : (n.natAbs : Int) = n := by omega
      rw [if_neg hn]
      show some (Datum.int n.natAbs) = some (.int n)
      rw [habs]
  | sym name => rfl
  | neg e ih => simp [tree, Tree.meaning, Tree.meanings, ih, application, value]
  | add l r ihl ihr | sub l r ihl ihr | mul l r ihl ihr | div l r ihl ihr | mod l r ihl ihr =>
    simp [tree, Tree.meaning, Tree.meanings, ihl, ihr, application, binary, value]
  | ifNonneg test yes no iht ihy ihn =>
    simp [tree, Tree.meaning, Tree.meanings, iht, ihy, ihn, application, binary, value]

end Expr

/-- The text of an expression over quoted symbols means the value of the expression. -/
theorem textMeaning_expr {A : Assignment} {e : Expr} (h : ∀ name ∈ e.names, IsQuoted name) :
    textMeaning A e.text = some (.int (e.value A)) := by
  unfold textMeaning
  rw [readTree_of_spells (e.spells_text h)]
  exact e.meaning_tree A

theorem textMeaning_comparison {A : Assignment} {c : Comparison}
    (h : ∀ name ∈ c.names, IsQuoted name) :
    textMeaning A c.text = some (.bool (c.op.apply (c.lhs.value A) (c.rhs.value A))) := by
  have hop : isSimpleName (operatorText c.op) = true := by cases c.op <;> decide
  have hspells := spells_applicationText hop
    (Expr.spells_text fun name hn => h name (List.mem_append_left _ hn))
    (Expr.spells_text fun name hn => h name (List.mem_append_right _ hn))
  unfold textMeaning
  rw [Comparison.text, readTree_of_spells hspells]
  show (Tree.meanings A [c.lhs.tree, c.rhs.tree]).bind (application A (operatorText c.op)) = _
  simp only [Tree.meanings, Expr.meaning_tree, Option.bind_eq_bind, Option.bind_some,
    Option.pure_def, application]
  cases c.op <;> simp [operatorText, binary, CmpOp.apply]

end Refuter.Smt

namespace Refuter

/-! ## 5. Symbols of access paths -/

theorem AccessPath.isQuoted_symbol (v : AccessPath) : Smt.IsQuoted v.symbol := by
  refine ⟨((baseName v.base ++ String.join (v.fields.map ("." ++ ·.text))).map symbolChar).toList,
    ?_, by simp [symbol]⟩
  intro hbar
  rw [String.toList_map] at hbar
  obtain ⟨c, -, hc⟩ := List.mem_map.1 hbar
  unfold symbolChar at hc
  split at hc
  · cases hc
  · rename_i hne
    simp [hc] at hne

theorem ArithOp.mem_names_encode {op : ArithOp} {l r : Smt.Expr} {name : String}
    (h : name ∈ (op.encode l r).names) : name ∈ l.names ∨ name ∈ r.names := by
  cases op <;> simp [encode, wrapped, truncated, Smt.Expr.names] at h <;> grind

/-- A term is encoded over the symbols of its paths. -/
theorem Term.mem_names_encode {t : Term} {name : String} (h : name ∈ t.encode.names) :
    ∃ v ∈ t.paths, name = v.symbol := by
  induction t with
  | const k => cases h
  | var v => exact ⟨v, List.mem_cons_self, List.mem_singleton.1 h⟩
  | bin l op r ihl ihr =>
    obtain hl | hr := ArithOp.mem_names_encode h
    · obtain ⟨v, hv, hname⟩ := ihl hl
      exact ⟨v, List.mem_append_left _ hv, hname⟩
    · obtain ⟨v, hv, hname⟩ := ihr hr
      exact ⟨v, List.mem_append_right _ hv, hname⟩

theorem Constraint.mem_names_encode {c : Constraint} {name : String} (h : name ∈ c.encode.names) :
    ∃ v ∈ c.paths, name = v.symbol := by
  obtain hl | hr := List.mem_append.1 h
  · obtain ⟨v, hv, hname⟩ := Term.mem_names_encode hl
    exact ⟨v, List.mem_append_left _ hv, hname⟩
  · obtain ⟨v, hv, hname⟩ := Term.mem_names_encode hr
    exact ⟨v, List.mem_append_right _ hv, hname⟩

/-! ## 6. Folding and text -/

/-- The symbols of the paths have the numbers that the paths have. -/
def Smt.Assignment.Follows (A : Smt.Assignment) (a : AccessPath → Int64) (paths : List AccessPath) :
    Prop :=
  ∀ v ∈ paths, A.int (plainName v.symbol) = (a v).toInt

/-- Folding and the text for a solver agree: where a term folds, its text means the folded number,
and where both sides of a constraint fold, its text means the comparison of the two numbers. -/
theorem textMeaning_encode_eq_folded (a : AccessPath → Int64) (A : Smt.Assignment) :
    (∀ (t : Term) (v : Int64), A.Follows a t.paths → (t.instantiate a).evaluate = some v →
      Smt.textMeaning A t.encode.text = some (.int v.toInt)) ∧
    ∀ (c : Constraint) (l r : Int64), A.Follows a c.paths →
      (c.lhs.instantiate a).evaluate = some l → (c.rhs.instantiate a).evaluate = some r →
      Smt.textMeaning A c.encode.text = some (.bool (c.op.apply l.toInt r.toInt)) := by
  constructor
  · intro t v hA hv
    have hquoted : ∀ name ∈ t.encode.names, Smt.IsQuoted name := by
      intro name hn
      obtain ⟨p, -, rfl⟩ := Term.mem_names_encode hn
      exact p.isQuoted_symbol
    rw [Smt.textMeaning_expr hquoted, Term.value_encode_of_evaluate hA hv]
  · intro c l r hA hl hr
    have hquoted : ∀ name ∈ c.encode.names, Smt.IsQuoted name := by
      intro name hn
      obtain ⟨p, -, rfl⟩ := Constraint.mem_names_encode hn
      exact p.isQuoted_symbol
    have hlhs : c.lhs.encode.value A = l.toInt :=
      Term.value_encode_of_evaluate (fun v hv => hA v (List.mem_append_left _ hv)) hl
    have hrhs : c.rhs.encode.value A = r.toInt :=
      Term.value_encode_of_evaluate (fun v hv => hA v (List.mem_append_right _ hv)) hr
    rw [Smt.textMeaning_comparison hquoted]
    show some (Smt.Datum.bool (c.op.apply (c.lhs.encode.value A) (c.rhs.encode.value A))) = _
    rw [hlhs, hrhs]

/-! The least 32 bit integer divided by minus one, and the remainder of what that wraps to. -/

namespace LeastWord

def path : AccessPath := ⟨.slot ⟨1⟩ 2, []⟩

def quotient : Term := .bin (.var path) .div (.const (-1))

def remainder : Term := .bin quotient .rem (.const 7)

def constraint : Constraint := ⟨remainder, .lt, quotient, ⟨0⟩⟩

def words : AccessPath → Int64 := fun _ => -2147483648

def assignment : Smt.Assignment := ⟨fun _ => -2147483648, fun _ => false, fun _ => 0, fun _ => 0⟩

theorem textMeaning_encode_least :
    (remainder.instantiate words).evaluate = some (-2) ∧
    (quotient.instantiate words).evaluate = some (-2147483648) ∧
    assignment.Follows words constraint.paths ∧
    Smt.textMeaning assignment remainder.encode.text = some (.int (-2)) ∧
    Smt.textMeaning assignment constraint.encode.text = some (.bool false) := by
  have hremainder : (remainder.instantiate words).evaluate = some (-2) := by decide
  have hquotient : (quotient.instantiate words).evaluate = some (-2147483648) := by decide
  have hpaths : assignment.Follows words constraint.paths := fun _ _ => rfl
  exact ⟨hremainder, hquotient, hpaths,
    (textMeaning_encode_eq_folded words assignment).1 remainder (-2) (fun _ _ => rfl) hremainder,
    (textMeaning_encode_eq_folded words assignment).2 constraint (-2) (-2147483648) hpaths
      hremainder hquotient⟩

end LeastWord

end Refuter
