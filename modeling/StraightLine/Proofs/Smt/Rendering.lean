import Mathlib.Data.List.Basic
import StraightLine.Proofs.SExpr
import StraightLine.Smt.Script

/-!
# Rendering — what a solver reads in a script

The text of a script is a list on each line: the option, the logic, the declarations and the
assertions. A name stands between bars, so it is read as one atom whatever its characters are,
unless it has a bar of its own, which ends the atom early.

* `Smt.symbol`, `Smt.BarFree` — names between bars, and those that are read as one atom;
* `Term.sexpr`, `Formula.sexpr`, `Script.commands` — the lists;
* `Script.toList_smtlib` — the text of a script is that of its commands;
* `Script.readAll_smtlib` — its commands are read back from the text.
-/

namespace StraightLine

namespace SExpr

theorem itemsBefore_eq_intercalate (items : List SExpr) :
    itemsBefore [] items = [' '].intercalate (items.map text) := by
  induction items with
  | nil =>
      rfl
  | cons item rest ih =>
      cases rest with
      | nil =>
          simp [itemsBefore, text]
      | cons next rest =>
          rw [itemsBefore_cons_cons, textBefore_eq_append, ih]
          simp

/-- Items with a blank between each two, in parentheses. -/
@[simp]
theorem text_list (items : List SExpr) :
    (list items).text = '(' :: ([' '].intercalate (items.map text) ++ [')']) := by
  rw [text, textBefore, itemsBefore_eq_append, itemsBefore_eq_intercalate]

theorem text_atom (word : List Char) : (atom word).text = word := by
  simp [text, textBefore]

end SExpr

namespace Smt

/-! ## Symbols -/

/-- A name between bars. -/
def symbol (name : String) : SExpr :=
  .atom (barred name).toList

/-- A reserved word, an option or a number. -/
def word (text : String) : SExpr :=
  .atom text.toList

/-- The name does not end the quotation that it stands in. -/
def BarFree (name : String) : Prop :=
  '|' ∉ name.toList

instance (name : String) : Decidable (BarFree name) :=
  inferInstanceAs (Decidable ('|' ∉ name.toList))

theorem BarFree.append {a b : String} (ha : BarFree a) (hb : BarFree b) : BarFree (a ++ b) := by
  simp only [BarFree, String.toList_append, List.mem_append, not_or]
  exact ⟨ha, hb⟩

@[simp]
theorem text_symbol (name : String) : (symbol name).text = (barred name).toList :=
  SExpr.text_atom _

@[simp]
theorem text_word (text : String) : (word text).text = text.toList :=
  SExpr.text_atom _

theorem toList_barred (name : String) : (barred name).toList = '|' :: (name.toList ++ ['|']) := by
  simp [barred]

theorem legible_symbol {name : String} (h : BarFree name) : (symbol name).Legible :=
  Or.inr ⟨'|', name.toList, Or.inl rfl, h, toList_barred name⟩

theorem symbol_injective {a b : String} (h : symbol a = symbol b) : a = b := by
  injection h with h
  rw [toList_barred, toList_barred] at h
  injection h with _ h
  exact String.toList_inj.1 (List.append_cancel_right h)

theorem legible_word {text : String} (h : SExpr.Word text.toList) : (word text).Legible :=
  Or.inl h

/-! ## Terms and formulas -/

namespace Term

mutual

def sexpr : Term → SExpr
  | const c => symbol c.name
  | app f args => .list (symbol f.name :: sexprs args)

def sexprs : List Term → List SExpr
  | [] => []
  | t :: rest => t.sexpr :: sexprs rest

end

mutual

theorem toList_smtlib : ∀ t : Term, t.smtlib.toList = t.sexpr.text
  | const c => by
      rw [smtlib, sexpr, text_symbol]
  | app f args => by
      rw [smtlib, sexpr, SExpr.text_list, List.map_cons, text_symbol, ← map_toList_smtlibs]
      simp [String.toList_intercalate]

theorem map_toList_smtlibs : ∀ ts : List Term,
    (smtlibs ts).map String.toList = (sexprs ts).map SExpr.text
  | [] => rfl
  | t :: rest => by
      rw [smtlibs, sexprs, List.map_cons, List.map_cons, toList_smtlib, map_toList_smtlibs]

end

end Term

namespace Formula

mutual

def sexpr : Formula → SExpr
  | eq left right => .list [word "=", left.sexpr, right.sexpr]
  | not inner => .list [word "not", inner.sexpr]
  | and [] => word "true"
  | and [single] => single.sexpr
  | and conjuncts => .list (word "and" :: sexprs conjuncts)
  | implies antecedent consequent => .list [word "=>", antecedent.sexpr, consequent.sexpr]

def sexprs : List Formula → List SExpr
  | [] => []
  | f :: rest => f.sexpr :: sexprs rest

end

mutual

theorem toList_smtlib : ∀ f : Formula, f.smtlib.toList = f.sexpr.text
  | eq left right => by
      rw [smtlib, sexpr, SExpr.text_list]
      simp [Term.toList_smtlib]
  | not inner => by
      rw [smtlib, sexpr, SExpr.text_list]
      simp [toList_smtlib]
  | and [] => by
      rw [smtlib, sexpr, text_word]
  | and [single] => by
      rw [smtlib, sexpr, toList_smtlib]
  | and (f :: g :: rest) => by
      rw [smtlib, sexpr, SExpr.text_list, List.map_cons, text_word, ← map_toList_smtlibs]
      · simp [String.toList_intercalate]
      all_goals simp
  | implies antecedent consequent => by
      rw [smtlib, sexpr, SExpr.text_list]
      simp [toList_smtlib]

theorem map_toList_smtlibs : ∀ fs : List Formula,
    (smtlibs fs).map String.toList = (sexprs fs).map SExpr.text
  | [] => rfl
  | f :: rest => by
      rw [smtlibs, sexprs, List.map_cons, List.map_cons, toList_smtlib, map_toList_smtlibs]

end

end Formula

/-! ## Scripts -/

namespace Script

def sortCommand (sort : UninterpretedSort) : SExpr :=
  .list [word "declare-sort", symbol sort.name, word "0"]

def functionCommand (f : FunctionSymbol) : SExpr :=
  .list [word "declare-fun", symbol f.name, .list (f.domain.map fun sort => symbol sort.name),
    symbol f.range.name]

def constantCommand (c : Constant) : SExpr :=
  .list [word "declare-const", symbol c.name, symbol c.sort.name]

def assertCommand (f : Formula) : SExpr :=
  .list [word "assert", f.sexpr]

/-- What stands before the declarations. -/
def preamble : List SExpr :=
  [.list [word "set-option", word ":produce-models", word "true"],
    .list [word "set-logic", word "QF_UF"]]

def commands (s : Script) : List SExpr :=
  preamble ++ s.sorts.toList.map sortCommand ++ s.functions.toList.map functionCommand ++
    s.constants.toList.map constantCommand ++ s.assertions.toList.map assertCommand

/-- Texts of commands are lines. -/
theorem toList_join_lines {α : Type} {text : α → String} {command : α → SExpr}
    (h : ∀ a, (text a).toList = (command a).text ++ ['\n']) (as : List α) :
    (String.join (as.map text)).toList = SExpr.lines (as.map command) := by
  have hlines : (String.toList ∘ text) = (fun e => e.text ++ ['\n']) ∘ command := funext h
  rw [String.toList_join, SExpr.lines, List.flatMap_def, List.flatMap_def, List.map_map,
    List.map_map, hlines]

theorem toList_declareSortText (sort : UninterpretedSort) :
    (declareSortText sort).toList = (sortCommand sort).text ++ ['\n'] := by
  unfold declareSortText sortCommand
  simp

theorem toList_declareFunctionText (f : FunctionSymbol) :
    (declareFunctionText f).toList = (functionCommand f).text ++ ['\n'] := by
  unfold declareFunctionText functionCommand
  simp [String.toList_intercalate, Function.comp_def]

theorem toList_declareConstantText (c : Constant) :
    (declareConstantText c).toList = (constantCommand c).text ++ ['\n'] := by
  unfold declareConstantText constantCommand
  simp

theorem toList_assertText (f : Formula) :
    (assertText f).toList = (assertCommand f).text ++ ['\n'] := by
  unfold assertText assertCommand
  simp [Formula.toList_smtlib]

theorem toList_smtlib (s : Script) : s.smtlib.toList = SExpr.lines s.commands := by
  have hpreamble : "(set-option :produce-models true)\n(set-logic QF_UF)\n".toList =
      SExpr.lines preamble := by
    simp [preamble, SExpr.lines]
  have hlines : ∀ es fs : List SExpr, SExpr.lines (es ++ fs) = SExpr.lines es ++ SExpr.lines fs :=
    fun _ _ => List.flatMap_append
  unfold smtlib commands
  simp only [String.toList_append, hpreamble, toList_join_lines toList_declareSortText,
    toList_join_lines toList_declareFunctionText, toList_join_lines toList_declareConstantText,
    toList_join_lines toList_assertText, hlines]

theorem legible_functionCommand {f : FunctionSymbol} (hname : BarFree f.name)
    (hdomain : ∀ sort ∈ f.domain, BarFree sort.name) (hrange : BarFree f.range.name) :
    (functionCommand f).Legible := by
  have hsorts : SExpr.AllLegible (f.domain.map fun sort => symbol sort.name) := by
    rw [SExpr.allLegible_iff, List.forall_mem_map]
    exact fun sort hsort => legible_symbol (hdomain sort hsort)
  exact ⟨legible_word (by decide), legible_symbol hname, hsorts, legible_symbol hrange, trivial⟩

/-- Only the names that are declared and the assertions can make a script illegible. -/
theorem legible_commands {s : Script} (hsorts : ∀ sort ∈ s.sorts.toList, BarFree sort.name)
    (hfunctions : ∀ f ∈ s.functions.toList,
      BarFree f.name ∧ (∀ sort ∈ f.domain, BarFree sort.name) ∧ BarFree f.range.name)
    (hconstants : ∀ c ∈ s.constants.toList, BarFree c.name ∧ BarFree c.sort.name)
    (hassertions : ∀ f ∈ s.assertions.toList, f.sexpr.Legible) :
    ∀ e ∈ s.commands, e.Legible := by
  have hpreamble : ∀ e ∈ preamble, e.Legible := by
    unfold preamble
    simp only [List.forall_mem_cons, SExpr.Legible, SExpr.AllLegible]
    exact ⟨⟨legible_word (by decide), legible_word (by decide), legible_word (by decide), trivial⟩,
      ⟨legible_word (by decide), legible_word (by decide), trivial⟩, by simp⟩
  simp only [commands, List.forall_mem_append, List.forall_mem_map]
  refine ⟨⟨⟨⟨hpreamble, ?_⟩, ?_⟩, ?_⟩, ?_⟩
  · intro sort hsort
    exact ⟨legible_word (by decide), legible_symbol (hsorts sort hsort),
      legible_word (by decide), trivial⟩
  · intro f hf
    rcases hfunctions f hf with ⟨hname, hdomain, hrange⟩
    exact legible_functionCommand hname hdomain hrange
  · intro c hc
    rcases hconstants c hc with ⟨hname, hsort⟩
    exact ⟨legible_word (by decide), legible_symbol hname, legible_symbol hsort, trivial⟩
  · intro f hf
    exact ⟨legible_word (by decide), hassertions f hf, trivial⟩

/-- Legible commands are read back. -/
theorem readAll_smtlib {s : Script} (h : ∀ e ∈ s.commands, e.Legible) :
    SExpr.readAll s.smtlib.toList = s.commands := by
  rw [toList_smtlib, SExpr.readAll_lines h]

end Script

end Smt

end StraightLine
