import StraightLine.Limits
import StraightLine.Proofs.Calc.Parser
import StraightLine.Proofs.Compiler

/-!
# Depth — the two ways to measure an expression agree

A written function is measured while it is read: each operation counts one more than the deeper of
its operands, and the count is dropped with the reader. A function that is at hand is measured by a
loop over pending subtrees. Both numbers are the height of the tree.

* `Expr.Loop` — the loop turn by turn, with the number of turns; `Expr.loop_depth` — it ends;
* `Parser.Forgets` — a reader that drops a part of what another one answers;
* `Calc.parseMeasured` — the reader for functions that keeps the counted depths;
* `Calc.depths_agree` — the counts are the heights, and a function that was read is not too deep.
-/

namespace StraightLine

/-! ## The loop -/

/-- The loop over the pending subtrees ends after so many turns with a result: a variable is
compared with what is deepest so far, and an operation is replaced by its operands. -/
inductive Expr.Loop : (deepest : Nat) → List (Expr × Nat) → (turns result : Nat) → Prop where
  | done (deepest : Nat) : Loop deepest [] 0 deepest
  | var {deepest level turns result : Nat} {pending : List (Expr × Nat)} (name : String) :
      Loop (max deepest level) pending turns result →
        Loop deepest ((.var name, level) :: pending) (turns + 1) result
  | binary {deepest level turns result : Nat} {pending : List (Expr × Nat)} (op : Operator)
      (left right : Expr) :
      Loop deepest ((right, level + 1) :: (left, level + 1) :: pending) turns result →
        Loop deepest ((.binary op left right, level) :: pending) (turns + 1) result

/-- Every turn takes one node from the pending trees. -/
theorem Expr.loop_depthFrom (deepest : Nat) (pending : List (Expr × Nat)) :
    Loop deepest pending (pendingSize pending) (depthFrom deepest pending) := by
  fun_induction depthFrom deepest pending with
  | case1 deepest =>
      exact .done deepest
  | case2 deepest name level pending ih =>
      have hsize : pendingSize ((.var name, level) :: pending) = pendingSize pending + 1 := by
        simp [pendingSize, size, Nat.add_comm]
      rw [hsize]
      exact .var name ih
  | case3 deepest op left right level pending ih =>
      have hsize : pendingSize ((.binary op left right, level) :: pending) =
          pendingSize ((right, level + 1) :: (left, level + 1) :: pending) + 1 := by
        simp only [pendingSize, size]
        omega
      rw [hsize]
      exact .binary op left right ih

theorem Expr.loop_depth (e : Expr) : Loop 0 [(e, 0)] e.size e.depth :=
  loop_depthFrom 0 [(e, 0)]

/-! ## Readers that forget -/

namespace Parser

section Forgets

variable {V W : Type} {φ : V → W} {stop : Nat}

/-- The second reader answers with `φ` of what the first one answers, and fails where it fails. -/
def Forgets (φ : V → W) (reader : Reader V) (reader' : Reader W) : Prop :=
  ∀ input, reader' input = (fun c => ⟨φ c.value, c.rest, c.shorter⟩) <$> reader input

theorem Forgets.statement {value : Reader V} {value' : Reader W} (h : Forgets φ value value') :
    Forgets (Assignment.map φ) (statement stop value) (statement stop value') := by
  intro input
  simp only [Parser.statement, map_bind]
  refine bind_congr fun target => bind_congr fun sign => ?_
  rw [h sign.rest, bind_map_left]
  exact bind_congr fun read => bind_congr fun semicolon => rfl

theorem Forgets.ending {result : Reader V} {result' : Reader W} (h : Forgets φ result result') :
    Forgets φ (ending stop result) (ending stop result') := by
  intro input
  simp only [Parser.ending, map_bind]
  refine bind_congr fun word => ?_
  rw [h word.rest, bind_map_left]
  exact bind_congr fun read => bind_congr fun semicolon => bind_congr fun brace => rfl

theorem Forgets.statements {value : Reader V} {value' : Reader W} (h : Forgets φ value value')
    (stop : Nat) (found : List (Assignment V)) (input : List Lexeme) :
    statements stop value' (found.map (Assignment.map φ)) input =
      (fun p => (p.1.map (Assignment.map φ), p.2)) <$> statements stop value found input := by
  fun_induction Parser.statements stop value found input with
  | case1 found input hreturn =>
      rw [Parser.statements, if_pos hreturn, ← List.map_reverse]
      rfl
  | case2 found input hreturn e hread =>
      rw [Parser.statements, if_neg hreturn, h.statement input, hread]
      rfl
  | case3 found input hreturn s hread ih =>
      rw [Parser.statements, if_neg hreturn, h.statement input, hread]
      exact ih

theorem Forgets.program {value : String → Reader V} {value' : String → Reader W}
    (h : ∀ name, Forgets φ (value name) (value' name)) (input : List Lexeme) :
    program stop value' value' input = Program.map φ φ <$> program stop value value input := by
  simp only [Parser.program, map_bind]
  refine bind_congr fun header => ?_
  have hbody := (h header.value.1).statements stop [] header.rest
  rw [List.map_nil] at hbody
  rw [hbody, bind_map_left]
  refine bind_congr fun body => ?_
  rw [(h header.value.1).ending body.2, bind_map_left]
  refine bind_congr fun result => ?_
  dsimp only
  cases result.rest <;> rfl

end Forgets

end Parser

namespace Calc

open StraightLine.Parser StraightLine.Calc.Parser Grammar

/-! ## Counted depths -/

/-- An expression with the depth that the loop finds. -/
def Parser.Measured.ofExpr (e : Expr) : Measured :=
  ⟨e, e.depth⟩

/-- The reader for functions that keeps the counted depths. -/
def parseMeasured (maxDepth : Nat) (source : String) :
    Except CompileError (Program Measured Measured) :=
  StraightLine.Parser.parse (fun stop input =>
    program stop (fun name => measured ⟨name, maxDepth, stop⟩)
      (fun name => measured ⟨name, maxDepth, stop⟩) input) source

theorem forgets_expression (b : Bounds) : Forgets Measured.expr (measured b) (expression b) :=
  fun _ => rfl

/-- The reader for functions counts the depths and drops them. -/
theorem parse_eq_map (limit : Nat) (source : String) :
    parse limit source = Program.map Measured.expr Measured.expr <$> parseMeasured limit source := by
  unfold parse parseMeasured StraightLine.Parser.parse
  cases Token.scan source with
  | error stray =>
      rfl
  | ok lexemes =>
      exact Forgets.program (fun name => forgets_expression ⟨name, limit, _⟩) lexemes

theorem depth_of_statements {limit : Nat} {ts : List Token} {body : List (Assignment Measured)}
    (h : Statements (Counted limit) ts body) : ∀ s ∈ body, s.value.depth = s.value.expr.depth := by
  induction h with
  | nil =>
      simp
  | cons hvalue _ ih =>
      exact List.forall_mem_cons.2 ⟨hvalue.2, ih⟩

theorem depths_of_parseMeasured {limit : Nat} {source : String} {m : Program Measured Measured}
    (h : parseMeasured limit source = .ok m) :
    (∀ s ∈ m.body, s.value.depth = s.value.expr.depth) ∧ m.result.depth = m.result.expr.depth := by
  have hexact : ∀ name, Exact (measured ⟨name, limit, source.utf8ByteSize⟩) (Counted limit) :=
    fun name => exact_measured ⟨name, limit, source.utf8ByteSize⟩
  unfold parseMeasured StraightLine.Parser.parse at h
  cases hscan : Token.scan source with
  | error stray =>
      simp [hscan] at h
  | ok lexemes =>
      rw [hscan] at h
      have hprogram := (program_eq_ok hexact hexact).1 h
      generalize tokens lexemes = ts at hprogram
      cases hprogram with
      | intro hbody hresult =>
          exact ⟨depth_of_statements hbody, hresult.2⟩

/-- Every count is the depth that the loop finds, so it can be found again. -/
theorem map_ofExpr_of_parseMeasured {limit : Nat} {source : String} {m : Program Measured Measured}
    (h : parseMeasured limit source = .ok m) :
    (m.map Measured.expr Measured.expr).map Measured.ofExpr Measured.ofExpr = m := by
  rcases depths_of_parseMeasured h with ⟨hcounts, hcount⟩
  rcases m with ⟨name, params, body, result⟩
  have hvalue : ∀ c : Measured, c.depth = c.expr.depth → Measured.ofExpr c.expr = c := by
    intro c hc
    rw [Measured.ofExpr, ← hc]
  have hbody : body.map (Assignment.map Measured.ofExpr ∘ Assignment.map Measured.expr) =
      body.map id := by
    refine List.map_congr_left fun s hs => ?_
    simp only [Function.comp_apply, Assignment.map, hvalue s.value (hcounts s hs), id]
  simp only [Program.map, List.map_map, hbody, List.map_id, hvalue result hcount]

/-- The loop that measures an expression ends, and what it finds is the height of the tree. A
function that is read within a limit has these numbers as its counted depths, so that the limit
accepts it. -/
theorem depths_agree :
    (∀ e : Expr, Expr.Loop 0 [(e, 0)] e.size e.depth ∧ e.depth = e.height) ∧
    (∀ limit source, parse limit source =
      Program.map Measured.expr Measured.expr <$> parseMeasured limit source) ∧
    ∀ limit source f, parse limit source = .ok f →
      parseMeasured limit source = .ok (f.map Measured.ofExpr Measured.ofExpr) ∧
      ∀ maxStatements, (Limits.mk maxStatements limit).checkDepth f = .ok () := by
  refine ⟨fun e => ⟨e.loop_depth, e.depth_eq_height⟩, parse_eq_map, ?_⟩
  intro limit source f h
  refine ⟨?_, ?_⟩
  · rw [parse_eq_map] at h
    cases hm : parseMeasured limit source with
    | error e =>
        rw [hm] at h
        cases h
    | ok m =>
        rw [hm] at h
        cases h
        rw [map_ofExpr_of_parseMeasured hm]
  · intro maxStatements
    rcases parse_eq_ok.1 h with ⟨_, _, _, hdepths, _⟩
    exact Limits.checkDepth_eq_ok.2 hdepths

/-- A parenthesis that is read counts for the limit and not for the depth of what it holds. -/
theorem depths_agree_parenthesised :
    let source := "f(a)\x7bx=(a+a)*a;return((x));\x7d"
    let product : Expr := .binary .mul (.binary .add (.var "a") (.var "a")) (.var "a")
    let f : Function :=
      { name := "f", params := ["a"], body := [⟨"x", product⟩], result := .var "x" }
    parse 2 source = .ok f ∧
      parseMeasured 2 source = .ok
        { name := "f", params := ["a"], body := [⟨"x", ⟨product, 2⟩⟩], result := ⟨.var "x", 0⟩ } ∧
      ∀ maxStatements, (Limits.mk maxStatements 2).checkDepth f = .ok () := by
  intro source product f
  have hparse : parse 2 source = .ok f := by decide +kernel
  rcases depths_agree.2.2 2 source f hparse with ⟨hmeasured, hcheck⟩
  refine ⟨hparse, ?_, hcheck⟩
  rw [hmeasured]
  cbv

end Calc

end StraightLine
