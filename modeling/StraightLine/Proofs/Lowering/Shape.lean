import Mathlib.Algebra.GroupWithZero.Nat
import Mathlib.Data.List.Nodup
import StraightLine.Proofs.Compiler

/-!
# Shape — what lowered code looks like

The code of a function is one piece for each statement and a copy of the returned variable. A piece
assigns temporaries and, at its end, the target of its statement. Since an operation draws its name
after the operands are flattened, the temporaries are numbered in the order of the code, and since
the code of an operand is followed by its one use, each temporary is read once after it is assigned.

* `Lowering.namesFrom`, `Lowering.reads` — the assigned and the read names of some code;
* `Lowering.targets_body`, `Lowering.filter_targets_body` — temporaries and targets in order;
* `Lowering.count_reads_body` — how often a temporary is read;
* `Lowering.ReadLater` — what is assigned is read later;
* `Lowering.CodeOf`, `Lowering.Shape` — the shape of a piece and of a function;
* `Compiler.shape_compile` — compiled functions have that shape.
-/

namespace StraightLine

namespace Lowering

open FreshNames

/-! ## Assigned names -/

/-- The names that code reads, in order and with repeats. -/
def reads (code : Code) : List String :=
  code.flatMap fun s => s.value.reads

/-- The names with `count` numbers from `first` on. -/
def namesFrom (stem : String) (first count : Nat) : List String :=
  (List.range' first count).map (nameAt stem)

/-- How many operations of a statement need a temporary: all but the outermost. -/
def inner (s : Assignment Expr) : Nat :=
  s.value.opCount - 1

theorem namesFrom_append (stem : String) (first a b : Nat) :
    namesFrom stem first a ++ namesFrom stem (first + a) b = namesFrom stem first (a + b) := by
  simp [namesFrom, ← List.map_append]

theorem namesFrom_succ (stem : String) (first count : Nat) :
    namesFrom stem first (count + 1) = namesFrom stem first count ++ [nameAt stem (first + count)] := by
  rw [← namesFrom_append]
  rfl

theorem reads_append (first rest : Code) : reads (first ++ rest) = reads first ++ reads rest :=
  List.flatMap_append

theorem targets_operationCode_of {fresh : FreshNames} {target : String} {op : Operator}
    {left right : Expr}
    (hl : (flatten fresh left).code.map Assignment.target =
      namesFrom fresh.stem fresh.issued left.opCount)
    (hr : (flatten (flatten fresh left).fresh right).code.map Assignment.target =
      namesFrom fresh.stem (fresh.issued + left.opCount) right.opCount) :
    (operationCode fresh target op left right).map Assignment.target =
      namesFrom fresh.stem fresh.issued (left.opCount + right.opCount) ++ [target] := by
  simp only [operationCode, List.map_append, hl, hr, namesFrom_append, List.map_cons, List.map_nil]

/-- The code of an expression assigns one temporary after the other. -/
theorem targets_flatten (fresh : FreshNames) (e : Expr) :
    (flatten fresh e).code.map Assignment.target = namesFrom fresh.stem fresh.issued e.opCount := by
  induction e generalizing fresh with
  | var x =>
      rfl
  | binary op left right ihl ihr =>
      have hr := ihr (flatten fresh left).fresh
      rw [flatten_fresh] at hr
      have hname : (flatten fresh (.binary op left right)).name =
          nameAt fresh.stem (fresh.issued + (left.opCount + right.opCount)) := by
        simp only [flatten, flatten_fresh, nextName, advance, Nat.add_assoc]
      rw [Expr.opCount, namesFrom_succ, ← hname]
      exact targets_operationCode_of (ihl fresh) (by rw [flatten_fresh]; exact hr)

theorem targets_operationCode (fresh : FreshNames) (target : String) (op : Operator)
    (left right : Expr) :
    (operationCode fresh target op left right).map Assignment.target =
      namesFrom fresh.stem fresh.issued (left.opCount + right.opCount) ++ [target] := by
  refine targets_operationCode_of (targets_flatten fresh left) ?_
  rw [targets_flatten, flatten_fresh]
  rfl

/-- The code of a statement assigns temporaries, and then the target. -/
theorem targets_statement (fresh : FreshNames) (s : Assignment Expr) :
    (statement fresh s.target s.value).1.map Assignment.target =
      namesFrom fresh.stem fresh.issued (inner s) ++ [s.target] := by
  unfold inner
  cases s.value with
  | var x =>
      rfl
  | binary op left right =>
      exact targets_operationCode fresh s.target op left right

theorem statement_advance (fresh : FreshNames) (s : Assignment Expr) :
    (statement fresh s.target s.value).2 = advance fresh (inner s) := by
  unfold inner
  cases s.value with
  | var x =>
      rfl
  | binary op left right =>
      simp only [statement, flatten_fresh, advance, Expr.opCount]
      congr 1
      omega

theorem body_advance (fresh : FreshNames) (stmts : List (Assignment Expr)) :
    (body fresh stmts).2 = advance fresh (stmts.map inner).sum := by
  induction stmts generalizing fresh with
  | nil =>
      rfl
  | cons s rest ih =>
      simp only [body, statement_advance, ih, advance, List.map_cons, List.sum_cons, Nat.add_assoc]

/-- A statement needs as many instructions as its value has operators, or one copy. -/
theorem length_statement (fresh : FreshNames) (s : Assignment Expr) :
    (statement fresh s.target s.value).1.length = max 1 s.value.opCount := by
  have hlength := congrArg List.length (targets_statement fresh s)
  simp only [List.length_map, List.length_append, namesFrom, List.length_range', List.length_cons,
    List.length_nil, inner] at hlength
  omega

theorem length_body (fresh : FreshNames) (stmts : List (Assignment Expr)) :
    (body fresh stmts).1.length = (stmts.map fun s => s.value.opCount).sum +
      stmts.countP fun s => s.value.varName?.isSome := by
  induction stmts generalizing fresh with
  | nil =>
      rfl
  | cons s rest ih =>
      have hcount : max 1 s.value.opCount =
          s.value.opCount + if s.value.varName?.isSome then 1 else 0 := by
        cases s.value with
        | var x =>
            rfl
        | binary op left right =>
            simp [Expr.varName?, Expr.opCount]
      simp only [body, List.length_append, length_statement, ih, List.map_cons, List.sum_cons,
        List.countP_cons, hcount]
      omega

/-- A test for temporaries picks them in the order of their numbers, and leaves the targets. -/
theorem filter_targets_body {p : String → Bool} {stem : String} (hp : ∀ k, p (nameAt stem k) = true)
    {stmts : List (Assignment Expr)} (hstmts : ∀ s ∈ stmts, p s.target = false)
    (fresh : FreshNames) (hstem : fresh.stem = stem) :
    ((body fresh stmts).1.map Assignment.target).filter p =
        namesFrom stem fresh.issued (stmts.map inner).sum ∧
      ((body fresh stmts).1.map Assignment.target).filter (fun x => !p x) =
        stmts.map Assignment.target := by
  have hnames : ∀ first count, ∀ x ∈ namesFrom stem first count, p x = true := by
    intro first count x hx
    rcases List.mem_map.1 hx with ⟨k, _, rfl⟩
    exact hp k
  induction stmts generalizing fresh with
  | nil =>
      exact ⟨rfl, rfl⟩
  | cons s rest ih =>
      rcases List.forall_mem_cons.1 hstmts with ⟨hs, hrest⟩
      rcases ih hrest (advance fresh (inner s)) hstem with ⟨htemporaries, htargets⟩
      have hpiece := hnames fresh.issued (inner s)
      have hnone : (namesFrom stem fresh.issued (inner s)).filter (fun x => !p x) = [] := by
        rw [List.filter_eq_nil_iff]
        intro x hx
        simp [hpiece x hx]
      simp only [body, List.map_append, targets_statement, List.filter_append, statement_advance,
        htemporaries, htargets, hstem, List.filter_eq_self.2 hpiece, hnone]
      constructor
      · rw [List.filter_cons_of_neg (by simp [hs]), List.filter_nil, List.append_nil]
        exact namesFrom_append stem fresh.issued (inner s) _
      · rw [List.filter_cons_of_pos (by simp [hs])]
        rfl

/-! ## Read names -/

section Reads

variable {stem x : String}

/-- An operand is used once, so a temporary of the code of an expression is read once in the code
or is its name. -/
theorem count_reads_flatten (hx : Numbered stem x) (fresh : FreshNames) {e : Expr}
    (he : ∀ y ∈ e.reads, ¬ Numbered stem y) :
    (reads (flatten fresh e).code ++ [(flatten fresh e).name]).count x =
      ((flatten fresh e).code.map Assignment.target).count x := by
  induction e generalizing fresh with
  | var y =>
      have hne : y ≠ x := fun h => he y List.mem_cons_self (h ▸ hx)
      simp [flatten, reads, hne]
  | binary op left right ihl ihr =>
      have hl := ihl fresh fun y hy => he y (List.mem_append_left _ hy)
      have hr := ihr (flatten fresh left).fresh fun y hy => he y (List.mem_append_right _ hy)
      simp only [flatten, reads, List.flatMap_append, List.flatMap_cons, List.flatMap_nil,
        List.map_append, List.map_cons, List.map_nil, List.count_append, List.append_nil,
        Tac.Value.reads, List.count_cons, List.count_nil] at hl hr ⊢
      omega

/-- Every temporary of a statement is read once in its code. -/
theorem count_reads_statement (hx : Numbered stem x) (fresh : FreshNames) {s : Assignment Expr}
    (hs : ¬ Numbered stem s.target) (hreads : ∀ y ∈ s.value.reads, ¬ Numbered stem y) :
    (reads (statement fresh s.target s.value).1).count x =
      ((statement fresh s.target s.value).1.map Assignment.target).count x := by
  have htarget : s.target ≠ x := fun h => hs (h ▸ hx)
  cases hvalue : s.value with
  | var y =>
      rw [hvalue] at hreads
      have hne : y ≠ x := fun h => hreads y List.mem_cons_self (h ▸ hx)
      simp [statement, reads, Tac.Value.reads, hne, htarget]
  | binary op left right =>
      rw [hvalue] at hreads
      have hl := count_reads_flatten hx fresh fun y hy => hreads y (List.mem_append_left _ hy)
      have hr := count_reads_flatten hx (flatten fresh left).fresh
        fun y hy => hreads y (List.mem_append_right _ hy)
      simp only [statement, reads, List.flatMap_append, List.flatMap_cons, List.flatMap_nil,
        List.map_append, List.map_cons, List.map_nil, List.count_append, List.append_nil,
        Tac.Value.reads, List.count_cons, List.count_nil, beq_eq_false_iff_ne.2 htarget,
        Bool.false_eq_true, if_false] at hl hr ⊢
      omega

theorem count_reads_body (hx : Numbered stem x) (fresh : FreshNames)
    {stmts : List (Assignment Expr)} (hstmts : ∀ s ∈ stmts, ¬ Numbered stem s.target ∧
      ∀ y ∈ s.value.reads, ¬ Numbered stem y) :
    (reads (body fresh stmts).1).count x =
      ((body fresh stmts).1.map Assignment.target).count x := by
  induction stmts generalizing fresh with
  | nil =>
      rfl
  | cons s rest ih =>
      rcases List.forall_mem_cons.1 hstmts with ⟨⟨hs, hreads⟩, hrest⟩
      simp only [body, reads_append, List.map_append, List.count_append, ih _ hrest,
        count_reads_statement hx fresh hs hreads]

end Reads

/-! ## Reads after assignments -/

/-- Whatever an instruction assigns is read by a later one, or is among `out`. -/
def ReadLater (out : List String) : Code → Prop
  | [] => True
  | s :: rest => s.target ∈ reads rest ++ out ∧ ReadLater out rest

theorem ReadLater.mono {out out' : List String} {code : Code} (h : ReadLater out code)
    (hsub : out ⊆ out') : ReadLater out' code := by
  induction code with
  | nil =>
      trivial
  | cons s rest ih =>
      exact ⟨List.mem_append.2 ((List.mem_append.1 h.1).imp_right (@hsub _)), ih h.2⟩

theorem readLater_append {out : List String} {first rest : Code} :
    ReadLater out (first ++ rest) ↔ ReadLater (reads rest ++ out) first ∧ ReadLater out rest := by
  induction first with
  | nil =>
      simp [ReadLater]
  | cons s first ih =>
      simp only [List.cons_append, ReadLater, reads_append, ih, List.append_assoc, and_assoc]

/-- Place by place. -/
theorem ReadLater.exists_later {out : List String} {code : Code} (h : ReadLater out code) {i : Nat}
    {s : Assignment Tac.Value} (hs : code[i]? = some s) :
    s.target ∈ out ∨ ∃ j u, i < j ∧ code[j]? = some u ∧ s.target ∈ u.value.reads := by
  induction code generalizing i with
  | nil =>
      cases hs
  | cons first rest ih =>
      cases i with
      | zero =>
          cases hs
          rcases List.mem_append.1 h.1 with hread | hout
          · rcases List.mem_flatMap.1 hread with ⟨u, hu, hmem⟩
            rcases List.mem_iff_getElem?.1 hu with ⟨j, hj⟩
            exact Or.inr ⟨j + 1, u, Nat.succ_pos j, hj, hmem⟩
          · exact Or.inl hout
      | succ i =>
          rcases ih h.2 hs with hout | ⟨j, u, hij, hj, hmem⟩
          · exact Or.inl hout
          · exact Or.inr ⟨j + 1, u, Nat.succ_lt_succ hij, hj, hmem⟩

theorem readLater_operationCode_of {fresh : FreshNames} {target : String} {op : Operator}
    {left right : Expr} (hl : ReadLater [(flatten fresh left).name] (flatten fresh left).code)
    (hr : ReadLater [(flatten (flatten fresh left).fresh right).name]
      (flatten (flatten fresh left).fresh right).code) :
    ReadLater [target] (operationCode fresh target op left right) := by
  -- the operation at the end reads both names
  refine readLater_append.2 ⟨readLater_append.2 ⟨hl.mono ?_, hr.mono ?_⟩, ?_⟩
  · simp [reads, Tac.Value.reads]
  · simp [reads, Tac.Value.reads]
  · exact ⟨List.mem_append_right _ List.mem_cons_self, trivial⟩

theorem readLater_flatten (fresh : FreshNames) (e : Expr) :
    ReadLater [(flatten fresh e).name] (flatten fresh e).code := by
  induction e generalizing fresh with
  | var x =>
      trivial
  | binary op left right ihl ihr =>
      exact readLater_operationCode_of (ihl fresh) (ihr _)

theorem readLater_statement (fresh : FreshNames) (s : Assignment Expr) :
    ReadLater [s.target] (statement fresh s.target s.value).1 := by
  cases s.value with
  | var x =>
      exact ⟨List.mem_append_right _ List.mem_cons_self, trivial⟩
  | binary op left right =>
      exact readLater_operationCode_of (readLater_flatten fresh left) (readLater_flatten _ right)

/-! ## Pieces -/

/-- The code of one statement: an instruction for each operator of its value, or one copy. All but
the last assign temporaries, and what they assign is read by a later instruction of the piece. -/
structure CodeOf (stem : String) (s : Assignment Expr) (code : Code) : Prop where
  length : code.length = max 1 s.value.opCount
  last : ∃ before value, code = before ++ [⟨s.target, value⟩] ∧
    ∀ u ∈ before, Temporary stem u.target
  readLater : ∀ (i : Nat) (u : Assignment Tac.Value), code[i]? = some u → i + 1 < code.length →
    ∃ j v, i < j ∧ code[j]? = some v ∧ u.target ∈ v.value.reads

theorem codeOf_statement (fresh : FreshNames) {s : Assignment Expr}
    (hs : ¬ Numbered fresh.stem s.target) :
    CodeOf fresh.stem s (statement fresh s.target s.value).1 := by
  have htargets := targets_statement fresh s
  have hlater := readLater_statement fresh s
  have hlength := length_statement fresh s
  generalize (statement fresh s.target s.value).1 = code at htargets hlater hlength
  rcases List.map_eq_append_iff.1 htargets with ⟨before, last, rfl, hbefore, hlast⟩
  rcases List.map_eq_singleton_iff.1 hlast with ⟨⟨target, value⟩, rfl, rfl⟩
  have htemporary : ∀ u ∈ before, Temporary fresh.stem u.target := by
    intro u hu
    have hmem : u.target ∈ namesFrom fresh.stem fresh.issued (inner s) :=
      hbefore ▸ List.mem_map_of_mem hu
    rcases List.mem_map.1 hmem with ⟨k, _, hk⟩
    exact ⟨k, hk.symm⟩
  refine ⟨hlength, ⟨before, value, rfl, htemporary⟩, ?_⟩
  intro i u hu hi
  rcases hlater.exists_later hu with hout | hlater
  · -- the target is no temporary, so it is assigned by the last instruction only
    have hmem : u ∈ before := by
      rw [List.length_append, List.length_singleton, Nat.add_lt_add_iff_right] at hi
      rw [List.getElem?_append_left hi] at hu
      exact List.mem_of_getElem? hu
    rcases htemporary u hmem with ⟨k, hk⟩
    have htarget := List.mem_singleton.1 hout
    exact absurd (numbered_nameAt.2 rfl) (htarget.symm.trans hk ▸ hs)
  · exact hlater

theorem exists_pieces (fresh : FreshNames) {stmts : List (Assignment Expr)}
    (hstmts : ∀ s ∈ stmts, ¬ Numbered fresh.stem s.target) :
    ∃ pieces : List Code, (body fresh stmts).1 = pieces.flatten ∧
      List.Forall₂ (CodeOf fresh.stem) stmts pieces := by
  induction stmts generalizing fresh with
  | nil =>
      exact ⟨[], rfl, .nil⟩
  | cons s rest ih =>
      rcases List.forall_mem_cons.1 hstmts with ⟨hs, hrest⟩
      have hstem := statement_fresh fresh s.target s.value
      rcases ih (statement fresh s.target s.value).2 (hstem ▸ hrest) with ⟨pieces, hcode, hpieces⟩
      rw [hstem] at hpieces
      refine ⟨_ :: pieces, ?_, .cons (codeOf_statement fresh hs) hpieces⟩
      rw [List.flatten_cons, ← hcode]
      rfl

/-! ## Functions -/

/-- The temporaries that are drawn for a function, the one for the result last. -/
def temporaries (f : Calc.Function) : List String :=
  (List.range ((f.body.map inner).sum + 1)).map (nameAt ("_tmp_" ++ f.name))

/-- What the code of a function looks like. -/
structure Shape (f : Calc.Function) (t : Tac.Function) : Prop where
  params : t.params = f.params
  length : t.body.length = (f.body.map fun s => s.value.opCount).sum +
    f.body.countP (fun s => s.value.varName?.isSome) + 1
  /-- What is assigned besides temporaries are the targets in order. -/
  targets : t.targets.filter (· ∉ temporaries f) = f.targets
  /-- The temporaries are assigned in the order of their numbers, each of them once. -/
  ordered : t.targets.filter (· ∈ temporaries f) = temporaries f
  distinct : (temporaries f).Nodup
  /-- One piece of code for each statement, and a copy of the returned variable. -/
  pieces : ∃ (pieces : List Code) (returned : String), f.result = .var returned ∧
    t.body = pieces.flatten ++ [⟨t.result, .copy returned⟩] ∧
    List.Forall₂ (CodeOf ("_tmp_" ++ f.name)) f.body pieces
  result : (temporaries f).getLast? = some t.result
  readOnce : ∀ x ∈ (temporaries f).dropLast, (reads t.body).count x = 1

theorem temporaries_eq (f : Calc.Function) : temporaries f =
    namesFrom (stem f.name) 0 (f.body.map inner).sum ++
      [nameAt (stem f.name) (f.body.map inner).sum] := by
  have h := namesFrom_succ (stem f.name) 0 (f.body.map inner).sum
  rw [Nat.zero_add] at h
  rw [← h, namesFrom, ← List.range_eq_range']
  rfl

theorem nodup_temporaries (f : Calc.Function) : (temporaries f).Nodup :=
  List.Nodup.map (fun _ _ h => (nameAt_inj.1 h).2) List.nodup_range

end Lowering

namespace Calc.Function

open Lowering FreshNames

variable {f : Function} {returned : String}

/-- No statement assigns or reads a name that looks like a temporary. -/
def Unreserved (f : Function) : Prop :=
  ∀ s ∈ f.body, ¬ Numbered (stem f.name) s.target ∧
    ∀ x ∈ s.value.reads, ¬ Numbered (stem f.name) x

theorem unreserved_of_lowerableNames (h : ∀ x ∈ f.lowerableNames, ¬ Numbered (stem f.name) x) :
    f.Unreserved := by
  intro s hs
  refine ⟨h _ ?_, fun x hx => h x ?_⟩
  · exact List.mem_append_left _ (List.mem_append_right _ (List.mem_map_of_mem hs))
  · exact List.mem_append_right _ (List.mem_flatMap.2 ⟨s, hs, hx⟩)

theorem result_lowered (f : Function) (returned : String) :
    (f.lowered returned).result = nameAt (stem f.name) (f.body.map inner).sum := by
  simp [lowered, body_advance, advance, nextName, ofStem]

theorem targets_lowered (f : Function) (returned : String) :
    (f.lowered returned).targets =
      (body (ofStem (stem f.name)) f.body).1.map Assignment.target ++
        [(f.lowered returned).result] := by
  simp [Program.targets, lowered]

/-- The generator tells the temporaries from the targets of the function. -/
theorem filter_targets_lowered (hf : f.Unreserved) (returned : String) :
    (f.lowered returned).targets.filter (ofStem (stem f.name)).owns = temporaries f ∧
      (f.lowered returned).targets.filter (fun x => !(ofStem (stem f.name)).owns x) =
        f.targets := by
  have howns : ∀ k, (ofStem (stem f.name)).owns (nameAt (stem f.name) k) = true :=
    fun k => owns_nameAt.2 rfl
  rcases filter_targets_body howns (fun s hs => owns_eq_false_iff.2 (hf s hs).1)
    (ofStem (stem f.name)) rfl with ⟨hordered, hkept⟩
  rw [targets_lowered, List.filter_append, List.filter_append, hordered, hkept, result_lowered]
  constructor
  · rw [List.filter_cons_of_pos (howns _), List.filter_nil, temporaries_eq]
    rfl
  · rw [List.filter_cons_of_neg (by simp [howns]), List.filter_nil, List.append_nil]
    rfl

/-- A target is one of the temporaries if it looks like one. -/
theorem mem_temporaries_iff (hf : f.Unreserved) {x : String}
    (hx : x ∈ (f.lowered returned).targets) :
    x ∈ temporaries f ↔ (ofStem (stem f.name)).owns x = true := by
  rw [← (filter_targets_lowered hf returned).1, List.mem_filter]
  exact and_iff_right hx

/-- Every temporary but the last is read once. -/
theorem count_reads_lowered (hf : f.Unreserved) (hreturned : ¬ Numbered (stem f.name) returned)
    {x : String} (hx : x ∈ namesFrom (stem f.name) 0 (f.body.map inner).sum) :
    (reads (f.lowered returned).body).count x = 1 := by
  have hnumbered : Numbered (stem f.name) x := by
    rcases List.mem_map.1 hx with ⟨k, _, rfl⟩
    exact numbered_nameAt.2 rfl
  have howns : (ofStem (stem f.name)).owns x = true := owns_iff_numbered.2 hnumbered
  have hordered := (filter_targets_body (fun k => owns_nameAt.2 rfl)
    (fun s hs => owns_eq_false_iff.2 (hf s hs).1) (ofStem (stem f.name)) rfl).1
  have hnodup : (namesFrom (stem f.name) 0 (f.body.map inner).sum).Nodup := by
    have h := nodup_temporaries f
    rw [temporaries_eq] at h
    exact h.of_append_left
  have hne : returned ≠ x := fun h => hreturned (h ▸ hnumbered)
  calc
    (reads (f.lowered returned).body).count x
        = (reads (body (ofStem (stem f.name)) f.body).1).count x + [returned].count x := by
          rw [← List.count_append]
          exact congrArg (List.count x) (reads_append _ _)
    _ = ((body (ofStem (stem f.name)) f.body).1.map Assignment.target).count x := by
          rw [count_reads_body hnumbered _ hf, List.count_singleton, beq_eq_false_iff_ne.2 hne]
          rfl
    _ = (namesFrom (stem f.name) 0 (f.body.map inner).sum).count x := by
          rw [← List.count_filter howns, hordered]
          rfl
    _ = 1 := List.count_eq_one_of_mem hnodup hx

theorem shape_lowered (hresult : f.result = .var returned)
    (hreturned : ¬ Numbered (stem f.name) returned) (hf : f.Unreserved) :
    Shape f (f.lowered returned) where
  params := rfl
  length := by
    simp [lowered, length_body]
  targets := by
    rw [← (filter_targets_lowered hf returned).2]
    exact List.filter_congr fun x hx => by simp [mem_temporaries_iff hf hx]
  ordered := by
    conv_rhs => rw [← (filter_targets_lowered hf returned).1]
    exact List.filter_congr fun x hx => by simp [mem_temporaries_iff hf hx]
  distinct := nodup_temporaries f
  pieces := by
    rcases exists_pieces (ofStem (stem f.name)) fun s hs => (hf s hs).1 with
      ⟨pieces, hcode, hpieces⟩
    refine ⟨pieces, returned, hresult, ?_, hpieces⟩
    rw [← hcode]
    rfl
  result := by
    rw [temporaries_eq, List.getLast?_concat, result_lowered]
  readOnce := by
    intro x hx
    rw [temporaries_eq, List.dropLast_concat] at hx
    exact count_reads_lowered hf hreturned hx

end Calc.Function

namespace Compiler

open Lowering

/-- The code of a compiled function, in a new compiler and later in a session: the temporaries are
numbered in the order of the code, each but the last is read once, by a later instruction for the
same statement, and the last one holds the result. -/
theorem shape_compile (limits : Limits) (session : List Request) (f : Calc.Function)
    (t : Tac.Function) (hdigest : Distinguishes limits session f)
    (ht : (((ofLimits limits).after session).compile f).1 = .ok t) : Shape f t := by
  rcases (compile_after_eq_ok hdigest).1 ht with ⟨hcheck, hlower⟩
  have hdefined := (Limits.defined_of_check hcheck).1
  rcases Calc.Function.lower_eq_ok.1 hlower with ⟨returned, hresult, hnames, rfl⟩
  have hreturned := hnames returned
    (List.mem_append_left _ (Calc.Function.returned_mem hdefined hresult))
  exact Calc.Function.shape_lowered hresult hreturned
    (Calc.Function.unreserved_of_lowerableNames hnames)

/-- The first statement of the sample needs two temporaries, the second one none, and the third
temporary is the result. -/
theorem shape_compile_sample :
    Distinguishes {} [.function Calc.sample] Calc.sample ∧
      (((ofLimits {}).after [.function Calc.sample]).compile Calc.sample).1 =
        .ok (Calc.sample.lowered "z") ∧
      Shape Calc.sample (Calc.sample.lowered "z") ∧
      temporaries Calc.sample = ["_tmp_f_0", "_tmp_f_1", "_tmp_f_2"] :=
  ⟨distinguishes_same _ _, compile_sample_twice,
    shape_compile {} [.function Calc.sample] Calc.sample _ (distinguishes_same _ _)
      compile_sample_twice, by decide⟩

end Compiler

end StraightLine
