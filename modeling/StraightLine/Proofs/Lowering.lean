import StraightLine.Lowering
import StraightLine.Proofs.Definitions
import StraightLine.Proofs.FreshNames

/-!
# Lowering — flattened code computes the expression it came from

Temporaries come and go between the names of the program. Flattened code keeps every name that is
no temporary, and the temporaries that were issued before it, so the operands of an operation are
still there when it is executed.

* `Lowering.Settled`, `Lowering.Keeps` — the names that later code leaves alone;
* `Lowering.Computes`, `Lowering.computes_flatten` — the code of an expression;
* `Lowering.execute_statement`, `Lowering.execute_body` — the code of statements;
* `Calc.Function.evalWith_lower` — a lowered function computes what the function computes, over
  every arithmetic.
-/

namespace StraightLine

namespace Lowering

open FreshNames

/-- The code, read as assignments of expressions. -/
def asExprs (code : Code) : List (Assignment Expr) :=
  code.map (Assignment.map Tac.Value.expr)

theorem asExprs_append (first rest : Code) :
    asExprs (first ++ rest) = asExprs first ++ asExprs rest :=
  List.map_append

/-! ## Names that stay -/

/-- No name that the generator will issue. -/
def Settled (fresh : FreshNames) (x : String) : Prop :=
  ¬ Numbered fresh.stem x ∨ ∃ k < fresh.issued, x = nameAt fresh.stem k

/-- What the generator has issued so far, and all other names, keep their values. -/
def Keeps {α : Type} (fresh : FreshNames) (env out : Environment α) : Prop :=
  ∀ x, Settled fresh x → out.lookup x = env.lookup x

/-- The generator after `count` more names. -/
def advance (fresh : FreshNames) (count : Nat) : FreshNames :=
  { fresh with issued := fresh.issued + count }

theorem Settled.advance {fresh : FreshNames} {x : String} (h : Settled fresh x) (count : Nat) :
    Settled (advance fresh count) x := by
  rcases h with h | ⟨k, hk, rfl⟩
  · exact Or.inl h
  · exact Or.inr ⟨k, Nat.lt_add_right count hk, rfl⟩

theorem settled_nextName (fresh : FreshNames) : Settled fresh.nextName.2 fresh.nextName.1 :=
  Or.inr ⟨fresh.issued, Nat.lt_succ_self _, rfl⟩

theorem Settled.ne_nextName {fresh : FreshNames} {x : String} (h : Settled fresh x) :
    fresh.nextName.1 ≠ x := by
  rintro rfl
  rcases h with h | ⟨k, hk, hname⟩
  · exact h (owns_iff_numbered.1 (owns_nameAt.2 rfl))
  · have := (nameAt_inj.1 hname).2
    omega

theorem Keeps.refl {α : Type} (fresh : FreshNames) (env : Environment α) : Keeps fresh env env :=
  fun _ _ => rfl

theorem Keeps.trans {α : Type} {fresh : FreshNames} {count : Nat} {env mid out : Environment α}
    (h : Keeps fresh env mid) (h' : Keeps (advance fresh count) mid out) : Keeps fresh env out := by
  intro x hx
  rw [h' x (hx.advance count), h x hx]

/-! ## Expressions -/

/-- One name is drawn for each operator. -/
theorem flatten_fresh (fresh : FreshNames) (e : Expr) :
    (flatten fresh e).fresh = advance fresh e.opCount := by
  induction e generalizing fresh with
  | var x =>
      rfl
  | binary op left right ihl ihr =>
      simp only [flatten, ihl, ihr, nextName, advance, Expr.opCount]
      congr 1
      omega

/-- An expression that reads names of the program only, all of them bound. -/
def Readable {α : Type} (fresh : FreshNames) (env : Environment α) (e : Expr) : Prop :=
  ∀ x ∈ e.reads, ¬ Numbered fresh.stem x ∧ ∃ v, env.lookup x = .ok v

section Expressions

variable {α β : Type} {arith : Arithmetic α} {fresh : FreshNames} {env : Environment α}
  {k : α → Except (EvalError α) β} {k' : Environment α → Except (EvalError α) β}

theorem Readable.of_keeps {count : Nat} {out : Environment α} {e : Expr} (h : Readable fresh env e)
    (hkeeps : Keeps fresh env out) : Readable (advance fresh count) out e := by
  intro x hx
  rcases h x hx with ⟨hname, hv⟩
  refine ⟨hname, ?_⟩
  rwa [hkeeps x (Or.inl hname)]

theorem Readable.evalWith_eq {out : Environment α} {e : Expr} (h : Readable fresh env e)
    (hkeeps : Keeps fresh env out) : e.evalWith arith out = e.evalWith arith env :=
  Expr.evalWith_congr fun x hx => hkeeps x (Or.inl (h x hx).1)

/-- The operation that ends a piece of code, after both operands have been computed. -/
theorem execute_operation {target l r : String} {op : Operator} {a b : α}
    (hl : env.lookup l = .ok a) (hr : env.lookup r = .ok b) :
    (Calc.execute arith env (asExprs [⟨target, .binary op l r⟩]) >>= k') =
      (do let v ← arith op a b
          k' (env.insert target v)) := by
  simp only [asExprs, List.map_cons, List.map_nil, Assignment.map, Tac.Value.expr,
    Calc.execute_cons, Expr.evalWith, hl, hr, bind_assoc]
  rfl

/-- The code of an expression fails as the expression does; otherwise it leaves the value under its
name and keeps all settled names. -/
def Computes (arith : Arithmetic α) (fresh : FreshNames) (e : Expr) : Prop :=
  ∀ ⦃β : Type⦄ ⦃env : Environment α⦄ ⦃k : α → Except (EvalError α) β⦄
    ⦃k' : Environment α → Except (EvalError α) β⦄, Readable fresh env e →
    (∀ v out, out.lookup (flatten fresh e).name = .ok v → Keeps fresh env out →
      Settled (flatten fresh e).fresh (flatten fresh e).name → k' out = k v) →
    (Calc.execute arith env (asExprs (flatten fresh e).code) >>= k') = (e.evalWith arith env >>= k)

/-- The code of an operation: that of its operands, and then the operation. -/
def operationCode (fresh : FreshNames) (target : String) (op : Operator) (left right : Expr) :
    Code :=
  let l := flatten fresh left
  let r := flatten l.fresh right
  l.code ++ r.code ++ [⟨target, .binary op l.name r.name⟩]

/-- If the operands are computed, the operation leaves its value under the target and keeps all
other settled names. -/
theorem execute_operationCode {target : String} {op : Operator} {left right : Expr}
    (hl : Computes arith fresh left) (hr : Computes arith (flatten fresh left).fresh right)
    (h : Readable fresh env (.binary op left right))
    (hk : ∀ v out, Keeps fresh env out → k' (out.insert target v) = k v) :
    (Calc.execute arith env (asExprs (operationCode fresh target op left right)) >>= k') =
      ((Expr.binary op left right).evalWith arith env >>= k) := by
  have hleft : Readable fresh env left := fun x hx => h x (List.mem_append_left _ hx)
  have hright : Readable fresh env right := fun x hx => h x (List.mem_append_right _ hx)
  simp only [operationCode, asExprs_append, Calc.execute_append, bind_assoc, Expr.evalWith_binary]
  refine hl hleft ?_
  intro a mid ha hkeeps hsettled
  have hgen := flatten_fresh fresh left
  rw [← hright.evalWith_eq hkeeps]
  refine hr (hgen ▸ hright.of_keeps hkeeps) ?_
  intro b out hb hkeeps' _
  -- the left operand is a settled name for the code of the right one
  have ha' : out.lookup (flatten fresh left).name = .ok a := by
    rw [hkeeps' _ hsettled, ha]
  rw [execute_operation ha' hb]
  exact bind_congr fun v => hk v out (hkeeps.trans (hgen ▸ hkeeps'))

theorem computes_flatten (arith : Arithmetic α) (fresh : FreshNames) (e : Expr) :
    Computes arith fresh e := by
  induction e generalizing fresh with
  | var x =>
      intro β env k k' h hk
      rcases h x (by simp [Expr.reads]) with ⟨hname, v, hv⟩
      simp only [Expr.evalWith, hv]
      exact hk v env hv (Keeps.refl fresh env) (Or.inl hname)
  | binary op left right ihl ihr =>
      intro β env k k' h hk
      refine execute_operationCode (ihl fresh) (ihr _) h ?_
      intro v out hkeeps
      refine hk v _ (Environment.lookup_insert_self ..) ?_ (settled_nextName _)
      -- the last temporary is newer than every settled name
      intro x hx
      have hx' : Settled (flatten (flatten fresh left).fresh right).fresh x := by
        rw [flatten_fresh, flatten_fresh]
        exact (hx.advance _).advance _
      exact (Environment.lookup_insert_of_ne hx'.ne_nextName).trans (hkeeps x hx)

end Expressions

/-! ## Statements -/

/-- The two environments agree on all names of the program. -/
def Agree {α : Type} (fresh : FreshNames) (env env' : Environment α) : Prop :=
  ∀ x, ¬ Numbered fresh.stem x → env'.lookup x = env.lookup x

section Statements

variable {α β : Type} {arith : Arithmetic α} {fresh : FreshNames} {env env' : Environment α}
  {k : Environment α → Except (EvalError α) β} {k' : Environment α → Except (EvalError α) β}

theorem Agree.insert {name : String} {v : α} (h : Agree fresh env env') :
    Agree fresh (env.insert name v) (env'.insert name v) := by
  intro x hx
  rw [Environment.lookup_insert, Environment.lookup_insert, h x hx]

theorem statement_fresh (fresh : FreshNames) (target : String) (value : Expr) :
    (statement fresh target value).2.stem = fresh.stem := by
  cases value with
  | var x =>
      rfl
  | binary op left right =>
      simp only [statement, flatten_fresh, advance]

/-- The code of a statement does what the statement does, up to temporaries. -/
theorem execute_statement {s : Assignment Expr} (h : Readable fresh env' s.value)
    (hk : ∀ v out, Agree fresh (env'.insert s.target v) out → k' out = k (env.insert s.target v)) :
    (Calc.execute arith env' (asExprs (statement fresh s.target s.value).1) >>= k') =
      (do let v ← s.value.evalWith arith env'
          k (env.insert s.target v)) := by
  cases hvalue : s.value with
  | var y =>
      rw [hvalue] at h
      rcases h y (by simp [Expr.reads]) with ⟨_, v, hv⟩
      simp only [statement, asExprs, List.map_cons, List.map_nil, Assignment.map, Tac.Value.expr,
        Calc.execute_cons, Expr.evalWith, hv, bind_assoc]
      exact hk v _ fun _ _ => rfl
  | binary op left right =>
      rw [hvalue] at h
      refine execute_operationCode (computes_flatten ..) (computes_flatten ..) h ?_
      intro v out hkeeps
      have hagree : Agree fresh env' out := fun x hx => hkeeps x (Or.inl hx)
      exact hk v _ hagree.insert

/-- The code of all statements does what the statements do, up to temporaries. -/
theorem execute_body (fresh : FreshNames) {stmts : List (Assignment Expr)} {bound : List String}
    (hdef : Calc.Defined bound stmts) (hbound : env.Binds bound)
    (hreads : ∀ s ∈ stmts, ∀ x ∈ s.value.reads, ¬ Numbered fresh.stem x)
    (hagree : Agree fresh env env')
    (hk : ∀ out out', Agree fresh out out' → k' out' = k out) :
    (Calc.execute arith env' (asExprs (body fresh stmts).1) >>= k') =
      (Calc.execute arith env stmts >>= k) := by
  -- before each statement, both runs agree on the names of the program
  induction stmts generalizing bound fresh env env' k k' with
  | nil =>
      exact hk env env' hagree
  | cons s rest ih =>
      have hread : Readable fresh env' s.value := by
        intro x hx
        have hname := hreads s List.mem_cons_self x hx
        refine ⟨hname, ?_⟩
        rw [hagree x hname]
        exact hbound x (hdef.1 x hx)
      have hvalue : s.value.evalWith arith env' = s.value.evalWith arith env :=
        Expr.evalWith_congr fun x hx => hagree x (hread x hx).1
      simp only [body, asExprs_append, Calc.execute_append, Calc.execute_cons, bind_assoc]
      rw [← hvalue]
      refine execute_statement (k := fun env => Calc.execute arith env rest >>= k) hread ?_
      intro v out hout
      -- the generator for the rest has the same stem, so agreement means the same for it
      have hstem := statement_fresh fresh s.target s.value
      refine ih _ hdef.2 (hbound.insert s.target v) ?_ ?_ ?_
      · rw [hstem]
        exact fun t ht => hreads t (List.mem_cons_of_mem _ ht)
      · intro x hx
        rw [hstem] at hx
        rw [hout x hx, hagree.insert x hx]
      · intro out out' h
        refine hk out out' fun x hx => h x ?_
        rw [hstem]
        exact hx

end Statements

/-! ## Names -/

/-- A name that the generator issues at some time. -/
def Temporary (stem x : String) : Prop :=
  ∃ k, x = nameAt stem k

/-- The code assigns only names for which `target` holds, or temporaries, and reads only names for
which `read` holds, or temporaries. -/
def UsesOnly (stem : String) (target read : String → Prop) (code : Code) : Prop :=
  ∀ s ∈ code, (target s.target ∨ Temporary stem s.target) ∧
    ∀ x ∈ s.value.reads, read x ∨ Temporary stem x

section Names

variable {stem : String} {target read : String → Prop}

theorem usesOnly_append {first rest : Code} : UsesOnly stem target read (first ++ rest) ↔
    UsesOnly stem target read first ∧ UsesOnly stem target read rest :=
  List.forall_mem_append

/-- The code of an operation uses what the code of its operands and the operation itself use. -/
theorem usesOnly_operation {first rest : Code} {name l r : String} {op : Operator}
    (hfirst : UsesOnly stem target read first) (hrest : UsesOnly stem target read rest)
    (hname : target name ∨ Temporary stem name) (hl : read l ∨ Temporary stem l)
    (hr : read r ∨ Temporary stem r) :
    UsesOnly stem target read (first ++ rest ++ [⟨name, .binary op l r⟩]) := by
  refine usesOnly_append.2 ⟨usesOnly_append.2 ⟨hfirst, hrest⟩, ?_⟩
  intro s hs
  rw [List.mem_singleton.1 hs]
  refine ⟨hname, ?_⟩
  intro x hx
  rcases List.mem_pair.1 hx with rfl | rfl
  · exact hl
  · exact hr

theorem flatten_stem (fresh : FreshNames) (e : Expr) :
    (flatten fresh e).fresh.stem = fresh.stem := by
  rw [flatten_fresh]
  rfl

theorem usesOnly_flatten (target : String → Prop) (fresh : FreshNames) {e : Expr}
    (h : ∀ x ∈ e.reads, read x) :
    UsesOnly fresh.stem target read (flatten fresh e).code ∧
      (read (flatten fresh e).name ∨ Temporary fresh.stem (flatten fresh e).name) := by
  induction e generalizing fresh with
  | var x =>
      exact ⟨fun s hs => absurd hs List.not_mem_nil, Or.inl (h x List.mem_cons_self)⟩
  | binary op left right ihl ihr =>
      rcases ihl fresh fun x hx => h x (List.mem_append_left _ hx) with ⟨hcode, hname⟩
      rcases ihr (flatten fresh left).fresh fun x hx =>
        h x (List.mem_append_right _ hx) with ⟨hcode', hname'⟩
      rw [flatten_stem] at hcode' hname'
      have hstem : (flatten (flatten fresh left).fresh right).fresh.stem = fresh.stem := by
        rw [flatten_stem, flatten_stem]
      have hlast : Temporary fresh.stem (flatten fresh (.binary op left right)).name :=
        ⟨_, congrArg (nameAt · _) hstem⟩
      exact ⟨usesOnly_operation hcode hcode' (Or.inr hlast) hname hname', Or.inr hlast⟩

theorem usesOnly_statement {fresh : FreshNames} {s : Assignment Expr} (htarget : target s.target)
    (h : ∀ x ∈ s.value.reads, read x) :
    UsesOnly fresh.stem target read (statement fresh s.target s.value).1 := by
  cases hvalue : s.value with
  | var x =>
      rw [hvalue] at h
      intro t ht
      rw [List.mem_singleton.1 ht]
      refine ⟨Or.inl htarget, ?_⟩
      intro y hy
      exact Or.inl (h y hy)
  | binary op left right =>
      rw [hvalue] at h
      rcases usesOnly_flatten target fresh fun x hx =>
        h x (List.mem_append_left _ hx) with ⟨hcode, hname⟩
      rcases usesOnly_flatten target (flatten fresh left).fresh fun x hx =>
        h x (List.mem_append_right _ hx) with ⟨hcode', hname'⟩
      rw [flatten_stem] at hcode' hname'
      exact usesOnly_operation hcode hcode' (Or.inl htarget) hname hname'

theorem body_stem (fresh : FreshNames) (stmts : List (Assignment Expr)) :
    (body fresh stmts).2.stem = fresh.stem := by
  induction stmts generalizing fresh with
  | nil =>
      rfl
  | cons s rest ih =>
      exact (ih _).trans (statement_fresh fresh s.target s.value)

theorem usesOnly_body (fresh : FreshNames) {stmts : List (Assignment Expr)}
    (h : ∀ s ∈ stmts, target s.target ∧ ∀ x ∈ s.value.reads, read x) :
    UsesOnly fresh.stem target read (body fresh stmts).1 := by
  induction stmts generalizing fresh with
  | nil =>
      exact fun s hs => absurd hs List.not_mem_nil
  | cons s rest ih =>
      have hs := h s List.mem_cons_self
      have hrest := ih (statement fresh s.target s.value).2
        fun t ht => h t (List.mem_cons_of_mem _ ht)
      rw [statement_fresh] at hrest
      exact usesOnly_append.2 ⟨usesOnly_statement hs.1 hs.2, hrest⟩

/-- The last instruction for a statement assigns its target. -/
theorem target_mem_statement (fresh : FreshNames) (s : Assignment Expr) :
    s.target ∈ (statement fresh s.target s.value).1.map Assignment.target := by
  cases s.value with
  | var x =>
      exact List.mem_cons_self
  | binary op left right =>
      simp [statement]

theorem targets_subset_body (fresh : FreshNames) (stmts : List (Assignment Expr)) :
    stmts.map Assignment.target ⊆ (body fresh stmts).1.map Assignment.target := by
  induction stmts generalizing fresh with
  | nil =>
      exact List.Subset.refl _
  | cons s rest ih =>
      simp only [body, List.map_append, List.map_cons]
      refine List.cons_subset.2 ⟨?_, ?_⟩
      · exact List.mem_append_left _ (target_mem_statement fresh s)
      · exact List.Subset.trans (ih _) (List.subset_append_right _ _)

end Names

end Lowering

/-! ## Functions -/

namespace Calc

namespace Function

open Lowering FreshNames

/-- The three-address code of a function that returns a name. -/
def lowered (f : Function) (returned : String) : Tac.Function :=
  let code := body (FreshNames.ofStem (stem f.name)) f.body
  { name := f.name
    params := f.params
    body := code.1 ++ [⟨code.2.nextName.1, .copy returned⟩]
    result := code.2.nextName.1 }

theorem lower_eq_ok {f : Function} {t : Tac.Function} :
    f.lower = .ok t ↔ ∃ returned, f.result = .var returned ∧
      (∀ x ∈ f.lowerableNames, ¬ Numbered (stem f.name) x) ∧ t = f.lowered returned := by
  unfold lower
  cases hresult : f.result with
  | binary op left right =>
      simp [returnVar?, hresult, Expr.varName?]
  | var returned =>
      simp only [returnVar?, hresult, Expr.varName?, except_bind_eq_ok, Expr.var.injEq,
        exists_eq_left']
      rw [← checkUnowned_ofStem]
      constructor
      · rintro ⟨⟨⟩, hnames, ht⟩
        cases ht
        exact ⟨hnames, rfl⟩
      · rintro ⟨hnames, rfl⟩
        exact ⟨⟨⟩, hnames, rfl⟩

/-- The returned variable is a parameter or a target. -/
theorem returned_mem {f : Function} {returned : String} (hdef : f.Defined)
    (hresult : f.result = .var returned) : returned ∈ f.params ++ f.targets := by
  have hmem := hdef.2 returned (by simp [hresult, Expr.reads])
  rcases List.mem_append.1 hmem with hmem | hmem
  · exact List.mem_append_right _ (List.mem_reverse.1 hmem)
  · exact List.mem_append_left _ hmem

/-- A lowered function computes what the function computes, over every arithmetic. -/
theorem evalWith_lowered {α : Type} {arith : Arithmetic α} {f : Function} {returned : String}
    (hdef : f.Defined) (hresult : f.result = .var returned)
    (hnames : ∀ x ∈ f.lowerableNames, ¬ Numbered (stem f.name) x) (args : List α) :
    (f.lowered returned).evalWith arith args = f.evalWith arith args := by
  have hreads : ∀ s ∈ f.body, ∀ x ∈ s.value.reads, ¬ Numbered (stem f.name) x := by
    intro s hs x hx
    exact hnames x (List.mem_append_right _ (List.mem_flatMap.2 ⟨s, hs, hx⟩))
  have hreturned : ¬ Numbered (stem f.name) returned :=
    hnames returned (List.mem_append_left _ (returned_mem hdef hresult))
  change (f.lowered returned).toCalc.evalWith arith args = _
  by_cases hlength : f.params.length = args.length
  · -- both start with the parameters alone, and the code ends with a copy of the result
    rw [evalWith_of_length (f := (f.lowered returned).toCalc) hlength, evalWith_of_length hlength]
    simp only [lowered, Tac.Function.toCalc, Program.map, List.map_append, execute_append,
      bind_assoc, hresult]
    refine execute_body (FreshNames.ofStem (stem f.name)) hdef.1
      (binds_params hlength) hreads (fun _ _ => rfl) ?_
    intro out out' hagree
    refine (execute_last out' _ (.var returned)).trans ?_
    exact hagree returned hreturned
  · rw [evalWith_of_length_ne (f := (f.lowered returned).toCalc) hlength,
      evalWith_of_length_ne hlength]
    rfl

theorem evalWith_lower {α : Type} {arith : Arithmetic α} {f : Function} {t : Tac.Function}
    (hdef : f.Defined) (h : f.lower = .ok t) (args : List α) :
    t.evalWith arith args = f.evalWith arith args := by
  rcases lower_eq_ok.1 h with ⟨returned, hresult, hnames, rfl⟩
  exact evalWith_lowered hdef hresult hnames args

theorem lowered_targets (f : Function) (returned : String) :
    f.targets ⊆ (f.lowered returned).targets := by
  simp only [Program.targets, lowered, List.map_append]
  exact List.Subset.trans (targets_subset_body _ _) (List.subset_append_left _ _)

/-- The names of a lowered function are parameters and targets of the function, and temporaries. -/
theorem mem_names_lowered {f : Function} {returned : String} (hdef : f.Defined)
    (hresult : f.result = .var returned) {x : String} (hx : x ∈ (f.lowered returned).names) :
    x ∈ f.params ++ f.targets ∨ Temporary (stem f.name) x := by
  let source : String → Prop := fun x => x ∈ f.params ++ f.targets
  have hreturned : source returned := returned_mem hdef hresult
  have hlast : Temporary (stem f.name) (f.lowered returned).result :=
    ⟨_, congrArg (nameAt · _) (body_stem (FreshNames.ofStem (stem f.name)) f.body)⟩
  have huses : UsesOnly (stem f.name) source source (f.lowered returned).body := by
    refine usesOnly_append.2 ⟨usesOnly_body (FreshNames.ofStem (stem f.name)) ?_, ?_⟩
    · intro s hs
      refine ⟨List.mem_append_right _ (List.mem_map_of_mem hs), ?_⟩
      intro y hy
      rcases hdef.1.mem_reads hs hy with hmem | hmem
      · exact List.mem_append_left _ hmem
      · exact List.mem_append_right _ hmem
    · intro s hs
      rw [List.mem_singleton.1 hs]
      refine ⟨Or.inr hlast, ?_⟩
      intro y hy
      rw [List.mem_singleton.1 hy]
      exact Or.inl hreturned
  simp only [Tac.Function.names, List.mem_append, List.mem_flatMap, List.mem_singleton] at hx
  rcases hx with (hx | ⟨s, hs, hx⟩) | rfl
  · exact Or.inl (List.mem_append_left _ hx)
  · rcases List.mem_cons.1 hx with rfl | hx
    · exact (huses s hs).1
    · exact (huses s hs).2 x hx
  · exact Or.inr hlast

end Function

end Calc

end StraightLine
