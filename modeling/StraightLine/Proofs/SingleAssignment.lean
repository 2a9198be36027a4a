import StraightLine.Proofs.Definitions
import StraightLine.Proofs.FreshNames

/-!
# SingleAssignment — the conversions keep what a function computes

While a body is converted, every name of the program is bound in the original run exactly to what
the name that stands for it is bound to in the converted run. The names that are generated differ
from all names before them, so no binding is lost.

* `SingleAssignment.Ordered` — bodies in which every name is assigned once and read later;
* `SingleAssignment.Solves` — values that satisfy the assignments as equations;
* `SingleAssignment.solves_iff` — a run is the only solution;
* `SingleAssignment.Converts` — what a conversion promises;
* `Calc.Function.converts_toSsa`, `Tac.Function.converts_toSsa` — both conversions.
-/

namespace StraightLine

namespace SingleAssignment

open FreshNames

/-! ## Ordered bodies -/

/-- Each statement reads names that are bound before it and assigns a new one. -/
def Ordered (bound : List String) : List (Assignment Expr) → Prop
  | [] => True
  | s :: rest =>
      (∀ x ∈ s.value.reads, x ∈ bound) ∧ s.target ∉ bound ∧ Ordered (s.target :: bound) rest

theorem Ordered.defined {body : List (Assignment Expr)} {bound : List String}
    (h : Ordered bound body) : Calc.Defined bound body := by
  induction body generalizing bound with
  | nil =>
      trivial
  | cons s rest ih =>
      exact ⟨h.1, ih h.2.2⟩

theorem Ordered.target_notMem {body : List (Assignment Expr)} {bound : List String}
    (h : Ordered bound body) : ∀ x ∈ body.map Assignment.target, x ∉ bound := by
  induction body generalizing bound with
  | nil =>
      intro x hx
      cases hx
  | cons s rest ih =>
      rcases h with ⟨_, hnew, hrest⟩
      intro x hx
      rcases List.mem_cons.1 hx with rfl | hx
      · exact hnew
      · exact fun hmem => ih hrest x hx (List.mem_cons_of_mem _ hmem)

/-- More names may be bound before an ordered body, if it assigns none of them. -/
theorem Ordered.weaken {body : List (Assignment Expr)} {bound bound' : List String}
    (h : Ordered bound body) (hsub : bound ⊆ bound')
    (htargets : ∀ x ∈ body.map Assignment.target, x ∉ bound') : Ordered bound' body := by
  induction body generalizing bound bound' with
  | nil =>
      trivial
  | cons s rest ih =>
      rcases h with ⟨hreads, _, hrest⟩
      refine ⟨fun x hx => hsub (hreads x hx), htargets _ List.mem_cons_self, ?_⟩
      refine ih hrest (List.cons_subset_cons _ hsub) ?_
      intro x hx hmem
      rcases List.mem_cons.1 hmem with rfl | hmem
      · exact hrest.target_notMem _ hx List.mem_cons_self
      · exact htargets x (List.mem_cons_of_mem _ hx) hmem

theorem ordered_append {first rest : List (Assignment Expr)} {bound : List String} :
    Ordered bound (first ++ rest) ↔
      Ordered bound first ∧ Ordered ((first.map Assignment.target).reverse ++ bound) rest := by
  induction first generalizing bound with
  | nil =>
      simp [Ordered]
  | cons s first ih =>
      simp [Ordered, ih, and_assoc]

/-- Two ordered bodies over the same names can follow each other, if they assign different ones. -/
theorem Ordered.append {first rest : List (Assignment Expr)} {bound : List String}
    (h : Ordered bound first) (h' : Ordered bound rest)
    (hapart : ∀ x ∈ rest.map Assignment.target, x ∉ first.map Assignment.target) :
    Ordered bound (first ++ rest) := by
  rw [ordered_append]
  refine ⟨h, h'.weaken (List.subset_append_right _ _) ?_⟩
  intro x hx hmem
  rcases List.mem_append.1 hmem with hmem | hmem
  · exact hapart x hx (List.mem_reverse.1 hmem)
  · exact h'.target_notMem x hx hmem

/-! ## Assignments as equations -/

section Solutions

variable {α : Type} {ops : Operator → α → α → α} {value : String → α}

/-- Every target has the value of its right-hand side. -/
def Solves (ops : Operator → α → α → α) (value : String → α) (body : List (Assignment Expr)) :
    Prop :=
  ∀ s ∈ body, value s.target = s.value.valueIn ops value

theorem solves_append {first rest : List (Assignment Expr)} :
    Solves ops value (first ++ rest) ↔ Solves ops value first ∧ Solves ops value rest :=
  List.forall_mem_append

theorem Ordered.lookup_of_execute {arith : Arithmetic α} {bound : List String}
    {body : List (Assignment Expr)} (h : Ordered bound body) {env out : Environment α}
    (hout : Calc.execute arith env body = .ok out) : ∀ x ∈ bound, out.lookup x = env.lookup x :=
  fun x hx => Calc.lookup_of_execute hout fun hmem => h.target_notMem x hmem hx

/-- The values of the equations of an ordered body are those of its run. -/
theorem solves_iff {bound : List String} {body : List (Assignment Expr)} (h : Ordered bound body)
    {env out : Environment α} (hout : Calc.execute (totalArithmetic ops) env body = .ok out)
    (hvalue : ∀ x ∈ bound, env.lookup x = .ok (value x)) :
    Solves ops value body ↔ ∀ x ∈ body.map Assignment.target, out.lookup x = .ok (value x) := by
  induction body generalizing bound env with
  | nil =>
      simp [Solves]
  | cons s rest ih =>
      rcases h with ⟨hreads, hnew, hrest⟩
      rw [Calc.execute_cons, Expr.evalWith_total ops fun x hx => hvalue x (hreads x hx)] at hout
      -- nothing assigns the first target again
      have htarget : out.lookup s.target = .ok (s.value.valueIn ops value) :=
        calc
          out.lookup s.target
              = Environment.lookup (env.insert s.target (s.value.valueIn ops value)) s.target :=
                hrest.lookup_of_execute hout _ List.mem_cons_self
          _ = .ok (s.value.valueIn ops value) := Environment.lookup_insert_self ..
      have hsolves : Solves ops value (s :: rest) ↔
          value s.target = s.value.valueIn ops value ∧ Solves ops value rest :=
        List.forall_mem_cons
      rw [hsolves, List.map_cons, List.forall_mem_cons, htarget, Except.ok.injEq, eq_comm]
      refine and_congr_right fun hs => ih hrest hout ?_
      intro x hx
      rcases List.mem_cons.1 hx with rfl | hx
      · rw [Environment.lookup_insert_self, hs]
      · have hne : s.target ≠ x := by
          rintro rfl
          exact hnew hx
        rw [Environment.lookup_insert_of_ne hne, hvalue x hx]

end Solutions

/-- Values over a run of an ordered body solve it. -/
theorem exists_solves {α : Type} (ops : Operator → α → α → α) {params : List String}
    {body : List (Assignment Expr)} (h : Ordered params body) (value : String → α) :
    ∃ solution : String → α, (∀ p ∈ params, solution p = value p) ∧ Solves ops solution body := by
  let env : Environment α := Environment.bindAll ∅ (params.zip (params.map value))
  have henv : ∀ p ∈ params, env.lookup p = .ok (value p) := Environment.lookup_bindAll_map
  rcases Calc.execute_total ops h.defined (fun p hp => ⟨_, henv p hp⟩) with ⟨out, hout, hbinds⟩
  -- the parameters and targets as the run leaves them, and all other names as they were
  let solution : String → α := fun x =>
    match out.lookup x with
    | .ok v => v
    | .error _ => value x
  have hsolution : ∀ {x v}, out.lookup x = .ok v → solution x = v := by
    intro x v hx
    simp only [solution, hx]
  have hparams : ∀ p ∈ params, solution p = value p := by
    intro p hp
    exact hsolution ((h.lookup_of_execute hout p hp).trans (henv p hp))
  refine ⟨solution, hparams, (solves_iff h hout ?_).2 ?_⟩
  · intro p hp
    rw [hparams p hp]
    exact henv p hp
  · intro x hx
    rcases hbinds x (List.mem_append_left _ (List.mem_reverse.2 hx)) with ⟨v, hv⟩
    rw [hsolution hv]
    exact hv

/-- A function whose body is ordered returns what any solution gives to its result. -/
theorem evalWith_of_solves {α : Type} {ops : Operator → α → α → α} {value : String → α}
    {g : Calc.Function} (h : Ordered g.params g.body) {r : String} (hresult : g.result = .var r)
    (hr : r ∈ g.params ∨ r ∈ g.targets) (hvalue : Solves ops value g.body) :
    g.evalWith (totalArithmetic ops) (g.params.map value) = .ok (value r) := by
  let env : Environment α := Environment.bindAll ∅ (g.params.zip (g.params.map value))
  have henv : ∀ p ∈ g.params, env.lookup p = .ok (value p) := Environment.lookup_bindAll_map
  rcases Calc.execute_total ops h.defined (fun p hp => ⟨_, henv p hp⟩) with ⟨out, hout, _⟩
  have hlookup : out.lookup r = .ok (value r) := by
    rcases hr with hr | hr
    · rw [h.lookup_of_execute hout r hr, henv r hr]
    · exact (solves_iff h hout henv).1 hvalue r hr
  rw [Calc.Function.evalWith_of_length (by simp), hresult]
  exact except_bind_eq_ok.2 ⟨out, hout, hlookup⟩

/-! ## Renaming -/

/-- The names that the table gives are bound, and no name that is still to be issued is. -/
structure Current (table : Renaming) (fresh : FreshNames) (bound : List String) : Prop where
  mem : ∀ x y : String, table[x]? = some y → y ∈ bound
  unissued : ∀ k, fresh.issued ≤ k → nameAt fresh.stem k ∉ bound

/-- What a name is bound to in one run, its new name is bound to in the other. -/
def Holds {α : Type} (table : Renaming) (env env' : Environment α) : Prop :=
  ∀ x y : String, table[x]? = some y → ∃ v, env.lookup x = .ok v ∧ env'.lookup y = .ok v

theorem Renaming.lookup_eq_ok {function : String} {table : Renaming} {x y : String} :
    table.lookup function x = .ok y ↔ table[x]? = some y := by
  unfold Renaming.lookup
  cases table[x]? <;> simp

theorem Current.insert {table : Renaming} {fresh : FreshNames} {bound : List String}
    (h : Current table fresh bound) (x : String) :
    Current (table.insert x fresh.nextName.1) fresh.nextName.2 (fresh.nextName.1 :: bound) where
  mem := by
    intro z y hz
    rw [Std.HashMap.getElem?_insert] at hz
    split at hz
    · cases hz
      exact List.mem_cons_self
    · exact List.mem_cons_of_mem _ (h.mem z y hz)
  unissued := by
    intro k hk hmem
    have hk : fresh.issued + 1 ≤ k := hk
    rcases List.mem_cons.1 hmem with hname | hmem
    · have := (nameAt_inj.1 hname).2
      omega
    · exact h.unissued k (by omega) hmem

theorem Holds.insert {α : Type} {table : Renaming} {fresh : FreshNames} {bound : List String}
    (hb : Current table fresh bound) {env env' : Environment α} (h : Holds table env env')
    (x : String) (v : α) :
    Holds (table.insert x fresh.nextName.1) (env.insert x v)
      (env'.insert fresh.nextName.1 v) := by
  intro z y hz
  rw [Std.HashMap.getElem?_insert] at hz
  split at hz
  · next hxz =>
      cases hz
      rw [eq_of_beq hxz]
      exact ⟨v, Environment.lookup_insert_self .., Environment.lookup_insert_self ..⟩
  · -- an older name is bound to an older generated name, which the new one does not hide
    next hxz =>
      rcases h z y hz with ⟨w, hw, hw'⟩
      have hy : fresh.nextName.1 ≠ y := by
        rintro rfl
        exact hb.unissued _ (Nat.le_refl _) (hb.mem z _ hz)
      have hxz : x ≠ z := by simpa using hxz
      refine ⟨w, ?_, ?_⟩
      · rw [Environment.lookup_insert_of_ne hxz, hw]
      · rw [Environment.lookup_insert_of_ne hy, hw']

/-- A renamed expression reads the new names of what the expression reads. -/
theorem mem_reads_rename {rename : String → Except CompileError String} {e e' : Expr}
    (h : e.rename rename = .ok e') {y : String} :
    y ∈ e'.reads ↔ ∃ x ∈ e.reads, rename x = .ok y := by
  induction e generalizing e' with
  | var x =>
      rcases except_bind_eq_ok.1 h with ⟨z, hz, h⟩
      cases h
      simp [Expr.reads, hz, eq_comm]
  | binary op left right ihl ihr =>
      rcases except_bind_eq_ok.1 h with ⟨l, hl, h⟩
      rcases except_bind_eq_ok.1 h with ⟨r, hr, h⟩
      cases h
      simp only [Expr.reads, List.mem_append, ihl hl, ihr hr, or_and_right, exists_or]

theorem exists_rename {rename : String → Except CompileError String} {e : Expr}
    (h : ∀ x ∈ e.reads, ∃ y, rename x = .ok y) : ∃ e', e.rename rename = .ok e' := by
  induction e with
  | var x =>
      rcases h x (by simp [Expr.reads]) with ⟨y, hy⟩
      exact ⟨.var y, except_bind_eq_ok.2 ⟨y, hy, rfl⟩⟩
  | binary op left right ihl ihr =>
      rcases ihl fun x hx => h x (List.mem_append_left _ hx) with ⟨l, hl⟩
      rcases ihr fun x hx => h x (List.mem_append_right _ hx) with ⟨r, hr⟩
      exact ⟨.binary op l r, except_bind_eq_ok.2 ⟨l, hl, except_bind_eq_ok.2 ⟨r, hr, rfl⟩⟩⟩

theorem exists_of_rename {rename : String → Except CompileError String} {e e' : Expr}
    (h : e.rename rename = .ok e') : ∀ x ∈ e.reads, ∃ y, rename x = .ok y := by
  induction e generalizing e' with
  | var x =>
      rcases except_bind_eq_ok.1 h with ⟨z, hz, _⟩
      intro y hy
      rw [List.mem_singleton.1 hy]
      exact ⟨z, hz⟩
  | binary op left right ihl ihr =>
      rcases except_bind_eq_ok.1 h with ⟨l, hl, h⟩
      rcases except_bind_eq_ok.1 h with ⟨r, hr, _⟩
      intro y hy
      rcases List.mem_append.1 hy with hy | hy
      · exact ihl hl y hy
      · exact ihr hr y hy

/-- A renamed tree evaluates to what the tree evaluates to. -/
theorem evalWith_rename {α : Type} {arith : Arithmetic α} {function : String} {table : Renaming}
    {env env' : Environment α} (henv : Holds table env env') {e e' : Expr}
    (h : e.rename (table.lookup function) = .ok e') :
    e'.evalWith arith env' = e.evalWith arith env := by
  induction e generalizing e' with
  | var x =>
      rcases except_bind_eq_ok.1 h with ⟨y, hy, h⟩
      cases h
      rcases henv x y (Renaming.lookup_eq_ok.1 hy) with ⟨v, hv, hv'⟩
      exact hv'.trans hv.symm
  | binary op left right ihl ihr =>
      rcases except_bind_eq_ok.1 h with ⟨l, hl, h⟩
      rcases except_bind_eq_ok.1 h with ⟨r, hr, h⟩
      cases h
      rw [Expr.evalWith_binary, Expr.evalWith_binary, ihl hl, ihr hr]

/-! ## Bodies -/

section Bodies

variable {function : String} {table : Renaming} {fresh : FreshNames}
  {stmts : List (Assignment Expr)} {c : Converted Expr} {bound : List String}

theorem body_cons_eq {V : Type} (renameValue : RenameValue V) (fresh : FreshNames)
    (s : Assignment V) (rest : List (Assignment V)) :
    body renameValue function table fresh (s :: rest) =
      (do let value ← renameValue (table.lookup function) s.value
          let later ← body renameValue function (table.insert s.target fresh.nextName.1)
            fresh.nextName.2 rest
          return { later with body := ⟨fresh.nextName.1, value⟩ :: later.body }) := by
  simp only [body]
  cases renameValue (table.lookup function) s.value with
  | error e =>
      rfl
  | ok value =>
      cases body renameValue function (table.insert s.target fresh.nextName.1) fresh.nextName.2
        rest <;> rfl

theorem body_cons {V : Type} {renameValue : RenameValue V} {s : Assignment V}
    {rest : List (Assignment V)} {c : Converted V} :
    body renameValue function table fresh (s :: rest) = .ok c ↔
      ∃ value later, renameValue (table.lookup function) s.value = .ok value ∧
        body renameValue function (table.insert s.target fresh.nextName.1) fresh.nextName.2 rest =
          .ok later ∧
        c = { later with body := ⟨fresh.nextName.1, value⟩ :: later.body } := by
  simp only [body_cons_eq, except_bind_eq_ok]
  constructor
  · rintro ⟨value, hvalue, later, hlater, ⟨⟩⟩
    exact ⟨value, later, hvalue, hlater, rfl⟩
  · rintro ⟨value, later, hvalue, hlater, rfl⟩
    exact ⟨value, hvalue, later, hlater, rfl⟩

/-- A converted body assigns the generated names in turn, and is ordered. -/
theorem body_ordered (h : body Expr.rename function table fresh stmts = .ok c)
    (hb : Current table fresh bound) :
    Ordered bound c.body ∧
      c.body.map Assignment.target =
        (List.range' fresh.issued stmts.length).map (nameAt fresh.stem) ∧
      c.fresh = { fresh with issued := fresh.issued + stmts.length } ∧
      Current c.table c.fresh ((c.body.map Assignment.target).reverse ++ bound) := by
  induction stmts generalizing table fresh bound c with
  | nil =>
      cases h
      exact ⟨trivial, rfl, rfl, hb⟩
  | cons s rest ih =>
      -- the new name is bound for the rest, and later names differ from it
      rcases body_cons.1 h with ⟨value, later, hvalue, hlater, rfl⟩
      rcases ih hlater (hb.insert s.target) with ⟨hordered, htargets, hfresh, hcurrent⟩
      refine ⟨⟨?_, hb.unissued _ (Nat.le_refl _), hordered⟩, ?_, ?_, ?_⟩
      · intro y hy
        rcases (mem_reads_rename hvalue).1 hy with ⟨x, _, hx⟩
        exact hb.mem x y (Renaming.lookup_eq_ok.1 hx)
      · simp only [List.map_cons, htargets, List.length_cons, List.range'_succ]
        rfl
      · rw [hfresh]
        simp only [nextName, List.length_cons]
        congr 1
        omega
      · simpa using hcurrent

/-- Every name of the list has a new name. -/
def Covers (table : Renaming) (names : List String) : Prop :=
  ∀ x ∈ names, ∃ y : String, table[x]? = some y

theorem Covers.insert {names : List String} (h : Covers table names) (x y : String) :
    Covers (table.insert x y) (x :: names) := by
  intro z hz
  rw [Std.HashMap.getElem?_insert]
  by_cases hname : x = z
  · exact ⟨y, if_pos (beq_iff_eq.2 hname)⟩
  · rw [if_neg (by simpa using hname)]
    exact h z ((List.mem_cons.1 hz).resolve_left (Ne.symm hname))

theorem Covers.exists_rename {names : List String} (h : Covers table names) (function : String)
    {e : Expr} (he : ∀ x ∈ e.reads, x ∈ names) :
    ∃ e', e.rename (table.lookup function) = .ok e' := by
  refine SingleAssignment.exists_rename ?_
  intro x hx
  rcases h x (he x hx) with ⟨y, hy⟩
  exact ⟨y, Renaming.lookup_eq_ok.2 hy⟩

/-- Names that are bound before they are read can be renamed. -/
theorem exists_body (function : String) (fresh : FreshNames) (h : Calc.Defined bound stmts)
    (htable : Covers table bound) :
    ∃ c, body Expr.rename function table fresh stmts = .ok c ∧
      Covers c.table ((stmts.map Assignment.target).reverse ++ bound) := by
  induction stmts generalizing table fresh bound with
  | nil =>
      exact ⟨_, rfl, htable⟩
  | cons s rest ih =>
      rcases htable.exists_rename function h.1 with ⟨value, hvalue⟩
      rcases ih fresh.nextName.2 h.2 (htable.insert s.target fresh.nextName.1) with
        ⟨later, hlater, hnames⟩
      exact ⟨_, body_cons.2 ⟨value, later, hvalue, hlater, rfl⟩, by simpa using hnames⟩

/-- Both runs end alike, whatever is done after them with environments that agree. -/
theorem execute_body_bind {α β : Type} (arith : Arithmetic α)
    {k k' : Environment α → Except (EvalError α) β}
    (h : body Expr.rename function table fresh stmts = .ok c) (hb : Current table fresh bound)
    {env env' : Environment α} (henv : Holds table env env')
    (hk : ∀ out out', Holds c.table out out' → k' out' = k out) :
    (Calc.execute arith env' c.body >>= k') = (Calc.execute arith env stmts >>= k) := by
  induction stmts generalizing table fresh bound c env env' with
  | nil =>
      cases h
      exact hk env env' henv
  | cons s rest ih =>
      rcases body_cons.1 h with ⟨value, later, hvalue, hlater, rfl⟩
      -- both statements have the same value, which is bound to the old and to the new name
      rw [Calc.execute_cons, Calc.execute_cons, bind_assoc, bind_assoc, evalWith_rename henv hvalue]
      refine bind_congr fun v => ?_
      exact ih hlater (hb.insert s.target) (henv.insert hb s.target v) hk

end Bodies

/-! ## Functions -/

/-- `g` computes what `f` does, and assigns the names over `stem` in turn, each before it is
read. -/
structure Converts (stem : String) (f g : Calc.Function) : Prop where
  params : g.params = f.params
  unowned : ∀ x ∈ f.params ++ f.targets, ¬ Numbered stem x
  ordered : Ordered g.params g.body
  targets : g.targets = (List.range g.body.length).map (nameAt stem)
  result : ∃ r, g.result = .var r ∧ (r ∈ g.params ∨ r ∈ g.targets)
  evalWith : ∀ {α : Type} (arith : Arithmetic α) (args : List α),
    g.evalWith arith args = f.evalWith arith args

theorem Converts.result_mem {stem : String} {f g : Calc.Function} (h : Converts stem f g)
    {r : String} (hr : g.result = .var r) : r ∈ g.params ∨ r ∈ g.targets := by
  rcases h.result with ⟨r', hr', hmem⟩
  rw [hr] at hr'
  injection hr' with hr'
  exact hr' ▸ hmem

/-- A converted function has a value over trees, and so has the original one. -/
theorem Converts.source_defined {stem : String} {f g : Calc.Function} (h : Converts stem f g) :
    f.Defined := by
  rcases h.result with ⟨r, hr, hmem⟩
  rcases exists_solves Expr.binary h.ordered Expr.var with ⟨value, _, hvalue⟩
  have hrun := evalWith_of_solves h.ordered hr hmem hvalue
  rw [h.evalWith] at hrun
  exact Calc.Function.defined_of_evalWith_ok hrun

theorem Renaming.getElem?_ofParams (params : List String) (x : String) :
    (Renaming.ofParams params)[x]? = if x ∈ params then some x else none := by
  have hfold : ∀ table : Renaming,
      (params.foldl (fun table p => table.insert p p) table)[x]? =
        if x ∈ params then some x else table[x]? := by
    induction params with
    | nil =>
        simp
    | cons p rest ih =>
        intro table
        rw [List.foldl_cons, ih, Std.HashMap.getElem?_insert]
        by_cases hp : p = x
        · simp [hp]
        · simp [hp, Ne.symm hp]
  rw [Renaming.ofParams, hfold]
  simp

theorem current_ofParams {stem : String} {params : List String}
    (h : ∀ p ∈ params, ¬ Numbered stem p) :
    Current (Renaming.ofParams params) (FreshNames.ofStem stem) params where
  mem := by
    intro x y hxy
    rw [Renaming.getElem?_ofParams] at hxy
    split at hxy
    · next hx =>
        cases hxy
        exact hx
    · cases hxy
  unissued := by
    intro k _ hmem
    exact h _ hmem (numbered_nameAt.2 rfl)

/-- Parameters are bound alike in the beginning. -/
theorem holds_ofParams {α : Type} {params : List String} {env : Environment α}
    (h : ∀ x ∈ params, ∃ v, env.lookup x = .ok v) : Holds (Renaming.ofParams params) env env := by
  intro x y hxy
  rw [Renaming.getElem?_ofParams] at hxy
  split at hxy
  · next hx =>
      cases hxy
      rcases h x hx with ⟨v, hv⟩
      exact ⟨v, hv, hv⟩
  · cases hxy

/-- The converted body, with what stands after it, returns what the original returns. -/
theorem evalWith_converted {α : Type} {arith : Arithmetic α} {f : Calc.Function} {stem : String}
    {c : Converted Expr} (more : List (Assignment Expr)) {result : Expr}
    (hunowned : ∀ p ∈ f.params, ¬ Numbered stem p)
    (hbody : body Expr.rename f.name (Renaming.ofParams f.params) (FreshNames.ofStem stem)
      f.body = .ok c)
    (hend : ∀ out out' : Environment α, Holds c.table out out' →
      (do let last ← Calc.execute arith out' more
          result.evalWith arith last) = f.result.evalWith arith out) (args : List α) :
    Calc.Function.evalWith arith { f with body := c.body ++ more, result } args =
      f.evalWith arith args := by
  let g : Calc.Function := { f with body := c.body ++ more, result }
  by_cases hlength : f.params.length = args.length
  · have hrun := execute_body_bind arith hbody (current_ofParams hunowned)
      (holds_ofParams (Calc.Function.binds_params hlength)) hend
    refine (Calc.Function.evalWith_of_length (f := g) hlength).trans ?_
    rw [Calc.Function.evalWith_of_length hlength, Calc.execute_append, bind_assoc]
    exact hrun
  · refine (Calc.Function.evalWith_of_length_ne (f := g) hlength).trans ?_
    rw [Calc.Function.evalWith_of_length_ne hlength]

end SingleAssignment

open SingleAssignment FreshNames

theorem Calc.Function.toSsa_eq_ok {f g : Calc.Function} :
    f.toSsa = .ok g ↔
      (FreshNames.ofStem (calcStem f.name)).checkUnowned (f.params ++ f.targets) = .ok () ∧
      ∃ c result, body Expr.rename f.name (Renaming.ofParams f.params)
          (FreshNames.ofStem (calcStem f.name)) f.body = .ok c ∧
        f.result.rename (c.table.lookup f.name) = .ok result ∧
        g = { f with
          body := c.body ++ [⟨c.fresh.nextName.1, result⟩]
          result := .var c.fresh.nextName.1 } := by
  simp only [Calc.Function.toSsa, except_bind_eq_ok, pure, Except.pure,
    Except.ok.injEq]
  constructor
  · rintro ⟨⟨⟩, hcheck, c, hc, result, hresult, rfl⟩
    exact ⟨hcheck, c, result, hc, hresult, rfl⟩
  · rintro ⟨hcheck, c, result, hc, hresult, rfl⟩
    exact ⟨⟨⟩, hcheck, c, hc, result, hresult, rfl⟩

theorem exists_body_ofParams {f : Calc.Function} (h : f.Defined) (fresh : FreshNames) :
    ∃ c, body Expr.rename f.name (Renaming.ofParams f.params) fresh f.body = .ok c ∧
      ∃ result, f.result.rename (c.table.lookup f.name) = .ok result := by
  have htable : Covers (Renaming.ofParams f.params) f.params := by
    intro x hx
    exact ⟨x, by rw [Renaming.getElem?_ofParams, if_pos hx]⟩
  rcases exists_body f.name fresh h.1 htable with ⟨c, hc, hnames⟩
  exact ⟨c, hc, hnames.exists_rename f.name h.2⟩

theorem Calc.Function.exists_toSsa {f : Calc.Function} (h : f.Defined)
    (hcheck : (FreshNames.ofStem (calcStem f.name)).checkUnowned (f.params ++ f.targets) = .ok ()) :
    ∃ g, f.toSsa = .ok g := by
  rcases exists_body_ofParams h (FreshNames.ofStem (calcStem f.name)) with ⟨c, hc, result, hresult⟩
  exact ⟨_, toSsa_eq_ok.2 ⟨hcheck, c, result, hc, hresult, rfl⟩⟩

/-- Only a reserved name stands in the way of a defined function. -/
theorem Calc.Function.toSsa_error {f : Calc.Function} (h : f.Defined) {e : CompileError}
    (he : f.toSsa = .error e) : ∃ x ∈ f.params ++ f.targets, Numbered (calcStem f.name) x ∧
      e = .reservedName x (calcStem f.name) := by
  refine exists_reserved (exists_toSsa h) ?_ he
  intro e' hcheck
  rw [toSsa, hcheck]
  rfl

theorem Calc.Function.converts_toSsa {f g : Calc.Function} (h : f.toSsa = .ok g) :
    Converts (calcStem f.name) f g := by
  rcases toSsa_eq_ok.1 h with ⟨hcheck, c, result, hc, hresult, rfl⟩
  have hunowned := checkUnowned_ofStem.1 hcheck
  have hparams : ∀ p ∈ f.params, ¬ Numbered (calcStem f.name) p :=
    fun p hp => hunowned p (List.mem_append_left _ hp)
  rcases body_ordered hc (current_ofParams hparams) with ⟨hordered, htargets, hfresh, hcurrent⟩
  have hlength : c.body.length = f.body.length := by
    simpa using congrArg List.length htargets
  refine ⟨rfl, hunowned, ?_, ?_, ?_, ?_⟩
  · -- the statement for the result reads renamed names and assigns the next one
    refine ordered_append.2 ⟨hordered, ⟨?_, hcurrent.unissued _ (Nat.le_refl _), trivial⟩⟩
    intro y hy
    rcases (mem_reads_rename hresult).1 hy with ⟨x, _, hx⟩
    exact hcurrent.mem x y (Renaming.lookup_eq_ok.1 hx)
  · simp only [Program.targets, List.map_append, htargets, List.length_append, hlength, hfresh,
      List.map_cons, List.map_nil, List.length_singleton, List.range_succ, List.range_eq_range']
    simp [FreshNames.nextName, FreshNames.ofStem]
  · exact ⟨_, rfl, Or.inr (by simp [Program.targets])⟩
  · intro α arith args
    refine evalWith_converted _ hparams hc ?_ args
    intro out out' hout
    rw [← evalWith_rename hout hresult]
    exact Calc.execute_last out' _ result

/-! ## Three addresses -/

namespace SingleAssignment

/-- Converted statements in three addresses, read as expressions. -/
def Converted.toCalc (c : Converted Tac.Value) : Converted Expr :=
  { c with body := c.body.map (Assignment.map Tac.Value.expr) }

theorem rename_expr {ε : Type} (name : String → Except ε String) (v : Tac.Value) :
    v.expr.rename name = (v.rename name).map Tac.Value.expr := by
  cases v with
  | copy source =>
      simp only [Tac.Value.expr, Expr.rename, Tac.Value.rename]
      cases name source <;> rfl
  | binary op left right =>
      simp only [Tac.Value.expr, Expr.rename, Tac.Value.rename]
      cases name left with
      | error e =>
          rfl
      | ok l =>
          cases name right <;> rfl

theorem body_toCalc (function : String) (stmts : List (Assignment Tac.Value)) :
    ∀ (table : Renaming) (fresh : FreshNames),
      body Expr.rename function table fresh (stmts.map (Assignment.map Tac.Value.expr)) =
        (body Tac.Value.rename function table fresh stmts).map Converted.toCalc := by
  induction stmts with
  | nil =>
      intro table fresh
      rfl
  | cons s rest ih =>
      intro table fresh
      simp only [body, List.map_cons, Assignment.map, rename_expr, ih]
      cases s.value.rename (table.lookup function) with
      | error e =>
          rfl
      | ok value =>
          simp only [Except.map]
          cases body Tac.Value.rename function (table.insert s.target fresh.nextName.1)
              fresh.nextName.2 rest <;> rfl

/-- The conversion of values is the conversion of the expressions that they are. -/
theorem body_toCalc_eq_ok {function : String} {table : Renaming} {fresh : FreshNames}
    {stmts : List (Assignment Tac.Value)} {c : Converted Tac.Value}
    (h : body Tac.Value.rename function table fresh stmts = .ok c) :
    body Expr.rename function table fresh (stmts.map (Assignment.map Tac.Value.expr)) =
      .ok c.toCalc := by
  rw [body_toCalc, h]
  rfl

end SingleAssignment

theorem Tac.Function.toSsa_eq_ok {f g : Tac.Function} :
    f.toSsa = .ok g ↔
      (FreshNames.ofStem (tacStem f.name)).checkUnowned (f.params ++ f.targets) = .ok () ∧
      ∃ c result, body Tac.Value.rename f.name (Renaming.ofParams f.params)
          (FreshNames.ofStem (tacStem f.name)) f.body = .ok c ∧
        c.table.lookup f.name f.result = .ok result ∧
        g = { f with body := c.body, result } := by
  simp only [Tac.Function.toSsa, except_bind_eq_ok, pure, Except.pure, Except.ok.injEq]
  constructor
  · rintro ⟨⟨⟩, hcheck, c, hc, result, hresult, rfl⟩
    exact ⟨hcheck, c, result, hc, hresult, rfl⟩
  · rintro ⟨hcheck, c, result, hc, hresult, rfl⟩
    exact ⟨⟨⟩, hcheck, c, hc, result, hresult, rfl⟩

theorem Tac.Function.targets_toCalc (f : Tac.Function) : f.toCalc.targets = f.targets := by
  simp [Program.targets, Tac.Function.toCalc, Program.map, Assignment.map]

theorem Tac.Function.exists_toSsa {f : Tac.Function} (h : f.toCalc.Defined)
    (hcheck : (FreshNames.ofStem (tacStem f.name)).checkUnowned (f.params ++ f.targets) = .ok ()) :
    ∃ g, f.toSsa = .ok g := by
  rcases exists_body_ofParams h (FreshNames.ofStem (tacStem f.name)) with ⟨c, hc, result, hresult⟩
  have hmap := body_toCalc f.name f.body (Renaming.ofParams f.params)
    (FreshNames.ofStem (tacStem f.name))
  cases hbody : body Tac.Value.rename f.name (Renaming.ofParams f.params)
      (FreshNames.ofStem (tacStem f.name)) f.body with
  | error e =>
      rw [hbody] at hmap
      cases hmap.symm.trans hc
  | ok d =>
      rw [hbody] at hmap
      cases hmap.symm.trans hc
      rcases except_bind_eq_ok.1 hresult with ⟨y, hy, _⟩
      exact ⟨_, toSsa_eq_ok.2 ⟨hcheck, d, y, hbody, hy, rfl⟩⟩

theorem Tac.Function.toSsa_error {f : Tac.Function} (h : f.toCalc.Defined) {e : CompileError}
    (he : f.toSsa = .error e) : ∃ x ∈ f.params ++ f.targets, Numbered (tacStem f.name) x ∧
      e = .reservedName x (tacStem f.name) := by
  refine exists_reserved (exists_toSsa h) ?_ he
  intro e' hcheck
  rw [toSsa, hcheck]
  rfl

theorem Tac.Function.converts_toSsa {f g : Tac.Function} (h : f.toSsa = .ok g) :
    Converts (tacStem f.name) f.toCalc g.toCalc := by
  rcases toSsa_eq_ok.1 h with ⟨hcheck, c, result, hc, hresult, rfl⟩
  have hunowned : ∀ x ∈ f.toCalc.params ++ f.toCalc.targets, ¬ Numbered (tacStem f.name) x := by
    rw [f.targets_toCalc]
    exact checkUnowned_ofStem.1 hcheck
  have hparams : ∀ p ∈ f.toCalc.params, ¬ Numbered (tacStem f.name) p :=
    fun p hp => hunowned p (List.mem_append_left _ hp)
  have hbody : body Expr.rename f.toCalc.name (Renaming.ofParams f.toCalc.params)
      (FreshNames.ofStem (tacStem f.name)) f.toCalc.body = .ok c.toCalc := body_toCalc_eq_ok hc
  rcases body_ordered hbody (current_ofParams hparams) with ⟨hordered, htargets, _, hcurrent⟩
  have hlength : c.toCalc.body.length = f.toCalc.body.length := by
    simpa using congrArg List.length htargets
  have hlookup : c.toCalc.table[f.result]? = some result := Renaming.lookup_eq_ok.1 hresult
  refine ⟨rfl, hunowned, hordered, ?_, ⟨result, rfl, ?_⟩, ?_⟩
  · change c.toCalc.body.map Assignment.target = (List.range c.toCalc.body.length).map _
    rw [htargets, hlength, List.range_eq_range']
    rfl
  · rcases List.mem_append.1 (hcurrent.mem _ _ hlookup) with hmem | hmem
    · exact Or.inr (List.mem_reverse.1 hmem)
    · exact Or.inl hmem
  · intro α arith args
    have hend : ∀ out out' : Environment α, Holds c.toCalc.table out out' →
        (do let last ← Calc.execute arith out' []
            (Expr.var result).evalWith arith last) = f.toCalc.result.evalWith arith out := by
      intro out out' hout
      rcases hout _ _ hlookup with ⟨v, hv, hv'⟩
      exact hv'.trans hv.symm
    have heval := evalWith_converted [] hparams hbody hend args
    rw [List.append_nil] at heval
    exact heval

end StraightLine
