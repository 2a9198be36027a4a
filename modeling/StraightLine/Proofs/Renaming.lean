import StraightLine.Proofs.Validation

/-!
# Renaming — a question does not depend on the names of local variables

A conversion only looks up what a name stands for. If every name is exchanged for another one, and
different names for different ones, both runs of the conversion keep tables that give the same
answers, and they generate the same names. Only the checks for reserved names look at the names
themselves.

* `Calc.Function.renamed`, `Tac.Function.renamed` — a function over other names;
* `SingleAssignment.Mirrors` — two tables that give the same answers;
* `SingleAssignment.body_renamed` — the conversion of a body keeps this;
* `Calc.Function.toSsa_renamed`, `Tac.Function.toSsa_renamed` — the converted functions are equal;
* `Query.RenamesLocals` — renamings that a question does not notice;
* `Query.build_renamed` — the question and every answer to it are the same.
-/

namespace StraightLine

open SingleAssignment FreshNames

/-! ## Functions over other names -/

namespace Expr

/-- The expression over other names. -/
def renamed (ρ : String → String) : Expr → Expr
  | var x => var (ρ x)
  | binary op left right => binary op (left.renamed ρ) (right.renamed ρ)

theorem reads_renamed (ρ : String → String) (e : Expr) : (e.renamed ρ).reads = e.reads.map ρ := by
  induction e with
  | var x => rfl
  | binary op left right ihl ihr => rw [renamed, reads, ihl, ihr, reads, List.map_append]

theorem depth_renamed (ρ : String → String) (e : Expr) : (e.renamed ρ).depth = e.depth := by
  rw [depth_eq_height, depth_eq_height]
  induction e with
  | var x => rfl
  | binary op left right ihl ihr => rw [renamed, height, ihl, ihr, height]

end Expr

namespace Tac.Value

/-- The right-hand side over other names. -/
def renamed (ρ : String → String) : Value → Value
  | copy x => copy (ρ x)
  | binary op left right => binary op (ρ left) (ρ right)

theorem reads_renamed (ρ : String → String) (v : Value) :
    (v.renamed ρ).reads = v.reads.map ρ := by
  cases v <;> rfl

end Tac.Value

/-- The program over other names; `onValue` and `onResult` exchange those on right-hand sides and
in the result. -/
def Program.renamed {V R : Type} (ρ : String → String) (onValue : V → V) (onResult : R → R)
    (p : Program V R) : Program V R :=
  { name := p.name
    params := p.params.map ρ
    body := p.body.map fun s => ⟨ρ s.target, onValue s.value⟩
    result := onResult p.result }

theorem Program.params_renamed {V R : Type} {ρ : String → String} {onValue : V → V}
    {onResult : R → R} {p : Program V R} (h : ∀ x ∈ p.params, ρ x = x) :
    (p.renamed ρ onValue onResult).params = p.params := by
  rw [renamed, List.map_congr_left h, List.map_id']

def Calc.Function.renamed (ρ : String → String) (f : Calc.Function) : Calc.Function :=
  Program.renamed ρ (Expr.renamed ρ) (Expr.renamed ρ) f

def Tac.Function.renamed (ρ : String → String) (f : Tac.Function) : Tac.Function :=
  Program.renamed ρ (Tac.Value.renamed ρ) ρ f

theorem Calc.Function.names_renamed (ρ : String → String) (f : Calc.Function) :
    (f.renamed ρ).names = f.names.map ρ := by
  simp [names, renamed, Program.renamed, Expr.reads_renamed, List.flatMap_map, List.map_flatMap]

theorem Tac.Function.names_renamed (ρ : String → String) (f : Tac.Function) :
    (f.renamed ρ).names = f.names.map ρ := by
  simp [names, renamed, Program.renamed, Tac.Value.reads_renamed, List.flatMap_map,
    List.map_flatMap]

/-! ## Conversions of renamed functions -/

namespace SingleAssignment

variable {V : Type} {ρ : String → String} {names : List String} {table table' : Renaming}

/-- What a name stands for in one table, its other name stands for in the other. -/
def Mirrors (ρ : String → String) (names : List String) (table table' : Renaming) : Prop :=
  ∀ x ∈ names, ∀ y, table[x]? = some y → table'[ρ x]? = some y

theorem Mirrors.insert (h : Mirrors ρ names table table')
    (hinjective : ∀ x ∈ names, ∀ y ∈ names, ρ x = ρ y → x = y) {target : String}
    (htarget : target ∈ names) (name : String) :
    Mirrors ρ names (table.insert target name) (table'.insert (ρ target) name) := by
  intro x hx y hxy
  rw [Std.HashMap.getElem?_insert] at hxy ⊢
  by_cases heq : target = x
  · subst heq
    simpa using hxy
  · -- an older entry is hidden in neither table
    have hne : ρ target ≠ ρ x := fun h => heq (hinjective _ htarget _ hx h)
    rw [if_neg (by simpa using heq)] at hxy
    rw [if_neg (by simpa using hne)]
    exact h x hx y hxy

theorem Mirrors.lookup (h : Mirrors ρ names table table') (function : String) {x : String}
    (hx : x ∈ names) {y : String} (hy : table.lookup function x = .ok y) :
    table'.lookup function (ρ x) = .ok y :=
  Renaming.lookup_eq_ok.2 (h x hx y (Renaming.lookup_eq_ok.1 hy))

theorem mirrors_ofParams {params : List String} (h : ∀ p ∈ params, ρ p = p) :
    Mirrors ρ names (Renaming.ofParams params) (Renaming.ofParams (params.map ρ)) := by
  intro x _ y hxy
  rw [List.map_congr_left h, List.map_id']
  rw [Renaming.getElem?_ofParams] at hxy
  split at hxy
  · next hx =>
      rw [h x hx, Renaming.getElem?_ofParams, if_pos hx]
      exact hxy
  · cases hxy

/-- The renaming of right-hand sides depends only on what the names that are read become. -/
def Natural (ρ : String → String) (renameValue : RenameValue V) (reads : V → List String)
    (onValue : V → V) : Prop :=
  ∀ (name name' : String → Except CompileError String) (v v' : V),
    (∀ x ∈ reads v, ∀ y, name x = .ok y → name' (ρ x) = .ok y) →
      renameValue name v = .ok v' → renameValue name' (onValue v) = .ok v'

theorem natural_expr (ρ : String → String) : Natural ρ Expr.rename Expr.reads (Expr.renamed ρ) := by
  intro name name' e e' h he
  induction e generalizing e' with
  | var x =>
      rcases except_bind_eq_ok.1 he with ⟨y, hy, he⟩
      exact except_bind_eq_ok.2 ⟨y, h x (by simp [Expr.reads]) y hy, he⟩
  | binary op left right ihl ihr =>
      rcases except_bind_eq_ok.1 he with ⟨l, hl, he⟩
      rcases except_bind_eq_ok.1 he with ⟨r, hr, he⟩
      have hl' := ihl _ (fun x hx => h x (List.mem_append_left _ hx)) hl
      have hr' := ihr _ (fun x hx => h x (List.mem_append_right _ hx)) hr
      exact except_bind_eq_ok.2 ⟨l, hl', except_bind_eq_ok.2 ⟨r, hr', he⟩⟩

theorem natural_value (ρ : String → String) :
    Natural ρ Tac.Value.rename Tac.Value.reads (Tac.Value.renamed ρ) := by
  intro name name' v v' h hv
  cases v with
  | copy x =>
      rcases except_bind_eq_ok.1 hv with ⟨y, hy, hv⟩
      exact except_bind_eq_ok.2 ⟨y, h x (by simp [Tac.Value.reads]) y hy, hv⟩
  | binary op left right =>
      rcases except_bind_eq_ok.1 hv with ⟨l, hl, hv⟩
      rcases except_bind_eq_ok.1 hv with ⟨r, hr, hv⟩
      have hl' := h left (by simp [Tac.Value.reads]) l hl
      have hr' := h right (by simp [Tac.Value.reads]) r hr
      exact except_bind_eq_ok.2 ⟨l, hl', except_bind_eq_ok.2 ⟨r, hr', hv⟩⟩

/-- The conversions of a body and of the same body over other names go side by side: they make the
same statements, with tables that mirror each other. -/
theorem body_renamed {renameValue : RenameValue V} {reads : V → List String} {onValue : V → V}
    (hnatural : Natural ρ renameValue reads onValue)
    (hinjective : ∀ x ∈ names, ∀ y ∈ names, ρ x = ρ y → x = y) {function : String}
    {fresh : FreshNames} {stmts : List (Assignment V)}
    (hnames : ∀ s ∈ stmts, ∀ x ∈ s.target :: reads s.value, x ∈ names)
    (hmirrors : Mirrors ρ names table table') {c : Converted V}
    (h : body renameValue function table fresh stmts = .ok c) :
    ∃ last, body renameValue function table' fresh
        (stmts.map fun s => ⟨ρ s.target, onValue s.value⟩) = .ok { c with table := last } ∧
      Mirrors ρ names c.table last := by
  induction stmts generalizing table table' fresh c with
  | nil =>
      cases h
      exact ⟨table', rfl, hmirrors⟩
  | cons s rest ih =>
      rcases body_cons.1 h with ⟨value, later, hvalue, hlater, rfl⟩
      rcases List.forall_mem_cons.1 hnames with ⟨hs, hrest⟩
      -- the reads come first, and then the target is bound in both tables
      have hvalue' : renameValue (table'.lookup function) (onValue s.value) = .ok value := by
        refine hnatural _ _ _ _ (fun x hx y hy => ?_) hvalue
        exact hmirrors.lookup function (hs x (List.mem_cons_of_mem _ hx)) hy
      have hmirrors' := hmirrors.insert hinjective (hs _ List.mem_cons_self) fresh.nextName.1
      rcases ih hrest hmirrors' hlater with ⟨last, hlast, hmirrors''⟩
      exact ⟨last, body_cons.2 ⟨value, _, hvalue', hlast, rfl⟩, hmirrors''⟩

end SingleAssignment

/-- A renaming that keeps different names apart and leaves the parameters alone. -/
structure KeepsApart (ρ : String → String) (params names : List String) : Prop where
  injective : ∀ x ∈ names, ∀ y ∈ names, ρ x = ρ y → x = y
  params : ∀ p ∈ params, ρ p = p

namespace Calc.Function

variable {ρ : String → String} {f g : Function}

theorem toSsa_renamed (hρ : KeepsApart ρ f.params f.names)
    (hunowned : (ofStem (calcStem f.name)).checkUnowned (f.renamed ρ).names = .ok ())
    (h : f.toSsa = .ok g) : (f.renamed ρ).toSsa = .ok g := by
  rcases toSsa_eq_ok.1 h with ⟨_, c, result, hc, hresult, rfl⟩
  have hbody : ∀ s ∈ f.body, ∀ x ∈ s.target :: s.value.reads, x ∈ f.names := by
    intro s hs x hx
    exact List.mem_append_left _ (List.mem_append_right _ (List.mem_flatMap.2 ⟨s, hs, hx⟩))
  rcases body_renamed (natural_expr ρ) hρ.injective hbody (mirrors_ofParams hρ.params) hc with
    ⟨last, hlast, hmirrors⟩
  have hresult' : (f.result.renamed ρ).rename (last.lookup f.name) = .ok result := by
    refine natural_expr ρ _ _ _ _ (fun x hx y hy => ?_) hresult
    exact hmirrors.lookup f.name (List.mem_append_right _ hx) hy
  refine toSsa_eq_ok.2 ⟨?_, _, result, hlast, hresult', ?_⟩
  · rw [checkUnowned_eq_ok] at hunowned ⊢
    exact fun x hx => hunowned x (mem_names_of_bound hx)
  · -- the converted function has the parameters of the original, and nothing else of it
    have hparams : (f.renamed ρ).params = f.params := Program.params_renamed hρ.params
    rw [hparams]
    rfl

end Calc.Function

namespace Tac.Function

variable {ρ : String → String} {f g : Function}

theorem toSsa_renamed (hρ : KeepsApart ρ f.params f.names)
    (hunowned : (ofStem (tacStem f.name)).checkUnowned (f.renamed ρ).names = .ok ())
    (h : f.toSsa = .ok g) : (f.renamed ρ).toSsa = .ok g := by
  rcases toSsa_eq_ok.1 h with ⟨_, c, result, hc, hresult, rfl⟩
  have hbody : ∀ s ∈ f.body, ∀ x ∈ s.target :: s.value.reads, x ∈ f.names := by
    intro s hs x hx
    exact List.mem_append_left _ (List.mem_append_right _ (List.mem_flatMap.2 ⟨s, hs, hx⟩))
  rcases body_renamed (natural_value ρ) hρ.injective hbody (mirrors_ofParams hρ.params) hc with
    ⟨last, hlast, hmirrors⟩
  have hresult' : last.lookup f.name (ρ f.result) = .ok result :=
    hmirrors.lookup f.name (by simp [names]) hresult
  refine toSsa_eq_ok.2 ⟨?_, _, result, hlast, hresult', ?_⟩
  · rw [checkUnowned_eq_ok] at hunowned ⊢
    exact fun x hx => hunowned x (mem_names hx)
  · -- the converted function has the parameters of the original, and nothing else of it
    have hparams : (f.renamed ρ).params = f.params := Program.params_renamed hρ.params
    rw [hparams]
    rfl

end Tac.Function

/-! ## Questions about renamed functions -/

/-- The depths of all expressions, and so the error about them, stay the same. -/
theorem Limits.checkDepth_renamed (limits : Limits) (ρ : String → String) (f : Calc.Function) :
    limits.checkDepth (f.renamed ρ) = limits.checkDepth f := by
  have hexprs : (f.renamed ρ).exprs = f.exprs.map (Expr.renamed ρ) := by
    simp [Calc.Function.exprs, Calc.Function.renamed, Program.renamed]
  have hdepths : ∀ exprs : List Expr, limits.checkDepths f.name (exprs.map (Expr.renamed ρ)) =
      limits.checkDepths f.name exprs := by
    intro exprs
    induction exprs with
    | nil => rfl
    | cons e rest ih => simp only [List.map_cons, checkDepths, Expr.depth_renamed, ih]
  rw [checkDepth, hexprs]
  exact hdepths f.exprs

namespace Query

/-- A name that one of the two conversions may generate. -/
def Reserved (source : Calc.Function) (target : Tac.Function) (x : String) : Prop :=
  (ofStem (calcStem source.name)).owns x = true ∨ (ofStem (tacStem target.name)).owns x = true

instance (source : Calc.Function) (target : Tac.Function) (x : String) :
    Decidable (Reserved source target x) :=
  inferInstanceAs (Decidable (_ ∨ _))

/-- A renaming of one of the two functions, of which `names` are all names: it keeps them apart,
leaves the parameters alone, and brings in no reserved name. -/
structure RenamesLocals (source : Calc.Function) (target : Tac.Function)
    (params names : List String) (ρ : String → String) : Prop extends
    KeepsApart ρ params names where
  unreserved : ∀ x ∈ names, ρ x ∉ names → ¬ Reserved source target (ρ x)

variable {source : Calc.Function} {target : Tac.Function} {q : Query}

/-- Functions about which there is a question use no reserved name. -/
theorem not_reserved_of_build (h : build source target = .ok q) :
    (∀ x ∈ source.names, ¬ Reserved source target x) ∧
      ∀ x ∈ target.names, ¬ Reserved source target x := by
  rcases build_eq_ok.1 h with ⟨_, hdisjoint, gs, gt, _, hgs, hgt, _⟩
  rcases except_bind_eq_ok.1 hdisjoint with ⟨_, htarget, hsource⟩
  rw [checkUnowned_eq_ok] at htarget hsource
  -- the checks are about all names on the other side, and about the bound ones on this side
  have hcalc := Calc.Function.converts_toSsa hgs
  have htac := Tac.Function.converts_toSsa hgt
  constructor
  · rintro x hx (howns | howns)
    · exact hcalc.unowned x (Calc.Function.mem_names hcalc.source_defined hx)
        (owns_iff_numbered.1 howns)
    · rw [hsource x hx] at howns
      cases howns
  · rintro x hx (howns | howns)
    · rw [htarget x hx] at howns
      cases howns
    · rw [← Tac.Function.names_toCalc] at hx
      exact htac.unowned x (Calc.Function.mem_names htac.source_defined hx)
        (owns_iff_numbered.1 howns)

/-- What is not reserved stays so. -/
theorem RenamesLocals.checkUnowned {params names : List String} {ρ : String → String}
    (h : RenamesLocals source target params names ρ)
    (hnames : ∀ x ∈ names, ¬ Reserved source target x) :
    (ofStem (calcStem source.name)).checkUnowned (names.map ρ) = .ok () ∧
      (ofStem (tacStem target.name)).checkUnowned (names.map ρ) = .ok () := by
  have hmap : ∀ y ∈ names.map ρ, ¬ Reserved source target y := by
    intro y hy
    rcases List.mem_map.1 hy with ⟨x, hx, rfl⟩
    -- the names may be permuted, so the new name may be an old one
    by_cases hold : ρ x ∈ names
    · exact hnames _ hold
    · exact h.unreserved x hx hold
  constructor
  · refine checkUnowned_eq_ok.2 fun y hy => ?_
    exact Bool.not_eq_true _ ▸ fun howns => hmap y hy (Or.inl howns)
  · refine checkUnowned_eq_ok.2 fun y hy => ?_
    exact Bool.not_eq_true _ ▸ fun howns => hmap y hy (Or.inr howns)

/-- Other names for local variables leave the question about two functions as it is, with all that
it contains, and so a validator with any memory answers in the same way and remembers the same. -/
theorem build_renamed (h : build source target = .ok q) {ρ σ : String → String}
    (hρ : RenamesLocals source target source.params source.names ρ)
    (hσ : RenamesLocals source target target.params target.names σ) :
    build (source.renamed ρ) (target.renamed σ) = .ok q ∧
      ∀ v : Validator,
        v.validate (source.renamed ρ) (target.renamed σ) = v.validate source target := by
  have hbuild : build (source.renamed ρ) (target.renamed σ) = .ok q := by
    -- both conversions give what they gave before, and each side passes the checks of both
    rcases not_reserved_of_build h with ⟨hsource, htarget⟩
    rcases hρ.checkUnowned hsource with ⟨hcalcSource, htacSource⟩
    rcases hσ.checkUnowned htarget with ⟨hcalcTarget, htacTarget⟩
    rw [← Calc.Function.names_renamed] at hcalcSource htacSource
    rw [← Tac.Function.names_renamed] at hcalcTarget htacTarget
    rcases build_eq_ok.1 h with ⟨hparams, _, gs, gt, r, hgs, hgt, hr, rfl⟩
    refine build_eq_ok.2 ⟨?_, except_bind_eq_ok.2 ⟨_, hcalcTarget, htacSource⟩, gs, gt, r,
      Calc.Function.toSsa_renamed hρ.toKeepsApart hcalcSource hgs,
      Tac.Function.toSsa_renamed hσ.toKeepsApart htacTarget hgt, hr, rfl⟩
    have hsourceParams : (source.renamed ρ).params = source.params :=
      Program.params_renamed hρ.params
    have htargetParams : (target.renamed σ).params = target.params :=
      Program.params_renamed hσ.params
    rw [hsourceParams, htargetParams, hparams]
  refine ⟨hbuild, fun v => ?_⟩
  have hquery : v.query (source.renamed ρ) (target.renamed σ) = v.query source target := by
    rw [Validator.query, Validator.query, Limits.checkDepth_renamed, hbuild, h]
  rw [Validator.validate, hquery, Validator.validate]

/-- The local variable of the sample may get the name of one of its code, and two of these may be
exchanged. -/
theorem build_renamed_sample :
    let ρ : String → String := fun x => if x = "z" then "a" else x
    let σ : String → String := fun x => if x = "a" then "b" else if x = "b" then "a" else x
    ∃ q, build Calc.sample Tac.sample = .ok q ∧
      build (Calc.sample.renamed ρ) (Tac.sample.renamed σ) = .ok q ∧
      Calc.sample.renamed ρ ≠ Calc.sample ∧ Tac.sample.renamed σ ≠ Tac.sample := by
  intro ρ σ
  rcases exists_build_sample with ⟨q, hq⟩
  have hρ : RenamesLocals Calc.sample Tac.sample Calc.sample.params Calc.sample.names ρ :=
    ⟨⟨by decide +kernel, by decide +kernel⟩, by decide +kernel⟩
  have hσ : RenamesLocals Calc.sample Tac.sample Tac.sample.params Tac.sample.names σ :=
    ⟨⟨by decide +kernel, by decide +kernel⟩, by decide +kernel⟩
  exact ⟨q, hq, (build_renamed hq hρ hσ).1, by decide, by decide⟩

end Query

end StraightLine
