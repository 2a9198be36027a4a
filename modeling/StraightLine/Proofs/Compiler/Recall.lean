import Mathlib.Data.Finset.Card
import StraightLine.Proofs.Compiler

/-!
# Recall — a compiler's memory is never seen

A compiler keeps exactly the functions that it has compiled, each under the digest of its written
form. So its answers are those of a compiler without a memory, and the memory is as large as the
number of different functions in it.

* `size_eq_card` — a table has as many entries as there are different keys;
* `Compiler.compiled` — what a session has compiled;
* `Compiler.mem_lowered_after` — the keys of the memory are the digests of what was compiled;
* `Compiler.serve_after` — the answer to a request, and the memory behind it, after any session.
-/

namespace StraightLine

/-- A table has an entry for each different key. -/
theorem size_eq_card {β : Type} {table : Std.HashMap String β} {keys : List String}
    (h : ∀ k, k ∈ table ↔ k ∈ keys) : table.size = keys.toFinset.card := by
  have hkeys : table.keys.toFinset = keys.toFinset := by
    ext k
    simp [h]
  rw [← Std.HashMap.length_keys, ← hkeys, List.toFinset_card_of_nodup Std.HashMap.nodup_keys]

namespace Compiler

/-! ## What a session compiles -/

/-- The functions that a session is about, in order. -/
def asked (limits : Limits) (session : List Request) : List Calc.Function :=
  session.filterMap (Request.function? limits)

/-- Functions of the session with one digest are written alike. -/
def Separates (limits : Limits) (session : List Request) : Prop :=
  ∀ f ∈ asked limits session, ∀ g ∈ asked limits session, f.digest = g.digest → f.text = g.text

instance (limits : Limits) (session : List Request) : Decidable (Separates limits session) :=
  inferInstanceAs (Decidable (∀ f ∈ asked limits session, ∀ g ∈ asked limits session,
    f.digest = g.digest → f.text = g.text))

/-- The function that a request has compiled, unless it has failed. -/
def Request.compiled? (c : Compiler) (r : Request) : Option Calc.Function :=
  match (r.serve c).1 with
  | .ok _ => r.function? c.limits
  | .error _ => none

/-- The functions that were compiled in a session, with repeats. -/
def compiled (c : Compiler) : List Request → List Calc.Function
  | [] => []
  | r :: rest => (r.compiled? c).toList ++ compiled (r.serve c).2 rest

/-! ## One request -/

section Serve

variable {c : Compiler} {r : Request}

/-- A request about a function is served by compiling it. -/
theorem serve_of_function? {f : Calc.Function} (h : r.function? c.limits = some f) :
    r.serve c = c.compile f := by
  cases r with
  | function g =>
      cases h
      rfl
  | source text =>
      simp only [Request.function?] at h
      simp only [Request.serve, compileSource]
      cases hparse : Calc.parse c.limits.maxDepth text with
      | error e =>
          rw [hparse] at h
          cases h
      | ok g =>
          rw [hparse] at h
          cases h
          rfl

/-- A text that is no function is refused, whatever the compiler remembers. -/
theorem serve_of_no_function (h : r.function? c.limits = none) :
    ∃ e, ∀ c' : Compiler, c'.limits = c.limits → r.serve c' = (.error e, c') := by
  cases r with
  | function g =>
      cases h
  | source text =>
      simp only [Request.function?] at h
      cases hparse : Calc.parse c.limits.maxDepth text with
      | error e =>
          refine ⟨e, fun c' hlimits => ?_⟩
          simp only [Request.serve, compileSource, hlimits, hparse]
      | ok g =>
          rw [hparse] at h
          cases h

theorem limits_serve : (r.serve c).2.limits = c.limits := by
  cases hr : r.function? c.limits with
  | none =>
      rcases serve_of_no_function hr with ⟨e, he⟩
      rw [he c rfl]
  | some f =>
      rw [serve_of_function? hr]
      exact limits_compile c f

/-- A failure leaves no trace. -/
theorem serve_of_error {e : CompileError} (h : (r.serve c).1 = .error e) : (r.serve c).2 = c := by
  cases hr : r.function? c.limits with
  | none =>
      rcases serve_of_no_function hr with ⟨e', he'⟩
      rw [he' c rfl]
  | some f =>
      rw [serve_of_function? hr] at h ⊢
      have houtcome := outcome_compile c f
      generalize c.compile f = out at houtcome h
      cases houtcome with
      | refused _ | failed _ _ _ =>
          rfl
      | recalled _ _ | lowered _ _ _ =>
          cases h

/-- Compiled functions have been checked, also those that come from memory. -/
theorem check_of_compile {f : Calc.Function} {t : Tac.Function} (h : (c.compile f).1 = .ok t) :
    c.limits.check f = .ok () := by
  have houtcome := outcome_compile c f
  generalize c.compile f = out at houtcome h
  cases houtcome with
  | refused _ | failed _ _ _ =>
      cases h
  | recalled hcheck _ | lowered hcheck _ _ =>
      exact hcheck

theorem check_of_compiled? {f : Calc.Function} (h : r.compiled? c = some f) :
    r.function? c.limits = some f ∧ c.limits.check f = .ok () := by
  unfold Request.compiled? at h
  split at h
  · next t ht =>
      rw [serve_of_function? h] at ht
      exact ⟨h, check_of_compile ht⟩
  · cases h

/-- A request adds the digest of what it has compiled, unless that is there already. -/
theorem mem_lowered_serve {key : String} : key ∈ (r.serve c).2.lowered ↔
    key ∈ c.lowered ∨ key ∈ ((r.compiled? c).toList.map Calc.Function.digest) := by
  unfold Request.compiled?
  cases hr : r.function? c.limits with
  | none =>
      rcases serve_of_no_function hr with ⟨e, he⟩
      simp [he c rfl]
  | some f =>
      rw [serve_of_function? hr]
      have houtcome := outcome_compile c f
      generalize c.compile f = out at houtcome
      cases houtcome with
      | refused _ | failed _ _ _ =>
          simp
      | recalled _ hkey =>
          have hmem : f.digest ∈ c.lowered := by
            simp [Std.HashMap.mem_iff_isSome_getElem?, hkey]
          simp only [Option.toList_some, List.map_cons, List.map_nil, List.mem_singleton]
          exact (or_iff_left_of_imp fun hkey => hkey ▸ hmem).symm
      | lowered _ _ _ =>
          simp only [Std.HashMap.mem_insert, beq_iff_eq, Option.toList_some, List.map_cons,
            List.map_nil, List.mem_singleton]
          rw [or_comm, eq_comm]

end Serve

/-! ## Sessions -/

section Sessions

variable {c : Compiler} {session : List Request} {r : Request}

theorem limits_after : (c.after session).limits = c.limits := by
  induction session generalizing c with
  | nil =>
      rfl
  | cons r rest ih =>
      exact ih.trans limits_serve

theorem after_append : c.after (session ++ [r]) = (r.serve (c.after session)).2 := by
  rw [after, List.foldl_append]
  rfl

/-- The keys of the memory are those from before and the digests of what has been compiled. -/
theorem mem_lowered_after {key : String} : key ∈ (c.after session).lowered ↔
    key ∈ c.lowered ∨ key ∈ (c.compiled session).map Calc.Function.digest := by
  induction session generalizing c with
  | nil =>
      simp [after, compiled]
  | cons r rest ih =>
      rw [compiled, List.map_append, List.mem_append, ← or_assoc, ← mem_lowered_serve]
      exact ih

/-- What a session has compiled is among what it was about, and was accepted. -/
theorem check_of_mem_compiled {f : Calc.Function} (h : f ∈ c.compiled session) :
    f ∈ asked c.limits session ∧ c.limits.check f = .ok () := by
  induction session generalizing c with
  | nil =>
      cases h
  | cons r rest ih =>
      rw [asked, List.filterMap_cons]
      rcases List.mem_append.1 h with h | h
      · rcases check_of_compiled? (Option.mem_toList.1 h) with ⟨hfunction, hcheck⟩
        rw [hfunction]
        exact ⟨List.mem_cons_self, hcheck⟩
      · rcases ih h with ⟨hasked, hcheck⟩
        rw [limits_serve] at hasked hcheck
        refine ⟨?_, hcheck⟩
        split
        · exact hasked
        · exact List.mem_cons_of_mem _ hasked

/-- Different functions are remembered under different digests, so each of them counts once. -/
theorem cached_after {limits : Limits} (hdigest : Separates limits session) :
    ((ofLimits limits).after session).cached =
      ((ofLimits limits).compiled session).toFinset.card := by
  have hinj : Set.InjOn Calc.Function.digest ((ofLimits limits).compiled session).toFinset := by
    intro f hf g hg hfg
    rcases check_of_mem_compiled (List.mem_toFinset.1 hf) with ⟨haskedf, hcheckf⟩
    rcases check_of_mem_compiled (List.mem_toFinset.1 hg) with ⟨haskedg, hcheckg⟩
    exact Calc.Function.text_inj (Limits.defined_of_check hcheckf).2
      (Limits.defined_of_check hcheckg).2 (hdigest f haskedf g haskedg hfg)
  have hkeys : ∀ key, key ∈ ((ofLimits limits).after session).lowered ↔
      key ∈ ((ofLimits limits).compiled session).map Calc.Function.digest := by
    intro key
    simp [mem_lowered_after, ofLimits]
  have himage : (((ofLimits limits).compiled session).map Calc.Function.digest).toFinset =
      ((ofLimits limits).compiled session).toFinset.image Calc.Function.digest := by
    ext key
    simp
  rw [cached, size_eq_card hkeys, himage, Finset.card_image_of_injOn hinj]

theorem Separates.distinguishes {limits : Limits} (h : Separates limits (session ++ [r]))
    {f : Calc.Function} (hf : r.function? limits = some f) : Distinguishes limits session f := by
  have hmem : ∀ {r' : Request} {g : Calc.Function}, r' ∈ session ++ [r] →
      r'.function? limits = some g → g ∈ asked limits (session ++ [r]) :=
    fun hr' hg => List.mem_filterMap.2 ⟨_, hr', hg⟩
  intro r' hr' g hg
  exact h g (hmem (List.mem_append_left _ hr') hg) f (hmem (by simp) hf)

end Sessions

/-- The answer of a compiler is that of a new one. -/
theorem answer_after {limits : Limits} {session : List Request} {r : Request}
    (hdigest : Separates limits (session ++ [r])) :
    (r.serve ((ofLimits limits).after session)).1 = (r.serve (ofLimits limits)).1 := by
  have hlimits : ((ofLimits limits).after session).limits = limits := limits_after
  cases hr : r.function? limits with
  | none =>
      rcases serve_of_no_function (c := ofLimits limits) hr with ⟨e, he⟩
      rw [he _ hlimits, he _ rfl]
  | some f =>
      -- both compilers answer with the lowered function
      have hnew : Distinguishes limits [] f := fun _ h => by cases h
      rw [serve_of_function? (hlimits.symm ▸ hr), serve_of_function? (c := ofLimits limits) hr,
        compile_after (hdigest.distinguishes hr)]
      exact (compile_after hnew).symm

theorem compiled_append {c : Compiler} {session : List Request} {r : Request} :
    c.compiled (session ++ [r]) =
      c.compiled session ++ (r.compiled? (c.after session)).toList := by
  induction session generalizing c with
  | nil =>
      simp [compiled, after]
  | cons r' rest ih =>
      rw [List.cons_append, compiled, compiled, ih, List.append_assoc]
      rfl

theorem Separates.initial {limits : Limits} {session later : List Request}
    (h : Separates limits (session ++ later)) : Separates limits session := by
  intro f hf g hg
  rw [Separates, asked, List.filterMap_append] at h
  exact h f (List.mem_append_left _ hf) g (List.mem_append_left _ hg)

/-- What a session compiles is what a new compiler would compile of it. -/
theorem mem_compiled {limits : Limits} {session : List Request} (hdigest : Separates limits session)
    {f : Calc.Function} : f ∈ (ofLimits limits).compiled session ↔
      f ∈ asked limits session ∧ ∃ t, ((ofLimits limits).compile f).1 = .ok t := by
  induction session using List.reverseRecOn with
  | nil =>
      simp [compiled, asked]
  | append_singleton rest r ih =>
      have hlast : f ∈ (r.compiled? ((ofLimits limits).after rest)).toList ↔
          f ∈ (r.function? limits).toList ∧ ∃ t, ((ofLimits limits).compile f).1 = .ok t := by
        rw [Request.compiled?, answer_after hdigest, limits_after, Option.mem_toList,
          Option.mem_toList]
        cases hr : r.function? limits with
        | none =>
            cases (r.serve (ofLimits limits)).1 <;> simp [ofLimits, hr]
        | some g =>
            rw [serve_of_function? (c := ofLimits limits) hr]
            cases hg : ((ofLimits limits).compile g).1 with
            | error e =>
                simp only [reduceCtorEq, Option.some.injEq, false_iff, not_and]
                rintro rfl ⟨t, ht⟩
                cases hg.symm.trans ht
            | ok t =>
                simp only [ofLimits, hr, Option.some.injEq, iff_self_and]
                rintro rfl
                exact ⟨t, hg⟩
      have hasked : asked limits (rest ++ [r]) =
          asked limits rest ++ (r.function? limits).toList := by
        rw [asked, List.filterMap_append]
        cases hr : r.function? limits <;> simp [asked, hr]
      rw [compiled_append, List.mem_append, hasked, List.mem_append, or_and_right,
        ih hdigest.initial, hlast]

/-- After any session a request is answered as by a compiler that remembers nothing, a failure
leaves the memory as it was, and there are as many functions in the memory as different ones have
been compiled. -/
theorem serve_after (limits : Limits) (session : List Request) (r : Request)
    (hdigest : Separates limits (session ++ [r])) :
    let c := (ofLimits limits).after session
    (r.serve c).1 = (r.serve (ofLimits limits)).1 ∧
      (∀ e, (r.serve c).1 = .error e → (r.serve c).2 = c) ∧
      (r.serve c).2.cached = ((ofLimits limits).compiled (session ++ [r])).toFinset.card := by
  refine ⟨answer_after hdigest, fun e he => serve_of_error he, ?_⟩
  rw [← after_append]
  exact cached_after hdigest

/-- Answers with its only argument. -/
def identity (name param : String) : Calc.Function :=
  { name, params := [param], body := [], result := .var param }

theorem compile_identity (name param : String) (hname : isIdentifier name = true)
    (hparam : isIdentifier param = true)
    (hunowned : (FreshNames.ofStem (Lowering.stem name)).checkUnowned
      (identity name param).lowerableNames = .ok ()) :
    ((ofLimits {}).compile (identity name param)).1 =
      .ok ((identity name param).lowered param) := by
  have hnew : Distinguishes {} [] (identity name param) := fun _ h => by cases h
  refine (compile_after_eq_ok hnew).2 ⟨?_, ?_⟩
  · refine Limits.check_eq_ok.2 ⟨hname, by simp [identity], ?_, ?_, ?_⟩
    · simp [Limits.checkDepth_eq_ok, identity, Calc.Function.exprs, Expr.depth_eq_height,
        Expr.height]
    · exact Calc.checkParams_eq_ok.2 (by simp [identity, hparam])
    · refine Calc.checkDefinitions_eq_ok.2 ⟨⟨trivial, ?_⟩, by simp [identity]⟩
      simp [identity, Expr.reads]
  · exact Calc.Function.lower_eq_ok.2
      ⟨param, rfl, FreshNames.checkUnowned_ofStem.1 hunowned, rfl⟩

/-- The first function comes twice, once in other layout, a text is no function, and then comes the
second function. -/
theorem serve_after_identities :
    let c := (ofLimits {}).after
      [.function (identity "f" "a"), .source "f(a) { return a; }", .source "f(a) { return a }"]
    ((Request.function (identity "g" "a")).serve c).1 = .ok ((identity "g" "a").lowered "a") ∧
      ((Request.function (identity "g" "a")).serve c).2.cached = 2 := by
  intro c
  have hasked : asked {} ([.function (identity "f" "a"), .source "f(a) { return a; }",
      .source "f(a) { return a }"] ++ [.function (identity "g" "a")]) =
        [identity "f" "a", identity "f" "a", identity "g" "a"] := by
    decide +kernel
  have hne : (identity "f" "a").digest ≠ (identity "g" "a").digest := by
    decide +kernel
  have hdigest : Separates {} ([.function (identity "f" "a"), .source "f(a) { return a; }",
      .source "f(a) { return a }"] ++ [.function (identity "g" "a")]) := by
    rw [Separates, hasked]
    simp [hne, hne.symm]
  rcases serve_after {} _ (.function (identity "g" "a")) hdigest with ⟨hanswer, _, hcached⟩
  have hf := compile_identity "f" "a" (by decide) (by decide) (by decide)
  have hg := compile_identity "g" "a" (by decide) (by decide) (by decide)
  refine ⟨hanswer.trans hg, hcached.trans ?_⟩
  have hcompiled : ((ofLimits {}).compiled ([.function (identity "f" "a"),
      .source "f(a) { return a; }", .source "f(a) { return a }"] ++
        [.function (identity "g" "a")])).toFinset = {identity "f" "a", identity "g" "a"} := by
    ext h
    rw [List.mem_toFinset, mem_compiled hdigest, hasked]
    simp only [List.mem_cons, List.not_mem_nil, or_false, Finset.mem_insert, Finset.mem_singleton]
    constructor
    · rintro ⟨rfl | rfl | rfl, _⟩
      · exact Or.inl rfl
      · exact Or.inl rfl
      · exact Or.inr rfl
    · rintro (rfl | rfl)
      · exact ⟨Or.inl rfl, _, hf⟩
      · exact ⟨Or.inr (Or.inr rfl), _, hg⟩
  rw [hcompiled]
  decide

end Compiler

end StraightLine
