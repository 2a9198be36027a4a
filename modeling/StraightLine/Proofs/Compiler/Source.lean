import StraightLine.Proofs.Calc.RoundTrip
import StraightLine.Proofs.Compiler.Recall

/-!
# Source — functions that are compiled from their written form

The compiler accepts every identifier as a name, and the keyword is spelled like one. A text has the
keyword once, in front of the result, so a function with a name of this spelling is written down as
no function at all. Every other accepted function is compiled from its written form as well.

* `Calc.count_returnWord` — derived tokens have the keyword once;
* `Calc.parse_text_iff` — which functions are read back;
* `Compiler.compileSource_text` — a function and its written form are compiled alike;
* `Compiler.compileSource_text_keyword` — a parameter that is spelled like the keyword.
-/

namespace StraightLine

namespace Calc

open Grammar

/-! ## The keyword in derived tokens -/

theorem Derives.returnWord_notMem {level : Nat} {ts : List Token} {e : Expr}
    (h : Derives level ts e) : .returnWord ∉ ts := by
  induction h with
  | name x =>
      simp
  | parens _ ih =>
      simpa using ih
  | atom _ ih | term _ ih =>
      exact ih
  | chain op _ _ ihl ihr =>
      simp [ihl, ihr]

theorem returnWord_notMem_names (names : List String) : .returnWord ∉ nameTokens names := by
  cases names <;> simp [nameTokens, moreTokens]

theorem returnWord_notMem_statements {ts : List Token} {body : List (Assignment Expr)}
    (h : Statements (Derives 1) ts body) : .returnWord ∉ ts := by
  induction h with
  | nil =>
      simp
  | cons hvalue _ ih =>
      simp [hvalue.returnWord_notMem, ih]

/-- The keyword stands in front of the result and nowhere else. -/
theorem count_returnWord {ts : List Token} {f : Function} (h : IsFunction ts f) :
    ts.count .returnWord = 1 := by
  rcases h with ⟨hbody, hresult⟩
  simp [headerTokens, List.count_eq_zero_of_not_mem, returnWord_notMem_names,
    returnWord_notMem_statements hbody, hresult.returnWord_notMem]

/-- A name that is spelled like the keyword is one more keyword. -/
theorem count_scanned (ts : List Token) : (scanned ts).count .returnWord =
    ts.count .returnWord + ts.count (.ident Token.keyword) := by
  induction ts with
  | nil =>
      rfl
  | cons t rest ih =>
      have hcons : scanned (t :: rest) = t.respelled :: scanned rest := rfl
      rw [hcons, List.count_cons, List.count_cons, List.count_cons, ih]
      cases t with
      | ident x =>
          by_cases hx : x = Token.keyword
          · simp [Token.respelled, Token.ofWord, hx]
            omega
          · simp [Token.respelled, Token.ofWord, hx]
      | returnWord =>
          simp [Token.respelled]
          omega
      | _ =>
          simp [Token.respelled]

/-! ## Functions that are read back -/

section ReadBack

variable {limit : Nat} {f : Function}

theorem isFunction_functionTokens (hdepth : ∀ e ∈ f.exprs, e.depth ≤ limit) :
    IsFunction (functionTokens f) f :=
  (isProgram_within_iff.1 (isProgram_functionTokens hdepth)).1

/-- The text of a function with a name that is spelled like the keyword is no function. -/
theorem keyword_notMem_of_parse (hf : f.Named) (hdepth : ∀ e ∈ f.exprs, e.depth ≤ limit)
    {g : Function} (h : parse limit f.text = .ok g) : Token.keyword ∉ f.name :: f.names := by
  rcases Token.exists_scan (scans_function hf) with ⟨lexemes, hscan, htokens⟩
  rcases parse_eq_ok.1 h with ⟨lexemes', hscan', hfunction, _⟩
  cases hscan.symm.trans hscan'
  rw [htokens] at hfunction
  have honce := count_returnWord hfunction
  rw [count_scanned, count_returnWord (isFunction_functionTokens hdepth)] at honce
  rw [← ident_mem_functionTokens]
  exact List.count_eq_zero.1 (by omega)

/-- Exactly the functions without such a name are read back. -/
theorem parse_text_iff (hf : f.Named) (hdepth : ∀ e ∈ f.exprs, e.depth ≤ limit) :
    parse limit f.text = .ok f ↔ Token.keyword ∉ f.name :: f.names := by
  constructor
  · exact keyword_notMem_of_parse hf hdepth
  · intro hkeyword
    refine parse_text_of_names ?_ hdepth
    intro x hx
    refine ⟨named_iff.1 hf x hx, ?_⟩
    rintro rfl
    exact hkeyword hx

end ReadBack

end Calc

namespace Compiler

section Text

variable {c : Compiler} {f : Calc.Function}

/-- A compiled function is there when it comes again. -/
theorem compile_again {t : Tac.Function} (h : (c.compile f).1 = .ok t) :
    ((c.compile f).2.compile f).1 = .ok t := by
  have houtcome := outcome_compile c f
  generalize c.compile f = out at houtcome h
  cases houtcome with
  | refused _ | failed _ _ _ =>
      cases h
  | recalled hcheck hkey =>
      simpa only [Compiler.compile, hcheck, hkey] using h
  | lowered hcheck _ _ =>
      simpa only [Compiler.compile, hcheck, Std.HashMap.getElem?_insert_self] using h

theorem compileSource_of_parse {source : String}
    (h : Calc.parse c.limits.maxDepth source = .ok f) : c.compileSource source = c.compile f := by
  rw [compileSource, h]

theorem compileSource_of_parse_error {source : String} {e : CompileError}
    (h : Calc.parse c.limits.maxDepth source = .error e) :
    c.compileSource source = (.error e, c) := by
  rw [compileSource, h]

end Text

/-- A function that is compiled after a session, and its written form, are the same to every
compiler with these limits, and are compiled to the same code. Only a function with a name that is
spelled like the keyword is not: its text is no function. -/
theorem compileSource_text (limits : Limits) (session : List Request) (f : Calc.Function)
    (t : Tac.Function) (ht : (((ofLimits limits).after session).compile f).1 = .ok t) :
    (Token.keyword ∉ f.name :: f.names →
      Calc.parse limits.maxDepth f.text = .ok f ∧
      (∀ c : Compiler, c.limits = limits → c.compileSource f.text = c.compile f) ∧
      ((((ofLimits limits).after session).compile f).2.compileSource f.text).1 = .ok t ∧
      ∀ session', Distinguishes limits (session ++ session') f →
        (((ofLimits limits).after session').compileSource f.text).1 = .ok t) ∧
    (Token.keyword ∈ f.name :: f.names →
      ∃ e, Calc.parse limits.maxDepth f.text = .error e ∧
        ∀ c : Compiler, c.limits = limits → c.compileSource f.text = (.error e, c)) := by
  have hlimits : ((ofLimits limits).after session).limits = limits := limits_after
  have hcheck : limits.check f = .ok () := hlimits ▸ check_of_compile ht
  have hnamed := (Limits.defined_of_check hcheck).2
  have hdepth := Limits.checkDepth_eq_ok.1 (Limits.check_eq_ok.1 hcheck).2.2.1
  constructor
  · intro hkeyword
    have hparse := (Calc.parse_text_iff hnamed hdepth).2 hkeyword
    have hsame : ∀ c : Compiler, c.limits = limits → c.compileSource f.text = c.compile f :=
      fun c hlimits => compileSource_of_parse (hlimits ▸ hparse)
    refine ⟨hparse, hsame, ?_, ?_⟩
    · rw [hsame _ ((limits_compile _ f).trans hlimits)]
      exact compile_again ht
    · intro session' hdigest
      have hearlier : Distinguishes limits session f :=
        fun r hr => hdigest r (List.mem_append_left _ hr)
      have hlater : Distinguishes limits session' f :=
        fun r hr => hdigest r (List.mem_append_right _ hr)
      rw [hsame _ limits_after]
      exact (compile_after_eq_ok hlater).2 ((compile_after_eq_ok hearlier).1 ht)
  · intro hkeyword
    cases hparse : Calc.parse limits.maxDepth f.text with
    | ok g =>
        exact absurd hkeyword (Calc.keyword_notMem_of_parse hnamed hdepth hparse)
    | error e =>
        exact ⟨e, rfl, fun c hlimits => compileSource_of_parse_error (hlimits ▸ hparse)⟩

/-- The sample is compiled from its text by a compiler that has not seen it. -/
theorem compileSource_text_sample :
    ((ofLimits {}).compileSource Calc.sample.text).1 = .ok (Calc.sample.lowered "z") := by
  have hkeyword : Token.keyword ∉ Calc.sample.name :: Calc.sample.names := by decide
  have h := (compileSource_text {} [.function Calc.sample] Calc.sample _ compile_sample_twice).1
    hkeyword
  exact h.2.2.2 [] (distinguishes_same _ _)

/-- The function that answers with its parameter can be compiled if the parameter is called like the
keyword, but its text is refused at this parameter. -/
theorem compileSource_text_keyword :
    let f := identity "f" Token.keyword
    ((ofLimits {}).compile f).1 = .ok (f.lowered Token.keyword) ∧
      f.text = "f(return){return return;}" ∧
      ((ofLimits {}).compileSource f.text).1 =
        .error (.syntaxFault 2 (.expected .identifier (some .returnWord))) := by
  intro f
  refine ⟨compile_identity "f" Token.keyword (by decide) (by decide) (by decide), by decide, ?_⟩
  have hparse : Calc.parse Calc.defaultMaxDepth f.text =
      .error (.syntaxFault 2 (.expected .identifier (some .returnWord))) := by
    decide +kernel
  rw [compileSource_of_parse_error (c := ofLimits {}) hparse]

end Compiler

end StraightLine
