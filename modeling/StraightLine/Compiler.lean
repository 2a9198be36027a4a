import Std.Data.HashMap
import StraightLine.Digest
import StraightLine.Limits
import StraightLine.Lowering

/-!
# Compiler — checked lowering with a memory

A compiler remembers each function it has lowered under the digest of its written form. A refused
function leaves nothing behind.

* `Calc.Function.digest` — the key of a function;
* `Compiler.compile` — checks and lowers a function, or recalls it;
* `Compiler.compileSource` — the same from a source text.
-/

namespace StraightLine

/-- Digest of the written form. -/
def Calc.Function.digest (f : Calc.Function) : String :=
  Digest.ofText f.text

structure Compiler where
  limits : Limits
  lowered : Std.HashMap String Tac.Function

namespace Compiler

/-- A compiler that remembers nothing. -/
def ofLimits (limits : Limits) : Compiler :=
  { limits, lowered := ∅ }

/-- Number of remembered functions. -/
def cached (c : Compiler) : Nat :=
  c.lowered.size

def compile (c : Compiler) (f : Calc.Function) : Except CompileError Tac.Function × Compiler :=
  -- the checks come first, so a refused function is never recalled
  match c.limits.check f with
  | .error e => (.error e, c)
  | .ok () =>
      let key := f.digest
      match c.lowered[key]? with
      | some t => (.ok t, c)
      | none =>
          match f.lower with
          | .error e => (.error e, c)
          | .ok t => (.ok t, { c with lowered := c.lowered.insert key t })

/-- Reads a function within the compiler's depth limit and compiles it. -/
def compileSource (c : Compiler) (source : String) : Except CompileError Tac.Function × Compiler :=
  match Calc.parse c.limits.maxDepth source with
  | .error e => (.error e, c)
  | .ok f => c.compile f

end Compiler

end StraightLine
