/-!
# Programs — a list of assignments and a result

Both languages share this frame and differ in what may stand on the right of an assignment and
what may be returned.

* `Assignment Value` — one statement;
* `Program Value Result` — name, parameters, body and result;
* `Program.map` — the same program with other right-hand sides.
-/

namespace StraightLine

structure Assignment (Value : Type) where
  target : String
  value : Value
  deriving DecidableEq, Repr

structure Program (Value Result : Type) where
  name : String
  params : List String
  body : List (Assignment Value)
  result : Result
  deriving DecidableEq, Repr

namespace Assignment

variable {V W : Type}

def map (f : V → W) (s : Assignment V) : Assignment W :=
  { target := s.target, value := f s.value }

end Assignment

namespace Program

variable {V W R S : Type}

def map (onValue : V → W) (onResult : R → S) (p : Program V R) : Program W S :=
  { name := p.name
    params := p.params
    body := p.body.map (Assignment.map onValue)
    result := onResult p.result }

/-- The assigned names in statement order, with repeats. -/
def targets (p : Program V R) : List String :=
  p.body.map Assignment.target

/-- What is written before the body: the name and the parameters. -/
def headerText (p : Program V R) : String :=
  p.name ++ "(" ++ ", ".intercalate p.params ++ ")"

end Program

end StraightLine
