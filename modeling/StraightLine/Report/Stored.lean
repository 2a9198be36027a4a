import StraightLine.Json.Parser
import StraightLine.Report

/-!
# Report.Stored — reports that were written as JSON

A report is a record with eight fields. Its verdict is written as an object with the field
`status` beside the fields of the alternative, or as an array that starts with the status. A
verdict is read as a whole before its status is known, so everything in it has to be plain.

* `Verdict.ofJson?`, `Report.ofJson?` — the value that a JSON value stands for;
* `Report.parse?` — the report in a text.
-/

namespace StraightLine

open Smt

/-- The largest number of arrays and objects that may contain each other. -/
def Json.maxNesting : Nat := 127

/-- The values of a model are texts; of two with one name the later one stays. -/
def Smt.Model.ofJson? (j : Json) : Option Model := do
  let fields ← j.record? ["values"]
  match fields.lookup "values" with
  | some (.object entries) =>
      let entries ← entries.mapM fun e => do
        let name ← e.1
        let value ← e.2.string?
        return (name, value)
      return Model.ofList entries
  | _ => none

namespace Verdict

/-- The contents of a verdict with a given status. -/
def ofContents? (status : String) (contents : Json) : Option Verdict :=
  if status = "pass" then
    match contents with
    | .array (_ :: _) => none
    | _ => some pass
  else if status = "fail" then do
    let fields ← contents.record? ["model"]
    return fail (← fields.get? "model" Model.ofJson?)
  else if status = "inconclusive" then do
    let fields ← contents.record? ["reason"]
    return inconclusive (← fields.get? "reason" Json.string?)
  else none

/-- A verdict inside a report. -/
def ofJson? (j : Json) : Option Verdict :=
  if j.isPlain (Json.maxNesting - 1) then
    match j with
    | .object fields =>
        -- the status may stand anywhere, but only once
        match fields.partition fun f => f.1 == some "status" with
        | ([(_, status)], contents) => do
            ofContents? (← status.string?) (.object contents)
        | _ => none
    | .array (status :: contents) => do
        ofContents? (← status.string?) (.array contents)
    | _ => none
  else none

end Verdict

namespace Report

def ofJson? (j : Json) : Option Report := do
  let fields ← j.record? ["function", "verdict", "source_return", "target_return", "constraints",
    "oracle", "query_hash", "cached"]
  return {
    function := ← fields.get? "function" Json.string?
    verdict := ← fields.get? "verdict" Verdict.ofJson?
    sourceReturn := ← fields.get? "source_return" Json.string?
    targetReturn := ← fields.get? "target_return" Json.string?
    constraints := ← fields.get? "constraints" Json.natural?
    oracle := ← fields.get? "oracle" Json.string?
    queryHash := ← fields.get? "query_hash" Json.string?
    cached := ← fields.get? "cached" Json.bool? }

/-- The report in a text. -/
def parse? (text : String) : Option Report :=
  (Json.parse? text).bind ofJson?

end Report

end StraightLine
