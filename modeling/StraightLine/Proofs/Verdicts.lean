import StraightLine.Proofs.Compiler.Recall
import StraightLine.Proofs.Sessions

/-!
# Verdicts — where the verdicts of a session come from

The oracle may answer every question differently, fail or stay silent. A validator with a memory
reports the first verdict that settled a question whenever the question comes again; every other
verdict is read off an answer to the question itself.

* `Answer.ReadsAs` — how an answer reads as a verdict;
* `Validator.Served` — everything that a request can do;
* `Validator.settled` — the verdicts of a session that settled their questions;
* `Validator.verdicts_after` — the memory is the first of these verdicts for each question;
* `Validator.report_after` — the next report, or error, of any session with any oracle.
-/

namespace StraightLine

open Smt

/-- How the answer of an oracle reads as a verdict. A failure is no verdict. -/
inductive Answer.ReadsAs (oracle : String) (timeoutMs : Nat) : Answer → Verdict → Prop where
  | unsat : ReadsAs oracle timeoutMs (.result .unsat) .pass
  | sat (m : Model) : ReadsAs oracle timeoutMs (.result (.sat m)) (.fail m)
  | unknown (reason : String) :
      ReadsAs oracle timeoutMs (.result (.unknown reason)) (.inconclusive reason)
  | silent : ReadsAs oracle timeoutMs .silent (.ofSilence oracle timeoutMs)

theorem Answer.failed_or_readsAs (oracle : String) (timeoutMs : Nat) (a : Answer) :
    (∃ e, a = .failed e) ∨ ∃ verdict, a.ReadsAs oracle timeoutMs verdict := by
  cases a with
  | result r =>
      cases r with
      | unsat =>
          exact Or.inr ⟨_, .unsat⟩
      | sat m =>
          exact Or.inr ⟨_, .sat m⟩
      | unknown reason =>
          exact Or.inr ⟨_, .unknown reason⟩
  | failed e =>
      exact Or.inl ⟨e, rfl⟩
  | silent =>
      exact Or.inr ⟨_, .silent⟩

/-- The digest of a question with the verdict that settles it, if the reply has one. -/
def conclusion? : Except ValidationError Report → Option (String × Verdict)
  | .ok report =>
      if report.verdict.isConclusive then some (report.queryHash, report.verdict) else none
  | .error _ => none

theorem lookup_conclusion? (report : Report) (hash : String) :
    (conclusion? (.ok report)).toList.lookup hash =
      if report.verdict.isConclusive ∧ report.queryHash = hash then some report.verdict
      else none := by
  by_cases hconclusive : report.verdict.isConclusive = true
  · by_cases hhash : report.queryHash = hash
    · simp [conclusion?, hconclusive, hhash]
    · simp [conclusion?, hconclusive, hhash, List.lookup_cons, beq_false_of_ne (Ne.symm hhash)]
  · simp [conclusion?, hconclusive]

namespace Validator

/-- The conclusive verdicts of a session in order, each with the digest of its question. -/
def settled (v : Validator) : List Request → List (String × Verdict)
  | [] => []
  | r :: rest => (conclusion? (r.serve v).1).toList ++ settled (r.serve v).2 rest

/-! ## One request -/

section Settle

variable {v : Validator} {q : Query}

theorem settle_of_failed {e : OracleError} (h : v.remembered? q.fingerprint = none)
    (hask : v.oracle.ask v.asked q.script = .failed e) :
    v.settle q = (.error (.oracle e), { v with asked := v.asked + 1 }) := by
  simp only [settle, h, ask, hask]

theorem settle_of_readsAs {verdict : Verdict} (h : v.remembered? q.fingerprint = none)
    (hask : (v.oracle.ask v.asked q.script).ReadsAs v.oracle.name v.timeoutMs verdict) :
    v.settle q = (.ok (v.report q q.fingerprint verdict false),
      { v with asked := v.asked + 1 }.remember q.fingerprint verdict) := by
  simp only [settle, h, ask]
  generalize v.oracle.ask v.asked q.script = a at hask
  cases hask <;> rfl

end Settle

section Prepared

variable (v : Validator) (r : Request)

@[simp] theorem oracle_prepared : (r.prepared v).oracle = v.oracle := by
  cases r <;> rfl

@[simp] theorem asked_prepared : (r.prepared v).asked = v.asked := by
  cases r <;> rfl

@[simp] theorem timeoutMs_prepared : (r.prepared v).timeoutMs = v.timeoutMs := by
  cases r <;> rfl

@[simp] theorem cacheVerdicts_prepared : (r.prepared v).cacheVerdicts = v.cacheVerdicts := by
  cases r <;> rfl

@[simp] theorem verdicts_prepared : (r.prepared v).verdicts = v.verdicts := by
  cases r <;> rfl

@[simp] theorem remembered?_prepared (hash : String) :
    (r.prepared v).remembered? hash = v.remembered? hash := by
  simp [remembered?]

@[simp] theorem report_prepared (q : Query) (hash : String) (verdict : Verdict) (cached : Bool) :
    (r.prepared v).report q hash verdict cached = v.report q hash verdict cached := by
  simp [report]

end Prepared

/-- Everything that a request can do: it leads to no question, its verdict is remembered, the oracle
fails at it, or the oracle's answer is reported. -/
inductive Served (v : Validator) (r : Request) :
    Except ValidationError Report × Validator → Prop where
  | unasked {e : CompileError} : r.question v = .error e →
      Served v r (.error (.compile e), r.prepared v)
  | recalled {q : Query} {verdict : Verdict} : r.question v = .ok q →
      v.cacheVerdicts = true → v.verdicts[q.fingerprint]? = some verdict →
      Served v r (.ok (v.report q q.fingerprint verdict true), r.prepared v)
  | failed {q : Query} {e : OracleError} : r.question v = .ok q →
      v.remembered? q.fingerprint = none → v.oracle.ask v.asked q.script = .failed e →
      Served v r (.error (.oracle e), { r.prepared v with asked := v.asked + 1 })
  | answered {q : Query} {verdict : Verdict} : r.question v = .ok q →
      v.remembered? q.fingerprint = none →
      (v.oracle.ask v.asked q.script).ReadsAs v.oracle.name v.timeoutMs verdict →
      Served v r (.ok (v.report q q.fingerprint verdict false),
        { r.prepared v with asked := v.asked + 1 }.remember q.fingerprint verdict)

theorem served_serve (v : Validator) (r : Request) : Served v r (r.serve v) := by
  rw [serve_eq]
  cases hq : r.question v with
  | error e =>
      exact .unasked hq
  | ok q =>
      have hprepared := remembered?_prepared v r q.fingerprint
      dsimp only
      cases hmemory : v.remembered? q.fingerprint with
      | some verdict =>
          rw [settle_of_remembered (hprepared.trans hmemory), report_prepared]
          unfold remembered? at hmemory
          split at hmemory
          · next hcache =>
              exact .recalled hq hcache hmemory
          · cases hmemory
      | none =>
          rcases (v.oracle.ask v.asked q.script).failed_or_readsAs v.oracle.name v.timeoutMs with
            ⟨e, hask⟩ | ⟨verdict, hask⟩
          · rw [settle_of_failed (hprepared.trans hmemory) (by simpa using hask)]
            simpa using Served.failed hq hmemory hask
          · rw [settle_of_readsAs (hprepared.trans hmemory) (by simpa using hask)]
            simpa using Served.answered hq hmemory hask

section Serve

variable {v : Validator} {r : Request}

/-- The oracle and the settings stay. -/
theorem settings_serve : (r.serve v).2.oracle = v.oracle ∧
    (r.serve v).2.timeoutMs = v.timeoutMs ∧ (r.serve v).2.cacheVerdicts = v.cacheVerdicts := by
  have hserved := served_serve v r
  generalize r.serve v = out at hserved
  cases hserved with
  | unasked _ | recalled _ _ _ | failed _ _ _ =>
      simp
  | answered _ _ _ =>
      unfold remember
      split <;> simp

/-- An error leaves the memory as it was, and the oracle has been asked at most once. -/
theorem serve_eq_error {e : ValidationError} (h : (r.serve v).1 = .error e) :
    (r.serve v).2.verdicts = v.verdicts ∧
      ((∃ e', e = .compile e' ∧ r.question v = .error e' ∧ (r.serve v).2.asked = v.asked) ∨
        ∃ e' q, e = .oracle e' ∧ r.question v = .ok q ∧
          v.oracle.ask v.asked q.script = .failed e' ∧ (r.serve v).2.asked = v.asked + 1) := by
  have hserved := served_serve v r
  generalize r.serve v = out at hserved h
  cases hserved with
  | unasked hquestion =>
      cases h
      exact ⟨verdicts_prepared v r, Or.inl ⟨_, rfl, hquestion, asked_prepared v r⟩⟩
  | failed hquestion _ hask =>
      cases h
      exact ⟨verdicts_prepared v r, Or.inr ⟨_, _, rfl, hquestion, hask, rfl⟩⟩
  | recalled _ _ _ | answered _ _ _ =>
      cases h

/-- A question that is remembered is answered from memory. -/
theorem serve_of_remembered {q : Query} {verdict : Verdict} (hquestion : r.question v = .ok q)
    (hmemory : v.remembered? q.fingerprint = some verdict) :
    (r.serve v).1 = .ok (v.report q q.fingerprint verdict true) ∧
      (r.serve v).2.asked = v.asked := by
  rw [← remembered?_prepared v r] at hmemory
  rw [serve_eq, hquestion]
  dsimp only
  rw [settle_of_remembered hmemory, report_prepared]
  exact ⟨rfl, asked_prepared v r⟩

/-- A report carries a verdict from memory, or what the oracle says to its question now. -/
theorem serve_eq_ok {report : Report} (h : (r.serve v).1 = .ok report) :
    ∃ q, r.question v = .ok q ∧ report.queryHash = q.fingerprint ∧
      ((report.cached = true ∧ v.remembered? q.fingerprint = some report.verdict ∧
          (r.serve v).2.asked = v.asked) ∨
        (report.cached = false ∧ v.remembered? q.fingerprint = none ∧
          (r.serve v).2.asked = v.asked + 1 ∧
          (v.oracle.ask v.asked q.script).ReadsAs v.oracle.name v.timeoutMs report.verdict)) := by
  have hserved := served_serve v r
  generalize r.serve v = out at hserved h
  cases hserved with
  | unasked _ | failed _ _ _ =>
      cases h
  | recalled hquestion hcache hmemory =>
      cases h
      refine ⟨_, hquestion, rfl, Or.inl ⟨rfl, ?_, asked_prepared v r⟩⟩
      rw [remembered?, if_pos hcache]
      exact hmemory
  | answered hquestion hmemory hask =>
      cases h
      refine ⟨_, hquestion, rfl, Or.inr ⟨rfl, hmemory, ?_, hask⟩⟩
      unfold remember
      split <;> rfl

/-- A verdict that settles its question is stored unless there is one already. -/
theorem verdicts_serve (hcache : v.cacheVerdicts = true) (hash : String) :
    (r.serve v).2.verdicts[hash]? =
      v.verdicts[hash]?.or ((conclusion? (r.serve v).1).toList.lookup hash) := by
  have hserved := served_serve v r
  generalize r.serve v = out at hserved
  cases hserved with
  | unasked _ | failed _ _ _ =>
      simp [conclusion?]
  | @recalled q verdict _ _ hmemory =>
      -- the verdict of the report is the stored one
      simp only [lookup_conclusion?, report, verdicts_prepared]
      by_cases hhash : q.fingerprint = hash
      · simp [← hhash, hmemory]
      · simp [hhash]
  | answered _ hmemory _ =>
      rw [remembered?, if_pos hcache] at hmemory
      rw [lookup_conclusion?]
      simp only [report, remember, cacheVerdicts_prepared, hcache, Bool.true_and,
        verdicts_prepared]
      split
      · next hconclusive =>
          rw [Std.HashMap.getElem?_insert]
          split
          · next hhash =>
              simp [hconclusive, ← eq_of_beq hhash, hmemory]
          · next hhash =>
              simp [mt beq_of_eq hhash]
      · next hconclusive =>
          simp [hconclusive]

theorem verdicts_serve_of_forgetful (hcache : v.cacheVerdicts = false) :
    (r.serve v).2.verdicts = v.verdicts := by
  have hserved := served_serve v r
  generalize r.serve v = out at hserved
  cases hserved with
  | unasked _ | recalled _ _ _ | failed _ _ _ =>
      simp
  | answered _ _ _ =>
      simp [remember, hcache]

end Serve

/-! ## Sessions -/

section Sessions

variable {v : Validator} {session : List Request}

theorem settings_after : (v.after session).oracle = v.oracle ∧
    (v.after session).timeoutMs = v.timeoutMs ∧
    (v.after session).cacheVerdicts = v.cacheVerdicts := by
  induction session generalizing v with
  | nil =>
      exact ⟨rfl, rfl, rfl⟩
  | cons r rest ih =>
      rcases settings_serve (v := v) (r := r) with ⟨horacle, htimeout, hcache⟩
      rcases ih (v := (r.serve v).2) with ⟨horacle', htimeout', hcache'⟩
      exact ⟨horacle'.trans horacle, htimeout'.trans htimeout, hcache'.trans hcache⟩

/-- The memory is the one from before, and for each other question the first verdict of the session
that settled it. -/
theorem verdicts_after (hcache : v.cacheVerdicts = true) (hash : String) :
    (v.after session).verdicts[hash]? = v.verdicts[hash]?.or ((v.settled session).lookup hash) := by
  induction session generalizing v with
  | nil =>
      simp [after, settled]
  | cons r rest ih =>
      rw [settled, List.lookup_append, ← Option.or_assoc, ← verdicts_serve hcache]
      exact ih (settings_serve.2.2.trans hcache)

theorem verdicts_after_of_forgetful (hcache : v.cacheVerdicts = false) :
    (v.after session).verdicts = v.verdicts := by
  induction session generalizing v with
  | nil =>
      rfl
  | cons r rest ih =>
      exact (ih (settings_serve.2.2.trans hcache)).trans (verdicts_serve_of_forgetful hcache)

theorem isConclusive_of_mem_settled {hash : String} {verdict : Verdict}
    (h : (hash, verdict) ∈ v.settled session) : verdict.isConclusive = true := by
  induction session generalizing v with
  | nil =>
      cases h
  | cons r rest ih =>
      rcases List.mem_append.1 h with h | h
      · have h := Option.mem_toList.1 h
        unfold conclusion? at h
        split at h
        · split at h
          · next hconclusive =>
              cases h
              exact hconclusive
          · cases h
        · cases h
      · exact ih h

theorem mem_settled_of_lookup {hash : String} {verdict : Verdict}
    (h : (v.settled session).lookup hash = some verdict) :
    (hash, verdict) ∈ v.settled session := by
  rcases List.lookup_eq_some_iff.1 h with ⟨before, rest, hsettled, _⟩
  rw [hsettled]
  exact List.mem_append_right _ List.mem_cons_self

end Sessions

section NewValidators

variable {settings : Settings} {oracle : Oracle} {session : List Request}

/-- A new validator remembers nothing, so what it stores are the first conclusive verdicts. -/
theorem verdicts_after_ofSettings (hash : String) :
    ((ofSettings settings oracle).after session).verdicts[hash]? =
      if settings.cacheVerdicts then ((ofSettings settings oracle).settled session).lookup hash
      else none := by
  cases hcache : settings.cacheVerdicts with
  | true =>
      rw [verdicts_after (by exact hcache)]
      simp [ofSettings]
  | false =>
      rw [verdicts_after_of_forgetful (by exact hcache)]
      simp [ofSettings]

theorem remembered_after (hash : String) :
    ((ofSettings settings oracle).after session).remembered? hash =
      if settings.cacheVerdicts then ((ofSettings settings oracle).settled session).lookup hash
      else none := by
  have hcache : ((ofSettings settings oracle).after session).cacheVerdicts =
      settings.cacheVerdicts := settings_after.2.2
  rw [remembered?, hcache, verdicts_after_ofSettings]
  split <;> rfl

theorem remembered_after_eq_some {hash : String} {verdict : Verdict} :
    ((ofSettings settings oracle).after session).remembered? hash = some verdict ↔
      settings.cacheVerdicts = true ∧
        ((ofSettings settings oracle).settled session).lookup hash = some verdict := by
  rw [remembered_after]
  cases settings.cacheVerdicts <;> simp

/-- A question is new unless some verdict of the session has settled it. -/
theorem remembered_after_eq_none {hash : String} :
    ((ofSettings settings oracle).after session).remembered? hash = none ↔
      ¬ (settings.cacheVerdicts = true ∧
        ∃ verdict, (hash, verdict) ∈ (ofSettings settings oracle).settled session) := by
  rw [remembered_after]
  split
  · next hcache =>
      simp only [List.lookup_eq_none_iff, bne_iff_ne, hcache, true_and, not_exists]
      constructor
      · intro hne verdict hmem
        exact hne _ hmem rfl
      · rintro hnew ⟨other, verdict⟩ hmem rfl
        exact hnew verdict hmem
  · next hcache =>
      simp [hcache]

theorem stored_after {hash : String} {verdict : Verdict}
    (h : ((ofSettings settings oracle).after session).verdicts[hash]? = some verdict) :
    verdict.isConclusive = true ∧ ∀ later : List Request,
      (((ofSettings settings oracle).after session).after later).verdicts[hash]? =
        some verdict := by
  have hstored := h
  rw [verdicts_after_ofSettings] at h
  split at h
  · next hcache =>
      refine ⟨isConclusive_of_mem_settled (mem_settled_of_lookup h), ?_⟩
      intro later
      rw [verdicts_after (settings_after.2.2.trans hcache), hstored]
      rfl
  · cases h

theorem cachedVerdicts_after : ((ofSettings settings oracle).after session).cachedVerdicts =
    if settings.cacheVerdicts then
      (((ofSettings settings oracle).settled session).map Prod.fst).toFinset.card
    else 0 := by
  split
  · next hcache =>
      refine size_eq_card fun hash => ?_
      rw [Std.HashMap.mem_iff_isSome_getElem?, verdicts_after_ofSettings, if_pos hcache,
        List.lookup_isSome_iff, List.mem_map]
      simp only [beq_iff_eq, @eq_comm _ hash]
  · next hcache =>
      have hcache : (ofSettings settings oracle).cacheVerdicts = false := by
        simpa [ofSettings] using hcache
      rw [cachedVerdicts, verdicts_after_of_forgetful hcache]
      rfl

/-- In a session with any oracle, a report is from memory exactly if an earlier verdict has settled
its question, and carries the first such verdict; a settled question always has such a report.
Otherwise the oracle is asked once, and its answer makes the verdict. An error leaves the memory as
it was. What is stored is conclusive and stays, and each digest that has such a verdict counts once.
Without caching nothing is stored. -/
theorem report_after (settings : Settings) (oracle : Oracle) (session : List Request)
    (r : Request) :
    let v := (ofSettings settings oracle).after session
    let settled := (ofSettings settings oracle).settled session
    let w := (r.serve v).2
    (∀ report, (r.serve v).1 = .ok report →
      ∃ q, r.question v = .ok q ∧ report.queryHash = q.fingerprint ∧
        (report.cached = true ↔
          settings.cacheVerdicts = true ∧ ∃ verdict, (report.queryHash, verdict) ∈ settled) ∧
        (report.cached = true →
          settled.lookup report.queryHash = some report.verdict ∧ w.asked = v.asked) ∧
        (report.cached = false → w.asked = v.asked + 1 ∧
          (oracle.ask v.asked q.script).ReadsAs oracle.name settings.timeoutMs report.verdict)) ∧
    (∀ q verdict, r.question v = .ok q → settings.cacheVerdicts = true →
      (q.fingerprint, verdict) ∈ settled →
      ∃ report, (r.serve v).1 = .ok report ∧ report.cached = true ∧ w.asked = v.asked) ∧
    (∀ e, (r.serve v).1 = .error e → w.verdicts = v.verdicts ∧
      ((∃ e', e = .compile e' ∧ r.question v = .error e' ∧ w.asked = v.asked) ∨
        ∃ e' q, e = .oracle e' ∧ r.question v = .ok q ∧
          oracle.ask v.asked q.script = .failed e' ∧ w.asked = v.asked + 1)) ∧
    (∀ (hash : String) (verdict : Verdict), v.verdicts[hash]? = some verdict →
      verdict.isConclusive = true ∧
        ∀ later : List Request, (v.after later).verdicts[hash]? = some verdict) ∧
    v.cachedVerdicts =
      if settings.cacheVerdicts then (settled.map Prod.fst).toFinset.card else 0 := by
  intro v settled w
  have hsettings : v.oracle = oracle ∧ v.timeoutMs = settings.timeoutMs ∧
      v.cacheVerdicts = settings.cacheVerdicts := settings_after
  rcases hsettings with ⟨horacle, htimeout, -⟩
  refine ⟨?_, ?_, ?_, fun hash verdict h => stored_after h, cachedVerdicts_after⟩
  · intro report hreport
    rcases serve_eq_ok hreport with ⟨q, hquestion, hhash, hcases⟩
    refine ⟨q, hquestion, hhash, ?_⟩
    rw [← hhash, horacle, htimeout] at hcases
    rcases hcases with ⟨hcached, hmemory, hasked⟩ | ⟨hcached, hmemory, hasked, hreads⟩
    · rcases remembered_after_eq_some.1 hmemory with ⟨hcache, hlookup⟩
      have hearlier := mem_settled_of_lookup hlookup
      refine ⟨⟨fun _ => ⟨hcache, _, hearlier⟩, fun _ => hcached⟩, fun _ => ⟨hlookup, hasked⟩, ?_⟩
      intro hfresh
      cases hfresh.symm.trans hcached
    · refine ⟨⟨?_, fun hearlier => absurd hearlier (remembered_after_eq_none.1 hmemory)⟩, ?_,
        fun _ => ⟨hasked, hreads⟩⟩
      · intro hrecalled
        cases hcached.symm.trans hrecalled
      · intro hrecalled
        cases hcached.symm.trans hrecalled
  · intro q verdict hquestion hcache hearlier
    cases hmemory : v.remembered? q.fingerprint with
    | none =>
        exact absurd ⟨hcache, verdict, hearlier⟩ (remembered_after_eq_none.1 hmemory)
    | some first =>
        rcases serve_of_remembered hquestion hmemory with ⟨hreport, hasked⟩
        exact ⟨_, hreport, rfl, hasked⟩
  · intro e he
    rw [← horacle]
    exact serve_eq_error he

end NewValidators

/-- Silent at first, then finds every question unsatisfiable. -/
def hesitant : Oracle :=
  { name := "hesitant"
    ask := fun k _ => if k = 0 then .silent else .result .unsat }

/-- Silence is not remembered, so the question is asked once more; the third time it is not. -/
theorem report_after_silence :
    let r := Request.pair Calc.sample Tac.sample
    let v := (ofSettings {} hesitant).after [r, r]
    ∃ report, (r.serve v).1 = .ok report ∧ report.verdict = .pass ∧ report.cached = true ∧
      (r.serve v).2.asked = v.asked ∧ v.cachedVerdicts = 1 := by
  intro r v
  rcases build_sample with ⟨q, hbuild, -⟩
  have hquestion : ∀ session, r.question ((ofSettings {} hesitant).after session) = .ok q :=
    fun session => question_pair ((limits_after _ session).symm ▸ Limits.checkDepth_sample) hbuild
  have hserve : ∀ session, r.serve ((ofSettings {} hesitant).after session) =
      ((ofSettings {} hesitant).after session).settle q := by
    intro session
    rw [serve_eq, hquestion session]
    rfl
  have hmemory : ∀ session, ((ofSettings {} hesitant).after session).remembered? q.fingerprint =
      ((ofSettings {} hesitant).settled session).lookup q.fingerprint :=
    fun session => remembered_after q.fingerprint
  have hfirst : r.serve (ofSettings {} hesitant) = _ :=
    (hserve []).trans (settle_of_readsAs (hmemory []) .silent)
  have hasked : ((ofSettings {} hesitant).after [r]).asked = 1 := by
    change (r.serve (ofSettings {} hesitant)).2.asked = 1
    rw [hfirst]
    rfl
  have hnew : ((ofSettings {} hesitant).settled [r]).lookup q.fingerprint = none := by
    rw [settled, hfirst]
    rfl
  have hpass : (((ofSettings {} hesitant).after [r]).oracle.ask
      ((ofSettings {} hesitant).after [r]).asked q.script).ReadsAs
        ((ofSettings {} hesitant).after [r]).oracle.name
        ((ofSettings {} hesitant).after [r]).timeoutMs .pass := by
    rw [settings_after.1, hasked]
    exact .unsat
  have hsecond : r.serve (r.serve (ofSettings {} hesitant)).2 = _ :=
    (hserve [r]).trans (settle_of_readsAs ((hmemory [r]).trans hnew) hpass)
  have hsettled : (ofSettings {} hesitant).settled [r, r] = [(q.fingerprint, .pass)] := by
    rw [settled, settled, hsecond, hfirst]
    rfl
  rcases report_after {} hesitant [r, r] r with ⟨hreport, hstored, _, _, hcount⟩
  rcases hstored q .pass (hquestion [r, r]) rfl (by simp [hsettled]) with
    ⟨report, hok, hcached, hasked⟩
  rcases hreport report hok with ⟨q', hquestion', hhash, _, hrecalled, _⟩
  cases (hquestion [r, r]).symm.trans hquestion'
  have hverdict : report.verdict = .pass := by
    simpa [hsettled, hhash, eq_comm] using (hrecalled hcached).1
  refine ⟨report, hok, hverdict, hcached, hasked, hcount.trans ?_⟩
  rw [hsettled]
  rfl

end Validator

end StraightLine
