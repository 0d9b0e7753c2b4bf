import KvCache.StateMachine

/-!
# Runs of the state machine

A replica applies log entries and serves reads in between. A run ends at
the first operation that raises: the engine repeats an entry whose apply
raises for as long as it is up.
-/

namespace KvCache

/-- What a replica is asked to do. Reads come with the local time. -/
inductive Op where
  | apply (entry : LogEntry)
  | get (username key : String) (atMs : Option Int) (nowMs : Int)
  | has (username key : String) (nowMs : Int)
  | ttl (username key : String) (nowMs : Int)
  | keys (username : String) (pattern : Option String) (nowMs : Int)
deriving DecidableEq

inductive Output where
  | applied (result : Result)
  | value (value : Option String)
  | flag (b : Bool)
  | seconds (n : Int)
  | names (l : List String)
deriving DecidableEq

/-- The entry an operation applies. -/
def Op.entry? : Op → Option LogEntry
  | .apply entry => some entry
  | _ => none

def Op.run (glob : String → String → Bool) : Op → M Output
  | .apply entry => do
    let r ← KvCache.apply entry
    pure (.applied r)
  | .get username key atMs nowMs => do
    let v ← getValue username key atMs nowMs
    pure (.value v)
  | .has username key nowMs => do
    let b ← KvCache.has username key nowMs
    pure (.flag b)
  | .ttl username key nowMs => do
    let n ← KvCache.ttl username key nowMs
    pure (.seconds n)
  | .keys username pattern nowMs => do
    let l ← KvCache.keys glob username pattern nowMs
    pure (.names l)

/-- The outcomes of operations, up to the first that raises, and the state
they leave. -/
def trace (glob : String → String → Bool) :
    CacheStateMachine → List Op → List (Except SmError Output) × CacheStateMachine
  | m, [] => ([], m)
  | m, op :: ops =>
    match (op.run glob).run m with
    | .ok out m' => (.ok out :: (trace glob m' ops).1, (trace glob m' ops).2)
    | .error e m' => ([.error e], m')

/-- The entries that operations apply. -/
def appliedEntries (ops : List Op) : List LogEntry := ops.filterMap Op.entry?

/-- Is this how an apply ends? (A read in RAM never raises.) -/
def ofApply : Except SmError Output → Bool
  | .ok (.applied _) => true
  | .ok _ => false
  | .error _ => true

/-- What the applies of a run returned or raised. -/
def applyOutcomes (outs : List (Except SmError Output)) : List (Except SmError Output) :=
  outs.filter ofApply

section trace

variable {glob : String → String → Bool} {m m' : CacheStateMachine} {op : Op} {ops : List Op}

theorem trace_cons_ok {out : Output} (h : (op.run glob).run m = .ok out m') :
    trace glob m (op :: ops) = (.ok out :: (trace glob m' ops).1, (trace glob m' ops).2) := by
  rw [trace, h]

theorem trace_cons_error {e : SmError} (h : (op.run glob).run m = .error e m') :
    trace glob m (op :: ops) = ([.error e], m') := by
  rw [trace, h]

/-- After applies that all return, the run goes on from the state they leave. -/
theorem trace_applyLog {log : List LogEntry} {rs : List Result}
    (h : (applyLog log).run m = .ok rs m') :
    (trace glob m (log.map Op.apply ++ ops)).2 = (trace glob m' ops).2 := by
  induction log generalizing m rs with
  | nil =>
      cases h
      rfl
  | cons entry log ih =>
      rw [applyLog, EStateM.run_bind] at h
      cases ha : (apply entry).run m with
      | error e m₁ =>
          rw [ha] at h
          cases h
      | ok r m₁ =>
          rw [ha] at h
          simp only [EStateM.run_bind] at h
          cases hl : (applyLog log).run m₁ with
          | error e m₂ =>
              rw [hl] at h
              cases h
          | ok rs' m₂ =>
              rw [hl] at h
              cases h
              have hop : ((Op.apply entry).run glob).run m = .ok (.applied r) m₁ := by
                rw [Op.run, EStateM.run_bind, ha]
                rfl
              rw [List.map_cons, List.cons_append, trace_cons_ok hop]
              exact ih hl

theorem appliedEntries_map (log : List LogEntry) : appliedEntries (log.map Op.apply) = log := by
  induction log with
  | nil => rfl
  | cons entry log ih =>
      rw [List.map_cons, appliedEntries, List.filterMap_cons]
      exact congrArg (entry :: ·) ih

end trace

end KvCache
