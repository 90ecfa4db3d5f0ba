import Xv6.Log.Protocol

/-!
# What a step of the log protocol can do

`Step` has one constructor for each way a step can go, with the tests that lead there.
The invariants are read off it.
-/

namespace Xv6

namespace LogSys

namespace Pc

def holdsLog : Pc → Bool
  | .test | .sleep | .handOver | .wake | .unlock => true
  | _ => false

def holdsPtable : Pc → Bool
  | .handOver | .falling => true
  | _ => false

/-- Between `begin_op` and `end_op`. -/
def inOp : Pc → Bool
  | .op | .fits _ | .insert _ => true
  | _ => false

/-- In the part of `end_op` that commits. -/
def commits : Pc → Bool
  | .commit _ | .finish => true
  | _ => false

/-- Asleep on `&log`, or on the way there. -/
def sleeps : Pc → Bool
  | .sleep | .handOver | .falling | .asleep => true
  | _ => false

end Pc

variable {P : Type} [DecidableEq P]

inductive Step (s : LogSys P) : Act P → Option (Event P) → LogSys P → Prop
  | acquire {p : P} (hpc : s.pc p = .out) (hl : s.lock = none) :
      Step s (.beginOp p) none ({ s with lock := some p }.setPc p .test)
  | wait {p : P} (hpc : s.pc p = .test)
      (hw : s.log.committing = true ∨ s.log.mightExhaust = true) :
      Step s (.run p) none (s.setPc p .sleep)
  | begun {p : P} (hpc : s.pc p = .test) (hc : s.log.committing = false)
      (hx : s.log.mightExhaust = false) :
      Step s (.run p) (some (.begun p)) ({ s with
        log := { s.log with outstanding := s.log.outstanding + 1 }
        lock := none
        mine := Function.update s.mine p [] }.setPc p .op)
  | sleep {p : P} (hpc : s.pc p = .sleep) (ht : s.ptable = none) :
      Step s (.run p) none ({ s with ptable := some p }.setPc p .handOver)
  | handOver {p : P} (hpc : s.pc p = .handOver) :
      Step s (.run p) none ({ s with lock := none }.setPc p .falling)
  | fall {p : P} (hpc : s.pc p = .falling) :
      Step s (.run p) none ({ s with ptable := none }.setPc p .asleep)
  | woken {p : P} (hpc : s.pc p = .woken) (hl : s.lock = none) :
      Step s (.run p) none ({ s with lock := some p }.setPc p .test)
  | kill {p : P} (hpc : s.pc p = .asleep) (ht : s.ptable = none) :
      Step s (.kill p) none (s.setPc p .woken)
  | logWrite {p : P} {blockno : Nat} (hpc : s.pc p = .op) (hfit : s.log.tooBig = false) :
      Step s (.logWrite p blockno) none ({ s with
        handed := s.handed.insert blockno
        mine := Function.update s.mine p ((s.mine p).insert blockno) }.setPc p (.fits blockno))
  | fits {p : P} {blockno : Nat} (hpc : s.pc p = .fits blockno) (ho : ¬ s.log.outstanding < 1) :
      Step s (.run p) none (s.setPc p (.insert blockno))
  | insert {p : P} {blockno : Nat} (hpc : s.pc p = .insert blockno) (hl : s.lock = none) :
      Step s (.run p) (some (.logged p blockno))
        ({ s with log := s.log.record blockno }.setPc p .op)
  | endLast {p : P} (hpc : s.pc p = .op) (hl : s.lock = none) (hc : s.log.committing = false)
      (ho : s.log.outstanding - 1 = 0) :
      Step s (.endOp p) (some (.ended p)) ({ s with
        log := { s.log with outstanding := s.log.outstanding - 1, committing := true } }.setPc p
          (.commit .start))
  | endOther {p : P} (hpc : s.pc p = .op) (hl : s.lock = none) (hc : s.log.committing = false)
      (ho : s.log.outstanding - 1 ≠ 0) :
      Step s (.endOp p) (some (.ended p)) ({ s with
        log := { s.log with outstanding := s.log.outstanding - 1 }
        lock := some p }.setPc p .wake)
  | wake {p : P} (hpc : s.pc p = .wake) (ht : s.ptable = none) :
      Step s (.run p) none (s.wakeup.setPc p .unlock)
  | unlock {p : P} (hpc : s.pc p = .unlock) :
      Step s (.run p) none ({ s with lock := none }.setPc p .out)
  | start {p : P} (hpc : s.pc p = .commit .start) (hn : s.log.lh ≠ []) :
      Step s (.run p) (some .start) (s.setPc p (.commit (.writeLog 0)))
  | startEmpty {p : P} (hpc : s.pc p = .commit .start) (hn : s.log.lh = []) :
      Step s (.run p) (some .start) (s.setPc p .finish)
  | writeLog {p : P} {tail : Nat} (hpc : s.pc p = .commit (.writeLog tail))
      (ht : tail < s.log.lh.length) :
      Step s (.run p) (some (.wrote (s.log.start + tail + 1)))
        (s.setPc p (.commit (.writeLog (tail + 1))))
  | writeLogEnd {p : P} {tail : Nat} (hpc : s.pc p = .commit (.writeLog tail))
      (ht : ¬ tail < s.log.lh.length) : Step s (.run p) none (s.setPc p (.commit .writeHead))
  | writeHead {p : P} (hpc : s.pc p = .commit .writeHead) :
      Step s (.run p) (some (.commit s.log.lh)) (s.setPc p (.commit (.install 0)))
  | install {p : P} {tail : Nat} (hpc : s.pc p = .commit (.install tail))
      (ht : tail < s.log.lh.length) :
      Step s (.run p) none (s.setPc p (.commit (.install (tail + 1))))
  | installEnd {p : P} {tail : Nat} (hpc : s.pc p = .commit (.install tail))
      (ht : ¬ tail < s.log.lh.length) : Step s (.run p) none (s.setPc p (.commit .clear))
  | clear {p : P} (hpc : s.pc p = .commit .clear) :
      Step s (.run p) none
        ({ s with log := { s.log with lh := [] }, handed := [] }.setPc p (.commit .eraseHead))
  | eraseHead {p : P} (hpc : s.pc p = .commit .eraseHead) :
      Step s (.run p) none (s.setPc p .finish)
  | finish {p : P} (hpc : s.pc p = .finish) (hl : s.lock = none) :
      Step s (.run p) none
        ({ s with log := { s.log with committing := false }, lock := some p }.setPc p .wake)

inductive Panics (s : LogSys P) : Act P → Fault → Prop
  | tooBig {p : P} {blockno : Nat} (hpc : s.pc p = .op) (hb : s.log.tooBig = true) :
      Panics s (.logWrite p blockno) (.panic "too big a transaction")
  | outside {p : P} {blockno : Nat} (hpc : s.pc p = .fits blockno)
      (ho : s.log.outstanding < 1) : Panics s (.run p) (.panic "log_write outside of trans")
  | committing {p : P} (hpc : s.pc p = .op) (hl : s.lock = none)
      (hc : s.log.committing = true) : Panics s (.endOp p) (.panic "log.committing")

def Result (s : LogSys P) (a : Act P) : Outcome P → Prop
  | .ok (s', e) => Step s a e s'
  | .error f => Panics s a f

omit [DecidableEq P] in
theorem whenFree_eq_some {lock : Option P} {r r' : Outcome P} (h : whenFree lock r = some r') :
    lock = none ∧ r' = r := by
  unfold whenFree at h
  split at h
  · next hl => exact ⟨hl, (Option.some.inj h).symm⟩
  · cases h

variable {s : LogSys P} {p : P}

theorem beginTurn_result (hpc : s.pc p = .test) : Result s (.run p) (s.beginTurn p) := by
  unfold beginTurn
  split
  · next hc => exact .wait hpc (Or.inl hc)
  · next hc =>
    split
    · next hx => exact .wait hpc (Or.inr hx)
    · next hx => exact .begun hpc (Bool.not_eq_true _ ▸ hc) (Bool.not_eq_true _ ▸ hx)

theorem endTurn_result (hpc : s.pc p = .op) (hl : s.lock = none) :
    Result s (.endOp p) (s.endTurn p) := by
  unfold endTurn
  dsimp only
  split
  · next hc => exact .committing hpc hl hc
  · next hc =>
    have hc' : s.log.committing = false := Bool.not_eq_true _ ▸ hc
    split
    · next ho => exact .endLast hpc hl hc' ho
    · next ho => exact .endOther hpc hl hc' ho

theorem commitTurn_result {k : Commit} (hpc : s.pc p = .commit k) :
    Result s (.run p) (s.commitTurn p k) := by
  cases k with
  | start =>
    rw [commitTurn]
    split
    · next hn => exact .start hpc (List.ne_nil_of_length_pos hn)
    · next hn => exact .startEmpty hpc (List.eq_nil_of_length_eq_zero (by omega))
  | writeLog tail =>
    rw [commitTurn]
    split
    · next ht => exact .writeLog hpc ht
    · next ht => exact .writeLogEnd hpc ht
  | writeHead => exact .writeHead hpc
  | install tail =>
    rw [commitTurn]
    split
    · next ht => exact .install hpc ht
    · next ht => exact .installEnd hpc ht
  | clear => exact .clear hpc
  | eraseHead => exact .eraseHead hpc

theorem runTurn_result {k : Pc} {r : Outcome P} (hpc : s.pc p = k)
    (h : s.runTurn p k = some r) : Result s (.run p) r := by
  cases k with
  | test => cases h; exact beginTurn_result hpc
  | sleep =>
    obtain ⟨ht, rfl⟩ := whenFree_eq_some h
    exact .sleep hpc ht
  | handOver => cases h; exact .handOver hpc
  | falling => cases h; exact .fall hpc
  | woken =>
    obtain ⟨hl, rfl⟩ := whenFree_eq_some h
    exact .woken hpc hl
  | fits blockno =>
    cases h
    split
    · next ho => exact .outside hpc ho
    · next ho => exact .fits hpc ho
  | insert blockno =>
    obtain ⟨hl, rfl⟩ := whenFree_eq_some h
    exact .insert hpc hl
  | wake =>
    obtain ⟨ht, rfl⟩ := whenFree_eq_some h
    exact .wake hpc ht
  | unlock => cases h; exact .unlock hpc
  | commit k => cases h; exact commitTurn_result hpc
  | finish =>
    obtain ⟨hl, rfl⟩ := whenFree_eq_some h
    exact .finish hpc hl
  | _ => cases h

theorem step_result {a : Act P} {r : Outcome P} (h : s.step a = some r) : Result s a r := by
  cases a with
  | beginOp p =>
    rw [step] at h
    split at h
    · next hpc =>
      obtain ⟨hl, rfl⟩ := whenFree_eq_some h
      exact .acquire hpc hl
    · cases h
  | logWrite p blockno =>
    rw [step] at h
    split at h
    · next hpc =>
      cases h
      split
      · next hb => exact .tooBig hpc hb
      · next hb => exact .logWrite hpc (Bool.not_eq_true _ ▸ hb)
    · cases h
  | endOp p =>
    rw [step] at h
    split at h
    · next hpc =>
      obtain ⟨hl, rfl⟩ := whenFree_eq_some h
      exact endTurn_result hpc hl
    · cases h
  | run p => exact runTurn_result rfl h
  | kill p =>
    rw [step] at h
    split at h
    · next hpc =>
      obtain ⟨ht, rfl⟩ := whenFree_eq_some h
      exact .kill hpc ht
    · cases h

theorem step_of_next {s' : LogSys P} {l : Act P × Option (Event P)}
    (h : Trace.Next next s l s') : Step s l.1 l.2 s' := by
  have h' : s.next l.1 = some (s', l.2) := h
  unfold next at h'
  split at h'
  · next r hr =>
    have hres := step_result hr
    rwa [Option.some.inj h'] at hres
  · cases h'

end LogSys

end Xv6
