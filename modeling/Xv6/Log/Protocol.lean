import Xv6.Fs.Layout
import Xv6.Lib.Run

/-!
# The log protocol

`begin_op`, `log_write` and `end_op` of `log.c`, as steps of any number of processes. A step is
one section of code under `log.lock`, or the code between two of them; the tests of `log_write`
run without the lock. `log.lock` and `ptable.lock` are in the state where a section is not one
step: in `sleep` and `wakeup`. `commit` is the sequence of its disk writes.
-/

namespace Xv6

/-- `struct log`, but for the lock: `lh` are the entries `lh.block[0..lh.n)`. -/
structure Log where
  start : Nat
  size : Nat
  outstanding : Int
  committing : Bool
  lh : List Nat

/-- The insertion of `log_write`, with absorption. -/
def Log.record (l : Log) (blockno : Nat) : Log :=
  if blockno ∈ l.lh then l else { l with lh := l.lh ++ [blockno] }

section Record

variable (l : Log) (b : Nat)

@[simp, grind =] theorem Log.record_start : (l.record b).start = l.start := by
  unfold Log.record
  split <;> rfl

@[simp, grind =] theorem Log.record_size : (l.record b).size = l.size := by
  unfold Log.record
  split <;> rfl

@[simp, grind =] theorem Log.record_outstanding : (l.record b).outstanding = l.outstanding := by
  unfold Log.record
  split <;> rfl

@[simp, grind =] theorem Log.record_committing : (l.record b).committing = l.committing := by
  unfold Log.record
  split <;> rfl

variable {l b}

theorem Log.mem_record {x : Nat} : x ∈ (l.record b).lh ↔ x ∈ l.lh ∨ x = b := by
  unfold Log.record
  split
  · next hb =>
    refine ⟨Or.inl, ?_⟩
    rintro (hx | rfl)
    · exact hx
    · exact hb
  · simp

theorem Log.nodup_record (h : l.lh.Nodup) : (l.record b).lh.Nodup := by
  unfold Log.record
  split
  · exact h
  · next hb =>
    refine List.nodup_append.mpr ⟨h, List.nodup_singleton b, ?_⟩
    intro x hx y hy hxy
    rw [List.mem_singleton] at hy
    apply hb
    rwa [← hy, ← hxy]

end Record

def Log.tooBig (l : Log) : Bool :=
  l.lh.length ≥ LOGSIZE || (l.lh.length : Int) ≥ (l.size : Int) - 1

/-- The test of `begin_op` that the operation might exhaust the log. -/
def Log.mightExhaust (l : Log) : Bool :=
  l.lh.length + (l.outstanding + 1) * MAXOPBLOCKS > LOGSIZE

/-- `initlog`, whose recovery leaves the log empty. -/
def initlog (sb : Superblock) : Log where
  start := sb.logstart
  size := sb.nlog
  outstanding := 0
  committing := false
  lh := []

namespace LogSys

inductive Commit
  | start
  | writeLog (tail : Nat)
  | writeHead
  | install (tail : Nat)
  | clear
  | eraseHead
deriving DecidableEq

inductive Pc
  | out
  /-- In the loop of `begin_op`, with `log.lock`. -/
  | test
  /-- In `sleep`, before `acquire(&ptable.lock)`. -/
  | sleep
  /-- In `sleep`, before `release(&log.lock)`. -/
  | handOver
  /-- In `sleep`, before the switch to the scheduler. -/
  | falling
  | asleep
  /-- In `sleep`, before it takes `log.lock` again. -/
  | woken
  | op
  /-- In `log_write`, past the capacity test. -/
  | fits (blockno : Nat)
  /-- In `log_write`, past both tests. -/
  | insert (blockno : Nat)
  /-- In `end_op`, before `wakeup(&log)`, with `log.lock`. -/
  | wake
  /-- In `end_op`, before `release(&log.lock)`. -/
  | unlock
  | commit (k : Commit)
  | finish
deriving DecidableEq

end LogSys

open LogSys in
structure LogSys (P : Type) where
  log : Log
  /-- The holder of `log.lock`. -/
  lock : Option P
  /-- The holder of `ptable.lock`, among the processes in `sleep`. -/
  ptable : Option P
  pc : P → Pc
  /-- History: the blocks handed to `log_write` since the log was last empty. -/
  handed : List Nat
  /-- History: the blocks the operation of a process has handed to `log_write`. -/
  mine : P → List Nat

namespace LogSys

inductive Act (P : Type)
  | beginOp (p : P)
  | logWrite (p : P) (blockno : Nat)
  | endOp (p : P)
  | run (p : P)
  | kill (p : P)

inductive Event (P : Type)
  | begun (p : P)
  | logged (p : P) (blockno : Nat)
  | ended (p : P)
  | start
  | wrote (blockno : Nat)
  /-- `write_head` writes a header with these entries. -/
  | commit (blocks : List Nat)
deriving DecidableEq

variable {P : Type} [DecidableEq P]

def setPc (s : LogSys P) (p : P) (k : Pc) : LogSys P :=
  { s with pc := Function.update s.pc p k }

def wakeup (s : LogSys P) : LogSys P :=
  { s with pc := fun p => if s.pc p = .asleep then .woken else s.pc p }

abbrev Outcome (P : Type) := Except Fault (LogSys P × Option (Event P))

def whenFree (lock : Option P) (r : Outcome P) : Option (Outcome P) :=
  if lock = none then some r else none

/-- A turn of the loop of `begin_op`. -/
def beginTurn (s : LogSys P) (p : P) : Outcome P :=
  if s.log.committing then .ok (s.setPc p .sleep, none)
  else if s.log.mightExhaust then .ok (s.setPc p .sleep, none)
  else .ok ({ s with
    log := { s.log with outstanding := s.log.outstanding + 1 }
    lock := none
    mine := Function.update s.mine p [] }.setPc p .op, some (.begun p))

/-- `end_op`, up to `wakeup` or the end of its first section. -/
def endTurn (s : LogSys P) (p : P) : Outcome P :=
  let l := { s.log with outstanding := s.log.outstanding - 1 }
  if l.committing then .error (.panic "log.committing")
  else if l.outstanding = 0 then
    .ok ({ s with log := { l with committing := true } }.setPc p (.commit .start),
      some (.ended p))
  else .ok ({ s with log := l, lock := some p }.setPc p .wake, some (.ended p))

/-- The next step of `commit`. -/
def commitTurn (s : LogSys P) (p : P) : Commit → Outcome P
  | .start =>
    if s.log.lh.length > 0 then .ok (s.setPc p (.commit (.writeLog 0)), some .start)
    else .ok (s.setPc p .finish, some .start)
  | .writeLog tail =>
    if tail < s.log.lh.length then
      .ok (s.setPc p (.commit (.writeLog (tail + 1))), some (.wrote (s.log.start + tail + 1)))
    else .ok (s.setPc p (.commit .writeHead), none)
  | .writeHead => .ok (s.setPc p (.commit (.install 0)), some (.commit s.log.lh))
  | .install tail =>
    if tail < s.log.lh.length then .ok (s.setPc p (.commit (.install (tail + 1))), none)
    else .ok (s.setPc p (.commit .clear), none)
  | .clear =>
    .ok ({ s with log := { s.log with lh := [] }, handed := [] }.setPc p (.commit .eraseHead), none)
  | .eraseHead => .ok (s.setPc p .finish, none)

/-- The next step of a process inside `begin_op`, `log_write` or `end_op`. -/
def runTurn (s : LogSys P) (p : P) : Pc → Option (Outcome P)
  | .test => some (s.beginTurn p)
  | .sleep => whenFree s.ptable (.ok ({ s with ptable := some p }.setPc p .handOver, none))
  | .handOver => some (.ok ({ s with lock := none }.setPc p .falling, none))
  | .falling => some (.ok ({ s with ptable := none }.setPc p .asleep, none))
  | .woken => whenFree s.lock (.ok ({ s with lock := some p }.setPc p .test, none))
  | .fits blockno =>
    some (if s.log.outstanding < 1 then .error (.panic "log_write outside of trans")
      else .ok (s.setPc p (.insert blockno), none))
  | .insert blockno =>
    whenFree s.lock (.ok ({ s with log := s.log.record blockno }.setPc p .op,
      some (.logged p blockno)))
  | .wake => whenFree s.ptable (.ok (s.wakeup.setPc p .unlock, none))
  | .unlock => some (.ok ({ s with lock := none }.setPc p .out, none))
  | .commit k => some (s.commitTurn p k)
  | .finish =>
    whenFree s.lock (.ok ({ s with log := { s.log with committing := false }
                                   lock := some p }.setPc p .wake, none))
  | .out | .asleep | .op => none

/-- The steps: `none` when the action is not possible. -/
def step (s : LogSys P) : Act P → Option (Outcome P)
  | .beginOp p =>
    if s.pc p = .out then
      whenFree s.lock (.ok ({ s with lock := some p }.setPc p .test, none))
    else none
  | .logWrite p blockno =>
    if s.pc p = .op then
      some (if s.log.tooBig then .error (.panic "too big a transaction")
        else .ok ({ s with
          handed := s.handed.insert blockno
          mine := Function.update s.mine p ((s.mine p).insert blockno) }.setPc p (.fits blockno),
            none))
    else none
  | .endOp p =>
    if s.pc p = .op then whenFree s.lock (s.endTurn p) else none
  | .run p => s.runTurn p (s.pc p)
  | .kill p =>
    if s.pc p = .asleep then whenFree s.ptable (.ok (s.setPc p .woken, none)) else none

def next (s : LogSys P) (a : Act P) : Option (LogSys P × Option (Event P)) :=
  match s.step a with
  | some (.ok r) => some r
  | _ => none

/-- After `initlog`, no operation running. -/
structure Init (sb : Superblock) (s : LogSys P) : Prop where
  log : s.log = initlog sb
  lock : s.lock = none
  ptable : s.ptable = none
  pc : ∀ p, s.pc p = .out
  handed : s.handed = []

abbrev Run (sb : Superblock) (tr : List (Act P × Option (Event P))) (s : LogSys P) : Prop :=
  Trace.Run (Init sb) (Trace.Next next) tr s

def boot (sb : Superblock) : LogSys P where
  log := initlog sb
  lock := none
  ptable := none
  pc := fun _ => .out
  handed := []
  mine := fun _ => []

omit [DecidableEq P] in
theorem boot_init (sb : Superblock) : Init sb (boot (P := P) sb) :=
  ⟨rfl, rfl, rfl, fun _ => rfl, rfl⟩

end LogSys

end Xv6
