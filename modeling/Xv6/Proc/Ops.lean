import Xv6.Proc.Table

/-!
# The process operations

`proc.c` with `CS333_P3P4` defined, one definition for each section of code that runs under
`ptable.lock`, or for a run of assignments without the lock. `ticks` is read where the source
reads it. What `copyuvm`, `setupkvm` and `kalloc` return is an argument.
-/

namespace Xv6

namespace Ptable

/-! ## Creating a process -/

/-- First section of `allocproc`: take the first free slot, if there is one. -/
def allocproc (t : Ptable) : Except Fault (Option Slot × Ptable) :=
  match t.pLists .free with
  | none => .ok (none, t)
  | some p => do
    let t ← t.unlink .free .unused "Error removing from free list" p
    let t := t.modify p fun x => { x with state := .embryo }
    let t := t.addhead .embryo p
    let t := t.modify p fun x => { x with pid := t.nextpid }
    .ok (some p, { t with nextpid := t.nextpid + 1 })

/-- The rest of `allocproc` once `kalloc` has returned a stack. -/
def allocprocInit (t : Ptable) (p : Slot) (kstack : Nat) (ticks : Word) : Ptable :=
  t.modify p fun x =>
    { x with
      kstack := some kstack
      startTicks := ticks
      cpuTicksTotal := 0
      cpuTicksIn := 0
      budget := BUDGET
      prio := 0 }

/-- Put an embryo back on the free list: `allocproc` when `kalloc` fails. -/
def freeEmbryo (t : Ptable) (p : Slot) : Except Fault Ptable := do
  let t ← t.unlink .embryo .embryo "Error removing from embryo list" p
  let t := t.modify p fun x => { x with state := .unused }
  .ok (t.addhead .free p)

/-- `allocproc` when `kalloc` returns 0. -/
def allocprocFail (t : Ptable) (p : Slot) : Except Fault Ptable :=
  (t.modify p fun x => { x with kstack := none }).freeEmbryo p

/-- `fork` when `copyuvm` returns 0. -/
def forkFail (t : Ptable) (np : Slot) : Except Fault Ptable :=
  (t.modify np fun x => { x with pgdir := none, kstack := none }).freeEmbryo np

/-- `fork` after `copyuvm`: copy process state from `p` to `np`. -/
def forkCopy (t : Ptable) (p np : Slot) (pgdir : Nat) : Ptable :=
  let proc := t.proc p
  t.modify np fun x =>
    { x with
      pgdir := some pgdir
      sz := proc.sz
      parent := some p
      uid := proc.uid
      gid := proc.gid
      name := proc.name }

/-- Last section of `fork`: the child becomes runnable at priority 0. -/
def forkReady (t : Ptable) (np : Slot) : Except Fault Ptable := do
  let t ← t.unlink .embryo .embryo "Error removing from embryo list" np
  let t := t.modify np fun x => { x with state := .runnable }
  t.addtail (.ready 0) np

/-! ## Giving up the CPU -/

/-- `sched`: the checks on locks and interrupts aside. -/
def sched (t : Ptable) (p : Slot) (ticks : Word) : Except Fault Ptable :=
  if (t.proc p).state = .running then .error (.panic "sched running")
  else .ok (t.modify p fun x =>
    { x with cpuTicksTotal := x.cpuTicksTotal + (ticks - x.cpuTicksIn) })

/-- Charge the time slice that ends now to the budget; demote when it is used up. -/
def charge (ticks : Word) (x : Proc) : Proc :=
  let budget := x.budget - (ticks - x.cpuTicksIn)
  if budget.toInt ≤ 0 then
    { x with prio := if x.prio ≠ MAX then x.prio + 1 else x.prio, budget := BUDGET }
  else { x with budget := budget }

def yield (t : Ptable) (p : Slot) (ticks : Word) : Except Fault Ptable := do
  let t ← t.unlink .running .running "Error removing from running list" p
  let t := t.modify p fun x => charge ticks { x with state := .runnable }
  let t ← t.addready p
  t.sched p ticks

/-- `sleep`, from the point where `ptable.lock` is held. -/
def sleep (t : Ptable) (p : Slot) (chan : Chan) (ticks : Word) : Except Fault Ptable := do
  let t := t.modify p fun x => { x with chan := some chan }
  let t ← t.unlink .running .running "Error removing from running list" p
  let t := t.modify p fun x => charge ticks { x with state := .sleeping }
  let t := t.addhead .sleep p
  t.sched p ticks

/-- Move a sleeping process to the tail of its ready list, as `wakeup1` and `kill` do. -/
def wake (t : Ptable) (p : Slot) : Except Fault Ptable := do
  let t ← t.unlink .sleep .sleeping "Error removing from sleep list" p
  let t := t.modify p fun x => { x with state := .runnable }
  t.addready p

/-- One turn of the loop of `wakeup1`. -/
def wakeupBody (chan : Option Chan) (current : Slot) (t : Ptable) : Except Fault Ptable :=
  if (t.proc current).chan = chan then t.wake current else .ok t

def wakeup1 (t : Ptable) (chan : Option Chan) : Except Fault Ptable :=
  t.forEachSaved .sleep (wakeupBody chan)

/-! ## Exit and wait -/

/-- One turn of the loops of `exit` that pass the children of `proc` to init. The loop
over the zombies also wakes init up. -/
def reparentBody (proc : Slot) (initproc : Option Slot) (wake : Bool) (p : Slot) (t : Ptable) :
    Except Fault Ptable :=
  if (t.proc p).parent = some proc then
    let t := t.modify p fun x => { x with parent := initproc }
    if wake then t.wakeup1 (initproc.map .proc) else .ok t
  else .ok t

def reparent (t : Ptable) (proc : Slot) (l : Queue) (wake : Bool) : Except Fault Ptable :=
  t.forEach l (reparentBody proc t.initproc wake)

/-- The loops of `exit`, in the order of the source. -/
def passChildren (t : Ptable) (proc : Slot) : Except Fault Ptable := do
  let t ← (List.finRange (MAX + 1)).foldlM (fun t i => t.reparent proc (.ready i) false) t
  let t ← t.reparent proc .sleep false
  let t ← t.reparent proc .zombie true
  let t ← t.reparent proc .running false
  t.reparent proc .embryo false

/-- `exit`, after the files are closed. -/
def exit (t : Ptable) (proc : Slot) (ticks : Word) : Except Fault Ptable :=
  if t.initproc = some proc then .error (.panic "init exiting") else do
    let t ← t.wakeup1 ((t.proc proc).parent.map .proc)
    let t ← t.passChildren proc
    let t ← t.unlink .running .running "Error removing from running list" proc
    let t := t.modify proc fun x => { x with state := .zombie }
    let t := t.addhead .zombie proc
    t.sched proc ticks

/-- What one turn of the loop of `wait` comes to. -/
inductive WaitResult
  | reaped (child : Slot) (pid : Word)
  | failed
  | sleeps
deriving DecidableEq

/-- `wait`, for a zombie child `p`: free the slot. -/
def reap (t : Ptable) (p : Slot) : Except Fault Ptable := do
  let t := t.modify p fun x => { x with kstack := none }
  let t ← t.unlink .zombie .zombie "Error removing from zombie list" p
  let t := t.modify p fun x => { x with state := .unused }
  let t := t.addhead .free p
  .ok (t.modify p fun x => { x with pid := 0, parent := none, name := "", killed := false })

/-- `havekids` after the zombies: the sleep, ready, running and embryo lists. -/
def havekids (t : Ptable) (proc : Slot) : Except Fault Bool := do
  let isChild := fun p => decide ((t.proc p).parent = some proc)
  let sleep ← t.find .sleep isChild
  let ready ← (List.finRange (MAX + 1)).foldlM (fun found i =>
    if found then .ok true else do
      let r ← t.find (.ready i) isChild
      .ok r.isSome) sleep.isSome
  let running ← if ready then .ok true else do
    let r ← t.find .running isChild
    .ok r.isSome
  if running then .ok true else do
    let r ← t.find .embryo isChild
    .ok r.isSome

/-- One turn of the loop of `wait`, up to the return or the `sleep`. -/
def wait (t : Ptable) (proc : Slot) (ticks : Word) : Except Fault (WaitResult × Ptable) := do
  match ← t.find .zombie fun p => (t.proc p).parent = some proc with
  | some p =>
    let pid := (t.proc p).pid
    let t ← t.reap p
    .ok (.reaped p pid, t)
  | none =>
    let kids ← t.havekids proc
    if !kids || (t.proc proc).killed then .ok (.failed, t)
    else
      let t ← t.sleep proc (.proc proc) ticks
      .ok (.sleeps, t)

/-! ## The scheduler -/

def lowerPrio (x : Proc) : Proc :=
  if x.prio > 0 then { x with prio := x.prio - 1 } else x

def promoteFields (t : Ptable) (l : Queue) : Except Fault Ptable :=
  t.forEach l fun current t => .ok (t.modify current lowerPrio)

/-- One turn of the promotion loop over `ready[i]`. -/
def promoteBody (i : Fin (MAX + 1)) (current : Slot) (t : Ptable) : Except Fault Ptable := do
  let t ← t.unlink (.ready i) .runnable "ERROR removing" current
  let t := t.modify current fun x => { x with prio := x.prio - 1 }
  t.addready current

/-- The promotion block of `scheduler`. -/
def promote (t : Ptable) (ticks : Word) : Except Fault Ptable := do
  let t ← t.promoteFields .sleep
  let t ← t.promoteFields .running
  let t ← ((List.finRange (MAX + 1)).tail).foldlM
    (fun t i => t.forEachSaved (.ready i) (promoteBody i)) t
  .ok { t with promoteAtTime := ticks + TICKS_TO_PROMOTE }

def promoteDue (t : Ptable) (ticks : Word) : Except Fault Ptable :=
  if t.promoteAtTime ≤ ticks then t.promote ticks else .ok t

def firstReady (t : Ptable) : Option (Fin (MAX + 1) × Slot) :=
  (List.finRange (MAX + 1)).findSome? fun i => (t.pLists (.ready i)).map fun p => (i, p)

/-- `scheduler`, from the promotion test to the `swtch`: the process dispatched, if
any. -/
def scheduler (t : Ptable) (ticks : Word) : Except Fault (Option Slot × Ptable) := do
  let t ← t.promoteDue ticks
  match t.firstReady with
  | none => .ok (none, t)
  | some (i, p) =>
    let t ← t.unlink (.ready i) .runnable "Error removing from ready list" p
    let t := t.modify p fun x => { x with state := .running }
    let t := t.addhead .running p
    .ok (some p, t.modify p fun x => { x with cpuTicksIn := ticks })

/-! ## kill and setpriority -/

/-- The search order of `kill` after the sleep list: the running and embryo lists and
`ready[0..MAX]`. -/
def killQueues : List Queue :=
  [.running, .embryo] ++ (List.finRange (MAX + 1)).map .ready

def findIn (t : Ptable) (test : Slot → Bool) : List Queue → Except Fault (Option Slot)
  | [] => .ok none
  | l :: ls => do
    match ← t.find l test with
    | some p => .ok (some p)
    | none => t.findIn test ls

/-- `kill`: the process marked, if there is one (the source returns 0 then and -1
otherwise). -/
def kill (t : Ptable) (pid : Word) : Except Fault (Option Slot × Ptable) := do
  let isPid := fun p => decide ((t.proc p).pid = pid)
  match ← t.find .sleep isPid with
  | some p =>
    let t := t.modify p fun x => { x with killed := true }
    let t ← t.wake p
    .ok (some p, t)
  | none =>
    match ← t.findIn isPid killQueues with
    | some p => .ok (some p, t.modify p fun x => { x with killed := true })
    | none => .ok (none, t)

/-- The last branch of `setpriority`: move a runnable process to another ready list. -/
def requeue (t : Ptable) (p : Slot) (priority : Int) : Except Fault Ptable := do
  t.assertState p .runnable
  let l ← readyAt (t.proc p).prio
  -- the source does not look at what remove returns
  let (_, t) ← t.remove l p
  let t := t.modify p fun x => { x with prio := priority }
  let t ← t.addready p
  .ok (t.modify p fun x => { x with budget := BUDGET })

/-- `setpriority`: 0 or -1. -/
def setpriority (t : Ptable) (pid : Word) (priority : Int) : Except Fault (Int × Ptable) :=
  if priority > MAX ∨ priority < 0 ∨ pid.toInt < 0 then .ok (-1, t) else do
    let isPid := fun p => decide ((t.proc p).pid = pid)
    match ← t.findIn isPid [.sleep, .running] with
    | some p => .ok (0, t.modify p fun x => { x with prio := priority, budget := BUDGET })
    | none =>
      match ← t.findIn isPid ((List.finRange (MAX + 1)).map .ready) with
      | none => .ok (-1, t)
      | some p =>
        if (t.proc p).prio = priority then .ok (0, t.modify p fun x => { x with budget := BUDGET })
        else do
          let t ← t.requeue p priority
          .ok (0, t)

/-! ## Boot -/

def zero : Ptable where
  proc := fun _ => .zero
  promoteAtTime := 0
  nextpid := 1
  initproc := none
  next := fun _ => none
  pLists := fun _ => none

/-- `userinit`, with the stack and the page directory it is given. -/
def userinit (ticks : Word) (kstack pgdir : Nat) : Except Fault Ptable := do
  let t := { zero with promoteAtTime := ticks + TICKS_TO_PROMOTE }
  let t ← (List.finRange NPROC).foldlM (fun t current => t.addtail .free current) t
  match ← t.allocproc with
  | (none, _) => .error .nullDeref
  | (some p, t) =>
    let t := t.allocprocInit p kstack ticks
    let t := { t with initproc := some p }
    let t := t.modify p fun x =>
      { x with uid := DEFUID, gid := DEFGID, pgdir := some pgdir, sz := PGSIZE,
               name := "initcode" }
    let t ← t.unlink .embryo .embryo "Error removing from embryo list" p
    let t := t.modify p fun x => { x with state := .runnable }
    .ok { t with
      pLists := Function.update t.pLists (.ready 0) (some p)
      next := Function.update t.next p none }

end Ptable

end Xv6
