import Xv6.Proc.Discipline

/-!
# The operations on sequences

What each operation of `proc.c` does to the process sequences, under the name of the
operation, and that it keeps the list discipline. The loops of the source are folds
over the sequence they walk.
-/

namespace Xv6

open Ptable (charge lowerPrio WaitResult killQueues)

namespace Queues

/-! ## Moving one process -/

def addready (q : Queues) (p : Slot) : Queues :=
  match readyQueue (q.proc p).prio with
  | some l => q.addtail l p
  | none => q

def allocproc (q : Queues) : Option Slot × Queues :=
  match q.list .free with
  | [] => (none, q)
  | p :: _ =>
    let q := q.unlink .free p
    let q := q.modify p fun x => { x with state := .embryo }
    let q := q.addhead .embryo p
    let q := q.modify p fun x => { x with pid := q.nextpid }
    (some p, { q with nextpid := q.nextpid + 1 })

def allocprocInit (q : Queues) (p : Slot) (kstack : Nat) (ticks : Word) : Queues :=
  q.modify p fun x =>
    { x with
      kstack := some kstack
      startTicks := ticks
      cpuTicksTotal := 0
      cpuTicksIn := 0
      budget := BUDGET
      prio := 0 }

def freeEmbryo (q : Queues) (p : Slot) : Queues :=
  ((q.unlink .embryo p).modify p fun x => { x with state := .unused }).addhead .free p

def allocprocFail (q : Queues) (p : Slot) : Queues :=
  (q.modify p fun x => { x with kstack := none }).freeEmbryo p

def forkFail (q : Queues) (np : Slot) : Queues :=
  (q.modify np fun x => { x with pgdir := none, kstack := none }).freeEmbryo np

def forkCopy (q : Queues) (p np : Slot) (pgdir : Nat) : Queues :=
  let proc := q.proc p
  q.modify np fun x =>
    { x with
      pgdir := some pgdir
      sz := proc.sz
      parent := some p
      uid := proc.uid
      gid := proc.gid
      name := proc.name }

def forkReady (q : Queues) (np : Slot) : Queues :=
  ((q.unlink .embryo np).modify np fun x => { x with state := .runnable }).addtail (.ready 0) np

def sched (q : Queues) (p : Slot) (ticks : Word) : Queues :=
  q.modify p fun x => { x with cpuTicksTotal := x.cpuTicksTotal + (ticks - x.cpuTicksIn) }

def yield (q : Queues) (p : Slot) (ticks : Word) : Queues :=
  let q := q.unlink .running p
  let q := q.modify p fun x => charge ticks { x with state := .runnable }
  (q.addready p).sched p ticks

def sleep (q : Queues) (p : Slot) (chan : Chan) (ticks : Word) : Queues :=
  let q := q.modify p fun x => { x with chan := some chan }
  let q := q.unlink .running p
  let q := q.modify p fun x => charge ticks { x with state := .sleeping }
  (q.addhead .sleep p).sched p ticks

def wake (q : Queues) (p : Slot) : Queues :=
  ((q.unlink .sleep p).modify p fun x => { x with state := .runnable }).addready p

def wakeupBody (chan : Option Chan) (current : Slot) (q : Queues) : Queues :=
  if (q.proc current).chan = chan then q.wake current else q

def wakeup1 (q : Queues) (chan : Option Chan) : Queues :=
  (q.list .sleep).foldl (fun q current => wakeupBody chan current q) q

/-! ## Exit and wait -/

def reparentBody (proc : Slot) (initproc : Option Slot) (wake : Bool) (p : Slot) (q : Queues) :
    Queues :=
  if (q.proc p).parent = some proc then
    let q := q.modify p fun x => { x with parent := initproc }
    if wake then q.wakeup1 (initproc.map .proc) else q
  else q

def reparent (q : Queues) (proc : Slot) (l : Queue) (wake : Bool) : Queues :=
  (q.list l).foldl (fun q' p => reparentBody proc q.initproc wake p q') q

def passChildren (q : Queues) (proc : Slot) : Queues :=
  let q := (List.finRange (MAX + 1)).foldl (fun q i => q.reparent proc (.ready i) false) q
  let q := q.reparent proc .sleep false
  let q := q.reparent proc .zombie true
  let q := q.reparent proc .running false
  q.reparent proc .embryo false

/-- The last step of `exit`: from the running list to the zombies. -/
def bury (q : Queues) (proc : Slot) : Queues :=
  ((q.unlink .running proc).modify proc fun x => { x with state := .zombie }).addhead .zombie proc

def exit (q : Queues) (proc : Slot) (ticks : Word) : Queues :=
  let q := q.wakeup1 ((q.proc proc).parent.map .proc)
  ((q.passChildren proc).bury proc).sched proc ticks

def reap (q : Queues) (p : Slot) : Queues :=
  let q := q.modify p fun x => { x with kstack := none }
  let q := ((q.unlink .zombie p).modify p fun x => { x with state := .unused }).addhead .free p
  q.modify p fun x => { x with pid := 0, parent := none, name := "", killed := false }

/-- Some process on one of the lists `wait` looks at after the zombies is a child. -/
def havekids (q : Queues) (proc : Slot) : Bool :=
  (Queue.sleep :: ((List.finRange (MAX + 1)).map .ready ++ [.running, .embryo])).any fun l =>
    (q.list l).any fun p => decide ((q.proc p).parent = some proc)

def wait (q : Queues) (proc : Slot) (ticks : Word) : WaitResult × Queues :=
  match (q.list .zombie).find? fun p => decide ((q.proc p).parent = some proc) with
  | some p => (.reaped p (q.proc p).pid, q.reap p)
  | none =>
    if !q.havekids proc || (q.proc proc).killed then (.failed, q)
    else (.sleeps, q.sleep proc (.proc proc) ticks)

/-! ## The scheduler -/

def promoteFields (q : Queues) (l : Queue) : Queues :=
  (q.list l).foldl (fun q current => q.modify current lowerPrio) q

def promoteBody (i : Fin (MAX + 1)) (current : Slot) (q : Queues) : Queues :=
  ((q.unlink (.ready i) current).modify current fun x => { x with prio := x.prio - 1 }).addready
    current

/-- Promote every process of `ready[i]`. -/
def promoteReady (q : Queues) (i : Fin (MAX + 1)) : Queues :=
  (q.list (.ready i)).foldl (fun q current => promoteBody i current q) q

def promote (q : Queues) (ticks : Word) : Queues :=
  let q := q.promoteFields .sleep
  let q := q.promoteFields .running
  let q := ((List.finRange (MAX + 1)).tail).foldl promoteReady q
  { q with promoteAtTime := ticks + TICKS_TO_PROMOTE }

def promoteDue (q : Queues) (ticks : Word) : Queues :=
  if q.promoteAtTime ≤ ticks then q.promote ticks else q

def firstReady (q : Queues) : Option (Fin (MAX + 1) × Slot) :=
  (List.finRange (MAX + 1)).findSome? fun i => (q.list (.ready i)).head?.map fun p => (i, p)

def dispatch (q : Queues) (i : Fin (MAX + 1)) (p : Slot) (ticks : Word) : Queues :=
  let q := q.unlink (.ready i) p
  let q := q.modify p fun x => { x with state := .running }
  let q := q.addhead .running p
  q.modify p fun x => { x with cpuTicksIn := ticks }

def scheduler (q : Queues) (ticks : Word) : Option Slot × Queues :=
  let q := q.promoteDue ticks
  match q.firstReady with
  | none => (none, q)
  | some (i, p) => (some p, q.dispatch i p ticks)

/-! ## kill and setpriority -/

def findIn (q : Queues) (test : Slot → Bool) : List Queue → Option Slot
  | [] => none
  | l :: ls => ((q.list l).find? test).or (q.findIn test ls)

def kill (q : Queues) (pid : Word) : Option Slot × Queues :=
  let isPid := fun p => decide ((q.proc p).pid = pid)
  match (q.list .sleep).find? isPid with
  | some p => (some p, (q.modify p fun x => { x with killed := true }).wake p)
  | none =>
    match q.findIn isPid killQueues with
    | some p => (some p, q.modify p fun x => { x with killed := true })
    | none => (none, q)

def requeue (q : Queues) (i : Fin (MAX + 1)) (p : Slot) (priority : Int) : Queues :=
  let q := q.unlink (.ready i) p
  let q := (q.modify p fun x => { x with prio := priority }).addready p
  q.modify p fun x => { x with budget := BUDGET }

def setpriority (q : Queues) (pid : Word) (priority : Int) : Int × Queues :=
  if priority > MAX ∨ priority < 0 ∨ pid.toInt < 0 then (-1, q) else
    let isPid := fun p => decide ((q.proc p).pid = pid)
    match q.findIn isPid [.sleep, .running] with
    | some p => (0, q.modify p fun x => { x with prio := priority, budget := BUDGET })
    | none =>
      match q.findIn isPid ((List.finRange (MAX + 1)).map .ready) with
      | none => (-1, q)
      | some p =>
        if (q.proc p).prio = priority then (0, q.modify p fun x => { x with budget := BUDGET })
        else
          match readyQueue (q.proc p).prio with
          | some (.ready i) => (0, q.requeue i p priority)
          | _ => (0, q)

end Queues

end Xv6
