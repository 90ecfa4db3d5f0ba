import Xv6.Proc.Ops
import Xv6.Lib.Run

/-!
# The process system

The machine that the operations of `proc.c` are steps of: any number of CPUs, each running a
process or idle in `scheduler`, and for each process where in the kernel it is. One step is one
section of code under `ptable.lock`, or the code between two such sections. From the `swtch` of
`scheduler` to the point where the process it switched to releases the lock, the other CPUs can
only take steps that do not need the lock.

In the loops of `pipewrite`, `piperead`, `consoleread` and `sys_sleep` the test of
`proc->killed` and the call of `sleep` are separate steps. The counters these loops read change
by steps of their own.
-/

namespace Xv6

/-- The fields of `struct pipe` that the loops test. -/
structure Pipe where
  nread : Word
  nwrite : Word
  readopen : Bool
  writeopen : Bool

/-- `input` of `console.c`. -/
structure Input where
  r : Word
  w : Word

/-- `sleep` is called on the address of a process by `wait` only. -/
def Chan.isProc : Chan → Bool
  | .proc _ => true
  | _ => false

/-- The loops that test `proc->killed` and sleep. -/
inductive Site
  | piperead (pipe : Nat)
  | pipewrite (pipe : Nat)
  | consoleread
  | sysSleep (ticks0 n : Word)
deriving DecidableEq

def Site.chan : Site → Chan
  | .piperead i => .nread i
  | .pipewrite i => .nwrite i
  | .consoleread => .input
  | .sysSleep _ _ => .ticks

/-- `ticks0 = ticks` on the way into the loop of `sys_sleep`. -/
def Site.enters (ticks : Word) : Site → Bool
  | .sysSleep ticks0 _ => ticks0 = ticks
  | _ => true

inductive Ctx
  /-- In user space, or in kernel code that holds no obligation to the table. -/
  | run
  /-- In `allocproc`, called by `fork`, before `kalloc`. -/
  | forkAlloc (np : Slot)
  /-- In `fork`, before `copyuvm`. -/
  | forkCopy (np : Slot)
  /-- In `fork`, before its last section. -/
  | forkReady (np : Slot)
  /-- In `sleep`, called from anywhere but `wait` and the loops below. -/
  | sleep
  /-- In `sleep`, called by `wait`. -/
  | wait
  | exited
  | loop (site : Site)
  /-- In the loop of `pipewrite`, before `wakeup(&p->nread)`. -/
  | waking (pipe : Nat)
  /-- Past the test of `proc->killed`, before `sleep`. -/
  | tested (site : Site)
  /-- In the `sleep` of a loop. -/
  | asleep (site : Site)
deriving DecidableEq

/-- The timer interrupt can make the process yield: it is not inside `sleep` or `exit`
and holds no spinlock (all the loops but that of `sys_sleep` hold one). -/
def Ctx.interruptible : Ctx → Bool
  | .run | .forkAlloc _ | .forkCopy _ | .forkReady _ => true
  | .loop (.sysSleep _ _) | .tested (.sysSleep _ _) => true
  | _ => false

/-- The state of the machine, over a process table of type `T`. -/
structure Sys (Cpu T : Type) where
  tbl : T
  ticks : Word
  cpu : Cpu → Option Slot
  ctx : Slot → Ctx
  /-- The CPU that holds `ptable.lock` across its `swtch` into a process. -/
  lock : Option Cpu
  pipe : Nat → Pipe
  input : Input

inductive Act (Cpu : Type)
  | sched (c : Cpu)
  | resume (c : Cpu)
  | yield (c : Cpu)
  | sleep (c : Cpu) (chan : Chan)
  | wakeup (chan : Chan)
  | fork (c : Cpu)
  | kalloc (c : Cpu) (kstack : Option Nat)
  | copyuvm (c : Cpu) (pgdir : Option Nat)
  | forkEnd (c : Cpu)
  | exit (c : Cpu)
  | wait (c : Cpu)
  | kill (c : Cpu) (pid : Word)
  | setpriority (c : Cpu) (pid : Word) (priority : Int)
  /-- `trap` marks the process on `c`. -/
  | trap (c : Cpu)
  /-- `exec`, `growproc`, `setuid` and `setgid` change fields of their own process. -/
  | image (c : Cpu) (sz : Word) (pgdir : Nat) (name : String) (uid gid : Word)
  | tick
  | enter (c : Cpu) (site : Site)
  | test (c : Cpu)
  | wakeReaders (c : Cpu)
  | block (c : Cpu)
  | pipe (i : Nat) (p : Pipe)
  | console (input : Input)

/-- What a step tells: the ends of system calls, by pid, and the marks on processes. -/
inductive Event
  | alloc (p : Slot) (pid : Word)
  | forked (parent child : Word)
  | waited (parent child : Word)
  | exited (pid : Word) (orphans : List Word)
  | killed (p : Slot) (pid : Word)
  | trapped (p : Slot)
deriving DecidableEq

namespace Sys

variable {Cpu T : Type} [DecidableEq Cpu]

def setCtx (s : Sys Cpu T) (p : Slot) (k : Ctx) : Sys Cpu T :=
  { s with ctx := Function.update s.ctx p k }

/-- The process on `c` has switched to the scheduler, which releases the lock. -/
def leave (s : Sys Cpu T) (c : Cpu) : Sys Cpu T :=
  { s with cpu := Function.update s.cpu c none, lock := none }

/-- The condition of the `while` of a loop. -/
def blocks (s : Sys Cpu T) : Site → Bool
  | .piperead i => (s.pipe i).nread = (s.pipe i).nwrite && (s.pipe i).writeopen
  | .pipewrite i => (s.pipe i).nwrite = (s.pipe i).nread + PIPESIZE
  | .consoleread => s.input.r = s.input.w
  | .sysSleep ticks0 n => s.ticks - ticks0 < n

/-- `p->readopen == 0`, which `pipewrite` tests along with `proc->killed`. -/
def closed (s : Sys Cpu T) : Site → Bool
  | .pipewrite i => !(s.pipe i).readopen
  | _ => false

def toSleep : Site → Ctx
  | .pipewrite i => .waking i
  | site => .tested site

/-- Where the body of a loop takes a process, up to its `sleep`. -/
def testCtx (s : Sys Cpu T) (site : Site) (killed : Bool) : Ctx :=
  if s.blocks site then
    if s.closed site || killed then .run else toSleep site
  else .run

end Sys

/-- The pids of the children `exit` passes on. -/
def Core.orphans (c : Core) (proc : Slot) : List Word :=
  ((List.finRange NPROC).filter fun p => decide ((c.proc p).parent = some proc ∧
    (c.proc p).state ≠ .unused ∧ (c.proc p).state ≠ .embryo)).map fun p => (c.proc p).pid

namespace Sys

variable {Cpu : Type} [DecidableEq Cpu]

abbrev Outcome (Cpu : Type) := Sys Cpu Ptable × Option Event

/-- A step of the process on `c` that needs `ptable.lock`. -/
def locked (s : Sys Cpu Ptable) (c : Cpu)
    (k : Slot → Ctx → Option (Except Fault (Outcome Cpu))) : Option (Except Fault (Outcome Cpu)) :=
  match s.cpu c with
  | some p => if s.lock = none then k p (s.ctx p) else none
  | none => none

/-- A step of the process on `c` that does not need `ptable.lock`. -/
def unlocked (s : Sys Cpu Ptable) (c : Cpu)
    (k : Slot → Ctx → Option (Except Fault (Outcome Cpu))) : Option (Except Fault (Outcome Cpu)) :=
  match s.cpu c with
  | some p => if s.lock = some c then none else k p (s.ctx p)
  | none => none

def scheduler (s : Sys Cpu Ptable) (c : Cpu) : Except Fault (Outcome Cpu) := do
  let (p, t) ← s.tbl.scheduler s.ticks
  match p with
  | none => .ok ({ s with tbl := t }, none)
  | some p =>
    .ok ({ s with tbl := t, cpu := Function.update s.cpu c (some p), lock := some c }, none)

/-- One turn of the loop of `wait`, up to the `release` or the switch to the scheduler. -/
def waitTurn (s : Sys Cpu Ptable) (c : Cpu) (p : Slot) : Except Fault (Outcome Cpu) := do
  let (r, t) ← s.tbl.wait p s.ticks
  match r with
  | .reaped _ pid =>
    .ok ({ s with tbl := t, lock := none }.setCtx p .run, some (.waited (s.tbl.proc p).pid pid))
  | .failed => .ok ({ s with tbl := t, lock := none }.setCtx p .run, none)
  | .sleeps => .ok (({ s with tbl := t }.setCtx p .wait).leave c, none)

/-- The process `p` goes on after the `swtch` of the scheduler on `c`, with `ptable.lock`
held: the end of `yield` or `forkret`, of `sleep`, or the next turn of `wait`. -/
def resume (s : Sys Cpu Ptable) (c : Cpu) (p : Slot) : Except Fault (Outcome Cpu) :=
  let awake := { s with tbl := s.tbl.modify p fun x => { x with chan := none } }
  match s.ctx p with
  | .sleep => .ok ({ awake with lock := none }.setCtx p .run, none)
  | .asleep site => .ok ({ awake with lock := none }.setCtx p (.loop site), none)
  | .wait => awake.waitTurn c p
  | .exited => .error (.panic "zombie exit")
  | _ => .ok ({ s with lock := none }, none)

/-- `exit` after the files are closed. -/
def exit (s : Sys Cpu Ptable) (c : Cpu) (p : Slot) : Except Fault (Outcome Cpu) := do
  let t ← s.tbl.exit p s.ticks
  .ok (({ s with tbl := t }.setCtx p .exited).leave c,
    some (.exited (s.tbl.proc p).pid (s.tbl.orphans p)))

/-- The steps of the machine: `none` when the action is not possible. -/
def step (s : Sys Cpu Ptable) : Act Cpu → Option (Except Fault (Outcome Cpu))
  | .sched c => if s.lock = none ∧ s.cpu c = none then some (s.scheduler c) else none
  | .resume c =>
    match s.cpu c with
    | some p => if s.lock = some c then some (s.resume c p) else none
    | none => none
  | .yield c => s.locked c fun p k =>
    if k.interruptible then some do
      let t ← s.tbl.yield p s.ticks
      .ok ({ s with tbl := t }.leave c, none)
    else none
  | .sleep c chan => s.locked c fun
    | p, .run => if chan.isProc then none else some do
      let t ← s.tbl.sleep p chan s.ticks
      .ok (({ s with tbl := t }.setCtx p .sleep).leave c, none)
    | _, _ => none
  | .wakeup chan =>
    if s.lock = none then some do
      let t ← s.tbl.wakeup1 (some chan)
      .ok ({ s with tbl := t }, none)
    else none
  | .fork c => s.locked c fun
    | p, .run => some do
      let (np, t) ← s.tbl.allocproc
      match np with
      | none => .ok ({ s with tbl := t }, none)
      | some np =>
        .ok ({ s with tbl := t }.setCtx p (.forkAlloc np), some (.alloc np s.tbl.nextpid))
    | _, _ => none
  | .kalloc c (some kstack) => s.unlocked c fun
    | p, .forkAlloc np =>
      -- the new context starts in forkret, from where the child goes to user space
      some (.ok (({ s with tbl := s.tbl.allocprocInit np kstack s.ticks }.setCtx np .run).setCtx p
        (.forkCopy np), none))
    | _, _ => none
  | .kalloc c none => s.locked c fun
    | p, .forkAlloc np => some do
      let t ← s.tbl.allocprocFail np
      .ok ({ s with tbl := t }.setCtx p .run, none)
    | _, _ => none
  | .copyuvm c (some pgdir) => s.unlocked c fun
    | p, .forkCopy np =>
      some (.ok ({ s with tbl := s.tbl.forkCopy p np pgdir }.setCtx p (.forkReady np), none))
    | _, _ => none
  | .copyuvm c none => s.locked c fun
    | p, .forkCopy np => some do
      let t ← s.tbl.forkFail np
      .ok ({ s with tbl := t }.setCtx p .run, none)
    | _, _ => none
  | .forkEnd c => s.locked c fun
    | p, .forkReady np => some do
      let t ← s.tbl.forkReady np
      .ok ({ s with tbl := t }.setCtx p .run,
        some (.forked (s.tbl.proc p).pid (s.tbl.proc np).pid))
    | _, _ => none
  | .exit c => s.locked c fun
    | p, .run => some (s.exit c p)
    | _, _ => none
  | .wait c => s.locked c fun
    | p, .run => some (s.waitTurn c p)
    | _, _ => none
  | .kill c pid => s.locked c fun
    | _, .run => some do
      let (p, t) ← s.tbl.kill pid
      .ok ({ s with tbl := t }, p.map fun p => .killed p pid)
    | _, _ => none
  | .setpriority c pid priority => s.locked c fun
    | _, .run => some do
      let (_, t) ← s.tbl.setpriority pid priority
      .ok ({ s with tbl := t }, none)
    | _, _ => none
  | .trap c => s.unlocked c fun
    | p, .run =>
      some (.ok ({ s with tbl := s.tbl.modify p fun x => { x with killed := true } },
        some (.trapped p)))
    | _, _ => none
  | .image c sz pgdir name uid gid => s.unlocked c fun
    | p, .run =>
      some (.ok ({ s with tbl := s.tbl.modify p fun x =>
        { x with sz := sz, pgdir := some pgdir, name := name, uid := uid, gid := gid } }, none))
    | _, _ => none
  | .tick => some (.ok ({ s with ticks := s.ticks + 1 }, none))
  | .enter c site => s.unlocked c fun
    | p, .run => if site.enters s.ticks then some (.ok (s.setCtx p (.loop site), none)) else none
    | _, _ => none
  | .test c => s.unlocked c fun
    | p, .loop site => some (.ok (s.setCtx p (s.testCtx site (s.tbl.proc p).killed), none))
    | _, _ => none
  | .wakeReaders c => s.locked c fun
    | p, .waking i => some do
      let t ← s.tbl.wakeup1 (some (.nread i))
      .ok ({ s with tbl := t }.setCtx p (.tested (.pipewrite i)), none)
    | _, _ => none
  | .block c => s.locked c fun
    | p, .tested site => some do
      let t ← s.tbl.sleep p site.chan s.ticks
      .ok (({ s with tbl := t }.setCtx p (.asleep site)).leave c, none)
    | _, _ => none
  | .pipe i p => some (.ok ({ s with pipe := Function.update s.pipe i p }, none))
  | .console input => some (.ok ({ s with input := input }, none))

def next (s : Sys Cpu Ptable) (a : Act Cpu) : Option (Outcome Cpu) :=
  match s.step a with
  | some (.ok r) => some r
  | _ => none

/-- The machine when `userinit` has returned and the CPUs enter `scheduler`. -/
structure Init (s : Sys Cpu Ptable) : Prop where
  tbl : ∃ kstack pgdir, Ptable.userinit s.ticks kstack pgdir = .ok s.tbl
  cpu : ∀ c, s.cpu c = none
  ctx : ∀ p, s.ctx p = .run
  lock : s.lock = none

abbrev Run (tr : List (Act Cpu × Option Event)) (s : Sys Cpu Ptable) : Prop :=
  Trace.Run Init (Trace.Next next) tr s

end Sys

end Xv6
