import Xv6.Proc.QueueOps

/-!
# The operations on the process array

What each operation does to `ptable.proc`, whatever the lists look like. Scanning a list under
the list discipline is scanning the array for the state the list stands for, so `wakeup1`,
`exit` and the promotion become pointwise maps over the array.
-/

namespace Xv6

open Ptable (charge lowerPrio)

theorem Core.ext' {c d : Core} (hp : ∀ p, c.proc p = d.proc p)
    (ha : c.promoteAtTime = d.promoteAtTime) (hn : c.nextpid = d.nextpid)
    (hi : c.initproc = d.initproc) : c = d := by
  cases c
  cases d
  simp only [Core.mk.injEq]
  exact ⟨funext hp, ha, hn, hi⟩

namespace Core

def map (c : Core) (g : Proc → Proc) : Core := { c with proc := fun p => g (c.proc p) }

@[simp] theorem map_proc (c : Core) (g : Proc → Proc) (p : Slot) :
    (c.map g).proc p = g (c.proc p) := rfl

def allocproc (c : Core) (p : Slot) : Core :=
  let c := c.modify p fun x => { x with state := .embryo }
  let c := c.modify p fun x => { x with pid := c.nextpid }
  { c with nextpid := c.nextpid + 1 }

def allocprocInit (c : Core) (p : Slot) (kstack : Nat) (ticks : Word) : Core :=
  c.modify p fun x =>
    { x with
      kstack := some kstack
      startTicks := ticks
      cpuTicksTotal := 0
      cpuTicksIn := 0
      budget := BUDGET
      prio := 0 }

def allocprocFail (c : Core) (p : Slot) : Core :=
  (c.modify p fun x => { x with kstack := none }).modify p fun x => { x with state := .unused }

def forkFail (c : Core) (np : Slot) : Core :=
  (c.modify np fun x => { x with pgdir := none, kstack := none }).modify np
    fun x => { x with state := .unused }

def forkCopy (c : Core) (p np : Slot) (pgdir : Nat) : Core :=
  let proc := c.proc p
  c.modify np fun x =>
    { x with
      pgdir := some pgdir
      sz := proc.sz
      parent := some p
      uid := proc.uid
      gid := proc.gid
      name := proc.name }

def forkReady (c : Core) (np : Slot) : Core := c.modify np fun x => { x with state := .runnable }

def sched (c : Core) (p : Slot) (ticks : Word) : Core :=
  c.modify p fun x => { x with cpuTicksTotal := x.cpuTicksTotal + (ticks - x.cpuTicksIn) }

def yield (c : Core) (p : Slot) (ticks : Word) : Core :=
  (c.modify p fun x => charge ticks { x with state := .runnable }).sched p ticks

def sleep (c : Core) (p : Slot) (chan : Chan) (ticks : Word) : Core :=
  ((c.modify p fun x => { x with chan := some chan }).modify p
    fun x => charge ticks { x with state := .sleeping }).sched p ticks

/-- Wake a process up if it sleeps on `chan`. -/
def wakeProc (chan : Option Chan) (x : Proc) : Proc :=
  if x.state = .sleeping ∧ x.chan = chan then { x with state := .runnable } else x

def wakeup1 (c : Core) (chan : Option Chan) : Core := c.map (wakeProc chan)

/-- Give a live child of `proc` a new parent. -/
def adoptProc (proc : Slot) (init : Option Slot) (x : Proc) : Proc :=
  if x.state ≠ .unused ∧ x.parent = some proc then { x with parent := init } else x

def passChildren (c : Core) (proc : Slot) : Core :=
  let c' := c.map (adoptProc proc c.initproc)
  if ∃ p, (c.proc p).state = .zombie ∧ (c.proc p).parent = some proc then
    c'.wakeup1 (c.initproc.map .proc)
  else c'

def exit (c : Core) (proc : Slot) (ticks : Word) : Core :=
  let c := c.wakeup1 ((c.proc proc).parent.map .proc)
  ((c.passChildren proc).modify proc fun x => { x with state := .zombie }).sched proc ticks

def reap (c : Core) (p : Slot) : Core :=
  let c := c.modify p fun x => { x with kstack := none }
  let c := c.modify p fun x => { x with state := .unused }
  c.modify p fun x => { x with pid := 0, parent := none, name := "", killed := false }

def promoteProc (x : Proc) : Proc :=
  if x.state = .sleeping ∨ x.state = .running ∨ x.state = .runnable then lowerPrio x else x

def promote (c : Core) (ticks : Word) : Core :=
  { c.map promoteProc with promoteAtTime := ticks + TICKS_TO_PROMOTE }

def promoteDue (c : Core) (ticks : Word) : Core :=
  if c.promoteAtTime ≤ ticks then c.promote ticks else c

def dispatch (c : Core) (p : Slot) (ticks : Word) : Core :=
  (c.modify p fun x => { x with state := .running }).modify p
    fun x => { x with cpuTicksIn := ticks }

def wake (c : Core) (p : Slot) : Core := c.modify p fun x => { x with state := .runnable }

/-- `kill` on the process it finds. -/
def kill (c : Core) (p : Slot) : Core :=
  let c' := c.modify p fun x => { x with killed := true }
  if (c.proc p).state = .sleeping then c'.wake p else c'

/-- `setpriority` on the process it finds. -/
def setpriority (c : Core) (p : Slot) (priority : Int) : Core :=
  c.modify p fun x => { x with prio := priority, budget := BUDGET }

end Core

/-! ## Fields -/

namespace Core

section Fields

variable (chan : Option Chan) (proc : Slot) (init : Option Slot) (x : Proc)

@[simp] theorem wakeProc_chan : (wakeProc chan x).chan = x.chan := by
  unfold wakeProc; split <;> rfl

@[simp] theorem wakeProc_prio : (wakeProc chan x).prio = x.prio := by
  unfold wakeProc; split <;> rfl

theorem wakeProc_of_ne (h : x.state ≠ .sleeping) : wakeProc chan x = x := by
  unfold wakeProc
  rw [if_neg fun hc => h hc.1]

@[simp] theorem adoptProc_state : (adoptProc proc init x).state = x.state := by
  unfold adoptProc; split <;> rfl

@[simp] theorem adoptProc_prio : (adoptProc proc init x).prio = x.prio := by
  unfold adoptProc; split <;> rfl

end Fields

/-- Some child of `proc` is a zombie. -/
def ZombieChild (c : Core) (proc : Slot) : Prop :=
  ∃ p, (c.proc p).state = .zombie ∧ (c.proc p).parent = some proc

theorem passChildren_proc_of_zombie {c : Core} {proc : Slot} (h : c.ZombieChild proc) (p : Slot) :
    (c.passChildren proc).proc p =
      wakeProc (c.initproc.map .proc) (adoptProc proc c.initproc (c.proc p)) := by
  unfold passChildren
  rw [if_pos (show ∃ p, _ from h)]
  rfl

theorem passChildren_proc_of_none {c : Core} {proc : Slot} (h : ¬ c.ZombieChild proc) (p : Slot) :
    (c.passChildren proc).proc p = adoptProc proc c.initproc (c.proc p) := by
  unfold passChildren
  rw [if_neg (show ¬ ∃ p, _ from h)]
  rfl

end Core

/-! ## Scanning a list is scanning the array -/

/-- A fold that changes each process it visits, if it meets a test, changes exactly the
processes of the list that meet it. -/
theorem foldl_modify {l : List Slot} (hnd : l.Nodup) (test : Proc → Prop) [DecidablePred test]
    (f : Proc → Proc) (c : Core) :
    l.foldl (fun c a => if test (c.proc a) then c.modify a f else c) c =
      { c with proc := fun p => if p ∈ l ∧ test (c.proc p) then f (c.proc p) else c.proc p } := by
  induction l generalizing c with
  | nil => simp
  | cons a l ih =>
    obtain ⟨ha, hnd⟩ := List.nodup_cons.mp hnd
    rw [List.foldl_cons, ih hnd]
    by_cases ht : test (c.proc a)
    · simp only [ht, ↓reduceIte]
      refine Core.ext' (fun p => ?_) rfl rfl rfl
      by_cases hp : p = a
      · subst hp; simp [ha, ht]
      · simp [Core.modify_of_ne _ _ _ hp, hp]
    · simp only [ht, ↓reduceIte]
      refine Core.ext' (fun p => ?_) rfl rfl rfl
      by_cases hp : p = a
      · subst hp; simp [ha, ht]
      · simp [hp]

theorem Queues.WF.foldl_modify {q : Queues} (h : q.WF) (l : Queue) (test : Proc → Prop)
    [DecidablePred test] (f : Proc → Proc) :
    (q.list l).foldl (fun c a => if test (c.proc a) then c.modify a f else c) q.toCore =
      q.toCore.map fun x => if x.home = some l ∧ test x then f x else x := by
  rw [Xv6.foldl_modify (h.nodup l)]
  refine Core.ext' (fun p => ?_) rfl rfl rfl
  simp only [h.mem_iff, Core.map_proc]

theorem Queues.WF.foldl_toCore {q : Queues} (h : q.WF) (l : Queue) (test : Proc → Prop)
    [DecidablePred test] (f : Proc → Proc) {b : Queues → Slot → Queues}
    (hb : ∀ q a, (b q a).toCore = if test (q.proc a) then q.toCore.modify a f else q.toCore) :
    ((q.list l).foldl b q).toCore =
      q.toCore.map fun x => if x.home = some l ∧ test x then f x else x := by
  rw [← h.foldl_modify l test f]
  generalize q.list l = ps
  clear h
  induction ps generalizing q with
  | nil => rfl
  | cons a ps ih => rw [List.foldl_cons, ih, hb, List.foldl_cons]

namespace Queues

variable {q : Queues}

@[simp] theorem addready_toCore (q : Queues) (p : Slot) : (q.addready p).toCore = q.toCore := by
  unfold addready
  split <;> rfl

@[simp] theorem wake_toCore (q : Queues) (p : Slot) : (q.wake p).toCore = q.toCore.wake p := by
  simp [wake, Core.wake]

@[simp] theorem sched_toCore (q : Queues) (p : Slot) (ticks : Word) :
    (q.sched p ticks).toCore = q.toCore.sched p ticks := rfl

theorem yield_toCore (q : Queues) (p : Slot) (ticks : Word) :
    (q.yield p ticks).toCore = q.toCore.yield p ticks := by
  simp [yield, Core.yield]

theorem sleep_toCore (q : Queues) (p : Slot) (chan : Chan) (ticks : Word) :
    (q.sleep p chan ticks).toCore = q.toCore.sleep p chan ticks := by
  simp [sleep, Core.sleep]

theorem wakeupBody_toCore (chan : Option Chan) (a : Slot) (q : Queues) :
    (wakeupBody chan a q).toCore =
      if (q.toCore.proc a).chan = chan then
        q.toCore.modify a fun x => { x with state := .runnable }
      else q.toCore := by
  unfold wakeupBody
  split
  · rw [wake_toCore]; rfl
  · rfl

theorem wakeup1_toCore (h : q.WF) (chan : Option Chan) :
    (q.wakeup1 chan).toCore = q.toCore.wakeup1 chan := by
  unfold wakeup1
  rw [h.foldl_toCore .sleep (fun x => x.chan = chan) (fun x => { x with state := .runnable })
    fun q a => wakeupBody_toCore chan a q]
  refine Core.ext' (fun p => ?_) rfl rfl rfl
  simp only [Core.map_proc, Proc.home_sleep, Core.wakeup1, Core.wakeProc]

end Queues

end Xv6
