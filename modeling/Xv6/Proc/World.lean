import Xv6.Proc.Array
import Xv6.Proc.System

/-!
# The world of processes

What the process system is for, without lists, priorities, budgets or memory: which
processes there are, who is whose child, who waits for what and who has been killed.
`WStep` says everything a step of the machine can do to that; the invariants of the
system are read off it.
-/

namespace Xv6

/-- The fields of `struct proc` that make up the life of a process. -/
@[ext] structure Life where
  state : ProcState
  pid : Word
  parent : Option Slot
  chan : Option Chan
  killed : Bool

def Proc.life (x : Proc) : Life where
  state := x.state
  pid := x.pid
  parent := x.parent
  chan := x.chan
  killed := x.killed

def Life.Alive (x : Life) : Prop :=
  x.state = .sleeping ∨ x.state = .runnable ∨ x.state = .running

/-- A process that `fork` has completed and `wait` has not returned. -/
def Life.Unreaped (x : Life) : Prop := x.Alive ∨ x.state = .zombie

instance (x : Life) : Decidable x.Alive := by unfold Life.Alive; infer_instance

instance (x : Life) : Decidable x.Unreaped := by unfold Life.Unreaped; infer_instance

structure World where
  life : Slot → Life
  nextpid : Word
  initproc : Option Slot

def Core.world (c : Core) : World where
  life := fun p => (c.proc p).life
  nextpid := c.nextpid
  initproc := c.initproc

namespace World

theorem ext' {v w : World} (hl : ∀ p, v.life p = w.life p) (hn : v.nextpid = w.nextpid)
    (hi : v.initproc = w.initproc) : v = w := by
  cases v
  cases w
  simp only [World.mk.injEq]
  exact ⟨funext hl, hn, hi⟩

def modify (w : World) (p : Slot) (f : Life → Life) : World :=
  { w with life := Function.update w.life p (f (w.life p)) }

def map (w : World) (f : Life → Life) : World := { w with life := fun p => f (w.life p) }

section Fields

variable (w : World) (p : Slot) (f : Life → Life)

@[simp] theorem modify_self : (w.modify p f).life p = f (w.life p) := by simp [modify]

theorem modify_of_ne {x : Slot} (h : x ≠ p) : (w.modify p f).life x = w.life x := by
  simp [modify, h]

@[grind =] theorem modify_apply (x : Slot) :
    (w.modify p f).life x = if x = p then f (w.life x) else w.life x := by
  by_cases h : x = p
  · subst h; simp
  · simp [modify_of_ne, h]

@[simp, grind =] theorem modify_nextpid : (w.modify p f).nextpid = w.nextpid := rfl

@[simp, grind =] theorem modify_initproc : (w.modify p f).initproc = w.initproc := rfl

@[simp, grind =] theorem map_life (x : Slot) : (w.map f).life x = f (w.life x) := rfl

@[simp, grind =] theorem map_nextpid : (w.map f).nextpid = w.nextpid := rfl

@[simp, grind =] theorem map_initproc : (w.map f).initproc = w.initproc := rfl

end Fields

end World

/-! ## What the operations do to a life -/

/-- Wake a process up if it sleeps on `chan`. -/
def Life.wake (chan : Option Chan) (x : Life) : Life :=
  if x.state = .sleeping ∧ x.chan = chan then { x with state := .runnable } else x

/-- Give a child of `proc` a new parent. -/
def Life.adopt (proc : Slot) (init : Option Slot) (x : Life) : Life :=
  if x.state ≠ .unused ∧ x.parent = some proc then { x with parent := init } else x

/-- Mark a process, and wake it up if it sleeps. -/
@[grind] def Life.kill (x : Life) : Life :=
  { x with killed := true, state := if x.state = .sleeping then .runnable else x.state }

namespace World

@[grind] def wakeup (w : World) (chan : Option Chan) : World := w.map (Life.wake chan)

def ZombieChild (w : World) (p : Slot) : Prop :=
  ∃ z, (w.life z).state = .zombie ∧ (w.life z).parent = some p

instance (w : World) (p : Slot) : Decidable (w.ZombieChild p) := by
  unfold ZombieChild
  infer_instance

/-- The children of an exiting process go to init, which is woken up if one of them is a
zombie. -/
def passChildren (w : World) (p : Slot) : World :=
  if w.ZombieChild p then (w.map (Life.adopt p w.initproc)).wakeup (w.initproc.map .proc)
  else w.map (Life.adopt p w.initproc)

def exit (w : World) (p : Slot) : World :=
  ((w.wakeup ((w.life p).parent.map .proc)).passChildren p).modify p
    fun x => { x with state := .zombie }

def alloc (w : World) (np : Slot) : World :=
  { w.modify np (fun x => { x with state := .embryo, pid := w.nextpid }) with
    nextpid := w.nextpid + 1 }

@[grind] def reap (w : World) (z : Slot) : World :=
  w.modify z fun x => { x with state := .unused, pid := 0, parent := none, killed := false }

@[grind] def sleep (w : World) (p : Slot) (chan : Chan) : World :=
  w.modify p fun x => { x with chan := some chan, state := .sleeping }

@[grind] def clearChan (w : World) (p : Slot) : World := w.modify p fun x => { x with chan := none }

@[grind] def setState (w : World) (p : Slot) (state : ProcState) : World :=
  w.modify p fun x => { x with state := state }

@[grind =] theorem alloc_life (w : World) (np x : Slot) : (w.alloc np).life x =
    if x = np then { w.life x with state := .embryo, pid := w.nextpid } else w.life x :=
  modify_apply w np (fun y => { y with state := .embryo, pid := w.nextpid }) x

/-- The pids of the unreaped children of `p`. -/
def children (w : World) (p : Slot) : List Word :=
  ((List.finRange NPROC).filter fun x => decide ((w.life x).parent = some p ∧
    (w.life x).state ≠ .unused ∧ (w.life x).state ≠ .embryo)).map fun x => (w.life x).pid

end World

section Fields

variable (chan : Option Chan) (proc : Slot) (init : Option Slot) (x : Life)

@[grind =] theorem Life.wake_state : (x.wake chan).state =
    if x.state = .sleeping ∧ x.chan = chan then .runnable else x.state := by
  unfold Life.wake
  split <;> rfl

theorem Life.wake_unused : (x.wake chan).state = .unused ↔ x.state = .unused := by
  rw [Life.wake_state]
  split
  · next h => simp [h.1]
  · rfl

@[simp, grind =] theorem Life.wake_pid : (x.wake chan).pid = x.pid := by
  unfold Life.wake; split <;> rfl

@[simp, grind =] theorem Life.wake_parent : (x.wake chan).parent = x.parent := by
  unfold Life.wake; split <;> rfl

@[simp, grind =] theorem Life.wake_chan : (x.wake chan).chan = x.chan := by
  unfold Life.wake; split <;> rfl

@[simp, grind =] theorem Life.wake_killed : (x.wake chan).killed = x.killed := by
  unfold Life.wake; split <;> rfl

@[simp] theorem Life.adopt_state : (x.adopt proc init).state = x.state := by
  unfold Life.adopt; split <;> rfl

@[simp] theorem Life.adopt_pid : (x.adopt proc init).pid = x.pid := by
  unfold Life.adopt; split <;> rfl

theorem Life.adopt_parent : (x.adopt proc init).parent =
    if x.state ≠ .unused ∧ x.parent = some proc then init else x.parent := by
  unfold Life.adopt
  split <;> rfl

@[simp] theorem Life.adopt_chan : (x.adopt proc init).chan = x.chan := by
  unfold Life.adopt; split <;> rfl

@[simp] theorem Life.adopt_killed : (x.adopt proc init).killed = x.killed := by
  unfold Life.adopt; split <;> rfl

end Fields

namespace World

/-! ## `exit`, field by field -/

section Exit

variable (w : World) (p x : Slot)

theorem zombieChild_wakeup (chan : Option Chan) :
    (w.wakeup chan).ZombieChild p ↔ w.ZombieChild p := by
  refine exists_congr fun z => ?_
  simp only [wakeup, map_life, Life.wake_parent, Life.wake_state]
  split
  · next h => simp [h.1]
  · rfl

theorem passChildren_life : (w.passChildren p).life x =
    if w.ZombieChild p then ((w.life x).adopt p w.initproc).wake (w.initproc.map .proc)
    else (w.life x).adopt p w.initproc := by
  unfold passChildren
  split <;> rfl

@[simp] theorem passChildren_initproc : (w.passChildren p).initproc = w.initproc := by
  unfold passChildren
  split <;> rfl

@[simp] theorem passChildren_nextpid : (w.passChildren p).nextpid = w.nextpid := by
  unfold passChildren
  split <;> rfl

@[simp, grind =] theorem exit_initproc : (w.exit p).initproc = w.initproc := by simp [exit, wakeup]

@[simp, grind =] theorem exit_nextpid : (w.exit p).nextpid = w.nextpid := by simp [exit, wakeup]

/-- The exiting process becomes a zombie; a sleeping one is woken up if it waits for the
exiting process, or is init and gets a zombie. -/
@[grind =] theorem exit_state : ((w.exit p).life x).state =
    if x = p then .zombie
    else if (w.life x).state = .sleeping ∧ ((w.life x).chan = (w.life p).parent.map .proc ∨
      (w.ZombieChild p ∧ (w.life x).chan = w.initproc.map .proc)) then .runnable
    else (w.life x).state := by
  unfold exit
  rw [modify_apply]
  by_cases hx : x = p
  · simp [hx]
  · simp only [hx, ↓reduceIte, passChildren_life, zombieChild_wakeup]
    by_cases hz : w.ZombieChild p <;> by_cases hs : (w.life x).state = .sleeping <;>
      by_cases hc : (w.life x).chan = (w.life p).parent.map .proc <;>
      simp [wakeup, Life.wake_state, hz, hs, hc]

@[grind =] theorem exit_parent : ((w.exit p).life x).parent =
    if (w.life x).state ≠ .unused ∧ (w.life x).parent = some p then w.initproc
    else (w.life x).parent := by
  unfold exit
  rw [modify_apply, apply_ite Life.parent, ite_self, passChildren_life, apply_ite Life.parent]
  simp only [Life.wake_parent, ite_self, Life.adopt_parent, wakeup, map_life, Life.wake_unused,
    ne_eq, map_initproc]

@[simp, grind =] theorem exit_pid : ((w.exit p).life x).pid = (w.life x).pid := by
  unfold exit
  rw [modify_apply, apply_ite Life.pid, ite_self, passChildren_life, apply_ite Life.pid]
  simp [wakeup]

@[simp, grind =] theorem exit_chan : ((w.exit p).life x).chan = (w.life x).chan := by
  unfold exit
  rw [modify_apply, apply_ite Life.chan, ite_self, passChildren_life, apply_ite Life.chan]
  simp [wakeup]

@[simp, grind =] theorem exit_killed : ((w.exit p).life x).killed = (w.life x).killed := by
  unfold exit
  rw [modify_apply, apply_ite Life.killed, ite_self, passChildren_life, apply_ite Life.killed]
  simp [wakeup]

end Exit

end World

/-! ## The steps -/

/-- No obligation to the table: the process goes on where it was when it is switched
to. -/
def Ctx.plain (k : Ctx) : Prop :=
  k ≠ .sleep ∧ k ≠ .wait ∧ k ≠ .exited ∧ ∀ site, k ≠ .asleep site

/-- The slot a process in `fork` is filling. -/
@[grind] def Ctx.child : Ctx → Option Slot
  | .forkAlloc np => some np
  | .forkCopy np => some np
  | .forkReady np => some np
  | _ => none

attribute [grind =] Function.update_apply

section Steps

variable {Cpu : Type} [DecidableEq Cpu]

/-- A turn of the loop of `wait`. -/
inductive WaitTurn (s : Sys Cpu World) (c : Cpu) (p : Slot) :
    Option Event → Sys Cpu World → Prop
  | reaped {z : Slot} (hz : (s.tbl.life z).state = .zombie)
      (hp : (s.tbl.life z).parent = some p) :
      WaitTurn s c p (some (.waited (s.tbl.life p).pid (s.tbl.life z).pid))
        ({ s with tbl := s.tbl.reap z, lock := none }.setCtx p .run)
  | failed (hz : ¬ s.tbl.ZombieChild p)
      (hf : (∀ x, (s.tbl.life x).state ≠ .unused → (s.tbl.life x).parent ≠ some p) ∨
        (s.tbl.life p).killed = true) :
      WaitTurn s c p none ({ s with lock := none }.setCtx p .run)
  | sleeps (hz : ¬ s.tbl.ZombieChild p) (hk : (s.tbl.life p).killed = false)
      (hc : ∃ x, (s.tbl.life x).state ≠ .unused ∧ (s.tbl.life x).parent = some p) :
      WaitTurn s c p none
        (({ s with tbl := s.tbl.sleep p (.proc p) }.setCtx p .wait).leave c)

def Act.Quiet : Act Cpu → Prop
  | .setpriority _ _ _ | .image _ _ _ _ _ _ | .tick | .pipe _ _ | .console _ => True
  | .sched _ | .fork _ | .kill _ _ => True
  | _ => False

inductive WStep : Sys Cpu World → Act Cpu → Option Event → Sys Cpu World → Prop
  | quiet {s s' : Sys Cpu World} {a : Act Cpu} (ha : a.Quiet) (ht : s'.tbl = s.tbl)
      (hc : s'.cpu = s.cpu) (hx : s'.ctx = s.ctx) (hl : s'.lock = s.lock) : WStep s a none s'
  | dispatch {s : Sys Cpu World} {c : Cpu} {p : Slot} (hl : s.lock = none) (hc : s.cpu c = none)
      (hp : (s.tbl.life p).state = .runnable) :
      WStep s (.sched c) none { s with
        tbl := s.tbl.setState p .running
        cpu := Function.update s.cpu c (some p)
        lock := some c }
  | resume {s : Sys Cpu World} {c : Cpu} {p : Slot} (hc : s.cpu c = some p)
      (hl : s.lock = some c) (hk : (s.ctx p).plain) :
      WStep s (.resume c) none { s with lock := none }
  | resumeSleep {s : Sys Cpu World} {c : Cpu} {p : Slot} (hc : s.cpu c = some p)
      (hl : s.lock = some c) (hk : s.ctx p = .sleep) :
      WStep s (.resume c) none ({ s with tbl := s.tbl.clearChan p, lock := none }.setCtx p .run)
  | resumeAsleep {s : Sys Cpu World} {c : Cpu} {p : Slot} {site : Site} (hc : s.cpu c = some p)
      (hl : s.lock = some c) (hk : s.ctx p = .asleep site) :
      WStep s (.resume c) none
        ({ s with tbl := s.tbl.clearChan p, lock := none }.setCtx p (.loop site))
  | resumeWait {s s' : Sys Cpu World} {c : Cpu} {p : Slot} {e : Option Event}
      (hc : s.cpu c = some p) (hl : s.lock = some c) (hk : s.ctx p = .wait)
      (hw : WaitTurn { s with tbl := s.tbl.clearChan p } c p e s') : WStep s (.resume c) e s'
  | yield {s : Sys Cpu World} {c : Cpu} {p : Slot} (hc : s.cpu c = some p) (hl : s.lock = none)
      (hk : (s.ctx p).interruptible = true) :
      WStep s (.yield c) none ({ s with tbl := s.tbl.setState p .runnable }.leave c)
  | sleep {s : Sys Cpu World} {c : Cpu} {p : Slot} {chan : Chan} (hc : s.cpu c = some p)
      (hl : s.lock = none) (hk : s.ctx p = .run) (hn : chan.isProc = false) :
      WStep s (.sleep c chan) none
        (({ s with tbl := s.tbl.sleep p chan }.setCtx p .sleep).leave c)
  | wakeup {s : Sys Cpu World} {chan : Chan} (hl : s.lock = none) :
      WStep s (.wakeup chan) none { s with tbl := s.tbl.wakeup (some chan) }
  | fork {s : Sys Cpu World} {c : Cpu} {p np : Slot} (hc : s.cpu c = some p) (hl : s.lock = none)
      (hk : s.ctx p = .run) (hnp : (s.tbl.life np).state = .unused) :
      WStep s (.fork c) (some (.alloc np s.tbl.nextpid))
        ({ s with tbl := s.tbl.alloc np }.setCtx p (.forkAlloc np))
  | kalloc {s : Sys Cpu World} {c : Cpu} {p np : Slot} {kstack : Nat} (hc : s.cpu c = some p)
      (hl : s.lock ≠ some c) (hk : s.ctx p = .forkAlloc np) :
      WStep s (.kalloc c (some kstack)) none ((s.setCtx np .run).setCtx p (.forkCopy np))
  | kallocFail {s : Sys Cpu World} {c : Cpu} {p np : Slot} (hc : s.cpu c = some p)
      (hl : s.lock = none) (hk : s.ctx p = .forkAlloc np) :
      WStep s (.kalloc c none) none ({ s with tbl := s.tbl.setState np .unused }.setCtx p .run)
  | copyuvm {s : Sys Cpu World} {c : Cpu} {p np : Slot} {pgdir : Nat} (hc : s.cpu c = some p)
      (hl : s.lock ≠ some c) (hk : s.ctx p = .forkCopy np) :
      WStep s (.copyuvm c (some pgdir)) none
        ({ s with tbl := s.tbl.modify np fun x => { x with parent := some p } }.setCtx p
          (.forkReady np))
  | copyuvmFail {s : Sys Cpu World} {c : Cpu} {p np : Slot} (hc : s.cpu c = some p)
      (hl : s.lock = none) (hk : s.ctx p = .forkCopy np) :
      WStep s (.copyuvm c none) none ({ s with tbl := s.tbl.setState np .unused }.setCtx p .run)
  | forkEnd {s : Sys Cpu World} {c : Cpu} {p np : Slot} (hc : s.cpu c = some p)
      (hl : s.lock = none) (hk : s.ctx p = .forkReady np) :
      WStep s (.forkEnd c) (some (.forked (s.tbl.life p).pid (s.tbl.life np).pid))
        ({ s with tbl := s.tbl.setState np .runnable }.setCtx p .run)
  | exit {s : Sys Cpu World} {c : Cpu} {p : Slot} (hc : s.cpu c = some p) (hl : s.lock = none)
      (hk : s.ctx p = .run) (hi : s.tbl.initproc ≠ some p) :
      WStep s (.exit c) (some (.exited (s.tbl.life p).pid (s.tbl.children p)))
        (({ s with tbl := s.tbl.exit p }.setCtx p .exited).leave c)
  | wait {s s' : Sys Cpu World} {c : Cpu} {p : Slot} {e : Option Event} (hc : s.cpu c = some p)
      (hl : s.lock = none) (hk : s.ctx p = .run) (hw : WaitTurn s c p e s') :
      WStep s (.wait c) e s'
  | kill {s : Sys Cpu World} {c : Cpu} {p t : Slot} {pid : Word} (hc : s.cpu c = some p)
      (hl : s.lock = none) (hk : s.ctx p = .run) (hp : (s.tbl.life t).pid = pid)
      (hu : (s.tbl.life t).state ≠ .unused) (hz : (s.tbl.life t).state ≠ .zombie) :
      WStep s (.kill c pid) (some (.killed t pid)) { s with tbl := s.tbl.modify t Life.kill }
  | trap {s : Sys Cpu World} {c : Cpu} {p : Slot} (hc : s.cpu c = some p) (hl : s.lock ≠ some c)
      (hk : s.ctx p = .run) :
      WStep s (.trap c) (some (.trapped p))
        { s with tbl := s.tbl.modify p fun x => { x with killed := true } }
  | enter {s : Sys Cpu World} {c : Cpu} {p : Slot} {site : Site} (hc : s.cpu c = some p)
      (hl : s.lock ≠ some c) (hk : s.ctx p = .run) :
      WStep s (.enter c site) none (s.setCtx p (.loop site))
  | testReturn {s : Sys Cpu World} {c : Cpu} {p : Slot} {site : Site} (hc : s.cpu c = some p)
      (hl : s.lock ≠ some c) (hk : s.ctx p = .loop site) : WStep s (.test c) none (s.setCtx p .run)
  | testWaking {s : Sys Cpu World} {c : Cpu} {p : Slot} {i : Nat} (hc : s.cpu c = some p)
      (hl : s.lock ≠ some c) (hk : s.ctx p = .loop (.pipewrite i))
      (ht : (s.tbl.life p).killed = false) : WStep s (.test c) none (s.setCtx p (.waking i))
  | test {s : Sys Cpu World} {c : Cpu} {p : Slot} {site : Site} (hc : s.cpu c = some p)
      (hl : s.lock ≠ some c) (hk : s.ctx p = .loop site)
      (ht : (s.tbl.life p).killed = false) : WStep s (.test c) none (s.setCtx p (.tested site))
  | wakeReaders {s : Sys Cpu World} {c : Cpu} {p : Slot} {i : Nat} (hc : s.cpu c = some p)
      (hl : s.lock = none) (hk : s.ctx p = .waking i) :
      WStep s (.wakeReaders c) none
        ({ s with tbl := s.tbl.wakeup (some (.nread i)) }.setCtx p (.tested (.pipewrite i)))
  | block {s : Sys Cpu World} {c : Cpu} {p : Slot} {site : Site} (hc : s.cpu c = some p)
      (hl : s.lock = none) (hk : s.ctx p = .tested site) :
      WStep s (.block c) none
        (({ s with tbl := s.tbl.sleep p site.chan }.setCtx p (.asleep site)).leave c)

end Steps

end Xv6
