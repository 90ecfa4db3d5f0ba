import Xv6.Lib.Cyclic
import Xv6.Proc.System
import Xv6.Fs.State

/-!
# Readers and writers of a pipe

`pipewrite`, `piperead` and `pipeclose` of `pipe.c`, run by any number of processes, which may
run between two statements that need a lock; `kill` may come at any time. A process gets
descriptors of the two ends by `dup` and `fork`, and calls `pipeclose` when it closes the last
descriptor of an end that there is.
-/

namespace Xv6

namespace Pipes

/-- `struct pipe`, without its lock. -/
structure Buffer extends Pipe where
  data : Fin PIPESIZE.toNat → Byte

instance : NeZero PIPESIZE.toNat := ⟨by decide⟩

inductive End
  | reader
  | writer
deriving DecidableEq

instance : Fintype End where
  elems := {.reader, .writer}
  complete := by
    intro e
    cases e with
    | reader | writer => simp

/-- What a process sleeps on: `&p->nread` or `&p->nwrite`. -/
inductive Chan
  | nread
  | nwrite
deriving DecidableEq

namespace Buffer

def full (b : Buffer) : Bool := decide (b.nwrite = b.nread + PIPESIZE)

def empty (b : Buffer) : Bool := decide (b.nread = b.nwrite)

/-- `p->data[p->nwrite++ % PIPESIZE] = x` -/
def store (b : Buffer) (x : Byte) : Buffer :=
  { b with
    data := Function.update b.data (Cyclic.cell PIPESIZE.toNat b.nwrite) x
    nwrite := b.nwrite + 1 }

def front (b : Buffer) : Byte := b.data (Cyclic.cell PIPESIZE.toNat b.nread)

def isOpen (b : Buffer) : End → Bool
  | .reader => b.readopen
  | .writer => b.writeopen

/-- `p->readopen = 0` or `p->writeopen = 0` -/
def shut (b : Buffer) : End → Buffer
  | .reader => { b with readopen := false }
  | .writer => { b with writeopen := false }

end Buffer

/-- Whom `pipeclose` wakes up: those who wait for the other end. -/
def End.waiters : End → Chan
  | .writer => .nread
  | .reader => .nwrite

/-! ## Where a process is -/

inductive WriteAt
  /-- Before `acquire`, at the beginning or at the end of `sleep`; it has written `i` bytes. -/
  | acquire (i : Nat)
  /-- Before the test of the `for`. It has stored something since it took the lock, or not. -/
  | loop (i : Nat) (stored : Bool)
  /-- Before the `wakeup` of the inner loop. -/
  | full (i : Nat)
  /-- Before `sleep`. -/
  | sleep (i : Nat)
  /-- In `sleep`, with `ptable.lock`. -/
  | falling (i : Nat)
  /-- Before the last `wakeup`. -/
  | last
  | done

inductive ReadAt
  | acquire
  /-- Before the test of the `while`. -/
  | test
  | sleep
  | falling
  /-- Before the test of the `for`, with `i` bytes read. -/
  | copy (i : Nat)
  | last (i : Nat)
  | done (i : Nat)

inductive CloseAt
  | acquire
  /-- Before the flag is cleared. -/
  | shut
  | wakeup
  | test
  | free

inductive Pc
  | out
  | write (src : Nat → Byte) (n : Int) (k : WriteAt)
  | read (n : Int) (k : ReadAt)
  | close (e : End) (k : CloseAt)

def Pc.isOut : Pc → Bool
  | out => true
  | _ => false

structure Proc where
  pc : Pc
  /-- The channel, if it is `SLEEPING`. -/
  asleep : Option Chan
  killed : Bool
  /-- The number of its descriptors of an end. -/
  fds : End → Nat

structure State (T : Type) where
  pipe : Buffer
  /-- `p->lock` -/
  lock : Option T
  /-- `ptable.lock` -/
  ptable : Option T
  proc : T → Proc

inductive Action (T : Type)
  | write (t : T) (src : Nat → Byte) (n : Int)
  | read (t : T) (n : Int)
  | close (t : T) (e : End)
  | dup (t : T) (e : End)
  | fork (t u : T)
  | kill (t : T)
  | run (t : T)

inductive Event (T : Type)
  | stored (x : Byte)
  | delivered (x : Byte)
  | returned (t : T) (r : Int)
  /-- The flag of an end is cleared. -/
  | shut (t : T) (e : End)
  | freed (t : T)

/-! ## Steps -/

namespace State

variable {T : Type} [DecidableEq T]

def set (s : State T) (t : T) (p : Proc) : State T :=
  { s with proc := Function.update s.proc t p }

def goto (s : State T) (t : T) (k : Pc) : State T := s.set t { s.proc t with pc := k }

omit [DecidableEq T] in
def wake (s : State T) (c : Chan) : State T :=
  { s with
    proc := fun t =>
      if (s.proc t).asleep = some c then { s.proc t with asleep := none } else s.proc t }

omit [DecidableEq T] in
theorem wake_pc (s : State T) (c : Chan) (t : T) : ((s.wake c).proc t).pc = (s.proc t).pc := by
  dsimp only [wake]
  split
  · rfl
  · rfl

omit [DecidableEq T] in
theorem wake_fds (s : State T) (c : Chan) (t : T) :
    ((s.wake c).proc t).fds = (s.proc t).fds := by
  dsimp only [wake]
  split
  · rfl
  · rfl

abbrev Outcome (T : Type) := Option (State T × Option (Event T))

def acquire (s : State T) (t : T) (k : Pc) : Outcome T :=
  if s.lock = none then some ({ s with lock := some t }.goto t k, none) else none

/-- `wakeup` takes `ptable.lock` and releases it. -/
def wakeup (s : State T) (t : T) (c : Chan) (k : Pc) : Outcome T :=
  if s.ptable = none then some ((s.wake c).goto t k, none) else none

/-- `sleep` up to `release(lk)`. -/
def sleep (s : State T) (t : T) (k : Pc) : Outcome T :=
  if s.ptable = none then some ({ s with lock := none, ptable := some t }.goto t k, none)
  else none

/-- `sleep` from there to `sched`, which releases `ptable.lock`. -/
def fall (s : State T) (t : T) (c : Chan) (k : Pc) : Outcome T :=
  some ({ s with ptable := none }.set t { s.proc t with pc := k, asleep := some c }, none)

/-- `release(&p->lock)` and `return` -/
def ret (s : State T) (t : T) (r : Int) : Outcome T :=
  some ({ s with lock := none }.goto t .out, some (.returned t r))

def pipewrite (s : State T) (t : T) (src : Nat → Byte) (n : Int) : WriteAt → Outcome T
  | .acquire i => s.acquire t (.write src n (.loop i false))
  | .loop i _ =>
    if i < n then
      if s.pipe.full then
        if s.pipe.readopen = false ∨ (s.proc t).killed then s.ret t (-1)
        else some (s.goto t (.write src n (.full i)), none)
      else
        some ({ s with pipe := s.pipe.store (src i) }.goto t (.write src n (.loop (i + 1) true)),
          some (.stored (src i)))
    else some (s.goto t (.write src n .last), none)
  | .full i => s.wakeup t .nread (.write src n (.sleep i))
  | .sleep i => s.sleep t (.write src n (.falling i))
  | .falling i => s.fall t .nwrite (.write src n (.acquire i))
  | .last => s.wakeup t .nread (.write src n .done)
  | .done => s.ret t n

def piperead (s : State T) (t : T) (n : Int) : ReadAt → Outcome T
  | .acquire => s.acquire t (.read n .test)
  | .test =>
    if s.pipe.empty ∧ s.pipe.writeopen then
      if (s.proc t).killed then s.ret t (-1) else some (s.goto t (.read n .sleep), none)
    else some (s.goto t (.read n (.copy 0)), none)
  | .sleep => s.sleep t (.read n .falling)
  | .falling => s.fall t .nread (.read n .acquire)
  | .copy i =>
    if i < n ∧ s.pipe.empty = false then
      some ({ s with pipe := { s.pipe with nread := s.pipe.nread + 1 } }.goto t
        (.read n (.copy (i + 1))), some (.delivered s.pipe.front))
    else some (s.goto t (.read n (.last i)), none)
  | .last i => s.wakeup t .nwrite (.read n (.done i))
  | .done i => s.ret t i

def pipeclose (s : State T) (t : T) (e : End) : CloseAt → Outcome T
  | .acquire => s.acquire t (.close e .shut)
  | .shut =>
    some ({ s with pipe := s.pipe.shut e }.goto t (.close e .wakeup), some (.shut t e))
  | .wakeup => s.wakeup t e.waiters (.close e .test)
  | .test =>
    if s.pipe.readopen = false ∧ s.pipe.writeopen = false then
      some ({ s with lock := none }.goto t (.close e .free), none)
    else some ({ s with lock := none }.goto t .out, none)
  | .free => some (s.goto t .out, some (.freed t))

def run (s : State T) (t : T) : Outcome T :=
  match (s.proc t).pc with
  | .out => none
  | .write src n k => s.pipewrite t src n k
  | .read n k => s.piperead t n k
  | .close e k => s.pipeclose t e k

omit [DecidableEq T] in
def Has (s : State T) (t : T) (e : End) : Prop :=
  (s.proc t).pc.isOut = true ∧ 0 < (s.proc t).fds e

instance (s : State T) (t : T) (e : End) : Decidable (s.Has t e) :=
  inferInstanceAs (Decidable (_ ∧ _))

omit [DecidableEq T] in
def Stranger (s : State T) (t : T) : Prop :=
  (s.proc t).pc.isOut = true ∧ ∀ e, (s.proc t).fds e = 0

instance (s : State T) (t : T) : Decidable (s.Stranger t) :=
  inferInstanceAs (Decidable (_ ∧ _))

variable [Fintype T]

def close (s : State T) (t : T) (e : End) : State T :=
  let s := s.set t { s.proc t with
    fds := Function.update (s.proc t).fds e ((s.proc t).fds e - 1) }
  if ∀ u, (s.proc u).fds e = 0 then s.goto t (.close e .acquire) else s

def fork (s : State T) (t u : T) : State T :=
  s.set u { pc := .out, asleep := none, killed := false, fds := (s.proc t).fds }

def next (s : State T) : Action T → Outcome T
  | .write t src n =>
    if s.Has t .writer then some (s.goto t (.write src n (.acquire 0)), none) else none
  | .read t n => if s.Has t .reader then some (s.goto t (.read n .acquire), none) else none
  | .close t e => if s.Has t e then some (s.close t e, none) else none
  | .dup t e =>
    if s.Has t e then
      some (s.set t { s.proc t with
        fds := Function.update (s.proc t).fds e ((s.proc t).fds e + 1) }, none)
    else none
  | .fork t u =>
    if (∃ e, s.Has t e) ∧ s.Stranger u then some (s.fork t u, none) else none
  | .kill t => some (s.set t { s.proc t with killed := true, asleep := none }, none)
  | .run t => if (s.proc t).asleep = none then s.run t else none

/-! ## Reading the steps back -/

section Inversion

omit [Fintype T]

variable {s : State T} {t : T} {k : Pc} {c : Chan} {r : State T × Option (Event T)}

theorem of_acquire (h : s.acquire t k = some r) :
    s.lock = none ∧ r = ({ s with lock := some t }.goto t k, none) := by
  unfold acquire at h
  split at h
  · next hlock => exact ⟨hlock, (Option.some.inj h).symm⟩
  · cases h

theorem of_wakeup (h : s.wakeup t c k = some r) :
    s.ptable = none ∧ r = ((s.wake c).goto t k, none) := by
  unfold wakeup at h
  split at h
  · next htable => exact ⟨htable, (Option.some.inj h).symm⟩
  · cases h

theorem of_sleep (h : s.sleep t k = some r) :
    s.ptable = none ∧ r = ({ s with lock := none, ptable := some t }.goto t k, none) := by
  unfold sleep at h
  split at h
  · next htable => exact ⟨htable, (Option.some.inj h).symm⟩
  · cases h

end Inversion

/-- `pipealloc` has made the pipe, and somebody has a descriptor of each end. -/
structure Init (s : State T) : Prop where
  nread : s.pipe.nread = 0
  nwrite : s.pipe.nwrite = 0
  isOpen : ∀ e, s.pipe.isOpen e = true
  lock : s.lock = none
  ptable : s.ptable = none
  pc : ∀ t, (s.proc t).pc = .out
  asleep : ∀ t, (s.proc t).asleep = none
  fds : ∀ e, ∃ t, 0 < (s.proc t).fds e

end State

def start (n : Nat) : State (Fin (n + 2)) where
  pipe := { nread := 0, nwrite := 0, readopen := true, writeopen := true, data := fun _ => 0 }
  lock := none
  ptable := none
  proc := fun t =>
    { pc := .out, asleep := none, killed := false
      fds := fun e => if (e = .writer ↔ t = 0) then 1 else 0 }

theorem start_init (n : Nat) : (start n).Init where
  nread := rfl
  nwrite := rfl
  isOpen := by
    intro e
    cases e with
    | reader | writer => rfl
  lock := rfl
  ptable := rfl
  pc := fun _ => rfl
  asleep := fun _ => rfl
  fds := by
    intro e
    cases e with
    | reader => exact ⟨1, by simp [start]⟩
    | writer => exact ⟨0, by simp [start]⟩

end Pipes

end Xv6
