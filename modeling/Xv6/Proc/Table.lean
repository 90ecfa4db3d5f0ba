import Xv6.Param
import Xv6.Lib.Chain

/-!
# The process table

The data of `proc.h` and `proc.c`, and the list primitives. A process pointer is a slot of
`ptable.proc`. The `next` field is kept beside the others (`Ptable.next p` is `p->next`): the
lists are the only code that touches it. Dereferencing a null pointer, indexing `ready[]` out of
range, calling `panic` and walking a cyclic list are a `Fault`.
-/

namespace Xv6

open Intrusive

/-- A pointer into `ptable.proc`. -/
abbrev Slot := Fin NPROC

instance : NeZero NPROC := ⟨by decide⟩

inductive ProcState
  | unused
  | embryo
  | sleeping
  | runnable
  | running
  | zombie
deriving DecidableEq, Repr

inductive Chan
  /-- `wait` sleeps on the address of the calling process. -/
  | proc (p : Slot)
  /-- `&ticks` -/
  | ticks
  /-- `&p->nread` of a pipe. -/
  | nread (pipe : Nat)
  /-- `&p->nwrite` of a pipe. -/
  | nwrite (pipe : Nat)
  /-- `&input.r` -/
  | input
  /-- A buffer, an inode, the log. -/
  | other (addr : Nat)
deriving DecidableEq, Repr

/-- `struct proc`, without `next`. -/
structure Proc where
  sz : Word
  pgdir : Option Nat
  kstack : Option Nat
  state : ProcState
  pid : Word
  parent : Option Slot
  chan : Option Chan
  killed : Bool
  name : String
  startTicks : Word
  uid : Word
  gid : Word
  cpuTicksTotal : Word
  cpuTicksIn : Word
  budget : Word
  prio : Int
deriving DecidableEq

/-- A slot of the zero-initialised `ptable`. -/
def Proc.zero : Proc where
  sz := 0
  pgdir := none
  kstack := none
  state := .unused
  pid := 0
  parent := none
  chan := none
  killed := false
  name := ""
  startTicks := 0
  uid := 0
  gid := 0
  cpuTicksTotal := 0
  cpuTicksIn := 0
  budget := 0
  prio := 0

/-- The list heads of `struct StateLists`. -/
inductive Queue
  | ready (i : Fin (MAX + 1))
  | free
  | sleep
  | zombie
  | running
  | embryo
deriving DecidableEq

structure Core where
  proc : Slot → Proc
  promoteAtTime : Word
  nextpid : Word
  initproc : Option Slot

/-- `ptable`, with the globals `nextpid` and `initproc`. -/
structure Ptable extends Core where
  next : Slot → Option Slot
  pLists : Queue → Option Slot

def Core.modify (c : Core) (p : Slot) (f : Proc → Proc) : Core :=
  { c with proc := Function.update c.proc p (f (c.proc p)) }

def Ptable.modify (t : Ptable) (p : Slot) (f : Proc → Proc) : Ptable :=
  { t with toCore := t.toCore.modify p f }

section Modify

variable (c : Core) (t : Ptable) (p : Slot) (f : Proc → Proc)

theorem Core.modify_apply (x : Slot) :
    (c.modify p f).proc x = if x = p then f (c.proc x) else c.proc x := by
  unfold Core.modify
  by_cases h : x = p
  · subst h; simp
  · simp [h]

@[simp] theorem Core.modify_self : (c.modify p f).proc p = f (c.proc p) := by
  simp [Core.modify_apply]

theorem Core.modify_of_ne {x : Slot} (h : x ≠ p) : (c.modify p f).proc x = c.proc x := by
  simp [Core.modify_apply, h]

@[simp] theorem Core.modify_promoteAtTime : (c.modify p f).promoteAtTime = c.promoteAtTime := rfl
@[simp] theorem Core.modify_nextpid : (c.modify p f).nextpid = c.nextpid := rfl
@[simp] theorem Core.modify_initproc : (c.modify p f).initproc = c.initproc := rfl

@[simp] theorem Ptable.modify_toCore : (t.modify p f).toCore = t.toCore.modify p f := rfl

end Modify

/-! ## List primitives -/

def Ptable.addhead (t : Ptable) (l : Queue) (toadd : Slot) : Ptable :=
  { t with
    next := Function.update t.next toadd (t.pLists l)
    pLists := Function.update t.pLists l (some toadd) }

def Ptable.addtail (t : Ptable) (l : Queue) (toadd : Slot) : Except Fault Ptable :=
  match t.pLists l with
  | none =>
    .ok { t with
      pLists := Function.update t.pLists l (some toadd)
      next := Function.update t.next toadd none }
  | some head =>
    -- while(current->next) current = current->next;
    match scan t.next (fun current => (t.next current).isNone) NPROC (some head) with
    | some (some current) =>
      .ok
        { t with
          next := Function.update (Function.update t.next current (some toadd)) toadd none }
    | _ => .error .diverge

/-- `remove(&pLists.l, x)`: `0` when `x` was taken off the list, `-1` when it is not
on it. -/
def Ptable.remove (t : Ptable) (l : Queue) (x : Slot) : Except Fault (Int × Ptable) :=
  match t.pLists l with
  | none => .ok (-1, t)
  | some head =>
    if head = x then
      .ok (0, { t with
        pLists := Function.update t.pLists l (t.next head)
        next := Function.update t.next head none })
    else
      match seek t.next x NPROC none (some head) with
      | none => .error .diverge
      | some (_, none) => .ok (-1, t)
      | some (some previous, some current) =>
        .ok (0, { t with
          next := Function.update (Function.update t.next previous (t.next current)) current none })
      | some (none, some _) => .error .nullDeref

def Ptable.assertState (t : Ptable) (p : Slot) (state : ProcState) : Except Fault Unit :=
  if (t.proc p).state ≠ state then .error (.panic "Error, invalid state removal") else .ok ()

/-- `assert(p, state); if(remove(&pLists.l, p)) panic(msg);`, which opens every move of
a process between two lists. -/
def Ptable.unlink (t : Ptable) (l : Queue) (state : ProcState) (msg : String) (p : Slot) :
    Except Fault Ptable := do
  t.assertState p state
  let (r, t) ← t.remove l p
  if r ≠ 0 then .error (.panic msg) else .ok t

/-- The list `ready[prio]`, for an index in range. -/
def readyQueue (prio : Int) : Option Queue :=
  if h : 0 ≤ prio ∧ prio ≤ MAX then some (.ready ⟨prio.toNat, by omega⟩) else none

def readyAt (prio : Int) : Except Fault Queue :=
  match readyQueue prio with
  | some l => .ok l
  | none => .error .badIndex

def Ptable.addready (t : Ptable) (p : Slot) : Except Fault Ptable := do
  let l ← readyAt (t.proc p).prio
  t.addtail l p

/-- The first process of a list that meets a test, as the `while` loops of `wait`,
`kill` and `setpriority` find it. -/
def Ptable.find (t : Ptable) (l : Queue) (test : Slot → Bool) : Except Fault (Option Slot) :=
  match scan t.next test NPROC (t.pLists l) with
  | some r => .ok r
  | none => .error .diverge

/-- `while(p){ body(p); p = p->next; }` over a list. -/
def Ptable.forEach (t : Ptable) (l : Queue) (body : Slot → Ptable → Except Fault Ptable) :
    Except Fault Ptable :=
  walk Ptable.next body .diverge NPROC (t.pLists l) t

/-- `while(p){ temp = p->next; body(p); p = temp; }` over a list. -/
def Ptable.forEachSaved (t : Ptable) (l : Queue) (body : Slot → Ptable → Except Fault Ptable) :
    Except Fault Ptable :=
  walkSaved Ptable.next body .diverge NPROC (t.pLists l) t

end Xv6
