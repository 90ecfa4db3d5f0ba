import Xv6.Fs.Layout
import Xv6.Lib.Ring
import Xv6.Lib.Run

/-!
# The buffer cache

`bio.c` and the queue of `ide.c`, with any number of processes that read, change, log, write
and release blocks. A step is a section of code under `bcache.lock`, `idelock` or `log.lock`,
or what the holder of a buffer does without a lock. The disk has two drives and reports no
errors.
-/

namespace Xv6

def NBUF : Nat := MAXOPBLOCKS * 3

instance : NeZero NBUF := ⟨by decide⟩

/-- `b->dev` before the first use: -1. -/
def NODEV : Nat := 2 ^ 32 - 1

/-- `struct buf` without its links. -/
structure Bcache.Buf where
  busy : Bool
  valid : Bool
  dirty : Bool
  dev : Nat
  blockno : Nat
  data : Block

abbrev BufPtr := Fin NBUF

/-- A buffer, or `none` for `bcache.head`. -/
abbrev BufNode := Option BufPtr

abbrev Drives := Nat → Nat → Block

structure Bcache where
  buf : BufPtr → Bcache.Buf
  links : Ring.Links BufNode
  /-- `idequeue` and what `qnext` leads to. -/
  idequeue : List BufPtr
  havedisk1 : Bool
  disk : Drives

namespace Bcache

def modify (s : Bcache) (b : BufPtr) (f : Buf → Buf) : Bcache :=
  { s with buf := Function.update s.buf b (f (s.buf b)) }

def binit (havedisk1 : Bool) (disk : Drives) : Bcache where
  buf := fun _ =>
    { busy := false, valid := false, dirty := false, dev := NODEV, blockno := 0
      data := fun _ => 0 }
  links := (List.finRange NBUF).foldl (fun r b => r.pushFront none (some b)) (.alone none)
  idequeue := []
  havedisk1 := havedisk1
  disk := disk

/-! ## `ide.c` -/

def drive (dev : Nat) : Nat := dev % 2

def idestart (s : Bcache) (b : BufPtr) : Except Fault Bcache :=
  let x := s.buf b
  if x.blockno ≥ FSSIZE then .error (.panic "incorrect blockno")
  else if x.dirty then
    .ok { s with
      disk := Function.update s.disk (drive x.dev)
        (Function.update (s.disk (drive x.dev)) x.blockno x.data) }
  else .ok s

/-- `iderw` up to its loop. -/
def iderw (s : Bcache) (b : BufPtr) : Except Fault Bcache :=
  let x := s.buf b
  if !x.busy then .error (.panic "iderw: buf not busy")
  else if x.valid && !x.dirty then .error (.panic "iderw: nothing to do")
  else if x.dev ≠ 0 ∧ s.havedisk1 = false then .error (.panic "iderw: ide disk 1 not present")
  else
    let t := { s with idequeue := s.idequeue ++ [b] }
    if s.idequeue = [] then t.idestart b else .ok t

def finished (s : Bcache) (b : BufPtr) : Bool := (s.buf b).valid && !(s.buf b).dirty

def ideintr (s : Bcache) : Except Fault Bcache :=
  match s.idequeue with
  | [] => .ok s
  | b :: q =>
    let t := { s with idequeue := q }.modify b fun x =>
      { x with
        data := if x.dirty then x.data else s.disk (drive x.dev) x.blockno
        valid := true
        dirty := false }
    match q with
    | [] => .ok t
    | b' :: _ => t.idestart b'

/-! ## `bio.c` -/

/-- The buffers in the order of `next`, from `head.next`. -/
def forward (s : Bcache) : List BufPtr :=
  (Ring.Links.walk s.links.next none (NBUF + 1) (s.links.next none)).filterMap id

/-- The buffers in the order of `prev`, from `head.prev`. -/
def backward (s : Bcache) : List BufPtr :=
  (Ring.Links.walk s.links.prev none (NBUF + 1) (s.links.prev none)).filterMap id

inductive Got
  | buf (b : BufPtr)
  | sleeps (b : BufPtr)
deriving DecidableEq

/-- `bget` from its label `loop` to the return or the `sleep`. -/
def bget (s : Bcache) (dev blockno : Nat) : Except Fault (Got × Bcache) :=
  match s.forward.find? fun b =>
    decide ((s.buf b).dev = dev ∧ (s.buf b).blockno = blockno) with
  | some b =>
    if !(s.buf b).busy then .ok (.buf b, s.modify b fun x => { x with busy := true })
    else .ok (.sleeps b, s)
  | none =>
    match s.backward.find? fun b => !(s.buf b).busy && !(s.buf b).dirty with
    | some b =>
      .ok (.buf b, s.modify b fun x =>
        { x with dev := dev, blockno := blockno, busy := true, valid := false, dirty := false })
    | none => .error (.panic "bget: no buffers")

def brelse (s : Bcache) (b : BufPtr) : Except Fault Bcache :=
  if !(s.buf b).busy then .error (.panic "brelse")
  else
    .ok ({ s with links := (s.links.remove (some b)).pushFront none (some b) }.modify b
      fun x => { x with busy := false })

end Bcache

/-! ## Processes that use the cache -/

namespace BufSys

inductive Pc
  | out
  /-- In `bread`, before a turn of `bget`. -/
  | bget (dev blockno : Nat)
  /-- In the `sleep` of `bget`. -/
  | waits (dev blockno : Nat)
  /-- In `bread`, after `bget`. -/
  | got (b : BufPtr)
  /-- In the loop of `iderw`, called by `bread`. -/
  | reading (b : BufPtr)
  /-- In the loop of `iderw`, called by `bwrite`. -/
  | writing (b : BufPtr)
deriving DecidableEq

structure State (P : Type) where
  cache : Bcache
  pc : P → Pc
  /-- The buffers that `bread` has returned to a process. -/
  held : P → List BufPtr
  /-- The buffers changed since the last `log_write` or `bwrite`. -/
  touched : BufPtr → Bool

inductive Act (P : Type)
  | bread (p : P) (dev blockno : Nat)
  | run (p : P)
  /-- A sleeper in `bget` is woken up, by whatever it is. -/
  | wake (p : P)
  | ideintr
  | change (p : P) (b : BufPtr) (data : Block)
  | logWrite (p : P) (b : BufPtr)
  | bwrite (p : P) (b : BufPtr)
  | brelse (p : P) (b : BufPtr)

/-- What can be seen from outside: `bread` returns, or the holder of a block changes it. -/
inductive Event
  | read (dev blockno : Nat) (data : Block)
  | write (dev blockno : Nat) (data : Block)

namespace State

variable {P : Type} [DecidableEq P]

def goto (s : State P) (p : P) (k : Pc) : State P := { s with pc := Function.update s.pc p k }

def returned (s : State P) (p : P) (b : BufPtr) : State P × Option Event :=
  ({ s with held := Function.update s.held p (b :: s.held p) }.goto p .out,
    some (.read (s.cache.buf b).dev (s.cache.buf b).blockno (s.cache.buf b).data))

def run (s : State P) (p : P) : Option (State P × Option Event) :=
  match s.pc p with
  | .bget dev blockno =>
    match s.cache.bget dev blockno with
    | .ok (.buf b, t) => some ({ s with cache := t }.goto p (.got b), none)
    | .ok (.sleeps _, _) => some (s.goto p (.waits dev blockno), none)
    | .error _ => none
  | .got b =>
    if (s.cache.buf b).valid then some (s.returned p b)
    else
      match s.cache.iderw b with
      | .ok t => some ({ s with cache := t }.goto p (.reading b), none)
      | .error _ => none
  | .reading b => if s.cache.finished b then some (s.returned p b) else none
  | .writing b => if s.cache.finished b then some (s.goto p .out, none) else none
  | _ => none

def uses (s : State P) (p : P) (b : BufPtr) : Bool :=
  decide (s.pc p = .out ∧ b ∈ s.held p)

def next (s : State P) : Act P → Option (State P × Option Event)
  | .bread p dev blockno =>
    if s.pc p = .out ∧ dev < 2 then some (s.goto p (.bget dev blockno), none) else none
  | .run p => s.run p
  | .wake p =>
    match s.pc p with
    | .waits dev blockno => some (s.goto p (.bget dev blockno), none)
    | _ => none
  | .ideintr =>
    match s.cache.ideintr with
    | .ok t => some ({ s with cache := t }, none)
    | .error _ => none
  | .change p b data =>
    if s.uses p b then
      some ({ s with
        cache := s.cache.modify b fun x => { x with data := data }
        touched := Function.update s.touched b true },
        some (.write (s.cache.buf b).dev (s.cache.buf b).blockno data))
    else none
  | .logWrite p b =>
    if s.uses p b then
      some ({ s with
        cache := s.cache.modify b fun x => { x with dirty := true }
        touched := Function.update s.touched b false }, none)
    else none
  | .bwrite p b =>
    if s.uses p b then
      match (s.cache.modify b fun x => { x with dirty := true }).iderw b with
      | .ok t =>
        some ({ s with cache := t, touched := Function.update s.touched b false }.goto p
          (.writing b), none)
      | .error _ => none
    else none
  | .brelse p b =>
    if s.uses p b ∧ s.touched b = false then
      match s.cache.brelse b with
      | .ok t =>
        some ({ s with cache := t, held := Function.update s.held p ((s.held p).erase b) }, none)
      | .error _ => none
    else none

def boot (havedisk1 : Bool) (disk : Drives) : State P where
  cache := .binit havedisk1 disk
  pc := fun _ => .out
  held := fun _ => []
  touched := fun _ => false

def Init (disk : Drives) (s : State P) : Prop := ∃ havedisk1, s = boot havedisk1 disk

omit [DecidableEq P] in
theorem boot_init (havedisk1 : Bool) (disk : Drives) : Init disk (boot havedisk1 disk : State P) :=
  ⟨havedisk1, rfl⟩

abbrev Run (disk : Drives) (tr : List (Act P × Option Event)) (s : State P) : Prop :=
  Trace.Run (Init disk) (Trace.Next next) tr s

end State

end BufSys

end Xv6
