import Xv6.Log.Protocol
import Xv6.Lib.Redo

/-!
# The log on disk

`log.c` over the buffer cache and the disk, one disk write a step, with a crash possible
between any two steps. A crash leaves the disk and nothing else; the machine then boots and
runs `recover_from_log`. `commit` runs while no operation does, so it is enough to have the
calls of `log_write` one after the other, with room for the block. A buffer that is not dirty
may be recycled at any time. The place of the log is the same after each boot.
-/

namespace Xv6

/-- `struct logheader` as it lies in a block: `n`, then `block[]`. -/
def Block.n (x : Block) : Nat := (x 0).toInt.toNat

def Block.entries (x : Block) : List Nat :=
  (List.range x.n).map fun i => (x (Fin.ofNat (BSIZE / 4) (i + 1))).toNat

def Block.withHead (x : Block) (lh : List Nat) : Block := fun j =>
  if j = 0 then BitVec.ofNat 32 lh.length
  else match lh[j.val - 1]? with
    | some b => BitVec.ofNat 32 b
    | none => x j

structure Buf where
  data : Block
  dirty : Bool

namespace LogDisk

/-- Where the machine is: in `commit`, in `recover_from_log` (`rec`), or in neither. -/
inductive Phase
  | run
  | commit
  | writeLog (tail : Nat)
  | writeHead
  | install (rec : Bool) (tail : Nat)
  | clear (rec : Bool)
  | eraseHead (rec : Bool)
  | readHead
  | recovered
deriving DecidableEq

abbrev Txn := List (Nat × Block)

end LogDisk

open LogDisk in
structure LogDisk where
  disk : Nat → Block
  cache : Nat → Option Buf
  log : Log
  phase : Phase
  /-- History: the disk at the last boot. -/
  base : Nat → Block
  /-- History: the transactions whose `commit` has been called since. -/
  txns : List Txn
  /-- History: how many of those calls have returned. -/
  returned : Nat

namespace LogDisk

def bread (s : LogDisk) (blockno : Nat) : Block :=
  match s.cache blockno with
  | some b => b.data
  | none => s.disk blockno

def load (s : LogDisk) (blockno : Nat) : LogDisk :=
  { s with
    cache := Function.update s.cache blockno
      (some ((s.cache blockno).getD { data := s.disk blockno, dirty := false })) }

def bwrite (s : LogDisk) (blockno : Nat) (data : Block) : LogDisk :=
  { s with
    disk := Function.update s.disk blockno data
    cache := Function.update s.cache blockno (some { data := data, dirty := false }) }

/-- A block outside the log, with a number that is a `uint`. -/
def Home (l : Log) (blockno : Nat) : Prop :=
  (blockno < l.start ∨ l.start + l.size ≤ blockno) ∧ blockno < 2 ^ 32

instance (l : Log) (blockno : Nat) : Decidable (Home l blockno) :=
  inferInstanceAs (Decidable (_ ∧ _))

/-- The entries have their place in the log on disk and in `lh.block`. -/
def Room (l : Log) : Prop := l.lh.length + 1 ≤ l.size ∧ l.lh.length ≤ LOGSIZE

instance (l : Log) : Decidable (Room l) := inferInstanceAs (Decidable (_ ∧ _))

inductive Act
  /-- The buffer of a block is changed to `data` and passed to `log_write`. -/
  | logWrite (blockno : Nat) (data : Block)
  | commit
  /-- The next step of `commit` or `recover_from_log`. -/
  | run
  | load (blockno : Nat)
  | evict (blockno : Nat)
  | crash
  | boot

def logWrite (s : LogDisk) (blockno : Nat) (data : Block) : LogDisk :=
  { s with
    cache := Function.update s.cache blockno (some { data := data, dirty := true })
    log := s.log.record blockno }

def txn (s : LogDisk) : Txn := s.log.lh.map fun blockno => (blockno, s.bread blockno)

def commitReturns (s : LogDisk) : LogDisk :=
  { s with phase := .run, returned := s.returned + 1 }

def writeLogBlock (s : LogDisk) (tail : Nat) (blockno : Nat) : LogDisk :=
  ((s.load blockno).bwrite (s.log.start + tail + 1) (s.bread blockno))

def installBlock (s : LogDisk) (tail : Nat) (blockno : Nat) : LogDisk :=
  ((s.load (s.log.start + tail + 1)).bwrite blockno (s.bread (s.log.start + tail + 1)))

def writeHead (s : LogDisk) : LogDisk :=
  s.bwrite s.log.start ((s.bread s.log.start).withHead s.log.lh)

def turn (s : LogDisk) : Phase → Option LogDisk
  | .commit =>
    some (if s.log.lh.length > 0 then { s with phase := .writeLog 0 } else s.commitReturns)
  | .writeLog tail =>
    match s.log.lh[tail]? with
    | some blockno => some { s.writeLogBlock tail blockno with phase := .writeLog (tail + 1) }
    | none => some { s with phase := .writeHead }
  | .writeHead => some { s.writeHead with phase := .install false 0 }
  | .install rec tail =>
    match s.log.lh[tail]? with
    | some blockno => some { s.installBlock tail blockno with phase := .install rec (tail + 1) }
    | none => some { s with phase := .clear rec }
  | .clear rec => some { s with log := { s.log with lh := [] }, phase := .eraseHead rec }
  | .eraseHead true => some { s.writeHead with phase := .recovered }
  | .eraseHead false => some s.writeHead.commitReturns
  | .readHead =>
    some { s.load s.log.start with
      log := { s.log with lh := (s.bread s.log.start).entries }
      phase := .install true 0 }
  | .run | .recovered => none

def step (s : LogDisk) : Act → Option LogDisk
  | .logWrite blockno data =>
    if s.phase = .run ∧ Home s.log blockno ∧ Room (s.log.record blockno) then
      some (s.logWrite blockno data)
    else none
  | .commit =>
    if s.phase = .run then some { s with phase := .commit, txns := s.txns ++ [s.txn] } else none
  | .run => s.turn s.phase
  | .load blockno => some (s.load blockno)
  | .evict blockno =>
    match s.cache blockno with
    | some b => if b.dirty then none
      else some { s with cache := Function.update s.cache blockno none }
    | none => none
  | .crash =>
    some { s with
      cache := fun _ => none
      log := { s.log with lh := [] }
      phase := .readHead }
  | .boot =>
    if s.phase = .recovered then
      some { s with phase := .run, base := s.disk, txns := [], returned := 0 }
    else none

def next (s : LogDisk) (a : Act) : Option (LogDisk × Unit) := (s.step a).map (·, ())

structure Init (sb : Superblock) (s : LogDisk) : Prop where
  header : 0 < sb.nlog
  log : s.log = initlog sb
  phase : s.phase = .run
  head : (s.disk sb.logstart).n = 0
  cache : ∀ b, s.cache b = none
  base : s.base = s.disk
  txns : s.txns = []
  returned : s.returned = 0

abbrev Run (sb : Superblock) (tr : List (Act × Unit)) (s : LogDisk) : Prop :=
  Trace.Run (Init sb) (Trace.Next next) tr s

end LogDisk

end Xv6
