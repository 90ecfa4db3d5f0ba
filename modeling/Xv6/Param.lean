import Mathlib.Data.BitVec

/-!
# System parameters

The constants of `param.h`, `fs.h`, `memlayout.h` and `pipe.c` that the modelled code reads,
with `CS333_P5` defined as the shipped `Makefile` does.
-/

namespace Xv6

/-- A C `uint` (or an `int` stored in one). -/
abbrev Word := BitVec 32

def NPROC : Nat := 64

/-- Lowest scheduling priority; the ready lists are `ready[0..MAX]`. -/
def MAX : Nat := 5

instance (priority := 2000) : NeZero (MAX + 1) := ⟨Nat.succ_ne_zero _⟩

def BUDGET : Word := 200

def TICKS_TO_PROMOTE : Word := 5000

def DEFUID : Word := 0

def DEFGID : Word := 0

/-- Protection of a new file, `0755`. -/
def DEFMODE : Word := 493

def PGSIZE : Word := 4096

def KERNBASE : Word := 0x80000000

/-- Maximum number of arguments of `exec`. -/
def MAXARG : Nat := 32

def PIPESIZE : Word := 512

def NOFILE : Nat := 16

def NFILE : Nat := 100

def NINODE : Nat := 50

def NDEV : Nat := 10

def ROOTDEV : Nat := 1

def MAXOPBLOCKS : Nat := 10

def LOGSIZE : Nat := MAXOPBLOCKS * 3

def FSSIZE : Nat := 2000

def BSIZE : Nat := 512

def NDIRECT : Nat := 10

instance (priority := 2000) : NeZero (NDIRECT + 1) := ⟨Nat.succ_ne_zero _⟩

inductive Fault
  | panic (msg : String)
  | badIndex
  | nullDeref
  | diverge
deriving DecidableEq, Repr

end Xv6
