import Xv6.Fs.Layout
import Xv6.Lib.Effect

/-!
# The state of the file system

The data of `fs.h`, `file.h` and `fs.c`. The disk is seen through the buffer cache, with
inodes and free map taken apart: an inode block is `IPB` inodes, and `bit b` is the bit of
block `b` in the free map. What the calls read from elsewhere is in the state as what they
would find there.
-/

namespace Xv6

abbrev Byte := BitVec 8

instance : LawfulBEq Byte := inferInstance

namespace Block

def byte (x : Block) (i : Nat) : Byte :=
  (x (Fin.ofNat (BSIZE / 4) (i / 4))).extractLsb' (8 * (i % 4)) 8

def ofBytes (f : Nat → Byte) : Block := fun j =>
  f (4 * j + 3) ++ f (4 * j + 2) ++ f (4 * j + 1) ++ f (4 * j)

def zero : Block := fun _ => 0

/-- `memmove` of `m` bytes to `start` in the block. -/
def move (x : Block) (start m : Nat) (src : Nat → Byte) : Block :=
  ofBytes fun i => if start ≤ i ∧ i < start + m then src (i - start) else x.byte i

/-- `m` bytes from `start`. -/
def bytes (x : Block) (start m : Nat) : List Byte := (List.range m).map fun i => x.byte (start + i)

end Block

inductive FileType
  | free
  | dir
  | file
  | dev
deriving DecidableEq

structure Dinode where
  type : FileType
  major : BitVec 16
  minor : BitVec 16
  nlink : BitVec 16
  uid : BitVec 16
  gid : BitVec 16
  mode : Word
  size : Word
  addrs : Fin (NDIRECT + 1) → Nat

/-- `struct inode`, with the copy of the disk inode in `d`. -/
structure Inode where
  dev : Nat
  inum : Nat
  ref : Int
  /-- `I_BUSY` -/
  busy : Bool
  /-- `I_VALID` -/
  valid : Bool
  d : Dinode

abbrev InodePtr := Fin NINODE

inductive FdType
  | none
  | pipe
  | inode
deriving DecidableEq

/-- `struct file`; pipes are numbered as they are allocated. -/
structure File where
  type : FdType
  ref : Int
  readable : Bool
  writable : Bool
  pipe : Nat
  ip : InodePtr
  off : Word

abbrev FilePtr := Fin NFILE

structure Disk where
  sb : Superblock
  bit : Nat → Bool
  iblock : Nat → Fin IPB → Dinode
  block : Nat → Block

structure Fs extends Disk where
  icache : InodePtr → Inode
  ftable : FilePtr → File
  /-- The number of pipes that were allocated. -/
  pipes : Nat
  /-- What `consoleread` would return, `none` for -1. -/
  console : Option (List Byte)
  /-- What `piperead` or `pipewrite` would return. -/
  pipe : Int
  /-- Whether the functions of `vm.c` would find the memory they ask for. -/
  memory : Bool
  /-- What stands in a local variable before it is set. -/
  stack : Nat → Byte

instance : NeZero IPB := ⟨by decide⟩

instance : NeZero NINODE := ⟨by decide⟩

instance : NeZero NFILE := ⟨by decide⟩

namespace Disk

/-- The inode with a number: `(struct dinode*)bp->data + inum%IPB`. -/
def dinode (s : Disk) (inum : Nat) : Dinode := s.iblock (IBLOCK inum s.sb) (Fin.ofNat IPB inum)

def setDinode (s : Disk) (inum : Nat) (d : Dinode) : Disk :=
  { s with
    iblock := Function.update s.iblock (IBLOCK inum s.sb)
      (Function.update (s.iblock (IBLOCK inum s.sb)) (Fin.ofNat IPB inum) d) }

end Disk

structure Stat where
  type : FileType
  dev : Nat
  ino : Nat
  nlink : BitVec 16
  size : Word
  uid : BitVec 16
  gid : BitVec 16
  mode : Word

inductive Patch
  /-- `nlink++`, `nlink--` -/
  | link (n : BitVec 16)
  | make (major minor : BitVec 16)
  | mode (m : Word)
  | uid (u : BitVec 16)
  | gid (g : BitVec 16)
  /-- `type = 0` -/
  | free

def Patch.apply (d : Dinode) : Patch → Dinode
  | .link n => { d with nlink := d.nlink + n }
  | .make major minor => { d with major := major, minor := minor, nlink := 1 }
  | .mode m => { d with mode := m }
  | .uid u => { d with uid := u }
  | .gid g => { d with gid := g }
  | .free => { d with type := .free }

namespace Fs

inductive Event
  | logWrite (blockno : Nat)
  | took (ip : InodePtr)
  | dropped (ip : InodePtr)
  | frees (ip : InodePtr)
deriving DecidableEq

end Fs

abbrev FsM := Effect Fs Fs.Event Fault

namespace FsM

def panic {α : Type} (msg : String) : FsM α := Effect.fail (.panic msg)

def logWrite (blockno : Nat) : FsM Unit := Effect.emit (.logWrite blockno)

def inode (ip : InodePtr) : FsM Inode := do
  let s ← Effect.get
  pure (s.icache ip)

def setInode (ip : InodePtr) (f : Inode → Inode) : FsM Unit :=
  Effect.modify fun s => { s with icache := Function.update s.icache ip (f (s.icache ip)) }

def setDinode (ip : InodePtr) (f : Dinode → Dinode) : FsM Unit :=
  setInode ip fun i => { i with d := f i.d }

def setBlock (blockno : Nat) (f : Block → Block) : FsM Unit :=
  Effect.modify fun s =>
    { s with block := Function.update s.block blockno (f (s.block blockno)) }

/-! ## Blocks -/

def bzero (bno : Nat) : FsM Unit := do
  setBlock bno fun _ => Block.zero
  logWrite bno

def balloc : FsM Nat := do
  let s ← Effect.get
  match (List.range s.sb.size).find? fun b => !s.bit b with
  | some b =>
    Effect.modify fun s => { s with bit := Function.update s.bit b true }
    logWrite (BBLOCK b s.sb)
    bzero b
    pure b
  | none => panic "balloc: out of blocks"

def bfree (b : Nat) : FsM Unit := do
  let s ← Effect.get
  if s.bit b then
    Effect.modify fun s => { s with bit := Function.update s.bit b false }
    logWrite (BBLOCK b s.sb)
  else panic "freeing free block"

/-! ## Inodes -/

def cached (s : Fs) (dev inum : Nat) : Option InodePtr :=
  (List.finRange NINODE).find? fun ip =>
    decide ((s.icache ip).ref > 0 ∧ (s.icache ip).dev = dev ∧ (s.icache ip).inum = inum)

def iget (dev inum : Nat) : FsM InodePtr := do
  let s ← Effect.get
  match cached s dev inum with
  | some ip =>
    setInode ip fun i => { i with ref := i.ref + 1 }
    Effect.emit (.took ip)
    pure ip
  | none =>
    match (List.finRange NINODE).find? fun ip => decide ((s.icache ip).ref = 0) with
    | some ip =>
      setInode ip fun i =>
        { dev := dev, inum := inum, ref := 1, busy := false, valid := false
          d := { i.d with uid := DEFUID.setWidth 16, gid := DEFGID.setWidth 16, mode := DEFMODE } }
      Effect.emit (.took ip)
      pure ip
    | none => panic "iget: no inodes"

def idup (ip : InodePtr) : FsM InodePtr := do
  setInode ip fun i => { i with ref := i.ref + 1 }
  Effect.emit (.took ip)
  pure ip

def iupdate (ip : InodePtr) : FsM Unit := do
  let s ← Effect.get
  let i := s.icache ip
  Effect.modify fun s => { s with toDisk := s.setDinode i.inum i.d }
  logWrite (IBLOCK i.inum s.sb)

def newDinode (type : FileType) : Dinode where
  type := type
  major := 0
  minor := 0
  nlink := 0
  uid := 0
  gid := 0
  mode := 0
  size := 0
  addrs := fun _ => 0

/-- `ialloc` up to its `iget`: the number of the new inode. -/
def ialloc (type : FileType) : FsM Nat := do
  let s ← Effect.get
  match (List.range' 1 (s.sb.ninodes - 1)).find? fun inum => (s.dinode inum).type = .free with
  | some inum =>
    Effect.modify fun s => { s with toDisk := s.setDinode inum (newDinode type) }
    logWrite (IBLOCK inum s.sb)
    pure inum
  | none => panic "ialloc: no inodes"

/-- `ilock`, once the inode is not busy. -/
def ilock (ip : InodePtr) : FsM Unit := do
  let s ← Effect.get
  let i := s.icache ip
  if i.ref < 1 then panic "ilock"
  else if i.valid then setInode ip fun i => { i with busy := true }
  else
    let d := s.dinode i.inum
    setInode ip fun i => { i with busy := true, valid := true, d := d }
    if d.type = .free then panic "ilock: no type"

def iunlock (ip : InodePtr) : FsM Unit := do
  let i ← inode ip
  if i.busy = false ∨ i.ref < 1 then panic "iunlock"
  else setInode ip fun i => { i with busy := false }

/-- `iput` up to `release(&icache.lock)` if it frees the inode, all of it if not. -/
def iputTest (ip : InodePtr) : FsM Bool := do
  let i ← inode ip
  if i.ref = 1 ∧ i.valid = true ∧ i.d.nlink = 0 then
    if i.busy then panic "iput busy"
    else
      setInode ip fun i => { i with busy := true }
      Effect.emit (.frees ip)
      pure true
  else
    setInode ip fun i => { i with ref := i.ref - 1 }
    Effect.emit (.dropped ip)
    pure false

def stati (ip : InodePtr) : FsM Stat := do
  let i ← inode ip
  pure
    { type := i.d.type, dev := i.dev, ino := i.inum, nlink := i.d.nlink, size := i.d.size
      uid := i.d.uid, gid := i.d.gid, mode := i.d.mode }

def iputDone (ip : InodePtr) : FsM Unit := do
  setInode ip fun i => { i with busy := false, valid := false, ref := i.ref - 1 }
  Effect.emit (.dropped ip)

end FsM

end Xv6
