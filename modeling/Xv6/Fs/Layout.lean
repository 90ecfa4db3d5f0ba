import Xv6.Param

/-!
# The layout of the disk

`fs.h` and the arithmetic of `mkfs.c`: boot block, super block, log, inodes, free map,
data.
-/

namespace Xv6

/-- A block, as the words of its `BSIZE` bytes. -/
abbrev Block := Fin (BSIZE / 4) → Word

instance : NeZero (BSIZE / 4) := ⟨by decide⟩

structure Superblock where
  size : Nat
  nblocks : Nat
  ninodes : Nat
  nlog : Nat
  logstart : Nat
  inodestart : Nat
  bmapstart : Nat
  /-- A block number is a `uint`. -/
  size_lt : size < 2 ^ 32
deriving DecidableEq

/-- `sizeof(struct dinode)`, with the fields of `CS333_P5`: four `short`, `uid`, `gid`,
`mode`, `size` and `addrs[NDIRECT+1]`. -/
def DINODESIZE : Nat := 4 * 2 + 2 * 2 + 4 + 4 + (NDIRECT + 1) * 4

def IPB : Nat := BSIZE / DINODESIZE

def BPB : Nat := BSIZE * 8

def IBLOCK (i : Nat) (sb : Superblock) : Nat := i / IPB + sb.inodestart

/-- Block of the free map containing the bit of block `b`. -/
def BBLOCK (b : Nat) (sb : Superblock) : Nat := b / BPB + sb.bmapstart

/-- Boot block, super block, log, inodes and free map: the blocks before the data. -/
def Superblock.nmeta (sb : Superblock) : Nat := sb.bmapstart + (sb.size / BPB + 1)

def NINDIRECT : Nat := BSIZE / 4

def MAXFILE : Nat := NDIRECT + NINDIRECT

def DIRSIZ : Nat := 14

def DIRENTSIZE : Nat := 2 + DIRSIZ

def ROOTINO : Nat := 1

namespace Mkfs

def NINODES : Nat := 200

def nbitmap : Nat := FSSIZE / (BSIZE * 8) + 1

def ninodeblocks : Nat := NINODES / IPB + 1

def nlog : Nat := LOGSIZE

def nmeta : Nat := 2 + nlog + ninodeblocks + nbitmap

def sb : Superblock where
  size := FSSIZE
  nblocks := FSSIZE - nmeta
  ninodes := NINODES
  nlog := nlog
  logstart := 2
  inodestart := 2 + nlog
  bmapstart := 2 + nlog + ninodeblocks
  size_lt := by decide

end Mkfs

end Xv6
