import Xv6.Fs.Content

/-!
# `mkfs`

`mkfs.c` on the sectors of the image file, and the disk that the kernel finds in an image.
Structures stand in a sector as their words in the byte order of the machine. `none` is an exit
without an image that is finished: a failed `assert`, or a sector that cannot be read.
-/

namespace Xv6

/-! ## Structures in sectors -/

/-- `type` as a `short`. -/
def FileType.short : FileType → BitVec 16
  | .free => 0
  | .dir => 1
  | .file => 2
  | .dev => 3

def FileType.ofShort (x : BitVec 16) : FileType :=
  if x = 0 then .free else if x = 1 then .dir else if x = 2 then .file else .dev

/-- The words of `struct dinode`. -/
def Dinode.word (d : Dinode) : Nat → Word
  | 0 => d.major ++ d.type.short
  | 1 => d.nlink ++ d.minor
  | 2 => d.gid ++ d.uid
  | 3 => d.mode
  | 4 => d.size
  | k + 5 => BitVec.ofNat 32 (d.addrs (Fin.ofNat (NDIRECT + 1) k))

def Dinode.ofWords (w : Nat → Word) : Dinode where
  type := .ofShort ((w 0).extractLsb' 0 16)
  major := (w 0).extractLsb' 16 16
  minor := (w 1).extractLsb' 0 16
  nlink := (w 1).extractLsb' 16 16
  uid := (w 2).extractLsb' 0 16
  gid := (w 2).extractLsb' 16 16
  mode := w 3
  size := w 4
  addrs := fun i => (w (i + 5)).toNat

/-- The words of a `struct dinode`. -/
def DINODEWORDS : Nat := DINODESIZE / 4

namespace Block

/-- `(struct dinode*)buf + i` -/
def dinode (x : Block) (i : Fin IPB) : Dinode :=
  .ofWords fun k => x (Fin.ofNat (BSIZE / 4) (i * DINODEWORDS + k))

/-- `*dip = *ip` -/
def setDinode (x : Block) (i : Fin IPB) (d : Dinode) : Block := fun j =>
  if j / DINODEWORDS = i then d.word (j % DINODEWORDS) else x j

/-- `struct superblock` at the beginning of a sector. -/
def superblock (x : Block) : Superblock where
  size := (x 0).toNat
  nblocks := (x 1).toNat
  ninodes := (x 2).toNat
  nlog := (x 3).toNat
  logstart := (x 4).toNat
  inodestart := (x 5).toNat
  bmapstart := (x 6).toNat
  size_lt := (x 0).isLt

end Block

/-- The words of `struct superblock`. -/
def Superblock.words (sb : Superblock) : List Word :=
  [sb.size, sb.nblocks, sb.ninodes, sb.nlog, sb.logstart, sb.inodestart, sb.bmapstart].map
    (BitVec.ofNat 32)

def Dinode.zero : Dinode := .ofWords fun _ => 0

/-- The disk in an image: the inodes of the inode blocks, the bits of the free map, and the
blocks behind them. -/
def Disk.ofImage (img : Nat → Block) : Disk where
  sb := (img 1).superblock
  bit := fun b => ((img (BBLOCK b (img 1).superblock)).byte (b % BPB / 8)).getLsbD (b % 8)
  iblock := fun n i =>
    if (img 1).superblock.inodestart ≤ n ∧ n < (img 1).superblock.bmapstart then (img n).dinode i
    else .zero
  block := fun n => if n < (img 1).superblock.nmeta then .zero else img n

/-! ## The code -/

namespace Mkfs

/-- The image file and the variables of `mkfs`. -/
structure State where
  sect : Nat → Block
  /-- the sectors that the file has -/
  nsect : Nat
  freeinode : Nat
  freeblock : Nat

def wsect (s : State) (sec : Nat) (buf : Block) : State :=
  { s with sect := Function.update s.sect sec buf, nsect := max s.nsect (sec + 1) }

def rsect (s : State) (sec : Nat) : Option Block :=
  if sec < s.nsect then some (s.sect sec) else none

def winode (s : State) (inum : Nat) (d : Dinode) : Option State := do
  let buf ← rsect s (IBLOCK inum sb)
  pure (wsect s (IBLOCK inum sb) (buf.setDinode (Fin.ofNat IPB inum) d))

def rinode (s : State) (inum : Nat) : Option Dinode := do
  let buf ← rsect s (IBLOCK inum sb)
  pure (buf.dinode (Fin.ofNat IPB inum))

/-- The inode that `ialloc` writes. -/
def newDinode (type : FileType) : Dinode where
  type := type
  major := 0
  minor := 0
  nlink := 1
  uid := DEFUID.setWidth 16
  gid := DEFGID.setWidth 16
  mode := DEFMODE
  size := 0
  addrs := fun _ => 0

def ialloc (s : State) (type : FileType) : Option (Nat × State) := do
  let inum := s.freeinode
  let s ← winode { s with freeinode := s.freeinode + 1 } inum (newDinode type)
  pure (inum, s)

/-- The loop of `balloc`: the bits of the first blocks. -/
def marks (used : Nat) : Block :=
  (List.range used).foldl
    (fun buf i => buf.move (i / 8) 1 fun _ => buf.byte (i / 8) ||| (1#8 <<< (i % 8))) Block.zero

def balloc (s : State) (used : Nat) : Option State :=
  if used < BSIZE * 8 then some (wsect s sb.bmapstart (marks used)) else none

/-- `freeblock++` for a slot of the inode that is empty. -/
def takeAddr (s : State) (din : Dinode) (i : Fin (NDIRECT + 1)) : State × Dinode :=
  if din.addrs i = 0 then
    ({ s with freeblock := s.freeblock + 1 },
      { din with addrs := Function.update din.addrs i s.freeblock })
  else (s, din)

/-- `freeblock++` for an entry of an indirect block that is empty. -/
def takeEntry (s : State) (ind : Nat) (j : Fin (BSIZE / 4)) : Option (State × Nat) := do
  let indirect ← rsect s ind
  if (indirect j).toNat = 0 then
    let indirect := Function.update indirect j (BitVec.ofNat 32 s.freeblock)
    pure (wsect { s with freeblock := s.freeblock + 1 } ind indirect, (indirect j).toNat)
  else pure (s, (indirect j).toNat)

/-- The block of a file that `iappend` writes to. -/
def mapBlock (s : State) (din : Dinode) (fbn : Nat) : Option (State × Dinode × Nat) :=
  if fbn < NDIRECT then
    let r := takeAddr s din (Fin.ofNat (NDIRECT + 1) fbn)
    some (r.1, r.2, r.2.addrs (Fin.ofNat (NDIRECT + 1) fbn))
  else
    let r := takeAddr s din (Fin.last NDIRECT)
    let e := takeEntry r.1 (r.2.addrs (Fin.last NDIRECT)) (Fin.ofNat (BSIZE / 4) (fbn - NDIRECT))
    e.map fun e => (e.1, r.2, e.2)

/-- The loop of `iappend`; it takes at most as many turns as there are bytes. -/
def appendLoop : Nat → State → Dinode → Nat → List Byte → Option (State × Dinode × Nat)
  | 0, s, din, off, _ => some (s, din, off)
  | turns + 1, s, din, off, p =>
    if p = [] then some (s, din, off)
    else
      let fbn := off / BSIZE
      if fbn < MAXFILE then do
        let (s, din, x) ← mapBlock s din fbn
        let n1 := min p.length ((fbn + 1) * BSIZE - off)
        let buf ← rsect s x
        let s := wsect s x (buf.move (off - fbn * BSIZE) n1 fun i => p.getD i 0)
        appendLoop turns s din (off + n1) (p.drop n1)
      else none

def iappend (s : State) (inum : Nat) (p : List Byte) : Option State := do
  let din ← rinode s inum
  let (s, din, off) ← appendLoop p.length s din din.size.toNat p
  winode s inum { din with size := BitVec.ofNat 32 off }

/-- The bytes of `struct dirent`. -/
def dirent (inum : Nat) (name : List Byte) : List Byte :=
  (List.range DIRENTSIZE).map (Dirent.byte ⟨BitVec.ofNat 16 inum, name⟩)

/-- A file of the host: its name, and what the calls of `read` return of it. -/
structure HostFile where
  name : List Byte
  chunks : List (List Byte)

/-- The name without a leading `_`. -/
def HostFile.target (f : HostFile) : List Byte :=
  if f.name.head? = some 95 then f.name.tail else f.name

def HostFile.bytes (f : HostFile) : List Byte := f.chunks.flatten

/-- The loop over what `read` returns. -/
def appendChunks (inum : Nat) : State → List (List Byte) → Option State
  | s, [] => some s
  | s, c :: cs => do
    let s ← iappend s inum c
    appendChunks inum s cs

def addFile (s : State) (f : HostFile) : Option State :=
  if slash ∈ f.name then none
  else do
    let (inum, s) ← ialloc s .file
    let s ← iappend s ROOTINO (dirent inum f.target)
    appendChunks inum s f.chunks

def addFiles : State → List HostFile → Option State
  | s, [] => some s
  | s, f :: fs => do
    let s ← addFile s f
    addFiles s fs

def blank : State where
  sect := Function.update (fun _ => Block.zero) 1 fun j => sb.words.getD j 0
  nsect := FSSIZE
  freeinode := 1
  freeblock := nmeta

def makeRoot (s : State) : Option State := do
  let (rootino, s) ← ialloc s .dir
  if rootino = ROOTINO then
    let s ← iappend s rootino (dirent rootino [46])
    iappend s rootino (dirent rootino [46, 46])
  else none

def fixRoot (s : State) : Option State := do
  let din ← rinode s ROOTINO
  let off := din.size.toNat
  winode s ROOTINO { din with size := BitVec.ofNat 32 ((off / BSIZE + 1) * BSIZE) }

def main (files : List HostFile) : Option State := do
  let s ← makeRoot blank
  let s ← addFiles s files
  let s ← fixRoot s
  balloc s s.freeblock

end Mkfs

end Xv6
