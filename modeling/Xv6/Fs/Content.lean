import Xv6.Fs.State

/-!
# Files, directories and names

`bmap`, `itrunc`, `readi`, `writei` and the directory and path functions of `fs.c`, as
far as they run under the lock of one inode.
-/

namespace Xv6

/-! ## Strings -/

/-- `strncmp`, with the end of a list as the terminating zero. -/
def strncmp : List Byte → List Byte → Nat → Int
  | _, _, 0 => 0
  | p, q, n + 1 =>
    if p.headD 0 ≠ 0 ∧ p.headD 0 = q.headD 0 then strncmp p.tail q.tail n
    else (p.headD 0).toNat - (q.headD 0).toNat

def namecmp (s t : List Byte) : Int := strncmp s t DIRSIZ

/-- The bytes `strncpy` stores: up to the terminating zero, then zeros. -/
def strncpy (t : List Byte) (n : Nat) : List Byte :=
  let x := (t.take n).takeWhile (· ≠ 0)
  x ++ List.replicate (n - x.length) 0

def slash : Byte := 47

def skipelem (path : List Byte) : Option (List Byte × List Byte) :=
  match path.dropWhile (· = slash) with
  | [] => none
  | c :: s =>
    some (((c :: s).takeWhile (· ≠ slash)).take DIRSIZ,
      ((c :: s).dropWhile (· ≠ slash)).dropWhile (· = slash))

structure Dirent where
  inum : BitVec 16
  name : List Byte

def Dirent.ofBytes (x : List Byte) : Dirent where
  inum := (x.getD 1 0) ++ (x.getD 0 0)
  name := (x.drop 2).take DIRSIZ

/-- The bytes of an entry, with the name stored by `strncpy`. -/
def Dirent.byte (de : Dirent) (i : Nat) : Byte :=
  if i = 0 then de.inum.extractLsb' 0 8
  else if i = 1 then de.inum.extractLsb' 8 8
  else (strncpy de.name DIRSIZ).getD (i - 2) 0

namespace FsM

/-! ## Content of inodes -/

def setAddr (ip : InodePtr) (i : Fin (NDIRECT + 1)) (addr : Nat) : FsM Unit :=
  setDinode ip fun d => { d with addrs := Function.update d.addrs i addr }

/-- The block in a slot of `addrs`, allocated if there is none. -/
def addrOf (ip : InodePtr) (i : Fin (NDIRECT + 1)) : FsM Nat := do
  let ino ← inode ip
  if ino.d.addrs i = 0 then
    let addr ← balloc
    setAddr ip i addr
    pure addr
  else pure (ino.d.addrs i)

/-- The block number in an entry of an indirect block, allocated if there is none. -/
def entryOf (ind : Nat) (j : Fin (BSIZE / 4)) : FsM Nat := do
  let s ← Effect.get
  if (s.block ind j).toNat = 0 then
    let addr ← balloc
    setBlock ind fun a => Function.update a j (BitVec.ofNat 32 addr)
    logWrite ind
    pure addr
  else pure (s.block ind j).toNat

def bmap (ip : InodePtr) (bn : Nat) : FsM Nat :=
  if bn < NDIRECT then addrOf ip (Fin.ofNat (NDIRECT + 1) bn)
  else if bn - NDIRECT < NINDIRECT then do
    let ind ← addrOf ip (Fin.last NDIRECT)
    entryOf ind (Fin.ofNat (BSIZE / 4) (bn - NDIRECT))
  else panic "bmap: out of range"

def freeDirect (ip : InodePtr) : List (Fin (NDIRECT + 1)) → FsM Unit
  | [] => pure ()
  | i :: is => do
    let ino ← inode ip
    if ino.d.addrs i ≠ 0 then
      bfree (ino.d.addrs i)
      setAddr ip i 0
    freeDirect ip is

def freeEntries (a : Block) : List (Fin (BSIZE / 4)) → FsM Unit
  | [] => pure ()
  | j :: js => do
    if (a j).toNat ≠ 0 then bfree (a j).toNat
    freeEntries a js

/-- `itrunc` frees the indirect block and its entries. -/
def freeIndirect (ip : InodePtr) : FsM Unit := do
  let s ← Effect.get
  if (s.icache ip).d.addrs (Fin.last NDIRECT) ≠ 0 then
    freeEntries (s.block ((s.icache ip).d.addrs (Fin.last NDIRECT))) (List.finRange (BSIZE / 4))
    bfree ((s.icache ip).d.addrs (Fin.last NDIRECT))
    setAddr ip (Fin.last NDIRECT) 0
  else pure ()

def itrunc (ip : InodePtr) : FsM Unit := do
  freeDirect ip ((List.range NDIRECT).map (Fin.ofNat (NDIRECT + 1)))
  freeIndirect ip
  setDinode ip fun d => { d with size := 0 }
  iupdate ip

/-- The loop of `readi`, from `off` for `n` bytes; it takes at most `n` turns. -/
def readLoop (ip : InodePtr) : Nat → Nat → Nat → FsM (List Byte)
  | 0, _, _ => pure []
  | turns + 1, off, n =>
    if n = 0 then pure []
    else do
      let b ← bmap ip (off / BSIZE)
      let s ← Effect.get
      let m := min n (BSIZE - off % BSIZE)
      let rest ← readLoop ip turns (off + m) (n - m)
      pure ((s.block b).bytes (off % BSIZE) m ++ rest)

/-- `readi` of a file that is not a device: the bytes it reads, or `none` for -1. -/
def readi (ip : InodePtr) (off n : Word) : FsM (Option (List Byte)) := do
  let i ← inode ip
  if off > i.d.size ∨ off + n < off then pure none
  else
    let n := if off + n > i.d.size then i.d.size - off else n
    let x ← readLoop ip n.toNat off.toNat n.toNat
    pure (some x)

def writeLoop (ip : InodePtr) : Nat → (Nat → Byte) → Nat → Nat → FsM Unit
  | 0, _, _, _ => pure ()
  | turns + 1, src, off, n =>
    if n = 0 then pure ()
    else do
      let b ← bmap ip (off / BSIZE)
      let m := min n (BSIZE - off % BSIZE)
      setBlock b fun x => x.move (off % BSIZE) m src
      logWrite b
      writeLoop ip turns (fun i => src (m + i)) (off + m) (n - m)

/-- `writei` to a file that is not a device: the number of bytes, or `none` for -1. -/
def writei (ip : InodePtr) (src : Nat → Byte) (off n : Word) : FsM (Option Nat) := do
  let i ← inode ip
  if off > i.d.size ∨ off + n < off then pure none
  else if (off + n).toNat > MAXFILE * BSIZE then pure none
  else
    writeLoop ip n.toNat src off.toNat n.toNat
    if n > 0 ∧ off + n > i.d.size then
      setDinode ip fun d => { d with size := off + n }
      iupdate ip
    pure (some n.toNat)

/-! ## Directories -/

def readDirent (dp : InodePtr) (off : Nat) (msg : String) : FsM Dirent := do
  match ← readi dp (BitVec.ofNat 32 off) (BitVec.ofNat 32 DIRENTSIZE) with
  | some x => if x.length = DIRENTSIZE then pure (.ofBytes x) else panic msg
  | none => panic msg

/-- The first entry from `off` on that a test accepts, with its offset. -/
def scan (dp : InodePtr) (msg : String) (test : Dirent → Bool) :
    Nat → Nat → FsM (Option (Dirent × Nat))
  | 0, _ => pure none
  | turns + 1, off => do
    let i ← inode dp
    if off < i.d.size.toNat then
      let de ← readDirent dp off msg
      if test de then pure (some (de, off)) else scan dp msg test turns (off + DIRENTSIZE)
    else pure none

/-- `dirlookup` up to its `iget`: the device and number of the inode that the entry of a
name names, and the offset of the entry. -/
def dirfind (dp : InodePtr) (name : List Byte) : FsM (Option (Nat × Nat × Nat)) := do
  let i ← inode dp
  if i.d.type ≠ .dir then panic "dirlookup not DIR"
  else
    let live := fun de : Dirent => de.inum ≠ 0 ∧ namecmp name de.name = 0
    match ← scan dp "dirlink read" live i.d.size.toNat 0 with
    | some (de, off) => pure (some (i.dev, de.inum.toNat, off))
    | none => pure none

/-- Where `dirlink` writes: the first entry that is not in use, or the end. -/
def freeSlot (dp : InodePtr) : FsM Nat := do
  let i ← inode dp
  match ← scan dp "dirlink read" (fun de => de.inum = 0) i.d.size.toNat 0 with
  | some (_, off) => pure off
  -- the offset where the loop over whole entries ends
  | none => pure ((i.d.size.toNat + (DIRENTSIZE - 1)) / DIRENTSIZE * DIRENTSIZE)

def isdirempty (dp : InodePtr) : FsM Bool := do
  let i ← inode dp
  match ← scan dp "isdirempty: readi" (fun de => de.inum ≠ 0) i.d.size.toNat
    (2 * DIRENTSIZE) with
  | some _ => pure false
  | none => pure true

/-! ## Files -/

def filealloc : FsM (Option FilePtr) := do
  let s ← Effect.get
  match (List.finRange NFILE).find? fun f => decide ((s.ftable f).ref = 0) with
  | some f =>
    Effect.modify fun s =>
      { s with ftable := Function.update s.ftable f { s.ftable f with ref := 1 } }
    pure (some f)
  | none => pure none

def filedup (f : FilePtr) : FsM Unit := do
  let s ← Effect.get
  if (s.ftable f).ref < 1 then panic "filedup"
  else
    Effect.modify fun s =>
      { s with
        ftable := Function.update s.ftable f { s.ftable f with ref := (s.ftable f).ref + 1 } }

def pipealloc : FsM (Option Nat) := do
  let s ← Effect.get
  if s.memory then
    Effect.modify fun s => { s with pipes := s.pipes + 1 }
    pure (some s.pipes)
  else pure none

/-- `fileclose` up to `release(&ftable.lock)`: the file, if this was its last reference. -/
def filedrop (f : FilePtr) : FsM (Option File) := do
  let s ← Effect.get
  let ff := s.ftable f
  if ff.ref < 1 then panic "fileclose"
  else if ff.ref - 1 > 0 then
    Effect.modify fun s =>
      { s with ftable := Function.update s.ftable f { ff with ref := ff.ref - 1 } }
    pure none
  else
    Effect.modify fun s =>
      { s with ftable := Function.update s.ftable f { ff with ref := 0, type := .none } }
    pure (some ff)

end FsM

/-! ## Elements of a path -/

/-- The names that repeated calls of `skipelem` give, in at most `turns` calls. -/
def elements : Nat → List Byte → List (List Byte)
  | 0, _ => []
  | turns + 1, path =>
    match skipelem path with
    | none => []
    | some (name, rest) => name :: elements turns rest

/-- The runs of other bytes between slashes. -/
def between (path : List Byte) : List (List Byte) := (path.splitOn slash).filter (· ≠ [])

theorem between_cons (path : List Byte) : between (slash :: path) = between path := by
  rw [between, ← List.nil_append (slash :: path), List.splitOn_append_cons_self]
  rfl

theorem between_dropWhile (path : List Byte) :
    between (path.dropWhile (· = slash)) = between path := by
  induction path with
  | nil => rfl
  | cons c path ih =>
    rw [List.dropWhile_cons]
    split
    · next hc => rw [ih, of_decide_eq_true hc, between_cons]
    · rfl

theorem between_append {w rest : List Byte} (hw : slash ∉ w) (hne : w ≠ [])
    (hrest : ∀ c ∈ rest.head?, c = slash) : between (w ++ rest) = w :: between rest := by
  cases rest with
  | nil =>
    rw [List.append_nil, between, List.splitOn_eq_singleton hw]
    exact List.filter_cons_of_pos (decide_eq_true hne)
  | cons c rest =>
    rw [hrest c rfl, between_cons, between, List.splitOn_append_cons_self_of_not_mem hw]
    exact List.filter_cons_of_pos (decide_eq_true hne)

theorem elements_of_lt {path : List Byte} {turns : Nat} (h : path.length < turns) :
    elements turns path = (between path).map (List.take DIRSIZ) := by
  induction turns generalizing path with
  | zero => cases h
  | succ turns ih =>
    have hle := (List.dropWhile_sublist (l := path) (· = slash)).length_le
    have hhead := List.head?_dropWhile_not (· = slash) path
    rw [← between_dropWhile, elements, skipelem]
    cases hpath : path.dropWhile (· = slash) with
    | nil => rfl
    | cons c s =>
      rw [hpath] at hle hhead
      have hc : c ≠ slash := of_decide_eq_false hhead
      have hw : (c :: s).takeWhile (· ≠ slash) ≠ [] := by simp [hc]
      have hlen : ((c :: s).dropWhile (· ≠ slash)).length ≤ s.length := by
        simpa [List.dropWhile_cons, hc] using (List.dropWhile_sublist _).length_le
      have hlt := (List.dropWhile_sublist (· = slash)).length_le.trans hlen
      change _ :: elements turns _ = _
      rw [ih (by grind), between_dropWhile, ← List.map_cons, ← between_append ?_ hw,
        List.takeWhile_append_dropWhile]
      · have := List.head?_dropWhile_not (· ≠ slash) (c :: s)
        grind
      · exact fun hm => by simpa using List.all_eq_true.mp List.all_takeWhile slash hm

/-- For every path, repeated calls of `skipelem` give the runs of bytes between slashes, in
order, each cut to its first `DIRSIZ` bytes; `namex` makes calls enough. -/
theorem skipelem_splits_path (path : List Byte) :
    elements (path.length + 1) path = (between path).map (List.take DIRSIZ) :=
  elements_of_lt (Nat.lt_succ_self _)

end Xv6
