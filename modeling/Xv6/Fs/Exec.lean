import Xv6.Fs.Syscall

/-!
# `exec`, `fork` and `exit` on files

What `exec` does with the file system, that is up to its `end_op`, what `fork` shares with
the new process and what `exit` closes.
`loaduvm` is not among the sources; it reads the segment page by page, as `exec` expects.
-/

namespace Xv6

namespace Fs

open Prog (lift)

def wordAt (x : Nat → Byte) (i : Nat) : Word := x (i + 3) ++ x (i + 2) ++ x (i + 1) ++ x i

def ELF_MAGIC : Word := 0x464C457F

def ELF_PROG_LOAD : Word := 1

def ELFHDRSIZE : Nat := 52

def PROGHDRSIZE : Nat := 32

def elfPhoff (elf : Nat → Byte) : Word := wordAt elf 28

def elfPhnum (elf : Nat → Byte) : Nat := (elf 45 ++ elf 44 : BitVec 16).toNat

def mayExec (d : Dinode) (me : Caller) : Bool :=
  let uid : Word := d.uid.setWidth 32
  let gid : Word := d.gid.setWidth 32
  (uid == me.uid && d.mode.getLsbD 6) || (gid == me.gid && d.mode.getLsbD 3) ||
    (me.uid != uid && me.gid != gid && d.mode.getLsbD 0)

def loaduvm (ip : InodePtr) : Nat → Word → Nat → Program Bool
  | 0, _, _ => pure true
  | turns + 1, off, sz =>
    if sz = 0 then pure true
    else do
      let n := min sz PGSIZE.toNat
      match ← readi ip off (BitVec.ofNat 32 n) with
      | some x =>
        if x.length = n then loaduvm ip turns (off + BitVec.ofNat 32 n) (sz - n)
        else pure false
      | none => pure false

def loadSegment (ip : InodePtr) (off : Word) : Program Bool := do
  match ← readi ip off (BitVec.ofNat 32 PROGHDRSIZE) with
  | none => pure false
  | some x =>
    let ph := fun i => x.getD i 0
    if x.length ≠ PROGHDRSIZE then pure false
    else if wordAt ph 0 ≠ ELF_PROG_LOAD then pure true
    else if wordAt ph 20 < wordAt ph 16 then pure false
    else if ← lift .memory then
      loaduvm ip (wordAt ph 16).toNat (wordAt ph 4) (wordAt ph 16).toNat
    else pure false

def loadSegments (ip : InodePtr) : Nat → Word → Program Bool
  | 0, _ => pure true
  | phnum + 1, off => do
    if ← loadSegment ip off then
      loadSegments ip phnum (off + BitVec.ofNat 32 PROGHDRSIZE)
    else pure false

def loadProgram (ip : InodePtr) : Program Bool := do
  let r ← readi ip 0 (BitVec.ofNat 32 ELFHDRSIZE)
  let junk ← lift .stack
  -- the comparison is one of unsigned numbers: -1 passes it, and `elf` is as it was
  let elf := match r with
    | some x => fun i => x.getD i 0
    | none => junk
  if r.any fun x => decide (x.length < ELFHDRSIZE) then pure false
  else if wordAt elf 0 ≠ ELF_MAGIC then pure false
  else if ← lift .memory then loadSegments ip (elfPhnum elf) (elfPhoff elf)
  else pure false

/-- `exec` up to `end_op`. -/
def exec (path : List Byte) : Program Int := do
  lift .beginOp
  match ← namei path with
  | none => abort
  | some ip =>
    lift (.ilock ip)
    let i ← lift (.inode ip)
    let me ← lift .proc
    if mayExec i.d me then
      let loaded ← loadProgram ip
      iunlockput ip
      lift .endOp
      pure (if loaded then 0 else -1)
    else
      iunlockput ip
      abort

def dupAll : List (Fin NOFILE) → Program Unit
  | [] => pure ()
  | fd :: fds => do
    match (← lift .proc).ofile fd with
    | some f =>
      lift (.filedup f)
      lift (.npFd fd f)
    | none => pure ()
    dupAll fds

/-- `fork`, in a slot of the process table and with a number for the new process. -/
def fork (slot : Caller) (pid : Int) : Program Int := do
  if ← lift (.newProc slot) then
    dupAll (List.finRange NOFILE)
    match (← lift .proc).cwd with
    | some cwd =>
      let ip ← lift (.idup cwd)
      lift (.npCwd ip)
    | none => lift (.fault .nullDeref)
    pure pid
  else pure (-1)

def closeAll : List (Fin NOFILE) → Program Unit
  | [] => pure ()
  | fd :: fds => do
    match (← lift .proc).ofile fd with
    | some f =>
      fileclose f
      lift (.setFd fd none)
    | none => pure ()
    closeAll fds

/-- `exit`, up to the process table. -/
def exit : Program Int := do
  closeAll (List.finRange NOFILE)
  lift .beginOp
  match (← lift .proc).cwd with
  | some cwd => iput cwd
  | none => lift (.fault .nullDeref)
  lift .endOp
  lift (.setCwd none)
  pure 0

inductive Request
  | dup (fd : Int)
  | read (fd : Int) (arg : Option Word)
  | fstat (fd : Int) (arg : Option Unit)
  | pipe (arg : Option Unit)
  | write (fd : Int) (arg : Option ((Nat → Byte) × Int))
  | close (fd : Int)
  | link (args : Option (List Byte × List Byte))
  | unlink (arg : Option (List Byte))
  | «open» (args : Option (List Byte × Word))
  | mkdir (arg : Option (List Byte))
  | mknod (args : Option (List Byte × BitVec 16 × BitVec 16))
  | chdir (arg : Option (List Byte))
  | chmod (args : Option (List Byte × Int))
  | chown (args : Option (List Byte × Int))
  | chgrp (args : Option (List Byte × Int))
  | exec (path : List Byte)
  | exit

def Request.program : Request → Program Int
  | dup fd => sysDup fd
  | read fd arg => sysRead fd arg
  | fstat fd arg => sysFstat fd arg
  | pipe arg => sysPipe arg
  | write fd arg => sysWrite fd arg
  | close fd => sysClose fd
  | link args => sysLink args
  | unlink arg => sysUnlink arg
  | «open» args => sysOpen args
  | mkdir arg => sysMkdir arg
  | mknod args => sysMknod args
  | chdir arg => sysChdir arg
  | chmod args => sysChmod args
  | chown args => sysChown args
  | chgrp args => sysChgrp args
  | exec path => Fs.exec path
  | exit => Fs.exit

end Fs

end Xv6
