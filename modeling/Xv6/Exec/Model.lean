import Xv6.Fs.Exec
import Xv6.Syscall.Args

/-!
# `exec`

All of `exec.c`, with what it does to the process that calls it. What the file system and
`vm.c` answer is given by an environment, one answer for every moment. `vm.c` is not among the
sources: `allocuvm` does as `exec` expects, and functions that fail leave the process as it is.
`clearpteu` and `switchuvm` change nothing that is modelled.
-/

namespace Xv6

namespace Exec

open Fs (wordAt elfPhoff elfPhnum ELF_MAGIC ELF_PROG_LOAD ELFHDRSIZE PROGHDRSIZE)

abbrev Pgdir := Nat

/-- What `exec` uses of `struct proc`, with what must not change. -/
structure Process where
  pgdir : Pgdir
  sz : Word
  /-- `tf->eip` -/
  eip : Word
  /-- `tf->esp` -/
  esp : Word
  name : List Byte
  uid : Word
  gid : Word
  ofile : Fin NOFILE → Option FilePtr
  cwd : Option InodePtr

def NAMESIZE : Nat := 16

inductive Call : Type → Type
  | beginOp : Call Unit
  | endOp : Call Unit
  | namei (path : List Byte) : Call (Option InodePtr)
  | ilock (ip : InodePtr) : Call Unit
  | iunlockput (ip : InodePtr) : Call Unit
  | inode (ip : InodePtr) : Call Dinode
  | readi (ip : InodePtr) (off n : Word) : Call (Option (List Byte))
  /-- What an uninitialised variable holds. -/
  | stack : Call (Nat → Byte)
  | setupkvm : Call (Option Pgdir)
  | allocuvm (pgdir : Pgdir) (oldsz newsz : Word) : Call Word
  | loaduvm (pgdir : Pgdir) (vaddr : Word) (ip : InodePtr) (off filesz : Word) : Call Bool
  | copyout (pgdir : Pgdir) (va : Word) (bytes : List Byte) : Call Bool
  | freevm (pgdir : Pgdir) : Call Unit
  | proc : Call Process
  | setProc (f : Process → Process) : Call Unit

structure Env where
  namei : Option InodePtr
  inode : Dinode
  readi : Nat → Option (List Byte)
  stack : Nat → Byte
  setupkvm : Option Pgdir
  /-- Whether `allocuvm` would find the memory it asks for. -/
  memory : Nat → Bool
  loaduvm : Nat → Bool
  copyout : Nat → Bool

inductive Event
  | beginOp
  | endOp
  | took (ip : InodePtr)
  | dropped (ip : InodePtr)
  | locked (ip : InodePtr)
  | unlocked (ip : InodePtr)
  | read (ip : InodePtr)
  | built (pgdir : Pgdir)
  | freed (pgdir : Pgdir)
  /-- `allocuvm(pgdir, oldsz, newsz)` has returned `sz`. -/
  | grown (oldsz newsz sz : Word)
  /-- `loaduvm(pgdir, vaddr, ip, off, filesz)` is called. -/
  | loaded (vaddr filesz : Word)
deriving DecidableEq

structure State where
  env : Env
  time : Nat
  proc : Process
  log : List Event

@[irreducible]
def allocuvm (memory : Bool) (oldsz newsz : Word) : Word :=
  if newsz ≥ KERNBASE ∨ memory = false then 0
  else if newsz < oldsz then oldsz
  else newsz

namespace State

def tell (s : State) (evs : List Event) : State :=
  { s with time := s.time + 1, log := s.log ++ evs }

end State

def step (β : Type) (c : Call β) (s : State) : Except Fault (β × State) :=
  match c with
  | .beginOp => .ok ((), s.tell [.beginOp])
  | .endOp => .ok ((), s.tell [.endOp])
  | .namei _ => .ok (s.env.namei, s.tell (s.env.namei.toList.map .took))
  | .ilock ip => .ok ((), s.tell [.locked ip])
  | .iunlockput ip => .ok ((), s.tell [.unlocked ip, .dropped ip])
  | .inode _ => .ok (s.env.inode, s.tell [])
  | .readi ip _ _ => .ok (s.env.readi s.time, s.tell [.read ip])
  | .stack => .ok (s.env.stack, s.tell [])
  | .setupkvm => .ok (s.env.setupkvm, s.tell (s.env.setupkvm.toList.map .built))
  | .allocuvm _ oldsz newsz =>
    let sz := allocuvm (s.env.memory s.time) oldsz newsz
    .ok (sz, s.tell [.grown oldsz newsz sz])
  | .loaduvm _ vaddr _ _ filesz => .ok (s.env.loaduvm s.time, s.tell [.loaded vaddr filesz])
  | .copyout _ _ _ => .ok (s.env.copyout s.time, s.tell [])
  | .freevm pgdir => .ok ((), s.tell [.freed pgdir])
  | .proc => .ok (s.proc, s.tell [])
  | .setProc f => .ok ((), { s.tell [] with proc := f s.proc })

abbrev Program := Prog Call

open Prog (lift)

/-! ## The permission check -/

/-- `st.mode.flags.o_x` -/
def oX (mode : Word) : Bool := mode.getLsbD 0

/-- `st.mode.flags.g_x` -/
def gX (mode : Word) : Bool := mode.getLsbD 3

/-- `st.mode.flags.u_x` -/
def uX (mode : Word) : Bool := mode.getLsbD 6

/-- `st.mode.flags.setuid` -/
def setuidBit (mode : Word) : Bool := mode.getLsbD 9

/-- The flag `check` after the three tests, for the `stat` of the file. -/
def check (st : Dinode) (uid gid : Word) : Bool :=
  let check := false
  let check := if st.uid.setWidth 32 == uid && uX st.mode then true else check
  let check := if !check && st.gid.setWidth 32 == gid && gX st.mode then true else check
  if !check && uid != st.uid.setWidth 32 && gid != st.gid.setWidth 32 && oX st.mode then true
  else check

/-! ## The program -/

def bad (pgdir : Option Pgdir) (ip : Option InodePtr) : Program Int := do
  match pgdir with
  | some pgdir => lift (.freevm pgdir)
  | none => pure ()
  match ip with
  | some ip =>
    lift (.iunlockput ip)
    lift .endOp
  | none => pure ()
  pure (-1)

/-- A turn of the loop over the program headers; `none` for a jump to `bad`. -/
def loadSegment (pgdir : Pgdir) (ip : InodePtr) (off sz : Word) : Program (Option Word) := do
  match ← lift (.readi ip off (BitVec.ofNat 32 PROGHDRSIZE)) with
  | none => pure none
  | some x =>
    let ph := fun i => x.getD i 0
    let type := wordAt ph 0
    let phoff := wordAt ph 4
    let vaddr := wordAt ph 8
    let filesz := wordAt ph 16
    let memsz := wordAt ph 20
    if x.length ≠ PROGHDRSIZE then pure none
    else if type ≠ ELF_PROG_LOAD then pure (some sz)
    else if memsz < filesz then pure none
    else
      let sz ← lift (.allocuvm pgdir sz (vaddr + memsz))
      if sz = 0 then pure none
      else if ← lift (.loaduvm pgdir vaddr ip phoff filesz) then pure (some sz)
      else pure none

def loadSegments (pgdir : Pgdir) (ip : InodePtr) : Nat → Word → Word → Program (Option Word)
  | 0, _, sz => pure (some sz)
  | phnum + 1, off, sz => do
    match ← loadSegment pgdir ip off sz with
    | none => pure none
    | some sz => loadSegments pgdir ip phnum (off + BitVec.ofNat 32 PROGHDRSIZE) sz

/-- `elf`, and whether the check of its size passes. The comparison is one of unsigned
numbers: -1 passes it, and `elf` is as it was. -/
def readElf (ip : InodePtr) : Program (Option (Nat → Byte)) := do
  let r ← lift (.readi ip 0 (BitVec.ofNat 32 ELFHDRSIZE))
  let junk ← lift .stack
  match r with
  | none => pure (some junk)
  | some x => pure (if x.length < ELFHDRSIZE then none else some fun i => x.getD i 0)

def PGROUNDUP (sz : Word) : Word := (sz + PGSIZE - 1) &&& ~~~(PGSIZE - 1)

/-- The loop that pushes the argument strings: `sp` and the pointers to them. -/
def pushArgs (pgdir : Pgdir) : List (List Byte) → Word → List Word →
    Program (Option (Word × List Word))
  | [], sp, ptrs => pure (some (sp, ptrs))
  | arg :: argv, sp, ptrs => do
    if ptrs.length ≥ MAXARG then pure none
    else
      let sp := (sp - BitVec.ofNat 32 (arg.length + 1)) &&& ~~~3
      if ← lift (.copyout pgdir sp (arg ++ [0])) then pushArgs pgdir argv sp (ptrs ++ [sp])
      else pure none

/-- `ustack`: a return address, `argc`, `argv` and the pointers with a null pointer. -/
def ustack (sp : Word) (ptrs : List Word) : List Word :=
  [0xffffffff, BitVec.ofNat 32 ptrs.length, sp - BitVec.ofNat 32 ((ptrs.length + 1) * 4)] ++
    ptrs ++ [0]

def pushStack (pgdir : Pgdir) (argv : List (List Byte)) (sz : Word) : Program (Option Word) := do
  match ← pushArgs pgdir argv sz [] with
  | none => pure none
  | some (sp, ptrs) =>
    let sp' := sp - BitVec.ofNat 32 ((3 + ptrs.length + 1) * 4)
    if ← lift (.copyout pgdir sp' ((ustack sp ptrs).flatMap bytesOf)) then pure (some sp')
    else pure none

def lastElem (path : List Byte) : List Byte :=
  (path.reverse.takeWhile (· != slash)).reverse

/-- The part of `exec` in which no call fails: the new image takes the place of the old one. -/
def commit (path : List Byte) (pgdir : Pgdir) (sz entry sp : Word) (uid : Option (BitVec 16)) :
    Program Int := do
  let name := safestrcpy NAMESIZE (lastElem path)
  lift (.setProc fun p => { p with name := name ++ p.name.drop name.length })
  let oldpgdir := (← lift .proc).pgdir
  lift (.setProc fun p => { p with pgdir := pgdir, sz := sz, eip := entry, esp := sp })
  lift (.freevm oldpgdir)
  match uid with
  | some uid => lift (.setProc fun p => { p with uid := uid.setWidth 32 })
  | none => pure ()
  pure 0

/-- `exec` after the program is loaded and the transaction is closed. -/
def buildStack (path : List Byte) (argv : List (List Byte)) (pgdir : Pgdir) (sz entry : Word)
    (uid : Option (BitVec 16)) : Program Int := do
  let sz := PGROUNDUP sz
  let sz ← lift (.allocuvm pgdir sz (sz + 2 * PGSIZE))
  if sz = 0 then bad (some pgdir) none
  else
    match ← pushStack pgdir argv sz with
    | none => bad (some pgdir) none
    | some sp => commit path pgdir sz entry sp uid

def load (path : List Byte) (argv : List (List Byte)) (ip : InodePtr)
    (uid : Option (BitVec 16)) : Program Int := do
  match ← readElf ip with
  | none => bad none (some ip)
  | some elf =>
    if wordAt elf 0 ≠ ELF_MAGIC then bad none (some ip)
    else
      match ← lift .setupkvm with
      | none => bad none (some ip)
      | some pgdir =>
        match ← loadSegments pgdir ip (elfPhnum elf) (elfPhoff elf) 0 with
        | none => bad (some pgdir) (some ip)
        | some sz =>
          lift (.iunlockput ip)
          lift .endOp
          buildStack path argv pgdir sz (wordAt elf 24) uid

def exec (path : List Byte) (argv : List (List Byte)) : Program Int := do
  lift .beginOp
  match ← lift (.namei path) with
  | none =>
    lift .endOp
    pure (-1)
  | some ip =>
    lift (.ilock ip)
    let st ← lift (.inode ip)
    let me ← lift .proc
    if check st me.uid me.gid then
      load path argv ip (if setuidBit st.mode then some st.uid else none)
    else bad none (some ip)

end Exec

end Xv6
