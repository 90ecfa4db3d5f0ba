import Xv6.Fs.Content
import Xv6.Lib.Prog

/-!
# System calls on files

The system calls of `sysfile.c`, with `namex` and `iput` of `fs.c`, `filewrite` and
`fileclose` of `file.c`, `exec` and `exit`, as programs. A call of a program is what runs under
one lock without giving it up; other processes may run between any two calls.
-/

namespace Xv6

/-- What the system calls use of the `struct proc` of their caller. -/
structure Caller where
  cwd : Option InodePtr
  ofile : Fin NOFILE → Option FilePtr
  uid : Word
  gid : Word

namespace Fs

inductive Call : Type → Type
  | beginOp : Call Unit
  | endOp : Call Unit
  | fault (f : Fault) : Call Unit
  | iget (dev inum : Nat) : Call InodePtr
  | idup (ip : InodePtr) : Call InodePtr
  | ialloc (type : FileType) : Call Nat
  | ilock (ip : InodePtr) : Call Unit
  | iunlock (ip : InodePtr) : Call Unit
  | iputTest (ip : InodePtr) : Call Bool
  | itrunc (ip : InodePtr) : Call Unit
  | iputDone (ip : InodePtr) : Call Unit
  | inode (ip : InodePtr) : Call Inode
  | stati (ip : InodePtr) : Call Stat
  | patch (ip : InodePtr) (p : Patch) : Call Unit
  | iupdate (ip : InodePtr) : Call Unit
  | dirfind (dp : InodePtr) (name : List Byte) : Call (Option (Nat × Nat × Nat))
  | freeSlot (dp : InodePtr) : Call Nat
  | isdirempty (dp : InodePtr) : Call Bool
  | readi (ip : InodePtr) (off n : Word) : Call (Option (List Byte))
  | writei (ip : InodePtr) (src : Nat → Byte) (off n : Word) : Call (Option Nat)
  | console : Call (Option (List Byte))
  /-- What `piperead` or `pipewrite` returns. -/
  | pipe : Call Int
  | memory : Call Bool
  /-- What an uninitialised variable holds. -/
  | stack : Call (Nat → Byte)
  | proc : Call Caller
  | setCwd (ip : Option InodePtr) : Call Unit
  | setFd (fd : Fin NOFILE) (f : Option FilePtr) : Call Unit
  /-- `allocproc` and `copyuvm`: `fork` has a new process, with what its slot has left of
  another one. -/
  | newProc (slot : Caller) : Call Bool
  /-- `np->ofile[fd] = f` -/
  | npFd (fd : Fin NOFILE) (f : FilePtr) : Call Unit
  /-- `np->cwd = ip` -/
  | npCwd (ip : InodePtr) : Call Unit
  | filealloc : Call (Option FilePtr)
  | filedup (f : FilePtr) : Call Unit
  | filedrop (f : FilePtr) : Call (Option File)
  | file (f : FilePtr) : Call File
  /-- `f->off += r` -/
  | advance (f : FilePtr) (r : Nat) : Call Unit
  | pipealloc : Call (Option Nat)
  | setPipe (f : FilePtr) (p : Nat) (writable : Bool) : Call Unit
  | pipeclose (p : Nat) (writable : Bool) : Call Unit
  | setFile (f : FilePtr) (ip : InodePtr) (readable writable : Bool) : Call Unit

def modifyFile (f : FilePtr) (g : File → File) : FsM Unit :=
  Effect.modify fun s => { s with ftable := Function.update s.ftable f (g (s.ftable f)) }

/-- The calls of `FsM`; the other ones do not touch the file system. -/
def Call.run : {β : Type} → Call β → Caller → FsM (β × Caller)
  | _, .beginOp, me | _, .endOp, me => pure ((), me)
  | _, .fault f, _ => Effect.fail f
  | _, .iget dev inum, me => do pure (← FsM.iget dev inum, me)
  | _, .idup ip, me => do pure (← FsM.idup ip, me)
  | _, .ialloc type, me => do pure (← FsM.ialloc type, me)
  | _, .ilock ip, me => do pure (← FsM.ilock ip, me)
  | _, .iunlock ip, me => do pure (← FsM.iunlock ip, me)
  | _, .iputTest ip, me => do pure (← FsM.iputTest ip, me)
  | _, .itrunc ip, me => do pure (← FsM.itrunc ip, me)
  | _, .iputDone ip, me => do pure (← FsM.iputDone ip, me)
  | _, .inode ip, me => do pure (← FsM.inode ip, me)
  | _, .stati ip, me => do pure (← FsM.stati ip, me)
  | _, .patch ip p, me => do pure (← FsM.setDinode ip fun d => p.apply d, me)
  | _, .iupdate ip, me => do pure (← FsM.iupdate ip, me)
  | _, .dirfind dp name, me => do pure (← FsM.dirfind dp name, me)
  | _, .freeSlot dp, me => do pure (← FsM.freeSlot dp, me)
  | _, .isdirempty dp, me => do pure (← FsM.isdirempty dp, me)
  | _, .readi ip off n, me => do pure (← FsM.readi ip off n, me)
  | _, .writei ip src off n, me => do pure (← FsM.writei ip src off n, me)
  | _, .console, me => do pure ((← Effect.get).console, me)
  | _, .pipe, me => do pure ((← Effect.get).pipe, me)
  | _, .memory, me => do pure ((← Effect.get).memory, me)
  | _, .stack, me => do pure ((← Effect.get).stack, me)
  | _, .proc, me => pure (me, me)
  | _, .setCwd ip, me => pure ((), { me with cwd := ip })
  | _, .setFd fd f, me => pure ((), { me with ofile := Function.update me.ofile fd f })
  -- the `struct proc` of the new process is not part of the state here
  | _, .newProc _, me => do pure ((← Effect.get).memory, me)
  | _, .npFd _ _, me | _, .npCwd _, me => pure ((), me)
  | _, .filealloc, me => do pure (← FsM.filealloc, me)
  | _, .filedup f, me => do pure (← FsM.filedup f, me)
  | _, .filedrop f, me => do pure (← FsM.filedrop f, me)
  | _, .file f, me => do pure ((← Effect.get).ftable f, me)
  | _, .advance f r, me => do
    pure (← modifyFile f fun ff => { ff with off := ff.off + BitVec.ofNat 32 r }, me)
  | _, .pipealloc, me => do pure (← FsM.pipealloc, me)
  | _, .setPipe f p writable, me => do
    pure (← modifyFile f fun ff =>
      { ff with type := .pipe, readable := !writable, writable := writable, pipe := p }, me)
  | _, .pipeclose _ _, me => pure ((), me)
  | _, .setFile f ip readable writable, me => do
    pure (← modifyFile f fun ff =>
      { ff with type := .inode, ip := ip, off := 0, readable := readable, writable := writable },
      me)

def Call.blocks (s : Fs) : {β : Type} → Call β → Bool
  | _, .ilock ip => decide ((s.icache ip).ref ≥ 1) && (s.icache ip).busy
  | _, _ => false

abbrev Program := Prog Call

open Prog (lift)

def panic (msg : String) : Program Unit := lift (.fault (.panic msg))

/-! ## Inodes -/

def iput (ip : InodePtr) : Program Unit := do
  if ← lift (.iputTest ip) then
    lift (.itrunc ip)
    lift (.patch ip .free)
    lift (.iupdate ip)
    lift (.iputDone ip)
  else pure ()

def iunlockput (ip : InodePtr) : Program Unit := do
  lift (.iunlock ip)
  iput ip

/-- `consoleread` through `devsw`, with `n` as an `int`: the inode is unlocked while it waits. -/
def consoleread (ip : InodePtr) (n : Word) : Program (Option (List Byte)) := do
  lift (.iunlock ip)
  let x ← lift .console
  lift (.ilock ip)
  pure (x.map (·.take n.toInt.toNat))

def consolewrite (ip : InodePtr) (n : Word) : Program (Option Nat) := do
  lift (.iunlock ip)
  lift (.ilock ip)
  pure (some n.toNat)

/-- `devsw[major]` has functions: only the console has. -/
def hasDevice (major : BitVec 16) : Bool :=
  decide (0 ≤ major.toInt ∧ major.toInt < NDEV) && major == 1

def readi (ip : InodePtr) (off n : Word) : Program (Option (List Byte)) := do
  let i ← lift (.inode ip)
  if i.d.type = .dev then
    if hasDevice i.d.major then consoleread ip n else pure none
  else lift (.readi ip off n)

def writei (ip : InodePtr) (src : Nat → Byte) (off n : Word) : Program (Option Nat) := do
  let i ← lift (.inode ip)
  if i.d.type = .dev then
    if hasDevice i.d.major then consolewrite ip n else pure none
  else lift (.writei ip src off n)

def writeDirent (dp : InodePtr) (de : Dirent) (off : Nat) (msg : String) : Program Unit := do
  let r ← writei dp de.byte (BitVec.ofNat 32 off) (BitVec.ofNat 32 DIRENTSIZE)
  if r = some DIRENTSIZE then pure () else panic msg

def dirlookup (dp : InodePtr) (name : List Byte) : Program (Option (InodePtr × Nat)) := do
  match ← lift (.dirfind dp name) with
  | some (dev, inum, off) =>
    let ip ← lift (.iget dev inum)
    pure (some (ip, off))
  | none => pure none

def dirlink (dp : InodePtr) (name : List Byte) (inum : Nat) : Program Bool := do
  match ← dirlookup dp name with
  | some (ip, _) =>
    iput ip
    pure false
  | none =>
    let off ← lift (.freeSlot dp)
    writeDirent dp ⟨BitVec.ofNat 16 inum, name⟩ off "dirlink"
    pure true

/-! ## Paths -/

/-- The loop of `namex`. Every turn takes an element from the path. -/
def walk (nameiparent : Bool) : Nat → InodePtr → List Byte → List Byte →
    Program (Option (InodePtr × List Byte))
  | 0, ip, _, name => pure (some (ip, name))
  | turns + 1, ip, path, name =>
    match skipelem path with
    | none =>
      if nameiparent then do
        iput ip
        pure none
      else pure (some (ip, name))
    | some (elem, rest) => do
      lift (.ilock ip)
      let i ← lift (.inode ip)
      if i.d.type ≠ .dir then
        iunlockput ip
        pure none
      else if nameiparent ∧ rest = [] then
        lift (.iunlock ip)
        pure (some (ip, elem))
      else
        match ← dirlookup ip elem with
        | none =>
          iunlockput ip
          pure none
        | some (next, _) =>
          iunlockput ip
          walk nameiparent turns next rest elem

def start (path : List Byte) : Program (Option InodePtr) := do
  if path.head? = some slash then
    let ip ← lift (.iget ROOTDEV ROOTINO)
    pure (some ip)
  else
    match (← lift .proc).cwd with
    | some cwd =>
      let ip ← lift (.idup cwd)
      pure (some ip)
    | none =>
      lift (.fault .nullDeref)
      pure none

def namex (path : List Byte) (nameiparent : Bool) :
    Program (Option (InodePtr × List Byte)) := do
  match ← start path with
  | some ip => walk nameiparent (path.length + 1) ip path []
  | none => pure none

def namei (path : List Byte) : Program (Option InodePtr) := do
  let r ← namex path false
  pure (r.map Prod.fst)

def nameiparent (path : List Byte) : Program (Option (InodePtr × List Byte)) := namex path true

/-! ## Files -/

def fileclose (f : FilePtr) : Program Unit := do
  match ← lift (.filedrop f) with
  | some ff =>
    if ff.type = .pipe then lift (.pipeclose ff.pipe ff.writable)
    else if ff.type = .inode then
      lift .beginOp
      iput ff.ip
      lift .endOp
    else pure ()
  | none => pure ()

def fileread (f : FilePtr) (n : Word) : Program Int := do
  let ff ← lift (.file f)
  if ff.readable = false then pure (-1)
  else
    match ff.type with
    | .pipe => lift .pipe
    | .inode =>
      lift (.ilock ff.ip)
      let ff ← lift (.file f)
      let r ← readi ff.ip ff.off n
      if (r.getD []).length > 0 then lift (.advance f (r.getD []).length)
      lift (.iunlock ff.ip)
      pure (match r with | some x => x.length | none => -1)
    | .none =>
      panic "fileread"
      pure (-1)

/-- What `stati` copies; `none` for -1. -/
def filestat (f : FilePtr) : Program (Option Stat) := do
  let ff ← lift (.file f)
  if ff.type = .inode then
    lift (.ilock ff.ip)
    let st ← lift (.stati ff.ip)
    lift (.iunlock ff.ip)
    pure (some st)
  else pure none

def maxChunk : Nat := (LOGSIZE - 1 - 1 - 2) / 2 * 512

def writeChunk (f : FilePtr) (src : Nat → Byte) (n1 : Nat) : Program (Option Nat) := do
  lift .beginOp
  let ip := (← lift (.file f)).ip
  lift (.ilock ip)
  let ff ← lift (.file f)
  let r ← writei ip src ff.off (BitVec.ofNat 32 n1)
  if r.getD 0 > 0 then lift (.advance f (r.getD 0))
  lift (.iunlock ip)
  lift .endOp
  pure r

def writeLoop (f : FilePtr) : Nat → (Nat → Byte) → Nat → Program Bool
  | 0, _, _ => pure true
  | turns + 1, src, n =>
    if n = 0 then pure true
    else do
      let n1 := min n maxChunk
      match ← writeChunk f src n1 with
      | none => pure false
      | some r =>
        if r ≠ n1 then
          panic "short filewrite"
          pure false
        else writeLoop f turns (fun i => src (r + i)) (n - r)

def filewrite (f : FilePtr) (src : Nat → Byte) (n : Int) : Program Int := do
  let ff ← lift (.file f)
  if ff.writable = false then pure (-1)
  else
    match ff.type with
    | .pipe => lift .pipe
    | .inode =>
      let done ← writeLoop f n.toNat src n.toNat
      pure (if done ∧ 0 ≤ n then n else -1)
    | .none =>
      panic "filewrite"
      pure (-1)

def fdalloc (f : FilePtr) : Program (Option (Fin NOFILE)) := do
  let me ← lift .proc
  match (List.finRange NOFILE).find? fun fd => (me.ofile fd).isNone with
  | some fd =>
    lift (.setFd fd (some f))
    pure (some fd)
  | none => pure none

def argfd (fd : Int) : Program (Option (Fin NOFILE × FilePtr)) := do
  let me ← lift .proc
  if h : 0 ≤ fd ∧ fd.toNat < NOFILE then
    pure ((me.ofile ⟨fd.toNat, h.2⟩).map fun f => (⟨fd.toNat, h.2⟩, f))
  else pure none

/-! ## System calls

An argument is `none` when it cannot be fetched from user memory. -/

def sysDup (fd : Int) : Program Int := do
  match ← argfd fd with
  | some (_, f) =>
    match ← fdalloc f with
    | some fd =>
      lift (.filedup f)
      pure fd.val
    | none => pure (-1)
  | none => pure (-1)

def sysRead (fd : Int) (arg : Option Word) : Program Int := do
  match ← argfd fd, arg with
  | some (_, f), some n => fileread f n
  | _, _ => pure (-1)

def sysWrite (fd : Int) (arg : Option ((Nat → Byte) × Int)) : Program Int := do
  match ← argfd fd, arg with
  | some (_, f), some (src, n) => filewrite f src n
  | _, _ => pure (-1)

def sysClose (fd : Int) : Program Int := do
  match ← argfd fd with
  | some (fd, f) =>
    lift (.setFd fd none)
    fileclose f
    pure 0
  | none => pure (-1)

def pipealloc : Program (Option (FilePtr × FilePtr)) := do
  match ← lift .filealloc with
  | none => pure none
  | some f0 =>
    match ← lift .filealloc with
    | none =>
      fileclose f0
      pure none
    | some f1 =>
      match ← lift .pipealloc with
      | none =>
        fileclose f0
        fileclose f1
        pure none
      | some p =>
        lift (.setPipe f0 p false)
        lift (.setPipe f1 p true)
        pure (some (f0, f1))

/-- `arg`: there is room for the two descriptors. -/
def sysPipe (arg : Option Unit) : Program Int := do
  match arg with
  | none => pure (-1)
  | some () =>
    match ← pipealloc with
    | none => pure (-1)
    | some (rf, wf) =>
      match ← fdalloc rf with
      | none =>
        fileclose rf
        fileclose wf
        pure (-1)
      | some fd0 =>
        match ← fdalloc wf with
        | none =>
          lift (.setFd fd0 none)
          fileclose rf
          fileclose wf
          pure (-1)
        | some _ => pure 0

/-- `arg`: there is room for the `struct stat`. -/
def sysFstat (fd : Int) (arg : Option Unit) : Program Int := do
  match ← argfd fd, arg with
  | some (_, f), some () =>
    let st ← filestat f
    pure (if st.isSome then 0 else -1)
  | _, _ => pure (-1)

def abort : Program Int := do
  lift .endOp
  pure (-1)

def addLink (ip : InodePtr) (n : BitVec 16) : Program Unit := do
  lift (.patch ip (.link n))
  lift (.iupdate ip)

def linkBad (ip : InodePtr) : Program Int := do
  lift (.ilock ip)
  addLink ip (-1)
  iunlockput ip
  abort

def sysLink (args : Option (List Byte × List Byte)) : Program Int := do
  match args with
  | none => pure (-1)
  | some (old, new) =>
    lift .beginOp
    match ← namei old with
    | none => abort
    | some ip =>
      lift (.ilock ip)
      let i ← lift (.inode ip)
      if i.d.type = .dir then
        iunlockput ip
        abort
      else
        addLink ip 1
        lift (.iunlock ip)
        match ← nameiparent new with
        | none => linkBad ip
        | some (dp, name) =>
          lift (.ilock dp)
          let d ← lift (.inode dp)
          let i ← lift (.inode ip)
          if d.dev ≠ i.dev then
            iunlockput dp
            linkBad ip
          else if ← dirlink dp name i.inum then
            iunlockput dp
            iput ip
            lift .endOp
            pure 0
          else
            iunlockput dp
            linkBad ip

def unlinkBad (dp : InodePtr) : Program Int := do
  iunlockput dp
  abort

def dot : List Byte := [46]

def dotdot : List Byte := [46, 46]

/-- The end of `sys_unlink`, with both inodes locked. -/
def unlinkEntry (dp ip : InodePtr) (off : Nat) (type : FileType) : Program Int := do
  writeDirent dp ⟨0, []⟩ off "unlink: writei"
  if type = .dir then addLink dp (-1)
  iunlockput dp
  addLink ip (-1)
  iunlockput ip
  lift .endOp
  pure 0

def sysUnlink (arg : Option (List Byte)) : Program Int := do
  match arg with
  | none => pure (-1)
  | some path =>
    lift .beginOp
    match ← nameiparent path with
    | none => abort
    | some (dp, name) =>
      lift (.ilock dp)
      if namecmp name dot = 0 ∨ namecmp name dotdot = 0 then unlinkBad dp
      else
        match ← dirlookup dp name with
        | none => unlinkBad dp
        | some (ip, off) =>
          lift (.ilock ip)
          let i ← lift (.inode ip)
          if i.d.nlink.toInt < 1 then
            panic "unlink: nlink < 1"
            pure (-1)
          else if i.d.type = .dir then
            if ← lift (.isdirempty ip) then unlinkEntry dp ip off .dir
            else
              iunlockput ip
              unlinkBad dp
          else unlinkEntry dp ip off i.d.type

def ialloc (dev : Nat) (type : FileType) : Program InodePtr := do
  let inum ← lift (.ialloc type)
  lift (.iget dev inum)

def linkDots (dp ip : InodePtr) : Program Unit := do
  addLink dp 1
  let i ← lift (.inode ip)
  let d ← lift (.inode dp)
  if ← dirlink ip dot i.inum then
    if ← dirlink ip dotdot d.inum then pure ()
    else panic "create dots"
  else panic "create dots"

/-- `create`, once the name is known to be new. -/
def createNew (dp : InodePtr) (name : List Byte) (type : FileType) (major minor : BitVec 16) :
    Program (Option InodePtr) := do
  let d ← lift (.inode dp)
  let ip ← ialloc d.dev type
  lift (.ilock ip)
  lift (.patch ip (.make major minor))
  lift (.iupdate ip)
  if type = .dir then linkDots dp ip
  let i ← lift (.inode ip)
  if ← dirlink dp name i.inum then
    iunlockput dp
    pure (some ip)
  else
    panic "create: dirlink"
    pure none

def create (path : List Byte) (type : FileType) (major minor : BitVec 16) :
    Program (Option InodePtr) := do
  match ← nameiparent path with
  | none => pure none
  | some (dp, name) =>
    lift (.ilock dp)
    match ← dirlookup dp name with
    | some (ip, _) =>
      iunlockput dp
      lift (.ilock ip)
      let i ← lift (.inode ip)
      if type = .file ∧ i.d.type = .file then pure (some ip)
      else
        iunlockput ip
        pure none
    | none => createNew dp name type major minor

def O_WRONLY : Word := 0x001

def O_RDWR : Word := 0x002

def O_CREATE : Word := 0x200

/-- `sys_open` from the locked inode on. -/
def openInode (ip : InodePtr) (omode : Word) : Program Int := do
  match ← lift .filealloc with
  | none =>
    iunlockput ip
    abort
  | some f =>
    match ← fdalloc f with
    | none =>
      fileclose f
      iunlockput ip
      abort
    | some fd =>
      lift (.iunlock ip)
      lift .endOp
      lift (.setFile f ip (omode &&& O_WRONLY = 0)
        (omode &&& O_WRONLY ≠ 0 ∨ omode &&& O_RDWR ≠ 0))
      pure fd.val

def sysOpen (args : Option (List Byte × Word)) : Program Int := do
  match args with
  | none => pure (-1)
  | some (path, omode) =>
    lift .beginOp
    if omode &&& O_CREATE ≠ 0 then
      match ← create path .file 0 0 with
      | none => abort
      | some ip => openInode ip omode
    else
      match ← namei path with
      | none => abort
      | some ip =>
        lift (.ilock ip)
        let i ← lift (.inode ip)
        if i.d.type = .dir ∧ omode ≠ 0 then
          iunlockput ip
          abort
        else openInode ip omode

/-- The common part of `sys_mkdir` and `sys_mknod`, whose arguments are fetched inside the
transaction. -/
def make (args : Option (List Byte × BitVec 16 × BitVec 16)) (type : FileType) :
    Program Int := do
  lift .beginOp
  match args with
  | none => abort
  | some (path, major, minor) =>
    match ← create path type major minor with
    | none => abort
    | some ip =>
      iunlockput ip
      lift .endOp
      pure 0

def sysMkdir (arg : Option (List Byte)) : Program Int :=
  make (arg.map fun path => (path, 0, 0)) .dir

def sysMknod (args : Option (List Byte × BitVec 16 × BitVec 16)) : Program Int := make args .dev

def sysChdir (arg : Option (List Byte)) : Program Int := do
  lift .beginOp
  match arg with
  | none => abort
  | some path =>
    match ← namei path with
    | none => abort
    | some ip =>
      lift (.ilock ip)
      let i ← lift (.inode ip)
      if i.d.type ≠ .dir then
        iunlockput ip
        abort
      else
        lift (.iunlock ip)
        match (← lift .proc).cwd with
        | some cwd => iput cwd
        | none => lift (.fault .nullDeref)
        lift .endOp
        lift (.setCwd (some ip))
        pure 0

/-- `sys_chmod`, `sys_chown` and `sys_chgrp`: the greatest value, and the field it is for. -/
def change (max : Int) (f : Int → Patch) (args : Option (List Byte × Int)) :
    Program Int := do
  match args with
  | none => pure (-1)
  | some (path, value) =>
    if value < 0 ∨ value > max then pure (-1)
    else
      lift .beginOp
      match ← namei path with
      | none => abort
      | some ip =>
        lift (.ilock ip)
        lift (.patch ip (f value))
        lift (.iupdate ip)
        lift (.iunlock ip)
        iput ip
        lift .endOp
        pure 0

/-- The greatest mode is `01777`. -/
def sysChmod : Option (List Byte × Int) → Program Int :=
  change 1023 fun mode => .mode (BitVec.ofInt 32 mode)

def sysChown : Option (List Byte × Int) → Program Int :=
  change 32767 fun owner => .uid (BitVec.ofInt 16 owner)

def sysChgrp : Option (List Byte × Int) → Program Int :=
  change 32767 fun group => .gid (BitVec.ofInt 16 group)

end Fs

end Xv6
