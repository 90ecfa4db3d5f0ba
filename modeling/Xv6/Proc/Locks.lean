import Xv6.Lib.Spinlock

/-!
# The spin locks of the kernel

Every function of the kernel that takes spin locks, as the locks it takes and releases on its
paths. The handlers of Control-R, -F, -S and -Z take `cons.lock` while they hold `ptable.lock`;
`consoleread` and `consoleintr` take `ptable.lock` while they hold `cons.lock`. Other branches
and the turns of loops are left open.
-/

namespace Xv6

namespace Locks

inductive Lock
  | ptable
  | cons
  | kmem
  | log
  | icache
  | bcache
  | ide
  | ftable
  | pipe (i : Nat)
deriving DecidableEq

open Spin (Code)

open Spin.Code (acquire release swtch seq loop choice block maybe when)

/-! ## `proc.c`: sleep and wakeup -/

def sleep : Option Lock → Code Lock
  | some .ptable => swtch
  | some lk => block [acquire .ptable, release lk, swtch, release .ptable, acquire lk]
  | none => block [acquire .ptable, swtch, release .ptable]

/-- `wakeup1` runs under `ptable.lock`. -/
def wakeup : Code Lock := block [acquire .ptable, release .ptable]

/-! ## `console.c` -/

def cprintf : Code Lock := block [acquire .cons, release .cons]

/-- The keys that `consoleintr` handles after it has released `cons.lock`. -/
structure Keys where
  ctrlp : Bool
  ctrlr : Bool
  ctrlf : Bool
  ctrls : Bool
  ctrlz : Bool
deriving DecidableEq

/-- `procdump` holds no lock while it prints. -/
def procdump : Code Lock := block [cprintf, cprintf, loop cprintf]

def ctrlr : Code Lock :=
  block [acquire .ptable, cprintf,
    loop (block [cprintf, choice cprintf (block [loop cprintf, cprintf])]), release .ptable]

def ctrlf : Code Lock := block [acquire .ptable, cprintf, release .ptable]

/-- `ctrls` and `ctrlz` go along a list, which may be empty. -/
def listing : Code Lock :=
  block [acquire .ptable, cprintf,
    choice (block [cprintf, release .ptable]) (block [loop cprintf, cprintf, release .ptable])]

def ctrls : Code Lock := listing

def ctrlz : Code Lock := listing

def consoleintr (keys : Keys) : Code Lock :=
  block [acquire .cons, loop (maybe wakeup), release .cons,
    when keys.ctrlp procdump, when keys.ctrlr ctrlr, when keys.ctrlf ctrlf,
    when keys.ctrls ctrls, when keys.ctrlz ctrlz]

/-! ## `kalloc.c`, `ide.c`, `bio.c` and `log.c` -/

def kalloc : Code Lock := block [acquire .kmem, release .kmem]

def kfree : Code Lock := block [acquire .kmem, release .kmem]

def iderw : Code Lock := block [acquire .ide, loop (sleep (some .ide)), release .ide]

def ideintr : Code Lock :=
  block [acquire .ide, choice (release .ide) (block [wakeup, release .ide])]

def bget : Code Lock := block [acquire .bcache, loop (sleep (some .bcache)), release .bcache]

def bread : Code Lock := block [bget, maybe iderw]

def bwrite : Code Lock := iderw

def brelse : Code Lock := block [acquire .bcache, wakeup, release .bcache]

/-- The loops of `write_log` and `install_trans`. -/
def copyBlocks : Code Lock := loop (block [bread, bread, bwrite, brelse, brelse])

def writeHead : Code Lock := block [bread, bwrite, brelse]

def commit : Code Lock := maybe (block [copyBlocks, writeHead, copyBlocks, writeHead])

def beginOp : Code Lock := block [acquire .log, loop (sleep (some .log)), release .log]

def endOp : Code Lock :=
  block [acquire .log, maybe wakeup, release .log,
    maybe (block [commit, acquire .log, wakeup, release .log])]

def logWrite : Code Lock := block [acquire .log, release .log]

/-! ## `fs.c` and `file.c` -/

def iget : Code Lock := block [acquire .icache, release .icache]

def idup : Code Lock := block [acquire .icache, release .icache]

def ilock : Code Lock :=
  block [acquire .icache, loop (sleep (some .icache)), release .icache,
    maybe (block [bread, brelse])]

def iunlock : Code Lock := block [acquire .icache, wakeup, release .icache]

def change : Code Lock := block [bread, logWrite, brelse]

def iupdate : Code Lock := change

def itrunc : Code Lock :=
  block [loop change, maybe (block [bread, loop change, brelse, change]), iupdate]

def iput : Code Lock :=
  block [acquire .icache,
    maybe (block [release .icache, itrunc, iupdate, acquire .icache, wakeup]), release .icache]

def filealloc : Code Lock := block [acquire .ftable, release .ftable]

def filedup : Code Lock := block [acquire .ftable, release .ftable]

/-! ## `pipe.c` -/

def pipeclose (i : Nat) : Code Lock :=
  block [acquire (.pipe i), wakeup, release (.pipe i), maybe kfree]

def pipewrite (i : Nat) : Code Lock :=
  block [acquire (.pipe i), loop (block [wakeup, sleep (some (.pipe i))]),
    choice (release (.pipe i)) (block [wakeup, release (.pipe i)])]

def piperead (i : Nat) : Code Lock :=
  block [acquire (.pipe i), loop (sleep (some (.pipe i))),
    choice (release (.pipe i)) (block [wakeup, release (.pipe i)])]

/-- `fileclose` of a pipe, or of an inode. -/
def fileclose (i : Nat) : Code Lock :=
  block [acquire .ftable, release .ftable,
    choice Code.skip (choice (pipeclose i) (block [beginOp, iput, endOp]))]

/-! ## Consoles, processes and traps -/

def consoleread : Code Lock :=
  block [iunlock, acquire .cons, loop (sleep (some .cons)), release .cons, ilock]

def consolewrite : Code Lock := block [iunlock, acquire .cons, release .cons, ilock]

def allocproc : Code Lock :=
  block [acquire .ptable, release .ptable,
    maybe (block [kalloc, maybe (block [acquire .ptable, release .ptable])])]

/-- `copyuvm` takes pages from `kalloc`. -/
def fork : Code Lock :=
  block [allocproc, loop kalloc,
    choice (block [loop kfree, acquire .ptable, release .ptable])
      (block [loop filedup, idup, acquire .ptable, release .ptable])]

/-- `exit` after the files are closed. The slot goes on in `forkret`, when it is used
again. -/
def exit : Code Lock := block [acquire .ptable, swtch, release .ptable]

/-- `wait` frees the memory of the child under `ptable.lock`. -/
def wait : Code Lock :=
  block [acquire .ptable, loop (sleep (some .ptable)), maybe (block [kfree, loop kfree]),
    release .ptable]

def yield : Code Lock := block [acquire .ptable, swtch, release .ptable]

/-- `kill`, `setpriority` and `getprocs` take `ptable.lock` and no other. -/
def table : Code Lock := block [acquire .ptable, release .ptable]

def sysSleep : Code Lock := loop (sleep none)

def timer (proc : Bool) : Code Lock := block [maybe wakeup, when proc (maybe yield)]

inductive Call
  | cprintf
  | kalloc
  | kfree
  | bread
  | bwrite
  | brelse
  | beginOp
  | endOp
  | logWrite
  | iget
  | idup
  | ilock
  | iunlock
  | iput
  | filealloc
  | filedup
  | fileclose (i : Nat)
  | pipeclose (i : Nat)
  | pipewrite (i : Nat)
  | piperead (i : Nat)
  | consoleread
  | consolewrite
  | fork
  | exit
  | wait
  | yield
  | kill
  | setpriority
  | getprocs
  | sleep

def Call.code : Call → Code Lock
  | cprintf => Locks.cprintf
  | kalloc => Locks.kalloc
  | kfree => Locks.kfree
  | bread => Locks.bread
  | bwrite => Locks.bwrite
  | brelse => Locks.brelse
  | beginOp => Locks.beginOp
  | endOp => Locks.endOp
  | logWrite => Locks.logWrite
  | iget => Locks.iget
  | idup => Locks.idup
  | ilock => Locks.ilock
  | iunlock => Locks.iunlock
  | iput => Locks.iput
  | filealloc => Locks.filealloc
  | filedup => Locks.filedup
  | fileclose i => Locks.fileclose i
  | pipeclose i => Locks.pipeclose i
  | pipewrite i => Locks.pipewrite i
  | piperead i => Locks.piperead i
  | consoleread => Locks.consoleread
  | consolewrite => Locks.consolewrite
  | fork => Locks.fork
  | exit => Locks.exit
  | wait => Locks.wait
  | yield => Locks.yield
  | kill => Locks.table
  | setpriority => Locks.table
  | getprocs => Locks.table
  | sleep => Locks.sysSleep

inductive Irq
  | timer
  | ide
  /-- The keyboard or the serial port. -/
  | console (keys : Keys)
  | spurious

def Irq.code : Irq → Bool → Code Lock
  | timer, proc => Locks.timer proc
  | ide, _ => ideintr
  | console keys, _ => consoleintr keys
  | spurious, _ => Locks.cprintf

def kernel : Spin.Kernel Lock Call Irq where
  sched := .ptable
  call := Call.code
  intr := Irq.code

/-- The order the kernel keeps to, but for the four handlers: `ptable.lock` is taken last,
except that `wait` frees pages. -/
def rank : Lock → Nat
  | .ptable => 1
  | .kmem => 2
  | _ => 0

/-- No handler that prints under `ptable.lock` is asked for. -/
def Irq.Harmless : Irq → Prop
  | console keys => keys.ctrlr = false ∧ keys.ctrlf = false ∧ keys.ctrls = false ∧
      keys.ctrlz = false
  | _ => True

theorem pipeclose_ordered (i : Nat) : (pipeclose i).Ordered rank .ptable := by
  simp [Code.Ordered, pipeclose, wakeup, kfree, block, maybe, Code.after, rank]

theorem pipewrite_ordered (i : Nat) : (pipewrite i).Ordered rank .ptable := by
  simp [Code.Ordered, pipewrite, wakeup, sleep, block, Code.after, rank]

theorem piperead_ordered (i : Nat) : (piperead i).Ordered rank .ptable := by
  simp [Code.Ordered, piperead, wakeup, sleep, block, Code.after, rank]

theorem fileclose_ordered (i : Nat) : (fileclose i).Ordered rank .ptable := by
  have hpipe : (pipeclose i).after rank .ptable [] = some [] := pipeclose_ordered i
  have hbegin : beginOp.after rank .ptable [] = some [] := by decide
  have hiput : iput.after rank .ptable [] = some [] := by decide
  have hend : endOp.after rank .ptable [] = some [] := by decide
  simp [Code.Ordered, fileclose, block, Code.after, hpipe, hbegin, hiput, hend]

theorem call_ordered (e : Call) : (e.code).Ordered rank .ptable := by
  cases e with
  | fileclose i => exact fileclose_ordered i
  | pipeclose i => exact pipeclose_ordered i
  | pipewrite i => exact pipewrite_ordered i
  | piperead i => exact piperead_ordered i
  | _ => decide

theorem irq_ordered (i : Irq) (proc : Bool) (h : i.Harmless) :
    (i.code proc).Ordered rank .ptable := by
  cases i with
  | timer => cases proc <;> decide
  | ide => exact (by decide : ideintr.Ordered rank .ptable)
  | spurious => exact (by decide : cprintf.Ordered rank .ptable)
  | console keys =>
    obtain ⟨p, r, f, s, z⟩ := keys
    obtain ⟨hr, hf, hs, hz⟩ := h
    subst hr hf hs hz
    change (consoleintr ⟨p, false, false, false, false⟩).Ordered rank .ptable
    cases p <;> decide

theorem kernel_ordered : kernel.Ordered rank Irq.Harmless :=
  ⟨call_ordered, irq_ordered⟩

/-- The machine when the CPUs have entered `scheduler`. -/
abbrev Machine (Cpu P : Type) := Spin.State Lock Cpu P

section

variable {Cpu P : Type} [DecidableEq Cpu] [DecidableEq P]

/-- While none of the four handlers is asked for, no CPUs wait for each other's locks in a
circle. -/
theorem no_deadlock_without_listings {tr : List (Spin.Act Cpu P Call Irq × Unit)}
    {s : Machine Cpu P}
    (hrun : Trace.Run (Spin.State.Init kernel)
      (Trace.Only (Spin.State.Allowed Irq.Harmless) (Trace.Next (Spin.State.next kernel))) tr s)
    (c : Cpu) : ¬ Relation.TransGen s.Waits c c :=
  Spin.State.no_cycle_of_ordered kernel_ordered hrun c

end

instance (s : Machine Bool Bool) (x : Spin.Act Bool Bool Call Irq) :
    Decidable (Spin.State.Allowed Irq.Harmless s x) := by
  unfold Spin.State.Allowed Irq.Harmless
  split
  · split <;> infer_instance
  · infer_instance

def wants (s : Machine Bool Bool) (c : Bool) : Option Lock :=
  match s.code c with
  | .acquire l :: _ => some l
  | _ => none

theorem waits_of_wants {s : Machine Bool Bool} {c c' : Bool} {l : Lock} (hw : wants s c = some l)
    (hl : s.lock l = some c') : s.Waits c c' := by
  unfold wants at hw
  split at hw
  · next k hk =>
    cases hw
    exact ⟨l, k, hk, hl⟩
  · cases hw

def go (c : Bool) (bs : List Bool) : List (Spin.Act Bool Bool Call Irq) := bs.map (.run c)

/-- The first CPU runs a process that reads from the console, up to `acquire(&ptable.lock)`
in `sleep`. -/
def readConsole : List (Spin.Act Bool Bool Call Irq) :=
  go false (.replicate 4 true) ++ [.dispatch false false, .run false true, .call false .consoleread]
    ++ go false (.replicate 17 true)

theorem no_deadlock_while_reading :
    ∃ (tr : _) (s : Machine Bool Bool), Trace.Run (Spin.State.Init kernel)
      (Trace.Only (Spin.State.Allowed Irq.Harmless) (Trace.Next (Spin.State.next kernel))) tr s ∧
      s.Waits false true ∧ ¬ Relation.TransGen s.Waits false false := by
  obtain ⟨tr, s, hrun, hw, hl⟩ := Trace.exec_reaches_only (f := Spin.State.next kernel)
    (Spin.State.boot_init kernel) (Spin.State.Allowed Irq.Harmless)
    (readConsole ++ go true (.replicate 3 true))
    (fun _ s => wants s false = some .ptable ∧ s.lock .ptable = some true)
    (by decide +kernel)
  exact ⟨tr, s, hrun, waits_of_wants hw hl, no_deadlock_without_listings hrun false⟩

/-- Control-R on one CPU while a process on the other goes to sleep in `consoleread`: each
of the two CPUs waits for the lock of the other. -/
theorem listing_deadlocks_with_consoleread :
    ∃ (tr : _) (s : Machine Bool Bool), Trace.Run (Spin.State.Init kernel)
      (Trace.Next (Spin.State.next kernel)) tr s ∧ Relation.TransGen s.Waits false false := by
  obtain ⟨tr, s, hrun, ⟨hw, hl⟩, hw', hl'⟩ := Trace.exec_reaches (f := Spin.State.next kernel)
    (Spin.State.boot_init kernel)
    ([.interrupt true (.console ⟨false, true, false, false, false⟩)]
      ++ go true [true, true, true, false, true, true, true, true, true, true]
      ++ readConsole ++ go true (.replicate 3 true))
    (fun _ s => (wants s false = some .ptable ∧ s.lock .ptable = some true) ∧
      wants s true = some .cons ∧ s.lock .cons = some false)
    (by decide +kernel)
  exact ⟨tr, s, hrun, .tail (.single (waits_of_wants hw hl)) (waits_of_wants hw' hl')⟩

/-! ## The checks of `acquire`, `release` and `sched` -/

/-- While none of the four handlers is asked for, no check of the spin locks panics: a CPU
does not hold the lock it acquires, holds the one it releases, and calls `sched` with
`ptable.lock`, no other lock, and `ncli` one. -/
theorem lock_checks_pass {Cpu P : Type} [DecidableEq Cpu] [DecidableEq P]
    {tr : List (Spin.Act Cpu P Call Irq × Unit)} {s : Machine Cpu P}
    (hrun : Trace.Run (Spin.State.Init kernel)
      (Trace.Only (Spin.State.Allowed Irq.Harmless) (Trace.Next (Spin.State.next kernel))) tr s)
    (c : Cpu) (k : List (Code Lock)) :
    (∀ l, s.code c = acquire l :: k → s.lock l ≠ some c) ∧
    (∀ l, s.code c = release l :: k → s.lock l = some c) ∧
    (s.code c = swtch :: k → s.ncli c = 1 ∧ ∀ l, s.lock l = some c ↔ l = .ptable) := by
  obtain ⟨H, hH⟩ := Spin.State.inv_of_ordered kernel_ordered hrun
  refine ⟨fun l hc hl => ?_, fun l hc => ?_, fun hc => ?_⟩
  · -- the rank of a lock is not below itself
    exact Nat.lt_irrefl _ ((hH.acquires hc).1 l ((hH.lock l c).mp hl))
  · obtain ⟨H', hafter, -⟩ := hH.head hc
    refine (hH.lock l c).mpr ?_
    by_contra hnot
    rw [Code.after, if_neg hnot] at hafter
    cases hafter
  · obtain ⟨hheld, -⟩ := hH.only_sched hc (Or.inl rfl)
    refine ⟨by rw [hH.ncli, hheld]; rfl, fun l => ?_⟩
    rw [hH.lock, hheld]
    exact List.mem_singleton

theorem lock_checks_pass_in_sleep :
    ∃ (tr : _) (s : Machine Bool Bool) (l : _) (k : _), Trace.Run (Spin.State.Init kernel)
      (Trace.Only (Spin.State.Allowed Irq.Harmless) (Trace.Next (Spin.State.next kernel))) tr s ∧
      s.code false = acquire l :: k ∧ s.lock l ≠ some false := by
  obtain ⟨tr, s, hrun, hw, hl⟩ := Trace.exec_reaches_only (f := Spin.State.next kernel)
    (Spin.State.boot_init kernel) (Spin.State.Allowed Irq.Harmless)
    (readConsole ++ go true (.replicate 3 true))
    (fun _ s => wants s false = some .ptable ∧ s.lock .ptable = some true) (by decide +kernel)
  obtain ⟨l, k, hc, -⟩ := waits_of_wants hw hl
  exact ⟨tr, s, l, k, hrun, hc, (lock_checks_pass hrun false k).1 l hc⟩

end Locks

end Xv6
