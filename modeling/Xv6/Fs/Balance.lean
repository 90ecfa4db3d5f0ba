import Mathlib.Tactic.Abel
import Xv6.Lib.Threads
import Xv6.Fs.Ledger
import Xv6.Fs.Held

/-!
# What a process has of its own

Beside its `struct proc` a process has counters as ghost data: the references to inodes and
files, the locks, the ends of pipes and the transactions that it took and did not give back.
The tokens it holds are as many.
-/

namespace Xv6

def Caller.slots (me : Caller) (f : FilePtr) : Int :=
  (Finset.univ.filter fun fd => me.ofile fd = some f).card

namespace Fs

/-! ## Counters -/

/-- References to entries of the inode cache, locks of them, references to files, and ends
of pipes that are in no file. -/
abbrev Counts := (InodePtr → Int) × (InodePtr → Int) × (FilePtr → Int) × (Nat × Bool → Int)

def inProc (me : Caller) : Counts :=
  (fun ip => if me.cwd = some ip then 1 else 0, 0, me.slots, 0)

def Handle.counts : Handle → Counts
  | own ip _ => (Pi.single ip 1, 0, 0)
  | file f _ _ => (0, 0, Pi.single f 1, 0)

def Token.counts : Token → Counts
  | ref h => h.counts
  | got ip _ => (Pi.single ip 1, 0, 0)
  | lock h _ => h.counts + (0, Pi.single h.ip 1, 0)
  | fref f | new f => (0, 0, Pi.single f 1, 0)
  | born _ => 0
  | pend p w => (0, 0, 0, Pi.single (p, w) 1)

def tally (T : Multiset Token) : Counts := (T.map Token.counts).sum

def contents (ff : File) : Counts :=
  match ff.type with
  | .inode => (Pi.single ff.ip 1, 0, 0)
  | .pipe => (0, 0, 0, Pi.single (ff.pipe, ff.writable) 1)
  | .none => 0

/-- What a call takes, by what it returns. An open file has a reference to its inode, which
`sys_open` gives to it and the last `fileclose` takes back. -/
def Call.counts : {β : Type} → Call β → β → Counts
  | _, .iget _ _, ip | _, .idup _, ip => (Pi.single ip 1, 0, 0)
  | _, .ilock ip, _ => (0, Pi.single ip 1, 0)
  | _, .iunlock ip, _ => (0, -Pi.single ip 1, 0)
  | _, .iputTest ip, freeing => if freeing then (0, Pi.single ip 1, 0) else (-Pi.single ip 1, 0, 0)
  | _, .iputDone ip, _ => (-Pi.single ip 1, -Pi.single ip 1, 0)
  | _, .filealloc, some f => (0, 0, Pi.single f 1, 0)
  | _, .filedup f, _ => (0, 0, Pi.single f 1, 0)
  | _, .filedrop f, some ff => contents ff + (0, 0, -Pi.single f 1, 0)
  | _, .filedrop f, none => (0, 0, -Pi.single f 1, 0)
  | _, .pipealloc, some p => (0, 0, 0, Pi.single (p, false) 1 + Pi.single (p, true) 1)
  | _, .setPipe _ p writable, _ | _, .pipeclose p writable, _ =>
    (0, 0, 0, -Pi.single (p, writable) 1)
  | _, .setFile _ ip _ _, _ => (-Pi.single ip 1, 0, 0)
  | _, _, _ => 0

def Call.ops : {β : Type} → Call β → Int
  | _, .beginOp => 1
  | _, .endOp => -1
  | _, _ => 0

section Tally

variable {T R : Multiset Token} {a b : Token} {h : Handle} {x : Counts} {ip : InodePtr}
  {f : FilePtr}

theorem tally_cons (a : Token) (T : Multiset Token) : tally (a ::ₘ T) = a.counts + tally T := by
  unfold tally
  rw [Multiset.map_cons, Multiset.sum_cons]

theorem tally_add (T R : Multiset Token) : tally (T + R) = tally T + tally R := by
  unfold tally
  rw [Multiset.map_add, Multiset.sum_add]

theorem tally_swap (hx : b.counts = a.counts + x) :
    tally (b ::ₘ R) = tally (a ::ₘ R) + x := by
  rw [tally_cons, tally_cons, hx]
  abel

theorem tally_take (hx : b.counts = x) : tally (b ::ₘ R) = tally R + x := by
  rw [tally_cons, hx, add_comm]

theorem tally_drop (hx : a.counts + x = 0) : tally R = tally (a ::ₘ R) + x := by
  rw [tally_cons, add_right_comm, hx, zero_add]

theorem tally_fill {c : Token} (hc : c.counts = a.counts) (hx : b.counts + x = 0) :
    tally (c ::ₘ R) = tally (a ::ₘ b ::ₘ R) + x := by
  rw [tally_cons, tally_cons, add_assoc, ← tally_drop hx, hc]

theorem Token.counts_of_isRef (hr : a.isRef = true) (ha : a.handle = some h) :
    a.counts = h.counts := by
  cases a with
  | ref _ | got _ _ =>
    cases ha
    rfl
  | _ => cases hr

theorem tally_countP {g : Counts → Int} (hzero : g 0 = 0) (hadd : ∀ x y, g (x + y) = g x + g y)
    {q : Token → Prop} [DecidablePred q] (hq : ∀ a, g a.counts = if q a then 1 else 0)
    (T : Multiset Token) : g (tally T) = T.countP q := by
  induction T using Multiset.induction with
  | empty => exact hzero
  | cons a T ih =>
    rw [tally_cons, hadd, ih, hq, Multiset.countP_cons]
    push_cast
    exact add_comm _ _

theorem Handle.counts_ref (h : Handle) (ip : InodePtr) :
    h.counts.1 ip = if h.isOwn = true ∧ h.ip = ip then 1 else 0 := by
  cases h with
  | own jp n => simp [counts, isOwn, Handle.ip, Pi.single_apply, eq_comm]
  | file f jp n => simp [counts, isOwn]

theorem Handle.counts_file (h : Handle) (f : FilePtr) :
    h.counts.2.2.1 f = if h.of f = true then 1 else 0 := by
  cases h with
  | own jp n => simp [counts, Handle.of]
  | file g jp n => simp [counts, Handle.of, Pi.single_apply, eq_comm]

theorem tally_refs (T : Multiset Token) (ip : InodePtr) :
    (tally T).1 ip = owns (T.filter (·.on ip)) := by
  unfold owns
  rw [Multiset.countP_filter]
  refine tally_countP (g := fun x => x.1 ip) rfl (fun _ _ => rfl) (fun a => ?_) T
  cases a with
  | ref h | lock h p => simp [Token.counts, h.counts_ref, Token.isOwn, Token.on, Token.handle]
  | got jp n =>
    simp [Token.counts, Token.isOwn, Token.on, Token.handle, Handle.isOwn, Handle.ip,
      Pi.single_apply, eq_comm]
  | _ => simp [Token.counts, Token.isOwn, Token.handle]

theorem tally_locks (T : Multiset Token) (ip : InodePtr) :
    (tally T).2.1 ip = locks (T.filter (·.on ip)) := by
  unfold locks
  rw [Multiset.countP_filter]
  refine tally_countP (g := fun x => x.2.1 ip) rfl (fun _ _ => rfl) (fun a => ?_) T
  have hnone : ∀ h : Handle, h.counts.2.1 ip = 0 := by
    intro h
    cases h with
    | own jp n | file f jp n => rfl
  cases a with
  | ref h => simp [Token.counts, hnone, Token.isLock]
  | lock h p =>
    simp [Token.counts, hnone, Token.isLock, Token.on, Token.handle, Pi.single_apply, eq_comm]
  | _ => simp [Token.counts, Token.isLock]

theorem tally_files (T : Multiset Token) (f : FilePtr) :
    (tally T).2.2.1 f = (T.filter (·.of f)).card := by
  rw [← Multiset.countP_eq_card_filter]
  refine tally_countP (g := fun x => x.2.2.1 f) rfl (fun _ _ => rfl) (fun a => ?_) T
  cases a with
  | ref h => exact h.counts_file f
  | lock h p => exact (add_zero _).trans (h.counts_file f)
  | fref _ | new _ => simp [Token.counts, Token.of, Pi.single_apply, eq_comm]
  | _ => simp [Token.counts, Token.of]

theorem tally_ends (T : Multiset Token) (e : Nat × Bool) :
    (tally T).2.2.2 e = T.count (.pend e.1 e.2) := by
  refine tally_countP (g := fun x => x.2.2.2 e) rfl (fun _ _ => rfl) (fun a => ?_) T
  have hnone : ∀ h : Handle, h.counts.2.2.2 e = 0 := by
    intro h
    cases h with
    | own jp n | file f jp n => rfl
  cases a with
  | ref _ | lock _ _ => simp [Token.counts, hnone]
  | pend p w => simp [Token.counts, Pi.single_apply, Prod.ext_iff]
  | _ => simp [Token.counts]

end Tally

/-! ## Processes -/

inductive Mode
  | still
  /-- `open`, `pipe`, `dup` or `close`. -/
  | files
  | fork
  | exit
deriving DecidableEq

structure Own where
  me : Caller
  np : Option Caller
  mode : Mode
  tx : Tx
  /-- `begin_op` minus `end_op` -/
  ops : Int
  counts : Counts

def Call.np (np : Option Caller) (me : Caller) : {β : Type} → Call β → β → Option Caller
  | _, .newProc slot, made =>
    if made then some { slot with uid := me.uid, gid := me.gid } else np
  | _, .npFd fd f, _ =>
    np.map fun np => { np with ofile := Function.update np.ofile fd (some f) }
  | _, .npCwd ip, _ => np.map fun np => { np with cwd := some ip }
  | _, _, _ => np

def Own.after (o : Own) (s : Fs) (me : Caller) (ev : List Event) {β : Type} (c : Call β) (b : β) :
    Own where
  me := me
  np := c.np o.np o.me b
  mode := o.mode
  tx := o.tx.after s ev c b
  ops := o.ops + c.ops
  counts := o.counts + c.counts b

/-- What stays for the whole of a call, but for the new process of `fork`. -/
structure Role where
  mode : Mode
  np : Option Caller

structure View where
  me : Caller
  ledger : Ledger
  role : Role

abbrev Holding := Prog.Hold Token View

structure Knows (sb : Superblock) (o : Own) (H : Holding) : Prop where
  me : o.me = H.view.me
  np : o.np = H.view.role.np
  mode : o.mode = H.view.role.mode
  covers : H.view.ledger.Covers sb o.tx
  ops : o.ops = H.view.ledger.ops
  counts : o.counts = tally H.toks
  still : o.mode = .still → o.counts.2.2 = (o.me.slots, 0)
  parent : o.np ≠ none → o.mode = .fork

section Knows

variable {sb : Superblock} {o : Own} {H : Holding} {T : Multiset Token} {l : Ledger} {s : Fs}
  {me : Caller} {ev : List Event} {β : Type} {c : Call β} {b : β}

namespace Knows

/-- A call that leaves the `struct proc`s alone. -/
theorem step (hk : Knows sb o H) (hl : l.Covers sb (o.tx.after s ev c b))
    (hops : o.ops + c.ops = l.ops) (hcounts : tally T = tally H.toks + c.counts b)
    (hfiles : o.mode = .still → (c.counts b).2.2 = 0) (hnp : c.np o.np o.me b = o.np) :
    Knows sb (o.after s o.me ev c b) ⟨T, { H.view with ledger := l }⟩ where
  me := hk.me
  np := hnp.trans hk.np
  mode := hk.mode
  covers := hl
  ops := hops
  counts := by
    rw [hcounts, ← hk.counts]
    rfl
  still := by
    intro hm
    have := hk.still hm
    change o.counts.2.2 + (c.counts b).2.2 = (o.me.slots, 0)
    rw [hfiles hm, add_zero, this]
  parent := by
    intro hne
    apply hk.parent
    rwa [← hnp]

theorem move (hk : Knows sb o H) (htx : o.tx.after s ev c b = o.tx.add ev 0 0)
    (hlog : logged ev = ∅) (hops : c.ops = 0)
    (hcounts : tally T = tally H.toks + c.counts b)
    (hfiles : o.mode = .still → (c.counts b).2.2 = 0) (hnp : c.np o.np o.me b = o.np) :
    Knows sb (o.after s o.me ev c b) ⟨T, H.view⟩ := by
  refine hk.step (l := H.view.ledger) ?_ ?_ hcounts hfiles hnp
  · rw [htx]
    exact hk.covers.quiet hlog
  · rw [hops, add_zero]
    exact hk.ops

theorem quiet (hk : Knows sb o H) (htx : o.tx.after s ev c b = o.tx.add ev 0 0)
    (hlog : logged ev = ∅) (hops : c.ops = 0) (hcounts : c.counts b = 0)
    (hnp : c.np o.np o.me b = o.np) : Knows sb (o.after s o.me ev c b) H := by
  refine hk.move htx hlog hops ?_ (fun _ => ?_) hnp
  · rw [hcounts, add_zero]
  · rw [hcounts]
    rfl

end Knows

end Knows

end Fs

end Xv6
