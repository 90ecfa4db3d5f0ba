import Xv6.Proc.Kin
import Xv6.Syscall.Getprocs

/-!
# Following parent pointers

`procdump`, `getprocs`, `ctrlz` and `sys_getppid` read the pid of the parent of processes they
select by state. An embryo has none before `fork` has copied its own process, and `procdump`
also lists embryos.
-/

namespace Xv6

/-! ## The readers -/

namespace Core

/-- `ppid`, as `procdump` and `ctrlz` compute it. -/
def ppid (c : Core) (p : Slot) : Except Fault Word :=
  if (c.proc p).pid = 1 then .ok 1
  else
    match (c.proc p).parent with
    | some q => .ok (c.proc q).pid
    | none => .error .nullDeref

def HasParent (c : Core) (p : Slot) : Prop := (c.proc p).pid = 1 ∨ (c.proc p).parent ≠ none

instance (c : Core) (p : Slot) : Decidable (c.HasParent p) :=
  inferInstanceAs (Decidable (_ ∨ _))

theorem ppid_ok_iff {c : Core} {p : Slot} : (∃ w, c.ppid p = .ok w) ↔ c.HasParent p := by
  unfold ppid HasParent
  by_cases h : (c.proc p).pid = 1
  · simp [h]
  · rw [if_neg h]
    cases (c.proc p).parent with
    | none => exact ⟨nofun, fun hp => hp.elim (absurd · h) (absurd rfl ·)⟩
    | some q => simp

end Core

def ProcState.text : ProcState → String
  | .unused => "unused"
  | .embryo => "embryo"
  | .sleeping => "sleep "
  | .runnable => "runble"
  | .running => "run   "
  | .zombie => "zombie"

def seconds (diff : Word) : Word × Word × Word × Word :=
  let whole := diff / 1000
  let ten := (diff - whole * 1000) / 100
  let hundred := (diff - whole * 1000 - ten * 100) / 10
  let thousand := diff - whole * 1000 - ten * 100 - hundred * 10
  (whole, ten, hundred, thousand)

/-- A line of `procdump`, without the return addresses of a sleeping process. -/
structure DumpLine where
  pid : Word
  name : String
  uid : Word
  gid : Word
  ppid : Word
  prio : Int
  elapsed : Word × Word × Word × Word
  cpu : Word × Word × Word × Word
  state : String
  sz : Word

namespace Core

def dumpLine (c : Core) (ticks : Word) (p : Slot) : Except Fault DumpLine := do
  let ppid ← c.ppid p
  let x := c.proc p
  .ok { pid := x.pid, name := x.name, uid := x.uid, gid := x.gid, ppid := ppid, prio := x.prio
        elapsed := seconds (ticks - x.startTicks), cpu := seconds x.cpuTicksTotal
        state := x.state.text, sz := x.sz }

def procdump (c : Core) (ticks : Word) : Except Fault (List DumpLine) :=
  ((List.finRange NPROC).filter fun p => (c.proc p).state ≠ .unused).mapM (c.dumpLine ticks)

/-- `sys_getppid`, called by `proc`. -/
def sysGetppid (c : Core) (proc : Slot) : Except Fault Word :=
  if (c.proc proc).pid = 1 then .ok (c.proc proc).pid
  else if (c.proc proc).pid < 1 then .ok (-1)
  else
    match (c.proc proc).parent with
    | some q => .ok (c.proc q).pid
    | none => .error .nullDeref

end Core

/-- The pids and parents that the loop of `ctrlz` prints, from a process on. -/
def Ptable.zombiesFrom (t : Ptable) : Nat → Option Slot → Except Fault (List (Word × Word))
  | _, none => .ok []
  | 0, some _ => .error .diverge
  | turns + 1, some current => do
    let ppid ← t.ppid current
    let rest ← t.zombiesFrom turns (t.next current)
    .ok (((t.proc current).pid, ppid) :: rest)

def Ptable.ctrlz (t : Ptable) : Except Fault (List (Word × Word)) :=
  t.zombiesFrom NPROC (t.pLists .zombie)

theorem mapM_ok_iff {α β : Type} {f : α → Except Fault β} {l : List α} :
    (∃ r, l.mapM f = .ok r) ↔ ∀ a ∈ l, ∃ b, f a = .ok b := by
  induction l with
  | nil => simp [List.mapM_nil, pure, Except.pure]
  | cons a l ih =>
    rw [List.mapM_cons, List.forall_mem_cons, ← ih]
    cases hf : f a with
    | error e => simp [bind, Except.bind]
    | ok b =>
      cases hl : l.mapM f with
      | error e => simp [bind, Except.bind]
      | ok r => simp [bind, Except.bind, pure, Except.pure]

theorem Core.procdump_ok_iff {c : Core} {ticks : Word} : (∃ r, c.procdump ticks = .ok r) ↔
    ∀ p, (c.proc p).state ≠ .unused → c.HasParent p := by
  have hline : ∀ p, (∃ r, c.dumpLine ticks p = .ok r) ↔ c.HasParent p := by
    intro p
    rw [← Core.ppid_ok_iff]
    unfold dumpLine
    cases c.ppid p with
    | error _ | ok _ => simp [bind, Except.bind]
  unfold procdump
  rw [mapM_ok_iff]
  simp [hline]

open Intrusive in
theorem Ptable.zombiesFrom_ok {t : Ptable} {head : Option Slot} {l : List Slot} {turns : Nat}
    (hc : Chain t.next head l) (hlen : l.length ≤ turns) (hp : ∀ p ∈ l, t.HasParent p) :
    ∃ r, t.zombiesFrom turns head = .ok r := by
  induction l generalizing head turns with
  | nil =>
    obtain rfl : head = none := hc
    exact ⟨[], by cases turns <;> rfl⟩
  | cons p l ih =>
    obtain ⟨rfl, hrest⟩ := hc
    obtain ⟨w, hw⟩ := Core.ppid_ok_iff.mpr (hp p List.mem_cons_self)
    cases turns with
    | zero => simp at hlen
    | succ turns =>
      obtain ⟨r, hr⟩ := ih hrest (Nat.le_of_succ_le_succ hlen)
        fun q hq => hp q (List.mem_cons_of_mem _ hq)
      refine ⟨((t.proc p).pid, w) :: r, ?_⟩
      unfold zombiesFrom
      rw [hw, hr]
      rfl

theorem Core.sysGetppid_ok {c : Core} {p : Slot} (h : c.HasParent p) :
    ∃ w, c.sysGetppid p = .ok w := by
  unfold sysGetppid
  split
  · exact ⟨_, rfl⟩
  · next hne =>
    split
    · exact ⟨_, rfl⟩
    · cases hp : (c.proc p).parent with
      | none => exact absurd (h.resolve_left hne) (not_not.mpr hp)
      | some q => exact ⟨_, rfl⟩

namespace Getprocs

theorem getprocs_congr_null {c : Core} (h : ∀ p, active c p = true → c.HasParent p)
    (ticks null null' : Word) (max : Int) (table : Word) :
    getprocs c ticks null max table = getprocs c ticks null' max table := by
  have hppid : ∀ p, active c p = true → ppid c null p = ppid c null' p := by
    intro p hp
    unfold ppid
    split
    · rfl
    · next hne =>
      cases hpar : (c.proc p).parent with
      | none => exact absurd ((h p hp).resolve_left hne) (not_not.mpr hpar)
      | some q => rfl
  have hloop : ∀ (ps : List Slot) (i : Nat),
      loop c ticks null max table ps i = loop c ticks null' max table ps i := by
    intro ps
    induction ps with
    | nil => exact fun _ => rfl
    | cons p ps ih =>
      intro i
      unfold loop
      split
      · split
        · next hp =>
          rw [ih (i + 1)]
          unfold entry
          rw [hppid p hp]
        · exact ih i
      · rfl
  exact hloop _ _

end Getprocs

/-! ## Embryos -/

section Embryos

variable {Cpu : Type} [DecidableEq Cpu] {s s' : Sys Cpu World} {a : Act Cpu} {e : Option Event}

/-- Every embryo is being filled in by a `fork`. It has no parent before `fork` has copied the
process, and neither has a free slot. Init keeps its pid. -/
structure Nursed (s : Sys Cpu World) : Prop where
  embryo : ∀ {x}, (s.tbl.life x).state = .embryo → ∃ p, (s.ctx p).child = some x
  free : ∀ {x}, (s.tbl.life x).state = .unused → (s.tbl.life x).parent = none
  unset : ∀ {p np}, s.ctx p = .forkAlloc np ∨ s.ctx p = .forkCopy np →
    (s.tbl.life np).parent = none
  init : ∀ {i}, s.tbl.initproc = some i → (s.tbl.life i).pid = 1

namespace Nursed

omit [DecidableEq Cpu] in
theorem of_init (h : WInit s) : Nursed s where
  embryo {x} hx := by
    by_cases h0 : x = 0
    · rw [h0, h.first] at hx
      cases hx
    · rw [h.free x h0] at hx
      cases hx
  free {x} hx := by
    by_cases h0 : x = 0
    · rw [h0, h.first] at hx
      cases hx
    · rw [h.free x h0]
  unset {p np} hp := by simp only [h.ctx, reduceCtorEq, or_self] at hp
  init {i} hi := by
    rw [h.initproc] at hi
    cases hi
    rw [h.first]

section Step

variable (h : WInv s) (hs : WStep s a e s')

include h hs

theorem step_child {p x : Slot} (hp : (s.ctx p).child = some x)
    (hx : (s'.tbl.life x).state = .embryo) : (s'.ctx p).child = some x := by
  obtain ⟨hrun, -, hemb, hinj, hfork, -, -, -, -⟩ := h
  have hst := hemb hp
  have hpst := hfork hp
  revert hx
  cases hs with
  | quiet ha ht hc hx hl => rw [hx]; exact fun _ => hp
  | wait hc hl hk hw | resumeWait hc hl hk hw =>
    cases hw <;> dsimp only [Sys.setCtx, Sys.leave] <;> grind
  | _ => dsimp only [Sys.setCtx, Sys.leave]; grind

variable (hn : Nursed s)

include hn

theorem step_embryo {x : Slot} (hx : (s'.tbl.life x).state = .embryo) :
    ∃ p, (s'.ctx p).child = some x := by
  by_cases hold : (s.tbl.life x).state = .embryo
  · obtain ⟨p, hp⟩ := hn.embryo hold
    exact ⟨p, step_child h hs hp hx⟩
  · revert hx
    cases hs with
    | quiet ha ht hc hx hl => rw [ht]; exact fun hx => absurd hx hold
    | @fork c p np hc hl hk hnp =>
      intro hx
      by_cases hne : x = np
      · refine ⟨p, ?_⟩
        dsimp only [Sys.setCtx]
        rw [hne, Function.update_self]
        rfl
      · refine absurd hx ?_
        dsimp only [Sys.setCtx]
        grind
    | wait hc hl hk hw | resumeWait hc hl hk hw =>
      cases hw <;> dsimp only [Sys.setCtx, Sys.leave] <;> grind
    | _ => dsimp only [Sys.setCtx, Sys.leave]; grind

theorem step_free {x : Slot} (hx : (s'.tbl.life x).state = .unused) :
    (s'.tbl.life x).parent = none := by
  obtain ⟨hrun, -, hemb, hinj, -, -, -, -, -⟩ := h
  have hfree := @hn.free
  have hunset := @hn.unset
  revert x
  cases hs with
  | quiet ha ht hc hx hl => rw [ht]; exact hfree
  | wait hc hl hk hw | resumeWait hc hl hk hw =>
    cases hw <;> dsimp only [Sys.setCtx, Sys.leave] <;> grind
  | _ => dsimp only [Sys.setCtx, Sys.leave]; grind

theorem step_unset {p np : Slot} (hp : s'.ctx p = .forkAlloc np ∨ s'.ctx p = .forkCopy np) :
    (s'.tbl.life np).parent = none := by
  obtain ⟨hrun, -, hemb, hinj, -, -, -, -, -⟩ := h
  have hfree := @hn.free
  have hunset := @hn.unset
  revert p np
  cases hs with
  | quiet ha ht hc hx hl => rw [ht, hx]; exact hunset
  | wait hc hl hk hw | resumeWait hc hl hk hw =>
    cases hw <;> dsimp only [Sys.setCtx, Sys.leave] <;> grind
  | _ => dsimp only [Sys.setCtx, Sys.leave]; grind

theorem step_init {i : Slot} (hi : s'.tbl.initproc = some i) : (s'.tbl.life i).pid = 1 := by
  rw [hs.initproc] at hi
  obtain ⟨j, hj, halive⟩ := h.init
  obtain rfl : j = i := Option.some.inj (hj.symm.trans hi)
  have hpid := hn.init hi
  unfold Life.Alive at halive
  cases hs with
  | quiet ha ht hc hx hl => rw [ht]; exact hpid
  | wait hc hl hk hw | resumeWait hc hl hk hw =>
    cases hw <;> dsimp only [Sys.setCtx, Sys.leave] <;> grind
  | _ => dsimp only [Sys.setCtx, Sys.leave]; grind

end Step

theorem step (hn : Nursed s) (h : WInv s) (hs : WStep s a e s') : Nursed s' where
  embryo := step_embryo h hs hn
  free := step_free h hs hn
  unset := step_unset h hs hn
  init := step_init h hs hn

end Nursed

theorem WRun.nursed {tr : List (Act Cpu × Option Event)} (h : WRun tr s) : Nursed s := by
  have hall : WInv s ∧ Nursed s := by
    refine Trace.Run.invariant (I := fun s => WInv s ∧ Nursed s) ?_ ?_ h
    · exact fun _ hs => ⟨hs.inv, .of_init hs⟩
    · exact fun _ _ _ hI hs => ⟨hI.1.step hs, hI.2.step hI.1 hs⟩
  exact hall.2

end Embryos

/-! ## Reachable states -/

section Reachable

variable {Cpu : Type} [DecidableEq Cpu] {tr : List (Act Cpu × Option Event)} {s : Sys Cpu Ptable}

/-- A process is in `fork`, with a slot that has no parent yet. -/
def Sys.Fills (s : Sys Cpu Ptable) (p np : Slot) : Prop :=
  s.ctx p = .forkAlloc np ∨ s.ctx p = .forkCopy np

theorem Sys.Run.hasParent (h : Sys.Run tr s) {p : Slot} (hu : (s.tbl.proc p).state ≠ .unused)
    (he : (s.tbl.proc p).state ≠ .embryo) : s.tbl.HasParent p := by
  have hsound := h.world.1.family.sound
  by_cases hi : s.tbl.initproc = some p
  · exact Or.inl (h.world.1.nursed.init hi)
  · have hun : (s.world.tbl.family.member p).Unreaped := by
      change (s.tbl.proc p).state.stage = .alive ∨ (s.tbl.proc p).state.stage = .zombie
      cases hst : (s.tbl.proc p).state with
      | unused => exact absurd hst hu
      | embryo => exact absurd hst he
      | zombie => exact Or.inr rfl
      | _ => exact Or.inl rfl
    obtain ⟨q, hq, -⟩ := hsound.parent hun hi
    refine Or.inr fun hnone => ?_
    rw [show (s.world.tbl.family.member p).parent = (s.tbl.proc p).parent from rfl, hnone] at hq
    cases hq

end Reachable

end Xv6
