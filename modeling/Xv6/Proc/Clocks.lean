import Xv6.Proc.Priority

/-!
# The accounts of time

When a process was created, how long it has run, when it was last dispatched and how much of
its budget is left. `Good.clocked` says once what a step of the machine does to them. Beside
the machine runs a record of what it has done (`Ledger`): the slices of each process and the
charges since its budget was last reset.
-/

namespace Xv6

open Ptable (charge lowerPrio)

/-- The fields of `struct proc` that the accounts of time are kept in. -/
@[ext] structure Clock where
  state : ProcState
  startTicks : Word
  cpuTicksTotal : Word
  cpuTicksIn : Word
  budget : Word
  prio : Int

def Proc.clock (x : Proc) : Clock where
  state := x.state
  startTicks := x.startTicks
  cpuTicksTotal := x.cpuTicksTotal
  cpuTicksIn := x.cpuTicksIn
  budget := x.budget
  prio := x.prio

namespace Clock

def slice (ticks : Word) (k : Clock) : Word := ticks - k.cpuTicksIn

/-- The test of `yield` and `sleep` after the charge. -/
def Spent (ticks : Word) (k : Clock) : Prop := (k.budget - k.slice ticks).toInt ≤ 0

instance (ticks : Word) (k : Clock) : Decidable (k.Spent ticks) :=
  inferInstanceAs (Decidable (_ ≤ _))

/-- `sched` in a new state. -/
def leave (ticks : Word) (state : ProcState) (k : Clock) : Clock :=
  { k with state := state, cpuTicksTotal := k.cpuTicksTotal + k.slice ticks }

/-- The charge of `yield` and `sleep`. -/
def charge (ticks : Word) (k : Clock) : Clock :=
  if k.Spent ticks then
    { k with prio := if k.prio ≠ MAX then k.prio + 1 else k.prio, budget := BUDGET }
  else { k with budget := k.budget - k.slice ticks }

theorem charge_of_spent {ticks : Word} {k : Clock} (h : k.Spent ticks) :
    k.charge ticks =
      { k with prio := if k.prio ≠ MAX then k.prio + 1 else k.prio, budget := BUDGET } :=
  if_pos h

theorem charge_of_not_spent {ticks : Word} {k : Clock} (h : ¬ k.Spent ticks) :
    k.charge ticks = { k with budget := k.budget - k.slice ticks } :=
  if_neg h

/-- Nothing that the accounts record: the state and the priority may change, but no
dispatch begins or ends and the priority does not rise. -/
structure Idle (k k' : Clock) : Prop where
  eq : k' = { k with state := k'.state, prio := k'.prio }
  running : k'.state = .running ↔ k.state = .running
  prio : k'.prio ≤ k.prio

theorem Idle.refl (k : Clock) : Idle k k := ⟨rfl, Iff.rfl, Int.le_refl _⟩

theorem Idle.trans {k k₁ k₂ : Clock} (h : Idle k k₁) (h' : Idle k₁ k₂) : Idle k k₂ := by
  refine ⟨?_, h'.running.trans h.running, h'.prio.trans h.prio⟩
  rw [h'.eq, h.eq]

theorem Idle.of_state {k : Clock} {state : ProcState} (h : k.state ≠ .running)
    (h' : state ≠ .running) : Idle k { k with state := state } :=
  ⟨rfl, iff_of_false h' h, Int.le_refl _⟩

end Clock

inductive Entry
  | idle
  | dispatched
  /-- `yield` or `sleep`. -/
  | charged
  | exited
  /-- `allocproc` with its stack. -/
  | opened
  /-- `setpriority` -/
  | reset
deriving DecidableEq

inductive Turn (ticks : Word) : Entry → Clock → Clock → Prop
  | idle {k k' : Clock} (h : Clock.Idle k k') : Turn ticks .idle k k'
  | dispatched {k k' : Clock} (h : Clock.Idle k k') (hr : k'.state = .runnable) :
      Turn ticks .dispatched k { k' with state := .running, cpuTicksIn := ticks }
  | charged {k : Clock} {state : ProcState} (hr : k.state = .running)
      (hs : state = .runnable ∨ state = .sleeping) :
      Turn ticks .charged k ((k.charge ticks).leave ticks state)
  | exited {k : Clock} (hr : k.state = .running) : Turn ticks .exited k (k.leave ticks .zombie)
  | opened {k : Clock} (he : k.state = .embryo) :
      Turn ticks .opened k
        { k with startTicks := ticks, cpuTicksTotal := 0, cpuTicksIn := 0, budget := BUDGET
                 prio := 0 }
  | reset {k : Clock} (priority : Int) :
      Turn ticks .reset k { k with prio := priority, budget := BUDGET }

namespace Turn

variable {ticks : Word} {k k' : Clock}

theorem of_charged (h : Turn ticks .charged k k') :
    k.state = .running ∧ ∃ state, k' = (k.charge ticks).leave ticks state := by
  cases h with
  | charged hr hs => exact ⟨hr, _, rfl⟩

theorem budget_of_idle (h : Turn ticks .idle k k') : k'.budget = k.budget := by
  cases h with
  | idle hidle => rw [hidle.eq]

theorem budget_of_dispatched (h : Turn ticks .dispatched k k') : k'.budget = k.budget := by
  cases h with
  | dispatched hidle hr =>
    rw [hidle.eq]

end Turn

namespace Sys

variable {Cpu : Type} [DecidableEq Cpu]

/-- What the step `a` from `s` to `s'` is for the process `p`. -/
def entry (s s' : Sys Cpu Ptable) (a : Act Cpu) (p : Slot) : Entry :=
  match a with
  | .sched c => if s'.cpu c = some p then .dispatched else .idle
  | .yield c | .sleep c _ | .block c => if s.cpu c = some p then .charged else .idle
  -- the turn of wait that goes to sleep
  | .wait c | .resume c => if s.cpu c = some p ∧ s'.cpu c = none then .charged else .idle
  | .exit c => if s.cpu c = some p then .exited else .idle
  | .kalloc c (some _) => if (s.cpu c).map s.ctx = some (.forkAlloc p) then .opened else .idle
  | .setpriority _ pid priority =>
    if (s.tbl.proc p).pid = pid ∧
        s'.tbl.proc p = { s.tbl.proc p with prio := priority, budget := BUDGET } then .reset
    else .idle
  | _ => .idle

end Sys

/-! ## The array operations -/

namespace Core

open Clock (Idle)

variable {c : Core} {p : Slot} {ticks : Word}

def Idles (c c' : Core) : Prop := ∀ x, Idle (c.proc x).clock (c'.proc x).clock

/-- A step of `p`, for every process. -/
def Turns (ticks : Word) (e : Entry) (p : Slot) (c c' : Core) : Prop :=
  ∀ x, Turn ticks (if some p = some x then e else .idle) (c.proc x).clock (c'.proc x).clock

theorem idle_modify {f : Proc → Proc} (hf : Idle (c.proc p).clock (f (c.proc p)).clock) :
    c.Idles (c.modify p f) := by
  intro x
  by_cases hx : x = p
  · subst hx
    rwa [modify_self]
  · rw [modify_of_ne _ _ _ hx]
    exact .refl _

theorem idle_setState {f : Proc → Proc} (state : ProcState)
    (hf : (f (c.proc p)).clock = { (c.proc p).clock with state := state })
    (h : (c.proc p).state ≠ .running) (h' : state ≠ .running) : c.Idles (c.modify p f) := by
  refine idle_modify ?_
  rw [hf]
  exact .of_state h h'

theorem idle_wakeProc (chan : Option Chan) (x : Proc) : Idle x.clock (wakeProc chan x).clock := by
  unfold wakeProc
  split
  · next h =>
    refine Idle.of_state (k := x.clock) ?_ nofun
    change x.state ≠ .running
    rw [h.1]
    exact nofun
  · exact .refl _

theorem idle_wakeup1 (c : Core) (chan : Option Chan) : c.Idles (c.wakeup1 chan) :=
  fun _ => idle_wakeProc _ _

theorem adoptProc_clock (proc : Slot) (init : Option Slot) (x : Proc) :
    (adoptProc proc init x).clock = x.clock := by
  unfold adoptProc
  split <;> rfl

theorem idle_passChildren (c : Core) (p : Slot) : c.Idles (c.passChildren p) := by
  intro x
  have hadopt : Idle (c.proc x).clock (adoptProc p c.initproc (c.proc x)).clock := by
    rw [adoptProc_clock]
    exact .refl _
  by_cases hz : c.ZombieChild p
  · rw [passChildren_proc_of_zombie hz]
    exact hadopt.trans (idle_wakeProc _ _)
  · rwa [passChildren_proc_of_none hz]

theorem lowerPrio_clock (x : Proc) : Idle x.clock (lowerPrio x).clock := by
  unfold lowerPrio
  split
  · exact ⟨rfl, Iff.rfl, by change x.prio - 1 ≤ x.prio; omega⟩
  · exact .refl _

theorem idle_promoteDue (c : Core) (ticks : Word) : c.Idles (c.promoteDue ticks) := by
  intro x
  unfold promoteDue
  split
  · change Idle _ (promoteProc (c.proc x)).clock
    unfold promoteProc
    split
    · exact lowerPrio_clock _
    · exact .refl _
  · exact .refl _

theorem promoteAtTime_promoteDue (c : Core) (ticks : Word) :
    (c.promoteDue ticks).promoteAtTime =
      if c.promoteAtTime ≤ ticks then ticks + TICKS_TO_PROMOTE else c.promoteAtTime := by
  unfold promoteDue
  split <;> rfl

theorem turn_dispatch (hr : ((c.promoteDue ticks).proc p).state = .runnable) :
    Turns ticks .dispatched p c ((c.promoteDue ticks).dispatch p ticks) := by
  intro x
  have hidle := idle_promoteDue c ticks x
  unfold dispatch
  by_cases hx : p = x
  · subst hx
    rw [if_pos rfl, modify_self, modify_self]
    exact .dispatched hidle hr
  · rw [if_neg fun h => hx (Option.some.inj h), modify_of_ne _ _ _ (Ne.symm hx),
      modify_of_ne _ _ _ (Ne.symm hx)]
    exact .idle hidle

theorem charge_clock (ticks : Word) (x : Proc) :
    (charge ticks x).clock = x.clock.charge ticks := by
  change (if (x.budget - (ticks - x.cpuTicksIn)).toInt ≤ 0 then _ else _ : Proc).clock =
    if (x.budget - (ticks - x.cpuTicksIn)).toInt ≤ 0 then _ else _
  split <;> rfl

theorem charge_leave (ticks : Word) (k : Clock) (state : ProcState) :
    (Clock.charge ticks { k with state := state }).leave ticks state =
      (k.charge ticks).leave ticks state := by
  by_cases h : k.Spent ticks
  · rw [Clock.charge_of_spent h,
      Clock.charge_of_spent (show Clock.Spent ticks { k with state := state } from h)]
    rfl
  · rw [Clock.charge_of_not_spent h,
      Clock.charge_of_not_spent (show ¬ Clock.Spent ticks { k with state := state } from h)]
    rfl

theorem sched_clock (c : Core) (p : Slot) (ticks : Word) :
    ((c.sched p ticks).proc p).clock = (c.proc p).clock.leave ticks (c.proc p).state := by
  unfold sched
  rw [modify_self]
  rfl

theorem turn_charged {c' : Core} (state : ProcState) (hst : (c.proc p).state = .running)
    (hs : state = .runnable ∨ state = .sleeping) (hne : ∀ x, x ≠ p → c'.proc x = c.proc x)
    (hp : (c'.proc p).clock =
      (Clock.charge ticks { (c.proc p).clock with state := state }).leave ticks state) :
    Turns ticks .charged p c c' := by
  intro x
  by_cases hx : p = x
  · subst hx
    rw [if_pos rfl, hp, charge_leave]
    exact .charged hst hs
  · rw [if_neg fun h => hx (Option.some.inj h), hne x (Ne.symm hx)]
    exact .idle (.refl _)

theorem turn_yield (ticks : Word) (hst : (c.proc p).state = .running) :
    Turns ticks .charged p c (c.yield p ticks) := by
  refine turn_charged .runnable hst (Or.inl rfl) (fun x hx => ?_) ?_
  · unfold yield sched
    rw [modify_of_ne _ _ _ hx, modify_of_ne _ _ _ hx]
  · unfold yield
    rw [sched_clock, modify_self, Queues.charge_state, charge_clock]
    rfl

theorem turn_sleep (chan : Chan) (ticks : Word) (hst : (c.proc p).state = .running) :
    Turns ticks .charged p c (c.sleep p chan ticks) := by
  refine turn_charged .sleeping hst (Or.inr rfl) (fun x hx => ?_) ?_
  · unfold sleep sched
    rw [modify_of_ne _ _ _ hx, modify_of_ne _ _ _ hx, modify_of_ne _ _ _ hx]
  · unfold sleep
    rw [sched_clock, modify_self, Queues.charge_state, charge_clock, modify_self]
    rfl

theorem turn_exit (ticks : Word) (hst : (c.proc p).state = .running) :
    Turns ticks .exited p c (c.exit p ticks) := by
  intro x
  have hidle : Idle (c.proc x).clock
      (((c.wakeup1 ((c.proc p).parent.map .proc)).passChildren p).proc x).clock :=
    (idle_wakeup1 c _ x).trans (idle_passChildren _ p x)
  unfold exit
  dsimp only
  by_cases hx : p = x
  · subst hx
    -- neither the wakeups nor the loops over the children touch the caller
    have hw : (c.wakeup1 ((c.proc p).parent.map .proc)).proc p = c.proc p :=
      wakeProc_of_ne _ _ (by rw [hst]; exact nofun)
    have hsame : (((c.wakeup1 ((c.proc p).parent.map .proc)).passChildren p).proc p).clock =
        (c.proc p).clock := by
      by_cases hz : (c.wakeup1 ((c.proc p).parent.map .proc)).ZombieChild p
      · rw [passChildren_proc_of_zombie hz, wakeProc_of_ne, adoptProc_clock, hw]
        rw [adoptProc_state, hw, hst]
        exact nofun
      · rw [passChildren_proc_of_none hz, adoptProc_clock, hw]
    rw [if_pos rfl, sched_clock, modify_self]
    change Turn ticks .exited _ (Clock.leave ticks .zombie
      { (((c.wakeup1 ((c.proc p).parent.map .proc)).passChildren p).proc p).clock with
        state := .zombie })
    rw [hsame]
    exact .exited hst
  · unfold sched
    rw [if_neg fun h => hx (Option.some.inj h), modify_of_ne _ _ _ (Ne.symm hx),
      modify_of_ne _ _ _ (Ne.symm hx)]
    exact .idle hidle

theorem idle_reap (hz : (c.proc p).state = .zombie) : c.Idles (c.reap p) := by
  intro x
  have hstack := idle_modify (c := c) (p := p) (f := fun x => { x with kstack := none }) (.refl _) x
  unfold reap
  refine (hstack.trans (idle_setState .unused rfl ?_ nofun x)).trans (idle_modify (.refl _) x)
  rw [modify_self, hz]
  exact nofun

theorem idle_kill (c : Core) (p : Slot) : c.Idles (c.kill p) := by
  intro x
  have hmark := idle_modify (c := c) (p := p) (f := fun x => { x with killed := true }) (.refl _) x
  unfold kill
  dsimp only
  split
  · next hs =>
    refine hmark.trans (idle_setState .runnable rfl ?_ nofun x)
    rw [modify_self]
    rw [hs]
    exact nofun
  · exact hmark

theorem idle_allocproc (hu : (c.proc p).state = .unused) : c.Idles (c.allocproc p) := by
  intro x
  unfold allocproc
  dsimp only
  refine (idle_setState .embryo rfl ?_ nofun x).trans (idle_modify (.refl _) x)
  rw [hu]
  exact nofun

theorem idle_free {f : Proc → Proc} (he : (c.proc p).state = .embryo)
    (hf : (f (c.proc p)).clock = (c.proc p).clock) :
    c.Idles ((c.modify p f).modify p fun x => { x with state := .unused }) := by
  intro x
  have hst : ((c.modify p f).proc p).state ≠ .running := by
    rw [modify_self]
    change (f (c.proc p)).clock.state ≠ .running
    rw [hf]
    change (c.proc p).state ≠ .running
    rw [he]
    exact nofun
  refine (idle_modify ?_ x).trans (idle_setState .unused rfl hst nofun x)
  rw [hf]
  exact .refl _

theorem idle_forkReady (he : (c.proc p).state = .embryo) : c.Idles (c.forkReady p) := by
  refine idle_setState .runnable rfl ?_ nofun
  rw [he]
  exact nofun

theorem idle_forkCopy (c : Core) (p np : Slot) (pgdir : Nat) :
    c.Idles (c.forkCopy p np pgdir) := by
  unfold forkCopy
  exact idle_modify (.refl _)

theorem turn_allocprocInit (kstack : Nat) (ticks : Word) (he : (c.proc p).state = .embryo)
    (x : Slot) :
    Turn ticks (if some (Ctx.forkAlloc p) = some (.forkAlloc x) then .opened else .idle)
      (c.proc x).clock ((c.allocprocInit p kstack ticks).proc x).clock := by
  by_cases hx : p = x
  · subst hx
    rw [if_pos rfl]
    unfold allocprocInit
    rw [modify_self]
    exact .opened he
  · rw [if_neg (by simpa using hx), allocprocInit_of_ne _ _ (Ne.symm hx)]
    exact .idle (.refl _)

theorem promoteAtTime_passChildren (c : Core) (p : Slot) :
    (c.passChildren p).promoteAtTime = c.promoteAtTime := by
  unfold passChildren
  dsimp only
  split <;> rfl

theorem promoteAtTime_exit (c : Core) (p : Slot) (ticks : Word) :
    (c.exit p ticks).promoteAtTime = c.promoteAtTime := by
  unfold exit sched
  dsimp only
  rw [modify_promoteAtTime, modify_promoteAtTime, promoteAtTime_passChildren]
  rfl

theorem promoteAtTime_kill (c : Core) (p : Slot) :
    (c.kill p).promoteAtTime = c.promoteAtTime := by
  unfold kill
  dsimp only
  split <;> rfl

end Core

/-! ## The steps of the machine -/

/-- What the step `a` from `s` to `s'` does to the accounts of time. -/
structure Clocked {Cpu : Type} [DecidableEq Cpu] (s : Sys Cpu Ptable) (a : Act Cpu)
    (s' : Sys Cpu Ptable) : Prop where
  ticks : s'.ticks = match a with
    | .tick => s.ticks + 1
    | _ => s.ticks
  deadline : s'.tbl.promoteAtTime = match a with
    | .sched _ =>
      if s.tbl.promoteAtTime ≤ s.ticks then s.ticks + TICKS_TO_PROMOTE else s.tbl.promoteAtTime
    | _ => s.tbl.promoteAtTime
  turn : ∀ x, Turn s.ticks (s.entry s' a x) (s.tbl.proc x).clock (s'.tbl.proc x).clock

namespace Good

variable {Cpu : Type} [DecidableEq Cpu] {s s' : Sys Cpu Ptable} {a : Act Cpu} {e : Option Event}
  {c : Cpu} {p : Slot}

omit [DecidableEq Cpu] in
theorem of_ends {m : Except Fault Ptable} {c' : Core} (hm : Ptable.Ends m c')
    {f : Ptable → Sys Cpu Ptable} {e' : Option Event}
    (h : (m >>= fun t => .ok (f t, e')) = .ok (s', e)) :
    ∃ t, t.toCore = c' ∧ s' = f t := by
  obtain ⟨t, rfl, -, hc⟩ := hm
  cases h
  exact ⟨t, hc, rfl⟩

omit [DecidableEq Cpu] in
theorem cpu_none {x : Slot} : ¬ (s.cpu c = some x ∧ s.cpu c = none) := by
  rintro ⟨h₁, h₂⟩
  rw [h₁] at h₂
  cases h₂

theorem clocked_sched (h : Good s) (hc : s.cpu c = none) (hs : s.scheduler c = .ok (s', e)) :
    Clocked s (.sched c) s' := by
  obtain ⟨r, t, heq, -, ht⟩ := h.lists.scheduler s.ticks
  unfold Sys.scheduler at hs
  rw [heq] at hs
  cases r with
  | none =>
    cases hs
    refine ⟨rfl, ?_, fun x => ?_⟩
    · rw [ht, Core.promoteAtTime_promoteDue]
    · change Turn s.ticks (if s.cpu c = some x then .dispatched else .idle) _
        (t.toCore.proc x).clock
      rw [hc, if_neg nofun, ht]
      exact .idle (Core.idle_promoteDue _ _ x)
  | some p =>
    obtain ⟨hr, ht⟩ := ht
    cases hs
    refine ⟨rfl, ?_, fun x => ?_⟩
    · rw [ht]
      exact Core.promoteAtTime_promoteDue _ _
    · change Turn s.ticks
        (if Function.update s.cpu c (some p) c = some x then .dispatched else .idle) _
        (t.toCore.proc x).clock
      rw [Function.update_self, ht]
      exact Core.turn_dispatch hr x

theorem turn_wait {t : Ptable} (hd : t.Disciplined) (hst : (t.proc p).state = .running)
    (hc : s.cpu c = some p) (hs : Sys.waitTurn { s with tbl := t } c p = .ok (s', e)) :
    s'.ticks = s.ticks ∧ s'.tbl.promoteAtTime = t.promoteAtTime ∧
      ∀ x, Turn s.ticks (if s.cpu c = some x ∧ s'.cpu c = none then .charged else .idle)
        (t.proc x).clock (s'.tbl.proc x).clock := by
  obtain ⟨r, t', heq, -, hr⟩ := hd.wait s.ticks hst
  unfold Sys.waitTurn at hs
  dsimp only at hs
  rw [heq] at hs
  cases r with
  | reaped z pid =>
    obtain ⟨hz, -, -, ht⟩ := hr
    cases hs
    refine ⟨rfl, ?_, fun x => ?_⟩
    · change t'.promoteAtTime = t.promoteAtTime
      rw [ht]
      rfl
    · change Turn s.ticks (if s.cpu c = some x ∧ s.cpu c = none then _ else _) _
        (t'.toCore.proc x).clock
      rw [if_neg cpu_none, ht]
      exact .idle (Core.idle_reap hz x)
  | failed =>
    obtain ⟨-, ht, -⟩ := hr
    cases hs
    refine ⟨rfl, ?_, fun x => ?_⟩
    · exact congrArg Core.promoteAtTime ht
    · change Turn s.ticks (if s.cpu c = some x ∧ s.cpu c = none then _ else _) _
        (t'.toCore.proc x).clock
      rw [if_neg cpu_none, ht]
      exact .idle (.refl _)
  | sleeps =>
    obtain ⟨-, -, -, ht⟩ := hr
    cases hs
    refine ⟨rfl, ?_, fun x => ?_⟩
    · change t'.promoteAtTime = t.promoteAtTime
      rw [ht]
      rfl
    · have hturn := Core.turn_sleep (.proc p) s.ticks hst x
      change Turn s.ticks
        (if s.cpu c = some x ∧ Function.update s.cpu c none c = none then _ else _) _
        (t'.toCore.proc x).clock
      rw [Function.update_self, hc, ht]
      simpa only [and_true] using hturn

theorem clocked_resume (h : Good s) (hc : s.cpu c = some p)
    (hs : s.resume c p = .ok (s', e)) : Clocked s (.resume c) s' := by
  have hst := h.state_running hc
  have hclear : ∀ x, ((s.tbl.modify p fun x => { x with chan := none }).proc x).clock =
      (s.tbl.proc x).clock := by
    intro x
    by_cases hx : x = p
    · subst hx
      rw [Ptable.modify_toCore, Core.modify_self]
      rfl
    · rw [Ptable.modify_toCore, Core.modify_of_ne _ _ _ hx]
  -- a step that keeps the CPU and every clock
  have hplain : ∀ {s'' : Sys Cpu Ptable}, s''.ticks = s.ticks →
      s''.tbl.promoteAtTime = s.tbl.promoteAtTime → s''.cpu = s.cpu →
      (∀ x, (s''.tbl.proc x).clock = (s.tbl.proc x).clock) → Clocked s (.resume c) s'' := by
    intro s'' hticks hdl hcpu hclock
    refine ⟨hticks, hdl, fun x => ?_⟩
    change Turn s.ticks (if s.cpu c = some x ∧ s''.cpu c = none then _ else _) _ _
    rw [hcpu, if_neg cpu_none, hclock]
    exact .idle (.refl _)
  unfold Sys.resume at hs
  cases hk : s.ctx p with
  | sleep | asleep site =>
    rw [hk] at hs
    cases hs
    exact hplain rfl rfl rfl hclear
  | wait =>
    rw [hk] at hs
    have hst' : ((s.tbl.modify p fun x => { x with chan := none }).proc p).state = .running :=
      (congrArg Clock.state (hclear p)).trans hst
    obtain ⟨hticks, hdl, hturn⟩ := turn_wait h.clearChan.1 hst' hc hs
    refine ⟨hticks, hdl, fun x => ?_⟩
    rw [← hclear x]
    exact hturn x
  | exited =>
    rw [hk] at hs
    cases hs
  | _ =>
    rw [hk] at hs
    cases hs
    exact hplain rfl rfl rfl fun _ => rfl

theorem clocked_setpriority (h : Good s) {pid : Word} {priority : Int}
    (hs : (do
      let (_, t) ← s.tbl.setpriority pid priority
      .ok ({ s with tbl := t }, none)) = Except.ok (s', e)) :
    Clocked s (.setpriority c pid priority) s' := by
  obtain ⟨q, hr, hq⟩ := h.lists
  obtain ⟨t, heq, hr'⟩ := hr.setpriority hq pid priority
  rw [heq] at hs
  cases hs
  -- a process is left alone, or it has the pid and is set
  have hset : t.promoteAtTime = s.tbl.promoteAtTime ∧ ∀ x, t.proc x = s.tbl.proc x ∨
      (s.tbl.proc x).pid = pid ∧
        t.proc x = { s.tbl.proc x with prio := priority, budget := BUDGET } := by
    rcases hq.setpriority_cases pid priority with
      ⟨-, -, -, -, -, p, hp, hcore, -⟩ | ⟨hminus, -⟩
    · have hc : t.toCore = s.tbl.toCore.setpriority p priority := by
        rwa [hr'.core, hr.core]
      refine ⟨by rw [hc]; rfl, fun x => ?_⟩
      rw [hc]
      unfold Core.setpriority
      by_cases hx : x = p
      · subst hx
        rw [Core.modify_self, hr.proc]
        exact Or.inr ⟨hp.2, rfl⟩
      · exact Or.inl (Core.modify_of_ne _ _ _ hx)
    · rw [hminus] at heq
      obtain rfl := Ptable.setpriority_fails heq
      exact ⟨rfl, fun x => Or.inl rfl⟩
  refine ⟨rfl, hset.1, fun x => ?_⟩
  change Turn s.ticks (if (s.tbl.proc x).pid = pid ∧
    t.proc x = { s.tbl.proc x with prio := priority, budget := BUDGET } then .reset else .idle)
    _ (t.proc x).clock
  split
  · next hx =>
    rw [hx.2]
    exact .reset priority
  · next hx =>
    rw [(hset.2 x).resolve_right hx]
    exact .idle (.refl _)

/-- A turn from one array to another is a step of the machine between tables with those
arrays. -/
theorem clocked_of_core {c' : Core} (ht : s'.tbl.toCore = c')
    (hticks : s'.ticks = match a with
      | .tick => s.ticks + 1
      | _ => s.ticks)
    (hdl : c'.promoteAtTime = match a with
      | .sched _ =>
        if s.tbl.promoteAtTime ≤ s.ticks then s.ticks + TICKS_TO_PROMOTE
        else s.tbl.promoteAtTime
      | _ => s.tbl.promoteAtTime)
    (hturn : ∀ x, Turn s.ticks (s.entry s' a x) (s.tbl.proc x).clock (c'.proc x).clock) :
    Clocked s a s' := by
  subst ht
  exact ⟨hticks, hdl, hturn⟩

omit [DecidableEq Cpu] in
theorem turn_on {ticks : Word} {e : Entry} {d d' : Core} (hc : s.cpu c = some p)
    (h : Core.Turns ticks e p d d') (x : Slot) :
    Turn ticks (if s.cpu c = some x then e else .idle) (d.proc x).clock (d'.proc x).clock :=
  hc ▸ h x

theorem clocked_exit (h : Good s) (hc : s.cpu c = some p) (hs : s.exit c p = .ok (s', e)) :
    Clocked s (.exit c) s' := by
  have hst := h.state_running hc
  by_cases hi : s.tbl.initproc = some p
  · unfold Sys.exit Ptable.exit at hs
    rw [if_pos hi] at hs
    cases hs
  · obtain ⟨t, ht, rfl⟩ := of_ends (h.lists.exit s.ticks hst hi) hs
    exact clocked_of_core ht rfl (Core.promoteAtTime_exit _ p s.ticks)
      (turn_on hc (Core.turn_exit s.ticks hst))

theorem clocked (h : Good s) (hs : s.step a = some (.ok (s', e))) : Clocked s a s' := by
  generalize hr : Except.ok (s', e) = r at hs
  cases Sys.step_takes hs with
  | sched hl hc => exact h.clocked_sched hc hr.symm
  | resume hc hl => exact h.clocked_resume hc hr.symm
  | wakeup hl =>
    obtain ⟨t, ht, rfl⟩ := of_ends (h.lists.wakeup1 _) hr.symm
    exact clocked_of_core ht rfl rfl fun x => .idle (Core.idle_wakeup1 _ _ x)
  | @locked c p _ _ _ hc hl hk hs =>
    have hst := h.state_running hc
    cases hs with
    | yield hi =>
      obtain ⟨t, ht, rfl⟩ := of_ends (h.lists.yield s.ticks hst) hr.symm
      exact clocked_of_core ht rfl rfl (turn_on hc (Core.turn_yield s.ticks hst))
    | sleep | block =>
      obtain ⟨t, ht, rfl⟩ := of_ends (h.lists.sleep _ s.ticks hst) hr.symm
      exact clocked_of_core ht rfl rfl (turn_on hc (Core.turn_sleep _ s.ticks hst))
    | exit => exact h.clocked_exit hc hr.symm
    | wait =>
      obtain ⟨hticks, hdl, hturn⟩ := turn_wait h.lists hst hc hr.symm
      exact ⟨hticks, hdl, hturn⟩
    | kallocFail =>
      have he := h.embryo (congrArg Ctx.child hk)
      obtain ⟨t, ht, rfl⟩ := of_ends (h.lists.allocprocFail he) hr.symm
      exact clocked_of_core ht rfl rfl fun x => .idle (Core.idle_free he rfl x)
    | copyuvmFail =>
      have he := h.embryo (congrArg Ctx.child hk)
      obtain ⟨t, ht, rfl⟩ := of_ends (h.lists.forkFail he) hr.symm
      exact clocked_of_core ht rfl rfl fun x => .idle (Core.idle_free he rfl x)
    | forkEnd =>
      have he := h.embryo (congrArg Ctx.child hk)
      obtain ⟨t, ht, rfl⟩ := of_ends (h.lists.forkReady he (h.prio (Or.inr hk))) hr.symm
      exact clocked_of_core ht rfl rfl fun x => .idle (Core.idle_forkReady he x)
    | fork =>
      obtain ⟨r, t, heq, -, ht⟩ := h.lists.allocproc
      rw [heq] at hr
      cases r with
      | none =>
        cases hr
        exact clocked_of_core ht rfl rfl fun x => .idle (.refl _)
      | some np =>
        cases hr
        exact clocked_of_core ht.2 rfl rfl fun x => .idle (Core.idle_allocproc ht.1 x)
    | wakeReaders =>
      obtain ⟨t, ht, rfl⟩ := of_ends (h.lists.wakeup1 _) hr.symm
      exact clocked_of_core ht rfl rfl fun x => .idle (Core.idle_wakeup1 _ _ x)
    | @kill pid =>
      obtain ⟨r, t, heq, -, ht⟩ := h.lists.kill pid
      rw [heq] at hr
      cases r with
      | none =>
        cases hr
        exact clocked_of_core ht.1 rfl rfl fun x => .idle (.refl _)
      | some q =>
        cases hr
        exact clocked_of_core ht.2.2.2 rfl (Core.promoteAtTime_kill _ _) fun x =>
          .idle (Core.idle_kill _ q x)
    | setpriority => exact h.clocked_setpriority hr.symm
  | @unlocked c p _ _ _ hc hl hk hs =>
    cases hs with
    | @kalloc np kstack =>
      cases hr
      refine clocked_of_core rfl rfl rfl fun x => ?_
      change Turn s.ticks
        (if (s.cpu c).map s.ctx = some (.forkAlloc x) then .opened else .idle) _ _
      rw [hc, Option.map_some, hk]
      exact Core.turn_allocprocInit kstack s.ticks (h.embryo (congrArg Ctx.child hk)) x
    | @copyuvm np pgdir =>
      cases hr
      exact clocked_of_core rfl rfl rfl fun x =>
        .idle (Core.idle_forkCopy s.tbl.toCore _ np pgdir x)
    | trap | image =>
      cases hr
      refine clocked_of_core rfl rfl rfl fun x => .idle ?_
      rw [Ptable.modify_toCore]
      exact Core.idle_modify (.refl _) x
    | enter | test =>
      cases hr
      exact clocked_of_core rfl rfl rfl fun x => .idle (.refl _)
  | tick | pipe | console =>
    cases hr
    exact clocked_of_core rfl rfl rfl fun x => .idle (.refl _)

end Good

/-! ## Processes with an account -/

section Opened

variable {Cpu : Type} [DecidableEq Cpu] {a : Act Cpu} {e : Option Event} {p : Slot}

/-- `allocproc` has filled in the slot: a living process or a zombie, or an embryo that `fork`
goes on with. -/
def Sys.Opened (s : Sys Cpu Ptable) (p : Slot) : Prop :=
  ((s.tbl.proc p).state ≠ .unused ∧ (s.tbl.proc p).state ≠ .embryo) ∨
    ∃ f, s.ctx f = .forkCopy p ∨ s.ctx f = .forkReady p

/-- The process on `c` opens an account for `p`. -/
def Sys.Opens {T : Type} (s : Sys Cpu T) (a : Act Cpu) (p : Slot) : Prop :=
  ∃ c k f, a = .kalloc c (some k) ∧ s.cpu c = some f ∧ s.ctx f = .forkAlloc p

theorem WStep.opened_state {s s' : Sys Cpu World} (h : WInv s) (hs : WStep s a e s')
    (hp : (s'.tbl.life p).state ≠ .unused ∧ (s'.tbl.life p).state ≠ .embryo) :
    ((s.tbl.life p).state ≠ .unused ∧ (s.tbl.life p).state ≠ .embryo) ∨
      ∃ f, s.ctx f = .forkReady p := by
  obtain ⟨hrun, -, -, -, -, -, -, -, -⟩ := h
  revert hp
  cases hs with
  | quiet ha ht hc hx hl => rw [ht]; exact Or.inl
  | wait hc hl hk hw | resumeWait hc hl hk hw =>
    cases hw <;> dsimp only [Sys.setCtx, Sys.leave] <;> grind
  | _ => dsimp only [Sys.setCtx, Sys.leave]; grind

theorem WStep.opened_fork {s s' : Sys Cpu World} (hs : WStep s a e s') {f : Slot}
    (hf : s'.ctx f = .forkCopy p ∨ s'.ctx f = .forkReady p) :
    (s.ctx f = .forkCopy p ∨ s.ctx f = .forkReady p) ∨ s.Opens a p := by
  revert hf
  cases hs with
  | quiet ha ht hc hx hl => rw [hx]; exact Or.inl
  | wait hc hl hk hw | resumeWait hc hl hk hw =>
    cases hw <;> dsimp only [Sys.setCtx, Sys.leave] <;> grind
  | _ => dsimp only [Sys.setCtx, Sys.leave]; grind [Sys.Opens]

theorem Good.opened {s s' : Sys Cpu Ptable} (h : Good s)
    (hs : Trace.Next Sys.next s (a, e) s') (hp : s'.Opened p) :
    s.Opened p ∨ s.entry s' a p = .opened := by
  have hw := (h.next hs).1
  rcases hp with hst | ⟨f, hf⟩
  · rcases hw.opened_state h.inv hst with hst | ⟨f, hf⟩
    · exact Or.inl (Or.inl hst)
    · exact Or.inl (Or.inr ⟨f, Or.inr hf⟩)
  · rcases hw.opened_fork hf with hf | ⟨c, k, q, rfl, hc, hq⟩
    · exact Or.inl (Or.inr ⟨f, hf⟩)
    · refine Or.inr (if_pos ?_)
      rw [show s.cpu c = some q from hc, Option.map_some]
      exact congrArg some hq

end Opened

/-! ## The record -/

structure Ledger where
  /-- The charges of `yield` and `sleep` since the budget was last reset. -/
  charges : List Nat
  /-- `ticks` at the last dispatch. -/
  since : Nat
  /-- `ticks` at the dispatch and at the `sched` of each completed dispatch. -/
  slices : List (Nat × Nat)

namespace Ledger

def new : Ledger where
  charges := []
  since := 0
  slices := []

def enter (ticks : Word) (k : Clock) (b : Ledger) : Entry → Ledger
  | .idle => b
  | .dispatched => { b with since := ticks.toNat }
  | .charged =>
    { b with
      charges := if k.Spent ticks then [] else (k.slice ticks).toNat :: b.charges
      slices := (b.since, ticks.toNat) :: b.slices }
  | .exited => { b with slices := (b.since, ticks.toNat) :: b.slices }
  | .opened => .new
  | .reset => { b with charges := [] }

end Ledger

section Booked

variable {Cpu : Type} [DecidableEq Cpu]

def Sys.book (s : Sys Cpu Ptable) (a : Act Cpu) (s' : Sys Cpu Ptable) (b : Slot → Ledger) :
    Slot → Ledger :=
  fun p => (b p).enter s.ticks (s.tbl.proc p).clock (s.entry s' a p)

/-- The runs of the machine whose steps all meet a condition, with the record. -/
abbrev Sys.Booked (C : Sys Cpu Ptable → Act Cpu → Prop) (tr : List (Act Cpu × Option Event))
    (x : Sys Cpu Ptable × (Slot → Ledger)) : Prop :=
  Trace.Run (fun x => Sys.Init x.1 ∧ x.2 = fun _ => Ledger.new)
    (Trace.Only (fun x => C x.1) (Trace.Next (Trace.noting Sys.next Sys.book))) tr x

variable {C : Sys Cpu Ptable → Act Cpu → Prop} {tr : List (Act Cpu × Option Event)}
  {s : Sys Cpu Ptable} {b : Slot → Ledger}

/-- The clock that `allocproc` sets. -/
def Clock.opened (ticks : Word) (state : ProcState) : Clock where
  state := state
  startTicks := ticks
  cpuTicksTotal := 0
  cpuTicksIn := 0
  budget := BUDGET
  prio := 0

omit [DecidableEq Cpu] in
theorem Sys.Init.opened (h : s.Init) {p : Slot} (hp : s.Opened p) :
    (s.tbl.proc p).clock = Clock.opened s.ticks .runnable := by
  obtain ⟨-, kstack, pgdir, hcore⟩ := h.boot
  rcases hp with ⟨hu, -⟩ | ⟨f, hf⟩
  · by_cases h0 : p = 0
    · rw [h0, hcore]
      rfl
    · refine absurd ?_ hu
      rw [hcore]
      simp [Core.boot, h0, Proc.zero]
  · simp only [h.ctx, reduceCtorEq, or_self] at hf

/-- What holds of the account of every process in every booked run: it holds of a new
account, and steps and ticks keep it. -/
theorem Sys.Booked.account {I : Word → Clock → Ledger → Prop}
    (hopen : ∀ ticks state, state ≠ .running → I ticks (.opened ticks state) .new)
    (hturn : ∀ {s a p e k' b}, C s a → e ≠ .opened → I s.ticks (s.tbl.proc p).clock b →
      Turn s.ticks e (s.tbl.proc p).clock k' →
      I s.ticks k' (b.enter s.ticks (s.tbl.proc p).clock e))
    (htick : ∀ {s k b}, C s .tick → I s.ticks k b → I (s.ticks + 1) k b)
    (h : Sys.Booked C tr (s, b)) :
    Good s ∧ ∀ p, s.Opened p → I s.ticks (s.tbl.proc p).clock (b p) := by
  refine Trace.Run.invariant (I := fun x : Sys Cpu Ptable × (Slot → Ledger) =>
    Good x.1 ∧ ∀ p, x.1.Opened p → I x.1.ticks (x.1.tbl.proc p).clock (x.2 p)) ?_ ?_ h
  · rintro ⟨s, b⟩ ⟨hs, rfl⟩
    refine ⟨hs.good.1, fun p hp => ?_⟩
    rw [hs.opened hp]
    exact hopen _ _ nofun
  · rintro ⟨s, b⟩ ⟨a, e⟩ ⟨s', b'⟩ ⟨hg, hI⟩ ⟨hs, hc⟩
    obtain ⟨hnext, hb⟩ := Trace.next_noting hs
    dsimp only at hg hI hc hnext hb ⊢
    subst hb
    have hclocked := hg.clocked (Sys.next_eq_some hnext)
    refine ⟨(hg.next hnext).2, fun p hp => ?_⟩
    -- the step, before the time goes on
    have hstep : I s.ticks (s'.tbl.proc p).clock (s.book a s' b p) := by
      have ht := hclocked.turn p
      by_cases he : s.entry s' a p = .opened
      · unfold Sys.book
        rw [he] at ht ⊢
        generalize (s.tbl.proc p).clock = k at ht
        generalize (s'.tbl.proc p).clock = k' at ht
        cases ht with
        | opened hemb => exact hopen s.ticks k.state (by rw [hemb]; exact nofun)
      · exact hturn hc he (hI p ((hg.opened hnext hp).resolve_right he)) ht
    rw [show s'.ticks = _ from hclocked.ticks]
    cases a with
    | tick => exact htick hc hstep
    | _ => exact hstep

end Booked

end Xv6
