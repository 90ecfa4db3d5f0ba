import Xv6.Proc.Disciplined
import Xv6.Proc.ArrayWorld

/-!
# Waiting for a condition under a lock

`sleep(chan, lk)` and `wakeup(chan)` as their callers use them: a condition that is made true
under `lk`, with a `wakeup` before `lk` is released, and waiters that test it under `lk` and
sleep in a loop. `lk` may be `ptable.lock`, as it is in `wait`; the waker then calls `wakeup1`.
Around them the scheduler runs, and other processes yield, sleep, exit, call `wakeup`, `kill`
and `setpriority`. The condition may become false at any time.
-/

open Function (update update_of_ne update_self)

namespace Xv6

namespace Ptable

/-- `sleep` from `proc->chan = chan` to the call of `sched`. -/
def fallAsleep (t : Ptable) (p : Slot) (chan : Chan) (ticks : Word) : Except Fault Ptable := do
  let t := t.modify p fun x => { x with chan := some chan }
  let t ← t.unlink .running .running "Error removing from running list" p
  let t := t.modify p fun x => charge ticks { x with state := .sleeping }
  .ok (t.addhead .sleep p)

theorem sleep_eq_fallAsleep (t : Ptable) (p : Slot) (chan : Chan) (ticks : Word) :
    t.sleep p chan ticks = t.fallAsleep p chan ticks >>= fun t => t.sched p ticks := by
  unfold sleep fallAsleep
  dsimp only
  cases (t.modify p fun x => { x with chan := some chan }).unlink .running .running
    "Error removing from running list" p <;> rfl

theorem Disciplined.fallAsleep {t t' : Ptable} {p : Slot} {chan : Chan} {ticks : Word}
    (h : t.Disciplined) (hst : (t.proc p).state = .running)
    (hm : t.fallAsleep p chan ticks = .ok t') :
    t'.Disciplined ∧ t'.world = t.world.sleep p chan := by
  obtain ⟨q, hr, hq⟩ := h
  rw [hr.proc] at hst
  have hprio := hq.prioOk p (by simp [hst]) (by simp [hst])
  have hq₀ : (q.modify p fun x => { x with chan := some chan }).WF := hq.modify rfl rfl
  have hst₀ : ((q.modify p fun x => { x with chan := some chan }).proc p).state = .running := by
    simpa using hst
  have hhome := Proc.home_running.mpr hst₀
  obtain ⟨t₁, heq₁, hr₁⟩ :=
    (hr.modify p _).take hq₀ "Error removing from running list" hst₀ hhome
  unfold Ptable.fallAsleep at hm
  dsimp only at hm
  rw [heq₁] at hm
  cases hm
  have hr₂ := (hr₁.modify p fun x => charge ticks { x with state := .sleeping }).addhead
    (hq₀.not_mem_unlink hhome) .sleep
  refine ⟨⟨_, hr₂, ?_⟩, ?_⟩
  · refine hq₀.move_head (p := p) (f := fun x => charge ticks { x with state := .sleeping }) hhome
      (Proc.home_sleep.mpr ?_) fun _ _ => Queues.charge_prio ticks (by simpa using hprio)
    rw [Queues.charge_state]
  · have hsleep := Core.world_sleep (c := q.toCore) (p := p) chan ticks
    unfold Core.sleep at hsleep
    rw [Core.world_sched] at hsleep
    rwa [hr₂.core, hr.core]

end Ptable

namespace Monitor

/-- `ptable.lock`, and a lock of the waiters and wakers. -/
inductive Lock
  | ptable
  | own
deriving DecidableEq

inductive Agent (I : Type)
  | proc (p : Slot)
  | intr (i : I)
deriving DecidableEq

inductive Pc
  | out
  /-- It holds `lk`, and owes a `wakeup` if it has made the condition true. -/
  | holds (owes : Bool)
  /-- In `wakeup`, before `acquire(&ptable.lock)`. -/
  | wakeup
  | waking
  /-- After `wakeup1`, before `release(&ptable.lock)`. -/
  | woke
  /-- In `sleep`, before `acquire(&ptable.lock)`. -/
  | sleep
  /-- Before `release(lk)`. -/
  | handover
  | toSleep
  | toSched
  | asleep
  /-- Back from `sched`, with `ptable.lock`. -/
  | resumed
  /-- Before `acquire(lk)`, at the end of `sleep`. -/
  | relock
  /-- In a `sleep` of other code. -/
  | elsewhere
deriving DecidableEq

inductive Other
  | yield (p : Slot)
  | sleep (p : Slot) (chan : Chan)
  | exit (p : Slot)
  | wakeup (chan : Chan)
  | kill (pid : Word)
  | setpriority (pid : Word) (priority : Int)

structure State (I : Type) where
  tbl : Ptable
  ticks : Word
  cond : Bool
  lock : Lock → Option (Agent I)
  pc : Agent I → Pc

inductive Act (I : Type)
  | acquire (a : Agent I)
  | release (a : Agent I)
  | makeTrue (a : Agent I)
  | makeFalse
  | wakeup (a : Agent I)
  | test (p : Slot)
  | run (a : Agent I)
  | scheduler
  | other (o : Other)
  | tick

namespace State

variable {I : Type} [DecidableEq I]

def goto (s : State I) (a : Agent I) (k : Pc) : State I :=
  { s with pc := update s.pc a k }

def take (s : State I) (l : Lock) (a : Agent I) : State I :=
  { s with lock := update s.lock l (some a) }

def drop (s : State I) (l : Lock) : State I := { s with lock := update s.lock l none }

/-- The agent has a CPU; in `sched` its state is no longer `RUNNING`. -/
def onCpu (s : State I) : Agent I → Bool
  | .proc p => decide ((s.tbl.proc p).state = .running ∨ s.pc (.proc p) = .toSched)
  | .intr _ => true

def set (s : State I) (m : Except Fault Ptable) : Option (State I) :=
  match m with
  | .ok t => some { s with tbl := t }
  | .error _ => none

section Code

variable (lk : Lock) (chan : Chan)

/-- A step inside `wakeup` or `sleep`. -/
def inside (s : State I) (a : Agent I) : Option (State I) :=
  match s.pc a, a with
  | .wakeup, _ =>
    if s.lock .ptable = none then some ((s.take .ptable a).goto a .waking) else none
  | .waking, _ =>
    (s.set (s.tbl.wakeup1 (some chan))).map
      (·.goto a (if lk = .ptable then .holds false else .woke))
  | .woke, _ => some ((s.drop .ptable).goto a (.holds false))
  | .sleep, _ =>
    if s.lock .ptable = none then some ((s.take .ptable a).goto a .handover) else none
  | .handover, _ => some ((s.drop lk).goto a .toSleep)
  | .toSleep, .proc p =>
    (s.set (s.tbl.fallAsleep p chan s.ticks)).map (·.goto (.proc p) .toSched)
  -- the scheduler, to which `sched` switches, releases the lock
  | .toSched, .proc p =>
    (s.set (s.tbl.sched p s.ticks)).map fun s => (s.drop .ptable).goto (.proc p) .asleep
  | .resumed, .proc p =>
    let s := { s with tbl := s.tbl.modify p fun x => { x with chan := none } }
    if lk = .ptable then some (s.goto (.proc p) (.holds false))
    else some ((s.drop .ptable).goto (.proc p) .relock)
  | .relock, _ => if s.lock lk = none then some ((s.take lk a).goto a (.holds false)) else none
  | _, _ => none

/-- A process goes on after the `swtch` of the scheduler. Outside the `sleep` of a waiter
it releases `ptable.lock` at once: at the end of `yield`, in `forkret`, in another
`sleep`. -/
def dispatched (s : State I) (p : Slot) : State I :=
  match s.pc (.proc p) with
  | .asleep => (s.take .ptable (.proc p)).goto (.proc p) .resumed
  | .elsewhere => s.goto (.proc p) .out
  | _ => s

def loose (s : State I) (p : Slot) : Bool :=
  s.onCpu (.proc p) && decide (s.pc (.proc p) = .out)

def other (s : State I) : Other → Option (State I)
  | .yield p =>
    if s.onCpu (.proc p) ∧ (s.pc (.proc p) = .out ∨ s.pc (.proc p) = .relock) then
      s.set (s.tbl.yield p s.ticks)
    else none
  | .sleep p c =>
    if s.loose p then (s.set (s.tbl.sleep p c s.ticks)).map (·.goto (.proc p) .elsewhere)
    else none
  | .exit p => if s.loose p then s.set (s.tbl.exit p s.ticks) else none
  | .wakeup c => s.set (s.tbl.wakeup1 (some c))
  | .kill pid => s.set ((s.tbl.kill pid).map Prod.snd)
  | .setpriority pid priority => s.set ((s.tbl.setpriority pid priority).map Prod.snd)

def next (s : State I) : Act I → Option (State I × Unit)
  | .acquire a =>
    if s.onCpu a ∧ s.pc a = .out ∧ s.lock lk = none then
      some ((s.take lk a).goto a (.holds false), ())
    else none
  | .release a =>
    if s.onCpu a ∧ s.pc a = .holds false then some ((s.drop lk).goto a .out, ()) else none
  | .makeTrue a =>
    match s.pc a with
    | .holds _ => if s.onCpu a then some ({ s with cond := true }.goto a (.holds true), ())
      else none
    | _ => none
  | .makeFalse => some ({ s with cond := false }, ())
  | .wakeup a =>
    match s.pc a with
    | .holds _ =>
      if s.onCpu a then some (s.goto a (if lk = .ptable then .waking else .wakeup), ()) else none
    | _ => none
  | .test p =>
    if s.onCpu (.proc p) ∧ s.pc (.proc p) = .holds false ∧ s.cond = false then
      some (s.goto (.proc p) (if lk = .ptable then .toSleep else .sleep), ())
    else none
  | .run a => if s.onCpu a then (s.inside lk chan a).map (·, ()) else none
  | .scheduler =>
    if s.lock .ptable = none then
      match s.tbl.scheduler s.ticks with
      | .ok (some p, t) => some ({ s with tbl := t }.dispatched p, ())
      | .ok (none, t) => some ({ s with tbl := t }, ())
      | .error _ => none
    else none
  | .other o => if s.lock .ptable = none then (s.other o).map (·, ()) else none
  | .tick => some ({ s with ticks := s.ticks + 1 }, ())

end Code

structure Init (s : State I) : Prop where
  tbl : s.tbl.Disciplined
  lock : ∀ l, s.lock l = none
  pc : ∀ a, s.pc a = .out

end State

/-! ## Who holds which lock -/

def Pc.has (lk l : Lock) : Pc → Bool
  | .holds _ | .wakeup | .sleep => decide (l = lk)
  | .waking | .woke | .handover => decide (l = lk ∨ l = .ptable)
  | .toSleep | .toSched | .resumed => decide (l = .ptable)
  | .out | .asleep | .relock | .elsewhere => false

/-- The places an agent can be at: `ptable.lock` is not taken twice. -/
def Pc.fits (lk : Lock) : Pc → Bool
  | .wakeup | .woke | .sleep | .handover | .relock => decide (lk = .own)
  | _ => true

/-- The agent is going to call `wakeup1` before it releases `lk`. -/
def Pc.owes : Pc → Bool
  | .holds owes => owes
  | .wakeup | .waking => true
  | _ => false

/-- The process is in the `sleep` of a waiter. -/
def Pc.inSleep : Pc → Bool
  | .sleep | .handover | .toSleep | .toSched | .asleep | .resumed | .relock => true
  | _ => false

def Pc.falling : Pc → Bool
  | .sleep | .handover | .toSleep => true
  | _ => false

theorem Pc.has_lk_of_owes {lk : Lock} {k : Pc} (h : k.owes = true) : k.has lk lk = true := by
  cases k <;> simp_all [Pc.owes, Pc.has]

namespace State

variable {I : Type} [DecidableEq I] {lk : Lock} {chan : Chan} {s s' : State I}

/-- A process sleeps on `chan`, by the table. -/
def Sleeps (s : State I) (chan : Chan) (p : Slot) : Prop :=
  (s.tbl.proc p).state = .sleeping ∧ (s.tbl.proc p).chan = some chan

/-- A waiter sleeps on `chan`, or is about to. -/
def Waits (s : State I) (chan : Chan) (p : Slot) : Prop :=
  (s.pc (.proc p)).falling = true ∨ ((s.pc (.proc p)).inSleep = true ∧ s.Sleeps chan p)

structure Inv (lk : Lock) (chan : Chan) (s : State I) : Prop where
  tbl : s.tbl.Disciplined
  lock : ∀ l a, s.lock l = some a ↔ (s.pc a).has lk l = true
  fits : ∀ a, (s.pc a).fits lk = true
  told : s.cond = true → ∀ p, s.Waits chan p → ∃ a, (s.pc a).owes = true

@[simp] theorem goto_pc_self (s : State I) (a : Agent I) (k : Pc) : (s.goto a k).pc a = k := by
  simp [goto]

theorem goto_pc_of_ne (s : State I) {a b : Agent I} (k : Pc) (h : b ≠ a) :
    (s.goto a k).pc b = s.pc b := by
  simp [goto, h]

/-! ## An agent moves -/

inductive Moves (lk : Lock) (s s' : State I) (a : Agent I) (k : Pc) : Prop
  | stays (hlock : s'.lock = s.lock) (hk : ∀ l, k.has lk l = (s.pc a).has lk l)
  | takes (l : Lock) (hfree : s.lock l = none)
      (hlock : s'.lock = update s.lock l (some a))
      (hk : ∀ l', k.has lk l' = (decide (l' = l) || (s.pc a).has lk l'))
  | drops (l : Lock) (hhas : (s.pc a).has lk l = true)
      (hlock : s'.lock = update s.lock l none)
      (hk : ∀ l', k.has lk l' = (!decide (l' = l) && (s.pc a).has lk l'))

section Move

variable {a : Agent I} {k : Pc}

theorem Inv.lock_move (h : Inv lk chan s) (hpc : s'.pc = update s.pc a k)
    (hm : Moves lk s s' a k) (l : Lock) (b : Agent I) :
    s'.lock l = some b ↔ (s'.pc b).has lk l = true := by
  rw [hpc]
  by_cases hba : b = a
  · subst hba
    rw [update_self]
    cases hm with
    | stays hlock hk => rw [hlock, hk, h.lock]
    | takes l' hfree hlock hk | drops l' hhas hlock hk =>
      rw [hlock, hk]
      by_cases hl : l = l'
      · simp [hl]
      · simp [hl, h.lock]
  · rw [update_of_ne hba, ← h.lock]
    cases hm with
    | stays hlock hk => rw [hlock]
    | takes l' hfree hlock hk =>
      rw [hlock]
      by_cases hl : l = l'
      · subst hl
        simp [hfree, Ne.symm hba]
      · rw [update_of_ne hl]
    | drops l' hhas hlock hk =>
      rw [hlock]
      by_cases hl : l = l'
      · subst hl
        simp [(h.lock l a).mpr hhas, Ne.symm hba]
      · rw [update_of_ne hl]

structure Tells (chan : Chan) (s s' : State I) (a : Agent I) (k : Pc) : Prop where
  cond : s'.cond = true → s.cond = true
  owes : (s.pc a).owes = true → k.owes = true
  falling : k.falling = true → (s.pc a).falling = true
  self : ∀ p, a = .proc p → k.inSleep = true → s'.Sleeps chan p → s.Waits chan p
  others : ∀ p, s'.Sleeps chan p → a ≠ .proc p → s.Sleeps chan p

theorem Inv.told_move (h : Inv lk chan s) (hpc : s'.pc = update s.pc a k)
    (ht : Tells chan s s' a k) (hc : s'.cond = true) (p : Slot) (hw : s'.Waits chan p) :
    ∃ b, (s'.pc b).owes = true := by
  have hwaits : s.Waits chan p := by
    unfold Waits at hw
    rw [hpc] at hw
    by_cases hp : a = .proc p
    · subst hp
      rw [update_self] at hw
      rcases hw with hf | ⟨hin, hs⟩
      · exact Or.inl (ht.falling hf)
      · exact ht.self p rfl hin hs
    · rw [update_of_ne (Ne.symm hp)] at hw
      exact hw.imp_right fun hw => ⟨hw.1, ht.others p hw.2 hp⟩
  obtain ⟨b, hb⟩ := h.told (ht.cond hc) p hwaits
  refine ⟨b, ?_⟩
  rw [hpc]
  by_cases hba : b = a
  · subst hba
    rw [update_self]
    exact ht.owes hb
  · rwa [update_of_ne hba]

theorem Inv.move (h : Inv lk chan s) (htbl : s'.tbl.Disciplined)
    (hpc : s'.pc = update s.pc a k) (hm : Moves lk s s' a k) (hfits : k.fits lk = true)
    (htold : s'.cond = true → ∀ p, s'.Waits chan p → ∃ b, (s'.pc b).owes = true) :
    Inv lk chan s' where
  tbl := htbl
  lock := h.lock_move hpc hm
  fits := by
    intro b
    rw [hpc]
    by_cases hba : b = a
    · subst hba
      rwa [update_self]
    · rw [update_of_ne hba]
      exact h.fits b
  told := htold

omit [DecidableEq I] in
theorem Tells.of_tbl (htbl : s'.tbl = s.tbl) (hcond : s'.cond = s.cond)
    (howes : (s.pc a).owes = true → k.owes = true)
    (hfall : k.falling = true → (s.pc a).falling = true)
    (hin : k.inSleep = true → (s.pc a).inSleep = true) : Tells chan s s' a k where
  cond := fun h => hcond ▸ h
  owes := howes
  falling := hfall
  self := by
    rintro p rfl hk hs
    unfold Sleeps at hs
    rw [htbl] at hs
    exact Or.inr ⟨hin hk, hs⟩
  others := by
    intro p hs _
    unfold Sleeps at hs
    rwa [htbl] at hs

end Move

/-! ## The steps keep the invariant -/

section Steps

variable (h : Inv lk chan s)

include h

variable {a : Agent I}

theorem Inv.acquire (hpc : s.pc a = .out ∨ s.pc a = .relock)
    (hfree : s.lock lk = none) : Inv lk chan ((s.take lk a).goto a (.holds false)) := by
  refine h.move h.tbl rfl (.takes lk hfree rfl fun l => ?_) rfl
    (h.told_move rfl (.of_tbl rfl rfl ?_ ?_ ?_))
  · rcases hpc with hpc | hpc <;> simp [Pc.has, hpc]
  all_goals rcases hpc with hpc | hpc <;> simp [Pc.owes, Pc.falling, Pc.inSleep, hpc]

theorem Inv.release (hpc : s.pc a = .holds false) :
    Inv lk chan ((s.drop lk).goto a .out) := by
  refine h.move h.tbl rfl (.drops lk ?_ rfl fun l => ?_) rfl
    (h.told_move rfl (.of_tbl rfl rfl ?_ ?_ ?_))
  · simp [Pc.has, hpc]
  · simp [Pc.has, hpc]
  all_goals simp [Pc.owes, Pc.falling, Pc.inSleep, hpc]

theorem Inv.makeTrue {owes : Bool} (hpc : s.pc a = .holds owes) :
    Inv lk chan ({ s with cond := true }.goto a (.holds true)) := by
  refine h.move h.tbl rfl (.stays rfl fun l => ?_) rfl fun _ _ _ => ⟨a, ?_⟩
  · simp [Pc.has, hpc]
  · simp [Pc.owes]

omit [DecidableEq I] in
theorem Inv.makeFalse : Inv lk chan { s with cond := false } :=
  ⟨h.tbl, h.lock, h.fits, by simp⟩

theorem Inv.wakeup {owes : Bool} (hpc : s.pc a = .holds owes) :
    Inv lk chan (s.goto a (if lk = .ptable then .waking else .wakeup)) := by
  refine h.move h.tbl rfl (.stays rfl fun l => ?_) ?_ fun _ _ _ => ⟨a, ?_⟩
  · by_cases hlk : lk = .ptable <;> simp [Pc.has, hpc, hlk]
  · cases lk <;> simp [Pc.fits]
  · cases lk <;> simp [Pc.owes]

variable {p : Slot}

theorem Inv.test (hpc : s.pc (.proc p) = .holds false) (hc : s.cond = false) :
    Inv lk chan (s.goto (.proc p) (if lk = .ptable then .toSleep else .sleep)) := by
  refine h.move h.tbl rfl (.stays rfl fun l => ?_) ?_ fun htrue => ?_
  · by_cases hlk : lk = .ptable <;> simp [Pc.has, hpc, hlk]
  · cases lk <;> simp [Pc.fits]
  · change s.cond = true at htrue
    rw [hc] at htrue
    cases htrue

/-! ### Inside `wakeup` -/

theorem Inv.enterWakeup (hpc : s.pc a = .wakeup) (hfree : s.lock .ptable = none) :
    Inv lk chan ((s.take .ptable a).goto a .waking) := by
  refine h.move h.tbl rfl (.takes .ptable hfree rfl fun l => ?_) rfl fun _ _ _ => ⟨a, ?_⟩
  · simp [Pc.has, hpc, Bool.decide_or, Bool.or_comm]
  · simp [Pc.owes]

omit [DecidableEq I] in
theorem Inv.not_falling (hpc : s.pc a = .waking) (p : Slot) :
    (s.pc (.proc p)).falling = false := by
  have howner : ∀ l, (s.pc (.proc p)).has lk l = true → (s.pc a).has lk l = true →
      Agent.proc p = a := by
    intro l hp ha
    rw [← h.lock] at hp ha
    exact Option.some_injective _ (hp.symm.trans ha)
  have hlk : (s.pc a).has lk lk = true := by simp [Pc.has, hpc]
  have hpt : (s.pc a).has lk .ptable = true := by simp [Pc.has, hpc]
  cases hk : s.pc (.proc p) with
  | sleep | handover =>
    have heq := howner lk (by simp [Pc.has, hk]) hlk
    rw [heq, hpc] at hk
    cases hk
  | toSleep =>
    have heq := howner .ptable (by simp [Pc.has, hk]) hpt
    rw [heq, hpc] at hk
    cases hk
  | _ => rfl

variable {t : Ptable}

theorem Inv.wakeup1 (hpc : s.pc a = .waking)
    (ht : s.tbl.wakeup1 (some chan) = .ok t) :
    Inv lk chan (({ s with tbl := t } : State I).goto a
      (if lk = .ptable then .holds false else .woke)) := by
  obtain ⟨t', heq, hdisc, hcore⟩ := h.tbl.wakeup1 (some chan)
  cases heq.symm.trans ht
  refine h.move hdisc rfl (.stays rfl fun l => ?_) ?_ fun _ p hw => ?_
  · by_cases hlk : lk = .ptable <;> simp [Pc.has, hpc, hlk]
  · cases lk <;> simp [Pc.fits]
  · exfalso
    have hawake : ¬ ((t.proc p).state = .sleeping ∧ (t.proc p).chan = some chan) := by
      rw [hcore]
      simp only [Core.wakeup1, Core.map_proc, Core.wakeProc_chan]
      rintro ⟨hst, hch⟩
      unfold Core.wakeProc at hst
      split at hst
      · cases hst
      · next hnot => exact hnot ⟨hst, hch⟩
    rcases hw with hf | ⟨-, hs⟩
    · have hnot := h.not_falling hpc p
      by_cases hp : Agent.proc p = a
      · subst hp
        rw [goto_pc_self] at hf
        by_cases hlk : lk = .ptable <;> simp [Pc.falling, hlk] at hf
      · rw [goto_pc_of_ne _ _ hp] at hf
        exact Bool.false_ne_true (hnot.symm.trans hf)
    · exact hawake hs

theorem Inv.leaveWakeup (hpc : s.pc a = .woke) :
    Inv lk chan ((s.drop .ptable).goto a (.holds false)) := by
  have hlk : lk = .own := by simpa [Pc.fits, hpc] using h.fits a
  subst hlk
  refine h.move h.tbl rfl (.drops .ptable ?_ rfl fun l => ?_) rfl
    (h.told_move rfl (.of_tbl rfl rfl ?_ ?_ ?_))
  · simp [Pc.has, hpc]
  · cases l <;> simp [Pc.has, hpc]
  all_goals simp [Pc.owes, Pc.falling, Pc.inSleep, hpc]

/-! ### Inside `sleep` -/

theorem Inv.enterSleep (hpc : s.pc a = .sleep) (hfree : s.lock .ptable = none) :
    Inv lk chan ((s.take .ptable a).goto a .handover) := by
  have hlk : lk = .own := by simpa [Pc.fits, hpc] using h.fits a
  refine h.move h.tbl rfl (.takes .ptable hfree rfl fun l => ?_) ?_
    (h.told_move rfl (.of_tbl rfl rfl ?_ ?_ ?_))
  · simp [Pc.has, hpc, Bool.decide_or, Bool.or_comm]
  · simp [Pc.fits, hlk]
  all_goals simp [Pc.owes, Pc.falling, Pc.inSleep, hpc]

theorem Inv.handover (hpc : s.pc a = .handover) :
    Inv lk chan ((s.drop lk).goto a .toSleep) := by
  have hlk : lk = .own := by simpa [Pc.fits, hpc] using h.fits a
  subst hlk
  refine h.move h.tbl rfl (.drops .own ?_ rfl fun l => ?_) rfl
    (h.told_move rfl (.of_tbl rfl rfl ?_ ?_ ?_))
  · simp [Pc.has, hpc]
  · cases l <;> simp [Pc.has, hpc]
  all_goals simp [Pc.owes, Pc.falling, Pc.inSleep, hpc]

theorem Inv.fallAsleep (hpc : s.pc (.proc p) = .toSleep)
    (hst : (s.tbl.proc p).state = .running) (ht : s.tbl.fallAsleep p chan s.ticks = .ok t) :
    Inv lk chan (({ s with tbl := t } : State I).goto (.proc p) .toSched) := by
  obtain ⟨hdisc, hworld⟩ := h.tbl.fallAsleep hst ht
  refine h.move hdisc rfl (.stays rfl fun l => ?_) rfl
    (h.told_move rfl ⟨id, ?_, ?_, fun q hq _ _ => ?_, fun q hs hq => ?_⟩)
  · simp [Pc.has, hpc]
  · simp [Pc.owes, hpc]
  · simp [Pc.falling]
  · cases hq
    exact Or.inl (by rw [hpc]; rfl)
  · have hne : q ≠ p := fun heq => hq (heq ▸ rfl)
    have hlife : t.world.life q = s.tbl.world.life q := by
      rw [hworld]
      exact World.modify_of_ne _ _ _ hne
    exact ⟨(congrArg Life.state hlife).symm.trans hs.1, (congrArg Life.chan hlife).symm.trans hs.2⟩

theorem Inv.sched (hpc : s.pc (.proc p) = .toSched)
    (ht : s.tbl.sched p s.ticks = .ok t) :
    Inv lk chan ((({ s with tbl := t } : State I).drop .ptable).goto (.proc p) .asleep) := by
  unfold Ptable.sched at ht
  split at ht
  · cases ht
  · cases ht
    have hlife : ∀ q, ((s.tbl.modify p fun x => { x with
        cpuTicksTotal := x.cpuTicksTotal + (s.ticks - x.cpuTicksIn) }).proc q).life =
          (s.tbl.proc q).life :=
      fun q => congrArg (fun w => w.life q) (Core.world_sched (c := s.tbl.toCore) s.ticks)
    refine h.move (h.tbl.modify rfl rfl) rfl (.drops .ptable ?_ rfl fun l => ?_) rfl
      (h.told_move rfl ⟨id, ?_, ?_, fun q hq _ hs => ?_, fun q hs _ => ?_⟩)
    · simp [Pc.has, hpc]
    · cases l <;> simp [Pc.has, hpc]
    · simp [Pc.owes, hpc]
    · simp [Pc.falling]
    · cases hq
      exact Or.inr ⟨by rw [hpc]; rfl, (congrArg Life.state (hlife p)).symm.trans hs.1,
        (congrArg Life.chan (hlife p)).symm.trans hs.2⟩
    · exact ⟨(congrArg Life.state (hlife q)).symm.trans hs.1,
        (congrArg Life.chan (hlife q)).symm.trans hs.2⟩

theorem Inv.resume (hpc : s.pc (.proc p) = .resumed) :
    Inv lk chan (if lk = .ptable then
      ({ s with tbl := s.tbl.modify p fun x => { x with chan := none } } : State I).goto (.proc p)
        (.holds false)
    else (({ s with tbl := s.tbl.modify p fun x => { x with chan := none } } : State I).drop
      .ptable).goto (.proc p) .relock) := by
  have htells : ∀ (k : Pc) (s' : State I), k.falling = false → s'.cond = s.cond →
      (s'.tbl = s.tbl.modify p fun x => { x with chan := none }) →
      Tells chan s s' (.proc p) k := by
    intro k s' hfall hcond htbl
    refine ⟨fun hc => hcond ▸ hc, ?_, ?_, fun q hq _ hs => ?_, fun q hs hq => ?_⟩
    · simp [Pc.owes, hpc]
    · simp [hfall]
    · cases hq
      unfold Sleeps at hs
      rw [htbl] at hs
      simp [Ptable.modify] at hs
    · have hne : q ≠ p := fun heq => hq (heq ▸ rfl)
      unfold Sleeps at hs
      rw [htbl] at hs
      simpa [Sleeps, Ptable.modify, Core.modify_of_ne _ _ _ hne] using hs
  split
  · next hlk =>
    refine h.move (h.tbl.modify rfl rfl) rfl (.stays rfl fun l => ?_) rfl
      (h.told_move rfl (htells _ _ rfl rfl rfl))
    simp [Pc.has, hpc, hlk]
  · next hlk =>
    refine h.move (h.tbl.modify rfl rfl) rfl (.drops .ptable ?_ rfl fun l => ?_) ?_
      (h.told_move rfl (htells _ _ rfl rfl rfl))
    · simp [Pc.has, hpc]
    · simp [Pc.has, hpc]
    · cases lk
      · exact absurd rfl hlk
      · rfl

/-! ### The scheduler and other processes -/

omit [DecidableEq I] in
theorem Inv.setTbl (ht : t.Disciplined)
    (hs : ∀ p, (t.world.life p).state = .sleeping → (t.world.life p).chan = some chan →
      s.Sleeps chan p) : Inv lk chan { s with tbl := t } where
  tbl := ht
  lock := h.lock
  fits := h.fits
  told := fun hc p hw => h.told hc p (hw.imp_right fun hw => ⟨hw.1, hs p hw.2.1 hw.2.2⟩)

theorem Inv.dispatched (hfree : s.lock .ptable = none)
    (ht : t.Disciplined) (hworld : t.world = s.tbl.world.setState p .running) :
    Inv lk chan (({ s with tbl := t } : State I).dispatched p) := by
  have hother : ∀ q, (t.world.life q).state = .sleeping → (t.world.life q).chan = some chan →
      q ≠ p ∧ s.Sleeps chan q := by
    intro q hst hch
    rw [hworld] at hst hch
    unfold World.setState at hst hch
    by_cases hq : q = p
    · subst hq
      simp at hst
    · rw [World.modify_of_ne _ _ _ hq] at hst hch
      exact ⟨hq, hst, hch⟩
  have htbl := h.setTbl ht fun q hst hch => (hother q hst hch).2
  unfold State.dispatched
  split
  · next hpc =>
    change s.pc (.proc p) = .asleep at hpc
    refine h.move ht rfl (.takes .ptable hfree rfl fun l => ?_) rfl
      (h.told_move rfl ⟨id, ?_, ?_, fun q hq _ hs => ?_, fun q hs _ => (hother q hs.1 hs.2).2⟩)
    · simp [Pc.has, hpc]
    · simp [Pc.owes, hpc]
    · simp [Pc.falling]
    · cases hq
      exact absurd rfl (hother p hs.1 hs.2).1
  · next hpc =>
    change s.pc (.proc p) = .elsewhere at hpc
    refine htbl.move ht rfl (.stays rfl fun l => ?_) rfl
      (htbl.told_move rfl (.of_tbl rfl rfl ?_ ?_ ?_))
    · simp [Pc.has, hpc]
    all_goals simp [Pc.owes, Pc.falling, Pc.inSleep, hpc]
  · exact htbl

theorem Inv.scheduler {r : Option Slot} (hfree : s.lock .ptable = none)
    (ht : s.tbl.scheduler s.ticks = .ok (r, t)) :
    Inv lk chan (match r with
      | some p => ({ s with tbl := t } : State I).dispatched p
      | none => { s with tbl := t }) := by
  obtain ⟨r', t', heq, hdisc, hr⟩ := h.tbl.scheduler s.ticks
  cases heq.symm.trans ht
  cases r with
  | some p =>
    refine h.dispatched hfree hdisc ?_
    rw [hr.2, Core.world_dispatch, Core.world_promoteDue]
  | none =>
    refine h.setTbl hdisc fun p hst hch => ?_
    have hworld : t.world = s.tbl.world := by rw [hr, Core.world_promoteDue]
    rw [hworld] at hst hch
    exact ⟨hst, hch⟩

omit [DecidableEq I] in
theorem Inv.wakeupOther {c : Chan} (ht : s.tbl.wakeup1 (some c) = .ok t) :
    Inv lk chan { s with tbl := t } := by
  obtain ⟨t', heq, hdisc, hcore⟩ := h.tbl.wakeup1 (some c)
  cases heq.symm.trans ht
  refine h.setTbl hdisc fun p hst hch => ?_
  rw [hcore, Core.world_wakeup1] at hst hch
  unfold World.wakeup at hst hch
  rw [World.map_life, Life.wake_state] at hst
  rw [World.map_life, Life.wake_chan] at hch
  split at hst
  · cases hst
  · exact ⟨hst, hch⟩

omit [DecidableEq I] in
theorem Inv.kill {r : Option Slot} {pid : Word} (ht : s.tbl.kill pid = .ok (r, t)) :
    Inv lk chan { s with tbl := t } := by
  obtain ⟨r', t', heq, hdisc, hr⟩ := h.tbl.kill pid
  cases heq.symm.trans ht
  refine h.setTbl hdisc fun p hst hch => ?_
  cases r with
  | none =>
    rw [hr.1] at hst hch
    exact ⟨hst, hch⟩
  | some z =>
    rw [hr.2.2.2, Core.world_kill] at hst hch
    rw [World.modify_apply] at hst hch
    split at hst
    · next hz =>
      unfold Life.kill at hst
      dsimp only at hst
      split at hst
      · cases hst
      · next hns => exact absurd hst hns
    · next hz =>
      rw [if_neg hz] at hch
      exact ⟨hst, hch⟩

omit [DecidableEq I] in
theorem Inv.setpriority {r : Int} {pid : Word} {priority : Int}
    (ht : s.tbl.setpriority pid priority = .ok (r, t)) : Inv lk chan { s with tbl := t } := by
  obtain ⟨r', t', heq, hdisc, hr⟩ := h.tbl.setpriority pid priority
  cases heq.symm.trans ht
  have hworld : t.world = s.tbl.world := by
    rcases hr with hr | ⟨p, -, hr⟩
    · rw [hr]
    · rw [hr]
      exact Core.world_modify_self rfl
  refine h.setTbl hdisc fun p hst hch => ?_
  rw [hworld] at hst hch
  exact ⟨hst, hch⟩

omit [DecidableEq I] in
theorem Inv.yield (hst : (s.tbl.proc p).state = .running)
    (ht : s.tbl.yield p s.ticks = .ok t) : Inv lk chan { s with tbl := t } := by
  obtain ⟨t', heq, hdisc, hcore⟩ := h.tbl.yield s.ticks hst
  cases heq.symm.trans ht
  refine h.setTbl hdisc fun q hs hch => ?_
  rw [hcore, Core.world_yield] at hs hch
  unfold World.setState at hs hch
  rw [World.modify_apply] at hs hch
  split at hs
  · cases hs
  · next hq =>
    rw [if_neg hq] at hch
    exact ⟨hs, hch⟩

omit [DecidableEq I] in
theorem Inv.exit (hst : (s.tbl.proc p).state = .running)
    (ht : s.tbl.exit p s.ticks = .ok t) : Inv lk chan { s with tbl := t } := by
  have hinit : s.tbl.initproc ≠ some p := by
    intro hi
    unfold Ptable.exit at ht
    rw [if_pos hi] at ht
    cases ht
  obtain ⟨t', heq, hdisc, hcore⟩ := h.tbl.exit s.ticks hst hinit
  cases heq.symm.trans ht
  refine h.setTbl hdisc fun q hs hch => ?_
  rw [hcore, Core.world_exit] at hs hch
  rw [World.exit_chan] at hch
  rw [World.exit_state] at hs
  split at hs
  · cases hs
  · split at hs
    · cases hs
    · exact ⟨hs, hch⟩

theorem Inv.sleepOther {c : Chan} (hpc : s.pc (.proc p) = .out)
    (hst : (s.tbl.proc p).state = .running) (ht : s.tbl.sleep p c s.ticks = .ok t) :
    Inv lk chan (({ s with tbl := t } : State I).goto (.proc p) .elsewhere) := by
  obtain ⟨t', heq, hdisc, hcore⟩ := h.tbl.sleep c s.ticks hst
  cases heq.symm.trans ht
  refine h.move hdisc rfl (.stays rfl fun l => ?_) rfl
    (h.told_move rfl ⟨id, ?_, ?_, ?_, fun q hs hq => ?_⟩)
  · simp [Pc.has, hpc]
  · simp [Pc.owes, hpc]
  · simp [Pc.falling]
  · simp [Pc.inSleep]
  · have hne : q ≠ p := fun heq => hq (heq ▸ rfl)
    have hlife : t.world.life q = s.tbl.world.life q := by
      rw [hcore, Core.world_sleep]
      exact World.modify_of_ne _ _ _ hne
    exact ⟨(congrArg Life.state hlife).symm.trans hs.1, (congrArg Life.chan hlife).symm.trans hs.2⟩

omit h [DecidableEq I] in
theorem set_eq_some {m : Except Fault Ptable} (hs : s.set m = some s') :
    ∃ t, m = .ok t ∧ s' = { s with tbl := t } := by
  unfold set at hs
  split at hs
  · next t => exact ⟨t, rfl, (Option.some.inj hs).symm⟩
  · cases hs

theorem Inv.inside (hcpu : s.onCpu a = true)
    (hs : s.inside lk chan a = some s') : Inv lk chan s' := by
  unfold State.inside at hs
  split at hs
  · next hpc =>
    split at hs
    · next hfree =>
      cases hs
      exact h.enterWakeup hpc hfree
    · cases hs
  · next hpc =>
    obtain ⟨s₁, hset, rfl⟩ := Option.map_eq_some_iff.mp hs
    obtain ⟨t, ht, rfl⟩ := set_eq_some hset
    exact h.wakeup1 hpc ht
  · next hpc =>
    cases hs
    exact h.leaveWakeup hpc
  · next hpc =>
    split at hs
    · next hfree =>
      cases hs
      exact h.enterSleep hpc hfree
    · cases hs
  · next hpc =>
    cases hs
    exact h.handover hpc
  · next p hpc =>
    obtain ⟨s₁, hset, rfl⟩ := Option.map_eq_some_iff.mp hs
    obtain ⟨t, ht, rfl⟩ := set_eq_some hset
    refine h.fallAsleep hpc ?_ ht
    simpa [onCpu, hpc] using hcpu
  · next p hpc =>
    obtain ⟨s₁, hset, rfl⟩ := Option.map_eq_some_iff.mp hs
    obtain ⟨t, ht, rfl⟩ := set_eq_some hset
    exact h.sched hpc ht
  · next p hpc =>
    have hresume := h.resume hpc
    split at hs
    · next hlk =>
      cases hs
      rwa [if_pos hlk] at hresume
    · next hlk =>
      cases hs
      rwa [if_neg hlk] at hresume
  · next hpc =>
    split at hs
    · next hfree =>
      cases hs
      exact h.acquire (Or.inr hpc) hfree
    · cases hs
  · cases hs

theorem Inv.other {o : Other} (hs : s.other o = some s') : Inv lk chan s' := by
  cases o with
  | yield p =>
    simp only [State.other] at hs
    split at hs
    · next hcond =>
      obtain ⟨t, ht, rfl⟩ := set_eq_some hs
      refine h.yield ?_ ht
      rcases hcond with ⟨hcpu, hpc | hpc⟩ <;> simpa [onCpu, hpc] using hcpu
    · cases hs
  | sleep p c =>
    simp only [State.other] at hs
    split at hs
    · next hloose =>
      obtain ⟨s₁, hset, rfl⟩ := Option.map_eq_some_iff.mp hs
      obtain ⟨t, ht, rfl⟩ := set_eq_some hset
      obtain ⟨hcpu, hpc⟩ : s.onCpu (.proc p) = true ∧ s.pc (.proc p) = .out := by
        simpa [loose] using hloose
      exact h.sleepOther hpc (by simpa [onCpu, hpc] using hcpu) ht
    · cases hs
  | exit p =>
    simp only [State.other] at hs
    split at hs
    · next hloose =>
      obtain ⟨t, ht, rfl⟩ := set_eq_some hs
      obtain ⟨hcpu, hpc⟩ : s.onCpu (.proc p) = true ∧ s.pc (.proc p) = .out := by
        simpa [loose] using hloose
      exact h.exit (by simpa [onCpu, hpc] using hcpu) ht
    · cases hs
  | wakeup c =>
    obtain ⟨t, ht, rfl⟩ := set_eq_some hs
    exact h.wakeupOther ht
  | kill pid =>
    obtain ⟨t, ht, rfl⟩ := set_eq_some hs
    cases hk : s.tbl.kill pid with
    | error f =>
      rw [hk] at ht
      cases ht
    | ok r =>
      rw [hk] at ht
      cases ht
      exact h.kill hk
  | setpriority pid priority =>
    obtain ⟨t, ht, rfl⟩ := set_eq_some hs
    cases hk : s.tbl.setpriority pid priority with
    | error f =>
      rw [hk] at ht
      cases ht
    | ok r =>
      rw [hk] at ht
      cases ht
      exact h.setpriority hk

theorem Inv.next {x : Act I} {e : Unit} (hs : s.next lk chan x = some (s', e)) :
    Inv lk chan s' := by
  cases x with
  | acquire a =>
    simp only [State.next] at hs
    split at hs
    · next hc =>
      cases hs
      exact h.acquire (Or.inl hc.2.1) hc.2.2
    · cases hs
  | release a =>
    simp only [State.next] at hs
    split at hs
    · next hc =>
      cases hs
      exact h.release hc.2
    · cases hs
  | makeTrue a =>
    simp only [State.next] at hs
    split at hs
    · next hpc =>
      split at hs
      · cases hs
        exact h.makeTrue hpc
      · cases hs
    · cases hs
  | makeFalse =>
    cases hs
    exact h.makeFalse
  | wakeup a =>
    simp only [State.next] at hs
    split at hs
    · next hpc =>
      split at hs
      · cases hs
        exact h.wakeup hpc
      · cases hs
    · cases hs
  | test p =>
    simp only [State.next] at hs
    split at hs
    · next hc =>
      cases hs
      exact h.test hc.2.1 hc.2.2
    · cases hs
  | run a =>
    simp only [State.next] at hs
    split at hs
    · next hcpu =>
      obtain ⟨s₁, hin, heq⟩ := Option.map_eq_some_iff.mp hs
      cases heq
      exact h.inside hcpu hin
    · cases hs
  | scheduler =>
    simp only [State.next] at hs
    split at hs
    · next hfree =>
      split at hs
      · next p t ht =>
        cases hs
        exact h.scheduler hfree ht
      · next t ht =>
        cases hs
        exact h.scheduler hfree ht
      · cases hs
    · cases hs
  | other o =>
    simp only [State.next] at hs
    split at hs
    · obtain ⟨s₁, ho, heq⟩ := Option.map_eq_some_iff.mp hs
      cases heq
      exact h.other ho
    · cases hs
  | tick =>
    cases hs
    exact ⟨h.tbl, h.lock, h.fits, h.told⟩

end Steps

omit [DecidableEq I] in
theorem Init.inv (h : Init s) : Inv lk chan s where
  tbl := h.tbl
  lock := by
    intro l a
    rw [h.lock, h.pc]
    simp [Pc.has]
  fits := by
    intro a
    rw [h.pc]
    rfl
  told := by
    intro _ p hw
    unfold Waits at hw
    rw [h.pc] at hw
    simp [Pc.falling, Pc.inSleep] at hw

/-- Runs of waiters and wakers with any number of agents, interleaved in any way. -/
abbrev Run (lk : Lock) (chan : Chan) (tr : List (Act I × Unit)) (s : State I) : Prop :=
  Trace.Run Init (Trace.Next (State.next lk chan)) tr s

theorem Run.inv {tr : List (Act I × Unit)} (h : Run lk chan tr s) : Inv lk chan s :=
  h.invariant (fun _ => Init.inv) fun _ _ _ hi hs => hi.next hs

/-- No wakeup is lost: when the lock is free and the condition true, no waiter sleeps on
the channel. -/
theorem no_lost_wakeup {tr : List (Act I × Unit)} (h : Run lk chan tr s)
    (hfree : s.lock lk = none) (hcond : s.cond = true) (p : Slot)
    (hp : (s.pc (.proc p)).inSleep = true) :
    ¬ ((s.tbl.proc p).state = .sleeping ∧ (s.tbl.proc p).chan = some chan) := by
  intro hs
  obtain ⟨a, howes⟩ := h.inv.told hcond p (Or.inr ⟨hp, hs⟩)
  have hheld := (h.inv.lock lk a).mpr (Pc.has_lk_of_owes howes)
  rw [hfree] at hheld
  cases hheld

/-- The state after `userinit`. -/
def start : State Unit where
  tbl := ((Ptable.userinit 0 0 0).toOption).getD Ptable.zero
  ticks := 0
  cond := false
  lock := fun _ => none
  pc := fun _ => .out

theorem start_init : Init start where
  tbl := by
    obtain ⟨t, q, heq, hr, hq, -⟩ := Ptable.userinit_ok 0 0 0
    unfold start
    rw [heq]
    exact ⟨q, hr, hq⟩
  lock := fun _ => rfl
  pc := fun _ => rfl

/-- An interrupt handler makes the condition true while the waiter is on its way from one
lock to the other. -/
theorem no_lost_wakeup_in_window :
    ∃ (tr : _) (s : State Unit), Run .own .input tr s ∧ s.lock .own = none ∧ s.cond = true ∧
      s.pc (.proc 0) = .asleep ∧
      ¬ ((s.tbl.proc 0).state = .sleeping ∧ (s.tbl.proc 0).chan = some .input) := by
  obtain ⟨tr, s, hrun, hfree, hcond, hpc⟩ := Trace.exec_reaches (f := State.next .own .input)
    start_init [.scheduler, .acquire (.proc 0), .test 0, .run (.proc 0), .run (.proc 0),
      .acquire (.intr ()), .makeTrue (.intr ()), .wakeup (.intr ()), .run (.proc 0),
      .run (.proc 0), .run (.intr ()), .run (.intr ()), .run (.intr ()), .release (.intr ())]
    (fun _ s => s.lock .own = none ∧ s.cond = true ∧ s.pc (.proc 0) = .asleep)
    (by decide +kernel)
  exact ⟨tr, s, hrun, hfree, hcond, hpc, no_lost_wakeup hrun hfree hcond 0 (by rw [hpc]; rfl)⟩

end State

end Monitor

end Xv6
