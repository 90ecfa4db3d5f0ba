import Xv6.Proc.Clocks
import Xv6.Proc.Sleepers

/-!
# `sys_sleep`

`sys_sleep` tests `ticks - ticks0 < n`, as unsigned numbers, and calls `sleep(&ticks, 0)`
without a lock that the timer interrupt would have to take: a tick and its wakeup that come
between the two are lost. Beside the machine runs a clock that does not wrap and the state of
the timer interrupt.
-/

namespace Xv6

variable {Cpu : Type} [DecidableEq Cpu]

structure Timer where
  /-- The time, by a clock that does not wrap. -/
  now : Nat
  /-- The interrupt has incremented `ticks` and has not finished `wakeup`. -/
  pending : Bool
  /-- When `sys_sleep` read `ticks0`, for each process. -/
  since : Slot → Nat

namespace Timer

def start (s : Sys Cpu Ptable) : Timer where
  now := s.ticks.toNat
  pending := false
  since := fun _ => 0

def Init (x : Sys Cpu Ptable × Timer) : Prop := x.1.Init ∧ x.2 = .start x.1

def record (s : Sys Cpu Ptable) (a : Act Cpu) (_ : Sys Cpu Ptable) (x : Timer) : Timer :=
  match a with
  | .tick => { x with now := x.now + 1, pending := true }
  | .wakeup .ticks => { x with pending := false }
  | .enter c (.sysSleep _ _) =>
    match s.cpu c with
    | some p => { x with since := Function.update x.since p x.now }
    | none => x
  | _ => x

/-- Every increment of `ticks` is followed by one `wakeup(&ticks)`. -/
def Obeys (x : Sys Cpu Ptable × Timer) : Act Cpu → Prop
  | .tick => x.2.pending = false
  | .wakeup .ticks => x.2.pending = true
  | _ => True

instance (x : Sys Cpu Ptable × Timer) (a : Act Cpu) : Decidable (Obeys x a) := by
  induction a using Act.casesOn with
  | tick => exact inferInstanceAs (Decidable (_ = _))
  | wakeup chan =>
    cases chan with
    | ticks => exact inferInstanceAs (Decidable (_ = _))
    | _ => exact isTrue trivial
  | _ => exact isTrue trivial

/-- `sys_sleep` is called with a number that is not negative, and when it falls asleep its
time has not come or the wakeup is still to come. -/
def InTime (x : Sys Cpu Ptable × Timer) : Act Cpu → Prop
  | .enter _ (.sysSleep _ n) => 0 ≤ n.toInt
  | .block c =>
    match (x.1.cpu c).map fun p => (p, x.1.ctx p) with
    | some (p, .tested (.sysSleep _ n)) =>
      x.2.pending = true ∨ x.2.now - x.2.since p < n.toNat
    | _ => True
  | _ => True

instance (x : Sys Cpu Ptable × Timer) (a : Act Cpu) : Decidable (InTime x a) := by
  induction a using Act.casesOn with
  | enter c call =>
    cases call with
    | sysSleep ticks0 n => exact Int.decLe _ _
    | _ => exact isTrue trivial
  | block c =>
    unfold InTime
    dsimp only
    generalize (x.1.cpu c).map (fun p => (p, x.1.ctx p)) = r
    rcases r with _ | ⟨p, ctx⟩
    · exact isTrue trivial
    · cases ctx with
      | tested call =>
        cases call with
        | sysSleep ticks0 n => exact inferInstanceAs (Decidable (_ ∨ _))
        | _ => exact isTrue trivial
      | _ => exact isTrue trivial
  | _ => exact isTrue trivial

end Timer

/-! ## The steps of the loop -/

/-- `ticks0` and `n`, in the loop of `sys_sleep`. -/
def Site.sysSleepArgs : Site → Option (Word × Word)
  | .sysSleep ticks0 n => some (ticks0, n)
  | _ => none

theorem Site.eq_sysSleep {site : Site} {t : Word × Word} (h : site.sysSleepArgs = some t) :
    site = .sysSleep t.1 t.2 := by
  cases site with
  | sysSleep ticks0 n =>
    cases h
    rfl
  | _ => cases h

/-- `ticks0` and `n` of a process in `sys_sleep`. -/
def Ctx.sysSleep : Ctx → Option (Word × Word)
  | .loop site | .tested site | .asleep site => site.sysSleepArgs
  | _ => none

section Steps

variable {s s' : Sys Cpu World} {a : Act Cpu} {e : Option Event} {p : Slot}

theorem WStep.sysSleep (hs : WStep s a e s') {t : Word × Word} (hp : (s'.ctx p).sysSleep = some t) :
    (s.ctx p).sysSleep = some t ∨
      ∃ c, a = .enter c (.sysSleep t.1 t.2) ∧ s.cpu c = some p ∧ s.ctx p = .run := by
  revert hp
  cases hs with
  | quiet ha ht hc hx hl => rw [hx]; exact Or.inl
  | wait hc hl hk hw | resumeWait hc hl hk hw =>
    cases hw <;> dsimp only [Sys.setCtx, Sys.leave] <;> grind [Ctx.sysSleep]
  | _ => dsimp only [Sys.setCtx, Sys.leave]; grind [Ctx.sysSleep, Site.eq_sysSleep]

theorem WStep.blocked (hs : WStep s a e s') {site : Site} (hp : s.ctx p = .tested site)
    (hp' : s'.ctx p = .asleep site) : ∃ c, a = .block c ∧ s.cpu c = some p := by
  revert hp'
  cases hs with
  | quiet ha ht hc hx hl => rw [hx, hp]; exact nofun
  | wait hc hl hk hw | resumeWait hc hl hk hw =>
    cases hw <;> dsimp only [Sys.setCtx, Sys.leave] <;> grind
  | _ => dsimp only [Sys.setCtx, Sys.leave]; grind

theorem WStep.wakes {chan : Chan} (hs : WStep s (.wakeup chan) e s')
    (hst : (s'.tbl.life p).state = .sleeping) : (s.tbl.life p).chan ≠ some chan := by
  cases hs with
  | quiet ha ht hc hx hl => exact absurd ha nofun
  | wakeup hl => grind

end Steps

theorem Sys.enter_eq_some {s s' : Sys Cpu Ptable} {c : Cpu} {site : Site} {e : Option Event}
    (hs : s.step (.enter c site) = some (.ok (s', e))) :
    ∃ p, s.cpu c = some p ∧ s.ctx p = .run ∧ site.enters s.ticks = true := by
  generalize Except.ok (s', e) = r at hs
  cases Sys.step_takes hs with
  | locked _ _ _ hs => cases hs
  | unlocked hc _ hk hs =>
    cases hs with
    | enter hen => exact ⟨_, hc, hk, hen⟩

/-! ## The invariant -/

/-- What is known of the timer and of the processes in `sys_sleep`. -/
structure Timer.Kept (s : Sys Cpu Ptable) (x : Timer) : Prop where
  ticks : s.ticks = BitVec.ofNat 32 x.now
  call : ∀ {p t}, (s.ctx p).sysSleep = some t →
    t.1 = BitVec.ofNat 32 (x.since p) ∧ x.since p ≤ x.now ∧ 0 ≤ t.2.toInt
  asleep : ∀ {p ticks0 n}, (s.tbl.proc p).state = .sleeping →
    s.ctx p = .asleep (.sysSleep ticks0 n) →
    (s.tbl.proc p).chan = some .ticks ∧ (x.pending = true ∨ x.now - x.since p < n.toNat)

namespace Timer

section Record

variable {s s' : Sys Cpu Ptable} {a : Act Cpu} {e : Option Event} {p : Slot}

omit [DecidableEq Cpu] in
theorem record_now (s s' : Sys Cpu Ptable) (a : Act Cpu) (x : Timer) :
    (record s a s' x).now = match a with
      | .tick => x.now + 1
      | _ => x.now := by
  unfold record
  split
  · rfl
  · rfl
  · split <;> rfl
  · next htick _ _ =>
    split
    · exact absurd rfl htick
    · rfl

omit [DecidableEq Cpu] in
theorem le_record_now (s s' : Sys Cpu Ptable) (a : Act Cpu) (x : Timer) :
    x.now ≤ (record s a s' x).now := by
  rw [record_now]
  split <;> omega

theorem record_since (x : Timer) (hs : s.step a = some (.ok (s', e))) (hp : s.ctx p ≠ .run) :
    (record s a s' x).since p = x.since p := by
  unfold record
  split
  · rfl
  · rfl
  · next c ticks0 n =>
    obtain ⟨q, hc, hq, -⟩ := Sys.enter_eq_some hs
    rw [hc]
    refine Function.update_of_ne ?_ _ _
    rintro rfl
    exact hp hq
  · rfl

omit [DecidableEq Cpu] in
theorem record_pending (s s' : Sys Cpu Ptable) (a : Act Cpu) (x : Timer)
    (ha : a ≠ .wakeup .ticks) :
    (record s a s' x).pending = true ∨
      ((record s a s' x).pending = x.pending ∧ (record s a s' x).now = x.now) := by
  unfold record
  split
  · exact Or.inl rfl
  · exact absurd rfl ha
  · split <;> exact Or.inr ⟨rfl, rfl⟩
  · exact Or.inr ⟨rfl, rfl⟩

end Record

namespace Kept

variable {s s' : Sys Cpu Ptable} {a : Act Cpu} {e : Option Event} {x : Timer}

omit [DecidableEq Cpu] in
theorem start (h : s.Init) : Timer.Kept s (.start s) where
  ticks := by simp [Timer.start]
  call hp := by
    rw [h.ctx] at hp
    cases hp
  asleep _ hp := by
    rw [h.ctx] at hp
    cases hp

section Step

variable (hk : Timer.Kept s x) (hg : Good s) (hs : Trace.Next Sys.next s (a, e) s')

include hk hg hs

theorem step_ticks : s'.ticks = BitVec.ofNat 32 (record s a s' x).now := by
  have hticks := (hg.clocked (Sys.next_eq_some hs)).ticks
  rw [record_now, hticks, hk.ticks]
  cases a with
  | tick => exact (BitVec.ofNat_add _ _).symm
  | _ => rfl

theorem step_call (hin : InTime (s, x) a) {p : Slot} {t : Word × Word}
    (hp : (s'.ctx p).sysSleep = some t) :
    t.1 = BitVec.ofNat 32 ((record s a s' x).since p) ∧
      (record s a s' x).since p ≤ (record s a s' x).now ∧ 0 ≤ t.2.toInt := by
  rcases (hg.next hs).1.sysSleep hp with hold | ⟨c, rfl, hc, -⟩
  · obtain ⟨h₁, h₂, h₃⟩ := hk.call hold
    have hrun : s.ctx p ≠ .run := by
      intro hr
      rw [show s.world.ctx p = .run from hr] at hold
      cases hold
    rw [record_since x (Sys.next_eq_some hs) hrun]
    exact ⟨h₁, h₂.trans (le_record_now s s' a x), h₃⟩
  · obtain ⟨-, -, -, hen⟩ := Sys.enter_eq_some (Sys.next_eq_some hs)
    have hrec : record s (.enter c (.sysSleep t.1 t.2)) s' x =
        { x with since := Function.update x.since p x.now } := by
      unfold record
      dsimp only
      rw [show s.cpu c = some p from hc]
    rw [hrec]
    dsimp only
    rw [Function.update_self]
    refine ⟨?_, Nat.le_refl _, hin⟩
    rw [← hk.ticks]
    exact of_decide_eq_true hen

theorem step_asleep (hin : InTime (s, x) a) {p : Slot} {ticks0 n : Word}
    (hst : (s'.tbl.proc p).state = .sleeping) (hp : s'.ctx p = .asleep (.sysSleep ticks0 n)) :
    (s'.tbl.proc p).chan = some .ticks ∧ ((record s a s' x).pending = true ∨
      (record s a s' x).now - (record s a s' x).since p < n.toNat) := by
  have hw := (hg.next hs).1
  have hstep := Sys.next_eq_some hs
  rcases hw.sleeping hg.inv hst with ⟨hst₀, hctx, hchan, -⟩ | ⟨chan, hctx, -⟩ |
    ⟨site, htested, hctx, hchan, -⟩ | ⟨hctx, -⟩
  · -- the process slept on, so the step is not the wakeup
    have hp₀ : s.ctx p = .asleep (.sysSleep ticks0 n) := hctx.symm.trans hp
    obtain ⟨hch, hold⟩ := hk.asleep hst₀ hp₀
    have ha : a ≠ .wakeup .ticks := by
      rintro rfl
      exact hw.wakes hst hch
    refine ⟨hchan.trans hch, ?_⟩
    rcases record_pending s s' a x ha with hpend | ⟨hpend, hnow⟩
    · exact Or.inl hpend
    · rwa [hpend, hnow, record_since x hstep (by rw [hp₀]; exact nofun)]
  · rw [show s'.ctx p = .sleep from hctx] at hp
    cases hp
  · rw [show s'.ctx p = .asleep site from hctx] at hp
    cases hp
    obtain ⟨c, rfl, hc⟩ := hw.blocked htested hctx
    refine ⟨hchan, ?_⟩
    have hcond : InTime (s, x) (.block c) := hin
    unfold InTime at hcond
    dsimp only at hcond
    rw [show s.cpu c = some p from hc, Option.map_some,
      show s.ctx p = .tested (.sysSleep ticks0 n) from htested] at hcond
    exact hcond
  · rw [show s'.ctx p = .wait from hctx] at hp
    cases hp

end Step

theorem step (hk : Timer.Kept s x) (hg : Good s) (hs : Trace.Next Sys.next s (a, e) s')
    (hin : InTime (s, x) a) : Timer.Kept s' (record s a s' x) where
  ticks := hk.step_ticks hg hs
  call := hk.step_call hg hs hin
  asleep := hk.step_asleep hg hs hin

end Kept

end Timer

/-! ## Sleeping for `n` ticks -/

section Runs

variable {tr : List (Act Cpu × Option Event)} {s : Sys Cpu Ptable} {x : Timer}

theorem Timer.kept_of_run
    (h : Trace.Run Timer.Init (Trace.Only (fun x a => Timer.Obeys x a ∧ Timer.InTime x a)
      (Trace.Next (Trace.noting Sys.next Timer.record))) tr (s, x)) : x.Kept s := by
  have hall : Good s ∧ x.Kept s := by
    refine Trace.Run.invariant (I := fun x : Sys Cpu Ptable × Timer => Good x.1 ∧ x.2.Kept x.1)
      ?_ ?_ h
    · rintro ⟨s, x⟩ ⟨hs, hx⟩
      dsimp only at hs hx ⊢
      subst hx
      exact ⟨hs.good.1, .start hs⟩
    · rintro ⟨s, x⟩ ⟨a, e⟩ ⟨s', x'⟩ ⟨hg, hk⟩ ⟨hs, -, hin⟩
      obtain ⟨hnext, hx⟩ := Trace.next_noting hs
      dsimp only at hg hk hin hnext hx ⊢
      subst hx
      exact ⟨(hg.next hnext).2, hk.step hg hnext hin⟩
  exact hall.2

omit [DecidableEq Cpu] in
theorem Timer.Kept.elapsed (hk : x.Kept s) {p : Slot} {t : Word × Word}
    (hp : (s.ctx p).sysSleep = some t) :
    (s.ticks - t.1).toNat = (x.now - x.since p) % 2 ^ 32 := by
  obtain ⟨h₁, h₂, -⟩ := hk.call hp
  rw [h₁, hk.ticks, BitVec.toNat_sub, BitVec.toNat_ofNat, BitVec.toNat_ofNat]
  omega

/-- If `sys_sleep` is called with numbers that are not negative and no tick is lost between
its test and its `sleep`, the loop ends only when `n` ticks have passed, it ends at once if
`n` is 0, and no process sleeps on when `n` ticks have passed and the timer interrupt has
woken up its sleepers. -/
theorem sys_sleep_wakes_on_time
    (h : Trace.Run Timer.Init (Trace.Only (fun x a => Timer.Obeys x a ∧ Timer.InTime x a)
      (Trace.Next (Trace.noting Sys.next Timer.record))) tr (s, x)) :
    (∀ p ticks0 n, s.ctx p = .loop (.sysSleep ticks0 n) →
      (s.blocks (.sysSleep ticks0 n) = false → n.toInt ≤ ((x.now - x.since p : Nat) : Int)) ∧
      (n.toInt ≤ 0 → s.blocks (.sysSleep ticks0 n) = false)) ∧
    (x.pending = false → ∀ p ticks0 n, (s.tbl.proc p).state = .sleeping →
      s.ctx p = .asleep (.sysSleep ticks0 n) →
      (s.tbl.proc p).chan = some .ticks ∧ ((x.now - x.since p : Nat) : Int) < n.toInt) := by
  have hk := Timer.kept_of_run h
  refine ⟨fun p ticks0 n hp => ?_, fun hpend p ticks0 n hst hp => ?_⟩
  · have hcall : (s.ctx p).sysSleep = some (ticks0, n) := by
      rw [hp]
      rfl
    have hel := hk.elapsed hcall
    obtain ⟨-, -, hn⟩ := hk.call hcall
    have hint := BitVec.toInt_eq_toNat_cond n
    have hlt := n.isLt
    dsimp only at hel hn
    refine ⟨fun hb => ?_, fun hle => ?_⟩
    · have hge : ¬ s.ticks - ticks0 < n := of_decide_eq_false hb
      rw [BitVec.lt_def] at hge
      split at hint <;> omega
    · refine decide_eq_false ?_
      rw [BitVec.lt_def]
      split at hint <;> omega
  · have hcall : (s.ctx p).sysSleep = some (ticks0, n) := by
      rw [hp]
      rfl
    obtain ⟨-, -, hn⟩ := hk.call hcall
    obtain ⟨hchan, hor⟩ := hk.asleep hst hp
    refine ⟨hchan, ?_⟩
    have hint := BitVec.toInt_eq_toNat_cond n
    have hlt : x.now - x.since p < n.toNat := by
      rcases hor with hp' | hlt
      · rw [hpend] at hp'
        cases hp'
      · exact hlt
    have hn' := n.isLt
    dsimp only at hn
    split at hint <;> omega

end Runs

theorem Timer.start_init : Timer.Init (Sys.start, Timer.start Sys.start) :=
  ⟨Sys.start_init, rfl⟩

/-- Init sleeps for two ticks and has just fallen asleep. -/
theorem sys_sleep_two_ticks :
    ∃ (tr : _) (s : Sys Bool Ptable) (x : Timer),
      Trace.Run Timer.Init (Trace.Only (fun x a => Timer.Obeys x a ∧ Timer.InTime x a)
        (Trace.Next (Trace.noting Sys.next Timer.record))) tr (s, x) ∧
      (s.tbl.proc 0).state = .sleeping ∧ ((x.now - x.since 0 : Nat) : Int) < 2 := by
  obtain ⟨tr, ⟨s, x⟩, hrun, hpend, hst, hctx⟩ := Trace.exec_reaches_only
    (f := Trace.noting Sys.next Timer.record) Timer.start_init
    (fun x a => Timer.Obeys x a ∧ Timer.InTime x a)
    [.sched false, .resume false, .enter false (.sysSleep 0 2), .test false, .tick,
      .wakeup .ticks, .block false]
    (fun _ x => x.2.pending = false ∧ (x.1.tbl.proc 0).state = .sleeping ∧
      x.1.ctx 0 = .asleep (.sysSleep 0 2))
    (by decide +kernel)
  exact ⟨tr, s, x, hrun, hst, ((sys_sleep_wakes_on_time hrun).2 hpend 0 0 2 hst hctx).2⟩

/-- `sleep(-1)` does not return at once. A tick and its wakeup between the test and the
`sleep` of `sleep(1)` leave the process asleep although the tick has passed. -/
theorem sys_sleep_misses_tick :
    (∃ (tr : _) (s : Sys Bool Ptable) (x : Timer),
      Trace.Run Timer.Init (Trace.Only Timer.Obeys
        (Trace.Next (Trace.noting Sys.next Timer.record))) tr (s, x) ∧
      s.ctx 0 = .tested (.sysSleep 0 (-1))) ∧
    ∃ (tr : _) (s : Sys Bool Ptable) (x : Timer),
      Trace.Run Timer.Init (Trace.Only Timer.Obeys
        (Trace.Next (Trace.noting Sys.next Timer.record))) tr (s, x) ∧
      x.pending = false ∧ (s.tbl.proc 0).state = .sleeping ∧
      (s.tbl.proc 0).chan = some .ticks ∧ s.ctx 0 = .asleep (.sysSleep 0 1) ∧
      x.now - x.since 0 = 1 := by
  refine ⟨?_, ?_⟩
  · obtain ⟨tr, ⟨s, x⟩, hrun, hP⟩ := Trace.exec_reaches_only
      (f := Trace.noting Sys.next Timer.record) Timer.start_init Timer.Obeys
      [.sched false, .resume false, .enter false (.sysSleep 0 (-1)), .test false]
      (fun _ x => x.1.ctx 0 = .tested (.sysSleep 0 (-1))) (by decide +kernel)
    exact ⟨tr, s, x, hrun, hP⟩
  · obtain ⟨tr, ⟨s, x⟩, hrun, hP⟩ := Trace.exec_reaches_only
      (f := Trace.noting Sys.next Timer.record) Timer.start_init Timer.Obeys
      [.sched false, .resume false, .enter false (.sysSleep 0 1), .test false, .tick,
        .wakeup .ticks, .block false]
      (fun _ x => x.2.pending = false ∧ (x.1.tbl.proc 0).state = .sleeping ∧
        (x.1.tbl.proc 0).chan = some .ticks ∧ x.1.ctx 0 = .asleep (.sysSleep 0 1) ∧
        x.2.now - x.2.since 0 = 1)
      (by decide +kernel)
    exact ⟨tr, s, x, hrun, hP⟩

end Xv6
