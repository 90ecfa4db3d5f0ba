import Xv6.Proc.Kin

/-!
# Processes that sleep

While a process sleeps only `wakeup1` and `kill` touch it. `wait` looks for zombies and tests
`killed` in the section of `ptable.lock` in which it falls asleep, so nothing is lost on it. The
loops of `piperead`, `pipewrite`, `consoleread` and `sys_sleep` test `killed` before `sleep`
takes the lock: a kill that comes in between is not seen.
-/

namespace Xv6

variable {Cpu : Type} [DecidableEq Cpu]
variable {s s' : Sys Cpu World} {a : Act Cpu} {e : Option Event} {c : Cpu} {p x : Slot}

@[grind =] theorem Site.chan_isProc (site : Site) : site.chan.isProc = false := by
  cases site <;> rfl

/-! ## How a process comes to sleep -/

/-- The process slept before the step, and nothing its sleep depends on has changed. -/
def Sys.SleepsOn (s s' : Sys Cpu World) (x : Slot) : Prop :=
  (s.tbl.life x).state = .sleeping ∧ s'.ctx x = s.ctx x ∧
    (s'.tbl.life x).chan = (s.tbl.life x).chan ∧ (s'.tbl.life x).killed = (s.tbl.life x).killed

def Sys.Waits (s : Sys Cpu World) (x : Slot) : Prop :=
  s.ctx x = .wait ∧ (s.tbl.life x).chan = some (.proc x) ∧ (s.tbl.life x).killed = false ∧
    ¬ s.tbl.ZombieChild x

theorem World.zombieChild_sleep {w : World} (p : Slot) (chan : Chan) (hz : ¬ w.ZombieChild x) :
    ¬ (w.sleep p chan).ZombieChild x := by
  rintro ⟨z, hst, hpar⟩
  refine hz ⟨z, ?_⟩
  grind

theorem WaitTurn.sleeping (hrun : (s.tbl.life p).state = .running) (hw : WaitTurn s c p e s')
    (hx : (s'.tbl.life x).state = .sleeping) : (x ≠ p ∧ s.SleepsOn s' x) ∨ s'.Waits x := by
  cases hw with
  | reaped _ _ | failed _ _ =>
    left
    unfold Sys.SleepsOn
    dsimp only [Sys.setCtx] at hx ⊢
    grind
  | sleeps hz hk hc =>
    have hz' := World.zombieChild_sleep p (.proc p) hz
    unfold Sys.SleepsOn Sys.Waits
    dsimp only [Sys.setCtx, Sys.leave] at hx ⊢
    grind

/-- A sleeping process slept before, or has just fallen asleep in `sleep` called by
anything but the code below, in one of the loops, or in `wait`. -/
theorem WStep.sleeping (h : WInv s) (hs : WStep s a e s')
    (hx : (s'.tbl.life x).state = .sleeping) :
    s.SleepsOn s' x ∨
    (∃ chan, s'.ctx x = .sleep ∧ (s'.tbl.life x).chan = some chan ∧ chan.isProc = false) ∨
    (∃ site, s.ctx x = .tested site ∧ s'.ctx x = .asleep site ∧
      (s'.tbl.life x).chan = some site.chan ∧
      (s'.tbl.life x).killed = (s.tbl.life x).killed) ∨
    s'.Waits x := by
  cases hs with
  | quiet ha ht hc hx' hl =>
    left
    rw [ht] at hx
    exact ⟨hx, by rw [hx'], by rw [ht], by rw [ht]⟩
  | wait hc hl hk hw =>
    rcases hw.sleeping (h.cpu_running hc) hx with hx' | hx'
    · exact Or.inl hx'.2
    · exact Or.inr (Or.inr (Or.inr hx'))
  | @resumeWait _ c p _ hc hl hk hw =>
    have hrun : ((s.tbl.clearChan p).life p).state = .running := by
      rw [World.clearChan, World.modify_self]
      exact h.cpu_running hc
    rcases hw.sleeping hrun hx with ⟨hxp, hx'⟩ | hx'
    · left
      unfold Sys.SleepsOn at hx' ⊢
      dsimp only at hx'
      rwa [World.clearChan, World.modify_of_ne _ _ _ hxp] at hx'
    · exact Or.inr (Or.inr (Or.inr hx'))
  | sleep hc hl hk hn | block hc hl hk =>
    obtain ⟨hrun, -, -, -, -, -, -, -, -⟩ := h
    unfold Sys.SleepsOn
    dsimp only [Sys.setCtx, Sys.leave] at hx ⊢
    grind
  | _ =>
    obtain ⟨hrun, -, hemb, -, hfork, -, -, -, -⟩ := h
    left
    unfold Sys.SleepsOn
    dsimp only [Sys.setCtx, Sys.leave] at hx ⊢
    grind

/-! ## Waiting for a child -/

theorem World.zombieChild_exit {w : World} (hirr : (w.life p).parent ≠ some p)
    (hx : ((w.exit p).life x).state = .sleeping) (hc : (w.life x).chan = some (.proc x))
    (hz : (w.exit p).ZombieChild x) : w.ZombieChild x := by
  obtain ⟨z, hzst, hzpar⟩ := hz
  have hxp : x ≠ p := by
    rintro rfl
    rw [exit_state, if_pos rfl] at hx
    cases hx
  -- not woken up: neither the parent of the exiting process nor init with a new zombie
  have hnot : ¬ ((w.life p).parent = some x ∨ (w.ZombieChild p ∧ w.initproc = some x)) := by
    intro hwake
    rw [exit_state, if_neg hxp] at hx
    split at hx
    · cases hx
    · next hn =>
      refine hn ⟨hx, ?_⟩
      rcases hwake with hpar | ⟨hzc, hinit⟩
      · exact Or.inl (by rw [hpar, hc]; rfl)
      · exact Or.inr ⟨hzc, by rw [hinit, hc]; rfl⟩
  by_cases hzp : z = p
  · subst hzp
    rw [exit_parent, if_neg fun h => hirr h.2] at hzpar
    exact absurd (Or.inl hzpar) hnot
  · have hzst' : (w.life z).state = .zombie := by
      rw [exit_state, if_neg hzp] at hzst
      split at hzst
      · cases hzst
      · exact hzst
    rw [exit_parent] at hzpar
    split at hzpar
    · next hchild => exact absurd (Or.inr ⟨⟨z, hzst', hchild.2⟩, hzpar⟩) hnot
    · exact ⟨z, hzst', hzpar⟩

theorem WaitTurn.not_exited (hw : WaitTurn s c p e s') (pid : Word) (os : List Word) :
    e ≠ some (.exited pid os) := by
  cases hw <;> exact nofun

theorem World.zombieChild_of_family {w w' : World} (hs : w.family.Step e w'.family)
    (he : ∀ pid os, e ≠ some (.exited pid os)) (hz : w'.ZombieChild x) : w.ZombieChild x := by
  obtain ⟨z, hst, hpar⟩ := hz
  have heq : (w'.life z).member = (w.life z).member := hs.zombie he (congrArg ProcState.stage hst)
  refine ⟨z, ?_, (congrArg Member.parent heq).symm.trans hpar⟩
  have hstage : (w.life z).state.stage = .zombie :=
    (congrArg Member.stage heq).symm.trans (congrArg ProcState.stage hst)
  revert hstage
  cases (w.life z).state <;> simp [ProcState.stage]

theorem WStep.zombieChild (h : WInv s) (hf : s.tbl.family.Sound) (hs : WStep s a e s')
    (hx : (s'.tbl.life x).state = .sleeping) (hc : (s.tbl.life x).chan = some (.proc x))
    (hz : s'.tbl.ZombieChild x) : s.tbl.ZombieChild x := by
  have hfam := hs.family h
  cases hs with
  | exit hc' hl hk hi => exact World.zombieChild_exit hf.irrefl hx hc hz
  | wait hc' hl hk hw | resumeWait hc' hl hk hw =>
    exact World.zombieChild_of_family hfam hw.not_exited hz
  | _ => exact World.zombieChild_of_family hfam nofun hz

/-- What is known of the processes asleep in `wait`. -/
structure Waiting (s : Sys Cpu World) : Prop where
  chan : ∀ {x}, (s.tbl.life x).state = .sleeping →
    (s.ctx x = .wait ↔ (s.tbl.life x).chan = some (.proc x))
  waiter : ∀ {x}, (s.tbl.life x).state = .sleeping → (s.tbl.life x).chan = some (.proc x) →
    (s.tbl.life x).killed = false ∧ ¬ s.tbl.ZombieChild x

omit [DecidableEq Cpu] in
theorem Waiting.of_init (h : WInit s) : Waiting s := by
  have hst : ∀ x, (s.tbl.life x).state ≠ .sleeping := by
    intro x
    by_cases h0 : x = 0
    · rw [h0, h.first]
      exact nofun
    · rw [h.free x h0]
      exact nofun
  exact ⟨fun hx => absurd hx (hst _), fun hx => absurd hx (hst _)⟩

theorem chan_ne_proc {chan : Chan} (h : chan.isProc = false) : chan ≠ .proc x := by
  rintro rfl
  cases h

theorem Waiting.step (hw : Waiting s) (h : WInv s) (hf : s.tbl.family.Sound)
    (hs : WStep s a e s') : Waiting s' := by
  refine ⟨fun {x} hx => ?_, fun {x} hx hchan => ?_⟩
  · rcases hs.sleeping h hx with ⟨hst, hctx, hch, -⟩ | ⟨chan, hctx, hch, hp⟩ |
      ⟨site, -, hctx, hch, -⟩ | ⟨hctx, hch, -⟩
    · rw [hctx, hch]
      exact hw.chan hst
    · rw [hctx, hch]
      simp [chan_ne_proc hp]
    · rw [hctx, hch]
      simp [chan_ne_proc site.chan_isProc]
    · rw [hctx, hch]
      simp
  · rcases hs.sleeping h hx with ⟨hst, -, hch, hk⟩ | ⟨chan, -, hch, hp⟩ | ⟨site, -, -, hch, -⟩ |
      ⟨-, -, hk, hz⟩
    · rw [hch] at hchan
      obtain ⟨hk', hz⟩ := hw.waiter hst hchan
      exact ⟨hk.trans hk', fun hz' => hz (hs.zombieChild h hf hx hchan hz')⟩
    · rw [hch] at hchan
      exact absurd (Option.some.inj hchan) (chan_ne_proc hp)
    · rw [hch] at hchan
      exact absurd (Option.some.inj hchan) (chan_ne_proc site.chan_isProc)
    · exact ⟨hk, hz⟩

theorem WRun.waiting {tr : List (Act Cpu × Option Event)} (h : WRun tr s) : Waiting s := by
  have hall : (WInv s ∧ s.tbl.family.Sound) ∧ Waiting s := by
    refine Trace.Run.invariant (I := fun s => (WInv s ∧ s.tbl.family.Sound) ∧ Waiting s) ?_ ?_ h
    · intro s hs
      exact ⟨⟨WInit.inv hs, hs.family.sound⟩, .of_init hs⟩
    · rintro s l s' ⟨⟨hi, hf⟩, hw⟩ hs
      exact ⟨⟨hi.step hs, hf.step (WStep.family hi hs)⟩, hw.step hi hf hs⟩
  exact hall.2

/-- No process asleep in `wait`, on the channel that is its own address, has a zombie
child or has been killed. -/
theorem waiter_misses_nothing {tr : List (Act Cpu × Option Event)} {s : Sys Cpu Ptable}
    (h : Sys.Run tr s) {p : Slot} (hp : (s.tbl.proc p).state = .sleeping)
    (hw : s.ctx p = .wait ∨ (s.tbl.proc p).chan = some (.proc p)) :
    (s.tbl.proc p).killed = false ∧
      ∀ z, (s.tbl.proc z).parent = some p → (s.tbl.proc z).state ≠ .zombie := by
  have hwait := h.world.1.waiting
  have hchan : (s.tbl.proc p).chan = some (.proc p) := by
    rcases hw with hw | hw
    · exact (hwait.chan hp).mp hw
    · exact hw
  obtain ⟨hk, hz⟩ := hwait.waiter hp hchan
  exact ⟨hk, fun z hpar hst => hz ⟨z, hst, hpar⟩⟩

/-- Init waits for its child, which runs. -/
theorem waiter_misses_nothing_init :
    ∃ (tr : _) (s : Sys Bool Ptable), Sys.Run tr s ∧ (s.tbl.proc 0).state = .sleeping ∧
      s.ctx 0 = .wait ∧ (s.tbl.proc 0).killed = false ∧
      ∀ z, (s.tbl.proc z).parent = some 0 → (s.tbl.proc z).state ≠ .zombie := by
  obtain ⟨tr, s, hrun, hst⟩ := Trace.exec_reaches (f := Sys.next) Sys.start_init
    ([.sched false, .resume false] ++ forkOn false ++ [.wait false, .sched true, .resume true])
    (fun _ s => (s.tbl.proc 0).state = .sleeping ∧ s.ctx 0 = .wait)
    (by decide +kernel)
  exact ⟨tr, s, hrun, hst.1, hst.2, waiter_misses_nothing hrun hst.1 (Or.inl hst.2)⟩

/-! ## Sleeping in a loop that tests `killed` -/

/-- Between the test of `killed` and the `sleep` of a loop. -/
def Ctx.window : Ctx → Bool
  | .waking _ | .tested _ => true
  | _ => false

def Sys.KillsOutside (s : Sys Cpu Ptable) : Act Cpu → Prop
  | .kill _ pid => ∀ p, (s.tbl.proc p).pid = pid → (s.tbl.proc p).state ≠ .unused →
      (s.ctx p).window = false
  | _ => True

instance (s : Sys Cpu Ptable) (a : Act Cpu) : Decidable (s.KillsOutside a) := by
  induction a using Act.casesOn with
  | kill c pid => exact inferInstanceAs (Decidable (∀ p, _))
  | _ => exact isTrue trivial

theorem WStep.window (hs : WStep s a e s') (hx : (s'.ctx x).window = true) :
    (s'.tbl.life x).killed = false ∨
    ((s.ctx x).window = true ∧ (s'.tbl.life x).killed = (s.tbl.life x).killed) ∨
    ((s.ctx x).window = true ∧ (s.tbl.life x).state ≠ .unused ∧
      ∃ c, a = .kill c (s.tbl.life x).pid) := by
  cases hs with
  | quiet ha ht hc hx' hl =>
    rw [hx'] at hx
    exact Or.inr (Or.inl ⟨hx, by rw [ht]⟩)
  | wait hc hl hk hw | resumeWait hc hl hk hw =>
    cases hw <;> dsimp only [Sys.setCtx, Sys.leave] at hx ⊢ <;> grind [Ctx.window]
  | @kill c p t pid hc hl hk hp hu hz =>
    by_cases hxt : x = t
    · subst hxt
      exact Or.inr (Or.inr ⟨hx, hu, c, by rw [hp]⟩)
    · refine Or.inr (Or.inl ⟨hx, ?_⟩)
      rw [World.modify_of_ne _ _ _ hxt]
  | _ =>
    dsimp only [Sys.setCtx, Sys.leave] at hx ⊢
    grind [Ctx.window]

/-- What is known of the processes in the loops, if kills come outside the windows. -/
structure Looping (s : Sys Cpu World) : Prop where
  window : ∀ {x}, (s.ctx x).window = true → (s.tbl.life x).killed = false
  asleep : ∀ {x site}, (s.tbl.life x).state = .sleeping → s.ctx x = .asleep site →
    (s.tbl.life x).killed = false

theorem Looping.step (hp : Looping s) (h : WInv s) (hs : WStep s a e s')
    (hkill : ∀ c x, a = .kill c (s.tbl.life x).pid → (s.tbl.life x).state ≠ .unused →
      (s.ctx x).window = false) : Looping s' := by
  refine ⟨fun {x} hx => ?_, fun {x site} hx hctx => ?_⟩
  · rcases hs.window hx with hk | ⟨hwin, hk⟩ | ⟨hwin, hu, c, ha⟩
    · exact hk
    · exact hk.trans (hp.window hwin)
    · rw [hkill c x ha hu] at hwin
      cases hwin
  · rcases hs.sleeping h hx with ⟨hst, hctx', -, hk⟩ | ⟨chan, hctx', -⟩ |
      ⟨site', hctx', -, -, hk⟩ | ⟨hctx', -⟩
    · rw [hctx'] at hctx
      exact hk.trans (hp.asleep hst hctx)
    · rw [hctx'] at hctx
      cases hctx
    · exact hk.trans (hp.window (by rw [hctx']; rfl))
    · rw [hctx'] at hctx
      cases hctx

/-- If every kill comes outside the window of its target, no killed process sleeps in one
of the loops. -/
theorem killed_not_asleep {tr : List (Act Cpu × Option Event)} {s : Sys Cpu Ptable}
    (h : Trace.Run Sys.Init (Trace.Only Sys.KillsOutside (Trace.Next Sys.next)) tr s)
    {p : Slot} {site : Site} (hp : (s.tbl.proc p).state = .sleeping)
    (hctx : s.ctx p = .asleep site) : (s.tbl.proc p).killed = false := by
  have hall : Good s ∧ Looping s.world := by
    refine Trace.Run.invariant (I := fun s => Good s ∧ Looping s.world) ?_ ?_ h
    · intro s hs
      have hctx : ∀ x, s.world.ctx x = .run := hs.ctx
      refine ⟨hs.good.1, fun {x} hx => ?_, fun {x _} _ hx => ?_⟩
      · rw [hctx] at hx
        cases hx
      · rw [hctx] at hx
        cases hx
    · rintro s l s' ⟨hg, hp⟩ ⟨hs, hk⟩
      obtain ⟨hw, hg'⟩ := hg.next hs
      refine ⟨hg', hp.step hg.inv hw fun c x ha hu => ?_⟩
      rw [ha] at hk
      exact hk x rfl hu
  exact hall.2.asleep hp hctx

theorem killed_not_asleep_reader :
    ∃ (tr : _) (s : Sys Bool Ptable),
      Trace.Run Sys.Init (Trace.Only Sys.KillsOutside (Trace.Next Sys.next)) tr s ∧
      (s.tbl.proc 1).state = .sleeping ∧ s.ctx 1 = .asleep (.piperead 0) ∧
      (s.tbl.proc 0).killed = true ∧ (s.tbl.proc 1).killed = false := by
  obtain ⟨tr, s, hrun, hst, hctx, hk⟩ := Trace.exec_reaches_only (f := Sys.next) Sys.start_init
    Sys.KillsOutside
    ([.sched false, .resume false] ++ forkOn false ++ [.sched true, .resume true,
      .enter true (.piperead 0), .test true, .kill false 1, .block true])
    (fun _ s => (s.tbl.proc 1).state = .sleeping ∧ s.ctx 1 = .asleep (.piperead 0) ∧
      (s.tbl.proc 0).killed = true)
    (by decide +kernel)
  exact ⟨tr, s, hrun, hst, hctx, hk, killed_not_asleep hrun hst hctx⟩

/-- A kill between the test of `killed` and the `sleep` of `piperead` leaves the killed
process asleep. -/
theorem killed_asleep_reader :
    ∃ (tr : _) (s : Sys Bool Ptable), Sys.Run tr s ∧ s.lock = none ∧
      (s.tbl.proc 1).state = .sleeping ∧ s.ctx 1 = .asleep (.piperead 0) ∧
      (s.tbl.proc 1).killed = true := by
  obtain ⟨tr, s, hrun, hP⟩ := Trace.exec_reaches (f := Sys.next) Sys.start_init
    ([.sched false, .resume false] ++ forkOn false ++ [.sched true, .resume true,
      .enter true (.piperead 0), .test true, .kill false 2, .block true])
    (fun _ s => s.lock = none ∧ (s.tbl.proc 1).state = .sleeping ∧
      s.ctx 1 = .asleep (.piperead 0) ∧ (s.tbl.proc 1).killed = true)
    (by decide +kernel)
  exact ⟨tr, s, hrun, hP⟩

end Xv6
