import Xv6.Proc.Simulation

/-!
# What every reachable state looks like

The machine starts in a good state, so every state of every run is good: the lists
partition the processes by state and priority, and no removal from a list fails. Every
run is also a run of the world of processes.
-/

namespace Xv6

variable {Cpu : Type} [DecidableEq Cpu]

/-- The world when the CPUs enter `scheduler`: the first process and free slots. -/
structure WInit (s : Sys Cpu World) : Prop where
  initproc : s.tbl.initproc = some 0
  nextpid : s.tbl.nextpid = 2
  first : s.tbl.life 0 =
    { state := .runnable, pid := 1, parent := none, chan := none, killed := false }
  free : ∀ p, p ≠ 0 → s.tbl.life p =
    { state := .unused, pid := 0, parent := none, chan := none, killed := false }
  cpu : ∀ c, s.cpu c = none
  ctx : ∀ p, s.ctx p = .run
  lock : s.lock = none

def WNext (s : Sys Cpu World) (l : Act Cpu × Option Event) (s' : Sys Cpu World) : Prop :=
  WStep s l.1 l.2 s'

abbrev WRun (tr : List (Act Cpu × Option Event)) (s : Sys Cpu World) : Prop :=
  Trace.Run WInit WNext tr s

omit [DecidableEq Cpu] in
theorem WInit.inv {s : Sys Cpu World} (h : WInit s) : WInv s where
  cpu_running hc := by rw [h.cpu] at hc; cases hc
  cpu_inj hc := by rw [h.cpu] at hc; cases hc
  child_embryo hp := by rw [h.ctx] at hp; cases hp
  child_inj hp := by rw [h.ctx] at hp; cases hp
  forking hp := by rw [h.ctx] at hp; cases hp
  fresh hp := by simp only [h.ctx, reduceCtorEq, or_self] at hp
  ready hp := by rw [h.ctx] at hp; cases hp
  dead hp := by rw [h.ctx] at hp; cases hp
  init := ⟨0, h.initproc, by rw [h.first]; exact Or.inr (Or.inl rfl)⟩

namespace Sys

omit [DecidableEq Cpu] in
theorem Init.boot {s : Sys Cpu Ptable} (h : Init s) : s.tbl.Disciplined ∧
    ∃ kstack pgdir, s.tbl.toCore = Core.boot s.ticks kstack pgdir := by
  obtain ⟨kstack, pgdir, heq⟩ := h.tbl
  obtain ⟨t, q, heq', hr, hq, hc⟩ := Ptable.userinit_ok s.ticks kstack pgdir
  rw [heq'] at heq
  cases heq
  exact ⟨⟨q, hr, hq⟩, kstack, pgdir, hr.core.trans hc⟩

omit [DecidableEq Cpu] in
theorem Init.good {s : Sys Cpu Ptable} (h : Init s) : Good s ∧ WInit s.world := by
  obtain ⟨hd, kstack, pgdir, hcore⟩ := h.boot
  have hw : WInit s.world := by
    refine ⟨?_, ?_, ?_, fun p hp => ?_, h.cpu, h.ctx, h.lock⟩
    · exact congrArg Core.initproc hcore
    · exact congrArg Core.nextpid hcore
    · exact congrArg (fun c : Core => (c.proc 0).life) hcore
    · refine (congrArg (fun c : Core => (c.proc p).life) hcore).trans ?_
      simp [Core.boot, hp, Proc.life, Proc.zero]
  refine ⟨⟨hd, fun hp => ?_, hw.inv⟩, hw⟩
  simp only [h.ctx, reduceCtorEq, or_self] at hp

theorem next_eq_some {s : Sys Cpu Ptable} {a : Act Cpu} {r : Outcome Cpu}
    (h : s.next a = some r) : s.step a = some (.ok r) := by
  unfold next at h
  split at h
  · next r' hs => rw [hs]; cases h; rfl
  · cases h

end Sys

/-- A step of the machine from a good state is a step of the world to a good state. -/
theorem Good.next {s s' : Sys Cpu Ptable} {l : Act Cpu × Option Event} (hg : Good s)
    (hs : Trace.Next Sys.next s l s') : WStep s.world l.1 l.2 s'.world ∧ Good s' := by
  rcases hg.step (Sys.next_eq_some hs) with ⟨s₁, e₁, heq, hg', hw⟩ | hr
  · cases heq
    exact ⟨hw, hg'⟩
  · cases hr

namespace Sys

theorem Run.world {tr : List (Act Cpu × Option Event)} {s : Sys Cpu Ptable} (h : Run tr s) :
    WRun tr s.world ∧ Good s :=
  Trace.Run.simulate (fun _ hs => ⟨hs.good.2, hs.good.1⟩) (fun _ _ _ hg hs => hg.next hs) h

/-! ## Computing runs -/

def start : Sys Bool Ptable where
  tbl := match Ptable.userinit 0 0 0 with
    | .ok t => t
    | .error _ => Ptable.zero
  ticks := 0
  cpu := fun _ => none
  ctx := fun _ => .run
  lock := none
  pipe := fun _ => { nread := 0, nwrite := 0, readopen := true, writeopen := true }
  input := { r := 0, w := 0 }

theorem start_init : Init start := by
  obtain ⟨t, q, heq, -⟩ := Ptable.userinit_ok 0 0 0
  refine ⟨⟨0, 0, ?_⟩, fun _ => rfl, fun _ => rfl, rfl⟩
  unfold start
  dsimp only
  rw [heq]

end Sys

/-- A successful `fork` on a CPU. -/
def forkOn (c : Bool) : List (Act Bool) :=
  [.fork c, .kalloc c (some 0), .copyuvm c (some 0), .forkEnd c]

def Queue.state : Queue → ProcState
  | .ready _ => .runnable
  | .free => .unused
  | .sleep => .sleeping
  | .zombie => .zombie
  | .running => .running
  | .embryo => .embryo

theorem Proc.home_state {x : Proc} {l : Queue} (h : x.home = some l) : x.state = l.state := by
  cases l with
  | ready i => exact (Proc.home_ready.mp h).1
  | free => exact Proc.home_unused.mp h
  | sleep => exact Proc.home_sleep.mp h
  | zombie => exact Proc.home_zombie.mp h
  | running => exact Proc.home_running.mp h
  | embryo => exact Proc.home_embryo.mp h

/-- In every reachable state the lists are chains that end, every process is on exactly
one of them, once, the one its state and priority name; and no step from there panics,
unless init exits. -/
theorem lists_partition_processes {tr : List (Act Cpu × Option Event)} {s : Sys Cpu Ptable}
    (h : Sys.Run tr s) :
    (∃ list : Queue → List Slot,
      (∀ l, Intrusive.Chain s.tbl.next (s.tbl.pLists l) (list l)) ∧
      (∀ l, (list l).Nodup) ∧
      (∀ p, ∃! l, p ∈ list l) ∧
      (∀ l p, p ∈ list l → (s.tbl.proc p).state = l.state) ∧
      ∀ i p, p ∈ list (.ready i) → (s.tbl.proc p).prio = (i : Nat)) ∧
    (∀ p, (s.tbl.proc p).state ≠ .unused → (s.tbl.proc p).state ≠ .embryo →
      0 ≤ (s.tbl.proc p).prio ∧ (s.tbl.proc p).prio ≤ MAX) ∧
    ∀ a f, s.step a = some (.error f) → f = .panic "init exiting" := by
  have hg := h.world.2
  obtain ⟨q, hr, hq⟩ := hg.lists
  refine ⟨⟨q.list, hr.chain, hq.nodup, fun p => ?_, fun l p hp => ?_, fun i p hp => ?_⟩,
    fun p => ?_, fun a f hf => ?_⟩
  · obtain ⟨l, hl⟩ := hq.exists_mem p
    exact ⟨l, hl, fun l' hl' => hr.disj hl' hl⟩
  · rw [hr.proc]
    exact Proc.home_state (hq.mem_iff.mp hp)
  · rw [hr.proc]
    exact (Proc.home_ready.mp (hq.mem_iff.mp hp)).2
  · rw [hr.proc]
    exact hq.prioOk p
  · rcases hg.step hf with ⟨_, _, heq, -⟩ | heq
    · cases heq
    · cases heq
      rfl

theorem lists_partition_processes_fork :
    ∃ (tr : _) (s : Sys Bool Ptable), (s.tbl.proc 0).state = .runnable ∧
      (s.tbl.proc 1).state = .running ∧ Sys.Run tr s ∧
      ∀ a f, s.step a = some (.error f) → f = .panic "init exiting" := by
  obtain ⟨tr, s, hrun, hst⟩ := Trace.exec_reaches (f := Sys.next) Sys.start_init
    ([.sched false, .resume false] ++ forkOn false ++
      [.sched true, .resume true, .sleep false .ticks, .wakeup .ticks])
    (fun _ s => (s.tbl.proc 0).state = .runnable ∧ (s.tbl.proc 1).state = .running)
    (by decide +kernel)
  exact ⟨tr, s, hst.1, hst.2, hrun, (lists_partition_processes hrun).2.2⟩

/-! ## Running processes -/

theorem WStep.on_cpu {s s' : Sys Cpu World} {a : Act Cpu} {e : Option Event} (h : WInv s)
    (hon : ∀ p, (s.tbl.life p).state = .running → ∃ c, s.cpu c = some p) (hs : WStep s a e s') :
    ∀ p, (s'.tbl.life p).state = .running → ∃ c, s'.cpu c = some p := by
  obtain ⟨-, -, hemb, -, -, -, -, -, -⟩ := h
  intro q hq
  cases hs with
  | quiet ha ht hc hx hl =>
    rw [ht] at hq
    rw [hc]
    exact hon q hq
  | @dispatch c p hl hc hp =>
    by_cases heq : q = p
    · exact ⟨c, by rw [heq]; exact Function.update_self ..⟩
    · obtain ⟨c', hc'⟩ := hon q (by grind)
      exact ⟨c', by grind⟩
  | wait hc hl hk hw | resumeWait hc hl hk hw =>
    cases hw <;> dsimp only [Sys.setCtx, Sys.leave] at hq ⊢ <;>
    · obtain ⟨c', hc'⟩ := hon q (by grind)
      exact ⟨c', by grind⟩
  | _ =>
    dsimp only [Sys.setCtx, Sys.leave] at hq ⊢
    obtain ⟨c', hc'⟩ := hon q (by grind)
    exact ⟨c', by grind⟩

/-- In every reachable state, a process is `RUNNING` exactly if it is the process of a CPU,
and then of only one. -/
theorem running_on_one_cpu {tr : List (Act Cpu × Option Event)} {s : Sys Cpu Ptable}
    (h : Sys.Run tr s) (p : Slot) :
    (s.tbl.proc p).state = .running ↔ ∃! c, s.cpu c = some p := by
  have hinv : WInv s.world ∧
      ∀ p, (s.world.tbl.life p).state = .running → ∃ c, s.world.cpu c = some p := by
    refine Trace.Run.invariant (I := fun s => WInv s ∧
      ∀ p, (s.tbl.life p).state = .running → ∃ c, s.cpu c = some p) (fun s hs => ⟨hs.inv, ?_⟩)
      (fun s l s' hI hs => ⟨hI.1.step hs, hs.on_cpu hI.1 hI.2⟩) h.world.1
    intro p hp
    by_cases hzero : p = 0
    · rw [hzero, hs.first] at hp
      cases hp
    · rw [hs.free p hzero] at hp
      cases hp
  constructor
  · intro hp
    obtain ⟨c, hc⟩ := hinv.2 p hp
    exact ⟨c, hc, fun c' hc' => hinv.1.cpu_inj hc' hc⟩
  · rintro ⟨c, hc, -⟩
    exact hinv.1.cpu_running hc

theorem running_on_one_cpu_fork :
    ∃ (tr : _) (s : Sys Bool Ptable), Sys.Run tr s ∧ s.cpu true = some 1 ∧
      (s.tbl.proc 1).state = .running ∧ ∃! c, s.cpu c = some 1 := by
  obtain ⟨tr, s, hrun, hc, hp⟩ := Trace.exec_reaches (f := Sys.next) Sys.start_init
    ([.sched false, .resume false] ++ forkOn false ++ [.sched true])
    (fun _ s => s.cpu true = some 1 ∧ (s.tbl.proc 1).state = .running) (by decide +kernel)
  exact ⟨tr, s, hrun, hc, hp, (running_on_one_cpu hrun 1).mp hp⟩

end Xv6
