import Xv6.Proc.Refine

/-!
# Operations on a disciplined table

The pointers, the sequences and the array together: on a table whose linked lists hold
disciplined sequences, every operation of `proc.c` ends without a fault in such a table
again, and does to `ptable.proc` what its array version says.
-/

namespace Xv6

namespace Ptable

def Disciplined (t : Ptable) : Prop := ∃ q, Rep t q ∧ q.WF

/-- `m` ends without a fault in a disciplined table with the array `c`. -/
def Ends (m : Except Fault Ptable) (c : Core) : Prop :=
  ∃ t, m = .ok t ∧ t.Disciplined ∧ t.toCore = c

theorem Ends.of_sim {m : Except Fault Ptable} {q : Queues} {c : Core} (h : Sim m q) (hq : q.WF)
    (hc : q.toCore = c) : Ends m c := by
  obtain ⟨t, heq, hr⟩ := h
  exact ⟨t, heq, ⟨q, hr, hq⟩, hr.core.trans hc⟩

namespace Disciplined

variable {t : Ptable} (h : t.Disciplined) {p : Slot}

include h

theorem modify {f : Proc → Proc} (hs : (f (t.proc p)).state = (t.proc p).state)
    (hp : (f (t.proc p)).prio = (t.proc p).prio) : (t.modify p f).Disciplined := by
  obtain ⟨q, hr, hq⟩ := h
  rw [hr.proc] at hs hp
  exact ⟨_, hr.modify p f, hq.modify hs hp⟩

theorem allocprocInit (kstack : Nat) (ticks : Word) (hst : (t.proc p).state = .embryo) :
    (t.allocprocInit p kstack ticks).Disciplined := by
  obtain ⟨q, hr, hq⟩ := h
  rw [hr.proc] at hst
  exact ⟨_, hr.allocprocInit kstack ticks, hq.allocprocInit hst⟩

theorem forkCopy (np : Slot) (pgdir : Nat) : (t.forkCopy p np pgdir).Disciplined := by
  obtain ⟨q, hr, hq⟩ := h
  exact ⟨_, hr.forkCopy np pgdir, hq.forkCopy⟩

theorem yield (ticks : Word) (hst : (t.proc p).state = .running) :
    Ends (t.yield p ticks) (t.toCore.yield p ticks) := by
  obtain ⟨q, hr, hq⟩ := h
  rw [hr.proc] at hst
  rw [hr.core]
  exact .of_sim (hr.yield hq hst) (hq.yield hst) (q.yield_toCore p ticks)

theorem sleep (chan : Chan) (ticks : Word) (hst : (t.proc p).state = .running) :
    Ends (t.sleep p chan ticks) (t.toCore.sleep p chan ticks) := by
  obtain ⟨q, hr, hq⟩ := h
  rw [hr.proc] at hst
  rw [hr.core]
  exact .of_sim (hr.sleep hq hst) (hq.sleep hst) (q.sleep_toCore p chan ticks)

theorem wakeup1 (chan : Option Chan) : Ends (t.wakeup1 chan) (t.toCore.wakeup1 chan) := by
  obtain ⟨q, hr, hq⟩ := h
  rw [hr.core]
  exact .of_sim (hr.wakeup1 hq chan) (hq.wakeup1 chan) (Queues.wakeup1_toCore hq chan)

theorem allocprocFail (hst : (t.proc p).state = .embryo) :
    Ends (t.allocprocFail p) (t.toCore.allocprocFail p) := by
  obtain ⟨q, hr, hq⟩ := h
  rw [hr.proc] at hst
  rw [hr.core]
  exact .of_sim (hr.allocprocFail hq hst) (hq.allocprocFail hst) rfl

theorem forkFail (hst : (t.proc p).state = .embryo) :
    Ends (t.forkFail p) (t.toCore.forkFail p) := by
  obtain ⟨q, hr, hq⟩ := h
  rw [hr.proc] at hst
  rw [hr.core]
  exact .of_sim (hr.forkFail hq hst) (hq.forkFail hst) rfl

theorem forkReady (hst : (t.proc p).state = .embryo) (hp : (t.proc p).prio = 0) :
    Ends (t.forkReady p) (t.toCore.forkReady p) := by
  obtain ⟨q, hr, hq⟩ := h
  rw [hr.proc] at hst hp
  rw [hr.core]
  exact .of_sim (hr.forkReady hq hst) (hq.forkReady hst hp) rfl

theorem exit (ticks : Word) (hst : (t.proc p).state = .running) (hi : t.initproc ≠ some p) :
    Ends (t.exit p ticks) (t.toCore.exit p ticks) := by
  obtain ⟨q, hr, hq⟩ := h
  rw [hr.proc] at hst
  rw [congrArg Core.initproc hr.core] at hi
  rw [hr.core]
  exact .of_sim (hr.exit hq p hst hi) (hq.exit p hst).1 (hq.exit p hst).2

theorem allocproc : ∃ r t', t.allocproc = .ok (r, t') ∧ t'.Disciplined ∧
    match r with
    | none => t'.toCore = t.toCore
    | some np => (t.proc np).state = .unused ∧ t'.toCore = t.toCore.allocproc np := by
  obtain ⟨q, hr, hq⟩ := h
  obtain ⟨t', heq, hr'⟩ := hr.allocproc hq
  refine ⟨_, t', heq, ⟨_, hr', hq.allocproc⟩, ?_⟩
  rw [hr'.core, hr.core]
  cases hfree : q.list .free with
  | nil => simp [Queues.allocproc_nil hfree]
  | cons np rest =>
    obtain ⟨h₁, h₂⟩ := Queues.allocproc_cons hfree
    rw [h₁, h₂]
    exact ⟨Proc.home_unused.mp (hq.mem_iff.mp (by simp [hfree])), rfl⟩

theorem scheduler (ticks : Word) : ∃ r t', t.scheduler ticks = .ok (r, t') ∧ t'.Disciplined ∧
    match r with
    | some p => ((t.toCore.promoteDue ticks).proc p).state = .runnable ∧
        t'.toCore = (t.toCore.promoteDue ticks).dispatch p ticks
    | none => t'.toCore = t.toCore.promoteDue ticks := by
  obtain ⟨q, hr, hq⟩ := h
  obtain ⟨t', heq, hr'⟩ := hr.scheduler hq ticks
  obtain ⟨hw, hc⟩ := hq.scheduler ticks
  refine ⟨_, t', heq, ⟨_, hr', hw⟩, ?_⟩
  rwa [hr'.core, hr.core]

theorem kill (pid : Word) : ∃ r t', t.kill pid = .ok (r, t') ∧ t'.Disciplined ∧
    match r with
    | none => t'.toCore = t.toCore ∧ ∀ p, (t.proc p).pid = pid →
        (t.proc p).state = .unused ∨ (t.proc p).state = .zombie
    | some p => (t.proc p).pid = pid ∧ (t.proc p).state ≠ .unused ∧
        (t.proc p).state ≠ .zombie ∧ t'.toCore = t.toCore.kill p := by
  obtain ⟨q, hr, hq⟩ := h
  obtain ⟨t', heq, hr'⟩ := hr.kill hq pid
  obtain ⟨hw, hc⟩ := hq.kill pid
  refine ⟨_, t', heq, ⟨_, hr', hw⟩, ?_⟩
  rw [hr'.core, hr.core]
  cases hk : (q.kill pid).1 with
  | none =>
    rw [hk] at hc
    exact ⟨by rw [hc.1], hc.2⟩
  | some p =>
    rwa [hk] at hc

theorem setpriority (pid : Word) (priority : Int) :
    ∃ r t', t.setpriority pid priority = .ok (r, t') ∧ t'.Disciplined ∧
      (t'.toCore = t.toCore ∨ ∃ p, (t.proc p).state ≠ .embryo ∧
        t'.toCore = t.toCore.setpriority p priority) := by
  obtain ⟨q, hr, hq⟩ := h
  obtain ⟨t', heq, hr'⟩ := hr.setpriority hq pid priority
  rcases hq.setpriority_cases pid priority with
    ⟨-, -, -, -, hw, p, hp, hc, -⟩ | ⟨-, hc, -⟩
  · refine ⟨_, t', heq, ⟨_, hr', hw⟩, Or.inr ⟨p, fun hemb => ?_, ?_⟩⟩
    · rw [hr.proc] at hemb
      rcases hp.1 with hs | hs | hs <;> cases hemb.symm.trans hs
    · rw [hr'.core, hr.core, hc]
  · refine ⟨_, t', heq, ⟨_, hr', by rwa [hc]⟩, Or.inl ?_⟩
    rw [hr'.core, hr.core, hc]

theorem wait (ticks : Word) (hst : (t.proc p).state = .running) :
    ∃ r t', t.wait p ticks = .ok (r, t') ∧ t'.Disciplined ∧
      match r with
      | .reaped z pid => (t.proc z).state = .zombie ∧ (t.proc z).parent = some p ∧
          pid = (t.proc z).pid ∧ t'.toCore = t.toCore.reap z
      | .failed => ¬ t.toCore.ZombieChild p ∧ t'.toCore = t.toCore ∧
          ((∀ x, (t.proc x).state ≠ .unused → (t.proc x).parent ≠ some p) ∨
            (t.proc p).killed = true)
      | .sleeps => ¬ t.toCore.ZombieChild p ∧ (t.proc p).killed = false ∧
          (∃ x, (t.proc x).state ≠ .unused ∧ (t.proc x).parent = some p) ∧
          t'.toCore = t.toCore.sleep p (.proc p) ticks := by
  obtain ⟨q, hr, hq⟩ := h
  rw [hr.proc] at hst ⊢
  obtain ⟨t', heq, hr'⟩ := hr.wait hq p hst
  have hw : (q.wait p ticks).2.WF := hq.wait hst
  refine ⟨_, t', heq, ⟨_, hr', hw⟩, ?_⟩
  rw [hr'.core, hr.core]
  unfold Queues.wait
  cases hf : (q.list .zombie).find? fun z => decide ((q.proc z).parent = some p) with
  | some z =>
    have hz := Proc.home_zombie.mp (hq.mem_iff.mp (List.mem_of_find?_eq_some hf))
    exact ⟨hz, by simpa using List.find?_some hf, rfl, Queues.reap_toCore⟩
  | none =>
    have hzc : ¬ q.toCore.ZombieChild p := by
      rintro ⟨z, hz, hpar⟩
      have := List.find?_eq_none.mp hf z (hq.mem_iff.mpr (Proc.home_zombie.mpr hz))
      exact this (by simpa using hpar)
    have hkids := hq.havekids_iff p
    by_cases hcond : (!q.havekids p || (q.proc p).killed) = true
    · rw [if_pos hcond]
      refine ⟨hzc, rfl, ?_⟩
      rw [Bool.or_eq_true, Bool.not_eq_true'] at hcond
      rcases hcond with hno | hk
      · refine Or.inl fun x hu hpar => ?_
        have hz : (q.proc x).state ≠ .zombie := fun hz => hzc ⟨x, hz, hpar⟩
        rw [hkids.mpr ⟨x, hu, hz, hpar⟩] at hno
        cases hno
      · exact Or.inr hk
    · rw [if_neg hcond]
      rw [Bool.or_eq_true, Bool.not_eq_true', not_or] at hcond
      obtain ⟨hsome, hk⟩ := hcond
      rw [Bool.not_eq_false] at hsome
      obtain ⟨x, hu, -, hpar⟩ := hkids.mp hsome
      exact ⟨hzc, by simpa using hk, ⟨x, hu, hpar⟩, q.sleep_toCore p (.proc p) ticks⟩

end Disciplined

end Ptable

end Xv6
