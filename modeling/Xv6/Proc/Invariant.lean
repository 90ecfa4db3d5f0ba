import Xv6.Proc.World

/-!
# Invariants of the machine

What holds of CPUs, processes and the slots that `fork` is filling, in every state
the machine reaches: a CPU runs a running process, and no other CPU runs the same one;
a slot that a `fork` is filling is an embryo, and no other `fork` fills it; init does
not die.
-/

namespace Xv6

variable {Cpu : Type} [DecidableEq Cpu]

theorem WStep.initproc {s s' : Sys Cpu World} {a : Act Cpu} {e : Option Event}
    (hs : WStep s a e s') : s'.tbl.initproc = s.tbl.initproc := by
  cases hs with
  | quiet ha ht hc hx hl => rw [ht]
  | wait hc hl hk hw | resumeWait hc hl hk hw => cases hw <;> rfl
  | exit hc hl hk hi => exact World.exit_initproc _ _
  | _ => rfl

structure WInv (s : Sys Cpu World) : Prop where
  cpu_running : ∀ {c p}, s.cpu c = some p → (s.tbl.life p).state = .running
  cpu_inj : ∀ {c c' p}, s.cpu c = some p → s.cpu c' = some p → c = c'
  child_embryo : ∀ {p np}, (s.ctx p).child = some np → (s.tbl.life np).state = .embryo
  child_inj : ∀ {p p' np}, (s.ctx p).child = some np → (s.ctx p').child = some np → p = p'
  forking : ∀ {p np}, (s.ctx p).child = some np →
    (s.tbl.life p).state = .running ∨ (s.tbl.life p).state = .runnable
  fresh : ∀ {p np}, s.ctx p = .forkCopy np ∨ s.ctx p = .forkReady np → s.ctx np = .run
  ready : ∀ {p np}, s.ctx p = .forkReady np → (s.tbl.life np).parent = some p
  dead : ∀ {p}, s.ctx p = .exited → ¬ (s.tbl.life p).Alive
  init : ∃ i, s.tbl.initproc = some i ∧ (s.tbl.life i).Alive

namespace WInv

variable {s s' : Sys Cpu World} {a : Act Cpu} {e : Option Event}

section Step

variable (h : WInv s) (hs : WStep s a e s')

include h hs

theorem step_cpu_running {c : Cpu} {p : Slot} (hp : s'.cpu c = some p) :
    (s'.tbl.life p).state = .running := by
  obtain ⟨hrun, hinj, hemb, -, -, -, -, -, -⟩ := h
  revert c p
  cases hs with
  | quiet ha ht hc hx hl => rw [ht, hc]; exact hrun
  | wait hc hl hk hw | resumeWait hc hl hk hw =>
    cases hw <;> dsimp only [Sys.setCtx, Sys.leave] <;> grind
  | _ => dsimp only [Sys.setCtx, Sys.leave]; grind

theorem step_cpu_inj {c c' : Cpu} {p : Slot} (hp : s'.cpu c = some p) (hp' : s'.cpu c' = some p) :
    c = c' := by
  obtain ⟨hrun, hinj, -, -, -, -, -, -, -⟩ := h
  revert c c' p
  cases hs with
  | quiet ha ht hc hx hl => rw [hc]; exact hinj
  | wait hc hl hk hw | resumeWait hc hl hk hw =>
    cases hw <;> dsimp only [Sys.setCtx, Sys.leave] <;> grind
  | _ => dsimp only [Sys.setCtx, Sys.leave]; grind

theorem step_child_embryo {p np : Slot} (hp : (s'.ctx p).child = some np) :
    (s'.tbl.life np).state = .embryo := by
  obtain ⟨hrun, -, hemb, hinj, -, -, -, -, -⟩ := h
  revert p np
  cases hs with
  | quiet ha ht hc hx hl => rw [ht, hx]; exact hemb
  | wait hc hl hk hw | resumeWait hc hl hk hw =>
    cases hw <;> dsimp only [Sys.setCtx, Sys.leave] <;> grind
  | _ => dsimp only [Sys.setCtx, Sys.leave]; grind

theorem step_child_inj {p p' np : Slot} (hp : (s'.ctx p).child = some np)
    (hp' : (s'.ctx p').child = some np) : p = p' := by
  obtain ⟨hrun, -, hemb, hinj, -, -, -, -, -⟩ := h
  revert p p' np
  cases hs with
  | quiet ha ht hc hx hl => rw [hx]; exact hinj
  | wait hc hl hk hw | resumeWait hc hl hk hw =>
    cases hw <;> dsimp only [Sys.setCtx, Sys.leave] <;> grind
  | _ => dsimp only [Sys.setCtx, Sys.leave]; grind

theorem step_forking {p np : Slot} (hp : (s'.ctx p).child = some np) :
    (s'.tbl.life p).state = .running ∨ (s'.tbl.life p).state = .runnable := by
  obtain ⟨hrun, hcinj, hemb, hinj, hfork, -, -, -, -⟩ := h
  revert p np
  cases hs with
  | quiet ha ht hc hx hl => rw [ht, hx]; exact hfork
  | wait hc hl hk hw | resumeWait hc hl hk hw =>
    cases hw <;> dsimp only [Sys.setCtx, Sys.leave] <;> grind
  | _ => dsimp only [Sys.setCtx, Sys.leave]; grind

theorem step_fresh {p np : Slot} (hp : s'.ctx p = .forkCopy np ∨ s'.ctx p = .forkReady np) :
    s'.ctx np = .run := by
  obtain ⟨hrun, -, hemb, hinj, hfork, hfresh, -, -, -⟩ := h
  revert p np
  cases hs with
  | quiet ha ht hc hx hl => rw [hx]; exact hfresh
  | wait hc hl hk hw | resumeWait hc hl hk hw =>
    cases hw <;> dsimp only [Sys.setCtx, Sys.leave] <;> grind
  | _ => dsimp only [Sys.setCtx, Sys.leave]; grind

theorem step_ready {p np : Slot} (hp : s'.ctx p = .forkReady np) :
    (s'.tbl.life np).parent = some p := by
  obtain ⟨hrun, -, hemb, hinj, -, hfresh, hready, -, -⟩ := h
  revert p np
  cases hs with
  | quiet ha ht hc hx hl => rw [ht, hx]; exact hready
  | wait hc hl hk hw | resumeWait hc hl hk hw =>
    cases hw <;> dsimp only [Sys.setCtx, Sys.leave] <;> grind
  | _ => dsimp only [Sys.setCtx, Sys.leave]; grind

theorem step_dead {p : Slot} (hp : s'.ctx p = .exited) : ¬ (s'.tbl.life p).Alive := by
  obtain ⟨hrun, hcinj, hemb, -, hfork, hfresh, -, hdead, -⟩ := h
  unfold Life.Alive at *
  revert p
  cases hs with
  | quiet ha ht hc hx hl => rw [ht, hx]; exact hdead
  | wait hc hl hk hw | resumeWait hc hl hk hw =>
    cases hw <;> dsimp only [Sys.setCtx, Sys.leave] <;> grind
  | _ => dsimp only [Sys.setCtx, Sys.leave]; grind

theorem step_init : ∃ i, s'.tbl.initproc = some i ∧ (s'.tbl.life i).Alive := by
  obtain ⟨hrun, -, hemb, -, -, -, -, -, i, hi, halive⟩ := h
  refine ⟨i, hs.initproc.trans hi, ?_⟩
  unfold Life.Alive at *
  cases hs with
  | quiet ha ht hc hx hl => rw [ht]; exact halive
  | wait hc hl hk hw | resumeWait hc hl hk hw =>
    cases hw <;> dsimp only [Sys.setCtx, Sys.leave] <;> grind
  | _ => dsimp only [Sys.setCtx, Sys.leave]; grind

end Step

theorem step (h : WInv s) (hs : WStep s a e s') : WInv s' where
  cpu_running := h.step_cpu_running hs
  cpu_inj := h.step_cpu_inj hs
  child_embryo := h.step_child_embryo hs
  child_inj := h.step_child_inj hs
  forking := h.step_forking hs
  fresh := h.step_fresh hs
  ready := h.step_ready hs
  dead := h.step_dead hs
  init := h.step_init hs

end WInv

end Xv6
