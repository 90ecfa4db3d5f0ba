import Xv6.Proc.World

/-!
# The world of the array operations

What each operation on `ptable.proc` does to the world of processes, and that none but
`allocproc` touches the priority of an embryo.
-/

namespace Xv6

open Ptable (charge lowerPrio)

namespace Core

section World

variable {c : Core} {p : Slot}

theorem world_modify {f : Proc → Proc} {g : Life → Life}
    (hf : (f (c.proc p)).life = g (c.proc p).life) :
    (c.modify p f).world = c.world.modify p g := by
  refine World.ext' (fun x => ?_) rfl rfl
  by_cases hx : x = p
  · subst hx
    simpa [world] using hf
  · rw [World.modify_of_ne _ _ _ hx]
    simp [world, modify_of_ne _ _ _ hx]

theorem world_modify_self {f : Proc → Proc} (hf : (f (c.proc p)).life = (c.proc p).life) :
    (c.modify p f).world = c.world := by
  refine World.ext' (fun x => ?_) rfl rfl
  by_cases hx : x = p
  · subst hx
    simpa [world] using hf
  · simp [world, modify_of_ne _ _ _ hx]

theorem world_map {f : Proc → Proc} {g : Life → Life} (hf : ∀ x, (f x).life = g x.life) :
    (c.map f).world = c.world.map g :=
  World.ext' (fun _ => hf _) rfl rfl

theorem charge_life (ticks : Word) (x : Proc) : (charge ticks x).life = x.life := by
  unfold charge
  dsimp only
  split <;> rfl

theorem world_sched (ticks : Word) : (c.sched p ticks).world = c.world :=
  world_modify_self rfl

theorem world_yield (ticks : Word) : (c.yield p ticks).world = c.world.setState p .runnable := by
  unfold yield
  rw [world_sched]
  exact world_modify (charge_life _ _)

theorem world_sleep (chan : Chan) (ticks : Word) :
    (c.sleep p chan ticks).world = c.world.sleep p chan := by
  unfold sleep
  rw [world_sched]
  refine World.ext' (fun x => ?_) rfl rfl
  by_cases hx : x = p
  · subst hx
    simp [world, World.sleep, charge_life]
    rfl
  · simp [world, World.sleep, modify_of_ne _ _ _ hx, World.modify_of_ne _ _ _ hx]

theorem wakeProc_life (chan : Option Chan) (x : Proc) :
    (wakeProc chan x).life = x.life.wake chan := by
  change (if x.state = .sleeping ∧ x.chan = chan then _ else _ : Proc).life =
    if x.state = .sleeping ∧ x.chan = chan then _ else _
  split <;> rfl

theorem world_wakeup1 (chan : Option Chan) : (c.wakeup1 chan).world = c.world.wakeup chan :=
  world_map (wakeProc_life chan)

theorem adoptProc_life (proc : Slot) (init : Option Slot) (x : Proc) :
    (adoptProc proc init x).life = x.life.adopt proc init := by
  change (if x.state ≠ .unused ∧ x.parent = some proc then _ else _ : Proc).life =
    if x.state ≠ .unused ∧ x.parent = some proc then _ else _
  split <;> rfl

theorem world_passChildren : (c.passChildren p).world = c.world.passChildren p := by
  have hz : c.world.ZombieChild p ↔ ∃ z, (c.proc z).state = .zombie ∧ (c.proc z).parent = some p :=
    Iff.rfl
  unfold passChildren World.passChildren
  dsimp only
  by_cases h : c.world.ZombieChild p
  · rw [if_pos h, if_pos (hz.mp h), world_wakeup1, world_map (adoptProc_life p c.initproc)]
    rfl
  · rw [if_neg h, if_neg (mt hz.mpr h), world_map (adoptProc_life p c.initproc)]
    rfl

theorem world_exit (ticks : Word) : (c.exit p ticks).world = c.world.exit p := by
  unfold exit World.exit
  dsimp only
  rw [world_sched, world_modify (g := fun x => { x with state := .zombie }) rfl,
    world_passChildren, world_wakeup1]
  rfl

theorem world_reap : (c.reap p).world = c.world.reap p := by
  unfold reap World.reap
  dsimp only
  refine World.ext' (fun x => ?_) rfl rfl
  by_cases hx : x = p
  · subst hx
    simp [world, Proc.life]
  · simp [world, modify_of_ne _ _ _ hx, World.modify_of_ne _ _ _ hx]

theorem promoteProc_life (x : Proc) : (promoteProc x).life = x.life := by
  unfold promoteProc lowerPrio
  split
  · split <;> rfl
  · rfl

theorem world_promoteDue (ticks : Word) : (c.promoteDue ticks).world = c.world := by
  unfold promoteDue
  split
  · exact World.ext' (fun _ => promoteProc_life _) rfl rfl
  · rfl

theorem world_dispatch (ticks : Word) :
    (c.dispatch p ticks).world = c.world.setState p .running := by
  unfold dispatch
  rw [world_modify_self rfl]
  exact world_modify rfl

theorem world_kill : (c.kill p).world = c.world.modify p Life.kill := by
  unfold kill
  dsimp only
  refine World.ext' (fun x => ?_) (by split <;> rfl) (by split <;> rfl)
  by_cases hx : x = p
  · subst hx
    split
    · next hs => simp [world, wake, Life.kill, Proc.life, hs]
    · next hs => simp [world, Life.kill, Proc.life, hs]
  · rw [World.modify_of_ne _ _ _ hx]
    split
    · simp [world, wake, modify_of_ne _ _ _ hx]
    · simp [world, modify_of_ne _ _ _ hx]

theorem world_allocproc : (c.allocproc p).world = c.world.alloc p := by
  refine World.ext' (fun x => ?_) rfl rfl
  rw [World.alloc_life]
  unfold allocproc
  by_cases hx : x = p
  · subst hx
    simp [world, Proc.life]
  · simp [world, modify_of_ne _ _ _ hx, hx]

theorem world_allocprocInit (kstack : Nat) (ticks : Word) :
    (c.allocprocInit p kstack ticks).world = c.world :=
  world_modify_self rfl

theorem world_forkCopy (np : Slot) (pgdir : Nat) :
    (c.forkCopy p np pgdir).world = c.world.modify np fun x => { x with parent := some p } := by
  unfold forkCopy
  exact world_modify rfl

theorem world_clearChan :
    (c.modify p fun x => { x with chan := none }).world = c.world.clearChan p :=
  world_modify rfl

theorem world_free {f : Proc → Proc} (hf : (f (c.proc p)).life = (c.proc p).life) :
    ((c.modify p f).modify p fun x => { x with state := .unused }).world =
      c.world.setState p .unused := by
  rw [world_modify (g := fun x => { x with state := .unused }) rfl, world_modify_self hf]
  rfl

end World

/-- The priority of an embryo, which `fork` relies on when it puts the child on
`ready[0]`, is not touched. -/
def KeepsEmbryo (c c' : Core) : Prop :=
  ∀ x, (c.proc x).state = .embryo → (c'.proc x).prio = (c.proc x).prio

section Embryo

variable {c : Core} {p : Slot}

theorem KeepsEmbryo.of_prio {c' : Core} (h : ∀ x, (c'.proc x).prio = (c.proc x).prio) :
    KeepsEmbryo c c' :=
  fun x _ => h x

theorem KeepsEmbryo.trans {c' d : Core} (h : KeepsEmbryo c c')
    (hst : ∀ x, (c'.proc x).state = (c.proc x).state) (h' : KeepsEmbryo c' d) :
    KeepsEmbryo c d := by
  intro x hx
  rw [h' x ((hst x).trans hx), h x hx]

theorem KeepsEmbryo.of_ne {c' : Core} (hp : (c.proc p).state ≠ .embryo)
    (h : ∀ x, x ≠ p → c'.proc x = c.proc x) : KeepsEmbryo c c' := by
  intro x hx
  have hne : x ≠ p := by
    rintro rfl
    exact hp hx
  rw [h x hne]

theorem keepsEmbryo_modify {f : Proc → Proc} (hf : (f (c.proc p)).prio = (c.proc p).prio) :
    KeepsEmbryo c (c.modify p f) := by
  refine .of_prio fun x => ?_
  by_cases hx : x = p
  · subst hx
    rw [modify_self, hf]
  · rw [modify_of_ne _ _ _ hx]

theorem keepsEmbryo_forkCopy (np : Slot) (pgdir : Nat) :
    KeepsEmbryo c (c.forkCopy p np pgdir) := by
  unfold forkCopy
  exact keepsEmbryo_modify rfl

theorem allocprocInit_prio (kstack : Nat) (ticks : Word) :
    ((c.allocprocInit p kstack ticks).proc p).prio = 0 := by
  unfold allocprocInit
  rw [modify_self]

theorem allocprocInit_of_ne (kstack : Nat) (ticks : Word) {x : Slot} (hx : x ≠ p) :
    (c.allocprocInit p kstack ticks).proc x = c.proc x :=
  modify_of_ne _ _ _ hx

theorem keepsEmbryo_yield (ticks : Word) (hst : (c.proc p).state = .running) :
    KeepsEmbryo c (c.yield p ticks) := by
  refine .of_ne (p := p) (by simp [hst]) fun x hx => ?_
  simp [yield, sched, modify_of_ne _ _ _ hx]

theorem keepsEmbryo_sleep (chan : Chan) (ticks : Word) (hst : (c.proc p).state = .running) :
    KeepsEmbryo c (c.sleep p chan ticks) := by
  refine .of_ne (p := p) (by simp [hst]) fun x hx => ?_
  simp [sleep, sched, modify_of_ne _ _ _ hx]

theorem keepsEmbryo_exit (ticks : Word) (hst : (c.proc p).state = .running) :
    KeepsEmbryo c (c.exit p ticks) := by
  intro x hx
  have hne : x ≠ p := by
    rintro rfl
    rw [hst] at hx
    cases hx
  simp only [exit, sched, modify_of_ne _ _ _ hne]
  by_cases hz : (c.wakeup1 ((c.proc p).parent.map .proc)).ZombieChild p
  · rw [passChildren_proc_of_zombie hz]
    simp [wakeup1]
  · rw [passChildren_proc_of_none hz]
    simp [wakeup1]

theorem keepsEmbryo_promoteDue (ticks : Word) : KeepsEmbryo c (c.promoteDue ticks) := by
  intro x hx
  unfold promoteDue
  split
  · simp [promote, promoteProc, hx]
  · rfl

theorem keepsEmbryo_dispatch (ticks : Word)
    (hst : ((c.promoteDue ticks).proc p).state = .runnable) :
    KeepsEmbryo c ((c.promoteDue ticks).dispatch p ticks) := by
  intro x hx
  have hlife : ((c.promoteDue ticks).proc x).state = (c.proc x).state :=
    congrArg (fun w : World => (w.life x).state) (world_promoteDue ticks)
  have hne : x ≠ p := by
    rintro rfl
    rw [hlife, hx] at hst
    cases hst
  simp only [dispatch, modify_of_ne _ _ _ hne]
  exact keepsEmbryo_promoteDue ticks x hx

theorem keepsEmbryo_kill : KeepsEmbryo c (c.kill p) := by
  unfold kill
  dsimp only
  split
  · refine .of_prio fun x => ?_
    by_cases hx : x = p
    · subst hx
      simp [wake]
    · simp [wake, modify_of_ne _ _ _ hx]
  · exact keepsEmbryo_modify rfl

theorem keepsEmbryo_reap : KeepsEmbryo c (c.reap p) := by
  refine .of_prio fun x => ?_
  by_cases hx : x = p
  · subst hx
    simp [reap]
  · simp [reap, modify_of_ne _ _ _ hx]

theorem keepsEmbryo_allocproc : KeepsEmbryo c (c.allocproc p) := by
  refine .of_prio fun x => ?_
  by_cases hx : x = p
  · subst hx
    simp [allocproc]
  · simp [allocproc, modify_of_ne _ _ _ hx]

theorem keepsEmbryo_free {f : Proc → Proc} (hf : (f (c.proc p)).prio = (c.proc p).prio) :
    KeepsEmbryo c ((c.modify p f).modify p fun x => { x with state := .unused }) := by
  refine .of_prio fun x => ?_
  by_cases hx : x = p
  · subst hx
    simpa using hf
  · simp [modify_of_ne _ _ _ hx]

end Embryo

end Core

end Xv6
