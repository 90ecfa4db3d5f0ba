import Xv6.Proc.Keep

/-!
# The linked lists compute the sequences

On a table that represents disciplined sequences, every operation of `proc.c` ends without a
fault in a table that represents what the operation of the same name does to the sequences.
-/

namespace Xv6

open Ptable (killQueues)

/-- `m` ends without a fault, with the result of `r` and in a table that represents its
sequences. -/
def SimR {α : Type} (m : Except Fault (α × Ptable)) (r : α × Queues) : Prop :=
  ∃ t, m = .ok (r.1, t) ∧ Rep t r.2

theorem Rep.simR {α : Type} {t : Ptable} {q : Queues} (h : Rep t q) (a : α) :
    SimR (.ok (a, t)) (a, q) :=
  ⟨t, rfl, h⟩

theorem Sim.bindR {α : Type} {m : Except Fault Ptable} {k : Ptable → Except Fault (α × Ptable)}
    {q : Queues} {r : α × Queues} (h : Sim m q) (hk : ∀ t, Rep t q → SimR (k t) r) :
    SimR (m >>= k) r := by
  obtain ⟨t, rfl, hr⟩ := h
  exact hk t hr

namespace Rep

section Moves

variable {t : Ptable} {q : Queues} (h : Rep t q) (hq : q.WF) {p : Slot}

include h hq

omit hq in
theorem addready (hp : ∀ l, p ∉ q.list l) (hr : 0 ≤ (q.proc p).prio ∧ (q.proc p).prio ≤ MAX) :
    Sim (t.addready p) (q.addready p) := by
  obtain ⟨l, hl⟩ := readyQueue_of_range hr
  have heq : t.addready p = t.addtail l p := by
    unfold Ptable.addready readyAt
    rw [h.proc, hl]
    rfl
  unfold Queues.addready
  rw [heq, hl]
  exact h.addtail hp l

omit hq in
theorem sched {ticks : Word} (hst : (q.proc p).state ≠ .running) :
    Sim (t.sched p ticks) (q.sched p ticks) := by
  have hst' : ¬ (t.proc p).state = .running := by rwa [h.proc]
  unfold Ptable.sched
  rw [if_neg hst']
  exact (h.modify p _).sim

theorem take {src : Queue} {state : ProcState} (msg : String) (hst : (q.proc p).state = state)
    (hsrc : (q.proc p).home = some src) : Sim (t.unlink src state msg p) (q.unlink src p) :=
  h.unlink msg hst (hq.mem_iff.mpr hsrc)

/-! ## Creating a process -/

omit hq in
theorem free_head : t.pLists .free = (q.list .free).head? := (h.chain .free).head_eq

theorem allocproc : SimR t.allocproc q.allocproc := by
  have hhead := h.free_head
  unfold Ptable.allocproc Queues.allocproc
  cases hfree : q.list .free with
  | nil =>
    rw [hhead, hfree]
    exact h.simR none
  | cons p rest =>
    have hhome : (q.proc p).home = some .free := hq.mem_iff.mp (by simp [hfree])
    rw [hhead, hfree]
    refine (h.take hq _ (Proc.home_unused.mp hhome) hhome).bindR fun t₁ h₁ => ?_
    have h₂ := (h₁.modify p fun x => { x with state := .embryo }).addhead
      (hq.not_mem_unlink hhome) .embryo
    exact (h₂.mapCore fun c =>
      { c.modify p (fun x => { x with pid := c.nextpid }) with nextpid := c.nextpid + 1 }).simR _

omit hq in
theorem allocprocInit (kstack : Nat) (ticks : Word) :
    Rep (t.allocprocInit p kstack ticks) (q.allocprocInit p kstack ticks) :=
  h.modify p _

theorem freeEmbryo (hst : (q.proc p).state = .embryo) : Sim (t.freeEmbryo p) (q.freeEmbryo p) := by
  have hhome := Proc.home_embryo.mpr hst
  refine (h.take hq _ hst hhome).bind fun t₁ h₁ => ?_
  exact ((h₁.modify p _).addhead (hq.not_mem_unlink hhome) .free).sim

theorem allocprocFail (hst : (q.proc p).state = .embryo) :
    Sim (t.allocprocFail p) (q.allocprocFail p) :=
  (h.modify p _).freeEmbryo (hq.modify rfl rfl) (by simpa using hst)

theorem forkFail (hst : (q.proc p).state = .embryo) : Sim (t.forkFail p) (q.forkFail p) :=
  (h.modify p _).freeEmbryo (hq.modify rfl rfl) (by simpa using hst)

omit hq in
theorem forkCopy (np : Slot) (pgdir : Nat) :
    Rep (t.forkCopy p np pgdir) (q.forkCopy p np pgdir) := by
  unfold Ptable.forkCopy Queues.forkCopy
  rw [h.proc]
  exact h.modify np _

theorem forkReady (hst : (q.proc p).state = .embryo) : Sim (t.forkReady p) (q.forkReady p) := by
  have hhome := Proc.home_embryo.mpr hst
  refine (h.take hq _ hst hhome).bind fun t₁ h₁ => ?_
  exact (h₁.modify p _).addtail (hq.not_mem_unlink hhome) (.ready 0)

/-! ## Giving up the CPU -/

theorem yield {ticks : Word} (hst : (q.proc p).state = .running) :
    Sim (t.yield p ticks) (q.yield p ticks) := by
  have hhome := Proc.home_running.mpr hst
  have hprio := hq.prioOk p (by simp [hst]) (by simp [hst])
  refine (h.take hq _ hst hhome).bind fun t₁ h₁ => ?_
  refine ((h₁.modify p _).addready (hq.not_mem_unlink hhome) ?_).bind fun t₂ h₂ => h₂.sched ?_
  · simp only [Queues.modify_toCore, Core.modify_self, Queues.unlink_toCore]
    exact Queues.charge_prio ticks hprio
  · simp [Queues.charge_state]

theorem sleep {chan : Chan} {ticks : Word} (hst : (q.proc p).state = .running) :
    Sim (t.sleep p chan ticks) (q.sleep p chan ticks) := by
  have hq₀ : (q.modify p fun x => { x with chan := some chan }).WF := hq.modify rfl rfl
  have hst₀ : ((q.modify p fun x => { x with chan := some chan }).proc p).state = .running := by
    simpa using hst
  have hhome := Proc.home_running.mpr hst₀
  refine ((h.modify p _).take hq₀ _ hst₀ hhome).bind fun t₁ h₁ => ?_
  refine ((h₁.modify p _).addhead (hq₀.not_mem_unlink hhome) .sleep).sched ?_
  simp [Queues.charge_state]

theorem wake (hst : (q.proc p).state = .sleeping) : Sim (t.wake p) (q.wake p) := by
  have hhome := Proc.home_sleep.mpr hst
  refine (h.take hq _ hst hhome).bind fun t₁ h₁ => ?_
  refine (h₁.modify p _).addready (hq.not_mem_unlink hhome) ?_
  simpa using hq.prioOk p (by simp [hst]) (by simp [hst])

theorem wakeup1 (chan : Option Chan) : Sim (t.wakeup1 chan) (q.wakeup1 chan) := by
  refine h.forEachSaved (I := Queues.WF) hq fun a t q h hq ha => ?_
  refine ⟨?_, Queues.wakeupBody_keeps chan hq ha⟩
  unfold Ptable.wakeupBody Queues.wakeupBody
  rw [h.proc]
  split
  · exact h.wake hq (Proc.home_sleep.mp (hq.mem_iff.mp ha))
  · exact h.sim

end Moves

/-! ## Exit and wait -/

theorem foldlM {ι : Type} {f : Ptable → ι → Except Fault Ptable} {g : Queues → ι → Queues}
    {t : Ptable} {q : Queues} (h : Rep t q) (ls : List ι) (hq : q.WF)
    (hstep : ∀ i ∈ ls, ∀ t q, Rep t q → q.WF → Sim (f t i) (g q i) ∧ (g q i).WF) :
    Sim (ls.foldlM f t) (ls.foldl g q) ∧ (ls.foldl g q).WF := by
  induction ls generalizing t q with
  | nil => exact ⟨h.sim, hq⟩
  | cons i ls ih =>
    obtain ⟨⟨t₁, heq, h₁⟩, hw⟩ := hstep i List.mem_cons_self t q h hq
    rw [List.foldlM_cons, heq]
    exact ih h₁ hw fun j hj => hstep j (List.mem_cons_of_mem _ hj)

theorem find_isSome (l : List Slot) (test : Slot → Bool) : (l.find? test).isSome = l.any test := by
  rw [Bool.eq_iff_iff, List.find?_isSome, List.any_eq_true]

section Exit

variable {t : Ptable} {q : Queues} (h : Rep t q) (hq : q.WF) (proc : Slot)

include h hq

theorem reparent (l : Queue) (wake : Bool) (hw : wake = true → l = .zombie) :
    Sim (t.reparent proc l wake) (q.reparent proc l wake) := by
  unfold Ptable.reparent Queues.reparent
  have hi : t.initproc = q.initproc := congrArg Core.initproc h.core
  rw [hi]
  refine h.forEach (I := Queues.WF) hq fun a t₁ q₁ h₁ hq₁ _ => ?_
  obtain ⟨hwf, hl⟩ := Queues.reparentBody_keeps (i := q.initproc) (a := a) proc hq₁ hw
  refine ⟨?_, hwf, hl⟩
  unfold Ptable.reparentBody Queues.reparentBody
  rw [h₁.proc]
  split
  · have h₂ := h₁.modify a fun x => { x with parent := q.initproc }
    split
    · exact h₂.wakeup1 (hq₁.modify rfl rfl) _
    · exact h₂.sim
  · exact h₁.sim

theorem passChildren : Sim (t.passChildren proc) (q.passChildren proc) := by
  obtain ⟨hs, hw₁⟩ := h.foldlM (f := fun t i => t.reparent proc (.ready i) false)
    (g := fun q i => q.reparent proc (.ready i) false) (List.finRange (MAX + 1)) hq
    fun i _ t q h hq => ⟨h.reparent hq proc _ false (by simp), hq.reparent proc _ (by simp)⟩
  refine hs.bind fun t₁ h₁ => ?_
  have hw₂ : (Queues.reparent _ proc .sleep false).WF := hw₁.reparent proc _ (by simp)
  refine (h₁.reparent hw₁ proc _ _ (by simp)).bind fun t₂ h₂ => ?_
  have hw₃ : (Queues.reparent _ proc .zombie true).WF := hw₂.reparent proc _ fun _ => rfl
  refine (h₂.reparent hw₂ proc _ _ fun _ => rfl).bind fun t₃ h₃ => ?_
  have hw₄ : (Queues.reparent _ proc .running false).WF := hw₃.reparent proc _ (by simp)
  refine (h₃.reparent hw₃ proc _ _ (by simp)).bind fun t₄ h₄ => ?_
  exact h₄.reparent hw₄ proc _ _ (by simp)

theorem bury {ticks : Word} (hst : (q.proc proc).state = .running) :
    Sim (t.unlink .running .running "Error removing from running list" proc >>= fun t =>
      ((t.modify proc fun x => { x with state := .zombie }).addhead .zombie proc).sched proc ticks)
      ((q.bury proc).sched proc ticks) := by
  have hhome := Proc.home_running.mpr hst
  refine (h.take hq _ hst hhome).bind fun t₁ h₁ => ?_
  refine ((h₁.modify proc _).addhead (hq.not_mem_unlink hhome) .zombie).sched ?_
  simp

theorem exit {ticks : Word} (hst : (q.proc proc).state = .running) (hi : q.initproc ≠ some proc) :
    Sim (t.exit proc ticks) (q.exit proc ticks) := by
  unfold Ptable.exit
  rw [if_neg (by rw [congrArg Core.initproc h.core]; exact hi), h.proc]
  have hw₁ := hq.wakeup1 ((q.proc proc).parent.map .proc)
  refine (h.wakeup1 hq _).bind fun t₁ h₁ => ?_
  refine (h₁.passChildren hw₁ proc).bind fun t₂ h₂ => ?_
  have hw₂ := hw₁.passChildren proc
  have hrun : (((q.wakeup1 ((q.proc proc).parent.map .proc)).passChildren proc).proc
      proc).state = .running := by
    rw [hw₁.passChildren_toCore, Queues.wakeup1_toCore hq]
    exact Queues.passChildren_running proc _ hst
  exact h₂.bury hw₂ proc hrun

theorem reap {p : Slot} (hst : (q.proc p).state = .zombie) : Sim (t.reap p) (q.reap p) := by
  have hq₀ : (q.modify p fun x => { x with kstack := none }).WF := hq.modify rfl rfl
  have hst₀ : ((q.modify p fun x => { x with kstack := none }).proc p).state = .zombie := by
    simpa using hst
  have hhome := Proc.home_zombie.mpr hst₀
  refine ((h.modify p _).take hq₀ _ hst₀ hhome).bind fun t₁ h₁ => ?_
  exact (((h₁.modify p _).addhead (hq₀.not_mem_unlink hhome) .free).modify p _).sim

omit hq in
theorem havekids_ready (test : Slot → Bool) (is : List (Fin (MAX + 1))) (b : Bool) :
    is.foldlM (fun found i => if found then Except.ok true else do
      let r ← t.find (.ready i) test
      .ok r.isSome) b =
    .ok (b || is.any fun i => (q.list (.ready i)).any test) := by
  induction is generalizing b with
  | nil => simp [pure, Except.pure]
  | cons i is ih =>
    rw [List.foldlM_cons]
    cases b with
    | true => exact ih true
    | false =>
      rw [h.find, List.any_cons, Bool.false_or, ← find_isSome]
      exact ih _

omit hq in
theorem havekids : t.havekids proc = .ok (q.havekids proc) := by
  have hloop := h.havekids_ready fun p => decide ((q.proc p).parent = some proc)
  have hok : ∀ {α β : Type} (a : α) (f : α → Except Fault β), (Except.ok a >>= f) = f a :=
    fun _ _ => rfl
  unfold Ptable.havekids Queues.havekids
  rw [h.proc]
  dsimp only
  rw [h.find, hok, hloop, hok]
  simp only [h.find, hok, find_isSome, List.any_cons, List.any_append, List.any_map, List.any_nil,
    Bool.or_false, Function.comp_def]
  generalize (q.list .sleep).any _ = b₁
  generalize (List.finRange (MAX + 1)).any _ = b₂
  generalize (q.list .running).any _ = b₃
  cases b₁ <;> cases b₂ <;> cases b₃ <;> rfl

theorem wait {ticks : Word} (hst : (q.proc proc).state = .running) :
    SimR (t.wait proc ticks) (q.wait proc ticks) := by
  unfold Ptable.wait Queues.wait
  rw [h.proc, h.find]
  cases hf : (q.list .zombie).find? fun p => decide ((q.proc p).parent = some proc) with
  | some p =>
    have hz := hq.mem_iff.mp (List.mem_of_find?_eq_some hf)
    exact (h.reap hq (Proc.home_zombie.mp hz)).bindR fun t₁ h₁ => h₁.simR _
  | none =>
    rw [h.havekids]
    change SimR (if _ then _ else _) _
    dsimp only
    split
    · exact h.simR _
    · exact (h.sleep hq hst).bindR fun t₁ h₁ => h₁.simR _

end Exit

/-! ## The scheduler -/

section Scheduler

variable {t : Ptable} {q : Queues} (h : Rep t q) (hq : q.WF)

include h hq

omit hq in
theorem promoteFields (l : Queue) : Sim (t.promoteFields l) (q.promoteFields l) :=
  h.forEach (I := fun _ => True) trivial fun a _ _ h _ _ => ⟨(h.modify a _).sim, trivial, rfl⟩

theorem promoteReady {i : Fin (MAX + 1)} (hi : 0 < i) :
    Sim (t.forEachSaved (.ready i) (Ptable.promoteBody i)) (q.promoteReady i) := by
  refine h.forEachSaved (I := Queues.WF) hq fun a t q h hq ha => ?_
  obtain ⟨hw, hl⟩ := Queues.promoteBody_keeps hi hq ha
  refine ⟨?_, hw, Or.inr hl⟩
  have hhome := hq.mem_iff.mp ha
  obtain ⟨hst, hpr⟩ := Proc.home_ready.mp hhome
  have hpos : (0 : Int) < (i : Nat) := by exact_mod_cast hi
  have hmax : ((i : Nat) : Int) ≤ MAX := by omega
  refine (h.take hq _ hst hhome).bind fun t₁ h₁ => ?_
  refine (h₁.modify a _).addready (hq.not_mem_unlink hhome) ?_
  simp only [Queues.modify_toCore, Core.modify_self, Queues.unlink_toCore, hpr]
  omega

theorem promote (ticks : Word) : Sim (t.promote ticks) (q.promote ticks) := by
  have hw₁ := hq.promoteFields (l := .sleep) (by simp)
  have hw₂ := hw₁.promoteFields (l := .running) (by simp)
  refine (h.promoteFields .sleep).bind fun t₁ h₁ => ?_
  refine (h₁.promoteFields .running).bind fun t₂ h₂ => ?_
  have hpos : ∀ i ∈ (List.finRange (MAX + 1)).tail, 0 < i := by decide
  have hs := (h₂.foldlM (g := Queues.promoteReady) (List.finRange (MAX + 1)).tail hw₂
    fun i hi _ _ h hq => ⟨h.promoteReady hq (hpos i hi), hq.promoteReady (hpos i hi)⟩).1
  exact hs.bind fun t₃ h₃ =>
    (h₃.mapCore fun c => { c with promoteAtTime := ticks + TICKS_TO_PROMOTE }).sim

omit hq in
theorem firstReady : t.firstReady = q.firstReady := by
  unfold Ptable.firstReady Queues.firstReady
  simp only [(h.chain _).head_eq]

theorem promoteDue (ticks : Word) : Sim (t.promoteDue ticks) (q.promoteDue ticks) := by
  unfold Ptable.promoteDue Queues.promoteDue
  rw [congrArg Core.promoteAtTime h.core]
  split
  · exact h.promote hq ticks
  · exact h.sim

theorem scheduler (ticks : Word) : SimR (t.scheduler ticks) (q.scheduler ticks) := by
  have hw := (hq.promoteDue ticks).1
  refine (h.promoteDue hq ticks).bindR fun t₁ h₁ => ?_
  unfold Queues.scheduler
  generalize q.promoteDue ticks = q₁ at hw h₁
  rw [h₁.firstReady]
  dsimp only
  cases hf : q₁.firstReady with
  | none => exact h₁.simR none
  | some ip =>
    obtain ⟨i, p⟩ := ip
    have hhome := hw.mem_iff.mp (List.mem_of_head? (Queues.firstReady_some hf))
    refine (h₁.take hw _ (Proc.home_ready.mp hhome).1 hhome).bindR fun t₂ h₂ => ?_
    exact (((h₂.modify p _).addhead (hw.not_mem_unlink hhome) .running).modify p _).simR _

end Scheduler

/-! ## kill and setpriority -/

section Kill

variable {t : Ptable} {q : Queues} (h : Rep t q) (hq : q.WF)

include h hq

omit hq in
theorem findIn (test : Slot → Bool) (ls : List Queue) :
    t.findIn test ls = .ok (q.findIn test ls) := by
  induction ls with
  | nil => rfl
  | cons l ls ih =>
    unfold Ptable.findIn Queues.findIn
    rw [h.find]
    cases hf : (q.list l).find? test with
    | some p => rfl
    | none => exact ih

theorem kill (pid : Word) : SimR (t.kill pid) (q.kill pid) := by
  unfold Ptable.kill Queues.kill
  dsimp only
  rw [h.proc, h.find, h.findIn]
  cases hf : (q.list .sleep).find? fun p => decide ((q.proc p).pid = pid) with
  | some p =>
    have hst := Proc.home_sleep.mp (hq.mem_iff.mp (List.mem_of_find?_eq_some hf))
    have hs := (h.modify p fun x => { x with killed := true }).wake (p := p) (hq.modify rfl rfl)
      (by simpa using hst)
    exact hs.bindR fun t₁ h₁ => h₁.simR _
  | none =>
    cases q.findIn (fun p => decide ((q.proc p).pid = pid)) killQueues with
    | some p => exact (h.modify p _).simR _
    | none => exact h.simR none

theorem requeue {p : Slot} {i : Fin (MAX + 1)} {priority : Int}
    (hr : 0 ≤ priority ∧ priority ≤ MAX) (hhome : (q.proc p).home = some (.ready i)) :
    Sim (t.requeue p priority) (q.requeue i p priority) := by
  have hst := (Proc.home_ready.mp hhome).1
  have hready : readyAt (q.proc p).prio = .ok (.ready i) := by
    unfold readyAt
    rw [← Proc.home_runnable hst, hhome]
  obtain ⟨t₁, heq, -, h₁⟩ := h.remove_mem (hq.mem_iff.mpr hhome)
  have h₂ := (h₁.modify p fun x => { x with prio := priority }).addready
    (hq.not_mem_unlink hhome) (by simpa using hr)
  unfold Ptable.requeue Ptable.assertState
  rw [h.proc, hready, if_neg (by simp [hst])]
  dsimp only [bind, Except.bind]
  rw [heq]
  exact h₂.bind fun t₃ h₃ => (h₃.modify p _).sim

theorem setpriority (pid : Word) (priority : Int) :
    SimR (t.setpriority pid priority) (q.setpriority pid priority) := by
  unfold Ptable.setpriority Queues.setpriority
  split
  · exact h.simR _
  · next hrange =>
    have hr : 0 ≤ priority ∧ priority ≤ MAX := by omega
    dsimp only
    rw [h.proc, h.findIn, h.findIn]
    cases hf : q.findIn (fun p => decide ((q.proc p).pid = pid)) [.sleep, .running] with
    | some p => exact (h.modify p _).simR _
    | none =>
      dsimp only [bind, Except.bind]
      cases hf₂ : q.findIn (fun p => decide ((q.proc p).pid = pid))
          ((List.finRange (MAX + 1)).map .ready) with
      | none => exact h.simR _
      | some p =>
        dsimp only
        split
        · exact (h.modify p _).simR _
        · obtain ⟨-, l, hl, hp⟩ := Queues.findIn_some hf₂
          obtain ⟨i, -, rfl⟩ := List.mem_map.mp hl
          have hhome := hq.mem_iff.mp hp
          have hready : readyQueue (q.proc p).prio = some (.ready i) := by
            rw [← Proc.home_runnable (Proc.home_ready.mp hhome).1, hhome]
          rw [hready]
          exact (h.requeue hq hr hhome).bindR fun t₁ h₁ => h₁.simR _

end Kill

end Rep

/-! ## Boot -/

namespace Core

/-- The array `userinit` leaves: the first slot holds the first process. -/
def boot (ticks : Word) (kstack pgdir : Nat) : Core where
  proc := Function.update (fun _ => Proc.zero) 0
    { Proc.zero with
      state := .runnable
      pid := 1
      kstack := some kstack
      pgdir := some pgdir
      sz := PGSIZE
      startTicks := ticks
      budget := BUDGET
      uid := DEFUID
      gid := DEFGID
      name := "initcode" }
  promoteAtTime := ticks + TICKS_TO_PROMOTE
  nextpid := 2
  initproc := some 0

end Core

theorem Rep.fill_free {t : Ptable} {q : Queues} (h : Rep t q) (ps : List Slot) (hnd : ps.Nodup)
    (hno : ∀ p ∈ ps, ∀ l, p ∉ q.list l) :
    Sim (ps.foldlM (fun t current => t.addtail .free current) t)
      { q with list := Function.update q.list .free (q.list .free ++ ps) } := by
  induction ps generalizing t q with
  | nil =>
    rw [List.append_nil, Function.update_eq_self]
    exact h.sim
  | cons p ps ih =>
    obtain ⟨hp, hnd⟩ := List.nodup_cons.mp hnd
    rw [List.foldlM_cons]
    refine (h.addtail (hno p List.mem_cons_self) .free).bind fun t₁ h₁ => ?_
    have hno₁ : ∀ a ∈ ps, ∀ l, a ∉ (q.addtail .free p).list l := by
      intro a ha l hm
      rcases (Queues.mem_addtail q .free p).mp hm with ⟨rfl, -⟩ | hm
      · exact hp ha
      · exact hno a (List.mem_cons_of_mem _ ha) l hm
    simpa [Queues.addtail] using ih h₁ hnd hno₁

namespace Ptable

def freeQueues (ticks : Word) : Queues where
  toCore := { zero.toCore with promoteAtTime := ticks + TICKS_TO_PROMOTE }
  list := Function.update (fun _ => []) .free (List.finRange NPROC)

theorem freeQueues_wf (ticks : Word) : (freeQueues ticks).WF := by
  refine ⟨fun l => ?_, fun {p l} => ?_, fun p hu => absurd rfl hu⟩
  · unfold freeQueues
    by_cases hl : l = .free
    · subst hl
      simpa using List.nodup_finRange NPROC
    · simp [hl]
  · have hhome : ((freeQueues ticks).proc p).home = some .free := Proc.home_unused.mpr rfl
    rw [hhome]
    unfold freeQueues
    by_cases hl : l = .free
    · subst hl
      simp
    · simp [hl, Ne.symm hl]

theorem fill_freeQueues (ticks : Word) :
    Sim ((List.finRange NPROC).foldlM (fun t current => t.addtail .free current)
      { zero with promoteAtTime := ticks + TICKS_TO_PROMOTE }) (freeQueues ticks) := by
  have h₀ : Rep { zero with promoteAtTime := ticks + TICKS_TO_PROMOTE }
      { toCore := { zero.toCore with promoteAtTime := ticks + TICKS_TO_PROMOTE }
        list := fun _ => [] } :=
    ⟨rfl, fun _ => rfl, fun hp _ => absurd hp (by simp)⟩
  simpa [freeQueues] using
    h₀.fill_free (List.finRange NPROC) (List.nodup_finRange NPROC) (by simp)

def initQueues (ticks : Word) (kstack pgdir : Nat) : Queues :=
  let q := (freeQueues ticks).allocproc.2
  let q := q.allocprocInit 0 kstack ticks
  let q := { q with initproc := some 0 }
  q.modify 0 fun x =>
    { x with uid := DEFUID, gid := DEFGID, pgdir := some pgdir, sz := PGSIZE, name := "initcode" }

theorem initQueues_wf (ticks : Word) (kstack pgdir : Nat) :
    (initQueues ticks kstack pgdir).WF ∧ (initQueues ticks kstack pgdir).toCore =
      (Core.boot ticks kstack pgdir).modify 0 fun x => { x with state := .embryo } := by
  have hw := (freeQueues_wf ticks).allocproc
  have hfree : (freeQueues ticks).list .free = 0 :: (List.finRange NPROC).tail := by rfl
  have hc := (Queues.allocproc_cons hfree).2
  have hembryo : ((freeQueues ticks).allocproc.2.proc 0).state = .embryo := by rw [hc]; rfl
  constructor
  · have ha : ((freeQueues ticks).allocproc.2.allocprocInit 0 kstack ticks).WF :=
      hw.allocprocInit hembryo
    have hi : Queues.WF { (freeQueues ticks).allocproc.2.allocprocInit 0 kstack ticks with
      initproc := some 0 } := ha.withCore rfl
    exact hi.modify rfl rfl
  · have heq : (initQueues ticks kstack pgdir).toCore =
        ({ ((freeQueues ticks).toCore.allocproc 0).allocprocInit 0 kstack ticks with
          initproc := some 0 } : Core).modify 0 fun x =>
            { x with uid := DEFUID, gid := DEFGID, pgdir := some pgdir, sz := PGSIZE,
                     name := "initcode" } := by
      rw [← hc]
      rfl
    rw [heq]
    refine Core.ext' (fun p => ?_) rfl rfl rfl
    by_cases hp : p = 0
    · subst hp
      rfl
    · simp only [Core.modify_of_ne _ _ _ hp, Core.allocprocInit, Core.allocproc, Core.boot,
        Function.update_of_ne hp]
      rfl

theorem userinit_ok (ticks : Word) (kstack pgdir : Nat) :
    ∃ t q, userinit ticks kstack pgdir = .ok t ∧ Rep t q ∧ q.WF ∧
      q.toCore = Core.boot ticks kstack pgdir := by
  obtain ⟨t₁, heq₁, h₁⟩ := fill_freeQueues ticks
  obtain ⟨t₂, heq₂, h₂⟩ := h₁.allocproc (freeQueues_wf ticks)
  have hfirst : (freeQueues ticks).allocproc.1 = some 0 := rfl
  obtain ⟨hw, hc⟩ := initQueues_wf ticks kstack pgdir
  have h₃ : Rep _ (initQueues ticks kstack pgdir) := ((h₂.allocprocInit kstack ticks).mapCore
    fun c => { c with initproc := some 0 }).modify 0 _
  have hst : ((initQueues ticks kstack pgdir).proc 0).state = .embryo := by rw [hc]; rfl
  have hprio : ((initQueues ticks kstack pgdir).proc 0).prio = 0 := by rw [hc]; rfl
  have hready : (initQueues ticks kstack pgdir).list (.ready 0) = [] := by
    refine List.eq_nil_iff_forall_not_mem.mpr fun p hm => ?_
    obtain ⟨hr, -⟩ := Proc.home_ready.mp (hw.mem_iff.mp hm)
    rw [hc] at hr
    by_cases hp0 : p = 0
    · subst hp0
      cases hr
    · rw [Core.modify_of_ne _ _ _ hp0] at hr
      simp [Core.boot, hp0, Proc.zero] at hr
  have hhome := Proc.home_embryo.mpr hst
  obtain ⟨t₄, heq₄, h₄⟩ := h₃.take hw "Error removing from embryo list" hst hhome
  have h₅ := h₄.modify 0 fun x => { x with state := .runnable }
  have hhead : (t₄.modify 0 fun x => { x with state := .runnable }).pLists (.ready 0) = none := by
    rw [(h₅.chain _).head_eq]
    simp [Queues.unlink, hready]
  obtain ⟨t₅, heq₅, h₆⟩ := h₅.addtail (hw.not_mem_unlink hhome) (.ready 0)
  refine ⟨t₅, _, ?_, h₆, hw.forkReady hst hprio, ?_⟩
  · -- with an empty list, `addtail` makes the two assignments of `userinit`
    unfold addtail at heq₅
    rw [hhead] at heq₅
    rw [← heq₅]
    unfold userinit
    dsimp only
    rw [heq₁]
    dsimp only [bind, Except.bind]
    rw [heq₂, hfirst]
    dsimp only
    rw [heq₄]
  · rw [Queues.addtail_toCore, Queues.modify_toCore, Queues.unlink_toCore, hc]
    refine Core.ext' (fun p => ?_) rfl rfl rfl
    by_cases hp : p = 0
    · subst hp
      rfl
    · simp only [Core.modify_of_ne _ _ _ hp]

end Ptable

end Xv6
