import Xv6.Proc.World

/-!
# Every operation keeps the list discipline

One lemma for each operation on sequences: it keeps `Queues.WF`, and its effect on
the process array is the one of `Xv6.Proc.Array`. The loops go by `foldl_keeps`, whose
invariant is checked at one process of the list at a time.
-/

open Function (update update_of_ne)

namespace Xv6

open Ptable (charge lowerPrio killQueues)

namespace Queues

variable {l : Queue}

/-- The rule for the loops: a property that each turn keeps, while the turn leaves the
list it walks alone or takes its own process off it, holds at the end. -/
theorem foldl_keeps {b : Slot → Queues → Queues} {I : Queues → Prop}
    (hnd : ∀ q, I q → (q.list l).Nodup)
    (hbody : ∀ a q, I q → a ∈ q.list l → I (b a q) ∧
      ((b a q).list l = q.list l ∨ (b a q).list l = (q.list l).erase a))
    {q : Queues} (h : I q) : I ((q.list l).foldl (fun q a => b a q) q) := by
  suffices ∀ (rest pre : List Slot) (q : Queues), q.list l = pre ++ rest → I q →
      I (rest.foldl (fun q a => b a q) q) from this (q.list l) [] q rfl h
  intro rest
  induction rest with
  | nil => intro _ q _ h; exact h
  | cons a rest ih =>
    intro pre q hq h
    obtain ⟨hI, hl⟩ := hbody a q h (by rw [hq]; simp)
    rw [List.foldl_cons]
    rcases hl with hl | hl
    · exact ih (pre ++ [a]) _ (by rw [hl, hq]; simp) hI
    · refine ih pre _ ?_ hI
      have hnd' := hnd q h
      rw [hq, List.nodup_append] at hnd'
      have ha : a ∉ pre := fun hm => hnd'.2.2 a hm a (by simp) rfl
      rw [hl, hq, List.erase_append_right _ ha, List.erase_cons_head]

/-! ## Moves -/

theorem addready_list {q : Queues} {p : Slot} (hl : ∀ i, l ≠ .ready i) :
    (q.addready p).list l = q.list l := by
  unfold addready
  split
  · next l' h =>
    obtain ⟨i, rfl, -⟩ := readyQueue_eq_some.mp h
    simp [addtail, hl i]
  · rfl

theorem WF.move_ready {q : Queues} (h : q.WF) {p : Slot} {src : Queue} {f : Proc → Proc}
    (hsrc : (q.proc p).home = some src) (hst : (f (q.proc p)).state = .runnable)
    (hp : 0 ≤ (f (q.proc p)).prio ∧ (f (q.proc p)).prio ≤ MAX) :
    (((q.unlink src p).modify p f).addready p).WF := by
  obtain ⟨l, hl⟩ := readyQueue_of_range hp
  have hproc : ((q.unlink src p).modify p f).proc p = f (q.proc p) := by simp
  unfold addready
  rw [hproc, hl]
  exact h.move_tail hsrc (by rw [Proc.home_runnable hst, hl]) fun _ _ => hp

section Ops

variable {q : Queues} (h : q.WF) {p : Slot}

theorem allocproc_nil (hq : q.list .free = []) : q.allocproc = (none, q) := by
  unfold allocproc
  rw [hq]

theorem allocproc_cons {rest : List Slot} (hq : q.list .free = p :: rest) :
    q.allocproc.1 = some p ∧ q.allocproc.2.toCore = q.toCore.allocproc p := by
  unfold allocproc
  rw [hq]
  exact ⟨rfl, rfl⟩

theorem charge_state (ticks : Word) (x : Proc) : (charge ticks x).state = x.state := by
  unfold charge
  dsimp only
  split <;> rfl

theorem charge_prio (ticks : Word) {x : Proc} (hp : 0 ≤ x.prio ∧ x.prio ≤ MAX) :
    0 ≤ (charge ticks x).prio ∧ (charge ticks x).prio ≤ MAX := by
  unfold charge
  dsimp only
  split
  · split
    · next hne => dsimp only; omega
    · exact hp
  · exact hp

theorem wake_list_sleep : (q.wake p).list .sleep = (q.list .sleep).erase p := by
  unfold Queues.wake
  rw [addready_list (fun i => by simp)]
  simp [unlink]

theorem wake_list (hs : l ≠ .sleep) (hr : ∀ i, l ≠ .ready i) :
    (q.wake p).list l = q.list l := by
  unfold Queues.wake
  rw [addready_list hr]
  simp [unlink, hs]

include h

theorem WF.allocproc : q.allocproc.2.WF := by
  unfold Queues.allocproc
  split
  · exact h
  · next p rest hq =>
    have hst : (q.proc p).state = .unused := by
      rw [← Proc.home_unused, ← h.mem_iff, hq]
      simp
    have hm : (((q.unlink .free p).modify p fun x => { x with state := .embryo }).addhead
        .embryo p).WF :=
      h.move_head (Proc.home_unused.mpr hst) (Proc.home_embryo.mpr rfl) (fun _ he => absurd rfl he)
    exact (hm.modify (f := fun x => { x with pid := q.nextpid }) rfl rfl).withCore rfl

variable {ticks : Word}

theorem WF.allocprocInit {kstack : Nat} (hst : (q.proc p).state = .embryo) :
    (q.allocprocInit p kstack ticks).WF :=
  h.modify_prio rfl (by rw [hst]; simp) fun _ he => absurd hst he

theorem WF.freeEmbryo (hst : (q.proc p).state = .embryo) : (q.freeEmbryo p).WF :=
  h.move_head (Proc.home_embryo.mpr hst) (Proc.home_unused.mpr rfl) fun hu => absurd rfl hu

theorem WF.allocprocFail (hst : (q.proc p).state = .embryo) : (q.allocprocFail p).WF :=
  (h.modify (f := fun x => { x with kstack := none }) rfl rfl).freeEmbryo (by simpa using hst)

theorem WF.forkFail (hst : (q.proc p).state = .embryo) : (q.forkFail p).WF :=
  (h.modify (f := fun x => { x with pgdir := none, kstack := none }) rfl rfl).freeEmbryo
    (by simpa using hst)

theorem WF.forkCopy {np : Slot} {pgdir : Nat} : (q.forkCopy p np pgdir).WF :=
  h.modify rfl rfl

theorem WF.forkReady (hst : (q.proc p).state = .embryo) (hp : (q.proc p).prio = 0) :
    (q.forkReady p).WF := by
  refine h.move_tail (Proc.home_embryo.mpr hst) (Proc.home_ready.mpr ⟨rfl, ?_⟩) fun _ _ => ?_
  · simpa using hp
  · simp [hp]

theorem WF.sched : (q.sched p ticks).WF := h.modify rfl rfl

theorem WF.yield (hst : (q.proc p).state = .running) : (q.yield p ticks).WF := by
  have hp := h.prioOk p (by simp [hst]) (by simp [hst])
  refine WF.sched (h.move_ready (Proc.home_running.mpr hst) ?_ ?_)
  · rw [charge_state]
  · exact charge_prio ticks hp

theorem WF.sleep {chan : Chan} (hst : (q.proc p).state = .running) :
    (q.sleep p chan ticks).WF := by
  have hp := h.prioOk p (by simp [hst]) (by simp [hst])
  have hc : (q.modify p fun x => { x with chan := some chan }).WF := h.modify rfl rfl
  refine WF.sched (hc.move_head (p := p) (f := fun x => charge ticks { x with state := .sleeping })
    (Proc.home_running.mpr (by simpa using hst)) (Proc.home_sleep.mpr ?_)
    fun _ _ => charge_prio ticks (by simpa using hp))
  rw [charge_state]

theorem WF.wake (hst : (q.proc p).state = .sleeping) : (q.wake p).WF :=
  h.move_ready (Proc.home_sleep.mpr hst) rfl (h.prioOk p (by simp [hst]) (by simp [hst]))

omit h in
theorem wakeupBody_keeps (chan : Option Chan) {a : Slot} (h : q.WF)
    (ha : a ∈ q.list .sleep) : (wakeupBody chan a q).WF ∧
      ((wakeupBody chan a q).list .sleep = q.list .sleep ∨
        (wakeupBody chan a q).list .sleep = (q.list .sleep).erase a) := by
  unfold wakeupBody
  split
  · exact ⟨h.wake (Proc.home_sleep.mp (h.mem_iff.mp ha)), Or.inr wake_list_sleep⟩
  · exact ⟨h, Or.inl rfl⟩

theorem WF.wakeup1 (chan : Option Chan) : (q.wakeup1 chan).WF :=
  foldl_keeps (I := WF) (fun _ h => h.nodup _) (fun _ _ h ha => wakeupBody_keeps chan h ha) h

theorem WF.wakeup1_list (chan : Option Chan) (hs : l ≠ .sleep)
    (hr : ∀ i, l ≠ .ready i) : (q.wakeup1 chan).list l = q.list l := by
  refine (foldl_keeps (I := fun q' => q'.WF ∧ q'.list l = q.list l) (l := .sleep)
    (b := wakeupBody chan) (fun _ h => h.1.nodup _) (fun a q' h' ha => ?_) ⟨h, rfl⟩).2
  obtain ⟨hw, hl⟩ := wakeupBody_keeps chan h'.1 ha
  refine ⟨⟨hw, ?_⟩, hl⟩
  rw [← h'.2]
  unfold wakeupBody
  split
  · exact wake_list hs hr
  · rfl

end Ops

/-! ## The loops of `exit` -/

section Exit

variable {q : Queues} (h : q.WF) (proc : Slot)

theorem reparentBody_keeps {i : Option Slot} {wake : Bool} {a : Slot}
    (h : q.WF) (hw : wake = true → l = .zombie) :
    (reparentBody proc i wake a q).WF ∧ (reparentBody proc i wake a q).list l = q.list l := by
  unfold reparentBody
  split
  · have hm : (q.modify a fun x => { x with parent := i }).WF := h.modify rfl rfl
    split
    · next hwt =>
      refine ⟨hm.wakeup1 _, ?_⟩
      have := hw hwt
      subst this
      exact hm.wakeup1_list _ (by simp) (by simp)
    · exact ⟨hm, rfl⟩
  · exact ⟨h, rfl⟩

/-- The effect of one of the loops of `exit` on a process. -/
def adoptOn (l : Queue) (proc : Slot) (initproc : Option Slot) (x : Proc) : Proc :=
  if x.home = some l ∧ x.parent = some proc then { x with parent := initproc } else x

theorem wakeup1_modify_parent (c : Core) (chan : Option Chan) (a : Slot) (par : Option Slot) :
    (c.wakeup1 chan).modify a (fun x => { x with parent := par }) =
      (c.modify a fun x => { x with parent := par }).wakeup1 chan := by
  refine Core.ext' (fun p => ?_) rfl rfl rfl
  by_cases hp : p = a
  · subst hp
    simp only [Core.modify_self, Core.wakeup1, Core.map_proc, Core.wakeProc]
    split <;> rfl
  · simp only [Core.modify_of_ne _ _ _ hp, Core.wakeup1, Core.map_proc]

theorem wakeup1_wakeup1 (c : Core) (chan : Option Chan) :
    (c.wakeup1 chan).wakeup1 chan = c.wakeup1 chan := by
  refine Core.ext' (fun p => ?_) rfl rfl rfl
  simp only [Core.wakeup1, Core.map_proc, Core.wakeProc]
  split
  · simp
  · rfl

theorem wakeup1_parent (c : Core) (chan : Option Chan) (p : Slot) :
    ((c.wakeup1 chan).proc p).parent = (c.proc p).parent := by
  simp only [Core.wakeup1, Core.map_proc, Core.wakeProc]
  split <;> rfl

theorem foldl_adopt_wakeup1 (par : Option Slot) (chan : Option Chan) (l : List Slot) (c : Core) :
    l.foldl (fun c a => if (c.proc a).parent = some proc then
      c.modify a fun x => { x with parent := par } else c) (c.wakeup1 chan) =
    (l.foldl (fun c a => if (c.proc a).parent = some proc then
      c.modify a fun x => { x with parent := par } else c) c).wakeup1 chan := by
  induction l generalizing c with
  | nil => rfl
  | cons a l ih =>
    simp only [List.foldl_cons, wakeup1_parent]
    by_cases ha : (c.proc a).parent = some proc
    · simp only [ha, ↓reduceIte, wakeup1_modify_parent, ih]
    · simp only [ha, ↓reduceIte, ih]

/-- The loop over the zombies on the array: the wakeups of init in the middle of it
come to one at its end, if there was any. -/
theorem foldl_adopt_wake {l : List Slot} (hnd : l.Nodup) (par : Option Slot) (chan : Option Chan)
    (c : Core) :
    l.foldl (fun c a => if (c.proc a).parent = some proc then
      (c.modify a fun x => { x with parent := par }).wakeup1 chan else c) c =
    if ∃ a ∈ l, (c.proc a).parent = some proc then
      (l.foldl (fun c a => if (c.proc a).parent = some proc then
        c.modify a fun x => { x with parent := par } else c) c).wakeup1 chan
    else c := by
  induction l generalizing c with
  | nil => simp
  | cons a l ih =>
    obtain ⟨hal, hnd⟩ := List.nodup_cons.mp hnd
    simp only [List.foldl_cons]
    rw [ih hnd]
    by_cases ha : (c.proc a).parent = some proc
    · simp only [ha, ↓reduceIte, List.mem_cons, exists_eq_or_imp, true_or, foldl_adopt_wakeup1]
      split
      · exact wakeup1_wakeup1 _ _
      · next hno =>
        -- no other zombie child: the rest of the loop changes nothing
        have hrest : ∀ b ∈ l, ¬ (c.proc b).parent = some proc := by
          intro b hb he
          refine hno ⟨b, hb, ?_⟩
          have hba : b ≠ a := fun e => hal (e ▸ hb)
          rwa [wakeup1_parent, Core.modify_of_ne _ _ _ hba]
        rw [foldl_modify hnd (fun x => x.parent = some proc)]
        congr 1
        refine Core.ext' (fun p => ?_) rfl rfl rfl
        by_cases hp : p ∈ l
        · have hpa : p ≠ a := fun e => hal (e ▸ hp)
          simp [hp, Core.modify_of_ne _ _ _ hpa, hrest p hp]
        · simp [hp]
    · simp only [ha, ↓reduceIte, List.mem_cons, exists_eq_or_imp, false_or]

def aliveQueues : List Queue := (List.finRange (MAX + 1)).map .ready ++ [.sleep]

/-- The effect of several of the loops of `exit` on a process. -/
def adoptIn (ls : List Queue) (proc : Slot) (initproc : Option Slot) (x : Proc) : Proc :=
  if (∃ l ∈ ls, x.home = some l) ∧ x.parent = some proc then { x with parent := initproc } else x

theorem adoptIn_adoptOn (l : Queue) (ls : List Queue) (initproc : Option Slot) (x : Proc) :
    adoptIn ls proc initproc (adoptOn l proc initproc x) = adoptIn (l :: ls) proc initproc x := by
  unfold adoptIn adoptOn
  by_cases hpar : x.parent = some proc
  · by_cases hl : x.home = some l
    · simp only [hl, hpar, and_self, ↓reduceIte, List.mem_cons, exists_eq_or_imp, true_or]
      split <;> rfl
    · simp [hl, hpar]
  · simp [hpar]

theorem passChildren_eq (q : Queues) (proc : Slot) :
    q.passChildren proc =
      [Queue.running, .embryo].foldl (fun q l => q.reparent proc l false)
        ((aliveQueues.foldl (fun q l => q.reparent proc l false) q).reparent proc
          .zombie true) := by
  simp [passChildren, aliveQueues, List.foldl_append, List.foldl_map]

theorem home_mem_alive {x : Proc} (hp : x.PrioOk) :
    (∃ l ∈ aliveQueues, x.home = some l) ↔ x.state = .runnable ∨ x.state = .sleeping := by
  constructor
  · rintro ⟨l, hl, hx⟩
    unfold aliveQueues at hl
    rw [List.mem_append, List.mem_map, List.mem_singleton] at hl
    rcases hl with ⟨i, -, rfl⟩ | rfl
    · exact Or.inl (Proc.home_ready.mp hx).1
    · exact Or.inr (Proc.home_sleep.mp hx)
  · rintro (hs | hs)
    · obtain ⟨l, hl⟩ := readyQueue_of_range (hp (by simp [hs]) (by simp [hs]))
      obtain ⟨i, rfl, -⟩ := readyQueue_eq_some.mp hl
      exact ⟨.ready i, by simp [aliveQueues], by rw [Proc.home_runnable hs, hl]⟩
    · exact ⟨.sleep, by simp [aliveQueues], Proc.home_sleep.mpr hs⟩

/-- The effect of the loops of `exit`, by the state of the process. -/
def adoptState (ss : List ProcState) (proc : Slot) (initproc : Option Slot) (x : Proc) : Proc :=
  if x.state ∈ ss ∧ x.parent = some proc then { x with parent := initproc } else x

theorem adoptIn_alive {x : Proc} (hp : x.PrioOk) (initproc : Option Slot) :
    adoptIn aliveQueues proc initproc x = adoptState [.runnable, .sleeping] proc initproc x := by
  refine if_congr ?_ rfl rfl
  rw [home_mem_alive hp]
  simp

theorem adoptIn_dead (initproc : Option Slot) (x : Proc) :
    adoptIn [.running, .embryo] proc initproc x =
      adoptState [.running, .embryo] proc initproc x := by
  refine if_congr ?_ rfl rfl
  simp [Proc.home_running, Proc.home_embryo]

theorem adoptOn_zombie (initproc : Option Slot) (x : Proc) :
    adoptOn .zombie proc initproc x = adoptState [.zombie] proc initproc x := by
  refine if_congr ?_ rfl rfl
  simp [Proc.home_zombie]

theorem adoptState_all (initproc : Option Slot) (x : Proc) :
    adoptState [.running, .embryo] proc initproc
      (adoptState [.zombie] proc initproc (adoptState [.runnable, .sleeping] proc initproc x)) =
      Core.adoptProc proc initproc x := by
  unfold adoptState Core.adoptProc
  cases hs : x.state <;> by_cases hp : x.parent = some proc <;> simp [hs, hp]

theorem adoptState_wake (chan : Option Chan) (initproc : Option Slot) (x : Proc) :
    adoptState [.running, .embryo] proc initproc (Core.wakeProc chan x) =
      Core.wakeProc chan (adoptState [.running, .embryo] proc initproc x) := by
  unfold adoptState Core.wakeProc
  cases hs : x.state with
  | sleeping => by_cases hc : x.chan = chan <;> simp [hs, hc]
  | running | embryo => by_cases hp : x.parent = some proc <;> simp [hs, hp]
  | _ => simp [hs]

theorem passChildren_running {c : Core} (chan : Option Chan) {p : Slot}
    (hst : (c.proc p).state = .running) :
    (((c.wakeup1 chan).passChildren proc).proc p).state = .running := by
  have hw : (c.wakeup1 chan).proc p = c.proc p := Core.wakeProc_of_ne _ _ (by simp [hst])
  by_cases hz : (c.wakeup1 chan).ZombieChild proc
  · rw [Core.passChildren_proc_of_zombie hz, hw, Core.wakeProc_of_ne _ _ (by simp [hst]),
      Core.adoptProc_state, hst]
  · rw [Core.passChildren_proc_of_none hz, hw, Core.adoptProc_state, hst]

include h

theorem WF.reparent (l : Queue) {wake : Bool} (hw : wake = true → l = .zombie) :
    (q.reparent proc l wake).WF :=
  foldl_keeps (I := WF) (fun _ h => h.nodup _)
    (fun _ _ h _ => ⟨(reparentBody_keeps proc h hw).1, Or.inl (reparentBody_keeps proc h hw).2⟩) h

theorem WF.reparent_toCore (l : Queue) :
    (q.reparent proc l false).toCore = q.toCore.map (adoptOn l proc q.initproc) := by
  unfold Queues.reparent
  rw [h.foldl_toCore l (fun x => x.parent = some proc) (fun x => { x with parent := q.initproc })
    fun q' a => by unfold reparentBody; split <;> rfl]
  rfl

theorem WF.reparent_zombie_toCore :
    (q.reparent proc .zombie true).toCore =
      if ∃ p, (q.proc p).state = .zombie ∧ (q.proc p).parent = some proc then
        (q.toCore.map (adoptOn .zombie proc q.initproc)).wakeup1 (q.initproc.map .proc)
      else q.toCore := by
  have hbody : ∀ (l : List Slot) (q' : Queues), q'.WF →
      (l.foldl (fun q' a => reparentBody proc q.initproc true a q') q').toCore =
      l.foldl (fun c a => if (c.proc a).parent = some proc then
        (c.modify a fun x => { x with parent := q.initproc }).wakeup1 (q.initproc.map .proc)
        else c) q'.toCore := by
    intro l
    induction l with
    | nil => intro q' _; rfl
    | cons a l ih =>
      intro q' hq'
      simp only [List.foldl_cons]
      rw [ih _ (reparentBody_keeps (l := .zombie) proc hq' (fun _ => rfl)).1]
      congr 1
      unfold reparentBody
      split
      · exact wakeup1_toCore (hq'.modify rfl rfl) _
      · rfl
  unfold Queues.reparent
  have hmap : (q.list .zombie).foldl (fun c a => if (c.proc a).parent = some proc then
      c.modify a fun x => { x with parent := q.initproc } else c) q.toCore =
      q.toCore.map (adoptOn .zombie proc q.initproc) :=
    h.foldl_modify .zombie (fun x => x.parent = some proc) _
  have hex : (∃ a ∈ q.list .zombie, (q.proc a).parent = some proc) ↔
      ∃ p, (q.proc p).state = .zombie ∧ (q.proc p).parent = some proc := by
    simp only [h.mem_iff, Proc.home_zombie]
  rw [hbody _ _ h, foldl_adopt_wake proc (h.nodup _), hmap]
  simp only [hex]

theorem WF.foldl_reparent (ls : List Queue) :
    (ls.foldl (fun q l => q.reparent proc l false) q).WF := by
  induction ls generalizing q with
  | nil => exact h
  | cons l ls ih => exact ih (h.reparent proc l (by simp))

theorem WF.foldl_reparent_toCore (ls : List Queue) :
    (ls.foldl (fun q l => q.reparent proc l false) q).toCore =
      q.toCore.map (adoptIn ls proc q.initproc) := by
  induction ls generalizing q with
  | nil => simp [adoptIn, Core.map]
  | cons l ls ih =>
    have hq := h.reparent_toCore proc l
    have hi : (q.reparent proc l false).initproc = q.initproc := by rw [hq]; rfl
    rw [List.foldl_cons, ih (h.reparent proc l (by simp)), hi, hq]
    refine Core.ext' (fun p => ?_) rfl rfl rfl
    exact adoptIn_adoptOn proc l ls q.initproc (q.proc p)

theorem WF.passChildren : (q.passChildren proc).WF := by
  rw [passChildren_eq]
  exact ((h.foldl_reparent proc _).reparent proc _ fun _ => rfl).foldl_reparent proc _

/-- On the array `exit` gives every live child of `proc` to init, and wakes init up if
one of them is a zombie. -/
theorem WF.passChildren_toCore :
    (q.passChildren proc).toCore = q.toCore.passChildren proc := by
  rw [passChildren_eq]
  have h₁ := h.foldl_reparent proc aliveQueues
  have hc₁ := h.foldl_reparent_toCore proc aliveQueues
  generalize aliveQueues.foldl (fun q l => q.reparent proc l false) q = q₁ at h₁ hc₁
  have hi₁ : q₁.initproc = q.initproc := by rw [hc₁]; rfl
  have ha₁ : q₁.promoteAtTime = q.promoteAtTime := by rw [hc₁]; rfl
  have hn₁ : q₁.nextpid = q.nextpid := by rw [hc₁]; rfl
  have hproc₁ : ∀ p, q₁.proc p =
      adoptState [.runnable, .sleeping] proc q.initproc (q.proc p) := by
    intro p
    rw [hc₁, ← adoptIn_alive proc (h.prioOk p)]
    rfl
  -- the first loops do not touch the zombies
  have hflag : (∃ p, (q₁.proc p).state = .zombie ∧ (q₁.proc p).parent = some proc) ↔
      ∃ p, (q.proc p).state = .zombie ∧ (q.proc p).parent = some proc := by
    refine exists_congr fun p => ?_
    rw [hproc₁]
    unfold adoptState
    cases hs : (q.proc p).state <;> by_cases hp : (q.proc p).parent = some proc <;> simp [hs, hp]
  have h₂ := h₁.reparent proc .zombie (fun _ : true = true => rfl)
  have hc₂ := h₁.reparent_zombie_toCore proc
  rw [hi₁] at hc₂
  have hi₂ : (q₁.reparent proc .zombie true).initproc = q.initproc := by
    rw [hc₂]
    split
    · exact hi₁
    · exact hi₁
  rw [h₂.foldl_reparent_toCore, hi₂, hc₂]
  unfold Core.passChildren
  by_cases hf : ∃ p, (q.proc p).state = .zombie ∧ (q.proc p).parent = some proc
  · rw [if_pos (hflag.mpr hf), if_pos hf]
    refine Core.ext' (fun p => ?_) ha₁ hn₁ hi₁
    simp only [Core.map_proc, Core.wakeup1, adoptIn_dead, adoptOn_zombie]
    rw [adoptState_wake, hproc₁, adoptState_all]
  · rw [if_neg (mt hflag.mp hf), if_neg hf]
    refine Core.ext' (fun p => ?_) ha₁ hn₁ hi₁
    simp only [Core.map_proc, adoptIn_dead, hproc₁]
    rw [← adoptState_all]
    congr 1
    -- there is no zombie child for the middle loop
    unfold adoptState
    rw [if_neg (c := _ ∈ [ProcState.zombie] ∧ _)]
    rintro ⟨hz, hpar⟩
    refine hf (hflag.mp ⟨p, ?_⟩)
    rw [hproc₁]
    unfold adoptState
    exact ⟨by simpa using hz, hpar⟩

theorem WF.exit {ticks : Word} (hst : (q.proc proc).state = .running) :
    (q.exit proc ticks).WF ∧ (q.exit proc ticks).toCore = q.toCore.exit proc ticks := by
  have hw := h.wakeup1 ((q.proc proc).parent.map .proc)
  have hwc := wakeup1_toCore h ((q.proc proc).parent.map .proc)
  have hpc := hw.passChildren_toCore proc
  rw [hwc] at hpc
  have hrun : (((q.wakeup1 ((q.proc proc).parent.map .proc)).passChildren proc).proc
      proc).state = .running := by
    rw [hpc]
    exact passChildren_running proc _ hst
  have hq := hw.passChildren proc
  have hprio := hq.prioOk proc (by simp [hrun]) (by simp [hrun])
  have hb := hq.move_head (p := proc) (f := fun x => { x with state := .zombie })
    (Proc.home_running.mpr hrun) (Proc.home_zombie.mpr rfl) fun _ _ => hprio
  refine ⟨hb.sched, ?_⟩
  unfold Queues.exit Core.exit bury
  rw [sched_toCore, addhead_toCore, modify_toCore, unlink_toCore, hpc]

end Exit

section Wait

variable {q : Queues} (h : q.WF) {p : Slot}

theorem reap_toCore : (q.reap p).toCore = q.toCore.reap p := rfl

include h

theorem WF.reap (hst : (q.proc p).state = .zombie) : (q.reap p).WF := by
  have hk : (q.modify p fun x => { x with kstack := none }).WF := h.modify rfl rfl
  have hm := hk.move_head (p := p) (f := fun x => { x with state := .unused })
    (Proc.home_zombie.mpr (by simpa using hst)) (Proc.home_unused.mpr rfl) fun hu => absurd rfl hu
  exact hm.modify rfl rfl

/-- The lists `wait` looks at after the zombies hold every live process that is not a
zombie. -/
theorem WF.havekids_iff (proc : Slot) : q.havekids proc = true ↔
    ∃ p, (q.proc p).state ≠ .unused ∧ (q.proc p).state ≠ .zombie ∧
      (q.proc p).parent = some proc := by
  unfold havekids
  simp only [List.any_eq_true, decide_eq_true_eq]
  constructor
  · rintro ⟨l, hl, p, hp, hpar⟩
    rw [h.mem_iff] at hp
    refine ⟨p, ?_, ?_, hpar⟩
    · intro hs
      rw [Proc.home_unused.mpr hs] at hp
      cases hp
      simp at hl
    · intro hs
      rw [Proc.home_zombie.mpr hs] at hp
      cases hp
      simp at hl
  · rintro ⟨p, hu, hz, hpar⟩
    obtain ⟨l, hl⟩ := h.exists_mem p
    refine ⟨l, ?_, p, hl, hpar⟩
    rw [h.mem_iff] at hl
    cases l with
    | free => exact absurd (Proc.home_unused.mp hl) hu
    | zombie => exact absurd (Proc.home_zombie.mp hl) hz
    | _ => simp

theorem WF.wait {proc : Slot} {ticks : Word} (hst : (q.proc proc).state = .running) :
    (q.wait proc ticks).2.WF := by
  unfold Queues.wait
  split
  · next p hf =>
    have hp := List.mem_of_find?_eq_some hf
    exact h.reap (Proc.home_zombie.mp (h.mem_iff.mp hp))
  · split
    · exact h
    · exact h.sleep hst

end Wait

/-! ## The scheduler -/

section Scheduler

variable {q : Queues} (h : q.WF)

theorem lowerPrio_state (x : Proc) : (lowerPrio x).state = x.state := by
  unfold lowerPrio
  split <;> rfl

theorem lowerPrio_ok {x : Proc} (hp : x.PrioOk) : (lowerPrio x).PrioOk := by
  intro hu he
  rw [lowerPrio_state] at hu he
  have := hp hu he
  unfold lowerPrio
  split
  · dsimp only; omega
  · exact this

/-- The effect of promoting the ready lists `is` on a process. -/
def promoteOn (is : List (Fin (MAX + 1))) (x : Proc) : Proc :=
  if x.state = .runnable ∧ ∃ i ∈ is, x.prio = (i : Nat) then { x with prio := x.prio - 1 } else x

variable {i : Fin (MAX + 1)}

/-- The lists are promoted from low to high, so a process that was moved down is not met
again. -/
theorem promoteOn_cons {is : List (Fin (MAX + 1))} (hi : ∀ j ∈ is, i < j)
    (x : Proc) :
    promoteOn is (if x.home = some (.ready i) then { x with prio := x.prio - 1 } else x) =
      promoteOn (i :: is) x := by
  unfold promoteOn
  by_cases hx : x.home = some (.ready i)
  · obtain ⟨hst, hpr⟩ := Proc.home_ready.mp hx
    have hno : ∀ j ∈ is, ¬ ((i : Nat) : Int) - 1 = ((j : Nat) : Int) := by
      intro j hj he
      have : (i : Nat) < j := hi j hj
      omega
    simpa [hx, hst, hpr] using hno
  · rw [if_neg hx]
    refine if_congr ?_ rfl rfl
    rw [Proc.home_ready] at hx
    constructor
    · rintro ⟨hst, j, hj, he⟩
      exact ⟨hst, j, List.mem_cons_of_mem _ hj, he⟩
    · rintro ⟨hst, j, hj, he⟩
      rcases List.mem_cons.mp hj with rfl | hj
      · exact absurd ⟨hst, he⟩ hx
      · exact ⟨hst, j, hj, he⟩

theorem promoteOn_all {x : Proc} (hp : x.PrioOk) :
    promoteOn (List.finRange (MAX + 1)).tail
      (if (if x.home = some .sleep then lowerPrio x else x).home = some .running then
        lowerPrio (if x.home = some .sleep then lowerPrio x else x)
      else if x.home = some .sleep then lowerPrio x else x) = Core.promoteProc x := by
  have hmem : ∀ y : Proc, 0 ≤ y.prio ∧ y.prio ≤ MAX →
      ((∃ i ∈ (List.finRange (MAX + 1)).tail, y.prio = ((i : Nat) : Int)) ↔ y.prio > 0) := by
    intro y hy
    constructor
    · rintro ⟨i, hi, he⟩
      have hpos : ∀ i ∈ (List.finRange (MAX + 1)).tail, 0 < (i : Nat) := by decide
      have := hpos i hi
      omega
    · intro hpos
      refine ⟨⟨y.prio.toNat, by omega⟩, ?_, by simp [Int.toNat_of_nonneg hy.1]⟩
      have : ∀ i : Fin (MAX + 1), 0 < i → i ∈ (List.finRange (MAX + 1)).tail := by decide
      refine this _ ?_
      change 0 < y.prio.toNat
      omega
  unfold Core.promoteProc promoteOn
  simp only [Proc.home_sleep, Proc.home_running]
  cases hs : x.state with
  | sleeping | running => simp [hs, lowerPrio_state]
  | runnable =>
    simp only [reduceCtorEq, ↓reduceIte, hs, true_and, or_true]
    rw [if_congr (hmem x (hp (by simp [hs]) (by simp [hs]))) rfl rfl]
    unfold lowerPrio
    rw [hs]
  | _ => simp [hs]

theorem firstReady_some {p : Slot} (hf : q.firstReady = some (i, p)) :
    (q.list (.ready i)).head? = some p := by
  obtain ⟨j, -, hj⟩ := List.exists_of_findSome?_eq_some hf
  rw [Option.map_eq_some_iff] at hj
  obtain ⟨p', hp', he⟩ := hj
  cases he
  exact hp'

include h

omit h in
theorem modify_lowerPrio (h : q.WF) {a : Slot} (ha : (q.proc a).state ≠ .runnable) :
    (q.modify a lowerPrio).WF :=
  h.modify_prio (lowerPrio_state _) ha (lowerPrio_ok (h.prioOk a))

theorem WF.promoteFields (hl : ∀ i, l ≠ .ready i) : (q.promoteFields l).WF := by
  refine foldl_keeps (I := WF) (b := fun a q => q.modify a lowerPrio)
    (fun _ h => h.nodup _) (fun a q h ha => ⟨modify_lowerPrio h ?_, Or.inl rfl⟩) h
  intro hs
  have hm := h.mem_iff.mp ha
  rw [Proc.home_runnable hs] at hm
  obtain ⟨i, rfl, -⟩ := readyQueue_eq_some.mp hm
  exact hl i rfl

theorem WF.promoteFields_toCore (l : Queue) :
    (q.promoteFields l).toCore =
      q.toCore.map fun x => if x.home = some l then lowerPrio x else x := by
  unfold Queues.promoteFields
  rw [h.foldl_toCore l (fun _ => True) lowerPrio fun q' a => by simp]
  simp

omit h in
theorem promoteBody_keeps (hi : 0 < i) {a : Slot} (h : q.WF)
    (ha : a ∈ q.list (.ready i)) :
    (promoteBody i a q).WF ∧
      (promoteBody i a q).list (.ready i) = (q.list (.ready i)).erase a := by
  obtain ⟨hst, hpr⟩ := Proc.home_ready.mp (h.mem_iff.mp ha)
  have hpos : (0 : Int) < (i : Nat) := by exact_mod_cast hi
  have hmax : ((i : Nat) : Int) ≤ MAX := by omega
  constructor
  · exact h.move_ready (Proc.home_ready.mpr ⟨hst, hpr⟩) (by exact hst)
      (by dsimp only; omega)
  · unfold promoteBody addready
    split
    · next l hl =>
      obtain ⟨j, rfl, hj⟩ := readyQueue_eq_some.mp hl
      have hji : (Queue.ready i) ≠ .ready j := by
        rintro ⟨rfl⟩
        simp only [modify_toCore, unlink_toCore, Core.modify_self, hpr] at hj
        omega
      simp [addtail, unlink, hji]
    · simp [unlink]

theorem WF.promoteReady (hi : 0 < i) : (q.promoteReady i).WF :=
  foldl_keeps (I := WF) (fun _ h => h.nodup _)
    (fun _ _ h ha => ⟨(promoteBody_keeps hi h ha).1, Or.inr (promoteBody_keeps hi h ha).2⟩) h

theorem WF.promoteReady_toCore (i : Fin (MAX + 1)) :
    (q.promoteReady i).toCore =
      q.toCore.map fun x => if x.home = some (.ready i) then
        { x with prio := x.prio - 1 } else x := by
  unfold Queues.promoteReady
  rw [h.foldl_toCore (.ready i) (fun _ => True) (fun x => { x with prio := x.prio - 1 })
    fun q' a => by simp [promoteBody]]
  simp

theorem WF.foldl_promoteReady (is : List (Fin (MAX + 1))) (hpos : ∀ i ∈ is, 0 < i)
    (hsort : is.Pairwise (· < ·)) :
    (is.foldl Queues.promoteReady q).WF ∧
      (is.foldl Queues.promoteReady q).toCore = q.toCore.map (promoteOn is) := by
  induction is generalizing q with
  | nil => exact ⟨h, by simp [promoteOn, Core.map]⟩
  | cons i is ih =>
    rw [List.pairwise_cons] at hsort
    obtain ⟨hw, hc⟩ := ih (h.promoteReady (hpos i List.mem_cons_self))
      (fun j hj => hpos j (List.mem_cons_of_mem _ hj)) hsort.2
    refine ⟨hw, ?_⟩
    rw [List.foldl_cons, hc, h.promoteReady_toCore]
    refine Core.ext' (fun p => ?_) rfl rfl rfl
    exact promoteOn_cons hsort.1 (q.proc p)

theorem WF.promote (ticks : Word) :
    (q.promote ticks).WF ∧ (q.promote ticks).toCore = q.toCore.promote ticks := by
  have h₁ := h.promoteFields (l := .sleep) (by simp)
  have h₂ := h₁.promoteFields (l := .running) (by simp)
  obtain ⟨h₃, hc₃⟩ := h₂.foldl_promoteReady (List.finRange (MAX + 1)).tail (by decide)
    (by decide)
  refine ⟨h₃.withCore rfl, ?_⟩
  have hc : (((q.promoteFields .sleep).promoteFields .running).toCore.map
      (promoteOn (List.finRange (MAX + 1)).tail)) = q.toCore.map Core.promoteProc := by
    rw [h₁.promoteFields_toCore, h.promoteFields_toCore]
    refine Core.ext' (fun p => ?_) rfl rfl rfl
    exact promoteOn_all (h.prioOk p)
  rw [hc] at hc₃
  unfold Queues.promote Core.promote
  dsimp only
  rw [hc₃]

theorem WF.promoteDue (ticks : Word) :
    (q.promoteDue ticks).WF ∧ (q.promoteDue ticks).toCore = q.toCore.promoteDue ticks := by
  unfold Queues.promoteDue Core.promoteDue
  split
  · exact h.promote ticks
  · exact ⟨h, rfl⟩

theorem WF.dispatch {p : Slot} (hp : p ∈ q.list (.ready i)) (ticks : Word) :
    (q.dispatch i p ticks).WF ∧ (q.dispatch i p ticks).toCore = q.toCore.dispatch p ticks := by
  have hhome := h.mem_iff.mp hp
  have hst := (Proc.home_ready.mp hhome).1
  have hprio := h.prioOk p (by simp [hst]) (by simp [hst])
  have hm := h.move_head (p := p) (f := fun x => { x with state := .running }) hhome
    (Proc.home_running.mpr rfl) fun _ _ => hprio
  exact ⟨hm.modify rfl rfl, rfl⟩

theorem WF.scheduler (ticks : Word) :
    (q.scheduler ticks).2.WF ∧
      match (q.scheduler ticks).1 with
      | some p => ((q.toCore.promoteDue ticks).proc p).state = .runnable ∧
          (q.scheduler ticks).2.toCore = (q.toCore.promoteDue ticks).dispatch p ticks
      | none => (q.scheduler ticks).2.toCore = q.toCore.promoteDue ticks := by
  obtain ⟨hw, hc⟩ := h.promoteDue ticks
  unfold Queues.scheduler
  rw [← hc]
  generalize q.promoteDue ticks = q₁ at hw
  dsimp only
  cases hf : q₁.firstReady with
  | none => exact ⟨hw, rfl⟩
  | some ip =>
    obtain ⟨i, p⟩ := ip
    have hmem := List.mem_of_head? (firstReady_some hf)
    obtain ⟨hd, hdc⟩ := hw.dispatch hmem ticks
    exact ⟨hd, (Proc.home_ready.mp (hw.mem_iff.mp hmem)).1, hdc⟩

end Scheduler

/-! ## kill and setpriority -/

section Kill

variable {q : Queues} (h : q.WF)

theorem findIn_some {test : Slot → Bool} {ls : List Queue} {p : Slot}
    (hf : q.findIn test ls = some p) : test p = true ∧ ∃ l ∈ ls, p ∈ q.list l := by
  induction ls with
  | nil => cases hf
  | cons l ls ih =>
    unfold findIn at hf
    cases hl : (q.list l).find? test with
    | some p' =>
      rw [hl] at hf
      cases hf
      exact ⟨List.find?_some hl, l, List.mem_cons_self, List.mem_of_find?_eq_some hl⟩
    | none =>
      rw [hl, Option.none_or] at hf
      obtain ⟨ht, l', hl', hp⟩ := ih hf
      exact ⟨ht, l', List.mem_cons_of_mem _ hl', hp⟩

theorem findIn_none {test : Slot → Bool} {ls : List Queue} (hf : q.findIn test ls = none)
    (hl : l ∈ ls) {p : Slot} (hp : p ∈ q.list l) : test p = false := by
  induction ls with
  | nil => cases hl
  | cons l' ls ih =>
    unfold findIn at hf
    rw [Option.or_eq_none_iff] at hf
    rcases List.mem_cons.mp hl with rfl | hl
    · exact Bool.eq_false_iff.mpr (List.find?_eq_none.mp hf.1 p hp)
    · exact ih hf.2 hl

include h

/-- `kill` marks a live process with the pid it is given, and wakes it up if it
sleeps; it fails only if there is none. -/
theorem WF.kill (pid : Word) :
    (q.kill pid).2.WF ∧
      match (q.kill pid).1 with
      | some p => (q.proc p).pid = pid ∧ (q.proc p).state ≠ .unused ∧ (q.proc p).state ≠ .zombie ∧
          (q.kill pid).2.toCore = q.toCore.kill p
      | none => (q.kill pid).2 = q ∧ ∀ p, (q.proc p).pid = pid → (q.proc p).state = .unused ∨
          (q.proc p).state = .zombie := by
  unfold Queues.kill
  dsimp only
  cases hs : (q.list .sleep).find? fun p => decide ((q.proc p).pid = pid) with
  | some p =>
    have hst := Proc.home_sleep.mp (h.mem_iff.mp (List.mem_of_find?_eq_some hs))
    have hpid : (q.proc p).pid = pid := by simpa using List.find?_some hs
    have hm : (q.modify p fun x => { x with killed := true }).WF := h.modify rfl rfl
    refine ⟨hm.wake (by simpa using hst), hpid, by simp [hst], by simp [hst], ?_⟩
    rw [wake_toCore, modify_toCore]
    unfold Core.kill
    dsimp only
    rw [if_pos hst]
  | none =>
    cases hf : q.findIn (fun p => decide ((q.proc p).pid = pid)) killQueues with
    | some p =>
      obtain ⟨ht, l, hl, hp⟩ := findIn_some hf
      have hhome := h.mem_iff.mp hp
      have hne : l ≠ .free ∧ l ≠ .zombie ∧ l ≠ .sleep := by
        unfold killQueues at hl
        refine ⟨?_, ?_, ?_⟩ <;> (rintro rfl; simp at hl)
      refine ⟨h.modify rfl rfl, of_decide_eq_true ht, ?_, ?_, ?_⟩
      · intro hu
        rw [Proc.home_unused.mpr hu] at hhome
        exact hne.1 (Option.some.inj hhome).symm
      · intro hz
        rw [Proc.home_zombie.mpr hz] at hhome
        exact hne.2.1 (Option.some.inj hhome).symm
      · unfold Core.kill
        dsimp only
        rw [if_neg]
        · rfl
        · intro hsl
          rw [Proc.home_sleep.mpr hsl] at hhome
          exact hne.2.2 (Option.some.inj hhome).symm
    | none =>
      refine ⟨h, rfl, fun p hp => ?_⟩
      obtain ⟨l, hl⟩ := h.exists_mem p
      have hhome := h.mem_iff.mp hl
      by_cases hk : l ∈ killQueues
      · have := findIn_none hf hk hl
        simp [hp] at this
      · cases l with
        | free => exact Or.inl (Proc.home_unused.mp hhome)
        | zombie => exact Or.inr (Proc.home_zombie.mp hhome)
        | sleep => exact absurd hp (by simpa using List.find?_eq_none.mp hs p hl)
        | _ => exact absurd (by simp [killQueues]) hk

variable {p : Slot} {pid : Word} {priority : Int}

/-- A process that `setpriority` may change: it is alive and has the pid. -/
def Answers (c : Core) (p : Slot) (pid : Word) : Prop :=
  (c.proc p).life.Alive ∧ (c.proc p).pid = pid

theorem WF.answers_of_findIn {ls : List Queue} {p : Slot}
    (hls : ∀ l ∈ ls, l = .sleep ∨ l = .running ∨ ∃ i, l = .ready i)
    (hf : q.findIn (fun p => decide ((q.proc p).pid = pid)) ls = some p) :
    Answers q.toCore p pid := by
  obtain ⟨ht, l, hl, hp⟩ := findIn_some hf
  have hhome := h.mem_iff.mp hp
  refine ⟨?_, of_decide_eq_true ht⟩
  rcases hls l hl with rfl | rfl | ⟨i, rfl⟩
  · exact Or.inl (Proc.home_sleep.mp hhome)
  · exact Or.inr (Or.inr (Proc.home_running.mp hhome))
  · exact Or.inr (Or.inl (Proc.home_ready.mp hhome).1)

/-- The lists after a runnable process has changed its priority from `i` to `j`. -/
def moved (q : Queues) (p : Slot) (i j : Fin (MAX + 1)) : Queue → List Slot :=
  update (update q.list (.ready i) ((q.list (.ready i)).erase p)) (.ready j)
    (q.list (.ready j) ++ [p])

/-- What `setpriority` does to the lists, for the process it finds. -/
def Requeued (q : Queues) (p : Slot) (priority : Int) (list : Queue → List Slot) : Prop :=
  if (q.proc p).state = .runnable ∧ (q.proc p).prio ≠ priority then
    ∃ i j : Fin (MAX + 1), (q.proc p).prio = (i : Nat) ∧ priority = (j : Nat) ∧
      list = q.moved p i j
  else list = q.list

omit h in
theorem requeue_list {i j : Fin (MAX + 1)} (hj : priority = (j : Nat)) (hne : i ≠ j) :
    (q.requeue i p priority).list = q.moved p i j := by
  have hready : readyQueue priority = some (.ready j) := readyQueue_eq_some.mpr ⟨j, rfl, hj⟩
  have hji : Queue.ready j ≠ .ready i := fun h => hne (Queue.ready.inj h).symm
  unfold requeue addready moved
  simp only [modify_toCore, unlink_toCore, Core.modify_self, hready, modify_list]
  unfold addtail unlink
  simp only [modify_list]
  rw [update_of_ne hji]

/-- `setpriority` finds a living process with the pid, changes it and moves it to the end of
another ready list if it is on one; or there is none, and it changes nothing. -/
theorem WF.setpriority_cases (pid : Word) (priority : Int) :
    (0 ≤ priority ∧ priority ≤ MAX ∧ 0 ≤ pid.toInt ∧ (q.setpriority pid priority).1 = 0 ∧
      (q.setpriority pid priority).2.WF ∧ ∃ p, Answers q.toCore p pid ∧
        (q.setpriority pid priority).2.toCore = q.toCore.setpriority p priority ∧
        q.Requeued p priority (q.setpriority pid priority).2.list) ∨
    ((q.setpriority pid priority).1 = -1 ∧ (q.setpriority pid priority).2 = q ∧
      (0 ≤ priority → priority ≤ MAX → 0 ≤ pid.toInt → ∀ p, ¬ Answers q.toCore p pid)) := by
  unfold Queues.setpriority
  split
  · next hr => exact Or.inr ⟨rfl, rfl, fun h₁ h₂ h₃ => by omega⟩
  · next hr =>
    have hrange : 0 ≤ priority ∧ priority ≤ MAX ∧ 0 ≤ pid.toInt := by omega
    dsimp only
    split
    · next p hf =>
      have hp := h.answers_of_findIn (by simp) hf
      obtain ⟨-, l, hl, hmem⟩ := findIn_some hf
      have hhome := h.mem_iff.mp hmem
      have hrun : (q.proc p).state ≠ .runnable := by
        intro hrun
        rw [Proc.home_runnable hrun] at hhome
        obtain ⟨i, rfl, -⟩ := readyQueue_eq_some.mp hhome
        simp at hl
      refine Or.inl ⟨hrange.1, hrange.2.1, hrange.2.2, rfl, ?_, p, hp, rfl, ?_⟩
      · exact h.modify_prio (f := fun x => { x with prio := priority, budget := BUDGET }) rfl
          (fun hr => absurd hr hrun) fun _ _ => ⟨hrange.1, hrange.2.1⟩
      · unfold Requeued
        rw [if_neg fun hc => hrun hc.1]
        rfl
    · next hnone =>
      split
      · next hnone' =>
        refine Or.inr ⟨rfl, rfl, fun _ _ _ p hp => ?_⟩
        obtain ⟨l, hl⟩ := h.exists_mem p
        have hhome := h.mem_iff.mp hl
        have hfalse : decide ((q.proc p).pid = pid) = false := by
          rcases hp.1 with hs | hs | hs
          · have hs' : (q.proc p).state = .sleeping := hs
            rw [Proc.home_sleep.mpr hs'] at hhome
            cases hhome
            exact findIn_none hnone (by simp) hl
          · have hs' : (q.proc p).state = .runnable := hs
            rw [Proc.home_runnable hs'] at hhome
            obtain ⟨i, rfl, -⟩ := readyQueue_eq_some.mp hhome
            exact findIn_none hnone' (List.mem_map.mpr ⟨i, List.mem_finRange i, rfl⟩) hl
          · have hs' : (q.proc p).state = .running := hs
            rw [Proc.home_running.mpr hs'] at hhome
            cases hhome
            exact findIn_none hnone (by simp) hl
        exact of_decide_eq_false hfalse hp.2
      · next p hf =>
        have hp := h.answers_of_findIn (by simp) hf
        obtain ⟨-, l, hl, hmem⟩ := findIn_some hf
        have hhome := h.mem_iff.mp hmem
        obtain ⟨i, -, rfl⟩ := List.mem_map.mp hl
        obtain ⟨hst, hpr⟩ := Proc.home_ready.mp hhome
        refine Or.inl ⟨hrange.1, hrange.2.1, hrange.2.2, ?_⟩
        split
        · next heq =>
          refine ⟨rfl, h.modify rfl rfl, p, hp, ?_, ?_⟩
          · refine Core.ext' (fun x => ?_) rfl rfl rfl
            by_cases hx : x = p
            · subst hx
              simp [Core.setpriority, heq]
            · simp [Core.setpriority, Core.modify_of_ne _ _ _ hx]
          · unfold Requeued
            rw [if_neg fun hc => hc.2 heq]
            rfl
        · next hne =>
          have hready : readyQueue (q.proc p).prio = some (.ready i) := by
            rw [← Proc.home_runnable hst, hhome]
          obtain ⟨l', hl'⟩ := readyQueue_of_range ⟨hrange.1, hrange.2.1⟩
          obtain ⟨j, -, hj⟩ := readyQueue_eq_some.mp hl'
          have hij : i ≠ j := by
            rintro rfl
            exact hne (hpr.trans hj.symm)
          simp only [hready]
          have hm := h.move_ready (p := p) (f := fun x => { x with prio := priority }) hhome hst
            ⟨hrange.1, hrange.2.1⟩
          refine ⟨trivial, hm.modify rfl rfl, p, hp, ?_, ?_⟩
          · unfold requeue
            rw [modify_toCore, addready_toCore, modify_toCore]
            refine Core.ext' (fun x => ?_) rfl rfl rfl
            by_cases hx : x = p
            · subst hx
              simp [Core.setpriority]
            · simp [Core.setpriority, Core.modify_of_ne _ _ _ hx]
          · unfold Requeued
            rw [if_pos ⟨hst, hne⟩]
            exact ⟨i, j, hpr, hj, requeue_list hj hij⟩

end Kill

end Queues

end Xv6
