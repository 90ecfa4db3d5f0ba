import Xv6.Proc.Queues

/-!
# The list discipline

A process is on the list its state names, a runnable one on the ready list of its priority
(`Proc.home`). Every operation of `proc.c` moves processes one at a time: off the list they are
on, a change of their fields, onto the list the new fields name (`WF.move`).
-/

namespace Xv6

theorem readyQueue_eq_some {prio : Int} {l : Queue} :
    readyQueue prio = some l ↔ ∃ i : Fin (MAX + 1), l = .ready i ∧ prio = i := by
  unfold readyQueue
  constructor
  · intro h
    split at h
    · next hr =>
      cases h
      exact ⟨_, rfl, by simp [Int.toNat_of_nonneg hr.1]⟩
    · cases h
  · rintro ⟨i, rfl, rfl⟩
    have hi : (0 : Int) ≤ (i : Nat) ∧ ((i : Nat) : Int) ≤ MAX := by omega
    rw [dif_pos hi]
    simp

theorem readyQueue_of_range {prio : Int} (h : 0 ≤ prio ∧ prio ≤ MAX) :
    ∃ l, readyQueue prio = some l := by
  unfold readyQueue
  rw [dif_pos h]
  exact ⟨_, rfl⟩

def Proc.home (x : Proc) : Option Queue :=
  match x.state with
  | .unused => some .free
  | .embryo => some .embryo
  | .sleeping => some .sleep
  | .runnable => readyQueue x.prio
  | .running => some .running
  | .zombie => some .zombie

/-- A process past `allocproc` has a priority that indexes `ready[]`. -/
def Proc.PrioOk (x : Proc) : Prop :=
  x.state ≠ .unused → x.state ≠ .embryo → 0 ≤ x.prio ∧ x.prio ≤ MAX

section Home

variable {x : Proc}

theorem Proc.home_runnable (h : x.state = .runnable) : x.home = readyQueue x.prio := by
  unfold Proc.home
  rw [h]

theorem Proc.home_unused : x.home = some .free ↔ x.state = .unused := by
  unfold Proc.home
  cases h : x.state <;> simp [readyQueue_eq_some]

theorem Proc.home_embryo : x.home = some .embryo ↔ x.state = .embryo := by
  unfold Proc.home
  cases h : x.state <;> simp [readyQueue_eq_some]

theorem Proc.home_sleep : x.home = some .sleep ↔ x.state = .sleeping := by
  unfold Proc.home
  cases h : x.state <;> simp [readyQueue_eq_some]

theorem Proc.home_running : x.home = some .running ↔ x.state = .running := by
  unfold Proc.home
  cases h : x.state <;> simp [readyQueue_eq_some]

theorem Proc.home_zombie : x.home = some .zombie ↔ x.state = .zombie := by
  unfold Proc.home
  cases h : x.state <;> simp [readyQueue_eq_some]

theorem Proc.home_ready {i : Fin (MAX + 1)} :
    x.home = some (.ready i) ↔ x.state = .runnable ∧ x.prio = i := by
  unfold Proc.home
  cases h : x.state <;> simp [readyQueue_eq_some]

theorem Proc.home_congr {y : Proc} (hs : y.state = x.state) (hp : y.prio = x.prio) :
    y.home = x.home := by
  unfold Proc.home
  rw [hs, hp]

end Home

namespace Queues

/-- Every process is on the list its state and priority name, once, and on no other. -/
structure WF (q : Queues) : Prop where
  nodup : ∀ l, (q.list l).Nodup
  mem_iff : ∀ {p l}, p ∈ q.list l ↔ (q.proc p).home = some l
  prioOk : ∀ p, (q.proc p).PrioOk

namespace WF

variable {q : Queues}

theorem exists_mem (h : q.WF) (p : Slot) : ∃ l, p ∈ q.list l := by
  have hp := h.prioOk p
  simp only [h.mem_iff]
  unfold Proc.home
  cases hs : (q.proc p).state <;> simp only [Option.some.injEq, exists_eq']
  exact readyQueue_of_range (hp (by simp [hs]) (by simp [hs]))

variable {p : Slot}

theorem not_mem_unlink (h : q.WF) {l : Queue} (hl : (q.proc p).home = some l)
    (l' : Queue) : p ∉ (q.unlink l p).list l' := by
  intro hm
  by_cases he : l' = l
  · subst he
    simp only [unlink, Function.update_self] at hm
    exact (h.nodup l').not_mem_erase hm
  · have := h.mem_iff.mp (q.mem_of_mem_unlink l p hm)
    rw [hl] at this
    exact he (Option.some.inj this).symm

theorem mem_unlink (h : q.WF) {p a : Slot} {l l' : Queue} (hl : (q.proc p).home = some l) :
    a ∈ (q.unlink l p).list l' ↔ a ≠ p ∧ a ∈ q.list l' := by
  constructor
  · intro hm
    refine ⟨?_, q.mem_of_mem_unlink l p hm⟩
    rintro rfl
    exact h.not_mem_unlink hl l' hm
  · rintro ⟨hne, hm⟩
    unfold unlink
    by_cases he : l' = l
    · subst he
      simpa using (List.mem_erase_of_ne hne).mpr hm
    · simpa [he] using hm

theorem nodup_unlink (h : q.WF) (l : Queue) (p : Slot) (l' : Queue) :
    ((q.unlink l p).list l').Nodup := by
  unfold unlink
  by_cases he : l' = l
  · subst he
    simpa using (h.nodup l').erase p
  · simpa [he] using h.nodup l'

/-- The one fact behind every operation: a table in which only `p` changed, and `p`
stands on the list its new fields name, is disciplined again. -/
theorem of_move (h : q.WF) {q' : Queues} {x : Proc} {dst : Queue}
    (hproc : q'.proc = Function.update q.proc p x) (hx : x.home = some dst) (hpx : x.PrioOk)
    (hnodup : ∀ l, (q'.list l).Nodup)
    (hmem : ∀ {a l}, a ∈ q'.list l ↔ (a = p ∧ l = dst) ∨ (a ≠ p ∧ a ∈ q.list l)) : q'.WF := by
  refine ⟨hnodup, fun {a l} => ?_, fun a => ?_⟩
  · rw [hmem, hproc]
    by_cases ha : a = p
    · subst ha
      simp [hx, eq_comm]
    · simp [ha, h.mem_iff]
  · rw [hproc]
    by_cases ha : a = p
    · subst ha; simpa using hpx
    · simpa [ha] using h.prioOk a

variable {f : Proc → Proc}

theorem move_head (h : q.WF) {src dst : Queue}
    (hsrc : (q.proc p).home = some src) (hdst : (f (q.proc p)).home = some dst)
    (hp : (f (q.proc p)).PrioOk) : (((q.unlink src p).modify p f).addhead dst p).WF := by
  refine h.of_move (p := p) (x := f (q.proc p)) rfl hdst hp (fun l => ?_) (fun {a l} => ?_)
  · unfold addhead
    by_cases he : l = dst
    · subst he
      simpa using ⟨h.not_mem_unlink hsrc l, h.nodup_unlink src p l⟩
    · simpa [he] using h.nodup_unlink src p l
  · rw [mem_addhead, modify_list, h.mem_unlink hsrc]

theorem move_tail (h : q.WF) {src dst : Queue}
    (hsrc : (q.proc p).home = some src) (hdst : (f (q.proc p)).home = some dst)
    (hp : (f (q.proc p)).PrioOk) : (((q.unlink src p).modify p f).addtail dst p).WF := by
  refine h.of_move (p := p) (x := f (q.proc p)) rfl hdst hp (fun l => ?_) (fun {a l} => ?_)
  · unfold addtail
    by_cases he : l = dst
    · subst he
      have hno : ∀ a ∈ (q.unlink src p).list l, a ≠ p := fun a ha =>
        ((h.mem_unlink hsrc).mp ha).1
      simpa [List.nodup_append] using ⟨h.nodup_unlink src p l, hno⟩
    · simpa [he] using h.nodup_unlink src p l
  · rw [mem_addtail, modify_list, h.mem_unlink hsrc]

theorem modify_home (h : q.WF) (hf : (f (q.proc p)).home = (q.proc p).home)
    (hp : (f (q.proc p)).PrioOk) : (q.modify p f).WF := by
  refine ⟨h.nodup, fun {a l} => ?_, fun a => ?_⟩
  · rw [modify_list, h.mem_iff, modify_toCore, Core.modify_apply]
    by_cases ha : a = p
    · subst ha; simp [hf]
    · simp [ha]
  · rw [modify_toCore, Core.modify_apply]
    by_cases ha : a = p
    · subst ha; simpa using hp
    · simpa [ha] using h.prioOk a

theorem modify (h : q.WF)
    (hs : (f (q.proc p)).state = (q.proc p).state) (hp : (f (q.proc p)).prio = (q.proc p).prio) :
    (q.modify p f).WF := by
  refine h.modify_home (Proc.home_congr hs hp) ?_
  have := h.prioOk p
  unfold Proc.PrioOk at this ⊢
  rwa [hs, hp]

theorem modify_prio (h : q.WF)
    (hs : (f (q.proc p)).state = (q.proc p).state) (hr : (q.proc p).state ≠ .runnable)
    (hp : (f (q.proc p)).PrioOk) : (q.modify p f).WF := by
  refine h.modify_home ?_ hp
  unfold Proc.home
  rw [hs]
  cases hst : (q.proc p).state <;> simp_all

theorem withCore (h : q.WF) {c : Core} (hc : c.proc = q.proc) : WF { q with toCore := c } := by
  refine ⟨h.nodup, fun {a l} => ?_, fun a => ?_⟩
  · rw [hc, h.mem_iff]
  · rw [hc]
    exact h.prioOk a

end WF

end Queues

end Xv6
