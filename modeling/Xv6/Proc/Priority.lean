import Xv6.Proc.Dispatch

/-!
# Priorities

What the promotion and `setpriority` do to the ready lists. The promotion moves every list
behind the one above it, from high priority to low, so no process is met twice.
`setpriority` takes one process out of its list.
-/

open Function (update_of_ne update_self)

namespace Xv6

/-! ## The promotion -/

namespace Queues

variable {q : Queues}

/-- `ready[i]`, and nothing for an index out of range. -/
def readyList (q : Queues) (i : Nat) : List Slot :=
  if h : i < MAX + 1 then q.list (.ready ⟨i, h⟩) else []

theorem readyList_val (q : Queues) (i : Fin (MAX + 1)) : q.readyList i = q.list (.ready i) :=
  dif_pos i.isLt

/-- The first `k` turns of the promotion loop. -/
def promoteUpTo (q : Queues) (k : Nat) : Queues :=
  ((List.finRange (MAX + 1)).tail.take k).foldl promoteReady q

theorem promoteUpTo_succ (q : Queues) {k : Nat} (hk : k + 1 < MAX + 1) :
    q.promoteUpTo (k + 1) = (q.promoteUpTo k).promoteReady ⟨k + 1, hk⟩ := by
  have hlen : k < (List.finRange (MAX + 1)).tail.length := by
    rw [List.length_tail, List.length_finRange]
    omega
  unfold promoteUpTo
  rw [List.take_succ_eq_append_getElem hlen, List.foldl_append, List.foldl_cons, List.foldl_nil]
  congr 1
  simp

theorem WF.promoteUpTo (h : q.WF) (k : Nat) : (q.promoteUpTo k).WF := by
  have hpos : ∀ i ∈ (List.finRange (MAX + 1)).tail, 0 < i := by decide
  have hsorted : (List.finRange (MAX + 1)).tail.Pairwise (· < ·) := by decide
  exact (h.foldl_promoteReady _ (fun i hi => hpos i (List.mem_of_mem_take hi))
    (hsorted.sublist (List.take_sublist _ _))).1

theorem WF.promoteUpTo_list (h : q.WF) (k : Nat) (hk : k < MAX + 1) :
    (∀ i : Fin (MAX + 1), (q.promoteUpTo k).list (.ready i) =
      if (i : Nat) < k then (if (i : Nat) = 0 then q.readyList 0 else []) ++ q.readyList (i + 1)
      else if (i : Nat) = k ∧ k ≠ 0 then [] else q.readyList i) ∧
    ∀ l, (∀ i, l ≠ .ready i) → (q.promoteUpTo k).list l = q.list l := by
  induction k with
  | zero =>
    refine ⟨fun i => ?_, fun _ _ => rfl⟩
    rw [if_neg (Nat.not_lt_zero _), if_neg fun hc => hc.2 rfl, readyList_val]
    rfl
  | succ k ih =>
    obtain ⟨hready, hother⟩ := ih (by omega)
    have hlist := (h.promoteUpTo k).promoteReady_list (i := ⟨k + 1, hk⟩) (j := ⟨k, by omega⟩) rfl
    rw [promoteUpTo_succ q hk, hlist]
    refine ⟨?_, fun l hl => ?_⟩
    · rintro ⟨i, hi⟩
      by_cases hik : i = k
      · subst hik
        rw [update_self, hready ⟨i, hi⟩, hready ⟨i + 1, hk⟩]
        rw [if_neg (Nat.lt_irrefl i), if_neg (by omega : ¬ i + 1 < i),
          if_neg (by omega : ¬ (i + 1 = i ∧ i ≠ 0)), if_pos (Nat.lt_succ_self i)]
        by_cases hz : i = 0
        · subst hz
          rfl
        · rw [if_pos ⟨rfl, hz⟩, if_neg hz]
      · rw [update_of_ne fun hc => hik (congrArg Fin.val (Queue.ready.inj hc))]
        by_cases hik' : i = k + 1
        · subst hik'
          rw [update_self, if_neg (Nat.lt_irrefl _), if_pos ⟨rfl, Nat.succ_ne_zero k⟩]
        · have hlt : i < k + 1 ↔ i < k := by omega
          rw [update_of_ne fun hc => hik' (congrArg Fin.val (Queue.ready.inj hc)),
            hready ⟨i, hi⟩, if_neg fun hc : i = k ∧ k ≠ 0 => hik hc.1,
            if_neg fun hc : i = k + 1 ∧ k + 1 ≠ 0 => hik' hc.1]
          exact if_congr hlt.symm rfl rfl
    · rw [update_of_ne (hl _), update_of_ne (hl _), hother l hl]

theorem foldl_modify_list (l : List Slot) (f : Proc → Proc) (q : Queues) :
    (l.foldl (fun q x => q.modify x f) q).list = q.list := by
  induction l generalizing q with
  | nil => rfl
  | cons x l ih => rw [List.foldl_cons, ih, modify_list]

theorem WF.promote_list (h : q.WF) (ticks : Word) :
    (∀ i : Fin (MAX + 1), (q.promote ticks).list (.ready i) =
      (if (i : Nat) = 0 then q.readyList 0 else []) ++ q.readyList (i + 1)) ∧
    ∀ l, (∀ i, l ≠ .ready i) → (q.promote ticks).list l = q.list l := by
  have h₁ := h.promoteFields (l := .sleep) fun _ => nofun
  have h₂ := h₁.promoteFields (l := .running) fun _ => nofun
  obtain ⟨hready, hother⟩ := h₂.promoteUpTo_list MAX (Nat.lt_succ_self _)
  have hfields : ((q.promoteFields .sleep).promoteFields .running).list = q.list :=
    (foldl_modify_list _ _ _).trans (foldl_modify_list _ _ _)
  have hsame : ∀ n, ((q.promoteFields .sleep).promoteFields .running).readyList n =
      q.readyList n := fun n => by
    unfold readyList
    rw [hfields]
  have hlist : (q.promote ticks).list =
      (((q.promoteFields .sleep).promoteFields .running).promoteUpTo MAX).list := by
    unfold Queues.promote Queues.promoteUpTo
    rfl
  rw [hlist]
  refine ⟨fun i => ?_, fun l hl => (hother l hl).trans (congrFun hfields l)⟩
  rw [hready i]
  simp only [hsame]
  by_cases hi : (i : Nat) < MAX
  · rw [if_pos hi]
  · have hmax : (i : Nat) = MAX := by omega
    have hout : q.readyList (i + 1) = [] := dif_neg (by omega)
    rw [if_neg hi, if_pos ⟨hmax, by decide⟩, if_neg (by rw [hmax]; decide), hout]
    rfl

end Queues

theorem Ptable.setpriority_fails {t t' : Ptable} {pid : Word} {priority : Int}
    (h : t.setpriority pid priority = .ok (-1, t')) : t' = t := by
  unfold Ptable.setpriority at h
  split at h
  · cases h
    rfl
  · obtain ⟨r, -, h⟩ := bind_eq_ok h
    split at h
    · cases h
    · obtain ⟨r', -, h⟩ := bind_eq_ok h
      split at h
      · cases h
        rfl
      · split at h
        · cases h
        · obtain ⟨t₁, -, h⟩ := bind_eq_ok h
          cases h

/-- `setpriority` returns 0 for a priority in range and the pid of a process that is alive.
It then changes the priority and the budget of that process and, if it was runnable with
another priority, moves it to the end of its new ready list; otherwise it changes nothing.
The pid is an `int` and the pids in the table are unsigned. -/
theorem setpriority_changes_one_process {Cpu : Type} [DecidableEq Cpu]
    {tr : List (Act Cpu × Option Event)} {s : Sys Cpu Ptable} (h : Sys.Run tr s) (pid : Word)
    (priority : Int) :
    ∃ q r t' q', Rep s.tbl q ∧ s.tbl.setpriority pid priority = .ok (r, t') ∧ Rep t' q' ∧
      (r = 0 ∨ r = -1) ∧
      (r = 0 ↔ 0 ≤ priority ∧ priority ≤ MAX ∧
        ∃ p, (s.tbl.proc p).life.Alive ∧ ((s.tbl.proc p).pid.toNat : Int) = pid.toInt) ∧
      (r = 0 → ∃ p, (s.tbl.proc p).life.Alive ∧ ((s.tbl.proc p).pid.toNat : Int) = pid.toInt ∧
        t'.proc p = { s.tbl.proc p with prio := priority, budget := BUDGET } ∧
        (∀ x, x ≠ p → t'.proc x = s.tbl.proc x) ∧
        t'.promoteAtTime = s.tbl.promoteAtTime ∧ t'.nextpid = s.tbl.nextpid ∧
        t'.initproc = s.tbl.initproc ∧
        if (s.tbl.proc p).state = .runnable ∧ (s.tbl.proc p).prio ≠ priority then
          ∃ i j : Fin (MAX + 1), (s.tbl.proc p).prio = (i : Nat) ∧ priority = (j : Nat) ∧
            q'.list (.ready i) = (q.list (.ready i)).erase p ∧
            q'.list (.ready j) = q.list (.ready j) ++ [p] ∧
            ∀ l, l ≠ .ready i → l ≠ .ready j → q'.list l = q.list l
        else q'.list = q.list) ∧
      (r = -1 → t' = s.tbl) := by
  obtain ⟨q, hr, hq⟩ := h.world.2.lists
  obtain ⟨t', heq, hr'⟩ := hr.setpriority hq pid priority
  -- a pid that is not negative is the same number as an `int` and as an unsigned one
  have hsame : ∀ w : Word, (w = pid ∧ 0 ≤ pid.toInt) ↔ ((w.toNat : Int) = pid.toInt) := by
    intro w
    have hlt := w.isLt
    have hlt' := pid.isLt
    rw [BitVec.toInt_eq_toNat_cond, ← BitVec.toNat_inj]
    split <;> omega
  have hiff : ∀ p, (Queues.Answers q.toCore p pid ∧ 0 ≤ pid.toInt) ↔
      ((s.tbl.proc p).life.Alive ∧ ((s.tbl.proc p).pid.toNat : Int) = pid.toInt) := by
    intro p
    rw [hr.proc, ← hsame]
    exact and_assoc
  refine ⟨q, _, t', _, hr, heq, hr', ?_⟩
  rcases hq.setpriority_cases pid priority with
    ⟨hlo, hhi, hpid, hzero, -, p, hp, hcore, hlist⟩ | ⟨hminus, -, hnone⟩
  · have hfound := (hiff p).mp ⟨hp, hpid⟩
    have hc : t'.toCore = s.tbl.toCore.setpriority p priority := by
      rwa [hr'.core, hr.core]
    rw [hzero]
    refine ⟨Or.inl rfl, ⟨fun _ => ⟨hlo, hhi, p, hfound⟩, fun _ => rfl⟩, fun _ => ?_, nofun⟩
    refine ⟨p, hfound.1, hfound.2, ?_, fun x hx => ?_, ?_, ?_, ?_, ?_⟩
    · rw [hc]
      exact Core.modify_self ..
    · rw [hc]
      exact Core.modify_of_ne _ _ _ hx
    · rw [hc]
      rfl
    · rw [hc]
      rfl
    · rw [hc]
      rfl
    · unfold Queues.Requeued at hlist
      rw [hr.proc]
      split at hlist
      · next hcond =>
        obtain ⟨i, j, hi, hj, hl⟩ := hlist
        have hij : Queue.ready i ≠ .ready j := by
          rintro hc
          cases hc
          exact hcond.2 (hi.trans hj.symm)
        rw [if_pos hcond, hl]
        refine ⟨i, j, hi, hj, ?_, update_self .., fun l hli hlj => ?_⟩
        · exact (update_of_ne hij ..).trans (update_self ..)
        · exact (update_of_ne hlj ..).trans (update_of_ne hli ..)
      · next hcond =>
        rwa [if_neg hcond]
  · rw [hminus] at heq ⊢
    refine ⟨Or.inr rfl, ⟨nofun, ?_⟩, nofun, fun _ => Ptable.setpriority_fails heq⟩
    rintro ⟨hlo, hhi, p, hp⟩
    obtain ⟨hp', hpid⟩ := (hiff p).mpr hp
    exact absurd hp' (hnone hlo hhi hpid p)

/-- The first process gives itself the lowest priority. -/
theorem setpriority_of_init : ∃ tr, ∃ s : Sys Bool Ptable, Sys.Run tr s ∧
    (s.tbl.proc 0).life.Alive ∧ ∃ t', s.tbl.setpriority 1 5 = .ok (0, t') := by
  obtain ⟨tr, s, hrun, halive, hpid⟩ := Trace.exec_reaches (f := Sys.next) Sys.start_init
    [.sched false, .resume false]
    (fun _ s => (s.tbl.proc 0).life.Alive ∧ (s.tbl.proc 0).pid = 1) (by decide +kernel)
  obtain ⟨q, r, t', q', -, heq, -, -, hiff, -⟩ := setpriority_changes_one_process hrun 1 5
  have hzero : r = 0 := by
    refine hiff.mpr ⟨by decide, by decide, 0, halive, ?_⟩
    rw [hpid]
    decide
  subst hzero
  exact ⟨tr, s, hrun, halive, t', heq⟩

end Xv6
