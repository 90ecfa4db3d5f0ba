import Xv6.Proc.Clocks
import Xv6.Syscall.Getprocs

/-!
# Budgets, CPU time and promotions

The budget of a process is what its charges since the last reset have left of `BUDGET`. Its CPU
time is the sum of its slices and at most its age. Promotions are spaced by `TICKS_TO_PROMOTE`,
except around the moment when the counter `ticks` wraps.
-/

open BitVec (le_def toNat_add toNat_sub_of_le)

namespace Xv6

variable {Cpu : Type} [DecidableEq Cpu] {tr : List (Act Cpu × Option Event)}
  {s : Sys Cpu Ptable} {b : Slot → Ledger}

/-! ## Budgets -/

/-- No dispatch has lasted `2^31` ticks. -/
def Sys.ShortSlices (s : Sys Cpu Ptable) (_ : Act Cpu) : Prop :=
  ∀ p, (s.tbl.proc p).state = .running → ((s.tbl.proc p).clock.slice s.ticks).toNat < 2 ^ 31

instance (s : Sys Cpu Ptable) (a : Act Cpu) : Decidable (s.ShortSlices a) := by
  unfold Sys.ShortSlices
  infer_instance

/-- The charges since the last reset and the budget make up `BUDGET`, and the budget is not
used up. -/
def Ledger.Balanced (k : Clock) (b : Ledger) : Prop :=
  0 < k.budget.toNat ∧ b.charges.sum + k.budget.toNat = BUDGET.toNat

theorem BUDGET_toNat : BUDGET.toNat = 200 := rfl

theorem Ledger.balanced_of_full {k : Clock} {b : Ledger} (hk : k.budget = BUDGET)
    (hb : b.charges = []) : b.Balanced k := by
  unfold Balanced
  rw [hk, hb, BUDGET_toNat]
  exact ⟨by decide, rfl⟩

theorem Clock.spent_iff {k : Clock} {ticks : Word} (hb : 0 < k.budget.toNat)
    (hle : k.budget.toNat ≤ BUDGET.toNat) (hs : (k.slice ticks).toNat < 2 ^ 31) :
    k.Spent ticks ↔ k.budget.toNat ≤ (k.slice ticks).toNat := by
  unfold Spent
  rw [BitVec.toInt_eq_toNat_cond, BitVec.toNat_sub]
  rw [BUDGET_toNat] at hle
  split <;> omega

theorem Ledger.Balanced.spent_iff {k : Clock} {b : Ledger} {ticks : Word} (h : b.Balanced k)
    (hs : (k.slice ticks).toNat < 2 ^ 31) :
    k.Spent ticks ↔ BUDGET.toNat ≤ b.charges.sum + (k.slice ticks).toNat := by
  obtain ⟨hpos, hsum⟩ := h
  rw [Clock.spent_iff hpos (by omega) hs]
  omega

theorem Ledger.Balanced.charged {k : Clock} {b : Ledger} {ticks : Word} {state : ProcState}
    (h : b.Balanced k) (hs : (k.slice ticks).toNat < 2 ^ 31) :
    (b.enter ticks k .charged).Balanced ((k.charge ticks).leave ticks state) := by
  have hiff := h.spent_iff hs
  obtain ⟨hpos, hsum⟩ := h
  unfold Ledger.enter
  by_cases hsp : k.Spent ticks
  · dsimp only
    rw [Clock.charge_of_spent hsp, if_pos hsp]
    exact balanced_of_full rfl rfl
  · rw [Clock.charge_of_not_spent hsp, if_neg hsp]
    have hlt : b.charges.sum + (k.slice ticks).toNat < BUDGET.toNat :=
      Nat.lt_of_not_le (mt hiff.mpr hsp)
    have hsub := toNat_sub_of_le (x := k.budget) (y := k.slice ticks) (by
      rw [le_def]
      omega)
    unfold Ledger.Balanced Clock.leave
    dsimp only
    rw [hsub, List.sum_cons]
    omega

theorem Sys.Booked.balanced (h : Sys.Booked Sys.ShortSlices tr (s, b)) :
    Good s ∧ ∀ p, s.Opened p → (b p).Balanced (s.tbl.proc p).clock := by
  refine h.account (I := fun _ k b => b.Balanced k) ?_ ?_ ?_
  · exact fun _ _ _ => Ledger.balanced_of_full rfl rfl
  · intro s a p e k' b hC he hI ht
    generalize hk : (s.tbl.proc p).clock = k at hI ht
    cases ht with
    | idle hidle | dispatched hidle hr =>
      rwa [hidle.eq]
    | charged hr hs =>
      refine hI.charged ?_
      rw [← hk] at hr ⊢
      exact hC p hr
    | exited hr => exact hI
    | opened hemb => exact absurd rfl he
    | reset priority => exact Ledger.balanced_of_full rfl rfl
  · exact fun _ hI => hI

omit [DecidableEq Cpu] in
theorem Good.prio_le (h : Good s) {p : Slot} (hst : (s.tbl.proc p).state = .running) :
    (s.tbl.proc p).prio ≤ MAX := by
  obtain ⟨q, hr, hq⟩ := h.lists
  rw [hr.proc] at hst ⊢
  exact (hq.prioOk p (by rw [hst]; exact nofun) (by rw [hst]; exact nofun)).2

/-- The counter `ticks` does not wrap. -/
def Sys.NoWrap (s : Sys Cpu Ptable) : Act Cpu → Prop
  | .tick => s.ticks.toNat + 1 < 2 ^ 32
  | _ => True

instance (s : Sys Cpu Ptable) (a : Act Cpu) : Decidable (s.NoWrap a) := by
  induction a using Act.casesOn with
  | tick => exact Nat.decLt _ _
  | _ => exact isTrue trivial

def Ledger.cpuTime (b : Ledger) : Nat := (b.slices.map fun x => x.2 - x.1).sum

/-- A clock that has kept step with its record: the process was created first, then it ran
for its slices, then it was dispatched if it is running. -/
structure Ledger.Timed (ticks : Word) (k : Clock) (b : Ledger) : Prop where
  total : k.cpuTicksTotal.toNat = b.cpuTime
  ordered : ∀ x ∈ b.slices, x.1 ≤ x.2
  off : k.state ≠ .running → k.startTicks.toNat + k.cpuTicksTotal.toNat ≤ ticks.toNat
  on : k.state = .running → k.startTicks.toNat + k.cpuTicksTotal.toNat ≤ k.cpuTicksIn.toNat ∧
    k.cpuTicksIn.toNat ≤ ticks.toNat ∧ k.cpuTicksIn.toNat = b.since

namespace Ledger.Timed

variable {ticks : Word} {k k' : Clock} {b : Ledger}

theorem of_eq (h : b.Timed ticks k) (hs : k'.state = .running ↔ k.state = .running)
    (h₁ : k'.startTicks = k.startTicks) (h₂ : k'.cpuTicksTotal = k.cpuTicksTotal)
    (h₃ : k'.cpuTicksIn = k.cpuTicksIn) {b' : Ledger} (h₄ : b'.since = b.since)
    (h₅ : b'.slices = b.slices) : b'.Timed ticks k' := by
  refine ⟨?_, ?_, fun hst => ?_, fun hst => ?_⟩
  · unfold Ledger.cpuTime
    rw [h₂, h₅]
    exact h.total
  · rw [h₅]
    exact h.ordered
  · rw [h₁, h₂]
    exact h.off (mt hs.mpr hst)
  · rw [h₁, h₂, h₃, h₄]
    exact h.on (hs.mp hst)

theorem opened (ticks : Word) {state : ProcState} (hst : state ≠ .running) :
    Ledger.new.Timed ticks (.opened ticks state) :=
  ⟨rfl, nofun, fun _ => Nat.le_refl _, fun h => absurd h hst⟩

theorem dispatched (h : b.Timed ticks k) (hst : k.state = .runnable) :
    Ledger.Timed ticks { k with state := .running, cpuTicksIn := ticks }
      { b with since := ticks.toNat } := by
  have hoff := h.off (by rw [hst]; exact nofun)
  exact ⟨h.total, h.ordered, fun hne => absurd rfl hne, fun _ => ⟨hoff, Nat.le_refl _, rfl⟩⟩

theorem leave (h : b.Timed ticks k) (hr : k.state = .running) (hk : k'.startTicks = k.startTicks)
    (htotal : k'.cpuTicksTotal = k.cpuTicksTotal + k.slice ticks) (hst : k'.state ≠ .running)
    {b' : Ledger} (hb : b'.slices = (b.since, ticks.toNat) :: b.slices) :
    b'.Timed ticks k' := by
  obtain ⟨hin, hle, hsince⟩ := h.on hr
  have hslice : (k.slice ticks).toNat = ticks.toNat - k.cpuTicksIn.toNat :=
    toNat_sub_of_le (by rwa [le_def])
  have hadd : (k.cpuTicksTotal + k.slice ticks).toNat =
      k.cpuTicksTotal.toNat + (k.slice ticks).toNat := by
    have := ticks.isLt
    rw [toNat_add]
    omega
  refine ⟨?_, ?_, fun _ => ?_, fun h => absurd h hst⟩
  · unfold Ledger.cpuTime
    rw [htotal, hb, List.map_cons, List.sum_cons, hadd, hslice, h.total, ← hsince]
    exact Nat.add_comm _ _
  · rw [hb, List.forall_mem_cons]
    exact ⟨by omega, h.ordered⟩
  · rw [hk, htotal, hadd]
    omega

theorem tick (h : b.Timed ticks k) (hw : ticks.toNat + 1 < 2 ^ 32) : b.Timed (ticks + 1) k := by
  have hadd : (ticks + 1).toNat = ticks.toNat + 1 := by
    rw [toNat_add]
    exact Nat.mod_eq_of_lt hw
  refine ⟨h.total, h.ordered, fun hst => ?_, fun hst => ?_⟩
  · have := h.off hst
    omega
  · obtain ⟨h₁, h₂, h₃⟩ := h.on hst
    exact ⟨h₁, by omega, h₃⟩

end Ledger.Timed

theorem Sys.Booked.timed (h : Sys.Booked Sys.NoWrap tr (s, b)) :
    Good s ∧ ∀ p, s.Opened p → (b p).Timed s.ticks (s.tbl.proc p).clock := by
  refine h.account (I := fun ticks k b => b.Timed ticks k) ?_ ?_ ?_
  · exact fun ticks _ hst => .opened ticks hst
  · intro s a p e k' b hC he hI ht
    generalize (s.tbl.proc p).clock = k at hI ht
    cases ht with
    | idle hidle =>
      have heq := hidle.eq
      exact hI.of_eq hidle.running (by rw [heq]) (by rw [heq]) (by rw [heq]) rfl rfl
    | @dispatched _ k₁ hidle hr =>
      have heq := hidle.eq
      have h₁ : b.Timed s.ticks k₁ :=
        hI.of_eq hidle.running (by rw [heq]) (by rw [heq]) (by rw [heq]) rfl rfl
      exact h₁.dispatched hr
    | @charged _ state hr hs =>
      have hcharge : (k.charge s.ticks).startTicks = k.startTicks ∧
          (k.charge s.ticks).cpuTicksTotal = k.cpuTicksTotal ∧
          (k.charge s.ticks).cpuTicksIn = k.cpuTicksIn := by
        by_cases hsp : k.Spent s.ticks
        · rw [Clock.charge_of_spent hsp]
          exact ⟨rfl, rfl, rfl⟩
        · rw [Clock.charge_of_not_spent hsp]
          exact ⟨rfl, rfl, rfl⟩
      refine hI.leave hr ?_ ?_ ?_ ?_
      · exact hcharge.1
      · unfold Clock.leave Clock.slice
        dsimp only
        rw [hcharge.2.1, hcharge.2.2]
      · rcases hs with hs | hs
        · exact fun h => absurd (hs.symm.trans h) nofun
        · exact fun h => absurd (hs.symm.trans h) nofun
      · rfl
    | exited hr =>
      refine hI.leave hr ?_ ?_ ?_ ?_
      · rfl
      · rfl
      · exact nofun
      · rfl
    | opened hemb => exact absurd rfl he
    | reset priority => refine hI.of_eq ?_ ?_ ?_ ?_ ?_ ?_ <;> rfl
  · exact fun hw hI => hI.tick hw

/-- In every run in which `ticks` does not wrap, the CPU time of a process that `allocproc`
has set up is the sum of its completed dispatches and, with the dispatch it is in, at most
its age. `getprocs` reports no more CPU time than elapsed time. -/
theorem cpu_time_at_most_age (h : Sys.Booked Sys.NoWrap tr (s, b)) :
    (∀ p, s.Opened p →
      (s.tbl.proc p).cpuTicksTotal.toNat +
          (if (s.tbl.proc p).state = .running then (s.ticks - (s.tbl.proc p).cpuTicksIn).toNat
            else 0) ≤ (s.ticks - (s.tbl.proc p).startTicks).toNat ∧
      (s.tbl.proc p).startTicks ≤ s.ticks ∧
      (s.tbl.proc p).cpuTicksTotal.toNat = (b p).cpuTime ∧ ∀ x ∈ (b p).slices, x.1 ≤ x.2) ∧
    ∀ p, Getprocs.active s.tbl.toCore p = true →
      (s.tbl.proc p).cpuTicksTotal ≤ s.ticks - (s.tbl.proc p).startTicks := by
  have hage : ∀ p, s.Opened p →
      (s.tbl.proc p).cpuTicksTotal.toNat +
          (if (s.tbl.proc p).state = .running then (s.ticks - (s.tbl.proc p).cpuTicksIn).toNat
            else 0) ≤ (s.ticks - (s.tbl.proc p).startTicks).toNat ∧
      (s.tbl.proc p).startTicks ≤ s.ticks := by
    intro p hp
    obtain ⟨-, -, hoff, hon⟩ := h.timed.2 p hp
    change (s.tbl.proc p).state ≠ .running →
      (s.tbl.proc p).startTicks.toNat + (s.tbl.proc p).cpuTicksTotal.toNat ≤ s.ticks.toNat at hoff
    change (s.tbl.proc p).state = .running →
      (s.tbl.proc p).startTicks.toNat + (s.tbl.proc p).cpuTicksTotal.toNat ≤
        (s.tbl.proc p).cpuTicksIn.toNat ∧ (s.tbl.proc p).cpuTicksIn.toNat ≤ s.ticks.toNat ∧
        (s.tbl.proc p).cpuTicksIn.toNat = (b p).since at hon
    have hstart : (s.tbl.proc p).startTicks.toNat ≤ s.ticks.toNat := by
      by_cases hst : (s.tbl.proc p).state = .running
      · have := hon hst
        omega
      · have := hoff hst
        omega
    refine ⟨?_, hstart⟩
    rw [toNat_sub_of_le (show (s.tbl.proc p).startTicks ≤ s.ticks from hstart)]
    by_cases hst : (s.tbl.proc p).state = .running
    · obtain ⟨hin, hle, -⟩ := hon hst
      rw [if_pos hst,
        toNat_sub_of_le (show (s.tbl.proc p).cpuTicksIn ≤ s.ticks from hle)]
      omega
    · rw [if_neg hst]
      have := hoff hst
      omega
  refine ⟨fun p hp => ?_, fun p hp => ?_⟩
  · obtain ⟨htotal, hordered, -, -⟩ := h.timed.2 p hp
    exact ⟨(hage p hp).1, (hage p hp).2, htotal, hordered⟩
  · unfold Getprocs.active at hp
    simp only [ne_eq, decide_not, Bool.and_eq_true, Bool.not_eq_true', decide_eq_false_iff_not]
      at hp
    have := (hage p (Or.inl hp)).1
    rw [le_def]
    omega

/-- Init has run for two ticks and runs again. -/
theorem cpu_time_of_init_after_two_ticks :
    ∃ (tr : _) (s : Sys Bool Ptable) (b : Slot → Ledger), Sys.Booked Sys.NoWrap tr (s, b) ∧
      (s.tbl.proc 0).state = .running ∧ (s.tbl.proc 0).cpuTicksTotal = 2 ∧ (b 0).cpuTime = 2 := by
  obtain ⟨tr, s, hrun, hst, ht⟩ := Trace.exec_reaches_only (f := Sys.next) Sys.start_init
    Sys.NoWrap [.tick, .sched false, .resume false, .tick, .tick, .yield false, .tick,
      .sched false, .resume false, .tick]
    (fun _ s => (s.tbl.proc 0).state = .running ∧ (s.tbl.proc 0).cpuTicksTotal = 2)
    (by decide +kernel)
  obtain ⟨b, hbooked⟩ := hrun.noted Sys.book fun _ _ => Ledger.new
  have hopen : s.Opened 0 := Or.inl (by rw [hst]; exact ⟨nofun, nofun⟩)
  have hall := (cpu_time_at_most_age hbooked).1 0 hopen
  refine ⟨tr, s, b, hbooked, hst, ht, ?_⟩
  rw [← hall.2.2.1, ht]
  rfl

/-! ## Promotions -/

structure Times where
  now : Nat
  /-- The last promotion, or the start of the machine. -/
  last : Nat
  promotions : List Nat

def Times.start (s : Sys Cpu Ptable) : Times where
  now := s.ticks.toNat
  last := s.ticks.toNat
  promotions := []

def Sys.timed (s : Sys Cpu Ptable) (a : Act Cpu) (_ : Sys Cpu Ptable) (x : Times) : Times :=
  match a with
  | .tick => { x with now := x.now + 1 }
  | .sched _ =>
    if s.tbl.promoteAtTime ≤ s.ticks then
      { x with last := x.now, promotions := x.now :: x.promotions }
    else x
  | _ => x

def Times.Init (x : Sys Cpu Ptable × Times) : Prop := x.1.Init ∧ x.2 = .start x.1

/-- The counter has wrapped since the last promotion exactly if the deadline set there
wrapped. -/
def Times.Aligned (x : Times) : Prop :=
  x.now - x.last < 2 ^ 31 →
    (x.last % 2 ^ 32 + TICKS_TO_PROMOTE.toNat < 2 ^ 32 ↔
      x.last % 2 ^ 32 + (x.now - x.last) < 2 ^ 32)

/-- The passes of `scheduler` are aligned. -/
def Times.AlignedPass (x : Sys Cpu Ptable × Times) : Act Cpu → Prop
  | .sched _ => x.2.Aligned
  | _ => True

theorem TICKS_TO_PROMOTE_toNat : TICKS_TO_PROMOTE.toNat = 5000 := rfl

/-- The counter and the deadline are the clock and the next promotion, modulo `2^32`. -/
structure Times.Kept (s : Sys Cpu Ptable) (x : Times) : Prop where
  ticks : s.ticks.toNat = x.now % 2 ^ 32
  deadline : s.tbl.promoteAtTime.toNat = (x.last + TICKS_TO_PROMOTE.toNat) % 2 ^ 32
  last_le : x.last ≤ x.now
  le_last : ∀ t ∈ x.promotions, t ≤ x.last

namespace Times.Kept

variable {x : Times}

omit [DecidableEq Cpu] in
theorem start (h : s.Init) : Times.Kept s (.start s) := by
  obtain ⟨-, kstack, pgdir, hcore⟩ := h.boot
  refine ⟨?_, ?_, Nat.le_refl _, nofun⟩
  · exact (Nat.mod_eq_of_lt s.ticks.isLt).symm
  · rw [hcore]
    exact toNat_add _ _

omit [DecidableEq Cpu] in
theorem due_iff (h : Times.Kept s x) (hlt : x.now - x.last < 2 ^ 31) :
    (s.tbl.promoteAtTime ≤ s.ticks ↔ TICKS_TO_PROMOTE.toNat ≤ x.now - x.last) ↔ x.Aligned := by
  obtain ⟨ht, hd, hle, -⟩ := h
  rw [TICKS_TO_PROMOTE_toNat] at hd
  unfold Times.Aligned
  rw [le_def, ht, hd, TICKS_TO_PROMOTE_toNat]
  omega

theorem step (h : Times.Kept s x) (hg : Good s) {a : Act Cpu} {e : Option Event}
    {s' : Sys Cpu Ptable} (hs : Trace.Next Sys.next s (a, e) s') :
    Times.Kept s' (s.timed a s' x) := by
  have hclock := hg.clocked (Sys.next_eq_some hs)
  have hticks := hclock.ticks
  have hdeadline := hclock.deadline
  obtain ⟨ht, hd, hle, hall⟩ := h
  cases a with
  | tick =>
    refine ⟨?_, ?_, Nat.le_succ_of_le hle, hall⟩
    · rw [hticks, toNat_add, ht]
      exact (Nat.mod_add_mod _ _ _).trans rfl
    · rwa [hdeadline]
  | sched c =>
    unfold Sys.timed
    dsimp only
    split
    · next hdue =>
      rw [if_pos hdue] at hdeadline
      refine ⟨by rw [hticks]; exact ht, ?_, Nat.le_refl _, ?_⟩
      · rw [hdeadline, toNat_add, ht]
        exact Nat.mod_add_mod _ _ _
      · rw [List.forall_mem_cons]
        exact ⟨Nat.le_refl _, fun t ht => (hall t ht).trans hle⟩
    · next hdue =>
      rw [if_neg hdue] at hdeadline
      exact ⟨by rw [hticks]; exact ht, by rw [hdeadline]; exact hd, hle, hall⟩
  | _ => exact ⟨by rw [hticks]; exact ht, by rw [hdeadline]; exact hd, hle, hall⟩

end Times.Kept

/-- In every run whose passes of `scheduler` are aligned, any two promotions are at least
`TICKS_TO_PROMOTE` ticks apart, and a pass that comes so long after the last promotion, but
less than `2^31` ticks, promotes. Of a pass less than `2^31` ticks after the last promotion,
being aligned is also necessary. -/
theorem promotions_are_spaced {x : Times}
    (h : Trace.Run Times.Init
      (Trace.Only Times.AlignedPass (Trace.Next (Trace.noting Sys.next Sys.timed))) tr (s, x)) :
    x.promotions.Pairwise (fun later earlier => earlier + TICKS_TO_PROMOTE.toNat ≤ later) ∧
    ∀ c e s' x', Trace.Next (Trace.noting Sys.next Sys.timed) (s, x) (.sched c, e) (s', x') →
      x.now - x.last < 2 ^ 31 →
      (x.Aligned → TICKS_TO_PROMOTE.toNat ≤ x.now - x.last →
        s.tbl.promoteDue s.ticks = s.tbl.promote s.ticks ∧
          x'.promotions = x.now :: x.promotions) ∧
      (x.Aligned ↔ (x'.promotions = x.now :: x.promotions ↔
        TICKS_TO_PROMOTE.toNat ≤ x.now - x.last)) := by
  have hall : (Good s ∧ x.Kept s) ∧
      x.promotions.Pairwise fun later earlier => earlier + TICKS_TO_PROMOTE.toNat ≤ later := by
    refine Trace.Run.invariant (I := fun x : Sys Cpu Ptable × Times => (Good x.1 ∧ x.2.Kept x.1) ∧
      x.2.promotions.Pairwise fun later earlier => earlier + TICKS_TO_PROMOTE.toNat ≤ later)
      ?_ ?_ h
    · rintro ⟨s, x⟩ ⟨hs, hx⟩
      dsimp only at hs hx ⊢
      subst hx
      exact ⟨⟨hs.good.1, .start hs⟩, .nil⟩
    · rintro ⟨s, x⟩ ⟨a, e⟩ ⟨s', x'⟩ ⟨⟨hg, hk⟩, hp⟩ ⟨hs, hc⟩
      obtain ⟨hnext, hx⟩ := Trace.next_noting hs
      dsimp only at hg hk hp hc hnext hx ⊢
      subst hx
      refine ⟨⟨(hg.next hnext).2, hk.step hg hnext⟩, ?_⟩
      cases a with
      | sched c =>
        unfold Sys.timed
        dsimp only
        split
        · next hdue =>
          refine List.pairwise_cons.mpr ⟨fun t ht => ?_, hp⟩
          have hlast := hk.le_last t ht
          have hle := hk.last_le
          by_cases hlt : x.now - x.last < 2 ^ 31
          · have := ((hk.due_iff hlt).mpr hc).mp hdue
            omega
          · rw [TICKS_TO_PROMOTE_toNat]
            omega
        · exact hp
      | _ => exact hp
  obtain ⟨⟨hg, hk⟩, hp⟩ := hall
  refine ⟨hp, fun c e s' x' hs hlt => ?_⟩
  obtain ⟨hnext, hx⟩ := Trace.next_noting hs
  dsimp only at hnext hx
  -- the promotion is recorded exactly if the test succeeds
  have hdue : s.tbl.promoteAtTime ≤ s.ticks ↔ x'.promotions = x.now :: x.promotions := by
    rw [hx]
    unfold Sys.timed
    dsimp only
    split
    · next hdue => exact iff_of_true hdue rfl
    · next hdue => exact iff_of_false hdue fun h => List.ne_cons_self h
  have hiff := hk.due_iff hlt
  rw [hdue] at hiff
  refine ⟨fun hal hge => ?_, hiff.symm⟩
  have hnew := (hiff.mpr hal).mpr hge
  refine ⟨?_, hnew⟩
  unfold Ptable.promoteDue
  rw [if_pos (hdue.mpr hnew)]

def Sys.startAt (ticks : Word) : Sys Bool Ptable :=
  { Sys.start with
    tbl := match Ptable.userinit ticks 0 0 with
      | .ok t => t
      | .error _ => Ptable.zero
    ticks := ticks }

theorem Sys.startAt_init (ticks : Word) :
    Times.Init (Sys.startAt ticks, .start (Sys.startAt ticks)) := by
  obtain ⟨t, q, heq, -⟩ := Ptable.userinit_ok ticks 0 0
  refine ⟨⟨⟨0, 0, ?_⟩, fun _ => rfl, fun _ => rfl, rfl⟩, rfl⟩
  unfold startAt
  dsimp only
  rw [heq]

theorem Times.run_ticks {x : Times}
    (h : Trace.Run Times.Init
      (Trace.Only Times.AlignedPass (Trace.Next (Trace.noting Sys.next Sys.timed))) tr (s, x))
    (n : Nat) :
    ∃ tr', Trace.Run Times.Init
      (Trace.Only Times.AlignedPass (Trace.Next (Trace.noting Sys.next Sys.timed))) tr'
      ({ s with ticks := s.ticks + BitVec.ofNat 32 n }, { x with now := x.now + n }) := by
  induction n with
  | zero =>
    refine ⟨tr, ?_⟩
    rwa [show s.ticks + BitVec.ofNat 32 0 = s.ticks from BitVec.add_zero _]
  | succ n ih =>
    obtain ⟨tr', hrun⟩ := ih
    refine ⟨tr' ++ [(.tick, none)], hrun.snoc (l := (Act.tick, none)) ⟨?_, trivial⟩⟩
    rw [BitVec.ofNat_add, ← BitVec.add_assoc]
    rfl

/-- The first pass comes 5000 ticks after the start. -/
theorem first_pass_promotes :
    ∃ (tr : _) (s : Sys Bool Ptable) (x : Times),
      Trace.Run Times.Init
        (Trace.Only Times.AlignedPass (Trace.Next (Trace.noting Sys.next Sys.timed))) tr (s, x) ∧
      x.promotions = [5001] := by
  obtain ⟨tr, hrun⟩ := Times.run_ticks (.start (Sys.startAt_init 1)) 5000
  generalize hs : ({ Sys.startAt 1 with
    ticks := (Sys.startAt 1).ticks + BitVec.ofNat 32 5000 } : Sys Bool Ptable) = s at hrun
  generalize hx : ({ Times.start (Sys.startAt 1) with
    now := (Times.start (Sys.startAt 1)).now + 5000 } : Times) = x at hrun
  have hnow : x.now = 5001 ∧ x.last = 1 ∧ x.promotions = [] := by
    rw [← hx]
    exact ⟨rfl, rfl, rfl⟩
  have hal : x.Aligned := by
    unfold Times.Aligned
    rw [hnow.1, hnow.2.1]
    decide
  have hsome : (Trace.noting Sys.next Sys.timed (s, x) (.sched false)).isSome = true := by
    rw [← hs]
    unfold Trace.noting
    rw [Option.isSome_map]
    dsimp only
    decide +kernel
  obtain ⟨⟨⟨s', x'⟩, e⟩, hstep⟩ := Option.isSome_iff_exists.mp hsome
  have hpass := ((promotions_are_spaced hrun).2 false e s' x' hstep (by omega)).1 hal
    (by rw [TICKS_TO_PROMOTE_toNat]; omega)
  refine ⟨_, s', x', hrun.snoc (l := (Act.sched false, e)) ⟨hstep, hal⟩, ?_⟩
  rw [hpass.2, hnow.1, hnow.2.2]

/-- Around the wrap of the counter. The deadline of a promotion 1000 ticks before the wrap is
4000, so that each pass promotes until the counter wraps: two promotions are one tick apart.
The deadline of a start 6000 ticks before the wrap is 1000 ticks before it, and a pass 6001
ticks after the start does not promote. -/
theorem promotions_around_wrap :
    (∃ (tr : _) (s : Sys Bool Ptable) (x : Times),
      Trace.Run Times.Init (Trace.Next (Trace.noting Sys.next Sys.timed)) tr (s, x) ∧
      x.promotions = [2 ^ 32 - 999, 2 ^ 32 - 1000]) ∧
    ∃ (tr : _) (s : Sys Bool Ptable) (x : Times),
      Trace.Run Times.Init (Trace.Next (Trace.noting Sys.next Sys.timed)) tr (s, x) ∧
      s.lock = none ∧ s.cpu false = none ∧ x.now - x.last = 6001 ∧
      s.tbl.promoteDue s.ticks = .ok s.tbl := by
  refine ⟨?_, ?_⟩
  · obtain ⟨tr, ⟨s, x⟩, hrun, hP⟩ := Trace.exec_reaches (f := Trace.noting Sys.next Sys.timed)
      (Sys.startAt_init (BitVec.ofNat 32 (2 ^ 32 - 1000)))
      [.sched false, .resume false, .tick, .sched true]
      (fun _ x => x.2.promotions = [2 ^ 32 - 999, 2 ^ 32 - 1000]) (by decide +kernel)
    exact ⟨tr, s, x, hrun, hP⟩
  · have hinit := Sys.startAt_init (BitVec.ofNat 32 (2 ^ 32 - 6000))
    obtain ⟨tr, hrun⟩ := Times.run_ticks (.start hinit) 6001
    refine ⟨tr, _, _, hrun.mono fun _ _ _ hs => hs.1, rfl, rfl, ?_, ?_⟩
    · exact Nat.add_sub_cancel_left _ _
    · have hdl : (Sys.startAt (BitVec.ofNat 32 (2 ^ 32 - 6000))).tbl.promoteAtTime =
          BitVec.ofNat 32 (2 ^ 32 - 1000) := by decide +kernel
      have hticks : (Sys.startAt (BitVec.ofNat 32 (2 ^ 32 - 6000))).ticks =
          BitVec.ofNat 32 (2 ^ 32 - 6000) := rfl
      refine if_neg ?_
      rw [hdl, hticks]
      decide

end Xv6
