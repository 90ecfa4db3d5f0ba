import Mathlib.Logic.Relation
import Xv6.Lib.Run

/-!
# Spin locks on several CPUs

Kernel code seen as what it does with spin locks, and a machine that runs such code: processes
give up their CPU with the lock of the scheduler held, and an interrupt handler may start on a
CPU that holds no lock. If every piece of code takes locks in the order of a rank, no CPUs wait
for each other in a circle (`no_cycle_of_ordered`).
-/

open Function (update update_self)

namespace Spin

inductive Code (L : Type)
  | skip
  | acquire (l : L)
  | release (l : L)
  | swtch
  | pick
  | seq (a b : Code L)
  | loop (a : Code L)
  | choice (a b : Code L)

namespace Code

variable {L : Type}

def block : List (Code L) → Code L
  | [] => skip
  | a :: as => seq a (block as)

def maybe (a : Code L) : Code L := choice a skip

def when (test : Bool) (a : Code L) : Code L := if test then a else skip

section After

variable [DecidableEq L] (rank : L → Nat) (sched : L)

/-- The locks held after the code, from those held before, the last one taken first;
`none` if a lock is taken out of order, or one is released that is not held, or the CPU is
given up with other locks than that of the scheduler, or the two ways of a branch differ. -/
def after : Code L → List L → Option (List L)
  | skip, H => some H
  | acquire l, H => if ∀ h ∈ H, rank h < rank l then some (l :: H) else none
  | release l, H => if l ∈ H then some (H.erase l) else none
  | swtch, H => if H = [sched] then some H else none
  | pick, H => if H = [sched] then some H else none
  | seq a b, H => (a.after H).bind b.after
  | loop a, H => if a.after H = some H then some H else none
  | choice a b, H => if a.after H = b.after H then a.after H else none

def afterAll : List (Code L) → List L → Option (List L)
  | [], H => some H
  | a :: k, H => (a.after rank sched H).bind (afterAll k)

def Ordered (a : Code L) : Prop := a.after rank sched [] = some []

instance (a : Code L) : Decidable (a.Ordered rank sched) := inferInstanceAs (Decidable (_ = _))

end After

end Code

/-- What a kernel runs: the code of its calls and of its interrupt handlers, which may
depend on whether a process was interrupted. -/
structure Kernel (L E I : Type) where
  sched : L
  call : E → Code L
  intr : I → Bool → Code L

/-- Calls, and interrupts for which `C` holds, keep to the order. -/
structure Kernel.Ordered {L E I : Type} [DecidableEq L] (rank : L → Nat) (K : Kernel L E I)
    (C : I → Prop) : Prop where
  call : ∀ e, (K.call e).Ordered rank K.sched
  intr : ∀ i b, C i → (K.intr i b).Ordered rank K.sched

structure State (L Cpu P : Type) where
  lock : L → Option Cpu
  /-- The number of locks each CPU holds; with one it takes no interrupt. -/
  ncli : Cpu → Nat
  code : Cpu → List (Code L)
  proc : Cpu → Option P
  /-- What the scheduler of a CPU goes on with when its process gives the CPU back. -/
  saved : Cpu → List (Code L)
  /-- What a process goes on with that has no CPU. -/
  parked : P → Option (List (Code L))

inductive Act (Cpu P E I : Type)
  /-- The next bit of code; the flag decides loops and branches. -/
  | run (c : Cpu) (b : Bool)
  | dispatch (c : Cpu) (p : P)
  | call (c : Cpu) (e : E)
  | interrupt (c : Cpu) (i : I)

namespace State

variable {L Cpu P E I : Type} [DecidableEq L] [DecidableEq Cpu] [DecidableEq P]

def goto (s : State L Cpu P) (c : Cpu) (k : List (Code L)) : State L Cpu P :=
  { s with code := update s.code c k }

/-- One bit of code on a CPU: `none` if it has to wait, or on a panic. -/
def run (s : State L Cpu P) (c : Cpu) (b : Bool) : Option (State L Cpu P) :=
  match s.code c with
  | [] => none
  | .skip :: k | .pick :: k => some (s.goto c k)
  | .acquire l :: k =>
    if s.lock l = none then
      some ({ s with
        lock := update s.lock l (some c)
        ncli := update s.ncli c (s.ncli c + 1) }.goto c k)
    else none
  | .release l :: k =>
    if s.lock l = some c then
      some ({ s with
        lock := update s.lock l none
        ncli := update s.ncli c (s.ncli c - 1) }.goto c k)
    else none
  | .swtch :: k =>
    match s.proc c with
    | some p =>
      some ({ s with
        proc := update s.proc c none
        parked := update s.parked p (some k) }.goto c (s.saved c))
    | none => none
  | .seq a₁ a₂ :: k => some (s.goto c (a₁ :: a₂ :: k))
  | .loop a :: k => some (s.goto c (if b then a :: .loop a :: k else k))
  | .choice a₁ a₂ :: k => some (s.goto c (if b then a₁ :: k else a₂ :: k))

def dispatch (s : State L Cpu P) (c : Cpu) (p : P) : Option (State L Cpu P) :=
  match s.code c, s.proc c, s.parked p with
  | .pick :: k, none, some k' =>
    some ({ s with
      proc := update s.proc c (some p)
      saved := update s.saved c k
      parked := update s.parked p none }.goto c k')
  | _, _, _ => none

def next (K : Kernel L E I) (s : State L Cpu P) : Act Cpu P E I → Option (State L Cpu P × Unit)
  | .run c b => (s.run c b).map (·, ())
  | .dispatch c p => (s.dispatch c p).map (·, ())
  | .call c e =>
    match s.code c, s.proc c with
    | [], some _ => some (s.goto c [K.call e], ())
    | _, _ => none
  | .interrupt c i =>
    if s.ncli c = 0 then some (s.goto c (K.intr i (s.proc c).isSome :: s.code c), ()) else none

/-- All CPUs are in the loop of the scheduler, all processes about to run for the first
time, with the lock that the scheduler hands over. -/
def boot (K : Kernel L E I) : State L Cpu P where
  lock := fun _ => none
  ncli := fun _ => 0
  code := fun _ => [.loop (.block [.acquire K.sched, .pick, .release K.sched])]
  proc := fun _ => none
  saved := fun _ => []
  parked := fun _ => some [.release K.sched]

def Init (K : Kernel L E I) (s : State L Cpu P) : Prop := s = boot K

omit [DecidableEq L] [DecidableEq Cpu] [DecidableEq P] in
theorem boot_init (K : Kernel L E I) : Init K (boot K : State L Cpu P) := rfl

/-- A CPU spins in `acquire` on a lock that another one holds. -/
def Waits (s : State L Cpu P) (c c' : Cpu) : Prop :=
  ∃ l k, s.code c = .acquire l :: k ∧ s.lock l = some c'

/-! ## The order of locks -/

section Order

variable (rank : L → Nat) (K : Kernel L E I)

/-- `H c` are the locks of a CPU, and all code is in order. -/
structure Inv (s : State L Cpu P) (H : Cpu → List L) : Prop where
  nodup : ∀ c, (H c).Nodup
  lock : ∀ l c, s.lock l = some c ↔ l ∈ H c
  ncli : ∀ c, s.ncli c = (H c).length
  code : ∀ c, Code.afterAll rank K.sched (s.code c) (H c) = some []
  saved : ∀ c p, s.proc c = some p → Code.afterAll rank K.sched (s.saved c) [K.sched] = some []
  parked : ∀ p k, s.parked p = some k → Code.afterAll rank K.sched k [K.sched] = some []

variable {rank K} {s s' : State L Cpu P} {H : Cpu → List L}

variable {k : List (Code L)} {c : Cpu}

omit [DecidableEq P] in
theorem Inv.goto (h : Inv rank K s H)
    (hk : Code.afterAll rank K.sched k (H c) = some []) : Inv rank K (s.goto c k) H where
  nodup := h.nodup
  lock := h.lock
  ncli := h.ncli
  code := by
    intro c'
    by_cases hc : c' = c
    · subst hc
      simpa [State.goto] using hk
    · simpa [State.goto, hc] using h.code c'
  saved := h.saved
  parked := h.parked

omit [DecidableEq Cpu] [DecidableEq P] in
theorem Inv.head (h : Inv rank K s H) {a : Code L}
    (hc : s.code c = a :: k) :
    ∃ H', a.after rank K.sched (H c) = some H' ∧ Code.afterAll rank K.sched k H' = some [] := by
  have hcode := h.code c
  rw [hc] at hcode
  exact Option.bind_eq_some_iff.mp hcode

omit [DecidableEq Cpu] [DecidableEq P] in
theorem Inv.acquires (h : Inv rank K s H) {l : L}
    (hc : s.code c = .acquire l :: k) :
    (∀ h' ∈ H c, rank h' < rank l) ∧ Code.afterAll rank K.sched k (l :: H c) = some [] := by
  obtain ⟨H', hafter, hk⟩ := h.head hc
  unfold Code.after at hafter
  split at hafter
  · next hrank =>
    cases hafter
    exact ⟨hrank, hk⟩
  · cases hafter

omit [DecidableEq P] in
theorem Inv.acquire (h : Inv rank K s H) {l : L}
    (hc : s.code c = .acquire l :: k) (hfree : s.lock l = none) :
    Inv rank K ({ s with
      lock := update s.lock l (some c)
      ncli := update s.ncli c (s.ncli c + 1) }.goto c k)
      (update H c (l :: H c)) := by
  obtain ⟨-, hk⟩ := h.acquires hc
  have hnot : ∀ c', l ∉ H c' := by
    intro c' hmem
    rw [← h.lock, hfree] at hmem
    cases hmem
  refine ⟨fun c' => ?_, fun l' c' => ?_, fun c' => ?_, fun c' => ?_, h.saved, h.parked⟩
  · by_cases hcc : c' = c
    · subst hcc
      simpa using ⟨hnot c', h.nodup c'⟩
    · simpa [hcc] using h.nodup c'
  · by_cases hl : l' = l
    · subst hl
      by_cases hcc : c' = c
      · simp [State.goto, hcc]
      · simp [State.goto, hcc, hnot, Ne.symm hcc]
    · by_cases hcc : c' = c
      · simp [State.goto, hcc, hl, h.lock]
      · simp [State.goto, hcc, hl, h.lock]
  · by_cases hcc : c' = c
    · simp [State.goto, hcc, h.ncli]
    · simp [State.goto, hcc, h.ncli]
  · by_cases hcc : c' = c
    · simpa [State.goto, hcc] using hk
    · simpa [State.goto, hcc] using h.code c'

omit [DecidableEq P] in
theorem Inv.release (h : Inv rank K s H) {l : L}
    (hc : s.code c = .release l :: k) (hheld : s.lock l = some c) :
    Inv rank K ({ s with
      lock := update s.lock l none
      ncli := update s.ncli c (s.ncli c - 1) }.goto c k)
      (update H c ((H c).erase l)) := by
  have hmem : l ∈ H c := (h.lock l c).mp hheld
  have hk : Code.afterAll rank K.sched k ((H c).erase l) = some [] := by
    obtain ⟨H', hafter, hk⟩ := h.head hc
    unfold Code.after at hafter
    rw [if_pos hmem] at hafter
    cases hafter
    exact hk
  refine ⟨fun c' => ?_, fun l' c' => ?_, fun c' => ?_, fun c' => ?_, h.saved, h.parked⟩
  · by_cases hcc : c' = c
    · subst hcc
      simpa using (h.nodup c').erase l
    · simpa [hcc] using h.nodup c'
  · by_cases hl : l' = l
    · subst hl
      by_cases hcc : c' = c
      · subst hcc
        simp [State.goto, (h.nodup c').not_mem_erase]
      · have hother : l' ∉ H c' := by
          intro hm
          rw [← h.lock, hheld] at hm
          exact hcc (Option.some.inj hm).symm
        simp [State.goto, hcc, hother]
    · by_cases hcc : c' = c
      · simp [State.goto, hcc, hl, h.lock, List.mem_erase_of_ne hl]
      · simp [State.goto, hcc, hl, h.lock]
  · by_cases hcc : c' = c
    · simp [State.goto, hcc, h.ncli, List.length_erase_of_mem hmem]
    · simp [State.goto, hcc, h.ncli]
  · by_cases hcc : c' = c
    · simpa [State.goto, hcc] using hk
    · simpa [State.goto, hcc] using h.code c'

omit [DecidableEq Cpu] [DecidableEq P] in
theorem Inv.only_sched (h : Inv rank K s H) {a : Code L}
    (hc : s.code c = a :: k) (ha : a = .swtch ∨ a = .pick) :
    H c = [K.sched] ∧ Code.afterAll rank K.sched k [K.sched] = some [] := by
  obtain ⟨H', hafter, hk⟩ := h.head hc
  have hif : (if H c = [K.sched] then some (H c) else none) = some H' := by
    rcases ha with rfl | rfl <;> exact hafter
  split at hif
  · next heq =>
    cases hif
    exact ⟨heq, heq ▸ hk⟩
  · cases hif

theorem Inv.swtch (h : Inv rank K s H) {p : P}
    (hc : s.code c = .swtch :: k) (hp : s.proc c = some p) :
    Inv rank K ({ s with
      proc := update s.proc c none
      parked := update s.parked p (some k) }.goto c (s.saved c)) H := by
  obtain ⟨hH, hk⟩ := h.only_sched hc (Or.inl rfl)
  have hi : Inv rank K { s with
      proc := update s.proc c none
      parked := update s.parked p (some k) } H := by
    refine ⟨h.nodup, h.lock, h.ncli, h.code, fun c' q hq => ?_, fun q k' hq => ?_⟩
    · by_cases hcc : c' = c
      · subst hcc
        simp at hq
      · exact h.saved c' q (by simpa [hcc] using hq)
    · by_cases hqp : q = p
      · subst hqp
        simp only [update_self, Option.some.injEq] at hq
        exact hq ▸ hk
      · exact h.parked q k' (by simpa [hqp] using hq)
  refine hi.goto ?_
  rw [hH]
  exact h.saved c p hp

theorem Inv.dispatch (h : Inv rank K s H) {p : P} (hs : s.dispatch c p = some s') :
    Inv rank K s' H := by
  unfold State.dispatch at hs
  split at hs
  · next k k' hc hp hk' =>
    cases hs
    obtain ⟨hH, hk⟩ := h.only_sched hc (Or.inr rfl)
    have hi : Inv rank K { s with
        proc := update s.proc c (some p)
        saved := update s.saved c k
        parked := update s.parked p none } H := by
      refine ⟨h.nodup, h.lock, h.ncli, h.code, fun c' q hq => ?_, fun q k₂ hq => ?_⟩
      · by_cases hcc : c' = c
        · subst hcc
          simpa using hk
        · simpa [hcc] using h.saved c' q (by simpa [hcc] using hq)
      · by_cases hqp : q = p
        · subst hqp
          simp at hq
        · exact h.parked q k₂ (by simpa [hqp] using hq)
    refine hi.goto ?_
    rw [hH]
    exact h.parked p k' hk'
  · cases hs

/-- A bit of code keeps to the order. -/
theorem Inv.run (h : Inv rank K s H) {b : Bool} (hs : s.run c b = some s') :
    ∃ H', Inv rank K s' H' := by
  unfold State.run at hs
  split at hs
  · cases hs
  · next k hc =>
    cases hs
    obtain ⟨H', hafter, hk⟩ := h.head hc
    cases hafter
    exact ⟨H, h.goto hk⟩
  · next k hc =>
    cases hs
    obtain ⟨hH, hk⟩ := h.only_sched hc (Or.inr rfl)
    exact ⟨H, h.goto (hH ▸ hk)⟩
  · next l k hc =>
    split at hs
    · next hfree =>
      cases hs
      exact ⟨_, h.acquire hc hfree⟩
    · cases hs
  · next l k hc =>
    split at hs
    · next hheld =>
      cases hs
      exact ⟨_, h.release hc hheld⟩
    · cases hs
  · next k hc =>
    split at hs
    · next p hp =>
      cases hs
      exact ⟨H, h.swtch hc hp⟩
    · cases hs
  · next a₁ a₂ k hc =>
    cases hs
    obtain ⟨H', hafter, hk⟩ := h.head hc
    refine ⟨H, h.goto ?_⟩
    obtain ⟨H₁, h₁, h₂⟩ := Option.bind_eq_some_iff.mp hafter
    simp [Code.afterAll, h₁, h₂, hk]
  · next a k hc =>
    cases hs
    obtain ⟨H', hafter, hk⟩ := h.head hc
    unfold Code.after at hafter
    split at hafter
    · next hbody =>
      cases hafter
      refine ⟨H, h.goto ?_⟩
      split
      · simp [Code.afterAll, Code.after, hbody, hk]
      · exact hk
    · cases hafter
  · next a₁ a₂ k hc =>
    cases hs
    obtain ⟨H', hafter, hk⟩ := h.head hc
    unfold Code.after at hafter
    split at hafter
    · next heq =>
      refine ⟨H, h.goto ?_⟩
      split
      · simp [Code.afterAll, hafter, hk]
      · simp [Code.afterAll, ← heq, hafter, hk]
    · cases hafter

/-- The interrupts of a run are among those for which `C` holds. -/
def Allowed (C : I → Prop) (_ : State L Cpu P) : Act Cpu P E I → Prop
  | .interrupt _ i => C i
  | _ => True

theorem Inv.next {C : I → Prop} (hK : K.Ordered rank C) (h : Inv rank K s H)
    {x : Act Cpu P E I} {u : Unit} (hs : s.next K x = some (s', u)) (hC : Allowed C s x) :
    ∃ H', Inv rank K s' H' := by
  cases x with
  | run c b =>
    obtain ⟨s₁, hrun, heq⟩ := Option.map_eq_some_iff.mp hs
    cases heq
    exact h.run hrun
  | dispatch c p =>
    obtain ⟨s₁, hd, heq⟩ := Option.map_eq_some_iff.mp hs
    cases heq
    exact ⟨H, h.dispatch hd⟩
  | call c e =>
    simp only [State.next] at hs
    split at hs
    · next p hcode hp =>
      cases hs
      have hnone : H c = [] := by
        have hc := h.code c
        rw [hcode] at hc
        exact Option.some.inj hc
      refine ⟨H, h.goto ?_⟩
      rw [hnone]
      have hcall : (K.call e).after rank K.sched [] = some [] := hK.call e
      simp [Code.afterAll, hcall]
    · cases hs
  | interrupt c i =>
    simp only [State.next] at hs
    split at hs
    · next hcli =>
      cases hs
      have hnone : H c = [] := List.eq_nil_of_length_eq_zero ((h.ncli c).symm.trans hcli)
      refine ⟨H, h.goto ?_⟩
      have hintr : (K.intr i (s.proc c).isSome).after rank K.sched [] = some [] :=
        hK.intr i _ hC
      have hcode := h.code c
      rw [hnone] at hcode ⊢
      simp [Code.afterAll, hintr, hcode]
    · cases hs

omit [DecidableEq Cpu] [DecidableEq P] in
theorem boot_inv : Inv rank K (boot K : State L Cpu P) fun _ => [] := by
  refine ⟨fun _ => List.nodup_nil, ?_, fun _ => rfl, fun c => ?_, ?_, ?_⟩
  · simp [boot]
  · simp [boot, Code.afterAll, Code.after, Code.block]
  · simp [boot]
  · intro p k hk
    cases hk
    simp [Code.afterAll, Code.after]

/-! ## No circle -/

omit [DecidableEq Cpu] [DecidableEq P] in
theorem Inv.chain (h : Inv rank K s H) {c c' : Cpu} (hw : Relation.TransGen s.Waits c c') :
    ∃ l k l', s.code c = .acquire l :: k ∧ rank l ≤ rank l' ∧ s.lock l' = some c' := by
  induction hw with
  | single hw =>
    obtain ⟨l, k, hc, hl⟩ := hw
    exact ⟨l, k, l, hc, Nat.le_refl _, hl⟩
  | tail _ hw ih =>
    obtain ⟨l, k, l₁, hc, hle, hl₁⟩ := ih
    obtain ⟨l₂, k₂, hc₂, hl₂⟩ := hw
    have hlt := (h.acquires hc₂).1 l₁ ((h.lock l₁ _).mp hl₁)
    exact ⟨l, k, l₂, hc, by omega, hl₂⟩

omit [DecidableEq Cpu] [DecidableEq P] in
theorem Inv.no_cycle (h : Inv rank K s H) (c : Cpu) : ¬ Relation.TransGen s.Waits c c := by
  intro hw
  obtain ⟨l, k, l', hc, hle, hl'⟩ := h.chain hw
  have hlt := (h.acquires hc).1 l' ((h.lock l' c).mp hl')
  omega

theorem inv_of_ordered {C : I → Prop} (hK : K.Ordered rank C) {tr : List (Act Cpu P E I × Unit)}
    (hrun : Trace.Run (Init K) (Trace.Only (Allowed C) (Trace.Next (next K))) tr s) :
    ∃ H, Inv rank K s H := by
  refine hrun.invariant (I := fun s => ∃ H, Inv rank K s H) ?_ ?_
  · intro s hs
    subst hs
    exact ⟨_, boot_inv⟩
  · rintro s l s' ⟨H, hH⟩ ⟨hs, hC⟩
    exact hH.next hK hs hC

theorem no_cycle_of_ordered {C : I → Prop} (hK : K.Ordered rank C)
    {tr : List (Act Cpu P E I × Unit)}
    (hrun : Trace.Run (Init K) (Trace.Only (Allowed C) (Trace.Next (next K))) tr s)
    (c : Cpu) : ¬ Relation.TransGen s.Waits c c := by
  obtain ⟨H, hH⟩ := inv_of_ordered hK hrun
  exact hH.no_cycle c

end Order

end State

end Spin
