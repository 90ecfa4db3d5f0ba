import Mathlib.Data.Option.Basic
import Xv6.Lib.Run

/-!
# The interrupt flag across locks and switches

`pushcli` and `popcli` of `spinlock.c`, with the switches of `sched` and `scheduler`. The count
`ncli` and the saved flag `intena` belong to a CPU, the nesting that they describe to the thread
that runs there, which `sched` may leave on one CPU to be resumed on another.
-/

namespace Xv6

namespace Interrupts

open Function Trace

/-- The fields of `struct cpu`, and the interrupt flag of its `eflags`. -/
structure Cpu where
  ncli : Int
  intena : Bool
  flag : Bool

def pushcli (k : Cpu) : Cpu :=
  { ncli := k.ncli + 1, intena := if k.ncli = 0 then k.flag else k.intena, flag := false }

def popcli (k : Cpu) : Except String Cpu :=
  if k.flag then .error "popcli - interruptible"
  else if k.ncli - 1 < 0 then .error "popcli"
  else .ok { k with ncli := k.ncli - 1, flag := decide (k.ncli - 1 = 0) && k.intena }

structure Thread where
  /-- The locks that it has acquired and not released. -/
  depth : Nat
  /-- The flag when the depth last left zero; a new process has not been there. -/
  left : Option Bool
  /-- The local variable `intena` of `sched`, while the thread is in its `swtch`. -/
  saved : Option Bool

/-- A process begins in `forkret`, with the lock that `scheduler` has acquired. -/
def Thread.new : Thread := ⟨1, none, none⟩

/-- The threads are the schedulers of the CPUs and the processes, of all times. -/
structure System (C P : Type*) where
  cpu : C → Cpu
  /-- The process on a CPU; the scheduler runs if there is none. -/
  runs : C → Option P
  thread : C ⊕ P → Thread

variable {C P : Type*}

def System.current (s : System C P) (c : C) : C ⊕ P := (s.runs c).elim (.inl c) .inr

structure Initial (s : System C P) : Prop where
  runs : ∀ c, s.runs c = none
  ncli : ∀ c, (s.cpu c).ncli = 0
  idle : ∀ c, (s.thread (.inl c)).depth = 0
  new : ∀ p, s.thread (.inr p) = Thread.new

section

variable [DecidableEq C] [DecidableEq P]

/-- A step of the thread that runs on a CPU. -/
def System.put (s : System C P) (c : C) (k : Cpu) (t : Thread) : System C P :=
  { s with cpu := update s.cpu c k, thread := update s.thread (s.current c) t }

/-- A CPU leaves the process `p` or takes it up. -/
def System.switch (s : System C P) (c : C) (k : Cpu) (r : Option P) (p : P) (t : Thread) :
    System C P :=
  { cpu := update s.cpu c k, runs := update s.runs c r, thread := update s.thread (.inr p) t }

def Thread.acquire (t : Thread) (flag : Bool) : Thread :=
  { t with depth := t.depth + 1, left := if t.depth = 0 then some flag else t.left }

/-- The steps of a CPU. `pushcli` is one step: an interrupt between its reading of the flag and
its `cli` returns with the flag as it was. -/
inductive Step : System C P → C → System C P → Prop
  | acquire (s : System C P) (c : C) :
    Step s c (s.put c (pushcli (s.cpu c)) ((s.thread (s.current c)).acquire (s.cpu c).flag))
  | release (s : System C P) (c : C) (t : Thread) (k : Cpu) (ht : t = s.thread (s.current c))
    (hdepth : 0 < t.depth) (hpop : popcli (s.cpu c) = .ok k) :
    Step s c (s.put c k { t with depth := t.depth - 1 })
  /-- `cli`, `sti`, the entry into a trap and the return from it. -/
  | setFlag (s : System C P) (c : C) (b : Bool) (hdepth : (s.thread (s.current c)).depth = 0) :
    Step s c (s.put c { s.cpu c with flag := b } (s.thread (s.current c)))
  | sched (s : System C P) (c : C) (p : P) (hrun : s.runs c = some p)
    (hncli : (s.cpu c).ncli = 1) :
    Step s c (s.switch c (s.cpu c) none p
      { s.thread (.inr p) with saved := some (s.cpu c).intena })
  /-- `scheduler` switches to a process, which sets `intena` if it is in `sched`. -/
  | dispatch (s : System C P) (c : C) (p : P) (hrun : s.runs c = none)
    (hdepth : (s.thread (.inl c)).depth = 1) (hfree : ∀ a, s.runs a ≠ some p) :
    Step s c (s.switch c
      { s.cpu c with intena := (s.thread (.inr p)).saved.getD (s.cpu c).intena } (some p) p
      { s.thread (.inr p) with saved := none })

end

/-! ## One CPU -/

variable {k k' : Cpu} {t : Thread} {i : Bool}

theorem popcli_ok (hpos : 0 < k.ncli) (hoff : k.flag = false) : popcli k =
    .ok { k with ncli := k.ncli - 1, flag := decide (k.ncli - 1 = 0) && k.intena } := by
  unfold popcli
  rw [hoff, if_neg Bool.false_ne_true, if_neg (by omega)]

theorem popcli_inv (h : popcli k = .ok k') : k'.ncli = k.ncli - 1 ∧ k'.intena = k.intena ∧
    (0 < k'.ncli → k'.flag = false) := by
  unfold popcli at h
  split at h
  · cases h
  · split at h
    · cases h
    · cases h
      refine ⟨rfl, rfl, fun hpos => ?_⟩
      dsimp only at hpos ⊢
      rw [decide_eq_false (by omega), Bool.false_and]

/-- What the thread that runs on a CPU finds there; `i` says that it is a process. -/
structure Fits (k : Cpu) (t : Thread) (i : Bool) : Prop where
  ncli : k.ncli = t.depth
  off : 0 < k.ncli → k.flag = false
  intena : i = true → 0 < t.depth → ∀ b, t.left = some b → k.intena = b

theorem Fits.acquire (h : Fits k t i) : Fits (pushcli k) (t.acquire k.flag) i := by
  have hncli := h.ncli
  refine ⟨?_, fun _ => rfl, fun hi _ b hb => ?_⟩
  · simp [pushcli, Thread.acquire, hncli]
  · unfold Thread.acquire at hb
    unfold pushcli
    by_cases hd : t.depth = 0
    · simp only [hd, if_true] at hb
      simp only [hncli, hd, Int.natCast_zero, if_true]
      exact Option.some_injective _ hb
    · simp only [hd, if_false] at hb
      simp only [hncli, Int.natCast_eq_zero, hd, if_false]
      exact h.intena hi (Nat.pos_of_ne_zero hd) b hb

theorem Fits.release (h : Fits k t i) (hdepth : 0 < t.depth) (hpop : popcli k = .ok k') :
    Fits k' { t with depth := t.depth - 1 } i := by
  have hncli := h.ncli
  obtain ⟨hk, hintena, hoff⟩ := popcli_inv hpop
  refine ⟨?_, hoff, fun hi _ b hb => ?_⟩
  · dsimp only
    omega
  · rw [hintena]
    exact h.intena hi hdepth b hb

theorem Fits.setFlag (h : Fits k t i) (hdepth : t.depth = 0) (b : Bool) :
    Fits { k with flag := b } t i := by
  have hncli := h.ncli
  refine ⟨hncli, fun hpos => ?_, h.intena⟩
  dsimp only at hpos
  omega

/-! ## The invariant -/

/-- A thread that runs nowhere holds one lock and has saved the flag that it has left. -/
structure Waits (t : Thread) : Prop where
  depth : t.depth = 1
  saved : ∀ b, t.left = some b → t.saved = some b

structure Inv (s : System C P) : Prop where
  apart : ∀ a b p, s.runs a = some p → s.runs b = some p → a = b
  fits : ∀ c, Fits (s.cpu c) (s.thread (s.current c)) (s.runs c).isSome
  waits : ∀ p, (∀ c, s.runs c ≠ some p) → Waits (s.thread (.inr p))
  idle : ∀ c, s.runs c ≠ none → (s.thread (.inl c)).depth = 1

variable {s s' : System C P} {c : C} {r : Option P}

theorem Initial.inv (h : Initial s) : Inv s where
  apart a b p ha := by
    rw [h.runs] at ha
    cases ha
  fits a := by
    have hcur : s.current a = .inl a := congrArg (Option.elim · _ _) (h.runs a)
    rw [hcur, h.runs]
    refine ⟨?_, fun hpos => ?_, fun hp => absurd hp Bool.false_ne_true⟩
    · rw [h.ncli, h.idle]
      rfl
    · rw [h.ncli] at hpos
      exact absurd hpos (Int.lt_irrefl 0)
  waits p _ := by
    rw [h.new]
    exact ⟨rfl, fun b hb => hb⟩
  idle a hne := absurd (h.runs a) hne

theorem System.current_inr {p : P} : s.current c = .inr p ↔ s.runs c = some p := by
  unfold System.current
  cases s.runs c with
  | none => simp
  | some q => simp

theorem System.current_inl {a : C} (h : s.current c = .inl a) : s.runs c = none ∧ a = c := by
  unfold System.current at h
  cases hr : s.runs c with
  | none =>
    rw [hr] at h
    exact ⟨rfl, (Sum.inl.inj h).symm⟩
  | some q =>
    rw [hr] at h
    cases h

theorem Inv.current_ne (h : Inv s) {a : C} (ha : a ≠ c) : s.current a ≠ s.current c := by
  intro heq
  cases hc : s.current c with
  | inl b =>
    rw [hc] at heq
    exact ha ((System.current_inl heq).2.symm.trans (System.current_inl hc).2)
  | inr p =>
    rw [hc] at heq
    exact ha (h.apart a c p (System.current_inr.mp heq) (System.current_inr.mp hc))

variable [DecidableEq C] [DecidableEq P]

theorem Inv.put (h : Inv s) (hfits : Fits k t (s.runs c).isSome) : Inv (s.put c k t) where
  apart := h.apart
  fits a := by
    change Fits (update s.cpu c k a) (update s.thread (s.current c) t (s.current a)) _
    by_cases hac : a = c
    · subst hac
      rw [update_self, update_self]
      exact hfits
    · rw [update_of_ne hac, update_of_ne (h.current_ne hac)]
      exact h.fits a
  waits p hp := by
    change Waits (update s.thread (s.current c) t (.inr p))
    have hne : .inr p ≠ s.current c := fun heq => hp c (System.current_inr.mp heq.symm)
    rw [update_of_ne hne]
    exact h.waits p hp
  idle a ha := by
    change (update s.thread (s.current c) t (.inl a)).depth = 1
    have hne : .inl a ≠ s.current c := by
      intro heq
      obtain ⟨hnone, rfl⟩ := System.current_inl heq.symm
      exact ha hnone
    rw [update_of_ne hne]
    exact h.idle a ha

theorem Inv.switch (h : Inv s) {p : P} (hother : ∀ a, a ≠ c → s.runs a ≠ some p)
    (hr : ∀ q, q ≠ p → (r = some q ↔ s.runs c = some q))
    (hfits : Fits k (update s.thread (.inr p) t (r.elim (.inl c) .inr)) r.isSome)
    (hwaits : r ≠ some p → Waits t) (hidle : (s.thread (.inl c)).depth = 1) :
    Inv (s.switch c k r p t) := by
  have halone : ∀ a q, a ≠ c → s.runs a = some q → r ≠ some q := by
    intro a q ha haq hrq
    by_cases hq : q = p
    · exact hother a ha (hq ▸ haq)
    · exact ha (h.apart a c q haq ((hr q hq).mp hrq))
  refine ⟨fun a b q ha hb => ?_, fun a => ?_, fun q hq => ?_, fun a ha => ?_⟩
  · simp only [System.switch, update_apply] at ha hb
    split at ha
    · next hac =>
      split at hb
      · next hbc => rw [hac, hbc]
      · next hbc => exact absurd ha (halone b q hbc hb)
    · next hac =>
      split at hb
      · exact absurd hb (halone a q hac ha)
      · exact h.apart a b q ha hb
  · by_cases hac : a = c
    · subst hac
      simpa only [System.switch, System.current, update_self] using hfits
    · have := h.fits a
      rw [← update_of_ne (mt System.current_inr.mp (hother a hac)) t s.thread] at this
      simpa only [System.switch, System.current, update_of_ne hac] using this
  · by_cases hqp : q = p
    · subst hqp
      have hne := hq c
      simp only [System.switch, update_self] at hne ⊢
      exact hwaits hne
    · have hrest : ∀ a, s.runs a ≠ some q := by
        intro a ha
        refine hq a ?_
        by_cases hac : a = c
        · simpa only [System.switch, hac, update_self] using (hr q hqp).mpr (hac ▸ ha)
        · simpa only [System.switch, update_of_ne hac] using ha
      have hne : (.inr q : C ⊕ P) ≠ .inr p := fun heq => hqp (Sum.inr.inj heq)
      simpa only [System.switch, update_of_ne hne] using h.waits q hrest
  · change (update s.thread (.inr p) t (.inl a)).depth = 1
    rw [update_of_ne Sum.inl_ne_inr]
    by_cases hac : a = c
    · rw [hac]
      exact hidle
    · simp only [System.switch, update_of_ne hac] at ha
      exact h.idle a ha

theorem Step.inv (hs : Step s c s') (h : Inv s) : Inv s' := by
  have hfits := h.fits c
  cases hs with
  | acquire => exact h.put hfits.acquire
  | release t k ht hdepth hpop =>
    subst ht
    exact h.put (hfits.release hdepth hpop)
  | setFlag b hdepth => exact h.put (hfits.setFlag hdepth b)
  | sched p hrun hncli =>
    rw [System.current_inr.mpr hrun, hrun] at hfits
    have hdepth : (s.thread (.inr p)).depth = 1 := by
      have := hfits.ncli
      omega
    have hidle := h.idle c (by rw [hrun]; exact Option.some_ne_none p)
    refine h.switch (fun a ha hap => ha (h.apart a c p hap hrun)) (fun q hq => ?_) ?_
      (fun _ => ⟨hdepth, fun b hb => congrArg some ?_⟩) hidle
    · rw [hrun]
      refine ⟨fun hn => ?_, fun hs => absurd (Option.some_injective _ hs).symm hq⟩
      cases hn
    · rw [Option.elim_none, update_of_ne Sum.inl_ne_inr]
      refine ⟨?_, hfits.off, fun hp => absurd hp Bool.false_ne_true⟩
      rw [hncli, hidle]
      rfl
    · exact hfits.intena rfl (by rw [hdepth]; exact Nat.one_pos) b hb
  | dispatch p hrun hdepth hfree =>
    have hwaits := h.waits p hfree
    have hcur : s.current c = .inl c := congrArg (Option.elim · _ _) hrun
    rw [hcur] at hfits
    refine h.switch (fun a _ => hfree a) (fun q hq => ?_) ?_ (fun hne => absurd rfl hne) hdepth
    · rw [hrun]
      refine ⟨fun hs => absurd (Option.some_injective _ hs).symm hq, fun hn => ?_⟩
      cases hn
    · rw [Option.elim_some, update_self]
      refine ⟨?_, hfits.off, fun _ _ b hb => ?_⟩
      · exact hfits.ncli.trans (congrArg Int.ofNat (hdepth.trans hwaits.depth.symm))
      · dsimp only
        rw [hwaits.saved b hb]
        rfl

/-- Interrupts are off as long as a CPU counts a lock, no release panics, and the release that
brings a process to depth zero leaves the flag that the process had when it left zero. -/
theorem interrupts_restored {tr : List C} (h : Run Initial Step tr s) (c : C) :
    (0 < (s.cpu c).ncli → (s.cpu c).flag = false) ∧
    (0 < (s.thread (s.current c)).depth → ∃ k, popcli (s.cpu c) = .ok k ∧
      ∀ p b, s.runs c = some p → (s.thread (.inr p)).depth = 1 →
        (s.thread (.inr p)).left = some b → k.flag = b) := by
  have hinv : Inv s := h.invariant (fun _ => Initial.inv) fun _ _ _ hi hs => hs.inv hi
  have hfits := hinv.fits c
  have hncli := hfits.ncli
  refine ⟨hfits.off, fun hpos => ?_⟩
  have hlt : 0 < (s.cpu c).ncli := by omega
  refine ⟨_, popcli_ok hlt (hfits.off hlt), fun p b hrun hdepth hb => ?_⟩
  rw [System.current_inr.mpr hrun, hrun] at hfits
  have hone := hfits.ncli
  rw [hdepth] at hone
  dsimp only
  rw [hone, hfits.intena rfl (by rw [hdepth]; exact Nat.one_pos) b hb]
  rfl

def boot : System Unit Unit where
  cpu _ := ⟨0, false, false⟩
  runs _ := none
  thread := Sum.elim (fun _ => ⟨0, none, none⟩) fun _ => Thread.new

theorem resumed_with_interrupts : ∃ s : System Unit Unit,
    Run Initial Step (List.replicate 7 ()) s ∧ (s.thread (.inr ())).left = some true ∧
    ∃ k, popcli (s.cpu ()) = .ok k ∧ k.flag = true := by
  have hboot : Initial boot := ⟨fun _ => rfl, fun _ => rfl, fun _ => rfl, fun _ => rfl⟩
  have hrun := (Run.start hboot).snoc (Step.acquire _ ())
  have hrun := hrun.snoc (Step.dispatch _ () () rfl rfl fun _ => (Option.some_ne_none ()).symm)
  have hrun := hrun.snoc (Step.release _ () _ _ rfl (by decide) rfl)
  have hrun := hrun.snoc (Step.setFlag _ () true rfl)
  have hrun := hrun.snoc (Step.acquire _ ())
  have hrun := hrun.snoc (Step.sched _ () () rfl rfl)
  have hrun := hrun.snoc (Step.dispatch _ () () rfl rfl fun _ => (Option.some_ne_none ()).symm)
  obtain ⟨k, hpop, hflag⟩ := (interrupts_restored hrun ()).2 (by decide)
  exact ⟨_, hrun, rfl, k, hpop, hflag () true rfl rfl rfl⟩

end Interrupts

end Xv6
