import Xv6.Log.Step

/-!
# Invariants of the log protocol

`outstanding` counts the operations, `committing` says that a process is in `commit`, and the
two exclude each other. While neither holds the log is empty, so nobody goes to sleep; and
`wakeup` needs `ptable.lock` before `log.lock` is released, so nobody is left asleep.
-/

namespace Xv6

namespace LogSys

variable {P : Type} [DecidableEq P]

section Fields

variable (s : LogSys P) (p q : P) (k : Pc)

@[simp, grind =] theorem setPc_pc : (s.setPc p k).pc q = if q = p then k else s.pc q := by
  simp [setPc, Function.update_apply]

@[simp, grind =] theorem setPc_log : (s.setPc p k).log = s.log := rfl

@[simp, grind =] theorem setPc_lock : (s.setPc p k).lock = s.lock := rfl

@[simp, grind =] theorem setPc_ptable : (s.setPc p k).ptable = s.ptable := rfl

@[simp, grind =] theorem setPc_handed : (s.setPc p k).handed = s.handed := rfl

omit [DecidableEq P] in
@[simp, grind =] theorem wakeup_pc :
    s.wakeup.pc p = if s.pc p = .asleep then .woken else s.pc p := rfl

omit [DecidableEq P] in
@[simp, grind =] theorem wakeup_log : s.wakeup.log = s.log := rfl

omit [DecidableEq P] in
@[simp, grind =] theorem wakeup_lock : s.wakeup.lock = s.lock := rfl

omit [DecidableEq P] in
@[simp, grind =] theorem wakeup_ptable : s.wakeup.ptable = s.ptable := rfl

omit [DecidableEq P] in
@[simp, grind =] theorem wakeup_handed : s.wakeup.handed = s.handed := rfl

variable {s p k}

theorem setPc_congr (f : Pc → Bool) {t : LogSys P} (ht : ∀ q, f (t.pc q) = f (s.pc q))
    (hk : f k = f (s.pc p)) (q : P) : f ((t.setPc p k).pc q) = f (s.pc q) := by
  rw [setPc_pc]
  split
  · next hq =>
    subst hq
    exact hk
  · exact ht q

omit [DecidableEq P] in
theorem wakeup_congr (f : Pc → Bool) (hf : f .woken = f .asleep) (q : P) :
    f (s.wakeup.pc q) = f (s.pc q) := by
  rw [wakeup_pc]
  split
  · next hq =>
    rwa [hq]
  · rfl

end Fields

structure Inv (s : LogSys P) : Prop where
  lock : ∀ {p}, s.lock = some p ↔ (s.pc p).holdsLog = true
  ptable : ∀ {p}, s.ptable = some p ↔ (s.pc p).holdsPtable = true
  ops : ∃ ops : Finset P, (∀ p, p ∈ ops ↔ (s.pc p).inOp = true) ∧ s.log.outstanding = ops.card
  committing : s.log.committing = true ↔ ∃ p, (s.pc p).commits = true
  committer : ∀ {p q}, (s.pc p).commits = true → (s.pc q).commits = true → p = q
  idle : s.log.committing = true → s.log.outstanding = 0
  empty : s.log.outstanding = 0 → s.log.committing = false → s.log.lh = []
  erased : ∀ {p}, s.pc p = .commit .eraseHead ∨ s.pc p = .finish → s.log.lh = []
  sleepers : ∀ {p}, (s.pc p).sleeps = true →
    0 < s.log.outstanding ∨ s.log.committing = true ∨ ∃ q, s.pc q = .wake

namespace Inv

variable {s s' : LogSys P} {a : Act P} {e : Option (Event P)}

section Step

variable (h : Inv s) (hs : Step s a e s')

include h hs

theorem step_lock {p : P} : s'.lock = some p ↔ (s'.pc p).holdsLog = true := by
  obtain ⟨hlock, -⟩ := h
  cases hs <;> grind [Pc.holdsLog]

theorem step_ptable {p : P} : s'.ptable = some p ↔ (s'.pc p).holdsPtable = true := by
  obtain ⟨hlock, hptable, -⟩ := h
  cases hs <;> grind [Pc.holdsPtable, Pc.holdsLog]

omit h hs [DecidableEq P] in
theorem ops_congr (hops : ∃ ops : Finset P, (∀ p, p ∈ ops ↔ (s.pc p).inOp = true) ∧
      s.log.outstanding = ops.card)
    (hpc : ∀ q, (s'.pc q).inOp = (s.pc q).inOp) (ho : s'.log.outstanding = s.log.outstanding) :
    ∃ ops : Finset P, (∀ p, p ∈ ops ↔ (s'.pc p).inOp = true) ∧
      s'.log.outstanding = ops.card := by
  obtain ⟨ops, hmem, hcard⟩ := hops
  exact ⟨ops, fun p => by rw [hpc]; exact hmem p, ho.trans hcard⟩

omit h hs in
theorem ops_erase {p : P} (hops : ∃ ops : Finset P, (∀ p, p ∈ ops ↔ (s.pc p).inOp = true) ∧
      s.log.outstanding = ops.card) (hp : (s.pc p).inOp = true) {k : Pc} (hk : k.inOp = false) :
    ∃ ops : Finset P, (∀ q, q ∈ ops ↔ (if q = p then k else s.pc q).inOp = true) ∧
      s.log.outstanding - 1 = ops.card := by
  obtain ⟨ops, hmem, hcard⟩ := hops
  have hp' := (hmem p).mpr hp
  refine ⟨ops.erase p, fun q => ?_, ?_⟩
  · by_cases hq : q = p
    · simp [hq, hk]
    · simp [hq, hmem]
  · have := Finset.card_erase_add_one hp'
    omega

theorem step_ops : ∃ ops : Finset P, (∀ p, p ∈ ops ↔ (s'.pc p).inOp = true) ∧
    s'.log.outstanding = ops.card := by
  cases hs with
  | @begun p hpc hc hx =>
    obtain ⟨ops, hmem, hcard⟩ := h.ops
    have hp : p ∉ ops := by
      rw [hmem, hpc]
      exact nofun
    refine ⟨insert p ops, fun q => ?_, ?_⟩
    · by_cases hq : q = p
      · simp [hq, Pc.inOp]
      · simp [hq, hmem]
    · rw [Finset.card_insert_of_notMem hp]
      dsimp only [setPc_log]
      omega
  | @endLast p hpc hl hc ho =>
    obtain ⟨ops, hmem, hcard⟩ := ops_erase h.ops (p := p) (k := .commit .start)
      (by rw [hpc]; rfl) rfl
    exact ⟨ops, by simpa using hmem, hcard⟩
  | @endOther p hpc hl hc ho =>
    obtain ⟨ops, hmem, hcard⟩ := ops_erase h.ops (p := p) (k := .wake) (by rw [hpc]; rfl) rfl
    exact ⟨ops, by simpa using hmem, hcard⟩
  | insert hpc hl =>
    exact ops_congr h.ops (setPc_congr Pc.inOp (fun _ => rfl) (by rw [hpc]; rfl))
      (Log.record_outstanding ..)
  | wake hpc ht =>
    exact ops_congr h.ops (setPc_congr Pc.inOp (wakeup_congr _ rfl) (by rw [hpc]; rfl)) rfl
  | _ =>
    exact ops_congr h.ops (setPc_congr Pc.inOp (fun _ => rfl) (by rw [‹s.pc _ = _›]; rfl)) rfl

theorem step_committing : s'.log.committing = true ↔ ∃ p, (s'.pc p).commits = true := by
  have hkeep : (∀ q, (s'.pc q).commits = (s.pc q).commits) →
      s'.log.committing = s.log.committing →
      (s'.log.committing = true ↔ ∃ p, (s'.pc p).commits = true) := by
    intro hpc hc
    rw [hc, h.committing]
    simp only [hpc]
  cases hs with
  | @endLast p hpc hl hc ho => exact ⟨fun _ => ⟨p, by simp [Pc.commits]⟩, fun _ => rfl⟩
  | @finish p hpc hl =>
    refine ⟨nofun, ?_⟩
    rintro ⟨q, hq⟩
    by_cases hqp : q = p
    · simp [hqp, Pc.commits] at hq
    · -- there was one process in commit, and it has left
      rw [setPc_pc, if_neg hqp] at hq
      exact absurd (h.committer hq (by rw [hpc]; rfl)) hqp
  | insert hpc hl =>
    exact hkeep (setPc_congr Pc.commits (fun _ => rfl) (by rw [hpc]; rfl))
      (Log.record_committing ..)
  | wake hpc ht =>
    exact hkeep (setPc_congr Pc.commits (wakeup_congr _ rfl) (by rw [hpc]; rfl)) rfl
  | _ => exact hkeep (setPc_congr Pc.commits (fun _ => rfl) (by rw [‹s.pc _ = _›]; rfl)) rfl

theorem step_committer {p q : P} (hp : (s'.pc p).commits = true) (hq : (s'.pc q).commits = true) :
    p = q := by
  have hcomm := h.committing
  have huniq : ∀ {p q}, (s.pc p).commits = true → (s.pc q).commits = true → p = q := h.committer
  clear h
  cases hs <;> grind [Pc.commits]

omit hs [DecidableEq P] in
theorem outstanding_pos {p : P} (hp : (s.pc p).inOp = true) : 0 < s.log.outstanding := by
  obtain ⟨ops, hmem, hcard⟩ := h.ops
  have := Finset.card_pos.mpr ⟨p, (hmem p).mpr hp⟩
  omega

theorem step_idle (hc : s'.log.committing = true) : s'.log.outstanding = 0 := by
  have hidle := h.idle
  cases hs with
  | endLast hpc hl hc ho => exact ho
  | endOther hpc hl hc' ho | begun hpc hc' hx =>
    exact absurd hc (by rw [setPc_log, hc']; exact nofun)
  | finish hpc hl => cases hc
  | _ => grind

theorem step_empty (ho : s'.log.outstanding = 0) (hc : s'.log.committing = false) :
    s'.log.lh = [] := by
  have hempty := h.empty
  cases hs with
  | begun hpc hc' hx =>
    obtain ⟨ops, -, hcard⟩ := h.ops
    dsimp only [setPc_log] at ho
    omega
  | @insert p blockno hpc hl =>
    have hpos := h.outstanding_pos (p := p) (by rw [hpc]; rfl)
    rw [setPc_log, Log.record_outstanding] at ho
    omega
  | endLast hpc hl hc' ho' => cases hc
  | endOther hpc hl hc' ho' => exact absurd ho ho'
  | clear hpc => rfl
  | finish hpc hl => exact h.erased (Or.inr hpc)
  | _ => exact hempty ho hc

theorem step_erased {p : P} (hp : s'.pc p = .commit .eraseHead ∨ s'.pc p = .finish) :
    s'.log.lh = [] := by
  have herased : ∀ {p}, s.pc p = .commit .eraseHead ∨ s.pc p = .finish → s.log.lh = [] := h.erased
  cases hs with
  | @insert q blockno hpc hl =>
    -- no operation is running while a process commits
    have hpos := h.outstanding_pos (p := q) (by rw [hpc]; rfl)
    have hpq : p ≠ q := by
      rintro rfl
      simp at hp
    have hcomm : (s.pc p).commits = true := by
      simp only [setPc_pc, if_neg hpq] at hp
      rcases hp with hp | hp <;> rw [hp] <;> rfl
    have hidle := h.idle (h.committing.mpr ⟨p, hcomm⟩)
    omega
  | clear hpc => rfl
  | startEmpty hpc hn => exact hn
  | _ => grind

/-- Whoever goes to sleep waits for an operation or a commit, and whoever ends that
cannot release `log.lock` before it has woken the sleepers up. -/
theorem step_sleepers {p : P} (hp : (s'.pc p).sleeps = true) :
    0 < s'.log.outstanding ∨ s'.log.committing = true ∨ ∃ q, s'.pc q = .wake := by
  have hkeep : (s.pc p).sleeps = true → s'.log.outstanding = s.log.outstanding →
      s'.log.committing = s.log.committing → (∀ q, s.pc q = .wake → s'.pc q = .wake) →
      0 < s'.log.outstanding ∨ s'.log.committing = true ∨ ∃ q, s'.pc q = .wake := by
    intro hp ho hc hw
    rw [ho, hc]
    exact (h.sleepers hp).imp_right (Or.imp_right fun ⟨q, hq⟩ => ⟨q, hw q hq⟩)
  obtain ⟨ops, -, hcard⟩ := h.ops
  cases hs with
  | wait hpc hw =>
    rcases hw with hc | hx
    · exact Or.inr (Or.inl hc)
    · by_contra hno
      simp only [not_or, setPc_log, Bool.not_eq_true] at hno
      have hlh := h.empty (by omega) hno.2.1
      have hout : s.log.outstanding = 0 := by omega
      unfold Log.mightExhaust at hx
      rw [hlh, hout] at hx
      exact absurd hx (by decide)
  | begun hpc hc hx =>
    left
    dsimp only [setPc_log]
    omega
  | endLast hpc hl hc ho => exact Or.inr (Or.inl rfl)
  | @endOther q hpc hl hc ho | @finish q hpc hl => exact Or.inr (Or.inr ⟨q, by simp⟩)
  | @wake q hpc ht =>
    -- nobody is on the way to sleep: that takes one of the two locks
    exfalso
    have hlock : s.lock = some q := h.lock.mpr (by rw [hpc]; rfl)
    have hpq : p ≠ q := by
      rintro rfl
      simp [Pc.sleeps] at hp
    simp only [setPc_pc, if_neg hpq, wakeup_pc] at hp
    cases hk : s.pc p with
    | sleep =>
      have hp' := h.lock.mpr (show (s.pc p).holdsLog = true by rw [hk]; rfl)
      rw [hlock] at hp'
      exact hpq (Option.some.inj hp').symm
    | handOver | falling =>
      have hp' := h.ptable.mpr (show (s.pc p).holdsPtable = true by rw [hk]; rfl)
      rw [ht] at hp'
      cases hp'
    | _ => simp [hk, Pc.sleeps] at hp
  | insert hpc hl =>
    exact hkeep (by grind [Pc.sleeps]) (Log.record_outstanding ..) (Log.record_committing ..)
      (by grind)
  | _ => exact hkeep (by grind [Pc.sleeps]) rfl rfl (by grind)

end Step

theorem step (h : Inv s) (hs : Step s a e s') : Inv s' where
  lock := h.step_lock hs
  ptable := h.step_ptable hs
  ops := h.step_ops hs
  committing := h.step_committing hs
  committer := h.step_committer hs
  idle := h.step_idle hs
  empty := h.step_empty hs
  erased := h.step_erased hs
  sleepers := h.step_sleepers hs

omit [DecidableEq P] in
theorem of_init {sb : Superblock} (h : Init sb s) : Inv s where
  lock {p} := by rw [h.lock, h.pc]; exact ⟨nofun, nofun⟩
  ptable {p} := by rw [h.ptable, h.pc]; exact ⟨nofun, nofun⟩
  ops := ⟨∅, fun p => by rw [h.pc]; simp [Pc.inOp], by rw [h.log]; rfl⟩
  committing := by
    rw [h.log]
    refine ⟨nofun, ?_⟩
    rintro ⟨p, hp⟩
    rw [h.pc] at hp
    cases hp
  committer hp := by rw [h.pc] at hp; cases hp
  idle hc := by rw [h.log] at hc; cases hc
  empty _ _ := by rw [h.log]; rfl
  erased hp := by simp [h.pc] at hp
  sleepers hp := by rw [h.pc] at hp; cases hp

omit [DecidableEq P] in
theorem not_commits {p : P} (h : Inv s) (hp : (s.pc p).inOp = true) (q : P) :
    (s.pc q).commits = false := by
  by_contra hq
  have hpos := h.outstanding_pos hp
  have hidle := h.idle (h.committing.mpr ⟨q, Bool.not_eq_false _ ▸ hq⟩)
  omega

omit [DecidableEq P] in
theorem panics {f : Fault} (h : Inv s) (hp : Panics s a f) :
    f = .panic "too big a transaction" := by
  cases hp with
  | tooBig hpc hb => rfl
  | @outside p blockno hpc ho =>
    have := h.outstanding_pos (p := p) (by rw [hpc]; rfl)
    omega
  | @committing p hpc hl hc =>
    have hpos := h.outstanding_pos (p := p) (by rw [hpc]; rfl)
    have := h.idle hc
    omega

end Inv

theorem Run.inv {sb : Superblock} {tr : List (Act P × Option (Event P))} {s : LogSys P}
    (h : Run sb tr s) : Inv s :=
  Trace.Run.invariant (fun _ hs => .of_init hs) (fun _ _ _ hi hs => hi.step (step_of_next hs)) h

end LogSys

end Xv6
