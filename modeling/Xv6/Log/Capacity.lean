import Xv6.Log.Invariant

/-!
# Room in the log

`begin_op` reserves `MAXOPBLOCKS` entries of `LOGSIZE` for every operation, `log_write` refuses
when `log.size - 1` entries are taken: three operations that use all they have reserved do not
fit. The test of `log_write` comes before absorption and before `log.lock` is taken.
-/

namespace Xv6

namespace LogSys

open Trace (events)

variable {P : Type} [DecidableEq P] {s s' : LogSys P} {a : Act P} {e : Option (Event P)}

/-! ## The entries of the log -/

/-- The blocks in the log, and those of the calls past the test, have been handed to
`log_write`. -/
structure Handed (sb : Superblock) (s : LogSys P) : Prop where
  size : s.log.size = sb.nlog
  start : s.log.start = sb.logstart
  nodup : s.log.lh.Nodup
  recorded : s.log.lh ⊆ s.handed
  passed : ∀ {p b}, s.pc p = .fits b ∨ s.pc p = .insert b → b ∈ s.handed

theorem Step.log_shape (hs : Step s a e s') :
    s'.log.size = s.log.size ∧ s'.log.start = s.log.start := by
  cases hs with
  | insert hpc hl => exact ⟨Log.record_size _ _, Log.record_start _ _⟩
  | _ => exact ⟨rfl, rfl⟩

theorem Handed.step {sb : Superblock} (h : Handed sb s) (hi : Inv s) (hs : Step s a e s') :
    Handed sb s' := by
  obtain ⟨hsize, hstart⟩ := hs.log_shape
  refine ⟨hsize.trans h.size, hstart.trans h.start, ?_, ?_, fun {p b} hp => ?_⟩
  · cases hs with
    | insert hpc hl => exact Log.nodup_record h.nodup
    | clear hpc => exact List.nodup_nil
    | _ => exact h.nodup
  · cases hs with
    | logWrite hpc hfit => exact fun x hx => List.mem_insert_of_mem (h.recorded hx)
    | @insert p b hpc hl =>
      intro x hx
      rcases Log.mem_record.mp hx with hx | rfl
      · exact h.recorded hx
      · exact h.passed (Or.inr hpc)
    | clear hpc => exact List.nil_subset _
    | _ => exact h.recorded
  · have hpassed : ∀ {p b}, s.pc p = .fits b ∨ s.pc p = .insert b → b ∈ s.handed := h.passed
    cases hs with
    | @logWrite q b' hpc hfit =>
      by_cases hpq : p = q
      · simp only [setPc_pc, if_pos hpq, Pc.fits.injEq, reduceCtorEq, or_false] at hp
        rw [← hp]
        exact List.mem_insert_self
      · simp only [setPc_pc, if_neg hpq] at hp
        exact List.mem_insert_of_mem (h.passed hp)
    | @clear q hpc =>
      -- no operation is running while a process commits
      exfalso
      have hop : (s.pc p).inOp = true := by
        by_cases hpq : p = q
        · simp [hpq] at hp
        · simp only [setPc_pc, if_neg hpq] at hp
          rcases hp with hp | hp <;> rw [hp] <;> rfl
      have := hi.not_commits hop q
      rw [hpc] at this
      cases this
    | _ => grind

omit [DecidableEq P] in
theorem Handed.of_init {sb : Superblock} (h : Init sb s) : Handed sb s := by
  refine ⟨by rw [h.log]; rfl, by rw [h.log]; rfl, ?_, ?_, fun {p b} hp => ?_⟩
  · rw [h.log]
    exact List.nodup_nil
  · rw [h.log]
    exact List.nil_subset _
  · simp [h.pc] at hp

omit [DecidableEq P] in
theorem Handed.length_le {sb : Superblock} (h : Handed sb s) :
    s.log.lh.length ≤ s.handed.length :=
  (List.subperm_of_subset h.nodup h.recorded).length_le

/-! ## The reservation -/

/-- The operation has handed at most `MAXOPBLOCKS` different blocks to `log_write`, this
one included. -/
def Quota (s : LogSys P) : Act P → Prop
  | .logWrite p blockno => ((s.mine p).insert blockno).length ≤ MAXOPBLOCKS
  | _ => True

instance (s : LogSys P) (a : Act P) : Decidable (Quota s a) := by
  unfold Quota
  split <;> infer_instance

/-- Fewer than `log.size - 1` different blocks have been handed to `log_write` since the
log was last empty. -/
def Room (s : LogSys P) : Act P → Prop
  | .logWrite _ _ => s.handed.length + 1 < s.log.size
  | _ => True

instance (s : LogSys P) (a : Act P) : Decidable (Room s a) := by
  unfold Room
  split <;> infer_instance

theorem not_tooBig {l : Log} (hlog : l.lh.length < LOGSIZE) (hsize : l.lh.length + 1 < l.size) :
    l.tooBig = false := by
  unfold Log.tooBig
  rw [Bool.or_eq_false_iff, decide_eq_false_iff_not, decide_eq_false_iff_not]
  omega

/-- If the blocks handed to `log_write` since the log was last empty leave room,
`log_write` does not refuse. -/
theorem reservation_suffices {tr : List (Act P × Option (Event P))} {s : LogSys P} {a : Act P}
    (h : Trace.Run (Init Mkfs.sb) (Trace.Only Room (Trace.Next next)) tr s) (ha : Room s a) :
    s.step a ≠ some (.error (.panic "too big a transaction")) := by
  have hall : Inv s ∧ Handed Mkfs.sb s := by
    refine Trace.Run.invariant (I := fun s => Inv s ∧ Handed Mkfs.sb s) ?_ ?_ h
    · exact fun s hs => ⟨.of_init hs, .of_init hs⟩
    · rintro s l s' ⟨hi, hh⟩ ⟨hs, -⟩
      exact ⟨hi.step (step_of_next hs), hh.step hi (step_of_next hs)⟩
  obtain ⟨-, hh⟩ := hall
  intro hstep
  have hp : Panics s a (.panic "too big a transaction") := step_result hstep
  generalize hf : Fault.panic "too big a transaction" = f at hp
  cases hp with
  | outside _ _ | committing _ _ _ => exact absurd hf (by decide)
  | tooBig hpc hb =>
    have hle := hh.length_le
    have hroom : s.handed.length + 1 < s.log.size := ha
    have hsize : s.log.size = LOGSIZE := hh.size
    rw [not_tooBig (by omega) (by omega)] at hb
    cases hb

def logs (p : P) (base n : Nat) : List (Act P) :=
  (List.range n).flatMap fun i => [.logWrite p (base + i), .run p, .run p]

/-- Three operations that log nine blocks each fit. -/
theorem reservation_suffices_nine :
    ∃ (tr : _) (s : LogSys (Fin 3)),
      Trace.Run (Init Mkfs.sb) (Trace.Only Room (Trace.Next next)) tr s ∧
      s.log.lh.length = 27 ∧ s.step (.logWrite 0 90) ≠
        some (.error (.panic "too big a transaction")) := by
  obtain ⟨tr, s, hrun, hlen, hroom⟩ := Trace.exec_reaches_only (f := next) (boot_init Mkfs.sb) Room
    ([.beginOp 0, .run 0, .beginOp 1, .run 1, .beginOp 2, .run 2] ++
      logs 0 60 9 ++ logs 1 70 9 ++ logs 2 80 9)
    (fun _ (s : LogSys (Fin 3)) => s.log.lh.length = 27 ∧ Room s (.logWrite 0 90))
    (by decide +kernel)
  exact ⟨tr, s, hrun, hlen, reservation_suffices hrun hroom⟩

/-- Three operations that stay within their quota of ten blocks do not fit: the thirtieth
`log_write` panics. -/
theorem reservation_falls_short :
    ∃ (tr : _) (s : LogSys (Fin 3)),
      Trace.Run (Init Mkfs.sb) (Trace.Only Quota (Trace.Next next)) tr s ∧
      Quota s (.logWrite 2 89) ∧
      s.step (.logWrite 2 89) = some (.error (.panic "too big a transaction")) := by
  obtain ⟨tr, s, hrun, hpc, hbig, hquota⟩ := Trace.exec_reaches_only (f := next)
    (boot_init Mkfs.sb) Quota ([.beginOp 0, .run 0, .beginOp 1, .run 1, .beginOp 2, .run 2] ++
      logs 0 60 10 ++ logs 1 70 10 ++ logs 2 80 9)
    (fun _ (s : LogSys (Fin 3)) => s.pc 2 = .op ∧ s.log.tooBig = true ∧
      Quota s (.logWrite 2 89))
    (by decide +kernel)
  refine ⟨tr, s, hrun, hquota, ?_⟩
  rw [step, if_pos hpc, if_pos hbig]

/-! ## The test and the insertion -/

/-- This call leaves at most `log.size - 1` different blocks handed to `log_write` since
the log was last empty, in the log or past the test. -/
def Fits (s : LogSys P) : Act P → Prop
  | .logWrite _ blockno => (s.handed.insert blockno).length + 1 ≤ s.log.size
  | _ => True

instance (s : LogSys P) (a : Act P) : Decidable (Fits s a) := by
  unfold Fits
  split <;> infer_instance

theorem Step.handed_length (hs : Step s a e s') (ha : Fits s a)
    (h : s.handed.length + 1 ≤ s.log.size) : s'.handed.length + 1 ≤ s'.log.size := by
  rw [hs.log_shape.1]
  cases hs with
  | logWrite hpc hfit => exact ha
  | clear hpc =>
    rw [setPc_handed, List.length_nil]
    omega
  | _ => exact h

/-- Three operations within their quotas, the last two of which call `log_write` when
the log on disk has one block left. -/
def race : List (Act (Fin 3)) :=
  [.beginOp 0, .run 0, .beginOp 1, .run 1, .beginOp 2, .run 2] ++
    logs 0 60 10 ++ logs 1 70 9 ++ logs 2 80 9 ++
    [.logWrite 1 79, .logWrite 2 89, .run 1, .run 1, .run 2, .run 2]

end LogSys

end Xv6
