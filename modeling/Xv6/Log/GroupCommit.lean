import Xv6.Log.Invariant

/-!
# Group commit

What an operation logs is committed as a whole: no commit starts while the operation
runs, and the first header written after its end has all its blocks.
-/

namespace Xv6

namespace LogSys

open Trace (events)

variable {P : Type} [DecidableEq P] {s s' : LogSys P} {a : Act P} {e : Option (Event P)}
  {evs : List (Event P)} {p : P}

/-! ## What a step can do to an operation -/

theorem Step.inOp (hs : Step s a e s') (hp : (s.pc p).inOp = true) :
    (s'.pc p).inOp = true ∨ e = some (.ended p) := by
  cases hs <;> grind [Pc.inOp]

theorem Step.mem_lh {b : Nat} (hs : Step s a e s') (hb : b ∈ s.log.lh) :
    b ∈ s'.log.lh ∨ ∃ q, s.pc q = .commit .clear := by
  cases hs with
  | @clear q hpc => exact Or.inr ⟨q, hpc⟩
  | insert hpc hl => exact Or.inl (Log.mem_record.mpr (Or.inl hb))
  | _ => exact Or.inl hb

theorem Step.logged {b : Nat} (hs : Step s a (some (.logged p b)) s') : b ∈ s'.log.lh := by
  cases hs with
  | insert hpc hl => exact Log.mem_record.mpr (Or.inr rfl)

def Quiet (evs : List (Event P)) : Prop := .start ∉ evs ∧ ∀ bs, .commit bs ∉ evs

theorem Step.of_not_quiet (hs : Step s a e s') (he : ¬ Quiet e.toList) :
    ∃ q, (s.pc q).commits = true := by
  cases hs with
  | @start q hpc hn | @startEmpty q hpc hn | @writeHead q hpc => exact ⟨q, by rw [hpc]; rfl⟩
  | _ => exact absurd (by simp [Quiet]) he

/-! ## The operation that runs, and the operation that has ended -/

/-- `body` is what has happened since the operation of `p` began. -/
structure Running (s : LogSys P) (p : P) (body : List (Event P)) : Prop where
  inOp : (s.pc p).inOp = true
  quiet : Quiet body
  logged : ∀ {b}, .logged p b ∈ body → b ∈ s.log.lh

theorem Running.step {body : List (Event P)} (h : Running s p body) (hi : Inv s)
    (hs : Step s a e s') (he : e ≠ some (.ended p)) : Running s' p (body ++ e.toList) := by
  have hq : Quiet e.toList := by
    by_contra hq
    obtain ⟨q, hq⟩ := hs.of_not_quiet hq
    rw [hi.not_commits h.inOp q] at hq
    cases hq
  refine ⟨(hs.inOp h.inOp).resolve_right he, ⟨?_, fun bs => ?_⟩, fun {b} hb => ?_⟩
  · rw [List.mem_append]
    exact not_or.mpr ⟨h.quiet.1, hq.1⟩
  · rw [List.mem_append]
    exact not_or.mpr ⟨h.quiet.2 bs, hq.2 bs⟩
  · rcases Trace.mem_snoc.mp hb with hb | rfl
    · refine (hs.mem_lh (h.logged hb)).resolve_right ?_
      rintro ⟨q, hq⟩
      have := hi.not_commits h.inOp q
      rw [hq] at this
      cases this
    · exact hs.logged

/-- `body` is what happened while the operation of `p` ran and `post` what has happened
since: either its blocks still wait in the log, or the first header written since has
them, in a commit that started since. -/
inductive Ended (s : LogSys P) (p : P) (body post : List (Event P)) : Prop
  | pending (hno : ∀ bs, .commit bs ∉ post) (hb : ∀ {b}, .logged p b ∈ body → b ∈ s.log.lh)
      (hk : ∀ {q k}, s.pc q = .commit k →
        k = .start ∨ (.start ∈ post ∧ (k = .writeHead ∨ ∃ tail, k = .writeLog tail)))
  | committed (mid : List (Event P)) (bs : List Nat) (rest : List (Event P))
      (hpost : post = mid ++ .commit bs :: rest) (hno : ∀ bs', .commit bs' ∉ mid)
      (hst : .start ∈ mid) (hb : ∀ {b}, .logged p b ∈ body → b ∈ bs)

theorem Ended.of_running {body : List (Event P)} (h : Running s p body) (hi : Inv s)
    (hs : Step s a (some (.ended p)) s') : Ended s' p body [] := by
  have hnone : ∀ q k, s.pc q ≠ .commit k := by
    intro q k hq
    have := hi.not_commits h.inOp q
    rw [hq] at this
    cases this
  cases hs with
  | endLast hpc hl hc ho | endOther hpc hl hc ho =>
    refine .pending nofun h.logged fun {q k} hq => ?_
    by_cases hqp : q = p
    · rw [setPc_pc, if_pos hqp] at hq
      -- only the last one to end starts a commit
      cases hq <;> exact Or.inl rfl
    · rw [setPc_pc, if_neg hqp] at hq
      exact absurd hq (hnone q k)

theorem Step.commit_from {q : P} {k : Commit} (hs : Step s a e s') (hq : s'.pc q = .commit k) :
    s.pc q = .commit k ∨ k = .start ∨
    (e = some .start ∧ k = .writeLog 0) ∨
    (∃ tail, s.pc q = .commit (.writeLog tail) ∧ (k = .writeHead ∨ ∃ tail', k = .writeLog tail')) ∨
    (s.pc q = .commit .writeHead ∧ e = some (.commit s.log.lh)) ∨
    (∃ tail, s.pc q = .commit (.install tail)) ∨ s.pc q = .commit .clear := by
  cases hs <;> grind

theorem Ended.pending_step {body post : List (Event P)} (hno : ∀ bs, .commit bs ∉ post)
    (hb : ∀ {b}, .logged p b ∈ body → b ∈ s.log.lh)
    (hk : ∀ {q k}, s.pc q = .commit k →
      k = .start ∨ (.start ∈ post ∧ (k = .writeHead ∨ ∃ tail, k = .writeLog tail)))
    (hs : Step s a e s') : Ended s' p body (post ++ e.toList) := by
  by_cases hc : ∃ bs, e = some (.commit bs)
  · -- the header is written, with all that is in the log
    obtain ⟨bs, rfl⟩ := hc
    cases hs with
    | @writeHead q hpc =>
      refine .committed post s.log.lh [] rfl hno ?_ hb
      rcases hk hpc with hk | ⟨hst, -⟩
      · cases hk
      · exact hst
  · refine .pending (fun bs => Trace.not_mem_snoc (hno bs) fun he => hc ⟨bs, he⟩)
      (fun {b} hb' => ?_) fun {q k} hq => ?_
    · refine (hs.mem_lh (hb hb')).resolve_right ?_
      rintro ⟨q, hq⟩
      rcases hk hq with hk | ⟨-, hk | ⟨tail, hk⟩⟩ <;> cases hk
    · rcases hs.commit_from hq with hq | rfl | ⟨rfl, rfl⟩ | ⟨tail, hq, hk'⟩ | ⟨hq, he⟩ |
        ⟨tail, hq⟩ | hq
      · rcases hk hq with hk | ⟨hst, hk⟩
        · exact Or.inl hk
        · exact Or.inr ⟨List.mem_append_left _ hst, hk⟩
      · exact Or.inl rfl
      · exact Or.inr ⟨by simp, Or.inr ⟨0, rfl⟩⟩
      · rcases hk hq with hk | ⟨hst, -⟩
        · cases hk
        · exact Or.inr ⟨List.mem_append_left _ hst, hk'⟩
      · exact absurd ⟨_, he⟩ hc
      · rcases hk hq with hk | ⟨-, hk | ⟨tail, hk⟩⟩ <;> cases hk
      · rcases hk hq with hk | ⟨-, hk | ⟨tail, hk⟩⟩ <;> cases hk

theorem Ended.step {body post : List (Event P)} (h : Ended s p body post) (hs : Step s a e s') :
    Ended s' p body (post ++ e.toList) := by
  cases h with
  | pending hno hb hk => exact Ended.pending_step hno hb hk hs
  | committed mid bs rest hpost hno hst hb =>
    exact .committed mid bs (rest ++ e.toList) (by rw [hpost]; simp) hno hst hb

/-! ## Runs -/

/-- What a run tells about the operations that run and those that have ended. -/
structure Grouped (evs : List (Event P)) (s : LogSys P) : Prop where
  running : ∀ {pre p body}, evs = pre ++ .begun p :: body → .ended p ∉ body → Running s p body
  ended : ∀ {pre p body post}, evs = pre ++ .begun p :: body ++ .ended p :: post →
    .ended p ∉ body → Quiet body ∧ Ended s p body post

theorem Step.inOp_of_begun (hs : Step s a (some (.begun p)) s') : (s'.pc p).inOp = true := by
  cases hs with
  | begun hpc hc hx =>
    rw [setPc_pc, if_pos rfl]
    rfl

theorem Grouped.step (h : Grouped evs s) (hi : Inv s) (hs : Step s a e s') :
    Grouped (evs ++ e.toList) s' := by
  refine ⟨fun {pre p body} heq hend => ?_, fun {pre p body post} heq hend => ?_⟩
  · rcases Trace.snoc_eq_append_cons heq with ⟨body', rfl, heq'⟩ | ⟨rfl, -, rfl⟩
    · rw [Trace.mem_snoc, not_or] at hend
      exact (h.running heq' hend.1).step hi hs hend.2
    · exact ⟨hs.inOp_of_begun, ⟨nofun, nofun⟩, nofun⟩
  · rcases Trace.snoc_eq_append_cons heq with ⟨post', rfl, heq'⟩ | ⟨rfl, heq', rfl⟩
    · obtain ⟨hq, hE⟩ := h.ended heq' hend
      exact ⟨hq, hE.step hs⟩
    · have hrun := h.running heq' hend
      exact ⟨hrun.quiet, .of_running hrun hi hs⟩

theorem Run.grouped {sb : Superblock} {tr : List (Act P × Option (Event P))}
    (h : Run sb tr s) : Grouped (events tr) s := by
  have hall : Inv s ∧ Grouped (events tr) s := by
    refine Trace.Run.history (I := fun tr s => Inv s ∧ Grouped (events tr) s) ?_ ?_ h
    · intro s hs
      refine ⟨.of_init hs, ⟨fun {pre _ _} heq => ?_, fun {pre _ _ _} heq => ?_⟩⟩
      · cases pre <;> cases heq
      · cases pre <;> cases heq
    · rintro tr s l s' ⟨hi, hg⟩ hs
      rw [Trace.events_snoc]
      exact ⟨hi.step (step_of_next hs), hg.step hi (step_of_next hs)⟩
  exact hall.2

/-- A commit excludes operations; neither `end_op` nor, inside an operation, `log_write`
panics over the protocol; no commit starts or writes its header while an operation runs,
and once it has ended its blocks wait in the log, or all are in the first header written
since, in a commit that started since; and when the log is idle it is empty and nobody
sleeps on it. -/
theorem group_commit {sb : Superblock} {tr : List (Act P × Option (Event P))} {s : LogSys P}
    (h : Run sb tr s) :
    (s.log.committing = true → s.log.outstanding = 0) ∧
    (∀ a f, s.step a = some (.error f) → f = .panic "too big a transaction") ∧
    (∀ pre p body, events tr = pre ++ .begun p :: body → .ended p ∉ body →
      (.start ∉ body ∧ ∀ bs, .commit bs ∉ body) ∧ ∀ b, .logged p b ∈ body → b ∈ s.log.lh) ∧
    (∀ pre p body post, events tr = pre ++ .begun p :: body ++ .ended p :: post →
      .ended p ∉ body →
      (.start ∉ body ∧ ∀ bs, .commit bs ∉ body) ∧
      (((∀ bs, .commit bs ∉ post) ∧ ∀ b, .logged p b ∈ body → b ∈ s.log.lh) ∨
        ∃ mid bs rest, post = mid ++ .commit bs :: rest ∧ (∀ bs', .commit bs' ∉ mid) ∧
          .start ∈ mid ∧ ∀ b, .logged p b ∈ body → b ∈ bs)) ∧
    (s.lock = none → s.log.outstanding = 0 → s.log.committing = false →
      s.log.lh = [] ∧ ∀ p, s.pc p ≠ .asleep) := by
  have hi := h.inv
  have hg := h.grouped
  refine ⟨hi.idle, fun a f hf => hi.panics (step_result hf), fun pre p body heq hend => ?_,
    fun pre p body post heq hend => ?_, fun hl ho hc => ⟨hi.empty ho hc, fun p hp => ?_⟩⟩
  · have hrun := hg.running heq hend
    exact ⟨hrun.quiet, fun _ => hrun.logged⟩
  · obtain ⟨hq, hE⟩ := hg.ended heq hend
    refine ⟨hq, ?_⟩
    cases hE with
    | pending hno hb hk => exact Or.inl ⟨hno, fun _ => hb⟩
    | committed mid bs rest hpost hno hst hb =>
      exact Or.inr ⟨mid, bs, rest, hpost, hno, hst, fun _ => hb⟩
  · rcases hi.sleepers (p := p) (by rw [hp]; rfl) with hpos | hc' | ⟨q, hq⟩
    · omega
    · rw [hc] at hc'
      cases hc'
    · have hlock := hi.lock.mpr (show (s.pc q).holdsLog = true by rw [hq]; rfl)
      rw [hl] at hlock
      cases hlock

theorem group_commit_two :
    ∃ (tr : _) (s : LogSys Bool), Run Mkfs.sb tr s ∧ s.log.lh = [70, 71] ∧
      s.log.committing = true ∧ s.log.outstanding = 0 := by
  obtain ⟨tr, s, hrun, hlh, hc⟩ := Trace.exec_reaches (f := next) (boot_init Mkfs.sb)
    [.beginOp false, .run false, .beginOp true, .run true, .logWrite false 70, .logWrite true 71,
      .run false, .run false, .run true, .run true, .endOp false, .run false, .run false,
      .endOp true, .run true]
    (fun _ (s : LogSys Bool) => s.log.lh = [70, 71] ∧ s.log.committing = true)
    (by decide +kernel)
  exact ⟨tr, s, hrun, hlh, hc, (group_commit hrun).1 hc⟩

end LogSys

end Xv6
