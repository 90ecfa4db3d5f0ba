import Mathlib.Algebra.Order.BigOperators.Group.Finset
import Xv6.Fs.Small

/-!
# References, locks and transactions balance

What holds in every state that processes reach by system calls: the counts in the inode
cache and in the file table are those of the references that there are, a process that is
not in a system call has none but those in its `struct proc`, and an inode that is not
locked is on disk as in the cache.
-/

namespace Xv6

namespace Fs

variable {T : Type} [DecidableEq T] [Fintype T] {sb : Superblock} {base : Nat → Attr}
  {lost : Set Nat} {w : World T} {t : T} {tr : List (Action T × Unit)}

/-- What a process has between two system calls: its references, and those of the process
that it makes. -/
def Own.inProcs (o : Own) : Counts := inProc o.me + o.np.elim 0 inProc

theorem AtRest.tally {H : Holding} (h : AtRest H) :
    tally H.toks = inProc H.view.me + H.view.role.np.elim 0 inProc := by
  obtain ⟨n, m, htoks⟩ := h.toks
  rw [htoks, tally_add, tally_tokens]
  cases H.view.role.np with
  | none => rfl
  | some np => exact congrArg _ (tally_tokens np m)

namespace World.Ok

omit [DecidableEq T]

theorem tokens (hw : w.Ok sb base lost) :
    ∃ M, Good sb base lost M w.sys.shared ∧ tally M = ∑ t, (w.own t).counts := by
  obtain ⟨h, hgood, hall⟩ := hw.holds
  refine ⟨_, hgood, ?_⟩
  rw [tally_sum]
  exact Finset.sum_congr rfl fun t _ => (hall t).1.counts.symm

theorem between (hw : w.Ok sb base lost) (ht : w.prog t = none) :
    (w.own t).ops = 0 ∧ (w.own t).counts = (w.own t).inProcs := by
  obtain ⟨H, hk, hrest⟩ := hw.at_rest ht
  refine ⟨?_, ?_⟩
  · rw [hk.ops, hrest.ledger]
    rfl
  · rw [hk.counts, hrest.tally]
    unfold Own.inProcs
    rw [hk.me, hk.np]

theorem refs (hw : w.Ok sb base lost) (ip : InodePtr) :
    (w.fs.icache ip).ref = w.fs.opens ip + ∑ t, (w.own t).counts.1 ip := by
  obtain ⟨M, hgood, hM⟩ := hw.tokens
  have hrefs := (hgood.inv.entry ip).refs
  rw [← tally_refs, hM, Prod.fst_sum, Finset.sum_apply] at hrefs
  exact hrefs.symm.trans (add_comm _ _)

theorem nonneg (hw : w.Ok sb base lost) (t : T) (ip : InodePtr) :
    0 ≤ (w.own t).counts.1 ip ∧ 0 ≤ (w.own t).counts.2.1 ip := by
  obtain ⟨h, -, hall⟩ := hw.holds
  have hk : (w.own t).counts = tally (h t).toks := (hall t).1.counts
  rw [hk, tally_refs, tally_locks]
  exact ⟨Int.natCast_nonneg _, Int.natCast_nonneg _⟩

theorem busy (hw : w.Ok sb base lost) (ip : InodePtr) :
    (w.fs.icache ip).busy = true ↔ ∃ t, 0 < (w.own t).counts.2.1 ip := by
  obtain ⟨M, hgood, hM⟩ := hw.tokens
  have hlocks := tally_locks M ip
  rw [hM, Prod.snd_sum, Prod.fst_sum, Finset.sum_apply] at hlocks
  have hpos : 0 < locks (M.filter (·.on ip)) ↔ 0 < ∑ t, (w.own t).counts.2.1 ip := by
    rw [hlocks, Int.natCast_pos]
  rw [show (w.fs.icache ip).busy = true ↔ _ from (hgood.inv.entry ip).busy, hpos]
  constructor
  · intro hsum
    by_contra hne
    refine absurd hsum (not_lt.mpr (Finset.sum_nonpos fun t _ => ?_))
    exact not_lt.mp fun ht => hne ⟨t, ht⟩
  · rintro ⟨t, ht⟩
    have hle := Finset.single_le_sum (f := fun u => (w.own u).counts.2.1 ip)
      (fun u _ => (hw.nonneg u ip).2) (Finset.mem_univ t)
    exact lt_of_lt_of_le ht hle

end World.Ok

/-- In every state that processes reach: one entry of the cache for an inode; `ref` counts
the open files, and the references that the processes have taken and not given back; an
entry is busy while a process has locked it. A process that is not in a system call has
ended as many transactions as it began, has no locks, and its only references are the
current directories. -/
theorem inode_references_balance (h : Runs tr w) :
    (∀ ip jp, 0 < (w.fs.icache ip).ref → 0 < (w.fs.icache jp).ref →
      (w.fs.icache ip).dev = (w.fs.icache jp).dev →
      (w.fs.icache ip).inum = (w.fs.icache jp).inum → ip = jp) ∧
    (∀ ip, (w.fs.icache ip).ref = w.fs.opens ip + ∑ t, (w.own t).counts.1 ip) ∧
    (∀ ip, (w.fs.icache ip).busy = true ↔ ∃ t, 0 < (w.own t).counts.2.1 ip) ∧
    ∀ t, w.prog t = none → (w.own t).ops = 0 ∧ (∀ ip, (w.own t).counts.2.1 ip = 0) ∧
      ∀ ip, (w.own t).counts.1 ip = (if (w.own t).me.cwd = some ip then 1 else 0) +
        (w.own t).np.elim 0 fun np => if np.cwd = some ip then 1 else 0 := by
  obtain ⟨sb, base, lost, hw⟩ := h.ok
  refine ⟨?_, hw.refs, hw.busy, fun t ht => ?_⟩
  · obtain ⟨M, hgood, -⟩ := hw.tokens
    exact fun ip jp hip hjp _ heq => hgood.inv.inj ip jp hip hjp heq
  · obtain ⟨hops, hcounts⟩ := hw.between ht
    refine ⟨hops, fun ip => ?_, fun ip => ?_⟩
    · rw [hcounts]
      unfold Own.inProcs
      cases (w.own t).np with
      | none | some np => rfl
    · rw [hcounts]
      unfold Own.inProcs
      cases (w.own t).np with
      | none | some np => rfl

theorem inode_references_after_open : ∃ tr, ∃ w : World (Fin 1), Runs tr w ∧ w.prog 0 = none ∧
    (w.own 0).ops = 0 ∧ (w.fs.icache 1).ref = 2 := by
  obtain ⟨tr, w, hrun, hnone, href⟩ := Trace.exec_reaches (f := next) oneFile_init
    (doing 0 (.open (some ([102], 0))) 18)
    (fun _ w => (w.prog 0).isNone ∧ (w.fs.icache 1).ref = 2) (by decide +kernel)
  have hprog := Option.isNone_iff_eq_none.mp hnone
  exact ⟨tr, w, hrun, hprog, ((inode_references_balance hrun).2.2.2 0 hprog).1, href⟩

/-! ## Files -/

def World.Settled (w : World T) (t : T) : Prop :=
  (w.own t).mode = .still ∨ w.prog t = none ∧ (w.own t).mode ≠ .fork

omit [DecidableEq T] in
theorem World.Ok.settled (hw : w.Ok sb base lost) (ht : w.Settled t) :
    (w.own t).counts.2.2 = ((w.own t).me.slots, 0) := by
  obtain ⟨h, -, hall⟩ := hw.holds
  have hk := (hall t).1
  rcases ht with hm | ⟨hprog, hm⟩
  · exact hk.still hm
  · have hnp : (w.own t).np = none := by
      by_contra hne
      exact hm (hk.parent hne)
    rw [(hw.between hprog).2]
    unfold Own.inProcs
    rw [hnp]
    rfl

/-- In every state that processes reach: as long as no process is in a call that takes or
drops files, `ref` of a file counts the descriptors, and every end of a pipe is in one file
or was closed once. A slot that is not in use has no references, `pipeclose` is called at
most once for an end, and `filedup` and `fileclose` do not panic. -/
theorem file_references_balance (h : Runs tr w) :
    ((∀ t, w.Settled t) → (∀ f, (w.fs.ftable f).ref = ∑ t, (w.own t).me.slots f) ∧
      ∀ p v, w.fs.ends p v + w.sys.shared.closed.count (p, v) =
        if p < w.fs.pipes then 1 else 0) ∧
    (∀ t, w.slot t = .unused →
      (w.own t).me.ofile = (fun _ => none) ∧ (w.own t).me.cwd = none) ∧
    (∀ p v, w.sys.shared.closed.count (p, v) ≤ 1) ∧
    ∀ t {β : Type} (c : Call β) (k : β → Program Int) (e : Fault),
      w.prog t = some (.call c k) → act β c (w.sys.shared, w.own t) = .error e →
      e ≠ .panic "filedup" ∧ e ≠ .panic "fileclose" := by
  obtain ⟨sb, base, lost, hw⟩ := h.ok
  obtain ⟨M, hgood, hM⟩ := hw.tokens
  refine ⟨fun hall => ⟨fun f => ?_, fun p v => ?_⟩, fun t ht => ?_, fun p v => ?_, ?_⟩
  · have hrefs := (hgood.inv.file f).refs
    rw [← tally_files, hM, Prod.snd_sum, Prod.snd_sum, Prod.fst_sum, Finset.sum_apply] at hrefs
    refine hrefs.symm.trans (Finset.sum_congr rfl fun t _ => ?_)
    rw [hw.settled (hall t)]
  · have hzero : M.count (.pend p v) = 0 := by
      have hpend := tally_ends M (p, v)
      rw [hM, Prod.snd_sum, Prod.snd_sum, Prod.snd_sum, Finset.sum_apply] at hpend
      rw [← Int.natCast_eq_zero, ← hpend]
      refine Finset.sum_eq_zero fun t _ => ?_
      rw [hw.settled (hall t)]
      rfl
    have hends := hgood.ends p v
    rwa [hzero] at hends
  · apply hw.no_refs
    rw [ht]
    exact nofun
  · have hends := hgood.ends p v
    split at hends
    · omega
    · omega
  · intro t β c k e hp he
    exact (hw.holds.fault (calls_sound sb base lost) hp he).2

theorem file_references_after_dup : ∃ tr, ∃ w : World (Fin 1), Runs tr w ∧ w.Settled 0 ∧
    w.fs.pipes = 1 ∧ (w.fs.ftable 0).ref = 2 ∧ ∑ t, (w.own t).me.slots 0 = 2 := by
  obtain ⟨tr, w, hrun, hnone, hmode, hpipes, href⟩ := Trace.exec_reaches (f := next) oneFile_init
    (doing 0 (.pipe (some ())) 10 ++ doing 0 (.dup 0) 5)
    (fun _ w => (w.prog 0).isNone ∧ (w.own 0).mode ≠ .fork ∧ w.fs.pipes = 1 ∧
      (w.fs.ftable 0).ref = 2) (by decide +kernel)
  have hset : ∀ t, w.Settled t := by
    intro t
    rw [Subsingleton.elim t 0]
    exact Or.inr ⟨Option.isNone_iff_eq_none.mp hnone, hmode⟩
  refine ⟨tr, w, hrun, hset 0, hpipes, href, ?_⟩
  rwa [← ((file_references_balance hrun).1 hset).1 0]

/-! ## The disk -/

/-- In every state that processes reach from a file system without holes, an inode in the
cache that is valid and not busy is as on disk, and `iupdate` changes no other inode. What
`chmod`, `chown` or `chgrp` sets is what `stat` tells, until it is set again or the inode is
a new one. -/
theorem cached_inodes_agree (h : Runs tr w) :
    (∀ ip, 0 < (w.fs.icache ip).ref → (w.fs.icache ip).valid = true →
      (w.fs.icache ip).busy = false →
      w.fs.dinode (w.fs.icache ip).inum = (w.fs.icache ip).d) ∧
    (∀ ip s s' ev, FsM.iupdate ip s = .ok ((), s', ev) →
      ∀ m ≠ (s.icache ip).inum, s'.dinode m = s.dinode m) ∧
    ∀ pre n p mid st post,
      w.sys.shared.seen = pre ++ .set n p :: (mid ++ .stat st :: post) → st.ino = n →
      (∀ o ∈ mid, ¬ o.Resets n p) → p.InForce st.attr := by
  obtain ⟨sb, base, lost, hw⟩ := h.ok
  obtain ⟨M, hgood, -⟩ := hw.tokens
  refine ⟨fun ip href hvalid hbusy => ?_, ?_, ?_⟩
  · exact ((hgood.inv.entry ip).idle href hvalid hbusy).1
  · intro ip s s' ev hup m hm
    cases hup
    exact Disk.dinode_setDinode_of_ne hm
  · intro pre n p mid st post hseen hino hmid
    have hsplit : w.sys.shared.seen = (pre ++ .set n p :: mid) ++ .stat st :: post := by
      rw [hseen, List.append_assoc]
      rfl
    rw [hgood.recorded.stats _ st post hsplit, hino]
    exact inForce_of_set hmid

/-- `fstat` tells the mode that `chmod` has set. -/
theorem mode_told_after_chmod : ∃ tr, ∃ w : World (Fin 1), ∃ st : Stat, Runs tr w ∧
    w.sys.shared.seen = [.set 2 (.mode 0x180), .stat st] ∧ st.ino = 2 ∧ st.mode = 0x180 := by
  obtain ⟨tr, w, hrun, hseen⟩ := Trace.exec_reaches (f := next) oneFile_init
    (doing 0 (.chmod (some ([102], 0x180))) 16 ++ doing 0 (.fstat 0 (some ())) 6)
    (fun _ w => w.sys.shared.seen =
      [.set 2 (.mode 0x180), .stat ⟨.file, ROOTDEV, 2, 1, 0, 0, 0, 0x180⟩]) (by decide +kernel)
  refine ⟨tr, w, _, hrun, hseen, rfl, ?_⟩
  exact (cached_inodes_agree hrun).2.2 [] 2 (.mode 0x180) [] _ [] hseen rfl nofun

/-- In every state that processes reach: an inode that `create` has made has the default user
and group but the mode 0, wherever its copy in the cache is as on disk, and so it is told by
every `stat`, until `chmod`, `chown` or `chgrp` sets one of them or the inode is a new one. -/
theorem new_inodes_have_mode_zero (h : Runs tr w) (pre : List Obs) (n : Nat) (mid : List Obs)
    (hseen : w.sys.shared.seen = pre ++ .fresh n :: mid)
    (hmid : ∀ o ∈ mid, ∀ p, ¬ o.Resets n p) :
    (∀ ip, 0 < (w.fs.icache ip).ref → (w.fs.icache ip).inum = n → w.fs.Clean ip →
      (w.fs.icache ip).d.attr = ⟨DEFUID.setWidth 16, DEFGID.setWidth 16, 0⟩) ∧
    (∀ before st after, mid = before ++ .stat st :: after → st.ino = n →
      st.attr = ⟨DEFUID.setWidth 16, DEFGID.setWidth 16, 0⟩) ∧ DEFMODE ≠ 0 := by
  obtain ⟨sb, base, lost, hw⟩ := h.ok
  obtain ⟨M, hgood, -⟩ := hw.tokens
  refine ⟨fun ip href hinum hclean => ?_, fun before st after hsplit hino => ?_, by decide⟩
  · have hattr := Recorded.cached hgood.inv hgood.recorded href hclean
    rw [hseen, show (w.sys.shared.fs.icache ip).inum = n from hinum] at hattr
    exact hattr.trans (attrAfter_fresh hmid)
  · subst hsplit
    have hstat := hgood.recorded.stats (pre ++ .fresh n :: before) st after (by simp [hseen])
    rw [hstat, hino]
    exact attrAfter_fresh fun o ho => hmid o (List.mem_append_left _ ho)

theorem created_run : ∃ tr, ∃ w : World (Fin 1), Runs tr w ∧ w.sys.shared.seen =
    [.fresh 3, .set 3 (.make 0 0), .stat ⟨.file, ROOTDEV, 3, 1, 0, 0, 0, 0⟩] := by
  obtain ⟨tr, w, hrun, hw⟩ := Trace.exec_reaches (f := next) oneFile_init
    (doing 0 (.open (some ([103], 0x202))) 28 ++ doing 0 (.fstat 1 (some ())) 6)
    (fun _ w => w.sys.shared.seen =
      [.fresh 3, .set 3 (.make 0 0), .stat ⟨.file, ROOTDEV, 3, 1, 0, 0, 0, 0⟩])
    (by decide +kernel)
  exact ⟨tr, w, hrun, hw⟩

theorem created_file_has_mode_zero : ∃ tr, ∃ w : World (Fin 1), ∃ st : Stat, Runs tr w ∧
    .stat st ∈ w.sys.shared.seen ∧ st.ino = 3 ∧
    st.attr = ⟨DEFUID.setWidth 16, DEFGID.setWidth 16, 0⟩ := by
  obtain ⟨tr, w, hrun, hseen⟩ := created_run
  refine ⟨tr, w, ⟨.file, ROOTDEV, 3, 1, 0, 0, 0, 0⟩, hrun, by simp [hseen], rfl, ?_⟩
  refine (new_inodes_have_mode_zero hrun [] 3 _ hseen fun o ho p hr => ?_).2.1
    [.set 3 (.make 0 0)] _ [] rfl rfl
  simp only [List.mem_cons, List.not_mem_nil, or_false] at ho
  rcases ho with rfl | rfl
  · cases p with
    | _ => exact hr.2
  · exact hr

theorem created_file_lacks_default_mode : ∃ tr, ∃ w : World (Fin 1), ∃ st : Stat, Runs tr w ∧
    w.sys.shared.seen = [.fresh st.ino, .set st.ino (.make 0 0), .stat st] ∧
    st.mode ≠ DEFMODE := by
  obtain ⟨tr, w, hrun, hseen⟩ := created_run
  exact ⟨tr, w, ⟨.file, ROOTDEV, 3, 1, 0, 0, 0, 0⟩, hrun, hseen, by decide⟩

end Fs

end Xv6
