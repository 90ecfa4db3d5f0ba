import Xv6.Fs.Spec

/-!
# Every call keeps the invariants

`calls_sound`: a call that gets what it needs keeps the invariants of the file system,
whatever other processes hold, and does not fail with `panic("freeing free block")`,
`panic("filedup")` or `panic("fileclose")`.
-/

open Multiset (cons_add cons_swap exists_cons_of_mem mem_add mem_cons_self mem_filter)

namespace Xv6

namespace Fs

open Effect Prog

section Sound

variable {sb : Superblock} {base : Nat → Attr} {lost : Set Nat} {M M' R others : Multiset Token}
  {sh : Shared}
  {s t : Fs} {o : Own} {me : Caller} {ev : List Event} {l : Ledger} {a : Token}
  {β : Type} {H : Holding} {c : Call β} {b : β} {Q : β → Holding → Prop}

/-! ## Transactions -/

/-- A call that gets what it needs keeps the invariants, whatever the others hold. -/
def Preserves (sb : Superblock) (base : Nat → Attr) (lost : Set Nat) (c : Call β) : Prop :=
  ∀ (H : Holding) (others : Multiset Token) (sh : Shared) (o : Own) (Q : β → Holding → Prop),
    wp β c H Q → Knows sb o H → Good sb base lost (H.toks + others) sh →
    Keeps sb base lost c others sh o Q

theorem Knows.ops_eq (hk : Knows sb o H) (hl : H.view.ledger.ops = l.ops) : o.ops + 0 = l.ops := by
  rw [hk.ops, hl, add_zero]

theorem keeps_beginOp : Preserves sb base lost .beginOp := by
  intro H others sh o Q hw hk hg
  obtain ⟨hl, hq⟩ := hw
  have hcov := hk.covers
  have hops := hk.ops
  rw [hl] at hcov hops
  have hnone : (o.tx.add [] 0 0).logged = ∅ := by
    unfold Tx.add
    rw [hcov.1]
    rfl
  have hone : o.ops + 1 = 1 := by
    rw [hops]
    rfl
  refine keeps_of_ends fun _ => ends_pure ?_
  rcases hq with hq | hq
  · refine ⟨_, hq, hk.step ⟨by unfold Room; decide, ∅, Nat.zero_le _, ?_⟩ hone
      (add_zero _).symm (fun _ => rfl) rfl, hg.same ⟨rfl, rfl, rfl⟩⟩
    rw [show o.tx.after sh.fs [] Call.beginOp () = o.tx.add [] 0 0 from rfl, hnone]
    exact Finset.empty_subset _
  · exact ⟨_, hq, hk.step hnone hone (add_zero _).symm (fun _ => rfl) rfl,
      hg.same ⟨rfl, rfl, rfl⟩⟩

theorem keeps_endOp : Preserves sb base lost .endOp := by
  intro H others sh o Q hw hk hg
  obtain ⟨hl, hq⟩ := hw
  have hone : o.ops + -1 = 0 := by
    rw [hk.ops]
    cases hled : H.view.ledger with
    | outside => exact absurd hled hl
    | _ => rfl
  exact keeps_of_ends fun _ => ends_pure ⟨_, hq, hk.step ⟨rfl, rfl⟩ hone (add_zero _).symm
    (fun _ => rfl) rfl, hg.same ⟨rfl, rfl, rfl⟩⟩

/-! ## References -/

theorem Shared.after_iget {dev n : Nat} {ip : InodePtr} :
    sh.after t (.iget dev n) ip =
      { sh with fs := t, calm := sh.calm && decide (sh.fs.FindsLinked n) } := by
  unfold Shared.after
  dsimp only [Call.observe, Call.closes, Call.calm]
  rw [List.append_nil, List.append_nil]

theorem Good.got {n : Nat} {ip : InodePtr} (hg : Good sb base lost M sh)
    (hgot : Got ROOTDEV n sh.fs ip t) :
    Good sb base lost (.got ip n ::ₘ M)
      { sh with fs := t, calm := sh.calm && decide (sh.fs.FindsLinked n) } := by
  have hM : marks (.got ip n ::ₘ M) = marks M := marks_cons rfl
  refine ⟨?_, ?_, ?_, ?_⟩
  · refine (hg.inv.weaken fun hc => (Bool.and_eq_true_iff.mp hc).1).got hgot fun hc => ?_
    exact of_decide_eq_true (Bool.and_eq_true_iff.mp hc).2
  · refine hg.recorded.keep (fun _ => mem_of_marks hM rfl) ?_ ?_
    · intro m
      rw [hgot.toDisk]
    · intro h hh
      by_cases hip : h.ip = ip
      · subst hip
        rw [hgot.old (hg.inv.ref_pos hh rfl)]
      · rw [hgot.icache_of_ne hip]
  · refine hg.linked.keep (fun _ => (mem_of_marks hM rfl).mpr) ?_ ?_
    · intro m
      rw [hgot.toDisk]
      exact ⟨rfl, rfl⟩
    · intro jp hkept
      have hgone : ∀ h, .lock h .gone ∈ Token.got ip n ::ₘ M → h.ip ≠ jp :=
        fun h hh => hkept.2.2 h ((mem_of_marks hM rfl).mp hh)
      unfold Kept
      dsimp only
      by_cases hj : jp = ip
      · subst hj
        rw [hgot.old hkept.1]
        have := hkept.1
        exact ⟨⟨by dsimp only; omega, hkept.2.1, hgone⟩, rfl⟩
      · rw [hgot.icache_of_ne hj]
        exact ⟨⟨hkept.1, hkept.2.1, hgone⟩, rfl⟩
  · refine hg.ends.keep (fun _ _ => count_of_marks hM rfl) ?_ ?_
    · rw [hgot.rest]
    · rw [hgot.rest]

theorem keeps_iget {dev inum : Nat} : Preserves sb base lost (.iget dev inum) := by
  intro H others sh o Q hw hk hg
  obtain ⟨rfl, hq⟩ := hw
  refine keeps_run rfl fun _ => FsM.iget_ends.mono ?_ ?_
  · rintro ip t ev ⟨hgot, rfl⟩
    refine ⟨_, hq ip, hk.move rfl rfl rfl (tally_take rfl) (fun _ => rfl) rfl, Good.cons ?_⟩
    rw [Shared.after_iget]
    exact hg.got hgot
  · rintro f rfl
    exact ⟨nofun, nofun, nofun⟩

theorem keeps_idup {ip : InodePtr} : Preserves sb base lost (.idup ip) := by
  intro H others sh o Q hw hk hg
  obtain ⟨n, hmem, hq⟩ := hw
  refine keeps_run rfl fun _ => ?_
  refine ends_bind (FsM.setInode_ends (ends_bind (ends_emit (ends_pure ?_))))
  refine ⟨_, hq, hk.move rfl rfl rfl (tally_take rfl) (fun _ => rfl) rfl, Good.cons ?_⟩
  have hi := hg.inv.dup (mem_add.mpr (Or.inl hmem))
  refine hg.setEntry ⟨rfl, rfl, rfl⟩ hi (marks_cons rfl) (fun _ => rfl) ?_
  exact fun hkept => ⟨by have := hkept.1; dsimp only; omega, hkept.2.1, rfl⟩

variable {h : Handle}

theorem Good.lock {R' : Multiset Token} (hg : Good sb base lost (a ::ₘ R) sh)
    (hc : c.Plain sh.fs b) (hr : a.isRef = true) (ha : a.handle = some h)
    (hbusy : (sh.fs.icache h.ip).busy = false)
    (hi : Inv sb (sh.calm = true) (.lock h .clean ::ₘ R) (sh.fs.locked h.ip))
    (hR : R' = R ∨ R = .born h.inum ::ₘ R') :
    Good sb base lost (.lock h .clean ::ₘ R') (sh.after (sh.fs.locked h.ip) c b) := by
  have hpos := hg.inv.ref_pos (mem_cons_self _ _) ha
  have hmark := Token.isMark_of_isRef hr
  have hnone : ¬ ∃ h', .lock h' .dirty ∈ a ::ₘ R ∧ h'.ip = h.ip := by
    rintro ⟨h', hh', hip⟩
    have := hg.inv.busy hh'
    rw [hip, hbusy] at this
    cases this
  rcases hR with rfl | rfl
  · refine hg.setEntry hc hi ?_ (fun hd => absurd hd hnone) fun _ => ⟨hpos, rfl, rfl⟩
    rw [marks_cons rfl, marks_cons hmark]
  · -- the creator of the inode
    have hdirty : ∀ h', .lock h' .dirty ∈ Token.lock h .clean ::ₘ R' ↔
        .lock h' .dirty ∈ a ::ₘ .born h.inum ::ₘ R' := by
      intro h'
      rw [← mem_of_marks (marks_cons hmark) rfl]
      simp
    refine plain hc ⟨?_, ?_, ?_, ?_⟩
    · rw [cons_swap] at hi
      exact (Inv.cons_iff rfl fun _ => rfl).mp hi
    · exact hg.recorded.setEntry hdirty fun hd => absurd hd hnone
    · exact Linked.lockBorn hg.inv hg.linked ha hpos rfl rfl hbusy
    · refine hg.ends.keep (fun p w => ?_) rfl rfl
      rw [count_of_marks (marks_cons hmark) rfl, count_of_marks (marks_cons rfl) rfl]
      have hne : Token.pend p w ≠ .born h.inum := nofun
      rw [Multiset.count_cons_of_ne hne]

theorem keeps_ilock {ip : InodePtr} : Preserves sb base lost (.ilock ip) := by
  intro H others sh o Q hw hk hg
  obtain ⟨a, h, R, ⟨ht, hr, ha⟩, rfl, hq⟩ := hw
  rw [ht, cons_add] at hg
  have hpos : (sh.fs.icache h.ip).ref ≥ 1 := hg.inv.ref_pos (mem_cons_self _ _) ha
  -- whatever becomes of the token of `ialloc`
  obtain ⟨R', hR, hq'⟩ : ∃ R', (R' = R ∨ R = .born h.inum ::ₘ R') ∧
      Q () ⟨.lock h .clean ::ₘ R', H.view⟩ := by
    rcases hq with hq | ⟨R', hR, hq⟩
    · exact ⟨R, Or.inl rfl, hq⟩
    · exact ⟨R', Or.inr hR, hq⟩
  have hR' : R' + others = R + others ∨ R + others = .born h.inum ::ₘ (R' + others) := by
    rcases hR with rfl | rfl
    · exact Or.inl rfl
    · exact Or.inr (cons_add _ _ _)
  have hk' : Knows sb (o.after sh.fs o.me [] (Call.ilock h.ip) ())
      ⟨.lock h .clean ::ₘ R', H.view⟩ := by
    refine hk.move rfl rfl rfl ?_ (fun _ => rfl) rfl
    rw [ht]
    have hborn : tally R = tally R' := by
      rcases hR with rfl | rfl
      · rfl
      · exact (tally_cons _ _).trans (zero_add _)
    rw [tally_cons, tally_cons, hborn, Token.counts_of_isRef hr ha]
    exact add_right_comm _ _ _
  refine keeps_run rfl fun hb => ?_
  have hbusy : (sh.fs.icache h.ip).busy = false := by
    simpa [Call.blocks, hpos] using hb
  refine FsM.ilock_ends hpos (fun htype => ⟨_, hq', hk', Good.cons ?_⟩)
    fun _ => ⟨nofun, nofun, nofun⟩
  exact hg.lock ⟨rfl, rfl, rfl⟩ hr ha hbusy (hg.inv.lock hr ha hbusy htype) hR'

theorem keeps_iunlock {ip : InodePtr} : Preserves sb base lost (.iunlock ip) := by
  intro H others sh o Q hw hk hg
  obtain ⟨h, R, l, ht, rfl, hl, hq⟩ := hw
  rw [ht, cons_add] at hg
  have hi := hg.inv.unlock
  have hops : o.ops + 0 = l.ops := by
    rw [hk.ops, add_zero]
    rcases hl with rfl | ⟨N, k, N', k', hl, rfl, -⟩
    · rfl
    · rw [hl]
      rfl
  have hkept : Kept (.lock h .clean ::ₘ (R + others)) sh.fs h.ip →
      0 < (sh.fs.icache h.ip).ref ∧ (sh.fs.icache h.ip).valid = true ∧
        (sh.fs.icache h.ip).inum = (sh.fs.icache h.ip).inum :=
    fun hkept => ⟨hkept.1, hkept.2.1, rfl⟩
  -- the token that is left counts as the reference
  have hstep : ∀ {a}, a.counts = h.counts →
      Knows sb (o.after sh.fs o.me [] (Call.iunlock h.ip) ())
        ⟨a ::ₘ R, { H.view with ledger := l }⟩ := by
    intro a ha
    refine hk.step ((hk.covers.below hl).quiet rfl) hops ?_ (fun _ => rfl) rfl
    rw [ht]
    refine tally_swap ?_
    change a.counts = h.counts + (0, Pi.single h.ip 1, 0) + (0, -Pi.single h.ip 1, 0)
    rw [ha, add_assoc]
    simp
  refine keeps_run rfl fun _ => ?_
  refine ends_bind (ends_bind (ends_get (ends_pure ?_)))
  split
  · exact ends_fail ⟨nofun, nofun, nofun⟩
  · refine FsM.setInode_ends ?_
    rcases hq with hq | ⟨f, n, hf, hq⟩
    · refine ⟨_, hq, hstep rfl, Good.cons ?_⟩
      refine hg.setEntry ⟨rfl, rfl, rfl⟩ hi ?_ (fun _ => rfl) hkept
      rw [marks_cons rfl, marks_cons rfl]
    · refine ⟨_, hq, hstep (by rw [hf]; rfl), Good.cons ?_⟩
      rw [hf] at hi
      refine hg.setEntry ⟨rfl, rfl, rfl⟩ hi.leaveFile ?_ (fun _ => rfl) hkept
      rw [marks_cons rfl, marks_cons rfl]

theorem keeps_iputTest {ip : InodePtr} : Preserves sb base lost (.iputTest ip) := by
  intro H others sh o Q hw hk hg
  obtain ⟨a, n, R, N, k, ⟨ht, hr, ha⟩, hl, hkeep, hfree⟩ := hw
  rw [ht, cons_add] at hg
  have hcounts := Token.counts_of_isRef hr ha
  have hmark := Token.isMark_of_isRef hr
  refine keeps_run rfl fun _ => ?_
  by_cases hlast : (sh.fs.icache ip).ref = 1 ∧ (sh.fs.icache ip).valid = true ∧
      (sh.fs.icache ip).d.nlink = 0
  · refine ends_bind (ends_bind (ends_get (ends_pure ?_)))
    rw [if_pos hlast]
    split
    · exact ends_fail ⟨nofun, nofun, nofun⟩
    · next hbusy =>
      have hbusy' : (sh.fs.icache ip).busy = false := by simpa using hbusy
      have hi := hg.inv.putLock hr ha hbusy' hlast.1 hlast.2.1 hlast.2.2
      have hcov : (Ledger.normal N k).Covers sb o.tx := hl ▸ hk.covers
      have hops : o.ops + 0 = (Ledger.freeing n N k).ops := hk.ops_eq (by rw [hl]; rfl)
      refine ends_bind (FsM.setInode_ends (ends_bind (ends_emit (ends_pure ?_))))
      refine ⟨_, hfree, hk.step (hcov.free rfl) hops ?_ (fun _ => rfl) rfl, Good.cons ?_⟩
      · rw [ht]
        refine tally_swap ?_
        rw [hcounts]
        rfl
      · refine hg.setEntry ⟨rfl, rfl, rfl⟩ hi ?_ (fun _ => rfl) ?_
        · rw [marks_cons rfl, marks_cons hmark]
        · exact fun hkept => ⟨hkept.1, hkept.2.1, rfl⟩
  · refine FsM.iputTest_keep_ends hlast ⟨_, hkeep, hk.move rfl rfl rfl ?_ (fun _ => rfl) rfl, ?_⟩
    · rw [ht]
      refine tally_drop ?_
      rw [hcounts]
      change (Pi.single ip 1, 0, 0) + (-Pi.single ip 1, 0, 0) = (0 : Counts)
      simp
    · have hM : marks (R + others) = marks (a ::ₘ (R + others)) := (marks_cons hmark).symm
      refine Good.plain ⟨rfl, rfl, rfl⟩ ⟨hg.inv.put hr ha, ?_, ?_, ?_⟩
      · exact hg.recorded.setEntry (fun _ => mem_of_marks hM rfl) fun _ => rfl
      · exact Linked.put hg.inv hg.linked hr ha hlast
      · exact hg.ends.keep (fun _ _ => count_of_marks hM rfl) rfl rfl

theorem keeps_iputDone {ip : InodePtr} : Preserves sb base lost (.iputDone ip) := by
  intro H others sh o Q hw hk hg
  obtain ⟨n, R, N, k, ht, hl, hq⟩ := hw
  rw [ht, cons_add] at hg
  have hcov : (Ledger.freeing n N k).Covers sb o.tx := hl ▸ hk.covers
  have hops : o.ops + 0 = (Ledger.normal N k).ops := hk.ops_eq (by rw [hl]; rfl)
  have hborn : ∀ m, .born m ∈ Token.lock (.own ip n) .gone ::ₘ (R + others) →
      .born m ∈ R + others := by
    intro m hm
    rw [Multiset.mem_cons] at hm
    exact hm.resolve_left nofun
  refine keeps_run rfl fun _ => ends_bind (FsM.setInode_ends (ends_emit ?_))
  refine ⟨_, hq, hk.step (hcov.freed rfl) hops ?_ (fun _ => rfl) rfl, ?_⟩
  · rw [ht]
    refine tally_drop ?_
    change (Pi.single ip 1, 0, 0) + (0, Pi.single ip 1, 0) +
      (-Pi.single ip 1, -Pi.single ip 1, 0) = (0 : Counts)
    simp
  · refine Good.plain ⟨rfl, rfl, rfl⟩ ⟨hg.inv.putDone rfl, ?_, ?_, ?_⟩
    · exact hg.recorded.setEntry (fun h => by simp) fun _ => rfl
    · -- the entry was not one that keeps an inode
      refine hg.linked.setEntry hborn (fun _ => Multiset.mem_cons_of_mem) fun hkept => ?_
      exact absurd rfl (hkept.2.2 _ (mem_cons_self _ _))
    · exact hg.ends.keep (fun p w => by simp) rfl rfl

/-! ## Inodes -/

theorem keeps_ialloc {type : FileType} : Preserves sb base lost (.ialloc type) := by
  intro H others sh o Q hw hk hg
  obtain ⟨-, N, k, hl, hq⟩ := hw
  have hcov : (Ledger.normal N k).Covers sb o.tx := hl ▸ hk.covers
  have hops : ∀ n, o.ops + 0 = (Ledger.normal (insert n N) k).ops := by
    intro n
    rw [hk.ops, hl]
    rfl
  refine keeps_run rfl fun _ => ?_
  refine ends_bind (ends_get ?_)
  split
  · next n hn =>
    have hfree : (sh.fs.dinode n).type = .free := by simpa using List.find?_some hn
    refine ends_bind (ends_modify (ends_bind (ends_emit (ends_pure ?_))))
    refine ⟨_, (hq n).2, hk.step ?_ (hops n) ?_ (fun _ => rfl) rfl, Good.cons ?_⟩
    · refine hcov.log (j := 0) (R := ∅) (hq n).1 (Nat.le_refl _) ?_
      rw [← hg.inv.sb_eq]
      exact Logs.one (Or.inl rfl)
    · exact (tally_cons _ _).trans (add_comm _ _)
    · refine Good.noted rfl rfl ⟨?_, ?_, ?_, ?_⟩
      · rw [Inv.cons_iff rfl fun _ => rfl]
        exact hg.inv.alloc hfree
      · refine (hg.recorded.alloc type hg.inv hfree).keep (fun h => ?_) (fun _ => rfl)
          fun _ _ => rfl
        simp
      · exact hg.linked.alloc
      · exact hg.ends.keep (fun p w => by simp) rfl rfl
  · exact ends_fail ⟨nofun, nofun, nofun⟩

theorem keeps_patch {ip : InodePtr} {p : Patch} : Preserves sb base lost (.patch ip p) := by
  intro H others sh o Q hw hk hg
  obtain ⟨h, R, rfl, ⟨hp, ht, hq⟩ | ⟨rfl, ht, hq⟩⟩ := hw
  · rw [ht, cons_add] at hg
    refine keeps_run rfl fun _ => FsM.setDinode_ends ?_
    refine ⟨_, hq, hk.move rfl rfl rfl ?_ (fun _ => rfl) rfl,
      Good.cons (Good.noted rfl rfl ⟨hg.inv.patch hp, hg.recorded.patch hg.inv, ?_, ?_⟩)⟩
    · rw [ht]
      exact tally_swap (add_zero _).symm
    · refine hg.linked.setEntry (fun m hm => ?_) (fun h hh => ?_)
        fun hkept => ⟨hkept.1, hkept.2.1, rfl⟩
      · simpa using hm
      · simpa using hh
    · exact hg.ends.keep (fun p w => by simp) rfl rfl
  · rw [ht, cons_add] at hg
    refine keeps_run rfl fun _ => FsM.setDinode_ends ?_
    refine ⟨_, hq, hk.move rfl rfl rfl ?_ (fun _ => rfl) rfl,
      Good.cons (Good.noted rfl rfl ⟨hg.inv.patchFree, hg.recorded.patchFree, ?_, ?_⟩)⟩
    · rw [ht]
      exact tally_swap (add_zero _).symm
    · refine hg.linked.setEntry (fun m hm => ?_) (fun h hh => ?_)
        fun hkept => ⟨hkept.1, hkept.2.1, rfl⟩
      · simpa using hm
      · simpa using hh
    · exact hg.ends.keep (fun p w => by simp) rfl rfl

theorem keeps_iupdate {ip : InodePtr} : Preserves sb base lost (.iupdate ip) := by
  intro H others sh o Q hw hk hg
  obtain ⟨h, R, N, k, rfl, ⟨ht, hl, hroom, hq⟩ | ⟨ht, hl, hq⟩⟩ := hw
  · rw [ht, cons_add] at hg
    have hcov : (Ledger.normal N k).Covers sb o.tx := hl ▸ hk.covers
    have hops : o.ops + 0 = (Ledger.normal (insert h.inum N) k).ops := hk.ops_eq (by rw [hl]; rfl)
    have hinum := hg.inv.inum (mem_cons_self _ _) (h := h) rfl
    refine keeps_run rfl fun _ => FsM.iupdate_ends ?_
    refine ⟨_, hq, hk.step ?_ hops ?_ (fun _ => rfl) rfl, Good.cons ?_⟩
    · refine hcov.log (j := 0) (R := ∅) hroom (Nat.le_refl _) ?_
      rw [← hg.inv.sb_eq, ← hinum]
      exact Logs.one (Or.inl rfl)
    · rw [ht]
      exact tally_swap (add_zero _).symm
    · refine Good.plain ⟨rfl, rfl, rfl⟩ ⟨hg.inv.update, hg.recorded.update hg.inv,
        Linked.update hg.inv hg.linked, ?_⟩
      exact hg.ends.keep (fun p w => by simp) rfl rfl
  · rw [ht, cons_add] at hg
    have hcov : (Ledger.freeing h.inum N k).Covers sb o.tx := hl ▸ hk.covers
    have hops : o.ops + 0 = H.view.ledger.ops := hk.ops_eq rfl
    have hinum := hg.inv.inum (mem_cons_self _ _) (h := h) rfl
    refine keeps_run rfl fun _ => FsM.iupdate_ends ?_
    refine ⟨_, hq, hk.step (l := H.view.ledger) ?_ hops ?_ (fun _ => rfl) rfl, Good.cons ?_⟩
    · rw [hl]
      refine hcov.logFreeing ?_
      rw [← hg.inv.sb_eq, ← hinum]
      exact Logs.one (Or.inl rfl)
    · rw [ht]
      exact tally_swap (add_zero _).symm
    · refine Good.plain ⟨rfl, rfl, rfl⟩ ⟨hg.inv.updateFree, ?_,
        Linked.updateFree hg.inv hg.linked, ?_⟩
      · refine hg.recorded.keep (fun h => by simp) ?_ fun _ _ => rfl
        obtain ⟨-, hd, -⟩ := hg.inv.phase (mem_cons_self _ _)
        intro m
        by_cases hm : m = (sh.fs.icache h.ip).inum
        · rw [hm, Disk.dinode_setDinode_self, hd]
          rfl
        · rw [Disk.dinode_setDinode_of_ne hm]
      · exact hg.ends.keep (fun p w => by simp) rfl rfl

theorem Good.content {p q : Phase} {size : Word} {addrs : Fin (NDIRECT + 1) → Nat}
    (hg : Good sb base lost (.lock h p ::ₘ R) sh) (hc : c.Plain sh.fs b)
    (hi : Inv sb (sh.calm = true) (.lock h q ::ₘ R) t)
    (hM : marks (.lock h q ::ₘ R) = marks (.lock h p ::ₘ R))
    (hic : t.icache = Function.update sh.fs.icache h.ip { sh.fs.icache h.ip with
      d := { (sh.fs.icache h.ip).d with size := size, addrs := addrs } })
    (hdisk : t.dinode = Function.update sh.fs.dinode (sh.fs.icache h.ip).inum (t.icache h.ip).d)
    (hold : sh.fs.dinode (sh.fs.icache h.ip).inum = (sh.fs.icache h.ip).d)
    (hft : t.ftable = sh.fs.ftable) (hpipes : t.pipes = sh.fs.pipes) :
    Good sb base lost (.lock h q ::ₘ R) (sh.after t c b) := by
  have hentry : ∀ jp, ∃ size addrs, t.icache jp = { sh.fs.icache jp with
      d := { (sh.fs.icache jp).d with size := size, addrs := addrs } } := by
    intro jp
    rw [hic]
    by_cases hj : jp = h.ip
    · subst hj
      rw [Function.update_self]
      exact ⟨_, _, rfl⟩
    · rw [Function.update_of_ne hj]
      exact ⟨_, _, rfl⟩
  have hsame : ∀ m, ∃ size addrs, t.dinode m =
      { sh.fs.dinode m with size := size, addrs := addrs } := by
    intro m
    rw [hdisk]
    by_cases hm : m = (sh.fs.icache h.ip).inum
    · rw [hm, Function.update_self, hic, Function.update_self, hold]
      exact ⟨_, _, rfl⟩
    · rw [Function.update_of_ne hm]
      exact ⟨_, _, rfl⟩
  refine plain hc ⟨hi, ?_, ?_, ?_⟩
  · refine hg.recorded.keep (fun _ => mem_of_marks hM rfl) ?_ ?_
    · intro m
      obtain ⟨size, addrs, heq⟩ := hsame m
      rw [heq]
      rfl
    · intro h' _
      obtain ⟨size, addrs, heq⟩ := hentry h'.ip
      rw [heq]
      rfl
  · refine hg.linked.keep (fun _ => (mem_of_marks hM rfl).mpr) ?_ ?_
    · intro m
      obtain ⟨size, addrs, heq⟩ := hsame m
      rw [heq]
      exact ⟨rfl, rfl⟩
    · intro jp hkept
      obtain ⟨size, addrs, heq⟩ := hentry jp
      unfold Kept
      dsimp only
      rw [heq]
      exact ⟨⟨hkept.1, hkept.2.1, fun h hh => hkept.2.2 h ((mem_of_marks hM rfl).mp hh)⟩, rfl⟩
  · exact hg.ends.keep (fun _ _ => count_of_marks hM rfl) hft hpipes

theorem keeps_itrunc {ip : InodePtr} : Preserves sb base lost (.itrunc ip) := by
  intro H others sh o Q hw hk hg
  obtain ⟨n, R, N, k, ht, hl, hq⟩ := hw
  rw [ht, cons_add] at hg
  have hcov : (Ledger.freeing n N k).Covers sb o.tx := hl ▸ hk.covers
  have hops : o.ops + 0 = H.view.ledger.ops := hk.ops_eq rfl
  have hmem : .lock (.own ip n) .dying ∈ .lock (.own ip n) .dying ::ₘ (R + others) :=
    mem_cons_self _ _
  have hinum : (sh.fs.icache ip).inum = n := hg.inv.inum hmem (h := .own ip n) rfl
  obtain ⟨hclean, htype⟩ : sh.fs.Clean ip ∧ (sh.fs.icache ip).d.type ≠ .free := by
    have hphase := hg.inv.phase hmem
    exact ⟨hphase.2.1, hphase.2.2.1⟩
  refine keeps_run rfl fun _ => (FsM.itrunc_ends hg.inv.sound hclean htype).mono ?_ fun _ hf => hf
  · rintro _ t ev ⟨htrunc, hlog⟩
    refine ⟨_, hq, hk.step (l := H.view.ledger) ?_ hops ?_ (fun _ => rfl) rfl, Good.cons ?_⟩
    · rw [hl]
      refine hcov.logFreeing ?_
      rw [hg.inv.sb_eq, hinum] at hlog
      exact hlog.mono fun _ hx => hx.symm
    · rw [ht]
      exact tally_swap (add_zero _).symm
    · refine hg.content ⟨rfl, rfl, rfl⟩ (hg.inv.trunc htrunc) ?_ htrunc.icache htrunc.dinode hclean
        ?_ ?_
      · rw [marks_cons rfl, marks_cons rfl]
      · rw [htrunc.rest]
      · rw [htrunc.rest]

theorem keeps_inode {ip : InodePtr} : Preserves sb base lost (.inode ip) := by
  intro H others sh o Q hw hk hg
  obtain ⟨h, ⟨a, ha, hh⟩, rfl, hq⟩ := hw
  have hdev := hg.inv.dev (mem_add.mpr (Or.inl ha)) hh
  refine keeps_run rfl fun _ => ends_bind (ends_get (ends_pure ?_))
  exact ⟨_, hq _ hdev, hk.quiet rfl rfl rfl rfl rfl, hg.same ⟨rfl, rfl, rfl⟩⟩

theorem keeps_stati {ip : InodePtr} : Preserves sb base lost (.stati ip) := by
  intro H others sh o Q hw hk hg
  obtain ⟨h, hmem, rfl, hq⟩ := hw
  obtain ⟨R, hR⟩ := exists_cons_of_mem (mem_add.mpr (Or.inl hmem) :
    _ ∈ H.toks + others)
  refine keeps_run rfl fun _ => ends_bind (ends_bind (ends_get (ends_pure (ends_pure ?_))))
  refine ⟨_, hq _, hk.quiet rfl rfl rfl rfl rfl, ?_⟩
  refine Good.noted rfl rfl ⟨hg.inv, ?_, hg.linked, hg.ends⟩
  rw [hR] at hg ⊢
  exact hg.recorded.told hg.inv rfl rfl

/-! ## Content -/

theorem Inv.readable {calm : Prop} (hi : Inv sb calm M s) (hmem : .lock h .clean ∈ M) :
    s.Readable h.ip := by
  obtain ⟨hclean, htype⟩ := hi.clean hmem
  exact Fs.readable hi.sound hclean htype

variable {dp : InodePtr}

theorem keeps_dirfind {name : List Byte} :
    Preserves sb base lost (.dirfind dp name) := by
  intro H others sh o Q hw hk hg
  obtain ⟨h, hmem, rfl, hq⟩ := hw
  have hmem' : .lock h .clean ∈ H.toks + others := mem_add.mpr (Or.inl hmem)
  have hread := hg.inv.readable hmem'
  have hdev := hg.inv.dev hmem' (h := h) rfl
  refine keeps_run rfl fun _ =>
    (FsM.dirfind_reads hread ⟨nofun, nofun, nofun⟩ ⟨nofun, nofun, nofun⟩).mono ?_
      fun _ hf => hf
  rintro r t ev ⟨rfl, rfl, hr⟩
  rw [hdev] at hr
  exact ⟨_, hq r hr, hk.quiet rfl rfl rfl rfl rfl, hg.same ⟨rfl, rfl, rfl⟩⟩

theorem keeps_freeSlot : Preserves sb base lost (.freeSlot dp) := by
  intro H others sh o Q hw hk hg
  obtain ⟨h, hmem, rfl, hq⟩ := hw
  have hread := hg.inv.readable (mem_add.mpr (Or.inl hmem))
  refine keeps_run rfl fun _ =>
    (FsM.freeSlot_reads hread ⟨nofun, nofun, nofun⟩).mono ?_ fun _ hf => hf
  rintro off t ev ⟨rfl, rfl, hoff⟩
  exact ⟨_, hq off hoff, hk.quiet rfl rfl rfl rfl rfl, hg.same ⟨rfl, rfl, rfl⟩⟩

theorem keeps_isdirempty : Preserves sb base lost (.isdirempty dp) := by
  intro H others sh o Q hw hk hg
  obtain ⟨h, hmem, rfl, hq⟩ := hw
  have hread := hg.inv.readable (mem_add.mpr (Or.inl hmem))
  refine keeps_run rfl fun _ =>
    (FsM.isdirempty_reads hread ⟨nofun, nofun, nofun⟩).mono ?_ fun _ hf => hf
  rintro r t ev ⟨rfl, rfl⟩
  exact ⟨_, hq r, hk.quiet rfl rfl rfl rfl rfl, hg.same ⟨rfl, rfl, rfl⟩⟩

theorem keeps_readi {ip : InodePtr} {off n : Word} : Preserves sb base lost (.readi ip off n) := by
  intro H others sh o Q hw hk hg
  obtain ⟨h, hmem, rfl, hq⟩ := hw
  have hread := hg.inv.readable (mem_add.mpr (Or.inl hmem))
  refine keeps_run rfl fun _ => (FsM.readi_ends off n hread).mono ?_ fun _ hf => hf.elim
  rintro r t ev ⟨rfl, rfl, -⟩
  exact ⟨_, hq r, hk.quiet rfl rfl rfl rfl rfl, hg.same ⟨rfl, rfl, rfl⟩⟩

theorem Good.write {src : Nat → Byte} {off n : Nat} (hg : Good sb base lost M sh)
    (hc : c.Plain sh.fs b) (hmem : .lock h .clean ∈ M)
    (hup : FsM.Updated h.ip src off n sh.fs t) : Good sb base lost M (sh.after t c b) := by
  obtain ⟨R, rfl⟩ := exists_cons_of_mem hmem
  obtain ⟨hclean, -⟩ := hg.inv.clean hmem
  refine hg.content hc (hg.inv.write hup) rfl hup.icache hup.dinode hclean ?_ ?_
  · rw [hup.rest]
  · rw [hup.rest]

theorem keeps_writei {ip : InodePtr} {src : Nat → Byte} {off n : Word} :
    Preserves sb base lost (.writei ip src off n) := by
  intro H others sh o Q hw hk hg
  obtain ⟨h, hmem, rfl, hq⟩ := hw
  have hmem' : .lock h .clean ∈ H.toks + others := mem_add.mpr (Or.inl hmem)
  obtain ⟨hclean, htype⟩ := hg.inv.clean hmem'
  have hfull := (hg.inv.readable hmem').full
  have hinum := hg.inv.inum hmem' (h := h) rfl
  refine keeps_run rfl fun _ => (FsM.writei_ends hg.inv.sound hclean htype).mono ?_ ?_
  · intro r t ev hr
    -- the invariants, and what was logged, whether or not the write is accepted
    have hgood : Good sb base lost (H.toks + others) (sh.after t (.writei h.ip src off n) r) := by
      split at hr
      · obtain ⟨-, rfl, -⟩ := hr
        exact hg.same ⟨rfl, rfl, rfl⟩
      · exact hg.write ⟨rfl, rfl, rfl⟩ hmem' hr.2.1
    have hlogs : FsM.UpdateLogs h.ip off.toNat n.toNat sh.fs t ev := by
      split at hr
      · obtain ⟨-, -, rfl⟩ := hr
        exact Logs.nil
      · exact hr.2.2
    rcases hq with ⟨N, k, hl, hoff, hn, hroom, hq⟩ | ⟨hl, hq⟩
    · have hcov : (Ledger.normal N k).Covers sb o.tx := hl ▸ hk.covers
      have hops : o.ops + 0 = (Ledger.normal (insert h.inum N) (k + 2)).ops :=
        hk.ops_eq (by rw [hl]; rfl)
      rw [hn] at hlogs
      obtain ⟨R, hR, hlog⟩ := hlogs.dirent hoff
      rw [hinum, hg.inv.sb_eq] at hlog
      exact ⟨_, hq r, hk.step (hcov.log hroom hR hlog) hops (add_zero _).symm (fun _ => rfl) rfl,
        hgood⟩
    · have hcov : Ledger.data.Covers sb o.tx := hl ▸ hk.covers
      have hops : o.ops + 0 = Ledger.written.ops := hk.ops_eq (by rw [hl]; rfl)
      refine ⟨_, hq r, hk.step ?_ hops (add_zero _).symm (fun _ => rfl) rfl, hgood⟩
      change (o.tx.logged ∪ logged ev).card ≤ _
      rw [show o.tx.logged = ∅ from hcov, Finset.empty_union]
      exact Nat.le_trans (hlogs.card_le hfull) (Nat.le_max_right _ _)
  · rintro f ⟨rfl, -⟩
    exact ⟨nofun, nofun, nofun⟩

/-! ## Files -/

theorem not_endOf {f : File} (h : f.type ≠ .pipe) (p : Nat) (w : Bool) : ¬ f.EndOf p w :=
  fun he => h he.2.1

theorem Good.repipe {closed : List (Nat × Bool)} (hg : Good sb base lost M sh)
    (hi : Inv sb (sh.calm = true) M' t) (hlock : ∀ h p, .lock h p ∈ M' ↔ .lock h p ∈ M)
    (hborn : ∀ m, .born m ∈ M' ↔ .born m ∈ M) (hdisk : t.toDisk = sh.fs.toDisk)
    (hic : t.icache = sh.fs.icache) (hends : PipeEnds M' t closed) :
    Good sb base lost M' { sh with fs := t, closed := closed } where
  inv := hi
  recorded := by
    refine hg.recorded.keep (fun _ => hlock _ _) (fun _ => ?_) fun _ _ => ?_
    · rw [hdisk]
    · rw [hic]
  linked := by
    refine hg.linked.keep (fun _ => (hborn _).mpr) (fun _ => ?_) fun jp hkept => ?_
    · rw [hdisk]
      exact ⟨rfl, rfl⟩
    · unfold Kept
      dsimp only
      rw [hic]
      exact ⟨⟨hkept.1, hkept.2.1, fun h hh => hkept.2.2 h ((hlock _ _).mp hh)⟩, rfl⟩
  ends := hends

theorem keeps_filealloc : Preserves sb base lost .filealloc := by
  intro H others sh o Q hw hk hg
  obtain ⟨hmode, hnone, hsome⟩ := hw
  refine keeps_run rfl fun _ => ?_
  refine ends_bind (ends_get ?_)
  split
  · next f hf =>
    have hzero : (sh.fs.ftable f).ref = 0 := by simpa using List.find?_some hf
    have htype : (sh.fs.ftable f).type ≠ .pipe := by
      rw [(hg.inv.file f).unused hzero]
      exact nofun
    refine ends_bind (ends_modify (ends_pure ⟨_, hsome f, ?_, Good.cons ?_⟩))
    · refine hk.move rfl rfl rfl (tally_take rfl) (fun hm => ?_) rfl
      exact absurd (hk.mode.symm.trans hm) hmode
    · refine hg.setFile ⟨rfl, rfl, rfl⟩ (hg.inv.filealloc hzero) (marks_cons rfl) fun p w => ?_
      exact iff_of_false (fun he => htype he.2.1) (not_endOf htype p w)
  · exact ends_pure ⟨_, hnone, hk.quiet rfl rfl rfl rfl rfl, hg.same ⟨rfl, rfl, rfl⟩⟩

variable {f : FilePtr}

theorem keeps_filedup : Preserves sb base lost (.filedup f) := by
  intro H others sh o Q hw hk hg
  obtain ⟨hmode, hmem, hq⟩ := hw
  obtain ⟨R, hR⟩ := exists_cons_of_mem (mem_add.mpr (Or.inl hmem) :
    _ ∈ H.toks + others)
  have hpos := hg.inv.fref_pos (mem_add.mpr (Or.inl hmem)) Token.of_fref
  refine keeps_run rfl fun _ => ?_
  refine ends_bind (ends_get ?_)
  rw [if_neg (by omega)]
  refine ends_modify ⟨_, hq, ?_, Good.cons ?_⟩
  · refine hk.move rfl rfl rfl (tally_take rfl) (fun hm => ?_) rfl
    exact absurd (hk.mode.symm.trans hm) hmode
  · have hi := hg.inv
    rw [hR] at hi
    have hi' := hi.filedup
    rw [← hR] at hi'
    refine hg.setFile ⟨rfl, rfl, rfl⟩ hi' (marks_cons rfl) fun p w => ?_
    unfold File.EndOf
    dsimp only
    exact and_congr_left fun _ => ⟨fun _ => hpos, fun _ => by omega⟩

theorem keeps_filedrop : Preserves sb base lost (.filedrop f) := by
  intro H others sh o Q hw hk hg
  obtain ⟨hmode, R, hq⟩ := hw
  have hstill : ∀ {P : Prop}, o.mode = .still → P :=
    fun hm => absurd (hk.mode.symm.trans hm) hmode
  have hdead : ∀ fl : File, fl.type = .none → ∀ p w, ¬ fl.EndOf p w := by
    intro fl hfl
    refine not_endOf ?_
    rw [hfl]
    exact nofun
  refine keeps_run rfl fun _ => ?_
  unfold FsM.filedrop
  refine ends_bind (ends_get ?_)
  dsimp only
  rcases hq with ⟨ht, hq⟩ | ⟨ht, hnone, hsome⟩
  · rw [ht, cons_add] at hg
    have hmem : .new f ∈ (Token.new f ::ₘ (R + others)).filter (·.of f) :=
      mem_filter.mpr ⟨mem_cons_self _ _, Token.of_new⟩
    obtain ⟨href, htype⟩ := (hg.inv.file f).new f hmem
    rw [if_neg (by omega), if_neg (by omega)]
    refine ends_bind (ends_modify (ends_pure ⟨_, hq _ htype, ?_, ?_⟩))
    · refine hk.move rfl rfl rfl ?_ hstill rfl
      rw [ht]
      refine tally_drop ?_
      change (0, 0, Pi.single f 1, 0) + (contents (sh.fs.ftable f) + (0, 0, -Pi.single f 1, 0)) =
        (0 : Counts)
      unfold contents
      rw [htype]
      simp
    · refine hg.setFile ⟨rfl, rfl, rfl⟩ (hg.inv.fileEnd rfl Token.of_new href ?_)
        (marks_cons rfl).symm fun p w => ?_
      · rw [htype]
        exact nofun
      · exact iff_of_false (hdead _ rfl p w) (hdead _ htype p w)
  · rw [ht, cons_add] at hg
    have hpos := hg.inv.fref_pos (mem_cons_self _ _) Token.of_fref
    rw [if_neg (by omega)]
    split
    · next href =>
      refine ends_bind (ends_modify (ends_pure ⟨_, hnone, ?_, ?_⟩))
      · refine hk.move rfl rfl rfl ?_ hstill rfl
        rw [ht]
        refine tally_drop ?_
        change (0, 0, Pi.single f 1, 0) + (0, 0, -Pi.single f 1, 0) = (0 : Counts)
        simp
      · refine hg.setFile ⟨rfl, rfl, rfl⟩ (hg.inv.fileput href) (marks_cons rfl).symm
          fun p w => ?_
        unfold File.EndOf
        dsimp only
        exact and_congr_left fun _ => ⟨fun _ => hpos, fun _ => href⟩
    · next hle =>
      have href : (sh.fs.ftable f).ref = 1 := by omega
      refine ends_bind (ends_modify (ends_pure ?_))
      -- what the last reference gives back depends on what the file is open on
      cases htype : (sh.fs.ftable f).type with
      | none =>
        refine ⟨_, (hsome _).1 htype, hk.move rfl rfl rfl ?_ hstill rfl, ?_⟩
        · rw [ht]
          refine tally_drop ?_
          change (0, 0, Pi.single f 1, 0) +
            (contents (sh.fs.ftable f) + (0, 0, -Pi.single f 1, 0)) = (0 : Counts)
          unfold contents
          rw [htype]
          simp
        · refine hg.setFile ⟨rfl, rfl, rfl⟩ (hg.inv.fileEnd rfl Token.of_fref href ?_)
            (marks_cons rfl).symm fun p w => ?_
          · rw [htype]
            exact nofun
          · exact iff_of_false (hdead _ rfl p w) (hdead _ htype p w)
      | pipe =>
        refine ⟨_, (hsome _).2.1 htype, hk.move rfl rfl rfl ?_ hstill rfl, Good.cons ?_⟩
        · rw [ht]
          refine tally_swap ?_
          change (0, 0, 0, Pi.single ((sh.fs.ftable f).pipe, (sh.fs.ftable f).writable) 1) =
            (0, 0, Pi.single f 1, 0) + (contents (sh.fs.ftable f) + (0, 0, -Pi.single f 1, 0))
          unfold contents
          rw [htype]
          simp
        · have hi := hg.inv.fileEnd rfl Token.of_fref href (by rw [htype]; exact nofun)
          refine Good.plain ⟨rfl, rfl, rfl⟩ (hg.repipe ((Inv.cons_iff rfl fun _ => rfl).mpr hi)
            (fun _ _ => by simp) (fun _ => by simp) rfl rfl ?_)
          refine hg.ends.drain nofun (fun p w => ?_) (hdead _ rfl)
          unfold File.EndOf
          rw [htype]
          simp [hpos, eq_comm]
      | inode =>
        refine ⟨_, (hsome _).2.2 htype (sh.fs.icache (sh.fs.ftable f).ip).inum,
          hk.move rfl rfl rfl ?_ hstill rfl, Good.cons ?_⟩
        · rw [ht]
          refine tally_swap ?_
          change (Pi.single (sh.fs.ftable f).ip 1, 0, 0, 0) =
            (0, 0, Pi.single f 1, 0) + (contents (sh.fs.ftable f) + (0, 0, -Pi.single f 1, 0))
          unfold contents
          rw [htype]
          simp
        · refine hg.setFile ⟨rfl, rfl, rfl⟩ (hg.inv.fileClosed href htype) ?_ fun p w => ?_
          · rw [marks_cons rfl, marks_cons rfl]
          · refine iff_of_false (hdead _ rfl p w) (not_endOf ?_ p w)
            rw [htype]
            exact nofun

theorem keeps_file : Preserves sb base lost (.file f) := by
  intro H others sh o Q hw hk hg
  refine keeps_of_ends fun _ => ends_bind (ends_get (ends_pure ?_))
  rcases hw with ⟨R, ht, hq⟩ | ⟨ip, n, ⟨a, ha, hh⟩, hq⟩
  · rcases hq (sh.fs.ftable f) with hq | ⟨htype, hq⟩
    · exact ⟨_, hq, hk.quiet rfl rfl rfl rfl rfl, hg.same ⟨rfl, rfl, rfl⟩⟩
    · rw [ht, cons_add] at hg
      refine ⟨_, hq (sh.fs.icache (sh.fs.ftable f).ip).inum,
        hk.move rfl rfl rfl ?_ (fun _ => rfl) rfl, Good.cons ?_⟩
      · rw [ht]
        exact tally_swap (add_zero _).symm
      · refine (hg.retoken (hg.inv.useFile htype) ?_).same ⟨rfl, rfl, rfl⟩
        rw [marks_cons rfl, marks_cons rfl]
  · obtain ⟨-, htype, hip⟩ := hg.inv.file_open (mem_add.mpr (Or.inl ha)) hh
    exact ⟨_, hq _ htype hip, hk.quiet rfl rfl rfl rfl rfl, hg.same ⟨rfl, rfl, rfl⟩⟩

theorem keeps_setFile {ip : InodePtr} {readable writable : Bool} :
    Preserves sb base lost (.setFile f ip readable writable) := by
  intro H others sh o Q hw hk hg
  obtain ⟨n, R, ht, hq⟩ := hw
  rw [ht, cons_add, cons_add] at hg
  have hmem : .new f ∈ (Token.new f ::ₘ .ref (.own ip n) ::ₘ (R + others)).filter (·.of f) :=
    mem_filter.mpr ⟨mem_cons_self _ _, Token.of_new⟩
  have htype := ((hg.inv.file f).new f hmem).2
  refine keeps_run rfl fun _ => ends_modify ⟨_, hq, ?_, Good.cons ?_⟩
  · refine hk.move rfl rfl rfl ?_ (fun _ => rfl) rfl
    rw [ht]
    refine tally_fill rfl ?_
    simp [Token.counts, Handle.counts, Call.counts]
  · refine hg.setFile ⟨rfl, rfl, rfl⟩ (hg.inv.setOpen rfl rfl rfl) ?_ fun p w => ?_
    · rw [marks_cons rfl, marks_cons rfl, marks_cons rfl]
    · refine iff_of_false (fun he => by cases he.2.1) (not_endOf ?_ p w)
      rw [htype]
      decide

/-! ## Pipes -/

theorem keeps_pipealloc : Preserves sb base lost .pipealloc := by
  intro H others sh o Q hw hk hg
  obtain ⟨hmode, hnone, hsome⟩ := hw
  refine keeps_run rfl fun _ => ?_
  refine ends_bind (ends_get ?_)
  split
  · refine ends_bind (ends_modify (ends_pure ⟨_, hsome sh.fs.pipes, ?_, ?_⟩))
    · refine hk.move rfl rfl rfl ?_ (fun hm => absurd (hk.mode.symm.trans hm) hmode) rfl
      have hboth : (Token.pend sh.fs.pipes false).counts + (Token.pend sh.fs.pipes true).counts =
          Call.counts .pipealloc (some sh.fs.pipes) := by
        simp [Token.counts, Call.counts]
      rw [tally_cons, tally_cons, ← add_assoc, hboth, add_comm]
    · rw [cons_add, cons_add]
      refine Good.plain ⟨rfl, rfl, rfl⟩
        (hg.repipe ?_ (fun _ _ => by simp) (fun _ => by simp) rfl rfl hg.ends.alloc)
      rw [Inv.cons_iff rfl fun _ => rfl, Inv.cons_iff rfl fun _ => rfl]
      exact hg.inv.congr rfl rfl rfl
  · exact ends_pure ⟨_, hnone, hk.quiet rfl rfl rfl rfl rfl, hg.same ⟨rfl, rfl, rfl⟩⟩

theorem keeps_setPipe {p : Nat} {w : Bool} :
    Preserves sb base lost (.setPipe f p w) := by
  intro H others sh o Q hw hk hg
  obtain ⟨hmode, R, ht, hq⟩ := hw
  rw [ht, cons_add, cons_add] at hg
  have hi := hg.inv
  rw [cons_swap, Inv.cons_iff rfl fun _ => rfl] at hi
  have hmem : .new f ∈ (Token.new f ::ₘ (R + others)).filter (·.of f) :=
    mem_filter.mpr ⟨mem_cons_self _ _, Token.of_new⟩
  obtain ⟨href, htype⟩ := (hi.file f).new f hmem
  refine keeps_run rfl fun _ => ends_modify ⟨_, hq, ?_, Good.cons ?_⟩
  · refine hk.move rfl rfl rfl ?_ (fun hm => absurd (hk.mode.symm.trans hm) hmode) rfl
    rw [ht]
    refine tally_fill rfl ?_
    simp [Token.counts, Call.counts]
  · refine Good.plain ⟨rfl, rfl, rfl⟩
      (hg.repipe (hi.setPipe rfl rfl) (fun _ _ => by simp) (fun _ => by simp) rfl rfl ?_)
    refine hg.ends.fill (fun _ _ => by simp) (not_endOf ?_) fun q v => ?_
    · rw [htype]
      decide
    · unfold File.EndOf
      simp [href, eq_comm]

theorem keeps_pipeclose {p : Nat} {w : Bool} : Preserves sb base lost (.pipeclose p w) := by
  intro H others sh o Q hw hk hg
  obtain ⟨hmode, R, ht, hq⟩ := hw
  rw [ht, cons_add] at hg
  refine keeps_of_ends fun _ => ends_pure ⟨_, hq, ?_, ?_⟩
  · refine hk.move rfl rfl rfl ?_ (fun hm => absurd (hk.mode.symm.trans hm) hmode) rfl
    rw [ht]
    refine tally_drop ?_
    change (0, 0, 0, Pi.single (p, w) 1) + (0, 0, 0, -Pi.single (p, w) 1) = (0 : Counts)
    simp
  · have heq : sh.after sh.fs (.pipeclose p w) () =
        { sh with closed := sh.closed ++ [(p, w)] } := by
      unfold Shared.after
      dsimp only [Call.observe, Call.closes, Call.calm]
      rw [List.append_nil, Bool.and_true]
    rw [heq]
    exact hg.repipe ((Inv.cons_iff rfl fun _ => rfl).mp hg.inv) (fun _ _ => by simp)
      (fun _ => by simp) rfl rfl hg.ends.close

/-! ## The caller's own data -/

theorem keeps_reads {g : Fs → β}
    (hrun : ∀ me, c.run me = Effect.get >>= fun s => Pure.pure (g s, me))
    (hc : ∀ s b, c.Plain s b) (htx : ∀ (tx : Tx) s ev b, tx.after s ev c b = tx.add ev 0 0)
    (hops : c.ops = 0) (hcounts : ∀ b, c.counts b = 0) (hnp : ∀ np me b, c.np np me b = np)
    (hwp : ∀ H Q, wp β c H Q → ∀ r, Q r H) : Preserves sb base lost c := by
  intro H others sh o Q hw hk hg
  apply keeps_of_ends
  intro _
  rw [hrun]
  refine ends_bind (ends_get (ends_pure ⟨H, hwp H Q hw _, ?_, hg.same (hc _ _)⟩))
  exact hk.quiet (htx _ _ _ _) rfl hops (hcounts _) (hnp _ _ _)

theorem Knows.setMe (hk : Knows sb o H) (htx : o.tx.after s [] c b = o.tx.add [] 0 0)
    (hops : c.ops = 0) (hcounts : c.counts b = 0) (hnp : c.np o.np o.me b = o.np)
    (hslots : o.mode = .still → me.ofile = o.me.ofile) :
    Knows sb (o.after s me [] c b) ⟨H.toks, { H.view with me := me }⟩ := by
  have hq := hk.quiet (s := s) (b := b) htx rfl hops hcounts hnp
  refine ⟨rfl, hq.np, hq.mode, hq.covers, hq.ops, hq.counts, fun hm => ?_, hq.parent⟩
  have hst : (o.after s me [] c b).counts.2.2 = (o.me.slots, 0) := hq.still hm
  have hsame : me.slots = o.me.slots := by
    funext f
    unfold Caller.slots
    rw [hslots hm]
  rw [hst, ← hsame]
  rfl

theorem Knows.setNp {np : Option Caller} (hk : Knows sb o H)
    (htx : o.tx.after s ev c b = o.tx.add ev 0 0) (hlog : logged ev = ∅)
    (hops : c.ops = 0) (hcounts : c.counts b = 0) (hnp : c.np o.np o.me b = np)
    (hparent : np ≠ none → o.mode = .fork) :
    Knows sb (o.after s o.me ev c b)
      ⟨H.toks, { H.view with role := { H.view.role with np := np } }⟩ := by
  have hcov : H.view.ledger.Covers sb (o.tx.after s ev c b) := by
    rw [htx]
    exact hk.covers.quiet hlog
  refine ⟨hk.me, hnp, hk.mode, hcov, ?_, ?_, fun hm => ?_, ?_⟩
  · change o.ops + c.ops = _
    rw [hops, add_zero]
    exact hk.ops
  · change o.counts + c.counts b = _
    rw [hcounts, add_zero]
    exact hk.counts
  · change (o.counts + c.counts b).2.2 = _
    rw [hcounts, add_zero]
    exact hk.still hm
  · change c.np o.np o.me b ≠ none → _
    rwa [hnp]

/-- A call that gets what it needs keeps the invariants. -/
theorem calls_sound (sb : Superblock) (base : Nat → Attr) (lost : Set Nat) :
    Prog.Sound act wp (Knows sb) (Good sb base lost) Harmless where
  mono := wp_mono
  call := by
    intro β c
    cases c with
    | beginOp => exact keeps_beginOp
    | endOp => exact keeps_endOp
    | fault f => exact fun _ _ _ _ _ hw _ _ => keeps_of_ends fun _ => ends_fail hw
    | iget dev inum => exact keeps_iget
    | idup ip => exact keeps_idup
    | ialloc type => exact keeps_ialloc
    | ilock ip => exact keeps_ilock
    | iunlock ip => exact keeps_iunlock
    | iputTest ip => exact keeps_iputTest
    | itrunc ip => exact keeps_itrunc
    | iputDone ip => exact keeps_iputDone
    | inode ip => exact keeps_inode
    | stati ip => exact keeps_stati
    | patch ip p => exact keeps_patch
    | iupdate ip => exact keeps_iupdate
    | dirfind dp name => exact keeps_dirfind
    | freeSlot dp => exact keeps_freeSlot
    | isdirempty dp => exact keeps_isdirempty
    | readi ip off n => exact keeps_readi
    | writei ip src off n => exact keeps_writei
    | proc =>
      intro H others sh o Q hw hk hg
      refine keeps_of_ends fun _ => ends_pure ⟨_, ?_, hk.quiet rfl rfl rfl rfl rfl,
        hg.same ⟨rfl, rfl, rfl⟩⟩
      rwa [hk.me]
    | setCwd ip =>
      intro H others sh o Q hw hk hg
      refine keeps_of_ends fun _ => ends_pure ⟨_, hw, ?_, hg.same ⟨rfl, rfl, rfl⟩⟩
      rw [← hk.me]
      exact hk.setMe rfl rfl rfl rfl fun _ => rfl
    | setFd fd f =>
      intro H others sh o Q hw hk hg
      refine keeps_of_ends fun _ => ends_pure ⟨_, hw.2, ?_, hg.same ⟨rfl, rfl, rfl⟩⟩
      rw [← hk.me]
      exact hk.setMe rfl rfl rfl rfl fun hm => absurd (hk.mode.symm.trans hm) hw.1
    | newProc slot =>
      intro H others sh o Q hw hk hg
      refine keeps_of_ends fun _ => ends_bind (ends_get (ends_pure ?_))
      cases hmem : sh.fs.memory with
      | true =>
        refine ⟨_, hw.2.2, hk.setNp rfl rfl rfl rfl ?_ fun _ => ?_, hg.same ⟨rfl, rfl, rfl⟩⟩
        · rw [hk.me]
          rfl
        · exact hk.mode.trans hw.1
      | false =>
        exact ⟨_, hw.2.1, hk.quiet rfl rfl rfl rfl rfl, hg.same ⟨rfl, rfl, rfl⟩⟩
    | npFd _ _ | npCwd _ =>
      intro H others sh o Q hw hk hg
      refine keeps_of_ends fun _ => ends_pure ⟨_, hw, hk.setNp rfl rfl rfl rfl ?_ ?_,
        hg.same ⟨rfl, rfl, rfl⟩⟩
      · rw [hk.np]
        rfl
      · intro hne
        apply hk.parent
        rw [hk.np]
        exact fun hnone => hne (by rw [hnone]; rfl)
    | filealloc => exact keeps_filealloc
    | filedup f => exact keeps_filedup
    | filedrop f => exact keeps_filedrop
    | file f => exact keeps_file
    | advance f r =>
      intro H others sh o Q hw hk hg
      refine keeps_run rfl fun _ => ends_modify ⟨_, hw, hk.quiet rfl rfl rfl rfl rfl, ?_⟩
      exact hg.setFile ⟨rfl, rfl, rfl⟩ (hg.inv.advance _) rfl fun _ _ => Iff.rfl
    | pipealloc => exact keeps_pipealloc
    | setPipe f p w => exact keeps_setPipe
    | pipeclose p w => exact keeps_pipeclose
    | setFile f ip readable writable => exact keeps_setFile
    | _ =>
      exact keeps_reads (fun _ => rfl) (fun _ _ => ⟨rfl, rfl, rfl⟩) (fun _ _ _ _ => rfl) rfl
        (fun _ => rfl) (fun _ _ _ => rfl) fun _ _ hw => hw

end Sound

end Fs

end Xv6
