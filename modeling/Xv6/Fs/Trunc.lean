import Xv6.Fs.ByteArray

/-!
# `itrunc`

Freeing the blocks of an inode. The entries of the indirect block are freed one by one
while they still stand in the block; `Ownership` is kept for what is left of them.
-/

open Function (update update_of_ne update_self update_eq_self update_idem)

namespace Xv6

namespace Disk

variable {s : Disk} {I : Nat → Dinode} {n b : Nat}

theorem used_bfree : ∀ x, (x < s.sb.size ∧ update s.bit b false x = true) ↔
    x ≠ b ∧ x < s.sb.size ∧ s.bit x = true := by
  intro x
  by_cases hx : x = b
  · simp [hx]
  · simp [hx]

theorem drop_addr {i : Fin (NDIRECT + 1)} (ha : s.Alloc I) (hn : (I n).type ≠ .free)
    (hlast : i ≠ Fin.last NDIRECT) (h0 : (I n).addrs i ≠ 0) :
    ({ s with bit := update s.bit ((I n).addrs i) false } : Disk).Alloc
      (update I n { I n with addrs := update (I n).addrs i 0 }) := by
  have hk : s.owner I (n, .addr i) = some ((I n).addrs i) := owner_eq_some.mpr ⟨hn, h0, rfl⟩
  refine (Ownership.drop ha hk).congr (fun k => ?_) (used_bfree (s := s))
  by_cases hkn : k = (n, .addr i)
  · subst hkn
    rw [update_self]
    apply owner_eq_none.mpr
    right
    simp [slot]
  · rw [update_of_ne hkn]
    obtain ⟨m, sl⟩ := k
    by_cases hm : m = n
    · subst hm
      have hslot : ({ s with bit := update s.bit ((I m).addrs i) false } : Disk).slot
          { I m with addrs := update (I m).addrs i 0 } sl = s.slot (I m) sl := by
        cases sl with
        | addr i' =>
          have hne : i' ≠ i := fun heq => hkn (by rw [heq])
          simp [slot, hne]
        | entry j => simp [slot, indirect, Ne.symm hlast]
      unfold owner
      simp only [update_self, hslot]
    · unfold owner
      simp only [update_of_ne hm]
      rfl

end Disk

namespace FsM

open Effect Fs

variable {s t : Fs} {ip : InodePtr}

variable {X : Fault → Prop}

theorem bfree_ends {b : Nat} (h : b < s.sb.size ∧ s.bit b = true) :
    Ends (bfree b) s
      (fun _ t ev => (t = { s with bit := update s.bit b false }) ∧
        Logs (· ∈ s.sb.bitmap) ev) X := by
  refine ends_bind (ends_get ?_)
  rw [if_pos h.2]
  refine ends_bind (ends_modify (ends_emit ⟨rfl, ?_⟩))
  exact Logs.one (Finset.mem_image.mpr ⟨b, Finset.mem_range.mpr h.1, rfl⟩)

structure Freed (ip : InodePtr) (s t : Fs) : Prop where
  rest : t = { s with bit := t.bit, icache := t.icache }
  icache : t.icache = update s.icache ip
    { s.icache ip with d := { (s.icache ip).d with addrs := (t.icache ip).d.addrs } }
  alloc : t.Alloc (t.eff ip)

theorem Freed.self (h : Freed ip s t) : t.icache ip =
    { s.icache ip with d := { (s.icache ip).d with addrs := (t.icache ip).d.addrs } } := by
  have := congrFun h.icache ip
  rwa [update_self] at this

theorem Freed.trans {u : Fs} (h : Freed ip s t) (h' : Freed ip t u) : Freed ip s u := by
  refine ⟨?_, ?_, h'.alloc⟩
  · rw [h'.rest, h.rest]
  · rw [h'.icache, h.icache]
    simp

theorem freeDirect_ends {is : List (Fin (NDIRECT + 1))}
    (ha : s.Alloc (s.eff ip)) (htype : (s.icache ip).d.type ≠ .free)
    (hlast : Fin.last NDIRECT ∉ is) :
    Ends (freeDirect ip is) s
      (fun _ t ev => Freed ip s t ∧ (∀ i, (t.icache ip).d.addrs i =
        if i ∈ is then 0 else (s.icache ip).d.addrs i) ∧ Logs (· ∈ s.sb.bitmap) ev) X := by
  induction is generalizing s with
  | nil =>
    refine ends_pure ⟨⟨rfl, (update_eq_self ip s.icache).symm, ha⟩, ?_, Logs.nil⟩
    intro i
    simp
  | cons i is ih =>
    have hnot : Fin.last NDIRECT ∉ is := fun hmem => hlast (List.mem_cons_of_mem _ hmem)
    have hi : i ≠ Fin.last NDIRECT := fun heq => hlast (by rw [heq]; exact List.mem_cons_self)
    refine ends_bind (ends_bind (ends_get (ends_pure ?_)))
    by_cases h0 : (s.icache ip).d.addrs i ≠ 0
    · rw [if_pos h0]
      have hself : (s.eff ip (s.icache ip).inum).type ≠ .free := by rwa [eff_self]
      have hbit := ha.slot_used hself (.addr i) (by rw [eff_self]; exact h0)
      rw [eff_self] at hbit
      refine ends_bind ((bfree_ends hbit).mono ?_ fun _ hf => hf)
      rintro _ t ev ⟨rfl, hlog⟩
      have hdrop := Disk.drop_addr ha hself hi (by rw [eff_self]; exact h0)
      rw [eff_self] at hdrop
      unfold eff at hdrop
      rw [update_idem] at hdrop
      refine ends_bind (setDinode_ends ?_)
      refine (ih ?_ ?_ hnot).mono ?_ fun _ hf => hf
      · unfold eff
        simp only [update_self]
        exact hdrop
      · simpa using htype
      · rintro _ u ev' ⟨hfreed, haddrs, hlog'⟩
        refine ⟨Freed.trans ⟨rfl, ?_, ?_⟩ hfreed, ?_, hlog.append (Logs.nil.append hlog')⟩
        · simp
        · unfold eff
          simp only [update_self]
          exact hdrop
        · intro i'
          rw [haddrs]
          simp only [update_self, List.mem_cons]
          by_cases hm : i' ∈ is
          · simp [hm]
          · by_cases hii : i' = i
            · simp [hii]
            · simp [hii, hm]
    · rw [if_neg h0]
      have h0 : (s.icache ip).d.addrs i = 0 := not_not.mp h0
      refine (ih ha htype hnot).mono ?_ fun _ hf => hf
      rintro _ u ev ⟨hfreed, haddrs, hlog⟩
      refine ⟨hfreed, ?_, hlog⟩
      intro i'
      rw [haddrs]
      by_cases hii : i' = i
      · subst hii
        simp [h0]
      · simp [hii]

theorem freeEntries_ends {a : Block} {js : List (Fin (BSIZE / 4))}
    {f : Nat × BlockSlot → Option Nat} {n : Nat} (hnd : js.Nodup)
    (ho : Ownership f (fun b => b < s.sb.nmeta ∧ b < s.sb.size)
      fun b => b < s.sb.size ∧ s.bit b = true)
    (hf : ∀ j ∈ js, f (n, .entry j) = if (a j).toNat = 0 then none else some (a j).toNat) :
    Ends (freeEntries a js) s
      (fun _ t ev => (t = { s with bit := t.bit }) ∧
        Ownership (fun k => if ∃ j ∈ js, k = (n, .entry j) then none else f k)
          (fun b => b < s.sb.nmeta ∧ b < s.sb.size)
          (fun b => b < s.sb.size ∧ t.bit b = true) ∧ Logs (· ∈ s.sb.bitmap) ev) X := by
  induction js generalizing s f with
  | nil =>
    refine ends_pure ⟨rfl, ?_, Logs.nil⟩
    simpa using ho
  | cons j js ih =>
    obtain ⟨hj, hnd⟩ := List.nodup_cons.mp hnd
    have hfj := hf j List.mem_cons_self
    unfold freeEntries
    by_cases h0 : (a j).toNat ≠ 0
    · rw [if_pos h0]
      rw [if_neg h0] at hfj
      refine ends_bind ((bfree_ends (ho.used_of_owner hfj)).mono ?_ fun _ hx => hx)
      rintro _ t ev ⟨rfl, hlog⟩
      have hdrop := (ho.drop hfj).congr (fun _ => rfl) Disk.used_bfree
      refine (ih hnd hdrop ?_).mono ?_ fun _ hx => hx
      · intro j' hj'
        rw [update_of_ne]
        · exact hf j' (List.mem_cons_of_mem _ hj')
        · intro heq
          cases heq
          exact hj hj'
      · rintro _ u ev' ⟨hrest, hown, hlog'⟩
        refine ⟨by rw [hrest], hown.congr (fun k => ?_) fun _ => Iff.rfl, hlog.append hlog'⟩
        simp only [List.mem_cons, exists_eq_or_imp]
        by_cases hk : k = (n, .entry j)
        · simp [hk]
        · simp [hk]
    · rw [if_neg h0]
      have h0 : (a j).toNat = 0 := not_not.mp h0
      rw [if_pos h0] at hfj
      refine (ih hnd ho fun j' hj' => hf j' (List.mem_cons_of_mem _ hj')).mono ?_ fun _ hx => hx
      rintro _ u ev ⟨hrest, hown, hlog⟩
      refine ⟨hrest, hown.congr (fun k => ?_) fun _ => Iff.rfl, hlog⟩
      simp only [List.mem_cons, exists_eq_or_imp]
      by_cases hk : k = (n, .entry j)
      · subst hk
        simp [hfj]
      · simp [hk]

theorem freeIndirect_owner (hblock : t.block = s.block)
    (heff : t.eff ip = update (s.eff ip) (s.icache ip).inum
      { (s.icache ip).d with
        addrs := update (s.icache ip).d.addrs (Fin.last NDIRECT) 0 })
    (k : Nat × BlockSlot) :
    t.owner (t.eff ip) k =
      update (fun k => if ∃ j ∈ List.finRange (BSIZE / 4),
        k = ((s.icache ip).inum, .entry j) then none else s.owner (s.eff ip) k)
        ((s.icache ip).inum, .addr (Fin.last NDIRECT)) none k := by
  obtain ⟨m, sl⟩ := k
  by_cases hm : m = (s.icache ip).inum
  · subst hm
    cases sl with
    | entry j =>
      rw [update_of_ne (by simp), if_pos ⟨j, List.mem_finRange j, rfl⟩]
      apply Disk.owner_eq_none.mpr
      right
      simp [heff, Disk.slot, Disk.indirect, Block.zero]
    | addr i =>
      by_cases hi : i = Fin.last NDIRECT
      · subst hi
        rw [update_self]
        apply Disk.owner_eq_none.mpr
        right
        simp [heff, Disk.slot]
      · rw [update_of_ne (by simp [hi]), if_neg (by simp)]
        unfold Disk.owner
        simp [heff, Disk.slot, hi]
  · rw [update_of_ne (by simp [hm]), if_neg (by simp [hm])]
    unfold Disk.owner
    simp only [heff, update_of_ne hm, Disk.slot_congr hblock rfl]

theorem freeIndirect_ends (ha : s.Alloc (s.eff ip))
    (htype : (s.icache ip).d.type ≠ .free) :
    Ends (freeIndirect ip) s
      (fun _ t ev => Freed ip s t ∧ (∀ i, (t.icache ip).d.addrs i =
        if i = Fin.last NDIRECT then 0 else (s.icache ip).d.addrs i) ∧
        Logs (· ∈ s.sb.bitmap) ev) X := by
  refine ends_bind (ends_get ?_)
  by_cases h0 : (s.icache ip).d.addrs (Fin.last NDIRECT) ≠ 0
  · rw [if_pos h0]
    have hself : (s.eff ip (s.icache ip).inum).type ≠ .free := by rwa [eff_self]
    have hentries : ∀ j ∈ List.finRange (BSIZE / 4),
        s.owner (s.eff ip) ((s.icache ip).inum, .entry j) =
          if (s.block ((s.icache ip).d.addrs (Fin.last NDIRECT)) j).toNat = 0 then none
          else some (s.block ((s.icache ip).d.addrs (Fin.last NDIRECT)) j).toNat := by
      intro j _
      unfold Disk.owner
      simp [htype, Disk.slot, Disk.indirect, h0]
    refine ends_bind ((freeEntries_ends (List.nodup_finRange _) ha hentries).mono ?_
      fun _ hf => hf)
    rintro _ t ev ⟨hrest, hown, hlog⟩
    obtain ⟨bits, rfl⟩ : ∃ bits, t = { s with bit := bits } := ⟨t.bit, hrest⟩
    have hind : (if ∃ j ∈ List.finRange (BSIZE / 4),
        (((s.icache ip).inum, BlockSlot.addr (Fin.last NDIRECT)) : Nat × BlockSlot) =
          ((s.icache ip).inum, .entry j) then none
        else s.owner (s.eff ip) ((s.icache ip).inum, .addr (Fin.last NDIRECT))) =
        some ((s.icache ip).d.addrs (Fin.last NDIRECT)) := by
      rw [if_neg (by simp)]
      refine Disk.owner_eq_some.mpr ⟨hself, h0, ?_⟩
      simp [Disk.slot]
    refine ends_bind ((bfree_ends (hown.used_of_owner hind)).mono ?_ fun _ hf => hf)
    rintro _ u ev' ⟨rfl, hlog'⟩
    refine setDinode_ends ⟨⟨rfl, ?_, ?_⟩, ?_, hlog.append (hlog'.append Logs.nil)⟩
    · simp
    · refine (hown.drop hind).congr (freeIndirect_owner rfl ?_)
        (Disk.used_bfree (s := { s with bit := bits }.toDisk))
      unfold eff
      rw [update_idem]
      simp only [update_self]
      rfl
    · intro i
      simp only [update_self]
      by_cases hi : i = Fin.last NDIRECT
      · simp [hi]
      · simp [hi]
  · rw [if_neg h0]
    have h0 : (s.icache ip).d.addrs (Fin.last NDIRECT) = 0 := not_not.mp h0
    refine ends_pure ⟨⟨rfl, (update_eq_self ip s.icache).symm, ha⟩, ?_, Logs.nil⟩
    intro i
    by_cases hi : i = Fin.last NDIRECT
    · simp [hi, h0]
    · simp [hi]

/-- `itrunc` has freed every block of the locked inode. -/
structure Truncated (ip : InodePtr) (s t : Fs) : Prop where
  rest : t = { s with bit := t.bit, iblock := t.iblock, icache := t.icache }
  icache : t.icache = update s.icache ip
    { s.icache ip with d := { (s.icache ip).d with size := 0, addrs := fun _ => 0 } }
  dinode : t.dinode = update s.dinode (s.icache ip).inum (t.icache ip).d
  sound : t.Sound

/-- No panic: every block that is freed is marked. -/
theorem itrunc_ends (hs : s.Sound) (hc : s.Clean ip) (htype : (s.icache ip).d.type ≠ .free)
    : Ends (itrunc ip) s
      (fun _ t ev => Truncated ip s t ∧
        Logs (fun x => x ∈ s.sb.bitmap ∨ x = IBLOCK (s.icache ip).inum s.sb) ev) X := by
  have ha : s.Alloc (s.eff ip) := eff_of_clean hc ▸ hs.alloc
  refine ends_bind ((freeDirect_ends ha htype (by decide)).mono ?_ fun _ hf => hf)
  rintro _ t ev ⟨hfreed, haddrs, hlog⟩
  have htype' : (t.icache ip).d.type ≠ .free := by
    rwa [hfreed.self]
  refine ends_bind ((freeIndirect_ends hfreed.alloc htype').mono ?_ fun _ hf => hf)
  rintro _ u ev' ⟨hfreed', haddrs', hlog'⟩
  have hall := hfreed.trans hfreed'
  have htsb : t.sb = s.sb := by rw [hfreed.rest]
  have husb : u.sb = s.sb := by rw [hall.rest]
  have hzero : (u.icache ip).d.addrs = fun _ => 0 := by
    have hdirect : ∀ i, i ≠ Fin.last NDIRECT →
        i ∈ (List.range NDIRECT).map (Fin.ofNat (NDIRECT + 1)) := by decide
    funext i
    rw [haddrs', haddrs]
    by_cases hi : i = Fin.last NDIRECT
    · rw [if_pos hi]
    · rw [if_neg hi, if_pos (hdirect i hi)]
  have hself : (u.icache ip).d = { (s.icache ip).d with addrs := fun _ => 0 } := by
    rw [← hzero]
    exact congrArg Inode.d hall.self
  have hinum : (u.icache ip).inum = (s.icache ip).inum := by rw [hall.self]
  have hold : u.dinode = s.dinode := by
    rw [hall.rest]
    rfl
  refine ends_bind (setDinode_ends (iupdate_ends ?_))
  simp only [update_self]
  have hdinode : (u.setDinode (u.icache ip).inum { (u.icache ip).d with size := 0 }).dinode =
      update s.dinode (s.icache ip).inum
        { (s.icache ip).d with size := 0, addrs := fun _ => 0 } := by
    rw [Disk.dinode_setDinode, hold, hinum, hself]
  rw [htsb] at hlog'
  have hlogs : Logs (fun x => x ∈ s.sb.bitmap ∨ x = IBLOCK (s.icache ip).inum s.sb)
      (ev ++ (ev' ++ ([] ++ [.logWrite (IBLOCK (u.icache ip).inum u.sb)]))) := by
    rw [hinum, husb]
    exact (hlog.mono fun _ => Or.inl).append ((hlog'.mono fun _ => Or.inl).append
      (Logs.nil.append (Logs.one (Or.inr rfl))))
  refine ⟨⟨?_, ?_, ?_, ?_⟩, hlogs⟩
  · exact congrArg (fun v : Fs => ({ v with
      iblock := (u.setDinode (u.icache ip).inum { (u.icache ip).d with size := 0 }).iblock
      icache := update u.icache ip { u.icache ip with
        d := { (u.icache ip).d with size := 0 } } } : Fs)) hall.rest
  · rw [hall.icache, hzero]
    simp
  · dsimp only
    rw [update_self]
    refine hdinode.trans ?_
    rw [hself]
  · have hsame : ∀ m, ((u.setDinode (u.icache ip).inum
        { (u.icache ip).d with size := 0 }).dinode m).type = (u.eff ip m).type ∧
        ((u.setDinode (u.icache ip).inum
          { (u.icache ip).d with size := 0 }).dinode m).addrs = (u.eff ip m).addrs := by
      intro m
      unfold eff
      rw [Disk.dinode_setDinode]
      by_cases hm : m = (u.icache ip).inum
      · subst hm
        simp
      · simp [hm]
    refine ⟨hall.alloc.congr rfl rfl rfl hsame, ?_⟩
    intro m hm bn hbn
    rw [hdinode] at hm hbn ⊢
    by_cases hmi : m = (s.icache ip).inum
    · subst hmi
      rw [update_self] at hbn
      exact absurd hbn (Nat.not_lt_zero _)
    · rw [update_of_ne hmi] at hm hbn ⊢
      have hblock : (u.setDinode (u.icache ip).inum { (u.icache ip).d with size := 0 }).block =
          s.block := by
        rw [hall.rest]
        rfl
      rw [Disk.blockOf_congr hblock rfl]
      exact hs.full m hm bn hbn

end FsM

end Xv6
