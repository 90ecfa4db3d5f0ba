import Xv6.Fs.ByteArray

/-!
# Files without blocks to spare

A file is `Compact` when it has the blocks that its bytes are in and no others. A write at the
end of such a file leaves it so, and the number of blocks that it takes is known beforehand.
-/

namespace Xv6

/-- The number of blocks that `n` bytes are in, the indirect block with them. -/
def blocksFor (n : Nat) : Nat :=
  (n + (BSIZE - 1)) / BSIZE + if n ≤ NDIRECT * BSIZE then 0 else 1

theorem blocksFor_mono {m n : Nat} (h : m ≤ n) : blocksFor m ≤ blocksFor n := by
  apply Nat.add_le_add
  · exact Nat.div_le_div_right (by omega)
  · split
    · exact Nat.zero_le _
    · rw [if_neg (by omega)]

namespace Disk

/-- The inode refers to the blocks that the bytes of the file are in, and to no others. -/
structure Compact (s : Disk) (d : Dinode) : Prop where
  blocks : ∀ bn, s.blockOf d bn = 0 ↔ d.size.toNat ≤ bn * BSIZE
  last : d.addrs (Fin.last NDIRECT) = 0 ↔ d.size.toNat ≤ NDIRECT * BSIZE

namespace Compact

variable {s t : Disk} {d : Dinode} {n : Nat}

theorem noHole (h : s.Compact d) : s.NoHole d := by
  intro bn hbn h0
  have := (h.blocks bn).mp h0
  omega

theorem size_le (h : s.Compact d) : d.size.toNat ≤ MAXFILE * BSIZE := by
  apply (h.blocks MAXFILE).mp
  by_contra h0
  exact Nat.lt_irrefl _ (lt_of_blockOf_ne_zero h0)

theorem congr (h : s.Compact d) (hs : t.slot d = s.slot d) : t.Compact d := by
  refine ⟨fun bn => ?_, h.last⟩
  unfold blockOf
  rw [hs]
  exact h.blocks bn

theorem bare (haddrs : d.addrs = fun _ => 0) (hsize : d.size = 0) : s.Compact d := by
  have hzero : d.size.toNat = 0 := by rw [hsize]; rfl
  constructor
  · intro bn
    rw [hzero]
    refine iff_of_true ?_ (Nat.zero_le _)
    unfold blockOf
    cases BlockSlot.ofIndex bn with
    | none => rfl
    | some sl => exact slot_bare haddrs sl
  · rw [hzero, haddrs]
    exact iff_of_true rfl (Nat.zero_le _)

theorem missing (h : s.Compact d) :
    (blocksIn d.size.toNat n).filter (fun bn => s.blockOf d bn = 0) =
      Finset.Ico ((d.size.toNat + (BSIZE - 1)) / BSIZE)
        ((d.size.toNat + n + (BSIZE - 1)) / BSIZE) := by
  ext bn
  rw [Finset.mem_filter, h.blocks, mem_blocksIn, Finset.mem_Ico]
  generalize d.size.toNat = size
  constructor
  · rintro ⟨⟨i, hi, rfl⟩, hle⟩
    unfold BSIZE at hle ⊢
    omega
  · rintro ⟨hlo, hhi⟩
    refine ⟨⟨bn * BSIZE - size, ?_, ?_⟩, ?_⟩
    · unfold BSIZE at hlo hhi ⊢
      omega
    · unfold BSIZE at hlo hhi ⊢
      omega
    · unfold BSIZE at hlo hhi ⊢
      omega

theorem exists_indirect (size n : Nat) :
    (∃ bn ∈ blocksIn size n, NDIRECT ≤ bn) ↔ n ≠ 0 ∧ NDIRECT * BSIZE < size + n := by
  constructor
  · rintro ⟨bn, hbn, hge⟩
    obtain ⟨i, hi, rfl⟩ := mem_blocksIn.mp hbn
    unfold NDIRECT BSIZE at *
    omega
  · rintro ⟨hn, hlt⟩
    refine ⟨(size + (n - 1)) / BSIZE, mem_blocksIn.mpr ⟨n - 1, by omega, rfl⟩, ?_⟩
    unfold NDIRECT BSIZE at *
    omega

theorem need (h : s.Compact d) :
    blocksFor d.size.toNat + s.need d d.size.toNat n = blocksFor (d.size.toNat + n) := by
  unfold Disk.need
  rw [h.missing, Nat.card_Ico]
  simp only [exists_indirect, h.last]
  unfold blocksFor
  generalize d.size.toNat = size
  have hle : (size + (BSIZE - 1)) / BSIZE ≤ (size + n + (BSIZE - 1)) / BSIZE :=
    Nat.div_le_div_right (by omega)
  split_ifs <;> omega

end Compact

end Disk

namespace Fs

variable {s t u : Fs} {ip : InodePtr}

def Others (ip : InodePtr) (s t : Fs) : Prop :=
  ∀ m, m ≠ (s.icache ip).inum → (s.eff ip m).type ≠ .free →
    t.slot (t.eff ip m) = s.slot (s.eff ip m)

namespace Others

theorem trans (h : Others ip s t) (h' : Others ip t u)
    (hinum : (t.icache ip).inum = (s.icache ip).inum)
    (htype : ∀ m, (t.eff ip m).type = (s.eff ip m).type) : Others ip s u := by
  intro m hm halive
  rw [h' m (by rwa [hinum]) (by rwa [htype]), h m hm halive]

theorem of_filled {sl : BlockSlot} {b : Nat} (h : Filled ip sl s b t) : Others ip s t := by
  intro m hm halive
  by_cases h0 : s.slot (s.icache ip).d sl = 0
  · funext sl'
    rw [(h.take h0).slot m sl' halive, if_neg]
    intro heq
    exact hm (congrArg Prod.fst heq)
  · rw [h.same h0]

end Others

end Fs

namespace FsM

open Effect Fs

variable {s t : Fs} {ip : InodePtr} {bn b : Nat}

theorem bmap_others (ha : s.Alloc (s.eff ip)) (htype : (s.icache ip).d.type ≠ .free)
    (hbn : bn < MAXFILE) :
    Ends (bmap ip bn) s (fun _ t _ => Others ip s t) fun _ => True := by
  unfold bmap
  split
  · exact (addrOf_ends ha htype).mono (fun _ _ _ h => .of_filled h.1) fun _ _ => trivial
  · have hin : bn - NDIRECT < NINDIRECT := by
      unfold MAXFILE at hbn
      omega
    rw [if_pos hin]
    refine ends_bind ((addrOf_ends ha htype).mono ?_ fun _ _ => trivial)
    rintro ind t ev ⟨hfill, -⟩
    obtain rfl : ind = (t.icache ip).d.addrs (Fin.last NDIRECT) := hfill.eq
    have htype' : (t.icache ip).d.type ≠ .free := by rwa [hfill.grew.self]
    refine (entryOf_ends hfill.grew.alloc htype' hfill.ne).mono ?_ fun _ _ => trivial
    rintro b u ev ⟨hfill', -⟩
    exact (Others.of_filled hfill).trans (.of_filled hfill') hfill.grew.inum hfill.grew.type

theorem Mapped.write_others (h : Mapped ip bn s b t) (htype : (s.icache ip).d.type ≠ .free)
    (x : Block) : Others ip t { t with block := Function.update t.block b x } := by
  obtain ⟨hn', sl, -, hne, hslot⟩ := h.exists_slot htype
  intro m _ halive
  funext sl'
  rw [hslot]
  exact Disk.write_slot h.grew.alloc hn' hne (hslot ▸ h.ne) halive sl'

/-- What a write leaves alone: the other inodes, and the blocks of the file that it does not
write to. -/
theorem writeLoop_others {turns off n : Nat} (src : Nat → Byte) (ha : s.Alloc (s.eff ip))
    (htype : (s.icache ip).d.type ≠ .free) (hturns : n ≤ turns)
    (hmax : off + n ≤ MAXFILE * BSIZE) :
    Ends (writeLoop ip turns src off n) s
      (fun _ t _ => Others ip s t ∧
        (∀ bn, bn ∉ blocksIn off n →
          t.blockOf (t.icache ip).d bn = s.blockOf (s.icache ip).d bn) ∧
        ((t.icache ip).d.addrs (Fin.last NDIRECT) = 0 ↔
          (s.icache ip).d.addrs (Fin.last NDIRECT) = 0 ∧ ∀ bn ∈ blocksIn off n, bn < NDIRECT))
      (fun _ => True) := by
  induction turns generalizing s off n src with
  | zero =>
    obtain rfl : n = 0 := by omega
    exact ends_pure ⟨fun _ _ _ => rfl, fun _ _ => rfl, by simp [blocksIn]⟩
  | succ turns ih =>
    unfold writeLoop
    by_cases hn : n = 0
    · rw [if_pos hn]
      subst hn
      exact ends_pure ⟨fun _ _ _ => rfl, fun _ _ => rfl, by simp [blocksIn]⟩
    · rw [if_neg hn]
      obtain ⟨hblocks, -⟩ := blocksIn_step off hn
      have hpos := firstPart_pos off hn
      have hle := firstPart_le off n
      have hbn : off / BSIZE < MAXFILE := by
        rw [Nat.div_lt_iff_lt_mul (by decide)]
        omega
      refine ends_bind (((bmap_ends ha htype hbn).and (bmap_others ha htype hbn)).mono ?_
        fun _ _ => trivial)
      rintro b t ev ⟨⟨hmap, -⟩, hothers⟩
      refine ends_bind (ends_modify (ends_bind (ends_emit ?_)))
      have hwrite := hmap.write src hn htype
      have htype' : (t.icache ip).d.type ≠ .free := by
        rwa [hmap.grew.self]
      change Ends (writeLoop ip turns (fun i => src (firstPart off n + i))
        (off + firstPart off n) (n - firstPart off n)) _ _ _
      refine (ih _ hwrite.alloc htype' (by omega) (by omega)).mono ?_ fun _ h => h
      rintro _ u ev' ⟨hrest, hkeep, hlast⟩
      refine ⟨?_, ?_, ?_⟩
      · refine hothers.trans ((hmap.write_others htype _).trans hrest rfl fun _ => rfl) ?_ ?_
        · exact hmap.grew.inum
        · exact hmap.grew.type
      · intro bn hnot
        rw [hblocks, Finset.mem_insert, not_or] at hnot
        rw [hkeep bn hnot.2]
        refine Eq.trans ?_ (hmap.others bn hnot.1)
        exact hmap.write_blockOf htype _ bn
      · rw [hlast]
        rw [hmap.last, hblocks]
        simp only [Finset.mem_insert, forall_eq_or_imp]
        tauto

variable {src : Nat → Byte} {n : Nat} {size : Word}

theorem Wrote.compact (size : Word) (hc : s.Compact (s.icache ip).d)
    (h : Wrote ip src (s.icache ip).d.size.toNat n s t)
    (hkeep : ∀ bn, bn ∉ blocksIn (s.icache ip).d.size.toNat n →
      t.blockOf (t.icache ip).d bn = s.blockOf (s.icache ip).d bn)
    (hlast : (t.icache ip).d.addrs (Fin.last NDIRECT) = 0 ↔
      (s.icache ip).d.addrs (Fin.last NDIRECT) = 0 ∧
        ∀ bn ∈ blocksIn (s.icache ip).d.size.toNat n, bn < NDIRECT)
    (hsize : size.toNat = (s.icache ip).d.size.toNat + n) :
    t.Compact { (t.icache ip).d with size := size } := by
  constructor
  · intro bn
    have hblock : t.blockOf { (t.icache ip).d with size := size } bn =
        t.blockOf (t.icache ip).d bn := congrFun (Disk.blockOf_congr rfl rfl) bn
    rw [hblock]
    rw [hsize]
    by_cases hin : bn ∈ blocksIn (s.icache ip).d.size.toNat n
    · refine iff_of_false (h.full bn hin) ?_
      obtain ⟨i, hi, rfl⟩ := mem_blocksIn.mp hin
      have := Nat.div_mul_le_self ((s.icache ip).d.size.toNat + i) BSIZE
      omega
    · rw [hkeep bn hin, hc.blocks]
      rw [mem_blocksIn] at hin
      constructor
      · intro hle
        by_contra hlt
        refine hin ⟨bn * BSIZE - (s.icache ip).d.size.toNat, by omega, ?_⟩
        rw [Nat.add_sub_cancel' hle]
        exact Nat.mul_div_cancel _ (by decide)
      · intro hle
        omega
  · rw [hlast, hc.last, hsize]
    have hind := Disk.Compact.exists_indirect (s.icache ip).d.size.toNat n
    have hall : (∀ bn ∈ blocksIn (s.icache ip).d.size.toNat n, bn < NDIRECT) ↔
        ¬ (n ≠ 0 ∧ NDIRECT * BSIZE < (s.icache ip).d.size.toNat + n) := by
      rw [← hind]
      push Not
      exact Iff.rfl
    rw [hall]
    omega

end FsM

end Xv6
