import Mathlib.Order.Interval.Finset.Nat
import Xv6.Fs.Bmap

/-!
# Files are arrays of bytes

`readi` and `writei` in terms of the bytes of a file, for a disk whose free map is right and
whose files have no holes.
-/

namespace Xv6

/-! ## Ranges of a file -/

/-- The blocks of a file that `n` bytes from `off` on are in. -/
def blocksIn (off n : Nat) : Finset Nat :=
  if n = 0 then ∅ else Finset.Ico (off / BSIZE) ((off + n - 1) / BSIZE + 1)

/-- The part of `n` bytes from `off` on that is in the first block. -/
def firstPart (off n : Nat) : Nat := min n (BSIZE - off % BSIZE)

section Ranges

variable {off n i bn : Nat}

theorem firstPart_pos (off : Nat) (hn : n ≠ 0) : 0 < firstPart off n := by
  have : off % BSIZE < BSIZE := Nat.mod_lt _ (by decide)
  unfold firstPart
  omega

theorem firstPart_le (off n : Nat) : firstPart off n ≤ n := Nat.min_le_left ..

theorem mod_add_firstPart_le (off n : Nat) : off % BSIZE + firstPart off n ≤ BSIZE := by
  have : off % BSIZE < BSIZE := Nat.mod_lt _ (by decide)
  unfold firstPart
  omega

theorem div_of_lt_firstPart (h : i < firstPart off n) :
    (off + i) / BSIZE = off / BSIZE ∧ (off + i) % BSIZE = off % BSIZE + i := by
  have hle := mod_add_firstPart_le off n
  unfold BSIZE at hle ⊢
  omega

theorem mem_firstPart (h : i / BSIZE = off / BSIZE) :
    (off ≤ i ∧ i < off + n) ↔
      off % BSIZE ≤ i % BSIZE ∧ i % BSIZE < off % BSIZE + firstPart off n := by
  unfold firstPart
  have h₁ := Nat.div_add_mod i BSIZE
  have h₂ := Nat.div_add_mod off BSIZE
  have h₃ : i % BSIZE < BSIZE := Nat.mod_lt _ (by decide)
  rw [h] at h₁
  generalize BSIZE * (off / BSIZE) = q at h₁ h₂
  omega

theorem mem_blocksIn : bn ∈ blocksIn off n ↔ ∃ i < n, (off + i) / BSIZE = bn := by
  unfold blocksIn
  split
  · next h => simp [h]
  · next h =>
    rw [Finset.mem_Ico]
    constructor
    · intro hb
      refine ⟨max off (bn * BSIZE) - off, ?_, ?_⟩
      · unfold BSIZE at hb ⊢
        omega
      · unfold BSIZE at hb ⊢
        omega
    · rintro ⟨i, hi, rfl⟩
      unfold BSIZE
      omega

theorem blocksIn_step (off : Nat) (hn : n ≠ 0) :
    blocksIn off n =
        insert (off / BSIZE) (blocksIn (off + firstPart off n) (n - firstPart off n)) ∧
      off / BSIZE ∉ blocksIn (off + firstPart off n) (n - firstPart off n) := by
  have hpos := firstPart_pos off hn
  have hmod : off % BSIZE < BSIZE := Nat.mod_lt _ (by decide)
  -- a byte after the first part is in a later block
  have hrest : ∀ i < n - firstPart off n,
      off / BSIZE < (off + firstPart off n + i) / BSIZE := by
    intro i hi
    unfold firstPart at hi ⊢
    have hm : min n (BSIZE - off % BSIZE) = BSIZE - off % BSIZE := by omega
    rw [hm]
    unfold BSIZE at hmod ⊢
    omega
  constructor
  · ext bn
    rw [Finset.mem_insert, mem_blocksIn, mem_blocksIn]
    constructor
    · rintro ⟨i, hi, rfl⟩
      by_cases hp : i < firstPart off n
      · exact Or.inl (div_of_lt_firstPart hp).1
      · refine Or.inr ⟨i - firstPart off n, by omega, ?_⟩
        congr 1
        omega
    · rintro (rfl | ⟨i, hi, rfl⟩)
      · exact ⟨0, by omega, rfl⟩
      · refine ⟨firstPart off n + i, by omega, ?_⟩
        congr 1
        omega
  · intro hmem
    obtain ⟨i, hi, heq⟩ := mem_blocksIn.mp hmem
    have := hrest i hi
    omega

theorem blocksIn_firstPart (off : Nat) (hn : n ≠ 0) :
    blocksIn off (firstPart off n) = {off / BSIZE} := by
  ext bn
  rw [mem_blocksIn, Finset.mem_singleton]
  constructor
  · rintro ⟨i, hi, rfl⟩
    exact (div_of_lt_firstPart hi).1
  · rintro rfl
    exact ⟨0, firstPart_pos off hn, rfl⟩

theorem firstPart_firstPart : firstPart off (firstPart off n) = firstPart off n := by
  unfold firstPart
  omega

end Ranges

def Disk.need (s : Disk) (d : Dinode) (off n : Nat) : Nat :=
  ((blocksIn off n).filter fun bn => s.blockOf d bn = 0).card +
    if (∃ bn ∈ blocksIn off n, NDIRECT ≤ bn) ∧ d.addrs (Fin.last NDIRECT) = 0 then 1 else 0

theorem Disk.cost_le_need {s : Disk} {d : Dinode} {off n : Nat} (hn : n ≠ 0) :
    s.cost d (off / BSIZE) ≤ s.need d off n := by
  have hmem : off / BSIZE ∈ blocksIn off n := mem_blocksIn.mpr ⟨0, by omega, rfl⟩
  apply Nat.add_le_add
  · split
    · next h0 =>
      apply Finset.card_pos.mpr
      exact ⟨off / BSIZE, Finset.mem_filter.mpr ⟨hmem, h0⟩⟩
    · exact Nat.zero_le _
  · split
    · next h => rw [if_pos ⟨⟨off / BSIZE, hmem, h.1⟩, h.2⟩]
    · exact Nat.zero_le _

theorem Disk.need_eq_zero {s : Disk} {d : Dinode} {off n : Nat}
    (h : ∀ bn ∈ blocksIn off n, s.blockOf d bn ≠ 0) : s.need d off n = 0 := by
  have hfilter : (blocksIn off n).filter (fun bn => s.blockOf d bn = 0) = ∅ :=
    Finset.filter_eq_empty_iff.mpr fun bn hbn => h bn hbn
  have hind : ¬ ((∃ bn ∈ blocksIn off n, NDIRECT ≤ bn) ∧ d.addrs (Fin.last NDIRECT) = 0) := by
    rintro ⟨⟨bn, hbn, hge⟩, hzero⟩
    apply h bn hbn
    unfold blockOf BlockSlot.ofIndex
    rw [if_neg (by omega)]
    split
    · simp [slot, indirect, hzero, Block.zero]
    · rfl
  unfold need
  rw [hfilter, if_neg hind]
  rfl

/-- The copy in the cache is of an inode in use, and all blocks of the file are there. -/
structure Fs.Readable (s : Fs) (ip : InodePtr) : Prop where
  alloc : s.Alloc (s.eff ip)
  type : (s.icache ip).d.type ≠ .free
  full : s.NoHole (s.icache ip).d

namespace FsM

open Effect Fs

variable {s t u : Fs} {ip : InodePtr}

theorem Mapped.need {off n b : Nat} (h : Mapped ip (off / BSIZE) s b t) (hn : n ≠ 0) :
    s.need (s.icache ip).d off n = s.cost (s.icache ip).d (off / BSIZE) +
      t.need (t.icache ip).d (off + firstPart off n) (n - firstPart off n) := by
  obtain ⟨hblocks, hnot⟩ := blocksIn_step off hn
  unfold Disk.need Disk.cost
  rw [hblocks, Finset.filter_insert]
  have hrest : ((blocksIn (off + firstPart off n) (n - firstPart off n)).filter fun bn =>
        t.blockOf (t.icache ip).d bn = 0) =
      (blocksIn (off + firstPart off n) (n - firstPart off n)).filter fun bn =>
        s.blockOf (s.icache ip).d bn = 0 := by
    apply Finset.filter_congr
    intro bn hbn
    rw [h.others bn fun heq => hnot (heq ▸ hbn)]
  rw [hrest]
  simp only [h.last, Finset.mem_insert, exists_eq_or_imp]
  have hcard : (if s.blockOf (s.icache ip).d (off / BSIZE) = 0 then
        insert (off / BSIZE) ((blocksIn (off + firstPart off n) (n - firstPart off n)).filter
          fun bn => s.blockOf (s.icache ip).d bn = 0)
      else (blocksIn (off + firstPart off n) (n - firstPart off n)).filter
        fun bn => s.blockOf (s.icache ip).d bn = 0).card =
      (if s.blockOf (s.icache ip).d (off / BSIZE) = 0 then 1 else 0) +
        ((blocksIn (off + firstPart off n) (n - firstPart off n)).filter
          fun bn => s.blockOf (s.icache ip).d bn = 0).card := by
    split
    · rw [Finset.card_insert_of_notMem, Nat.add_comm]
      exact fun hmem => hnot (Finset.mem_of_mem_filter _ hmem)
    · rw [Nat.zero_add]
  rw [hcard]
  by_cases hlast : (s.icache ip).d.addrs (Fin.last NDIRECT) = 0
  · by_cases hbn : NDIRECT ≤ off / BSIZE
    · simp [hlast, hbn, Nat.not_lt.mpr hbn]
      omega
    · have hlt : off / BSIZE < NDIRECT := Nat.lt_of_not_le hbn
      simp only [hlast, hbn, hlt, and_true, false_or, if_false]
      omega
  · simp [hlast]

theorem Mapped.need_first {off n b : Nat} (h : Mapped ip (off / BSIZE) s b t) (hn : n ≠ 0) :
    s.need (s.icache ip).d off (firstPart off n) = s.cost (s.icache ip).d (off / BSIZE) := by
  have hneed := h.need (n := firstPart off n) (Nat.pos_iff_ne_zero.mp (firstPart_pos off hn))
  have hzero : t.need (t.icache ip).d (off + firstPart off n) 0 = 0 := by
    simp [Disk.need, blocksIn]
  rwa [firstPart_firstPart, Nat.sub_self, hzero, Nat.add_zero] at hneed

/-! ## `readi` -/

theorem range_split {m n : Nat} (h : m ≤ n) :
    List.range n = List.range m ++ (List.range (n - m)).map (m + ·) := by
  rw [← List.range_add, Nat.add_sub_cancel' h]

theorem readLoop_ends {turns off n : Nat} (ha : s.Alloc (s.eff ip))
    (htype : (s.icache ip).d.type ≠ .free) (hturns : n ≤ turns)
    (hfull : ∀ bn ∈ blocksIn off n, s.blockOf (s.icache ip).d bn ≠ 0) :
    Ends (readLoop ip turns off n) s
      (fun x t ev => t = s ∧ ev = [] ∧
        x = (List.range n).map fun i => s.fileByte (s.icache ip).d (off + i))
      (fun _ => False) := by
  induction turns generalizing off n with
  | zero =>
    obtain rfl : n = 0 := by omega
    exact ends_pure ⟨rfl, rfl, rfl⟩
  | succ turns ih =>
    unfold readLoop
    by_cases hn : n = 0
    · rw [if_pos hn]
      subst hn
      exact ends_pure ⟨rfl, rfl, rfl⟩
    · rw [if_neg hn]
      obtain ⟨hblocks, -⟩ := blocksIn_step off hn
      have hpos := firstPart_pos off hn
      have hbn : s.blockOf (s.icache ip).d (off / BSIZE) ≠ 0 := by
        apply hfull
        rw [hblocks]
        exact Finset.mem_insert_self ..
      refine ends_bind ((bmap_ends ha htype (Disk.lt_of_blockOf_ne_zero hbn)).mono ?_ ?_)
      · rintro b t ev ⟨hmap, hlog⟩
        obtain rfl := hlog.nil hbn
        obtain rfl := hmap.same hbn
        refine ends_bind (ends_get (ends_bind ((ih ?_ ?_).mono ?_ fun _ hf => hf)))
        · change n - firstPart off n ≤ turns
          omega
        · intro bn hmem
          apply hfull
          rw [hblocks]
          exact Finset.mem_insert_of_mem hmem
        · rintro x u ev ⟨rfl, rfl, rfl⟩
          refine ends_pure ⟨rfl, rfl, ?_⟩
          rw [range_split (firstPart_le off n), List.map_append, List.map_map]
          congr 1
          · apply List.map_congr_left
            intro i hi
            obtain ⟨hdiv, hmod⟩ := div_of_lt_firstPart (List.mem_range.mp hi)
            unfold Disk.fileByte
            rw [hdiv, hmod, if_neg hbn, hmap.eq]
          · apply List.map_congr_left
            intro i _
            rw [Function.comp_apply, Nat.add_assoc]
            rfl
      · rintro f ⟨-, hcost⟩
        have hc : s.cost (s.icache ip).d (off / BSIZE) = 0 := by
          unfold Disk.cost
          rw [if_neg hbn, if_neg]
          rintro ⟨hge, hz⟩
          apply hbn
          unfold Disk.blockOf BlockSlot.ofIndex
          rw [if_neg (Nat.not_lt.mpr hge)]
          split
          · simp [Disk.slot, Disk.indirect, hz, Block.zero]
          · rfl
        omega

/-- What a range that passes the tests of `readi` and `writei` is. -/
theorem in_range {off n size : Word} (h : ¬ (off > size ∨ off + n < off)) :
    off.toNat ≤ size.toNat ∧ (off + n).toNat = off.toNat + n.toNat := by
  rw [not_or, gt_iff_lt, BitVec.lt_def, BitVec.lt_def, BitVec.toNat_add] at h
  rw [BitVec.toNat_add]
  have := off.isLt
  have := n.isLt
  omega

theorem readi_ends_within (off n : Word) (ha : s.Alloc (s.eff ip))
    (htype : (s.icache ip).d.type ≠ .free)
    (hfull : ∀ bn ∈ blocksIn off.toNat (min n.toNat ((s.icache ip).d.size.toNat - off.toNat)),
      s.blockOf (s.icache ip).d bn ≠ 0) :
    Ends (readi ip off n) s
      (fun r t ev => t = s ∧ ev = [] ∧ r =
        if off > (s.icache ip).d.size ∨ off + n < off then none
        else some ((List.range (min n.toNat ((s.icache ip).d.size.toNat - off.toNat))).map
          fun i => s.fileByte (s.icache ip).d (off.toNat + i)))
      (fun _ => False) := by
  refine ends_bind (ends_bind (ends_get (ends_pure ?_)))
  split
  · next h => exact ends_pure ⟨rfl, rfl, rfl⟩
  · next h =>
    obtain ⟨hoff, hsum⟩ := in_range h
    have hlen : (if off + n > (s.icache ip).d.size then (s.icache ip).d.size - off
        else n).toNat = min n.toNat ((s.icache ip).d.size.toNat - off.toNat) := by
      split
      · next hgt =>
        have hgt' : (s.icache ip).d.size.toNat < (off + n).toNat := BitVec.lt_def.mp hgt
        rw [BitVec.toNat_sub_of_le (BitVec.le_def.mpr hoff)]
        omega
      · next hle =>
        have hle' : ¬ (s.icache ip).d.size.toNat < (off + n).toNat :=
          fun hlt => hle (BitVec.lt_def.mpr hlt)
        omega
    refine ends_bind ((readLoop_ends ha htype (Nat.le_refl _) ?_).mono ?_ fun _ hf => hf)
    · rwa [hlen]
    · rintro x t ev ⟨rfl, rfl, rfl⟩
      refine ends_pure ⟨rfl, rfl, ?_⟩
      rw [hlen]

/-- `readi` of a file without holes. -/
theorem readi_ends (off n : Word) (hr : s.Readable ip) :
    Ends (readi ip off n) s
      (fun r t ev => t = s ∧ ev = [] ∧ r =
        if off > (s.icache ip).d.size ∨ off + n < off then none
        else some ((List.range (min n.toNat ((s.icache ip).d.size.toNat - off.toNat))).map
          fun i => s.fileByte (s.icache ip).d (off.toNat + i)))
      (fun _ => False) := by
  apply readi_ends_within off n hr.alloc hr.type
  intro bn hbn
  obtain ⟨i, hi, rfl⟩ := mem_blocksIn.mp hbn
  apply hr.full
  have hdiv := Nat.div_mul_le_self (off.toNat + i) BSIZE
  omega

/-! ## `writei` -/

structure Wrote (ip : InodePtr) (src : Nat → Byte) (off n : Nat) (s t : Fs) : Prop where
  rest : t = { s with bit := t.bit, block := t.block, icache := t.icache }
  icache : t.icache = Function.update s.icache ip
    { s.icache ip with d := { (s.icache ip).d with addrs := (t.icache ip).d.addrs } }
  alloc : t.Alloc (t.eff ip)
  keeps : ∀ m sl, (s.eff ip m).type ≠ .free → s.slot (s.eff ip m) sl ≠ 0 →
    t.slot (t.eff ip m) sl = s.slot (s.eff ip m) sl
  bytes : ∀ m, (s.eff ip m).type ≠ .free → ∀ i, t.fileByte (t.eff ip m) i =
    if m = (s.icache ip).inum ∧ off ≤ i ∧ i < off + n then src (i - off)
    else s.fileByte (s.eff ip m) i
  full : ∀ bn ∈ blocksIn off n, t.blockOf (t.icache ip).d bn ≠ 0
  spare : t.spare + s.need (s.icache ip).d off n = s.spare
  same : (∀ bn ∈ blocksIn off n, s.blockOf (s.icache ip).d bn ≠ 0) →
    t.icache = s.icache ∧ t.bit = s.bit

variable {src : Nat → Byte}

theorem Wrote.self {off n : Nat} (h : Wrote ip src off n s t) :
    t.icache ip =
      { s.icache ip with d := { (s.icache ip).d with addrs := (t.icache ip).d.addrs } } := by
  have := congrFun h.icache ip
  rwa [Function.update_self] at this

theorem Mapped.exists_slot {bn b : Nat} (h : Mapped ip bn s b t)
    (htype : (s.icache ip).d.type ≠ .free) :
    (t.eff ip (t.icache ip).inum).type ≠ .free ∧ ∃ sl, BlockSlot.ofIndex bn = some sl ∧
      sl ≠ .addr (Fin.last NDIRECT) ∧ b = t.slot (t.eff ip (t.icache ip).inum) sl := by
  obtain ⟨sl, hsl, hb⟩ := Disk.exists_slot (h.eq ▸ h.ne : t.blockOf (t.icache ip).d _ ≠ 0)
  rw [eff_self]
  exact ⟨by rwa [h.grew.self], sl, hsl, fun heq => Disk.ofIndex_ne_last (heq ▸ hsl),
    h.eq.trans hb⟩

theorem Mapped.write_blockOf {bn b : Nat} (h : Mapped ip bn s b t)
    (htype : (s.icache ip).d.type ≠ .free) (x : Block) (bn' : Nat) :
    ({ t with block := Function.update t.block b x } : Fs).blockOf (t.icache ip).d bn' =
      t.blockOf (t.icache ip).d bn' := by
  obtain ⟨hn', sl, hsl, hne, hslot⟩ := h.exists_slot htype
  have hkeep := Disk.write_blockOf (x := x) h.grew.alloc hn' hne (hslot ▸ h.ne) hn' bn'
  rwa [← hslot, eff_self] at hkeep

theorem Mapped.write {off n b : Nat} (h : Mapped ip (off / BSIZE) s b t) (src : Nat → Byte)
    (hn : n ≠ 0) (htype : (s.icache ip).d.type ≠ .free) :
    Wrote ip src off (firstPart off n) s
      { t with
        block := Function.update t.block b
          ((t.block b).move (off % BSIZE) (firstPart off n) src) } := by
  obtain ⟨hn', sl, hsl, hne, hslot⟩ := h.exists_slot htype
  have h0 : t.slot (t.eff ip (t.icache ip).inum) sl ≠ 0 := hslot ▸ h.ne
  have hblocks := blocksIn_firstPart off hn
  rw [hslot]
  refine ⟨?_, h.grew.icache, Disk.write_alloc h.grew.alloc hn' hne h0, ?_, ?_, ?_, ?_, ?_⟩
  · exact congrArg (fun u : Fs => ({ u with
      block := Function.update t.block (t.slot (t.eff ip (t.icache ip).inum) sl)
        ((t.block (t.slot (t.eff ip (t.icache ip).inum) sl)).move (off % BSIZE) (firstPart off n)
          src) } : Fs)) h.grew.rest
  · intro m sl' hm hz
    have hm' : (t.eff ip m).type ≠ .free := by rwa [h.grew.type]
    rw [← h.grew.keeps m sl' hm hz]
    exact Disk.write_slot h.grew.alloc hn' hne h0 hm' sl'
  · intro m hm i
    have hm' : (t.eff ip m).type ≠ .free := by rwa [h.grew.type]
    rw [← h.grew.bytes m hm]
    refine (Disk.write_fileByte h.grew.alloc hn' hsl h0 hm' i).trans ?_
    rw [h.grew.inum, Block.byte_move (Nat.mod_lt _ (by decide))]
    by_cases hk : m = (s.icache ip).inum ∧ i / BSIZE = off / BSIZE
    · rw [if_pos hk]
      have hmem := mem_firstPart (n := firstPart off n) hk.2
      rw [firstPart_firstPart] at hmem
      by_cases hin : off % BSIZE ≤ i % BSIZE ∧ i % BSIZE < off % BSIZE + firstPart off n
      · rw [if_pos hin, if_pos ⟨hk.1, hmem.mpr hin⟩]
        congr 1
        have h₁ := Nat.div_add_mod i BSIZE
        have h₂ := Nat.div_add_mod off BSIZE
        rw [hk.2] at h₁
        omega
      · rw [if_neg hin, if_neg fun hh => hin (hmem.mp hh.2)]
        have hi : t.blockOf (t.eff ip m) (i / BSIZE) = b := by
          rw [hk.1, hk.2, ← h.grew.inum, eff_self]
          exact h.eq.symm
        unfold Disk.fileByte
        rw [hi, if_neg h.ne, hslot, h.grew.inum]
    · rw [if_neg hk, if_neg]
      rintro ⟨hm, hlo, hhi⟩
      apply hk
      refine ⟨hm, ?_⟩
      have hlt : i - off < firstPart off n := by omega
      have hdiv := (div_of_lt_firstPart hlt).1
      rwa [Nat.add_sub_cancel' hlo] at hdiv
  · intro bn hbn
    rw [hblocks, Finset.mem_singleton] at hbn
    subst hbn
    rw [← hslot, h.write_blockOf htype]
    exact h.eq ▸ h.ne
  · rw [h.need_first hn]
    exact h.spare
  · intro hfull
    have := h.same (hfull _ (by rw [hblocks]; exact Finset.mem_singleton_self _))
    subst this
    exact ⟨rfl, rfl⟩

theorem Wrote.inum {off n : Nat} (h : Wrote ip src off n s t) :
    (t.icache ip).inum = (s.icache ip).inum := by
  rw [h.self]

theorem Wrote.dinode {off n : Nat} (h : Wrote ip src off n s t) :
    t.dinode = s.dinode := by
  rw [h.rest]
  rfl

theorem Wrote.type {off n : Nat} (h : Wrote ip src off n s t) (m : Nat) :
    (t.eff ip m).type = (s.eff ip m).type := by
  by_cases hm : m = (s.icache ip).inum
  · have hm' : m = (t.icache ip).inum := by rw [h.inum, hm]
    rw [hm, eff_self, ← hm, hm', eff_self, h.self]
  · have hm' : m ≠ (t.icache ip).inum := by rwa [h.inum]
    rw [eff_of_ne hm, eff_of_ne hm', h.dinode]

theorem Wrote.zero {off : Nat} (h : s.Alloc (s.eff ip)) :
    Wrote ip src off 0 s s := by
  refine ⟨rfl, (Function.update_eq_self ip s.icache).symm, h, fun _ _ _ _ => rfl, ?_, ?_, ?_, ?_⟩
  · intro m _ i
    rw [if_neg]
    omega
  · intro bn hbn
    simp [blocksIn] at hbn
  · simp [Disk.need, blocksIn]
  · exact fun _ => ⟨rfl, rfl⟩

theorem Wrote.append {off m n : Nat} (hm : m ≤ n)
    (hneed : s.need (s.icache ip).d off n =
      s.need (s.icache ip).d off m + t.need (t.icache ip).d (off + m) (n - m))
    (hblocks : blocksIn off n = blocksIn off m ∪ blocksIn (off + m) (n - m))
    (htype : (s.icache ip).d.type ≠ .free)
    (h : Wrote ip src off m s t) (h' : Wrote ip (fun i => src (m + i)) (off + m) (n - m) t u) :
    Wrote ip src off n s u := by
  have hself : (s.eff ip (s.icache ip).inum).type ≠ .free := by rwa [eff_self]
  have hkept : ∀ bn, s.blockOf (s.icache ip).d bn ≠ 0 →
      t.blockOf (t.icache ip).d bn = s.blockOf (s.icache ip).d bn := by
    intro bn h0
    obtain ⟨sl, hsl, heq⟩ := Disk.exists_slot h0
    have hk := h.keeps (s.icache ip).inum sl hself (by rw [eff_self]; exact heq ▸ h0)
    rw [eff_self, ← h.inum, eff_self] at hk
    rwa [Disk.blockOf_of_ofIndex hsl, Disk.blockOf_of_ofIndex hsl]
  refine ⟨?_, ?_, h'.alloc, ?_, ?_, ?_, ?_, ?_⟩
  · rw [h'.rest, h.rest]
  · rw [h'.icache, h.icache]
    simp
  · intro k sl hk h0
    have hk' : (t.eff ip k).type ≠ .free := by rwa [h.type]
    have h0' := h.keeps k sl hk h0
    rw [h'.keeps k sl hk' (h0' ▸ h0), h0']
  · intro k hk i
    have hk' : (t.eff ip k).type ≠ .free := by rwa [h.type]
    rw [h'.bytes k hk', h.bytes k hk, h.inum]
    by_cases hki : k = (s.icache ip).inum
    · simp only [hki, true_and]
      by_cases h₁ : off + m ≤ i ∧ i < off + m + (n - m)
      · rw [if_pos h₁, if_pos (by omega)]
        congr 1
        omega
      · rw [if_neg h₁]
        by_cases h₂ : off ≤ i ∧ i < off + m
        · rw [if_pos h₂, if_pos (by omega)]
        · rw [if_neg h₂, if_neg (by omega)]
    · simp [hki]
  · intro bn hbn
    rw [hblocks, Finset.mem_union] at hbn
    rcases hbn with hbn | hbn
    · -- a block written first stays
      have h0 := h.full bn hbn
      obtain ⟨sl, hsl, heq⟩ := Disk.exists_slot h0
      have hself' : (t.eff ip (t.icache ip).inum).type ≠ .free := by
        rwa [h.type, h.inum]
      have hk := h'.keeps (t.icache ip).inum sl hself' (by rw [eff_self]; exact heq ▸ h0)
      rw [eff_self, ← h'.inum, eff_self] at hk
      rwa [Disk.blockOf_of_ofIndex hsl, hk, ← heq]
    · exact h'.full bn hbn
  · rw [hneed, ← h.spare, ← h'.spare]
    omega
  · intro hfull
    obtain ⟨hi, hb⟩ := h.same fun bn hbn => hfull bn
      (by rw [hblocks]; exact Finset.mem_union_left _ hbn)
    obtain ⟨hi', hb'⟩ := h'.same fun bn hbn => by
      have h0 := hfull bn (by rw [hblocks]; exact Finset.mem_union_right _ hbn)
      rwa [hkept bn h0]
    exact ⟨hi'.trans hi, hb'.trans hb⟩

/-- What a write logs: the blocks it writes to, the free map if it allocates, and the
indirect block if it fills in an entry of it. -/
def WriteLogs (ip : InodePtr) (off n : Nat) (s t : Fs) : List Event → Prop :=
  Logs fun x => (∃ bn ∈ blocksIn off n, x = t.blockOf (t.icache ip).d bn) ∨
    (s.need (s.icache ip).d off n ≠ 0 ∧ x ∈ s.sb.bitmap) ∨
    ((∃ bn ∈ blocksIn off n, NDIRECT ≤ bn ∧ s.blockOf (s.icache ip).d bn = 0) ∧
      x = (t.icache ip).d.addrs (Fin.last NDIRECT))

theorem Wrote.slot_self {off n : Nat} (h : Wrote ip src off n s t)
    (htype : (s.icache ip).d.type ≠ .free) (sl : BlockSlot)
    (h0 : s.slot (s.icache ip).d sl ≠ 0) :
    t.slot (t.icache ip).d sl = s.slot (s.icache ip).d sl := by
  have hinum : (t.icache ip).inum = (s.icache ip).inum := by rw [h.self]
  have hk := h.keeps (s.icache ip).inum sl
  rw [eff_self] at hk
  rw [← hk htype h0, ← hinum, eff_self]

/-- The first block of a range is written, and then the rest. -/
theorem WriteLogs.step {off n b : Nat} {t' : Fs} {ev ev' : List Event}
    (hn : n ≠ 0) (htype : (s.icache ip).d.type ≠ .free)
    (hmap : Mapped ip (off / BSIZE) s b t) (hlog : MapLogs ip (off / BSIZE) s b t ev)
    (hsb : t'.sb = s.sb) (hicache : t'.icache = t.icache)
    (hblock : ∀ bn, t'.blockOf (t'.icache ip).d bn = t.blockOf (t.icache ip).d bn)
    (hneed : s.need (s.icache ip).d off n = 0 →
      t'.need (t'.icache ip).d (off + firstPart off n) (n - firstPart off n) = 0)
    (hrest : Wrote ip src (off + firstPart off n) (n - firstPart off n) t' u)
    (hlog' : WriteLogs ip (off + firstPart off n) (n - firstPart off n) t' u ev') :
    WriteLogs ip off n s u (ev ++ ([] ++ ([.logWrite b] ++ ev'))) := by
  obtain ⟨hblocks, hnot⟩ := blocksIn_step off hn
  have htype' : (t'.icache ip).d.type ≠ .free := by
    rwa [hicache, hmap.grew.self]
  have hb : u.blockOf (u.icache ip).d (off / BSIZE) = b := by
    have h0 : t'.blockOf (t'.icache ip).d (off / BSIZE) ≠ 0 := by
      rw [hblock, ← hmap.eq]
      exact hmap.ne
    obtain ⟨sl, hsl, heq⟩ := Disk.exists_slot h0
    rw [Disk.blockOf_of_ofIndex hsl, hrest.slot_self htype' sl (heq ▸ h0), ← heq, hblock,
      hmap.eq]
  have hfirst : off / BSIZE ∈ blocksIn off n := by
    rw [hblocks]
    exact Finset.mem_insert_self ..
  have hcost : s.blockOf (s.icache ip).d (off / BSIZE) = 0 →
      s.need (s.icache ip).d off n ≠ 0 := by
    intro h0 hz
    have hle : s.cost (s.icache ip).d (off / BSIZE) ≤ s.need (s.icache ip).d off n :=
      Disk.cost_le_need hn
    unfold Disk.cost at hle
    rw [if_pos h0] at hle
    omega
  refine Logs.append (hlog.mono ?_) (Logs.nil.append (Logs.append (Logs.one ?_) (hlog'.mono ?_)))
  · rintro x ⟨h0, rfl | hx | ⟨hge, rfl⟩⟩
    · exact Or.inl ⟨_, hfirst, hb.symm⟩
    · exact Or.inr (Or.inl ⟨hcost h0, hx⟩)
    · refine Or.inr (Or.inr ⟨⟨_, hfirst, hge, h0⟩, ?_⟩)
      have hne : (t'.icache ip).d.addrs (Fin.last NDIRECT) ≠ 0 := by
        rw [hicache, ne_eq, hmap.last]
        omega
      have := hrest.slot_self htype' (.addr (Fin.last NDIRECT)) hne
      change (u.icache ip).d.addrs _ = (t'.icache ip).d.addrs _ at this
      rw [this, hicache]
  · exact Or.inl ⟨_, hfirst, hb.symm⟩
  · have hmem : ∀ bn ∈ blocksIn (off + firstPart off n) (n - firstPart off n),
        bn ∈ blocksIn off n := by
      intro bn hbn
      rw [hblocks]
      exact Finset.mem_insert_of_mem hbn
    rintro x (⟨bn, hbn, rfl⟩ | ⟨hz, hx⟩ | ⟨⟨bn, hbn, hge, h0⟩, rfl⟩)
    · exact Or.inl ⟨bn, hmem bn hbn, rfl⟩
    · rw [hsb] at hx
      exact Or.inr (Or.inl ⟨fun h => hz (hneed h), hx⟩)
    · rw [hblock, hmap.others bn fun heq => hnot (heq ▸ hbn)] at h0
      exact Or.inr (Or.inr ⟨⟨bn, hmem bn hbn, hge, h0⟩, rfl⟩)

theorem writeLoop_ends {turns off n : Nat} (src : Nat → Byte) (ha : s.Alloc (s.eff ip))
    (htype : (s.icache ip).d.type ≠ .free) (hturns : n ≤ turns) (hmax : off + n ≤ MAXFILE * BSIZE) :
    Ends (writeLoop ip turns src off n) s
      (fun _ t ev => Wrote ip src off n s t ∧ WriteLogs ip off n s t ev)
      (fun f => f = outOfBlocks ∧ s.spare < s.need (s.icache ip).d off n) := by
  induction turns generalizing s off n src with
  | zero =>
    obtain rfl : n = 0 := by omega
    exact ends_pure ⟨Wrote.zero ha, Logs.nil⟩
  | succ turns ih =>
    unfold writeLoop
    by_cases hn : n = 0
    · rw [if_pos hn]
      subst hn
      exact ends_pure ⟨Wrote.zero ha, Logs.nil⟩
    · rw [if_neg hn]
      obtain ⟨hblocks, -⟩ := blocksIn_step off hn
      have hpos := firstPart_pos off hn
      have hle := firstPart_le off n
      have hbn : off / BSIZE < MAXFILE := by
        rw [Nat.div_lt_iff_lt_mul (by decide)]
        omega
      refine ends_bind ((bmap_ends ha htype hbn).mono ?_ ?_)
      · rintro b t ev ⟨hmap, hlog⟩
        refine ends_bind (ends_modify (ends_bind (ends_emit ?_)))
        have hwrite := hmap.write src hn htype
        have hrest : ({ t with
            block := Function.update t.block b
              ((t.block b).move (off % BSIZE) (firstPart off n) src) } : Fs).need
              (t.icache ip).d (off + firstPart off n) (n - firstPart off n) =
            t.need (t.icache ip).d (off + firstPart off n) (n - firstPart off n) := by
          unfold Disk.need
          simp only [hmap.write_blockOf htype]
        have hneed := hmap.need hn
        rw [← hmap.need_first hn, ← hrest] at hneed
        have htype' : (t.icache ip).d.type ≠ .free := by
          rwa [hmap.grew.self]
        change Ends (writeLoop ip turns (fun i => src (firstPart off n + i))
          (off + firstPart off n) (n - firstPart off n)) _ _ _
        refine (ih _ hwrite.alloc htype' ?_ ?_).mono ?_ ?_
        · omega
        · omega
        · rintro _ u ev' ⟨hrest', hlog'⟩
          refine ⟨Wrote.append hle hneed ?_ htype hwrite hrest', ?_⟩
          · rw [blocksIn_firstPart off hn, hblocks, Finset.insert_eq]
          · refine WriteLogs.step hn htype hmap hlog ?_ ?_ ?_ ?_ hrest' hlog'
            · rw [hmap.grew.rest]
            · rfl
            · exact fun bn => hmap.write_blockOf htype _ bn
            · intro hz
              rw [hz] at hneed
              exact (Nat.add_eq_zero_iff.mp hneed.symm).2
        · rintro f ⟨hf, hs⟩
          refine ⟨hf, ?_⟩
          rw [hneed, ← hwrite.spare, Nat.add_comm]
          exact Nat.add_lt_add_left hs _
      · rintro f ⟨hf, hcost⟩
        exact ⟨hf, Nat.lt_of_lt_of_le hcost (Disk.cost_le_need hn)⟩

end FsM

end Xv6
