import Xv6.Fs.ByteArray
import Xv6.Mkfs.Model

/-!
# An unfinished image as a disk

While `mkfs` runs, the blocks below `freeblock` are those in use. With these as the bits of
the free map the image is a disk of the kernel (`view`). `winode` on the image is
`Disk.setDinode` on that disk, and `freeblock++` is what `balloc` of the kernel does.
-/

open Function (update update_of_ne update_self)

namespace Xv6

/-! ## Inodes in a block -/

theorem FileType.ofShort_short (t : FileType) : ofShort t.short = t := by
  cases t <;> rfl

theorem Dinode.ofWords_word {d : Dinode} (h : ∀ i, d.addrs i < 2 ^ 32) : ofWords d.word = d := by
  have hlow (x y : BitVec 16) : (x ++ y).extractLsb' 0 16 = y := by
    ext i hi
    simp
    grind
  have hhigh (x y : BitVec 16) : (x ++ y).extractLsb' 16 16 = x := by
    ext i hi
    simp
    grind
  have haddrs : (fun i : Fin (NDIRECT + 1) => (d.word (i + 5)).toNat) = d.addrs := by
    funext i
    have hi : Fin.ofNat (NDIRECT + 1) i = i := Fin.ofNat_val_eq_self i
    unfold word
    rw [BitVec.toNat_ofNat, hi, Nat.mod_eq_of_lt (h i)]
  unfold ofWords
  rw [haddrs]
  simp only [word, hlow, hhigh, FileType.ofShort_short]

namespace Block

variable {x : Block} {i j : Fin IPB} {d : Dinode}

theorem word_index {k : Nat} (hk : k < DINODEWORDS) :
    (Fin.ofNat (BSIZE / 4) (i * DINODEWORDS + k)).val / DINODEWORDS = i ∧
      (Fin.ofNat (BSIZE / 4) (i * DINODEWORDS + k)).val % DINODEWORDS = k := by
  have hi : i.val < 8 := i.isLt
  have hW : DINODEWORDS = 16 := rfl
  have hB : BSIZE / 4 = 128 := rfl
  rw [hW] at hk ⊢
  have hval : (Fin.ofNat (BSIZE / 4) (i * 16 + k)).val = i * 16 + k := by
    rw [Fin.val_ofNat]
    exact Nat.mod_eq_of_lt (by omega)
  rw [hval]
  omega

theorem ofWords_congr {w w' : Nat → Word} (h : ∀ k, k < DINODEWORDS → w k = w' k) :
    Dinode.ofWords w = Dinode.ofWords w' := by
  have hW : DINODEWORDS = 16 := rfl
  rw [hW] at h
  unfold Dinode.ofWords
  rw [h 0 (by omega), h 1 (by omega), h 2 (by omega), h 3 (by omega), h 4 (by omega)]
  congr 1
  funext i
  have hi := i.isLt
  have hN : NDIRECT + 1 = 11 := rfl
  rw [h (i + 5) (by omega)]

theorem dinode_setDinode_self (h : ∀ i, d.addrs i < 2 ^ 32) : (x.setDinode i d).dinode i = d := by
  refine Eq.trans (ofWords_congr fun k hk => ?_) (Dinode.ofWords_word h)
  obtain ⟨hdiv, hmod⟩ := word_index (i := i) hk
  unfold setDinode
  rw [if_pos hdiv, hmod]

theorem dinode_setDinode_of_ne (h : j ≠ i) : (x.setDinode i d).dinode j = x.dinode j := by
  refine ofWords_congr fun k hk => ?_
  obtain ⟨hdiv, -⟩ := word_index (i := j) hk
  unfold setDinode
  rw [if_neg]
  rw [hdiv]
  exact fun heq => h (Fin.ext heq)

end Block

namespace Mkfs

def room : Nat := ninodeblocks * IPB

variable {s s' : State} {inum : Nat} {d din : Dinode}

/-- The image as a disk, with the blocks below `freeblock` in use. -/
def view (s : State) : Disk where
  sb := sb
  bit := fun b => decide (b < s.freeblock)
  iblock := fun n i => if sb.inodestart ≤ n ∧ n < sb.bmapstart then (s.sect n).dinode i else .zero
  block := fun n => if n < nmeta then .zero else s.sect n

/-- The image file has its full size, its super block is there, and the blocks that are not in
use are zeros. -/
structure Ready (s : State) : Prop where
  nsect : s.nsect = FSSIZE
  super : (s.sect 1).superblock = sb
  data : nmeta ≤ s.freeblock
  limit : s.freeblock ≤ FSSIZE
  fresh : ∀ b, s.freeblock ≤ b → s.sect b = Block.zero

theorem iblock_lt (h : inum < room) :
    sb.inodestart ≤ IBLOCK inum sb ∧ IBLOCK inum sb < sb.bmapstart := by
  have hroom : room = 208 := rfl
  have hI : IPB = 8 := rfl
  have hstart : sb.inodestart = 32 := rfl
  have hmap : sb.bmapstart = 58 := rfl
  unfold IBLOCK
  rw [hroom] at h
  rw [hI, hstart, hmap]
  omega

theorem rsect_eq (hs : Ready s) {sec : Nat} (h : sec < FSSIZE) :
    rsect s sec = some (s.sect sec) := by
  unfold rsect
  rw [hs.nsect, if_pos h]

theorem rinode_eq (inum : Nat) (hs : Ready s) (h : inum < room) :
    rinode s inum = some ((view s).dinode inum) := by
  obtain ⟨hlow, hhigh⟩ := iblock_lt h
  have hsec : IBLOCK inum sb < FSSIZE := Nat.lt_trans hhigh (by decide)
  unfold rinode
  rw [rsect_eq hs hsec]
  unfold Disk.dinode view
  dsimp only
  rw [if_pos ⟨hlow, hhigh⟩]
  rfl

theorem winode_eq (inum : Nat) (d : Dinode) (hs : Ready s) (h : inum < room)
    (hd : ∀ i, d.addrs i < 2 ^ 32) :
    ∃ s', winode s inum d = some s' ∧ Ready s' ∧ view s' = (view s).setDinode inum d ∧
      s'.freeblock = s.freeblock ∧ s'.freeinode = s.freeinode := by
  obtain ⟨hlow, hhigh⟩ := iblock_lt h
  have hsec : IBLOCK inum sb < FSSIZE := Nat.lt_trans hhigh (by decide)
  have hmeta : IBLOCK inum sb < nmeta := Nat.lt_trans hhigh (by decide)
  have hone : 1 ≠ IBLOCK inum sb := by
    have : sb.inodestart = 32 := rfl
    omega
  refine ⟨wsect s (IBLOCK inum sb)
    ((s.sect (IBLOCK inum sb)).setDinode (Fin.ofNat IPB inum) d), ?_, ?_, ?_, rfl, rfl⟩
  · unfold winode
    rw [rsect_eq hs hsec]
    rfl
  · constructor
    · show max s.nsect (IBLOCK inum sb + 1) = FSSIZE
      rw [hs.nsect]
      omega
    · show (update s.sect _ _ 1).superblock = sb
      rw [update_of_ne hone, hs.super]
    · exact hs.data
    · exact hs.limit
    · intro b hb
      have hdata := hs.data
      have hb' : s.freeblock ≤ b := hb
      show update s.sect _ _ b = Block.zero
      rw [update_of_ne (by omega)]
      exact hs.fresh b hb'
  · unfold view Disk.setDinode wsect
    simp only [Disk.mk.injEq, true_and]
    constructor
    · funext n i
      by_cases hn : n = IBLOCK inum sb
      · subst hn
        rw [update_self, update_self, if_pos ⟨hlow, hhigh⟩]
        by_cases hi : i = Fin.ofNat IPB inum
        · subst hi
          rw [update_self, Block.dinode_setDinode_self hd]
        · rw [update_of_ne hi, Block.dinode_setDinode_of_ne hi, if_pos ⟨hlow, hhigh⟩]
      · rw [update_of_ne hn, update_of_ne hn]
    · funext n
      by_cases hn : n < nmeta
      · rw [if_pos hn, if_pos hn]
      · rw [if_neg hn, if_neg hn, update_of_ne (by omega)]

/-! ## The kernel on the unfinished image -/

def kern (s : State) (inum : Nat) (din : Dinode) : Fs :=
  { Fs.fresh .file with
    toDisk := view s
    icache := update (Fs.fresh .file).icache 0
      { dev := ROOTDEV, inum := inum, ref := 1, busy := true, valid := true, d := din } }

theorem kern_icache : (kern s inum din).icache 0 =
    { dev := ROOTDEV, inum := inum, ref := 1, busy := true, valid := true, d := din } := by
  simp [kern]

@[simp] theorem kern_d : ((kern s inum din).icache 0).d = din := by rw [kern_icache]

@[simp] theorem kern_inum : ((kern s inum din).icache 0).inum = inum := by rw [kern_icache]

theorem find_freeblock :
    (List.range (kern s inum din).sb.size).find? (fun b => !(kern s inum din).bit b) =
      if s.freeblock < FSSIZE then some s.freeblock else none := by
  change (List.range FSSIZE).find? (fun b => !decide (b < s.freeblock)) = _
  split
  · next h =>
    rw [List.find?_range_eq_some]
    refine ⟨by simp, List.mem_range.mpr h, fun j hj => by simpa using hj⟩
  · next h =>
    rw [List.find?_range_eq_none]
    intro b hb
    simp only [Bool.not_not, decide_eq_true_eq]
    omega

theorem view_next (hs : Ready s) :
    view { s with freeblock := s.freeblock + 1 } =
      { view s with
        bit := update (view s).bit s.freeblock true
        block := update (view s).block s.freeblock Block.zero } := by
  have hdata := hs.data
  unfold view
  simp only [Disk.mk.injEq, true_and]
  constructor
  · funext b
    by_cases hb : b = s.freeblock
    · rw [hb, update_self]
      simp
    · rw [update_of_ne hb]
      apply decide_eq_decide.mpr
      omega
  · funext b
    by_cases hb : b = s.freeblock
    · rw [hb, update_self, if_neg (by omega), hs.fresh _ (Nat.le_refl _)]
    · rw [update_of_ne hb]

open Effect FsM in
theorem balloc_kern (hs : Ready s) (h : s.freeblock < FSSIZE) :
    Gives FsM.balloc (kern s inum din) s.freeblock
      (kern { s with freeblock := s.freeblock + 1 } inum din) := by
  have hfind := @find_freeblock s inum din
  rw [if_pos h] at hfind
  refine ⟨[.logWrite (BBLOCK s.freeblock sb), .logWrite s.freeblock], ?_⟩
  have hnext : kern { s with freeblock := s.freeblock + 1 } inum din =
      { kern s inum din with
        bit := update (view s).bit s.freeblock true
        block := update (view s).block s.freeblock Block.zero } := by
    unfold kern
    rw [view_next hs]
  unfold FsM.balloc
  simp only [Bind.bind, Effect.bind, Effect.get]
  rw [hfind, hnext]
  rfl

open Effect FsM in
theorem balloc_full (h : ¬ s.freeblock < FSSIZE) : Fails FsM.balloc (kern s inum din) := by
  have hfind := @find_freeblock s inum din
  rw [if_neg h] at hfind
  refine ⟨.panic "balloc: out of blocks", ?_⟩
  unfold FsM.balloc
  simp only [Bind.bind, Effect.bind, Effect.get]
  rw [hfind]
  rfl

end Mkfs

end Xv6
