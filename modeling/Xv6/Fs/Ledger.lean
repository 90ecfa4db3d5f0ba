import Xv6.Fs.Exec
import Xv6.Fs.Dirs

/-!
# What a transaction logs

A process has, as ghost data, the blocks it has logged since `begin_op`. A ledger says which
blocks those may be: the blocks of some inodes, some other blocks, and the free map, or
those of one call of `writei`.
-/

open Finset (card_image_le card_le_card card_union_le mem_image mem_image_of_mem mem_insert_self
  mem_range mem_union mem_union_left mem_union_right union_empty)

namespace Xv6

def Superblock.nbitmap (sb : Superblock) : Nat := (sb.size + (BPB - 1)) / BPB

theorem Superblock.card_bitmap_le (sb : Superblock) : sb.bitmap.card ≤ sb.nbitmap := by
  have hsub : sb.bitmap ⊆ (Finset.range sb.nbitmap).image (· + sb.bmapstart) := by
    intro b hb
    obtain ⟨i, hi, rfl⟩ := mem_image.mp hb
    have hlt := mem_range.mp hi
    refine mem_image.mpr ⟨i / BPB, mem_range.mpr ?_, rfl⟩
    unfold nbitmap
    unfold BPB BSIZE
    omega
  calc sb.bitmap.card
      ≤ ((Finset.range sb.nbitmap).image (· + sb.bmapstart)).card := card_le_card hsub
    _ ≤ (Finset.range sb.nbitmap).card := card_image_le
    _ = sb.nbitmap := Finset.card_range _

namespace Fs

/-! ## Events -/

def logged (ev : List Event) : Finset Nat :=
  (ev.filterMap fun e => match e with | .logWrite b => some b | _ => none).toFinset

theorem mem_logged {ev : List Event} {b : Nat} : b ∈ logged ev ↔ .logWrite b ∈ ev := by
  unfold logged
  rw [List.mem_toFinset, List.mem_filterMap]
  constructor
  · rintro ⟨e, he, heq⟩
    cases e with
    | logWrite b' =>
      cases heq
      exact he
    | _ => cases heq
  · exact fun h => ⟨_, h, rfl⟩

theorem Logs.of_mem {B : Nat → Prop} {ev : List Event} (h : Logs B ev) {b : Nat}
    (hb : b ∈ logged ev) : B b := by
  obtain ⟨b', hB, heq⟩ := h _ (mem_logged.mp hb)
  cases heq
  exact hB

/-! ## What a write costs -/

/-- The number of blocks that `writei` may log: those it writes to, and if the file gets
longer also the free map, the indirect block and the inode. -/
def writeCost (sb : Superblock) (d : Dinode) (off n : Nat) : Nat :=
  (blocksIn off n).card + if off + n ≤ d.size.toNat then 0 else sb.nbitmap + 2

theorem blockOf_of_le {s : Disk} {d : Dinode} {off n : Nat} (hfull : s.NoHole d)
    (h : off + n ≤ d.size.toNat) : ∀ bn ∈ blocksIn off n, s.blockOf d bn ≠ 0 := by
  intro bn hbn
  obtain ⟨i, hi, rfl⟩ := mem_blocksIn.mp hbn
  apply hfull
  unfold BSIZE
  omega

end Fs

namespace FsM

open Fs

variable {s t : Fs} {ip : InodePtr} {off n : Nat} {ev : List Event}

theorem UpdateLogs.card_le (h : UpdateLogs ip off n s t ev) (hfull : s.NoHole (s.icache ip).d) :
    (logged ev).card ≤ writeCost s.sb (s.icache ip).d off n := by
  let A := (blocksIn off n).image (t.blockOf (t.icache ip).d)
  have hA : A.card ≤ (blocksIn off n).card := card_image_le
  unfold writeCost
  by_cases hle : off + n ≤ (s.icache ip).d.size.toNat
  · have hthere := blockOf_of_le hfull hle
    have hsub : logged ev ⊆ A := by
      intro b hb
      rcases h.of_mem hb with ⟨bn, hbn, rfl⟩ | ⟨hneed, -⟩ | ⟨⟨bn, hbn, -, h0⟩, -⟩ | ⟨hgrow, -⟩
      · exact mem_image_of_mem _ hbn
      · exact absurd (Disk.need_eq_zero hthere) hneed
      · exact absurd h0 (hthere bn hbn)
      · omega
    rw [if_pos hle]
    exact Nat.le_trans (card_le_card hsub) hA
  · let B : Finset Nat := {(t.icache ip).d.addrs (Fin.last NDIRECT), IBLOCK (s.icache ip).inum s.sb}
    have hB : B.card ≤ 2 := Finset.card_le_two
    have hsub : logged ev ⊆ A ∪ (s.sb.bitmap ∪ B) := by
      intro b hb
      rcases h.of_mem hb with ⟨bn, hbn, rfl⟩ | ⟨-, hmap⟩ | ⟨-, rfl⟩ | ⟨-, rfl⟩
      · exact mem_union_left _ (mem_image_of_mem _ hbn)
      · exact mem_union_right _ (mem_union_left _ hmap)
      · exact mem_union_right _ (mem_union_right _ (mem_insert_self ..))
      · exact mem_union_right _ (mem_union_right _
          (Finset.mem_insert_of_mem (Finset.mem_singleton_self _)))
    have hmap := s.sb.card_bitmap_le
    have := card_le_card hsub
    have := card_union_le A (s.sb.bitmap ∪ B)
    have := card_union_le s.sb.bitmap B
    rw [if_neg hle]
    omega

/-- Writing an entry of a directory: a block of the directory, the indirect block, the free
map and the inode. -/
theorem UpdateLogs.dirent (h : UpdateLogs ip off DIRENTSIZE s t ev) (hoff : off % DIRENTSIZE = 0) :
    ∃ R : Finset Nat, R.card ≤ 2 ∧
      Logs (fun x => x = IBLOCK (s.icache ip).inum s.sb ∨ x ∈ R ∨ x ∈ s.sb.bitmap) ev := by
  have hk : off = off / DIRENTSIZE * DIRENTSIZE := by
    unfold DIRENTSIZE DIRSIZ at hoff ⊢
    omega
  refine ⟨{t.blockOf (t.icache ip).d (off / BSIZE), (t.icache ip).d.addrs (Fin.last NDIRECT)},
    Finset.card_le_two, Logs.mono h ?_⟩
  rintro x (⟨bn, hbn, rfl⟩ | ⟨-, hmap⟩ | ⟨-, rfl⟩ | ⟨-, rfl⟩)
  · rw [hk, blocksIn_dirent, ← hk, Finset.mem_singleton] at hbn
    subst hbn
    exact Or.inr (Or.inl (mem_insert_self ..))
  · exact Or.inr (Or.inr hmap)
  · exact Or.inr (Or.inl (Finset.mem_insert_of_mem (Finset.mem_singleton_self _)))
  · exact Or.inl rfl

end FsM

namespace Fs

/-! ## Transactions -/

structure Tx where
  logged : Finset Nat
  freed : Nat
  /-- The most that a call of `writei` may have logged. -/
  cost : Nat

def Call.cost (s : Fs) : {β : Type} → Call β → Nat
  | _, .writei ip _ off n => writeCost s.sb (s.icache ip).d off.toNat n.toNat
  | _, _ => 0

def Call.frees : {β : Type} → Call β → β → Nat
  | _, .iputTest _, freeing => if freeing then 1 else 0
  | _, _, _ => 0

def Tx.add (x : Tx) (ev : List Event) (freed cost : Nat) : Tx where
  logged := x.logged ∪ Fs.logged ev
  freed := x.freed + freed
  cost := max x.cost cost

def Tx.after (x : Tx) (s : Fs) (ev : List Event) : {β : Type} → Call β → β → Tx
  | _, .endOp, _ => { logged := ∅, freed := 0, cost := 0 }
  | _, c, b => x.add ev (c.frees b) (c.cost s)

inductive Ledger
  | outside
  /-- The blocks of some inodes, and a number of other blocks. -/
  | normal (inodes : Finset Nat) (others : Nat)
  | freeing (inum : Nat) (inodes : Finset Nat) (others : Nat)
  /-- Nothing yet, in a transaction for one call of `writei`. -/
  | data
  | written

def Room (inodes : Finset Nat) (others : Nat) : Prop := inodes.card + others + 2 ≤ MAXOPBLOCKS

/-- The blocks of some inodes, at most `n` other ones, and the free map. -/
def Within (sb : Superblock) (inodes : Finset Nat) (n : Nat) (blocks : Finset Nat) : Prop :=
  ∃ R : Finset Nat, R.card ≤ n ∧ blocks ⊆ inodes.image (IBLOCK · sb) ∪ R ∪ sb.bitmap

def Ledger.Covers (sb : Superblock) (x : Tx) : Ledger → Prop
  | outside => x.logged = ∅ ∧ x.freed = 0
  | normal inodes others => Room inodes others ∧ Within sb inodes (others + x.freed) x.logged
  | freeing inum inodes others => Room inodes others ∧ 0 < others + x.freed ∧
      Within sb (insert inum inodes) (others + x.freed - 1) x.logged
  | data => x.logged = ∅
  | written => x.logged.card ≤ x.cost

def Ledger.ops : Ledger → Int
  | outside => 0
  | normal _ _ | freeing _ _ _ | data | written => 1

def Ledger.Below (l l' : Ledger) : Prop :=
  l = l' ∨ ∃ N k N' k', l = .normal N k ∧ l' = .normal N' k' ∧ N ⊆ N' ∧ k ≤ k' ∧ Room N' k'

section Covers

variable {sb : Superblock} {x : Tx} {ev : List Event} {N N' : Finset Nat}
  {k j n m cost : Nat} {B : Finset Nat}

theorem Within.mono (h : Within sb N k B) (hN : N ⊆ N') (hk : k ≤ j) : Within sb N' j B := by
  obtain ⟨R, hR, hsub⟩ := h
  refine ⟨R, Nat.le_trans hR hk, Finset.Subset.trans hsub ?_⟩
  exact Finset.union_subset_union_left
    (Finset.union_subset_union_left (Finset.image_subset_image hN))

theorem Within.card_le (h : Within sb N k B) : B.card ≤ N.card + k + sb.nbitmap := by
  obtain ⟨R, hR, hsub⟩ := h
  have := card_le_card hsub
  have := card_union_le (N.image (IBLOCK · sb) ∪ R) sb.bitmap
  have := card_union_le (N.image (IBLOCK · sb)) R
  have : (N.image (IBLOCK · sb)).card ≤ N.card := card_image_le
  have := sb.card_bitmap_le
  omega

theorem Within.log {R : Finset Nat} (h : Within sb N k B) (hn : n ∈ N) (hR : R.card ≤ j)
    (hlog : Logs (fun x => x = IBLOCK n sb ∨ x ∈ R ∨ x ∈ sb.bitmap) ev) :
    Within sb N (k + j) (B ∪ logged ev) := by
  obtain ⟨R', hR', hsub⟩ := h
  refine ⟨R' ∪ R, ?_, ?_⟩
  · have := card_union_le R' R
    omega
  · intro x hx
    rcases mem_union.mp hx with hx | hx
    · rcases mem_union.mp (hsub hx) with hx | hx
      · rcases mem_union.mp hx with hx | hx
        · exact mem_union_left _ (mem_union_left _ hx)
        · exact mem_union_left _ (mem_union_right _ (mem_union_left _ hx))
      · exact mem_union_right _ hx
    · rcases hlog.of_mem hx with rfl | hx | hx
      · exact mem_union_left _ (mem_union_left _ (mem_image_of_mem _ hn))
      · exact mem_union_left _ (mem_union_right _ (mem_union_right _ hx))
      · exact mem_union_right _ hx

theorem Within.forget (h : Within sb (insert n N) k B) : Within sb N (k + 1) B := by
  obtain ⟨R, hR, hsub⟩ := h
  refine ⟨insert (IBLOCK n sb) R, Nat.le_trans (Finset.card_insert_le _ _) (by omega), ?_⟩
  intro x hx
  rcases mem_union.mp (hsub hx) with hx | hx
  · rcases mem_union.mp hx with hx | hx
    · obtain ⟨i, hi, rfl⟩ := mem_image.mp hx
      rcases Finset.mem_insert.mp hi with rfl | hi
      · exact mem_union_left _ (mem_union_right _ (mem_insert_self ..))
      · exact mem_union_left _ (mem_union_left _ (mem_image_of_mem _ hi))
    · exact mem_union_left _ (mem_union_right _ (Finset.mem_insert_of_mem hx))
  · exact mem_union_right _ hx

theorem Ledger.Covers.below {l l' : Ledger} (h : l.Covers sb x) (hl : l.Below l') :
    l'.Covers sb x := by
  rcases hl with rfl | ⟨N, k, N', k', rfl, rfl, hN, hk, hroom⟩
  · exact h
  · exact ⟨hroom, h.2.mono hN (by omega)⟩

theorem Ledger.Covers.quiet {l : Ledger} (h : l.Covers sb x) (hlog : logged ev = ∅) :
    l.Covers sb (x.add ev 0 cost) := by
  have hsame : (x.add ev 0 cost).logged = x.logged := by
    unfold Tx.add
    rw [hlog, union_empty]
  cases l with
  | outside => exact ⟨hsame.trans h.1, h.2⟩
  | normal _ _ | freeing _ _ _ =>
    unfold Covers
    rwa [hsame]
  | data => exact hsame.trans h
  | written =>
    unfold Covers
    rw [hsame]
    exact Nat.le_trans h (Nat.le_max_left _ _)

theorem Ledger.Covers.log {R : Finset Nat} (h : (normal N k).Covers sb x)
    (hroom : Room (insert n N) (k + j)) (hR : R.card ≤ j)
    (hlog : Logs (fun x => x = IBLOCK n sb ∨ x ∈ R ∨ x ∈ sb.bitmap) ev) :
    (normal (insert n N) (k + j)).Covers sb (x.add ev 0 cost) := by
  refine ⟨hroom, ?_⟩
  unfold Tx.add
  have hw := (h.2.mono (Finset.subset_insert n N) (Nat.le_refl _)).log (mem_insert_self ..)
    hR hlog
  exact hw.mono (Finset.Subset.refl _) (by dsimp only; omega)

theorem Ledger.Covers.free (h : (normal N k).Covers sb x) (hlog : logged ev = ∅) :
    (freeing n N k).Covers sb (x.add ev 1 cost) := by
  unfold Covers Tx.add
  rw [hlog, union_empty]
  dsimp only
  exact ⟨h.1, by omega, h.2.mono (Finset.subset_insert n N) (by omega)⟩

theorem Ledger.Covers.logFreeing (h : (freeing n N k).Covers sb x)
    (hlog : Logs (fun x => x = IBLOCK n sb ∨ x ∈ sb.bitmap) ev) :
    (freeing n N k).Covers sb (x.add ev 0 cost) := by
  obtain ⟨hroom, hpos, hw⟩ := h
  refine ⟨hroom, hpos, ?_⟩
  exact hw.log (j := 0) (R := ∅) (mem_insert_self ..) (Nat.le_refl _)
    (hlog.mono fun x hx => hx.imp_right Or.inr)

theorem Ledger.Covers.freed (h : (freeing n N k).Covers sb x) (hlog : logged ev = ∅) :
    (normal N k).Covers sb (x.add ev 0 cost) := by
  obtain ⟨hroom, hpos, hw⟩ := h
  unfold Covers Tx.add
  rw [hlog, union_empty]
  dsimp only
  exact ⟨hroom, hw.forget.mono (Finset.Subset.refl _) (by omega)⟩

theorem Ledger.Covers.card_le {l : Ledger} (h : l.Covers sb x) (hmap : sb.nbitmap ≤ 1)
    (hfreed : x.freed ≤ 1) (hcost : x.cost ≤ MAXOPBLOCKS) : x.logged.card ≤ MAXOPBLOCKS := by
  cases l with
  | outside =>
    rw [h.1]
    exact Nat.zero_le _
  | normal N k =>
    have hroom : N.card + k + 2 ≤ MAXOPBLOCKS := h.1
    have := h.2.card_le
    omega
  | freeing n N k =>
    obtain ⟨hroom, hpos, hw⟩ := h
    change N.card + k + 2 ≤ MAXOPBLOCKS at hroom
    have := hw.card_le
    have := Finset.card_insert_le n N
    omega
  | data =>
    rw [h]
    exact Nat.zero_le _
  | written => exact Nat.le_trans h hcost

end Covers

end Fs

end Xv6
