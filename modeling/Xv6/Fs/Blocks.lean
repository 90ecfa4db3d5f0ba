import Xv6.Fs.Content
import Xv6.Lib.Ownership

/-!
# The blocks of inodes

Where an inode refers to blocks (`BlockSlot`), what every block is used for (`Alloc`), and the
bytes of a file as its inode leads to them (`fileByte`). A block that an inode does not
have yet counts as zeros, so that allocating it changes no byte.
-/

open Function (update update_of_ne update_self)

namespace Xv6

namespace Block

variable {f : Nat → Byte} {i : Nat}

theorem byte_ofBytes (h : i < BSIZE) : (ofBytes f).byte i = f i := by
  have hdiv : i / 4 < BSIZE / 4 := by
    unfold BSIZE at h ⊢
    omega
  have hi : i = 4 * (i / 4) + i % 4 := by omega
  have hval : (Fin.ofNat (BSIZE / 4) (i / 4)).val = i / 4 := Nat.mod_eq_of_lt hdiv
  unfold byte ofBytes
  rw [hval]
  generalize i / 4 = q at hi
  have hr : i % 4 < 4 := Nat.mod_lt _ (by decide)
  generalize i % 4 = r at hi hr
  subst hi
  match r, hr with
  | 0, _ => ext j; simp; grind
  | 1, _ => ext j; simp; grind
  | 2, _ => ext j; simp; grind
  | 3, _ => ext j; simp; grind

theorem byte_zero : zero.byte i = 0 := by
  simp [byte, zero]

theorem byte_move {x : Block} {start m : Nat} {src : Nat → Byte} (h : i < BSIZE) :
    (x.move start m src).byte i =
      if start ≤ i ∧ i < start + m then src (i - start) else x.byte i := by
  unfold move
  rw [byte_ofBytes h]

end Block

namespace Disk

variable {s : Disk} {inum m : Nat} {d : Dinode}

theorem dinode_setDinode_self : (s.setDinode inum d).dinode inum = d := by
  simp [dinode, setDinode]

theorem dinode_setDinode_of_ne (h : m ≠ inum) : (s.setDinode inum d).dinode m = s.dinode m := by
  have hne : ¬ (IBLOCK m s.sb = IBLOCK inum s.sb ∧ m % IPB = inum % IPB) := by
    intro ⟨hdiv, hmod⟩
    apply h
    unfold IBLOCK at hdiv
    have hq : m / IPB = inum / IPB := by omega
    rw [← Nat.div_add_mod m IPB, ← Nat.div_add_mod inum IPB, hq, hmod]
  unfold dinode setDinode
  dsimp only
  by_cases hb : IBLOCK m s.sb = IBLOCK inum s.sb
  · have hs : Fin.ofNat IPB m ≠ Fin.ofNat IPB inum := by
      intro heq
      exact hne ⟨hb, congrArg Fin.val heq⟩
    rw [hb, update_self, update_of_ne hs]
  · rw [update_of_ne hb]

theorem dinode_setDinode : (s.setDinode inum d).dinode = update s.dinode inum d := by
  funext m
  by_cases h : m = inum
  · subst h
    rw [dinode_setDinode_self, update_self]
  · rw [dinode_setDinode_of_ne h, update_of_ne h]

end Disk

/-! ## What an inode refers to -/

/-- A place where a block number of a file is kept: in the inode, or in its indirect
block. -/
inductive BlockSlot
  | addr (i : Fin (NDIRECT + 1))
  | entry (j : Fin (BSIZE / 4))
deriving DecidableEq

def BlockSlot.ofIndex (bn : Nat) : Option BlockSlot :=
  if bn < NDIRECT then some (.addr (Fin.ofNat (NDIRECT + 1) bn))
  else if bn - NDIRECT < NINDIRECT then some (.entry (Fin.ofNat (BSIZE / 4) (bn - NDIRECT)))
  else none

namespace Disk

def indirect (s : Disk) (d : Dinode) : Block :=
  if d.addrs (Fin.last NDIRECT) = 0 then .zero else s.block (d.addrs (Fin.last NDIRECT))

def slot (s : Disk) (d : Dinode) : BlockSlot → Nat
  | .addr i => d.addrs i
  | .entry j => (s.indirect d j).toNat

def blockOf (s : Disk) (d : Dinode) (bn : Nat) : Nat := (BlockSlot.ofIndex bn).elim 0 (s.slot d)

def fileByte (s : Disk) (d : Dinode) (i : Nat) : Byte :=
  if s.blockOf d (i / BSIZE) = 0 then 0 else (s.block (s.blockOf d (i / BSIZE))).byte (i % BSIZE)

def content (s : Disk) (d : Dinode) : List Byte := (List.range d.size.toNat).map (s.fileByte d)

def owner (s : Disk) (I : Nat → Dinode) (k : Nat × BlockSlot) : Option Nat :=
  if (I k.1).type = .free ∨ s.slot (I k.1) k.2 = 0 then none else some (s.slot (I k.1) k.2)

/-- A block is marked in the free map when it is before the data blocks, or when one slot
of one allocated inode refers to it; none refers to a block that is not a data block. -/
def Alloc (s : Disk) (I : Nat → Dinode) : Prop :=
  Ownership (s.owner I) (fun b => b < s.sb.nmeta ∧ b < s.sb.size)
    fun b => b < s.sb.size ∧ s.bit b = true

def NoHole (s : Disk) (d : Dinode) : Prop := ∀ bn, bn * BSIZE < d.size.toNat → s.blockOf d bn ≠ 0

def spare (s : Disk) : Nat := ((Finset.range s.sb.size).filter fun b => s.bit b = false).card

variable {s t : Disk} {I J : Nat → Dinode} {d : Dinode} {n m bn : Nat}
  {k : Nat × BlockSlot} {b : Nat}

theorem owner_eq_some : s.owner I k = some b ↔
    (I k.1).type ≠ .free ∧ b ≠ 0 ∧ s.slot (I k.1) k.2 = b := by
  unfold owner
  split
  · next h => grind
  · next h => grind

theorem owner_eq_none : s.owner I k = none ↔ (I k.1).type = .free ∨ s.slot (I k.1) k.2 = 0 := by
  unfold owner
  split
  · next h => simp [h]
  · next h => simp [h]

namespace Alloc

theorem pos (h : s.Alloc I) (hb : s.bit b = false) (hlt : b < s.sb.size) : b ≠ 0 := by
  intro heq
  subst heq
  have hpos : 0 < s.sb.nmeta := Nat.lt_of_lt_of_le (Nat.succ_pos _) (Nat.le_add_left _ _)
  have := (h.used_iff 0).mpr (Or.inl ⟨hpos, hlt⟩)
  rw [hb] at this
  cases this.2

theorem slot_inj (h : s.Alloc I) (hn : (I n).type ≠ .free) (hm : (I m).type ≠ .free)
    (sl sl' : BlockSlot) (h0 : s.slot (I n) sl ≠ 0)
    (heq : s.slot (I n) sl = s.slot (I m) sl') : n = m ∧ sl = sl' := by
  have := h.inj (n, sl) (m, sl') (s.slot (I n) sl) (owner_eq_some.mpr ⟨hn, h0, rfl⟩)
    (owner_eq_some.mpr ⟨hm, h0, heq.symm⟩)
  exact Prod.mk.injEq .. ▸ this

theorem slot_used (h : s.Alloc I) (hn : (I n).type ≠ .free) (sl : BlockSlot)
    (h0 : s.slot (I n) sl ≠ 0) :
    s.slot (I n) sl < s.sb.size ∧ s.bit (s.slot (I n) sl) = true :=
  h.used_of_owner (k := (n, sl)) (owner_eq_some.mpr ⟨hn, h0, rfl⟩)

theorem slot_ne (h : s.Alloc I) (hn : (I n).type ≠ .free) (sl : BlockSlot)
    (hb : s.bit b = false) (h0 : b ≠ 0) : s.slot (I n) sl ≠ b := by
  intro heq
  have := (h.slot_used hn sl (heq ▸ h0)).2
  rw [heq, hb] at this
  cases this

end Alloc

theorem ofIndex_ne_last : BlockSlot.ofIndex bn ≠ some (.addr (Fin.last NDIRECT)) := by
  unfold BlockSlot.ofIndex
  split
  · next h =>
    intro heq
    have := congrArg Fin.val (BlockSlot.addr.inj (Option.some.inj heq))
    simp only [Fin.ofNat, Fin.val_last] at this
    rw [Nat.mod_eq_of_lt (by omega)] at this
    omega
  · split
    · simp
    · simp

theorem ofIndex_inj {bn bn' : Nat} {sl : BlockSlot} (h : BlockSlot.ofIndex bn = some sl)
    (h' : BlockSlot.ofIndex bn' = some sl) : bn = bn' := by
  unfold BlockSlot.ofIndex at h h'
  split at h
  · next hlt =>
    cases h
    split at h'
    · next hlt' =>
      simp only [Option.some.injEq, BlockSlot.addr.injEq, Fin.ofNat, Fin.mk.injEq] at h'
      rw [Nat.mod_eq_of_lt (by omega), Nat.mod_eq_of_lt (by omega)] at h'
      exact h'.symm
    · split at h' <;> simp at h'
  · next hge =>
    split at h
    · next hlt =>
      cases h
      split at h'
      · simp at h'
      · split at h'
        · next hlt' =>
          simp only [Option.some.injEq, BlockSlot.entry.injEq, Fin.ofNat, Fin.mk.injEq] at h'
          have hN : NINDIRECT = BSIZE / 4 := rfl
          rw [Nat.mod_eq_of_lt (hN ▸ hlt'), Nat.mod_eq_of_lt (hN ▸ hlt)] at h'
          omega
        · cases h'
    · cases h

theorem blockOf_of_ofIndex {sl : BlockSlot} (h : BlockSlot.ofIndex bn = some sl) :
    s.blockOf d bn = s.slot d sl := by
  simp [blockOf, h]

theorem exists_slot (h : s.blockOf d bn ≠ 0) :
    ∃ sl, BlockSlot.ofIndex bn = some sl ∧ s.blockOf d bn = s.slot d sl := by
  unfold blockOf at h ⊢
  cases hsl : BlockSlot.ofIndex bn with
  | none => simp [hsl] at h
  | some sl => exact ⟨sl, rfl, rfl⟩

theorem lt_of_blockOf_ne_zero (h : s.blockOf d bn ≠ 0) : bn < MAXFILE := by
  obtain ⟨sl, hsl, -⟩ := exists_slot h
  unfold BlockSlot.ofIndex at hsl
  unfold MAXFILE
  split at hsl
  · omega
  · split at hsl
    · omega
    · cases hsl

section Congr

variable {d' : Dinode}

theorem slot_congr (hb : t.block = s.block) (hd : d'.addrs = d.addrs) : t.slot d' = s.slot d := by
  funext sl
  cases sl with
  | addr i => exact congrFun hd i
  | entry j => simp [slot, indirect, hb, hd]

theorem blockOf_congr (hb : t.block = s.block) (hd : d'.addrs = d.addrs) :
    t.blockOf d' = s.blockOf d := by
  funext bn
  unfold blockOf
  rw [slot_congr hb hd]

theorem fileByte_congr (hb : t.block = s.block) (hd : d'.addrs = d.addrs) :
    t.fileByte d' = s.fileByte d := by
  funext i
  unfold fileByte
  rw [blockOf_congr hb hd, hb]

theorem Alloc.congr (h : s.Alloc I) (hsb : t.sb = s.sb) (hbit : t.bit = s.bit)
    (hb : t.block = s.block) (hJ : ∀ m, (J m).type = (I m).type ∧ (J m).addrs = (I m).addrs) :
    t.Alloc J := by
  unfold Alloc
  rw [hsb, hbit]
  refine Ownership.congr h (fun k => ?_) (fun _ => Iff.rfl)
  unfold owner
  rw [(hJ k.1).1, slot_congr hb (hJ k.1).2]

end Congr

/-! ## A slot takes a block -/

/-- An empty slot of an allocated inode takes an unmarked block, which is cleared. -/
structure Take (s t : Disk) (I J : Nat → Dinode) (k : Nat × BlockSlot) (b : Nat) : Prop where
  sb : t.sb = s.sb
  bit : t.bit = update s.bit b true
  unmarked : s.bit b = false
  lt : b < s.sb.size
  alive : (I k.1).type ≠ .free
  empty : s.slot (I k.1) k.2 = 0
  type : ∀ m, (J m).type = (I m).type
  slot : ∀ m sl, (I m).type ≠ .free →
    t.slot (J m) sl = if (m, sl) = k then b else s.slot (I m) sl
  zero : t.block b = .zero
  data : ∀ m sl, (I m).type ≠ .free → sl ≠ .addr (Fin.last NDIRECT) → s.slot (I m) sl ≠ 0 →
    t.block (s.slot (I m) sl) = s.block (s.slot (I m) sl)

namespace Take

theorem alloc (h : Take s t I J k b) (ha : s.Alloc I) : t.Alloc J := by
  have hb0 : b ≠ 0 := ha.pos h.unmarked h.lt
  have hnone : s.owner I k = none := owner_eq_none.mpr (Or.inr h.empty)
  have hfree : ¬ (b < s.sb.size ∧ s.bit b = true) := by
    rw [h.unmarked]
    simp
  have htake := Ownership.take ha hnone hfree
  unfold Alloc
  rw [h.sb, h.bit]
  refine htake.congr (fun k' => ?_) (fun x => ?_)
  · by_cases halive : (I k'.1).type = .free
    · have hne : k' ≠ k := fun heq => h.alive (heq ▸ halive)
      rw [update_of_ne hne, owner_eq_none.mpr (Or.inl halive)]
      exact owner_eq_none.mpr (Or.inl ((h.type k'.1).trans halive))
    · have hslot := h.slot k'.1 k'.2 halive
      by_cases heq : k' = k
      · subst heq
        rw [if_pos rfl] at hslot
        rw [update_self]
        exact owner_eq_some.mpr ⟨by rwa [h.type], hb0, hslot⟩
      · rw [if_neg heq] at hslot
        rw [update_of_ne heq]
        unfold owner
        rw [hslot, h.type]
  · by_cases hx : x = b
    · subst hx
      simp [h.lt]
    · simp [hx]

theorem blockOf (h : Take s t I J k b) (hm : (I m).type ≠ .free) :
    t.blockOf (J m) bn =
      if ∃ sl, BlockSlot.ofIndex bn = some sl ∧ (m, sl) = k then b else s.blockOf (I m) bn := by
  unfold Disk.blockOf
  cases hsl : BlockSlot.ofIndex bn with
  | none => simp
  | some sl => simp [h.slot m sl hm]

theorem fileByte (h : Take s t I J k b) (ha : s.Alloc I) (hm : (I m).type ≠ .free) (i : Nat) :
    t.fileByte (J m) i = s.fileByte (I m) i := by
  have hb0 : b ≠ 0 := ha.pos h.unmarked h.lt
  unfold Disk.fileByte
  rw [h.blockOf hm]
  split
  · next hk =>
    obtain ⟨sl, hsl, heq⟩ := hk
    have hempty : s.blockOf (I m) (i / BSIZE) = 0 := by
      rw [blockOf_of_ofIndex hsl]
      subst heq
      exact h.empty
    rw [h.zero, Block.byte_zero, if_pos hempty]
  · split
    · rfl
    · next h0 =>
      obtain ⟨sl, hsl, heq⟩ := exists_slot h0
      have hne : sl ≠ .addr (Fin.last NDIRECT) := fun hlast => ofIndex_ne_last (hlast ▸ hsl)
      rw [heq] at h0 ⊢
      rw [h.data m sl hm hne h0]

theorem spare (h : Take s t I J k b) : t.spare + 1 = s.spare := by
  unfold Disk.spare
  have hmem : b ∈ (Finset.range s.sb.size).filter fun x => s.bit x = false := by
    simp [h.lt, h.unmarked]
  have heq : ((Finset.range t.sb.size).filter fun x => t.bit x = false) =
      ((Finset.range s.sb.size).filter fun x => s.bit x = false).erase b := by
    ext x
    rw [h.sb, h.bit]
    by_cases hx : x = b
    · simp [hx]
    · simp [hx]
  rw [heq]
  exact Finset.card_erase_add_one hmem

end Take

theorem take_addr {i : Fin (NDIRECT + 1)} (ha : s.Alloc I) (hn : (I n).type ≠ .free)
    (hi : (I n).addrs i = 0) (hb : s.bit b = false) (hlt : b < s.sb.size) :
    Take s
      { s with bit := update s.bit b true, block := update s.block b .zero } I
      (update I n { I n with addrs := update (I n).addrs i b })
      (n, .addr i) b := by
  have hb0 : b ≠ 0 := ha.pos hb hlt
  have hblock : ∀ m sl, (I m).type ≠ .free →
      update s.block b .zero (s.slot (I m) sl) = s.block (s.slot (I m) sl) := by
    intro m sl hm
    rw [update_of_ne (ha.slot_ne hm sl hb hb0)]
  have hother : ∀ m sl, (I m).type ≠ .free →
      ({ s with
        bit := update s.bit b true
        block := update s.block b .zero } : Disk).slot (I m) sl = s.slot (I m) sl := by
    intro m sl hm
    cases sl with
    | addr i => rfl
    | entry j =>
      unfold slot indirect
      dsimp only
      rw [show (I m).addrs (Fin.last NDIRECT) = s.slot (I m) (.addr (Fin.last NDIRECT)) from rfl,
        hblock m _ hm]
  refine ⟨rfl, rfl, hb, hlt, hn, hi, ?_, ?_, update_self .., ?_⟩
  · intro m
    by_cases hm : m = n
    · subst hm
      rw [update_self]
    · rw [update_of_ne hm]
  · intro m sl hm
    by_cases hmn : m = n
    · subst hmn
      rw [update_self]
      cases sl with
      | addr i' =>
        by_cases hii : i' = i
        · subst hii
          simp [slot]
        · simp [slot, hii]
      | entry j =>
        have hne : ¬ ((m, BlockSlot.entry j) = (m, BlockSlot.addr i)) := by simp
        rw [if_neg hne]
        by_cases hlast : i = Fin.last NDIRECT
        · -- the new indirect block is all zeros, as no indirect block is
          subst hlast
          simp [slot, indirect, hb0, hi]
        · rw [← hother m (.entry j) hm]
          simp [slot, indirect, update_of_ne (Ne.symm hlast)]
    · rw [update_of_ne hmn, if_neg (by simp [hmn])]
      exact hother m sl hm
  · intro m sl hm _ _
    exact hblock m sl hm

theorem take_entry {j : Fin (BSIZE / 4)} (ha : s.Alloc I) (hn : (I n).type ≠ .free)
    (hind : (I n).addrs (Fin.last NDIRECT) ≠ 0)
    (hj : (s.block ((I n).addrs (Fin.last NDIRECT)) j).toNat = 0) (hb : s.bit b = false)
    (hlt : b < s.sb.size) :
    Take s
      { s with
        bit := update s.bit b true
        block := update (update s.block b .zero)
          ((I n).addrs (Fin.last NDIRECT))
          (update (s.block ((I n).addrs (Fin.last NDIRECT))) j (BitVec.ofNat 32 b)) }
      I I (n, .entry j) b := by
  have hb0 : b ≠ 0 := ha.pos hb hlt
  have hib : (I n).addrs (Fin.last NDIRECT) ≠ b :=
    ha.slot_ne hn (.addr (Fin.last NDIRECT)) hb hb0
  have hval : (BitVec.ofNat 32 b).toNat = b := by
    rw [BitVec.toNat_ofNat]
    exact Nat.mod_eq_of_lt (Nat.lt_trans hlt s.sb.size_lt)
  refine ⟨rfl, rfl, hb, hlt, hn, ?_, fun _ => rfl, ?_, ?_, ?_⟩
  · simp [slot, indirect, hind, hj]
  · intro m sl hm
    cases sl with
    | addr i => simp [slot]
    | entry j' =>
      unfold slot indirect
      dsimp only
      by_cases h0 : (I m).addrs (Fin.last NDIRECT) = 0
      · have hne : m ≠ n := fun heq => hind (heq ▸ h0)
        simp [h0, hne]
      · rw [if_neg h0, if_neg h0]
        by_cases hmn : m = n
        · subst hmn
          rw [update_self]
          by_cases hjj : j' = j
          · subst hjj
            simp [hval]
          · simp [hjj]
        · have hneq : (I m).addrs (Fin.last NDIRECT) ≠ (I n).addrs (Fin.last NDIRECT) := by
            intro heq
            exact hmn (ha.slot_inj hm hn (.addr (Fin.last NDIRECT)) (.addr (Fin.last NDIRECT))
              h0 heq).1
          have hmb : (I m).addrs (Fin.last NDIRECT) ≠ b :=
            ha.slot_ne hm (.addr (Fin.last NDIRECT)) hb hb0
          rw [update_of_ne hneq, update_of_ne hmb, if_neg (by simp [hmn])]
  · dsimp only
    rw [update_of_ne (Ne.symm hib), update_self]
  · intro m sl hm hne h0
    dsimp only
    have hslot : s.slot (I m) sl ≠ (I n).addrs (Fin.last NDIRECT) := by
      intro heq
      exact hne (ha.slot_inj hm hn sl (.addr (Fin.last NDIRECT)) h0 heq).2
    rw [update_of_ne hslot, update_of_ne (ha.slot_ne hm sl hb hb0)]

/-! ## Bytes are written -/

section Write

variable {sl : BlockSlot} {x : Block}

theorem write_slot (ha : s.Alloc I) (hn : (I n).type ≠ .free)
    (hne : sl ≠ .addr (Fin.last NDIRECT)) (h0 : s.slot (I n) sl ≠ 0) (hm : (I m).type ≠ .free)
    (sl' : BlockSlot) :
    ({ s with block := update s.block (s.slot (I n) sl) x } : Disk).slot (I m) sl' =
      s.slot (I m) sl' := by
  cases sl' with
  | addr i => rfl
  | entry j =>
    have hind : ({ s with block := update s.block (s.slot (I n) sl) x } : Disk).indirect
        (I m) = s.indirect (I m) := by
      unfold indirect
      dsimp only
      split
      · rfl
      · rw [update_of_ne]
        intro heq
        exact hne (ha.slot_inj hn hm sl (.addr (Fin.last NDIRECT)) h0 heq.symm).2
    exact congrArg (fun a => (a j).toNat) hind

theorem write_alloc (ha : s.Alloc I) (hn : (I n).type ≠ .free)
    (hne : sl ≠ .addr (Fin.last NDIRECT)) (h0 : s.slot (I n) sl ≠ 0) :
    ({ s with block := update s.block (s.slot (I n) sl) x } : Disk).Alloc I := by
  refine Ownership.congr ha (fun k => ?_) (fun _ => Iff.rfl)
  unfold owner
  by_cases hk : (I k.1).type = .free
  · simp [hk]
  · rw [write_slot ha hn hne h0 hk]

theorem write_blockOf (ha : s.Alloc I) (hn : (I n).type ≠ .free)
    (hne : sl ≠ .addr (Fin.last NDIRECT)) (h0 : s.slot (I n) sl ≠ 0) (hm : (I m).type ≠ .free)
    (bn : Nat) :
    ({ s with block := update s.block (s.slot (I n) sl) x } : Disk).blockOf (I m) bn =
      s.blockOf (I m) bn := by
  unfold blockOf
  cases BlockSlot.ofIndex bn with
  | none => rfl
  | some sl' => exact write_slot ha hn hne h0 hm sl'

theorem write_fileByte (ha : s.Alloc I) (hn : (I n).type ≠ .free)
    (hsl : BlockSlot.ofIndex bn = some sl) (h0 : s.slot (I n) sl ≠ 0) (hm : (I m).type ≠ .free)
    (i : Nat) :
    ({ s with block := update s.block (s.slot (I n) sl) x } : Disk).fileByte (I m) i =
      if m = n ∧ i / BSIZE = bn then x.byte (i % BSIZE) else s.fileByte (I m) i := by
  have hne : sl ≠ .addr (Fin.last NDIRECT) := fun heq => ofIndex_ne_last (heq ▸ hsl)
  unfold fileByte
  rw [write_blockOf ha hn hne h0 hm]
  by_cases hz : s.blockOf (I m) (i / BSIZE) = 0
  · rw [if_pos hz, if_neg, if_pos hz]
    rintro ⟨rfl, heq⟩
    rw [heq, blockOf_of_ofIndex hsl] at hz
    exact h0 hz
  · rw [if_neg hz, if_neg hz]
    obtain ⟨sl', hsl', heq⟩ := exists_slot hz
    rw [heq] at hz ⊢
    dsimp only
    by_cases hk : m = n ∧ i / BSIZE = bn
    · obtain ⟨rfl, rfl⟩ := hk
      rw [hsl] at hsl'
      cases hsl'
      simp
    · rw [if_neg hk, update_of_ne]
      intro hsame
      obtain ⟨rfl, rfl⟩ := ha.slot_inj hm hn sl' sl hz hsame
      exact hk ⟨rfl, ofIndex_inj hsl' hsl⟩

end Write

end Disk

end Xv6
