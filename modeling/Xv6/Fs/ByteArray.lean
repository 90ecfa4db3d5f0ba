import Xv6.Fs.File

/-!
# Reading and writing files

A disk is `Sound` when the free map is right and no file has a hole. On such a disk, and
for an inode whose copy in the cache is the one on disk, `readi` returns the bytes of the
file and `writei` replaces bytes of it; no other file changes.
-/

open Function (update update_of_ne update_self update_eq_self)

namespace Xv6

/-- The free map is right, and every block below the size of a file is there. -/
structure Disk.Sound (s : Disk) : Prop where
  alloc : s.Alloc s.dinode
  full : ∀ n, (s.dinode n).type ≠ .free → s.NoHole (s.dinode n)

namespace Disk

variable {s : Disk} {inum : Nat} {d : Dinode}

theorem slot_bare (hd : d.addrs = fun _ => 0) (sl : BlockSlot) : s.slot d sl = 0 := by
  cases sl with
  | addr i => exact congrFun hd i
  | entry j => simp [slot, indirect, hd, Block.zero]

namespace Sound

theorem setDinode_same (hs : s.Sound) (htype : d.type = (s.dinode inum).type)
    (haddrs : d.addrs = (s.dinode inum).addrs) (hsize : d.size = (s.dinode inum).size) :
    (s.setDinode inum d).Sound := by
  have hsame : ∀ m, ((s.setDinode inum d).dinode m).type = (s.dinode m).type ∧
      ((s.setDinode inum d).dinode m).addrs = (s.dinode m).addrs ∧
      ((s.setDinode inum d).dinode m).size = (s.dinode m).size := by
    intro m
    by_cases hm : m = inum
    · subst hm
      rw [dinode_setDinode_self]
      exact ⟨htype, haddrs, hsize⟩
    · rw [dinode_setDinode_of_ne hm]
      exact ⟨rfl, rfl, rfl⟩
  constructor
  · exact hs.alloc.congr rfl rfl rfl fun m => ⟨(hsame m).1, (hsame m).2.1⟩
  · intro m hm bn hbn
    rw [(hsame m).1] at hm
    rw [(hsame m).2.2] at hbn
    rw [blockOf_congr rfl (hsame m).2.1]
    exact hs.full m hm bn hbn

theorem setDinode_bare (hs : s.Sound)
    (hold : (s.dinode inum).type = .free ∨ (s.dinode inum).addrs = fun _ => 0)
    (hnew : d.type = .free ∨ (d.addrs = fun _ => 0) ∧ d.size = 0) :
    (s.setDinode inum d).Sound := by
  constructor
  · refine Ownership.congr hs.alloc (fun k => ?_) fun _ => Iff.rfl
    by_cases hk : k.1 = inum
    · have h₁ : s.owner s.dinode k = none := by
        apply owner_eq_none.mpr
        rw [hk]
        exact hold.imp_right fun h => slot_bare h k.2
      have h₂ : (s.setDinode inum d).owner (s.setDinode inum d).dinode k = none := by
        apply owner_eq_none.mpr
        rw [hk, dinode_setDinode_self]
        exact hnew.imp_right fun h => slot_bare h.1 k.2
      rw [h₁, h₂]
    · unfold owner
      rw [dinode_setDinode_of_ne hk]
      rfl
  · intro m hm bn hbn
    by_cases hmi : m = inum
    · subst hmi
      rw [dinode_setDinode_self] at hm hbn
      rcases hnew with hfree | ⟨-, hsize⟩
      · exact absurd hfree hm
      · rw [hsize] at hbn
        exact absurd hbn (Nat.not_lt_zero _)
    · rw [dinode_setDinode_of_ne hmi] at hm hbn ⊢
      exact hs.full m hm bn hbn

end Sound

end Disk

namespace Fs

variable {s : Fs} {ip : InodePtr}

def Clean (s : Fs) (ip : InodePtr) : Prop := s.dinode (s.icache ip).inum = (s.icache ip).d

theorem eff_of_clean (h : s.Clean ip) : s.eff ip = s.dinode := by
  unfold eff
  rw [← h]
  exact update_eq_self ..

theorem readable (hs : s.Sound) (hc : s.Clean ip) (htype : (s.icache ip).d.type ≠ .free) :
    s.Readable ip := by
  refine ⟨eff_of_clean hc ▸ hs.alloc, htype, ?_⟩
  rw [← hc]
  apply hs.full
  rwa [hc]

def emptyInode (type : FileType) : Dinode where
  type := type
  major := 0
  minor := 0
  nlink := 1
  uid := 0
  gid := 0
  mode := DEFMODE
  size := 0
  addrs := fun _ => 0

def fresh (type : FileType) : Fs where
  sb := Mkfs.sb
  bit := fun b => decide (b < Mkfs.sb.nmeta)
  iblock := fun b i =>
    emptyInode (if b = IBLOCK 1 Mkfs.sb ∧ i = Fin.ofNat IPB 1 then type else .free)
  block := fun _ => .zero
  icache := fun ip =>
    { dev := ROOTDEV, inum := 1, ref := if ip = 0 then 1 else 0, busy := decide (ip = 0)
      valid := decide (ip = 0), d := emptyInode type }
  ftable := fun _ =>
    { type := .none, ref := 0, readable := false, writable := false, pipe := 0, ip := 0, off := 0 }
  pipes := 0
  console := none
  pipe := 0
  memory := true
  stack := fun _ => 0

theorem fresh_clean (type : FileType) : (fresh type).Clean 0 := by
  simp [Clean, Disk.dinode, fresh]

theorem fresh_sound (type : FileType) : (fresh type).Sound := by
  have hnone : ∀ k, (fresh type).owner (fresh type).dinode k = none := by
    intro k
    apply Disk.owner_eq_none.mpr
    right
    cases k.2 with
    | addr i | entry j => rfl
  constructor
  · refine ⟨?_, ?_, ?_⟩
    · intro k k' b hk
      rw [hnone] at hk
      cases hk
    · intro k b hk
      rw [hnone] at hk
      cases hk
    · intro b
      simp only [hnone, reduceCtorEq, exists_false, or_false]
      constructor
      · exact fun hb => ⟨of_decide_eq_true hb.2, hb.1⟩
      · exact fun hb => ⟨hb.2, decide_eq_true hb.1⟩
  · intro n _ bn hbn
    exact absurd hbn (Nat.not_lt_zero _)

end Fs

namespace FsM

open Effect Fs

variable {s t : Fs} {ip : InodePtr} {src : Nat → Byte}

/-- `writei` has written `n` bytes at `off` of the locked inode. -/
structure Updated (ip : InodePtr) (src : Nat → Byte) (off n : Nat) (s t : Fs) : Prop where
  rest : t = { s with bit := t.bit, iblock := t.iblock, block := t.block, icache := t.icache }
  icache : t.icache = update s.icache ip
    { s.icache ip with
      d := { (s.icache ip).d with
        size := (t.icache ip).d.size
        addrs := (t.icache ip).d.addrs } }
  size : (t.icache ip).d.size.toNat = max (s.icache ip).d.size.toNat (off + n)
  dinode : t.dinode = update s.dinode (s.icache ip).inum (t.icache ip).d
  sound : t.Sound
  bytes : ∀ m, (s.dinode m).type ≠ .free → ∀ i, t.fileByte (t.dinode m) i =
    if m = (s.icache ip).inum ∧ off ≤ i ∧ i < off + n then src (i - off)
    else s.fileByte (s.dinode m) i

theorem Updated.self {off n : Nat} (h : Updated ip src off n s t) : t.icache ip =
    { s.icache ip with
      d := { (s.icache ip).d with
        size := (t.icache ip).d.size
        addrs := (t.icache ip).d.addrs } } := by
  have := congrFun h.icache ip
  rwa [update_self] at this

theorem Updated.clean {off n : Nat} (h : Updated ip src off n s t) : t.Clean ip := by
  have hinum : (t.icache ip).inum = (s.icache ip).inum := by
    rw [h.self]
  unfold Fs.Clean
  rw [hinum, h.dinode, update_self]

/-- What is left of a file system without holes once bytes are written, if the inode with
its new size is on disk too. -/
theorem Wrote.sound {off n : Nat} (size : Word) {u : Fs} (hs : s.Sound) (hc : s.Clean ip)
    (hoff : off ≤ (s.icache ip).d.size.toNat) (h : Wrote ip src off n s t)
    (hsize : size.toNat = max (s.icache ip).d.size.toNat (off + n))
    (hsb : u.sb = t.sb) (hbit : u.bit = t.bit) (hblock : u.block = t.block)
    (hdinode : u.dinode = update s.dinode (s.icache ip).inum
      { (t.icache ip).d with size := size }) :
    u.Sound ∧ ∀ m, (s.dinode m).type ≠ .free → ∀ i, u.fileByte (u.dinode m) i =
      if m = (s.icache ip).inum ∧ off ≤ i ∧ i < off + n then src (i - off)
      else s.fileByte (s.dinode m) i := by
  have heff : s.eff ip = s.dinode := eff_of_clean hc
  have hsame : ∀ m, (u.dinode m).type = (t.eff ip m).type ∧
      (u.dinode m).addrs = (t.eff ip m).addrs := by
    intro m
    rw [hdinode]
    by_cases hm : m = (s.icache ip).inum
    · rw [hm, update_self, ← h.inum, eff_self]
      exact ⟨rfl, rfl⟩
    · have hm' : m ≠ (t.icache ip).inum := by rwa [h.inum]
      rw [update_of_ne hm, eff_of_ne hm', h.dinode]
      exact ⟨rfl, rfl⟩
  have htypes : ∀ m, (u.dinode m).type = (s.dinode m).type := by
    intro m
    rw [(hsame m).1, h.type, heff]
  have hblocks : ∀ m, u.blockOf (u.dinode m) = t.blockOf (t.eff ip m) :=
    fun m => Disk.blockOf_congr hblock (hsame m).2
  -- a block that was there is still there
  have hkeep : ∀ m bn, (s.dinode m).type ≠ .free → s.blockOf (s.dinode m) bn ≠ 0 →
      u.blockOf (u.dinode m) bn ≠ 0 := by
    intro m bn hm h0
    obtain ⟨sl, hsl, heq⟩ := Disk.exists_slot h0
    have hk := h.keeps m sl (by rwa [heff]) (by rw [heff]; exact heq ▸ h0)
    rwa [hblocks, Disk.blockOf_of_ofIndex hsl, hk, heff, ← heq]
  refine ⟨⟨h.alloc.congr hsb hbit hblock hsame, ?_⟩, ?_⟩
  · intro m hm bn hbn
    rw [htypes] at hm
    by_cases hmi : m = (s.icache ip).inum
    · subst hmi
      by_cases hin : bn * BSIZE < (s.icache ip).d.size.toNat
      · apply hkeep _ _ hm
        apply hs.full _ hm
        rwa [hc]
      · have hlt : bn * BSIZE < off + n := by
          rw [hdinode, update_self] at hbn
          dsimp only at hbn
          omega
        rw [hblocks, ← h.inum, eff_self]
        apply h.full
        refine mem_blocksIn.mpr ⟨bn * BSIZE - off, by omega, ?_⟩
        rw [Nat.add_sub_cancel' (by omega)]
        exact Nat.mul_div_cancel _ (by decide)
    · apply hkeep _ _ hm
      apply hs.full _ hm
      rwa [hdinode, update_of_ne hmi] at hbn
  · intro m hm i
    rw [Disk.fileByte_congr hblock (hsame m).2, h.bytes m (by rwa [heff]), heff]

/-- What `writei` logs: the blocks of the write, and the inode if the file grows. -/
def UpdateLogs (ip : InodePtr) (off n : Nat) (s t : Fs) : List Event → Prop :=
  Logs fun x => (∃ bn ∈ blocksIn off n, x = t.blockOf (t.icache ip).d bn) ∨
    (s.need (s.icache ip).d off n ≠ 0 ∧ x ∈ s.sb.bitmap) ∨
    ((∃ bn ∈ blocksIn off n, NDIRECT ≤ bn ∧ s.blockOf (s.icache ip).d bn = 0) ∧
      x = (t.icache ip).d.addrs (Fin.last NDIRECT)) ∨
    ((s.icache ip).d.size.toNat < off + n ∧ x = IBLOCK (s.icache ip).inum s.sb)

theorem WriteLogs.update {off n : Nat} {u : Fs} {ev : List Event} (h : WriteLogs ip off n s t ev)
    (hblock : u.block = t.block) (haddrs : (u.icache ip).d.addrs = (t.icache ip).d.addrs) :
    UpdateLogs ip off n s u ev := by
  refine Logs.mono h ?_
  rintro x (⟨bn, hbn, rfl⟩ | hx | ⟨hbn, rfl⟩)
  · exact Or.inl ⟨bn, hbn, by rw [Disk.blockOf_congr hblock haddrs]⟩
  · exact Or.inr (Or.inl hx)
  · exact Or.inr (Or.inr (Or.inl ⟨hbn, by rw [haddrs]⟩))

theorem WriteLogs.grown {off n x : Nat} {u : Fs} {ev : List Event}
    (h : WriteLogs ip off n s t ev) (hblock : u.block = t.block)
    (haddrs : (u.icache ip).d.addrs = (t.icache ip).d.addrs)
    (hgrow : (s.icache ip).d.size.toNat < off + n) (hx : x = IBLOCK (s.icache ip).inum s.sb) :
    UpdateLogs ip off n s u (ev ++ ([] ++ ([.logWrite x] ++ []))) := by
  refine Logs.append (h.update hblock haddrs) (Logs.nil.append (Logs.append (Logs.one ?_) Logs.nil))
  exact Or.inr (Or.inr (Or.inr ⟨hgrow, hx⟩))

theorem writei_ends {off n : Word} (hs : s.Sound) (hc : s.Clean ip)
    (htype : (s.icache ip).d.type ≠ .free) :
    Ends (writei ip src off n) s
      (fun r t ev =>
        if off > (s.icache ip).d.size ∨ off + n < off ∨ (off + n).toNat > MAXFILE * BSIZE then
          r = none ∧ t = s ∧ ev = []
        else r = some n.toNat ∧ Updated ip src off.toNat n.toNat s t ∧
          UpdateLogs ip off.toNat n.toNat s t ev)
      (fun f => f = outOfBlocks ∧ s.spare < s.need (s.icache ip).d off.toNat n.toNat) := by
  have heff : s.eff ip = s.dinode := eff_of_clean hc
  have ha : s.Alloc (s.eff ip) := heff ▸ hs.alloc
  refine ends_bind (ends_bind (ends_get (ends_pure ?_)))
  by_cases h₁ : off > (s.icache ip).d.size ∨ off + n < off
  · rw [if_pos h₁]
    refine ends_pure ?_
    rw [if_pos (by tauto)]
    exact ⟨rfl, rfl, rfl⟩
  · rw [if_neg h₁]
    by_cases h₂ : (off + n).toNat > MAXFILE * BSIZE
    · rw [if_pos h₂]
      refine ends_pure ?_
      rw [if_pos (by tauto)]
      exact ⟨rfl, rfl, rfl⟩
    · rw [if_neg h₂]
      have hcond : ¬ (off > (s.icache ip).d.size ∨ off + n < off ∨
          (off + n).toNat > MAXFILE * BSIZE) := by tauto
      simp only [if_neg hcond]
      obtain ⟨hoff, hsum⟩ := in_range h₁
      refine ends_bind ((writeLoop_ends src ha htype (Nat.le_refl _) (by omega)).mono ?_
        fun _ hf => hf)
      rintro _ t ev ⟨h, hlog⟩
      have hsb : t.sb = s.sb := by rw [h.rest]
      by_cases hgrow : n > 0 ∧ off + n > (s.icache ip).d.size
      · rw [if_pos hgrow]
        refine ends_bind (setDinode_ends (ends_bind (iupdate_ends (ends_pure ⟨rfl, ?_, ?_⟩))))
        rotate_left
        · refine hlog.grown ?_ ?_ ?_ ?_
          · rfl
          · simp only [update_self]
          · rw [← hsum]
            exact BitVec.lt_def.mp hgrow.2
          · simp only [update_self]
            rw [h.inum, hsb]
        have hgrow' : (s.icache ip).d.size.toNat < off.toNat + n.toNat := by
          rw [← hsum]
          exact BitVec.lt_def.mp hgrow.2
        have hsize : (off + n).toNat = max (s.icache ip).d.size.toNat (off.toNat + n.toNat) := by
          omega
        simp only [update_self]
        have hdinode : (t.setDinode (t.icache ip).inum
            { (t.icache ip).d with size := off + n }).dinode =
            update s.dinode (s.icache ip).inum
              { (t.icache ip).d with size := off + n } := by
          rw [Disk.dinode_setDinode, h.dinode, h.inum]
        obtain ⟨hsound, hbytes⟩ := h.sound _ (u := { t with
          toDisk := t.setDinode (t.icache ip).inum { (t.icache ip).d with size := off + n } })
          hs hc hoff hsize rfl rfl rfl hdinode
        refine ⟨?_, ?_, ?_, ?_, hsound, hbytes⟩
        · exact congrArg (fun u : Fs => ({ u with
            iblock := (t.setDinode (t.icache ip).inum
              { (t.icache ip).d with size := off + n }).iblock
            icache := update t.icache ip { t.icache ip with
              d := { (t.icache ip).d with size := off + n } } } : Fs)) h.rest
        · dsimp only
          rw [update_self, h.icache]
          simp
        · dsimp only
          rwa [update_self]
        · dsimp only
          rwa [update_self]
      · rw [if_neg hgrow]
        refine ends_pure ⟨rfl, ?_, by simpa using hlog.update rfl rfl⟩
        have hgrow' : off.toNat + n.toNat ≤ (s.icache ip).d.size.toNat := by
          by_contra hlt
          apply hgrow
          have hpos : 0 < n.toNat := by omega
          refine ⟨BitVec.lt_def.mpr hpos, BitVec.lt_def.mpr ?_⟩
          omega
        have hthere : ∀ bn ∈ blocksIn off.toNat n.toNat, s.blockOf (s.icache ip).d bn ≠ 0 := by
          intro bn hbn
          obtain ⟨i, hi, rfl⟩ := mem_blocksIn.mp hbn
          have halive : (s.dinode (s.icache ip).inum).type ≠ .free := by
            rwa [hc]
          have := hs.full _ halive ((off.toNat + i) / BSIZE)
          rw [hc] at this
          apply this
          have := Nat.div_mul_le_self (off.toNat + i) BSIZE
          omega
        obtain ⟨hicache, hbit⟩ := h.same hthere
        have hdinode : t.dinode = update s.dinode (s.icache ip).inum
            { (t.icache ip).d with size := (s.icache ip).d.size } := by
          rw [h.dinode, hicache]
          rw [← hc]
          exact (update_eq_self ..).symm
        obtain ⟨hsound, hbytes⟩ := h.sound _ hs hc hoff (by omega) rfl rfl rfl hdinode
        refine ⟨?_, ?_, ?_, ?_, hsound, hbytes⟩
        · have hiblock : t.iblock = s.iblock := by rw [h.rest]
          rw [hiblock]
          exact h.rest
        · rw [hicache]
          exact (update_eq_self ..).symm
        · rw [hicache]
          omega
        · rw [hdinode, hicache]

theorem writei_refused {off n : Word}
    (h : off > (s.icache ip).d.size ∨ off + n < off ∨ (off + n).toNat > MAXFILE * BSIZE) :
    writei ip src off n s = .ok (none, s, []) := by
  have hends : Ends (writei ip src off n) s (fun r t ev => r = none ∧ t = s ∧ ev = [])
      (fun _ => False) := by
    refine ends_bind (ends_bind (ends_get (ends_pure ?_)))
    split
    · exact ends_pure ⟨rfl, rfl, rfl⟩
    · next h₁ =>
      have h₂ : (off + n).toNat > MAXFILE * BSIZE := by tauto
      rw [if_pos h₂]
      exact ends_pure ⟨rfl, rfl, rfl⟩
  obtain ⟨r, t, ev, heq, rfl, rfl, rfl⟩ := hends.ok
  exact heq

/-! ## Contents -/

/-- `n` bytes at `off` of a file are replaced, beyond its end if need be. -/
def overwrite (old : List Byte) (off n : Nat) (src : Nat → Byte) : List Byte :=
  (List.range (max old.length (off + n))).map fun i =>
    if off ≤ i ∧ i < off + n then src (i - off) else old.getD i 0

theorem content_length {s : Disk} {d : Dinode} : (s.content d).length = d.size.toNat := by
  simp [Disk.content]

theorem content_getD {s : Disk} {d : Dinode} {i : Nat} (h : i < d.size.toNat) :
    (s.content d).getD i 0 = s.fileByte d i := by
  simp [Disk.content, List.getD, h]

theorem Updated.content {off n : Nat} (h : Updated ip src off n s t) (hc : s.Clean ip)
    (htype : (s.icache ip).d.type ≠ .free) (hoff : off ≤ (s.icache ip).d.size.toNat) :
    t.content (t.icache ip).d = overwrite (s.content (s.icache ip).d) off n src := by
  have halive : (s.dinode (s.icache ip).inum).type ≠ .free := by
    rwa [hc]
  unfold Disk.content overwrite
  rw [h.size, List.length_map, List.length_range]
  apply List.map_congr_left
  intro i hi
  have hb := h.bytes (s.icache ip).inum halive i
  rw [h.dinode, update_self, hc] at hb
  rw [hb]
  by_cases hin : off ≤ i ∧ i < off + n
  · rw [if_pos ⟨rfl, hin⟩, if_pos hin]
  · have hlt : i < (s.icache ip).d.size.toNat := by
      have := List.mem_range.mp hi
      omega
    rw [if_neg fun hh => hin hh.2, if_neg hin]
    exact (content_getD hlt).symm

theorem Updated.content_of_ne {off n m : Nat} (h : Updated ip src off n s t)
    (hm : m ≠ (s.icache ip).inum) (halive : (s.dinode m).type ≠ .free) :
    t.content (t.dinode m) = s.content (s.dinode m) := by
  have hsame : t.dinode m = s.dinode m := by rw [h.dinode, update_of_ne hm]
  rw [hsame]
  apply List.map_congr_left
  intro i _
  have hb := h.bytes m halive i
  rwa [hsame, if_neg fun hh => hm hh.1] at hb

theorem take_drop_content {s : Disk} {d : Dinode} {off n : Nat} :
    ((s.content d).drop off).take n =
      (List.range (min n (d.size.toNat - off))).map fun i => s.fileByte d (off + i) := by
  apply List.ext_getElem
  · simp [Disk.content]
  · intro i h₁ h₂
    simp [Disk.content]

/-- Files are arrays of bytes: what `writei` and `readi` return and what they change. -/
theorem files_are_byte_arrays (hs : s.Sound) (hc : s.Clean ip)
    (htype : (s.icache ip).d.type = .file ∨ (s.icache ip).d.type = .dir)
    (src : Nat → Byte) (off n : Word) :
    (off > (s.icache ip).d.size ∨ off + n < off ∨ (off + n).toNat > MAXFILE * BSIZE →
      writei ip src off n s = .ok (none, s, [])) ∧
    (¬ (off > (s.icache ip).d.size ∨ off + n < off ∨ (off + n).toNat > MAXFILE * BSIZE) →
      s.need (s.icache ip).d off.toNat n.toNat ≤ s.spare →
      ∃ t ev, writei ip src off n s = .ok (some n.toNat, t, ev) ∧
        t.content (t.icache ip).d =
          overwrite (s.content (s.icache ip).d) off.toNat n.toNat src ∧
        ∀ m, m ≠ (s.icache ip).inum → (s.dinode m).type ≠ .free →
          t.dinode m = s.dinode m ∧ t.content (t.dinode m) = s.content (s.dinode m)) ∧
    (off > (s.icache ip).d.size ∨ off + n < off → ∃ ev, readi ip off n s = .ok (none, s, ev)) ∧
    (¬ (off > (s.icache ip).d.size ∨ off + n < off) →
      ∃ x ev, readi ip off n s = .ok (some x, s, ev) ∧
        x.length = min n.toNat ((s.icache ip).d.size.toNat - off.toNat) ∧
        x = ((s.content (s.icache ip).d).drop off.toNat).take n.toNat) := by
  have halive : (s.icache ip).d.type ≠ .free := by
    rcases htype with h | h
    · rw [h]
      exact FileType.noConfusion
    · rw [h]
      exact FileType.noConfusion
  have hread := readi_ends off n (readable hs hc halive)
  obtain ⟨r, t, ev, hr, rfl, -, hval⟩ := hread.ok
  refine ⟨writei_refused, ?_, ?_, ?_⟩
  · intro hok hspare
    obtain ⟨r, u, ev, hr, hu⟩ := Ends.ok ((writei_ends hs hc halive).mono
      (fun _ _ _ h => h) fun _ hf => absurd hf.2 (Nat.not_lt.mpr hspare))
    rw [if_neg hok] at hu
    obtain ⟨rfl, hup, -⟩ := hu
    have hoff := (in_range fun h => hok (h.imp_right Or.inl)).1
    refine ⟨u, ev, hr, hup.content hc halive hoff, ?_⟩
    intro m hm hma
    refine ⟨?_, hup.content_of_ne hm hma⟩
    rw [hup.dinode, update_of_ne hm]
  · intro h
    rw [if_pos h] at hval
    subst hval
    exact ⟨ev, hr⟩
  · intro h
    rw [if_neg h] at hval
    subst hval
    refine ⟨_, ev, hr, ?_, ?_⟩
    · simp
    · exact take_drop_content.symm

/-- The first byte of an empty file. -/
theorem first_byte_of_file : ∃ t ev,
    writei 0 (fun _ => 7) 0 1 (fresh .file) = .ok (some 1, t, ev) ∧
      t.content (t.icache 0).d = [7] := by
  have hspare : (fresh .file).need ((fresh .file).icache 0).d 0 1 ≤ (fresh .file).spare := by
    have hneed : (fresh .file).need ((fresh .file).icache 0).d 0 1 = 1 := by decide
    rw [hneed]
    apply Finset.card_pos.mpr
    exact ⟨1999, Finset.mem_filter.mpr ⟨Finset.mem_range.mpr (by decide), by decide⟩⟩
  obtain ⟨t, ev, hwrite, hcontent, -⟩ := (files_are_byte_arrays (fresh_sound .file)
    (fresh_clean .file) (Or.inl rfl) (fun _ => 7) 0 1).2.1 (by decide) hspare
  exact ⟨t, ev, hwrite, hcontent⟩

end FsM

end Xv6
