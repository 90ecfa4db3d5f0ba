import Xv6.Fs.Blocks

/-!
# `balloc` and `bmap`

While an inode is locked its copy in the cache may have blocks that the inode on disk does
not have yet. `Fs.eff` are the inodes with that copy in the place of the one on disk;
`bmap` keeps the free map right for them (`Grew`).
-/

open Function (update update_of_ne update_self update_eq_self update_idem)

namespace Xv6

/-- The number of blocks that `bmap` has to allocate. -/
def Disk.cost (s : Disk) (d : Dinode) (bn : Nat) : Nat :=
  (if s.blockOf d bn = 0 then 1 else 0) +
    if NDIRECT ≤ bn ∧ d.addrs (Fin.last NDIRECT) = 0 then 1 else 0

def Superblock.bitmap (sb : Superblock) : Finset Nat := (Finset.range sb.size).image (BBLOCK · sb)

namespace Fs

/-- All that happened is that blocks of `B` were logged. -/
def Logs (B : Nat → Prop) (ev : List Event) : Prop := ∀ e ∈ ev, ∃ b, B b ∧ e = .logWrite b

namespace Logs

variable {B C : Nat → Prop} {ev ev' : List Event}

theorem nil : Logs B [] := by
  intro e he
  cases he

theorem one {b : Nat} (hb : B b) : Logs B [.logWrite b] := by
  intro e he
  exact ⟨b, hb, List.mem_singleton.mp he⟩

theorem append (h : Logs B ev) (h' : Logs B ev') : Logs B (ev ++ ev') :=
  fun e he => (List.mem_append.mp he).elim (h e) (h' e)

theorem mono (h : Logs B ev) (hB : ∀ b, B b → C b) : Logs C ev := by
  intro e he
  obtain ⟨b, hb, rfl⟩ := h e he
  exact ⟨b, hB b hb, rfl⟩

theorem eq_nil (h : Logs (fun _ => False) ev) : ev = [] := by
  apply List.eq_nil_iff_forall_not_mem.mpr
  intro e he
  obtain ⟨b, hb, -⟩ := h e he
  exact hb

end Logs

def eff (s : Fs) (ip : InodePtr) : Nat → Dinode :=
  update s.dinode (s.icache ip).inum (s.icache ip).d

def outOfBlocks : Fault := .panic "balloc: out of blocks"

variable {s t u : Fs} {ip : InodePtr} {m : Nat}

@[simp] theorem eff_self : s.eff ip (s.icache ip).inum = (s.icache ip).d :=
  update_self ..

theorem eff_of_ne (h : m ≠ (s.icache ip).inum) : s.eff ip m = s.dinode m :=
  update_of_ne h ..

/-- Blocks were allocated for the locked inode, and nothing else has changed. -/
structure Grew (ip : InodePtr) (s t : Fs) : Prop where
  rest : t = { s with bit := t.bit, block := t.block, icache := t.icache }
  icache : t.icache = update s.icache ip
    { s.icache ip with d := { (s.icache ip).d with addrs := (t.icache ip).d.addrs } }
  alloc : t.Alloc (t.eff ip)
  keeps : ∀ m sl, (s.eff ip m).type ≠ .free → s.slot (s.eff ip m) sl ≠ 0 →
    t.slot (t.eff ip m) sl = s.slot (s.eff ip m) sl
  bytes : ∀ m, (s.eff ip m).type ≠ .free → ∀ i,
    t.fileByte (t.eff ip m) i = s.fileByte (s.eff ip m) i

namespace Grew

theorem refl (h : s.Alloc (s.eff ip)) : Grew ip s s :=
  ⟨rfl, (update_eq_self ip s.icache).symm, h, fun _ _ _ _ => rfl, fun _ _ _ => rfl⟩

theorem sb (h : Grew ip s t) : t.sb = s.sb := by
  rw [h.rest]

theorem dinode (h : Grew ip s t) : t.dinode = s.dinode := by
  rw [h.rest]
  rfl

theorem self (h : Grew ip s t) : t.icache ip =
    { s.icache ip with d := { (s.icache ip).d with addrs := (t.icache ip).d.addrs } } := by
  have := congrFun h.icache ip
  rwa [update_self] at this

theorem inum (h : Grew ip s t) : (t.icache ip).inum = (s.icache ip).inum := by
  rw [h.self]

theorem type (h : Grew ip s t) (m : Nat) : (t.eff ip m).type = (s.eff ip m).type := by
  by_cases hm : m = (s.icache ip).inum
  · have hm' : m = (t.icache ip).inum := by rw [h.inum, hm]
    rw [hm, eff_self, ← hm, hm', eff_self, h.self]
  · have hm' : m ≠ (t.icache ip).inum := by rwa [h.inum]
    rw [eff_of_ne hm, eff_of_ne hm', h.dinode]

theorem trans (h : Grew ip s t) (h' : Grew ip t u) : Grew ip s u := by
  refine ⟨?_, ?_, h'.alloc, ?_, ?_⟩
  · rw [h'.rest, h.rest]
  · rw [h'.icache, h.icache]
    simp
  · intro m sl hm h0
    have hm' : (t.eff ip m).type ≠ .free := by rwa [h.type]
    have h0' := h.keeps m sl hm h0
    rw [h'.keeps m sl hm' (h0' ▸ h0), h0']
  · intro m hm i
    have hm' : (t.eff ip m).type ≠ .free := by rwa [h.type]
    rw [h'.bytes m hm', h.bytes m hm]

theorem of_take {sl : BlockSlot} {b : Nat} (ha : s.Alloc (s.eff ip))
    (hrest : t = { s with bit := t.bit, block := t.block, icache := t.icache })
    (hicache : t.icache = update s.icache ip
      { s.icache ip with d := { (s.icache ip).d with addrs := (t.icache ip).d.addrs } })
    (h : Disk.Take s.toDisk t.toDisk (s.eff ip) (t.eff ip) ((s.icache ip).inum, sl) b) :
    Grew ip s t := by
  refine ⟨hrest, hicache, h.alloc ha, ?_, ?_⟩
  · intro m sl' hm h0
    rw [h.slot m sl' hm, if_neg]
    intro heq
    have hempty := h.empty
    simp only [Prod.mk.injEq] at heq
    rw [← heq.1, ← heq.2] at hempty
    exact h0 hempty
  · intro m hm i
    exact h.fileByte ha hm i

end Grew

structure Filled (ip : InodePtr) (sl : BlockSlot) (s : Fs) (b : Nat) (t : Fs) : Prop where
  grew : Grew ip s t
  eq : b = t.slot (t.icache ip).d sl
  ne : b ≠ 0
  take : s.slot (s.icache ip).d sl = 0 →
    Disk.Take s.toDisk t.toDisk (s.eff ip) (t.eff ip) ((s.icache ip).inum, sl) b
  same : s.slot (s.icache ip).d sl ≠ 0 → t = s

namespace Filled

variable {sl sl' : BlockSlot} {b bn : Nat}

theorem slot_of_ne (h : Filled ip sl s b t) (htype : (s.icache ip).d.type ≠ .free)
    (hne : sl' ≠ sl) : t.slot (t.icache ip).d sl' = s.slot (s.icache ip).d sl' := by
  by_cases h0 : s.slot (s.icache ip).d sl = 0
  · have hb := (h.take h0).slot (s.icache ip).inum sl' (by rwa [eff_self])
    rw [if_neg fun heq => hne (Prod.mk.inj heq).2, eff_self, ← h.grew.inum, eff_self] at hb
    exact hb
  · rw [h.same h0]

theorem blockOf_of_ne (h : Filled ip sl s b t) (htype : (s.icache ip).d.type ≠ .free)
    (hne : BlockSlot.ofIndex bn ≠ some sl) :
    t.blockOf (t.icache ip).d bn = s.blockOf (s.icache ip).d bn := by
  by_cases h0 : s.slot (s.icache ip).d sl = 0
  · have htype' : (s.eff ip (s.icache ip).inum).type ≠ .free := by rwa [eff_self]
    have hb : t.blockOf (t.eff ip (s.icache ip).inum) bn = _ := (h.take h0).blockOf htype'
    rw [eff_self, ← h.grew.inum, eff_self] at hb
    rw [hb]
    simp [hne]
  · rw [h.same h0]

theorem spare (h : Filled ip sl s b t) :
    t.spare + (if s.slot (s.icache ip).d sl = 0 then 1 else 0) = s.spare := by
  split
  · next h0 => exact (h.take h0).spare
  · next h0 => rw [h.same h0, Nat.add_zero]

end Filled

end Fs

namespace FsM

open Effect Fs

variable {s : Fs} {ip : InodePtr}

section Simple

variable {Q : Unit → Fs → List Fs.Event → Prop} {X : Fault → Prop}

theorem setInode_ends {f : Inode → Inode}
    (h : Q () { s with icache := update s.icache ip (f (s.icache ip)) } []) :
    Ends (setInode ip f) s Q X := h

theorem setDinode_ends {f : Dinode → Dinode}
    (h : Q () { s with
      icache := update s.icache ip
        { s.icache ip with d := f (s.icache ip).d } } []) :
    Ends (setDinode ip f) s Q X := h

theorem iupdate_ends
    (h : Q () { s with toDisk := s.setDinode (s.icache ip).inum (s.icache ip).d }
      [.logWrite (IBLOCK (s.icache ip).inum s.sb)]) :
    Ends (iupdate ip) s Q X := h

end Simple

theorem balloc_ends : Ends balloc s
    (fun b t ev => s.bit b = false ∧ b < s.sb.size ∧
      (t = { s with
        bit := update s.bit b true
        block := update s.block b .zero }) ∧
      Logs (fun x => x = b ∨ x ∈ s.sb.bitmap) ev)
    (fun f => f = outOfBlocks ∧ s.spare = 0) := by
  apply ends_bind
  apply ends_get
  split
  · next b hfind =>
    have hb : s.bit b = false := by simpa using List.find?_some hfind
    have hlt : b < s.sb.size := List.mem_range.mp (List.mem_of_find?_eq_some hfind)
    have hmap : BBLOCK b s.sb ∈ s.sb.bitmap :=
      Finset.mem_image.mpr ⟨b, Finset.mem_range.mpr hlt, rfl⟩
    refine ends_bind (ends_modify (ends_bind (ends_emit (ends_bind ?_))))
    refine ends_bind (ends_modify (ends_emit (ends_pure ⟨hb, hlt, rfl, ?_⟩)))
    exact (Logs.one (Or.inr hmap)).append (Logs.one (Or.inl rfl))
  · next hfind =>
    refine ends_fail ⟨rfl, ?_⟩
    apply Finset.card_eq_zero.mpr
    apply Finset.filter_eq_empty_iff.mpr
    intro b hb
    have := List.find?_eq_none.mp hfind b (List.mem_range.mpr (Finset.mem_range.mp hb))
    simpa using this

def tookAddr (s : Fs) (ip : InodePtr) (i : Fin (NDIRECT + 1)) (b : Nat) : Fs :=
  { s with
    bit := update s.bit b true
    block := update s.block b .zero
    icache := update s.icache ip
      { s.icache ip with
        d := { (s.icache ip).d with addrs := update (s.icache ip).d.addrs i b } } }

theorem tookAddr_eff {i : Fin (NDIRECT + 1)} {b : Nat} : (tookAddr s ip i b).eff ip =
    update (s.eff ip) (s.icache ip).inum
      { s.eff ip (s.icache ip).inum with
        addrs := update (s.eff ip (s.icache ip).inum).addrs i b } := by
  unfold eff tookAddr
  rw [update_idem]
  simp only [update_self]
  rfl

theorem addrOf_ends {i : Fin (NDIRECT + 1)} (ha : s.Alloc (s.eff ip))
    (htype : (s.icache ip).d.type ≠ .free) : Ends (addrOf ip i) s
    (fun b t ev => Filled ip (.addr i) s b t ∧
      Logs (fun x => (s.icache ip).d.addrs i = 0 ∧ (x = b ∨ x ∈ s.sb.bitmap)) ev)
    (fun f => f = outOfBlocks ∧ (s.icache ip).d.addrs i = 0 ∧ s.spare = 0) := by
  refine ends_bind (ends_bind (ends_get (ends_pure ?_)))
  by_cases h0 : (s.icache ip).d.addrs i = 0
  · rw [if_pos h0]
    refine ends_bind (balloc_ends.mono ?_ ?_)
    · rintro b t ev ⟨hb, hlt, rfl, hlog⟩
      refine ends_bind (ends_modify (ends_pure ?_))
      have htype' : (s.eff ip (s.icache ip).inum).type ≠ .free := by rwa [eff_self]
      have h0' : (s.eff ip (s.icache ip).inum).addrs i = 0 := by rwa [eff_self]
      have htake := Disk.take_addr ha htype' h0' hb hlt
      rw [← tookAddr_eff] at htake
      refine ⟨⟨Grew.of_take ha rfl ?_ htake, ?_, ha.pos hb hlt, fun _ => htake,
        fun hne => absurd h0 hne⟩, ?_⟩
      · simp
      · simp [Disk.slot]
      · simpa using hlog.mono fun x hx => ⟨h0, hx⟩
    · rintro f ⟨hf, hs⟩
      exact ⟨hf, h0, hs⟩
  · rw [if_neg h0]
    exact ends_pure ⟨⟨.refl ha, rfl, h0, fun hz => absurd hz h0, fun _ => rfl⟩, Logs.nil⟩

theorem entryOf_ends {j : Fin (BSIZE / 4)} (ha : s.Alloc (s.eff ip))
    (htype : (s.icache ip).d.type ≠ .free)
    (hind : (s.icache ip).d.addrs (Fin.last NDIRECT) ≠ 0) :
    Ends (entryOf ((s.icache ip).d.addrs (Fin.last NDIRECT)) j) s
    (fun b t ev => Filled ip (.entry j) s b t ∧
      Logs (fun x => s.slot (s.icache ip).d (.entry j) = 0 ∧
        (x = b ∨ x ∈ s.sb.bitmap ∨ x = (s.icache ip).d.addrs (Fin.last NDIRECT))) ev)
    (fun f => f = outOfBlocks ∧ s.slot (s.icache ip).d (.entry j) = 0 ∧ s.spare = 0) := by
  have hslot : s.slot (s.icache ip).d (.entry j) =
      (s.block ((s.icache ip).d.addrs (Fin.last NDIRECT)) j).toNat := by
    simp [Disk.slot, Disk.indirect, hind]
  refine ends_bind (ends_get ?_)
  by_cases h0 : (s.block ((s.icache ip).d.addrs (Fin.last NDIRECT)) j).toNat = 0
  · rw [if_pos h0]
    rw [← hslot] at h0
    refine ends_bind (balloc_ends.mono ?_ ?_)
    · rintro b t ev ⟨hb, hlt, rfl, hlog⟩
      refine ends_bind (ends_modify (ends_bind (ends_emit (ends_pure ?_))))
      have htype' : (s.eff ip (s.icache ip).inum).type ≠ .free := by rwa [eff_self]
      have hind' : (s.eff ip (s.icache ip).inum).addrs (Fin.last NDIRECT) ≠ 0 := by
        rwa [eff_self]
      have h0' : (s.block ((s.eff ip (s.icache ip).inum).addrs (Fin.last NDIRECT)) j).toNat = 0 :=
        by rwa [eff_self, ← hslot]
      have htake := Disk.take_entry ha htype' hind' h0' hb hlt
      have hib : (s.icache ip).d.addrs (Fin.last NDIRECT) ≠ b := by
        have := ha.slot_ne htype' (.addr (Fin.last NDIRECT)) hb (ha.pos hb hlt)
        rwa [eff_self] at this
      rw [eff_self] at htake
      dsimp only
      rw [update_of_ne hib]
      have hval := htake.slot (s.icache ip).inum (.entry j) htype'
      rw [if_pos rfl, eff_self] at hval
      refine ⟨⟨Grew.of_take ha rfl ?_ htake, hval.symm, ha.pos hb hlt, fun _ => htake,
        fun hne => absurd h0 hne⟩, ?_⟩
      · exact (update_eq_self ip s.icache).symm
      · refine (hlog.mono fun x hx => ⟨h0, hx.imp_right Or.inl⟩).append ?_
        exact Logs.nil.append (Logs.one ⟨h0, Or.inr (Or.inr rfl)⟩)
    · rintro f ⟨hf, hs⟩
      exact ⟨hf, h0, hs⟩
  · rw [if_neg h0]
    refine ends_pure ⟨⟨.refl ha, hslot.symm, h0, fun hz => absurd (hslot ▸ hz) h0,
      fun _ => rfl⟩, Logs.nil⟩

/-- What `bmap` logs, if it allocates: the new block, the free map and the indirect block. -/
def MapLogs (ip : InodePtr) (bn : Nat) (s : Fs) (b : Nat) (t : Fs) : List Event → Prop :=
  Logs fun x => s.blockOf (s.icache ip).d bn = 0 ∧ (x = b ∨ x ∈ s.sb.bitmap ∨
    (NDIRECT ≤ bn ∧ x = (t.icache ip).d.addrs (Fin.last NDIRECT)))

theorem MapLogs.nil {bn b : Nat} {t : Fs} {ev : List Event} (h : MapLogs ip bn s b t ev)
    (h0 : s.blockOf (s.icache ip).d bn ≠ 0) : ev = [] :=
  Logs.eq_nil (h.mono fun _ hx => h0 hx.1)

structure Mapped (ip : InodePtr) (bn : Nat) (s : Fs) (b : Nat) (t : Fs) : Prop where
  grew : Grew ip s t
  eq : b = t.blockOf (t.icache ip).d bn
  ne : b ≠ 0
  others : ∀ bn', bn' ≠ bn → t.blockOf (t.icache ip).d bn' = s.blockOf (s.icache ip).d bn'
  last : (t.icache ip).d.addrs (Fin.last NDIRECT) = 0 ↔
    (s.icache ip).d.addrs (Fin.last NDIRECT) = 0 ∧ bn < NDIRECT
  spare : t.spare + s.cost (s.icache ip).d bn = s.spare
  same : s.blockOf (s.icache ip).d bn ≠ 0 → t = s

theorem bmap_direct_ends {bn : Nat} (ha : s.Alloc (s.eff ip))
    (htype : (s.icache ip).d.type ≠ .free) (hbn : bn < NDIRECT) :
    Ends (addrOf ip (Fin.ofNat (NDIRECT + 1) bn)) s
      (fun b t ev => Mapped ip bn s b t ∧ MapLogs ip bn s b t ev)
      (fun f => f = outOfBlocks ∧ s.spare < s.cost (s.icache ip).d bn) := by
  have hsl : BlockSlot.ofIndex bn = some (.addr (Fin.ofNat (NDIRECT + 1) bn)) := by
    unfold BlockSlot.ofIndex
    rw [if_pos hbn]
  have hold : s.blockOf (s.icache ip).d bn =
      (s.icache ip).d.addrs (Fin.ofNat (NDIRECT + 1) bn) := Disk.blockOf_of_ofIndex hsl
  have hlast : BlockSlot.addr (Fin.last NDIRECT) ≠ .addr (Fin.ofNat (NDIRECT + 1) bn) :=
    fun heq => Disk.ofIndex_ne_last (heq ▸ hsl)
  have hcost : s.cost (s.icache ip).d bn =
      if (s.icache ip).d.addrs (Fin.ofNat (NDIRECT + 1) bn) = 0 then 1 else 0 := by
    unfold Disk.cost
    rw [hold, if_neg (c := NDIRECT ≤ bn ∧ _) (by omega), Nat.add_zero]
  refine (addrOf_ends ha htype).mono ?_ ?_
  · rintro b t ev ⟨hfill, hlog⟩
    refine ⟨⟨hfill.grew, ?_, hfill.ne, fun bn' hbn' => ?_, ?_, ?_, fun h0 => ?_⟩, ?_⟩
    · rw [hfill.eq]
      exact (Disk.blockOf_of_ofIndex hsl).symm
    · exact hfill.blockOf_of_ne htype fun heq => hbn' (Disk.ofIndex_inj heq hsl)
    · have hkeep : (t.icache ip).d.addrs _ = (s.icache ip).d.addrs _ :=
        hfill.slot_of_ne htype hlast
      rw [hkeep]
      simp [hbn]
    · rw [hcost]
      exact hfill.spare
    · rw [hold] at h0
      exact hfill.same h0
    · rw [← hold] at hlog
      exact hlog.mono fun x hx => ⟨hx.1, hx.2.imp_right Or.inl⟩
  · rintro f ⟨hf, h0, hs⟩
    refine ⟨hf, ?_⟩
    rw [hcost, if_pos h0, hs]
    exact Nat.one_pos

theorem bmap_ends {bn : Nat} (ha : s.Alloc (s.eff ip)) (htype : (s.icache ip).d.type ≠ .free)
    (hbn : bn < MAXFILE) :
    Ends (bmap ip bn) s (fun b t ev => Mapped ip bn s b t ∧ MapLogs ip bn s b t ev)
      (fun f => f = outOfBlocks ∧ s.spare < s.cost (s.icache ip).d bn) := by
  unfold bmap
  split
  · next hlt => exact bmap_direct_ends ha htype hlt
  · next hge =>
    have hin : bn - NDIRECT < NINDIRECT := by
      unfold MAXFILE at hbn
      omega
    rw [if_pos hin]
    have hsl : BlockSlot.ofIndex bn = some (.entry (Fin.ofNat (BSIZE / 4) (bn - NDIRECT))) := by
      unfold BlockSlot.ofIndex
      rw [if_neg hge, if_pos hin]
    have hold : s.blockOf (s.icache ip).d bn =
        s.slot (s.icache ip).d (.entry (Fin.ofNat (BSIZE / 4) (bn - NDIRECT))) :=
      Disk.blockOf_of_ofIndex hsl
    refine ends_bind ((addrOf_ends ha htype).mono ?_ ?_)
    · rintro ind t ev ⟨hfill, hlog⟩
      obtain rfl : ind = (t.icache ip).d.addrs (Fin.last NDIRECT) := hfill.eq
      have htype' : (t.icache ip).d.type ≠ .free := by rwa [hfill.grew.self]
      -- the entry is as it was: a new indirect block is all zeros
      have hentry : t.slot (t.icache ip).d (.entry (Fin.ofNat (BSIZE / 4) (bn - NDIRECT))) =
          s.slot (s.icache ip).d (.entry (Fin.ofNat (BSIZE / 4) (bn - NDIRECT))) :=
        hfill.slot_of_ne htype BlockSlot.noConfusion
      have hspare : t.spare +
          (if (s.icache ip).d.addrs (Fin.last NDIRECT) = 0 then 1 else 0) = s.spare := hfill.spare
      have hcost : s.cost (s.icache ip).d bn =
          (if s.slot (s.icache ip).d (.entry (Fin.ofNat (BSIZE / 4) (bn - NDIRECT))) = 0 then 1
            else 0) + if (s.icache ip).d.addrs (Fin.last NDIRECT) = 0 then 1 else 0 := by
        unfold Disk.cost
        rw [hold]
        simp [Nat.not_lt.mp hge]
      have hbare : (s.icache ip).d.addrs (Fin.last NDIRECT) = 0 →
          s.blockOf (s.icache ip).d bn = 0 := by
        intro hz
        rw [hold]
        simp [Disk.slot, Disk.indirect, hz, Block.zero]
      refine (entryOf_ends hfill.grew.alloc htype' hfill.ne).mono ?_ ?_
      · rintro b u ev' ⟨hfill', hlog'⟩
        have hother : BlockSlot.addr (Fin.last NDIRECT) ≠
            .entry (Fin.ofNat (BSIZE / 4) (bn - NDIRECT)) := BlockSlot.noConfusion
        have hkeep : (u.icache ip).d.addrs (Fin.last NDIRECT) =
            (t.icache ip).d.addrs (Fin.last NDIRECT) := hfill'.slot_of_ne htype' hother
        refine ⟨⟨hfill.grew.trans hfill'.grew, ?_, hfill'.ne, fun bn' hbn' => ?_, ?_, ?_,
          fun h0 => ?_⟩, ?_⟩
        · rw [hfill'.eq]
          exact (Disk.blockOf_of_ofIndex hsl).symm
        · rw [hfill'.blockOf_of_ne htype' fun heq => hbn' (Disk.ofIndex_inj heq hsl)]
          exact hfill.blockOf_of_ne htype Disk.ofIndex_ne_last
        · rw [hkeep]
          simp [show (t.icache ip).d.addrs (Fin.last NDIRECT) ≠ 0 from hfill.ne, hge]
        · have hspare' := hfill'.spare
          rw [hentry] at hspare'
          rw [hcost, ← hspare, ← hspare']
          omega
        · have hts : t = s := hfill.same fun hz => h0 (hbare hz)
          rw [hold, ← hentry] at h0
          rw [hfill'.same h0, hts]
        · rw [hentry, ← hold, hfill.grew.sb] at hlog'
          refine Logs.append (hlog.mono ?_) (hlog'.mono ?_)
          · rintro x ⟨hz, rfl | hx⟩
            · exact ⟨hbare hz, Or.inr (Or.inr ⟨Nat.not_lt.mp hge, hkeep.symm⟩)⟩
            · exact ⟨hbare hz, Or.inr (Or.inl hx)⟩
          · rintro x ⟨hz, hx⟩
            refine ⟨hz, hx.imp_right fun hx => hx.imp_right fun hx => ?_⟩
            exact ⟨Nat.not_lt.mp hge, hx.trans hkeep.symm⟩
      · rintro f ⟨hf, h0, hs⟩
        refine ⟨hf, ?_⟩
        rw [hentry] at h0
        rw [hcost, if_pos h0, ← hspare, hs]
        omega
    · rintro f ⟨hf, h0, hs⟩
      refine ⟨hf, ?_⟩
      unfold Disk.cost
      rw [hs]
      simp [h0, Nat.not_lt.mp hge]

end FsM

end Xv6
