import Xv6.Mkfs.View

/-!
# `iappend` is a write of the kernel

The blocks that `iappend` takes, and the bytes it moves into them, are those of the loop of
`writei` on the disk that the image is, so what the kernel's loop guarantees holds of the image.
-/

open Function (update update_of_ne update_self update_idem)

namespace Xv6

namespace Mkfs

open Effect FsM

variable {s s' : State} {inum fbn off : Nat} {d din din' : Dinode} {p : List Byte}

/-! ## Sectors of data -/

variable {sec : Nat}

theorem view_wsect {buf : Block} (h : nmeta ≤ sec) :
    view (wsect s sec buf) =
      { view s with block := update (view s).block sec buf } := by
  unfold view wsect
  simp only [Disk.mk.injEq, true_and]
  constructor
  · funext n i
    by_cases hn : sb.inodestart ≤ n ∧ n < sb.bmapstart
    · have : sb.bmapstart < nmeta := by decide
      rw [if_pos hn, if_pos hn, update_of_ne (by omega)]
    · rw [if_neg hn, if_neg hn]
  · funext n
    by_cases hn : n = sec
    · rw [hn, update_self, update_self, if_neg (by omega)]
    · rw [update_of_ne hn, update_of_ne hn]

theorem kern_wsect {buf : Block} (h : nmeta ≤ sec) :
    kern (wsect s sec buf) inum din =
      { kern s inum din with block := update (kern s inum din).block sec buf } := by
  unfold kern
  rw [view_wsect h]

theorem kern_block (s : State) (inum : Nat) (din : Dinode) (h : nmeta ≤ sec) :
    (kern s inum din).block sec = s.sect sec :=
  if_neg (by omega)

theorem ready_wsect (hs : Ready s) {buf : Block} (h : nmeta ≤ sec)
    (hlt : sec < s.freeblock) : Ready (wsect s sec buf) := by
  have hmeta : nmeta = 59 := rfl
  have hlimit := hs.limit
  constructor
  · show max s.nsect (sec + 1) = FSSIZE
    rw [hs.nsect]
    omega
  · show (update s.sect _ _ 1).superblock = sb
    rw [update_of_ne (by omega), hs.super]
  · exact hs.data
  · exact hs.limit
  · intro b hb
    have hb' : s.freeblock ≤ b := hb
    show update s.sect _ _ b = Block.zero
    rw [update_of_ne (by omega)]
    exact hs.fresh b hb'

theorem ready_next (hs : Ready s) (h : s.freeblock < FSSIZE) :
    Ready { s with freeblock := s.freeblock + 1 } := by
  refine ⟨hs.nsect, hs.super, Nat.le_succ_of_le hs.data, h, fun b hb => ?_⟩
  have hb' : s.freeblock + 1 ≤ b := hb
  exact hs.fresh b (by omega)

theorem eff_kern (s : State) (inum : Nat) (din : Dinode) : (kern s inum din).eff 0 inum = din := by
  have h : (kern s inum din).eff 0 ((kern s inum din).icache 0).inum = _ := Fs.eff_self
  rwa [kern_inum, kern_d] at h

theorem slot_data (ha : (kern s inum din).Alloc ((kern s inum din).eff 0))
    (htype : din.type ≠ .free) (sl : BlockSlot) (h0 : (view s).slot din sl ≠ 0) :
    nmeta ≤ (view s).slot din sl ∧ (view s).slot din sl < s.freeblock := by
  have heff := eff_kern s inum din
  have hown : (kern s inum din).owner ((kern s inum din).eff 0) (inum, sl) =
      some ((view s).slot din sl) := by
    refine Disk.owner_eq_some.mpr ⟨?_, h0, ?_⟩
    · rwa [heff]
    · rw [heff]
      rfl
  have hused := ha.used_of_owner hown
  have hnot := ha.apart _ _ hown
  have hlt : (view s).slot din sl < s.freeblock := of_decide_eq_true hused.2
  refine ⟨Nat.le_of_not_lt fun h => hnot ⟨h, hused.1⟩, hlt⟩

/-! ## Blocks -/

theorem inode_kern : Gives (inode 0) (kern s inum din) ((kern s inum din).icache 0)
    (kern s inum din) := gives_bind gives_get gives_pure

theorem setAddr_kern (i : Fin (NDIRECT + 1)) (a : Nat) : Gives (setAddr 0 i a) (kern s inum din) ()
    (kern s inum { din with addrs := update din.addrs i a }) := by
  have hk : kern s inum { din with addrs := update din.addrs i a } =
      { kern s inum din with
        icache := update (kern s inum din).icache 0
          { (kern s inum din).icache 0 with
            d := { ((kern s inum din).icache 0).d with
              addrs := update ((kern s inum din).icache 0).d.addrs i a } } } := by
    rw [kern_icache]
    unfold kern
    dsimp only
    rw [update_idem]
  rw [hk]
  exact gives_modify

variable {i : Fin (NDIRECT + 1)}

theorem addrOf_kern (inum : Nat) (hs : Ready s)
    (hroom : din.addrs i = 0 → s.freeblock < FSSIZE) :
    Gives (addrOf 0 i) (kern s inum din) ((takeAddr s din i).2.addrs i)
      (kern (takeAddr s din i).1 inum (takeAddr s din i).2) := by
  unfold addrOf takeAddr
  by_cases h0 : din.addrs i = 0
  · simp only [if_pos h0]
    refine gives_bind inode_kern ?_
    rw [kern_d, if_pos h0]
    refine gives_bind (balloc_kern hs (hroom h0)) (gives_bind (setAddr_kern i s.freeblock) ?_)
    rw [update_self]
    exact gives_pure
  · simp only [if_neg h0]
    refine gives_bind inode_kern ?_
    rw [kern_d, if_neg h0]
    exact gives_pure

theorem addrOf_full (h0 : din.addrs i = 0)
    (hfull : ¬ s.freeblock < FSSIZE) : Fails (addrOf 0 i) (kern s inum din) := by
  refine fails_bind inode_kern ?_
  rw [kern_d, if_pos h0]
  exact (balloc_full hfull).bind

theorem ready_takeAddr (hs : Ready s)
    (hroom : din.addrs i = 0 → s.freeblock < FSSIZE) : Ready (takeAddr s din i).1 := by
  unfold takeAddr
  split
  · next h0 => exact ready_next hs (hroom h0)
  · exact hs

theorem freeinode_takeAddr (i : Fin (NDIRECT + 1)) :
    (takeAddr s din i).1.freeinode = s.freeinode := by
  unfold takeAddr
  split <;> rfl

theorem rsect_takeAddr (hs : Ready s) (h0 : din.addrs i = 0)
    (hfull : ¬ s.freeblock < FSSIZE) :
    rsect (takeAddr s din i).1 ((takeAddr s din i).2.addrs i) = none := by
  unfold takeAddr
  rw [if_pos h0]
  refine if_neg ?_
  dsimp only
  rwa [update_self, hs.nsect]

theorem entryOf_kern (inum : Nat) (din : Dinode) (hs : Ready s) {ind : Nat}
    (hind : nmeta ≤ ind) (hlt : ind < s.freeblock)
    (j : Fin (BSIZE / 4)) :
    (∃ s' x, takeEntry s ind j = some (s', x) ∧ Ready s' ∧ s'.freeinode = s.freeinode ∧
      Gives (entryOf ind j) (kern s inum din) x (kern s' inum din)) ∨
    ((takeEntry s ind j).bind (fun r => rsect r.1 r.2) = none ∧
      Fails (entryOf ind j) (kern s inum din)) := by
  have hlimit := hs.limit
  have hsize : FSSIZE = 2000 := rfl
  have hblock := kern_block s inum din hind
  unfold takeEntry entryOf
  rw [rsect_eq hs (by omega)]
  simp only [Option.bind_eq_bind, Option.bind_some]
  by_cases h0 : (s.sect ind j).toNat = 0
  · have hval : (BitVec.ofNat 32 s.freeblock).toNat = s.freeblock := by
      rw [BitVec.toNat_ofNat]
      omega
    rw [if_pos h0, update_self, hval]
    by_cases hroom : s.freeblock < FSSIZE
    · refine Or.inl ⟨_, _, rfl, ?_, rfl, gives_bind gives_get ?_⟩
      · exact ready_wsect (ready_next hs hroom) hind (Nat.lt_succ_of_lt hlt)
      · rw [hblock, if_pos h0, kern_wsect hind]
        refine gives_bind (balloc_kern hs hroom) ?_
        have hnext := kern_block { s with freeblock := s.freeblock + 1 } inum din hind
        rw [← hnext]
        exact gives_bind gives_modify (gives_bind gives_emit gives_pure)
    · refine Or.inr ⟨?_, fails_bind gives_get ?_⟩
      · refine if_neg ?_
        show ¬ s.freeblock < max s.nsect (ind + 1)
        rw [hs.nsect]
        omega
      · rw [hblock, if_pos h0]
        exact (balloc_full hroom).bind
  · refine Or.inl ⟨s, _, if_neg h0, hs, rfl, gives_bind gives_get ?_⟩
    rw [hblock, if_neg h0]
    exact gives_pure

/-- The block that `iappend` writes to is the one that `bmap` returns; when the kernel has no
block left, the sector is not in the file. -/
theorem bmap_kern (hs : Ready s) (ha : (kern s inum din).Alloc ((kern s inum din).eff 0))
    (htype : din.type ≠ .free) (hfbn : fbn < MAXFILE) :
    (∃ s' din' x, mapBlock s din fbn = some (s', din', x) ∧ Ready s' ∧
      s'.freeinode = s.freeinode ∧ Gives (bmap 0 fbn) (kern s inum din) x (kern s' inum din')) ∨
    ((mapBlock s din fbn).bind (fun r => rsect r.1 r.2.2) = none ∧
      Fails (bmap 0 fbn) (kern s inum din)) := by
  unfold mapBlock bmap
  by_cases hd : fbn < NDIRECT
  · rw [if_pos hd, if_pos hd]
    by_cases hroom : din.addrs (Fin.ofNat (NDIRECT + 1) fbn) = 0 → s.freeblock < FSSIZE
    · exact Or.inl ⟨_, _, _, rfl, ready_takeAddr hs hroom, freeinode_takeAddr _,
        addrOf_kern inum hs hroom⟩
    · obtain ⟨h0, hfull⟩ := Classical.not_imp.mp hroom
      exact Or.inr ⟨rsect_takeAddr hs h0 hfull, addrOf_full h0 hfull⟩
  · have hin : fbn - NDIRECT < NINDIRECT := by
      unfold MAXFILE at hfbn
      omega
    rw [if_neg hd, if_neg hd, if_pos hin]
    by_cases hroom : din.addrs (Fin.last NDIRECT) = 0 → s.freeblock < FSSIZE
    · have haddr := addrOf_kern inum hs hroom
      have hends := addrOf_ends (i := Fin.last NDIRECT) ha (by rwa [kern_d])
      obtain ⟨ev, hfill, -⟩ := hends.of_gives haddr
      have htype' : (takeAddr s din (Fin.last NDIRECT)).2.type ≠ .free := by
        unfold takeAddr
        split <;> exact htype
      have hdata := slot_data hfill.grew.alloc htype' (.addr (Fin.last NDIRECT)) hfill.ne
      rcases entryOf_kern inum (takeAddr s din (Fin.last NDIRECT)).2
        (ready_takeAddr hs hroom) hdata.1 hdata.2 (Fin.ofNat (BSIZE / 4) (fbn - NDIRECT)) with
        ⟨s', x, hentry, hready, hfree, hgives⟩ | ⟨hnone, hfails⟩
      · refine Or.inl ⟨s', _, x, ?_, hready, hfree.trans (freeinode_takeAddr _),
          gives_bind haddr hgives⟩
        exact congrArg (Option.map _) hentry
      · refine Or.inr ⟨?_, fails_bind haddr hfails⟩
        rwa [Option.bind_map]
    · obtain ⟨h0, hfull⟩ := Classical.not_imp.mp hroom
      refine Or.inr ⟨?_, (addrOf_full h0 hfull).bind⟩
      have hnone : takeEntry (takeAddr s din (Fin.last NDIRECT)).1
          ((takeAddr s din (Fin.last NDIRECT)).2.addrs (Fin.last NDIRECT))
          (Fin.ofNat (BSIZE / 4) (fbn - NDIRECT)) = none := by
        unfold takeEntry
        rw [rsect_takeAddr hs h0 hfull]
        rfl
      dsimp only
      rw [hnone]
      rfl

/-! ## The loop -/

theorem append_part (off : Nat) :
    (off / BSIZE + 1) * BSIZE - off = BSIZE - off % BSIZE ∧
      off - off / BSIZE * BSIZE = off % BSIZE := by
  unfold BSIZE
  omega

/-- The loop of `iappend` does what the loop of `writei` does. It gives up where the file would
be too long for `writei`, or where the kernel has no block left. -/
theorem appendLoop_kern {turns : Nat} (off : Nat) (p : List Byte) (hs : Ready s)
    (ha : (kern s inum din).Alloc ((kern s inum din).eff 0)) (htype : din.type ≠ .free)
    (hturns : p.length ≤ turns) :
    (∃ s' din', appendLoop turns s din off p = some (s', din', off + p.length) ∧ Ready s' ∧
      s'.freeinode = s.freeinode ∧ (p ≠ [] → off + p.length ≤ MAXFILE * BSIZE) ∧
      Gives (writeLoop 0 turns (fun i => p.getD i 0) off p.length) (kern s inum din) ()
        (kern s' inum din')) ∨
    (appendLoop turns s din off p = none ∧ (MAXFILE * BSIZE < off + p.length ∨
      Fails (writeLoop 0 turns (fun i => p.getD i 0) off p.length) (kern s inum din))) := by
  induction turns generalizing s din off p with
  | zero =>
    obtain rfl : p = [] := List.eq_nil_of_length_eq_zero (by omega)
    exact Or.inl ⟨s, din, rfl, hs, rfl, fun h => absurd rfl h, gives_pure⟩
  | succ turns ih =>
    unfold appendLoop writeLoop
    by_cases hp : p = []
    · subst hp
      exact Or.inl ⟨s, din, rfl, hs, rfl, fun h => absurd rfl h, gives_pure⟩
    · have hn : p.length ≠ 0 := fun h => hp (List.eq_nil_of_length_eq_zero h)
      rw [if_neg hp, if_neg hn]
      by_cases hfbn : off / BSIZE < MAXFILE
      · rw [if_pos hfbn, (append_part off).1, (append_part off).2]
        rcases bmap_kern hs ha htype hfbn with ⟨s₁, din₁, x, hmap, hs₁, hfree, hgives⟩ |
          ⟨hnone, hfails⟩
        · have hends := bmap_ends ha (by rwa [kern_d]) hfbn
          obtain ⟨ev, hmapped, -⟩ := hends.of_gives hgives
          have htype₁ : din₁.type ≠ .free := by
            have hself := congrArg (fun i : Inode => i.d.type) hmapped.grew.self
            simp only [kern_d] at hself
            rwa [hself]
          obtain ⟨sl, -, hsl⟩ := Disk.exists_slot (hmapped.eq ▸ hmapped.ne)
          have hx : x = (view s₁).slot din₁ sl := by
            have heq := hmapped.eq.trans hsl
            rwa [kern_d] at heq
          obtain ⟨hlow, hhigh⟩ := slot_data hmapped.grew.alloc htype₁ sl (hx ▸ hmapped.ne)
          rw [← hx] at hlow hhigh
          have hlimit := hs₁.limit
          have hwrite := hmapped.write (n := p.length) (fun i => p.getD i 0) hn (by rwa [kern_d])
          have hpart : firstPart off p.length = min p.length (BSIZE - off % BSIZE) := rfl
          rw [hpart] at hwrite
          rw [hmap]
          simp only [Option.bind_eq_bind, Option.bind_some]
          rw [rsect_eq hs₁ (by omega), Option.bind_some]
          have hk : kern (wsect s₁ x ((s₁.sect x).move (off % BSIZE)
              (min p.length (BSIZE - off % BSIZE)) fun i => p.getD i 0)) inum din₁ =
              { kern s₁ inum din₁ with
                block := update (kern s₁ inum din₁).block x
                  (((kern s₁ inum din₁).block x).move (off % BSIZE)
                    (min p.length (BSIZE - off % BSIZE)) fun i => p.getD i 0) } := by
            rw [kern_wsect hlow, kern_block _ _ _ hlow]
          have halloc := hwrite.alloc
          rw [← hk] at halloc
          have hsrc : (fun i => p.getD (min p.length (BSIZE - off % BSIZE) + i) 0) =
              fun i => (p.drop (min p.length (BSIZE - off % BSIZE))).getD i 0 := by
            funext i
            simp [List.getD, List.getElem?_drop]
          have hlen : (p.drop (min p.length (BSIZE - off % BSIZE))).length =
              p.length - min p.length (BSIZE - off % BSIZE) := List.length_drop
          have hpos := firstPart_pos off hn
          rw [hpart] at hpos
          have hsum : off + min p.length (BSIZE - off % BSIZE) +
              (p.length - min p.length (BSIZE - off % BSIZE)) = off + p.length := by omega
          have hturn : Gives (FsM.setBlock x fun b => b.move (off % BSIZE)
              (min p.length (BSIZE - off % BSIZE)) fun i => p.getD i 0) (kern s₁ inum din₁) ()
              (kern (wsect s₁ x ((s₁.sect x).move (off % BSIZE)
                (min p.length (BSIZE - off % BSIZE)) fun i => p.getD i 0)) inum din₁) := by
            rw [hk]
            exact gives_modify
          have hih := ih (off + min p.length (BSIZE - off % BSIZE))
            (p.drop (min p.length (BSIZE - off % BSIZE)))
            (ready_wsect hs₁ hlow hhigh) halloc htype₁ (by omega)
          rw [hlen, hsum, ← hsrc] at hih
          rcases hih with ⟨s₂, din₂, happ, hs₂, hfree₂, hmax, hloop⟩ | ⟨happ, hfail⟩
          · refine Or.inl ⟨s₂, din₂, happ, hs₂, hfree₂.trans hfree, fun _ => ?_, ?_⟩
            · by_cases hrest : p.drop (min p.length (BSIZE - off % BSIZE)) = []
              · -- the last part ends within its block
                rw [hrest, List.length_nil] at hlen
                have hle := (append_part off).1
                have hmul : (off / BSIZE + 1) * BSIZE ≤ MAXFILE * BSIZE :=
                  Nat.mul_le_mul_right _ hfbn
                omega
              · exact hmax hrest
            · exact gives_bind hgives (gives_bind hturn (gives_bind gives_emit hloop))
          · refine Or.inr ⟨happ, hfail.imp_right fun hfail => ?_⟩
            exact fails_bind hgives (fails_bind hturn (fails_bind gives_emit hfail))
        · refine Or.inr ⟨?_, Or.inr hfails.bind⟩
          cases hmap : mapBlock s din (off / BSIZE) with
          | none => rfl
          | some r =>
            obtain ⟨s₁, din₁, x⟩ := r
            rw [hmap] at hnone
            simp only [Option.bind_some] at hnone
            simp only [Option.bind_eq_bind, Option.bind_some]
            rw [hnone]
            rfl
      · refine Or.inr ⟨if_neg hfbn, Or.inl ?_⟩
        have hge : MAXFILE * BSIZE ≤ off := (Nat.le_div_iff_mul_le (by decide)).mp (by omega)
        omega

end Mkfs

end Xv6
