import Xv6.Fs.Compact
import Xv6.Mkfs.Append

/-!
# The image is a list of files

What an unfinished image holds is a list of files, each a type and bytes: `ialloc` adds an
empty one at the end, and `iappend` adds bytes to one of them. Both do so as long as the
files fit.
-/

namespace Xv6

namespace Mkfs

open Effect FsM

structure Stored where
  type : FileType
  bytes : List Byte

/-- The inode is as `mkfs` writes it for a file. -/
structure Stores (D : Disk) (d : Dinode) (f : Stored) : Prop where
  eq : d = { newDinode f.type with
    size := BitVec.ofNat 32 f.bytes.length
    addrs := d.addrs }
  compact : D.Compact d
  content : D.content d = f.bytes

def total (l : List Stored) : Nat := (l.map fun f => blocksFor f.bytes.length).sum

def Fits (l : List Stored) : Prop :=
  nmeta + total l ≤ FSSIZE ∧ ∀ f ∈ l, f.bytes.length ≤ MAXFILE * BSIZE

structure Holds (l : List Stored) (s : State) : Prop where
  ready : Ready s
  alloc : (view s).Alloc (view s).dinode
  freeinode : s.freeinode = l.length + 1
  freeblock : s.freeblock = nmeta + total l
  live : ∀ f ∈ l, f.type ≠ .free
  stores : ∀ k f, l[k]? = some f → Stores (view s) ((view s).dinode (k + 1)) f
  free : ∀ inum, inum = 0 ∨ l.length < inum → (view s).dinode inum = .zero

theorem total_append (l l' : List Stored) : total (l ++ l') = total l + total l' := by
  unfold total
  rw [List.map_append, List.sum_append]

variable {s s' : State} {l : List Stored} {f : Stored} {k : Nat} {p : List Byte}

section Stores

variable {D D' : Disk} {d : Dinode}

theorem Stores.size (h : Stores D d f) : d.size.toNat = f.bytes.length := by
  rw [← h.content, content_length]

theorem Stores.type (h : Stores D d f) : d.type = f.type := by
  rw [h.eq]
  rfl

theorem Stores.congr (h : Stores D d f) (hslot : D'.slot d = D.slot d)
    (hbytes : ∀ i, D'.fileByte d i = D.fileByte d i) : Stores D' d f := by
  refine ⟨h.eq, h.compact.congr hslot, ?_⟩
  rw [← h.content]
  exact List.map_congr_left fun i _ => hbytes i

end Stores

namespace Holds

theorem length_le (h : Holds l s) (hf : f ∈ l) : f.bytes.length ≤ MAXFILE * BSIZE := by
  obtain ⟨k, hk⟩ := List.mem_iff_getElem?.mp hf
  have hst := h.stores k f hk
  rw [← hst.size]
  exact hst.compact.size_le

theorem fits (h : Holds l s) : Fits l :=
  ⟨h.freeblock ▸ h.ready.limit, fun _ hf => h.length_le hf⟩

theorem cases (h : Holds l s) (inum : Nat) :
    (∃ k f, inum = k + 1 ∧ l[k]? = some f ∧ Stores (view s) ((view s).dinode inum) f) ∨
      (view s).dinode inum = .zero := by
  by_cases hin : inum = 0 ∨ l.length < inum
  · exact Or.inr (h.free inum hin)
  · have hk : inum - 1 < l.length := by omega
    have heq : inum - 1 + 1 = inum := by omega
    refine Or.inl ⟨inum - 1, l[inum - 1], heq.symm, List.getElem?_eq_getElem hk, ?_⟩
    have := h.stores _ _ (List.getElem?_eq_getElem hk)
    rwa [heq] at this

theorem sound (h : Holds l s) : (view s).Sound := by
  refine ⟨h.alloc, fun n hn => ?_⟩
  rcases h.cases n with ⟨k, f, -, -, hst⟩ | hzero
  · exact hst.compact.noHole
  · rw [hzero] at hn
    exact absurd rfl hn

end Holds

theorem blank_sect {sec : Nat} (h : sec ≠ 1) : blank.sect sec = Block.zero := by
  unfold blank
  dsimp only
  rw [Function.update_of_ne h]

theorem blank_super : (blank.sect 1).superblock = sb := by
  unfold blank
  dsimp only
  rw [Function.update_self]
  rfl

theorem blank_holds : Holds [] blank := by
  have hzero (inum : Nat) : (view blank).dinode inum = .zero := by
    unfold Disk.dinode view
    dsimp only
    split
    · next h =>
      have hstart : sb.inodestart = 32 := rfl
      have hne : IBLOCK inum sb ≠ 1 := by omega
      rw [blank_sect hne]
      rfl
    · rfl
  have hnone : ∀ k, (view blank).owner (view blank).dinode k = none := by
    intro k
    refine Disk.owner_eq_none.mpr (Or.inl ?_)
    rw [hzero]
    rfl
  refine ⟨⟨rfl, blank_super, Nat.le_refl _, by decide, ?_⟩, ⟨?_, ?_, ?_⟩, rfl, rfl, ?_, ?_, ?_⟩
  · intro b hb
    have hb' : nmeta ≤ b := hb
    have hmeta : nmeta = 59 := rfl
    exact blank_sect (by omega)
  · intro k k' b hk
    rw [hnone] at hk
    cases hk
  · intro k b hk
    rw [hnone] at hk
    cases hk
  · intro b
    simp only [hnone, reduceCtorEq, exists_false, or_false]
    constructor
    · exact fun hb => ⟨of_decide_eq_true hb.2, hb.1⟩
    · exact fun hb => ⟨hb.2, decide_eq_true hb.1⟩
  · intro f hf
    cases hf
  · intro k f hk
    cases hk
  · intro inum _
    exact hzero inum

theorem ialloc_holds (type : FileType) (h : Holds l s) (hroom : l.length + 1 < room)
    (htype : type ≠ .free) :
    ∃ s', ialloc s type = some (l.length + 1, s') ∧ Holds (l ++ [⟨type, []⟩]) s' := by
  have hready : Ready { s with freeinode := s.freeinode + 1 } :=
    ⟨h.ready.nsect, h.ready.super, h.ready.data, h.ready.limit, h.ready.fresh⟩
  obtain ⟨s', hw, hs', hview, hfb, hfi⟩ := winode_eq _ (newDinode type) hready hroom
    fun _ => Nat.two_pow_pos 32
  change view s' = (view s).setDinode (l.length + 1) (newDinode type) at hview
  have hdinode : (view s').dinode =
      Function.update (view s).dinode (l.length + 1) (newDinode type) := by
    rw [hview, Disk.dinode_setDinode]
  have hblock : (view s').block = (view s).block := by
    rw [hview]
    rfl
  have hbare : (view s').Sound := by
    rw [hview]
    refine h.sound.setDinode_bare (Or.inl ?_) (Or.inr ⟨rfl, rfl⟩)
    rw [h.free _ (Or.inr (Nat.lt_succ_self _))]
    rfl
  refine ⟨s', ?_, hs', hbare.alloc, ?_, ?_, ?_, ?_, ?_⟩
  · unfold ialloc
    rw [h.freeinode]
    rw [h.freeinode] at hw
    simp only [hw, Option.bind_eq_bind, Option.bind_some, Option.pure_def]
  · rw [hfi, List.length_append]
    exact congrArg (· + 1) h.freeinode
  · have hnew : total [⟨type, []⟩] = 0 := by
      show blocksFor 0 + 0 = 0
      decide
    rw [hfb, total_append, hnew]
    exact h.freeblock
  · intro f hf
    rcases List.mem_append.mp hf with hf | hf
    · exact h.live f hf
    · rwa [List.mem_singleton.mp hf]
  · intro k f hk
    rw [hdinode]
    by_cases hlt : k < l.length
    · rw [List.getElem?_append_left hlt] at hk
      rw [Function.update_of_ne (by omega)]
      exact (h.stores k f hk).congr (Disk.slot_congr hblock rfl)
        (congrFun (Disk.fileByte_congr hblock rfl))
    · rw [List.getElem?_append_right (by omega)] at hk
      obtain ⟨hk0, rfl⟩ : k = l.length ∧ f = ⟨type, []⟩ := by
        cases hm : k - l.length with
        | zero =>
          rw [hm] at hk
          simp only [List.getElem?_cons_zero, Option.some.injEq] at hk
          exact ⟨by omega, hk.symm⟩
        | succ m =>
          rw [hm] at hk
          cases hk
      rw [hk0, Function.update_self]
      exact ⟨rfl, Disk.Compact.bare rfl rfl, rfl⟩
  · intro inum hin
    rw [List.length_append, List.length_singleton] at hin
    rw [hdinode, Function.update_of_ne (by omega)]
    exact h.free inum (by omega)

/-! ## Bytes are added -/

theorem total_set {g : Stored} (hk : l[k]? = some f) :
    total (l.set k g) + blocksFor f.bytes.length = total l + blocksFor g.bytes.length := by
  unfold total
  induction l generalizing k with
  | nil => cases hk
  | cons x l ih =>
    cases k with
    | zero =>
      simp only [List.getElem?_cons_zero, Option.some.injEq] at hk
      subst hk
      simp only [List.set_cons_zero, List.map_cons, List.sum_cons]
      omega
    | succ k =>
      have hsum := ih (k := k) hk
      simp only [List.set_cons_succ, List.map_cons, List.sum_cons]
      omega

theorem view_spare (hs : Ready s) : (view s).spare + s.freeblock = FSSIZE := by
  have hset : ((Finset.range (view s).sb.size).filter fun b => (view s).bit b = false) =
      Finset.Ico s.freeblock FSSIZE := by
    ext b
    have hsize : (view s).sb.size = FSSIZE := rfl
    have hbit : (view s).bit b = decide (b < s.freeblock) := rfl
    rw [Finset.mem_filter, Finset.mem_range, Finset.mem_Ico, hsize, hbit, decide_eq_false_iff_not]
    omega
  unfold Disk.spare
  rw [hset, Nat.card_Ico]
  exact Nat.sub_add_cancel hs.limit

theorem map_getD_range (p : List Byte) : (List.range p.length).map (fun i => p.getD i 0) = p := by
  apply List.ext_getElem
  · simp
  · intro i h₁ h₂
    simp [List.getD, h₂]

theorem addrs_lt {D : Disk} {I : Nat → Dinode} {n : Nat} (ha : D.Alloc I)
    (hn : (I n).type ≠ .free) (i : Fin (NDIRECT + 1)) : (I n).addrs i < 2 ^ 32 := by
  by_cases h0 : (I n).addrs i = 0
  · rw [h0]
    exact Nat.two_pow_pos 32
  · exact Nat.lt_trans (ha.slot_used hn (.addr i) h0).1 D.sb.size_lt

section Append

variable {d din : Dinode} {s₁ : State}

theorem toNat_size {n : Nat} (h : n ≤ MAXFILE * BSIZE) : (BitVec.ofNat 32 n).toNat = n := by
  have hM : MAXFILE * BSIZE = 70656 := rfl
  rw [BitVec.toNat_ofNat]
  omega

theorem holds_of_wrote (h : Holds l s) (hk : l[k]? = some f)
    (hd : (view s).dinode (k + 1) = d) (hs' : Ready s')
    (hview : view s' = (view s₁).setDinode (k + 1)
      { din with size := BitVec.ofNat 32 (d.size.toNat + p.length) })
    (hfb : s'.freeblock = s₁.freeblock) (hfi : s'.freeinode = s.freeinode) (hs₁ : Ready s₁)
    (hmax : d.size.toNat + p.length ≤ MAXFILE * BSIZE)
    (hw : Wrote 0 (fun i => p.getD i 0) d.size.toNat p.length (kern s (k + 1) d)
      (kern s₁ (k + 1) din))
    (hothers : Fs.Others 0 (kern s (k + 1) d) (kern s₁ (k + 1) din))
    (hcompact : (kern s₁ (k + 1) din).Compact
      { din with size := BitVec.ofNat 32 (d.size.toNat + p.length) }) :
    Holds (l.set k ⟨f.type, f.bytes ++ p⟩) s' := by
  have hlt : k < l.length := (List.getElem?_eq_some_iff.mp hk).1
  have hst := h.stores k f hk
  rw [hd] at hst
  have hsize := toNat_size hmax
  have hclean : (kern s (k + 1) d).Clean 0 := by
    unfold Fs.Clean
    rwa [kern_inum, kern_d]
  have heff := Fs.eff_of_clean hclean
  have hdin : din = { d with addrs := din.addrs } := by
    have hself := congrArg Inode.d hw.self
    simp only [kern_d] at hself
    exact hself
  have hblock : (view s').block = (view s₁).block := by
    rw [hview]
    rfl
  have hdinode : (view s').dinode = Function.update (view s).dinode (k + 1)
      { din with size := BitVec.ofNat 32 (d.size.toNat + p.length) } := by
    rw [hview, Disk.dinode_setDinode]
    congr 1
    exact hw.dinode
  obtain ⟨hsound, hbytes⟩ := hw.sound (BitVec.ofNat 32 (d.size.toNat + p.length))
    (u := kern s' (k + 1) din) h.sound hclean (by rw [kern_d])
    (by rw [kern_d, hsize]; omega) rfl (by show (view s').bit = _; rw [hview]; rfl) hblock
    (by rw [kern_inum, kern_d]; exact hdinode)
  simp only [kern_inum] at hbytes
  change ∀ m, ((view s).dinode m).type ≠ .free → ∀ i,
    (view s').fileByte ((view s').dinode m) i =
      if m = k + 1 ∧ d.size.toNat ≤ i ∧ i < d.size.toNat + p.length then
        p.getD (i - d.size.toNat) 0
      else (view s).fileByte ((view s).dinode m) i at hbytes
  refine ⟨hs', hsound.alloc, ?_, ?_, ?_, ?_, ?_⟩
  · rw [hfi, List.length_set, h.freeinode]
  · have htotal := total_set (g := ⟨f.type, f.bytes ++ p⟩) hk
    have hneed := hst.compact.need (n := p.length)
    have hspare := hw.spare
    rw [kern_d] at hspare
    change (view s₁).spare + (view s).need d d.size.toNat p.length = (view s).spare at hspare
    have h₁ := view_spare h.ready
    have h₂ := view_spare hs₁
    have h₃ := h.freeblock
    rw [List.length_append, ← hst.size] at htotal
    omega
  · intro g hg
    rcases List.mem_or_eq_of_mem_set hg with hg | rfl
    · exact h.live g hg
    · exact h.live f (List.mem_of_getElem? hk)
  · intro j g hj
    by_cases hjk : j = k
    · subst hjk
      rw [List.getElem?_set_self hlt] at hj
      obtain rfl := Option.some.inj hj
      have hlive : ((view s).dinode (j + 1)).type ≠ .free := by
        rw [hd, hst.type]
        exact h.live f (List.mem_of_getElem? hk)
      have hb := hbytes (j + 1) hlive
      rw [hdinode, Function.update_self, hd] at hb
      rw [hdinode, Function.update_self]
      refine ⟨?_, hcompact.congr (Disk.slot_congr hblock rfl), ?_⟩
      · rw [hdin, List.length_append, ← hst.size, hst.eq]
      · unfold Disk.content
        dsimp only
        rw [hsize, range_split (Nat.le_add_right d.size.toNat p.length), List.map_append,
          Nat.add_sub_cancel_left, List.map_map]
        congr 1
        · rw [← hst.content]
          apply List.map_congr_left
          intro i hi
          have := List.mem_range.mp hi
          rw [hb, if_neg (by omega)]
        · refine Eq.trans (List.map_congr_left fun i hi => ?_) (map_getD_range p)
          have := List.mem_range.mp hi
          rw [Function.comp_apply, hb, if_pos (by omega), Nat.add_sub_cancel_left]
    · rw [List.getElem?_set_ne (Ne.symm hjk)] at hj
      have hsj := h.stores j g hj
      have hne : j + 1 ≠ k + 1 := by omega
      have hlive : ((view s).dinode (j + 1)).type ≠ .free := by
        rw [hsj.type]
        exact h.live g (List.mem_of_getElem? hj)
      have hb := hbytes (j + 1) hlive
      have hslot := hothers (j + 1) (by rwa [kern_inum]) (by rw [heff]; exact hlive)
      rw [heff, Fs.eff_of_ne (by rwa [kern_inum]), hw.dinode] at hslot
      rw [hdinode, Function.update_of_ne hne] at hb ⊢
      refine hsj.congr ((Disk.slot_congr hblock rfl).trans hslot) fun i => ?_
      rw [hb, if_neg fun hh => hne hh.1]
  · intro inum hin
    rw [List.length_set] at hin
    rw [hdinode, Function.update_of_ne (by omega)]
    exact h.free inum hin

end Append

theorem iappend_holds (h : Holds l s) (hroom : l.length < room) (hk : l[k]? = some f) :
    (Fits (l.set k ⟨f.type, f.bytes ++ p⟩) ∧
      ∃ s', iappend s (k + 1) p = some s' ∧ Holds (l.set k ⟨f.type, f.bytes ++ p⟩) s') ∨
    (¬ Fits (l.set k ⟨f.type, f.bytes ++ p⟩) ∧ iappend s (k + 1) p = none) := by
  have hlt : k < l.length := (List.getElem?_eq_some_iff.mp hk).1
  have hst := h.stores k f hk
  have hlive := h.live f (List.mem_of_getElem? hk)
  have htotal := total_set (g := ⟨f.type, f.bytes ++ p⟩) hk
  rw [List.length_append] at htotal
  generalize hd : (view s).dinode (k + 1) = d at hst
  have htype : d.type ≠ .free := by rwa [hst.type]
  have hclean : (kern s (k + 1) d).Clean 0 := by
    unfold Fs.Clean
    rwa [kern_inum, kern_d]
  have halloc : (kern s (k + 1) d).Alloc ((kern s (k + 1) d).eff 0) := by
    rw [Fs.eff_of_clean hclean]
    exact h.alloc
  have hneed := hst.compact.need (n := p.length)
  have hspare := view_spare h.ready
  have hfb := h.freeblock
  rw [← hst.size] at htotal
  have hrinode := rinode_eq (k + 1) h.ready (by omega)
  rw [hd] at hrinode
  rcases appendLoop_kern d.size.toNat p h.ready halloc htype
    (Nat.le_refl _) with ⟨s₁, din, happ, hs₁, hfi, hmax, hgives⟩ | ⟨happ, hfail⟩
  · have hmax' : d.size.toNat + p.length ≤ MAXFILE * BSIZE := by
      by_cases hp : p = []
      · rw [hp, List.length_nil]
        exact hst.compact.size_le
      · exact hmax hp
    have hends := (writeLoop_ends (fun i => p.getD i 0) halloc (by rwa [kern_d])
      (Nat.le_refl p.length) hmax').and
      (writeLoop_others (fun i => p.getD i 0) halloc (by rwa [kern_d])
        (Nat.le_refl p.length) hmax')
    obtain ⟨ev, ⟨hw, -⟩, hothers, hkeep, hlast⟩ := hends.of_gives hgives
    have hsize := toNat_size hmax'
    have hcompact : (kern s₁ (k + 1) din).Compact
        { din with size := BitVec.ofNat 32 (d.size.toNat + p.length) } := by
      have hc : (kern s (k + 1) d).Compact ((kern s (k + 1) d).icache 0).d := by
        rw [kern_d]
        exact hst.compact
      have := Wrote.compact (BitVec.ofNat 32 (d.size.toNat + p.length)) hc
        (by rw [kern_d]; exact hw) (by rw [kern_d]; rw [kern_d] at hkeep; exact hkeep)
        (by rw [kern_d]; rw [kern_d] at hlast; exact hlast) (by rw [kern_d]; exact hsize)
      rwa [kern_d] at this
    have haddrs : ∀ i, din.addrs i < 2 ^ 32 := by
      have hself := eff_kern s₁ (k + 1) din
      have hdin : din.type ≠ .free := by
        have hty := hw.type (k + 1)
        rw [hself, eff_kern] at hty
        rwa [hty]
      intro i
      have := addrs_lt (n := k + 1) hw.alloc (by rwa [hself]) i
      rwa [hself] at this
    obtain ⟨s', hwi, hs', hview, hfb', hfi'⟩ := winode_eq (k + 1)
      { din with size := BitVec.ofNat 32 (d.size.toNat + p.length) } hs₁ (by omega) haddrs
    have hholds := holds_of_wrote h hk hd hs' hview hfb' (hfi'.trans hfi) hs₁ hmax' hw hothers
      hcompact
    refine Or.inl ⟨hholds.fits, s', ?_, hholds⟩
    unfold iappend
    rw [hrinode]
    simp only [Option.bind_eq_bind, Option.bind_some]
    rwa [happ]
  · refine Or.inr ⟨?_, ?_⟩
    · rintro ⟨hblocks, hlens⟩
      have hlen := hlens ⟨f.type, f.bytes ++ p⟩ (List.mem_set hlt _)
      rw [List.length_append, ← hst.size] at hlen
      rcases hfail with hlong | hfails
      · omega
      · have hends := writeLoop_ends (fun i => p.getD i 0) halloc (by rwa [kern_d])
          (Nat.le_refl p.length) hlen
        obtain ⟨e, -, hfull⟩ := hends.of_fails hfails
        rw [kern_d] at hfull
        change (view s).spare < (view s).need d d.size.toNat p.length at hfull
        omega
    · unfold iappend
      rw [hrinode]
      simp only [Option.bind_eq_bind, Option.bind_some]
      rw [happ]
      rfl

end Mkfs

end Xv6
