import Xv6.Fs.History

/-!
# Inodes without links

An inode on disk that is in use and has no links is either one that `ialloc` has just given,
or the cache has a copy of it for somebody: the last reference to it frees it.
-/

open Multiset (mem_cons mem_cons_of_mem mem_cons_self mem_filter)
open Function (update update_of_ne update_self)

namespace Xv6

namespace Fs

def Kept (M : Multiset Token) (s : Fs) (ip : InodePtr) : Prop :=
  0 < (s.icache ip).ref ∧ (s.icache ip).valid = true ∧ ∀ h, .lock h .gone ∈ M → h.ip ≠ ip

/-- An inode without links will be linked, or freed, unless it is one of those that were
without links before. -/
def Linked (lost : Set Nat) (M : Multiset Token) (s : Fs) : Prop :=
  ∀ m ∉ lost, (s.dinode m).type ≠ .free → (s.dinode m).nlink = 0 →
    .born m ∈ M ∨ ∃ ip, Kept M s ip ∧ (s.icache ip).inum = m

variable {sb : Superblock} {calm : Prop} {lost : Set Nat} {M M' R : Multiset Token} {s t : Fs}
  {h : Handle}
  {ip : InodePtr} {n : Nat} {a : Token} {p q : Phase} {i : Inode}

theorem Inv.not_busy_of_last (hi : Inv sb calm (a ::ₘ R) s) (hr : a.isRef = true)
    (ha : a.handle = some (.own ip n)) (href : (s.icache ip).ref = 1) :
    (s.icache ip).busy = false := by
  obtain ⟨hone, hzero⟩ := hi.last ha href
  rw [owns_own ha] at hone
  by_contra hb
  have hlocks : 0 < locks (a ::ₘ R.filter (·.on ip)) :=
    (hi.entry_self (h := .own ip n) ha).busy.mp (Bool.eq_true_of_not_eq_false hb)
  rw [locks_cons_of_not (Token.isLock_of_isRef hr)] at hlocks
  obtain ⟨tok, hmem, hlock⟩ := Multiset.countP_pos.mp hlocks
  obtain ⟨hR, hon⟩ := mem_filter.mp hmem
  cases tok with
  | lock h p =>
    cases h with
    | own jp m =>
      have := owns_pos hmem rfl
      omega
    | file f jp m =>
      have hip : jp = ip := of_decide_eq_true hon
      subst hip
      have hopen := hi.file_open (mem_cons_of_mem hR) rfl
      have : 0 < s.opens jp :=
        Finset.card_pos.mpr ⟨f, Finset.mem_filter.mpr ⟨Finset.mem_univ f, hopen⟩⟩
      omega
  | _ => cases hlock

namespace Linked

theorem keep (hl : Linked lost M s) (hborn : ∀ m, .born m ∈ M → .born m ∈ M')
    (hdisk : ∀ m, (t.dinode m).type = (s.dinode m).type ∧ (t.dinode m).nlink = (s.dinode m).nlink)
    (hkept : ∀ jp, Kept M s jp → Kept M' t jp ∧ (t.icache jp).inum = (s.icache jp).inum) :
    Linked lost M' t := by
  intro m hm₀ htype hlink
  rw [(hdisk m).1] at htype
  rw [(hdisk m).2] at hlink
  rcases hl m hm₀ htype hlink with hb | ⟨jp, hk, hinum⟩
  · exact Or.inl (hborn m hb)
  · obtain ⟨hk', heq⟩ := hkept jp hk
    exact Or.inr ⟨jp, hk', heq.trans hinum⟩

theorem kept_setEntry (ip : InodePtr) (i : Inode)
    (hgone : ∀ h, .lock h .gone ∈ M' → .lock h .gone ∈ M)
    (hself : Kept M s ip → 0 < i.ref ∧ i.valid = true ∧ i.inum = (s.icache ip).inum)
    {jp : InodePtr} (hk : Kept M s jp) :
    Kept M' { s with icache := update s.icache ip i } jp ∧
      (update s.icache ip i jp).inum = (s.icache jp).inum := by
  unfold Kept
  dsimp only
  by_cases hj : jp = ip
  · subst hj
    rw [update_self]
    obtain ⟨href, hvalid, hinum⟩ := hself hk
    exact ⟨⟨href, hvalid, fun h hh => hk.2.2 h (hgone h hh)⟩, hinum⟩
  · rw [update_of_ne hj]
    exact ⟨⟨hk.1, hk.2.1, fun h hh => hk.2.2 h (hgone h hh)⟩, rfl⟩

theorem setEntry (hl : Linked lost M s) (hborn : ∀ m, .born m ∈ M → .born m ∈ M')
    (hgone : ∀ h, .lock h .gone ∈ M' → .lock h .gone ∈ M)
    (hself : Kept M s ip → 0 < i.ref ∧ i.valid = true ∧ i.inum = (s.icache ip).inum) :
    Linked lost M' { s with icache := update s.icache ip i } :=
  hl.keep hborn (fun _ => ⟨rfl, rfl⟩) fun _ hk => kept_setEntry _ _ hgone hself hk

theorem lockBorn (hi : Inv sb calm (a ::ₘ .born h.inum ::ₘ R) s)
    (hl : Linked lost (a ::ₘ .born h.inum ::ₘ R) s) (ha : a.handle = some h)
    (href : 0 < i.ref) (hvalid : i.valid = true) (hinum : i.inum = (s.icache h.ip).inum)
    (hbusy : (s.icache h.ip).busy = false) :
    Linked lost (.lock h .clean ::ₘ R) { s with icache := update s.icache h.ip i } := by
  have hgone : ∀ h', .lock h' .gone ∈ Token.lock h .clean ::ₘ R →
      .lock h' .gone ∈ a ::ₘ .born h.inum ::ₘ R := by
    intro h' hh'
    rw [mem_cons] at hh'
    exact mem_cons_of_mem (mem_cons_of_mem (hh'.resolve_left nofun))
  have hn := hi.inum (mem_cons_self _ _) ha
  intro m hm₀ htype hlink
  by_cases hm : m = h.inum
  · subst hm
    refine Or.inr ⟨h.ip, ⟨?_, ?_, ?_⟩, ?_⟩
    · simp only [update_self]
      exact href
    · simp only [update_self]
      exact hvalid
    · -- the entry was not busy
      intro h' hh' hip
      have := hi.busy (hgone h' hh')
      rw [hip, hbusy] at this
      cases this
    · simp only [update_self]
      rw [hinum, hn]
  · rcases hl m hm₀ htype hlink with hb | ⟨jp, hk, hjp⟩
    · left
      rw [mem_cons, mem_cons] at hb
      rcases hb with heq | heq | hb
      · subst heq
        cases ha
      · cases heq
        exact absurd rfl hm
      · exact mem_cons_of_mem hb
    · obtain ⟨hk', heq⟩ := kept_setEntry h.ip i hgone
        (fun _ => ⟨href, hvalid, hinum⟩) hk
      exact Or.inr ⟨jp, hk', heq.trans hjp⟩

theorem put (hi : Inv sb calm (a ::ₘ R) s) (hl : Linked lost (a ::ₘ R) s) (hr : a.isRef = true)
    (ha : a.handle = some (.own ip n))
    (hkeep : ¬((s.icache ip).ref = 1 ∧ (s.icache ip).valid = true ∧ (s.icache ip).d.nlink = 0)) :
    Linked lost R
      { s with
        icache := update s.icache ip
          { s.icache ip with ref := (s.icache ip).ref - 1 } } := by
  have hgone : ∀ h, .lock h .gone ∈ R → .lock h .gone ∈ a ::ₘ R :=
    fun _ => mem_cons_of_mem
  have hpos : 0 < (s.icache ip).ref := hi.ref_pos (mem_cons_self _ _) ha
  have hborn : ∀ m, .born m ∈ a ::ₘ R → .born m ∈ R := by
    intro m hb
    rcases mem_cons.mp hb with heq | hb
    · subst heq
      cases hr
    · exact hb
  by_cases hlast : (s.icache ip).ref = 1 ∧ (s.icache ip).valid = true
  · have hnot := hi.not_busy_of_last hr ha hlast.1
    obtain ⟨hd, -⟩ := (hi.entry ip).idle hpos hlast.2 hnot
    have hlinks : (s.dinode (s.icache ip).inum).nlink ≠ 0 := by
      rw [hd]
      exact fun h0 => hkeep ⟨hlast.1, hlast.2, h0⟩
    intro m hm₀ htype hlink
    rcases hl m hm₀ htype hlink with hb | ⟨jp, hk, hjp⟩
    · exact Or.inl (hborn m hb)
    · have hj : jp ≠ ip := by
        rintro rfl
        rw [hjp] at hlinks
        exact hlinks hlink
      refine Or.inr ⟨jp, ?_, ?_⟩
      · unfold Kept
        simp only [update_of_ne hj]
        exact ⟨hk.1, hk.2.1, fun h hh => hk.2.2 h (hgone h hh)⟩
      · simp only [update_of_ne hj]
        exact hjp
  · refine hl.setEntry hborn hgone fun hk => ⟨?_, hk.2.1, rfl⟩
    have : (s.icache ip).ref ≠ 1 := fun h1 => hlast ⟨h1, hk.2.1⟩
    dsimp only
    omega

/-- The other inodes are as they were. -/
theorem of_ne {m n : Nat} {d : Dinode} (hl : Linked lost M s) (hm : m ≠ n) (hm₀ : m ∉ lost)
    (htype : ((s.setDinode n d).dinode m).type ≠ .free)
    (hlink : ((s.setDinode n d).dinode m).nlink = 0) :
    .born m ∈ M ∨ ∃ jp, Kept M s jp ∧ (s.icache jp).inum = m := by
  rw [Disk.dinode_setDinode_of_ne hm] at htype hlink
  exact hl m hm₀ htype hlink

theorem update (hi : Inv sb calm (.lock h .dirty ::ₘ R) s)
    (hl : Linked lost (.lock h .dirty ::ₘ R) s) :
    Linked lost (.lock h .clean ::ₘ R)
      { s with toDisk := s.setDinode (s.icache h.ip).inum (s.icache h.ip).d } := by
  have hgone : ∀ h', .lock h' .gone ∈ Token.lock h .clean ::ₘ R → .lock h' .gone ∈ R := by
    intro h' hh'
    rw [mem_cons] at hh'
    exact hh'.resolve_left nofun
  intro m hm₀ htype hlink
  by_cases hm : m = (s.icache h.ip).inum
  · refine Or.inr ⟨h.ip, ⟨?_, ?_, ?_⟩, hm.symm⟩
    · exact hi.ref_pos (mem_cons_self _ _) (h := h) rfl
    · exact (hi.phase (mem_cons_self _ _)).1
    · intro h' hh' hip
      have hfil : .lock h' .gone ∈ R.filter (·.on h.ip) :=
        mem_filter.mpr ⟨hgone h' hh', Token.on_iff.mpr ⟨h', rfl, hip⟩⟩
      exact not_lock_mem (hi.entry_self (h := h) rfl).only_lock h' .gone hfil
  · rcases hl.of_ne hm hm₀ htype hlink with hb | ⟨jp, hk, hjp⟩
    · left
      rw [mem_cons] at hb
      exact mem_cons_of_mem (hb.resolve_left nofun)
    · exact Or.inr ⟨jp, ⟨hk.1, hk.2.1,
        fun h' hh' => hk.2.2 h' (mem_cons_of_mem (hgone h' hh'))⟩, hjp⟩

theorem updateFree (hi : Inv sb calm (.lock h .freeing ::ₘ R) s)
    (hl : Linked lost (.lock h .freeing ::ₘ R) s) :
    Linked lost (.lock h .gone ::ₘ R)
      { s with toDisk := s.setDinode (s.icache h.ip).inum (s.icache h.ip).d } := by
  obtain ⟨-, hd, -⟩ := hi.phase (mem_cons_self _ _)
  intro m hm₀ htype hlink
  have hm : m ≠ (s.icache h.ip).inum := by
    rintro rfl
    refine htype ?_
    rw [Disk.dinode_setDinode_self, hd]
  rcases hl.of_ne hm hm₀ htype hlink with hb | ⟨jp, hk, hjp⟩
  · left
    rw [mem_cons] at hb
    exact mem_cons_of_mem (hb.resolve_left nofun)
  · refine Or.inr ⟨jp, ⟨hk.1, hk.2.1, ?_⟩, hjp⟩
    intro h' hh'
    rcases mem_cons.mp hh' with heq | hR
    · cases heq
      rintro rfl
      exact hm hjp.symm
    · exact hk.2.2 h' (mem_cons_of_mem hR)

theorem alloc {type : FileType} (hl : Linked lost M s) :
    Linked lost (.born n ::ₘ M) { s with toDisk := s.setDinode n (FsM.newDinode type) } := by
  intro m hm₀ htype hlink
  by_cases hm : m = n
  · subst hm
    exact Or.inl (mem_cons_self _ _)
  · refine (hl.of_ne hm hm₀ htype hlink).imp mem_cons_of_mem ?_
    rintro ⟨jp, hk, hjp⟩
    refine ⟨jp, ⟨hk.1, hk.2.1, fun h hh => hk.2.2 h ?_⟩, hjp⟩
    rw [mem_cons] at hh
    exact hh.resolve_left nofun

end Linked

end Fs

end Xv6
