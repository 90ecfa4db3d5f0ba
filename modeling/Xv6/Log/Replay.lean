import Xv6.Log.Disk

/-!
# What the log on disk stands for

The disk with the writes of its log made: what `recover_from_log` is there to bring
about. `write_head` changes it from one transaction to the next in one disk write; the
writes of `write_log` and `install_trans` leave it as it is.
-/

open Function (update update_of_ne update_self)

namespace Xv6

/-! ## The header block -/

variable {lh : List Nat}

theorem Block.n_withHead (x : Block) (h : lh.length ≤ LOGSIZE) :
    (x.withHead lh).n = lh.length := by
  have hlen : lh.length ≤ 30 := h
  have hto : (BitVec.ofNat 32 lh.length).toNat = lh.length := by
    rw [BitVec.toNat_ofNat]
    omega
  unfold Block.n Block.withHead
  rw [if_pos rfl, BitVec.toInt_eq_toNat_of_lt (by omega), hto, Int.toNat_natCast]

variable {i : Nat}

theorem Block.withHead_succ (x : Block) (h : lh.length ≤ LOGSIZE)
    (hi : i < lh.length) :
    x.withHead lh (Fin.ofNat (BSIZE / 4) (i + 1)) = BitVec.ofNat 32 lh[i] := by
  have hlen : lh.length ≤ 30 := h
  have hval : (Fin.ofNat (BSIZE / 4) (i + 1)).val = i + 1 :=
    Nat.mod_eq_of_lt (by unfold BSIZE; omega)
  have hne : Fin.ofNat (BSIZE / 4) (i + 1) ≠ 0 := by
    intro heq
    rw [heq, Fin.val_zero] at hval
    omega
  unfold Block.withHead
  rw [if_neg hne, hval, Nat.add_sub_cancel, List.getElem?_eq_getElem hi]

theorem Block.entries_length (x : Block) : x.entries.length = x.n := by
  unfold Block.entries
  rw [List.length_map, List.length_range]

theorem Block.getElem_entries (x : Block) (hi : i < x.entries.length) :
    x.entries[i] = (x (Fin.ofNat (BSIZE / 4) (i + 1))).toNat := by
  simp only [Block.entries, List.getElem_map, List.getElem_range]

theorem Block.entries_withHead (x : Block) (h : lh.length ≤ LOGSIZE)
    (hlt : ∀ b ∈ lh, b < 2 ^ 32) : (x.withHead lh).entries = lh := by
  refine List.ext_getElem (by rw [Block.entries_length, x.n_withHead h]) ?_
  intro i hi hi'
  rw [Block.getElem_entries, x.withHead_succ h hi', BitVec.toNat_ofNat]
  exact Nat.mod_eq_of_lt (hlt _ (List.getElem_mem hi'))

namespace LogDisk

variable {s : LogDisk} {b c : Nat} {x : Block}

/-! ## The cache -/

section Fields

variable (s b x)

@[simp] theorem load_disk : (s.load b).disk = s.disk := rfl

@[simp] theorem load_log : (s.load b).log = s.log := rfl

@[simp] theorem bread_load : (s.load b).bread c = s.bread c := by
  unfold bread load
  by_cases h : c = b
  · subst h
    simp only [update_self]
    cases s.cache c <;> rfl
  · simp only [update_of_ne h]

@[simp] theorem bwrite_log : (s.bwrite b x).log = s.log := rfl

@[simp] theorem bwrite_disk : (s.bwrite b x).disk = update s.disk b x := rfl

end Fields

theorem bread_bwrite_of_ne (h : c ≠ b) : (s.bwrite b x).bread c = s.bread c := by
  unfold bread bwrite
  simp only [update_of_ne h]

/-- A buffer that is not dirty holds what is on disk, and the dirty ones are pinned. -/
structure Cached (s : LogDisk) (pins : List Nat) : Prop where
  clean : ∀ {b buf}, s.cache b = some buf → buf.dirty = false → buf.data = s.disk b
  dirty : ∀ {b buf}, s.cache b = some buf → buf.dirty = true → b ∈ pins

namespace Cached

variable {pins : List Nat}

theorem bread_eq (h : Cached s pins) (hb : b ∉ pins) : s.bread b = s.disk b := by
  unfold bread
  cases hc : s.cache b with
  | none => rfl
  | some buf =>
    cases hd : buf.dirty with
    | false => exact h.clean hc hd
    | true => exact absurd (h.dirty hc hd) hb

theorem load (h : Cached s pins) : Cached (s.load b) pins := by
  have hcache : ∀ {c buf}, (s.load b).cache c = some buf →
      s.cache c = some buf ∨ buf = { data := s.disk c, dirty := false } := by
    intro c buf hc
    by_cases hcb : c = b
    · subst hcb
      simp only [LogDisk.load, update_self, Option.some.injEq] at hc
      cases hcache : s.cache c with
      | none => exact Or.inr (by rw [← hc, hcache]; rfl)
      | some buf' => exact Or.inl (by rw [← hc, hcache]; rfl)
    · simp only [LogDisk.load, update_of_ne hcb] at hc
      exact Or.inl hc
  refine ⟨fun {c buf} hc hd => ?_, fun {c buf} hc hd => ?_⟩
  · rcases hcache hc with hc | rfl
    · exact h.clean hc hd
    · rfl
  · rcases hcache hc with hc | rfl
    · exact h.dirty hc hd
    · cases hd

theorem bwrite {pins' : List Nat} (h : Cached s pins)
    (hpins : ∀ c ∈ pins, c ≠ b → c ∈ pins') : Cached (s.bwrite b x) pins' := by
  refine ⟨fun {c buf} hc hd => ?_, fun {c buf} hc hd => ?_⟩ <;>
    by_cases hcb : c = b
  · subst hcb
    simp only [LogDisk.bwrite, update_self, Option.some.injEq] at hc ⊢
    rw [← hc]
  · simp only [LogDisk.bwrite, update_of_ne hcb] at hc ⊢
    exact h.clean hc hd
  · subst hcb
    simp only [LogDisk.bwrite, update_self, Option.some.injEq] at hc
    rw [← hc] at hd
    cases hd
  · simp only [LogDisk.bwrite, update_of_ne hcb] at hc
    exact hpins c (h.dirty hc hd) hcb

theorem logWrite (h : Cached s s.log.lh) : Cached (s.logWrite b x) (s.log.record b).lh := by
  refine ⟨fun {c buf} hc hd => ?_, fun {c buf} hc hd => ?_⟩ <;>
    by_cases hcb : c = b
  · subst hcb
    simp only [LogDisk.logWrite, update_self, Option.some.injEq] at hc
    rw [← hc] at hd
    cases hd
  · simp only [LogDisk.logWrite, update_of_ne hcb] at hc
    exact h.clean hc hd
  · exact Log.mem_record.mpr (Or.inr hcb)
  · simp only [LogDisk.logWrite, update_of_ne hcb] at hc
    exact Log.mem_record.mpr (Or.inl (h.dirty hc hd))

theorem bread_evict {buf : Buf} (h : Cached s pins) (hc : s.cache b = some buf)
    (hd : buf.dirty = false) (c : Nat) :
    { s with cache := update s.cache b none }.bread c = s.bread c := by
  unfold bread
  by_cases hcb : c = b
  · subst hcb
    simp only [update_self, hc]
    exact (h.clean hc hd).symm
  · simp only [update_of_ne hcb]

theorem evict (h : Cached s pins) :
    Cached { s with cache := update s.cache b none } pins := by
  have hcache : ∀ {c buf}, update s.cache b none c = some buf →
      s.cache c = some buf := by
    intro c buf hc
    by_cases hcb : c = b
    · rw [hcb, update_self] at hc
      cases hc
    · rwa [update_of_ne hcb] at hc
  exact ⟨fun hc hd => h.clean (hcache hc) hd, fun hc hd => h.dirty (hcache hc) hd⟩

end Cached

/-! ## The entries of a log -/

/-- Entries that `commit` can write and `recover_from_log` can read back. -/
structure Listed (l : Log) (lh : List Nat) : Prop where
  nodup : lh.Nodup
  home : ∀ b ∈ lh, Home l b
  length_lt : lh.length + 1 ≤ l.size
  length_le : lh.length ≤ LOGSIZE

variable {l : Log}

theorem Home.ne (h : Home l b) (hl : l.start ≤ c) (hu : c < l.start + l.size) :
    b ≠ c := by
  have := h.1
  omega

theorem Listed.nil (h : 0 < l.size) : Listed l [] := by
  refine ⟨List.nodup_nil, ?_, ?_, Nat.zero_le _⟩
  · intro b hb
    cases hb
  · rw [List.length_nil]
    omega

theorem Listed.home_get (h : Listed l lh)
    (hb : lh[i]? = some b) : Home l b :=
  h.home b (List.mem_of_getElem? hb)

theorem Listed.inside (h : Listed l lh)
    (hb : lh[i]? = some b) : l.start + i + 1 < l.start + l.size := by
  have := (List.getElem?_eq_some_iff.mp hb).1
  have := h.length_lt
  omega

theorem Listed.ne (h : Listed l lh)
    (hb : lh[i]? = some b) (hc : Home l c) : c ≠ l.start + i + 1 :=
  hc.ne (by omega) (h.inside hb)

/-! ## Replaying the log -/

def head (s : LogDisk) : List Nat := (s.disk s.log.start).entries

def logged (s : LogDisk) : Txn := s.head.mapIdx fun i b => (b, s.disk (s.log.start + i + 1))

def replay (s : LogDisk) : Nat → Block := Redo.overlay s.disk s.logged

theorem keys_logged (s : LogDisk) : s.logged.map Prod.fst = s.head := by
  unfold logged
  refine List.ext_getElem (by simp) ?_
  intro i hi hi'
  rw [List.getElem_map, List.getElem_mapIdx]

theorem mem_logged {e : Nat × Block} :
    e ∈ s.logged ↔ ∃ i, s.head[i]? = some e.1 ∧ s.disk (s.log.start + i + 1) = e.2 := by
  unfold logged
  rw [List.mem_iff_getElem?]
  refine exists_congr fun i => ?_
  rw [List.getElem?_mapIdx, Option.map_eq_some_iff]
  constructor
  · rintro ⟨b, hb, rfl⟩
    exact ⟨hb, rfl⟩
  · rintro ⟨hb, he⟩
    exact ⟨e.1, hb, Prod.ext rfl he⟩

theorem replay_of_head_nil (h : s.head = []) : s.replay = s.disk := by
  unfold replay logged
  rw [h]
  rfl

/-- The first entries of `lh` are installed. -/
def Installed (s : LogDisk) (tail : Nat) : Prop :=
  ∀ {i b}, i < tail → s.log.lh[i]? = some b → s.disk b = s.disk (s.log.start + i + 1)

/-- The buffers of the first entries of `lh` are copied to the log. -/
def Copied (s : LogDisk) (tail : Nat) : Prop :=
  ∀ {i b}, i < tail → s.log.lh[i]? = some b → s.disk (s.log.start + i + 1) = s.bread b

theorem replay_of_installed (hn : s.head.Nodup) (hlh : s.head = s.log.lh)
    (h : Installed s s.log.lh.length) : s.replay = s.disk := by
  refine Redo.overlay_of_installed (by rwa [keys_logged]) ?_
  intro e he
  obtain ⟨i, hi, hx⟩ := mem_logged.mp he
  rw [hlh] at hi
  rw [← hx]
  exact h (List.getElem?_eq_some_iff.mp hi).1 hi

theorem logged_bwrite (h : Listed s.log s.head) (hb : Home s.log b) :
    (s.bwrite b x).logged = s.logged := by
  have hstart : s.log.start ≠ b :=
    (hb.ne (Nat.le_refl _) (by have := h.length_lt; omega)).symm
  have hhead : (s.bwrite b x).head = s.head := by
    unfold head
    rw [bwrite_log, bwrite_disk, update_of_ne hstart]
  unfold logged
  rw [hhead, bwrite_log, bwrite_disk]
  refine List.mapIdx_eq_mapIdx_iff.mpr fun i hi => ?_
  have hne := h.ne (List.getElem?_eq_getElem hi) hb
  rw [update_of_ne hne.symm]

theorem replay_bwrite (h : Listed s.log s.head) (hb : (b, x) ∈ s.logged) :
    (s.bwrite b x).replay = s.replay := by
  obtain ⟨i, hi, -⟩ := mem_logged.mp hb
  unfold replay
  rw [logged_bwrite h (h.home_get hi), bwrite_disk]
  exact Redo.overlay_update (by rw [keys_logged]; exact h.nodup) hb

theorem disk_bwrite_inside (hb : Home s.log b) (hl : s.log.start ≤ c)
    (hu : c < s.log.start + s.log.size) : (s.bwrite c x).disk b = s.disk b :=
  update_of_ne (hb.ne hl hu) _ _

theorem head_writeHead (h : Listed s.log s.log.lh) : s.writeHead.head = s.log.lh := by
  unfold head writeHead
  rw [bwrite_log, bwrite_disk, update_self]
  exact Block.entries_withHead _ h.length_le fun b hb => (h.home b hb).2

theorem logged_writeHead (h : Listed s.log s.log.lh) (hc : Copied s s.log.lh.length) :
    s.writeHead.logged = s.txn := by
  unfold logged txn
  rw [head_writeHead h]
  refine List.ext_getElem (by simp) ?_
  intro i hi hi'
  rw [List.getElem_mapIdx, List.getElem_map]
  rw [List.length_map] at hi'
  have hne : s.log.start + i + 1 ≠ s.log.start := by omega
  have hdisk : s.writeHead.disk (s.writeHead.log.start + i + 1) =
      s.disk (s.log.start + i + 1) := update_of_ne hne _ _
  rw [hdisk, hc hi' (List.getElem?_eq_getElem hi')]

end LogDisk

end Xv6
