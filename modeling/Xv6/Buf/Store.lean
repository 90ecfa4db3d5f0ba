import Xv6.Buf.Cache

/-!
# The buffer cache is a store of blocks

What the operations of the cache do, under the list of its buffers (`Listed`), and the
store it stands for: `latest` has, for each block of a drive, what its last holder left.
-/

namespace Xv6

namespace Bcache

variable {s t : Bcache} {b : BufPtr} {dev blockno : Nat}

section Fields

variable (s b) (f : Buf → Buf)

@[simp] theorem modify_self : (s.modify b f).buf b = f (s.buf b) := by simp [modify]

theorem modify_of_ne {b' : BufPtr} (h : b' ≠ b) : (s.modify b f).buf b' = s.buf b' := by
  simp [modify, h]

end Fields

/-- The head list is a circular doubly linked list of all buffers, each once. -/
def Listed (s : Bcache) : Prop :=
  ∃ l : List BufPtr, s.links.Holds none (l.map some) ∧ l.Perm (List.finRange NBUF)

theorem filterMap_id_map_some {α : Type} (l : List α) : (l.map some).filterMap id = l := by
  induction l with
  | nil => rfl
  | cons a l ih => simp

theorem mem_walk {r : Ring.Links BufNode} {l : List BufPtr} (hl : r.Holds none (l.map some))
    (hperm : l.Perm (List.finRange NBUF)) (b : BufPtr) :
    b ∈ (Ring.Links.walk r.next none (NBUF + 1) (r.next none)).filterMap id := by
  have hlen : (l.map some).length < NBUF + 1 := by
    rw [List.length_map, hperm.length_eq, List.length_finRange]
    omega
  rw [hl.walk_eq hlen, filterMap_id_map_some]
  exact hperm.mem_iff.mpr (List.mem_finRange b)

theorem Listed.mem_forward (h : s.Listed) (b : BufPtr) : b ∈ s.forward := by
  obtain ⟨l, hl, hperm⟩ := h
  exact mem_walk hl hperm b

theorem Listed.mem_backward (h : s.Listed) (b : BufPtr) : b ∈ s.backward := by
  obtain ⟨l, hl, hperm⟩ := h
  have hflip := hl.flip
  rw [← List.map_reverse] at hflip
  exact mem_walk hflip ((List.reverse_perm l).trans hperm) b

theorem binit_listed (havedisk1 : Bool) (disk : Drives) : (binit havedisk1 disk).Listed := by
  have hfold : ∀ (bs done : List BufPtr) (r : Ring.Links BufNode),
      r.Holds none (done.map some) → (bs ++ done).Nodup →
      ∃ l : List BufPtr, (bs.foldl (fun r b => r.pushFront none (some b)) r).Holds none
        (l.map some) ∧ l.Perm (bs ++ done) := by
    intro bs
    induction bs with
    | nil =>
      intro done r hr _
      exact ⟨done, hr, List.Perm.refl _⟩
    | cons b bs ih =>
      intro done r hr hnd
      have hb : b ∉ bs ++ done := (List.nodup_cons.mp hnd).1
      have hpush := hr.pushFront (b := some b)
        (by simpa using fun h => hb (List.mem_append_right _ h))
      have hnd' : (bs ++ b :: done).Nodup := (List.perm_middle (a := b)).nodup_iff.mpr hnd
      obtain ⟨l, hl, hperm⟩ := ih (b :: done) _ hpush hnd'
      exact ⟨l, hl, hperm.trans List.perm_middle⟩
  obtain ⟨l, hl, hperm⟩ := hfold (List.finRange NBUF) [] (.alone none) (Ring.Links.alone_holds none)
    (by simpa using List.nodup_finRange NBUF)
  exact ⟨l, hl, by simpa using hperm⟩

/-! ## The operations -/

theorem brelse_ok (h : s.brelse b = .ok t) :
    (s.buf b).busy = true ∧
      t = { s with links := (s.links.remove (some b)).pushFront none (some b) }.modify b
        fun x => { x with busy := false } := by
  unfold brelse at h
  split at h
  · cases h
  · next hb =>
    cases h
    exact ⟨by simpa using hb, rfl⟩

theorem Listed.brelse (h : s.Listed) (hb : s.brelse b = .ok t) : t.Listed := by
  obtain ⟨l, hl, hperm⟩ := h
  obtain ⟨-, rfl⟩ := brelse_ok hb
  have hmem : b ∈ l := hperm.mem_iff.mpr (List.mem_finRange b)
  obtain ⟨l₁, l₂, rfl⟩ := List.append_of_mem hmem
  have hremoved : (s.links.remove (some b)).Holds none ((l₁ ++ l₂).map some) := by
    rw [List.map_append, List.map_cons] at hl
    rw [List.map_append]
    exact hl.remove
  have hnot : b ∉ l₁ ++ l₂ := by
    have hnd := hperm.nodup_iff.mpr (List.nodup_finRange NBUF)
    have hnd' := (List.perm_middle (a := b)).nodup_iff.mp hnd
    exact (List.nodup_cons.mp hnd').1
  refine ⟨b :: (l₁ ++ l₂), ?_, List.perm_middle.symm.trans hperm⟩
  exact hremoved.pushFront (by simpa using hnot)

def send (s : Bcache) (b : BufPtr) : Drives :=
  if (s.buf b).dirty then
    Function.update s.disk (drive (s.buf b).dev)
      (Function.update (s.disk (drive (s.buf b).dev)) (s.buf b).blockno (s.buf b).data)
  else s.disk

theorem idestart_ok (h : s.idestart b = .ok t) : t = { s with disk := s.send b } := by
  simp only [idestart] at h
  unfold send
  split at h
  · cases h
  · split at h
    · next hd =>
      cases h
      rw [if_pos hd]
    · next hd =>
      cases h
      rw [if_neg hd]

theorem iderw_ok (h : s.iderw b = .ok t) :
    (s.buf b).busy = true ∧ ((s.buf b).valid = false ∨ (s.buf b).dirty = true) ∧
      t = { s with
        idequeue := s.idequeue ++ [b]
        disk := if s.idequeue = [] then s.send b else s.disk } := by
  simp only [iderw] at h
  split at h
  · cases h
  · next hbusy =>
    split at h
    · cases h
    · next hflags =>
      split at h
      · cases h
      · have hor : (s.buf b).valid = false ∨ (s.buf b).dirty = true := by
          cases hv : (s.buf b).valid
          · exact Or.inl rfl
          · cases hd : (s.buf b).dirty
            · simp [hv, hd] at hflags
            · exact Or.inr rfl
        refine ⟨by simpa using hbusy, hor, ?_⟩
        split at h
        · next hq =>
          rw [if_pos hq]
          exact idestart_ok h
        · next hq =>
          cases h
          rw [if_neg hq]

/-- The three things a turn of `bget` can do. -/
theorem Listed.bget_ok (h : s.Listed) {r : Got} (hb : s.bget dev blockno = .ok (r, t)) :
    (∃ b, r = .buf b ∧ (s.buf b).dev = dev ∧ (s.buf b).blockno = blockno ∧
      (s.buf b).busy = false ∧ t = s.modify b fun x => { x with busy := true }) ∨
    (∃ b, r = .sleeps b ∧ t = s) ∨
    (∃ b, r = .buf b ∧ (∀ b', ¬ ((s.buf b').dev = dev ∧ (s.buf b').blockno = blockno)) ∧
      (s.buf b).busy = false ∧ (s.buf b).dirty = false ∧
      t = s.modify b fun x =>
        { x with
          dev := dev, blockno := blockno, busy := true, valid := false, dirty := false }) := by
  unfold bget at hb
  split at hb
  · next b hf =>
    have hmatch := List.find?_some hf
    rw [decide_eq_true_eq] at hmatch
    split at hb
    · next hbusy =>
      cases hb
      exact Or.inl ⟨b, rfl, hmatch.1, hmatch.2, by simpa using hbusy, rfl⟩
    · cases hb
      exact Or.inr (Or.inl ⟨b, rfl, rfl⟩)
  · next hf =>
    split at hb
    · next b hfree =>
      have hclean := List.find?_some hfree
      simp only [Bool.and_eq_true, Bool.not_eq_true'] at hclean
      cases hb
      refine Or.inr (Or.inr ⟨b, rfl, fun b' hm => ?_, hclean.1, hclean.2, rfl⟩)
      have hnone := List.find?_eq_none.mp hf b' (h.mem_forward b')
      exact hnone (by simpa using hm)
    · cases hb

theorem Listed.bget_error (h : s.Listed) {e : Fault} (hb : s.bget dev blockno = .error e) :
    ∀ b, (s.buf b).busy = true ∨ (s.buf b).dirty = true := by
  unfold bget at hb
  split at hb
  · split at hb
    · cases hb
    · cases hb
  · split at hb
    · cases hb
    · next hfree =>
      intro b
      have hnone := List.find?_eq_none.mp hfree b (h.mem_backward b)
      cases hbusy : (s.buf b).busy with
      | true => exact Or.inl rfl
      | false =>
        refine Or.inr ?_
        rw [hbusy] at hnone
        simpa using hnone

end Bcache

end Xv6
