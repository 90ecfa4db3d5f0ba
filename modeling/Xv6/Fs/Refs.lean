import Xv6.Fs.Bmap

/-!
# References to inodes

What `iget`, `idup`, `ilock` and `iput` do to the entries of the inode cache.
-/

namespace Xv6

namespace Fs

def noInodes : Fault := .panic "iget: no inodes"

/-- `iget` has taken a reference to an entry: one that was in use for the inode, or one
that was not in use while no entry was for the inode. -/
structure Got (dev inum : Nat) (s : Fs) (ip : InodePtr) (t : Fs) : Prop where
  rest : t = { s with icache := Function.update s.icache ip (t.icache ip) }
  dev_eq : (t.icache ip).dev = dev
  inum_eq : (t.icache ip).inum = inum
  old : 0 < (s.icache ip).ref →
    t.icache ip = { s.icache ip with ref := (s.icache ip).ref + 1 }
  new : ¬ 0 < (s.icache ip).ref → (s.icache ip).ref = 0 ∧ (t.icache ip).ref = 1 ∧
    (t.icache ip).busy = false ∧ (t.icache ip).valid = false ∧
    ∀ jp, 0 < (s.icache jp).ref → ¬ ((s.icache jp).dev = dev ∧ (s.icache jp).inum = inum)

namespace Got

variable {dev inum : Nat} {s t : Fs} {ip jp : InodePtr}

theorem icache_of_ne (h : Got dev inum s ip t) (hj : jp ≠ ip) : t.icache jp = s.icache jp := by
  have := congrArg (fun u : Fs => u.icache jp) h.rest
  dsimp only at this
  rwa [Function.update_of_ne hj] at this

theorem toDisk (h : Got dev inum s ip t) : t.toDisk = s.toDisk := by
  rw [h.rest]

theorem ref (h : Got dev inum s ip t) : (t.icache ip).ref = (s.icache ip).ref + 1 := by
  by_cases hp : 0 < (s.icache ip).ref
  · rw [h.old hp]
  · rw [(h.new hp).2.1, (h.new hp).1]
    rfl

end Got

/-- An entry is locked, with its inode in it. -/
def locked (s : Fs) (ip : InodePtr) : Fs :=
  { s with
    icache := Function.update s.icache ip
      { s.icache ip with
        busy := true
        valid := true
        d := if (s.icache ip).valid = true then (s.icache ip).d
          else s.dinode (s.icache ip).inum } }

end Fs

namespace FsM

open Effect Fs

variable {s : Fs} {ip : InodePtr} {dev inum : Nat}

theorem cached_eq_some (h : cached s dev inum = some ip) :
    0 < (s.icache ip).ref ∧ (s.icache ip).dev = dev ∧ (s.icache ip).inum = inum := by
  simpa using List.find?_some h

theorem cached_eq_none (h : cached s dev inum = none) (ip : InodePtr)
    (hp : 0 < (s.icache ip).ref) : ¬ ((s.icache ip).dev = dev ∧ (s.icache ip).inum = inum) := by
  have := List.find?_eq_none.mp h ip (List.mem_finRange ip)
  intro hi
  exact this (decide_eq_true ⟨hp, hi⟩)

theorem iget_ends : Ends (iget dev inum) s
    (fun ip t ev => Got dev inum s ip t ∧ ev = [.took ip]) (fun f => f = noInodes) := by
  refine ends_bind (ends_get ?_)
  cases hc : cached s dev inum with
  | some ip =>
    obtain ⟨hpos, hdev, hinum⟩ := cached_eq_some hc
    refine ends_bind (setInode_ends (ends_bind (ends_emit (ends_pure ⟨?_, rfl⟩))))
    constructor
    · simp
    · simpa using hdev
    · simpa using hinum
    · simp
    · exact fun hn => absurd hpos hn
  | none =>
    cases hf : (List.finRange NINODE).find? fun ip => decide ((s.icache ip).ref = 0) with
    | some ip =>
      have hzero : (s.icache ip).ref = 0 := by simpa using List.find?_some hf
      refine ends_bind (setInode_ends (ends_bind (ends_emit (ends_pure ⟨?_, rfl⟩))))
      constructor
      · simp
      · simp
      · simp
      · intro hpos
        omega
      · intro _
        refine ⟨hzero, ?_⟩
        simp only [Function.update_self, true_and]
        exact cached_eq_none hc
    | none => exact ends_fail rfl

theorem ilock_ends {Q : Unit → Fs → List Event → Prop} {X : Fault → Prop}
    (href : 1 ≤ (s.icache ip).ref)
    (hq : ((s.icache ip).valid ≠ true → (s.dinode (s.icache ip).inum).type ≠ .free) →
      Q () (s.locked ip) [])
    (hx : (s.dinode (s.icache ip).inum).type = .free → X (.panic "ilock: no type")) :
    Ends (ilock ip) s Q X := by
  unfold Fs.locked at hq
  refine ends_bind (ends_get ?_)
  rw [if_neg (by omega)]
  split
  · next hv =>
    have hsame : { s.icache ip with busy := true, valid := true } =
        { s.icache ip with busy := true } := by
      rw [← hv]
    rw [if_pos hv, hsame] at hq
    exact setInode_ends (hq fun hn => absurd hv hn)
  · next hv =>
    rw [if_neg hv] at hq
    refine ends_bind (setInode_ends ?_)
    split
    · next htype => exact ends_fail (hx htype)
    · next htype => exact ends_pure (hq fun _ => htype)

theorem iputTest_keep_ends {Q : Bool → Fs → List Event → Prop} {X : Fault → Prop}
    (h : ¬ ((s.icache ip).ref = 1 ∧ (s.icache ip).valid = true ∧ (s.icache ip).d.nlink = 0))
    (hq : Q false
      { s with
        icache := Function.update s.icache ip
          { s.icache ip with ref := (s.icache ip).ref - 1 } } [.dropped ip]) :
    Ends (iputTest ip) s Q X := by
  refine ends_bind (ends_bind (ends_get (ends_pure ?_)))
  rw [if_neg h]
  exact ends_bind (setInode_ends (ends_bind (ends_emit (ends_pure hq))))

end FsM

end Xv6
