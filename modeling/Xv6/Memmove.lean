import Xv6.Param

/-!
# The two `memmove`s

`memmove` of `string.c` in the kernel and of `ulib.c` in programs, over the bytes of the memory.
The kernel copies from the end when the destination starts inside the source.
-/

open Function (update update_of_ne update_self)

namespace Xv6

namespace Memmove

abbrev Memory := Word → BitVec 8

/-- `while(n-- > 0) *d++ = *s++;` -/
def forward : Nat → Word → Word → Memory → Memory
  | 0, _, _, m => m
  | n + 1, d, s, m => forward n (d + 1) (s + 1) (update m d (m s))

/-- `while(n-- > 0) *--d = *--s;` -/
def backward : Nat → Word → Word → Memory → Memory
  | 0, _, _, m => m
  | n + 1, d, s, m => backward n (d - 1) (s - 1) (update m (d - 1) (m (s - 1)))

/-- `memmove` of the kernel, whose length is unsigned: what it returns, and the memory. -/
def kernel (dst src n : Word) (m : Memory) : Word × Memory :=
  if src < dst ∧ src + n > dst then (dst, backward n.toNat (dst + n) (src + n) m)
  else (dst, forward n.toNat dst src m)

/-- `memmove` of the programs, whose length is an `int`. -/
def user (vdst vsrc n : Word) (m : Memory) : Word × Memory :=
  (vdst, forward n.toInt.toNat vdst vsrc m)

/-- The bytes of the source, as they were, are in the destination; `a - dst` is the place of
the address `a` in it. -/
def moved (dst src : Word) (n : Nat) (m : Memory) : Memory :=
  fun a => if (a - dst).toNat < n then m (src + (a - dst)) else m a

theorem forward_outside {n : Nat} {d s a : Word} {m : Memory} (hn : n ≤ 2 ^ 32)
    (ha : n ≤ (a - d).toNat) : forward n d s m a = m a := by
  induction n generalizing d s m with
  | zero => rfl
  | succ n ih =>
    rw [forward, ih (by omega) (by bv_omega), update_of_ne]
    rintro rfl
    bv_omega

theorem forward_add (k n : Nat) (d s : Word) (m : Memory) :
    forward (k + n) d s m =
      forward n (d + .ofNat 32 k) (s + .ofNat 32 k) (forward k d s m) := by
  induction k generalizing d s m with
  | zero => simp [forward]
  | succ k ih =>
    rw [Nat.succ_add_eq_add_succ, Nat.add_succ, forward, forward, ih]
    congr 1 <;> bv_omega

/-- Copying from the beginning reads no byte that it has written, unless the destination
starts inside the source. -/
theorem forward_eq_moved {n : Nat} {d s : Word} (m : Memory) (hn : n ≤ 2 ^ 32)
    (h : (d - s).toNat = 0 ∨ n ≤ (d - s).toNat) : forward n d s m = moved d s n m := by
  funext a
  induction n generalizing d s m with
  | zero => rfl
  | succ n ih =>
    rw [forward, ih _ (by omega) (by bv_omega)]
    unfold moved
    by_cases ha : a = d
    · subst ha
      rw [if_neg (by bv_omega), update_self, if_pos (by bv_omega)]
      congr 1
      bv_omega
    · by_cases hk : (a - (d + 1)).toNat < n
      · rw [if_pos hk, if_pos (by bv_omega), update_of_ne (by bv_omega)]
        congr 1
        bv_omega
      · rw [if_neg hk, if_neg (by bv_omega), update_of_ne ha]

/-- Copying from the end reads no byte that it has written, unless the source starts inside
the destination. -/
theorem backward_eq_moved {n : Nat} {d s : Word} (m : Memory) (hn : n ≤ 2 ^ 32)
    (h : (s - d).toNat = 0 ∨ n ≤ (s - d).toNat) :
    backward n (d + .ofNat 32 n) (s + .ofNat 32 n) m = moved d s n m := by
  funext a
  induction n generalizing m with
  | zero => rfl
  | succ n ih =>
    have hd : d + .ofNat 32 (n + 1) - 1 = d + .ofNat 32 n := by bv_omega
    have hs : s + .ofNat 32 (n + 1) - 1 = s + .ofNat 32 n := by bv_omega
    rw [backward, hd, hs, ih _ (by omega) (by omega)]
    unfold moved
    by_cases hk : (a - d).toNat < n
    · rw [if_pos hk, if_pos (by omega), update_of_ne]
      intro heq
      have hsub : s - d = .ofNat 32 n - (a - d) := by
        rw [sub_eq_sub_iff_add_eq_add, heq, add_comm]
      have hlt : n < 2 ^ 32 := hn
      have hval : (BitVec.ofNat 32 n).toNat = n := Nat.mod_eq_of_lt hlt
      rw [hsub, BitVec.toNat_sub_of_le (by rw [BitVec.le_def, hval]; omega), hval] at h
      omega
    · rw [if_neg hk]
      by_cases ha : a = d + .ofNat 32 n
      · subst ha
        rw [update_self, if_pos (by bv_omega)]
        congr 1
        bv_omega
      · rw [update_of_ne ha, if_neg (by bv_omega)]

section Ranges

variable {dst src n : Word} (hsrc : src.toNat + n.toNat ≤ 2 ^ 32)
  (hdst : dst.toNat + n.toNat ≤ 2 ^ 32)

include hsrc hdst

theorem kernel_eq_moved (m : Memory) : kernel dst src n m = (dst, moved dst src n.toNat m) := by
  have hlt := n.isLt
  unfold kernel
  split
  · have hback := backward_eq_moved (d := dst) (s := src) m (Nat.le_of_lt hlt) (by bv_omega)
    rw [BitVec.ofNat_toNat, BitVec.setWidth_eq] at hback
    rw [hback]
  · rw [forward_eq_moved m (Nat.le_of_lt hlt) (by bv_omega)]

omit hsrc in
/-- When the copy from the beginning comes to the first byte of the destination, it has
already overwritten it. -/
theorem forward_overlap (m : Memory) (hlow : src < dst) (hhigh : dst.toNat < src.toNat + n.toNat) :
    forward n.toNat dst src m (dst + (dst - src)) = m src := by
  obtain ⟨j, hj⟩ : ∃ j, n.toNat = (dst - src).toNat + (j + 1) :=
    ⟨n.toNat - (dst - src).toNat - 1, by bv_omega⟩
  have hlt := n.isLt
  have hread : src + (dst - src) = dst := by bv_omega
  rw [hj, forward_add, forward_eq_moved m (by omega) (Or.inr (Nat.le_refl _)), BitVec.ofNat_toNat,
    BitVec.setWidth_eq, forward, forward_outside (by omega) (by bv_omega), update_self, hread,
    moved, if_pos (by bv_omega)]
  congr 1
  bv_omega

/-- For lengths that are not negative and ranges that do not wrap: the kernel's `memmove`
moves the bytes, and the other one does the same for every memory exactly if the destination
does not start inside the source. -/
theorem memmoves_agree_iff (hn : 0 ≤ n.toInt) :
    (∀ m, kernel dst src n m = (dst, moved dst src n.toNat m)) ∧
      ((∀ m, user dst src n m = kernel dst src n m) ↔
        ¬ (src < dst ∧ dst.toNat < src.toNat + n.toNat)) := by
  have hkernel := kernel_eq_moved hsrc hdst
  have hlt := n.isLt
  have huser : n.toInt.toNat = n.toNat := by
    rw [BitVec.toInt_eq_toNat_cond] at hn ⊢
    split at hn <;> omega
  refine ⟨hkernel, ?_, ?_⟩
  · rintro hall ⟨hlow, hhigh⟩
    have heq := congrArg Prod.snd (hall fun a => if a = src then 1 else 0)
    rw [hkernel, user, huser] at heq
    have hbyte := congrFun heq (dst + (dst - src))
    dsimp only at hbyte
    rw [forward_overlap hdst _ hlow hhigh, moved, if_pos rfl, if_pos (by bv_omega),
      if_neg (by bv_omega)] at hbyte
    cases hbyte
  · intro hapart m
    rw [hkernel, user, huser, forward_eq_moved m (Nat.le_of_lt hlt) (by bv_omega)]

end Ranges

theorem memmoves_agree_down :
    user 0 1 2 (fun a => a.setWidth 8) = (0, moved 0 1 2 fun a => a.setWidth 8) := by
  have h := @memmoves_agree_iff 0 1 2 (by decide) (by decide) (by decide)
  rw [h.2.mpr (by decide), h.1]
  rfl

/-- Moving the bytes `5`, `6` up by one: the library of the programs makes them `5`, `5`. -/
theorem user_memmove_smears :
    let m : Memory := fun a => if a = 0 then 5 else if a = 1 then 6 else 0
    (kernel 1 0 2 m).2 2 = 6 ∧ (user 1 0 2 m).2 2 = 5 ∧ moved 1 0 2 m 2 = 6 := by
  decide

end Memmove

end Xv6
