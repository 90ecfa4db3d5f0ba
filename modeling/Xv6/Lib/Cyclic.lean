import Mathlib.Data.BitVec

/-!
# Queues in a cyclic buffer

A buffer of `N` cells with two counters of `w` bits: one counts the elements that were put
in, the other those that were taken out. The counters wrap around, and count on as long as
`N` divides `2 ^ w`. `Holds` says which queue the cells between the counters are.
-/

namespace Cyclic

variable {α : Type*} {w N : Nat} [NeZero N]

def cell (N : Nat) [NeZero N] (c : BitVec w) : Fin N := Fin.ofNat N c.toNat

/-- The cells from counter `r` up to counter `e` are the queue, oldest first. -/
structure Holds (data : Fin N → α) (r e : BitVec w) (q : List α) : Prop where
  length_le : q.length ≤ N
  ends : e = r + BitVec.ofNat w q.length
  cells : ∀ i (h : i < q.length), data (cell N (r + BitVec.ofNat w i)) = q[i]

theorem cell_add (hN : N ∣ 2 ^ w) (r : BitVec w) (i : Nat) :
    (cell N (r + BitVec.ofNat w i)).val = (r.toNat + i) % N := by
  change (r + BitVec.ofNat w i).toNat % N = _
  rw [BitVec.toNat_add, BitVec.toNat_ofNat, Nat.add_mod_mod, Nat.mod_mod_of_dvd _ hN]

theorem cell_ne (hN : N ∣ 2 ^ w) (r : BitVec w) {i j : Nat} (hij : i < j) (hj : j < N) :
    cell N (r + BitVec.ofNat w i) ≠ cell N (r + BitVec.ofNat w j) := by
  intro heq
  have hval := congrArg Fin.val heq
  rw [cell_add hN, cell_add hN] at hval
  have hmod : (r.toNat + j - (r.toNat + i)) % N = 0 := Nat.sub_mod_eq_zero_of_mod_eq hval.symm
  rw [Nat.add_sub_add_left, Nat.mod_eq_of_lt (by omega)] at hmod
  omega

theorem add_ofNat_inj {r : BitVec w} {i j : Nat} (hi : i < 2 ^ w) (hj : j < 2 ^ w) :
    r + BitVec.ofNat w i = r + BitVec.ofNat w j ↔ i = j := by
  constructor
  · intro heq
    have hval := congrArg BitVec.toNat (add_left_cancel heq)
    rwa [BitVec.toNat_ofNat, BitVec.toNat_ofNat, Nat.mod_eq_of_lt hi, Nat.mod_eq_of_lt hj]
      at hval
  · rintro rfl
    rfl

namespace Holds

variable {data : Fin N → α} {r e : BitVec w} {q : List α} {b : α}

theorem nil (data : Fin N → α) (r : BitVec w) : Holds data r r [] where
  length_le := Nat.zero_le _
  ends := (add_zero r).symm
  cells := fun _ h => absurd h (Nat.not_lt_zero _)

section Tests

variable (h : Holds data r e q) (hlt : N < 2 ^ w)

include h hlt

theorem length_eq : (e - r).toNat = q.length := by
  have := h.length_le
  rw [h.ends, add_sub_cancel_left, BitVec.toNat_ofNat, Nat.mod_eq_of_lt (by omega)]

theorem empty_iff : r = e ↔ q = [] := by
  have hle := h.length_le
  have hzero : r = r + BitVec.ofNat w 0 := (add_zero r).symm
  rw [h.ends]
  nth_rewrite 1 [hzero]
  rw [add_ofNat_inj (by omega) (by omega), eq_comm, List.length_eq_zero_iff]

theorem full_iff : e = r + BitVec.ofNat w N ↔ q.length = N := by
  have hle := h.length_le
  rw [h.ends, add_ofNat_inj (by omega) hlt]

end Tests

theorem eq_map (h : Holds data r e q) :
    q = (List.range q.length).map fun i => data (cell N (r + BitVec.ofNat w i)) := by
  apply List.ext_getElem
  · simp
  · intro i hi _
    simp [h.cells i hi]

theorem push (h : Holds data r e q) (hN : N ∣ 2 ^ w) (hfree : q.length < N) (b : α) :
    Holds (Function.update data (cell N e) b) r (e + 1) (q ++ [b]) where
  length_le := by
    rwa [List.length_append]
  ends := by
    rw [List.length_append, h.ends, add_assoc]
    congr 1
    apply BitVec.eq_of_toNat_eq
    simp [BitVec.toNat_add, BitVec.toNat_ofNat]
  cells := by
    intro i hi
    rw [h.ends]
    by_cases hlast : i < q.length
    · rw [Function.update_of_ne (cell_ne hN r hlast hfree), h.cells i hlast,
        List.getElem_append_left hlast]
    · have heq : i = q.length := by
        rw [List.length_append] at hi
        exact Nat.le_antisymm (Nat.le_of_lt_succ hi) (Nat.not_lt.mp hlast)
      subst heq
      rw [Function.update_self, List.getElem_append_right (Nat.le_refl _)]
      simp

theorem pop (h : Holds data r e (b :: q)) :
    data (cell N r) = b ∧ Holds data (r + 1) e q := by
  have hone : ∀ i, r + BitVec.ofNat w (i + 1) = r + 1 + BitVec.ofNat w i := by
    intro i
    rw [add_assoc]
    congr 1
    apply BitVec.eq_of_toNat_eq
    simp [BitVec.toNat_add, BitVec.toNat_ofNat, Nat.add_comm]
  refine ⟨?_, ⟨Nat.le_of_succ_le h.length_le, ?_, fun i hi => ?_⟩⟩
  · have hfirst := h.cells 0 (Nat.succ_pos _)
    rwa [show r + BitVec.ofNat w 0 = r from add_zero r] at hfirst
  · rw [h.ends, List.length_cons, hone]
  · have hnext := h.cells (i + 1) (Nat.succ_lt_succ hi)
    rwa [hone, List.getElem_cons_succ] at hnext

theorem left {q' : List α} (h : Holds data r e (q ++ q')) :
    Holds data r (r + BitVec.ofNat w q.length) q where
  length_le := by
    have := h.length_le
    rw [List.length_append] at this
    omega
  ends := rfl
  cells := by
    intro i hi
    have hi' : i < (q ++ q').length := by
      rw [List.length_append]
      omega
    rw [h.cells i hi', List.getElem_append_left hi]

theorem right {q' : List α} (h : Holds data r e (q ++ q')) :
    Holds data (r + BitVec.ofNat w q.length) e q' where
  length_le := by
    have := h.length_le
    rw [List.length_append] at this
    omega
  ends := by rw [h.ends, List.length_append, BitVec.ofNat_add, add_assoc]
  cells := by
    intro i hi
    have hi' : q.length + i < (q ++ q').length := by
      rw [List.length_append]
      omega
    have hcell := h.cells (q.length + i) hi'
    rw [BitVec.ofNat_add, ← add_assoc] at hcell
    rw [hcell, List.getElem_append_right (Nat.le_add_right _ _)]
    simp

theorem unpush (h : Holds data r e (q ++ [b])) :
    data (cell N (e - 1)) = b ∧ Holds data r (e - 1) q := by
  have hends : e - 1 = r + BitVec.ofNat w q.length := by
    rw [h.ends, List.length_append, List.length_singleton, BitVec.ofNat_add, ← add_assoc]
    exact add_sub_cancel_right _ _
  have hlast : q.length < (q ++ [b]).length := by
    rw [List.length_append, List.length_singleton]
    exact Nat.lt_succ_self _
  refine ⟨?_, ?_⟩
  · rw [hends, h.cells q.length hlast, List.getElem_append_right (Nat.le_refl _)]
    simp
  · rw [hends]
    exact h.left

end Holds

end Cyclic
