import Xv6.Fs.State

/-!
# The arguments of a system call

What `syscall.c` fetches from the memory of the process that makes a system call, and how
the kernel stores bytes there. Addresses are 32 bits wide and wrap around.
-/

namespace Xv6

/-- The part of a process that the functions of `syscall.c` look at. -/
structure UserMem where
  /-- `proc->sz` -/
  sz : Word
  /-- `proc->tf->esp` -/
  esp : Word
  byte : Word → Byte

namespace UserMem

variable (u : UserMem)

def fetchint (addr : Word) : Option Word :=
  if addr ≥ u.sz ∨ addr + 4 > u.sz then none
  else some (u.byte (addr + 3) ++ u.byte (addr + 2) ++ u.byte (addr + 1) ++ u.byte addr)

def argint (n : Nat) : Option Word := u.fetchint (u.esp + 4 + 4 * BitVec.ofNat 32 n)

/-- The pointer, if `size` bytes from it on are in the process. The sum is one of unsigned
numbers. -/
def argptr (n : Nat) (size : Word) : Option Word :=
  match u.argint n with
  | none => none
  | some i => if i ≥ u.sz ∨ i + size > u.sz then none else some i

theorem argptr_lt {n : Nat} {size p : Word} (h : u.argptr n size = some p) :
    p.toNat < u.sz.toNat ∧ (p + size).toNat ≤ u.sz.toNat := by
  unfold argptr at h
  split at h
  · cases h
  · split at h
    · cases h
    · next hno =>
      cases h
      rw [not_or, BitVec.not_le, BitVec.not_lt] at hno
      exact ⟨BitVec.lt_def.mp hno.1, BitVec.le_def.mp hno.2⟩

end UserMem

/-- The bytes of a `uint`. -/
def bytesOf (x : Word) : List Byte := (List.range 4).map fun i => x.extractLsb' (8 * i) 8

/-- The bytes `safestrcpy(s, t, n)` stores from `s` on. -/
def safestrcpy : Nat → List Byte → List Byte
  | 0, _ => []
  | 1, _ => [0]
  -- the NUL of `t`, and the one after the loop
  | _ + 2, [] => [0, 0]
  | n + 2, c :: t => c :: safestrcpy (n + 1) t

theorem length_safestrcpy_le (n : Nat) (t : List Byte) : (safestrcpy n t).length ≤ n := by
  fun_induction safestrcpy n t with
  | case1 => exact Nat.le_refl 0
  | case2 => exact Nat.le_refl 1
  | case3 n => exact Nat.le_add_left 2 n
  | case4 n c t ih =>
    rw [List.length_cons]
    omega

def storesAt (a : Word) (bytes : List Byte) : List (Word × Byte) :=
  bytes.zipIdx.map fun (b, i) => (a + BitVec.ofNat 32 i, b)

theorem mem_storesAt {a : Word} {bytes : List Byte} {st : Word × Byte}
    (h : st ∈ storesAt a bytes) : ∃ i < bytes.length, st.1 = a + BitVec.ofNat 32 i := by
  obtain ⟨⟨b, i⟩, hmem, rfl⟩ := List.mem_map.mp h
  exact ⟨i, (List.mem_zipIdx' hmem).1, rfl⟩

end Xv6
