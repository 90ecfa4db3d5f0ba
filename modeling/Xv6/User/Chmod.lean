import Xv6.Fs.State

/-!
# The mode of `chmod`

`main` of `chmod.c` up to the system call. The digits are added to a variable that has no initial
value: what the stack holds there is an argument.
-/

namespace Xv6

namespace Chmod

/-- The tests on `argv[1]`. -/
def accepts (mode : List Byte) : Bool :=
  mode.length == 4 && (mode.getD 0 0 == 48 || mode.getD 0 0 == 49) &&
    (mode.drop 1).all fun c => !(c.toInt < 48 || c.toInt > 55)

/-- `for(int x = 0; x < count; ++x) pow *= 8;` -/
def powLoop : Nat → Word → Word
  | 0, pow => pow
  | count + 1, pow => powLoop count (pow * 8)

structure Vars where
  decMode : Word
  pow : Word
  count : Nat

def turn (v : Vars) (c : Byte) : Vars :=
  let pow := if v.pow = 0 then 1 else powLoop v.count 1
  { decMode := v.decMode + BitVec.ofInt 32 (c.toInt - 48) * pow, pow := pow, count := v.count + 1 }

/-- The argument of the system call; the loop goes from the last digit to the first. -/
def modeArg (junk : Word) (mode : List Byte) : Option Word :=
  if accepts mode then some (mode.reverse.foldl turn ⟨junk, 0, 0⟩).decMode else none

def octal (mode : List Byte) : Int := mode.foldl (fun v c => 8 * v + (c.toInt - 48)) 0

theorem modeArg_eq {junk arg : Word} {mode : List Byte} (h : modeArg junk mode = some arg) :
    arg = junk + BitVec.ofInt 32 (octal mode) := by
  unfold modeArg at h
  split at h
  · next hacc =>
    unfold accepts at hacc
    simp only [Bool.and_eq_true, beq_iff_eq] at hacc
    obtain ⟨a, b, c, d, rfl⟩ := List.length_eq_four.mp hacc.1.1
    have hturns : arg = junk + BitVec.ofInt 32 (d.toInt - 48) * BitVec.ofInt 32 1 +
        BitVec.ofInt 32 (c.toInt - 48) * BitVec.ofInt 32 8 +
        BitVec.ofInt 32 (b.toInt - 48) * BitVec.ofInt 32 64 +
        BitVec.ofInt 32 (a.toInt - 48) * BitVec.ofInt 32 512 := (Option.some.inj h).symm
    rw [hturns, BitVec.add_assoc, BitVec.add_assoc, BitVec.add_assoc]
    simp only [← BitVec.ofInt_mul, ← BitVec.ofInt_add]
    congr 2
    simp only [octal, List.foldl_cons, List.foldl_nil]
    omega
  · cases h

/-- The mode that was given is passed on exactly if the stack holds 0. -/
theorem chmod_passes_mode_iff {junk arg : Word} {mode : List Byte}
    (h : modeArg junk mode = some arg) : arg = BitVec.ofInt 32 (octal mode) ↔ junk = 0 := by
  rw [modeArg_eq h]
  exact add_eq_right

theorem chmod_passes_0755 : modeArg 0 [48, 55, 53, 53] = some 0o755 ∧
    0o755 = BitVec.ofInt 32 (octal [48, 55, 53, 53]) := by
  have h : modeArg 0 [48, 55, 53, 53] = some 0o755 := by decide
  exact ⟨h, (chmod_passes_mode_iff h).mpr rfl⟩

theorem chmod_adds_stack : modeArg 1 [48, 55, 53, 53] = some 0o756 ∧
    0o756 ≠ BitVec.ofInt 32 (octal [48, 55, 53, 53]) := by
  decide

end Chmod

end Xv6
