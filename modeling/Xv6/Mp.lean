import Xv6.Fs.Exec

/-!
# The configuration table of the processors

`mpconfig` and `mpinit` of `mp.c` on the bytes of a configuration table. The loop of `mpinit`
leaves its pointer where it is at an entry of a type that it does not know, and counts
processors without a look at the length of `cpus`.
-/

namespace Xv6

namespace Mp

/-- The memory from `conf` on. -/
abbrev Table := Nat → Byte

def NCPU : Nat := 8

def MPBOOT : Byte := 2

def CONFSIZE : Nat := 44

def length (t : Table) : Nat := (t 5 ++ t 4 : BitVec 16).toNat

def sum (t : Table) (len : Nat) : Byte := ((List.range len).map t).sum

/-- `mpconfig` returns this table. -/
def mpconfig (t : Table) : Bool :=
  [t 0, t 1, t 2, t 3] == [0x50, 0x43, 0x4d, 0x50] && (t 6 == 1 || t 6 == 4) &&
    sum t (length t) == 0

/-- The cases of the `switch`. -/
inductive Kind
  | proc
  | ioapic
  | other
  | unknown
deriving DecidableEq

def kind (type : Byte) : Kind :=
  if type = 0 then .proc
  else if type = 2 then .ioapic
  else if type = 1 ∨ type = 3 ∨ type = 4 then .other
  else .unknown

/-- The variables of `mp.c`, and the pointer of the loop. -/
structure State where
  p : Nat
  ismp : Bool
  lapic : Word
  ncpu : Nat
  bcpu : Nat
  ioapicid : Byte
  /-- `cpus[i].id` -/
  id : Nat → Byte
  accessed : List Nat

def turn (t : Table) (s : State) : State :=
  if s.p < length t then
    match kind (t s.p) with
    | .proc =>
      { s with
        ismp := s.ismp && decide (s.ncpu = (t (s.p + 1)).toNat)
        bcpu := if t (s.p + 3) &&& MPBOOT ≠ 0 then s.ncpu else s.bcpu
        id := Function.update s.id s.ncpu (BitVec.ofNat 8 s.ncpu)
        accessed := s.accessed ++ [s.ncpu]
        ncpu := s.ncpu + 1
        p := s.p + 20 }
    | .ioapic => { s with ioapicid := t (s.p + 1), p := s.p + 8 }
    | .other => { s with p := s.p + 8 }
    | .unknown => { s with ismp := false }
  else s

def turns (t : Table) : Nat → State
  | 0 =>
    { p := CONFSIZE, ismp := true, lapic := Fs.wordAt t 36, ncpu := 0, bcpu := 0, ioapicid := 0
      id := fun _ => 0, accessed := [] }
  | n + 1 => turn t (turns t n)

/-- The end of `mpinit`, without its output to the IMCR. -/
def finish (s : State) : State :=
  if s.ismp then s else { s with ncpu := 1, lapic := 0, ioapicid := 0 }

def Terminates (t : Table) : Prop := ∃ n, length t ≤ (turns t n).p

def At (t : Table) (k : Kind) (n : Nat) : Prop :=
  (turns t n).p < length t ∧ kind (t (turns t n).p) = k

instance (t : Table) (k : Kind) : DecidablePred (At t k) :=
  fun _ => inferInstanceAs (Decidable (_ ∧ _))

def processors (t : Table) (n : Nat) : Nat := (List.range n).countP fun i => At t .proc i

/-- `mpinit` stays inside `cpus`, and leaves the processors that it has found. -/
def StaysWithin (t : Table) : Prop :=
  (∀ n, ∀ i ∈ (turns t n).accessed, i < NCPU) ∧
  ∀ n, length t ≤ (turns t n).p → 0 < processors t n →
    1 ≤ (finish (turns t n)).ncpu ∧ (finish (turns t n)).ncpu ≤ NCPU ∧
      ∀ i < (finish (turns t n)).ncpu, (finish (turns t n)).id i = BitVec.ofNat 8 i

variable {t : Table} {s : State} {n : Nat}

/-! ## Termination -/

theorem turn_done (h : length t ≤ s.p) : turn t s = s := if_neg (by omega)

theorem turn_p (hp : s.p < length t) :
    (turn t s).p = s.p ∧ kind (t s.p) = .unknown ∨ s.p < (turn t s).p := by
  unfold turn
  rw [if_pos hp]
  cases kind (t s.p) with
  | unknown => exact Or.inl ⟨rfl, rfl⟩
  | _ => exact Or.inr (by dsimp only; omega)

theorem turn_unknown (hp : s.p < length t) (hk : kind (t s.p) = .unknown) :
    turn t s = { s with ismp := false } := by
  unfold turn
  rw [if_pos hp, hk]

theorem p_monotone (t : Table) : Monotone fun n => (turns t n).p := by
  refine monotone_nat_of_le_succ fun n => ?_
  change (turns t n).p ≤ (turn t (turns t n)).p
  by_cases hp : (turns t n).p < length t
  · rcases turn_p hp with ⟨heq, -⟩ | hlt
    · exact Nat.le_of_eq heq.symm
    · exact Nat.le_of_lt hlt
  · rw [turn_done (by omega)]

/-- As long as the types are known, each turn brings the loop nearer to the end. -/
theorem ends_of_known (h : ∀ n, ¬ At t .unknown n) (n : Nat) :
    n ≤ (turns t n).p ∨ length t ≤ (turns t n).p := by
  induction n with
  | zero => exact Or.inl (Nat.zero_le _)
  | succ n ih =>
    change n + 1 ≤ (turn t (turns t n)).p ∨ length t ≤ (turn t (turns t n)).p
    by_cases hp : (turns t n).p < length t
    · rcases turn_p hp with ⟨-, hk⟩ | hlt
      · exact absurd ⟨hp, hk⟩ (h n)
      · omega
    · rw [turn_done (by omega)]
      omega

/-- At an entry of an unknown type the loop stays. -/
theorem stuck_of_unknown (h : At t .unknown n) (m : Nat) : (turns t (n + m)).p = (turns t n).p := by
  induction m with
  | zero => rfl
  | succ m ih =>
    change (turn t (turns t (n + m))).p = _
    rw [turn_unknown (by rw [ih]; exact h.1) (by rw [ih]; exact h.2)]
    exact ih

def strange : Table := fun i =>
  [0x50, 0x43, 0x4d, 0x50, 45, 0, 1, 0x9d].getD i (if i = 44 then 5 else 0)

/-- `cpus` was accessed at the indices from 0 on, and each `id` set there is the index. -/
structure Counted (t : Table) (n : Nat) : Prop where
  ncpu : (turns t n).ncpu = processors t n
  accessed : (turns t n).accessed = List.range (turns t n).ncpu
  id : ∀ i < (turns t n).ncpu, (turns t n).id i = BitVec.ofNat 8 i

theorem processors_succ (t : Table) (n : Nat) :
    processors t (n + 1) = processors t n + if At t .proc n then 1 else 0 := by
  unfold processors
  rw [List.range_succ, List.countP_append, List.countP_singleton]
  simp

/-- A turn at anything but a processor leaves `cpus` alone. -/
theorem turn_other (h : ¬ (s.p < length t ∧ kind (t s.p) = .proc)) :
    (turn t s).ncpu = s.ncpu ∧ (turn t s).id = s.id ∧ (turn t s).accessed = s.accessed := by
  unfold turn
  split
  · next hp =>
    cases hk : kind (t s.p) with
    | proc => exact absurd ⟨hp, hk⟩ h
    | _ => exact ⟨rfl, rfl, rfl⟩
  · exact ⟨rfl, rfl, rfl⟩

theorem counted (t : Table) (n : Nat) : Counted t n := by
  induction n with
  | zero => exact ⟨rfl, rfl, fun i hi => absurd hi (Nat.not_lt_zero i)⟩
  | succ n ih =>
    have hsucc : turns t (n + 1) = turn t (turns t n) := rfl
    by_cases h : At t .proc n
    · unfold turn at hsucc
      rw [if_pos h.1, h.2] at hsucc
      dsimp only at hsucc
      refine ⟨?_, ?_, ?_⟩
      · rw [hsucc, processors_succ, if_pos h, ih.ncpu]
      · rw [hsucc, List.range_succ, ih.accessed]
      · rw [hsucc]
        dsimp only
        intro i hi
        by_cases heq : i = (turns t n).ncpu
        · rw [heq, Function.update_self]
        · rw [Function.update_of_ne heq]
          exact ih.id i (by omega)
    · obtain ⟨hncpu, hid, hacc⟩ := turn_other h
      refine ⟨?_, ?_, ?_⟩
      · rw [hsucc, hncpu, processors_succ, if_neg h, ih.ncpu]
        rfl
      · rw [hsucc, hacc, hncpu, ih.accessed]
      · rw [hsucc, hncpu, hid]
        exact ih.id

def nine : Table := fun i =>
  [0x50, 0x43, 0x4d, 0x50, 224, 0, 1, 0xcb].getD i
    (if 44 ≤ i ∧ i % 20 = 5 then BitVec.ofNat 8 (i / 20 - 2) else 0)

end Mp

end Xv6
