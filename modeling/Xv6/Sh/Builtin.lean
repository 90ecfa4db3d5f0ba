import Mathlib.Data.List.TakeWhile
import Xv6.User.Printf

/-!
# The builtin `_set` of the shell

`dobuiltin` and `setbuiltin` of `sh.c` with the system calls `setuid` and `setgid`. The kernel
checks the range of the number, and nobody checks the text that the number was made from.
-/

namespace Xv6

namespace Builtin

open Printf (ascii text atoiLoop)

/-- The part of `struct proc` that the calls change. -/
structure Ids where
  uid : Word
  gid : Word

def sysSetuid (uid : Word) (ids : Ids) : Int × Ids :=
  if uid.toInt < 0 ∨ uid.toInt > 32767 then (-1, ids) else (0, { ids with uid := uid })

def sysSetgid (gid : Word) (ids : Ids) : Int × Ids :=
  if gid.toInt < 0 ∨ gid.toInt > 32767 then (-1, ids) else (0, { ids with gid := gid })

def strncmp (p q : List Byte) : Nat → Int
  | 0 => 0
  | n + 1 =>
    if p.headD 0 ≠ 0 ∧ p.headD 0 = q.headD 0 then strncmp p.tail q.tail n
    else (p.headD 0).toNat - (q.headD 0).toNat

/-- The loop is the one of `atoi`. -/
def makeint (p : List Byte) : Word := atoiLoop 0 p

/-- `while (strncmp(p, " ", 1) == 0) p++;` -/
def chomp : List Byte → List Byte
  | [] => []
  | c :: p => if strncmp (c :: p) (text [' ']) 1 = 0 then chomp p else c :: p

def setbuiltin (p : List Byte) (ids : Ids) : Int × Ids :=
  let p := chomp (p.drop 4)
  if strncmp (text ['u', 'i', 'd']) p 3 = 0 then sysSetuid (makeint (chomp (p.drop 3))) ids
  else if strncmp (text ['g', 'i', 'd']) p 3 = 0 then sysSetgid (makeint (chomp (p.drop 3))) ids
  else (-1, ids)

/-- `_get` only prints. -/
def dobuiltin (cmd : List Byte) (ids : Ids) : Ids :=
  if strncmp cmd (text ['_', 's', 'e', 't']) 4 = 0 then (setbuiltin cmd ids).2 else ids

/-- The two numbers that `_set` knows. -/
inductive Field
  | uid
  | gid

namespace Field

def name : Field → List Byte
  | uid => text ['u', 'i', 'd']
  | gid => text ['g', 'i', 'd']

def set (f : Field) (x : Word) (ids : Ids) : Ids :=
  match f with
  | uid => { ids with uid := x }
  | gid => { ids with gid := x }

def call : Field → Word → Ids → Int × Ids
  | uid => sysSetuid
  | gid => sysSetgid

end Field

/-- `_set`, a field and an operand, with spaces between them. -/
def setLine (f : Field) (a b : Nat) (operand : List Byte) : List Byte :=
  text ['_', 's', 'e', 't'] ++ (List.replicate a (ascii ' ') ++ (f.name ++
    (List.replicate b (ascii ' ') ++ (operand ++ text ['\n']))))

def isDigit (c : Byte) : Bool := ascii '0' ≤ c && c ≤ ascii '9'

def value (s : List Byte) : Nat := s.foldl (fun v c => 10 * v + (c.toNat - 48)) 0

def Valid (operand : List Byte) : Prop :=
  operand ≠ [] ∧ operand.all isDigit = true ∧ value operand ≤ 32767

instance (operand : List Byte) : Decidable (Valid operand) := inferInstanceAs (Decidable (_ ∧ _))

theorem atoiLoop_eq (s : List Byte) (v : Nat) : atoiLoop (.ofNat 32 v) s =
    .ofNat 32 ((s.takeWhile isDigit).foldl (fun v c => 10 * v + (c.toNat - 48)) v) := by
  induction s generalizing v with
  | nil => rfl
  | cons c s ih =>
    unfold atoiLoop
    by_cases hc : ascii '0' ≤ c ∧ c ≤ ascii '9'
    · have hle : 48 ≤ c.toNat := hc.1
      have hstep : BitVec.ofNat 32 v * 10 + c.setWidth 32 - 48 =
          .ofNat 32 (10 * v + (c.toNat - 48)) := by
        bv_omega
      rw [if_pos hc, hstep, ih, List.takeWhile_cons_of_pos (by simpa [isDigit] using hc),
        List.foldl_cons]
    · rw [if_neg hc, List.takeWhile_cons_of_neg (by simpa [isDigit] using hc)]
      rfl

theorem strncmp_space {c : Byte} {p : List Byte} (h : strncmp (c :: p) (text [' ']) 1 = 0) :
    c = ascii ' ' := by
  unfold strncmp at h
  split at h
  · next heq => exact heq.2
  · refine BitVec.eq_of_toNat_eq ?_
    change (c.toNat : Int) - (ascii ' ').toNat = 0 at h
    omega

theorem chomp_spaces {p : List Byte} (hp : p.head? ≠ some (ascii ' ')) (n : Nat) :
    chomp (List.replicate n (ascii ' ') ++ p) = p := by
  induction n with
  | zero =>
    cases p with
    | nil => rfl
    | cons c p => exact if_neg fun h => hp (congrArg some (strncmp_space h))
  | succ n ih =>
    rw [List.replicate_succ, List.cons_append]
    exact (if_pos rfl).trans ih

/-- The range check of the kernel, on the number that `makeint` gives. -/
theorem toInt_range (x : Word) : (x.toInt < 0 ∨ x.toInt > 32767) ↔ ¬ x.toNat ≤ 32767 := by
  rw [BitVec.toInt_eq_toNat_cond]
  split
  · omega
  · omega

theorem Field.call_eq (f : Field) (x : Word) (ids : Ids) :
    (f.call x ids).2 = if x.toNat ≤ 32767 then f.set x ids else ids := by
  cases f with
  | uid | gid =>
    simp only [call, sysSetuid, sysSetgid, toInt_range, ite_not]
    split
    · rfl
    · rfl

variable {f : Field} {operand : List Byte}

theorem makeint_eq : makeint (operand ++ text ['\n']) =
    .ofNat 32 (value (operand.takeWhile isDigit)) := by
  have hstop : (operand ++ text ['\n']).takeWhile isDigit = operand.takeWhile isDigit := by
    induction operand with
    | nil => rfl
    | cons c s ih =>
      rw [List.cons_append, List.takeWhile_cons, List.takeWhile_cons, ih]
  have := atoiLoop_eq (operand ++ text ['\n']) 0
  rwa [hstop] at this

/-- What a line does: the number is the one that the operand begins with, modulo `2^32`. -/
theorem dobuiltin_setLine (a b : Nat) (hop : operand.head? ≠ some (ascii ' ')) (ids : Ids) :
    dobuiltin (setLine f a b operand) ids =
      if value (operand.takeWhile isDigit) % 2 ^ 32 ≤ 32767 then
        f.set (.ofNat 32 (value (operand.takeWhile isDigit))) ids
      else ids := by
  have hhead : (operand ++ text ['\n']).head? ≠ some (ascii ' ') := by
    cases operand with
    | nil => decide
    | cons c s => exact hop
  have hname : chomp ((setLine f a b operand).drop 4) =
      f.name ++ (List.replicate b (ascii ' ') ++ (operand ++ text ['\n'])) := by
    refine chomp_spaces (p := _ ++ _) ?_ a
    cases f with
    | uid | gid => simp [Field.name, text, ascii]
  have hrest : chomp ((f.name ++ (List.replicate b (ascii ' ') ++
      (operand ++ text ['\n']))).drop 3) = operand ++ text ['\n'] := by
    cases f with
    | uid | gid => exact chomp_spaces hhead b
  have hrun : dobuiltin (setLine f a b operand) ids =
      (f.call (makeint (operand ++ text ['\n'])) ids).2 := by
    refine (if_pos rfl).trans ?_
    unfold setbuiltin
    simp only [hname, hrest]
    cases f with
    | uid => rfl
    | gid => rfl
  rw [hrun, f.call_eq, makeint_eq, BitVec.toNat_ofNat]

end Builtin

end Xv6
