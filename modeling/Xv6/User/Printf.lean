import Xv6.Fs.State

/-!
# Numbers in decimal and hexadecimal

`printf` of `printf.c` and `cprintf` of `console.c` up to what becomes of the characters, and
`atoi` of `ulib.c`. The characters of a number are stored in a buffer of 16 bytes before they
are put out in the opposite order, so the buffer is kept with its last character in front; a
character that does not fit makes the whole call fail here. What is behind the format on the
stack, and the strings in the memory, are given.
-/

namespace Xv6

namespace Printf

def ascii (c : Char) : Byte := .ofNat 8 c.toNat

def text (s : List Char) : List Byte := s.map ascii

/-- `digits` of `printf.c` -/
def digitsUpper : List Byte :=
  text ['0', '1', '2', '3', '4', '5', '6', '7', '8', '9', 'A', 'B', 'C', 'D', 'E', 'F']

/-- `digits` of `console.c` -/
def digitsLower : List Byte :=
  text ['0', '1', '2', '3', '4', '5', '6', '7', '8', '9', 'a', 'b', 'c', 'd', 'e', 'f']

/-- `buf[i++] = c` with `char buf[16]` -/
def store (buf : List Byte) (c : Byte) : Option (List Byte) :=
  if buf.length < 16 then some (c :: buf) else none

/-- The loop over the digits; in one turn more than the buffer has bytes it has failed. -/
def digitLoop (digits : List Byte) (base : Word) : Nat → Word → List Byte → Option (List Byte)
  | 0, _, _ => none
  | turns + 1, x, buf => do
    let buf ← store buf (← digits[(x % base).toNat]?)
    let x := x / base
    if x ≠ 0 then digitLoop digits base turns x buf else some buf

/-- `printint`, the same in `printf.c` and in `console.c` but for the table of the digits. -/
def printint (digits : List Byte) (xx base : Word) (sgn : Bool) : Option (List Byte) := do
  let neg := sgn && decide (xx.toInt < 0)
  let x := if neg then -xx else xx
  let buf ← digitLoop digits base 16 x []
  if neg then store buf (ascii '-') else some buf

/-- A string, `(null)` for the null pointer. -/
def string (strings : Word → List Byte) (s : Word) : List Byte :=
  if s = 0 then text ['(', 'n', 'u', 'l', 'l', ')'] else strings s

/-- The characters for a character behind `%`, and how many arguments they use up. -/
def printfCase (strings : Word → List Byte) (c : Byte) (arg : Word) : Option (List Byte × Nat) :=
  if c = ascii 'd' then (·, 1) <$> printint digitsUpper arg 10 true
  else if c = ascii 'x' ∨ c = ascii 'p' then
    (·, 1) <$> printint digitsUpper arg 16 false
  else if c = ascii 's' then some (string strings arg, 1)
  else if c = ascii 'c' then some ([arg.setWidth 8], 1)
  else if c = ascii '%' then some ([c], 0)
  else some ([ascii '%', c], 0)

/-- The same in the kernel, which does not know `%c`. -/
def cprintfCase (strings : Word → List Byte) (c : Byte) (arg : Word) : Option (List Byte × Nat) :=
  if c = ascii 'd' then (·, 1) <$> printint digitsLower arg 10 true
  else if c = ascii 'x' ∨ c = ascii 'p' then
    (·, 1) <$> printint digitsLower arg 16 false
  else if c = ascii 's' then some (string strings arg, 1)
  else if c = ascii '%' then some ([ascii '%'], 0)
  else some ([ascii '%', c], 0)

/-- The loop over the format; `state` says whether the last character was a `%`, and `ap` has
the arguments from the next one on. -/
def format (special : Byte → Word → Option (List Byte × Nat)) :
    Bool → List Byte → (Nat → Word) → Option (List Byte)
  | _, [], _ => some []
  | false, c :: fmt, ap =>
    if c = ascii '%' then format special true fmt ap
    else (c :: ·) <$> format special false fmt ap
  | true, c :: fmt, ap => do
    let (out, used) ← special c (ap 0)
    (out ++ ·) <$> format special false fmt fun i => ap (i + used)

def printf (strings : Word → List Byte) (fmt : List Byte) (ap : Nat → Word) : Option (List Byte) :=
  format (printfCase strings) false fmt ap

def cprintf (strings : Word → List Byte) (fmt : List Byte) (ap : Nat → Word) :
    Option (List Byte) :=
  format (cprintfCase strings) false fmt ap

def atoiLoop (n : Word) : List Byte → Word
  | [] => n
  | c :: s =>
    if ascii '0' ≤ c ∧ c ≤ ascii '9' then atoiLoop (n * 10 + c.setWidth 32 - 48) s else n

def atoi (s : List Byte) : Word :=
  let s := s.dropWhile (· == ascii ' ')
  let sign : Word := if s.head? = some (ascii '-') then -1 else 1
  let s := if s.head? = some (ascii '+') ∨ s.head? = some (ascii '-') then s.tail else s
  sign * atoiLoop 0 s

/-! ## The digits -/

def numeral (base n : Nat) : List Byte := (Nat.toDigits base n).map ascii

def decimal (x : Word) : List Byte :=
  (if x.toInt < 0 then [ascii '-'] else []) ++ numeral 10 x.toInt.natAbs

section Digits

variable {t : List Byte} {f : Char → Char} {b : Word}

theorem digitLoop_eq (hbase : 1 < b.toNat)
    (htable : ∀ d < b.toNat, t[d]? = some (ascii (f (Nat.digitChar d)))) {turns : Nat}
    {x : Word} {buf : List Byte} (hx : x.toNat < b.toNat ^ turns) (hturns : 0 < turns)
    (hroom : buf.length + turns ≤ 16) :
    digitLoop t b turns x buf =
      some ((Nat.toDigits b.toNat x.toNat).map (ascii ∘ f) ++ buf) := by
  induction turns generalizing x buf with
  | zero => cases hturns
  | succ turns ih =>
    have hmod : (x % b).toNat < b.toNat := by
      rw [BitVec.toNat_umod]
      exact Nat.mod_lt _ (Nat.zero_lt_of_lt hbase)
    have hdiv : (x / b).toNat = x.toNat / b.toNat := BitVec.toNat_udiv
    have hstore : store buf (ascii (f (Nat.digitChar (x % b).toNat))) =
        some (ascii (f (Nat.digitChar (x % b).toNat)) :: buf) := if_pos (by omega)
    rw [digitLoop, htable _ hmod]
    simp only [Option.bind_eq_bind, Option.bind_some, hstore]
    rw [Nat.toDigits_eq_if hbase]
    by_cases hlast : x.toNat < b.toNat
    · have hzero : x / b = 0 := by
        apply BitVec.eq_of_toNat_eq
        rw [hdiv, Nat.div_eq_of_lt hlast]
        rfl
      rw [if_neg (fun h => h hzero), if_pos hlast, BitVec.toNat_umod, Nat.mod_eq_of_lt hlast]
      rfl
    · have hpos : 0 < x.toNat / b.toNat := Nat.div_pos (Nat.le_of_not_lt hlast) (by omega)
      have hne : x / b ≠ 0 := by
        intro h
        rw [← hdiv, h] at hpos
        exact absurd hpos (by decide)
      have hless : (x / b).toNat < b.toNat ^ turns := by
        rw [hdiv]
        exact Nat.div_lt_of_lt_mul (by rwa [Nat.pow_succ, Nat.mul_comm] at hx)
      have hmore : 0 < turns := by
        rcases Nat.eq_zero_or_pos turns with rfl | h
        · rw [Nat.pow_zero, hdiv] at hless
          omega
        · exact h
      rw [if_pos hne, if_neg hlast, ih hless hmore (by simp only [List.length_cons]; omega), hdiv,
        BitVec.toNat_umod]
      simp

theorem printint_eq (hbase : 10 ≤ b.toNat)
    (htable : ∀ d < b.toNat, t[d]? = some (ascii (f (Nat.digitChar d)))) (xx : Word)
    (sgn : Bool) :
    printint t xx b sgn =
      if sgn = true ∧ xx.toInt < 0 then
        some (ascii '-' :: (Nat.toDigits b.toNat xx.toInt.natAbs).map (ascii ∘ f))
      else some ((Nat.toDigits b.toNat xx.toNat).map (ascii ∘ f)) := by
  have hlt := xx.isLt
  have hpow : 2 ^ 32 < b.toNat ^ 15 :=
    Nat.lt_of_lt_of_le (by decide) (Nat.pow_le_pow_left hbase 15)
  have hloop : ∀ x : Word, digitLoop t b 16 x [] =
      some ((Nat.toDigits b.toNat x.toNat).map (ascii ∘ f)) := by
    intro x
    have hx : x.toNat < b.toNat ^ 16 := by
      have := Nat.pow_le_pow_right (Nat.zero_lt_of_lt hbase) (show 15 ≤ 16 by decide)
      have := x.isLt
      omega
    rw [digitLoop_eq (by omega) htable hx (by decide) (by decide), List.append_nil]
  by_cases hneg : sgn = true ∧ xx.toInt < 0
  · have habs : (-xx).toNat = xx.toInt.natAbs := by
      have := hneg.2
      rw [BitVec.toInt_eq_toNat_cond] at this ⊢
      bv_omega
    have hlen : (Nat.toDigits b.toNat xx.toInt.natAbs).length ≤ 15 := by
      rw [Nat.length_toDigits_le_iff (by omega) (by decide), ← habs]
      exact Nat.lt_trans (-xx).isLt hpow
    simp only [printint, hneg, decide_true, Bool.and_self, ↓reduceIte, hloop, habs,
      Option.bind_eq_bind, Option.bind_some, and_self, store]
    rw [if_pos]
    rw [List.length_map]
    omega
  · have hno : (sgn && decide (xx.toInt < 0)) = false := by simpa using hneg
    simp only [printint, hno, hneg, ↓reduceIte, hloop, Option.bind_eq_bind, Option.bind_some,
      Bool.false_eq_true]

end Digits

/-! ## The value -/

theorem atoiLoop_append {n : Word} {s s' : List Byte}
    (hs : ∀ c ∈ s, ascii '0' ≤ c ∧ c ≤ ascii '9') :
    atoiLoop n (s ++ s') = atoiLoop (atoiLoop n s) s' := by
  induction s generalizing n with
  | nil => rfl
  | cons c s ih =>
    have hc := hs c List.mem_cons_self
    rw [List.cons_append, atoiLoop, if_pos hc, atoiLoop, if_pos hc,
      ih fun d hd => hs d (List.mem_cons_of_mem _ hd)]

theorem mem_numeral {n : Nat} {c : Byte} (hc : c ∈ numeral 10 n) :
    ascii '0' ≤ c ∧ c ≤ ascii '9' := by
  obtain ⟨d, hd, rfl⟩ := List.mem_map.mp hc
  have hdigit := Nat.isDigit_of_mem_toDigits (by decide) (by decide) hd
  obtain ⟨hlow, hhigh⟩ : 48 ≤ d.toNat ∧ d.toNat ≤ 57 := by
    simpa [Char.isDigit, UInt32.le_iff_toNat_le] using hdigit
  have hval : (ascii d).toNat = d.toNat := Nat.mod_eq_of_lt (by omega)
  rw [BitVec.le_def, BitVec.le_def, hval]
  exact ⟨hlow, hhigh⟩

theorem digit_value : ∀ d < 10,
    (ascii '0' ≤ ascii (Nat.digitChar d) ∧ ascii (Nat.digitChar d) ≤ ascii '9') ∧
      (ascii (Nat.digitChar d)).setWidth 32 = .ofNat 32 (48 + d) := by
  decide

theorem atoiLoop_numeral (n : Nat) : atoiLoop 0 (numeral 10 n) = .ofNat 32 n := by
  -- on the number of digits: the last one is added to ten times the others
  induction n using Nat.strongRecOn with
  | _ n ih =>
    have hdigits := Nat.toDigits_eq_if (b := 10) (n := n) (by decide)
    by_cases hn : n < 10
    · rw [if_pos hn] at hdigits
      obtain ⟨hdigit, hvalue⟩ := digit_value n hn
      rw [numeral, hdigits, List.map_singleton, atoiLoop, if_pos hdigit, hvalue, atoiLoop]
      bv_omega
    · rw [if_neg hn] at hdigits
      have hsplit : numeral 10 n = numeral 10 (n / 10) ++ [ascii (Nat.digitChar (n % 10))] := by
        rw [numeral, hdigits, List.map_append]
        rfl
      obtain ⟨hdigit, hvalue⟩ := digit_value (n % 10) (Nat.mod_lt _ (by decide))
      rw [hsplit, atoiLoop_append fun _ => mem_numeral, ih _ (by omega), atoiLoop, if_pos hdigit,
        hvalue, atoiLoop]
      bv_omega

theorem atoi_decimal (x : Word) : atoi (decimal x) = x := by
  have hlt := x.isLt
  by_cases hneg : x.toInt < 0
  · have hvalue : -1 * BitVec.ofNat 32 x.toInt.natAbs = x := by
      rw [neg_one_mul]
      rw [BitVec.toInt_eq_toNat_cond] at hneg ⊢
      bv_omega
    rw [decimal, if_pos hneg, List.singleton_append, atoi,
      List.dropWhile_cons_of_neg (by decide), List.head?_cons, if_pos rfl, if_pos (Or.inr rfl),
      List.tail_cons, atoiLoop_numeral, hvalue]
  · have hvalue : BitVec.ofNat 32 x.toInt.natAbs = x := by
      rw [BitVec.toInt_eq_toNat_cond] at hneg ⊢
      bv_omega
    rw [decimal, if_neg hneg, List.nil_append]
    cases hnum : numeral 10 x.toInt.natAbs with
    | nil => exact absurd (List.map_eq_nil_iff.mp hnum) Nat.toDigits_ne_nil
    | cons c cs =>
      have hc : ascii '0' ≤ c := (mem_numeral (hnum ▸ List.mem_cons_self)).1
      have hspace : ¬ (c == ascii ' ') = true := by
        rw [beq_iff_eq]
        rintro rfl
        exact absurd hc (by decide)
      have hplus : c ≠ ascii '+' := by
        rintro rfl
        exact absurd hc (by decide)
      have hminus : c ≠ ascii '-' := by
        rintro rfl
        exact absurd hc (by decide)
      rw [atoi, List.dropWhile_cons_of_neg (p := (· == ascii ' ')) hspace, List.head?_cons,
        if_neg fun h => hminus (Option.some.inj h),
        if_neg fun h => h.elim (fun h => hplus (Option.some.inj h))
          fun h => hminus (Option.some.inj h), ← hnum, atoiLoop_numeral, hvalue]
      exact BitVec.one_mul x

theorem format_one {special : Byte → Word → Option (List Byte × Nat)} {c : Byte} {x : Word}
    {out : List Byte} {n : Nat} (h : special c x = some (out, n)) :
    format special false [ascii '%', c] (fun _ => x) = some out := by
  simp [format, h]

/-- `printf` and `cprintf` put out the numerals of all numbers without leading zeros, and do
not write behind their buffers; they differ in the case of letters. `atoi` of the decimal
numeral is the number, also of the least one, whose negation overflows. -/
theorem numerals_round_trip (strings : Word → List Byte) (x : Word) :
    printf strings (text ['%', 'd']) (fun _ => x) = some (decimal x) ∧ atoi (decimal x) = x ∧
    printf strings (text ['%', 'x']) (fun _ => x) =
      some ((Nat.toDigits 16 x.toNat).map (ascii ∘ Char.toUpper)) ∧
    cprintf strings (text ['%', 'd']) (fun _ => x) = some (decimal x) ∧
    cprintf strings (text ['%', 'x']) (fun _ => x) = some (numeral 16 x.toNat) := by
  have hdecimal : ∀ digits, (∀ d < 10, digits[d]? = some (ascii (id (Nat.digitChar d)))) →
      printint digits x 10 true = some (decimal x) := by
    intro digits htable
    rw [printint_eq (b := 10) (by decide) htable x true, decimal, numeral]
    by_cases hneg : x.toInt < 0
    · rw [if_pos ⟨rfl, hneg⟩, if_pos hneg]
      rfl
    · have hnat : x.toInt.natAbs = x.toNat := by
        rw [BitVec.toInt_eq_toNat_cond] at hneg ⊢
        bv_omega
      rw [if_neg fun h => hneg h.2, if_neg hneg, hnat]
      rfl
  have hupper := printint_eq (t := digitsUpper) (f := Char.toUpper) (b := 16) (by decide)
    (by decide) x false
  have hlower := printint_eq (t := digitsLower) (f := id) (b := 16) (by decide) (by decide)
    x false
  refine ⟨format_one (n := 1) ?_, atoi_decimal x, format_one (n := 1) ?_, format_one (n := 1) ?_,
    format_one (n := 1) ?_⟩
  · rw [printfCase, if_pos rfl, hdecimal digitsUpper (by decide)]
    rfl
  · rw [printfCase, if_neg (by decide), if_pos (Or.inl rfl), hupper, if_neg (by simp)]
    rfl
  · rw [cprintfCase, if_pos rfl, hdecimal digitsLower (by decide)]
    rfl
  · rw [cprintfCase, if_neg (by decide), if_pos (Or.inl rfl), hlower, if_neg (by simp)]
    rfl

end Printf

end Xv6
