import Xv6.Param

/-!
# `growproc`

The size of a process and the pages that are mapped below it. `vm.c` is not among the sources:
`allocuvm` maps the pages up to the new size and returns it, or returns 0 and maps nothing;
`deallocuvm` unmaps the pages from the new size on and returns it, or the old size if the new
one is not below it. `growproc` takes a 0 for a failure of either.
-/

namespace Xv6

namespace Growproc

structure Space where
  /-- `proc->sz` -/
  sz : Word
  /-- whether a page is mapped, by its number -/
  mapped : Nat → Bool

def pageStart (i : Nat) : Nat := i * PGSIZE.toNat

/-- What `allocuvm` returns, and the pages after it; `memory` says whether it gets the pages. -/
def allocuvm (memory : Bool) (mapped : Nat → Bool) (oldsz newsz : Word) : Word × (Nat → Bool) :=
  if memory then
    (newsz, fun i => mapped i ||
      (decide (oldsz.toNat ≤ pageStart i) && decide (pageStart i < newsz.toNat)))
  else (0, mapped)

def deallocuvm (mapped : Nat → Bool) (oldsz newsz : Word) : Word × (Nat → Bool) :=
  if newsz ≥ oldsz then (oldsz, mapped)
  else
    (newsz, fun i => mapped i &&
      !(decide (newsz.toNat ≤ pageStart i) && decide (pageStart i < oldsz.toNat)))

/-- What `growproc(n)` returns, and the process after it. -/
def growproc (memory : Bool) (s : Space) (n : Word) : Int × Space :=
  if n.toInt > 0 then
    let (sz, mapped) := allocuvm memory s.mapped s.sz (s.sz + n)
    if sz = 0 then (-1, { s with mapped := mapped }) else (0, { sz := sz, mapped := mapped })
  else if n.toInt < 0 then
    let (sz, mapped) := deallocuvm s.mapped s.sz (s.sz + n)
    if sz = 0 then (-1, { s with mapped := mapped }) else (0, { sz := sz, mapped := mapped })
  else (0, s)

def PageMapped (s : Space) : Prop := ∀ i, s.mapped i = true ↔ pageStart i < s.sz.toNat

/-- The size has changed by exactly `n` and the pages with it, or nothing has changed. -/
def Exact (s : Space) (n : Word) (r : Int × Space) : Prop :=
  (r.1 = 0 ∧ (r.2.sz.toNat : Int) = s.sz.toNat + n.toInt ∧ PageMapped r.2) ∨ (r.1 = -1 ∧ r.2 = s)

theorem ne_zero_of_toNat {x : Word} (hx : 0 < x.toNat) : x ≠ 0 := by
  rintro rfl
  exact absurd hx (by decide)

section Exact

variable {memory : Bool} {s : Space} {n : Word}

theorem toNat_add_size (hsz : s.sz < KERNBASE) :
    ((s.sz + n).toNat : Int) =
      if (s.sz.toNat : Int) + n.toInt < 0 then 2 ^ 32 + (s.sz.toNat + n.toInt)
      else s.sz.toNat + n.toInt := by
  have hsz : s.sz.toNat < 2 ^ 31 := hsz
  have hn := n.isLt
  rw [BitVec.toInt_eq_toNat_cond, BitVec.toNat_add]
  split <;> split <;> omega

theorem exact_grow (hs : PageMapped s) (hsz : s.sz < KERNBASE) (hn : n.toInt > 0) :
    Exact s n (growproc memory s n) := by
  unfold growproc allocuvm
  rw [if_pos hn]
  cases memory with
  | false => exact Or.inr ⟨rfl, rfl⟩
  | true =>
    have hnew := toNat_add_size (n := n) hsz
    rw [if_neg (by omega)] at hnew
    have hne : s.sz + n ≠ 0 := ne_zero_of_toNat (by omega)
    simp only [↓reduceIte, hne]
    refine Or.inl ⟨rfl, hnew, fun i => ?_⟩
    simp only [Bool.or_eq_true, Bool.and_eq_true, decide_eq_true_eq, hs i]
    omega

theorem exact_shrink (hs : PageMapped s) (hsz : s.sz < KERNBASE) (hn : n.toInt < 0)
    (hleft : 0 < (s.sz.toNat : Int) + n.toInt) : Exact s n (growproc memory s n) := by
  have hnew := toNat_add_size (n := n) hsz
  rw [if_neg (by omega)] at hnew
  have hlt : ¬ s.sz + n ≥ s.sz := by
    rw [ge_iff_le, BitVec.le_def]
    omega
  have hne : s.sz + n ≠ 0 := ne_zero_of_toNat (by omega)
  unfold growproc deallocuvm
  rw [if_neg (by omega), if_pos hn]
  simp only [hlt, hne, ↓reduceIte]
  refine Or.inl ⟨rfl, hnew, fun i => ?_⟩
  simp only [Bool.and_eq_true, Bool.not_eq_true', Bool.and_eq_false_iff, decide_eq_false_iff_not,
    hs i]
  omega

theorem growproc_wraps (hsz : s.sz < KERNBASE) (hn : (s.sz.toNat : Int) + n.toInt < 0) :
    growproc memory s n = (if s.sz = 0 then -1 else 0, s) := by
  have hnew := toNat_add_size (n := n) hsz
  have hsz : s.sz.toNat < 2 ^ 31 := hsz
  have hlow := BitVec.le_toInt n
  rw [if_pos hn] at hnew
  have hge : s.sz + n ≥ s.sz := by
    rw [ge_iff_le, BitVec.le_def]
    omega
  unfold growproc deallocuvm
  rw [if_neg (by omega), if_pos (by omega)]
  simp only [hge, ↓reduceIte]
  split <;> rfl

theorem growproc_all (hs : PageMapped s) (hpos : s.sz ≠ 0) (hn : (s.sz.toNat : Int) + n.toInt = 0)
    (hsz : s.sz < KERNBASE) : growproc memory s n = (-1, { s with mapped := fun _ => false }) := by
  have hnew := toNat_add_size (n := n) hsz
  rw [if_neg (by omega), hn] at hnew
  have hzero : s.sz + n = 0 := BitVec.eq_of_toNat_eq (Int.ofNat_inj.mp hnew)
  have hsize : 0 < s.sz.toNat := Nat.pos_of_ne_zero fun h => hpos (BitVec.eq_of_toNat_eq h)
  have hlt : ¬ s.sz ≤ 0 := fun h => Nat.not_le.mpr hsize (BitVec.le_def.mp h)
  unfold growproc deallocuvm
  rw [if_neg (by omega), if_pos (by omega), hzero]
  simp only [ge_iff_le, hlt, ↓reduceIte]
  congr 2
  funext i
  by_cases hi : s.mapped i = true
  · have hbelow := (hs i).mp hi
    simp [hbelow]
  · simp [hi]

/-- A process whose pages are those below its size, which is below the kernel: `growproc`
changes the size by exactly `n`, or fails and changes nothing, exactly if the process is empty
or something is left of it. -/
theorem growproc_exact_iff (hs : PageMapped s) (hsz : s.sz < KERNBASE) :
    Exact s n (growproc memory s n) ↔ s.sz = 0 ∨ 0 < (s.sz.toNat : Int) + n.toInt := by
  constructor
  · intro hexact
    by_contra hno
    obtain ⟨hpos, hleft⟩ := not_or.mp hno
    have hsize : 0 < s.sz.toNat := Nat.pos_of_ne_zero fun h => hpos (BitVec.eq_of_toNat_eq h)
    rcases Int.lt_or_eq_of_le (Int.not_lt.mp hleft) with hn | hn
    · rw [growproc_wraps hsz hn, if_neg hpos] at hexact
      rcases hexact with ⟨-, hsize', -⟩ | ⟨hr, -⟩
      · dsimp only at hsize'
        omega
      · cases hr
    · rw [growproc_all hs hpos hn hsz] at hexact
      rcases hexact with ⟨hr, -⟩ | ⟨-, heq⟩
      · cases hr
      · -- the first page was mapped
        have hfirst := (hs 0).mpr (by rw [pageStart, Nat.zero_mul]; exact hsize)
        rw [← heq] at hfirst
        cases hfirst
  · intro hcase
    rcases Int.lt_trichotomy n.toInt 0 with hn | hn | hn
    · rcases hcase with hzero | hleft
      · have hsize : s.sz.toNat = 0 := by rw [hzero]; rfl
        rw [growproc_wraps hsz (by omega), if_pos hzero]
        exact Or.inr ⟨rfl, rfl⟩
      · exact exact_shrink hs hsz hn hleft
    · unfold growproc
      rw [if_neg (by omega), if_neg (by omega)]
      refine Or.inl ⟨rfl, ?_, hs⟩
      rw [hn, Int.add_zero]
    · exact exact_grow hs hsz hn

end Exact

/-- A process of `sz` bytes. -/
def ofSize (sz : Word) : Space := ⟨sz, fun i => decide (pageStart i < sz.toNat)⟩

theorem pageMapped_ofSize (sz : Word) : PageMapped (ofSize sz) := fun _ => decide_eq_true_iff

theorem growproc_exact_page :
    Exact (ofSize 8192) (-4096) (growproc true (ofSize 8192) (-4096)) :=
  (growproc_exact_iff (pageMapped_ofSize 8192) (by decide)).mpr (by decide)

/-- A process of one page: giving it back unmaps it, and fails; giving back more changes
nothing, and succeeds. -/
theorem growproc_inexact :
    (growproc true (ofSize 4096) (-4096)).1 = -1 ∧ (ofSize 4096).mapped 0 = true ∧
      (growproc true (ofSize 4096) (-4096)).2.mapped 0 = false ∧
      (growproc true (ofSize 4096) (-4097)).1 = 0 ∧
      (growproc true (ofSize 4096) (-4097)).2.sz = 4096 := by
  decide

end Growproc

end Xv6
