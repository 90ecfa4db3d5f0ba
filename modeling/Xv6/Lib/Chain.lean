import Mathlib.Data.List.Nodup

/-!
# Intrusive singly linked lists

`Chain next h l` says that following the links `next : α → Option α` from the pointer `h` visits
exactly the nodes `l`, in order, and then reaches the null pointer.

The second half treats the loops such lists are walked with: `scan` stops at the first node that
meets a test, `walk` reads the link after its body, `walkSaved` before, so that the body may take
the node off the list. All three carry fuel; the length of the chain is enough.
-/

open Function (update update_of_ne update_self)

namespace Intrusive

variable {α : Type*}

/-- The links from `h` visit exactly `l` and then end. -/
def Chain (next : α → Option α) : Option α → List α → Prop
  | h, [] => h = none
  | h, a :: l => h = some a ∧ Chain next (next a) l

section Chain

variable {next : α → Option α} {h : Option α} {l : List α}

@[simp] theorem chain_nil : Chain next h [] ↔ h = none := Iff.rfl

variable {a : α}

@[simp] theorem chain_cons :
    Chain next h (a :: l) ↔ h = some a ∧ Chain next (next a) l := Iff.rfl

theorem Chain.head_eq (hc : Chain next h l) : h = l.head? := by
  cases l with
  | nil => exact hc
  | cons a l => exact hc.1

theorem Chain.unique {l' : List α} (hc : Chain next h l) (hc' : Chain next h l') : l = l' := by
  induction l generalizing h l' with
  | nil =>
    cases l' with
    | nil => rfl
    | cons b l' =>
      have : (none : Option α) = some b := hc.symm.trans hc'.1
      cases this
  | cons a l ih =>
    cases l' with
    | nil =>
      have : some a = (none : Option α) := hc.1.symm.trans hc'
      cases this
    | cons b l' =>
      have hab : a = b := Option.some.inj (hc.1.symm.trans hc'.1)
      subst hab
      rw [ih hc.2 hc'.2]

variable {pre rest : List α}

theorem Chain.after (hc : Chain next h (pre ++ a :: rest)) :
    Chain next (next a) rest := by
  induction pre generalizing h with
  | nil => exact hc.2
  | cons b pre ih => exact ih hc.2

theorem Chain.next_eq (hc : Chain next h (pre ++ a :: rest)) :
    next a = rest.head? :=
  hc.after.head_eq

/-- A nil-terminated chain has no node twice: the two occurrences would start one
chain of two lengths. -/
theorem Chain.nodup (hc : Chain next h l) : l.Nodup := by
  induction l generalizing h with
  | nil => exact List.nodup_nil
  | cons a l ih =>
    refine List.nodup_cons.mpr ⟨fun hmem => ?_, ih hc.2⟩
    obtain ⟨pre, rest, rfl⟩ := List.append_of_mem hmem
    have hlen := congrArg List.length (hc.2.unique hc.2.after)
    simp only [List.length_append, List.length_cons] at hlen
    omega

theorem Chain.not_mem (hc : Chain next h (pre ++ a :: rest)) :
    a ∉ pre :=
  fun hm => (List.nodup_append.mp hc.nodup).2.2 a hm a List.mem_cons_self rfl

theorem Chain.congr {next' : α → Option α} (hc : Chain next h l)
    (heq : ∀ a ∈ l, next' a = next a) : Chain next' h l := by
  induction l generalizing h with
  | nil => exact hc
  | cons a l ih =>
    refine ⟨hc.1, ?_⟩
    rw [heq a List.mem_cons_self]
    exact ih hc.2 fun b hb => heq b (List.mem_cons_of_mem _ hb)

theorem Chain.splice {pre rest rest' : List α} {next' : α → Option α}
    (hc : Chain next h (pre ++ a :: rest)) (hpre : ∀ b ∈ pre, next' b = next b)
    (hrest : Chain next' (next' a) rest') : Chain next' h (pre ++ a :: rest') := by
  induction pre generalizing h with
  | nil => exact ⟨hc.1, hrest⟩
  | cons b pre ih =>
    refine ⟨hc.1, ?_⟩
    rw [hpre b List.mem_cons_self]
    exact ih hc.2 fun c hc' => hpre c (List.mem_cons_of_mem _ hc')

end Chain

section Update

variable [DecidableEq α] {next : α → Option α} {h : Option α} {l : List α}

protected theorem Chain.update {x : α} {v : Option α} (hc : Chain next h l) (hx : x ∉ l) :
    Chain (update next x v) h l :=
  hc.congr fun _ ha => update_of_ne (ne_of_mem_of_not_mem ha hx) ..

theorem Chain.push {x : α} (hc : Chain next h l) (hx : x ∉ l) :
    Chain (update next x h) (some x) (x :: l) := by
  refine ⟨rfl, ?_⟩
  rw [update_self]
  exact hc.update hx

theorem Chain.concat {pre : List α} {c x : α} (hc : Chain next h (pre ++ [c]))
    (hx : x ∉ pre ++ [c]) :
    Chain (update (update next c (some x)) x none) h (pre ++ [c, x]) := by
  have hcx : c ≠ x := fun he => hx (by simp [he])
  have hpre := hc.not_mem
  refine hc.splice (fun b hb => ?_) ?_
  · have hbx : b ≠ x := fun he => hx (by simp [← he, hb])
    have hbc : b ≠ c := fun he => hpre (he ▸ hb)
    rw [update_of_ne hbx, update_of_ne hbc]
  · rw [update_of_ne hcx, update_self]
    exact ⟨rfl, update_self ..⟩

theorem Chain.unlink {pre rest : List α} {c x : α} (hc : Chain next h (pre ++ c :: x :: rest)) :
    Chain (update (update next c (next x)) x none) h (pre ++ c :: rest) := by
  have hnd := hc.nodup
  rw [List.nodup_append] at hnd
  obtain ⟨-, hnd', hdisj⟩ := hnd
  have hcx : c ≠ x := fun he => (List.nodup_cons.mp hnd').1 (by simp [he])
  have hcr : c ∉ rest := fun hm => (List.nodup_cons.mp hnd').1 (by simp [hm])
  have hxr : x ∉ rest := (List.nodup_cons.mp (List.nodup_cons.mp hnd').2).1
  have hrest : Chain next (next x) rest := by
    rw [List.append_cons] at hc
    exact hc.after
  refine hc.splice (fun b hb => ?_) ?_
  · have hbx : b ≠ x := fun he => hdisj b hb x (by simp) he
    have hbc : b ≠ c := fun he => hdisj b hb c (by simp) he
    rw [update_of_ne hbx, update_of_ne hbc]
  · rw [update_of_ne hcx, update_self]
    exact (hrest.update hcr).update hxr

theorem Chain.pop {x : α} (hc : Chain next h (x :: l)) :
    Chain (update next x none) (next x) l :=
  hc.2.update (List.nodup_cons.mp hc.nodup).1

end Update

/-! ## Loops over a list -/

section Loops

variable {σ τ ε : Type*}

/-- `while (p && !test(p)) p = p->next;` -/
def scan (next : α → Option α) (test : α → Bool) : Nat → Option α → Option (Option α)
  | _, none => some none
  | 0, some _ => none
  | fuel + 1, some a => if test a then some (some a) else scan next test fuel (next a)

/-- `while (p && p != x) { prev = p; p = p->next; }`, returning `prev` and `p`. -/
def seek [DecidableEq α] (next : α → Option α) (x : α) :
    Nat → Option α → Option α → Option (Option α × Option α)
  | _, prev, none => some (prev, none)
  | 0, _, some _ => none
  | fuel + 1, prev, some a =>
    if a = x then some (prev, some a) else seek next x fuel (some a) (next a)

/-- `while (p) { prev = p; p = p->next; }`, returning `prev`. -/
def trail (next : α → Option α) : Nat → Option α → Option α → Option (Option α)
  | _, prev, none => some prev
  | 0, _, some _ => none
  | fuel + 1, _, some a => trail next fuel (some a) (next a)

/-- `while (p) { body(p); p = p->next; }` -/
def walk (next : σ → α → Option α) (body : α → σ → Except ε σ) (diverge : ε) :
    Nat → Option α → σ → Except ε σ
  | _, none, s => .ok s
  | 0, some _, _ => .error diverge
  | fuel + 1, some a, s => do
    let s' ← body a s
    walk next body diverge fuel (next s' a) s'

/-- `while (p) { q = p->next; body(p); p = q; }` -/
def walkSaved (next : σ → α → Option α) (body : α → σ → Except ε σ) (diverge : ε) :
    Nat → Option α → σ → Except ε σ
  | _, none, s => .ok s
  | 0, some _, _ => .error diverge
  | fuel + 1, some a, s => do
    let s' ← body a s
    walkSaved next body diverge fuel (next s a) s'

/-- On a chain a scan ends and finds the first node that meets the test. -/
theorem scan_eq {next : α → Option α} {test : α → Bool} {h : Option α} {l : List α} {fuel : Nat}
    (hc : Chain next h l) (hf : l.length ≤ fuel) :
    scan next test fuel h = some (l.find? test) := by
  induction l generalizing h fuel with
  | nil =>
    rw [chain_nil] at hc
    subst hc
    cases fuel <;> rfl
  | cons a l ih =>
    obtain ⟨rfl, hc⟩ := hc
    cases fuel with
    | zero => simp at hf
    | succ fuel =>
      simp only [List.length_cons, Nat.add_le_add_iff_right] at hf
      unfold scan
      by_cases ht : test a
      · simp [ht]
      · simp only [ht, Bool.false_eq_true, ↓reduceIte, ih hc hf]
        rw [List.find?_cons_of_neg ht]

theorem trail_eq {next : α → Option α} {h prev : Option α} {l : List α} {fuel : Nat}
    (hc : Chain next h l) (hf : l.length ≤ fuel) :
    trail next fuel prev h = some (l.getLast?.or prev) := by
  induction l generalizing h prev fuel with
  | nil =>
    rw [chain_nil] at hc
    subst hc
    cases fuel <;> rfl
  | cons a l ih =>
    obtain ⟨rfl, hc⟩ := hc
    cases fuel with
    | zero => simp at hf
    | succ fuel =>
      unfold trail
      rw [ih hc (by simpa using hf)]
      cases l with
      | nil => simp
      | cons b l => simp [List.getLast?_cons]

section Seek

variable [DecidableEq α] {next : α → Option α} {x : α}

theorem seek_mem {rest : List α} :
    ∀ (pre : List α) (h prev : Option α) (fuel : Nat), Chain next h (pre ++ x :: rest) →
      x ∉ pre → pre.length < fuel →
      seek next x fuel prev h = some ((pre.getLast?).or prev, some x) := by
  intro pre
  induction pre with
  | nil =>
    intro h prev fuel hc _ hf
    obtain ⟨fuel, rfl⟩ := Nat.exists_eq_succ_of_ne_zero (Nat.ne_of_gt hf)
    obtain ⟨rfl, -⟩ := hc
    simp [seek]
  | cons a pre ih =>
    intro h prev fuel hc hx hf
    obtain ⟨fuel, rfl⟩ := Nat.exists_eq_succ_of_ne_zero (Nat.ne_of_gt (Nat.zero_lt_of_lt hf))
    obtain ⟨rfl, hc⟩ := hc
    have hax : a ≠ x := fun he => hx (by simp [he])
    simp only [seek, hax, ↓reduceIte]
    rw [ih _ (some a) fuel hc (fun hm => hx (List.mem_cons_of_mem _ hm)) (by simpa using hf)]
    cases pre with
    | nil => simp
    | cons b pre => simp [List.getLast?_cons]

theorem seek_not_mem :
    ∀ (l : List α) (h prev : Option α) (fuel : Nat), Chain next h l → x ∉ l → l.length ≤ fuel →
      ∃ p, seek next x fuel prev h = some (p, none) := by
  intro l
  induction l with
  | nil =>
    intro h prev fuel hc _ _
    rw [chain_nil] at hc
    subst hc
    exact ⟨prev, by cases fuel <;> rfl⟩
  | cons a l ih =>
    intro h prev fuel hc hx hf
    obtain ⟨fuel, rfl⟩ := Nat.exists_eq_succ_of_ne_zero
      (Nat.ne_of_gt (Nat.lt_of_lt_of_le (by simp : 0 < (a :: l).length) hf))
    obtain ⟨rfl, hc⟩ := hc
    have hax : a ≠ x := fun he => hx (by simp [he])
    simp only [seek, hax, ↓reduceIte]
    exact ih _ _ fuel hc (fun hm => hx (List.mem_cons_of_mem _ hm)) (by simpa using hf)

end Seek

section Rules

variable {w : Nat → Option α → σ → Except ε σ} {abody : α → τ → τ} (R : List α → σ → τ → Prop)

/-- A loop over a list, against a fold over the nodes still to be visited. -/
theorem loop_rule (hnil : ∀ fuel s, w fuel none s = .ok s)
    (hbody : ∀ a rest s u, R (a :: rest) s u → ∃ s',
      (∀ fuel, w (fuel + 1) (some a) s = w fuel rest.head? s') ∧ R rest s' (abody a u)) :
    ∀ (l : List α) (s : σ) (u : τ) (fuel : Nat), l.length ≤ fuel → R l s u →
      ∃ s', w fuel l.head? s = .ok s' ∧ R [] s' (l.foldl (fun u a => abody a u) u) := by
  intro l
  induction l with
  | nil =>
    intro s u fuel _ hR
    exact ⟨s, hnil fuel s, hR⟩
  | cons a l ih =>
    intro s u fuel hf hR
    cases fuel with
    | zero => simp at hf
    | succ fuel =>
      obtain ⟨s₁, hw, hR₁⟩ := hbody a l s u hR
      rw [List.head?_cons, hw]
      exact ih s₁ (abody a u) fuel (by simpa using hf) hR₁

end Rules

end Loops

end Intrusive
