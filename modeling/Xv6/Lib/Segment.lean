import Mathlib.Data.List.Nodup

/-!
# Segments of singly linked lists

The nodes one meets from `a` by `next` before one is at `e`. A circular list is a segment
that ends where it begins, so there is no end to stop at: a search along one ends because
some node passes its test.
-/

namespace Segment

variable {α : Type*} {next : α → α} {a b e : α} {l l₁ l₂ : List α}

/-- From `a`, the nodes `l` are met one after the other, and then `e`. -/
def Links (next : α → α) : α → List α → α → Prop
  | a, [], e => a = e
  | a, b :: l, e => a = b ∧ Links next (next b) l e

@[simp] theorem links_nil : Links next a [] e ↔ a = e := Iff.rfl

@[simp] theorem links_cons : Links next a (b :: l) e ↔ a = b ∧ Links next (next b) l e := Iff.rfl

theorem links_append :
    Links next a (l₁ ++ l₂) e ↔ ∃ m, Links next a l₁ m ∧ Links next m l₂ e := by
  induction l₁ generalizing a with
  | nil => simp
  | cons b l₁ ih => simp [ih, and_assoc]

theorem links_append_cons :
    Links next a (l₁ ++ b :: l₂) e ↔ Links next a l₁ b ∧ Links next (next b) l₂ e := by
  rw [links_append]
  constructor
  · rintro ⟨m, h₁, rfl, h₂⟩
    exact ⟨h₁, h₂⟩
  · rintro ⟨h₁, h₂⟩
    exact ⟨b, h₁, rfl, h₂⟩

theorem Links.head_eq (h : Links next a l e) : a = l.headD e := by
  cases l with
  | nil => exact h
  | cons b l => exact h.1

theorem Links.next_eq (h : Links next a (l₁ ++ b :: l₂) e) : next b = l₂.headD e :=
  (links_append_cons.mp h).2.head_eq

theorem Links.congr {next' : α → α} (h : Links next a l e) (hl : ∀ b ∈ l, next' b = next b) :
    Links next' a l e := by
  induction l generalizing a with
  | nil => exact h
  | cons b l ih =>
    refine ⟨h.1, ?_⟩
    rw [hl b List.mem_cons_self]
    exact ih h.2 fun c hc => hl c (List.mem_cons_of_mem _ hc)

theorem Links.update [DecidableEq α] {x v : α} (h : Links next a l e) (hx : x ∉ l) :
    Links (Function.update next x v) a l e := by
  refine h.congr fun b hb => Function.update_of_ne ?_ _ _
  rintro rfl
  exact hx hb

theorem Links.rotate (h : Links next a (l₁ ++ b :: l₂) a) : Links next (next b) (l₂ ++ l₁) b := by
  obtain ⟨h₁, h₂⟩ := links_append_cons.mp h
  exact links_append.mpr ⟨a, h₂, h₁⟩

theorem Links.map_next (h : Links next a (b :: l) e) : (b :: l).map next = l ++ [e] := by
  induction l generalizing a b with
  | nil => simpa using h.2
  | cons c l ih => rw [List.map_cons, ih h.2, h.2.1, List.cons_append]

theorem Links.inj {c : α} (h : Links next a l a) (hnd : l.Nodup) (hb : b ∈ l) (hc : c ∈ l)
    (heq : next b = next c) : b = c := by
  cases l with
  | nil => cases hb
  | cons x l =>
    obtain rfl := h.1
    have hmap : ((a :: l).map next).Nodup := by
      rw [h.map_next]
      exact (List.perm_append_singleton a l).nodup_iff.mpr hnd
    exact List.inj_on_of_nodup_map hmap hb hc heq

/-- The first node that passes the test, where `fuel` nodes are looked at. -/
def seek (next : α → α) (test : α → Bool) : Nat → α → Option α
  | 0, _ => none
  | fuel + 1, a => if test a then some a else seek next test fuel (next a)

theorem seek_skip {test : α → Bool} {n : Nat} (h : Links next a l e)
    (hl : ∀ b ∈ l, test b = false) : seek next test (n + l.length) a = seek next test n e := by
  induction l generalizing a with
  | nil =>
    obtain rfl := h
    rfl
  | cons b l ih =>
    obtain ⟨rfl, h⟩ := h
    rw [List.length_cons, ← Nat.add_assoc, seek, hl a List.mem_cons_self]
    exact ih h fun c hc => hl c (List.mem_cons_of_mem _ hc)

theorem seek_circular {test : α → Bool} {x : α} {fuel : Nat} (h : Links next a (l₁ ++ x :: l₂) a)
    (hb : b ∈ l₁ ++ x :: l₂) (hx : test x = true) (hl : ∀ c ∈ l₁ ++ l₂, test c = false)
    (hfuel : (l₁ ++ x :: l₂).length ≤ fuel) : seek next test fuel b = some x := by
  have hfound (n : Nat) : seek next test (n + 1) x = some x := by rw [seek, hx]; rfl
  have hfrom {p : List α} (hp : Links next b p x) (hsmall : ∀ c ∈ p, test c = false)
      (hlen : p.length < fuel) : seek next test fuel b = some x := by
    obtain ⟨n, rfl⟩ := Nat.exists_eq_add_of_lt hlen
    rw [show p.length + n + 1 = n + 1 + p.length by omega, seek_skip hp hsmall, hfound]
  rw [List.length_append, List.length_cons] at hfuel
  obtain ⟨h₁, h₂⟩ := links_append_cons.mp h
  rcases List.mem_append.mp hb with hb | hb
  · -- the start is in front of the node
    obtain ⟨p, q, rfl⟩ := List.append_of_mem hb
    refine hfrom (p := b :: q) ⟨rfl, (links_append_cons.mp h₁).2⟩ ?_ ?_
    · intro c hc
      exact hl c (by simp only [List.mem_append]; exact Or.inl (Or.inr hc))
    · rw [List.length_append] at hfuel
      omega
  rcases List.mem_cons.mp hb with rfl | hb
  · exact hfrom (p := []) rfl (by simp) (by rw [List.length_nil]; omega)
  · -- the start is behind it: the search goes once round
    obtain ⟨p, q, rfl⟩ := List.append_of_mem hb
    refine hfrom (p := b :: (q ++ l₁)) ⟨rfl, links_append.mpr ⟨a, ?_, h₁⟩⟩ ?_ ?_
    · exact (links_append_cons.mp h₂).2
    · intro c hc
      refine hl c ?_
      rcases List.mem_cons.mp hc with rfl | hc
      · simp
      · rcases List.mem_append.mp hc with hc | hc <;> simp [hc]
    · rw [List.length_append, List.length_cons] at hfuel
      rw [List.length_cons, List.length_append]
      omega

end Segment
