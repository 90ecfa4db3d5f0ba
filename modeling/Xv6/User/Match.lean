import Xv6.User.Grep

/-!
# The language of `grep`'s expressions

An expression is read from left to right: `^` at its beginning, items, `$` at its end. An item
is a character or a character with a star, and `.` stands for any character. `match` finds a
text exactly if a part of it is made of strings that match the items in turn.
-/

namespace Xv6

namespace Grep

inductive Item
  | one (c : Byte)
  | star (c : Byte)
  deriving DecidableEq, Repr

/-- The items of an expression without its `^`, and whether a `$` ends it. -/
def parse : List Byte → List Item × Bool
  | [] => ([], false)
  | [c] => if c == 36 then ([], true) else ([.one c], false)
  | c :: d :: re =>
    if d == 42 then (.star c :: (parse re).1, (parse re).2)
    else (.one c :: (parse (d :: re)).1, (parse (d :: re)).2)

def Accepts (c t : Byte) : Prop := c = 46 ∨ c = t

def Item.Matches : Item → List Byte → Prop
  | .one c, w => ∃ t, w = [t] ∧ Accepts c t
  | .star c, w => ∀ t ∈ w, Accepts c t

def Concat : List Item → List Byte → Prop
  | [], w => w = []
  | i :: is, w => ∃ u v, w = u ++ v ∧ i.Matches u ∧ Concat is v

/-- A string at the beginning of the text, up to its end if a `$` ends the expression. -/
def Begins (re text : List Byte) : Prop :=
  ∃ mid post, text = mid ++ post ∧ Concat (parse re).1 mid ∧ ((parse re).2 = true → post = [])

/-- A part of the text, at its beginning if the expression starts with `^`. -/
def Found (re text : List Byte) : Prop :=
  match re with
  | 94 :: re => Begins re text
  | re => ∃ pre rest, text = pre ++ rest ∧ Begins re rest

theorem accepts_iff {c t : Byte} : (c == 46 || c == t) = true ↔ Accepts c t := by
  simp [Accepts]

theorem matchstar_iff (here : List Byte → Bool) (c : Byte) (text : List Byte) :
    matchstar here c text = true ↔
      ∃ u v, text = u ++ v ∧ (∀ t ∈ u, Accepts c t) ∧ here v = true := by
  induction text with
  | nil =>
    refine ⟨fun h => ⟨[], [], rfl, by simp, h⟩, ?_⟩
    rintro ⟨u, v, huv, -, hv⟩
    obtain ⟨rfl, rfl⟩ := List.append_eq_nil_iff.mp huv.symm
    exact hv
  | cons t text ih =>
    have hc : (t == c || c == 46) = true ↔ Accepts c t := by
      rw [Bool.or_comm, ← accepts_iff, BEq.comm (a := t)]
    rw [matchstar, Bool.or_eq_true, Bool.and_eq_true, hc, ih]
    constructor
    · rintro (h | ⟨ht, u, v, rfl, hu, hv⟩)
      · exact ⟨[], t :: text, rfl, by simp, h⟩
      · refine ⟨t :: u, v, rfl, ?_, hv⟩
        intro x hx
        rcases List.mem_cons.mp hx with rfl | hx
        · exact ht
        · exact hu x hx
    · rintro ⟨u, v, huv, hu, hv⟩
      cases u with
      | nil =>
        obtain rfl : t :: text = v := huv
        exact Or.inl hv
      | cons x u =>
        obtain ⟨rfl, rfl⟩ := List.cons.inj huv
        exact Or.inr ⟨hu t List.mem_cons_self, u, v, rfl,
          fun x hx => hu x (List.mem_cons_of_mem _ hx), hv⟩

theorem begins_star {c : Byte} {re text : List Byte} :
    Begins (c :: 42 :: re) text ↔
      ∃ u v, text = u ++ v ∧ (∀ t ∈ u, Accepts c t) ∧ Begins re v := by
  have hparse : parse (c :: 42 :: re) = (.star c :: (parse re).1, (parse re).2) := by
    simp [parse]
  unfold Begins
  rw [hparse]
  constructor
  · rintro ⟨_, post, rfl, ⟨u, v, rfl, hu, hv⟩, hpost⟩
    exact ⟨u, v ++ post, List.append_assoc .., hu, v, post, rfl, hv, hpost⟩
  · rintro ⟨u, _, rfl, hu, v, post, rfl, hv, hpost⟩
    exact ⟨u ++ v, post, (List.append_assoc ..).symm, ⟨u, v, rfl, hu, hv⟩, hpost⟩

theorem begins_one {c : Byte} {re text : List Byte}
    (hparse : parse (c :: re) = (.one c :: (parse re).1, (parse re).2)) :
    Begins (c :: re) text ↔ ∃ t rest, text = t :: rest ∧ Accepts c t ∧ Begins re rest := by
  unfold Begins
  rw [hparse]
  constructor
  · rintro ⟨_, post, rfl, ⟨_, v, rfl, ⟨t, rfl, ht⟩, hv⟩, hpost⟩
    exact ⟨t, v ++ post, rfl, ht, v, post, rfl, hv, hpost⟩
  · rintro ⟨t, _, rfl, ht, v, post, rfl, hv, hpost⟩
    exact ⟨t :: v, post, rfl, ⟨[t], v, rfl, ⟨t, rfl, ht⟩, hv⟩, hpost⟩

theorem begins_nil (text : List Byte) : Begins [] text :=
  ⟨[], text, rfl, rfl, fun h => Bool.noConfusion h⟩

theorem begins_end {text : List Byte} : Begins [36] text ↔ text = [] := by
  constructor
  · rintro ⟨_, post, rfl, rfl, hpost⟩
    rw [hpost rfl, List.append_nil]
  · rintro rfl
    exact ⟨[], [], rfl, rfl, fun _ => rfl⟩

theorem parse_last {c : Byte} (hc : ¬ (c == 36) = true) :
    parse [c] = (.one c :: (parse []).1, (parse []).2) := if_neg hc

theorem parse_one {c d : Byte} {re : List Byte} (hd : ¬ (d == 42) = true) :
    parse (c :: d :: re) = (.one c :: (parse (d :: re)).1, (parse (d :: re)).2) := by
  rw [parse, if_neg hd]

theorem matchhere_iff : ∀ re text, matchhere re text = true ↔ Begins re text
  | [], text => iff_of_true rfl (begins_nil text)
  | [c], text => by
    unfold matchhere
    by_cases hc : (c == 36) = true
    · rw [if_pos hc, beq_iff_eq, eq_of_beq hc, begins_end]
    · rw [if_neg hc, begins_one (parse_last hc)]
      cases text with
      | nil => simp
      | cons t rest => simp [Accepts, begins_nil]
  | c :: d :: re, text => by
    unfold matchhere
    by_cases hd : (d == 42) = true
    · rw [if_pos hd, matchstar_iff, eq_of_beq hd, begins_star]
      simp only [matchhere_iff re]
    · rw [if_neg hd, begins_one (parse_one hd)]
      cases text with
      | nil => simp
      | cons t rest => simp [Accepts, matchhere_iff (d :: re) rest]

theorem matchAny_iff (re text : List Byte) :
    matchAny re text = true ↔ ∃ pre rest, text = pre ++ rest ∧ Begins re rest := by
  induction text with
  | nil =>
    rw [matchAny, matchhere_iff]
    constructor
    · exact fun h => ⟨[], [], rfl, h⟩
    · rintro ⟨pre, rest, heq, h⟩
      obtain ⟨rfl, rfl⟩ := List.append_eq_nil_iff.mp heq.symm
      exact h
  | cons t text ih =>
    rw [matchAny, Bool.or_eq_true, matchhere_iff, ih]
    constructor
    · rintro (h | ⟨pre, rest, rfl, h⟩)
      · exact ⟨[], t :: text, rfl, h⟩
      · exact ⟨t :: pre, rest, rfl, h⟩
    · rintro ⟨pre, rest, heq, h⟩
      cases pre with
      | nil =>
        obtain rfl : t :: text = rest := heq
        exact Or.inl h
      | cons x pre =>
        obtain ⟨rfl, rfl⟩ := List.cons.inj heq
        exact Or.inr ⟨pre, rest, rfl, h⟩

/-- `match` is total, and returns 1 exactly for the texts in which the expression is found. -/
theorem match_finds_language (re text : List Byte) : «match» re text = true ↔ Found re text := by
  by_cases hcaret : ∃ rest, re = 94 :: rest
  · obtain ⟨rest, rfl⟩ := hcaret
    exact matchhere_iff rest text
  · have hany : «match» re text = matchAny re text := by
      unfold «match»
      split
      · exact absurd ⟨_, rfl⟩ hcaret
      · rfl
    rw [hany, matchAny_iff]
    unfold Found
    split
    · exact absurd ⟨_, rfl⟩ hcaret
    · rfl

end Grep

end Xv6
