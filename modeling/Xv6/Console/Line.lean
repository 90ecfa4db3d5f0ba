import Xv6.Console.Model

/-!
# Keys and lines of the console

What the keys mean is said by an `Editor`, which has lists and no indices: the committed
input, how much of it has been consumed, and the line being typed. The cyclic buffer shows the
editor (`Input.Shows`), every key keeps that, and a reader takes the next bytes of the
committed input (`Outcome`).
-/

namespace Xv6

namespace Console

/-! ## The editor -/

structure Editor where
  committed : List Byte
  /-- The line being typed, which backspace and the key that kills a line still change. -/
  pending : List Byte
  /-- How much of the committed input readers have consumed. -/
  read : Nat

namespace Editor

def start : Editor := ⟨[], [], 0⟩

def unread (ed : Editor) : List Byte := ed.committed.drop ed.read

def kept (ed : Editor) : Nat := ed.unread.length + ed.pending.length

def listings : List Byte := [C 'P', C 'R', C 'F', C 'S', C 'Z']

/-- A character goes to the line, which is committed when it is finished or when there is no
room for another character. -/
def type (ed : Editor) (c : Byte) : Editor :=
  let text := ed.pending ++ [c]
  if c = newline ∨ c = C 'D' ∨ ed.kept + 1 = INPUTBUF.toNat then
    { ed with committed := ed.committed ++ text, pending := [] }
  else { ed with pending := text }

def key (ed : Editor) (c : Byte) : Editor :=
  if c ∈ listings then ed
  else if c = C 'U' then { ed with pending := [] }
  else if c = C 'H' ∨ c = 0x7f then { ed with pending := ed.pending.dropLast }
  else if c = 0 ∨ INPUTBUF.toNat ≤ ed.kept then ed
  else ed.type (if c = carriageReturn then newline else c)

end Editor

/-- The call ends with end of file: it was to read something, and returns nothing. -/
def Call.eof (c : Call) (stop : Stop) : List Byte :=
  if stop = .returns ∧ c.dst = [] ∧ 0 < c.target then [C 'D'] else []

namespace Editor

theorem type_read (ed : Editor) (c : Byte) : (ed.type c).read = ed.read := by
  unfold type
  dsimp only
  split
  · rfl
  · rfl

theorem key_read (ed : Editor) (c : Byte) : (ed.key c).read = ed.read := by
  unfold key
  split_ifs
  all_goals first | rfl | exact type_read _ _

theorem committed_type (ed : Editor) (c : Byte) : ed.committed <+: (ed.type c).committed := by
  unfold type
  dsimp only
  split
  · exact List.prefix_append _ _
  · exact List.prefix_rfl

theorem committed_key (ed : Editor) (c : Byte) : ed.committed <+: (ed.key c).committed := by
  unfold key
  split_ifs
  all_goals first | exact List.prefix_rfl | exact committed_type _ _

theorem keys_read (ed : Editor) (cs : List Byte) : (cs.foldl key ed).read = ed.read := by
  induction cs generalizing ed with
  | nil => rfl
  | cons c cs ih => exact (ih _).trans (key_read ed c)

theorem committed_keys (ed : Editor) (cs : List Byte) :
    ed.committed <+: (cs.foldl key ed).committed := by
  induction cs generalizing ed with
  | nil => exact List.prefix_rfl
  | cons c cs ih => exact (committed_key ed c).trans (ih _)

end Editor

/-! ## Keys -/

theorem INPUTBUF_dvd : INPUTBUF.toNat ∣ 2 ^ 32 := by decide

theorem INPUTBUF_lt : INPUTBUF.toNat < 2 ^ 32 := by decide

structure Input.Shows (s : Input) (ed : Editor) : Prop where
  read_le : ed.read ≤ ed.committed.length
  holds : Cyclic.Holds s.buf s.r s.e (ed.unread ++ ed.pending)
  w : s.w = s.r + BitVec.ofNat 32 ed.unread.length
  line : newline ∉ ed.pending

namespace Input.Shows

variable {s : Input} {ed : Editor}

theorem unread (h : s.Shows ed) : Cyclic.Holds s.buf s.r s.w ed.unread := by
  rw [h.w]
  exact h.holds.left

theorem pending (h : s.Shows ed) : Cyclic.Holds s.buf s.w s.e ed.pending := by
  rw [h.w]
  exact h.holds.right

theorem kept_eq (h : s.Shows ed) : (s.e - s.r).toNat = ed.kept := by
  rw [h.holds.length_eq INPUTBUF_lt, List.length_append]
  rfl

theorem kept_le (h : s.Shows ed) : ed.kept ≤ INPUTBUF.toNat := by
  have := h.holds.length_le
  rwa [List.length_append] at this

theorem shorten (h : s.Shows ed) {p : List Byte} (hp : p <+: ed.pending) {e : Word}
    (hq : Cyclic.Holds s.buf s.r e (ed.unread ++ p)) :
    ({ s with e := e } : Input).Shows { ed with pending := p } where
  read_le := h.read_le
  holds := hq
  w := h.w
  line := fun hmem => h.line (hp.subset hmem)

theorem backspace (h : s.Shows ed) :
    (if s.e ≠ s.w then { s with e := s.e - 1 } else s : Input).Shows
      { ed with pending := ed.pending.dropLast } := by
  have hend := h.pending.empty_iff INPUTBUF_lt
  rcases List.eq_nil_or_concat ed.pending with hnil | ⟨p, b, hp⟩
  · rwa [if_neg (not_not_intro (hend.mpr hnil).symm), hnil, List.dropLast_nil, ← hnil]
  · rw [List.concat_eq_append] at hp
    have hne : s.e ≠ s.w := by
      intro heq
      rw [hend.mp heq.symm] at hp
      exact List.append_ne_nil_of_right_ne_nil _ (List.cons_ne_nil _ _) hp.symm
    have hq := h.holds
    rw [hp, ← List.append_assoc] at hq
    rw [if_pos hne, hp, List.dropLast_concat]
    exact h.shorten (hp ▸ List.prefix_append p [b]) hq.unpush.2

end Input.Shows

theorem Input.killLine_eq {p : List Byte} {s : Input} (hq : Cyclic.Holds s.buf s.w s.e p)
    (hline : newline ∉ p) : s.killLine p.length = { s with e := s.w } := by
  induction p using List.reverseRecOn generalizing s with
  | nil =>
    rcases s with ⟨buf, r, w, e⟩
    obtain rfl : w = e := (hq.empty_iff INPUTBUF_lt).mpr rfl
    rfl
  | append_singleton p b ih =>
    have hne : s.e ≠ s.w := by
      intro heq
      have hnil := (hq.empty_iff INPUTBUF_lt).mp heq.symm
      exact List.append_ne_nil_of_right_ne_nil _ (List.cons_ne_nil _ _) hnil
    obtain ⟨hb, hq'⟩ := hq.unpush
    have hlast : s.bufAt (s.e - 1) ≠ newline := by
      intro heq
      exact hline (List.mem_append_right p (List.mem_singleton.mpr (heq.symm.trans hb)))
    rw [List.length_append, List.length_singleton, killLine, if_pos ⟨hne, hlast⟩]
    exact ih hq' fun hmem => hline (List.mem_append_left _ hmem)

namespace Input.Shows

variable {s : Input} {ed : Editor}

theorem killLine (h : s.Shows ed) :
    (s.killLine (s.e - s.w).toNat).Shows { ed with pending := [] } := by
  rw [h.pending.length_eq INPUTBUF_lt, Input.killLine_eq h.pending h.line]
  refine h.shorten (List.nil_prefix) ?_
  rw [List.append_nil]
  exact h.unread

theorem store (h : s.Shows ed) (hroom : ed.kept < INPUTBUF.toNat) (c : Byte) :
    (s.store c).Shows (ed.type c) := by
  have hq := h.holds.push INPUTBUF_dvd (List.length_append ▸ hroom) c
  rw [List.append_assoc] at hq
  have hfull : s.e + 1 = s.r + INPUTBUF ↔ ed.kept + 1 = INPUTBUF.toNat := by
    have hiff := hq.full_iff INPUTBUF_lt
    rwa [List.length_append, List.length_append, List.length_singleton, ← add_assoc] at hiff
  unfold Input.store Editor.type
  simp only [hfull]
  by_cases hends : c = newline ∨ c = C 'D' ∨ ed.kept + 1 = INPUTBUF.toNat
  · rw [if_pos hends, if_pos hends]
    have hunread : (ed.committed ++ (ed.pending ++ [c])).drop ed.read =
        ed.unread ++ (ed.pending ++ [c]) := List.drop_append_of_le_length h.read_le
    refine ⟨?_, ?_, ?_, List.not_mem_nil⟩
    · rw [List.length_append]
      exact Nat.le_add_right_of_le h.read_le
    · unfold Editor.unread
      rwa [hunread, List.append_nil]
    · unfold Editor.unread
      rw [hunread]
      exact hq.ends
  · rw [if_neg hends, if_neg hends]
    refine ⟨h.read_le, hq, h.w, fun hmem => ?_⟩
    rcases List.mem_append.mp hmem with hold | hnew
    · exact h.line hold
    · exact hends (Or.inl (List.mem_singleton.mp hnew).symm)

theorem key (h : s.Shows ed) (c : Byte) : (s.key c).Shows (ed.key c) := by
  have hroom : s.e - s.r < INPUTBUF ↔ ed.kept < INPUTBUF.toNat := by
    rw [BitVec.lt_def, h.kept_eq]
  unfold Input.key Editor.key Editor.listings
  simp only [List.mem_cons, List.not_mem_nil, or_false]
  by_cases hP : c = C 'P'
  · rwa [if_pos hP, if_pos (Or.inl hP)]
  rw [if_neg hP]
  by_cases hlist : c = C 'R' ∨ c = C 'F' ∨ c = C 'S' ∨ c = C 'Z'
  · have hU : c ≠ C 'U' := by
      rcases hlist with rfl | rfl | rfl | rfl <;> decide
    have hH : ¬(c = C 'H' ∨ c = 0x7f) := by
      rcases hlist with rfl | rfl | rfl | rfl <;> decide
    rwa [if_neg hU, if_neg hH, if_pos hlist, if_pos (Or.inr hlist)]
  rw [if_neg hlist, if_neg (not_or.mpr ⟨hP, hlist⟩)]
  by_cases hU : c = C 'U'
  · rw [if_pos hU, if_pos hU]
    exact h.killLine
  rw [if_neg hU, if_neg hU]
  by_cases hH : c = C 'H' ∨ c = 0x7f
  · rw [if_pos hH, if_pos hH]
    exact h.backspace
  simp only [if_neg hH, hroom]
  by_cases hdrop : c = 0 ∨ INPUTBUF.toNat ≤ ed.kept
  · have hnot : ¬(c ≠ 0 ∧ ed.kept < INPUTBUF.toNat) := fun hc =>
      hdrop.elim hc.1 (Nat.not_le_of_lt hc.2)
    rwa [if_pos hdrop, if_neg hnot]
  · obtain ⟨hc, hlt⟩ := not_or.mp hdrop
    rw [if_neg hdrop, if_pos ⟨hc, Nat.not_le.mp hlt⟩]
    exact h.store (Nat.not_le.mp hlt) _

theorem consoleintr (h : s.Shows ed) (cs : List Byte) :
    (s.consoleintr cs).Shows (cs.foldl Editor.key ed) := by
  induction cs generalizing s ed with
  | nil => exact h
  | cons c cs ih => exact ih (h.key c)

end Input.Shows

/-! ## Readers -/

/-- What has been stored and what is left to be stored make up the length of the call. -/
def Call.Fits (c : Call) : Prop := c.n + c.dst.length = c.target

/-- What a reader that has stored `dst` does with the unread input `q`: it stores the bytes
`took`, and may consume a `^D` after them. -/
structure Outcome (s : Input) (q dst took : List Byte) (r : Input × Call × Stop) : Prop where
  fits : r.2.1.Fits
  dst : r.2.1.dst = dst ++ took
  plain : C 'D' ∉ took
  queue : took ++ r.2.1.eof r.2.2 <+: q
  input : r.1 = { s with r := s.r + BitVec.ofNat 32 (took ++ r.2.1.eof r.2.2).length }

section Outcomes

variable {s : Input} {q dst took : List Byte}

theorem Outcome.idle (c : Call) {stop : Stop} (hfits : c.Fits) (heof : c.eof stop = []) :
    Outcome s q c.dst [] (s, c, stop) where
  fits := hfits
  dst := (List.append_nil _).symm
  plain := List.not_mem_nil
  queue := by
    rw [List.nil_append, heof]
    exact List.nil_prefix
  input := by
    rw [List.nil_append, heof, show s.r + BitVec.ofNat 32 ([] : List Byte).length = s.r from
      add_zero _]

theorem Outcome.cons {b : Byte} {r : Input × Call × Stop} (hb : b ≠ C 'D')
    (h : Outcome { s with r := s.r + 1 } q (dst ++ [b]) took r) :
    Outcome s (b :: q) dst (b :: took) r where
  fits := h.fits
  dst := by
    rw [h.dst, List.append_assoc]
    rfl
  plain := fun hmem => (List.mem_cons.mp hmem).elim (fun heq => hb heq.symm) h.plain
  queue := (List.prefix_cons_inj b).mpr h.queue
  input := by
    rw [h.input, List.cons_append, List.length_cons, Nat.add_comm _ 1, BitVec.ofNat_add,
      ← add_assoc]
    rfl

theorem Input.consoleread_outcome (killed : Bool) {target n : Nat}
    (hq : Cyclic.Holds s.buf s.r s.w q) (hn : n + dst.length = target) :
    ∃ took, Outcome s q dst took (s.consoleread killed target n dst) := by
  induction n generalizing s dst q with
  | zero =>
    refine ⟨[], Outcome.idle ⟨target, 0, dst⟩ hn (if_neg fun hc => ?_)⟩
    obtain ⟨-, hnil, hpos⟩ := hc
    dsimp only at hnil hpos
    rw [hnil, List.length_nil] at hn
    omega
  | succ n ih =>
    unfold consoleread
    cases q with
    | nil =>
      rw [if_pos ((hq.empty_iff INPUTBUF_lt).mpr rfl)]
      refine ⟨[], Outcome.idle ⟨target, n + 1, dst⟩ hn (if_neg fun hc => ?_)⟩
      cases killed with
      | true | false => cases hc.1
    | cons b q =>
      obtain ⟨hb, hq'⟩ := hq.pop
      have hne : s.r ≠ s.w := fun heq => by cases (hq.empty_iff INPUTBUF_lt).mp heq
      have hbuf : s.bufAt s.r = b := hb
      simp only [if_neg hne, hbuf, add_sub_cancel_right]
      by_cases hD : b = C 'D'
      · rw [if_pos hD]
        by_cases hlt : n + 1 < target
        · have hdst : dst ≠ [] := by
            rintro rfl
            rw [List.length_nil] at hn
            omega
          rw [if_pos hlt]
          exact ⟨[], Outcome.idle ⟨target, n + 1, dst⟩ hn (if_neg fun hc => hdst hc.2.1)⟩
        · have hdst : dst = [] := List.length_eq_zero_iff.mp (by omega)
          have heof : Call.eof ⟨target, n + 1, dst⟩ .returns = [b] := by
            rw [hD]
            exact if_pos ⟨rfl, hdst, by dsimp only; omega⟩
          rw [if_neg hlt]
          refine ⟨[], hn, (List.append_nil _).symm, List.not_mem_nil, ?_, ?_⟩
          · rw [heof]
            exact (List.prefix_cons_inj b).mpr List.nil_prefix
          · rw [heof]
            rfl
      · rw [if_neg hD]
        have hn' : n + (dst ++ [b]).length = target := by
          rw [List.length_append, List.length_singleton]
          omega
        by_cases hnl : b = newline
        · rw [if_pos hnl]
          refine ⟨[b], Outcome.cons hD (Outcome.idle ⟨target, n, dst ++ [b]⟩ hn' ?_)⟩
          exact if_neg fun hc => List.append_ne_nil_of_right_ne_nil _ (List.cons_ne_nil _ _) hc.2.1
        · rw [if_neg hnl]
          obtain ⟨took, hout⟩ := ih (s := { s with r := s.r + 1 }) hq' hn'
          exact ⟨b :: took, Outcome.cons hD hout⟩

end Outcomes

end Console

end Xv6
