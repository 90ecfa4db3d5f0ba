import Xv6.Fs.Held

/-!
# The ends of the pipes

A pipe has two ends. Each is in one file, or held by the process that makes or closes that
file, or `pipeclose` was called for it; so `pipeclose` is called once for each end.
-/

namespace Xv6

def File.EndOf (f : File) (p : Nat) (w : Bool) : Prop :=
  0 < f.ref ∧ f.type = .pipe ∧ f.pipe = p ∧ f.writable = w

instance (f : File) (p : Nat) (w : Bool) : Decidable (f.EndOf p w) :=
  inferInstanceAs (Decidable (_ ∧ _ ∧ _ ∧ _))

namespace Fs

def ends (s : Fs) (p : Nat) (w : Bool) : Nat :=
  (Finset.univ.filter fun f => (s.ftable f).EndOf p w).card

/-- Every end of every pipe is in one place; `closed` lists the calls of `pipeclose`. -/
def PipeEnds (M : Multiset Token) (s : Fs) (closed : List (Nat × Bool)) : Prop :=
  ∀ p w, s.ends p w + M.count (.pend p w) + closed.count (p, w) = if p < s.pipes then 1 else 0

variable {M M' R : Multiset Token} {s t : Fs} {closed : List (Nat × Bool)} {f : FilePtr}
  {fl : File} {p : Nat} {w : Bool} {a : Token}

theorem ends_update (s : Fs) (f : FilePtr) (fl : File) (p : Nat) (w : Bool) :
    ({ s with ftable := Function.update s.ftable f fl } : Fs).ends p w +
      (if (s.ftable f).EndOf p w then 1 else 0) =
    s.ends p w + if fl.EndOf p w then 1 else 0 :=
  card_update (fun g => g.EndOf p w) s.ftable f fl

namespace PipeEnds

theorem keep (h : PipeEnds M s closed) (hM : ∀ p w, M'.count (.pend p w) = M.count (.pend p w))
    (hf : t.ftable = s.ftable) (hp : t.pipes = s.pipes) : PipeEnds M' t closed := by
  intro p w
  have hends : t.ends p w = s.ends p w := by
    unfold ends
    rw [hf]
  rw [hends, hM, hp]
  exact h p w

theorem setFile (h : PipeEnds M s closed)
    (hM : ∀ p w, M'.count (.pend p w) + (if fl.EndOf p w then 1 else 0) =
      M.count (.pend p w) + if (s.ftable f).EndOf p w then 1 else 0) :
    PipeEnds M' { s with ftable := Function.update s.ftable f fl } closed := by
  intro p w
  have hcount := ends_update s f fl p w
  have hsame := hM p w
  change _ = if p < s.pipes then 1 else 0
  rw [← h p w]
  omega

theorem alloc (h : PipeEnds M s closed) :
    PipeEnds (.pend s.pipes false ::ₘ .pend s.pipes true ::ₘ M)
      { s with pipes := s.pipes + 1 } closed := by
  intro p w
  have hold := h p w
  change s.ends p w + _ + _ = if p < s.pipes + 1 then 1 else 0
  rw [Multiset.count_cons, Multiset.count_cons]
  by_cases hp : p = s.pipes
  · subst hp
    rw [if_neg (Nat.lt_irrefl _)] at hold
    rw [if_pos (Nat.lt_succ_self _)]
    cases w with
    | false =>
      rw [if_neg nofun, if_pos rfl]
      omega
    | true =>
      rw [if_pos rfl, if_neg nofun]
      omega
  · rw [if_neg fun heq => hp (Token.pend.inj heq).1, if_neg fun heq => hp (Token.pend.inj heq).1]
    by_cases hlt : p < s.pipes
    · rw [if_pos hlt] at hold
      rw [if_pos (Nat.lt_succ_of_lt hlt)]
      omega
    · rw [if_neg hlt] at hold
      rw [if_neg (by omega)]
      omega

theorem fill (h : PipeEnds (a ::ₘ .pend p w ::ₘ R) s closed) (ha : ∀ q v, a ≠ .pend q v)
    (hold : ∀ q v, ¬ (s.ftable f).EndOf q v) (hnew : ∀ q v, fl.EndOf q v ↔ q = p ∧ v = w) :
    PipeEnds (.fref f ::ₘ R) { s with ftable := Function.update s.ftable f fl } closed := by
  refine h.setFile fun q v => ?_
  have hfref : Token.pend q v ≠ .fref f := nofun
  rw [Multiset.count_cons_of_ne hfref, Multiset.count_cons_of_ne (ha q v).symm,
    Multiset.count_cons, if_neg (hold q v)]
  simp [hnew]

theorem drain (h : PipeEnds (a ::ₘ R) s closed) (ha : ∀ q v, a ≠ .pend q v)
    (hold : ∀ q v, (s.ftable f).EndOf q v ↔ q = p ∧ v = w) (hnew : ∀ q v, ¬ fl.EndOf q v) :
    PipeEnds (.pend p w ::ₘ R) { s with ftable := Function.update s.ftable f fl } closed := by
  refine h.setFile fun q v => ?_
  rw [Multiset.count_cons_of_ne (ha q v).symm, Multiset.count_cons, if_neg (hnew q v)]
  simp [hold]

theorem close (h : PipeEnds (.pend p w ::ₘ R) s closed) :
    PipeEnds R s (closed ++ [(p, w)]) := by
  intro q v
  have hall := h q v
  rw [Multiset.count_cons] at hall
  rw [List.count_append, List.count_singleton]
  by_cases heq : q = p ∧ v = w
  · obtain ⟨rfl, rfl⟩ := heq
    rw [if_pos rfl] at hall
    rw [if_pos (beq_self_eq_true _)]
    omega
  · rw [if_neg fun hn => heq (Token.pend.inj hn)] at hall
    rw [if_neg fun hn => heq (Prod.mk.inj (eq_of_beq hn).symm)]
    omega

end PipeEnds

end Fs

end Xv6
