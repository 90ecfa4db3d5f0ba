import Xv6.Fs.Balanced

/-!
# What a transaction may log

`begin_op` reserves `MAXOPBLOCKS` blocks of the log. A transaction that frees one inode at
most, and whose call of `writei` is small enough, stays within them. `filewrite` cuts what it
writes by the size of the log instead, and exceeds them.
-/

namespace Xv6

namespace Fs

/-- `iput` would free the inode of the entry. -/
def LastRef (s : Fs) (ip : InodePtr) : Prop :=
  (s.icache ip).ref = 1 ∧ (s.icache ip).valid = true ∧ (s.icache ip).d.nlink = 0

instance (s : Fs) (ip : InodePtr) : Decidable (s.LastRef ip) :=
  inferInstanceAs (Decidable (_ ∧ _ ∧ _))

/-- The call keeps a transaction within its quota: `writei` logs few blocks, and `iput` frees
an inode only if the transaction has freed none before. -/
def Call.frugal (s : Fs) (x : Tx) : {β : Type} → Call β → Bool
  | _, .writei ip _ off n =>
    decide (writeCost s.sb (s.icache ip).d off.toNat n.toNat ≤ MAXOPBLOCKS)
  | _, .iputTest ip => decide (s.LastRef ip → x.freed = 0)
  | _, _ => true

def frugal {T : Type} (w : World T) : Action T → Bool
  | .advance t =>
    match w.prog t with
    | some (.call c _) => c.frugal w.fs (w.own t).tx
    | _ => true
  | _ => true

def Tx.Modest (x : Tx) : Prop := x.freed ≤ 1 ∧ x.cost ≤ MAXOPBLOCKS

section Call

variable {s s' : Fs} {x : Tx} {me me' : Caller} {ev : List Event} {β : Type} {c : Call β} {b : β}

theorem Call.frees_run (h : c.run me s = .ok ((b, me'), s', ev)) (hc : c.frugal s x = true)
    (hx : x.freed ≤ 1) : x.freed + c.frees b ≤ 1 := by
  cases c with
  | iputTest ip =>
    by_cases hl : s.LastRef ip
    · have hnone : x.freed = 0 := of_decide_eq_true hc hl
      have hone : Call.frees (.iputTest ip) b ≤ 1 := by
        change (if b = true then 1 else 0) ≤ 1
        split
        · exact Nat.le_refl 1
        · exact Nat.zero_le 1
      omega
    · have hends : Effect.Ends (Call.run (.iputTest ip) me) s (fun r _ _ => r.1 = false)
          fun _ => True := Effect.ends_bind (FsM.iputTest_keep_ends hl (Effect.ends_pure rfl))
      have hb : b = false := hends.of_ok h
      subst hb
      exact hx
  | _ => exact hx

theorem Call.cost_le (hc : c.frugal s x = true) : c.cost s ≤ MAXOPBLOCKS := by
  cases c with
  | writei ip src off n => exact of_decide_eq_true hc
  | _ => exact Nat.zero_le _

theorem Tx.Modest.after (hx : x.Modest) (h : c.run me s = .ok ((b, me'), s', ev))
    (hc : c.frugal s x = true) : (x.after s ev c b).Modest := by
  have hadd : (x.add ev (c.frees b) (c.cost s)).Modest :=
    ⟨Call.frees_run h hc hx.1, Nat.max_le.mpr ⟨hx.2, Call.cost_le hc⟩⟩
  cases c with
  | endOp => exact ⟨Nat.zero_le _, Nat.zero_le _⟩
  | _ => exact hadd

end Call

variable {T : Type} [DecidableEq T] [Fintype T] {sb : Superblock} {base : Nat → Attr}
  {lost : Set Nat} {w w' : World T} {a : Action T} {tr : List (Action T × Unit)}

def OneMap (w : World T) : Prop := Init w ∧ w.fs.sb.nbitmap ≤ 1

omit [Fintype T] in
theorem modest_set {t : T} {o : Own} {p : Option (Program Int)}
    (hw : ∀ u, (w.own u).tx.Modest) (ho : o.tx.Modest) (u : T) :
    ((w.set t o p).own u).tx.Modest := by
  by_cases hu : u = t
  · subst hu
    rwa [World.own_set_self]
  · rw [World.own_set_of_ne hu]
    exact hw u

omit [Fintype T] in
theorem modest_next (hw : ∀ t, (w.own t).tx.Modest) (hc : frugal w a = true) {e : Unit}
    (h : next w a = some (w', e)) : ∀ t, (w'.own t).tx.Modest := by
  cases a with
  | start t q | fork t u pid =>
    dsimp only [next] at h
    split at h
    · cases h
      exact modest_set hw (hw t)
    · cases h
  | hatch t u =>
    dsimp only [next] at h
    split at h
    · split at h
      · cases h
        exact modest_set (modest_set hw (hw t)) ⟨Nat.zero_le _, Nat.zero_le _⟩
      · cases h
        exact modest_set hw (hw t)
    · cases h
  | reap t =>
    dsimp only [next] at h
    split at h
    · cases h
      exact hw
    · cases h
  | advance t =>
    obtain ⟨sys, hsys, heq⟩ := Option.map_eq_some_iff.mp h
    cases heq
    intro u
    obtain ⟨r, -, rfl⟩ | ⟨β, c, k, b, sh, d, hp, hok, rfl⟩ := Prog.World.advance_cases hsys
    · exact modest_set hw (hw t) u
    · obtain ⟨me, s', ev, hrun, -, rfl⟩ := act_ok hok
      have hcall : c.frugal w.fs (w.own t).tx = true := by
        unfold frugal at hc
        dsimp only at hc
        rwa [show w.prog t = some (.call c k) from hp] at hc
      exact modest_set hw ((hw t).after hrun hcall) u
  | outside console pipe memory stack =>
    cases h
    exact hw

end Fs

end Xv6
