import Xv6.Fs.Seq
import Xv6.Lib.Run
import Xv6.Lib.Threads

/-!
# A shared offset

Processes that share one `struct file` read from it and write to it, in any order and one
call of the file system at a time. What `readi` and `writei` transfer is kept as ghost data,
with the number of times the inode was locked before.
-/

open Multiset (card_add card_eq_zero card_singleton map_singleton mem_add mem_singleton notMem_zero
  singleton_ne_zero sum_singleton)

namespace Xv6

namespace Fs

namespace Offset

open Effect Prog

/-! ## Transfers -/

/-- What one `readi` or `writei` has transferred, in the turn of the lock it was made in. -/
structure Transfer where
  turn : Nat
  written : Bool
  off : Nat
  bytes : List Byte

def total (l : List Transfer) : Nat := (l.map fun e => e.bytes.length).sum

/-- The transfers are contiguous and start at `base`. -/
def Contiguous (base : Nat) (l : List Transfer) : Prop :=
  ∀ i e, l[i]? = some e → e.off = base + total (l.take i)

structure Moved (base locks : Nat) (l : List Transfer) : Prop where
  contiguous : Contiguous base l
  below : ∀ e ∈ l, e.off + e.bytes.length ≤ base + total l
  disjoint : l.Pairwise fun a b => a.off + a.bytes.length ≤ b.off
  order : l.Pairwise fun a b => a.turn < b.turn
  turns : ∀ e ∈ l, e.turn ≤ locks

section Moved

variable {base locks : Nat} {l : List Transfer} {e : Transfer}

theorem total_append (l l' : List Transfer) : total (l ++ l') = total l + total l' := by
  unfold total
  rw [List.map_append, List.sum_append]

theorem total_singleton (e : Transfer) : total [e] = e.bytes.length := by
  simp [total]

theorem Moved.nil : Moved base locks [] := by
  refine ⟨?_, ?_, List.Pairwise.nil, List.Pairwise.nil, ?_⟩
  · intro i e h
    cases h
  · intro e h
    cases h
  · intro e h
    cases h

theorem Moved.snoc (h : Moved base locks l) (hoff : e.off = base + total l)
    (hturn : e.turn = locks) (hnew : ∀ a ∈ l, a.turn < locks) :
    Moved base locks (l ++ [e]) := by
  refine ⟨?_, ?_, ?_, ?_, ?_⟩
  · intro i a ha
    by_cases hi : i < l.length
    · rw [List.getElem?_append_left hi] at ha
      rw [List.take_append_of_le_length (Nat.le_of_lt hi)]
      exact h.contiguous i a ha
    · have hlt := (List.getElem?_eq_some_iff.mp ha).1
      rw [List.length_append, List.length_singleton] at hlt
      obtain rfl : i = l.length := by omega
      rw [List.getElem?_concat_length] at ha
      obtain rfl := Option.some.inj ha
      rwa [List.take_left]
  · intro a ha
    rw [total_append, total_singleton]
    rcases List.mem_append.mp ha with ha | ha
    · have := h.below a ha
      omega
    · rw [List.mem_singleton.mp ha, hoff]
      omega
  · refine List.pairwise_append.mpr ⟨h.disjoint, List.pairwise_singleton .., ?_⟩
    intro a ha b hb
    rw [List.mem_singleton.mp hb, hoff]
    exact h.below a ha
  · refine List.pairwise_append.mpr ⟨h.order, List.pairwise_singleton .., ?_⟩
    intro a ha b hb
    rw [List.mem_singleton.mp hb, hturn]
    exact hnew a ha
  · intro a ha
    rcases List.mem_append.mp ha with ha | ha
    · exact h.turns a ha
    · rw [List.mem_singleton.mp ha, hturn]

theorem Moved.lock (h : Moved base locks l) : Moved base (locks + 1) l :=
  ⟨h.contiguous, h.below, h.disjoint, h.order, fun e he => Nat.le_succ_of_le (h.turns e he)⟩

end Moved

/-! ## Calls -/

/-- The file system, how often an inode was locked, and what was transferred. -/
structure Shared where
  fs : Fs
  locks : Nat
  moved : List Transfer

def turns : {β : Type} → Call β → Nat
  | _, .ilock _ => 1
  | _, _ => 0

def transfers (turn : Nat) : {β : Type} → Call β → β → List Transfer
  | _, .readi _ off _, some x => [⟨turn, false, off.toNat, x⟩]
  | _, .writei _ src off _, some r => [⟨turn, true, off.toNat, (List.range r).map src⟩]
  | _, _, _ => []

def Shared.after (sh : Shared) (s : Fs) {β : Type} (c : Call β) (b : β) : Shared where
  fs := s
  locks := sh.locks + turns c
  moved := sh.moved ++ transfers sh.locks c b

def act (β : Type) (c : Call β) (w : Shared × Caller) : Except Fault (β × (Shared × Caller)) :=
  if c.blocks w.1.fs then .error .diverge
  else
    match c.run w.2 w.1.fs with
    | .error e => .error e
    | .ok ((b, me), s, _) => .ok (b, (w.1.after s c b, me))

/-! ## What a process may do -/

/-- The lock of the inode: with the offset, once it is read, or with the number of bytes that
were transferred since and are not in the offset. -/
inductive Token
  | lock (off : Option Word)
  | moved (r : Nat)

def Token.pending : Token → Nat
  | .lock _ => 0
  | .moved r => r

def Token.learn (off : Word) : Token → Token
  | .lock _ => .lock (some off)
  | .moved r => .moved r

abbrev Holding := Hold Token Unit

section Spec

variable (f : FilePtr) (ip : InodePtr)

/-- What the calls of `fileread` and `filewrite` need and give. -/
def wp : (β : Type) → Call β → Holding → (β → Holding → Prop) → Prop
  | _, .beginOp, H, Q => Q () H
  | _, .endOp, H, Q => Q () H
  | _, .fault _, _, _ => True
  | _, .file g, H, Q => g = f ∧ ∀ ff : File, ff.ip = ip → ff.type = .inode →
      Q ff ⟨H.toks.map (Token.learn ff.off), ()⟩
  | _, .ilock jp, H, Q => jp = ip ∧ H.toks = 0 ∧ Q () ⟨{.lock none}, ()⟩
  | _, .iunlock jp, H, Q => jp = ip ∧ (∃ a, H.toks = {a} ∧ a.pending = 0) ∧ Q () ⟨0, ()⟩
  | _, .inode jp, H, Q => jp = ip ∧ H.toks ≠ 0 ∧ ∀ i : Inode, i.d.type = .file → Q i H
  | _, .readi jp off _, H, Q => jp = ip ∧ H.toks = {.lock (some off)} ∧ Q none H ∧
      ∀ x : List Byte, Q (some x) ⟨{.moved x.length}, ()⟩
  | _, .writei jp _ off n, H, Q => jp = ip ∧ H.toks = {.lock (some off)} ∧ Q none H ∧
      Q (some n.toNat) ⟨{.moved n.toNat}, ()⟩
  | _, .advance g r, H, Q => g = f ∧ H.toks = {.moved r} ∧ Q () ⟨{.moved 0}, ()⟩
  | _, _, _, _ => False

theorem wp_mono : Monotone (wp f ip) := by
  intro β c H Q Q' hQ h
  cases c with
  | beginOp | endOp => exact hQ _ _ h
  | fault e => exact trivial
  | file g => exact ⟨h.1, fun ff h₁ h₂ => hQ _ _ (h.2 ff h₁ h₂)⟩
  | ilock jp | iunlock jp | advance g r => exact ⟨h.1, h.2.1, hQ _ _ h.2.2⟩
  | inode jp => exact ⟨h.1, h.2.1, fun i hi => hQ _ _ (h.2.2 i hi)⟩
  | readi jp off n => exact ⟨h.1, h.2.1, hQ _ _ h.2.2.1, fun x => hQ _ _ (h.2.2.2 x)⟩
  | writei jp src off n => exact ⟨h.1, h.2.1, hQ _ _ h.2.2.1, hQ _ _ h.2.2.2⟩
  | _ => exact h.elim

end Spec

section Programs

variable {f : FilePtr} {ip : InodePtr} {α : Type} {H : Holding} {Q : α → Holding → Prop}

abbrev atRest : Holding := ⟨0, ()⟩

variable {g : Unit → Program α}

theorem beginOp_safe (hq : (g ()).Safe (wp f ip) H Q) :
    (Prog.lift .beginOp >>= g).Safe (wp f ip) H Q := hq

theorem endOp_safe (hq : (g ()).Safe (wp f ip) H Q) :
    (Prog.lift .endOp >>= g).Safe (wp f ip) H Q := hq

theorem file_safe {g : File → Program α}
    (hq : ∀ ff : File, ff.ip = ip → ff.type = .inode →
      (g ff).Safe (wp f ip) ⟨H.toks.map (Token.learn ff.off), ()⟩ Q) :
    (Prog.lift (.file f) >>= g).Safe (wp f ip) H Q := ⟨rfl, hq⟩

theorem ilock_safe
    (hq : (g ()).Safe (wp f ip) ⟨{.lock none}, ()⟩ Q) :
    (Prog.lift (.ilock ip) >>= g).Safe (wp f ip) atRest Q := ⟨rfl, rfl, hq⟩

theorem iunlock_safe {a : Token} (ha : a.pending = 0)
    (hq : (g ()).Safe (wp f ip) atRest Q) :
    (Prog.lift (.iunlock ip) >>= g).Safe (wp f ip) ⟨{a}, ()⟩ Q := ⟨rfl, ⟨a, rfl, ha⟩, hq⟩

theorem advance_safe {r : Nat}
    (hq : (g ()).Safe (wp f ip) ⟨{.moved 0}, ()⟩ Q) :
    (if r > 0 then Prog.lift (.advance f r) >>= g else g ()).Safe (wp f ip)
      ⟨{.moved r}, ()⟩ Q := by
  split
  · exact ⟨rfl, rfl, hq⟩
  · next h =>
    obtain rfl : r = 0 := by omega
    exact hq

theorem inode_safe {a : Token} {g : Inode → Program α}
    (hq : ∀ i : Inode, i.d.type = .file → (g i).Safe (wp f ip) ⟨{a}, ()⟩ Q) :
    (Prog.lift (.inode ip) >>= g).Safe (wp f ip) ⟨{a}, ()⟩ Q :=
  ⟨rfl, singleton_ne_zero _, hq⟩

theorem readi_safe {off n : Word} {Q : Option (List Byte) → Holding → Prop}
    (hnone : Q none ⟨{.lock (some off)}, ()⟩)
    (hsome : ∀ x, Q (some x) ⟨{.moved x.length}, ()⟩) :
    (Fs.readi ip off n).Safe (wp f ip) ⟨{.lock (some off)}, ()⟩ Q := by
  refine inode_safe fun i hi => ?_
  rw [if_neg (by rw [hi]; exact FileType.noConfusion)]
  exact ⟨rfl, rfl, hnone, hsome⟩

theorem writei_safe {src : Nat → Byte} {off n : Word} {Q : Option Nat → Holding → Prop}
    (hnone : Q none ⟨{.lock (some off)}, ()⟩)
    (hsome : Q (some n.toNat) ⟨{.moved n.toNat}, ()⟩) :
    (Fs.writei ip src off n).Safe (wp f ip) ⟨{.lock (some off)}, ()⟩ Q := by
  refine inode_safe fun i hi => ?_
  rw [if_neg (by rw [hi]; exact FileType.noConfusion)]
  exact ⟨rfl, rfl, hnone, hsome⟩

theorem fileread_safe (n : Word) :
    (fileread f n).Safe (wp f ip) atRest fun _ H => H.toks = 0 := by
  refine file_safe fun ff hip htype => ?_
  split
  · exact safe_pure rfl
  · rw [htype]
    rw [hip]
    refine ilock_safe (file_safe fun gg hip' _ => ?_)
    rw [hip']
    refine safe_bind (wp_mono f ip) (readi_safe ?_ fun x => ?_)
    · exact iunlock_safe rfl (safe_pure rfl)
    · exact advance_safe (iunlock_safe rfl (safe_pure rfl))

theorem writeChunk_safe (src : Nat → Byte) (n1 : Nat) :
    (writeChunk f src n1).Safe (wp f ip) atRest fun _ H => H.toks = 0 := by
  refine beginOp_safe (file_safe fun ff hip _ => ?_)
  rw [hip]
  refine ilock_safe (file_safe fun gg _ _ => ?_)
  refine safe_bind (wp_mono f ip) (writei_safe ?_ ?_)
  · exact iunlock_safe rfl (endOp_safe (safe_pure rfl))
  · exact advance_safe (iunlock_safe rfl (endOp_safe (safe_pure rfl)))

theorem writeLoop_safe {turns : Nat} (src : Nat → Byte) (n : Nat) :
    (writeLoop f turns src n).Safe (wp f ip) atRest fun _ H => H.toks = 0 := by
  induction turns generalizing src n with
  | zero => exact safe_pure rfl
  | succ turns ih =>
    unfold writeLoop
    split
    · exact safe_pure rfl
    · refine safe_bind (wp_mono f ip) ((writeChunk_safe src _).mono (wp_mono f ip) ?_)
      rintro r ⟨toks, -⟩ rfl
      cases r with
      | none => exact safe_pure rfl
      | some r =>
        dsimp only
        split
        · exact safe_call trivial
        · exact ih _ _

theorem filewrite_safe (src : Nat → Byte) (n : Int) :
    (filewrite f src n).Safe (wp f ip) atRest fun _ H => H.toks = 0 := by
  refine file_safe fun ff hip htype => ?_
  split
  · exact safe_pure rfl
  · rw [htype]
    refine safe_bind (wp_mono f ip) ((writeLoop_safe src _).mono (wp_mono f ip) ?_)
    intro done H hH
    exact safe_pure hH

end Programs

/-! ## What holds of the file -/

/-- The transfers so far are one after the other from `base` on, the offset is where they end,
but for those that it does not count yet, and what was written is in the file. -/
structure Inv (f : FilePtr) (ip : InodePtr) (inum base : Nat) (M : Multiset Token)
    (sh : Shared) : Prop where
  card : M.card ≤ 1
  busy : (sh.fs.icache ip).busy = true ↔ M ≠ 0
  ref : 1 ≤ (sh.fs.icache ip).ref
  inum_eq : (sh.fs.icache ip).inum = inum
  ip_eq : (sh.fs.ftable f).ip = ip
  inode : (sh.fs.ftable f).type = .inode
  sound : sh.fs.Sound
  type : (sh.fs.dinode inum).type = .file
  clean : (sh.fs.icache ip).valid = true → sh.fs.Clean ip
  valid : M ≠ 0 → (sh.fs.icache ip).valid = true
  moved : Moved base sh.locks sh.moved
  fresh : ∀ o, .lock o ∈ M → ∀ e ∈ sh.moved, e.turn < sh.locks
  known : ∀ o, .lock (some o) ∈ M → o = (sh.fs.ftable f).off
  off : (sh.fs.ftable f).off.toNat + (M.map Token.pending).sum = base + total sh.moved
  small : base + total sh.moved < 2 ^ 32
  bytes : ∀ e ∈ sh.moved, e.written = true → ∀ j < e.bytes.length,
    sh.fs.fileByte (sh.fs.dinode inum) (e.off + j) = e.bytes.getD j 0

section Calls

variable {f : FilePtr} {ip : InodePtr} {inum base : Nat} {others : Multiset Token} {sh : Shared}
  {me : Caller} {β : Type} {c : Call β} {H : Holding} {Q : β → Holding → Prop} {a : Token}

abbrev KeepsInv (f : FilePtr) (ip : InodePtr) (inum base : Nat) (c : Call β)
    (others : Multiset Token) (sh : Shared) (me : Caller) (Q : β → Holding → Prop) : Prop :=
  Prog.Keeps act (fun _ _ => True) (Inv f ip inum base) (fun _ => True) c others sh me Q

theorem keeps_of_ends {m : FsM β} (hrun : c.run me = m >>= fun b => Pure.pure (b, me))
    (h : c.blocks sh.fs = false → Ends m sh.fs (fun b s _ => ∃ H', Q b H' ∧
      Inv f ip inum base (H'.toks + others) (sh.after s c b)) fun _ => True) :
    KeepsInv f ip inum base c others sh me Q := by
  unfold KeepsInv Prog.Keeps act
  by_cases hb : c.blocks sh.fs = true
  · rw [if_pos hb]
    exact trivial
  · have hends : Ends (m >>= fun b => Pure.pure (b, me)) sh.fs
        (fun r s _ => ∃ H', Q r.1 H' ∧ Inv f ip inum base (H'.toks + others) (sh.after s c r.1))
        (fun _ => True) :=
      ends_bind ((h (by simpa using hb)).mono (fun _ _ _ hq => ends_pure hq) fun _ hf => hf)
    rw [if_neg hb, hrun]
    unfold Ends at hends
    dsimp only
    cases hm : (m >>= fun b => (Pure.pure (b, me) : FsM (β × Caller))) sh.fs with
    | error e => exact trivial
    | ok r =>
      rw [hm] at hends
      obtain ⟨H', hq, hinv⟩ := hends
      exact ⟨H', hq, trivial, hinv⟩

theorem after_eq {s : Fs} {b : β} (hturn : turns c = 0) (hmove : transfers sh.locks c b = []) :
    sh.after s c b = { sh with fs := s } := by
  unfold Shared.after
  rw [hturn, hmove, Nat.add_zero, List.append_nil]

namespace Inv

variable {M : Multiset Token}

theorem alone (h : Inv f ip inum base ({a} + others) sh) : others = 0 := by
  have hcard := h.card
  rw [card_add, card_singleton] at hcard
  exact card_eq_zero.mp (by omega)

theorem held (h : Inv f ip inum base M sh) (hM : M ≠ 0) :
    sh.fs.Clean ip ∧ (sh.fs.icache ip).d.type = .file := by
  have hclean := h.clean (h.valid hM)
  refine ⟨hclean, ?_⟩
  rw [← hclean, h.inum_eq]
  exact h.type

theorem offset (h : Inv f ip inum base {a} sh) :
    (sh.fs.ftable f).off.toNat + a.pending = base + total sh.moved := by
  have := h.off
  rwa [map_singleton, sum_singleton] at this

end Inv

theorem tokens_eq_zero {M N : Multiset Token} : M + N = 0 ↔ M = 0 ∧ N = 0 := by
  rw [← card_eq_zero, card_add, Nat.add_eq_zero_iff, card_eq_zero,
    card_eq_zero]

theorem mem_map_learn {off : Word} {o : Option Word}
    (h : .lock o ∈ H.toks.map (Token.learn off)) : o = some off ∧ ∃ o', .lock o' ∈ H.toks := by
  obtain ⟨t, ht, heq⟩ := Multiset.mem_map.mp h
  cases t with
  | lock o' => exact ⟨(Token.lock.inj heq).symm, o', ht⟩
  | moved r => cases heq

theorem Inv.learn (h : Inv f ip inum base (H.toks + others) sh) :
    Inv f ip inum base (H.toks.map (Token.learn (sh.fs.ftable f).off) + others) sh := by
  have hne : H.toks.map (Token.learn (sh.fs.ftable f).off) + others ≠ 0 ↔ H.toks + others ≠ 0 := by
    rw [ne_eq, ne_eq, tokens_eq_zero, tokens_eq_zero, Multiset.map_eq_zero]
  have hpend : Token.pending ∘ Token.learn (sh.fs.ftable f).off = Token.pending := by
    funext t
    cases t <;> rfl
  refine { h with card := ?_, busy := ?_, valid := ?_, fresh := ?_, known := ?_, off := ?_ }
  · have := h.card
    rwa [card_add, Multiset.card_map, ← card_add]
  · rw [hne]
    exact h.busy
  · rw [hne]
    exact h.valid
  · intro o ho
    rcases mem_add.mp ho with ho | ho
    · obtain ⟨-, o', ho'⟩ := mem_map_learn ho
      exact h.fresh o' (mem_add.mpr (Or.inl ho'))
    · exact h.fresh o (mem_add.mpr (Or.inr ho))
  · intro o ho
    rcases mem_add.mp ho with ho | ho
    · exact Option.some.inj (mem_map_learn ho).1
    · exact h.known o (mem_add.mpr (Or.inr ho))
  · have := h.off
    rw [Multiset.map_add, Multiset.sum_add] at this ⊢
    rwa [Multiset.map_map, hpend]

theorem keeps_file {Q : File → Holding → Prop} (hq : ∀ ff : File, ff.ip = ip → ff.type = .inode →
      Q ff ⟨H.toks.map (Token.learn ff.off), ()⟩)
    (h : Inv f ip inum base (H.toks + others) sh) :
    KeepsInv f ip inum base (.file f) others sh me Q := by
  refine keeps_of_ends (m := do Pure.pure ((← Effect.get).ftable f)) rfl fun _ => ?_
  refine ends_bind (ends_get (ends_pure ⟨_, hq _ h.ip_eq h.inode, ?_⟩))
  rw [after_eq rfl rfl]
  exact h.learn

theorem keeps_inode {Q : Inode → Holding → Prop} (hne : H.toks ≠ 0)
    (hq : ∀ i : Inode, i.d.type = .file → Q i H) (h : Inv f ip inum base (H.toks + others) sh) :
    KeepsInv f ip inum base (.inode ip) others sh me Q := by
  refine keeps_of_ends (m := FsM.inode ip) rfl fun _ => ?_
  refine ends_bind (ends_get (ends_pure ⟨H, hq _ ?_, ?_⟩))
  · refine (h.held ?_).2
    exact fun hh => hne (tokens_eq_zero.mp hh).1
  · rwa [after_eq rfl rfl]

theorem Inv.setInode {i : Inode} {M : Multiset Token} {s : Fs} {locks : Nat}
    (h : Inv f ip inum base others sh) (hM : M.card ≤ 1)
    (hs : s = { sh.fs with icache := Function.update sh.fs.icache ip i })
    (hi : i = { sh.fs.icache ip with busy := i.busy, valid := i.valid, d := i.d })
    (hbusy : i.busy = true ↔ M ≠ 0) (hclean : i.valid = true → i.d = sh.fs.dinode inum)
    (hvalid : M ≠ 0 → i.valid = true) (hmoved : Moved base locks sh.moved)
    (hfresh : ∀ o, .lock o ∈ M → ∀ e ∈ sh.moved, e.turn < locks)
    (hknown : ∀ o, .lock (some o) ∉ M)
    (hpend : (M.map Token.pending).sum = (others.map Token.pending).sum) :
    Inv f ip inum base M ⟨s, locks, sh.moved⟩ := by
  subst hs
  have hself : (Function.update sh.fs.icache ip i) ip = i := Function.update_self ..
  have hinum : i.inum = inum := by
    rw [hi]
    exact h.inum_eq
  refine ⟨hM, ?_, ?_, ?_, h.ip_eq, h.inode, h.sound, h.type, ?_, ?_, hmoved, hfresh, ?_, ?_,
    h.small, h.bytes⟩
  · dsimp only
    rwa [hself]
  · dsimp only
    rw [hself, hi]
    exact h.ref
  · dsimp only
    rwa [hself]
  · dsimp only
    rw [hself]
    intro hv
    unfold Fs.Clean
    dsimp only
    rw [hself, hinum]
    exact (hclean hv).symm
  · dsimp only
    rwa [hself]
  · intro o ho
    exact absurd ho (hknown o)
  · rw [hpend]
    exact h.off

theorem keeps_ilock {Q : Unit → Holding → Prop} (hq : Q () ⟨{.lock none}, ()⟩)
    (h : Inv f ip inum base (0 + others) sh) :
    KeepsInv f ip inum base (.ilock ip) others sh me Q := by
  refine keeps_of_ends (m := FsM.ilock ip) rfl fun hb => ?_
  rw [zero_add] at h
  -- the inode is not busy, so nobody has the lock
  have hfree : others = 0 := by
    by_contra hne
    have hbusy := h.busy.mpr hne
    have href := h.ref
    simp [Call.blocks, hbusy, href] at hb
  have hafter (s : Fs) : sh.after s (.ilock ip) () = ⟨s, sh.locks + 1, sh.moved⟩ := by
    unfold Shared.after
    simp [turns, transfers]
  have hne : ({.lock none} : Multiset Token) ≠ 0 := singleton_ne_zero _
  refine FsM.ilock_ends h.ref (fun _ => ⟨_, hq, ?_⟩) fun _ => trivial
  rw [hafter, hfree, add_zero]
  refine h.setInode (Nat.le_of_eq (card_singleton _)) rfl rfl (iff_of_true rfl hne) (fun _ => ?_)
    (fun _ => rfl) h.moved.lock ?_ ?_ ?_
  · dsimp only
    rw [← h.inum_eq]
    split
    · next hv => exact (h.clean hv).symm
    · rfl
  · intro o _ e he
    exact Nat.lt_succ_of_le (h.moved.turns e he)
  · intro o ho
    cases mem_singleton.mp ho
  · rw [hfree]
    rfl

theorem keeps_iunlock {Q : Unit → Holding → Prop} (ha : a.pending = 0) (hq : Q () atRest)
    (h : Inv f ip inum base ({a} + others) sh) :
    KeepsInv f ip inum base (.iunlock ip) others sh me Q := by
  refine keeps_of_ends (m := FsM.iunlock ip) rfl fun _ => ?_
  have hothers := h.alone
  subst hothers
  rw [add_zero] at h
  have hne : ({a} : Multiset Token) ≠ 0 := singleton_ne_zero _
  refine ends_bind (ends_bind (ends_get (ends_pure ?_)))
  have hbusy := h.busy.mpr hne
  have href := h.ref
  rw [if_neg (by rw [hbusy]; simp; omega)]
  refine FsM.setInode_ends ⟨_, hq, ?_⟩
  rw [after_eq rfl rfl]
  refine h.setInode (Nat.zero_le _) rfl rfl ?_ ?_ ?_ h.moved ?_ ?_ ?_
  · simp
  · intro hv
    rw [← h.inum_eq]
    exact (h.clean hv).symm
  · intro hn
    exact absurd rfl hn
  · intro o ho
    exact absurd ho (notMem_zero _)
  · intro o ho
    exact absurd ho (notMem_zero _)
  · rw [map_singleton, sum_singleton, ha]
    rfl

theorem Inv.transfer {o : Word} {e : Transfer} {s : Fs} {r : Nat}
    (h : Inv f ip inum base {.lock (some o)} sh)
    (hs : s.Sound) (hclean : s.Clean ip) (htype : (s.dinode inum).type = .file)
    (hcache : (s.icache ip).busy = (sh.fs.icache ip).busy ∧
      (s.icache ip).ref = (sh.fs.icache ip).ref ∧ (s.icache ip).inum = (sh.fs.icache ip).inum ∧
      (s.icache ip).valid = (sh.fs.icache ip).valid)
    (hftable : s.ftable = sh.fs.ftable) (hoff : e.off = o.toNat) (hturn : e.turn = sh.locks)
    (hlen : e.bytes.length = r) (hsmall : o.toNat + r < 2 ^ 32)
    (hkeep : ∀ i, i < o.toNat →
      s.fileByte (s.dinode inum) i = sh.fs.fileByte (sh.fs.dinode inum) i)
    (hnew : e.written = true → ∀ j < e.bytes.length,
      s.fileByte (s.dinode inum) (e.off + j) = e.bytes.getD j 0) :
    Inv f ip inum base {.moved r} ⟨s, sh.locks, sh.moved ++ [e]⟩ := by
  obtain ⟨hbusy, href, hinum, hvalid⟩ := hcache
  have hne : ({.lock (some o)} : Multiset Token) ≠ 0 := singleton_ne_zero _
  have hne' : ({.moved r} : Multiset Token) ≠ 0 := singleton_ne_zero _
  have ho := h.known o (Multiset.mem_singleton_self _)
  have hend := h.offset
  rw [← ho] at hend
  change o.toNat + 0 = _ at hend
  have htotal : total (sh.moved ++ [e]) = total sh.moved + r := by
    rw [total_append, total_singleton, hlen]
  refine ⟨Nat.le_of_eq (card_singleton _), ?_, ?_, ?_, ?_, ?_, hs, htype,
    fun _ => hclean, ?_, ?_, ?_, ?_, ?_, ?_, ?_⟩
  · dsimp only
    rw [hbusy]
    exact iff_of_true (h.busy.mpr hne) hne'
  · dsimp only
    rw [href]
    exact h.ref
  · dsimp only
    rw [hinum]
    exact h.inum_eq
  · dsimp only
    rw [hftable]
    exact h.ip_eq
  · dsimp only
    rw [hftable]
    exact h.inode
  · intro _
    dsimp only
    rw [hvalid]
    exact h.valid hne
  · refine h.moved.snoc ?_ hturn (h.fresh _ (Multiset.mem_singleton_self _))
    omega
  · intro o' ho'
    cases mem_singleton.mp ho'
  · intro o' ho'
    cases mem_singleton.mp ho'
  · rw [hftable, ← ho, map_singleton, sum_singleton, htotal]
    show o.toNat + r = _
    omega
  · rw [htotal]
    omega
  · intro e' he'
    rcases List.mem_append.mp he' with he' | he'
    · intro hw j hj
      have hbelow := h.moved.below e' he'
      rw [hkeep (e'.off + j) (by omega)]
      exact h.bytes e' he' hw j hj
    · rwa [List.mem_singleton.mp he']

theorem keeps_readi {o n : Word} {Q : Option (List Byte) → Holding → Prop}
    (hnone : Q none ⟨{.lock (some o)}, ()⟩)
    (hsome : ∀ x : List Byte, Q (some x) ⟨{.moved x.length}, ()⟩)
    (h : Inv f ip inum base ({.lock (some o)} + others) sh) :
    KeepsInv f ip inum base (.readi ip o n) others sh me Q := by
  refine keeps_of_ends (m := FsM.readi ip o n) rfl fun _ => ?_
  have hothers := h.alone
  subst hothers
  simp only [add_zero] at h ⊢
  obtain ⟨hclean, htype⟩ := h.held (singleton_ne_zero _)
  have hlive := htype.trans_ne (nofun : FileType.file ≠ .free)
  refine (FsM.readi_ends o n (Fs.readable h.sound hclean hlive)).mono ?_ fun _ _ => trivial
  rintro r t ev ⟨rfl, -, hr⟩
  cases r with
  | none =>
    refine ⟨_, hnone, ?_⟩
    rwa [after_eq rfl rfl]
  | some x =>
    refine ⟨_, hsome x, ?_⟩
    have hafter : sh.after sh.fs (.readi ip o n) (some x) =
        ⟨sh.fs, sh.locks, sh.moved ++ [⟨sh.locks, false, o.toNat, x⟩]⟩ := rfl
    rw [hafter]
    refine h.transfer h.sound hclean h.type ⟨rfl, rfl, rfl, rfl⟩ rfl rfl rfl rfl ?_
      (fun _ _ => rfl) fun hw => absurd hw Bool.false_ne_true
    -- the bytes are some of the file
    split at hr
    · cases hr
    · next hok =>
      have hlen := congrArg List.length (Option.some.inj hr)
      rw [List.length_map, List.length_range] at hlen
      have hle := (FsM.in_range hok).1
      have hsize := (sh.fs.icache ip).d.size.isLt
      omega

theorem keeps_writei {o n : Word} {src : Nat → Byte} {Q : Option Nat → Holding → Prop}
    (hnone : Q none ⟨{.lock (some o)}, ()⟩) (hsome : Q (some n.toNat) ⟨{.moved n.toNat}, ()⟩)
    (h : Inv f ip inum base ({.lock (some o)} + others) sh) :
    KeepsInv f ip inum base (.writei ip src o n) others sh me Q := by
  refine keeps_of_ends (m := FsM.writei ip src o n) rfl fun _ => ?_
  have hothers := h.alone
  subst hothers
  simp only [add_zero] at h ⊢
  obtain ⟨hclean, htype⟩ := h.held (singleton_ne_zero _)
  have hlive := htype.trans_ne (nofun : FileType.file ≠ .free)
  refine (FsM.writei_ends h.sound hclean hlive).mono ?_ fun _ _ => trivial
  intro r t ev hr
  split at hr
  · obtain ⟨rfl, rfl, -⟩ := hr
    refine ⟨_, hnone, ?_⟩
    rwa [after_eq rfl rfl]
  · next hok =>
    obtain ⟨rfl, hup, -⟩ := hr
    refine ⟨_, hsome, ?_⟩
    have hafter : sh.after t (.writei ip src o n) (some n.toNat) =
        ⟨t, sh.locks, sh.moved ++ [⟨sh.locks, true, o.toNat, (List.range n.toNat).map src⟩]⟩ :=
      rfl
    rw [hafter]
    have hself := hup.self
    have hdinode : t.dinode inum = (t.icache ip).d := by
      rw [hup.dinode, h.inum_eq, Function.update_self]
    have hbytes := hup.bytes inum (by rw [h.type]; exact FileType.noConfusion)
    rw [h.inum_eq] at hbytes
    have hlen : ((List.range n.toNat).map src).length = n.toNat := by simp
    refine h.transfer hup.sound hup.clean ?_ ?_ ?_ rfl rfl hlen ?_ ?_ ?_
    · rwa [hdinode, hself]
    · rw [hself]
      exact ⟨rfl, rfl, rfl, rfl⟩
    · rw [hup.rest]
    · have hmax : MAXFILE * BSIZE = 70656 := rfl
      have hfits : ¬ (o + n).toNat > MAXFILE * BSIZE := fun hgt => hok (Or.inr (Or.inr hgt))
      rw [(FsM.in_range fun h => hok (h.imp_right Or.inl)).2] at hfits
      omega
    · intro i hi
      rw [hbytes i, if_neg (by omega)]
    · intro _ j hj
      rw [hlen] at hj
      dsimp only
      rw [hbytes, if_pos ⟨rfl, by omega, by omega⟩, Nat.add_sub_cancel_left]
      simp [List.getD, hj]

theorem keeps_advance {r : Nat} {Q : Unit → Holding → Prop} (hq : Q () ⟨{.moved 0}, ()⟩)
    (h : Inv f ip inum base ({.moved r} + others) sh) :
    KeepsInv f ip inum base (.advance f r) others sh me Q := by
  refine keeps_of_ends (m := modifyFile f fun ff => { ff with off := ff.off + BitVec.ofNat 32 r })
    rfl fun _ => ?_
  have hothers := h.alone
  subst hothers
  simp only [add_zero] at h ⊢
  refine ends_modify ⟨_, hq, ?_⟩
  rw [after_eq rfl rfl]
  have hend := h.offset
  change _ + r = _ at hend
  have hsmall := h.small
  have hself : Function.update sh.fs.ftable f { sh.fs.ftable f with
      off := (sh.fs.ftable f).off + BitVec.ofNat 32 r } f = { sh.fs.ftable f with
      off := (sh.fs.ftable f).off + BitVec.ofNat 32 r } := Function.update_self ..
  have hne : ({.moved r} : Multiset Token) ≠ 0 := singleton_ne_zero _
  have hne' : ({.moved 0} : Multiset Token) ≠ 0 := singleton_ne_zero _
  refine ⟨Nat.le_of_eq (card_singleton _), ?_, h.ref, h.inum_eq, ?_, ?_, h.sound, h.type,
    h.clean, fun _ => h.valid hne, h.moved, ?_, ?_, ?_, h.small, h.bytes⟩
  · exact iff_of_true (h.busy.mpr hne) hne'
  · dsimp only
    rw [hself]
    exact h.ip_eq
  · dsimp only
    rw [hself]
    exact h.inode
  · intro o ho
    cases mem_singleton.mp ho
  · intro o ho
    cases mem_singleton.mp ho
  · dsimp only
    rw [hself, map_singleton, sum_singleton]
    show ((sh.fs.ftable f).off + BitVec.ofNat 32 r).toNat + 0 = _
    rw [BitVec.toNat_add, BitVec.toNat_ofNat]
    omega

/-- Every call does as `wp` says and keeps the invariant. -/
theorem calls_sound : Prog.Sound act (wp f ip) (fun _ _ => True) (Inv f ip inum base)
    (fun _ => True) where
  mono := wp_mono f ip
  call := by
    intro β c H others sh me Q hw _ h
    cases c with
    | beginOp | endOp =>
      refine keeps_of_ends (m := Pure.pure ()) rfl fun _ => ends_pure ⟨H, hw, ?_⟩
      rwa [after_eq rfl rfl]
    | fault e => exact trivial
    | file g =>
      obtain ⟨rfl, hq⟩ := hw
      exact keeps_file hq h
    | ilock jp =>
      obtain ⟨rfl, hzero, hq⟩ := hw
      rw [hzero] at h
      exact keeps_ilock hq h
    | iunlock jp =>
      obtain ⟨rfl, ⟨a, ha, hpend⟩, hq⟩ := hw
      rw [ha] at h
      exact keeps_iunlock hpend hq h
    | inode jp =>
      obtain ⟨rfl, hne, hq⟩ := hw
      exact keeps_inode hne hq h
    | readi jp off n =>
      obtain ⟨rfl, htoks, hnone, hsome⟩ := hw
      obtain ⟨toks, _⟩ := H
      subst htoks
      exact keeps_readi hnone hsome h
    | writei jp src off n =>
      obtain ⟨rfl, htoks, hnone, hsome⟩ := hw
      obtain ⟨toks, _⟩ := H
      subst htoks
      exact keeps_writei hnone hsome h
    | advance g r =>
      obtain ⟨rfl, htoks, hq⟩ := hw
      rw [htoks] at h
      exact keeps_advance hq h
    | _ => exact hw.elim

end Calls

/-! ## Processes -/

abbrev World (T : Type) := Prog.World T Call Caller Shared Int

/-- What happens next: a process calls `fileread` or `filewrite`, or makes its next call. -/
inductive Action (T : Type)
  | read (t : T) (n : Word)
  | write (t : T) (src : Nat → Byte) (n : Int)
  | advance (t : T)

variable {T : Type} [DecidableEq T]

def start (w : World T) (t : T) (q : Program Int) : Option (World T) :=
  if (w.procs t).prog.isNone then
    some { w with procs := Function.update w.procs t { w.procs t with prog := some q } }
  else none

def next (f : FilePtr) (w : World T) : Action T → Option (World T × Unit)
  | .read t n => (start w t (fileread f n)).map (·, ())
  | .write t src n => (start w t (filewrite f src n)).map (·, ())
  | .advance t => (w.advance act t).map (·, ())

/-- No process runs anything, and the file is one on an inode that is not locked. -/
structure Init (f : FilePtr) (ip : InodePtr) (inum base : Nat) (w : World T) : Prop where
  prog : ∀ t, (w.procs t).prog = none
  moved : w.shared.moved = []
  sound : w.shared.fs.Sound
  file : (w.shared.fs.ftable f).type = .inode ∧ (w.shared.fs.ftable f).ip = ip ∧
    (w.shared.fs.ftable f).off.toNat = base
  entry : (w.shared.fs.icache ip).busy = false ∧ 1 ≤ (w.shared.fs.icache ip).ref ∧
    (w.shared.fs.icache ip).inum = inum
  regular : (w.shared.fs.dinode inum).type = .file
  clean : (w.shared.fs.icache ip).valid = true → w.shared.fs.Clean ip

section Runs

variable [Fintype T] {f : FilePtr} {ip : InodePtr} {inum base : Nat} {w w' : World T}

abbrev Ok (f : FilePtr) (ip : InodePtr) (inum base : Nat) (w : World T) : Prop :=
  w.Holds (wp f ip) (fun _ _ => True) (fun _ H => H.toks = 0) (Inv f ip inum base)

omit [DecidableEq T] in
theorem ok_of_init (h : Init f ip inum base w) : Ok f ip inum base w := by
  refine ⟨fun _ => atRest, ?_, fun t => ⟨trivial, ?_⟩⟩
  · have hzero : ∑ t : T, (atRest).toks = 0 := Finset.sum_const_zero
    rw [hzero]
    obtain ⟨htype, hip, hoff⟩ := h.file
    obtain ⟨hbusy, href, hinum⟩ := h.entry
    have hmoved := h.moved
    refine ⟨Nat.zero_le _, ?_, href, hinum, hip, htype, h.sound, h.regular, h.clean, ?_, ?_, ?_,
      ?_, ?_, ?_, ?_⟩
    · rw [hbusy]
      simp
    · exact fun hn => absurd rfl hn
    · rw [hmoved]
      exact Moved.nil
    · intro o ho
      exact absurd ho (notMem_zero _)
    · intro o ho
      exact absurd ho (notMem_zero _)
    · rw [hmoved, hoff]
      rfl
    · rw [hmoved, ← hoff]
      exact (w.shared.fs.ftable f).off.isLt
    · intro e he
      rw [hmoved] at he
      cases he
  · rw [h.prog t]

theorem ok_start {t : T} {q : Program Int} (h : Ok f ip inum base w)
    (hq : q.Safe (wp f ip) atRest fun _ H => H.toks = 0) (hstart : start w t q = some w') :
    Ok f ip inum base w' := by
  unfold start at hstart
  split at hstart
  · next hnone =>
    obtain rfl := Option.some.inj hstart
    refine h.replace fun H hH => ⟨H, rfl, hH.1, ?_⟩
    have hidle := hH.idle (Option.isNone_iff_eq_none.mp hnone)
    obtain ⟨toks, _⟩ := H
    obtain rfl : toks = 0 := hidle
    exact hq.mono (wp_mono f ip) fun _ _ hz _ _ => hz
  · cases hstart

theorem ok_next {l : Action T × Unit} (h : Ok f ip inum base w)
    (hs : Trace.Next (next f) w l w') : Ok f ip inum base w' := by
  obtain ⟨a, ⟨⟩⟩ := l
  cases a with
  | read t n =>
    obtain ⟨x, hx, heq⟩ := Option.map_eq_some_iff.mp hs
    cases heq
    exact ok_start h (fileread_safe n) hx
  | write t src n =>
    obtain ⟨x, hx, heq⟩ := Option.map_eq_some_iff.mp hs
    cases heq
    exact ok_start h (filewrite_safe src n) hx
  | advance t =>
    obtain ⟨x, hx, heq⟩ := Option.map_eq_some_iff.mp hs
    cases heq
    exact h.advance calls_sound hx

/-- No update through a shared descriptor is lost. Whatever processes read and write through one
`struct file`, what they transfer is contiguous from the first offset on, in the order in which
the inode was locked; the offset is where the transfers end whenever the inode is not locked,
so also when all calls have returned; and what was written is in the file. -/
theorem no_lost_update {tr : List (Action T × Unit)}
    (hrun : Trace.Run (Init f ip inum base) (Trace.Next (next f)) tr w) :
    Contiguous base w.shared.moved ∧
    (w.shared.moved.Pairwise fun a b => a.off + a.bytes.length ≤ b.off) ∧
    (w.shared.moved.Pairwise fun a b => a.turn < b.turn) ∧
    ((w.shared.fs.icache ip).busy = false →
      (w.shared.fs.ftable f).off.toNat = base + total w.shared.moved) ∧
    ((∀ t, (w.procs t).prog = none) →
      (w.shared.fs.ftable f).off.toNat = base + total w.shared.moved) ∧
    ∀ e ∈ w.shared.moved, e.written = true → ∀ j < e.bytes.length,
      w.shared.fs.fileByte (w.shared.fs.dinode inum) (e.off + j) = e.bytes.getD j 0 := by
  have hok : Ok f ip inum base w :=
    hrun.invariant (fun _ h => ok_of_init h) fun _ _ _ h hs => ok_next h hs
  obtain ⟨h, hinv, hall⟩ := hok
  have hend : ∑ t, (h t).toks = 0 →
      (w.shared.fs.ftable f).off.toNat = base + total w.shared.moved := by
    intro hzero
    have hoff := hinv.off
    rwa [hzero] at hoff
  refine ⟨hinv.moved.contiguous, hinv.moved.disjoint, hinv.moved.order, ?_, ?_, hinv.bytes⟩
  · intro hbusy
    apply hend
    by_contra hne
    rw [hinv.busy.mpr hne] at hbusy
    cases hbusy
  · intro hidle
    apply hend
    exact Finset.sum_eq_zero fun t _ => (hall t).idle (hidle t)

end Runs

def pair : World Bool where
  shared :=
    { fs := { fresh .file with
        icache := fun jp => { (fresh .file).icache jp with busy := false }
        ftable := fun _ =>
          { type := .inode, ref := 2, readable := true, writable := true, pipe := 0, ip := 0
            off := 0 } }
      locks := 0
      moved := [] }
  procs := fun _ =>
    { own := { cwd := none, ofile := fun _ => none, uid := 0, gid := 0 }, prog := none }

theorem pair_init : Init 0 0 1 0 pair where
  prog := fun _ => rfl
  moved := rfl
  sound := fresh_sound .file
  file := ⟨rfl, rfl, rfl⟩
  entry := ⟨rfl, by decide, rfl⟩
  regular := rfl
  clean := fun _ => fresh_clean .file

theorem two_bytes_written : ∃ tr, ∃ w : World Bool,
    Trace.Run (Init 0 0 1 0) (Trace.Next (next 0)) tr w ∧
    w.shared.moved.map (fun e => (e.off, e.bytes)) = [(0, [7]), (1, [8])] ∧
    (w.shared.fs.ftable 0).off.toNat = 2 := by
  obtain ⟨tr, w, hrun, hmoved, hbusy⟩ := Trace.exec_reaches (f := next (T := Bool) 0) pair_init
    ([.write true (fun _ => 7) 1, .write false (fun _ => 8) 1] ++
      List.replicate 3 (.advance false) ++ List.replicate 11 (.advance true) ++
      List.replicate 8 (.advance false))
    (fun _ w => w.shared.moved.map (fun e => (e.off, e.bytes)) = [(0, [7]), (1, [8])] ∧
      (w.shared.fs.icache 0).busy = false) (by decide +kernel)
  have hoff := (no_lost_update hrun).2.2.2.1 hbusy
  have htotal : total w.shared.moved = 2 := by
    have := congrArg (fun l : List (Nat × List Byte) => (l.map fun e => e.2.length).sum) hmoved
    simpa [total, List.map_map, Function.comp_def] using this
  rw [htotal] at hoff
  exact ⟨tr, w, hrun, hmoved, hoff⟩

end Offset

end Fs

end Xv6
