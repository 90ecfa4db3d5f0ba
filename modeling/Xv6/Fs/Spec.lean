import Xv6.Fs.Balance
import Xv6.Fs.Reclaim
import Xv6.Fs.PipeEnds

/-!
# What a call needs and gives

`wp` says, for every call, which tokens and which ledger a process needs for it and what it
has afterwards. `Good` is what holds of the file system and the tokens of all processes, and
`Keeps` what is to be shown of a call.
-/

namespace Xv6

namespace Fs

open Effect Prog

/-! ## Calls of a process -/

/-- The file system, with the history of the owners, groups and modes, the calls of
`pipeclose`, and whether every `iget` so far was for an inode with links. -/
structure Shared where
  fs : Fs
  seen : List Obs
  closed : List (Nat × Bool)
  calm : Bool

def Call.observe (s : Fs) : {β : Type} → Call β → β → List Obs
  | _, .patch ip p, _ => [.set (s.icache ip).inum p]
  | _, .ialloc _, inum => [.fresh inum]
  | _, .stati _, st => [.stat st]
  | _, _, _ => []

def Call.closes : {β : Type} → Call β → List (Nat × Bool)
  | _, .pipeclose p writable => [(p, writable)]
  | _, _ => []

def Call.calm (s : Fs) : {β : Type} → Call β → Bool
  | _, .iget _ inum => decide (s.FindsLinked inum)
  | _, _ => true

def Shared.after (sh : Shared) (s : Fs) {β : Type} (c : Call β) (b : β) : Shared where
  fs := s
  seen := sh.seen ++ c.observe sh.fs b
  closed := sh.closed ++ c.closes
  calm := sh.calm && c.calm sh.fs

def act (β : Type) (c : Call β) (w : Shared × Own) : Except Fault (β × (Shared × Own)) :=
  if c.blocks w.1.fs then .error .diverge
  else
    match c.run w.2.me w.1.fs with
    | .error e => .error e
    | .ok ((b, me), s, ev) => .ok (b, (w.1.after s c b, w.2.after w.1.fs me ev c b))

theorem act_ok {β : Type} {c : Call β} {sh sh' : Shared} {o o' : Own} {b : β}
    (h : act β c (sh, o) = .ok (b, (sh', o'))) :
    ∃ me s ev, c.run o.me sh.fs = .ok ((b, me), s, ev) ∧ sh' = sh.after s c b ∧
      o' = o.after sh.fs me ev c b := by
  unfold act at h
  split at h
  · cases h
  · split at h
    · cases h
    · next b' me s ev hrun =>
      cases h
      exact ⟨me, s, ev, hrun, rfl, rfl⟩

/-- Not one of the panics of `bfree`, `filedup` and `fileclose`. -/
def Harmless (f : Fault) : Prop :=
  f ≠ .panic "freeing free block" ∧ f ≠ .panic "filedup" ∧ f ≠ .panic "fileclose"

/-! ## The calls, one by one -/

def Holding.Has (H : Holding) (h : Handle) : Prop := ∃ a ∈ H.toks, a.handle = some h

def Holding.Ref (H : Holding) (a : Token) (h : Handle) (R : Multiset Token) : Prop :=
  H.toks = a ::ₘ R ∧ a.isRef = true ∧ a.handle = some h

def wp : (β : Type) → Call β → Holding → (β → Holding → Prop) → Prop
  -- a transaction is for one call of `writei`, or for anything else
  | _, .beginOp, H, Q => H.view.ledger = .outside ∧
      (Q () ⟨H.toks, { H.view with ledger := .normal ∅ 0 }⟩ ∨
        Q () ⟨H.toks, { H.view with ledger := .data }⟩)
  | _, .endOp, H, Q => H.view.ledger ≠ .outside ∧
      Q () ⟨H.toks, { H.view with ledger := .outside }⟩
  | _, .fault f, _, _ => Harmless f
  | _, .iget dev inum, H, Q => dev = ROOTDEV ∧ ∀ ip, Q ip ⟨.got ip inum ::ₘ H.toks, H.view⟩
  | _, .idup ip, H, Q => ∃ n, .ref (.own ip n) ∈ H.toks ∧
      Q ip ⟨.ref (.own ip n) ::ₘ H.toks, H.view⟩
  | _, .ialloc type, H, Q => type ≠ .free ∧ ∃ N k, H.view.ledger = .normal N k ∧
      ∀ n, Room (insert n N) k ∧
        Q n ⟨.born n ::ₘ H.toks, { H.view with ledger := .normal (insert n N) k }⟩
  -- an inode that `ialloc` has given is one like others from here on
  | _, .ilock ip, H, Q => ∃ a h R, H.Ref a h R ∧ h.ip = ip ∧
      (Q () ⟨.lock h .clean ::ₘ R, H.view⟩ ∨
        ∃ R', R = .born h.inum ::ₘ R' ∧ Q () ⟨.lock h .clean ::ₘ R', H.view⟩)
  -- the reference of an open file may be kept for later, or not
  | _, .iunlock ip, H, Q => ∃ h R l, H.toks = .lock h .clean ::ₘ R ∧ h.ip = ip ∧
      H.view.ledger.Below l ∧ (Q () ⟨.ref h ::ₘ R, { H.view with ledger := l }⟩ ∨
        ∃ f n, h = .file f ip n ∧ Q () ⟨.fref f ::ₘ R, { H.view with ledger := l }⟩)
  | _, .iputTest ip, H, Q => ∃ a n R N k, H.Ref a (.own ip n) R ∧
      H.view.ledger = .normal N k ∧ Q false ⟨R, H.view⟩ ∧
      Q true ⟨.lock (.own ip n) .dying ::ₘ R, { H.view with ledger := .freeing n N k }⟩
  | _, .itrunc ip, H, Q => ∃ n R N k, H.toks = .lock (.own ip n) .dying ::ₘ R ∧
      H.view.ledger = .freeing n N k ∧ Q () ⟨.lock (.own ip n) .empty ::ₘ R, H.view⟩
  | _, .iputDone ip, H, Q => ∃ n R N k, H.toks = .lock (.own ip n) .gone ::ₘ R ∧
      H.view.ledger = .freeing n N k ∧ Q () ⟨R, { H.view with ledger := .normal N k }⟩
  | _, .inode ip, H, Q => ∃ h, H.Has h ∧ h.ip = ip ∧ ∀ i : Inode, i.dev = ROOTDEV → Q i H
  | _, .stati ip, H, Q => ∃ h, .lock h .clean ∈ H.toks ∧ h.ip = ip ∧ ∀ st, Q st H
  | _, .patch ip p, H, Q => ∃ h R, h.ip = ip ∧
      ((p ≠ .free ∧ H.toks = .lock h .clean ::ₘ R ∧ Q () ⟨.lock h .dirty ::ₘ R, H.view⟩) ∨
        (p = .free ∧ H.toks = .lock h .empty ::ₘ R ∧ Q () ⟨.lock h .freeing ::ₘ R, H.view⟩))
  | _, .iupdate ip, H, Q => ∃ h R N k, h.ip = ip ∧
      ((H.toks = .lock h .dirty ::ₘ R ∧ H.view.ledger = .normal N k ∧ Room (insert h.inum N) k ∧
          Q () ⟨.lock h .clean ::ₘ R, { H.view with ledger := .normal (insert h.inum N) k }⟩) ∨
        (H.toks = .lock h .freeing ::ₘ R ∧ H.view.ledger = .freeing h.inum N k ∧
          Q () ⟨.lock h .gone ::ₘ R, H.view⟩))
  | _, .dirfind dp _, H, Q => ∃ h, .lock h .clean ∈ H.toks ∧ h.ip = dp ∧
      ∀ r : Option (Nat × Nat × Nat),
        (∀ x ∈ r, x.1 = ROOTDEV ∧ x.2.2 % DIRENTSIZE = 0) → Q r H
  | _, .freeSlot dp, H, Q => ∃ h, .lock h .clean ∈ H.toks ∧ h.ip = dp ∧
      ∀ off, off % DIRENTSIZE = 0 → Q off H
  | _, .isdirempty dp, H, Q => ∃ h, .lock h .clean ∈ H.toks ∧ h.ip = dp ∧ ∀ r, Q r H
  | _, .readi ip _ _, H, Q => ∃ h, .lock h .clean ∈ H.toks ∧ h.ip = ip ∧ ∀ r, Q r H
  -- an entry of a directory is written, or a part of a file
  | _, .writei ip _ off n, H, Q => ∃ h, .lock h .clean ∈ H.toks ∧ h.ip = ip ∧
      ((∃ N k, H.view.ledger = .normal N k ∧ off.toNat % DIRENTSIZE = 0 ∧
          n.toNat = DIRENTSIZE ∧ Room (insert h.inum N) (k + 2) ∧
          ∀ r, Q r ⟨H.toks, { H.view with ledger := .normal (insert h.inum N) (k + 2) }⟩) ∨
        (H.view.ledger = .data ∧ ∀ r, Q r ⟨H.toks, { H.view with ledger := .written }⟩))
  | _, .console, H, Q => ∀ r, Q r H
  | _, .pipe, H, Q => ∀ r, Q r H
  | _, .memory, H, Q => ∀ r, Q r H
  | _, .stack, H, Q => ∀ r, Q r H
  | _, .proc, H, Q => Q H.view.me H
  | _, .setCwd ip, H, Q =>
      Q () ⟨H.toks, { H.view with me := { H.view.me with cwd := ip } }⟩
  | _, .setFd fd f, H, Q => H.view.role.mode ≠ .still ∧
      Q () ⟨H.toks, { H.view with me := { H.view.me with
        ofile := Function.update H.view.me.ofile fd f } }⟩
  | _, .newProc slot, H, Q => H.view.role.mode = .fork ∧ Q false H ∧
      Q true ⟨H.toks, { H.view with role := { H.view.role with
        np := some { slot with uid := H.view.me.uid, gid := H.view.me.gid } } }⟩
  | _, .npFd fd f, H, Q =>
      Q () ⟨H.toks, { H.view with role := { H.view.role with
        np := H.view.role.np.map fun np =>
          { np with ofile := Function.update np.ofile fd (some f) } } }⟩
  | _, .npCwd ip, H, Q =>
      Q () ⟨H.toks, { H.view with role := { H.view.role with
        np := H.view.role.np.map fun np => { np with cwd := some ip } } }⟩
  | _, .filealloc, H, Q => H.view.role.mode ≠ .still ∧ Q none H ∧
      ∀ f, Q (some f) ⟨.new f ::ₘ H.toks, H.view⟩
  | _, .filedup f, H, Q => H.view.role.mode ≠ .still ∧ .fref f ∈ H.toks ∧
      Q () ⟨.fref f ::ₘ H.toks, H.view⟩
  | _, .filedrop f, H, Q => H.view.role.mode ≠ .still ∧ ∃ R,
      (H.toks = .new f ::ₘ R ∧ ∀ ff : File, ff.type = .none → Q (some ff) ⟨R, H.view⟩) ∨
        (H.toks = .fref f ::ₘ R ∧ Q none ⟨R, H.view⟩ ∧
          ∀ ff : File, (ff.type = .none → Q (some ff) ⟨R, H.view⟩) ∧
            (ff.type = .pipe → Q (some ff) ⟨.pend ff.pipe ff.writable ::ₘ R, H.view⟩) ∧
            (ff.type = .inode → ∀ n, Q (some ff) ⟨.ref (.own ff.ip n) ::ₘ R, H.view⟩))
  -- the reference of an open file may be used, if it has one
  | _, .file f, H, Q =>
      (∃ R, H.toks = .fref f ::ₘ R ∧ ∀ ff : File, Q ff H ∨
        (ff.type = .inode ∧ ∀ n, Q ff ⟨.ref (.file f ff.ip n) ::ₘ R, H.view⟩)) ∨
      ∃ ip n, H.Has (.file f ip n) ∧ ∀ ff : File, ff.type = .inode → ff.ip = ip → Q ff H
  | _, .advance _ _, H, Q => Q () H
  | _, .pipealloc, H, Q => H.view.role.mode ≠ .still ∧ Q none H ∧
      ∀ p, Q (some p) ⟨.pend p false ::ₘ .pend p true ::ₘ H.toks, H.view⟩
  | _, .setPipe f p w, H, Q => H.view.role.mode ≠ .still ∧
      ∃ R, H.toks = .new f ::ₘ .pend p w ::ₘ R ∧
      Q () ⟨.fref f ::ₘ R, H.view⟩
  | _, .pipeclose p w, H, Q => H.view.role.mode ≠ .still ∧
      ∃ R, H.toks = .pend p w ::ₘ R ∧ Q () ⟨R, H.view⟩
  | _, .setFile f ip _ _, H, Q => ∃ n R, H.toks = .new f ::ₘ .ref (.own ip n) ::ₘ R ∧
      Q () ⟨.fref f ::ₘ R, H.view⟩

theorem wp_mono : Monotone wp := by
  intro β c H Q Q' hQ hc
  cases c with
  | beginOp => exact ⟨hc.1, hc.2.imp (hQ _ _) (hQ _ _)⟩
  | endOp | setFd _ _ => exact ⟨hc.1, hQ _ _ hc.2⟩
  | fault f => exact hc
  | iget dev inum => exact ⟨hc.1, fun ip => hQ _ _ (hc.2 ip)⟩
  | idup ip =>
    obtain ⟨n, hmem, hq⟩ := hc
    exact ⟨n, hmem, hQ _ _ hq⟩
  | ialloc type =>
    obtain ⟨htype, N, k, hl, hq⟩ := hc
    exact ⟨htype, N, k, hl, fun n => ⟨(hq n).1, hQ _ _ (hq n).2⟩⟩
  | ilock ip =>
    obtain ⟨a, h, R, hr, hip, hq⟩ := hc
    refine ⟨a, h, R, hr, hip, hq.imp (hQ _ _) ?_⟩
    rintro ⟨R', hR, hq⟩
    exact ⟨R', hR, hQ _ _ hq⟩
  | iunlock ip =>
    obtain ⟨h, R, l, ht, hip, hl, hq⟩ := hc
    refine ⟨h, R, l, ht, hip, hl, hq.imp (hQ _ _) ?_⟩
    rintro ⟨f, n, hf, hq⟩
    exact ⟨f, n, hf, hQ _ _ hq⟩
  | iputTest ip =>
    obtain ⟨a, n, R, N, k, hr, hl, hq, hq'⟩ := hc
    exact ⟨a, n, R, N, k, hr, hl, hQ _ _ hq, hQ _ _ hq'⟩
  | itrunc _ | iputDone _ =>
    obtain ⟨n, R, N, k, ht, hl, hq⟩ := hc
    exact ⟨n, R, N, k, ht, hl, hQ _ _ hq⟩
  | inode ip =>
    obtain ⟨h, hh, hip, hq⟩ := hc
    exact ⟨h, hh, hip, fun i hi => hQ _ _ (hq i hi)⟩
  | stati ip =>
    obtain ⟨h, hh, hip, hq⟩ := hc
    exact ⟨h, hh, hip, fun st => hQ _ _ (hq st)⟩
  | patch ip p =>
    obtain ⟨h, R, hip, hq⟩ := hc
    refine ⟨h, R, hip, hq.imp ?_ ?_⟩
    · exact fun hq => ⟨hq.1, hq.2.1, hQ _ _ hq.2.2⟩
    · exact fun hq => ⟨hq.1, hq.2.1, hQ _ _ hq.2.2⟩
  | iupdate ip =>
    obtain ⟨h, R, N, k, hip, hq⟩ := hc
    refine ⟨h, R, N, k, hip, hq.imp ?_ ?_⟩
    · exact fun hq => ⟨hq.1, hq.2.1, hq.2.2.1, hQ _ _ hq.2.2.2⟩
    · exact fun hq => ⟨hq.1, hq.2.1, hQ _ _ hq.2.2⟩
  | dirfind dp name =>
    obtain ⟨h, hh, hip, hq⟩ := hc
    exact ⟨h, hh, hip, fun r hr => hQ _ _ (hq r hr)⟩
  | freeSlot dp =>
    obtain ⟨h, hh, hip, hq⟩ := hc
    exact ⟨h, hh, hip, fun off hoff => hQ _ _ (hq off hoff)⟩
  | isdirempty _ | readi _ _ _ =>
    obtain ⟨h, hh, hip, hq⟩ := hc
    exact ⟨h, hh, hip, fun r => hQ _ _ (hq r)⟩
  | writei ip src off n =>
    obtain ⟨h, hh, hip, hq⟩ := hc
    refine ⟨h, hh, hip, hq.imp ?_ ?_⟩
    · rintro ⟨N, k, hl, hoff, hn, hroom, hq⟩
      exact ⟨N, k, hl, hoff, hn, hroom, fun r => hQ _ _ (hq r)⟩
    · exact fun hq => ⟨hq.1, fun r => hQ _ _ (hq.2 r)⟩
  | console | pipe | memory | stack => exact fun r => hQ _ _ (hc r)
  | newProc slot => exact ⟨hc.1, hQ _ _ hc.2.1, hQ _ _ hc.2.2⟩
  | filealloc => exact ⟨hc.1, hQ _ _ hc.2.1, fun f => hQ _ _ (hc.2.2 f)⟩
  | filedup f => exact ⟨hc.1, hc.2.1, hQ _ _ hc.2.2⟩
  | filedrop f =>
    obtain ⟨hm, R, hq⟩ := hc
    refine ⟨hm, R, hq.imp ?_ ?_⟩
    · exact fun hq => ⟨hq.1, fun ff hff => hQ _ _ (hq.2 ff hff)⟩
    · refine fun hq => ⟨hq.1, hQ _ _ hq.2.1, fun ff => ⟨fun hff => ?_, fun hff => ?_, ?_⟩⟩
      · exact hQ _ _ ((hq.2.2 ff).1 hff)
      · exact hQ _ _ ((hq.2.2 ff).2.1 hff)
      · exact fun hff n => hQ _ _ ((hq.2.2 ff).2.2 hff n)
  | file f =>
    refine hc.imp ?_ ?_
    · rintro ⟨R, ht, hq⟩
      refine ⟨R, ht, fun ff => (hq ff).imp (hQ _ _) ?_⟩
      exact fun hq => ⟨hq.1, fun n => hQ _ _ (hq.2 n)⟩
    · rintro ⟨ip, n, hh, hq⟩
      exact ⟨ip, n, hh, fun ff hff hip => hQ _ _ (hq ff hff hip)⟩
  | pipealloc => exact ⟨hc.1, hQ _ _ hc.2.1, fun p => hQ _ _ (hc.2.2 p)⟩
  | setPipe _ _ _ | pipeclose _ _ =>
    obtain ⟨hm, R, ht, hq⟩ := hc
    exact ⟨hm, R, ht, hQ _ _ hq⟩
  | setFile f ip readable writable =>
    obtain ⟨n, R, ht, hq⟩ := hc
    exact ⟨n, R, ht, hQ _ _ hq⟩
  | _ => exact hQ _ _ hc

/-! ## Every call keeps the invariants -/

def Token.isMark : Token → Bool
  | lock _ .dirty | lock _ .gone | born _ | pend _ _ => true
  | _ => false

def marks (M : Multiset Token) : Multiset Token := M.filter fun a => a.isMark = true

/-- The tokens of all processes, the file system and what is recorded about it. -/
structure Good (sb : Superblock) (base : Nat → Attr) (lost : Set Nat) (M : Multiset Token)
    (sh : Shared) :
    Prop where
  inv : Inv sb (sh.calm = true) M sh.fs
  recorded : Recorded base M sh.fs sh.seen
  linked : Linked lost M sh.fs
  ends : PipeEnds M sh.fs sh.closed

def Call.Plain (s : Fs) {β : Type} (c : Call β) (b : β) : Prop :=
  c.observe s b = [] ∧ c.closes = [] ∧ c.calm s = true

section Marks

variable {M M' R : Multiset Token} {a : Token}

theorem marks_cons (ha : a.isMark = false) : marks (a ::ₘ M) = marks M := by
  apply Multiset.filter_cons_of_neg
  rw [ha]
  exact Bool.false_ne_true

theorem Token.isMark_of_isRef (hr : a.isRef = true) : a.isMark = false := by
  cases a with
  | ref _ | got _ _ => rfl
  | _ => cases hr

theorem mem_of_marks (hM : marks M' = marks M) (ha : a.isMark = true) : a ∈ M' ↔ a ∈ M := by
  have hmem : ∀ N : Multiset Token, a ∈ marks N ↔ a ∈ N := by
    intro N
    rw [marks, Multiset.mem_filter]
    exact and_iff_left ha
  rw [← hmem M', ← hmem M, hM]

theorem count_of_marks (hM : marks M' = marks M) (ha : a.isMark = true) :
    M'.count a = M.count a := by
  have hcount : ∀ N : Multiset Token, (marks N).count a = N.count a :=
    fun N => Multiset.count_filter_of_pos ha
  rw [← hcount M', ← hcount M, hM]

end Marks

section Sound

variable {sb : Superblock} {base : Nat → Attr} {lost : Set Nat} {M M' R others : Multiset Token}
  {sh : Shared}
  {t : Fs} {o : Own} {a : Token}
  {β : Type} {H : Holding} {c : Call β} {b : β} {Q : β → Holding → Prop}

namespace Good

theorem cons (h : Good sb base lost (a ::ₘ (R + others)) sh) :
    Good sb base lost ((a ::ₘ R) + others) sh := by
  rwa [Multiset.cons_add]

theorem plain (hc : c.Plain sh.fs b) (h : Good sb base lost M { sh with fs := t }) :
    Good sb base lost M (sh.after t c b) := by
  have heq : sh.after t c b = { sh with fs := t } := by
    unfold Shared.after
    rw [hc.1, hc.2.1, hc.2.2, List.append_nil, List.append_nil, Bool.and_true]
  rwa [heq]

theorem noted (hc : c.closes = []) (hcalm : c.calm sh.fs = true)
    (h : Good sb base lost M { sh with fs := t, seen := sh.seen ++ c.observe sh.fs b }) :
    Good sb base lost M (sh.after t c b) := by
  have heq : sh.after t c b = { sh with fs := t, seen := sh.seen ++ c.observe sh.fs b } := by
    unfold Shared.after
    rw [hc, hcalm, List.append_nil, Bool.and_true]
  rwa [heq]

theorem same (hg : Good sb base lost M sh) (hc : c.Plain sh.fs b) :
    Good sb base lost M (sh.after sh.fs c b) :=
  plain hc hg

theorem retoken (hg : Good sb base lost M sh) (hi : Inv sb (sh.calm = true) M' sh.fs)
    (hM : marks M' = marks M) : Good sb base lost M' sh where
  inv := hi
  recorded := hg.recorded.keep (fun _ => mem_of_marks hM rfl) (fun _ => rfl) fun _ _ => rfl
  linked := by
    refine hg.linked.keep (fun _ => (mem_of_marks hM rfl).mpr) (fun _ => ⟨rfl, rfl⟩) ?_
    intro jp hk
    exact ⟨⟨hk.1, hk.2.1, fun h hh => hk.2.2 h ((mem_of_marks hM rfl).mp hh)⟩, rfl⟩
  ends := hg.ends.keep (fun _ _ => count_of_marks hM rfl) rfl rfl

theorem setFile {f : FilePtr} {fl : File} (hg : Good sb base lost M sh) (hc : c.Plain sh.fs b)
    (hi : Inv sb (sh.calm = true) M' { sh.fs with ftable := Function.update sh.fs.ftable f fl })
    (hM : marks M' = marks M) (hend : ∀ p w, fl.EndOf p w ↔ (sh.fs.ftable f).EndOf p w) :
    Good sb base lost M'
      (sh.after { sh.fs with ftable := Function.update sh.fs.ftable f fl } c b) := by
  refine plain hc ⟨hi, ?_, ?_, ?_⟩
  · exact hg.recorded.keep (fun _ => mem_of_marks hM rfl) (fun _ => rfl) fun _ _ => rfl
  · refine hg.linked.keep (fun _ => (mem_of_marks hM rfl).mpr) (fun _ => ⟨rfl, rfl⟩) ?_
    intro jp hk
    exact ⟨⟨hk.1, hk.2.1, fun h hh => hk.2.2 h ((mem_of_marks hM rfl).mp hh)⟩, rfl⟩
  · refine hg.ends.setFile fun p w => ?_
    rw [count_of_marks hM rfl]
    simp only [hend]

theorem setEntry {ip : InodePtr} {i : Inode} (hg : Good sb base lost M sh) (hc : c.Plain sh.fs b)
    (hi : Inv sb (sh.calm = true) M'
      { sh.fs with icache := Function.update sh.fs.icache ip i })
    (hM : marks M' = marks M)
    (hd : (∃ h, .lock h .dirty ∈ M ∧ h.ip = ip) → i.d.attr = (sh.fs.icache ip).d.attr)
    (hself : Kept M sh.fs ip →
      0 < i.ref ∧ i.valid = true ∧ i.inum = (sh.fs.icache ip).inum) :
    Good sb base lost M'
      (sh.after { sh.fs with icache := Function.update sh.fs.icache ip i } c b) := by
  refine plain hc ⟨hi, ?_, ?_, ?_⟩
  · exact hg.recorded.setEntry (fun _ => mem_of_marks hM rfl) hd
  · exact hg.linked.setEntry (fun _ => (mem_of_marks hM rfl).mpr)
      (fun _ => (mem_of_marks hM rfl).mp) hself
  · exact hg.ends.keep (fun _ _ => count_of_marks hM rfl) rfl rfl

end Good

abbrev Keeps (sb : Superblock) (base : Nat → Attr) (lost : Set Nat) (c : Call β)
    (others : Multiset Token)
    (sh : Shared) (o : Own) (Q : β → Holding → Prop) : Prop :=
  Prog.Keeps act (Knows sb) (Good sb base lost) Harmless c others sh o Q

theorem keeps_of_ends
    (h : c.blocks sh.fs = false → Ends (c.run o.me) sh.fs
      (fun r t ev => ∃ H' : Holding, Q r.1 H' ∧ Knows sb (o.after sh.fs r.2 ev c r.1) H' ∧
        Good sb base lost (H'.toks + others) (sh.after t c r.1)) Harmless) :
    Keeps sb base lost c others sh o Q := by
  unfold Keeps Prog.Keeps act
  cases hb : c.blocks sh.fs with
  | true => exact ⟨nofun, nofun, nofun⟩
  | false =>
    have hends := h hb
    unfold Ends at hends
    dsimp only
    rw [if_neg Bool.false_ne_true]
    cases hr : c.run o.me sh.fs with
    | error _ | ok _ =>
      rwa [hr] at hends

theorem keeps_run {m : FsM β} (hrun : c.run o.me = m >>= fun b => Pure.pure (b, o.me))
    (h : c.blocks sh.fs = false → Ends m sh.fs
      (fun b t ev => ∃ H' : Holding, Q b H' ∧ Knows sb (o.after sh.fs o.me ev c b) H' ∧
        Good sb base lost (H'.toks + others) (sh.after t c b)) Harmless) :
    Keeps sb base lost c others sh o Q := by
  apply keeps_of_ends
  intro hb
  rw [hrun]
  refine ends_bind ((h hb).mono (fun _ _ ev hq => ends_pure ?_) fun _ hf => hf)
  rwa [List.append_nil]

end Sound

end Fs

end Xv6
