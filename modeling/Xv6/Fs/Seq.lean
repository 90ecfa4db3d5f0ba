import Xv6.Fs.Exec
import Xv6.Fs.Dirs
import Xv6.Fs.Refs

/-!
# A process alone

The calls of a process while no other one runs, and what the functions that only look at
the file system, or take and drop references to inodes, then do.
-/

namespace Xv6

namespace Fs

open Effect Prog

/-- A call of a process, with its own data, while no other process runs: if it has to wait
it waits for ever. -/
def step (β : Type) (c : Call β) (w : Fs × Caller) : Except Fault (β × (Fs × Caller)) :=
  if c.blocks w.1 then .error .diverge
  else
    match c.run w.2 w.1 with
    | .error e => .error e
    | .ok ((b, me), s, _) => .ok (b, (s, me))

variable {s t : Fs} {me : Caller} {ip dp : InodePtr} {X : Fault → Prop}

section Rules

variable {β : Type} {c : Call β} {Q : β → Fs × Caller → Prop}

theorem does_of_ends (hb : c.blocks s = false)
    (h : Ends (c.run me) s (fun r t _ => Q r.1 (t, r.2)) X) :
    (lift c).Does step (s, me) Q X := by
  apply does_lift
  unfold step
  rw [if_neg (by rw [hb]; exact Bool.false_ne_true)]
  unfold Ends at h
  dsimp only
  cases hr : c.run me s with
  | error _ | ok _ =>
    rwa [hr] at h

theorem does_run {m : FsM β} (hrun : c.run me = m >>= fun b => Pure.pure (b, me))
    (hb : c.blocks s = false) (h : Ends m s (fun b t _ => Q b (t, me)) X) :
    (lift c).Does step (s, me) Q X := by
  apply does_of_ends hb
  rw [hrun]
  exact ends_bind (h.mono (fun _ _ _ hq => ends_pure hq) fun _ hf => hf)

end Rules

end Fs

end Xv6
