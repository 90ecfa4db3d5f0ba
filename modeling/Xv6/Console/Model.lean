import Xv6.Lib.Cyclic
import Xv6.Lib.Run
import Xv6.Fs.State

/-!
# Console input

`consoleintr` and `consoleread` of `console.c`. The cyclic buffer has three indices: `r` counts
what has been read, `w` what readers may read, and `e` what has been typed. Both functions hold
`cons.lock`, so a step is the handling of the characters that `getc` has, or what a reader does
from one `sleep` to the next. The echo and the listings, which are made without the lock, are
left out. A sleeping reader may go on at any time.
-/

namespace Xv6

namespace Console

def INPUTBUF : Word := 128

instance : NeZero INPUTBUF.toNat := ⟨by decide⟩

/-- `#define C(x) ((x)-'@')` -/
def C (x : Char) : Byte := BitVec.ofNat 8 (x.toNat - '@'.toNat)

def newline : Byte := 10

def carriageReturn : Byte := 13

structure Input where
  buf : Fin INPUTBUF.toNat → Byte
  r : Word
  w : Word
  e : Word

namespace Input

/-- `input.buf[i % INPUT_BUF]` -/
def bufAt (s : Input) (i : Word) : Byte := s.buf (Cyclic.cell INPUTBUF.toNat i)

/-- The loop of the key that kills a line. It runs at most `input.e - input.w` times. -/
def killLine : Nat → Input → Input
  | 0, s => s
  | turns + 1, s =>
    if s.e ≠ s.w ∧ s.bufAt (s.e - 1) ≠ newline then killLine turns { s with e := s.e - 1 } else s

/-- `input.buf[input.e++ % INPUT_BUF] = c`, and `input.w = input.e` at the end of a line. -/
def store (s : Input) (c : Byte) : Input :=
  let s :=
    { s with buf := Function.update s.buf (Cyclic.cell INPUTBUF.toNat s.e) c, e := s.e + 1 }
  if c = newline ∨ c = C 'D' ∨ s.e = s.r + INPUTBUF then { s with w := s.e } else s

/-- The `switch` of `consoleintr`. -/
def key (s : Input) (c : Byte) : Input :=
  if c = C 'P' then s
  else if c = C 'U' then s.killLine (s.e - s.w).toNat
  else if c = C 'H' ∨ c = 0x7f then if s.e ≠ s.w then { s with e := s.e - 1 } else s
  else if c = C 'R' ∨ c = C 'F' ∨ c = C 'S' ∨ c = C 'Z' then s
  else if c ≠ 0 ∧ s.e - s.r < INPUTBUF then
    s.store (if c = carriageReturn then newline else c)
  else s

/-- `consoleintr`, with the characters that `getc` returns before it returns -1. -/
def consoleintr (s : Input) (cs : List Byte) : Input := cs.foldl key s

end Input

structure Call where
  target : Nat
  n : Nat
  dst : List Byte

inductive Stop
  | sleeps
  /-- It returns -1. -/
  | killed
  /-- It returns `target - n`. -/
  | returns
deriving DecidableEq

/-- The loop of `consoleread`, up to a `sleep` or a `return`. -/
def Input.consoleread (killed : Bool) (target : Nat) :
    Nat → Input → List Byte → Input × Call × Stop
  | 0, s, dst => (s, ⟨target, 0, dst⟩, .returns)
  | n + 1, s, dst =>
    if s.r = s.w then (s, ⟨target, n + 1, dst⟩, if killed then .killed else .sleeps)
    else
      let c := s.bufAt s.r
      let s := { s with r := s.r + 1 }
      if c = C 'D' then
        -- save ^D for next time, to make sure caller gets a 0-byte result
        (if n + 1 < target then { s with r := s.r - 1 } else s, ⟨target, n + 1, dst⟩, .returns)
      else if c = newline then (s, ⟨target, n, dst ++ [c]⟩, .returns)
      else s.consoleread killed target n (dst ++ [c])

/-! ## The machine -/

structure State (T : Type) where
  input : Input
  call : T → Option Call

inductive Action (T : Type)
  /-- An interrupt, with characters. -/
  | key (cs : List Byte)
  /-- A process calls `consoleread`. It may have been killed. -/
  | read (t : T) (n : Nat) (killed : Bool)
  | wake (t : T) (killed : Bool)

structure Event (T : Type) where
  reader : T
  took : List Byte
  call : Call
  stop : Stop

def Call.result (c : Call) : Nat := c.target - c.n

namespace State

variable {T : Type} [DecidableEq T]

def run (s : State T) (t : T) (killed : Bool) (c : Call) : State T × Option (Event T) :=
  let r := s.input.consoleread killed c.target c.n c.dst
  ({ input := r.1
     call := Function.update s.call t (if r.2.2 = .sleeps then some r.2.1 else none) },
    some { reader := t, took := r.2.1.dst.drop c.dst.length, call := r.2.1, stop := r.2.2 })

def next (s : State T) : Action T → Option (State T × Option (Event T))
  | .key cs => some ({ s with input := s.input.consoleintr cs }, none)
  | .read t n killed =>
    match s.call t with
    | none => some (s.run t killed { target := n, n := n, dst := [] })
    | some _ => none
  | .wake t killed => (s.call t).map fun c => s.run t killed c

structure Init (s : State T) : Prop where
  r : s.input.r = 0
  w : s.input.w = 0
  e : s.input.e = 0
  call : ∀ t, s.call t = none

end State

end Console

end Xv6
