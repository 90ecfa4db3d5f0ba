import Mathlib.Data.List.TakeWhile
import Xv6.Fs.State

/-!
# The parser of the shell

The parser of `sh.c`, for any source of tokens; the line in memory is one. A pointer into the
line is the text from it on, and a word is a pointer to its first byte with a pointer behind
its last one. `fuel` bounds the turns of the loops and the depth of the calls.
-/

namespace Xv6

namespace Sh

def MAXARGS : Nat := 10

def O_RDONLY : Nat := 0x000
def O_WRONLY : Nat := 0x001
def O_CREATE : Nat := 0x200

inductive Fault
  | panic (msg : String)
  /-- a store to `argv[i]` with `i` not below `MAXARGS` -/
  | overrun
  | diverge
  deriving DecidableEq, Repr

/-! ## Commands -/

structure Redir (W : Type) where
  file : W
  mode : Nat
  fd : Nat
  deriving DecidableEq, Repr

inductive Cmd (W : Type)
  | exec (argv : List W)
  | redir (cmd : Cmd W) (r : Redir W)
  | pipe (left right : Cmd W)
  | list (left right : Cmd W)
  | back (cmd : Cmd W)
  deriving Repr

/-- The command with one more argument: `parseexec` still fills `argv` when redirections
have been put around the command. -/
def Cmd.addArg {W : Type} (w : W) : Cmd W → Cmd W
  | .exec argv => .exec (argv ++ [w])
  | .redir cmd r => .redir (cmd.addArg w) r
  | cmd => cmd

/-! ## Tokens -/

inductive Sym
  | bar | amp | semi | lparen | rparen | lt | gt | gtgt
  deriving DecidableEq, Repr

def Sym.char : Sym → Byte
  | .bar => 124
  | .amp => 38
  | .semi => 59
  | .lparen => 40
  | .rparen => 41
  | .lt => 60
  | .gt => 62
  | .gtgt => 62

inductive Token (W : Type)
  | sym (y : Sym)
  | word (w : W)
  deriving Repr

/-- How the parser sees the line: `peek` asks whether the next token starts with one of the
characters, `gettoken` takes it; it gives `none` at the end of the line. -/
structure Source (σ W : Type) where
  peek : List Byte → σ → Bool × σ
  gettoken : σ → Option (Token W) × σ

/-! ## The procedures -/

section Parser

variable {σ W : Type} (src : Source σ W)

/-- The loop of `parseline` over `&`. -/
def backs : Nat → Cmd W → σ → Except Fault (Cmd W × σ)
  | 0, _, _ => .error .diverge
  | fuel + 1, cmd, s =>
    match src.peek [38] s with
    | (true, s) => backs fuel (.back cmd) (src.gettoken s).2
    | (false, s) => .ok (cmd, s)

def parseredirs : Nat → Cmd W → σ → Except Fault (Cmd W × σ)
  | 0, _, _ => .error .diverge
  | fuel + 1, cmd, s =>
    match src.peek [60, 62] s with
    | (false, s) => .ok (cmd, s)
    | (true, s) =>
      let tok := (src.gettoken s).1
      match src.gettoken (src.gettoken s).2 with
      | (some (.word w), s) =>
        match tok with
        | some (.sym .lt) => parseredirs fuel (.redir cmd ⟨w, O_RDONLY, 0⟩) s
        | some (.sym .gt) => parseredirs fuel (.redir cmd ⟨w, O_WRONLY ||| O_CREATE, 1⟩) s
        | some (.sym .gtgt) => parseredirs fuel (.redir cmd ⟨w, O_WRONLY ||| O_CREATE, 1⟩) s
        | _ => parseredirs fuel cmd s
      | _ => .error (.panic "missing file for redirection")

/-- The loop of `parseexec`; `ret` has the command around which redirections are put. -/
def arguments : Nat → Nat → Cmd W → σ → Except Fault (Cmd W × σ)
  | 0, _, _, _ => .error .diverge
  | fuel + 1, argc, ret, s =>
    match src.peek [124, 41, 38, 59] s with
    | (true, s) => if argc < MAXARGS then .ok (ret, s) else .error .overrun
    | (false, s) =>
      match src.gettoken s with
      | (none, s) => if argc < MAXARGS then .ok (ret, s) else .error .overrun
      | (some (.sym _), _) => .error (.panic "syntax")
      | (some (.word w), s) =>
        if argc < MAXARGS then
          if argc + 1 ≥ MAXARGS then .error (.panic "too many args")
          else
            match parseredirs src fuel (ret.addArg w) s with
            | .error e => .error e
            | .ok (ret, s) => arguments fuel (argc + 1) ret s
        else .error .overrun

mutual

def parseline : Nat → σ → Except Fault (Cmd W × σ)
  | 0, _ => .error .diverge
  | fuel + 1, s =>
    match parsepipe fuel s with
    | .error e => .error e
    | .ok (cmd, s) =>
      match backs src fuel cmd s with
      | .error e => .error e
      | .ok (cmd, s) =>
        match src.peek [59] s with
        | (false, s) => .ok (cmd, s)
        | (true, s) =>
          match parseline fuel (src.gettoken s).2 with
          | .error e => .error e
          | .ok (right, s) => .ok (.list cmd right, s)

def parsepipe : Nat → σ → Except Fault (Cmd W × σ)
  | 0, _ => .error .diverge
  | fuel + 1, s =>
    match parseexec fuel s with
    | .error e => .error e
    | .ok (cmd, s) =>
      match src.peek [124] s with
      | (false, s) => .ok (cmd, s)
      | (true, s) =>
        match parsepipe fuel (src.gettoken s).2 with
        | .error e => .error e
        | .ok (right, s) => .ok (.pipe cmd right, s)

def parseblock : Nat → σ → Except Fault (Cmd W × σ)
  | 0, _ => .error .diverge
  | fuel + 1, s =>
    match src.peek [40] s with
    | (false, _) => .error (.panic "parseblock")
    | (true, s) =>
      match parseline fuel (src.gettoken s).2 with
      | .error e => .error e
      | .ok (cmd, s) =>
        match src.peek [41] s with
        | (false, _) => .error (.panic "syntax - missing )")
        | (true, s) => parseredirs src fuel cmd (src.gettoken s).2

def parseexec : Nat → σ → Except Fault (Cmd W × σ)
  | 0, _ => .error .diverge
  | fuel + 1, s =>
    match src.peek [40] s with
    | (true, s) => parseblock fuel s
    | (false, s) =>
      match parseredirs src fuel (.exec []) s with
      | .error e => .error e
      | .ok (ret, s) => arguments src fuel 0 ret s

end

end Parser

/-! ## The line -/

def whitespace : List Byte := [32, 9, 13, 10, 11]

def symbols : List Byte := [60, 124, 62, 38, 59, 40, 41]

def isSpace (c : Byte) : Bool := whitespace.contains c

/-- The bytes that the loop of `gettoken` takes for a word. -/
def isWord (c : Byte) : Bool := !whitespace.contains c && !symbols.contains c

structure Ptr (line : List Byte) where
  text : List Byte
  suffix : text <:+ line

/-- A word of the line: `q` points to its bytes and `eq` behind them. -/
structure Span (line : List Byte) where
  q : Ptr line
  eq : Ptr line
  bytes : List Byte
  split : q.text = bytes ++ eq.text
  word : ∀ c ∈ bytes, isWord c = true
  maximal : ∀ c ∈ eq.text.head?, isWord c = false

namespace Ptr

variable {line : List Byte}

def start (line : List Byte) : Ptr line := ⟨line, List.suffix_rfl⟩

def dropWhile (p : Ptr line) (test : Byte → Bool) : Ptr line :=
  ⟨p.text.dropWhile test, (List.dropWhile_suffix test).trans p.suffix⟩

/-- The pointer `n` bytes on. -/
def drop (p : Ptr line) (n : Nat) : Ptr line :=
  ⟨p.text.drop n, (List.drop_suffix n p.text).trans p.suffix⟩

def skip (p : Ptr line) : Ptr line := p.dropWhile isSpace

def span (p : Ptr line) : Span line where
  q := p
  eq := p.dropWhile isWord
  bytes := p.text.takeWhile isWord
  split := List.takeWhile_append_dropWhile.symm
  word := fun _ hc => List.mem_takeWhile_imp hc
  maximal := by
    intro c hc
    have hnot := List.head?_dropWhile_not isWord p.text
    rw [Option.mem_def] at hc
    rw [show (p.dropWhile isWord).text = p.text.dropWhile isWord from rfl] at hc
    rw [hc] at hnot
    simpa using hnot

end Ptr

def symAt : List Byte → Option Sym
  | [] => none
  | c :: s =>
    if c = 124 then some .bar
    else if c = 40 then some .lparen
    else if c = 41 then some .rparen
    else if c = 59 then some .semi
    else if c = 38 then some .amp
    else if c = 60 then some .lt
    else if c = 62 then if s.head? = some 62 then some .gtgt else some .gt
    else none

def Sym.length : Sym → Nat
  | .gtgt => 2
  | _ => 1

variable {line : List Byte}

def gettoken (p : Ptr line) : Option (Token (Span line)) × Ptr line :=
  let s := p.skip
  if s.text = [] then (none, s.skip)
  else
    match symAt s.text with
    | some y => (some (.sym y), (s.drop y.length).skip)
    | none => (some (.word s.span), s.span.eq.skip)

def peek (toks : List Byte) (p : Ptr line) : Bool × Ptr line :=
  let s := p.skip
  (s.text.head?.any toks.contains, s)

def lineSource (line : List Byte) : Source (Ptr line) (Span line) where
  peek := peek
  gettoken := gettoken

/-! ## `parsecmd` -/

def Span.terminate (w : Span line) (mem : List Byte) : List Byte :=
  mem.set (line.length - w.eq.text.length) 0

def nulterminate : Cmd (Span line) → List Byte → List Byte
  | .exec argv, mem => argv.foldl (fun mem w => w.terminate mem) mem
  | .redir cmd r, mem => r.file.terminate (nulterminate cmd mem)
  | .pipe left right, mem => nulterminate right (nulterminate left mem)
  | .list left right, mem => nulterminate right (nulterminate left mem)
  | .back cmd, mem => nulterminate cmd mem

def parsecmd (line : List Byte) : Except Fault (Cmd (Span line) × List Byte) :=
  match parseline (lineSource line) (4 * line.length + 4) (Ptr.start line) with
  | .error e => .error e
  | .ok (cmd, s) =>
    if (peek [] s).2.text ≠ [] then .error (.panic "syntax")
    else .ok (cmd, nulterminate cmd line)

end Sh

end Xv6
