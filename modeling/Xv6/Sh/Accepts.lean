import Xv6.Sh.Grammar

/-!
# What the shell accepts

`peek` and `gettoken` read the tokens of the line one after the other, so the parser does on
the line what it does on the list of its tokens. With the grammar that gives what `parsecmd`
accepts, and the strings that the tree points to once the words are terminated.
-/

namespace Xv6

namespace Sh

/-! ## The same parser over two sources -/

def Token.map {W V : Type} (g : W → V) : Token W → Token V
  | .sym y => .sym y
  | .word w => .word (g w)

def Redir.map {W V : Type} (g : W → V) (r : Redir W) : Redir V := ⟨g r.file, r.mode, r.fd⟩

def Cmd.map {W V : Type} (g : W → V) : Cmd W → Cmd V
  | .exec argv => .exec (argv.map g)
  | .redir cmd r => .redir (cmd.map g) (r.map g)
  | .pipe left right => .pipe (left.map g) (right.map g)
  | .list left right => .list (left.map g) (right.map g)
  | .back cmd => .back (cmd.map g)

theorem Cmd.map_addArg {W V : Type} (g : W → V) (w : W) (c : Cmd W) :
    (c.addArg w).map g = (c.map g).addArg (g w) := by
  induction c with
  | exec argv => simp [Cmd.addArg, Cmd.map]
  | redir c r ih => simp only [Cmd.addArg, Cmd.map, ih]
  | pipe | list | back => rfl

section Simulation

variable {σ τ W V : Type} {src : Source σ W} {dst : Source τ V} {h : σ → τ} {g : W → V}

/-- What is read from `s` is what is read from `h s`. -/
structure Simulates (src : Source σ W) (dst : Source τ V) (h : σ → τ) (g : W → V) : Prop where
  peek : ∀ toks s, (∀ c ∈ toks, symbols.contains c = true) →
    dst.peek toks (h s) = ((src.peek toks s).1, h (src.peek toks s).2)
  gettoken : ∀ s, dst.gettoken (h s) = ((src.gettoken s).1.map (Token.map g), h (src.gettoken s).2)

def image (h : σ → τ) (g : W → V) : Except Fault (Cmd W × σ) → Except Fault (Cmd V × τ)
  | .error e => .error e
  | .ok (c, s) => .ok (c.map g, h s)

theorem Simulates.backs (hs : Simulates src dst h g) (n : Nat) (c : Cmd W) (s : σ) :
    backs dst n (c.map g) (h s) = image h g (backs src n c s) := by
  induction n generalizing c s with
  | zero => rfl
  | succ n ih =>
    rw [Sh.backs, Sh.backs, hs.peek _ _ (by decide)]
    rcases src.peek [38] s with ⟨_ | _, s⟩
    · rfl
    · dsimp only
      rw [hs.gettoken]
      exact ih (.back c) _

theorem Simulates.parseredirs (hs : Simulates src dst h g) (n : Nat) (c : Cmd W) (s : σ) :
    parseredirs dst n (c.map g) (h s) = image h g (parseredirs src n c s) := by
  induction n generalizing c s with
  | zero => rfl
  | succ n ih =>
    rw [Sh.parseredirs, Sh.parseredirs, hs.peek _ _ (by decide)]
    rcases src.peek [60, 62] s with ⟨_ | _, s⟩
    · rfl
    · dsimp only
      rw [hs.gettoken]
      rcases src.gettoken s with ⟨tok, s⟩
      rw [hs.gettoken]
      rcases src.gettoken s with ⟨_ | ⟨y⟩ | ⟨w⟩, s⟩
      · rfl
      · rfl
      · rcases tok with _ | ⟨y⟩ | ⟨v⟩
        · exact ih c s
        · cases y with
          | lt => exact ih (.redir c ⟨w, O_RDONLY, 0⟩) s
          | gt | gtgt => exact ih (.redir c ⟨w, O_WRONLY ||| O_CREATE, 1⟩) s
          | bar | amp | semi | lparen | rparen => exact ih c s
        · exact ih c s

theorem Simulates.arguments (hs : Simulates src dst h g) (n argc : Nat) (c : Cmd W) (s : σ) :
    arguments dst n argc (c.map g) (h s) = image h g (arguments src n argc c s) := by
  induction n generalizing argc c s with
  | zero => rfl
  | succ n ih =>
    rw [Sh.arguments, Sh.arguments, hs.peek _ _ (by decide)]
    rcases src.peek [124, 41, 38, 59] s with ⟨_ | _, s⟩
    · dsimp only
      rw [hs.gettoken]
      rcases src.gettoken s with ⟨_ | ⟨y⟩ | ⟨w⟩, s⟩
      · dsimp only [Option.map_none]
        split <;> rfl
      · rfl
      · dsimp only [Option.map_some, Token.map]
        split
        · split
          · rfl
          · rw [← Cmd.map_addArg, hs.parseredirs]
            rcases Sh.parseredirs src n (c.addArg w) s with e | ⟨c, s⟩
            · rfl
            · exact ih _ _ _
        · rfl
    · dsimp only
      split <;> rfl

theorem Simulates.parser (hs : Simulates src dst h g) (n : Nat) (s : σ) :
    parseline dst n (h s) = image h g (parseline src n s) ∧
    parsepipe dst n (h s) = image h g (parsepipe src n s) ∧
    parseblock dst n (h s) = image h g (parseblock src n s) ∧
    parseexec dst n (h s) = image h g (parseexec src n s) := by
  induction n generalizing s with
  | zero => exact ⟨rfl, rfl, rfl, rfl⟩
  | succ n ih =>
    refine ⟨?_, ?_, ?_, ?_⟩
    · rw [parseline, parseline, (ih s).2.1]
      rcases parsepipe src n s with e | ⟨c, s⟩
      · rfl
      dsimp only [image]
      rw [hs.backs]
      rcases Sh.backs src n c s with e | ⟨c, s⟩
      · rfl
      dsimp only [image]
      rw [hs.peek _ _ (by decide)]
      rcases src.peek [59] s with ⟨_ | _, s⟩
      · rfl
      dsimp only
      rw [hs.gettoken]
      dsimp only
      rw [(ih _).1]
      rcases parseline src n (src.gettoken s).2 with e | ⟨d, s⟩ <;> rfl
    · rw [parsepipe, parsepipe, (ih s).2.2.2]
      rcases parseexec src n s with e | ⟨c, s⟩
      · rfl
      dsimp only [image]
      rw [hs.peek _ _ (by decide)]
      rcases src.peek [124] s with ⟨_ | _, s⟩
      · rfl
      dsimp only
      rw [hs.gettoken]
      dsimp only
      rw [(ih _).2.1]
      rcases parsepipe src n (src.gettoken s).2 with e | ⟨d, s⟩ <;> rfl
    · rw [parseblock, parseblock, hs.peek _ _ (by decide)]
      rcases src.peek [40] s with ⟨_ | _, s⟩
      · rfl
      dsimp only
      rw [hs.gettoken]
      dsimp only
      rw [(ih _).1]
      rcases parseline src n (src.gettoken s).2 with e | ⟨c, s⟩
      · rfl
      dsimp only [image]
      rw [hs.peek _ _ (by decide)]
      rcases src.peek [41] s with ⟨_ | _, s⟩
      · rfl
      dsimp only
      rw [hs.gettoken]
      exact hs.parseredirs n c _
    · rw [parseexec, parseexec, hs.peek _ _ (by decide)]
      rcases src.peek [40] s with ⟨_ | _, s⟩
      · dsimp only
        have hredirs := hs.parseredirs n (.exec []) s
        rw [show (Cmd.exec ([] : List W)).map g = .exec [] from rfl] at hredirs
        rw [hredirs]
        rcases Sh.parseredirs src n (.exec []) s with e | ⟨c, s⟩
        · rfl
        · exact hs.arguments n 0 c s
      · exact (ih s).2.2.1

end Simulation

/-! ## The tokens of a line -/

def flush : List Byte → List (Token (List Byte))
  | [] => []
  | w => [.word w]

/-- The tokens of a text; `w` has the bytes of the word that is being read. -/
def lex (w : List Byte) : List Byte → List (Token (List Byte))
  | [] => flush w
  | c :: s =>
    if isSpace c then flush w ++ lex [] s
    else if c = 124 then flush w ++ .sym .bar :: lex [] s
    else if c = 38 then flush w ++ .sym .amp :: lex [] s
    else if c = 59 then flush w ++ .sym .semi :: lex [] s
    else if c = 40 then flush w ++ .sym .lparen :: lex [] s
    else if c = 41 then flush w ++ .sym .rparen :: lex [] s
    else if c = 60 then flush w ++ .sym .lt :: lex [] s
    else if c = 62 then
      match s with
      | [] => flush w ++ [.sym .gt]
      | d :: t =>
        if d = 62 then flush w ++ .sym .gtgt :: lex [] t else flush w ++ .sym .gt :: lex [] (d :: t)
    else lex (w ++ [c]) s

variable {c : Byte}

theorem lex_space (hc : isSpace c = true) (w s : List Byte) :
    lex w (c :: s) = flush w ++ lex [] s := by
  rw [lex.eq_def]
  simp only [hc, if_true]

variable {s : List Byte}

theorem not_isSpace_of_symAt {y : Sym} (hy : symAt (c :: s) = some y) :
    isSpace c = false := by
  simp only [symAt] at hy
  split_ifs at hy with h₁ h₂ h₃ h₄ h₅ h₆ h₇ <;> subst c <;> rfl

theorem lex_sym {y : Sym} (hy : symAt (c :: s) = some y)
    (w : List Byte) :
    lex w (c :: s) = flush w ++ .sym y :: lex [] ((c :: s).drop y.length) := by
  have hspace := not_isSpace_of_symAt hy
  simp only [symAt] at hy
  rw [lex.eq_def]
  simp only [hspace, Bool.false_eq_true, if_false]
  split_ifs at hy with h₁ h₂ h₃ h₄ h₅ h₆ h₇ h₈
  all_goals obtain rfl := Option.some.inj hy
  all_goals subst c
  all_goals try rfl
  · cases s with
    | nil => cases h₈
    | cons d t =>
      obtain rfl : d = 62 := Option.some.inj h₈
      rfl
  · cases s with
    | nil => rfl
    | cons d t =>
      have hd : d ≠ 62 := fun h => h₈ (by rw [h]; rfl)
      exact if_neg hd

theorem symAt_eq_none :
    symAt (c :: s) = none ↔ symbols.contains c = false := by
  simp only [symAt, symbols, List.contains_eq_mem, List.mem_cons, List.not_mem_nil, or_false,
    decide_eq_false_iff_not]
  split_ifs <;> simp_all

theorem isWord_iff :
    isWord c = true ↔ isSpace c = false ∧ symAt (c :: s) = none := by
  rw [symAt_eq_none, isWord, isSpace]
  simp

theorem lex_byte (hc : isWord c = true) (w : List Byte) :
    lex w (c :: s) = lex (w ++ [c]) s := by
  obtain ⟨hspace, hsym⟩ := (isWord_iff (s := s)).mp hc
  simp only [symAt] at hsym
  rw [lex.eq_def]
  simp only [hspace, Bool.false_eq_true, if_false]
  split_ifs at hsym with h₁ h₂ h₃ h₄ h₅ h₆ h₇
  rw [if_neg h₁, if_neg h₅, if_neg h₄, if_neg h₂, if_neg h₃, if_neg h₆, if_neg h₇]

theorem lex_skip (s : List Byte) : lex [] (s.dropWhile isSpace) = lex [] s := by
  induction s with
  | nil => rfl
  | cons c s ih =>
    cases hc : isSpace c with
    | true =>
      rw [List.dropWhile_cons_of_pos hc, ih, lex_space hc]
      rfl
    | false => rw [List.dropWhile_cons_of_neg (by simp [hc])]

theorem lex_word (w s : List Byte) :
    lex w s = flush (w ++ s.takeWhile isWord) ++ lex [] (s.dropWhile isWord) := by
  induction s generalizing w with
  | nil => simp [lex, flush]
  | cons c s ih =>
    cases hc : isWord c with
    | true =>
      rw [List.takeWhile_cons_of_pos hc, List.dropWhile_cons_of_pos hc, lex_byte hc, ih,
        List.append_assoc, List.singleton_append]
    | false =>
      rw [List.takeWhile_cons_of_neg (by simp [hc]), List.dropWhile_cons_of_neg (by simp [hc]),
        List.append_nil]
      cases hspace : isSpace c with
      | true =>
        rw [lex_space hspace, lex_space hspace]
        rfl
      | false =>
        cases hy : symAt (c :: s) with
        | none =>
          rw [isWord_iff.mpr ⟨hspace, hy⟩] at hc
          cases hc
        | some y =>
          rw [lex_sym hy, lex_sym hy]
          rfl

theorem length_lex_le (w s : List Byte) : (lex w s).length ≤ w.length + s.length := by
  have hflush (w : List Byte) : (flush w).length ≤ w.length := by cases w <;> simp [flush]
  induction hn : s.length using Nat.strongRecOn generalizing w s with
  | ind n ih =>
    cases s with
    | nil =>
      subst hn
      exact hflush w
    | cons c s =>
      rw [List.length_cons] at hn
      cases hspace : isSpace c with
      | true =>
        have := hflush w
        have := ih s.length (by omega) [] s rfl
        rw [lex_space hspace, List.length_append]
        simp only [List.length_nil] at this
        omega
      | false =>
        cases hy : symAt (c :: s) with
        | some y =>
          have := hflush w
          have hdrop : ((c :: s).drop y.length).length ≤ s.length := by
            cases y <;> simp [Sym.length]
          have := ih _ (by omega) [] ((c :: s).drop y.length) rfl
          rw [lex_sym hy, List.length_append, List.length_cons]
          simp only [List.length_nil] at this
          omega
        | none =>
          have := ih s.length (by omega) (w ++ [c]) s rfl
          rw [lex_byte (isWord_iff.mpr ⟨hspace, hy⟩)]
          simp only [List.length_append, List.length_singleton] at this
          omega

/-! ## `peek` and `gettoken` read the tokens of the line -/

variable {line : List Byte}

def Ptr.tokens (p : Ptr line) : List (Token (List Byte)) := lex [] p.text

theorem Ptr.tokens_skip (p : Ptr line) : p.skip.tokens = p.tokens := lex_skip p.text

theorem Ptr.skip_cases (p : Ptr line) :
    (p.skip.text = [] ∧ p.tokens = []) ∨
    (∃ c s y, p.skip.text = c :: s ∧ symAt (c :: s) = some y ∧ c = y.char ∧
      p.tokens = .sym y :: (p.skip.drop y.length).tokens) ∨
    ∃ c s, p.skip.text = c :: s ∧ symAt (c :: s) = none ∧
      p.tokens = .word p.skip.span.bytes :: p.skip.span.eq.tokens := by
  rw [← p.tokens_skip]
  cases htext : p.skip.text with
  | nil => exact Or.inl ⟨rfl, by rw [Ptr.tokens, htext]; rfl⟩
  | cons c s =>
    refine Or.inr ?_
    cases hy : symAt (c :: s) with
    | some y =>
      refine Or.inl ⟨c, s, y, rfl, hy, ?_, ?_⟩
      · simp only [symAt] at hy
        split_ifs at hy <;> cases hy <;> assumption
      · rw [Ptr.tokens, htext, lex_sym hy, ← htext]
        rfl
    | none =>
      refine Or.inr ⟨c, s, rfl, hy, ?_⟩
      have hspace : isSpace c = false := by
        have hnot := List.head?_dropWhile_not isSpace p.text
        rw [show p.text.dropWhile isSpace = c :: s from htext] at hnot
        simpa using hnot
      have hbyte : isWord c = true := isWord_iff.mpr ⟨hspace, hy⟩
      have hbytes : p.skip.span.bytes = c :: s.takeWhile isWord := by
        rw [Ptr.span]
        dsimp only
        rw [htext, List.takeWhile_cons_of_pos hbyte]
      rw [Ptr.tokens, lex_word, List.nil_append, show p.skip.text.takeWhile isWord =
        p.skip.span.bytes from rfl, hbytes]
      rfl

theorem simulates_tokens (line : List Byte) :
    Simulates (lineSource line) (tokens (List Byte)) Ptr.tokens Span.bytes where
  peek := by
    intro toks p htoks
    rw [show (lineSource line).peek toks p = peek toks p from rfl, peek]
    rw [p.tokens_skip]
    rcases p.skip_cases with ⟨htext, htok⟩ | ⟨c, s, y, htext, -, rfl, htok⟩ |
      ⟨c, s, htext, hy, htok⟩
    · rw [htext, htok]
      rfl
    · rw [htext, htok, peek_sym]
      rfl
    · rw [htext, htok, peek_word]
      have hnot : toks.contains c = false := by
        rw [← Bool.not_eq_true]
        intro hc
        have hsym := htoks c (by simpa using hc)
        rw [symAt_eq_none.mp hy] at hsym
        cases hsym
      rw [List.head?_cons, Option.any_some, hnot]
  gettoken := by
    intro p
    rw [show (lineSource line).gettoken p = gettoken p from rfl, gettoken]
    rcases p.skip_cases with ⟨htext, htok⟩ | ⟨c, s, y, htext, hy, -, htok⟩ | ⟨c, s, htext, hy, htok⟩
    · rw [if_pos htext, htok]
      rw [Ptr.tokens_skip, Ptr.tokens_skip, htok]
      rfl
    · rw [if_neg (by rw [htext]; simp), htext, hy, htok, gettoken_cons]
      rw [Ptr.tokens_skip]
      rfl
    · rw [if_neg (by rw [htext]; simp), htext, hy, htok, gettoken_cons]
      rw [Ptr.tokens_skip]
      rfl

/-! ## The words in memory -/

def Cmd.words {W : Type} : Cmd W → List W
  | .exec argv => argv
  | .redir cmd r => cmd.words ++ [r.file]
  | .pipe left right => left.words ++ right.words
  | .list left right => left.words ++ right.words
  | .back cmd => cmd.words

theorem Cmd.map_congr {W V : Type} {f g : W → V} {c : Cmd W} (h : ∀ w ∈ c.words, f w = g w) :
    c.map f = c.map g := by
  induction c with
  | exec argv =>
    have hargv : argv.map f = argv.map g := List.map_congr_left h
    rw [Cmd.map, Cmd.map, hargv]
  | redir c r ih =>
    simp only [Cmd.words, List.mem_append, List.mem_singleton] at h
    rw [Cmd.map, Cmd.map, ih fun w hw => h w (Or.inl hw), Redir.map, Redir.map, h _ (Or.inr rfl)]
  | pipe l r ihl ihr | list l r ihl ihr =>
    simp only [Cmd.words, List.mem_append] at h
    rw [Cmd.map, Cmd.map, ihl fun w hw => h w (Or.inl hw), ihr fun w hw => h w (Or.inr hw)]
  | back c ih => rw [Cmd.map, Cmd.map, ih h]

def Ptr.pos (p : Ptr line) : Nat := line.length - p.text.length

def cstring (mem : List Byte) (i : Nat) : List Byte := (mem.drop i).takeWhile (· != 0)

theorem nulterminate_eq (c : Cmd (Span line)) (mem : List Byte) :
    nulterminate c mem = c.words.foldl (fun mem w => w.terminate mem) mem := by
  induction c generalizing mem with
  | exec argv => rfl
  | redir c r ih => rw [nulterminate, ih, Cmd.words, List.foldl_append]; rfl
  | pipe l r ihl ihr | list l r ihl ihr =>
    rw [nulterminate, ihl, ihr, Cmd.words, List.foldl_append]
  | back c ih => exact ih mem

theorem getElem?_terminate (ws : List (Span line)) (mem : List Byte) (i : Nat) :
    ((∃ w ∈ ws, w.eq.pos = i) →
      (ws.foldl (fun mem w => w.terminate mem) mem)[i]? = mem[i]?.map fun _ => 0) ∧
    ((∀ w ∈ ws, w.eq.pos ≠ i) →
      (ws.foldl (fun mem w => w.terminate mem) mem)[i]? = mem[i]?) := by
  induction ws generalizing mem with
  | nil => simp
  | cons w ws ih =>
    rw [List.foldl_cons]
    have hset : (w.terminate mem)[i]? =
        if w.eq.pos = i then mem[i]?.map fun _ => 0 else mem[i]? := by
      rw [Span.terminate, show line.length - w.eq.text.length = w.eq.pos from rfl]
      by_cases heq : w.eq.pos = i
      · rw [if_pos heq, heq, List.getElem?_set_self']
        rfl
      · rw [if_neg heq, List.getElem?_set_ne heq]
    refine ⟨fun hex => ?_, fun hall => ?_⟩
    · by_cases hmore : ∃ v ∈ ws, v.eq.pos = i
      · rw [(ih _).1 hmore, hset]
        split
        · cases mem[i]? <;> rfl
        · rfl
      · have hw : w.eq.pos = i := by
          obtain ⟨v, hv, hvi⟩ := hex
          rcases List.mem_cons.mp hv with rfl | hv
          · exact hvi
          · exact absurd ⟨v, hv, hvi⟩ hmore
        rw [(ih _).2 fun v hv hvi => hmore ⟨v, hv, hvi⟩, hset, if_pos hw]
    · rw [(ih _).2 fun v hv => hall v (List.mem_cons_of_mem _ hv), hset,
        if_neg (hall w List.mem_cons_self)]

theorem Ptr.drop_pos (p : Ptr line) : line.drop p.pos = p.text := by
  obtain ⟨pre, hpre⟩ := p.suffix
  have hlen := congrArg List.length hpre
  rw [List.length_append] at hlen
  rw [show p.pos = pre.length by unfold Ptr.pos; omega]
  exact (congrArg (List.drop pre.length) hpre.symm).trans List.drop_left

theorem Ptr.getElem?_pos (p : Ptr line) (i : Nat) : (line)[p.pos + i]? = p.text[i]? := by
  rw [← List.getElem?_drop, p.drop_pos]

theorem Span.pos_eq (w : Span line) : w.eq.pos = w.q.pos + w.bytes.length := by
  have hq := w.q.suffix.length_le
  rw [Ptr.pos, Ptr.pos, w.split, List.length_append] at *
  omega

theorem cstring_word {c : Cmd (Span line)} (hnul : 0 ∉ line) {w : Span line} (hw : w ∈ c.words) :
    cstring (nulterminate c line) w.q.pos = w.bytes := by
  rw [nulterminate_eq]
  have hbyte {i : Nat} (hi : i < w.bytes.length) : (line)[w.q.pos + i]? = some (w.bytes[i]) := by
    rw [w.q.getElem?_pos, w.split, List.getElem?_append_left hi, List.getElem?_eq_getElem hi]
  -- no word ends inside another one
  have hinside {i : Nat} (hi : i < w.bytes.length) {v : Span line} : v.eq.pos ≠ w.q.pos + i := by
    intro heq
    have hword := w.word _ (List.getElem_mem hi)
    have hat := v.eq.getElem?_pos 0
    rw [Nat.add_zero, heq, hbyte hi, ← List.head?_eq_getElem?] at hat
    rw [v.maximal _ hat.symm] at hword
    cases hword
  obtain ⟨m, hm⟩ : ∃ m, m = (c.words.foldl (fun mem w => w.terminate mem) line).drop w.q.pos :=
    ⟨_, rfl⟩
  rw [cstring, ← hm]
  have hbytes : m.take w.bytes.length = w.bytes := by
    refine List.ext_getElem? fun i => ?_
    rw [List.getElem?_take]
    split
    · next hi =>
      rw [hm, List.getElem?_drop, (getElem?_terminate _ _ _).2 fun v _ => hinside hi, hbyte hi,
        List.getElem?_eq_getElem hi]
    · next hi => rw [List.getElem?_eq_none (by omega)]
  have hstop : (m.drop w.bytes.length).takeWhile (· != 0) = [] := by
    cases hrest : m.drop w.bytes.length with
    | nil => rfl
    | cons a rest =>
      have ha : m[w.bytes.length]? = some a := by
        rw [← Nat.add_zero w.bytes.length, ← List.getElem?_drop, hrest]
        rfl
      rw [hm, List.getElem?_drop, ← w.pos_eq, (getElem?_terminate _ _ _).1 ⟨w, hw, rfl⟩,
        Option.map_eq_some_iff] at ha
      obtain ⟨-, -, rfl⟩ := ha
      rfl
  rw [← List.take_append_drop w.bytes.length m, List.takeWhile_append_of_pos, hbytes, hstop,
    List.append_nil]
  intro a ha
  rw [hbytes] at ha
  have hline : a ∈ line := w.q.suffix.mem (by rw [w.split]; exact List.mem_append_left _ ha)
  rw [bne_iff_ne]
  rintro rfl
  exact hnul hline

/-! ## `parsecmd` -/

theorem parseline_tokens (line : List Byte) (n : Nat) :
    parseline (tokens (List Byte)) n (lex [] line) =
      image Ptr.tokens Span.bytes (parseline (lineSource line) n (Ptr.start line)) :=
  ((simulates_tokens line).parser n (Ptr.start line)).1

theorem Ptr.tokens_eq_nil {p : Ptr line} : p.tokens = [] ↔ p.skip.text = [] := by
  rcases p.skip_cases with ⟨htext, htok⟩ | ⟨c, s, y, htext, -, -, htok⟩ | ⟨c, s, htext, -, htok⟩
  · simp [htext, htok]
  · simp [htext, htok]
  · simp [htext, htok]

theorem parsecmd_outcome (line : List Byte) :
    (∃ msg, parsecmd line = .error (.panic msg) ∧ ∀ c, ¬ Line (lex [] line) c) ∨
      ∃ cmd, parsecmd line = .ok (cmd, nulterminate cmd line) ∧
        ∀ c, Line (lex [] line) c ↔ c = cmd.map Span.bytes := by
  have hlen : 4 * (lex [] line).length + 4 ≤ 4 * line.length + 4 := by
    have := length_lex_le [] line
    rw [List.length_nil] at this
    omega
  have hcomplete (c : Cmd (List Byte)) (hc : Line (lex [] line) c) :=
    (parser_complete (4 * line.length + 4) (lex [] line) [] c).1 hc nofun
      (by rw [List.append_nil]; exact hlen)
  rw [List.append_nil, parseline_tokens] at hcomplete
  have hsound := (parser_outcome (4 * line.length + 4) (lex [] line)).1 hlen
  rw [parseline_tokens] at hsound
  unfold parsecmd
  cases hp : parseline (lineSource line) (4 * line.length + 4) (Ptr.start line) with
  | error e =>
    rw [hp] at hcomplete hsound
    refine Or.inl ?_
    rcases hsound with ⟨msg, hmsg⟩ | ⟨us, c, rest, -, -, hok⟩
    · obtain rfl : e = .panic msg := Except.error.inj hmsg
      exact ⟨msg, rfl, fun c hc => nomatch hcomplete c hc⟩
    · cases hok
  | ok r =>
    obtain ⟨cmd, s⟩ := r
    rw [hp] at hcomplete hsound
    dsimp only [image] at hcomplete hsound ⊢
    rw [show (peek [] s).2 = s.skip from rfl]
    by_cases hrest : s.skip.text = []
    · refine Or.inr ⟨cmd, by rw [if_neg (not_not_intro hrest)], fun c => ⟨fun hc => ?_, ?_⟩⟩
      · exact ((Prod.mk.inj (Except.ok.inj (hcomplete c hc))).1).symm
      · rintro rfl
        rcases hsound with ⟨msg, hmsg⟩ | ⟨us, c, rest, hsplit, hline, hok⟩
        · cases hmsg
        · obtain ⟨rfl, rfl⟩ := Prod.mk.inj (Except.ok.inj hok)
          rw [Ptr.tokens_eq_nil.mpr hrest, List.append_nil] at hsplit
          rwa [hsplit]
    · refine Or.inl ⟨"syntax", by rw [if_pos hrest], fun c hc => ?_⟩
      have heq := (Prod.mk.inj (Except.ok.inj (hcomplete c hc))).2
      exact hrest (Ptr.tokens_eq_nil.mp heq)

/-- For a line without NUL, `parsecmd` returns exactly if the tokens of the line derive from
the grammar, the strings of its tree are those of the derivation's tree, the tree is the
only one that the tokens derive, and where it does not return it panics. -/
theorem parsecmd_accepts_grammar (line : List Byte) (hnul : 0 ∉ line) :
    (∀ tree, (∃ cmd mem, parsecmd line = .ok (cmd, mem) ∧
        cmd.map (fun w => cstring mem w.q.pos) = tree) ↔ Line (lex [] line) tree) ∧
    (∀ t t', Line (lex [] line) t → Line (lex [] line) t' → t = t') ∧
    ∀ e, parsecmd line = .error e → ∃ msg, e = .panic msg := by
  rcases parsecmd_outcome line with ⟨msg, hpanic, hnone⟩ | ⟨cmd, hok, htree⟩
  · refine ⟨fun tree => ⟨?_, fun h => absurd h (hnone tree)⟩, fun t _ ht => absurd ht (hnone t), ?_⟩
    · rintro ⟨cmd, mem, hok, -⟩
      rw [hpanic] at hok
      cases hok
    · rw [hpanic]
      rintro e ⟨⟩
      exact ⟨msg, rfl⟩
  · have hstrings : cmd.map (fun w => cstring (nulterminate cmd line) w.q.pos) =
        cmd.map Span.bytes := Cmd.map_congr fun w hw => cstring_word hnul hw
    refine ⟨fun tree => ?_, fun t t' ht ht' => ?_, ?_⟩
    · rw [htree, hok, ← hstrings]
      constructor
      · rintro ⟨c, mem, hcm, rfl⟩
        obtain ⟨rfl, rfl⟩ := Prod.mk.inj (Except.ok.inj hcm)
        rfl
      · rintro rfl
        exact ⟨cmd, _, rfl, rfl⟩
    · rw [(htree t).mp ht, (htree t').mp ht']
    · rw [hok]
      rintro e ⟨⟩

/-- The line `a<b|c&`. -/
theorem parsecmd_accepts_line : ∃ cmd mem, parsecmd [97, 60, 98, 124, 99, 38] = .ok (cmd, mem) ∧
    cmd.map (fun w => cstring mem w.q.pos) =
      .back (.pipe (.redir (.exec [[97]]) ⟨[98], O_RDONLY, 0⟩) (.exec [[99]])) := by
  refine ((parsecmd_accepts_grammar [97, 60, 98, 124, 99, 38] (by decide)).1 _).mpr ?_
  have hleft : Exec [.word [97], .sym .lt, .word [98]]
      (.redir (.exec [([97] : List Byte)]) ⟨[98], O_RDONLY, 0⟩) :=
    .words .nil (.cons (.cons rfl .nil) .nil) (by decide)
  have hright : Exec [.word [99]] (.exec [([99] : List Byte)]) :=
    .words .nil (.cons .nil .nil) (by decide)
  exact .last 1 (.seq hleft (.last hright))

/-! ## The arguments of a tree -/

def Cmd.argvs {W : Type} : Cmd W → List (List W)
  | .exec argv => [argv]
  | .redir cmd _ => cmd.argvs
  | .pipe left right => left.argvs ++ right.argvs
  | .list left right => left.argvs ++ right.argvs
  | .back cmd => cmd.argvs

/-- The array `argv` of an `execcmd`, with 0 where no argument has been stored. -/
def slots {W : Type} (argv : List W) : List (Option W) :=
  argv.map some ++ List.replicate (MAXARGS - argv.length) none

section Argvs

variable {W : Type}

theorem Cmd.argvs_wrap (c : Cmd W) (rs : List (Redir W)) : (c.wrap rs).argvs = c.argvs := by
  induction rs generalizing c with
  | nil => rfl
  | cons r rs ih => exact ih (.redir c r)

theorem Cmd.argvs_back (c : Cmd W) (n : Nat) : (Cmd.back^[n] c).argvs = c.argvs := by
  induction n generalizing c with
  | zero => rfl
  | succ n ih => exact ih (.back c)

theorem Cmd.argvs_map {V : Type} (g : W → V) (c : Cmd W) :
    (c.map g).argvs = c.argvs.map (List.map g) := by
  induction c with
  | exec argv => rfl
  | redir c r ih | back c ih => exact ih
  | pipe l r ihl ihr | list l r ihl ihr =>
    rw [Cmd.map, Cmd.argvs, ihl, ihr, Cmd.argvs, List.map_append]

def Cmd.Fits (c : Cmd W) : Prop := ∀ argv ∈ c.argvs, argv.length < MAXARGS

theorem Line.fits {ts : List (Token W)} {c : Cmd W} (h : Line ts c) : c.Fits := by
  have hboth {c d : Cmd W} (hc : c.Fits) (hd : d.Fits) : ∀ argv ∈ c.argvs ++ d.argvs,
      argv.length < MAXARGS :=
    fun argv hargv => (List.mem_append.mp hargv).elim (hc argv) (hd argv)
  have hback {c : Cmd W} (n : Nat) (hc : c.Fits) : (Cmd.back^[n] c).Fits := by
    unfold Cmd.Fits
    rwa [Cmd.argvs_back]
  -- one case for every rule of the grammar
  refine @Line.rec W (fun _ c _ => c.Fits) (fun _ c _ => c.Fits) (fun _ c _ => c.Fits)
    ?_ ?_ ?_ ?_ ?_ ?_ ts c h
  · exact fun n _ hc => hback n hc
  · exact fun n _ _ hc hd => hboth (hback n hc) hd
  · exact fun _ hc => hc
  · exact fun _ _ hc hd => hboth hc hd
  · intro _ _ c rs _ _ hc
    unfold Cmd.Fits
    rwa [Cmd.argvs_wrap]
  · intro _ _ ws _ _ _ _ hmax argv hargv
    rw [Cmd.argvs_wrap] at hargv
    rw [List.mem_singleton.mp hargv]
    exact Nat.lt_of_le_of_lt hmax (by decide)

end Argvs

theorem Span.takeWhile_isWord (w : Span line) : (line.drop w.q.pos).takeWhile isWord = w.bytes := by
  rw [w.q.drop_pos, w.split, List.takeWhile_append_of_pos w.word]
  cases hrest : w.eq.text with
  | nil => exact List.append_nil _
  | cons a rest =>
    have ha := w.maximal a (by rw [hrest]; rfl)
    rw [List.takeWhile_cons_of_neg (by rw [ha]; exact Bool.false_ne_true), List.append_nil]

/-- For a line without NUL that is accepted: the string at every word of the tree is the
text of a token, with all its characters, and behind the arguments of every command there is
a 0 in its array. -/
theorem nulterminate_recovers_tokens (line : List Byte) (hnul : 0 ∉ line)
    (cmd : Cmd (Span line)) (mem : List Byte) (hok : parsecmd line = .ok (cmd, mem)) :
    (∀ w ∈ cmd.words, cstring mem w.q.pos = (line.drop w.q.pos).takeWhile isWord) ∧
    Line (lex [] line) (cmd.map fun w => cstring mem w.q.pos) ∧
    ∀ argv ∈ cmd.argvs, (slots argv).length = MAXARGS ∧ (slots argv)[argv.length]? = some none := by
  rcases parsecmd_outcome line with ⟨msg, hpanic, -⟩ | ⟨c, hok', htree⟩
  · rw [hpanic] at hok
    cases hok
  · obtain ⟨rfl, rfl⟩ := Prod.mk.inj (Except.ok.inj (hok'.symm.trans hok))
    have hline : Line (lex [] line) (c.map Span.bytes) := (htree _).mpr rfl
    refine ⟨fun w hw => (cstring_word hnul hw).trans w.takeWhile_isWord.symm, ?_, ?_⟩
    · rwa [Cmd.map_congr fun w hw => cstring_word hnul hw]
    · intro argv hargv
      have hlt : argv.length < MAXARGS := by
        have := hline.fits (argv.map Span.bytes)
          (by rw [Cmd.argvs_map]; exact List.mem_map_of_mem hargv)
        rwa [List.length_map] at this
      refine ⟨?_, ?_⟩
      · rw [slots, List.length_append, List.length_map, List.length_replicate]
        omega
      · rw [slots, List.getElem?_append_right (List.length_map ..).le, List.length_map,
          Nat.sub_self, List.getElem?_replicate_of_lt (Nat.sub_pos_of_lt hlt)]

/-- The line `a<b`. -/
theorem nulterminate_recovers_redirection :
    ∃ cmd mem, parsecmd [97, 60, 98] = .ok (cmd, mem) ∧ cmd.argvs.length = 1 ∧
      ∀ argv ∈ cmd.argvs, (slots argv)[argv.length]? = some none := by
  have hok : ∃ x, parsecmd [97, 60, 98] = .ok x ∧ x.1.argvs.length = 1 := ⟨_, rfl, rfl⟩
  obtain ⟨⟨cmd, mem⟩, hok, hlen⟩ := hok
  exact ⟨cmd, mem, hok, hlen, fun argv hargv =>
    ((nulterminate_recovers_tokens [97, 60, 98] (by decide) cmd mem hok).2.2 argv hargv).2⟩

end Sh

end Xv6
