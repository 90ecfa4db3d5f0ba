import Xv6.Sh.Model

/-!
# The grammar of the shell

    line  -> pipe '&'* [';' line]
    pipe  -> exec ['|' pipe]
    exec  -> '(' line ')' redir* | redir* (word redir*)*
    redir -> ('<' | '>' | '>>') word

with fewer than `MAXARGS` words in an `exec`. Over a list of tokens the parser accepts what the
grammar derives, with the tree of the derivation, and panics where it derives nothing.
-/

open List (append_assoc cons_append length_append length_cons)

namespace Xv6

namespace Sh

variable {W : Type}

/-! ## Derivations -/

def Sym.redirect (w : W) : Sym → Option (Redir W)
  | .lt => some ⟨w, O_RDONLY, 0⟩
  | .gt => some ⟨w, O_WRONLY ||| O_CREATE, 1⟩
  | .gtgt => some ⟨w, O_WRONLY ||| O_CREATE, 1⟩
  | _ => none

/-- `redir*` -/
inductive Redirs : List (Token W) → List (Redir W) → Prop
  | nil : Redirs [] []
  | cons {y : Sym} {w : W} {r : Redir W} {ts : List (Token W)} {rs : List (Redir W)}
      (hr : y.redirect w = some r) (hrs : Redirs ts rs) :
      Redirs (.sym y :: .word w :: ts) (r :: rs)

/-- `(word redir*)*` -/
inductive Words : List (Token W) → List W → List (Redir W) → Prop
  | nil : Words [] [] []
  | cons {w : W} {us vs : List (Token W)} {ws : List W} {rs rs' : List (Redir W)}
      (hr : Redirs us rs) (hw : Words vs ws rs') :
      Words (.word w :: (us ++ vs)) (w :: ws) (rs ++ rs')

def Cmd.wrap (c : Cmd W) (rs : List (Redir W)) : Cmd W := rs.foldl .redir c

mutual

inductive Line : List (Token W) → Cmd W → Prop
  | last {ts : List (Token W)} {c : Cmd W} (n : Nat) (hp : Pipe ts c) :
      Line (ts ++ List.replicate n (.sym .amp)) (Cmd.back^[n] c)
  | seq {ts us : List (Token W)} {c d : Cmd W} (n : Nat) (hp : Pipe ts c) (hl : Line us d) :
      Line (ts ++ (List.replicate n (.sym .amp) ++ .sym .semi :: us)) (.list (Cmd.back^[n] c) d)

inductive Pipe : List (Token W) → Cmd W → Prop
  | last {ts : List (Token W)} {c : Cmd W} (he : Exec ts c) : Pipe ts c
  | seq {ts us : List (Token W)} {c d : Cmd W} (he : Exec ts c) (hp : Pipe us d) :
      Pipe (ts ++ .sym .bar :: us) (.pipe c d)

inductive Exec : List (Token W) → Cmd W → Prop
  | block {ts us : List (Token W)} {c : Cmd W} {rs : List (Redir W)} (hl : Line ts c)
      (hr : Redirs us rs) : Exec (.sym .lparen :: (ts ++ .sym .rparen :: us)) (c.wrap rs)
  | words {ts us : List (Token W)} {ws : List W} {rs rs' : List (Redir W)} (hr : Redirs ts rs)
      (hw : Words us ws rs') (hmax : ws.length ≤ MAXARGS - 1) :
      Exec (ts ++ us) ((Cmd.exec ws).wrap (rs ++ rs'))

end

/-! ## The tree while it is built -/

theorem Cmd.wrap_append (c : Cmd W) (rs rs' : List (Redir W)) :
    c.wrap (rs ++ rs') = (c.wrap rs).wrap rs' := List.foldl_append

theorem Cmd.addArg_wrap (c : Cmd W) (w : W) (rs : List (Redir W)) :
    (c.wrap rs).addArg w = (c.addArg w).wrap rs := by
  induction rs generalizing c with
  | nil => rfl
  | cons r rs ih => exact ih (.redir c r)

def Cmd.addArgs (c : Cmd W) (ws : List W) : Cmd W := ws.foldl (fun c w => c.addArg w) c

theorem Cmd.addArgs_wrap (c : Cmd W) (ws : List W) (rs : List (Redir W)) :
    (c.wrap rs).addArgs ws = (c.addArgs ws).wrap rs := by
  induction ws generalizing c with
  | nil => rfl
  | cons w ws ih =>
    rw [Cmd.addArgs, List.foldl_cons, Cmd.addArg_wrap]
    exact ih (c.addArg w)

theorem Cmd.addArgs_exec (vs ws : List W) : (Cmd.exec vs).addArgs ws = .exec (vs ++ ws) := by
  induction ws generalizing vs with
  | nil => rw [List.append_nil]; rfl
  | cons w ws ih =>
    rw [Cmd.addArgs, List.foldl_cons, List.append_cons]
    exact ih (vs ++ [w])

/-! ## A list of tokens as the source -/

def tokens (W : Type) : Source (List (Token W)) W where
  peek toks
    | .sym y :: ts => (toks.contains y.char, .sym y :: ts)
    | ts => (false, ts)
  gettoken
    | [] => (none, [])
    | t :: ts => (some t, ts)

@[simp] theorem peek_nil (toks : List Byte) : (tokens W).peek toks [] = (false, []) := rfl

@[simp] theorem peek_word (toks : List Byte) (w : W) (ts : List (Token W)) :
    (tokens W).peek toks (.word w :: ts) = (false, .word w :: ts) := rfl

@[simp] theorem peek_sym (toks : List Byte) (y : Sym) (ts : List (Token W)) :
    (tokens W).peek toks (.sym y :: ts) = (toks.contains y.char, .sym y :: ts) := rfl

@[simp] theorem gettoken_nil : (tokens W).gettoken [] = (none, []) := rfl

@[simp] theorem gettoken_cons (t : Token W) (ts : List (Token W)) :
    (tokens W).gettoken (t :: ts) = (some t, ts) := rfl

def Follows (l : List Sym) (ts : List (Token W)) : Prop := ∀ t ∈ ts.head?, ∃ y ∈ l, t = .sym y

variable {ts : List (Token W)}

theorem Follows.peek {l : List Sym} {toks : List Byte} (h : Follows l ts)
    (hl : ∀ y ∈ l, toks.contains y.char = false) : (tokens W).peek toks ts = (false, ts) := by
  cases ts with
  | nil => rfl
  | cons t ts =>
    obtain ⟨y, hy, rfl⟩ := h t rfl
    rw [peek_sym, hl y hy]

theorem Follows.mono {l l' : List Sym} (h : Follows l ts)
    (hl : ∀ y ∈ l, y ∈ l') : Follows l' ts := by
  intro t ht
  obtain ⟨y, hy, rfl⟩ := h t ht
  exact ⟨y, hl y hy, rfl⟩

theorem follows_cons {l : List Sym} {y : Sym} (hy : y ∈ l) (ts : List (Token W)) :
    Follows l (.sym y :: ts) := by
  rintro t ⟨rfl⟩
  exact ⟨y, hy, rfl⟩

/-! ## Redirections -/

theorem parseredirs_stop (n : Nat) (c : Cmd W)
    (h : (tokens W).peek [60, 62] ts = (false, ts)) :
    parseredirs (tokens W) (n + 1) c ts = .ok (c, ts) := by
  rw [parseredirs, h]

theorem redirect_iff {y : Sym} (w : W) :
    [60, 62].contains y.char = true ↔ ∃ r, y.redirect w = some r := by
  cases y <;> simp [Sym.char, Sym.redirect]

theorem parseredirs_word {y : Sym} {w : W} {r : Redir W} (n : Nat) (c : Cmd W)
    (ts : List (Token W)) (h : y.redirect w = some r) :
    parseredirs (tokens W) (n + 1) c (.sym y :: .word w :: ts) =
      parseredirs (tokens W) n (.redir c r) ts := by
  have hpeek := (redirect_iff w).mpr ⟨r, h⟩
  rw [parseredirs, peek_sym, hpeek]
  cases y <;> cases h <;> rfl

theorem parseredirs_outcome {n : Nat} (c : Cmd W) (hn : ts.length < n) :
    (∃ msg, parseredirs (tokens W) n c ts = .error (.panic msg)) ∨
      ∃ us rs rest, ts = us ++ rest ∧ Redirs us rs ∧
        parseredirs (tokens W) n c ts = .ok (c.wrap rs, rest) := by
  induction n generalizing c ts with
  | zero => omega
  | succ n ih =>
    have hnone (h : (tokens W).peek [60, 62] ts = (false, ts)) : ∃ us rs rest, ts = us ++ rest ∧
        Redirs us rs ∧ parseredirs (tokens W) (n + 1) c ts = .ok (c.wrap rs, rest) :=
      ⟨[], [], ts, rfl, .nil, parseredirs_stop n c h⟩
    match ts, hn, hnone with
    | [], _, hnone => exact Or.inr (hnone rfl)
    | .word w :: ts, _, hnone => exact Or.inr (hnone rfl)
    | .sym y :: ts, hn, hnone =>
      cases hy : [60, 62].contains y.char with
      | false => exact Or.inr (hnone (by rw [peek_sym, hy]))
      | true =>
        match ts, hn with
        | .word w :: ts, hn =>
          obtain ⟨r, hr⟩ := (redirect_iff w).mp hy
          rw [parseredirs_word n c ts hr]
          simp only [length_cons] at hn
          rcases ih (.redir c r) (show ts.length < n by omega) with hpanic |
            ⟨us, rs, rest, rfl, hrs, hok⟩
          · exact Or.inl hpanic
          · exact Or.inr ⟨.sym y :: .word w :: us, r :: rs, rest, rfl, .cons hr hrs, hok⟩
        | [], _ =>
          refine Or.inl ⟨"missing file for redirection", ?_⟩
          rw [parseredirs, peek_sym, hy]
          rfl
        | .sym z :: ts, _ =>
          refine Or.inl ⟨"missing file for redirection", ?_⟩
          rw [parseredirs, peek_sym, hy]
          rfl

variable {rs : List (Redir W)} {rest : List (Token W)}

theorem Redirs.parse {us : List (Token W)} (h : Redirs us rs)
    {n : Nat} (c : Cmd W)
    (hrest : (tokens W).peek [60, 62] rest = (false, rest)) (hn : us.length < n) :
    parseredirs (tokens W) n c (us ++ rest) = .ok (c.wrap rs, rest) := by
  induction h generalizing c n with
  | nil =>
    obtain ⟨n, rfl⟩ := Nat.exists_eq_add_one.mpr hn
    exact parseredirs_stop n c hrest
  | cons hr _ ih =>
    obtain ⟨n, rfl⟩ := Nat.exists_eq_add_one.mpr (Nat.zero_lt_of_lt hn)
    simp only [length_cons] at hn
    rw [cons_append, cons_append, parseredirs_word n c _ hr, ih _ (by omega)]
    rfl

/-! ## Arguments -/

theorem arguments_stop {n argc : Nat} (ret : Cmd W) (hargc : argc < MAXARGS)
    (h : Follows [.bar, .rparen, .amp, .semi] ts) :
    arguments (tokens W) (n + 1) argc ret ts = .ok (ret, ts) := by
  cases ts with
  | nil =>
    simp only [arguments, peek_nil, gettoken_nil]
    exact if_pos hargc
  | cons t ts =>
    obtain ⟨y, hy, rfl⟩ := h t rfl
    have hpeek : [124, 41, 38, 59].contains y.char = true := by
      simp only [List.mem_cons, List.not_mem_nil, or_false] at hy
      rcases hy with rfl | rfl | rfl | rfl <;> rfl
    rw [arguments, peek_sym, hpeek]
    exact if_pos hargc

theorem arguments_word {n argc : Nat} (ret : Cmd W) (w : W) (ts : List (Token W))
    (hargc : argc + 1 < MAXARGS) :
    arguments (tokens W) (n + 1) argc ret (.word w :: ts) =
      match parseredirs (tokens W) n (ret.addArg w) ts with
      | .error e => .error e
      | .ok (ret, s) => arguments (tokens W) n (argc + 1) ret s := by
  simp only [arguments, peek_word, gettoken_cons]
  rw [if_pos (by omega), if_neg (by omega)]
  rcases parseredirs (tokens W) n (ret.addArg w) ts with e | ⟨ret, s⟩ <;> rfl

/-- The loop takes all words and their redirections, and stops in front of a symbol that
does not belong to them. -/
theorem arguments_outcome {n argc : Nat} (ret : Cmd W)
    (hargc : argc < MAXARGS) (hn : ts.length < n) :
    (∃ msg, arguments (tokens W) n argc ret ts = .error (.panic msg)) ∨
      ∃ us ws rs rest, ts = us ++ rest ∧ Words us ws rs ∧ argc + ws.length < MAXARGS ∧
        arguments (tokens W) n argc ret ts = .ok ((ret.addArgs ws).wrap rs, rest) := by
  induction n generalizing argc ret ts with
  | zero => omega
  | succ n ih =>
    match ts, hn with
    | [], _ => exact Or.inr ⟨[], [], [], [], rfl, .nil, hargc, arguments_stop ret hargc nofun⟩
    | .sym y :: ts, _ =>
      cases hy : [124, 41, 38, 59].contains y.char with
      | true =>
        refine Or.inr ⟨[], [], [], .sym y :: ts, rfl, .nil, hargc, ?_⟩
        rw [arguments, peek_sym, hy]
        exact if_pos hargc
      | false =>
        refine Or.inl ⟨"syntax", ?_⟩
        rw [arguments, peek_sym, hy]
        rfl
    | .word w :: ts, hn =>
      simp only [length_cons] at hn
      by_cases hmax : argc + 1 < MAXARGS
      · rw [arguments_word ret w ts hmax]
        rcases parseredirs_outcome (ret.addArg w) (show ts.length < n by omega) with
          ⟨msg, hpanic⟩ | ⟨us, rs, rest, rfl, hrs, hok⟩
        · exact Or.inl ⟨msg, by rw [hpanic]⟩
        · rw [hok]
          rw [length_append] at hn
          rcases ih ((ret.addArg w).wrap rs) hmax (show rest.length < n by omega) with hpanic |
            ⟨vs, ws, rs', rest', rfl, hws, hlen, hargs⟩
          · exact Or.inl hpanic
          · refine Or.inr ⟨.word w :: (us ++ vs), w :: ws, rs ++ rs', rest', ?_, .cons hrs hws, ?_,
              ?_⟩
            · simp
            · rw [length_cons]
              omega
            · dsimp only
              rw [hargs, Cmd.addArgs_wrap, ← Cmd.wrap_append]
              rfl
      · refine Or.inl ⟨"too many args", ?_⟩
        simp only [arguments, peek_word, gettoken_cons]
        rw [if_pos hargc, if_pos (by omega)]

theorem Words.head_not_redirect {us rest : List (Token W)} {ws : List W}
    (h : Words us ws rs) (hrest : Follows [.bar, .rparen, .amp, .semi] rest) :
    (tokens W).peek [60, 62] (us ++ rest) = (false, us ++ rest) := by
  cases h with
  | nil => exact hrest.peek (by decide)
  | cons _ _ => rfl

theorem Words.parse {us : List (Token W)} {ws : List W} (h : Words us ws rs)
    {n argc : Nat} (ret : Cmd W)
    (hrest : Follows [.bar, .rparen, .amp, .semi] rest) (hargc : argc + ws.length < MAXARGS)
    (hn : us.length < n) :
    arguments (tokens W) n argc ret (us ++ rest) = .ok ((ret.addArgs ws).wrap rs, rest) := by
  induction h generalizing argc ret n with
  | nil =>
    obtain ⟨n, rfl⟩ := Nat.exists_eq_add_one.mpr hn
    exact arguments_stop ret hargc hrest
  | @cons w us vs ws rs rs' hr hw ih =>
    obtain ⟨n, rfl⟩ := Nat.exists_eq_add_one.mpr (Nat.zero_lt_of_lt hn)
    simp only [length_cons, length_append] at hn hargc
    rw [cons_append, append_assoc, arguments_word ret w _ (by omega),
      hr.parse (ret.addArg w) (hw.head_not_redirect hrest) (by omega)]
    dsimp only
    rw [ih ((ret.addArg w).wrap rs) (by omega) (by omega), Cmd.addArgs_wrap, ← Cmd.wrap_append]
    rfl

/-! ## `&` -/

theorem backs_stop (n : Nat) (c : Cmd W)
    (h : (tokens W).peek [38] ts = (false, ts)) :
    backs (tokens W) (n + 1) c ts = .ok (c, ts) := by
  rw [backs, h]

theorem backs_amp (n : Nat) (c : Cmd W) (ts : List (Token W)) :
    backs (tokens W) (n + 1) c (.sym .amp :: ts) = backs (tokens W) n (.back c) ts := rfl

theorem backs_outcome {n : Nat} (c : Cmd W) (hn : ts.length < n) :
    ∃ k rest, ts = List.replicate k (.sym .amp) ++ rest ∧
      backs (tokens W) n c ts = .ok (Cmd.back^[k] c, rest) := by
  induction n generalizing c ts with
  | zero => omega
  | succ n ih =>
    by_cases hamp : ∃ us, ts = .sym .amp :: us
    · obtain ⟨us, rfl⟩ := hamp
      rw [length_cons] at hn
      obtain ⟨k, rest, rfl, hok⟩ := ih (.back c) (show us.length < n by omega)
      exact ⟨k + 1, rest, rfl, hok⟩
    · refine ⟨0, ts, rfl, backs_stop n c ?_⟩
      match ts, hamp with
      | [], _ => rfl
      | .word w :: ts, _ => rfl
      | .sym y :: ts, hamp =>
        have hy : y ≠ .amp := fun h => hamp ⟨ts, by rw [h]⟩
        rw [peek_sym]
        cases y <;> first | rfl | exact absurd rfl hy

theorem backs_parse {n k : Nat} (c : Cmd W)
    (hrest : (tokens W).peek [38] rest = (false, rest)) (hn : k < n) :
    backs (tokens W) n c (List.replicate k (.sym .amp) ++ rest) = .ok (Cmd.back^[k] c, rest) := by
  induction k generalizing c n with
  | zero =>
    obtain ⟨n, rfl⟩ := Nat.exists_eq_add_one.mpr hn
    exact backs_stop n c hrest
  | succ k ih =>
    obtain ⟨n, rfl⟩ := Nat.exists_eq_add_one.mpr (Nat.zero_lt_of_lt hn)
    rw [List.replicate_succ, cons_append, backs_amp, ih _ (by omega)]
    rfl

/-! ## The parser is sound and stops -/

/-- A result over a list of tokens: a panic, or a tree for a part of the list in front. -/
def Parses (D : List (Token W) → Cmd W → Prop) (ts : List (Token W))
    (r : Except Fault (Cmd W × List (Token W))) : Prop :=
  (∃ msg, r = .error (.panic msg)) ∨ ∃ us c rest, ts = us ++ rest ∧ D us c ∧ r = .ok (c, rest)

theorem peek_cases (toks : List Byte) (ts : List (Token W)) :
    (tokens W).peek toks ts = (false, ts) ∨
      ∃ y us, ts = .sym y :: us ∧ toks.contains y.char = true ∧
        (tokens W).peek toks ts = (true, ts) := by
  match ts with
  | [] => exact Or.inl rfl
  | .word w :: ts => exact Or.inl rfl
  | .sym y :: ts =>
    cases hy : toks.contains y.char with
    | false => exact Or.inl (by rw [peek_sym, hy])
    | true => exact Or.inr ⟨y, ts, rfl, hy, by rw [peek_sym, hy]⟩

theorem parser_outcome (n : Nat) (ts : List (Token W)) :
    (4 * ts.length + 4 ≤ n → Parses Line ts (parseline (tokens W) n ts)) ∧
    (4 * ts.length + 3 ≤ n → Parses Pipe ts (parsepipe (tokens W) n ts)) ∧
    (4 * ts.length + 1 ≤ n → Parses Exec ts (parseblock (tokens W) n ts)) ∧
    (4 * ts.length + 2 ≤ n → Parses Exec ts (parseexec (tokens W) n ts)) := by
  induction n generalizing ts with
  | zero => omega
  | succ n ih =>
    refine ⟨fun hn => ?_, fun hn => ?_, fun hn => ?_, fun hn => ?_⟩
    · rw [parseline]
      rcases (ih ts).2.1 (by omega) with ⟨msg, hpanic⟩ | ⟨us, c, rest, rfl, hp, hok⟩
      · exact Or.inl ⟨msg, by rw [hpanic]⟩
      rw [hok]
      rw [length_append] at hn
      obtain ⟨k, rest, rfl, hback⟩ := backs_outcome c (show rest.length < n by omega)
      dsimp only
      rw [hback]
      dsimp only
      rcases peek_cases [59] rest with hpeek | ⟨y, vs, rfl, hy, hpeek⟩
      · rw [hpeek]
        exact Or.inr ⟨_, _, rest, (append_assoc ..).symm, .last k hp, rfl⟩
      · obtain rfl : y = .semi := by cases y <;> first | rfl | cases hy
        rw [hpeek]
        dsimp only [gettoken_cons]
        simp only [length_append, length_cons] at hn
        rcases (ih vs).1 (by omega) with ⟨msg, hpanic⟩ | ⟨us', d, rest', rfl, hl, hok'⟩
        · exact Or.inl ⟨msg, by rw [hpanic]⟩
        · rw [hok']
          exact Or.inr ⟨_, _, rest', by simp, .seq k hp hl, rfl⟩
    · rw [parsepipe]
      rcases (ih ts).2.2.2 (by omega) with ⟨msg, hpanic⟩ | ⟨us, c, rest, rfl, he, hok⟩
      · exact Or.inl ⟨msg, by rw [hpanic]⟩
      rw [hok]
      dsimp only
      rcases peek_cases [124] rest with hpeek | ⟨y, vs, rfl, hy, hpeek⟩
      · rw [hpeek]
        exact Or.inr ⟨us, c, rest, rfl, .last he, rfl⟩
      · obtain rfl : y = .bar := by cases y <;> first | rfl | cases hy
        rw [hpeek]
        dsimp only [gettoken_cons]
        simp only [length_append, length_cons] at hn
        rcases (ih vs).2.1 (by omega) with ⟨msg, hpanic⟩ | ⟨us', d, rest', rfl, hl, hok'⟩
        · exact Or.inl ⟨msg, by rw [hpanic]⟩
        · rw [hok']
          exact Or.inr ⟨_, _, rest', by simp, .seq he hl, rfl⟩
    · rw [parseblock]
      rcases peek_cases [40] ts with hpeek | ⟨y, vs, rfl, hy, hpeek⟩
      · exact Or.inl ⟨"parseblock", by rw [hpeek]⟩
      obtain rfl : y = .lparen := by cases y <;> first | rfl | cases hy
      rw [hpeek]
      dsimp only [gettoken_cons]
      simp only [length_cons] at hn
      rcases (ih vs).1 (by omega) with ⟨msg, hpanic⟩ | ⟨us, c, rest, rfl, hl, hok⟩
      · exact Or.inl ⟨msg, by rw [hpanic]⟩
      rw [hok]
      dsimp only
      rcases peek_cases [41] rest with hpeek | ⟨y, vs, rfl, hy, hpeek⟩
      · exact Or.inl ⟨"syntax - missing )", by rw [hpeek]⟩
      obtain rfl : y = .rparen := by cases y <;> first | rfl | cases hy
      rw [hpeek]
      dsimp only [gettoken_cons]
      simp only [length_append, length_cons] at hn
      rcases parseredirs_outcome c (show vs.length < n by omega) with hpanic |
        ⟨us', rs, rest, rfl, hrs, hok⟩
      · exact Or.inl hpanic
      · exact Or.inr ⟨_, _, rest, by simp, .block hl hrs, hok⟩
    · rw [parseexec]
      rcases peek_cases [40] ts with hpeek | ⟨y, vs, rfl, hy, hpeek⟩
      · rw [hpeek]
        dsimp only
        rcases parseredirs_outcome (.exec []) (show ts.length < n by omega) with
          ⟨msg, hpanic⟩ | ⟨us, rs, rest, rfl, hrs, hok⟩
        · exact Or.inl ⟨msg, by rw [hpanic]⟩
        rw [hok]
        dsimp only
        rw [length_append] at hn
        rcases arguments_outcome ((Cmd.exec []).wrap rs) (show 0 < MAXARGS by decide)
          (show rest.length < n by omega) with hpanic | ⟨vs, ws, rs', rest', rfl, hws, hmax, hargs⟩
        · exact Or.inl hpanic
        · refine Or.inr ⟨us ++ vs, (Cmd.exec ws).wrap (rs ++ rs'), rest', by simp,
            .words hrs hws (by omega), ?_⟩
          rw [hargs, Cmd.addArgs_wrap, ← Cmd.wrap_append, Cmd.addArgs_exec, List.nil_append]
      · rw [hpeek]
        exact (ih (.sym y :: vs)).2.2.1 (by omega)

/-! ## The parser is complete -/

theorem follows_amps (k : Nat) (h : Follows [.rparen, .semi] rest) :
    Follows [.rparen, .semi, .amp] (List.replicate k (.sym .amp) ++ rest) := by
  cases k with
  | zero => exact h.mono (by simp)
  | succ k => exact follows_cons (by simp) _

theorem Redirs.head_not_paren {us rest : List (Token W)} (h : Redirs us rs)
    (hrest : (tokens W).peek [40] rest = (false, rest)) :
    (tokens W).peek [40] (us ++ rest) = (false, us ++ rest) := by
  cases h with
  | nil => exact hrest
  | @cons y w r ts rs hr _ =>
    rw [cons_append, peek_sym]
    cases y <;> first | rfl | cases hr

theorem parser_complete (n : Nat) (us rest : List (Token W)) (c : Cmd W) :
    (Line us c → Follows [.rparen] rest → 4 * (us ++ rest).length + 4 ≤ n →
      parseline (tokens W) n (us ++ rest) = .ok (c, rest)) ∧
    (Pipe us c → Follows [.rparen, .semi, .amp] rest → 4 * (us ++ rest).length + 3 ≤ n →
      parsepipe (tokens W) n (us ++ rest) = .ok (c, rest)) ∧
    (Exec us c → Follows [.bar, .rparen, .amp, .semi] rest → 4 * (us ++ rest).length + 2 ≤ n →
      parseexec (tokens W) n (us ++ rest) = .ok (c, rest)) := by
  induction n using Nat.strongRecOn generalizing us rest c with
  | ind n ih =>
    refine ⟨fun h hrest hn => ?_, fun h hrest hn => ?_, fun h hrest hn => ?_⟩
    · obtain ⟨n, rfl⟩ : ∃ m, n = m + 1 := ⟨n - 1, by omega⟩
      cases h with
      | @last ts c k hp =>
        have hamps := follows_amps k (hrest.mono (by simp))
        rw [append_assoc] at hn ⊢
        rw [parseline, ((ih n (by omega)) ts _ c).2.1 hp hamps (by omega)]
        dsimp only
        simp only [length_append, List.length_replicate] at hn
        rw [backs_parse c (hrest.peek (by decide)) (by omega)]
        dsimp only
        rw [hrest.peek (by decide)]
      | @seq ts vs c d k hp hl =>
        have hsemi : Follows [.rparen, .semi] (Token.sym Sym.semi :: (vs ++ rest)) :=
          follows_cons (by simp) _
        have hamps := follows_amps k hsemi
        simp only [append_assoc, cons_append] at hn ⊢
        rw [parseline, ((ih n (by omega)) ts _ c).2.1 hp hamps (by omega)]
        dsimp only
        simp only [length_append, List.length_replicate, length_cons] at hn
        rw [backs_parse c rfl (by omega)]
        have hright := ((ih n (by omega)) vs rest d).1 hl hrest
          (by rw [length_append]; omega)
        dsimp only
        rw [peek_sym, show [59].contains Sym.semi.char = true from rfl]
        dsimp only [gettoken_cons]
        rw [hright]
    · obtain ⟨n, rfl⟩ : ∃ m, n = m + 1 := ⟨n - 1, by omega⟩
      cases h with
      | last he =>
        rw [parsepipe, ((ih n (by omega)) us rest c).2.2 he (hrest.mono (by simp)) (by omega)]
        dsimp only
        rw [hrest.peek (by decide)]
      | @seq ts vs c d he hp =>
        simp only [append_assoc, cons_append] at hn ⊢
        have hbar : Follows [.bar, .rparen, .amp, .semi] (Token.sym Sym.bar :: (vs ++ rest)) :=
          follows_cons (by simp) _
        rw [parsepipe, ((ih n (by omega)) ts _ c).2.2 he hbar (by omega)]
        dsimp only
        rw [peek_sym, show [124].contains Sym.bar.char = true from rfl]
        dsimp only [gettoken_cons]
        simp only [length_append, length_cons] at hn
        rw [((ih n (by omega)) vs rest d).2.1 hp hrest (by rw [length_append]; omega)]
    · obtain ⟨n, rfl⟩ : ∃ m, n = m + 2 := ⟨n - 2, by omega⟩
      cases h with
      | @block ts vs c rs hl hr =>
        simp only [append_assoc, cons_append] at hn ⊢
        have hopen : [40].contains Sym.lparen.char = true := rfl
        rw [parseexec, peek_sym, hopen]
        dsimp only
        rw [parseblock, peek_sym, hopen]
        dsimp only [gettoken_cons]
        simp only [length_append, length_cons] at hn
        have hclose : Follows [.rparen] (Token.sym Sym.rparen :: (vs ++ rest)) :=
          follows_cons (by simp) _
        rw [((ih n (by omega)) ts _ c).1 hl hclose
          (by simp only [length_append, length_cons]; omega)]
        dsimp only
        rw [peek_sym, show [41].contains Sym.rparen.char = true from rfl]
        exact hr.parse c (hrest.peek (by decide)) (by omega)
      | @words ts vs ws rs rs' hr hw hmax =>
        have hparen : (tokens W).peek [40] (vs ++ rest) = (false, vs ++ rest) := by
          cases hw with
          | nil => exact hrest.peek (by decide)
          | cons _ _ => rfl
        rw [append_assoc] at hn ⊢
        rw [parseexec, hr.head_not_paren hparen]
        dsimp only
        simp only [length_append] at hn
        rw [hr.parse (.exec []) (hw.head_not_redirect hrest) (by omega)]
        dsimp only
        rw [hw.parse _ hrest (by unfold MAXARGS at *; omega) (by omega), Cmd.addArgs_wrap,
          ← Cmd.wrap_append, Cmd.addArgs_exec, List.nil_append]

end Sh

end Xv6
