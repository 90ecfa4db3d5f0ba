import Mathlib.Data.List.TakeWhile
import Xv6.Fs.State

/-!
# `grep`

The loop of `grep.c` over what successive calls of `read` return, and the matcher it uses.
A string is the list of its bytes in front of the NUL. A partial line in which still no newline
has been found is dropped.
-/

open List (append_assoc length_append length_cons mem_cons not_mem_nil)

namespace Xv6

namespace Grep

def newline : Byte := 10

/-! ## The matcher -/

/-- `matchstar`, with `matchhere` for the rest of the expression. -/
def matchstar (here : List Byte → Bool) (c : Byte) : List Byte → Bool
  | [] => here []
  | t :: text => here (t :: text) || ((t == c || c == 46) && matchstar here c text)

def matchhere : List Byte → List Byte → Bool
  | [], _ => true
  | [c], text =>
    if c == 36 then text == []
    else
      match text with
      | [] => false
      | t :: _ => c == 46 || c == t
  | c :: d :: re, text =>
    if d == 42 then matchstar (matchhere re) c text
    else
      match text with
      | [] => false
      | t :: text => (c == 46 || c == t) && matchhere (d :: re) text

/-- The loop of `match` over the suffixes of the text, the empty one included. -/
def matchAny (re : List Byte) : List Byte → Bool
  | [] => matchhere re []
  | t :: text => matchhere re (t :: text) || matchAny re text

def «match» (re text : List Byte) : Bool :=
  match re with
  | 94 :: re => matchhere re text
  | re => matchAny re text

/-! ## The loop -/

def BUFSIZE : Nat := 1024

/-- The inner loop, from `p` on: the lines that are written, and `p` after it. -/
def scan (pattern : List Byte) : Nat → List Byte → List (List Byte) × List Byte
  | 0, p => ([], p)
  | turns + 1, p =>
    match p.span (· != newline) with
    | (_, []) => ([], p)
    | (line, _ :: rest) =>
      let (out, p') := scan pattern turns rest
      (if «match» pattern line then (line ++ [newline]) :: out else out, p')

/-- The bytes that stay in the buffer after a turn in which it held `text`. -/
def keep (text p : List Byte) : List Byte := if p.length = text.length then [] else p

/-- The calls of `write` when `kept` is in the buffer and `read` returns `chunks`. -/
def grep (pattern : List Byte) : List (List Byte) → List Byte → List (List Byte)
  | [], _ => []
  | chunk :: chunks, kept =>
    let text := kept ++ chunk
    let (out, p) := scan pattern text.length text
    out ++ grep pattern chunks (keep text p)

/-- The chunks are not empty, and no larger than what `read` is asked for. Where the inner
loop stops does not depend on the pattern. -/
def Fits : List (List Byte) → List Byte → Prop
  | [], _ => True
  | chunk :: chunks, kept =>
    let text := kept ++ chunk
    chunk ≠ [] ∧ chunk.length ≤ BUFSIZE - kept.length - 1 ∧
      Fits chunks (keep text (scan [] text.length text).2)

instance decidableFits : (chunks : List (List Byte)) → (kept : List Byte) →
    Decidable (Fits chunks kept)
  | [], _ => .isTrue trivial
  | chunk :: chunks, kept =>
    have := decidableFits chunks
      (keep (kept ++ chunk) (scan [] (kept ++ chunk).length (kept ++ chunk)).2)
    inferInstanceAs (Decidable (_ ∧ _ ∧ _))

/-! ## Lines -/

def joined (lines : List (List Byte)) : List Byte := (lines.map (· ++ [newline])).flatten

@[simp] theorem joined_nil : joined [] = [] := rfl

@[simp] theorem joined_cons (line : List Byte) (lines : List (List Byte)) :
    joined (line :: lines) = line ++ newline :: joined lines := by
  simp [joined]

theorem joined_append (lines lines' : List (List Byte)) :
    joined (lines ++ lines') = joined lines ++ joined lines' := by
  simp [joined]

theorem length_le_joined (lines : List (List Byte)) : lines.length ≤ (joined lines).length := by
  induction lines with
  | nil => exact Nat.le_refl 0
  | cons line lines ih =>
    rw [joined_cons, length_append, length_cons, length_cons]
    omega

/-- `text` is complete lines and the beginning of another one. -/
structure Lines (text : List Byte) (lines : List (List Byte)) (tail : List Byte) : Prop where
  eq : text = joined lines ++ tail
  line : ∀ l ∈ lines, newline ∉ l
  tail : newline ∉ tail

variable {lines : List (List Byte)}

theorem Lines.cons {line text tail : List Byte}
    (hline : newline ∉ line) (h : Lines text lines tail) :
    Lines (line ++ newline :: text) (line :: lines) tail where
  eq := by rw [h.eq, joined_cons, append_assoc, List.cons_append]
  line := by
    intro l hl
    rcases mem_cons.mp hl with rfl | hl
    · exact hline
    · exact h.line l hl
  tail := h.tail

theorem Lines.append {text text' tail tail' : List Byte} {lines lines' : List (List Byte)}
    (h : Lines text lines tail) (h' : Lines (tail ++ text') lines' tail') :
    Lines (text ++ text') (lines ++ lines') tail' where
  eq := by rw [h.eq, append_assoc, h'.eq, joined_append, append_assoc]
  line := by
    intro l hl
    rcases List.mem_append.mp hl with hl | hl
    · exact h.line l hl
    · exact h'.line l hl
  tail := h'.tail

theorem exists_split {text : List Byte} (h : newline ∈ text) :
    ∃ line rest, text = line ++ newline :: rest ∧ newline ∉ line := by
  induction text with
  | nil => cases h
  | cons c text ih =>
    by_cases hc : c = newline
    · exact ⟨[], text, by rw [hc]; rfl, not_mem_nil⟩
    · have hmem : newline ∈ text := (mem_cons.mp h).resolve_left fun heq => hc heq.symm
      obtain ⟨line, rest, rfl, hline⟩ := ih hmem
      refine ⟨c :: line, rest, rfl, fun hin => ?_⟩
      rcases mem_cons.mp hin with heq | hin
      · exact hc heq.symm
      · exact hline hin

theorem exists_lines (text : List Byte) : ∃ lines tail, Lines text lines tail := by
  induction hn : text.length using Nat.strongRecOn generalizing text with
  | _ n ih =>
    by_cases hmem : newline ∈ text
    · obtain ⟨line, rest, rfl, hline⟩ := exists_split hmem
      have hlt : rest.length < n := by
        rw [← hn, length_append, length_cons]
        omega
      obtain ⟨lines, tail, h⟩ := ih rest.length hlt rest rfl
      exact ⟨line :: lines, tail, h.cons hline⟩
    · exact ⟨[], text, rfl, nofun, hmem⟩

theorem span_of_not_mem {text : List Byte} (h : newline ∉ text) :
    text.span (· != newline) = (text, []) := by
  rw [List.span_eq_takeWhile_dropWhile]
  have hall : ∀ c ∈ text, (c != newline) = true := by
    intro c hc
    rw [bne_iff_ne]
    rintro rfl
    exact h hc
  rw [List.takeWhile_eq_self_iff.mpr hall, List.dropWhile_eq_nil_iff.mpr hall]

theorem span_line {line rest : List Byte} (h : newline ∉ line) :
    (line ++ newline :: rest).span (· != newline) = (line, newline :: rest) := by
  rw [List.span_eq_takeWhile_dropWhile]
  have hall : ∀ c ∈ line, (c != newline) = true := by
    intro c hc
    rw [bne_iff_ne]
    rintro rfl
    exact h hc
  rw [List.takeWhile_append_of_pos hall, List.dropWhile_append_of_pos hall]
  simp

def matching (pattern : List Byte) (lines : List (List Byte)) : List (List Byte) :=
  (lines.filter («match» pattern)).map (· ++ [newline])

theorem matching_append (pattern : List Byte) (lines lines' : List (List Byte)) :
    matching pattern (lines ++ lines') = matching pattern lines ++ matching pattern lines' := by
  simp [matching]

theorem scan_lines (pattern : List Byte) {turns : Nat} {text tail : List Byte}
    (h : Lines text lines tail) (hturns : lines.length ≤ turns) :
    scan pattern turns text = (matching pattern lines, tail) := by
  induction lines generalizing turns text with
  | nil =>
    obtain rfl : text = tail := h.eq
    cases turns with
    | zero => rfl
    | succ turns =>
      unfold scan
      rw [span_of_not_mem h.tail]
      rfl
  | cons line lines ih =>
    cases turns with
    | zero => exact absurd hturns (Nat.not_succ_le_zero _)
    | succ turns =>
      have hline : newline ∉ line := h.line line List.mem_cons_self
      have hrest : Lines (joined lines ++ tail) lines tail :=
        ⟨rfl, fun l hl => h.line l (List.mem_cons_of_mem _ hl), h.tail⟩
      have htext : text = line ++ newline :: (joined lines ++ tail) := by
        rw [h.eq, joined_cons, append_assoc, List.cons_append]
      unfold scan
      rw [htext, span_line hline]
      dsimp only
      rw [ih hrest (Nat.le_of_succ_le_succ hturns)]
      unfold matching
      by_cases hm : «match» pattern line = true
      · rw [if_pos hm, List.filter_cons_of_pos hm, List.map_cons]
      · rw [if_neg hm, List.filter_cons_of_neg hm]

theorem Lines.length_le {text tail : List Byte}
    (h : Lines text lines tail) : lines.length ≤ text.length := by
  have := length_le_joined lines
  rw [h.eq, length_append]
  omega

theorem match_nil (text : List Byte) : «match» [] text = true := by
  cases text with
  | nil | cons c text => rfl

theorem matching_nil (lines : List (List Byte)) :
    matching [] lines = lines.map (· ++ [newline]) := by
  unfold matching
  rw [List.filter_eq_self.mpr fun l _ => match_nil l]

theorem Lines.unique {text tail tail' : List Byte} {lines lines' : List (List Byte)}
    (h : Lines text lines tail) (h' : Lines text lines' tail') : lines = lines' ∧ tail = tail' := by
  have heq := (scan_lines [] h h.length_le).symm.trans (scan_lines [] h' h'.length_le)
  rw [matching_nil, matching_nil, Prod.mk.injEq] at heq
  exact ⟨List.map_injective_iff.mpr (fun _ _ => List.append_cancel_right) heq.1, heq.2⟩

/-! ## Chunks -/

theorem grep_cons (pattern : List Byte) {chunk kept tail : List Byte}
    {chunks lines : List (List Byte)}
    (h : Lines (kept ++ chunk) lines tail) :
    grep pattern (chunk :: chunks) kept =
      matching pattern lines ++ grep pattern chunks (if lines = [] then [] else tail) := by
  have hturn : grep pattern (chunk :: chunks) kept =
      (scan pattern (kept ++ chunk).length (kept ++ chunk)).1 ++ grep pattern chunks
        (keep (kept ++ chunk) (scan pattern (kept ++ chunk).length (kept ++ chunk)).2) := rfl
  rw [hturn, scan_lines pattern h h.length_le]
  congr 2
  unfold keep
  cases lines with
  | nil =>
    have htail : kept ++ chunk = tail := h.eq
    rw [if_pos rfl, if_pos (congrArg List.length htail.symm)]
  | cons line lines =>
    rw [if_neg (List.cons_ne_nil _ _), if_neg]
    intro hlen
    have := congrArg List.length h.eq
    simp only [joined_cons, length_append, length_cons] at this hlen
    omega

theorem Lines.ne_nil {text tail : List Byte} (h : Lines text lines tail)
    (hmem : newline ∈ text) : lines ≠ [] := by
  rintro rfl
  rw [h.eq] at hmem
  exact h.tail hmem

theorem grep_lines (pattern : List Byte) (chunks : List (List Byte)) {kept tail : List Byte}
    (hchunks : ∀ c ∈ chunks, newline ∈ c)
    (h : Lines (kept ++ chunks.flatten) lines tail) (hkept : newline ∉ kept) :
    grep pattern chunks kept = matching pattern lines := by
  induction chunks generalizing kept lines tail with
  | nil =>
    have hnil : Lines (kept ++ ([] : List (List Byte)).flatten) [] kept :=
      ⟨by simp, nofun, hkept⟩
    rw [(h.unique hnil).1]
    rfl
  | cons chunk chunks ih =>
    obtain ⟨lines₁, tail₁, h₁⟩ := exists_lines (kept ++ chunk)
    obtain ⟨lines₂, tail₂, h₂⟩ := exists_lines (tail₁ ++ chunks.flatten)
    have hall : Lines (kept ++ (chunk :: chunks).flatten) (lines₁ ++ lines₂) tail₂ := by
      have := h₁.append h₂
      rwa [append_assoc] at this
    have hne : lines₁ ≠ [] :=
      h₁.ne_nil (List.mem_append_right _ (hchunks chunk List.mem_cons_self))
    rw [grep_cons pattern h₁, if_neg hne, (h.unique hall).1, matching_append,
      ih (fun c hc => hchunks c (List.mem_cons_of_mem _ hc)) h₂ h₁.tail]

theorem length_grep_nil (chunks : List (List Byte)) (kept : List Byte) :
    (grep [] chunks kept).flatten.length ≤ kept.length + chunks.flatten.length := by
  induction chunks generalizing kept with
  | nil => exact Nat.zero_le _
  | cons chunk chunks ih =>
    obtain ⟨lines, tail, h⟩ := exists_lines (kept ++ chunk)
    have hlen := congrArg List.length h.eq
    rw [length_append, length_append] at hlen
    have hrest := ih (if lines = [] then [] else tail)
    have hif : (if lines = [] then [] else tail).length ≤ tail.length := by
      split
      · exact Nat.zero_le _
      · exact Nat.le_refl _
    rw [grep_cons [] h, matching_nil, List.flatten_append, length_append, List.flatten_cons,
      length_append]
    change (joined lines).length + _ ≤ _
    omega

theorem length_grep_nil_lt (chunks : List (List Byte)) {kept : List Byte}
    (hne : ∀ c ∈ chunks, c ≠ []) (hkept : newline ∉ kept) (hlost : ∃ c ∈ chunks, newline ∉ c) :
    (grep [] chunks kept).flatten.length < kept.length + chunks.flatten.length := by
  induction chunks generalizing kept with
  | nil => simp at hlost
  | cons chunk chunks ih =>
    obtain ⟨lines, tail, h⟩ := exists_lines (kept ++ chunk)
    have hlen := congrArg List.length h.eq
    rw [length_append, length_append] at hlen
    have hne' : ∀ c ∈ chunks, c ≠ [] := fun c hc => hne c (List.mem_cons_of_mem _ hc)
    rw [grep_cons [] h, matching_nil, List.flatten_append, length_append, List.flatten_cons,
      length_append]
    change (joined lines).length + _ < _
    by_cases hmem : newline ∈ chunk
    · have hlost' : ∃ c ∈ chunks, newline ∉ c := by
        obtain ⟨c, hc, hno⟩ := hlost
        rcases mem_cons.mp hc with rfl | hc
        · exact absurd hmem hno
        · exact ⟨c, hc, hno⟩
      rw [if_neg (h.ne_nil (List.mem_append_right _ hmem))]
      have := ih hne' h.tail hlost'
      omega
    · have hnil : Lines (kept ++ chunk) [] (kept ++ chunk) :=
        ⟨rfl, nofun, fun hin => (List.mem_append.mp hin).elim hkept hmem⟩
      obtain ⟨rfl, rfl⟩ := h.unique hnil
      have hpos := List.length_pos_of_ne_nil (hne chunk List.mem_cons_self)
      have := length_grep_nil chunks []
      rw [if_pos rfl, joined_nil]
      simp only [List.length_nil] at this ⊢
      omega

theorem Fits.ne_nil {chunks : List (List Byte)} {kept : List Byte} (h : Fits chunks kept) :
    ∀ c ∈ chunks, c ≠ [] := by
  induction chunks generalizing kept with
  | nil => exact nofun
  | cons chunk chunks ih =>
    obtain ⟨hne, -, hrest⟩ := h
    intro c hc
    rcases mem_cons.mp hc with rfl | hc
    · exact hne
    · exact ih hrest c hc

/-- For a stream of lines that fit into the buffer, `grep` writes exactly the lines that match,
for every pattern, if and only if every call of `read` returns a newline. -/
theorem grep_independent_iff {lines chunks : List (List Byte)}
    (hlines : ∀ l ∈ lines, newline ∉ l ∧ 0 ∉ l ∧ l.length < BUFSIZE - 1)
    (hflat : chunks.flatten = joined lines) (hfits : Fits chunks []) :
    (∀ pattern, grep pattern chunks [] = matching pattern lines) ↔
      ∀ c ∈ chunks, newline ∈ c := by
  have hstream : Lines ([] ++ chunks.flatten) lines [] :=
    ⟨by simp [hflat], fun l hl => (hlines l hl).1, not_mem_nil⟩
  constructor
  · intro hall c hc
    by_contra hno
    have hlt := length_grep_nil_lt chunks hfits.ne_nil not_mem_nil ⟨c, hc, hno⟩
    rw [hall [], matching_nil, hflat] at hlt
    exact absurd hlt (by simp [joined])
  · intro hchunks pattern
    exact grep_lines pattern chunks hchunks hstream not_mem_nil

/-- Two lines that arrive with the end of the first one. -/
theorem grep_two_lines : grep [97] [[97, 10, 98], [97, 10]] [] = [[97, 10], [98, 97, 10]] := by
  have hfits : Fits [[97, 10, 98], [97, 10]] [] := by decide
  have hflat : [[97, 10, 98], [97, 10]].flatten = joined [[97], [98, 97]] := by decide
  have h := (grep_independent_iff (by decide) hflat hfits).mpr (by decide) [97]
  rw [h]
  decide

/-- The line `ab` arrives in two chunks, and is not found. -/
theorem grep_loses_line : Fits [[97], [98, 10]] [] ∧ [[97], [98, 10]].flatten = joined [[97, 98]] ∧
    grep [97] [[97], [98, 10]] [] = [] ∧ matching [97] [[97, 98]] = [[97, 98, 10]] := by
  decide

end Grep

end Xv6
