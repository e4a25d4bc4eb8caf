import Mathlib.Data.List.TakeWhile

/-! Strings of bytes as C reads them, and lines as `fgets` gives them. -/

namespace Lunaria.CText
open List Nat

def newline : UInt8 := 10

/-- The bytes of an ASCII text. -/
def lit (s : String) : List UInt8 := s.toList.map fun c => UInt8.ofNat c.toNat

/-- `tolower`. -/
def toLower (c : UInt8) : UInt8 := if 0x41 ≤ c ∧ c ≤ 0x5a then c + 0x20 else c

/-- `isspace`. -/
def isSpace (c : UInt8) : Bool := c = 32 ∨ (9 ≤ c ∧ c ≤ 13)

/-- The string that a pointer to these bytes is. -/
def cstr (bytes : List UInt8) : List UInt8 := bytes.takeWhile fun b => b ≠ 0

theorem cstr_of_not_mem {s : List UInt8} (h : 0 ∉ s) : cstr s = s := by
  rw [cstr, takeWhile_eq_self_iff]
  exact fun c hc => decide_eq_true fun h0 => h (h0 ▸ hc)

theorem not_mem_cstr {s : List UInt8} : 0 ∉ cstr s := by
  intro h
  have := mem_takeWhile_imp h
  simp at this

/-- The tokens that `strtok` finds one after the other. -/
def tokens (p : UInt8 → Bool) (s : List UInt8) : List (List UInt8) := (s.splitOnP p).filter fun w => w ≠ []

/-- The first word as `%s` reads it, and what follows it. -/
def firstWord (s : List UInt8) : List UInt8 := (s.dropWhile isSpace).takeWhile fun c => !isSpace c

def skipWord (s : List UInt8) : List UInt8 := (s.dropWhile isSpace).dropWhile fun c => !isSpace c

/-- `fgets`: what is read of at most so many bytes, and what is left. -/
def fgets : Nat → List UInt8 → List UInt8 × List UInt8
  | 0, data => ([], data)
  | _ + 1, [] => ([], [])
  | room + 1, c :: data => if c = newline then ([c], data) else (c :: (fgets room data).1, (fgets room data).2)

def fgetsLoop (size : Nat) : Nat → List UInt8 → List (List UInt8)
  | 0, _ => []
  | fuel + 1, data =>
    if data = [] then [] else (fgets (size - 1) data).1 :: fgetsLoop size fuel (fgets (size - 1) data).2

/-- What the calls of `fgets` with a buffer of some size read. -/
def readLines (size : Nat) (file : List UInt8) : List (List UInt8) := fgetsLoop size file.length file

section Lines
variable {size : Nat} {line data : List UInt8} {lines : List (List UInt8)}

attribute [local simp] fgets fgetsLoop

theorem fgets_line : ∀ {line : List UInt8} {room : Nat}, newline ∉ line → line.length < room → ∀ rest,
    fgets room (line ++ newline :: rest) = (line ++ [newline], rest)
  | [], room + 1, _, _, rest => by
    rw [nil_append, fgets, if_pos rfl]
    rfl
  | c :: line, room + 1, hline, hroom, rest => by
    have hc : c ≠ newline := fun h => hline (h ▸ mem_cons_self)
    rw [cons_append, fgets, if_neg hc,
      fgets_line (fun h => hline (mem_cons_of_mem _ h)) (lt_of_succ_lt_succ hroom)]
    rfl

theorem fgets_last : ∀ {line : List UInt8} {room : Nat}, newline ∉ line → line.length ≤ room → fgets room line = (line, [])
  | [], 0, _, _ => rfl
  | [], _ + 1, _, _ => rfl
  | c :: line, room + 1, hline, hroom => by
    have hc : c ≠ newline := fun h => hline (h ▸ mem_cons_self)
    rw [fgets, if_neg hc, fgets_last (fun h => hline (mem_cons_of_mem _ h)) (le_of_succ_le_succ hroom)]

theorem fgets_long : ∀ {line : List UInt8} {room : Nat}, newline ∉ line → room ≤ line.length → ∀ rest,
    fgets room (line ++ rest) = (line.take room, line.drop room ++ rest)
  | line, 0, _, _, rest => by rw [fgets, take_zero, drop_zero]
  | c :: line, room + 1, hline, hroom, rest => by
    have hc : c ≠ newline := fun h => hline (h ▸ mem_cons_self)
    rw [cons_append, fgets, if_neg hc,
      fgets_long (fun h => hline (mem_cons_of_mem _ h)) (le_of_succ_le_succ hroom) rest]
    rfl

theorem fgets_rest_length : ∀ {room : Nat} {data : List UInt8}, (fgets room data).2.length ≤ data.length
  | 0, _ => le_rfl
  | _ + 1, [] => le_rfl
  | room + 1, c :: data => by
    rw [fgets]
    split
    · exact le_succ _
    · exact (fgets_rest_length).trans (le_succ _)

theorem fgets_rest_lt {room : Nat} (hroom : 0 < room) (hdata : data ≠ []) : (fgets room data).2.length < data.length := by
  obtain ⟨room, rfl⟩ := exists_eq_succ_of_ne_zero hroom.ne'
  cases data with
  | nil => exact absurd rfl hdata
  | cons c data =>
    rw [fgets]
    split
    · exact lt_succ_self _
    · exact lt_succ_of_le fgets_rest_length

theorem fgetsLoop_fuel (hsize : 2 ≤ size) : ∀ {fuel fuel' : Nat} {data : List UInt8}, data.length ≤ fuel →
    data.length ≤ fuel' → fgetsLoop size fuel data = fgetsLoop size fuel' data
  | 0, fuel', data, h, _ => by
    obtain rfl := length_eq_zero_iff.1 (Nat.le_zero.1 h)
    cases fuel' <;> rfl
  | fuel + 1, 0, data, _, h => by
    obtain rfl := length_eq_zero_iff.1 (Nat.le_zero.1 h)
    rfl
  | fuel + 1, fuel' + 1, data, h, h' => by
    rw [fgetsLoop, fgetsLoop]
    by_cases hdata : data = []
    · rw [if_pos hdata, if_pos hdata]
    · have hlt := fgets_rest_lt (Nat.sub_pos_of_lt hsize) hdata
      rw [if_neg hdata, if_neg hdata]
      exact congrArg _ (fgetsLoop_fuel hsize (le_of_lt_succ (hlt.trans_le h)) (le_of_lt_succ (hlt.trans_le h')))

theorem readLines_nil : readLines size [] = [] := rfl

theorem readLines_of_ne (hsize : 2 ≤ size) (hdata : data ≠ []) :
    readLines size data = (fgets (size - 1) data).1 :: readLines size (fgets (size - 1) data).2 := by
  have hlt := fgets_rest_lt (Nat.sub_pos_of_lt hsize) hdata
  have hfuel : data.length = (data.length - 1) + 1 := (Nat.sub_add_cancel (length_pos_iff.2 hdata)).symm
  unfold readLines
  rw [hfuel, fgetsLoop, if_neg hdata]
  refine congrArg _ (fgetsLoop_fuel hsize ?_ le_rfl)
  exact le_sub_one_of_lt hlt

/-- A line that the buffer holds, with its end. -/
def Fits (size : Nat) (line : List UInt8) : Prop := newline ∉ line ∧ 0 ∉ line ∧ line.length + 1 < size

theorem Fits.mono {line' : List UInt8} (h : Fits size line) (hline : line' <+: line) : Fits size line' :=
  ⟨fun hmem => h.1 (hline.subset hmem), fun hmem => h.2.1 (hline.subset hmem),
    (Nat.add_le_add_right hline.length_le 1).trans_lt h.2.2⟩

def unlines (lines : List (List UInt8)) : List UInt8 := lines.flatMap fun line => line ++ [newline]

theorem readLines_unlines (hsize : 2 ≤ size) : ∀ {lines : List (List UInt8)}, (∀ line ∈ lines, Fits size line) → ∀ rest,
    readLines size (unlines lines ++ rest) = lines.map (fun line => line ++ [newline]) ++ readLines size rest
  | [], _, _ => rfl
  | line :: lines, h, rest => by
    have hline := h line mem_cons_self
    have hdata : unlines (line :: lines) ++ rest = line ++ newline :: (unlines lines ++ rest) := by simp [unlines]
    rw [hdata, readLines_of_ne hsize (by simp), fgets_line hline.1 (lt_sub_of_add_lt hline.2.2)]
    rw [readLines_unlines hsize fun l hl => h l (mem_cons_of_mem _ hl)]
    rfl

theorem splitOn_line {rest : List UInt8} (h : newline ∉ line) :
    (line ++ newline :: rest).splitOn newline = line :: rest.splitOn newline := by
  rw [splitOn_append_cons_self, splitOn_eq_singleton h, singleton_append]

theorem exists_lines (file : List UInt8) : ∃ lines last, file = unlines lines ++ last ∧
    file.splitOn newline = lines ++ [last] ∧ (∀ line ∈ lines, newline ∉ line) ∧ newline ∉ last := by
  induction hn : file.length using Nat.strong_induction_on generalizing file with
  | _ n ih =>
    by_cases hmem : newline ∈ file
    · obtain ⟨line, rest, rfl, hline⟩ := eq_append_cons_of_mem hmem
      obtain ⟨lines, last, rfl, hsplit, hlines, hlast⟩ := ih rest.length (by subst hn; simp; omega) rest rfl
      refine ⟨line :: lines, last, by simp [unlines], ?_, ?_, hlast⟩
      · rw [splitOn_line hline, hsplit, cons_append]
      · exact forall_mem_cons.2 ⟨hline, hlines⟩
    · exact ⟨[], file, rfl, splitOn_eq_singleton hmem, by simp, hmem⟩

inductive Cuts (room : Nat) : List UInt8 → List (List UInt8) → Prop
  | none : Cuts room [] []
  | done {line tail : List UInt8} (h : line.length < room) (htail : tail = [] ∨ tail = [newline]) :
      Cuts room line [line ++ tail]
  | more {line : List UInt8} {pieces : List (List UInt8)} (h : room ≤ line.length)
      (hrest : Cuts room (line.drop room) pieces) : Cuts room line (line.take room :: pieces)

theorem readLines_cuts (hsize : 2 ≤ size) {line : List UInt8} (h : newline ∉ line) (rest : List UInt8) :
    ∃ pieces, readLines size (line ++ newline :: rest) = pieces ++ readLines size rest ∧ Cuts (size - 1) line pieces := by
  induction hn : line.length using Nat.strong_induction_on generalizing line with
  | _ n ih =>
    have hne : line ++ newline :: rest ≠ [] := by simp
    rw [readLines_of_ne hsize hne]
    by_cases hlen : line.length < size - 1
    · rw [fgets_line h hlen]
      exact ⟨[line ++ [newline]], rfl, .done hlen (.inr rfl)⟩
    · rw [fgets_long h (Nat.le_of_not_lt hlen)]
      have hlt : (line.drop (size - 1)).length < n := by
        rw [length_drop]
        omega
      obtain ⟨pieces, heq, hcuts⟩ := ih _ hlt (fun hmem => h (drop_subset _ _ hmem)) rfl
      exact ⟨line.take (size - 1) :: pieces, by rw [heq]; rfl, .more (Nat.le_of_not_lt hlen) hcuts⟩

theorem readLines_cuts_last (hsize : 2 ≤ size) {line : List UInt8} (h : newline ∉ line) :
    Cuts (size - 1) line (readLines size line) := by
  induction hn : line.length using Nat.strong_induction_on generalizing line with
  | _ n ih =>
    by_cases hne : line = []
    · subst hne
      exact .none
    rw [readLines_of_ne hsize hne]
    by_cases hlen : line.length < size - 1
    · rw [fgets_last h (Nat.le_of_lt hlen), readLines_nil]
      have hdone := Cuts.done hlen (.inl rfl)
      rwa [append_nil] at hdone
    · have hlong := fgets_long h (Nat.le_of_not_lt hlen) []
      rw [append_nil, append_nil] at hlong
      rw [hlong]
      have hlt : (line.drop (size - 1)).length < n := by
        have := length_pos_iff.2 hne
        rw [length_drop]
        omega
      exact .more (Nat.le_of_not_lt hlen) (ih _ hlt (fun hmem => h (drop_subset _ _ hmem)) rfl)

theorem readLines_mem (hsize : 2 ≤ size) {data line : List UInt8} (h : line ∈ data.splitOn newline) :
    ∃ before pieces after, readLines size data = before ++ (pieces ++ after) ∧ Cuts (size - 1) line pieces := by
  induction hn : data.length using Nat.strong_induction_on generalizing data with
  | _ n ih =>
    by_cases hmem : newline ∈ data
    · obtain ⟨first, rest, rfl, hfirst⟩ := eq_append_cons_of_mem hmem
      obtain ⟨pieces, hread, hcuts⟩ := readLines_cuts hsize hfirst rest
      rw [splitOn_line hfirst] at h
      rcases mem_cons.1 h with rfl | h
      · exact ⟨[], pieces, _, hread, hcuts⟩
      · obtain ⟨before, pieces', after, heq, hcuts'⟩ := ih rest.length (by subst hn; simp; omega) h rfl
        exact ⟨pieces ++ before, pieces', after, by rw [hread, heq, append_assoc], hcuts'⟩
    · rw [splitOn_eq_singleton hmem] at h
      obtain rfl := mem_singleton.1 h
      exact ⟨[], _, [], by rw [append_nil]; rfl, readLines_cuts_last hsize hmem⟩

/-! ### Tokens -/

section Tokens
variable {p : UInt8 → Bool} {s t : List UInt8}

theorem flatten_splitOnP : ∀ s : List UInt8, (s.splitOnP p).flatten = s.filter fun c => !p c
  | [] => rfl
  | c :: s => by
    rw [splitOnP_cons_eq_if_modifyHead]
    cases hc : p c with
    | true =>
      rw [if_pos rfl, flatten_cons, nil_append, flatten_splitOnP s, filter_cons_of_neg (by simp [hc])]
    | false =>
      rw [if_neg Bool.false_ne_true, filter_cons_of_pos (by simp [hc]), ← flatten_splitOnP s]
      obtain ⟨w, ws, hws⟩ := exists_cons_of_ne_nil (splitOnP_ne_nil p s)
      rw [hws]
      rfl

theorem flatten_tokens (s : List UInt8) : (tokens p s).flatten = s.filter fun c => !p c := by
  rw [← flatten_splitOnP, tokens]
  induction s.splitOnP p with
  | nil => rfl
  | cons w ws ih =>
    by_cases hw : w = []
    · rw [filter_cons_of_neg (by simp [hw]), ih, hw]
      rfl
    · rw [filter_cons_of_pos (by simp [hw]), flatten_cons, flatten_cons, ih]

theorem tokens_cons_sep {c : UInt8} (hc : p c = true) (s : List UInt8) : tokens p (c :: s) = tokens p s := by
  rw [tokens, splitOnP_cons_eq_if_modifyHead, if_pos hc]
  exact filter_cons_of_neg (by simp)

/-- Any other character is a word of its own or begins the first word of what follows. -/
theorem tokens_cons_word {c : UInt8} (hc : p c = false) (s : List UInt8) : (∃ ws, tokens p (c :: s) = [c] :: ws) ∨
    ∃ w ws, tokens p s = w :: ws ∧ tokens p (c :: s) = (c :: w) :: ws := by
  obtain ⟨w, ws, hsplit⟩ := exists_cons_of_ne_nil (splitOnP_ne_nil p s)
  have hcons : tokens p (c :: s) = (c :: w) :: ws.filter fun w => decide (w ≠ []) := by
    rw [tokens, splitOnP_cons_eq_if_modifyHead, hc, if_neg Bool.false_ne_true, hsplit, modifyHead_cons]
    exact filter_cons_of_pos (by simp)
  by_cases hw : w = []
  · exact .inl ⟨_, hw ▸ hcons⟩
  · refine .inr ⟨w, _, ?_, hcons⟩
    rw [tokens, hsplit]
    exact filter_cons_of_pos (by simpa using hw)

/-- Separators in front of a text change nothing. -/
theorem tokens_append_left (h : ∀ c ∈ t, p c = true) (s : List UInt8) : tokens p (t ++ s) = tokens p s := by
  induction t with
  | nil => rfl
  | cons c t ih =>
    rw [cons_append, tokens_cons_sep (h c mem_cons_self), ih fun d hd => h d (mem_cons_of_mem _ hd)]

theorem tokens_sep (h : ∀ c ∈ t, p c = true) : tokens p t = [] := by
  rw [← append_nil t, tokens_append_left h]
  rfl

/-- Nor do separators behind it. -/
theorem tokens_append_right (h : ∀ c ∈ t, p c = true) (s : List UInt8) : tokens p (s ++ t) = tokens p s := by
  cases t with
  | nil => rw [append_nil]
  | cons c t =>
    have hsplit : (s ++ c :: t).splitOnP p = s.splitOnP p ++ t.splitOnP p :=
      splitOnP_append_cons s t (h c mem_cons_self)
    have ht := tokens_sep fun d hd => h d (mem_cons_of_mem _ hd)
    rw [tokens] at ht ⊢
    rw [hsplit, filter_append, ht, append_nil]
    rfl

end Tokens

end Lines

end Lunaria.CText
