import Lunaria.Apk.Config
import Lunaria.Lib.Trimming

/-! When a setting that `conf_set` saves is read back. The three readers agree on the lines: `conf_set` edits the last
    line of the key before the first bracket, and the others take the first. -/

namespace Lunaria.Apk
open CText Trimming List Option Function

/-! ### Blanks -/

section Blanks
variable {s : List UInt8}

theorem trim_stripEnd : trim (stripEnd s) = trim s := by
  refine strip_rdropWhile ?_ s
  intro c hc
  rcases of_decide_eq_true hc with rfl | rfl <;> decide

theorem trim_append_newline : trim (s ++ [newline]) = trim s := strip_concat (by decide) s

end Blanks

/-! ### What a line says -/

section Lines
variable {key line value : List UInt8} {lines : List (List UInt8)}

variable {line' : List UInt8}

theorem confLineKey_congr (h : trim line = trim line') : confLineKey line = confLineKey line' := by
  rw [confLineKey, confLineKey, h]

theorem lineValue_congr (h : trim line = trim line') : lineValue key line = lineValue key line' := by
  rw [lineValue, lineValue, confLineKey_congr h]

theorem bracket_congr (h : trim line = trim line') : bracket line = bracket line' := by
  rw [bracket, bracket, h]

theorem trim_cstr_stripEnd : trim (stripEnd (cstr line)) = trim (cstr line) := trim_stripEnd

theorem splitEq_append {rest : List UInt8} (h : ch '=' ∉ key) : splitEq (key ++ ch '=' :: rest) = some (key, rest) := by
  have hkey : ∀ c ∈ key, decide (c ≠ ch '=') = true := fun c hc => decide_eq_true fun h' => h (h' ▸ hc)
  rw [splitEq, if_pos (by simp), takeWhile_append_of_pos hkey, dropWhile_append_of_pos hkey]
  rw [takeWhile_cons_of_neg (by simp), dropWhile_cons_of_neg (by simp), append_nil, tail_cons]

theorem splitEq_eq_some {s k v : List UInt8} (h : splitEq s = some (k, v)) : s = k ++ ch '=' :: v := by
  obtain ⟨hmem, ⟨⟩⟩ := ite_none_right_eq_some.1 h
  have hne : s.dropWhile (fun c => decide (c ≠ ch '=')) ≠ [] := by
    intro hnil
    have hall := dropWhile_eq_nil_iff.1 hnil _ hmem
    simp at hall
  have hhead : (s.dropWhile fun c => decide (c ≠ ch '=')).head hne = ch '=' := by
    have := head_dropWhile_not (fun c => decide (c ≠ ch '=')) hne
    simpa using this
  conv_lhs => rw [← takeWhile_append_dropWhile (p := fun c => decide (c ≠ ch '=')) (l := s)]
  rw [← cons_head_tail hne, hhead, tail_cons]

theorem unquote_length (s : List UInt8) : (unquote s).length ≤ s.length := by
  rw [unquote]
  split
  · rw [length_dropLast, length_tail]
    omega
  · exact le_rfl

theorem lineValue_length (h : lineValue key line = some value) : key.length + value.length + 1 ≤ line.length := by
  rw [lineValue] at h
  obtain ⟨⟨k, v⟩, hkv, hif⟩ := bind_eq_some_iff.1 h
  dsimp only at hif
  split at hif
  swap
  · cases hif
  next hk =>
  cases hif
  dsimp only [confLineKey] at hkv
  split at hkv
  · cases hkv
  obtain ⟨⟨k', v'⟩, hsplit, ⟨⟩⟩ := map_eq_some_iff.1 hkv
  have hlen := congrArg List.length (splitEq_eq_some hsplit)
  have htrim : (trim line).length ≤ line.length := strip_sublist.length_le
  have hkey : (trim k').length ≤ k'.length := strip_sublist.length_le
  have hvalue : (unquote (trim v')).length ≤ v'.length := (unquote_length _).trans strip_sublist.length_le
  rw [length_append, length_cons] at hlen
  rw [← hk]
  dsimp only
  omega

/-! ### The readers on lines -/

theorem common_cons : common (line :: lines) = if bracket line then [] else line :: common lines := by
  rw [common, takeWhile_cons]
  cases bracket line <;> rfl

theorem confGetLoop_eq : ∀ {lines : List (List UInt8)}, confGetLoop key lines =
    (keyValues key (common (lines.map fun line => stripEnd (cstr line)))).head?
  | [] => rfl
  | line :: lines => by
    rw [map_cons, confGetLoop, common_cons, bracket_congr (trim_cstr_stripEnd)]
    split
    · rfl
    · rw [keyValues, filterMap_cons, lineValue_congr (trim_cstr_stripEnd)]
      cases lineValue key (cstr line) with
      | none => exact confGetLoop_eq
      | some v => rfl

/-- A value in a buffer, if there is one and it fits. -/
def hold (cap : Nat) : Option (List UInt8) → List UInt8
  | some value => if value.length < cap then value else []
  | none => []

theorem confGet_eq (file : Option (List UInt8)) (cap : Nat) :
    confGet file key cap = hold cap (keyValues key (common (confLines file))).head? := by
  cases file with
  | none => rfl
  | some data => rw [confGet, bind_some, confGetLoop_eq]; rfl

theorem configLine_congr (h : trim (cstr line) = trim (cstr line')) (package : Option (List UInt8))
    (s : Loading) : configLine package line s = configLine package line' s := by
  rw [configLine, configLine, h]

theorem not_mem_stripEnd_cstr : 0 ∉ stripEnd (cstr line) := fun h =>
  not_mem_cstr (( rdropWhile_prefix _ _).subset h)

theorem configLoop_eq {package : Option (List UInt8)} : ∀ {lines : List (List UInt8)} (s : Loading),
    (∀ line ∈ lines, tooLong line = false) → configLoop package lines s =
      ((lines.map fun line => stripEnd (cstr line)).foldl (fun s line => configLine package line s) s, true)
  | [], _, _ => rfl
  | line :: lines, s, h => by
    have hline : trim (cstr (stripEnd (cstr line))) = trim (cstr line) := by
      rw [cstr_of_not_mem not_mem_stripEnd_cstr, trim_stripEnd]
    rw [configLoop, h line mem_cons_self, if_neg Bool.false_ne_true, map_cons, foldl_cons,
      configLine_congr hline]
    exact configLoop_eq _ fun l hl => h l (mem_cons_of_mem _ hl)

theorem not_mem_line (h : Fits apkMeta line) : 0 ∉ line ++ [newline] := by
  rw [mem_append, mem_singleton]
  exact not_or.2 ⟨h.2.1, by decide⟩

theorem tooLong_line (h : Fits apkMeta line) : tooLong (line ++ [newline]) = false := by
  rw [tooLong, cstr_of_not_mem (not_mem_line h)]
  simp

theorem tooLong_last (h : Fits apkMeta line) : tooLong line = false := by
  refine decide_eq_false fun hlong => hlong.2 ⟨h.1, Nat.lt_sub_of_add_lt h.2.2⟩

theorem stripEnd_newline : stripEnd (line ++ [newline]) = stripEnd line := rdropWhile_concat_pos _ _ _ (by decide)

theorem stripEnd_prefix : stripEnd line <+: line := rdropWhile_prefix _ _

theorem apkMeta_two : 2 ≤ apkMeta := by decide

theorem readLines_last (h : Fits apkMeta line) : readLines apkMeta line = if line = [] then [] else [line] := by
  by_cases hline : line = []
  · subst hline
    rfl
  · rw [readLines_of_ne apkMeta_two hline, fgets_last h.1 (Nat.le_of_lt (Nat.lt_sub_of_add_lt h.2.2)), if_neg hline]
    rfl

theorem FitsLines.read {data : List UInt8} (h : FitsLines data) :
    (∀ line ∈ readLines apkMeta data, tooLong line = false) ∧ ∀ line ∈ confLines (some data), Fits apkMeta line := by
  obtain ⟨lines, last, rfl, hsplit, hends, hlastEnd⟩ := exists_lines data
  have hzero : ∀ line ∈ lines ++ [last], 0 ∉ line := by
    intro line hline hz
    refine h.1 ?_
    rcases mem_append.1 hline with hline | hline
    · exact mem_append_left _ (mem_flatMap.2 ⟨line, hline, mem_append_left _ hz⟩)
    · exact mem_append_right _ (mem_singleton.1 hline ▸ hz)
  have hlines : ∀ line ∈ lines, Fits apkMeta line := fun line hline =>
    ⟨hends line hline, hzero line (mem_append_left _ hline), h.2 line (hsplit ▸ mem_append_left _ hline)⟩
  have hlast : Fits apkMeta last := ⟨hlastEnd, hzero last (mem_append_right _ (mem_singleton_self _)),
    h.2 last (hsplit ▸ mem_append_right _ (mem_singleton_self _))⟩
  have hread : ∀ line ∈ readLines apkMeta (unlines lines ++ last), ∃ l, Fits apkMeta l ∧
      (line = l ++ [newline] ∨ line = l) := by
    intro line hline
    rw [readLines_unlines apkMeta_two hlines, readLines_last hlast] at hline
    rcases mem_append.1 hline with hline | hline
    · obtain ⟨l, hl, rfl⟩ := List.mem_map.1 hline
      exact ⟨l, hlines l hl, .inl rfl⟩
    · split at hline
      · cases hline
      · exact ⟨last, hlast, .inr (mem_singleton.1 hline)⟩
  constructor
  · intro line hline
    obtain ⟨l, hl, rfl | rfl⟩ := hread line hline
    · exact tooLong_line hl
    · exact tooLong_last hl
  · intro line hline
    obtain ⟨raw, hraw, rfl⟩ := List.mem_map.1 hline
    obtain ⟨l, hl, rfl | rfl⟩ := hread raw hraw
    · rw [cstr_of_not_mem (not_mem_line hl), stripEnd_newline]
      exact hl.mono stripEnd_prefix
    · rw [cstr_of_not_mem hl.2.1]
      exact hl.mono stripEnd_prefix

theorem confLines_unlines (h : ∀ line ∈ lines, Fits apkMeta line) (hend : ∀ line ∈ lines, stripEnd line = line) :
    confLines (some (unlines lines)) = lines := by
  have hread := readLines_unlines apkMeta_two h []
  rw [append_nil] at hread
  have hnil : readLines apkMeta [] = [] := rfl
  rw [confLines, hread, hnil, append_nil, List.map_map]
  refine (map_congr_left fun line hline => ?_).trans (List.map_id lines)
  rw [Function.comp_apply, cstr_of_not_mem (not_mem_line (h line hline)), stripEnd_newline, hend line hline, id]

end Lines

/-! ### The new line -/

section Text
variable {key value line : List UInt8}

theorem name_char {c : UInt8} (h : isAlnum c ∨ c = ch '_') :
    isSpace c = false ∧ c ≠ ch '=' ∧ c ≠ ch '#' ∧ c ≠ ch '[' ∧ c ≠ 0 ∧ c ≠ newline := by
  revert h
  exact forall_byte (P := fun c => isAlnum c ∨ c = ch '_' →
    isSpace c = false ∧ c ≠ ch '=' ∧ c ≠ ch '#' ∧ c ≠ ch '[' ∧ c ≠ 0 ∧ c ≠ newline) (by decide +kernel) c

theorem validKey_char (h : validKey key = true) {c : UInt8} (hc : c ∈ key) :
    isSpace c = false ∧ c ≠ ch '=' ∧ c ≠ ch '#' ∧ c ≠ ch '[' ∧ c ≠ 0 ∧ c ≠ newline :=
  name_char (of_decide_eq_true (List.all_eq_true.1 (of_decide_eq_true h).2 c hc))

theorem validKey_ne_nil (h : validKey key = true) : key ≠ [] := by
  rintro rfl
  cases h

theorem trim_key (h : validKey key = true) : trim key = key :=
  strip_eq_self (fun _ hc => (validKey_char h (mem_of_head? hc)).1)
    fun _ hc => (validKey_char h (mem_of_getLast? hc)).1

/-- The line that `conf_set` writes, when it is not cut. -/
def whole (key value : List UInt8) : List UInt8 := key ++ ch '=' :: value

section
variable (h : validKey key = true)
include h

theorem head?_whole : ∃ c ∈ key, (whole key value).head? = some c := by
  obtain ⟨c, rest, rfl⟩ := exists_cons_of_ne_nil (validKey_ne_nil h)
  exact ⟨c, mem_cons_self, rfl⟩

section
variable (hvalue : PlainValue value) (hne : value ≠ [])
include hvalue hne

theorem trim_whole :
    trim (whole key value) = whole key value := by
  refine strip_eq_self (fun c hc => ?_) fun c hc => ?_
  · obtain ⟨d, hd, hhead⟩ := head?_whole h
    cases hhead.symm.trans hc
    exact (validKey_char h hd).1
  · rw [whole, getLast?_append_cons, getLast?_cons_of_ne_nil hne] at hc
    exact getLast?_of_strip hvalue.trimmed hc

theorem confLineKey_whole :
    confLineKey (whole key value) = some (key, value) := by
  obtain ⟨c, hc, hhead⟩ := head?_whole h
  have hchar := validKey_char h hc
  have hsplit : splitEq (whole key value) = some (key, value) := splitEq_append fun hmem => (validKey_char h hmem).2.1 rfl
  dsimp only [confLineKey]
  rw [trim_whole h hvalue hne, hhead, if_neg, hsplit]
  · rw [map_some, trim_key h, hvalue.trimmed]
  · rintro (heq | heq | heq)
    · exact hchar.2.2.1 (some.inj heq)
    · exact hchar.2.2.2.1 (some.inj heq)
    · rw [heq] at hhead
      cases hhead

theorem lineValue_whole (k : List UInt8) :
    lineValue k (whole key value) = if key = k then some value else none := by
  rw [lineValue, confLineKey_whole h hvalue hne]
  dsimp only [bind_some]
  rw [unquote, hvalue.unquoted, if_neg Bool.false_ne_true]

theorem bracket_whole :
    bracket (whole key value) = false := by
  obtain ⟨c, hc, hhead⟩ := head?_whole h
  rw [bracket, trim_whole h hvalue hne, hhead]
  exact decide_eq_false fun heq => (validKey_char h hc).2.2.2.1 (some.inj heq)

end

theorem not_mem_whole (hvalue : PlainValue value) : newline ∉ whole key value ∧ 0 ∉ whole key value := by
  have hsplit : ∀ c, c ∈ whole key value → c ∈ key ∨ c = ch '=' ∨ c ∈ value := by
    intro c hc
    rwa [whole, mem_append, mem_cons] at hc
  refine ⟨fun hmem => ?_, fun hmem => ?_⟩
  · rcases hsplit _ hmem with hmem | heq | hmem
    · exact (validKey_char h hmem).2.2.2.2.2 rfl
    · cases heq
    · exact hvalue.line.1 hmem
  · rcases hsplit _ hmem with hmem | heq | hmem
    · exact (validKey_char h hmem).2.2.2.2.1 rfl
    · cases heq
    · exact hvalue.text hmem

end

theorem whole_length : (whole key value).length = key.length + value.length + 1 := by
  rw [whole, length_append, length_cons]
  omega

theorem fits_whole (h : validKey key = true) (hvalue : PlainValue value) (hlen : key.length + value.length + 2 < apkMeta) :
    Fits apkMeta (whole key value) := by
  refine ⟨(not_mem_whole h hvalue).1, (not_mem_whole h hvalue).2, ?_⟩
  rw [whole_length]
  exact hlen

theorem settingText_of_lt (hlen : key.length + value.length + 2 < apkMeta) : settingText key value = whole key value := by
  rw [settingText, append_assoc]
  refine take_of_length_le ?_
  rw [length_append, length_append, length_singleton]
  omega

theorem stripEnd_whole (hvalue : PlainValue value) (hne : value ≠ []) : stripEnd (whole key value) = whole key value := by
  rw [stripEnd, rdropWhile_eq_self_iff]
  intro hw hend
  have hlast : value.getLast? = some ((whole key value).getLast hw) := by
    rw [← getLast?_eq_getLast_of_ne_nil hw, whole, getLast?_append_cons, getLast?_cons_of_ne_nil hne]
  have hmem := mem_of_getLast? hlast
  rcases of_decide_eq_true hend with heq | heq
  · exact hvalue.line.1 (heq ▸ hmem)
  · exact hvalue.line.2 (heq ▸ hmem)

end Text

/-! ### The lines that `conf_set` changes -/

section Edit
variable {key value line : List UInt8} {lines : List (List UInt8)}

def sections (lines : List (List UInt8)) : List (List UInt8) := lines.dropWhile fun line => !bracket line

theorem common_append_sections (lines : List (List UInt8)) : common lines ++ sections lines = lines :=
    takeWhile_append_dropWhile

theorem bracket_of_mem_common (h : line ∈ common lines) : bracket line = false := by
  have := mem_takeWhile_imp h
  simpa using this

theorem common_append {x : List (List UInt8)} (hx : ∀ line ∈ x, bracket line = false) :
    common (x ++ sections lines) = x ∧ sections (x ++ sections lines) = sections lines := by
  have hall : ∀ line ∈ x, (!bracket line) = true := fun line hline => by rw [hx line hline]; rfl
  have hhead : (sections lines).takeWhile (fun line => !bracket line) = [] ∧
      (sections lines).dropWhile (fun line => !bracket line) = sections lines := by
    refine ⟨?_, dropWhile_idempotent _ _⟩
    rw [← length_eq_zero_iff]
    have hlen := congrArg List.length (takeWhile_append_dropWhile (p := fun line => !bracket line) (l := sections lines))
    rw [length_append, sections, dropWhile_idempotent] at hlen
    rw [sections]
    omega
  constructor
  · rw [common, takeWhile_append_of_pos hall, hhead.1, append_nil]
  · rw [sections, dropWhile_append_of_pos hall, hhead.2]

theorem any_confLineKey : (confLineKey line).any (fun p => p.1 = key) = (lineValue key line).isSome := by
  rw [lineValue]
  cases confLineKey line with
  | none => rfl
  | some p =>
    rw [any_some, bind_some]
    dsimp only
    by_cases hk : p.1 = key
    · rw [if_pos hk]
      exact decide_eq_true hk
    · rw [if_neg hk]
      exact decide_eq_false hk

theorem keyValues_append (a b : List (List UInt8)) : keyValues key (a ++ b) = keyValues key a ++ keyValues key b :=
  filterMap_append

theorem keyValues_cons : keyValues key (line :: lines) = (lineValue key line).toList ++ keyValues key lines := by
  rw [keyValues, filterMap_cons]
  cases lineValue key line <;> rfl

theorem findLoop_spec : ∀ {lines : List (List UInt8)} {i found : Nat},
    (findLoop key lines i found).1 = i + (common lines).length ∧
      ((keyValues key (common lines) = [] ∧ (findLoop key lines i found).2 = found) ∨
        ∃ a l b, common lines = a ++ l :: b ∧ (lineValue key l).isSome = true ∧ keyValues key b = [] ∧
          (findLoop key lines i found).2 = i + a.length)
  | [], _, _ => ⟨rfl, .inl ⟨rfl, rfl⟩⟩
  | line :: lines, i, found => by
    rw [findLoop, common_cons]
    by_cases hb : bracket line = true
    · rw [if_pos hb, if_pos hb]
      exact ⟨rfl, .inl ⟨rfl, rfl⟩⟩
    rw [if_neg hb, if_neg hb, any_confLineKey]
    obtain ⟨hsection, hfound⟩ := findLoop_spec (i := i + 1)
    refine ⟨by rw [hsection, length_cons]; omega, ?_⟩
    rcases hfound with ⟨hnone, heq⟩ | ⟨a, l, b, hcommon, hl, hb, heq⟩
    · by_cases hline : (lineValue key line).isSome = true
      · rw [if_pos hline] at heq
        rw [if_pos hline]
        exact .inr ⟨[], line, common lines, rfl, hline, hnone, heq⟩
      · rw [if_neg hline] at heq
        rw [if_neg hline, keyValues_cons, not_isSome_iff_eq_none.1 hline, hnone]
        exact .inl ⟨rfl, heq⟩
    · exact .inr ⟨line :: a, l, b, by rw [hcommon, cons_append], hl, hb, by rw [heq, length_cons]; omega⟩

/-- The common lines around what is changed, and the line that is changed, if there is one. -/
structure Edit (key : List UInt8) (lines a r b : List (List UInt8)) : Prop where
  parts : common lines = a ++ (r ++ b)
  after : keyValues key b = []
  line : (r = [] ∧ keyValues key a = []) ∨ ∃ l v, r = [l] ∧ lineValue key l = some v

/-- The new lines, where the text stands for a value that is not empty. -/
def edited (text value : List UInt8) (lines a b : List (List UInt8)) : List (List UInt8) :=
  a ++ ((if value = [] then [] else [text]) ++ b) ++ sections lines

theorem setLines_edited (key value : List UInt8) (lines : List (List UInt8)) : ∃ a r b, Edit key lines a r b ∧
    setLines key value lines = edited (settingText key value) value lines a b := by
  obtain ⟨hsection, hfound⟩ := findLoop_spec (i := 0)
  rw [Nat.zero_add] at hsection
  dsimp only [setLines]
  rcases hfound with ⟨hnone, heq⟩ | ⟨a, l, b, hcommon, hl, hb, heq⟩
  · refine ⟨common lines, [], [], ⟨by simp, rfl, .inl ⟨rfl, hnone⟩⟩, ?_⟩
    rw [heq, if_neg (Nat.lt_irrefl _), hsection, edited]
    have htake : lines.take (common lines).length = common lines := by
      conv_lhs => rw [← common_append_sections lines]
      rw [take_left']
      rw [common_append_sections]
    have hdrop : lines.drop (common lines).length = sections lines := by
      conv_lhs => rw [← common_append_sections lines]
      rw [drop_left']
      rw [common_append_sections]
    by_cases hvalue : value = []
    · rw [if_neg (not_not.2 hvalue), if_pos hvalue, nil_append, append_nil, common_append_sections]
    · rw [if_pos hvalue, if_neg hvalue, htake, hdrop]
      simp
  · obtain ⟨v, hv⟩ := isSome_iff_exists.1 hl
    refine ⟨a, [l], b, ⟨hcommon, hb, .inr ⟨l, v, rfl, hv⟩⟩, ?_⟩
    have hlines : lines = a ++ l :: (b ++ sections lines) := by
      conv_lhs => rw [← common_append_sections lines, hcommon]
      simp
    have htake : lines.take a.length = a := by
      conv_lhs => rw [hlines]
      exact take_left' rfl
    have hdrop : lines.drop (a.length + 1) = b ++ sections lines := by
      conv_lhs => rw [hlines]
      rw [← drop_drop, drop_left' rfl]
      rfl
    have hlt : a.length < lines.length := by
      conv_rhs => rw [hlines]
      simp
    rw [heq, Nat.zero_add, if_pos hlt, htake, hdrop, edited]
    by_cases hvalue : value = []
    · rw [if_neg (not_not.2 hvalue), if_pos hvalue]
      simp
    · rw [if_pos hvalue, if_neg hvalue]
      simp

variable {k : List UInt8}

theorem lineValue_other (h : lineValue key line = some value) (hk : k ≠ key) : lineValue k line = none := by
  rw [lineValue] at h ⊢
  cases hp : confLineKey line with
  | none => rfl
  | some p =>
    rw [hp, bind_some] at h
    dsimp only [bind_some] at h ⊢
    split at h
    · next heq => exact if_neg fun h' => hk (h'.symm.trans heq)
    · cases h

variable {a r b : List (List UInt8)} {text : List UInt8}

section
variable (h : Edit key lines a r b)
include h

theorem Edit.mem (hline : line ∈ a ∨ line ∈ b ∨ line ∈ sections lines) : line ∈ lines := by
  rw [← common_append_sections lines, h.parts]
  simp only [mem_append]
  tauto

theorem Edit.bracket (hline : line ∈ a ∨ line ∈ b) : bracket line = false := by
  have hmem : line ∈ common lines := by
    rw [h.parts]
    simp only [mem_append]
    tauto
  exact bracket_of_mem_common hmem

theorem Edit.forall_mem {P : List UInt8 → Prop} (hlines : ∀ line ∈ lines, P line)
    (htext : value ≠ [] → P text) : ∀ line ∈ edited text value lines a b, P line := by
  intro line hline
  simp only [edited, mem_append] at hline
  rcases hline with (hline | hline | hline) | hline
  · exact hlines _ (h.mem (.inl hline))
  · split at hline
    · cases hline
    · next hvalue =>
      obtain rfl := mem_singleton.1 hline
      exact htext hvalue
  · exact hlines _ (h.mem (.inr (.inl hline)))
  · exact hlines _ (h.mem (.inr (.inr hline)))

theorem Edit.common_edited (htext : value ≠ [] → Apk.bracket text = false) :
    common (edited text value lines a b) = a ++ ((if value = [] then [] else [text]) ++ b) ∧
      sections (edited text value lines a b) = sections lines := by
  refine common_append fun line hline => ?_
  simp only [mem_append] at hline
  rcases hline with hline | hline | hline
  · exact h.bracket (.inl hline)
  · split at hline
    · cases hline
    · next hvalue =>
      obtain rfl := mem_singleton.1 hline
      exact htext hvalue
  · exact h.bracket (.inr hline)

theorem Edit.keyValues_edited
    (htext : value ≠ [] → Apk.bracket text = false ∧ lineValue key text = some value) :
    keyValues key (common (edited text value lines a b)) = keyValues key a ++ if value = [] then [] else [value] := by
  rw [(h.common_edited fun hvalue => (htext hvalue).1).1, keyValues_append, keyValues_append, h.after, append_nil]
  split
  · rfl
  · next hvalue => rw [keyValues_cons, (htext hvalue).2]; rfl

theorem Edit.keyValues_other (hk : k ≠ key)
    (htext : value ≠ [] → Apk.bracket text = false ∧ lineValue key text = some value) :
    keyValues k (common (edited text value lines a b)) = keyValues k (common lines) := by
  have hr : keyValues k r = [] := by
    rcases h.line with ⟨rfl, -⟩ | ⟨l, v, rfl, hv⟩
    · rfl
    · rw [keyValues_cons, lineValue_other hv hk]
      rfl
  rw [(h.common_edited fun hvalue => (htext hvalue).1).1, h.parts]
  simp only [keyValues_append, hr]
  split
  · rfl
  · next hvalue => rw [keyValues_cons, lineValue_other (htext hvalue).2 hk]; rfl

theorem Edit.length_le_one : (keyValues key (common lines)).length ≤ 1 ↔ keyValues key a = [] := by
  rw [h.parts, keyValues_append, keyValues_append, h.after, append_nil, length_append]
  rcases h.line with ⟨rfl, ha⟩ | ⟨l, v, rfl, hv⟩
  · rw [ha]
    exact ⟨fun _ => rfl, fun _ => Nat.zero_le _⟩
  · rw [keyValues_cons, hv]
    exact ⟨fun hlen => length_eq_zero_iff.1 (Nat.le_zero.1 (Nat.le_of_add_le_add_right hlen)),
      fun ha => by rw [ha]; exact le_rfl⟩

theorem Edit.head? (ha : keyValues key a ≠ []) :
    (keyValues key (common lines)).head? = (keyValues key a).head? := by
  rw [h.parts, keyValues_append, head?_append_of_ne_nil _ ha]

end

end Edit

/-! ### The environment -/

section Load
variable {key line : List UInt8} {lines : List (List UInt8)} {s : Loading}

/-- What `env_default` leaves of a variable. -/
def settle (current : Option (List UInt8)) (value : List UInt8) : Option (List UInt8) :=
  if current.any (· ≠ []) then current else some value

theorem envDefault_apply (env : Environment) (k value : List UInt8) :
    envDefault env k value key = if k = key then settle (env key) value else env key := by
  rw [envDefault, settle]
  by_cases hk : k = key
  · subst hk
    rw [if_pos rfl]
    split
    · rfl
    · rw [update_self]
  · rw [if_neg hk]
    split
    · rfl
    · rw [update_of_ne (Ne.symm hk)]

theorem lineValue_comment (h : trim line = [] ∨ (trim line).head? = some (ch '#')) : lineValue key line = none := by
  rw [lineValue]
  dsimp only [confLineKey]
  rw [if_pos (by tauto)]
  rfl

theorem lineValue_no_sign (h : splitEq (trim line) = none) : lineValue key line = none := by
  rw [lineValue]
  dsimp only [confLineKey]
  rw [h]
  split <;> rfl

theorem mem_trim_head {c : UInt8} {s : List UInt8} (hc : isSpace c = false) : c ∈ trim (c :: s) := by
  rw [trim, dropWhile_cons_of_neg (by rw [hc]; exact Bool.false_ne_true), rdropWhile_cons, hc]
  split <;> exact mem_cons_self

theorem lineValue_sign {k v : List UInt8} (hkey : validKey key = true)
    (hblank : ¬ (trim line = [] ∨ (trim line).head? = some (ch '#'))) (h : splitEq (trim line) = some (k, v)) :
    lineValue key line = if trim k = key then some (unquote (trim v)) else none := by
  rw [lineValue]
  dsimp only [confLineKey]
  rw [h]
  split
  · next hp =>
    have hhead : (trim line).head? = some (ch '[') := by tauto
    rw [splitEq_eq_some h] at hhead
    refine (if_neg fun hk => ?_).symm
    cases k with
    | nil => exact absurd (some.inj hhead) (by decide)
    | cons c k =>
      cases hhead
      exact (validKey_char hkey (hk ▸ mem_trim_head (by decide))).2.2.2.1 rfl
  · rfl

theorem configLine_common (hkey : validKey key = true) (hheader : isHeader (trim (cstr line)) = false)
    (hmatch : s.inMatch = true) (hsection : s.inSection = false) :
    (configLine none line s).inMatch = true ∧ (configLine none line s).inSection = false ∧
      (configLine none line s).env key = (lineValue key (cstr line)).toList.foldl settle (s.env key) := by
  dsimp only [configLine]
  by_cases hblank : trim (cstr line) = [] ∨ (trim (cstr line)).head? = some (ch '#')
  · rw [if_pos hblank, lineValue_comment hblank]
    exact ⟨hmatch, hsection, rfl⟩
  rw [if_neg hblank, hheader, if_neg Bool.false_ne_true, if_neg (by simp [hmatch, hsection])]
  cases hsplit : splitEq (trim (cstr line)) with
  | none =>
    rw [lineValue_no_sign hsplit]
    exact ⟨hmatch, hsection, rfl⟩
  | some kv =>
    obtain ⟨k, v⟩ := kv
    rw [lineValue_sign hkey hblank hsplit]
    dsimp only
    by_cases hk : trim k = key
    · rw [if_pos (hk ▸ hkey), if_pos hk]
      exact ⟨hmatch, hsection, (envDefault_apply _ _ _).trans (if_pos hk)⟩
    · rw [if_neg hk]
      split
      · exact ⟨hmatch, hsection, (envDefault_apply _ _ _).trans (if_neg hk)⟩
      · exact ⟨hmatch, hsection, rfl⟩

/-- The lines of a file one after the other. -/
def loadLines (package : Option (List UInt8)) (lines : List (List UInt8)) (s : Loading) : Loading :=
  lines.foldl (fun s line => configLine package line s) s

theorem loadLines_append {package : Option (List UInt8)} (a b : List (List UInt8)) :
    loadLines package (a ++ b) s = loadLines package b (loadLines package a s) := foldl_append

theorem loadLines_common (hkey : validKey key = true) : ∀ {lines : List (List UInt8)} {s : Loading},
    (∀ line ∈ lines, 0 ∉ line ∧ isHeader (trim line) = false) → s.inMatch = true → s.inSection = false →
      (loadLines none lines s).inMatch = true ∧ (loadLines none lines s).inSection = false ∧
        (loadLines none lines s).env key = (keyValues key lines).foldl settle (s.env key)
  | [], _, _, hmatch, hsection => ⟨hmatch, hsection, rfl⟩
  | line :: lines, s, h, hmatch, hsection => by
    obtain ⟨hzero, hheader⟩ := h line mem_cons_self
    have hcstr := cstr_of_not_mem hzero
    obtain ⟨hmatch', hsection', henv⟩ := configLine_common hkey (by rw [hcstr]; exact hheader) hmatch hsection
    obtain ⟨hm, hs, he⟩ := loadLines_common hkey (fun l hl => h l (mem_cons_of_mem _ hl)) hmatch' hsection'
    refine ⟨hm, hs, he.trans ?_⟩
    rw [henv, hcstr, keyValues_cons, foldl_append]

theorem loadLines_section : ∀ {lines : List (List UInt8)} {s : Loading}, s.inSection = true →
    (loadLines none lines s).env = s.env
  | [], _, _ => rfl
  | line :: lines, s, h => by
    have hline : (configLine none line s).inSection = true ∧ (configLine none line s).env = s.env := by
      dsimp only [configLine]
      split
      · exact ⟨h, rfl⟩
      · split
        · exact ⟨rfl, rfl⟩
        · rw [if_pos (.inr ⟨rfl, h⟩)]
          exact ⟨h, rfl⟩
    exact (loadLines_section hline.1).trans hline.2

theorem loadLines_package {package : List UInt8} : ∀ {lines : List (List UInt8)} {s : Loading},
    (∀ line ∈ lines, 0 ∉ line ∧ isHeader (trim line) = false) → s.inMatch = false → loadLines (some package) lines s = s
  | [], _, _, _ => rfl
  | line :: lines, s, h, hmatch => by
    obtain ⟨hzero, hheader⟩ := h line mem_cons_self
    have hline : configLine (some package) line s = s := by
      dsimp only [configLine]
      rw [cstr_of_not_mem hzero, hheader, if_neg Bool.false_ne_true]
      split
      · rfl
      · rw [if_pos (.inl hmatch)]
    rw [loadLines, foldl_cons, hline]
    exact loadLines_package (fun l hl => h l (mem_cons_of_mem _ hl)) hmatch

theorem isHeader_of_bracket (h : bracket line = false) : isHeader (trim line) = false :=
  decide_eq_false fun hheader => of_decide_eq_false h hheader.1

theorem loadLines_none (hkey : validKey key = true) (hzero : ∀ line ∈ lines, 0 ∉ line) (env : Environment) :
    (loadLines none lines ⟨env, true, false⟩).env key =
      (keyValues key (common lines) ++ keyValues key (unheaded lines)).foldl settle (env key) := by
  have hparts : lines = (common lines ++ unheaded lines) ++ (sections lines).dropWhile fun line =>
      !isHeader (trim line) := by
    rw [append_assoc, unheaded, sections, takeWhile_append_dropWhile, common, takeWhile_append_dropWhile]
  have hfront : ∀ line ∈ common lines ++ unheaded lines, 0 ∉ line ∧ isHeader (trim line) = false := by
    intro line hline
    refine ⟨hzero line (hparts ▸ mem_append_left _ hline), ?_⟩
    rcases mem_append.1 hline with hline | hline
    · exact isHeader_of_bracket (bracket_of_mem_common hline)
    · have := mem_takeWhile_imp hline
      simpa using this
  obtain ⟨-, -, henv⟩ := loadLines_common (s := ⟨env, true, false⟩) hkey hfront rfl rfl
  rw [← keyValues_append, ← henv]
  conv_lhs => rw [hparts, loadLines_append]
  cases hrest : (sections lines).dropWhile fun line => !isHeader (trim line) with
  | nil => rfl
  | cons line rest =>
    have hmem : line ∈ lines := hparts ▸ mem_append_right _ (hrest ▸ mem_cons_self)
    have hheader : isHeader (trim line) = true := by
      have hne : (sections lines).dropWhile (fun line => !isHeader (trim line)) ≠ [] := by rw [hrest]; exact cons_ne_nil _ _
      have hnot := head_dropWhile_not (fun line => !isHeader (trim line)) hne
      simpa [hrest] using hnot
    have hsection : ∀ s : Loading, (configLine none line s).inSection = true ∧ (configLine none line s).env = s.env := by
      intro s
      have hblank : ¬ (trim line = [] ∨ (trim line).head? = some (ch '#')) := by
        have hhead := (of_decide_eq_true hheader).1
        rintro (h | h)
        · rw [h] at hhead
          cases hhead
        · cases some.inj (h.symm.trans hhead)
      dsimp only [configLine]
      rw [cstr_of_not_mem (hzero line hmem), if_neg hblank, if_pos hheader]
      exact ⟨rfl, rfl⟩
    rw [loadLines, foldl_cons]
    refine (congrFun (loadLines_section (hsection _).1) key).trans ?_
    rw [(hsection _).2]

theorem foldl_settle_fixed {v : List UInt8} (hv : v ≠ []) : ∀ vs : List (List UInt8), vs.foldl settle (some v) = some v
  | [] => rfl
  | w :: vs => by
    have hstep : settle (some v) w = some v := if_pos (decide_eq_true hv)
    rw [foldl_cons, hstep]
    exact foldl_settle_fixed hv vs

theorem foldl_settle_mem : ∀ {vs : List (List UInt8)} {current : Option (List UInt8)} {v : List UInt8},
    vs.foldl settle current = some v → current = some v ∨ v ∈ vs
  | [], _, _, h => .inl h
  | w :: vs, current, v, h => by
    rw [foldl_cons] at h
    rcases foldl_settle_mem h with h | h
    · rw [settle] at h
      split at h
      · exact .inl h
      · exact .inr (some.inj h ▸ mem_cons_self)
    · exact .inr (mem_cons_of_mem _ h)

theorem foldl_settle_ne_none : ∀ {vs : List (List UInt8)} {current : Option (List UInt8)}, current ≠ none ∨ vs ≠ [] →
    vs.foldl settle current ≠ none
  | [], _, h => h.resolve_right (not_not.2 rfl)
  | w :: vs, current, _ => by
    rw [foldl_cons]
    refine foldl_settle_ne_none (.inl ?_)
    rw [settle]
    split
    · next h => rintro rfl; cases h
    · exact some_ne_none w

theorem configLoad_eq {file : Option (List UInt8)}
    (h : ∀ data, file = some data → ∀ line ∈ readLines apkMeta data, tooLong line = false)
    (package : Option (List UInt8)) (env : Environment) :
    configLoad file package env = ((loadLines package (confLines file) ⟨env, package = none, false⟩).env, true) := by
  cases file with
  | none => rfl
  | some data =>
    dsimp only [configLoad]
    rw [configLoop_eq _ (h data rfl)]
    rfl

end Load

/-! ### When a setting is read back -/

section Saved
variable {file : Option (List UInt8)} {key value line : List UInt8} {cap : Nat} {a r b : List (List UInt8)}

theorem fits_confLines (h : ∀ data, file = some data → FitsLines data) :
    ∀ line ∈ confLines file, Fits apkMeta line ∧ stripEnd line = line := by
  intro line hline
  cases file with
  | none => cases hline
  | some data =>
    refine ⟨(h data rfl).read.2 line hline, ?_⟩
    obtain ⟨raw, -, rfl⟩ := List.mem_map.1 hline
    exact rdropWhile_idempotent _ _

theorem confSet_lines (h : ∀ line ∈ setLines key value (confLines file), Fits apkMeta line ∧ stripEnd line = line) :
    confLines (some (confSet file key value)) = setLines key value (confLines file) ∧
      ∀ data, some (confSet file key value) = some data → ∀ line ∈ readLines apkMeta data, tooLong line = false := by
  refine ⟨confLines_unlines (fun line hline => (h line hline).1) fun line hline => (h line hline).2, ?_⟩
  intro data hdata line hline
  cases hdata
  have hread := readLines_unlines apkMeta_two (fun line hline => (h line hline).1) []
  rw [append_nil] at hread
  have hnil : readLines apkMeta [] = [] := rfl
  change line ∈ readLines apkMeta (unlines _) at hline
  rw [hread, hnil, append_nil] at hline
  obtain ⟨l, hl, rfl⟩ := List.mem_map.1 hline
  exact tooLong_line (h l hl).1

theorem hold_eq_iff {v : List UInt8} (hv : v ≠ []) {o : Option (List UInt8)} : hold cap o = v ↔ o = some v ∧
    v.length < cap := by
  cases o with
  | none => exact ⟨fun h => absurd h.symm hv, fun h => nomatch h.1⟩
  | some w =>
    rw [hold, Option.some.injEq]
    split
    · next hw => exact ⟨fun h => ⟨h, h ▸ hw⟩, fun h => h.1⟩
    · next hw => exact ⟨fun h => absurd h.symm hv, fun h => absurd (h.1 ▸ h.2) hw⟩

/-- The values before the one that is written, and those after the common part, decide. -/
theorem read_iff (before after : List (List UInt8)) :
    (hold cap (before ++ if value = [] then [] else [value]).head? = value ∧
      ((before ++ if value = [] then [] else [value]) ++ after).foldl settle none =
        if value = [] then none else some value) ↔
      if value = [] then before = [] ∧ after = []
      else value.length < cap ∧ (before = [] ∨ before.head? = some value) := by
  by_cases hvalue : value = []
  · simp only [if_pos hvalue, append_nil]
    constructor
    · rintro ⟨-, hload⟩
      rw [← append_eq_nil_iff]
      by_contra hne
      exact foldl_settle_ne_none (.inr hne) hload
    · rintro ⟨rfl, rfl⟩
      exact ⟨hvalue.symm, rfl⟩
  · simp only [if_neg hvalue]
    rw [hold_eq_iff hvalue]
    have hhead : (before ++ [value]).head? = some value ↔ before = [] ∨ before.head? = some value := by
      cases before <;> simp
    constructor
    · rintro ⟨⟨h, hcap⟩, -⟩
      exact ⟨hcap, hhead.1 h⟩
    · rintro ⟨hcap, h⟩
      refine ⟨⟨hhead.2 h, hcap⟩, ?_⟩
      obtain ⟨vs, hvs⟩ : ∃ vs, before ++ [value] = value :: vs := by
        have hne : before ++ [value] ≠ [] := append_ne_nil_of_right_ne_nil _ (cons_ne_nil _ _)
        obtain ⟨v, vs, hcons⟩ := exists_cons_of_ne_nil hne
        have hv := hhead.2 h
        rw [hcons, head?_cons] at hv
        exact ⟨vs, by rw [hcons, some.inj hv]⟩
      rw [hvs, cons_append, foldl_cons]
      exact foldl_settle_fixed hvalue _

/-- What is read back of a file whose lines fit. -/
theorem readsBack_iff (hfile : ∀ data, file = some data → FitsLines data) (hkey : validKey key = true)
    (hvalue : PlainValue value) (hlen : value ≠ [] → key.length + value.length + 2 < apkMeta) :
    ReadsBack file key value cap ↔ Effective file key value cap := by
  obtain ⟨a, r, b, hedit, hset⟩ := setLines_edited key value (confLines file)
  have hfits := fits_confLines hfile
  have htext : value ≠ [] → settingText key value = whole key value := fun hne => settingText_of_lt (hlen hne)
  have hline : value ≠ [] → bracket (settingText key value) = false ∧
      lineValue key (settingText key value) = some value := by
    intro hne
    rw [htext hne, lineValue_whole hkey hvalue hne, if_pos rfl]
    exact ⟨bracket_whole hkey hvalue hne, rfl⟩
  have hnew : ∀ line ∈ setLines key value (confLines file), Fits apkMeta line ∧ stripEnd line = line := by
    rw [hset]
    refine hedit.forall_mem hfits fun hne => ?_
    rw [htext hne]
    exact ⟨fits_whole hkey hvalue (hlen hne), stripEnd_whole hvalue hne⟩
  obtain ⟨hlines, hlong⟩ := confSet_lines hnew
  have hzero : ∀ line ∈ confLines (some (confSet file key value)), 0 ∉ line := by
    rw [hlines]
    exact fun line hl => (hnew line hl).1.2.1
  have hcommon := hedit.common_edited fun hne => (hline hne).1
  have hvalues := hedit.keyValues_edited hline
  have hsections : unheaded (confLines (some (confSet file key value))) = unheaded (confLines file) := by
    rw [hlines, hset]
    exact congrArg (List.takeWhile _) hcommon.2
  have hload : ∀ env : Environment, env key = none → (configLoad (some (confSet file key value)) none env).1 key =
      ((keyValues key a ++ if value = [] then [] else [value]) ++ keyValues key (unheaded (confLines file))).foldl settle
        none := by
    intro env henv
    refine (congrArg (fun r => r.1 key) (configLoad_eq hlong none env)).trans ?_
    refine (loadLines_none hkey hzero env).trans ?_
    rw [hsections, hlines, hset, hvalues, henv]
  have hget : confGet (some (confSet file key value)) key cap =
      hold cap (keyValues key a ++ if value = [] then [] else [value]).head? := by
    rw [confGet_eq, hlines, hset, hvalues]
  have heffective : Effective file key value cap ↔ if value = [] then
      keyValues key a = [] ∧ keyValues key (unheaded (confLines file)) = []
      else value.length < cap ∧ (keyValues key a = [] ∨ (keyValues key a).head? = some value) := by
    rw [Effective, hedit.length_le_one]
    by_cases hnil : value = []
    · rw [if_pos hnil, if_pos hnil]
    · rw [if_neg hnil, if_neg hnil, and_iff_right (hlen hnil)]
      by_cases ha : keyValues key a = []
      · simp only [ha, true_or]
      · rw [hedit.head? ha]
  rw [heffective, ← read_iff, ← hget]
  constructor
  · intro h
    exact ⟨h.get, (hload (fun _ => none) rfl).symm.trans (h.load _ rfl)⟩
  · rintro ⟨hg, hl⟩
    refine ⟨hg, fun env henv => (hload env henv).trans hl, fun k hk => ?_, fun package env => ?_⟩
    · rw [confGet_eq, confGet_eq, hlines, hset, hedit.keyValues_other hk hline]
    · have hfront : ∀ {ls : List (List UInt8)}, (∀ line ∈ ls, 0 ∉ line) →
          loadLines (some package) ls ⟨env, false, false⟩ = loadLines (some package) (sections ls) ⟨env, false, false⟩ := by
        intro ls hls
        conv_lhs => rw [← common_append_sections ls, loadLines_append]
        refine congrArg _ (loadLines_package (fun line hl => ?_) rfl)
        have hmem : line ∈ ls := ( takeWhile_prefix _).subset hl
        exact ⟨hls line hmem, isHeader_of_bracket (bracket_of_mem_common hl)⟩
      rw [configLoad_eq hlong, configLoad_eq fun data hdata => (hfile data hdata).read.1]
      have hsame : sections (confLines (some (confSet file key value))) = sections (confLines file) := by
        rw [hlines, hset, hcommon.2]
      have hsome : decide (some package = none) = false := rfl
      rw [hsome, hfront hzero, hfront fun line hl => (hfits line hl).1.2.1, hsame]

theorem configLoop_tooLong {package : Option (List UInt8)} {more : List (List UInt8)} (hlong : tooLong line = true) :
    ∀ {lines : List (List UInt8)} (s : Loading), (∀ line ∈ lines, Fits apkMeta line ∧ stripEnd line = line) →
      configLoop package (lines.map (fun line => line ++ [newline]) ++ line :: more) s = (loadLines package lines s, false)
  | [], _, _ => by
    rw [map_nil, nil_append, configLoop, if_pos hlong]
    rfl
  | l :: lines, s, h => by
    obtain ⟨hfits, -⟩ := h l mem_cons_self
    have hsame : trim (cstr (l ++ [newline])) = trim (cstr l) := by
      rw [cstr_of_not_mem (not_mem_line hfits), cstr_of_not_mem hfits.2.1, trim_append_newline]
    rw [map_cons, cons_append, configLoop, tooLong_line hfits, if_neg Bool.false_ne_true, configLine_congr hsame]
    exact configLoop_tooLong hlong _ fun line hline => h line (mem_cons_of_mem _ hline)

/-- A line that is cut fills the buffer. -/
theorem settingText_of_le (hkey : validKey key = true) (hvalue : PlainValue value)
    (hlen : ¬ key.length + value.length + 2 < apkMeta) :
    (settingText key value).length = apkMeta - 1 ∧ newline ∉ settingText key value := by
  have htext : settingText key value = (whole key value).take (apkMeta - 1) := by
    rw [settingText, whole, append_assoc]
    rfl
  rw [htext]
  refine ⟨?_, fun hmem => (not_mem_whole hkey hvalue).1 ((take_sublist _ _).subset hmem)⟩
  rw [length_take, whole_length]
  omega

theorem not_readsBack (hfile : ∀ data, file = some data → FitsLines data) (hkey : validKey key = true)
    (hvalue : PlainValue value) (hne : value ≠ []) (hlen : ¬ key.length + value.length + 2 < apkMeta) :
    ¬ ReadsBack file key value cap := by
  intro h
  obtain ⟨a, r, b, hedit, hset⟩ := setLines_edited key value (confLines file)
  obtain ⟨htext, hnew⟩ := settingText_of_le hkey hvalue hlen
  have hfits : ∀ line ∈ a, Fits apkMeta line ∧ stripEnd line = line := fun line hline =>
    fits_confLines hfile line (hedit.mem (.inl hline))
  have hdata : confSet file key value = unlines a ++
      (settingText key value ++ newline :: unlines (b ++ sections (confLines file))) := by
    rw [confSet, hset, edited, if_neg hne]
    simp [unlines]
  have hread : readLines apkMeta (confSet file key value) = a.map (fun line => line ++ [newline]) ++
      settingText key value :: readLines apkMeta (fgets (apkMeta - 1)
        (settingText key value ++ newline :: unlines (b ++ sections (confLines file)))).2 := by
    rw [hdata, readLines_unlines apkMeta_two fun line hline => (hfits line hline).1, readLines_of_ne apkMeta_two (by simp),
      fgets_long hnew (Nat.le_of_eq htext.symm), take_of_length_le (Nat.le_of_eq htext)]
  have hlong : tooLong (settingText key value) = true := by
    refine decide_eq_true ⟨fun hmem => hnew (( takeWhile_prefix _).subset hmem), fun hshort => ?_⟩
    exact Nat.ne_of_lt hshort.2 htext
  have hload := h.load (fun _ => none) rfl
  dsimp only [configLoad] at hload
  rw [hread, configLoop_tooLong hlong _ hfits, if_neg hne] at hload
  have hfront : ∀ line ∈ a, 0 ∉ line ∧ isHeader (trim line) = false := fun line hline =>
    ⟨(hfits line hline).1.2.1, isHeader_of_bracket (hedit.bracket (.inl hline))⟩
  have hcommon := (loadLines_common (s := ⟨fun _ => none, true, false⟩) hkey hfront rfl rfl).2.2
  -- the lines before it that give the value would have room for it
  rcases foldl_settle_mem (hcommon.symm.trans hload) with hnone | hmem
  · cases hnone
  · obtain ⟨line, hline, hgives⟩ := mem_filterMap.1 hmem
    have hshort := (hfits line hline).1.2.2
    have := lineValue_length hgives
    omega

/-- A setting is read back exactly if it is effective. -/
theorem saved_iff (file : Option (List UInt8)) (key value : List UInt8) (cap : Nat)
    (hfile : ∀ data, file = some data → FitsLines data) (hkey : validKey key = true) (hvalue : PlainValue value) :
    ReadsBack file key value cap ↔ Effective file key value cap := by
  by_cases hlen : value ≠ [] → key.length + value.length + 2 < apkMeta
  · exact readsBack_iff hfile hkey hvalue hlen
  · obtain ⟨hne, hcut⟩ := Classical.not_imp.1 hlen
    refine iff_of_false (not_readsBack hfile hkey hvalue hne hcut) fun h => ?_
    rw [Effective, if_neg hne] at h
    exact hcut h.2.1

theorem plainValue_of_bytes (h : 0 ∉ value ∧ newline ∉ value ∧ ch '\r' ∉ value ∧ trim value = value ∧
    quoted value = false) : PlainValue value := ⟨h.1, ⟨h.2.1, h.2.2.1⟩, h.2.2.2.1, h.2.2.2.2⟩

/-- A file with one line of the key in its common part. -/
theorem single_saved : ReadsBack (some (bytes "# saved\nLUNARIA_A = 1\n[com.app]\nLUNARIA_A=2\n")) (bytes "LUNARIA_A")
    (bytes "3") 4096 := by
  refine (saved_iff _ _ _ _ ?_ (by decide +kernel) (plainValue_of_bytes (by decide +kernel))).2 (by decide +kernel)
  intro data hdata
  cases hdata
  exact ⟨by decide +kernel, by decide +kernel⟩

/-- The second of two lines is edited, and the first one is read. -/
theorem duplicate_not_saved : FitsLines (bytes "LUNARIA_A=1\nLUNARIA_A=2\n") ∧ validKey (bytes "LUNARIA_A") = true ∧
    PlainValue (bytes "3") ∧
    confSet (some (bytes "LUNARIA_A=1\nLUNARIA_A=2\n")) (bytes "LUNARIA_A")
      (bytes "3") = bytes "LUNARIA_A=1\nLUNARIA_A=3\n" ∧
    confGet (some (bytes "LUNARIA_A=1\nLUNARIA_A=3\n")) (bytes "LUNARIA_A") 4096 = bytes "1" ∧
    ¬ ReadsBack (some (bytes "LUNARIA_A=1\nLUNARIA_A=2\n")) (bytes "LUNARIA_A") (bytes "3") 4096 := by
  refine ⟨⟨by decide +kernel, by decide +kernel⟩, by decide +kernel,
    plainValue_of_bytes (by decide +kernel), by decide +kernel, by decide +kernel, fun h => ?_⟩
  exact absurd h.get (by decide +kernel)

end Saved

end Lunaria.Apk
