import Mathlib
import Lunaria.Apk.Manifest

/-! The command line of `apk_prepare_inner`, and the one that `luna_apk_restart` makes of it. The restart looks for `--profile`
    and `--choose-profile` among all words; the option loop knows which words are values. -/

namespace Lunaria.Apk
open List Option

/-! ### The option loop -/

/-- What the options of a command line say. A setting that is not given is left to the environment. -/
structure Settings where
  list : Bool
  prepare : Bool
  install : Bool
  choose : Bool
  profileRequested : Bool
  renameLabel : Option (List UInt8)
  config : Option (List UInt8)
  dataRoot : Option (List UInt8)
  profile : Option (List UInt8)
  deriving DecidableEq

def Settings.init : Settings := ⟨false, false, false, false, false, none, none, none, none⟩

/-- The environment variables that options set. -/
inductive OptionKey
  | conf
  | dataRoot
  | profile
  deriving DecidableEq

/-- The table of the options with a value. -/
def options : List (List UInt8 × OptionKey) :=
  [(bytes "--config", .conf), (bytes "--data-root", .dataRoot), (bytes "--profile", .profile)]

/-- The loop over the table: the variable, and the value if it is in the same word. -/
def findOption (arg : List UInt8) : List (List UInt8 × OptionKey) → Option (OptionKey × Option (List UInt8))
  | [] => none
  | (option, key) :: rest =>
    if arg = option then some (key, none)
    else if option ++ [ch '='] <+: arg then some (key, some (arg.drop (option.length + 1)))
    else findOption arg rest

/-- `env_set`, and what `--profile` means besides. -/
def Settings.set (s : Settings) (key : OptionKey) (value : List UInt8) : Settings :=
  match key with
  | .conf => { s with config := some value }
  | .dataRoot => { s with dataRoot := some value }
  | .profile => { s with profile := some value, choose := false, profileRequested := true }

/-- How the loop ends: with the words that are left, with the help text, or with an error. -/
inductive Parsed
  | words (s : Settings) (rest : List (List UInt8))
  | help
  | error
  deriving DecidableEq

/-- The option loop, over the words after the name of the program. -/
def optionLoop : List (List UInt8) → Settings → Parsed
  | [], s => .words s []
  | arg :: rest, s =>
    if arg = bytes "--" then .words s rest
    else if arg.head? ≠ some (ch '-') then .words s (arg :: rest)
    else if arg = bytes "--help" ∨ arg = bytes "-h" then .help
    else if arg = bytes "--list-profiles" then optionLoop rest { s with list := true }
    else if arg = bytes "--prepare-profile" then optionLoop rest { s with prepare := true }
    else if arg = bytes "--install-only" then optionLoop rest { s with install := true }
    else if arg = bytes "--choose-profile" then optionLoop rest { s with choose := true, profileRequested := false }
    else if arg = bytes "--rename-profile" ∨ bytes "--rename-profile=" <+: arg then
      if (arg.drop 16).head? = some (ch '=') then optionLoop rest { s with renameLabel := some (arg.drop 17) }
      else
        match rest with
        | [] => .error
        | value :: rest => optionLoop rest { s with renameLabel := some value }
    else
      match findOption arg options with
      | none => .error
      | some (key, some value) => if value = [] then .error else optionLoop rest (s.set key value)
      | some (key, none) =>
        match rest with
        | [] => .error
        | value :: rest => if value = [] then .error else optionLoop rest (s.set key value)

def isArchive (name : List UInt8) : Bool :=
  suffix name (bytes ".xapk") || suffix name (bytes ".apks") || suffix name (bytes ".apk") || suffix name (bytes ".aab")

/-- The words that say that a process is a child of another one. -/
def childWords : List (List UInt8) :=
  [bytes "--apk-process-arm64", bytes "--apk-process-arm32", bytes "--service-process-arm64", bytes "--service-process-arm32"]

/-- A command line that is accepted with one archive: its settings and the archive. -/
def accepts (words : List (List UInt8)) : Option (Settings × List UInt8) :=
  if words.head?.any (fun w => childWords.contains w) then none
  else
    match optionLoop words .init with
    | .words s [archive] => if isArchive archive then some (s, archive) else none
    | _ => none

/-! ### The restart -/

/-- The words that the restart takes over. -/
def keep : List (List UInt8) → List (List UInt8)
  | [] => []
  | a :: rest =>
    if a = bytes "--profile" then
      match rest with
      | [] => []
      | _ :: rest => keep rest
    else if bytes "--profile=" <+: a ∨ a = bytes "--choose-profile" then keep rest
    else a :: keep rest

def restartArgs (words : List (List UInt8)) (profile : List UInt8) : Option (List (List UInt8)) :=
  (keep words).getLast?.map fun archive => (keep words).dropLast ++ [bytes "--profile", profile, archive]

/-- `profile_valid`. -/
def profileValid (s : List UInt8) : Bool :=
  s ≠ [] ∧ s.length ≤ 64 ∧ s.head?.any (fun c => isAlnum c ∨ c = ch '_') ∧
    s.all fun c => isAlnum c ∨ c = ch '_' ∨ c = ch '.' ∨ c = ch '-'

/-- `luna_apk_restart`: the words of the new command line. -/
def restart (words : List (List UInt8)) (profile : List UInt8) : Option (List (List UInt8)) :=
  if profileValid profile then restartArgs words profile else none

/-- The settings that a restart has to keep. -/
structure Agree (s t : Settings) : Prop where
  list : t.list = s.list
  prepare : t.prepare = s.prepare
  install : t.install = s.install
  renameLabel : t.renameLabel = s.renameLabel
  config : t.config = s.config
  dataRoot : t.dataRoot = s.dataRoot

/-- The restart repeats the launch under the profile, and does not ask for one. -/
def Repeats (words : List (List UInt8)) (profile : List UInt8) : Prop :=
  ∀ s archive, accepts words = some (s, archive) → ∃ words' s', restart words profile = some words' ∧
    accepts words' = some (s', archive) ∧ Agree s s' ∧ s'.profile = some profile ∧ s'.choose = false ∧
      s'.profileRequested = true

/-! ### The positions of words -/

/-- The options whose value is the next word. -/
def takesValue (arg : List UInt8) : Bool :=
  arg = bytes "--rename-profile" ∨ arg = bytes "--config" ∨ arg = bytes "--data-root" ∨ arg = bytes "--profile"

/-- The words that are values, those of `--profile` apart, and the words from where the options end. -/
def positions : List (List UInt8) → List (List UInt8) × List (List UInt8)
  | [] => ([], [])
  | arg :: rest =>
    if arg = bytes "--" ∨ arg.head? ≠ some (ch '-') then ([], arg :: rest)
    else if takesValue arg then
      match rest with
      | [] => ([], [])
      | value :: rest =>
        let p := positions rest
        (if arg = bytes "--profile" then p.1 else value :: p.1, p.2)
    else positions rest

/-- A word that the restart leaves out. -/
def Dropped (w : List UInt8) : Prop := w = bytes "--profile" ∨ bytes "--profile=" <+: w ∨ w = bytes "--choose-profile"

/-- No value of an option looks like one that the restart leaves out. -/
def PlainValues (words : List (List UInt8)) : Prop := ∀ v ∈ (positions words).1, ¬ Dropped v

/-- The options end with `--`. -/
def Terminated (words : List (List UInt8)) : Prop := (positions words).2.head? = some (bytes "--")

/-! ### One word of the loop -/

section Words
variable {arg w : List UInt8} {s t u : Settings}

theorem Agree.refl (s : Settings) : Agree s s := ⟨rfl, rfl, rfl, rfl, rfl, rfl⟩

theorem Agree.trans (h : Agree s t) (h' : Agree t u) : Agree s u :=
  ⟨h'.list.trans h.list, h'.prepare.trans h.prepare, h'.install.trans h.install, h'.renameLabel.trans h.renameLabel,
    h'.config.trans h.config, h'.dataRoot.trans h.dataRoot⟩

theorem Agree.symm (h : Agree s t) : Agree t s :=
  ⟨h.list.symm, h.prepare.symm, h.install.symm, h.renameLabel.symm, h.config.symm, h.dataRoot.symm⟩

/-- What a word does to the settings: one that the restart keeps does the same to settings that agree, and one that it
    drops changes nothing that has to be kept. -/
structure Does (dropped : Prop) (f : Settings → Settings) : Prop where
  same : ∀ s t, Agree s t → Agree (f s) (f t)
  nothing : dropped → ∀ s, Agree s (f s)

/-- A word that begins with one text does not begin with another one of which neither is the start of the other. -/
theorem not_begins {p q : List UInt8} (h : p <+: w) (hpq : ¬ p <+: q) (hqp : ¬ q <+: p) : ¬ q <+: w := fun hq =>
  ( prefix_or_prefix_of_prefix h hq).elim hpq hqp

theorem ne_of_begins {p q : List UInt8} (h : p <+: w) (hpq : ¬ p <+: q) : w ≠ q := by
  rintro rfl
  exact hpq h

/-- What the loop does with an option: it is a word of its own, it takes the next word, or the loop ends here. -/
inductive Option1 (arg : List UInt8) : Prop
  | single (f : Settings → Settings) (htakes : takesValue arg = false) (hdoes : Does (Dropped arg) f)
      (hloop : ∀ rest s, optionLoop (arg :: rest) s = optionLoop rest (f s))
  | pair (f : List UInt8 → Settings → Settings) (bad : List UInt8 → Prop) (htakes : takesValue arg = true)
      (hkeep : Dropped arg → arg = bytes "--profile") (hdoes : ∀ v, Does (arg = bytes "--profile") (f v))
      (hlast : ∀ s, optionLoop [arg] s = .error)
      (hbad : ∀ v rest s, bad v → optionLoop (arg :: v :: rest) s = .error)
      (hloop : ∀ v rest s, ¬ bad v → optionLoop (arg :: v :: rest) s = optionLoop rest (f v s))
  | ends (hends : ∀ rest s, optionLoop (arg :: rest) s = .help ∨ optionLoop (arg :: rest) s = .error)

/-- The words of the table, as the loop over it finds them. -/
theorem findOption_cases (arg : List UInt8) :
    findOption arg options = none ∨ (∃ key, findOption arg options = some (key, none) ∧
      ((arg = bytes "--config" ∧ key = .conf) ∨ (arg = bytes "--data-root" ∧ key = .dataRoot) ∨
        (arg = bytes "--profile" ∧ key = .profile))) ∨
      ∃ key v, findOption arg options = some (key, some v) ∧
        ((bytes "--config" ++ [ch '='] <+: arg ∧ key = .conf) ∨ (bytes "--data-root" ++ [ch '='] <+: arg ∧ key = .dataRoot) ∨
          (bytes "--profile" ++ [ch '='] <+: arg ∧ key = .profile)) := by
  unfold options
  simp only [findOption]
  split
  · rename_i h
    exact .inr (.inl ⟨_, rfl, .inl ⟨h, rfl⟩⟩)
  split
  · rename_i h
    exact .inr (.inr ⟨_, _, rfl, .inl ⟨h, rfl⟩⟩)
  split
  · rename_i h
    exact .inr (.inl ⟨_, rfl, .inr (.inl ⟨h, rfl⟩)⟩)
  split
  · rename_i h
    exact .inr (.inr ⟨_, _, rfl, .inr (.inl ⟨h, rfl⟩)⟩)
  split
  · rename_i h
    exact .inr (.inl ⟨_, rfl, .inr (.inr ⟨h, rfl⟩)⟩)
  split
  · rename_i h
    exact .inr (.inr ⟨_, _, rfl, .inr (.inr ⟨h, rfl⟩)⟩)
  · exact .inl rfl

theorem set_does (key : OptionKey) (v : List UInt8) : Does (key = .profile) fun s => s.set key v := by
  cases key with
  | conf => exact ⟨fun s t h => ⟨h.list, h.prepare, h.install, h.renameLabel, rfl, h.dataRoot⟩, nofun⟩
  | dataRoot => exact ⟨fun s t h => ⟨h.list, h.prepare, h.install, h.renameLabel, h.config, rfl⟩, nofun⟩
  | profile =>
    exact ⟨fun s t h => ⟨h.list, h.prepare, h.install, h.renameLabel, h.config, h.dataRoot⟩,
      fun _ s => ⟨rfl, rfl, rfl, rfl, rfl, rfl⟩⟩

theorem rename_does {p : Prop} (hp : ¬ p) (v : List UInt8) : Does p fun s => { s with renameLabel := some v } :=
  ⟨fun _ _ h => ⟨h.list, h.prepare, h.install, rfl, h.config, h.dataRoot⟩, fun h => absurd h hp⟩

/-- The words that are not joined to a value are not those that the restart looks for by their start. -/
theorem not_dropped {w : List UInt8} (h1 : w ≠ bytes "--profile") (h2 : ¬ bytes "--profile=" <+: w)
    (h3 : w ≠ bytes "--choose-profile") : ¬ Dropped w := by
  rintro (h | h | h)
  · exact h1 h
  · exact h2 h
  · exact h3 h

instance : DecidablePred Dropped := fun w =>
  inferInstanceAs (Decidable (w = bytes "--profile" ∨ bytes "--profile=" <+: w ∨ w = bytes "--choose-profile"))

/-- What the words of the program are to one another and to the tests that are made of them. -/
structure WordFacts : Prop where
  flag : ∀ w ∈ [bytes "--list-profiles", bytes "--prepare-profile", bytes "--install-only"],
    takesValue w = false ∧ ¬ Dropped w
  value : ∀ w ∈ [bytes "--rename-profile", bytes "--config", bytes "--data-root"],
    takesValue w = true ∧ ¬ Dropped w ∧ w ≠ bytes "--profile"
  choose : takesValue (bytes "--choose-profile") = false
  profile : takesValue (bytes "--profile") = true
  terminator : ¬ Dropped (bytes "--") ∧ (bytes "--").head? = some (ch '-')
  joined : ∀ p ∈ [bytes "--rename-profile=", bytes "--config" ++ [ch '='], bytes "--data-root" ++ [ch '=']],
    (∀ q ∈ [bytes "--rename-profile", bytes "--config", bytes "--data-root", bytes "--profile", bytes "--choose-profile"],
      ¬ p <+: q) ∧ ¬ p <+: bytes "--profile=" ∧ ¬ bytes "--profile=" <+: p
  joinedProfile : ∀ q ∈ [bytes "--rename-profile", bytes "--config", bytes "--data-root", bytes "--profile"],
    ¬ bytes "--profile" ++ [ch '='] <+: q
  rename : (bytes "--rename-profile=").drop 16 = [ch '='] ∧ (bytes "--rename-profile=").length = 17 ∧
    ((bytes "--rename-profile").drop 16).head? = none ∧ ¬ bytes "--rename-profile=" <+: bytes "--rename-profile"
  heads : (bytes "--profile").head? = some (ch '-') ∧ (bytes "--profile=").head? = some (ch '-') ∧
    (bytes "--choose-profile").head? = some (ch '-')
  /-- The loop comes to the table of options with the option of a profile, and with the words of a child to nothing. -/
  option : ∀ w ∈ bytes "--profile" :: childWords, ¬ w = bytes "--" ∧ ¬ w.head? ≠ some (ch '-') ∧
    ¬ (w = bytes "--help" ∨ w = bytes "-h") ∧ ¬ w = bytes "--list-profiles" ∧ ¬ w = bytes "--prepare-profile" ∧
    ¬ w = bytes "--install-only" ∧ ¬ w = bytes "--choose-profile" ∧
    ¬ (w = bytes "--rename-profile" ∨ bytes "--rename-profile=" <+: w)
  found : findOption (bytes "--profile") options = some (.profile, none) ∧ ∀ w ∈ childWords, findOption w options = none

theorem wordFacts : WordFacts := by
  constructor
  all_goals decide +kernel

theorem flag_word (h : w ∈ [bytes "--list-profiles", bytes "--prepare-profile", bytes "--install-only"]) :
    takesValue w = false ∧ ¬ Dropped w :=
  WordFacts.flag wordFacts w h

theorem value_word (h : w ∈ [bytes "--rename-profile", bytes "--config", bytes "--data-root"]) :
    takesValue w = true ∧ ¬ Dropped w ∧ w ≠ bytes "--profile" :=
  WordFacts.value wordFacts w h

theorem joined_word {p : List UInt8} (h : p <+: w)
    (hp : p ∈ [bytes "--rename-profile=", bytes "--config" ++ [ch '='], bytes "--data-root" ++ [ch '=']]) :
    takesValue w = false ∧ ¬ Dropped w := by
  obtain ⟨hne, h1, h2⟩ := WordFacts.joined wordFacts p hp
  simp only [forall_mem_cons] at hne
  obtain ⟨n1, n2, n3, n4, n5, -⟩ := hne
  refine ⟨decide_eq_false ?_, not_dropped (ne_of_begins h n4) (not_begins h h1 h2) (ne_of_begins h n5)⟩
  simp only [not_or]
  exact ⟨ne_of_begins h n1, ne_of_begins h n2, ne_of_begins h n3, ne_of_begins h n4⟩

theorem joined_profile (h : bytes "--profile" ++ [ch '='] <+: w) : takesValue w = false := by
  have hfree := WordFacts.joinedProfile wordFacts
  simp only [forall_mem_cons] at hfree
  obtain ⟨n1, n2, n3, n4, -⟩ := hfree
  refine decide_eq_false ?_
  simp only [not_or]
  exact ⟨ne_of_begins h n1, ne_of_begins h n2, ne_of_begins h n3, ne_of_begins h n4⟩

theorem rename_joined (h : arg = bytes "--rename-profile" ∨ bytes "--rename-profile=" <+: arg) :
    (arg.drop 16).head? = some (ch '=') ↔ bytes "--rename-profile=" <+: arg := by
  obtain ⟨hdrop, hlength, hhead, hnot⟩ := WordFacts.rename wordFacts
  rcases h with rfl | h
  · rw [hhead]
    exact ⟨nofun, fun h => absurd h hnot⟩
  · refine ⟨fun _ => h, fun _ => ?_⟩
    obtain ⟨v, rfl⟩ := h
    rw [drop_append_of_le_length (by omega), hdrop]
    rfl

/-- One round of the loop. -/
theorem optionLoop_cases (hne : arg ≠ bytes "--") (hdash : ¬ arg.head? ≠ some (ch '-')) : Option1 arg := by
  have hloop (rest s) := optionLoop.eq_def (arg :: rest) s
  simp only [if_neg hne, if_neg hdash] at hloop
  by_cases hhelp : arg = bytes "--help" ∨ arg = bytes "-h"
  · refine .ends fun rest s => .inl ?_
    rw [hloop, if_pos hhelp]
  simp only [if_neg hhelp] at hloop
  by_cases hlist : arg = bytes "--list-profiles"
  · have hw := flag_word (w := arg) (by simp [hlist])
    refine .single (fun s => { s with list := true }) hw.1 ⟨fun _ _ h => ?_, fun h => absurd h hw.2⟩ fun rest s => ?_
    · exact ⟨rfl, h.prepare, h.install, h.renameLabel, h.config, h.dataRoot⟩
    · rw [hloop, if_pos hlist]
  simp only [if_neg hlist] at hloop
  by_cases hprepare : arg = bytes "--prepare-profile"
  · have hw := flag_word (w := arg) (by simp [hprepare])
    refine .single (fun s => { s with prepare := true }) hw.1 ⟨fun _ _ h => ?_, fun h => absurd h hw.2⟩ fun rest s => ?_
    · exact ⟨h.list, rfl, h.install, h.renameLabel, h.config, h.dataRoot⟩
    · rw [hloop, if_pos hprepare]
  simp only [if_neg hprepare] at hloop
  by_cases hinstall : arg = bytes "--install-only"
  · have hw := flag_word (w := arg) (by simp [hinstall])
    refine .single (fun s => { s with install := true }) hw.1 ⟨fun _ _ h => ?_, fun h => absurd h hw.2⟩ fun rest s => ?_
    · exact ⟨h.list, h.prepare, rfl, h.renameLabel, h.config, h.dataRoot⟩
    · rw [hloop, if_pos hinstall]
  simp only [if_neg hinstall] at hloop
  by_cases hchoose : arg = bytes "--choose-profile"
  · refine .single (fun s => { s with choose := true, profileRequested := false }) ?_ ⟨fun _ _ h => ?_, fun _ s => ?_⟩
      fun rest s => ?_
    · rw [hchoose]
      exact WordFacts.choose wordFacts
    · exact ⟨h.list, h.prepare, h.install, h.renameLabel, h.config, h.dataRoot⟩
    · exact ⟨rfl, rfl, rfl, rfl, rfl, rfl⟩
    · rw [hloop, if_pos hchoose]
  simp only [if_neg hchoose] at hloop
  by_cases hrename : arg = bytes "--rename-profile" ∨ bytes "--rename-profile=" <+: arg
  · by_cases hjoined : bytes "--rename-profile=" <+: arg
    · have hw := joined_word hjoined (by simp)
      refine .single _ hw.1 (rename_does hw.2 (arg.drop 17)) fun rest s => ?_
      rw [hloop, if_pos hrename, if_pos ((rename_joined hrename).2 hjoined)]
    · have hw := value_word (w := arg) (by simp [hrename.resolve_right hjoined])
      have hsign : ¬ (arg.drop 16).head? = some (ch '=') := fun h => hjoined ((rename_joined hrename).1 h)
      refine .pair (fun v s => { s with renameLabel := some v }) (fun _ => False) hw.1 (fun h => absurd h hw.2.1)
        (rename_does hw.2.2) (fun s => ?_) (fun _ _ _ h => h.elim) fun v rest s _ => ?_
      · rw [hloop, if_pos hrename, if_neg hsign]
      · rw [hloop, if_pos hrename, if_neg hsign]
  rcases findOption_cases arg with hnone | ⟨key, hfind, hkey⟩ | ⟨key, v, hfind, hkey⟩
  · refine .ends fun rest s => .inr ?_
    rw [hloop, if_neg hrename, hnone]
  · have htakes : takesValue arg = true ∧ (Dropped arg → arg = bytes "--profile") ∧
        (arg = bytes "--profile" → key = .profile) := by
      rcases hkey with ⟨h, rfl⟩ | ⟨h, rfl⟩ | ⟨h, rfl⟩
      · have hw := value_word (w := arg) (by simp [h])
        exact ⟨hw.1, fun h => absurd h hw.2.1, fun h => absurd h hw.2.2⟩
      · have hw := value_word (w := arg) (by simp [h])
        exact ⟨hw.1, fun h => absurd h hw.2.1, fun h => absurd h hw.2.2⟩
      · refine ⟨?_, fun _ => h, fun _ => rfl⟩
        rw [h]
        exact WordFacts.profile wordFacts
    refine .pair (fun v s => s.set key v) (fun v => v = []) htakes.1 htakes.2.1
      (fun v => ⟨(set_does key v).same, fun h => (set_does key v).nothing (htakes.2.2 h)⟩) (fun s => ?_)
      (fun v rest s hv => ?_) fun v rest s hv => ?_
    · rw [hloop, if_neg hrename, hfind]
    · rw [hloop, if_neg hrename, hfind]
      exact if_pos hv
    · rw [hloop, if_neg hrename, hfind]
      exact if_neg hv
  · by_cases hv : v = []
    · refine .ends fun rest s => .inr ?_
      rw [hloop, if_neg hrename, hfind]
      exact if_pos hv
    · have hdoes : takesValue arg = false ∧ (Dropped arg → key = .profile) := by
        rcases hkey with ⟨h, rfl⟩ | ⟨h, rfl⟩ | ⟨h, rfl⟩
        · have hw := joined_word h (by simp)
          exact ⟨hw.1, fun h => absurd h hw.2⟩
        · have hw := joined_word h (by simp)
          exact ⟨hw.1, fun h => absurd h hw.2⟩
        · exact ⟨joined_profile h, fun _ => rfl⟩
      refine .single (fun s => s.set key v) hdoes.1
        ⟨(set_does key v).same, fun h => (set_does key v).nothing (hdoes.2 h)⟩ fun rest s => ?_
      rw [hloop, if_neg hrename, hfind]
      exact if_neg hv

end Words

/-! ### A whole command line -/

section Lines
variable {arg profile archive : List UInt8} {words rest : List (List UInt8)} {s s' : Settings}

theorem keep_single (h : ¬ Dropped arg) (rest : List (List UInt8)) : keep (arg :: rest) = arg :: keep rest := by
  obtain ⟨h1, h2⟩ := not_or.1 h
  rw [keep.eq_def]
  dsimp only
  rw [if_neg h1, if_neg h2]

theorem keep_dropped (h : Dropped arg) (hne : arg ≠ bytes "--profile") (rest : List (List UInt8)) :
    keep (arg :: rest) = keep rest := by
  rw [keep.eq_def]
  dsimp only
  rw [if_neg hne, if_pos (h.resolve_left hne)]

theorem keep_profile (v : List UInt8) (rest : List (List UInt8)) : keep (bytes "--profile" :: v :: rest) = keep rest := by
  rw [keep.eq_def]
  exact if_pos rfl

theorem positions_single (hne : arg ≠ bytes "--") (hdash : ¬ arg.head? ≠ some (ch '-')) (htakes : takesValue arg = false)
    (rest : List (List UInt8)) : positions (arg :: rest) = positions rest := by
  rw [positions.eq_def]
  dsimp only
  rw [if_neg (not_or.2 ⟨hne, hdash⟩), if_neg (by rw [htakes]; exact Bool.false_ne_true)]

theorem positions_pair (hne : arg ≠ bytes "--") (hdash : ¬ arg.head? ≠ some (ch '-')) (htakes : takesValue arg = true)
    (v : List UInt8) (rest : List (List UInt8)) : positions (arg :: v :: rest) =
      (if arg = bytes "--profile" then (positions rest).1 else v :: (positions rest).1, (positions rest).2) := by
  rw [positions.eq_def]
  dsimp only
  rw [if_neg (not_or.2 ⟨hne, hdash⟩), if_pos htakes]

theorem positions_stop (h : arg = bytes "--" ∨ arg.head? ≠ some (ch '-')) (rest : List (List UInt8)) :
    positions (arg :: rest) = ([], arg :: rest) := by
  rw [positions.eq_def]
  exact if_pos h

/-- The restart keeps the options: it reads them up to where they end, and keeps words that do the same. -/
structure Carries (words : List (List UInt8)) (s s₁ : Settings) (kept : List (List UInt8)) : Prop where
  keeps : keep words = kept ++ keep (positions words).2
  loop : optionLoop words s = optionLoop (positions words).2 s₁
  same : ∀ t, Agree s t → ∃ t₁, Agree s₁ t₁ ∧ ∀ tail, optionLoop (kept ++ tail) t = optionLoop tail t₁

/-- A word, with its value if it takes one, that the restart keeps or drops before words that it keeps. -/
theorem Carries.cons {item : List (List UInt8)} {kept : List (List UInt8)} {f : Settings → Settings} {s₁ : Settings}
    {dropped : Prop} [Decidable dropped] (h : Carries words (f s) s₁ kept) (hdoes : Does dropped f)
    (hloop : ∀ rest t, optionLoop (item ++ rest) t = optionLoop rest (f t))
    (hkeep : keep (item ++ words) = (if dropped then [] else item) ++ keep words)
    (hpositions : (positions (item ++ words)).2 = (positions words).2) :
    Carries (item ++ words) s s₁ ((if dropped then [] else item) ++ kept) := by
  refine ⟨by rw [hkeep, h.keeps, hpositions, append_assoc], by rw [hloop, h.loop, hpositions], fun t ht => ?_⟩
  by_cases hd : dropped
  · rw [if_pos hd, nil_append]
    exact h.same t ((hdoes.nothing hd s).symm.trans ht)
  · obtain ⟨t₁, ht₁, htail⟩ := h.same (f t) (hdoes.same s t ht)
    refine ⟨t₁, ht₁, fun tail => ?_⟩
    rw [if_neg hd, append_assoc, hloop, htail]

theorem kept_of_stop (h : arg = bytes "--" ∨ arg.head? ≠ some (ch '-')) (rest : List (List UInt8)) (s : Settings) :
    Carries (arg :: rest) s s [] :=
  ⟨by rw [positions_stop h, nil_append], by rw [positions_stop h], fun t ht => ⟨t, ht, fun _ => rfl⟩⟩

theorem exists_kept : ∀ {words : List (List UInt8)} {s : Settings}, optionLoop words s = .words s' rest →
    PlainValues words → ∃ kept s₁, Carries words s s₁ kept
  | [], s, _, _ => ⟨[], s, rfl, rfl, fun t ht => ⟨t, ht, fun _ => rfl⟩⟩
  | arg :: words, s, h, hplain => by
    by_cases hstop : arg = bytes "--" ∨ arg.head? ≠ some (ch '-')
    · exact ⟨[], s, kept_of_stop hstop words s⟩
    obtain ⟨hne, hdash⟩ := not_or.1 hstop
    cases optionLoop_cases hne hdash with
    | single f htakes hdoes hloop =>
      have hpos := positions_single hne hdash htakes words
      rw [hloop] at h
      have hplain' : PlainValues words := by
        unfold PlainValues at hplain ⊢
        rwa [hpos] at hplain
      obtain ⟨kept, s₁, hkept⟩ := exists_kept h hplain'
      refine ⟨_, s₁, hkept.cons hdoes hloop ?_ (by rw [singleton_append, hpos])⟩
      by_cases hd : Dropped arg
      · have hprofile : arg ≠ bytes "--profile" := by
          rintro rfl
          exact Bool.noConfusion ((WordFacts.profile wordFacts).symm.trans htakes)
        rw [if_pos hd]
        exact keep_dropped hd hprofile words
      · rw [if_neg hd]
        exact keep_single hd words
    | pair f bad htakes hkeep hdoes hlast hbad hloop =>
      match words, h, hplain with
      | [], h, _ => exact absurd (h.symm.trans (hlast s)) nofun
      | v :: words, h, hplain =>
        have hpos := positions_pair hne hdash htakes v words
        by_cases hv : bad v
        · cases h.symm.trans (hbad v words s hv)
        · rw [hloop v words s hv] at h
          have hplain' : PlainValues words ∧ (arg ≠ bytes "--profile" → ¬ Dropped v) := by
            unfold PlainValues at hplain ⊢
            rw [hpos] at hplain
            by_cases hprofile : arg = bytes "--profile"
            · rw [if_pos hprofile] at hplain
              exact ⟨hplain, fun h => absurd hprofile h⟩
            · rw [if_neg hprofile] at hplain
              exact ⟨fun w hw => hplain w (mem_cons_of_mem _ hw), fun _ => hplain v mem_cons_self⟩
          obtain ⟨kept, s₁, hkept⟩ := exists_kept h hplain'.1
          refine ⟨_, s₁, @Carries.cons _ _ [arg, v] _ _ _ _ _ hkept (hdoes v) (fun rest t => hloop v rest t hv) ?_ ?_⟩
          · by_cases hprofile : arg = bytes "--profile"
            · rw [if_pos hprofile, hprofile]
              exact keep_profile v words
            · rw [if_neg hprofile]
              show keep (arg :: v :: words) = arg :: v :: keep words
              rw [keep_single fun hd => hprofile (hkeep hd), keep_single (hplain'.2 hprofile)]
          · show (positions (arg :: v :: words)).2 = (positions words).2
            rw [hpos]
    | ends hends =>
      rcases hends words s with h' | h'
      · cases h.symm.trans h'
      · cases h.symm.trans h'

theorem positions_end : ∀ words : List (List UInt8), (positions words).2 = [] ∨
    ∃ arg rest, (positions words).2 = arg :: rest ∧ (arg = bytes "--" ∨ arg.head? ≠ some (ch '-'))
  | [] => .inl rfl
  | arg :: words => by
    by_cases hstop : arg = bytes "--" ∨ arg.head? ≠ some (ch '-')
    · rw [positions_stop hstop]
      exact .inr ⟨arg, words, rfl, hstop⟩
    obtain ⟨hne, hdash⟩ := not_or.1 hstop
    cases htakes : takesValue arg with
    | false =>
      rw [positions_single hne hdash htakes]
      exact positions_end words
    | true =>
      match words with
      | [] =>
        rw [positions.eq_def]
        dsimp only
        rw [if_neg hstop, if_pos htakes]
        exact .inl rfl
      | v :: words =>
        rw [positions_pair hne hdash htakes]
        exact positions_end words

theorem child_error {w : List UInt8} (h : w ∈ childWords) (rest : List (List UInt8)) (s : Settings) :
    optionLoop (w :: rest) s = .error := by
  obtain ⟨h1, h2, h3, h4, h5, h6, h7, h8⟩ := WordFacts.option wordFacts w (mem_cons_of_mem _ h)
  rw [optionLoop.eq_def]
  dsimp only
  rw [if_neg h1, if_neg h2, if_neg h3, if_neg h4, if_neg h5, if_neg h6, if_neg h7, if_neg h8,
    (WordFacts.found wordFacts).2 w h]

theorem accepts_iff : accepts words = some (s, archive) ↔ optionLoop words .init = .words s [archive] ∧
    isArchive archive = true := by
  unfold accepts
  constructor
  · intro h
    split at h
    · cases h
    split at h
    · rename_i s' a hloop
      split at h
      · rename_i ha
        cases h
        exact ⟨hloop, ha⟩
      · cases h
    · cases h
  · rintro ⟨hloop, ha⟩
    rw [if_neg, hloop]
    · exact if_pos ha
    · intro hchild
      cases words with
      | nil => cases hchild
      | cons w rest =>
        have hmem : w ∈ childWords := by simpa using hchild
        cases hloop.symm.trans (child_error hmem rest _)

theorem optionLoop_profile (hprofile : profile ≠ []) (rest : List (List UInt8)) (t : Settings) :
    optionLoop (bytes "--profile" :: profile :: rest) t = optionLoop rest (t.set .profile profile) := by
  obtain ⟨h1, h2, h3, h4, h5, h6, h7, h8⟩ := WordFacts.option wordFacts (bytes "--profile") mem_cons_self
  rw [optionLoop.eq_def]
  dsimp only
  rw [if_neg h1, if_neg h2, if_neg h3, if_neg h4, if_neg h5, if_neg h6, if_neg h7, if_neg h8, (WordFacts.found wordFacts).1]
  exact if_neg hprofile

theorem optionLoop_word (h : archive.head? ≠ some (ch '-')) (rest : List (List UInt8)) (t : Settings) :
    optionLoop (archive :: rest) t = .words t (archive :: rest) := by
  rw [optionLoop.eq_def]
  dsimp only
  rw [if_neg, if_pos h]
  rintro rfl
  exact h (WordFacts.terminator wordFacts).2

theorem optionLoop_terminator (rest : List (List UInt8)) (t : Settings) : optionLoop (bytes "--" :: rest) t = .words t rest := by
  rw [optionLoop.eq_def]
  exact if_pos rfl

theorem not_dropped_of_head (h : archive.head? ≠ some (ch '-')) : ¬ Dropped archive := by
  have hheads := WordFacts.heads wordFacts
  rintro (rfl | ⟨v, rfl⟩ | rfl)
  · exact h hheads.1
  · refine h ?_
    rw [head?_append, hheads.2.1]
    rfl
  · exact h hheads.2.2

theorem profileValid_ne (h : profileValid profile = true) : profile ≠ [] := by
  simp only [profileValid, decide_eq_true_eq] at h
  exact h.1

theorem restart_concat {l : List (List UInt8)} (hprofile : profileValid profile = true) (h : keep words = l ++ [arg]) :
    restart words profile = some (l ++ [bytes "--profile", profile, arg]) := by
  unfold restart restartArgs
  rw [if_pos hprofile, h, getLast?_concat, dropLast_concat]
  rfl

/-- A command line without values that look like the options of profiles is repeated, unless its options end with `--`. -/
theorem restart_repeats_iff (hprofile : profileValid profile = true) (haccepts : accepts words = some (s, archive))
    (hplain : PlainValues words) : Repeats words profile ↔ ¬ Terminated words := by
  obtain ⟨hloop, harchive⟩ := accepts_iff.1 haccepts
  obtain ⟨kept, s₁, hkept⟩ := exists_kept hloop hplain
  obtain ⟨t₁, hagree, htail⟩ := hkept.same .init (Agree.refl _)
  have hend := hkept.loop.symm.trans hloop
  have hne := profileValid_ne hprofile
  rcases positions_end words with hnil | ⟨arg, rest, hrest, hstop⟩
  · rw [hnil] at hend
    cases hend
  have hkeep := hkept.keeps
  rw [hrest] at hend hkeep
  by_cases hterm : arg = bytes "--"
  · -- the profile comes behind the end of the options
    subst hterm
    rw [optionLoop_terminator] at hend
    cases hend
    have hterminated : Terminated words := by
      unfold Terminated
      rw [hrest]
      rfl
    refine ⟨fun hrepeats => ?_, fun h => absurd hterminated h⟩
    obtain ⟨words', s', hwords', haccepts', -⟩ := hrepeats _ _ haccepts
    obtain ⟨hloop', -⟩ := accepts_iff.1 haccepts'
    rw [keep_single (WordFacts.terminator wordFacts).1] at hkeep
    by_cases hd : Dropped archive
    · have hlast : keep [archive] = [] := by
        by_cases hp : archive = bytes "--profile"
        · rw [hp, keep.eq_def]
          exact if_pos rfl
        · rw [keep_dropped hd hp]
          rfl
      rw [hlast] at hkeep
      rw [restart_concat hprofile hkeep] at hwords'
      rw [← some.inj hwords', htail, optionLoop_profile hne, optionLoop_terminator] at hloop'
      cases hloop'
    · have hlast : keep words = (kept ++ [bytes "--"]) ++ [archive] := by
        rw [hkeep, keep_single hd, append_assoc]
        rfl
      rw [restart_concat hprofile hlast] at hwords'
      rw [← some.inj hwords', append_assoc, htail, singleton_append, optionLoop_terminator] at hloop'
      cases hloop'
  · have hhead := hstop.resolve_left hterm
    rw [optionLoop_word hhead] at hend
    obtain ⟨rfl, hwords⟩ := Parsed.words.inj hend
    obtain ⟨rfl, rfl⟩ := List.cons.inj hwords
    have hterminated : ¬ Terminated words := by
      unfold Terminated
      rw [hrest]
      exact fun h => hterm (some.inj h)
    refine ⟨fun _ => hterminated, fun _ s' archive' haccepts' => ?_⟩
    obtain ⟨rfl, rfl⟩ := Prod.mk.inj (some.inj (haccepts.symm.trans haccepts'))
    refine ⟨kept ++ [bytes "--profile", profile, arg], t₁.set .profile profile, ?_, accepts_iff.2 ⟨?_, harchive⟩, ?_,
      rfl, rfl, rfl⟩
    · rw [keep_single (not_dropped_of_head hhead)] at hkeep
      exact restart_concat hprofile hkeep
    · rw [htail, optionLoop_profile hne, optionLoop_word hhead]
    · exact hagree.trans ((set_does .profile profile).nothing rfl t₁)

end Lines

/-! ### Command lines -/

/-- Options in every spelling, before the archive. -/
def plainLine : List (List UInt8) :=
  [bytes "--config", bytes "c", bytes "--profile=old", bytes "--choose-profile", bytes "--data-root=d", bytes "a.apk"]

theorem plainLine_repeats : Repeats plainLine (bytes "new") := by
  have hsome : (accepts plainLine).isSome = true := by decide +kernel
  obtain ⟨⟨s, archive⟩, haccepts⟩ := Option.isSome_iff_exists.1 hsome
  have hplain : PlainValues plainLine := by
    unfold PlainValues
    decide +kernel
  refine (restart_repeats_iff (by decide +kernel) haccepts hplain).2 ?_
  unfold Terminated
  decide +kernel

/-- A value that looks like an option is taken for one. -/
def valueLine : List (List UInt8) := [bytes "--config", bytes "--profile", bytes "a.apk"]

/-- The loop accepts both lines, and the restart of neither. -/
theorem lines_not_repeated : (accepts [bytes "--", bytes "a.apk"]).isSome = true ∧
    ¬ Repeats [bytes "--", bytes "a.apk"] (bytes "new") ∧ (accepts valueLine).isSome = true ∧
      ¬ Repeats valueLine (bytes "new") := by
  have hno : ∀ words : List (List UInt8), (accepts words).isSome = true →
      (restart words (bytes "new")).bind accepts = none → ¬ Repeats words (bytes "new") := by
    intro words hsome hnone hrepeats
    obtain ⟨⟨s, archive⟩, haccepts⟩ := Option.isSome_iff_exists.1 hsome
    obtain ⟨words', s', hwords', haccepts', -⟩ := hrepeats s archive haccepts
    rw [hwords', bind_some, haccepts'] at hnone
    cases hnone
  have h1 : (accepts [bytes "--", bytes "a.apk"]).isSome = true := by decide +kernel
  have h2 : (accepts valueLine).isSome = true := by decide +kernel
  exact ⟨h1, hno _ h1 (by decide +kernel), h2, hno _ h2 (by decide +kernel)⟩

end Lunaria.Apk
