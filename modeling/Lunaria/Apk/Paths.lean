import Lunaria.Lib.LexicalPaths
import Lunaria.Apk.Extract

/-! Where extraction makes files and directories: nowhere but under its root, whatever the names in the archive. -/

namespace Lunaria.Apk
open LexicalPaths List

/-- How a component is read. -/
def partOf (p : List UInt8) : LexicalPaths.Part (List UInt8) :=
  if p = [] ∨ p = [ch '.'] then .stay else if p = [ch '.', ch '.'] then .up else .into p

/-- Where reading begins. -/
def start (path : List UInt8) : Location (List UInt8) := ⟨path.head? = some (ch '/'), 0, []⟩

/-- Where a path leads. -/
def location (path : List UInt8) : Location (List UInt8) := (start path).walk ((path.splitOn (ch '/')).map partOf)

/-- The directories that `mkdirs` makes where there are none: the path up to each of its slashes, but one at its start, and
    the whole path. -/
def mkdirsTries (path : List UInt8) : List (List UInt8) :=
  ((List.range' 1 path.length).filter fun k => path[k]? = some (ch '/') ∨ k = path.length).map path.take

/-- The path up to its last slash, if there is one. -/
def dirName (path : List UInt8) : Option (List UInt8) :=
  ((List.range path.length).reverse.find? fun k => path[k]? = some (ch '/')).map path.take

/-- The directories that `zip_extract` makes for an entry. -/
def entryDirs (name path : List UInt8) : List (List UInt8) :=
  if isDirName name then mkdirsTries path else ((dirName path).map mkdirsTries).getD []

/-- `d` is the path, or a directory on the way there. -/
def OnTheWay (d path : List UInt8) : Prop := d ≠ [] ∧ (path = d ∨ ∃ rest, path = d ++ ch '/' :: rest)

/-- What the components of the root are in a path under it. -/
def rootParts (root : List UInt8) : List (List UInt8) :=
  if root = [] then []
  else if root.getLast? = some (ch '/') then (root.splitOn (ch '/')).dropLast
  else root.splitOn (ch '/')

/-- A name in an archive stays under the root: reading its components one after the other never leads out of it, none but
    the last one is empty, and the directories that are made are on the way to the root or under it. -/
structure StaysUnder (root name path : List UInt8) : Prop where
  split : path.splitOn (ch '/') = rootParts root ++ name.splitOn (ch '/')
  base : (start path).walk ((rootParts root).map partOf) = location root
  under : ∀ n, (location root).Under
    ((start path).walk ((rootParts root ++ (name.splitOn (ch '/')).take n).map partOf))
  parts : ∀ p ∈ (name.splitOn (ch '/')).dropLast, p ≠ []
  dirs : ∀ d ∈ entryDirs name path, OnTheWay d root ∨ (location root).Under (location d)

section
variable {root name path d : List UInt8}

theorem intercalate_append (x : UInt8) : ∀ {l l' : List (List UInt8)}, l ≠ [] → l' ≠ [] →
    [x].intercalate (l ++ l') = [x].intercalate l ++ x :: [x].intercalate l'
  | [a], l', _, hl' => by simp [intercalate_cons_of_ne_nil hl']
  | a :: b :: l, l', _, hl' => by
    have ih := intercalate_append x (cons_ne_nil b l) hl'
    rw [cons_append, cons_append, intercalate_cons_cons, ← cons_append, ih, intercalate_cons_cons,
      append_assoc, append_assoc, append_assoc]

theorem onTheWay_of_parts (hd : d ≠ []) (h : d.splitOn (ch '/') <+: path.splitOn (ch '/')) : OnTheWay d path := by
  obtain ⟨rest, hrest⟩ := h
  refine ⟨hd, ?_⟩
  rw [← @intercalate_splitOn _ path _ _ (ch '/'), ← hrest]
  by_cases hnil : rest = []
  · exact .inl (by rw [hnil, append_nil, intercalate_splitOn])
  · exact .inr ⟨_, by rw [intercalate_append _ (splitOn_ne_nil _ _) hnil, intercalate_splitOn]⟩

theorem OnTheWay.parts (h : OnTheWay d path) : d.splitOn (ch '/') <+: path.splitOn (ch '/') := by
  obtain ⟨-, rfl | ⟨rest, rfl⟩⟩ := h
  · exact prefix_refl _
  · rw [splitOn_append_cons_self]
    exact prefix_append _ _

theorem OnTheWay.trans {p : List UInt8} (h : OnTheWay d p) (h' : OnTheWay p path) : OnTheWay d path :=
  onTheWay_of_parts h.1 (h.parts.trans h'.parts)

theorem OnTheWay.start (h : OnTheWay d path) : start d = start path := by
  obtain ⟨hd, rfl | ⟨rest, rfl⟩⟩ := h
  · rfl
  · obtain ⟨c, d, rfl⟩ := exists_cons_of_ne_nil hd
    rfl

theorem onTheWay_take {k : Nat} (hpos : 1 ≤ k) (hk : path[k]? = some (ch '/')) : OnTheWay (path.take k) path := by
  obtain ⟨hlt, hget⟩ := List.getElem?_eq_some_iff.1 hk
  refine ⟨fun hnil => ?_, .inr ⟨path.drop (k + 1), ?_⟩⟩
  · have hlen := congrArg List.length hnil
    rw [length_take, length_nil] at hlen
    omega
  · rw [← hget, getElem_cons_drop, take_append_drop]

theorem mem_mkdirsTries (h : d ∈ mkdirsTries path) : OnTheWay d path := by
  obtain ⟨k, hk, rfl⟩ := List.mem_map.1 h
  obtain ⟨hrange, hcut⟩ := mem_filter.1 hk
  have hpos : 1 ≤ k := (mem_range'_1.1 hrange).1
  rcases of_decide_eq_true hcut with hslash | rfl
  · exact onTheWay_take hpos hslash
  · rw [take_length]
    exact ⟨ne_nil_of_length_pos hpos, .inl rfl⟩

theorem mem_entryDirs (h : d ∈ entryDirs name path) : OnTheWay d path := by
  unfold entryDirs at h
  split at h
  · exact mem_mkdirsTries h
  · cases hdir : dirName path with
    | none =>
      rw [hdir] at h
      exact absurd h not_mem_nil
    | some p =>
      rw [hdir] at h
      have hd : OnTheWay d p := mem_mkdirsTries h
      obtain ⟨k, hfind, rfl⟩ := Option.map_eq_some_iff.1 hdir
      have hslash : path[k]? = some (ch '/') := by simpa using find?_some hfind
      refine hd.trans (onTheWay_take (Nat.pos_of_ne_zero fun hzero => hd.1 ?_) hslash)
      -- cut at the first character, nothing is left to make a directory of
      have hprefix := hd.2
      rw [hzero, take_zero] at hprefix
      rcases hprefix with hnil | ⟨rest, hnil⟩
      · exact hnil.symm
      · simp at hnil

/-! ### Safe names -/

theorem partOf_safe {p : List UInt8} (h : partSafe p = true) : partOf p = .into p := by
  simp only [partSafe, decide_eq_true_eq] at h
  rw [partOf, if_neg (not_or.2 ⟨h.1, h.2.1⟩), if_neg h.2.2.1]

theorem partsSafe_cases : ∀ {l : List (List UInt8)}, partsSafe l = true →
    (∀ p ∈ l, p = [] ∨ partSafe p = true) ∧ ∀ p ∈ l.dropLast, p ≠ []
  | [], _ => ⟨fun _ hp => absurd hp not_mem_nil, fun _ hp => absurd hp not_mem_nil⟩
  | [p], hsafe => by
    have hor : p = [] ∨ partSafe p = true := by simpa [partsSafe] using hsafe
    exact ⟨fun q hq => (mem_singleton.1 hq) ▸ hor, fun _ hp => absurd hp not_mem_nil⟩
  | p :: q :: rest, hsafe => by
    have hsafe : partSafe p = true ∧ partsSafe (q :: rest) = true := by simpa [partsSafe] using hsafe
    obtain ⟨hall, hne⟩ := partsSafe_cases hsafe.2
    refine ⟨fun r hr => ?_, fun r hr => ?_⟩
    · rcases mem_cons.1 hr with rfl | hr
      · exact .inr hsafe.1
      · exact hall r hr
    · rw [dropLast_cons_cons] at hr
      rcases mem_cons.1 hr with rfl | hr
      · have hp := hsafe.1
        simp only [partSafe, decide_eq_true_eq] at hp
        exact hp.1
      · exact hne r hr

theorem nameParts (hsafe : entrySafe name = true) : (∀ p ∈ name.splitOn (ch '/'), p = [] ∨ partSafe p = true) ∧
    ∀ p ∈ (name.splitOn (ch '/')).dropLast, p ≠ [] := by
  simp only [entrySafe, decide_eq_true_eq] at hsafe
  exact partsSafe_cases hsafe.2.2.2.2

theorem up_not_mem (hsafe : entrySafe name = true) {l : List (List UInt8)} (hl : ∀ p ∈ l, p ∈ name.splitOn (ch '/')) :
    .up ∉ l.map partOf := by
  intro hmem
  obtain ⟨p, hp, hup⟩ := List.mem_map.1 hmem
  rcases (nameParts hsafe).1 p (hl p hp) with rfl | hpart
  · cases hup
  · rw [partOf_safe hpart] at hup
    cases hup

theorem entered_name (hsafe : entrySafe name = true) (hfile : isDirName name = false) :
    entered ((name.splitOn (ch '/')).map partOf) = name.splitOn (ch '/') := by
  have hlast : name.getLast? ≠ some (ch '/') := by simpa [isDirName] using hfile
  have hall := (nameParts hsafe).1
  simp only [entrySafe, decide_eq_true_eq] at hsafe
  have hne := partsSafe_ne_nil hsafe.2.2.2.2 (getLast?_splitOn _ hsafe.1 hlast)
  have hinto : (name.splitOn (ch '/')).map partOf = (name.splitOn (ch '/')).map .into :=
    map_congr_left fun p hp => partOf_safe ((hall p hp).resolve_left (hne p hp))
  rw [hinto, entered, filterMap_map]
  exact filterMap_some

/-! ### The path of an entry -/

theorem splitOn_pathJoin (h : pathJoin root name = some path) :
    path.splitOn (ch '/') = rootParts root ++ name.splitOn (ch '/') := by
  rw [pathJoin, Option.ite_none_right_eq_some] at h
  cases h.2
  unfold rootParts
  by_cases hnil : root = []
  · rw [hnil]
    simp
  rw [if_neg hnil]
  by_cases hlast : root.getLast? = some (ch '/')
  · obtain ⟨dir, rfl⟩ := getLast?_eq_some_iff.1 hlast
    rw [if_neg (fun hand => hand.2 hlast), if_pos hlast, append_nil, append_assoc, singleton_append,
      splitOn_append_cons_self, splitOn_append_cons_self]
    simp
  · rw [if_pos ⟨hnil, hlast⟩, if_neg hlast, append_assoc, singleton_append, splitOn_append_cons_self]

theorem start_pathJoin (hsafe : entrySafe name = true) (h : pathJoin root name = some path) : start path = start root := by
  rw [pathJoin, Option.ite_none_right_eq_some] at h
  cases h.2
  cases root with
  | nil =>
    simp only [entrySafe, decide_eq_true_eq] at hsafe
    simp [start, hsafe.2.1]
  | cons c root => rfl

theorem walk_rootParts (l : Location (List UInt8)) :
    l.walk ((rootParts root).map partOf) = l.walk ((root.splitOn (ch '/')).map partOf) := by
  unfold rootParts
  by_cases hnil : root = []
  · rw [hnil]
    rfl
  rw [if_neg hnil]
  by_cases hlast : root.getLast? = some (ch '/')
  · obtain ⟨dir, rfl⟩ := getLast?_eq_some_iff.1 hlast
    have hsplit : (dir ++ [ch '/']).splitOn (ch '/') = dir.splitOn (ch '/') ++ [[]] := by
      rw [splitOn_append_cons_self]
      rfl
    rw [if_pos hlast, hsplit, dropLast_concat, map_append, walk_append]
    rfl
  · rw [if_neg hlast]

theorem rootParts_begin (root : List UInt8) : rootParts root <+: root.splitOn (ch '/') := by
  unfold rootParts
  split
  · exact nil_prefix
  · split
    · exact dropLast_prefix _
    · exact prefix_refl _

theorem stays_under (hsafe : entrySafe name = true) (hjoin : pathJoin root name = some path) :
    StaysUnder root name path := by
  have hsplit := splitOn_pathJoin hjoin
  have hstart := start_pathJoin hsafe hjoin
  have hroot : (start path).walk ((rootParts root).map partOf) = location root := by
    rw [hstart, walk_rootParts]
    rfl
  have hunder : ∀ l : List (List UInt8), (∀ p ∈ l, p ∈ name.splitOn (ch '/')) →
      (location root).Under ((start path).walk ((rootParts root ++ l).map partOf)) := by
    intro l hl
    rw [map_append, walk_append, hroot]
    exact under_walk (up_not_mem hsafe hl)
  refine ⟨hsplit, hroot, fun n => hunder _ fun p hp => mem_of_mem_take hp, ?_, fun d hd => ?_⟩
  · exact (nameParts hsafe).2
  · have hway := mem_entryDirs hd
    have hprefix := hway.parts
    rw [hsplit] at hprefix
    rcases prefix_or_prefix_of_prefix hprefix (prefix_append (rootParts root) _) with hshort | ⟨l, hl⟩
    · exact .inl (onTheWay_of_parts hway.1 (hshort.trans (rootParts_begin root)))
    · rw [← hl, prefix_append_right_inj] at hprefix
      refine .inr ?_
      have hd : location d = (start path).walk ((rootParts root ++ l).map partOf) := by rw [location, hway.start, hl]
      rw [hd]
      exact hunder l fun p hp => hprefix.subset hp

/-- Different names of files lead to different places. -/
theorem location_inj {name' path' : List UInt8} (hsafe : entrySafe name = true) (hsafe' : entrySafe name' = true)
    (hfile : isDirName name = false) (hfile' : isDirName name' = false) (hjoin : pathJoin root name = some path)
    (hjoin' : pathJoin root name' = some path') (heq : location path = location path') : name = name' := by
  have hread : ∀ {n p : List UInt8}, entrySafe n = true → pathJoin root n = some p →
      location p = (location root).walk ((n.splitOn (ch '/')).map partOf) := by
    intro n p hn hp
    rw [location, splitOn_pathJoin hp, map_append, walk_append, start_pathJoin hn hp, walk_rootParts]
    rfl
  rw [hread hsafe hjoin, hread hsafe' hjoin'] at heq
  have hparts := walk_inj (up_not_mem hsafe fun _ => id) (up_not_mem hsafe' fun _ => id) heq
  rw [entered_name hsafe hfile, entered_name hsafe' hfile'] at hparts
  rw [← @intercalate_splitOn _ name _ _ (ch '/'), hparts, intercalate_splitOn]

/-- Extraction stays under its root, and different names of files give different paths. -/
theorem extraction_stays (root : List UInt8) :
    (∀ name path, entrySafe name = true → pathJoin root name = some path → StaysUnder root name path) ∧
    ∀ name name' path path', entrySafe name = true → entrySafe name' = true → isDirName name = false →
      isDirName name' = false → pathJoin root name = some path → pathJoin root name' = some path' → name ≠ name' →
      path ≠ path' ∧ location path ≠ location path' := by
  refine ⟨fun name path hsafe hjoin => stays_under hsafe hjoin, ?_⟩
  intro name name' path path' hsafe hsafe' hfile hfile' hjoin hjoin' hne
  have hplace : location path ≠ location path' := fun heq =>
    hne (location_inj hsafe hsafe' hfile hfile' hjoin hjoin' heq)
  exact ⟨fun heq => hplace (congrArg location heq), hplace⟩

end

example : mkdirsTries [ch 'a', ch '/', ch 'b', ch '/'] = [[ch 'a'], [ch 'a', ch '/', ch 'b'],
    [ch 'a', ch '/', ch 'b', ch '/']] := by
  decide

end Lunaria.Apk
