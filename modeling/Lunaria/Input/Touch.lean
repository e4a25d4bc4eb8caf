import Lunaria.Lib.Episodes

/-! `luna_touch_update`: contacts that come, move and go, and the Android events that are made of them. Coordinates are only
    stored, so that they may be of any type. -/

namespace Lunaria.Input
open Episodes List

/-- `LUNA_TOUCH_MAX`. -/
def touchMax : Nat := 10

/-- `struct luna_touch_point`. -/
structure TouchPoint (R : Type) where
  id : Int
  x : R
  y : R
  deriving DecidableEq

/-- `struct luna_touch_event`, with the pointers that are counted. -/
structure TouchEvent (R : Type) where
  action : Nat
  x : R
  y : R
  eventMs : Int
  downMs : Int
  pointers : List (TouchPoint R)
  deriving DecidableEq

/-- `struct luna_touch_state`, with the points that are counted. -/
structure TouchState (R : Type) where
  downMs : Int
  points : List (TouchPoint R)
  deriving DecidableEq

structure TouchCall (R : Type) where
  id : Int
  action : Int
  x : R
  y : R
  now : Int
  deriving DecidableEq

section Update
variable {R : Type} [Zero R]

/-- The loop that looks for the contact: the last point with its id. -/
def findPoint (id : Int) : List (TouchPoint R) → Nat → Option Nat → Option Nat
  | [], _, index => index
  | p :: points, i, index => findPoint id points (i + 1) (if p.id = id then some i else index)

/-- The checks, and the state with the contact in its place: the index is of no use when everything is cancelled. -/
def place (s : TouchState R) (c : TouchCall R) : Option (TouchState R × Nat) :=
  if c.id < 0 ∨ 31 < c.id ∨ c.action < 0 ∨ 3 < c.action then none
  else
    let index := findPoint c.id s.points 0 none
    if c.action = 3 then
      if s.points = [] then none else some (s, 0)
    else if c.action = 0 then
      if index.isSome ∨ touchMax ≤ s.points.length then none
      else
        let downMs := if s.points = [] then c.now else s.downMs
        some (⟨downMs, s.points ++ [⟨c.id, c.x, c.y⟩]⟩, s.points.length)
    else
      match index with
      | none => none
      | some i => some ({ s with points := s.points.modify i fun p => { p with x := c.x, y := c.y } }, i)

def snapshot (s : TouchState R) (c : TouchCall R) (index : Nat) : TouchEvent R where
  action :=
    if 1 < s.points.length ∧ (c.action = 0 ∨ c.action = 1) then (if c.action = 0 then 5 else 6) ||| (index <<< 8)
    else c.action.toNat
  x := (s.points.headD ⟨0, 0, 0⟩).x
  y := (s.points.headD ⟨0, 0, 0⟩).y
  eventMs := c.now
  downMs := s.downMs
  pointers := s.points

/-- What is left when the event is out. -/
def lift (s : TouchState R) (c : TouchCall R) (index : Nat) : TouchState R :=
  if c.action = 1 then { s with points := s.points.eraseIdx index }
  else if c.action = 3 then { s with points := [] }
  else s

/-- `luna_touch_update`: what it returns, and what it leaves in the state and in the event. -/
def touchUpdate (s : TouchState R) (c : TouchCall R) (out : TouchEvent R) : Bool × TouchState R × TouchEvent R :=
  match place s c with
  | none => (false, s, out)
  | some (s, index) => (true, lift s c index, snapshot s c index)

def touches : TouchState R → TouchEvent R → List (TouchCall R) → List (TouchCall R × TouchEvent R)
  | _, _, [] => []
  | s, out, c :: calls =>
    let r := touchUpdate s c out
    if r.1 then (c, r.2.2) :: touches r.2.1 r.2.2 calls else touches r.2.1 r.2.2 calls

end Update

/-! ### What Android expects -/

/-- `ACTION_DOWN` and the others. -/
def down : Nat := 0
def up : Nat := 1
def moved : Nat := 2
def cancelled : Nat := 3
def pointerDown : Nat := 5
def pointerUp : Nat := 6

section Android
variable {R : Type}

/-- The action without its index, and the index. -/
def TouchEvent.kind (e : TouchEvent R) : Nat := e.action &&& 0xff
def TouchEvent.index (e : TouchEvent R) : Nat := e.action >>> 8

def TouchEvent.ids (e : TouchEvent R) : List Int := e.pointers.map (·.id)

/-- The pointers that are on the screen after the event. -/
def TouchEvent.left (e : TouchEvent R) : List (TouchPoint R) :=
  if e.kind = up ∨ e.kind = pointerUp then e.pointers.eraseIdx e.index
  else if e.kind = cancelled then []
  else e.pointers

/-- An event of its own: its ids are distinct, and the index of one that enters or leaves is that of the contact. -/
structure WellFormed (t : TouchCall R × TouchEvent R) : Prop where
  distinct : t.2.ids.Nodup
  time : t.2.eventMs = t.1.now
  index : t.2.kind ≠ moved → t.2.kind ≠ cancelled → t.2.ids[t.2.index]? = some t.1.id

/-- The next event of a gesture: the pointers change by that of the call alone, and the others are where they were. -/
structure Follows (t t' : TouchCall R × TouchEvent R) : Prop where
  downMs : t'.2.downMs = t.2.downMs
  ids : t'.2.ids = t.2.left.map (·.id) ++ if t'.2.kind = pointerDown then [t'.1.id] else []
  others : t'.2.pointers.filter (·.id ≠ t'.1.id) = t.2.left.filter (·.id ≠ t'.1.id)

def gesture (R : Type) : Rules (TouchCall R × TouchEvent R) where
  begins t := t.2.action = down ∧ t.2.ids = [t.1.id] ∧ t.2.downMs = t.1.now
  inner t := t.2.action = moved ∨ (t.2.kind = pointerDown ∨ t.2.kind = pointerUp) ∧ 1 < t.2.pointers.length
  ends t := t.2.action = up ∧ t.2.ids = [t.1.id] ∨ t.2.action = cancelled
  follows := Follows

end Android

/-! ### What a call does -/

section Steps
variable {R : Type} {s s' : TouchState R} {c : TouchCall R} {i : Nat} {l current : List (TouchCall R × TouchEvent R)}

theorem findPoint_none {id : Int} : ∀ {points : List (TouchPoint R)} {k : Nat} {index : Option Nat},
    findPoint id points k index = none → index = none ∧ ∀ p ∈ points, p.id ≠ id
  | [], _, _, h => ⟨h, by simp⟩
  | p :: points, k, index, h => by
    rw [findPoint] at h
    obtain ⟨hindex, hpoints⟩ := findPoint_none h
    split at hindex
    · cases hindex
    · rename_i hne
      exact ⟨hindex, fun q hq => (mem_cons.1 hq).elim (fun heq => heq ▸ hne) (hpoints q)⟩

theorem findPoint_some {id : Int} {j : Nat} : ∀ {points : List (TouchPoint R)} {k : Nat} {index : Option Nat},
    findPoint id points k index = some j → index = some j ∨ ∃ n, j = k + n ∧ (points.map (·.id))[n]? = some id
  | [], _, _, h => .inl h
  | p :: points, k, index, h => by
    rw [findPoint] at h
    rcases findPoint_some h with hindex | ⟨n, rfl, hn⟩
    · split at hindex
      · rename_i heq
        cases hindex
        exact .inr ⟨0, rfl, congrArg some heq⟩
      · exact .inl hindex
    · exact .inr ⟨n + 1, by omega, by simpa using hn⟩

/-- The state's contacts are distinct, and no more than there is room for. -/
structure TouchState.Sound (s : TouchState R) : Prop where
  distinct : (s.points.map (·.id)).Nodup
  room : s.points.length ≤ touchMax

/-- What an accepted call does before the event is made: a contact comes, all are cancelled, or one goes or moves. -/
theorem place_cases (h : place s c = some (s', i)) :
    (c.action = 0 ∧ s'.points = s.points ++ [⟨c.id, c.x, c.y⟩] ∧ i = s.points.length ∧ s.points.length < touchMax ∧
      c.id ∉ s.points.map (·.id) ∧ s'.downMs = if s.points = [] then c.now else s.downMs) ∨
    (c.action = 3 ∧ s' = s ∧ s.points ≠ []) ∨
    ((c.action = 1 ∨ c.action = 2) ∧ (s.points.map (·.id))[i]? = some c.id ∧
      s' = { s with points := s.points.modify i fun p => { p with x := c.x, y := c.y } }) := by
  unfold place at h
  split at h
  · cases h
  rename_i hrange
  split at h
  · rename_i hcancel
    split at h
    · cases h
    · rename_i hne
      cases h
      exact .inr (.inl ⟨hcancel, rfl, hne⟩)
  dsimp only at h
  split at h
  · rename_i hdown
    by_cases hfree : (findPoint c.id s.points 0 none).isSome ∨ touchMax ≤ s.points.length
    · rw [if_pos hfree] at h
      cases h
    rw [if_neg hfree] at h
    cases h
    have hnone : findPoint c.id s.points 0 none = none := by
      simpa using fun hsome => hfree (.inl hsome)
    refine .inl ⟨hdown, rfl, rfl, Nat.lt_of_not_le fun hle => hfree (.inr hle), fun hmem => ?_, rfl⟩
    obtain ⟨p, hp, hid⟩ := List.mem_map.1 hmem
    exact (findPoint_none hnone).2 p hp hid
  · split at h
    · cases h
    rename_i j hj
    cases h
    rcases findPoint_some hj with hnone | ⟨n, rfl, hn⟩
    · cases hnone
    · exact .inr (.inr ⟨by omega, by rwa [Nat.zero_add], rfl⟩)

theorem ids_modify (points : List (TouchPoint R)) (i : Nat) (x y : R) :
    (points.modify i fun p => { p with x := x, y := y }).map (·.id) = points.map (·.id) := by
  apply ext_getElem?
  intro n
  simp only [getElem?_map, getElem?_modify]
  split <;> simp [Function.comp_def]

theorem others_modify {points : List (TouchPoint R)} {i : Nat} {id : Int} (x y : R)
    (h : (points.map (·.id))[i]? = some id) :
    (points.modify i fun p => { p with x := x, y := y }).filter (·.id ≠ id) = points.filter (·.id ≠ id) := by
  induction points generalizing i with
  | nil => rw [modify_nil]
  | cons p points ih =>
    cases i with
    | zero =>
      obtain rfl : p.id = id := by simpa using h
      simp
    | succ i =>
      have hrest := ih (i := i) (by simpa using h)
      rw [modify_succ_cons, filter_cons, filter_cons, hrest]

theorem packed {k : Nat} (hk : k = 5 ∨ k = 6) (hi : i < touchMax) :
    (k ||| (i <<< 8)) &&& 0xff = k ∧ (k ||| (i <<< 8)) >>> 8 = i := by
  have hall : ∀ j < 10, ((5 ||| (j <<< 8)) &&& 0xff = 5 ∧ (5 ||| (j <<< 8)) >>> 8 = j) ∧
      (6 ||| (j <<< 8)) &&& 0xff = 6 ∧ (6 ||| (j <<< 8)) >>> 8 = j := by decide
  rcases hk with rfl | rfl
  · exact (hall i hi).1
  · exact (hall i hi).2

section Snapshot
variable [Zero R]

theorem snapshot_ids : (snapshot s c i).ids = s.points.map (·.id) := rfl

/-- An event that leaves the index out. -/
theorem snapshot_plain (h : ¬ (1 < s.points.length ∧ (c.action = 0 ∨ c.action = 1))) :
    (snapshot s c i).action = c.action.toNat := if_neg h

theorem snapshot_down (h : 1 < s.points.length) (hc : c.action = 0) (hi : i < touchMax) :
    (snapshot s c i).kind = pointerDown ∧ (snapshot s c i).index = i := by
  have haction : (snapshot s c i).action = 5 ||| (i <<< 8) := by
    simp only [snapshot, h, hc, true_or, and_self, if_true]
  unfold TouchEvent.kind TouchEvent.index
  rw [haction]
  exact packed (.inl rfl) hi

theorem snapshot_up (h : 1 < s.points.length) (hc : c.action = 1) (hi : i < touchMax) :
    (snapshot s c i).kind = pointerUp ∧ (snapshot s c i).index = i := by
  have haction : (snapshot s c i).action = 6 ||| (i <<< 8) := by
    simp only [snapshot, h, hc, or_true, and_self, if_true, Int.one_ne_zero, if_false]
  unfold TouchEvent.kind TouchEvent.index
  rw [haction]
  exact packed (.inr rfl) hi

end Snapshot

end Steps

/-! ### Gestures -/

section Gestures
variable {R : Type} {s s' : TouchState R} {c : TouchCall R} {i : Nat} {l current : List (TouchCall R × TouchEvent R)}

/-- The state of the contacts is that at the end of the events: no gesture and no contacts, or the contacts that the last
    event of a gesture has left. -/
structure Linked (s : TouchState R) (current : List (TouchCall R × TouchEvent R)) : Prop where
  sound : s.Sound
  state : current = [] ∧ s.points = [] ∨ Open (gesture R) current ∧ s.points ≠ [] ∧
    ∀ t ∈ current.getLast?, t.2.left = s.points ∧ t.2.downMs = s.downMs

theorem Linked.open (h : Linked s current) (hne : s.points ≠ []) : Open (gesture R) current ∧
    ∀ t ∈ current.getLast?, t.2.left = s.points ∧ t.2.downMs = s.downMs := by
  rcases h.state with ⟨-, hnil⟩ | ⟨hopen, -, hlast⟩
  · exact absurd hnil hne
  · exact ⟨hopen, hlast⟩

theorem Linked.nil (h : Linked s current) (hnil : s.points = []) : current = [] := by
  rcases h.state with ⟨hcur, -⟩ | ⟨-, hne, -⟩
  · exact hcur
  · exact absurd hnil hne

theorem lift_of_ne (h1 : c.action ≠ 1) (h3 : c.action ≠ 3) : lift s c i = s := by rw [lift, if_neg h1, if_neg h3]

variable [Zero R]

theorem follows_snapshot {t : TouchCall R × TouchEvent R} (hleft : t.2.left = s.points ∧ t.2.downMs = s.downMs)
    (hdown : s'.downMs = s.downMs)
    (hids : s'.points.map (·.id) = s.points.map (·.id) ++ if (snapshot s' c i).kind = pointerDown then [c.id] else [])
    (hothers : s'.points.filter (·.id ≠ c.id) = s.points.filter (·.id ≠ c.id)) : Follows t (c, snapshot s' c i) where
  downMs := hdown.trans hleft.2.symm
  ids := by
    rw [hleft.1]
    exact hids
  others := by
    rw [hleft.1]
    exact hothers

theorem snapshot_left (h : (snapshot s c i).kind = pointerDown ∨ (snapshot s c i).action = down ∨
    (snapshot s c i).action = moved) : (snapshot s c i).left = s.points := by
  have hkind : (snapshot s c i).kind ≠ up ∧ (snapshot s c i).kind ≠ pointerUp ∧ (snapshot s c i).kind ≠ cancelled := by
    rcases h with h | h | h
    · rw [h]
      decide
    · rw [TouchEvent.kind, h]
      decide
    · rw [TouchEvent.kind, h]
      decide
  unfold TouchEvent.left
  rw [if_neg (not_or.2 ⟨hkind.1, hkind.2.1⟩), if_neg hkind.2.2]
  rfl

/-- The event that `c` makes is well formed, and the gestures go on with it. -/
def GoesOn (l : List (TouchCall R × TouchEvent R)) (s : TouchState R) (c : TouchCall R) (i : Nat) : Prop :=
  WellFormed (c, snapshot s c i) ∧
    ∃ current, Upto (gesture R) (l ++ [(c, snapshot s c i)]) current ∧ Linked (lift s c i) current

/-- A contact comes. -/
theorem step_enters (hl : Upto (gesture R) l current) (h : Linked s current) (hc : c.action = 0)
    (hpoints : s'.points = s.points ++ [⟨c.id, c.x, c.y⟩]) (hlt : s.points.length < touchMax)
    (hfresh : c.id ∉ s.points.map (·.id)) (hdown : s'.downMs = if s.points = [] then c.now else s.downMs) :
    GoesOn l s' c s.points.length := by
  unfold GoesOn
  have hids : s'.points.map (·.id) = s.points.map (·.id) ++ [c.id] := by rw [hpoints, map_append]; rfl
  have hlen : s'.points.length = s.points.length + 1 := by rw [hpoints, length_append]; rfl
  have hnodup : (s'.points.map (·.id)).Nodup := by
    rw [hids]
    exact nodup_append.2 ⟨h.sound.distinct, pairwise_singleton _ _, fun a ha b hb heq => by
      rw [mem_singleton.1 hb] at heq
      exact hfresh (heq ▸ ha)⟩
  have hsound : s'.Sound := ⟨hnodup, by omega⟩
  have hat : (s'.points.map (·.id))[s.points.length]? = some c.id := by
    rw [hids, getElem?_append_right (by simp), length_map, Nat.sub_self]
    rfl
  rw [lift_of_ne (by omega) (by omega)]
  by_cases hnil : s.points = []
  · -- the first contact begins a gesture
    have haction : (snapshot s' c s.points.length).action = down := by
      rw [snapshot_plain (by rw [hlen, hnil]; simp), hc]
      rfl
    have hbegins : (gesture R).begins (c, snapshot s' c s.points.length) :=
      ⟨haction, by rw [snapshot_ids, hids, hnil]; rfl, by simp only [snapshot, hdown, hnil, if_true]⟩
    refine ⟨⟨hnodup, rfl, fun _ _ => ?_⟩, [(c, snapshot s' c s.points.length)], ?_, hsound,
      .inr ⟨open_singleton hbegins, ?_, ?_⟩⟩
    · rw [TouchEvent.index, haction, snapshot_ids, ← hat, hnil]
      rfl
    · have hsnoc := hl.snoc (c, snapshot s' c s.points.length)
      rwa [h.nil hnil, nil_append] at hsnoc
    · rw [hpoints]
      simp
    · intro t ht
      obtain rfl : (c, snapshot s' c s.points.length) = t := by simpa using ht
      exact ⟨snapshot_left (.inr (.inl haction)), rfl⟩
  · have hpos := length_pos_of_ne_nil hnil
    obtain ⟨hkind, hindex⟩ := snapshot_down (s := s') (c := c) (i := s.points.length) (by omega) hc hlt
    obtain ⟨hopen, hlast⟩ := h.open hnil
    refine ⟨⟨hnodup, rfl, fun _ _ => ?_⟩, current ++ [(c, snapshot s' c s.points.length)], hl.snoc _, hsound,
      .inr ⟨hopen.snoc (.inr ⟨.inl hkind, ?_⟩) fun t ht => ?_, ?_, ?_⟩⟩
    · rw [hindex]
      exact hat
    · show 1 < s'.points.length
      omega
    · refine follows_snapshot (hlast t ht) (by rw [hdown, if_neg hnil]) ?_ ?_
      · rw [hkind, if_pos rfl, hids]
      · rw [hpoints, filter_append]
        simp
    · rw [hpoints]
      simp
    · intro t ht
      obtain rfl : (c, snapshot s' c s.points.length) = t := by simpa using ht
      exact ⟨snapshot_left (.inl hkind), rfl⟩

theorem step_cancels (hl : Upto (gesture R) l current) (h : Linked s current) (hc : c.action = 3) (hne : s.points ≠ []) :
    GoesOn l s c i := by
  unfold GoesOn
  obtain ⟨hopen, hlast⟩ := h.open hne
  have haction : (snapshot s c i).action = cancelled := by
    rw [snapshot_plain (by omega), hc]
    rfl
  have hkind : (snapshot s c i).kind = cancelled := by
    rw [TouchEvent.kind, haction]
    rfl
  have hlift : lift s c i = { s with points := [] } := by rw [lift, if_neg (by omega), if_pos hc]
  refine ⟨⟨h.sound.distinct, rfl, fun _ hno => absurd hkind hno⟩, [], (hl.snoc _).close (hopen.close (.inr haction) ?_), ?_⟩
  · intro t ht
    refine follows_snapshot (hlast t ht) rfl ?_ rfl
    rw [hkind, if_neg (by decide), append_nil]
  · rw [hlift]
    exact ⟨⟨nodup_nil, Nat.zero_le _⟩, .inl ⟨rfl, rfl⟩⟩

/-- What a call changes that moves a contact, before the event is made: nothing but where the contact is. -/
structure Moved (s s' : TouchState R) (c : TouchCall R) (i : Nat) : Prop where
  at' : (s.points.map (·.id))[i]? = some c.id
  ids : s'.points.map (·.id) = s.points.map (·.id)
  others : s'.points.filter (·.id ≠ c.id) = s.points.filter (·.id ≠ c.id)
  downMs : s'.downMs = s.downMs

omit [Zero R] in
theorem Moved.length (h : Moved s s' c i) : s'.points.length = s.points.length := by simpa using congrArg List.length h.ids

omit [Zero R] in
theorem Moved.lt (h : Moved s s' c i) : i < s.points.length := by simpa using (List.getElem?_eq_some_iff.1 h.at').1

omit [Zero R] in
theorem Moved.sound (h : Moved s s' c i) (hs : s.Sound) : s'.Sound := ⟨h.ids ▸ hs.distinct, h.length ▸ hs.room⟩

theorem Moved.follows (h : Moved s s' c i) (hkind : (snapshot s' c i).kind ≠ pointerDown) {t : TouchCall R × TouchEvent R}
    (ht : t.2.left = s.points ∧ t.2.downMs = s.downMs) : Follows t (c, snapshot s' c i) := by
  refine follows_snapshot ht h.downMs ?_ h.others
  rw [if_neg hkind, append_nil, h.ids]

section
variable (hl : Upto (gesture R) l current) (h : Linked s current)
include hl h

theorem step_moves (hc : c.action = 2) (hm : Moved s s' c i) : GoesOn l s' c i := by
  unfold GoesOn
  have hpos : 0 < s'.points.length := hm.length ▸ Nat.zero_lt_of_lt hm.lt
  obtain ⟨hopen, hlast⟩ := h.open (ne_nil_of_length_pos (Nat.zero_lt_of_lt hm.lt))
  have haction : (snapshot s' c i).action = moved := by
    rw [snapshot_plain (by omega), hc]
    rfl
  have hkind : (snapshot s' c i).kind = moved := by
    rw [TouchEvent.kind, haction]
    rfl
  rw [lift_of_ne (by omega) (by omega)]
  refine ⟨⟨(hm.sound h.sound).distinct, rfl, fun hno => absurd hkind hno⟩, current ++ [(c, snapshot s' c i)], hl.snoc _,
    hm.sound h.sound, .inr ⟨hopen.snoc (.inl haction) fun t ht => hm.follows (by rw [hkind]; decide) (hlast t ht),
    ne_nil_of_length_pos hpos, fun t ht => ?_⟩⟩
  obtain rfl : (c, snapshot s' c i) = t := by simpa using ht
  exact ⟨snapshot_left (.inr (.inr haction)), rfl⟩

/-- The only contact goes. -/
theorem step_last (hc : c.action = 1) (hm : Moved s s' c i)
    (hlone : s.points.length = 1) : GoesOn l s' c i := by
  unfold GoesOn
  obtain rfl : i = 0 := by
    have hlt := hm.lt
    omega
  obtain ⟨p, hp⟩ := length_eq_one_iff.1 (hm.length.trans hlone)
  obtain ⟨hopen, hlast⟩ := h.open (ne_nil_of_length_pos (by omega))
  have haction : (snapshot s' c 0).action = up := by
    rw [snapshot_plain (by simp [hp]), hc]
    rfl
  have hkind : (snapshot s' c 0).kind ≠ pointerDown := by
    rw [TouchEvent.kind, haction]
    decide
  have hone : s'.points.map (·.id) = [c.id] := by
    have hat := hm.at'
    rw [← hm.ids, hp] at hat
    rw [hp]
    simpa using hat
  have hlift : lift s' c 0 = { s' with points := [] } := by
    rw [lift, if_pos hc, hp]
    rfl
  rw [hlift]
  refine ⟨⟨(hm.sound h.sound).distinct, rfl, fun _ _ => ?_⟩, [],
    (hl.snoc _).close (hopen.close (.inl ⟨haction, hone⟩) fun t ht => hm.follows hkind (hlast t ht)),
    ⟨nodup_nil, Nat.zero_le _⟩, .inl ⟨rfl, rfl⟩⟩
  rw [TouchEvent.index, haction, snapshot_ids, hone]
  rfl

/-- One of several contacts goes. -/
theorem step_lifts (hc : c.action = 1) (hm : Moved s s' c i)
    (hmany : 1 < s.points.length) : GoesOn l s' c i := by
  unfold GoesOn
  have hlen := hm.length
  have hlt := hm.lt
  obtain ⟨hopen, hlast⟩ := h.open (ne_nil_of_length_pos (by omega))
  obtain ⟨hkind, hindex⟩ := snapshot_up (s := s') (c := c) (i := i) (by omega) hc (hlt.trans_le h.sound.room)
  have hleft : (snapshot s' c i).left = s'.points.eraseIdx i := by
    rw [TouchEvent.left, if_pos (.inr hkind), hindex]
    rfl
  have hlift : lift s' c i = { s' with points := s'.points.eraseIdx i } := by rw [lift, if_pos hc]
  have hlength : (s'.points.eraseIdx i).length = s'.points.length - 1 := length_eraseIdx_of_lt (by omega)
  have hsound := hm.sound h.sound
  rw [hlift]
  refine ⟨⟨hsound.distinct, rfl, fun _ _ => ?_⟩, current ++ [(c, snapshot s' c i)], hl.snoc _,
    ⟨hsound.distinct.sublist ((eraseIdx_sublist _ _).map _), ?_⟩,
    .inr ⟨hopen.snoc (.inr ⟨.inr hkind, ?_⟩) fun t ht => hm.follows (by rw [hkind]; decide) (hlast t ht),
      ne_nil_of_length_pos ?_, fun t ht => ?_⟩⟩
  · rw [hindex, snapshot_ids, hm.ids, hm.at']
  · have hroom := hsound.room
    show (s'.points.eraseIdx i).length ≤ touchMax
    omega
  · show 1 < s'.points.length
    omega
  · show 0 < (s'.points.eraseIdx i).length
    omega
  · obtain rfl : (c, snapshot s' c i) = t := by simpa using ht
    exact ⟨hleft, rfl⟩

theorem touch_step (hplace : place s c = some (s', i)) : GoesOn l s' c i := by
  rcases place_cases hplace with ⟨hc, hpoints, rfl, hlt, hfresh, hdown⟩ | ⟨hc, rfl, hne⟩ | ⟨hc, hat, hs'⟩
  · exact step_enters hl h hc hpoints hlt hfresh hdown
  · exact step_cancels hl h hc hne
  · have hm : Moved s s' c i :=
      ⟨hat, hs' ▸ ids_modify s.points i c.x c.y, hs' ▸ others_modify c.x c.y hat, by rw [hs']⟩
    rcases hc with hc | hc
    · rcases Nat.eq_or_lt_of_le (Nat.one_le_of_lt hm.lt) with hlone | hmany
      · exact step_last hl h hc hm hlone.symm
      · exact step_lifts hl h hc hm hmany
    · exact step_moves hl h hc hm

end

theorem touch_run : ∀ {calls : List (TouchCall R)} {s : TouchState R} {out : TouchEvent R}
    {l current : List (TouchCall R × TouchEvent R)}, Upto (gesture R) l current → Linked s current →
    (∀ t ∈ l, WellFormed t) →
    (∀ t ∈ l ++ touches s out calls, WellFormed t) ∧ Splits (gesture R) (l ++ touches s out calls)
  | [], s, out, l, current, hl, h, hwell => by
    rw [touches, append_nil]
    exact ⟨hwell, current, hl, h.state.imp And.left And.left⟩
  | c :: calls, s, out, l, current, hl, h, hwell => by
    rw [touches, touchUpdate]
    cases hplace : place s c with
    | none => exact touch_run hl h hwell
    | some p =>
      obtain ⟨s', i⟩ := p
      obtain ⟨ht, current', hl', h'⟩ := touch_step hl h hplace
      have hall : ∀ t ∈ l ++ [(c, snapshot s' c i)], WellFormed t := by
        intro t hmem
        rcases mem_append.1 hmem with hmem | hmem
        · exact hwell t hmem
        · exact (mem_singleton.1 hmem) ▸ ht
      have hrun := @touch_run calls _ (snapshot s' c i) _ _ hl' h' hall
      rwa [append_assoc] at hrun

/-- From no contacts on, the events of every sequence of calls are well formed and make up gestures, and a call that is
    rejected changes nothing. -/
theorem touches_gestures (downMs : Int) (out : TouchEvent R) (calls : List (TouchCall R)) :
    ((∀ t ∈ touches ⟨downMs, []⟩ out calls, WellFormed t) ∧ Splits (gesture R) (touches ⟨downMs, []⟩ out calls)) ∧
    ∀ (s : TouchState R) (c : TouchCall R) (out : TouchEvent R),
      (touchUpdate s c out).1 = false → (touchUpdate s c out).2 = (s, out) := by
  refine ⟨touch_run (l := []) upto_nil ⟨⟨nodup_nil, Nat.zero_le _⟩, .inl ⟨rfl, rfl⟩⟩ (by simp), fun s c out h => ?_⟩
  unfold touchUpdate at h ⊢
  cases hplace : place s c with
  | none => rfl
  | some p =>
    rw [hplace] at h
    cases h

end Gestures

/-- Two contacts come, the first one goes and comes back, and all are cancelled. -/
example : (touches (R := Nat) ⟨0, []⟩ ⟨0, 0, 0, 0, 0, []⟩
    [⟨4, 0, 1, 1, 1⟩, ⟨7, 0, 2, 2, 2⟩, ⟨4, 1, 1, 1, 3⟩, ⟨4, 0, 3, 3, 4⟩, ⟨9, 1, 0, 0, 5⟩, ⟨0, 3, 0, 0, 6⟩]).map
      (fun t => (t.2.kind, t.2.index, t.2.ids)) =
    [(0, 0, [4]), (5, 1, [4, 7]), (6, 0, [4, 7]), (5, 1, [7, 4]), (3, 0, [7, 4])] := by decide

end Lunaria.Input
