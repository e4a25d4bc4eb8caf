import Mathlib.Data.List.Basic

/-! Computations that ask for values, may fail, and are told apart by what they have asked. Two ways to answer are
    compared: one that always answers, and one that answers the same where a question passes a test and refuses the
    others. -/

namespace Lunaria.Questions

/-- What is computed from the answers to questions, and the questions in their order. -/
def Asking (Q A E α : Type) : Type := (Q → Option A) → Except E α × List Q

variable {Q A E α β : Type}

namespace Asking

protected def pure (a : α) : Asking Q A E α := fun _ => (.ok a, [])

protected def bind (m : Asking Q A E α) (f : α → Asking Q A E β) : Asking Q A E β := fun answer =>
  match m answer with
  | (.error e, asked) => (.error e, asked)
  | (.ok a, asked) => ((f a answer).1, asked ++ (f a answer).2)

instance : Monad (Asking Q A E) where
  pure := Asking.pure
  bind := Asking.bind

end Asking

theorem pure_bind (a : α) (f : α → Asking Q A E β) : (pure a >>= f) = f a := rfl

/-- A computation that asks nothing. -/
def lift (r : Except E α) : Asking Q A E α := fun _ => (r, [])

def fail (e : E) : Asking Q A E α := lift (.error e)

/-- The answer to a question, or a failure if it is refused. -/
def ask (q : Q) (e : E) : Asking Q A E A := fun answer =>
  ((match answer q with
    | some a => .ok a
    | none => .error e), [q])

section
variable {free strict : Q → Option A} {P : Q → Prop} {m : Asking Q A E α}

/-- The second way to answer is the first where questions pass the test, and refuses the others. -/
structure Restricts (free strict : Q → Option A) (P : Q → Prop) : Prop where
  keeps : ∀ q, P q → strict q = free q
  refuses : ∀ q, ¬P q → strict q = none

/-- If all questions pass, both ways to answer give the same, and else the second fails. -/
def Agrees (free strict : Q → Option A) (P : Q → Prop) (m : Asking Q A E α) : Prop :=
  ((∀ q ∈ (m free).2, P q) → m strict = m free) ∧ ((¬∀ q ∈ (m free).2, P q) → ∃ e, (m strict).1 = .error e)

theorem agrees_lift (r : Except E α) : Agrees free strict P (lift r : Asking Q A E α) :=
  ⟨fun _ => rfl, fun h => absurd (fun _ hq => nomatch hq) h⟩

theorem agrees_pure (a : α) : Agrees free strict P (pure a : Asking Q A E α) := agrees_lift (.ok a)

theorem agrees_fail (e : E) : Agrees free strict P (fail e : Asking Q A E α) := agrees_lift (.error e)

theorem agrees_ask (h : Restricts free strict P) (q : Q) (e : E) : Agrees free strict P (ask q e) := by
  have hasked : (ask q e free : Except E A × List Q).2 = [q] := rfl
  constructor
  · intro hall
    have hq := hall q (by rw [hasked]; exact List.mem_singleton_self q)
    rw [ask, ask, h.keeps q hq]
  · intro hno
    have hq : ¬P q := fun hq => hno fun q' hq' => by
      rw [hasked] at hq'
      rwa [List.mem_singleton.1 hq']
    refine ⟨e, ?_⟩
    rw [ask, h.refuses q hq]

theorem agrees_bind {f : α → Asking Q A E β} (hm : Agrees free strict P m) (hf : ∀ a, Agrees free strict P (f a)) :
    Agrees free strict P (m >>= f) := by
  change Agrees free strict P (Asking.bind m f)
  cases hfree : m free with
  | mk r asked =>
    obtain ⟨hsame, hrefused⟩ := hm
    rw [hfree] at hsame hrefused
    cases r with
    | error e =>
      have hbind : Asking.bind m f free = (.error e, asked) := by rw [Asking.bind, hfree]
      constructor
      · intro hall
        rw [hbind] at hall
        rw [hbind, Asking.bind, hsame hall]
      · intro hno
        rw [hbind] at hno
        obtain ⟨e', he'⟩ := hrefused hno
        refine ⟨e', ?_⟩
        rw [Asking.bind]
        cases hstrict : m strict with
        | mk r' asked' =>
          rw [hstrict] at he'
          dsimp only at he'
          rw [he']
    | ok a =>
      have hbind : Asking.bind m f free = ((f a free).1, asked ++ (f a free).2) := by rw [Asking.bind, hfree]
      by_cases hfirst : ∀ q ∈ asked, P q
      · have hstrict :
          Asking.bind m f strict = ((f a strict).1, asked ++ (f a strict).2) := by rw [Asking.bind, hsame hfirst]
        rw [Agrees, hbind, hstrict]
        dsimp only
        constructor
        · intro hall
          rw [(hf a).1 fun q hq => hall q (List.mem_append_right _ hq)]
        · intro hno
          refine (hf a).2 fun hsecond => hno fun q hq => ?_
          rcases List.mem_append.1 hq with hq | hq
          · exact hfirst q hq
          · exact hsecond q hq
      · obtain ⟨e, he⟩ := hrefused hfirst
        have hstrict : (Asking.bind m f strict).1 = .error e := by
          rw [Asking.bind]
          cases hm' : m strict with
          | mk r' asked' =>
            rw [hm'] at he
            dsimp only at he
            rw [he]
        rw [Agrees, hbind]
        exact ⟨fun hall => absurd (fun q hq => hall q (List.mem_append_left _ hq)) hfirst, fun _ => ⟨e, hstrict⟩⟩

theorem agrees_map (f : α → β) (hm : Agrees free strict P m) : Agrees free strict P (f <$> m) :=
  agrees_bind hm fun a => agrees_pure (f a)

/-- What is computed where all questions pass is so. -/
def Gives (answer : Q → Option A) (P : Q → Prop) (m : Asking Q A E α) (R : α → Prop) : Prop :=
  ∀ a, (∀ q ∈ (m answer).2, P q) → (m answer).1 = .ok a → R a

section
variable {answer : Q → Option A} {R : α → Prop} {S : β → Prop}

theorem gives_pure {a : α} (h : R a) : Gives answer P (pure a : Asking Q A E α) R := by
  intro b _ hok
  cases hok
  exact h

theorem gives_fail (e : E) : Gives answer P (fail e : Asking Q A E α) R := by
  intro a _ hok
  cases hok

theorem gives_lift {r : Except E α} (h : ∀ a, r = .ok a → R a) : Gives answer P (lift r : Asking Q A E α) R :=
  fun a _ hok => h a hok

theorem gives_ask {q : Q} {e : E} {R : A → Prop} (h : ∀ a, P q → answer q = some a → R a) : Gives answer P (ask q e) R := by
  intro a hall hok
  cases hanswer : answer q with
  | none =>
    rw [ask, hanswer] at hok
    cases hok
  | some b =>
    rw [ask, hanswer] at hok
    cases hok
    exact h a (hall q (List.mem_singleton_self q)) hanswer

theorem gives_bind {f : α → Asking Q A E β} (hm : Gives answer P m R) (hf : ∀ a, R a → Gives answer P (f a) S) :
    Gives answer P (m >>= f) S := by
  intro b hall hok
  change (Asking.bind m f answer).1 = _ at hok
  change ∀ q ∈ (Asking.bind m f answer).2, P q at hall
  cases hrun : m answer with
  | mk r asked =>
    rw [Asking.bind, hrun] at hok hall
    cases r with
    | error e => cases hok
    | ok a =>
      dsimp only at hok hall
      have ha := hm a (by rw [hrun]; exact fun q hq => hall q (List.mem_append_left _ hq)) (by rw [hrun])
      exact hf a ha b (fun q hq => hall q (List.mem_append_right _ hq)) hok

/-- A rule for a value of which nothing has to be known. -/
theorem gives_then {f : α → Asking Q A E β} (hf : ∀ a, Gives answer P (f a) S) : Gives answer P (m >>= f) S :=
  gives_bind (R := fun _ => True) (fun _ _ _ => trivial) fun a _ => hf a

theorem Gives.mono {R' : α → Prop} (hm : Gives answer P m R) (h : ∀ a, R a → R' a) : Gives answer P m R' :=
  fun a hall hok => h a (hm a hall hok)

end

/-- What is computed is computed under the second way as well if and only if all questions pass. -/
theorem Agrees.ok_iff (h : Agrees free strict P m) {a : α} (hok : (m free).1 = .ok a) :
    (m strict).1 = .ok a ↔ ∀ q ∈ (m free).2, P q := by
  constructor
  · intro hstrict
    by_contra hno
    obtain ⟨e, he⟩ := h.2 hno
    rw [hstrict] at he
    cases he
  · intro hall
    rw [h.1 hall, hok]

end

end Lunaria.Questions
