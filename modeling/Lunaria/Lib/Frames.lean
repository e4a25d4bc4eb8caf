import Mathlib.Data.List.Basic

/-! Messages on a byte stream. A frame is a head of fixed length and a body; the stream is the frames one after another.
    What a reader has taken from the front of the stream is known from the messages as soon as it has a whole head. -/

namespace Lunaria
open List

/-- How a message of type `μ` goes over a stream of `β`. -/
structure Framing (μ β : Type) where
  head : μ → List β
  body : μ → List β
  size : Nat
  size_pos : 0 < size
  head_length : ∀ m, (head m).length = size

namespace Framing
variable {μ β : Type} (f : Framing μ β)

def frame (m : μ) : List β := f.head m ++ f.body m

/-- The stream that carries the messages. -/
def stream (ms : List μ) : List β := ms.flatMap f.frame

@[simp] theorem stream_nil : f.stream [] = [] := (rfl)

@[simp] theorem stream_cons (m : μ) (ms : List μ) :
    f.stream (m :: ms) = f.head m ++ (f.body m ++ f.stream ms) := by
  simp [stream, frame]

@[simp] theorem stream_append (ms ns : List μ) : f.stream (ms ++ ns) = f.stream ms ++ f.stream ns := by
  simp [stream]

variable {f}

theorem head_of_stream {ms : List μ} {h t : List β} (hh : h.length = f.size) (hs : h ++ t = f.stream ms) :
    ∃ m rest, ms = m :: rest ∧ h = f.head m ∧ t = f.body m ++ f.stream rest := by
  cases ms with
  | nil =>
    have hnil : h = [] := (append_eq_nil_iff.1 hs).1
    rw [hnil, length_nil] at hh
    exact absurd hh.symm (Nat.pos_iff_ne_zero.1 f.size_pos)
  | cons m rest =>
    rw [stream_cons] at hs
    obtain ⟨hhead, htail⟩ := append_inj hs (hh.trans (f.head_length m).symm)
    exact ⟨m, rest, rfl, hhead, htail⟩

theorem frame_of_stream {ms : List μ} {h b t : List β} (hh : h.length = f.size)
    (hb : ∀ m ∈ ms, f.head m = h → (f.body m).length = b.length) (hs : h ++ (b ++ t) = f.stream ms) :
    ∃ m rest, ms = m :: rest ∧ b = f.body m ∧ t = f.stream rest := by
  obtain ⟨m, rest, rfl, hhead, htail⟩ := head_of_stream hh hs
  obtain ⟨hbody, hrest⟩ := append_inj htail (hb m mem_cons_self hhead.symm).symm
  exact ⟨m, rest, rfl, hbody, hrest⟩

end Framing

/-! ### Filling a buffer in pieces -/

/-- The buffer with its bytes from `i` on replaced by the piece. -/
def fill {β : Type} (buf : List β) (i : Nat) (piece : List β) : List β :=
  buf.take i ++ piece ++ buf.drop (i + piece.length)

section
variable {β : Type} {buf piece : List β} {i : Nat}

theorem length_fill (h : i + piece.length ≤ buf.length) : (fill buf i piece).length = buf.length := by
  simp only [fill, length_append, length_take, length_drop]
  omega

theorem take_fill (h : i + piece.length ≤ buf.length) :
    (fill buf i piece).take (i + piece.length) = buf.take i ++ piece := by
  rw [fill]
  apply take_left'
  rw [length_append, length_take]
  omega

end

end Lunaria
