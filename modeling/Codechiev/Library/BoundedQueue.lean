import Mathlib.Data.List.Basic
import Mathlib.Tactic.Common

/-!
# Bounded queues with slack

A queue that holds its content in one piece of memory with `cap` places. Taking elements off the
front leaves their places unused until the content is moved to the front, so how much more fits is
part of the state. That content and room are within the capacity is a field.
-/

/-- A queue, and how many more elements it takes. -/
@[ext] structure BoundedQueue (α : Type*) (cap : ℕ) where
  content : List α
  room : ℕ
  fits : content.length + room ≤ cap

namespace BoundedQueue

variable {α : Type*} {cap : ℕ}

/-- Nothing is queued, and all places are free. -/
def empty : BoundedQueue α cap := ⟨[], cap, by simp⟩

/-- The elements that there is room for join the queue. -/
def append (q : BoundedQueue α cap) (xs : List α) : BoundedQueue α cap where
  content := q.content ++ xs.take q.room
  room := q.room - xs.length
  fits := by
    have := q.fits
    rw [List.length_append, List.length_take]
    omega

/-- The first `n` elements leave the queue. Their places stay unused. -/
def drop (q : BoundedQueue α cap) (n : ℕ) : BoundedQueue α cap where
  content := q.content.drop n
  room := q.room
  fits := by
    have := q.fits
    rw [List.length_drop]
    omega

/-- The content moves to the front, and every place that it does not need is free. -/
def compact (q : BoundedQueue α cap) : BoundedQueue α cap where
  content := q.content
  room := cap - q.content.length
  fits := by
    have := q.fits
    omega

end BoundedQueue
