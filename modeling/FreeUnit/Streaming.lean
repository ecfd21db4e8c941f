/-
Readers: programs that get their input in pieces.

A reader has a state; every piece of input either leaves it in a new state or
stops it with a result.  `feed` gives it the pieces one after another; what
comes after it has stopped is handed to its result by `rest`, since the
reader never sees it.

* `feed_rule` — the rule for proving something about whole runs: an invariant
  that relates the state to the pieces so far, and a postcondition for the
  results.
-/
import Mathlib

namespace FreeUnit.Streaming

inductive Step (σ ρ : Type*) where
  | more (s : σ)
  | stop (r : ρ)
  deriving DecidableEq, Repr

variable {σ ρ α : Type*} (run : σ → List α → Step σ ρ) (rest : ρ → List α → ρ)

def feed : σ → List (List α) → Step σ ρ
  | s, [] => .more s
  | s, piece :: pieces =>
    match run s piece with
    | .more s' => feed s' pieces
    | .stop r => .stop (rest r pieces.flatten)

/-- `Inv` of the state and the pieces so far, or `Post` of the result and all
pieces. -/
def Holds (Inv : σ → List (List α) → Prop) (Post : ρ → List (List α) → Prop)
    (pieces : List (List α)) : Step σ ρ → Prop
  | .more s => Inv s pieces
  | .stop r => Post r pieces

/-- **The rule for runs of a reader.**  One step keeps the invariant or
establishes the postcondition, and pieces after the stop do not disturb it. -/
theorem feed_rule (Inv : σ → List (List α) → Prop) (Post : ρ → List (List α) → Prop)
    (hstep : ∀ s seen piece, Inv s seen → Holds Inv Post (seen ++ [piece]) (run s piece))
    (hrest : ∀ r seen more, Post r seen → Post (rest r more.flatten) (seen ++ more))
    (pieces : List (List α)) {s : σ} (hinit : Inv s []) :
    Holds Inv Post pieces (feed run rest s pieces) := by
  suffices ∀ (pieces : List (List α)) {s : σ} {seen : List (List α)}, Inv s seen →
      Holds Inv Post (seen ++ pieces) (feed run rest s pieces) from this pieces hinit
  intro pieces
  induction pieces with
  | nil =>
    intro s seen h
    rw [List.append_nil]
    exact h
  | cons piece pieces ih => ?_
  intro s seen h
  have hpiece := hstep s seen piece h
  rw [List.append_cons, feed]
  cases hr : run s piece with
  | more s' =>
    rw [hr] at hpiece
    exact ih hpiece
  | stop r => ?_
  rw [hr] at hpiece
  exact hrest r _ pieces hpiece

end FreeUnit.Streaming
