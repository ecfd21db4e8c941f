/-
Transducers that may halt: machines that read symbols one by one.

Every symbol takes the machine to a new state with some output, or halts it
with a verdict; the symbols after the halt are not read.

* `run_append_running`, `run_append_halted` — a run over two words, by what
  the first one did;
* `run_trans` — two runs, one after the other.
-/
import Mathlib

namespace FreeUnit.Transducer

inductive Move (σ β ρ : Type*) where
  | go (s : σ) (out : List β)
  | halt (r : ρ)

inductive Outcome (α σ ρ : Type*) where
  | running (s : σ)
  | halted (r : ρ) (rest : List α)

variable {α β σ ρ : Type*} (step : σ → α → Move σ β ρ)

def run : σ → List α → List β × Outcome α σ ρ
  | s, [] => ([], .running s)
  | s, a :: w =>
    match step s a with
    | .go s' out => (out ++ (run s' w).1, (run s' w).2)
    | .halt r => ([], .halted r w)

variable {step} {s s' : σ} {a : α} {x y : List α} {out : List β} {r : ρ}

@[simp] theorem run_nil (step : σ → α → Move σ β ρ) (s : σ) :
    run step s [] = ([], .running s) := rfl

theorem run_cons_go (h : step s a = .go s' out) (w : List α) :
    run step s (a :: w) = (out ++ (run step s' w).1, (run step s' w).2) := by
  rw [run, h]

theorem run_cons_halt (h : step s a = .halt r) (w : List α) :
    run step s (a :: w) = ([], .halted r w) := by
  rw [run, h]

/-- After a word that left the machine running, the run goes on from there. -/
theorem run_append_running (h : run step s x = (out, .running s')) (y : List α) :
    run step s (x ++ y) = (out ++ (run step s' y).1, (run step s' y).2) := by
  induction x generalizing s out with
  | nil =>
    simp only [run_nil, Prod.mk.injEq, Outcome.running.injEq] at h
    obtain ⟨rfl, rfl⟩ := h
    rfl
  | cons a x ih => ?_
  cases hs : step s a with
  | halt r => simp [run_cons_halt hs] at h
  | go t o => ?_
  rw [run_cons_go hs, Prod.mk.injEq] at h
  obtain ⟨rfl, hrun⟩ := h
  have hx := ih (s := t) (Prod.ext rfl hrun)
  rw [List.cons_append, run_cons_go hs, hx, List.append_assoc]

theorem run_trans {s'' : σ} {out' : List β} (hx : run step s x = (out, .running s'))
    (hy : run step s' y = (out', .running s'')) :
    run step s (x ++ y) = (out ++ out', .running s'') := by
  rw [run_append_running hx, hy]

theorem run_singleton (h : step s a = .go s' out) : run step s [a] = (out, .running s') := by
  rw [run_cons_go h, run_nil, List.append_nil]

theorem run_append_halted {rest : List α} (h : run step s x = (out, .halted r rest))
    (y : List α) : run step s (x ++ y) = (out, .halted r (rest ++ y)) := by
  induction x generalizing s out with
  | nil => simp at h
  | cons a x ih => ?_
  cases hs : step s a with
  | halt r' =>
    rw [run_cons_halt hs] at h
    simp only [Prod.mk.injEq, Outcome.halted.injEq] at h
    obtain ⟨rfl, rfl, rfl⟩ := h
    rw [List.cons_append, run_cons_halt hs]
  | go t o => ?_
  rw [run_cons_go hs, Prod.mk.injEq] at h
  obtain ⟨rfl, hrun⟩ := h
  have hx := ih (s := t) (Prod.ext rfl hrun)
  rw [List.cons_append, run_cons_go hs, hx]

/-- A run that halts with the last symbol of a word is still running on a
shorter one. -/
theorem running_of_halted_nil (h : run step s (x ++ y) = (out, .halted r [])) (hy : y ≠ []) :
    ∃ o s', run step s x = (o, .running s') := by
  rcases hx : run step s x with ⟨o, s' | ⟨r', rest⟩⟩
  · exact ⟨o, s', rfl⟩
  rw [run_append_halted hx] at h
  simp_all

/-- `Inv` of the state, the symbols read and the output while the machine runs,
or `Post` of the verdict, the symbols read and the output. -/
def Ends (Inv : σ → List α → List β → Prop) (Post : ρ → List α → List β → Prop)
    (w : List α) : List β × Outcome α σ ρ → Prop
  | (o, .running s) => Inv s w o
  | (o, .halted r rest) => ∃ y, w = y ++ rest ∧ Post r y o

/-- **The rule for runs of a transducer.**  Every symbol keeps the invariant or
establishes the postcondition. -/
theorem run_rule (step : σ → α → Move σ β ρ) (Inv : σ → List α → List β → Prop)
    (Post : ρ → List α → List β → Prop)
    (hgo : ∀ {s x d a s' out}, Inv s x d → step s a = .go s' out → Inv s' (x ++ [a]) (d ++ out))
    (hhalt : ∀ {s x d a r}, Inv s x d → step s a = .halt r → Post r (x ++ [a]) d)
    (w : List α) : ∀ {s x d}, Inv s x d →
      Ends Inv Post (x ++ w) (d ++ (run step s w).1, (run step s w).2) := by
  induction w with
  | nil =>
    intro s x d h
    simpa [Ends] using h
  | cons a w ih => ?_
  intro s x d h
  cases hs : step s a with
  | halt r =>
    rw [run_cons_halt hs]
    exact ⟨x ++ [a], by simp, by simpa using hhalt h hs⟩
  | go s' out => ?_
  have hw := ih (hgo h hs)
  rw [run_cons_go hs]
  simpa using hw

end FreeUnit.Transducer
