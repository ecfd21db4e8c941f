/-
Prefix codes, read one symbol at a time.

A set of words is a prefix code when no word begins another one.  A sequence of
words can then be recognised by keeping only the symbols of the word that is not
yet complete.

* `Words` — the sequences of words;
* `Classifier` — a test that tells complete words, beginnings of words and
  everything else apart.
-/
import Mathlib

namespace PrefixCode

open List Option

variable {α : Type*}

inductive Words (IsWord : List α → Prop) : List α → Prop
  | nil : Words IsWord []
  | cons {w rest : List α} : IsWord w → Words IsWord rest → Words IsWord (w ++ rest)

structure IsCode (IsWord : List α → Prop) : Prop where
  ne_nil : ∀ w, IsWord w → w ≠ []
  free : ∀ u v, IsWord u → IsWord (u ++ v) → v = []

def Begins (IsWord : List α → Prop) (t : List α) : Prop := ∃ s, s ≠ [] ∧ IsWord (t ++ s)

variable {IsWord : List α → Prop}

namespace IsCode

variable (h : IsCode IsWord)

include h

theorem words_append_iff {w : List α} (hw : IsWord w) (rest : List α) :
    Words IsWord (w ++ rest) ↔ Words IsWord rest := by
  refine ⟨fun hwords => ?_, .cons hw⟩
  generalize hl : w ++ rest = l at hwords
  cases hwords with
  | nil => exact absurd (append_eq_nil_iff.mp hl).1 (h.ne_nil w hw)
  | @cons u more hu hmore => ?_
  have hsame : w = u := by
    rcases append_eq_append_iff.mp hl with ⟨s, rfl, -⟩ | ⟨s, rfl, -⟩
    · rw [h.free w s hw hu, append_nil]
    · rw [h.free u s hu hw, append_nil]
  subst hsame
  exact append_cancel_left hl ▸ hmore

/-- What is neither a word nor the beginning of one cannot be continued. -/
theorem not_words_of_dead {t : List α} (ht : Begins IsWord t) {c : α}
    (hword : ¬ IsWord (t ++ [c])) (hbegins : ¬ Begins IsWord (t ++ [c])) (rest : List α) :
    ¬ Words IsWord (t ++ [c] ++ rest) := by
  intro hwords
  generalize hl : t ++ [c] ++ rest = l at hwords
  cases hwords with
  | nil => simp at hl
  | @cons u more hu hmore => ?_
  rcases append_eq_append_iff.mp hl with ⟨s, rfl, -⟩ | ⟨s, hts, -⟩
  · -- the first word is longer
    by_cases hs : s = []
    · subst hs
      rw [append_nil] at hu
      exact hword hu
    · exact hbegins ⟨s, hs, hu⟩
  -- the first word ends before
  rcases eq_nil_or_concat s with rfl | ⟨s', d, rfl⟩
  · exact hword (by rwa [hts, append_nil])
  have hcut : t = u ++ s' := by
    rw [concat_eq_append, ← append_assoc] at hts
    exact (append_inj_left' hts rfl)
  obtain ⟨v, hv, hword'⟩ := ht
  rw [hcut, append_assoc] at hword'
  exact hv (append_eq_nil_iff.mp (h.free u (s' ++ v) hu hword')).2

theorem not_words_of_begins {t : List α} (ht : Begins IsWord t) (hne : t ≠ []) :
    ¬ Words IsWord t := by
  intro hwords
  cases hwords with
  | nil => exact hne rfl
  | @cons u more hu hmore => ?_
  obtain ⟨s, hs, hword⟩ := ht
  rw [append_assoc] at hword
  exact hs (append_eq_nil_iff.mp (h.free u (more ++ s) hu hword)).2

end IsCode

/-! ### Reading -/

inductive Verdict where
  | word
  | more
  | bad
  deriving DecidableEq

def Right (IsWord : List α → Prop) (seq : List α) : Verdict → Prop
  | .word => IsWord seq
  | .more => Begins IsWord seq
  | .bad => ¬ IsWord seq ∧ ¬ Begins IsWord seq

/-- The verdict is right for what one symbol adds to a beginning. -/
def Classifies (IsWord : List α → Prop) (classify : List α → Verdict) : Prop :=
  ∀ t c, Begins IsWord t → Right IsWord (t ++ [c]) (classify (t ++ [c]))

section Run

variable (classify : List α → Verdict)

def step (t : List α) (c : α) : Option (List α) :=
  match classify (t ++ [c]) with
  | .word => some []
  | .more => some (t ++ [c])
  | .bad => none

/-- Many symbols; what is kept is the beginning of the next word. -/
def run : List α → List α → Option (List α)
  | t, [] => some t
  | t, c :: cs => (step classify t c).bind fun t => run t cs

theorem run_append (t a b : List α) :
    run classify t (a ++ b) = (run classify t a).bind fun t => run classify t b := by
  induction a generalizing t with
  | nil => rfl
  | cons c a ih =>
    rw [cons_append, run, run, bind_assoc]
    exact congrArg _ (funext ih)

variable {classify}

/-- **Reading accepts the sequences of words.** -/
theorem run_eq_nil_iff (hcode : IsCode IsWord) (hc : Classifies IsWord classify) {t : List α}
    (ht : Begins IsWord t) (hnil : Begins IsWord []) (cs : List α) :
    run classify t cs = some [] ↔ Words IsWord (t ++ cs) := by
  induction cs generalizing t with
  | nil =>
    rw [run, some.injEq, append_nil]
    refine ⟨fun h => h ▸ .nil, fun hwords => ?_⟩
    by_contra hne
    exact hcode.not_words_of_begins ht hne hwords
  | cons c cs ih => ?_
  have hverdict := hc t c ht
  have hsplit : t ++ c :: cs = t ++ [c] ++ cs := by simp
  rw [run, hsplit, step]
  split
  case h_1 hv =>
    rw [hv] at hverdict
    rw [bind_some, ih hnil, nil_append, hcode.words_append_iff hverdict]
  case h_2 hv =>
    rw [hv] at hverdict
    rw [bind_some, ih hverdict]
  case h_3 hv =>
    rw [hv] at hverdict
    exact iff_of_false nofun (hcode.not_words_of_dead ht hverdict.1 hverdict.2 cs)

end Run

end PrefixCode
