/-
The match of a shared path against the path of `chroot`,
`nxt_http_static_chroot_match`.

* `names`, `components` — what stands between the slashes, however many;
* `chrootMatch_components` — the match is one of whole components.
-/
import FreeUnit.Bytes

namespace FreeUnit.Static

open List

/-- The loop over both paths, each with the byte before its pointer; a list ends
where the string has its zero.  It is left with the pointer into the shared path. -/
def chrootScan (c₀ : UInt8) (chr : Bytes) (s₀ : UInt8) (shr : Bytes) : Option (UInt8 × Bytes) :=
  match chr, shr with
  | _, [] => none
  | [], s :: shr => some (s₀, s :: shr)
  | c :: chr, s :: shr =>
    if c = s then chrootScan c chr s shr
    else if c = 0x2F then
      if c₀ = 0x2F then chrootScan c chr s₀ (s :: shr) else none
    else if s = 0x2F then
      if s₀ = 0x2F then chrootScan c₀ (c :: chr) s shr else none
    else none
  termination_by chr.length + shr.length

/-- Behind the loop: a component has to end here, and another one to follow. -/
def chrootRest (s₀ : UInt8) (shr : Bytes) : Option Bytes :=
  if s₀ ≠ 0x2F ∧ shr.head? ≠ some 0x2F then none
  else if shr.dropWhile (· == 0x2F) = [] then none
  else some (shr.dropWhile (· == 0x2F))

/-- `nxt_http_static_chroot_match`; the source reads behind an empty string. -/
def chrootMatch : Bytes → Bytes → Option Bytes
  | c :: chr, s :: shr =>
    if c ≠ s then none
    else (chrootScan c chr s shr).bind fun r => chrootRest r.1 r.2
  | _, _ => none

/-- The names in a path. -/
def names (p : Bytes) : List Bytes := (p.splitOn 0x2F).filter (· ≠ [])

/-- The components of a path: the root, if it starts there, and the names. -/
def components (p : Bytes) : List Bytes :=
  if p.head? = some 0x2F then [0x2F] :: names p else names p

@[simp]
theorem names_nil : names [] = [] := rfl

@[simp]
theorem names_slash (p : Bytes) : names (0x2F :: p) = names p := by
  have hsplit : (0x2F :: p).splitOn 0x2F = [] :: p.splitOn 0x2F := (splitOn_sep not_mem_nil).2 p
  rw [names, hsplit]
  rfl

theorem names_cons {x : UInt8} (hx : x ≠ 0x2F) (p : Bytes) :
    names (x :: p) = (x :: p.takeWhile (· != 0x2F)) :: names (p.dropWhile (· != 0x2F)) := by
  by_cases hp : 0x2F ∈ p
  · obtain ⟨w, t, rfl, hw⟩ := eq_append_cons_of_mem hp
    obtain ⟨htake, hdrop⟩ := span_sep hw t
    have hxw : 0x2F ∉ x :: w := by simp [hx.symm, hw]
    rw [htake, hdrop, names_slash, names, ← cons_append, (splitOn_sep hxw).2]
    rfl
  have hall : ∀ c ∈ p, (c != 0x2F) = true := fun c hc => by
    simpa using fun hcx : c = 0x2F => hp (hcx ▸ hc)
  have hxp : 0x2F ∉ x :: p := by simp [hx.symm, hp]
  rw [takeWhile_eq_self_iff.mpr hall, dropWhile_eq_nil_iff.mpr hall, names, (splitOn_sep hxp).1]
  rfl

/-- A byte that both paths have in common. -/
theorem names_step (p x : UInt8) (chr shr : Bytes) (extra : List Bytes) :
    names (p :: x :: shr) = names (p :: x :: chr) ++ extra ↔
      names (x :: shr) = names (x :: chr) ++ extra := by
  by_cases hp : p = 0x2F
  · rw [hp, names_slash, names_slash]
  by_cases hx : x = 0x2F
  · simp [hx, names_cons hp]
  · simp [names_cons hp, names_cons hx, hx]

theorem names_dropWhile (p : Bytes) : names (p.dropWhile (· == 0x2F)) = names p := by
  induction p with
  | nil => rfl
  | cons x p ih => by_cases hx : x = 0x2F <;> simp [hx, ih]

/-- What the match has to find behind `p`, the byte before both pointers. -/
def Outcome (p : UInt8) (chr shr : Bytes) : Option Bytes → Prop
  | some rest => rest ≠ [] ∧ rest.head? ≠ some 0x2F ∧ rest <:+ shr ∧
      names (p :: shr) = names (p :: chr) ++ names rest
  | none => ∀ extra, names (p :: shr) = names (p :: chr) ++ extra → extra = []

theorem Outcome.congr {p q : UInt8} {chr chr' shr shr' : Bytes} {r : Option Bytes}
    (h : Outcome p chr shr r) (hs : shr <:+ shr') (hnames : ∀ extra,
      names (q :: shr') = names (q :: chr') ++ extra ↔ names (p :: shr) = names (p :: chr) ++ extra) :
    Outcome q chr' shr' r := by
  cases r with
  | none => exact fun extra he => h extra ((hnames extra).mp he)
  | some rest => exact ⟨h.1, h.2.1, h.2.2.1.trans hs, (hnames _).mpr h.2.2.2⟩

theorem names_differ {p x y : UInt8} {chr shr : Bytes} {extra : List Bytes} (hxy : x ≠ y)
    (h : p ≠ 0x2F ∨ x ≠ 0x2F ∧ y ≠ 0x2F) :
    names (p :: y :: shr) ≠ names (p :: x :: chr) ++ extra := by
  by_cases hp : p = 0x2F
  · obtain ⟨hx, hy⟩ := h.resolve_left (not_not.mpr hp)
    simp [hp, names_cons hx, names_cons hy, hxy.symm]
  rw [names_cons hp, names_cons hp]
  by_cases hx : x = 0x2F
  · simp [hx, hx ▸ hxy.symm]
  by_cases hy : y = 0x2F
  · simp [hy, hx]
  · simp [hx, hy, hxy.symm]

theorem chrootRest_outcome (p s : UInt8) (shr : Bytes) :
    Outcome p [] (s :: shr) (chrootRest p (s :: shr)) := by
  have hdrop := names_dropWhile (s :: shr)
  have hsuffix := dropWhile_suffix (· == 0x2F) (l := s :: shr)
  have hhead : ((s :: shr).dropWhile (· == 0x2F)).head? ≠ some 0x2F := fun h => by
    simpa [h] using head?_dropWhile_not (· == 0x2F) (s :: shr)
  unfold chrootRest
  split
  · rename_i h
    have hs : s ≠ 0x2F := by simpa using h.2
    intro extra he
    simp [names_cons h.1, hs] at he
  rename_i h
  have hnames : names (p :: s :: shr) = names [p] ++ names (s :: shr) := by
    by_cases hp : p = 0x2F
    · simp [hp]
    have hs : s = 0x2F := by simpa [hp] using h
    simp [names_cons hp, hs]
  split
  · rename_i hnil
    intro extra he
    rw [hnames, append_cancel_left_eq, ← hdrop, hnil] at he
    exact he.symm
  rename_i hne
  exact ⟨hne, hhead, hsuffix, by rw [hnames, hdrop]⟩

/-- **The loop**, from any two places behind the same byte. -/
theorem chrootScan_outcome (c₀ : UInt8) (chr : Bytes) (s₀ : UInt8) (shr : Bytes) (h : c₀ = s₀) :
    Outcome s₀ chr shr ((chrootScan c₀ chr s₀ shr).bind fun r => chrootRest r.1 r.2) := by
  fun_induction chrootScan c₀ chr s₀ shr with
  | case1 c₀ chr s₀ =>
    intro extra he
    by_cases hs : s₀ = 0x2F
    · rw [hs, names_slash, names_slash, names_nil, eq_comm, append_eq_nil_iff] at he
      exact he.2
    rw [names_cons hs, names_cons hs, cons_append] at he
    exact (append_eq_nil_iff.mp (cons.inj he).2.symm).2
  | case2 c₀ s₀ s shr => exact chrootRest_outcome s₀ s shr
  | case3 c₀ s₀ chr s shr ih => exact (ih rfl).congr (suffix_cons ..) (names_step s₀ s chr shr)
  | case4 s₀ chr s shr hcs ih => exact (ih h).congr (suffix_refl _) (by simp [← h])
  | case5 c₀ s₀ chr s shr hp hcs => exact fun _ he => absurd he (names_differ hcs (.inl (h ▸ hp)))
  | case6 c₀ c chr shr hc hcs ih => exact (ih h).congr (suffix_cons ..) (by simp)
  | case7 c₀ s₀ c chr shr hc hp hcs => exact fun _ he => absurd he (names_differ hcs (.inl hp))
  | case8 c₀ s₀ c chr s shr hcs hc hs =>
    exact fun _ he => absurd he (names_differ hcs (.inr ⟨hc, hs⟩))

/-- The first bytes are compared as if a name went on. -/
theorem chrootMatch_outcome (c s : UInt8) (chr shr : Bytes) :
    Outcome 0 (c :: chr) (s :: shr) (chrootMatch (c :: chr) (s :: shr)) := by
  have hout := chrootScan_outcome 0 (c :: chr) 0 (s :: shr) rfl
  rw [chrootScan] at hout
  by_cases hcs : c = s <;> simpa [chrootMatch, hcs] using hout

theorem components_iff (c s : UInt8) (chr shr : Bytes) (extra : List Bytes) :
    components (s :: shr) = components (c :: chr) ++ extra ↔
      names (0 :: s :: shr) = names (0 :: c :: chr) ++ extra := by
  have h0 : (0 : UInt8) ≠ 0x2F := by decide
  by_cases hc : c = 0x2F <;> by_cases hs : s = 0x2F <;>
    simp [components, names_cons h0, names_cons, hc, hs, Ne.symm]

/-- **The match succeeds exactly if the components of the `chroot` path are some
but not all of the first components of the shared path**; it answers with what
follows them. -/
theorem chrootMatch_components (c s : UInt8) (chr shr : Bytes) :
    ((chrootMatch (c :: chr) (s :: shr)).isSome ↔
      ∃ extra, extra ≠ [] ∧ components (s :: shr) = components (c :: chr) ++ extra) ∧
    ∀ rest, chrootMatch (c :: chr) (s :: shr) = some rest →
      rest ≠ [] ∧ rest.head? ≠ some 0x2F ∧ rest <:+ s :: shr ∧
        components (s :: shr) = components (c :: chr) ++ names rest := by
  have hout := chrootMatch_outcome c s chr shr
  simp only [components_iff]
  cases hr : chrootMatch (c :: chr) (s :: shr) with
  | none =>
    rw [hr] at hout
    simpa using fun extra hne he => hne (hout extra he)
  | some rest => ?_
  rw [hr] at hout
  have hrest : names rest ≠ [] := by
    obtain ⟨x, w, rfl⟩ := exists_cons_of_ne_nil hout.1
    simp [names_cons (by simpa using hout.2.1 : x ≠ 0x2F)]
  refine ⟨⟨fun _ => ⟨_, hrest, hout.2.2.2⟩, fun _ => rfl⟩, ?_⟩
  rintro _ ⟨⟩
  exact hout

end FreeUnit.Static
