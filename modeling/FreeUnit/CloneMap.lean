/-
User and group maps of a namespace (`nxt_clone_vldt_credential_uidmap`,
`nxt_clone_vldt_credential_gidmap`).

An entry maps the ids from `container` to `container + size`.  Its numbers have
64 bits, and both bounds are cast to the 32 bits of an id before an id is
compared with them.

* `accepted_iff_all_fit` — a privileged server judges the maps by their intervals
  exactly as long as these bounds survive the cast.
-/
import Mathlib

namespace FreeUnit.Clone

/-- `nxt_clone_map_entry_t`; the configuration has no negative numbers here. -/
structure MapEntry where
  container : ℕ
  host : ℕ
  size : ℕ

/-- What is read of `nxt_credential_t`. -/
structure Credential where
  uid : UInt32
  baseGid : UInt32
  gids : List UInt32

def inEntry (id : UInt32) (m : MapEntry) : Bool :=
  UInt32.ofNat m.container ≤ id && id < UInt32.ofNat (m.container + m.size)

/-- `ngroups > 0 && !(ngroups == 1 && gids[0] == base_gid)` -/
def otherGroups (creds : Credential) : Bool :=
  creds.gids.length > 0 && !(creds.gids.length == 1 && creds.gids.head? == some creds.baseGid)

/-- `setid` tells a privileged server. -/
def vldtCredentialUidmap (setid : Bool) (euid : UInt32) (map : List MapEntry)
    (creds : Credential) : Bool :=
  match map with
  | [] => true
  | m :: rest =>
    if setid then map.any (inEntry creds.uid) else rest.isEmpty && UInt32.ofNat m.host == euid

/-- The loop over the entries, with `base_ok` and `gid_ok`. -/
def entryLoop (base gid : UInt32) : Bool → List MapEntry → Bool × Bool
  | baseOk, [] => (baseOk, false)
  | baseOk, m :: map =>
    let baseOk := baseOk || inEntry base m
    if inEntry gid m then (baseOk, true) else entryLoop base gid baseOk map

/-- The loop over the groups, with `base_ok` and `gids_ok`. -/
def gidsLoop (base : UInt32) (map : List MapEntry) : Bool → ℕ → List UInt32 → Bool × ℕ
  | baseOk, gidsOk, [] => (baseOk, gidsOk)
  | baseOk, gidsOk, gid :: gids =>
    let ok := entryLoop base gid baseOk map
    gidsLoop base map ok.1 (if ok.2 then gidsOk + 1 else gidsOk) gids

def vldtCredentialGidmap (setid : Bool) (egid : UInt32) (map : List MapEntry)
    (creds : Credential) : Bool :=
  if setid then
    if map.isEmpty then !otherGroups creds
    else
      let ok := gidsLoop creds.baseGid map false 0 creds.gids
      (ok.1 || map.any (inEntry creds.baseGid)) && !(ok.2 < creds.gids.length)
  else if otherGroups creds then false
  else
    match map with
    | [] => true
    | [m] => UInt32.ofNat m.host == egid && !(m.size > 1) && UInt32.ofNat m.container == creds.baseGid
    | _ => false

variable {m : MapEntry} {map umap gmap es : List MapEntry} {creds : Credential} {base gid : UInt32}

theorem otherGroups_iff : otherGroups creds = false ↔
    creds.gids = [] ∨ creds.gids = [creds.baseGid] := by
  rcases h : creds.gids with _ | ⟨gid, _ | ⟨gid', gids⟩⟩ <;> simp [otherGroups, h]

/-! ### The loops -/

theorem entryLoop_snd (baseOk : Bool) :
    (entryLoop base gid baseOk map).2 = map.any (inEntry gid) := by
  induction map generalizing baseOk with
  | nil => rfl
  | cons m map ih => ?_
  rw [entryLoop, List.any_cons]
  cases inEntry gid m
  · exact ih _
  · rfl

theorem entryLoop_fst {baseOk : Bool} (h : (entryLoop base gid baseOk map).1 = true) :
    baseOk = true ∨ map.any (inEntry base) = true := by
  induction map generalizing baseOk with
  | nil => exact .inl h
  | cons m map ih => ?_
  have hb : (baseOk || inEntry base m) = true ∨ map.any (inEntry base) = true := by
    rw [entryLoop] at h
    split_ifs at h
    · exact .inl h
    · exact ih h
  simpa [or_assoc] using hb

theorem gidsLoop_fst {baseOk : Bool} {n : ℕ} {gids : List UInt32}
    (h : (gidsLoop base map baseOk n gids).1 = true) :
    baseOk = true ∨ map.any (inEntry base) = true := by
  induction gids generalizing baseOk n with
  | nil => exact .inl h
  | cons gid gids ih => exact (ih h).elim entryLoop_fst .inr

theorem gidsLoop_snd (baseOk : Bool) (n : ℕ) (gids : List UInt32) :
    (gidsLoop base map baseOk n gids).2 = n + gids.countP fun gid => map.any (inEntry gid) := by
  induction gids generalizing baseOk n with
  | nil => rfl
  | cons gid gids ih => ?_
  rw [gidsLoop, ih, entryLoop_snd, List.countP_cons]
  split_ifs <;> omega

/-- A map with entries is searched for the primary group and for every other. -/
theorem vldtCredentialGidmap_iff (egid : UInt32) (hmap : map ≠ []) :
    vldtCredentialGidmap true egid map creds = true ↔ map.any (inEntry creds.baseGid) = true ∧
      ∀ gid ∈ creds.gids, map.any (inEntry gid) = true := by
  have hbase : ((gidsLoop creds.baseGid map false 0 creds.gids).1 ||
      map.any (inEntry creds.baseGid)) = map.any (inEntry creds.baseGid) := by
    cases h : (gidsLoop creds.baseGid map false 0 creds.gids).1
    · rfl
    rw [(gidsLoop_fst h).resolve_left Bool.false_ne_true]
    rfl
  have hempty : map.isEmpty = false := by simpa using hmap
  have hle := creds.gids.countP_le_length (p := fun gid => map.any (inEntry gid))
  simp only [vldtCredentialGidmap, if_true, hempty, Bool.false_eq_true, if_false, hbase,
    gidsLoop_snd, Bool.and_eq_true, ← List.countP_eq_length, Bool.not_eq_true', decide_eq_false_iff_not]
  exact and_congr_right fun _ => by omega

/-! ### The intervals -/

/-- `id` is one of the ids that an entry maps. -/
def MapEntry.Maps (m : MapEntry) (id : UInt32) : Prop :=
  m.container ≤ id.toNat ∧ id.toNat < m.container + m.size

/-- The maps cover the credentials. -/
def Covered (umap gmap : List MapEntry) (creds : Credential) : Prop :=
  (umap = [] ∨ ∃ m ∈ umap, m.Maps creds.uid) ∧
  ((∃ m ∈ gmap, m.Maps creds.baseGid) ∧ (∀ gid ∈ creds.gids, ∃ m ∈ gmap, m.Maps gid) ∨
    gmap = [] ∧ (creds.gids = [] ∨ creds.gids = [creds.baseGid]))

/-- The end of the interval has 32 bits, or there is nothing in it before and
after the cast. -/
def MapEntry.Fits (m : MapEntry) : Prop :=
  m.container + m.size < 2 ^ 32 ∨
    2 ^ 32 ≤ m.container ∧ (m.container + m.size) % 2 ^ 32 ≤ m.container % 2 ^ 32

theorem inEntry_iff (id : UInt32) (m : MapEntry) : inEntry id m = true ↔
    m.container % 2 ^ 32 ≤ id.toNat ∧ id.toNat < (m.container + m.size) % 2 ^ 32 := by
  simp [inEntry, UInt32.le_iff_toNat_le, UInt32.lt_iff_toNat_lt]

theorem fits_iff : (∀ id, inEntry id m = true ↔ m.Maps id) ↔ m.Fits := by
  simp only [inEntry_iff, MapEntry.Maps, MapEntry.Fits]
  constructor
  · intro h
    have hlast := h (UInt32.ofNat (2 ^ 32 - 1))
    have hfirst := h (UInt32.ofNat m.container)
    simp only [UInt32.toNat_ofNat'] at hlast hfirst
    omega
  · intro h id
    have := id.toNat_lt
    omega

theorem any_iff (hfits : ∀ m ∈ es, m.Fits) (hmap : map ⊆ es) (id : UInt32) :
    map.any (inEntry id) = true ↔ ∃ m ∈ map, m.Maps id := by
  rw [List.any_eq_true]
  exact exists_congr fun m => and_congr_right fun hm => fits_iff.mpr (hfits m (hmap hm)) id

/-- **The maps of a privileged server**: with entries from `es`, every map is
accepted for exactly the credentials it covers if and only if all these entries
fit. -/
theorem accepted_iff_all_fit (euid egid : UInt32) (es : List MapEntry) :
    (∀ umap gmap, umap ⊆ es → gmap ⊆ es → ∀ creds,
      (vldtCredentialUidmap true euid umap creds = true ∧
        vldtCredentialGidmap true egid gmap creds = true ↔ Covered umap gmap creds)) ↔
    ∀ m ∈ es, m.Fits := by
  constructor
  · intro h m hm
    refine fits_iff.mp fun id => ?_
    have := h [m] [] (by simpa using hm) (by simp) ⟨id, 0, []⟩
    simpa [vldtCredentialUidmap, vldtCredentialGidmap, otherGroups, Covered] using this
  · intro hfits umap gmap hu hg creds
    refine and_congr ?_ ?_
    · cases umap with
      | nil => simp [vldtCredentialUidmap]
      | cons m umap => simpa [vldtCredentialUidmap] using any_iff hfits hu creds.uid
    · rcases eq_or_ne gmap [] with rfl | hne
      · simp [vldtCredentialGidmap, otherGroups_iff]
      · simp only [vldtCredentialGidmap_iff egid hne, any_iff hfits hg, hne, false_and, or_false]

/-- An entry of 2^32 ids has none after the cast. -/
theorem accepted_wide : ¬ (vldtCredentialUidmap true 0 [⟨0, 0, 2 ^ 32⟩] ⟨0, 0, []⟩ = true ∧
    vldtCredentialGidmap true 0 [] ⟨0, 0, []⟩ = true ↔
      Covered [⟨0, 0, 2 ^ 32⟩] [] ⟨0, 0, []⟩) := by
  intro h
  have hcovered : Covered [⟨0, 0, 2 ^ 32⟩] [] ⟨0, 0, []⟩ := by simp [Covered, MapEntry.Maps]
  exact absurd (h.mpr hcovered).1 (by decide)

end FreeUnit.Clone
