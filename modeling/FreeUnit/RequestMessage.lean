/-
What an application reads from the message that was built for it.

* `prepareMsg_read` — the message is read as the request, or refused.
-/
import FreeUnit.UnitRequest
import FreeUnit.ResponseFields

namespace FreeUnit.UnitRequest

open List

/-! ### The fields that an application gets -/

abbrev Entry := (ℕ × HttpField) × List (ℕ × HttpField)

/-- **The fields that an application gets**: every line that repeats no earlier
one. -/
def entriesOf (pre : Bytes) : List HttpField → List (ℕ × HttpField) → List Entry
  | _, [] => []
  | earlier, l :: rest =>
    if l.2.skip then entriesOf pre earlier rest
    else if earlier.any fun e => repeats pre e l.2 then entriesOf pre (earlier ++ [l.2]) rest
    else (l, rest.filter fun d => repeats pre l.2 d.2) :: entriesOf pre (earlier ++ [l.2]) rest

def joined (name : Bytes) (dups : List (ℕ × HttpField)) : Bytes :=
  dups.flatMap fun d => separator name ++ d.2.value

/-- The value of a field, with those of the lines that are joined to it. -/
def Entry.value (e : Entry) : Bytes := e.1.2.value ++ joined e.1.2.name e.2

def plain (l : Line) : ℕ × HttpField := (l.index, l.field)

variable {pre s : Bytes} {f : HttpField} {rest : List Line} {base : ℕ} {es : List Entry}
  {earlier : List HttpField} {e : Entry} {env : Env} {chain : Chain}

variable {d : HttpField}

theorem repeats_trans {g : HttpField} (hfg : repeats pre f g = true) (hgd : repeats pre g d = true) :
    repeats pre f d = true := by
  simp only [repeats, Bool.and_eq_true, beq_iff_eq, strcasestrEq] at hfg hgd ⊢
  exact ⟨hfg.1, ⟨hgd.2.1.1, hgd.2.1.2.trans hfg.2.1.2⟩, hgd.2.2.trans hfg.2.2⟩

theorem repeats_of_common {g : HttpField} (hg : g.skip = false) (hfd : repeats pre f d = true)
    (hgd : repeats pre g d = true) : repeats pre f g = true := by
  simp only [repeats, Bool.and_eq_true, beq_iff_eq, strcasestrEq] at hfd hgd ⊢
  refine ⟨hfd.1, ⟨?_, hgd.2.1.2.symm.trans hfd.2.1.2⟩, hgd.2.2.symm.trans hfd.2.2⟩
  rw [hg]
  rfl

theorem skip_of_repeats (h : repeats pre f d = true) : d.skip = false := by
  simp only [repeats, Bool.and_eq_true, Bool.not_eq_true'] at h
  exact h.2.1.1

/-! ### Joining lines -/

/-- A line that repeats `f` gets the mark. -/
def mark (pre : Bytes) (f : HttpField) (d : Line) : Line :=
  if repeats pre f d.field then { d with merged := true } else d

theorem plain_mark (pre : Bytes) (f : HttpField) (d : Line) : plain (mark pre f d) = plain d := by
  unfold mark
  split
  · rfl
  · rfl

/-- The lines of `rest` that repeat `f`. -/
def dupsOf (pre : Bytes) (f : HttpField) (rest : List Line) : List (ℕ × HttpField) :=
  (rest.map plain).filter fun d => repeats pre f d.2

theorem length_separator (name : Bytes) : (separator name).length = 2 := by
  unfold separator
  split
  · rfl
  · rfl

/-- **The inner loop** joins the lines that repeat `f`, and marks them. -/
theorem joinLines_eq (req : AppRequest) (pre : Bytes) (f : HttpField) (dst : UInt32)
    (rest : List Line) (n : ℕ) (data : Bytes) (slots : Slots) :
    joinLines req pre f dst rest (UInt32.ofNat n) data slots =
      (rest.map (mark pre f), UInt32.ofNat (n + (joined f.name (dupsOf pre f rest)).length),
        data ++ joined f.name (dupsOf pre f rest),
        (dupsOf pre f rest).foldl (fun s d => noteDup req s d.1 dst) slots) := by
  induction rest generalizing n data slots with
  | nil => simp [joinLines, dupsOf, joined]
  | cons dup rest ih => ?_
  unfold joinLines
  split
  · rename_i hrep
    have hdups : dupsOf pre f (dup :: rest) = plain dup :: dupsOf pre f rest := by
      simp [dupsOf, plain, hrep]
    have hlen : (UInt32.ofNat n + (2 + UInt32.ofNat dup.field.value.length)) =
        UInt32.ofNat (n + (2 + dup.field.value.length)) := by
      simp [UInt32.ofNat_add]
    have hjoin : joined f.name (plain dup :: dupsOf pre f rest) =
        separator f.name ++ dup.field.value ++ joined f.name (dupsOf pre f rest) := by
      simp [joined, plain]
    have hmark : mark pre f dup = { dup with merged := true } := by simp [mark, hrep]
    rw [hlen, ih, hdups, hjoin, map_cons, hmark]
    simp only [foldl_cons, length_append, length_separator, append_assoc, plain, Nat.add_assoc]
  rename_i hrep
  have hdups : dupsOf pre f (dup :: rest) = dupsOf pre f rest := by
    simp [dupsOf, plain, hrep]
  have hmark : mark pre f dup = dup := by simp [mark, hrep]
  rw [ih, hdups, map_cons, hmark]

/-! ### One field -/

/-- Record `k` of the table is an entry. -/
structure RecordOf (pre : Bytes) (base : ℕ) (b : Fields) (k : ℕ) (e : Entry) (u : UnitField) :
    Prop where
  at_eq : b.table[k]? = some u
  hash : u.hash = e.1.2.hash
  skip : u.skip = false
  nameLength : u.nameLength.toNat = (appName pre e.1.2.name).length
  valueLength : u.valueLength.toNat = e.value.length
  name : StringAt base b.data (sptrGet (recordPos k + 8) u.name) (appName pre e.1.2.name)
  value : StringAt base b.data (sptrGet (recordPos k + 12) u.value) e.value

/-- What an entry does to the numbers of fields in the head. -/
def entrySlots (req : AppRequest) (s : Slots) (k : ℕ) (e : Entry) : Slots :=
  e.2.foldl (fun s d => noteDup req s d.1 (UInt32.ofNat k)) (noteField req s e.1.1 (UInt32.ofNat k))

def slotsOf (req : AppRequest) (es : List Entry) : Slots :=
  es.zipIdx.foldl (fun s x => entrySlots req s x.2 x.1) {}

structure Holds (req : AppRequest) (pre : Bytes) (base : ℕ) (b : Fields) (es : List Entry) :
    Prop where
  count : b.count = es.length
  record : ∀ k e, es[k]? = some e → ∃ u, RecordOf pre base b k e u
  slots : b.slots = slotsOf req es

def unwritten (ls : List Line) : List Line := ls.filter fun l => !l.field.skip && !l.merged

structure Room (pre : Bytes) (base size : ℕ) (b : Fields) (ls : List Line) : Prop where
  base_eq : base = recordPos b.table.length
  small : size < 2 ^ 32
  table : b.count + (unwritten ls).length ≤ b.table.length
  data : base + b.data.length + ((unwritten ls).map fun l => lineSize pre l.field).sum ≤ size
  names : ∀ l ∈ unwritten ls, l.field.name.length + pre.length ≤ 255

variable {size : ℕ} {b : Fields} {l : Line}

theorem Room.tail (h : Room pre base size b (l :: rest))
    (hsame : unwritten (l :: rest) = unwritten rest) : Room pre base size b rest :=
  ⟨h.base_eq, h.small, hsame ▸ h.table, hsame ▸ h.data, hsame ▸ h.names⟩

theorem length_appName (pre name : Bytes) : (appName pre name).length = name.length + pre.length := by
  unfold appName
  split
  · rename_i hpre
    simp [hpre]
  · simp [Nat.add_comm]

/-- Marking lines frees at least what joining them takes. -/
theorem cost_mark
    (hopen : ∀ d ∈ rest, repeats pre f d.field = true → d.merged = false) :
    ((unwritten (rest.map (mark pre f))).map fun l => lineSize pre l.field).sum +
        (joined f.name (dupsOf pre f rest)).length ≤
      ((unwritten rest).map fun l => lineSize pre l.field).sum ∧
    (unwritten (rest.map (mark pre f))).length ≤ (unwritten rest).length ∧
    ∀ l ∈ unwritten (rest.map (mark pre f)), l ∈ unwritten rest := by
  induction rest with
  | nil => simp [unwritten, dupsOf, joined]
  | cons d rest ih => ?_
  obtain ⟨ih1, ih2, ih3⟩ := ih fun x hx => hopen x (mem_cons_of_mem _ hx)
  cases hrep : repeats pre f d.field with
  | true =>
    have hskip := skip_of_repeats hrep
    have hmerged := hopen d mem_cons_self hrep
    have hdups : dupsOf pre f (d :: rest) = plain d :: dupsOf pre f rest := by
      simp [dupsOf, plain, hrep]
    have hjoin : (joined f.name (plain d :: dupsOf pre f rest)).length =
        2 + d.field.value.length + (joined f.name (dupsOf pre f rest)).length := by
      simp only [joined, flatMap_cons, length_append, length_separator, plain]
    have hmark : unwritten ((d :: rest).map (mark pre f)) = unwritten (rest.map (mark pre f)) := by
      simp [unwritten, mark, hrep]
    have hbefore : unwritten (d :: rest) = d :: unwritten rest := by
      simp [unwritten, hskip, hmerged]
    rw [hmark, hbefore, hdups, hjoin, map_cons, sum_cons, length_cons]
    refine ⟨?_, by omega, fun l hl => mem_cons_of_mem _ (ih3 l hl)⟩
    unfold lineSize at ih1 ⊢
    omega
  | false => ?_
  have hdups : dupsOf pre f (d :: rest) = dupsOf pre f rest := by
    simp [dupsOf, plain, hrep]
  have hmark : mark pre f d = d := by simp [mark, hrep]
  rw [hdups, map_cons, hmark]
  cases hd : (!d.field.skip && !d.merged) with
  | true =>
    have h1 : ∀ l, unwritten (d :: l) = d :: unwritten l := by
      intro l
      unfold unwritten
      rw [filter_cons, hd, if_pos rfl]
    rw [h1, h1]
    simp only [map_cons, sum_cons, length_cons]
    refine ⟨by omega, by omega, fun l hl => ?_⟩
    rcases mem_cons.mp hl with rfl | hl
    · exact mem_cons_self
    · exact mem_cons_of_mem _ (ih3 l hl)
  | false => ?_
  have h1 : ∀ l, unwritten (d :: l) = unwritten l := by
    intro l
    unfold unwritten
    rw [filter_cons, hd, if_neg Bool.false_ne_true]
  rw [h1, h1]
  exact ⟨ih1, ih2, ih3⟩

theorem writeField_eq (req : AppRequest) (pre : Bytes) (base : ℕ) (b : Fields) (l : Line)
    (rest : List Line) :
    writeField req pre base b l rest = (rest.map (mark pre l.field),
      { table := b.table.set b.count (fieldRecord pre base b l.field
          (UInt32.ofNat (Entry.value (plain l, dupsOf pre l.field rest)).length))
        count := b.count + 1
        data := b.data ++ (appName pre l.field.name ++ [0] ++
          (Entry.value (plain l, dupsOf pre l.field rest) ++ [0]))
        slots := entrySlots req b.slots b.count (plain l, dupsOf pre l.field rest) }) := by
  unfold writeField
  dsimp only
  rw [joinLines_eq]
  simp [Entry.value, plain, entrySlots]

/-- **One field is written.** -/
theorem writeField_holds {req : AppRequest} (h : Holds req pre base b es)
    (hroom : Room pre base size b (l :: rest)) (hskip : l.field.skip = false)
    (hmerged : l.merged = false)
    (hopen : ∀ d ∈ rest, repeats pre l.field d.field = true → d.merged = false) :
    let r := writeField req pre base b l rest
    r.1 = rest.map (mark pre l.field) ∧
      Holds req pre base r.2 (es ++ [(plain l, dupsOf pre l.field rest)]) ∧
      Room pre base size r.2 r.1 ∧ r.2.table.length = b.table.length ∧
      ∃ more, r.2.data = b.data ++ more := by
  intro r
  have hr := writeField_eq req pre base b l rest
  obtain ⟨hcost, hfewer, hsub⟩ := cost_mark hopen
  have hl : unwritten (l :: rest) = l :: unwritten rest := by
    simp [unwritten, hskip, hmerged]
  have hbase := hroom.base_eq
  have hsmall := hroom.small
  have htable := hroom.table
  have hdata := hroom.data
  have hnames := hroom.names l (hl ▸ mem_cons_self)
  rw [hl, length_cons] at htable
  rw [hl, map_cons, sum_cons] at hdata
  have hlen := length_appName pre l.field.name
  have hvalueLen : (Entry.value (plain l, dupsOf pre l.field rest)).length =
      l.field.value.length + (joined l.field.name (dupsOf pre l.field rest)).length := by
    simp [Entry.value, plain]
  have hcount : b.count < b.table.length := by omega
  have hpos : recordPos b.count + 16 ≤ base := by
    rw [hbase]
    unfold recordPos UnitField.size
    omega
  unfold lineSize at hdata hcost
  have hr1 : r.1 = rest.map (mark pre l.field) := by rw [show r = _ from hr]
  have hr2 : r.2 = _ := congrArg Prod.snd hr
  refine ⟨hr1, ⟨?_, ?_, ?_⟩, ⟨?_, hsmall, ?_, ?_, ?_⟩, ?_, ?_⟩
  · rw [hr2, length_append, length_singleton, ← h.count]
  · intro k e he
    rcases Nat.lt_trichotomy k es.length with hlt | rfl | hgt
    · -- a record that was there
      rw [getElem?_append_left hlt] at he
      obtain ⟨v, hv⟩ := h.record k e he
      rw [hr2]
      have hne : b.count ≠ k := by
        rw [h.count]
        omega
      exact ⟨v, (getElem?_set_ne hne).trans hv.at_eq, hv.hash, hv.skip, hv.nameLength,
        hv.valueLength, hv.name.extend _, hv.value.extend _⟩
    · rw [getElem?_append_right (le_refl _), Nat.sub_self] at he
      cases he
      rw [hr2, ← h.count]
      have hname : sptrGet (recordPos b.count + 8)
          (sptrSet (recordPos b.count + 8) (base + b.data.length)) = base + b.data.length :=
        sptrGet_sptrSet (by omega) (by omega)
      have hvalue : sptrGet (recordPos b.count + 12) (sptrSet (recordPos b.count + 12)
          (base + b.data.length + (appName pre l.field.name).length + 1)) =
            base + b.data.length + (appName pre l.field.name).length + 1 :=
        sptrGet_sptrSet (by omega) (by omega)
      have hclear : ∀ flags : UInt8, (flags &&& 0xFE &&& 1 != 0) = false := by decide +kernel
      refine ⟨fieldRecord pre base b l.field
        (UInt32.ofNat (Entry.value (plain l, dupsOf pre l.field rest)).length),
        by simp [hcount], rfl, hclear _, ?_, ?_, ?_, ?_⟩
      · show (UInt8.ofNat (l.field.name.length + pre.length)).toNat = _
        rw [UInt8.toNat_ofNat', Nat.mod_eq_of_lt (by simp; omega)]
        exact hlen.symm
      · show (UInt32.ofNat _).toNat = _
        rw [UInt32.toNat_ofNat', Nat.mod_eq_of_lt (by simp only [hvalueLen]; omega)]
      · show StringAt base _ (sptrGet _ (sptrSet _ _)) (appName pre l.field.name)
        rw [hname]
        have hput := StringAt.put base b.data [] (appName pre l.field.name)
          ([0] ++ (Entry.value (plain l, dupsOf pre l.field rest) ++ [0]))
        simpa using hput
      · show StringAt base _ (sptrGet _ (sptrSet _ _)) _
        rw [hvalue]
        have hput := StringAt.put base b.data (appName pre l.field.name ++ [0])
          (Entry.value (plain l, dupsOf pre l.field rest)) [0]
        rwa [length_append, length_singleton, ← Nat.add_assoc] at hput
    · rw [getElem?_eq_none (by simp; omega)] at he
      cases he
  · rw [hr2]
    dsimp only
    rw [h.slots, h.count, slotsOf, slotsOf, zipIdx_append, foldl_append]
    simp
  · rw [hr2]
    simpa using hbase
  · rw [hr1, hr2]
    simp only [length_set]
    omega
  · rw [hr1, hr2]
    dsimp only
    simp only [length_append, length_singleton, hlen, hvalueLen]
    unfold lineSize
    omega
  · intro x hx
    rw [hr1] at hx
    exact hroom.names x (hl ▸ mem_cons_of_mem _ (hsub x hx))
  · rw [hr2]
    simp
  · rw [hr2]
    exact ⟨_, rfl⟩

/-! ### All fields -/

def Marked (pre : Bytes) (earlier : List HttpField) (ls : List Line) : Prop :=
  ∀ l ∈ ls, l.field.skip = false → l.merged = earlier.any fun e => repeats pre e l.field

theorem Marked.write (h : Marked pre earlier (l :: rest)) :
    Marked pre (earlier ++ [l.field]) (rest.map (mark pre l.field)) := by
  intro x hx hskip
  obtain ⟨d, hd, rfl⟩ := mem_map.mp hx
  have hfield : (mark pre l.field d).field = d.field := congrArg Prod.snd (plain_mark pre l.field d)
  rw [hfield] at hskip ⊢
  rw [any_append]
  cases hrep : repeats pre l.field d.field with
  | true => simp [mark, hrep]
  | false => ?_
  have hmark : mark pre l.field d = d := by simp [mark, hrep]
  rw [hmark, h d (mem_cons_of_mem _ hd) hskip]
  simp [hrep]

/-- A line that was joined to an earlier one is passed over. -/
theorem Marked.pass (h : Marked pre earlier (l :: rest)) (hskip : l.field.skip = false)
    (hmerged : l.merged = true) : Marked pre (earlier ++ [l.field]) rest := by
  intro d hd hdskip
  rw [h d (mem_cons_of_mem _ hd) hdskip, any_append]
  -- what repeats this line repeats the earlier one
  have hearlier := h l mem_cons_self hskip
  rw [hmerged] at hearlier
  obtain ⟨e, he, hel⟩ := any_eq_true.mp hearlier.symm
  cases hrep : repeats pre l.field d.field with
  | false => simp [hrep]
  | true => ?_
  have hed := repeats_trans hel hrep
  have hany : (earlier.any fun e => repeats pre e d.field) = true := any_eq_true.mpr ⟨e, he, hed⟩
  rw [hany]
  simp

/-- **The fields are written**: an entry for every line that repeats no earlier
one, within the size that was computed. -/
theorem writeFields_holds {req : AppRequest} (n : ℕ) {ls : List Line} {b : Fields}
    {es : List Entry} {earlier : List HttpField} (hlen : ls.length ≤ n)
    (hmarked : Marked pre earlier ls) (h : Holds req pre base b es)
    (hroom : Room pre base size b ls) : let b' := writeFields req pre base n ls b
    Holds req pre base b' (es ++ entriesOf pre earlier (ls.map plain)) ∧
      Room pre base size b' [] ∧ b'.table.length = b.table.length ∧
      ∃ more, b'.data = b.data ++ more := by
  induction n generalizing ls b es earlier with
  | zero =>
    have hnil : ls = [] := eq_nil_of_length_eq_zero (Nat.le_zero.mp hlen)
    subst hnil
    simpa [writeFields, entriesOf] using ⟨h, hroom⟩
  | succ n ih => ?_
  cases ls with
  | nil => simpa [writeFields, entriesOf] using ⟨h, hroom⟩
  | cons l rest => ?_
  have hlen' : rest.length ≤ n := Nat.le_of_succ_le_succ hlen
  rw [writeFields, map_cons, entriesOf]
  have hplain : (plain l).2 = l.field := rfl
  rw [hplain]
  cases hskip : l.field.skip with
  | true =>
    have hroom' := hroom.tail (by simp [unwritten, hskip])
    rw [if_pos rfl, if_pos rfl]
    exact ih hlen' (fun x hx => hmarked x (mem_cons_of_mem _ hx)) h hroom'
  | false => ?_
  rw [if_neg Bool.false_ne_true, if_neg Bool.false_ne_true]
  have hmark := hmarked l mem_cons_self hskip
  cases hmerged : l.merged with
  | true =>
    have hroom' := hroom.tail (by simp [unwritten, hmerged])
    rw [hmerged] at hmark
    rw [if_pos rfl, if_pos hmark.symm]
    exact ih hlen' (hmarked.pass hskip hmerged) h hroom'
  | false => ?_
  rw [hmerged] at hmark
  rw [if_neg Bool.false_ne_true, if_neg (by rw [← hmark]; exact Bool.false_ne_true)]
  -- a line that repeats this one repeats no earlier one
  have hopen : ∀ d ∈ rest, repeats pre l.field d.field = true → d.merged = false := by
    intro d hd hrep
    rw [hmarked d (mem_cons_of_mem _ hd) (skip_of_repeats hrep)]
    by_contra htrue
    rw [Bool.not_eq_false] at htrue
    obtain ⟨e, he, hed⟩ := any_eq_true.mp htrue
    have hel := repeats_of_common hskip hed hrep
    rw [any_eq_true.mpr ⟨e, he, hel⟩] at hmark
    cases hmark
  obtain ⟨hr1, hr2, hr3, hr4, more, hr5⟩ := writeField_holds h hroom hskip hmerged hopen
  have hmap : (rest.map (mark pre l.field)).map plain = rest.map plain := by
    rw [map_map]
    exact map_congr_left fun d _ => plain_mark pre l.field d
  have hmarked' := hmarked.write
  rw [← hr1] at hmarked'
  have hnext := ih (by rw [hr1, length_map]; exact hlen') hmarked' hr2 hr3
  dsimp only at hnext ⊢
  obtain ⟨h1, h2, h3, more', h4⟩ := hnext
  rw [hr1, hmap] at h1
  rw [hr1] at h2 h3 h4 ⊢
  refine ⟨?_, h2, h3.trans hr4, more ++ more', ?_⟩
  · rw [append_assoc] at h1
    exact h1
  · rw [h4, hr5, append_assoc]

/-! ### Where a line went -/

def Entry.lines (e : Entry) : List (ℕ × HttpField) := e.1 :: e.2

/-- The entry that has line `i`. -/
def entryOf (es : List Entry) (i : ℕ) : Option ℕ := es.findIdx? fun e => e.lines.any fun l => l.1 == i

/-- The lines of an entry are of the header, are not skipped and repeat none of
the earlier ones; all but the first repeat that one. -/
theorem mem_entriesOf {ls : List (ℕ × HttpField)}
    (he : e ∈ entriesOf pre earlier ls) :
    (∀ l ∈ e.lines, l ∈ ls ∧ l.2.skip = false ∧ ∀ x ∈ earlier, repeats pre x l.2 = false) ∧
      ∀ d ∈ e.2, repeats pre e.1.2 d.2 = true := by
  induction ls generalizing earlier with
  | nil => cases he
  | cons l rest ih => ?_
  have hlater : ∀ {more : List HttpField}, e ∈ entriesOf pre more rest → (∀ x ∈ earlier, x ∈ more) →
      (∀ m ∈ e.lines, m ∈ l :: rest ∧ m.2.skip = false ∧
        ∀ x ∈ earlier, repeats pre x m.2 = false) ∧ ∀ d ∈ e.2, repeats pre e.1.2 d.2 = true := by
    intro more hmem hsub
    obtain ⟨h1, h2⟩ := ih hmem
    refine ⟨fun m hm => ?_, h2⟩
    obtain ⟨h3, h4, h5⟩ := h1 m hm
    exact ⟨mem_cons_of_mem _ h3, h4, fun x hx => h5 x (hsub x hx)⟩
  have happ : ∀ x ∈ earlier, x ∈ earlier ++ [l.2] := fun x hx => mem_append_left _ hx
  unfold entriesOf at he
  split at he
  · exact hlater he fun x hx => hx
  rename_i hskip
  rw [Bool.not_eq_true] at hskip
  split at he
  · exact hlater he happ
  rename_i hnew
  rcases mem_cons.mp he with rfl | he
  · have hfirst : ∀ x ∈ earlier, repeats pre x l.2 = false := by
      intro x hx
      by_contra htrue
      rw [Bool.not_eq_false] at htrue
      exact hnew (any_eq_true.mpr ⟨x, hx, htrue⟩)
    refine ⟨fun m hm => ?_, fun d hd => (mem_filter.mp hd).2⟩
    rcases mem_cons.mp hm with rfl | hm
    · exact ⟨mem_cons_self, hskip, hfirst⟩
    obtain ⟨hm, hrep⟩ := mem_filter.mp hm
    refine ⟨mem_cons_of_mem _ hm, skip_of_repeats hrep, fun x hx => ?_⟩
    by_contra htrue
    rw [Bool.not_eq_false] at htrue
    have hcommon := repeats_of_common hskip htrue hrep
    rw [hfirst x hx] at hcommon
    cases hcommon
  · exact hlater he happ

/-- Every line is in at most one entry, and there once. -/
theorem nodup_entriesOf {ls : List (ℕ × HttpField)}
    (h : (ls.map Prod.fst).Nodup) :
    (((entriesOf pre earlier ls).flatMap Entry.lines).map Prod.fst).Nodup := by
  induction ls generalizing earlier with
  | nil => simp [entriesOf]
  | cons l rest ih => ?_
  rw [map_cons, nodup_cons] at h
  unfold entriesOf
  split
  · exact ih h.2
  split
  · exact ih h.2
  rename_i hskip hnew
  rw [flatMap_cons, map_append, nodup_append']
  refine ⟨?_, ih h.2, ?_⟩
  · rw [Entry.lines, map_cons, nodup_cons]
    refine ⟨fun hmem => h.1 ?_, ?_⟩
    · obtain ⟨d, hd, heq⟩ := mem_map.mp hmem
      exact mem_map.mpr ⟨d, (mem_filter.mp hd).1, heq⟩
    · exact h.2.sublist (filter_sublist.map _)
  · intro i hi hi'
    obtain ⟨m', hm', rfl⟩ := mem_map.mp hi'
    obtain ⟨e, he, hme⟩ := mem_flatMap.mp hm'
    obtain ⟨hrest, -, hno⟩ := (mem_entriesOf he).1 m' hme
    obtain ⟨m, hm, heq⟩ := mem_map.mp hi
    rcases mem_cons.mp hm with rfl | hm
    · exact h.1 (mem_map.mpr ⟨m', hrest, heq.symm⟩)
    -- two lines of one number are one line, and it repeats the first one
    obtain ⟨hmrest, hrep⟩ := mem_filter.mp hm
    have hsame : m = m' := inj_on_of_nodup_map h.2 hmrest hrest heq
    rw [hsame, hno l.2 (by simp)] at hrep
    cases hrep

/-! ### The numbers of fields in the head -/

/-- One of the numbers: `get` reads it, and `p` is the pointer of the request
that it stands for. -/
structure SlotFor (req : AppRequest) (es : List Entry) (get : Slots → UInt32) (p : Option ℕ) :
    Prop where
  empty : get {} = noneField
  field : ∀ s i dst, get (noteField req s i dst) = if p = some i then dst else get s
  dup : ∀ e ∈ es, ∀ d ∈ e.2, ∀ s dst,
    get (noteDup req s d.1 dst) = if p = some d.1 then dst else get s

variable {p : Option ℕ}

theorem get_entrySlots {req : AppRequest} {get : Slots → UInt32}
    (hfield : ∀ s i dst, get (noteField req s i dst) = if p = some i then dst else get s)
    (hdup : ∀ d ∈ e.2, ∀ s dst, get (noteDup req s d.1 dst) = if p = some d.1 then dst else get s)
    (s : Slots) (k : ℕ) : get (entrySlots req s k e) =
      if e.lines.any fun l => p == some l.1 then UInt32.ofNat k else get s := by
  have hfold : ∀ (dups : List (ℕ × HttpField)) (s : Slots), (∀ d ∈ dups, ∀ s dst,
      get (noteDup req s d.1 dst) = if p = some d.1 then dst else get s) →
      get (dups.foldl (fun s d => noteDup req s d.1 (UInt32.ofNat k)) s) =
        if dups.any fun l => p == some l.1 then UInt32.ofNat k else get s := by
    intro dups
    induction dups with
    | nil =>
      intro s _
      simp
    | cons d dups ih => ?_
    intro s h
    rw [foldl_cons, ih _ fun x hx => h x (mem_cons_of_mem _ hx), h d mem_cons_self, any_cons]
    by_cases hd : p = some d.1
    · simp [hd]
    · rw [if_neg hd, beq_eq_false_iff_ne.mpr hd, Bool.false_or]
  rw [entrySlots, hfold e.2 _ hdup, hfield, Entry.lines, any_cons]
  by_cases he : p = some e.1.1
  · simp [he]
  · rw [if_neg he, beq_eq_false_iff_ne.mpr he, Bool.false_or]

def slotValue (k : Option ℕ) : UInt32 :=
  match k with
  | some k => UInt32.ofNat k
  | none => noneField

/-- **The numbers of fields name the entries of their lines.** -/
theorem SlotFor.eq {req : AppRequest} {get : Slots → UInt32} (h : SlotFor req es get p)
    (hnodup : ((es.flatMap Entry.lines).map Prod.fst).Nodup) :
    get (slotsOf req es) = slotValue (p.bind (entryOf es)) := by
  induction es using reverseRecOn with
  | nil =>
    have hnone : p.bind (entryOf []) = none := by cases p <;> rfl
    rw [hnone]
    exact h.empty
  | append_singleton es e ih => ?_
  have hrest : SlotFor req es get p :=
    ⟨h.empty, h.field, fun x hx => h.dup x (mem_append_left _ hx)⟩
  rw [flatMap_append, map_append, nodup_append'] at hnodup
  have hlast := get_entrySlots h.field (h.dup e (by simp)) (slotsOf req es) es.length
  have hsnoc : slotsOf req (es ++ [e]) = entrySlots req (slotsOf req es) es.length e := by
    rw [slotsOf, slotsOf, zipIdx_append, foldl_append]
    simp
  rw [hsnoc, hlast, ih hrest hnodup.1]
  cases p with
  | none => simp
  | some i => ?_
  show _ = slotValue (entryOf (es ++ [e]) i)
  have hany : (e.lines.any fun l => (some i : Option ℕ) == some l.1) =
      e.lines.any fun l => l.1 == i := by
    congr 1
    funext l
    rw [Bool.eq_iff_iff, beq_iff_eq, beq_iff_eq, Option.some.injEq]
    exact eq_comm
  rw [hany, entryOf, findIdx?_append]
  cases hfound : es.findIdx? fun e => e.lines.any fun l => l.1 == i with
  | some k =>
    -- the line is in an earlier entry, and so not in this one
    obtain ⟨hk, hmem, -⟩ := findIdx?_eq_some_iff_getElem.mp hfound
    obtain ⟨l, hl, hli⟩ := any_eq_true.mp hmem
    have hnot : (e.lines.any fun l => l.1 == i) = false := by
      by_contra htrue
      rw [Bool.not_eq_false] at htrue
      obtain ⟨l', hl', hli'⟩ := any_eq_true.mp htrue
      rw [beq_iff_eq] at hli hli'
      refine hnodup.2.2 (mem_map.mpr ⟨l, ?_, hli⟩)
        (mem_map.mpr ⟨l', by simpa using hl', hli'⟩)
      exact mem_flatMap.mpr ⟨es[k], getElem_mem hk, hl⟩
    rw [hnot, if_neg Bool.false_ne_true]
    show slotValue (es.findIdx? _) = _
    rw [hfound]
    rfl
  | none => ?_
  show (if _ then _ else slotValue (es.findIdx? _)) = _
  rw [hfound]
  cases hin : (e.lines.any fun l => l.1 == i) with
  | true => simp [hin, slotValue]
  | false => simp [hin]

/-- Pointers to fields of different names are different. -/
theorem pointers_ne {fields : List HttpField} {a b : Bytes} {q : Option ℕ}
    (hab : strcasestrEq a b = false)
    (hp : ∀ i, p = some i → ∃ f, fields[i]? = some f ∧ strcasestrEq f.name a = true)
    (hq : ∀ i, q = some i → ∃ f, fields[i]? = some f ∧ strcasestrEq f.name b = true) {i : ℕ}
    (hpi : p = some i) : q ≠ some i := by
  intro hqi
  obtain ⟨f, hf, hfa⟩ := hp i hpi
  obtain ⟨g, hg, hgb⟩ := hq i hqi
  rw [hf, Option.some.injEq] at hg
  rw [← hg] at hgb
  rw [strcasestrEq_trans hfa hgb] at hab
  cases hab

section Pointers

variable (req : AppRequest) {i : ℕ}

theorem contentType_ne (h : req.contentLength = some i) : req.contentType ≠ some i :=
  pointers_ne (by decide) req.contentLength_name req.contentType_name h

theorem cookie_ne (h : req.contentLength = some i ∨ req.contentType = some i) :
    req.cookie ≠ some i := by
  rcases h with h | h
  · exact pointers_ne (by decide) req.contentLength_name req.cookie_name h
  · exact pointers_ne (by decide) req.contentType_name req.cookie_name h

theorem authorization_ne
    (h : req.contentLength = some i ∨ req.contentType = some i ∨ req.cookie = some i) :
    req.authorization ≠ some i := by
  rcases h with h | h | h
  · exact pointers_ne (by decide) req.contentLength_name req.authorization_name h
  · exact pointers_ne (by decide) req.contentType_name req.authorization_name h
  · exact pointers_ne (by decide) req.cookie_name req.authorization_name h

theorem noteDup_eq (s : Slots) (i : ℕ) (dst : UInt32) : noteDup req s i dst =
      { contentLength := s.contentLength
        contentType := if req.contentType = some i then dst else s.contentType
        cookie := if req.cookie = some i then dst else s.cookie
        authorization := if req.authorization = some i then dst else s.authorization } := by
  unfold noteDup
  split
  · rename_i h
    rw [if_neg (cookie_ne req (.inr h)), if_neg (authorization_ne req (.inr (.inl h)))]
  split
  · rename_i h
    rw [if_neg (authorization_ne req (.inr (.inr h)))]
  split
  · rfl
  · rfl

theorem noteField_eq (s : Slots) (i : ℕ) (dst : UInt32) : noteField req s i dst =
      { contentLength := if req.contentLength = some i then dst else s.contentLength
        contentType := if req.contentType = some i then dst else s.contentType
        cookie := if req.cookie = some i then dst else s.cookie
        authorization := if req.authorization = some i then dst else s.authorization } := by
  show (if req.contentLength = some i then _ else noteDup req s i dst) = _
  rw [noteDup_eq]
  split
  · rename_i h
    rw [if_neg (contentType_ne req h), if_neg (cookie_ne req (.inl h)),
      if_neg (authorization_ne req (.inl h))]
  · rfl

end Pointers

def numbered (fields : List HttpField) : List (ℕ × HttpField) := fields.zipIdx.map fun x => (x.2, x.1)

def AppRequest.entries (req : AppRequest) (pre : Bytes) : List Entry :=
  entriesOf pre [] (numbered req.fields)

theorem mem_numbered {fields : List HttpField} {l : ℕ × HttpField} (h : l ∈ numbered fields) :
    fields[l.1]? = some l.2 := by
  obtain ⟨x, hx, rfl⟩ := mem_map.mp h
  exact mem_zipIdx_iff_getElem?.mp hx

theorem nodup_numbered (fields : List HttpField) : ((numbered fields).map Prod.fst).Nodup := by
  have heq : (numbered fields).map Prod.fst = range fields.length := by
    rw [numbered, map_map]
    show fields.zipIdx.map Prod.snd = _
    rw [zipIdx_map_snd, range_eq_range']
  rw [heq]
  exact nodup_range

/-- A Content-Length is not joined to another line. -/
theorem contentLength_ne_dup (req : AppRequest) (pre : Bytes)
    (he : e ∈ req.entries pre) {d : ℕ × HttpField} (hd : d ∈ e.2) :
    req.contentLength ≠ some d.1 := by
  intro hp
  obtain ⟨hlines, hreps⟩ := mem_entriesOf he
  obtain ⟨hfirst, hskip, -⟩ := hlines e.1 mem_cons_self
  obtain ⟨hdup, -, -⟩ := hlines d (mem_cons_of_mem _ hd)
  obtain ⟨f, hf, hname⟩ := req.contentLength_name d.1 hp
  rw [mem_numbered hdup, Option.some.injEq] at hf
  have hrep := hreps d hd
  -- the first line of the entry is a Content-Length, too
  have hfirstName : strcasestrEq e.1.2.name (str "Content-Length") = true := by
    simp only [repeats, Bool.and_eq_true] at hrep
    rw [← hf] at hname
    exact strcasestrEq_trans hrep.2.2 hname
  have hsame := req.contentLength_once d.1 e.1.1 e.1.2 hp (mem_numbered hfirst) hskip hfirstName
  -- but an entry has a line once
  have hnodup : (((req.entries pre).flatMap Entry.lines).map Prod.fst).Nodup :=
    nodup_entriesOf (nodup_numbered req.fields)
  have hsub : e.lines.Sublist ((req.entries pre).flatMap Entry.lines) :=
    sublist_flatten_of_mem (mem_map_of_mem he)
  have hentry := hnodup.sublist (hsub.map Prod.fst)
  rw [Entry.lines, map_cons, nodup_cons] at hentry
  exact hentry.1 (mem_map.mpr ⟨d, hd, hsame.symm⟩)

/-- **The numbers of fields in the head** name the entries that have the lines
of the request's pointers. -/
theorem slotsOf_entries (req : AppRequest) (pre : Bytes) : slotsOf req (req.entries pre) =
      { contentLength := slotValue (req.contentLength.bind (entryOf (req.entries pre)))
        contentType := slotValue (req.contentType.bind (entryOf (req.entries pre)))
        cookie := slotValue (req.cookie.bind (entryOf (req.entries pre)))
        authorization := slotValue (req.authorization.bind (entryOf (req.entries pre))) } := by
  have hnodup : (((req.entries pre).flatMap Entry.lines).map Prod.fst).Nodup :=
    nodup_entriesOf (nodup_numbered req.fields)
  have hlength : SlotFor req (req.entries pre) Slots.contentLength req.contentLength := by
    refine ⟨rfl, fun s i dst => ?_, fun e he d hd s dst => ?_⟩
    · rw [noteField_eq]
    · rw [noteDup_eq, if_neg (contentLength_ne_dup req pre he hd)]
  have htype : SlotFor req (req.entries pre) Slots.contentType req.contentType := by
    refine ⟨rfl, fun s i dst => ?_, fun e _ d _ s dst => ?_⟩
    · rw [noteField_eq]
    · rw [noteDup_eq]
  have hcookie : SlotFor req (req.entries pre) Slots.cookie req.cookie := by
    refine ⟨rfl, fun s i dst => ?_, fun e _ d _ s dst => ?_⟩
    · rw [noteField_eq]
    · rw [noteDup_eq]
  have hauth : SlotFor req (req.entries pre) Slots.authorization req.authorization := by
    refine ⟨rfl, fun s i dst => ?_, fun e _ d _ s dst => ?_⟩
    · rw [noteField_eq]
    · rw [noteDup_eq]
  rw [← hlength.eq hnodup, ← htype.eq hnodup, ← hcookie.eq hnodup, ← hauth.eq hnodup]

/-! ### The size of the fields -/

theorem plain_lines (fields : List HttpField) : (lines fields).map plain = numbered fields := by
  rw [lines, map_map]
  rfl

def keptLines (fields : List HttpField) : List HttpField := fields.filter fun f => !f.skip

theorem unwritten_lines (fields : List HttpField) :
    (unwritten (lines fields)).map Line.field = keptLines fields := by
  have hgen : ∀ k, (unwritten ((fields.zipIdx k).map fun x => ⟨x.2, x.1, false⟩)).map Line.field =
      keptLines fields := by
    induction fields with
    | nil =>
      intro k
      rfl
    | cons f fields ih => ?_
    intro k
    rw [zipIdx_cons, map_cons]
    cases hf : f.skip with
    | true | false => simpa [unwritten, keptLines, hf] using ih (k + 1)
  exact hgen 0

/-- **The first pass**: the number of fields and the size of their strings, if
all names fit. -/
theorem fieldsSize_eq (pre : Bytes) (fields : List HttpField) : fieldsSize pre fields =
      if ∀ f ∈ keptLines fields, f.name.length + pre.length ≤ 255 then
        .ok ((keptLines fields).length, ((keptLines fields).map (lineSize pre)).sum)
      else .error .headerFieldsTooLarge := by
  induction fields with
  | nil => simp [fieldsSize, keptLines]
  | cons f fields ih => ?_
  rw [fieldsSize]
  cases hf : f.skip with
  | true => simpa [keptLines, hf] using ih
  | false => ?_
  have hkept : keptLines (f :: fields) = f :: keptLines fields := by simp [keptLines, hf]
  rw [if_neg Bool.false_ne_true, hkept]
  by_cases hname : f.name.length + pre.length ≤ 255
  · rw [if_neg (not_lt.mpr hname), ih]
    by_cases hall : ∀ f ∈ keptLines fields, f.name.length + pre.length ≤ 255
    · rw [if_pos hall, if_pos]
      · simp [Nat.add_comm]
      intro g hg
      rcases mem_cons.mp hg with rfl | hg
      · exact hname
      · exact hall g hg
    rw [if_neg hall, if_neg]
    exact fun h => hall fun g hg => h g (mem_cons_of_mem _ hg)
  rw [if_pos (not_le.mp hname), if_neg]
  exact fun h => hname (h f mem_cons_self)

/-! ### What an application reads -/

structure AppView where
  method : Bytes
  version : Bytes
  remote : Bytes
  localAddr : Bytes
  localPort : Bytes
  serverName : Bytes
  target : Bytes
  path : Bytes
  query : Bytes
  tls : Bool
  websocketHandshake : Bool
  appTarget : UInt8
  contentLength : ℕ
  fields : List (UInt16 × Bytes × Bytes)
  contentLengthField : Option ℕ
  contentTypeField : Option ℕ
  cookieField : Option ℕ
  authorizationField : Option ℕ
  prereadContent : ℕ

/-- A number of a field, unless it is `NXT_UNIT_NONE_FIELD`. -/
def fieldNumber (n : UInt32) : Option ℕ := if n = noneField then none else some n.toNat

/-- Field `i` of a message: the hash, the name and the value. -/
def viewField (m : Bytes) (i : ℕ) : UInt16 × Bytes × Bytes :=
  let u := UnitField.read m (recordPos i)
  (u.hash, slice m (sptrGet (recordPos i + 8) u.name) u.nameLength.toNat,
    slice m (sptrGet (recordPos i + 12) u.value) u.valueLength.toNat)

/-- **Reading a message**, through its pointers, lengths and counts. -/
def view (m : Bytes) : AppView :=
  let h := RequestHead.read m
  { method := slice m (sptrGet 56 h.method) h.methodLength.toNat
    version := slice m (sptrGet 60 h.version) h.versionLength.toNat
    remote := slice m (sptrGet 64 h.remote) h.remoteLength.toNat
    localAddr := slice m (sptrGet 68 h.localAddr) h.localAddrLength.toNat
    localPort := slice m (sptrGet 72 h.localPort) h.localPortLength.toNat
    serverName := slice m (sptrGet 76 h.serverName) h.serverNameLength.toNat
    target := slice m (sptrGet 80 h.target) h.targetLength.toNat
    path := slice m (sptrGet 84 h.path) h.pathLength.toNat
    query := slice m (sptrGet 88 h.query) h.queryLength.toNat
    tls := h.tls != 0
    websocketHandshake := h.websocketHandshake != 0
    appTarget := h.appTarget
    contentLength := h.contentLength.toNat
    fields := (List.range h.fieldsCount.toNat).map (viewField m)
    contentLengthField := fieldNumber h.contentLengthField
    contentTypeField := fieldNumber h.contentTypeField
    cookieField := fieldNumber h.cookieField
    authorizationField := fieldNumber h.authorizationField
    prereadContent := sptrGet 92 h.prereadContent }

/-- What an application should read of a request; `size` is where the body
starts. -/
def AppRequest.view (req : AppRequest) (pre : Bytes) (size : ℕ) : AppView where
  method := req.method
  version := req.version
  remote := req.remote
  localAddr := req.localAddr
  localPort := req.localPort
  serverName := req.serverName
  target := req.target
  path := req.pathBytes
  query := req.queryBytes
  tls := req.tls
  websocketHandshake := req.websocketHandshake
  appTarget := req.appTarget
  contentLength := req.length
  fields := (req.entries pre).map fun e => (e.1.2.hash, appName pre e.1.2.name, e.value)
  contentLengthField := req.contentLength.bind (entryOf (req.entries pre))
  contentTypeField := req.contentType.bind (entryOf (req.entries pre))
  cookieField := req.cookie.bind (entryOf (req.entries pre))
  authorizationField := req.authorization.bind (entryOf (req.entries pre))
  prereadContent := size

variable {data : Bytes}

/-- The strings of a message that is put together from its parts. -/
theorem slice_string {front rest : Bytes} {slot pos : ℕ} (hfront : front.length = base)
    (hslot : slot ≤ base) (hsize : base + data.length ≤ size) (hsmall : size < 2 ^ 32)
    (h : StringAt base data pos s) :
    slice (front ++ (data ++ rest)) (sptrGet slot (sptrSet slot pos)) s.length = s := by
  have hbase := h.base_le
  have hle := h.le
  rw [sptrGet_sptrSet (by omega) (by omega)]
  exact h.slice_memory hfront rest

theorem toNat_ofNat_length (h : s.length ≤ 255) : (UInt8.ofNat s.length).toNat = s.length := by
  rw [UInt8.toNat_ofNat']
  exact Nat.mod_eq_of_lt (by simp; omega)

theorem fieldNumber_slotValue (h : es.length < 2 ^ 32 - 1) (p : Option ℕ) :
    fieldNumber (slotValue (p.bind (entryOf es))) = p.bind (entryOf es) := by
  cases hk : p.bind (entryOf es) with
  | none => rfl
  | some k => ?_
  obtain ⟨i, -, hi⟩ := Option.bind_eq_some_iff.mp hk
  have hlt : k < es.length := (findIdx?_eq_some_iff_getElem.mp hi).1
  have hnat : (UInt32.ofNat k).toNat = k := UInt32.toNat_ofNat_of_lt' (show k < 2 ^ 32 by omega)
  have hne : UInt32.ofNat k ≠ noneField := by
    intro heq
    have hval := congrArg UInt32.toNat heq
    rw [hnat] at hval
    have hnone : noneField.toNat = 2 ^ 32 - 1 := by decide
    omega
  rw [slotValue, fieldNumber, if_neg hne, hnat]

theorem stringAt_put (base : ℕ) (data s : Bytes) :
    StringAt base (put data s) (base + data.length) s :=
  StringAt.put base data [] s [0]

structure HeadAt (req : AppRequest) (base : ℕ) (data : Bytes) : Prop where
  method : StringAt base data base req.method
  version : StringAt base data (base + (beforeVersion req).length) req.version
  remote : StringAt base data (base + (beforeRemote req).length) req.remote
  localAddr : StringAt base data (base + (beforeLocalAddr req).length) req.localAddr
  localPort : StringAt base data (base + (beforeLocalPort req).length) req.localPort
  serverName : StringAt base data (base + (beforeServerName req).length) req.serverName
  target : StringAt base data (base + (beforeTarget req).length) req.target
  path : StringAt base data (pathPos req base) req.pathBytes

theorem HeadAt.extend {req : AppRequest} (h : HeadAt req base data) (more : Bytes) :
    HeadAt req base (data ++ more) :=
  ⟨h.method.extend more, h.version.extend more, h.remote.extend more, h.localAddr.extend more,
    h.localPort.extend more, h.serverName.extend more, h.target.extend more, h.path.extend more⟩

theorem headAt (req : AppRequest) (base : ℕ) : HeadAt req base (headStrings req) := by
  have h1 : StringAt base (beforeVersion req) base req.method := stringAt_put base [] req.method
  have h2 := stringAt_put base (beforeVersion req) req.version
  have h3 := stringAt_put base (beforeRemote req) req.remote
  have h4 := stringAt_put base (beforeLocalAddr req) req.localAddr
  have h5 := stringAt_put base (beforeLocalPort req) req.localPort
  have h6 := stringAt_put base (beforeServerName req) req.serverName
  have h7 : StringAt base (beforePath req) (base + (beforeTarget req).length) req.target :=
    stringAt_put base (beforeTarget req) req.target
  have hbefore : ∀ {more : Bytes}, StringAt base (beforePath req ++ more) (pathPos req base)
      req.pathBytes → HeadAt req base (beforePath req ++ more) := by
    intro more hpath
    refine ⟨?_, ?_, ?_, ?_, ?_, ?_, h7.extend more, hpath⟩
    · exact ((((((h1.extend _).extend _).extend _).extend _).extend _).extend _).extend more
    · exact (((((h2.extend _).extend _).extend _).extend _).extend _).extend more
    · exact ((((h3.extend _).extend _).extend _).extend _).extend more
    · exact (((h4.extend _).extend _).extend _).extend more
    · exact ((h5.extend _).extend _).extend more
    · exact (h6.extend _).extend more
  cases hpath : req.path with
  | shared n =>
    -- the path is the start of the target
    have hn := req.path_le n hpath
    have hpart := h7.part (show 0 + n ≤ req.target.length by omega)
    have hstrings : headStrings req = beforePath req ++ [] := by
      rw [headStrings, hpath, append_nil]
    rw [hstrings]
    refine hbefore ?_
    rw [pathPos, AppRequest.pathBytes, hpath, append_nil]
    exact hpart
  | own p => ?_
  have hstrings : headStrings req = beforePath req ++ (p ++ [0]) := by
    rw [headStrings, hpath]
    rfl
  rw [hstrings]
  refine hbefore ?_
  rw [pathPos, AppRequest.pathBytes, hpath]
  exact stringAt_put base (beforePath req) p

theorem HeadAt.query {req : AppRequest} (h : HeadAt req base data) {start length : ℕ}
    (hargs : req.args = some (start, length)) :
    StringAt base data (base + (beforeTarget req).length + start) req.queryBytes := by
  rw [AppRequest.queryBytes, hargs]
  exact h.target.part (req.args_le start length hargs)

/-! ### The head, read -/

theorem length_headStrings (req : AppRequest) :
    RequestHead.size + (headStrings req).length = headSize req := by
  have hbefore : (beforePath req).length = req.method.length + 1 + req.version.length + 1 +
      req.remote.length + 1 + req.localAddr.length + 1 + req.localPort.length + 1 +
      req.serverName.length + 1 + req.target.length + 1 := by
    simp only [beforePath, beforeTarget, beforeServerName, beforeLocalPort, beforeLocalAddr,
      beforeRemote, beforeVersion, put, length_append, length_nil, length_cons]
    omega
  rw [headStrings, headSize]
  cases req.path with
  | shared n =>
    dsimp only
    omega
  | own p => ?_
  simp only [put, length_append, length_singleton]
  omega

def reqSize (req : AppRequest) (pre : Bytes) : ℕ :=
  headSize req + ((keptLines req.fields).map (lineSize pre)).sum +
    (keptLines req.fields).length * UnitField.size

/-- **The fields of a request** are written within the size that was computed. -/
theorem requestFields_holds (env : Env) {req : AppRequest}
    (hnames : ∀ f ∈ keptLines req.fields, f.name.length + pre.length ≤ 255)
    (hsize : reqSize req pre < 2 ^ 32) : let count := (keptLines req.fields).length
    let b := requestFields env req pre count
    Holds req pre (recordPos count) b (req.entries pre) ∧
      recordPos count + b.data.length ≤ reqSize req pre ∧ b.table.length = count ∧
      b.count ≤ count ∧ ∃ more, b.data = headStrings req ++ more := by
  intro count b
  have hkept := unwritten_lines req.fields
  have hlines : (lines req.fields).length ≤ req.fields.length := by simp [lines]
  have hmarked : Marked pre [] (lines req.fields) := by
    intro l hl _
    obtain ⟨x, -, rfl⟩ := mem_map.mp hl
    rfl
  have hcount : (unwritten (lines req.fields)).length = count := by
    rw [show count = _ from congrArg length hkept.symm, length_map]
  have hcost : (unwritten (lines req.fields)).map (fun l => lineSize pre l.field) =
      (keptLines req.fields).map (lineSize pre) := by
    rw [← hkept, map_map]
    rfl
  have hstrings := length_headStrings req
  have hstart : Holds req pre (recordPos count)
      { table := (range count).map env.junkTable, count := 0, data := headStrings req,
        slots := {} } [] :=
    ⟨rfl, fun k e he => by simp at he, rfl⟩
  have hroom : Room pre (recordPos count) (reqSize req pre)
      { table := (range count).map env.junkTable, count := 0, data := headStrings req,
        slots := {} } (lines req.fields) := by
    refine ⟨by simp, hsize, by simp [hcount], ?_, ?_⟩
    · rw [hcost]
      show recordPos count + (headStrings req).length + _ ≤ _
      have hmul : (keptLines req.fields).length * UnitField.size = UnitField.size * count :=
        Nat.mul_comm _ _
      unfold reqSize recordPos
      omega
    · intro l hl
      refine hnames l.field ?_
      rw [← hkept]
      exact mem_map_of_mem hl
  obtain ⟨h1, h2, h3, h4⟩ := writeFields_holds req.fields.length hlines hmarked hstart hroom
  rw [nil_append, plain_lines] at h1
  have htable : b.table.length = count := by
    rw [show b.table.length = _ from h3]
    simp
  refine ⟨h1, ?_, htable, ?_, h4⟩
  · have hdata : recordPos count + b.data.length + 0 ≤ reqSize req pre := h2.data
    omega
  · have hle : b.count + 0 ≤ b.table.length := h2.table
    omega

structure ShortParts (req : AppRequest) : Prop where
  method : req.method.length ≤ 255
  version : req.version.length ≤ 255
  remote : req.remote.length ≤ 255
  localAddr : req.localAddr.length ≤ 255
  localPort : req.localPort.length ≤ 255

theorem writeHead_append (env : Env) (req : AppRequest) (pre : Bytes) (count size : ℕ) (rest : Bytes) :
    let b := requestFields env req pre count
    writeHead env req pre count size ++ rest =
      ((requestHead req (recordPos count) size b).bytes ++ b.table.flatMap UnitField.bytes) ++
        (b.data ++ ((range (size - (recordPos count + b.data.length))).map env.junk ++ rest)) := by
  simp [writeHead]

theorem length_front {head : RequestHead} {table : List UnitField} {count : ℕ}
    (htable : table.length = count) :
    (head.bytes ++ table.flatMap UnitField.bytes).length = recordPos count := by
  rw [length_append, RequestHead.length_bytes, length_flatMap_const UnitField.length_bytes,
    htable, recordPos]

/-- A field of the message is the entry of its number. -/
theorem viewField_eq {req : AppRequest} {count : ℕ} {head : RequestHead} {rest : Bytes}
    (h : Holds req pre (recordPos count) b es) (htable : b.table.length = count) {k : ℕ}
    (he : es[k]? = some e) :
    viewField ((head.bytes ++ b.table.flatMap UnitField.bytes) ++ (b.data ++ rest)) k =
      (e.1.2.hash, appName pre e.1.2.name, e.value) := by
  obtain ⟨u, hu⟩ := h.record k e he
  have hfront : (head.bytes ++ b.table.flatMap UnitField.bytes).length = recordPos count :=
    length_front htable
  have hk : k < b.table.length := (List.getElem?_eq_some_iff.mp hu.at_eq).1
  have hslice : slice ((head.bytes ++ b.table.flatMap UnitField.bytes) ++ (b.data ++ rest))
      (recordPos k) UnitField.size = u.bytes := by
    have hin : UnitField.size * k + UnitField.size ≤ (b.table.flatMap UnitField.bytes).length := by
      rw [length_flatMap_const UnitField.length_bytes, ← Nat.mul_succ]
      exact Nat.mul_le_mul_left _ hk
    rw [append_assoc, recordPos, slice_append_right (RequestHead.length_bytes head),
      slice_append_left hin, slice_flatMap UnitField.length_bytes hu.at_eq]
  rw [viewField, UnitField.read_bytes hslice, hu.nameLength, hu.valueLength, hu.name.slice_memory hfront, hu.value.slice_memory hfront,
    hu.hash]

/-- **The head gives back the parts of the request.** -/
theorem view_writeHead (env : Env) {req : AppRequest} (hshort : ShortParts req)
    (hnames : ∀ f ∈ keptLines req.fields, f.name.length + pre.length ≤ 255)
    (hsize : reqSize req pre ≤ dataSize) (rest : Bytes) :
    view (writeHead env req pre (keptLines req.fields).length (reqSize req pre) ++ rest) =
      req.view pre (reqSize req pre) := by
  have hsmall : reqSize req pre < 2 ^ 32 := lt_of_le_of_lt hsize (by decide)
  obtain ⟨hholds, hfits, htable, hcount, more, hdata⟩ := requestFields_holds env hnames hsmall
  rw [writeHead_append]
  generalize requestFields env req pre (keptLines req.fields).length = b at *
  generalize (keptLines req.fields).length = count at *
  generalize (range (reqSize req pre - (recordPos count + b.data.length))).map env.junk ++ rest
    = tail
  have hhead := (headAt req (recordPos count)).extend more
  rw [← hdata] at hhead
  have hfront : ((requestHead req (recordPos count) (reqSize req pre) b).bytes ++
      b.table.flatMap UnitField.bytes).length = recordPos count := length_front htable
  have hbase : RequestHead.size ≤ recordPos count := Nat.le_add_right _ _
  unfold RequestHead.size at hbase
  set message := ((requestHead req (recordPos count) (reqSize req pre) b).bytes ++
    b.table.flatMap UnitField.bytes) ++ (b.data ++ tail)
  have hstring : ∀ {slot pos : ℕ} {s : Bytes}, slot ≤ 96 → StringAt (recordPos count) b.data pos s →
      slice message (sptrGet slot (sptrSet slot pos)) s.length = s :=
    fun hslot hs => slice_string hfront (hslot.trans hbase) hfits hsmall hs
  have hpart : ∀ {slot pos : ℕ} {s : Bytes}, slot ≤ 96 → s.length ≤ 255 →
      StringAt (recordPos count) b.data pos s →
      slice message (sptrGet slot (sptrSet slot pos)) (UInt8.ofNat s.length).toNat = s := by
    intro slot pos s hslot hs hat
    rw [toNat_ofNat_length hs]
    exact hstring hslot hat
  have hlen : ∀ {pos : ℕ} {s : Bytes}, StringAt (recordPos count) b.data pos s →
      (UInt32.ofNat s.length).toNat = s.length := by
    intro pos s hs
    have := hs.le
    exact UInt32.toNat_ofNat_of_lt' (show _ < 2 ^ 32 by omega)
  have hentries : (req.entries pre).length < 2 ^ 32 - 1 := by
    rw [← hholds.count]
    unfold recordPos UnitField.size at hfits
    unfold dataSize at hsize
    omega
  have hnat : (UInt32.ofNat b.count).toNat = (req.entries pre).length := by
    rw [hholds.count]
    exact UInt32.toNat_ofNat_of_lt' (show _ < 2 ^ 32 by omega)
  have hlength : req.length < 2 ^ 63 := by
    unfold AppRequest.length
    cases hn : req.contentLengthN with
    | none => simp
    | some n => exact req.length_lt n hn
  have hslice : slice message 0 RequestHead.size =
      (requestHead req (recordPos count) (reqSize req pre) b).bytes := by
    rw [show message = _ from append_assoc ..]
    exact slice_zero (RequestHead.length_bytes _) _
  have hfield : ∀ {k : ℕ} {e : Entry}, (req.entries pre)[k]? = some e →
      viewField message k = (e.1.2.hash, appName pre e.1.2.name, e.value) :=
    fun he => viewField_eq hholds htable he
  -- from here on the message matters only through these three facts
  clear_value message
  unfold view AppRequest.view
  rw [RequestHead.read_bytes hslice]
  dsimp only [requestHead]
  rw [AppView.mk.injEq]
  refine ⟨?_, ?_, ?_, ?_, ?_, ?_, ?_, ?_, ?_, ?_, ?_, rfl, ?_, ?_, ?_, ?_, ?_, ?_, ?_⟩
  · exact hpart (by decide) hshort.method hhead.method
  · exact hpart (by decide) hshort.version hhead.version
  · exact hpart (by decide) hshort.remote hhead.remote
  · exact hpart (by decide) hshort.localAddr hhead.localAddr
  · exact hpart (by decide) hshort.localPort hhead.localPort
  · rw [hlen hhead.serverName]
    exact hstring (by decide) hhead.serverName
  · rw [hlen hhead.target]
    exact hstring (by decide) hhead.target
  · rw [hlen hhead.path]
    exact hstring (by decide) hhead.path
  · cases hargs : req.args with
    | none =>
      have hquery : req.queryBytes = [] := by rw [AppRequest.queryBytes, hargs]
      rw [hquery]
      simp [slice]
    | some args => ?_
    obtain ⟨start, length⟩ := args
    have hquery := hhead.query hargs
    rw [hlen hquery]
    exact hstring (by decide) hquery
  · cases req.tls <;> rfl
  · cases req.websocketHandshake <;> rfl
  · exact UInt64.toNat_ofNat_of_lt (lt_trans hlength (by decide))
  · -- the records are the entries, in order
    rw [hnat]
    refine ext_getElem (by simp) fun k hk hk' => ?_
    rw [getElem_map, getElem_map, getElem_range]
    exact hfield (getElem?_eq_getElem _)
  · rw [hholds.slots, slotsOf_entries]
    exact fieldNumber_slotValue hentries _
  · rw [hholds.slots, slotsOf_entries]
    exact fieldNumber_slotValue hentries _
  · rw [hholds.slots, slotsOf_entries]
    exact fieldNumber_slotValue hentries _
  · rw [hholds.slots, slotsOf_entries]
    exact fieldNumber_slotValue hentries _
  · exact sptrGet_sptrSet (by omega) (by omega)

/-- What is written stays within the size that was computed. -/
theorem length_writeHead (env : Env) {req : AppRequest}
    (hnames : ∀ f ∈ keptLines req.fields, f.name.length + pre.length ≤ 255)
    (hsize : reqSize req pre ≤ dataSize) :
    (writeHead env req pre (keptLines req.fields).length (reqSize req pre)).length =
      reqSize req pre := by
  have hsmall : reqSize req pre < 2 ^ 32 := lt_of_le_of_lt hsize (by decide)
  obtain ⟨-, hfits, htable, -, -⟩ := requestFields_holds env hnames hsmall
  have hparts := writeHead_append env req pre (keptLines req.fields).length (reqSize req pre) []
  dsimp only at hparts
  rw [append_nil] at hparts
  rw [hparts, length_append, length_front htable]
  simp only [length_append, length_map, length_range, length_nil]
  omega

/-- Without a prefix, every line that is not skipped is a field of its own. -/
theorem entriesOf_unprefixed (earlier : List HttpField) (ls : List (ℕ × HttpField)) :
    entriesOf [] earlier ls = (ls.filter fun l => !l.2.skip).map fun l => (l, []) := by
  have hnone : ∀ f d, repeats [] f d = false := fun _ _ => rfl
  induction ls generalizing earlier with
  | nil => rfl
  | cons l rest ih => ?_
  rw [entriesOf]
  cases hl : l.2.skip with
  | true => simpa [hl] using ih earlier
  | false => simpa [hl, hnone] using ih (earlier ++ [l.2])

theorem filter_numbered (fields : List HttpField) :
    ((numbered fields).filter fun l => !l.2.skip).map Prod.snd = keptLines fields := by
  rw [keptLines, show fields = (numbered fields).map Prod.snd by simp [numbered, Function.comp_def],
    filter_map]
  simp [numbered, Function.comp_def]

/-! ### The body -/

/-- `chain'` has the bytes of `chain` and `s` behind them; the first buffer only
grew. -/
structure Extends (chain : Chain) (s : Bytes) (chain' : Chain) : Prop where
  bytes : chain'.bufs.reverse.flatten = chain.bufs.reverse.flatten ++ s
  first : ∀ b, chain.bufs.getLast? = some b → ∃ more, chain'.bufs.getLast? = some (b ++ more)

theorem Extends.refl (chain : Chain) : Extends chain [] chain :=
  ⟨(append_nil _).symm, fun b hb => ⟨[], by rw [hb, append_nil]⟩⟩

theorem Extends.trans {a b c : Chain} {t : Bytes} (hab : Extends a s b) (hbc : Extends b t c) :
    Extends a (s ++ t) c := by
  refine ⟨by rw [hbc.bytes, hab.bytes, append_assoc], fun x hx => ?_⟩
  obtain ⟨m, hm⟩ := hab.first x hx
  obtain ⟨m', hm'⟩ := hbc.first _ hm
  exact ⟨m ++ m', by rw [hm', append_assoc]⟩

variable {room : Option ℕ}

theorem Extends.last {last : Bytes} {bufs : List Bytes} {room' : Option ℕ} :
    Extends ⟨last :: bufs, room⟩ s ⟨(last ++ s) :: bufs, room'⟩ := by
  refine ⟨by simp, fun b hb => ?_⟩
  cases bufs with
  | nil =>
    obtain rfl : last = b := by simpa using hb
    exact ⟨s, rfl⟩
  | cons c bufs =>
    exact ⟨[], by simpa using hb⟩

theorem Extends.buffer {bufs : List Bytes} {room' : Option ℕ} :
    Extends ⟨bufs, room⟩ s ⟨s :: bufs, room'⟩ := by
  refine ⟨by simp, fun b hb => ⟨[], ?_⟩⟩
  cases bufs with
  | nil => simp at hb
  | cons c bufs => simpa using hb

/-- **The loop over one buffer of the body** adds its bytes. -/
theorem copyBody_extends {n : ℕ} {left : Bytes} {chain' : Chain}
    (h : copyBody env n left chain = some chain') : Extends chain left chain' := by
  induction n generalizing left chain with
  | zero => simp [copyBody] at h
  | succ n ih => ?_
  obtain ⟨bufs, room⟩ := chain
  unfold copyBody at h
  split at h
  · rename_i hleft
    rw [Option.some.injEq] at h
    rw [hleft, ← h]
    exact Extends.refl _
  split at h
  · rename_i r last bufs' hroom hbufs
    dsimp only at hroom hbufs h
    subst hbufs
    rw [← take_append_drop (if r < left.length then r + env.grow (bufs'.length + 1) else r) left]
    exact Extends.last.trans (ih h)
  split at h
  · dsimp only at h
    rw [← take_append_drop (min left.length dataSize) left]
    exact Extends.buffer.trans (ih h)
  · exact absurd h (by simp)

/-- The loop comes to its end if every buffer is allocated. -/
theorem exists_copyBody (halloc : ∀ i, env.alloc i = true) {n : ℕ} {left : Bytes}
    (hn : 2 * left.length + (if chain.room.isSome then 1 else 0) < n) :
    ∃ chain', copyBody env n left chain = some chain' := by
  -- a round either takes bytes of the body or gives up the room of the last buffer
  induction n generalizing left chain with
  | zero => exact absurd hn (Nat.not_lt_zero _)
  | succ n ih => ?_
  obtain ⟨bufs, room⟩ := chain
  unfold copyBody
  split
  · exact ⟨_, rfl⟩
  rename_i hleft
  have hpos : 0 < left.length := length_pos_iff.mpr hleft
  split
  · rename_i r last bufs' hroom hbufs
    dsimp only at hroom hbufs hn ⊢
    subst hroom
    rw [Option.isSome_some, if_pos rfl] at hn
    generalize (if r < left.length then r + env.grow (bufs'.length + 1) else r) = free
    apply ih
    dsimp only
    rw [length_drop]
    split
    · rw [Option.isSome_some, if_pos rfl]
      omega
    rw [Option.isSome_none, if_neg Bool.false_ne_true]
    omega
  rw [if_pos (halloc _)]
  dsimp only at hn ⊢
  apply ih
  dsimp only
  have hfree : 0 < min left.length dataSize := lt_min hpos (by decide)
  rw [length_drop]
  split
  · rw [Option.isSome_some, if_pos rfl]
    omega
  rw [Option.isSome_none, if_neg Bool.false_ne_true]
  omega

theorem copyBodies_extends {body : List Bytes} {chain' : Chain}
    (h : copyBodies env body chain = some chain') : Extends chain body.flatten chain' := by
  induction body generalizing chain with
  | nil =>
    obtain rfl : chain = chain' := by simpa [copyBodies] using h
    exact Extends.refl _
  | cons b body ih => ?_
  unfold copyBodies at h
  split at h
  · exact absurd h (by simp)
  rename_i hb
  rw [flatten_cons]
  exact (copyBody_extends hb).trans (ih h)

theorem exists_copyBodies (halloc : ∀ i, env.alloc i = true) (body : List Bytes)
    (chain : Chain) : ∃ chain', copyBodies env body chain = some chain' := by
  induction body generalizing chain with
  | nil => exact ⟨chain, rfl⟩
  | cons b body ih => ?_
  have hfuel : 2 * b.length + (if chain.room.isSome then 1 else 0) < 2 * b.length + 2 := by
    split <;> omega
  obtain ⟨next, hnext⟩ := exists_copyBody halloc hfuel
  unfold copyBodies
  rw [hnext]
  exact ih next

/-! ### The message -/

/-- The parts of a request fit the types of the message and its first buffer. -/
structure Fits (req : AppRequest) (pre : Bytes) : Prop where
  short : ShortParts req
  names : ∀ f ∈ keptLines req.fields, f.name.length + pre.length ≤ 255
  size : reqSize req pre ≤ dataSize

/-- The buffers carry a request: an application reads its parts from the first
one, and the body follows the `reqSize` bytes of the head. -/
structure Carries (env : Env) (req : AppRequest) (pre : Bytes) (bufs : List Bytes) : Prop where
  length_head : (writeHead env req pre (keptLines req.fields).length (reqSize req pre)).length =
    reqSize req pre
  buffers : ∃ content rest,
    bufs = (writeHead env req pre (keptLines req.fields).length (reqSize req pre) ++ content) :: rest ∧
      content ++ rest.flatten = req.body.flatten
  read : ∀ first ∈ bufs.head?, view first = req.view pre (reqSize req pre)
  fields : pre = [] → ∀ first ∈ bufs.head?,
    (view first).fields = (keptLines req.fields).map fun f => (f.hash, f.name, f.value)

theorem carries_of_extends {req : AppRequest} (hfits : Fits req pre)
    (h : Extends ⟨[writeHead env req pre (keptLines req.fields).length (reqSize req pre)], room⟩ req.body.flatten chain) :
    Carries env req pre chain.bufs.reverse := by
  obtain ⟨content, hlast⟩ := h.first _ rfl
  have hbytes := h.bytes
  obtain ⟨bufs, hbufs⟩ := getLast?_eq_some_iff.mp hlast
  have hview : ∀ first ∈ chain.bufs.reverse.head?, view first = req.view pre (reqSize req pre) := by
    intro first hfirst
    rw [head?_reverse, hlast, Option.mem_some_iff] at hfirst
    rw [← hfirst]
    exact view_writeHead env hfits.short hfits.names hfits.size content
  refine ⟨length_writeHead env hfits.names hfits.size, ⟨content, bufs.reverse, ?_, ?_⟩, hview,
    fun hpre first hfirst => ?_⟩
  · rw [hbufs]
    simp
  · rw [hbufs] at hbytes
    simpa using hbytes
  rw [hview first hfirst, ← filter_numbered]
  subst hpre
  simp [AppRequest.view, AppRequest.entries, entriesOf_unprefixed, appName, Entry.value, joined,
    Function.comp_def]

/-- A request that does not fit is refused; otherwise the buffers are those of
the loop over the body, from the head on. -/
theorem prepareMsg_eq (env : Env) (req : AppRequest) (pre : Bytes) :
    (¬ Fits req pre ∧ ∃ status, prepareMsg env req pre = .error status) ∨
    (Fits req pre ∧ ∃ room, prepareMsg env req pre =
      if env.first = false then .error .internalServerError
      else
        match copyBodies env req.body ⟨[writeHead env req pre (keptLines req.fields).length
            (reqSize req pre)], some room⟩ with
        | none => .error .internalServerError
        | some chain => .ok chain.bufs.reverse) := by
  unfold prepareMsg
  split
  · rename_i hmethod
    exact .inl ⟨fun h => absurd h.short.method (not_le.mpr hmethod), _, rfl⟩
  rename_i hmethod
  split
  · rename_i hparts
    refine .inl ⟨fun h => ?_, _, rfl⟩
    have hversion := h.short.version
    have hremote := h.short.remote
    have haddr := h.short.localAddr
    have hport := h.short.localPort
    omega
  rename_i hparts
  rw [fieldsSize_eq]
  by_cases hnames : ∀ f ∈ keptLines req.fields, f.name.length + pre.length ≤ 255
  · rw [if_pos hnames]
    dsimp only
    split
    · rename_i hsize
      exact .inl ⟨fun h => absurd h.size (not_le.mpr hsize), _, rfl⟩
    · rename_i hsize
      refine .inr ⟨⟨?_, hnames, not_lt.mp hsize⟩, _, rfl⟩
      constructor <;> omega
  · rw [if_neg hnames]
    exact .inl ⟨fun h => hnames h.names, _, rfl⟩

/-- **A request is read from its message as it is**: a request whose parts do not
fit is refused, one whose parts fit gets a message if the buffers are allocated,
and every message carries its request. -/
theorem prepareMsg_read (env : Env) (req : AppRequest) (pre : Bytes) :
    (¬ Fits req pre → ∃ status, prepareMsg env req pre = .error status) ∧
      (Fits req pre → env.first = true → (∀ i, env.alloc i = true) →
        ∃ bufs, prepareMsg env req pre = .ok bufs) ∧
      ∀ bufs, prepareMsg env req pre = .ok bufs → Carries env req pre bufs := by
  rcases prepareMsg_eq env req pre with ⟨hfits, status, herror⟩ | ⟨hfits, room, hmsg⟩
  · refine ⟨fun _ => ⟨status, herror⟩, fun h => absurd h hfits, fun bufs hbufs => ?_⟩
    rw [herror] at hbufs
    cases hbufs
  refine ⟨fun h => absurd hfits h, fun _ hfirst halloc => ?_, fun bufs hbufs => ?_⟩
  · obtain ⟨chain, hchain⟩ := exists_copyBodies halloc req.body ⟨[writeHead env req pre
      (keptLines req.fields).length (reqSize req pre)], some room⟩
    rw [hmsg, hfirst, hchain]
    exact ⟨_, rfl⟩
  · rw [hmsg] at hbufs
    split at hbufs
    · cases hbufs
    split at hbufs
    · cases hbufs
    · rename_i chain hchain
      obtain rfl : chain.bufs.reverse = bufs := by simpa using hbufs
      exact carries_of_extends hfits (copyBodies_extends hchain)

end FreeUnit.UnitRequest
