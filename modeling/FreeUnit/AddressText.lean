/-
IPv4 and IPv6 addresses as texts.

`nxt_inet_addr` and `nxt_inet6_addr` go over the bytes once, with a number in
progress.  Here their results are compared with the grammar of the two
notations: dotted decimal, and eight hexadecimal groups where `::` may stand
for a run of zeros.

* `inet6Addr_eq`, `exists_ipv6` — what `nxt_inet6_addr` reads.
-/
import FreeUnit.ChunkGrammar
import FreeUnit.RequestFraming
import FreeUnit.SockAddr

namespace FreeUnit

open List

/-! ### Dotted decimal -/

def Numeral (digits : Bytes) (n : ℕ) : Prop :=
  digits ≠ [] ∧ (∀ c ∈ digits, isDigit c = true) ∧ decimalValue 0 digits = n

def Octet (digits : Bytes) (n : ℕ) : Prop := Numeral digits n ∧ n ≤ 255

/-- The number of which the given ones are the digits to the base `base`. -/
def positional (base : ℕ) (digits : List ℕ) : ℕ := digits.foldl (fun v n => v * base + n) 0

/-- The text `t` is the IPv4 address `a`: four octets joined by dots. -/
def Ipv4 (t : Bytes) (a : BitVec 32) : Prop :=
  ∃ octets ns, List.Forall₂ Octet octets ns ∧ octets.length = 4 ∧
    t = [0x2E].intercalate octets ∧ a = BitVec.ofNat 32 (positional 256 ns)

variable {c : UInt8} {n : ℕ} {t h rest : Bytes} {ns : List ℕ} {a : BitVec 32} {s : Inet6}
  {hs : List Bytes}

theorem notMem_digits {o : Bytes} (h : ∀ c ∈ o, isDigit c = true)
    (hc : isDigit c = false) : c ∉ o := by
  intro hmem
  rw [h c hmem] at hc
  exact absurd hc (by decide)

theorem Numeral.notMem {p : Bytes} (h : Numeral p n)
    (hc : isDigit c = false) : c ∉ p := notMem_digits h.2.1 hc

theorem inetLoop_digits {digits : Bytes} (h : ∀ c ∈ digits, isDigit c = true) (addr : UInt32)
    (val dots : ℕ) (rest : Bytes) : inetLoop addr (UInt64.ofNat val) dots (digits ++ rest) =
      inetLoop addr (UInt64.ofNat (decimalValue val digits)) dots rest := by
  induction digits generalizing val with
  | nil => rfl
  | cons c digits ih => ?_
  obtain ⟨hc, hdigits⟩ := forall_mem_cons.mp h
  have hval : UInt64.ofNat val * 10 + (c - 0x30).toUInt64 =
      UInt64.ofNat (val * 10 + (c - 0x30).toNat) := by
    rw [UInt64.ofNat_add, UInt64.ofNat_mul, UInt64.ofNat_uInt8ToNat]
    rfl
  rw [cons_append, inetLoop, if_pos hc, hval, ih hdigits]
  rfl

/-- Where the loop does not fail it reads digits up to the end or to a dot. -/
theorem inetLoop_ne_none {addr : UInt32} {val dots : ℕ}
    (h : inetLoop addr (UInt64.ofNat val) dots t ≠ inaddrNone) :
    ∃ o, (∀ c ∈ o, isDigit c = true) ∧ decimalValue val o % 2 ^ 64 < 256 ∧
      ((t = o ∧ dots = 3) ∨ ∃ t', t = o ++ 0x2E :: t') := by
  have hoctet : ∀ {n : ℕ}, UInt64.ofNat n < 256 ↔ n % 2 ^ 64 < 256 := by
    intro n
    rw [UInt64.lt_iff_toNat_lt]
    rfl
  induction t generalizing val with
  | nil =>
    rw [inetLoop] at h
    split at h
    · rename_i hend
      exact ⟨[], by simp, hoctet.mp hend.2, .inl ⟨rfl, hend.1⟩⟩
    · exact absurd rfl h
  | cons c t ih => ?_
  by_cases hc : isDigit c = true
  · have hstep := @inetLoop_digits [c] (by simpa using hc) addr val dots t
    rw [singleton_append] at hstep
    rw [hstep] at h
    obtain ⟨o, ho, hval, hend⟩ := ih h
    refine ⟨c :: o, by simpa [hc] using ho, hval, ?_⟩
    rcases hend with ⟨rfl, hdots⟩ | ⟨t', rfl⟩
    · exact .inl ⟨rfl, hdots⟩
    · exact .inr ⟨t', rfl⟩
  rw [inetLoop, if_neg hc] at h
  split at h
  · rename_i hdot
    exact ⟨[], by simp, hoctet.mp hdot.2, .inr ⟨t, by rw [hdot.1]; rfl⟩⟩
  · exact absurd rfl h

/-- The loop succeeds only on as many numbers as are missing. -/
theorem inetLoop_octets (t : Bytes) (addr : UInt32) (dots : ℕ)
    (h : inetLoop addr (UInt64.ofNat 0) dots t ≠ inaddrNone) :
    ∃ octets, octets ≠ [] ∧ t = [0x2E].intercalate octets ∧ dots + octets.length = 4 ∧
      ∀ o ∈ octets, (∀ c ∈ o, isDigit c = true) ∧ decimalValue 0 o % 2 ^ 64 < 256 := by
  induction hlen : t.length using Nat.strong_induction_on generalizing t addr dots with
  | _ len ih =>
    obtain ⟨o, ho, hval, ⟨rfl, rfl⟩ | ⟨t', rfl⟩⟩ := inetLoop_ne_none h
    · exact ⟨[t], by simp, by simp, rfl, by simpa using ⟨ho, hval⟩⟩
    rw [inetLoop_digits ho, inetLoop, if_neg (by decide)] at h
    split at h
    · obtain ⟨octets, hne, rfl, hcount, hall⟩ := ih t'.length (by rw [← hlen, length_append, length_cons]; omega) t' _ _ h rfl
      refine ⟨o :: octets, by simp, ?_, by simp only [length_cons]; omega, ?_⟩
      · rw [intercalate_cons_of_ne_nil hne]
        simp
      · exact forall_mem_cons.mpr ⟨⟨ho, hval⟩, hall⟩
    · exact absurd rfl h

theorem uint32_shiftLeft_eight (a : UInt32) : a <<< 8 = a * 256 := by
  apply UInt32.toNat_inj.mp
  simp [Nat.shiftLeft_eq]

theorem inetLoop_eq {octets : List Bytes} (h : List.Forall₂ Octet octets ns)
    (hne : octets ≠ []) (addr : UInt32) {dots : ℕ} (hdots : dots + octets.length = 4) :
    inetLoop addr (UInt64.ofNat 0) dots ([0x2E].intercalate octets) =
      ns.foldl (fun v n => v * 256 + UInt32.ofNat n) addr := by
  induction h generalizing addr dots with
  | nil => exact absurd rfl hne
  | @cons o n octets ns ho hrest ih => ?_
  obtain ⟨⟨-, hdigits, rfl⟩, hle⟩ := ho
  have hlt : UInt64.ofNat (decimalValue 0 o) < 256 := by
    rw [UInt64.lt_iff_toNat_lt, UInt64.toNat_ofNat']
    exact lt_of_le_of_lt (Nat.mod_le _ _) (by simpa using Nat.lt_succ_of_le hle)
  have hshift : (addr <<< 8) + (UInt64.ofNat (decimalValue 0 o)).toUInt32 =
      addr * 256 + UInt32.ofNat (decimalValue 0 o) := by
    rw [UInt64.toUInt32_ofNat', uint32_shiftLeft_eight]
  by_cases hnil : octets = []
  · subst hnil
    cases hrest
    have hstep := inetLoop_digits hdigits addr 0 dots []
    rw [append_nil] at hstep
    rw [intercalate_singleton, hstep, inetLoop, if_pos ⟨by simpa using hdots, hlt⟩, hshift]
    rfl
  rw [intercalate_cons_of_ne_nil hnil, append_assoc, inetLoop_digits hdigits,
    singleton_append, inetLoop, if_neg (by decide), if_pos ⟨rfl, hlt⟩, hshift]
  exact ih hnil _ (by simp only [length_cons] at hdots; omega)

theorem foldl_uint32 (ns : List ℕ) (v : ℕ) :
    ns.foldl (fun v n => v * 256 + UInt32.ofNat n) (UInt32.ofNat v) =
      UInt32.ofNat (ns.foldl (fun v n => v * 256 + n) v) := by
  induction ns generalizing v with
  | nil => rfl
  | cons n ns ih => ?_
  rw [foldl_cons, foldl_cons, ← ih, UInt32.ofNat_add, UInt32.ofNat_mul]
  rfl

theorem Ipv4.getLast_ne (h : Ipv4 t a) : t.getLast? ≠ some 0x2E := by
  obtain ⟨octets, ns, hall, hlen, rfl, -⟩ := h
  match octets, ns, hall, hlen with
  | [o0, o1, o2, o3], [_, _, _, n], .cons _ (.cons _ (.cons _ (.cons h3 .nil))), _ =>
    obtain ⟨⟨hne, hdigits, -⟩, -⟩ := h3
    intro hlast
    have hmem : (0x2E : UInt8) ∈ o3 := by
      rw [show [0x2E].intercalate [o0, o1, o2, o3] =
          (o0 ++ 0x2E :: (o1 ++ 0x2E :: (o2 ++ [0x2E]))) ++ o3 by simp [intercalate],
        getLast?_append_of_ne_nil _ hne] at hlast
      exact mem_of_getLast? hlast
    exact notMem_digits hdigits (by decide) hmem

/-- **`nxt_inet_addr` reads dotted decimal.** -/
theorem inetAddr_eq (h : Ipv4 t a) : (inetAddr t).toBitVec = a := by
  have hlast := h.getLast_ne
  obtain ⟨octets, ns, hall, hlen, rfl, rfl⟩ := h
  have hne : octets ≠ [] := by
    rintro rfl
    exact absurd hlen (by decide)
  have hloop := inetLoop_eq hall hne (UInt32.ofNat 0) (by omega : 0 + octets.length = 4)
  rw [foldl_uint32] at hloop
  rw [inetAddr, if_neg hlast]
  exact congrArg UInt32.toBitVec hloop

/-- The texts that `nxt_inet_addr` should have to do with: no number between the
dots is empty and none wraps around in the loop. -/
def PlainOctets (t : Bytes) : Prop :=
  ∀ o ∈ t.splitOn 0x2E, o ≠ [] ∧ decimalValue 0 o < 2 ^ 64

/-- **`nxt_inet_addr` reads nothing else**, but for empty numbers and those that
wrap around. -/
theorem exists_ipv4 (hplain : PlainOctets t) (h : inetAddr t ≠ inaddrNone) : ∃ a, Ipv4 t a := by
  unfold inetAddr at h
  split at h
  · exact absurd rfl h
  obtain ⟨octets, hne, rfl, hcount, hall⟩ := inetLoop_octets t 0 0 h
  have hsplit := splitOn_intercalate 0x2E
    (fun o ho => notMem_digits (hall o ho).1 (by decide)) hne
  rw [PlainOctets, hsplit] at hplain
  refine ⟨_, octets, octets.map (decimalValue 0), ?_, by omega, rfl, rfl⟩
  rw [forall₂_map_right_iff, forall₂_same]
  intro o ho
  have hlt := (hall o ho).2
  rw [Nat.mod_eq_of_lt (hplain o ho).2] at hlt
  exact ⟨⟨(hplain o ho).1, (hall o ho).1, rfl⟩, by omega⟩

/-- A success has three dots and no other byte that is not a digit. -/
theorem inetAddr_fields (h : inetAddr t ≠ inaddrNone) :
    t.getLast? ≠ some 0x2E ∧ ∃ o0 o1 o2 o3, t = o0 ++ 0x2E :: (o1 ++ 0x2E :: (o2 ++ 0x2E :: o3)) ∧
      ∀ c ∈ o0 ++ o1 ++ o2 ++ o3, isDigit c = true := by
  unfold inetAddr at h
  split at h
  · exact absurd rfl h
  rename_i hlast
  obtain ⟨octets, -, rfl, hcount, hall⟩ := inetLoop_octets t 0 0 h
  match octets, hcount with
  | [o0, o1, o2, o3], _ =>
    refine ⟨hlast, o0, o1, o2, o3, by simp [intercalate], ?_⟩
    simp only [mem_append]
    rintro c (((hc | hc) | hc) | hc)
    · exact (hall o0 (by simp)).1 c hc
    · exact (hall o1 (by simp)).1 c hc
    · exact (hall o2 (by simp)).1 c hc
    · exact (hall o3 (by simp)).1 c hc

theorem inetAddr_colon (h : (0x3A : UInt8) ∈ t) : inetAddr t = inaddrNone := by
  by_contra hne
  obtain ⟨-, o0, o1, o2, o3, rfl, hdigits⟩ := inetAddr_fields hne
  have hmem : (0x3A : UInt8) ∈ o0 ++ o1 ++ o2 ++ o3 := by simpa [or_assoc] using h
  exact absurd (hdigits _ hmem) (by decide)

/-- Four bytes are too few for an address that does not start with a dot. -/
theorem inetAddr_short (hlen : t.length ≤ 4) (hdot : t.head? ≠ some 0x2E) :
    inetAddr t = inaddrNone := by
  by_contra hne
  obtain ⟨hlast, o0, o1, o2, o3, rfl, -⟩ := inetAddr_fields hne
  have h0 : o0 ≠ [] := by
    rintro rfl
    exact hdot rfl
  have h3 : o3 ≠ [] := by
    rintro rfl
    have hend : o0 ++ 0x2E :: (o1 ++ 0x2E :: (o2 ++ [0x2E])) =
        (o0 ++ 0x2E :: (o1 ++ 0x2E :: o2)) ++ [(0x2E : UInt8)] := by simp
    exact hlast (by rw [hend, getLast?_concat])
  have h0' := length_pos_iff.mpr h0
  have h3' := length_pos_iff.mpr h3
  simp only [length_append, length_cons] at hlen
  omega

/-! ### Hexadecimal groups -/

def Hextet (h : Bytes) (n : ℕ) : Prop := HexSize h n ∧ h.length ≤ 4

/-- The text `t` is the IPv6 address `a`: eight groups joined by colons, or fewer
with two colons in the place of the zeros. -/
inductive Ipv6 : Bytes → BitVec 128 → Prop
  | full {hs : List Bytes} {ns : List ℕ} (h : List.Forall₂ Hextet hs ns) (hlen : hs.length = 8) :
      Ipv6 ([0x3A].intercalate hs) (BitVec.ofNat 128 (positional 65536 ns))
  | compressed {ls rs : List Bytes} {ms ns : List ℕ} (hl : List.Forall₂ Hextet ls ms)
      (hr : List.Forall₂ Hextet rs ns) (hlen : ls.length + rs.length ≤ 7) :
      Ipv6 ([0x3A].intercalate ls ++ (0x3A :: 0x3A :: [0x3A].intercalate rs))
        (BitVec.ofNat 128
          (positional 65536 (ms ++ List.replicate (8 - (ms.length + ns.length)) 0 ++ ns)))

/-- Groups with the colon behind each, and the rest of the text. -/
inductive Groups : List ℕ → Bytes → Bytes → Prop
  | nil {rest : Bytes} : Groups [] rest rest
  | cons {h t rest : Bytes} {n : ℕ} {ns : List ℕ} (hh : Hextet h n) (hs : Groups ns t rest) :
      Groups (n :: ns) (h ++ 0x3A :: t) rest

/-- The loop of `nxt_inet6_addr` at the first byte of a group. -/
structure Inet6.AtGroup (s : Inet6) (t : Bytes) : Prop where
  nibbles : s.nibbles = 0
  group : s.group = 0
  left : 0 < s.groupsLeft
  ipv4 : ∀ text, s.ipv4 = some text → text = t

theorem hexDigit_ne {ch : UInt8} (h : hexDigit ch = some c) : ch ≠ 0x3A ∧ ch ≠ 0x2E := by
  constructor <;> rintro rfl <;> exact absurd (show none = some c from h) (by simp)

theorem inet6Loop_digit {ch : UInt8} (hc : hexDigit ch = some c)
    (hn : s.nibbles < 4) (rest : Bytes) : inet6Loop s (ch :: rest) =
      inet6Loop { s with nibbles := s.nibbles + 1, group := s.group * 16 + c.toNat } rest := by
  obtain ⟨hcolon, hdot⟩ := hexDigit_ne hc
  rw [inet6Loop, if_neg hcolon, if_neg (fun h => hdot h.1), if_neg (by omega), hc, Nat.shiftLeft_eq]

theorem inet6Loop_hextet (hh : HexSize h n) (hlen : h.length ≤ 4)
    (hnibbles : s.nibbles = 0) (hgroup : s.group = 0) (rest : Bytes) :
    inet6Loop s (h ++ rest) = inet6Loop { s with nibbles := h.length, group := n } rest := by
  induction hh generalizing rest with
  | one hc =>
    rw [singleton_append, inet6Loop_digit hc (by omega), hnibbles, hgroup]
    simp
  | @snoc digits n ch c _ hc ih => ?_
  rw [length_append, length_singleton] at hlen
  rw [append_assoc, ih (by omega), singleton_append,
    inet6Loop_digit hc (show digits.length < 4 by omega)]
  simp

theorem HexSize.length_pos (hh : HexSize h n) : 0 < h.length := by
  cases hh <;> simp

theorem inet6Loop_colon (hn : s.nibbles ≠ 0) (rest : Bytes) :
    inet6Loop s (0x3A :: rest) =
      if s.groupsLeft - 1 ≠ 0 then
        inet6Loop { s with
          ipv4 := some rest
          addr := s.addr ++ groupBytes s.group
          groupsLeft := s.groupsLeft - 1
          nibbles := 0
          group := 0 } rest
      else none := by
  rw [inet6Loop, if_pos rfl, if_pos hn]

/-- The loop over groups: it fails when it has too many of them. -/
theorem Groups.loop (h : Groups ns t rest) (hs : s.AtGroup t) :
    (inet6Loop s t = none ∧ s.groupsLeft ≤ ns.length) ∨
      ∃ s', inet6Loop s t = inet6Loop s' rest ∧ s'.AtGroup rest ∧
        s'.addr = s.addr ++ ns.flatMap groupBytes ∧ s'.zeroStart = s.zeroStart ∧
        s'.groupsLeft + ns.length = s.groupsLeft := by
  induction h generalizing s with
  | nil => exact .inr ⟨s, rfl, hs, by simp, rfl, rfl⟩
  | @cons h t rest n ns hh _ ih => ?_
  have hpos := hh.1.length_pos
  have hleft := hs.left
  rw [inet6Loop_hextet hh.1 hh.2 hs.nibbles hs.group, inet6Loop_colon (show h.length ≠ 0 by omega)]
  split
  · rename_i hmore
    have hat : Inet6.AtGroup { s with
        ipv4 := some t, addr := s.addr ++ groupBytes n, groupsLeft := s.groupsLeft - 1,
        nibbles := 0, group := 0 } t :=
      ⟨rfl, rfl, Nat.pos_of_ne_zero hmore, fun _ ht => (Option.some.inj ht).symm⟩
    rcases ih hat with ⟨hnone, hle⟩ | ⟨s', hloop, hat', haddr, hzero, hcount⟩
    · refine .inl ⟨hnone, ?_⟩
      simp only [length_cons] at hle ⊢
      omega
    refine .inr ⟨s', hloop, hat', ?_, hzero, ?_⟩
    · rw [haddr, flatMap_cons, append_assoc]
    · simp only [length_cons] at hcount ⊢
      omega
  rename_i hlast
  refine .inl ⟨rfl, ?_⟩
  simp only at hlast
  simp only [length_cons]
  omega

theorem exists_hexSize (hne : h ≠ []) (hall : ∀ c ∈ h, (hexDigit c).isSome = true) :
    ∃ n, HexSize h n := by
  induction h using reverseRecOn with
  | nil => exact absurd rfl hne
  | append_singleton h ch ih => ?_
  obtain ⟨c, hc⟩ := Option.isSome_iff_exists.mp (hall ch (by simp))
  by_cases hnil : h = []
  · subst hnil
    exact ⟨_, .one hc⟩
  obtain ⟨n, hn⟩ := ih hnil (fun c hc => hall c (by simp [hc]))
  exact ⟨_, .snoc hn hc⟩

def ShortBlocks (t : Bytes) : Prop := ∀ f ∈ t.splitOn 0x3A, f.length ≤ 4

/-- A byte that is not a digit stops the loop, and so does a dot in no IPv4
address. -/
theorem inet6Loop_stop (hcolon : c ≠ 0x3A) (hc : hexDigit c = none)
    (hdot : s.nibbles ≠ 0 → ∀ text, s.ipv4 = some text → inetAddr text = inaddrNone)
    (rest : Bytes) : inet6Loop s (c :: rest) = none := by
  rw [inet6Loop, if_neg hcolon]
  split
  · rename_i h
    split
    · rfl
    cases htext : s.ipv4 with
    | none => rfl
    | some text => simp only [hdot h.2 text htext, if_pos]
  rw [hc]
  split <;> rfl

/-- A group with a byte that is not a digit; a dot is one of these, since an IPv4
address would have more bytes. -/
theorem inet6Loop_bad {f : Bytes} (hrest : rest = [] ∨ rest.head? = some 0x3A)
    (hcolon : (0x3A : UInt8) ∉ f) (hlen : f.length ≤ 4) {bad : UInt8} (hmem : bad ∈ f)
    (hbad : hexDigit bad = none) (hs : s.AtGroup (f ++ rest)) : inet6Loop s (f ++ rest) = none := by
  -- the digits before the first bad byte are read
  set isHex : UInt8 → Bool := fun c => (hexDigit c).isSome
  obtain ⟨c, f', hdrop⟩ : ∃ c f', f.dropWhile isHex = c :: f' := by
    apply exists_cons_of_ne_nil
    intro hnil
    have := dropWhile_eq_nil_iff.mp hnil bad hmem
    simp [isHex, hbad] at this
  have hc : hexDigit c = none := by
    have := head?_dropWhile_not isHex f
    rw [hdrop] at this
    simpa [isHex] using this
  have hsplit : f = f.takeWhile isHex ++ c :: f' := by
    rw [← hdrop, takeWhile_append_dropWhile]
  have hne : c ≠ 0x3A := fun h => hcolon (by rw [hsplit]; simp [h])
  have hhex : ∀ x ∈ f.takeWhile isHex, isHex x = true := fun x hx => mem_takeWhile_imp hx
  generalize f.takeWhile isHex = h at hsplit hhex
  subst hsplit
  rw [append_assoc, cons_append] at hs ⊢
  by_cases hnil : h = []
  · subst hnil
    exact inet6Loop_stop hne hc (fun hn => absurd hs.nibbles hn) _
  obtain ⟨n, hn⟩ := exists_hexSize hnil hhex
  have hlen' : h.length ≤ 4 := by
    simp only [length_append] at hlen
    omega
  rw [inet6Loop_hextet hn hlen' hs.nibbles hs.group]
  refine inet6Loop_stop hne hc (fun _ text htext => ?_) _
  rw [hs.ipv4 text htext]
  rcases hrest with rfl | hhead
  · refine inetAddr_short (by simpa using hlen) ?_
    obtain ⟨d, h', rfl⟩ := exists_cons_of_ne_nil hnil
    rintro hd
    obtain rfl : d = 0x2E := by simpa using hd
    exact absurd (hhex 0x2E (by simp)) (by decide)
  · exact inetAddr_colon (by simp [mem_of_head? hhead])

/-- Every text is groups with their colons, and a rest which is empty, one more
group, an empty group or a failure. -/
theorem exists_groups (t : Bytes) (hshort : ShortBlocks t) :
    ∃ ns rest, Groups ns t rest ∧ ShortBlocks rest ∧
      (rest = [] ∨ (∃ n, Hextet rest n) ∨ (∃ t', rest = 0x3A :: t') ∨
        ∀ s : Inet6, s.AtGroup rest → inet6Loop s rest = none) := by
  induction hlen : t.length using Nat.strong_induction_on generalizing t with
  | _ len ih =>
    -- the bytes up to the first colon
    obtain ⟨f, tail, rfl, hf, htail⟩ : ∃ f tail, t = f ++ tail ∧ (0x3A : UInt8) ∉ f ∧
        (tail = [] ∨ ∃ t', tail = 0x3A :: t') := by
      by_cases hmem : (0x3A : UInt8) ∈ t
      · obtain ⟨f, t', rfl, hf⟩ := eq_append_cons_of_mem hmem
        exact ⟨f, _, rfl, hf, .inr ⟨t', rfl⟩⟩
      · exact ⟨t, [], by simp, hmem, .inl rfl⟩
    have hflen : f.length ≤ 4 := by
      rcases htail with rfl | ⟨t', rfl⟩
      · exact hshort f (by simp [splitOn_eq_singleton hf])
      · exact hshort f (by simp [splitOn_append_cons_self_of_not_mem hf])
    by_cases hnil : f = []
    · subst hnil
      refine ⟨[], tail, .nil, hshort, ?_⟩
      rcases htail with h | h
      · exact .inl h
      · exact .inr (.inr (.inl h))
    by_cases hhex : ∀ c ∈ f, (hexDigit c).isSome = true
    · obtain ⟨n, hn⟩ := exists_hexSize hnil hhex
      rcases htail with rfl | ⟨t', rfl⟩
      · exact ⟨[], f ++ [], .nil, hshort, .inr (.inl ⟨n, by simpa using ⟨hn, hflen⟩⟩)⟩
      rw [ShortBlocks, splitOn_append_cons_self_of_not_mem hf, forall_mem_cons] at hshort
      obtain ⟨ns, rest, hgroups, hrest⟩ := ih t'.length (by
        rw [← hlen, length_append, length_cons]; omega) t' hshort.2 rfl
      exact ⟨n :: ns, rest, .cons ⟨hn, hflen⟩ hgroups, hrest⟩
    push Not at hhex
    obtain ⟨bad, hmem, hbad⟩ := hhex
    refine ⟨[], f ++ tail, .nil, hshort, .inr (.inr (.inr fun s hs => ?_))⟩
    refine inet6Loop_bad ?_ hf hflen hmem (by simpa using hbad) hs
    rcases htail with rfl | ⟨t', rfl⟩
    · exact .inl rfl
    · exact .inr rfl

/-! ### The two readings of an IPv6 address -/

/-- The address that bytes in the order of the network stand for. -/
def bytesAddr (bytes : Bytes) : BitVec 128 :=
  BitVec.ofNat 128 (positional 256 (bytes.map UInt8.toNat))

/-- The end of `nxt_inet6_addr`. -/
def Inet6.finish (s : Inet6) : Option Bytes :=
  if s.nibbles = 0 ∧ s.zeroStart = none then none
  else
    match s.zeroStart with
    | some start =>
      if s.groupsLeft - 1 ≠ 0 then
        some ((s.addr ++ groupBytes s.group).take start ++
          List.replicate (2 * (s.groupsLeft - 1)) 0 ++ (s.addr ++ groupBytes s.group).drop start)
      else none
    | none => if s.groupsLeft - 1 = 0 then some (s.addr ++ groupBytes s.group) else none

theorem inet6Addr_colon (u : Bytes) : inet6Addr (0x3A :: u) = (inet6Loop {} u).bind Inet6.finish := by
  rw [inet6Addr, if_pos rfl]
  cases inet6Loop {} u <;> rfl

theorem inet6Addr_of_ne (hne : t ≠ []) (hcolon : t.head? ≠ some 0x3A) :
    inet6Addr t = (inet6Loop {} t).bind Inet6.finish := by
  obtain ⟨c, u, rfl⟩ := exists_cons_of_ne_nil hne
  rw [inet6Addr, if_neg (by simpa using hcolon)]
  cases inet6Loop {} (c :: u) <;> rfl

theorem Inet6.atGroup_init (t : Bytes) : Inet6.AtGroup {} t := ⟨rfl, rfl, by decide, nofun⟩

theorem HexSize.lt_pow (hh : HexSize h n) : n < 16 ^ h.length := by
  induction hh with
  | one hc => simpa using UInt8.lt_iff_toNat_lt.mp (hexDigit_lt hc)
  | snoc _ hc ih => ?_
  have hc16 := UInt8.lt_iff_toNat_lt.mp (hexDigit_lt hc)
  simp only [UInt8.reduceToNat] at hc16
  rw [length_append, length_singleton, pow_succ]
  omega

theorem Hextet.lt (hh : Hextet h n) : n < 65536 :=
  calc n < 16 ^ h.length := hh.1.lt_pow
    _ ≤ 16 ^ 4 := Nat.pow_le_pow_right (by norm_num) hh.2
    _ = 65536 := by norm_num

theorem foldl_groupBytes (h : ∀ n ∈ ns, n < 65536) (v : ℕ) :
    ((ns.flatMap groupBytes).map UInt8.toNat).foldl (fun v n => v * 256 + n) v =
      ns.foldl (fun v n => v * 65536 + n) v := by
  induction ns generalizing v with
  | nil => simp only [flatMap_nil, map_nil, foldl_nil]
  | cons n ns ih => ?_
  obtain ⟨hn, hns⟩ := forall_mem_cons.mp h
  have hgroup : (v * 256 + (UInt8.ofNat (n >>> 8)).toNat) * 256 + (UInt8.ofNat n).toNat =
      v * 65536 + n := by
    rw [UInt8.toNat_ofNat', UInt8.toNat_ofNat', Nat.shiftRight_eq_div_pow]
    omega
  rw [flatMap_cons, map_append, foldl_append, foldl_cons, ← ih hns, ← hgroup]
  rfl

theorem bytesAddr_groups (h : ∀ n ∈ ns, n < 65536) :
    bytesAddr (ns.flatMap groupBytes) = BitVec.ofNat 128 (positional 65536 ns) :=
  congrArg (BitVec.ofNat 128) (foldl_groupBytes h 0)

theorem length_groups (ns : List ℕ) : (ns.flatMap groupBytes).length = 2 * ns.length := by
  induction ns with
  | nil => rfl
  | cons n ns ih => ?_
  rw [flatMap_cons, length_append, ih, length_cons]
  exact (Nat.add_comm _ _).trans (Nat.mul_succ 2 _).symm

theorem intercalate_groups (h : List.Forall₂ Hextet hs ns)
    (hne : hs ≠ []) (rest : Bytes) : Groups ns ([0x3A].intercalate hs ++ 0x3A :: rest) rest := by
  induction h with
  | nil => exact absurd rfl hne
  | @cons g n hs ns hh hrest ih => ?_
  by_cases hnil : hs = []
  · subst hnil
    cases hrest
    rw [intercalate_singleton]
    exact .cons hh .nil
  rw [intercalate_cons_of_ne_nil hnil, append_assoc, append_assoc]
  exact .cons hh (ih hnil)

theorem intercalate_last (h : List.Forall₂ Hextet hs ns)
    (hne : hs ≠ []) : ∃ ms g n, Groups ms ([0x3A].intercalate hs) g ∧ Hextet g n ∧ ns = ms ++ [n] := by
  induction h with
  | nil => exact absurd rfl hne
  | @cons g n hs ns hh hrest ih => ?_
  by_cases hnil : hs = []
  · subst hnil
    cases hrest
    exact ⟨[], g, n, by rw [intercalate_singleton]; exact .nil, hh, rfl⟩
  obtain ⟨ms, g', n', hgroups, hlast, rfl⟩ := ih hnil
  refine ⟨n :: ms, g', n', ?_, hlast, rfl⟩
  rw [intercalate_cons_of_ne_nil hnil, append_assoc]
  exact .cons hh hgroups

/-- Groups with their colons and a last one are joined by colons. -/
theorem Groups.exists_intercalate {g : Bytes} (h : Groups ns t g) (hg : Hextet g n) :
    ∃ hs, List.Forall₂ Hextet hs (ns ++ [n]) ∧ hs ≠ [] ∧ t = [0x3A].intercalate hs := by
  induction h with
  | nil => exact ⟨[_], .cons hg .nil, by simp, by simp⟩
  | @cons h t rest m ns hh _ ih => ?_
  obtain ⟨hs, hall, hne, rfl⟩ := ih hg
  refine ⟨h :: hs, .cons hh hall, by simp, ?_⟩
  rw [intercalate_cons_of_ne_nil hne]
  simp

/-- Groups with a colon behind the last are joined by colons before it. -/
theorem Groups.exists_terminated (h : Groups ns t rest) : ∃ hs, List.Forall₂ Hextet hs ns ∧
      ((hs = [] ∧ t = rest) ∨ (hs ≠ [] ∧ t = [0x3A].intercalate hs ++ 0x3A :: rest)) := by
  induction h with
  | nil => exact ⟨[], .nil, .inl ⟨rfl, rfl⟩⟩
  | @cons h t rest m ns hh _ ih => ?_
  obtain ⟨hs, hall, ⟨rfl, rfl⟩ | ⟨hne, rfl⟩⟩ := ih
  · exact ⟨[h], .cons hh hall, .inr ⟨by simp, by simp⟩⟩
  refine ⟨h :: hs, .cons hh hall, .inr ⟨by simp, ?_⟩⟩
  rw [intercalate_cons_of_ne_nil hne]
  simp

theorem Inet6.AtGroup.loop_last {g : Bytes} (hs : s.AtGroup g)
    (hg : Hextet g n) : inet6Loop s g = some { s with nibbles := g.length, group := n } := by
  have hloop := inet6Loop_hextet hg.1 hg.2 hs.nibbles hs.group []
  rwa [append_nil] at hloop

theorem Inet6.AtGroup.loop_zero (hs : s.AtGroup (0x3A :: t)) (hzero : s.zeroStart = none) :
    ∃ s', inet6Loop s (0x3A :: t) = inet6Loop s' t ∧ s'.AtGroup t ∧ s'.addr = s.addr ∧
      s'.zeroStart = some s.addr.length ∧ s'.groupsLeft = s.groupsLeft := by
  refine ⟨{ s with ipv4 := some t, zeroStart := some s.addr.length }, ?_,
    ⟨hs.nibbles, hs.group, hs.left, fun _ ht => (Option.some.inj ht).symm⟩, rfl, rfl, rfl⟩
  rw [inet6Loop, if_pos rfl, if_neg (by simp [hs.nibbles]), if_pos hzero]

theorem Inet6.AtGroup.loop_again {start : ℕ} (hs : s.AtGroup (0x3A :: t))
    (hzero : s.zeroStart = some start) : inet6Loop s (0x3A :: t) = none := by
  rw [inet6Loop, if_pos rfl, if_neg (by simp [hs.nibbles]), if_neg (by simp [hzero])]

theorem flatMap_zeros (k : ℕ) :
    (List.replicate k 0).flatMap groupBytes = List.replicate (2 * k) (0 : UInt8) := by
  induction k with
  | zero => rfl
  | succ k ih => ?_
  rw [replicate_succ, flatMap_cons, ih, show 2 * (k + 1) = 2 + 2 * k by omega,
    ← replicate_append_replicate]
  rfl

theorem Inet6.finish_zero {l r : Bytes} (hzero : s.zeroStart = some l.length)
    (haddr : s.addr ++ groupBytes s.group = l ++ r) (hleft : 1 < s.groupsLeft) :
    s.finish = some (l ++ List.replicate (2 * (s.groupsLeft - 1)) 0 ++ r) := by
  rw [Inet6.finish, if_neg (by simp [hzero]), hzero]
  simp only [haddr, take_left, drop_left]
  rw [if_pos (by omega)]

/-- What follows the two colons is read when at least one group is left for the
zeros, after the one that is always added. -/
theorem Inet6.AtGroup.finish_tail {rs : List Bytes}
    (hs : s.AtGroup ([0x3A].intercalate rs)) (hzero : s.zeroStart = some s.addr.length)
    (hr : List.Forall₂ Hextet rs ns) (hone : 1 < s.groupsLeft) (hleft : ns.length < s.groupsLeft) :
    (inet6Loop s ([0x3A].intercalate rs)).bind Inet6.finish =
      some (s.addr ++ (List.replicate (s.groupsLeft - ns.length) 0 ++ ns).flatMap groupBytes) := by
  by_cases hnil : rs = []
  · subst hnil
    cases hr
    have hadd : s.addr ++ groupBytes s.group = s.addr ++ [0, 0] := by
      rw [hs.group]
      rfl
    refine (Inet6.finish_zero hzero hadd hone).trans ?_
    rw [append_nil, flatMap_zeros, append_assoc]
    have hsum : 2 * (s.groupsLeft - 1) + 2 = 2 * (s.groupsLeft - 0) := by omega
    rw [length_nil, ← hsum, ← replicate_append_replicate]
    rfl
  obtain ⟨ms, g, n, hgroups, hg, rfl⟩ := intercalate_last hr hnil
  rw [length_append, length_singleton] at hleft
  rcases hgroups.loop hs with ⟨-, hle⟩ | ⟨s', hloop, hat, haddr, hzero', hcount⟩
  · omega
  rw [hloop, hat.loop_last hg, Option.bind_some]
  have hadd : s'.addr ++ groupBytes n = s.addr ++ (ms ++ [n]).flatMap groupBytes := by
    rw [haddr, flatMap_append, append_assoc]
    simp
  refine (@Inet6.finish_zero { s' with nibbles := g.length, group := n } s.addr _
    (hzero'.trans hzero) hadd (show 1 < s'.groupsLeft by omega)).trans ?_
  have hrest : s.groupsLeft - (ms ++ [n]).length = s'.groupsLeft - 1 := by
    rw [length_append, length_singleton]
    omega
  have hzeros : (replicate (s'.groupsLeft - 1) 0 ++ (ms ++ [n])).flatMap groupBytes =
      replicate (2 * (s'.groupsLeft - 1)) 0 ++ (ms ++ [n]).flatMap groupBytes := by
    rw [flatMap_append, flatMap_zeros]
  rw [hrest, hzeros, append_assoc]

def SevenGroups (t : Bytes) : Prop :=
  ∃ hs ns, List.Forall₂ Hextet hs ns ∧ hs.length = 7 ∧
    t = [0x3A].intercalate hs ++ [0x3A, 0x3A]

theorem hextets_lt (h : List.Forall₂ Hextet hs ns) : ∀ n ∈ ns, n < 65536 := by
  induction h with
  | nil => simp
  | cons hh _ ih => exact forall_mem_cons.mpr ⟨hh.lt, ih⟩

theorem HexSize.isSome (hh : HexSize h n) : ∀ c ∈ h, (hexDigit c).isSome = true := by
  induction hh with
  | one hc => simp [hc]
  | snoc _ hc ih => ?_
  intro c hmem
  rcases mem_append.mp hmem with hmem | hmem
  · exact ih c hmem
  rw [mem_singleton.mp hmem, hc]
  rfl

theorem Hextet.colon_notMem (hh : Hextet h n) : (0x3A : UInt8) ∉ h :=
  fun hmem => absurd (hh.1.isSome _ hmem) (by decide)

theorem hextets_first (h : List.Forall₂ Hextet hs ns)
    (hne : hs ≠ []) : ∃ c u, [0x3A].intercalate hs = c :: u ∧ c ≠ 0x3A := by
  cases h with
  | nil => exact absurd rfl hne
  | @cons g n hs ns hh _ => ?_
  obtain ⟨c, g', rfl⟩ := exists_cons_of_length_pos hh.1.length_pos
  have hc : c ≠ 0x3A := fun hc => hh.colon_notMem (by simp [hc])
  by_cases hnil : hs = []
  · exact ⟨c, g', by rw [hnil, intercalate_singleton], hc⟩
  · exact ⟨c, _, by rw [intercalate_cons_of_ne_nil hnil]; rfl, hc⟩

/-- The text behind the colon that `nxt_inet6_addr` skips. -/
theorem inet6Addr_compressed {ls : List Bytes} {ms : List ℕ} (hl : List.Forall₂ Hextet ls ms)
    (r : Bytes) : ∃ u, Groups ms u (0x3A :: r) ∧
      inet6Addr ([0x3A].intercalate ls ++ (0x3A :: 0x3A :: r)) =
        (inet6Loop {} u).bind Inet6.finish := by
  by_cases hnil : ls = []
  · subst hnil
    cases hl
    exact ⟨0x3A :: r, .nil, inet6Addr_colon _⟩
  refine ⟨_, intercalate_groups hl hnil _, inet6Addr_of_ne (by simp) ?_⟩
  obtain ⟨c, u, hcons, hc⟩ := hextets_first hl hnil
  simpa [hcons] using hc

theorem inet6Addr_full (hall : List.Forall₂ Hextet hs ns) (hlen : hs.length = 8) :
    inet6Addr ([0x3A].intercalate hs) = some (ns.flatMap groupBytes) := by
  have hne : hs ≠ [] := by
    rintro rfl
    exact absurd hlen (by decide)
  have hcount := hall.length_eq
  obtain ⟨ms, g, n, hgroups, hg, rfl⟩ := intercalate_last hall hne
  rw [length_append, length_singleton] at hcount
  rcases hgroups.loop (Inet6.atGroup_init _) with ⟨-, hle⟩ | ⟨s, hloop, hat, haddr, hzero, hleft⟩
  · change 8 ≤ _ at hle
    omega
  change _ = 8 at hleft
  obtain ⟨c, u, hcons, hc⟩ := hextets_first hall hne
  have hpos := hg.1.length_pos
  rw [inet6Addr_of_ne (by simp [hcons]) (by simpa [hcons] using hc), hloop, hat.loop_last hg,
    Option.bind_some, Inet6.finish]
  rw [if_neg (by simp only; omega)]
  simp only [hzero]
  rw [if_pos (by omega), haddr]
  simp

theorem inet6Addr_short {ls rs : List Bytes} {ms : List ℕ} (hl : List.Forall₂ Hextet ls ms)
    (hr : List.Forall₂ Hextet rs ns) (hlen : ls.length + rs.length ≤ 7) (hone : ls.length < 7) :
    inet6Addr ([0x3A].intercalate ls ++ (0x3A :: 0x3A :: [0x3A].intercalate rs)) =
      some ((ms ++ List.replicate (8 - (ms.length + ns.length)) 0 ++ ns).flatMap groupBytes) := by
  have hms := hl.length_eq
  have hns := hr.length_eq
  obtain ⟨u, hgroups, haddr6⟩ := inet6Addr_compressed hl ([0x3A].intercalate rs)
  rcases hgroups.loop (Inet6.atGroup_init _) with ⟨-, hle⟩ | ⟨s, hloop, hat, haddr, hzero, hleft⟩
  · change 8 ≤ _ at hle
    omega
  change _ = 8 at hleft
  obtain ⟨s', hloop', hat', haddr', hzero', hleft'⟩ := hat.loop_zero hzero
  rw [haddr6, hloop, hloop', hat'.finish_tail (by rw [hzero', haddr']) hr (by omega) (by omega),
    haddr', haddr, show s'.groupsLeft - ns.length = 8 - (ms.length + ns.length) by omega]
  simp only [flatMap_append, append_assoc]
  rfl

/-- **`nxt_inet6_addr` reads eight groups and compressed addresses**, but for seven
groups with two colons behind them. -/
theorem inet6Addr_eq {a : BitVec 128} (h : Ipv6 t a) (hseven : ¬ SevenGroups t) :
    ∃ bytes, inet6Addr t = some bytes ∧ bytes.length = 16 ∧ bytesAddr bytes = a := by
  cases h with
  | @full hs ns hall hlen =>
    refine ⟨_, inet6Addr_full hall hlen, ?_, bytesAddr_groups (hextets_lt hall)⟩
    rw [length_groups, ← hall.length_eq, hlen]
  | @compressed ls rs ms ns hl hr hlen => ?_
  have hms := hl.length_eq
  have hns := hr.length_eq
  have hone : ls.length < 7 := by
    by_contra hge
    have hrs : rs = [] := length_eq_zero_iff.mp (by omega)
    subst hrs
    exact hseven ⟨ls, ms, hl, by omega, by simp⟩
  refine ⟨_, inet6Addr_short hl hr hlen hone, ?_, bytesAddr_groups ?_⟩
  · rw [length_groups]
    simp only [length_append, length_replicate]
    omega
  · simp only [mem_append, mem_replicate]
    rintro n ((hn | ⟨-, rfl⟩) | hn)
    · exact hextets_lt hl n hn
    · decide
    · exact hextets_lt hr n hn

theorem Groups.exists_append (h : Groups ns t rest) : ∃ p, t = p ++ rest := by
  induction h with
  | nil => exact ⟨[], rfl⟩
  | @cons h t rest n ns _ _ ih => ?_
  obtain ⟨p, rfl⟩ := ih
  exact ⟨h ++ 0x3A :: p, by simp⟩

theorem hextets_last (h : List.Forall₂ Hextet hs ns)
    (hne : hs ≠ []) : ∃ u c, [0x3A].intercalate hs = u ++ [c] ∧ c ≠ 0x3A := by
  obtain ⟨ms, g, n, hgroups, hg, -⟩ := intercalate_last h hne
  obtain ⟨p, hp⟩ := hgroups.exists_append
  obtain ⟨u, c, rfl⟩ := eq_nil_or_concat g |>.resolve_left
    (ne_nil_of_length_pos hg.1.length_pos)
  exact ⟨p ++ u, c, by rw [hp]; simp, fun hc => hg.colon_notMem (by simp [hc])⟩

/-- What a success has read behind the two colons. -/
theorem Inet6.AtGroup.exists_tail {start : ℕ} (hs : s.AtGroup t)
    (hzero : s.zeroStart = some start) (hshort : ShortBlocks t)
    (hend : ∀ u, u ≠ [] → t = u ++ [0x3A] → u.getLast? = some 0x3A) {bytes : Bytes}
    (h : (inet6Loop s t).bind Inet6.finish = some bytes) :
    ∃ rs ns, List.Forall₂ Hextet rs ns ∧ t = [0x3A].intercalate rs ∧ rs.length < s.groupsLeft := by
  obtain ⟨ms, rest, hgroups, -, hrest⟩ := exists_groups t hshort
  rcases hgroups.loop hs with ⟨hnone, -⟩ | ⟨s', hloop, hat, -, hzero', hcount⟩
  · rw [hnone] at h
    exact absurd h (by simp)
  rw [hloop] at h
  rcases hrest with rfl | ⟨n, hn⟩ | ⟨t', rfl⟩ | hbad
  · obtain ⟨hs', hall, ⟨rfl, rfl⟩ | ⟨hne, rfl⟩⟩ := hgroups.exists_terminated
    · exact ⟨[], [], .nil, rfl, hs.left⟩
    -- a single colon at the end
    obtain ⟨u, c, hu, hc⟩ := hextets_last hall hne
    have hlast := hend _ (by simp [hu]) rfl
    rw [hu, getLast?_concat] at hlast
    exact absurd (Option.some.inj hlast) hc
  · obtain ⟨rs, hall, -, rfl⟩ := hgroups.exists_intercalate hn
    refine ⟨rs, _, hall, rfl, ?_⟩
    have hlen := hall.length_eq
    rw [length_append, length_singleton] at hlen
    rw [hat.loop_last hn, Option.bind_some, Inet6.finish,
      if_neg (by simp [hzero'.trans hzero])] at h
    simp only [hzero'.trans hzero] at h
    split at h
    · omega
    · exact absurd h (by simp)
  · rw [hat.loop_again (hzero'.trans hzero)] at h
    exact absurd h (by simp)
  rw [hbad s' hat] at h
  exact absurd h (by simp)

def PlainColons (t : Bytes) : Prop :=
  (∀ u, t = 0x3A :: u → u.head? = some 0x3A) ∧
    (∀ u, t = u ++ [0x3A] → u.getLast? = some 0x3A)

theorem ShortBlocks.of_cons (h : ShortBlocks (0x3A :: t)) : ShortBlocks t := by
  intro f hf
  refine h f ?_
  have hsplit : (0x3A :: t).splitOn 0x3A = [] :: t.splitOn 0x3A :=
    splitOn_append_cons_self_of_not_mem not_mem_nil t
  rw [hsplit]
  exact mem_cons_of_mem _ hf

/-- **`nxt_inet6_addr` reads nothing else** in blocks of at most four bytes, but for
single colons at the ends. -/
theorem exists_ipv6 {bytes : Bytes} (hshort : ShortBlocks t) (hplain : PlainColons t)
    (h : inet6Addr t = some bytes) : ∃ a, Ipv6 t a := by
  have hne : t ≠ [] := by
    rintro rfl
    exact absurd h (by simp [inet6Addr])
  by_cases hcolon : t.head? = some 0x3A
  · -- two colons first
    obtain ⟨u, rfl⟩ := head?_eq_some_iff.mp hcolon
    obtain ⟨r, rfl⟩ := head?_eq_some_iff.mp (hplain.1 u rfl)
    rw [inet6Addr_colon] at h
    obtain ⟨s, hloop, hat, -, hzero, hleft⟩ :=
      (Inet6.atGroup_init (0x3A :: r)).loop_zero rfl
    rw [hloop] at h
    obtain ⟨rs, ns, hall, rfl, hlen⟩ := hat.exists_tail hzero hshort.of_cons.of_cons (by
      rintro u hu rfl
      have hlast := hplain.2 (0x3A :: 0x3A :: u) rfl
      simpa [getLast?_cons_of_ne_nil, hu] using hlast) h
    change _ = 8 at hleft
    exact ⟨_, .compressed .nil hall (by simp only [length_nil]; omega)⟩
  rw [inet6Addr_of_ne hne hcolon] at h
  obtain ⟨ms, rest, hgroups, hshort', hrest⟩ := exists_groups t hshort
  rcases hgroups.loop (Inet6.atGroup_init _) with ⟨hnone, -⟩ | ⟨s, hloop, hat, -, hzero, hcount⟩
  · rw [hnone] at h
    exact absurd h (by simp)
  change s.zeroStart = none at hzero
  change _ = 8 at hcount
  rw [hloop] at h
  rcases hrest with rfl | ⟨n, hn⟩ | ⟨r, rfl⟩ | hbad
  · rw [inet6Loop, Option.bind_some, Inet6.finish, if_pos ⟨hat.nibbles, hzero⟩] at h
    exact absurd h (by simp)
  · obtain ⟨hs, hall, -, rfl⟩ := hgroups.exists_intercalate hn
    refine ⟨_, .full hall ?_⟩
    have hlen := hall.length_eq
    rw [length_append, length_singleton] at hlen
    have hpos := hn.1.length_pos
    rw [hat.loop_last hn, Option.bind_some, Inet6.finish,
      if_neg (by simp only; omega)] at h
    simp only [hzero] at h
    split at h
    · have := hat.left
      omega
    · exact absurd h (by simp)
  · obtain ⟨ls, hall, ⟨rfl, rfl⟩ | ⟨hls, rfl⟩⟩ := hgroups.exists_terminated
    · exact absurd rfl hcolon
    obtain ⟨s', hloop', hat', -, hzero', hleft⟩ := hat.loop_zero hzero
    rw [hloop'] at h
    obtain ⟨rs, ns, hr, rfl, hlen⟩ := hat'.exists_tail hzero' hshort'.of_cons (by
      rintro u hu rfl
      have hlast := hplain.2 ([0x3A].intercalate ls ++ 0x3A :: 0x3A :: u) (by simp)
      simpa [getLast?_append_of_ne_nil, getLast?_cons_of_ne_nil, hu] using hlast) h
    have := hall.length_eq
    exact ⟨_, .compressed hall hr (by omega)⟩
  · rw [hbad s hat] at h
    exact absurd h (by simp)

/-! ### The bytes of an address -/

theorem Ipv4.bytes (h : Ipv4 t a) : ∀ c ∈ t, isDigit c = true ∨ c = 0x2E := by
  obtain ⟨octets, ns, hall, -, rfl, -⟩ := h
  intro c hc
  rcases mem_intercalate hc with hc | ⟨o, ho, hc⟩
  · exact .inr hc
  obtain ⟨n, -, ⟨-, hdigits, -⟩, -⟩ := exists_mem_of_forall₂ hall.flip ho
  exact .inl (hdigits c hc)

theorem Ipv4.notMem (h : Ipv4 t a) (hc : isDigit c = false) (hdot : c ≠ 0x2E) : c ∉ t := by
  intro hmem
  rcases h.bytes c hmem with hd | hd
  · rw [hd] at hc
    exact absurd hc (by decide)
  · exact hdot hd

theorem Ipv4.length_pos (h : Ipv4 t a) : 2 ≤ t.length := by
  obtain ⟨octets, ns, -, hlen, rfl, -⟩ := h
  match octets, hlen with
  | [o0, o1, o2, o3], _ =>
    simp only [intercalate_cons_cons, length_append, length_singleton]
    omega

theorem hextets_bytes (h : List.Forall₂ Hextet hs ns) :
    ∀ c ∈ [0x3A].intercalate hs, (hexDigit c).isSome = true ∨ c = 0x3A := by
  intro c hc
  rcases mem_intercalate hc with hc | ⟨g, hg, hc⟩
  · exact .inr hc
  obtain ⟨n, -, hn⟩ := exists_mem_of_forall₂ h.flip hg
  exact .inl (hn.1.isSome c hc)

theorem Ipv6.bytes {a : BitVec 128} (h : Ipv6 t a) :
    ∀ c ∈ t, (hexDigit c).isSome = true ∨ c = 0x3A := by
  cases h with
  | full h _ => exact hextets_bytes h
  | compressed hl hr _ => ?_
  intro c hc
  simp only [mem_append, mem_cons] at hc
  rcases hc with hc | hc | hc | hc
  · exact hextets_bytes hl c hc
  · exact .inr hc
  · exact .inr hc
  · exact hextets_bytes hr c hc

theorem Ipv6.notMem {a : BitVec 128} (h : Ipv6 t a)
    (hc : hexDigit c = none) (hcolon : c ≠ 0x3A) : c ∉ t := by
  intro hmem
  rcases h.bytes c hmem with hd | hd
  · rw [hc] at hd
    exact absurd hd (by decide)
  · exact hcolon hd

theorem ShortBlocks.cons (h : ShortBlocks t) : ShortBlocks (0x3A :: t) := by
  have hsplit : (0x3A :: t).splitOn 0x3A = [] :: t.splitOn 0x3A :=
    splitOn_append_cons_self_of_not_mem not_mem_nil t
  rw [ShortBlocks, hsplit]
  exact forall_mem_cons.mpr ⟨by decide, h⟩

theorem Groups.shortBlocks (h : Groups ns t rest) (hrest : ShortBlocks rest) : ShortBlocks t := by
  induction h with
  | nil => exact hrest
  | cons hh _ ih => ?_
  rw [ShortBlocks, splitOn_append_cons_self_of_not_mem hh.colon_notMem]
  exact forall_mem_cons.mpr ⟨hh.2, ih hrest⟩

theorem hextets_shortBlocks (h : List.Forall₂ Hextet hs ns) :
    ShortBlocks ([0x3A].intercalate hs) := by
  by_cases hnil : hs = []
  · subst hnil
    rw [intercalate_nil, ShortBlocks, splitOn_eq_singleton (by simp)]
    simp
  obtain ⟨ms, g, n, hgroups, hg, -⟩ := intercalate_last h hnil
  refine hgroups.shortBlocks ?_
  rw [ShortBlocks, splitOn_eq_singleton hg.colon_notMem]
  simpa using hg.2

theorem Ipv6.shortBlocks {a : BitVec 128} (h : Ipv6 t a) : ShortBlocks t := by
  cases h with
  | full h _ => exact hextets_shortBlocks h
  | @compressed ls rs ms ns hl hr _ => ?_
  have htail := (hextets_shortBlocks hr).cons
  by_cases hnil : ls = []
  · subst hnil
    exact htail.cons
  · exact (intercalate_groups hl hnil _).shortBlocks htail

/-- An IPv6 address is one for `nxt_inet6_probe`. -/
theorem Ipv6.two_colons {a : BitVec 128} (h : Ipv6 t a) : 2 ≤ t.count 0x3A := by
  cases h with
  | @full hs ns h hlen =>
    match hs, hlen with
    | g0 :: g1 :: g2 :: hs, _ =>
      rw [intercalate_cons_of_ne_nil (by simp), intercalate_cons_of_ne_nil (by simp)]
      simp only [count_append, count_singleton_self]
      omega
  | compressed _ _ _ => ?_
  simp only [count_append, count_cons_self]
  omega

end FreeUnit
