/-
The text form of a socket address, and reading it back.

`nxt_inet6_ntop` writes the first of the longest runs of zero groups as two
colons, even a run of one group, and the end of some addresses as a dotted
IPv4 address.

* `zeroScan_finds` — the search finds a run of zero groups, if there is one;
* `sockaddrParse_text_iff` — the addresses that are read back as themselves.
-/
import FreeUnit.AddressText
import FreeUnit.ResponseBody

namespace FreeUnit

open List Option

/-- `"%ud.%ud.%ud.%ud"` -/
def dottedText (octets : Bytes) : Bytes := [0x2E].intercalate (octets.map fun c => decimal c.toNat)

/-- `(addr[i] << 8) + addr[i + 1]` for every group. -/
def groupsOf : Bytes → List ℕ
  | hi :: lo :: addr => ((hi.toNat <<< 8) + lo.toNat) :: groupsOf addr
  | _ => []

/-- The variables of the search for zero groups; a start is counted in groups. -/
structure ZeroScan where
  zeroStart : ℕ := 8
  zeroGroups : ℕ := 0
  lastZeroStart : ℕ := 8
  lastZeroGroups : ℕ := 0

def ZeroScan.keep (z : ZeroScan) : ZeroScan :=
  if z.zeroGroups < z.lastZeroGroups then
    { z with zeroGroups := z.lastZeroGroups, zeroStart := z.lastZeroStart }
  else z

def zeroScan (z : ZeroScan) (i : ℕ) : List ℕ → ZeroScan
  | [] => z.keep
  | g :: groups =>
    if g = 0 then
      zeroScan { z with
        lastZeroStart := if z.lastZeroGroups = 0 then i else z.lastZeroStart
        lastZeroGroups := z.lastZeroGroups + 1 } (i + 1) groups
    else zeroScan { z.keep with lastZeroGroups := 0 } (i + 1) groups

/-- The loop that writes the groups; `skip` of them belong to the run of zeros
that has been written. -/
def ntopLoop (z : ZeroScan) : ℕ → ℕ → List ℕ → Bytes
  | _, _, [] => []
  | skip + 1, i, _ :: groups => ntopLoop z skip (i + 1) groups
  | 0, i, g :: groups =>
    if i = z.zeroStart then 0x3A :: ntopLoop z (z.zeroGroups - 1) (i + 1) groups
    else hexadecimal g ++ (if i < 7 then [0x3A] else []) ++ ntopLoop z 0 (i + 1) groups

/-- The last four bytes are written as an IPv4 address. -/
def ZeroScan.dotted (z : ZeroScan) (addr : Bytes) : Bool :=
  z.zeroStart == 0 && ((z.zeroGroups == 5 && addr[10]? == some 0xFF && addr[11]? == some 0xFF) ||
    z.zeroGroups == 6 ||
    (z.zeroGroups == 7 && addr[14]? != some 0 && addr[15]? != some 1))

def inet6Ntop (addr : Bytes) : Bytes :=
  let z := zeroScan {} 0 (groupsOf addr)
  let start := if z.zeroStart = 0 then [0x3A] else []
  if z.dotted addr then
    start ++ ntopLoop z 0 0 ((groupsOf addr).take 6) ++ dottedText (addr.drop 12)
  else start ++ ntopLoop z 0 0 (groupsOf addr)

/-- The bytes of an IPv4 address in the order of the network. -/
def inetOctets (addr : UInt32) : Bytes :=
  [(addr >>> 24).toUInt8, (addr >>> 16).toUInt8, (addr >>> 8).toUInt8, addr.toUInt8]

/-- `nxt_sockaddr_text`, with room for the text. -/
def sockaddrText : SockAddr → Bytes
  | .inet addr port => dottedText (inetOctets addr) ++ 0x3A :: decimal port.toNat
  | .inet6 addr port => 0x5B :: inet6Ntop addr ++ 0x5D :: 0x3A :: decimal port.toNat
  | .unix path => str "unix:" ++ if path.head? = some 0 then 0x40 :: path.drop 1 else path

/-! ### The search for zero groups -/

/-- The run that was found: there is one if there is a zero group, and one group
at the end is taken only if there is no other. -/
def ZeroScan.Found (z : ZeroScan) (groups : List ℕ) : Prop :=
  (z.zeroGroups = 0 ∧ z.zeroStart = 8 ∧ 0 ∉ groups) ∨
    ∃ l r, 0 < z.zeroGroups ∧ groups = l ++ (List.replicate z.zeroGroups 0 ++ r) ∧
      z.zeroStart = l.length ∧ (r = [] → z.zeroGroups = 1 → 0 ∉ l)

variable {z : ZeroScan} {p groups : List ℕ}

theorem ZeroScan.Found.append (h : z.Found p) {q : List ℕ} (hq : 0 ∉ q ∨ 0 < z.zeroGroups) :
    z.Found (p ++ q) := by
  obtain ⟨h0, hstart, hp⟩ | ⟨l, r, hpos, rfl, hstart, hone⟩ := h
  · obtain hq | hq := hq
    · exact .inl ⟨h0, hstart, by simp [hp, hq]⟩
    · omega
  refine .inr ⟨l, r ++ q, hpos, by simp, hstart, fun hr => hone ?_⟩
  exact (append_eq_nil_iff.mp hr).1

/-- The state of the search behind the groups `p`: it ends with the last run, and
what was kept is from before it. -/
def ZeroScan.Behind (z : ZeroScan) (p : List ℕ) : Prop :=
  ∃ q, p = q ++ List.replicate z.lastZeroGroups 0 ∧ z.Found q ∧
    (z.lastZeroGroups ≠ 0 → z.lastZeroStart = q.length)

theorem ZeroScan.Behind.keep (h : z.Behind p) : z.keep.Found p := by
  obtain ⟨q, rfl, hfound, hstart⟩ := h
  rw [ZeroScan.keep]
  split
  · next hlt =>
    refine .inr ⟨q, [], by dsimp only; omega, by simp, hstart (by omega), fun _ hone => ?_⟩
    obtain ⟨-, -, hq⟩ | ⟨_, _, hpos, -⟩ := hfound
    · exact hq
    dsimp only at hone
    omega
  next hge =>
  refine hfound.append ?_
  obtain h0 | h0 := Nat.eq_zero_or_pos z.lastZeroGroups
  · simp [h0]
  · exact .inr (by omega)

theorem zeroScan_finds (h : z.Behind p) : (zeroScan z p.length groups).Found (p ++ groups) := by
  induction groups generalizing z p with
  | nil =>
    rw [append_nil]
    exact h.keep
  | cons g groups ih => ?_
  rw [append_cons, zeroScan]
  have hlen : p.length + 1 = (p ++ [g]).length := by simp
  rw [hlen]
  split
  · next hg =>
    obtain ⟨q, rfl, hfound, hstart⟩ := h
    refine ih ⟨q, ?_, hfound, fun _ => ?_⟩
    · rw [hg, append_assoc, ← replicate_succ']
    · dsimp only
      split
      · next h0 => simp [h0]
      · next h0 => exact hstart h0
  next hg =>
  refine ih ⟨p ++ [g], by simp, ?_, fun h0 => absurd rfl h0⟩
  exact h.keep.append (.inl (by simpa using Ne.symm hg))

/-! ### The groups -/

theorem groupBytes_eq {n : ℕ} {hi lo : UInt8} (h : n % 65536 = hi.toNat * 256 + lo.toNat) :
    groupBytes n = [hi, lo] := by
  have hhi := hi.toNat_lt
  have hlo := lo.toNat_lt
  rw [groupBytes, Nat.shiftRight_eq_div_pow]
  congr 2
  · exact UInt8.toNat_inj.mp (by rw [UInt8.toNat_ofNat']; omega)
  · exact UInt8.toNat_inj.mp (by rw [UInt8.toNat_ofNat']; omega)

theorem groupsOf_spec : ∀ {addr : Bytes} {n : ℕ}, addr.length = 2 * n →
    (groupsOf addr).length = n ∧ (groupsOf addr).flatMap groupBytes = addr ∧
      ∀ g ∈ groupsOf addr, g < 65536
  | [], n, h => by simp [groupsOf, show n = 0 by simpa using h.symm]
  | [_], n, h => by simp at h; omega
  | hi :: lo :: addr, n, h => by
    obtain ⟨m, rfl⟩ : ∃ m, n = m + 1 := ⟨n - 1, by simp at h; omega⟩
    obtain ⟨hlen, hbytes, hlt⟩ := @groupsOf_spec addr m (by simp at h; omega)
    have hhi := hi.toNat_lt
    have hlo := lo.toNat_lt
    refine ⟨by simp [groupsOf, hlen], ?_, forall_mem_cons.mpr ⟨?_, hlt⟩⟩
    · rw [groupsOf, flatMap_cons, hbytes, groupBytes_eq]
      · rfl
      rw [Nat.shiftLeft_eq]
      omega
    · rw [Nat.shiftLeft_eq]
      omega

theorem hextet_hexadecimal {g : ℕ} (h : g < 65536) : Hextet (hexadecimal g) g := by
  refine ⟨hexSize_hexadecimal g, ?_⟩
  rw [hexadecimal]
  split
  · decide
  rw [length_map, length_reverse]
  exact (Nat.digits_length_le_iff (by decide) g).mpr (by omega)

theorem hextets_hexadecimal (h : ∀ g ∈ groups, g < 65536) :
    List.Forall₂ Hextet (groups.map hexadecimal) groups := by
  rw [forall₂_map_left_iff, forall₂_same]
  exact fun g hg => hextet_hexadecimal (h g hg)

/-! ### The text of an IPv6 address -/

theorem ntopLoop_plain {i : ℕ} (hlen : i + groups.length = 8)
    (hstart : z.zeroStart < i ∨ z.zeroStart = 8) :
    ntopLoop z 0 i groups = [0x3A].intercalate (groups.map hexadecimal) := by
  induction groups generalizing i with
  | nil => rfl
  | cons g groups ih => ?_
  rw [length_cons] at hlen
  rw [ntopLoop, if_neg (by omega), ih (by omega) (by omega), map_cons]
  cases groups with
  | nil =>
    rw [if_neg (by simp at hlen; omega), map_nil, intercalate_singleton]
    simp
  | cons g' groups =>
    rw [if_pos (by simp at hlen; omega), intercalate_cons_of_ne_nil (by simp), append_assoc]

theorem ntopLoop_before {i : ℕ} (hi : i + p.length = z.zeroStart) (hz : z.zeroStart < 8) :
    ntopLoop z 0 i (p ++ groups) =
      p.flatMap (fun g => hexadecimal g ++ [0x3A]) ++ ntopLoop z 0 z.zeroStart groups := by
  induction p generalizing i with
  | nil => simp [← hi]
  | cons g p ih => ?_
  rw [length_cons] at hi
  rw [cons_append, ntopLoop, if_neg (by omega), if_pos (by omega), ih (by omega),
    flatMap_cons, append_assoc (_ ++ _)]

theorem ntopLoop_skip (n i : ℕ) :
    ntopLoop z n i (replicate n 0 ++ groups) = ntopLoop z 0 (i + n) groups := by
  induction n generalizing i with
  | zero => rfl
  | succ n ih =>
    rw [replicate_succ, cons_append, ntopLoop, ih, Nat.add_right_comm, Nat.add_assoc]

theorem flatMap_hexadecimal (hp : p ≠ []) : p.flatMap (fun g => hexadecimal g ++ [0x3A]) =
      [0x3A].intercalate (p.map hexadecimal) ++ [0x3A] := by
  induction p with
  | nil => exact absurd rfl hp
  | cons g p ih => ?_
  rw [flatMap_cons, map_cons]
  cases p with
  | nil => simp
  | cons g' p => ?_
  rw [ih (by simp), intercalate_cons_of_ne_nil (by simp)]
  simp only [append_assoc]

/-- A run of zeros is written as two colons. -/
theorem ntopLoop_zeros {l r : List ℕ} (hpos : 0 < z.zeroGroups) (hstart : z.zeroStart = l.length)
    (hlen : (l ++ (replicate z.zeroGroups 0 ++ r)).length = 8) :
    (if z.zeroStart = 0 then [0x3A] else []) ++
        ntopLoop z 0 0 (l ++ (replicate z.zeroGroups 0 ++ r)) =
      [0x3A].intercalate (l.map hexadecimal) ++
        (0x3A :: 0x3A :: [0x3A].intercalate (r.map hexadecimal)) := by
  simp only [length_append, length_replicate] at hlen
  obtain ⟨k, hk⟩ := Nat.exists_eq_succ_of_ne_zero hpos.ne'
  have hloop : ntopLoop z 0 z.zeroStart (replicate z.zeroGroups 0 ++ r) =
      0x3A :: [0x3A].intercalate (r.map hexadecimal) := by
    rw [hk, replicate_succ, cons_append, ntopLoop, if_pos rfl, hk, Nat.succ_sub_one,
      ntopLoop_skip, ntopLoop_plain (by omega) (by omega)]
  rw [ntopLoop_before (by omega) (by omega), hloop]
  cases l with
  | nil =>
    rw [if_pos (show z.zeroStart = 0 from hstart)]
    rfl
  | cons g l => ?_
  rw [if_neg (by simp [hstart]), flatMap_hexadecimal (by simp)]
  simp

/-! ### Dotted ends -/

theorem octet_decimal (c : UInt8) : Octet (decimal c.toNat) c.toNat :=
  ⟨⟨decimal_ne_nil _, fun _ => isDigit_of_mem_decimal, decimalValue_decimal _⟩,
    Nat.le_of_lt_succ c.toNat_lt⟩

theorem ipv4_dottedText {octets : Bytes} (h : octets.length = 4) :
    Ipv4 (dottedText octets) (BitVec.ofNat 32 (positional 256 (octets.map UInt8.toNat))) := by
  refine ⟨octets.map fun c => decimal c.toNat, octets.map UInt8.toNat, ?_, by simpa, rfl, rfl⟩
  rw [forall₂_map_left_iff, forall₂_map_right_iff, forall₂_same]
  exact fun c _ => octet_decimal c

/-- The number that four octets are read as. -/
theorem toNat_inetAddr (a b c d : UInt8) : (inetAddr (dottedText [a, b, c, d])).toNat =
      ((a.toNat * 256 + b.toNat) * 256 + c.toNat) * 256 + d.toNat := by
  have h := inetAddr_eq (@ipv4_dottedText [a, b, c, d] rfl)
  have ha := a.toNat_lt
  have hb := b.toNat_lt
  have hc := c.toNat_lt
  have hd := d.toNat_lt
  rw [← UInt32.toNat_toBitVec, h, BitVec.toNat_ofNat]
  simp only [positional, map_cons, map_nil, foldl_cons, foldl_nil]
  omega

/-- The IPv4 address at the end of an IPv6 address. -/
theorem inet6Loop_dotted {s : Inet6} (a b c d : UInt8) (hnibbles : s.nibbles = 0)
    (hgroup : s.group = 0) (hipv4 : s.ipv4 = some (dottedText [a, b, c, d]))
    (hzero : s.zeroStart = some 0) (hleft : 2 < s.groupsLeft) :
    (inet6Loop s (dottedText [a, b, c, d])).bind Inet6.finish =
      if inetAddr (dottedText [a, b, c, d]) = inaddrNone then none
      else some (replicate (2 * (s.groupsLeft - 2)) 0 ++ (s.addr ++ [a, b, c, d])) := by
  have hdigits : ∀ x ∈ decimal a.toNat, (hexDigit x).isSome = true := by
    have key : ∀ x : UInt8, isDigit x = true → (hexDigit x).isSome = true := by decide +kernel
    exact fun x hx => key x (isDigit_of_mem_decimal hx)
  obtain ⟨n, hn⟩ := exists_hexSize (decimal_ne_nil a.toNat) hdigits
  have hlen : (decimal a.toNat).length ≤ 4 := by
    have key : ∀ a : UInt8, (decimal a.toNat).length ≤ 4 := by decide +kernel
    exact key a
  have htext : dottedText [a, b, c, d] = decimal a.toNat ++ 0x2E :: dottedText [b, c, d] := by
    rw [dottedText, map_cons, intercalate_cons_of_ne_nil (by simp)]
    simp [dottedText]
  have hloop := inet6Loop_hextet hn hlen hnibbles hgroup (0x2E :: dottedText [b, c, d])
  rw [← htext, inet6Loop, if_neg (by decide), if_pos ⟨rfl, hn.length_pos.ne'⟩,
    if_neg (by dsimp only; omega)] at hloop
  simp only [hipv4] at hloop
  rw [hloop]
  split
  · rfl
  rw [bind_some]
  have hval := toNat_inetAddr a b c d
  have hb := b.toNat_lt
  have hc := c.toNat_lt
  have hd := d.toNat_lt
  have hhi : groupBytes ((inetAddr (dottedText [a, b, c, d])).toNat >>> 16) = [a, b] :=
    groupBytes_eq (by rw [hval, Nat.shiftRight_eq_div_pow]; have := a.toNat_lt; omega)
  have hlo : groupBytes (inetAddr (dottedText [a, b, c, d])).toNat = [c, d] :=
    groupBytes_eq (by rw [hval]; omega)
  have hadd : s.addr ++ groupBytes ((inetAddr (dottedText [a, b, c, d])).toNat >>> 16) ++
      groupBytes (inetAddr (dottedText [a, b, c, d])).toNat = [] ++ (s.addr ++ [a, b, c, d]) := by
    rw [hhi, hlo, append_assoc]
    rfl
  refine (Inet6.finish_zero hzero hadd (by dsimp only; omega)).trans ?_
  rfl

/-- An address whose last four bytes are written in decimals. -/
theorem ZeroScan.Found.dotted {addr : Bytes} (h : z.Found (groupsOf addr)) (hlen : addr.length = 16)
    (hdotted : z.dotted addr = true) : ∃ m a b c d, (m = [] ∨ m = [0xFF, 0xFF]) ∧
      addr = replicate (12 - m.length) 0 ++ (m ++ [a, b, c, d]) ∧
      (if z.zeroStart = 0 then [0x3A] else []) ++ ntopLoop z 0 0 ((groupsOf addr).take 6) =
        0x3A :: 0x3A :: if m = [] then [] else hexadecimal 65535 ++ [0x3A] := by
  obtain ⟨zeroStart, zeroGroups, _, _⟩ := z
  simp only [ZeroScan.dotted, Bool.and_eq_true, Bool.or_eq_true, beq_iff_eq] at hdotted
  obtain ⟨rfl, hgroups⟩ := hdotted
  obtain ⟨-, h8, -⟩ | ⟨l, r, -, heq, hstart, -⟩ := h
  · exact absurd (show 0 = 8 from h8) (by decide)
  obtain rfl := eq_nil_of_length_eq_zero hstart.symm
  obtain ⟨-, hbytes, -⟩ := @groupsOf_spec addr 8 hlen
  rw [heq, nil_append, flatMap_append, flatMap_zeros] at hbytes
  obtain ⟨u, hu⟩ : ∃ u, u = r.flatMap groupBytes := ⟨_, rfl⟩
  rw [← hu] at hbytes
  have hulen : 2 * zeroGroups + u.length = 16 := by
    rw [← hlen, ← hbytes, length_append, length_replicate]
  subst hbytes
  obtain (⟨⟨rfl, hx⟩, hy⟩ | rfl) | ⟨⟨rfl, -⟩, -⟩ := hgroups
  · obtain ⟨x, y, a, b, c, d, rfl⟩ : ∃ x y a b c d, u = [x, y, a, b, c, d] := by
      match u, hulen with | [x, y, a, b, c, d], _ => exact ⟨x, y, a, b, c, d, rfl⟩
    obtain rfl : x = 0xFF := some.inj hx
    obtain rfl : y = 0xFF := some.inj hy
    refine ⟨_, a, b, c, d, .inr rfl, rfl, ?_⟩
    show [0x3A] ++ (0x3A :: (hexadecimal 65535 ++ [0x3A] ++ [])) = _
    rw [append_nil]
    rfl
  · obtain ⟨a, b, c, d, rfl⟩ : ∃ a b c d, u = [a, b, c, d] := by
      match u, hulen with | [a, b, c, d], _ => exact ⟨a, b, c, d, rfl⟩
    exact ⟨[], a, b, c, d, .inl rfl, rfl, rfl⟩
  obtain ⟨c, d, rfl⟩ : ∃ c d, u = [c, d] := by
    match u, hulen with | [c, d], _ => exact ⟨c, d, rfl⟩
  exact ⟨[], 0, 0, c, d, .inl rfl, rfl, rfl⟩

/-- The addresses of IPv6 whose text is not an address for `nxt_inet6_addr`. -/
def Unreadable6 (addr : Bytes) : Prop :=
  (0 ∉ (groupsOf addr).take 7 ∧ (groupsOf addr)[7]? = some 0) ∨
    addr = List.replicate 12 0 ++ List.replicate 4 0xFF ∨
    addr = List.replicate 10 0 ++ List.replicate 6 0xFF
  deriving Decidable

theorem inet6Addr_seven {l : List ℕ} (hl : ∀ g ∈ l, g < 65536) (hlen : l.length = 7) :
    inet6Addr ([0x3A].intercalate (l.map hexadecimal) ++ [0x3A, 0x3A]) = none := by
  obtain ⟨u, hgroups, haddr⟩ := inet6Addr_compressed (hextets_hexadecimal hl) []
  rw [haddr]
  rcases hgroups.loop (Inet6.atGroup_init _) with ⟨-, hle⟩ | ⟨s, hloop, hat, -, hzero, hleft⟩
  · change 8 ≤ _ at hle
    omega
  change _ = 8 at hleft
  obtain ⟨s', hloop', -, -, hzero', hleft'⟩ := hat.loop_zero hzero
  rw [hloop, hloop', inet6Loop, bind_some, Inet6.finish, if_neg (by simp [hzero']), hzero']
  exact if_neg (by omega)

/-- What the four bytes at the end of an address are read as. -/
theorem inet6Addr_dotted {m : Bytes} (hm : m = [] ∨ m = [0xFF, 0xFF]) (a b c d : UInt8) :
    inet6Addr (0x3A :: 0x3A :: ((if m = [] then [] else hexadecimal 65535 ++ [0x3A]) ++ dottedText [a, b, c, d])) =
      if inetAddr (dottedText [a, b, c, d]) = inaddrNone then none
      else some (replicate (12 - m.length) 0 ++ (m ++ [a, b, c, d])) := by
  rw [inet6Addr_colon]
  obtain rfl | rfl := hm
  · exact @inet6Loop_dotted ⟨[], some 0, 8, 0, 0, some _⟩ a b c d rfl rfl rfl rfl
      (Nat.le_of_ble_eq_true rfl)
  have hcolons (t : Bytes) : inet6Loop {} (0x3A :: t) =
      inet6Loop ⟨[], some 0, 8, 0, 0, some t⟩ t := rfl
  obtain ⟨hsize, hlen⟩ := @hextet_hexadecimal 65535 (by decide)
  rw [if_neg (by decide), append_assoc, singleton_append, hcolons,
    inet6Loop_hextet hsize hlen rfl rfl, inet6Loop_colon hsize.length_pos.ne',
    if_pos (show 8 - 1 ≠ 0 by decide)]
  show (inet6Loop ⟨groupBytes 65535, some 0, 7, 0, 0, some _⟩ _).bind _ = _
  rw [show groupBytes 65535 = [0xFF, 0xFF] by decide]
  exact @inet6Loop_dotted ⟨[0xFF, 0xFF], some 0, 7, 0, 0, some _⟩ a b c d rfl rfl rfl rfl
    (Nat.le_of_ble_eq_true rfl)

theorem inetAddr_eq_none {a b c d : UInt8} (h : inetAddr (dottedText [a, b, c, d]) = inaddrNone) :
    [a, b, c, d] = [0xFF, 0xFF, 0xFF, 0xFF] := by
  have hval := toNat_inetAddr a b c d
  rw [h] at hval
  change 4294967295 = _ at hval
  have ha := a.toNat_lt
  have hb := b.toNat_lt
  have hc := c.toNat_lt
  have hd := d.toNat_lt
  have key (x : UInt8) (hx : x.toNat = 255) : x = 0xFF := UInt8.toNat_inj.mp hx
  rw [key a (by omega), key b (by omega), key c (by omega), key d (by omega)]

/-- **`nxt_inet6_addr` reads the text of an IPv6 address back**, but for those that
are unreadable. -/
theorem inet6Addr_ntop {addr : Bytes} (hlen : addr.length = 16) :
    (Unreadable6 addr → inet6Addr (inet6Ntop addr) = none) ∧
      (¬ Unreadable6 addr → inet6Addr (inet6Ntop addr) = some addr) := by
  obtain ⟨hcount, hbytes, hlt⟩ := @groupsOf_spec addr 8 hlen
  have hfound : (zeroScan {} 0 (groupsOf addr)).Found (groupsOf addr) :=
    zeroScan_finds (p := []) ⟨[], rfl, .inl ⟨rfl, rfl, not_mem_nil⟩, fun h => absurd rfl h⟩
  rw [inet6Ntop]
  obtain ⟨z, hz⟩ : ∃ z, z = zeroScan {} 0 (groupsOf addr) := ⟨_, rfl⟩
  rw [← hz] at hfound ⊢
  by_cases hdotted : z.dotted addr = true
  · rw [if_pos hdotted]
    obtain ⟨m, a, b, c, d, hm, rfl, htext⟩ := hfound.dotted hlen hdotted
    have hdrop : (replicate (12 - m.length) 0 ++ (m ++ [a, b, c, d])).drop 12 = [a, b, c, d] := by
      obtain rfl | rfl := hm <;> rfl
    rw [htext, hdrop, cons_append, cons_append, inet6Addr_dotted hm a b c d]
    by_cases hnone : inetAddr (dottedText [a, b, c, d]) = inaddrNone
    · refine ⟨fun _ => if_pos hnone, fun h => absurd (.inr ?_) h⟩
      rw [inetAddr_eq_none hnone]
      obtain rfl | rfl := hm
      · exact .inl rfl
      · exact .inr rfl
    refine ⟨fun h => absurd ?_ hnone, fun _ => if_neg hnone⟩
    have hall : [a, b, c, d] = replicate 4 0xFF := by
      obtain rfl | rfl := hm
      · obtain ⟨hzero, -⟩ | h | h := h
        · exact absurd (mem_cons_self ..) hzero
        · exact append_cancel_left h
        · exact absurd (@append_cancel_left _ (.replicate 10 0) _ _ h) (by simp)
      obtain ⟨hzero, -⟩ | h | h := h
      · exact absurd (mem_cons_self ..) hzero
      · exact absurd (@append_cancel_left _ (.replicate 10 0) _ _ h) (by simp)
      · exact @append_cancel_left _ (.replicate 10 0 ++ [0xFF, 0xFF]) _ _ h
    rw [hall]
    decide
  rw [if_neg hdotted]
  -- the two addresses with a dotted end are not written here
  have hplain : ¬ (addr = replicate 12 0 ++ replicate 4 0xFF ∨
      addr = replicate 10 0 ++ replicate 6 0xFF) := by
    rw [hz] at hdotted
    rintro (rfl | rfl) <;> exact hdotted (by decide)
  obtain ⟨-, h8, hzero⟩ | ⟨l, r, hpos, heq, hstart, hone⟩ := hfound
  · rw [if_neg (by omega), nil_append, ntopLoop_plain (by omega) (.inr h8),
      inet6Addr_full (hextets_hexadecimal hlt) (by simpa using hcount), hbytes]
    refine ⟨fun h => ?_, fun _ => rfl⟩
    obtain ⟨-, h⟩ | h := h
    · exact absurd (mem_of_getElem? h) hzero
    · exact absurd h hplain
  have htext := ntopLoop_zeros hpos hstart (heq ▸ hcount)
  rw [heq] at hcount hbytes hlt
  rw [← heq] at htext
  rw [htext]
  simp only [length_append, length_replicate] at hcount
  have hl : ∀ g ∈ l, g < 65536 := fun g hg => hlt g (by simp [hg])
  have hr : ∀ g ∈ r, g < 65536 := fun g hg => hlt g (by simp [hg])
  by_cases hseven : l.length = 7
  · obtain rfl : r = [] := eq_nil_of_length_eq_zero (by omega)
    have hnone : inet6Addr ([0x3A].intercalate (l.map hexadecimal) ++ [0x3A, 0x3A]) = none :=
      inet6Addr_seven hl hseven
    refine ⟨fun _ => hnone, fun h => absurd (.inl ?_) h⟩
    rw [heq, show z.zeroGroups = 1 by simp at hcount; omega]
    simp [hseven, hone rfl (by simp at hcount; omega)]
  rw [inet6Addr_short (hextets_hexadecimal hl) (hextets_hexadecimal hr)
    (by simp only [length_map]; omega) (by simp only [length_map]; omega),
    show 8 - (l.length + r.length) = z.zeroGroups by omega, append_assoc, hbytes]
  refine ⟨fun h => ?_, fun _ => rfl⟩
  obtain ⟨hzero, -⟩ | h := h
  · obtain ⟨k, hk⟩ := Nat.exists_eq_succ_of_ne_zero hpos.ne'
    refine absurd (mem_of_getElem? (i := l.length) ?_) hzero
    rw [heq, getElem?_take_of_lt (by omega), getElem?_append_right le_rfl, hk]
    simp
  · exact absurd h hplain

/-! ### Socket addresses -/

theorem portParse_decimal {port : UInt16} (h : port ≠ 0) : portParse (decimal port.toNat) = some port := by
  have hlt := port.toNat_lt
  have hpos : port.toNat ≠ 0 := fun h0 => h (UInt16.toNat_inj.mp h0)
  have hparse : intParse (decimal port.toNat) = some port.toNat :=
    (offTParse_eq_some_iff _ _).mpr ⟨decimal_ne_nil _, fun _ => isDigit_of_mem_decimal,
      decimalValue_decimal _, le_trans (Nat.le_of_lt hlt) (by decide)⟩
  rw [portParse, hparse]
  simp only [UInt16.ofNat_toNat]
  exact if_pos (by omega)

theorem inetAddr_octets (addr : UInt32) : inetAddr (dottedText (inetOctets addr)) = addr := by
  have hlt := addr.toNat_lt
  apply UInt32.toNat_inj.mp
  rw [inetOctets, toNat_inetAddr]
  simp [UInt32.toNat_shiftRight, Nat.shiftRight_eq_div_pow]
  omega

theorem notMem_hexadecimal (g : ℕ) : (0x5D : UInt8) ∉ hexadecimal g :=
  fun h => absurd ((hexSize_hexadecimal g).isSome _ h) (by decide)

theorem notMem_ntopLoop (skip i : ℕ) (groups : List ℕ) : (0x5D : UInt8) ∉ ntopLoop z skip i groups := by
  fun_induction ntopLoop z skip i groups with
  | case1 => simp
  | case2 _ _ _ _ ih => exact ih
  | case3 _ _ ih => simpa using ih
  | case4 i g groups _ ih =>
    rw [mem_append, mem_append, not_or, not_or]
    refine ⟨⟨notMem_hexadecimal g, ?_⟩, ih⟩
    split <;> simp

theorem notMem_inet6Ntop {addr : Bytes} (h : addr.length = 16) : (0x5D : UInt8) ∉ inet6Ntop addr := by
  have hdotted : (0x5D : UInt8) ∉ dottedText (addr.drop 12) :=
    (ipv4_dottedText (by rw [length_drop, h])).notMem (by decide) (by decide)
  have hstart (n : ℕ) : (0x5D : UInt8) ∉ (if n = 0 then [0x3A] else []) := by split <;> simp
  rw [inet6Ntop]
  split
  · simp only [mem_append, not_or]
    exact ⟨⟨hstart _, notMem_ntopLoop _ _ _⟩, hdotted⟩
  simp only [mem_append, not_or]
  exact ⟨hstart _, notMem_ntopLoop _ _ _⟩

/-- The addresses of IPv4 and IPv6 with a port. -/
def SockAddr.Inet : SockAddr → Prop
  | .inet _ port => port ≠ 0
  | .inet6 addr port => addr.length = 16 ∧ port ≠ 0
  | .unix _ => False

/-- The addresses whose text is refused. -/
def SockAddr.Unreadable : SockAddr → Prop
  | .inet addr _ => addr = inaddrNone
  | .inet6 addr _ => Unreadable6 addr
  | .unix _ => False

theorem sockaddrParseOptport_inet (addr : UInt32) {port : UInt16} (h : port ≠ 0) :
    sockaddrParseOptport (sockaddrText (.inet addr port)) =
      if addr = inaddrNone then none else some (.inet addr port) := by
  have hipv4 := @ipv4_dottedText (inetOctets addr) rfl
  have hcolon : (0x3A : UInt8) ∉ dottedText (inetOctets addr) :=
    hipv4.notMem (by decide) (by decide)
  have hport : (0x3A : UInt8) ∉ decimal port.toNat :=
    notMem_digits (fun _ => isDigit_of_mem_decimal) (by decide)
  have haddr := inetAddr_octets addr
  obtain ⟨t, ht⟩ : ∃ t, t = dottedText (inetOctets addr) := ⟨_, rfl⟩
  rw [sockaddrText]
  rw [← ht] at hipv4 hcolon haddr ⊢
  obtain ⟨c, u, rfl⟩ := exists_cons_of_length_pos (Nat.lt_of_lt_of_le Nat.two_pos hipv4.length_pos)
  obtain ⟨htake, hdrop⟩ := span_sep hcolon (decimal port.toNat)
  have hc {x : UInt8} (h1 : isDigit x = false) (h2 : x ≠ 0x2E) : c ≠ x := fun hx =>
    hipv4.notMem h1 h2 (hx ▸ mem_cons_self)
  have hprobe : inet6Probe (c :: u ++ 0x3A :: decimal port.toNat) = false := by
    rw [inet6Probe, count_append, count_cons_self, count_eq_zero.mpr hcolon,
      count_eq_zero.mpr hport]
    rfl
  have hunix : (str "unix:").isPrefixOf (c :: u ++ 0x3A :: decimal port.toNat) = false := by
    have hne : (0x75 == c) = false := by simpa using (hc (x := 0x75) (by decide) (by decide)).symm
    show ((0x75 == c) && _) = false
    rw [hne, Bool.false_and]
  have hstar : c :: u ≠ str "*" := fun hs => hc (x := 0x2A) (by decide) (by decide) (cons.inj hs).1
  rw [cons_append, sockaddrParseOptport, ← cons_append, hunix, if_neg (by simp), hprobe, if_neg (by simp [hc (x := 0x5B) (by decide) (by decide)]),
    sockaddrInetParse]
  simp only [htake, hdrop, haddr, hstar, if_false, portParse_decimal h]
  by_cases hnone : addr = inaddrNone
  · simp [hnone, hstar]
  · simp [hnone]

/-- **The text of a socket address is read back** as the address it stands for,
exactly if it is not 255.255.255.255, has not that address as its dotted end,
and does not have the last of its eight groups as its only zero group. -/
theorem sockaddrParse_text_iff (sa : SockAddr) (h : sa.Inet) :
    sockaddrParseOptport (sockaddrText sa) = some sa ↔ ¬ sa.Unreadable := by
  cases sa with
  | unix path => exact absurd h id
  | inet addr port =>
    rw [sockaddrParseOptport_inet addr h]
    by_cases hnone : addr = inaddrNone
    · exact iff_of_false (by simp [hnone]) (fun hread => hread hnone)
    · exact iff_of_true (if_neg hnone) hnone
  | inet6 addr port => ?_
  obtain ⟨hlen, hport⟩ := h
  obtain ⟨htake, hdrop⟩ := span_sep (notMem_inet6Ntop hlen) (0x3A :: decimal port.toNat)
  have hparse : sockaddrParseOptport (sockaddrText (.inet6 addr port)) =
      (inet6Addr (inet6Ntop addr)).map (.inet6 · port) := by
    rw [sockaddrText, cons_append, sockaddrParseOptport, if_neg (by simp [str]),
      if_pos (.inl rfl), sockaddrInet6Parse, if_pos rfl, hdrop, htake]
    simp only [portParse_decimal hport]
    exact if_neg (by simp [decimal_ne_nil])
  rw [hparse]
  by_cases hread : Unreadable6 addr
  · exact iff_of_false (by simp [(inet6Addr_ntop hlen).1 hread]) (fun h => h hread)
  · exact iff_of_true (by simp [(inet6Addr_ntop hlen).2 hread]) hread

theorem sockaddrParse_text_loopback :
    sockaddrParseOptport (sockaddrText (.inet6 (List.replicate 15 0 ++ [1]) 80)) =
      some (.inet6 (List.replicate 15 0 ++ [1]) 80) :=
  (sockaddrParse_text_iff (.inet6 (replicate 15 0 ++ [1]) 80) ⟨rfl, by decide⟩).mpr
    (by decide : ¬ Unreadable6 (replicate 15 0 ++ [1]))

/-- The text of 1:2:3:4:5:6:7:0 ends with two colons, and is refused. -/
theorem last_group_zero :
    sockaddrText (.inet6 [0, 1, 0, 2, 0, 3, 0, 4, 0, 5, 0, 6, 0, 7, 0, 0] 80) =
        str "[1:2:3:4:5:6:7::]:80" ∧
      sockaddrParseOptport (str "[1:2:3:4:5:6:7::]:80") = none := by
  decide

end FreeUnit
