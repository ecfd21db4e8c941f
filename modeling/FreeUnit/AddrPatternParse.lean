/-
Address patterns of a route, `nxt_http_route_addr.c`.

A pattern is a text such as `!10.0.0.0/8:8080-8090` or `[2001:db8::1]:443`.
`nxt_http_route_addr_pattern_parse` cuts it into an address part and a port,
reads both and leaves a pattern for `nxt_http_route_addr_pattern_match`.

* `addrPatternParse` — `nxt_http_route_addr_pattern_parse`;
* `inetText_iff`, `inet6Text_iff` — the two readers.
-/
import FreeUnit.AddressText
import FreeUnit.ConfTree
import FreeUnit.RouteRule

namespace FreeUnit.Route

open List Option

/-! ### The parser -/

/-- The errors `NXT_ADDR_PATTERN_*`, in a build with IPv6 and Unix domain sockets. -/
inductive AddrPatternError
  | port
  | cvType
  | length
  | format
  | rangeOverlap
  | cidr
  deriving Repr, DecidableEq

/-- `memchr`: the text before the first byte `sep`, and the text behind it. -/
def cut (sep : UInt8) (s : Bytes) : Option (Bytes × Bytes) :=
  if sep ∈ s then some (s.takeWhile (· != sep), (s.dropWhile (· != sep)).drop 1) else none

/-- `nxt_int_parse` with the check that follows it. -/
def boundedParse (max : ℕ) (p : Bytes) : Option ℕ := (intParse p).filter (· ≤ max)

def portRange (port : Bytes) : Except AddrPatternError (UInt16 × UInt16) :=
  match cut 0x2D port with
  | some (p, q) =>
    match boundedParse 65535 p with
    | none => .error .port
    | some start =>
      match boundedParse 65535 q with
      | none => .error .port
      | some stop =>
        if stop < start then .error .port else .ok (UInt16.ofNat start, UInt16.ofNat stop)
  | none =>
    match boundedParse 65535 port with
    | none => .error .port
    | some ret => .ok (UInt16.ofNat ret, UInt16.ofNat ret)

/-- The label `parse_port`; `none` is a port that has no start. -/
def parsePort : Option Bytes → Except AddrPatternError (UInt16 × UInt16)
  | none => .ok (0, 65535)
  | some [] => .error .format
  | some port => portRange port

def inetMask (cidrPrefix : ℕ) : UInt32 :=
  (0xFFFFFFFF &&& ((0xFFFFFFFF : UInt64) <<< UInt64.ofNat (32 - cidrPrefix))).toUInt32

/-- An address part behind the search for the port, in the two branches: `read` is
the reader of addresses, whose failure is a format error, and `block` is what
follows the check of a prefix length. -/
def hostParse {width : ℕ} (read : Bytes → Option (BitVec width))
    (block : Bytes → ℕ → Except AddrPatternError (AddrMatch × AddrRange width)) (addr : Bytes) :
    Except AddrPatternError (AddrMatch × AddrRange width) :=
  match cut 0x2D addr with
  | some (p, q) =>
    match read p with
    | none => .error .format
    | some start =>
      match read q with
      | none => .error .format
      | some stop =>
        if stop < start then .error .rangeOverlap else .ok (.range, ⟨start, stop⟩)
  | none =>
    match cut 0x2F addr with
    | some (addr, len) =>
      match boundedParse width len with
      | none => .error .cidr
      | some cidrPrefix => block addr cidrPrefix
    | none =>
      match read addr with
      | none => .error .format
      | some start => .ok (.exact, ⟨start, 0⟩)

/-- `nxt_inet_addr` with the check for `INADDR_NONE`. -/
def inetRead (addr : Bytes) : Option (BitVec 32) :=
  if inetAddr addr = inaddrNone then none else some (inetAddr addr).toBitVec

/-- An IPv4 block: the mask is applied before the result of `nxt_inet_addr` is
compared with `INADDR_NONE`. -/
def inetBlock (addr : Bytes) (cidrPrefix : ℕ) :
    Except AddrPatternError (AddrMatch × AddrRange 32) :=
  let stop := inetMask cidrPrefix
  let start := inetAddr addr &&& stop
  if start = inaddrNone then .error .format
  else if cidrPrefix = 0 then .ok (.any, ⟨start.toBitVec, stop.toBitVec⟩)
  else if cidrPrefix < 32 then .ok (.cidr, ⟨start.toBitVec, stop.toBitVec⟩)
  else
    match inetRead addr with
    | none => .error .format
    | some start => .ok (.exact, ⟨start, stop.toBitVec⟩)

def inetParse : Bytes → Except AddrPatternError (AddrMatch × AddrRange 32) :=
  hostParse inetRead inetBlock

/-- `nxt_valid_ipv6_blocks`; `colonGap` is the number of bytes since a colon. -/
def validIpv6Blocks (colonGap : ℕ) : Bytes → Bool
  | [] => true
  | c :: s =>
    if c = 0x3A then validIpv6Blocks 0 s
    else if 4 < colonGap + 1 then false
    else validIpv6Blocks (colonGap + 1) s

/-- `nxt_valid_ipv6_blocks` and `nxt_inet6_addr`, which fail with the same error. -/
def inet6Read (addr : Bytes) : Option Bytes :=
  if validIpv6Blocks 0 addr then inet6Addr addr else none

/-- The loop over the bytes of an IPv6 block: its start and its mask. -/
def inet6Cidr (cidrPrefix : ℕ) : Bytes → Bytes × Bytes
  | [] => ([], [])
  | b :: addr =>
    if 8 ≤ cidrPrefix then
      (b :: (inet6Cidr (cidrPrefix - 8) addr).1, 0xFF :: (inet6Cidr (cidrPrefix - 8) addr).2)
    else if 0 < cidrPrefix then
      let mask := (0xFF : UInt8) &&& ((0xFF : UInt8) <<< UInt8.ofNat (8 - cidrPrefix))
      ((b &&& mask) :: (inet6Cidr 0 addr).1, mask :: (inet6Cidr 0 addr).2)
    else (0 :: (inet6Cidr 0 addr).1, 0 :: (inet6Cidr 0 addr).2)

def inet6Block (addr : Bytes) (cidrPrefix : ℕ) :
    Except AddrPatternError (AddrMatch × AddrRange 128) :=
  match inet6Read addr with
  | none => .error .format
  | some start =>
    if cidrPrefix = 0 then .ok (.any, ⟨bytesAddr start, 0⟩)
    else if cidrPrefix = 128 then .ok (.exact, ⟨bytesAddr start, 0⟩)
    else
      .ok (.cidr, ⟨bytesAddr (inet6Cidr cidrPrefix start).1,
        bytesAddr (inet6Cidr cidrPrefix start).2⟩)

def inet6Parse : Bytes → Except AddrPatternError (AddrMatch × AddrRange 128) :=
  hostParse (fun addr => (inet6Read addr).map bytesAddr) inet6Block

/-- The loop of `nxt_rmemstrn`, which does not look at the first byte. -/
def rmemstrnLoop (s ss : Bytes) : ℕ → Option ℕ
  | 0 => none
  | i + 1 => if (s.drop (i + 1)).take ss.length = ss then some (i + 1) else rmemstrnLoop s ss i

/-- `nxt_rmemstrn`: the last place of `ss` in `s`. -/
def rmemstrn (s ss : Bytes) : Option ℕ :=
  if ss.length = 0 ∨ s.length < ss.length then none else rmemstrnLoop s ss (s.length - ss.length)

inductive AddrParts
  | unix
  | wildcard (port : Bytes)
  | inet (addr : Bytes) (port : Option Bytes)
  | inet6 (addr : Bytes) (port : Option Bytes)
  deriving Repr, DecidableEq

/-- The port of an IPv6 pattern is behind the last `]:`. -/
def inet6Cut (addr : Bytes) : Except AddrPatternError AddrParts :=
  match addr with
  | 0x5B :: addr =>
    match rmemstrn addr (str "]:") with
    | none => .error .format
    | some i => .ok (.inet6 (addr.take i) (some (addr.drop (i + 2))))
  | _ => .ok (.inet6 addr none)

/-- The port of an IPv4 pattern is behind the first colon. -/
def inetCut (addr : Bytes) : AddrParts :=
  match cut 0x3A addr with
  | some (addr, port) => .inet addr (some port)
  | none => .inet addr none

/-- The cuts that `nxt_http_route_addr_pattern_parse` makes before it reads
addresses. -/
def addrCut (addr : Bytes) : Except AddrPatternError AddrParts :=
  if addr = str "unix" then .ok .unix
  else if addr.length < 2 then .error .length
  else if (str "*:").isPrefixOf addr then .ok (.wildcard (addr.drop 2))
  else if inet6Probe addr then inet6Cut addr
  else .ok (inetCut addr)

/-- The parts are read, the address before the port.  Members of the pattern that
no match looks at are zero here. -/
def AddrParts.read (negative : Bool) : AddrParts → Except AddrPatternError AddrPattern
  | .unix => .ok ⟨negative, .unix, .any, (0, 0), ⟨0, 0⟩, ⟨0, 0⟩⟩
  | .wildcard port => do
    let port ← parsePort (some port)
    .ok ⟨negative, .unspec, .any, port, ⟨0, 0⟩, ⟨0, 0⟩⟩
  | .inet addr port => do
    let (matchType, range) ← inetParse addr
    let port ← parsePort port
    .ok ⟨negative, .inet, matchType, port, range, ⟨0, 0⟩⟩
  | .inet6 addr port => do
    let (matchType, range) ← inet6Parse addr
    let port ← parsePort port
    .ok ⟨negative, .inet6, matchType, port, ⟨0, 0⟩, range⟩

def stripNegative (addr : Bytes) : Bool × Bytes :=
  match addr with
  | 0x21 :: addr => (true, addr)
  | _ => (false, addr)

/-- `nxt_http_route_addr_pattern_parse` of a string. -/
def addrPatternText (addr : Bytes) : Except AddrPatternError AddrPattern := do
  let parts ← addrCut (stripNegative addr).2
  parts.read (stripNegative addr).1

def addrPatternParse : Conf → Except AddrPatternError AddrPattern
  | .string addr => addrPatternText addr
  | _ => .error .cvType

/-! ### The notation -/

/-- The addresses that have the first `n` bits in common with `a`. -/
def blockOf {width : ℕ} (a : BitVec width) (n : ℕ) : Set (BitVec width) :=
  {x | x >>> (width - n) = a >>> (width - n)}

inductive HostText {width : ℕ} (Addr : Bytes → BitVec width → Prop) :
    Bytes → Set (BitVec width) → Prop
  | single {t : Bytes} {a : BitVec width} (h : Addr t a) : HostText Addr t {a}
  | range {t u : Bytes} {a b : BitVec width} (ht : Addr t a) (hu : Addr u b) (hab : a ≤ b) :
      HostText Addr (t ++ 0x2D :: u) {x | a ≤ x ∧ x ≤ b}
  | block {t digits : Bytes} {a : BitVec width} {n : ℕ} (ht : Addr t a) (hn : Numeral digits n)
      (hle : n ≤ width) :
      HostText Addr (t ++ 0x2F :: digits) (blockOf a n)

inductive PortText : Option Bytes → Set UInt16 → Prop
  | any : PortText none Set.univ
  | single {t : Bytes} {n : ℕ} (h : Numeral t n) (hle : n ≤ 65535) :
      PortText (some t) {UInt16.ofNat n}
  | range {t u : Bytes} {n m : ℕ} (ht : Numeral t n) (hu : Numeral u m) (hnm : n ≤ m)
      (hle : m ≤ 65535) :
      PortText (some (t ++ 0x2D :: u)) {p | UInt16.ofNat n ≤ p ∧ p ≤ UInt16.ofNat m}

def AddrParts.text : AddrParts → Bytes
  | .unix => str "unix"
  | .wildcard port => str "*:" ++ port
  | .inet addr none => addr
  | .inet addr (some port) => addr ++ 0x3A :: port
  | .inet6 addr none => addr
  | .inet6 addr (some port) => 0x5B :: (addr ++ (str "]:" ++ port))

inductive AddrParts.Describes : AddrParts → Set Sockaddr → Prop
  | unix : Describes .unix {.unix}
  | wildcard {port : Bytes} {ports : Set UInt16} (hport : PortText (some port) ports) :
      Describes (.wildcard port)
        {sa | ∃ p ∈ ports, (∃ a, sa = .inet a p) ∨ ∃ a, sa = .inet6 a p}
  | inet {addr : Bytes} {port : Option Bytes} {addrs : Set (BitVec 32)} {ports : Set UInt16}
      (haddr : HostText Ipv4 addr addrs) (hport : PortText port ports) :
      Describes (.inet addr port) {sa | ∃ a ∈ addrs, ∃ p ∈ ports, sa = .inet a p}
  | inet6 {addr : Bytes} {port : Option Bytes} {addrs : Set (BitVec 128)} {ports : Set UInt16}
      (haddr : HostText Ipv6 addr addrs) (hport : PortText port ports) :
      Describes (.inet6 addr port) {sa | ∃ a ∈ addrs, ∃ p ∈ ports, sa = .inet6 a p}

/-- An address pattern and the socket addresses it describes; an exclamation mark
stands for all others. -/
inductive PatternText : Bytes → Set Sockaddr → Prop
  | plain {parts : AddrParts} {addrs : Set Sockaddr} (h : parts.Describes addrs) :
      PatternText parts.text addrs
  | negated {parts : AddrParts} {addrs : Set Sockaddr} (h : parts.Describes addrs) :
      PatternText (0x21 :: parts.text) addrsᶜ

/-! ### Cuts and numbers -/

theorem cut_of_notMem {sep : UInt8} {s : Bytes} (h : sep ∉ s) : cut sep s = none := if_neg h

theorem cut_append {sep : UInt8} {s : Bytes} (h : sep ∉ s) (t : Bytes) :
    cut sep (s ++ sep :: t) = some (s, t) := by
  obtain ⟨htake, hdrop⟩ := span_sep h t
  rw [cut, if_pos (by simp), htake, hdrop]
  rfl

theorem cut_cases (sep : UInt8) (s : Bytes) :
    (sep ∉ s ∧ cut sep s = none) ∨ ∃ t u, s = t ++ sep :: u ∧ sep ∉ t ∧ cut sep s = some (t, u) := by
  by_cases h : sep ∈ s
  · obtain ⟨t, u, rfl, ht⟩ := eq_append_cons_of_mem h
    exact .inr ⟨t, u, rfl, ht, cut_append ht u⟩
  · exact .inl ⟨h, cut_of_notMem h⟩

variable {n : ℕ} {t : Bytes}

theorem boundedParse_eq_some {max : ℕ} (hmax : max ≤ offTMax) {p : Bytes} :
    boundedParse max p = some n ↔ Numeral p n ∧ n ≤ max := by
  rw [boundedParse, filter_eq_some_iff, intParse, offTParse_eq_some_iff, Numeral]
  simp only [decide_eq_true_eq]
  constructor
  · rintro ⟨⟨hne, hdigits, hval, -⟩, hle⟩
    exact ⟨⟨hne, hdigits, hval⟩, hle⟩
  · rintro ⟨⟨hne, hdigits, hval⟩, hle⟩
    exact ⟨⟨hne, hdigits, hval, hle.trans hmax⟩, hle⟩

/-! ### Ports -/

def portsOf (r : UInt16 × UInt16) : Set UInt16 := {p | r.1 ≤ p ∧ p ≤ r.2}

theorem portsOf_self (p : UInt16) : portsOf (p, p) = {p} := by
  ext q
  exact ⟨fun h => UInt16.le_antisymm h.2 h.1, fun h => by rw [Set.mem_singleton_iff.mp h]; simp [portsOf]⟩

theorem portsOf_all : portsOf (0, 65535) = Set.univ := by
  ext q
  simp only [portsOf, Set.mem_ofPred_eq, Set.mem_univ, iff_true, UInt16.le_iff_toNat_le]
  exact ⟨Nat.zero_le _, Nat.le_of_lt_succ q.toNat_lt⟩

theorem portRange_sound {port : Bytes} {r : UInt16 × UInt16} (h : portRange port = .ok r) :
    PortText (some port) (portsOf r) := by
  rw [portRange] at h
  rcases cut_cases 0x2D port with ⟨-, hcut⟩ | ⟨t, u, rfl, -, hcut⟩
  · rw [hcut] at h
    cases hp : boundedParse 65535 port with
    | none => simp [hp] at h
    | some n => ?_
    obtain ⟨hn, hle⟩ := (boundedParse_eq_some (by decide)).mp hp
    simp only [hp, Except.ok.injEq] at h
    rw [← h, portsOf_self]
    exact .single hn hle
  rw [hcut] at h
  cases ht : boundedParse 65535 t with
  | none => simp [ht] at h
  | some n => ?_
  cases hu : boundedParse 65535 u with
  | none => simp [ht, hu] at h
  | some m => ?_
  obtain ⟨hn, -⟩ := (boundedParse_eq_some (by decide)).mp ht
  obtain ⟨hm, hle⟩ := (boundedParse_eq_some (by decide)).mp hu
  simp only [ht, hu] at h
  split at h
  · exact absurd h (by simp)
  rename_i hnm
  rw [← Except.ok.inj h]
  exact .range hn hm (not_lt.mp hnm) hle

theorem portRange_complete {port : Bytes} {ports : Set UInt16} (h : PortText (some port) ports) :
    port ≠ [] ∧ ∃ r, portRange port = .ok r ∧ portsOf r = ports := by
  cases h with
  | @single _ n h hle =>
    refine ⟨h.1, (UInt16.ofNat n, UInt16.ofNat n), ?_, portsOf_self _⟩
    have hparse := (boundedParse_eq_some (by decide)).mpr ⟨h, hle⟩
    rw [portRange, cut_of_notMem (h.notMem (by decide))]
    simp only [hparse]
  | @range t u n m ht hu hnm hle => ?_
  refine ⟨by simp, (UInt16.ofNat n, UInt16.ofNat m), ?_, rfl⟩
  have hn := (boundedParse_eq_some (by decide)).mpr ⟨ht, hnm.trans hle⟩
  have hm := (boundedParse_eq_some (by decide)).mpr ⟨hu, hle⟩
  rw [portRange, cut_append (ht.notMem (by decide))]
  simp only [hn, hm, if_neg (not_lt.mpr hnm)]

/-- **Ports.**  What `parse_port` accepts is a port or a range in order, and the
bounds it leaves enclose what the text describes. -/
theorem portText_iff (port : Option Bytes) (ports : Set UInt16) :
    PortText port ports ↔ ∃ r, parsePort port = .ok r ∧ portsOf r = ports := by
  match port with
  | none =>
    constructor
    · rintro ⟨⟩
      exact ⟨_, rfl, portsOf_all⟩
    · rintro ⟨r, h, rfl⟩
      rw [← Except.ok.inj h, portsOf_all]
      exact .any
  | some [] =>
    constructor
    · intro h
      exact absurd rfl (portRange_complete h).1
    · rintro ⟨r, h, -⟩
      cases h
  | some (c :: port) =>
    constructor
    · intro h
      exact (portRange_complete h).2
    · rintro ⟨r, h, rfl⟩
      exact portRange_sound h

/-! ### Blocks -/

/-- The addresses that the comparison of a pattern accepts. -/
def hostsOf {width : ℕ} (m : AddrMatch) (r : AddrRange width) : Set (BitVec width) :=
  {x | r.test x m = true}

/-- Two addresses agree under a mask when they agree in the bits it leaves. -/
theorem and_mask_iff {width : ℕ} (x a : BitVec width) (k : ℕ) :
    x &&& (BitVec.allOnes width <<< k) = a &&& (BitVec.allOnes width <<< k) ↔ x >>> k = a >>> k := by
  constructor
  · intro h
    apply BitVec.eq_of_getLsbD_eq
    intro i hi
    have hbit := congrArg (fun v => v.getLsbD (k + i)) h
    by_cases hki : k + i < width
    · simpa [hki] using hbit
    · simp [BitVec.getLsbD_of_ge _ _ (not_lt.mp hki)]
  · intro h
    apply BitVec.eq_of_getLsbD_eq
    intro i hi
    by_cases hk : i < k
    · simp [hk]
    have hbit := congrArg (fun v => v.getLsbD (i - k)) h
    have hsum : k + (i - k) = i := by omega
    simp only [BitVec.getLsbD_ushiftRight, hsum] at hbit
    simp [hbit]

section Block
variable {width : ℕ} (a : BitVec width)

theorem hostsOf_any (r : AddrRange width) : hostsOf .any r = blockOf a 0 := by
  ext x
  simp [hostsOf, blockOf, AddrRange.test, BitVec.ushiftRight_eq_zero]

theorem hostsOf_exact (stop : BitVec width) : hostsOf .exact ⟨a, stop⟩ = blockOf a width := by
  ext x
  simp [hostsOf, blockOf, AddrRange.test]

theorem hostsOf_cidr (n : ℕ) : hostsOf .cidr ⟨a &&& (BitVec.allOnes width <<< (width - n)),
      BitVec.allOnes width <<< (width - n)⟩ = blockOf a n := by
  ext x
  simp only [hostsOf, blockOf, AddrRange.test, decide_eq_true_eq, Set.mem_ofPred_eq]
  exact and_mask_iff x a _

end Block

theorem hostsOf_single {width : ℕ} (a stop : BitVec width) : hostsOf .exact ⟨a, stop⟩ = {a} := by
  ext x
  simp [hostsOf, AddrRange.test]

theorem hostsOf_range {width : ℕ} (a b : BitVec width) :
    hostsOf .range ⟨a, b⟩ = {x | a ≤ x ∧ x ≤ b} := by
  ext x
  simp [hostsOf, AddrRange.test]

/-! ### Hosts -/

/-- A condition on the addresses of a host text, and on its blocks. -/
def PlainHost (single : Bytes → Prop) (block : Bytes → Bytes → Prop) (addr : Bytes) : Prop :=
  match cut 0x2D addr with
  | some (t, u) => single t ∧ single u
  | none =>
    match cut 0x2F addr with
    | some (t, len) => block t len
    | none => single addr

variable {addr : Bytes}

section Host
variable {width : ℕ} {Addr : Bytes → BitVec width → Prop} {read : Bytes → Option (BitVec width)}
  {readBlock : Bytes → ℕ → Except AddrPatternError (AddrMatch × AddrRange width)}
  {single : Bytes → Prop} {block : Bytes → Bytes → Prop}

/-- **Hosts.**  Where single addresses and blocks are read as they are meant, host
texts are. -/
theorem hostText_iff (hwidth : width ≤ offTMax)
    (hsep : ∀ t a, Addr t a → (0x2D : UInt8) ∉ t ∧ (0x2F : UInt8) ∉ t)
    (hread : ∀ t, single t → ∀ a, read t = some a ↔ Addr t a)
    (hblock : ∀ t len, block t len → ∀ n, Numeral len n → n ≤ width → ∀ addrs, (∃ a, Addr t a ∧ blockOf a n = addrs) ↔ ∃ m r, readBlock t n = .ok (m, r) ∧ hostsOf m r = addrs)
    (hplain : PlainHost single block addr) (addrs : Set (BitVec width)) : HostText Addr addr addrs ↔
      ∃ m r, hostParse read readBlock addr = .ok (m, r) ∧ hostsOf m r = addrs := by
  rw [PlainHost] at hplain
  constructor
  · intro h
    cases h with
    | @single _ a ha =>
      have hdash := cut_of_notMem (hsep _ _ ha).1
      have hslash := cut_of_notMem (hsep _ _ ha).2
      simp only [hdash, hslash] at hplain
      refine ⟨.exact, ⟨a, 0⟩, ?_, hostsOf_single _ _⟩
      simp only [hostParse, hdash, hslash, (hread _ hplain a).mpr ha]
    | @range t u a b ha hb hab =>
      have hdash := cut_append (hsep _ _ ha).1 u
      simp only [hdash] at hplain
      refine ⟨.range, ⟨a, b⟩, ?_, hostsOf_range _ _⟩
      simp only [hostParse, hdash, (hread _ hplain.1 a).mpr ha, (hread _ hplain.2 b).mpr hb,
        if_neg (BitVec.not_lt.mpr hab)]
    | @block t len a n ha hn hle => ?_
    have hdash : cut 0x2D (t ++ 0x2F :: len) = none :=
      cut_of_notMem (by simp [(hsep _ _ ha).1, hn.notMem (by decide : isDigit 0x2D = false)])
    have hslash := cut_append (hsep _ _ ha).2 len
    simp only [hdash, hslash] at hplain
    simp only [hostParse, hdash, hslash, (boundedParse_eq_some hwidth).mpr ⟨hn, hle⟩]
    exact (hblock t len hplain n hn hle _).mp ⟨a, ha, rfl⟩
  · rintro ⟨m, r, h, rfl⟩
    rcases cut_cases 0x2D addr with ⟨-, hdash⟩ | ⟨t, u, rfl, -, hdash⟩
    · rcases cut_cases 0x2F addr with ⟨-, hslash⟩ | ⟨t, len, rfl, -, hslash⟩
      · simp only [hdash, hslash] at hplain
        cases ha : read addr with
        | none => simp [hostParse, hdash, hslash, ha] at h
        | some a => ?_
        simp only [hostParse, hdash, hslash, ha] at h
        cases h
        rw [hostsOf_single]
        exact .single ((hread _ hplain a).mp ha)
      simp only [hdash, hslash] at hplain
      cases hlen : boundedParse width len with
      | none => simp [hostParse, hdash, hslash, hlen] at h
      | some n => ?_
      obtain ⟨hn, hle⟩ := (boundedParse_eq_some hwidth).mp hlen
      simp only [hostParse, hdash, hslash, hlen] at h
      obtain ⟨a, ha, heq⟩ := (hblock t len hplain n hn hle _).mpr ⟨m, r, h, rfl⟩
      rw [← heq]
      exact .block ha hn hle
    simp only [hdash] at hplain
    cases ha : read t with
    | none => simp [hostParse, hdash, ha] at h
    | some a => ?_
    cases hb : read u with
    | none => simp [hostParse, hdash, ha, hb] at h
    | some b => ?_
    simp only [hostParse, hdash, ha, hb] at h
    split at h
    · cases h
    rename_i hlt
    cases h
    rw [hostsOf_range]
    exact .range ((hread _ hplain.1 a).mp ha) ((hread _ hplain.2 b).mp hb)
      (BitVec.not_lt.mp hlt)

end Host

/-! ### IPv4 -/

/-- An IPv4 address that is not the one with which `nxt_inet_addr` fails, and no
text that it reads by mistake. -/
def PlainInet (t : Bytes) : Prop := PlainOctets t ∧ ¬ Ipv4 t (BitVec.allOnes 32)

/-- The address parts that the IPv4 branch reads as they are meant: the address of
a block has to be one, since the mask hides the failure of `nxt_inet_addr`. -/
def InetPlain : Bytes → Prop :=
  PlainHost PlainInet fun t len => ∃ a, Ipv4 t a ∧ (a = BitVec.allOnes 32 → ¬ Numeral len 32)

theorem inaddrNone_iff {v : UInt32} : v = inaddrNone ↔ v.toBitVec = BitVec.allOnes 32 := by
  rw [← UInt32.toBitVec_inj]
  rfl

theorem inetRead_of_ne {a : BitVec 32} (ha : Ipv4 t a) (hne : a ≠ BitVec.allOnes 32) :
    inetRead t = some a := by
  rw [inetRead, if_neg (by rwa [inaddrNone_iff, inetAddr_eq ha]), inetAddr_eq ha]

theorem inetRead_iff (h : PlainInet t) (a : BitVec 32) : inetRead t = some a ↔ Ipv4 t a := by
  constructor
  · intro hread
    rw [inetRead] at hread
    split at hread
    · cases hread
    rename_i hne
    obtain ⟨a', ha⟩ := exists_ipv4 h.1 hne
    rw [inetAddr_eq ha] at hread
    exact some.inj hread ▸ ha
  · exact fun ha => inetRead_of_ne ha fun hones => h.2 (hones ▸ ha)

theorem inetMask_toBitVec : ∀ n < 33, (inetMask n).toBitVec = BitVec.allOnes 32 <<< (32 - n) := by
  decide

theorem inetMask_ne : ∀ n < 32, (inetMask n).toBitVec ≠ BitVec.allOnes 32 := by
  decide

theorem inetBlock_eq {a : BitVec 32} (ha : Ipv4 t a) (hle : n ≤ 32)
    (hones : a = BitVec.allOnes 32 → n ≠ 32) :
    ∃ m r, inetBlock t n = .ok (m, r) ∧ hostsOf m r = blockOf a n := by
  have hmask := inetMask_toBitVec n (by omega)
  have hstart : (inetAddr t &&& inetMask n).toBitVec = a &&& (BitVec.allOnes 32 <<< (32 - n)) := by
    rw [UInt32.toBitVec_and, inetAddr_eq ha, hmask]
  have hok : inetAddr t &&& inetMask n ≠ inaddrNone := by
    intro hnone
    rw [inaddrNone_iff, UInt32.toBitVec_and, BitVec.and_eq_allOnes_iff, inetAddr_eq ha] at hnone
    refine hones hnone.1 ?_
    by_contra hlt
    exact inetMask_ne n (by omega) hnone.2
  simp only [inetBlock, if_neg hok, hstart, hmask]
  by_cases h0 : n = 0
  · subst h0
    exact ⟨.any, _, by rw [if_pos rfl], hostsOf_any a _⟩
  by_cases h32 : n < 32
  · exact ⟨.cidr, _, by rw [if_neg h0, if_pos h32], hostsOf_cidr a n⟩
  obtain rfl : n = 32 := by omega
  rw [if_neg h0, if_neg h32, inetRead_of_ne ha fun h => hones h rfl]
  exact ⟨.exact, _, rfl, hostsOf_exact a _⟩

theorem inetText_iff (hplain : InetPlain addr) (addrs : Set (BitVec 32)) :
    HostText Ipv4 addr addrs ↔ ∃ m r, inetParse addr = .ok (m, r) ∧ hostsOf m r = addrs := by
  refine hostText_iff (by decide) (fun t a h => ⟨h.notMem (by decide) (by decide),
    h.notMem (by decide) (by decide)⟩) (fun t => inetRead_iff) ?_ hplain addrs
  rintro t len ⟨a, ha, hones⟩ n hn hle addrs
  obtain ⟨m, r, hparse, hhosts⟩ := inetBlock_eq ha hle fun h hn32 => hones h (hn32 ▸ hn)
  constructor
  · rintro ⟨a', ha', rfl⟩
    obtain rfl : a' = a := (inetAddr_eq ha').symm.trans (inetAddr_eq ha)
    exact ⟨m, r, hparse, hhosts⟩
  · rintro ⟨m', r', hparse', rfl⟩
    cases hparse.symm.trans hparse'
    exact ⟨a, ha, hhosts.symm⟩

/-! ### IPv6 -/

theorem validIpv6Blocks_append {f : Bytes} (h : (0x3A : UInt8) ∉ f) {gap : ℕ} (hgap : gap ≤ 4)
    {rest : Bytes} (hrest : rest = [] ∨ rest.head? = some 0x3A) :
    validIpv6Blocks gap (f ++ rest) = true ↔
      gap + f.length ≤ 4 ∧ validIpv6Blocks 0 rest = true := by
  induction f generalizing gap with
  | nil =>
    rcases hrest with rfl | hhead
    · simp [validIpv6Blocks, hgap]
    obtain ⟨t, rfl⟩ := head?_eq_some_iff.mp hhead
    simp [validIpv6Blocks, hgap]
  | cons c f ih => ?_
  rw [mem_cons, not_or] at h
  rw [cons_append, validIpv6Blocks, if_neg (Ne.symm h.1), length_cons]
  split
  · rename_i hlong
    simp only [Bool.false_eq_true, false_iff, not_and]
    omega
  rename_i hshort
  rw [ih h.2 (by omega), Nat.add_assoc, Nat.add_comm 1]

/-- `nxt_valid_ipv6_blocks` looks at the bytes between the colons. -/
theorem validIpv6Blocks_iff (t : Bytes) : validIpv6Blocks 0 t = true ↔ ShortBlocks t := by
  induction hlen : t.length using Nat.strong_induction_on generalizing t with
  | _ len ih =>
    by_cases hmem : (0x3A : UInt8) ∈ t
    · obtain ⟨f, u, rfl, hf⟩ := eq_append_cons_of_mem hmem
      rw [validIpv6Blocks_append hf (by omega) (.inr rfl), validIpv6Blocks, if_pos rfl,
        ih u.length (by rw [← hlen, length_append, length_cons]; omega) u rfl,
        ShortBlocks, ShortBlocks, splitOn_append_cons_self_of_not_mem hf, forall_mem_cons, Nat.zero_add]
    have hvalid := @validIpv6Blocks_append t hmem 0 (by omega) [] (.inl rfl)
    rw [append_nil] at hvalid
    rw [hvalid, ShortBlocks, splitOn_eq_singleton hmem]
    simp [validIpv6Blocks]

/-- An IPv6 text without single colons at its ends, and not seven groups with two
colons behind them. -/
def PlainInet6 (t : Bytes) : Prop := PlainColons t ∧ ¬ SevenGroups t

/-- The address parts that the IPv6 branch reads as they are meant. -/
def Inet6Plain : Bytes → Prop := PlainHost PlainInet6 fun t _ => PlainInet6 t

variable {bytes : Bytes}

theorem PlainInet6.sound (h : PlainInet6 t) (hread : inet6Read t = some bytes) :
    Ipv6 t (bytesAddr bytes) ∧ bytes.length = 16 := by
  rw [inet6Read] at hread
  split at hread
  · rename_i hvalid
    obtain ⟨a, ha⟩ := exists_ipv6 ((validIpv6Blocks_iff t).mp hvalid) h.1 hread
    obtain ⟨bytes', hbytes, hlen, haddr⟩ := inet6Addr_eq ha h.2
    obtain rfl : bytes = bytes' := some.inj (hread.symm.trans hbytes)
    exact ⟨haddr ▸ ha, hlen⟩
  · cases hread

theorem PlainInet6.complete {a : BitVec 128} (h : PlainInet6 t) (ha : Ipv6 t a) :
    ∃ bytes, inet6Read t = some bytes ∧ bytes.length = 16 ∧ bytesAddr bytes = a := by
  rw [inet6Read, if_pos ((validIpv6Blocks_iff t).mpr ha.shortBlocks)]
  exact inet6Addr_eq ha h.2

theorem inet6Cidr_fst (n : ℕ) (addr : Bytes) :
    (inet6Cidr n addr).1 = zipWith (· &&& ·) addr (inet6Cidr n addr).2 := by
  induction addr generalizing n with
  | nil => rfl
  | cons b addr ih => ?_
  rw [inet6Cidr]
  split
  · rw [zipWith_cons_cons, ← ih, show b &&& 0xFF = b from UInt8.and_neg_one]
  split
  · rw [zipWith_cons_cons, ← ih]
  · rw [zipWith_cons_cons, ← ih, UInt8.and_zero]

theorem inet6Cidr_snd (n : ℕ) (addr : Bytes) :
    (inet6Cidr n addr).2 = (inet6Cidr n (replicate addr.length 0)).2 := by
  induction addr generalizing n with
  | nil => rfl
  | cons b addr ih => ?_
  rw [length_cons, replicate_succ, inet6Cidr, inet6Cidr]
  split
  · rw [ih]
  split
  · rw [ih]
  · rw [ih]

theorem inet6Cidr_mask : ∀ n < 129,
    bytesAddr (inet6Cidr n (replicate 16 0)).2 = BitVec.allOnes 128 <<< (128 - n) := by
  decide +kernel

theorem land_mul_add (v w : ℕ) (x y : UInt8) :
    (v &&& w) * 256 + (x &&& y).toNat = (v * 256 + x.toNat) &&& (w * 256 + y.toNat) := by
  have hx : x.toNat < 2 ^ 8 := x.toNat_lt
  have hy : y.toNat < 2 ^ 8 := y.toNat_lt
  have hxy : (x &&& y).toNat < 2 ^ 8 := (x &&& y).toNat_lt
  apply Nat.eq_of_testBit_eq
  intro i
  rw [show 256 = 2 ^ 8 from rfl, Nat.mul_comm (v &&& w), Nat.mul_comm v, Nat.mul_comm w,
    Nat.testBit_and, Nat.testBit_two_pow_mul_add _ hxy, Nat.testBit_two_pow_mul_add _ hx,
    Nat.testBit_two_pow_mul_add _ hy]
  split <;> simp

theorem foldl_zipWith_land {a b : Bytes} (h : a.length = b.length) (v w : ℕ) :
    ((zipWith (· &&& ·) a b).map UInt8.toNat).foldl (fun v n => v * 256 + n) (v &&& w) =
      (a.map UInt8.toNat).foldl (fun v n => v * 256 + n) v &&&
        (b.map UInt8.toNat).foldl (fun v n => v * 256 + n) w := by
  induction a generalizing b v w with
  | nil =>
    obtain rfl : b = [] := length_eq_zero_iff.mp h.symm
    rfl
  | cons x a ih => ?_
  obtain ⟨y, b, rfl⟩ := exists_cons_of_length_eq_add_one h.symm
  simp only [zipWith_cons_cons, map_cons, foldl_cons]
  rw [land_mul_add, ih (by simpa using h)]

theorem bytesAddr_and {a b : Bytes} (h : a.length = b.length) :
    bytesAddr (zipWith (· &&& ·) a b) = bytesAddr a &&& bytesAddr b := by
  have hfold := foldl_zipWith_land h 0 0
  rw [Nat.zero_and] at hfold
  rw [bytesAddr, bytesAddr, bytesAddr, positional, hfold, BitVec.ofNat_and]
  rfl

/-- The byte-wise loop leaves the address under the mask, and the mask. -/
theorem inet6Cidr_eq (hlen : bytes.length = 16) (hn : n ≤ 128) :
    bytesAddr (inet6Cidr n bytes).1 = bytesAddr bytes &&& (BitVec.allOnes 128 <<< (128 - n)) ∧
      bytesAddr (inet6Cidr n bytes).2 = BitVec.allOnes 128 <<< (128 - n) := by
  have hmask : bytesAddr (inet6Cidr n bytes).2 = BitVec.allOnes 128 <<< (128 - n) := by
    rw [inet6Cidr_snd, hlen]
    exact inet6Cidr_mask n (by omega)
  have hsame : bytes.length = (inet6Cidr n bytes).2.length := by
    clear hmask hlen hn
    induction bytes generalizing n with
    | nil => rfl
    | cons b bytes ih => ?_
    rw [inet6Cidr]
    split
    · exact congrArg (· + 1) ih
    split
    · exact congrArg (· + 1) ih
    · exact congrArg (· + 1) ih
  rw [inet6Cidr_fst, bytesAddr_and hsame, hmask]
  exact ⟨rfl, rfl⟩

theorem inet6Block_eq (hle : n ≤ 128) (hread : inet6Read t = some bytes) (hlen : bytes.length = 16)
    : ∃ m r, inet6Block t n = .ok (m, r) ∧ hostsOf m r = blockOf (bytesAddr bytes) n := by
  obtain ⟨hstart, hmask⟩ := inet6Cidr_eq hlen hle
  simp only [inet6Block, hread, hstart, hmask]
  by_cases h0 : n = 0
  · subst h0
    exact ⟨.any, _, by rw [if_pos rfl], hostsOf_any _ _⟩
  by_cases h128 : n = 128
  · subst h128
    exact ⟨.exact, _, by rw [if_neg h0, if_pos rfl], hostsOf_exact _ _⟩
  · exact ⟨.cidr, _, by rw [if_neg h0, if_neg h128], hostsOf_cidr _ n⟩

theorem inet6Text_iff (hplain : Inet6Plain addr) (addrs : Set (BitVec 128)) :
    HostText Ipv6 addr addrs ↔ ∃ m r, inet6Parse addr = .ok (m, r) ∧ hostsOf m r = addrs := by
  refine hostText_iff (by decide) (fun t a h => ⟨h.notMem (by decide) (by decide),
    h.notMem (by decide) (by decide)⟩) (fun t ht a => ?_) ?_ hplain addrs
  · rw [map_eq_some_iff]
    constructor
    · rintro ⟨bytes, hread, rfl⟩
      exact (ht.sound hread).1
    · intro ha
      obtain ⟨bytes, hread, -, haddr⟩ := ht.complete ha
      exact ⟨bytes, hread, haddr⟩
  intro t len ht n hn hle addrs
  constructor
  · rintro ⟨a, ha, rfl⟩
    obtain ⟨bytes, hread, hlen, rfl⟩ := ht.complete ha
    exact inet6Block_eq hle hread hlen
  · rintro ⟨m, r, hparse, rfl⟩
    cases hread : inet6Read t with
    | none => simp [inet6Block, hread] at hparse
    | some bytes => ?_
    obtain ⟨ha, hlen⟩ := ht.sound hread
    obtain ⟨m', r', hparse', hhosts⟩ := inet6Block_eq hle hread hlen
    cases hparse.symm.trans hparse'
    exact ⟨_, ha, hhosts.symm⟩

end FreeUnit.Route
