/-
Socket addresses as texts, `nxt_sockaddr.c`.

* `inetAddr`, `inet6Addr` — `nxt_inet_addr` and `nxt_inet6_addr`;
* `sockaddrParseOptport` — `nxt_sockaddr_parse_optport`, an address with an
  optional port;
* `sockaddrParseOptport_sep` — no address starts with a comma or a blank.
-/
import FreeUnit.Bytes

namespace FreeUnit

/-- `nxt_sockaddr_t`, by the family; the numbers are in the order of the host, an
IPv6 address is its 16 bytes. -/
inductive SockAddr where
  | inet (addr : UInt32) (port : UInt16)
  | inet6 (addr : Bytes) (port : UInt16)
  | unix (path : Bytes)
  deriving DecidableEq, Repr

/-- `INADDR_NONE` -/
def inaddrNone : UInt32 := 0xFFFFFFFF

/-- The loop of `nxt_inet_addr`. -/
def inetLoop (addr : UInt32) (octet : UInt64) (dots : ℕ) : Bytes → UInt32
  | [] => if dots = 3 ∧ octet < 256 then (addr <<< 8) + octet.toUInt32 else inaddrNone
  | c :: buf =>
    if isDigit c then inetLoop addr (octet * 10 + (c - 0x30).toUInt64) dots buf
    else if c = 0x2E ∧ octet < 256 then inetLoop ((addr <<< 8) + octet.toUInt32) 0 (dots + 1) buf
    else inaddrNone

/-- `nxt_inet_addr`; a failure is `INADDR_NONE`. -/
def inetAddr (buf : Bytes) : UInt32 :=
  if buf.getLast? = some 0x2E then inaddrNone else inetLoop 0 0 0 buf

/-- The loop of `nxt_inet6_addr`: the bytes so far, where the zero groups start,
the digits of the group and its value, and where an IPv4 address may start. -/
structure Inet6 where
  addr : Bytes := []
  zeroStart : Option ℕ := none
  groupsLeft : ℕ := 8
  nibbles : ℕ := 0
  group : ℕ := 0
  ipv4 : Option Bytes := none

def groupBytes (group : ℕ) : Bytes := [UInt8.ofNat (group >>> 8), UInt8.ofNat group]

def inet6Loop (s : Inet6) : Bytes → Option Inet6
  | [] => some s
  | c :: buf =>
    -- ':'
    if c = 0x3A then
      if s.nibbles ≠ 0 then
        if s.groupsLeft - 1 ≠ 0 then
          inet6Loop { s with
            ipv4 := some buf
            addr := s.addr ++ groupBytes s.group
            groupsLeft := s.groupsLeft - 1
            nibbles := 0
            group := 0 } buf
        else none
      else if s.zeroStart = none then
        inet6Loop { s with ipv4 := some buf, zeroStart := some s.addr.length } buf
      else none
    -- '.'
    else if c = 0x2E ∧ s.nibbles ≠ 0 then
      if s.groupsLeft < 2 then none
      else
        match s.ipv4 with
        | none => none
        | some text =>
          let group := inetAddr text
          if group = inaddrNone then none
          else some { s with
            addr := s.addr ++ groupBytes (group.toNat >>> 16)
            groupsLeft := s.groupsLeft - 1
            group := group.toNat }
    else if 4 < s.nibbles + 1 then none
    else
      match hexDigit c with
      | none => none
      | some d =>
        inet6Loop { s with nibbles := s.nibbles + 1, group := s.group <<< 4 + d.toNat } buf

def inet6Addr (buf : Bytes) : Option Bytes :=
  match buf with
  | [] => none
  | c :: rest =>
    match inet6Loop {} (if c = 0x3A then rest else buf) with
    | none => none
    | some s =>
      if s.nibbles = 0 ∧ s.zeroStart = none then none
      else
        let addr := s.addr ++ groupBytes s.group
        let left := s.groupsLeft - 1
        match s.zeroStart with
        | some start =>
          if left ≠ 0 then some (addr.take start ++ List.replicate (2 * left) 0 ++ addr.drop start)
          else none
        | none => if left = 0 then some addr else none

/-- `nxt_inet6_probe`: two colons. -/
def inet6Probe (s : Bytes) : Bool := 2 ≤ s.count 0x3A

def portParse (p : Bytes) : Option UInt16 :=
  match intParse p with
  | some port => if 1 ≤ port ∧ port ≤ 65535 then some (UInt16.ofNat port) else none
  | none => none

def sockaddrInetParse (addr : Bytes) : Option SockAddr :=
  let host := addr.takeWhile (· != 0x3A)
  if host = [] then none
  else
    let inaddr := if host = str "*" then 0 else inetAddr host
    if host ≠ str "*" ∧ inaddr = inaddrNone then none
    else
      match addr.dropWhile (· != 0x3A) with
      | [] => some (.inet inaddr 0)
      | _ :: p => (portParse p).map (.inet inaddr)

def sockaddrInet6Parse (addr : Bytes) : Option SockAddr :=
  match addr with
  | [] => none
  | c :: start =>
    if c = 0x5B then
      match start.dropWhile (· != 0x5D) with
      | [] => none
      | _ :: p =>
        match p with
        | d :: port =>
          if port = [] ∨ d ≠ 0x3A then none
          else
            match portParse port with
            | none => none
            | some port => (inet6Addr (start.takeWhile (· != 0x5D))).map (.inet6 · port)
        | [] => none
    else (inet6Addr addr).map (.inet6 · 0)

/-- `max_len` of `nxt_sockaddr_unix_parse` -/
def unixMaxLen : ℕ := 107

def sockaddrUnixParse (addr : Bytes) : Option SockAddr :=
  let path := addr.drop 5
  if unixMaxLen < path.length then none
  else if path.head? = some 0x40 then some (.unix (0 :: path.drop 1))
  else if (0 : UInt8) ∈ path then none
  else some (.unix path)

def sockaddrParseOptport (addr : Bytes) : Option SockAddr :=
  match addr with
  | [] => none
  | c :: _ =>
    if 6 < addr.length ∧ (str "unix:").isPrefixOf addr then sockaddrUnixParse addr
    else if c = 0x5B ∨ inet6Probe addr then sockaddrInet6Parse addr
    else sockaddrInetParse addr

example : sockaddrParseOptport (str "10.0.0.1:80") = some (.inet 0x0A000001 80) := by decide
example : inet6Addr (str "2001:db8::1") =
    some [0x20, 1, 0x0D, 0xB8, 0, 0, 0, 0, 0, 0, 0, 0, 0, 0, 0, 1] := by decide

/-! ### Separators -/

def isSep (c : UInt8) : Bool := c == 0x20 || c == 0x2C

theorem sep_cases {c : UInt8} (h : isSep c = true) : c = 0x20 ∨ c = 0x2C := by
  simpa [isSep] using h

theorem inetAddr_sep {c : UInt8} (hc : isSep c = true) (s : Bytes) :
    inetAddr (c :: s) = inaddrNone := by
  unfold inetAddr
  split
  · rfl
  · rcases sep_cases hc with rfl | rfl <;> rfl

theorem inet6Addr_sep {c : UInt8} (hc : isSep c = true) (s : Bytes) : inet6Addr (c :: s) = none := by
  rcases sep_cases hc with rfl | rfl <;> rfl

theorem sockaddrParseOptport_sep {c : UInt8} (hc : isSep c = true) (s : Bytes) :
    sockaddrParseOptport (c :: s) = none := by
  have hunix : (str "unix:").isPrefixOf (c :: s) = false := by
    rcases sep_cases hc with rfl | rfl <;> rfl
  have hbracket : c ≠ 0x5B := by
    rintro rfl
    exact absurd hc (by decide)
  have hcolon : (c != 0x3A) = true := by
    rcases sep_cases hc with rfl | rfl <;> rfl
  have hstar : ∀ l, c :: l ≠ str "*" := by
    rintro l h
    obtain rfl : c = 0x2A := (List.cons.inj h).1
    exact absurd hc (by decide)
  unfold sockaddrParseOptport
  dsimp only
  rw [if_neg (by simp [hunix])]
  split
  · rw [sockaddrInet6Parse, if_neg hbracket, inet6Addr_sep hc]
    rfl
  have htake : (c :: s).takeWhile (· != 0x3A) = c :: s.takeWhile (· != 0x3A) :=
    List.takeWhile_cons_of_pos hcolon
  rw [sockaddrInetParse]
  dsimp only
  rw [htake, if_neg (List.cons_ne_nil _ _), if_neg (hstar _),
    inetAddr_sep hc, if_pos ⟨hstar _, rfl⟩]

end FreeUnit
