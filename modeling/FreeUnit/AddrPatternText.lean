/-
Address patterns of a route, as whole texts.

The parts of a pattern are found by a few searches for separators.  On a text of
the notation these find the parts it was made of, and on any other text they
lose no byte, so that what the parts mean is what the text means.

* `addrCut_text`, `AddrParts.Describes.addrCut` — the searches;
* `addrPatternParse_iff` — the patterns that are accepted are the texts of the
  notation, and they match what the texts describe.
-/
import FreeUnit.AddrPatternParse

namespace FreeUnit.Route

open List

/-! ### The cuts -/

variable {s addr : Bytes} {parts : AddrParts} {c : UInt8}

variable {ss : Bytes} {i : ℕ}

theorem rmemstrnLoop_sound {k : ℕ} (h : rmemstrnLoop s ss k = some i) :
    (s.drop i).take ss.length = ss := by
  induction k with
  | zero => cases h
  | succ k ih => ?_
  rw [rmemstrnLoop] at h
  split at h
  · cases h
    assumption
  · exact ih h

theorem rmemstrnLoop_complete {k : ℕ} (hi : 0 < i) (hle : i ≤ k)
    (hat : (s.drop i).take ss.length = ss)
    (hlast : ∀ j, i < j → j ≤ k → (s.drop j).take ss.length ≠ ss) :
    rmemstrnLoop s ss k = some i := by
  induction k with
  | zero => omega
  | succ k ih => ?_
  rw [rmemstrnLoop]
  by_cases heq : i = k + 1
  · rw [if_pos (heq ▸ hat), heq]
  rw [if_neg (hlast (k + 1) (by omega) le_rfl)]
  exact ih (by omega) fun j hij hjk => hlast j hij (by omega)

theorem rmemstrn_sound (h : rmemstrn s ss = some i) :
    s = s.take i ++ (ss ++ s.drop (i + ss.length)) := by
  rw [rmemstrn] at h
  split at h
  · cases h
  have hat := rmemstrnLoop_sound h
  calc s = s.take i ++ s.drop i := (take_append_drop i s).symm
    _ = s.take i ++ ((s.drop i).take ss.length ++ (s.drop i).drop ss.length) := by
      rw [take_append_drop ss.length]
    _ = s.take i ++ (ss ++ s.drop (i + ss.length)) := by rw [hat, drop_drop]

variable {t : Bytes}

/-- The last `]:` is the one with no bracket behind it. -/
theorem rmemstrn_complete (hne : s ≠ []) (ht : (0x5D : UInt8) ∉ t) :
    rmemstrn (s ++ (str "]:" ++ t)) (str "]:") = some s.length := by
  have hstr : str "]:" = [0x5D, 0x3A] := by decide
  have hlen : (s ++ ([0x5D, 0x3A] ++ t)).length = s.length + t.length + 2 := by
    simp only [length_append, length_cons, length_nil]
    omega
  rw [rmemstrn, hstr, hlen, if_neg (by simp only [length_cons, length_nil]; omega)]
  refine rmemstrnLoop_complete (length_pos_iff.mpr hne) ?_ (by simp) ?_
  · simp only [length_cons, length_nil]
    omega
  intro j hj _ hat
  -- the bracket would be in `:` or behind it
  have hmem : (0x5D : UInt8) ∈ (s ++ ([0x5D, 0x3A] ++ t)).drop j := by
    refine mem_of_mem_take (?_ : _ ∈ take [(0x5D : UInt8), 0x3A].length _)
    rw [hat]
    simp
  have hdrop : (s ++ ([0x5D, 0x3A] ++ t)).drop j = ([0x3A] ++ t).drop (j - (s.length + 1)) := by
    rw [show s ++ ([(0x5D : UInt8), 0x3A] ++ t) = (s ++ [0x5D]) ++ ([0x3A] ++ t) by simp,
      drop_append, drop_eq_nil_of_le (by simpa using hj)]
    simp
  rw [hdrop] at hmem
  have := mem_of_mem_drop hmem
  simp [ht] at this

theorem addrCut_text (h : addrCut addr = .ok parts) : parts.text = addr := by
  rw [addrCut] at h
  split at h
  · rename_i hunix
    cases h
    exact hunix.symm
  split at h
  · cases h
  split at h
  · rename_i hstar
    cases h
    obtain ⟨t, rfl⟩ := isPrefixOf_iff_prefix.mp hstar
    rfl
  split at h
  · unfold inet6Cut at h
    split at h
    · rename_i addr
      split at h
      · cases h
      rename_i i hi
      cases h
      exact congrArg (0x5B :: ·) (rmemstrn_sound hi).symm
    cases h
    rfl
  cases h
  rw [inetCut]
  rcases cut_cases 0x3A addr with ⟨-, hcut⟩ | ⟨t, u, rfl, -, hcut⟩
  · rw [hcut]
    rfl
  rw [hcut]
  rfl

theorem addrCut_eq (hlen : 2 ≤ addr.length) (hu : (0x75 : UInt8) ∉ addr)
    (hstar : (0x2A : UInt8) ∉ addr) :
    addrCut addr = if inet6Probe addr then inet6Cut addr else .ok (inetCut addr) := by
  have hunix : addr ≠ str "unix" := fun h => hu (by rw [h]; decide)
  have hwild : ¬ (str "*:").isPrefixOf addr = true := by
    intro h
    obtain ⟨t, rfl⟩ := isPrefixOf_iff_prefix.mp h
    exact hstar (mem_append_left _ (by decide))
  rw [addrCut, if_neg hunix, if_neg (by omega), if_neg hwild]

theorem HostText.exists_start {width : ℕ} {Addr : Bytes → BitVec width → Prop}
    {addrs : Set (BitVec width)} (h : HostText Addr t addrs) :
    ∃ u a rest, Addr u a ∧ t = u ++ rest := by
  cases h with
  | single h => exact ⟨_, _, [], h, by simp⟩
  | range ht _ _ => exact ⟨_, _, _, ht, rfl⟩
  | block ht _ _ => exact ⟨_, _, _, ht, rfl⟩

theorem HostText.notMem {width : ℕ} {Addr : Bytes → BitVec width → Prop}
    {addrs : Set (BitVec width)} (h : HostText Addr t addrs) (haddr : ∀ u a, Addr u a → c ∉ u)
    (hdigit : isDigit c = false) (hdash : c ≠ 0x2D) (hslash : c ≠ 0x2F) : c ∉ t := by
  cases h with
  | single h => exact haddr _ _ h
  | range ht hu _ => simp [haddr _ _ ht, haddr _ _ hu, hdash]
  | block ht hn _ => simp [haddr _ _ ht, hn.notMem hdigit, hslash]

variable {ports : Set UInt16}

theorem PortText.notMem {port : Bytes} (h : PortText (some port) ports) (hdigit : isDigit c = false)
    (hdash : c ≠ 0x2D) : c ∉ port := by
  cases h with
  | single h _ => exact h.notMem hdigit
  | range ht hu _ _ => simp [ht.notMem hdigit, hu.notMem hdigit, hdash]

variable {port : Option Bytes}

/-- A byte that is in no address and no port, and is no separator, is in no text of
address parts but for the two words. -/
theorem inet_notMem {addrs : Set (BitVec 32)} (haddr : HostText Ipv4 addr addrs)
    (hport : PortText port ports) (hc : isDigit c = false)
    (hsep : c ∉ ([0x2D, 0x2E, 0x2F, 0x3A] : Bytes)) : c ∉ (AddrParts.inet addr port).text := by
  simp only [mem_cons, not_mem_nil, or_false, not_or] at hsep
  obtain ⟨hdash, hdot, hslash, hcolon⟩ := hsep
  have hmem := haddr.notMem (fun u a h => h.notMem hc hdot) hc hdash hslash
  cases port with
  | none => exact hmem
  | some port => simp [AddrParts.text, hmem, hcolon, hport.notMem hc hdash]

theorem inet6_notMem {addrs : Set (BitVec 128)} (haddr : HostText Ipv6 addr addrs)
    (hport : PortText port ports) (hc : isDigit c = false) (hhex : hexDigit c = none)
    (hsep : c ∉ ([0x2D, 0x2F, 0x3A, 0x5B, 0x5D] : Bytes)) :
    c ∉ (AddrParts.inet6 addr port).text := by
  simp only [mem_cons, not_mem_nil, or_false, not_or] at hsep
  obtain ⟨hdash, hslash, hcolon, hopen, hclose⟩ := hsep
  have hmem := haddr.notMem (fun u a h => h.notMem hhex hcolon) hc hdash hslash
  cases port with
  | none => exact hmem
  | some port => ?_
  have hstr : str "]:" = [0x5D, 0x3A] := by decide
  simp [AddrParts.text, hstr, hmem, hcolon, hopen, hclose, hport.notMem hc hdash]

theorem inetCut_text (h : (0x3A : UInt8) ∉ addr) :
    inetCut (AddrParts.inet addr port).text = .inet addr port := by
  cases port with
  | none => simp only [AddrParts.text, inetCut, cut_of_notMem h]
  | some port => simp only [AddrParts.text, inetCut, cut_append h]

variable {addrs : Set Sockaddr}

/-- **The cuts find the parts** that describe something. -/
theorem AddrParts.Describes.addrCut (h : parts.Describes addrs) :
    addrCut parts.text = .ok parts := by
  cases h with
  | unix => rfl
  | @wildcard port ports hport =>
    have hstr : str "*:" = [0x2A, 0x3A] := by decide
    have hunix : str "unix" = [0x75, 0x6E, 0x69, 0x78] := by decide
    simp [AddrParts.text, Route.addrCut, hstr, hunix]
  | @inet addr port _ _ haddr hport =>
    have hcolon : (0x3A : UInt8) ∉ addr :=
      haddr.notMem (fun u a h => h.notMem (by decide) (by decide)) (by decide) (by decide) (by decide)
    have hlen : 2 ≤ (AddrParts.inet addr port).text.length := by
      obtain ⟨u, a, rest, hu, rfl⟩ := haddr.exists_start
      have hpos := hu.length_pos
      cases port with
      | none | some => exact hpos.trans (by simp [AddrParts.text])
    have hprobe : inet6Probe (AddrParts.inet addr port).text = false := by
      have hzero := count_eq_zero_of_not_mem hcolon
      cases port with
      | none => simp [AddrParts.text, inet6Probe, hzero]
      | some port => ?_
      have hport0 := count_eq_zero_of_not_mem (hport.notMem (by decide : isDigit 0x3A = false)
        (by decide))
      simp [AddrParts.text, inet6Probe, hzero, hport0]
    rw [addrCut_eq hlen (inet_notMem haddr hport (by decide) (by decide))
      (inet_notMem haddr hport (by decide) (by decide)), hprobe, inetCut_text hcolon]
    rfl
  | @inet6 addr port _ _ haddr hport => ?_
  obtain ⟨u, a, rest, hu, rfl⟩ := haddr.exists_start
  have hcolons := hu.two_colons
  have hprobe : 2 ≤ (AddrParts.inet6 (u ++ rest) port).text.count 0x3A := by
    cases port with
    | none =>
      simp only [AddrParts.text, count_append]
      omega
    | some port => ?_
    simp only [AddrParts.text, count_cons, count_append]
    omega
  rw [addrCut_eq (hprobe.trans count_le_length)
    (inet6_notMem haddr hport (by decide) (by decide) (by decide))
    (inet6_notMem haddr hport (by decide) (by decide) (by decide)),
    if_pos (by simpa [inet6Probe] using hprobe)]
  have hne : u ++ rest ≠ [] := by
    intro hnil
    rw [(append_eq_nil_iff.mp hnil).1] at hcolons
    exact absurd hcolons (by decide)
  have hopen : (0x5B : UInt8) ∉ u ++ rest :=
    haddr.notMem (fun u a h => h.notMem (by decide) (by decide)) (by decide) (by decide) (by decide)
  cases port with
  | none =>
    rw [AddrParts.text, inet6Cut]
    intro addr heq
    exact hopen (by rw [heq]; simp)
  | some port => ?_
  have hclose := hport.notMem (by decide : isDigit 0x5D = false) (by decide)
  simp only [AddrParts.text, inet6Cut, rmemstrn_complete hne hclose]
  have hstr : (str "]:").length = 2 := by decide
  rw [take_left, ← drop_drop, drop_left, ← hstr, drop_left]

/-! ### The pattern -/

def AddrParts.Plain : AddrParts → Prop
  | .inet addr _ => InetPlain addr
  | .inet6 addr _ => Inet6Plain addr
  | _ => True

def hitSet (p : AddrPattern) : Set Sockaddr := {sa | p.hits sa = true}

variable (negative : Bool)

theorem hitSet_unix : hitSet ⟨negative, .unix, .any, (0, 0), ⟨0, 0⟩, ⟨0, 0⟩⟩ = {.unix} := by
  ext sa
  cases sa <;> simp [hitSet, AddrPattern.hits]

theorem hitSet_wildcard (port : UInt16 × UInt16) :
    hitSet ⟨negative, .unspec, .any, port, ⟨0, 0⟩, ⟨0, 0⟩⟩ =
      {sa | ∃ p ∈ portsOf port, (∃ a, sa = .inet a p) ∨ ∃ a, sa = .inet6 a p} := by
  ext sa
  cases sa <;> simp [hitSet, AddrPattern.hits, AddrRange.test, portsOf]

theorem hitSet_inet (m : AddrMatch) (port : UInt16 × UInt16) (r : AddrRange 32) :
    hitSet ⟨negative, .inet, m, port, r, ⟨0, 0⟩⟩ =
      {sa | ∃ a ∈ hostsOf m r, ∃ p ∈ portsOf port, sa = .inet a p} := by
  ext sa
  cases sa <;> simp [hitSet, AddrPattern.hits, hostsOf, portsOf, and_comm]

theorem hitSet_inet6 (m : AddrMatch) (port : UInt16 × UInt16) (r : AddrRange 128) :
    hitSet ⟨negative, .inet6, m, port, ⟨0, 0⟩, r⟩ =
      {sa | ∃ a ∈ hostsOf m r, ∃ p ∈ portsOf port, sa = .inet6 a p} := by
  ext sa
  cases sa <;> simp [hitSet, AddrPattern.hits, hostsOf, portsOf, and_comm]

theorem AddrParts.read_sound (hplain : parts.Plain) {negative : Bool}
    {p : AddrPattern} (h : parts.read negative = .ok p) :
    p.negative = negative ∧ parts.Describes (hitSet p) := by
  cases parts with
  | unix =>
    cases h
    exact ⟨rfl, hitSet_unix negative ▸ .unix⟩
  | wildcard port =>
    obtain ⟨ports, hport, h⟩ := bind_eq_ok h
    cases h
    refine ⟨rfl, ?_⟩
    rw [hitSet_wildcard]
    exact .wildcard ((portText_iff _ _).mpr ⟨ports, hport, rfl⟩)
  | inet addr port =>
    obtain ⟨mr, haddr, h⟩ := bind_eq_ok h
    obtain ⟨ports, hport, h⟩ := bind_eq_ok h
    cases h
    refine ⟨rfl, ?_⟩
    rw [hitSet_inet]
    exact .inet ((inetText_iff hplain _).mpr ⟨_, _, haddr, rfl⟩)
      ((portText_iff _ _).mpr ⟨ports, hport, rfl⟩)
  | inet6 addr port => ?_
  obtain ⟨mr, haddr, h⟩ := bind_eq_ok h
  obtain ⟨ports, hport, h⟩ := bind_eq_ok h
  cases h
  refine ⟨rfl, ?_⟩
  rw [hitSet_inet6]
  exact .inet6 ((inet6Text_iff hplain _).mpr ⟨_, _, haddr, rfl⟩)
    ((portText_iff _ _).mpr ⟨ports, hport, rfl⟩)

theorem AddrParts.read_complete (hplain : parts.Plain) (negative : Bool) (h : parts.Describes addrs)
    : ∃ p, parts.read negative = .ok p ∧ p.negative = negative ∧ hitSet p = addrs := by
  cases h with
  | unix => exact ⟨_, rfl, rfl, hitSet_unix negative⟩
  | wildcard hport =>
    obtain ⟨ports, hparse, rfl⟩ := (portText_iff _ _).mp hport
    refine ⟨_, ?_, rfl, hitSet_wildcard negative ports⟩
    simp only [AddrParts.read, hparse, bind, Except.bind]
  | inet haddr hport =>
    obtain ⟨m, r, hparse, rfl⟩ := (inetText_iff hplain _).mp haddr
    obtain ⟨ports, hports, rfl⟩ := (portText_iff _ _).mp hport
    refine ⟨_, ?_, rfl, hitSet_inet negative m ports r⟩
    simp only [AddrParts.read, hparse, hports, bind, Except.bind]
  | inet6 haddr hport => ?_
  obtain ⟨m, r, hparse, rfl⟩ := (inet6Text_iff hplain _).mp haddr
  obtain ⟨ports, hports, rfl⟩ := (portText_iff _ _).mp hport
  refine ⟨_, ?_, rfl, hitSet_inet6 negative m ports r⟩
  simp only [AddrParts.read, hparse, hports, bind, Except.bind]

def PlainText (text : Bytes) : Prop :=
  ∀ parts, addrCut (stripNegative text).2 = .ok parts → parts.Plain

theorem stripNegative_text (h : parts.Describes addrs) :
    stripNegative parts.text = (false, parts.text) := by
  have hmem : (0x21 : UInt8) ∉ parts.text := by
    cases h with
    | unix => decide
    | wildcard hport =>
      rw [AddrParts.text, mem_append, not_or]
      exact ⟨by decide, hport.notMem (by decide) (by decide)⟩
    | inet haddr hport => exact inet_notMem haddr hport (by decide) (by decide)
    | inet6 haddr hport => exact inet6_notMem haddr hport (by decide) (by decide) (by decide)
  rw [stripNegative]
  intro addr heq
  exact hmem (by rw [heq]; simp)

theorem addrPatternText_eq_ok {text : Bytes} {p : AddrPattern} : addrPatternText text = .ok p ↔
      ∃ parts, addrCut (stripNegative text).2 = .ok parts ∧
        parts.read (stripNegative text).1 = .ok p := by
  rw [addrPatternText]
  cases hcut : addrCut (stripNegative text).2 with
  | error | ok => simp [bind, Except.bind]

/-- The socket addresses that a pattern matches, from those before the negation. -/
theorem match_iff (p : AddrPattern) (sa : Sockaddr) :
    p.match sa = true ↔ (if p.negative then sa ∉ hitSet p else sa ∈ hitSet p) := by
  unfold AddrPattern.match
  cases hneg : p.negative <;> cases hhits : p.hits sa <;> simp [hitSet, hhits]

/-- **Address patterns.**  A text that is read as it is meant is accepted as a
pattern that matches `addrs` if and only if it describes them. -/
theorem patternText_iff {text : Bytes} (hplain : PlainText text) (addrs : Set Sockaddr) :
    PatternText text addrs ↔
      ∃ p, addrPatternText text = .ok p ∧ {sa | p.match sa = true} = addrs := by
  constructor
  · intro h
    cases h with
    | @plain parts _ h =>
      have hstrip := stripNegative_text h
      have hcut : addrCut (stripNegative parts.text).2 = .ok parts := by
        rw [hstrip]
        exact h.addrCut
      obtain ⟨p, hread, hneg, rfl⟩ := AddrParts.read_complete (hplain parts hcut) false h
      refine ⟨p, addrPatternText_eq_ok.mpr ⟨parts, hcut, by rw [hstrip]; exact hread⟩, ?_⟩
      ext sa
      simp [match_iff, hneg]
    | @negated parts addrs h => ?_
    have hcut : addrCut (stripNegative (0x21 :: parts.text)).2 = .ok parts := h.addrCut
    obtain ⟨p, hread, hneg, rfl⟩ := AddrParts.read_complete (hplain parts hcut) true h
    refine ⟨p, addrPatternText_eq_ok.mpr ⟨parts, hcut, hread⟩, ?_⟩
    ext sa
    simp [match_iff, hneg]
  · rintro ⟨p, hparse, rfl⟩
    obtain ⟨parts, hcut, hread⟩ := addrPatternText_eq_ok.mp hparse
    obtain ⟨hneg, hdesc⟩ := AddrParts.read_sound (hplain parts hcut) hread
    have htext := addrCut_text hcut
    by_cases hmark : ∃ addr, text = 0x21 :: addr
    · obtain ⟨addr, rfl⟩ := hmark
      change parts.text = addr at htext
      change p.negative = true at hneg
      have hset : {sa | p.match sa = true} = (hitSet p)ᶜ := by
        ext sa
        simp [match_iff, hneg]
      rw [hset, ← htext]
      exact .negated hdesc
    have hstrip : stripNegative text = (false, text) := by
      rw [stripNegative]
      intro addr heq
      exact hmark ⟨addr, heq⟩
    rw [hstrip] at hneg htext
    change parts.text = text at htext
    have hset : {sa | p.match sa = true} = hitSet p := by
      ext sa
      simp [match_iff, hneg]
    rw [hset, ← htext]
    exact .plain hdesc

theorem ipv4_ten : Ipv4 (str "10.0.0.0") 0x0A000000 := by
  refine ⟨[str "10", str "0", str "0", str "0"], [10, 0, 0, 0], ?_, rfl, by decide, by decide⟩
  have hten : Octet (str "10") 10 := by unfold Octet Numeral; decide +kernel
  have hzero : Octet (str "0") 0 := by unfold Octet Numeral; decide +kernel
  exact .cons hten (.cons hzero (.cons hzero (.cons hzero .nil)))

theorem plainText_ten : PlainText (str "!10.0.0.0/8:80") := by
  intro parts h
  obtain rfl : AddrParts.inet (str "10.0.0.0/8") (some (str "80")) = parts := by
    refine Except.ok.inj (Eq.trans ?_ h)
    decide
  have hdash : cut 0x2D (str "10.0.0.0/8") = none := by decide
  have hslash : cut 0x2F (str "10.0.0.0/8") = some (str "10.0.0.0", str "8") := by decide
  rw [AddrParts.Plain, InetPlain, PlainHost]
  simp only [hdash, hslash]
  exact ⟨_, ipv4_ten, fun h => absurd h (by decide)⟩

end FreeUnit.Route
