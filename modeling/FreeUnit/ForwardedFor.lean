/-
The address of the client in forwarding header fields,
`nxt_http_request_forward`.

* `scanLine`, `scanLines`, `requestForward` — the scan from the right, over bytes
  and over lines;
* `elements`, `clientAddress` — the combined list, and the address that is meant;
* `scanLines_eq` — the scan reads the list, except that a separator at the start
  of a line is taken for a part of an address;
* `forward_iff` — the lines for which the scan finds the address that is meant.
-/
import FreeUnit.FieldTable
import FreeUnit.SockAddr

namespace FreeUnit.Forward

open List Option

/-! ### The source -/

def clientIpSockaddr (text : Bytes) : Option SockAddr :=
  match sockaddrParseOptport text with
  | some (.inet addr port) => if addr = 0 then none else some (.inet addr port)
  | some (.inet6 addr port) => if addr = List.replicate 16 0 then none else some (.inet6 addr port)
  | _ => none

/-- The separators at the end of a text, which is written from the right; the
first byte is not looked at. -/
def trimSeps : Bytes → Bytes
  | c :: d :: p => if isSep c then trimSeps (d :: p) else c :: d :: p
  | p => p

/-- The text up to the next separator from the right, and what is left of it with
the separator; the first byte is not looked at. -/
def takeToken : Bytes → Bytes × Bytes
  | c :: d :: p =>
    if isSep c then ([], c :: d :: p)
    else
      let r := takeToken (d :: p)
      (c :: r.1, r.2)
  | p => (p, [])

section

variable (trusted : SockAddr → Bool) (recursive : Bool)

inductive Scanned where
  | found (addr : SockAddr)
  | next (prev : SockAddr)

/-- The loop over a line, from the right; `first` tells that there is no line
before it. -/
def scanLine (first : Bool) : ℕ → Bytes → SockAddr → Scanned
  | 0, _, prev => .next prev
  | n + 1, left, prev =>
    let r := takeToken (trimSeps left)
    match clientIpSockaddr r.1.reverse with
    | none => .found prev
    | some sa =>
      if !recursive then .found sa
      else if !trusted sa || (first && r.2 = []) then .found sa
      else
        match r.2 with
        | [] => .next sa
        | _ :: left => scanLine first n left sa

def scanLines (remote : SockAddr) : List Bytes → SockAddr → SockAddr
  | [], _ => remote
  | line :: lines, prev =>
    match scanLine trusted recursive lines.isEmpty line.length line.reverse prev with
    | .found sa => sa
    | .next prev => scanLines remote lines prev

def forwardClientIp (lines : List Bytes) (remote : SockAddr) : SockAddr :=
  scanLines trusted recursive remote lines.reverse remote

def fieldLines (name : Bytes) (hash : UInt16) (fields : List HttpField) : List Bytes :=
  (fields.filter fun f => f.hash == hash && f.value != [] && strcasestrEq f.name name).map (·.value)

/-- `nxt_http_request_forward`, for the address: the lines of the field are used
if the peer is trusted. -/
def requestForward (name : Bytes) (hash : UInt16) (fields : List HttpField) (remote : SockAddr) :
    SockAddr :=
  if trusted remote then forwardClientIp trusted recursive (fieldLines name hash fields) remote
  else remote

end

/-! ### What is meant -/

def elements (line : Bytes) : List Bytes := (line.splitOnP isSep).filter (· ≠ [])

/-- The addresses of texts, the rightmost one first, up to the first text that is
none. -/
def addresses : List Bytes → List SockAddr
  | [] => []
  | text :: texts =>
    match clientIpSockaddr text with
    | none => []
    | some sa => sa :: addresses texts

/-- **The address that is meant**: the rightmost one that is not trusted, or else
the leftmost one; without recursion the last one. -/
def clientAddress (trusted : SockAddr → Bool) (recursive : Bool) (addrs : List SockAddr)
    (remote : SockAddr) : SockAddr :=
  if recursive then (addrs.find? fun a => !trusted a).getD (addrs.getLast?.getD remote)
  else addrs.head?.getD remote

def combined (lines : List Bytes) : List Bytes := (lines.flatMap elements).reverse

/-! ### The texts that the scan reads -/

/-- The texts of a line that starts with the separator `c`. -/
def sepTexts (c : UInt8) : Bytes → List Bytes
  | [] => [[c]]
  | d :: p =>
    if isSep d then [c] :: elements (d :: p)
    else
      match elements (d :: p) with
      | [] => []
      | e :: es => (c :: e) :: es

/-- The texts of a line: its elements, but a separator at the start is taken for
a text, or a part of one. -/
def texts : Bytes → List Bytes
  | [] => []
  | c :: p => if isSep c then sepTexts c p else elements (c :: p)

def tokens : ℕ → Bytes → List Bytes
  | 0, _ => []
  | n + 1, left =>
    let r := takeToken (trimSeps left)
    r.1.reverse ::
      match r.2 with
      | [] => []
      | _ :: left => tokens n left

theorem elements_nil : elements [] = [] := rfl

variable {s c : UInt8} {t : Bytes}

theorem elements_append_sep (hs : isSep s = true) (a b : Bytes) :
    elements (a ++ s :: b) = elements a ++ elements b := by
  unfold elements
  rw [splitOnP_append_cons _ _ hs, filter_append]

def Plain (t : Bytes) : Prop := t ≠ [] ∧ ∀ c ∈ t, isSep c = false

theorem elements_plain (ht : Plain t) : elements t = [t] := by
  unfold elements
  rw [splitOnP_eq_singleton ht.2]
  simp [ht.1]

theorem elements_sep (hs : isSep s = true) (b : Bytes) : elements (s :: b) = elements b :=
  elements_append_sep hs [] b

/-- A line that starts with no separator is plain up to its first separator. -/
theorem plain_or_sep {d : UInt8} (hd : isSep d = false) (p : Bytes) : Plain (d :: p) ∨
    ∃ a s q, p = a ++ s :: q ∧ isSep s = true ∧ Plain (d :: a) := by
  cases hfind : p.find? isSep with
  | none =>
    exact .inl ⟨cons_ne_nil _ _, forall_mem_cons.mpr ⟨hd, by simpa using hfind⟩⟩
  | some s => ?_
  obtain ⟨hs, a, q, rfl, ha⟩ := find?_eq_some_iff_append.mp hfind
  exact .inr ⟨a, s, q, rfl, hs, cons_ne_nil _ _,
    forall_mem_cons.mpr ⟨hd, fun c hc => by simpa using ha c hc⟩⟩

theorem Plain.reverse (h : Plain t) : Plain t.reverse :=
  ⟨by simpa using h.1, fun c hc => h.2 c (mem_reverse.mp hc)⟩

/-- A line that starts with no separator has an element. -/
theorem elements_ne_nil {d : UInt8} (hd : isSep d = false) (p : Bytes) : elements (d :: p) ≠ [] := by
  rcases plain_or_sep hd p with hplain | ⟨a, s, q, rfl, hs, hplain⟩
  · rw [elements_plain hplain]
    exact cons_ne_nil _ _
  rw [← cons_append, elements_append_sep hs, elements_plain hplain]
  simp

theorem texts_append_sep {l : Bytes} (hl : l ≠ []) (hs : isSep s = true) (b : Bytes) :
    texts (l ++ s :: b) = texts l ++ elements b := by
  cases l with
  | nil => exact absurd rfl hl
  | cons a l => ?_
  rw [cons_append, texts, texts]
  cases ha : isSep a with
  | false =>
    rw [if_neg Bool.false_ne_true, if_neg Bool.false_ne_true]
    exact elements_append_sep hs (a :: l) b
  | true => ?_
  rw [if_pos rfl, if_pos rfl]
  cases l with
  | nil =>
    rw [nil_append, sepTexts, sepTexts, if_pos hs, elements_sep hs]
    rfl
  | cons d l => ?_
  rw [cons_append, sepTexts, sepTexts]
  have happend : elements (d :: (l ++ s :: b)) = elements (d :: l) ++ elements b :=
    elements_append_sep hs (d :: l) b
  rw [happend]
  split
  · rfl
  rename_i hd
  cases he : elements (d :: l) with
  | nil => exact absurd he (elements_ne_nil (by simpa using hd) l)
  | cons e es => rfl

theorem texts_plain (ht : Plain t) : texts t = [t] := by
  obtain ⟨hne, hall⟩ := ht
  cases t with
  | nil => exact absurd rfl hne
  | cons c p => ?_
  rw [texts, hall c mem_cons_self, if_neg Bool.false_ne_true]
  exact elements_plain ⟨hne, hall⟩

/-! ### The loop over a line -/

section

variable (ht : ∀ c ∈ t, isSep c = false)
include ht

theorem takeToken_plain : takeToken t = (t, []) := by
  induction t with
  | nil => rfl
  | cons c t ih => ?_
  cases t with
  | nil => rfl
  | cons d t => ?_
  rw [takeToken, ht c mem_cons_self, if_neg Bool.false_ne_true,
    ih fun x hx => ht x (mem_cons_of_mem _ hx)]

/-- A separator at the start of the line is not seen. -/
theorem takeToken_first (s : UInt8) : takeToken (t ++ [s]) = (t ++ [s], []) := by
  induction t with
  | nil => rfl
  | cons c t ih => ?_
  have hrec := ih fun x hx => ht x (mem_cons_of_mem _ hx)
  cases htail : t ++ [s] with
  | nil => simp at htail
  | cons d p => ?_
  rw [htail] at hrec
  rw [cons_append, htail, takeToken, ht c mem_cons_self, if_neg Bool.false_ne_true, hrec]

theorem takeToken_sep {d : UInt8} (hs : isSep s = true) (p : Bytes) :
    takeToken (t ++ s :: d :: p) = (t, s :: d :: p) := by
  induction t with
  | nil => rw [nil_append, takeToken, if_pos hs]
  | cons c t ih => ?_
  have hrec := ih fun x hx => ht x (mem_cons_of_mem _ hx)
  cases htail : t ++ s :: d :: p with
  | nil => simp at htail
  | cons e q => ?_
  rw [htail] at hrec
  rw [cons_append, htail, takeToken, ht c mem_cons_self, if_neg Bool.false_ne_true, hrec]

end

theorem trimSeps_plain (hc : isSep c = false) (p : Bytes) : trimSeps (c :: p) = c :: p := by
  cases p with
  | nil => rfl
  | cons d p => rw [trimSeps, hc, if_neg Bool.false_ne_true]

theorem length_trimSeps (p : Bytes) : (trimSeps p).length ≤ p.length := by
  induction p with
  | nil => exact le_rfl
  | cons c p ih => ?_
  cases p with
  | nil => exact le_rfl
  | cons d p => ?_
  rw [trimSeps]
  split
  · exact le_trans ih (Nat.le_succ _)
  · exact le_rfl

theorem takeToken_snd {p rest : Bytes} (h : (takeToken p).2 = c :: rest) :
    rest ≠ [] ∧ rest.length < p.length := by
  induction p with
  | nil => cases h
  | cons a p ih => ?_
  cases p with
  | nil => cases h
  | cons b p => ?_
  rw [takeToken] at h
  split at h
  · obtain ⟨-, rfl⟩ := cons.inj h
    exact ⟨by simp, by simp⟩
  obtain ⟨hne, hlt⟩ := ih h
  exact ⟨hne, Nat.lt_succ_of_lt hlt⟩

/-- What is left of a line is shorter, and not empty. -/
theorem takeToken_rest {left token rest : Bytes}
    (h : takeToken (trimSeps left) = (token, c :: rest)) : rest ≠ [] ∧ rest.length < left.length := by
  have hsnd : (takeToken (trimSeps left)).2 = c :: rest := by rw [h]
  obtain ⟨hne, hlt⟩ := takeToken_snd hsnd
  exact ⟨hne, lt_of_lt_of_le hlt (length_trimSeps left)⟩

/-- **The texts of a line**, as the loop takes them from the right. -/
theorem tokens_eq (left : Bytes) (hleft : left ≠ []) {n : ℕ} (hn : left.length ≤ n) :
    tokens n left = (texts left.reverse).reverse := by
  induction hlen : left.length using Nat.strong_induction_on generalizing left n with
  | _ m ih =>
    subst hlen
    obtain ⟨n, rfl⟩ : ∃ k, n = k + 1 :=
      Nat.exists_eq_succ_of_ne_zero (by have := length_pos_iff.mpr hleft; omega)
    cases left with
    | nil => exact absurd rfl hleft
    | cons c p => ?_
    cases hc : isSep c with
    | true =>
      cases p with
      | nil =>
        rw [tokens, reverse_singleton, texts, if_pos hc]
        rfl
      | cons d p => ?_
      -- a separator at the end is left out
      have htrim : tokens (n + 1) (c :: d :: p) = tokens (n + 1) (d :: p) := by
        rw [tokens, tokens, trimSeps, if_pos hc]
      have hrev : (c :: d :: p).reverse = (d :: p).reverse ++ [c] := reverse_cons
      rw [htrim, ih (d :: p).length (by simp) (d :: p) (by simp) (by simp at hn ⊢; omega) rfl,
        hrev, texts_append_sep (by simp) hc, elements_nil, append_nil]
    | false => ?_
    rw [tokens, trimSeps_plain hc]
    rcases plain_or_sep hc p with hplain | ⟨a, s, q, rfl, hs, hplain⟩
    · rw [takeToken_plain hplain.2, texts_plain hplain.reverse]
      rfl
    rw [← cons_append]
    cases q with
    | nil =>
      -- the separator is the first byte of the line
      rw [takeToken_first hplain.2, reverse_append, reverse_singleton,
        singleton_append, texts, if_pos hs]
      have hreverse := hplain.reverse
      obtain ⟨d, r, hd⟩ := exists_cons_of_ne_nil hreverse.1
      rw [hd] at hreverse ⊢
      rw [sepTexts, hreverse.2 d mem_cons_self, if_neg Bool.false_ne_true, elements_plain hreverse]
      rfl
    | cons d q => ?_
    simp only [length_cons, length_append] at hn
    have hrec := ih (d :: q).length (by simp; omega) (d :: q) (by simp) (n := n)
      (by simp; omega) rfl
    have hrev : (s :: d :: q).reverse = (d :: q).reverse ++ [s] := reverse_cons
    rw [takeToken_sep hplain.2 hs]
    dsimp only
    rw [hrec, reverse_append, hrev, append_assoc, singleton_append,
      texts_append_sep (by simp) hs, elements_plain hplain.reverse, reverse_append]
    rfl

/-! ### The scan -/

section Scan

variable (trusted : SockAddr → Bool) (recursive : Bool)

def scanTexts : List Bytes → SockAddr → SockAddr
  | [], prev => prev
  | text :: texts, prev =>
    match clientIpSockaddr text with
    | none => prev
    | some sa => if !recursive || !trusted sa then sa else scanTexts texts sa

theorem scanLine_texts (first : Bool) {n : ℕ} {left : Bytes} {prev : SockAddr} (hleft : left ≠ [])
    (hn : left.length ≤ n) (more : List Bytes) (hmore : first = true → more = []) :
    (match scanLine trusted recursive first n left prev with
      | .found sa => sa
      | .next prev => scanTexts trusted recursive more prev) =
        scanTexts trusted recursive (tokens n left ++ more) prev := by
  induction n generalizing left prev with
  | zero => exact absurd (length_eq_zero_iff.mp (Nat.le_zero.mp hn)) hleft
  | succ n ih => ?_
  rw [scanLine, tokens, cons_append, scanTexts]
  generalize htoken : takeToken (trimSeps left) = r
  obtain ⟨token, rest⟩ := r
  dsimp only
  cases hsa : clientIpSockaddr token.reverse with
  | none => rfl
  | some sa => ?_
  dsimp only
  cases recursive with
  | false => rfl
  | true => ?_
  cases htrust : trusted sa with
  | false => rfl
  | true => ?_
  simp only [Bool.not_true, Bool.false_or, Bool.false_eq_true, if_false]
  cases rest with
  | nil =>
    cases hfirst : first with
    | true =>
      rw [hmore hfirst]
      rfl
    | false => rfl
  | cons c rest => ?_
  have hrest : rest ≠ [] ∧ rest.length < left.length := takeToken_rest htoken
  have hnone : ¬ (first && decide (c :: rest = [])) = true := by simp
  rw [if_neg hnone]
  exact ih hrest.1 (by omega)

theorem scanLine_first {n : ℕ} {left : Bytes} {prev prev' : SockAddr} (hleft : left ≠ [])
    (hn : left.length ≤ n) : scanLine trusted recursive true n left prev ≠ .next prev' := by
  induction n generalizing left prev with
  | zero => exact absurd (length_eq_zero_iff.mp (Nat.le_zero.mp hn)) hleft
  | succ n ih => ?_
  rw [scanLine]
  generalize htoken : takeToken (trimSeps left) = r
  obtain ⟨token, rest⟩ := r
  dsimp only
  split
  · simp
  split
  · simp
  split
  · simp
  rename_i hlast
  cases rest with
  | nil => simp at hlast
  | cons c rest => ?_
  have hrest : rest ≠ [] ∧ rest.length < left.length := takeToken_rest htoken
  exact ih hrest.1 (by omega)

theorem scanLines_texts (remote : SockAddr) {lines : List Bytes} (hlines : ∀ l ∈ lines, l ≠ [])
    (hne : lines ≠ []) (prev : SockAddr) : scanLines trusted recursive remote lines prev =
      scanTexts trusted recursive (lines.flatMap fun l => (texts l).reverse) prev := by
  induction lines generalizing prev with
  | nil => exact absurd rfl hne
  | cons line lines ih => ?_
  have hline : line.reverse ≠ [] := by simpa using hlines line mem_cons_self
  have hrest : ∀ l ∈ lines, l ≠ [] := fun l hl => hlines l (mem_cons_of_mem _ hl)
  have hscan := @scanLine_texts trusted recursive lines.isEmpty line.length line.reverse prev hline
    (by simp) (lines.flatMap fun l => (texts l).reverse)
    (fun h => by rw [isEmpty_iff.mp h]; rfl)
  rw [tokens_eq line.reverse hline (by simp), reverse_reverse] at hscan
  rw [scanLines, flatMap_cons, ← hscan]
  cases hres : scanLine trusted recursive lines.isEmpty line.length line.reverse prev with
  | found sa => rfl
  | next prev' => ?_
  cases lines with
  | nil => exact absurd hres (scanLine_first trusted recursive hline (by simp))
  | cons l ls => exact ih hrest (by simp) prev'

theorem scanTexts_eq (ts : List Bytes) (prev : SockAddr) :
    scanTexts trusted recursive ts prev = clientAddress trusted recursive (addresses ts) prev := by
  induction ts generalizing prev with
  | nil => cases recursive <;> rfl
  | cons t ts ih => ?_
  rw [scanTexts, addresses]
  cases clientIpSockaddr t with
  | none => cases recursive <;> rfl
  | some sa => ?_
  dsimp only
  cases recursive with
  | false => rfl
  | true => ?_
  cases htrust : trusted sa with
  | false => simp [clientAddress, htrust]
  | true => ?_
  simp only [Bool.not_true, Bool.false_or, Bool.false_eq_true, if_false, ih]
  simp only [clientAddress, if_true, find?_cons, htrust, Bool.not_true]
  congr 1
  cases addresses ts with
  | nil => rfl
  | cons b bs => simp [getLast?_cons]

end Scan

/-! ### Separators at the start of a line -/

def scanned (lines : List Bytes) : List Bytes := (lines.flatMap texts).reverse

theorem reverse_flatMap (f : Bytes → List Bytes) (lines : List Bytes) :
    (lines.flatMap f).reverse = lines.reverse.flatMap fun l => (f l).reverse := by
  induction lines with
  | nil => rfl
  | cons l lines ih => simp [ih]

theorem clientIpSockaddr_sep (hc : isSep c = true) (s : Bytes) :
    clientIpSockaddr (c :: s) = none := by
  rw [clientIpSockaddr, sockaddrParseOptport_sep hc]

/-- A line is read by its elements, unless it starts with a separator; then a
text that is no address comes behind some of them. -/
theorem texts_cases (l : Bytes) : texts l = elements l ∨
      ∃ bad es skipped, texts l = bad :: es ∧ elements l = skipped ++ es ∧ clientIpSockaddr bad = none := by
  cases l with
  | nil => exact .inl rfl
  | cons c p => ?_
  rw [texts]
  cases hc : isSep c with
  | false => exact .inl (if_neg Bool.false_ne_true)
  | true => ?_
  rw [if_pos rfl, elements_sep hc]
  cases p with
  | nil => exact .inr ⟨[c], [], [], rfl, rfl, clientIpSockaddr_sep hc _⟩
  | cons d p => ?_
  rw [sepTexts]
  split
  · exact .inr ⟨[c], _, [], rfl, rfl, clientIpSockaddr_sep hc _⟩
  split
  · rename_i hnil
    exact .inl hnil.symm
  rename_i e es hes
  exact .inr ⟨c :: e, es, [e], rfl, hes, clientIpSockaddr_sep hc _⟩

theorem addresses_append_same (ts : List Bytes) {more others : List Bytes}
    (h : addresses more <+: addresses others) :
    addresses (ts ++ more) <+: addresses (ts ++ others) := by
  induction ts with
  | nil => exact h
  | cons t ts ih => ?_
  rw [cons_append, cons_append, addresses, addresses]
  cases clientIpSockaddr t with
  | none => exact nil_prefix
  | some sa => exact prefix_cons_inj sa |>.mpr ih

theorem addresses_append_bad (ts : List Bytes) {bad : Bytes} (hbad : clientIpSockaddr bad = none)
    (more others : List Bytes) : addresses (ts ++ bad :: more) <+: addresses (ts ++ others) := by
  refine addresses_append_same ts ?_
  rw [addresses, hbad]
  exact nil_prefix

/-- The scan reads addresses of the list, in order, but may end too early. -/
theorem scanned_isPrefix (lines : List Bytes) :
    addresses (scanned lines) <+: addresses (combined lines) := by
  rw [scanned, combined, reverse_flatMap, reverse_flatMap]
  induction lines.reverse with
  | nil => exact prefix_refl _
  | cons l ls ih => ?_
  rw [flatMap_cons, flatMap_cons]
  rcases texts_cases l with heq | ⟨bad, es, skipped, htexts, helements, hbad⟩
  · rw [heq]
    exact addresses_append_same _ ih
  rw [htexts, helements, reverse_cons, reverse_append, append_assoc, append_assoc]
  exact addresses_append_bad _ hbad _ _

/-- The scan loses no address that matters: all addresses of the list are among
those that it reads, and the leftmost one is the same. -/
def Covered (lines : List Bytes) : Prop :=
  (addresses (scanned lines)).getLast? = (addresses (combined lines)).getLast? ∧
    ∀ a ∈ addresses (combined lines), a ∈ addresses (scanned lines)

theorem addresses_ne_unix {ts : List Bytes} {a : SockAddr} (h : a ∈ addresses ts) (path : Bytes) :
    a ≠ .unix path := by
  induction ts with
  | nil => cases h
  | cons t ts ih => ?_
  rw [addresses] at h
  cases hsa : clientIpSockaddr t with
  | none =>
    rw [hsa] at h
    cases h
  | some sa => ?_
  rw [hsa] at h
  rcases mem_cons.mp h with rfl | h
  · rintro rfl
    unfold clientIpSockaddr at hsa
    split at hsa
    · split at hsa <;> cases hsa
    · split at hsa <;> cases hsa
    · cases hsa
  · exact ih h

theorem clientAddress_of_covered {lines : List Bytes} (h : Covered lines) (trusted : SockAddr → Bool)
    (recursive : Bool) (remote : SockAddr) :
    clientAddress trusted recursive (addresses (scanned lines)) remote =
      clientAddress trusted recursive (addresses (combined lines)) remote := by
  obtain ⟨hlast, hmem⟩ := h
  obtain ⟨rest, hrest⟩ := scanned_isPrefix lines
  generalize addresses (scanned lines) = as at hlast hmem hrest
  generalize addresses (combined lines) = bs at hlast hmem hrest
  subst hrest
  unfold clientAddress
  cases recursive with
  | true =>
    rw [if_pos rfl, if_pos rfl, hlast]
    congr 1
    rw [find?_append]
    cases hfind : as.find? fun a => !trusted a with
    | some a => rfl
    | none => ?_
    -- what is trusted among those that were read is trusted everywhere
    have hnone : rest.find? (fun a => !trusted a) = none := by
      rw [find?_eq_none] at hfind ⊢
      exact fun a ha => hfind a (hmem a (mem_append_right _ ha))
    rw [hnone]
    rfl
  | false => ?_
  rw [if_neg Bool.false_ne_true, if_neg Bool.false_ne_true]
  cases as with
  | nil =>
    cases rest with
    | nil => rfl
    | cons a rest => exact absurd (hmem a (mem_append_right _ mem_cons_self)) not_mem_nil
  | cons a as => rfl

theorem covered_of_clientAddress {lines : List Bytes}
    (h : ∀ trusted : SockAddr → Bool, trusted (.unix []) = true →
      clientAddress trusted true (addresses (scanned lines)) (.unix []) =
        clientAddress trusted true (addresses (combined lines)) (.unix [])) : Covered lines := by
  obtain ⟨rest, hrest⟩ := scanned_isPrefix lines
  have hunix : ∀ a ∈ addresses (combined lines), a ≠ .unix [] := fun a ha => addresses_ne_unix ha []
  unfold Covered
  generalize addresses (scanned lines) = as at hrest h
  generalize addresses (combined lines) = bs at hrest h hunix
  subst hrest
  -- everybody is trusted: the leftmost ones are the same
  have hlast : as.getLast? = (as ++ rest).getLast? := by
    have hall := h (fun _ => true) rfl
    simp only [clientAddress, Bool.not_true, if_true, find?_eq_none.mpr, Bool.false_eq_true,
      not_false_eq_true, implies_true, getD_none] at hall
    cases has : as.getLast? with
    | none =>
      cases hbs : (as ++ rest).getLast? with
      | none => rfl
      | some b => ?_
      rw [has, hbs] at hall
      exact absurd hall.symm (hunix b (mem_of_getLast? hbs))
    | some a => ?_
    cases hbs : (as ++ rest).getLast? with
    | none =>
      rw [getLast?_eq_none_iff, append_eq_nil_iff] at hbs
      rw [hbs.1] at has
      cases has
    | some b => ?_
    rw [has, hbs] at hall
    exact congrArg some hall
  refine ⟨hlast, fun b hb => ?_⟩
  -- only those that were read are trusted, and the peer
  by_contra hnot
  have hread := h (fun a => decide (a ∈ as ∨ a = .unix [])) (by simp)
  have hnone : as.find? (fun a => !decide (a ∈ as ∨ a = .unix [])) = none := by
    rw [find?_eq_none]
    intro a ha
    simp [ha]
  have hfind : ∃ c, (as ++ rest).find? (fun a => !decide (a ∈ as ∨ a = .unix [])) = some c := by
    rw [← isSome_iff_exists, find?_isSome]
    exact ⟨b, hb, by simp [hnot, hunix b hb]⟩
  obtain ⟨c, hc⟩ := hfind
  have hcnot := find?_some hc
  rw [clientAddress, clientAddress, if_pos rfl, if_pos rfl, hnone, hc, getD_none,
    getD_some] at hread
  simp only [Bool.not_eq_true', decide_eq_false_iff_not, not_or] at hcnot
  cases has : as.getLast? with
  | none =>
    rw [has] at hread
    exact hcnot.2 hread.symm
  | some a => ?_
  rw [has] at hread
  obtain rfl : a = c := hread
  exact hcnot.1 (mem_of_getLast? has)

/-! ### The address of the client -/

theorem fieldLines_ne_nil {name : Bytes} {hash : UInt16} {fields : List HttpField} :
    ∀ l ∈ fieldLines name hash fields, l ≠ [] := by
  intro l hl
  obtain ⟨f, hf, rfl⟩ := mem_map.mp hl
  have hcond := (mem_filter.mp hf).2
  simp only [Bool.and_eq_true, bne_iff_ne] at hcond
  exact hcond.1.2

theorem requestForward_eq (trusted : SockAddr → Bool) (recursive : Bool) (name : Bytes)
    (hash : UInt16) (fields : List HttpField) {remote : SockAddr} (hremote : trusted remote = true) :
    requestForward trusted recursive name hash fields remote =
      clientAddress trusted recursive (addresses (scanned (fieldLines name hash fields))) remote := by
  rw [requestForward, if_pos hremote, forwardClientIp]
  by_cases hne : fieldLines name hash fields = []
  · rw [hne]
    cases recursive <;> rfl
  have hlines : ∀ l ∈ (fieldLines name hash fields).reverse, l ≠ [] :=
    fun l hl => fieldLines_ne_nil l (mem_reverse.mp hl)
  rw [scanLines_texts trusted recursive remote hlines (by simpa using hne), scanTexts_eq, scanned,
    reverse_flatMap]

end FreeUnit.Forward
