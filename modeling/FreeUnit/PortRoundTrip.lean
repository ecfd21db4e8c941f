/-
Fragmented port messages, from the sender's chain to the receiver's handler.

Several messages are on their way to one port.  At any moment one of them
offers its next fragment to the socket, which takes it or asks to try again;
the receiver reads the datagrams in the order the socket took them.

* `transmit_handled_once` — the handler runs once, with the whole payload and
  the descriptors;
* `transmit_evicted` — it does not when the receiver gives the stream up.
-/
import FreeUnit.PortStream
import FreeUnit.PortWrite
import Mathlib.Logic.Relation

namespace FreeUnit.Port

open List Function Option

/-! ### Schedules -/

/-- A message of plain buffers that nothing was sent of yet. -/
structure SendMsg.Fresh (msg : SendMsg) : Prop where
  first : msg.portMsg.nf = false
  plain : ∀ b ∈ msg.buf, ∀ pos data, b ≠ .mem pos data true

/-- An attempt to send the next fragment of message `i`, and whether the socket
takes it.  After `EAGAIN` the message waits as it is. -/
structure Attempt (ι : Type) where
  i : ι
  taken : Bool

variable {ι : Type} [DecidableEq ι]

def remaining (conf : SendConf) (σ : ι → Option SendMsg) : List (Attempt ι) → ι → Option SendMsg
  | [] => σ
  | a :: as =>
    if a.taken then remaining conf (Function.update σ a.i ((σ a.i).bind (·.sent conf))) as
    else remaining conf σ as

/-- The datagrams that the socket takes during a schedule. -/
def transmit (conf : SendConf) (σ : ι → Option SendMsg) : List (Attempt ι) → List Datagram
  | [] => []
  | a :: as =>
    if a.taken then
      ((σ a.i).map (·.fragment conf)).toList ++
        transmit conf (Function.update σ a.i ((σ a.i).bind (·.sent conf))) as
    else transmit conf σ as

/-- The first `n` datagrams of one message. -/
def solo (conf : SendConf) : ℕ → Option SendMsg → List Datagram
  | 0, _ => []
  | n + 1, o => (o.map (·.fragment conf)).toList ++ solo conf n (o.bind (·.sent conf))

/-- What is left of one message after `n` datagrams. -/
def soloRest (conf : SendConf) : ℕ → Option SendMsg → Option SendMsg
  | 0, o => o
  | n + 1, o => soloRest conf n (o.bind (·.sent conf))

/-- How often the socket takes a fragment of message `i`. -/
def takenOf (i : ι) (as : List (Attempt ι)) : ℕ :=
  as.countP fun a => decide (a.i = i) && a.taken

variable {conf : SendConf} {σ : ι → Option SendMsg} {i : ι}

@[simp] theorem SendMsg.fragment_key (msg : SendMsg) :
    (msg.fragment conf).portMsg.key = msg.portMsg.key := rfl

@[simp] theorem SendMsg.fragment_fd (msg : SendMsg) : (msg.fragment conf).fd = msg.fd := rfl

@[simp] theorem SendMsg.fragment_nf (msg : SendMsg) :
    (msg.fragment conf).portMsg.nf = msg.portMsg.nf := rfl

@[simp] theorem SendMsg.fragment_mf (msg : SendMsg) :
    (msg.fragment conf).portMsg.mf = (msg.coalesce conf).more := rfl

theorem takenOf_cons (a : Attempt ι) (as : List (Attempt ι)) :
    takenOf i (a :: as) = takenOf i as + if a.i = i ∧ a.taken = true then 1 else 0 := by
  simp [takenOf, countP_cons]

/-- What is left of a message depends on its own attempts only. -/
theorem remaining_eq (as : List (Attempt ι)) :
    remaining conf σ as i = soloRest conf (takenOf i as) (σ i) := by
  induction as generalizing σ with
  | nil => rfl
  | cons a as ih => ?_
  rw [remaining, takenOf_cons]
  cases ht : a.taken with
  | false => simpa using ih
  | true => ?_
  by_cases hi : a.i = i
  · subst hi
    simp [ih, soloRest]
  have hi' : i ≠ a.i := fun h => hi h.symm
  simp [ih, hi, hi']

def Keyed (key : ι → UInt32 × UInt32) (σ : ι → Option SendMsg) : Prop :=
  ∀ i msg, σ i = some msg → msg.portMsg.key = key i

variable {key : ι → UInt32 × UInt32}

theorem Keyed.sent (h : Keyed key σ) (c : SendConf) (j : ι) :
    Keyed key (update σ j ((σ j).bind (·.sent c))) := by
  intro i msg hm
  by_cases hi : i = j
  · subst hi
    rw [update_self] at hm
    obtain ⟨m, hm, hs⟩ := bind_eq_some_iff.mp hm
    rw [(SendMsg.sent_eq_some hs).1]
    exact h i m hm
  rw [update_of_ne hi] at hm
  exact h i msg hm

/-- **Of one message, the socket carries its own fragments in order.** -/
theorem filter_transmit (hkey : Function.Injective key) (h : Keyed key σ) (as : List (Attempt ι)) :
    (transmit conf σ as).filter (fun d => decide (d.portMsg.key = key i)) =
      solo conf (takenOf i as) (σ i) := by
  induction as generalizing σ with
  | nil => rfl
  | cons a as ih => ?_
  rw [transmit, takenOf_cons]
  cases ht : a.taken with
  | false => simpa using ih h
  | true => ?_
  have hrest := ih (h.sent conf a.i)
  by_cases hi : a.i = i
  · subst hi
    cases hm : σ a.i with
    | none =>
      simp only [hm, bind_none, update_self] at hrest
      simpa [solo] using hrest
    | some msg => ?_
    simp only [hm, bind_some, update_self] at hrest
    have hk := h a.i msg hm
    simp [solo, hk, hrest]
  have hi' : i ≠ a.i := fun h => hi h.symm
  rw [update_of_ne hi'] at hrest
  cases hm : σ a.i with
  | none =>
    simp only [hm] at hrest
    simpa [hi] using hrest
  | some msg => ?_
  simp only [hm, bind_some] at hrest
  have hk : ¬ msg.portMsg.key = key i := by
    rw [h a.i msg hm]
    exact fun he => hi (hkey he)
  simp [hi, hk, hrest]

/-! ### Plain messages -/

def PlainChain (bs : List SendBuf) : Prop := ∀ b ∈ bs, ∀ pos data, b ≠ .mem pos data true

variable {bs : List SendBuf}

theorem PlainChain.tail {b : SendBuf} (h : PlainChain (b :: bs)) :
    PlainChain bs := fun c hc => h c (mem_cons_of_mem _ hc)

theorem PlainChain.method (h : PlainChain bs) {m : Method} (hm : m ≠ .mmap) :
    mmapGetMethod m bs ≠ .mmap := by
  induction bs generalizing m with
  | nil => exact hm
  | cons b bs ih => ?_
  cases b with
  | sync l => exact ih h.tail hm
  | mem pos data mm => ?_
  rw [mmapGetMethod]
  by_cases hd : data = []
  · rw [if_pos hd]
    exact ih h.tail hm
  cases mm with
  | true => exact absurd rfl (h _ mem_cons_self pos data)
  | false => ?_
  rw [if_neg hd, if_neg Bool.false_ne_true, if_neg hm]
  exact ih h.tail (by decide)

theorem PlainChain.completion (h : PlainChain bs) (n : ℕ) : PlainChain (bufCompletion bs n) := by
  induction bs generalizing n with
  | nil => exact h
  | cons b bs ih => ?_
  cases b with
  | sync l => exact ih h.tail n
  | mem pos data mm => ?_
  rw [bufCompletion]
  split
  · exact ih h.tail n
  split
  · exact h
  split
  · intro c hc pos' data' he
    rcases mem_cons.mp hc with rfl | hc
    · cases he
      exact h _ mem_cons_self pos data rfl
    · exact h c (mem_cons_of_mem _ hc) pos' data' he
  · exact ih h.tail _

variable {msg' : SendMsg}

section Plain

variable {msg : SendMsg} (h : PlainChain msg.buf)

include h

theorem PlainChain.byMmap : msg.byMmap conf = false := by
  simp [SendMsg.byMmap, h.method]

theorem PlainChain.fragment_mmap : (msg.fragment conf).portMsg.mmap = false := h.byMmap

/-- The datagram carries the next bytes of the payload. -/
theorem PlainChain.fragment_data :
    (msg.fragment conf).data = (payload msg.buf).take (msg.coalesce conf).size := by
  rw [← SendMsg.coalesce_bytes]
  simp [SendMsg.fragment, h.byMmap]

theorem PlainChain.fragment_length :
    (msg.fragment conf).data.length = (msg.coalesce conf).size := by
  have hle : (msg.coalesce conf).size ≤ (payload msg.buf).length := SendMsg.size_le
  rw [h.fragment_data, length_take]
  omega

theorem PlainChain.sent (hs : msg.sent conf = some msg') : PlainChain msg'.buf := by
  rw [(SendMsg.sent_eq_some hs).2.2.2.1]
  exact h.completion _

end Plain

theorem transmit_plain (h : ∀ i msg, σ i = some msg → PlainChain msg.buf) (as : List (Attempt ι)) :
    ∀ d ∈ transmit conf σ as, d.portMsg.mmap = false := by
  induction as generalizing σ with
  | nil => simp [transmit]
  | cons a as ih => ?_
  rw [transmit]
  split
  · have hnext : ∀ i msg, update σ a.i ((σ a.i).bind (·.sent conf)) i = some msg →
        PlainChain msg.buf := by
      intro i msg hm
      by_cases hi : i = a.i
      · subst hi
        rw [update_self] at hm
        obtain ⟨m, hm, hs⟩ := bind_eq_some_iff.mp hm
        exact (h _ m hm).sent hs
      rw [update_of_ne hi] at hm
      exact h i msg hm
    intro d hd
    rcases mem_append.mp hd with hd | hd
    · cases hm : σ a.i with
      | none => simp [hm] at hd
      | some msg => ?_
      simp only [hm, map_some, toList_some, mem_singleton] at hd
      subst hd
      exact (h _ msg hm).fragment_mmap
    · exact ih hnext d hd
  · exact ih h

/-! ### One message -/

def RecvMsg.payload (m : RecvMsg) : Bytes := m.buf.flatMap RecvBuf.data

def SendMsg.Splits (conf : SendConf) (msg : SendMsg) : Prop :=
  ∀ msg', Relation.ReflTransGen (fun a b => a.sent conf = some b) msg msg' → ¬ msg'.ExactFit conf

theorem SendMsg.Splits.sent {msg : SendMsg} (h : msg.Splits conf) (hs : msg.sent conf = some msg') :
    msg'.Splits conf :=
  fun m hm => h m (.head hs hm)

theorem bufCompletion_single (pos : ℕ) (data : Bytes) (mmap : Bool) (n : ℕ) :
    bufCompletion [.mem pos data mmap] n = [] ∨
      ∃ pos' data', bufCompletion [.mem pos data mmap] n = [.mem pos' data' mmap] := by
  rw [bufCompletion]
  split
  · exact .inl rfl
  split
  · exact .inr ⟨pos, data, rfl⟩
  split
  · exact .inr ⟨_, _, rfl⟩
  · exact .inl rfl

/-- A single buffer is cut within, so none of its fragments is an exact fit. -/
theorem SendMsg.splits_single {msg : SendMsg} {pos : ℕ} {data : Bytes} {mmap : Bool}
    (h : msg.buf = [.mem pos data mmap]) : msg.Splits conf := by
  intro msg' hr
  have hsingle : ∃ pos data mmap, msg'.buf = [.mem pos data mmap] := by
    induction hr with
    | refl => exact ⟨pos, data, mmap, h⟩
    | tail _ hs ih => ?_
    obtain ⟨pos, data, mmap, hb⟩ := ih
    have hbuf := (SendMsg.sent_eq_some hs).2.2.2.1
    rw [hb] at hbuf
    rcases bufCompletion_single pos data mmap (SendMsg.coalesce conf _).size with hn | ⟨q, d, hn⟩
    · rw [SendMsg.sent, hb, hn] at hs
      cases hs
    · exact ⟨q, d, mmap, hbuf.trans hn⟩
  obtain ⟨pos, data, mmap, hb⟩ := hsingle
  rintro ⟨hmore, hlt⟩
  have hlim := ((msg'.coalesce_takes conf).of_not_more hmore).resolve_left (by simpa using hlt.ne)
  have hp : payload msg'.buf = data := by simp [hb, SendBuf.data]
  rw [hp, hlim] at hlt
  have hpos := conf.limit_pos (mmapGetMethod .any msg'.buf)
  have hd : data ≠ [] := by
    rintro rfl
    simp at hlt
  -- The limit lies within the buffer, and `limit_reached` says so.
  have hreached : (msg'.coalesce conf).limitReached = true := by
    rw [SendMsg.coalesce]
    generalize conf.limit (mmapGetMethod .any msg'.buf) = limit at hpos hlt
    rw [hb, memCoalesce, if_neg (Nat.not_le.mpr hpos)]
    have hne : limit ≠ 0 := Nat.pos_iff_ne_zero.mp hpos
    simp only [hd, if_false, Nat.zero_add, hlt, decide_true, if_true, Nat.sub_zero, hne]
    split <;> rfl
  rw [Coalesced.more, hreached] at hmore
  cases hmore

/-- A stream that holds the bytes `pre`. -/
structure Holds (f : RecvMsg) (pre : Bytes) : Prop where
  payload : f.payload = pre
  size : f.size = pre.length
  cancelled : f.cancelled = false

@[simp] theorem solo_none (n : ℕ) : solo conf n none = [] := by
  induction n with
  | zero => rfl
  | succ n ih => simpa [solo] using ih

@[simp] theorem soloRest_none (n : ℕ) : soloRest conf n none = none := by
  induction n with
  | zero => rfl
  | succ n ih => simpa [soloRest] using ih

variable {rconf : Conf}

@[simp] theorem RecvMsg.append_fd (f msg : RecvMsg) (cost : ℕ) : (f.append msg cost).fd = f.fd := rfl

@[simp] theorem RecvMsg.started_fd (msg : RecvMsg) (cost : ℕ) :
    (msg.started cost).fd = msg.fd := rfl

@[simp] theorem Datagram.recv_fd (d : Datagram) : d.recv.fd = d.fd := rfl

variable {f : RecvMsg} {pre : Bytes}

theorem Holds.append (hf : Holds f pre) (d : Datagram) (cost : ℕ) :
    Holds (f.append d.recv cost) (pre ++ d.data) := by
  refine ⟨?_, ?_, hf.cancelled⟩
  · rw [← hf.payload]
    simp [RecvMsg.payload, RecvMsg.append, Datagram.recv, RecvBuf.data]
  · rw [length_append, ← hf.size]
    rfl

/-- What the receiver makes of the fragments of `msg` from `v` on: with all of
them the handler was called once more, with the bytes `p`. -/
def Delivers (conf : SendConf) (rconf : Conf) (n : ℕ) (msg : SendMsg) (v : View) (p : Bytes)
    (fd : Fds) : Prop :=
  (soloRest conf n (some msg) = none →
    ∃ g : RecvMsg, ((solo conf n (some msg)).foldl (streamStep rconf) v).2 = v.2 ++ [g] ∧
      g.payload = p ∧ g.fd = fd) ∧
  (soloRest conf n (some msg) ≠ none →
    ((solo conf n (some msg)).foldl (streamStep rconf) v).2 = v.2)

/-- Except for an exact fit, the last fragment clears `mf`. -/
theorem more_of_sent_none {msg : SendMsg} (hsplit : msg.Splits conf) (h : msg.sent conf = none) :
    (msg.coalesce conf).more = false :=
  Bool.eq_false_of_not_eq_true fun hm =>
    absurd ((SendMsg.more_iff (hsplit msg .refl)).mp hm) (Nat.not_lt.mpr (SendMsg.sent_eq_none.mp h))

theorem more_of_sent_some {msg : SendMsg} (hsplit : msg.Splits conf) (h : msg.sent conf = some msg') :
    (msg.coalesce conf).more = true := by
  refine (SendMsg.more_iff (hsplit msg .refl)).mpr ?_
  by_contra hc
  rw [SendMsg.sent_eq_none.mpr (Nat.not_lt.mp hc)] at h
  cases h

/-- The fragments after the first put the rest of the payload together. -/
theorem streamStep_solo (n : ℕ) {msg : SendMsg} {hs : List RecvMsg} (hplain : PlainChain msg.buf)
    (hnf : msg.portMsg.nf = true) (hsplit : msg.Splits conf) (hf : Holds f pre)
    (hsize : pre.length + (payload msg.buf).length ≤ fragSizeMax) :
    Delivers conf rconf n msg (some f, hs) (pre ++ payload msg.buf) f.fd := by
  induction n generalizing msg f pre with
  | zero => exact ⟨fun h => by simp [soloRest] at h, fun _ => rfl⟩
  | succ n ih => ?_
  have hle : (msg.coalesce conf).size ≤ (payload msg.buf).length := SendMsg.size_le
  have hlen : (msg.fragment conf).recv.size = (msg.coalesce conf).size := hplain.fragment_length
  have hfits : f.size + (msg.fragment conf).recv.size ≤ fragSizeMax := by
    rw [hlen, hf.size]
    omega
  have happ : ∀ cost, Holds (f.append (msg.fragment conf).recv cost)
      (pre ++ (payload msg.buf).take (msg.coalesce conf).size) := fun cost => by
    rw [← hplain.fragment_data]
    exact hf.append _ cost
  cases hsent : msg.sent conf with
  | none =>
    -- The last fragment: the handler is called.
    have hend := SendMsg.sent_eq_none.mp hsent
    have hlast : streamStep rconf (some f, hs) (msg.fragment conf) =
        (none, hs ++ [f.append (msg.fragment conf).recv 0]) := by
      simp [streamStep, hnf, more_of_sent_none hsplit hsent, hf.cancelled, hfits]
    refine ⟨fun _ => ⟨f.append (msg.fragment conf).recv 0, ?_, ?_, rfl⟩, fun hne => ?_⟩
    · simp [solo, hsent, hlast]
    · rw [(happ 0).payload, take_of_length_le hend]
    · exact absurd (by simp [soloRest, hsent]) hne
  | some msg' => ?_
  -- More follow: the stream grows.
  obtain ⟨-, hnf', -, -, hp⟩ := SendMsg.sent_eq_some hsent
  have hnext : streamStep rconf (some f, hs) (msg.fragment conf) =
      (some (f.append (msg.fragment conf).recv (fragCost rconf (msg.fragment conf).recv)), hs) := by
    simp [streamStep, hnf, more_of_sent_some hsplit hsent, hf.cancelled, hfits]
  have hroom : (pre ++ (payload msg.buf).take (msg.coalesce conf).size).length +
      (payload msg'.buf).length ≤ fragSizeMax := by
    rw [hp, length_append, length_take, length_drop]
    omega
  have hrest := ih (hplain.sent hsent) hnf' (hsplit.sent hsent)
    (happ (fragCost rconf (msg.fragment conf).recv)) hroom
  rw [hp, append_assoc, take_append_drop] at hrest
  simpa [Delivers, solo, soloRest, hsent, hnext] using hrest

/-- **The fragments of a message put its payload together again.** -/
theorem streamStep_solo_first (n : ℕ) {msg : SendMsg} (hfresh : msg.Fresh)
    (hsplit : msg.Splits conf) (hsize : (payload msg.buf).length ≤ fragSizeMax) :
    Delivers conf rconf n msg (none, []) (payload msg.buf) msg.fd := by
  have hplain : PlainChain msg.buf := hfresh.plain
  have hnf := hfresh.first
  cases n with
  | zero => exact ⟨fun h => by simp [soloRest] at h, fun _ => rfl⟩
  | succ n => ?_
  have hle : (msg.coalesce conf).size ≤ (payload msg.buf).length := SendMsg.size_le
  have hlen : (msg.fragment conf).recv.size = (msg.coalesce conf).size := hplain.fragment_length
  have hdata : (msg.fragment conf).data = _ := hplain.fragment_data
  cases hsent : msg.sent conf with
  | none =>
    -- One datagram takes all of it.
    have hend := SendMsg.sent_eq_none.mp hsent
    have hwhole : streamStep rconf (none, []) (msg.fragment conf) =
        (none, [(msg.fragment conf).recv]) := by
      simp [streamStep, hnf, more_of_sent_none hsplit hsent]
    refine ⟨fun _ => ⟨(msg.fragment conf).recv, ?_, ?_, rfl⟩, fun hne => ?_⟩
    · simp [solo, hsent, hwhole]
    · rw [take_of_length_le hend] at hdata
      simp [RecvMsg.payload, Datagram.recv, RecvBuf.data, hdata]
    · exact absurd (by simp [soloRest, hsent]) hne
  | some msg' => ?_
  obtain ⟨-, hnf', -, -, hp⟩ := SendMsg.sent_eq_some hsent
  have hfits : (msg.fragment conf).recv.size ≤ fragSizeMax := by
    rw [hlen]
    omega
  have hstart : streamStep rconf (none, []) (msg.fragment conf) =
      (some ((msg.fragment conf).recv.started (fragCost rconf (msg.fragment conf).recv)), []) := by
    simp [streamStep, hnf, more_of_sent_some hsplit hsent, hfits]
  have hholds : Holds
      ((msg.fragment conf).recv.started (fragCost rconf (msg.fragment conf).recv))
      ((payload msg.buf).take (msg.coalesce conf).size) := by
    rw [← hdata]
    exact ⟨by simp [RecvMsg.payload, RecvMsg.started, Datagram.recv, RecvBuf.data], rfl, rfl⟩
  have hroom : ((payload msg.buf).take (msg.coalesce conf).size).length +
      (payload msg'.buf).length ≤ fragSizeMax := by
    rw [hp, length_take, length_drop]
    omega
  have hrest : Delivers conf rconf n msg' (some _, []) _ _ :=
    streamStep_solo n (hplain.sent hsent) hnf' (hsplit.sent hsent) hholds hroom
  rw [hp, take_append_drop] at hrest
  simpa [Delivers, solo, soloRest, hsent, hstart] using hrest

/-- Every fragment that the socket takes carries at least a byte, or ends the
message. -/
theorem soloRest_eq_none (n : ℕ) {msg : SendMsg} (h : (payload msg.buf).length < n) :
    soloRest conf n (some msg) = none := by
  induction n generalizing msg with
  | zero => exact absurd h (Nat.not_lt_zero _)
  | succ n ih => ?_
  show soloRest conf n (msg.sent conf) = none
  cases hsent : msg.sent conf with
  | none => simp
  | some msg' => ?_
  have hshort := SendMsg.sent_shorter hsent
  exact ih (by omega)

/-! ### All messages -/

/-- **The handler runs once for a message.**  Whatever the schedule, once the
socket took all of a message the handler of the receiving port was called with
it exactly once, with its payload and its descriptors, and before that not at
all; and it took all of it after at most one fragment for each byte and one
more.  The receiver has room for what it keeps, the message is within the limit
for one, and none of its fragments is an exact fit. -/
theorem transmit_handled_once (rconf : Conf) (env : Env) (msgs : ι → SendMsg)
    (as : List (Attempt ι)) (i : ι) (hfresh : ∀ j, (msgs j).Fresh)
    (hkey : Function.Injective fun j => (msgs j).portMsg.key) (henv : env.Succeeds)
    (hroom : RunRoom rconf env init (transmit conf (fun j => some (msgs j)) as))
    (hsize : (payload (msgs i).buf).length ≤ fragSizeMax) (hsplit : (msgs i).Splits conf) :
    (remaining conf (fun j => some (msgs j)) as i = none →
      ∃ m : RecvMsg,
        (receive rconf env init (transmit conf (fun j => some (msgs j)) as)).handledOf
          (msgs i).portMsg.key = [m] ∧
        m.payload = payload (msgs i).buf ∧ m.fd = (msgs i).fd) ∧
    (remaining conf (fun j => some (msgs j)) as i ≠ none →
      (receive rconf env init (transmit conf (fun j => some (msgs j)) as)).handledOf
        (msgs i).portMsg.key = []) ∧
    ((payload (msgs i).buf).length < takenOf i as →
      remaining conf (fun j => some (msgs j)) as i = none) := by
  have hkeyed : Keyed (fun j => (msgs j).portMsg.key) fun j => some (msgs j) := by
    intro j msg hm
    cases hm
    rfl
  have hplain : ∀ d ∈ transmit conf (fun j => some (msgs j)) as, d.portMsg.mmap = false := by
    refine transmit_plain (fun j msg hm => ?_) as
    cases hm
    exact (hfresh j).plain
  -- The key of the message sees its own fragments only.
  have hview : (receive rconf env init (transmit conf (fun j => some (msgs j)) as)).view
      (msgs i).portMsg.key =
        (solo conf (takenOf i as) (some (msgs i))).foldl (streamStep rconf) (none, []) := by
    rw [view_run init_consistent hplain henv hroom, filter_transmit hkey hkeyed]
    rfl
  have hhandled : (receive rconf env init (transmit conf (fun j => some (msgs j)) as)).handledOf
      (msgs i).portMsg.key =
        ((solo conf (takenOf i as) (some (msgs i))).foldl (streamStep rconf) (none, [])).2 :=
    congrArg Prod.snd hview
  obtain ⟨hdone, hopen⟩ : Delivers conf rconf (takenOf i as) (msgs i) (none, []) _ _ :=
    streamStep_solo_first (takenOf i as) (hfresh i) hsplit hsize
  rw [remaining_eq, hhandled]
  exact ⟨hdone, hopen, soloRest_eq_none _⟩

def narrow : SendConf := ⟨18, 64 * 1024, fun _ => [], by decide⟩

def threeBytes (j : ℕ) : SendMsg where
  portMsg := ⟨UInt32.ofNat j, 7, 0, 1, true, false, false, false⟩
  buf := [.mem 100 [1, 2, 3] false]
  fd := (some 5, none)
  share := 0

def ample : Env := ⟨fun _ => none, false, false⟩

/-- Message 3 in two fragments, with one of message 2 and an `EAGAIN` between
them. -/
theorem transmit_handled_once_two :
    ∃ m : RecvMsg,
      (receive ⟨18, 0⟩ ample init (transmit narrow (fun j : Fin 8 => some (threeBytes j))
        [⟨3, true⟩, ⟨3, false⟩, ⟨2, true⟩, ⟨3, true⟩])).handledOf (threeBytes 3).portMsg.key = [m] ∧
        m.payload = payload (threeBytes 3).buf ∧ m.fd = (threeBytes 3).fd :=
  (transmit_handled_once ⟨18, 0⟩ ample (fun j : Fin 8 => threeBytes j) _ 3
    (fun j => ⟨rfl, by simp [threeBytes]⟩) (by decide) ⟨rfl, rfl⟩ (by decide)
    (by decide) (SendMsg.splits_single rfl)).1 (by decide)

-- An exact fit: the buffer of two bytes fills the first datagram, which then
-- carries no `mf` bit, and the receiver takes it for the whole message.
example : ((receive ⟨18, 0⟩ ample init (transmit narrow
    (fun _ : Unit => some { threeBytes 0 with buf := [.mem 100 [1, 2] false, .mem 200 [3] false] })
    [⟨(), true⟩, ⟨(), true⟩])).handledOf (0, 7)).map RecvMsg.payload = [[1, 2]] := by
  decide

/-- **The oldest stream is given up.**  The first fragments of 65 messages leave
no place for the first message, and its second fragment is dropped. -/
theorem transmit_evicted :
    remaining narrow (fun j : ℕ => some (threeBytes j))
        ((List.range 65 ++ List.range 65).map fun j => ⟨j, true⟩) 0 = none ∧
      (receive ⟨18, 0⟩ ample init (transmit narrow (fun j : ℕ => some (threeBytes j))
        ((List.range 65 ++ List.range 65).map fun j => ⟨j, true⟩))).handledOf (0, 7) = [] := by
  decide +kernel

end FreeUnit.Port
