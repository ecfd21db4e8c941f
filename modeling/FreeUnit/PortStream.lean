/-
The streams of a port, one key at a time.

For the reassembly of one message only the datagrams with its stream number and
sender matter, as long as the port has room for what it is asked to keep.

* `streamStep` — one key's stream and its handler calls under a datagram.
-/
import FreeUnit.PortReassembly

namespace FreeUnit.Port

open List Function Option

/-! ### Streams by key -/

def State.stream (s : State) (key : UInt32 × UInt32) : Option RecvMsg := (s.find key).map s.obj

def Handled.msg : Handled → RecvMsg
  | whole m => m
  | assembled m => m

/-- The messages with a key that the handler was called with. -/
def State.handledOf (s : State) (key : UInt32 × UInt32) : List RecvMsg :=
  (s.handled.map Handled.msg).filter fun m => decide (m.portMsg.key = key)

variable {s : State} {p : ℕ} {key : UInt32 × UInt32}

theorem State.stream_eq_none :
    s.stream key = none ↔ ∀ p ∈ s.frags, (s.obj p).portMsg.key ≠ key := by
  simp [State.stream, State.find, find?_eq_none]

section

variable (h : Consistent s)
include h

theorem Consistent.stream_eq_some {f : RecvMsg} :
    s.stream key = some f ↔ ∃ p ∈ s.frags, (s.obj p).portMsg.key = key ∧ s.obj p = f := by
  constructor
  · intro hf
    obtain ⟨p, hp, rfl⟩ := map_eq_some_iff.mp hf
    obtain ⟨hmem, hkey⟩ := State.mem_of_find hp
    exact ⟨p, hmem, hkey, rfl⟩
  · rintro ⟨p, hp, rfl, rfl⟩
    rw [State.stream, h.find_self hp]
    rfl

theorem Consistent.stream_of_mem {p : ℕ} (hp : p ∈ s.frags) :
    s.stream (s.obj p).portMsg.key = some (s.obj p) :=
  h.stream_eq_some.mpr ⟨p, hp, rfl, rfl⟩

/-- Two consistent states with the same streams under `key` see the same one. -/
theorem Consistent.stream_congr {t : State} (ht : Consistent t)
    (hst : ∀ f, (∃ p ∈ t.frags, (t.obj p).portMsg.key = key ∧ t.obj p = f) ↔ ∃ p ∈ s.frags, (s.obj p).portMsg.key = key ∧ s.obj p = f) :
    t.stream key = s.stream key := by
  apply ext
  intro f
  rw [h.stream_eq_some, ht.stream_eq_some]
  exact hst f

/-- What is left of the streams when one is taken out. -/
theorem Consistent.stream_remove (hp : p ∈ s.frags) :
    (State.fragUnaccount { s with frags := s.frags.erase p } p).stream key =
      if key = (s.obj p).portMsg.key then none else s.stream key := by
  split
  · rename_i he
    rw [State.stream_eq_none]
    intro q hq hk
    obtain ⟨hne, hq⟩ := h.nodup.mem_erase_iff.mp hq
    exact hne (h.keys q hq p hp (hk.trans he))
  rename_i he
  refine h.stream_congr (h.remove hp) fun f => ?_
  constructor
  · rintro ⟨q, hq, hk, hf⟩
    exact ⟨q, mem_of_mem_erase hq, hk, hf⟩
  · rintro ⟨q, hq, hk, hf⟩
    have hne : q ≠ p := fun hqp => he (by rw [← hk, hqp])
    exact ⟨q, h.nodup.mem_erase_iff.mpr ⟨hne, hq⟩, hk, hf⟩

/-- The streams after an object of the hash is replaced under its key. -/
theorem State.stream_update {t : State} {fmsg : RecvMsg} (hp : p ∈ s.frags)
    (hkey : fmsg.portMsg.key = (s.obj p).portMsg.key) (ht : Consistent t)
    (hobj : t.obj = update s.obj p fmsg) (hfrags : t.frags = s.frags) :
    t.stream key = if key = (s.obj p).portMsg.key then some fmsg else s.stream key := by
  split
  · rename_i he
    rw [ht.stream_eq_some, hobj, hfrags]
    refine ⟨p, hp, ?_, ?_⟩ <;> rw [update_self]
    rw [he, hkey]
  rename_i he
  refine h.stream_congr ht fun f => ?_
  rw [hobj, hfrags]
  refine exists_congr fun q => and_congr_right fun hq => ?_
  by_cases hqp : q = p
  · subst hqp
    rw [update_self]
    constructor
    · rintro ⟨hk, -⟩
      exact absurd (hk.symm.trans hkey) he
    · rintro ⟨hk, -⟩
      exact absurd hk.symm he
  · rw [update_of_ne hqp]

/-- The streams after a new one is put into the hash. -/
theorem State.stream_insert {t : State} {fmsg : RecvMsg} (ht : Consistent t)
    (hobj : t.obj = update s.obj s.brk fmsg) (hfrags : t.frags = s.brk :: s.frags) :
    t.stream key = if key = fmsg.portMsg.key then some fmsg else s.stream key := by
  have hnew : s.brk ∉ s.frags := fun hmem => absurd (h.addr _ hmem) (lt_irrefl _)
  split
  · rename_i he
    rw [ht.stream_eq_some, hobj, hfrags]
    refine ⟨s.brk, mem_cons_self, ?_, ?_⟩ <;> rw [update_self]
    exact he.symm
  rename_i he
  refine h.stream_congr ht fun f => ?_
  rw [hobj, hfrags]
  constructor
  · rintro ⟨q, hq, hk, hf⟩
    rcases mem_cons.mp hq with rfl | hq
    · rw [update_self] at hk
      exact absurd hk.symm he
    rw [update_eq_of_mem hnew _ q hq] at hk hf
    exact ⟨q, hq, hk, hf⟩
  · rintro ⟨q, hq, hk, hf⟩
    refine ⟨q, mem_cons_of_mem _ hq, ?_⟩
    rw [update_eq_of_mem hnew _ q hq]
    exact ⟨hk, hf⟩

theorem State.stream_detached (hp : p ∉ s.frags) (fmsg : RecvMsg) :
    State.stream { s with obj := update s.obj p fmsg } key = s.stream key := by
  refine h.stream_congr (h.detached hp fmsg) fun f => ?_
  refine exists_congr fun q => and_congr_right fun hq => ?_
  show (update s.obj p fmsg q).portMsg.key = key ∧ update s.obj p fmsg q = f ↔ _
  rw [update_eq_of_mem hp _ q hq]

end

theorem State.handledOf_append (x : Handled) :
    State.handledOf { s with handled := s.handled ++ [x] } key =
      s.handledOf key ++ if key = x.msg.portMsg.key then [x.msg] else [] := by
  by_cases h : x.msg.portMsg.key = key
  · simp [State.handledOf, h]
  · simp [State.handledOf, h, Ne.symm h]

/-! ### One key under a datagram -/

def RecvMsg.append (f msg : RecvMsg) (cost : ℕ) : RecvMsg :=
  { f with
    buf := f.buf ++ msg.buf
    size := f.size + msg.size
    fragHeld := f.fragHeld + cost }

def RecvMsg.started (msg : RecvMsg) (cost : ℕ) : RecvMsg :=
  { msg with
    fragHeld := cost
    portMsg := { msg.portMsg with nf := false, mf := false } }

abbrev View := Option RecvMsg × List RecvMsg

def State.view (s : State) (key : UInt32 × UInt32) : View := (s.stream key, s.handledOf key)

def streamStep (conf : Conf) (v : View) (d : Datagram) : View :=
  match d.portMsg.nf, d.portMsg.mf, v.1 with
  | false, false, _ => (v.1, v.2 ++ [d.recv])
  | false, true, some _ => v
  | false, true, none =>
    if d.recv.size ≤ fragSizeMax then (some (d.recv.started (fragCost conf d.recv)), v.2) else v
  | true, _, none => v
  | true, true, some f =>
    if f.cancelled then v
    else if f.size + d.recv.size ≤ fragSizeMax then
      (some (f.append d.recv (fragCost conf d.recv)), v.2)
    else (none, v.2)
  | true, false, some f =>
    if f.cancelled then (none, v.2)
    else if f.size + d.recv.size ≤ fragSizeMax then (none, v.2 ++ [f.append d.recv 0])
    else (none, v.2)

/-- A port has room for a datagram: one stream less than the maximum is open
when a new one starts, and the total takes what is to be kept of it. -/
structure Room (conf : Conf) (s : State) (d : Datagram) : Prop where
  streams : d.portMsg.nf = false → d.portMsg.mf = true → s.fragStreams < fragStreamsMax
  total : d.portMsg.mf = true → s.fragSize + fragCost conf d.recv ≤ fragTotalMax

structure Env.Succeeds (env : Env) : Prop where
  alloc : env.allocFails = false
  insert : env.insertFails = false

section Datagram

variable {conf : Conf} {env : Env} {d : Datagram}

theorem mmapFragment_plain (h : d.portMsg.mmap = false) :
    mmapFragment env d.data d.recv = some d.recv := by
  have h' : d.recv.portMsg.mmap = false := h
  simp [mmapFragment, h']

theorem fragStart_started (h : Consistent s) (henv : env.Succeeds) (hroom : Room conf s d)
    (hnf : d.portMsg.nf = false) (hmf : d.portMsg.mf = true) (hsize : d.recv.size ≤ fragSizeMax)
    (hnew : s.stream d.portMsg.key = none) :
    fragStart conf env d.recv s =
      ({ s with
         obj := update s.obj s.brk { d.recv with fragHeld := fragCost conf d.recv }
         brk := s.brk + 1
         frags := s.brk :: s.frags
         fragQueue := s.fragQueue ++ [s.brk]
         fragStreams := (s.fragStreams + 1) % 2 ^ 32
         fragSize := (s.fragSize + fragCost conf d.recv) % 2 ^ 32 }, some s.brk) := by
  have hst := hroom.streams hnf hmf
  have htot := hroom.total hmf
  have hfind : s.find d.recv.portMsg.key = none := map_eq_none_iff.mp hnew
  have hfits : ¬ (fragSizeMax < d.recv.size ∨ s.fragRoom < fragCost conf d.recv) := by
    rw [h.fragRoom_eq]
    omega
  simp [fragStart, Nat.not_le.mpr hst, hfits, henv.alloc, henv.insert, hfind]

theorem fragStart_refused (henv : env.Succeeds) (hroom : Room conf s d)
    (hnf : d.portMsg.nf = false) (hmf : d.portMsg.mf = true)
    (hno : ¬ d.recv.size ≤ fragSizeMax ∨ s.stream d.portMsg.key ≠ none) :
    fragStart conf env d.recv s = (s, none) := by
  have hst := hroom.streams hnf hmf
  simp only [fragStart, if_neg (Nat.not_le.mpr hst), henv.alloc, henv.insert]
  split
  · rfl
  rename_i hfits
  rcases hno with hno | hno
  · omega
  have hsome : (s.find d.recv.portMsg.key).isSome := by
    rw [isSome_iff_ne_none]
    intro hn
    exact hno (map_eq_none_iff.mpr hn)
  simp [hsome]

theorem view_whole (hd : d.portMsg.mmap = false) (hnf : d.portMsg.nf = false)
    (hmf : d.portMsg.mf = false) : (readMsgProcess conf env d s).view key =
      if key = d.portMsg.key then streamStep conf (s.view key) d else s.view key := by
  have hnf' : d.recv.portMsg.nf = false := hnf
  have hmf' : d.recv.portMsg.mf = false := hmf
  have hd' : d.recv.portMsg.mmap = false := hd
  have hstep : readMsgProcess conf env d s = { s with handled := s.handled ++ [.whole d.recv] } := by
    simp [readMsgProcess, hnf', hmf', hd']
  have hkey : (Handled.whole d.recv).msg.portMsg.key = d.portMsg.key := rfl
  rw [hstep]
  show (s.stream key, _) = _
  rw [State.handledOf_append, hkey]
  split
  · simp [streamStep, hnf, hmf, State.view, Handled.msg]
  · simp [State.view]

theorem view_first (h : Consistent s) (hd : d.portMsg.mmap = false) (henv : env.Succeeds)
    (hroom : Room conf s d) (hnf : d.portMsg.nf = false) (hmf : d.portMsg.mf = true) :
    (readMsgProcess conf env d s).view key =
      if key = d.portMsg.key then streamStep conf (s.view key) d else s.view key := by
  have hnf' : d.recv.portMsg.nf = false := hnf
  have hmf' : d.recv.portMsg.mf = true := hmf
  have hcons := h.readMsgProcess conf env d
  by_cases hok : d.recv.size ≤ fragSizeMax ∧ s.stream d.portMsg.key = none
  · have hstart := fragStart_started h henv hroom hnf hmf hok.1 hok.2
    set t := readMsgProcess conf env d s with ht
    have hobj : t.obj = update s.obj s.brk (d.recv.started (fragCost conf d.recv)) := by
      simp [ht, readMsgProcess, hnf', hmf', mmapFragment_plain hd, hstart, RecvMsg.started]
    have hfrags : t.frags = s.brk :: s.frags := by
      simp [ht, readMsgProcess, hnf', hmf', mmapFragment_plain hd, hstart]
    have hhandled : t.handledOf key = s.handledOf key := by
      simp [ht, readMsgProcess, hnf', hmf', mmapFragment_plain hd, hstart, State.handledOf]
    have hstream : t.stream key =
        if key = d.portMsg.key then some (d.recv.started (fragCost conf d.recv))
        else s.stream key := State.stream_insert h hcons hobj hfrags
    rw [State.view, hstream, hhandled]
    split
    · rename_i he
      subst he
      simp [streamStep, hnf, hmf, State.view, hok]
    · rfl
  · have hno : ¬ d.recv.size ≤ fragSizeMax ∨ s.stream d.portMsg.key ≠ none :=
      not_and_or.mp hok
    have hstep : readMsgProcess conf env d s = s := by
      simp [readMsgProcess, hnf', hmf', mmapFragment_plain hd,
        fragStart_refused henv hroom hnf hmf hno]
    rw [hstep]
    split
    · rename_i he
      subst he
      cases hst : s.stream d.portMsg.key with
      | none =>
        have hbig : ¬ d.recv.size ≤ fragSizeMax := hno.resolve_right (by simp [hst])
        simp [streamStep, hnf, hmf, State.view, hst, hbig]
      | some f => simp [streamStep, hnf, hmf, State.view, hst]
    · rfl

theorem view_next (h : Consistent s) (hd : d.portMsg.mmap = false) (hroom : Room conf s d)
    (hnf : d.portMsg.nf = true) (hmf : d.portMsg.mf = true) :
    (readMsgProcess conf env d s).view key =
      if key = d.portMsg.key then streamStep conf (s.view key) d else s.view key := by
  have hnf' : d.recv.portMsg.nf = true := hnf
  have hmf' : d.recv.portMsg.mf = true := hmf
  have hcons := h.readMsgProcess conf env d
  cases hfind : s.find d.recv.portMsg.key with
  | none =>
    have hstep : readMsgProcess conf env d s = s := by
      simp [readMsgProcess, fragFind, hnf', hmf', hfind]
    have hst : s.stream d.portMsg.key = none := map_eq_none_iff.mpr hfind
    rw [hstep]
    split
    · rename_i he
      subst he
      simp [streamStep, hnf, State.view, hst]
    · rfl
  | some p => ?_
  obtain ⟨hp, hkey⟩ := State.mem_of_find hfind
  have hkey' : (s.obj p).portMsg.key = d.portMsg.key := hkey
  have hst : s.stream d.portMsg.key = some (s.obj p) := hkey' ▸ h.stream_of_mem hp
  have hb := h.msgSize p hp
  have hproc : readMsgProcess conf env d s =
      if (s.obj p).cancelled then s else nextFragment conf d.recv p s := by
    simp [readMsgProcess, fragFind, hnf', hmf', hfind, mmapFragment_plain hd]
  cases hc : (s.obj p).cancelled with
  | true =>
    rw [hproc, hc, if_pos rfl]
    split
    · rename_i he
      subst he
      simp [streamStep, hnf, hmf, State.view, hst, hc]
    · rfl
  | false => ?_
  rw [hc, if_neg Bool.false_ne_true] at hproc
  rw [hproc] at hcons ⊢
  have hfits : fragFits s (s.obj p) d.recv (fragCost conf d.recv) = true ↔ _ := h.fragFits_iff hb.1
  by_cases hsize : (s.obj p).size + d.recv.size ≤ fragSizeMax
  · -- It is added to the stream.
    have hf := hfits.mpr ⟨hsize, fun _ => hroom.total hmf⟩
    have hstream : (nextFragment conf d.recv p s).stream key = if key = (s.obj p).portMsg.key then
          some ((s.obj p).append d.recv (fragCost conf d.recv)) else s.stream key := by
      refine State.stream_update h hp rfl hcons ?_ ?_ <;>
        simp [nextFragment, hmf', hf, RecvMsg.append]
    have hhandled : (nextFragment conf d.recv p s).handledOf key = s.handledOf key := by
      simp [nextFragment, hmf', hf, State.handledOf]
    rw [State.view, hstream, hhandled, hkey']
    split
    · rename_i he
      subst he
      simp [streamStep, hnf, hmf, State.view, hst, hc, hsize]
    · rfl
  -- The stream is dropped.
  have hf : fragFits s (s.obj p) d.recv (fragCost conf d.recv) = false :=
    Bool.eq_false_of_not_eq_true fun hf => hsize (hfits.mp hf).1
  have hdrop : nextFragment conf d.recv p s =
      State.fragUnaccount { s with frags := s.frags.erase p } p := by
    simp [nextFragment, hmf', hf, h.fragDrop_eq hp]
  rw [hdrop, State.view, h.stream_remove hp, hkey']
  show (_, s.handledOf key) = _
  split
  · rename_i he
    subst he
    simp [streamStep, hnf, hmf, State.view, hst, hc, hsize]
  · rfl

theorem view_last (h : Consistent s) (hd : d.portMsg.mmap = false)
    (hnf : d.portMsg.nf = true) (hmf : d.portMsg.mf = false) :
    (readMsgProcess conf env d s).view key =
      if key = d.portMsg.key then streamStep conf (s.view key) d else s.view key := by
  have hnf' : d.recv.portMsg.nf = true := hnf
  have hmf' : d.recv.portMsg.mf = false := hmf
  cases hfind : s.find d.recv.portMsg.key with
  | none =>
    have hstep : readMsgProcess conf env d s = s := by
      simp [readMsgProcess, fragFind, State.delete, hnf', hmf', hfind]
    have hst : s.stream d.portMsg.key = none := map_eq_none_iff.mpr hfind
    rw [hstep]
    split
    · rename_i he
      subst he
      simp [streamStep, hnf, State.view, hst]
    · rfl
  | some p => ?_
  obtain ⟨hp, hkey⟩ := State.mem_of_find hfind
  have hkey' : (s.obj p).portMsg.key = d.portMsg.key := hkey
  have hst : s.stream d.portMsg.key = some (s.obj p) := hkey' ▸ h.stream_of_mem hp
  have hb := h.msgSize p hp
  -- The lookup takes the stream out of the hash.
  set t := State.fragUnaccount { s with frags := s.frags.erase p } p with ht
  have hcons : Consistent t := h.remove hp
  have hout : p ∉ t.frags := h.nodup.not_mem_erase
  have hstream : t.stream key = if key = d.portMsg.key then none else s.stream key := by
    rw [ht, h.stream_remove hp, hkey']
  have hproc : readMsgProcess conf env d s =
      if (s.obj p).cancelled then t else nextFragment conf d.recv p t := by
    simp [readMsgProcess, fragFind, State.delete, hnf', hmf', hfind, mmapFragment_plain hd, ht]
    rfl
  cases hc : (s.obj p).cancelled with
  | true =>
    rw [hproc, hc, if_pos rfl, State.view, hstream]
    show (_, s.handledOf key) = _
    split
    · rename_i he
      subst he
      simp [streamStep, hnf, hmf, State.view, hst, hc]
    · rfl
  | false => ?_
  rw [hproc, hc, if_neg Bool.false_ne_true]
  have hfits : fragFits t (t.obj p) d.recv 0 = true ↔ _ := hcons.fragFits_iff hb.1
  by_cases hsize : (s.obj p).size + d.recv.size ≤ fragSizeMax
  · have hf := hfits.mpr ⟨hsize, fun hm => by rw [hmf'] at hm; cases hm⟩
    have hnext : nextFragment conf d.recv p t =
        { t with
          obj := update t.obj p ((t.obj p).append d.recv 0)
          handled := t.handled ++ [.assembled ((t.obj p).append d.recv 0)] } := by
      simp [nextFragment, hmf', hf, RecvMsg.append]
    have hmsg : (Handled.assembled ((t.obj p).append d.recv 0)).msg.portMsg.key =
        d.portMsg.key := hkey'
    have hdet : State.stream { t with
        obj := update t.obj p ((t.obj p).append d.recv 0)
        handled := t.handled ++ [.assembled ((t.obj p).append d.recv 0)] } key =
        t.stream key := State.stream_detached hcons hout _
    rw [hnext, State.view, hdet, hstream]
    show (_, State.handledOf { t with
      handled := t.handled ++ [.assembled ((t.obj p).append d.recv 0)] } key) = _
    rw [State.handledOf_append, hmsg]
    show (_, s.handledOf key ++ _) = _
    split
    · rename_i he
      subst he
      simp [streamStep, hnf, hmf, State.view, hst, hc, hsize]
      rfl
    · simp [State.view]
  · have hf : fragFits t (t.obj p) d.recv 0 = false :=
      Bool.eq_false_of_not_eq_true fun hf => hsize (hfits.mp hf).1
    have hdrop : nextFragment conf d.recv p t = t := by
      simp [nextFragment, hmf', hf, State.fragDrop]
    rw [hdrop, State.view, hstream]
    show (_, s.handledOf key) = _
    split
    · rename_i he
      subst he
      simp [streamStep, hnf, hmf, State.view, hst, hc, hsize]
    · rfl

/-- **A datagram takes one step for its own key** and leaves every other key
alone. -/
theorem view_readMsgProcess (h : Consistent s) (hd : d.portMsg.mmap = false)
    (henv : env.Succeeds) (hroom : Room conf s d) : (readMsgProcess conf env d s).view key =
      if key = d.portMsg.key then streamStep conf (s.view key) d else s.view key := by
  cases hnf : d.portMsg.nf <;> cases hmf : d.portMsg.mf
  · exact view_whole hd hnf hmf
  · exact view_first h hd henv hroom hnf hmf
  · exact view_last h hd hnf hmf
  · exact view_next h hd hroom hnf hmf

end Datagram

/-! ### Whole runs -/

def receive (conf : Conf) (env : Env) (s : State) (ds : List Datagram) : State :=
  run conf s (ds.map fun d => .datagram env d)

/-- The port has room for every datagram of a sequence when it arrives. -/
def RunRoom (conf : Conf) (env : Env) (s : State) : List Datagram → Prop
  | [] => True
  | d :: ds => Room conf s d ∧ RunRoom conf env (readMsgProcess conf env d s) ds

instance (conf : Conf) (s : State) (d : Datagram) : Decidable (Room conf s d) :=
  decidable_of_iff ((d.portMsg.nf = false → d.portMsg.mf = true → s.fragStreams < fragStreamsMax) ∧
    (d.portMsg.mf = true → s.fragSize + fragCost conf d.recv ≤ fragTotalMax))
    ⟨fun h => ⟨h.1, h.2⟩, fun h => ⟨h.streams, h.total⟩⟩

instance RunRoom.decidable (conf : Conf) (env : Env) :
    (s : State) → (ds : List Datagram) → Decidable (RunRoom conf env s ds)
  | _, [] => isTrue trivial
  | s, d :: ds =>
    have := RunRoom.decidable conf env (readMsgProcess conf env d s) ds
    inferInstanceAs (Decidable (_ ∧ _))

/-- **A key sees of a run just the datagrams that carry it.** -/
theorem view_run {conf : Conf} {env : Env} {ds : List Datagram} (h : Consistent s)
    (hd : ∀ d ∈ ds, d.portMsg.mmap = false) (henv : env.Succeeds)
    (hroom : RunRoom conf env s ds) : (receive conf env s ds).view key =
      (ds.filter fun d => decide (d.portMsg.key = key)).foldl (streamStep conf) (s.view key) := by
  induction ds generalizing s with
  | nil => rfl
  | cons d ds ih => ?_
  have hmem : ∀ d' ∈ ds, d'.portMsg.mmap = false := fun d' hm => hd d' (mem_cons_of_mem _ hm)
  have hrest := ih (h.readMsgProcess conf env d) hmem hroom.2
  rw [view_readMsgProcess h (hd d mem_cons_self) henv hroom.1] at hrest
  show (receive conf env (readMsgProcess conf env d s) ds).view key = _
  rw [hrest]
  by_cases he : key = d.portMsg.key
  · subst he
    simp
  have hne : ¬ d.portMsg.key = key := fun hk => he hk.symm
  simp [he, hne]

end FreeUnit.Port
