/-
The body of an application response on its way through the compressor.

The response comes as chains of buffers, one chain a call.  A data buffer is
compressed and released, a sync buffer is passed on in its place.  The stream
ends with the data buffer that reaches the declared length, or else with the
last buffer, and a stream that has ended takes no more input.

* `walk_iff`, `compressed_iff` — the response is sent whole exactly if no data
  buffer follows the one that reaches the declared length.
-/
import FreeUnit.Bytes

namespace FreeUnit.CompStream

open List

/-- `nxt_http_comp_ctx_t`; a length that is not declared is -1. -/
structure Ctx where
  live : Bool := true
  respClen : ℤ
  clenSent : ℤ := 0
  deriving DecidableEq

inductive Buf where
  | data (id : ℕ) (bytes : Bytes)
  | sync (id : ℕ) (last : Bool)
  deriving DecidableEq

/-- A buffer of the result: the output of one call of the compressor, or a
buffer that is passed on. -/
inductive Out where
  | deflated (src : Bytes) (last : Bool)
  | passed (b : Buf)
  deriving DecidableEq

/-- What is left of the context, the chain that is given back, the buffers that
are released, and whether the call succeeds. -/
structure Result where
  ctx : Ctx
  out : List Out := []
  released : List ℕ := []
  ok : Bool := true
  deriving DecidableEq

def Result.prepend (out : List Out) (released : List ℕ) (w : Result) : Result :=
  { w with out := out ++ w.out, released := released ++ w.released }

/-- `nxt_http_comp_compress`, with a compressor that does not fail. -/
def compCompress (ctx : Ctx) (last : Bool) : Option Ctx :=
  if ctx.live then some { ctx with live := !last } else none

/-- One turn of the loop of `nxt_http_comp_compress_app_response`, with memory
for its buffer: the output and the buffers released. -/
def turn (ctx : Ctx) : Buf → Option (Ctx × List Out × List ℕ)
  | .sync id last =>
    if last && ctx.live then
      (compCompress ctx true).map (·, [.deflated [] true, .passed (.sync id last)], [])
    else some (ctx, [.passed (.sync id last)], [])
  | .data id bytes =>
    let last := ctx.clenSent + bytes.length == ctx.respClen
    if bytes.isEmpty && !last then some (ctx, [], [id])
    else
      (compCompress ctx last).map fun ctx' =>
        ({ ctx' with clenSent := ctx'.clenSent + bytes.length }, [.deflated bytes last], [id])

def walk (ctx : Ctx) : List Buf → Result
  | [] => { ctx }
  | b :: next =>
    match turn ctx b with
    | none => { ctx, out := (b :: next).map .passed, ok := false }
    | some (ctx', out, released) => (walk ctx' next).prepend out released

/-- The calls for the parts of one response; a failure ends it. -/
def calls (ctx : Ctx) : List (List Buf) → Result
  | [] => { ctx }
  | chain :: chains =>
    let w := walk ctx chain
    if w.ok then (calls w.ctx chains).prepend w.out w.released else w

/-! ### What is expected -/

def Buf.bytes : Buf → Bytes
  | .data _ bytes => bytes
  | .sync _ _ => []

def Buf.isLast : Buf → Bool
  | .data _ _ => false
  | .sync _ last => last

def Buf.dataId : Buf → Option ℕ
  | .data id _ => some id
  | .sync _ _ => none

def Buf.trace : Buf → List (UInt8 ⊕ ℕ)
  | .data _ bytes => bytes.map .inl
  | .sync id _ => [.inr id]

def Out.trace : Out → List (UInt8 ⊕ ℕ)
  | .deflated src _ => src.map .inl
  | .passed b => b.trace

def Out.finishes : Out → Bool
  | .deflated _ last => last
  | .passed _ => false

/-- The call succeeds, the compressor gets the bytes in order with the sync
buffers in their place and is finished `n` times, and every data buffer is
released once. -/
structure Compressed (bufs : List Buf) (n : ℕ) (w : Result) : Prop where
  ok : w.ok = true
  trace : w.out.flatMap Out.trace = bufs.flatMap Buf.trace
  finishes : w.out.countP Out.finishes = n
  released : w.released = bufs.filterMap Buf.dataId

/-- No data buffer comes after the one that reaches the declared length. -/
def EndsOnce (respClen : ℤ) : ℤ → List Buf → Prop
  | _, [] => True
  | sent, .sync _ _ :: next => EndsOnce respClen sent next
  | sent, .data _ bytes :: next =>
    if sent + bytes.length = respClen then ∀ b ∈ next, b.dataId = none
    else EndsOnce respClen (sent + bytes.length) next

variable {ctx : Ctx} {bufs : List Buf} {w : Result} {n : ℕ}

/-- A turn that succeeds passes on what the buffer holds. -/
theorem Compressed.turn_iff {b : Buf} {ctx' : Ctx} {out : List Out} {released : List ℕ} {m : ℕ}
    (hturn : turn ctx b = some (ctx', out, released)) (htrace : out.flatMap Out.trace = b.trace)
    (hfinishes : m = out.countP Out.finishes + n) (hreleased : released = b.dataId.toList) :
    Compressed (b :: bufs) m (walk ctx (b :: bufs)) ↔ Compressed bufs n (walk ctx' bufs) := by
  have hids : (b :: bufs).filterMap Buf.dataId = released ++ bufs.filterMap Buf.dataId := by
    rw [hreleased]
    cases h : b.dataId <;> simp [h]
  have hwalk : walk ctx (b :: bufs) = (walk ctx' bufs).prepend out released := by
    rw [walk, hturn]
  rw [hwalk]
  constructor
  · rintro ⟨hok, ht, hf, hr⟩
    rw [Result.prepend, flatMap_append, flatMap_cons, htrace] at ht
    rw [Result.prepend, countP_append, hfinishes] at hf
    rw [hids] at hr
    exact ⟨hok, append_cancel_left ht, Nat.add_left_cancel hf, append_cancel_left hr⟩
  · rintro ⟨hok, ht, hf, hr⟩
    refine ⟨hok, ?_, ?_, ?_⟩
    · rw [Result.prepend, flatMap_append, flatMap_cons, htrace, ht]
    · rw [Result.prepend, countP_append, hfinishes, hf]
    · rw [hids, ← hr]
      rfl

/-- Once the length is reached, a walk passes the sync buffers on, and fails at
any data buffer. -/
theorem walk_ended_iff (hlive : ctx.live = false) (hsent : ctx.clenSent = ctx.respClen)
    (hnil : bufs.flatMap Buf.bytes = []) :
    Compressed bufs 0 (walk ctx bufs) ↔ ∀ b ∈ bufs, b.dataId = none := by
  induction bufs with
  | nil => exact iff_of_true ⟨rfl, rfl, rfl, rfl⟩ (by simp)
  | cons b bufs ih => ?_
  rw [flatMap_cons, append_eq_nil_iff] at hnil
  obtain ⟨hb, hnil⟩ := hnil
  cases b with
  | sync id last =>
    have hturn : turn ctx (.sync id last) = some (ctx, [.passed (.sync id last)], []) := by
      simp [turn, hlive]
    rw [Compressed.turn_iff (m := 0) (n := 0) hturn rfl rfl rfl, ih hnil, forall_mem_cons]
    exact (and_iff_right rfl).symm
  | data id bytes => ?_
  -- the empty buffer reaches the length once more
  change bytes = [] at hb
  subst hb
  have hturn : turn ctx (.data id []) = none := by
    simp [turn, compCompress, hlive, hsent]
  rw [walk, hturn]
  refine iff_of_false (fun h => nomatch h.ok) fun h => ?_
  exact nomatch h _ (mem_cons_self ..)

/-- **A walk over a whole body.**  The body has its declared length, or none is
declared, and its last buffer comes at the end. -/
theorem walk_iff {id : ℕ} (hlive : ctx.live = true)
    (hlast : ∀ b ∈ bufs, b.isLast = false)
    (hlen : ctx.respClen = ctx.clenSent + (bufs.flatMap Buf.bytes).length ∨
      ctx.respClen < ctx.clenSent) :
    Compressed (bufs ++ [.sync id true]) 1 (walk ctx (bufs ++ [.sync id true])) ↔
      EndsOnce ctx.respClen ctx.clenSent bufs := by
  induction bufs generalizing ctx with
  | nil =>
    have hturn : turn ctx (.sync id true) = some ({ ctx with live := false },
        [.deflated [] true, .passed (.sync id true)], []) := by
      simp [turn, compCompress, hlive]
    rw [nil_append, Compressed.turn_iff (m := 1) (n := 0) hturn rfl rfl rfl]
    exact iff_of_true ⟨rfl, rfl, rfl, rfl⟩ trivial
  | cons b bufs ih => ?_
  rw [forall_mem_cons] at hlast
  obtain ⟨hb, hlast⟩ := hlast
  cases b with
  | sync i last =>
    have hturn : turn ctx (.sync i last) = some (ctx, [.passed (.sync i last)], []) := by
      change last = false at hb
      rw [hb]
      rfl
    rw [cons_append, Compressed.turn_iff (m := 1) (n := 1) hturn rfl rfl rfl, EndsOnce]
    exact ih hlive hlast hlen
  | data i bytes => ?_
  simp only [flatMap_cons, Buf.bytes, length_append] at hlen
  rw [cons_append, EndsOnce]
  by_cases hend : ctx.clenSent + bytes.length = ctx.respClen
  · -- this buffer ends the stream, and the rest is empty
    have hnil : bufs.flatMap Buf.bytes = [] := eq_nil_of_length_eq_zero (by omega)
    have hturn : turn ctx (.data i bytes) = some ({ ctx with
        live := false, clenSent := ctx.respClen }, [.deflated bytes true], [i]) := by
      simp [turn, compCompress, hlive, hend]
    rw [Compressed.turn_iff (m := 1) (n := 0) hturn (append_nil _) rfl rfl, if_pos hend,
      walk_ended_iff rfl rfl (by simp [hnil, Buf.bytes])]
    simp [Buf.dataId, or_imp, forall_and]
  have hlen' : ctx.respClen = ctx.clenSent + bytes.length +
      (bufs.flatMap Buf.bytes).length ∨ ctx.respClen < ctx.clenSent + bytes.length := by
    omega
  rw [if_neg hend, ← @ih { ctx with clenSent := ctx.clenSent + bytes.length } hlive hlast hlen']
  cases bytes with
  | nil =>
    have hturn : turn ctx (.data i []) = some (ctx, [], [i]) := by simpa [turn] using hend
    rw [Compressed.turn_iff (m := 1) (n := 1) hturn rfl rfl rfl]
    simp
  | cons c bytes => ?_
  have hturn : turn ctx (.data i (c :: bytes)) = some ({ ctx with
      clenSent := ctx.clenSent + (c :: bytes).length }, [.deflated (c :: bytes) false], [i]) := by
    simpa [turn, compCompress, hlive] using hend
  rw [Compressed.turn_iff (m := 1) (n := 1) hturn (append_nil _) rfl rfl]

theorem Result.prepend_prepend (o o' : List Out) (r r' : List ℕ) :
    (w.prepend o' r').prepend o r = w.prepend (o ++ o') (r ++ r') := by
  rw [Result.prepend, Result.prepend, Result.prepend, append_assoc, append_assoc]

/-- A walk goes on behind a chain that did not fail, and a failure stays. -/
theorem walk_append (a b : List Buf) : ((walk ctx a).ok = true → walk ctx (a ++ b) =
      (walk (walk ctx a).ctx b).prepend (walk ctx a).out (walk ctx a).released) ∧
    ((walk ctx a).ok = false → (walk ctx (a ++ b)).ok = false) := by
  induction a generalizing ctx with
  | nil => exact ⟨fun _ => rfl, nofun⟩
  | cons x a ih => ?_
  rw [cons_append, walk, walk]
  cases hturn : turn ctx x with
  | none => exact ⟨nofun, fun _ => rfl⟩
  | some r => ?_
  refine ⟨fun hok => ?_, (@ih r.1).2⟩
  dsimp only
  rw [(@ih r.1).1 hok, Result.prepend_prepend]
  rfl

/-- The calls are one walk, unless one of them fails. -/
theorem calls_eq (chains : List (List Buf)) :
    ((calls ctx chains).ok = true → calls ctx chains = walk ctx chains.flatten) ∧
      ((walk ctx chains.flatten).ok = true → (calls ctx chains).ok = true) := by
  induction chains generalizing ctx with
  | nil => exact ⟨fun _ => rfl, fun _ => rfl⟩
  | cons chain chains ih => ?_
  obtain ⟨hgo, hstop⟩ := @walk_append ctx chain chains.flatten
  rw [flatten_cons, calls]
  cases hok : (walk ctx chain).ok with
  | false =>
    rw [if_neg Bool.false_ne_true, hstop hok, hok]
    exact ⟨nofun, nofun⟩
  | true => ?_
  rw [if_pos rfl, hgo hok]
  exact ⟨fun h => by rw [ih.1 h], ih.2⟩

/-- **A compressed response.**  For a body in any chains, with its declared
length or without one: no call fails, the compressor gets the bytes in order
and is finished once, the sync buffers keep their place and every data buffer
is released once, exactly if no data buffer comes after the one that reaches
the declared length. -/
theorem compressed_iff (respClen : ℤ) (chains : List (List Buf)) (bufs : List Buf) (id : ℕ)
    (hbufs : chains.flatten = bufs ++ [.sync id true])
    (hlast : ∀ b ∈ bufs, b.isLast = false)
    (hlen : respClen = (bufs.flatMap Buf.bytes).length ∨ respClen = -1) :
    Compressed chains.flatten 1 (calls { respClen } chains) ↔ EndsOnce respClen 0 bufs := by
  have hwalk := @walk_iff { respClen } bufs id rfl hlast (by dsimp only; omega)
  rw [← hbufs] at hwalk
  obtain ⟨hgo, hok⟩ := @calls_eq { respClen } chains
  refine Iff.trans ⟨fun h => ?_, fun h => ?_⟩ hwalk
  · exact hgo h.ok ▸ h
  · exact (hgo (hok h.ok)).symm ▸ h

/-- Two chains, with an empty buffer and a sync buffer inside the body. -/
theorem compressed_two_chains :
    let chains : List (List Buf) := [[.data 0 [0x61], .data 1 []],
      [.sync 2 false, .data 3 [0x62, 0x63], .sync 4 true]]
    Compressed chains.flatten 1 (calls { respClen := 3 } chains) :=
  (compressed_iff 3 _ [.data 0 [0x61], .data 1 [], .sync 2 false, .data 3 [0x62, 0x63]] 4 rfl
    (by decide) (.inl rfl)).mpr (by simp [EndsOnce])

/-- An empty buffer behind the three bytes that were declared: the call fails
with the stream at its end. -/
theorem empty_after_end :
    let chain : List Buf := [.data 0 [0x61, 0x62, 0x63], .data 1 [], .sync 2 true]
    (calls { respClen := 3 } [chain]).ok = false ∧
      (calls { respClen := 3 } [chain]).released = [0] := by
  decide

end FreeUnit.CompStream
