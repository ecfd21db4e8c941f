/-
Requests to the controller are served one at a time.

* `Outcome` — all that a request can do when it is processed;
* `Serial` — at most one message is out, and the flags say which;
* `Ledger` — a request is started and answered once;
* `run_serial` — both in every run in which a router is reported dead only after
  its port is known, and no router refuses a configuration while it is stored;
* `done_without_conf` — runs in which one of the two is not so.
-/
import FreeUnit.Controller

namespace FreeUnit.Controller

open List Function Option

variable {Conf : Type}

/-! ### What a request can do -/

def IsChange (req : Request) : Prop :=
  (∃ path, route req.path = .config path) ∧ req.method ≠ str "GET"

/-- The request is answered with the status of the router. -/
def AsksStatus (req : Request) : Prop :=
  ((∃ path, route req.path = .status path) ∨ route req.path = .root) ∧ req.method = str "GET"

def Call.req : Call Conf → Option Request
  | .init _ => none
  | .conf req _ => some req
  | .certApply req _ => some req
  | .status req => some req
  | .restart req => some req

inductive Starts (r : Request) : Call Conf → Option Conf → Prop where
  | conf {c : Conf} : IsChange r → Starts r (.conf r c) (some c)
  | status : ¬ IsChange r → AsksStatus r → Starts r (.status r) none
  | restart : ¬ IsChange r → Starts r (.restart r) none

inductive Outcome (s : State Conf) (r : Request) : State Conf → Prop where
  | answered {resp : Response Conf} : (IsChange r → resp.status ≠ 200) →
      Outcome s r (s.respond r resp)
  | postponed : Outcome s r (s.postpone r)
  | called {call : Call Conf} {c : Option Conf} : s.checkPostpone = false → Starts r call c →
      Outcome s r ((s.call r call).start r c)
  | filed {kind : StoreKind} : s.checkPostpone = false → kind ≠ .conf → ¬ IsChange r →
      Outcome s r ((s.store kind r none).start r none)

variable {r : Request} {s s' : State Conf} {q : List Request}

theorem not_isChange {t : Target} (h : route r.path = t)
    (ht : ∀ path, t ≠ .config path) : ¬ IsChange r := by
  rintro ⟨⟨path, hpath⟩, -⟩
  exact ht path (h.symm.trans hpath)

theorem Outcome.answer (h : ¬ IsChange r) (resp : Response Conf) : Outcome s r (s.respond r resp) :=
  .answered fun hr => absurd hr h

theorem ConfRefusal.response_status (refusal : ConfRefusal) :
    (refusal.response : Response Conf).status ≠ 200 := by
  cases refusal <;> simp [ConfRefusal.response, valueMissing, methodNotAllowed, allocFailed]

section

variable (env : Env Conf)
include env

theorem processConfig_outcome (s : State Conf) {path : Bytes} (h : route r.path = .config path) :
    Outcome s r (processConfig env s r path) := by
  unfold processConfig
  split
  case isTrue hget =>
    have hchange : ¬ IsChange r := fun hr => hr.2 hget
    split <;> exact .answer hchange _
  case isFalse hget =>
    have hchange : IsChange r := ⟨⟨path, h⟩, hget⟩
    split
    · exact .answered fun _ => by simp [methodNotAllowed]
    split
    · split
      · exact .postponed
      rename_i hfree
      split
      · rename_i refusal _
        exact .answered fun _ => refusal.response_status
      split
      · exact .called (by simpa using hfree) (.conf hchange)
      · exact .answered fun _ => by simp [allocFailed]
    · exact .answered fun _ => by simp [methodNotAllowed]

theorem processStatus_outcome (s : State Conf) (hchange : ¬ IsChange r) (h : AsksStatus r) :
    Outcome s r (processStatus env s r) := by
  unfold processStatus
  split
  · exact .postponed
  rename_i hfree
  split
  · exact .called (by simpa using hfree) (.status hchange h)
  · exact .answer hchange _

theorem fileStore_outcome (hchange : ¬ IsChange r) (hfree : s.checkPostpone = false)
    {kind : StoreKind} (hkind : kind ≠ .conf) (failed : String) :
    Outcome s r (fileStore env s kind failed r) := by
  unfold fileStore
  split
  · exact .filed hfree hkind hchange
  · exact .answer hchange _

theorem processFile_outcome (kind : FileKind) (s : State Conf) (hchange : ¬ IsChange r)
    (path : Bytes) : Outcome s r (processFile env kind s r path) := by
  unfold processFile
  split
  · split
    · exact .postponed
    · split <;> exact .answer hchange _
  split
  · exact .answer hchange _
  split
  · exact .postponed
  rename_i hfree
  have hfree : s.checkPostpone = false := by simpa using hfree
  split
  · split
    · exact .answer hchange _
    · exact fileStore_outcome env hchange hfree (by simp) _
  split
  · split
    · exact .answer hchange _
    · exact fileStore_outcome env hchange hfree (by simp) _
  · exact .answer hchange _

theorem processControl_outcome (s : State Conf) (hchange : ¬ IsChange r) (path : Bytes) :
    Outcome s r (processControl env s r path) := by
  unfold processControl
  split
  · exact .answer hchange _
  split
  · exact .answer hchange _
  split
  · exact .postponed
  rename_i hfree
  split
  · exact .answer hchange _
  split
  · exact .answer hchange _
  split
  · exact .called (by simpa using hfree) (.restart hchange)
  · exact .answer hchange _

theorem processRequest_outcome (status : Option Conf) (s : State Conf) (r : Request) :
    Outcome s r (processRequest env status s r) := by
  unfold processRequest
  split
  case h_1 path h => exact processConfig_outcome env s h
  case h_2 path h =>
    have hchange := not_isChange h (by simp)
    split
    · exact .answer hchange _
    rename_i hget
    split
    · exact processStatus_outcome env s hchange ⟨.inl ⟨path, h⟩, by simpa using hget⟩
    unfold statusResponse
    split <;> exact .answer hchange _
  case h_3 kind path h => exact processFile_outcome env kind s (not_isChange h (by simp)) path
  case h_4 path h => exact processControl_outcome env s (not_isChange h (by simp)) path
  case h_5 h =>
    have hchange := not_isChange h (by simp)
    split
    · exact .answer hchange _
    rename_i hget
    split
    · exact .postponed
    split
    · exact processStatus_outcome env s hchange ⟨.inr h, by simpa using hget⟩
    · split <;> exact .answer hchange _
  case h_6 h => exact .answer (not_isChange h (by simp)) _

/-- With a status at hand, a request for it is answered at once. -/
theorem processRequest_status (status : Conf) (h : AsksStatus r) (hstore : s.storeInFlight = false)
    : ∃ resp, processRequest env (some status) s r = s.respond r resp := by
  obtain ⟨⟨path, hpath⟩ | hroot, hget⟩ := h
  · unfold processRequest statusResponse
    simp only [hpath, hget, ne_eq, not_true_eq_false, if_false]
    split <;> exact ⟨_, rfl⟩
  unfold processRequest
  simp only [hroot, hget, hstore, ne_eq, not_true_eq_false, if_false, Bool.false_eq_true]
  split <;> exact ⟨_, rfl⟩

end

/-! ### The invariants -/

inductive Line (s : State Conf) : Prop where
  | idle : s.calls = [] → s.waitingInitConf = false → Line s
  | init {c : Conf} : s.calls = [.init c] → s.conf = some c → s.waitingInitConf = true → Line s
  /-- the request of the message is at the head of the queue -/
  | busy {call : Call Conf} {r : Request} {w : List Request} : s.calls = [call] →
      call.req = some r → s.waiting = r :: w → s.waitingInitConf = false → s.stores = [] →
      s.certStored = none → Line s

structure Serial (s : State Conf) : Prop where
  line : Line s
  ready : s.calls ≠ [] → s.routerReady = true ∧ s.routerPort = true
  flags : ∀ k, s.storing k = true ↔ ∃ x ∈ s.stores, x.kind = k
  one : s.stores.length ≤ 1
  cert : ∀ r, s.certStored = some r → s.stores = [] ∧ s.waitingInitConf = true
  greeted : s.routerReady = true → s.greeted = true

def State.held (s : State Conf) : List Request :=
  s.waiting ++ s.stores.map (·.req) ++ s.certStored.toList

def State.answered (s : State Conf) : List Request := s.answers.map (·.req)

/-- The requests that were sent to the router or to the main process. -/
def State.begun (s : State Conf) : List Request := s.started.map (·.1)

/-- A request is in one place, and is started and answered once; `q` are requests that
are taken out of the queue and not processed yet. -/
structure Ledger (s : State Conf) (q : List Request) : Prop where
  nodup : (s.held ++ q).Nodup
  pending : ∀ r ∈ s.held ++ q, r ∈ s.seen ∧ r ∉ s.answered
  answers : s.answered.Nodup
  answered_seen : ∀ r ∈ s.answered, r ∈ s.seen
  started : s.begun.Nodup
  begun_seen : ∀ r ∈ s.begun, r ∈ s.seen
  idle : ∀ r ∈ s.waiting, r ∈ s.begun → ∃ call ∈ s.calls, call.req = some r

/-- The answer to a change says success only if the configuration is current,
acknowledged and stored. -/
def Truthful (s : State Conf) (a : Answer Conf) : Prop :=
  IsChange a.req → a.resp.status = 200 → ∃ c, (a.req, some c) ∈ s.started ∧
    a.conf = some c ∧ a.acked = some c ∧ a.stored = some c

/-- The configurations of the controller, of the router and of the disk. -/
structure Agree (s : State Conf) : Prop where
  conf : ∀ r c, .conf r c ∈ s.calls → (r, some c) ∈ s.started
  status : ∀ r, .status r ∈ s.calls → AsksStatus r
  change : ∀ call ∈ s.calls, ∀ r, call.req = some r → IsChange r → ∃ c, call = .conf r c
  storing : ∀ x ∈ s.stores, x.kind = .conf → ∃ c, x.conf = some c ∧ (x.req, some c) ∈ s.started ∧
    s.conf = some c ∧ s.acked = some c
  files : ∀ x ∈ s.stores, x.kind ≠ .conf → ¬ IsChange x.req
  cert : ∀ r, s.certStored = some r → ¬ IsChange r
  success : ∀ a ∈ s.answers, Truthful s a

structure Inv (s : State Conf) (q : List Request) : Prop where
  serial : Serial s
  ledger : Ledger s q
  agree : Agree s

structure Free (s : State Conf) : Prop where
  waiting : s.waiting = []
  calls : s.calls = []
  stores : s.stores = []
  init : s.waitingInitConf = false
  cert : s.certStored = none
  ready : s.routerReady = true
  port : s.routerPort = true

theorem Serial.stores_nil (h : Serial s) (hs : s.storeInFlight = false) : s.stores = [] := by
  rw [eq_nil_iff_forall_not_mem]
  intro x hx
  have hflag : s.storing x.kind = true := (h.flags x.kind).mpr ⟨x, hx, rfl⟩
  simp only [State.storeInFlight, Bool.or_eq_false_iff] at hs
  obtain ⟨⟨⟨⟨hconf, hcert⟩, hcertDelete⟩, hscript⟩, hscriptDelete⟩ := hs
  cases hk : x.kind with
  | conf => simp [hk, hconf] at hflag
  | put kind => cases kind <;> simp [hk, hcert, hscript] at hflag
  | delete kind => cases kind <;> simp [hk, hcertDelete, hscriptDelete] at hflag

theorem Serial.storeInFlight_eq_false (h : Serial s) (hs : s.stores = []) :
    s.storeInFlight = false := by
  have hflag (k : StoreKind) : s.storing k = false := by
    rw [← Bool.not_eq_true, h.flags k, hs]
    simp
  simp [State.storeInFlight, hflag]

theorem Serial.free (h : Serial s) (hp : s.checkPostpone = false) : Free s := by
  simp only [State.checkPostpone, Bool.or_eq_false_iff, List.isEmpty_iff,
    Bool.not_eq_eq_eq_not, Bool.not_false] at hp
  obtain ⟨⟨⟨⟨hwaiting, hstore⟩, hinit⟩, hready⟩, hport⟩ := hp
  refine ⟨hwaiting, ?_, h.stores_nil hstore, hinit, ?_, hready, hport⟩
  · cases h.line with
    | idle hcalls _ => exact hcalls
    | init _ _ hw => simp [hinit] at hw
    | busy _ _ hw _ _ _ => simp [hwaiting] at hw
  · cases hc : s.certStored with
    | none => rfl
    | some r => exact absurd (h.cert r hc).2 (by simp [hinit])

/-! ### One operation -/

theorem Line.congr (h : Line s) (hcalls : s'.calls = s.calls)
    (hinit : s'.waitingInitConf = s.waitingInitConf) (hconf : s'.conf = s.conf)
    (hwaiting : ∃ l, s'.waiting = s.waiting ++ l) (hstores : s'.stores = s.stores)
    (hcert : s'.certStored = s.certStored) : Line s' := by
  obtain ⟨l, hl⟩ := hwaiting
  cases h with
  | idle h1 h2 => exact .idle (hcalls.trans h1) (hinit.trans h2)
  | init h1 h2 h3 => exact .init (hcalls.trans h1) (hconf.trans h2) (hinit.trans h3)
  | @busy call r w h1 h2 h3 h4 h5 h6 => ?_
  have hw : s'.waiting = r :: (w ++ l) := by rw [hl, h3, cons_append]
  exact .busy (hcalls.trans h1) h2 hw (hinit.trans h4) (hstores.trans h5) (hcert.trans h6)

theorem Serial.respond (h : Serial s) (r : Request) (resp : Response Conf) :
    Serial (s.respond r resp) :=
  ⟨h.line.congr rfl rfl rfl ⟨[], (append_nil _).symm⟩ rfl rfl, h.ready, h.flags, h.one,
    h.cert, h.greeted⟩

theorem Serial.postpone (h : Serial s) (r : Request) : Serial (s.postpone r) :=
  ⟨h.line.congr rfl rfl rfl ⟨[r], rfl⟩ rfl rfl, h.ready, h.flags, h.one, h.cert, h.greeted⟩

theorem Serial.start (h : Serial s) (r : Request) (c : Option Conf) : Serial (s.start r c) :=
  ⟨h.line.congr rfl rfl rfl ⟨[], (append_nil _).symm⟩ rfl rfl, h.ready, h.flags, h.one,
    h.cert, h.greeted⟩

theorem Serial.call (h : Serial s) (hcalls : s.calls = []) (hstores : s.stores = [])
    (hinit : s.waitingInitConf = false) (hcert : s.certStored = none) (hready : s.routerReady = true)
    (hport : s.routerPort = true) {call : Call Conf} (hreq : call.req = some r) :
    Serial (s.call r call) where
  line := by
    refine .busy ?_ hreq rfl hinit hstores hcert
    show s.calls ++ [call] = [call]
    rw [hcalls, nil_append]
  ready := fun _ => ⟨hready, hport⟩
  flags := h.flags
  one := h.one
  cert := h.cert
  greeted := h.greeted

theorem Serial.store (h : Serial s) (hcalls : ∀ call ∈ s.calls, call.req = none)
    (hstores : s.stores = []) (hcert : s.certStored = none) (kind : StoreKind) (r : Request)
    (c : Option Conf) : Serial (s.store kind r c) where
  line := by
    cases h.line with
    | idle h1 h2 => exact .idle h1 h2
    | init h1 h2 h3 => exact .init h1 h2 h3
    | busy h1 h2 => ?_
    rw [hcalls _ (h1 ▸ mem_singleton_self _)] at h2
    cases h2
  ready := h.ready
  flags := by
    intro k
    show update s.storing kind true k = true ↔ ∃ x ∈ s.stores ++ [⟨kind, r, c⟩], x.kind = k
    rw [hstores, nil_append]
    by_cases hk : k = kind
    · subst hk
      simp
    have hflag : s.storing k = false := by
      rw [← Bool.not_eq_true, h.flags k, hstores]
      simp
    simp [update_of_ne hk, hflag, Ne.symm hk]
  one := by
    show (s.stores ++ [_]).length ≤ 1
    simp [hstores]
  cert := by
    intro r' hr'
    exact absurd (hcert.symm.trans hr') (by simp)
  greeted := h.greeted

theorem Ledger.of_perm {q' : List Request} (h : Ledger s q)
    (hperm : (s'.held ++ q').Perm (s.held ++ q)) (hseen : s'.seen = s.seen)
    (hanswers : s'.answers = s.answers) (hstarted : s'.started = s.started)
    (hidle : ∀ r ∈ s'.waiting, r ∈ s.begun → ∃ call ∈ s'.calls, call.req = some r) :
    Ledger s' q' where
  nodup := hperm.nodup_iff.mpr h.nodup
  pending := by
    intro r hr
    rw [hseen, State.answered, hanswers]
    exact h.pending r (hperm.mem_iff.mp hr)
  answers := by
    rw [State.answered, hanswers]
    exact h.answers
  answered_seen := by
    rw [State.answered, hanswers, hseen]
    exact h.answered_seen
  started := by
    rw [State.begun, hstarted]
    exact h.started
  begun_seen := by
    rw [State.begun, hstarted, hseen]
    exact h.begun_seen
  idle := by
    rw [State.begun, hstarted]
    exact hidle

theorem Ledger.respond (h : Ledger s (r :: q))
    (resp : Response Conf) : Ledger (s.respond r resp) q := by
  have hr := h.pending r (by simp)
  have hanswered : (s.respond r resp).answered = s.answered ++ [r] := by
    simp [State.answered, State.respond]
  obtain ⟨hrq, hnodup⟩ := nodup_cons.mp (nodup_middle.mp h.nodup)
  refine ⟨hnodup, ?_, ?_, ?_, h.started, h.begun_seen, h.idle⟩
  · intro r' hr'
    have hold := h.pending r' (perm_middle.mem_iff.mpr (mem_cons_of_mem _ hr'))
    refine ⟨hold.1, ?_⟩
    rw [hanswered, mem_append, mem_singleton, not_or]
    refine ⟨hold.2, ?_⟩
    rintro rfl
    exact hrq hr'
  · rw [hanswered, nodup_append_comm]
    exact nodup_cons.mpr ⟨hr.2, h.answers⟩
  · intro r' hr'
    rw [hanswered, mem_append, mem_singleton] at hr'
    rcases hr' with hr' | rfl
    · exact h.answered_seen r' hr'
    · exact hr.1

theorem Ledger.start (h : Ledger s q) (hr : r ∈ s.held ++ q) (hnew : r ∉ s.begun)
    (hcall : r ∈ s.waiting → ∃ call ∈ s.calls, call.req = some r) (c : Option Conf) :
    Ledger (s.start r c) q := by
  have hbegun : (s.start r c).begun = s.begun ++ [r] := by
    simp [State.begun, State.start]
  refine ⟨h.nodup, h.pending, h.answers, h.answered_seen, ?_, ?_, ?_⟩
  · rw [hbegun, nodup_append_comm]
    exact nodup_cons.mpr ⟨hnew, h.started⟩
  · intro r' hr'
    rw [hbegun, mem_append, mem_singleton] at hr'
    rcases hr' with hr' | rfl
    · exact h.begun_seen r' hr'
    · exact (h.pending r' hr).1
  · intro r' hwaiting hr'
    rw [hbegun, mem_append, mem_singleton] at hr'
    rcases hr' with hr' | rfl
    · exact h.idle r' hwaiting hr'
    · exact hcall hwaiting

theorem Ledger.postpone (h : Ledger s (r :: q)) (hnew : r ∉ s.begun) : Ledger (s.postpone r) q := by
  refine h.of_perm ?_ rfl rfl rfl ?_
  · rw [perm_iff_count]
    intro a
    simp only [State.held, State.postpone, count_append, count_cons, count_nil]
    omega
  · intro r' hr' hbegun
    obtain hr' | hr' := mem_append.mp hr'
    · exact h.idle r' hr' hbegun
    rw [mem_singleton.mp hr'] at hbegun
    exact absurd hbegun hnew

theorem Ledger.call (h : Ledger s (r :: q))
    {call : Call Conf} (hreq : call.req = some r) : Ledger (s.call r call) q := by
  refine h.of_perm ?_ rfl rfl rfl ?_
  · rw [perm_iff_count]
    intro a
    simp only [State.held, State.call, count_append, count_cons]
    omega
  · intro r' hr' hbegun
    obtain rfl | hr' := mem_cons.mp hr'
    · exact ⟨call, mem_append_right _ (mem_singleton_self _), hreq⟩
    obtain ⟨call', hcall', hreq'⟩ := h.idle r' hr' hbegun
    exact ⟨call', mem_append_left _ hcall', hreq'⟩

theorem Ledger.store (h : Ledger s (r :: q))
    (kind : StoreKind) (c : Option Conf) : Ledger (s.store kind r c) q := by
  refine h.of_perm ?_ rfl rfl rfl h.idle
  rw [perm_iff_count]
  intro a
  simp only [State.held, State.store, map_append, map_cons, map_nil,
    count_append, count_cons, count_nil]
  omega

theorem Truthful.mono {a : Answer Conf} (h : Truthful s a)
    (hsub : s.started ⊆ s'.started) : Truthful s' a := by
  intro hchange hstatus
  obtain ⟨c, hc, hrest⟩ := h hchange hstatus
  exact ⟨c, hsub hc, hrest⟩

variable {resp : Response Conf}

section

variable (h : Agree s)
include h

theorem Agree.respond (hnew : Truthful s ⟨r, resp, s.conf, s.acked, s.stored⟩) :
    Agree (s.respond r resp) := by
  refine ⟨h.conf, h.status, h.change, h.storing, h.files, h.cert, ?_⟩
  intro a ha
  obtain ha | ha := mem_append.mp ha
  · exact h.success a ha
  rw [mem_singleton.mp ha]
  exact hnew

theorem Agree.postpone (r : Request) : Agree (s.postpone r) :=
  ⟨h.conf, h.status, h.change, h.storing, h.files, h.cert, h.success⟩

theorem Agree.start (r : Request) (c : Option Conf) : Agree (s.start r c) := by
  have hsub : s.started ⊆ (s.start r c).started := subset_append_left _ _
  refine ⟨fun r' c' hc => hsub (h.conf r' c' hc), h.status, h.change, ?_, h.files, h.cert,
    fun a ha => (h.success a ha).mono hsub⟩
  intro x hx hk
  obtain ⟨c', hc', hstarted, hrest⟩ := h.storing x hx hk
  exact ⟨c', hc', hsub hstarted, hrest⟩

theorem Agree.call {call : Call Conf} {c : Option Conf} (hstarts : Starts r call c) :
    Agree ((s.call r call).start r c) := by
  have hsub : s.started ⊆ s.started ++ [(r, c)] := subset_append_left _ _
  have hmem (call' : Call Conf) (h' : call' ∈ s.calls ++ [call]) : call' ∈ s.calls ∨ call' = call :=
    (mem_append.mp h').imp_right mem_singleton.mp
  refine ⟨?_, ?_, ?_, ?_, h.files, h.cert, fun a ha => (h.success a ha).mono hsub⟩
  · intro r' c' hcall
    obtain hcall | rfl := hmem _ hcall
    · exact hsub (h.conf r' c' hcall)
    cases hstarts
    exact mem_append_right _ (mem_singleton_self _)
  · intro r' hcall
    obtain hcall | rfl := hmem _ hcall
    · exact h.status r' hcall
    cases hstarts
    assumption
  · intro call' hcall r' hreq hchange
    obtain hcall | rfl := hmem _ hcall
    · exact h.change call' hcall r' hreq hchange
    cases hstarts with
    | conf _ =>
      cases hreq
      exact ⟨_, rfl⟩
    | status hno _ =>
      cases hreq
      exact absurd hchange hno
    | restart hno => ?_
    cases hreq
    exact absurd hchange hno
  · intro x hx hk
    obtain ⟨c', hc', hstarted, hrest⟩ := h.storing x hx hk
    exact ⟨c', hc', hsub hstarted, hrest⟩

theorem Agree.certCall (hno : ¬ IsChange r) (c : Conf) : Agree (s.call r (.certApply r c)) := by
  have hmem (call' : Call Conf) (h' : call' ∈ s.calls ++ [.certApply r c]) :
      call' ∈ s.calls ∨ call' = .certApply r c :=
    (mem_append.mp h').imp_right mem_singleton.mp
  refine ⟨?_, ?_, ?_, h.storing, h.files, h.cert, h.success⟩
  · intro r' c' hcall
    obtain hcall | hcall := hmem _ hcall
    · exact h.conf r' c' hcall
    · cases hcall
  · intro r' hcall
    obtain hcall | hcall := hmem _ hcall
    · exact h.status r' hcall
    · cases hcall
  · intro call' hcall r' hreq hchange
    obtain hcall | rfl := hmem _ hcall
    · exact h.change call' hcall r' hreq hchange
    cases hreq
    exact absurd hchange hno

theorem Agree.store {kind : StoreKind} {c : Option Conf}
    (hconf : kind = .conf → ∃ c', c = some c' ∧ (r, some c') ∈ s.started ∧ s.conf = some c' ∧ s.acked = some c')
    (hfile : kind ≠ .conf → ¬ IsChange r) : Agree (s.store kind r c) := by
  refine ⟨h.conf, h.status, h.change, ?_, ?_, h.cert, h.success⟩
  · intro x hx hk
    obtain hx | hx := mem_append.mp hx
    · exact h.storing x hx hk
    rw [mem_singleton.mp hx] at hk ⊢
    exact hconf hk
  · intro x hx hk
    obtain hx | hx := mem_append.mp hx
    · exact h.files x hx hk
    rw [mem_singleton.mp hx] at hk ⊢
    exact hfile hk

end

/-! ### The queue -/

theorem Inv.respond (h : Inv s (r :: q)) (hnew : Truthful s ⟨r, resp, s.conf, s.acked, s.stored⟩) :
    Inv (s.respond r resp) q :=
  ⟨h.serial.respond r resp, h.ledger.respond resp, h.agree.respond hnew⟩

/-- **One request.** -/
theorem Inv.outcome (h : Inv s (r :: q)) (hnew : r ∉ s.begun) (ho : Outcome s r s') : Inv s' q := by
  cases ho with
  | answered hresp => exact h.respond fun hchange hstatus => absurd hstatus (hresp hchange)
  | postponed => exact ⟨h.serial.postpone r, h.ledger.postpone hnew, h.agree.postpone r⟩
  | @called call c hfree hstarts =>
    have hs := h.serial.free hfree
    have hreq : call.req = some r := by cases hstarts <;> rfl
    have hledger := h.ledger.call hreq
    refine ⟨(h.serial.call hs.calls hs.stores hs.init hs.cert hs.ready hs.port hreq).start r c,
      hledger.start ?_ hnew (fun _ => ?_) c, h.agree.call hstarts⟩
    · simp [State.held, State.call]
    · exact ⟨call, mem_append_right _ (mem_singleton_self _), hreq⟩
  | @filed kind hfree hkind hno => ?_
  have hs := h.serial.free hfree
  refine ⟨(h.serial.store (by simp [hs.calls]) hs.stores hs.cert kind r none).start r none,
    (h.ledger.store kind none).start ?_ hnew (fun hw => ?_) none,
    (h.agree.store (fun hk => absurd hk hkind) (fun _ => hno)).start r none⟩
  · simp [State.held, State.store]
  rw [show (s.store kind r none).waiting = [] from hs.waiting] at hw
  exact absurd hw not_mem_nil

theorem Outcome.begun {r' : Request} (ho : Outcome s r s')
    (h : r' ∈ s'.begun) : r' ∈ s.begun ∨ r' = r := by
  cases ho with
  | answered | postponed => exact .inl h
  | called _ _ => simpa [State.begun, State.start, State.call] using h
  | filed _ _ _ => simpa [State.begun, State.start, State.store] using h

/-- **The run of a queue**, by induction over the requests in it. -/
theorem Inv.process (env : Env Conf) (status : Option Conf) :
    ∀ {s : State Conf}, Inv s q → (∀ r ∈ q, r ∉ s.begun) →
      Inv (q.foldl (processRequest env status) s) [] := by
  induction q with
  | nil => exact fun h _ => h
  | cons r q ih => ?_
  intro s h hnew
  rw [foldl_cons]
  have ho := processRequest_outcome env status s r
  refine ih (h.outcome (hnew r mem_cons_self) ho) ?_
  intro r' hr' hbegun
  obtain hold | rfl := ho.begun hbegun
  · exact hnew r' (mem_cons_of_mem _ hr') hold
  have hnodup := (nodup_append.mp h.ledger.nodup).2.1
  exact (nodup_cons.mp hnodup).1 hr'

def Quiet (s : State Conf) : Prop := ∀ call ∈ s.calls, call.req = none

theorem Line.withoutQueue (h : Line s) (hq : Quiet s) : Line { s with waiting := [] } := by
  cases h with
  | idle h1 h2 => exact .idle h1 h2
  | init h1 h2 h3 => exact .init h1 h2 h3
  | busy h1 h2 => ?_
  rw [hq _ (h1 ▸ mem_singleton_self _)] at h2
  cases h2

theorem Inv.takeQueue (h : Inv s q) (hq : Quiet s) :
    Inv { s with waiting := [] } (q ++ s.waiting) := by
  refine ⟨⟨h.serial.line.withoutQueue hq, h.serial.ready, h.serial.flags, h.serial.one,
    h.serial.cert, h.serial.greeted⟩, h.ledger.of_perm ?_ rfl rfl rfl ?_,
    ⟨h.agree.conf, h.agree.status, h.agree.change, h.agree.storing, h.agree.files, h.agree.cert,
      h.agree.success⟩⟩
  · rw [perm_iff_count]
    intro a
    simp only [State.held, count_append, count_nil]
    omega
  · exact fun r hr => absurd hr not_mem_nil

theorem Inv.not_begun (h : Inv s q) (hq : Quiet s) : ∀ r ∈ s.waiting, r ∉ s.begun := by
  intro r hr hbegun
  obtain ⟨call, hcall, hreq⟩ := h.ledger.idle r hr hbegun
  exact absurd ((hq call hcall).symm.trans hreq) (by simp)

theorem Inv.flush (h : Inv s []) (hq : Quiet s) (env : Env Conf)
    (status : Option Conf) : Inv (flushRequests env status s) [] :=
  (h.takeQueue hq).process env status (h.not_begun hq)

theorem Inv.finish (h : Inv s [r]) (hq : Quiet s) (env : Env Conf)
    (hnew : Truthful s ⟨r, resp, s.conf, s.acked, s.stored⟩) : Inv (s.finish env r resp) [] :=
  (h.respond hnew).flush hq env none

/-- An answer that does not say success, or is to another request. -/
theorem Truthful.of_status {a : Answer Conf}
    (h : IsChange a.req → a.resp.status ≠ 200) : Truthful s a :=
  fun hchange hstatus => absurd hstatus (h hchange)

/-! ### Answers -/

structure Rest (s : State Conf) : Prop where
  calls : s.calls = []
  stores : s.stores = []
  init : s.waitingInitConf = false
  cert : s.certStored = none

theorem Rest.quiet (h : Rest s) : Quiet s := by
  intro call hcall
  rw [h.calls] at hcall
  exact absurd hcall not_mem_nil

/-- Where nothing is being stored, a new configuration contradicts no store. -/
theorem Inv.setConfs (h : Inv s q) (hrest : Rest s)
    (conf acked : Option Conf) : Inv { s with conf := conf, acked := acked } q := by
  refine ⟨⟨.idle hrest.calls hrest.init, h.serial.ready, h.serial.flags, h.serial.one,
    h.serial.cert, h.serial.greeted⟩, h.ledger.of_perm (.refl _) rfl rfl rfl h.ledger.idle,
    ⟨h.agree.conf, h.agree.status, h.agree.change, ?_, h.agree.files, h.agree.cert,
      h.agree.success⟩⟩
  intro x hx
  exact absurd hx (by simp [hrest.stores])

theorem Inv.certApply (h : Inv s [r]) (hrest : Rest s)
    (hno : ¬ IsChange r) (env : Env Conf) : Inv (certApply env s r) [] := by
  have hfinish (resp : Response Conf) : Inv (s.finish env r resp) [] :=
    h.finish hrest.quiet env (.of_status fun hchange => absurd hchange hno)
  unfold Controller.certApply
  split
  · split
    · rename_i conf _ hrouter
      split
      · exact ⟨h.serial.call hrest.calls hrest.stores hrest.init hrest.cert hrouter.2.1 hrouter.2.2 rfl,
          h.ledger.call rfl, h.agree.certCall hno conf⟩
      · exact hfinish _
    · exact hfinish _
  · exact hfinish _

/-- The answer to the message that is out has come, or the router is gone. -/
def State.cut (s : State Conf) (ready greeted : Bool) : State Conf :=
  { s with calls := [], routerReady := ready, greeted := greeted }

variable {call : Call Conf}

section Cut

variable {s : State Conf} {ready greeted : Bool}

theorem Inv.cut_busy (h : Inv s []) (hg : ready = true → greeted = true) (hcalls : s.calls = [call])
    (hreq : call.req = some r) : Inv { s.cut ready greeted with waiting := s.waiting.erase r } [r] ∧
      Rest { s.cut ready greeted with waiting := s.waiting.erase r } := by
  cases h.serial.line with
  | idle h1 => simp [hcalls] at h1
  | init h1 =>
    rw [hcalls] at h1
    cases h1
    cases hreq
  | @busy call' r' w h1 h2 h3 h4 h5 h6 => ?_
  rw [hcalls] at h1
  cases h1
  obtain rfl : r' = r := some.inj (h2.symm.trans hreq)
  have hw : s.waiting.erase r' = w := by rw [h3, erase_cons_head]
  have hnodup : (r' :: w).Nodup := by
    have := (nodup_append.mp (nodup_append.mp h.ledger.nodup).1).1
    rw [← h3]
    exact (nodup_append.mp this).1
  rw [hw]
  refine ⟨⟨⟨.idle rfl h4, fun hne => absurd rfl hne, h.serial.flags, h.serial.one, h.serial.cert,
    hg⟩, h.ledger.of_perm ?_ rfl rfl rfl ?_, ⟨nofun, nofun, nofun, h.agree.storing, h.agree.files,
    h.agree.cert, h.agree.success⟩⟩, ⟨rfl, h5, h4, h6⟩⟩
  · rw [perm_iff_count]
    intro a
    simp only [State.held, State.cut, h3, count_append, count_cons, count_nil]
    omega
  intro r hr hbegun
  obtain ⟨call', hcall', hreq'⟩ := h.ledger.idle r (h3 ▸ mem_cons_of_mem _ hr) hbegun
  rw [hcalls, mem_singleton] at hcall'
  rw [hcall', hreq] at hreq'
  cases hreq'
  exact absurd hr (nodup_cons.mp hnodup).1

variable {c : Conf}

theorem Inv.confHandler (h : Inv s []) (hg : ready = true → greeted = true)
    (hcalls : s.calls = [.conf r c]) (env : Env Conf) (ok : Bool) :
    Inv (confHandler env (s.cut ready greeted) r c ok) [] := by
  obtain ⟨hinv, hrest⟩ := h.cut_busy hg hcalls rfl
  have hstarted : (r, some c) ∈ s.started := h.agree.conf r c (by simp [hcalls])
  unfold Controller.confHandler
  dsimp only
  split
  · have hready := hinv.setConfs hrest (some c) (some c)
    split
    · exact ⟨hready.serial.store nofun hrest.stores hrest.cert .conf r (some c),
        hready.ledger.store .conf (some c),
        hready.agree.store (fun _ => ⟨c, rfl, hstarted, rfl, rfl⟩) (fun hk => absurd rfl hk)⟩
    · exact hready.finish nofun env (.of_status fun _ => by simp)
  · exact hinv.finish hrest.quiet env (.of_status fun _ => by simp)

theorem Inv.certApplyHandler (h : Inv s []) (hg : ready = true → greeted = true)
    (hcalls : s.calls = [.certApply r c]) (env : Env Conf) (ok : Bool) :
    Inv (certApplyHandler env (s.cut ready greeted) r c ok) [] := by
  obtain ⟨hinv, hrest⟩ := h.cut_busy hg hcalls rfl
  have hno : ¬ IsChange r := by
    intro hchange
    obtain ⟨c', hc'⟩ := h.agree.change (.certApply r c) (by simp [hcalls]) r rfl hchange
    cases hc'
  unfold Controller.certApplyHandler
  dsimp only
  split
  · have hready := hinv.setConfs hrest s.conf (some c)
    exact hready.finish nofun env (.of_status fun hchange => absurd hchange hno)
  · exact hinv.finish hrest.quiet env (.of_status fun hchange => absurd hchange hno)

theorem Inv.appRestartHandler (h : Inv s []) (hg : ready = true → greeted = true)
    (hcalls : s.calls = [.restart r]) (env : Env Conf) (ok : Bool) :
    Inv (appRestartHandler env (s.cut ready greeted) r ok) [] := by
  obtain ⟨hinv, hrest⟩ := h.cut_busy hg hcalls rfl
  refine hinv.finish hrest.quiet env (.of_status fun hchange => ?_)
  obtain ⟨c', hc'⟩ := h.agree.change (.restart r) (by simp [hcalls]) r rfl hchange
  cases hc'

/-- With a status, the request at the head of the queue is answered by the run of the
queue; it is the only one in it that was started. -/
theorem Inv.statusHandler (h : Inv s []) (hg : ready = true → greeted = true)
    (hcalls : s.calls = [.status r]) (env : Env Conf) (ok : Bool) :
    Inv (statusHandler env (s.cut ready greeted) r ok) [] := by
  obtain ⟨hinv, hrest⟩ := h.cut_busy hg hcalls rfl
  have hno : ¬ IsChange r := by
    intro hchange
    obtain ⟨c', hc'⟩ := h.agree.change (.status r) (by simp [hcalls]) r rfl hchange
    cases hc'
  unfold Controller.statusHandler
  split
  · rename_i status _
    obtain ⟨w, hw⟩ : ∃ w, s.waiting = r :: w := by
      cases h.serial.line with
      | idle h1 => simp [hcalls] at h1
      | init h1 => simp [hcalls] at h1
      | @busy call' r' w h1 h2 h3 => ?_
      rw [hcalls] at h1
      cases h1
      cases h2
      exact ⟨w, h3⟩
    have hqueue := hinv.takeQueue hrest.quiet
    have hnew := hinv.not_begun hrest.quiet
    have herase : s.waiting.erase r = w := by rw [hw, erase_cons_head]
    have hstore := hqueue.serial.storeInFlight_eq_false hrest.stores
    obtain ⟨resp, hresp⟩ := processRequest_status env status
      (h.agree.status r (by simp [hcalls])) hstore
    rw [flushRequests, show (s.cut ready greeted).waiting = r :: w from hw, foldl_cons, ← herase]
    have hanswered : Inv (State.respond _ r resp) _ :=
      hqueue.respond (.of_status fun hchange => absurd hchange hno)
    exact hresp ▸ hanswered.process env (some status) hnew
  · exact hinv.finish hrest.quiet env (.of_status fun hchange => absurd hchange hno)

theorem Inv.confInitHandler (h : Inv s []) (hg : ready = true → greeted = true)
    (hcalls : s.calls = [.init c]) (env : Env Conf) {ok : Bool}
    (hok : s.storing .conf = true → ok = true) :
    Inv (confInitHandler env (s.cut ready greeted) c ok) [] := by
  cases h.serial.line with
  | idle h1 => simp [hcalls] at h1
  | busy h1 h2 =>
    rw [hcalls] at h1
    cases h1
    cases h2
  | init h1 hconf hinit => ?_
  rw [hcalls] at h1
  cases h1
  -- the state in which a stored certificate is applied or the queue is run
  have hinv (conf acked : Option Conf) (hstoring : ∀ x ∈ s.stores, x.kind = .conf →
      conf = s.conf ∧ acked = s.conf) : Inv { s.cut ready greeted with
        waitingInitConf := false, listening := true, conf := conf, acked := acked,
        certStored := none } s.certStored.toList := by
    refine ⟨⟨.idle rfl rfl, nofun, h.serial.flags, h.serial.one, nofun, hg⟩,
      h.ledger.of_perm ?_ rfl rfl rfl ?_,
      ⟨nofun, nofun, nofun, ?_, h.agree.files, nofun, h.agree.success⟩⟩
    · simp only [State.held, State.cut, append_nil, toList_none]
      exact .refl _
    · intro r hr hbegun
      obtain ⟨call, hcall, hreq⟩ := h.ledger.idle r hr hbegun
      rw [hcalls, mem_singleton] at hcall
      subst hcall
      cases hreq
    intro x hx hk
    obtain ⟨c', hc', hstarted, hconf', -⟩ := h.agree.storing x hx hk
    obtain ⟨h1, h2⟩ := hstoring x hx hk
    exact ⟨c', hc', hstarted, h1.trans hconf', h2.trans hconf'⟩
  have hgo (conf acked : Option Conf) (hstoring : ∀ x ∈ s.stores, x.kind = .conf →
      conf = s.conf ∧ acked = s.conf) {s' : State Conf}
      (hs' : s' = s.certStored.elim (flushRequests env none) (fun r s => Controller.certApply env s r)
        { s.cut ready greeted with
          waitingInitConf := false, listening := true, conf := conf, acked := acked,
          certStored := none }) : Inv s' [] := by
    have hinv := hinv conf acked hstoring
    rw [hs']
    cases hcert : s.certStored with
    | some r =>
      rw [hcert] at hinv
      have hrest := (h.serial.cert r hcert).1
      exact hinv.certApply ⟨rfl, hrest, rfl, rfl⟩ (h.agree.cert r hcert) env
    | none => ?_
    rw [hcert] at hinv
    exact hinv.flush nofun env none
  cases ok with
  | true =>
    refine hgo s.conf (some c) (fun _ _ _ => ⟨rfl, hconf.symm⟩) ?_
    cases hcert : s.certStored <;> simp [Controller.confInitHandler, State.cut, hcert]
  | false => ?_
  refine hgo (some env.default) s.acked (fun x hx hk => ?_) ?_
  · exact absurd (hok ((h.serial.flags .conf).mpr ⟨x, hx, hk⟩)) (by decide)
  · cases hcert : s.certStored <;> simp [Controller.confInitHandler, State.cut, State.fallBack, hcert]

end Cut

/-- **An answer of the router**, or its death. -/
theorem Inv.answerCall {ready greeted : Bool} (h : Inv s []) (hg : ready = true → greeted = true)
    (hcalls : s.calls = [call]) (env : Env Conf) {ok : Bool}
    (hok : ∀ c, call = .init c → s.storing .conf = true → ok = true) :
    Inv (answerCall env (s.cut ready greeted) ok call) [] := by
  cases call with
  | init c => exact h.confInitHandler hg hcalls env (hok c rfl)
  | conf r c => exact h.confHandler hg hcalls env ok
  | certApply r c => exact h.certApplyHandler hg hcalls env ok
  | status r => exact h.statusHandler hg hcalls env ok
  | restart r => exact h.appRestartHandler hg hcalls env ok

/-- **An answer of the main process.** -/
theorem Inv.answerStore (h : Inv s []) {x : Store Conf} (hstores : s.stores = [x])
    (env : Env Conf) (ok : Bool) : Inv (answerStore env { s with stores := [] } ok x) [] := by
  have hcert : s.certStored = none := by
    cases hc : s.certStored with
    | none => rfl
    | some r => exact absurd (h.serial.cert r hc).1 (by simp [hstores])
  have hquiet : Quiet s := by
    intro call hcall
    cases h.serial.line with
    | idle h1 => exact absurd hcall (by simp [h1])
    | init h1 =>
      rw [h1, mem_singleton] at hcall
      rw [hcall]
      rfl
    | busy _ _ _ _ h5 => exact absurd h5 (by simp [hstores])
  have hflags (k : StoreKind) : update s.storing x.kind false k = false := by
    by_cases hk : k = x.kind
    · rw [hk, update_self]
    rw [update_of_ne hk, ← Bool.not_eq_true, h.serial.flags k, hstores]
    simpa using Ne.symm hk
  have hinv : Inv { s with stores := [], storing := update s.storing x.kind false }
      [x.req] := by
    refine ⟨⟨?_, h.serial.ready, fun k => by simp [hflags], by simp, ?_, h.serial.greeted⟩,
      h.ledger.of_perm ?_ rfl rfl rfl h.ledger.idle,
      ⟨h.agree.conf, h.agree.status, h.agree.change, nofun, nofun, h.agree.cert, h.agree.success⟩⟩
    · cases h.serial.line with
      | idle h1 h2 => exact .idle h1 h2
      | init h1 h2 h3 => exact .init h1 h2 h3
      | busy _ _ _ _ h5 => exact absurd h5 (by simp [hstores])
    · intro r hr
      exact absurd (hcert.symm.trans hr) (by simp)
    simp only [State.held, hstores, hcert]
    simp
  have hfinish (resp : Response Conf) (hresp : IsChange x.req → resp.status ≠ 200) :
      Inv (State.finish env { s with
        stores := [], storing := update s.storing x.kind false } x.req resp) [] :=
    hinv.finish hquiet env (.of_status hresp)
  unfold Controller.answerStore
  dsimp only
  cases hk : x.kind with
  | conf =>
    obtain ⟨c, hc, hstarted, hconf, hacked⟩ := h.agree.storing x (by simp [hstores]) hk
    simp only [hk] at hinv hfinish
    cases ok with
    | true =>
      have hstored : Inv { s with
          stores := [], storing := update s.storing .conf false, stored := x.conf }
          [x.req] :=
        ⟨⟨hinv.serial.line.congr rfl rfl rfl ⟨[], (append_nil _).symm⟩ rfl rfl,
          hinv.serial.ready, hinv.serial.flags, hinv.serial.one, hinv.serial.cert,
          hinv.serial.greeted⟩, hinv.ledger.of_perm (.refl _) rfl rfl rfl hinv.ledger.idle,
          ⟨hinv.agree.conf, hinv.agree.status, hinv.agree.change, nofun, nofun, hinv.agree.cert,
            hinv.agree.success⟩⟩
      exact hstored.finish hquiet env fun _ _ => ⟨c, hstarted, hconf, hacked, hc⟩
    | false => exact hfinish _ fun _ => by simp
  | put kind =>
    have hno : ¬ IsChange x.req := h.agree.files x (by simp [hstores]) (by simp [hk])
    simp only [hk] at hinv hfinish
    cases ok with
    | false => exact hfinish _ fun hchange => absurd hchange hno
    | true => ?_
    cases kind with
    | script => exact hfinish _ fun hchange => absurd hchange hno
    | cert => ?_
    simp only [if_true]
    split
    · rename_i hinit
      refine ⟨⟨?_, hinv.serial.ready, hinv.serial.flags, hinv.serial.one,
        fun _ _ => ⟨rfl, hinit⟩, hinv.serial.greeted⟩,
        hinv.ledger.of_perm ?_ rfl rfl rfl hinv.ledger.idle,
        ⟨hinv.agree.conf, hinv.agree.status, hinv.agree.change, nofun, nofun, ?_,
          hinv.agree.success⟩⟩
      · cases h.serial.line with
        | idle h1 h2 => exact .idle h1 h2
        | init h1 h2 h3 => exact .init h1 h2 h3
        | busy _ _ _ _ h5 => exact absurd h5 (by simp [hstores])
      · simp only [State.held, hcert]
        simp
      intro r hr
      rw [← some.inj hr]
      exact hno
    rename_i hinit
    refine hinv.certApply ⟨?_, rfl, by simpa using hinit, hcert⟩ hno env
    cases h.serial.line with
    | idle h1 => exact h1
    | init _ _ h3 => exact absurd h3 hinit
    | busy _ _ _ _ h5 => exact absurd h5 (by simp [hstores])
  | delete kind =>
    have hno : ¬ IsChange x.req := h.agree.files x (by simp [hstores]) (by simp [hk])
    simp only [hk] at hfinish
    cases ok <;> exact hfinish _ fun hchange => absurd hchange hno

/-! ### Routers -/

variable {env : Env Conf}

theorem Inv.sendCurrentConf (h : Inv s []) (hcalls : s.calls = []) (hready : s.routerReady = true)
    (hport : s.routerPort = true) (hok : s.storing .conf = true → env.resend = true) :
    Inv (sendCurrentConf env s) [] := by
  have hinit : s.waitingInitConf = false := by
    cases h.serial.line with
    | idle _ h2 => exact h2
    | init h1 => simp [hcalls] at h1
    | busy h1 => simp [hcalls] at h1
  unfold Controller.sendCurrentConf
  split
  · rename_i c hc
    have hconf : s.conf = some c := by
      split at hc
      · exact hc
      · cases hc
    have hmem (call : Call Conf) (h' : call ∈ s.calls ++ [.init c]) : call = .init c := by
      simpa [hcalls] using h'
    refine ⟨⟨.init (by simp [hcalls]) hconf rfl, fun _ => ⟨hready, hport⟩, h.serial.flags,
      h.serial.one, fun r hr => ⟨(h.serial.cert r hr).1, rfl⟩, h.serial.greeted⟩,
      h.ledger.of_perm (.refl _) rfl rfl rfl ?_,
      ⟨?_, ?_, ?_, h.agree.storing, h.agree.files, h.agree.cert, h.agree.success⟩⟩
    · intro r hr hbegun
      obtain ⟨call, hcall, _⟩ := h.ledger.idle r hr hbegun
      simp [hcalls] at hcall
    · intro r c' hcall
      exact nomatch hmem _ hcall
    · intro r hcall
      exact nomatch hmem _ hcall
    intro call hcall r hreq
    rw [hmem _ hcall] at hreq
    cases hreq
  rename_i hnone
  refine Inv.flush (s := { s.fallBack env with listening := true }) ⟨⟨.idle hcalls hinit,
    h.serial.ready, h.serial.flags, h.serial.one, h.serial.cert, h.serial.greeted⟩,
    h.ledger.of_perm (.refl _) rfl rfl rfl h.ledger.idle,
    ⟨h.agree.conf, h.agree.status, h.agree.change, ?_, h.agree.files, h.agree.cert,
      h.agree.success⟩⟩ ?_ env none
  · -- a configuration that is being stored would have been sent
    intro x hx hk
    obtain ⟨c, _, _, hconf, _⟩ := h.agree.storing x hx hk
    have hresend := hok ((h.serial.flags .conf).mpr ⟨x, hx, hk⟩)
    rw [if_pos hresend, hconf] at hnone
    cases hnone
  intro call hcall
  exact absurd hcall (by simp [State.fallBack, hcalls])

theorem Outcome.routerReady (ho : Outcome s r s') : s'.routerReady = s.routerReady := by
  cases ho <;> rfl

theorem flushRequests_routerReady (env : Env Conf) (status : Option Conf) (s : State Conf) :
    (flushRequests env status s).routerReady = s.routerReady := by
  have hfold (q : List Request) (s : State Conf) :
      (q.foldl (processRequest env status) s).routerReady = s.routerReady := by
    induction q generalizing s with
    | nil => rfl
    | cons r q ih => ?_
    rw [foldl_cons, ih]
    exact (processRequest_outcome env status s r).routerReady
  exact hfold _ _

theorem finish_routerReady (env : Env Conf) (s : State Conf) (r : Request) (resp : Response Conf) :
    (s.finish env r resp).routerReady = s.routerReady :=
  flushRequests_routerReady env none _

theorem certApply_routerReady (env : Env Conf) (s : State Conf) (r : Request) :
    (certApply env s r).routerReady = s.routerReady := by
  unfold certApply
  repeat' split
  all_goals first | exact finish_routerReady _ _ _ _ | rfl

theorem answerCall_routerReady (env : Env Conf) (s : State Conf) (ok : Bool) (call : Call Conf) :
    (answerCall env s ok call).routerReady = s.routerReady := by
  cases call with
  | init c =>
    show (confInitHandler env s c ok).routerReady = s.routerReady
    cases hcert : s.certStored <;> cases ok <;>
      simp [confInitHandler, State.fallBack, hcert, certApply_routerReady,
        flushRequests_routerReady]
  | conf r c =>
    show (confHandler env s r c ok).routerReady = s.routerReady
    unfold confHandler
    cases ok <;> cases env.confStore r <;> simp [finish_routerReady, State.store]
  | certApply r c =>
    show (certApplyHandler env s r c ok).routerReady = s.routerReady
    cases ok <;> simp [certApplyHandler, finish_routerReady]
  | status r =>
    show (statusHandler env s r ok).routerReady = s.routerReady
    unfold statusHandler
    split
    · exact flushRequests_routerReady _ _ _
    · exact finish_routerReady _ _ _ _
  | restart r => exact finish_routerReady _ _ _ _

/-- What is known of the router may change while it answers no call. -/
theorem Inv.setRouter (h : Inv s []) {port ready greeted : Bool}
    (hready : s.calls ≠ [] → ready = true ∧ port = true)
    (hgreeted : ready = true → greeted = true) :
    Inv { s with routerPort := port, routerReady := ready, greeted := greeted } [] :=
  ⟨⟨h.serial.line.congr rfl rfl rfl ⟨[], (append_nil _).symm⟩ rfl rfl, hready,
    h.serial.flags, h.serial.one, h.serial.cert, hgreeted⟩,
    h.ledger.of_perm (.refl _) rfl rfl rfl h.ledger.idle,
    ⟨h.agree.conf, h.agree.status, h.agree.change, h.agree.storing, h.agree.files, h.agree.cert,
      h.agree.success⟩⟩

/-- **The death of a router.** -/
theorem Inv.removePidHandler (h : Inv s []) (hport : s.greeted = true → s.routerPort = true)
    (hok : s.storing .conf = true → s.waitingInitConf = false) (env : Env Conf) :
    Inv (removePidHandler env s) [] := by
  unfold Controller.removePidHandler
  dsimp only
  split
  · -- the messages to the router fail one after another; there is at most one
    have hfailed : Inv (s.calls.foldl (fun s call => Controller.answerCall env s false call)
        (s.cut false false)) [] ∧ (s.calls.foldl (fun s call => Controller.answerCall env s false call)
        (s.cut false false)).routerReady = false := by
      have hone (call : Call Conf) (hcalls : s.calls = [call]) :
          Inv (Controller.answerCall env (s.cut false false) false call) [] := by
        refine h.answerCall (fun hf => absurd hf (by decide)) hcalls env ?_
        rintro c rfl hstoring
        cases h.serial.line with
        | idle h1 => simp [hcalls] at h1
        | init _ _ h3 => simp [hok hstoring] at h3
        | busy h1 h2 => ?_
        rw [hcalls] at h1
        cases h1
        cases h2
      cases h.serial.line with
      | idle h1 h2 =>
        rw [h1, foldl_nil]
        refine ⟨⟨⟨.idle rfl h2, nofun, h.serial.flags, h.serial.one, h.serial.cert, nofun⟩,
          h.ledger.of_perm (.refl _) rfl rfl rfl ?_,
          ⟨nofun, nofun, nofun, h.agree.storing, h.agree.files, h.agree.cert, h.agree.success⟩⟩, rfl⟩
        intro r hr hbegun
        obtain ⟨call, hcall, _⟩ := h.ledger.idle r hr hbegun
        simp [h1] at hcall
      | @init c h1 =>
        rw [h1, foldl_cons, foldl_nil]
        exact ⟨hone _ h1, answerCall_routerReady _ _ _ _⟩
      | @busy call _ _ h1 => ?_
      rw [h1, foldl_cons, foldl_nil]
      exact ⟨hone _ h1, answerCall_routerReady _ _ _ _⟩
    obtain ⟨hinv, hready⟩ := hfailed
    have hcalls : (s.calls.foldl (fun s call => Controller.answerCall env s false call)
        (s.cut false false)).calls = [] := by
      by_contra hne
      exact absurd ((hinv.serial.ready hne).1) (by simp [hready])
    exact hinv.setRouter (fun hne => absurd hcalls hne) hinv.serial.greeted
  · rename_i hno
    have hready : s.routerReady = false := by
      rw [← Bool.not_eq_true]
      exact fun hready => hno (hport (h.serial.greeted hready))
    exact h.setRouter h.serial.ready fun hr => absurd (hready.symm.trans hr) (by decide)

/-! ### Runs -/

/-- A change of the configuration or a restart of applications is out at the router. -/
def Call.alters : Call Conf → Bool
  | .conf _ _ => true
  | .certApply _ _ => true
  | .restart _ => true
  | _ => false

def State.outstanding (s : State Conf) : ℕ := (s.calls.filter Call.alters).length + s.stores.length

theorem Serial.outstanding_le_one (h : Serial s) : s.outstanding ≤ 1 := by
  have hstores := h.one
  unfold State.outstanding
  cases h.line with
  | idle h1 => simpa [h1] using hstores
  | init h1 => simpa [h1, Call.alters] using hstores
  | @busy call _ _ h1 _ _ _ h5 => ?_
  rw [h1, h5]
  simpa using length_filter_le Call.alters [call]

theorem Serial.calls_eq (h : Serial s) (hcall : call ∈ s.calls) : s.calls = [call] := by
  cases h.line with
  | idle h1 => simp [h1] at hcall
  | init h1 =>
    rw [h1, mem_singleton] at hcall
    rw [h1, hcall]
  | busy h1 => ?_
  rw [h1, mem_singleton] at hcall
  rw [h1, hcall]

theorem Serial.stores_eq (h : Serial s) {x : Store Conf} (hx : x ∈ s.stores) : s.stores = [x] := by
  have hone := h.one
  match hs : s.stores with
  | [] => simp [hs] at hx
  | [y] => simpa [hs] using (mem_singleton.mp (hs ▸ hx)).symm
  | y :: z :: l => simp [hs] at hone

theorem Inv.arrives (h : Inv s []) (hnew : r ∉ s.seen) :
    Inv { s with seen := s.seen ++ [r] } [r] := by
  have hsub : s.seen ⊆ s.seen ++ [r] := subset_append_left _ _
  have hheld : r ∉ s.held := fun hr => hnew (h.ledger.pending r (by simpa using hr)).1
  have hanswered : r ∉ s.answered := fun hr => hnew (h.ledger.answered_seen r hr)
  refine ⟨⟨h.serial.line.congr rfl rfl rfl ⟨[], (append_nil _).symm⟩ rfl rfl, h.serial.ready,
    h.serial.flags, h.serial.one, h.serial.cert, h.serial.greeted⟩,
    ⟨?_, ?_, h.ledger.answers, fun r' hr' => hsub (h.ledger.answered_seen r' hr'),
      h.ledger.started, fun r' hr' => hsub (h.ledger.begun_seen r' hr'), h.ledger.idle⟩,
    ⟨h.agree.conf, h.agree.status, h.agree.change, h.agree.storing, h.agree.files, h.agree.cert,
      h.agree.success⟩⟩
  · show (s.held ++ [r]).Nodup
    rw [nodup_append_comm]
    exact nodup_cons.mpr ⟨hheld, by simpa using h.ledger.nodup⟩
  · intro r' hr'
    obtain hr' | hr' := mem_append.mp hr'
    · have hold := h.ledger.pending r' (mem_append_left _ hr')
      exact ⟨hsub hold.1, hold.2⟩
    rw [mem_singleton.mp hr']
    exact ⟨mem_append_right _ (mem_singleton_self _), hanswered⟩

section

variable [DecidableEq Conf]

/-- A router whose readiness was announced is reported dead only after its port is
known; and while a configuration is being stored, none that is sent to a new router
fails: it is sent, and the router lives to acknowledge it. -/
def orderly (env : Env Conf) (s : State Conf) : Event Conf → Bool
  | .routerAnswer (.init _) ready => !s.storing .conf || ready
  | .newPort => !s.storing .conf || env.resend
  | .routerReady => !s.storing .conf || env.resend
  | .removePid => (!s.greeted || s.routerPort) && (!s.storing .conf || !s.waitingInitConf)
  | _ => true

/-- **One event.** -/
theorem Inv.step (h : Inv s []) {e : Event Conf} (ho : orderly env s e = true)
    (hstep : step env s e = some s') : Inv s' [] := by
  cases e with
  | request r =>
    rw [Controller.step] at hstep
    split at hstep
    · rename_i hguard
      cases hstep
      refine (h.arrives hguard.2).outcome ?_ (processRequest_outcome env none _ r)
      exact fun hr => hguard.2 (h.ledger.begun_seen r hr)
    · cases hstep
  | routerAnswer call ok =>
    rw [Controller.step] at hstep
    split at hstep
    · rename_i hcall
      have hcalls := h.serial.calls_eq hcall
      cases hstep
      have hcut : { s with calls := s.calls.erase call } = s.cut s.routerReady s.greeted := by
        rw [hcalls, erase_cons_head]
        rfl
      rw [hcut]
      refine h.answerCall h.serial.greeted hcalls env ?_
      rintro c rfl hstoring
      simpa [orderly, hstoring] using ho
    · cases hstep
  | storeAnswer x ok =>
    rw [Controller.step] at hstep
    split at hstep
    · rename_i hx
      have hstores := h.serial.stores_eq hx
      cases hstep
      rw [hstores, erase_cons_head]
      exact h.answerStore hstores env ok
    · cases hstep
  | newPort =>
    rw [Controller.step] at hstep
    split at hstep
    · cases hstep
    rename_i hport
    cases hstep
    have hcalls : s.calls = [] := by
      by_contra hne
      exact hport (h.serial.ready hne).2
    have hinv : Inv { s with routerPort := true } [] :=
      h.setRouter (fun hne => absurd hcalls hne) h.serial.greeted
    unfold processNewPortHandler
    dsimp only
    split
    · rename_i hready
      refine hinv.sendCurrentConf hcalls hready rfl fun hstoring => ?_
      have hstoring : s.storing .conf = true := hstoring
      simpa [orderly, hstoring] using ho
    · exact hinv
  | routerReady =>
    rw [Controller.step] at hstep
    split at hstep
    · cases hstep
    rename_i hgreeted
    cases hstep
    have hcalls : s.calls = [] := by
      by_contra hne
      exact hgreeted (h.serial.greeted (h.serial.ready hne).1)
    have hinv : Inv { s with routerReady := true, greeted := true } [] :=
      h.setRouter (fun hne => absurd hcalls hne) fun _ => rfl
    unfold routerReadyHandler
    dsimp only
    split
    · rename_i hport
      refine hinv.sendCurrentConf hcalls rfl hport fun hstoring => ?_
      have hstoring : s.storing .conf = true := hstoring
      simpa [orderly, hstoring] using ho
    · exact hinv
  | removePid => ?_
  cases hstep
  simp only [orderly, Bool.and_eq_true, Bool.or_eq_true, Bool.not_eq_eq_eq_not, Bool.not_true] at ho
  refine h.removePidHandler ?_ ?_ env
  · intro hg
    simpa [hg] using ho.1
  · intro hstoring
    simpa [hstoring] using ho.2

/-- The controller after its start: the configuration is the stored one, and the port
of the router may be inherited. -/
def State.initial (conf : Option Conf) (routerPort : Bool) : State Conf :=
  { conf := conf, stored := conf, routerPort := routerPort }

/-- The states of runs in which every event is `orderly`. -/
inductive Run : State Conf → Prop where
  | init (conf : Option Conf) (routerPort : Bool) : Run (.initial conf routerPort)
  | step {s s' : State Conf} {env : Env Conf} {e : Event Conf} : Run s → orderly env s e = true →
      step env s e = some s' → Run s'

theorem Run.inv (h : Run s) : Inv s [] := by
  induction h with
  | init conf routerPort =>
    exact ⟨⟨.idle rfl rfl, nofun, fun k => by simp [State.initial], by simp [State.initial], nofun,
      nofun⟩, ⟨.nil, nofun, .nil, nofun, .nil, nofun, nofun⟩,
      ⟨nofun, nofun, nofun, nofun, nofun, nofun, nofun⟩⟩
  | step _ ho hstep ih => exact ih.step ho hstep

/-- **One at a time**: in every orderly run at most one change, store or restart is
out, no request is started twice or answered twice, and a change is answered with
success only if its configuration is current, acknowledged and stored. -/
theorem run_serial {s : State Conf} (h : Run s) :
    s.outstanding ≤ 1 ∧ s.begun.Nodup ∧ s.answered.Nodup ∧ ∀ a ∈ s.answers, Truthful s a :=
  ⟨h.inv.serial.outstanding_le_one, h.inv.ledger.started, h.inv.ledger.answers, h.inv.agree.success⟩

/-! ### Two runs -/

def runFrom (env : Env Conf) (s : State Conf) : List (Event Conf) → Option (State Conf)
  | [] => some s
  | e :: events => (step env s e).bind (runFrom env · events)

def orderlyFrom (env : Env Conf) (s : State Conf) : List (Event Conf) → Bool
  | [] => true
  | e :: events => orderly env s e && (step env s e).all (orderlyFrom env · events)

theorem Run.runFrom {events : List (Event Conf)} (h : Run s) (ho : orderlyFrom env s events = true)
    (hrun : runFrom env s events = some s') : Run s' := by
  induction events generalizing s with
  | nil => exact some.inj hrun ▸ h
  | cons e events ih => ?_
  rw [orderlyFrom, Bool.and_eq_true] at ho
  obtain ⟨s₁, hstep, hrest⟩ := bind_eq_some_iff.mp hrun
  rw [hstep, all_some] at ho
  exact ih (h.step ho.1 hstep) ho.2 hrest

end

/-- Two configurations, of which `false` is the default one; every message is sent, and
every change is to `true`. -/
def plainEnv : Env Bool where
  default := false
  getPath := fun conf _ => conf
  edit := fun _ _ _ => .ok true
  send := fun _ => true
  resend := true
  confStore := fun _ => true
  file := fun _ _ => none
  fileSend := fun _ => true
  certInUse := fun _ _ => false
  application := fun _ _ => false
  alloc := fun _ => true
  status := none
  all := fun conf _ => conf

/-- `PUT /config` -/
def putConfig : Request := ⟨0, str "PUT", str "/config", str "\x7b\x7d"⟩

theorem putConfig_isChange : IsChange putConfig := ⟨⟨str "/", by decide⟩, by decide⟩

def acknowledged : List (Event Bool) :=
  [.newPort, .routerReady, .request putConfig, .routerAnswer (.conf putConfig true) true]

def confStored : Event Bool := .storeAnswer ⟨.conf, putConfig, some true⟩ true

/-- The router dies while the change is stored, and the next one gets it. -/
def replaced : List (Event Bool) := [.removePid, .newPort, .routerReady]

theorem run_serial_replaced : ∃ s, Run s ∧ s.answers = [⟨putConfig, reconfigurationDone, some true,
      some true, some true⟩] ∧ s.outstanding ≤ 1 ∧ s.begun.Nodup ∧ s.answered.Nodup ∧
      ∀ a ∈ s.answers, Truthful s a := by
  obtain ⟨s, hs⟩ : ∃ s, runFrom plainEnv (.initial none false)
      (acknowledged ++ replaced ++ [.routerAnswer (.init true) true, confStored]) = some s := ⟨_, rfl⟩
  have hrun : Run s := (Run.init none false).runFrom (by decide) hs
  refine ⟨s, hrun, ?_, run_serial hrun⟩
  have hs' := congrArg (Option.map State.answers) hs
  exact (some.inj (hs'.symm.trans rfl))

/-- **Two runs that are not orderly.**  In the first the next router refuses the
configuration while it is being stored: the controller falls back to the default one,
and then answers that the reconfiguration is done.  In the second a router is ready
and dies before its port is known: the next one gets the configuration twice, and the
second acknowledgement runs a request that is out a second time. -/
theorem done_without_conf :
    (∃ s, runFrom plainEnv (.initial none false)
        (acknowledged ++ replaced ++ [.routerAnswer (.init true) false, confStored]) = some s ∧
      ∃ a ∈ s.answers, IsChange a.req ∧ a.resp = reconfigurationDone ∧ a.conf = some false ∧
        (putConfig, some true) ∈ s.started) ∧
    ∃ s, runFrom plainEnv (.initial (some false) false)
        [.routerReady, .removePid, .newPort, .routerReady, .routerAnswer (.init false) true,
          .request putConfig, .routerAnswer (.init false) true] = some s ∧
      s.begun = [putConfig, putConfig] := by
  refine ⟨⟨_, rfl, ⟨putConfig, reconfigurationDone, some false, some true, some true⟩, ?_,
    putConfig_isChange, rfl, rfl, ?_⟩, ⟨_, rfl, rfl⟩⟩
  · exact mem_cons_self
  · exact mem_cons_self

end FreeUnit.Controller
