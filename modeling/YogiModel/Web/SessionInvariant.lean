import YogiModel.Web.SessionHandlers

namespace Yogi.Web

-- A promise is settled with the response to its own request, the completion of its own task or lookup
-- or because the session is closed.
def Outcome.BelongsTo : Outcome → Promise → Prop
  | .response c _,  .request d => c = d
  | .response c st, .call d    => c = d ∧ st ≠ .ok
  | .completion c,  .call d    => c = d
  | .completion _,  .request _ => False
  | .closed _,      _          => True

theorem Call.own_eq {c : Call} (h : c.kind ≠ .request) : c.own = [.call c] := by
  cases hk : c.kind <;> simp_all [own]

theorem Call.own_request {c : Call} (h : c.kind = .request) : c.own = [] := by
  simp [own, h]

theorem Call.mem_own {c : Call} {p : Promise} (h : p ∈ c.own) : p = .call c ∧ c.kind ≠ .request := by
  cases hk : c.kind <;> simp_all [own]

namespace Job

-- The promises that are still to be settled by a reaction.
def owes : Job → List Promise
  | comeAlive c  => c.promises
  | answered c _ => c.own
  | passOn c _   => c.own
  | caught c _   => c.own

def Sound : Job → Prop
  | comeAlive _  => True
  | answered c _ => c.kind ≠ .request
  | passOn c o   => c.kind ≠ .request ∧ o.BelongsTo (.call c)
  | caught c o   => c.kind ≠ .request ∧ o.BelongsTo (.call c)

def opens : Job → Handlers
  | answered c id => (c.key id).map (·, c)
  | _             => []

def unsent : Job → List Call
  | comeAlive c => [c]
  | _           => []

def registers : Job → List Call
  | answered c _ => [c]
  | _            => []

end Job

def Key.taskIds : Key → List Nat
  | task id     => [id]
  | dnsLookup _ => []

def Call.taskIds (c : Call) : List Nat :=
  match c.kind with
  | .task _ n _ => [n]
  | _           => []

theorem Call.flatMap_reaction {α : Type} {c : Call} {j : Job} {f : Job → List α} :
    (c.own.map fun _ => j).flatMap f = if c.kind = .request then [] else f j := by
  cases hk : c.kind <;> simp [own, hk]

namespace Session

def owed (s : Session) : List Promise :=
  s.waiting.flatMap Call.promises ++ s.jobs.flatMap Job.owes ++
    s.transactions.flatMap Call.promises ++ s.handlers.map fun e => .call e.2

-- The tasks and lookups for which the client expects a completion.
def opens (s : Session) : Handlers :=
  s.handlers ++ s.jobs.flatMap Job.opens

-- The calls that the hub has not answered yet.
def unanswered (s : Session) : List Call :=
  s.toHub ++ s.jobs.flatMap Job.unsent ++ s.waiting

-- The IDs of the tasks that have not been completed or rejected by the hub.
def taskIds (s : Session) : List Nat :=
  s.running.flatMap (·.1.taskIds) ++ s.unanswered.flatMap Call.taskIds

-- The conditions under which the code works: a session that is not alive yet is not closed, a completion
-- does not come in the same batch as the response to the request for the task or lookup, all tasks and
-- lookups are completed before the socket is closed and the IDs of tasks are bytes.
def Careful (s : Session) : Action → Prop
  | .call _       => s.comeAlive = true ∨ s.socket ≠ .closed
  | .handle       => ∀ m ∈ s.batch.head?, ∀ c ∈ m.completes, c ∉ s.jobs.flatMap Job.registers
  | .closed       => (s.comeAlive = true ∨ s.waiting = []) ∧
    ∀ c ∈ s.received.flatMap HubMessage.starts, c ∈ s.received.flatMap HubMessage.completes
  | .respond st _ => st = .ok → ∀ c ∈ s.toHub.head?, ∀ n ∈ c.taskIds, n < 256
  | _             => True

instance (s : Session) (a : Action) : Decidable (s.Careful a) :=
  match a with
  | .call _       => inferInstanceAs (Decidable (s.comeAlive = true ∨ s.socket ≠ .closed))
  | .handle       =>
    inferInstanceAs (Decidable (∀ m ∈ s.batch.head?, ∀ c ∈ m.completes, c ∉ s.jobs.flatMap Job.registers))
  | .closed       =>
    inferInstanceAs (Decidable ((s.comeAlive = true ∨ s.waiting = []) ∧
      ∀ c ∈ s.received.flatMap HubMessage.starts, c ∈ s.received.flatMap HubMessage.completes))
  | .respond st _ =>
    inferInstanceAs (Decidable (st = .ok → ∀ c ∈ s.toHub.head?, ∀ n ∈ c.taskIds, n < 256))
  | .job | .opened | .deliver _ | .close | .complete _ | .notify _ => isTrue trivial

-- Every promise is either settled or owed.
structure Counted (s : Session) : Prop where
  perm  : (s.settled.map (·.1) ++ s.owed).Perm s.handed
  nodup : s.handed.Nodup
  fresh : ∀ p ∈ s.handed, p.origin.number < s.calls

structure Sound (s : Session) : Prop where
  settled : ∀ e ∈ s.settled, e.2.BelongsTo e.1
  jobs    : ∀ j ∈ s.jobs, j.Sound

structure Phased (s : Session) : Prop where
  alive   : s.alive = true ↔ s.comeAlive = true ∧ s.socket ≠ .closed
  waiting : s.comeAlive = true ∨ s.socket = .closed → s.waiting = []
  new     : s.socket = .connecting → s.comeAlive = false
  closed  : s.socket = .closed →
    s.transactions = [] ∧ s.handlers = [] ∧ s.batch = [] ∧ ∀ j ∈ s.jobs, j.opens = []

-- Messages of the hub are still going to be handled.
def Listening (s : Session) : Prop :=
  s.socket = .connecting ∨ s.socket = .open ∨ s.batch ≠ []

structure Wired (s : Session) : Prop where
  keys   : (s.opens.map (·.1)).Nodup
  synced : s.Listening → ∃ lost,
    s.transactions = (s.batch ++ s.toClient).filterMap HubMessage.answers ++ s.toHub ++ lost ∧
      (s.socket = .connecting ∨ s.socket = .open → lost = [])
  tracks : s.Listening → Tracks s.opens (s.batch ++ s.toClient) s.running

structure Numbered (s : Session) : Prop where
  distinct : s.taskIds.Nodup
  lt       : ∀ n ∈ s.taskIds, n < s.nextTaskId

-- What has come of the messages that have been handled.
structure Received (s : Session) : Prop where
  completions : ∀ k c, .completion k c ∈ s.received → .call c ∈ s.settled.map (·.1)
  responses   : ∀ e ∈ s.opens, e.2.kind ≠ .request ∧ ∃ id, .response e.2 .ok id ∈ s.received

structure Inv (s : Session) : Prop extends
  Counted s, Sound s, Phased s, Wired s, Numbered s, Received s

variable {s : Session} {a : Action} {c : Call} {o : Outcome} {j : Job} {js : List Job}

-- What the events do to the state.

theorem foldl_rejectRequest (cs : List Call) :
    cs.foldl (fun s c => s.rejectRequest c o) s = { s with
      settled := s.settled ++ cs.map fun c => (.request c, o)
      jobs    := s.jobs ++ cs.flatMap fun c => c.own.map fun _ => .passOn c o } := by
  induction cs generalizing s
  case nil => simp
  case cons c cs ih =>
    rw [List.foldl_cons, ih]
    simp [rejectRequest, settleRequest]

theorem runJob_answered {id : Int} (h : c.kind ≠ .request) (hk : ∀ k ∈ c.key id, k ∉ s.handlers.map (·.1)) :
    s.runJob (.answered c id) = { s with handlers := s.handlers ++ (c.key id).map (·, c) } := by
  cases hc : c.kind
  case request => exact absurd hc h
  all_goals simp only [Call.key, hc, List.mem_singleton, forall_eq] at hk
  all_goals simp [runJob, Call.key, hc, Handlers.set_of_notMem hk]

-- How often a promise is settled or owed.
def account (s : Session) (p : Promise) : Nat :=
  (s.settled.map (·.1)).count p + (s.waiting.flatMap Call.promises).count p +
    (s.jobs.flatMap Job.owes).count p + (s.transactions.flatMap Call.promises).count p +
    (s.handlers.map fun e => Promise.call e.2).count p

theorem count_eq_account {p : Promise} :
    (s.settled.map (·.1) ++ s.owed).count p = s.account p := by
  simp only [owed, account, List.count_append]
  omega

theorem Counted.of_account {s' : Session} (h : s.Counted) (hh : s'.handed = s.handed)
    (hc : s'.calls = s.calls) (ha : ∀ p, s'.account p = s.account p) : s'.Counted where
  perm  := List.perm_iff_count.mpr fun p => by
    rw [count_eq_account, ha, ← count_eq_account, hh]
    exact h.perm.count_eq p
  nodup := hh ▸ h.nodup
  fresh := hh ▸ hc ▸ h.fresh

theorem account_settleRequest {p : Promise} (hj : j.owes = c.own) :
    (s.settleRequest c o j).account p = s.account p + c.promises.count p := by
  have hf : (c.own.map fun _ => j).flatMap Job.owes = c.own := by
    rw [Call.flatMap_reaction, hj]
    split
    case isTrue h => exact (Call.own_request h).symm
    case isFalse  => rfl
  simp only [account, settleRequest, List.map_append, List.flatMap_append, List.count_append, hf,
    Call.promises, List.map_cons, List.map_nil, List.count_cons, List.count_nil]
  omega

theorem account_fail {p : Promise} : s.fail.account p = s.account p := by
  simp only [fail, close]
  split <;> rfl

theorem Counted.call (h : s.Counted) (k : NewCall) : (s.call k).Counted := by
  have hf : ∀ p ∈ (⟨s.calls, s.kind k⟩ : Call).promises, p.origin.number = s.calls := by
    intro p hp
    cases List.mem_cons.mp hp
    case inl hp => rw [hp]; rfl
    case inr hp => rw [(Call.mem_own hp).left]; rfl
  have hh : (s.call k).handed = s.handed ++ (⟨s.calls, s.kind k⟩ : Call).promises := by
    simp only [Session.call]
    split <;> rfl
  have hc : (s.call k).calls = s.calls + 1 := by
    simp only [Session.call]
    split <;> rfl
  refine ⟨List.perm_iff_count.mpr fun p => ?_, ?_, ?_⟩
  · have hp := h.perm.count_eq p
    rw [count_eq_account] at hp ⊢
    rw [hh, List.count_append, ← hp]
    simp only [Session.call]
    split <;> simp [account, Job.owes, List.count_append] <;> omega
  · rw [hh, List.nodup_append]
    refine ⟨h.nodup, ?_, fun p hp q hq hpq => ?_⟩
    · cases s.kind k <;> simp [Call.promises, Call.own]
    · have := h.fresh p hp
      rw [hpq, hf q hq] at this
      exact Nat.lt_irrefl _ this
  · intro p hp
    rw [hh] at hp
    rw [hc]
    cases List.mem_append.mp hp
    case inl hp => exact Nat.lt_succ_of_lt (h.fresh p hp)
    case inr hp => rw [hf p hp]; exact Nat.lt_succ_self _

theorem account_pop {p : Promise} (hj : s.jobs = j :: js) :
    s.account p = { s with jobs := js }.account p + j.owes.count p := by
  simp only [account, hj, List.flatMap_cons, List.count_append]
  omega

theorem account_shift {p : Promise} {t : Call} {ts : List Call} (ht : s.transactions = t :: ts) :
    s.account p = { s with transactions := ts }.account p + t.promises.count p := by
  simp only [account, ht, List.flatMap_cons, List.count_append]
  omega

theorem account_runJob {p : Promise} (hs : j.Sound)
    (hk : ∀ c id, j = .answered c id → ∀ k ∈ c.key id, k ∉ s.handlers.map (·.1)) :
    (s.runJob j).account p = s.account p + j.owes.count p := by
  cases j
  case comeAlive c =>
    simp only [runJob]
    split
    case isTrue => exact account_settleRequest rfl
    case isFalse =>
      simp only [send]
      split <;> simp [account, Job.owes, List.count_append] <;> omega
  case answered c id =>
    rw [runJob_answered hs (hk c id rfl)]
    simp only [account, Job.owes, List.map_append, List.count_append, List.map_map]
    cases hc : c.kind <;> simp [Call.key, Call.own, hc] <;> omega
  case passOn c o =>
    simp [runJob, account, Job.owes, List.count_append]
    omega
  case caught c o =>
    simp [runJob, settle, account, Job.owes, Call.own_eq hs.left, List.count_append]
    omega

theorem account_handleMessage {p : Promise} {m : HubMessage} (hk : (s.handlers.map (·.1)).Nodup) :
    (s.handleMessage m).account p = s.account p := by
  cases m
  case notification throws =>
    cases throws
    case false => rfl
    case true  => exact account_fail
  case response c st id =>
    simp only [handleMessage]
    split
    case h_3 => exact account_fail
    all_goals
      simp only [shift]
      split
      case h_1      => exact account_fail
      case h_2 heq => rw [account_shift heq]; exact account_settleRequest rfl
  case completion k c =>
    simp only [handleMessage]
    split
    case h_2 hg =>
      rw [account_fail, Handlers.delete_of_notMem (Handlers.notMem_of_get? hg)]
    case h_1 t hg =>
      have hm := Handlers.mem_of_get? hg
      have hp := ((List.perm_cons_erase hm).map fun e => Promise.call e.2).count_eq p
      rw [Handlers.delete_eq_erase hk hm]
      simp only [List.map_cons, List.count_cons] at hp
      simp only [account, settle, List.map_append, List.count_append, hp, List.map_cons, List.map_nil,
        List.count_cons, List.count_nil]
      omega

theorem account_closed {p : Promise} : s.closed.account p = s.account p := by
  have hf : ∀ cs : List Call, (cs.map fun c => Promise.request c).count p +
      ((cs.flatMap fun c => c.own.map fun _ => Job.passOn c (.closed "The session has been closed")).flatMap
        Job.owes).count p = (cs.flatMap Call.promises).count p := by
    intro cs
    induction cs
    case nil => rfl
    case cons c cs ih =>
      have hc : (c.own.map fun _ => Job.passOn c (.closed "The session has been closed")).flatMap
          Job.owes = c.own := by
        rw [Call.flatMap_reaction]
        split
        case isTrue h => exact (Call.own_request h).symm
        case isFalse  => rfl
      simp only [List.map_cons, List.flatMap_cons, List.flatMap_append, List.count_append, hc,
        Call.promises, List.count_cons, ← ih]
      omega
  simp only [closed, foldl_rejectRequest, account, List.map_append, List.flatMap_append,
    List.count_append, ← hf s.transactions, List.map_map, Function.comp_def, List.flatMap_nil,
    List.count_nil]
  omega

-- Promises are handed out by calls only.
structure Keeps (s s' : Session) : Prop where
  handed : s'.handed = s.handed
  calls  : s'.calls = s.calls

theorem keeps_fail : s.Keeps s.fail := by
  simp only [fail, close]
  split <;> exact ⟨rfl, rfl⟩

theorem keeps_runJob : s.Keeps (s.runJob j) := by
  cases j <;> simp only [runJob]
  case comeAlive c =>
    split
    case isTrue => exact ⟨rfl, rfl⟩
    case isFalse =>
      simp only [send]
      split <;> exact ⟨rfl, rfl⟩
  all_goals exact ⟨rfl, rfl⟩

theorem keeps_handleMessage {m : HubMessage} : s.Keeps (s.handleMessage m) := by
  cases m <;> simp only [handleMessage]
  case notification throws =>
    split
    case isTrue  => exact keeps_fail
    case isFalse => exact ⟨rfl, rfl⟩
  case response c st id =>
    split
    case h_3 => exact keeps_fail
    all_goals
      simp only [shift]
      split
      case h_1 => exact keeps_fail
      case h_2 => exact ⟨rfl, rfl⟩
  case completion k c =>
    split
    case h_1 => exact ⟨rfl, rfl⟩
    case h_2 => exact ⟨keeps_fail.handed, keeps_fail.calls⟩

theorem keeps_closed : s.Keeps s.closed := by
  simp only [closed, foldl_rejectRequest]
  exact ⟨rfl, rfl⟩

theorem keys_handlers (h : s.Wired) : (s.handlers.map (·.1)).Nodup := by
  have := h.keys
  rw [opens, List.map_append] at this
  exact (List.nodup_append.mp this).left

-- The key of a reaction that is to be run is not in use.
theorem Wired.fresh_job {id : Int} (h : s.Wired) (hj : s.jobs = .answered c id :: js) :
    ∀ k ∈ c.key id, k ∉ s.handlers.map (·.1) := by
  intro k hk hm
  have hn := h.keys
  rw [opens, hj, List.flatMap_cons, List.map_append, List.nodup_append] at hn
  refine hn.right.right k hm k ?_ rfl
  rw [List.map_append]
  exact List.mem_append_left _ (by simpa [Job.opens] using hk)

theorem Counted.act (h : s.Inv) (he : s.enabled a) : (s.act a).Counted := by
  have hc := h.toCounted
  cases a
  case call k => exact hc.call k
  case job =>
    simp only [Session.act]
    split
    case h_1 => exact hc
    case h_2 j js hj =>
      refine hc.of_account keeps_runJob.handed keeps_runJob.calls fun p => ?_
      rw [account_pop hj, account_runJob]
      · exact h.jobs j (hj ▸ List.mem_cons_self)
      · rintro c id rfl
        exact h.toWired.fresh_job hj
  case opened =>
    refine hc.of_account rfl rfl fun p => ?_
    have hw : (s.waiting.map Job.comeAlive).flatMap Job.owes = s.waiting.flatMap Call.promises := by
      rw [List.flatMap_map]
      rfl
    simp only [Session.act, Session.opened, account, List.flatMap_append, List.count_append, hw,
      List.flatMap_nil, List.count_nil]
    omega
  case deliver n => exact hc.of_account rfl rfl fun _ => rfl
  case handle =>
    simp only [Session.act]
    split
    case h_1 => exact hc
    case h_2 =>
      exact hc.of_account keeps_handleMessage.handed keeps_handleMessage.calls
        fun p => account_handleMessage (keys_handlers (s := s) h.toWired)
  case close =>
    simp only [Session.act, Session.close]
    split <;> exact hc.of_account rfl rfl fun _ => rfl
  case closed => exact hc.of_account keeps_closed.handed keeps_closed.calls fun _ => account_closed
  case respond st id =>
    simp only [Session.act, Session.respond]
    split <;> exact hc.of_account rfl rfl fun _ => rfl
  case complete e => exact hc.of_account rfl rfl fun _ => rfl
  case notify throws => exact hc.of_account rfl rfl fun _ => rfl

variable {id : Int} {st : Status} {ms : List HubMessage} {k : Key}

theorem Status.handling_resolve (h : st.handling = .resolve) : st = .ok := by
  cases st <;> simp_all [Status.handling]

theorem Status.handling_reject {reason} (h : st.handling = .reject reason) : st ≠ .ok := by
  rintro rfl
  cases h

-- Responses are handled in the order of the requests.
theorem Wired.transactions (h : s.Wired) (hb : s.batch = .response c st id :: ms) :
    ∃ ts, s.transactions = c :: ts := by
  obtain ⟨lost, ht, _⟩ := h.synced (.inr (.inr (by simp [hb])))
  rw [hb] at ht
  exact ⟨_, ht⟩

theorem unique_key {h : Handlers} (hn : (h.map (·.1)).Nodup) {c d : Call} (hc : (k, c) ∈ h)
    (hd : (k, d) ∈ h) : c = d := by
  have := (Handlers.get?_of_mem hn hc).symm.trans (Handlers.get?_of_mem hn hd)
  exact Option.some.inj this

-- A completion is handled by the call that it belongs to.
theorem Wired.handler {t : Call} (h : s.Wired) (hb : s.batch = .completion k c :: ms)
    (hg : s.handlers.get? k = some t) : c = t := by
  have ht := h.tracks (.inr (.inr (by simp [hb])))
  rw [hb] at ht
  exact unique_key h.keys ht.left (List.mem_append_left _ (Handlers.mem_of_get? hg))

theorem Sound.settleRequest (h : s.Sound) (ho : o.BelongsTo (.request c))
    (hj : c.kind ≠ .request → j.Sound) : (s.settleRequest c o j).Sound where
  settled e he := by
    cases List.mem_append.mp he
    case inl he => exact h.settled e he
    case inr he => rw [List.mem_singleton.mp he]; exact ho
  jobs i hi := by
    cases List.mem_append.mp hi
    case inl hi => exact h.jobs i hi
    case inr hi =>
      obtain ⟨p, hp, hi⟩ := List.mem_map.mp hi
      rw [← hi]
      exact hj (Call.mem_own hp).right

theorem Sound.fail (h : s.Sound) : s.fail.Sound := by
  simp only [Session.fail, close]
  split <;> exact ⟨h.settled, h.jobs⟩

theorem Sound.runJob (h : s.Sound) (hj : j.Sound) : (s.runJob j).Sound := by
  cases j <;> simp only [Session.runJob]
  case comeAlive c =>
    split
    case isTrue => exact h.settleRequest trivial fun hc => ⟨hc, trivial⟩
    case isFalse =>
      simp only [send]
      split <;> exact ⟨h.settled, h.jobs⟩
  case answered c id => exact ⟨h.settled, h.jobs⟩
  case passOn c o =>
    refine ⟨h.settled, fun i hi => ?_⟩
    cases List.mem_append.mp hi
    case inl hi => exact h.jobs i hi
    case inr hi => rw [List.mem_singleton.mp hi]; exact hj
  case caught c o =>
    refine ⟨fun e he => ?_, h.jobs⟩
    cases List.mem_append.mp he
    case inl he => exact h.settled e he
    case inr he => rw [List.mem_singleton.mp he]; exact hj.right

theorem Sound.handleMessage {m : HubMessage} (h : s.Sound)
    (ht : ∀ c st id, m = .response c st id → ∃ ts, s.transactions = c :: ts)
    (hg : ∀ k c t, m = .completion k c → s.handlers.get? k = some t → c = t) :
    (s.handleMessage m).Sound := by
  cases m <;> simp only [Session.handleMessage]
  case notification throws =>
    split
    case isTrue  => exact h.fail
    case isFalse => exact h
  case response c st id =>
    obtain ⟨ts, ht⟩ := ht c st id rfl
    split
    case h_1 hs =>
      simp only [shift, ht]
      exact Sound.settleRequest ⟨h.settled, h.jobs⟩ rfl fun hc => hc
    case h_2 hs =>
      simp only [shift, ht]
      have hb : Outcome.BelongsTo (.response c st) (.call c) := ⟨rfl, Status.handling_reject hs⟩
      exact Sound.settleRequest ⟨h.settled, h.jobs⟩ rfl fun hc => ⟨hc, hb⟩
    case h_3 => exact h.fail
  case completion k c =>
    split
    case h_1 t hs =>
      cases hg k c t rfl hs
      refine ⟨fun e he => ?_, h.jobs⟩
      cases List.mem_append.mp he
      case inl he => exact h.settled e he
      case inr he => rw [List.mem_singleton.mp he]; exact rfl
    case h_2 => exact Sound.fail ⟨h.settled, h.jobs⟩

theorem Sound.closed (h : s.Sound) : s.closed.Sound := by
  simp only [Session.closed, foldl_rejectRequest]
  refine ⟨fun e he => ?_, fun i hi => ?_⟩
  · cases List.mem_append.mp he
    case inl he => exact h.settled e he
    case inr he =>
      obtain ⟨c, _, he⟩ := List.mem_map.mp he
      rw [← he]
      exact trivial
  · cases List.mem_append.mp hi
    case inl hi => exact h.jobs i hi
    case inr hi =>
      obtain ⟨c, _, hi⟩ := List.mem_flatMap.mp hi
      obtain ⟨p, hp, hi⟩ := List.mem_map.mp hi
      rw [← hi]
      exact ⟨(Call.mem_own hp).right, trivial⟩

theorem Sound.act (h : s.Inv) : (s.act a).Sound := by
  have hs := h.toSound
  cases a
  case call k =>
    simp only [Session.act, Session.call]
    split
    case isFalse => exact ⟨hs.settled, hs.jobs⟩
    case isTrue =>
      refine ⟨hs.settled, fun i hi => ?_⟩
      cases List.mem_append.mp hi
      case inl hi => exact hs.jobs i hi
      case inr hi => rw [List.mem_singleton.mp hi]; exact trivial
  case job =>
    simp only [Session.act]
    split
    case h_1 => exact hs
    case h_2 j js hj =>
      refine Sound.runJob ⟨hs.settled, fun i hi => ?_⟩ (hs.jobs j (hj ▸ List.mem_cons_self))
      exact hs.jobs i (hj ▸ List.mem_cons_of_mem _ hi)
  case opened =>
    refine ⟨hs.settled, fun i hi => ?_⟩
    cases List.mem_append.mp hi
    case inl hi => exact hs.jobs i hi
    case inr hi =>
      obtain ⟨c, _, hi⟩ := List.mem_map.mp hi
      rw [← hi]
      exact trivial
  case deliver n => exact ⟨hs.settled, hs.jobs⟩
  case handle =>
    simp only [Session.act]
    split
    case h_1 => exact hs
    case h_2 m ms hb =>
      refine Sound.handleMessage ⟨hs.settled, hs.jobs⟩ ?_ ?_
      · rintro c st id rfl
        exact h.toWired.transactions hb
      · rintro k c t rfl
        exact h.toWired.handler hb
  case close =>
    simp only [Session.act, Session.close]
    split <;> exact ⟨hs.settled, hs.jobs⟩
  case closed => exact hs.closed
  case respond st id =>
    simp only [Session.act, Session.respond]
    split <;> exact ⟨hs.settled, hs.jobs⟩
  case complete e => exact ⟨hs.settled, hs.jobs⟩
  case notify throws => exact ⟨hs.settled, hs.jobs⟩

end Session
end Yogi.Web
