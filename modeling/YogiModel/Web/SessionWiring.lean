import YogiModel.Web.SessionInvariant

namespace Yogi.Web.Session

variable {s s' : Session} {a : Action} {c : Call} {o : Outcome} {j : Job} {js : List Job} {id : Int}
  {st : Status} {m : HubMessage} {ms : List HubMessage} {k : Key}

-- The state of the socket as the session sees it.
structure SamePhase (s s' : Session) : Prop where
  socket    : s'.socket = s.socket
  alive     : s'.alive = s.alive
  comeAlive : s'.comeAlive = s.comeAlive
  waiting   : s'.waiting = s.waiting

theorem Phased.same (h : s.Phased) (hp : s.SamePhase s')
    (hc : s.socket = .closed → s'.transactions = [] ∧ s'.handlers = [] ∧ s'.batch = [] ∧
      ∀ j ∈ s'.jobs, j.opens = []) : s'.Phased where
  alive   := by rw [hp.alive, hp.comeAlive, hp.socket]; exact h.alive
  waiting := by rw [hp.waiting, hp.comeAlive, hp.socket]; exact h.waiting
  new     := by rw [hp.comeAlive, hp.socket]; exact h.new
  closed  := by rw [hp.socket]; exact hc

theorem Phased.closing (h : s.Phased) (hs : s.socket ≠ .closed) :
    Phased { s with socket := .closing } where
  alive   := h.alive.trans (and_congr_right fun _ => by simp [hs])
  waiting := fun hw => h.waiting (hw.imp_right nofun)
  new     := nofun
  closed  := nofun

theorem Phased.close (h : s.Phased) : s.close.Phased := by
  simp only [Session.close]
  split
  case h_1 hs => exact h.closing (by simp [hs])
  case h_2 hs => exact h.closing (by simp [hs])
  case h_3    => exact h

theorem Phased.call {k : NewCall} (h : s.Phased) (hc : s.comeAlive = true ∨ s.socket ≠ .closed) :
    (s.call k).Phased := by
  simp only [Session.call]
  split
  case isTrue =>
    refine h.same ⟨rfl, rfl, rfl, rfl⟩ fun hs => ?_
    obtain ⟨ht, hh, hb, hj⟩ := h.closed hs
    refine ⟨ht, hh, hb, fun i hi => ?_⟩
    cases List.mem_append.mp hi
    case inl hi => exact hj i hi
    case inr hi => rw [List.mem_singleton.mp hi]; rfl
  case isFalse hn =>
    exact ⟨h.alive, fun hw => absurd hw (not_or.mpr ⟨hn, hc.resolve_left hn⟩), h.new, h.closed⟩

theorem samePhase_runJob : s.SamePhase (s.runJob j) := by
  cases j <;> simp only [runJob]
  case comeAlive c =>
    split
    case isTrue => exact ⟨rfl, rfl, rfl, rfl⟩
    case isFalse =>
      simp only [send]
      split <;> exact ⟨rfl, rfl, rfl, rfl⟩
  all_goals exact ⟨rfl, rfl, rfl, rfl⟩

theorem opens_own (hj : j.opens = []) : ∀ i ∈ c.own.map fun _ => j, i.opens = [] := by
  intro i hi
  obtain ⟨_, _, hi⟩ := List.mem_map.mp hi
  rw [← hi]
  exact hj

theorem Phased.runJob (h : s.Phased) (hj : s.jobs = j :: js) :
    ({ s with jobs := js }.runJob j).Phased := by
  have hp := samePhase_runJob (s := { s with jobs := js }) (j := j)
  refine h.same ⟨hp.socket, hp.alive, hp.comeAlive, hp.waiting⟩ fun hs => ?_
  obtain ⟨ht, hh, hb, hall⟩ := h.closed hs
  rw [hj] at hall
  have hi := hall j List.mem_cons_self
  have hjs : ∀ i ∈ js, i.opens = [] := fun i hi => hall i (List.mem_cons_of_mem _ hi)
  have ha : s.alive = false := by
    have := mt h.alive.mp fun hn => hn.right hs
    simpa using this
  cases j
  case comeAlive c =>
    simp only [Session.runJob, ha]
    refine ⟨ht, hh, hb, fun i hi => ?_⟩
    cases List.mem_append.mp hi
    case inl hi => exact hjs i hi
    case inr hi => exact opens_own rfl i hi
  case answered c id =>
    have hk : c.key id = [] := List.map_eq_nil_iff.mp hi
    simp only [Session.runJob, hk]
    exact ⟨ht, hh, hb, hjs⟩
  case passOn c o =>
    refine ⟨ht, hh, hb, fun i hi => ?_⟩
    cases List.mem_append.mp hi
    case inl hi => exact hjs i hi
    case inr hi => rw [List.mem_singleton.mp hi]; rfl
  case caught c o => exact ⟨ht, hh, hb, hjs⟩

theorem Phased.fail (h : s.Phased) : s.fail.Phased := by
  have hc := h.close
  refine hc.same ⟨rfl, rfl, rfl, rfl⟩ fun hs => ?_
  obtain ⟨ht, hh, _, hj⟩ := hc.closed hs
  exact ⟨ht, hh, rfl, hj⟩

-- No messages are handled when the socket is closed.
theorem Phased.handleMessage (h : s.Phased) (hs : s.socket ≠ .closed) : (s.handleMessage m).Phased := by
  cases m <;> simp only [Session.handleMessage]
  case notification throws =>
    split
    case isTrue  => exact h.fail
    case isFalse => exact h
  case response c st id =>
    split
    case h_3 => exact h.fail
    all_goals
      simp only [shift]
      split
      case h_1 => exact h.fail
      case h_2 => exact h.same ⟨rfl, rfl, rfl, rfl⟩ fun hc => absurd hc hs
  case completion k c =>
    have hd : Phased { s with handlers := s.handlers.delete k } :=
      h.same ⟨rfl, rfl, rfl, rfl⟩ fun hc => absurd hc hs
    split
    case h_1 => exact hd.same ⟨rfl, rfl, rfl, rfl⟩ fun hc => absurd hc hs
    case h_2 => exact hd.fail

theorem Phased.act (h : s.Inv) (he : s.enabled a) (hc : s.Careful a)
    (hh : a = .closed → s.handlers = []) : (s.act a).Phased := by
  have hp := h.toPhased
  cases a
  case call k => exact hp.call hc
  case job =>
    simp only [Session.act]
    split
    case h_1      => exact hp
    case h_2 hj => exact hp.runJob hj
  case opened =>
    exact ⟨by simp [Session.act, opened], fun _ => rfl, (by intro hs; cases hs), (by intro hs; cases hs)⟩
  case deliver n =>
    refine hp.same ⟨rfl, rfl, rfl, rfl⟩ fun hs => ?_
    cases hs.symm.trans he.left
  case handle =>
    simp only [Session.act]
    split
    case h_1 => exact hp
    case h_2 m ms hb =>
      have hs : s.socket ≠ .closed := fun hs => by simp [(hp.closed hs).right.right.left] at hb
      refine Phased.handleMessage (s := { s with batch := ms, received := s.received ++ [m] }) ?_ hs
      exact hp.same ⟨rfl, rfl, rfl, rfl⟩ fun hc => absurd hc hs
  case close => exact hp.close
  case closed =>
    simp only [Session.act, Session.closed, foldl_rejectRequest]
    refine ⟨by simp, fun _ => hc.left.elim (fun hl => hp.waiting (.inl hl)) fun hw => hw,
      (by intro hs; cases hs), fun _ => ?_⟩
    refine ⟨rfl, hh rfl, he.right.left, fun i hi => ?_⟩
    rw [he.right.right] at hi
    obtain ⟨c, _, hi⟩ := List.mem_flatMap.mp hi
    exact opens_own rfl i hi
  case respond st id =>
    simp only [Session.act, Session.respond]
    split
    case h_1 => exact hp
    case h_2 => exact hp.same ⟨rfl, rfl, rfl, rfl⟩ hp.closed
  case complete e => exact hp.same ⟨rfl, rfl, rfl, rfl⟩ hp.closed
  case notify throws => exact hp.same ⟨rfl, rfl, rfl, rfl⟩ hp.closed

-- What the tasks, the lookups and the requests that are underway depend on.
structure SameWires (s s' : Session) : Prop where
  transactions : s'.transactions = s.transactions
  messages     : s'.batch ++ s'.toClient = s.batch ++ s.toClient
  toHub        : s'.toHub = s.toHub
  running      : s'.running = s.running

theorem Wired.same (h : s.Wired) (ho : s'.opens = s.opens) (hl : s'.Listening → s.Listening)
    (hs : s'.socket = .connecting ∨ s'.socket = .open → s.socket = .connecting ∨ s.socket = .open)
    (hw : s'.Listening → s.SameWires s') : s'.Wired where
  keys := ho ▸ h.keys
  synced hl' := by
    have hw := hw hl'
    obtain ⟨lost, ht, hn⟩ := h.synced (hl hl')
    exact ⟨lost, by rw [hw.transactions, hw.messages, hw.toHub, ht], fun hs' => hn (hs hs')⟩
  tracks hl' := by
    have hw := hw hl'
    rw [ho, hw.messages, hw.running]
    exact h.tracks (hl hl')

theorem not_listening (hs : s.socket = .closing ∨ s.socket = .closed) (hb : s.batch = []) :
    ¬s.Listening := by
  rintro (hc | hc | hc)
  · cases hs <;> simp_all
  · cases hs <;> simp_all
  · exact hc hb

theorem socket_close : s.close.socket = .closing ∨ s.close.socket = .closed := by
  simp only [Session.close]
  cases hs : s.socket <;> simp [hs]

theorem batch_close : s.close.batch = s.batch := by
  simp only [Session.close]
  split <;> rfl

theorem not_listening_fail : ¬s.fail.Listening :=
  not_listening socket_close rfl

theorem Wired.fail (h : (s.opens.map (·.1)).Nodup) : s.fail.Wired where
  keys := by
    simp only [Session.fail, close]
    split <;> exact h
  synced := fun hl => absurd hl not_listening_fail
  tracks := fun hl => absurd hl not_listening_fail

theorem opens_reactions (hj : j.opens = []) : (c.own.map fun _ => j).flatMap Job.opens = [] :=
  List.flatMap_eq_nil_iff.mpr (opens_own hj)

-- What is open is changed by messages only.

theorem opens_call {k : NewCall} : (s.call k).opens = s.opens := by
  simp only [Session.call]
  split <;> simp [opens, Job.opens]

theorem opens_opened : s.opened.opens = s.opens := by
  have ho : (s.waiting.map Job.comeAlive).flatMap Job.opens = [] :=
    List.flatMap_eq_nil_iff.mpr (by simp [Job.opens])
  simp [Session.opened, opens, ho]

theorem opens_closed : s.closed.opens = s.opens := by
  have ho : (s.transactions.flatMap fun c => c.own.map fun _ =>
      Job.passOn c (.closed "The session has been closed")).flatMap Job.opens = [] := by
    refine List.flatMap_eq_nil_iff.mpr fun j hj => ?_
    obtain ⟨c, _, hj⟩ := List.mem_flatMap.mp hj
    exact opens_own rfl j hj
  simp only [Session.closed, foldl_rejectRequest, opens, List.flatMap_append, ho, List.append_nil]

theorem opens_runJob (hj : s.jobs = j :: js) (hs : j.Sound)
    (hk : ∀ c id, j = .answered c id → ∀ k ∈ c.key id, k ∉ s.handlers.map (·.1)) :
    ({ s with jobs := js }.runJob j).opens = s.opens := by
  have ho : s.opens = s.handlers ++ (j.opens ++ js.flatMap Job.opens) := by
    rw [opens, hj, List.flatMap_cons]
  rw [ho]
  cases j
  case answered c id =>
    have hr := runJob_answered (s := { s with jobs := js }) hs (hk c id rfl)
    rw [hr, ← List.append_assoc]
    rfl
  case passOn c o => simp [Session.runJob, opens, Job.opens]
  case caught c o => rfl
  case comeAlive c =>
    simp only [Session.runJob, send]
    split
    case isTrue  => simp [rejectRequest, settleRequest, opens, Job.opens]
    case isFalse => split <;> rfl

theorem Wired.close (h : s.Wired) : s.close.Wired := by
  simp only [Session.close]
  split
  case h_3 => exact h
  all_goals
    refine h.same rfl (fun hl => ?_) (fun hs => by simp at hs) fun _ => ⟨rfl, rfl, rfl, rfl⟩
    exact .inr (.inr (by simpa [Listening] using hl))

theorem Wired.call {k : NewCall} (h : s.Wired) : (s.call k).Wired := by
  have ho := opens_call (s := s) (k := k)
  simp only [Session.call] at ho ⊢
  split at ho
  case isTrue hc =>
    rw [if_pos hc]
    exact h.same ho (fun hl => hl) (fun hs => hs) fun _ => ⟨rfl, rfl, rfl, rfl⟩
  case isFalse hc =>
    rw [if_neg hc]
    exact h.same ho (fun hl => hl) (fun hs => hs) fun _ => ⟨rfl, rfl, rfl, rfl⟩

-- The reactions are run only when no message is being handled.
theorem Wired.runJob (h : s.Wired) (hp : s.Phased) (hs : s.Sound) (hj : s.jobs = j :: js)
    (hb : s.batch = []) : ({ s with jobs := js }.runJob j).Wired := by
  have ho : ({ s with jobs := js }.runJob j).opens = s.opens := by
    refine opens_runJob hj (hs.jobs j (hj ▸ List.mem_cons_self)) ?_
    rintro c id rfl
    exact h.fresh_job hj
  cases j
  case comeAlive c =>
    simp only [Session.runJob] at ho ⊢
    split at ho
    case isTrue ha =>
      rw [if_pos ha]
      exact h.same ho (fun hl => hl) (fun hs => hs) fun _ => ⟨rfl, rfl, rfl, rfl⟩
    case isFalse ha =>
      rw [if_neg ha]
      obtain ⟨hca, _⟩ := hp.alive.mp (Decidable.of_not_not ha)
      have hcn : s.socket ≠ .connecting := fun hn => by simp [hp.new hn] at hca
      simp only [send] at ho ⊢
      split at ho
      case isFalse hn =>
        rw [if_neg hn]
        have hl : ¬(s.socket = .connecting ∨ s.socket = .open ∨ s.batch ≠ []) := by
          rintro (hl | hl | hl)
          · exact hcn hl
          · exact hn hl
          · exact hl hb
        exact ⟨ho ▸ h.keys, fun hl' => absurd hl' hl, fun hl' => absurd hl' hl⟩
      case isTrue hso =>
        rw [if_pos hso]
        have hl : s.Listening := .inr (.inl hso)
        obtain ⟨lost, ht, hn⟩ := h.synced hl
        refine ⟨ho ▸ h.keys, fun _ => ⟨[], ?_, fun _ => rfl⟩, fun _ => ho ▸ h.tracks hl⟩
        rw [hn (.inr hso)] at ht
        simp [ht]
  all_goals exact h.same ho (fun hl => hl) (fun hs => hs) fun _ => ⟨rfl, rfl, rfl, rfl⟩

theorem opens_nodup : (m.opens.map (·.1)).Nodup := by
  cases m <;> simp only [HubMessage.opens]
  case response c st id =>
    split
    case isTrue  => cases hk : c.kind <;> simp [Call.key, hk]
    case isFalse => exact List.nodup_nil
  all_goals exact List.nodup_nil

-- The response to a request has been handled.
theorem Wired.response {ts : List Call} (h : s.Wired) (hb : s.batch = .response c st id :: ms)
    (ht : s.transactions = c :: ts) (ho : s'.opens = s.opens ++ (HubMessage.response c st id).opens)
    (hs : s'.socket = s.socket) (hts : s'.transactions = ts) (hbs : s'.batch = ms)
    (hc : s'.toClient = s.toClient) (hh : s'.toHub = s.toHub) (hr : s'.running = s.running) :
    s'.Wired := by
  have hl : s.Listening := .inr (.inr (by simp [hb]))
  obtain ⟨hf, htr⟩ : (∀ e ∈ (HubMessage.response c st id).opens, e.1 ∉ s.opens.map (·.1)) ∧
      Tracks (s.opens ++ (HubMessage.response c st id).opens) (ms ++ s.toClient) s.running := by
    have := h.tracks hl
    rw [hb] at this
    exact this
  obtain ⟨lost, hsy, hn⟩ := h.synced hl
  refine ⟨?_, fun _ => ⟨lost, ?_, fun hs' => hn (hs ▸ hs')⟩, fun _ => ?_⟩
  · rw [ho, List.map_append, List.nodup_append]
    refine ⟨h.keys, opens_nodup, fun k hk k' hk' hkk => ?_⟩
    obtain ⟨e, he, hek⟩ := List.mem_map.mp hk'
    exact hf e he (hek ▸ hkk ▸ hk)
  · rw [hts, hbs, hc, hh]
    rw [hb, ht] at hsy
    exact (List.cons.inj hsy).right
  · rw [ho, hbs, hc, hr]
    exact htr

theorem Wired.handleMessage (h : s.Wired) (hb : s.batch = m :: ms) {r : List HubMessage} :
    ({ s with batch := ms, received := r }.handleMessage m).Wired := by
  have hl : s.Listening := .inr (.inr (by simp [hb]))
  cases m <;> simp only [Session.handleMessage]
  case notification throws =>
    split
    case isTrue => exact Wired.fail h.keys
    case isFalse =>
      obtain ⟨lost, hsy, hn⟩ := h.synced hl
      have ht := h.tracks hl
      rw [hb] at hsy ht
      have ht : Tracks (s.opens ++ []) (ms ++ s.toClient) s.running := ht.right
      rw [List.append_nil] at ht
      exact ⟨h.keys, fun _ => ⟨lost, hsy, hn⟩, fun _ => ht⟩
  case response c st id =>
    obtain ⟨ts, ht⟩ := h.transactions hb
    split
    case h_3 => exact Wired.fail h.keys
    case h_1 hs =>
      cases Status.handling_resolve hs
      simp only [shift, ht]
      refine h.response hb ht ?_ rfl rfl rfl rfl rfl rfl
      cases hk : c.kind <;>
        simp [settleRequest, opens, Job.opens, HubMessage.opens, Call.own, Call.key, hk]
    case h_2 hs =>
      simp only [shift, ht]
      refine h.response hb ht ?_ rfl rfl rfl rfl rfl rfl
      simp [rejectRequest, settleRequest, opens, Job.opens, HubMessage.opens, Status.handling_reject hs]
  case completion k c =>
    have ht := h.tracks hl
    obtain ⟨lost, hsy, hn⟩ := h.synced hl
    rw [hb] at ht hsy
    split
    case h_2 hg =>
      refine Wired.fail ?_
      have hd := Handlers.delete_of_notMem (Handlers.notMem_of_get? hg)
      simp only [hd]
      exact h.keys
    case h_1 t hg =>
      cases h.handler hb hg
      have hm := Handlers.mem_of_get? hg
      have hd : s.handlers.delete k = s.handlers.erase (k, c) :=
        Handlers.delete_eq_erase (keys_handlers h) hm
      have ho : s.opens.erase (k, c) = s.handlers.erase (k, c) ++ s.jobs.flatMap Job.opens :=
        List.erase_append_left _ hm
      refine ⟨?_, fun _ => ⟨lost, hsy, hn⟩, fun _ => ?_⟩
      · have := h.keys.sublist (List.erase_sublist.map (·.1) : ((s.opens.erase (k, c)).map _).Sublist _)
        rw [ho, ← hd] at this
        exact this
      · have := ht.right
        rw [ho, ← hd] at this
        exact this

-- The IDs of tasks that are bytes get to the hub.
theorem hubKey_eq (h : ∀ n ∈ c.taskIds, n < 256) : c.hubKey id = c.key id := by
  cases hk : c.kind <;> simp only [Call.hubKey, Call.key, hk]
  case task t n d =>
    have hn : n < 256 := h n (by simp [Call.taskIds, hk])
    rw [getTaskId_taskBuffer, Nat.mod_eq_of_lt hn]

-- The hub does not use a key twice.
theorem Numbered.fresh {cs : List Call} (h : s.Numbered) (hc : s.toHub = c :: cs)
    (hd : c.kind = .dnsLookup → ∀ e ∈ s.running, e.1 ≠ .dnsLookup id) :
    ∀ k ∈ c.key id, k ∉ s.running.map (·.1) := by
  intro k hk hm
  obtain ⟨e, he, hek⟩ := List.mem_map.mp hm
  cases hkd : c.kind <;> simp only [Call.key, hkd, List.mem_singleton, List.not_mem_nil] at hk
  case dnsLookup => exact hd hkd e he (hek.trans hk)
  case task t n d =>
    have hn := h.distinct
    rw [taskIds, List.nodup_append] at hn
    refine hn.right.right n (List.mem_flatMap.mpr ⟨e, he, ?_⟩) n ?_ rfl
    · rw [hek, hk]
      exact List.mem_singleton_self n
    · simp [unanswered, hc, Call.taskIds, hkd]

theorem Wired.respond (h : s.Wired) (hn : s.Numbered) (he : s.enabled (.respond st id))
    (hc : s.Careful (.respond st id)) : (s.respond st id).Wired := by
  simp only [Session.respond]
  split
  case h_1 => exact h
  case h_2 c cs hh =>
    have hd : c.kind = .dnsLookup → ∀ e ∈ s.running, e.1 ≠ .dnsLookup id := by
      intro hk
      refine he.right ?_
      rw [hh]
      exact congrArg some hk
    have hb : st = .ok → c.hubKey id = c.key id := fun hs => hubKey_eq (hc hs c (by simp [hh]))
    have hr : (if st = .ok then (c.hubKey id).map (·, c) else []) =
        (HubMessage.response c st id).opens := by
      simp only [HubMessage.opens]
      split
      case isTrue hs => rw [hb hs]
      case isFalse   => rfl
    refine ⟨h.keys, fun hl => ?_, fun hl => ?_⟩
    · obtain ⟨lost, hsy, hn⟩ := h.synced hl
      refine ⟨lost, ?_, hn⟩
      rw [hh] at hsy
      simp [hsy, HubMessage.answers]
    · have hf : ∀ e ∈ (HubMessage.response c st id).opens, e.1 ∉ s.running.map (·.1) := by
        intro e hm
        simp only [HubMessage.opens] at hm
        split at hm
        case isFalse => cases hm
        case isTrue =>
          obtain ⟨k, hk, hm⟩ := List.mem_map.mp hm
          rw [← hm]
          exact hn.fresh hh hd k hk
      have hs : Tracks s.running [.response c st id]
        (s.running ++ (HubMessage.response c st id).opens) := ⟨hf, List.Perm.refl _⟩
      have ht := (h.tracks hl).append hs
      rw [List.append_assoc] at ht
      simp only [hr]
      exact ht

theorem Wired.sent {r : Handlers} (h : s.Wired) (hm : m.answers = none)
    (ht : Tracks s.running [m] r) : Wired { s with running := r, toClient := s.toClient ++ [m] } where
  keys := h.keys
  synced hl := by
    obtain ⟨lost, hsy, hn⟩ := h.synced hl
    refine ⟨lost, ?_, hn⟩
    simp [hsy, hm]
  tracks hl := by
    have := (h.tracks hl).append ht
    rw [List.append_assoc] at this
    exact this

theorem Wired.act (h : s.Inv) (he : s.enabled a) (hc : s.Careful a) : (s.act a).Wired := by
  have hw := h.toWired
  cases a
  case call k => exact hw.call
  case job =>
    simp only [Session.act]
    split
    case h_1      => exact hw
    case h_2 hj => exact hw.runJob h.toPhased h.toSound hj he.left
  case opened =>
    exact hw.same opens_opened (fun _ => .inl he.left) (fun _ => .inl he.left)
      fun _ => ⟨rfl, rfl, rfl, rfl⟩
  case deliver n =>
    refine hw.same rfl (fun _ => .inr (.inl he.left)) (fun _ => .inr he.left) fun _ => ?_
    exact ⟨rfl, by simp [Session.act, he.right.left], rfl, rfl⟩
  case handle =>
    simp only [Session.act]
    split
    case h_1 => exact hw
    case h_2 hb => exact hw.handleMessage hb
  case close => exact hw.close
  case closed =>
    have hl : ¬s.closed.Listening := by
      simp only [Session.closed, foldl_rejectRequest]
      exact not_listening (.inr rfl) he.right.left
    have hs : ¬(s.closed.socket = .connecting ∨ s.closed.socket = .open) := by
      simp [Session.closed, foldl_rejectRequest]
    exact hw.same opens_closed (fun h => absurd h hl) (fun h => absurd h hs) fun h => absurd h hl
  case respond st id => exact hw.respond h.toNumbered he hc
  case complete e =>
    exact hw.sent rfl ⟨he, List.Perm.refl _⟩
  case notify throws =>
    exact hw.sent rfl ⟨fun e he => (by cases he), by simp [HubMessage.opens, Tracks]⟩

end Yogi.Web.Session
