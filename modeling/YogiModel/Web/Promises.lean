import YogiModel.Web.SessionWiring
import Mathlib

namespace Yogi.Web.Session

variable {s s' : Session} {a : Action} {c : Call} {o : Outcome} {j : Job} {js : List Job} {id : Int}
  {st : Status} {m : HubMessage} {ms : List HubMessage} {k : Key}

theorem Numbered.of_count (h : s.Numbered) (hn : s'.nextTaskId = s.nextTaskId)
    (hc : ∀ n, (s'.running.flatMap (·.1.taskIds)).count n + (s'.unanswered.flatMap Call.taskIds).count n ≤
      (s.running.flatMap (·.1.taskIds)).count n + (s.unanswered.flatMap Call.taskIds).count n) :
    s'.Numbered := by
  have hle : ∀ n, s'.taskIds.count n ≤ s.taskIds.count n := by
    intro n
    simpa only [taskIds, List.count_append] using hc n
  refine ⟨List.nodup_iff_count_le_one.mpr fun n => ?_, fun n hm => ?_⟩
  · exact Nat.le_trans (hle n) (List.nodup_iff_count_le_one.mp h.distinct n)
  · rw [hn]
    exact h.lt n (List.count_pos_iff.mp (Nat.lt_of_lt_of_le (List.count_pos_iff.mpr hm) (hle n)))

theorem Numbered.same (h : s.Numbered) (hn : s'.nextTaskId = s.nextTaskId)
    (hr : s'.running = s.running) (hu : s'.unanswered = s.unanswered) : s'.Numbered :=
  h.of_count hn fun n => by simp only [hr, hu, Nat.le_refl]

theorem Numbered.call {k : NewCall} (h : s.Numbered) : (s.call k).Numbered := by
  have hp : (s.call k).taskIds.Perm (s.taskIds ++ (⟨s.calls, s.kind k⟩ : Call).taskIds) := by
    refine List.perm_iff_count.mpr fun n => ?_
    simp only [Session.call]
    split
    case isFalse => simp [taskIds, unanswered, List.count_append]
    case isTrue =>
      simp [taskIds, unanswered, Job.unsent, List.count_append]
      omega
  have hn : (s.call k).nextTaskId = s.nextTaskId + k.tasks := by
    simp only [Session.call]
    split <;> rfl
  have hm : ∀ n ∈ (⟨s.calls, s.kind k⟩ : Call).taskIds, n = s.nextTaskId ∧ k.tasks = 1 := by
    intro n hn
    cases k <;> simp_all [Call.taskIds, kind, NewCall.tasks]
  refine ⟨hp.nodup_iff.mpr (List.nodup_append.mpr ⟨h.distinct, ?_, fun n hn i hi hni => ?_⟩),
    fun n hmem => ?_⟩
  · cases k <;> simp [Call.taskIds, kind]
  · have := h.lt n hn
    rw [hni, (hm i hi).left] at this
    exact Nat.lt_irrefl _ this
  · rw [hn]
    cases List.mem_append.mp (hp.mem_iff.mp hmem)
    case inl hmem => exact Nat.lt_add_right _ (h.lt n hmem)
    case inr hmem =>
      obtain ⟨hi, ht⟩ := hm n hmem
      rw [hi, ht]
      exact Nat.lt_succ_self _

theorem unsent_reactions (cs : List Call) (f : Call → Job) (hf : ∀ c, (f c).unsent = []) :
    (cs.flatMap fun c => c.own.map fun _ => f c).flatMap Job.unsent = [] := by
  refine List.flatMap_eq_nil_iff.mpr fun j hj => ?_
  obtain ⟨c, _, hj⟩ := List.mem_flatMap.mp hj
  obtain ⟨_, _, hj⟩ := List.mem_map.mp hj
  rw [← hj]
  exact hf c

theorem Numbered.fail (h : s.Numbered) : s.fail.Numbered := by
  simp only [Session.fail, close]
  split <;> exact h.same rfl rfl rfl

theorem Numbered.settleRequest (h : s.Numbered) (hj : j.unsent = []) :
    (s.settleRequest c o j).Numbered := by
  refine h.same rfl rfl ?_
  have := unsent_reactions [c] (fun _ => j) fun _ => hj
  simp only [List.flatMap_cons, List.flatMap_nil, List.append_nil] at this
  simp only [unanswered, Session.settleRequest, List.flatMap_append, this, List.append_nil]

theorem Numbered.runJob (h : s.Numbered) (hj : s.jobs = j :: js) :
    ({ s with jobs := js }.runJob j).Numbered := by
  have hs : j.unsent = [] → Numbered { s with jobs := js } := fun hu =>
    h.same rfl rfl (by simp [unanswered, hj, hu])
  cases j
  case answered c id =>
    exact (hs rfl).same rfl rfl rfl
  case passOn c o =>
    refine (hs rfl).same rfl rfl ?_
    simp [Session.runJob, unanswered, Job.unsent]
  case caught c o => exact (hs rfl).same rfl rfl rfl
  case comeAlive c =>
    simp only [Session.runJob]
    split
    case isTrue =>
      refine Numbered.settleRequest (s := { s with jobs := js }) ?_ rfl
      refine h.of_count rfl fun n => ?_
      simp [unanswered, hj, Job.unsent, List.count_append]
    case isFalse =>
      simp only [send]
      split
      all_goals
        refine h.of_count rfl fun n => ?_
        simp [unanswered, hj, Job.unsent, List.count_append]

theorem Numbered.handleMessage (h : s.Numbered) : (s.handleMessage m).Numbered := by
  cases m <;> simp only [Session.handleMessage]
  case notification throws =>
    split
    case isTrue  => exact h.fail
    case isFalse => exact h
  case response c st id =>
    split
    case h_3 => exact h.fail
    all_goals
      simp only [shift]
      split
      case h_1 => exact h.fail
      case h_2 => exact Numbered.settleRequest (h.same rfl rfl rfl) rfl
  case completion k c =>
    split
    case h_1 => exact h.same rfl rfl rfl
    case h_2 => exact Numbered.fail (h.same rfl rfl rfl)

theorem Numbered.respond (h : s.Numbered) (hc : s.Careful (.respond st id)) :
    (s.respond st id).Numbered := by
  simp only [Session.respond]
  split
  case h_1 => exact h
  case h_2 c cs hh =>
    refine h.of_count rfl fun n => ?_
    have hk : (if st = .ok then (c.hubKey id).map (·, c) else []).flatMap (·.1.taskIds) =
        if st = .ok then c.taskIds else [] := by
      split
      case isFalse => rfl
      case isTrue hs =>
        rw [hubKey_eq (hc hs c (by simp [hh]))]
        cases hk : c.kind <;> simp [Call.key, Call.taskIds, Key.taskIds, hk]
    simp only [List.flatMap_append, List.count_append, hk, unanswered, hh, List.cons_append,
      List.flatMap_cons]
    split
    case isTrue  => omega
    case isFalse => simp

theorem Numbered.act (h : s.Inv) (hc : s.Careful a) : (s.act a).Numbered := by
  have hn := h.toNumbered
  cases a
  case call k => exact hn.call
  case job =>
    simp only [Session.act]
    split
    case h_1      => exact hn
    case h_2 hj => exact hn.runJob hj
  case opened =>
    refine hn.same rfl rfl ?_
    have hw : (s.waiting.map Job.comeAlive).flatMap Job.unsent = s.waiting := by
      simp [List.flatMap_map, Job.unsent]
    simp [Session.act, Session.opened, unanswered, hw]
  case deliver n => exact hn.same rfl rfl rfl
  case handle =>
    simp only [Session.act]
    split
    case h_1 => exact hn
    case h_2 => exact Numbered.handleMessage (hn.same rfl rfl rfl)
  case close =>
    simp only [Session.act, Session.close]
    split <;> exact hn.same rfl rfl rfl
  case closed =>
    simp only [Session.act, Session.closed, foldl_rejectRequest]
    refine hn.same rfl rfl ?_
    simp only [unanswered, List.flatMap_append]
    rw [unsent_reactions _ _ fun _ => rfl, List.append_nil]
  case respond st id => exact hn.respond hc
  case complete e =>
    refine hn.of_count rfl fun n => Nat.add_le_add_right ?_ _
    exact (List.erase_sublist.flatMap _).count_le n
  case notify throws => exact hn.same rfl rfl rfl

-- What has been settled remains so.
theorem mem_settled {p : Promise} {es : List (Promise × Outcome)} (hp : p ∈ s.settled.map (·.1)) :
    p ∈ (s.settled ++ es).map (·.1) := by
  rw [List.map_append]
  exact List.mem_append_left _ hp

theorem settled_runJob : ∀ p ∈ s.settled.map (·.1), p ∈ (s.runJob j).settled.map (·.1) := by
  intro p hp
  cases j <;> simp only [Session.runJob]
  case comeAlive c =>
    split
    case isTrue  => exact mem_settled hp
    case isFalse =>
      simp only [send]
      split <;> exact hp
  case caught c o => exact mem_settled hp
  all_goals exact hp

theorem received_runJob : (s.runJob j).received = s.received := by
  cases j <;> simp only [Session.runJob]
  case comeAlive c =>
    split
    case isTrue  => rfl
    case isFalse =>
      simp only [send]
      split <;> rfl
  all_goals rfl

theorem Received.mono (h : s.Received) (ho : s'.opens = s.opens) (hr : s'.received = s.received)
    (hs : ∀ p ∈ s.settled.map (·.1), p ∈ s'.settled.map (·.1)) : s'.Received where
  completions := fun k c hm => hs _ (h.completions k c (hr ▸ hm))
  responses   := by rw [ho, hr]; exact h.responses

theorem mem_opens {e : Key × Call} (h : e ∈ m.opens) :
    e.2.kind ≠ .request ∧ ∃ id, m = .response e.2 .ok id := by
  cases m <;> simp only [HubMessage.opens] at h
  case response c st id =>
    split at h
    case isFalse => cases h
    case isTrue hs =>
      obtain ⟨k, hk, he⟩ := List.mem_map.mp h
      rw [← he, ← hs]
      refine ⟨fun hc => ?_, id, rfl⟩
      have hc : c.kind = .request := hc
      simp [Call.key, hc] at hk
  all_goals cases h

theorem Received.receive (h : s.Received) (hr : s'.received = s.received ++ [m])
    (ho : ∀ e ∈ s'.opens, e ∈ s.opens ∨ e ∈ m.opens)
    (hs : ∀ p ∈ s.settled.map (·.1), p ∈ s'.settled.map (·.1))
    (hm : ∀ k c, m = .completion k c → .call c ∈ s'.settled.map (·.1)) : s'.Received where
  completions k c hk := by
    rw [hr] at hk
    cases List.mem_append.mp hk
    case inl hk => exact hs _ (h.completions k c hk)
    case inr hk => exact hm k c (List.mem_singleton.mp hk).symm
  responses e he := by
    rw [hr]
    cases ho e he
    case inl he =>
      obtain ⟨hk, id, hi⟩ := h.responses e he
      exact ⟨hk, id, List.mem_append_left _ hi⟩
    case inr he =>
      obtain ⟨hk, id, hi⟩ := mem_opens he
      exact ⟨hk, id, List.mem_append_right _ (List.mem_singleton.mpr hi.symm)⟩

-- A completion finds its handler unless the response to the request has just been handled.
theorem Wired.mem_handlers (h : s.Wired) (hb : s.batch = .completion k c :: ms)
    (hj : ∀ id, .answered c id ∉ s.jobs) : (k, c) ∈ s.handlers := by
  have ht := h.tracks (.inr (.inr (by simp [hb])))
  rw [hb] at ht
  refine (List.mem_append.mp ht.left).resolve_right fun hm => ?_
  obtain ⟨j, hjm, hm⟩ := List.mem_flatMap.mp hm
  cases j <;> simp only [Job.opens] at hm
  case answered d id =>
    obtain ⟨_, _, hd⟩ := List.mem_map.mp hm
    cases hd
    exact hj id hjm
  all_goals cases hm

theorem Received.handle (h : s.Inv) (hb : s.batch = m :: ms)
    (hc : ∀ k c, m = .completion k c → ∀ id, .answered c id ∉ s.jobs) :
    ({ s with batch := ms, received := s.received ++ [m] }.handleMessage m).Received := by
  have hr := h.toReceived
  let s₁ : Session := { s with batch := ms, received := s.received ++ [m] }
  have hf : (∀ k c, m ≠ .completion k c) → s₁.fail.Received := by
    intro hm
    refine hr.receive (m := m) ?_ ?_ ?_ fun k c hkc => absurd hkc (hm k c)
    all_goals simp only [s₁, Session.fail, close]
    · split <;> rfl
    · split <;> exact fun e he => .inl he
    · split <;> exact fun p hp => hp
  cases m <;> simp only [Session.handleMessage]
  case notification throws =>
    split
    case isTrue  => exact hf (by simp)
    case isFalse => exact hr.receive rfl (fun e he => .inl he) (fun p hp => hp) (by simp)
  case response c st id =>
    obtain ⟨ts, ht⟩ := h.toWired.transactions hb
    split
    case h_3 => exact hf (by simp)
    case h_1 hs =>
      cases Status.handling_resolve hs
      simp only [shift, ht]
      refine hr.receive rfl (fun e he => ?_) (fun p hp => mem_settled hp) (by simp)
      refine List.mem_append.mp ?_
      cases hk : c.kind <;>
        simpa [settleRequest, opens, Job.opens, HubMessage.opens, Call.own, Call.key, hk] using he
    case h_2 hs =>
      simp only [shift, ht]
      refine hr.receive rfl (fun e he => .inl ?_) (fun p hp => mem_settled hp) (by simp)
      simpa [rejectRequest, settleRequest, opens, Job.opens] using he
  case completion k c =>
    have hm := h.toWired.mem_handlers hb (hc k c rfl)
    have hg := Handlers.get?_of_mem (keys_handlers h.toWired) hm
    simp only [hg]
    refine hr.receive rfl (fun e he => .inl ?_) (fun p hp => mem_settled hp) fun k' c' hkc => ?_
    · cases List.mem_append.mp he
      case inl he => exact List.mem_append_left _ (List.mem_filter.mp he).left
      case inr he => exact List.mem_append_right _ he
    · cases hkc
      simp [settle]

theorem Received.act (h : s.Inv) (hc : s.Careful a) : (s.act a).Received := by
  have hr := h.toReceived
  cases a
  case call k =>
    have ho := opens_call (s := s) (k := k)
    refine hr.mono ho ?_ ?_ <;> simp only [Session.act, Session.call] <;> split
    all_goals first | rfl | exact fun p hp => hp
  case job =>
    simp only [Session.act]
    split
    case h_1 => exact hr
    case h_2 j js hj =>
      refine hr.mono (opens_runJob hj (h.jobs j (hj ▸ List.mem_cons_self)) ?_) received_runJob
        (settled_runJob (s := { s with jobs := js }))
      rintro c id rfl
      exact h.toWired.fresh_job hj
  case opened => exact hr.mono opens_opened rfl fun p hp => hp
  case deliver n => exact hr.mono rfl rfl fun p hp => hp
  case handle =>
    simp only [Session.act]
    split
    case h_1 => exact hr
    case h_2 m ms hb =>
      refine Received.handle h hb fun k c hm id hj => hc m (by simp [hb]) c ?_ ?_
      · simp [hm, HubMessage.completes]
      · exact List.mem_flatMap.mpr ⟨_, hj, List.mem_singleton_self c⟩
  case close =>
    simp only [Session.act, Session.close]
    split <;> exact hr.mono rfl rfl fun p hp => hp
  case closed =>
    refine hr.mono opens_closed ?_ ?_ <;> simp only [Session.act, Session.closed, foldl_rejectRequest]
    exact fun p hp => mem_settled hp
  case respond st id =>
    simp only [Session.act, Session.respond]
    split <;> exact hr.mono rfl rfl fun p hp => hp
  case complete e => exact hr.mono rfl rfl fun p hp => hp
  case notify throws => exact hr.mono rfl rfl fun p hp => hp

-- If all tasks and lookups have been completed, then there are no handlers left.
theorem Inv.handlers_eq_nil (h : s.Inv)
    (hc : ∀ c ∈ s.received.flatMap HubMessage.starts, c ∈ s.received.flatMap HubMessage.completes) :
    s.handlers = [] := by
  refine List.eq_nil_iff_forall_not_mem.mpr fun e he => ?_
  obtain ⟨hk, id, hi⟩ := h.responses e (List.mem_append_left _ he)
  obtain ⟨m, hm, hcm⟩ := List.mem_flatMap.mp
    (hc e.2 (List.mem_flatMap.mpr ⟨_, hi, by simp [HubMessage.starts, hk]⟩))
  have hs : .call e.2 ∈ s.settled.map (·.1) := by
    cases m <;> simp only [HubMessage.completes, List.mem_singleton, List.not_mem_nil] at hcm
    rw [hcm]
    exact h.completions _ _ hm
  have hp := List.nodup_iff_count_le_one.mp h.nodup (.call e.2)
  rw [← h.perm.count_eq, count_eq_account, account] at hp
  have h₁ := List.count_pos_iff.mpr hs
  have h₂ : 0 < (s.handlers.map fun e => Promise.call e.2).count (.call e.2) :=
    List.count_pos_iff.mpr (List.mem_map.mpr ⟨e, he, rfl⟩)
  omega

theorem Inv.act (h : s.Inv) (he : s.enabled a) (hc : s.Careful a) : (s.act a).Inv where
  toCounted  := Counted.act h he
  toSound    := Sound.act h
  toPhased   := Phased.act h he hc fun ha => by
    subst ha
    exact h.handlers_eq_nil hc.right
  toWired    := Wired.act h he hc
  toNumbered := Numbered.act h hc
  toReceived := Received.act h hc

theorem inv_init : Inv {} where
  perm        := by simp [owed]
  nodup       := by simp
  fresh       := by simp
  settled     := by simp
  jobs        := by simp
  alive       := by simp
  waiting     := by simp
  new         := by simp
  closed      := by simp
  keys        := by simp [opens]
  synced      := fun _ => ⟨[], by simp, by simp⟩
  tracks      := fun _ => List.Perm.refl []
  distinct    := by simp [taskIds, unanswered]
  lt          := by simp [taskIds, unanswered]
  completions := by simp
  responses   := by simp [opens]

theorem Inv.of_reachable (hr : (machine.restrict Careful).Reachable s) : s.Inv := by
  refine hr.preserves ?_ ?_
  · rintro _ rfl
    exact inv_init
  · intro s a s' h he hs
    cases hs
    exact h.act he.left he.right

-- What is expected of a session that has been closed.
structure Settled (s : Session) : Prop where
  once     : ∀ p ∈ s.handed, ∃ o, s.settled.filter (·.1 = p) = [(p, o)] ∧ o.BelongsTo p
  handlers : s.handlers = []

theorem filter_eq_singleton {α β : Type} [DecidableEq α] {es : List (α × β)} {p : α}
    (h : (es.map (·.1)).count p = 1) : ∃ o, es.filter (·.1 = p) = [(p, o)] := by
  have hl : (es.filter (·.1 = p)).length = 1 := by
    rw [← h, List.count, List.countP_map, List.countP_eq_length_filter]
    rfl
  obtain ⟨e, he⟩ := List.length_eq_one_iff.mp hl
  have hm : e ∈ es.filter (·.1 = p) := by simp [he]
  have hp : e.1 = p := by simpa using (List.mem_filter.mp hm).right
  exact ⟨e.2, by rw [he, ← hp]⟩

theorem Inv.settled_of_closed (h : s.Inv) (hs : s.socket = .closed) (hj : s.jobs = []) : s.Settled where
  handlers := (h.closed hs).right.left
  once p hp := by
    obtain ⟨ht, hh, _, _⟩ := h.closed hs
    have ho : s.owed = [] := by simp [owed, ht, hh, hj, h.waiting (.inr hs)]
    have hc := h.perm.count_eq p
    rw [ho, List.append_nil, List.count_eq_one_of_mem h.nodup hp] at hc
    obtain ⟨o, hf⟩ := filter_eq_singleton hc
    have hm : (p, o) ∈ s.settled.filter (·.1 = p) := by simp [hf]
    exact ⟨o, hf, h.toSound.settled _ (List.mem_filter.mp hm).left⟩

instance (s : Session) (a : Action) : Decidable ((machine.restrict Careful).enabled s a) :=
  inferInstanceAs (Decidable (s.enabled a ∧ s.Careful a))

-- A task and a lookup are completed and a request is rejected as the session is closed.
def completedCalls : List Action :=
  [.call (.task 28 [97, 0, 98, 0]), .opened, .job, .call .dnsLookup, .job, .respond .ok 0, .respond .ok 7,
    .deliver 2, .handle, .handle, .job, .job, .complete (.dnsLookup 7, ⟨1, .dnsLookup⟩),
    .complete (.task 1, ⟨0, .task 28 1 [97, 0, 98, 0]⟩), .deliver 2, .handle, .handle,
    .call .request, .job, .closed]

-- A task that has been started is still open when the socket is closed.
def abandonedTask : List Action :=
  [.opened, .call (.task 28 [97, 0, 98, 0]), .job, .respond .ok 0, .deliver 1, .handle, .job, .closed]

end Yogi.Web.Session
