import YogiModel.Web.Session

namespace Yogi.Web

variable {h h' r r' : Handlers} {k : Key} {c : Call} {m : HubMessage} {ms ms' : List HubMessage}

namespace Handlers

theorem get?_of_mem (hn : (h.map (·.1)).Nodup) (hm : (k, c) ∈ h) : h.get? k = some c := by
  induction h
  case nil => cases hm
  case cons e h ih =>
    obtain ⟨hk, hn⟩ := List.nodup_cons.mp hn
    cases List.mem_cons.mp hm
    case inl he => simp [get?, ← he]
    case inr hm =>
      have hne : e.1 ≠ k := fun he => hk (List.mem_map.mpr ⟨_, hm, he.symm⟩)
      simpa [get?, List.find?_cons, hne] using ih hn hm

theorem mem_of_get? (h' : h.get? k = some c) : (k, c) ∈ h := by
  obtain ⟨e, he, hc⟩ := Option.map_eq_some_iff.mp h'
  have hk : e.1 = k := by simpa using List.find?_some he
  rw [← hk, ← hc]
  exact List.mem_of_find?_eq_some he

theorem notMem_of_get? (h' : h.get? k = none) : k ∉ h.map (·.1) := by
  intro hk
  obtain ⟨e, he, hek⟩ := List.mem_map.mp hk
  have := List.find?_eq_none.mp (Option.map_eq_none_iff.mp h') e he
  simp [hek] at this

theorem delete_of_notMem (hk : k ∉ h.map (·.1)) : h.delete k = h := by
  refine List.filter_eq_self.mpr fun e he => ?_
  have hne : e.1 ≠ k := fun hek => hk (hek ▸ List.mem_map_of_mem he)
  simp [hne]

theorem set_of_notMem (hk : k ∉ h.map (·.1)) : h.set k c = h ++ [(k, c)] := by
  rw [set, delete_of_notMem hk]

theorem delete_eq_erase (hn : (h.map (·.1)).Nodup) (hm : (k, c) ∈ h) : h.delete k = h.erase (k, c) := by
  induction h
  case nil => cases hm
  case cons e h ih =>
    obtain ⟨hk, hn⟩ := List.nodup_cons.mp hn
    cases Decidable.em (e = (k, c))
    case inl he =>
      subst he
      rw [List.erase_cons_head]
      simpa [delete] using delete_of_notMem hk
    case inr he =>
      have hm := (List.mem_cons.mp hm).resolve_left fun h => he h.symm
      have hne : e.1 ≠ k := fun hek => hk (List.mem_map.mpr ⟨_, hm, hek.symm⟩)
      have := ih hn hm
      rw [List.erase_cons_tail (by simpa using he)]
      simpa [delete, hne] using this

end Handlers

-- What the client registers when it has received a message.
def HubMessage.opens : HubMessage → Handlers
  | .response c st id => if st = .ok then (c.key id).map (·, c) else []
  | _                 => []

def HubMessage.answers : HubMessage → Option Call
  | .response c _ _ => some c
  | _               => none

-- The task or lookup that has been started or completed according to a message.
def HubMessage.starts : HubMessage → List Call
  | .response c st _ => if st = .ok ∧ c.kind ≠ .request then [c] else []
  | _                => []

def HubMessage.completes : HubMessage → List Call
  | .completion _ c => [c]
  | _               => []

-- Messages that turn the tasks and lookups that are open into those that run: they are opened under a
-- key that is not in use and completed under the key they are known by.
def Tracks : Handlers → List HubMessage → Handlers → Prop
  | h, [],                   r => h.Perm r
  | h, .completion k c :: ms, r => (k, c) ∈ h ∧ Tracks (h.erase (k, c)) ms r
  | h, m :: ms,              r => (∀ e ∈ m.opens, e.1 ∉ h.map (·.1)) ∧ Tracks (h ++ m.opens) ms r

theorem Tracks.perm (hp : h.Perm h') (ht : Tracks h ms r) : Tracks h' ms r := by
  induction ms generalizing h h'
  case nil => exact hp.symm.trans ht
  case cons m ms ih =>
    cases m
    case completion k c =>
      obtain ⟨hm, ht⟩ := ht
      exact ⟨hp.mem_iff.mp hm, ih (hp.erase _) ht⟩
    case response c st id =>
      obtain ⟨hf, ht⟩ := ht
      exact ⟨fun e he hk => hf e he ((hp.map _).mem_iff.mpr hk), ih (hp.append_right _) ht⟩
    case notification =>
      obtain ⟨hf, ht⟩ := ht
      exact ⟨fun e he hk => hf e he ((hp.map _).mem_iff.mpr hk), ih (hp.append_right _) ht⟩

theorem Tracks.append (ht : Tracks h ms r) (ht' : Tracks r ms' r') : Tracks h (ms ++ ms') r' := by
  induction ms generalizing h
  case nil => exact ht'.perm ht.symm
  case cons m ms ih =>
    cases m
    all_goals exact ⟨ht.left, ih ht.right⟩

end Yogi.Web
