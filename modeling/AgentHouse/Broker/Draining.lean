import AgentHouse.Broker.Sound
import AgentHouse.Lib.Frames

/-!
# Worker broker: observing and draining workers

A program that only reads moves the world as the host does by itself. Draining a role group also
sends signals: each of them goes, for the worker in the registry, to a process that was opened
before its uid and its start time were checked. Whether the process was replaced in between
does not matter, as its successor has another serial number.
-/

namespace AgentHouse.Broker

open Op

variable {s s' t : World} {p p' q : Process} {l : Launch} {k : Key} {e : Entry} {w : Worker}

/-- Programs that only read. -/
def reads : Frame Act World where
  contract := contract
  inv := Sound
  kept := sound_preserved
  rel := Drift
  refl _ := .refl
  trans := .trans

/-- Only the role group of one worker is drained. -/
structure Drains (k : Key) (s s' : World) : Prop extends Wanes s s' where
  signals : ∃ new, s'.signals = s.signals ++ new ∧ ∀ g ∈ new, ∃ p e,
    s.registry.find k = some e ∧ g = .drain p e.worker s.registry
  children : ∀ x, x.1 ≠ k → (x ∈ s'.children ↔ x ∈ s.children)

/-- The world alone drains nothing that draining would not. -/
theorem Drift.drains (h : Drift s s') : Drains k s s' :=
  ⟨h.drifts.toWanes, ⟨[], by rw [h.drifts.signals, List.append_nil], fun _ hg => nomatch hg⟩,
    fun x _ => by rw [h.drifts.children]⟩

theorem Drains.trans (h : Drains k s s') (h' : Drains k s' t) : Drains k s t where
  toWanes := h.toWanes.trans h'.toWanes
  signals := by
    obtain ⟨new, hnew, hall⟩ := h.signals
    obtain ⟨new', hnew', hall'⟩ := h'.signals
    refine ⟨new ++ new', by rw [hnew', hnew, List.append_assoc], fun g hg => ?_⟩
    obtain hg | hg := List.mem_append.mp hg
    · exact hall g hg
    · rw [h.registry] at hall'
      exact hall' g hg
  children x hx := (h'.children x hx).trans (h.children x hx)

/-- Programs that drain the role group of one worker. -/
def drains (k : Key) : Frame Act World where
  contract := contract
  inv := Sound
  kept := sound_preserved
  rel := Drains k
  refl _ := Drift.drains .refl
  trans := .trans

section Reading

/-- A read tells of a state that the world has drifted to. -/
theorem leads_read {β : Type} {a : Act β} {Q : β → World → Prop} (hs : Sound s)
    (ha : allowed a s) (hread : ∀ t b s', eff a t b s' → s' = t)
    (hQ : ∀ b s', Drift s s' → Sound s' → eff a s' b s' → Q b s') :
    (perform a : Op Act IoError β).Leads reads Q s := by
  refine leads_perform hs ha fun b s' ⟨t, hdrift, heff⟩ hs' => ?_
  obtain rfl := hread t b s' heff
  exact ⟨hdrift, hQ b s' hdrift hs' heff⟩

/-- A read that may fail tells nothing then. -/
theorem leads_try {β : Type} {a : Act (Except IoError β)} {Q : β → World → Prop} (hs : Sound s)
    (ha : allowed a s) (hread : ∀ t b s', eff a t b s' → s' = t)
    (hQ : ∀ b s', Drift s s' → Sound s' → eff a s' (.ok b) s' → Q b s') :
    (attempt a).Leads reads Q s := by
  refine leads_attempt hs ha fun r s' ⟨t, hdrift, heff⟩ hs' => ?_
  obtain rfl := hread t r s' heff
  refine ⟨hdrift, fun b hb => ?_⟩
  subst hb
  exact hQ b s' hdrift hs' heff

theorem leads_other (hs : Sound s) : other.Leads reads (fun _ _ => True) s :=
  leads_try hs trivial (fun _ _ _ h => h) fun _ _ _ _ _ => trivial

/-- A program that only reads also stays in the frame of a drain. -/
theorem reads_drains {α : Type} {Q : α → World → Prop} {p : Op Act IoError α}
    (h : p.Leads reads Q s) : p.Leads (drains k) Q s :=
  h.wider rfl (fun _ hs => hs) fun _ hdrift => Drift.drains hdrift

/-- A dead leader is no worker, and neither is its successor. -/
theorem leaderAlive_leads (hs : Sound s) : (leaderAlive w).Leads reads (fun b s' => b = false →
    ∀ p l, s'.IsWorker p l → p.pid = w.pid → w.starttime ≠ some p.start) s := by
  refine leads_bind (leads_read (Q := fun b s' => b = false → ∀ p ∈ s'.procs, p.pid ≠ w.pid) hs
    trivial (fun _ _ _ h => h.1) ?_) ?_
  · rintro b s' - - ⟨-, halive⟩ hb p hp hpid
    rw [halive.mpr ⟨p, hp, hpid⟩] at hb
    cases hb
  · intro b s' hs' hdrift hdead
    refine leads_ite (fun hb => ?_) fun hb => ?_
    · refine leads_bind (leads_read (Q := fun b s' => ∀ p ∈ s'.procs, p.pid = w.pid →
        b = some p.start) hs' trivial (fun _ _ _ h => h.1) ?_) ?_
      · rintro b s'' - - ⟨-, hstart⟩ p hp hpid
        exact (hstart p.start).mpr ⟨p, List.mem_append_left _ hp, hpid, rfl⟩
      · intro t s'' hs'' _ hstart
        refine leads_pure hs'' fun hne p l hw hpid heq => ?_
        exact of_decide_eq_false hne (heq.trans (hstart p hw.1 hpid).symm)
    · refine leads_pure hs' fun _ p l hw hpid => ?_
      exact absurd hpid (hdead (by simpa using hb) p hw.1)

/-- Who has the assigned credentials at the pid of a worker. -/
def HasCredentials (w : Worker) (s : World) : Prop :=
  ∃ identity, w.isolation = some identity ∧
    ∃ p ∈ s.owners, p.pid = w.pid ∧ All p.uids identity.uid ∧ All p.gids identity.gid

/-- A worker that matches has its credentials. -/
theorem matchesWorker_leads (hs : Sound s) :
    (matchesWorker w).Leads reads (fun b s' => b = true → HasCredentials w s') s := by
  unfold matchesWorker
  cases hw : w.isolation with
  | none => exact leads_throw hs
  | some identity =>
    refine leads_bind (leaderAlive_leads hs) fun b s' hs' _ _ => ?_
    refine leads_ite (fun _ => ?_) fun _ => leads_pure hs' fun h => nomatch h
    refine leads_bind (leads_try (Q := fun x s'' => ∃ p ∈ s''.owners, p.pid = w.pid ∧
      p.uids = x.1 ∧ p.gids = x.2) hs' trivial (fun _ _ _ h => h.1) fun x _ _ _ h => h.2) ?_
    rintro ⟨uids, gids⟩ s'' hs'' - ⟨p, hp, hpid, rfl, rfl⟩
    exact leads_pure hs'' fun h => ⟨identity, hw, p, hp, hpid, of_decide_eq_true h⟩

theorem members_leads {path : String × Key} (hs : Sound s) :
    (attempt (.members path) : Op Act IoError _).Leads reads (fun _ _ => True) s :=
  leads_try hs trivial (fun _ _ _ h => h.1) fun _ _ _ _ _ => trivial

/-- A group that is found empty has no process. -/
theorem empty_leads {path : String × Key} (hs : Sound s) :
    (attempt (.empty path) : Op Act IoError _).Leads reads
      (fun b s' => b = true → s'.Unpopulated path) s := by
  refine leads_try hs trivial (fun _ _ _ h => h.1) fun b s' _ _ h hb => ?_
  rw [hb] at h
  exact h.2 rfl

/-- A group that is found vacant has no process. -/
theorem vacant_leads {path : String × Key} {pids : List ℕ} (hs : Sound s) :
    (vacant path pids).Leads reads (fun b s' => b = true → s'.Unpopulated path) s :=
  leads_ite (fun _ => empty_leads hs) fun _ => leads_pure hs fun h => nomatch h

/-- An empty role group has no worker, if no launch is under way. -/
theorem Sound.vacated (hs : Sound s) (hu : s.Unpopulated (group s.registry.config k))
    (hfind : ∀ e, s.registry.find k = some e → e.intent = false) : s.Vacated k := by
  rintro p l hw rfl
  obtain ⟨hgroup, e, he, _, hruns⟩ := hs.memory.workers p l hw
  refine hu p hw.1 ?_
  rw [(hruns (hfind e he)).1, hgroup]

end Reading

section Signals

/-- The process that was opened, as long as it lives, is the one at its pid. -/
def Opened (pid n : ℕ) (s : World) : Prop :=
  n < s.born ∧ ∀ p ∈ s.procs, p.serial = n → p.pid = pid

theorem Opened.wanes {pid n : ℕ} (h : Opened pid n s) (hd : Wanes s s') : Opened pid n s' := by
  refine ⟨h.1.trans_le hd.born, fun p' hp' hserial => ?_⟩
  obtain ⟨p, hp, hpserial, hc⟩ := hd.continues hp' hserial h.1
  exact hc.pid.trans (h.2 p hp hpserial)

/-- The opened process is the owner of its pid. -/
theorem Opened.owner {pid n : ℕ} (h : Opened pid n s) (hs : Sound s) (hp : p ∈ s.procs)
    (hserial : p.serial = n) (hq : q ∈ s.owners) (hpid : q.pid = pid) : q = p :=
  hs.distinct.pids q hq p (List.mem_append_left _ hp) (hpid.trans (h.2 p hp hserial).symm)

/-- A handle is one of the process that had the number. -/
theorem pidfdOpen_leads {pid : ℕ} (hs : Sound s) :
    (attempt (.pidfdOpen pid) : Op Act IoError _).Leads reads
      (fun b s' => ∀ n, b = some n → Opened pid n s') s := by
  refine leads_try hs trivial (fun _ _ _ h => h.1) fun b s' _ hs' h n hb => ?_
  obtain ⟨p, hp, hpid, rfl⟩ := h.2 n (hb ▸ rfl)
  refine ⟨hs'.distinct.born p hp, fun q hq hserial => ?_⟩
  rw [hs'.distinct.serials q (List.mem_append_left _ hq) p hp hserial]
  exact hpid

/-- A start time that was read again is that of the opened process. -/
def Started (n : ℕ) (expected : Option ℕ) (s : World) : Prop :=
  ∀ p ∈ s.procs, p.serial = n → ∀ t, expected = some t → p.start = t

theorem Started.wanes {n : ℕ} {expected : Option ℕ} (h : Started n expected s)
    (hn : n < s.born) (hd : Wanes s s') : Started n expected s' := by
  intro p' hp' hserial t ht
  obtain ⟨p, hp, hpserial, hc⟩ := hd.continues hp' hserial hn
  exact hc.start.trans (h p hp hpserial t ht)

/-- What is not replaced has started when the record says. -/
theorem replaced_leads {pid n : ℕ} {expected : Option ℕ} (hs : Sound s) (ho : Opened pid n s) :
    (replaced pid expected).Leads reads (fun b s' => b = false → Started n expected s') s := by
  cases expected with
  | none => exact leads_pure hs fun _ _ _ _ _ h => nomatch h
  | some t =>
    refine leads_bind (leads_read (Q := fun b s' => ∀ t, b = some t →
      ∃ p ∈ s'.owners, p.pid = pid ∧ p.start = t) hs trivial (fun _ _ _ h => h.1)
      fun b s' _ _ h t ht => (h.2 t).mp ht) ?_
    intro b s' hs' hdrift hstart
    refine leads_pure hs' fun hb p hp hserial t' ht' => ?_
    obtain rfl := Option.some.inj ht'
    have hb' : b = some t := by simpa using hb
    obtain ⟨q, hq, hpid, hqt⟩ := hstart t hb'
    rw [← (ho.wanes hdrift.drifts.toWanes).owner hs' hp hserial hq hpid]
    exact hqt

/-- A signal reaches only processes of the assigned uid. -/
theorem send_leads {n : ℕ} (hs : Sound s) (hfind : s.registry.find k = some e) (hn : n < s.born)
    (hall : ∀ p ∈ s.procs, p.serial = n → All p.uids e.identity.uid ∧
      (p.pid = e.worker.pid → e.worker.starttime = some p.start)) :
    (attempt (.pidfdSendSignal n e.worker) : Op Act IoError Unit).Leads (drains k)
      (fun _ _ => True) s := by
  refine leads_attempt hs ⟨hn, k, e, hfind, rfl, hall⟩ fun r s' ⟨t, hdrift, heff⟩ _ => ?_
  refine ⟨?_, fun _ _ => trivial⟩
  have hd : Drains k s t := hdrift.drains
  have hfind' : t.registry.find k = some e := by rw [hd.registry, hfind]
  have hsignal : ∀ u, Drift t u → ∀ p, Drains k t
      { u with signals := t.signals ++ [.drain p e.worker t.registry] } := by
    intro u hu p
    have hwanes := hu.drifts
    refine ⟨⟨hwanes.registry, hwanes.running, hwanes.disk, hwanes.marker, hwanes.spawned,
      hwanes.born, hwanes.procs⟩, ⟨_, rfl, ?_⟩, fun x _ => by rw [← hwanes.children]⟩
    intro g hg
    exact ⟨p, e, hfind', List.mem_singleton.mp hg⟩
  obtain ⟨rfl, _⟩ | ⟨p, hp, _, _, rfl | rfl⟩ := heff
  · exact hd
  · exact hd.trans (hsignal t .refl p)
  · exact hd.trans (hsignal _ (.single (.exits hp)) p)

/-- The checks before a signal establish what the signal needs. -/
theorem signalPid_leads {pid : ℕ} {expected : Option ℕ} (hs : Sound s)
    (hfind : s.registry.find k = some e) (hexpected : pid = e.worker.pid →
      expected = e.worker.starttime) :
    (signalPid e.worker pid e.identity.uid expected).Leads (drains k) (fun _ _ => True) s := by
  refine leads_refuse hs fun hpid => ?_
  refine leads_bind (reads_drains (pidfdOpen_leads hs)) fun b s₁ hs₁ hd₁ ho => ?_
  cases b with
  | none => exact leads_pure hs₁ trivial
  | some n =>
    replace ho := ho n rfl
    refine leads_bind (reads_drains (replaced_leads hs₁ ho)) fun b s₂ hs₂ hd₂ hstarted => ?_
    refine leads_ite (fun _ => leads_pure hs₂ trivial) fun hb => ?_
    replace hstarted := hstarted (by simpa using hb)
    replace ho := ho.wanes hd₂.toWanes
    have hread : (attempt (.ids pid) : Op Act IoError (List ℕ × List ℕ)).Leads reads
        (fun x s' => Opened pid n s' ∧ Started n expected s' ∧
          ∃ p ∈ s'.owners, p.pid = pid ∧ p.uids = x.1) s₂ := by
      refine leads_try hs₂ trivial (fun _ _ _ h => h.1) fun x s' hdrift _ h => ?_
      obtain ⟨_, p, hp, hpid, huids, _⟩ := h
      have hd := hdrift.drifts.toWanes
      exact ⟨ho.wanes hd, hstarted.wanes ho.1 hd, p, hp, hpid, huids⟩
    refine leads_bind (reads_drains (leads_outcome hread)) fun r s₃ hs₃ hd₃ hr => ?_
    cases r with
    | error err =>
      exact leads_ite (fun _ => leads_pure hs₃ trivial) fun _ => leads_throw hs₃
    | ok x =>
      obtain ⟨ho, hstarted, q, hq, hqpid, huids⟩ := hr _ rfl
      refine leads_refuse hs₃ fun hall => ?_
      have hregistry := (hd₁.toWanes.trans (hd₂.toWanes.trans hd₃.toWanes)).registry
      refine send_leads hs₃ (hregistry ▸ hfind) ho.1 fun p hp hserial => ?_
      have howner := ho.owner hs₃ hp hserial hq hqpid
      refine ⟨?_, fun hpw => ?_⟩
      · rw [← howner, huids]
        exact not_not.mp hall
      · have hleader := (ho.2 p hp hserial).symm.trans hpw
        have hsome := (hs.memory.entries k e hfind).2
          (hleader ▸ fun h => hpid (.inl h))
        obtain ⟨start, hstart⟩ := Option.isSome_iff_exists.mp hsome
        rw [hstart, hstarted p hp hserial start ((hexpected hleader).trans hstart)]

/-- One process of a group is signalled if it is the worker's. -/
theorem drainOne_leads {pid : ℕ} (hs : Sound s) (hfind : s.registry.find k = some e) :
    (drainOne e.worker e.identity.uid pid).Leads (drains k) (fun _ _ => True) s := by
  have hstart : (expectedStart e.worker pid).Leads reads
      (fun b _ => pid = e.worker.pid → b = e.worker.starttime) s := by
    refine leads_ite (fun _ => leads_pure hs fun _ => rfl) fun hne => ?_
    exact leads_read hs trivial (fun _ _ _ h => h.1) fun _ _ _ _ _ heq => absurd heq hne
  refine leads_bind (reads_drains hstart) fun b s' hs' hd hb => ?_
  exact signalPid_leads hs' (hd.registry ▸ hfind) hb

end Signals

section Draining

/-- If the record has no intent, no worker is left. -/
def Emptied (k : Key) (e : Entry) (s : World) : Prop := e.intent = false → s.Vacated k

/-- A round leaves the group empty, or another round is made. -/
theorem drainRound_leads {again : Op Act IoError Unit} (hs : Sound s)
    (hfind : s.registry.find k = some e)
    (hagain : ∀ s', Sound s' → s'.registry = s.registry →
      again.Leads (drains k) (fun _ s'' => Emptied k e s'') s') :
    (drainRound e.worker e.identity.uid (group s.registry.config k) again).Leads (drains k)
      (fun _ s' => Emptied k e s') s := by
  refine leads_bind (reads_drains (members_leads hs)) fun pids s₁ hs₁ hd₁ _ => ?_
  refine leads_bind (reads_drains (vacant_leads hs₁)) fun b s₂ hs₂ hd₂ hvacant => ?_
  have hregistry := (hd₁.toWanes.trans hd₂.toWanes).registry
  refine leads_ite (fun hb => ?_) fun _ => ?_
  · have hempty : Emptied k e s₂ := by
      intro hi
      refine hs₂.vacated (hregistry ▸ hvacant hb) fun e' he' => ?_
      rw [hregistry, hfind] at he'
      exact Option.some.inj he' ▸ hi
    refine leads_bind (reads_drains (matchesWorker_leads hs₂)) fun b s₃ hs₃ hd₃ _ => ?_
    refine leads_ite (fun _ => leads_throw hs₃) fun _ => leads_pure hs₃ fun hi => ?_
    exact (hempty hi).wanes hd₃.toWanes
  · refine leads_bind (leads_each (I := fun _ s' => s'.registry = s.registry)
      hs₂ hregistry fun pid _ _ s' hs' hr => ?_) fun _ s₃ hs₃ _ hr => hagain s₃ hs₃ hr
    have hfind' : s'.registry.find k = some e := by rw [hr, hfind]
    exact (drainOne_leads hs' hfind').mono fun _ _ _ hd _ => hd.registry.trans hr

/-- By induction on the rounds, a drain that succeeds leaves the group empty. -/
theorem drainRounds_leads {rounds : ℕ} (hs : Sound s) (hfind : s.registry.find k = some e) :
    (drainRounds e.worker e.identity.uid (group s.registry.config k) rounds).Leads (drains k)
      (fun _ s' => Emptied k e s') s := by
  induction rounds generalizing s with
  | zero => exact drainRound_leads hs hfind fun s' hs' _ => leads_throw hs'
  | succ rounds ih =>
    refine drainRound_leads hs hfind fun s' hs' hregistry => ?_
    rw [← hregistry] at hfind ⊢
    exact ih hs' hfind

theorem takeChild_leads (hs : Sound s) : (perform (.takeChild k) : Op Act IoError _).Leads
    (drains k)
    (fun _ _ => True) s := by
  refine leads_perform hs trivial fun b s' ⟨t, hdrift, heff⟩ _ => ⟨?_, trivial⟩
  obtain ⟨_, rfl⟩ := heff
  refine Drains.trans hdrift.drains ⟨⟨rfl, rfl, rfl, rfl, rfl, le_rfl,
    fun p hp => .inl ⟨p, hp, .refl p⟩⟩, ⟨[], (List.append_nil _).symm, fun _ hg => nomatch hg⟩,
    fun x hx => ?_⟩
  exact ⟨List.mem_of_mem_filter, fun h => List.mem_filter.mpr ⟨h, decide_eq_true hx⟩⟩

/-- A child that has been waited for is gone. -/
theorem wait_leads {c : Child} (hs : Sound s) : (perform (.wait c) : Op Act IoError _).Leads
    (drains k)
    (fun _ s' => ∀ p ∈ s'.procs, p.serial ≠ c.serial) s := by
  refine leads_perform hs trivial fun b s' ⟨t, hdrift, heff⟩ _ => ?_
  obtain ⟨hdead, rfl⟩ := heff
  refine ⟨Drains.trans hdrift.drains ⟨⟨rfl, rfl, rfl, rfl, rfl, le_rfl,
    fun p hp => .inl ⟨p, hp, .refl p⟩⟩, ⟨[], (List.append_nil _).symm, fun _ hg => nomatch hg⟩,
    fun x hx => Iff.rfl⟩, hdead⟩

theorem reap_leads {c : Option Child} (hs : Sound s) :
    (reap c).Leads (drains k) (fun _ _ => True) s := by
  cases c with
  | none => exact leads_pure hs trivial
  | some c => exact (wait_leads hs).mono fun _ _ _ _ _ => trivial

/-- What is read is the registry in memory. -/
theorem registry_leads (hs : Sound s) : (perform .registry : Op Act IoError _).Leads reads
    (fun r s' => r = s.registry ∧ s'.registry = s.registry) s := by
  refine leads_read hs trivial (fun _ _ _ h => h.2) fun r s' hdrift _ h => ?_
  exact ⟨h.1.trans hdrift.drifts.registry, hdrift.drifts.registry⟩

/-- A drain that succeeds has emptied the group of the key's entry. -/
theorem drain_leads (hs : Sound s) : (drain k).Leads (drains k)
    (fun _ s' => ∃ e, s.registry.find k = some e ∧ Emptied k e s') s := by
  refine leads_bind (reads_drains (registry_leads hs)) ?_
  rintro r s₁ hs₁ hd₁ ⟨rfl, hregistry⟩
  cases hfind : s.registry.find k with
  | none => exact leads_throw hs₁
  | some e =>
    refine leads_bind (reads_drains (leads_read (Q := fun _ _ => True) hs₁ trivial
      (fun _ _ _ h => h) fun _ _ _ _ _ => trivial)) fun rounds s₂ hs₂ hd₂ _ => ?_
    have hregistry₂ := hd₂.registry.trans hregistry
    rw [← hregistry₂] at hfind ⊢
    refine leads_bind (drainRounds_leads hs₂ hfind) fun _ s₃ hs₃ hd₃ hempty => ?_
    refine leads_bind (takeChild_leads hs₃) fun c s₄ hs₄ hd₄ _ => ?_
    refine leads_bind (reap_leads hs₄) fun _ s₅ hs₅ hd₅ _ => ?_
    refine (reads_drains (leads_other hs₅)).mono fun _ s₆ hs₆ hd₆ _ => ⟨e, rfl, fun hi => ?_⟩
    exact (hempty hi).wanes (hd₄.toWanes.trans (hd₅.toWanes.trans hd₆.toWanes))

end Draining

end AgentHouse.Broker
