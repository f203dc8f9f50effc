import AgentHouse.Broker.Parties

/-!
# Worker broker: no worker becomes unmanageable

A worker whose record the daemon has stored can be stopped, and a new one can be launched in its
place. A worker whose record got lost cannot: the broker stops no worker without its record, and
it launches no other beside it.
-/

namespace AgentHouse.Broker

open Op

variable {s start : Parties} {w w' : World} {p q : Process} {l m : Launch} {k : Key} {e : Entry}
  {uid : ℕ}

/-- The answers to a sequence of requests. -/
def serveAll (uid : ℕ) :
    List BrokerRequest → Op Act IoError (List (Except IoError BrokerReply))
  | [] => return []
  | q :: qs => do
    let answer ← outcome (serve uid q)
    let answers ← serveAll uid qs
    return answer :: answers

/-- A request about a sandbox and role that the daemon can make. -/
def Parties.Knows (s : Parties) (k : Key) (q : BrokerRequest) : Prop :=
  (q.id, q.role) = k ∧ ∀ record, q.worker = some record → ∃ j, s.stored j = some record

/-- Every live worker can be replaced, and a failed launch leaves none behind. -/
structure Manageable (s : Parties) : Prop where
  /-- Some requests stop the worker for sure if they are answered without an error. They may be
  answered so, and then a new worker may be launched. -/
  stops : ∀ p l uid, s.world.IsWorker p l → uid ≠ 0 → ∃ qs, (∀ q ∈ qs, s.Knows l.key q) ∧
    (serveAll uid qs).Keeps contract (fun r w' => ∀ answers, r = .ok answers →
      (∀ a ∈ answers, ∃ reply, a = .ok reply) → w'.Vacated l.key) s.world ∧
    (serveAll uid qs).May calm (fun r w' =>
      (∃ answers, r = .ok answers ∧ ∀ a ∈ answers, ∃ reply, a = .ok reply) ∧
      w'.Vacated l.key ∧ (w'.registry.nextIdentity < w'.registry.config.identityCount →
        (serve uid (launchRequest l.key)).May contract (fun r _ => ∃ reply, r = .ok reply) w'))
      s.world
  failed : ∀ k uid, s.world.Vacated k → (serve uid (launchRequest k)).Keeps contract
    (fun r w' => ∀ err, r = .error err → w'.Vacated k) s.world

section Stopping

theorem keeps_calm {α : Type} {Q : Except IoError α → World → Prop} {p : Op Act IoError α}
    (h : p.Keeps contract Q w) : p.Keeps calm Q w := by
  induction p generalizing w with
  | done a => exact h
  | act a next ih => exact ⟨trivial, fun b w' heff => ih b (h.2 b w' ⟨w, .refl, heff⟩)⟩

theorem serveAll_one_keeps {q : BrokerRequest} {C : Contract Act World}
    {Q : Except IoError BrokerReply → World → Prop} (h : (serve uid q).Keeps C Q w) :
    (serveAll uid [q]).Keeps C (fun r w' => ∃ answer, r = .ok [answer] ∧ Q answer w') w := by
  refine keeps_bind.mpr (Prog.keeps_bind.mpr (Keeps.mono h fun answer w' hQ => ?_))
  exact ⟨answer, rfl, hQ⟩

theorem serveAll_one_may {q : BrokerRequest} {C : Contract Act World}
    {Q : Except IoError BrokerReply → World → Prop} (h : (serve uid q).May C Q w) :
    (serveAll uid [q]).May C (fun r w' => ∃ answer, r = .ok [answer] ∧ Q answer w') w := by
  refine may_bind (may_outcome (May.mono h fun answer w' hQ => ?_))
  exact ⟨answer, rfl, answer, rfl, hQ⟩

/-- A worker whose record is stored can be stopped and its place taken. -/
theorem Tracked.manageable (h : Tracked s) (hrunning : s.world.running = true)
    (hhouse : s.world.Housekept) : Manageable s where
  stops p l uid hw huid := by
    obtain ⟨e, hworker, hdrainable⟩ :=
      h.sound.drainable (h.settled hrunning p l hw) hhouse hw
    have hvalid := (h.sound.memory.assigned l (h.sound.launched p hw.1 l hw.2.1).1).valid
    have hkeeps : (serve uid (stopRequest l.key e.worker)).Keeps contract (fun r w' => Sound w' ∧
        Wanes s.world w' ∧ ∀ reply, r = .ok reply →
          (stopRequest l.key e.worker).action = .stop → w'.Vacated l.key) s.world :=
      serve_asked h.sound (by exact nofun)
    refine ⟨[stopRequest l.key e.worker], fun q hq => ?_, ?_, ?_⟩
    · obtain rfl := List.mem_singleton.mp hq
      refine ⟨rfl, fun record hrecord => ⟨l.key, ?_⟩⟩
      rw [h.stored p l hw, ← hworker]
      exact hrecord
    · refine Keeps.mono (serveAll_one_keeps hkeeps) ?_
      rintro r w' ⟨answer, rfl, _, _, hv⟩ answers hanswers hok
      obtain rfl := Except.ok.inj hanswers
      obtain ⟨reply, rfl⟩ := hok answer List.mem_cons_self
      exact hv reply rfl rfl
    · have hstop := May.keeps (stop_may hdrainable hvalid huid) (keeps_calm hkeeps)
      refine May.mono (serveAll_one_may hstop) ?_
      rintro r w' ⟨answer, rfl, ⟨⟨reply, rfl⟩, _, hidle⟩, _, _, hv⟩
      refine ⟨⟨_, rfl, fun a ha => ⟨reply, List.mem_singleton.mp ha⟩⟩, hv reply rfl rfl,
        fun hcapacity => ?_⟩
      refine serve_launch hvalid huid (May.mono (launch_succeeds hidle hvalid hcapacity) ?_)
      rintro r w'' ⟨⟨worker, rfl⟩, -⟩
      exact ⟨_, rfl⟩
  failed k uid hv := by
    refine Keeps.mono (serve_launched h.sound) ?_
    rintro r w' ⟨_, hr⟩ err rfl p m hw hkey
    obtain ⟨q, hq, _⟩ := Lapses.fades hr p m hw hkey
    exact hv q m hq hkey

end Stopping

section Stranded

/-- Programs that change nothing on a host that does nothing by itself. -/
def still : Frame Act World where
  contract := calm
  inv _ := True
  kept _ _ _ := trivial
  rel w w' := w' = w
  refl _ := rfl
  trans h h' := h'.trans h

/-- The worker of the record is alive. -/
structure Alive (k : Key) (e : Entry) (p : Process) (w : World) : Prop where
  distinct : Distinct w
  find : w.registry.find k = some e
  intent : e.intent = false
  live : p ∈ w.procs
  pid : p.pid = e.worker.pid
  start : e.worker.starttime = some p.start
  uids : All p.uids e.identity.uid
  gids : All p.gids e.identity.gid

/-- A worker that lives is found alive. -/
theorem Alive.leaderAlive (h : Alive k e p w) :
    (leaderAlive e.worker).Leads still (fun b _ => b = true) w := by
  have halive : (perform (.alive e.worker.pid) : Op Act IoError Bool).Leads still
      (fun b _ => b = true) w :=
    leads_perform trivial trivial fun b w' heff _ => ⟨heff.1, heff.2.mpr ⟨p, h.live, h.pid⟩⟩
  refine leads_bind halive fun b w' _ hw hb => ?_
  obtain rfl : w' = w := hw
  rw [if_pos hb]
  have htime : (perform (.starttime e.worker.pid) : Op Act IoError (Option ℕ)).Leads still
      (fun b _ => b = some p.start) w' :=
    leads_perform trivial trivial fun b w'' heff _ =>
      ⟨heff.1, (heff.2 p.start).mpr ⟨p, List.mem_append_left _ h.live, h.pid, rfl⟩⟩
  refine leads_bind htime fun b w'' _ _ hb => leads_pure trivial ?_
  exact decide_eq_true (h.start.trans hb.symm)

/-- A worker that lives matches its record. -/
theorem Alive.matchesWorker (h : Alive k e p w) :
    (matchesWorker e.worker).Leads still (fun b _ => b = true) w := by
  have hidentity : e.worker.isolation = some e.identity := (Option.some_get e.isolated).symm
  unfold Broker.matchesWorker
  rw [hidentity]
  refine leads_bind h.leaderAlive fun b w' _ hw hb => ?_
  obtain rfl : w' = w := hw
  rw [if_pos hb]
  have hids : (attempt (.ids e.worker.pid) : Op Act IoError (List ℕ × List ℕ)).Leads still
      (fun b _ => b = (p.uids, p.gids)) w' := by
    refine leads_attempt trivial trivial fun r w'' heff _ => ⟨heff.1, fun b hb => ?_⟩
    obtain rfl := hb
    obtain ⟨q, hq, hqpid, huids, hgids⟩ := heff.2
    obtain rfl := h.distinct.pids q hq p (List.mem_append_left _ h.live) (hqpid.trans h.pid.symm)
    exact Prod.ext huids.symm hgids.symm
  refine leads_bind hids fun b w'' _ _ hb => ?_
  obtain rfl := hb
  exact leads_pure trivial (decide_eq_true ⟨h.uids, h.gids⟩)

/-- No launch is accepted beside a live worker. -/
theorem Alive.launch (h : Alive k e p w) : (launch k).Leads still (fun _ _ => False) w := by
  have hregistry : (perform .registry : Op Act IoError Registry).Leads still
      (fun r _ => r = w.registry) w :=
    leads_perform trivial trivial fun r w' heff _ => ⟨heff.2, heff.1⟩
  have hclear : (clear k).Leads still (fun _ _ => False) w := by
    refine leads_bind hregistry fun r w₁ _ hw₁ hr => ?_
    obtain rfl : w₁ = w := hw₁
    rw [hr, h.find]
    refine leads_refuse trivial fun _ => ?_
    have hrecover : (recoverIntent k e (group w₁.registry.config k)).Leads still
        (fun _ _ => True) w₁ :=
      leads_ite (fun hi => absurd hi (Bool.eq_false_iff.mp h.intent))
        fun _ => leads_pure trivial trivial
    refine leads_bind hrecover fun _ w₂ _ hw₂ _ => ?_
    obtain rfl : w₂ = w₁ := hw₂
    refine leads_bind h.matchesWorker fun b w₃ _ _ hb => ?_
    rw [if_pos hb]
    exact leads_throw trivial
  refine leads_refuse trivial fun _ => leads_bind hclear fun _ _ _ _ hfalse => hfalse.elim

/-- Without its record, no request changes anything about a live worker. -/
theorem Alive.serve {q : BrokerRequest} (h : Alive k e p w) (hkey : (q.id, q.role) = k)
    (hworker : q.worker = none) : (serve uid q).Leads still (fun _ _ => True) w := by
  have hregistry : (perform .registry : Op Act IoError Registry).Leads still
      (fun r _ => r = w.registry) w :=
    leads_perform trivial trivial fun r w' heff _ => ⟨heff.2, heff.1⟩
  refine leads_refuse trivial fun _ => leads_bind hregistry fun r w₁ _ hw₁ hr => ?_
  obtain rfl : w₁ = w := hw₁
  refine leads_ite (fun _ => leads_refuse trivial fun _ => leads_pure trivial trivial) fun _ => ?_
  refine leads_refuse trivial fun _ => leads_ite (fun _ => ?_) fun _ => ?_
  · refine leads_refuse trivial fun _ => ?_
    rw [hkey]
    exact leads_bind h.launch fun _ _ _ _ hfalse => hfalse.elim
  · rw [hr, hkey, h.find]
    refine leads_refuse trivial fun hmatch => ?_
    rw [hworker] at hmatch
    exact absurd (.inr (by exact nofun)) hmatch

/-- Requests without a record leave it alive. -/
theorem Alive.serveAll {qs : List BrokerRequest} (h : Alive k e p w)
    (hqs : ∀ q ∈ qs, (q.id, q.role) = k ∧ q.worker = none) :
    (serveAll uid qs).Leads still (fun _ _ => True) w := by
  induction qs with
  | nil => exact leads_pure trivial trivial
  | cons q qs ih =>
    obtain ⟨hkey, hworker⟩ := hqs q List.mem_cons_self
    refine leads_bind (leads_outcome (h.serve hkey hworker)) fun answer w₁ _ hw₁ _ => ?_
    obtain rfl : w₁ = w := hw₁
    refine leads_bind (ih fun q hq => hqs q (List.mem_cons_of_mem _ hq)) fun _ w₂ _ _ _ => ?_
    exact leads_pure trivial trivial

/-- A worker whose record the daemon does not have cannot be stopped. -/
theorem Sound.unmanageable (hs : Sound s.world) (hw : s.world.IsWorker p l)
    (hsettled : Settled l.key s.world) (hstored : ∀ j, s.stored j = none) : ¬ Manageable s := by
  intro hmanageable
  obtain ⟨_, e, hfind, hdescribes, hruns⟩ := hs.memory.workers p l hw
  have hintent := hsettled e hfind
  have hidentity := hdescribes.identity
  have halive : Alive l.key e p s.world := by
    refine ⟨hs.distinct, hfind, hintent, hw.1, ?_, ?_, ?_, ?_⟩
    · rw [hdescribes]
      rfl
    · rw [hdescribes]
      rfl
    · rw [hidentity]
      exact (hruns hintent).2.1
    · rw [hidentity]
      exact (hruns hintent).2.2
  obtain ⟨qs, hknows, _, hmay⟩ := hmanageable.stops p l 1 hw (by decide)
  have hkeeps : (Broker.serveAll 1 qs).Leads still (fun _ _ => True) s.world := by
    refine halive.serveAll fun q hq => ⟨(hknows q hq).1, ?_⟩
    cases hworker : q.worker with
    | none => rfl
    | some record =>
      obtain ⟨j, hj⟩ := (hknows q hq).2 record hworker
      rw [hstored] at hj
      cases hj
  obtain ⟨_, w', ⟨⟨_, hv, _⟩, _, hsame, _⟩, _⟩ := May.returns (May.keeps hmay hkeeps)
  obtain rfl : w' = s.world := hsame
  exact hv p l hw rfl

end Stranded

/-- Before the first launch there is nothing to know. -/
theorem Fresh.tracked (h : Fresh start.world) : Tracked start := by
  have hnone : ∀ p l, ¬ start.world.IsWorker p l := by
    rintro p l ⟨hp, hlaunch, _⟩
    rw [(h.foreign p hp).1] at hlaunch
    cases hlaunch
  exact ⟨h.sound, fun p l hw => absurd hw (hnone p l), fun _ p l hw => absurd hw (hnone p l)⟩

/-- No worker becomes unmanageable in a history that loses no record. -/
theorem workers_stay_manageable (hstart : Fresh start.world)
    (h : Histories Event.Learned start s) (hrunning : s.world.running = true)
    (hhouse : s.world.Housekept) : Manageable s :=
  (Tracked.histories hstart.tracked h).manageable hrunning hhouse

/-- The daemon of the sample host has stored nothing yet. -/
def sampleParties : Parties := ⟨sampleHost, fun _ => none⟩

/-- The first worker runs on the sample host. -/
structure SampleRuns (p : Process) (l : Launch) (w : World) : Prop where
  worker : w.IsWorker p l
  runs : p.Runs l
  pid : p.pid = 1
  running : w.running = true
  alone : ∀ q ∈ w.procs, q = p

/-- The broker opens and launches a worker. -/
theorem sampleParties_launches : ∃ w₀ w₁ reply, Move sampleParties .opened ⟨w₀, fun _ => none⟩ ∧
    w₀.running = true ∧
    (serve 990 (launchRequest ("vm", .vmm))).Returns contract w₀ (.ok reply) w₁ ∧
    ∃ p l, SampleRuns p l w₁ := by
  obtain ⟨r, w₀, hinstalled, hopened⟩ := May.returns sampleHost_installs
  have hlaunch : (serve 990 (launchRequest ("vm", .vmm))).May contract (fun r w =>
      (∃ reply, r = .ok reply) ∧ ∃ p l, SampleRuns p l w) w₀ := by
    refine hinstalled.launches fun w l hd howners hrunning _ _ => ?_
    have hfree : w.Free 1 := ⟨by decide, fun p hp => by rw [howners] at hp; cases hp⟩
    refine May.mono (spawnWorker_succeeds hd hfree) ?_
    rintro r w' ⟨⟨worker, rfl⟩, p, h⟩
    refine fun reply _ => ⟨⟨reply, rfl⟩, p, l, h.worker, h.runs, h.pid,
      h.running.trans hrunning, fun q hq => (h.others q hq).resolve_right fun hmem => ?_⟩
    have howner : q ∈ w.owners := List.mem_append_left _ hmem
    rw [howners] at howner
    cases howner
  obtain ⟨r', w₁, ⟨⟨reply, rfl⟩, hruns⟩, hreturns⟩ := May.returns hlaunch
  exact ⟨w₀, w₁, reply, .opened rfl hopened, hinstalled.running, hreturns, hruns⟩

/-- The group of the worker holds no other process. -/
theorem SampleRuns.housekept (h : SampleRuns p l w) (hs : Sound w) : w.Housekept := by
  intro k e hfind q hq hgroup
  obtain rfl := h.alone q hq
  have hkey : l.key = k := congrArg Prod.snd (Option.some.inj (h.runs.1.symm.trans hgroup))
  obtain ⟨_, e', hfind', hdescribes, _⟩ := hs.memory.workers q l h.worker
  rw [hkey, hfind] at hfind'
  obtain rfl := Option.some.inj hfind'
  refine ⟨by rw [h.pid]; decide, ?_⟩
  rw [hdescribes.identity]
  exact h.runs.2.1

theorem workers_stay_manageable_sample : ∃ s p l, Histories Event.Learned sampleParties s ∧
    s.world.IsWorker p l ∧ Manageable s := by
  obtain ⟨w₀, w₁, reply, hopened, hrunning, hreturns, p, l, hruns⟩ := sampleParties_launches
  have hhistory : Histories Event.Learned sampleParties
      (Parties.store ⟨w₀, fun _ => none⟩ w₁ ("vm", .vmm) reply.worker) :=
    (Relation.ReflTransGen.single ⟨.opened, trivial, hopened⟩).tail
      ⟨.stored _, trivial, .stored hrunning hreturns⟩
  have htracked := Tracked.histories (Fresh.tracked sampleHost_fresh) hhistory
  exact ⟨_, p, l, hhistory, hruns.worker, workers_stay_manageable sampleHost_fresh hhistory
    hruns.running (hruns.housekept htracked.sound)⟩

/-- The answer to a launch gets lost, and the worker can neither be stopped nor replaced. -/
theorem lost_worker_unmanageable : ∃ s, Histories (fun _ => True) sampleParties s ∧
    s.world.running = true ∧ s.world.Housekept ∧ ¬ Manageable s := by
  obtain ⟨w₀, w₁, reply, hopened, hrunning, hreturns, p, l, hruns⟩ := sampleParties_launches
  have hlearned : Event.Learned .opened := trivial
  have htracked : Tracked ⟨w₀, fun _ => none⟩ :=
    Tracked.move (Fresh.tracked sampleHost_fresh) hlearned hopened
  obtain ⟨hs, worker, _, hregistered, hapart⟩ :=
    Returns.keeps hreturns (serve_launched htracked.sound)
  have hlaunched := htracked.launched hrunning hs hregistered hapart
  refine ⟨⟨w₁, fun _ => none⟩, (Relation.ReflTransGen.single ⟨.opened, trivial, hopened⟩).tail
    ⟨.lost ("vm", .vmm), trivial, .lost hrunning hreturns⟩, hruns.running, hruns.housekept hs, ?_⟩
  exact Sound.unmanageable hs hruns.worker
    (hlaunched.settled hruns.running p l hruns.worker) fun _ => rfl

end AgentHouse.Broker
