import AgentHouse.Broker.Identities

/-!
# Worker broker: the daemon at the other end

The daemon asks the broker for workers and stores the record of every worker that it gets. It can
only stop a worker whose record it has. A connection may break after the broker has acted, the
daemon may crash before it has stored a record, and the broker may be restarted between requests.

As long as the record of every launched worker is stored, or the worker is stopped again, the
daemon has the record of every live worker.
-/

namespace AgentHouse.Broker

open Op

variable {w w' : World} {p q : Process} {l m : Launch} {k : Key} {e : Entry} {uid : ℕ}

/-- The host with the broker, and the records that the daemon has stored. -/
structure Parties where
  world : World
  stored : Key → Option Worker

/-- The request of `launch_worker`. -/
def launchRequest (k : Key) : BrokerRequest := ⟨.launch, k.1, k.2, none⟩

/-- The request that stops a worker by its record. -/
def stopRequest (k : Key) (w : Worker) : BrokerRequest := ⟨.stop, k.1, k.2, some w⟩

/-- The daemon stores, replaces or removes a record. -/
def Parties.store (s : Parties) (w' : World) (k : Key) (record : Option Worker) : Parties :=
  ⟨w', Function.update s.stored k record⟩

/-- What happens between the two parties. -/
inductive Event
  | host
  | maintained
  | halted
  | opened
  | asked
  | stopped (k : Key)
  | refused (k : Key)
  | stored (k : Key)
  | undone (k : Key)
  | lost (k : Key)
  | discarded (k : Key)
  deriving DecidableEq

/-- One step of the two parties. The broker answers one request at a time. -/
inductive Move (s : Parties) : Event → Parties → Prop
  | host {w' : World} (h : Drift s.world w') : Move s .host ⟨w', s.stored⟩
  | maintained {w' : World} {r : Except IoError Unit} (hrunning : s.world.running = true)
      (h : maintain.Returns contract s.world r w') : Move s .maintained ⟨w', s.stored⟩
  | halted : Move s .halted ⟨s.world.halted, s.stored⟩
  | opened {w' : World} {cfg : Config} {r : Except IoError Unit}
      (hrunning : s.world.running = false)
      (h : (do openBroker cfg; perform .ready : Op Act IoError Unit).Returns contract
        s.world r w') :
      Move s .opened ⟨w', s.stored⟩
  /-- A request other than a launch, with or without an answer. -/
  | asked {w' : World} {uid : ℕ} {q : BrokerRequest} {r : Except IoError BrokerReply}
      (hrunning : s.world.running = true) (hq : q.action ≠ .launch)
      (h : (serve uid q).Returns contract s.world r w') : Move s .asked ⟨w', s.stored⟩
  /-- The daemon deletes the record of a worker that it has stopped. -/
  | stopped {w' : World} {uid : ℕ} {k : Key} {worker : Worker} {reply : BrokerReply}
      (hrunning : s.world.running = true)
      (h : (serve uid (stopRequest k worker)).Returns contract s.world (.ok reply) w') :
      Move s (.stopped k) (s.store w' k none)
  /-- A launch fails. -/
  | refused {w' : World} {uid : ℕ} {k : Key} {err : IoError} (hrunning : s.world.running = true)
      (h : (serve uid (launchRequest k)).Returns contract s.world (.error err) w') :
      Move s (.refused k) ⟨w', s.stored⟩
  | stored {w' : World} {uid : ℕ} {k : Key} {reply : BrokerReply}
      (hrunning : s.world.running = true)
      (h : (serve uid (launchRequest k)).Returns contract s.world (.ok reply) w') :
      Move s (.stored k) (s.store w' k reply.worker)
  /-- The record of a worker cannot be stored, and the worker is stopped. -/
  | undone {w₁ w' : World} {uid : ℕ} {k : Key} {worker : Worker} {reply reply' : BrokerReply}
      (hrunning : s.world.running = true)
      (h : (serve uid (launchRequest k)).Returns contract s.world (.ok reply) w₁)
      (hworker : reply.worker = some worker)
      (hstop : (serve uid (stopRequest k worker)).Returns contract w₁ (.ok reply') w') :
      Move s (.undone k) ⟨w', s.stored⟩
  /-- The worker was launched, but its record is not stored: the answer did not arrive or was
  not accepted, the daemon crashed, or it could neither store the record nor stop the worker. -/
  | lost {w' : World} {uid : ℕ} {k : Key} {reply : BrokerReply} (hrunning : s.world.running = true)
      (h : (serve uid (launchRequest k)).Returns contract s.world (.ok reply) w') :
      Move s (.lost k) ⟨w', s.stored⟩
  /-- The daemon removes the directory of a sandbox, though the worker could not be stopped. -/
  | discarded {k : Key} : Move s (.discarded k) (s.store s.world k none)

/-- The histories whose events all satisfy `ok`. -/
def Histories (ok : Event → Prop) : Parties → Parties → Prop :=
  Relation.ReflTransGen (fun s s' => ∃ event, ok event ∧ Move s event s')

/-- No worker was launched whose record the daemon does not get, and no record is removed without
its worker. -/
def Event.Learned : Event → Prop
  | .lost _ | .discarded _ => False
  | _ => True

section Outcomes

/-- What a launch comes to. -/
theorem serve_launched (hs : Sound w) : (serve uid (launchRequest k)).Ensures contract Sound
    (fun reply w' => ∃ worker, reply.worker = some worker ∧ Registered k worker w' ∧ Apart k w w')
    (fun w' => Lapses k w w') w := by
  refine ensures_refuse hs (.refl w) fun _ => ?_
  refine ensures_bind ((registry_leads hs).ensures fun w' _ hdrift =>
    Lapses.stable (.refl w) hdrift) ?_
  rintro r w₁ hs₁ ⟨hdrift, -⟩
  have hlapses : Lapses k w w₁ := Lapses.stable (.refl w) hdrift
  have hlaunch : (launchRequest k).action = .launch := rfl
  rw [if_neg (by exact nofun)]
  refine ensures_refuse hs₁ hlapses fun _ => ?_
  rw [if_pos hlaunch]
  refine ensures_refuse hs₁ hlapses fun _ => ?_
  refine ensures_bind (launch_ensures hs₁ hlapses) fun worker w₂ hs₂ h => ?_
  exact ensures_pure hs₂ ⟨worker, rfl, h⟩

end Outcomes

/-- The daemon has the record of every live worker. -/
structure Tracked (s : Parties) : Prop where
  sound : Sound s.world
  stored : ∀ p l, s.world.IsWorker p l →
    s.stored l.key = some (startedWorker l p.pid (some p.start))
  settled : s.world.running = true → ∀ p l, s.world.IsWorker p l → Settled l.key s.world

namespace Tracked

variable {s : Parties}

theorem wanes (h : Tracked s) (hs : Sound w') (hd : Wanes s.world w') :
    Tracked ⟨w', s.stored⟩ where
  sound := hs
  stored p l hw := by
    obtain ⟨q, hq, hc⟩ := hd.worker hw
    rw [hc.pid, hc.start]
    exact h.stored q l hq
  settled hrunning p l hw := by
    obtain ⟨q, hq, _⟩ := hd.worker hw
    exact (h.settled (hd.running.symm.trans hrunning) q l hq).wanes hd

/-- Records without a live worker do not matter. -/
theorem agrees {f : Key → Option Worker} (h : Tracked s) (hv : s.world.Vacated k)
    (hf : ∀ j, j ≠ k → f j = s.stored j) : Tracked ⟨s.world, f⟩ where
  sound := h.sound
  stored p l hw := (hf l.key (hv p l hw)).trans (h.stored p l hw)
  settled := h.settled

/-- A crash of the broker loses no record of the daemon. -/
theorem halted (h : Tracked s) : Tracked ⟨s.world.halted, s.stored⟩ where
  sound := h.sound.halted
  stored p l hw := by
    obtain ⟨hp, hlaunch⟩ := hw
    obtain ⟨q, hq, rfl⟩ := List.mem_map.mp hp
    exact h.stored q l ⟨hq, hlaunch⟩
  settled hrunning := nomatch hrunning

/-- The daemon stores the record of a new worker. -/
theorem launched {worker : Worker} (h : Tracked s) (hrunning : s.world.running = true)
    (hs : Sound w') (hregistered : Registered k worker w') (hapart : Apart k s.world w') :
    Tracked (s.store w' k (some worker)) := by
  obtain ⟨e, hfind, rfl, hintent⟩ := hregistered
  refine ⟨hs, fun p l hw => ?_, fun _ p l hw => ?_⟩
  · obtain ⟨_, e', hfind', hdescribes, _⟩ := hs.memory.workers p l hw
    by_cases hkey : l.key = k
    · rw [hkey, hfind] at hfind'
      obtain rfl := Option.some.inj hfind'
      rw [hkey, ← hdescribes]
      exact Function.update_self _ _ _
    · obtain ⟨q, hq, hc⟩ := hapart.workers p l hw hkey
      rw [hc.pid, hc.start]
      exact (Function.update_of_ne hkey _ _).trans (h.stored q l hq)
  · by_cases hkey : l.key = k
    · intro e' he'
      rw [hkey] at he'
      exact Option.some.inj (hfind.symm.trans he') ▸ hintent
    · obtain ⟨q, hq, _⟩ := hapart.workers p l hw hkey
      intro e' he'
      exact h.settled hrunning q l hq e' ((hapart.records l.key hkey).symm.trans he')

/-- A failed launch starts no worker. -/
theorem lapsed (h : Tracked s) (hrunning : s.world.running = true) (hs : Sound w')
    (hl : Lapses k s.world w') : Tracked ⟨w', s.stored⟩ := by
  have hbefore : ∀ p l, w'.IsWorker p l → ∃ q, s.world.IsWorker q l ∧ Continues q p := by
    intro p l hw
    by_cases hkey : l.key = k
    · exact hl.fades p l hw hkey
    · exact hl.apart.workers p l hw hkey
  refine ⟨hs, fun p l hw => ?_, fun _ p l hw => ?_⟩
  · obtain ⟨q, hq, hc⟩ := hbefore p l hw
    rw [hc.pid, hc.start]
    exact h.stored q l hq
  · obtain ⟨q, hq, _⟩ := hbefore p l hw
    have hsettled := h.settled hrunning q l hq
    by_cases hkey : l.key = k
    · rw [hkey] at hsettled ⊢
      exact (hl.settled hsettled).resolve_left fun hv => hv p l hw hkey
    · intro e he
      exact hsettled e ((hl.apart.records l.key hkey).symm.trans he)

/-- The broker is started again. -/
theorem opened {cfg : Config} {r : Except IoError Unit} (h : Tracked s)
    (hrunning : s.world.running = false)
    (hopened : (do openBroker cfg; perform .ready : Op Act IoError Unit).Returns contract
      s.world r w') : Tracked ⟨w', s.stored⟩ := by
  have hkeeps : (do openBroker cfg; perform .ready : Op Act IoError Unit).Keeps contract
      (fun _ w' => Sound w' ∧ (∀ k, Fades k s.world w') ∧
        (w'.running = true → ∀ k, Settled k w')) s.world := by
    refine keeps_bind.mpr (Keeps.mono (openBroker_leads s.world h.sound) ?_)
    rintro r w₁ ⟨hs₁, hrel, hsettled⟩
    obtain ⟨hrunning₁, hfades⟩ := hrel (.refl s.world)
    cases r with
    | error err =>
      refine ⟨hs₁, hfades, fun htrue => ?_⟩
      cases (htrue.symm.trans hrunning₁).trans hrunning
    | ok u =>
      refine ⟨trivial, fun _ w₂ hdoes => ?_⟩
      have hs₂ := sound_preserved (a := Act.ready) hs₁ trivial hdoes
      obtain ⟨t, hdrift, heff⟩ := hdoes
      obtain rfl := heff
      refine ⟨hs₂, fun k => ?_, fun _ k => ?_⟩
      · exact (Fades.stable (hfades k) hdrift : Fades k s.world t)
      · exact (Settled.stable (hsettled u rfl k) hdrift : Settled k t)
  obtain ⟨hs', hfades, hsettled⟩ := Returns.keeps hopened hkeeps
  refine ⟨hs', fun p l hw => ?_, fun htrue p l _ => hsettled htrue l.key⟩
  obtain ⟨q, hq, hc⟩ := hfades l.key p l hw rfl
  rw [hc.pid, hc.start]
  exact h.stored q l hq

/-- An event that loses no record keeps the daemon informed. -/
theorem move {event : Event} {s' : Parties} (h : Tracked s) (hlearned : event.Learned)
    (hmove : Move s event s') : Tracked s' := by
  cases hmove with
  | host hdrift => exact h.wanes (h.sound.drift hdrift) hdrift.drifts.toWanes
  | maintained _ hreturns =>
    obtain ⟨hs, hd, _⟩ := Returns.keeps hreturns (maintain_leads h.sound)
    exact h.wanes hs hd
  | halted => exact h.halted
  | opened hrunning hreturns => exact h.opened hrunning hreturns
  | asked _ hq hreturns =>
    obtain ⟨hs, hd, _⟩ := Returns.keeps hreturns (serve_asked h.sound hq)
    exact h.wanes hs hd
  | stopped _ hreturns =>
    obtain ⟨hs, hd, hv⟩ := Returns.keeps hreturns (serve_asked h.sound (by exact nofun))
    exact (h.wanes hs hd).agrees (hv _ rfl rfl) fun j hj => Function.update_of_ne hj _ _
  | refused hrunning hreturns =>
    obtain ⟨hs, hl⟩ := Returns.keeps hreturns (serve_launched h.sound)
    exact h.lapsed hrunning hs hl
  | stored hrunning hreturns =>
    obtain ⟨hs, worker, hworker, hregistered, hapart⟩ :=
      Returns.keeps hreturns (serve_launched h.sound)
    rw [hworker]
    exact h.launched hrunning hs hregistered hapart
  | @undone w₁ w' _ k worker _ _ hrunning hreturns hworker hstop =>
    obtain ⟨hs, worker', hworker', hregistered, hapart⟩ :=
      Returns.keeps hreturns (serve_launched h.sound)
    have hlaunched := h.launched hrunning hs hregistered hapart
    obtain ⟨hs', hd, hv⟩ := Returns.keeps hstop (serve_asked hs (by exact nofun))
    refine (hlaunched.wanes hs' hd).agrees (k := k) (hv _ rfl rfl) fun j hj => ?_
    exact (Function.update_of_ne hj _ _).symm
  | lost _ _ | discarded => exact hlearned.elim

/-- By induction on the history, the daemon has the record of every live worker. -/
theorem histories {start : Parties} (hstart : Tracked start)
    (h : Histories Event.Learned start s) : Tracked s := by
  induction h with
  | refl => exact hstart
  | tail _ hstep ih =>
    obtain ⟨event, hlearned, hmove⟩ := hstep
    exact ih.move hlearned hmove

end Tracked

end AgentHouse.Broker
