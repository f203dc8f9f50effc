import AgentHouse.Broker.Draining

/-!
# Worker broker: launching

A launch proceeds only when the role group is empty, so no earlier worker of its key is left. Its
identity is counted in the registry file before a process is started, and the process gets its
plan when both registries have its pid. From then on the only possible worker of the key
is the child of this launch, until it runs in its role group or has been killed and waited for.
-/

namespace AgentHouse.Broker

open Op

variable {s s' t : World} {p p' q : Process} {l : Launch} {k j : Key} {r : Registry} {e : Entry}

section Find

/-- Every entry of the registry is found under its key. -/
theorem Registry.find_of_mem {x : Key × Entry} (h : x ∈ r.entries) : r.find x.1 = some x.2 := by
  rw [Registry.find, r.keyed.row_of_mem h]
  rfl

/-- A removed key has no entry, and the others keep theirs. -/
theorem Registry.find_remove : (r.remove k).find j = if j = k then none else r.find j := by
  rw [Registry.find, Registry.remove, Table.row_filter_ne]
  by_cases hj : j = k
  · rw [if_pos hj, if_pos hj]
    rfl
  · rw [if_neg hj, if_neg hj]
    rfl

/-- An inserted entry is found under its key. -/
theorem Registry.find_insert : (r.insert e).find j =
    if j = (e.worker.id, e.identity.role) then some e else r.find j := by
  have hrow : Table.row Prod.fst j (r.insert e).entries =
      if j = (e.worker.id, e.identity.role) then some ((e.worker.id, e.identity.role), e)
      else Table.row Prod.fst j (r.remove (e.worker.id, e.identity.role)).entries :=
    Table.row_append (r.row_remove _)
  rw [Registry.find, hrow]
  by_cases hj : j = (e.worker.id, e.identity.role)
  · rw [if_pos hj, if_pos hj]
    rfl
  · have hremove : (r.remove (e.worker.id, e.identity.role)).find j = r.find j := by
      rw [Registry.find_remove, if_neg hj]
    rw [if_neg hj, if_neg hj]
    exact hremove

/-- A settled entry has no intent. -/
theorem Registry.find_settled : (r.settled k).find j =
    if j = k then (r.find k).map Entry.settled else r.find j := by
  have hrow : Table.row Prod.fst j (r.settled k).entries =
      if j = k then (Table.row Prod.fst j r.entries).map (fun x => (x.1, x.2.settled))
      else Table.row Prod.fst j r.entries :=
    Table.row_revise (f := fun x : Key × Entry => (x.1, x.2.settled)) (fun _ => rfl)
  rw [Registry.find, hrow]
  by_cases hj : j = k
  · rw [if_pos hj, if_pos hj, hj, Registry.find, Option.map_map, Option.map_map]
    rfl
  · rw [if_neg hj, if_neg hj, Registry.find]

end Find

section Covering

/-- A record may lose its intent when its worker runs or has gone. -/
theorem Covers.settled (h : Covers r s)
    (hk : ∀ p l, s.IsWorker p l → l.key = k → p.Runs l) : Covers (r.settled k) s where
  capacity := h.capacity
  assigned l hl := (h.assigned l hl).congr le_rfl rfl rfl
  entries j e he := by
    rw [Registry.find_settled] at he
    split at he
    · obtain ⟨e', he', rfl⟩ := Option.map_eq_some_iff.mp he
      exact h.entries k e' he'
    · exact h.entries j e he
  workers p l hw := by
    obtain ⟨hgroup, e, hfind, hdescribes, hruns⟩ := h.workers p l hw
    refine ⟨hgroup, ?_⟩
    rw [Registry.find_settled]
    by_cases hl : l.key = k
    · rw [if_pos hl, ← hl, hfind]
      exact ⟨_, rfl, hdescribes, fun _ => hk p l hw hl⟩
    · rw [if_neg hl]
      exact ⟨e, hfind, hdescribes, hruns⟩

/-- A key without a worker may be dropped. -/
theorem Covers.removed (h : Covers r s) (hv : s.Vacated k) : Covers (r.remove k) s where
  capacity := h.capacity
  assigned l hl := (h.assigned l hl).congr le_rfl rfl rfl
  entries j e he := by
    rw [Registry.find_remove] at he
    split at he
    · cases he
    · exact h.entries j e he
  workers p l hw := by
    obtain ⟨hgroup, hrecord⟩ := h.workers p l hw
    refine ⟨hgroup, ?_⟩
    rw [Registry.find_remove, if_neg (hv p l hw)]
    exact hrecord

/-- A record may be replaced when its worker has gone. -/
theorem Covers.inserted (h : Covers r s) (hv : s.Vacated (e.worker.id, e.identity.role))
    (huid : e.identity.uid ≠ 0) (hstart : e.worker.pid ≠ 0 → e.worker.starttime.isSome = true) :
    Covers (r.insert e) s where
  capacity := h.capacity
  assigned l hl := (h.assigned l hl).congr le_rfl rfl rfl
  entries j e' he' := by
    rw [Registry.find_insert] at he'
    split at he'
    · obtain rfl := Option.some.inj he'
      exact ⟨huid, hstart⟩
    · exact h.entries j e' he'
  workers p l hw := by
    obtain ⟨hgroup, hrecord⟩ := h.workers p l hw
    refine ⟨hgroup, ?_⟩
    rw [Registry.find_insert, if_neg (hv p l hw)]
    exact hrecord

/-- The next slot may be taken while there is one. -/
theorem Covers.allocated (h : Covers r s) (hlt : r.nextIdentity < r.config.identityCount) :
    Covers r.allocated s where
  capacity := hlt
  assigned l hl := (h.assigned l hl).congr (Nat.le_succ _) rfl rfl
  entries := h.entries
  workers := h.workers

/-- The reserved range is below the largest 32-bit integer. -/
theorem nextLaunch_assigned (h : r.nextIdentity < r.config.identityCount) :
    (nextLaunch r k).uid = r.config.uidBase + r.nextIdentity ∧
    (nextLaunch r k).gid = r.config.gidBase + r.nextIdentity := by
  obtain ⟨-, -, -, -, -, -, huid, hgid⟩ := r.config.reserved
  refine ⟨Nat.mod_eq_of_lt ?_, Nat.mod_eq_of_lt ?_⟩
  · omega
  · omega

end Covering

/-- Programs that keep `P` once it holds. -/
def assuming (P : World → Prop) : Frame Act World where
  contract := contract
  inv := Sound
  kept := sound_preserved
  rel s s' := P s → P s'
  refl _ := id
  trans h h' := h' ∘ h

/-- What the host does not change by itself. -/
def Stable (P : World → Prop) : Prop := ∀ {s s'}, P s → Drift s s' → P s'

section Steps

variable {P : World → Prop}

theorem reads_assuming {α : Type} {Q : α → World → Prop} {p : Op Act IoError α} (hP : Stable P)
    (h : p.Leads reads Q s) : p.Leads (assuming P) Q s :=
  h.wider rfl (fun _ hs => hs) fun _ hdrift hs => hP hs hdrift

/-- A program that only reads keeps what the host keeps. -/
theorem reads_stable {α : Type} {Q : α → World → Prop} {p : Op Act IoError α} (hP : Stable P)
    (hs : P s) (h : p.Leads reads Q s) : p.Leads reads (fun a s' => P s' ∧ Q a s') s :=
  h.mono fun _ _ _ hdrift hQ => ⟨hP hs hdrift, hQ⟩

/-- A save writes the registry in memory, or leaves the file alone. -/
theorem persist_leads (hs : Sound s) (hP : Stable P)
    (hdisk : ∀ t, P t → P { t with disk := some t.registry }) :
    (attempt .persist : Op Act IoError Unit).Leads (assuming P) (fun _ s' =>
      ∃ t, Drift s t ∧ s' = { t with disk := some t.registry }) s := by
  refine leads_attempt hs trivial fun r s' ⟨t, hdrift, heff⟩ _ => ?_
  cases r with
  | ok u =>
    refine ⟨fun h => ?_, fun _ _ => ⟨t, hdrift, heff⟩⟩
    obtain rfl := heff
    exact hdisk t (hP h hdrift)
  | error err =>
    refine ⟨fun h => ?_, fun _ hb => nomatch hb⟩
    obtain rfl | rfl := heff
    · exact hP h hdrift
    · exact hdisk t (hP h hdrift)

/-- The registry in memory changes to another one that covers the workers. -/
theorem assign_leads {f : Registry → Registry} (hs : Sound s) (hcovers : Covers (f s.registry) s)
    (hP : Stable P) (hassign : ∀ t, P t → P { t with registry := f t.registry }) :
    (perform (.assign f) : Op Act IoError Unit).Leads (assuming P) (fun _ s' =>
      ∃ t, Drift s t ∧ s' = { t with registry := f t.registry }) s := by
  refine leads_perform hs hcovers fun _ s' ⟨t, hdrift, heff⟩ _ => ?_
  obtain rfl := heff
  exact ⟨fun h => hassign t (hP h hdrift), t, hdrift, rfl⟩

end Steps

/-- Every worker of the key was one in `s₀`. -/
def Fades (k : Key) (s₀ s : World) : Prop :=
  ∀ p m, s.IsWorker p m → m.key = k → ∃ q, s₀.IsWorker q m ∧ Continues q p

theorem Fades.wanes {s₀ : World} (h : Fades k s₀ s) (hd : Wanes s s') : Fades k s₀ s' := by
  intro p m hw hm
  obtain ⟨q, hq, hc⟩ := hd.worker hw
  obtain ⟨q', hq', hc'⟩ := h q m hq hm
  exact ⟨q', hq', hc'.trans hc⟩

theorem Fades.stable {s₀ : World} : Stable (Fades k s₀) :=
  fun h hdrift => h.wanes hdrift.drifts.toWanes

theorem World.Vacated.stable : Stable (fun s => s.Vacated k) :=
  fun h hdrift => h.wanes hdrift.drifts.toWanes

theorem World.Vacated.fades {s₀ : World} (h : s.Vacated k) : Fades k s₀ s :=
  fun p m hw hm => absurd hm (h p m hw)

/-- The records of the other keys stay, and so do their workers, as long as they live. -/
structure Apart (k : Key) (s₀ s : World) : Prop where
  records : ∀ j, j ≠ k → s.registry.find j = s₀.registry.find j
  workers : ∀ p m, s.IsWorker p m → m.key ≠ k → ∃ q, s₀.IsWorker q m ∧ Continues q p

theorem Apart.refl (s : World) : Apart k s s := ⟨fun _ _ => rfl, fun p _ hw _ => ⟨p, hw, .refl p⟩⟩

theorem Apart.wanes {s₀ : World} (h : Apart k s₀ s) (hd : Wanes s s') : Apart k s₀ s' := by
  refine ⟨hd.registry ▸ h.records, fun p m hw hm => ?_⟩
  obtain ⟨q, hq, hc⟩ := hd.worker hw
  obtain ⟨q', hq', hc'⟩ := h.workers q m hq hm
  exact ⟨q', hq', hc'.trans hc⟩

theorem Apart.settled {s₀ : World} (h : Apart k s₀ s) :
    Apart k s₀ { s with registry := s.registry.settled k } := by
  refine ⟨fun j hj => ?_, h.workers⟩
  rw [Registry.find_settled, if_neg hj]
  exact h.records j hj

theorem Apart.inserted {s₀ : World} {r : Registry} (h : Apart k s₀ s)
    (hkey : (e.worker.id, e.identity.role) = k) (hr : ∀ j, r.find j = s.registry.find j) :
    Apart k s₀ { s with registry := r.insert e } := by
  refine ⟨fun j hj => ?_, h.workers⟩
  rw [Registry.find_insert, hkey, if_neg hj, hr]
  exact h.records j hj

/-- The record of the key, if there is one, has no intent. -/
def Settled (k : Key) (s : World) : Prop :=
  ∀ e, s.registry.find k = some e → e.intent = false

theorem Settled.wanes (h : Settled k s) (hd : Wanes s s') : Settled k s' := by
  rw [Settled, hd.registry]
  exact h

theorem Settled.stable : Stable (Settled k) :=
  fun h hdrift => h.wanes hdrift.drifts.toWanes

theorem Settled.settles (h : Settled k s) :
    Settled k { s with registry := s.registry.settled j } := by
  intro e he
  rw [Registry.find_settled] at he
  split at he
  · obtain ⟨e', _, rfl⟩ := Option.map_eq_some_iff.mp he
    rfl
  · exact h e he

/-- After a failed launch: no new worker, and the other records are as before. -/
structure Lapses (k : Key) (s₀ s : World) : Prop where
  apart : Apart k s₀ s
  fades : Fades k s₀ s
  /-- The record of a worker that is still there gets no intent. -/
  settled : Settled k s₀ → s.Vacated k ∨ Settled k s

/-- No worker of the key is left. -/
structure Cleared (k : Key) (s₀ s : World) : Prop where
  apart : Apart k s₀ s
  vacated : s.Vacated k

theorem Lapses.refl (s : World) : Lapses k s s :=
  ⟨.refl s, fun p _ hw _ => ⟨p, hw, .refl p⟩, .inr⟩

theorem Lapses.wanes {s₀ : World} (h : Lapses k s₀ s) (hd : Wanes s s') : Lapses k s₀ s' :=
  ⟨h.apart.wanes hd, h.fades.wanes hd,
    fun h₀ => (h.settled h₀).imp (fun hv => hv.wanes hd) fun hs => hs.wanes hd⟩

theorem Lapses.stable {s₀ : World} : Stable (Lapses k s₀) :=
  fun h hdrift => h.wanes hdrift.drifts.toWanes

theorem Cleared.wanes {s₀ : World} (h : Cleared k s₀ s) (hd : Wanes s s') : Cleared k s₀ s' :=
  ⟨h.apart.wanes hd, h.vacated.wanes hd⟩

theorem Cleared.stable {s₀ : World} : Stable (Cleared k s₀) :=
  fun h hdrift => h.wanes hdrift.drifts.toWanes

theorem Cleared.lapses {s₀ : World} (h : Cleared k s₀ s) : Lapses k s₀ s :=
  ⟨h.apart, h.vacated.fades, fun _ => .inl h.vacated⟩

/-- Programs that leave the records alone and start no worker. -/
def waning : Frame Act World where
  contract := contract
  inv := Sound
  kept := sound_preserved
  rel := Wanes
  refl := .refl
  trans := .trans

theorem waning_lapses {α : Type} {Q : α → World → Prop} {p : Op Act IoError α} {s₀ : World}
    (h : p.Leads waning Q s) : p.Leads (assuming (Lapses k s₀)) Q s :=
  h.wider rfl (fun _ hs => hs) fun _ hd hs => Lapses.wanes hs hd

theorem drains_waning {α : Type} {Q : α → World → Prop} {p : Op Act IoError α}
    (h : p.Leads (drains j) Q s) : p.Leads waning Q s :=
  h.wider rfl (fun _ hs => hs) fun _ hd => hd.toWanes

section Clear

variable {s₀ : World}

/-- A worker that does not linger has exited. -/
theorem lingers_leads {w : Worker} {path : String × Key} (hs : Sound s) :
    (lingers w path).Leads reads (fun b s' => b = false →
      ∀ p l, s'.IsWorker p l → p.pid = w.pid → w.starttime ≠ some p.start) s := by
  refine leads_bind (leaderAlive_leads hs) fun b s' hs' _ hdead => ?_
  refine leads_ite (fun _ => leads_pure hs' fun h => nomatch h) fun hb => ?_
  refine leads_bind (empty_leads hs') fun b' s'' hs'' hdrift _ => leads_pure hs'' ?_
  intro _ p l hw hpid
  obtain ⟨q, hq, hc⟩ := hdrift.drifts.worker hw
  rw [hc.start]
  exact hdead (by simpa using hb) q l hq (hc.pid.symm.trans hpid)

/-- A recorded worker whose leader is not alive has gone. -/
theorem Sound.vacated_of_dead (hs : Sound s) (hfind : s.registry.find k = some e)
    (hdead : ∀ p l, s.IsWorker p l → p.pid = e.worker.pid → e.worker.starttime ≠ some p.start) :
    s.Vacated k := by
  rintro p l hw rfl
  obtain ⟨_, e', he', hdescribes, _⟩ := hs.memory.workers p l hw
  obtain rfl := Option.some.inj (hfind.symm.trans he')
  rw [Entry.Describes] at hdescribes
  rw [hdescribes] at hdead
  exact hdead p l hw rfl rfl

theorem settled_of_settles (hfind : s.registry.find k = some e) :
    ∀ e', (s.registry.settled k).find k = some e' → e'.intent = false := by
  intro e' he'
  rw [Registry.find_settled, if_pos rfl, hfind] at he'
  exact Option.some.inj he' ▸ rfl

/-- An entry that was left in an intent is settled. -/
theorem recoverIntent_leads (hs : Sound s) (hfind : s.registry.find k = some e)
    {path : String × Key} : (recoverIntent k e path).Leads (assuming (Lapses k s₀))
      (fun _ s' => Settled k s') s := by
  refine leads_ite (fun _ => ?_) fun hi => leads_pure hs fun e' he' => ?_
  · refine leads_bind (reads_assuming Lapses.stable (reads_stable
      (P := fun s' => s'.registry = s.registry) (fun h hd => hd.drifts.registry.trans h) rfl
      (lingers_leads hs))) ?_
    rintro b s₁ hs₁ - ⟨hregistry, hdead⟩
    refine leads_ite (fun _ => leads_throw hs₁) fun hb => ?_
    rw [← hregistry] at hfind
    have hv : s₁.Vacated k := hs₁.vacated_of_dead hfind (hdead (by simpa using hb))
    refine leads_bind (assign_leads hs₁ (hs₁.memory.settled fun p l hw hl => absurd hl (hv p l hw))
      Lapses.stable fun _ h => ⟨h.apart.settled, h.fades,
        fun h₀ => (h.settled h₀).imp id Settled.settles⟩) ?_
    rintro _ s₂ hs₂ - ⟨t, hdrift, rfl⟩
    have hsettled : Settled k { t with registry := t.registry.settled k } := by
      rw [← hdrift.drifts.registry] at hfind
      exact settled_of_settles hfind
    refine (persist_leads hs₂ Lapses.stable
      fun _ h => ⟨⟨h.apart.records, h.apart.workers⟩, h.fades, h.settled⟩).mono ?_
    rintro _ s₃ - - ⟨u, hu, rfl⟩
    exact (Settled.stable hsettled hu : Settled k u)
  · rw [hfind] at he'
    rw [← Option.some.inj he']
    simpa using hi

/-- Before a launch the key is settled. -/
theorem clear_leads (hs : Sound s) :
    (clear k).Leads (assuming (Lapses k s₀)) (fun _ s' => Settled k s') s := by
  refine leads_bind (reads_assuming Lapses.stable (registry_leads hs)) ?_
  rintro r s₁ hs₁ - ⟨rfl, hregistry⟩
  refine leads_refuse hs₁ fun _ => ?_
  cases hfind : s.registry.find k with
  | none =>
    refine leads_pure hs₁ fun e he => ?_
    rw [hregistry, hfind] at he
    cases he
  | some e =>
    rw [← hregistry] at hfind
    refine leads_bind (recoverIntent_leads hs₁ hfind) fun _ s₂ hs₂ _ hsettled => ?_
    refine leads_bind (reads_assuming Lapses.stable (reads_stable Settled.stable hsettled
      (matchesWorker_leads hs₂))) fun b s₃ hs₃ _ ⟨hsettled, _⟩ => ?_
    refine leads_ite (fun _ => leads_throw hs₃) fun _ => ?_
    refine waning_lapses (drains_waning ((drain_leads hs₃).mono fun _ s₄ _ hd _ => ?_))
    rw [Settled, hd.registry]
    exact hsettled

/-- A launch goes on only before an empty group. -/
theorem requireEmpty_leads {path : String × Key} (hs : Sound s) :
    (requireEmpty path).Leads reads (fun _ s' => s'.Unpopulated path) s := by
  refine leads_bind (members_leads hs) fun pids s₁ hs₁ _ _ => ?_
  refine leads_bind (vacant_leads hs₁) fun b s₂ hs₂ _ hvacant => ?_
  exact leads_ite (fun hb => leads_pure hs₂ (hvacant hb)) fun _ => leads_throw hs₂

end Clear

section Establish

variable {s₀ : World} {c : Child} {w : Worker}

/-- The child of a launch has not been waited for. -/
def Held (c : Child) (l : Launch) (start : ℕ) (s : World) : Prop :=
  ∃ p ∈ s.owners, p.serial = c.serial ∧ p.pid = c.pid ∧ p.start = start ∧ p.launch = some l ∧
    p.child = true

theorem Held.stable {start : ℕ} : Stable (Held c l start) := by
  rintro s s' ⟨p, hp, hserial, hpid, hstart, hlaunch, hchild⟩ hdrift
  obtain ⟨p', hp', hc⟩ := hdrift.drifts.held p hp hchild
  exact ⟨p', hp', hc.serial.trans hserial, hc.pid.trans hpid, hc.start.trans hstart,
    hc.launch.trans hlaunch, hc.child.trans hchild⟩

theorem Held.born {start : ℕ} (h : Held c l start s) (hs : Sound s) : c.serial < s.born := by
  obtain ⟨p, hp, hserial, _⟩ := h
  exact hserial ▸ hs.distinct.born p hp

/-- The child of a launch can be waited for, and no other process is a worker of its key. -/
structure InFlight (s₀ : World) (c : Child) (l : Launch) (w : Worker) (s : World) : Prop where
  held : ∃ start, Held c l start s
  own : ∀ p m, s.IsWorker p m → m.key = l.key → p.serial = c.serial
  record : ∃ e, s.registry.find l.key = some e ∧ e.worker = w
  apart : Apart l.key s₀ s

theorem InFlight.stable : Stable (InFlight s₀ c l w) := by
  intro s s' h hdrift
  refine ⟨?_, fun p' m hw hm => ?_, hdrift.drifts.registry ▸ h.record,
    h.apart.wanes hdrift.drifts.toWanes⟩
  · obtain ⟨start, hheld⟩ := h.held
    exact ⟨start, Held.stable hheld hdrift⟩
  · obtain ⟨p, hw, hc⟩ := hdrift.drifts.worker hw
    exact hc.serial.trans (h.own p m hw hm)

theorem InFlight.settled (h : InFlight s₀ c l w s) :
    InFlight s₀ c l w { s with registry := s.registry.settled l.key } := by
  refine ⟨h.held, h.own, ?_, h.apart.settled⟩
  obtain ⟨e, hfind, hworker⟩ := h.record
  refine ⟨e.settled, ?_, hworker⟩
  rw [Registry.find_settled, if_pos rfl, hfind]
  rfl

theorem InFlight.persisted {r : Option Registry} (h : InFlight s₀ c l w s) :
    InFlight s₀ c l w { s with disk := r } :=
  ⟨h.held, h.own, h.record, h.apart.records, h.apart.workers⟩

theorem InFlight.born (h : InFlight s₀ c l w s) (hs : Sound s) : c.serial < s.born := by
  obtain ⟨start, hheld⟩ := h.held
  exact hheld.born hs

/-- A live process with the serial number of the child is the child. -/
theorem InFlight.child (h : InFlight s₀ c l w s) (hs : Sound s) (hp : p ∈ s.owners)
    (hserial : p.serial = c.serial) : p.pid = c.pid ∧ p.launch = some l := by
  obtain ⟨start, q, hq, hqserial, hqpid, _, hlaunch, _⟩ := h.held
  obtain rfl := hs.distinct.serials p hp q hq (hserial.trans hqserial.symm)
  exact ⟨hqpid, hlaunch⟩

/-- Both registries have the record of the child, with its intent. -/
def Recorded (c : Child) (l : Launch) (r : Registry) (s : World) : Prop :=
  ∀ p ∈ s.procs, p.serial = c.serial → r.Records p l False

theorem Recorded.wanes (h : Recorded c l r s) (hc : c.serial < s.born) (hd : Wanes s s') :
    Recorded c l r s' := by
  intro p' hp' hserial
  obtain ⟨p, hp, hpserial, hcontinues⟩ := hd.continues hp' hserial hc
  exact (h p hp hpserial).continues hcontinues

/-- The child has received its plan, or is dead. -/
def Planned (c : Child) (s : World) : Prop :=
  c.serial < s.born ∧ ∀ p ∈ s.procs, p.serial = c.serial → p.planned = true

theorem Planned.stable : Stable (Planned c) := by
  intro s s' h hdrift
  refine ⟨h.1.trans_le hdrift.drifts.born, fun p' hp' hserial => ?_⟩
  obtain ⟨p, hp, hpserial, hc⟩ := hdrift.drifts.continues hp' hserial h.1
  exact hc.planned.trans (h.2 p hp hpserial)

/-- A child in flight may be kept. -/
theorem InFlight.kept (h : InFlight s₀ c l w s) (hs : Sound s) (hplanned : Planned c s) :
    Kept s (l.key, c) := by
  refine ⟨hplanned.1, fun p hp hserial => ⟨l, ⟨hp, ?_, hplanned.2 p hp hserial⟩, rfl⟩⟩
  exact (h.child hs (List.mem_append_left _ hp) hserial).2

/-- A launcher may be sent its plan. -/
theorem InFlight.planned (h : InFlight s₀ c l w s) (hs : Sound s) (hp : p ∈ s.procs)
    (hserial : p.serial = c.serial) :
    InFlight s₀ c l w (s.changed p { p with planned := true }) := by
  refine ⟨?_, fun q m hw hm => ?_, h.record, h.apart.records, fun q m hw hm => ?_⟩
  · obtain ⟨start, q, hq, hqserial, hqpid, hstart, hlaunch, hchild⟩ := h.held
    refine ⟨start, ?_⟩
    obtain hq | hq := List.mem_append.mp hq
    · refine ⟨_, List.mem_append_left _ (List.mem_map_of_mem hq), ?_⟩
      by_cases heq : q = p
      · rw [if_pos heq, ← heq]
        exact ⟨hqserial, hqpid, hstart, hlaunch, hchild⟩
      · rw [if_neg heq]
        exact ⟨hqserial, hqpid, hstart, hlaunch, hchild⟩
    · exact ⟨q, List.mem_append_right _ hq, hqserial, hqpid, hstart, hlaunch, hchild⟩
  · obtain ⟨hq, hlaunch, hplanned⟩ := hw
    obtain ⟨q, hmem, rfl⟩ := List.mem_map.mp hq
    by_cases heq : q = p
    · rw [if_pos heq]
      exact hserial
    · rw [if_neg heq] at hlaunch hplanned ⊢
      exact h.own q m ⟨hmem, hlaunch, hplanned⟩ hm
  · obtain ⟨hq, hlaunch, hplanned⟩ := hw
    obtain ⟨q, hmem, rfl⟩ := List.mem_map.mp hq
    by_cases heq : q = p
    · rw [if_pos heq] at hlaunch
      have hchild := (h.child hs (List.mem_append_left _ hp) hserial).2
      exact absurd (congrArg Launch.key (Option.some.inj (hlaunch.symm.trans hchild))) hm
    · rw [if_neg heq] at hlaunch hplanned ⊢
      exact h.apart.workers q m ⟨hmem, hlaunch, hplanned⟩ hm

/-- The plan is sent after the record of the worker has been saved. -/
theorem sendPlan_leads (hs : Sound s) (hflight : InFlight s₀ c l w s)
    (hmemory : Recorded c l s.registry s) (hdisk : s.disk = some s.registry) :
    (attempt (.sendPlan c) : Op Act IoError Unit).Leads (assuming (InFlight s₀ c l w))
      (fun _ s' => Planned c s') s := by
  refine leads_attempt hs ⟨hflight.born hs, fun p hp hserial => ?_⟩ fun r s' hdoes _ => ?_
  · refine ⟨l, (hflight.child hs (List.mem_append_left _ hp) hserial).2, hmemory p hp hserial, ?_⟩
    intro r hr
    rw [hdisk] at hr
    exact Option.some.inj hr ▸ hmemory p hp hserial
  · obtain ⟨t, hdrift, heff⟩ := hdoes
    have hborn := (hflight.born hs).trans_le hdrift.drifts.born
    obtain ⟨rfl, hdead⟩ | ⟨p, hp, hserial, rfl⟩ := heff
    · refine ⟨fun h => InFlight.stable h hdrift, fun u hu => ⟨hborn, fun p hp hps => ?_⟩⟩
      exact absurd hps (hdead hu p hp)
    · have hdistinct := hs.distinct.drift hdrift
      refine ⟨fun h => (InFlight.stable h hdrift).planned (hs.drift hdrift) hp hserial,
        fun _ _ => ⟨hborn, fun q hq hqs => ?_⟩⟩
      obtain ⟨q, hmem, rfl⟩ := List.mem_map.mp hq
      by_cases heq : q = p
      · rw [if_pos heq]
      · rw [if_neg heq] at hqs
        exact absurd (hdistinct.serials q (List.mem_append_left _ hmem) p
          (List.mem_append_left _ hp) (hqs.trans hserial.symm)) heq

/-- A child with the assigned credentials runs as its worker. -/
theorem InFlight.runs (h : InFlight s₀ c l w s) (hs : Sound s) (huid : l.uid ≠ 0)
    (hpid : w.pid = c.pid) (hw : ∀ i, w.isolation = some i → i.uid = l.uid)
    (hcredentials : HasCredentials w s) :
    ∀ p m, s.IsWorker p m → m.key = l.key → p.Runs m := by
  intro p m hworker hm
  obtain ⟨i, hi, q, hq, hqpid, huids, _⟩ := hcredentials
  have howner := List.mem_append_left s.zombies hworker.1
  obtain ⟨hppid, hlaunch⟩ := h.child hs howner (h.own p m hworker hm)
  obtain rfl := hs.distinct.pids p howner q hq (hppid.trans (hpid.symm.trans hqpid.symm))
  obtain rfl := Option.some.inj (hlaunch.symm.trans hworker.2.1)
  obtain hroot | hruns := (hs.launched p hworker.1 l hlaunch).2
  · rw [hroot, hw i hi] at huids
    exact absurd (huids.unique (all_replicate 0)) huid
  · exact hruns

/-- A launch that succeeds has its worker recorded and planned. -/
theorem establish_leads (hs : Sound s) (hflight : InFlight s₀ c l w s)
    (hmemory : Recorded c l s.registry s) (huid : l.uid ≠ 0) (hpid : w.pid = c.pid)
    (hw : ∀ i, w.isolation = some i → i.uid = l.uid) :
    (establish l.key c w).Leads (assuming (InFlight s₀ c l w))
      (fun _ s' => Settled l.key s' ∧ Planned c s') s := by
  refine leads_bind (persist_leads hs InFlight.stable fun _ h => h.persisted) ?_
  rintro _ s₁ hs₁ hrel₁ ⟨t, hdrift, rfl⟩
  have hmemory' : Recorded c l t.registry t := by
    rw [hdrift.drifts.registry]
    exact hmemory.wanes (hflight.born hs) hdrift.drifts.toWanes
  refine leads_bind (sendPlan_leads hs₁ (hrel₁ hflight) hmemory' rfl)
    fun _ s₂ hs₂ hrel₂ hplanned => ?_
  refine leads_bind (reads_assuming InFlight.stable (reads_stable Planned.stable hplanned
    (leads_other hs₂))) fun _ s₃ hs₃ hrel₃ ⟨hplanned, _⟩ => ?_
  refine leads_bind (reads_assuming InFlight.stable (reads_stable Planned.stable hplanned
    (matchesWorker_leads hs₃))) fun b s₄ hs₄ hrel₄ ⟨hplanned, hcredentials⟩ => ?_
  refine leads_ite (fun hb => ?_) fun _ => leads_throw hs₄
  have hflight₄ := hrel₄ (hrel₃ (hrel₂ (hrel₁ hflight)))
  have hruns := hflight₄.runs hs₄ huid hpid hw (hcredentials hb)
  refine leads_bind (assign_leads hs₄ (hs₄.memory.settled hruns) InFlight.stable
    fun _ h => h.settled) ?_
  rintro _ s₅ hs₅ hrel₅ ⟨u, hu, rfl⟩
  have hsettled : Settled l.key { u with registry := u.registry.settled l.key } := by
    obtain ⟨e, hfind, _⟩ := (InFlight.stable hflight₄ hu).record
    exact settled_of_settles hfind
  refine (persist_leads hs₅ InFlight.stable fun _ h => h.persisted).mono ?_
  rintro _ s₆ - - ⟨v, hv, rfl⟩
  have hplanned' : Planned c { u with registry := u.registry.settled l.key } :=
    (Planned.stable hplanned hu : Planned c u)
  replace hplanned' : Planned c v := Planned.stable hplanned' hv
  exact ⟨(Settled.stable hsettled hv : Settled l.key v), hplanned'⟩

/-- A failed launch kills its own child. -/
theorem kill_leads (hs : Sound s) (hflight : InFlight s₀ c l w s) :
    (perform (.kill c l) : Op Act IoError Unit).Leads waning
      (fun _ s' => InFlight s₀ c l w s') s := by
  refine leads_perform hs ⟨hflight.born hs, fun p hp hserial => ?_⟩ fun _ s' hdoes _ => ?_
  · exact (hflight.child hs (List.mem_append_left _ hp) hserial).2
  · obtain ⟨t, hdrift, heff⟩ := hdoes
    have ht := InFlight.stable hflight hdrift
    have hd := hdrift.drifts.toWanes
    obtain ⟨rfl, _⟩ | ⟨p, hp, hserial, rfl | rfl⟩ := heff
    · exact ⟨hd, ht⟩
    · exact ⟨hd.trans ⟨rfl, rfl, rfl, rfl, rfl, le_rfl, (Wanes.refl t).procs⟩,
        ht.held, ht.own, ht.record, ht.apart.records, ht.apart.workers⟩
    · have hexits : Shift t (t.exited p) := .exits hp
      have hexited := InFlight.stable ht (.single hexits)
      exact ⟨hd.trans ⟨rfl, rfl, rfl, rfl, rfl, le_rfl, hexits.drifts.procs⟩,
        hexited.held, hexited.own, hexited.record, hexited.apart.records,
        hexited.apart.workers⟩

/-- The child of an abandoned launch is dead, and nothing here can fail. -/
theorem abandon_ensures {E : World → Prop} (hs : Sound s) (hflight : InFlight s₀ c l w s) :
    (abandon l.key c l).Ensures contract Sound (fun _ s' => Cleared l.key s₀ s') E s := by
  refine ensures_bind (ensures_perform (kill_leads hs hflight)) ?_
  rintro _ s₁ hs₁ ⟨_, hflight₁⟩
  refine ensures_bind (ensures_perform (wait_leads (k := l.key) hs₁)) ?_
  rintro _ s₂ hs₂ ⟨hd, hdead⟩
  have hv : s₂.Vacated l.key := by
    intro p m hw hm
    obtain ⟨q, hq, hc⟩ := hd.toWanes.worker hw
    exact hdead p hw.1 (hc.serial.trans (hflight₁.own q m hq hm))
  have hcleared : Cleared l.key s₀ s₂ := ⟨hflight₁.apart.wanes hd.toWanes, hv⟩
  refine ensures_bind (ensures_perform (assign_leads (P := Cleared l.key s₀) hs₂
    (hs₂.memory.settled fun p m hw hm => absurd hm (hv p m hw)) Cleared.stable
    fun _ h => ⟨h.apart.settled, h.vacated⟩)) ?_
  rintro _ s₃ hs₃ ⟨hrel₃, _⟩
  replace hcleared := hrel₃ hcleared
  refine ensures_bind (ensures_outcome (drain_leads hs₃)) ?_
  rintro _ s₄ hs₄ ⟨hd₄, _⟩
  replace hcleared : Cleared l.key s₀ s₄ := Cleared.wanes hcleared hd₄.toWanes
  refine ensures_bind (ensures_outcome (persist_leads (P := Cleared l.key s₀) hs₄ Cleared.stable
    fun _ h => ⟨⟨h.apart.records, h.apart.workers⟩, h.vacated⟩)) ?_
  rintro _ s₅ hs₅ ⟨hrel₅, _⟩
  exact ensures_pure hs₅ (hrel₅ hcleared)

end Establish

section Launch

variable {s₀ : World}

/-- The identity of a launch has been taken from the registry in memory. -/
structure Allotted (s₀ : World) (l : Launch) (s : World) : Prop where
  cleared : Cleared l.key s₀ s
  assigned : Assigned s.registry l
  newest : ∀ m ∈ s.spawned, m.slot < l.slot
  group : l.group = group s.registry.config l.key
  uid : l.uid ≠ 0

/-- It has also been taken from the registry file. -/
structure Prepared (s₀ : World) (l : Launch) (s : World) : Prop extends Allotted s₀ l s where
  disk : s.disk = some s.registry

theorem Allotted.stable : Stable (Allotted s₀ l) := by
  intro s s' h hdrift
  have hd := hdrift.drifts
  exact ⟨h.cleared.wanes hd.toWanes, hd.registry ▸ h.assigned, hd.spawned ▸ h.newest,
    hd.registry ▸ h.group, h.uid⟩

theorem Prepared.stable : Stable (Prepared s₀ l) := by
  intro s s' h hdrift
  refine ⟨Allotted.stable h.toAllotted hdrift, ?_⟩
  rw [hdrift.drifts.disk, hdrift.drifts.registry]
  exact h.disk

/-- An assigned uid is not that of root. -/
theorem nextLaunch_uid (h : r.nextIdentity < r.config.identityCount) :
    (nextLaunch r k).uid ≠ 0 := by
  have hbase := r.config.reserved.2.2.1
  rw [(nextLaunch_assigned h).1]
  omega

/-- The next identity is free. -/
theorem allotted_next (hs : Sound s) (hv : Cleared k s₀ s) (hvalid : validId k.1 = true)
    (hcapacity : s.registry.nextIdentity < s.registry.config.identityCount) (e : Entry)
    (hkey : (e.worker.id, e.identity.role) = k) : Allotted s₀ (nextLaunch s.registry k)
      { s with registry := s.registry.allocated.insert e } := by
  obtain ⟨huid, hgid⟩ := nextLaunch_assigned (k := k) hcapacity
  exact ⟨⟨hv.apart.inserted hkey fun _ => rfl, hv.vacated⟩,
    ⟨Nat.lt_succ_self _, huid, hgid, rfl, hvalid⟩, fun m hm => (hs.memory.assigned m hm).slot,
    rfl, nextLaunch_uid hcapacity⟩

/-- The process of a launch has been started. -/
structure Waiting (s₀ : World) (c : Child) (l : Launch) (start : ℕ) (s : World) : Prop where
  held : Held c l start s
  cleared : Cleared l.key s₀ s
  group : l.group = group s.registry.config l.key
  uid : l.uid ≠ 0

theorem Waiting.stable {c : Child} {start : ℕ} : Stable (Waiting s₀ c l start) := by
  intro s s' h hdrift
  exact ⟨Held.stable h.held hdrift, h.cleared.wanes hdrift.drifts.toWanes,
    hdrift.drifts.registry ▸ h.group, h.uid⟩

/-- The launcher waits for its plan. -/
theorem spawn_leads (hs : Sound s) (h : Prepared s₀ l s) :
    (attempt (.spawn l) : Op Act IoError Child).Leads (assuming (Cleared l.key s₀))
      (fun c s' => ∃ start, Waiting s₀ c l start s') s := by
  refine leads_attempt hs ⟨⟨s.registry, h.disk, h.assigned⟩, h.assigned, h.newest⟩ ?_
  rintro r s' ⟨t, hdrift, heff⟩ -
  have ht := Prepared.stable h hdrift
  cases r with
  | error err =>
    obtain rfl := heff
    exact ⟨fun _ => ht.cleared, fun _ hb => nomatch hb⟩
  | ok c =>
    obtain ⟨hserial, hpid, start, rfl⟩ := heff
    -- the launcher has no plan, so there is no new worker
    have hworker : ∀ p m, World.IsWorker { t with
        procs := t.procs ++ [t.launcher c.pid start l]
        born := t.born + 1
        spawned := t.spawned ++ [l] } p m → t.IsWorker p m := by
      rintro p m ⟨hp, hlaunch, hplanned⟩
      obtain hp | rfl := Table.mem_snoc.mp hp
      · exact ⟨hp, hlaunch, hplanned⟩
      · cases hplanned
    have hv : Cleared l.key s₀ { t with
        procs := t.procs ++ [t.launcher c.pid start l]
        born := t.born + 1
        spawned := t.spawned ++ [l] } :=
      ⟨⟨ht.cleared.apart.records, fun p m hw hm => ht.cleared.apart.workers p m
        (hworker p m hw) hm⟩,
        fun p m hw => ht.cleared.vacated p m (hworker p m hw)⟩
    refine ⟨fun _ => hv, fun b hb => ?_⟩
    obtain rfl := Except.ok.inj hb
    refine ⟨start, ⟨t.launcher c.pid start l, ?_, hserial.symm, rfl, rfl, rfl, rfl⟩, hv, ht.group,
      ht.uid⟩
    exact List.mem_append_left _ (List.mem_append_right _ List.mem_cons_self)

/-- The start time that is read is the child's. -/
theorem starttime_leads {c : Child} {start : ℕ} (hs : Sound s) (h : Held c l start s) :
    (perform (.starttime c.pid) : Op Act IoError (Option ℕ)).Leads reads
      (fun b _ => b = some start) s := by
  refine leads_read hs trivial (fun _ _ _ h => h.1) fun b s' hdrift _ heff => ?_
  obtain ⟨p, hp, -, hpid, hstart, -⟩ := Held.stable h hdrift
  exact (heff.2 start).mpr ⟨p, hp, hpid, hstart⟩

/-- The record of the process makes it the one that is in flight. -/
theorem Waiting.inFlight {c : Child} {start : ℕ} (h : Waiting s₀ c l start s) (hs : Sound s)
    (disk : Option String) :
    let e := intended l c.pid (some start) disk
    InFlight s₀ c l e.worker { s with registry := s.registry.insert e } ∧
      Recorded c l (s.registry.insert e) { s with registry := s.registry.insert e } := by
  intro e
  have hkey : (e.worker.id, e.identity.role) = l.key := rfl
  have hfind : (s.registry.insert e).find l.key = some e := by
    rw [Registry.find_insert, hkey, if_pos rfl]
  refine ⟨⟨⟨start, h.held⟩, fun p m hw hm => absurd hm (h.cleared.vacated p m hw),
    ⟨e, hfind, rfl⟩, h.cleared.apart.inserted hkey fun _ => rfl⟩, ?_⟩
  intro p hp hserial
  obtain ⟨q, hq, hqserial, hqpid, hqstart, _⟩ := h.held
  obtain rfl := hs.distinct.serials p (List.mem_append_left _ hp) q hq
    (hserial.trans hqserial.symm)
  refine ⟨h.group, e, hfind, ?_, fun hi => nomatch hi⟩
  rw [Entry.Describes, hqpid, hqstart]
  rfl

/-- The registry has the record of the worker, without an intent. -/
def Registered (k : Key) (w : Worker) (s : World) : Prop :=
  ∃ e, s.registry.find k = some e ∧ e.worker = w ∧ e.intent = false

theorem Registered.stable {w : Worker} : Stable (Registered k w) := by
  intro s s' h hdrift
  rw [Registered, hdrift.drifts.registry]
  exact h

/-- The child is kept under its key. -/
theorem keepChild_leads {c : Child} {w : Worker} (hs : Sound s) (h : Registered k w s)
    (hkept : Kept s (j, c)) : (perform (.keepChild j c) : Op Act IoError Unit).Leads waning
      (fun _ s' => Registered k w s') s := by
  refine leads_perform hs hkept fun _ s' ⟨t, hdrift, heff⟩ _ => ?_
  obtain rfl := heff
  exact ⟨hdrift.drifts.toWanes.trans ⟨rfl, rfl, rfl, rfl, rfl, le_rfl, (Wanes.refl t).procs⟩,
    (Registered.stable h hdrift : Registered k w t)⟩

/-- The end of a launch registers the worker, or leaves none. -/
theorem conclude_ensures {c : Child} {w : Worker} (hs : Sound s) (hflight : InFlight s₀ c l w s)
    (hmemory : Recorded c l s.registry s) (huid : l.uid ≠ 0) (hpid : w.pid = c.pid)
    (hw : ∀ i, w.isolation = some i → i.uid = l.uid) :
    (conclude l c w).Ensures contract Sound (fun w s' => Registered l.key w s' ∧ Apart l.key s₀ s')
      (fun s' => Cleared l.key s₀ s') s := by
  refine ensures_bind (ensures_outcome (establish_leads hs hflight hmemory huid hpid hw)) ?_
  rintro r s₁ hs₁ ⟨hrel, hsettled⟩
  have hflight₁ := hrel hflight
  cases r with
  | error err =>
    exact ensures_bind (abandon_ensures hs₁ hflight₁) fun _ s₂ hs₂ hv => ensures_throw hs₂ hv
  | ok u =>
    obtain ⟨e, hfind, rfl⟩ := hflight₁.record
    have hregistered : Registered l.key e.worker s₁ := ⟨e, hfind, rfl, (hsettled u rfl).1 e hfind⟩
    have hkept := hflight₁.kept hs₁ (hsettled u rfl).2
    refine ensures_bind (ensures_perform (keepChild_leads hs₁ hregistered hkept)) ?_
    rintro _ s₂ hs₂ ⟨hd, hregistered⟩
    exact ensures_pure hs₂ ⟨hregistered, hflight₁.apart.wanes hd⟩

/-- A process is started. If the launch fails, there is no worker. -/
theorem spawnWorker_ensures {disk : Option String} (hs : Sound s)
    (h : Prepared s₀ l s) : (spawnWorker l disk).Ensures contract Sound
      (fun w s' => Registered l.key w s' ∧ Apart l.key s₀ s')
        (fun s' => Cleared l.key s₀ s') s := by
  refine ensures_bind ((reads_stable Prepared.stable h (leads_other hs)).ensures
    fun s' _ hdrift => (h.cleared.wanes hdrift.drifts.toWanes)) ?_
  rintro _ s₁ hs₁ ⟨_, h₁, _⟩
  refine ensures_bind ((spawn_leads hs₁ h₁).ensures fun s' _ hrel => hrel h₁.cleared) ?_
  rintro c s₂ hs₂ ⟨_, start, h₂⟩
  refine ensures_bind ((reads_stable Waiting.stable h₂ (starttime_leads hs₂ h₂.held)).ensures
    fun s' _ hdrift => (h₂.cleared.wanes hdrift.drifts.toWanes)) ?_
  rintro b s₃ hs₃ ⟨_, h₃, rfl⟩
  have hcovers : Covers (s₃.registry.insert (intended l c.pid (some start) disk)) s₃ :=
    hs₃.memory.inserted h₃.cleared.vacated h₃.uid fun _ => rfl
  refine ensures_bind ((assign_leads (P := Cleared l.key s₀) hs₃ hcovers Cleared.stable
    fun _ h => ⟨h.apart.inserted rfl fun _ => rfl, h.vacated⟩).ensures
    fun s' _ hrel => hrel h₃.cleared) ?_
  rintro _ s₄ hs₄ ⟨_, t, hdrift, rfl⟩
  obtain ⟨hflight, hrecorded⟩ := (Waiting.stable h₃ hdrift).inFlight (hs₃.drift hdrift) disk
  exact conclude_ensures hs₄ hflight hrecorded h₃.uid rfl fun i hi => Option.some.inj hi ▸ rfl

/-- A launch registers its worker and touches no other, or leaves none. -/
theorem launch_ensures (hs : Sound s) (hlapses : Lapses k s₀ s) :
    (launch k).Ensures contract Sound (fun w s' => Registered k w s' ∧ Apart k s₀ s')
      (fun s' => Lapses k s₀ s') s := by
  refine ensures_refuse hs hlapses fun hvalid => ?_
  refine ensures_bind ((clear_leads hs).ensures fun s' _ hrel => hrel hlapses) ?_
  rintro _ s₁ hs₁ ⟨hrel₁, hsettled⟩
  replace hlapses := hrel₁ hlapses
  refine ensures_bind ((reads_stable Settled.stable hsettled (registry_leads hs₁)).ensures
    fun s' _ hdrift => Lapses.stable hlapses hdrift) ?_
  rintro r s₂ hs₂ ⟨hdrift₂, hsettled, rfl, hregistry⟩
  replace hlapses := Lapses.stable hlapses hdrift₂
  rw [← hregistry]
  refine ensures_bind ((reads_stable (P := fun s' => Settled k s' ∧ s'.registry = s₂.registry)
    (fun h hd => ⟨Settled.stable h.1 hd, hd.drifts.registry.trans h.2⟩) ⟨hsettled, rfl⟩
    (requireEmpty_leads hs₂)).ensures fun s' _ hdrift => Lapses.stable hlapses hdrift) ?_
  rintro _ s₃ hs₃ ⟨hdrift₃, ⟨hsettled, hregistry₃⟩, hempty⟩
  rw [← hregistry₃] at hempty ⊢
  have hv : Cleared k s₀ s₃ := ⟨(Lapses.stable hlapses hdrift₃).apart, hs₃.vacated hempty hsettled⟩
  refine ensures_refuse hs₃ hv.lapses fun hcapacity => ?_
  have hplan : (attempt (.ask (Except IoError (Option String))) : Op Act IoError _).Leads reads
      (fun _ _ => True) s₃ :=
    leads_try hs₃ trivial (fun _ _ _ h => h) fun _ _ _ _ _ => trivial
  refine ensures_bind (hplan.ensures fun s' _ hdrift => (Cleared.stable hv hdrift).lapses) ?_
  rintro disk s₄ hs₄ ⟨hdrift₄, _⟩
  refine ensures_bind ((leads_other hs₄).ensures fun s' _ hdrift =>
    (Cleared.stable hv (hdrift₄.trans hdrift)).lapses) ?_
  rintro _ s₅ hs₅ ⟨hdrift₅, _⟩
  have hdrift : Drift s₃ s₅ := hdrift₄.trans hdrift₅
  replace hv := Cleared.stable hv hdrift
  rw [← hdrift.drifts.registry] at hcapacity ⊢
  rw [not_le] at hcapacity
  have hcovers := (hs₅.memory.allocated hcapacity).inserted
    (e := intended (nextLaunch s₅.registry k) 0 none disk) hv.vacated
    (nextLaunch_uid (k := k) hcapacity) fun h => absurd rfl h
  refine ensures_bind ((assign_leads (P := Cleared k s₀) hs₅ hcovers Cleared.stable
    fun t h => ⟨h.apart.inserted (r := t.registry.allocated) rfl fun _ => rfl,
      h.vacated⟩).ensures fun s' _ hrel => (hrel hv).lapses) ?_
  rintro _ s₆ hs₆ ⟨_, t, ht, rfl⟩
  rw [← ht.drifts.registry] at hcapacity hs₆ ⊢
  have hallotted := allotted_next (hs₅.drift ht) (Cleared.stable hv ht) (by simpa using hvalid)
    hcapacity (intended (nextLaunch t.registry k) 0 none disk) rfl
  refine ensures_bind ((persist_leads hs₆ (Allotted.stable (l := nextLaunch t.registry k))
    fun _ h => ⟨⟨⟨h.cleared.apart.records, h.cleared.apart.workers⟩, h.cleared.vacated⟩,
      h.assigned, h.newest, h.group, h.uid⟩).ensures
    fun s' _ hrel => (hrel hallotted).cleared.lapses) ?_
  rintro _ s₇ hs₇ ⟨hrel, u, hu, rfl⟩
  exact (spawnWorker_ensures hs₇ ⟨hrel hallotted, rfl⟩).mono (fun _ _ _ h => h)
    fun _ _ hv => hv.lapses

end Launch

end AgentHouse.Broker
