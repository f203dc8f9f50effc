import AgentHouse.Broker.Drift

/-!
# Worker broker: the invariant

A registry covers the workers of the host if every identity that was handed out is behind its
counter and every live worker has its record. Both the registry in memory and the registry file
cover the workers at all times: a launcher gets its plan only after both have its pid, and a
record is dropped or loses its intent only when its worker has gone or runs in its role group.
`allowed` says what the broker's programs have to establish before each of their actions, and
`sound_preserved` that the invariant then survives.
-/

namespace AgentHouse.Broker

variable {s s' t : World} {p p' q : Process} {l : Launch} {k : Key} {r : Registry} {e : Entry}

/-- The processes of the host are told apart by their pids and by their serial numbers. -/
structure Distinct (s : World) : Prop where
  pids : ∀ p ∈ s.owners, ∀ q ∈ s.owners, p.pid = q.pid → p = q
  serials : ∀ p ∈ s.owners, ∀ q ∈ s.owners, p.serial = q.serial → p = q
  nonzero : ∀ p ∈ s.owners, p.pid ≠ 0
  born : ∀ p ∈ s.owners, p.serial < s.born
  apart : ∀ p ∈ s.procs, p ∉ s.zombies

/-- The record is that of the process, with its pid, its start time and its identity. -/
def Entry.Describes (e : Entry) (p : Process) (l : Launch) : Prop :=
  e.worker = startedWorker l p.pid (some p.start)

/-- The identity of a launch is that of its slot in the reserved range, and the slot is taken. -/
structure Assigned (r : Registry) (l : Launch) : Prop where
  slot : l.slot < r.nextIdentity
  uid : l.uid = r.config.uidBase + l.slot
  gid : l.gid = r.config.gidBase + l.slot
  generation : l.generation = l.slot + 1
  valid : validId l.key.1 = true

theorem Assigned.congr {r' : Registry} (h : Assigned r l) (hnext : r.nextIdentity ≤ r'.nextIdentity)
    (huid : r'.config.uidBase = r.config.uidBase) (hgid : r'.config.gidBase = r.config.gidBase) :
    Assigned r' l :=
  ⟨h.slot.trans_le hnext, huid ▸ h.uid, hgid ▸ h.gid, h.generation, h.valid⟩

/-- The registry has the record of the process. -/
def Registry.Records (r : Registry) (p : Process) (l : Launch) (ready : Prop) : Prop :=
  l.group = group r.config l.key ∧
  ∃ e, r.find l.key = some e ∧ e.Describes p l ∧ (e.intent = false → ready)

/-- The registry knows of every identity that was handed out and of every worker. -/
structure Covers (r : Registry) (s : World) : Prop where
  capacity : r.nextIdentity ≤ r.config.identityCount
  assigned : ∀ l ∈ s.spawned, Assigned r l
  /-- A record with a process has its start time. -/
  entries : ∀ k e, r.find k = some e →
    e.identity.uid ≠ 0 ∧ (e.worker.pid ≠ 0 → e.worker.starttime.isSome = true)
  workers : ∀ p l, s.IsWorker p l → r.Records p l (p.Runs l)

/-- A signal went to a process with the assigned uid, and to the leader only if it is the recorded
process; a failed launch signals its own child. -/
def Signal.Sent : Signal → Prop
  | .drain p w r => ∃ k e, r.find k = some e ∧ e.worker = w ∧ All p.uids e.identity.uid ∧
      (p.pid = w.pid → w.starttime = some p.start)
  | .cleanup p l => p.launch = some l

/-- A child that the broker has kept is the worker of its key, as long as it lives. -/
def Kept (s : World) (x : Key × Child) : Prop :=
  x.2.serial < s.born ∧
  ∀ p ∈ s.procs, p.serial = x.2.serial → ∃ l, s.IsWorker p l ∧ l.key = x.1

/-- The invariant of the host: what is launched, recorded and saved agrees. -/
structure Sound (s : World) : Prop where
  distinct : Distinct s
  /-- Every later launch has a greater slot. -/
  slots : s.spawned.Pairwise (fun l m => l.slot < m.slot)
  launched : ∀ p ∈ s.procs, ∀ l, p.launch = some l → l ∈ s.spawned ∧
    (p.uids = List.replicate 4 0 ∨ p.Runs l)
  memory : Covers s.registry s
  stored : ∀ r, s.disk = some r → Covers r s
  first : s.disk = none → s.spawned = []
  signals : ∀ g ∈ s.signals, g.Sent
  children : ∀ x ∈ s.children, Kept s x

section Distinct

/-- Processes that come from distinct ones by a change that keeps the pid and the serial number. -/
theorem Distinct.image {f : Process → Process} (h : Distinct s)
    (hf : ∀ p, (f p).pid = p.pid ∧ (f p).serial = p.serial)
    (howners : ∀ p' ∈ s'.owners, ∃ p ∈ s.owners, p' = f p) (hborn : s'.born = s.born)
    (hapart : ∀ p ∈ s'.procs, p ∉ s'.zombies) : Distinct s' where
  pids p' hp' q' hq' heq := by
    obtain ⟨p, hp, rfl⟩ := howners p' hp'
    obtain ⟨q, hq, rfl⟩ := howners q' hq'
    rw [(hf p).1, (hf q).1] at heq
    rw [h.pids p hp q hq heq]
  serials p' hp' q' hq' heq := by
    obtain ⟨p, hp, rfl⟩ := howners p' hp'
    obtain ⟨q, hq, rfl⟩ := howners q' hq'
    rw [(hf p).2, (hf q).2] at heq
    rw [h.serials p hp q hq heq]
  nonzero p' hp' := by
    obtain ⟨p, hp, rfl⟩ := howners p' hp'
    rw [(hf p).1]
    exact h.nonzero p hp
  born p' hp' := by
    obtain ⟨p, hp, rfl⟩ := howners p' hp'
    rw [(hf p).2, hborn]
    exact h.born p hp
  apart := hapart

/-- Fewer processes are distinct, too. -/
theorem Distinct.subset (h : Distinct s) (howners : ∀ p ∈ s'.owners, p ∈ s.owners)
    (hborn : s'.born = s.born) (hapart : ∀ p ∈ s'.procs, p ∉ s'.zombies) : Distinct s' :=
  h.image (f := id) (fun _ => ⟨rfl, rfl⟩) (fun p hp => ⟨p, howners p hp, rfl⟩) hborn hapart

theorem Distinct.exited (h : Distinct s) (hp : p ∈ s.procs) : Distinct (s.exited p) := by
  have hzombies : ∀ q ∈ (s.exited p).zombies, q ∈ s.zombies ∨ q = p := by
    intro q hq
    by_cases hchild : p.child = true
    · simp only [World.exited, hchild, if_true] at hq
      exact Table.mem_snoc.mp hq
    · simp only [World.exited, if_neg hchild] at hq
      exact .inl hq
  refine h.subset ?_ rfl ?_
  · intro q hq
    obtain hq | hq := List.mem_append.mp hq
    · exact List.mem_append_left _ (List.mem_of_mem_filter hq)
    · obtain hq | rfl := hzombies q hq
      · exact List.mem_append_right _ hq
      · exact List.mem_append_left _ hp
  · intro q hq hz
    obtain ⟨hq, hne⟩ := List.mem_filter.mp hq
    obtain hz | rfl := hzombies q hz
    · exact h.apart q hq hz
    · simp at hne

theorem Distinct.changed (h : Distinct s) (hp : p ∈ s.procs) (hpid : p'.pid = p.pid)
    (hserial : p'.serial = p.serial) : Distinct (s.changed p p') := by
  have hf : ∀ q, (if q = p then p' else q).pid = q.pid ∧
      (if q = p then p' else q).serial = q.serial := by
    intro q
    by_cases heq : q = p
    · rw [if_pos heq, heq]
      exact ⟨hpid, hserial⟩
    · rw [if_neg heq]
      exact ⟨rfl, rfl⟩
  refine h.image hf ?_ rfl ?_
  · intro q hq
    obtain hq | hq := List.mem_append.mp hq
    · obtain ⟨q, hmem, rfl⟩ := List.mem_map.mp hq
      exact ⟨q, List.mem_append_left _ hmem, rfl⟩
    · refine ⟨q, List.mem_append_right _ hq, ?_⟩
      rw [if_neg]
      rintro rfl
      exact h.apart q hp hq
  · intro q hq hz
    obtain ⟨q, hmem, rfl⟩ := List.mem_map.mp hq
    have howner := List.mem_append_left s.zombies hmem
    rw [h.pids _ (List.mem_append_right _ hz) q howner (hf q).1] at hz
    exact h.apart q hmem hz

/-- A new process takes a free pid and the next serial number. -/
theorem Distinct.added (h : Distinct s) (hpid : s.Free p.pid) (hserial : p.serial = s.born)
    (hprocs : s'.procs = s.procs ++ [p]) (hzombies : s'.zombies = s.zombies)
    (hborn : s'.born = s.born + 1) : Distinct s' := by
  have howners : ∀ q ∈ s'.owners, q ∈ s.owners ∨ q = p := by
    intro q hq
    rw [World.owners, hprocs, hzombies] at hq
    obtain hq | hq := List.mem_append.mp hq
    · obtain hq | rfl := Table.mem_snoc.mp hq
      · exact .inl (List.mem_append_left _ hq)
      · exact .inr rfl
    · exact .inl (List.mem_append_right _ hq)
  have hold : ∀ q ∈ s.owners, q.serial ≠ p.serial := by
    intro q hq
    have := h.born q hq
    omega
  refine ⟨?_, ?_, ?_, ?_, ?_⟩
  · intro a ha b hb heq
    obtain ha | rfl := howners a ha
    · obtain hb | rfl := howners b hb
      · exact h.pids a ha b hb heq
      · exact absurd heq (hpid.2 a ha)
    · obtain hb | rfl := howners b hb
      · exact absurd heq.symm (hpid.2 b hb)
      · rfl
  · intro a ha b hb heq
    obtain ha | rfl := howners a ha
    · obtain hb | rfl := howners b hb
      · exact h.serials a ha b hb heq
      · exact absurd heq (hold a ha)
    · obtain hb | rfl := howners b hb
      · exact absurd heq.symm (hold b hb)
      · rfl
  · intro a ha
    obtain ha | rfl := howners a ha
    · exact h.nonzero a ha
    · exact hpid.1
  · intro a ha
    rw [hborn]
    obtain ha | rfl := howners a ha
    · have := h.born a ha
      omega
    · omega
  · intro a ha hz
    rw [hprocs] at ha
    rw [hzombies] at hz
    obtain ha | rfl := Table.mem_snoc.mp ha
    · exact h.apart a ha hz
    · exact hold a (List.mem_append_right _ hz) rfl

/-- The host by itself does not confuse processes. -/
theorem Distinct.shift (h : Distinct s) (hshift : Shift s s') : Distinct s' := by
  cases hshift with
  | exits hp => exact h.exited hp
  | appears hserial hpid hlaunch hplanned hchild => exact h.added hpid hserial rfl rfl rfl
  | joins hp hlaunch hplanned => exact h.changed hp rfl rfl
  | drops hp hlaunch hplanned hgroup => exact h.changed hp rfl rfl

theorem Distinct.drift (h : Distinct s) (hdrift : Drift s s') : Distinct s' := by
  induction hdrift with
  | refl => exact h
  | tail _ hshift ih => exact ih.shift hshift

end Distinct

section Drift

/-- A process that goes on is described by the same entry. -/
theorem Entry.Describes.continues (h : e.Describes p l) (hc : Continues p p') :
    e.Describes p' l := by
  rw [Entry.Describes, hc.pid, hc.start]
  exact h

/-- A registry that covers the workers covers those that are left. -/
theorem Covers.wanes (h : Covers r s) (hd : Wanes s s') : Covers r s' where
  capacity := h.capacity
  assigned l hl := h.assigned l (hd.spawned ▸ hl)
  entries := h.entries
  workers p' l hw := by
    obtain ⟨p, hw, hc⟩ := hd.worker hw
    obtain ⟨hgroup, e, hfind, hdescribes, hruns⟩ := h.workers p l hw
    exact ⟨hgroup, e, hfind, hdescribes.continues hc, fun hi => hc.runs l hw.2.1 (hruns hi)⟩

theorem Kept.wanes {x : Key × Child} (h : Kept s x) (hd : Wanes s s') : Kept s' x := by
  refine ⟨h.1.trans_le hd.born, fun p' hp' hserial => ?_⟩
  obtain ⟨p, hp, hpserial, hc⟩ := hd.continues hp' hserial h.1
  obtain ⟨l, ⟨_, hlaunch, hplanned⟩, hkey⟩ := h.2 p hp hpserial
  exact ⟨l, ⟨hp', hc.launch.trans hlaunch, hc.planned.trans hplanned⟩, hkey⟩

/-- The host by itself keeps the invariant. -/
theorem Sound.drift (h : Sound s) (hdrift : Drift s s') : Sound s' := by
  have hd := hdrift.drifts
  refine ⟨h.distinct.drift hdrift, ?_, ?_, ?_, ?_, ?_, ?_, ?_⟩
  · rw [hd.spawned]
    exact h.slots
  · intro p' hp' l hl
    obtain ⟨p, hp, hc⟩ | ⟨hnone, _⟩ := hd.procs p' hp'
    · have hpl : p.launch = some l := hc.launch.symm.trans hl
      obtain ⟨hspawned, huids⟩ := h.launched p hp l hpl
      refine ⟨hd.spawned ▸ hspawned, ?_⟩
      obtain hsame | ⟨l', hl', hr⟩ := hc.uids
      · obtain huids | hr := huids
        · exact .inl (hsame.trans huids)
        · exact .inr (hc.runs l hpl hr)
      · rw [hpl] at hl'
        cases hl'
        exact .inr hr
    · rw [hnone] at hl
      cases hl
  · rw [hd.registry]
    exact h.memory.wanes hd.toWanes
  · intro r hr
    exact (h.stored r (hd.disk ▸ hr)).wanes hd.toWanes
  · rw [hd.disk, hd.spawned]
    exact h.first
  · rw [hd.signals]
    exact h.signals
  · intro x hx
    exact (h.children x (hd.children ▸ hx)).wanes hd.toWanes

end Drift

/-- What the programs establish before an action. -/
def allowed : {β : Type} → Act β → World → Prop
  | _, .assign f, s => Covers (f s.registry) s
  | _, .spawn l, s => (∃ r, s.disk = some r ∧ Assigned r l) ∧ Assigned s.registry l ∧
      ∀ m ∈ s.spawned, m.slot < l.slot
  | _, .sendPlan c, s => c.serial < s.born ∧ ∀ p ∈ s.procs, p.serial = c.serial →
      ∃ l, p.launch = some l ∧ s.registry.Records p l False ∧
        ∀ r, s.disk = some r → r.Records p l False
  | _, .pidfdSendSignal n w, s => n < s.born ∧ ∃ k e, s.registry.find k = some e ∧ e.worker = w ∧
      ∀ p ∈ s.procs, p.serial = n →
        All p.uids e.identity.uid ∧ (p.pid = w.pid → w.starttime = some p.start)
  | _, .kill c l, s => c.serial < s.born ∧
      ∀ p ∈ s.procs, p.serial = c.serial → p.launch = some l
  | _, .keepChild k c, s => Kept s (k, c)
  | _, _, _ => True

/-- The contract of the broker's programs. -/
def contract : Contract Act World := machine.contract allowed

section Preserved

theorem All.unique {ids : List ℕ} {a b : ℕ} (ha : All ids a) (hb : All ids b) : a = b := by
  obtain ⟨i, hi⟩ := List.exists_mem_of_length_pos (show 0 < ids.length by rw [ha.1]; decide)
  exact (ha.2 i hi).symm.trans (hb.2 i hi)

theorem Registry.Records.continues {c : Prop} (h : r.Records p l c) (hc : Continues p p') :
    r.Records p' l c := by
  obtain ⟨hgroup, e, hfind, hdescribes, hready⟩ := h
  exact ⟨hgroup, e, hfind, hdescribes.continues hc, hready⟩

/-- A process with an assigned uid keeps it. -/
theorem Sound.keeps_uid (h : Sound s) (hp : p ∈ s.procs) (hc : Continues p p') {uid : ℕ}
    (huid : uid ≠ 0) (hall : All p.uids uid) : All p'.uids uid := by
  obtain hsame | ⟨l, hl, hr⟩ := hc.uids
  · rwa [hsame]
  · obtain hroot | hruns := (h.launched p hp l hl).2
    · rw [hroot] at hall
      exact absurd (hall.unique (all_replicate 0)) huid
    · rw [hall.unique hruns.2.1]
      exact hr.2.1

/-- What is allowed stays so. -/
theorem allowed_drift {β : Type} {a : Act β} (hs : Sound s) (ha : allowed a s) (hd : Wanes s t) :
    allowed a t := by
  cases a with
  | assign f =>
    have hcovers : Covers (f s.registry) s := ha
    rw [← hd.registry] at hcovers
    exact hcovers.wanes hd
  | spawn l =>
    obtain ⟨hdisk, hmemory, hslots⟩ := ha
    refine ⟨hd.disk ▸ hdisk, hd.registry ▸ hmemory, ?_⟩
    rw [hd.spawned]
    exact hslots
  | sendPlan c =>
    obtain ⟨hborn, hall⟩ := ha
    refine ⟨hborn.trans_le hd.born, fun p' hp' hserial => ?_⟩
    obtain ⟨p, hp, hpserial, hc⟩ := hd.continues hp' hserial hborn
    obtain ⟨l, hl, hmemory, hdisk⟩ := hall p hp hpserial
    refine ⟨l, hc.launch.trans hl, ?_, fun r hr => ?_⟩
    · rw [hd.registry]
      exact hmemory.continues hc
    · exact (hdisk r (hd.disk ▸ hr)).continues hc
  | pidfdSendSignal n w =>
    obtain ⟨hborn, k, e, hfind, hworker, hall⟩ := ha
    refine ⟨hborn.trans_le hd.born, k, e, hd.registry ▸ hfind, hworker, fun p' hp' hserial => ?_⟩
    obtain ⟨p, hp, hpserial, hc⟩ := hd.continues hp' hserial hborn
    obtain ⟨huids, hstart⟩ := hall p hp hpserial
    refine ⟨hs.keeps_uid hp hc (hs.memory.entries k e hfind).1 huids, fun hpid => ?_⟩
    rw [hstart (hc.pid.symm.trans hpid), hc.start]
  | kill c l =>
    obtain ⟨hborn, hall⟩ := ha
    refine ⟨hborn.trans_le hd.born, fun p' hp' hserial => ?_⟩
    obtain ⟨p, hp, hpserial, hc⟩ := hd.continues hp' hserial hborn
    exact hc.launch.trans (hall p hp hpserial)
  | keepChild k c => exact Kept.wanes ha hd
  | _ => trivial

theorem Covers.congr (h : Covers r s) (hprocs : s'.procs = s.procs)
    (hspawned : s'.spawned = s.spawned) : Covers r s' where
  capacity := h.capacity
  assigned := hspawned ▸ h.assigned
  entries := h.entries
  workers p l hw := h.workers p l ⟨hprocs ▸ hw.1, hw.2⟩

/-- A change that leaves the processes and the launches alone. -/
theorem Sound.frame (h : Sound s) (hdistinct : Distinct s') (hprocs : s'.procs = s.procs)
    (hspawned : s'.spawned = s.spawned) (hmemory : Covers s'.registry s)
    (hstored : ∀ r, s'.disk = some r → Covers r s) (hfirst : s'.disk = none → s.disk = none)
    (hsignals : ∀ g ∈ s'.signals, g.Sent) (hborn : s'.born = s.born)
    (hchildren : ∀ x ∈ s'.children, Kept s x) : Sound s' where
  distinct := hdistinct
  slots := hspawned ▸ h.slots
  launched := by
    rw [hprocs, hspawned]
    exact h.launched
  memory := hmemory.congr hprocs hspawned
  stored r hr := (hstored r hr).congr hprocs hspawned
  first hnone := by
    rw [hspawned]
    exact h.first (hfirst hnone)
  signals := hsignals
  children x hx := by
    obtain ⟨hserial, hlive⟩ := hchildren x hx
    refine ⟨hborn ▸ hserial, fun p hp hps => ?_⟩
    obtain ⟨l, hw, hkey⟩ := hlive p (hprocs ▸ hp) hps
    exact ⟨l, ⟨hp, hw.2⟩, hkey⟩

theorem Distinct.congr (h : Distinct s) (hprocs : s'.procs = s.procs)
    (hzombies : s'.zombies = s.zombies) (hborn : s'.born = s.born) : Distinct s' := by
  have howners : s'.owners = s.owners := by rw [World.owners, World.owners, hprocs, hzombies]
  refine h.subset (fun p hp => howners ▸ hp) hborn fun p hp hz => ?_
  exact h.apart p (hprocs ▸ hp) (hzombies ▸ hz)

/-- The registry in memory may change to one that covers the workers. -/
theorem Sound.assigned {f : Registry → Registry} (h : Sound s) (hf : Covers (f s.registry) s) :
    Sound { s with registry := f s.registry } :=
  h.frame (h.distinct.congr rfl rfl rfl) rfl rfl hf h.stored id h.signals rfl h.children

/-- The registry in memory may be saved. -/
theorem Sound.persisted (h : Sound s) : Sound { s with disk := some s.registry } := by
  refine h.frame (h.distinct.congr rfl rfl rfl) rfl rfl h.memory ?_ (fun hnone => nomatch hnone)
    h.signals rfl h.children
  intro r hr
  rw [← Option.some.inj hr]
  exact h.memory

/-- A signal that may be sent is recorded. -/
theorem Sound.signalled {g : Signal} (h : Sound s) (hg : g.Sent) :
    Sound { s with signals := s.signals ++ [g] } := by
  refine h.frame (h.distinct.congr rfl rfl rfl) rfl rfl h.memory h.stored id ?_ rfl
    h.children
  intro g' hg'
  obtain hg' | rfl := Table.mem_snoc.mp hg'
  · exact h.signals g' hg'
  · exact hg

/-- A kill keeps the invariant. -/
theorem Sound.killed {g : Signal} (h : Sound s) (hp : p ∈ s.procs) (hg : g.Sent)
    (hkilled : s.Killed p g s') : Sound s' := by
  obtain rfl | rfl := hkilled
  · exact h.signalled hg
  · exact (h.drift (.single (.exits hp))).signalled hg

/-- So does the end of a wait. -/
theorem Sound.reaped (h : Sound s) (n : ℕ) : Sound (s.reaped n) := by
  refine h.frame (h.distinct.subset ?_ rfl ?_) rfl rfl h.memory h.stored id h.signals rfl
    h.children
  · intro p hp
    obtain hp | hp := List.mem_append.mp hp
    · exact List.mem_append_left _ hp
    · exact List.mem_append_right _ (List.mem_of_mem_filter hp)
  · intro p hp hz
    exact h.distinct.apart p hp (List.mem_of_mem_filter hz)

/-- A new launcher is no worker before it gets its plan. -/
theorem Covers.launched {pid start : ℕ} (h : Covers r s) (hl : Assigned r l)
    (hprocs : s'.procs = s.procs ++ [s.launcher pid start l])
    (hspawned : s'.spawned = s.spawned ++ [l]) : Covers r s' where
  capacity := h.capacity
  assigned m hm := by
    rw [hspawned] at hm
    obtain hm | rfl := Table.mem_snoc.mp hm
    · exact h.assigned m hm
    · exact hl
  entries := h.entries
  workers p m hw := by
    obtain ⟨hp, hw⟩ := hw
    rw [hprocs] at hp
    obtain hp | rfl := Table.mem_snoc.mp hp
    · exact h.workers p m ⟨hp, hw⟩
    · cases hw.2

/-- A launcher with a fresh slot may be spawned. -/
theorem Sound.spawned {pid start : ℕ} (h : Sound s) (hpid : s.Free pid)
    (ha : allowed (.spawn l) s) : Sound { s with
      procs := s.procs ++ [s.launcher pid start l]
      born := s.born + 1
      spawned := s.spawned ++ [l] } := by
  obtain ⟨⟨r, hr, hdisk⟩, hmemory, hslots⟩ := ha
  refine ⟨h.distinct.added (p := s.launcher pid start l) hpid rfl rfl rfl rfl, ?_, ?_, ?_, ?_, ?_,
    h.signals, ?_⟩
  · refine List.pairwise_append.mpr ⟨h.slots, List.pairwise_singleton _ _, ?_⟩
    intro m hm l' hl'
    rw [List.mem_singleton.mp hl']
    exact hslots m hm
  · intro p hp m hm
    obtain hp | rfl := Table.mem_snoc.mp hp
    · obtain ⟨hspawned, huids⟩ := h.launched p hp m hm
      exact ⟨List.mem_append_left _ hspawned, huids⟩
    · cases hm
      exact ⟨List.mem_append_right _ List.mem_cons_self, .inl rfl⟩
  · exact h.memory.launched hmemory rfl rfl
  · intro r' hr'
    obtain rfl := Option.some.inj (hr.symm.trans hr')
    exact (h.stored r hr').launched hdisk rfl rfl
  · intro hnone
    cases hr.symm.trans hnone
  · intro x hx
    obtain ⟨hserial, hlive⟩ := h.children x hx
    refine ⟨hserial.trans (Nat.lt_succ_self _), fun p hp hps => ?_⟩
    obtain hp | rfl := Table.mem_snoc.mp hp
    · obtain ⟨m, hw, hkey⟩ := hlive p hp hps
      exact ⟨m, ⟨List.mem_append_left _ hw.1, hw.2⟩, hkey⟩
    · exact absurd hps hserial.ne'

/-- A launcher whose record is complete gets its plan. -/
theorem Covers.planned (h : Covers r s) (hl : p.launch = some l)
    (hrecords : r.Records p l False) : Covers r (s.changed p { p with planned := true }) where
  capacity := h.capacity
  assigned := h.assigned
  entries := h.entries
  workers q m hw := by
    obtain ⟨hq, hm, hplanned⟩ := hw
    obtain ⟨q, hmem, rfl⟩ := List.mem_map.mp hq
    by_cases heq : q = p
    · rw [if_pos heq] at hm ⊢
      cases hl.symm.trans hm
      obtain ⟨hgroup, e, hfind, hdescribes, hready⟩ := hrecords
      exact ⟨hgroup, e, hfind, hdescribes, fun hi => (hready hi).elim⟩
    · rw [if_neg heq] at hm hplanned ⊢
      exact h.workers q m ⟨hmem, hm, hplanned⟩

/-- A launcher whose record is saved may become the worker. -/
theorem Sound.planned (h : Sound s) (hp : p ∈ s.procs) (hl : p.launch = some l)
    (hmemory : s.registry.Records p l False) (hdisk : ∀ r, s.disk = some r → r.Records p l False) :
    Sound (s.changed p { p with planned := true }) := by
  refine ⟨h.distinct.changed hp rfl rfl, h.slots, ?_, h.memory.planned hl hmemory,
    fun r hr => (h.stored r hr).planned hl (hdisk r hr), h.first, h.signals, ?_⟩
  · intro q hq m hm
    obtain ⟨q, hmem, rfl⟩ := List.mem_map.mp hq
    by_cases heq : q = p
    · rw [if_pos heq] at hm ⊢
      exact h.launched p hp m hm
    · rw [if_neg heq] at hm ⊢
      exact h.launched q hmem m hm
  · intro x hx
    obtain ⟨hserial, hlive⟩ := h.children x hx
    refine ⟨hserial, fun q hq hqs => ?_⟩
    have hq' := hq
    obtain ⟨q, hmem, rfl⟩ := List.mem_map.mp hq
    by_cases heq : q = p
    · rw [if_pos heq] at hqs hq' ⊢
      obtain ⟨m, hw, hkey⟩ := hlive p hp hqs
      exact ⟨m, ⟨hq', hw.2.1, rfl⟩, hkey⟩
    · rw [if_neg heq] at hqs hq' ⊢
      obtain ⟨m, hw, hkey⟩ := hlive q hmem hqs
      exact ⟨m, ⟨hq', hw.2⟩, hkey⟩

/-- Every action that is allowed keeps the invariant. -/
theorem sound_preserved : contract.Preserves Sound := by
  rintro β a s s' b hs ha ⟨t, hdrift, heff⟩
  have ha : allowed a t := allowed_drift hs ha hdrift.drifts.toWanes
  replace hs : Sound t := hs.drift hdrift
  cases a with
  | assign f =>
    obtain rfl := heff
    exact hs.assigned ha
  | persist =>
    cases b with
    | ok u =>
      obtain rfl := heff
      exact hs.persisted
    | error e =>
      obtain rfl | rfl := heff
      · exact hs
      · exact hs.persisted
  | mark =>
    have hmarked : Sound { t with marker := true } :=
      hs.frame (hs.distinct.congr rfl rfl rfl) rfl rfl hs.memory hs.stored id hs.signals rfl
        hs.children
    cases b with
    | ok u =>
      obtain rfl := heff
      exact hmarked
    | error e =>
      obtain rfl | rfl := heff
      · exact hs
      · exact hmarked
  | pidfdSendSignal n w =>
    obtain ⟨rfl, _⟩ | ⟨p, hp, hserial, _, hkilled⟩ := heff
    · exact hs
    · obtain ⟨_, k, e, hfind, hworker, hall⟩ := ha
      obtain ⟨huids, hstart⟩ := hall p hp hserial
      exact hs.killed (g := .drain p w t.registry) hp ⟨k, e, hfind, hworker, huids, hstart⟩ hkilled
  | spawn l =>
    cases b with
    | ok c =>
      obtain ⟨_, hpid, start, rfl⟩ := heff
      exact hs.spawned hpid ha
    | error e =>
      obtain rfl := heff
      exact hs
  | sendPlan c =>
    obtain ⟨rfl, _⟩ | ⟨p, hp, hserial, rfl⟩ := heff
    · exact hs
    · obtain ⟨l, hl, hmemory, hdisk⟩ := ha.2 p hp hserial
      exact hs.planned hp hl hmemory hdisk
  | kill c l =>
    obtain ⟨rfl, _⟩ | ⟨p, hp, hserial, hkilled⟩ := heff
    · exact hs
    · exact hs.killed (g := .cleanup p l) hp (ha.2 p hp hserial) hkilled
  | wait c =>
    obtain ⟨_, rfl⟩ := heff
    exact hs.reaped c.serial
  | tryWait c =>
    obtain ⟨_, _, rfl⟩ | ⟨_, rfl⟩ := heff
    · exact hs.reaped c.serial
    · exact hs
  | keepChild k c =>
    obtain rfl := heff
    refine hs.frame (hs.distinct.congr rfl rfl rfl) rfl rfl hs.memory hs.stored id hs.signals rfl
      fun x hx => ?_
    obtain hx | rfl := Table.mem_snoc.mp hx
    · exact hs.children x (List.mem_of_mem_filter hx)
    · exact ha
  | takeChild k =>
    obtain ⟨_, rfl⟩ := heff
    exact hs.frame (hs.distinct.congr rfl rfl rfl) rfl rfl hs.memory hs.stored id hs.signals rfl
      fun x hx => hs.children x (List.mem_of_mem_filter hx)
  | ready =>
    obtain rfl := heff
    exact hs.frame (hs.distinct.congr rfl rfl rfl) rfl rfl hs.memory hs.stored id hs.signals rfl
      hs.children
  | registry =>
    obtain ⟨_, rfl⟩ := heff
    exact hs
  | children =>
    obtain ⟨_, rfl⟩ := heff
    exact hs
  | ask β =>
    obtain rfl := heff
    exact hs
  | load | marked | alive | starttime | ids | members | empty | pidfdOpen =>
    obtain ⟨rfl, _⟩ := heff
    exact hs

end Preserved

end AgentHouse.Broker
