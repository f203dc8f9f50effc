import AgentHouse.Broker.Possible

/-!
# Worker broker: identities are never shared or reused

Every worker gets the next slot of the reserved range, and no slot is handed out twice, through
any requests, failures, restarts and compactions. A signal goes only to a process with the
assigned uid, except that a failed launch kills the child that it has started itself.
-/

namespace AgentHouse.Broker

open Op

variable {s s' start : World} {p q : Process} {l m : Launch} {k : Key}

/-- Greater slots give other identities. -/
theorem Sound.identities (h : Sound s) : s.spawned.Pairwise (fun l m =>
    l.uid ≠ m.uid ∧ l.gid ≠ m.gid ∧ l.generation ≠ m.generation) := by
  refine h.slots.imp_of_mem fun {l m} hl hm hlt => ?_
  have hal := h.memory.assigned l hl
  have ham := h.memory.assigned m hm
  rw [hal.uid, hal.gid, hal.generation, ham.uid, ham.gid, ham.generation]
  omega

/-- The identity is in the reserved range, which is below the largest 32-bit integer. -/
structure InRange (c : Config) (l : Launch) : Prop where
  uid : l.uid = c.uidBase + l.slot
  gid : l.gid = c.gidBase + l.slot
  slot : l.slot < c.identityCount
  fits : c.uidBase + l.slot < 2 ^ 32 ∧ c.gidBase + l.slot < 2 ^ 32

/-- The slot of a launch lies below the capacity. -/
theorem Sound.in_range (h : Sound s) (hl : l ∈ s.spawned) : InRange s.registry.config l := by
  have ha := h.memory.assigned l hl
  have hslot : l.slot < s.registry.config.identityCount := ha.slot.trans_le h.memory.capacity
  obtain ⟨-, -, -, -, -, -, huid, hgid⟩ := s.registry.config.reserved
  exact ⟨ha.uid, ha.gid, hslot, by omega, by omega⟩

/-- What holds of the workers in every state. -/
structure Identified (s : World) : Prop where
  /-- No two workers that were ever spawned share an identity. -/
  unique : s.spawned.Pairwise (fun l m =>
    l.uid ≠ m.uid ∧ l.gid ≠ m.gid ∧ l.generation ≠ m.generation)
  /-- Every launched process has its identity, or is still root. -/
  received : ∀ p ∈ s.procs, ∀ l, p.launch = some l → l ∈ s.spawned ∧
    (p.uids = List.replicate 4 0 ∨ p.Runs l)
  range : ∀ l ∈ s.spawned, InRange s.registry.config l
  /-- The counters in memory and in the file are ahead of every identity. -/
  ahead : ∀ l ∈ s.spawned, l.slot < s.registry.nextIdentity ∧
    ∀ r, s.disk = some r → l.slot < r.nextIdentity
  one : ∀ p l q m, s.IsWorker p l → s.IsWorker q m → l.key = m.key → p = q
  signals : ∀ g ∈ s.signals, g.Sent
  /-- A request that is no launch drains only the worker of its registry record. -/
  requests : ∀ q : BrokerRequest, q.action ≠ .launch →
    (request q).Keeps contract (fun _ s' => Drains (q.id, q.role) s s') s ∧
    ((∀ e, s.registry.find (q.id, q.role) = some e → e.intent = false →
        q.worker ≠ some e.worker) →
      (request q).Keeps contract (fun _ s' => Drift s s') s)

/-- In every state of every run, also inside a program, no two workers that were ever spawned share
a uid, a gid or a generation, all of them lie in the reserved range, one worker of a key lives at a
time, and signals reach only processes of the assigned uid or the launch's own child. -/
theorem worker_identities_never_reused (hstart : Fresh start) (h : machine.Reaches start s) :
    Identified s := by
  have hs := reaches_sound hstart h
  refine ⟨hs.identities, hs.launched, fun l hl => hs.in_range hl, fun l hl => ⟨?_, fun r hr => ?_⟩,
    fun p l q m hp hq hkey => hs.one_worker hp hq hkey, hs.signals, fun q hq => ⟨?_, fun hw => ?_⟩⟩
  · exact (hs.memory.assigned l hl).slot
  · exact ((hs.stored r hr).assigned l hl).slot
  · exact Keeps.mono (request_leads hs hq) fun _ _ hr => hr.2.1
  · exact Keeps.mono (request_unmatched hs hq hw) fun _ _ hr => hr.2.1

/-- A configuration for a thousand workers. -/
def sampleConfig : Config where
  socket := "/run/ahvm/broker.sock"
  stateDir := "/var/lib/ahvm/broker"
  jailDir := "/var/lib/ahvm/jail"
  dataDir := "/var/lib/ahvm/data"
  cgroupRoot := "/sys/fs/cgroup/ahvm"
  daemonUid := 990
  daemonGid := 990
  uidBase := 100000
  gidBase := 100000
  identityCount := 1000
  vmmBin := "/usr/lib/ahvm/vmm"
  netdBin := none
  gpuBin := none
  libPath := "/usr/lib/ahvm"
  imageRoots := []
  devices := []
  reserved := by decide

/-- A host before the first start of the broker. -/
def sampleHost : World where
  registry := .fresh sampleConfig
  children := []
  running := false
  disk := none
  marker := false
  procs := []
  zombies := []
  born := 0
  spawned := []
  signals := []

/-- A host on which nothing has been launched. -/
theorem sampleHost_fresh : Fresh sampleHost where
  running := rfl
  children := rfl
  disk := rfl
  marker := rfl
  zombies := rfl
  spawned := rfl
  signals := rfl
  foreign _ hp := nomatch hp
  pids := ⟨List.nodup_nil, fun _ hp => nomatch hp⟩
  serials := ⟨List.nodup_nil, fun _ hp => nomatch hp⟩
  registry := ⟨rfl, rfl⟩

/-- A host on which the broker has been installed. -/
structure Installed (s : World) : Prop where
  running : s.running = true
  procs : s.procs = []
  zombies : s.zombies = []
  distinct : Distinct s
  registry : s.registry = (Registry.fresh sampleConfig).configured sampleConfig

/-- The broker opens on it. -/
theorem sampleHost_installs : (do openBroker sampleConfig; perform .ready : Op Act IoError Unit).May
    contract (fun _ s => Installed s) sampleHost :=
  May.mono (open_may sampleConfig sampleHost_fresh) fun _ _ h =>
    ⟨h.2.1, h.2.2.1, h.2.2.2.1, h.2.2.2.2.1, h.2.2.2.2.2⟩

/-- A launch of the first worker, up to its launcher. -/
theorem Installed.hires {Q : Except IoError Worker → World → Prop} (h : Installed s)
    (hspawn : ∀ s l, Distinct s → s.owners = [] → s.running = true → l.key = ("vm", .vmm) →
      l.uid = 100000 → s.registry.nextIdentity = 1 → s.registry.config = sampleConfig →
      (spawnWorker l none).May contract Q s) :
    (launch ("vm", .vmm)).May contract Q s := by
  have hclear : (clear ("vm", .vmm)).May calm (fun r s' => r = .ok () ∧ s'.registry = s.registry ∧
      s'.Unpopulated (group s'.registry.config ("vm", .vmm)) ∧ Distinct s' ∧
      s'.owners = [] ∧ s'.running = true) s := by
    refine May.mono (clear_new ?_ ?_) ?_
    · rw [h.registry]
      rfl
    · rw [h.registry]
      decide
    · rintro r s' ⟨rfl, rfl⟩
      refine ⟨rfl, rfl, fun p hp => ?_, h.distinct, ?_, h.running⟩
      · rw [h.procs] at hp
        cases hp
      · rw [World.owners, h.procs, h.zombies]
        rfl
  refine launch_may (P := fun s => s.owners = [] ∧ s.running = true) (by decide) hclear
    (fun _ _ _ h => h) ?_ fun s' hd hs' hregistry => ?_
  · rw [h.registry]
    decide
  · rw [h.registry] at hregistry ⊢
    exact hspawn s' _ hd hs'.1 hs'.2 rfl rfl (by rw [hregistry]; rfl) (by rw [hregistry]; rfl)

/-- A launch of the first worker. -/
theorem Installed.launches {Q : Except IoError BrokerReply → World → Prop} (h : Installed s)
    (hspawn : ∀ s l, Distinct s → s.owners = [] → s.running = true → l.key = ("vm", .vmm) →
      l.uid = 100000 → (spawnWorker l none).May contract (fun r s' => match r with
        | .ok w => ∀ reply, reply.worker = some w → Q (.ok reply) s'
        | .error err => Q (.error err) s') s) :
    (serve 990 ⟨.launch, "vm", .vmm, none⟩).May contract Q s := by
  refine serve_launch (k := ("vm", .vmm)) (by decide) (by decide) ?_
  refine h.hires fun s' l hd howners hrunning hkey huid _ _ => ?_
  refine May.mono (hspawn s' l hd howners hrunning hkey huid) ?_
  rintro (err | w) s'' hr
  · exact hr
  · exact hr _ rfl

/-- The installation comes about. -/
theorem sampleHost_rests : ∃ s, Installed s ∧ machine.Rests sampleHost s :=
  Machine.Rests.runs (M := machine) .refl (Begins.starts sampleConfig rfl)
    (Prog.may_bind.mpr (Prog.May.mono sampleHost_installs fun _ s h =>
      (show (Prog.done () : Prog Act Unit).May contract (fun _ s => Installed s) s from h)))

/-- A request that may be served is served in some run. -/
theorem serves_rests {uid : ℕ} {q : BrokerRequest} {Q : World → Prop}
    (h : machine.Rests start s) (hrunning : s.running = true)
    (hmay : (serve uid q).May contract (fun _ s' => Q s') s) :
    ∃ s', Q s' ∧ machine.Rests start s' :=
  h.runs (Begins.serves uid q hrunning) (Prog.may_bind.mpr (Prog.May.mono hmay fun _ s h =>
    (show (Prog.done () : Prog Act Unit).May contract (fun _ s => Q s) s from h)))

/-- A launcher of the first worker that is killed while it is still root. -/
theorem sampleHost_times_out : ∃ s, machine.Reaches sampleHost s ∧ ∃ p l, l.uid = 100000 ∧
    p.uids = List.replicate 4 0 ∧ Signal.cleanup p l ∈ s.signals := by
  obtain ⟨s, hinstalled, hrests⟩ := sampleHost_rests
  have hserve : (serve 990 ⟨.launch, "vm", .vmm, none⟩).May contract (fun _ s => ∃ p l,
      l.uid = 100000 ∧ p.uids = List.replicate 4 0 ∧ Signal.cleanup p l ∈ s.signals) s := by
    refine hinstalled.launches fun s l hd _ _ _ huid => May.mono (spawnWorker_times_out hd) ?_
    rintro (err | w) s' ⟨p, huids, hsignal⟩
    · exact ⟨p, l, huid, huids, hsignal⟩
    · exact fun _ _ => ⟨p, l, huid, huids, hsignal⟩
  obtain ⟨s', h, hrests'⟩ := serves_rests hrests hinstalled.running hserve
  exact ⟨s', hrests'.reaches, h⟩

/-- A stop leaves the identities that were given. -/
theorem Drainable.stops {e : Entry} (h : Drainable k e s) (hs : Sound s)
    (hvalid : validId k.1 = true) : (serve 990 ⟨.stop, k.1, k.2, some e.worker⟩).May contract
      (fun _ s' => s'.registry = s.registry ∧ Idle k e s' ∧ Wanes s s') s := by
  refine May.mono (May.keeps (may_calm (stop_may h hvalid (by decide)))
    (serve_asked hs (by exact nofun))) ?_
  rintro r s' ⟨⟨-, hregistry, hidle⟩, -, hwanes, -⟩
  exact ⟨hregistry, hidle, hwanes⟩

/-- The broker forgets no launch. -/
theorem does_grows (s₀ : World) {β : Type} {a : Act β} {b : β}
    (h : ∀ l ∈ s₀.spawned, l ∈ s.spawned) (hdoes : contract.does a s b s') :
    ∀ l ∈ s₀.spawned, l ∈ s'.spawned := by
  obtain ⟨t, hdrift, heff⟩ := hdoes
  have ht : t.spawned = s.spawned := hdrift.drifts.spawned
  suffices hgrows : ∀ l ∈ t.spawned, l ∈ s'.spawned from fun l hl => hgrows l (ht ▸ h l hl)
  intro l hl
  cases a with
  | registry | children => exact heff.2 ▸ hl
  | load | marked | alive | starttime | ids | members | empty | pidfdOpen => exact heff.1 ▸ hl
  | assign | ready | ask | keepChild => exact (show s' = _ from heff) ▸ hl
  | takeChild | wait => exact heff.2 ▸ hl
  | persist | mark =>
    cases b with
    | ok => exact (show s' = _ from heff) ▸ hl
    | error e =>
      obtain rfl | rfl := heff
      · exact hl
      · exact hl
  | pidfdSendSignal n record =>
    obtain ⟨rfl, -⟩ | ⟨p, -, -, -, rfl | rfl⟩ := heff
    · exact hl
    · exact hl
    · exact hl
  | kill c m =>
    obtain ⟨rfl, -⟩ | ⟨p, -, -, rfl | rfl⟩ := heff
    · exact hl
    · exact hl
    · exact hl
  | sendPlan c =>
    obtain ⟨rfl, -⟩ | ⟨p, -, -, rfl⟩ := heff
    · exact hl
    · exact hl
  | tryWait c =>
    obtain ⟨-, -, rfl⟩ | ⟨-, rfl⟩ := heff
    · exact hl
    · exact hl
  | spawn m =>
    cases b with
    | ok c =>
      obtain ⟨-, -, start, rfl⟩ := heff
      exact List.mem_append_left _ hl
    | error e => exact (show s' = t from heff) ▸ hl

/-- The first worker runs. -/
structure FirstRuns (l : Launch) (s : World) : Prop where
  spawned : l ∈ s.spawned
  key : l.key = ("vm", .vmm)
  uid : l.uid = 100000
  running : s.running = true
  next : s.registry.nextIdentity = 1
  config : s.registry.config = sampleConfig
  drainable : ∃ e, Drainable ("vm", .vmm) e s

/-- The first launch succeeds. -/
theorem Installed.employs (h : Installed s) (hs : Sound s) :
    (serve 990 ⟨.launch, "vm", .vmm, none⟩).May contract (fun _ s' => ∃ l, FirstRuns l s') s := by
  refine serve_launch (k := ("vm", .vmm)) (by decide) (by decide) ?_
  refine May.mono (May.keeps (Q := fun r s' => (∃ w, r = .ok w) ∧ ∃ p l, s'.IsWorker p l ∧
    p.Runs l ∧ p.pid = 1 ∧ (∀ q ∈ s'.procs, q = p) ∧ l.key = ("vm", .vmm) ∧ l.uid = 100000 ∧
    s'.running = true ∧ s'.registry.nextIdentity = 1 ∧ s'.registry.config = sampleConfig)
    (h.hires fun t l hd howners hrunning hkey huid hnext hconfig => ?_)
    (launch_ensures hs (.refl s))) ?_
  · have hfree : t.Free 1 := ⟨by decide, fun p hp => by rw [howners] at hp; cases hp⟩
    refine May.mono (spawnWorker_succeeds hd hfree) ?_
    rintro r s' ⟨hr, p, hp⟩
    refine ⟨hr, p, l, hp.worker, hp.runs, hp.pid, fun q hq => ?_, hkey, huid,
      hp.running.trans hrunning, hp.registry.1.trans hnext, hp.registry.2.trans hconfig⟩
    refine (hp.others q hq).resolve_right fun hmem => ?_
    have howner : q ∈ t.owners := List.mem_append_left _ hmem
    rw [howners] at howner
    cases howner
  · rintro r s' ⟨⟨⟨w, rfl⟩, p, l, hw, hruns, hpid, halone, hkey, huid, hrunning, hnext, hconfig⟩,
      hs', ⟨e, hfind, -, hintent⟩, -⟩
    have hhouse : s'.Housekept := by
      intro k e' hfind' q hq hgroup
      obtain rfl := halone q hq
      have hk : l.key = k := congrArg Prod.snd (Option.some.inj (hruns.1.symm.trans hgroup))
      obtain ⟨_, e'', hfind'', hdescribes, _⟩ := hs'.memory.workers q l hw
      rw [hk, hfind'] at hfind''
      obtain rfl := Option.some.inj hfind''
      refine ⟨by rw [hpid]; decide, ?_⟩
      rw [hdescribes.identity]
      exact hruns.2.1
    have hsettled : Settled l.key s' := fun e' he' => by
      rw [hkey, hfind] at he'
      exact Option.some.inj he' ▸ hintent
    obtain ⟨e', -, hdrainable⟩ := hs'.drainable hsettled hhouse hw
    exact ⟨l, (hs'.launched p hw.1 l hw.2.1).1, hkey, huid, hrunning, hnext, hconfig, e',
      hkey ▸ hdrainable⟩

/-- A worker is launched, stopped and launched again: it gets another identity. -/
theorem worker_identities_never_reused_sample : ∃ s l m q, machine.Reaches sampleHost s ∧
    l ∈ s.spawned ∧ s.IsWorker q m ∧ l.key = m.key ∧ l.uid = 100000 ∧ m.uid = 100001 ∧
    Identified s := by
  obtain ⟨s, hinstalled, hrests⟩ := sampleHost_rests
  obtain ⟨s₁, ⟨l, hfirst⟩, hrests₁⟩ := serves_rests hrests hinstalled.running
    (hinstalled.employs (reaches_sound sampleHost_fresh hrests.reaches))
  obtain ⟨e, hdrainable⟩ := hfirst.drainable
  obtain ⟨s₂, ⟨hregistry, hidle, hwanes⟩, hrests₂⟩ := serves_rests hrests₁ hfirst.running
    (hdrainable.stops (reaches_sound sampleHost_fresh hrests₁.reaches) (by decide))
  have hnext : s₂.registry.nextIdentity = 1 := by rw [hregistry, hfirst.next]
  have hconfig : s₂.registry.config = sampleConfig := by rw [hregistry, hfirst.config]
  have hcapacity : s₂.registry.nextIdentity < s₂.registry.config.identityCount := by
    rw [hnext, hconfig]
    decide
  have hlaunch : (serve 990 ⟨.launch, "vm", .vmm, none⟩).May contract (fun _ s' =>
      l ∈ s'.spawned ∧ ∃ q, s'.IsWorker q (nextLaunch s₂.registry ("vm", .vmm))) s₂ := by
    refine serve_launch (k := ("vm", .vmm)) (by decide) (by decide) ?_
    refine May.mono (Prog.May.preserves (does_grows s₂)
      (launch_succeeds hidle (by decide) hcapacity) fun _ hl => hl) ?_
    rintro r s' ⟨⟨⟨w, rfl⟩, hq⟩, hgrows⟩
    exact ⟨hgrows l (hwanes.spawned ▸ hfirst.spawned), hq⟩
  obtain ⟨s₃, ⟨hl, q, hq⟩, hrests₃⟩ :=
    serves_rests hrests₂ (hwanes.running.trans hfirst.running) hlaunch
  refine ⟨s₃, l, _, q, hrests₃.reaches, hl, hq, hfirst.key, hfirst.uid, ?_,
    worker_identities_never_reused sampleHost_fresh hrests₃.reaches⟩
  rw [(nextLaunch_assigned hcapacity).1, hnext, hconfig]
  rfl

/-- A launcher that does not answer is killed as root, not with its assigned uid. -/
theorem abandoned_launcher_killed_as_root : ∃ s, machine.Reaches sampleHost s ∧
    ∃ p l, Signal.cleanup p l ∈ s.signals ∧ p.launch = some l ∧ ¬ All p.uids l.uid := by
  obtain ⟨s, hreaches, p, l, huid, huids, hsignal⟩ := sampleHost_times_out
  have hs := reaches_sound sampleHost_fresh hreaches
  refine ⟨s, hreaches, p, l, hsignal, hs.signals _ hsignal, ?_⟩
  rw [huids, huid]
  decide

end AgentHouse.Broker
