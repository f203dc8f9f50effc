import AgentHouse.Broker.Workers
import AgentHouse.Lib.Outcomes

/-!
# Worker broker: what its requests may achieve

On a host where nothing else happens, every call of the broker may succeed. Then a stop kills
every process in the role group, and a launch starts a worker if the group is empty. A
launcher joins its group and drops its credentials while the broker waits for it.
-/

namespace AgentHouse.Broker

open Op

variable {s s' t : World} {p p' q : Process} {l : Launch} {k : Key} {e : Entry} {w : Worker}

/-- The host does nothing by itself. -/
def calm : Contract Act World where
  does a s b s' := eff a s b s'
  allowed _ _ := True

theorem may_calm {α : Type} {Q : Except IoError α → World → Prop} {p : Op Act IoError α}
    (h : p.May calm Q s) : p.May contract Q s := by
  induction p generalizing s with
  | done a => exact h
  | act a next ih =>
    obtain ⟨b, s', heff, h⟩ := h
    exact ⟨b, s', ⟨s, .refl, heff⟩, ih b h⟩

/-- The program may answer `a` and leave everything as it is. -/
def Yields {α : Type} (p : Op Act IoError α) (s : World) (a : α) : Prop :=
  p.May calm (fun r s' => r = .ok a ∧ s' = s) s

/-- A program may go on with what its first part yields. -/
theorem Yields.bind {α β : Type} {p : Op Act IoError α} {f : α → Op Act IoError β} {a : α}
    {Q : Except IoError β → World → Prop} (h : Yields p s a) (hf : (f a).May calm Q s) :
    (p >>= f).May calm Q s := by
  refine may_bind (May.mono h ?_)
  rintro r s' ⟨rfl, rfl⟩
  exact ⟨a, rfl, hf⟩

theorem yields_pure {α : Type} {a : α} : Yields (pure a : Op Act IoError α) s a := ⟨rfl, rfl⟩

theorem yields_ite {α : Type} {c : Prop} [Decidable c] {p q : Op Act IoError α} {a : α}
    (hp : c → Yields p s a) (hq : ¬ c → Yields q s a) : Yields (if c then p else q) s a := by
  by_cases hc : c
  · rw [if_pos hc]
    exact hp hc
  · rw [if_neg hc]
    exact hq hc

theorem other_yields : Yields other s () := may_attempt (r := .ok ()) rfl ⟨rfl, rfl⟩

theorem registry_yields : Yields (perform .registry) s s.registry :=
  may_perform ⟨rfl, rfl⟩ ⟨rfl, rfl⟩

section Observing

/-- The start time of a process can be read. -/
theorem eff_starttime (hd : Distinct s) (hp : p ∈ s.owners) :
    eff (.starttime p.pid) s (some p.start) s := by
  refine ⟨rfl, fun t => ⟨fun h => ⟨p, hp, rfl, Option.some.inj h⟩, ?_⟩⟩
  rintro ⟨q, hq, hpid, rfl⟩
  rw [hd.pids q hq p hp hpid]

/-- The start time at a pid can be read, whether a process owns it or not. -/
theorem starttime_yields (hd : Distinct s) (pid : ℕ) :
    ∃ b, Yields (perform (.starttime pid)) s b ∧ ∀ p ∈ s.owners, p.pid = pid →
      b = some p.start := by
  by_cases h : ∃ p ∈ s.owners, p.pid = pid
  · obtain ⟨p, hp, rfl⟩ := h
    refine ⟨some p.start, may_perform (eff_starttime hd hp) ⟨rfl, rfl⟩, fun q hq hpid => ?_⟩
    rw [hd.pids q hq p hp hpid]
  · refine ⟨none, may_perform (b := none) ⟨rfl, fun t => ⟨(fun h => nomatch h), ?_⟩⟩ ⟨rfl, rfl⟩, ?_⟩
    · rintro ⟨p, hp, hpid, _⟩
      exact absurd ⟨p, hp, hpid⟩ h
    · exact fun p hp hpid => absurd ⟨p, hp, hpid⟩ h

/-- A worker whose number nobody has is found dead. -/
theorem leaderAlive_dead (h : ∀ p ∈ s.procs, p.pid ≠ w.pid) : Yields (leaderAlive w) s false := by
  have halive : Yields (perform (.alive w.pid)) s false := by
    refine may_perform (b := false) ⟨rfl, ⟨(fun h => nomatch h), ?_⟩⟩ ⟨rfl, rfl⟩
    rintro ⟨p, hp, hpid⟩
    exact absurd hpid (h p hp)
  exact halive.bind yields_pure

/-- A worker with its start time is found alive. -/
theorem leaderAlive_live (hd : Distinct s) (hp : p ∈ s.procs) (hpid : p.pid = w.pid)
    (hstart : w.starttime = some p.start) : Yields (leaderAlive w) s true := by
  have halive : Yields (perform (.alive w.pid)) s true :=
    may_perform ⟨rfl, ⟨fun _ => ⟨p, hp, hpid⟩, fun _ => rfl⟩⟩ ⟨rfl, rfl⟩
  have htime : Yields (perform (.starttime w.pid)) s (some p.start) :=
    may_perform (hpid ▸ eff_starttime hd (List.mem_append_left _ hp)) ⟨rfl, rfl⟩
  refine halive.bind (htime.bind ⟨?_, rfl⟩)
  rw [hstart, decide_eq_true rfl]

/-- Nobody matches a worker whose number nobody has. -/
theorem matchesWorker_dead (hw : w.isolation.isSome = true) (h : ∀ p ∈ s.procs, p.pid ≠ w.pid) :
    Yields (matchesWorker w) s false := by
  obtain ⟨i, hi⟩ := Option.isSome_iff_exists.mp hw
  unfold matchesWorker
  rw [hi]
  exact (leaderAlive_dead h).bind yields_pure

/-- A worker with its credentials matches. -/
theorem matchesWorker_live {i : WorkerIdentity} (hd : Distinct s) (hw : w.isolation = some i)
    (hp : p ∈ s.procs) (hpid : p.pid = w.pid) (hstart : w.starttime = some p.start)
    (huids : All p.uids i.uid) (hgids : All p.gids i.gid) : Yields (matchesWorker w) s true := by
  unfold matchesWorker
  rw [hw]
  refine (leaderAlive_live hd hp hpid hstart).bind ?_
  have hids : Yields (attempt (.ids w.pid)) s (p.uids, p.gids) :=
    may_attempt (r := .ok (p.uids, p.gids)) ⟨rfl, p, List.mem_append_left _ hp, hpid, rfl, rfl⟩
      ⟨rfl, rfl⟩
  refine hids.bind ⟨?_, rfl⟩
  rw [decide_eq_true ⟨huids, hgids⟩]

theorem members_yields (path : String × Key) : Yields (attempt (.members path)) s
    ((s.procs.filter (fun p => p.group = some path)).map Process.pid) :=
  may_attempt (r := .ok _) ⟨rfl, rfl⟩ ⟨rfl, rfl⟩

theorem members_empty {path : String × Key} (h : s.Unpopulated path) :
    Yields (attempt (.members path)) s [] := by
  have hnil : s.procs.filter (fun p => p.group = some path) = [] := by
    refine List.filter_eq_nil_iff.mpr fun p hp => ?_
    simpa using h p hp
  have hmembers := members_yields (s := s) path
  rwa [hnil] at hmembers

theorem vacant_yields {path : String × Key} (h : s.Unpopulated path) :
    Yields (vacant path []) s true :=
  may_attempt (r := .ok true) ⟨rfl, fun _ => h⟩ ⟨rfl, rfl⟩

/-- An empty group is found empty. -/
theorem requireEmpty_yields {path : String × Key} (h : s.Unpopulated path) :
    Yields (requireEmpty path) s () :=
  (members_empty h).bind ((vacant_yields h).bind yields_pure)

end Observing

section Stopping

/-- The process dies of a signal for `record`. -/
def World.slain (s : World) (q : Process) (record : Worker) : World :=
  { s.exited q with signals := s.signals ++ [.drain q record s.registry] }

/-- A process of the role group, with the assigned uid, is killed. -/
theorem drainOne_kills (hd : Distinct s) (hq : q ∈ s.procs) (hpid : q.pid < 2 ^ 31) {uid : ℕ}
    (huids : All q.uids uid) (hleader : q.pid = w.pid → w.starttime = some q.start) :
    (drainOne w uid q.pid).May calm (fun r s' => r = .ok () ∧ s' = s.slain q w) s := by
  have howner := List.mem_append_left s.zombies hq
  have hexpected : Yields (expectedStart w q.pid) s (some q.start) := by
    refine yields_ite (fun heq => ?_) fun _ => may_perform (eff_starttime hd howner) ⟨rfl, rfl⟩
    rw [hleader heq]
    exact yields_pure
  refine hexpected.bind (may_refuse ?_ ?_)
  · have hne := hd.nonzero q howner
    omega
  have hopen : Yields (attempt (.pidfdOpen q.pid)) s (some q.serial) := by
    refine may_attempt (r := .ok (some q.serial)) ⟨rfl, fun n hn => ⟨q, howner, rfl, ?_⟩⟩ ⟨rfl, rfl⟩
    exact Option.some.inj (Except.ok.inj hn)
  have hsame : Yields (replaced q.pid (some q.start)) s false := by
    have htime : Yields (perform (.starttime q.pid)) s (some q.start) :=
      may_perform (eff_starttime hd howner) ⟨rfl, rfl⟩
    refine htime.bind ⟨?_, rfl⟩
    rw [decide_eq_false (not_not.mpr rfl)]
  have hids : Yields (outcome (attempt (.ids q.pid))) s (.ok (q.uids, q.gids)) :=
    may_outcome (may_attempt (r := .ok (q.uids, q.gids)) ⟨rfl, q, howner, rfl, rfl, rfl⟩ ⟨rfl, rfl⟩)
  refine hopen.bind (hsame.bind (hids.bind (may_refuse (not_not.mpr huids) ?_)))
  exact may_attempt (r := .ok ()) (.inr ⟨q, hq, rfl, rfl, .inr rfl⟩) ⟨rfl, rfl⟩

/-- A pid without a process is passed over. -/
theorem drainOne_passes (hd : Distinct s) {uid pid : ℕ} (hpid : pid ≠ 0 ∧ pid < 2 ^ 31) :
    Yields (drainOne w uid pid) s () := by
  have hexpected : ∃ b, Yields (expectedStart w pid) s b := by
    by_cases heq : pid = w.pid
    · exact ⟨w.starttime, yields_ite (fun _ => yields_pure) fun hne => absurd heq hne⟩
    · obtain ⟨b, hb, _⟩ := starttime_yields hd pid
      exact ⟨b, yields_ite (fun h => absurd h heq) fun _ => hb⟩
  obtain ⟨b, hb⟩ := hexpected
  refine hb.bind (may_refuse (by omega) ?_)
  have hopen : Yields (attempt (.pidfdOpen pid)) s none :=
    may_attempt (r := .ok none) ⟨rfl, fun n hn => nomatch hn⟩ ⟨rfl, rfl⟩
  exact hopen.bind yields_pure

/-- The processes of a role group are the worker and what it has started. -/
def Tidy (w : Worker) (uid : ℕ) (path : String × Key) (s : World) : Prop :=
  ∀ q ∈ s.procs, q.group = some path → q.pid < 2 ^ 31 ∧ All q.uids uid ∧
    (q.pid = w.pid → w.starttime = some q.start)

/-- Only processes have gone. -/
structure Thins (s s' : World) : Prop where
  registry : s'.registry = s.registry
  children : s'.children = s.children
  procs : ∀ q ∈ s'.procs, q ∈ s.procs
  distinct : Distinct s'

theorem Thins.trans (h : Thins s s') (h' : Thins s' t) : Thins s t :=
  ⟨h'.registry.trans h.registry, h'.children.trans h.children,
    fun q hq => h.procs q (h'.procs q hq), h'.distinct⟩

/-- A kill removes one process. -/
theorem thins_slain (hd : Distinct s) (hq : q ∈ s.procs) : Thins s (s.slain q w) :=
  ⟨rfl, rfl, fun _ hq' => List.mem_of_mem_filter hq', (hd.exited hq).congr rfl rfl rfl⟩

/-- All processes of a tidy group may be killed. -/
theorem drainAll_may {uid : ℕ} {path : String × Key} {pids : List ℕ} (hd : Distinct s)
    (htidy : Tidy w uid path s) (hall : ∀ q ∈ s.procs, q.group = some path → q.pid ∈ pids)
    (hpids : ∀ pid ∈ pids, pid ≠ 0 ∧ pid < 2 ^ 31) :
    (each (drainOne w uid) pids).May calm
      (fun r s' => r = .ok () ∧ Thins s s' ∧ s'.Unpopulated path) s := by
  induction pids generalizing s with
  | nil =>
    refine ⟨rfl, ⟨rfl, rfl, fun _ hq => hq, hd⟩, fun q hq hgroup => ?_⟩
    cases hall q hq hgroup
  | cons pid pids ih =>
    by_cases hlive : ∃ q ∈ s.procs, q.group = some path ∧ q.pid = pid
    · obtain ⟨q, hq, hgroup, rfl⟩ := hlive
      obtain ⟨hpid, huids, hleader⟩ := htidy q hq hgroup
      refine may_bind (May.mono (drainOne_kills hd hq hpid huids hleader) ?_)
      rintro r s' ⟨rfl, rfl⟩
      have hthins := thins_slain (w := w) hd hq
      refine ⟨(), rfl, May.mono (ih hthins.distinct (fun q' hq' => htidy q' (hthins.procs q' hq'))
        (fun q' hq' hgroup' => ?_) fun pid hpid => hpids pid (List.mem_cons_of_mem _ hpid)) ?_⟩
      · obtain ⟨hmem, hne⟩ := List.mem_filter.mp hq'
        refine (List.mem_cons.mp (hall q' hmem hgroup')).resolve_left fun heq => ?_
        have := hd.pids q' (List.mem_append_left _ hmem) q (List.mem_append_left _ hq) heq
        exact of_decide_eq_true hne this
      · rintro r s'' ⟨rfl, hthins', hempty⟩
        exact ⟨rfl, hthins.trans hthins', hempty⟩
    · refine (drainOne_passes hd (hpids pid List.mem_cons_self)).bind (ih hd htidy ?_ ?_)
      · intro q hq hgroup
        refine (List.mem_cons.mp (hall q hq hgroup)).resolve_left fun heq => ?_
        exact hlive ⟨q, hq, hgroup, heq⟩
      · exact fun pid hpid => hpids pid (List.mem_cons_of_mem _ hpid)

/-- A round on an empty group is the last one. -/
theorem drainRound_empty {uid : ℕ} {path : String × Key} {again : Op Act IoError Unit}
    (hw : w.isolation.isSome = true) (hempty : s.Unpopulated path)
    (hdead : ∀ p ∈ s.procs, p.pid ≠ w.pid) : Yields (drainRound w uid path again) s () :=
  (members_empty hempty).bind ((vacant_yields hempty).bind
    ((matchesWorker_dead hw hdead).bind yields_pure))

/-- An empty group needs no round. -/
theorem drainRounds_empty {uid rounds : ℕ} {path : String × Key} (hw : w.isolation.isSome = true)
    (hempty : s.Unpopulated path) (hdead : ∀ p ∈ s.procs, p.pid ≠ w.pid) :
    Yields (drainRounds w uid path rounds) s () := by
  cases rounds with
  | zero => exact drainRound_empty hw hempty hdead
  | succ rounds => exact drainRound_empty hw hempty hdead

/-- The recorded worker can only be alive in its role group. -/
def Housed (w : Worker) (path : String × Key) (s : World) : Prop :=
  ∀ q ∈ s.procs, q.pid = w.pid → q.group = some path

/-- Two rounds empty a tidy group. -/
theorem drainRounds_may {uid : ℕ} {path : String × Key} (hd : Distinct s)
    (hw : w.isolation.isSome = true) (htidy : Tidy w uid path s) (hhoused : Housed w path s) :
    (drainRounds w uid path 1).May calm (fun r s' => r = .ok () ∧ Thins s s' ∧
      s'.Unpopulated path ∧ ∀ p ∈ s'.procs, p.pid ≠ w.pid) s := by
  have hdead : ∀ s', Thins s s' → s'.Unpopulated path → ∀ p ∈ s'.procs, p.pid ≠ w.pid :=
    fun s' hthins hempty p hp hpid => hempty p hp (hhoused p (hthins.procs p hp) hpid)
  by_cases hempty : s.Unpopulated path
  · have hthins : Thins s s := ⟨rfl, rfl, fun _ hq => hq, hd⟩
    refine May.mono (drainRounds_empty hw hempty (hdead s hthins hempty)) ?_
    rintro r s' ⟨rfl, rfl⟩
    exact ⟨rfl, hthins, hempty, hdead s' hthins hempty⟩
  · have hmembers : ∀ pid, pid ∈ (s.procs.filter (fun p => p.group = some path)).map Process.pid ↔
        ∃ q ∈ s.procs, q.group = some path ∧ q.pid = pid := by
      intro pid
      simp only [List.mem_map, List.mem_filter, decide_eq_true_eq, and_assoc]
    refine (members_yields path).bind ?_
    have hsome : (s.procs.filter (fun p => p.group = some path)).map Process.pid ≠ [] := by
      intro hnil
      refine hempty fun q hq hgroup => ?_
      have := (hmembers q.pid).mpr ⟨q, hq, hgroup, rfl⟩
      rw [hnil] at this
      cases this
    have hvacant : Yields (vacant path ((s.procs.filter
        (fun p => p.group = some path)).map Process.pid)) s false :=
      yields_ite (fun h => absurd (List.isEmpty_iff.mp h) hsome) fun _ => yields_pure
    refine hvacant.bind (may_bind (May.mono (drainAll_may hd htidy ?_ ?_) ?_))
    · exact fun q hq hgroup => (hmembers q.pid).mpr ⟨q, hq, hgroup, rfl⟩
    · intro pid hpid
      obtain ⟨q, hq, hgroup, rfl⟩ := (hmembers pid).mp hpid
      exact ⟨hd.nonzero q (List.mem_append_left _ hq), (htidy q hq hgroup).1⟩
    · rintro r s' ⟨rfl, hthins, hempty'⟩
      have hdead' := hdead s' hthins hempty'
      refine ⟨(), rfl, May.mono (drainRounds_empty hw hempty' hdead') ?_⟩
      rintro r s'' ⟨rfl, rfl⟩
      exact ⟨rfl, hthins, hempty', hdead'⟩

/-- Nothing of a worker is left, so it may be launched again. -/
structure Idle (k : Key) (e : Entry) (s : World) : Prop where
  find : s.registry.find k = some e
  intent : e.intent = false
  unpopulated : s.Unpopulated (group s.registry.config k)
  dead : ∀ p ∈ s.procs, p.pid ≠ e.worker.pid
  distinct : Distinct s
  /-- A child of the key that the broker still has is dead. -/
  children : ∀ x ∈ s.children, x.1 = k → ∀ p ∈ s.procs, p.serial ≠ x.2.serial

/-- A child that is left over may be reaped. -/
theorem reap_may {Q : Except IoError Unit → World → Prop} {f : Unit → Op Act IoError Unit}
    (h : Idle k e s)
    (hf : ∀ s', s'.registry = s.registry → Idle k e s' → (f ()).May calm Q s') :
    (perform (.takeChild k) >>= fun c => reap c >>= f).May calm Q s := by
  have htaken : ∀ x ∈ s.children.filter (fun x => x.1 ≠ k), x.1 = k → ∀ p ∈ s.procs,
      p.serial ≠ x.2.serial :=
    fun x hx hk => absurd hk (of_decide_eq_true (List.mem_filter.mp hx).2)
  refine may_bind (may_perform ⟨rfl, rfl⟩ ⟨_, rfl, ?_⟩)
  cases hrow : Table.row Prod.fst k s.children with
  | none =>
    exact may_bind ⟨(), rfl, hf _ rfl ⟨h.find, h.intent, h.unpopulated, h.dead,
      h.distinct.congr rfl rfl rfl, htaken⟩⟩
  | some x =>
    obtain ⟨hx, hk⟩ := Table.row_mem hrow
    refine may_bind (may_perform ⟨h.children x hx hk, rfl⟩ ⟨(), rfl, hf _ rfl ⟨h.find, h.intent,
      h.unpopulated, h.dead, h.distinct.subset (fun p hp => ?_) rfl fun p hp hz => ?_, htaken⟩⟩)
    · obtain hp | hp := List.mem_append.mp hp
      · exact List.mem_append_left _ hp
      · exact List.mem_append_right _ (List.mem_of_mem_filter hp)
    · exact h.distinct.apart p hp (List.mem_of_mem_filter hz)

/-- A key has one worker at most. -/
theorem Sound.one_worker (h : Sound s) (hp : s.IsWorker p l) (hq : s.IsWorker q m)
    (hkey : l.key = m.key) : p = q := by
  obtain ⟨_, e, he, hdescribes, _⟩ := h.memory.workers p l hp
  obtain ⟨_, e', he', hdescribes', _⟩ := h.memory.workers q m hq
  obtain rfl := Option.some.inj (he.symm.trans (hkey ▸ he'))
  have hpid := congrArg Worker.pid (hdescribes.symm.trans hdescribes')
  exact h.distinct.pids p (List.mem_append_left _ hp.1) q (List.mem_append_left _ hq.1) hpid

/-- What a drain of the key needs to succeed. -/
structure Drainable (k : Key) (e : Entry) (s : World) : Prop where
  find : s.registry.find k = some e
  intent : e.intent = false
  tidy : Tidy e.worker e.identity.uid (group s.registry.config k) s
  housed : Housed e.worker (group s.registry.config k) s
  distinct : Distinct s
  /-- A child of the key that the broker still has is the worker, as long as it lives. -/
  children : ∀ x ∈ s.children, x.1 = k → ∀ p ∈ s.procs, p.serial = x.2.serial →
    p.pid = e.worker.pid

theorem Entry.Describes.identity (h : e.Describes p l) :
    e.identity = ⟨l.config.socket, l.key.2, l.uid, l.gid, l.generation⟩ :=
  Option.get_of_eq_some _ (by rw [h]; rfl)

/-- The processes in a role group are the worker and its descendants, which run as the worker. -/
def World.Housekept (s : World) : Prop :=
  ∀ k e, s.registry.find k = some e → ∀ q ∈ s.procs, q.group = some (group s.registry.config k) →
    q.pid < 2 ^ 31 ∧ All q.uids e.identity.uid

/-- Everything in the role group of a settled worker may be killed. -/
theorem Sound.drainable (hs : Sound s) (hsettled : Settled l.key s) (hhouse : s.Housekept)
    (hw : s.IsWorker p l) :
    ∃ e, e.worker = startedWorker l p.pid (some p.start) ∧ Drainable l.key e s := by
  obtain ⟨hgroup, e, hfind, hdescribes, hruns⟩ := hs.memory.workers p l hw
  have hintent := hsettled e hfind
  have hpid : e.worker.pid = p.pid := by rw [hdescribes]; rfl
  -- the leader is the worker
  have hleader : ∀ q ∈ s.procs, q.pid = e.worker.pid → q = p := fun q hq heq =>
    hs.distinct.pids q (List.mem_append_left _ hq) p (List.mem_append_left _ hw.1)
      (heq.trans hpid)
  refine ⟨e, hdescribes, hfind, hintent, fun q hq hqgroup => ?_, fun q hq hqpid => ?_,
    hs.distinct, fun x hx hkey q hq hserial => ?_⟩
  · obtain ⟨hlt, huids⟩ := hhouse l.key e hfind q hq hqgroup
    refine ⟨hlt, huids, fun hqpid => ?_⟩
    rw [hleader q hq hqpid, hdescribes]
    rfl
  · rw [hleader q hq hqpid, ← hgroup]
    exact (hruns hintent).1
  · obtain ⟨m, hm, hmkey⟩ := (hs.children x hx).2 q hq hserial
    rw [hs.one_worker hm hw (hmkey.trans hkey), hpid]

/-- There is nothing to drain for a worker that has exited. -/
theorem Idle.drainable (h : Idle k e s) : Drainable k e s :=
  ⟨h.find, h.intent, fun q hq hgroup => absurd hgroup (h.unpopulated q hq),
    fun q hq hpid => absurd hpid (h.dead q hq), h.distinct,
    fun x hx hk p hp hserial => absurd hserial (h.children x hx hk p hp)⟩

/-- A drain may succeed. -/
theorem drain_may (h : Drainable k e s) : (drain k).May calm
    (fun r s' => r = .ok () ∧ s'.registry = s.registry ∧ Idle k e s') s := by
  refine registry_yields.bind ?_
  rw [h.find]
  refine may_bind (may_perform (b := 1) rfl ⟨1, rfl, ?_⟩)
  refine may_bind (May.mono (drainRounds_may h.distinct e.isolated h.tidy h.housed) ?_)
  rintro r s₁ ⟨rfl, hthins, hempty, hdead⟩
  refine ⟨(), rfl, reap_may (e := e) ⟨?_, h.intent, ?_, hdead, hthins.distinct, ?_⟩
    fun s₂ hr hidle => ?_⟩
  · rw [hthins.registry, h.find]
  · rw [hthins.registry]
    exact hempty
  · intro x hx hk p hp hserial
    rw [hthins.children] at hx
    exact hdead p hp (h.children x hx hk p (hthins.procs p hp) hserial)
  · refine May.mono other_yields ?_
    rintro r s₃ ⟨rfl, rfl⟩
    exact ⟨rfl, hr.trans hthins.registry, hidle⟩

/-- A stop with the record of the registry may succeed, and then nothing of the worker is left. -/
theorem stop_may {uid : ℕ} (h : Drainable k e s) (hvalid : validId k.1 = true) (huid : uid ≠ 0) :
    (serve uid ⟨.stop, k.1, k.2, some e.worker⟩).May calm
      (fun r s' => (∃ reply, r = .ok reply) ∧ s'.registry = s.registry ∧ Idle k e s') s := by
  refine may_refuse ?_ (registry_yields.bind ?_)
  · rintro (⟨h0, _⟩ | ⟨_, hinspect⟩)
    · exact huid h0
    · cases hinspect
  rw [if_neg (by exact nofun)]
  refine may_refuse ?_ ?_
  · rw [hvalid]
    exact nofun
  rw [if_neg (by exact nofun)]
  have hfind : s.registry.find (k.1, k.2) = some e := h.find
  rw [hfind]
  refine may_refuse ?_ ?_
  · rintro (hi | hne)
    · rw [h.intent] at hi
      cases hi
    · exact hne rfl
  refine may_bind (Yields.bind (a := false) yields_pure (may_bind (May.mono (drain_may h) ?_)))
  rintro r s' ⟨rfl, hr, hidle⟩
  exact ⟨(), rfl, false, rfl, ⟨_, rfl⟩, hr, hidle⟩

end Stopping

section Starting

/-- A key whose worker has exited may be cleared. -/
theorem clear_idle (h : Idle k e s) : (clear k).May calm
    (fun r s' => r = .ok () ∧ s'.registry = s.registry ∧ Idle k e s') s := by
  refine registry_yields.bind (may_refuse ?_ ?_)
  · rintro ⟨hnone, _⟩
    rw [h.find] at hnone
    cases hnone
  rw [h.find]
  have hrecover : Yields (recoverIntent k e (group s.registry.config k)) s () :=
    yields_ite (fun hi => by rw [h.intent] at hi; cases hi) fun _ => yields_pure
  exact hrecover.bind ((matchesWorker_dead e.isolated h.dead).bind (drain_may h.drainable))

/-- A key without an entry is clear. -/
theorem clear_new (hfind : s.registry.find k = none) (hroom : s.registry.entries.length < 16384) :
    Yields (clear k) s () := by
  refine registry_yields.bind (may_refuse (fun h => absurd h.2 (not_le.mpr hroom)) ?_)
  rw [hfind]
  exact yields_pure

/-- There is a number that no process has. -/
theorem exists_free (s : World) : ∃ pid, s.Free pid := by
  have hbound : ∃ n, ∀ p ∈ s.owners, p.pid < n := by
    induction s.owners with
    | nil => exact ⟨0, fun _ hp => nomatch hp⟩
    | cons p ps ih =>
      obtain ⟨n, hn⟩ := ih
      refine ⟨max n (p.pid + 1), fun q hq => ?_⟩
      obtain rfl | hq := List.mem_cons.mp hq
      · omega
      · have := hn q hq
        omega
  obtain ⟨n, hn⟩ := hbound
  refine ⟨n + 1, Nat.succ_ne_zero n, fun p hp => ?_⟩
  have := hn p hp
  omega

/-- The rest of a launch, after its role group was found empty. -/
theorem launch_may {Q : Except IoError Worker → World → Prop} {P : World → Prop}
    (hvalid : validId k.1 = true)
    (hclear : (clear k).May calm (fun r s' => r = .ok () ∧ s'.registry = s.registry ∧
      s'.Unpopulated (group s'.registry.config k) ∧ Distinct s' ∧ P s') s)
    (hP : ∀ s r d, P s → P { s with registry := r, disk := d })
    (hcapacity : s.registry.nextIdentity < s.registry.config.identityCount)
    (hspawn : ∀ s', Distinct s' → P s' →
      s'.registry = s.registry.allocated.insert (intended (nextLaunch s.registry k) 0 none none) →
      (spawnWorker (nextLaunch s.registry k) none).May contract Q s') :
    (launch k).May contract Q s := by
  refine may_refuse (by rw [hvalid]; exact nofun) (may_bind (May.mono (may_calm hclear) ?_))
  rintro r s₁ ⟨rfl, hregistry, hempty, hd, hinit⟩
  rw [← hregistry] at hcapacity hspawn
  refine ⟨(), rfl, may_bind (May.mono (may_calm registry_yields) ?_)⟩
  rintro r s₂ ⟨rfl, rfl⟩
  refine ⟨_, rfl, may_bind (May.mono (may_calm (requireEmpty_yields hempty)) ?_)⟩
  rintro r s₃ ⟨rfl, rfl⟩
  refine ⟨(), rfl, may_refuse (not_le.mpr hcapacity) ?_⟩
  refine may_bind (may_attempt (r := .ok none) ⟨_, .refl, rfl⟩ ⟨none, rfl, ?_⟩)
  refine may_bind (May.mono (may_calm other_yields) ?_)
  rintro r s₄ ⟨rfl, rfl⟩
  refine ⟨(), rfl, may_bind (may_perform ⟨_, .refl, rfl⟩ ⟨(), rfl, ?_⟩)⟩
  refine may_bind (may_attempt (r := .ok ()) ⟨_, .refl, rfl⟩ ⟨(), rfl, ?_⟩)
  exact hspawn _ (hd.congr rfl rfl rfl) (hP s₄ _ _ hinit) rfl

/-- A launcher with its plan, started in `s₀`. -/
structure Launched (s₀ : World) (c : Child) (l : Launch) (p : Process) (s : World) : Prop where
  distinct : Distinct s
  live : p ∈ s.procs
  serial : p.serial = c.serial
  pid : p.pid = c.pid
  launch : p.launch = some l
  planned : p.planned = true
  uids : p.uids = List.replicate 4 0
  record : ∃ e, s.registry.find l.key = some e
  running : s.running = s₀.running
  registry : s.registry.nextIdentity = s₀.registry.nextIdentity ∧
    s.registry.config = s₀.registry.config
  others : ∀ q ∈ s.procs, q = p ∨ q ∈ s₀.procs

/-- A launcher may be spawned and wait for its plan. -/
theorem spawnWorker_may {Q : Except IoError Worker → World → Prop} {disk : Option String} {pid : ℕ}
    (hd : Distinct s) (hpid : s.Free pid)
    (hconfirm : ∀ c p s', Launched s c l p s' → c.pid = pid →
      (confirm l.key (startedWorker l c.pid (some p.start))).May contract
        (fun r s'' => (finish l c (startedWorker l c.pid (some p.start))
          r).May contract Q s'') s') :
    (spawnWorker l disk).May contract Q s := by
  refine may_bind (May.mono (may_calm other_yields) ?_)
  rintro r s₁ ⟨rfl, rfl⟩
  have hadded : Distinct { s₁ with
      procs := s₁.procs ++ [s₁.launcher pid 0 l]
      born := s₁.born + 1
      spawned := s₁.spawned ++ [l] } :=
    hd.added (p := s₁.launcher pid 0 l) hpid rfl rfl rfl rfl
  have hlive : s₁.launcher pid 0 l ∈ s₁.procs ++ [s₁.launcher pid 0 l] :=
    List.mem_append_right _ List.mem_cons_self
  refine ⟨(), rfl, may_bind (may_attempt (r := .ok ⟨s₁.born, pid⟩)
    ⟨_, .refl, rfl, hpid, 0, rfl⟩ ⟨_, rfl, ?_⟩)⟩
  refine may_bind (may_perform ⟨_, .refl, eff_starttime (p := s₁.launcher pid 0 l) hadded
    (List.mem_append_left _ hlive)⟩ ⟨_, rfl, ?_⟩)
  refine may_bind (may_perform ⟨_, .refl, rfl⟩ ⟨(), rfl, ?_⟩)
  refine may_bind (may_outcome (may_bind (may_attempt (r := .ok ()) ⟨_, .refl, rfl⟩ ⟨(), rfl, ?_⟩)))
  refine may_bind (may_attempt (r := .ok ())
    ⟨_, .refl, .inr ⟨s₁.launcher pid 0 l, hlive, rfl, rfl⟩⟩ ⟨(), rfl, ?_⟩)
  refine May.mono (hconfirm ⟨s₁.born, pid⟩ { s₁.launcher pid 0 l with planned := true } _
    ⟨?_, ?_, rfl, rfl, rfl, rfl, rfl, ?_, rfl, ⟨rfl, rfl⟩, fun q hq => ?_⟩ rfl) fun r s' h =>
      ⟨r, rfl, h⟩
  · refine Distinct.changed ?_ hlive rfl rfl
    exact hadded.congr rfl rfl rfl
  · refine List.mem_map.mpr ⟨s₁.launcher pid 0 l, hlive, ?_⟩
    rw [if_pos rfl]
  · refine ⟨intended l pid (some 0) disk, ?_⟩
    exact Registry.find_insert.trans (if_pos rfl)
  · obtain ⟨q, hmem, rfl⟩ := List.mem_map.mp hq
    obtain hq | rfl := Table.mem_snoc.mp hmem
    · by_cases heq : q = s₁.launcher pid 0 l
      · exact .inl (if_pos heq)
      · rw [if_neg heq]
        exact .inr hq
    · exact .inl (if_pos rfl)

theorem changed_mem (hp : p ∈ s.procs) : q ∈ (s.changed p q).procs :=
  List.mem_map.mpr ⟨p, hp, if_pos rfl⟩

/-- A worker has been launched in `s₀`. -/
structure Hired (s₀ : World) (l : Launch) (pid : ℕ) (p : Process) (s : World) : Prop where
  worker : s.IsWorker p l
  runs : p.Runs l
  pid : p.pid = pid
  running : s.running = s₀.running
  registry : s.registry.nextIdentity = s₀.registry.nextIdentity ∧
    s.registry.config = s₀.registry.config
  others : ∀ q ∈ s.procs, q = p ∨ q ∈ s₀.procs

theorem changed_others {P : Process → Prop} (hq : q ∈ (s.changed p p').procs)
    (h : ∀ q ∈ s.procs, q = p ∨ P q) : q = p' ∨ P q := by
  obtain ⟨q, hmem, rfl⟩ := List.mem_map.mp hq
  by_cases heq : q = p
  · exact .inl (if_pos heq)
  · rw [if_neg heq]
    exact .inr ((h q hmem).resolve_left heq)

/-- The launcher becomes the worker while the broker waits. -/
theorem confirm_may {s₀ : World} {c : Child} (h : Launched s₀ c l p s) :
    (confirm l.key (startedWorker l c.pid (some p.start))).May contract
      (fun r s' => r = .ok () ∧ ∃ q, Hired s₀ l c.pid q s') s := by
  obtain ⟨s', q, hdrift, hd, hstart, hhired⟩ : ∃ s' q, Drift s s' ∧ Distinct s' ∧
      q.start = p.start ∧ Hired s₀ l c.pid q s' := by
    let p₁ : Process := { p with group := some l.group }
    let p₂ : Process := { p₁ with
      uids := List.replicate 4 l.uid, gids := List.replicate 4 l.gid }
    have hp₁ : p₁ ∈ (s.changed p p₁).procs := changed_mem h.live
    have hjoins : Shift s (s.changed p p₁) := .joins h.live h.launch h.planned
    have hdrops : Shift (s.changed p p₁) ((s.changed p p₁).changed p₁ p₂) :=
      .drops hp₁ h.launch h.planned rfl
    exact ⟨_, p₂, (Relation.ReflTransGen.single hjoins).tail hdrops,
      (h.distinct.shift hjoins).shift hdrops, rfl, ⟨changed_mem hp₁, h.launch, h.planned⟩,
      ⟨rfl, all_replicate _, all_replicate _⟩, h.pid, h.running, h.registry,
      fun q hq => changed_others hq fun q hq => changed_others hq h.others⟩
  refine may_bind (may_attempt (r := .ok ()) ⟨s', hdrift, rfl⟩ ⟨(), rfl, ?_⟩)
  have hmatches : Yields (matchesWorker (startedWorker l c.pid (some p.start))) s' true :=
    matchesWorker_live (i := ⟨l.config.socket, l.key.2, l.uid, l.gid, l.generation⟩) hd rfl
      hhired.worker.1 hhired.pid (by rw [hstart]; rfl) hhired.runs.2.1 hhired.runs.2.2
  refine may_bind (May.mono (may_calm hmatches) ?_)
  rintro r s'' ⟨rfl, rfl⟩
  refine ⟨true, rfl, may_bind (may_perform ⟨_, .refl, rfl⟩ ⟨(), rfl, ?_⟩)⟩
  refine may_attempt (r := .ok ()) ⟨_, .refl, rfl⟩ ⟨rfl, q, ?_⟩
  exact ⟨hhired.worker, hhired.runs, hhired.pid, hhired.running, hhired.registry, hhired.others⟩

/-- A worker may come to run. -/
theorem spawnWorker_succeeds {pid : ℕ} {disk : Option String} (hd : Distinct s)
    (hpid : s.Free pid) : (spawnWorker l disk).May contract
      (fun r s' => (∃ w, r = .ok w) ∧ ∃ q, Hired s l pid q s') s := by
  refine spawnWorker_may hd hpid fun c p s₁ hl hc => May.mono (confirm_may hl) ?_
  rintro r s₂ ⟨rfl, q, hhired⟩
  refine may_bind (may_perform ⟨_, .refl, rfl⟩ ⟨(), rfl, ⟨_, rfl⟩, q, ?_⟩)
  exact ⟨hhired.worker, hhired.runs, hhired.pid.trans hc, hhired.running, hhired.registry,
    hhired.others⟩

/-- A launch may succeed when nothing of an earlier worker is left. -/
theorem launch_succeeds (h : Idle k e s) (hvalid : validId k.1 = true)
    (hcapacity : s.registry.nextIdentity < s.registry.config.identityCount) :
    (launch k).May contract (fun r s' => (∃ w, r = .ok w) ∧
      ∃ q, s'.IsWorker q (nextLaunch s.registry k)) s := by
  refine launch_may (P := fun _ => True) hvalid ((clear_idle h).mono ?_) (fun _ _ _ h => h)
    hcapacity fun s' hd _ _ => ?_
  · rintro r s' ⟨rfl, hr, hidle⟩
    exact ⟨rfl, hr, hidle.unpopulated, hidle.distinct, trivial⟩
  · obtain ⟨pid, hpid⟩ := exists_free s'
    exact May.mono (spawnWorker_succeeds hd hpid) fun _ _ ⟨hr, q, hq⟩ => ⟨hr, q, hq.worker⟩

/-- A drain fails if the role group cannot be read. -/
theorem drain_fails : (drain k).May calm (fun r s' => (∃ err, r = .error err) ∧ s' = s) s := by
  refine registry_yields.bind ?_
  cases s.registry.find k with
  | none => exact ⟨⟨_, rfl⟩, rfl⟩
  | some e =>
    refine may_bind (may_perform (b := 0) rfl ⟨0, rfl, ?_⟩)
    refine may_fail (may_fail (may_attempt (r := .error (.other "unreadable")) ⟨rfl, trivial⟩ ?_))
    exact ⟨_, rfl, _, rfl, ⟨_, rfl⟩, rfl⟩

/-- The launcher does not answer in time and is killed, while it is still root. -/
theorem spawnWorker_times_out {disk : Option String} (hd : Distinct s) :
    (spawnWorker l disk).May contract (fun _ s' => ∃ p, p.uids = List.replicate 4 0 ∧
      Signal.cleanup p l ∈ s'.signals) s := by
  obtain ⟨pid, hpid⟩ := exists_free s
  refine spawnWorker_may hd hpid fun c p s₁ hl _ => ?_
  have htimeout : other.May calm (fun r s' =>
      r = .error ⟨.timedOut, "worker launcher exceeded10s"⟩ ∧ s' = s₁) s₁ :=
    may_attempt rfl ⟨rfl, rfl⟩
  refine may_fail (May.mono (may_calm htimeout) ?_)
  rintro r s₂ ⟨rfl, rfl⟩
  refine ⟨_, rfl, may_bind (May.mono (Q := fun r s' => r = .ok () ∧
    Signal.cleanup p l ∈ s'.signals) ?_ ?_)⟩
  · refine may_bind (may_perform ⟨_, .refl, .inr ⟨p, hl.live, hl.serial, .inr rfl⟩⟩ ⟨(), rfl, ?_⟩)
    refine may_bind (may_perform ⟨_, .refl, fun q hq hserial => ?_, rfl⟩ ⟨(), rfl, ?_⟩)
    · obtain ⟨hmem, hne⟩ := List.mem_filter.mp hq
      refine of_decide_eq_true hne ?_
      exact hl.distinct.serials q (List.mem_append_left _ hmem) p (List.mem_append_left _ hl.live)
        (hserial.trans hl.serial.symm)
    refine may_bind (may_perform ⟨_, .refl, rfl⟩ ⟨(), rfl, ?_⟩)
    refine may_bind (may_outcome (May.mono (may_calm drain_fails) ?_))
    rintro r s₃ ⟨_, rfl⟩
    refine ⟨r, rfl, may_bind (may_outcome (may_attempt (r := .ok ()) ⟨_, .refl, rfl⟩ ?_))⟩
    exact ⟨_, rfl, rfl, List.mem_append_right _ List.mem_cons_self⟩
  · rintro r s₃ ⟨rfl, hsignal⟩
    exact ⟨(), rfl, p, hl.uids, hsignal⟩

/-- The daemon asks for a launch. -/
theorem serve_launch {uid : ℕ} {Q : Except IoError BrokerReply → World → Prop}
    (hvalid : validId k.1 = true) (huid : uid ≠ 0)
    (h : (launch k).May contract (fun r s' => match r with
      | .ok w => Q (.ok { s.registry.config.reply with worker := some w, alive := true }) s'
      | .error err => Q (.error err) s') s) :
    (serve uid ⟨.launch, k.1, k.2, none⟩).May contract Q s := by
  refine may_refuse ?_ (may_bind (May.mono (may_calm registry_yields) ?_))
  · rintro (⟨h0, _⟩ | ⟨_, hinspect⟩)
    · exact huid h0
    · cases hinspect
  rintro r s' ⟨rfl, rfl⟩
  refine ⟨_, rfl, ?_⟩
  rw [if_neg (by exact nofun)]
  refine may_refuse (by rw [hvalid]; exact nofun) ?_
  rw [if_pos rfl]
  refine may_refuse (fun hne => hne rfl) (may_seq (May.mono h ?_))
  rintro (err | w) s'' hQ
  · exact .inr ⟨err, rfl, hQ⟩
  · exact .inl ⟨w, rfl, hQ⟩

end Starting

section Opening

/-- A first installation may succeed. -/
theorem open_may (cfg : Config) (h : Fresh s) :
    (do openBroker cfg; perform .ready : Op Act IoError Unit).May
    contract (fun r s' => r = .ok () ∧ s'.running = true ∧ s'.procs = s.procs ∧ s'.zombies = [] ∧
      Distinct s' ∧
      s'.registry = (Registry.fresh cfg).configured cfg) s := by
  have hd := h.sound.distinct
  refine may_bind (may_calm (May.mono (Q := fun r s' => r = .ok () ∧ s'.procs = s.procs ∧
    s'.zombies = [] ∧ Distinct s' ∧ s'.registry = (Registry.fresh cfg).configured cfg) ?_ ?_))
  · refine other_yields.bind (may_bind ?_)
    refine May.mono (Q := fun r s' => r = .ok () ∧ s'.procs = s.procs ∧ s'.zombies = [] ∧
      Distinct s' ∧
      s'.registry = Registry.fresh cfg) ?_ ?_
    · refine may_bind (may_outcome (may_attempt (r := .error ⟨.notFound, "not found"⟩)
        ⟨rfl, fun _ => h.disk⟩ ⟨_, rfl, ?_⟩))
      have hmarked : Yields (installed ⟨.notFound, "not found"⟩) s false :=
        yields_ite (fun _ => may_perform (b := false) ⟨rfl, fun hb => nomatch hb⟩ ⟨rfl, rfl⟩)
          fun hne => absurd rfl hne
      refine hmarked.bind (other_yields.bind ?_)
      refine may_bind (may_perform rfl ⟨(), rfl, ?_⟩)
      refine may_bind (may_attempt (r := .ok ()) rfl ⟨(), rfl, ?_⟩)
      exact may_attempt (r := .ok ()) rfl ⟨rfl, rfl, h.zombies, hd.congr rfl rfl rfl, rfl⟩
    · rintro r s₁ ⟨rfl, hprocs, hzombies, hd, hregistry⟩
      refine ⟨(), rfl, registry_yields.bind (may_refuse ?_ ?_)⟩
      · rw [hregistry, not_not]
        exact ⟨rfl, rfl, rfl, rfl, rfl, le_rfl, Nat.zero_le _⟩
      have hsame : reconfigures cfg s₁.registry.config = false := by
        rw [hregistry]
        simp [reconfigures, Registry.fresh]
      rw [hsame, hregistry]
      refine Yields.bind (a := ()) yields_pure ?_
      refine may_bind (may_perform rfl ⟨(), rfl, ?_⟩)
      refine may_bind (may_attempt (r := .ok ()) rfl ⟨(), rfl, ?_⟩)
      refine Yields.bind (a := ()) yields_pure ?_
      refine may_bind (may_attempt (r := .ok ()) rfl ⟨(), rfl, ?_⟩)
      refine May.mono other_yields ?_
      rintro r s₂ ⟨rfl, rfl⟩
      refine ⟨rfl, hprocs, hzombies, hd.congr rfl rfl rfl, ?_⟩
      exact congrArg (fun r => r.configured cfg) hregistry
  · rintro r s₁ ⟨rfl, hprocs, hzombies, hd, hregistry⟩
    refine ⟨(), rfl, may_perform (b := ()) ⟨_, .refl, rfl⟩ ?_⟩
    exact ⟨rfl, rfl, hprocs, hzombies, hd.congr rfl rfl rfl, hregistry⟩

end Opening

end AgentHouse.Broker
