import AgentHouse.Broker.Launching

/-!
# Worker broker: opening, compacting and answering requests

When the broker opens, the registry file takes the place of its memory. A different
configuration is accepted only when every recorded worker has gone, and an intent is
dropped only when its launch left no process. Compaction forgets only records whose role group
is empty. Every program of the broker keeps its contract.
-/

namespace AgentHouse.Broker

open Op

variable {s s' t : World} {p p' q : Process} {l : Launch} {k j : Key} {r : Registry} {e : Entry}
  {cfg : Config}

/-- Every worker was one in `s₀`. -/
def FadesAll (s₀ s : World) : Prop := s.running = s₀.running ∧ ∀ k, Fades k s₀ s

theorem FadesAll.refl (s : World) : FadesAll s s := ⟨rfl, fun _ p _ hw _ => ⟨p, hw, .refl p⟩⟩

theorem FadesAll.wanes {s₀ : World} (h : FadesAll s₀ s) (hd : Wanes s s') : FadesAll s₀ s' :=
  ⟨hd.running.trans h.1, fun k => (h.2 k).wanes hd⟩

theorem FadesAll.stable {s₀ : World} : Stable (FadesAll s₀) :=
  fun h hdrift => h.wanes hdrift.drifts.toWanes

section Load

variable {s₀ : World}

/-- As long as there is no registry file, no worker was launched. -/
theorem Sound.fresh (hs : Sound s) (hdisk : s.disk = none) : Covers (.fresh cfg) s where
  capacity := Nat.zero_le _
  assigned l hl := by
    rw [hs.first hdisk] at hl
    cases hl
  entries _ _ he := nomatch he
  workers p l hw := by
    have hspawned := (hs.launched p hw.1 l hw.2.1).1
    rw [hs.first hdisk] at hspawned
    cases hspawned

/-- A registry that is read covers the workers. -/
theorem load_leads (hs : Sound s) :
    (outcome (attempt .load : Op Act IoError Registry)).Leads reads (fun b s' => match b with
      | .ok r => Covers r s'
      | .error e => e.kind = .notFound → s'.disk = none) s := by
  have hload : (outcome (attempt .load : Op Act IoError Registry)).Leads reads
      (fun b s' => eff .load s' b s') s := by
    refine Prog.keeps_bind.mpr ⟨trivial, fun b s' hdoes => ?_⟩
    have hs' := sound_preserved (a := Act.load) hs trivial hdoes
    obtain ⟨t, hdrift, heff⟩ := hdoes
    obtain rfl : s' = t := heff.1
    exact ⟨hs', hdrift, fun _ h => Except.ok.inj h ▸ heff⟩
  refine hload.mono fun b s' hs' _ heff => ?_
  cases b with
  | ok r => exact Sound.stored hs' r heff.2
  | error err => exact heff.2

/-- A missing registry is one that was never written. -/
theorem installed_leads {err : IoError} (hs : Sound s) :
    (installed err).Leads reads (fun b _ => b = false → err.kind = .notFound) s := by
  refine leads_ite (fun hkind => ?_) fun _ => leads_pure hs fun h => nomatch h
  exact leads_read hs trivial (fun _ _ _ h => h.1) fun _ _ _ _ _ _ => hkind

theorem mark_leads (hs : Sound s) : (attempt .mark : Op Act IoError Unit).Leads
    (assuming (FadesAll s₀)) (fun _ _ => True) s := by
  refine leads_attempt hs trivial fun r s' ⟨t, hdrift, heff⟩ _ => ⟨fun h => ?_, fun _ _ => trivial⟩
  have ht := FadesAll.stable h hdrift
  cases r with
  | ok u =>
    obtain rfl := heff
    exact ht
  | error err =>
    obtain rfl | rfl := heff
    · exact ht
    · exact ht

/-- The registry in memory covers the workers, also a new one. -/
theorem loadRegistry_leads (hs : Sound s) :
    (loadRegistry cfg).Leads (assuming (FadesAll s₀)) (fun _ _ => True) s := by
  refine leads_bind (reads_assuming FadesAll.stable (load_leads hs)) fun b s₁ hs₁ _ hload => ?_
  cases b with
  | ok r =>
    exact (assign_leads hs₁ hload FadesAll.stable fun _ h => h).mono fun _ _ _ _ _ => trivial
  | error err =>
    refine leads_bind (reads_assuming FadesAll.stable (reads_stable
      (P := fun s => err.kind = .notFound → s.disk = none)
      (fun h hd hkind => hd.drifts.disk.trans (h hkind)) hload (installed_leads hs₁))) ?_
    rintro b s₂ hs₂ - ⟨hdisk, hkind⟩
    refine leads_ite (fun _ => leads_throw hs₂) fun hb => ?_
    replace hdisk : s₂.disk = none := hdisk (hkind (by simpa using hb))
    refine leads_bind (reads_assuming FadesAll.stable (reads_stable
      (P := fun s => s.disk = none) (fun h hd => hd.drifts.disk.trans h) hdisk
      (leads_other hs₂))) fun _ s₃ hs₃ _ ⟨hdisk, _⟩ => ?_
    refine leads_bind (assign_leads hs₃ (hs₃.fresh hdisk) FadesAll.stable fun _ h => h)
      fun _ s₄ hs₄ _ _ => ?_
    refine leads_bind (persist_leads hs₄ FadesAll.stable fun _ h => h) fun _ s₅ hs₅ _ _ => ?_
    exact mark_leads hs₅

end Load

section Open

variable {s₀ : World}

/-- A configuration may change in what it must keep only if there is no worker. -/
theorem Covers.configured (h : Covers r s) (hext : Extends cfg r)
    (hgroup : cfg.cgroupRoot = r.config.cgroupRoot ∨ ∀ p l, ¬ s.IsWorker p l) :
    Covers (r.configured cfg) s := by
  obtain ⟨huid, hgid, -, -, -, -, hcapacity⟩ := hext
  refine ⟨hcapacity, fun l hl => ?_, h.entries, fun p l hw => ?_⟩
  · exact (h.assigned l hl).congr le_rfl huid hgid
  · obtain hgroup | hnone := hgroup
    · obtain ⟨hl, hrecord⟩ := h.workers p l hw
      refine ⟨?_, hrecord⟩
      rw [hl, group, group, ← hgroup]
      rfl
    · exact absurd hw (hnone p l)

theorem cgroupRoot_of_not_reconfigures {old : Config} (h : reconfigures cfg old = false) :
    cfg.cgroupRoot = old.cgroupRoot := by
  have heq : { old.toSettings with identityCount := cfg.identityCount } = cfg.toSettings := by
    simpa [reconfigures] using h
  rw [← heq]

/-- An entry that is not in the way has no worker. -/
theorem requireStopped_leads {old : Config} {x : Key × Entry} (hs : Sound s)
    (hx : x ∈ s.registry.entries) :
    (requireStopped old x).Leads reads (fun _ s' => s'.Vacated x.1) s := by
  refine leads_bind (lingers_leads hs) fun b s' hs' hdrift hdead => ?_
  refine leads_ite (fun _ => leads_throw hs') fun hb => leads_pure hs' ?_
  rw [← hdrift.drifts.registry] at hx
  exact Sound.vacated_of_dead hs' (Registry.find_of_mem hx) (hdead (by simpa using hb))

/-- Every recorded worker has gone, so there is none. -/
theorem Sound.unstaffed (hs : Sound s) (h : ∀ x ∈ s.registry.entries, s.Vacated x.1) :
    ∀ p l, ¬ s.IsWorker p l := by
  intro p l hw
  obtain ⟨_, e, hfind, _⟩ := hs.memory.workers p l hw
  obtain ⟨x, hx, rfl⟩ := Option.map_eq_some_iff.mp hfind
  obtain ⟨hmem, hkey⟩ := Table.row_mem hx
  exact h x hmem p l hw hkey.symm

/-- The configuration changes before no worker, or not in what a group is named by. -/
theorem reconfigure_leads (hs : Sound s) :
    (Op.when (reconfigures cfg s.registry.config)
      (each (requireStopped s.registry.config) s.registry.entries)).Leads reads
      (fun _ s' => cfg.cgroupRoot = s'.registry.config.cgroupRoot ∨
        ∀ p l, ¬ s'.IsWorker p l) s := by
  refine leads_when (fun _ => ?_) fun hr => ⟨hs, .inl (cgroupRoot_of_not_reconfigures hr)⟩
  refine (leads_each (I := fun done s' => s'.registry = s.registry ∧ ∀ x ∈ done, s'.Vacated x.1)
    hs ⟨rfl, fun _ hx => absurd hx List.not_mem_nil⟩ fun x hx done s' hs' ⟨hregistry, hdone⟩ =>
      ?_).mono ?_
  · rintro _ s' hs' - ⟨hregistry, hall⟩
    refine .inr (Sound.unstaffed hs' fun x hx => hall x ?_)
    rw [List.mem_reverse, ← hregistry]
    exact hx
  · refine (requireStopped_leads hs' (hregistry ▸ hx)).mono fun _ s'' _ hdrift hv => ?_
    refine ⟨hdrift.drifts.registry.trans hregistry, fun y hy => ?_⟩
    obtain rfl | hy := List.mem_cons.mp hy
    · exact hv
    · exact World.Vacated.stable (hdone y hy) hdrift

/-- The records that are left to settle. -/
structure Settling (cfg : Config) (entries : List (Key × Entry)) (s : World) : Prop where
  config : s.registry.config = cfg
  recorded : ∀ x ∈ entries, ∃ e, s.registry.find x.1 = some e ∧ e.worker = x.2.worker ∧
    (x.2.intent = false → e.intent = false)
  listed : ∀ k e, s.registry.find k = some e → ∃ x ∈ entries, x.1 = k

theorem Settling.stable {entries : List (Key × Entry)} : Stable (Settling cfg entries) := by
  intro s s' h hdrift
  have hregistry := hdrift.drifts.registry
  exact ⟨hregistry ▸ h.config, hregistry ▸ h.recorded, hregistry ▸ h.listed⟩

theorem Settling.settled {entries : List (Key × Entry)} (h : Settling cfg entries s) :
    Settling cfg entries { s with registry := s.registry.settled k } := by
  refine ⟨h.config, fun x hx => ?_, fun j e he => ?_⟩
  · obtain ⟨e, hfind, hworker, hintent⟩ := h.recorded x hx
    rw [Registry.find_settled]
    by_cases hk : x.1 = k
    · rw [if_pos hk, ← hk, hfind]
      exact ⟨e.settled, rfl, hworker, fun _ => rfl⟩
    · rw [if_neg hk]
      exact ⟨e, hfind, hworker, hintent⟩
  · rw [Registry.find_settled] at he
    split at he
    · rename_i hj
      obtain ⟨e', he', _⟩ := Option.map_eq_some_iff.mp he
      exact hj ▸ h.listed k e' he'
    · exact h.listed j e he

/-- An intent that does not linger has no worker. -/
theorem interrupted_leads {path : String × Key} (hs : Sound s) :
    (interrupted e path).Leads reads (fun b s' => b = false → e.intent = false ∨
      ∀ p l, s'.IsWorker p l → p.pid = e.worker.pid → e.worker.starttime ≠ some p.start) s := by
  refine leads_ite (fun _ => ?_) fun hi => leads_pure hs fun _ => .inl (by simpa using hi)
  refine leads_bind (leaderAlive_leads hs) fun b s₁ hs₁ _ hdead => ?_
  refine leads_ite (fun _ => leads_pure hs₁ fun h => nomatch h) fun hb => ?_
  refine leads_bind (members_leads hs₁) fun pids s₂ hs₂ hdrift₂ _ => ?_
  refine leads_bind (vacant_leads hs₂) fun _ s₃ hs₃ hdrift₃ _ => leads_pure hs₃ fun _ => .inr ?_
  intro p l hw hpid
  obtain ⟨q, hq, hc⟩ := (hdrift₂.drifts.trans hdrift₃.drifts).worker hw
  rw [hc.start]
  exact hdead (by simpa using hb) q l hq (hc.pid.symm.trans hpid)

/-- One entry is settled, and the others stay so. -/
theorem settle_leads {entries : List (Key × Entry)} {x : Key × Entry} (hs : Sound s)
    (h : Settling cfg entries s) (hx : x ∈ entries) :
    (settle cfg x).Leads (assuming (FadesAll s₀))
      (fun _ s' => Settling cfg entries s' ∧ Settled x.1 s' ∧
        ∀ k, Settled k s → Settled k s') s := by
  have hread : (interrupted x.2 (group cfg (x.2.worker.id, x.2.identity.role))).Leads reads
      (fun b s' => Drift s s' ∧ (b = false → x.2.intent = false ∨ ∀ p l, s'.IsWorker p l →
        p.pid = x.2.worker.pid → x.2.worker.starttime ≠ some p.start)) s :=
    (interrupted_leads hs).mono fun _ _ _ hdrift h => ⟨hdrift, h⟩
  refine leads_bind (reads_assuming FadesAll.stable hread) fun b s₁ hs₁ _ ⟨hdrift₁, hleft⟩ => ?_
  have h₁ := Settling.stable h hdrift₁
  refine leads_ite (fun _ => leads_throw hs₁) fun hb => ?_
  obtain ⟨e, hfind, hworker, hintent⟩ := h₁.recorded x hx
  have hruns : ∀ p l, s₁.IsWorker p l → l.key = x.1 → p.Runs l := by
    intro p l hw hl
    obtain hi | hdead := hleft (by simpa using hb)
    · obtain ⟨_, e', he', _, hr⟩ := Sound.memory hs₁ |>.workers p l hw
      rw [hl, hfind] at he'
      exact hr (Option.some.inj he' ▸ hintent hi)
    · rw [← hworker] at hdead
      exact absurd hl (Sound.vacated_of_dead hs₁ hfind hdead p l hw)
  refine (assign_leads hs₁ ((Sound.memory hs₁).settled hruns) FadesAll.stable fun _ h => h).mono ?_
  rintro _ s₂ - - ⟨t, hdrift, rfl⟩
  have ht := Settling.stable h₁ hdrift
  refine ⟨ht.settled, settled_of_settles (hdrift.drifts.registry ▸ hfind), fun k hk => ?_⟩
  exact (Settled.stable hk (hdrift₁.trans hdrift)).settles

/-- Once the broker is open, every key is settled. -/
theorem openBroker_leads (s₀ : World) (hs : Sound s) : (openBroker cfg).Leads
    (assuming (FadesAll s₀))
    (fun _ s' => ∀ k, Settled k s') s := by
  refine leads_bind (reads_assuming FadesAll.stable (leads_other hs)) fun _ s₁ hs₁ _ _ => ?_
  refine leads_bind (loadRegistry_leads hs₁) fun _ s₂ hs₂ _ _ => ?_
  refine leads_bind (reads_assuming FadesAll.stable (registry_leads hs₂)) ?_
  rintro r s₃ hs₃ - ⟨rfl, hregistry⟩
  rw [← hregistry]
  refine leads_refuse hs₃ fun hext => ?_
  rw [not_not] at hext
  refine leads_bind (reads_assuming FadesAll.stable (reads_stable
    (P := fun s' => s'.registry = s₃.registry) (fun h hd => hd.drifts.registry.trans h) rfl
    (reconfigure_leads hs₃))) fun _ s₄ hs₄ _ ⟨hregistry₄, hgroup⟩ => ?_
  rw [← hregistry₄] at hext ⊢
  refine leads_bind (assign_leads hs₄ ((Sound.memory hs₄).configured hext hgroup) FadesAll.stable
    fun _ h => h) ?_
  rintro _ s₅ hs₅ - ⟨t, hdrift, rfl⟩
  have hsettling : Settling cfg s₄.registry.entries
      { t with registry := t.registry.configured cfg } := by
    rw [hdrift.drifts.registry]
    refine ⟨rfl, fun x hx => ⟨x.2, Registry.find_of_mem hx, rfl, id⟩, fun k e he => ?_⟩
    obtain ⟨x, hx, _⟩ := Option.map_eq_some_iff.mp he
    exact ⟨x, Table.row_mem hx⟩
  refine leads_bind (persist_leads hs₅ FadesAll.stable fun _ h => h) ?_
  rintro _ s₆ hs₆ - ⟨u, hu, rfl⟩
  have hsettling' := Settling.stable hsettling hu
  refine leads_bind (leads_each (I := fun done s' => Settling cfg s₄.registry.entries s' ∧
    ∀ x ∈ done, Settled x.1 s') hs₆
    ⟨⟨hsettling'.config, hsettling'.recorded, hsettling'.listed⟩, fun _ hx =>
      absurd hx List.not_mem_nil⟩
    fun x hx done s' hs' ⟨hsettling, hdone⟩ => ?_) ?_
  · refine (settle_leads hs' hsettling hx).mono fun _ s'' _ _ ⟨hsettling, hsettled, hkept⟩ => ?_
    refine ⟨hsettling, fun y hy => ?_⟩
    obtain rfl | hy := List.mem_cons.mp hy
    · exact hsettled
    · exact hkept y.1 (hdone y hy)
  rintro _ s₇ hs₇ - ⟨hsettling, hall⟩
  have hsettled : ∀ k, Settled k s₇ := by
    intro k e he
    obtain ⟨x, hx, rfl⟩ := hsettling.listed k e he
    exact hall x (List.mem_reverse.mpr hx) e he
  refine leads_bind (persist_leads hs₇ FadesAll.stable fun _ h => h) ?_
  rintro _ s₈ hs₈ - ⟨v, hv, rfl⟩
  refine reads_assuming FadesAll.stable ((leads_other hs₈).mono fun _ s₉ _ hdrift _ k => ?_)
  refine Settled.stable ?_ hdrift
  exact (Settled.stable (hsettled k) hv : Settled k v)

end Open

section Compact

/-- The keys whose workers have gone. -/
def Gone (keys : List Key) (s : World) : Prop := ∀ k ∈ keys, s.Vacated k

theorem Gone.wanes {keys : List Key} (h : Gone keys s) (hd : Wanes s s') : Gone keys s' :=
  fun k hk => (h k hk).wanes hd

theorem Gone.stable {keys : List Key} : Stable (Gone keys) :=
  fun h hdrift => h.wanes hdrift.drifts.toWanes

/-- An entry that may be dropped has no worker. -/
theorem retirable_leads {x : Key × Entry} (hs : Sound s) (hx : x ∈ s.registry.entries) :
    (retirable s.registry.config x).Leads reads
      (fun b s' => s'.registry = s.registry ∧ (b = true → s'.Vacated x.1)) s := by
  have hdeleted : (attempt (.ask (Except IoError Bool)) : Op Act IoError Bool).Leads reads
      (fun _ s' => s'.registry = s.registry) s :=
    leads_try hs trivial (fun _ _ _ h => h) fun _ _ hdrift _ _ => hdrift.drifts.registry
  refine leads_bind hdeleted fun b s₁ hs₁ _ hregistry₁ => ?_
  refine leads_ite (fun hb => ?_) fun _ => leads_pure hs₁ ⟨hregistry₁, fun h => nomatch h⟩
  refine leads_bind (matchesWorker_leads hs₁) fun b s₂ hs₂ hdrift₂ _ => ?_
  have hregistry₂ := hdrift₂.drifts.registry.trans hregistry₁
  refine leads_ite (fun _ => leads_pure hs₂ ⟨hregistry₂, fun h => nomatch h⟩) fun _ => ?_
  refine leads_bind (members_leads hs₂) fun pids s₃ hs₃ hdrift₃ _ => ?_
  refine (vacant_leads hs₃).mono fun b s₄ hs₄ hdrift₄ hvacant => ?_
  have hregistry₄ := hdrift₄.drifts.registry.trans (hdrift₃.drifts.registry.trans hregistry₂)
  refine ⟨hregistry₄, fun hb' => ?_⟩
  rw [← s.registry.named x hx]
  refine Sound.vacated hs₄ (hregistry₄ ▸ hvacant hb') fun e he => ?_
  rw [hregistry₄, s.registry.named x hx, Registry.find_of_mem hx] at he
  exact Option.some.inj he ▸ hb.2

/-- By induction on the entries, none of those that may be dropped has a worker. -/
theorem retired_leads {entries : List (Key × Entry)} (hs : Sound s)
    (hentries : ∀ x ∈ entries, x ∈ s.registry.entries) :
    (retired s.registry.config entries).Leads reads
      (fun keys s' => s'.registry = s.registry ∧ Gone keys s') s := by
  induction entries generalizing s with
  | nil => exact leads_pure hs ⟨rfl, fun _ hk => nomatch hk⟩
  | cons x entries ih =>
    refine leads_bind (retirable_leads hs (hentries x List.mem_cons_self)) ?_
    rintro b s₁ hs₁ - ⟨hregistry₁, hv⟩
    rw [← hregistry₁] at hentries ⊢
    refine leads_bind (ih hs₁ fun y hy => hentries y (List.mem_cons_of_mem x hy)) ?_
    rintro keys s₂ hs₂ hdrift ⟨hregistry₂, hgone⟩
    refine leads_pure hs₂ ⟨hregistry₂, ?_⟩
    by_cases hb : b = true
    · rw [if_pos hb]
      intro k hk
      obtain rfl | hk := List.mem_cons.mp hk
      · exact World.Vacated.stable (hv hb) hdrift
      · exact hgone k hk
    · rw [if_neg hb]
      exact hgone

/-- An entry without a worker is dropped. -/
theorem retire_leads {keys : List Key} (hs : Sound s) (h : Gone keys s) (hk : k ∈ keys) :
    (retire k).Leads (assuming (Gone keys)) (fun _ _ => True) s := by
  have hdrain : (drain k).Leads (assuming (Gone keys)) (fun _ _ => True) s :=
    ((drain_leads hs).mono fun _ _ _ _ _ => trivial).wider rfl (fun _ h => h)
      fun _ hd hg => hg.wanes hd.toWanes
  refine leads_bind hdrain fun _ s₁ hs₁ hrel _ => ?_
  exact (assign_leads hs₁ ((Sound.memory hs₁).removed (hrel h k hk)) Gone.stable
    fun _ h => h).mono fun _ _ _ _ _ => trivial

/-- Compaction keeps the host sound. -/
theorem compact_keeps (hs : Sound s) : compact.Keeps contract (fun _ s' => Sound s') s := by
  have hcompact : compact.Ensures contract Sound (fun _ _ => True) (fun _ => True) s := by
    refine ensures_bind ((registry_leads hs).ensures fun _ _ _ => trivial) ?_
    rintro r s₁ hs₁ ⟨_, rfl, hregistry⟩
    rw [← hregistry]
    refine ensures_bind ((retired_leads hs₁ fun _ hx => hx).ensures fun _ _ _ => trivial) ?_
    rintro keys s₂ hs₂ ⟨_, _, hgone⟩
    have hretire : (each retire keys).Leads (assuming (Gone keys)) (fun _ s' => Gone keys s') s₂ :=
      leads_each hs₂ hgone fun k hk _ s' hs' hg =>
        (retire_leads hs' hg hk).mono fun _ _ _ hrel _ => hrel hg
    refine ensures_bind (hretire.ensures fun _ _ _ => trivial) ?_
    rintro _ s₃ hs₃ ⟨_, hgone⟩
    exact ((persist_leads (P := Gone keys) hs₃ Gone.stable fun _ h => h).ensures
      fun _ _ _ => trivial).mono (fun _ _ _ _ => trivial) fun _ _ _ => trivial
  exact Keeps.mono hcompact fun _ _ h => h.1

end Compact

section Requests

theorem finished_leads {children : List (Key × Child)} (hs : Sound s) :
    (finished children).Leads waning (fun _ _ => True) s := by
  induction children generalizing s with
  | nil => exact leads_pure hs trivial
  | cons x children ih =>
    have htry : (perform (.tryWait x.2) : Op Act IoError Bool).Leads waning
      (fun _ _ => True) s := by
      refine leads_perform hs trivial fun b s' ⟨t, hdrift, heff⟩ _ => ⟨?_, trivial⟩
      obtain ⟨_, _, rfl⟩ | ⟨_, rfl⟩ := heff
      · exact hdrift.drifts.toWanes.trans ⟨rfl, rfl, rfl, rfl, rfl, le_rfl, (Wanes.refl t).procs⟩
      · exact hdrift.drifts.toWanes
    refine leads_bind htry fun b s₁ hs₁ _ _ => ?_
    exact leads_bind (ih hs₁) fun keys s₂ hs₂ _ _ => leads_pure hs₂ trivial

theorem reads_waning {α : Type} {Q : α → World → Prop} {p : Op Act IoError α}
    (h : p.Leads reads Q s) : p.Leads waning Q s :=
  h.wider rfl (fun _ hs => hs) fun _ hdrift => hdrift.drifts.toWanes

/-- Maintenance drains what has exited. -/
theorem drainExited_leads (hs : Sound s) : (drainExited k).Leads waning (fun _ _ => True) s := by
  refine leads_bind (reads_waning (registry_leads hs)) ?_
  rintro r s₁ hs₁ - ⟨rfl, _⟩
  cases s.registry.find k with
  | none => exact leads_pure hs₁ trivial
  | some e =>
    refine leads_bind (drains_waning (leads_outcome (drain_leads hs₁))) fun _ s₂ hs₂ _ _ => ?_
    exact leads_pure hs₂ trivial

/-- Maintenance changes no record and starts no worker. -/
theorem maintain_leads (hs : Sound s) : maintain.Leads waning (fun _ _ => True) s := by
  have hchildren : (perform .children : Op Act IoError (List (Key × Child))).Leads reads
      (fun _ _ => True) s :=
    leads_read hs trivial (fun _ _ _ h => h.2) fun _ _ _ _ _ => trivial
  refine leads_bind (reads_waning hchildren) fun children s₁ hs₁ _ _ => ?_
  refine leads_bind (finished_leads hs₁) fun keys s₂ hs₂ _ _ => ?_
  exact leads_each (I := fun _ _ => True) hs₂ trivial fun k _ _ s' hs' _ => drainExited_leads hs'

/-- A stop that succeeds has emptied the group. -/
theorem observe_leads {action : BrokerAction} {w : Worker} (hs : Sound s) :
    (observe action cfg k w).Leads (drains k) (fun _ s' => action = .stop →
      ∃ e, s.registry.find k = some e ∧ Emptied k e s') s := by
  have hruns : (runs action w).Leads reads (fun b _ => action = .stop → b = false) s :=
    leads_ite (fun _ => leads_pure hs fun _ => rfl) fun hne =>
      (matchesWorker_leads hs).mono fun _ _ _ _ _ h => absurd h hne
  refine leads_bind (reads_drains hruns) fun b s₁ hs₁ hd₁ hb => ?_
  refine leads_ite (fun htrue => ?_) fun _ => ?_
  · refine leads_bind (reads_drains (members_leads hs₁)) fun pids s₂ hs₂ _ _ => ?_
    refine leads_refuse hs₂ fun _ => leads_pure hs₂ fun hstop => ?_
    cases htrue.symm.trans (hb hstop)
  · refine leads_bind (drain_leads hs₁) fun _ s₂ hs₂ _ hempty => leads_pure hs₂ fun _ => ?_
    rwa [← hd₁.registry]

/-- A request other than a launch drains at most the role group of its own key. -/
theorem request_leads {q : BrokerRequest} (hs : Sound s) (hq : q.action ≠ .launch) :
    (request q).Leads (drains (q.id, q.role))
      (fun _ s' => q.action = .stop → s'.Vacated (q.id, q.role)) s := by
  refine leads_bind (reads_drains (registry_leads hs)) ?_
  rintro r s₁ hs₁ - ⟨rfl, hregistry⟩
  refine leads_ite (fun hcheck => leads_refuse hs₁ fun _ => leads_pure hs₁ fun hstop => ?_)
    fun _ => ?_
  · cases hcheck.symm.trans hstop
  refine leads_refuse hs₁ fun _ => ?_
  refine leads_ite (fun h => absurd h hq) fun _ => ?_
  cases hfind : s.registry.find (q.id, q.role) with
  | none => exact leads_throw hs₁
  | some e =>
    refine leads_refuse hs₁ fun hmatch => ?_
    refine leads_bind (observe_leads hs₁) fun _ s₂ hs₂ _ hempty => leads_pure hs₂ fun hstop => ?_
    obtain ⟨e', hfind', hv⟩ := hempty hstop
    rw [hregistry, hfind] at hfind'
    obtain rfl := Option.some.inj hfind'
    exact hv (Bool.eq_false_iff.mpr fun hi => hmatch (.inl hi))

/-- A request that names no record of the registry changes nothing. -/
theorem request_unmatched {q : BrokerRequest} (hs : Sound s) (hq : q.action ≠ .launch)
    (hworker : ∀ e, s.registry.find (q.id, q.role) = some e → e.intent = false →
      q.worker ≠ some e.worker) : (request q).Leads reads (fun _ _ => True) s := by
  refine leads_bind (registry_leads hs) ?_
  rintro r s₁ hs₁ - ⟨rfl, hregistry⟩
  refine leads_ite (fun _ => leads_refuse hs₁ fun _ => leads_pure hs₁ trivial) fun _ => ?_
  refine leads_refuse hs₁ fun _ => ?_
  refine leads_ite (fun h => absurd h hq) fun _ => ?_
  cases hfind : s.registry.find (q.id, q.role) with
  | none => exact leads_throw hs₁
  | some e =>
    refine leads_refuse hs₁ fun hmatch => ?_
    rw [not_or, Bool.not_eq_true, not_not] at hmatch
    exact absurd hmatch.2 (hworker e hfind hmatch.1)

/-- A request keeps the host sound, whatever it asks. -/
theorem request_keeps {q : BrokerRequest} (hs : Sound s) :
    (request q).Keeps contract (fun _ s' => Sound s') s := by
  by_cases hq : q.action = .launch
  · have hrequest : (request q).Ensures contract Sound (fun _ _ => True) (fun _ => True) s := by
      refine ensures_bind ((registry_leads hs).ensures fun _ _ _ => trivial) ?_
      rintro r s₁ hs₁ -
      have hnot : ¬ q.action = .check := by rw [hq]; exact nofun
      rw [if_neg hnot]
      refine ensures_refuse hs₁ trivial fun _ => ?_
      rw [if_pos hq]
      refine ensures_refuse hs₁ trivial fun _ => ?_
      have hlaunch : (launch (q.id, q.role)).Ensures contract Sound (fun _ _ => True)
          (fun _ => True) s₁ :=
        (launch_ensures hs₁ (.refl s₁)).mono (fun _ _ _ _ => trivial) fun _ _ _ => trivial
      exact ensures_bind hlaunch fun w s₂ hs₂ _ => ensures_pure hs₂ trivial
    exact Keeps.mono hrequest fun _ _ h => h.1
  · exact Keeps.mono (request_leads hs hq) fun _ _ h => h.1

/-- What a request comes to that is no launch. -/
theorem serve_asked {uid : ℕ} {q : BrokerRequest} (hs : Sound s) (hq : q.action ≠ .launch) :
    (serve uid q).Keeps contract (fun r s' => Sound s' ∧ Wanes s s' ∧ ∀ reply, r = .ok reply →
      q.action = .stop → s'.Vacated (q.id, q.role)) s := by
  refine leads_refuse (F := waning) hs fun _ => ?_
  exact (request_leads hs hq).wider rfl (fun _ h => h) fun _ hd => hd.toWanes

/-- So does a connection. -/
theorem serve_keeps {uid : ℕ} {q : BrokerRequest} (hs : Sound s) :
    (serve uid q).Keeps contract (fun _ s' => Sound s') s := by
  refine keeps_bind.mpr ?_
  unfold refuse
  split
  · exact hs
  · exact request_keeps hs

end Requests

end AgentHouse.Broker
