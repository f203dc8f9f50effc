import AgentHouse.Host.Contracts

/-!
# What the supervisor keeps true

The devices that a volume reserves are those of its entry and of its record file, which may
differ once a save has failed. The supervisor keeps every volume sound, every running operation
under its contract, and no device reserved twice. It stops admitting volumes as soon as an entry
may differ from its file, so a free device is one that no file claims.
-/

namespace AgentHouse.Host

variable {cfg : Config} {P : Surroundings} {D : Digests} {C : Condition} {σ σ' : Service}

/-- The device is kept for the volume by its entry or by its record file. -/
def Slot.Reserves (s : Slot) (device : Path) : Prop :=
  ∃ r, (r = s.entry ∨ r ∈ s.volume.record) ∧ r.evicted = false ∧ r.device = device

/-- The record file reserves what the entry does. -/
def Slot.Agrees (s : Slot) : Prop :=
  ∀ r ∈ s.volume.record, r.device = s.entry.device ∧ r.evicted = s.entry.evicted ∧
    r.logicalReleased = s.entry.logicalReleased

/-- The volume of a slot. -/
def Slot.id (s : Slot) : String := s.volume.id

/-- The volumes of the table. -/
def Service.slots (σ : Service) : List Slot := σ.threads.map Thread.slot

/-- What the supervisor keeps true while it runs. -/
structure Service.Sound (cfg : Config) (σ : Service) : Prop where
  keyed : Table.Keyed Slot.id σ.slots
  valid : ∀ s ∈ σ.slots, validId s.id = true
  debris : ∀ id ∈ σ.debris, validId id = true
  sound : ∀ s ∈ σ.slots, s.Sound cfg
  jobs : ∀ t ∈ σ.threads, ∀ p ∈ t.job, Op.Ends (volumeContract cfg) (fun _ _ => True) p t.slot
  probes : ∀ p ∈ σ.probes, Op.Ends (probeContract p.snapshot) (fun _ _ => True) p.job ()
  waiting : ∀ q ∈ σ.waiting, q.operation = .prepare →
    ∃ s ∈ σ.slots, s.id = q.volumeId ∧ s.volume.record ≠ none
  agrees : σ.frozen = false → ∀ s ∈ σ.slots, s.volume.record ≠ none ∧ s.Agrees
  exclusive : ∀ s ∈ σ.slots, ∀ t ∈ σ.slots, ∀ d, s.Reserves d → t.Reserves d → s.id = t.id

section Records

variable {r : Record} {rs : List Record}

/-- A sound record claims its device exactly as long as it is not evicted. -/
theorem Record.Sound.claims_iff (h : r.Sound cfg) : r.claims = true ↔ r.evicted = false := by
  constructor
  · intro hc
    by_contra he
    have he : r.evicted = true := by simpa using he
    have hidle := (h.evicted he).2
    simp only [Record.busy, Bool.or_eq_false_iff] at hidle
    simp [Record.claims, he, hidle] at hc
  · intro he
    have hr : r.reclaimed = false := by
      by_contra hr
      have := (h.released (h.reclaimed (by simpa using hr))).1
      rw [he] at this
      cases this
    simp [Record.claims, he, hr]

/-- A free device is configured, and no record claims it. -/
theorem freeDevice_ok {d : Path} (h : freeDevice cfg rs = .ok d) :
    d ∈ cfg.devices ∧ ∀ r ∈ rs, r.claims = true → r.device ≠ d := by
  unfold freeDevice at h
  split at h
  · cases h
  · rename_i d' hfind
    obtain rfl : d' = d := Except.ok.inj h
    refine ⟨List.mem_of_find?_eq_some hfind, ?_⟩
    intro r hr hclaims hdevice
    have hfree := List.find?_some hfind
    simp only [decide_eq_true_eq] at hfree
    exact hfree (List.mem_map.mpr ⟨r, List.mem_filter.mpr ⟨hr, hclaims⟩, hdevice⟩)

/-- A file that is read fits into the bound. -/
theorem read_ok {file : Option Record} (h : P.read file = .ok r) :
    file = some r ∧ P.width r ≤ maxRecordBytes := by
  cases file with
  | none => cases h
  | some r' =>
    rw [Surroundings.read] at h
    by_cases hwidth : maxRecordBytes < P.width r'
    · rw [if_pos hwidth] at h
      cases h
    · rw [if_neg hwidth] at h
      obtain rfl := Except.ok.inj h
      exact ⟨rfl, by omega⟩

/-- The record files that exist. -/
def Service.files (σ : Service) : List Record := σ.slots.filterMap fun s => s.volume.record

/-- The table is read as a whole or not at all. -/
theorem Service.records_ok (h : σ.records P = .ok rs) :
    (∀ s ∈ σ.slots, s.volume.record ≠ none) ∧ rs = σ.files := by
  rw [Service.records] at h
  have hread := mapM_ok.mp h
  rw [Service.files, Service.slots]
  generalize σ.threads = ts at hread
  clear h
  induction hread with
  | nil => exact ⟨fun _ hs => absurd hs List.not_mem_nil, rfl⟩
  | @cons t r ts rs ht _ ih =>
    have hfile := (read_ok ht).1
    refine ⟨?_, by rw [List.map_cons, List.filterMap_cons, hfile, ih.2]⟩
    intro s hs
    obtain rfl | hs := List.mem_cons.mp hs
    · exact fun hnone => by cases hnone.symm.trans hfile
    · exact ih.1 s hs

/-- While every entry agrees with its file, a free device is reserved by nobody. -/
theorem Service.Sound.not_reserves {d : Path} (h : σ.Sound cfg) (hfrozen : σ.frozen = false)
    (hrs : σ.records P = .ok rs) (hd : freeDevice cfg rs = .ok d) :
    ∀ s ∈ σ.slots, ¬ s.Reserves d := by
  rintro s hs ⟨e, hcase, hevicted, hdevice⟩
  obtain ⟨hnone, hagrees⟩ := h.agrees hfrozen s hs
  obtain ⟨r, hfile⟩ := Option.ne_none_iff_exists'.mp hnone
  have hsame : r.device = e.device ∧ r.evicted = e.evicted := by
    obtain rfl | he := hcase
    · exact ⟨(hagrees r hfile).1, (hagrees r hfile).2.1⟩
    · obtain rfl : r = e := Option.some.inj (hfile.symm.trans he)
      exact ⟨rfl, rfl⟩
  have hr : r ∈ rs := by
    rw [(Service.records_ok hrs).2]
    exact List.mem_filterMap.mpr ⟨s, hs, hfile⟩
  have hclaims := ((h.sound s hs).file r hfile).1.claims_iff.mpr (hsame.2.trans hevicted)
  exact (freeDevice_ok hd).2 r hr hclaims (hsame.1.trans hdevice)

end Records

section Actions

variable {s s' : Slot} {β : Type} {a : Act β} {b : β} {d : Path}

/-- What an action does to the entry and the record file of its volume, and whether admissions
are frozen after it. -/
inductive Slot.Turn (cfg : Config) (P : Surroundings) (σ : Service) (s s' : Slot) : Bool → Prop
  | apart (hid : s'.id = s.id) (hentry : s'.entry = s.entry)
      (hfile : s'.volume.record = s.volume.record) :
      Turn cfg P σ s s' σ.frozen
  | revise {e : Record} (he : s.Revises cfg e) (hs : s' = { s with entry := e }) :
      Turn cfg P σ s s' σ.frozen
  | write (hs : s' = s.store s.entry) : Turn cfg P σ s s' σ.frozen
  | adopt {e : Record} (he : s.Yields cfg e) (hs : s' = s.adopt e) : Turn cfg P σ s s' σ.frozen
  | doubt {e : Record} (he : s.Yields cfg e) (hs : s' = s ∨ s' = s.store e) :
      Turn cfg P σ s s' true
  | reside {device : Path} (hs : s' = s.adopt (s.resident device))
      (hallowed : Act.allowed cfg .reserve s) (hd : σ.residency cfg P s.entry = .ok device) :
      Turn cfg P σ s s' σ.frozen
  | resideDoubt {device : Path} (hs : s' = s ∨ s' = s.store (s.resident device))
      (hallowed : Act.allowed cfg .reserve s) (hd : σ.residency cfg P s.entry = .ok device) :
      Turn cfg P σ s s' true

/-- What an action changes, in the slot and in the service. -/
theorem Act.turn (hallowed : a.allowed cfg s) (hdoes : a.does cfg s b s')
    (hshares : a.shares cfg P σ s b s' σ') : s.Turn cfg P σ s' σ'.frozen := by
  cases a with
  | record =>
    obtain ⟨⟨_, rfl⟩, rfl⟩ := And.intro hdoes hshares
    exact .apart rfl rfl rfl
  | assign f =>
    obtain ⟨rfl, rfl⟩ := And.intro hdoes hshares
    exact .revise hallowed rfl
  | persist r =>
    obtain ⟨hr, rfl⟩ : r = s.entry ∧ σ' = σ := ⟨hallowed, hshares⟩
    subst hr
    obtain rfl | ⟨_, rfl⟩ := hdoes
    · exact .write rfl
    · exact .apart rfl rfl rfl
  | publish next =>
    obtain ⟨hb, rfl⟩ | ⟨hb, rfl⟩ := hshares
    · obtain ⟨_, rfl⟩ | ⟨hfail, _⟩ := hdoes
      · exact .adopt hallowed rfl
      · exact absurd hb hfail
    · obtain ⟨hok, _⟩ | ⟨_, hs⟩ := hdoes
      · exact absurd hok hb
      · exact .doubt hallowed hs
  | reserve =>
    simp only [Act.shares] at hshares
    split at hshares
    · obtain ⟨_, rfl, rfl⟩ := hshares
      exact .apart rfl rfl rfl
    · rename_i device hd
      obtain ⟨_, rfl, rfl⟩ | ⟨_, rfl, rfl⟩ | ⟨_, hs, rfl⟩ := hshares
      · exact .apart rfl rfl rfl
      · exact .reside rfl hallowed hd
      · exact .resideDoubt hs hallowed hd
  | ownerDir | removeOwner =>
    obtain rfl := hshares
    obtain rfl | ⟨_, rfl⟩ := hdoes
    · exact .apart rfl rfl rfl
    · exact .apart rfl rfl rfl
  | nbdPid device =>
    obtain ⟨⟨rfl, _⟩, _, rfl⟩ := And.intro hdoes hshares
    exact .apart rfl rfl rfl
  | disconnect device =>
    obtain rfl := hshares
    obtain rfl | ⟨_, rfl⟩ := hdoes
    · exact .apart rfl rfl rfl
    · exact .apart rfl rfl rfl
  | awaitDetached device =>
    obtain rfl := hshares
    obtain ⟨rfl | ⟨_, rfl⟩, _⟩ := hdoes
    · exact .apart rfl rfl rfl
    · exact .apart rfl rfl rfl
  | connect device client =>
    obtain rfl := hshares
    obtain rfl | ⟨_, rfl⟩ := hdoes
    · exact .apart rfl rfl rfl
    · exact .apart rfl rfl rfl
  | enterGroup p =>
    obtain rfl := hshares
    obtain rfl | ⟨_, rfl⟩ := hdoes
    · exact .apart rfl rfl rfl
    · exact .apart rfl rfl rfl
  | useDevice device | ask what β =>
    obtain ⟨rfl, rfl⟩ := And.intro hdoes hshares
    exact .apart rfl rfl rfl
  | takeImports =>
    obtain ⟨rfl, _, rfl⟩ := And.intro hdoes hshares
    exact .apart rfl rfl rfl
  | dropImports =>
    obtain ⟨rfl, rfl⟩ := And.intro hdoes hshares
    exact .apart rfl rfl rfl
  | checkDigest digest =>
    obtain ⟨rfl, _, rfl⟩ := And.intro hdoes hshares
    exact .apart rfl rfl rfl

/-- A device is reserved by the record that is saved. -/
theorem Slot.reserves_store {e : Record} (h : (s.store e).Reserves d) :
    s.Reserves d ∨ e.evicted = false ∧ e.device = d := by
  obtain ⟨r, rfl | hfile, hkept⟩ := h
  · exact .inl ⟨s.entry, .inl rfl, hkept⟩
  · obtain rfl : e = r := Option.some.inj hfile
    exact .inr hkept

/-- Or by the one that is taken over. -/
theorem Slot.reserves_adopt {e : Record} (h : (s.adopt e).Reserves d) :
    e.evicted = false ∧ e.device = d := by
  obtain ⟨r, rfl | hfile, hkept⟩ := h
  · exact hkept
  · obtain rfl : e = r := Option.some.inj hfile
    exact hkept

namespace Slot.Turn

variable {frozen : Bool}

/-- A turn keeps the name of the slot. -/
theorem id (h : s.Turn cfg P σ s' frozen) : s'.id = s.id := by
  cases h with
  | apart hid => exact hid
  | revise _ hs | write hs | adopt _ hs | reside hs => exact hs ▸ rfl
  | doubt _ hs | resideDoubt hs =>
    obtain rfl | rfl := hs
    · rfl
    · rfl

/-- Admissions stay frozen. -/
theorem not_frozen (h : s.Turn cfg P σ s' frozen) (hfrozen : frozen = false) :
    σ.frozen = false := by
  cases h with
  | doubt | resideDoubt => cases hfrozen
  | _ => exact hfrozen

/-- A record file stays. -/
theorem file (h : s.Turn cfg P σ s' frozen) (hfile : s.volume.record ≠ none) :
    s'.volume.record ≠ none := by
  cases h with
  | apart _ _ hsame => exact hsame ▸ hfile
  | revise _ hs => exact hs ▸ hfile
  | write hs | adopt _ hs | reside hs => simp [hs, Slot.store, Slot.adopt]
  | doubt _ hs | resideDoubt hs =>
    obtain rfl | rfl := hs
    · exact hfile
    · simp [Slot.store]

/-- An entry that agrees with its file stays so, unless admissions are frozen. -/
theorem agrees (h : s.Turn cfg P σ s' frozen) (hfrozen : frozen = false)
    (hs : σ.frozen = false → s.volume.record ≠ none ∧ s.Agrees) :
    s'.volume.record ≠ none ∧ s'.Agrees := by
  cases h with
  | apart _ hentry hsame =>
    rw [Slot.Agrees, hentry, hsame]
    exact hs hfrozen
  | revise he hs' =>
    obtain ⟨hfile, hagrees⟩ := hs hfrozen
    subst hs'
    refine ⟨hfile, fun r hr => ?_⟩
    obtain ⟨hdevice, hevicted, hreleased⟩ := hagrees r hr
    exact ⟨hdevice.trans he.device.symm, hevicted.trans he.evicted.symm,
      hreleased.trans he.released.symm⟩
  | write hs' | adopt _ hs' | reside hs' =>
    subst hs'
    refine ⟨Option.some_ne_none _, fun r hr => ?_⟩
    cases hr
    exact ⟨rfl, rfl, rfl⟩
  | doubt | resideDoubt => cases hfrozen

/-- Only a residency reserves a device that was not reserved. -/
theorem reserves (h : s.Turn cfg P σ s' frozen) (hd : s'.Reserves d) :
    s.Reserves d ∨ s.entry.evicted = true ∧ σ.residency cfg P s.entry = .ok d := by
  obtain ⟨r, hcase, hevicted, hdevice⟩ := hd
  cases h with
  | apart _ hentry hsame =>
    rw [hentry, hsame] at hcase
    exact .inl ⟨r, hcase, hevicted, hdevice⟩
  | revise he hs =>
    subst hs
    refine .inl ?_
    obtain rfl | hfile := hcase
    · exact ⟨s.entry, .inl rfl, he.evicted.symm.trans hevicted, he.device.symm.trans hdevice⟩
    · exact ⟨r, .inr hfile, hevicted, hdevice⟩
  | write hs =>
    subst hs
    obtain hs | hkept := Slot.reserves_store ⟨r, hcase, hevicted, hdevice⟩
    · exact .inl hs
    · exact .inl ⟨s.entry, .inl rfl, hkept⟩
  | adopt he hs =>
    subst hs
    have hkept := Slot.reserves_adopt ⟨r, hcase, hevicted, hdevice⟩
    cases he.evicted.symm.trans hkept.1
  | doubt he hs =>
    obtain rfl | rfl := hs
    · exact .inl ⟨r, hcase, hevicted, hdevice⟩
    · obtain hs | hkept := Slot.reserves_store ⟨r, hcase, hevicted, hdevice⟩
      · exact .inl hs
      · cases he.evicted.symm.trans hkept.1
  | reside hs hallowed hres =>
    subst hs
    have hkept := Slot.reserves_adopt ⟨r, hcase, hevicted, hdevice⟩
    exact .inr ⟨hallowed.1, hkept.2 ▸ hres⟩
  | resideDoubt hs hallowed hres =>
    obtain rfl | rfl := hs
    · exact .inl ⟨r, hcase, hevicted, hdevice⟩
    · obtain hs | hkept := Slot.reserves_store ⟨r, hcase, hevicted, hdevice⟩
      · exact .inl hs
      · exact .inr ⟨hallowed.1, hkept.2 ▸ hres⟩

end Slot.Turn

end Actions

section Admissions

variable {r : Record} {q : Request} {o : Outcomes} {res : Result Unit} {d : Path}

/-- Only valid sizes are charged. -/
theorem addRecord_validSize {u next : Usage} {size : ℕ} {resident retained : Bool}
    (h : u.addRecord size resident retained = .ok next) : validSize size = .ok () := by
  obtain ⟨⟨⟩, hsize, _⟩ := bind_ok h
  exact hsize

/-- The record of a new entry. -/
structure Record.Fresh (cfg : Config) (q : Request) (r : Record) : Prop where
  id : r.id = q.volumeId
  sandbox : r.sandbox.parent = some cfg.engineRoot
  device : r.device ∈ cfg.devices
  size : validSize r.logicalBytes = .ok ()
  gcAfter : r.gcAfter = none
  prepared : r.prepared = false
  idle : r.busy = false
  evicted : r.evicted = r.deleted
  released : r.logicalReleased = false
  reclaimed : r.reclaimed = false

/-- A fresh record is in order. -/
theorem Record.Fresh.sound (h : r.Fresh cfg q) : r.Sound cfg where
  sandbox := h.sandbox
  device := h.device
  size := h.size
  gcAfter := by simp [h.gcAfter]
  used hbusy := absurd (h.idle.symm.trans hbusy) Bool.false_ne_true
  evicted he := ⟨.inr (h.evicted ▸ he), h.idle⟩
  released hr := absurd (h.released.symm.trans hr) Bool.false_ne_true
  reclaimed hr := absurd (h.reclaimed.symm.trans hr) Bool.false_ne_true

/-- The record of a retirement is fresh and deleted. -/
theorem Service.retirement_ok (h : Service.retirement cfg q = .ok r) :
    r.Fresh cfg q ∧ r.deleted = true := by
  unfold Service.retirement at h
  split at h
  · cases h
  rename_i bytes device _ _
  obtain ⟨used, hused, h⟩ := bind_ok h
  by_cases hparent : q.sandboxDir.parent = some cfg.engineRoot
  · simp only [hparent, ne_eq, not_true_eq_false, if_false] at h
    split at h
    · cases h
    rename_i device' hdevice
    obtain rfl := Except.ok.inj h
    exact ⟨⟨rfl, hparent, List.mem_of_head? hdevice, addRecord_validSize hused, rfl, rfl, rfl, rfl,
      rfl, rfl⟩, rfl⟩
  · rw [if_pos hparent] at h
    cases h

/-- What the checks of a residency establish. -/
theorem Service.residency_ok (h : σ.residency cfg P r = .ok d) :
    σ.frozen = false ∧ ∃ rs used, σ.records P = .ok rs ∧
      σ.usage cfg (rs.filter fun other => other.id ≠ r.id) = .ok used ∧
      cfg.limits.admission used r.logicalBytes = .ok () ∧ freeDevice cfg rs = .ok d := by
  unfold Service.residency at h
  obtain ⟨hfrozen, h⟩ := refuse_ok h
  obtain ⟨rs, hrs, h⟩ := bind_ok h
  obtain ⟨used, hused, h⟩ := bind_ok h
  obtain ⟨⟨⟩, hfits, h⟩ := bind_ok h
  exact ⟨by simpa using hfrozen, rs, used, hrs, hused, hfits, h⟩

/-- Only valid sizes are admitted. -/
theorem admission_validSize {l : Limits} {used : Usage} {size : ℕ}
    (h : l.admission used size = .ok ()) : validSize size = .ok () := by
  unfold Limits.admission at h
  obtain ⟨_, h⟩ := refuse_ok h
  obtain ⟨next, hnext, _⟩ := bind_ok h
  exact addRecord_validSize hnext

/-- What the checks of a new volume establish before they look at its device. -/
theorem Service.admissionDevice_ok {image device : Path}
    (h : σ.admissionDevice cfg P q o = .ok (image, device)) :
    q.sandboxDir.parent = some cfg.engineRoot ∧ ∃ rs used, σ.records P = .ok rs ∧
      σ.usage cfg rs = .ok used ∧ cfg.limits.admission used o.bytes = .ok () ∧
      freeDevice cfg rs = .ok device := by
  unfold Service.admissionDevice at h
  obtain ⟨hparent, h⟩ := refuse_ok h
  obtain ⟨⟨⟩, _, h⟩ := bind_ok h
  obtain ⟨_, h⟩ := refuse_ok h
  obtain ⟨image', _, h⟩ := bind_ok h
  obtain ⟨candidates, _, h⟩ := bind_ok h
  obtain ⟨⟨⟩, _, h⟩ := bind_ok h
  obtain ⟨⟨⟩, _, h⟩ := bind_ok h
  obtain ⟨_, h⟩ := refuse_ok h
  obtain ⟨_, h⟩ := refuse_ok h
  obtain ⟨rs, hrs, h⟩ := bind_ok h
  obtain ⟨_, h⟩ := refuse_ok h
  obtain ⟨used, hused, h⟩ := bind_ok h
  obtain ⟨⟨⟩, hfits, h⟩ := bind_ok h
  obtain ⟨device', hdevice, h⟩ := bind_ok h
  obtain ⟨_, rfl⟩ := Prod.mk.inj (Except.ok.inj h)
  exact ⟨by simpa using hparent, rs, used, hrs, hused, hfits, hdevice⟩

/-- What the checks of a new volume establish. -/
theorem Service.volumeAdmission_ok (h : σ.volumeAdmission cfg P q o = .ok r) :
    r.Fresh cfg q ∧ r.deleted = false ∧ ∃ rs used, σ.records P = .ok rs ∧
      σ.usage cfg rs = .ok used ∧ cfg.limits.admission used r.logicalBytes = .ok () ∧
      freeDevice cfg rs = .ok r.device := by
  unfold Service.volumeAdmission at h
  obtain ⟨⟨image, device⟩, hdevice, h⟩ := bind_ok h
  obtain ⟨attached, _, h⟩ := bind_ok h
  obtain ⟨_, h⟩ := refuse_ok h
  obtain rfl := Except.ok.inj h
  obtain ⟨hparent, rs, used, hrs, hused, hfits, hfree⟩ := Service.admissionDevice_ok hdevice
  exact ⟨⟨rfl, hparent, (freeDevice_ok hfree).1, admission_validSize hfits, rfl, rfl, rfl, rfl, rfl,
    rfl⟩, rfl, rs, used, hrs, hused, hfits, hfree⟩

/-- The table lookup leaves the table alone, or all checks of an admission have been passed. -/
theorem Service.entry_cases (h : σ.entry cfg P q o = (res, σ')) :
    (σ' = σ ∧ (res = .ok () → σ.knows q.volumeId = true ∧
      (q.operation = .prepare → σ.frozen = false))) ∨
    (validId q.volumeId = true ∧ σ.frozen = false ∧ σ.knows q.volumeId = false ∧
      ∃ r, (q.operation = .retire ∧ Service.retirement cfg q = .ok r ∨
          q.operation = .prepare ∧ σ.volumeAdmission cfg P q o = .ok r) ∧
        σ.insert r o = (res, σ')) := by
  have hstay {e : String} (he : (Except.error e, σ) = (res, σ')) :
      σ' = σ ∧ (res = .ok () → σ.knows q.volumeId = true ∧
        (q.operation = .prepare → σ.frozen = false)) := by
    obtain ⟨rfl, rfl⟩ := Prod.mk.inj he
    exact ⟨rfl, fun hres => by cases hres⟩
  unfold Service.entry at h
  by_cases hvalid : q.version ≠ 1 ∨ ¬ validId q.volumeId
  · rw [if_pos hvalid] at h
    exact .inl (hstay h)
  rw [if_neg hvalid] at h
  by_cases hfrozen : (q.operation = .prepare ∨ q.operation = .retire) ∧ σ.frozen = true
  · rw [if_pos hfrozen] at h
    exact .inl (hstay h)
  rw [if_neg hfrozen] at h
  have hfrozen' (hq : q.operation = .prepare ∨ q.operation = .retire) : σ.frozen = false := by
    by_contra hf
    exact hfrozen ⟨hq, by simpa using hf⟩
  by_cases hknows : σ.knows q.volumeId = true
  · rw [if_pos hknows] at h
    obtain ⟨rfl, rfl⟩ := Prod.mk.inj h
    exact .inl ⟨rfl, fun _ => ⟨hknows, fun hq => hfrozen' (.inl hq)⟩⟩
  rw [if_neg hknows] at h
  have hvalid : validId q.volumeId = true := by
    by_contra hv
    exact hvalid (.inr hv)
  have hknows : σ.knows q.volumeId = false := by simpa using hknows
  by_cases hretire : q.operation = .retire
  · rw [if_pos hretire] at h
    split at h
    · exact .inl (hstay h)
    · rename_i r hr
      exact .inr ⟨hvalid, hfrozen' (.inr hretire), hknows, r, .inl ⟨hretire, hr⟩, h⟩
  rw [if_neg hretire] at h
  by_cases hprepare : q.operation = .prepare
  · rw [if_pos hprepare] at h
    split at h
    · exact .inl (hstay h)
    · rename_i r hr
      exact .inr ⟨hvalid, hfrozen' (.inl hprepare), hknows, r, .inr ⟨hprepare, hr⟩, h⟩
  · rw [if_neg hprepare] at h
    exact .inl (hstay h)

end Admissions

section Table

variable {id : String} {slot s : Slot} {t : Thread} {job : Option (VolumeOp Reply)}

/-- A pass changes its own slot only. -/
theorem Service.slots_advance :
    (σ.advance id slot job).slots = Table.revise Slot.id id (fun _ => slot) σ.slots := by
  rw [Service.slots, Service.advance, Table.revise, Table.revise, Service.slots, List.map_map,
    List.map_map]
  apply List.map_congr_left
  intro t _
  simp only [Function.comp_apply]
  by_cases ht : t.id = id
  · rw [if_pos ht, if_pos (show t.slot.id = id from ht)]
  · rw [if_neg ht, if_neg (show t.slot.id ≠ id from ht)]

/-- The other threads stay. -/
theorem Service.mem_advance (h : t ∈ (σ.advance id slot job).threads) :
    t = ⟨slot, job⟩ ∨ t ∈ σ.threads := by
  obtain ⟨u, hu, rfl⟩ := List.mem_map.mp h
  by_cases hid : u.id = id
  · exact .inl (if_pos hid)
  · rw [if_neg hid]
    exact .inr hu

theorem mem_revise_slots {slots : List Slot}
    (h : s ∈ Table.revise Slot.id id (fun _ => slot) slots) : s = slot ∨ s ∈ slots ∧ s.id ≠ id := by
  obtain ⟨u, hu, rfl⟩ := List.mem_map.mp h
  by_cases hid : u.id = id
  · exact .inl (if_pos hid)
  · rw [if_neg hid]
    exact .inr ⟨hu, hid⟩

/-- A thread's slot is a slot of the service. -/
theorem Service.mem_slots (h : Table.row Thread.id id σ.threads = some ⟨slot, job⟩) :
    slot ∈ σ.slots ∧ slot.id = id :=
  ⟨List.mem_map_of_mem (Table.row_mem h).1, (Table.row_mem h).2⟩

/-- A volume is known if it has a slot. -/
theorem Service.knows_iff : σ.knows id = true ↔ ∃ s ∈ σ.slots, s.id = id := by
  rw [Service.knows, List.any_eq_true]
  constructor
  · rintro ⟨t, ht, hid⟩
    exact ⟨t.slot, List.mem_map_of_mem ht, of_decide_eq_true hid⟩
  · rintro ⟨s, hs, hid⟩
    obtain ⟨t, ht, rfl⟩ := List.mem_map.mp hs
    exact ⟨t, ht, decide_eq_true hid⟩

/-- A pass that changes no slot leaves all of them. -/
theorem Service.slots_advance_self (h : Table.row Thread.id id σ.threads = some ⟨slot, job⟩)
    (hkeyed : Table.Keyed Slot.id σ.slots) {job' : Option (VolumeOp Reply)} :
    (σ.advance id slot job').slots = σ.slots := by
  obtain ⟨hmem, hid⟩ := Service.mem_slots h
  rw [Service.slots_advance, Table.revise]
  conv_rhs => rw [← List.map_id σ.slots]
  apply List.map_congr_left
  intro u hu
  split
  · rename_i hu'
    exact List.inj_on_of_nodup_map hkeyed hmem hu (hid.trans hu'.symm)
  · rfl

end Table

/-- An action of a volume changes nothing else in the supervisor. -/
theorem Act.shares_rest {β : Type} {a : Act β} {b : β} {s s' : Slot}
    (h : a.shares cfg P σ s b s' σ') :
    σ' = { σ with frozen := σ'.frozen, imports := σ'.imports } := by
  cases a with
  | publish next =>
    obtain ⟨_, rfl⟩ | ⟨_, rfl⟩ := h
    · rfl
    · rfl
  | reserve =>
    simp only [Act.shares] at h
    split at h
    · obtain ⟨_, _, rfl⟩ := h
      rfl
    · obtain ⟨_, _, rfl⟩ | ⟨_, _, rfl⟩ | ⟨_, _, rfl⟩ := h
      · rfl
      · rfl
      · rfl
  | takeImports =>
    obtain ⟨_, rfl⟩ := h
    rfl
  | nbdPid device | checkDigest digest =>
    obtain ⟨_, rfl⟩ := h
    rfl
  | record | assign | persist | ownerDir | removeOwner | disconnect | awaitDetached | connect
  | useDevice | enterGroup | dropImports | ask =>
    obtain rfl := h
    rfl

/-- An action that only looks has no device but that of the record. -/
theorem Act.looksAt.device {β : Type} {a : Act β} {r : Record} {d : Path} (h : a.looksAt r)
    (hd : d ∈ a.device) : r.evicted = false ∧ r.device = d := by
  cases a with
  | nbdPid device | useDevice device =>
    cases hd
    exact h
  | ask what β => cases hd
  | _ => exact h.elim

/-- An action that only looks changes nothing. -/
theorem Act.looksAt.still {β : Type} {a : Act β} {b : β} {r : Record} {s s' : Slot}
    (h : a.looksAt r) (hdoes : a.does cfg s b s') (hshares : a.shares cfg P σ s b s' σ') :
    s' = s ∧ σ' = σ := by
  cases a with
  | nbdPid device => exact ⟨hdoes.1, hshares.2⟩
  | useDevice device => exact ⟨hdoes, hshares⟩
  | ask what β => exact ⟨hdoes, hshares⟩
  | _ => exact h.elim

/-- An action of an image changes nothing else in the supervisor. -/
theorem ImageAct.shares_rest {β : Type} {a : ImageAct β} {b : β} {s s' : Image}
    (h : a.shares cfg P σ s b s' σ') : σ' = { σ with projectImages := σ'.projectImages } := by
  cases a with
  | tryImages =>
    obtain ⟨_, _, rfl⟩ | ⟨_, rfl⟩ | ⟨_, rfl⟩ := h
    · rfl
    · rfl
    · rfl
  | admission c | barrier c =>
    obtain ⟨rfl, _⟩ := h
    rfl
  | _ =>
    obtain rfl := h
    rfl

/-- The volume of a new entry. -/
def Slot.admitted (r : Record) (o : Outcomes) : Slot :=
  ⟨⟨r.id, if o.stored then some r else none, false, none, []⟩, r⟩

namespace Service.Sound

variable {id : String} {slot slot' s : Slot} {job job' : Option (VolumeOp Reply)} {q : Request}
  {o : Outcomes} {r : Record} {res : Result Unit}

/-- What the supervisor does outside of its table. -/
theorem of_same (h : σ.Sound cfg) (hthreads : σ'.threads = σ.threads)
    (hprobes : ∀ p ∈ σ'.probes,
      Op.Ends (probeContract p.snapshot) (fun _ _ => True) p.job ())
    (hdebris : σ'.debris = σ.debris) (hwaiting : ∀ q ∈ σ'.waiting, q ∈ σ.waiting)
    (hfrozen : σ'.frozen = σ.frozen) : σ'.Sound cfg := by
  have hslots : σ'.slots = σ.slots := by rw [Service.slots, hthreads, Service.slots]
  exact
    { keyed := hslots ▸ h.keyed
      valid := hslots ▸ h.valid
      debris := hdebris ▸ h.debris
      sound := hslots ▸ h.sound
      jobs := hthreads ▸ h.jobs
      probes := hprobes
      waiting := fun q hq => hslots ▸ h.waiting q (hwaiting q hq)
      agrees := fun hf => hslots ▸ h.agrees (hfrozen ▸ hf)
      exclusive := hslots ▸ h.exclusive }

/-- The slot of a thread is determined by its volume. -/
theorem eq_of_id (h : σ.Sound cfg) (ht : Table.row Thread.id id σ.threads = some ⟨slot, job⟩)
    (hs : s ∈ σ.slots) (hid : s.id = id) : s = slot := by
  obtain ⟨hmem, hslot⟩ := Service.mem_slots ht
  exact List.inj_on_of_nodup_map h.keyed hs hmem (hid.trans hslot.symm)

/-- A volume gets a job, or its job ends. -/
theorem advance (h : σ.Sound cfg) (ht : Table.row Thread.id id σ.threads = some ⟨slot, job⟩)
    (hjob : ∀ p ∈ job', Op.Ends (volumeContract cfg) (fun _ _ => True) p slot) :
    (σ.advance id slot job').Sound cfg := by
  have hslots : (σ.advance id slot job').slots = σ.slots :=
    Service.slots_advance_self ht h.keyed
  exact
    { keyed := hslots ▸ h.keyed
      valid := hslots ▸ h.valid
      debris := h.debris
      sound := hslots ▸ h.sound
      jobs := fun t ht => by
        rcases Service.mem_advance ht with rfl | ht
        · exact hjob
        · exact h.jobs t ht
      probes := h.probes
      waiting := hslots ▸ h.waiting
      agrees := fun hf => hslots ▸ h.agrees hf
      exclusive := hslots ▸ h.exclusive }

/-- A new entry. -/
theorem insert (h : σ.Sound cfg) (hsaved : o.saved = .ok () → o.stored = true)
    (hvalid : validId q.volumeId = true) (hfrozen : σ.frozen = false)
    (hknows : σ.knows q.volumeId = false) (hfresh : r.Fresh cfg q)
    (hdevice : r.evicted = false → ∀ s ∈ σ.slots, ¬ s.Reserves r.device)
    (hinsert : σ.insert r o = (res, σ')) : σ'.Sound cfg ∧ (res = .ok () →
      ∃ s ∈ σ'.slots, s.id = q.volumeId ∧ s.volume.record ≠ none) := by
  unfold Service.insert at hinsert
  cases hdirectory : o.directory with
  | error e =>
    rw [hdirectory] at hinsert
    obtain ⟨rfl, rfl⟩ := Prod.mk.inj hinsert
    refine ⟨{ h with debris := fun id hid => ?_ }, fun hres => by cases hres⟩
    rcases List.mem_cons.mp hid with rfl | hid
    · rw [hfresh.id]
      exact hvalid
    · exact h.debris id (List.mem_filter.mp hid).1
  | ok u =>
    rw [hdirectory] at hinsert
    obtain ⟨rfl, hσ⟩ := Prod.mk.inj hinsert
    have hthreads : σ'.threads = σ.threads ++ [⟨Slot.admitted r o, none⟩] := hσ ▸ rfl
    have hslots : σ'.slots = σ.slots ++ [Slot.admitted r o] := by
      rw [Service.slots, hthreads, List.map_append]
      rfl
    have hnew : ∀ s ∈ σ.slots, s.id ≠ r.id := fun s hs hid => by
      have := Service.knows_iff.mpr ⟨s, hs, hid.trans hfresh.id⟩
      rw [hknows] at this
      cases this
    have hreserves {d : Path} (hd : (Slot.admitted r o).Reserves d) :
        r.evicted = false ∧ r.device = d := by
      obtain ⟨e, rfl | hfile, hkept⟩ := hd
      · exact hkept
      · have hfile : (if o.stored then some r else none) = some e := hfile
        split at hfile
        · exact Option.some.inj hfile ▸ hkept
        · cases hfile
    have hsound : (Slot.admitted r o).Sound cfg := by
      refine ⟨hfresh.sound, rfl, fun e he => ?_, fun _ => hfresh.prepared,
        fun d hd => (by cases hd), fun _ e he p hp => ?_⟩
      · have he : (if o.stored then some r else none) = some e := he
        split at he
        · obtain rfl := Option.some.inj he
          exact ⟨hfresh.sound, .refl _⟩
        · cases he
      · have hprocesses : e.processes = [] := by
          rcases he with rfl | he
          · exact Record.Sound.processes_eq_nil hfresh.idle
          · have he : (if o.stored then some r else none) = some e := he
            split at he
            · obtain rfl := Option.some.inj he
              exact Record.Sound.processes_eq_nil hfresh.idle
            · cases he
        rw [hprocesses] at hp
        cases hp
    refine ⟨?_, fun hres => ?_⟩
    · exact
        { keyed := by
            rw [hslots]
            exact h.keyed.append (Table.row_eq_none.mpr hnew)
          valid := fun s hs => by
            rw [hslots] at hs
            rcases Table.mem_snoc.mp hs with hs | rfl
            · exact h.valid s hs
            · exact (congrArg validId hfresh.id).trans hvalid
          debris := fun id hid => by
            rw [← hσ] at hid
            exact h.debris id (List.mem_filter.mp hid).1
          sound := fun s hs => by
            rw [hslots] at hs
            rcases Table.mem_snoc.mp hs with hs | rfl
            · exact h.sound s hs
            · exact hsound
          jobs := fun t ht p hp => by
            rw [hthreads] at ht
            rcases Table.mem_snoc.mp ht with ht | rfl
            · exact h.jobs t ht p hp
            · cases hp
          probes := fun p hp => by
            rw [← hσ] at hp
            exact h.probes p hp
          waiting := fun q hq hprepare => by
            rw [← hσ] at hq
            obtain ⟨s, hs, hkept⟩ := h.waiting q hq hprepare
            exact ⟨s, hslots ▸ Table.mem_snoc.mpr (.inl hs), hkept⟩
          agrees := fun hf s hs => by
            rw [hslots] at hs
            rw [← hσ] at hf
            rcases Table.mem_snoc.mp hs with hs | rfl
            · exact h.agrees hfrozen s hs
            · have hok : o.saved = .ok () := by
                cases hsaved : o.saved with
                | ok u => rfl
                | error e =>
                  rw [hsaved] at hf
                  simp at hf
              have hfile : (Slot.admitted r o).volume.record = some r :=
                if_pos (hsaved hok)
              refine ⟨by simp [hfile], fun e he => ?_⟩
              rw [hfile] at he
              obtain rfl := Option.some.inj he
              exact ⟨rfl, rfl, rfl⟩
          exclusive := fun s hs t ht d hsd htd => by
            rw [hslots] at hs ht
            rcases Table.mem_snoc.mp hs with hs | rfl <;> rcases Table.mem_snoc.mp ht with ht | rfl
            · exact h.exclusive s hs t ht d hsd htd
            · obtain ⟨hevicted, rfl⟩ := hreserves htd
              exact absurd hsd (hdevice hevicted s hs)
            · obtain ⟨hevicted, rfl⟩ := hreserves hsd
              exact absurd htd (hdevice hevicted t ht)
            · rfl }
    · refine ⟨Slot.admitted r o, hslots ▸ Table.mem_snoc.mpr (.inr rfl), hfresh.id, ?_⟩
      have hfile : (Slot.admitted r o).volume.record = some r := if_pos (hsaved hres)
      simp [hfile]

/-- A table lookup. -/
theorem entry (h : σ.Sound cfg) (hsaved : o.saved = .ok () → o.stored = true)
    (hentry : σ.entry cfg P q o = (res, σ')) : σ'.Sound cfg ∧ (res = .ok () →
      q.operation = .prepare → ∃ s ∈ σ'.slots, s.id = q.volumeId ∧ s.volume.record ≠ none) := by
  obtain ⟨rfl, hres⟩ | ⟨hvalid, hfrozen, hknows, r, hr, hinsert⟩ := Service.entry_cases hentry
  · refine ⟨h, fun hok hprepare => ?_⟩
    obtain ⟨hknows, hfrozen⟩ := hres hok
    obtain ⟨s, hs, hid⟩ := Service.knows_iff.mp hknows
    exact ⟨s, hs, hid, (h.agrees (hfrozen hprepare) s hs).1⟩
  · obtain ⟨hfresh, hdevice⟩ : r.Fresh cfg q ∧
        (r.evicted = false → ∀ s ∈ σ.slots, ¬ s.Reserves r.device) := by
      rcases hr with ⟨-, hr⟩ | ⟨-, hr⟩
      · obtain ⟨hfresh, hdeleted⟩ := Service.retirement_ok hr
        refine ⟨hfresh, fun hevicted => ?_⟩
        rw [hfresh.evicted, hdeleted] at hevicted
        cases hevicted
      · obtain ⟨hfresh, -, rs, used, hrs, -, -, hfree⟩ := Service.volumeAdmission_ok hr
        exact ⟨hfresh, fun _ => h.not_reserves hfrozen hrs hfree⟩
    obtain ⟨hsound, hmem⟩ := h.insert hsaved hvalid hfrozen hknows hfresh hdevice hinsert
    exact ⟨hsound, fun hres _ => hmem hres⟩

/-- An action of an operation. -/
theorem act (h : σ.Sound cfg) {β : Type} {a : Act β} {b : β} {next : β → VolumeOp Reply}
    (ht : Table.row Thread.id id σ.threads = some ⟨slot, some (.act a next)⟩)
    (hdoes : a.does cfg slot b slot') (hshares : a.shares cfg P σ slot b slot' σ') :
    (σ'.advance id slot' (some (next b))).Sound cfg := by
  obtain ⟨hmem, hid⟩ := Service.mem_slots ht
  obtain ⟨hallowed, hnext⟩ := h.jobs _ (Table.row_mem ht).1 _ rfl
  have hturn := Act.turn hallowed hdoes hshares
  have hrest := Act.shares_rest hshares
  have hslots : (σ'.advance id slot' (some (next b))).slots =
      Table.revise Slot.id id (fun _ => slot') σ.slots := by
    rw [Service.slots_advance, hrest]
    rfl
  have hid' : slot'.id = id := hturn.id.trans hid
  have hcases {s : Slot} (hs : s ∈ (σ'.advance id slot' (some (next b))).slots) :
      s = slot' ∨ s ∈ σ.slots ∧ s.id ≠ id := by
    rw [hslots] at hs
    exact mem_revise_slots hs
  have hkept {s : Slot} (hs : s ∈ σ.slots) :
      ∃ s' ∈ (σ'.advance id slot' (some (next b))).slots, s'.id = s.id ∧
        (s.volume.record ≠ none → s'.volume.record ≠ none) := by
    rw [hslots]
    by_cases hsid : s.id = id
    · obtain rfl := h.eq_of_id ht hs hsid
      exact ⟨slot', List.mem_map.mpr ⟨s, hs, if_pos hsid⟩, hturn.id, hturn.file⟩
    · exact ⟨s, List.mem_map.mpr ⟨s, hs, if_neg hsid⟩, rfl, fun hfile => hfile⟩
  -- a device that is newly reserved was free
  have hother {s : Slot} (hs : s ∈ σ.slots) (hsid : s.id ≠ id) {d : Path} (hd : slot'.Reserves d)
      (hsd : s.Reserves d) : False := by
    rcases hturn.reserves hd with hold | ⟨-, hres⟩
    · exact hsid ((h.exclusive s hs slot hmem d hsd hold).trans hid)
    · obtain ⟨hfrozen, rs, used, hrs, -, -, hfree⟩ := Service.residency_ok hres
      exact h.not_reserves hfrozen hrs hfree s hs hsd
  exact
    { keyed := by
        show ((σ'.advance id slot' (some (next b))).slots.map Slot.id).Nodup
        have hids : (Table.revise Slot.id id (fun _ => slot') σ.slots).map Slot.id =
            σ.slots.map Slot.id := by
          rw [Table.revise, List.map_map]
          refine List.map_congr_left fun s _ => ?_
          simp only [Function.comp_apply]
          split
          · rename_i hsid
            exact hid'.trans hsid.symm
          · rfl
        rw [hslots, hids]
        exact h.keyed
      valid := fun s hs => by
        rcases hcases hs with rfl | ⟨hs, -⟩
        · exact hturn.id ▸ h.valid slot hmem
        · exact h.valid s hs
      debris := fun id hid => h.debris id (by rw [hrest] at hid; exact hid)
      sound := fun s hs => by
        rcases hcases hs with rfl | ⟨hs, -⟩
        · exact (h.sound slot hmem).does hallowed hdoes
        · exact h.sound s hs
      jobs := fun t ht' p hp => by
        rcases Service.mem_advance ht' with rfl | ht'
        · obtain rfl := Option.some.inj hp
          exact hnext b slot' hdoes
        · rw [hrest] at ht'
          exact h.jobs t ht' p hp
      probes := fun p hp => by
        rw [hrest] at hp
        exact h.probes p hp
      waiting := fun q hq hprepare => by
        rw [hrest] at hq
        obtain ⟨s, hs, hsid, hfile⟩ := h.waiting q hq hprepare
        obtain ⟨s', hs', hsame, hfile'⟩ := hkept hs
        exact ⟨s', hs', hsame.trans hsid, hfile' hfile⟩
      agrees := fun hf s hs => by
        have hf : σ'.frozen = false := hf
        rcases hcases hs with rfl | ⟨hs, -⟩
        · exact hturn.agrees hf fun hfrozen => h.agrees hfrozen slot hmem
        · exact h.agrees (hturn.not_frozen hf) s hs
      exclusive := fun s hs t ht' d hsd htd => by
        rcases hcases hs with hs | ⟨hs, hsid⟩ <;> rcases hcases ht' with ht' | ⟨ht', htid⟩
        · rw [hs, ht']
        · exact (hother ht' htid (hs ▸ hsd) htd).elim
        · exact (hother hs hsid (ht' ▸ htd) hsd).elim
        · exact h.exclusive s hs t ht' d hsd htd }

end Service.Sound

end AgentHouse.Host
