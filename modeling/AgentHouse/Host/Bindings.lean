import AgentHouse.Host.System

/-!
# What an operation keeps true of its volume

A record that the supervisor holds or has written is sound: its fields pass the checks with
which `open` reads it back. The record file and the entry may differ after a failed save, but
they agree on the volume, and an attachment is one that the file accounts for. The contract of
an operation says which actions keep this; each operation of the source keeps its contract.
-/

namespace AgentHouse.Host

/-- What the supervisor keeps true of a record. -/
structure Record.Sound (cfg : Config) (r : Record) : Prop where
  sandbox : r.sandbox.parent = some cfg.engineRoot
  device : r.device ∈ cfg.devices
  size : validSize r.logicalBytes = .ok ()
  gcAfter : r.gcAfter.all validId = true
  used : r.busy = true → r.prepared = true
  evicted : r.evicted = true → (r.prepared = true ∨ r.deleted = true) ∧ r.busy = false
  released : r.logicalReleased = true → r.evicted = true ∧ r.deleted = true
  reclaimed : r.reclaimed = true → r.logicalReleased = true

/-- Two versions of one volume's record. -/
structure Record.Same (r e : Record) : Prop where
  id : r.id = e.id
  logicalBytes : r.logicalBytes = e.logicalBytes
  image : r.image = e.image
  reclaimed : r.reclaimed = true → e.reclaimed = true

theorem Record.Same.refl (r : Record) : r.Same r := ⟨rfl, rfl, rfl, fun h => h⟩

/-- The record accounts for an attachment to the device. -/
structure Record.Attached (r : Record) (device : Path) : Prop where
  evicted : r.evicted = false
  prepared : r.prepared = true
  device : r.device = device

/-- What an operation keeps true of the volume that it holds. -/
structure Slot.Sound (cfg : Config) (s : Slot) : Prop where
  entry : s.entry.Sound cfg
  id : s.entry.id = s.volume.id
  file : ∀ r ∈ s.volume.record, r.Sound cfg ∧ r.Same s.entry
  missing : s.volume.record = none → s.entry.prepared = false
  link : ∀ d ∈ s.volume.link, s.entry.device = d ∧ s.entry.evicted = false ∧
    s.entry.prepared = true ∧ ∃ r ∈ s.volume.record, r.Attached d
  group : cfg.resources = true → ∀ r, r = s.entry ∨ r ∈ s.volume.record →
    ∀ p ∈ r.processes, p ∈ s.volume.group

/-- An assignment to the entry that leaves the volume's reservations alone. -/
structure Slot.Revises (cfg : Config) (s : Slot) (e : Record) : Prop where
  sound : e.Sound cfg
  same : s.entry.Same e
  device : e.device = s.entry.device
  evicted : e.evicted = s.entry.evicted
  released : e.logicalReleased = s.entry.logicalReleased
  missing : s.volume.record = none → e.prepared = false
  link : s.volume.link ≠ none → e.prepared = true
  group : cfg.resources = true → ∀ p ∈ e.processes, p ∈ s.volume.group

/-- A record that gives up the volume's device. -/
structure Slot.Yields (cfg : Config) (s : Slot) (e : Record) : Prop where
  sound : e.Sound cfg
  same : e.Same s.entry
  reclaimed : e.reclaimed = s.entry.reclaimed
  device : e.device = s.entry.device
  evicted : e.evicted = true
  released : s.entry.logicalReleased = true → e.logicalReleased = true
  prepared : e.prepared = s.entry.prepared
  link : s.volume.link = none
  processes : e.processes = []

/-- The volume keeps a device. -/
def Slot.Holds (s : Slot) (device : Path) : Prop :=
  s.entry.evicted = false ∧ s.entry.device = device

/-- When an action is allowed. -/
def Act.allowed (cfg : Config) {β : Type} (a : Act β) (s : Slot) : Prop :=
  match a with
  | .assign f => s.Revises cfg (f s.entry)
  | .persist r => r = s.entry
  | .publish next => s.Yields cfg next
  | .reserve => s.entry.evicted = true ∧ s.entry.prepared = true ∧ s.entry.deleted = false
  | .connect device _ => s.Holds device ∧ s.entry.prepared = true ∧
      ∃ r ∈ s.volume.record, r.Attached device
  | .nbdPid device | .disconnect device | .awaitDetached device | .useDevice device =>
      s.Holds device
  | _ => True

/-- The contract of operations on volumes. -/
def volumeContract (cfg : Config) : Contract Act Slot where
  does a s b s' := a.does cfg s b s'
  allowed a s := a.allowed cfg s

/-- The action looks at the device of a resident record, or at nothing that is modelled. -/
def Act.looksAt (r : Record) {β : Type} : Act β → Prop
  | .nbdPid device | .useDevice device => r.evicted = false ∧ r.device = device
  | .ask _ _ => True
  | _ => False

/-- The contract of a health probe. It owns no volume, so any answer may come. -/
def probeContract (r : Record) : Contract Act Unit where
  does _ _ _ _ := True
  allowed a _ := a.looksAt r

variable {cfg : Config} {s s' : Slot}

theorem Record.busy_stopped (r : Record) : r.stopped.busy = r.desired := by
  simp [Record.busy, Record.stopped]

/-- A record whose processes are forgotten is in order. -/
theorem Record.Sound.stopped {r : Record} (h : r.Sound cfg) : r.stopped.Sound cfg where
  sandbox := h.sandbox
  device := h.device
  size := h.size
  gcAfter := h.gcAfter
  used hbusy := by
    rw [r.busy_stopped] at hbusy
    exact h.used (by simp [Record.busy, hbusy])
  evicted he := by
    refine ⟨(h.evicted he).1, ?_⟩
    have hidle := (h.evicted he).2
    rw [r.busy_stopped]
    simp only [Record.busy, Bool.or_eq_false_iff] at hidle
    exact hidle.1.1.1
  released := h.released
  reclaimed := h.reclaimed

/-- So is one that nobody wants any more. -/
theorem Record.Sound.undesired {r : Record} {deleted : Bool} (h : r.Sound cfg)
    (hdeleted : r.deleted = true → deleted = true) :
    Record.Sound cfg { r with deleted := deleted, desired := false } where
  sandbox := h.sandbox
  device := h.device
  size := h.size
  gcAfter := h.gcAfter
  used hbusy := by
    refine h.used ?_
    simp only [Record.busy, Bool.or_eq_true, Bool.false_eq_true, false_or] at hbusy ⊢
    exact hbusy.imp_left fun hp => hp.imp_left .inr
  evicted he := by
    obtain ⟨hkind, hidle⟩ := h.evicted he
    refine ⟨hkind.imp_right hdeleted, ?_⟩
    simp only [Record.busy, Bool.or_eq_false_iff] at hidle
    simp [Record.busy, hidle]
  released hr := ⟨(h.released hr).1, hdeleted (h.released hr).2⟩
  reclaimed := h.reclaimed

/-- The processes of a record. -/
theorem Record.mem_processes {r : Record} {p : Process} :
    p ∈ r.processes ↔ r.worker = some p ∨ r.client = some p := by
  simp [Record.processes, List.reduceOption_mem_iff, eq_comm]

/-- A record that is not busy has no process. -/
theorem Record.Sound.processes_eq_nil {r : Record} (h : r.busy = false) : r.processes = [] := by
  simp only [Record.busy, Bool.or_eq_false_iff, Option.isSome_eq_false_iff,
    Option.isNone_iff_eq_none] at h
  simp [Record.processes, h.1.1.2, h.1.2, List.reduceOption]

namespace Slot.Sound

/-- The record in memory may change to one that the slot allows. -/
theorem assign {f : Record → Record} (h : s.Sound cfg) (hf : s.Revises cfg (f s.entry)) :
    (s.assign f).Sound cfg where
  entry := hf.sound
  id := hf.same.id.symm.trans h.id
  file r hr := by
    obtain ⟨hsound, hsame⟩ := h.file r hr
    refine ⟨hsound, ?_⟩
    exact ⟨hsame.id.trans hf.same.id, hsame.logicalBytes.trans hf.same.logicalBytes,
      hsame.image.trans hf.same.image, fun hr => hf.same.reclaimed (hsame.reclaimed hr)⟩
  missing := hf.missing
  link d hd := by
    obtain ⟨hdevice, hevicted, _, hfile⟩ := h.link d hd
    refine ⟨hf.device.trans hdevice, hf.evicted.trans hevicted, hf.link ?_, hfile⟩
    intro hnone
    cases hnone.symm.trans hd
  group hr r hcase p hp := by
    obtain rfl | hfile := hcase
    · exact hf.group hr p hp
    · exact h.group hr r (.inr hfile) p hp

/-- An assignment that neither prepares the volume nor touches its reservations. -/
theorem revises {e : Record} (h : s.Sound cfg) (he : e.Sound cfg) (hsame : s.entry.Same e)
    (hdevice : e.device = s.entry.device) (hevicted : e.evicted = s.entry.evicted)
    (hreleased : e.logicalReleased = s.entry.logicalReleased)
    (hprepared : e.prepared = s.entry.prepared)
    (hprocesses : cfg.resources = true → ∀ p ∈ e.processes,
      p ∈ s.entry.processes ∨ p ∈ s.volume.group) :
    s.Revises cfg e where
  sound := he
  same := hsame
  device := hdevice
  evicted := hevicted
  released := hreleased
  missing hnone := hprepared.trans (h.missing hnone)
  link hlink := by
    obtain ⟨d, hd⟩ := Option.ne_none_iff_exists'.mp hlink
    exact hprepared.trans (h.link d hd).2.2.1
  group hr p hp := (hprocesses hr p hp).elim (h.group hr _ (.inl rfl) p) fun h => h

/-- It may be saved. -/
theorem store (h : s.Sound cfg) : (s.store s.entry).Sound cfg where
  entry := h.entry
  id := h.id
  file r hr := by
    cases hr
    exact ⟨h.entry, .refl _⟩
  missing hnone := by cases hnone
  link d hd := by
    obtain ⟨hdevice, hevicted, hprepared, _⟩ := h.link d hd
    exact ⟨hdevice, hevicted, hprepared, s.entry, rfl, hevicted, hprepared, hdevice⟩
  group hr r hcase p hp := by
    obtain rfl | hfile := hcase
    · exact h.group hr _ (.inl rfl) p hp
    · cases hfile
      exact h.group hr _ (.inl rfl) p hp

/-- A record that was published may be taken over. -/
theorem adopt {e : Record} (h : s.Sound cfg) (he : s.Yields cfg e) : (s.adopt e).Sound cfg where
  entry := he.sound
  id := he.same.id.trans h.id
  file r hr := by
    cases hr
    exact ⟨he.sound, .refl _⟩
  missing hnone := by cases hnone
  link d hd := by
    have hlink : s.volume.link = some d := hd
    rw [he.link] at hlink
    cases hlink
  group _ r hcase p hp := by
    have hr : r = e := by
      obtain rfl | hfile := hcase
      · rfl
      · cases hfile
        rfl
    rw [hr, he.processes] at hp
    cases hp

theorem store_yields {e : Record} (h : s.Sound cfg) (he : s.Yields cfg e) :
    (s.store e).Sound cfg where
  entry := h.entry
  id := h.id
  file r hr := by
    cases hr
    exact ⟨he.sound, he.same⟩
  missing hnone := by cases hnone
  link d hd := by
    have hlink : s.volume.link = some d := hd
    rw [he.link] at hlink
    cases hlink
  group hr r hcase p hp := by
    obtain rfl | hfile := hcase
    · exact h.group hr _ (.inl rfl) p hp
    · cases hfile
      rw [he.processes] at hp
      cases hp

/-- A volume whose entry is evicted has nothing attached. -/
theorem link_eq_none (h : s.Sound cfg) (hevicted : s.entry.evicted = true) :
    s.volume.link = none := by
  cases hlink : s.volume.link with
  | none => rfl
  | some d =>
    have := (h.link d hlink).2.1
    rw [hevicted] at this
    cases this

/-- A prepared volume may be given a device of the configuration. -/
theorem resident (h : s.Sound cfg) {device : Path} (hd : device ∈ cfg.devices)
    (hprepared : s.entry.prepared = true)
    (hdeleted : s.entry.deleted = false) : (s.resident device).Sound cfg where
  sandbox := h.entry.sandbox
  device := hd
  size := h.entry.size
  gcAfter := rfl
  used _ := hprepared
  evicted he := by cases he
  released hr := by
    have := (h.entry.released hr).2
    rw [hdeleted] at this
    cases this
  reclaimed hr := h.entry.reclaimed hr

theorem idle (h : s.Sound cfg) (hevicted : s.entry.evicted = true) : s.entry.processes = [] :=
  Record.Sound.processes_eq_nil (h.entry.evicted hevicted).2

/-- The residency in memory. -/
theorem adopt_resident (h : s.Sound cfg) {device : Path} (hd : device ∈ cfg.devices)
    (hevicted : s.entry.evicted = true) (hprepared : s.entry.prepared = true)
    (hdeleted : s.entry.deleted = false) : (s.adopt (s.resident device)).Sound cfg where
  entry := h.resident hd hprepared hdeleted
  id := h.id
  file r hr := by
    cases hr
    exact ⟨h.resident hd hprepared hdeleted, .refl _⟩
  missing hnone := by cases hnone
  link d hlink := by
    have hlink : s.volume.link = some d := hlink
    rw [h.link_eq_none hevicted] at hlink
    cases hlink
  group _ r hcase p hp := by
    have hr : r.processes = s.entry.processes := by
      obtain rfl | hfile := hcase
      · rfl
      · cases hfile
        rfl
    rw [hr, h.idle hevicted] at hp
    cases hp

/-- The residency in the file. -/
theorem store_resident (h : s.Sound cfg) {device : Path} (hd : device ∈ cfg.devices)
    (hevicted : s.entry.evicted = true) (hprepared : s.entry.prepared = true)
    (hdeleted : s.entry.deleted = false) : (s.store (s.resident device)).Sound cfg where
  entry := h.entry
  id := h.id
  file r hr := by
    cases hr
    exact ⟨h.resident hd hprepared hdeleted, rfl, rfl, rfl, fun hr => hr⟩
  missing hnone := by cases hnone
  link d hlink := by
    have hlink : s.volume.link = some d := hlink
    rw [h.link_eq_none hevicted] at hlink
    cases hlink
  group hr r hcase p hp := by
    obtain rfl | hfile := hcase
    · exact h.group hr _ (.inl rfl) p hp
    · cases hfile
      have hp : p ∈ s.entry.processes := hp
      rw [h.idle hevicted] at hp
      cases hp

theorem withOwner {owner : Bool} (h : s.Sound cfg) : (s.withOwner owner).Sound cfg :=
  ⟨h.entry, h.id, h.file, h.missing, h.link, h.group⟩

/-- A link may go. -/
theorem unlinked (h : s.Sound cfg) : (s.withLink none).Sound cfg where
  entry := h.entry
  id := h.id
  file := h.file
  missing := h.missing
  link d hd := by cases hd
  group := h.group

/-- A device that the volume holds may be linked to it. -/
theorem connected {device : Path} (h : s.Sound cfg) (hs : s.Holds device)
    (hprepared : s.entry.prepared = true)
    (hfile : ∃ r ∈ s.volume.record, r.Attached device) :
    (s.withLink (some device)).Sound cfg where
  entry := h.entry
  id := h.id
  file := h.file
  missing := h.missing
  link d hd := by
    cases hd
    exact ⟨hs.2, hs.1, hprepared, hfile⟩
  group := h.group

/-- A process may be put into its group. -/
theorem grouped {p : Process} (h : s.Sound cfg) : (s.grouped p).Sound cfg where
  entry := h.entry
  id := h.id
  file := h.file
  missing := h.missing
  link := h.link
  group hr r hcase q hq := List.mem_cons_of_mem _ (h.group hr r hcase q hq)

/-- Nothing is attached once the volume's device is free of it. -/
theorem withLink_none (h : s.Sound cfg) (hlink : s.volume.link ≠ some s.entry.device) :
    s.withLink none = s := by
  have hnone : s.volume.link = none := by
    rw [Option.eq_none_iff_forall_not_mem]
    intro d hd
    rw [(h.link d hd).1] at hlink
    exact hlink hd
  obtain ⟨⟨id, record, owner, link, group⟩, entry⟩ := s
  cases hnone
  rfl

/-- What an allowed action keeps true. -/
theorem does {β : Type} {a : Act β} {b : β} (h : s.Sound cfg) (hallowed : a.allowed cfg s)
    (hdoes : a.does cfg s b s') : s'.Sound cfg := by
  cases a with
  | record => exact hdoes.2 ▸ h
  | assign f => exact hdoes ▸ h.assign hallowed
  | persist r =>
    have hr : r = s.entry := hallowed
    subst hr
    obtain rfl | ⟨_, rfl⟩ := hdoes
    · exact h.store
    · exact h
  | publish next =>
    obtain ⟨_, rfl⟩ | ⟨_, rfl | rfl⟩ := hdoes
    · exact h.adopt hallowed
    · exact h
    · exact h.store_yields hallowed
  | reserve =>
    obtain ⟨hevicted, hprepared, hdeleted⟩ := hallowed
    obtain ⟨device, hd, ⟨_, rfl⟩ | ⟨_, rfl | rfl⟩⟩ := hdoes
    · exact h.adopt_resident hd hevicted hprepared hdeleted
    · exact h
    · exact h.store_resident hd hevicted hprepared hdeleted
  | ownerDir =>
    obtain rfl | ⟨_, rfl⟩ := hdoes
    · exact h.withOwner
    · exact h
  | removeOwner =>
    obtain rfl | ⟨_, rfl⟩ := hdoes
    · exact h.withOwner
    · exact h
  | nbdPid device => exact hdoes.1 ▸ h
  | disconnect device =>
    obtain rfl | ⟨_, rfl⟩ := hdoes
    · exact h
    · exact h.unlinked
  | awaitDetached device =>
    obtain ⟨rfl | ⟨_, rfl⟩, _⟩ := hdoes
    · exact h
    · exact h.unlinked
  | connect device client =>
    obtain ⟨hs, hprepared, hfile⟩ := hallowed
    obtain rfl | ⟨_, rfl⟩ := hdoes
    · exact h.connected hs hprepared hfile
    · exact h
  | enterGroup p =>
    obtain rfl | ⟨_, rfl⟩ := hdoes
    · exact h.grouped
    · exact h
  | useDevice device => exact hdoes ▸ h
  | takeImports => exact hdoes ▸ h
  | dropImports => exact hdoes ▸ h
  | checkDigest digest => exact hdoes ▸ h
  | ask what β => exact hdoes ▸ h

end Slot.Sound

/-- Every action that a pass may take keeps the slot in order. -/
theorem volumeContract_preserves : (volumeContract cfg).Preserves (Slot.Sound cfg) :=
  fun hs hallowed hdoes => hs.does hallowed hdoes

end AgentHouse.Host
