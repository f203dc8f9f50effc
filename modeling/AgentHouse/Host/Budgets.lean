import AgentHouse.Host.Restart
import Mathlib.Algebra.BigOperators.Group.List.Basic

/-!
# Storage budgets

Admissions read the reservations of all volumes off their record files. A volume is resident as
long as its entry or its file says so. The journals and caches of the resident volumes never
exceed the budgets of the host, and an admission that is granted leaves the logical capacity
within its budget as well.
-/

namespace AgentHouse.Host

variable {cfg : Config} {P : Surroundings} {D : Digests} {C : Condition} {σ σ' : Service}

/-! ## Reservations -/

/-- The record reserves a journal and a cache. -/
def Record.resides (r : Record) : Bool := !r.reclaimed && !r.evicted

/-- What the record reserves of the logical capacity. -/
def Record.charge (r : Record) : ℕ := if r.reclaimed || r.logicalReleased then 0 else r.logicalBytes

/-- The volume is resident by its entry or by its record file. -/
def Slot.occupies (s : Slot) : Bool := !s.entry.evicted || s.volume.record.any fun r => !r.evicted

/-- How many volumes are resident. -/
def residents (slots : List Slot) : ℕ := (slots.map fun s => s.occupies.toNat).sum

/-- The volumes of the service, whether it runs or not. -/
def System.slots : System → List Slot
  | .down volumes _ => opened volumes
  | .up σ => σ.slots

section Sums

variable {u u' : Usage} {r : Record} {rs : List Record}

/-- A sum that does not overflow. -/
theorem checkedAdd_ok {a b c : ℕ} (h : checkedAdd a b = .ok c) : c = a + b := by
  unfold checkedAdd at h
  split at h
  · exact (Except.ok.inj h).symm
  · cases h

/-- What one record adds to the usage. -/
theorem addRecord_ok {size : ℕ} {resident retained : Bool}
    (h : u.addRecord size resident retained = .ok u') :
    u'.logicalBytes = u.logicalBytes + (if retained then size else 0) ∧
    u'.journalReservedBytes = u.journalReservedBytes + (if resident then journalBytes else 0) ∧
    u'.cacheReservedBytes = u.cacheReservedBytes + (if resident then cacheBytes else 0) := by
  obtain ⟨⟨⟩, -, h⟩ := bind_ok h
  obtain ⟨volumes, -, h⟩ := bind_ok h
  obtain ⟨logical, hlogical, h⟩ := bind_ok h
  obtain ⟨journal, hjournal, h⟩ := bind_ok h
  obtain ⟨cache, hcache, h⟩ := bind_ok h
  obtain rfl := Except.ok.inj h
  exact ⟨checkedAdd_ok hlogical, checkedAdd_ok hjournal, checkedAdd_ok hcache⟩

/-- The same for a record of a slot. -/
theorem count_ok (h : u.count r = .ok u') :
    u'.logicalBytes = u.logicalBytes + r.charge ∧
    u'.journalReservedBytes = u.journalReservedBytes + r.resides.toNat * journalBytes ∧
    u'.cacheReservedBytes = u.cacheReservedBytes + r.resides.toNat * cacheBytes := by
  unfold Usage.count at h
  split at h
  · rename_i hreclaimed
    obtain rfl := Except.ok.inj h
    simp [Record.charge, Record.resides, hreclaimed]
  · rename_i hreclaimed
    obtain ⟨hlogical, hjournal, hcache⟩ := addRecord_ok h
    rw [hlogical, hjournal, hcache]
    have hreclaimed : r.reclaimed = false := by simpa using hreclaimed
    cases he : r.evicted <;> cases hl : r.logicalReleased <;>
      simp [Record.charge, Record.resides, hreclaimed, he, hl]

/-- The reservations of a list of records. -/
theorem counts_ok (h : rs.foldlM Usage.count u = .ok u') :
    u'.logicalBytes = u.logicalBytes + (rs.map Record.charge).sum ∧
    u'.journalReservedBytes =
      u.journalReservedBytes + (rs.map fun r => r.resides.toNat).sum * journalBytes ∧
    u'.cacheReservedBytes =
      u.cacheReservedBytes + (rs.map fun r => r.resides.toNat).sum * cacheBytes := by
  induction rs generalizing u with
  | nil =>
    obtain rfl := Except.ok.inj h
    simp
  | cons r rs ih =>
    rw [List.foldlM_cons] at h
    obtain ⟨next, hnext, h⟩ := bind_ok h
    obtain ⟨hlogical, hjournal, hcache⟩ := count_ok hnext
    obtain ⟨hlogical', hjournal', hcache'⟩ := ih h
    rw [hlogical', hjournal', hcache', hlogical, hjournal, hcache]
    simp only [List.map_cons, List.sum_cons, Nat.add_mul, Nat.add_assoc, and_self]

/-- What is reserved as the supervisor sees it. -/
theorem Service.usage_ok {used : Usage} (h : σ.usage cfg rs = .ok used) :
    (∃ candidates charge, σ.registry cfg = .ok candidates ∧
      logicalCharge candidates = .ok charge ∧
      used.logicalBytes = (rs.map Record.charge).sum + charge) ∧
    used.journalReservedBytes = (rs.map fun r => r.resides.toNat).sum * journalBytes ∧
    used.cacheReservedBytes = (rs.map fun r => r.resides.toNat).sum * cacheBytes := by
  obtain ⟨counted, hcounted, h⟩ := bind_ok h
  obtain ⟨candidates, hcandidates, h⟩ := bind_ok h
  obtain ⟨charge, hcharge, h⟩ := bind_ok h
  obtain ⟨total, htotal, h⟩ := bind_ok h
  obtain rfl := Except.ok.inj h
  obtain ⟨hlogical, hjournal, hcache⟩ := counts_ok hcounted
  refine ⟨⟨candidates, charge, hcandidates, hcharge, ?_⟩, ?_, ?_⟩
  · show total = _
    rw [checkedAdd_ok htotal, hlogical]
    exact congrArg (· + charge) (Nat.zero_add _)
  · exact hjournal.trans (Nat.zero_add _)
  · exact hcache.trans (Nat.zero_add _)

/-- A granted admission stays within the limits. -/
theorem admission_ok {l : Limits} {size : ℕ} (h : l.admission u size = .ok ()) :
    u.logicalBytes + size ≤ l.maxLogicalBytes ∧
    u.journalReservedBytes + journalBytes ≤ l.maxJournalBytes ∧
    u.cacheReservedBytes + cacheBytes ≤ l.maxCacheBytes := by
  unfold Limits.admission at h
  obtain ⟨-, h⟩ := refuse_ok h
  obtain ⟨next, hnext, h⟩ := bind_ok h
  obtain ⟨hlogical, h⟩ := refuse_ok h
  obtain ⟨hjournal, h⟩ := refuse_ok h
  have hcache : ¬ l.maxCacheBytes < next.cacheReservedBytes := fun hover => by
    rw [if_pos hover] at h
    cases h
  obtain ⟨hlogical', hjournal', hcache'⟩ := addRecord_ok hnext
  simp only [if_true] at hlogical' hjournal' hcache'
  omega

end Sums

/-! ## Records and entries -/

section Files

variable {s : Slot} {rs : List Record} {used : Usage}

/-- A slot occupies a place if and only if it reserves a device. -/
theorem Slot.occupies_iff : s.occupies = true ↔ ∃ d, s.Reserves d := by
  simp only [Slot.occupies, Slot.Reserves, Bool.or_eq_true, Bool.not_eq_true',
    Option.any_eq_true]
  constructor
  · rintro (hentry | ⟨r, hr, hevicted⟩)
    · exact ⟨_, s.entry, .inl rfl, hentry, rfl⟩
    · exact ⟨_, r, .inr hr, hevicted, rfl⟩
  · rintro ⟨d, r, rfl | hr, hevicted, -⟩
    · exact .inl hevicted
    · exact .inr ⟨r, hr, hevicted⟩

/-- The record file of a volume, while admissions are not frozen. -/
theorem Service.Sound.file (h : σ.Sound cfg) (hfrozen : σ.frozen = false) (hs : s ∈ σ.slots) :
    ∃ r, s.volume.record = some r ∧ r.Sound cfg ∧ r.Same s.entry ∧ r.id = s.id ∧
      r.evicted = s.entry.evicted ∧ r.logicalReleased = s.entry.logicalReleased ∧
      r.resides.toNat = s.occupies.toNat := by
  obtain ⟨hnone, hagrees⟩ := h.agrees hfrozen s hs
  obtain ⟨r, hr⟩ := Option.ne_none_iff_exists'.mp hnone
  obtain ⟨-, hevicted, hreleased⟩ := hagrees r hr
  obtain ⟨hsound, hsame⟩ := (h.sound s hs).file r hr
  refine ⟨r, hr, hsound, hsame, hsame.id.trans (h.sound s hs).id, hevicted, hreleased, ?_⟩
  have hreclaimed : r.reclaimed = true → r.evicted = true := fun hreclaimed =>
    (hsound.released (hsound.reclaimed hreclaimed)).1
  simp only [Slot.occupies, hr, Option.any_some, Record.resides, ← hevicted]
  cases he : r.evicted with
  | true => simp
  | false =>
    cases hc : r.reclaimed with
    | false => rfl
    | true =>
      rw [hreclaimed hc] at he
      cases he

/-- What is summed over the files is what is summed over the slots. -/
theorem sum_files {slots : List Slot} {β : Type} {g : Record → β} {k : Slot → β}
    (h : ∀ s ∈ slots, ∃ r, s.volume.record = some r ∧ g r = k s) :
    (slots.filterMap fun s => s.volume.record).map g = slots.map k := by
  induction slots with
  | nil => rfl
  | cons s slots ih =>
    obtain ⟨r, hr, hg⟩ := h s List.mem_cons_self
    rw [List.filterMap_cons, hr, List.map_cons, List.map_cons, hg,
      ih fun s hs => h s (List.mem_cons_of_mem _ hs)]

/-- The files reserve what the volumes do. -/
theorem Service.Sound.files_residents (h : σ.Sound cfg) (hfrozen : σ.frozen = false) :
    (σ.files.map fun r => r.resides.toNat).sum = residents σ.slots := by
  refine congrArg List.sum (sum_files fun s hs => ?_)
  obtain ⟨r, hr, -, -, -, -, -, hresides⟩ := h.file hfrozen hs
  exact ⟨r, hr, hresides⟩

/-- A service that is not frozen has one file for each volume. -/
theorem Service.Sound.files_keyed (h : σ.Sound cfg) (hfrozen : σ.frozen = false) :
    Table.Keyed Record.id σ.files := by
  have hids : σ.files.map Record.id = σ.slots.map Slot.id := by
    refine sum_files fun s hs => ?_
    obtain ⟨r, hr, -, -, hid, -⟩ := h.file hfrozen hs
    exact ⟨r, hr, hid⟩
  exact (congrArg List.Nodup hids).mpr h.keyed

/-- The budgets hold for so many resident volumes. -/
def Limits.Holds (l : Limits) (n : ℕ) : Prop :=
  n * journalBytes ≤ l.maxJournalBytes ∧ n * cacheBytes ≤ l.maxCacheBytes

theorem Limits.Holds.le {l : Limits} {m n : ℕ} (h : l.Holds n) (hle : m ≤ n) : l.Holds m :=
  ⟨(Nat.mul_le_mul_right _ hle).trans h.1, (Nat.mul_le_mul_right _ hle).trans h.2⟩

/-- The records `rs` and the registry are within the logical budget. -/
def Service.Logical (cfg : Config) (σ : Service) (rs : List Record) : Prop :=
  ∃ candidates charge, σ.registry cfg = .ok candidates ∧ logicalCharge candidates = .ok charge ∧
    (rs.map Record.charge).sum + charge ≤ cfg.limits.maxLogicalBytes

/-- What the checks of a new volume establish. -/
theorem Service.Sound.admission (h : σ.Sound cfg) (hfrozen : σ.frozen = false)
    (hused : σ.usage cfg σ.files = .ok used) {r : Record}
    (hfits : cfg.limits.admission used r.logicalBytes = .ok ())
    (hcharge : r.charge = r.logicalBytes) :
    cfg.limits.Holds (residents σ.slots + 1) ∧ σ.Logical cfg (σ.files ++ [r]) := by
  obtain ⟨⟨candidates, charge, hcandidates, hregistered, hlogical⟩, hjournal, hcache⟩ :=
    Service.usage_ok hused
  obtain ⟨hfits₁, hfits₂, hfits₃⟩ := admission_ok hfits
  rw [h.files_residents hfrozen] at hjournal hcache
  refine ⟨⟨?_, ?_⟩, candidates, charge, hcandidates, hregistered, ?_⟩
  · rw [Nat.succ_mul, ← hjournal]
    exact hfits₂
  · rw [Nat.succ_mul, ← hcache]
    exact hfits₃
  · rw [List.map_append, List.sum_append, List.map_singleton, List.sum_singleton, hcharge]
    omega

/-- What the checks of a residency establish. -/
theorem Service.Sound.residency (h : σ.Sound cfg) (hs : s ∈ σ.slots) {d : Path}
    (hevicted : s.entry.evicted = true) (hres : σ.residency cfg P s.entry = .ok d) :
    cfg.limits.Holds (residents σ.slots + 1) ∧
      ∃ candidates charge, σ.registry cfg = .ok candidates ∧
        logicalCharge candidates = .ok charge ∧
        ((σ.files.filter fun r => decide (r.id ≠ s.id)).map Record.charge).sum + charge +
          s.entry.logicalBytes ≤ cfg.limits.maxLogicalBytes := by
  obtain ⟨hfrozen, rs, used, hrs, hused, hfits, -⟩ := Service.residency_ok hres
  obtain rfl := (Service.records_ok hrs).2
  obtain ⟨r, hr, hsound, -, hid, hsame, -, hresides⟩ := h.file hfrozen hs
  have hentry : s.entry.id = s.id := (h.sound s hs).id
  rw [hentry] at hused
  obtain ⟨⟨candidates, charge, hcandidates, hregistered, hlogical⟩, hjournal, hcache⟩ :=
    Service.usage_ok hused
  obtain ⟨hfits₁, hfits₂, hfits₃⟩ := admission_ok hfits
  -- the volume itself has nothing to give up
  have hrow : Table.row Record.id s.id σ.files = some r :=
    hid ▸ (h.files_keyed hfrozen).row_of_mem (List.mem_filterMap.mpr ⟨s, hs, hr⟩)
  have hsplit := Table.sum_filter_ne (h.files_keyed hfrozen) hrow fun r => r.resides.toNat
  have hzero : r.resides.toNat = 0 := by
    simp [Record.resides, hsame, hevicted]
  rw [hzero, Nat.add_zero, h.files_residents hfrozen] at hsplit
  rw [hsplit] at hjournal hcache
  refine ⟨⟨?_, ?_⟩, candidates, charge, hcandidates, hregistered, ?_⟩
  · rw [Nat.succ_mul, ← hjournal]
    exact hfits₂
  · rw [Nat.succ_mul, ← hcache]
    exact hfits₃
  · omega

end Files

/-! ## Steps -/

/-- The table after an admission: its directory could not be made, or the volume is in it. -/
theorem Service.insert_slots {r : Record} {o : Outcomes} {res : Result Unit}
    (h : σ.insert r o = (res, σ')) : res ≠ .ok () ∧ σ'.slots = σ.slots ∨
      res = o.saved ∧ σ'.slots = σ.slots ++ [Slot.admitted r o] := by
  unfold Service.insert at h
  cases hdirectory : o.directory with
  | error e =>
    rw [hdirectory] at h
    obtain ⟨rfl, rfl⟩ := Prod.mk.inj h
    exact .inl ⟨fun h => (by cases h), rfl⟩
  | ok u =>
    rw [hdirectory] at h
    obtain ⟨rfl, rfl⟩ := Prod.mk.inj h
    refine .inr ⟨rfl, ?_⟩
    rw [Service.slots, List.map_append]
    rfl

theorem Slot.occupies_admitted (r : Record) (o : Outcomes) :
    (Slot.admitted r o).occupies = !r.evicted := by
  unfold Slot.occupies Slot.admitted
  cases o.stored <;> simp

/-- A fresh record is charged its logical size. -/
theorem Record.Fresh.charge {r : Record} {q : Request} (h : r.Fresh cfg q) :
    r.charge = r.logicalBytes := by
  simp [Record.charge, h.reclaimed, h.released]

/-- One more slot, one more resident if it occupies a place. -/
theorem residents_append (slots : List Slot) (s : Slot) :
    residents (slots ++ [s]) = residents slots + s.occupies.toNat := by
  simp [residents]

/-- A restart makes no volume resident. -/
theorem residents_opened (slots : List Slot) :
    residents (opened (slots.map Slot.volume)) ≤ residents slots := by
  induction slots with
  | nil => exact le_rfl
  | cons s slots ih =>
    have hhead : residents (s.volume.record.map fun r => (⟨s.volume, r⟩ : Slot)).toList ≤
        s.occupies.toNat := by
      cases hr : s.volume.record with
      | none => exact Nat.zero_le _
      | some r =>
        cases he : r.evicted <;> cases hs : s.entry.evicted <;>
          simp [residents, Slot.occupies, hr, he, hs]
    rw [List.map_cons, opened_cons]
    simp only [residents, List.map_append, List.sum_append, List.map_cons, List.sum_cons]
      at hhead ih ⊢
    omega

/-- No more volumes become resident than an admission has granted. -/
theorem System.Sound.fits {st st' : System} {e : Event} (h : st.Sound cfg)
    (hfits : cfg.limits.Holds (residents st.slots)) (hs : st.Step cfg P D C e st') :
    cfg.limits.Holds (residents st'.slots) := by
  cases hs with
  | enter hsaved hC hok =>
    rename_i σ σ' q o res
    have hslots : System.slots (.up (if res = .ok () then
        { σ' with waiting := q :: σ'.waiting } else σ')) = σ'.slots := by
      split <;> rfl
    rw [hslots]
    obtain ⟨rfl, -⟩ | ⟨hvalid, hfrozen, hknows, r, hr, hinsert⟩ := Service.entry_cases hok
    · exact hfits
    have hsound : σ.Sound cfg := h
    obtain ⟨-, hsame⟩ | ⟨-, hadded⟩ := Service.insert_slots hinsert
    · rw [hsame]
      exact hfits
    rw [hadded, residents_append, Slot.occupies_admitted]
    rcases hr with ⟨-, hr⟩ | ⟨-, hr⟩
    · obtain ⟨hfresh, hdeleted⟩ := Service.retirement_ok hr
      rw [hfresh.evicted, hdeleted]
      exact hfits
    · obtain ⟨hfresh, hdeleted, rs, used, hrs, hused, hadmitted, -⟩ :=
        Service.volumeAdmission_ok hr
      obtain rfl := (Service.records_ok hrs).2
      rw [hfresh.evicted, hdeleted]
      exact (hsound.admission hfrozen hused hadmitted hfresh.charge).1
  | act ht hC hdoes hshares =>
    rename_i σ σ' id slot slot' β a b next
    have hsound : σ.Sound cfg := h
    obtain ⟨hmem, hid⟩ := Service.mem_slots ht
    obtain ⟨hallowed, -⟩ := hsound.jobs _ (Table.row_mem ht).1 _ rfl
    have hturn := Act.turn hallowed hdoes hshares
    have hslots : (σ'.advance id slot' (some (next b))).slots =
        Table.revise Slot.id id (fun _ => slot') σ.slots := by
      rw [Service.slots_advance, Act.shares_rest hshares]
      rfl
    have hrow : Table.row Slot.id id σ.slots = some slot :=
      hid ▸ hsound.keyed.row_of_mem hmem
    have hsum := Table.sum_revise (f := fun _ => slot') hsound.keyed hrow
      fun s => s.occupies.toNat
    show cfg.limits.Holds (residents (σ'.advance id slot' (some (next b))).slots)
    rw [hslots]
    cases hs' : slot'.occupies with
    | false =>
      refine hfits.le ?_
      show residents _ ≤ residents σ.slots
      simp only [residents, hs', Bool.toNat_false] at hsum ⊢
      omega
    | true =>
      obtain ⟨d, hd⟩ := Slot.occupies_iff.mp hs'
      rcases hturn.reserves hd with hold | ⟨hevicted, hres⟩
      · refine hfits.le ?_
        show residents _ ≤ residents σ.slots
        simp only [residents, hs', Slot.occupies_iff.mpr ⟨d, hold⟩] at hsum ⊢
        omega
      · refine (hsound.residency hmem hevicted hres).1.le ?_
        show residents _ ≤ residents σ.slots + 1
        have hone := Bool.toNat_le slot'.occupies
        simp only [residents] at hsum ⊢
        omega
  | crash =>
    rename_i σ
    refine hfits.le ?_
    show residents (opened σ.volumes) ≤ residents σ.slots
    rw [σ.opened_volumes]
    exact residents_opened σ.slots
  | restart hok =>
    rename_i volumes images slots
    have hslots : (Service.started slots images).slots = opened volumes := by
      rw [← Left.opens h hok]
      show (List.map _ _).map Thread.slot = _
      rw [List.map_map]
      exact List.map_id _
    show cfg.limits.Holds (residents (Service.started slots images).slots)
    rw [hslots]
    exact hfits
  | lock hq ht =>
    rename_i σ q slot
    have hsound : σ.Sound cfg := h
    have hkeyed : Table.Keyed Slot.id { σ with waiting := σ.waiting.erase q }.slots :=
      hsound.keyed
    refine (congrArg (fun slots => cfg.limits.Holds (residents slots)) ?_).mpr hfits
    exact Service.slots_advance_self ht hkeyed
  | builder hr hq hmetadata hbytes ht =>
    refine (congrArg (fun slots => cfg.limits.Holds (residents slots)) ?_).mpr hfits
    exact Service.slots_advance_self ht (Service.Sound.keyed h)
  | recover hp ht =>
    rename_i σ id slot before after
    have hsound : σ.Sound cfg := h
    have hkeyed : Table.Keyed Slot.id { σ with probes := before ++ after }.slots := hsound.keyed
    refine (congrArg (fun slots => cfg.limits.Holds (residents slots)) ?_).mpr hfits
    exact Service.slots_advance_self ht hkeyed
  | probeAct hp ht hdoes hshares =>
    rename_i σ σ' id snapshot slot slot' job β a b next before after
    have hsound : σ.Sound cfg := h
    obtain ⟨hlooks, -⟩ := hsound.probes _ (hp ▸ List.mem_append_right _ List.mem_cons_self)
    obtain ⟨rfl, rfl⟩ := hlooks.still hdoes hshares
    refine (congrArg (fun slots => cfg.limits.Holds (residents slots)) ?_).mpr hfits
    exact Service.slots_advance_self ht hsound.keyed
  | finish ht =>
    refine (congrArg (fun slots => cfg.limits.Holds (residents slots)) ?_).mpr hfits
    exact Service.slots_advance_self ht (Service.Sound.keyed h)
  | imageAct ht hdoes hshares =>
    rw [ImageAct.shares_rest hshares]
    exact hfits
  | statusAct hr ht hdoes hshares =>
    rw [ImageAct.shares_rest hshares]
    exact hfits
  | _ => exact hfits

/-! ## Grants -/

/-- A volume is granted when a prepare brings a new one. -/
theorem entryEvent_volume {q : Request} {res : Result Unit}
    (h : entryEvent σ q res = .volume true) :
    σ.knows q.volumeId = false ∧ q.operation = .prepare ∧ res = .ok () := by
  unfold entryEvent at h
  split at h
  · cases h
  rename_i hknows
  cases hq : q.operation <;> rw [hq] at h <;> try cases h
  cases res with
  | error e => cases h
  | ok u => exact ⟨by simpa using hknows, rfl, rfl⟩

theorem entryEvent_ne_residency {q : Request} {res : Result Unit} {granted : Bool} :
    entryEvent σ q res ≠ .residency granted := fun h => by
  unfold entryEvent at h
  split at h
  · cases h
  · cases hq : q.operation <;> rw [hq] at h <;> cases h

/-- No action of a pass grants a volume. -/
theorem Act.event_ne_volume {β : Type} {a : Act β} {b : β} {granted : Bool} :
    a.event b ≠ .volume granted := fun h => by
  cases a <;> cases h

theorem ImageAct.event_ne {β : Type} {a : ImageAct β} {b : β} {granted : Bool} :
    a.event b ≠ .volume granted ∧ a.event b ≠ .residency granted := by
  constructor
  · intro h
    cases a <;> cases h
  · intro h
    cases a <;> cases h

/-- An insertion leaves the images alone. -/
theorem Service.insert_images {r : Record} {o : Outcomes} {res : Result Unit}
    (h : σ.insert r o = (res, σ')) : σ'.images = σ.images := by
  unfold Service.insert at h
  cases hdirectory : o.directory with
  | error e =>
    rw [hdirectory] at h
    obtain ⟨-, rfl⟩ := Prod.mk.inj h
    rfl
  | ok u =>
    rw [hdirectory] at h
    obtain ⟨-, rfl⟩ := Prod.mk.inj h
    rfl

theorem Service.Logical.of_images {rs : List Record} (h : σ.Logical cfg rs)
    (himages : σ'.images = σ.images) : σ'.Logical cfg rs := by
  have hregistry : σ'.registry cfg = σ.registry cfg := by
    rw [Service.registry, himages, Service.registry]
  obtain ⟨candidates, charge, hcandidates, hrest⟩ := h
  exact ⟨candidates, charge, hregistry.trans hcandidates, hrest⟩

/-- The files of the other volumes. -/
theorem others_revise {slots : List Slot} {id : String} {slot : Slot}
    (hr : ∀ r ∈ slot.volume.record, r.id = id)
    (hids : ∀ s ∈ slots, ∀ r ∈ s.volume.record, r.id = s.id) :
    (((Table.revise Slot.id id (fun _ => slot) slots).filterMap fun s => s.volume.record).filter
        fun r => decide (r.id ≠ id)) =
      (slots.filterMap fun s => s.volume.record).filter fun r => decide (r.id ≠ id) := by
  have hnone {s : Slot} (h : ∀ r ∈ s.volume.record, r.id = id) (rest : List Record) :
      (s.volume.record.toList ++ rest).filter (fun r => decide (r.id ≠ id)) =
        rest.filter fun r => decide (r.id ≠ id) := by
    cases hs : s.volume.record with
    | none => rfl
    | some r => simp [h r hs]
  have hcons (s : Slot) (rest : List Slot) :
      ((s :: rest).filterMap fun s => s.volume.record) =
        s.volume.record.toList ++ rest.filterMap fun s => s.volume.record := by
    rw [List.filterMap_cons]
    cases s.volume.record <;> rfl
  induction slots with
  | nil => rfl
  | cons s slots ih =>
    have ih := ih fun t ht => hids t (List.mem_cons_of_mem _ ht)
    by_cases hs : s.id = id
    · have hrevise : Table.revise Slot.id id (fun _ => slot) (s :: slots) =
          slot :: Table.revise Slot.id id (fun _ => slot) slots := by
        simp [Table.revise, hs]
      rw [hrevise, hcons, hcons, hnone hr,
        hnone fun r hr => (hids s List.mem_cons_self r hr).trans hs, ih]
    · have hrevise : Table.revise Slot.id id (fun _ => slot) (s :: slots) =
          s :: Table.revise Slot.id id (fun _ => slot) slots := by
        simp [Table.revise, hs]
      rw [hrevise, hcons, hcons, List.filter_append, List.filter_append, ih]

/-- A file names its slot. -/
theorem Service.Sound.file_id (h : σ.Sound cfg) {s : Slot} (hs : s ∈ σ.slots) {r : Record}
    (hr : s.volume.record = some r) : r.id = s.id :=
  ((h.sound s hs).file r hr).2.id.trans (h.sound s hs).id

/-- A volume that has become resident. -/
theorem Service.Sound.resident_logical (h : σ.Sound cfg) {s : Slot} (hs : s ∈ σ.slots) {d : Path}
    (hevicted : s.entry.evicted = true) (hres : σ.residency cfg P s.entry = .ok d)
    {job : Option (VolumeOp Reply)}
    (h' : (σ.advance s.id (s.adopt (s.resident d)) job).Sound cfg) :
    (σ.advance s.id (s.adopt (s.resident d)) job).Logical cfg
      (σ.advance s.id (s.adopt (s.resident d)) job).files := by
  obtain ⟨-, candidates, charge, hcandidates, hregistered, hlogical⟩ :=
    h.residency hs hevicted hres
  obtain ⟨hfrozen, -⟩ := Service.residency_ok hres
  have hslots : (σ.advance s.id (s.adopt (s.resident d)) job).slots =
      Table.revise Slot.id s.id (fun _ => s.adopt (s.resident d)) σ.slots :=
    Service.slots_advance
  have hid : (s.resident d).id = s.id := (h.sound s hs).id
  have hmem : s.adopt (s.resident d) ∈ (σ.advance s.id (s.adopt (s.resident d)) job).slots := by
    rw [hslots]
    exact List.mem_map.mpr ⟨s, hs, if_pos rfl⟩
  have hfile : s.resident d ∈ (σ.advance s.id (s.adopt (s.resident d)) job).files :=
    List.mem_filterMap.mpr ⟨_, hmem, rfl⟩
  have hrow := (h'.files_keyed hfrozen).row_of_mem hfile
  rw [hid] at hrow
  have hothers : ((σ.advance s.id (s.adopt (s.resident d)) job).files.filter
      fun r => decide (r.id ≠ s.id)) = σ.files.filter fun r => decide (r.id ≠ s.id) := by
    rw [Service.files, hslots]
    refine others_revise (fun r hr => ?_) fun t ht r hr => h.file_id ht hr
    obtain rfl := Option.some.inj hr
    exact hid
  have hsum := Table.sum_filter_ne (h'.files_keyed hfrozen) hrow Record.charge
  rw [hothers] at hsum
  refine ⟨candidates, charge, hcandidates, hregistered, ?_⟩
  have hcharge : (s.resident d).charge ≤ s.entry.logicalBytes := by
    unfold Record.charge
    split
    · exact Nat.zero_le _
    · exact le_rfl
  omega

/-- An admission that is granted keeps the logical capacity within its budget. -/
theorem System.Sound.granted {st st' : System} {e : Event} (h : st.Sound cfg)
    (hs : st.Step cfg P D C e st') (he : e = .volume true ∨ e = .residency true) :
    ∃ σ', st' = .up σ' ∧ σ'.Logical cfg σ'.files := by
  have hsound' := h.step hs
  cases hs with
  | enter hsaved hC hok =>
    rename_i σ σ' q o res
    have hsound : σ.Sound cfg := h
    have he := he.resolve_right entryEvent_ne_residency
    obtain ⟨hunknown, hprepare, rfl⟩ := entryEvent_volume he
    refine ⟨_, rfl, ?_⟩
    rw [if_pos rfl]
    obtain ⟨rfl, hknown⟩ | ⟨hvalid, hfrozen, hknows, r, hr, hinsert⟩ := Service.entry_cases hok
    · rw [(hknown rfl).1] at hunknown
      cases hunknown
    have hr := (hr.resolve_left fun hretire => (by cases hprepare.symm.trans hretire.1)).2
    obtain ⟨hfresh, -, rs, used, hrs, hused, hadmitted, -⟩ := Service.volumeAdmission_ok hr
    obtain rfl := (Service.records_ok hrs).2
    have hlogical := (hsound.admission hfrozen hused hadmitted hfresh.charge).2
    obtain ⟨hfailed, -⟩ | ⟨hres, hadded⟩ := Service.insert_slots hinsert
    · exact absurd rfl hfailed
    have hfile : (Slot.admitted r o).volume.record = some r := if_pos (hsaved hres.symm)
    have hfiles : σ'.files = σ.files ++ [r] := by
      rw [Service.files, hadded, List.filterMap_append, Service.files]
      simp [hfile]
    show Service.Logical cfg { σ' with waiting := q :: σ'.waiting } σ'.files
    have himages := Service.insert_images hinsert
    rw [hfiles]
    exact hlogical.of_images himages
  | act ht hC hdoes hshares =>
    rename_i σ σ' id slot slot' β a b next
    have hsound : σ.Sound cfg := h
    obtain ⟨hmem, rfl⟩ := Service.mem_slots ht
    obtain ⟨hallowed, -⟩ := hsound.jobs _ (Table.row_mem ht).1 _ rfl
    have he := he.resolve_left Act.event_ne_volume
    cases a with
    | reserve =>
      cases b with
      | error e => cases he
      | ok u =>
        simp only [Act.shares] at hshares
        split at hshares
        · cases hshares.1
        · rename_i device hres
          obtain ⟨hfail, -⟩ | ⟨-, rfl, rfl⟩ | ⟨hfail, -⟩ := hshares
          · exact absurd ⟨u, rfl⟩ hfail
          · exact ⟨_, rfl, hsound.resident_logical hmem hallowed.1 hres hsound'⟩
          · exact absurd ⟨u, rfl⟩ hfail
    | _ => cases he
  | imageAct =>
    rcases he with he | he
    · exact absurd he ImageAct.event_ne.1
    · exact absurd he ImageAct.event_ne.2
  | statusAct =>
    rcases he with he | he
    · exact absurd he ImageAct.event_ne.1
    · exact absurd he ImageAct.event_ne.2
  | _ => rcases he with he | he <;> cases he

/-- In every run of the supervisor no more volumes are resident, by their entries or by their files,
than the journal and cache budgets provide for; and when a volume is admitted, or becomes
resident, its logical bytes together with those of all other volumes and of the project images
are within the logical budget. -/
theorem storage_budgets {st : System} (h : System.Reachable cfg P D C st) :
    cfg.limits.Holds (residents st.slots) ∧ ∀ {st' : System} {e : Event},
      st.Step cfg P D C e st' → e = .volume true ∨ e = .residency true →
        ∃ σ', st' = .up σ' ∧ σ'.Logical cfg σ'.files := by
  refine ⟨?_, fun hs he => h.sound.granted hs he⟩
  induction h with
  | start => exact ⟨by simp [System.slots, opened, residents],
      by simp [System.slots, opened, residents]⟩
  | step h hs ih => exact h.sound.fits ih hs

/-- A volume of 65536 bytes is admitted, and takes the whole logical budget. -/
theorem storage_budgets_one_volume :
    oneDevice.limits.Holds (residents oneVolume.slots) ∧ residents oneVolume.slots = 1 ∧
      oneVolume.Logical oneDevice oneVolume.files ∧
      (oneVolume.files.map Record.charge).sum = oneDevice.limits.maxLogicalBytes := by
  obtain ⟨σ', hup, hlogical⟩ := (storage_budgets empty_reachable).2 oneVolume_admitted (.inl rfl)
  obtain rfl := System.up.inj hup
  exact ⟨(storage_budgets oneVolume_reachable).1, by decide, hlogical, by decide⟩

end AgentHouse.Host
