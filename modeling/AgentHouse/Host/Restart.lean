import AgentHouse.Host.Supervisor

/-!
# Restarts

What a supervisor leaves behind is what the next one can open: the records are sound, and no two of
them claim one device. `open` refuses only a directory that was used before its record was
written, a record that is too large to be read, and reservations that do not add up.
-/

namespace AgentHouse.Host

variable {cfg : Config} {P : Surroundings} {D : Digests} {C : Condition} {σ σ' : Service}

/-- The volumes of the directories that hold a record. -/
def opened (volumes : List Volume) : List Slot :=
  volumes.filterMap fun v => v.record.map fun r => ⟨v, r⟩

/-- What volumes have reserved, added to `u`. -/
def tally (u : Usage) (slots : List Slot) : Result Usage :=
  slots.foldlM (fun u s => u.count s.entry) u

/-- What a supervisor leaves behind. -/
structure Left (cfg : Config) (volumes : List Volume) : Prop where
  valid : ∀ v ∈ volumes, validId v.id = true
  bare : ∀ v ∈ volumes, v.record = none → v.link = none
  keyed : Table.Keyed Slot.id (opened volumes)
  sound : ∀ s ∈ opened volumes, s.Sound cfg
  exclusive : ∀ s ∈ opened volumes, ∀ t ∈ opened volumes, ∀ d, s.Reserves d → t.Reserves d →
    s.id = t.id

/-- The supervisor, running or not. -/
def System.Sound (cfg : Config) : System → Prop
  | .down volumes _ => Left cfg volumes
  | .up σ => σ.Sound cfg

/-! ## Crashes -/

/-- The slots of a service that was opened again. -/
theorem mem_opened {volumes : List Volume} {s : Slot} :
    s ∈ opened volumes ↔ s.volume ∈ volumes ∧ s.volume.record = some s.entry := by
  rw [opened, List.mem_filterMap]
  constructor
  · rintro ⟨v, hv, hs⟩
    obtain ⟨r, hr, rfl⟩ := Option.map_eq_some_iff.mp hs
    exact ⟨hv, hr⟩
  · rintro ⟨hv, hr⟩
    exact ⟨s.volume, hv, by rw [hr]; rfl⟩

theorem opened_cons (v : Volume) (volumes : List Volume) :
    opened (v :: volumes) = (v.record.map fun r => ⟨v, r⟩).toList ++ opened volumes := by
  cases hr : v.record with
  | none => simp [opened, hr]
  | some r => simp [opened, hr]

/-- A restart changes nothing in a volume's directory. -/
theorem Slot.Sound.reread {s : Slot} {r : Record} (h : s.Sound cfg)
    (hr : s.volume.record = some r) :
    Slot.Sound cfg ⟨s.volume, r⟩ where
  entry := (h.file r hr).1
  id := (h.file r hr).2.id.trans h.id
  file e he := by
    obtain rfl := Option.some.inj (hr.symm.trans he)
    exact ⟨(h.file _ hr).1, .refl _⟩
  missing hnone := by
    rw [hr] at hnone
    cases hnone
  link d hd := by
    obtain ⟨-, -, -, e, he, hattached⟩ := h.link d hd
    obtain rfl := Option.some.inj (hr.symm.trans he)
    exact ⟨hattached.device, hattached.evicted, hattached.prepared, _, he, hattached⟩
  group hres e he p hp := by
    have he : e ∈ s.volume.record := by
      rcases he with rfl | he
      · exact hr
      · exact he
    exact h.group hres e (.inr he) p hp

/-- Only the volumes of the table have records. -/
theorem Service.opened_volumes (σ : Service) :
    opened σ.volumes = opened (σ.slots.map Slot.volume) := by
  have hdebris : opened (σ.debris.map emptyDirectory) = [] := by
    rw [opened, List.filterMap_map]
    exact List.filterMap_eq_nil_iff.mpr fun _ _ => rfl
  have hthreads : σ.slots.map Slot.volume = σ.threads.map fun t => t.slot.volume := by
    rw [Service.slots, List.map_map]
    rfl
  rw [hthreads, Service.volumes, opened, List.filterMap_append]
  exact (congrArg _ hdebris).trans (List.append_nil _)

/-- A crash leaves the files in order. -/
theorem Service.Sound.crash (h : σ.Sound cfg) : Left cfg σ.volumes := by
  have hof {v : Volume} (hv : v ∈ σ.volumes) :
      (∃ s ∈ σ.slots, s.volume = v) ∨ ∃ id ∈ σ.debris, emptyDirectory id = v := by
    rcases List.mem_append.mp hv with hv | hv
    · obtain ⟨t, ht, rfl⟩ := List.mem_map.mp hv
      exact .inl ⟨t.slot, List.mem_map_of_mem ht, rfl⟩
    · obtain ⟨id, hid, rfl⟩ := List.mem_map.mp hv
      exact .inr ⟨id, hid, rfl⟩
  have hslot {s : Slot} (hs : s ∈ opened σ.volumes) :
      ∃ s' ∈ σ.slots, s'.volume = s.volume ∧ s'.volume.record = some s.entry := by
    obtain ⟨hv, hr⟩ := mem_opened.mp hs
    rcases hof hv with ⟨s', hs', heq⟩ | ⟨id, -, heq⟩
    · exact ⟨s', hs', heq, heq ▸ hr⟩
    · rw [← heq] at hr
      cases hr
  have hreserves {s s' : Slot} (hr : s'.volume.record = some s.entry) (heq : s'.volume = s.volume)
      {d : Path} (hd : s.Reserves d) : s'.Reserves d := by
    obtain ⟨r, rfl | hfile, hkept⟩ := hd
    · exact ⟨s.entry, .inr hr, hkept⟩
    · exact ⟨r, .inr (heq ▸ hfile), hkept⟩
  exact
    { valid := fun v hv => by
        rcases hof hv with ⟨s, hs, rfl⟩ | ⟨id, hid, rfl⟩
        · exact h.valid s hs
        · exact h.debris id hid
      bare := fun v hv hnone => by
        rcases hof hv with ⟨s, hs, rfl⟩ | ⟨id, hid, rfl⟩
        · cases hlink : s.volume.link with
          | none => rfl
          | some d =>
            obtain ⟨-, -, -, r, hr, -⟩ := (h.sound s hs).link d hlink
            rw [hnone] at hr
            cases hr
        · rfl
      keyed := by
        have hsublist : ((opened σ.volumes).map Slot.id).Sublist (σ.slots.map Slot.id) := by
          rw [σ.opened_volumes]
          induction σ.slots with
          | nil => exact List.Sublist.refl _
          | cons s slots ih =>
            rw [List.map_cons, opened_cons, List.map_append, List.map_cons]
            cases s.volume.record with
            | none => exact ih.cons _
            | some r => exact ih.cons_cons _
        exact hsublist.nodup h.keyed
      sound := fun s hs => by
        obtain ⟨s', hs', heq, hr⟩ := hslot hs
        have hsound := (h.sound s' hs').reread hr
        rw [heq] at hsound
        exact hsound
      exclusive := fun s hs t ht d hsd htd => by
        obtain ⟨s', hs', heq, hr⟩ := hslot hs
        obtain ⟨t', ht', heq', hr'⟩ := hslot ht
        have hid := h.exclusive s' hs' t' ht' d (hreserves hr heq hsd) (hreserves hr' heq' htd)
        exact (congrArg Volume.id heq).symm.trans (hid.trans (congrArg Volume.id heq')) }

/-! ## Opening -/

/-- A record in order is loaded as it is. -/
theorem Record.Sound.load {r : Record} (h : r.Sound cfg) : r.load = .ok r := by
  unfold Record.load
  cases hreclaimed : r.reclaimed with
  | false => rfl
  | true =>
    have hreleased := h.reclaimed hreclaimed
    obtain ⟨hevicted, hdeleted⟩ := h.released hreleased
    simp [hreleased, hevicted, hdeleted, (h.evicted hevicted).2]

/-- Its bindings pass the check. -/
theorem Record.Sound.bound {r : Record} {id : String} (h : r.Sound cfg) (hid : r.id = id) :
    r.bound cfg id = true := by
  have hidle (he : r.evicted = true) : (!r.prepared && !r.deleted) = false ∧ r.busy = false := by
    obtain ⟨hkind, hbusy⟩ := h.evicted he
    refine ⟨?_, hbusy⟩
    rcases hkind with hp | hd
    · simp [hp]
    · simp [hd]
  have hgc : (r.gcAfter.any fun k => !validId k) = false := by
    cases hg : r.gcAfter with
    | none => rfl
    | some k =>
      have hall := h.gcAfter
      rw [hg] at hall
      simpa using hall
  have hreleased : (r.logicalReleased && (!r.deleted || r.busy)) = false := by
    cases hr : r.logicalReleased with
    | false => rfl
    | true =>
      obtain ⟨he, hd⟩ := h.released hr
      simp [hd, (hidle he).2]
  have hreclaimed : (r.reclaimed && (!r.deleted || r.busy)) = false := by
    cases hr : r.reclaimed with
    | false => rfl
    | true =>
      rw [h.reclaimed hr] at hreleased
      simpa using hreleased
  have hevicted : (r.evicted && ((!r.prepared && !r.deleted) || r.busy)) = false := by
    cases he : r.evicted with
    | false => rfl
    | true => simp [hidle he]
  unfold Record.bound
  rw [hreleased, hreclaimed, hevicted, hgc]
  simp [hid, h.device, h.sandbox]

/-- The processes that a record names are in the volume's group. -/
theorem verified {v : Volume} {ps : List Process} (h : ∀ p ∈ ps, p ∈ v.group) :
    (forIn ps PUnit.unit fun p _ => do
      P.verify v p
      pure (.yield PUnit.unit) : Result PUnit) = .ok PUnit.unit := by
  induction ps with
  | nil => rfl
  | cons p ps ih =>
    have hp : P.verify v p = .ok () := if_neg fun hout => hout.2 (h p List.mem_cons_self)
    rw [List.forIn_cons, hp]
    exact ih fun q hq => h q (List.mem_cons_of_mem _ hq)

theorem opened_bind {α β : Type} (a : α) (f : α → Result β) :
    ((.ok a : Result α) >>= f) = f a := rfl

/-- A directory without a record. -/
theorem add_missing {v : Volume} {o o' : Opening} (hvalid : validId v.id = true)
    (hr : v.record = none) :
    Opening.add cfg P o v = .ok o' ↔ v.owner = false ∧ o' = o := by
  unfold Opening.add
  rw [hvalid, hr]
  cases howner : v.owner with
  | false => simp [pure, Except.pure, eq_comm]
  | true => simp [throw, throwThe, MonadExceptOf.throw]

/-- A directory with a record. -/
theorem add_record {s : Slot} {o o' : Opening} (hvalid : validId s.id = true)
    (h : s.Sound cfg) (hr : s.volume.record = some s.entry) :
    Opening.add cfg P o s.volume = .ok o' ↔ P.width s.entry ≤ maxRecordBytes ∧
      (s.entry.evicted = false → s.entry.device ∉ o.assigned) ∧
      ∃ usage, o.usage.count s.entry = .ok usage ∧ o' = {
        usage
        assigned := if s.entry.claims then s.entry.device :: o.assigned else o.assigned
        slots := o.slots ++ [s] } := by
  have hbound : (!s.entry.bound cfg s.volume.id) = false := by rw [h.entry.bound h.id]; rfl
  unfold Opening.add
  rw [show validId s.volume.id = true from hvalid, hr]
  simp only [not_true_eq_false, if_false]
  by_cases hwidth : maxRecordBytes < P.width s.entry
  · rw [show P.read (some s.entry) = .error "record too large" from if_pos hwidth]
    exact ⟨fun h => (by cases h), fun h => absurd h.1 (Nat.not_le_of_lt hwidth)⟩
  rw [show P.read (some s.entry) = .ok s.entry from if_neg hwidth]
  have hwidth := Nat.le_of_not_lt hwidth
  simp only [hwidth, true_and]
  show (s.entry.load >>= _) = _ ↔ _
  rw [h.entry.load, opened_bind]
  have hverified (hres : cfg.resources = true) :
      (forIn s.entry.processes PUnit.unit fun p _ => do
        P.verify s.volume p
        pure (.yield PUnit.unit) : Result PUnit) = .ok PUnit.unit :=
    verified fun p hp => h.group hres s.entry (.inl rfl) p hp
  simp only [hbound, Bool.false_eq_true, if_false]
  cases hcount : o.usage.count s.entry with
  | error e =>
    split
    · rename_i hres
      rw [hverified hres]
      exact ⟨fun h => (by cases h), fun h => (by obtain ⟨-, u, hu, -⟩ := h; cases hu)⟩
    · exact ⟨fun h => (by cases h), fun h => (by obtain ⟨-, u, hu, -⟩ := h; cases hu)⟩
  | ok usage =>
    have hrest : ((if (s.entry.claims && decide (s.entry.device ∈ o.assigned)) = true then
        (throw "duplicate device assignment" : Result Opening)
      else pure {
        usage
        assigned := if s.entry.claims then s.entry.device :: o.assigned else o.assigned
        slots := o.slots ++ [s] }) = .ok o') ↔
        (s.entry.evicted = false → s.entry.device ∉ o.assigned) ∧
          ∃ u, (Except.ok usage : Result Usage) = .ok u ∧ o' = {
            usage := u
            assigned := if s.entry.claims then s.entry.device :: o.assigned else o.assigned
            slots := o.slots ++ [s] } := by
      rw [← h.entry.claims_iff]
      by_cases hdup : (s.entry.claims && decide (s.entry.device ∈ o.assigned)) = true
      · rw [if_pos hdup]
        simp only [Bool.and_eq_true, decide_eq_true_eq] at hdup
        exact ⟨fun h => (by cases h), fun h => absurd hdup.2 (h.1 hdup.1)⟩
      · rw [if_neg hdup]
        simp only [Bool.and_eq_true, decide_eq_true_eq, not_and] at hdup
        constructor
        · intro heq
          exact ⟨hdup, usage, rfl, (Except.ok.inj heq).symm⟩
        · rintro ⟨-, u, hu, rfl⟩
          rw [Except.ok.inj hu]
          rfl
    split
    · rename_i hres
      rw [hverified hres, opened_bind, opened_bind, ← hrest]
      split
      · rfl
      · rfl
    · rw [opened_bind, ← hrest]
      split
      · rfl
      · rfl

section Folds

variable {volumes : List Volume} {o o' : Opening}

theorem mem_opened_head {v : Volume} {r : Record} (hr : v.record = some r) :
    (⟨v, r⟩ : Slot) ∈ opened (v :: volumes) :=
  mem_opened.mpr ⟨List.mem_cons_self, hr⟩

theorem mem_opened_tail {v : Volume} {s : Slot} (hs : s ∈ opened volumes) :
    s ∈ opened (v :: volumes) := by
  obtain ⟨hmem, hr⟩ := mem_opened.mp hs
  exact mem_opened.mpr ⟨List.mem_cons_of_mem _ hmem, hr⟩

/-- What `open` gathers if it fails nowhere. -/
theorem adds_ok (hvalid : ∀ v ∈ volumes, validId v.id = true)
    (hsound : ∀ s ∈ opened volumes, s.Sound cfg)
    (h : volumes.foldlM (Opening.add cfg P) o = .ok o') :
    (∀ v ∈ volumes, v.record = none → v.owner = false) ∧
    (∀ s ∈ opened volumes, P.width s.entry ≤ maxRecordBytes) ∧
    tally o.usage (opened volumes) = .ok o'.usage ∧
    o'.slots = o.slots ++ opened volumes ∧
    ∀ d, d ∈ o'.assigned ↔ d ∈ o.assigned ∨
      ∃ s ∈ opened volumes, s.entry.evicted = false ∧ s.entry.device = d := by
  induction volumes generalizing o with
  | nil =>
    obtain rfl := Except.ok.inj h
    refine ⟨by simp, by simp [opened], rfl, (List.append_nil _).symm, fun d => ?_⟩
    simp [opened]
  | cons v volumes ih =>
    rw [List.foldlM_cons] at h
    obtain ⟨o₁, hadd, h⟩ := bind_ok h
    have hvalid' := hvalid v List.mem_cons_self
    obtain ⟨hbare, hwidth, husage, hslots, hassigned⟩ :=
      ih (fun v hv => hvalid v (List.mem_cons_of_mem _ hv))
        (fun s hs => hsound s (mem_opened_tail hs)) h
    cases hr : v.record with
    | none =>
      obtain ⟨howner, rfl⟩ := (add_missing hvalid' hr).mp hadd
      rw [opened_cons, hr]
      refine ⟨fun w hw hnone => ?_, hwidth, husage, hslots, hassigned⟩
      rcases List.mem_cons.mp hw with rfl | hw
      · exact howner
      · exact hbare w hw hnone
    | some r =>
      have hmem : (⟨v, r⟩ : Slot) ∈ opened (v :: volumes) := mem_opened_head hr
      obtain ⟨hfits, -, usage, hcount, rfl⟩ :=
        (add_record (s := ⟨v, r⟩) hvalid' (hsound _ hmem) hr).mp hadd
      have hclaims := (hsound _ hmem).entry.claims_iff
      rw [opened_cons, hr]
      refine ⟨fun w hw hnone => ?_, ?_, ?_, ?_, fun d => ?_⟩
      · rcases List.mem_cons.mp hw with rfl | hw
        · rw [hr] at hnone
          cases hnone
        · exact hbare w hw hnone
      · intro s hs
        rcases List.mem_cons.mp hs with rfl | hs
        · exact hfits
        · exact hwidth s hs
      · rw [Option.map_some, Option.toList_some, List.singleton_append, tally,
          List.foldlM_cons, hcount]
        exact husage
      · rw [hslots, List.append_assoc]
        rfl
      · rw [hassigned d]
        constructor
        · rintro (hold | ⟨s, hs, hkept⟩)
          · by_cases hc : r.claims = true
            · rw [if_pos hc] at hold
              rcases List.mem_cons.mp hold with rfl | hold
              · exact .inr ⟨_, List.mem_cons_self, hclaims.mp hc, rfl⟩
              · exact .inl hold
            · rw [if_neg hc] at hold
              exact .inl hold
          · exact .inr ⟨s, List.mem_cons_of_mem _ hs, hkept⟩
        · rintro (hold | ⟨s, hs, hevicted, hdevice⟩)
          · refine .inl ?_
            split
            · exact List.mem_cons_of_mem _ hold
            · exact hold
          · rcases List.mem_cons.mp hs with rfl | hs
            · rw [if_pos (hclaims.mpr hevicted)]
              exact .inl (List.mem_cons.mpr (.inl hdevice.symm))
            · exact .inr ⟨s, hs, hevicted, hdevice⟩

/-- Directories that `open` can read. -/
theorem adds_total (hvalid : ∀ v ∈ volumes, validId v.id = true)
    (hsound : ∀ s ∈ opened volumes, s.Sound cfg)
    (hkeyed : Table.Keyed Slot.id (opened volumes))
    (hexclusive : ∀ s ∈ opened volumes, ∀ t ∈ opened volumes, ∀ d, s.Reserves d → t.Reserves d →
      s.id = t.id)
    (hbare : ∀ v ∈ volumes, v.record = none → v.owner = false)
    (hwidth : ∀ s ∈ opened volumes, P.width s.entry ≤ maxRecordBytes) {usage : Usage}
    (husage : tally o.usage (opened volumes) = .ok usage)
    (hfree : ∀ s ∈ opened volumes, s.entry.evicted = false → s.entry.device ∉ o.assigned) :
    ∃ o', volumes.foldlM (Opening.add cfg P) o = .ok o' := by
  induction volumes generalizing o with
  | nil => exact ⟨o, rfl⟩
  | cons v volumes ih =>
    have hvalid' := hvalid v List.mem_cons_self
    have htail {s : Slot} (hs : s ∈ opened volumes) := mem_opened_tail (v := v) hs
    have hgo {o₁ : Opening} (hadd : Opening.add cfg P o v = .ok o₁)
        (hkeyed : Table.Keyed Slot.id (opened volumes))
        (husage : tally o₁.usage (opened volumes) = .ok usage)
        (hfree : ∀ s ∈ opened volumes, s.entry.evicted = false → s.entry.device ∉ o₁.assigned) :
        ∃ o', (v :: volumes).foldlM (Opening.add cfg P) o = .ok o' := by
      rw [List.foldlM_cons, hadd]
      exact ih (fun v hv => hvalid v (List.mem_cons_of_mem _ hv))
        (fun s hs => hsound s (htail hs)) hkeyed
        (fun s hs t ht => hexclusive s (htail hs) t (htail ht))
        (fun v hv => hbare v (List.mem_cons_of_mem _ hv)) (fun s hs => hwidth s (htail hs)) husage
        hfree
    cases hr : v.record with
    | none =>
      rw [opened_cons, hr] at hkeyed husage
      exact hgo ((add_missing hvalid' hr).mpr ⟨hbare v List.mem_cons_self hr, rfl⟩) hkeyed husage
        fun s hs => hfree s (htail hs)
    | some r =>
      have hmem : (⟨v, r⟩ : Slot) ∈ opened (v :: volumes) := mem_opened_head hr
      rw [opened_cons, hr] at hkeyed husage
      have hkeyed : ((⟨v, r⟩ : Slot) :: opened volumes).map Slot.id |>.Nodup := hkeyed
      rw [Option.map_some, Option.toList_some, List.singleton_append, tally, List.foldlM_cons]
        at husage
      obtain ⟨next, hcount, husage⟩ := bind_ok husage
      rw [List.map_cons, List.nodup_cons] at hkeyed
      have hadd := (add_record (s := ⟨v, r⟩) (P := P) (o := o) hvalid' (hsound _ hmem) hr).mpr
        ⟨hwidth _ hmem, hfree _ hmem, next, hcount, rfl⟩
      refine hgo hadd hkeyed.2 husage fun s hs hevicted hassigned => ?_
      have hclaims := (hsound _ hmem).entry.claims_iff
      -- another volume with the device would be this one
      have hother (hr' : r.evicted = false) : s.entry.device ≠ r.device := fun hsame => by
        have hid := hexclusive s (htail hs) _ hmem r.device
          ⟨s.entry, .inl rfl, hevicted, hsame⟩ ⟨r, .inl rfl, hr', rfl⟩
        exact hkeyed.1 (hid ▸ List.mem_map_of_mem hs)
      split at hassigned
      · rename_i hc
        rcases List.mem_cons.mp hassigned with hsame | hold
        · exact hother (hclaims.mp hc) hsame
        · exact hfree s (htail hs) hevicted hold
      · exact hfree s (htail hs) hevicted hassigned

end Folds

/-- Exactly when a supervisor can be started again. -/
theorem Left.opens_iff {volumes : List Volume} (h : Left cfg volumes) :
    (∃ slots, openVolumes cfg P volumes = .ok slots) ↔
      (∀ v ∈ volumes, v.record = none → v.owner = false) ∧
      (∀ s ∈ opened volumes, P.width s.entry ≤ maxRecordBytes) ∧
      ∃ usage, tally .empty (opened volumes) = .ok usage := by
  unfold openVolumes
  constructor
  · rintro ⟨slots, hok⟩
    obtain ⟨o, hfold, -⟩ := bind_ok hok
    obtain ⟨hbare, hwidth, husage, -, -⟩ := adds_ok h.valid h.sound hfold
    exact ⟨hbare, hwidth, o.usage, husage⟩
  · rintro ⟨hbare, hwidth, usage, husage⟩
    obtain ⟨o, hfold⟩ := adds_total (P := P) (o := ⟨.empty, [], []⟩) h.valid h.sound h.keyed
      h.exclusive hbare hwidth husage fun _ _ _ => List.not_mem_nil
    obtain ⟨-, -, -, -, hassigned⟩ := adds_ok h.valid h.sound hfold
    refine ⟨o.slots, ?_⟩
    rw [hfold, opened_bind, if_neg]
    · rfl
    -- an attachment is one that a record accounts for
    simp only [List.any_eq_true, not_exists, not_and]
    rintro d - hd
    obtain ⟨hlink, hfree⟩ := Bool.and_eq_true_iff.mp hd
    obtain ⟨v, hv, hlink⟩ := List.any_eq_true.mp hlink
    have hlink := of_decide_eq_true hlink
    cases hr : v.record with
    | none => rw [h.bare v hv hr] at hlink; cases hlink
    | some r =>
      have hmem : (⟨v, r⟩ : Slot) ∈ opened volumes := mem_opened.mpr ⟨hv, hr⟩
      obtain ⟨hdevice, hevicted, -⟩ := (h.sound _ hmem).link d hlink
      exact of_decide_eq_true hfree ((hassigned d).mpr (.inr ⟨_, hmem, hevicted, hdevice⟩))

/-- By induction on the files, the service opens every volume it left. -/
theorem Left.opens {volumes : List Volume} {slots : List Slot} (h : Left cfg volumes)
    (hok : openVolumes cfg P volumes = .ok slots) : slots = opened volumes := by
  unfold openVolumes at hok
  obtain ⟨o, hfold, hok⟩ := bind_ok hok
  obtain ⟨-, -, -, hslots, -⟩ := adds_ok h.valid h.sound hfold
  obtain ⟨-, hok⟩ := refuse_ok hok
  exact (Except.ok.inj hok).symm.trans hslots

/-- A service that was opened again is sound. -/
theorem Left.started {volumes : List Volume} {images : List Image} (h : Left cfg volumes) :
    (Service.started (opened volumes) images).Sound cfg := by
  have hslots : (Service.started (opened volumes) images).slots = opened volumes := by
    show (List.map _ _).map Thread.slot = _
    rw [List.map_map]
    exact List.map_id _
  have hof {s : Slot} (hs : s ∈ (Service.started (opened volumes) images).slots) :
      s ∈ opened volumes := by
    rwa [hslots] at hs
  exact
    { keyed := by
        rw [hslots]
        exact h.keyed
      valid := fun s hs => h.valid _ (mem_opened.mp (hof hs)).1
      debris := fun id hid => by cases hid
      sound := fun s hs => h.sound s (hof hs)
      jobs := fun t ht p hp => by
        obtain ⟨s, -, rfl⟩ := List.mem_map.mp ht
        cases hp
      probes := fun p hp => by cases hp
      waiting := fun q hq => by cases hq
      agrees := fun _ s hs => by
        have hr := (mem_opened.mp (hof hs)).2
        refine ⟨by simp [hr], fun r he => ?_⟩
        obtain rfl := Option.some.inj (hr.symm.trans he)
        exact ⟨rfl, rfl, rfl⟩
      exclusive := fun s hs t ht => h.exclusive s (hof hs) t (hof ht) }

/-! ## Runs -/

private theorem mem_removed {α : Type*} {before after : List α} {a b : α}
    (h : a ∈ before ++ after) : a ∈ before ++ b :: after := by
  rcases List.mem_append.mp h with h | h
  · exact List.mem_append_left _ h
  · exact List.mem_append_right _ (List.mem_cons_of_mem _ h)

private theorem mem_replaced {α : Type*} {before after : List α} {a b c : α}
    (h : a ∈ before ++ b :: after) : a = b ∨ a ∈ before ++ c :: after := by
  rcases List.mem_append.mp h with h | h
  · exact .inr (List.mem_append_left _ h)
  · rcases List.mem_cons.mp h with rfl | h
    · exact .inl rfl
    · exact .inr (List.mem_append_right _ (List.mem_cons_of_mem _ h))

/-- What one step keeps true. -/
theorem System.Sound.step {st st' : System} {e : Event} (h : st.Sound cfg)
    (hs : st.Step cfg P D C e st') : st'.Sound cfg := by
  cases hs with
  | enter hsaved hC hok =>
    obtain ⟨hsound, hmem⟩ := Service.Sound.entry h hsaved hok
    split
    · rename_i hres
      exact
        { hsound with
          waiting := fun q hq hprepare => by
            rcases List.mem_cons.mp hq with rfl | hq
            · exact hmem hres hprepare
            · exact hsound.waiting q hq hprepare }
    · exact hsound
  | lock hq ht =>
    rename_i σ q slot
    have hslot := Service.mem_slots ht
    have hrest : Service.Sound cfg { σ with waiting := σ.waiting.erase q } :=
      Service.Sound.of_same h rfl h.probes rfl (fun p hp => List.mem_of_mem_erase hp) rfl
    refine hrest.advance ht fun p hp => ?_
    obtain rfl := Option.some.inj hp
    refine VolumeOp.request_ends (h.sound slot hslot.1) fun hprepare => ?_
    obtain ⟨s, hs, hid, hfile⟩ := h.waiting q hq hprepare
    rwa [← h.eq_of_id ht hs hid]
  | refuse =>
    exact Service.Sound.of_same h rfl h.probes rfl (fun p hp => List.mem_of_mem_erase hp) rfl
  | probe ht hdue =>
    refine Service.Sound.of_same h rfl (fun p hp => ?_) rfl (fun q hq => hq) rfl
    rcases List.mem_append.mp hp with hp | hp
    · exact h.probes p hp
    · obtain rfl := List.mem_singleton.mp hp
      exact VolumeOp.healthy_ends _
  | probeAct hp ht hdoes hshares =>
    obtain ⟨hlooks, hnext⟩ := h.probes _ (hp ▸ List.mem_append_right _ List.mem_cons_self)
    obtain ⟨rfl, rfl⟩ := hlooks.still hdoes hshares
    refine Service.Sound.of_same (Service.Sound.advance h ht ?_) rfl (fun p hmem => ?_) rfl
      (fun q hq => hq) rfl
    · exact h.jobs _ (Table.row_mem ht).1
    · rcases mem_replaced hmem with rfl | hmem
      · exact hnext _ () trivial
      · exact h.probes p (hp ▸ hmem)
  | dismiss hp =>
    refine Service.Sound.of_same h rfl (fun p hmem => ?_) rfl (fun q hq => hq) rfl
    exact h.probes p (hp ▸ mem_removed hmem)
  | recover hp ht =>
    rename_i σ id slot before after
    have hrest : Service.Sound cfg { σ with probes := before ++ after } :=
      Service.Sound.of_same h rfl (fun p hmem => h.probes p (hp ▸ mem_removed hmem)) rfl
        (fun q hq => hq) rfl
    refine hrest.advance ht fun p hp => ?_
    obtain rfl := Option.some.inj hp
    exact Service.recovery_ends (h.sound _ (Service.mem_slots ht).1)
  | act ht hC hdoes hshares => exact Service.Sound.act h ht hdoes hshares
  | finish ht => exact Service.Sound.advance h ht fun p hp => by cases hp
  | register hid => exact Service.Sound.of_same h rfl h.probes rfl (fun q hq => hq) rfl
  | imageRequest hid hr ht => exact Service.Sound.of_same h rfl h.probes rfl (fun q hq => hq) rfl
  | builder hr hq hmetadata hbytes ht =>
    refine Service.Sound.advance h ht fun p hp => ?_
    obtain rfl := Option.some.inj hp
    exact VolumeOp.builder_ends
  | imageAct ht hdoes hshares =>
    rw [ImageAct.shares_rest hshares]
    exact Service.Sound.of_same h rfl h.probes rfl (fun q hq => hq) rfl
  | imageFinish ht => exact Service.Sound.of_same h rfl h.probes rfl (fun q hq => hq) rfl
  | statusRequest hid hr hq ht =>
    exact Service.Sound.of_same h rfl h.probes rfl (fun q hq => hq) rfl
  | statusAct hr ht hdoes hshares =>
    rw [ImageAct.shares_rest hshares]
    exact Service.Sound.of_same h rfl h.probes rfl (fun q hq => hq) rfl
  | statusFinish hr => exact Service.Sound.of_same h rfl h.probes rfl (fun q hq => hq) rfl
  | crash => exact Service.Sound.crash h
  | restart hok =>
    rw [Left.opens h hok]
    exact Left.started h

/-- Every reachable system is sound. -/
theorem System.Reachable.sound {st : System} (h : System.Reachable cfg P D C st) :
    st.Sound cfg := by
  induction h with
  | start =>
    exact ⟨by simp, by simp, List.nodup_nil, by simp [opened], by simp [opened]⟩
  | step _ hs ih => exact ih.step hs

/-- The next action of an operation. -/
def Thread.Next (t : Thread) {β : Type} (a : Act β) : Prop :=
  ∃ next : β → VolumeOp Reply, t.job = some (.act a next)

/-- The next action of a health probe. -/
def Probe.Next (p : Probe) {β : Type} (a : Act β) : Prop :=
  ∃ next : β → VolumeOp Bool, p.job = .act a next

/-- Who may look at a device or work on it. -/
structure Service.Guarded (cfg : Config) (P : Surroundings) (σ : Service) : Prop where
  /-- An operation works on the device that its volume reserves, and no other volume does. -/
  operation : ∀ t ∈ σ.threads, ∀ (β : Type) (a : Act β), t.Next a → ∀ d ∈ a.device,
    t.slot.Reserves d ∧ ∀ s ∈ σ.slots, s.Reserves d → s.id = t.id
  /-- An evicted volume that is to be resident again looks at a device that is not reserved. -/
  residency : ∀ t ∈ σ.threads, t.Next .reserve → ∀ d, σ.residency cfg P t.slot.entry = .ok d →
    d ∈ cfg.devices ∧ ∀ s ∈ σ.slots, ¬ s.Reserves d
  /-- So does the admission of a new volume. -/
  admission : ∀ q o, ∀ d ∈ σ.entryDevice cfg P q o,
    d ∈ cfg.devices ∧ ∀ s ∈ σ.slots, ¬ s.Reserves d
  /-- A health probe looks at the device of its copy of the record, which may have passed to
  another volume since, and changes nothing. -/
  probe : ∀ p ∈ σ.probes, ∀ (β : Type) (a : Act β), p.Next a →
    (∀ d ∈ a.device, p.snapshot.evicted = false ∧ p.snapshot.device = d) ∧
      ∀ s b s' σ', a.does cfg s b s' → a.shares cfg P σ s b s' σ' → s' = s ∧ σ' = σ

/-- A pass looks only at a device that its own volume reserves. -/
theorem Service.Sound.operation (h : σ.Sound cfg) {t : Thread} (ht : t ∈ σ.threads) {β : Type}
    {a : Act β} (hnext : t.Next a) {d : Path} (hd : d ∈ a.device) :
    t.slot.Reserves d ∧ ∀ s ∈ σ.slots, s.Reserves d → s.id = t.id := by
  obtain ⟨next, hjob⟩ := hnext
  obtain ⟨hallowed, -⟩ := h.jobs t ht _ hjob
  have hholds : t.slot.Holds d := by
    cases a <;> first | (cases hd; first | exact hallowed | exact hallowed.1) | cases hd
  have hreserves : t.slot.Reserves d := ⟨t.slot.entry, .inl rfl, hholds.1, hholds.2⟩
  refine ⟨hreserves, fun s hs hsd => ?_⟩
  exact h.exclusive s hs t.slot (List.mem_map_of_mem ht) d hsd hreserves

/-- The device that an admission looks at is one that nobody reserves. -/
theorem Service.Sound.entryDevice (h : σ.Sound cfg) {q : Request} {o : Outcomes} {d : Path}
    (hd : d ∈ σ.entryDevice cfg P q o) : d ∈ cfg.devices ∧ ∀ s ∈ σ.slots, ¬ s.Reserves d := by
  unfold Service.entryDevice at hd
  split at hd
  · cases hd
  rename_i hadmits
  have hfrozen : σ.frozen = false := by
    by_contra hf
    exact hadmits (.inr (.inr (.inr (.inl (by simpa using hf)))))
  cases hok : σ.admissionDevice cfg P q o with
  | error e =>
    rw [hok] at hd
    cases hd
  | ok found =>
    rw [hok] at hd
    obtain ⟨image, device⟩ := found
    obtain rfl : device = d := Option.some.inj hd
    obtain ⟨-, rs, used, hrs, -, -, hfree⟩ := Service.admissionDevice_ok hok
    exact ⟨(freeDevice_ok hfree).1, h.not_reserves hfrozen hrs hfree⟩

/-- What is looked at, and by whom, in every sound state. -/
theorem Service.Sound.guarded (h : σ.Sound cfg) : σ.Guarded cfg P where
  operation _ ht _ _ hnext _ hd := h.operation ht hnext hd
  residency t ht _ d hd := by
    obtain ⟨hfrozen, rs, used, hrs, -, -, hfree⟩ := Service.residency_ok hd
    exact ⟨(freeDevice_ok hfree).1, h.not_reserves hfrozen hrs hfree⟩
  admission _ _ _ hd := h.entryDevice hd
  probe p hp β a hnext := by
    obtain ⟨next, hjob⟩ := hnext
    have hkeeps := h.probes p hp
    rw [hjob] at hkeeps
    have hlooks : a.looksAt p.snapshot := hkeeps.1
    exact ⟨fun d hd => hlooks.device hd, fun s b s' σ' hdoes hshares => hlooks.still hdoes hshares⟩

/-- In every state that the supervisor reaches, whatever is asked of it in whatever order, and
wherever it crashes or fails to save a record: every record in memory and on disk is sound, and no
two volumes reserve one device. An operation works on a device only while its volume reserves it
and no other volume does; what an admission looks at is a device that nobody reserves; and a
health probe, which does not hold its volume, only looks. After a crash the service opens again,
except when a directory was used before its record was written, a record is too large to be read,
or the reservations do not add up. -/
theorem supervisor_sound {st : System} (h : System.Reachable cfg P D C st) :
    st.Sound cfg ∧ (∀ σ, st = .up σ → σ.Guarded cfg P) ∧
    ∀ volumes images, st = .down volumes images →
      ((∃ slots, openVolumes cfg P volumes = .ok slots) ↔
        (∀ v ∈ volumes, v.record = none → v.owner = false) ∧
        (∀ s ∈ opened volumes, P.width s.entry ≤ maxRecordBytes) ∧
        ∃ usage, tally .empty (opened volumes) = .ok usage) := by
  have hsound := h.sound
  refine ⟨hsound, ?_, ?_⟩
  · rintro σ rfl
    exact Service.Sound.guarded hsound
  · rintro volumes images rfl
    exact Left.opens_iff hsound

/-- A host with one device. -/
def oneDevice : Config where
  limits := ⟨65536, 65536, journalBytes, cacheBytes⟩
  resources := false
  engineRoot := ["engine"]
  projectImageRoot := none
  devices := [["dev", "nbd0"]]

/-- No process runs, and records are short. -/
def quietHost : Surroundings := ⟨fun _ => false, fun _ => 400⟩

/-- A volume of one chunk is to be prepared. -/
def oneChunk : Request where
  version := 1
  operation := .prepare
  volumeId := "aaaaaaaaaaaaaaaaaaaaaaaaaaaaaaaaaaaaaaaaaaaaaaaaaaaaaaaaaaaaaaaa"
  sandboxDir := ["engine", "sandbox"]
  image := some ["images", "base"]
  logicalBytes := some 65536
  projectImage := none

/-- All calls of an admission succeed. -/
def allGranted : Outcomes where
  binding := .ok ()
  canonical := .ok ["images", "base"]
  info := .ok ()
  trusted := .ok ()
  bytes := 65536
  regular := true
  attached := .ok false
  directory := .ok ()
  stored := true
  saved := .ok ()

/-- A new supervisor admits the volume. -/
def firstEntry : Result Unit × Service :=
  (Service.started [] []).entry oneDevice quietHost oneChunk allGranted

/-- A service whose first volume waits for its preparation. -/
def oneVolume : Service :=
  if firstEntry.1 = .ok () then { firstEntry.2 with waiting := oneChunk :: firstEntry.2.waiting }
  else firstEntry.2

/-- Digests that nothing is compared with. -/
def noDigests : Digests := ⟨id, fun _ => "", fun _ => ""⟩

/-- A service without volumes. -/
theorem empty_reachable :
    System.Reachable oneDevice quietHost noDigests .any (.up (Service.started [] [])) := by
  have hopen : openVolumes oneDevice quietHost [] = .ok [] := by rfl
  exact .step .start (.restart hopen)

/-- It admits a volume. -/
theorem oneVolume_admitted :
    System.Step oneDevice quietHost noDigests .any (.up (Service.started [] [])) (.volume true)
      (.up oneVolume) := by
  have hentry : (Service.started [] []).entry oneDevice quietHost oneChunk allGranted =
      (firstEntry.1, firstEntry.2) := Prod.mk.eta.symm
  have hevent : entryEvent (Service.started [] []) oneChunk firstEntry.1 = .volume true := by
    decide
  exact hevent ▸ .enter (fun _ => rfl) trivial hentry

/-- A service with one volume is reachable. -/
theorem oneVolume_reachable :
    System.Reachable oneDevice quietHost noDigests .any (.up oneVolume) :=
  .step empty_reachable oneVolume_admitted

/-- The supervisor looks at a device before it admits a volume, crashes and opens again. -/
theorem supervisor_sound_reopened :
    (Service.started [] []).entryDevice oneDevice quietHost oneChunk allGranted =
        some ["dev", "nbd0"] ∧
      (Service.started [] []).Guarded oneDevice quietHost ∧
      oneVolume.slots.map (fun s => s.entry.device) = [["dev", "nbd0"]] ∧
      ∃ slots, openVolumes oneDevice quietHost oneVolume.volumes = .ok slots := by
  refine ⟨by decide, (supervisor_sound empty_reachable).2.1 _ rfl, by decide, ?_⟩
  refine ((supervisor_sound (oneVolume_reachable.step .crash)).2.2 _ _ rfl).mpr
    ⟨by decide, by decide, ?_⟩
  have hsome : (tally .empty (opened oneVolume.volumes)).toOption.isSome = true := by decide
  cases htally : tally .empty (opened oneVolume.volumes) with
  | error e =>
    rw [htally] at hsome
    cases hsome
  | ok usage => exact ⟨usage, rfl⟩

end AgentHouse.Host
