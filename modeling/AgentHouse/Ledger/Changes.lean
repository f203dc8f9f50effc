import AgentHouse.Ledger.System

/-!
# What a successful call does

One constructor of `Change` for each way in which a call can succeed, with the checks that it has
passed. Everything about histories is derived from it.
-/

namespace AgentHouse.Ledger

variable {parse : String → Option Json} {db db' : Db}

/-- The references after a retention call, and what it has found on the way. -/
structure Retained (db : Db) (set : RetentionSet) (refs : List ImageRef) : Prop where
  newer : ∀ old ∈ db.retentionOf set.ownerUserId set.tenantId set.projectId,
    old.generation < set.generation
  positive : 1 ≤ set.generation
  checks : ∀ entry ∈ set.named, set.check db entry = .ok ()
  owner : db.user set.ownerUserId ≠ none
  mem : ∀ r, r ∈ refs ↔
    (r ∈ db.refs ∧ set.replaces db r = false ∨
      r.referenceId = projectKey set.tenantId set.projectId ∧
        (r.kind = .current ∧ set.current = some r.imageId ∨
          r.kind = .previous ∧ set.previous = some r.imageId) ∨
      r.kind = .build ∧ r.referenceId = r.imageId ∧ r.referenceId ∈ set.active ∧
        db.ref .build r.referenceId = none) ∧
    ¬ (r.kind = .build ∧ r.referenceId ∈ set.release ∧ r.imageId = r.referenceId)

/-- The ways in which a call succeeds. -/
inductive Change (parse : String → Option Json) (db : Db) : Action → Value → Db → Prop
  | reserved {owner sandbox volume : String} {bytes now maximum total : ℤ} (hbytes : 0 < bytes)
      (hfind : db.find volume = none) (hquota : db.quota owner = .ok maximum)
      (htotal : db.reserveTotal owner bytes = .ok total) (hle : total ≤ maximum)
      (hfree : db.occupied sandbox = false) :
      Change parse db (.reserveReplicatedVolume owner sandbox volume bytes now)
        (.reservation (.new owner sandbox volume bytes now))
        { db with
          reservations := db.reservations ++ [.new owner sandbox volume bytes now]
          operations := db.operations.map (LifecycleOperation.bindVolume owner sandbox volume) }
  | reservedBefore {owner sandbox volume : String} {bytes now : ℤ} {old : ReplicatedReservation}
      (hfind : db.find volume = some old) (howner : old.ownerUserId = owner)
      (hsandbox : old.sandboxId = sandbox) (hstate : old.state = .reserved) :
      Change parse db (.reserveReplicatedVolume owner sandbox volume bytes now)
        (.reservation old) db
  | deleted {owner volume : String} {row : ReplicatedReservation}
      (hfind : db.find volume = some row) (hstate : row.state ≠ .reclaimed) :
      Change parse db (.deleteReplicatedReservation owner volume) .unit
        (db.reviseReservation volume fun r => { r with state := .deleting })
  | deletedBefore {owner volume : String} :
      Change parse db (.deleteReplicatedReservation owner volume) .unit db
  | released {owner volume : String} {complete : Bool} {row : ReplicatedReservation}
      (hfind : db.find volume = some row) (hstate : row.state = .deleting)
      (hfirst : row.logicalReleased = false) :
      Change parse db (.confirmReplicatedRetirement owner volume true complete) (.bool true)
        { db.reviseReservation volume (ReplicatedReservation.retire true complete) with
          sandboxes := db.sandboxes.filter fun s => s.id ≠ row.sandboxId }
  | confirmed {owner volume : String} {released complete : Bool} {row : ReplicatedReservation}
      (hfind : db.find volume = some row) (hstate : row.state = .deleting)
      (hlate : released = true → row.logicalReleased = true)
      (hcomplete : complete = true → released = true) :
      Change parse db (.confirmReplicatedRetirement owner volume released complete) (.bool false)
        (db.reviseReservation volume (ReplicatedReservation.retire released complete))
  | confirmedBefore {owner volume : String} {released complete : Bool} :
      Change parse db (.confirmReplicatedRetirement owner volume released complete) (.bool false) db
  | created {id owner : String} (hfree : ∀ s ∈ db.sandboxes, s.id ≠ id) :
      Change parse db (.createSandbox id owner) .unit
        { db with sandboxes := db.sandboxes ++ [⟨id, owner⟩] }
  | removed {id : String} : Change parse db (.deleteSandbox id) .unit
      { db with sandboxes := db.sandboxes.filter fun s => s.id ≠ id }
  | builder {row : ProjectEnvironmentBuilder} (hnone : db.builder row.id = none)
      (hfree : ∀ s ∈ db.sandboxes, s.id ≠ row.sandboxId)
      (hunreleased : db.unreleased row.sandboxId = false)
      (hunique : ∀ b ∈ db.builders, b.sandboxId ≠ row.sandboxId) :
      Change parse db (.admitProjectBuilder row) (.bool true)
        { db with builders := db.builders ++ [{ row with phase := .creating }] }
  | builderBefore {row : ProjectEnvironmentBuilder} :
      Change parse db (.admitProjectBuilder row) (.bool false) db
  | builderPhase {id : String} {phase : BuilderPhase} :
      Change parse db (.setProjectBuilderPhase id phase) .unit (db.reviseBuilder id phase)
  | rejected {id request : String} {b : ProjectEnvironmentBuilder} (hb : db.builder id = some b)
      (hnone : ∀ o ∈ db.operations, o.id ≠ "project-builder-" ++ id)
      (hidle : ∀ o ∈ db.operations, o.sandboxId ≠ b.sandboxId) :
      Change parse db (.rejectProjectBuilder id request) .unit
        (Db.reviseBuilder
          { db with operations := db.operations ++ [LifecycleOperation.rejected b request] } id
          .failed)
  | admitted {row : ProjectEnvironmentImage} {maximum total : ℤ} {u : User}
      (hnone : Table.row ProjectEnvironmentImage.id row.id db.images = none)
      (hbytes : 0 < row.logicalBytes) (huser : db.user row.ownerUserId = some u)
      (htotal : db.imageTotal row.ownerUserId row.logicalBytes = .ok total)
      (hlegacy : 0 ≤ db.smallest row.ownerUserId)
      (hmaximum : checked (u.maxVolumesMb * mib) = some maximum) (hle : total ≤ maximum)
      (hfree : db.ref .build row.id = none) :
      Change parse db (.admitProjectImage row) (.bool true)
        { db with
          images := db.images ++ [row.preparing]
          refs := db.refs ++ [⟨.build, row.id, row.id⟩] }
  | admittedBefore {row old : ProjectEnvironmentImage}
      (hold : Table.row ProjectEnvironmentImage.id row.id db.images = some old)
      (howner : old.ownerUserId = row.ownerUserId) (hbytes : old.logicalBytes = row.logicalBytes)
      (hpositive : 0 < row.logicalBytes) :
      Change parse db (.admitProjectImage row) (.bool false) db
  | unadmitted {id owner tenant project : String} {now : ℤ} {b : ProjectEnvironmentBuilder}
      {source : Option ReplicatedReservation}
      (hnone : Table.row ProjectEnvironmentImage.id id db.images = none)
      (hb : db.builder id = some b) (howner : b.ownerUserId = owner) :
      Change parse db (.retireUnadmittedProjectImage id owner now)
        (.image (.unadmitted b tenant project source now))
        { db with images := db.images ++ [.unadmitted b tenant project source now] }
  | phase {id : String} {phase : ImagePhase} {detail : Option String} {now : ℤ}
      {row : ProjectEnvironmentImage} (hrow : row ∈ db.images) (hid : row.id = id)
      (hadvances : advances phase row.phase = true) :
      Change parse db (.setProjectImagePhase id phase detail now) .unit
        (db.reviseImage id fun i => { i with phase, detail, updatedAt := now })
  | finished {id digest path : String} {now : ℤ} {row : ProjectEnvironmentImage}
      (hrow : row ∈ db.images) (hid : row.id = id) (hphase : row.phase = .capturing) :
      Change parse db (.finishProjectImage id digest path now) .unit
        (db.reviseImage id fun i =>
          { i with
            phase := .ready, digest := some digest, imagePath := some path, detail := none
            updatedAt := now })
  | detailed {id detail : String} {expected : ImagePhase} {now : ℤ} :
      Change parse db (.setProjectImageDetail id expected detail now) .unit
        (db.reviseImage id fun i => { i with detail := some detail, updatedAt := now })
  | deleting {id owner : String} {now : ℤ} {row : ProjectEnvironmentImage}
      (hrow : row ∈ db.images) (hid : row.id = id) (howner : row.ownerUserId = owner)
      (hfree : db.referenced id = false)
      (hphase : row.phase = .ready ∨ row.phase = .failed ∨ row.phase = .deleting) :
      Change parse db (.beginProjectImageDelete id owner now)
        (.image { row with phase := .deleting, updatedAt := now })
        (db.reviseImage id fun i => { i with phase := .deleting, updatedAt := now })
  | deletingBefore {id owner : String} {now : ℤ} {row : ProjectEnvironmentImage}
      (hrow : row ∈ db.images) (hid : row.id = id) (howner : row.ownerUserId = owner) :
      Change parse db (.beginProjectImageDelete id owner now) (.image row) db
  | retired {id : String} {now : ℤ} {row : ProjectEnvironmentImage} (hrow : row ∈ db.images)
      (hid : row.id = id) (hphase : row.phase = .deleting) (hfree : db.referenced id = false) :
      Change parse db (.finishProjectImageRetirement id now) .unit
        (db.reviseImage id fun i => { i with phase := .retired, updatedAt := now })
  | retiredBefore {id : String} {now : ℤ} :
      Change parse db (.finishProjectImageRetirement id now) .unit db
  | pinned {id owner tenant project digest sandbox : String} {row : ProjectEnvironmentImage}
      (hrow : row ∈ db.images) (hid : row.id = id) (howner : row.ownerUserId = owner)
      (hphase : row.phase = .ready) (hfree : db.ref .vm sandbox = none) :
      Change parse db (.pinProjectImageVm id owner tenant project digest sandbox) .unit
        { db with refs := db.refs ++ [⟨.vm, sandbox, id⟩] }
  | pinnedBefore {id owner tenant project digest sandbox : String}
      (href : db.ref .vm sandbox = some ⟨.vm, sandbox, id⟩) :
      Change parse db (.pinProjectImageVm id owner tenant project digest sandbox) .unit db
  | unpinned {sandbox : String} (hfree : db.retains sandbox = false) :
      Change parse db (.releaseProjectImageVm sandbox) .unit
        { db with refs := db.refs.filter fun r => ¬ (r.kind = .vm ∧ r.referenceId = sandbox) }
  | retained {set : RetentionSet} {refs : List ImageRef} {retention : List Retention}
      (hrefs : Retained db set refs)
      (hretention : retention = db.retention.filter (fun r => r.key ≠ set.row.key) ++ [set.row]) :
      Change parse db (.retainProjectImages set) .unit { db with refs, retention }
  | retainedBefore {set : RetentionSet} {old : Retention}
      (hold : db.retentionOf set.ownerUserId set.tenantId set.projectId = some old)
      (hgeneration : set.generation = old.generation) :
      Change parse db (.retainProjectImages set) .unit db
  | operation {id owner sandbox request : String}
      (hnone : Table.row LifecycleOperation.id id db.operations = none)
      (hidle : ∀ o ∈ db.operations, o.sandboxId = sandbox → o.state ≠ .pending)
      (hfew : db.pendingOperations < 64) :
      Change parse db (.admitLifecycleOperation id owner sandbox request) (.bool true)
        { db with
          operations := db.operations ++ [LifecycleOperation.admitted db id owner sandbox request] }
  | operationBefore {id owner sandbox request : String} :
      Change parse db (.admitLifecycleOperation id owner sandbox request) (.bool false) db
  | operationDone {id : String} {status : ℕ} {error sandboxState volume : Option String} :
      Change parse db (.finishLifecycleOperation id status error sandboxState volume) .unit
        { db with operations := db.operations.map fun o =>
          if o.id = id ∧ o.state = .pending then
            { o with
              state := .done
              status := some status
              errorJson := error
              sandboxState
              storageVolumeId := o.storageVolumeId <|> volume }
          else o }
  | reopened {reservations : List ReplicatedReservation}
      (hreservations : reservations = db.reservations.map (·.migrate))
      (hunique : ((reservations.filter (·.retained)).map (·.sandboxId)).Nodup) :
      Change parse db .reopen .unit
        { db with
          reservations
          operations := db.operations.map fun o =>
            if o.state = .pending then { o with state := .interrupted } else o }

/-- An image that is read has its row. -/
theorem image_ok {id : String} {row : ProjectEnvironmentImage} (h : db.image id = .ok row) :
    row ∈ db.images ∧ row.id = id :=
  Table.row_mem (require_eq_ok h)

theorem filter_some {α : Type*} {o : Option α} {p : α → Bool} {a : α} (h : o.filter p = some a) :
    o = some a ∧ p a = true :=
  Option.filter_eq_some_iff.mp h

section Replicated

/-- Each operation that succeeds makes its change of the database. -/
theorem reserve_change {owner sandbox volume : String} {bytes now : ℤ} {r : ReplicatedReservation}
    (h : reserveReplicatedVolume owner sandbox volume bytes now db = .ok (r, db')) :
    Change parse db (.reserveReplicatedVolume owner sandbox volume bytes now) (.reservation r)
      db' := by
  unfold reserveReplicatedVolume at h
  obtain ⟨_, hvalid, h⟩ := bind_ok h
  have hvalid := refuse_eq_ok hvalid
  push Not at hvalid
  split at h
  · rename_i old hfind
    obtain ⟨_, hsame, h⟩ := bind_ok h
    have hsame := refuse_eq_ok hsame
    rw [not_not] at hsame
    obtain ⟨rfl, rfl⟩ := Prod.mk.inj (Except.ok.inj h)
    exact .reservedBefore hfind hsame.1 hsame.2.1 hsame.2.2.2
  · rename_i hfind
    obtain ⟨maximum, hquota, h⟩ := bind_ok h
    obtain ⟨total, htotal, h⟩ := bind_ok h
    obtain ⟨_, hle, h⟩ := bind_ok h
    obtain ⟨_, hfree, h⟩ := bind_ok h
    obtain ⟨rfl, rfl⟩ := Prod.mk.inj (Except.ok.inj h)
    refine .reserved hvalid.2.2.2.2.2.1 hfind hquota htotal (not_lt.mp (refuse_eq_ok hle)) ?_
    exact Bool.eq_false_iff.mpr (refuse_eq_ok hfree)

/-- A reservation is marked for deletion. -/
theorem delete_change {owner volume : String}
    (h : deleteReplicatedReservation owner volume db = .ok db') :
    Change parse db (.deleteReplicatedReservation owner volume) .unit db' := by
  unfold deleteReplicatedReservation at h
  obtain ⟨row, hrow, h⟩ := bind_ok h
  have hrow := filter_some (require_eq_ok hrow)
  split at h
  · obtain rfl := Except.ok.inj h
    exact .deletedBefore
  · rename_i hstate
    obtain rfl := Except.ok.inj h
    exact .deleted hrow.1 hstate

/-- A retirement is confirmed. -/
theorem confirm_change {owner volume : String} {released complete b : Bool}
    (h : confirmReplicatedRetirement owner volume db released complete = .ok (b, db')) :
    Change parse db (.confirmReplicatedRetirement owner volume released complete) (.bool b)
      db' := by
  unfold confirmReplicatedRetirement at h
  obtain ⟨_, hproof, h⟩ := bind_ok h
  have hproof := refuse_eq_ok hproof
  push Not at hproof
  obtain ⟨row, hrow, h⟩ := bind_ok h
  have hrow := filter_some (require_eq_ok hrow)
  split at h
  · obtain ⟨rfl, rfl⟩ := Prod.mk.inj (Except.ok.inj h)
    exact .confirmedBefore
  obtain ⟨_, hstate, h⟩ := bind_ok h
  have hstate := refuse_eq_ok hstate
  rw [ne_eq, not_not] at hstate
  dsimp only at h
  split at h
  · rename_i hfirst
    obtain ⟨_, _, h⟩ := bind_ok h
    obtain ⟨rfl, rfl⟩ := Prod.mk.inj (Except.ok.inj h)
    obtain ⟨rfl, hfirst⟩ := hfirst
    exact .released hrow.1 hstate (Bool.eq_false_iff.mpr hfirst)
  · rename_i hlate
    push Not at hlate
    obtain ⟨rfl, rfl⟩ := Prod.mk.inj (Except.ok.inj h)
    exact .confirmed hrow.1 hstate hlate hproof

/-- The database is opened again. -/
theorem reopen_change (h : initSchema db >>= interruptLifecycleOperations = .ok db') :
    Change parse db .reopen .unit db' := by
  obtain ⟨db₁, hinit, h⟩ := bind_ok h
  unfold initSchema at hinit
  obtain ⟨_, hunique, hinit⟩ := bind_ok hinit
  obtain rfl := Except.ok.inj hinit
  obtain rfl := Except.ok.inj h
  exact .reopened rfl (not_not.mp (refuse_eq_ok hunique))

end Replicated

section Builders

/-- A builder is admitted. -/
theorem builder_change {row : ProjectEnvironmentBuilder} {b : Bool}
    (h : admitProjectBuilder db row = .ok (b, db')) :
    Change parse db (.admitProjectBuilder row) (.bool b) db' := by
  unfold admitProjectBuilder at h
  split at h
  · obtain ⟨_, _, h⟩ := bind_ok h
    obtain ⟨rfl, rfl⟩ := Prod.mk.inj (Except.ok.inj h)
    exact .builderBefore
  · rename_i hnone
    obtain ⟨_, hfresh, h⟩ := bind_ok h
    obtain ⟨_, hunique, h⟩ := bind_ok h
    obtain ⟨rfl, rfl⟩ := Prod.mk.inj (Except.ok.inj h)
    have hfresh := refuse_eq_ok hfresh
    have hunique := refuse_eq_ok hunique
    rw [not_or] at hfresh hunique
    refine .builder hnone ?_ (Bool.eq_false_iff.mpr hfresh.2) ?_
    · simpa using hfresh.1
    · simpa using hunique.1

/-- Its phase is set. -/
theorem builderPhase_change {id : String} {phase : BuilderPhase}
    (h : setProjectBuilderPhase db id phase = .ok db') :
    Change parse db (.setProjectBuilderPhase id phase) .unit db' := by
  obtain ⟨_, _, h⟩ := bind_ok h
  obtain rfl := Except.ok.inj h
  exact .builderPhase

/-- It is rejected. -/
theorem reject_change {id request : String} (h : rejectProjectBuilder db id request = .ok db') :
    Change parse db (.rejectProjectBuilder id request) .unit db' := by
  unfold rejectProjectBuilder at h
  obtain ⟨b, hb, h⟩ := bind_ok h
  obtain ⟨_, hidle, h⟩ := bind_ok h
  obtain ⟨_, hnone, h⟩ := bind_ok h
  obtain rfl := Except.ok.inj h
  have hidle := refuse_eq_ok hidle
  have hnone := refuse_eq_ok hnone
  push Not at hidle
  refine .rejected (require_eq_ok hb) ?_ ?_
  · simpa using hnone
  · simpa using hidle.2.2.1

end Builders

section Images

/-- A reference is inserted once. -/
theorem insertRef_ok {kind : RefKind} {referenceId imageId : String}
    (h : db.insertRef kind referenceId imageId = .ok db') :
    db.ref kind referenceId = none ∧
      db' = { db with refs := db.refs ++ [⟨kind, referenceId, imageId⟩] } := by
  unfold Db.insertRef at h
  obtain ⟨_, hfree, h⟩ := bind_ok h
  obtain rfl := Except.ok.inj h
  have hfree := refuse_eq_ok hfree
  rw [not_or, Option.isSome_iff_ne_none, not_not] at hfree
  exact ⟨hfree.1, rfl⟩

/-- An image is admitted. -/
theorem admit_change {row : ProjectEnvironmentImage} {b : Bool}
    (h : admitProjectImage parse db row = .ok (b, db')) :
    Change parse db (.admitProjectImage row) (.bool b) db' := by
  unfold admitProjectImage at h
  obtain ⟨expected, hexpected, h⟩ := bind_ok h
  obtain ⟨_, hshape, h⟩ := bind_ok h
  have hshape := refuse_eq_ok hshape
  push Not at hshape
  have hbytes : 0 < row.logicalBytes := by
    have hexpected := require_eq_ok hexpected
    unfold checked at hexpected
    split at hexpected
    · have := Option.some.inj hexpected
      omega
    · cases hexpected
  split at h
  · rename_i old hold
    obtain ⟨_, hsame, h⟩ := bind_ok h
    have hsame := refuse_eq_ok hsame
    push Not at hsame
    obtain ⟨rfl, rfl⟩ := Prod.mk.inj (Except.ok.inj h)
    exact .admittedBefore hold hsame.1 hsame.2.2.2.2.2.2.1 hbytes
  · rename_i hnone
    obtain ⟨builder, _, h⟩ := bind_ok h
    obtain ⟨provenance, _, h⟩ := bind_ok h
    obtain ⟨_, hsame, h⟩ := bind_ok h
    have hsame := refuse_eq_ok hsame
    push Not at hsame
    obtain ⟨u, huser, h⟩ := bind_ok h
    obtain ⟨total, htotal, h⟩ := bind_ok h
    obtain ⟨_, hlegacy, h⟩ := bind_ok h
    have hlegacy := refuse_eq_ok hlegacy
    push Not at hlegacy
    obtain ⟨maximum, hmaximum, h⟩ := bind_ok h
    obtain ⟨_, hle, h⟩ := bind_ok h
    obtain ⟨db₁, hinsert, h⟩ := bind_ok h
    obtain ⟨rfl, rfl⟩ := Prod.mk.inj (Except.ok.inj h)
    obtain ⟨hfree, rfl⟩ := insertRef_ok hinsert
    rw [hsame.1] at huser htotal hlegacy
    exact .admitted hnone hbytes (require_eq_ok huser) htotal hlegacy.1 (require_eq_ok hmaximum)
      (not_lt.mp (refuse_eq_ok hle)) hfree

/-- An image that was never admitted is retired. -/
theorem unadmitted_change {id owner : String} {now : ℤ} {i : ProjectEnvironmentImage}
    (h : retireUnadmittedProjectImage parse db id owner now = .ok (i, db')) :
    Change parse db (.retireUnadmittedProjectImage id owner now) (.image i) db' := by
  unfold retireUnadmittedProjectImage at h
  obtain ⟨_, hnone, h⟩ := bind_ok h
  obtain ⟨b, hb, h⟩ := bind_ok h
  obtain ⟨metadata, _, h⟩ := bind_ok h
  obtain ⟨tenant, _, h⟩ := bind_ok h
  obtain ⟨project, _, h⟩ := bind_ok h
  obtain ⟨_, _, h⟩ := bind_ok h
  obtain ⟨rfl, rfl⟩ := Prod.mk.inj (Except.ok.inj h)
  have hb := filter_some (require_eq_ok hb)
  have hnone := refuse_eq_ok hnone
  rw [Option.isSome_iff_ne_none, not_not] at hnone
  exact .unadmitted hnone hb.1 (of_decide_eq_true hb.2)

end Images

section Phases

theorem mem_of_any {id : String} {p : ProjectEnvironmentImage → Bool}
    (h : ¬ ¬ (db.images.any fun i => i.id = id && p i) = true) :
    ∃ row ∈ db.images, row.id = id ∧ p row = true := by
  rw [not_not, List.any_eq_true] at h
  obtain ⟨row, hrow, hp⟩ := h
  rw [Bool.and_eq_true, decide_eq_true_iff] at hp
  exact ⟨row, hrow, hp.1, hp.2⟩

/-- An image changes its phase. -/
theorem phase_change {id : String} {phase : ImagePhase} {detail : Option String} {now : ℤ}
    (h : setProjectImagePhase db id phase detail now = .ok db') :
    Change parse db (.setProjectImagePhase id phase detail now) .unit db' := by
  unfold setProjectImagePhase at h
  obtain ⟨_, _, h⟩ := bind_ok h
  obtain ⟨_, hrow, h⟩ := bind_ok h
  obtain rfl := Except.ok.inj h
  obtain ⟨row, hrow, hid, hadvances⟩ := mem_of_any (refuse_eq_ok hrow)
  exact .phase hrow hid hadvances

/-- It is finished. -/
theorem finish_change {id digest path : String} {now : ℤ}
    (h : finishProjectImage db id digest path now = .ok db') :
    Change parse db (.finishProjectImage id digest path now) .unit db' := by
  unfold finishProjectImage at h
  obtain ⟨_, hrow, h⟩ := bind_ok h
  obtain rfl := Except.ok.inj h
  obtain ⟨row, hrow, hid, hphase⟩ := mem_of_any (refuse_eq_ok hrow)
  exact .finished hrow hid (of_decide_eq_true hphase)

/-- Its detail is set. -/
theorem detail_change {id detail : String} {expected : ImagePhase} {now : ℤ}
    (h : setProjectImageDetail db id expected detail now = .ok db') :
    Change parse db (.setProjectImageDetail id expected detail now) .unit db' := by
  obtain ⟨_, _, h⟩ := bind_ok h
  obtain rfl := Except.ok.inj h
  exact .detailed

/-- Its deletion begins. -/
theorem begin_change {id owner : String} {now : ℤ} {i : ProjectEnvironmentImage}
    (h : beginProjectImageDelete db id owner now = .ok (i, db')) :
    Change parse db (.beginProjectImageDelete id owner now) (.image i) db' := by
  unfold beginProjectImageDelete at h
  obtain ⟨row, hrow, h⟩ := bind_ok h
  obtain ⟨hrow, hid⟩ := image_ok hrow
  obtain ⟨_, howner, h⟩ := bind_ok h
  have howner := not_not.mp (refuse_eq_ok howner)
  split at h
  · obtain ⟨rfl, rfl⟩ := Prod.mk.inj (Except.ok.inj h)
    exact .deletingBefore hrow hid howner
  · rename_i hretired
    obtain ⟨_, hfree, h⟩ := bind_ok h
    have hfree := refuse_eq_ok hfree
    push Not at hfree
    obtain ⟨rfl, rfl⟩ := Prod.mk.inj (Except.ok.inj h)
    refine .deleting hrow hid howner (Bool.eq_false_iff.mpr hfree.1) ?_
    cases hphase : row.phase with
    | preparing => exact absurd hphase hfree.2.1
    | capturing => exact absurd hphase hfree.2.2
    | retired => exact absurd hphase hretired
    | ready => exact .inl rfl
    | failed => exact .inr (.inl rfl)
    | deleting => exact .inr (.inr rfl)

/-- Its retirement ends. -/
theorem retire_change {id : String} {now : ℤ}
    (h : finishProjectImageRetirement db id now = .ok db') :
    Change parse db (.finishProjectImageRetirement id now) .unit db' := by
  unfold finishProjectImageRetirement at h
  obtain ⟨row, hrow, h⟩ := bind_ok h
  obtain ⟨hrow, hid⟩ := image_ok hrow
  split at h
  · obtain rfl := Except.ok.inj h
    exact .retiredBefore
  · obtain ⟨_, hfree, h⟩ := bind_ok h
    have hfree := refuse_eq_ok hfree
    push Not at hfree
    obtain rfl := Except.ok.inj h
    exact .retired hrow hid hfree.1 (Bool.eq_false_iff.mpr hfree.2)

end Phases

section Pins

/-- A reference that is found is a row. -/
theorem ref_mem {kind : RefKind} {referenceId : String} {r : ImageRef}
    (h : db.ref kind referenceId = some r) :
    r ∈ db.refs ∧ r.kind = kind ∧ r.referenceId = referenceId := by
  obtain ⟨hr, hkey⟩ := Table.row_mem h
  obtain ⟨hkind, hid⟩ := Prod.mk.inj hkey
  exact ⟨hr, hkind, hid⟩

/-- A reference that may be there already. -/
theorem insertRefOrIgnore_ok {kind : RefKind} {referenceId imageId : String}
    (h : db.insertRefOrIgnore kind referenceId imageId = .ok db') :
    ((db.ref kind referenceId).isSome ∧ db' = db) ∨
      db.ref kind referenceId = none ∧
        db' = { db with refs := db.refs ++ [⟨kind, referenceId, imageId⟩] } := by
  unfold Db.insertRefOrIgnore at h
  split at h
  · rename_i hsome
    exact .inl ⟨hsome, (Except.ok.inj h).symm⟩
  · exact .inr (insertRef_ok h)

/-- A sandbox pins its image. -/
theorem pin_change {id owner tenant project digest sandbox : String}
    (h : pinProjectImageVm db id owner tenant project digest sandbox = .ok db') :
    Change parse db (.pinProjectImageVm id owner tenant project digest sandbox) .unit db' := by
  unfold pinProjectImageVm at h
  obtain ⟨row, hrow, h⟩ := bind_ok h
  obtain ⟨hrow, hid⟩ := image_ok hrow
  obtain ⟨_, hready, h⟩ := bind_ok h
  have hready := refuse_eq_ok hready
  push Not at hready
  obtain ⟨_, hother, h⟩ := bind_ok h
  have hsame := refuse_eq_ok hother
  obtain ⟨hsome, rfl⟩ | ⟨hnone, rfl⟩ := insertRefOrIgnore_ok h
  · obtain ⟨r, hr⟩ := Option.isSome_iff_exists.mp hsome
    obtain ⟨_, hkind, hreference⟩ := ref_mem hr
    refine .pinnedBefore (hr.trans (congrArg some ?_))
    rw [hr, Option.any_some, decide_eq_true_iff, not_not] at hsame
    obtain ⟨kind, referenceId, imageId⟩ := r
    cases hkind
    cases hreference
    cases hsame
    rfl
  · have howner : row.ownerUserId = owner := by
      have := hready.1
      simp only [ProjectEnvironmentImage.belongs, Bool.and_eq_true, decide_eq_true_iff] at this
      exact this.1.1
    exact .pinned hrow hid howner hready.2.2 hnone

/-- And releases it. -/
theorem release_change {sandbox : String} (h : releaseProjectImageVm db sandbox = .ok db') :
    Change parse db (.releaseProjectImageVm sandbox) .unit db' := by
  unfold releaseProjectImageVm at h
  obtain ⟨_, hfree, h⟩ := bind_ok h
  obtain rfl := Except.ok.inj h
  exact .unpinned (Bool.eq_false_iff.mpr (refuse_eq_ok hfree))

end Pins

section Retention

variable {set : RetentionSet}

/-- No row has the key of a reference that is not found. -/
theorem ref_eq_none {kind : RefKind} {referenceId : String} :
    db.ref kind referenceId = none ↔ ∀ r ∈ db.refs, r.kind = kind →
      r.referenceId ≠ referenceId := by
  unfold Db.ref
  rw [Table.row_eq_none]
  constructor
  · intro h r hr hkind hid
    exact h r hr (by rw [hkind, hid])
  · intro h r hr heq
    obtain ⟨hkind, hid⟩ := Prod.mk.inj heq
    exact h r hr hkind hid

/-- The references of a retention set. -/
theorem insert_ok {kind : RefKind} {id : Option String} (h : set.insert kind id db = .ok db') :
    ∃ refs, db' = { db with refs } ∧ ∀ r, r ∈ refs ↔ r ∈ db.refs ∨
      r.referenceId = projectKey set.tenantId set.projectId ∧ r.kind = kind ∧
        id = some r.imageId := by
  unfold RetentionSet.insert at h
  split at h
  · rename_i id
    obtain ⟨_, rfl⟩ := insertRef_ok h
    refine ⟨_, rfl, fun r => ?_⟩
    rw [Table.mem_snoc, Option.some.injEq]
    refine or_congr_right ⟨?_, ?_⟩
    · rintro rfl
      exact ⟨rfl, rfl, rfl⟩
    · obtain ⟨kind', referenceId, imageId⟩ := r
      rintro ⟨rfl, rfl, rfl⟩
      rfl
  · obtain rfl := Except.ok.inj h
    exact ⟨db.refs, rfl, fun r => by simp⟩

/-- The build pins after those of `ids` have been inserted where there was none. -/
theorem activate_ok {ids : List String}
    (h : ids.foldlM (fun db id => db.insertRefOrIgnore .build id id) db = .ok db') :
    ∃ refs, db' = { db with refs } ∧ ∀ r, r ∈ refs ↔ r ∈ db.refs ∨
      r.kind = .build ∧ r.referenceId = r.imageId ∧ r.referenceId ∈ ids ∧
        db.ref .build r.referenceId = none := by
  induction ids generalizing db with
  | nil =>
    obtain rfl := Except.ok.inj h
    exact ⟨db.refs, rfl, fun r => by simp⟩
  | cons id ids ih =>
    rw [List.foldlM_cons] at h
    obtain ⟨db₁, hinsert, h⟩ := bind_ok h
    obtain ⟨refs, rfl, hmem⟩ := ih h
    obtain ⟨hsome, rfl⟩ | ⟨hnone, rfl⟩ := insertRefOrIgnore_ok hinsert
    · refine ⟨refs, rfl, fun r => (hmem r).trans (or_congr_right ?_)⟩
      refine and_congr_right fun _ => and_congr_right fun _ => and_congr_left fun hfree => ?_
      have hne : r.referenceId ≠ id := by
        rintro rfl
        rw [hfree] at hsome
        cases hsome
      rw [List.mem_cons, or_iff_right hne]
    · refine ⟨refs, rfl, fun r => (hmem r).trans ?_⟩
      have hfree (x : String) : Db.ref { db with refs := db.refs ++ [⟨.build, id, id⟩] } .build x =
          none ↔ db.ref .build x = none ∧ x ≠ id := by
        rw [ref_eq_none, ref_eq_none]
        constructor
        · intro h'
          refine ⟨fun r hr => h' r (List.mem_append_left _ hr), fun heq => ?_⟩
          exact h' _ (List.mem_append_right _ (List.mem_singleton_self _)) rfl heq.symm
        · rintro ⟨h', hne⟩ r hr
          obtain hr | rfl := Table.mem_snoc.mp hr
          · exact h' r hr
          · exact fun _ heq => hne heq.symm
      rw [Table.mem_snoc, hfree, List.mem_cons, or_assoc]
      refine or_congr_right ⟨?_, ?_⟩
      · rintro (rfl | ⟨hkind, hself, hid, hfree, _⟩)
        · exact ⟨rfl, rfl, .inl rfl, hnone⟩
        · exact ⟨hkind, hself, .inr hid, hfree⟩
      · rintro ⟨hkind, hself, hid, hfree⟩
        by_cases heq : r.referenceId = id
        · obtain ⟨kind, referenceId, imageId⟩ := r
          cases hkind
          cases hself
          cases heq
          exact .inl rfl
        · exact .inr ⟨hkind, hself, hid.resolve_left heq, hfree, heq⟩

theorem forM_ok {α : Type} {as : List α} {f : α → Result Unit} {u : PUnit}
    (h : as.forM f = .ok u) : ∀ a ∈ as, f a = .ok () := by
  induction as with
  | nil => simp
  | cons a as ih =>
    obtain ⟨_, ha, h⟩ := bind_ok h
    intro b hb
    obtain rfl | hb := List.mem_cons.mp hb
    · exact ha
    · exact ih h b hb

/-- A retention set is replaced. -/
theorem retain_change (h : retainProjectImages db set = .ok db') :
    Change parse db (.retainProjectImages set) .unit db' := by
  unfold retainProjectImages at h
  obtain ⟨_, hvalid, h⟩ := bind_ok h
  have hvalid := refuse_eq_ok hvalid
  obtain ⟨_, hstale, h⟩ := bind_ok h
  have hstale := refuse_eq_ok hstale
  split at h
  · rename_i hsame
    obtain rfl := Except.ok.inj h
    obtain ⟨old, hold, hsame⟩ := (Option.any_eq_true _ _).mp hsame
    exact .retainedBefore hold (of_decide_eq_true hsame)
  rename_i hnew
  obtain ⟨_, hchecks, h⟩ := bind_ok h
  obtain ⟨db₁, hcurrent, h⟩ := bind_ok h
  obtain ⟨db₂, hprevious, h⟩ := bind_ok h
  obtain ⟨db₃, hactive, h⟩ := bind_ok h
  obtain ⟨refs₁, rfl, hmem₁⟩ := insert_ok hcurrent
  obtain ⟨refs₂, rfl, hmem₂⟩ := insert_ok hprevious
  obtain ⟨refs₃, rfl, hmem₃⟩ := activate_ok hactive
  unfold RetentionSet.record at h
  obtain ⟨_, howner, h⟩ := bind_ok h
  obtain rfl := Except.ok.inj h
  refine .retained ⟨?_, ?_, forM_ok hchecks, refuse_eq_ok howner, fun r => ?_⟩ rfl
  · intro old hold
    rw [show db.retentionOf set.ownerUserId set.tenantId set.projectId = some old from hold]
      at hstale hnew
    simp only [Option.any_some, Bool.or_eq_true, decide_eq_true_iff, Bool.and_eq_true,
      not_or, not_lt] at hstale hnew
    exact lt_of_le_of_ne hstale.1 fun heq => hnew heq.symm
  · push Not at hvalid
    exact hvalid.1
  · -- the filters and insertions do not touch the build pins before `active` is read
    have hbuild (x : String) : Db.ref { db with refs := refs₂ } .build x = none ↔
        db.ref .build x = none := by
      rw [ref_eq_none, ref_eq_none]
      constructor
      · intro h' r hr hkind
        refine h' r ((hmem₂ r).mpr (.inl
          ((hmem₁ r).mpr (.inl (List.mem_filter.mpr ⟨hr, ?_⟩))))) hkind
        simp [RetentionSet.replaces, hkind]
      · intro h' r hr hkind
        obtain hr | ⟨_, hother, _⟩ := (hmem₂ r).mp hr
        · obtain hr | ⟨_, hother, _⟩ := (hmem₁ r).mp hr
          · exact h' r (List.mem_of_mem_filter hr) hkind
          · rw [hkind] at hother
            cases hother
        · rw [hkind] at hother
          cases hother
    rw [List.mem_filter, decide_eq_true_iff, hmem₃, hbuild]
    refine and_congr_left fun _ => ?_
    dsimp only
    rw [hmem₂]
    dsimp only
    rw [hmem₁, List.mem_filter, Bool.not_eq_true', or_assoc, or_assoc, and_or_left, or_assoc]

end Retention

section Operations

/-- An operation is admitted. -/
theorem operation_change {id owner sandbox request : String} {b : Bool}
    (h : admitLifecycleOperation db id owner sandbox request = .ok (b, db')) :
    Change parse db (.admitLifecycleOperation id owner sandbox request) (.bool b) db' := by
  unfold admitLifecycleOperation at h
  split at h
  · obtain ⟨_, _, h⟩ := bind_ok h
    obtain ⟨rfl, rfl⟩ := Prod.mk.inj (Except.ok.inj h)
    exact .operationBefore
  · rename_i hnone
    obtain ⟨_, hidle, h⟩ := bind_ok h
    obtain ⟨rfl, rfl⟩ := Prod.mk.inj (Except.ok.inj h)
    have hidle := refuse_eq_ok hidle
    push Not at hidle
    refine .operation hnone ?_ hidle.2
    intro o ho hsandbox hpending
    exact hidle.1 (List.any_eq_true.mpr ⟨o, ho, by simp [hsandbox, hpending]⟩)

/-- A sandbox is created. -/
theorem createSandbox_change {id owner : String} (h : createSandbox id owner db = .ok db') :
    Change parse db (.createSandbox id owner) .unit db' := by
  unfold createSandbox at h
  obtain ⟨_, hfree, h⟩ := bind_ok h
  obtain rfl := Except.ok.inj h
  have hfree := refuse_eq_ok hfree
  rw [not_or] at hfree
  exact .created (by simpa using hfree.1)

end Operations

section Rows

/-- The phases of an image go on in this order. -/
def ImagePhase.rank : ImagePhase → ℕ
  | .preparing => 0
  | .capturing => 1
  | .ready | .failed => 2
  | .deleting => 3
  | .retired => 4

/-- The row of an image keeps its identity and only advances. -/
structure ProjectEnvironmentImage.Later (i i' : ProjectEnvironmentImage) : Prop where
  id : i'.id = i.id
  ownerUserId : i'.ownerUserId = i.ownerUserId
  tenantId : i'.tenantId = i.tenantId
  projectId : i'.projectId = i.projectId
  logicalBytes : i'.logicalBytes = i.logicalBytes
  phase : i'.phase = i.phase ∨ i.phase.rank < i'.phase.rank

theorem ProjectEnvironmentImage.Later.refl (i : ProjectEnvironmentImage) : i.Later i :=
  ⟨rfl, rfl, rfl, rfl, rfl, .inl rfl⟩

theorem ProjectEnvironmentImage.Later.trans {i i' i'' : ProjectEnvironmentImage} (h : i.Later i')
    (h' : i'.Later i'') : i.Later i'' where
  id := h'.id.trans h.id
  ownerUserId := h'.ownerUserId.trans h.ownerUserId
  tenantId := h'.tenantId.trans h.tenantId
  projectId := h'.projectId.trans h.projectId
  logicalBytes := h'.logicalBytes.trans h.logicalBytes
  phase := by
    obtain hsame' | hless' := h'.phase
    · rw [hsame']
      exact h.phase
    · obtain hsame | hless := h.phase
      · exact .inr (hsame ▸ hless')
      · exact .inr (hless.trans hless')

/-- The row of a reservation keeps its identity; releases and reclamations are final. -/
structure ReplicatedReservation.Later (r r' : ReplicatedReservation) : Prop where
  volumeId : r'.volumeId = r.volumeId
  ownerUserId : r'.ownerUserId = r.ownerUserId
  sandboxId : r'.sandboxId = r.sandboxId
  logicalBytes : r'.logicalBytes = r.logicalBytes
  released : r.logicalReleased = true → r'.logicalReleased = true
  reclaimed : r.state = .reclaimed → r'.state = .reclaimed
  reserved : r'.state = .reserved → r.state = .reserved

theorem ReplicatedReservation.Later.refl (r : ReplicatedReservation) : r.Later r :=
  ⟨rfl, rfl, rfl, rfl, fun h => h, fun h => h, fun h => h⟩

theorem ReplicatedReservation.Later.trans {r r' r'' : ReplicatedReservation} (h : r.Later r')
    (h' : r'.Later r'') : r.Later r'' where
  volumeId := h'.volumeId.trans h.volumeId
  ownerUserId := h'.ownerUserId.trans h.ownerUserId
  sandboxId := h'.sandboxId.trans h.sandboxId
  logicalBytes := h'.logicalBytes.trans h.logicalBytes
  released hr := h'.released (h.released hr)
  reclaimed hr := h'.reclaimed (h.reclaimed hr)
  reserved hr := h.reserved (h'.reserved hr)

/-- An update that advances the one image with the id. -/
theorem later_revise {id : String} {row : ProjectEnvironmentImage}
    {f : ProjectEnvironmentImage → ProjectEnvironmentImage}
    (hkeyed : Table.Keyed ProjectEnvironmentImage.id db.images) (hrow : row ∈ db.images)
    (hid : row.id = id) (hf : row.Later (f row)) :
    ∀ i ∈ db.images, i.Later (if i.id = id then f i else i) := by
  intro i hi
  split
  · rename_i hsame
    obtain rfl := List.inj_on_of_nodup_map hkeyed hi hrow (hsame.trans hid.symm)
    exact hf
  · exact .refl i

/-- Phases only advance. -/
theorem rank_of_advances {phase old : ImagePhase} (h : advances phase old = true) :
    old.rank < phase.rank := by
  cases phase <;> cases old <;> first | decide | cases h

/-- What a call does to the images. -/
theorem Change.images {a : Action} {v : Value} (h : Change parse db a v db')
    (hkeyed : Table.Keyed ProjectEnvironmentImage.id db.images) :
    (∃ f, db'.images = db.images.map f ∧ ∀ i ∈ db.images, i.Later (f i)) ∨
      ∃ row, Table.row ProjectEnvironmentImage.id row.id db.images = none ∧
        db'.images = db.images ++ [row] := by
  have hrevise {id : String} {f : ProjectEnvironmentImage → ProjectEnvironmentImage}
      (hf : ∀ i ∈ db.images, i.Later (if i.id = id then f i else i)) :
      (∃ g, (db.reviseImage id f).images = db.images.map g ∧ ∀ i ∈ db.images, i.Later (g i)) ∨
        ∃ row, Table.row ProjectEnvironmentImage.id row.id db.images = none ∧
          (db.reviseImage id f).images = db.images ++ [row] :=
    .inl ⟨_, rfl, hf⟩
  cases h with
  | @admitted row _ _ _ hnone => exact .inr ⟨row.preparing, hnone, rfl⟩
  | unadmitted hnone hb howner =>
    refine .inr ⟨_, ?_, rfl⟩
    rw [ProjectEnvironmentImage.unadmitted, (Table.row_mem hb).2]
    exact hnone
  | phase hrow hid hadvances =>
    exact hrevise (later_revise hkeyed hrow hid
      ⟨rfl, rfl, rfl, rfl, rfl, .inr (rank_of_advances hadvances)⟩)
  | finished hrow hid hphase =>
    refine hrevise (later_revise hkeyed hrow hid ⟨rfl, rfl, rfl, rfl, rfl, .inr ?_⟩)
    simp [hphase, ImagePhase.rank]
  | detailed =>
    refine hrevise fun i _ => ?_
    split
    · exact ⟨rfl, rfl, rfl, rfl, rfl, .inl rfl⟩
    · exact .refl i
  | deleting hrow hid _ _ hphase =>
    refine hrevise (later_revise hkeyed hrow hid ⟨rfl, rfl, rfl, rfl, rfl, ?_⟩)
    obtain hphase | hphase | hphase := hphase
    · right
      simp [hphase, ImagePhase.rank]
    · right
      simp [hphase, ImagePhase.rank]
    · exact .inl hphase.symm
  | retired hrow hid hphase =>
    refine hrevise (later_revise hkeyed hrow hid ⟨rfl, rfl, rfl, rfl, rfl, .inr ?_⟩)
    simp [hphase, ImagePhase.rank]
  | _ => exact .inl ⟨id, (List.map_id _).symm, fun i _ => .refl i⟩

end Rows

/-- A call fails without any effect or succeeds in one of these ways. -/
theorem Step.change {c : Call} (h : Step parse db c db') :
    (∃ e, c.reply = .error e ∧ db' = db) ∨
      ∃ v, c.reply = .ok v ∧ Change parse db c.action v db' := by
  obtain herror | ⟨v, hreply, hbody⟩ := h.cases
  · exact .inl herror
  refine .inr ⟨v, hreply, ?_⟩
  obtain ⟨a, reply⟩ := c
  have htag {α : Type} {tag : α → Value} {r : Result (α × Db)} (h : tagged tag r = .ok (v, db'))
      (hchange : ∀ x, r = .ok (x, db') → Change parse db a (tag x) db') :
      Change parse db a v db' := by
    obtain ⟨x, hr, rfl⟩ := tagged_ok h
    exact hchange x hr
  have hplain {r : Result Db} (h : plain r = .ok (v, db'))
      (hchange : r = .ok db' → Change parse db a .unit db') : Change parse db a v db' := by
    have hr := plain_ok h
    obtain rfl : Value.unit = v := by
      rw [hr] at h
      exact congrArg Prod.fst (Except.ok.inj h)
    exact hchange hr
  cases a with
  | reserveReplicatedVolume => exact htag hbody fun _ => reserve_change
  | deleteReplicatedReservation => exact hplain hbody delete_change
  | confirmReplicatedRetirement => exact htag hbody fun _ => confirm_change
  | createSandbox => exact hplain hbody createSandbox_change
  | deleteSandbox =>
    refine hplain hbody fun h => ?_
    obtain rfl := Except.ok.inj h
    exact .removed
  | admitProjectBuilder => exact htag hbody fun _ => builder_change
  | setProjectBuilderPhase => exact hplain hbody builderPhase_change
  | rejectProjectBuilder => exact hplain hbody reject_change
  | admitProjectImage => exact htag hbody fun _ => admit_change
  | retireUnadmittedProjectImage => exact htag hbody fun _ => unadmitted_change
  | setProjectImagePhase => exact hplain hbody phase_change
  | finishProjectImage => exact hplain hbody finish_change
  | setProjectImageDetail => exact hplain hbody detail_change
  | beginProjectImageDelete => exact htag hbody fun _ => begin_change
  | finishProjectImageRetirement => exact hplain hbody retire_change
  | pinProjectImageVm => exact hplain hbody pin_change
  | releaseProjectImageVm => exact hplain hbody release_change
  | retainProjectImages => exact hplain hbody retain_change
  | admitLifecycleOperation => exact htag hbody fun _ => operation_change
  | finishLifecycleOperation =>
    refine hplain hbody fun h => ?_
    obtain rfl := Except.ok.inj h
    exact .operationDone
  | reopen => exact hplain hbody reopen_change

end AgentHouse.Ledger
