import AgentHouse.Ledger.Owners

/-!
# Owners do not interfere

Two histories with the same calls of one owner, and of everybody beside the images, in which the
calls of other owners about images differ. As long as those insert no reference under a key that
the owner uses, the owner gets the same answers and ends with the same references.
-/

namespace AgentHouse.Ledger

variable {parse : String → Option Json} {db db' : Db} {owner : String} {a : Action} {v : Value}
  {keys : List (RefKind × String)}

section Foreign

/-- References on images of others are not in the view. -/
theorem view_addRefs {added : List ImageRef} (hadded : ∀ r ∈ added, db.owns owner r = false) :
    Db.view { db with refs := db.refs ++ added } owner = db.view owner := by
  have hnone : added.filter (db.owns owner) = [] := by
    rw [List.filter_eq_nil_iff]
    intro r hr
    rw [hadded r hr]
    simp
  have hsame : Db.owns { db with refs := db.refs ++ added } owner = db.owns owner := rfl
  unfold Db.view
  rw [hsame, List.filter_append, hnone, List.append_nil]

/-- Removing references on images of others. -/
theorem view_dropRefs {p : ImageRef → Bool}
    (hp : ∀ r ∈ db.refs, db.owns owner r = true → p r = true) :
    Db.view { db with refs := db.refs.filter p } owner = db.view owner := by
  rw [view_filterRefs]
  have : (db.view owner).refs.filter p = (db.view owner).refs := by
    rw [List.filter_eq_self]
    intro r hr
    obtain ⟨hr, howns⟩ := List.mem_filter.mp hr
    exact hp r hr howns
  rw [this]

/-- Revising an image of another owner. -/
theorem view_reviseOther {id : String} {f : ProjectEnvironmentImage → ProjectEnvironmentImage}
    (hid : ∀ i, (f i).id = i.id) (howner : ∀ i, (f i).ownerUserId = i.ownerUserId)
    (hother : ∀ i ∈ db.images, i.id = id → i.ownerUserId ≠ owner) :
    (db.reviseImage id f).view owner = db.view owner := by
  rw [view_reviseImage hid howner]
  have : Table.row ProjectEnvironmentImage.id id (db.view owner).images = none := by
    rw [Table.row_eq_none]
    intro i hi hiid
    obtain ⟨hi, howner⟩ := List.mem_filter.mp hi
    exact hother i hi hiid (of_decide_eq_true howner)
  unfold Db.reviseImage
  rw [Table.revise_absent this]

/-- A new image of another owner, with references on it. -/
theorem view_addOther {row : ProjectEnvironmentImage} {new : List ImageRef}
    (howner : row.ownerUserId ≠ owner)
    (hnone : Table.row ProjectEnvironmentImage.id row.id db.images = none)
    (hnew : ∀ r ∈ new, r.imageId = row.id)
    (hdb : db' = { db with images := db.images ++ [row], refs := db.refs ++ new }) :
    db'.view owner = db.view owner := by
  subst hdb
  have howns : Db.owns { db with images := db.images ++ [row], refs := db.refs ++ new } owner =
      db.owns owner := by
    funext r
    simp [Db.owns, howner]
  have hnew' : new.filter (db.owns owner) = [] := by
    rw [List.filter_eq_nil_iff]
    intro r hr howns
    obtain ⟨i, hi, hid, _⟩ := owns_iff.mp howns
    exact Table.row_eq_none.mp hnone i hi (hid.trans (hnew r hr))
  have himages : (db.images ++ [row]).filter (·.ownerUserId = owner) =
      db.images.filter (·.ownerUserId = owner) := by
    rw [List.filter_append, List.filter_singleton, decide_eq_false howner]
    exact List.append_nil _
  have hrefs : (db.refs ++ new).filter (Db.owns
      { db with images := db.images ++ [row], refs := db.refs ++ new } owner) =
      db.refs.filter (db.owns owner) := by
    rw [howns, List.filter_append, hnew', List.append_nil]
  exact congrArg₂ (fun images refs => { db.view owner with images, refs }) himages hrefs

/-- A new retention row of another owner. -/
theorem view_retention {row : Retention} (howner : row.ownerUserId ≠ owner) :
    Db.view { db with retention := db.retention.filter (fun r => r.key ≠ row.key) ++ [row] } owner =
      db.view owner := by
  have hretention : (db.retention.filter (fun r => r.key ≠ row.key) ++ [row]).filter
      (·.ownerUserId = owner) = db.retention.filter (·.ownerUserId = owner) := by
    rw [List.filter_append, List.filter_singleton, List.filter_filter, decide_eq_false howner]
    refine (List.append_nil _).trans (List.filter_congr fun r _ => ?_)
    by_cases hr : r.ownerUserId = owner
    · have : r.key ≠ row.key := fun heq => howner ((Prod.mk.inj heq).1.symm.trans hr)
      rw [decide_eq_true hr, decide_eq_true this]
      rfl
    · rw [decide_eq_false hr]
      rfl
  exact congrArg (fun retention => { db.view owner with retention }) hretention

/-- Insertions that only add references, on images that satisfy a property. -/
def Grown (p : String → Prop) (db db' : Db) : Prop :=
  ∃ added, db' = { db with refs := db.refs ++ added } ∧ ∀ r ∈ added, p r.imageId

theorem Grown.refl (p : String → Prop) (db : Db) : Grown p db db :=
  ⟨[], by rw [List.append_nil], fun r hr => absurd hr List.not_mem_nil⟩

theorem Grown.trans {p : String → Prop} {db₁ db₂ db₃ : Db} (h : Grown p db₁ db₂)
    (h' : Grown p db₂ db₃) : Grown p db₁ db₃ := by
  obtain ⟨added, rfl, hadded⟩ := h
  obtain ⟨added', rfl, hadded'⟩ := h'
  refine ⟨added ++ added', by rw [List.append_assoc], fun r hr => ?_⟩
  obtain hr | hr := List.mem_append.mp hr
  · exact hadded r hr
  · exact hadded' r hr

/-- References of other images are not touched. -/
theorem insertRef_grown {p : String → Prop} {kind : RefKind} {referenceId imageId : String}
    (hp : p imageId) (h : db.insertRef kind referenceId imageId = .ok db') : Grown p db db' := by
  obtain ⟨_, rfl⟩ := insertRef_ok h
  refine ⟨_, rfl, fun r hr => ?_⟩
  rw [List.mem_singleton.mp hr]
  exact hp

theorem insert_grown {p : String → Prop} {set : RetentionSet} {kind : RefKind} {id : Option String}
    (hp : ∀ x, id = some x → p x) (h : set.insert kind id db = .ok db') : Grown p db db' := by
  cases id with
  | none =>
    obtain rfl := Except.ok.inj h
    exact .refl p db
  | some id => exact insertRef_grown (hp id rfl) h

theorem activate_grown {p : String → Prop} {ids : List String} (hp : ∀ x ∈ ids, p x)
    (h : ids.foldlM (fun (db : Db) id => db.insertRefOrIgnore .build id id) db = .ok db') :
    Grown p db db' := by
  induction ids generalizing db with
  | nil =>
    obtain rfl := Except.ok.inj h
    exact .refl p db
  | cons id ids ih =>
    rw [List.foldlM_cons] at h
    obtain ⟨db₁, hinsert, h⟩ := bind_ok h
    refine Grown.trans ?_ (ih (fun x hx => hp x (List.mem_cons_of_mem _ hx)) h)
    obtain ⟨_, rfl⟩ | ⟨_, rfl⟩ := insertRefOrIgnore_ok hinsert
    · exact .refl p _
    · refine ⟨_, rfl, fun r hr => ?_⟩
      rw [List.mem_singleton.mp hr]
      exact hp id List.mem_cons_self

/-- A retention call of another owner. -/
theorem retain_foreign (h : db.Pinned) {set : RetentionSet} (hother : set.ownerUserId ≠ owner)
    (hok : retainProjectImages db set = .ok db') : db'.view owner = db.view owner := by
  unfold retainProjectImages at hok
  obtain ⟨_, _, hok⟩ := bind_ok hok
  obtain ⟨_, _, hok⟩ := bind_ok hok
  split at hok
  · rw [← Except.ok.inj hok]
  obtain ⟨_, hchecks, hok⟩ := bind_ok hok
  have hchecks := forM_ok hchecks
  -- every image that the call names is one of the other owner
  have hforeign (x : String) (hx : ∃ ready, (x, ready) ∈ set.named) (r : ImageRef)
      (hr : r.imageId = x) : db.owns owner r = false := by
    obtain ⟨ready, hentry⟩ := hx
    obtain ⟨i, hi, hid, hbelongs, _⟩ := check_ok (hchecks _ hentry)
    by_contra howns
    obtain ⟨i', hi', hid', howner⟩ := owns_iff.mp (Bool.not_eq_false _ ▸ howns)
    rw [h.eq_of_id hi' hi (hid'.trans (hr.trans hid.symm))] at howner
    exact hother ((belongs_iff.mp hbelongs).1.symm.trans howner)
  let p (x : String) : Prop := ∃ ready, (x, ready) ∈ set.named
  obtain ⟨db₁, hcurrent, hok⟩ := bind_ok hok
  obtain ⟨db₂, hprevious, hok⟩ := bind_ok hok
  obtain ⟨db₃, hactive, hok⟩ := bind_ok hok
  have hgrown : Grown p { db with refs := db.refs.filter fun r => !set.replaces db r } db₃ := by
    refine (insert_grown ?_ hcurrent).trans
      ((insert_grown ?_ hprevious).trans (activate_grown ?_ hactive))
    · exact fun x hx => ⟨true, by simp [RetentionSet.named, hx]⟩
    · exact fun x hx => ⟨true, by simp [RetentionSet.named, hx]⟩
    · exact fun x hx => ⟨false, by simp [RetentionSet.named, hx]⟩
  obtain ⟨added, rfl, hadded⟩ := hgrown
  unfold RetentionSet.record at hok
  obtain ⟨_, _, hok⟩ := bind_ok hok
  obtain rfl := Except.ok.inj hok
  refine (view_retention hother).trans ?_
  refine (view_dropRefs fun r _ howns => decide_eq_true ?_).trans ?_
  · rintro ⟨_, hrelease, hid⟩
    have := hforeign r.referenceId ⟨false, by simp [RetentionSet.named, hrelease]⟩ r hid
    exact absurd (this.symm.trans howns) (by simp)
  refine (view_addRefs fun r hr => ?_).trans ?_
  · exact hforeign _ (hadded r hr) r rfl
  refine view_dropRefs fun r hr howns => ?_
  rw [Bool.not_eq_true', RetentionSet.replaces, Bool.and_eq_false_iff]
  right
  rw [List.any_eq_false]
  intro i hi hmatch
  rw [Bool.and_eq_true, decide_eq_true_iff] at hmatch
  obtain ⟨i', hi', hid', howner⟩ := owns_iff.mp howns
  rw [h.eq_of_id hi' hi (hid'.trans hmatch.1.symm)] at howner
  exact hother ((belongs_iff.mp hmatch.2).1.symm.trans howner)

/-- A call of another owner does not change the view. -/
theorem foreign_view (h : db.Pinned) (hforeign : a.Foreign owner db) {w : Value}
    (hbody : a.body parse db = .ok (w, db')) (hs : Change parse db a v db') :
    db'.view owner = db.view owner := by
  cases hs with
  | @admitted row _ _ _ hnone =>
    have hother : row.preparing.ownerUserId ≠ owner := hforeign
    refine view_addOther hother hnone (fun r hr => ?_) rfl
    rw [List.mem_singleton.mp hr]
    rfl
  | unadmitted hnone hb howner =>
    refine view_addOther ?_ ?_ (fun r hr => absurd hr List.not_mem_nil)
      (by rw [List.append_nil])
    · rw [ProjectEnvironmentImage.unadmitted, howner]
      exact hforeign
    · rw [ProjectEnvironmentImage.unadmitted, (Table.row_mem hb).2]
      exact hnone
  | phase => exact view_reviseOther (fun _ => rfl) (fun _ => rfl) hforeign
  | finished => exact view_reviseOther (fun _ => rfl) (fun _ => rfl) hforeign
  | detailed => exact view_reviseOther (fun _ => rfl) (fun _ => rfl) hforeign
  | retired => exact view_reviseOther (fun _ => rfl) (fun _ => rfl) hforeign
  | deleting hrow hid howner =>
    refine view_reviseOther (fun _ => rfl) (fun _ => rfl) fun i hi hiid => ?_
    rw [h.eq_of_id hi hrow (hiid.trans hid.symm), howner]
    exact hforeign
  | pinned hrow hid howner =>
    refine view_addRefs fun r hr => ?_
    rw [List.mem_singleton.mp hr]
    by_contra howns
    obtain ⟨i, hi, hiid, howner'⟩ := owns_iff.mp (Bool.not_eq_false _ ▸ howns)
    rw [h.eq_of_id hi hrow (hiid.trans hid.symm), howner] at howner'
    exact hforeign howner'
  | unpinned =>
    refine view_dropRefs fun r hr howns => decide_eq_true ?_
    rintro ⟨hkind, hid⟩
    rw [hforeign r hr hkind hid] at howns
    cases howns
  | retained | retainedBefore => exact retain_foreign h hforeign (plain_ok hbody)
  | admittedBefore | deletingBefore | retiredBefore | pinnedBefore => rfl
  | _ => exact absurd hforeign id

end Foreign

section Apart

/-- Whose image a reference is on does not change. -/
theorem owns_step (h : db.Pinned) (hs : Change parse db a v db') {r : ImageRef} (hr : r ∈ db.refs) :
    db'.owns owner r = db.owns owner r := by
  have hiff (d : Db) : d.owns owner r = true ↔ ∃ tenant project, ∃ i ∈ d.images,
      i.id = r.imageId ∧ i.belongs owner tenant project = true := by
    rw [owns_iff]
    constructor
    · rintro ⟨i, hi, hid, howner⟩
      exact ⟨i.tenantId, i.projectId, i, hi, hid, belongs_iff.mpr ⟨howner, rfl, rfl⟩⟩
    · rintro ⟨tenant, project, i, hi, hid, hbelongs⟩
      exact ⟨i, hi, hid, (belongs_iff.mp hbelongs).1⟩
  rw [Bool.eq_iff_iff, hiff, hiff]
  exact exists_congr fun tenant => exists_congr fun project => belongs_step h hs hr

/-- Where the references after a call come from: they were there before, they are build pins, they
are on an image of the owner, or the call asks for their key. -/
theorem refs_step (owner : String) (hs : Change parse db a v db') {r : ImageRef}
    (hr : r ∈ db'.refs) :
    r ∈ db.refs ∨ (r.kind = .build ∧ r.referenceId = r.imageId) ∨
      (r.kind ≠ .build ∧ (r.kind, r.referenceId) ∈ a.keys ∧
        (a.Own owner db → db'.owns owner r = true)) := by
  cases hs with
  | admitted =>
    obtain hr | rfl := Table.mem_snoc.mp hr
    · exact .inl hr
    · exact .inr (.inl ⟨rfl, rfl⟩)
  | pinned hrow hid howner =>
    obtain hr | rfl := Table.mem_snoc.mp hr
    · exact .inl hr
    · refine .inr (.inr ⟨by simp, List.mem_singleton_self _, fun hown => ?_⟩)
      exact owns_iff.mpr ⟨_, hrow, hid, howner.trans hown.1⟩
  | unpinned => exact .inl (List.mem_of_mem_filter hr)
  | @retained set _ _ hrefs =>
    obtain ⟨⟨hold, _⟩ | hasks | ⟨hbuild, hself, _⟩, _⟩ := (hrefs.mem r).mp hr
    · exact .inl hold
    · refine .inr (.inr ⟨?_, ?_, fun hown => ?_⟩)
      · obtain ⟨_, ⟨hkind, _⟩ | ⟨hkind, _⟩⟩ := hasks <;> simp [hkind]
      · obtain ⟨hid, ⟨hkind, hsome⟩ | ⟨hkind, hsome⟩⟩ := hasks <;>
          simp [Action.keys, hkind, hid, hsome]
      · obtain ⟨i, hi, hid, hbelongs, _⟩ := hrefs.named (RetentionSet.Asks.named hasks)
        exact owns_iff.mpr ⟨i, hi, hid, (belongs_iff.mp hbelongs).1.trans hown.1⟩
    · exact .inr (.inl ⟨hbuild, hself⟩)
  | _ => exact .inl hr

/-- What others do outside the keys leaves the owner apart. -/
theorem Db.Apart.step (h : db.Apart owner keys) (hpinned : db.Pinned)
    (hbuild : ∀ key ∈ keys, key.1 ≠ .build) (hs : Change parse db a v db')
    (hkeys : a.Own owner db ∨ ∀ key ∈ a.keys, key ∉ keys) : db'.Apart owner keys := by
  refine ⟨(hpinned.step hs).exist, fun r hr hkind => ?_, fun r hr howns => ?_⟩
  · obtain hold | ⟨_, hself⟩ | ⟨hother, _⟩ := refs_step owner hs hr
    · exact h.builds r hold hkind
    · exact hself
    · exact absurd hkind hother
  · obtain hold | ⟨hkind, _⟩ | ⟨_, hkey, hown⟩ := refs_step owner hs hr
    · exact h.foreign r hold ((owns_step hpinned hs hold).symm.trans howns)
    · exact fun hmem => hbuild _ hmem hkind
    · obtain hmine | hapart := hkeys
      · rw [hown hmine] at howns
        cases howns
      · exact hapart _ hkey

end Apart

section Histories

/-- The quota check of a reservation. -/
def Db.room (db : Db) (o : String) (bytes : ℤ) : Result Unit := do
  let maximum ← db.quota o
  let total ← db.reserveTotal o bytes
  refuse (maximum < total) (.conflict "replicated storage quota exceeded")

/-- What the quota check of another owner's reservation finds, if the call makes it. -/
def Action.room (owner : String) (db : Db) : Action → Option (Result Unit)
  | .reserveReplicatedVolume o _ volume bytes _ =>
      if o = owner ∨ (db.find volume).isSome then none else some (db.room o bytes)
  | _ => none

/-- A shared call, with what the quota check found if it is a reservation of another owner. -/
structure Shared where
  call : Call
  room : Option (Result Unit)

/-- What two histories have to share. -/
def Shared.asked (s : Shared) : Action × Option (Result Unit) := (s.call.action, s.room)

/-- A call of a history: one of another owner about images, or any other. -/
inductive Move where
  | theirs (c : Call)
  | shared (s : Shared)

/-- One call of an owner or of the others. -/
def Move.Step (parse : String → Option Json) (owner : String) (db : Db) (m : Move) (db' : Db) :
    Prop :=
  match m with
  | .theirs c => Ledger.Step parse db c db' ∧ c.action.Foreign owner db
  | .shared s => Ledger.Step parse db s.call db' ∧ s.call.action.Own owner db ∧
      s.room = s.call.action.room owner db

/-- The call, if it is the owner's. -/
def Move.shared? : Move → Option Shared
  | .theirs _ => none
  | .shared s => some s

/-- The calls of the owner. -/
def sharedMoves (ms : List Move) : List Shared := ms.filterMap Move.shared?

/-- The shared calls with their answers. -/
def sharedCalls (ms : List Move) : List Call := (sharedMoves ms).map Shared.call

/-- No call of another owner asks for a key of a shared call. -/
def Separate (ms : List Move) : Prop :=
  ∀ c, .theirs c ∈ ms → ∀ s, .shared s ∈ ms → ∀ key ∈ c.action.keys, key ∉ s.call.action.keys

/-- A reservation whose quota check is done. -/
def reserveGiven (room : Result Unit) (o sandbox volume : String) (bytes now : ℤ) (db : Db) :
    Result (ReplicatedReservation × Db) := do
  refuse (volume.utf8ByteSize ≠ 64 ∨ ¬ volume.toList.all hexDigit ∨ o = "" ∨ sandbox = "" ∨
      64 < sandbox.utf8ByteSize ∨ bytes ≤ 0 ∨ 64 * 1024 * 1024 * 1024 < bytes ∨ bytes % 65536 ≠ 0)
    (.conflict "invalid replicated reservation")
  match db.find volume with
  | some old =>
    refuse (¬ (old.ownerUserId = o ∧ old.sandboxId = sandbox ∧ old.logicalBytes = bytes ∧
        old.state = .reserved))
      (.conflict "replicated volume identity already reserved or retired")
    return (old, db)
  | none =>
    room
    refuse (db.occupied sandbox) (.conflict "sandbox already has a retained replicated disk")
    let row := ReplicatedReservation.new o sandbox volume bytes now
    return (row, { db with
      reservations := db.reservations ++ [row]
      operations := db.operations.map (LifecycleOperation.bindVolume o sandbox volume) })

/-- A reservation is decided by the room that is left. -/
theorem reserve_given (o sandbox volume : String) (bytes now : ℤ) :
    reserveReplicatedVolume o sandbox volume bytes now db =
      reserveGiven (db.room o bytes) o sandbox volume bytes now db := by
  unfold reserveReplicatedVolume reserveGiven Db.room
  refine congrArg _ (funext fun _ => ?_)
  cases db.find volume with
  | some old => rfl
  | none => simp only [bind_assoc]

/-- Nothing else of a reservation depends on the images of others. -/
theorem reserveGiven_view (room : Result Unit) (o sandbox volume : String) (bytes now : ℤ) :
    reserveGiven room o sandbox volume bytes now (db.view owner) =
      (reserveGiven room o sandbox volume bytes now db).map fun p => (p.1, p.2.view owner) := by
  unfold reserveGiven
  rw [bind_map]
  refine congrArg _ (funext fun _ => ?_)
  rw [show (db.view owner).find volume = db.find volume from rfl]
  cases db.find volume with
  | some old =>
    dsimp only
    rw [bind_map]
    rfl
  | none =>
    dsimp only
    rw [bind_map]
    refine congrArg _ (funext fun _ => ?_)
    rw [bind_map]
    rfl

/-- A reservation of a known volume makes no quota check. -/
theorem reserveGiven_known {volume : String} (h : (db.find volume).isSome)
    (room room' : Result Unit) (o sandbox : String) (bytes now : ℤ) :
    reserveGiven room o sandbox volume bytes now db =
      reserveGiven room' o sandbox volume bytes now db := by
  obtain ⟨old, hold⟩ := Option.isSome_iff_exists.mp h
  unfold reserveGiven
  rw [hold]

/-- The transaction of a shared call in the view. -/
def Shared.body (parse : String → Option Json) (view : Db) (s : Shared) : Result (Value × Db) :=
  match s.room, s.call.action with
  | some room, .reserveReplicatedVolume o sandbox volume bytes now =>
      tagged .reservation (reserveGiven room o sandbox volume bytes now view)
  | _, a => a.body parse view

/-- A step of the view. -/
def ViewStep (parse : String → Option Json) (view : Db) (s : Shared) (view' : Db) : Prop :=
  transaction (fun db => s.body parse db) view = (s.call.reply, view')

/-- A shared call does in the view what it does in the ledger. -/
theorem sharedBody_view (parse : String → Option Json) (h : db.Apart owner keys) {s : Shared}
    (hown : s.call.action.Own owner db)
    (hkeys : ∀ key ∈ s.call.action.keys, key ∈ keys)
    (hroom : s.room = s.call.action.room owner db) :
    s.body parse (db.view owner) =
      (s.call.action.body parse db).map fun p => (p.1, p.2.view owner) := by
  obtain ⟨⟨a, reply⟩, room⟩ := s
  obtain rfl : room = a.room owner db := hroom
  by_cases hreserve : ∃ o sandbox volume bytes now,
      a = .reserveReplicatedVolume o sandbox volume bytes now ∧ o ≠ owner
  · obtain ⟨o, sandbox, volume, bytes, now, rfl, hother⟩ := hreserve
    have hbody : Action.body parse db (.reserveReplicatedVolume o sandbox volume bytes now) =
        tagged .reservation (reserveGiven (db.room o bytes) o sandbox volume bytes now db) :=
      congrArg (tagged .reservation) (reserve_given o sandbox volume bytes now)
    refine Eq.trans ?_ (congrArg _ hbody).symm
    cases hfind : (db.find volume).isSome with
    | true =>
      have hroom : Action.room owner db (.reserveReplicatedVolume o sandbox volume bytes now) =
          none := if_pos (.inr hfind)
      unfold Shared.body
      dsimp only
      rw [hroom]
      refine Eq.trans (congrArg (tagged .reservation) (reserve_given o sandbox volume bytes now)) ?_
      have hknown : ((db.view owner).find volume).isSome := hfind
      rw [reserveGiven_known hknown _ (db.room o bytes)]
      exact tagged_view (reserveGiven_view _ o sandbox volume bytes now)
    | false =>
      have hroom : Action.room owner db (.reserveReplicatedVolume o sandbox volume bytes now) =
          some (db.room o bytes) := if_neg (by simp [hother, hfind])
      unfold Shared.body
      dsimp only
      rw [hroom]
      exact tagged_view (reserveGiven_view _ o sandbox volume bytes now)
  · push Not at hreserve
    refine Eq.trans ?_ (body_view h hown hkeys hreserve)
    have hnone : a.room owner db = none := by
      cases a with
      | reserveReplicatedVolume o sandbox volume bytes now =>
        exact if_pos (.inl (hreserve o sandbox volume bytes now rfl))
      | _ => rfl
    unfold Shared.body
    dsimp only
    rw [hnone]

/-- A shared call takes the view to the view. -/
theorem viewStep_of_step (h : db.Apart owner keys) {s : Shared}
    (hs : Move.Step parse owner db (.shared s) db')
    (hkeys : ∀ key ∈ s.call.action.keys, key ∈ keys) :
    ViewStep parse (db.view owner) s (db'.view owner) := by
  obtain ⟨hs, hown, hroom⟩ := hs
  have hbody := sharedBody_view parse h hown hkeys hroom
  unfold Ledger.Step Db.run transaction at hs
  unfold ViewStep transaction
  dsimp only at hs ⊢
  rw [hbody]
  cases hresult : s.call.action.body parse db with
  | error e =>
    rw [hresult] at hs
    obtain ⟨hreply, rfl⟩ := Prod.mk.inj hs
    exact Prod.ext hreply rfl
  | ok p =>
    rw [hresult] at hs
    obtain ⟨hreply, rfl⟩ := Prod.mk.inj hs
    exact Prod.ext hreply rfl

/-- The view is determined by what is shared. -/
theorem viewStep_deterministic {view view₁ view₂ : Db} {s₁ s₂ : Shared}
    (h₁ : ViewStep parse view s₁ view₁) (h₂ : ViewStep parse view s₂ view₂)
    (hsame : s₁.asked = s₂.asked) : s₁ = s₂ ∧ view₁ = view₂ := by
  obtain ⟨⟨a, reply₁⟩, room⟩ := s₁
  obtain ⟨⟨a₂, reply₂⟩, room₂⟩ := s₂
  obtain ⟨haction, hroom⟩ := Prod.mk.inj hsame
  obtain rfl : a = a₂ := haction
  obtain rfl : room = room₂ := hroom
  have hbody : Shared.body parse view ⟨⟨a, reply₁⟩, room⟩ =
      Shared.body parse view ⟨⟨a, reply₂⟩, room⟩ := rfl
  unfold ViewStep transaction at h₁ h₂
  dsimp only at h₁ h₂
  rw [hbody] at h₁
  obtain ⟨rfl, rfl⟩ := Prod.mk.inj (h₁.symm.trans h₂)
  exact ⟨rfl, rfl⟩

/-- What a history does to the view. -/
theorem viewTrace_of_trace {start : Db} {ms : List Move} (hstart : start.Imageless)
    (hbuild : ∀ key ∈ keys, key.1 ≠ .build)
    (hrun : Trace (Move.Step parse owner) start ms db)
    (htheirs : ∀ c, .theirs c ∈ ms → ∀ key ∈ c.action.keys, key ∉ keys)
    (hshared : ∀ s, .shared s ∈ ms → ∀ key ∈ s.call.action.keys, key ∈ keys) :
    db.Pinned ∧ db.Apart owner keys ∧
      Trace (ViewStep parse) (start.view owner) (sharedMoves ms) (db.view owner) := by
  induction hrun with
  | nil =>
    refine ⟨hstart.pinned, ⟨?_, ?_, ?_⟩, .nil⟩ <;> simp [hstart.refs]
  | @snoc ms db₁ db₂ m hrun hs ih =>
    obtain ⟨hpinned, hapart, htrace⟩ := ih
      (fun c hc => htheirs c (List.mem_append_left _ hc))
      fun c hc => hshared c (List.mem_append_left _ hc)
    have hlast : m ∈ ms ++ [m] := List.mem_append_right _ (List.mem_singleton_self _)
    unfold sharedMoves at htrace ⊢
    rw [List.filterMap_append]
    cases m with
    | theirs c =>
      obtain ⟨hs, hforeign⟩ := hs
      rw [show [Move.theirs c].filterMap Move.shared? = [] from rfl, List.append_nil]
      obtain ⟨_, _, rfl⟩ | ⟨v, _, hbody⟩ := hs.cases
      · exact ⟨hpinned, hapart, htrace⟩
      · obtain ⟨_, _, rfl⟩ | ⟨_, _, hchange⟩ := hs.change
        · exact ⟨hpinned, hapart, htrace⟩
        · refine ⟨hpinned.step hchange, ?_, ?_⟩
          · exact hapart.step hpinned hbuild hchange (.inr (htheirs c hlast))
          · rw [foreign_view hpinned hforeign hbody hchange]
            exact htrace
    | shared s =>
      rw [show [Move.shared s].filterMap Move.shared? = [s] from rfl]
      have hview := viewStep_of_step hapart hs (hshared s hlast)
      obtain ⟨hs, hown, _⟩ := hs
      refine ⟨hpinned.step_run hs, ?_, htrace.snoc hview⟩
      obtain ⟨_, _, rfl⟩ | ⟨v, _, hchange⟩ := hs.change
      · exact hapart
      · exact hapart.step hpinned hbuild hchange (.inl hown)

/-- The moves that concern everybody. -/
theorem mem_sharedMoves {ms : List Move} {s : Shared} : s ∈ sharedMoves ms ↔ .shared s ∈ ms := by
  unfold sharedMoves
  rw [List.mem_filterMap]
  constructor
  · rintro ⟨m, hm, hs⟩
    cases m with
    | theirs => cases hs
    | shared s' =>
      obtain rfl := Option.some.inj hs
      exact hm
  · exact fun hs => ⟨_, hs, rfl⟩

theorem keys_ne_build {key : RefKind × String} (h : key ∈ a.keys) : key.1 ≠ .build := by
  cases a with
  | pinProjectImageVm =>
    rw [List.mem_singleton.mp h]
    simp
  | retainProjectImages set =>
    simp only [Action.keys, List.mem_append, Option.mem_toList, Option.map_eq_some_iff] at h
    obtain ⟨_, _, rfl⟩ | ⟨_, _, rfl⟩ := h
    · simp
    · simp
  | _ => exact absurd h List.not_mem_nil

/-- Two histories that share the calls of an owner on its own images, and every call that is not
about images, give the same answers to the shared calls and end with the same references on the
owner's images, as long as no call of another owner asks for a key of the owner's and the quota
check of each reservation of another owner finds the same. -/
theorem owners_do_not_interfere {start db₁ db₂ : Db} {ms₁ ms₂ : List Move}
    (hstart : start.Imageless) (hrun₁ : Trace (Move.Step parse owner) start ms₁ db₁)
    (hrun₂ : Trace (Move.Step parse owner) start ms₂ db₂)
    (hsame : (sharedMoves ms₁).map Shared.asked = (sharedMoves ms₂).map Shared.asked)
    (hapart₁ : Separate ms₁) (hapart₂ : Separate ms₂) :
    sharedCalls ms₁ = sharedCalls ms₂ ∧
      db₁.refs.filter (db₁.owns owner) = db₂.refs.filter (db₂.owns owner) := by
  -- the keys of the shared calls are the same in both histories
  have hactions : (sharedMoves ms₁).map (·.call.action) = (sharedMoves ms₂).map
    (·.call.action) := by
    have := congrArg (List.map Prod.fst) hsame
    rwa [List.map_map, List.map_map] at this
  let keys := (sharedMoves ms₁).flatMap (·.call.action.keys)
  have hkeys : keys = (sharedMoves ms₂).flatMap (·.call.action.keys) := by
    have := congrArg (List.flatMap Action.keys) hactions
    rwa [List.flatMap_map, List.flatMap_map] at this
  have hview {ms : List Move} {db : Db} (hrun : Trace (Move.Step parse owner) start ms db)
      (hapart : Separate ms) (hkeys : keys = (sharedMoves ms).flatMap (·.call.action.keys)) :
      Trace (ViewStep parse) (start.view owner) (sharedMoves ms) (db.view owner) := by
    suffices hall : db.Pinned ∧ db.Apart owner keys ∧ Trace (ViewStep parse)
      (start.view owner) (sharedMoves ms) (db.view owner) from hall.2.2
    refine viewTrace_of_trace hstart ?_ hrun ?_ ?_
    · intro key hkey
      obtain ⟨s, _, hkey⟩ := List.mem_flatMap.mp hkey
      exact keys_ne_build hkey
    · intro c hc key hkey hmem
      rw [hkeys] at hmem
      obtain ⟨s, hs, hkey'⟩ := List.mem_flatMap.mp hmem
      exact hapart c hc s (mem_sharedMoves.mp hs) key hkey hkey'
    · intro s hs key hkey
      rw [hkeys]
      exact List.mem_flatMap.mpr ⟨s, mem_sharedMoves.mpr hs, hkey⟩
  obtain ⟨hmoves, hdb⟩ := (hview hrun₁ hapart₁ rfl).deterministic viewStep_deterministic
    (hview hrun₂ hapart₂ hkeys) hsame
  exact ⟨congrArg (List.map Shared.call) hmoves, congrArg Db.refs hdb⟩

end Histories

section Sample

instance (owner : String) (db : Db) (a : Action) : Decidable (a.Own owner db) := by
  cases a <;> unfold Action.Own Db.Mine <;> infer_instance

instance (owner : String) (db : Db) (a : Action) : Decidable (a.Foreign owner db) := by
  cases a <;> unfold Action.Foreign <;> infer_instance

/-- Play actions, those marked `true` as calls of other owners about images. -/
def play (parse : String → Option Json) (owner : String) :
    List (Bool × Action) → Db → List Move × Db
  | [], db => ([], db)
  | (foreign, a) :: rest, db =>
      let (reply, db') := db.run parse a
      let (ms, last) := play parse owner rest db'
      ((if foreign then .theirs ⟨a, reply⟩ else .shared ⟨⟨a, reply⟩, a.room owner db⟩) :: ms, last)

/-- The marks are right. -/
def Playable (parse : String → Option Json) (owner : String) : List (Bool × Action) → Db → Prop
  | [], _ => True
  | (foreign, a) :: rest, db =>
      (if foreign then a.Foreign owner db else a.Own owner db) ∧
        Playable parse owner rest (db.run parse a).2

instance decidablePlayable (parse : String → Option Json) (owner : String) :
    (as : List (Bool × Action)) → (db : Db) → Decidable (Playable parse owner as db)
  | [], _ => .isTrue trivial
  | (_, a) :: rest, db =>
      have := decidablePlayable parse owner rest (db.run parse a).2
      inferInstanceAs (Decidable (_ ∧ _))

/-- A playable history is a run. -/
theorem play_trace {as : List (Bool × Action)} (h : Playable parse owner as db) :
    Trace (Move.Step parse owner) db (play parse owner as db).1 (play parse owner as db).2 := by
  induction as generalizing db with
  | nil => exact .nil
  | cons entry as ih =>
    obtain ⟨foreign, a⟩ := entry
    obtain ⟨hmark, hrest⟩ := h
    refine Trace.cons ?_ (ih hrest)
    cases foreign with
    | true => exact ⟨rfl, hmark⟩
    | false => exact ⟨rfl, hmark, rfl⟩

/-- Its calls are the ones that were made. -/
theorem mem_play {as : List (Bool × Action)} {c : Call}
    (h : .theirs c ∈ (play parse owner as db).1) :
    (true, c.action) ∈ as := by
  induction as generalizing db with
  | nil => exact absurd h List.not_mem_nil
  | cons entry as ih =>
    obtain ⟨foreign, a⟩ := entry
    obtain hhead | htail := List.mem_cons.mp h
    · cases foreign with
      | true =>
        injection hhead with hhead
        rw [hhead]
        exact List.mem_cons_self
      | false => cases hhead
    · exact List.mem_cons_of_mem _ (ih htail)

/-- Two owners who have nothing yet. -/
def twoOwners : Db := { users := [⟨"alice", 100⟩, ⟨"bob", 1⟩] }

/-- Bob reserves a disk of so many chunks for a sandbox. -/
def bobReserves (sandbox : String) (chunks : ℤ) : Action :=
  .reserveReplicatedVolume "bob" sandbox (String.ofList (List.replicate 64 '0')) (65536 * chunks) 2

/-- Alice and bob have a builder each, and bob makes his calls. -/
def builders (bob : List Action) : List (Bool × Action) :=
  [(false, .admitProjectBuilder (sampleBuilder "a" "alice")),
    (false, .admitProjectBuilder (sampleBuilder "b" "bob"))] ++ bob.map (true, ·)

/-- Then bob reserves a disk, and alice captures an image and retains it. -/
def retentions (bob : List Action) : List (Bool × Action) :=
  builders bob ++ [(false, bobReserves "disk" 1)] ++ ((sampleCapture "a" "alice").map (false, ·)) ++
    [(false, .retainProjectImages (sampleRetention "alice" 1 (some "a")))]

/-- A history of both. -/
def retained (bob : List Action) : List Move × Db :=
  play provenanceParse "alice" (retentions bob) twoOwners

/-- What bob captures changes nothing for alice. -/
theorem owners_do_not_interfere_captured :
    Trace (Move.Step provenanceParse "alice") twoOwners (retained (sampleCapture "b" "bob")).1
      (retained (sampleCapture "b" "bob")).2 ∧
    (retained (sampleCapture "b" "bob")).2.refs.length = 3 ∧
    (retained (sampleCapture "b" "bob")).2.reservations.length = 1 ∧
    sharedCalls (retained (sampleCapture "b" "bob")).1 = sharedCalls (retained []).1 := by
  have hplay₁ : Playable provenanceParse "alice" (retentions (sampleCapture "b" "bob"))
      twoOwners := by decide +kernel
  have hplay₂ : Playable provenanceParse "alice" (retentions []) twoOwners := by decide +kernel
  have hkeys (bob : List Action) (hbob : ∀ e ∈ retentions bob, e.1 = true → e.2.keys = []) :
      Separate (retained bob).1 := by
    intro c hc s _ key hkey
    rw [hbob _ (mem_play hc) rfl] at hkey
    exact absurd hkey List.not_mem_nil
  have hsame : (sharedMoves (retained (sampleCapture "b" "bob")).1).map Shared.asked =
      (sharedMoves (retained []).1).map Shared.asked := by rfl
  refine ⟨play_trace hplay₁, by decide +kernel, by decide +kernel, ?_⟩
  exact (owners_do_not_interfere ⟨rfl, rfl, rfl⟩ (play_trace hplay₁) (play_trace hplay₂) hsame
    (hkeys _ (by decide +kernel)) (hkeys _ (by decide +kernel))).1

/-- Bob's image is current for the same tenant and project. -/
def bobRetains : List Action :=
  sampleCapture "b" "bob" ++ [.retainProjectImages (sampleRetention "bob" 1 (some "b"))]

/-- References are keyed without their owner: after bob's retention call for the same tenant and
project, that of alice fails. -/
theorem retention_key_without_owner :
    Trace (Move.Step provenanceParse "alice") twoOwners (retained bobRetains).1
      (retained bobRetains).2 ∧
    Trace (Move.Step provenanceParse "alice") twoOwners (retained []).1 (retained []).2 ∧
    (sharedMoves (retained bobRetains).1).map Shared.asked =
      (sharedMoves (retained []).1).map Shared.asked ∧
    (sharedCalls (retained bobRetains).1).getLast? =
      some ⟨.retainProjectImages (sampleRetention "alice" 1 (some "a")), .error .sqlite⟩ ∧
    (sharedCalls (retained []).1).getLast? =
      some ⟨.retainProjectImages (sampleRetention "alice" 1 (some "a")), .ok .unit⟩ ∧
    (retained bobRetains).2.refs.filter ((retained bobRetains).2.owns "alice") ≠
      (retained []).2.refs.filter ((retained []).2.owns "alice") := by
  have hplay₁ : Playable provenanceParse "alice" (retentions bobRetains) twoOwners := by
    decide +kernel
  have hplay₂ : Playable provenanceParse "alice" (retentions []) twoOwners := by decide +kernel
  exact ⟨play_trace hplay₁, play_trace hplay₂, by rfl, by rfl, by rfl, by decide +kernel⟩

/-- Alice's image is pinned by a sandbox of hers, and bob reserves a disk for a sandbox of that name
before she releases the pin and deletes the image. -/
def deletions (bob : List Action) : List (Bool × Action) :=
  builders bob ++ ((sampleCapture "a" "alice").map (false, ·)) ++
    [(false, .pinProjectImageVm "a" "alice" "t" "p" "digest" "vm"), (false, bobReserves "vm" 16),
      (false, .retainProjectImages { sampleRetention "alice" 1 none with release := ["a"] }),
      (false, .releaseProjectImageVm "vm"), (false, .beginProjectImageDelete "a" "alice" 4)]

/-- A history of both. -/
def deleted (bob : List Action) : List Move × Db :=
  play provenanceParse "alice" (deletions bob) twoOwners

/-- The quota check has to find the same: bob's disk does not fit beside an image that he captured,
and without his disk alice can delete hers. -/
theorem image_charge_reaches_owner :
    Trace (Move.Step provenanceParse "alice") twoOwners (deleted (sampleCapture "b" "bob")).1
      (deleted (sampleCapture "b" "bob")).2 ∧
    Trace (Move.Step provenanceParse "alice") twoOwners (deleted []).1 (deleted []).2 ∧
    (sharedCalls (deleted (sampleCapture "b" "bob")).1).map Call.action =
      (sharedCalls (deleted []).1).map Call.action ∧
    (deleted (sampleCapture "b" "bob")).2.refs.filter
      ((deleted (sampleCapture "b" "bob")).2.owns "alice") = [] ∧
    (sharedCalls (deleted []).1).getLast? = some ⟨.beginProjectImageDelete "a" "alice" 4,
      .error (.conflict "project image is referenced or capture is active")⟩ ∧
    (deleted []).2.refs.filter ((deleted []).2.owns "alice") = [⟨.vm, "vm", "a"⟩] := by
  have hplay₁ : Playable provenanceParse "alice" (deletions (sampleCapture "b" "bob"))
      twoOwners := by decide +kernel
  have hplay₂ : Playable provenanceParse "alice" (deletions []) twoOwners := by decide +kernel
  exact ⟨play_trace hplay₁, play_trace hplay₂, by rfl, by decide +kernel, by rfl,
    by decide +kernel⟩

end Sample

end AgentHouse.Ledger
