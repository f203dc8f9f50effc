import AgentHouse.Lib.Ownership
import AgentHouse.Volume.Publishing

/-!
# What the ownership layer decides

The functions of `owned.rs` that replace a head read it first and then decide what to send, if
anything: `enroll`, the two halves of `open_inner`, `release` and `retire`. Each of their requests
asks for a move of the ownership protocol from the head that was read.
-/

namespace AgentHouse.Owned

open Volume

/-- The compare-and-set that replaces the head of a volume. -/
def replacement (id : VolumeId) (expected : Option Revision) (m : Manifest) : Request :=
  ⟨⟨false, id⟩, expected, m⟩

/-- `publish` of `enroll`, `open_inner` and `release`, seen by its caller. -/
def confirm (answer : Result Revision) : Result Unit :=
  match answer with
  | .error e => .error (publicationError e)
  | .ok rev => if rev = "" then .error .uncertain else .ok ()

/-- `reclaim::tombstone` -/
def tombstone (id : VolumeId) : Manifest := .tombstone ⟨id, true⟩

/-- `reclaim::retired` -/
def retired (P : Platform) (id : VolumeId) (h : Head) : Result Bool :=
  if (P.json h.manifest).length > maxManifestBytes ∨ h.revision = "" then .error .corrupt
  else
    match h.manifest with
    | .tombstone t => if t.volume ≠ id ∨ t.deleted = false then .error .corrupt else .ok true
    | _ => .ok false

/-- `IndexedVolume::resume_import` -/
def resumeImport (P : Platform) (view : View) (store : Client) (id : VolumeId) (size : ℕ) :
    Result IndexedVolume :=
  if validId id = false then .error .invalidInput
  else
    match store.head P view id with
    | .error e => .error e
    | .ok none => .error .notFound
    | .ok (some h) =>
      match decodeHead P view store id h false with
      | .error e => .error e
      | .ok disk =>
        if disk.root.ready = true ∨ disk.root.format ≠ 2 ∨ disk.size ≠ size then .error .conflict
        else .ok disk

/-- `OwnedDisk::enroll` behind its read of the head. -/
def enroll (P : Platform) (view : View) (id : VolumeId) (head : Option Head) :
    Result (Option Request) :=
  match head with
  | none => .error .notFound
  | some h =>
    match decodeEnvelope P view id h with
    | .error e => .error e
    | .ok e =>
      if e.epoch ≠ 0 then .ok none
      else
        match encodeEnvelope P { e with epoch := 1 } with
        | .error err => .error err
        | .ok m => .ok (some (replacement id (some h.revision) m))

/-- `open_inner` behind its read of the head: an enrolled volume. -/
def openHead (P : Platform) (view : View) (id : VolumeId) (head : Option Head) :
    Result (Revision × Envelope) :=
  match head with
  | none => .error .notFound
  | some h =>
    match decodeEnvelope P view id h with
    | .error e => .error e
    | .ok e => if e.epoch = 0 then .error .notReady else .ok (h.revision, e)

/-- `owner.json`. A write that was cut off leaves a part of the document, which does not parse. -/
inductive IdentityFile where
  | absent
  | torn
  | whole (i : Identity)
  deriving DecidableEq

/-- The identity that `open_inner` finds in its directory, if any. -/
def IdentityFile.read (id : VolumeId) : IdentityFile → Result (Option Identity)
  | absent => .ok none
  | torn => .error .corrupt
  | whole i =>
    if i.volume ≠ id ∨ validHash i.token = false ∨ i.epoch = 0 then .error .corrupt
    else .ok (some i)

/-- The identity that `open_inner` makes up for a directory without one. -/
def newIdentity (id : VolumeId) (e : Envelope) (token : Hash) : Result Identity :=
  if e.owner.isSome then .error .conflict
  else
    match checkedAdd e.epoch 1 with
    | none => .error .corrupt
    | some k => .ok ⟨id, token, k⟩

/-- The claim of `open_inner`, unless the identity is the recorded owner already. Only an unowned
predecessor can be claimed. -/
def claim (P : Platform) (i : Identity) (rev : Revision) (e : Envelope) :
    Result (Option Request) :=
  if i.matches e then .ok none
  else if e.owner.isSome ∨ checkedAdd e.epoch 1 ≠ some i.epoch then .error .conflict
  else
    match encodeEnvelope P { e with epoch := i.epoch, owner := some i.token } with
    | .error err => .error err
    | .ok m => .ok (some (replacement i.volume (some rev) m))

/-- `Store::release` behind its read of the head. -/
def release (P : Platform) (view : View) (i : Identity) (head : Option Head) :
    Result (Option Request) :=
  match head with
  | none => .error .notFound
  | some h =>
    match decodeEnvelope P view i.volume h with
    | .error e => .error e
    | .ok e =>
      if e.epoch > i.epoch ∨ e.epoch = i.epoch ∧ e.owner = none then .ok none
      else if i.matches e = false then .error .conflict
      else
        match encodeEnvelope P { e with owner := none } with
        | .error err => .error err
        | .ok m => .ok (some (replacement i.volume (some h.revision) m))

/-- How `OwnedDisk::retire` goes on after its first read of the head: it is done, sends a
tombstone, or has to open the volume as its owner. -/
inductive Retirement where
  | done
  | send (q : Request)
  | asOwner

/-- `OwnedDisk::retire` behind its first read of the head. A disk map that is not enrolled is
checked first, an unfinished import on a head that is read anew. -/
def retire (P : Platform) (view : View) (id : VolumeId) (head : Option Head) : Result Retirement :=
  match head with
  | none => .ok (.send (replacement id none (tombstone id)))
  | some h =>
    match retired P id h with
    | .error e => .error e
    | .ok true => .ok .done
    | .ok false =>
      let send : Retirement := .send (replacement id (some h.revision) (tombstone id))
      match h.manifest with
      | .root r =>
        if [2, 6, 8, 10].contains r.format then
          let disk := if r.ready then decodeHead P view (.raw false) id h true
            else resumeImport P view (.raw false) id r.size
          match disk with
          | .error e => .error e
          | .ok _ => .ok send
        else
          match decodeEnvelope P view id h with
          | .error e => .error e
          | .ok _ => .ok .asOwner
      | _ =>
        match decodeEnvelope P view id h with
        | .error e => .error e
        | .ok e => .ok (if e.epoch ≠ 0 ∧ e.owner = none then send else .asOwner)

/-- The rest of `OwnedDisk::retire` once it has opened the volume and read the head again. -/
def retireOwned (P : Platform) (view : View) (i : Identity) (head : Option Head) :
    Result Request :=
  match head with
  | none => .error .notFound
  | some h =>
    match decodeEnvelope P view i.volume h with
    | .error e => .error e
    | .ok e =>
      if i.matches e = false then .error .conflict
      else .ok (replacement i.volume (some h.revision) (tombstone i.volume))

/-! ## The protocol behind it -/

/-- What a head records. -/
def entry : Option Manifest → Ownership.Entry Root Hash
  | none => .blank
  | some (.root r) => .bare r
  | some (.envelope e) => .held e.epoch e.owner e.manifest
  | some (.tombstone _) => .retired

/-- The document `m'` may replace the head `m`. -/
def Follows (m : Option Manifest) (m' : Manifest) : Prop :=
  Ownership.Next Root.generation (entry m) (entry (some m'))

section Decisions

variable {P : Platform} {view : View} {id : VolumeId} {h : Head} {head : Option Head}
  {e : Envelope} {i : Identity} {q : Request} {rev : Revision} {m : Manifest}

/-- An identity matches an envelope with its epoch and its token. -/
theorem Identity.matches_iff : i.matches e = true ↔ e.epoch = i.epoch ∧ e.owner = some i.token := by
  simp [Identity.matches]

/-- An envelope comes from an enrolled head, and a bare disk map has epoch zero. -/
theorem decodeEnvelope_ok (hok : decodeEnvelope P view id h = .ok e) :
    (h.manifest = .envelope e ∧ e.epoch ≠ 0 ∧ e.volume = id) ∨
      ∃ r, h.manifest = .root r ∧ e = ⟨id, 0, none, r⟩ := by
  unfold decodeEnvelope at hok
  split at hok
  · cases hok
  split at hok
  · cases hok
  · rename_i e' hm
    split at hok
    · cases hok
    · rename_i hvalid
      split at hok
      · cases hok
      · obtain rfl := Except.ok.inj hok
        simp only [not_or, not_not] at hvalid
        exact .inl ⟨hm, hvalid.2.1, hvalid.1⟩
  · rename_i r hm
    split at hok
    · cases hok
    · exact .inr ⟨r, hm, (Except.ok.inj hok).symm⟩

/-- An enrolled head is an envelope. -/
theorem decodeEnvelope_enrolled (hok : decodeEnvelope P view id h = .ok e) (he : e.epoch ≠ 0) :
    h.manifest = .envelope e ∧ e.volume = id := by
  rcases decodeEnvelope_ok hok with ⟨hm, -, hvolume⟩ | ⟨r, -, rfl⟩
  · exact ⟨hm, hvolume⟩
  · exact absurd rfl he

theorem encodeEnvelope_ok (hok : encodeEnvelope P e = .ok m) : m = .envelope e := by
  unfold encodeEnvelope at hok
  split at hok
  · cases hok
  · exact (Except.ok.inj hok).symm

/-- The request `q` moves the volume on from the head `m`. -/
structure Moves (id : VolumeId) (head : Option Head) (q : Request) : Prop where
  space : q.space = ⟨false, id⟩
  expected : q.expected = head.map Head.revision
  follows : Follows (head.map Head.manifest) q.manifest

/-- An enrolment has no owner. -/
theorem enroll_ok (hok : enroll P view id head = .ok (some q)) :
    Moves id head q ∧ (entry (head.map Head.manifest)).owner = none ∧
      (entry (some q.manifest)).owner = none := by
  unfold enroll at hok
  split at hok
  · cases hok
  · rename_i h
    split at hok
    · cases hok
    · rename_i e he
      split at hok
      · cases hok
      · rename_i hepoch
        split at hok
        · cases hok
        · rename_i m hm
          obtain rfl := Option.some.inj (Except.ok.inj hok)
          obtain rfl := encodeEnvelope_ok hm
          rcases decodeEnvelope_ok he with ⟨-, hne, -⟩ | ⟨r, hroot, rfl⟩
          · exact absurd hne hepoch
          · refine ⟨⟨rfl, rfl, ?_⟩, ?_, rfl⟩
            · simp only [Option.map_some, hroot]
              exact .enroll r
            · simp only [Option.map_some, hroot]
              rfl

/-- The head that is opened. -/
theorem openHead_ok (hok : openHead P view id head = .ok (rev, e)) :
    head = some ⟨rev, .envelope e⟩ := by
  unfold openHead at hok
  split at hok
  · cases hok
  · rename_i h
    split at hok
    · cases hok
    · rename_i e' he
      split at hok
      · cases hok
      · rename_i hepoch
        obtain ⟨rfl, rfl⟩ := Prod.mk.inj (Except.ok.inj hok)
        rw [← (decodeEnvelope_enrolled he hepoch).1]

/-- The identity that is read is whole and of the volume. -/
theorem IdentityFile.read_ok {file : IdentityFile} (hok : file.read id = .ok (some i)) :
    file = .whole i ∧ i.volume = id := by
  cases file with
  | absent => cases hok
  | torn => cases hok
  | whole j =>
    rw [IdentityFile.read] at hok
    split at hok
    · cases hok
    · rename_i hvalid
      obtain rfl := Option.some.inj (Except.ok.inj hok)
      simp only [not_or, not_not] at hvalid
      exact ⟨rfl, hvalid.1⟩

/-- A new identity has the next epoch. -/
theorem newIdentity_ok {token : Hash} (hok : newIdentity id e token = .ok i) :
    i = ⟨id, token, e.epoch + 1⟩ ∧ e.owner = none := by
  unfold newIdentity at hok
  split at hok
  · cases hok
  · rename_i howner
    unfold checkedAdd at hok
    split at hok
    · cases hok
    · rename_i k hk
      split at hk
      · obtain rfl := Option.some.inj hk
        exact ⟨(Except.ok.inj hok).symm, by simpa using howner⟩
      · cases hk

/-- A claim is for the epoch behind that of an unowned head. -/
theorem claim_ok (hok : claim P i rev e = .ok (some q)) :
    Moves i.volume (some ⟨rev, .envelope e⟩) q ∧ e.owner = none ∧
      (entry (some q.manifest)).owner = some (i.epoch, i.token) := by
  unfold claim at hok
  split at hok
  · cases hok
  split at hok
  · cases hok
  rename_i hfree
  split at hok
  · cases hok
  · rename_i m hm
    obtain rfl := Option.some.inj (Except.ok.inj hok)
    obtain rfl := encodeEnvelope_ok hm
    simp only [not_or, Bool.not_eq_true, Option.isSome_eq_false_iff, Option.isNone_iff_eq_none,
      not_not] at hfree
    obtain ⟨howner, hepoch⟩ := hfree
    have hnext : i.epoch = e.epoch + 1 := by
      unfold checkedAdd at hepoch
      split at hepoch
      · exact (Option.some.inj hepoch).symm
      · cases hepoch
    refine ⟨⟨rfl, rfl, ?_⟩, howner, rfl⟩
    simp only [Follows, entry, Option.map_some, howner, replacement, hnext]
    exact .claim e.epoch i.token e.manifest

/-- A claim that is left out is one that is recorded. -/
theorem claim_none (hok : claim P i rev e = .ok none) : i.matches e = true := by
  unfold claim at hok
  split at hok
  · assumption
  split at hok
  · cases hok
  split at hok
  · cases hok
  · cases hok

/-- The entry of an envelope that matches. -/
theorem entry_owned (h : i.matches e = true) :
    entry (some (.envelope e)) = .held i.epoch (some i.token) e.manifest := by
  obtain ⟨hepoch, howner⟩ := Identity.matches_iff.mp h
  rw [entry, hepoch, howner]

/-- Only the recorded owner is released, and by nobody else. -/
theorem release_ok (hok : release P view i head = .ok (some q)) :
    Moves i.volume head q ∧
      (entry (head.map Head.manifest)).owner = some (i.epoch, i.token) ∧
      (entry (some q.manifest)).owner = none := by
  unfold release at hok
  split at hok
  · cases hok
  · rename_i h
    split at hok
    · cases hok
    · rename_i e he
      split at hok
      · cases hok
      split at hok
      · cases hok
      rename_i hmatches
      split at hok
      · cases hok
      · rename_i m hm
        obtain rfl := Option.some.inj (Except.ok.inj hok)
        obtain rfl := encodeEnvelope_ok hm
        have hmatches : i.matches e = true := by simpa using hmatches
        have howned := entry_owned hmatches
        rcases decodeEnvelope_ok he with ⟨henvelope, -, -⟩ | ⟨r, -, rfl⟩
        · refine ⟨⟨rfl, rfl, ?_⟩, ?_, rfl⟩
          · obtain ⟨hepoch, howner⟩ := Identity.matches_iff.mp hmatches
            simp only [Follows, Option.map_some, henvelope, replacement, entry, hepoch, howner]
            exact .release i.epoch i.token e.manifest
          · simp only [Option.map_some, henvelope, howned]
            rfl
        · simp [Identity.matches] at hmatches

/-- A tombstone that is sent without an identity replaces a head without an owner. -/
theorem retire_ok (hok : retire P view id head = .ok (.send q)) :
    Moves id head q ∧ (entry (head.map Head.manifest)).owner = none ∧
      (entry (some q.manifest)).owner = none := by
  unfold retire at hok
  split at hok
  · obtain rfl : replacement id none (tombstone id) = q := by simpa using hok
    exact ⟨⟨rfl, rfl, .retire (by simp [entry])⟩, rfl, rfl⟩
  · rename_i h
    split at hok
    · cases hok
    · cases hok
    · simp only at hok
      split at hok
      · rename_i r hroot
        have hsent : ∀ {q}, replacement id (some h.revision) (tombstone id) = q →
            Moves id (some h) q ∧ (entry ((some h).map Head.manifest)).owner = none ∧
              (entry (some q.manifest)).owner = none := by
          rintro q rfl
          have hbare : entry ((some h).map Head.manifest) = .bare r := by
            simp only [Option.map_some, hroot, entry]
          refine ⟨⟨rfl, rfl, .retire ?_⟩, ?_, rfl⟩
          · rw [hbare]
            nofun
          · rw [hbare]
            rfl
        split at hok
        · split at hok
          · cases hok
          · exact hsent (by simpa using hok)
        · split at hok <;> cases hok
      · split at hok
        · cases hok
        · rename_i e he
          split at hok
          · rename_i hunowned
            obtain rfl : replacement id (some h.revision) (tombstone id) = q := by simpa using hok
            obtain ⟨hm, -⟩ := decodeEnvelope_enrolled he hunowned.1
            have hheld : entry ((some h).map Head.manifest) = .held e.epoch none e.manifest := by
              simp only [Option.map_some, hm, entry, hunowned.2]
            refine ⟨⟨rfl, rfl, .retire ?_⟩, ?_, rfl⟩
            · rw [hheld]
              nofun
            · rw [hheld]
              rfl
          · cases hok

/-- A tombstone that is sent under an identity replaces a head that this identity owns. -/
theorem retireOwned_ok (hok : retireOwned P view i head = .ok q) :
    Moves i.volume head q ∧
      (entry (head.map Head.manifest)).owner = some (i.epoch, i.token) ∧
      (entry (some q.manifest)).owner = none := by
  unfold retireOwned at hok
  split at hok
  · cases hok
  · rename_i h
    split at hok
    · cases hok
    · rename_i e he
      split at hok
      · cases hok
      · rename_i hmatches
        obtain rfl := Except.ok.inj hok
        have hmatches : i.matches e = true := by simpa using hmatches
        rcases decodeEnvelope_ok he with ⟨henvelope, -, -⟩ | ⟨r, -, rfl⟩
        · have howned : entry ((some h).map Head.manifest) =
              .held i.epoch (some i.token) e.manifest := by
            simp only [Option.map_some, henvelope, entry_owned hmatches]
          refine ⟨⟨rfl, rfl, .retire ?_⟩, ?_, rfl⟩
          · rw [howned]
            nofun
          · rw [howned]
            rfl
        · simp [Identity.matches] at hmatches

end Decisions

end AgentHouse.Owned
