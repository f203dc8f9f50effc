import AgentHouse.Owned.Invariant

/-!
# Exclusive ownership

The results about all runs, and two about a host that nobody disturbs: it gets a volume that has no
owner, and hands it back.
-/

namespace AgentHouse.Owned

open Volume

/-- The recorded owner of a volume has its identity on disk, in one directory only; and whoever has
a volume open is its recorded owner, unless a request that ends the ownership was left on its
way. -/
structure System.Exclusive (s : System) : Prop where
  owner : ∀ id k t, (recorded s.bucket ⟨false, id⟩).owner = some (k, t) →
    ∃ d, (s.directories d).file = .whole ⟨id, t, k⟩ ∧ (s.directories d).synced = true ∧
      ∀ d' i, (s.directories d').file = .whole i → i.token = t → d' = d
  store : ∀ d st, (s.directories d).holder = .store st → st.active = true →
    Kept s.bucket st.identity

/-- What holds of the heads in three states that follow each other. -/
structure Orderly (B B' B'' : Bucket) : Prop where
  later : ∀ space, Ownership.Later Root.generation (recorded B space) (recorded B'' space)
  epochs : ∀ space k l o o' r r', recorded B space = .held k o r →
    recorded B'' space = .held l o' r' → k ≤ l
  owners : ∀ space k t u, (recorded B space).owner = some (k, t) →
    (recorded B'' space).owner = some (k, u) → t = u
  final : ∀ space, recorded B space = .retired → recorded B'' space = .retired
  /-- A content that is there in the end has been there all the time. -/
  unrepeated : ∀ space, (B''.heads space).map Head.manifest = (B.heads space).map Head.manifest →
    B'.heads space = B.heads space ∧ B''.heads space = B.heads space
  /-- An owner that is gone never owns anything again. -/
  fenced : ∀ space k t, (recorded B space).owner = some (k, t) →
    (recorded B' space).owner ≠ some (k, t) →
      ∀ space' k', (recorded B'' space').owner ≠ some (k', t)

section Results

variable {P : Platform} {past : ℕ → Manifest} {s : System}

/-- The owner in a head has installed its identity. -/
theorem System.Inv.owner_installed (h : s.Inv P past) {space : Space} {k : ℕ} {t : Hash}
    (howner : (recorded s.bucket space).owner = some (k, t)) :
    ∃ id, space = ⟨false, id⟩ ∧ s.Installed ⟨id, t, k⟩ := by
  rw [recorded] at howner
  cases hhead : s.bucket.heads space with
  | none =>
    rw [hhead] at howner
    cases howner
  | some hd =>
    rw [hhead] at howner
    exact (h.heads space hd hhead).2 k t howner

/-- Two owners do not hold one volume. -/
theorem System.Inv.exclusive (h : s.Inv P past) : s.Exclusive := by
  constructor
  · intro id k t howner
    obtain ⟨id', hspace, d, hfile, hsynced⟩ := h.owner_installed howner
    obtain rfl : id = id' := congrArg Space.id hspace
    exact ⟨d, hfile, hsynced, fun d' i hi htoken => h.unique d' d i _ hi hfile htoken⟩
  · intro d st hstore hactive
    apply h.kept d
    simp only [Directory.Relies, hstore]
    exact ⟨hactive, trivial⟩

/-- The rank of a head never falls. -/
theorem Advances.rank_le {B B' : Bucket} (h : Advances B B') (space : Space) :
    (recorded B space).rank Root.generation ≤ (recorded B' space).rank Root.generation :=
  (h.later space).rank_le

/-- A head that comes back was never replaced. -/
theorem Advances.unrepeated {B B' B'' : Bucket} (h : Advances B B') (h' : Advances B' B'')
    {space : Space}
    (hsame : (B''.heads space).map Head.manifest = (B.heads space).map Head.manifest) :
    B'.heads space = B.heads space ∧ B''.heads space = B.heads space := by
  have hrank : recorded B'' space = recorded B space := by rw [recorded, hsame, recorded]
  have hle := h.rank_le space
  have hle' := h'.rank_le space
  rw [hrank] at hle'
  rcases h.rank space with heq | hlt
  · rcases h'.rank space with heq' | hlt'
    · exact ⟨heq, heq'.trans heq⟩
    · rw [hrank] at hlt'
      exact absurd hlt' (not_lt.mpr hle)
  · exact absurd hlt (not_lt.mpr hle')

/-! ### Undisturbed hosts -/

variable {B : Bucket} {q : Request} {id : VolumeId} {d : ℕ} {i : Identity} {rev : Revision}
  {e : Envelope}

@[simp] theorem System.put_self {D : Directory} : (s.put d D).directories d = D :=
  Function.update_self ..

@[simp] theorem System.put_put {D D' : Directory} : (s.put d D).put d D' = s.put d D' := by
  simp only [System.put, Function.update_idem]

theorem System.hold_hold {h h' : Holder} : (s.hold d h).hold d h' = s.hold d h' := by
  simp only [System.hold, System.put_self, System.put_put]

/-- A request in time that expects the current head replaces it. -/
theorem transmit_delivered (h : (B.heads q.space).map Head.revision = q.expected) :
    transmit P B q.space q.expected q.manifest .delivered =
      (B.replace P q.space q.manifest, .ok (P.tag B.published q.manifest)) := by
  have hpublish : B.publish P q.space q.expected q.manifest =
      .ok (B.replace P q.space q.manifest, P.tag B.published q.manifest) := if_pos h
  rw [transmit, hpublish]

/-- From a new directory a host gets a volume that has no owner. -/
theorem System.obtains {token : Hash} (hid : validId id = true)
    (hdirectory : s.directories d = ⟨.absent, false, false, false, .free⟩)
    (hlength : token.length = 32) (hfresh : token ∉ s.tokens)
    (hopen : openHead P s.bucket.view id (s.head id) = .ok (rev, e))
    (hi : newIdentity id e token = .ok i) (hq : claim P i rev e = .ok (some q)) :
    System.Run P s ({ s with
      bucket := s.bucket.replace P q.space q.manifest
      tokens := token :: s.tokens }.put d
        ⟨.whole i, true, false, false, .store ⟨i, false, true, none, []⟩⟩) := by
  let s₁ := s.put d ⟨.absent, false, false, false, .locked id false⟩
  let s₂ := s.put d ⟨.absent, false, false, false, .read id false rev e⟩
  let s₃ := { s with tokens := token :: s.tokens }.put d
    ⟨.whole i, true, false, false, .named false rev e i⟩
  have hlock : System.Step P s s₁ := by
    have h : System.Step P s (s.hold d (.locked id false)) :=
      .lock hid (by rw [hdirectory]) (fun _ => by rw [hdirectory]) nofun
    rwa [System.hold, hdirectory] at h
  have hread : System.Step P s₁ s₂ := by
    have h := System.Step.read (s := s₁) (d := d) (by rw [System.put_self]) hopen
    rwa [System.hold, System.put_self, System.put_put] at h
  have hdraw : System.Step P s₂ s₃ := by
    have h := System.Step.draw (P := P) (s := s₂) (d := d) (by rw [System.put_self])
      (by rw [System.put_self]) hlength hfresh hi
    rwa [System.put_self, System.put_put] at h
  -- The head is still the one that was read.
  have hhead := openHead_ok hopen
  obtain ⟨rfl, -⟩ := newIdentity_ok hi
  obtain ⟨⟨hspace, hexpected, -⟩, -, -⟩ := claim_ok hq
  have hsent : transmit P s₃.bucket q.space q.expected q.manifest .delivered =
      (s.bucket.replace P q.space q.manifest, .ok (P.tag s.bucket.published q.manifest)) := by
    apply transmit_delivered
    rw [hspace, hexpected, ← hhead]
    rfl
  have hclaim := System.Step.claims (s := s₃) (d := d) (by rw [System.put_self]) hq hsent
    (if_neg (P.tag_ne_empty _ _))
  have hfinal : System.Step P s₃ ({ s with
      bucket := s.bucket.replace P q.space q.manifest
      tokens := token :: s.tokens }.put d
        ⟨.whole ⟨id, token, e.epoch + 1⟩, true, false, false,
          .store ⟨⟨id, token, e.epoch + 1⟩, false, true, none, []⟩⟩) := by
    have h : ({ s₃ with bucket := s.bucket.replace P q.space q.manifest } : System).directories d =
        s₃.directories d := rfl
    rw [System.hold, h, System.put_self] at hclaim
    simpa [System.put, s₃] using hclaim
  exact .head hlock (.head hread (.head hdraw (.single hfinal)))

/-- A host that has a volume open hands it back. -/
theorem System.handsBack {file : IdentityFile} {synced marker markerSynced : Bool}
    {volumes : List IndexedVolume}
    (hdirectory : s.directories d =
      ⟨file, synced, marker, markerSynced, .store ⟨i, false, true, none, volumes⟩⟩)
    (hq : Owned.release P s.bucket.view i (s.head i.volume) = .ok (some q)) :
    System.Run P s ({ s with bucket := s.bucket.replace P q.space q.manifest }.put d
        ⟨file, synced, marker, markerSynced, .store ⟨i, false, false, none, volumes⟩⟩) := by
  let s₁ := s.put d ⟨file, synced, marker, markerSynced, .store ⟨i, false, false, none, volumes⟩⟩
  let s₂ := s.put d ⟨file, synced, marker, markerSynced, .store ⟨i, false, false, some q, volumes⟩⟩
  have hclose : System.Step P s s₁ := by
    have h := System.Step.close (P := P) (s := s) (d := d) (by rw [hdirectory])
    rwa [System.hold, hdirectory] at h
  have hrelease : System.Step P s₁ s₂ := by
    have h := System.Step.release (s := s₁) (d := d) (by rw [System.put_self]) rfl rfl rfl hq
    rwa [System.hold, System.put_self, System.put_put] at h
  obtain ⟨⟨hspace, hexpected, -⟩, -, -⟩ := release_ok hq
  have hsent : transmit P s₂.bucket q.space q.expected q.manifest .delivered =
      (s.bucket.replace P q.space q.manifest, .ok (P.tag s.bucket.published q.manifest)) := by
    apply transmit_delivered
    rw [hspace, hexpected]
    rfl
  have hsend : System.Step P s₂ ({ s with bucket := s.bucket.replace P q.space q.manifest }.put d
      ⟨file, synced, marker, markerSynced, .store ⟨i, false, false, none, volumes⟩⟩) := by
    have h := System.Step.sendOwned (s := s₂) (d := d) (by rw [System.put_self]) rfl hsent
    have hsame : ({ s₂ with bucket := s.bucket.replace P q.space q.manifest } : System).directories
        d = s₂.directories d := rfl
    rw [System.hold, hsame, System.put_self] at h
    simpa [System.put, s₂] using h
  exact .head hclose (.head hrelease (.single hsend))

end Results

namespace Sample

open Volume.Sample

/-- The envelope of the sample at an epoch. -/
def envelope (k : ℕ) (o : Option Hash) : Envelope := ⟨"disk", k, o, volume.root⟩

/-- The bucket with the sample disk, after some moves of the protocol. -/
def moved : List Envelope → Bucket := List.foldl
  (fun B e => B.replace platform ⟨false, "disk"⟩ (.envelope e)) bucket

/-- The identity of the first owner. -/
def first : Identity := ⟨"disk", List.replicate 32 1, 2⟩

/-- The identity of the second owner. -/
def second : Identity := ⟨"disk", List.replicate 32 2, 3⟩

/-- The enrolled disk. -/
def enrolled : System :=
  { System.start with bucket := moved [envelope 1 none], volumes := [volume] }

/-- Directory 0 has the disk open. -/
def opened : System :=
  { enrolled with bucket := moved [envelope 1 none, envelope 2 first.token], tokens := [first.token]
    }.put 0 ⟨.whole first, true, false, false, .store ⟨first, false, true, none, []⟩⟩

/-- Directory 0 has handed it back. -/
def returned : System :=
  { opened with bucket := moved [envelope 1 none, envelope 2 first.token, envelope 2 none]
    }.put 0 ⟨.whole first, true, false, false, .store ⟨first, false, false, none, []⟩⟩

/-- Directory 1 has it open. -/
def reopened : System :=
  { returned with
    bucket := moved [envelope 1 none, envelope 2 first.token, envelope 2 none,
      envelope 3 second.token]
    tokens := [second.token, first.token]
    }.put 1 ⟨.whole second, true, false, false, .store ⟨second, false, true, none, []⟩⟩

/-- The hand-over, step by step: enrolment. -/
theorem run_enrolled : System.Run platform .start enrolled := by
  let s₁ : System := { System.start with bucket := bucket, volumes := [volume] }
  let q := replacement "disk" (some "r") (.envelope (envelope 1 none))
  have hinner : IndexedVolume.createInner platform System.start.bucket false "disk" chunkBytes true
      .delivered = (bucket, .ok volume) := create_eq
  have hcreate : System.Step platform .start s₁ := .create hinner
  have henroll : Owned.enroll platform bucket.view "disk" (s₁.head "disk") = .ok (some q) := rfl
  have hid : validId "disk" = true := by decide
  have hprepare : System.Step platform s₁ { s₁ with prepared := [q] } := .enroll hid henroll
  have hsend : System.Step platform { s₁ with prepared := [q] } enrolled := by
    have h := System.Step.send (P := platform) (s := { s₁ with prepared := [q] })
      List.mem_cons_self (transmit_delivered rfl)
    simpa [s₁, enrolled, moved, q, replacement, System.start] using h
  exact .head hcreate (.head hprepare (.single hsend))

/-- A sample identity claims the disk at a head of the sample bucket. -/
def asked (i : Identity) (rev : Revision) : Request :=
  replacement "disk" (some rev) (.envelope (envelope i.epoch i.token))

/-- The first owner opens. -/
theorem run_opened : System.Run platform enrolled opened := by
  have hopen : openHead platform enrolled.bucket.view "disk" (enrolled.head "disk") =
      .ok ("rr", envelope 1 none) := rfl
  have hi : newIdentity "disk" (envelope 1 none) first.token = .ok first := rfl
  have hq : claim platform first "rr" (envelope 1 none) = .ok (some (asked first "rr")) := rfl
  exact System.obtains (s := enrolled) (d := 0) (by decide) rfl rfl List.not_mem_nil hopen hi hq

/-- It gives the volume back. -/
theorem run_returned : System.Run platform opened returned := by
  have hq : release platform opened.bucket.view first (opened.head "disk") =
      .ok (some (replacement "disk" (some "rrr") (.envelope (envelope 2 none)))) := rfl
  exact System.handsBack (s := opened) (d := 0) rfl hq

/-- The second owner opens. -/
theorem run_reopened : System.Run platform returned reopened := by
  have hopen : openHead platform returned.bucket.view "disk" (returned.head "disk") =
      .ok ("rrrr", envelope 2 none) := rfl
  have hi : newIdentity "disk" (envelope 2 none) second.token = .ok second := rfl
  have hq : claim platform second "rrrr" (envelope 2 none) = .ok (some (asked second "rrrr")) := rfl
  have hfresh : second.token ∉ returned.tokens := by decide
  exact System.obtains (s := returned) (d := 1) (by decide) rfl rfl hfresh hopen hi hq

end Sample

section Results

variable {P : Platform} {s s' s'' : System}

/-- Whatever the hosts do, and whenever their requests arrive: the head of each volume moves by the
protocol of ownership alone and no content comes back; epochs do not decrease, each has one owner,
and an owner that has released its volume, or was superseded, never owns anything again. The
recorded owner has its identity on disk in one directory; and a volume is open only for its
recorded owner, unless a request that ends this ownership was left on its way. -/
theorem exclusive_ownership (h : System.Run P .start s) (h' : System.Run P s s')
    (h'' : System.Run P s' s'') :
    s''.Exclusive ∧ Orderly s.bucket s'.bucket s''.bucket := by
  obtain ⟨⟨past, hinv⟩, -, -⟩ := (inv_start P fun _ => tombstone "").run h
  obtain ⟨⟨past', hinv'⟩, hadvances, hinstalled⟩ := hinv.run h'
  obtain ⟨⟨past'', hinv''⟩, hadvances', hinstalled'⟩ := hinv'.run h''
  have hlater := (hadvances.trans hadvances').later
  refine ⟨hinv''.exclusive, ⟨hlater, ?_, ?_, ?_, ?_, ?_⟩⟩
  · intro space k l o o' r r' hk hl
    have hspace := hlater space
    rw [hk, hl] at hspace
    exact hspace.epoch_le
  · exact fun space k t u howner howner' => (hlater space).owner_unique howner howner'
  · intro space hretired
    have hspace := hlater space
    rw [hretired] at hspace
    exact hspace.of_retired
  · exact fun space hsame => hadvances.unrepeated hadvances' hsame
  · intro space k t howner hgone space' k' howner'
    -- The token has one directory, and so one volume and one epoch.
    obtain ⟨id, rfl, hi⟩ := hinv.owner_installed howner
    obtain ⟨id', rfl, hi'⟩ := hinv''.owner_installed howner'
    obtain ⟨d, hfile, -⟩ := hinstalled' _ (hinstalled _ hi)
    obtain ⟨d', hfile', -⟩ := hi'
    obtain rfl := hinv''.unique d d' _ _ hfile hfile' rfl
    obtain ⟨rfl, -, rfl⟩ := Identity.mk.inj (IdentityFile.whole.inj (hfile.symm.trans hfile'))
    rcases (hadvances.later _).of_owner howner with hstill | hpast
    · exact hgone hstill
    · exact ((hadvances'.later _).past hpast).owner_ne t howner'

/-- The sample disk moves from one directory to another. -/
theorem exclusive_ownership_handed_over :
    (recorded Sample.opened.bucket ⟨false, "disk"⟩).owner = some (2, Sample.first.token) ∧
      (recorded Sample.reopened.bucket ⟨false, "disk"⟩).owner = some (3, Sample.second.token) ∧
        Sample.reopened.Exclusive ∧
          Orderly Sample.opened.bucket Sample.returned.bucket Sample.reopened.bucket :=
  ⟨rfl, rfl, exclusive_ownership (Sample.run_enrolled.trans Sample.run_opened) Sample.run_returned
    Sample.run_reopened⟩

end Results

end AgentHouse.Owned
