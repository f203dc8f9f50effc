import AgentHouse.Volume.Publishing

/-!
# Opening a volume

`HeadOf` says that the head of a volume is the disk map of a handle. Opening the volume then
gives that handle, without its dirty map, and publishing moves the head along with it.
-/

namespace AgentHouse.Volume

open IndexedVolume

section Opening

variable {P : Platform} {S : Set Bytes} {B B' : Bucket} {v v' : IndexedVolume} {f : ℕ → Bytes}

/-- The identity of an ownership layer is one that an envelope can record. -/
def Client.Valid (c : Client) (id : VolumeId) : Prop :=
  ∀ i, c = .owned i → i.volume = id ∧ i.epoch ≠ 0 ∧ i.token.length = 32

/-- The head of the volume is the disk map of the handle `v`, and stores the chunks `f`. -/
structure HeadOf (P : Platform) (S : Set Bytes) (B : Bucket) (v : IndexedVolume)
    (f : ℕ → Bytes) : Prop where
  head : B.heads v.space = some ⟨v.revision, v.store.wrap v.root⟩
  holds : Holds P S B v f
  valid : validId v.root.volume = true
  client : v.store.Valid v.root.volume
  readable : v.store.Readable P v.root
  revision_ne : v.revision ≠ ""
  owned_ready : ∀ i, v.store = .owned i → v.root.ready = true

/-- A handle without buffered writes. -/
def IndexedVolume.clean (v : IndexedVolume) : IndexedVolume :=
  { v with dirty := ∅, poisoned := false }

theorem sameSource_clean (v : IndexedVolume) : SameSource v v.clean := ⟨rfl, rfl, rfl, rfl, rfl⟩

/-- A clean volume holds what is stored. -/
theorem over_clean (v : IndexedVolume) (f : ℕ → Bytes) : v.clean.over f = f := by
  funext i
  simp [IndexedVolume.clean, IndexedVolume.over]

theorem dirtyOk_clean (v : IndexedVolume) : DirtyOk v.clean := by
  intro i b hb
  simp [IndexedVolume.clean] at hb

/-- What a volume holds, its clean copy holds. -/
theorem Holds.clean (h : Holds P S B v f) : Holds P S B v.clean f :=
  h.of_same (sameSource_clean v) rfl

/-- A disk map that holds contents decodes. -/
theorem Holds.decodeRoot_eq (h : Holds P S B v f) {view : View} (hh : view.Healthy B)
    (store : Client) {rev : Revision} (hrev : rev ≠ "")
    (hj : (P.json (.root v.root)).length ≤ maxManifestBytes) (ready : Bool)
    (hready : ready = true → v.root.ready = true) :
    decodeRoot P view store v.root.volume rev v.root ready =
      .ok ⟨store, v.root, v.base, rev, ∅, false⟩ := by
  have hb := loadBase_mono (B.view_healthy.toSound.le hh) h.base
  have hnr : (ready && !v.root.ready) = false := by
    cases ready with
    | false => rfl
    | true => simp [hready rfl]
  rw [decodeRoot, if_neg (by rintro (hc | hc); exacts [absurd hj (by omega), hrev hc]),
    if_neg (by simp [h.wellFormed]), hnr]
  simp [hb]

/-- Opening a volume whose head is that of a handle gives the handle back. -/
theorem HeadOf.open_healthy (h : HeadOf P S B v f) {view : View} (hh : view.Healthy B)
    (hready : v.root.ready = true) :
    IndexedVolume.open P view v.store v.root.volume = .ok v.clean := by
  have hdec := fun store => h.holds.decodeRoot_eq hh store h.revision_ne h.readable.1
    true (fun _ => hready)
  have hhead := h.head
  have hread := h.readable.2
  have hclient := h.client
  obtain ⟨store, root, base, revision, dirty, poisoned⟩ := v
  unfold IndexedVolume.open
  rw [if_neg (by simp [h.valid])]
  cases store with
  | raw bases =>
    have hview : view.head ⟨bases, root.volume⟩ = .ok (some ⟨revision, .root root⟩) := by
      rw [hh.head_of]
      exact congrArg Except.ok hhead
    simp only [Client.head, hview, decodeHead]
    exact hdec _
  | owned i =>
    obtain ⟨hid, hep, htok⟩ := hclient i rfl
    simp only at hid
    have hview : view.head ⟨false, root.volume⟩ =
        .ok (some ⟨revision, .envelope ⟨i.volume, i.epoch, some i.token, root⟩⟩) := by
      rw [hh.head_of]
      exact congrArg Except.ok hhead
    have henv : decodeEnvelope P view root.volume
        ⟨revision, .envelope ⟨i.volume, i.epoch, some i.token, root⟩⟩ =
          .ok ⟨i.volume, i.epoch, some i.token, root⟩ := by
      have hno : ¬ ((P.json (.envelope ⟨i.volume, i.epoch, some i.token, root⟩)).length >
          maxManifestBytes ∨ revision = "") := by
        rintro (hc | hc)
        · exact absurd hread (by simpa [Client.wrap] using hc)
        · exact h.revision_ne hc
      unfold decodeEnvelope
      rw [if_neg hno]
      simp only [hid, hep, Option.any_some, validHash, htok, beq_self_eq_true, Bool.not_true,
        Bool.false_eq_true, or_self, if_false, ne_eq, not_true_eq_false]
      rw [hdec]
    have hne : ¬ root.volume ≠ i.volume := by simp [hid]
    simp only [Client.head, if_neg hne, hview, henv, Identity.matches, beq_self_eq_true,
      Bool.and_self, Bool.true_eq_false, if_false, decodeHead]
    exact hdec _

theorem decodeEnvelope_mono {view view' : View} (hle : view.Le view') {id : VolumeId} {h : Head}
    {e : Envelope} (hok : decodeEnvelope P view id h = .ok e) :
    decodeEnvelope P view' id h = .ok e := by
  unfold decodeEnvelope at hok ⊢
  split_ifs at hok ⊢
  cases hm : h.manifest with
  | tombstone t => simp [hm] at hok
  | envelope e' =>
    simp only [hm] at hok ⊢
    split_ifs at hok ⊢
    cases hd : decodeRoot P view (.raw false) id h.revision e'.manifest true with
    | error err => simp [hd] at hok
    | ok w => simpa only [hd, decodeRoot_mono hle hd] using hok
  | root r =>
    simp only [hm] at hok ⊢
    cases hd : decodeRoot P view (.raw false) id h.revision r true with
    | error err => simp [hd] at hok
    | ok w => simpa only [hd, decodeRoot_mono hle hd] using hok

/-- A healthy view answers the head that another one answered. -/
theorem Client.head_mono {view view' : View} (hs : view.Sound B) (hh : view'.Healthy B)
    {c : Client} {id : VolumeId} {h : Option Head} (hok : c.head P view id = .ok h) :
    c.head P view' id = .ok h := by
  have hhead : ∀ {s h}, view.head s = .ok h → view'.head s = .ok h := by
    intro s h hok
    rw [hh.head_of, hs.head hok]
  cases c with
  | raw bases => exact hhead hok
  | owned i =>
    unfold Client.head at hok ⊢
    simp only at hok ⊢
    split_ifs at hok ⊢
    cases hv : view.head ⟨false, id⟩ with
    | error e => simp [hv] at hok
    | ok h' =>
      simp only [hv] at hok
      simp only [hhead hv]
      cases h' with
      | none => simp at hok
      | some h' =>
        simp only at hok ⊢
        cases hd : decodeEnvelope P view id h' with
        | error e => simp [hd] at hok
        | ok e => simpa only [hd, decodeEnvelope_mono (hs.le hh) hd] using hok

/-- What opens through a sound view opens alike through a healthy one. -/
theorem openVolume_mono {view view' : View} (hs : view.Sound B) (hh : view'.Healthy B)
    {c : Client} {id : VolumeId} {w : IndexedVolume}
    (hok : IndexedVolume.open P view c id = .ok w) :
    IndexedVolume.open P view' c id = .ok w := by
  unfold IndexedVolume.open at hok ⊢
  split_ifs at hok ⊢
  cases hc : c.head P view id with
  | error e => simp [hc] at hok
  | ok h =>
    simp only [hc] at hok
    simp only [Client.head_mono hs hh hc]
    cases h with
    | none => simp at hok
    | some h =>
      simp only [decodeHead] at hok ⊢
      cases hm : h.manifest with
      | root r =>
        simp only [hm] at hok ⊢
        exact decodeRoot_mono (hs.le hh) hok
      | envelope e => simp [hm] at hok
      | tombstone t => simp [hm] at hok

/-- Whatever opening such a volume yields is that handle, and only if it is ready. -/
theorem HeadOf.open_sound (h : HeadOf P S B v f) {view : View} (hs : view.Sound B)
    {w : IndexedVolume} (hok : IndexedVolume.open P view v.store v.root.volume = .ok w) :
    w = v.clean ∧ v.root.ready = true := by
  have hok' := openVolume_mono hs B.view_healthy hok
  have hready : v.root.ready = true := by
    cases hc : v.store with
    | owned i => exact h.owned_ready i hc
    | raw bases =>
      have hhead := h.head
      rw [IndexedVolume.space, hc] at hhead
      rw [hc] at hok'
      unfold IndexedVolume.open at hok'
      split at hok'
      · cases hok'
      · have hview : B.view.head ⟨bases, v.root.volume⟩ =
            .ok (some ⟨v.revision, .root v.root⟩) := congrArg Except.ok hhead
        simp only [Client.head, hview, decodeHead] at hok'
        unfold decodeRoot at hok'
        split_ifs at hok' with h1 h2 h3
        simpa using h3
  have := h.open_healthy B.view_healthy hready
  rw [hok'] at this
  exact ⟨Except.ok.inj this, hready⟩

/-- The volume keeps its head and contents in a bucket that holds more objects. -/
theorem HeadOf.grows (h : HeadOf P S B v f) (hle : B.Le B') (hh : B'.heads = B.heads) :
    HeadOf P S B' v f :=
  ⟨by rw [hh]; exact h.head, h.holds.mono hle, h.valid, h.client, h.readable, h.revision_ne,
    h.owned_ready⟩

/-- The dirty map and the poison flag do not matter to the head. -/
theorem HeadOf.of_same (h : HeadOf P S B v f) {v' : IndexedVolume} (hstore : v'.store = v.store)
    (hroot : v'.root = v.root) (hbase : v'.base = v.base) (hrev : v'.revision = v.revision) :
    HeadOf P S B v' f := by
  have hspace : v'.space = v.space := by rw [IndexedVolume.space, hstore, hroot]; rfl
  have hsrc : SameSource v v' :=
    ⟨by rw [IndexedVolume.packed, hroot]; rfl, by rw [hroot], hspace, by rw [hroot], hbase⟩
  exact ⟨by rw [hspace, hrev, hstore, hroot]; exact h.head, h.holds.of_same hsrc hroot,
    by rw [hroot]; exact h.valid, by rw [hstore, hroot]; exact h.client,
    by rw [hstore, hroot]; exact h.readable, by rw [hrev]; exact h.revision_ne,
    fun i hi => by rw [hroot]; exact h.owned_ready i (hstore ▸ hi)⟩

/-- A publication moves the head to the committed disk map. -/
theorem HeadOf.publishes {view : View} {next r : Root} {force : Bool}
    (h : HeadOf P S B v f) (hp : Publishes P B view v next force r B') (hideal : P.Ideal S)
    (ha : Addressed P S B) (hd : DirtyOk v) (hs : view.Sound B)
    (hS : ∀ b ∈ v.hashed P view force, b ∈ S) (hc : Continues v next) :
    HeadOf P S B'
      { v with root := r, revision := P.tag B.published (v.store.wrap r), dirty := ∅ }
      (v.over f) := by
  obtain ⟨hle, ha', hh⟩ := hp.holds h.holds hideal ha hd hs hS hc
    (P.tag B.published (v.store.wrap r))
  obtain ⟨Bu, hprep, hrep⟩ := hp.prepares
  obtain ⟨pages, uploads, generation, -, -, hr, hput⟩ := hprep.plan
  have hvol : r.volume = v.root.volume := by rw [hr]; exact hc.volume
  refine ⟨?_, hh, ?_, ?_, hprep.sendable.readable, P.tag_ne_empty _ _,
    fun i hi => (hprep.sendable.owned i hi).2⟩
  · have hpub := (putChunks_ok hput).1.published
    simp only [IndexedVolume.space]
    rw [hrep.bucket, Bucket.replace_heads_self, hpub]
  · simp only [hvol]
    exact h.valid
  · simp only [hvol]
    exact h.client

end Opening

end AgentHouse.Volume
