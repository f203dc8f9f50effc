import AgentHouse.Volume.Moves
import AgentHouse.Volume.First

/-!
# Indexed volumes refine flat arrays

A session is a handle, its bucket and three flat byte arrays: what the handle shows, what the
head stores, and what the volume would show if no buffered write were ever dropped. Every
step of a session keeps the handle in agreement with the first array and the head with the
second one; reopening the volume falls back from the first to the second.
-/

namespace AgentHouse.Volume

open IndexedVolume

/-- A handle on a volume, with the arrays it is compared with. -/
structure Session where
  bucket : Bucket
  volume : IndexedVolume
  /-- The contents that the handle shows. -/
  array : ℕ → UInt8
  /-- The contents at the last publication. -/
  saved : ℕ → UInt8
  /-- The initial contents with every accepted write applied. -/
  written : ℕ → UInt8

namespace Session

/-- A session that starts with the given contents. -/
def start (B : Bucket) (v : IndexedVolume) (a : ℕ → UInt8) : Session := ⟨B, v, a, a, a⟩

/-- The session after an operation that writes nothing. The contents are saved exactly when
the operation published a new generation. -/
def advance (σ : Session) (B : Bucket) (v : IndexedVolume) : Session where
  bucket := B
  volume := v
  array := σ.array
  saved := if v.root.generation = σ.volume.root.generation then σ.saved else σ.array
  written := σ.written

/-- The session after a write, which may have committed before it buffered its chunks. -/
def afterWrite (σ : Session) (B : Bucket) (v : IndexedVolume) (offset : ℕ) (input : Bytes)
    (res : Result Unit) : Session :=
  match res with
  | .error _ => σ.advance B v
  | .ok () => { σ.advance B v with
      array := overwrite σ.array offset input
      written := overwrite σ.written offset input }

/-- The session after its handle was dropped and the volume opened again. -/
def reopened (σ : Session) (v : IndexedVolume) : Session :=
  { σ with volume := v, array := σ.saved }

end Session

section Runs

variable (P : Platform) (S : Set Bytes)

/-- One step of a session. -/
inductive Session.Step : Session → Session → Prop
  | write {σ : Session} {φ : Faults} {offset : ℕ} {input : Bytes} {B v res} (hf : φ.Fair)
      (hS : σ.volume.Overflows offset input.length → φ.Known P S σ.bucket σ.volume)
      (hok : σ.volume.write P σ.bucket φ offset input = (B, v, res)) :
      Step σ (σ.afterWrite B v offset input res)
  | commit {σ : Session} {φ : Faults} {B v res} (hf : φ.Fair)
      (hS : φ.Known P S σ.bucket σ.volume)
      (hok : σ.volume.commit P σ.bucket φ = (B, v, res)) : Step σ (σ.advance B v)
  | commitReplication {σ : Session} {φ : Faults} {mark : Replication} {B v res} (hf : φ.Fair)
      (hS : φ.Known P S σ.bucket σ.volume)
      (hok : σ.volume.commitReplication P σ.bucket φ mark = (B, v, res)) :
      Step σ (σ.advance B v)
  | commitImport {σ : Session} {φ : Faults} {B v res} (hf : φ.Fair)
      (hS : φ.Known P S σ.bucket σ.volume)
      (hok : σ.volume.commitImport P σ.bucket φ = (B, v, res)) : Step σ (σ.advance B v)
  | finishImport {σ : Session} {φ φ' : Faults} {B v res} (hf : φ.Fair)
      (hdel : φ'.delivery = .delivered) (hS : φ.Known P S σ.bucket σ.volume)
      (hok : σ.volume.finishImport P σ.bucket φ φ' = (B, v, res)) : Step σ (σ.advance B v)
  | reopen {σ : Session} {view : View} {v : IndexedVolume} (hs : view.Sound σ.bucket)
      (hok : IndexedVolume.open P view σ.volume.store σ.volume.root.volume = .ok v) :
      Step σ (σ.reopened v)
  | other {σ : Session} {B : Bucket} (hle : σ.bucket.Le B) (ha : Addressed P S B)
      (hh : B.heads σ.volume.space = σ.bucket.heads σ.volume.space) :
      Step σ { σ with bucket := B }

/-- The sessions that can be reached. A session starts with a new volume, with a new import,
with a volume over an image that another session exported, or with a volume that an older
release left behind, in whatever format. -/
inductive Session.Run : Session → Prop
  | create {B B' : Bucket} {bases : Bool} {id : VolumeId} {size : ℕ} {d : Delivery}
      {v : IndexedVolume} (ha : Addressed P S B) (hz : zeros chunkBytes ∈ S)
      (hok : IndexedVolume.create P B bases id size d = (B', .ok v)) :
      Run (.start B' v (fun _ => 0))
  | createImport {B B' : Bucket} {bases : Bool} {id : VolumeId} {size : ℕ} {d : Delivery}
      {v : IndexedVolume} (ha : Addressed P S B) (hz : zeros chunkBytes ∈ S)
      (hok : IndexedVolume.createImport P B bases id size d = (B', .ok v)) :
      Run (.start B' v (fun _ => 0))
  | createFromBase {σ : Session} {B B' : Bucket} {base : BaseRef} {view : View} {id : VolumeId}
      {d : Delivery} {v : IndexedVolume} (image : Run σ) (hbases : σ.volume.store = .raw true)
      (hS : ∀ bytes, (Catalog.mk σ.volume.root.size σ.volume.root.pages).encode
        σ.volume.root.volume = .ok bytes → bytes ∈ S)
      (hexp : exportBase P σ.bucket σ.volume = (B, .ok base)) (hs : view.Sound B)
      (hok : IndexedVolume.createFromBase P B view id base d = (B', .ok v)) :
      Run (.start B' v σ.array)
  | existing {B : Bucket} {v : IndexedVolume} {f : ℕ → Bytes} (ha : Addressed P S B)
      (h : HeadOf P S B v f) (hd : v.dirty = ∅) : Run (.start B v (flat chunkBytes f))
  | step {σ σ' : Session} (run : Run σ) (h : Session.Step P S σ σ') : Run σ'

end Runs

section Invariant

variable {P : Platform} {S : Set Bytes} {σ σ' : Session}

/-- The handle shows the first array and the head stores the second one. -/
structure Session.Inv (P : Platform) (S : Set Bytes) (σ : Session) (f : ℕ → Bytes) : Prop where
  head : HeadOf P S σ.bucket σ.volume f
  addressed : Addressed P S σ.bucket
  dirty : DirtyOk σ.volume
  shows : ∀ x < σ.volume.root.size, σ.array x = flat chunkBytes (σ.volume.over f) x
  stored : ∀ x < σ.volume.root.size, σ.saved x = flat chunkBytes f x

theorem flat_zeros (x : ℕ) : flat chunkBytes (fun _ => zeros chunkBytes) x = 0 := by
  have := Nat.mod_lt x chunkBytes_pos
  simp [flat, zeros, List.getD_eq_getElem?_getD, this]

/-- The invariant holds when a session starts. -/
theorem Session.Inv.start {B : Bucket} {v : IndexedVolume} {f : ℕ → Bytes} {a : ℕ → UInt8}
    (h : HeadOf P S B v f) (ha : Addressed P S B) (hd : v.dirty = ∅)
    (hf : ∀ x < v.root.size, a x = flat chunkBytes f x) : (Session.start B v a).Inv P S f := by
  refine ⟨h, ha, dirtyOk_empty hd, ?_, hf⟩
  intro x hx
  simp only [Session.start, over_empty hd]
  exact hf x hx

/-- An operation that writes nothing keeps the invariant. -/
theorem Session.Inv.moves {f f' : ℕ → Bytes} (h : σ.Inv P S f) {B : Bucket} {v : IndexedVolume}
    (hm : Moves P S σ.bucket σ.volume f B v f') : (σ.advance B v).Inv P S f' := by
  refine ⟨hm.head, hm.addressed, hm.dirty, ?_, ?_⟩
  · intro x hx
    have hx' : x < σ.volume.root.size := by rw [← hm.size]; exact hx
    rw [show (σ.advance B v).array = σ.array from rfl, h.shows x hx']
    exact flat_congr (hm.shows _ (h.head.holds.div_lt hx')).symm
  · intro x hx
    have hx' : x < σ.volume.root.size := by rw [← hm.size]; exact hx
    have hst := hm.stored _ (h.head.holds.div_lt hx')
    simp only [Session.advance]
    split
    · rename_i hgen
      rw [if_pos hgen] at hst
      rw [h.stored x hx']
      exact flat_congr hst.symm
    · rename_i hgen
      rw [if_neg hgen] at hst
      rw [h.shows x hx']
      exact flat_congr hst.symm

/-- Buffering a write keeps the invariant, with the array overwritten. -/
theorem Session.Inv.buffer {f : ℕ → Bytes} (h : σ.Inv P S f) {view : View}
    (hs : view.Sound σ.bucket) {offset : ℕ} {input : Bytes} {v : IndexedVolume}
    (hr : offset + input.length ≤ σ.volume.root.size)
    (hok : σ.volume.buffer P view offset input = (v, .ok ())) :
    Session.Inv P S
      { σ with
        volume := v
        array := overwrite σ.array offset input
        written := overwrite σ.written offset input } f := by
  obtain ⟨hsrc, hroot, hrev, -, hdirty, hflat⟩ := h.head.holds.buffer_ok h.dirty hs hr hok
  have hstore : v.store = σ.volume.store := by
    unfold IndexedVolume.buffer at hok
    split at hok
    · cases (Prod.mk.inj hok).2
    · rw [← (Prod.mk.inj hok).1]
  refine ⟨h.head.of_same hstore hroot hsrc.base hrev, h.addressed, hdirty, ?_, ?_⟩
  · intro x hx
    simp only [hroot] at hx
    simp only [hflat]
    unfold overwrite
    rw [h.shows x hx]
  · intro x hx
    simp only [hroot] at hx
    exact h.stored x hx

/-- Every step keeps the invariant. -/
theorem Session.Inv.step (hideal : P.Ideal S) {f : ℕ → Bytes} (h : σ.Inv P S f)
    (hstep : Session.Step P S σ σ') : ∃ f', σ'.Inv P S f' := by
  cases hstep with
  | @write φ offset input B v res hf hS hok =>
    obtain ⟨v1, f', hm, hcase⟩ := h.head.write hideal h.addressed h.dirty hf hS hok
    have hinv := h.moves hm
    rcases hcase with ⟨rfl, he⟩ | ⟨rfl, hr, hb⟩
    · refine ⟨f', ?_⟩
      cases res with
      | error e => exact hinv
      | ok u =>
        rcases he with ⟨e, he⟩ | rfl
        · cases he
        · simp only [Session.afterWrite, overwrite_nil]
          exact ⟨hinv.head, hinv.addressed, hinv.dirty, hinv.shows, hinv.stored⟩
    · refine ⟨f', ?_⟩
      have hr' : offset + input.length ≤ (σ.advance B v1).volume.root.size := by
        rw [show (σ.advance B v1).volume = v1 from rfl, hm.size]
        exact hr
      have hbuf := hinv.buffer (hf.sound B) hr' hb
      have hroot : v.root = v1.root :=
        (hinv.head.holds.buffer_ok hinv.dirty (hf.sound B) hr' hb).2.1
      simp only [Session.afterWrite, Session.advance, hroot] at hbuf ⊢
      exact ⟨hbuf.head, hbuf.addressed, hbuf.dirty, hbuf.shows, hbuf.stored⟩
  | commit hf hS hok =>
    obtain ⟨f', hm, -⟩ := h.head.commit hideal h.addressed h.dirty hf hS hok
    exact ⟨f', h.moves hm⟩
  | commitReplication hf hS hok =>
    obtain ⟨f', hm, -⟩ := h.head.commitReplication hideal h.addressed h.dirty hf hS hok
    exact ⟨f', h.moves hm⟩
  | commitImport hf hS hok =>
    obtain ⟨f', hm, -⟩ := h.head.commitImport hideal h.addressed h.dirty hf hS hok
    exact ⟨f', h.moves hm⟩
  | finishImport hf hdel hS hok =>
    obtain ⟨f', hm, -⟩ := h.head.finishImport hideal h.addressed h.dirty hf hS hdel hok
    exact ⟨f', h.moves hm⟩
  | reopen hs hok =>
    obtain ⟨rfl, -⟩ := h.head.open_sound hs hok
    refine ⟨f, h.head.of_same rfl rfl rfl rfl, h.addressed, dirtyOk_clean _, ?_, h.stored⟩
    intro x hx
    simp only [Session.reopened, over_clean]
    exact h.stored x hx
  | other hle ha hh =>
    refine ⟨f, ⟨?_, h.head.holds.mono hle, h.head.valid, h.head.client, h.head.readable,
      h.head.revision_ne, h.head.owned_ready⟩, ha, h.dirty, h.shows, h.stored⟩
    simp only [hh]
    exact h.head.head

/-- Every reachable session satisfies the invariant. -/
theorem Session.Run.inv (hideal : P.Ideal S) (hrun : Session.Run P S σ) :
    ∃ f, σ.Inv P S f := by
  induction hrun with
  | create ha hz hok =>
    obtain ⟨hobj, hh, hd, -⟩ := createInner_ok hz hok
    exact ⟨_, .start hh (fun s h b hb => ha s h b (by rw [← hobj]; exact hb)) hd
      (fun x _ => (flat_zeros x).symm)⟩
  | createImport ha hz hok =>
    obtain ⟨hobj, hh, hd, -⟩ := createInner_ok hz hok
    exact ⟨_, .start hh (fun s h b hb => ha s h b (by rw [← hobj]; exact hb)) hd
      (fun x _ => (flat_zeros x).symm)⟩
  | @createFromBase σ B B' base view id d v _ hbases hS hexp hs hok ih =>
    obtain ⟨f, hinv⟩ := ih
    have hdirty : σ.volume.dirty = ∅ := by
      unfold exportBase at hexp
      split at hexp
      · simp at hexp
      · rename_i hguard
        simp only [not_or, not_not] at hguard
        exact Std.ExtTreeMap.isEmpty_iff.mp hguard.2.2.2.2.1
    obtain ⟨-, -, ha, he⟩ := exportBase_ok hinv.head.holds hideal hinv.addressed hbases hS hexp
    obtain ⟨hobj, hh, hd, -, hsize, -⟩ := createFromBase_ok he hs hok
    refine ⟨f, .start hh (fun s h b hb => ha s h b (by rw [← hobj]; exact hb)) hd ?_⟩
    intro x hx
    rw [hsize] at hx
    rw [hinv.shows x hx, over_empty hdirty]
  | existing ha h hd => exact ⟨_, .start h ha hd (fun _ _ => rfl)⟩
  | step _ hstep ih =>
    obtain ⟨f, hinv⟩ := ih
    exact hinv.step hideal hstep

end Invariant

section Refinement

variable {P : Platform} {S : Set Bytes} {σ : Session}

/-- The operations that make the contents of a handle durable. -/
inductive Session.Commits (P : Platform) (S : Set Bytes) (σ : Session) (B : Bucket)
    (v : IndexedVolume) : Prop
  | commit {φ : Faults} {g : ℕ} (hf : φ.Fair) (hS : φ.Known P S σ.bucket σ.volume)
      (hok : σ.volume.commit P σ.bucket φ = (B, v, .ok g))
  | commitReplication {φ : Faults} {mark : Replication} {g : ℕ} (hf : φ.Fair)
      (hS : φ.Known P S σ.bucket σ.volume)
      (hok : σ.volume.commitReplication P σ.bucket φ mark = (B, v, .ok g))
  | finishImport {φ φ' : Faults} {g : ℕ} (hf : φ.Fair) (hdel : φ'.delivery = .delivered)
      (hS : φ.Known P S σ.bucket σ.volume)
      (hok : σ.volume.finishImport P σ.bucket φ φ' = (B, v, .ok g))

/-- A commit leaves a head that stores what the handle showed. -/
theorem Session.Commits.spec {f : ℕ → Bytes} {B : Bucket} {v : IndexedVolume}
    (hc : σ.Commits P S B v) (hideal : P.Ideal S) (h : σ.Inv P S f) :
    ∃ f', Moves P S σ.bucket σ.volume f B v f' ∧ v.dirty = ∅ := by
  cases hc with
  | commit hf hS hok =>
    obtain ⟨f', hm, -, hd, -⟩ := h.head.commit hideal h.addressed h.dirty hf hS hok
    exact ⟨f', hm, hd ⟨_, rfl⟩⟩
  | commitReplication hf hS hok =>
    obtain ⟨f', hm, -, hd, -⟩ := h.head.commitReplication hideal h.addressed h.dirty hf hS hok
    exact ⟨f', hm, hd ⟨_, rfl⟩⟩
  | finishImport hf hdel hS hok =>
    obtain ⟨f', hm, hd⟩ := h.head.finishImport hideal h.addressed h.dirty hf hS hdel hok
    exact ⟨f', hm, (hd ⟨_, rfl⟩).2⟩

/-- An indexed volume is a flat array. Every read that succeeds returns a window of what the
handle shows; and once a commit has succeeded, the volume can be opened and every window
reads back. -/
theorem indexed_volume_refines_array (hideal : P.Ideal S) (hrun : Session.Run P S σ) :
    (∀ view offset len out, view.Sound σ.bucket →
      σ.volume.read P view offset len = .ok out → out = window σ.array offset len) ∧
    ∀ B v, σ.Commits P S B v → v.root.ready = true →
      ∃ w, IndexedVolume.open P B.view σ.volume.store σ.volume.root.volume = .ok w ∧
        ∀ offset len, offset + len ≤ σ.volume.size → len ≤ writeLimit →
          w.read P B.view offset len = .ok (window σ.array offset len) := by
  obtain ⟨f, hinv⟩ := hrun.inv hideal
  refine ⟨?_, ?_⟩
  · intro view offset len out hs hok
    rw [hinv.head.holds.read_sound hinv.dirty hs hok]
    have hr : offset + len ≤ σ.volume.root.size := by
      unfold IndexedVolume.read at hok
      split at hok
      · cases hok
      · rename_i hcheck
        exact (check_ok hcheck).2
    exact window_congr (fun x _ hx => (hinv.shows x (by omega)).symm)
  · intro B v hc hready
    obtain ⟨f', hm, hd⟩ := hc.spec hideal hinv
    have hopen := hm.head.open_healthy B.view_healthy hready
    rw [hm.store, hm.volume] at hopen
    refine ⟨v.clean, hopen, fun offset len hr hl => ?_⟩
    have hr' : offset + len ≤ v.clean.root.size := by
      rw [show v.clean.root = v.root from rfl, hm.size]
      exact hr
    rw [hm.head.holds.clean.read_healthy (dirtyOk_clean v) B.view_healthy rfl hr' hl, over_clean]
    congr 1
    apply window_congr
    intro x _ hx
    have hx' : x < σ.volume.root.size := by
      rw [IndexedVolume.size] at hr
      omega
    rw [hinv.shows x hx']
    apply flat_congr
    rw [← hm.shows _ (hinv.head.holds.div_lt hx'), over_empty hd]

/-- On a disk of one chunk: create it and write one byte. -/
private theorem sample_write : ∃ B v v', IndexedVolume.create Sample.platform Sample.blank false
      "disk" chunkBytes .delivered = (B, .ok v) ∧
    v.write Sample.platform B .none 0 [1] = (B, v', .ok ()) ∧
    ¬ v.Overflows 0 ([1] : Bytes).length ∧
    HeadOf Sample.platform {zeros chunkBytes} B v (fun _ => zeros chunkBytes) ∧
    v.root.ready = true ∧ v.root.size = chunkBytes ∧
    v'.store = v.store ∧ v'.root.volume = v.root.volume := by
  obtain ⟨B, v, hok⟩ : ∃ B v, IndexedVolume.create Sample.platform Sample.blank false "disk"
      chunkBytes .delivered = (B, .ok v) := ⟨_, _, rfl⟩
  obtain ⟨-, hh, hd, hp, hsize, hready, -⟩ :=
    createInner_ok (S := {zeros chunkBytes}) (Set.mem_singleton _) hok
  have hfit : v.dirtyBytes + v.extraChunks 0 ([1] : Bytes).length * chunkBytes ≤ dirtyLimit := by
    rw [IndexedVolume.dirtyBytes, IndexedVolume.extraChunks, hd]
    decide
  have hhealthy : (Faults.none.view B).Healthy B := B.view_healthy
  have hr : 0 + ([1] : Bytes).length ≤ v.root.size := by
    rw [hsize]
    decide
  obtain ⟨v', hb, hw⟩ := hh.holds.write_buffers hhealthy hp hr (by decide) (by decide) hfit
  refine ⟨B, v, v', hok, hw, Nat.not_lt.mpr hfit, hh, hready, hsize, ?_⟩
  unfold IndexedVolume.buffer at hb
  split at hb
  · cases (Prod.mk.inj hb).2
  · rw [← (Prod.mk.inj hb).1]
    exact ⟨rfl, rfl⟩

private theorem zeros_mem : zeros chunkBytes ∈ ({zeros chunkBytes} : Set Bytes) :=
  Set.mem_singleton _

private theorem sample_ideal : Sample.platform.Ideal {zeros chunkBytes} :=
  Sample.ideal (fun a ha b hb _ _ => by rw [ha, hb])

private theorem none_fair : Faults.none.Fair := ⟨fun B => B.view_healthy.toSound, rfl⟩

/-- Dropping a handle drops its buffered writes: after writing a byte and reopening the
volume, the byte reads as zero. -/
theorem reopen_drops_buffered_write : ∃ σ : Session, Sample.platform.Ideal {zeros chunkBytes} ∧
    Session.Run Sample.platform {zeros chunkBytes} σ ∧
    σ.volume.read Sample.platform σ.bucket.view 0 1 = .ok [0] ∧ window σ.written 0 1 = [1] := by
  obtain ⟨B, v, v', hc, hw, hfit, hh, hready, hsize, hstore, hvol⟩ := sample_write
  have hopen := hh.open_healthy B.view_healthy hready
  have hrun := Session.Run.create (Sample.blank_addressed _) zeros_mem hc
  have hrun' := hrun.step (.write none_fair (fun ho => absurd ho hfit) hw)
  rw [← hstore, ← hvol] at hopen
  have hrun'' := hrun'.step (.reopen B.view_healthy.toSound hopen)
  refine ⟨_, sample_ideal, hrun'', ?_, ?_⟩
  · change v.clean.read Sample.platform B.view 0 1 = .ok [0]
    rw [hh.holds.clean.read_healthy (dirtyOk_clean v) B.view_healthy rfl
      (by rw [show v.clean.root = v.root from rfl, hsize]; decide) (by decide), over_clean]
    simp [window, flat_zeros]
  · simp [Session.reopened, Session.afterWrite, Session.start, window, overwrite]

/-- The disk with a committed byte: whoever opens it then reads the byte back, and so does the
session that is reopened after the commit. -/
theorem indexed_volume_refines_array_sample : ∃ σ σ' : Session, ∃ B v w,
    Session.Run Sample.platform Sample.known σ ∧ σ.Commits Sample.platform Sample.known B v ∧
    v.root.generation = 1 ∧
    IndexedVolume.open Sample.platform B.view (.raw false) "disk" = .ok w ∧
    w.read Sample.platform B.view 0 2 = .ok [7, 0] ∧
    Session.Run Sample.platform Sample.known σ' ∧ σ'.bucket = B ∧ σ'.volume = w ∧
    ∀ out, σ'.volume.read Sample.platform B.view 0 2 = .ok out → out = [7, 0] := by
  have hrun := (Session.Run.create (Sample.blank_addressed Sample.known) Sample.zeros_known
    Sample.create_eq).step
      (.write none_fair (fun ho => absurd ho Sample.fits_seven) (Sample.write_seven _ _))
  change Session.Run _ _ ⟨Sample.bucket, Sample.written, overwrite (fun _ => 0) 0 [7], fun _ => 0,
    overwrite (fun _ => 0) 0 [7]⟩ at hrun
  have hknown : Faults.none.Known Sample.platform Sample.known Sample.bucket Sample.written :=
    Sample.written_known
  obtain ⟨B, -, hcommit, -⟩ := Sample.commitInner_written .none none
    (Sample.bucket_addressed Sample.known) rfl rfl rfl
  have hok : Sample.written.commit Sample.platform Sample.bucket .none = (B, firstHandle
      Sample.platform Sample.written Sample.seven none Sample.bucket.published, .ok 1) :=
    (commit_of_unmarked rfl).trans (hcommit rfl)
  have hgeneration : (firstHandle Sample.platform Sample.written Sample.seven none
      Sample.bucket.published).root.generation = 1 := rfl
  have hready : (firstHandle Sample.platform Sample.written Sample.seven none
      Sample.bucket.published).root.ready = true := rfl
  have hstore : (firstHandle Sample.platform Sample.written Sample.seven none
      Sample.bucket.published).store = .raw false := rfl
  have hvolume : (firstHandle Sample.platform Sample.written Sample.seven none
      Sample.bucket.published).root.volume = "disk" := rfl
  generalize firstHandle Sample.platform Sample.written Sample.seven none Sample.bucket.published =
    v at hok hgeneration hready hstore hvolume
  set σ : Session := ⟨Sample.bucket, Sample.written, overwrite (fun _ => 0) 0 [7], fun _ => 0,
    overwrite (fun _ => 0) 0 [7]⟩
  have hcommits : σ.Commits Sample.platform Sample.known B v := .commit none_fair hknown hok
  have hstep : Session.Step Sample.platform Sample.known σ (σ.advance B v) :=
    .commit none_fair hknown hok
  obtain ⟨w, hopen, hread⟩ :=
    (indexed_volume_refines_array Sample.known_ideal hrun).2 B v hcommits hready
  have hread' := hread 0 2 (by decide) (by decide)
  have hagain : IndexedVolume.open Sample.platform B.view (σ.advance B v).volume.store
      (σ.advance B v).volume.root.volume = .ok w := by
    rw [show (σ.advance B v).volume = v from rfl, hstore, hvolume]
    exact hopen
  have hreopened := (hrun.step hstep).step (.reopen B.view_healthy.toSound hagain)
  refine ⟨_, _, B, v, w, hrun, hcommits, hgeneration, hopen, ?_, hreopened, rfl, rfl,
    fun out hout => ?_⟩
  · rw [hread']
    rfl
  · rw [(indexed_volume_refines_array Sample.known_ideal hreopened).1 _ 0 2 out
      B.view_healthy.toSound hout]
    simp only [Session.reopened, Session.advance, hgeneration]
    rfl

end Refinement

end AgentHouse.Volume
