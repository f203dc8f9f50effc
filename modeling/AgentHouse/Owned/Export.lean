import AgentHouse.Owned.Exclusive
import AgentHouse.Volume.Verified

/-!
# Exports of a disk that is in use

`export_remote` reads a whole disk, chunk by chunk, while its hosts go on. It looks at the head
before the first chunk and behind the last one. As no content of a head comes back, an unchanged
head was there all the time; and as chunks are verified, whatever happens to the objects meanwhile,
the output is what any other reader finds at this head.
-/

namespace AgentHouse.Owned

open Volume

/-- `ExportReport` -/
structure ExportReport where
  format : ℕ
  volume : VolumeId
  logicalBytes : ℕ
  sha256 : Hash

/-- The loop of `export_remote` from an offset on, for `n` chunks. Each read meets answers of its
own, and the output may refuse a chunk. -/
def exportFrom (P : Platform) (disk : IndexedVolume) (views : ℕ → View) (accepts : ℕ → Bool) :
    ℕ → ℕ → Bytes × Result Unit
  | 0, _ => ([], .ok ())
  | n + 1, offset =>
    match disk.read P (views offset) offset chunkBytes with
    | .error e => ([], .error e)
    | .ok bytes =>
      if accepts offset = false then ([], .error .store)
      else
        match exportFrom P disk views accepts n (offset + chunkBytes) with
        | (rest, res) => (bytes ++ rest, res)

/-- `export_remote`: the head is read before and after the chunks. -/
def exportRemote (P : Platform) (id : VolumeId) (first last : View) (views : ℕ → View)
    (accepts : ℕ → Bool) : Bytes × Result ExportReport :=
  if validId id = false then ([], .error .invalidInput)
  else
    match first.head ⟨false, id⟩ with
    | .error e => ([], .error e)
    | .ok none => ([], .error .notFound)
    | .ok (some head) =>
      match decodeEnvelope P first id head with
      | .error e => ([], .error e)
      | .ok envelope =>
        match decodeHead P first (.raw false) id ⟨head.revision, .root envelope.manifest⟩ true with
        | .error e => ([], .error e)
        | .ok disk =>
          match exportFrom P disk views accepts (disk.size / chunkBytes) 0 with
          | (out, .error e) => (out, .error e)
          | (out, .ok ()) =>
            match last.head ⟨false, id⟩ with
            | .error e => (out, .error e)
            | .ok none => (out, .error .conflict)
            | .ok (some current) =>
              if current.revision ≠ head.revision ∨ current.manifest ≠ head.manifest then
                (out, .error .conflict)
              else (out, .ok ⟨1, id, disk.size, P.digest out⟩)

section Reading

variable {P : Platform} {S : Set Bytes} {views : ℕ → View} {accepts : ℕ → Bool}
  {disk v : IndexedVolume} {view : View} {c : Client} {id : VolumeId}

/-- A clean disk reads what is stored. -/
theorem load_clean (hdirty : disk.dirty = ∅) (i : ℕ) :
    disk.load P view i = disk.loadStored P view i := by
  apply IndexedVolume.load_of_clean
  simp [hdirty]

/-- A chunk that is read as a whole is loaded. -/
theorem load_of_read {i : ℕ} {bytes : Bytes} (hdirty : disk.dirty = ∅)
    (hok : disk.read P view (i * chunkBytes) chunkBytes = .ok bytes) :
    disk.load P view i = .ok bytes ∧ bytes.length = chunkBytes := by
  unfold IndexedVolume.read at hok
  split at hok
  · cases hok
  split at hok
  · cases hok
  rw [segments_whole chunkBytes_pos, IndexedVolume.gather, IndexedVolume.gather] at hok
  cases hload : disk.load P view i with
  | error e => simp [hload] at hok
  | ok chunk =>
    have hlength : chunk.length = chunkBytes := by
      rw [load_clean hdirty] at hload
      obtain ⟨page, -, hfrom⟩ := IndexedVolume.loadStored_ok hload
      exact loadFrom_length hfrom
    simp only [hload, List.append_nil] at hok
    rw [slice_eq_self hlength] at hok
    obtain rfl := Except.ok.inj hok
    exact ⟨rfl, hlength⟩

/-- Without a base, one object decides what is found at a slot. -/
theorem loadFrom_of_fetch {view' : View} {page : Bytes} {i offset : ℕ} {object : Hash}
    (hbase : v.base = none) (hslot : objectSlot page i = some (object, offset))
    (hfetch : view'.fetch v.space object = view.fetch v.space object) :
    v.loadFrom P view' page i = v.loadFrom P view page i := by
  cases hs : slot page i with
  | none => simp only [IndexedVolume.loadFrom, hs]
  | some hash =>
    simp only [IndexedVolume.loadFrom, hs, IndexedVolume.basePage?, hbase, hslot,
      IndexedVolume.inheritsSlot, Option.any_none, Bool.false_eq_true, if_false, hfetch]

/-- What the loop of an export that succeeds has loaded. -/
def exported (P : Platform) (disk : IndexedVolume) (views : ℕ → View) (i : ℕ) : Bytes :=
  (disk.load P (views (i * chunkBytes)) i).toOption.getD []

/-- By induction on the chunks left, the output is the window that was read. -/
theorem exportFrom_ok (hdirty : disk.dirty = ∅) {n i : ℕ} {out : Bytes}
    (hok : exportFrom P disk views accepts n (i * chunkBytes) = (out, .ok ())) :
    out = window (flat chunkBytes (exported P disk views)) (i * chunkBytes) (n * chunkBytes) ∧
      ∀ j, i ≤ j → j < i + n →
        disk.load P (views (j * chunkBytes)) j = .ok (exported P disk views j) ∧
          (exported P disk views j).length = chunkBytes := by
  induction n generalizing i out with
  | zero =>
    obtain ⟨rfl, -⟩ := Prod.mk.inj hok
    refine ⟨by simp [window], fun j hle hlt => ?_⟩
    omega
  | succ n ih =>
    rw [exportFrom] at hok
    cases hr : disk.read P (views (i * chunkBytes)) (i * chunkBytes) chunkBytes with
    | error e => simp [hr] at hok
    | ok bytes =>
      simp only [hr] at hok
      split at hok
      · cases (Prod.mk.inj hok).2
      · cases hrest : exportFrom P disk views accepts n (i * chunkBytes + chunkBytes) with
        | mk rest res =>
          rw [hrest] at hok
          obtain ⟨rfl, rfl⟩ := Prod.mk.inj hok
          rw [← Nat.succ_mul] at hrest
          obtain ⟨rfl, hloads⟩ := ih hrest
          obtain ⟨hload, hlen⟩ := load_of_read hdirty hr
          have hchunk : exported P disk views i = bytes := by
            rw [exported, hload]
            rfl
          constructor
          · have hfirst : bytes = window (flat chunkBytes (exported P disk views))
                (i * chunkBytes) chunkBytes := by
              have h := slice_eq_window (C := chunkBytes) (f := exported P disk views) (i := i)
                (w := 0) (n := chunkBytes) (by rw [hchunk, hlen]) (by omega)
              rwa [hchunk, slice_eq_self hlen, Nat.add_zero] at h
            rw [hfirst, Nat.succ_mul, Nat.succ_mul, Nat.add_comm (n * chunkBytes),
              window_append]
          · intro j hle hlt
            rcases Nat.eq_or_lt_of_le hle with rfl | hgt
            · rw [hchunk]
              exact ⟨hload, hlen⟩
            · exact hloads j hgt (by omega)

/-- The disk map that a client wraps is the one that is decoded. -/
theorem wrap_inj {r : Root} {e : Envelope} {h : Head}
    (he : decodeEnvelope P view id h = .ok e) (hm : h.manifest = c.wrap r) : e.manifest = r := by
  rcases decodeEnvelope_ok he with ⟨henvelope, -, -⟩ | ⟨r', hroot, rfl⟩
  · cases c with
    | raw bases => cases henvelope.symm.trans hm
    | owned i =>
      obtain rfl := Manifest.envelope.inj (henvelope.symm.trans hm)
      rfl
  · cases c with
    | raw bases => exact Manifest.root.inj (hroot.symm.trans hm)
    | owned i => cases hroot.symm.trans hm

/-- A handle that is opened at a head has the disk map that is decoded from it. -/
theorem open_spec {B : Bucket} {h : Head} {e : Envelope} {view' : View} (ha : Answers view B)
    (hc : c.space id = ⟨false, id⟩) (hh : B.heads ⟨false, id⟩ = some h)
    (he : decodeEnvelope P view' id h = .ok e) (hok : IndexedVolume.open P view c id = .ok v) :
    ∃ base, loadBase P view e.manifest = .ok base ∧
      v = ⟨c, e.manifest, base, h.revision, ∅, false⟩ := by
  unfold IndexedVolume.open at hok
  split at hok
  · cases hok
  split at hok
  · cases hok
  · cases hok
  · rename_i h' hhead
    obtain ⟨r, base, hroot, hbase, -, hv⟩ := decodeHead_spec hok
    have hbucket := clientHead_ok ha hhead hroot
    rw [hc, hh] at hbucket
    have heq := Option.some.inj hbucket
    obtain rfl := wrap_inj he (congrArg Head.manifest heq)
    exact ⟨base, hbase, by rw [hv, heq]⟩

/-- The parts of an export that succeeds. -/
theorem exportRemote_ok {first last : View} {out : Bytes} {report : ExportReport}
    (hok : exportRemote P id first last views accepts = (out, .ok report)) :
    ∃ h e, first.head ⟨false, id⟩ = .ok (some h) ∧ decodeEnvelope P first id h = .ok e ∧
      ∃ disk, decodeHead P first (.raw false) id ⟨h.revision, .root e.manifest⟩ true = .ok disk ∧
        exportFrom P disk views accepts (disk.size / chunkBytes) 0 = (out, .ok ()) ∧
          last.head ⟨false, id⟩ = .ok (some h) ∧ report = ⟨1, id, disk.size, P.digest out⟩ := by
  unfold exportRemote at hok
  split at hok
  · cases (Prod.mk.inj hok).2
  split at hok
  · cases (Prod.mk.inj hok).2
  · cases (Prod.mk.inj hok).2
  rename_i h hfirst
  split at hok
  · cases (Prod.mk.inj hok).2
  rename_i e he
  split at hok
  · cases (Prod.mk.inj hok).2
  rename_i disk hdisk
  split at hok
  · cases (Prod.mk.inj hok).2
  rename_i out' hloop
  split at hok
  · cases (Prod.mk.inj hok).2
  · cases (Prod.mk.inj hok).2
  rename_i current hlast
  split at hok
  · cases (Prod.mk.inj hok).2
  rename_i hsame
  simp only [not_or, not_not] at hsame
  obtain ⟨rfl, hreport⟩ := Prod.mk.inj hok
  have hcurrent : current = h := by
    rw [← show (⟨current.revision, current.manifest⟩ : Head) = current from rfl, hsame.1, hsame.2]
  rw [hcurrent] at hlast
  exact ⟨h, e, hfirst, he, disk, hdisk, hloop, hlast, (Except.ok.inj hreport).symm⟩

end Reading

section Results

variable {P : Platform} {S : Set Bytes} {s s₁ s' : System} {id : VolumeId} {first last : View}
  {views : ℕ → View} {accepts : ℕ → Bool} {out : Bytes} {report : ExportReport}

/-- A slice of a window. -/
theorem slice_window {α : Type*} (a : ℕ → α) {n offset len : ℕ} (h : offset + len ≤ n) :
    slice (window a 0 n) offset len = window a offset len := by
  apply List.ext_getElem?
  intro k
  rw [getElem?_slice]
  simp only [window, List.getElem?_map]
  split
  · rename_i hk
    rw [List.getElem?_range' (by omega), List.getElem?_range' hk]
    simp
  · rename_i hk
    rw [List.getElem?_eq_none (by simp; omega)]
    rfl

/-- What an export that succeeds has loaded, and has put out. -/
theorem exported_spec {rev : Revision} {r : Root} {disk : IndexedVolume}
    (hdisk : decodeHead P first (.raw false) id ⟨rev, .root r⟩ true = .ok disk)
    (hloop : exportFrom P disk views accepts (disk.size / chunkBytes) 0 = (out, .ok ())) :
    out = window (flat chunkBytes (exported P disk views)) 0 disk.size ∧
      ∀ i < disk.chunkCount,
        disk.load P (views (i * chunkBytes)) i = .ok (exported P disk views i) ∧
          (exported P disk views i).length = chunkBytes := by
  obtain ⟨r', base, hr, hbase, hwell, rfl⟩ := decodeHead_spec hdisk
  obtain rfl := Manifest.root.inj hr
  obtain ⟨-, hroot⟩ := wellFormed_iff.mp hwell
  rw [← Nat.zero_mul chunkBytes] at hloop
  obtain ⟨hout, hloads⟩ := exportFrom_ok rfl hloop
  rw [Nat.zero_mul, IndexedVolume.size,
    Nat.div_mul_cancel (Nat.dvd_of_mod_eq_zero hroot.size_mod)] at hout
  refine ⟨hout, fun i hi => hloads i (Nat.zero_le i) ?_⟩
  rw [Nat.zero_add]
  exact hi

/-- A handle at the exported head reads what was exported. -/
theorem reads_exported {B : Bucket} {h : Head} {e : Envelope} {disk v : IndexedVolume} {c : Client}
    {view view' : View} (hideal : P.Ideal S) (hfirst : first.Within S)
    (hviews : ∀ offset, (views offset).Within S) (he : decodeEnvelope P first id h = .ok e)
    (hdisk : decodeHead P first (.raw false) id ⟨h.revision, .root e.manifest⟩ true = .ok disk)
    (hloop : exportFrom P disk views accepts (disk.size / chunkBytes) 0 = (out, .ok ()))
    (hh : B.heads ⟨false, id⟩ = some h) (ha : Answers view B) (hw : view.Within S)
    (hc : c.space id = ⟨false, id⟩) (hopen : IndexedVolume.open P view c id = .ok v)
    (hw' : view'.Within S) {offset len : ℕ} {bytes : Bytes}
    (hread : v.read P view' offset len = .ok bytes) : bytes = slice out offset len := by
  obtain ⟨hout, hloads⟩ := exported_spec hdisk hloop
  obtain ⟨r, base, hr, hbase, hwell, rfl⟩ := decodeHead_spec hdisk
  obtain rfl := Manifest.root.inj hr
  obtain ⟨base', hbase', rfl⟩ := open_spec ha hc hh he hopen
  obtain rfl := loadBase_unique hideal hfirst hw hbase hbase'
  obtain ⟨hvolume, hroot⟩ := wellFormed_iff.mp hwell
  set disk : IndexedVolume := ⟨.raw false, e.manifest, base, h.revision, ∅, false⟩
  set v : IndexedVolume := ⟨c, e.manifest, base, h.revision, ∅, false⟩
  have hspace : v.space = disk.space := by
    simp only [IndexedVolume.space, v, disk, hvolume, hc]
    rfl
  have hsource : disk.SameSource v := ⟨rfl, rfl, hspace, rfl, rfl⟩
  have hsame : ∀ view i, v.load P view i = disk.load P view i := by
    intro view i
    rw [load_clean rfl, load_clean rfl, IndexedVolume.loadStored, IndexedVolume.loadStored,
      hsource.page rfl]
    simp only [hsource.loadFrom]
  have hunique : ∀ i < v.chunkCount, ∀ c, v.load P view' i = .ok c →
      c = exported P disk views i := by
    intro i hi c hload
    rw [hsame] at hload
    exact IndexedVolume.load_unique hideal hw' (hviews _) hload (hloads i hi).1
  obtain ⟨hsize, hwindow⟩ := IndexedVolume.read_window hroot hunique
    (fun i hi => (hloads i hi).2) hread
  rw [hwindow, hout]
  exact (slice_window _ hsize).symm

/-- An export that succeeds is a snapshot: the head did not change between its two looks, and every
handle that is opened at this head, then or later, reads what was exported until it writes. -/
theorem export_snapshot (hideal : P.Ideal S) (h : System.Run P .start s)
    (h₁ : System.Run P s s₁) (h' : System.Run P s₁ s') (hfirst : Answers first s.bucket)
    (hlast : Answers last s'.bucket) (hw : first.Within S)
    (hviews : ∀ offset, (views offset).Within S)
    (hok : exportRemote P id first last views accepts = (out, .ok report)) :
    s₁.head id = s.head id ∧ s'.head id = s.head id ∧
      report = ⟨1, id, out.length, P.digest out⟩ ∧
        ∀ view c v, Answers view s₁.bucket → view.Within S → c.space id = ⟨false, id⟩ →
          IndexedVolume.open P view c id = .ok v →
            ∀ view' offset len bytes, view'.Within S → v.read P view' offset len = .ok bytes →
              bytes = slice out offset len := by
  obtain ⟨hd, e, hhead, he, disk, hdisk, hloop, hhead', rfl⟩ := exportRemote_ok hok
  have hbefore : s.bucket.heads ⟨false, id⟩ = some hd := hfirst hhead
  have hafter : s'.bucket.heads ⟨false, id⟩ = some hd := hlast hhead'
  obtain ⟨⟨past, hinv⟩, -, -⟩ := (inv_start P fun _ => tombstone "").run h
  obtain ⟨⟨past', hinv'⟩, hadvances, -⟩ := hinv.run h₁
  obtain ⟨-, hadvances', -⟩ := hinv'.run h'
  obtain ⟨hbetween, -⟩ := hadvances.unrepeated hadvances' (by rw [hafter, hbefore])
  have hlength : out.length = disk.size := by
    rw [(exported_spec hdisk hloop).1, length_window]
  refine ⟨hbetween, hafter.trans hbefore.symm, by rw [hlength], ?_⟩
  intro view c v ha hview hc hopen view' offset len bytes hview' hread
  exact reads_exported hideal hw hviews he hdisk hloop (hbetween.trans hbefore) ha hview hc hopen
    hview' hread

end Results

namespace Sample

open Volume.Sample

/-- The disk with a seven at its start, committed. -/
def committed : IndexedVolume := firstHandle platform written seven none 1

/-- An envelope around it. -/
def sealed (k : ℕ) (o : Option Hash) : Envelope := ⟨"disk", k, o, committed.root⟩

/-- The store with its objects, after some moves of the protocol. -/
def stored (objects : Space → BTreeMap Hash Bytes) (moves : List Manifest) : Bucket :=
  moves.foldl (fun B m => B.replace platform ⟨false, "disk"⟩ m)
    ⟨objects, bucket.heads, bucket.published, bucket.flights⟩

/-- The system once the disk is committed. -/
def kept (objects : Space → BTreeMap Hash Bytes) : System :=
  { System.start with
    bucket := stored objects [.root committed.root]
    volumes := [committed] }

/-- Directory 0 has this disk open. -/
def claimed (objects : Space → BTreeMap Hash Bytes) : System :=
  { kept objects with
    bucket := stored objects [.root committed.root, .envelope (sealed 1 none),
      .envelope (sealed 2 first.token)]
    tokens := [first.token]
    }.put 0 ⟨.whole first, true, false, false, .store ⟨first, false, true, none, []⟩⟩

/-- The handle of its owner. -/
def owned : IndexedVolume := { committed with store := .owned first, revision := "rrrr" }

/-- The same handle with zeros buffered. -/
def zeroed : IndexedVolume :=
  { owned with dirty := owned.dirty ∪ (∅ : BTreeMap ℕ Bytes).insert 0 (zeros chunkBytes) }

/-- The owner begins to overwrite the disk. -/
def overwritten (objects : Space → BTreeMap Hash Bytes) : System :=
  (claimed objects).hold 0 (.store ⟨first, false, true, none, [zeroed]⟩)

/-- All objects get lost, and another host begins to open the disk. -/
def emptied (objects : Space → BTreeMap Hash Bytes) : System :=
  { overwritten objects with
    bucket := { (overwritten objects).bucket with objects := fun _ => ∅ }
    }.hold 1 (.locked "disk" false)

/-- The disk is created, written and committed. -/
theorem run_kept : ∃ objects, System.Run platform .start (kept objects) ∧
    HeadOf platform known (stored objects [.root committed.root]) committed
      (written.over fun _ => zeros chunkBytes) ∧
    Addressed platform known (stored objects [.root committed.root]) := by
  let s₁ : System := { System.start with bucket := bucket, volumes := [volume] }
  let s₂ : System := { System.start with bucket := bucket, volumes := [written] }
  have hinner : IndexedVolume.createInner platform System.start.bucket false "disk" chunkBytes true
      .delivered = (bucket, .ok volume) := create_eq
  have hcreate : System.Step platform .start s₁ := .create hinner
  have hwrite : Call.run platform bucket volume .none (.write 0 [7]) =
      (bucket, written, .ok ()) := write_seven bucket .none
  have hwritten : System.Step platform s₁ s₂ := .call (n := 0) rfl hwrite
  obtain ⟨B, hpublishes, hcommit, -⟩ := commitInner_written .none none
    (bucket_addressed known) rfl rfl rfl
  obtain ⟨hhead, haddressed⟩ := head_written (fun m hm => by cases hm) hpublishes
    (Bucket.view_healthy _).toSound
  obtain ⟨Bu, hprepares, hreplaces⟩ := hpublishes.prepares
  obtain ⟨pages, uploads, generation, -, -, -, hput⟩ := hprepares.plan
  have hgrows := (putChunks_ok hput).1
  have hB : B = stored Bu.objects [.root committed.root] := by
    rw [hreplaces.bucket, stored, List.foldl_cons, List.foldl_nil, Bucket.replace, Bucket.replace,
      hgrows.heads, hgrows.published, hgrows.flights]
    rfl
  have hok : Call.run platform bucket written .none .commit = (B, committed, .ok ()) := by
    have hcommitted := (commit_of_unmarked (B := bucket) (φ := .none) rfl).trans (hcommit rfl)
    rw [Call.run, hcommitted]
    rfl
  have hlast : System.Step platform s₂ { s₂ with bucket := B, volumes := [committed] } :=
    .call (n := 0) rfl hok
  rw [hB] at hlast hhead haddressed
  exact ⟨Bu.objects, .head hcreate (.head hwritten (.single hlast)), hhead, haddressed⟩

variable {objects : Space → BTreeMap Hash Bytes}

/-- It is enrolled and gets an owner. -/
theorem run_claimed : System.Run platform (kept objects) (claimed objects) := by
  let q := replacement "disk" (some "rr") (.envelope (sealed 1 none))
  let s₁ : System := { kept objects with
    bucket := stored objects [.root committed.root, .envelope (sealed 1 none)] }
  have henroll : Owned.enroll platform (kept objects).bucket.view "disk"
      ((kept objects).head "disk") = .ok (some q) := rfl
  have hprepare : System.Step platform (kept objects) { kept objects with prepared := [q] } :=
    .enroll (by decide) henroll
  have hsend : System.Step platform { kept objects with prepared := [q] } s₁ := by
    have h := System.Step.send (P := platform) (s := { kept objects with prepared := [q] })
      List.mem_cons_self (transmit_delivered rfl)
    simpa [s₁, kept, stored, q, replacement, System.start] using h
  have hopen : openHead platform s₁.bucket.view "disk" (s₁.head "disk") =
      .ok ("rrr", sealed 1 none) := rfl
  have hi : newIdentity "disk" (sealed 1 none) first.token = .ok first := rfl
  have hq : claim platform first "rrr" (sealed 1 none) =
      .ok (some (replacement "disk" (some "rrr") (.envelope (sealed 2 first.token)))) := rfl
  have hclaimed : System.Run platform s₁ (claimed objects) :=
    System.obtains (s := s₁) (d := 0) (by decide) rfl rfl List.not_mem_nil hopen hi hq
  exact .head hprepare (.head hsend hclaimed)

/-- The owner opens it and buffers a write. -/
theorem run_overwritten : System.Run platform (claimed objects) (overwritten objects) := by
  let s₁ := (claimed objects).hold 0 (.store ⟨first, false, true, none, [owned]⟩)
  have hopen : IndexedVolume.open platform (claimed objects).bucket.view (.owned first) "disk" =
      .ok owned := rfl
  have hstore : ((claimed objects).directories 0).holder =
      .store ⟨first, false, true, none, []⟩ := rfl
  have hopened : System.Step platform (claimed objects) s₁ :=
    .openOwned hstore rfl (fun h => Except.ok.inj h) hopen
  have hstore₁ : (s₁.directories 0).holder = .store ⟨first, false, true, none, [owned]⟩ := rfl
  have hwrite := write_whole (P := platform) (B := s₁.bucket) (v := owned) (φ := .none) (i := 0)
    (b := zeros chunkBytes) rfl (length_zeros _) (by decide) (by decide)
  rw [Nat.zero_mul] at hwrite
  have hrun : Call.run platform s₁.bucket owned .none (.write 0 (zeros chunkBytes)) =
      (s₁.bucket, zeroed, .ok ()) := hwrite
  have hvolume : [owned][0]? = some owned := rfl
  have hopen₁ : true = false → Faults.none.delivery = .requestLost := nofun
  have hwritten := System.Step.callOwned hstore₁ hopen₁ hvolume hrun
  have hlast : System.Step platform s₁ (overwritten objects) := by
    rw [overwritten, ← System.hold_hold]
    exact hwritten
  exact .head hopened (.single hlast)

/-- All objects get lost, and another host begins to open the disk. -/
theorem run_emptied : System.Run platform (overwritten objects) (emptied objects) := by
  have hlost : System.Step platform (overwritten objects) { overwritten objects with
      bucket := { (overwritten objects).bucket with objects := fun _ => ∅ } } := .objects
  exact .head hlost (.single (.lock (by decide) rfl (fun _ => rfl) nofun))

/-- The answers of the store before, with a cache in which the entry for the page is damaged. -/
def view (objects : Space → BTreeMap Hash Bytes) : View :=
  { (claimed objects).bucket.view with
    cachedChunk := fun _ h =>
      if h = platform.digest (firstPage platform seven) then some (zeros chunkBytes) else none }

theorem view_within (h : Addressed platform known (stored objects [.root committed.root])) :
    (view objects).Within known := by
  have hsound := (Bucket.view_healthy (claimed objects).bucket).toSound
  have hchunk : ∀ {s : Space} {h' : Hash} {b : Bytes}, (view objects).chunk s h' = .ok b →
      b ∈ known := fun {s h' b} hb => (h s h' b (hsound.chunk hb)).2
  -- The page, which can be cut in many ways, is hidden by the entry of the cache.
  have hfetch : ∀ {s : Space} {h' : Hash} {b : Bytes}, (view objects).fetch s h' = .ok b →
      b ∈ known ∧ b.length = chunkBytes := by
    intro s h' b hb
    simp only [View.fetch, view] at hb
    split_ifs at hb with hpage
    · obtain rfl := Except.ok.inj hb
      exact ⟨zeros_known, length_zeros _⟩
    · obtain ⟨hdigest, hknown⟩ := h s h' b (hsound.chunk hb)
      rcases hknown with rfl | rfl | rfl
      · exact ⟨zeros_known, length_zeros _⟩
      · exact ⟨seven_known, length_seven⟩
      · exact absurd hdigest.symm hpage
  refine ⟨hchunk, fun hb => (hfetch hb).1, ?_, ?_⟩
  · intro s h' b o hmod ho hb
    obtain ⟨hknown, hlength⟩ := hfetch hb
    obtain rfl : o = 0 := by omega
    rwa [slice_eq_self hlength]
  · intro image h' o b hb
    exact (h _ h' b (hsound.baseChunk (o := o) hb)).2

/-- The disk as its export decodes it. -/
def disk : IndexedVolume := { committed with revision := "rrrr" }

/-- A handle at this head finds the seven. -/
theorem load_seven (h : HeadOf platform known (stored objects [.root committed.root]) committed
    (written.over fun _ => zeros chunkBytes))
    (ha : Addressed platform known (stored objects [.root committed.root])) {v : IndexedVolume}
    (hv : committed.SameSource v) (hroot : v.root = committed.root) (hdirty : v.dirty = ∅) :
    v.load platform (view objects) 0 = .ok seven := by
  have hholds : Holds platform known (claimed objects).bucket v
      (written.over fun _ => zeros chunkBytes) :=
    (h.holds.of_same hv hroot).mono fun s h b hb => hb
  have hcount : 0 < v.chunkCount := by
    rw [IndexedVolume.chunkCount, hroot]
    decide
  have hbase : v.base = none := hv.base
  have hinherits : v.inheritsPage 0 = false := by
    rw [IndexedVolume.inheritsPage, hbase]
    exact Bool.and_false _
  have hpages : v.root.pages[0]? = some (platform.digest (firstPage platform seven)) := by
    rw [hroot]
    rfl
  obtain ⟨page, hpage, hfrom⟩ := IndexedVolume.loadStored_ok (hholds.loads 0 hcount)
  have hfirst : page = firstPage platform seven := by
    rw [IndexedVolume.page, Nat.zero_div, hinherits, hpages] at hpage
    obtain ⟨bytes, hbytes, hdigest, -, rfl⟩ := pageFrom_some hpage
    rw [Bool.and_false, if_neg Bool.false_ne_true]
    exact known_ideal.inj (ha _ _ _ ((Bucket.view_healthy _).toSound.chunk hbytes)).2 page_known
      hdigest
  obtain ⟨offset, hslot⟩ := objectSlot_firstPage (P := platform) (c := seven) rfl
  have hother : platform.digest seven ≠ platform.digest (firstPage platform seven) := by
    intro h
    cases known_ideal.inj seven_known page_known h
  obtain rfl := hfirst
  have hpage' : v.page platform (view objects) (0 / slots) = .ok (firstPage platform seven) := hpage
  have hfetch : (view objects).fetch v.space (platform.digest seven) =
      (claimed objects).bucket.view.fetch v.space (platform.digest seven) := by
    simp only [View.fetch, view, if_neg hother]
    rfl
  rw [load_clean hdirty, IndexedVolume.loadStored, hpage']
  exact (loadFrom_of_fetch hbase hslot hfetch).trans hfrom

/-- It reads it. -/
theorem read_seven (h : HeadOf platform known (stored objects [.root committed.root]) committed
    (written.over fun _ => zeros chunkBytes))
    (ha : Addressed platform known (stored objects [.root committed.root])) {v : IndexedVolume}
    (hv : committed.SameSource v) (hroot : v.root = committed.root) (hdirty : v.dirty = ∅)
    (hsound : v.poisoned = false) :
    v.read platform (view objects) 0 chunkBytes = .ok seven := by
  have hsize : 0 + chunkBytes ≤ v.root.size := by
    rw [hroot]
    decide
  have hsegments := segments_whole chunkBytes_pos 0
  rw [Nat.zero_mul] at hsegments
  rw [IndexedVolume.read, check_of hsound hsize]
  simp only
  rw [if_neg (by decide), hsegments, IndexedVolume.gather, load_seven h ha hv hroot hdirty]
  simp only [IndexedVolume.gather, List.append_nil]
  rw [slice_eq_self length_seven]

/-- The disk of the sample is exported. -/
theorem disk_exported (h : HeadOf platform known (stored objects [.root committed.root]) committed
    (written.over fun _ => zeros chunkBytes))
    (ha : Addressed platform known (stored objects [.root committed.root])) :
    exportRemote platform "disk" (view objects) (emptied objects).bucket.view
      (fun _ => view objects) (fun _ => true) =
        (seven, .ok ⟨1, "disk", chunkBytes, platform.digest seven⟩) := by
  have hfirst : (view objects).head ⟨false, "disk"⟩ =
      .ok (some ⟨"rrrr", .envelope (sealed 2 first.token)⟩) := rfl
  have hlast : (emptied objects).bucket.view.head ⟨false, "disk"⟩ =
      .ok (some ⟨"rrrr", .envelope (sealed 2 first.token)⟩) := rfl
  have he : decodeEnvelope platform (view objects) "disk"
      ⟨"rrrr", .envelope (sealed 2 first.token)⟩ = .ok (sealed 2 first.token) := rfl
  have hdisk : decodeHead platform (view objects) (.raw false) "disk"
      ⟨"rrrr", .root (sealed 2 first.token).manifest⟩ true = .ok disk := rfl
  have hcount : disk.size / chunkBytes = 1 := rfl
  have hid : validId "disk" = true := by decide
  have hread : disk.read platform (view objects) 0 chunkBytes = .ok seven :=
    read_seven h ha ⟨rfl, rfl, rfl, rfl, rfl⟩ rfl rfl rfl
  simp only [exportRemote, hid, hfirst, hlast, he, hdisk, hcount, exportFrom, hread,
    List.append_nil, Bool.true_eq_false, if_false, ne_eq, not_true_eq_false, or_self]
  rfl

end Sample

/-- A committed disk is exported while its owner overwrites it in its buffer, its objects get lost
and another host begins to open it; the owner's handle at this head reads the same. -/
theorem export_snapshot_owned : ∃ s s₁ s' : System, ∃ view : View,
    System.Run Sample.platform .start s ∧ System.Run Sample.platform s s₁ ∧
    System.Run Sample.platform s₁ s' ∧
    exportRemote Sample.platform "disk" s.bucket.view s'.bucket.view (fun _ => view)
      (fun _ => true) = (Sample.seven, .ok ⟨1, "disk", chunkBytes,
        Sample.platform.digest Sample.seven⟩) ∧
    s'.head "disk" = s.head "disk" ∧ (∀ space, s'.bucket.objects space = ∅) ∧
    Sample.owned.read Sample.platform view 0 chunkBytes = .ok Sample.seven ∧
    ∀ offset len bytes, Sample.owned.read Sample.platform view offset len = .ok bytes →
      bytes = slice Sample.seven offset len := by
  obtain ⟨objects, hrun, hhead, haddressed⟩ := Sample.run_kept
  have hwithin := Sample.view_within haddressed
  have h := export_snapshot Sample.known_ideal (hrun.trans Sample.run_claimed)
    Sample.run_overwritten Sample.run_emptied (fun h => Except.ok.inj h)
    (fun h => Except.ok.inj h) hwithin (fun _ => hwithin) (Sample.disk_exported hhead haddressed)
  refine ⟨_, _, _, Sample.view objects, hrun.trans Sample.run_claimed, Sample.run_overwritten,
    Sample.run_emptied, Sample.disk_exported hhead haddressed, h.2.1, fun _ => rfl,
    Sample.read_seven hhead haddressed ⟨rfl, rfl, rfl, rfl, rfl⟩ rfl rfl rfl,
    fun offset len bytes hread => ?_⟩
  exact h.2.2.2 (Sample.view objects) (.owned Sample.first) Sample.owned
    (fun h => Except.ok.inj h) hwithin rfl rfl (Sample.view objects) offset len bytes hwithin hread

end AgentHouse.Owned
