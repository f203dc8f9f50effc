import AgentHouse.Volume.Contents
import AgentHouse.Lib.Updates

/-!
# The local journal

The bytes of a journal file: a header, then one fixed-size record for each chunk of each
accepted write. Replay reads the header and all whole records and gives up an incomplete one
at the end. The results here say what replay finds in a journal that was cut anywhere.
-/

namespace AgentHouse.Local

open Volume

/-- `AHVMWL01` -/
def journalMagic : Bytes := [0x41, 0x48, 0x56, 0x4d, 0x57, 0x4c, 0x30, 0x31]

/-- The length of a record. -/
def recordSize : ℕ := 16 + chunkBytes + 64

/-- What the journal may take. -/
def logLimit : ℕ := 256 * 1024 * 1024

/-- The length that a header may have. -/
def headerLimit : ℕ := 4096

/-- A chunk that the remote volume does not have yet. -/
structure Pending where
  sequence : ℕ
  bytes : Bytes
  deriving DecidableEq

/-- One lowercase hex digit. -/
def hexChar (n : ℕ) : UInt8 := UInt8.ofNat (if n < 10 then 48 + n else 87 + n)

/-- `digest(..).as_bytes()`: a hash in its hex form. -/
def hexBytes (h : Hash) : Bytes :=
  h.flatMap (fun b => [hexChar (b.toNat / 16), hexChar (b.toNat % 16)])

/-- What `header` writes. -/
def headerBytes (P : Platform) (h : Header) : Result Bytes :=
  let b := P.headerJson h
  if b.length > headerLimit then .error .corrupt
  else .ok (journalMagic ++ beBytes 4 b.length ++ b ++ hexBytes (P.digest b))

/-- What `record` writes. -/
def recordBytes (P : Platform) (index : ℕ) (p : Pending) : Bytes :=
  let b := beBytes 8 p.sequence ++ beBytes 8 index ++ p.bytes
  b ++ hexBytes (P.digest b)

/-- The header of a journal and what follows it. -/
def readHeader (P : Platform) (id : VolumeId) (file : Bytes) : Result (Header × Bytes) :=
  if file.length < 12 then .error .store
  else
    let len := ofBe (slice file 8 4)
    if file.take 8 ≠ journalMagic ∨ len > headerLimit then .error .corrupt
    else if file.length < 12 + len + 64 then .error .store
    else
      let bytes := slice file 12 len
      if hexBytes (P.digest bytes) ≠ slice file (12 + len) 64 then .error .corrupt
      else
        match P.parseHeader bytes with
        | none => .error .corrupt
        | some h =>
          if h.volume ≠ id ∨ h.id.length ≠ 32 ∨ h.acknowledged > h.sequence then .error .corrupt
          else .ok (h, file.drop (12 + len + 64))

/-- The state of the replay loop. -/
structure Replay where
  pending : BTreeMap ℕ Pending
  sequence : ℕ
  last : ℕ

/-- Records up to `replayAck` are in the remote volume already. -/
def collect (replayAck : ℕ) (pending : BTreeMap ℕ Pending) (seq index : ℕ) (bytes : Bytes) :
    BTreeMap ℕ Pending :=
  if seq > replayAck then pending.insert index ⟨seq, bytes⟩ else pending

/-- The checks on one record, and its entry. -/
def replayUpdate (count replayAck : ℕ) (acc : Replay) (seq index : ℕ) (bytes : Bytes) :
    Result Replay :=
  if seq = 0 ∨ seq < acc.last ∨ index ≥ count then .error .corrupt
  else if (collect replayAck acc.pending seq index bytes).size * chunkBytes > dirtyLimit then
    .error .corrupt
  else .ok ⟨collect replayAck acc.pending seq index bytes, max acc.sequence seq, seq⟩

/-- A record that fits is collected. -/
theorem replayUpdate_ok {count q seq index : ℕ} (acc : Replay) {bytes : Bytes} (hpos : 0 < seq)
    (hlast : acc.last ≤ seq) (hindex : index < count)
    (hroom : (collect q acc.pending seq index bytes).size * chunkBytes ≤ dirtyLimit) :
    replayUpdate count q acc seq index bytes =
      .ok ⟨collect q acc.pending seq index bytes, max acc.sequence seq, seq⟩ := by
  rw [replayUpdate, if_neg (by omega), if_neg (by omega)]

/-- One round of the replay loop. -/
def replayRecord (P : Platform) (count replayAck : ℕ) (acc : Replay) (b : Bytes) :
    Result Replay :=
  if hexBytes (P.digest (b.take (recordSize - 64))) ≠ b.drop (recordSize - 64) then
    .error .corrupt
  else replayUpdate count replayAck acc (ofBe (slice b 0 8)) (ofBe (slice b 8 8))
    (slice b 16 chunkBytes)

/-- `replay`: the records in their order. -/
def replay (P : Platform) (h : Header) (count replayAck : ℕ) (rest : Bytes) : Result Replay :=
  (frames recordSize rest).foldlM (replayRecord P count replayAck)
    ⟨∅, h.sequence, h.acknowledged⟩

/-- The file after replay: an incomplete record at its end is cut off. -/
def dropTorn (file rest : Bytes) : Bytes :=
  file.take (file.length - rest.length % recordSize)

section Encoding

variable {P : Platform}

/-- A record of the journal, as a keyed update. -/
abbrev Record := Update ℕ Bytes

/-- The chunk of a record. -/
def Record.pending (r : Record) : Pending := ⟨r.sequence, r.value⟩

/-- A record as it stands in the journal. -/
def Record.encode (P : Platform) (r : Record) : Bytes :=
  recordBytes P r.key (Record.pending r)

/-- A record that the fields of the format can hold, within a disk of `count` chunks. -/
structure Record.Fits (count : ℕ) (r : Record) : Prop where
  sequence_pos : 0 < r.sequence
  sequence_lt : r.sequence < 2 ^ 64
  key_lt : r.key < count
  length_value : r.value.length = chunkBytes

@[simp] theorem length_hexBytes (h : Hash) : (hexBytes h).length = 2 * h.length := by
  rw [hexBytes, length_flatMap_eq (n := 2) (fun x _ => rfl), Nat.mul_comm]

theorem recordSize_pos : 0 < recordSize := by decide

/-- Records are of one size. -/
theorem Record.length_encode {count : ℕ} {r : Record} (h : Record.Fits count r) :
    (Record.encode P r).length = recordSize := by
  simp only [Record.encode, recordBytes, Record.pending, List.length_append, length_beBytes,
    length_hexBytes, P.digest_length, h.length_value, recordSize]

/-- The size of the header of a journal. -/
def headerSize (P : Platform) (h : Header) : ℕ := 12 + (P.headerJson h).length + 64

/-- The size of a header. -/
theorem length_headerBytes {h : Header} {b : Bytes} (hb : headerBytes P h = .ok b) :
    b.length = headerSize P h := by
  unfold headerBytes at hb
  simp only at hb
  split at hb
  · cases hb
  · rw [← Except.ok.inj hb]
    simp only [List.length_append, length_beBytes, length_hexBytes, P.digest_length,
      journalMagic, headerSize, List.length_cons, List.length_nil]

/-- The parts of a complete header. -/
theorem headerBytes_parts {h : Header} {b : Bytes} (hb : headerBytes P h = .ok b) :
    (P.headerJson h).length ≤ headerLimit ∧ b.take 8 = journalMagic ∧
      slice b 8 4 = beBytes 4 (P.headerJson h).length ∧
      slice b 12 (P.headerJson h).length = P.headerJson h ∧
      slice b (12 + (P.headerJson h).length) 64 = hexBytes (P.digest (P.headerJson h)) := by
  unfold headerBytes at hb
  simp only at hb
  split at hb
  · cases hb
  · rename_i hle
    have hm : journalMagic.length = 8 := rfl
    have hj : ∀ n, (beBytes 4 n).length = 4 := fun n => length_beBytes 4 n
    have hx : (hexBytes (P.digest (P.headerJson h))).length = 64 := by
      rw [length_hexBytes, P.digest_length]
    rw [← Except.ok.inj hb]
    refine ⟨by omega, ?_, ?_, ?_, ?_⟩
    · simp [hm]
    · rw [slice_append_left (by simp [hm]; omega), slice_append_left (by simp [hm]),
        slice_append_right (by omega), hm, slice_eq_self (by simp)]
    · rw [slice_append_left (by simp [hm]; omega), slice_append_right (by simp [hm])]
      simp only [List.length_append, hm, hj]
      exact slice_eq_self rfl
    · rw [slice_append_right (by simp [hm]; omega)]
      simp only [List.length_append, hm, hj, Nat.sub_self]
      exact slice_eq_self hx

theorem slice_take {b : Bytes} {k a n : ℕ} (h : a + n ≤ k) :
    slice (b.take k) a n = slice b a n := by
  rw [slice, slice, List.drop_take, List.take_take, min_eq_left (by omega)]

/-- A complete header is read back. -/
theorem readHeader_ok {id : VolumeId} {h : Header} {b rest : Bytes} (hb : headerBytes P h = .ok b)
    (hv : h.volume = id) (hid : h.id.length = 32) (hack : h.acknowledged ≤ h.sequence) :
    readHeader P id (b ++ rest) = .ok (h, rest) := by
  obtain ⟨hle, hmagic, hlen4, hjson, hsum⟩ := headerBytes_parts hb
  have hlen := length_headerBytes hb
  have hlimit : headerLimit = 4096 := rfl
  rw [headerSize] at hlen
  have hofBe : ofBe (slice (b ++ rest) 8 4) = (P.headerJson h).length := by
    rw [slice_append_left (by omega), hlen4, ofBe_beBytes (by omega)]
  have htake : (b ++ rest).take 8 = journalMagic := by
    rw [List.take_append_of_le_length (by omega), hmagic]
  unfold readHeader
  rw [if_neg (by rw [List.length_append]; omega)]
  simp only [hofBe, htake, ne_eq, not_true_eq_false, false_or]
  rw [if_neg (by omega), if_neg (by rw [List.length_append]; omega),
    slice_append_left (by omega), slice_append_left (by omega), hjson, hsum]
  simp only [not_true_eq_false, if_false, P.parseHeader_headerJson, hv, hid, false_or]
  rw [if_neg (by omega), show 12 + (P.headerJson h).length + 64 = b.length by omega,
    List.drop_left]

/-- An incomplete header cannot be read. -/
theorem readHeader_torn {id : VolumeId} {h : Header} {b : Bytes} (hb : headerBytes P h = .ok b)
    {k : ℕ} (hk : k < b.length) : readHeader P id (b.take k) = .error .store := by
  obtain ⟨hle, hmagic, hlen4, -, -⟩ := headerBytes_parts hb
  have hlen := length_headerBytes hb
  have hlimit : headerLimit = 4096 := rfl
  rw [headerSize] at hlen
  have hlk : (b.take k).length = k := by rw [List.length_take]; omega
  unfold readHeader
  by_cases h12 : k < 12
  · rw [if_pos (by omega)]
  · have hofBe : ofBe (slice (b.take k) 8 4) = (P.headerJson h).length := by
      rw [slice_take (by omega), hlen4, ofBe_beBytes (by omega)]
    have htake : (b.take k).take 8 = journalMagic := by
      rw [List.take_take, min_eq_left (by omega), hmagic]
    rw [if_neg (by omega)]
    simp only [hofBe, htake, ne_eq, not_true_eq_false, false_or]
    rw [if_neg (by omega), if_pos (by omega)]

end Encoding

section Replaying

variable {P : Platform} {count q : ℕ} {L : List Record}

/-- A record is read back. -/
theorem replayRecord_encode {r : Record} (hr : Record.Fits count r) (hcount : count ≤ 2 ^ 64)
    (acc : Replay) :
    replayRecord P count q acc (Record.encode P r) =
      replayUpdate count q acc r.sequence r.key r.value := by
  have h8 : ∀ n, (beBytes 8 n).length = 8 := fun n => length_beBytes 8 n
  have hsize : recordSize - 64 = 16 + chunkBytes := by rw [recordSize]; omega
  have hbody : (beBytes 8 r.sequence ++ beBytes 8 r.key ++ r.value).length = 16 + chunkBytes := by
    simp only [List.length_append, h8, hr.length_value]
  have hseq : r.sequence < 256 ^ 8 := lt_of_lt_of_le hr.sequence_lt (by norm_num)
  have hkey : r.key < 256 ^ 8 :=
    lt_of_lt_of_le (lt_of_lt_of_le hr.key_lt hcount) (by norm_num)
  have hval : slice (beBytes 8 r.sequence ++ beBytes 8 r.key ++ r.value) 16 chunkBytes =
      r.value := by
    rw [slice_append_right (by simp only [List.length_append, h8]; omega)]
    simp only [List.length_append, h8, Nat.reduceAdd, Nat.sub_self]
    exact slice_eq_self hr.length_value
  have hkeyv : slice (beBytes 8 r.sequence ++ beBytes 8 r.key ++ r.value) 8 8 =
      beBytes 8 r.key := by
    rw [slice_append_left (by simp only [List.length_append, h8]; omega),
      slice_append_right (by rw [h8]), h8]
    exact slice_eq_self (h8 _)
  have hseqv : slice (beBytes 8 r.sequence ++ beBytes 8 r.key ++ r.value) 0 8 =
      beBytes 8 r.sequence := by
    rw [slice_append_left (by simp only [List.length_append, h8]; omega),
      slice_append_left (by rw [h8])]
    exact slice_eq_self (h8 _)
  unfold replayRecord Record.encode recordBytes Record.pending
  simp only
  generalize beBytes 8 r.sequence ++ beBytes 8 r.key ++ r.value = body at hbody hval hkeyv hseqv ⊢
  rw [hsize, List.take_left' hbody, List.drop_left' hbody]
  simp only [ne_eq, not_true_eq_false, if_false]
  rw [slice_append_left (by rw [hbody]; omega), slice_append_left (by rw [hbody]; omega),
    slice_append_left (by rw [hbody]), hseqv, hkeyv, hval, ofBe_beBytes hseq, ofBe_beBytes hkey]

/-- Replaying encoded records, whatever incomplete record follows them. -/
theorem replay_encode {h : Header} (hL : ∀ r ∈ L, Record.Fits count r) (hcount : count ≤ 2 ^ 64)
    {tail : Bytes} (htail : tail.length < recordSize) :
    replay P h count q (L.flatMap (Record.encode P) ++ tail) =
      L.foldlM (fun acc r => replayUpdate count q acc r.sequence r.key r.value)
        ⟨∅, h.sequence, h.acknowledged⟩ := by
  rw [replay, frames_flatMap_append recordSize_pos (fun r hr => Record.length_encode (hL r hr))
    htail, List.foldlM_map]
  generalize (⟨∅, h.sequence, h.acknowledged⟩ : Replay) = acc
  induction L generalizing acc with
  | nil => rw [List.foldlM_nil, List.foldlM_nil]
  | cons r L ih =>
    rw [List.foldlM_cons, List.foldlM_cons,
      replayRecord_encode (hL r List.mem_cons_self) hcount]
    exact bind_congr (ih (fun t ht => hL t (List.mem_cons_of_mem _ ht)))

theorem replay_nil (h : Header) (count q : ℕ) :
    replay P h count q [] = .ok ⟨∅, h.sequence, h.acknowledged⟩ := by
  have hframes : frames recordSize ([] : Bytes) = [] := by
    rw [frames, List.length_nil, Nat.zero_div, List.range_zero, List.map_nil]
  rw [replay, hframes]
  rfl

/-- The newest sequence number of a journal. -/
def newest (start : ℕ) (L : List Record) : ℕ := L.foldl (fun n r => max n r.sequence) start

theorem le_newest (start : ℕ) (L : List Record) : start ≤ newest start L := by
  induction L generalizing start with
  | nil => exact le_refl _
  | cons r L ih => exact le_trans (le_max_left _ _) (ih _)

theorem sequence_le_newest {start : ℕ} {r : Record} (hr : r ∈ L) :
    r.sequence ≤ newest start L := by
  induction L generalizing start with
  | nil => simp at hr
  | cons t L ih =>
    rcases List.mem_cons.mp hr with rfl | hr
    · exact le_trans (le_max_right _ _) (le_newest _ L)
    · exact ih hr

/-- The newest sequence is the greatest one. -/
theorem newest_le {start n : ℕ} (hs : start ≤ n) (h : ∀ r ∈ L, r.sequence ≤ n) :
    newest start L ≤ n := by
  induction L generalizing start with
  | nil => exact hs
  | cons t L ih =>
    exact ih (max_le hs (h t List.mem_cons_self)) (fun r hr => h r (List.mem_cons_of_mem _ hr))

/-- What a completed replay has collected: for each chunk its last record that is newer than
the mark. -/
theorem replay_ok {h : Header} {acc : Replay}
    (hok : L.foldlM (fun acc r => replayUpdate count q acc r.sequence r.key r.value)
      ⟨∅, h.sequence, h.acknowledged⟩ = .ok acc) :
    (∀ i : ℕ, acc.pending[i]? =
      (lastOf (L.filter (fun r => decide (q < r.sequence))) i).map Record.pending) ∧
      acc.sequence = newest h.sequence L ∧ acc.pending.size * chunkBytes ≤ dirtyLimit := by
  refine foldlM_induction hok (fun done acc => (∀ i : ℕ, acc.pending[i]? =
    (lastOf (done.filter (fun r => decide (q < r.sequence))) i).map Record.pending) ∧
      acc.sequence = newest h.sequence done ∧ acc.pending.size * chunkBytes ≤ dirtyLimit)
    ⟨by simp, rfl, by simp⟩ ?_
  rintro done r rest acc acc' - ⟨hp, hs, -⟩ hstep
  unfold replayUpdate at hstep
  split at hstep
  · cases hstep
  split at hstep
  · cases hstep
  rename_i hsize
  rw [← Except.ok.inj hstep]
  refine ⟨fun i => ?_, by simp [hs, newest], Nat.not_lt.mp hsize⟩
  rw [List.filter_append, collect]
  by_cases hq : q < r.sequence
  · simp only [gt_iff_lt, hq, if_true, List.filter_cons, decide_true, List.filter_nil]
    rw [lastOf_append_singleton, Std.ExtTreeMap.getElem?_insert]
    by_cases hk : r.key = i
    · simp [hk, Record.pending]
    · simp [hk, hp]
  · simp [hq, hp]

end Replaying

end AgentHouse.Local
