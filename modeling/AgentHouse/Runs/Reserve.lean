import AgentHouse.Runs.Outbox

/-!
# The reserve for final events

Every unsealed stream keeps the space of one event free, in its own limit and in the limit
on all streams together. Admission takes the space, a receipt uses it, and no other
operation spends it; so the receipt of a run always finds room.
-/

namespace AgentHouse.Runs

/-- What a stream holds of the space: its pending bytes, and one event until it is sealed. -/
def ManagedRunEventStream.weight (s : ManagedRunEventStream) : ℕ :=
  s.pendingBytes + if s.isSealed then 0 else maxManagedEventBytes

/-- What all streams take up of the shared reserve. -/
def Db.load (db : Db) : ℕ := (db.streams.map (·.weight)).sum

/-- A checkpoint text that is its own compact form. -/
def Op.Compact (parse : String → Option Json) (_ : Db) : Op → Prop
  | .checkpoint _ _ _ _ text _ => ∀ value, parse text = some value → value.render = text
  | _ => True

section Load

variable {parse : String → Option Json} {db db' : Db} {id : String}

/-- The load is what `totals` counts. -/
theorem load_eq (db : Db) : db.load = db.totals.1 + db.totals.2.1 * maxManagedEventBytes := by
  rw [Db.load, Db.totals]
  induction db.streams with
  | nil => rfl
  | cons s rest ih =>
    simp only [List.map_cons, List.sum_cons, ManagedRunEventStream.weight, Nat.add_mul] at ih ⊢
    split <;> omega

/-- A change of a stream changes the load by its weight. -/
theorem Db.Sound.load_reviseStream (h : db.Sound) {s : ManagedRunEventStream}
    (hs : db.findStream id = some s) (f : ManagedRunEventStream → ManagedRunEventStream) :
    (db.reviseStream id f).load + s.weight = db.load + (f s).weight :=
  Table.sum_revise h.streams hs _

theorem load_reviseStream_le {f : ManagedRunEventStream → ManagedRunEventStream}
    (hf : ∀ s, (f s).weight ≤ s.weight) : (db.reviseStream id f).load ≤ db.load :=
  Table.sum_revise_le hf

/-- A deletion adds no load. -/
theorem load_deleteStreams {gone : ManagedRunEventStream → Bool} :
    (db.deleteStreams gone).load ≤ db.load :=
  Table.sum_filter_le _

/-- An unsealed stream is counted among the open ones. -/
theorem unsealed_pos {s : ManagedRunEventStream}
    (hs : db.findStream id = some s) (hunsealed : s.isSealed = false) : 1 ≤ db.totals.2.1 := by
  have hmem := (Table.row_mem hs).1
  have hone : 1 ∈ db.streams.map fun s => if s.isSealed then 0 else 1 :=
    List.mem_map.mpr ⟨s, hmem, by simp [hunsealed]⟩
  exact List.single_le_sum (fun _ _ => Nat.zero_le _) _ hone

/-- A stored event keeps the limit on all streams. -/
theorem append_load (h : db.Sound) {run : ManagedRun} {kind : Kind} {value : Option Json} {now : ℤ}
    (hok : append parse db run kind value now = .ok db') : db'.load ≤ maxTotalPending := by
  obtain ⟨s, hash, hs, hunsealed, -, -, htotal, rfl⟩ := append_ok hok
  have hopen := unsealed_pos hs hunsealed
  set size := (payload parse run hash s.nextEventSeq kind value).size
  have hload := h.load_reviseStream hs (fun t => t.stored size kind.final)
  have heq := load_eq db
  have hweight : s.weight = s.pendingBytes + maxManagedEventBytes := by
    rw [ManagedRunEventStream.weight, hunsealed]
    rfl
  have hnew : (s.stored size kind.final).weight =
      s.pendingBytes + size + if kind.final then 0 else maxManagedEventBytes := rfl
  change (db.reviseStream run.id fun t => t.stored size kind.final).load ≤ _
  rw [remainingReserve] at htotal
  cases hfinal : kind.final with
  | false =>
    rw [hfinal] at hnew hload htotal
    simp only [Bool.toNat_false, Nat.sub_zero] at htotal
    simp only [Bool.false_eq_true, ↓reduceIte] at hnew
    omega
  | true =>
    rw [hfinal] at hnew hload htotal
    obtain ⟨n, hn⟩ := Nat.exists_eq_add_of_le' hopen
    rw [hn, Nat.add_one_mul] at heq
    simp only [Bool.toNat_true, hn, Nat.add_sub_cancel] at htotal
    simp only [↓reduceIte] at hnew
    omega

/-- A checkpoint is refused above the bound. -/
theorem checkpoint_load (h : db.Sound) {epoch now : ℤ} {offset guestSeq : ℕ} {text : String}
    (hok : appendManagedRunCheckpoint parse db id epoch offset guestSeq text now = .ok db') :
    db'.load ≤ maxTotalPending := by
  obtain ⟨r, s, value, mid, -, -, -, -, -, -, -, -, happend, rfl⟩ := checkpoint_ok hok
  refine le_trans (load_reviseStream_le ?_) (append_load h happend)
  intro s
  exact le_rfl

/-- An acknowledgement adds no load. -/
theorem acknowledge_load {seq : ℕ} (hok : acknowledgeManagedRunEvent db id seq = .ok db') :
    db'.load ≤ db.load := by
  have hack (e : ManagedRunEvent) : (db.acknowledged e).load ≤ db.load := by
    change ((db.deleteEvent e.runId e.seq).reviseStream e.runId _).load ≤
      (db.deleteEvent e.runId e.seq).load
    apply load_reviseStream_le
    intro s
    have hle : s.pendingBytes - e.payload.size ≤ s.pendingBytes := Nat.sub_le _ _
    exact Nat.add_le_add_right hle _
  rcases acknowledge_ok hok with ⟨rfl, -⟩ | ⟨s, e, -, -, -, -, ⟨-, rfl⟩ | ⟨-, rfl⟩⟩
  · exact le_rfl
  · calc (db.settled e).load
      _ ≤ ((db.acknowledged e).reviseStream e.runId fun s => s.cleared).load := load_deleteStreams
      _ ≤ (db.acknowledged e).load := load_reviseStream_le fun s => le_rfl
      _ ≤ db.load := hack e
  · exact hack e

/-- An admission stays below the bound. -/
theorem admit_load {sandboxId ownerId request : String} {now deadlineAt : ℤ}
    {run : ManagedRun} {created : Bool} (hload : db.load ≤ maxTotalPending)
    (hok : admitManagedRun parse db id sandboxId ownerId request now deadlineAt =
      .ok (db', run, created)) : db'.load ≤ maxTotalPending := by
  cases hfind : db.find id with
  | some existing =>
    rw [(admit_existing hfind hok).1]
    exact hload
  | none =>
    obtain ⟨-, hstream, -⟩ := admit_ok hfind hok
    rcases (admitStream_ok (find_starting hfind) hstream).2 with ⟨-, rfl⟩ | ⟨delivery, -, -, htotal⟩
    · exact load_deleteStreams.trans hload
    · rw [load_eq]
      exact htotal

/-- So does an update. -/
theorem update_load (h : db.Sound) {epoch now : ℤ} {report : Report} {run : ManagedRun}
    (hload : db.load ≤ maxTotalPending)
    (hok : updateManagedRun parse db id epoch report now = .ok (db', run)) :
    db'.load ≤ maxTotalPending := by
  obtain ⟨r, phase, -, -, -, -, -, ⟨-, rfl⟩ | ⟨-, hfinal⟩⟩ := update_ok hok
  · exact hload
  · have hkey (r : ManagedRun) : (r.report phase report now).id = r.id := rfl
    rcases terminal_ok hfinal with ⟨-, rfl⟩ | ⟨value, happend⟩
    · exact hload
    · exact append_load (h.reviseRun id hkey) happend

/-- Every committed operation keeps the limit on all streams. -/
theorem Op.body_load {op : Op} {reply : Reply} (h : db.Sound) (hload : db.load ≤ maxTotalPending)
    (hok : op.body parse db = .ok (db', reply)) : db'.load ≤ maxTotalPending := by
  cases op with
  | admission id sandboxId ownerId requestJson now deadlineAt =>
    obtain ⟨⟨final, run, created⟩, hadmitted, hok⟩ := bind_ok hok
    obtain ⟨rfl, -⟩ := Prod.mk.inj (Except.ok.inj hok)
    exact admit_load hload hadmitted
  | claim id now =>
    obtain ⟨⟨final, run⟩, hclaim, hok⟩ := bind_ok hok
    obtain ⟨rfl, -⟩ := Prod.mk.inj (Except.ok.inj hok)
    obtain ⟨r, -, -, rfl⟩ := claim_ok hclaim
    exact hload
  | update id epoch report now =>
    obtain ⟨⟨final, run⟩, hupdate, hok⟩ := bind_ok hok
    obtain ⟨rfl, -⟩ := Prod.mk.inj (Except.ok.inj hok)
    exact update_load h hload hupdate
  | checkpoint id epoch offset guestSeq text now =>
    obtain ⟨final, hcheckpoint, hok⟩ := bind_ok hok
    obtain ⟨rfl, -⟩ := Prod.mk.inj (Except.ok.inj hok)
    exact checkpoint_load h hcheckpoint
  | failSource id epoch =>
    obtain ⟨final, hfail, hok⟩ := bind_ok hok
    obtain ⟨rfl, -⟩ := Prod.mk.inj (Except.ok.inj hok)
    obtain ⟨r, -, -, -, rfl⟩ := failSource_ok hfail
    refine le_trans (load_reviseStream_le ?_) hload
    intro s
    exact le_rfl
  | acknowledge id seq =>
    obtain ⟨final, hack, hok⟩ := bind_ok hok
    obtain ⟨rfl, -⟩ := Prod.mk.inj (Except.ok.inj hok)
    exact (acknowledge_load hack).trans hload
  | cleanup =>
    obtain ⟨rfl, -⟩ := Prod.mk.inj (Except.ok.inj hok)
    exact load_deleteStreams.trans hload
  | createSandbox sandbox =>
    rw [Op.body] at hok
    split at hok
    · cases hok
    · obtain ⟨rfl, -⟩ := Prod.mk.inj (Except.ok.inj hok)
      exact hload
  | deleteSandbox id =>
    obtain ⟨rfl, -⟩ := Prod.mk.inj (Except.ok.inj hok)
    exact load_deleteStreams.trans hload
  | stopAfterDelete id | deleteUser id | reserve rows =>
    obtain ⟨rfl, -⟩ := Prod.mk.inj (Except.ok.inj hok)
    exact hload
  | confirmRetirement owner volume released complete =>
    obtain ⟨⟨final, first⟩, hconfirm, hok⟩ := bind_ok hok
    obtain ⟨rfl, -⟩ := Prod.mk.inj (Except.ok.inj hok)
    obtain ⟨gone, rows, rfl, -⟩ := confirm_ok hconfirm
    exact hload

end Load

/-- An unsealed stream has room for one event, and its projection fits into one. -/
structure Lane.Reserved (parse : String → Option Json) (l : Lane) : Prop where
  room : ∀ s, l.stream = some s → s.isSealed = false →
    s.pendingBytes + maxManagedEventBytes ≤ maxRunPending
  projection : ∀ s text, l.stream = some s → s.checkpointJson = some text →
    ∃ value, parse text = some value ∧ value.size ≤ maxCheckpointBytes

section Room

variable {parse : String → Option Json} {db : Db} {op : Op} {id : String} {l l' : Lane}

theorem Lane.Reserved.gone {run : Option ManagedRun} {queue : List ManagedRunEvent} :
    Lane.Reserved parse { run := run, stream := none, queue := queue } where
  room := by
    intro s hs
    cases hs
  projection := by
    intro s text hs
    cases hs

/-- A lane whose stream has no more bytes and no other projection than a reserved one. -/
theorem Lane.Reserved.less (h : l.Reserved parse) {s : ManagedRunEventStream}
    {run : Option ManagedRun} {queue : List ManagedRunEvent} {t : ManagedRunEventStream}
    (hs : l.stream = some s) (hbytes : t.pendingBytes ≤ s.pendingBytes)
    (hsealed : t.isSealed = s.isSealed)
    (htext : t.checkpointJson = s.checkpointJson ∨ t.checkpointJson = none) :
    Lane.Reserved parse { run := run, stream := some t, queue := queue } where
  room := by
    intro u hu hunsealed
    obtain rfl := Option.some.inj hu
    have hroom := h.room s hs (hsealed.symm.trans hunsealed)
    omega
  projection := by
    intro u text hu hcheckpoint
    obtain rfl := Option.some.inj hu
    rcases htext with htext | htext
    · exact h.projection s text hs (htext.symm.trans hcheckpoint)
    · rw [htext] at hcheckpoint
      cases hcheckpoint

/-- A compact move keeps what is reserved. -/
theorem Move.reserved (h : l.Reserved parse) (hop : op.Compact parse db)
    (hmove : Move parse db op id l l') : l'.Reserved parse := by
  cases hmove with
  | same => exact h
  | claimed | updated | deleted => exact ⟨h.room, h.projection⟩
  | admitted hrun hstream hdelivery =>
    rename_i delivery
    cases delivery with
    | none => exact .gone
    | some d =>
      refine ⟨?_, ?_⟩
      · intro s hs _
        obtain rfl := Option.some.inj hs
        change 0 + maxManagedEventBytes ≤ maxRunPending
        decide
      · intro s text hs htext
        obtain rfl := Option.some.inj hs
        cases htext
  | finished _ _ _ _ _ _ hstream =>
    refine ⟨?_, ?_⟩
    · intro t ht hunsealed
      obtain rfl := Option.some.inj ht
      cases hunsealed
    · intro t text ht htext
      obtain rfl := Option.some.inj ht
      exact h.projection _ text hstream htext
  | checkpointed _ _ _ hstream hunsealed hparse hsize _ _ hfits =>
    refine ⟨?_, ?_⟩
    · intro t ht _
      obtain rfl := Option.some.inj ht
      have hlimit : perRun .checkpoint + maxManagedEventBytes = maxRunPending := by decide
      change _ + _ + maxManagedEventBytes ≤ maxRunPending
      omega
    · intro t text ht htext
      obtain rfl := Option.some.inj ht
      obtain rfl := Option.some.inj htext
      refine ⟨_, hparse, ?_⟩
      rw [Json.size, hop _ hparse]
      exact hsize
  | sourceFailed =>
    cases hs : l.stream with
    | none => exact .gone
    | some s => exact h.less hs le_rfl rfl (.inr rfl)
  | acknowledged hstream => exact h.less hstream (Nat.sub_le _ _) rfl (.inl rfl)
  | settled _ hstream => exact h.less hstream (Nat.sub_le _ _) rfl (.inr rfl)
  | drained | cleaned => exact .gone

/-- The load stays below the bound, and the final events have their room, in every reachable
store. -/
theorem Reachable.reserved (h : Reachable parse (Op.Compact parse) db) :
    db.load ≤ maxTotalPending ∧ ∀ id, (db.lane id).Reserved parse := by
  have hall : db.Sound ∧ db.load ≤ maxTotalPending ∧ ∀ id, (db.lane id).Reserved parse := by
    apply h.invariant
    · exact ⟨.empty, Nat.zero_le _, fun _ => .gone⟩
    · intro db op db' reply ⟨hsound, hload, hlanes⟩ hop hok
      obtain ⟨hsound', hmoves⟩ := Op.body_moves hsound hok
      exact ⟨hsound', Op.body_load hsound hload hok, fun id => (hmoves id).reserved (hlanes id) hop⟩
  exact hall.2

end Room

section Receipt

variable {parse : String → Option Json} {db : Db}

/-- The bytes of a field name `checkpoint` with its quotes, colon and comma. -/
def checkpointFieldBytes : ℕ := 14

/-- The size of a payload with a checkpoint. -/
theorem payload_size (run : ManagedRun) (hash : String) (seq : ℕ) (kind : Kind) (value : Json) :
    (payload parse run hash seq kind (some value)).size =
      (envelope parse run hash seq kind).size + checkpointFieldBytes + value.size := by
  have hquote : (Json.quote "checkpoint").utf8ByteSize = 12 := by decide
  rw [payload, envelope, Json.size_set value (by simp) (by simp)]
  simp only [Json.fieldSize, hquote, checkpointFieldBytes]
  omega

/-- An event that fits is stored, as long as a sequence number is left. -/
theorem append_eq {run : ManagedRun} {kind : Kind} {s : ManagedRunEventStream} {request : Json}
    {hash : String} {value : Option Json} {now : ℤ} (hs : db.findStream run.id = some s)
    (hunsealed : s.isSealed = false) (hrequest : parse run.requestJson = some request)
    (hhash : requestHash request = some hash)
    (hsize : (payload parse run hash s.nextEventSeq kind value).size ≤ maxManagedEventBytes)
    (hroom : s.pendingBytes + (payload parse run hash s.nextEventSeq kind value).size ≤ perRun kind)
    (htotal : db.totals.1 + (payload parse run hash s.nextEventSeq kind value).size +
      remainingReserve db.totals.2.1 kind ≤ maxTotalPending)
    (hfresh : ∀ e ∈ db.queue run.id, e.seq ≠ s.nextEventSeq) :
    append parse db run kind value now =
      if i64Max < s.nextEventSeq + 1 then .error (.conflict "managed event sequence exhausted")
      else .ok (db.stored {
        runId := run.id, seq := s.nextEventSeq, createdAt := now
        payload := payload parse run hash s.nextEventSeq kind value } kind.final) := by
  have hkey : db.events.any (fun e => e.runId = run.id ∧ e.seq = s.nextEventSeq) = false := by
    rw [List.any_eq_false]
    intro e he hboth
    have hboth : e.runId = run.id ∧ e.seq = s.nextEventSeq := by simpa using hboth
    exact hfresh e (List.mem_filter.mpr ⟨he, by simp [hboth.1]⟩) hboth.2
  rw [append, stream_ok.mpr hs]
  simp only [bind, Except.bind, hunsealed, Bool.false_eq_true, ↓reduceIte, hrequest, hhash]
  rw [if_neg (by omega), if_neg (by omega)]
  split
  · rfl
  · rw [if_neg (by rw [hkey]; simp)]
    rfl

/-- The space that an unsealed stream keeps is enough for its final event. -/
theorem reserve_fits {id : String} {s : ManagedRunEventStream} {size : ℕ}
    (hload : db.load ≤ maxTotalPending) (hs : db.findStream id = some s)
    (hunsealed : s.isSealed = false) (hsize : size ≤ maxManagedEventBytes) :
    db.totals.1 + size + remainingReserve db.totals.2.1 .receipt ≤ maxTotalPending := by
  have hopen := unsealed_pos hs hunsealed
  have hreserve : remainingReserve db.totals.2.1 .receipt + maxManagedEventBytes =
      db.totals.2.1 * maxManagedEventBytes := by
    obtain ⟨n, hn⟩ := Nat.exists_eq_add_of_le' hopen
    rw [remainingReserve, hn, Nat.add_one_mul]
    rfl
  have htotal := load_eq db
  omega

/-- A run without a stream has no final event. -/
theorem terminal_none {run : ManagedRun} {now : ℤ} (hs : db.findStream run.id = none) :
    terminal parse db run now = .ok db := by
  rw [terminal, hs]

/-- The final event of a run with a stream: the projection comes along unless the source failed. -/
theorem terminal_eq {run : ManagedRun} {s : ManagedRunEventStream} {now : ℤ}
    (hs : db.findStream run.id = some s)
    (hprojection : ∀ text, s.checkpointJson = some text →
      ∃ value, parse text = some value ∧ value.size ≤ maxCheckpointBytes) :
    ∃ value : Option Json, (∀ v, value = some v → v.size ≤ maxCheckpointBytes) ∧
      terminal parse db run now = append parse db run .receipt value now := by
  unfold terminal
  rw [hs]
  simp only
  split
  · exact ⟨none, by simp, rfl⟩
  · rename_i text htext
    split at htext
    · cases htext
    · obtain ⟨value, hvalue, hsize⟩ := hprojection text htext
      rw [hvalue]
      refine ⟨some value, ?_, rfl⟩
      intro v hv
      obtain rfl := Option.some.inj hv
      exact hsize

/-- A report that passes its checks is stored with the run's final event. -/
theorem update_eq {id : String} {r : ManagedRun} {phase : Phase} {report : Report} {now : ℤ}
    (hr : db.find id = some r) (hopen : r.finishedAt = none)
    (hphase : Phase.parse report.phase = some phase) (hterminal : phase.terminal = true)
    (hflag : report.terminal = true) (hsession : replaces report.sessionId r.sessionId = false)
    (hboot : replaces report.bootId r.bootId = false) :
    updateManagedRun parse db id r.epoch report now =
      (terminal parse (db.reviseRun id (·.report phase report now)) (r.report phase report now)
        now).map fun db' => (db', r.report phase report now) := by
  have hget : (db.reviseRun id (·.report phase report now)).get id =
      .ok (r.report phase report now) := get_ok.mpr (find_reported hr)
  rw [updateManagedRun, hphase]
  simp only [hflag, hterminal, get_ok.mpr hr, bind, Except.bind, hopen, Option.isSome_none,
    Bool.false_eq_true, hsession, hboot, or_self, ne_eq, not_true_eq_false, ↓reduceIte, hget]
  cases terminal parse (db.reviseRun id (·.report phase report now)) (r.report phase report now)
    now <;> rfl

/-- The reserve holds in every reachable state, and so a terminal report of an unfinished run
commits: when the envelope of its receipt leaves room for a checkpoint of the largest size, it
is neither too large, nor pushed back, nor sealed out. The one error left is a stream that has
used up its sequence numbers. -/
theorem terminal_receipt_commits (h : Reachable parse (Op.Compact parse) db) :
    db.totals.1 + db.totals.2.1 * maxManagedEventBytes ≤ maxTotalPending ∧
    (∀ s ∈ db.streams, s.isSealed = false →
      s.pendingBytes + maxManagedEventBytes ≤ maxRunPending) ∧
    ∀ (id : String) (r : ManagedRun) (report : Report) (phase : Phase) (now : ℤ),
      db.find id = some r → r.finishedAt = none → Phase.parse report.phase = some phase →
      phase.terminal = true → report.terminal = true →
      replaces report.sessionId r.sessionId = false → replaces report.bootId r.bootId = false →
      (∀ s, db.findStream id = some s → ∃ request hash, parse r.requestJson = some request ∧
        requestHash request = some hash ∧
        (envelope parse (r.report phase report now) hash s.nextEventSeq .receipt).size +
          checkpointFieldBytes + maxCheckpointBytes ≤ maxManagedEventBytes) →
      (∃ db', updateManagedRun parse db id r.epoch report now =
        .ok (db', r.report phase report now)) ∨
      ∃ s, db.findStream id = some s ∧ i64Max ≤ s.nextEventSeq ∧
        updateManagedRun parse db id r.epoch report now =
          .error (.conflict "managed event sequence exhausted") := by
  obtain ⟨hload, hreserved⟩ := h.reserved
  refine ⟨by rw [← load_eq]; exact hload, ?_, ?_⟩
  · intro s hs hunsealed
    exact (hreserved s.runId).room s (h.sound.streams.row_of_mem hs) hunsealed
  intro id r report phase now hr hopen hphase hterminal hflag hsession hboot henvelope
  rw [update_eq hr hopen hphase hterminal hflag hsession hboot]
  obtain rfl := find_key hr
  cases hs : db.findStream r.id with
  | none =>
    have hs' : (db.reviseRun r.id (·.report phase report now)).findStream
        (r.report phase report now).id = none := hs
    exact .inl ⟨_, by rw [terminal_none hs']; rfl⟩
  | some s =>
    obtain ⟨request, hash, hrequest, hhash, hfits⟩ := henvelope s hs
    have hlane := h.lanes r.id
    have hunsealed : s.isSealed = false := by
      rw [Bool.eq_false_iff]
      intro hsealed
      exact (hlane.sealed_iff s r hs hr).mp hsealed hopen
    have hs' : (db.reviseRun r.id (·.report phase report now)).findStream
        (r.report phase report now).id = some s := hs
    obtain ⟨value, hvalue, hterm⟩ := terminal_eq hs' fun text =>
      (hreserved r.id).projection s text hs
    have hsize : (payload parse (r.report phase report now) hash s.nextEventSeq .receipt
        value).size ≤ maxManagedEventBytes := by
      cases value with
      | none =>
        change (envelope parse (r.report phase report now) hash s.nextEventSeq .receipt).size ≤ _
        omega
      | some v =>
        have := hvalue v rfl
        rw [payload_size]
        omega
    have hroom := (hreserved r.id).room s hs hunsealed
    have hperRun : perRun .receipt = maxRunPending := rfl
    rw [hterm, append_eq hs' hunsealed hrequest hhash hsize (by omega)
      (reserve_fits hload hs hunsealed hsize)
      (fun e he => ((hlane.delivers s hs).seq_mem he).2.ne)]
    split
    · exact .inr ⟨s, rfl, by omega, rfl⟩
    · exact .inl ⟨_, rfl⟩

end Receipt

section Limits

variable {parse : String → Option Json} {db : Db}

/-- An event above the limit is refused. -/
theorem append_large {run : ManagedRun} {kind : Kind} {s : ManagedRunEventStream} {request : Json}
    {hash : String} {value : Option Json} {now : ℤ} (hs : db.findStream run.id = some s)
    (hunsealed : s.isSealed = false) (hrequest : parse run.requestJson = some request)
    (hhash : requestHash request = some hash)
    (hsize : maxManagedEventBytes < (payload parse run hash s.nextEventSeq kind value).size) :
    append parse db run kind value now =
      .error (.conflict "managed event exceeds size limit") := by
  rw [append, stream_ok.mpr hs]
  simp only [bind, Except.bind, hunsealed, Bool.false_eq_true, ↓reduceIte, hrequest, hhash]
  rw [if_pos hsize]

/-- A checkpoint that passes its checks is stored with its event. -/
theorem checkpoint_eq {id text : String} {r : ManagedRun} {s : ManagedRunEventStream}
    {value : Json} {offset : ℕ} {now : ℤ} (hr : db.find id = some r)
    (hs : db.findStream id = some s) (hopen : r.finishedAt = none)
    (hsource : s.sourceFailed = false) (hvalue : parse text = some value)
    (htext : text.utf8ByteSize ≤ maxCheckpointBytes) (hoffset : s.sourceOffset < offset)
    (hlarge : offset ≤ i64Max) (hguest : s.guestSeq + 1 ≤ i64Max) :
    appendManagedRunCheckpoint parse db id r.epoch offset (s.guestSeq + 1) text now =
      (append parse db r .checkpoint (some value) now).map
        fun mid => mid.reviseStream id (·.advanced offset (s.guestSeq + 1) text) := by
  rw [appendManagedRunCheckpoint, if_neg (by omega), hvalue, get_ok.mpr hr, stream_ok.mpr hs]
  simp only [bind, Except.bind, hopen, hsource, Option.isSome_none, Bool.false_eq_true]
  rw [if_neg (by simp; omega)]
  cases append parse db r .checkpoint (some value) now <;> rfl

/-- The detail of a run adds its own bytes to an envelope. -/
theorem envelope_detail (parse : String → Option Json) (run : ManagedRun) (detail hash : String)
    (seq : ℕ) (kind : Kind) :
    (envelope parse { run with detail := some detail } hash seq kind).size + 2 =
      (envelope parse { run with detail := some "" } hash seq kind).size +
        (Json.str detail).size := by
  have hempty : (Json.str "").size = 2 := by decide
  have hpublic (text : String) : publicManagedRun parse { run with detail := some text } =
      { publicManagedRun parse run with detail := some text } := by
    simp only [publicManagedRun]
    cases parse run.requestJson with
    | none => rfl
    | some v =>
      cases v with
      | obj fields =>
        simp only
        split <;> rfl
      | _ => rfl
  simp only [envelope, hpublic, Json.size_obj, List.map_cons, List.map_nil, List.sum_cons,
    List.sum_nil, Json.fieldSize, ManagedRun.toJson, Option.map_some, Json.ofOption,
    Option.getD_some, hempty, List.length_cons, List.length_nil]
  omega

/-- A run with a stream, before its first event. -/
def startOps (request : String) : List Op :=
  [.createSandbox { id := "vm", ownerUserId := "u" }, .admission "job" "vm" "u" request 1 100]

/-- A report with a detail of `n` bytes. -/
def failure (n : ℕ) : Report :=
  { phase := "failed", sessionId := none, bootId := none, exitCode := some 1
    detail := some (String.ofList (List.replicate n 'a')), terminal := true }

/-- A delivery without a hash. -/
def unboundRequest : String := "\x7b\"event_delivery\":\x7b\x7d\x7d"

/-- The parser of the sample: a delivery without a request hash. -/
def unboundParse (text : String) : Option Json :=
  if text = unboundRequest then some (.obj [("event_delivery", .obj [])]) else none

/-- The operations of the sample are compact. -/
theorem startOps_compact (parse : String → Option Json) (request : String) :
    Reachable parse (Op.Compact parse) (Op.execAll parse (startOps request) {}) := by
  apply Reachable.empty.execAll
  intro op hop db
  simp only [startOps, List.mem_cons, List.not_mem_nil, or_false] at hop
  rcases hop with rfl | rfl <;> trivial

/-- The run of the sample, before its first report. -/
def sampleRun : ManagedRun := .starting "job" "vm" "u" sampleRequest 1 100

section Large

variable {value : Json} (hvalue : value.size = maxCheckpointBytes)
  (hrequest : parse sampleRequest = some sampleDocument)
  (hrender : parse value.render = some value)

include hrequest in
/-- What a receipt shows of a request depends on that request's text only. -/
theorem sample_envelope {run : ManagedRun} (hrun : run.requestJson = sampleRequest) (seq : ℕ)
    (kind : Kind) : envelope parse run "h" seq kind = envelope sampleParse run "h" seq kind := by
  have hsame : parse run.requestJson = sampleParse run.requestJson := by
    rw [hrun, hrequest]
    rfl
  rw [envelope, envelope, publicManagedRun, publicManagedRun, hsame]

include hrequest in
theorem failure_envelope (n : ℕ) :
    (envelope parse (sampleRun.report .failed (failure n) 3) "h" 2 .receipt).size = 321 + n := by
  have hbase : (envelope sampleParse
      (sampleRun.report .failed { failure 0 with detail := some "" } 3) "h" 2 .receipt).size =
        321 := by
    decide +kernel
  have hdetail := envelope_detail sampleParse
    (sampleRun.report .failed { failure 0 with detail := some "" } 3)
    (String.ofList (List.replicate n 'a')) "h" 2 .receipt
  rw [Json.size_str_replicate] at hdetail
  change _ + 2 = (envelope sampleParse
    (sampleRun.report .failed { failure 0 with detail := some "" } 3) "h" 2 .receipt).size + _
      at hdetail
  rw [hbase] at hdetail
  rw [sample_envelope hrequest rfl]
  exact Nat.add_right_cancel hdetail

include hvalue hrequest hrender in
/-- The largest checkpoint is stored in the stream of a new run. -/
theorem large_checkpoint_stored (hfind : db.find "job" = some sampleRun)
    (hs : db.findStream "job" = some (.fresh "job" (.obj [("request_hash", .str "h")]) 100))
    (hqueue : db.queue "job" = []) (htotals : db.totals = (0, 1, 1)) :
    ∃ db' s, appendManagedRunCheckpoint parse db "job" 1 1 1 value.render 2 = .ok db' ∧
      db'.find "job" = some sampleRun ∧ db'.findStream "job" = some s ∧ s.isSealed = false ∧
      s.sourceFailed = false ∧ s.checkpointJson = some value.render ∧ s.nextEventSeq = 2 := by
  have henvelope : (envelope sampleParse sampleRun "h" 1 .checkpoint).size ≤ 400 := by
    decide +kernel
  have hsize : (payload parse sampleRun "h" 1 .checkpoint (some value)).size ≤
      400 + (14 + 262144) := by
    rw [payload_size, hvalue, sample_envelope hrequest rfl]
    exact Nat.add_le_add_right (Nat.add_le_add_right henvelope _) _
  have hlimit : 400 + (14 + 262144) ≤ maxManagedEventBytes ∧
      400 + (14 + 262144) ≤ perRun .checkpoint ∧
      400 + (14 + 262144) + remainingReserve 1 .checkpoint ≤ maxTotalPending := by decide
  have hcheckpoint : appendManagedRunCheckpoint parse db "job" 1 1 1 value.render 2 = _ :=
    checkpoint_eq hfind hs rfl rfl hrender hvalue.le Nat.zero_lt_one (by decide) (by decide)
  have happend : append parse db sampleRun .checkpoint (some value) 2 = _ :=
    append_eq hs rfl hrequest rfl (hsize.trans hlimit.1)
      (by rw [show ManagedRunEventStream.pendingBytes _ = 0 from rfl, Nat.zero_add]
          exact hsize.trans hlimit.2.1)
      (by rw [htotals, Nat.zero_add]
          exact (Nat.add_le_add_right hsize _).trans hlimit.2.2)
      (by rw [show db.queue sampleRun.id = [] from hqueue]
          simp)
  rw [if_neg (by decide)] at happend
  rw [happend] at hcheckpoint
  have hadvanced (s : ManagedRunEventStream) : (s.advanced 1 1 value.render).runId = s.runId := rfl
  have hstored (s : ManagedRunEventStream) :
      (s.stored (payload parse sampleRun "h" 1 .checkpoint (some value)).size false).runId =
        s.runId := rfl
  refine ⟨_, _, hcheckpoint, hfind,
    (findStream_reviseStream hadvanced).trans ((if_pos rfl).trans
      (congrArg _ ((findStream_reviseStream hstored).trans ((if_pos rfl).trans (congrArg _ hs))))),
    rfl, rfl, rfl, rfl⟩

include hvalue hrequest hrender in
/-- With the largest checkpoint, the final event is refused from a certain detail on. -/
theorem failure_refused {s : ManagedRunEventStream} {n : ℕ} (hfind : db.find "job" = some sampleRun)
    (hs : db.findStream "job" = some s) (hunsealed : s.isSealed = false)
    (hsource : s.sourceFailed = false) (htext : s.checkpointJson = some value.render)
    (hnext : s.nextEventSeq = 2)
    (hn : maxManagedEventBytes < 321 + n + checkpointFieldBytes + maxCheckpointBytes) :
    updateManagedRun parse db "job" 1 (failure n) 3 =
      .error (.conflict "managed event exceeds size limit") := by
  have hs' : (db.reviseRun "job" (·.report .failed (failure n) 3)).findStream
      (sampleRun.report .failed (failure n) 3).id = some s := hs
  have hsize : maxManagedEventBytes < (payload parse (sampleRun.report .failed (failure n) 3) "h"
      s.nextEventSeq .receipt (some value)).size := by
    rw [hnext, payload_size, failure_envelope hrequest, hvalue]
    exact hn
  have hupdate : updateManagedRun parse db "job" 1 (failure n) 3 = _ :=
    update_eq hfind rfl rfl rfl rfl rfl rfl
  rw [hupdate, terminal, hs']
  simp only [hsource, htext, Bool.false_eq_true, ↓reduceIte, hrender]
  rw [append_large hs' hunsealed hrequest rfl hsize]
  rfl

end Large

theorem terminal_receipt_commits_sample :
    (Op.execAll sampleParse (startOps sampleRequest) {}).totals = (0, 1, 1) ∧
    ∃ db', updateManagedRun sampleParse (Op.execAll sampleParse (startOps sampleRequest) {}) "job"
      1 (failure 0) 3 = .ok (db', sampleRun.report .failed (failure 0) 3) := by
  have hfind : (Op.execAll sampleParse (startOps sampleRequest) {}).find "job" =
      some sampleRun := by decide +kernel
  have hstream : (Op.execAll sampleParse (startOps sampleRequest) {}).findStream "job" =
      some (.fresh "job" (.obj [("request_hash", .str "h")]) 100) := by decide +kernel
  refine ⟨by decide +kernel, ?_⟩
  obtain ⟨-, -, hcommits⟩ := terminal_receipt_commits (startOps_compact sampleParse sampleRequest)
  rcases hcommits "job" sampleRun (failure 0) .failed 3 hfind rfl rfl rfl rfl rfl rfl (by
    intro s hs
    obtain rfl := Option.some.inj (hstream.symm.trans hs)
    exact ⟨sampleDocument, "h", rfl, rfl, by decide +kernel⟩) with hok | ⟨s, hs, hnext, -⟩
  · exact hok
  · obtain rfl := Option.some.inj (hstream.symm.trans hs)
    exact absurd hnext (by decide)

/-- A checkpoint of the largest size, and a reader for it and the sample request. -/
def largeCheckpoint : Json := .str (String.ofList (List.replicate 262142 'a'))

/-- The parser of the sample with a checkpoint that fills the reserve. -/
def largeParse (text : String) : Option Json :=
  if text = sampleRequest then some sampleDocument
  else if text = largeCheckpoint.render then some largeCheckpoint
  else none

/-- The large checkpoint is parsed as it is written. -/
theorem largeParse_render : largeParse largeCheckpoint.render = some largeCheckpoint := by
  have hsize : largeCheckpoint.size = maxCheckpointBytes := Json.size_str_replicate 262142
  have hne : largeCheckpoint.render ≠ sampleRequest := by
    intro heq
    rw [Json.size, heq] at hsize
    exact absurd hsize (by decide)
  rw [largeParse, if_neg hne, if_pos rfl]

/-- An envelope that leaves exactly the bytes of a checkpoint is still too large with it: the
field's name takes bytes of its own. And a request whose delivery has no hash never
gets its receipt stored. -/
theorem terminal_receipt_refused :
    (∃ db r s, Reachable largeParse (Op.Compact largeParse) db ∧ db.find "job" = some r ∧
      r.finishedAt = none ∧ db.findStream "job" = some s ∧
      (envelope largeParse (r.report .failed (failure 44735) 3) "h" s.nextEventSeq
        .receipt).size ≤ maxManagedEventBytes - 262144 ∧
      updateManagedRun largeParse db "job" r.epoch (failure 44735) 3 =
        .error (.conflict "managed event exceeds size limit")) ∧
    ∃ (parse : String → Option Json) (db : Db) (r : ManagedRun),
      Reachable parse (Op.Compact parse) db ∧ db.find "job" = some r ∧ r.finishedAt = none ∧
      updateManagedRun parse db "job" r.epoch (failure 0) 3 =
        .error (.conflict "managed event binding missing") := by
  constructor
  · have hvalue : largeCheckpoint.size = maxCheckpointBytes := Json.size_str_replicate 262142
    have hrequest : largeParse sampleRequest = some sampleDocument := if_pos rfl
    have hstart := startOps_compact largeParse sampleRequest
    have hfirst : (Op.execAll largeParse (startOps sampleRequest) {}).find "job" =
        some sampleRun := by decide +kernel
    have hstream : (Op.execAll largeParse (startOps sampleRequest) {}).findStream "job" =
        some (.fresh "job" (.obj [("request_hash", .str "h")]) 100) := by decide +kernel
    have hqueue : (Op.execAll largeParse (startOps sampleRequest) {}).queue "job" = [] := by
      rw [← List.length_eq_zero_iff]
      decide +kernel
    have htotals : (Op.execAll largeParse (startOps sampleRequest) {}).totals = (0, 1, 1) := by
      decide +kernel
    obtain ⟨db, s, hok, hfind, hs, hunsealed, hsource, htext, hnext⟩ :=
      large_checkpoint_stored hvalue hrequest largeParse_render
        hfirst hstream hqueue htotals
    have hcompact : Op.Compact largeParse (Op.execAll largeParse (startOps sampleRequest) {})
        (.checkpoint "job" 1 1 1 largeCheckpoint.render 2) := by
      intro value hv
      rw [largeParse_render] at hv
      rw [Option.some.inj hv]
    have hreach := hstart.step hcompact
    rw [Op.exec, transaction, Op.body, hok] at hreach
    refine ⟨db, _, s, hreach, hfind, rfl, hs, ?_, ?_⟩
    · rw [hnext, failure_envelope hrequest]
      decide
    · exact failure_refused hvalue hrequest largeParse_render hfind hs hunsealed hsource htext
        hnext (by decide)
  · exact ⟨unboundParse, Op.execAll unboundParse (startOps unboundRequest) {},
      .starting "job" "vm" "u" unboundRequest 1 100, startOps_compact _ _, by decide +kernel, rfl,
      eq_error_of_refusal (by decide +kernel)⟩

end Limits

end AgentHouse.Runs
