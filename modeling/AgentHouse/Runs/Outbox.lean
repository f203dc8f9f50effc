import AgentHouse.Runs.Moves

/-!
# The event outbox of managed runs

A stream holds the events between its acknowledged and its next sequence number, in order
and with their bytes counted; the receipt is the event that seals it. `Lane.Ok` is kept by
every move, so it holds after every sequence of operations, and what a single operation may
do to queue and cursor is read off the moves.
-/

namespace AgentHouse.Runs

/-- The kind that an event's document names. -/
def ManagedRunEvent.kind (e : ManagedRunEvent) : Option String :=
  (e.payload.index "kind").asStr

/-- The bytes of an event's stored text. -/
def ManagedRunEvent.bytes (e : ManagedRunEvent) : ℕ :=
  e.payload.render.utf8ByteSize

/-- The states that operations with a property reach from an empty store. -/
inductive Reachable (parse : String → Option Json) (allowed : Db → Op → Prop) : Db → Prop
  | empty : Reachable parse allowed {}
  | step {db : Db} {op : Op} (h : Reachable parse allowed db) (hop : allowed db op) :
      Reachable parse allowed (op.exec parse db).1

/-- The events of a stream with its counters. -/
structure Delivers (s : ManagedRunEventStream) (queue : List ManagedRunEvent) : Prop where
  acked_lt : s.ackedSeq < s.nextEventSeq
  seqs : queue.map (·.seq) = List.range' (s.ackedSeq + 1) (s.nextEventSeq - 1 - s.ackedSeq)
  pending : s.pendingBytes = (queue.map (·.bytes)).sum
  receipt : ∀ e ∈ queue, e.kind = some "receipt" ↔
    s.isSealed = true ∧ e.seq = s.nextEventSeq - 1

/-- A lane without a stream has no events, and a stream is sealed when its run is finished. -/
structure Lane.Ok (l : Lane) : Prop where
  queue_nil : l.stream = none → l.queue = []
  delivers : ∀ s, l.stream = some s → Delivers s l.queue
  sealed_iff : ∀ s r, l.stream = some s → l.run = some r →
    (s.isSealed = true ↔ r.finishedAt ≠ none)

section Reach

variable {parse : String → Option Json} {allowed : Db → Op → Prop} {db : Db}

/-- What committed operations keep holds in every reachable state. -/
theorem Reachable.invariant {P : Db → Prop} (hempty : P {})
    (hstep : ∀ db op db' reply, P db → allowed db op → op.body parse db = .ok (db', reply) → P db')
    (h : Reachable parse allowed db) : P db := by
  induction h with
  | empty => exact hempty
  | @step db op h hop ih =>
    rw [Op.exec, transaction]
    split
    · rename_i db' reply hok
      exact hstep db op db' reply ih hop hok
    · exact ih

theorem Db.Sound.empty : Db.Sound {} :=
  { runs := List.nodup_nil, streams := List.nodup_nil, owned := by simp }

/-- The tables are in order in every reachable store. -/
theorem Reachable.sound (h : Reachable parse allowed db) : db.Sound := by
  apply h.invariant
  · exact .empty
  · intro db op db' reply hsound _ hok
    exact (Op.body_moves hsound hok).1

end Reach

section Kinds

variable {parse : String → Option Json} {run : ManagedRun} {hash : String} {seq : ℕ}

/-- The checkpoint is the first field in key order. -/
theorem setFields_checkpoint (value : Json) {f : String × Json} {rest : List (String × Json)}
    (hf : f.1 = "event_seq") :
    Json.setFields "checkpoint" value (f :: rest) = ("checkpoint", value) :: f :: rest := by
  rw [Json.setFields, hf, if_neg (by decide), if_pos (by decide)]

/-- The payload names the kind of its event. -/
theorem kind_payload (kind : Kind) (value : Option Json) :
    ((payload parse run hash seq kind value).index "kind").asStr = some kind.name := by
  cases value with
  | none => rfl
  | some value =>
    rw [payload, envelope, Json.set, setFields_checkpoint value rfl]
    rfl

/-- And carries its checkpoint. -/
theorem checkpoint_payload (kind : Kind) (value : Json) :
    (payload parse run hash seq kind (some value)).index "checkpoint" = value := by
  rw [payload, envelope, Json.set, setFields_checkpoint value rfl]
  rfl

end Kinds

namespace Delivers

variable {s : ManagedRunEventStream} {queue : List ManagedRunEvent} {e : ManagedRunEvent}

/-- The events of a queue lie between the acknowledged one and the next. -/
theorem seq_mem (h : Delivers s queue) (he : e ∈ queue) :
    s.ackedSeq < e.seq ∧ e.seq < s.nextEventSeq := by
  have hmem : e.seq ∈ queue.map (·.seq) := List.mem_map_of_mem he
  rw [h.seqs, List.mem_range'_1] at hmem
  omega

/-- Their numbers are distinct. -/
theorem nodup (h : Delivers s queue) : (queue.map (·.seq)).Nodup := by
  rw [h.seqs]
  exact List.nodup_range' 1

/-- An event that is stored after the others. -/
theorem append (h : Delivers s queue) {size : ℕ} {final : Bool} (hunsealed : s.isSealed = false)
    (hseq : e.seq = s.nextEventSeq) (hsize : size = e.bytes)
    (hkind : e.kind = some "receipt" ↔ final = true) :
    Delivers (s.stored size final) (queue ++ [e]) where
  acked_lt := Nat.lt_succ_of_lt h.acked_lt
  seqs := by
    have hlt := h.acked_lt
    have hcount : s.nextEventSeq + 1 - 1 - s.ackedSeq = s.nextEventSeq - 1 - s.ackedSeq + 1 := by
      omega
    change _ = List.range' (s.ackedSeq + 1) (s.nextEventSeq + 1 - 1 - s.ackedSeq)
    rw [List.map_append, h.seqs, hcount, List.range'_concat, List.map_singleton, hseq]
    congr 2
    omega
  pending := by
    rw [List.map_append, List.sum_append, ← h.pending, List.map_singleton, List.sum_singleton,
      ← hsize]
    rfl
  receipt := by
    intro t ht
    change _ ↔ final = true ∧ t.seq = s.nextEventSeq + 1 - 1
    rcases List.mem_append.mp ht with ht | ht
    · have hold := h.receipt t ht
      have hrange := h.seq_mem ht
      rw [hunsealed] at hold
      constructor
      · intro hk
        cases (hold.mp hk).1
      · intro hk
        omega
    · rw [List.mem_singleton] at ht
      subst ht
      rw [hkind, hseq]
      simp

/-- The queue starts with the event after the acknowledged ones. -/
theorem head (h : Delivers s queue) (he : e ∈ queue) (hseq : e.seq = s.ackedSeq + 1) :
    ∃ rest, queue = e :: rest ∧ (∀ t ∈ rest, t.seq ≠ e.seq) := by
  cases queue with
  | nil => cases he
  | cons t rest =>
    have hseqs := h.seqs
    have hnodup := h.nodup
    have hlt := h.acked_lt
    have hpos : 0 < s.nextEventSeq - 1 - s.ackedSeq := by
      have := h.seq_mem he
      omega
    obtain ⟨n, hn⟩ := Nat.exists_eq_succ_of_ne_zero hpos.ne'
    rw [hn, List.range'_succ, List.map_cons, List.cons.injEq] at hseqs
    have hte : t.seq = e.seq := hseqs.1.trans hseq.symm
    have heq : t = e := List.inj_on_of_nodup_map hnodup List.mem_cons_self he hte
    subst heq
    refine ⟨rest, rfl, ?_⟩
    intro u hu hue
    rw [List.map_cons, List.nodup_cons] at hnodup
    exact hnodup.1 (List.mem_map.mpr ⟨u, hu, hue⟩)

/-- An acknowledged event is the first. -/
theorem filter_head {rest : List ManagedRunEvent} (hrest : ∀ t ∈ rest, t.seq ≠ e.seq) :
    (e :: rest).filter (fun t => t.seq ≠ e.seq) = rest := by
  rw [List.filter_cons_of_neg (by simp), List.filter_eq_self]
  intro t ht
  simpa using hrest t ht

/-- The first event is acknowledged. -/
theorem acknowledge (h : Delivers s queue) (he : e ∈ queue) (hseq : e.seq = s.ackedSeq + 1) :
    Delivers (s.acked e.seq e.payload.size) (queue.filter fun t => t.seq ≠ e.seq) := by
  obtain ⟨rest, rfl, hrest⟩ := h.head he hseq
  rw [filter_head hrest]
  have hmem := h.seq_mem he
  have hseqs := h.seqs
  have hcount : s.nextEventSeq - 1 - s.ackedSeq = s.nextEventSeq - 1 - e.seq + 1 := by omega
  rw [hcount, List.range'_succ, List.map_cons, List.cons.injEq, ← hseq] at hseqs
  refine { acked_lt := hmem.2, seqs := hseqs.2, pending := ?_, receipt := ?_ }
  · have hpending := h.pending
    rw [List.map_cons, List.sum_cons] at hpending
    change s.pendingBytes - e.payload.size = _
    rw [hpending, ManagedRunEvent.bytes, Json.size]
    omega
  · intro t ht
    exact h.receipt t (List.mem_cons_of_mem _ ht)

/-- A cursor that advances delivers the same. -/
theorem advanced (h : Delivers s queue) {offset guestSeq : ℕ} {text : String} :
    Delivers (s.advanced offset guestSeq text) queue :=
  ⟨h.acked_lt, h.seqs, h.pending, h.receipt⟩

theorem failed (h : Delivers s queue) : Delivers s.failed queue :=
  ⟨h.acked_lt, h.seqs, h.pending, h.receipt⟩

theorem cleared (h : Delivers s queue) : Delivers s.cleared queue :=
  ⟨h.acked_lt, h.seqs, h.pending, h.receipt⟩

end Delivers

section Keep

variable {parse : String → Option Json} {db : Db} {op : Op} {id : String} {l l' : Lane}

/-- A lane whose stream is gone. -/
theorem Lane.Ok.gone {run : Option ManagedRun} :
    Lane.Ok { run := run, stream := none, queue := [] } where
  queue_nil := fun _ => rfl
  delivers := by
    intro s hs
    cases hs
  sealed_iff := by
    intro s r hs
    cases hs

/-- A new receipt keeps a lane whose stream, if any, has the same seal. -/
theorem Lane.Ok.withRun (h : l.Ok) {run : Option ManagedRun}
    (hrun : ∀ s r, l.stream = some s → run = some r → (s.isSealed = true ↔ r.finishedAt ≠ none)) :
    Lane.Ok { l with run := run } :=
  { queue_nil := h.queue_nil, delivers := h.delivers, sealed_iff := hrun }

/-- A stream that changes neither counters nor seal keeps its lane. -/
theorem Lane.Ok.withStream {run : Option ManagedRun} {s : ManagedRunEventStream}
    {queue : List ManagedRunEvent} (h : Delivers s queue)
    (hseal : ∀ r, run = some r → (s.isSealed = true ↔ r.finishedAt ≠ none)) :
    Lane.Ok { run := run, stream := some s, queue := queue } where
  queue_nil := by
    intro hs
    cases hs
  delivers := by
    intro t ht
    obtain rfl := Option.some.inj ht
    exact h
  sealed_iff := by
    intro t r ht
    obtain rfl := Option.some.inj ht
    exact hseal r

/-- Every move keeps the lane in order. -/
theorem Move.ok (h : l.Ok) (hmove : Move parse db op id l l') : l'.Ok := by
  cases hmove with
  | same => exact h
  | admitted hrun hstream hdelivery =>
    rename_i delivery
    cases delivery with
    | none => exact .gone
    | some d =>
      apply Lane.Ok.withStream
      · exact { acked_lt := Nat.zero_lt_one, seqs := rfl, pending := rfl, receipt := by simp }
      · intro r hr
        obtain rfl := Option.some.inj hr
        simp [ManagedRunEventStream.fresh, ManagedRun.starting]
  | claimed hrun hopen =>
    apply h.withRun
    intro s t hs ht
    obtain rfl := Option.some.inj ht
    rw [h.sealed_iff s _ hs hrun]
    rfl
  | updated hrun hopen hepoch hsession hboot hstream =>
    rename_i report r phase
    apply h.withRun
    intro s t hs ht
    obtain rfl := Option.some.inj ht
    have hplain : report.terminal = false := by
      cases hterm : report.terminal with
      | false => rfl
      | true => cases (hstream hterm).symm.trans hs
    rw [h.sealed_iff s r hs hrun, hopen]
    simp [ManagedRun.report, hplain]
  | finished hrun hopen _ _ _ hterminal hstream hunsealed =>
    apply Lane.Ok.withStream
    · apply (h.delivers _ hstream).append hunsealed
      · rfl
      · rfl
      · simp [ManagedRunEvent.kind, kind_payload, Kind.name]
    · intro t ht
      obtain rfl := Option.some.inj ht
      simp [ManagedRunEventStream.stored, ManagedRun.report, hterminal]
  | checkpointed hrun hopen _ hstream hunsealed =>
    apply Lane.Ok.withStream
    · apply Delivers.advanced
      apply (h.delivers _ hstream).append hunsealed
      · rfl
      · rfl
      · simp [ManagedRunEvent.kind, kind_payload, Kind.name]
    · intro t ht
      obtain rfl := Option.some.inj (hrun.symm.trans ht)
      simp [ManagedRunEventStream.stored, ManagedRunEventStream.advanced, hopen]
  | sourceFailed hrun hopen =>
    cases hs : l.stream with
    | none =>
      rw [Option.map_none, ← hs]
      exact h
    | some s => exact .withStream (h.delivers s hs).failed fun t ht => h.sealed_iff s t hs ht
  | acknowledged hstream hseq he heseq hmore =>
    subst heseq
    refine .withStream ((h.delivers _ hstream).acknowledge he hseq) ?_
    intro t ht
    have hseal := h.sealed_iff _ t hstream ht
    exact hseal
  | settled hrun hstream hseq he heseq hsealed hlast =>
    subst heseq
    refine .withStream ((h.delivers _ hstream).acknowledge he hseq).cleared ?_
    intro t ht
    have hseal := h.sealed_iff _ t hstream ht
    exact hseal
  | drained => exact .gone
  | deleted hrun hdoomed =>
    apply h.withRun
    intro s t hs ht
    cases ht
  | cleaned => exact .gone

/-- A complete stream has no event left. -/
theorem Delivers.complete_nil {s : ManagedRunEventStream} {queue : List ManagedRunEvent}
    (h : Delivers s queue) (hc : s.complete = true) : queue = [] := by
  rw [ManagedRunEventStream.complete, Bool.and_eq_true, decide_eq_true_eq] at hc
  rw [List.eq_nil_iff_forall_not_mem]
  intro e he
  have := h.seq_mem he
  omega

/-- An event leaves by its own acknowledgement only. -/
theorem Move.leaves (h : l.Ok) (hmove : Move parse db op id l l') {e : ManagedRunEvent}
    (he : e ∈ l.queue) : e ∈ l'.queue ∨ op = .acknowledge id e.seq := by
  cases hmove with
  | same | claimed | updated | sourceFailed | deleted => exact .inl he
  | finished | checkpointed => exact .inl (List.mem_append_left _ he)
  | admitted hrun hstream hdelivery =>
    rw [h.queue_nil hstream] at he
    cases he
  | acknowledged hstream hseq hmem heseq hmore =>
    rename_i seq _ _
    by_cases hes : e.seq = seq
    · exact .inr (by rw [hes])
    · exact .inl (List.mem_filter.mpr ⟨he, by simpa using hes⟩)
  | settled hrun hstream hseq hmem heseq hsealed hlast =>
    rename_i seq _ _ _
    by_cases hes : e.seq = seq
    · exact .inr (by rw [hes])
    · exact .inl (List.mem_filter.mpr ⟨he, by simpa using hes⟩)
  | drained hrun hstream hseq hsealed hlast =>
    rename_i seq _
    have hrange := (h.delivers _ hstream).seq_mem he
    have hes : e.seq = seq := by omega
    exact .inr (by rw [hes])
  | cleaned hrun hstream hcomplete =>
    rw [(h.delivers _ hstream).complete_nil hcomplete] at he
    cases he

/-- An event that was not there has the next sequence number. -/
theorem Move.arrives (hmove : Move parse db op id l l') {e : ManagedRunEvent}
    (he : e ∈ l'.queue) : e ∈ l.queue ∨ ∃ s, l.stream = some s ∧ e.seq = s.nextEventSeq := by
  cases hmove with
  | same | claimed | updated | sourceFailed | deleted => exact .inl he
  | finished _ _ _ _ _ _ hstream | checkpointed _ _ _ hstream =>
    rcases List.mem_append.mp he with he | he
    · exact .inl he
    · rw [List.mem_singleton] at he
      subst he
      exact .inr ⟨_, hstream, rfl⟩
  | acknowledged | settled => exact .inl (List.mem_of_mem_filter he)
  | admitted | drained | cleaned => cases he

/-- Without a stored checkpoint event the cursor stays; only its projection may be dropped. -/
def CursorStays (s s' : ManagedRunEventStream) (queue queue' : List ManagedRunEvent) : Prop :=
  s'.sourceOffset = s.sourceOffset ∧ s'.guestSeq = s.guestSeq ∧
    (s'.checkpointJson = s.checkpointJson ∨ s'.checkpointJson = none) ∧
    ∀ e ∈ queue', e ∉ queue → e.kind ≠ some "checkpoint"

/-- The cursor and the event of one checkpoint, stored together. -/
def CursorAdvances (parse : String → Option Json) (s s' : ManagedRunEventStream)
    (queue queue' : List ManagedRunEvent) : Prop :=
  s.sourceOffset < s'.sourceOffset ∧ s'.guestSeq = s.guestSeq + 1 ∧
    ∃ text value e, s'.checkpointJson = some text ∧ parse text = some value ∧
      queue' = queue ++ [e] ∧ e.seq = s.nextEventSeq ∧ e.kind = some "checkpoint" ∧
      e.payload.index "checkpoint" = value

/-- A move leaves the cursor, or advances it with an event. -/
theorem Move.cursor (hmove : Move parse db op id l l') {s s' : ManagedRunEventStream}
    (hs : l.stream = some s) (hs' : l'.stream = some s') :
    CursorStays s s' l.queue l'.queue ∨ CursorAdvances parse s s' l.queue l'.queue := by
  cases hmove with
  | same | claimed | updated | deleted =>
    obtain rfl := Option.some.inj (hs.symm.trans hs')
    exact .inl ⟨rfl, rfl, .inl rfl, fun e he hn => absurd he hn⟩
  | admitted hrun hstream => cases hstream.symm.trans hs
  | finished _ _ _ _ _ _ hstream =>
    obtain rfl := Option.some.inj (hs.symm.trans hstream)
    obtain rfl := Option.some.inj hs'
    refine .inl ⟨rfl, rfl, .inl rfl, ?_⟩
    intro e he hn
    rcases List.mem_append.mp he with he | he
    · exact absurd he hn
    · rw [List.mem_singleton] at he
      subst he
      simp [ManagedRunEvent.kind, kind_payload, Kind.name]
  | checkpointed hrun hopen hepoch hstream hunsealed hparse hsize hoffset hguest =>
    obtain rfl := Option.some.inj (hs.symm.trans hstream)
    obtain rfl := Option.some.inj hs'
    refine .inr ⟨hoffset, hguest, _, _, _, rfl, hparse, rfl, rfl, ?_, ?_⟩
    · simp [ManagedRunEvent.kind, kind_payload, Kind.name]
    · exact checkpoint_payload _ _
  | sourceFailed =>
    rw [hs] at hs'
    obtain rfl := Option.some.inj hs'
    exact .inl ⟨rfl, rfl, .inr rfl, fun e he hn => absurd he hn⟩
  | acknowledged hstream =>
    obtain rfl := Option.some.inj (hs.symm.trans hstream)
    obtain rfl := Option.some.inj hs'
    exact .inl ⟨rfl, rfl, .inl rfl, fun e he hn => absurd (List.mem_of_mem_filter he) hn⟩
  | settled hrun hstream =>
    obtain rfl := Option.some.inj (hs.symm.trans hstream)
    obtain rfl := Option.some.inj hs'
    exact .inl ⟨rfl, rfl, .inr rfl, fun e he hn => absurd (List.mem_of_mem_filter he) hn⟩
  | drained | cleaned => cases hs'

/-- A sealed stream stays sealed and stores no further event. -/
theorem Move.stays_sealed (hmove : Move parse db op id l l') {s s' : ManagedRunEventStream}
    (hs : l.stream = some s) (hs' : l'.stream = some s') (hsealed : s.isSealed = true) :
    s'.isSealed = true ∧ s'.nextEventSeq = s.nextEventSeq := by
  cases hmove with
  | same | claimed | updated | deleted =>
    obtain rfl := Option.some.inj (hs.symm.trans hs')
    exact ⟨hsealed, rfl⟩
  | admitted hrun hstream => cases hstream.symm.trans hs
  | finished _ _ _ _ _ _ hstream hunsealed | checkpointed _ _ _ hstream hunsealed =>
    obtain rfl := Option.some.inj (hs.symm.trans hstream)
    rw [hsealed] at hunsealed
    cases hunsealed
  | sourceFailed =>
    rw [hs] at hs'
    obtain rfl := Option.some.inj hs'
    exact ⟨hsealed, rfl⟩
  | acknowledged hstream | settled _ hstream =>
    obtain rfl := Option.some.inj (hs.symm.trans hstream)
    obtain rfl := Option.some.inj hs'
    exact ⟨hsealed, rfl⟩
  | drained | cleaned => cases hs'

/-- A stream that appears is new. -/
theorem Move.starts (hmove : Move parse db op id l l') {s' : ManagedRunEventStream}
    (hs : l.stream = none) (hs' : l'.stream = some s') :
    l'.queue = [] ∧ s'.sourceOffset = 0 ∧ s'.guestSeq = 0 ∧ s'.checkpointJson = none := by
  cases hmove with
  | same | claimed | updated | deleted => cases hs.symm.trans hs'
  | admitted =>
    obtain ⟨d, -, rfl⟩ := Option.map_eq_some_iff.mp hs'
    exact ⟨rfl, rfl, rfl, rfl⟩
  | finished _ _ _ _ _ _ hstream | checkpointed _ _ _ hstream => cases hs.symm.trans hstream
  | sourceFailed =>
    rw [hs] at hs'
    cases hs'
  | acknowledged hstream | settled _ hstream => cases hs.symm.trans hstream
  | drained | cleaned => cases hs'

end Keep

section Runs

variable {parse : String → Option Json} {allowed : Db → Op → Prop} {db : Db}

/-- Every lane is in order in every reachable store. -/
theorem Reachable.lanes (h : Reachable parse allowed db) (id : String) : (db.lane id).Ok := by
  have hall : db.Sound ∧ ∀ id, (db.lane id).Ok := by
    apply h.invariant
    · exact ⟨.empty, fun _ => .gone⟩
    · intro db op db' reply ⟨hsound, hlanes⟩ _ hok
      obtain ⟨hsound', hmoves⟩ := Op.body_moves hsound hok
      exact ⟨hsound', fun id => (hmoves id).ok (hlanes id)⟩
  exact hall.2 id

/-- An operation moves every lane, a refused one by nothing. -/
theorem Reachable.moves (h : Reachable parse allowed db) (op : Op) (id : String) :
    Move parse db op id (db.lane id) ((op.exec parse db).1.lane id) := by
  rw [Op.exec, transaction]
  split
  · rename_i db' reply hok
    exact (Op.body_moves h.sound hok).2 id
  · exact .same _ _ _

/-- An acknowledgement that is accepted for the first time takes the first event away, with its
bytes. -/
theorem Reachable.acknowledges (h : Reachable parse allowed db) {id : String}
    {s : ManagedRunEventStream} {seq : ℕ} {reply : Reply} (hs : db.findStream id = some s)
    (hnew : s.ackedSeq < seq)
    (hok : ((Op.acknowledge id seq).exec parse db).2 = .ok reply) :
    seq = s.ackedSeq + 1 ∧ ∃ e ∈ db.queue id, e.seq = seq ∧
      ((Op.acknowledge id seq).exec parse db).1.queue id =
        (db.queue id).filter (fun t => t.seq ≠ seq) ∧
      ∀ s', ((Op.acknowledge id seq).exec parse db).1.findStream id = some s' →
        s'.ackedSeq = seq ∧ s'.pendingBytes + e.bytes = s.pendingBytes := by
  cases hbody : (Op.acknowledge id seq).body parse db with
  | error e =>
    rw [Op.exec, transaction, hbody] at hok
    cases hok
  | ok result =>
    obtain ⟨db', reply'⟩ := result
    rw [Op.exec, transaction, hbody]
    obtain ⟨db₁, hack, hrest⟩ := bind_ok hbody
    obtain ⟨rfl, -⟩ := Prod.mk.inj (Except.ok.inj hrest)
    have hdelivers := (h.lanes id).delivers s hs
    rcases acknowledge_ok hack with ⟨-, t, ht, hold⟩ | ⟨t, e, ht, hseq, he, rfl, hcases⟩
    · obtain rfl := Option.some.inj (hs.symm.trans ht)
      omega
    obtain rfl := Option.some.inj (hs.symm.trans ht)
    obtain rfl := queue_runId he
    have hbytes : (s.acked e.seq e.payload.size).pendingBytes + e.bytes = s.pendingBytes := by
      obtain ⟨rest, hqueue, -⟩ := hdelivers.head he hseq
      have hpending := hdelivers.pending
      rw [hqueue, List.map_cons, List.sum_cons] at hpending
      change s.pendingBytes - e.payload.size + e.bytes = s.pendingBytes
      rw [hpending, ManagedRunEvent.bytes, Json.size]
      omega
    refine ⟨hseq, e, he, rfl, ?_⟩
    rcases hcases with ⟨hfinal, rfl⟩ | ⟨-, rfl⟩
    · have hlane := h.sound.lane_settled hs e.runId
      rw [if_pos rfl] at hlane
      split at hlane
      · -- The final event was the only one, and the stream goes with it.
        have hafter := (hdelivers.acknowledge he hseq).seqs
        have hnone : (s.acked e.seq e.payload.size).nextEventSeq - 1 - e.seq = 0 := by
          change s.nextEventSeq - 1 - e.seq = 0
          omega
        rw [show (s.acked e.seq e.payload.size).ackedSeq = e.seq from rfl, hnone, List.range'_zero,
          List.map_eq_nil_iff] at hafter
        refine ⟨(congrArg Lane.queue hlane).trans hafter.symm, fun s' hs' => ?_⟩
        cases (congrArg Lane.stream hlane).symm.trans hs'
      · refine ⟨congrArg Lane.queue hlane, fun s' hs' => ?_⟩
        obtain rfl := Option.some.inj ((congrArg Lane.stream hlane).symm.trans hs')
        exact ⟨rfl, hbytes⟩
    · have hlane := lane_acknowledged hs e.runId
      rw [if_pos rfl] at hlane
      refine ⟨congrArg Lane.queue hlane, fun s' hs' => ?_⟩
      obtain rfl := Option.some.inj ((congrArg Lane.stream hlane).symm.trans hs')
      exact ⟨rfl, hbytes⟩

/-- The outbox over every sequence of operations. In every state, a stream holds exactly the
events after its acknowledged one up to its next, with their bytes counted, and an event is
a receipt just when it is the last of a sealed stream. In every step, an event leaves by its own
acknowledgement only, which takes it away with its bytes; no row changes, a sealed stream takes
nothing more, the cursor moves with its checkpoint event or not at all, and a refused operation
changes nothing. -/
theorem managed_run_event_outbox (h : Reachable parse (fun _ _ => True) db) (id : String) :
    (db.findStream id = none → db.queue id = []) ∧
    (∀ s, db.findStream id = some s →
      s.ackedSeq < s.nextEventSeq ∧
      (db.queue id).map (·.seq) =
        List.range' (s.ackedSeq + 1) (s.nextEventSeq - 1 - s.ackedSeq) ∧
      s.pendingBytes = ((db.queue id).map (·.bytes)).sum ∧
      ∀ e ∈ db.queue id, e.kind = some "receipt" ↔
        s.isSealed = true ∧ e.seq = s.nextEventSeq - 1) ∧
    ∀ op : Op,
      (∀ e ∈ db.queue id, e ∈ (op.exec parse db).1.queue id ∨ op = .acknowledge id e.seq) ∧
      (∀ e ∈ db.queue id, ∀ e' ∈ (op.exec parse db).1.queue id, e'.seq = e.seq → e' = e) ∧
      (∀ s s', db.findStream id = some s → (op.exec parse db).1.findStream id = some s' →
        (s.isSealed = true → s'.isSealed = true ∧ s'.nextEventSeq = s.nextEventSeq) ∧
        (CursorStays s s' (db.queue id) ((op.exec parse db).1.queue id) ∨
          CursorAdvances parse s s' (db.queue id) ((op.exec parse db).1.queue id))) ∧
      (∀ s', db.findStream id = none → (op.exec parse db).1.findStream id = some s' →
        (op.exec parse db).1.queue id = [] ∧ s'.sourceOffset = 0 ∧ s'.guestSeq = 0 ∧
          s'.checkpointJson = none) ∧
      (∀ error, (op.exec parse db).2 = .error error → (op.exec parse db).1 = db) ∧
      ∀ s seq reply, db.findStream id = some s → op = .acknowledge id seq → s.ackedSeq < seq →
        (op.exec parse db).2 = .ok reply →
        seq = s.ackedSeq + 1 ∧ ∃ e ∈ db.queue id, e.seq = seq ∧
          (op.exec parse db).1.queue id = (db.queue id).filter (fun t => t.seq ≠ seq) ∧
          ∀ s', (op.exec parse db).1.findStream id = some s' →
            s'.ackedSeq = seq ∧ s'.pendingBytes + e.bytes = s.pendingBytes := by
  have hlane := h.lanes id
  refine ⟨hlane.queue_nil, ?_, ?_⟩
  · intro s hs
    have hdelivers := hlane.delivers s hs
    exact ⟨hdelivers.acked_lt, hdelivers.seqs, hdelivers.pending, hdelivers.receipt⟩
  intro op
  have hmove := h.moves op id
  refine ⟨fun e he => hmove.leaves hlane he, ?_, ?_, ?_, ?_, ?_⟩
  · intro e he e' he' hseq
    cases hs : db.findStream id with
    | none =>
      have hnil : db.queue id = [] := hlane.queue_nil hs
      rw [hnil] at he
      cases he
    | some s =>
      have hdelivers := hlane.delivers s hs
      rcases hmove.arrives he' with hold | ⟨t, ht, hnew⟩
      · exact List.inj_on_of_nodup_map hdelivers.nodup hold he hseq
      · obtain rfl : s = t := Option.some.inj (hs.symm.trans ht)
        have hrange := hdelivers.seq_mem he
        omega
  · intro s s' hs hs'
    exact ⟨hmove.stays_sealed hs hs', hmove.cursor hs hs'⟩
  · intro s' hs hs'
    exact hmove.starts hs hs'
  · intro error herror
    rw [Op.exec, transaction] at herror ⊢
    split at herror
    · cases herror
    · rfl
  · rintro s seq reply hs rfl hnew hok
    exact h.acknowledges hs hnew hok

/-- A refused operation changes nothing. -/
theorem exec_refused {op : Op} {e : Error} (h : op.body parse db = .error e) :
    op.exec parse db = (db, .error e) := by
  rw [Op.exec, transaction, h]

/-- The states after a list of operations. -/
def Op.execAll (parse : String → Option Json) (ops : List Op) (db : Db) : Db :=
  ops.foldl (fun db op => (op.exec parse db).1) db

/-- By induction on the operations, a list of them leads to a reachable store. -/
theorem Reachable.execAll (h : Reachable parse allowed db) {ops : List Op}
    (hops : ∀ op ∈ ops, ∀ db, allowed db op) :
    Reachable parse allowed (Op.execAll parse ops db) := by
  induction ops generalizing db with
  | nil => exact h
  | cons op rest ih =>
    exact ih (h.step (hops op List.mem_cons_self db)) fun op hop =>
      hops op (List.mem_cons_of_mem _ hop)

end Runs

section Sample

/-- The refusal of an operation, read off its outcome. -/
def refusal {α : Type} : Result α → Option Error
  | .error e => some e
  | .ok _ => none

theorem eq_error_of_refusal {α : Type} {x : Result α} {e : Error} (h : refusal x = some e) :
    x = .error e := by
  cases x with
  | error e' => rw [Option.some.inj h]
  | ok a => cases h

/-- A request with a bound event delivery, and its text. -/
def sampleDocument : Json := .obj [("event_delivery", .obj [("request_hash", .str "h")])]

/-- The request of the sample. -/
def sampleRequest : String := "\x7b\"event_delivery\":\x7b\"request_hash\":\"h\"\x7d\x7d"

/-- Reads the texts of the sample. -/
def sampleParse (text : String) : Option Json :=
  if text = sampleRequest then some sampleDocument
  else if text = "\x7b\x7d" then some (.obj [])
  else none

/-- A run that stored one checkpoint and finished. -/
def sampleOps : List Op :=
  [.createSandbox { id := "vm", ownerUserId := "u" },
    .admission "job" "vm" "u" sampleRequest 1 100,
    .checkpoint "job" 1 10 1 "\x7b\x7d" 2,
    .update "job" 1 { phase := "succeeded", sessionId := none, bootId := none, exitCode := some 0
                      detail := none, terminal := true } 3]

/-- It has two events, and the first of them is acknowledged. -/
theorem managed_run_event_outbox_sample :
    ∃ s, (Op.execAll sampleParse sampleOps {}).findStream "job" = some s ∧ s.nextEventSeq = 3 ∧
      s.isSealed = true ∧
      ((Op.execAll sampleParse sampleOps {}).queue "job").map (·.seq) =
        List.range' (s.ackedSeq + 1) (s.nextEventSeq - 1 - s.ackedSeq) ∧
      ∃ e ∈ (Op.execAll sampleParse sampleOps {}).queue "job", ∃ s',
        ((Op.acknowledge "job" 1).exec sampleParse
          (Op.execAll sampleParse sampleOps {})).1.findStream
          "job" = some s' ∧ s'.ackedSeq = 1 ∧ s'.pendingBytes + e.bytes = s.pendingBytes := by
  have hreach : Reachable sampleParse (fun _ _ => True) (Op.execAll sampleParse sampleOps {}) :=
    Reachable.empty.execAll fun _ _ _ => trivial
  have hstream : ((Op.execAll sampleParse sampleOps {}).findStream "job").any
      (fun s => s.nextEventSeq = 3 ∧ s.isSealed = true ∧ s.ackedSeq < 1) = true := by
    decide +kernel
  obtain ⟨s, hs, hsealed⟩ := (Option.any_eq_true _ _).mp hstream
  obtain ⟨hnext, hsealed, hacked⟩ : s.nextEventSeq = 3 ∧ s.isSealed = true ∧ s.ackedSeq < 1 := by
    simpa using hsealed
  have haccepted : refusal ((Op.acknowledge "job" 1).exec sampleParse
      (Op.execAll sampleParse sampleOps {})).2 = none := by
    decide +kernel
  have hafter : (((Op.acknowledge "job" 1).exec sampleParse
      (Op.execAll sampleParse sampleOps {})).1.findStream "job").isSome = true := by
    decide +kernel
  obtain ⟨s', hs'⟩ := Option.isSome_iff_exists.mp hafter
  obtain ⟨-, hstate, hsteps⟩ := managed_run_event_outbox hreach "job"
  refine ⟨s, hs, hnext, hsealed, (hstate s hs).2.1, ?_⟩
  cases hreply : ((Op.acknowledge "job" 1).exec sampleParse
      (Op.execAll sampleParse sampleOps {})).2 with
  | error e =>
    rw [hreply] at haccepted
    cases haccepted
  | ok reply =>
    obtain ⟨-, e, he, -, -, hmoved⟩ :=
      (hsteps (.acknowledge "job" 1)).2.2.2.2.2 s 1 reply hs rfl hacked hreply
    exact ⟨e, he, s', hs', hmoved s' hs'⟩

end Sample

end AgentHouse.Runs
