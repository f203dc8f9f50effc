import AgentHouse.Runs.Capture

/-!
# The cursor follows the lines

The persisted cursor of a stream stands behind complete lines of the journal, and what is stored
for them is the fold of these lines. Everything is derived from what one step keeps.
-/

namespace AgentHouse.Runs

variable {parse : String → Option Json} {reads : List UInt8 → Option Json} {id : String}

/-- One line is read against the last checkpoint and becomes the next one. -/
def Takes (parse : String → Option Json) (reads : List UInt8 → Option Json) (run : ManagedRun)
    (hash : String) (s : Source) (p : List UInt8 × String) (s' : Source) : Prop :=
  ∃ checkpoint, guestRecord parse reads p.1.dropLast s run hash = some (s'.guestSeq, checkpoint) ∧
    p.2 = checkpoint.render ∧ s'.checkpointJson = some p.2

/-- What of a stream a record is read against. -/
def ManagedRunEventStream.source (s : ManagedRunEventStream) : Source :=
  ⟨s.guestSeq, s.checkpointJson⟩

/-- The run is that of the row, and its guest has booted. -/
structure Db.Bound (parse : String → Option Json) (db : Db) (id : String) (run : ManagedRun)
    (hash : String) : Prop where
  runId : run.id = id
  booted : run.bootId ≠ none
  row : ∀ r, db.find id = some r → r.bootId = run.bootId ∧ grant parse r = some hash

/-- The stream is open for checkpoints, at an offset. -/
def Db.Open (db : Db) (id : String) (offset : ℕ) : Prop :=
  ∃ s, db.findStream id = some s ∧ s.sourceFailed = false ∧ s.isSealed = false ∧
    s.sourceOffset = offset

/-- What others do to a stream. -/
structure ManagedRunEventStream.Kept (s s' : ManagedRunEventStream) : Prop where
  offset : s'.sourceOffset = s.sourceOffset
  guestSeq : s'.guestSeq = s.guestSeq
  failed : s'.sourceFailed = s.sourceFailed
  unsealed : s'.isSealed = false → s.isSealed = false ∧ s'.checkpointJson = s.checkpointJson

theorem ManagedRunEventStream.Kept.refl (s : ManagedRunEventStream) : s.Kept s :=
  ⟨rfl, rfl, rfl, fun h => ⟨h, rfl⟩⟩

section Others

variable {db : Db} {op : Op} {busy : Bool}

/-- What others do to the lane of the run. -/
theorem move_of_exec (parse : String → Option Json) (id : String) (h : db.Sound) (op : Op) :
    (op.exec parse db).1.Sound ∧
      Move parse db op id (db.lane id) ((op.exec parse db).1.lane id) := by
  unfold Op.exec transaction
  cases hbody : op.body parse db with
  | error e => exact ⟨h, .same op id _⟩
  | ok p =>
    obtain ⟨hsound, hmoves⟩ := Op.body_moves h hbody
    exact ⟨hsound, hmoves id⟩

/-- A stream after a call of others was there before. -/
theorem stream_kept (h : db.Sound) (hother : op.excluded id busy = false)
    {s' : ManagedRunEventStream} (hs' : (op.exec parse db).1.findStream id = some s') :
    ∃ s, db.findStream id = some s ∧ s.Kept s' := by
  obtain ⟨-, hmove⟩ := move_of_exec parse id h op
  have hs' : ((op.exec parse db).1.lane id).stream = some s' := hs'
  generalize hl : db.lane id = l at hmove
  generalize (op.exec parse db).1.lane id = l' at hmove hs'
  have hstream {s : ManagedRunEventStream} (hs : l.stream = some s) :
    db.findStream id = some s := by
    rw [← hl] at hs
    exact hs
  cases hmove with
  | same => exact ⟨s', hstream hs', .refl s'⟩
  | claimed | updated | deleted => exact ⟨s', hstream hs', .refl s'⟩
  | admitted | checkpointed | sourceFailed => simp [Op.excluded] at hother
  | finished _ _ _ _ _ _ hs hunsealed =>
    obtain rfl := Option.some.inj hs'
    exact ⟨_, hstream hs, rfl, rfl, rfl, fun hopen => by cases hopen⟩
  | acknowledged hs =>
    obtain rfl := Option.some.inj hs'
    exact ⟨_, hstream hs, rfl, rfl, rfl, fun hopen => ⟨hopen, rfl⟩⟩
  | settled _ hs _ _ _ hsealed =>
    obtain rfl := Option.some.inj hs'
    refine ⟨_, hstream hs, rfl, rfl, rfl, fun hopen => ?_⟩
    cases hsealed.symm.trans hopen
  | drained | cleaned => cases hs'

/-- During a capture the stream stays open. -/
theorem open_kept (h : db.Sound) (hother : op.excluded id true = false) {offset : ℕ}
    (hopen : db.Open id offset) : (op.exec parse db).1.Open id offset := by
  obtain ⟨s, hs, hfailed, hsealed, hoffset⟩ := hopen
  obtain ⟨-, hmove⟩ := move_of_exec parse id h op
  have hs : (db.lane id).stream = some s := hs
  have hgoal {s' : ManagedRunEventStream} (hs' : ((op.exec parse db).1.lane id).stream = some s')
      (hsealed' : s'.isSealed = false) : (op.exec parse db).1.Open id offset := by
    obtain ⟨s₀, hs₀, hkept⟩ := stream_kept h hother hs'
    obtain rfl := Option.some.inj (hs.symm.trans hs₀)
    exact ⟨s', hs', hkept.failed.trans hfailed, hsealed', hkept.offset.trans hoffset⟩
  generalize db.lane id = l at hmove hs
  generalize (op.exec parse db).1.lane id = l' at hmove hgoal
  cases hmove with
  | same => exact hgoal hs hsealed
  | deleted => exact hgoal hs hsealed
  | admitted | checkpointed | sourceFailed | claimed | updated | finished =>
    simp [Op.excluded] at hother
  | acknowledged hs' =>
    obtain rfl := Option.some.inj (hs.symm.trans hs')
    exact hgoal rfl hsealed
  | settled _ hs' _ _ _ hsealed' | drained _ hs' _ hsealed' =>
    obtain rfl := Option.some.inj (hs.symm.trans hs')
    cases hsealed.symm.trans hsealed'
  | cleaned _ hs' hcomplete =>
    obtain rfl := Option.some.inj (hs.symm.trans hs')
    rw [ManagedRunEventStream.complete, hsealed] at hcomplete
    cases hcomplete

/-- The identity of the run stays. -/
theorem Db.Bound.kept {run : ManagedRun} {hash : String} (hbound : db.Bound parse id run hash)
    (h : db.Sound) (hother : op.excluded id busy = false) :
      (op.exec parse db).1.Bound parse id run hash := by
  refine ⟨hbound.runId, hbound.booted, fun r' hr' => ?_⟩
  obtain ⟨-, hmove⟩ := move_of_exec parse id h op
  have hr' : ((op.exec parse db).1.lane id).run = some r' := hr'
  obtain ⟨r, hr, -, hrequest, -⟩ | ⟨-, _, _, _, _, _, rfl, -⟩ := hmove.origin hr'
  · obtain ⟨hboot, hgrant⟩ := hbound.row r hr
    obtain ⟨b, hb⟩ := Option.ne_none_iff_exists'.mp hbound.booted
    refine ⟨?_, ?_⟩
    · rw [hb]
      exact (hmove.follows hr hr').boot b (hboot.trans hb)
    · rw [← hgrant, grant, grant, hrequest]
  · simp [Op.excluded] at hother

end Others

/-- A chunk of the journal. -/
structure Chunk.Ok (c : Chunk) (journal : List UInt8) : Prop where
  offset : c.offset ≤ journal.length
  data : ∃ rest, journal.drop c.offset = c.data ++ rest
  nonempty : c.data ≠ []
  small : c.data.length ≤ maxGuestLine
  full : c.eof = false → c.data.length = maxGuestLine
  within : c.offset + c.data.length ≤ maxGuestJournal
  consumed : c.consumed ≤ c.data.length

/-- A chunk stays one when the journal grows. -/
theorem Chunk.Ok.grow {c : Chunk} {journal : List UInt8} (h : c.Ok journal) (bytes : List UInt8) :
    c.Ok (journal ++ bytes) := by
  refine ⟨?_, ?_, h.nonempty, h.small, h.full, h.within, h.consumed⟩
  · rw [List.length_append]
    exact h.offset.trans (Nat.le_add_right _ _)
  · obtain ⟨rest, hrest⟩ := h.data
    refine ⟨rest ++ bytes, ?_⟩
    rw [List.drop_append_of_le_length h.offset, hrest, List.append_assoc]

namespace Node

/-- The journal, empty as long as there is none. -/
def text (n : Node) : List UInt8 := n.journal.getD []

/-- The lines that are stored. -/
def takenLines (n : Node) : List (List UInt8) := n.taken.map Prod.fst

/-- A line is read and about to be stored. -/
structure Recorded (parse : String → Option Json) (reads : List UInt8 → Option Json) (id : String)
    (n : Node) (c : Capture) (chunk : Chunk) (line : List UInt8) (seq : ℕ) (text : String) :
    Prop where
  bound : n.db.Bound parse id c.run c.requestHash
  read : chunk.Ok n.text
  complete : Lines.Complete newline line
  before : ∃ before after, chunk.consumed = before + line.length ∧
    n.db.Open id (chunk.offset + before) ∧ chunk.data.drop before = line ++ after
  takes : ∀ s, n.db.findStream id = some s → ∃ checkpoint,
    guestRecord parse reads line.dropLast s.source c.run c.requestHash = some (seq, checkpoint) ∧
      text = checkpoint.render

/-- What holds where a capture is. -/
def Holds (parse : String → Option Json) (reads : List UInt8 → Option Json) (id : String) (n : Node)
    (c : Capture) : Pc → Prop
  | .top => n.db.Bound parse id c.run c.requestHash
  | .opened source =>
      n.db.Bound parse id c.run c.requestHash ∧ n.db.Open id source.sourceOffset ∧
        source.sourceOffset ≤ maxGuestJournal
  | .lines chunk =>
      n.db.Bound parse id c.run c.requestHash ∧ n.db.Open id (chunk.offset + chunk.consumed) ∧
        chunk.Ok n.text
  | .record chunk line seq text => n.Recorded parse reads id c chunk line seq text
  | .failing _ | .done _ => True

/-- The cursor of the stream stands behind the stored lines, with the checkpoint of the last. -/
structure At (n : Node) (source : Source) (s : ManagedRunEventStream) : Prop where
  offset : s.sourceOffset = n.takenLines.flatten.length
  guestSeq : s.guestSeq = source.guestSeq
  checkpoint : s.sourceFailed = false → s.isSealed = false →
    s.checkpointJson = source.checkpointJson

/-- The stored lines are folded to a source. -/
inductive Folded (parse : String → Option Json) (reads : List UInt8 → Option Json) (id : String)
    (n : Node) : Source → Prop
  | nil (htaken : n.taken = []) : Folded parse reads id n {}
  | run {run : ManagedRun} {hash : String} {source : Source} (hbound : n.db.Bound parse id run hash)
      (htrace : Trace (Takes parse reads run hash) {} n.taken source) :
      Folded parse reads id n source

/-- The invariant of a run's stream: what was stored is what the guest wrote. -/
structure Inv (parse : String → Option Json) (reads : List UInt8 → Option Json) (id : String)
    (n : Node) : Prop where
  sound : n.db.Sound
  journal : ∃ rest, n.text = n.takenLines.flatten ++ rest
  complete : ∀ p ∈ n.taken, Lines.Complete newline p.1
  folded : ∃ source, n.Folded parse reads id source ∧
    ∀ s, n.db.findStream id = some s → n.At source s
  runId : ∀ c, n.capture = some c → c.run.id = id
  capture : ∀ c, n.capture = some c → n.Holds parse reads id c c.pc

section Others

variable {n : Node} {c : Capture} {source : Source}

/-- What was folded stays folded. -/
theorem Folded.mono {n' : Node} (h : n.Folded parse reads id source) (htaken : n'.taken = n.taken)
    (hbound : ∀ run hash, n.db.Bound parse id run hash → n'.db.Bound parse id run hash) :
    n'.Folded parse reads id source := by
  cases h with
  | nil hnil => exact .nil (htaken.trans hnil)
  | run hbound' htrace => exact .run (hbound _ _ hbound') (htaken ▸ htrace)

/-- Where a capture is depends on the store and the journal. -/
theorem Holds.mono {n' : Node} {pc : Pc} (h : n.Holds parse reads id c pc) (hdb : n'.db = n.db)
    (htext : n'.text = n.text) : n'.Holds parse reads id c pc := by
  cases pc with
  | record chunk line seq text =>
    refine ⟨?_, ?_, h.complete, ?_, ?_⟩
    · exact hdb ▸ h.bound
    · exact htext ▸ h.read
    · exact hdb ▸ h.before
    · exact hdb ▸ h.takes
  | top =>
    rw [Holds, hdb]
    exact h
  | opened source =>
    rw [Holds, hdb]
    exact h
  | lines chunk =>
    refine ⟨hdb ▸ h.1, hdb ▸ h.2.1, ?_⟩
    rw [htext]
    exact h.2.2
  | failing | done => trivial

/-- A call of others. -/
theorem Holds.store (h : n.Holds parse reads id c c.pc) (hsound : n.db.Sound) {op : Op}
    (hother : op.excluded id true = false) :
    Holds parse reads id { n with db := (op.exec parse n.db).1 } c c.pc := by
  have hrow {run : ManagedRun} {hash : String} (hb : n.db.Bound parse id run hash) :
      (op.exec parse n.db).1.Bound parse id run hash := hb.kept hsound hother
  have hopen {offset : ℕ} (ho : n.db.Open id offset) : (op.exec parse n.db).1.Open id offset :=
    open_kept hsound hother ho
  cases hpc : c.pc with
  | top =>
    rw [hpc] at h
    exact hrow h
  | opened source =>
    rw [hpc] at h
    exact ⟨hrow h.1, hopen h.2.1, h.2.2⟩
  | lines chunk =>
    rw [hpc] at h
    exact ⟨hrow h.1, hopen h.2.1, h.2.2⟩
  | record chunk line seq text =>
    rw [hpc] at h
    obtain ⟨before, after, hconsumed, ho, hline⟩ := h.before
    refine ⟨hrow h.bound, h.read, h.complete, ⟨before, after, hconsumed, hopen ho, hline⟩, ?_⟩
    intro s' hs'
    obtain ⟨s, hs, hkept⟩ := stream_kept hsound hother hs'
    obtain ⟨t, ht, _, hsealed, _⟩ := hopen ho
    obtain rfl := Option.some.inj (hs'.symm.trans ht)
    have hsource : s'.source = s.source := by
      rw [ManagedRunEventStream.source, hkept.guestSeq, (hkept.unsealed hsealed).2]
      rfl
    rw [hsource]
    exact h.takes s hs
  | failing => trivial
  | done => trivial

/-- Other operations of the store keep the invariant. -/
theorem Inv.store (h : n.Inv parse reads id) {op : Op} (hother : op.excluded id n.busy = false) :
    Inv parse reads id { n with db := (op.exec parse n.db).1 } := by
  obtain ⟨source, hfolded, hat⟩ := h.folded
  refine ⟨(move_of_exec parse id h.sound op).1, h.journal, h.complete, ⟨source, ?_, ?_⟩,
    h.runId, ?_⟩
  · exact hfolded.mono rfl fun run hash hb => hb.kept h.sound hother
  · intro s' hs'
    obtain ⟨s, hs, hkept⟩ := stream_kept h.sound hother hs'
    obtain ⟨hoffset, hguest, hcheckpoint⟩ := hat s hs
    refine ⟨hkept.offset.trans hoffset, hkept.guestSeq.trans hguest, fun hfailed hsealed => ?_⟩
    obtain ⟨hsealed, hsame⟩ := hkept.unsealed hsealed
    exact hsame.trans (hcheckpoint (hkept.failed.symm.trans hfailed) hsealed)
  · intro c hc
    have hc : n.capture = some c := hc
    cases hfinished : c.finished with
    | true =>
      unfold Capture.finished at hfinished
      cases hpc : c.pc with
      | done => trivial
      | _ =>
        rw [hpc] at hfinished
        cases hfinished
    | false =>
      refine (h.capture c hc).store h.sound ?_
      have hbusy : n.busy = true := by simp [busy, hc, hfinished]
      exact hbusy ▸ hother

/-- The journal may grow. -/
theorem Inv.grow (h : n.Inv parse reads id) (bytes : List UInt8) :
    Inv parse reads id { n with journal := some (n.journal.getD [] ++ bytes) } := by
  obtain ⟨rest, hrest⟩ := h.journal
  refine ⟨h.sound, ⟨rest ++ bytes, ?_⟩, h.complete, ?_, h.runId, fun c hc => ?_⟩
  · rw [← List.append_assoc]
    exact congrArg (· ++ bytes) hrest
  · obtain ⟨source, hfolded, hat⟩ := h.folded
    exact ⟨source, hfolded.mono rfl fun _ _ hb => hb, fun s hs => ⟨(hat s hs).offset,
      (hat s hs).guestSeq, (hat s hs).checkpoint⟩⟩
  · have hholds := h.capture c hc
    cases hpc : c.pc with
    | top | opened =>
      rw [hpc] at hholds
      exact hholds
    | lines chunk =>
      rw [hpc] at hholds
      exact ⟨hholds.1, hholds.2.1, hholds.2.2.grow bytes⟩
    | record chunk line seq text =>
      rw [hpc] at hholds
      exact ⟨hholds.bound, hholds.read.grow bytes, hholds.complete, hholds.before, hholds.takes⟩
    | failing | done => trivial

end Others

section Own

variable {n : Node} {c : Capture}

/-- What the next step of a capture does. -/
inductive Moved (parse : String → Option Json) (reads : List UInt8 → Option Json) (n : Node)
    (c : Capture) : Node → Prop
  | ends (iterations : ℕ) (result : Result Unit) :
      Moved parse reads n c (n.goto { c with iterations } (.done result))
  | overrun {source : ManagedRunEventStream} (hpc : c.pc = .top)
      (hsource : n.db.findStream c.run.id = some source)
      (hlarge : maxGuestJournal < source.sourceOffset) :
      Moved parse reads n c (n.goto c (.failing .largeJournal))
  | opens {source : ManagedRunEventStream} (hpc : c.pc = .top)
      (hsource : n.db.findStream c.run.id = some source) (hworks : source.sourceFailed = false)
      (hunsealed : source.isSealed = false) (hle : source.sourceOffset ≤ maxGuestJournal) :
      Moved parse reads n c (n.goto c (.opened source))
  | missing {source : ManagedRunEventStream} (hpc : c.pc = .opened source)
      (hnone : n.journal = none) (hfinal : c.final = true) :
      Moved parse reads n c (n.goto c (.failing .missing))
  | overfull {source : ManagedRunEventStream} {journal : List UInt8} (hpc : c.pc = .opened source)
      (hjournal : n.journal = some journal)
      (hlarge : maxGuestJournal <
        source.sourceOffset + (fileRead journal source.sourceOffset maxGuestLine).1.length) :
      Moved parse reads n c (n.goto c (.failing .largeJournal))
  | reads {source : ManagedRunEventStream} {journal : List UInt8} (hpc : c.pc = .opened source)
      (hjournal : n.journal = some journal)
      (hne : (fileRead journal source.sourceOffset maxGuestLine).1 ≠ [])
      (hwithin : source.sourceOffset + (fileRead journal source.sourceOffset maxGuestLine).1.length
        ≤ maxGuestJournal) :
      Moved parse reads n c (n.goto c (.lines ⟨source.sourceOffset,
        (fileRead journal source.sourceOffset maxGuestLine).1,
        (fileRead journal source.sourceOffset maxGuestLine).2, 0⟩))
  | invalid {chunk : Chunk} {line rest : List UInt8} {current : ManagedRunEventStream}
      (hpc : c.pc = .lines chunk)
      (hnext : Lines.next newline (chunk.data.drop chunk.consumed) = some (line, rest))
      (hcurrent : n.db.findStream c.run.id = some current)
      (hrecord : guestRecord parse reads line.dropLast current.source c.run c.requestHash = none) :
      Moved parse reads n c (n.goto c (.failing .invalidLine))
  | record {chunk : Chunk} {line rest : List UInt8} {current : ManagedRunEventStream} {seq : ℕ}
      {checkpoint : Json} (hpc : c.pc = .lines chunk)
      (hnext : Lines.next newline (chunk.data.drop chunk.consumed) = some (line, rest))
      (hcurrent : n.db.findStream c.run.id = some current)
      (hrecord : guestRecord parse reads line.dropLast current.source c.run c.requestHash =
        some (seq, checkpoint)) :
      Moved parse reads n c (n.goto c (.record { chunk with
        consumed := chunk.consumed + line.length } line seq checkpoint.render))
  | stuck {chunk : Chunk} (hpc : c.pc = .lines chunk)
      (hnext : Lines.next newline (chunk.data.drop chunk.consumed) = none)
      (hleft : chunk.consumed < chunk.data.length) (hwhole : chunk.eof = true ∨ chunk.consumed = 0)
      (hfail : c.final = true ∨ chunk.data.length = maxGuestLine) :
      Moved parse reads n c (n.goto { c with iterations := c.iterations + 1 }
        (.failing (if chunk.eof then .torn else .longLine)))
  | again {chunk : Chunk} (hpc : c.pc = .lines chunk)
      (hnext : Lines.next newline (chunk.data.drop chunk.consumed) = none)
      (hmore : chunk.consumed < chunk.data.length → chunk.consumed ≠ 0) :
      Moved parse reads n c (n.goto { c with iterations := c.iterations + 1 } .top)
  | takes {chunk : Chunk} {line : List UInt8} {seq : ℕ} {text : String} {now : ℤ} {db : Db}
      (hpc : c.pc = .record chunk line seq text)
      (hok : appendManagedRunCheckpoint parse n.db c.run.id c.run.epoch
        (chunk.offset + chunk.consumed) seq text now = .ok db) :
      Moved parse reads n c
        ({ n with db, taken := n.taken ++ [(line, text)] }.goto c (.lines chunk))
  | fails {cause : Cause} {db : Db} (hpc : c.pc = .failing cause)
      (hok : failManagedRunEventSource n.db c.run.id c.run.epoch = .ok db) :
      Moved parse reads n c ({ n with db }.goto c (.done (.ok ())))

/-- A committed call of the store. -/
theorem exec_ok {db db' : Db} {op : Op} {reply : Reply}
    (h : op.exec parse db = (db', .ok reply)) : op.body parse db = .ok (db', reply) := by
  unfold Op.exec transaction at h
  split at h
  · rename_i db₁ reply₁ hbody
    obtain ⟨rfl, hreply⟩ := Prod.mk.inj h
    rw [hbody, Except.ok.inj hreply]
  · cases (Prod.mk.inj h).2

/-- Each turn of a capture is one move. -/
theorem advance_moved (reads : List UInt8 → Option Json) (n : Node) {c : Capture}
    (hopen : c.finished = false) (now : ℤ) : Moved parse reads n c
      (n.advance parse reads c now) := by
  unfold advance
  cases hpc : c.pc with
  | top =>
    dsimp only
    split
    · exact .ends c.iterations _
    rename_i source hsource
    have hsource := stream_ok.mp hsource
    split
    · exact .ends c.iterations _
    rename_i hlive
    rw [not_or, Bool.not_eq_true, Bool.not_eq_true] at hlive
    split
    · exact .overrun hpc hsource ‹_›
    · exact .opens hpc hsource hlive.1 hlive.2 (not_lt.mp ‹_›)
  | opened source =>
    dsimp only
    split
    · split
      · exact .missing hpc ‹_› ‹_›
      · exact .ends c.iterations _
    rename_i journal hjournal
    split
    · exact .ends c.iterations _
    rename_i hne
    have hsmall : (fileRead journal source.sourceOffset maxGuestLine).1.length ≤ maxGuestLine := by
      rw [fileRead, List.length_take]
      exact min_le_left _ _
    split
    · rename_i hlarge
      exact .overfull hpc hjournal (hlarge.resolve_left (not_lt.mpr hsmall))
    · rename_i hwithin
      rw [not_or, not_lt, not_lt] at hwithin
      exact .reads hpc hjournal hne hwithin.2
  | lines chunk =>
    dsimp only
    split
    · rename_i line rest hnext
      split
      · exact .ends c.iterations _
      rename_i current hcurrent
      have hcurrent := stream_ok.mp hcurrent
      split
      · exact .invalid hpc hnext hcurrent ‹_›
      · exact .record hpc hnext hcurrent ‹_›
    · rename_i hnext
      split
      · rename_i hleft
        split
        · exact .stuck hpc hnext hleft.1 hleft.2 ‹_›
        · exact .ends _ _
      · rename_i hleft
        split
        · exact .ends _ _
        · exact .again hpc hnext fun hlt hzero => hleft ⟨hlt, .inr hzero⟩
  | record chunk line seq text =>
    dsimp only
    split
    · exact .ends c.iterations _
    · rename_i db reply hexec
      obtain ⟨db', hok, hdone⟩ := bind_ok (exec_ok hexec)
      obtain ⟨rfl, -⟩ := Prod.mk.inj (Except.ok.inj hdone)
      exact .takes hpc hok
  | failing cause =>
    dsimp only
    split
    · exact .ends c.iterations _
    · rename_i db reply hexec
      obtain ⟨db', hok, hdone⟩ := bind_ok (exec_ok hexec)
      obtain ⟨rfl, -⟩ := Prod.mk.inj (Except.ok.inj hdone)
      exact .fails hpc hok
  | done result =>
    rw [Capture.finished, hpc] at hopen
    cases hopen

theorem Inv.goto (h : n.Inv parse reads id) (hrun : c.run.id = id) {pc : Pc}
    (hholds : n.Holds parse reads id c pc) : (n.goto c pc).Inv parse reads id := by
  obtain ⟨source, hfolded, hat⟩ := h.folded
  refine ⟨h.sound, h.journal, h.complete, ⟨source, hfolded.mono rfl fun _ _ hb => hb, ?_⟩, ?_, ?_⟩
  · exact fun s hs => ⟨(hat s hs).offset, (hat s hs).guestSeq, (hat s hs).checkpoint⟩
  · intro c' hc'
    obtain rfl := Option.some.inj hc'
    exact hrun
  · intro c' hc'
    obtain rfl := Option.some.inj hc'
    cases pc with
    | record => exact ⟨hholds.bound, hholds.read, hholds.complete, hholds.before, hholds.takes⟩
    | _ => exact hholds

/-- What a read gives is a chunk of the journal. -/
theorem chunk_of_read {journal : List UInt8} {offset : ℕ}
    (hne : (fileRead journal offset maxGuestLine).1 ≠ [])
    (hwithin : offset + (fileRead journal offset maxGuestLine).1.length ≤ maxGuestJournal) :
    Chunk.Ok ⟨offset, (fileRead journal offset maxGuestLine).1,
      (fileRead journal offset maxGuestLine).2, 0⟩ journal where
  offset := by
    by_contra hlt
    rw [not_le] at hlt
    rw [fileRead, List.drop_eq_nil_of_le hlt.le, List.take_nil] at hne
    exact hne rfl
  data := ⟨(journal.drop offset).drop maxGuestLine, (List.take_append_drop _ _).symm⟩
  nonempty := hne
  small := by
    rw [fileRead, List.length_take]
    exact min_le_left _ _
  full := by
    intro heof
    rw [fileRead, decide_eq_false_iff_not, not_lt] at heof
    rw [fileRead, List.length_take]
    exact min_eq_left heof
  within := hwithin
  consumed := Nat.zero_le _

/-- The tables after a checkpoint is stored. -/
theorem checkpoint_stored {db db' : Db} {epoch now : ℤ} {offset seq : ℕ} {text : String}
    (hok : appendManagedRunCheckpoint parse db id epoch offset seq text now = .ok db') :
    ∃ r s t, db.find id = some r ∧ db'.find id = some r ∧ db.findStream id = some s ∧
      db'.findStream id = some t ∧ t.sourceOffset = offset ∧ t.guestSeq = seq ∧
      t.checkpointJson = some text ∧ t.sourceFailed = s.sourceFailed ∧ t.isSealed = false := by
  obtain ⟨r, s, value, mid, hr, hs, _, _, _, _, _, _, happend, rfl⟩ := checkpoint_ok hok
  obtain rfl := find_key hr
  obtain ⟨t, hash, ht, _, _, _, _, rfl⟩ := append_ok happend
  obtain rfl := Option.some.inj (hs.symm.trans ht)
  have hkey (s : ManagedRunEventStream) : (s.advanced offset seq text).runId = s.runId := rfl
  let size := (payload parse r hash s.nextEventSeq .checkpoint (some value)).size
  have hstored (s : ManagedRunEventStream) : (s.stored size false).runId = s.runId := rfl
  refine ⟨r, s, (s.stored size false).advanced offset seq text, hr, hr, hs, ?_, rfl, rfl, rfl, rfl,
    rfl⟩
  rw [findStream_reviseStream hkey, if_pos rfl]
  exact congrArg (Option.map _)
    ((findStream_reviseStream hstored).trans ((if_pos rfl).trans (congrArg (Option.map _) hs)))

/-- A record is read against the run's id and boot only. -/
theorem guestRecord_congr {run run' : ManagedRun} (hid : run.id = run'.id)
    (hboot : run.bootId = run'.bootId) (line : List UInt8) (source : Source) (hash : String) :
    guestRecord parse reads line source run hash =
      guestRecord parse reads line source run' hash := by
  have hvalidate (v : Json) : validateCheckpoint v run hash = validateCheckpoint v run' hash := by
    unfold validateCheckpoint validateBuild bound
    rw [hid, hboot]
  unfold guestRecord
  simp only [hvalidate]

/-- A line is stored. -/
theorem Inv.taken (h : n.Inv parse reads id) (hrun : c.run.id = id) {chunk : Chunk}
    {line : List UInt8} {seq : ℕ} {text : String}
    (hrecorded : n.Recorded parse reads id c chunk line seq text) {now : ℤ} {db : Db}
    (hok : appendManagedRunCheckpoint parse n.db id c.run.epoch (chunk.offset + chunk.consumed) seq
      text now = .ok db) :
    Inv parse reads id
      ({ n with db, taken := n.taken ++ [(line, text)] }.goto c (.lines chunk)) := by
  obtain ⟨r, s, t, hr, hr', hs, ht, hoffset, hseq, htext, hfailed, hsealed⟩ := checkpoint_stored hok
  obtain ⟨before, after, hconsumed, ⟨s', hs', hopen, hunsealed, hbefore⟩, hline⟩ := hrecorded.before
  obtain rfl := Option.some.inj (hs.symm.trans hs')
  obtain ⟨source, hfolded, hat⟩ := h.folded
  have hat := hat s hs
  have hbound {run : ManagedRun} {hash : String} (hb : n.db.Bound parse id run hash) :
      db.Bound parse id run hash :=
    ⟨hb.runId, hb.booted, fun r' hrow => hb.row r' (hr.trans (hr'.symm.trans hrow))⟩
  have hlines : takenLines ({ n with db, taken := n.taken ++ [(line, text)] }.goto c
      (.lines chunk)) = n.takenLines ++ [line] := by
    rw [takenLines, takenLines]
    exact List.map_append
  have hlength : (n.takenLines ++ [line]).flatten.length = chunk.offset + chunk.consumed := by
    rw [List.flatten_append, List.length_append, List.flatten_singleton, ← hat.offset, hbefore,
      hconsumed, add_assoc]
  refine ⟨(checkpoint_moves h.sound hok).1, ?_, ?_, ⟨⟨seq, some text⟩, ?_, ?_⟩, ?_, ?_⟩
  · obtain ⟨rest, hrest⟩ := h.journal
    obtain ⟨more, hmore⟩ := hrecorded.read.data
    refine ⟨after ++ more, ?_⟩
    have hle : before ≤ chunk.data.length := by
      have := hrecorded.read.consumed
      omega
    have hdrop : n.text.drop n.takenLines.flatten.length = line ++ (after ++ more) := by
      rw [← hat.offset, hbefore, ← List.drop_drop, hmore, List.drop_append_of_le_length hle, hline,
        List.append_assoc]
    rw [hlines, List.flatten_append, List.flatten_singleton, List.append_assoc, ← hdrop]
    change n.text = _
    conv_lhs => rw [hrest]
    rw [hrest, List.drop_left]
  · intro p hp
    obtain hp | rfl := Table.mem_snoc.mp hp
    · exact h.complete p hp
    · exact hrecorded.complete
  · obtain ⟨checkpoint, hrecord, htext⟩ := hrecorded.takes s hs
    have hsource : s.source = source := by
      rw [ManagedRunEventStream.source, hat.guestSeq, hat.checkpoint hopen hunsealed]
    rw [hsource] at hrecord
    cases hfolded with
    | nil hnil =>
      have htrace : Trace (Takes parse reads c.run c.requestHash) {} n.taken {} := by
        rw [hnil]
        exact .nil
      exact .run (hbound hrecorded.bound) (htrace.snoc ⟨checkpoint, hrecord, htext, rfl⟩)
    | run hb htrace =>
      refine .run (hbound hb) (htrace.snoc ⟨checkpoint, ?_, htext, rfl⟩)
      obtain ⟨hboot, hgrant⟩ := hb.row r hr
      obtain ⟨hboot', hgrant'⟩ := hrecorded.bound.row r hr
      rw [guestRecord_congr (hb.runId.trans hrun.symm) (hboot.symm.trans hboot'),
        Option.some.inj (hgrant.symm.trans hgrant')]
      exact hrecord
  · intro t' ht'
    obtain rfl := Option.some.inj (ht.symm.trans ht')
    exact ⟨by rw [hoffset, hlines, hlength], hseq, fun _ _ => htext⟩
  · intro c' hc'
    obtain rfl := Option.some.inj hc'
    exact hrun
  · intro c' hc'
    obtain rfl := Option.some.inj hc'
    exact ⟨hbound hrecorded.bound, ⟨t, ht, hfailed.trans hopen, hsealed, hoffset⟩, hrecorded.read⟩

/-- Marking the source as failed keeps the cursor. -/
theorem Inv.failed (h : n.Inv parse reads id) (hc : n.capture = some c) {cause : Cause}
    (hpc : c.pc = .failing cause) {db : Db}
    (hok : failManagedRunEventSource n.db c.run.id c.run.epoch = .ok db) :
    Inv parse reads id { n with db } := by
  have hrun := h.runId c hc
  obtain ⟨r, -, -, -, rfl⟩ := failSource_ok hok
  have hkey (s : ManagedRunEventStream) : s.failed.runId = s.runId := rfl
  obtain ⟨source, hfolded, hat⟩ := h.folded
  refine ⟨h.sound.reviseStream c.run.id hkey, h.journal, h.complete, ⟨source, ?_, ?_⟩, h.runId, ?_⟩
  · exact hfolded.mono rfl fun run hash hb => ⟨hb.runId, hb.booted, hb.row⟩
  · intro s' hs'
    have hs' : (n.db.reviseStream c.run.id (·.failed)).findStream id = some s' := hs'
    rw [findStream_reviseStream hkey, if_pos hrun.symm] at hs'
    obtain ⟨s, hs, rfl⟩ := Option.map_eq_some_iff.mp hs'
    refine ⟨(hat s hs).offset, (hat s hs).guestSeq, fun hopen => ?_⟩
    cases hopen
  · intro c' hc'
    obtain rfl := Option.some.inj (hc.symm.trans hc')
    rw [hpc]
    trivial

/-- A move keeps the invariant. -/
theorem Inv.moved (h : n.Inv parse reads id) (hc : n.capture = some c) {n' : Node}
    (hmoved : n.Moved parse reads c n') : n'.Inv parse reads id := by
  have hrun := h.runId c hc
  have hholds := h.capture c hc
  cases hmoved with
  | ends | overrun | missing | overfull | invalid | stuck =>
    refine h.goto ?_ ?_
    · exact hrun
    · trivial
  | opens hpc hsource hworks hunsealed hle =>
    rw [hpc] at hholds
    exact h.goto hrun ⟨hholds, ⟨_, hrun ▸ hsource, hworks, hunsealed, rfl⟩, hle⟩
  | @reads source journal hpc hjournal hne hwithin =>
    rw [hpc] at hholds
    have htext : n.text = journal := by rw [text, hjournal, Option.getD_some]
    refine h.goto hrun ⟨hholds.1, hholds.2.1, ?_⟩
    rw [htext]
    exact chunk_of_read hne hwithin
  | @record chunk line rest current seq checkpoint hpc hnext hcurrent hrecord =>
    rw [hpc] at hholds
    obtain ⟨hbound, hopen, hchunk⟩ := hholds
    obtain ⟨hline, hcomplete⟩ := Lines.next_eq_some hnext
    refine h.goto hrun ⟨hbound, ?_, hcomplete, ⟨chunk.consumed, rest, rfl, hopen, hline⟩, ?_⟩
    · refine ⟨hchunk.offset, hchunk.data, hchunk.nonempty, hchunk.small, hchunk.full,
        hchunk.within, ?_⟩
      have hlength := congrArg List.length hline
      rw [List.length_drop, List.length_append] at hlength
      have := hchunk.consumed
      dsimp only
      omega
    · intro s hs
      rw [hrun, hs] at hcurrent
      obtain rfl := Option.some.inj hcurrent
      exact ⟨checkpoint, hrecord, rfl⟩
  | again hpc =>
    rw [hpc] at hholds
    refine h.goto ?_ ?_
    · exact hrun
    · exact hholds.1
  | takes hpc hok =>
    rw [hpc] at hholds
    rw [hrun] at hok
    exact h.taken hrun hholds hok
  | fails hpc hok => exact (h.failed hc hpc hok).goto hrun trivial

/-- What only looks at the guest or at another capture. -/
theorem Inv.other (h : n.Inv parse reads id) {n' : Node} (hdb : n'.db = n.db)
    (hjournal : n'.journal = n.journal) (htaken : n'.taken = n.taken)
    (hrun : ∀ c, n'.capture = some c → c.run.id = id)
    (hcapture : ∀ c, n'.capture = some c → n'.Holds parse reads id c c.pc) :
    n'.Inv parse reads id := by
  obtain ⟨source, hfolded, hat⟩ := h.folded
  have htext : n'.text = n.text := congrArg (Option.getD · []) hjournal
  have hlines : n'.takenLines = n.takenLines := congrArg (List.map Prod.fst) htaken
  refine ⟨hdb ▸ h.sound, ?_, htaken ▸ h.complete, ⟨source, ?_, ?_⟩, hrun, hcapture⟩
  · rw [htext, hlines]
    exact h.journal
  · exact hfolded.mono htaken fun _ _ hb => hdb ▸ hb
  · rw [hdb]
    intro s hs
    exact ⟨hlines ▸ (hat s hs).offset, (hat s hs).guestSeq, (hat s hs).checkpoint⟩

/-- A capture may start. -/
theorem Inv.start (h : n.Inv parse reads id) {run : ManagedRun} {hash : String}
    (hr : n.db.find id = some run) (hgrant : grant parse run = some hash) (final : Bool) {pc : Pc}
    (hpc : pc = .top ∧ run.bootId ≠ none ∨ pc = .failing .unreadable) :
    Inv parse reads id { n with capture := some ⟨run, hash, final, 0, pc⟩ } := by
  refine h.goto (c := ⟨run, hash, final, 0, pc⟩) (find_key hr) ?_
  obtain ⟨rfl, hboot⟩ | rfl := hpc
  · refine ⟨find_key hr, hboot, fun r hr' => ?_⟩
    obtain rfl := Option.some.inj (hr.symm.trans hr')
    exact ⟨rfl, hgrant⟩
  · trivial

end Own

/-- What a step does. -/
inductive Did (parse : String → Option Json) (reads : List UInt8 → Option Json) (id : String)
    (n : Node) : Event → Node → Prop
  | grows (bytes : List UInt8) :
      Did parse reads id n (.grow bytes) { n with journal := some (n.journal.getD [] ++ bytes) }
  | boots (boot : Option String) : Did parse reads id n (.guest boot) { n with boot }
  | stores {op : Op} (hother : op.excluded id n.busy = false) :
      Did parse reads id n (.store op) { n with db := (op.exec parse n.db).1 }
  | starts {final : Bool} {run : ManagedRun} {hash : String} {pc : Pc} (hidle : n.busy = false)
      (hr : n.db.find id = some run) (hgrant : grant parse run = some hash)
      (hpc : pc = .top ∧ run.bootId ≠ none ∨
        pc = .failing .unreadable ∧ final = true ∧ (n.boot = none ∨ n.boot ≠ run.bootId)) :
      Did parse reads id n (.capture final) { n with capture := some ⟨run, hash, final, 0, pc⟩ }
  | moves {now : ℤ} {c : Capture} {n' : Node} (hc : n.capture = some c)
      (hopen : c.finished = false) (hmoved : n.Moved parse reads c n') :
      Did parse reads id n (.own now) n'
  | stops (e : Error) {c : Capture} (hc : n.capture = some c) :
      Did parse reads id n (.interrupt e) (n.goto c (.done (.error e)))
  | restarts : Did parse reads id n .restart { n with capture := none }

section Steps

variable {n n' : Node} {e : Event}

/-- A start is what a capture event does. -/
theorem start_did {final : Bool} {run : ManagedRun} {hash : String} (hidle : n.busy = false)
    (hr : n.db.find id = some run) (hgrant : grant parse run = some hash)
    (hstart : n.start run hash final = some n') : n.Did parse reads id (.capture final) n' := by
  unfold Node.start at hstart
  split at hstart
  · cases hstart
  split at hstart
  · rename_i hfinal
    split at hstart
    · rename_i hlost
      obtain rfl := Option.some.inj hstart
      refine .starts hidle hr hgrant (.inr ⟨rfl, hfinal, ?_⟩)
      obtain hoff | hboot | hother := hlost
      · exact .inl hoff
      · rw [hboot]
        exact em _
      · exact .inr hother
    · rename_i hsame
      obtain rfl := Option.some.inj hstart
      rw [not_or, not_or] at hsame
      exact .starts hidle hr hgrant (.inl ⟨rfl, hsame.2.1⟩)
  · split at hstart
    · cases hstart
    · rename_i hboot
      obtain rfl := Option.some.inj hstart
      exact .starts hidle hr hgrant (.inl ⟨rfl, hboot⟩)

/-- Every step does what its event says. -/
theorem step_did (hs : n.Step parse reads id e n') : n.Did parse reads id e n' := by
  unfold Node.Step at hs
  cases e with
  | grow bytes =>
    obtain rfl := Option.some.inj hs
    exact .grows bytes
  | guest boot =>
    obtain rfl := Option.some.inj hs
    exact .boots boot
  | store op =>
    rw [next] at hs
    split at hs
    · cases hs
    · rename_i hother
      obtain rfl := Option.some.inj hs
      exact .stores (Bool.not_eq_true _ ▸ hother)
  | capture final =>
    rw [next] at hs
    split at hs
    · cases hs
    · rename_i hidle
      obtain ⟨run, hr, hs⟩ := Option.bind_eq_some_iff.mp hs
      obtain ⟨hash, hgrant, hs⟩ := Option.bind_eq_some_iff.mp hs
      exact start_did (Bool.not_eq_true _ ▸ hidle) hr hgrant hs
  | own now =>
    obtain ⟨c, hc, hs⟩ := Option.bind_eq_some_iff.mp hs
    split at hs
    · cases hs
    · rename_i hopen
      rw [Bool.not_eq_true] at hopen
      obtain rfl := Option.some.inj hs
      exact .moves hc hopen (advance_moved reads n hopen now)
  | interrupt e =>
    obtain ⟨c, hc, hs⟩ := Option.bind_eq_some_iff.mp hs
    split at hs
    · cases hs
    · obtain rfl := Option.some.inj hs
      exact .stops e hc
  | restart =>
    obtain rfl := Option.some.inj hs
    exact .restarts

/-- One step keeps the invariant. -/
theorem Inv.step (h : n.Inv parse reads id) (hs : n.Step parse reads id e n') :
    n'.Inv parse reads id := by
  cases step_did hs with
  | grows bytes => exact h.grow bytes
  | boots boot => exact h.other rfl rfl rfl h.runId fun c hc => (h.capture c hc).mono rfl rfl
  | stores hother => exact h.store hother
  | starts _ hr hgrant hpc =>
    exact h.start hr hgrant _ (hpc.imp_right And.left)
  | moves hc _ hmoved => exact h.moved hc hmoved
  | stops _ hc => exact h.goto (h.runId _ hc) trivial
  | restarts =>
    refine h.other rfl rfl rfl (fun c hc => ?_) (fun c hc => ?_)
    · cases hc
    · cases hc

end Steps

/-- A fresh node satisfies the invariant. -/
theorem Fresh.inv {n : Node} (h : n.Fresh id) : n.Inv parse reads id := by
  have hlines : n.takenLines = [] := by rw [takenLines, h.taken]; rfl
  refine ⟨h.sound, ⟨n.text, by rw [hlines]; rfl⟩, ?_, ⟨{}, .nil h.taken, ?_⟩, ?_, ?_⟩
  · intro p hp
    rw [h.taken] at hp
    cases hp
  · intro s hs
    obtain ⟨hoffset, hguest, hcheckpoint, -⟩ := h.stream s hs
    exact ⟨by rw [hoffset, hlines]; rfl, hguest, fun _ _ => hcheckpoint⟩
  · intro c hc
    cases h.capture.symm.trans hc
  · intro c hc
    cases h.capture.symm.trans hc

end Node

end AgentHouse.Runs
