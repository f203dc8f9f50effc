import AgentHouse.Runs.Identity

/-!
# Capture is exact

What a run of captures stores is the fold of the complete lines of the journal, each line once;
every capture ends, and the source fails for a reason that was seen.
-/

namespace AgentHouse.Runs

variable {parse : String → Option Json} {reads : List UInt8 → Option Json} {id : String}

/-- The capture still reads. -/
def Capture.reading (c : Capture) : Bool :=
  match c.pc with
  | .failing _ | .done _ => false
  | _ => true

/-- A step of the capture itself. -/
def Event.isOwn : Event → Bool
  | .own _ => true
  | _ => false

namespace Node

variable {n : Node}

/-- A capture that is not finished goes on. -/
theorem step_own {c : Capture} (hc : n.capture = some c) (hopen : c.finished = false) (now : ℤ) :
    n.Step parse reads id (.own now) (n.advance parse reads c now) := by
  simp [Node.Step, Node.next, hc, hopen]

/-- Every line that was taken is a complete one. -/
theorem Inv.lines_complete (h : n.Inv parse reads id) :
    ∀ line ∈ n.takenLines, Lines.Complete newline line := by
  intro line hline
  obtain ⟨p, hp, rfl⟩ := List.mem_map.mp hline
  exact h.complete p hp

/-- The stored lines are the first lines of the journal. -/
theorem Inv.split (h : n.Inv parse reads id) : ∃ lines,
    (Lines.split newline n.text).1 = n.takenLines ++ lines := by
  obtain ⟨rest, hrest⟩ := h.journal
  rw [hrest, Lines.split_lines h.lines_complete]
  exact ⟨_, rfl⟩

section Rank

/-- What is left to read of a journal of the largest size. -/
def left (offset : ℕ) : ℕ := 5 * (maxGuestJournal - offset)

/-- How many steps a capture may still take. -/
def rank (id : String) (n : Node) : ℕ :=
  match n.capture with
  | none => 0
  | some c =>
    match c.pc with
    | .top => ((n.db.findStream id).elim 0 fun s => left s.sourceOffset) + 4
    | .opened source => left source.sourceOffset + 3
    | .lines chunk =>
        left (chunk.offset + chunk.consumed) + if chunk.consumed = 0 then 2 else 5
    | .record chunk line _ _ => left (chunk.offset + chunk.consumed - line.length) + 1
    | .failing _ => 1
    | .done _ => 0

theorem rank_le (id : String) (n : Node) : n.rank id ≤ 5 * maxGuestJournal + 5 := by
  have hleft (offset : ℕ) : left offset ≤ 5 * maxGuestJournal := by
    unfold left
    omega
  unfold rank
  split
  · omega
  · split
    · cases n.db.findStream id with
      | none =>
        rw [Option.elim_none]
        omega
      | some s =>
        have := hleft s.sourceOffset
        rw [Option.elim_some]
        omega
    · rename_i source _
      have := hleft source.sourceOffset
      omega
    · rename_i chunk _
      have := hleft (chunk.offset + chunk.consumed)
      split <;> omega
    · rename_i chunk line _ _ _
      have := hleft (chunk.offset + chunk.consumed - line.length)
      omega
    · omega
    · omega

/-- A step of the capture comes nearer to its end. -/
theorem Inv.rank_lt (h : n.Inv parse reads id) {c : Capture} (hc : n.capture = some c)
    (hopen : c.finished = false) {n' : Node} (hmoved : n.Moved parse reads c n') :
    n'.rank id < n.rank id := by
  have hrun := h.runId c hc
  have hholds := h.capture c hc
  have hgoto (m : Node) (c : Capture) (pc : Pc) : (m.goto c pc).capture = some { c with pc } := rfl
  cases hmoved with
  | ends iterations result =>
    have hpos : 0 < n.rank id := by
      rw [rank, hc]
      dsimp only
      cases hpc : c.pc with
      | done =>
        rw [Capture.finished, hpc] at hopen
        cases hopen
      | lines =>
        dsimp only
        split <;> omega
      | _ =>
        dsimp only
        omega
    exact hpos
  | overrun hpc hsource | opens hpc hsource =>
    have hstream : n.db.findStream id = _ := hrun ▸ hsource
    simp [rank, hc, hpc, hstream, hgoto]
  | missing hpc | overfull hpc | reads hpc =>
    simp [rank, hc, hpc, hgoto]
  | invalid hpc | stuck hpc =>
    simp only [rank, hc, hpc, hgoto]
    split <;> omega
  | @record chunk line rest current seq checkpoint hpc hnext =>
    have hle : chunk.offset + (chunk.consumed + line.length) - line.length =
        chunk.offset + chunk.consumed := by omega
    simp only [rank, hc, hpc, hgoto, hle]
    split <;> omega
  | @again chunk hpc hnext hmore =>
    rw [hpc] at hholds
    obtain ⟨-, ⟨s, hs, -, -, hoffset⟩, hchunk⟩ := hholds
    have hpos : chunk.consumed ≠ 0 := by
      intro hzero
      have := List.length_pos_iff.mpr hchunk.nonempty
      exact hmore (by omega) hzero
    have hdb (c : Capture) (pc : Pc) : (n.goto c pc).db = n.db := rfl
    simp only [rank, hc, hpc, hgoto, hdb, hs, Option.elim_some, hoffset, if_neg hpos]
    omega
  | @takes chunk line seq text now db hpc hok =>
    rw [hpc] at hholds
    obtain ⟨before, after, hconsumed, -, -⟩ := hholds.before
    have hpos := hholds.complete.length_pos
    have hwithin := hholds.read.within
    have hle := hholds.read.consumed
    simp only [rank, hc, hpc, hgoto, left]
    split <;> omega
  | fails hpc hok => simp [rank, hc, hpc, hgoto]

/-- A step that starts no capture does not raise the rank, and an own step lowers it. -/
theorem Inv.rank_step (h : n.Inv parse reads id) {n' : Node} {e : Event}
    (hs : n.Step parse reads id e n') (hnew : ∀ final, e ≠ .capture final) :
    n'.rank id + (if e.isOwn then 1 else 0) ≤ n.rank id := by
  cases step_did hs with
  | grows | boots => exact le_rfl
  | starts => exact absurd rfl (hnew _)
  | moves hc hopen hmoved => exact h.rank_lt hc hopen hmoved
  | stops | restarts => exact Nat.zero_le _
  | @stores op hother =>
    change rank id { n with db := (op.exec parse n.db).1 } ≤ n.rank id
    unfold rank
    dsimp only
    split
    · exact le_rfl
    · split
      · cases hs' : (op.exec parse n.db).1.findStream id with
        | none =>
          rw [Option.elim_none]
          omega
        | some s' =>
          obtain ⟨s, hs, hkept⟩ := stream_kept h.sound hother hs'
          rw [hs, Option.elim_some, Option.elim_some, hkept.offset]
      all_goals exact le_rfl

/-- A capture ends, whatever happens meanwhile. -/
theorem Inv.own_steps (h : n.Inv parse reads id) {n' : Node} {es : List Event}
    (htrace : Trace (Node.Step parse reads id) n es n') (hnew : ∀ final, .capture final ∉ es) :
    n'.rank id + es.countP Event.isOwn ≤ n.rank id := by
  induction htrace with
  | nil => exact le_rfl
  | @snoc es m m' e htrace hs ih =>
    have ih := ih fun final hmem => hnew final (List.mem_append_left _ hmem)
    have hm : m.Inv parse reads id := htrace.invariant h Inv.step
    have hstep := hm.rank_step hs fun final he => hnew final (by simp [he])
    rw [List.countP_append, List.countP_singleton]
    omega

end Rank

section Link

/-- A capture that reads folds the stored lines with its own run. -/
def Linked (parse : String → Option Json) (reads : List UInt8 → Option Json) (n : Node) : Prop :=
  ∀ c, n.capture = some c → c.reading = true →
    ∃ source, Trace (Takes parse reads c.run c.requestHash) {} n.taken source

/-- A capture begins with the run of the row, for which the lines were folded. -/
theorem Inv.linked_start (h : n.Inv parse reads id) {run : ManagedRun} {hash : String}
    (hr : n.db.find id = some run) (hgrant : grant parse run = some hash) :
    ∃ source, Trace (Takes parse reads run hash) {} n.taken source := by
  obtain ⟨source, hfolded, -⟩ := h.folded
  refine ⟨source, ?_⟩
  cases hfolded with
  | nil htaken =>
    rw [htaken]
    exact .nil
  | run hbound htrace =>
    refine htrace.mono fun {s p s'} ⟨checkpoint, hrecord, htext, hlast⟩ => ?_
    obtain ⟨hboot, hsame⟩ := hbound.row run hr
    refine ⟨checkpoint, ?_, htext, hlast⟩
    rw [guestRecord_congr ((find_key hr).trans hbound.runId.symm) hboot,
      Option.some.inj (hgrant.symm.trans hsame)]
    exact hrecord

theorem Folded.source {source : Source} (h : n.Folded parse reads id source) :
    source = lastSource n.taken := by
  cases h with
  | nil htaken =>
    rw [htaken]
    rfl
  | run _ htrace => exact takes_source htrace

/-- The stream of an open source holds what the stored lines leave. -/
theorem Inv.source (h : n.Inv parse reads id) {s : ManagedRunEventStream}
    (hs : n.db.findStream id = some s) (hworks : s.sourceFailed = false)
    (hunsealed : s.isSealed = false) : s.source = lastSource n.taken := by
  obtain ⟨source, hfolded, hat⟩ := h.folded
  have hat := hat s hs
  rw [← hfolded.source, ManagedRunEventStream.source, hat.guestSeq, hat.checkpoint hworks hunsealed]

/-- What was taken stays linked to the rows. -/
theorem Linked.step {n' : Node} {e : Event} (hl : n.Linked parse reads) (h : n.Inv parse reads id)
    (hs : n.Step parse reads id e n') : n'.Linked parse reads := by
  intro c' hc' hreading
  cases step_did hs with
  | grows | boots | stores => exact hl c' hc' hreading
  | starts _ hr hgrant =>
    obtain rfl := Option.some.inj hc'
    exact h.linked_start hr hgrant
  | stops =>
    obtain rfl := Option.some.inj hc'
    cases hreading
  | restarts => cases hc'
  | @moves _ c _ hc _ hmoved =>
    cases hmoved with
    | ends | overrun | missing | overfull | invalid | stuck | fails =>
      obtain rfl := Option.some.inj hc'
      cases hreading
    | opens hpc | reads hpc | record hpc | again hpc =>
      obtain rfl := Option.some.inj hc'
      refine hl c hc ?_
      rw [Capture.reading, hpc]
    | @takes chunk line seq text now db hpc hok =>
      obtain rfl := Option.some.inj hc'
      obtain ⟨source, htrace⟩ := hl c hc (by rw [Capture.reading, hpc])
      have hholds := h.capture c hc
      rw [hpc] at hholds
      obtain ⟨_, _, _, ⟨s, hstream, hworks, hunsealed, _⟩, _⟩ := hholds.before
      obtain ⟨checkpoint, hrecord, htext⟩ := hholds.takes s hstream
      rw [h.source hstream hworks hunsealed, ← takes_source htrace] at hrecord
      exact ⟨⟨seq, some text⟩, htrace.snoc ⟨checkpoint, hrecord, htext, rfl⟩⟩

end Link

/-- What a step saw that makes a source fail. -/
inductive Fault (parse : String → Option Json) (reads : List UInt8 → Option Json) (id : String)
    (n : Node) : Event → Prop
  | invalid (now : ℤ) {c : Capture} (hc : n.capture = some c)
      (hshort : (foldLines parse reads c.run c.requestHash (Lines.split newline n.text).1 {}).length
        < (Lines.split newline n.text).1.length) : Fault parse reads id n (.own now)
  | long (now : ℤ)
      (hlong : (∃ line ∈ (Lines.split newline n.text).1, maxGuestLine < line.length) ∨
        maxGuestLine ≤ (Lines.split newline n.text).2.length) : Fault parse reads id n (.own now)
  | large (now : ℤ) (hlarge : maxGuestJournal < n.text.length) : Fault parse reads id n (.own now)
  | missing (now : ℤ) {c : Capture} {source : ManagedRunEventStream} (hc : n.capture = some c)
      (hpc : c.pc = .opened source) (hfinal : c.final = true) (hnone : n.journal = none) :
      Fault parse reads id n (.own now)
  | torn (now : ℤ) {c : Capture} {source : ManagedRunEventStream} (hc : n.capture = some c)
      (hpc : c.pc = .opened source) (hfinal : c.final = true)
      (htorn : (Lines.split newline n.text).2 ≠ []) : Fault parse reads id n (.own now)
  | unreadable {run : ManagedRun} (hr : n.db.find id = some run)
      (hlost : n.boot = none ∨ n.boot ≠ run.bootId) : Fault parse reads id n (.capture true)

/-- One step of the history satisfied `P`, in the capture that is under way. -/
def Within (parse : String → Option Json) (reads : List UInt8 → Option Json) (id : String)
    (start : Node) (es : List Event) (P : Node → Event → Prop) : Prop :=
  ∃ before e after m, es = before ++ e :: after ∧ Trace (Node.Step parse reads id) start before m ∧
    P m e ∧ ∀ final, Event.capture final ∉ after

section History

variable {start : Node} {es : List Event} {P Q : Node → Event → Prop}

theorem Within.mono (h : Within parse reads id start es P) (hpq : ∀ m e, P m e → Q m e) :
    Within parse reads id start es Q := by
  obtain ⟨before, e, after, m, hes, htrace, hp, hnew⟩ := h
  exact ⟨before, e, after, m, hes, htrace, hpq m e hp, hnew⟩

theorem Within.snoc (h : Within parse reads id start es P) {e : Event}
    (hnew : ∀ final, e ≠ .capture final) : Within parse reads id start (es ++ [e]) P := by
  obtain ⟨before, e', after, m, rfl, htrace, hp, hafter⟩ := h
  refine ⟨before, e', after ++ [e], m, by simp, htrace, hp, fun final hmem => ?_⟩
  obtain hmem | hmem := List.mem_append.mp hmem
  · exact hafter final hmem
  · exact hnew final (List.mem_singleton.mp hmem).symm

theorem Within.last (htrace : Trace (Node.Step parse reads id) start es n) {e : Event}
    (hp : P n e) : Within parse reads id start (es ++ [e]) P :=
  ⟨es, e, [], n, rfl, htrace, hp, fun _ => List.not_mem_nil⟩

/-- The chunk was read at a step of this capture. -/
structure Seen (n : Node) (c : Capture) (chunk : Chunk) (m : Node) (e : Event) : Prop where
  own : ∃ now, e = .own now
  capture : ∃ c' source, m.capture = some c' ∧ c'.pc = .opened source ∧ c'.run = c.run ∧
    c'.requestHash = c.requestHash ∧ c'.final = c.final
  read : fileRead m.text chunk.offset maxGuestLine = (chunk.data, chunk.eof)
  before : m.text <+: n.text

/-- The chunk a capture works on. -/
def chunkOf (c : Capture) : Option Chunk :=
  match c.pc with
  | .lines chunk | .record chunk _ _ _ => some chunk
  | _ => none

/-- What the history of a capture tells. -/
structure Told (parse : String → Option Json) (reads : List UInt8 → Option Json) (id : String)
    (start : Node) (es : List Event) (n : Node) : Prop where
  seen : ∀ c chunk, n.capture = some c → chunkOf c = some chunk →
    Within parse reads id start es (Seen n c chunk)
  fault : ∀ c cause, n.capture = some c → c.pc = .failing cause →
    Within parse reads id start es (Fault parse reads id)

/-- The text of the journal when the chunk was read. -/
theorem Inv.seen_text (h : n.Inv parse reads id) {c : Capture} (hc : n.capture = some c)
    {chunk : Chunk} (hpc : c.pc = .lines chunk) {m : Node} {e : Event}
    (hseen : Seen n c chunk m e) :
    ∃ more, m.text = n.takenLines.flatten ++ (chunk.data.drop chunk.consumed ++ more) ∧
      (chunk.eof = true → more = [] ∧ chunk.data.length < maxGuestLine) := by
  have hholds := h.capture c hc
  rw [hpc] at hholds
  obtain ⟨-, ⟨s, hs, -, -, hoffset⟩, hchunk⟩ := hholds
  obtain ⟨source, -, hat⟩ := h.folded
  have hlength : n.takenLines.flatten.length = chunk.offset + chunk.consumed := by
    rw [← (hat s hs).offset, hoffset]
  obtain ⟨hdata, heof⟩ := Prod.mk.inj hseen.read
  have hdrop : m.text.drop chunk.offset =
      chunk.data ++ (m.text.drop chunk.offset).drop maxGuestLine := by
    conv_lhs => rw [← List.take_append_drop maxGuestLine (m.text.drop chunk.offset), hdata]
  refine ⟨(m.text.drop chunk.offset).drop maxGuestLine, ?_, fun htrue => ?_⟩
  · have hpos := List.length_pos_iff.mpr hchunk.nonempty
    have hle : chunk.offset + chunk.consumed ≤ m.text.length := by
      have hsize := congrArg List.length hdata
      rw [List.length_take, List.length_drop] at hsize
      have := hchunk.consumed
      omega
    obtain ⟨rest, hrest⟩ := h.journal
    obtain ⟨tail, htail⟩ : n.takenLines.flatten <+: m.text :=
      List.prefix_of_prefix_length_le ⟨rest, hrest.symm⟩ hseen.before (hlength ▸ hle)
    have htail' : tail = m.text.drop (chunk.offset + chunk.consumed) := by
      rw [← hlength, ← htail, List.drop_left]
    rw [← List.drop_append_of_le_length hchunk.consumed, ← hdrop, List.drop_drop, ← htail', htail]
  · rw [htrue, decide_eq_true_iff] at heof
    refine ⟨List.drop_eq_nil_of_le heof.le, ?_⟩
    rw [← hdata, List.length_take]
    omega

theorem Seen.mono {n' m : Node} {e : Event} {c c' : Capture} {chunk chunk' : Chunk}
    (h : Seen n c chunk m e) (htext : n.text <+: n'.text) (hrun : c.run = c'.run)
    (hhash : c.requestHash = c'.requestHash) (hfinal : c.final = c'.final)
    (hread : (chunk.offset, chunk.data, chunk.eof) = (chunk'.offset, chunk'.data, chunk'.eof)) :
    Seen n' c' chunk' m e := by
  obtain ⟨hoffset, hread⟩ := Prod.mk.inj hread
  obtain ⟨c₀, source, hc₀, hpc, hr, hh, hf⟩ := h.capture
  refine ⟨h.own, ⟨c₀, source, hc₀, hpc, hr.trans hrun, hh.trans hhash, hf.trans hfinal⟩, ?_,
    h.before.trans htext⟩
  rw [← hoffset, h.read, hread]

/-- The reason for which a step of the capture begins to fail the source. -/
theorem Told.moved_fault (ht : Told parse reads id start es n) (h : n.Inv parse reads id)
    (hl : n.Linked parse reads) (htrace : Trace (Node.Step parse reads id) start es n)
    {c c' : Capture} (hc : n.capture = some c) {n' : Node} (hmoved : n.Moved parse reads c n')
    (hc' : n'.capture = some c') {cause : Cause} (hpc' : c'.pc = .failing cause) (now : ℤ) :
    Within parse reads id start (es ++ [.own now]) (Fault parse reads id) := by
  have hown : ∀ final, Event.own now ≠ .capture final := by
    intro final heq
    cases heq
  cases hmoved with
  | ends | opens | reads | record | again | takes | fails =>
    obtain rfl := Option.some.inj hc'
    cases hpc'
  | overrun hpc hsource hlarge =>
    refine .last htrace (.large now ?_)
    obtain ⟨source, -, hat⟩ := h.folded
    obtain ⟨rest, hrest⟩ := h.journal
    have hoffset := (hat _ (h.runId c hc ▸ hsource)).offset
    rw [hrest, List.length_append]
    omega
  | missing hpc hnone hfinal => exact .last htrace (.missing now hc hpc hfinal hnone)
  | @overfull source journal hpc hjournal hlarge =>
    have hholds := h.capture c hc
    rw [hpc] at hholds
    have hoffset := hholds.2.2
    refine .last htrace (.large now ?_)
    have htext : n.text = journal := by rw [text, hjournal, Option.getD_some]
    rw [fileRead, List.length_take, List.length_drop] at hlarge
    rw [htext]
    omega
  | @invalid chunk line rest current hpc hnext hcurrent hrecord =>
    obtain ⟨hline, hcomplete⟩ := Lines.next_eq_some hnext
    have hholds := h.capture c hc
    rw [hpc] at hholds
    obtain ⟨-, ⟨s, hs, hworks, hunsealed, -⟩, -⟩ := hholds
    rw [h.runId c hc, hs] at hcurrent
    obtain rfl := Option.some.inj hcurrent
    obtain ⟨source, hfold⟩ := hl c hc (by rw [Capture.reading, hpc])
    rw [h.source hs hworks hunsealed, ← takes_source hfold] at hrecord
    have hseen := ht.seen c chunk hc (by rw [chunkOf, hpc])
    refine (hseen.mono fun m e hm => ?_).snoc hown
    obtain ⟨more, hmore, -⟩ := h.seen_text hc hpc hm
    obtain ⟨now', rfl⟩ := hm.own
    obtain ⟨c₀, _, hc₀, -, hr, hh, -⟩ := hm.capture
    refine .invalid now' hc₀ ?_
    rw [hr, hh, hmore, hline, List.append_assoc, Lines.split_lines h.lines_complete,
      Lines.split_line hcomplete]
    change (foldLines parse reads c.run c.requestHash (n.taken.map Prod.fst ++ _) _).length <
      (n.taken.map Prod.fst ++ _).length
    rw [foldLines_takes hfold, foldLines, hrecord]
    simp
  | @stuck chunk hpc hnext hleft hwhole hfail =>
    have hmem := Lines.next_eq_none.mp hnext
    have hseen := ht.seen c chunk hc (by rw [chunkOf, hpc])
    refine (hseen.mono fun m e hm => ?_).snoc hown
    obtain ⟨more, hmore, heof⟩ := h.seen_text hc hpc hm
    obtain ⟨now', rfl⟩ := hm.own
    cases hlast : chunk.eof with
    | true =>
      obtain ⟨rfl, hshort⟩ := heof hlast
      obtain ⟨c₀, source, hc₀, hopened, -, -, hf⟩ := hm.capture
      refine .torn now' hc₀ hopened (hf.trans (hfail.resolve_right (by omega))) ?_
      rw [hmore, List.append_nil, Lines.split_lines h.lines_complete, Lines.split_of_not_mem hmem]
      intro hnil
      have hsize := congrArg List.length hnil
      rw [List.length_drop, List.length_nil] at hsize
      omega
    | false =>
      have hholds := h.capture c hc
      rw [hpc] at hholds
      have hfull := hholds.2.2.full hlast
      have hzero : chunk.consumed = 0 := hwhole.resolve_left (by rw [hlast]; simp)
      rw [hzero, List.drop_zero] at hmem hmore
      refine .long now' ?_
      rw [hmore, Lines.split_lines h.lines_complete, ← hfull]
      refine (Lines.split_long hmem more).imp_left fun h => ?_
      obtain ⟨line, hline, hlong⟩ := h
      exact ⟨line, List.mem_append_right _ hline, hlong⟩

/-- What was told of the chunks stays true. -/
theorem Told.step (ht : Told parse reads id start es n) (h : n.Inv parse reads id)
    (hl : n.Linked parse reads) (htrace : Trace (Node.Step parse reads id) start es n) {n' : Node}
    {e : Event} (hs : n.Step parse reads id e n') : Told parse reads id start (es ++ [e]) n' := by
  -- a step of others keeps the chunk and the reason
  have hkeep (hcapture : n'.capture = n.capture) (htext : n.text <+: n'.text)
      (hnew : ∀ final, e ≠ .capture final) : Told parse reads id start (es ++ [e]) n' := by
    refine ⟨fun c chunk hc hchunk => ?_, fun c cause hc hpc => ?_⟩
    · refine ((ht.seen c chunk (hcapture ▸ hc) hchunk).mono fun m e' hm => ?_).snoc hnew
      exact hm.mono htext rfl rfl rfl rfl
    · exact (ht.fault c cause (hcapture ▸ hc) hpc).snoc hnew
  cases step_did hs with
  | grows bytes => exact hkeep rfl ⟨bytes, rfl⟩ fun final heq => nomatch heq
  | boots | stores => exact hkeep rfl (List.prefix_refl _) fun final heq => nomatch heq
  | starts hidle hr hgrant hpc =>
    refine ⟨fun c chunk hc hchunk => ?_, fun c cause hc hfailing => ?_⟩
    · obtain rfl := Option.some.inj hc
      obtain ⟨rfl, -⟩ | ⟨rfl, -⟩ := hpc
      · cases hchunk
      · cases hchunk
    · obtain rfl := Option.some.inj hc
      obtain ⟨rfl, -⟩ | ⟨rfl, rfl, hlost⟩ := hpc
      · cases hfailing
      · exact .last htrace (.unreadable hr hlost)
  | stops =>
    refine ⟨fun c chunk hc hchunk => ?_, fun c cause hc hfailing => ?_⟩
    · obtain rfl := Option.some.inj hc
      cases hchunk
    · obtain rfl := Option.some.inj hc
      cases hfailing
  | restarts =>
    refine ⟨fun c chunk hc hchunk => ?_, fun c cause hc hfailing => ?_⟩
    · cases hc
    · cases hc
  | @moves now c _ hc hopen hmoved =>
    refine ⟨fun c' chunk hc' hchunk => ?_, fun c' cause hc' hpc' => ?_⟩
    · have hown : ∀ final, Event.own now ≠ .capture final := fun final heq => nomatch heq
      have hsame (m : Node) : m.text <+: m.text := List.prefix_refl _
      cases hmoved with
      | ends | overrun | missing | overfull | invalid | stuck | fails | opens | again =>
        obtain rfl := Option.some.inj hc'
        cases hchunk
      | @reads source journal hpc hjournal =>
        obtain rfl := Option.some.inj hc'
        obtain rfl := Option.some.inj hchunk
        have htext : n.text = journal := by rw [text, hjournal, Option.getD_some]
        refine .last htrace ⟨⟨now, rfl⟩, ⟨c, source, hc, hpc, rfl, rfl, rfl⟩, ?_, hsame n⟩
        rw [htext]
      | @record chunk₀ _ _ _ _ _ hpc =>
        obtain rfl := Option.some.inj hc'
        obtain rfl := Option.some.inj hchunk
        have hseen := ht.seen c chunk₀ hc (by rw [chunkOf, hpc])
        refine (hseen.mono fun m e hm => ?_).snoc hown
        exact hm.mono (hsame n) rfl rfl rfl rfl
      | @takes chunk₀ _ _ _ _ _ hpc =>
        obtain rfl := Option.some.inj hc'
        obtain rfl := Option.some.inj hchunk
        have hseen := ht.seen c chunk₀ hc (by rw [chunkOf, hpc])
        refine (hseen.mono fun m e hm => ?_).snoc hown
        exact hm.mono (hsame n) rfl rfl rfl rfl
    · exact ht.moved_fault h hl htrace hc hmoved hc' hpc' now

/-- The source turns failed only where a capture fails it. -/
theorem marked {n' : Node} {e : Event} (h : n.Inv parse reads id)
    (hs : n.Step parse reads id e n') {s' : ManagedRunEventStream}
    (hs' : n'.db.findStream id = some s') (hfailed : s'.sourceFailed = true) :
    (∃ s, n.db.findStream id = some s ∧ s.sourceFailed = true) ∨
      ∃ c cause, n.capture = some c ∧ c.pc = .failing cause := by
  cases step_did hs with
  | grows | boots | starts | stops | restarts => exact .inl ⟨s', hs', hfailed⟩
  | stores hother =>
    obtain ⟨s, hs, hkept⟩ := stream_kept h.sound hother hs'
    exact .inl ⟨s, hs, hkept.failed.symm.trans hfailed⟩
  | @moves _ c _ hc _ hmoved =>
    cases hmoved with
    | fails hpc => exact .inr ⟨c, _, hc, hpc⟩
    | takes hpc hok =>
      rw [h.runId c hc] at hok
      obtain ⟨_, s, t, -, -, hstream, ht, -, -, -, hsame, -⟩ := checkpoint_stored hok
      obtain rfl := Option.some.inj (ht.symm.trans hs')
      exact .inl ⟨s, hstream, hsame.symm.trans hfailed⟩
    | _ => exact .inl ⟨s', hs', hfailed⟩

/-- At some point of the history this was the row of the run, with a delivery of this hash. -/
def Rowed (parse : String → Option Json) (reads : List UInt8 → Option Json) (id : String)
    (start : Node) (es : List Event) (run : ManagedRun) (hash : String) : Prop :=
  ∃ before after m, es = before ++ after ∧ Trace (Node.Step parse reads id) start before m ∧
    m.db.find id = some run ∧ grant parse run = some hash

theorem Rowed.snoc {run : ManagedRun} {hash : String}
    (h : Rowed parse reads id start es run hash) (e : Event) :
    Rowed parse reads id start (es ++ [e]) run hash := by
  obtain ⟨before, after, m, rfl, htrace, hr, hgrant⟩ := h
  exact ⟨before, after ++ [e], m, List.append_assoc _ _ _, htrace, hr, hgrant⟩

/-- The stored lines are folded with the run of the row. -/
structure Owned (parse : String → Option Json) (reads : List UInt8 → Option Json) (id : String)
    (start : Node) (es : List Event) (n : Node) : Prop where
  capture : ∀ c, n.capture = some c → Rowed parse reads id start es c.run c.requestHash
  taken : n.taken = [] ∨ ∃ run hash source, Rowed parse reads id start es run hash ∧
    Trace (Takes parse reads run hash) {} n.taken source

/-- Every row that a capture uses was there. -/
theorem Owned.step (ho : Owned parse reads id start es n)
    (htrace : Trace (Node.Step parse reads id) start es n) {n' : Node} {e : Event}
    (hs : n.Step parse reads id e n') (hl' : n'.Linked parse reads) :
    Owned parse reads id start (es ++ [e]) n' := by
  have hkeep : n.taken = [] ∨ ∃ run hash source, Rowed parse reads id start (es ++ [e]) run hash ∧
      Trace (Takes parse reads run hash) {} n.taken source :=
    ho.taken.imp_right fun ⟨run, hash, source, hrow, hfold⟩ =>
      ⟨run, hash, source, hrow.snoc e, hfold⟩
  cases step_did hs with
  | grows | boots | stores => exact ⟨fun c hc => (ho.capture c hc).snoc _, hkeep⟩
  | starts hidle hr hgrant =>
    refine ⟨fun c hc => ?_, hkeep⟩
    obtain rfl := Option.some.inj hc
    exact ⟨es, [_], n, rfl, htrace, hr, hgrant⟩
  | stops _ hc =>
    refine ⟨fun c' hc' => ?_, hkeep⟩
    obtain rfl := Option.some.inj hc'
    exact (ho.capture _ hc).snoc _
  | restarts =>
    refine ⟨fun c hc => ?_, hkeep⟩
    cases hc
  | @moves now c _ hc hopen hmoved =>
    have hrow := (ho.capture c hc).snoc (.own now)
    cases hmoved with
    | takes hpc hok =>
      obtain ⟨source, hfold⟩ := hl' _ rfl rfl
      refine ⟨fun c' hc' => ?_, .inr ⟨c.run, c.requestHash, source, hrow, hfold⟩⟩
      obtain rfl := Option.some.inj hc'
      exact hrow
    | _ =>
      refine ⟨fun c' hc' => ?_, hkeep⟩
      obtain rfl := Option.some.inj hc'
      exact hrow

/-- A whole history. -/
theorem history (hfresh : start.Fresh id) (htrace : Trace (Node.Step parse reads id) start es n) :
    n.Inv parse reads id ∧ n.Linked parse reads ∧ Told parse reads id start es n ∧
      Owned parse reads id start es n := by
  induction htrace with
  | nil =>
    refine ⟨hfresh.inv, fun c hc => ?_, ⟨fun c chunk hc => ?_, fun c cause hc => ?_⟩,
      fun c hc => ?_, .inl hfresh.taken⟩
    all_goals cases hfresh.capture.symm.trans hc
  | snoc htrace hs ih =>
    obtain ⟨h, hl, ht, ho⟩ := ih
    have hl' := hl.step h hs
    exact ⟨h.step hs, hl', ht.step h hl htrace hs, ho.step htrace hs hl'⟩

end History

end Node

/-- Capture of the guest's journal. What is stored is a first part of the fold of the complete
lines, each line once and in order; the cursor stands behind them; every stored checkpoint keeps
the identity of those before it; a capture takes a bounded number of steps, and has a next
one until it is finished; and the source turns failed only in a capture that saw a fault. -/
theorem guest_capture_exact (hback : ReadsBack parse reads) {start n : Node} {es : List Event}
    (hfresh : start.Fresh id) (htrace : Trace (Node.Step parse reads id) start es n) :
    (n.taken = [] ∨ ∃ run hash, Node.Rowed parse reads id start es run hash ∧
      n.taken.map Prod.snd <+: foldLines parse reads run hash (Lines.split newline n.text).1 {}) ∧
    n.takenLines <+: (Lines.split newline n.text).1 ∧
    (∀ s, n.db.findStream id = some s →
      s.sourceOffset = n.takenLines.flatten.length ∧ s.guestSeq = n.taken.length) ∧
    n.taken.Pairwise (fun p q => SameIdentity parse p.2 q.2) ∧
    (∀ es' n', Trace (Node.Step parse reads id) n es' n' → (∀ final, .capture final ∉ es') →
      es'.countP Event.isOwn ≤ 5 * maxGuestJournal + 5) ∧
    (n.busy = true → ∀ now, ∃ n', n.Step parse reads id (.own now) n') ∧
    (∀ e n' s', n.Step parse reads id e n' → n'.db.findStream id = some s' →
      s'.sourceFailed = true →
        (∃ s, n.db.findStream id = some s ∧ s.sourceFailed = true) ∨
        Node.Within parse reads id start es (Node.Fault parse reads id)) := by
  obtain ⟨h, hl, ht, ho⟩ := Node.history hfresh htrace
  obtain ⟨lines, hlines⟩ := h.split
  refine ⟨?_, ⟨lines, hlines.symm⟩, ?_, ?_, ?_, ?_, ?_⟩
  · refine ho.taken.imp_right fun ⟨run, hash, source, hrow, hfold⟩ => ⟨run, hash, hrow, ?_⟩
    rw [hlines, Node.takenLines, foldLines_takes hfold]
    exact List.prefix_append _ _
  · intro s hs
    obtain ⟨source, hfolded, hat⟩ := h.folded
    refine ⟨(hat s hs).offset, (hat s hs).guestSeq.trans ?_⟩
    rw [hfolded.source]
    rfl
  · obtain hnil | ⟨run, hash, source, -, hfold⟩ := ho.taken
    · rw [hnil]
      exact .nil
    · exact takes_identity hback hfold
  · intro es' n' htrace' hnew
    have hbound := h.own_steps htrace' hnew
    have hrank := n.rank_le id
    omega
  · intro hbusy now
    obtain ⟨c, hc, hopen⟩ := (Option.any_eq_true _ _).mp hbusy
    rw [Bool.not_eq_true'] at hopen
    exact ⟨_, Node.step_own hc hopen now⟩
  · intro e n' s' hs hs' hfailed
    refine (Node.marked h hs hs' hfailed).imp_right ?_
    rintro ⟨c, cause, hc, hpc⟩
    exact ht.fault c cause hc hpc

section Sample

/-- A checkpoint of the run `job`. -/
def guestCheckpoint : Json :=
  .obj [("bootId", .str "b"), ("messageId", .str "msg_1"), ("phase", .str "running"),
    ("requestHash", .str "h"), ("runId", .str "job"), ("schema", .num "1"),
    ("sessionId", .str "ses_1"), ("text", .str "")]

/-- Reads the texts of the request and of the checkpoint. -/
def guestParse (text : String) : Option Json :=
  if text = sampleRequest then some sampleDocument
  else if text = guestCheckpoint.render then some guestCheckpoint
  else none

/-- The record of this checkpoint. -/
def guestDocument : Json :=
  .obj [("checkpoint", guestCheckpoint), ("schema", .num "1"), ("seq", .num "1")]

/-- The record as the guest prints it, in ASCII. -/
def guestLine : List UInt8 := guestDocument.render.toList.map fun c => UInt8.ofNat c.toNat

/-- Reads this line. -/
def guestReads (line : List UInt8) : Option Json :=
  if line = guestLine then some guestDocument else none

/-- The run of the sample. -/
def guestRun : ManagedRun :=
  { ManagedRun.starting "job" "vm" "u" sampleRequest 1 100 with bootId := some "b" }

/-- Its stream, from which nothing has been read. -/
def guestStream : ManagedRunEventStream := { runId := "job", deliveryJson := "", retryUntil := 0 }

/-- A run whose guest has booted, before any capture. -/
def guestNode : Node where
  db := { runs := [guestRun], streams := [guestStream] }
  boot := some "b"

/-- A node without a capture is fresh. -/
theorem guestNode_fresh : guestNode.Fresh "job" where
  sound := ⟨List.pairwise_singleton _ _, List.pairwise_singleton _ _, by decide⟩
  stream := by decide +kernel
  capture := rfl
  taken := rfl

/-- What the sample stores is read back. -/
theorem guestParse_readsBack : ReadsBack guestParse guestReads where
  stored := by
    intro text value hvalue
    refine ⟨value, ?_, fun path _ => rfl⟩
    unfold guestParse at hvalue
    split at hvalue
    · obtain rfl := Option.some.inj hvalue
      decide +kernel
    · split at hvalue
      · obtain rfl := Option.some.inj hvalue
        decide +kernel
      · cases hvalue
  candidate := by
    intro line record text checkpoint normal hread hcandidate hnormal
    unfold guestReads at hread
    split at hread
    · obtain rfl := Option.some.inj hread
      obtain rfl := Option.some.inj hcandidate
      have hself : guestParse guestCheckpoint.render = some guestCheckpoint := by decide +kernel
      obtain rfl := Option.some.inj (hself.symm.trans hnormal)
      exact fun path _ => rfl
    · cases hread

/-- The record is written, with the start of another line, and captured. -/
theorem guest_capture_exact_sample :
    ∃ n, Trace (Node.Step guestParse guestReads "job") guestNode
        [.grow (guestLine ++ [newline, 123]), .capture false, .own 1, .own 2, .own 3, .own 4,
          .own 5] n ∧
      n.taken.length = 1 ∧ n.takenLines <+: (Lines.split newline n.text).1 := by
  have hrun : ([.grow (guestLine ++ [newline, 123]), .capture false, .own 1, .own 2, .own 3,
      .own 4, .own 5].foldlM (Node.next guestParse guestReads "job") guestNode).any
      (fun n => n.taken.length = 1) = true := by decide +kernel
  obtain ⟨n, hn, htaken⟩ := (Option.any_eq_true _ _).mp hrun
  have htrace := Trace.of_foldlM hn
  exact ⟨n, htrace, by simpa using htaken,
    (guest_capture_exact guestParse_readsBack guestNode_fresh htrace).2.1⟩

/-- The node in its first capture, with a journal. -/
def guestAt (text : List UInt8) (iterations : ℕ) (pc : Pc) : Node :=
  { guestNode with journal := some text, capture := some ⟨guestRun, "h", false, iterations, pc⟩ }

/-- The events of a capture that meets a line without end. -/
def unfinishedEvents (text : List UInt8) : List Event :=
  [.grow text, .capture false, .own 1, .own 2, .own 3, .own 4]

/-- A capture fails the source as soon as it sees `maxGuestLine` bytes without a newline. -/
theorem fails_unfinished {text : List UInt8} (hlength : text.length = maxGuestLine)
    (hmem : newline ∉ text) :
    ∃ n s, Trace (Node.Step guestParse guestReads "job") guestNode (unfinishedEvents text) n ∧
      n.db.findStream "job" = some s ∧ s.sourceFailed = true ∧ n.text = text := by
  let chunk : Chunk := ⟨0, text, false, 0⟩
  have hread : fileRead text 0 maxGuestLine = (text, false) := by
    rw [fileRead, List.drop_zero, List.take_of_length_le hlength.le, hlength]
    simp
  have hne : text ≠ [] := by
    rintro rfl
    cases hlength
  have hnext : Lines.next newline (text.drop 0) = none := Lines.next_eq_none.mpr hmem
  have hstream : guestNode.db.stream "job" = .ok guestStream := stream_ok.mpr (by decide +kernel)
  have h₁ : guestNode.Step guestParse guestReads "job" (.grow text)
      { guestNode with journal := some text } := rfl
  have h₂ : Node.Step guestParse guestReads "job" { guestNode with journal := some text }
      (.capture false) (guestAt text 0 .top) := by
    have hfind : guestNode.db.find "job" = some guestRun := by decide +kernel
    have hgrant : grant guestParse guestRun = some "h" := by decide +kernel
    change (guestNode.db.find "job").bind (fun run => (grant guestParse run).bind fun hash =>
      Node.start { guestNode with journal := some text } run hash false) = _
    rw [hfind, Option.bind_some, hgrant]
    rfl
  have h₃ : (guestAt text 0 .top).advance guestParse guestReads
      ⟨guestRun, "h", false, 0, .top⟩ 1 = guestAt text 0 (.opened guestStream) := by
    unfold Node.advance
    dsimp only
    rw [show (guestAt text 0 .top).db.stream guestRun.id = .ok guestStream from hstream]
    rfl
  have h₄ : (guestAt text 0 (.opened guestStream)).advance guestParse guestReads
      ⟨guestRun, "h", false, 0, .opened guestStream⟩ 2 = guestAt text 0 (.lines chunk) := by
    have hsmall : ¬(maxGuestLine < text.length ∨ maxGuestJournal < 0 + text.length) := by
      rw [hlength]
      decide
    simp only [Node.advance, guestAt, guestStream, hread, if_neg hne, if_neg hsmall]
    rfl
  have h₅ : (guestAt text 0 (.lines chunk)).advance guestParse guestReads
      ⟨guestRun, "h", false, 0, .lines chunk⟩ 3 = guestAt text 1 (.failing .longLine) := by
    simp only [Node.advance, chunk, hnext, hlength]
    rfl
  have hown {iterations : ℕ} {pc : Pc} {now : ℤ} {n : Node}
      (hopen : (⟨guestRun, "h", false, iterations, pc⟩ : Capture).finished = false)
      (h : (guestAt text iterations pc).advance guestParse guestReads
        ⟨guestRun, "h", false, iterations, pc⟩ now = n) :
      (guestAt text iterations pc).Step guestParse guestReads "job" (.own now) n :=
    h ▸ Node.step_own rfl hopen now
  refine ⟨_, guestStream.failed, .cons h₁ (.cons h₂ (.cons (hown rfl h₃) (.cons (hown rfl h₄)
    (.cons (hown rfl h₅) (.cons (hown rfl rfl) .nil))))), ?_, rfl, rfl⟩
  rfl

/-- A periodic capture fails the source of a readable guest though no line is complete and the
journal is small. -/
theorem source_fails_on_unfinished_line :
    ∃ es n s, guestNode.Fresh "job" ∧
      Trace (Node.Step guestParse guestReads "job") guestNode es n ∧
      n.db.findStream "job" = some s ∧ s.sourceFailed = true ∧ .capture true ∉ es ∧
      (Lines.split newline n.text).1 = [] ∧ n.text.length ≤ maxGuestJournal := by
  have hmem : newline ∉ List.replicate maxGuestLine (0 : UInt8) :=
    fun h => absurd (List.eq_of_mem_replicate h) (by decide)
  obtain ⟨n, s, htrace, hs, hfailed, htext⟩ := fails_unfinished List.length_replicate hmem
  refine ⟨_, n, s, guestNode_fresh, htrace, hs, hfailed, by simp [unfinishedEvents], ?_, ?_⟩
  · rw [htext, Lines.split_of_not_mem hmem]
  · rw [htext, List.length_replicate]
    decide

end Sample

end AgentHouse.Runs
