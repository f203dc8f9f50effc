import AgentHouse.Runs.Outbox

/-!
# Streams and deletion

Streams survive the deletion of their run. An unsealed stream has its unfinished run, whose receipt
gives its space back, unless the run's sandbox was deleted before the receipt; the callers of the
store see to it that this does not happen. Whatever was deleted, a sealed stream that is delivered
after its run is gone goes with the next cleanup.
-/

namespace AgentHouse.Runs

/-- The operation does not delete the sandbox of this run while the run is unfinished and has an
event stream. -/
def Op.Spares (id : String) (db : Db) (op : Op) : Prop :=
  ∀ r, db.find id = some r → r.finishedAt = none → (db.findStream id).isSome = true →
    ¬op.Dooms db r

/-- An unsealed stream has its unfinished run. -/
def Lane.Held (l : Lane) : Prop :=
  ∀ s, l.stream = some s → s.isSealed = false → ∃ r, l.run = some r ∧ r.finishedAt = none

section Held

variable {parse : String → Option Json} {db db' : Db} {op : Op} {id : String} {l l' : Lane}

theorem Lane.Held.gone {run : Option ManagedRun} {queue : List ManagedRunEvent} :
    Lane.Held { run := run, stream := none, queue := queue } := by
  intro s hs
  cases hs

/-- A move that spares the run keeps its lane held. -/
theorem Move.held (hok : l.Ok) (h : l.Held)
    (hspares : ∀ r, l.run = some r → r.finishedAt = none → l.stream.isSome = true →
      ¬op.Dooms db r)
    (hmove : Move parse db op id l l') : l'.Held := by
  have hok' := hmove.ok hok
  cases hmove with
  | same => exact h
  | admitted hrun hstream hdelivery =>
    intro s _ _
    exact ⟨_, rfl, rfl⟩
  | claimed hrun hopen =>
    intro s _ _
    exact ⟨_, rfl, hopen⟩
  | updated hrun hopen hepoch hsession hboot hstream =>
    rename_i report r phase
    intro s hs hunsealed
    refine ⟨_, rfl, ?_⟩
    have hseal := hok'.sealed_iff s _ hs rfl
    by_contra hfinished
    rw [hseal.mpr hfinished] at hunsealed
    cases hunsealed
  | finished =>
    intro s hs hunsealed
    obtain rfl := Option.some.inj hs
    cases hunsealed
  | checkpointed hrun hopen =>
    intro s _ _
    exact ⟨_, hrun, hopen⟩
  | sourceFailed hrun hopen =>
    intro s _ _
    exact ⟨_, hrun, hopen⟩
  | acknowledged hstream =>
    intro s hs hunsealed
    obtain rfl := Option.some.inj hs
    exact h _ hstream hunsealed
  | settled hrun hstream =>
    intro s hs hunsealed
    obtain rfl := Option.some.inj hs
    exact h _ hstream hunsealed
  | drained | cleaned => exact .gone
  | deleted hrun hdoomed =>
    intro s hs hunsealed
    obtain ⟨r, hr, hopen⟩ := h s hs hunsealed
    obtain rfl := Option.some.inj (hrun.symm.trans hr)
    exact absurd hdoomed (hspares _ hrun hopen (by rw [show l.stream = some s from hs]; rfl))

/-- By induction on the run, a lane that was always spared is held. -/
theorem Reachable.held (h : Reachable parse (Op.Spares id) db) : (db.lane id).Held := by
  have hall : db.Sound ∧ (db.lane id).Ok ∧ (db.lane id).Held := by
    apply h.invariant
    · exact ⟨.empty, .gone, .gone⟩
    · intro db op db' reply ⟨hsound, hlane, hheld⟩ hop hok
      obtain ⟨hsound', hmoves⟩ := Op.body_moves hsound hok
      exact ⟨hsound', (hmoves id).ok hlane, (hmoves id).held hlane hheld hop⟩
  exact hall.2.2

/-- A delivered stream of a deleted run goes with a cleanup. -/
theorem Db.Sound.cleanup_removes (h : db.Sound) {s : ManagedRunEventStream}
    (hs : db.findStream id = some s) (hcomplete : s.complete = true) (hr : db.find id = none) :
    (cleanupRetiredStreams db).findStream id = none := by
  have hlane := h.lane_cleanup (j := id)
  rw [any_retired hs, hcomplete, hr, if_pos (by rfl)] at hlane
  exact congrArg Lane.stream hlane

/-- It goes with the admission of another run as well. -/
theorem Db.Sound.admit_removes (h : db.Sound) {s : ManagedRunEventStream} {other : String}
    {sandboxId ownerId request : String} {now deadlineAt : ℤ} {run : ManagedRun}
    (hs : db.findStream id = some s) (hcomplete : s.complete = true) (hr : db.find id = none)
    (hne : id ≠ other)
    (hok : admitManagedRun parse db other sandboxId ownerId request now deadlineAt =
      .ok (db', run, true)) :
    db'.findStream id = none := by
  cases hfind : db.find other with
  | some existing => cases (admit_existing hfind hok).2.2
  | none =>
    obtain ⟨-, hstream, -⟩ := admit_ok hfind hok
    have hmid := h.addRun (r := .starting other sandboxId ownerId request now deadlineAt) hfind
    have hlane := lane_addRun (j := id)
      (r := .starting other sandboxId ownerId request now deadlineAt) hfind
    rw [if_neg (by exact hne)] at hlane
    have hgone := hmid.cleanup_removes hs hcomplete ((congrArg Lane.run hlane).trans hr)
    obtain ⟨hnone, hcase⟩ := admitStream_ok (find_starting hfind) hstream
    rcases hcase with ⟨-, rfl⟩ | ⟨delivery, -, rfl, -⟩
    · exact hgone
    · rw [findStream_addStream hnone, if_neg (by exact hne)]
      exact hgone

/-- A failed sequence fails in its first part or after it. -/
theorem bind_error {α β : Type} {x : Result α} {f : α → Result β} {e : Error}
    (h : x >>= f = .error e) : x = .error e ∨ ∃ a, x = .ok a ∧ f a = .error e := by
  cases x with
  | error e' =>
    have herror : (.error e' : Result β) = .error e := h
    exact .inl (by rw [Except.error.inj herror])
  | ok a => exact .inr ⟨a, rfl, h⟩

/-- The error for a run that is not there. -/
theorem get_error {e : Error} (h : db.get id = .error e) :
    e = .notFound s!"managed run {id}" := by
  unfold Db.get at h
  split at h
  · cases h
  · exact (Except.error.inj h).symm

/-- An id without a stream is not retained. -/
theorem admitStream_not_retained {request : String} (h : db.Sound)
    (hs : db.findStream id = none) :
    admitStream parse db id request ≠
      .error (.conflict "managed event run identity is retained") := by
  intro hrefused
  have hnone : (cleanupRetiredStreams db).findStream id = none := by
    rw [cleanupRetiredStreams, h.findStream_deleteStreams, hs]
    rfl
  unfold admitStream at hrefused
  simp only [hnone, Option.isSome_none, Bool.false_eq_true, ↓reduceIte] at hrefused
  split at hrefused
  · cases hrefused
  rcases bind_error hrefused with hget | ⟨run, -, hrefused⟩
  · cases get_error hget
  split at hrefused
  · simp at hrefused
  split at hrefused
  · simp at hrefused
  · cases hrefused

/-- Without a stream of its id, an admission is not refused for a retained identity. -/
theorem admit_not_retained {sandboxId ownerId request : String} {now deadlineAt : ℤ}
    (h : db.Sound) (hr : db.find id = none) (hs : db.findStream id = none) :
    admitManagedRun parse db id sandboxId ownerId request now deadlineAt ≠
      .error (.conflict "managed event run identity is retained") := by
  intro hrefused
  unfold admitManagedRun at hrefused
  rw [hr] at hrefused
  simp only at hrefused
  split at hrefused
  · simp at hrefused
  split at hrefused
  · simp at hrefused
  split at hrefused
  · simp at hrefused
  split at hrefused
  · simp at hrefused
  have hmid := h.addRun (r := .starting id sandboxId ownerId request now deadlineAt) hr
  rcases bind_error hrefused with hstream | ⟨final, -, hrefused⟩
  · exact admitStream_not_retained hmid hs hstream
  rcases bind_error hrefused with hget | ⟨saved, -, hrefused⟩
  · cases get_error hget
  · cases hrefused

/-- Outbox space and run ids do not leak. A stream whose run was not deleted before its receipt is
sealed or has its unfinished run. And whatever was deleted, a sealed stream without events whose run
is gone is complete, is removed by the next cleanup, sandbox deletion or admission of another run,
and then its id may be admitted again. -/
theorem outbox_never_leaks (h : Reachable parse (fun _ _ => True) db) (id : String)
    (s : ManagedRunEventStream) (hs : db.findStream id = some s) :
    (Reachable parse (Op.Spares id) db →
      s.isSealed = true ∨ ∃ r, db.find id = some r ∧ r.finishedAt = none) ∧
    (s.isSealed = true → db.find id = none → db.queue id = [] →
      s.complete = true ∧
      (cleanupRetiredStreams db).findStream id = none ∧
      (∀ sandbox, (deleteSandbox db sandbox).findStream id = none) ∧
      (∀ other sandboxId ownerId request now deadlineAt db' run, id ≠ other →
        admitManagedRun parse db other sandboxId ownerId request now deadlineAt =
          .ok (db', run, true) → db'.findStream id = none) ∧
      ∀ sandboxId ownerId request now deadlineAt,
        admitManagedRun parse (cleanupRetiredStreams db) id sandboxId ownerId request now
          deadlineAt ≠ .error (.conflict "managed event run identity is retained")) := by
  have hsound := h.sound
  constructor
  · intro hspared
    cases hsealed : s.isSealed with
    | true => exact .inl rfl
    | false => exact .inr (hspared.held s hs hsealed)
  intro hsealed hr hqueue
  have hlane := h.lanes id
  have hcomplete : s.complete = true := by
    have hseqs := (hlane.delivers s hs).seqs
    have hlt := (hlane.delivers s hs).acked_lt
    rw [show (db.lane id).queue = [] from hqueue, List.map_nil, eq_comm, List.range'_eq_nil_iff]
      at hseqs
    rw [ManagedRunEventStream.complete, hsealed, Bool.true_and, decide_eq_true_eq]
    omega
  have hgone := hsound.cleanup_removes hs hcomplete hr
  refine ⟨hcomplete, hgone, ?_, ?_, ?_⟩
  · intro sandbox
    apply hsound.cascade.cleanup_removes hs hcomplete
    rw [hsound.find_cascade, hr]
    rfl
  · intro other sandboxId ownerId request now deadlineAt db' run hne hok
    exact hsound.admit_removes hs hcomplete hr hne hok
  · intro sandboxId ownerId request now deadlineAt
    exact admit_not_retained hsound.cleanup hr hgone

end Held

section Sample

/-- Three runs: the first is finished, delivered and then deleted by a process that stops before the
cleanup, the second is deleted while it is unfinished, and the third goes on. -/
def retiredOps : List Op :=
  [.createSandbox { id := "vm", ownerUserId := "u" },
    .createSandbox { id := "old", ownerUserId := "u" },
    .createSandbox { id := "new", ownerUserId := "u" },
    .admission "job" "vm" "u" sampleRequest 1 100,
    .admission "late" "old" "u" sampleRequest 1 100,
    .admission "open" "new" "u" sampleRequest 1 100,
    .deleteSandbox "old",
    .update "job" 1 { phase := "succeeded", sessionId := none, bootId := none, exitCode := some 0
                      detail := none, terminal := true } 3,
    .acknowledge "job" 1,
    .stopAfterDelete "vm"]

/-- Every operation of a list spares the run in its turn. -/
def Op.sparesAll (parse : String → Option Json) (id : String) : List Op → Db → Bool
  | [], _ => true
  | op :: rest, db =>
      (!(db.find id).any fun r => r.finishedAt.isNone && (db.findStream id).isSome &&
        db.sandboxes.any fun b => op.deletes db b && decide (b.id = r.sandboxId)) &&
      Op.sparesAll parse id rest (op.exec parse db).1

/-- Operations that spare the run lead to such a store. -/
theorem Reachable.sparesAll {parse : String → Option Json} {id : String} {ops : List Op} {db : Db}
    (h : Reachable parse (Op.Spares id) db) (hops : Op.sparesAll parse id ops db = true) :
    Reachable parse (Op.Spares id) (Op.execAll parse ops db) := by
  induction ops generalizing db with
  | nil => exact h
  | cons op rest ih =>
    rw [Op.sparesAll, Bool.and_eq_true, Bool.not_eq_true', Option.any_eq_false] at hops
    apply ih (h.step _) hops.2
    intro r hr hopen hstream ⟨b, hb, hdeletes, hid⟩
    have hcheck := hops.1 r hr
    rw [hopen, hstream, Option.isNone_none, Bool.true_and, Bool.true_and, List.any_eq_false]
      at hcheck
    exact hcheck b hb (by simp [hdeletes, hid])

/-- The stream of the run deleted too early is left, that of the delivered run is not, and the
unfinished run keeps its own. -/
theorem outbox_never_leaks_sample :
    ((Op.execAll sampleParse retiredOps {}).findStream "late").any (!·.isSealed) = true ∧
      ((Op.execAll sampleParse retiredOps {}).findStream "job").isSome = true ∧
      (cleanupRetiredStreams (Op.execAll sampleParse retiredOps {})).findStream "job" = none ∧
      ∃ r, (Op.execAll sampleParse retiredOps {}).find "open" = some r ∧ r.finishedAt = none := by
  have hreach : Reachable sampleParse (fun _ _ => True) (Op.execAll sampleParse retiredOps {}) :=
    Reachable.empty.execAll fun _ _ _ => trivial
  have hspared : Reachable sampleParse (Op.Spares "open")
      (Op.execAll sampleParse retiredOps {}) := Reachable.empty.sparesAll (by decide +kernel)
  have hdelivered : ((Op.execAll sampleParse retiredOps {}).findStream "job").any (·.isSealed) =
      true := by decide +kernel
  have hopen : ((Op.execAll sampleParse retiredOps {}).findStream "open").any (!·.isSealed) =
      true := by decide +kernel
  obtain ⟨s, hs, hsealed⟩ := (Option.any_eq_true _ _).mp hdelivered
  obtain ⟨t, ht, hunsealed⟩ := (Option.any_eq_true _ _).mp hopen
  have hqueue : (Op.execAll sampleParse retiredOps {}).queue "job" = [] := by
    rw [← List.length_eq_zero_iff]
    decide +kernel
  obtain ⟨-, hgone, -⟩ :=
    (outbox_never_leaks hreach "job" s hs).2 hsealed (by decide +kernel) hqueue
  refine ⟨by decide +kernel, by rw [hs]; rfl, hgone, ?_⟩
  rcases (outbox_never_leaks hreach "open" t ht).1 hspared with hclosed | hrun
  · rw [hclosed] at hunsealed
    cases hunsealed
  · exact hrun

/-- Deleting the sandbox of an unfinished run leaves its unsealed stream without a run, and no
cleanup removes it although it has no events; and an admission of a deleted run's own id does not
remove the delivered stream, but is refused. -/
theorem deleted_run_leaves_stream :
    (∃ db s, Reachable sampleParse (fun _ _ => True) db ∧ db.findStream "job" = some s ∧
      s.isSealed = false ∧ db.find "job" = none ∧ db.queue "job" = [] ∧
      ((cleanupRetiredStreams db).findStream "job").isSome = true) ∧
    ∃ db, Reachable sampleParse (fun _ _ => True) db ∧
      db.find "job" = none ∧ (db.findStream "job").any (·.complete) = true ∧
      db.queue "job" = [] ∧
      (Op.admission "job" "vm" "u" sampleRequest 4 100).exec sampleParse db =
        (db, .error (.conflict "managed event run identity is retained")) := by
  constructor
  · refine ⟨Op.execAll sampleParse (sampleOps.take 2 ++ [.deleteSandbox "vm"]) {},
      .fresh "job" (.obj [("request_hash", .str "h")]) 100,
      Reachable.empty.execAll fun _ _ _ => trivial, by decide +kernel, rfl, by decide +kernel, ?_,
      by decide +kernel⟩
    rw [← List.length_eq_zero_iff]
    decide +kernel
  · refine ⟨Op.execAll sampleParse (retiredOps ++
      [.createSandbox { id := "vm", ownerUserId := "u" }])
      {}, Reachable.empty.execAll fun _ _ _ => trivial, by decide +kernel, by decide +kernel, ?_,
      exec_refused (eq_error_of_refusal (by decide +kernel))⟩
    rw [← List.length_eq_zero_iff]
    decide +kernel

end Sample

end AgentHouse.Runs
