import AgentHouse.Runs.Outbox

/-!
# Fenced receipts

A receipt belongs to the controller of its current epoch. Epochs grow, native identities bind
once, and a finished receipt is final; an admission is exclusive in its sandbox unless
every run there is isolated.
-/

namespace AgentHouse.Runs

/-- What may become of a receipt while its row is there. -/
structure ManagedRun.Follows (r r' : ManagedRun) : Prop where
  epoch : r.epoch ≤ r'.epoch
  session : ∀ session, r.sessionId = some session → r'.sessionId = some session
  boot : ∀ boot, r.bootId = some boot → r'.bootId = some boot
  final : r.finishedAt ≠ none → r' = r

/-- Operations through which the row of `id` is there all the time. -/
inductive Retains (parse : String → Option Json) (id : String) : Db → Db → Prop
  | refl {db : Db} {r : ManagedRun} (h : db.find id = some r) : Retains parse id db db
  | step {db mid : Db} {r : ManagedRun} (op : Op) (h : Retains parse id db mid)
      (hr : (op.exec parse mid).1.find id = some r) : Retains parse id db (op.exec parse mid).1

/-- Unfinished runs of one sandbox are isolated from each other. -/
def Db.Exclusive (parse : String → Option Json) (db : Db) : Prop :=
  ∀ i j r t, i ≠ j → db.find i = some r → db.find j = some t → r.sandboxId = t.sandboxId →
    r.finishedAt = none → t.finishedAt = none →
      isolated parse r.requestJson = true ∧ isolated parse t.requestJson = true

section Follow

variable {parse : String → Option Json} {db : Db} {op : Op} {id : String} {l l' : Lane}
  {r r' : ManagedRun}

theorem ManagedRun.Follows.refl (r : ManagedRun) : r.Follows r :=
  ⟨le_rfl, fun _ h => h, fun _ h => h, fun _ => rfl⟩

theorem ManagedRun.Follows.trans {t : ManagedRun} (h : r.Follows r') (h' : r'.Follows t) :
    r.Follows t where
  epoch := h.epoch.trans h'.epoch
  session := fun s hs => h'.session s (h.session s hs)
  boot := fun b hb => h'.boot b (h.boot b hb)
  final := by
    intro hfinished
    have hsame := h.final hfinished
    rw [h'.final (by rwa [hsame]), hsame]

/-- A known identity is kept by a report that does not replace it. -/
theorem or_of_not_replaces {new old : Option String} (h : replaces new old = false) {x : String}
    (hold : old = some x) : new.or old = some x := by
  subst hold
  cases new with
  | none => rfl
  | some y =>
    have hy : y = x := by simpa [replaces] using h
    rw [hy]
    rfl

/-- A report of the same session and boot follows. -/
theorem ManagedRun.report_follows {phase : Phase} {report : Report} {now : ℤ}
    (hopen : r.finishedAt = none) (hsession : replaces report.sessionId r.sessionId = false)
    (hboot : replaces report.bootId r.bootId = false) : r.Follows (r.report phase report now) where
  epoch := le_rfl
  session := fun _ hs => or_of_not_replaces hsession hs
  boot := fun _ hb => or_of_not_replaces hboot hb
  final := fun hfinished => absurd hopen hfinished

/-- Every move of a run follows the run before it. -/
theorem Move.follows (hmove : Move parse db op id l l') (hr : l.run = some r)
    (hr' : l'.run = some r') : r.Follows r' := by
  cases hmove with
  | same | sourceFailed | acknowledged | settled | checkpointed =>
    obtain rfl := Option.some.inj (hr.symm.trans hr')
    exact .refl r
  | admitted hrun => cases hrun.symm.trans hr
  | claimed hrun hopen =>
    obtain rfl := Option.some.inj (hr.symm.trans hrun)
    obtain rfl := Option.some.inj hr'
    exact ⟨Int.le_add_one le_rfl, fun _ h => h, fun _ h => h, fun h => absurd hopen h⟩
  | updated hrun hopen _ hsession hboot | finished hrun hopen _ hsession hboot =>
    obtain rfl := Option.some.inj (hr.symm.trans hrun)
    obtain rfl := Option.some.inj hr'
    exact ManagedRun.report_follows hopen hsession hboot
  | drained | deleted | cleaned => cases hr'

/-- A receipt in a lane is an old one of the same request, or the admitted one. -/
theorem Move.origin (hmove : Move parse db op id l l') (hr' : l'.run = some r') :
    (∃ r, l.run = some r ∧ r.sandboxId = r'.sandboxId ∧ r.requestJson = r'.requestJson ∧
      (r'.finishedAt = none → r.finishedAt = none)) ∨
    l.run = none ∧ ∃ sandboxId ownerId request now deadlineAt,
      op = .admission id sandboxId ownerId request now deadlineAt ∧
      r' = .starting id sandboxId ownerId request now deadlineAt := by
  cases hmove with
  | same | sourceFailed | acknowledged | settled | checkpointed =>
    exact .inl ⟨r', hr', rfl, rfl, fun h => h⟩
  | admitted hrun =>
    obtain rfl := Option.some.inj hr'
    exact .inr ⟨hrun, _, _, _, _, _, rfl, rfl⟩
  | claimed hrun hopen | updated hrun hopen | finished hrun hopen =>
    obtain rfl := Option.some.inj hr'
    exact .inl ⟨_, hrun, rfl, rfl, fun _ => hopen⟩
  | drained | deleted | cleaned => cases hr'

end Follow

section Fence

variable {parse : String → Option Json} {db db' : Db} {op : Op} {id : String}

/-- An admission found the unfinished runs of its sandbox isolated, and its own request too. -/
theorem admitted_isolated {sandboxId ownerId request : String} {now deadlineAt : ℤ} {reply : Reply}
    {j : String} {t : ManagedRun} (hnew : db.find id = none)
    (hok : (Op.admission id sandboxId ownerId request now deadlineAt).body parse db = .ok
      (db', reply))
    (ht : db.find j = some t) (hsandbox : t.sandboxId = sandboxId) (hopen : t.finishedAt = none) :
    isolated parse request = true ∧ isolated parse t.requestJson = true := by
  obtain ⟨⟨final, run, created⟩, hadmitted, -⟩ := bind_ok hok
  exact (admit_ok hnew hadmitted).1 t (Table.row_mem ht).1 hsandbox hopen

/-- Every operation keeps the bindings exclusive. -/
theorem Op.body_exclusive {reply : Reply} (hsound : db.Sound) (h : db.Exclusive parse)
    (hok : op.body parse db = .ok (db', reply)) : db'.Exclusive parse := by
  intro i j r t hij hr ht hsandbox hopen hopen'
  have hmoves := (Op.body_moves hsound hok).2
  rcases (hmoves i).origin hr with ⟨r₀, hr₀, hsr, hjr, hor⟩ | ⟨hnone, _, _, _, _, _, hop, hstart⟩
  · rcases (hmoves j).origin ht with ⟨t₀, ht₀, hst, hjt, hot⟩ | ⟨hnone, _, _, _, _, _, hop, hstart⟩
    · rw [← hjr, ← hjt]
      exact h i j r₀ t₀ hij hr₀ ht₀ (by rw [hsr, hst, hsandbox]) (hor hopen) (hot hopen')
    · subst hop hstart
      have hboth := admitted_isolated hnone hok hr₀ (hsr.trans hsandbox) (hor hopen)
      rw [← hjr]
      exact hboth.symm
  · rcases (hmoves j).origin ht with ⟨t₀, ht₀, hst, hjt, hot⟩ | ⟨-, _, _, _, _, _, hop', -⟩
    · subst hop hstart
      rw [← hjt]
      exact admitted_isolated hnone hok ht₀ (hst.trans hsandbox.symm) (hot hopen')
    · rw [hop] at hop'
      injection hop' with hij'
      exact absurd hij' hij

/-- They are exclusive in every reachable store. -/
theorem Reachable.exclusive {allowed : Db → Op → Prop} (h : Reachable parse allowed db) :
    db.Exclusive parse := by
  have hall : db.Sound ∧ db.Exclusive parse := by
    apply h.invariant
    · refine ⟨.empty, ?_⟩
      intro i j r t _ hr
      cases hr
    · intro db op db' reply ⟨hsound, hexclusive⟩ _ hok
      exact ⟨(Op.body_moves hsound hok).1, Op.body_exclusive hsound hexclusive hok⟩
  exact hall.2

/-- A report of another epoch is refused. -/
theorem update_stale {r : ManagedRun} {epoch now : ℤ} {report : Report}
    (hr : db.find id = some r) (hepoch : r.epoch ≠ epoch) :
    ∃ e, (Op.update id epoch report now).exec parse db = (db, .error e) := by
  cases hok : (Op.update id epoch report now).body parse db with
  | error e => exact ⟨e, exec_refused hok⟩
  | ok out =>
    obtain ⟨⟨final, run⟩, hupdate, -⟩ := bind_ok hok
    obtain ⟨t, phase, ht, -, hcurrent, -⟩ := update_ok hupdate
    obtain rfl := Option.some.inj (hr.symm.trans ht)
    exact absurd hcurrent hepoch

/-- A checkpoint of another epoch is refused. -/
theorem checkpoint_stale {r : ManagedRun} {epoch now : ℤ} {offset guestSeq : ℕ} {text : String}
    (hr : db.find id = some r) (hepoch : r.epoch ≠ epoch) :
    ∃ e, (Op.checkpoint id epoch offset guestSeq text now).exec parse db = (db, .error e) := by
  cases hok : (Op.checkpoint id epoch offset guestSeq text now).body parse db with
  | error e => exact ⟨e, exec_refused hok⟩
  | ok out =>
    obtain ⟨final, hcheckpoint, -⟩ := bind_ok hok
    obtain ⟨t, _, _, _, ht, -, -, -, -, hcurrent, -⟩ := checkpoint_ok hcheckpoint
    obtain rfl := Option.some.inj (hr.symm.trans ht)
    exact absurd hcurrent hepoch

/-- A claim that succeeds raises the epoch of an unfinished run by one. -/
theorem claim_raises {r : ManagedRun} {now : ℤ} {reply : Reply} (hr : db.find id = some r)
    (hok : ((Op.claim id now).exec parse db).2 = .ok reply) :
    r.finishedAt = none ∧ ∃ r', ((Op.claim id now).exec parse db).1.find id = some r' ∧
      r'.epoch = r.epoch + 1 := by
  cases hbody : (Op.claim id now).body parse db with
  | error e =>
    rw [Op.exec, transaction, hbody] at hok
    cases hok
  | ok result =>
    obtain ⟨db', reply'⟩ := result
    obtain ⟨⟨final, run⟩, hclaim, hrest⟩ := bind_ok hbody
    obtain ⟨rfl, -⟩ := Prod.mk.inj (Except.ok.inj hrest)
    obtain ⟨t, ht, hopen, rfl⟩ := claim_ok hclaim
    obtain rfl := Option.some.inj (hr.symm.trans ht)
    have hkey (r : ManagedRun) : (r.claimed now).id = r.id := rfl
    have hfind : (db.reviseRun id fun r => r.claimed now).find id = some (r.claimed now) := by
      rw [find_reviseRun hkey, if_pos rfl, hr, Option.map_some]
    rw [Op.exec, transaction, hbody]
    exact ⟨hopen, r.claimed now, hfind, rfl⟩

/-- An admission of an id that has a receipt: an exact retry returns it, any other conflicts. -/
theorem admit_again {r : ManagedRun} (hr : db.find id = some r)
    (sandboxId ownerId request : String) (now deadlineAt : ℤ) :
    (Op.admission id sandboxId ownerId request now deadlineAt).exec parse db =
      (db, if r.sandboxId = sandboxId ∧ r.ownerId = ownerId ∧ r.requestJson = request then
        .ok (.run r false) else .error (.conflict "managed run request ID reused")) := by
  have hadmitted : admitManagedRun parse db id sandboxId ownerId request now deadlineAt =
      if r.sandboxId = sandboxId ∧ r.ownerId = ownerId ∧ r.requestJson = request then
        .ok (db, r, false) else .error (.conflict "managed run request ID reused") := by
    rw [admitManagedRun, hr]
  rw [Op.exec, transaction, Op.body, hadmitted]
  by_cases hsame : r.sandboxId = sandboxId ∧ r.ownerId = ownerId ∧ r.requestJson = request
  · rw [if_pos hsame, if_pos hsame]
    rfl
  · rw [if_neg hsame, if_neg hsame]
    rfl

/-- The receipt at the end of a stretch follows the one at its start. -/
theorem Retains.follows (hreach : Reachable parse (fun _ _ => True) db)
    (h : Retains parse id db db') :
    Reachable parse (fun _ _ => True) db' ∧
      ∃ r r', db.find id = some r ∧ db'.find id = some r' ∧ r.Follows r' := by
  induction h with
  | refl hr => exact ⟨hreach, _, _, hr, hr, .refl _⟩
  | step op h hr' ih =>
    obtain ⟨hmid, r, r₁, hr, hr₁, hfollows⟩ := ih
    exact ⟨hmid.step trivial, r, _, hr, hr', hfollows.trans ((hmid.moves op id).follows hr₁ hr')⟩

/-- Receipts over every interleaving of operations with any epochs. While its row is there, a
receipt's epoch never falls, its native identities bind once, and it is final once finished; a
claim that succeeds raises the epoch, and an update or checkpoint of another epoch changes nothing;
an exact retry of an admission returns the receipt and any other reuse of its id conflicts; and
unfinished runs that share a sandbox are isolated. -/
theorem managed_run_receipts_fenced (h : Reachable parse (fun _ _ => True) db) :
    (∀ id db', Retains parse id db db' →
      ∃ r r', db.find id = some r ∧ db'.find id = some r' ∧ r.epoch ≤ r'.epoch ∧
        (∀ session, r.sessionId = some session → r'.sessionId = some session) ∧
        (∀ boot, r.bootId = some boot → r'.bootId = some boot) ∧
        (r.finishedAt ≠ none → r' = r)) ∧
    (∀ id r epoch, db.find id = some r → r.epoch ≠ epoch →
      (∀ report now, ∃ e, (Op.update id epoch report now).exec parse db = (db, .error e)) ∧
      ∀ offset guestSeq text now, ∃ e,
        (Op.checkpoint id epoch offset guestSeq text now).exec parse db = (db, .error e)) ∧
    (∀ id r sandboxId ownerId request now deadlineAt, db.find id = some r →
      (Op.admission id sandboxId ownerId request now deadlineAt).exec parse db =
        (db, if r.sandboxId = sandboxId ∧ r.ownerId = ownerId ∧ r.requestJson = request then
          .ok (.run r false) else .error (.conflict "managed run request ID reused"))) ∧
    (∀ i j r t, i ≠ j → db.find i = some r → db.find j = some t → r.sandboxId = t.sandboxId →
      r.finishedAt = none → t.finishedAt = none →
        isolated parse r.requestJson = true ∧ isolated parse t.requestJson = true) ∧
    ∀ id r now reply, db.find id = some r → ((Op.claim id now).exec parse db).2 = .ok reply →
      r.finishedAt = none ∧ ∃ r', ((Op.claim id now).exec parse db).1.find id = some r' ∧
        r'.epoch = r.epoch + 1 := by
  refine ⟨?_, ?_, ?_, h.exclusive, fun id r now reply hr hok => claim_raises hr hok⟩
  · intro id db' hretains
    obtain ⟨-, r, r', hr, hr', hfollows⟩ := hretains.follows h
    exact ⟨r, r', hr, hr', hfollows.epoch, hfollows.session, hfollows.boot, hfollows.final⟩
  · intro id r epoch hr hepoch
    exact ⟨fun report now => update_stale hr hepoch,
      fun offset guestSeq text now => checkpoint_stale hr hepoch⟩
  · intro id r sandboxId ownerId request now deadlineAt hr
    exact admit_again hr sandboxId ownerId request now deadlineAt

/-- A run with a checkpoint that a second controller has claimed. -/
def claimedOps : List Op := sampleOps.take 3 ++ [.claim "job" 3]

/-- A third controller claims it. The second one is refused from then on. -/
theorem managed_run_receipts_fenced_sample :
    ((Op.execAll sampleParse claimedOps {}).find "job").map (·.epoch) = some 2 ∧
      ((Op.execAll sampleParse (claimedOps ++ [.claim "job" 4]) {}).find "job").map (·.epoch) =
        some 3 ∧
      ∃ e, (Op.update "job" 2 { phase := "failed", sessionId := none, bootId := none
                                exitCode := none, detail := none, terminal := true } 5).exec
          sampleParse (Op.execAll sampleParse (claimedOps ++ [.claim "job" 4]) {}) =
        (Op.execAll sampleParse (claimedOps ++ [.claim "job" 4]) {}, .error e) := by
  have hreach : ∀ ops, Reachable sampleParse (fun _ _ => True) (Op.execAll sampleParse ops {}) :=
    fun ops => Reachable.empty.execAll fun _ _ _ => trivial
  have hclaimed : ((Op.execAll sampleParse claimedOps {}).find "job").map (·.epoch) = some 2 := by
    decide +kernel
  have haccepted : refusal ((Op.claim "job" 4).exec sampleParse
      (Op.execAll sampleParse claimedOps {})).2 = none := by
    decide +kernel
  have hlast : ((Op.claim "job" 4).exec sampleParse (Op.execAll sampleParse claimedOps {})).1 =
      Op.execAll sampleParse (claimedOps ++ [.claim "job" 4]) {} := by
    rw [Op.execAll, Op.execAll, List.foldl_append, List.foldl_cons, List.foldl_nil]
  obtain ⟨r, hr, hepoch⟩ := Option.map_eq_some_iff.mp hclaimed
  cases hreply : ((Op.claim "job" 4).exec sampleParse (Op.execAll sampleParse claimedOps {})).2 with
  | error e =>
    rw [hreply] at haccepted
    cases haccepted
  | ok reply =>
    obtain ⟨-, -, -, -, hraises⟩ := managed_run_receipts_fenced (hreach claimedOps)
    obtain ⟨-, r', hr', hepoch'⟩ := hraises "job" r 4 reply hr hreply
    rw [hlast] at hr'
    rw [hepoch] at hepoch'
    refine ⟨hclaimed, by rw [hr', Option.map_some, hepoch']; rfl, ?_⟩
    exact ((managed_run_receipts_fenced (hreach _)).2.1 "job" r' 2 hr' (by omega)).1 _ 5

end Fence

end AgentHouse.Runs
