import AgentHouse.Ledger.Charges

/-!
# Lifecycle receipts

An operation is admitted once, its receipt is final, and the volume it names is the one of its
own admission: bound at the admission, by the first reservation while it is pending, or by its
completion.
-/

namespace AgentHouse.Ledger

variable {parse : String → Option Json} {db db' : Db} {a : Action} {v : Value}

/-- The receipt keeps its identity and its volume, and is final once it is not pending. -/
structure LifecycleOperation.Later (o o' : LifecycleOperation) : Prop where
  id : o'.id = o.id
  ownerUserId : o'.ownerUserId = o.ownerUserId
  sandboxId : o'.sandboxId = o.sandboxId
  volume : ∀ volume ∈ o.storageVolumeId, o'.storageVolumeId = some volume
  final : o.state ≠ .pending → o' = o

namespace LifecycleOperation

variable {o o' o'' : LifecycleOperation}

theorem Later.refl (o : LifecycleOperation) : o.Later o :=
  ⟨rfl, rfl, rfl, fun _ h => h, fun _ => rfl⟩

theorem Later.trans (h : o.Later o') (h' : o'.Later o'') : o.Later o'' where
  id := h'.id.trans h.id
  ownerUserId := h'.ownerUserId.trans h.ownerUserId
  sandboxId := h'.sandboxId.trans h.sandboxId
  volume volume hvolume := h'.volume volume (h.volume volume hvolume)
  final hfinal := by
    obtain rfl := h.final hfinal
    exact h'.final hfinal

/-- An operation that is pending has been pending before. -/
theorem Later.pending (h : o.Later o') (hpending : o'.state = .pending) : o.state = .pending := by
  by_contra hfinal
  rw [h.final hfinal] at hpending
  exact hfinal hpending

/-- A volume that is bound makes a later receipt. -/
theorem later_bindVolume (owner sandbox volume : String) (o : LifecycleOperation) :
    o.Later (o.bindVolume owner sandbox volume) := by
  unfold bindVolume
  split
  · rename_i hunbound
    obtain ⟨_, _, hpending, hnone⟩ := hunbound
    refine ⟨rfl, rfl, rfl, fun volume hvolume => ?_, fun hfinal => absurd hpending hfinal⟩
    rw [hnone] at hvolume
    cases hvolume
  · exact .refl o

end LifecycleOperation

/-- Receipts go on; a new one is pending only if the queue has room and its name is idle, and
without a volume only if its owner has no disk of the name. -/
def Db.Follows (db : Db) (operations : List LifecycleOperation) : Prop :=
  ∃ f : LifecycleOperation → LifecycleOperation, (∀ o : LifecycleOperation, o.Later (f o)) ∧
    (operations = db.operations.map f ∨ ∃ o, operations = db.operations ++ [o] ∧
      Table.row LifecycleOperation.id o.id db.operations = none ∧
      (o.state = .pending → db.pendingOperations < 64 ∧
        (∀ o' ∈ db.operations, o'.sandboxId = o.sandboxId → o'.state ≠ .pending) ∧
        (o.storageVolumeId = none → ∀ r ∈ db.reservations, r.ownerUserId = o.ownerUserId →
          r.sandboxId = o.sandboxId → r.retained = false)))

/-- What a call does to the receipts. -/
theorem Change.operations (h : Change parse db a v db') : db.Follows db'.operations := by
  cases h with
  | reserved => exact ⟨_, LifecycleOperation.later_bindVolume _ _ _, .inl rfl⟩
  | operationDone =>
    refine ⟨_, fun o => ?_, .inl rfl⟩
    split
    · rename_i hpending
      refine ⟨rfl, rfl, rfl, fun volume hvolume => ?_, fun hfinal => absurd hpending.2 hfinal⟩
      dsimp only
      rw [show o.storageVolumeId = some volume from hvolume]
      rfl
    · exact .refl o
  | reopened =>
    refine ⟨_, fun o => ?_, .inl rfl⟩
    split
    · rename_i hpending
      exact ⟨rfl, rfl, rfl, fun _ hvolume => hvolume, fun hfinal => absurd hpending hfinal⟩
    · exact .refl o
  | @operation name owner sandbox request hnone hidle hfew =>
    refine ⟨id, .refl, .inr ⟨_, rfl, hnone, fun _ => ⟨hfew, hidle, fun hunbound r hr ho hs => ?_⟩⟩⟩
    have hfind : db.replicatedForSandbox owner sandbox = none := Option.map_eq_none_iff.mp hunbound
    have := List.find?_eq_none.mp hfind r hr
    simpa [show r.ownerUserId = owner from ho, show r.sandboxId = sandbox from hs] using this
  | @rejected name request b hb hnone =>
    refine ⟨id, .refl, .inr ⟨_, rfl, Table.row_eq_none.mpr fun o ho heq => ?_, fun h => by cases h⟩⟩
    refine hnone o ho (heq.trans ?_)
    rw [← (Table.row_mem hb).2]
    rfl
  | _ => exact ⟨id, .refl, .inl (List.map_id _).symm⟩

/-- What the calls keep true of the receipts. -/
structure Db.Receipts (db : Db) : Prop where
  keyed : Table.Keyed LifecycleOperation.id db.operations
  single : ∀ o ∈ db.operations, ∀ o' ∈ db.operations, o.sandboxId = o'.sandboxId →
    o.state = .pending → o'.state = .pending → o = o'
  few : db.pendingOperations ≤ 64
  bound : ∀ o ∈ db.operations, o.state = .pending → o.storageVolumeId = none →
    ∀ r ∈ db.reservations, r.ownerUserId = o.ownerUserId → r.sandboxId = o.sandboxId →
      r.logicalReleased = true

namespace Db.Receipts

/-- Ids stay distinct. -/
theorem follow_keyed (h : db.Receipts) {operations : List LifecycleOperation}
    (hs : db.Follows operations) : Table.Keyed LifecycleOperation.id operations := by
  obtain ⟨f, hf, rfl | ⟨o, rfl, hnone, _⟩⟩ := hs
  · have hmap : (db.operations.map f).map LifecycleOperation.id =
        db.operations.map LifecycleOperation.id := by
      rw [List.map_map]
      exact List.map_congr_left fun o _ => (hf o).id
    rw [Table.Keyed, hmap]
    exact h.keyed
  · exact h.keyed.append hnone

/-- One pending operation for each sandbox. -/
theorem follow_single (h : db.Receipts) {operations : List LifecycleOperation}
    (hs : db.Follows operations) : ∀ o ∈ operations, ∀ o' ∈ operations, o.sandboxId = o'.sandboxId →
      o.state = .pending → o'.state = .pending → o = o' := by
  intro o ho o' ho' hsandbox hpending hpending'
  obtain ⟨f, hf, rfl | ⟨new, rfl, _, hidle⟩⟩ := hs
  · obtain ⟨o₀, ho₀, rfl⟩ := List.mem_map.mp ho
    obtain ⟨o₁, ho₁, rfl⟩ := List.mem_map.mp ho'
    rw [(hf o₀).sandboxId, (hf o₁).sandboxId] at hsandbox
    rw [h.single o₀ ho₀ o₁ ho₁ hsandbox ((hf o₀).pending hpending) ((hf o₁).pending hpending')]
  · obtain hold | rfl := Table.mem_snoc.mp ho
    · obtain hold' | rfl := Table.mem_snoc.mp ho'
      · exact h.single o hold o' hold' hsandbox hpending hpending'
      · exact absurd hpending ((hidle hpending').2.1 o hold hsandbox)
    · obtain hold' | rfl := Table.mem_snoc.mp ho'
      · exact absurd hpending' ((hidle hpending).2.1 o' hold' hsandbox.symm)
      · rfl

/-- At most 64 operations are pending. -/
theorem follow_few (h : db.Receipts) {operations : List LifecycleOperation}
    (hs : db.Follows operations) : operations.countP (fun o => o.state = .pending) ≤ 64 := by
  obtain ⟨f, hf, rfl | ⟨new, rfl, _, hidle⟩⟩ := hs
  · rw [List.countP_map]
    refine le_trans (List.countP_mono_left fun o _ hpending => ?_) h.few
    exact decide_eq_true ((hf o).pending (of_decide_eq_true hpending))
  · have hfew := h.few
    unfold Db.pendingOperations at hfew hidle
    rw [List.countP_append, List.countP_singleton]
    split
    · rename_i hpending
      have := (hidle (of_decide_eq_true hpending)).1
      omega
    · exact hfew

/-- A reservation binds its volume to the pending operation. -/
theorem reserve_bound (h : db.Receipts) {owner sandbox volume : String} {bytes now : ℤ}
    {o : LifecycleOperation}
    (ho : o ∈ db.operations.map (LifecycleOperation.bindVolume owner sandbox volume))
    (hpending : o.state = .pending) (hnone : o.storageVolumeId = none)
    {r : ReplicatedReservation} (hr : r ∈ db.reservations ++ [.new owner sandbox volume bytes now])
    (howner : r.ownerUserId = o.ownerUserId) (hsandbox : r.sandboxId = o.sandboxId) :
    r.logicalReleased = true := by
  obtain ⟨o₀, ho₀, rfl⟩ := List.mem_map.mp ho
  unfold LifecycleOperation.bindVolume at hpending hnone howner hsandbox
  split at hnone
  · cases hnone
  · rename_i hother
    rw [if_neg hother] at hpending howner hsandbox
    obtain hr | rfl := Table.mem_snoc.mp hr
    · exact h.bound o₀ ho₀ hpending hnone r hr howner hsandbox
    · exact absurd ⟨howner.symm, hsandbox.symm, hpending, hnone⟩ hother

/-- Every change keeps the receipts. -/
theorem step (h : db.Receipts) (haccounts : db.Accounts) (hs : Change parse db a v db') :
    db'.Receipts := by
  refine ⟨h.follow_keyed hs.operations, h.follow_single hs.operations,
    h.follow_few hs.operations, ?_⟩
  intro o ho hpending hnone r hr howner hsandbox
  -- a receipt that is pending without a volume has been so before
  have hbefore (hold : ∃ o₀ ∈ db.operations, o₀.Later o)
      (hold' : ∃ r₀ ∈ db.reservations, r₀.Later r) : r.logicalReleased = true := by
    obtain ⟨o₀, ho₀, hlater⟩ := hold
    obtain ⟨r₀, hr₀, hlater'⟩ := hold'
    have hnone₀ : o₀.storageVolumeId = none := by
      by_contra hsome
      obtain ⟨volume, hvolume⟩ := Option.ne_none_iff_exists'.mp hsome
      rw [hlater.volume volume hvolume] at hnone
      cases hnone
    refine hlater'.released (h.bound o₀ ho₀ (hlater.pending hpending) hnone₀ r₀ hr₀ ?_ ?_)
    · rw [← hlater'.ownerUserId, howner, hlater.ownerUserId]
    · rw [← hlater'.sandboxId, hsandbox, hlater.sandboxId]
  have hfollows := hs.operations
  have hwhere := haccounts.mem_before hs hr
  obtain hold | ⟨owner, sandbox, volume, bytes, now, rfl, rfl⟩ := hwhere
  · obtain ⟨f, hf, hmap | ⟨new, hnew, _, hadmitted⟩⟩ := hfollows
    · rw [hmap] at ho
      obtain ⟨o₀, ho₀, rfl⟩ := List.mem_map.mp ho
      exact hbefore ⟨o₀, ho₀, hf o₀⟩ hold
    · rw [hnew] at ho
      obtain ho₀ | rfl := Table.mem_snoc.mp ho
      · exact hbefore ⟨o, ho₀, .refl o⟩ hold
      · -- the receipt is new: its admission has found no reservation
        obtain ⟨r₀, hr₀, hlater⟩ := hold
        refine hlater.released ?_
        have hfree := (hadmitted hpending).2.2 hnone r₀ hr₀ (hlater.ownerUserId ▸ howner)
          (hlater.sandboxId ▸ hsandbox)
        by_contra hreleased
        have hstate : r₀.state ≠ .reclaimed := fun h => hreleased (haccounts.reclaimed r₀ hr₀ h)
        simp [ReplicatedReservation.retained, hstate, hreleased] at hfree
  · cases hs with
    | reserved => exact h.reserve_bound ho hpending hnone hr howner hsandbox
    | reservedBefore => exact hbefore ⟨o, ho, .refl o⟩ ⟨_, hr, .refl _⟩

/-- So does every call. -/
theorem step_run (h : db.Receipts) (haccounts : db.Accounts) {c : Call} (hs : Step parse db c db') :
    db'.Receipts := by
  obtain ⟨_, _, rfl⟩ | ⟨v, _, hchange⟩ := hs.change
  · exact h
  · exact h.step haccounts hchange

end Db.Receipts

/-- Receipts stay and only go on. -/
theorem Step.operation_later {c : Call} (hs : Step parse db c db') {o : LifecycleOperation}
    (ho : o ∈ db.operations) : ∃ o' ∈ db'.operations, o.Later o' := by
  obtain ⟨_, _, rfl⟩ | ⟨v, _, hchange⟩ := hs.change
  · exact ⟨o, ho, .refl o⟩
  · obtain ⟨f, hf, hmap | ⟨new, hnew, _⟩⟩ := hchange.operations
    · exact ⟨f o, hmap ▸ List.mem_map_of_mem ho, hf o⟩
    · exact ⟨o, hnew ▸ List.mem_append_left _ ho, .refl o⟩

/-- A receipt is never lost. -/
theorem operation_run {calls : List Call} (hrun : Trace (Step parse) db calls db')
    {o : LifecycleOperation} (ho : o ∈ db.operations) : ∃ o' ∈ db'.operations, o.Later o' := by
  refine hrun.invariant (I := fun db => ∃ o' ∈ db.operations, o.Later o') ⟨o, ho, .refl o⟩ ?_
  rintro db₁ c db₂ ⟨o', ho', hlater⟩ hs
  obtain ⟨o'', ho'', hlater'⟩ := hs.operation_later ho'
  exact ⟨o'', ho'', hlater.trans hlater'⟩

/-- The call has admitted the operation. -/
def Call.admitsOperation (c : Call) (id : String) : Bool :=
  match c.action, c.reply with
  | .admitLifecycleOperation other _ _ _, .ok (.bool true) => other = id
  | _, _ => false

/-- An admission finds no receipt of its id and leaves one. -/
theorem admitsOperation_step {c : Call} {id : String} (hs : Step parse db c db')
    (hadmits : c.admitsOperation id = true) :
    (∀ o ∈ db.operations, o.id ≠ id) ∧ ∃ o ∈ db'.operations, o.id = id := by
  obtain ⟨a, reply⟩ := c
  obtain ⟨e, hreply, rfl⟩ | ⟨v, hreply, hchange⟩ := hs.change
  · obtain rfl : reply = .error e := hreply
    unfold Call.admitsOperation at hadmits
    split at hadmits
    · rename_i heq
      cases heq
    · cases hadmits
  · obtain rfl : reply = .ok v := hreply
    unfold Call.admitsOperation at hadmits
    cases hchange with
    | operation hnone =>
      obtain rfl := of_decide_eq_true hadmits
      exact ⟨Table.row_eq_none.mp hnone, _,
        List.mem_append_right _ (List.mem_singleton_self _), rfl⟩
    | _ => cases hadmits

/-- By induction on the calls, an operation is admitted once. -/
theorem admitsOperation_run {start : Db} {calls : List Call}
    (hrun : Trace (Step parse) start calls db) (id : String) :
    calls.countP (·.admitsOperation id) ≤ 1 ∧
      (0 < calls.countP (·.admitsOperation id) → ∃ o ∈ db.operations, o.id = id) := by
  induction hrun with
  | nil => simp
  | @snoc calls db₁ db₂ c hrun hs ih =>
    rw [List.countP_append, List.countP_singleton]
    by_cases hadmits : c.admitsOperation id = true
    · obtain ⟨hfresh, hthere⟩ := admitsOperation_step hs hadmits
      have hzero : calls.countP (·.admitsOperation id) = 0 := by
        by_contra hpos
        obtain ⟨o, ho, hid⟩ := ih.2 (Nat.pos_of_ne_zero hpos)
        exact hfresh o ho hid
      rw [if_pos hadmits, hzero]
      exact ⟨le_rfl, fun _ => hthere⟩
    · rw [if_neg hadmits]
      refine ⟨ih.1, fun hpos => ?_⟩
      obtain ⟨o, ho, hid⟩ := ih.2 hpos
      obtain ⟨o', ho', hlater⟩ := hs.operation_later ho
      exact ⟨o', ho', hlater.id.trans hid⟩

/-- Whether an operation is pending, and the volume it names, as the calls after its admission
tell it. -/
structure Binding where
  pending : Bool
  volume : Option String
deriving DecidableEq, Repr

/-- A reservation of the owner for the name binds a pending operation that has no volume; its
completion does with the volume that the caller passes. -/
def Binding.after (id owner sandbox : String) (b : Binding) (c : Call) : Binding :=
  if b.pending then
    match c.action, c.reply with
    | .reserveReplicatedVolume owner' sandbox' volume _ _, .ok _ =>
        if owner' = owner ∧ sandbox' = sandbox then { b with volume := b.volume <|> some volume }
        else b
    | .finishLifecycleOperation id' _ _ _ volume, .ok _ =>
        if id' = id then ⟨false, b.volume <|> volume⟩ else b
    | .reopen, .ok _ => { b with pending := false }
    | _, _ => b
  else b

/-- The receipt is as the binding says. -/
def Binding.Shows (b : Binding) (id owner sandbox : String) (o : LifecycleOperation) : Prop :=
  o.id = id ∧ o.ownerUserId = owner ∧ o.sandboxId = sandbox ∧
    (o.state = .pending ↔ b.pending = true) ∧ o.storageVolumeId = b.volume

/-- A binding that a receipt shows is kept by every call. -/
theorem Binding.Shows.step {b : Binding} {id owner sandbox : String} {c : Call}
    (haccounts : db.Accounts) (hreceipts : db.Receipts) (hs : Step parse db c db')
    {o : LifecycleOperation} (ho : o ∈ db.operations) (h : b.Shows id owner sandbox o) :
    ∃ o' ∈ db'.operations, (b.after id owner sandbox c).Shows id owner sandbox o' := by
  obtain ⟨hid, howner, hsandbox, hpending, hvolume⟩ := h
  by_cases hb : b.pending = true
  case neg =>
    -- a final receipt stays as it is
    obtain ⟨o', ho', hlater⟩ := hs.operation_later ho
    rw [hlater.final fun hp => hb (hpending.mp hp)] at ho'
    refine ⟨o, ho', ?_⟩
    rw [Binding.after, if_neg hb]
    exact ⟨hid, howner, hsandbox, hpending, hvolume⟩
  have hp := hpending.mpr hb
  unfold Binding.after
  rw [if_pos hb]
  obtain ⟨a, reply⟩ := c
  obtain ⟨e, hreply, rfl⟩ | ⟨v, hreply, hchange⟩ := hs.change
  · obtain rfl : reply = .error e := hreply
    refine ⟨o, ho, ?_⟩
    split
    · rename_i heq
      cases heq
    · rename_i heq
      cases heq
    · rename_i heq
      cases heq
    · exact ⟨hid, howner, hsandbox, hpending, hvolume⟩
  obtain rfl : reply = .ok v := hreply
  cases hchange with
  | @reserved owner' sandbox' volume =>
    refine ⟨_, List.mem_map_of_mem ho, ?_⟩
    dsimp only
    unfold LifecycleOperation.bindVolume
    rw [howner, hsandbox, hvolume]
    by_cases hsame : owner' = owner ∧ sandbox' = sandbox
    · obtain ⟨rfl, rfl⟩ := hsame
      rw [if_pos ⟨rfl, rfl⟩]
      cases hbound : b.volume with
      | none =>
        rw [if_pos ⟨rfl, rfl, hp, rfl⟩]
        exact ⟨hid, rfl, rfl, hpending, rfl⟩
      | some bound =>
        rw [if_neg (by simp)]
        exact ⟨hid, howner, hsandbox, hpending, hvolume.trans hbound⟩
    · rw [if_neg hsame, if_neg fun hc => hsame ⟨hc.1.symm, hc.2.1.symm⟩]
      exact ⟨hid, howner, hsandbox, hpending, hvolume⟩
  | @reservedBefore owner' sandbox' volume _ _ old hfind howner' hsandbox' hstate =>
    refine ⟨o, ho, ?_⟩
    dsimp only
    split
    · rename_i hsame
      -- the repeated reservation is retained, so the operation has been bound already
      have hbound : o.storageVolumeId ≠ none := by
        intro hnone
        have hold := (Table.row_mem hfind).1
        have hreleased := hreceipts.bound o ho hp hnone old hold
          (howner'.trans (hsame.1.trans howner.symm))
          (hsandbox'.trans (hsame.2.trans hsandbox.symm))
        rw [haccounts.reserved old hold hstate] at hreleased
        cases hreleased
      obtain ⟨bound, hbound⟩ := Option.ne_none_iff_exists'.mp hbound
      refine ⟨hid, howner, hsandbox, hpending, ?_⟩
      rw [hbound] at hvolume
      rw [← hvolume, hbound]
      rfl
    · exact ⟨hid, howner, hsandbox, hpending, hvolume⟩
  | @operationDone id' =>
    refine ⟨_, List.mem_map_of_mem ho, ?_⟩
    dsimp only
    by_cases hsame : id' = id
    · rw [if_pos hsame, if_pos ⟨hid.trans hsame.symm, hp⟩]
      exact ⟨hid, howner, hsandbox, by simp, by rw [← hvolume]⟩
    · rw [if_neg hsame, if_neg fun hc => hsame (hc.1.symm.trans hid)]
      exact ⟨hid, howner, hsandbox, hpending, hvolume⟩
  | reopened =>
    refine ⟨_, List.mem_map_of_mem ho, ?_⟩
    rw [if_pos hp]
    exact ⟨hid, howner, hsandbox, by simp, hvolume⟩
  | operation | rejected =>
    exact ⟨o, List.mem_append_left _ ho, hid, howner, hsandbox, hpending, hvolume⟩
  | _ => exact ⟨o, ho, hid, howner, hsandbox, hpending, hvolume⟩

/-- Accounts and receipts over whole histories. -/
theorem receipts_run {start : Db} {calls : List Call} (haccounts : start.Accounts)
    (hreceipts : start.Receipts) (hrun : Trace (Step parse) start calls db) :
    db.Accounts ∧ db.Receipts :=
  hrun.invariant (I := fun db => db.Accounts ∧ db.Receipts) ⟨haccounts, hreceipts⟩
    fun hI hs => ⟨hI.1.step_run hs, hI.2.step_run hI.1 hs⟩

/-- The receipt of an admitted operation follows its binding. -/
theorem binding_run {db₁ : Db} {later : List Call} {id owner sandbox request : String}
    (haccounts : db.Accounts) (hreceipts : db.Receipts)
    (hs : Step parse db ⟨.admitLifecycleOperation id owner sandbox request, .ok (.bool true)⟩ db₁)
    (hrun : Trace (Step parse) db₁ later db') :
    ∃ o ∈ db'.operations, (later.foldl (Binding.after id owner sandbox)
      ⟨true, (db.replicatedForSandbox owner sandbox).map (·.volumeId)⟩).Shows id owner
        sandbox o := by
  have haccounts₁ := haccounts.step_run hs
  have hreceipts₁ := hreceipts.step_run haccounts hs
  obtain ⟨e, hreply, _⟩ | ⟨v, hreply, hchange⟩ := hs.change
  · cases hreply
  cases hreply
  cases hchange with
  | operation =>
  induction hrun with
  | nil =>
    exact ⟨_, List.mem_append_right _ (List.mem_singleton_self _), rfl, rfl, rfl,
      iff_of_true rfl rfl, rfl⟩
  | snoc hrun hs' ih =>
    obtain ⟨o, ho, hshows⟩ := ih
    obtain ⟨haccounts', hreceipts'⟩ := receipts_run haccounts₁ hreceipts₁ hrun
    rw [List.foldl_append]
    exact hshows.step haccounts' hreceipts' hs' ho

/-- Over every history: an operation is admitted at most once; at most one operation of a name
and at most 64 altogether are pending; a final receipt does not change, and neither does a volume
once it is named; and that volume is the owner's at the admission, else the first that the owner
reserves for the name while the operation is pending, else what its completion passes. -/
theorem lifecycle_receipts_execute_once {start : Db} {calls : List Call} (hstart : start.Opened)
    (hempty : start.operations = []) (hrun : Trace (Step parse) start calls db) :
    (∀ id, calls.countP (·.admitsOperation id) ≤ 1) ∧
    (∀ o ∈ db.operations, ∀ o' ∈ db.operations, o.sandboxId = o'.sandboxId → o.state = .pending →
      o'.state = .pending → o = o') ∧
    db.pendingOperations ≤ 64 ∧
    (∀ o ∈ db.operations, ∀ o' ∈ db.operations, o.id = o'.id → o = o') ∧
    (∀ later db', Trace (Step parse) db later db' → ∀ o ∈ db.operations,
      ∃ o' ∈ db'.operations, o'.id = o.id ∧
        (o.state ≠ .pending → o'.state = o.state ∧ o'.status = o.status ∧
          o'.errorJson = o.errorJson ∧ o'.sandboxState = o.sandboxState) ∧
        ∀ volume ∈ o.storageVolumeId, o'.storageVolumeId = some volume) ∧
    (∀ id owner sandbox request db₁ later db',
      Step parse db ⟨.admitLifecycleOperation id owner sandbox request, .ok (.bool true)⟩ db₁ →
      Trace (Step parse) db₁ later db' →
      ∃ o ∈ db'.operations, (later.foldl (Binding.after id owner sandbox)
        ⟨true, (db.replicatedForSandbox owner sandbox).map (·.volumeId)⟩).Shows id owner sandbox
          o) := by
  have hreceipts : start.Receipts := by
    refine ⟨?_, ?_, ?_, ?_⟩
    · rw [hempty]
      exact List.nodup_nil
    · simp [hempty]
    · simp [Db.pendingOperations, hempty]
    · simp [hempty]
  obtain ⟨haccounts, hreceipts⟩ := receipts_run hstart.accounts hreceipts hrun
  refine ⟨fun id => (admitsOperation_run hrun id).1, hreceipts.single, hreceipts.few, ?_, ?_, ?_⟩
  · intro o ho o' ho' hid
    exact List.inj_on_of_nodup_map hreceipts.keyed ho ho' hid
  · intro later db' hlater o ho
    obtain ⟨o', ho', hgoes⟩ := operation_run hlater ho
    refine ⟨o', ho', hgoes.id, fun hfinal => ?_, hgoes.volume⟩
    rw [hgoes.final hfinal]
    exact ⟨rfl, rfl, rfl, rfl⟩
  · intro id owner sandbox request db₁ later db' hs hlater
    exact binding_run haccounts hreceipts hs hlater

section Sample

/-- Two users without any storage. -/
def sampleUsers : Db := { users := [⟨"alice", 100⟩, ⟨"bob", 100⟩] }

theorem sampleUsers_opened : sampleUsers.Opened := Db.opened_of_empty rfl rfl

/-- An operation is bound by a reservation and interrupted by a restart; it is not admitted
again. -/
def interrupted : List Action :=
  [.admitLifecycleOperation "op" "alice" "vm" "create",
    .admitLifecycleOperation "op" "alice" "vm" "create",
    .reserveReplicatedVolume "alice" "vm" (sampleVolume 'a') 65536 1, .reopen,
    .finishLifecycleOperation "op" 200 none none (some (sampleVolume 'b')),
    .admitLifecycleOperation "op" "alice" "vm" "create"]

theorem lifecycle_receipts_execute_once_interrupted :
    ∃ calls db, Trace (Step fun _ => none) sampleUsers calls db ∧
      db.operations.map (·.storageVolumeId) = [some (sampleVolume 'a')] ∧
      db.operations.map (·.state) = [.interrupted] ∧
      calls.countP (·.admitsOperation "op") ≤ 1 := by
  have hrun := history_trace (fun _ => none) interrupted sampleUsers
  obtain ⟨honce, _⟩ := lifecycle_receipts_execute_once sampleUsers_opened rfl hrun
  exact ⟨_, _, hrun, by decide +kernel, by decide +kernel, honce "op"⟩

/-- A completion that passes the volume of another owner. -/
def misnamed : List Action :=
  [.reserveReplicatedVolume "bob" "other" (sampleVolume 'b') 65536 1,
    .admitLifecycleOperation "op" "alice" "vm" "start",
    .finishLifecycleOperation "op" 200 none none (some (sampleVolume 'b'))]

/-- The receipt of an operation names what its completion passes, here the reservation of another
owner for another name. -/
theorem completion_names_foreign_volume :
    ∃ calls db, Trace (Step fun _ => none) sampleUsers calls db ∧
      ∃ o ∈ db.operations, ∃ r ∈ db.reservations, o.storageVolumeId = some r.volumeId ∧
        o.ownerUserId = "alice" ∧ r.ownerUserId = "bob" ∧ o.sandboxId ≠ r.sandboxId :=
  ⟨_, _, history_trace (fun _ => none) misnamed sampleUsers, by decide +kernel⟩

end Sample

end AgentHouse.Ledger
