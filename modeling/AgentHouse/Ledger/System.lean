import AgentHouse.Lib.Traces
import AgentHouse.Ledger.Images

/-!
# Histories of the ledger

The calls that change the ledger, one transaction each, in any order and with any arguments. A
transaction that fails is rolled back. `reopen` is a restart of the daemon: the schema is
initialised again and pending operations are interrupted.
-/

namespace AgentHouse.Ledger

/-- The calls of the ledger with their arguments. -/
inductive Action where
  | reserveReplicatedVolume (owner sandbox volume : String) (bytes now : ℤ)
  | deleteReplicatedReservation (owner volume : String)
  | confirmReplicatedRetirement (owner volume : String) (logicalReleased reclamationComplete : Bool)
  | createSandbox (id owner : String)
  | deleteSandbox (id : String)
  | admitProjectBuilder (row : ProjectEnvironmentBuilder)
  | setProjectBuilderPhase (id : String) (phase : BuilderPhase)
  | rejectProjectBuilder (id request : String)
  | admitProjectImage (row : ProjectEnvironmentImage)
  | retireUnadmittedProjectImage (id owner : String) (now : ℤ)
  | setProjectImagePhase (id : String) (phase : ImagePhase) (detail : Option String) (now : ℤ)
  | finishProjectImage (id digest path : String) (now : ℤ)
  | setProjectImageDetail (id : String) (expected : ImagePhase) (detail : String) (now : ℤ)
  | beginProjectImageDelete (id owner : String) (now : ℤ)
  | finishProjectImageRetirement (id : String) (now : ℤ)
  | pinProjectImageVm (id owner tenant project digest sandbox : String)
  | releaseProjectImageVm (sandbox : String)
  | retainProjectImages (set : RetentionSet)
  | admitLifecycleOperation (id owner sandbox request : String)
  | finishLifecycleOperation (id : String) (status : ℕ) (error sandboxState : Option String)
      (storageVolumeId : Option String)
  | reopen
deriving DecidableEq, Repr

/-- What a call returns. -/
inductive Value where
  | unit
  | bool (b : Bool)
  | reservation (r : ReplicatedReservation)
  | image (i : ProjectEnvironmentImage)
deriving DecidableEq, Repr

/-- A call and its answer. -/
structure Call where
  action : Action
  reply : Result Value

/-- A call without an answer. -/
def plain (r : Result Db) : Result (Value × Db) := r.map (.unit, ·)

/-- A call with an answer. -/
def tagged {α : Type} (tag : α → Value) (r : Result (α × Db)) : Result (Value × Db) :=
  r.map fun (a, db) => (tag a, db)

variable (parse : String → Option Json)

/-- The body of the transaction of a call. -/
def Action.body (db : Db) : Action → Result (Value × Db)
  | .reserveReplicatedVolume owner sandbox volume bytes now =>
      tagged .reservation (Ledger.reserveReplicatedVolume owner sandbox volume bytes now db)
  | .deleteReplicatedReservation owner volume =>
      plain (Ledger.deleteReplicatedReservation owner volume db)
  | .confirmReplicatedRetirement owner volume released complete =>
      tagged .bool (Ledger.confirmReplicatedRetirement owner volume db released complete)
  | .createSandbox id owner => plain (Ledger.createSandbox id owner db)
  | .deleteSandbox id => plain (Ledger.deleteSandbox id db)
  | .admitProjectBuilder row => tagged .bool (Ledger.admitProjectBuilder db row)
  | .setProjectBuilderPhase id phase => plain (Ledger.setProjectBuilderPhase db id phase)
  | .rejectProjectBuilder id request => plain (Ledger.rejectProjectBuilder db id request)
  | .admitProjectImage row => tagged .bool (Ledger.admitProjectImage parse db row)
  | .retireUnadmittedProjectImage id owner now =>
      tagged .image (Ledger.retireUnadmittedProjectImage parse db id owner now)
  | .setProjectImagePhase id phase detail now =>
      plain (Ledger.setProjectImagePhase db id phase detail now)
  | .finishProjectImage id digest path now =>
      plain (Ledger.finishProjectImage db id digest path now)
  | .setProjectImageDetail id expected detail now =>
      plain (Ledger.setProjectImageDetail db id expected detail now)
  | .beginProjectImageDelete id owner now =>
      tagged .image (Ledger.beginProjectImageDelete db id owner now)
  | .finishProjectImageRetirement id now => plain (Ledger.finishProjectImageRetirement db id now)
  | .pinProjectImageVm id owner tenant project digest sandbox =>
      plain (Ledger.pinProjectImageVm db id owner tenant project digest sandbox)
  | .releaseProjectImageVm sandbox => plain (Ledger.releaseProjectImageVm db sandbox)
  | .retainProjectImages set => plain (Ledger.retainProjectImages db set)
  | .admitLifecycleOperation id owner sandbox request =>
      tagged .bool (Ledger.admitLifecycleOperation db id owner sandbox request)
  | .finishLifecycleOperation id status error sandboxState volume =>
      plain (Ledger.finishLifecycleOperation db id status error sandboxState volume)
  | .reopen => plain (initSchema db >>= interruptLifecycleOperations)

/-- Commit on success, roll back on failure. -/
def transaction (body : Db → Result (Value × Db)) (db : Db) : Result Value × Db :=
  match body db with
  | .ok (v, db') => (.ok v, db')
  | .error e => (.error e, db)

/-- A call in its transaction: a failure changes nothing. -/
def Db.run (db : Db) (a : Action) : Result Value × Db := transaction (a.body parse) db

/-- A call with the reply that it got. -/
def Step (db : Db) (c : Call) (db' : Db) : Prop := db.run parse c.action = (c.reply, db')

variable {parse} {db db' : Db} {c : Call} {a : Action}

/-- A failed call changes nothing; a successful one commits. -/
theorem Step.cases (h : Step parse db c db') :
    (∃ e, c.reply = .error e ∧ db' = db) ∨
      ∃ v, c.reply = .ok v ∧ c.action.body parse db = .ok (v, db') := by
  unfold Step Db.run transaction at h
  split at h
  · rename_i v db₁ hbody
    obtain ⟨hreply, rfl⟩ := Prod.mk.inj h
    exact .inr ⟨v, hreply.symm, hbody⟩
  · rename_i e hbody
    obtain ⟨hreply, rfl⟩ := Prod.mk.inj h
    exact .inl ⟨e, hreply.symm, rfl⟩

theorem plain_ok {r : Result Db} {v : Value} (h : plain r = .ok (v, db')) : r = .ok db' := by
  cases r with
  | error e => cases h
  | ok db => exact congrArg Except.ok (congrArg Prod.snd (Except.ok.inj h))

theorem tagged_ok {α : Type} {tag : α → Value} {r : Result (α × Db)} {v : Value}
    (h : tagged tag r = .ok (v, db')) : ∃ x, r = .ok (x, db') ∧ v = tag x := by
  cases r with
  | error e => cases h
  | ok p =>
    obtain ⟨hv, hdb⟩ := Prod.mk.inj (Except.ok.inj h)
    exact ⟨p.1, congrArg Except.ok (Prod.ext rfl hdb), hv.symm⟩

/-- The history of actions from a state. -/
def history (parse : String → Option Json) : List Action → Db → List Call × Db
  | [], db => ([], db)
  | a :: rest, db =>
      let (reply, db') := db.run parse a
      let (calls, last) := history parse rest db'
      (⟨a, reply⟩ :: calls, last)

/-- A history is a run of its calls. -/
theorem history_trace (parse : String → Option Json) (as : List Action) (db : Db) :
    Trace (Step parse) db (history parse as db).1 (history parse as db).2 := by
  induction as generalizing db with
  | nil => exact .nil
  | cons a as ih => exact Trace.cons (b := (db.run parse a).2) rfl (ih _)

end AgentHouse.Ledger
