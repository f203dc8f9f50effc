import AgentHouse.Owned.Calls

/-!
# Hosts that share a store

Any number of hosts create, import, enroll, open, write, release and retire volumes in one bucket.
Each opens a volume through an owner directory, which keeps its identity and a lock. Between the
read of a head and the compare-and-set that follows from it anything may happen; every request may
be lost, answered too late, or arrive at any later time; and a process may die or give up anywhere.
-/

namespace AgentHouse.Owned

open Volume

/-- An `owned::Store`, with the handles on the volume that go through it. `retire` closes its store
before it uses it. `pending` is what `release` or `retire` has decided to send. -/
structure Store where
  identity : Identity
  retiring : Bool
  active : Bool
  pending : Option Request
  volumes : List IndexedVolume

/-- How far the process that holds `owner.lock` has come. -/
inductive Holder where
  | free
  | locked (id : VolumeId) (retiring : Bool)
  | read (id : VolumeId) (retiring : Bool) (rev : Revision) (e : Envelope)
  | named (retiring : Bool) (rev : Revision) (e : Envelope) (i : Identity)
  | store (st : Store)

/-- An owner directory: `owner.json` and the marker `retired`, whether each is on disk for good, and
the holder of the lock. -/
structure Directory where
  file : IdentityFile
  synced : Bool
  marker : Bool
  markerSynced : Bool
  holder : Holder

/-- The store and its hosts. `volumes` are the handles that do not go through an ownership layer,
`prepared` the requests that `enroll` and `retire` have decided to send without an identity,
`retiring` the volumes that `retire` has to open, and `tokens` the random numbers drawn so far. -/
structure System where
  bucket : Bucket
  directories : ℕ → Directory
  volumes : List IndexedVolume
  prepared : List Request
  retiring : List VolumeId
  tokens : List Hash

namespace System

/-- Nothing has been stored yet. -/
def start : System where
  bucket := ⟨fun _ => ∅, fun _ => none, 0, []⟩
  directories _ := ⟨.absent, false, false, false, .free⟩
  volumes := []
  prepared := []
  retiring := []
  tokens := []

/-- The head of a volume. -/
def head (s : System) (id : VolumeId) : Option Head := s.bucket.heads ⟨false, id⟩

/-- A directory changes. -/
def put (s : System) (d : ℕ) (D : Directory) : System :=
  { s with directories := Function.update s.directories d D }

/-- The holder of a directory's lock goes on. -/
def hold (s : System) (d : ℕ) (holder : Holder) : System :=
  s.put d { s.directories d with holder := holder }

/-- One step of a host or of the store. -/
inductive Step (P : Platform) (s : System) : System → Prop
  -- Handles at the bucket itself.
  | create {bases ready : Bool} {id : VolumeId} {size : ℕ} {dl : Delivery} {B' : Bucket}
      {res : Result IndexedVolume}
      (h : IndexedVolume.createInner P s.bucket bases id size ready dl = (B', res)) :
      Step P s { s with bucket := B', volumes := s.volumes ++ res.toOption.toList }
  | createFromBase {view : View} {id : VolumeId} {reference : BaseRef} {dl : Delivery}
      {B' : Bucket} {res : Result IndexedVolume}
      (h : IndexedVolume.createFromBase P s.bucket view id reference dl = (B', res)) :
      Step P s { s with bucket := B', volumes := s.volumes ++ res.toOption.toList }
  | openVolume {view : View} {bases : Bool} {id : VolumeId} {w : IndexedVolume}
      (ha : Answers view s.bucket) (h : IndexedVolume.open P view (.raw bases) id = .ok w) :
      Step P s { s with volumes := s.volumes ++ [w] }
  | resume {view : View} {bases : Bool} {id : VolumeId} {size : ℕ} {w : IndexedVolume}
      (ha : Answers view s.bucket) (h : resumeImport P view (.raw bases) id size = .ok w) :
      Step P s { s with volumes := s.volumes ++ [w] }
  | call {n : ℕ} {v v' : IndexedVolume} {c : Call} {φ : Faults} {B' : Bucket} {res : Result Unit}
      (hv : s.volumes[n]? = some v) (h : c.run P s.bucket v φ = (B', v', res)) :
      Step P s { s with bucket := B', volumes := s.volumes.set n v' }
  | finish {n : ℕ} {v v' : IndexedVolume} {φ φ' : Faults} {B' : Bucket} {res : Result ℕ}
      (hv : s.volumes[n]? = some v) (h : v.finishImport P s.bucket φ φ' = (B', v', res)) :
      Step P s { s with bucket := B', volumes := s.volumes.set n v' }
  -- `enroll` and `retire` without an identity.
  | enroll {view : View} {id : VolumeId} {q : Request} (hid : validId id = true)
      (h : Owned.enroll P view id (s.head id) = .ok (some q)) :
      Step P s { s with prepared := q :: s.prepared }
  | retire {view : View} {id : VolumeId} {q : Request} (hid : validId id = true)
      (h : Owned.retire P view id (s.head id) = .ok (.send q)) :
      Step P s { s with prepared := q :: s.prepared }
  | retireAsOwner {view : View} {id : VolumeId} (hid : validId id = true)
      (h : Owned.retire P view id (s.head id) = .ok .asOwner) :
      Step P s { s with retiring := id :: s.retiring }
  | send {q : Request} {dl : Delivery} {B' : Bucket} {res : Result Revision} (hq : q ∈ s.prepared)
      (h : transmit P s.bucket q.space q.expected q.manifest dl = (B', res)) :
      Step P s { s with bucket := B', prepared := s.prepared.erase q }
  -- `open_inner`.
  | lock {d : ℕ} {id : VolumeId} {retiring : Bool} (hid : validId id = true)
      (hfree : (s.directories d).holder = .free)
      (hmarker : retiring = false → (s.directories d).marker = false)
      (hretiring : retiring = true → id ∈ s.retiring) :
      Step P s (s.hold d (.locked id retiring))
  | read {d : ℕ} {id : VolumeId} {retiring : Bool} {view : View} {rev : Revision} {e : Envelope}
      (hlocked : (s.directories d).holder = .locked id retiring)
      (h : openHead P view id (s.head id) = .ok (rev, e)) :
      Step P s (s.hold d (.read id retiring rev e))
  | found {d : ℕ} {id : VolumeId} {retiring : Bool} {rev : Revision} {e : Envelope} {i : Identity}
      (hread : (s.directories d).holder = .read id retiring rev e)
      (h : (s.directories d).file.read id = .ok (some i)) :
      Step P s (s.put d { s.directories d with
        synced := true, holder := .named retiring rev e i })
  | draw {d : ℕ} {id : VolumeId} {retiring : Bool} {rev : Revision} {e : Envelope} {token : Hash}
      {i : Identity} (hread : (s.directories d).holder = .read id retiring rev e)
      (habsent : (s.directories d).file = .absent) (hlength : token.length = 32)
      (hfresh : token ∉ s.tokens) (h : newIdentity id e token = .ok i) :
      Step P s { s.put d { s.directories d with
        file := .whole i, synced := true, holder := .named retiring rev e i } with
          tokens := token :: s.tokens }
  | drawFails {d : ℕ} {id : VolumeId} {retiring : Bool} {rev : Revision} {e : Envelope}
      {token : Hash} {i : Identity} {file : IdentityFile}
      (hread : (s.directories d).holder = .read id retiring rev e)
      (habsent : (s.directories d).file = .absent) (hlength : token.length = 32)
      (hfresh : token ∉ s.tokens) (h : newIdentity id e token = .ok i)
      (hfile : file = .absent ∨ file = .torn ∨ file = .whole i) :
      Step P s { s.put d { s.directories d with
        file := file, synced := false, holder := .free } with tokens := token :: s.tokens }
  | adopt {d : ℕ} {retiring : Bool} {rev : Revision} {e : Envelope} {i : Identity}
      (hnamed : (s.directories d).holder = .named retiring rev e i)
      (h : claim P i rev e = .ok none) :
      Step P s (s.hold d (.store ⟨i, retiring, !retiring, none, []⟩))
  | claims {d : ℕ} {retiring : Bool} {rev rev' : Revision} {e : Envelope} {i : Identity}
      {q : Request} {dl : Delivery} {B' : Bucket}
      (hnamed : (s.directories d).holder = .named retiring rev e i)
      (hq : claim P i rev e = .ok (some q))
      (h : transmit P s.bucket q.space q.expected q.manifest dl = (B', .ok rev'))
      (hrev : confirm (.ok rev') = .ok ()) :
      Step P s ({ s with bucket := B' }.hold d (.store ⟨i, retiring, !retiring, none, []⟩))
  | claimFails {d : ℕ} {retiring : Bool} {rev : Revision} {e : Envelope} {i : Identity}
      {q : Request} {dl : Delivery} {B' : Bucket} {res : Result Revision} {err : Error}
      (hnamed : (s.directories d).holder = .named retiring rev e i)
      (hq : claim P i rev e = .ok (some q))
      (h : transmit P s.bucket q.space q.expected q.manifest dl = (B', res))
      (hres : confirm res = .error err) :
      Step P s ({ s with bucket := B' }.hold d .free)
  -- `release`, and `retire` with an identity.
  | close {d : ℕ} {st : Store} (hstore : (s.directories d).holder = .store st) :
      Step P s (s.hold d (.store { st with active := false }))
  | release {d : ℕ} {st : Store} {view : View} {q : Request}
      (hstore : (s.directories d).holder = .store st) (hretiring : st.retiring = false)
      (hactive : st.active = false) (hpending : st.pending = none)
      (h : Owned.release P view st.identity (s.head st.identity.volume) = .ok (some q)) :
      Step P s (s.hold d (.store { st with pending := some q }))
  | retireOwned {d : ℕ} {st : Store} {view : View} {q : Request}
      (hstore : (s.directories d).holder = .store st) (hretiring : st.retiring = true)
      (hactive : st.active = false) (hpending : st.pending = none)
      (h : Owned.retireOwned P view st.identity (s.head st.identity.volume) = .ok q) :
      Step P s (s.hold d (.store { st with pending := some q }))
  | sendOwned {d : ℕ} {st : Store} {q : Request} {dl : Delivery} {B' : Bucket}
      {res : Result Revision} (hstore : (s.directories d).holder = .store st)
      (hpending : st.pending = some q)
      (h : transmit P s.bucket q.space q.expected q.manifest dl = (B', res)) :
      Step P s ({ s with bucket := B' }.hold d (.store { st with pending := none }))
  -- Handles behind the ownership layer. A closed layer sends nothing.
  | openOwned {d : ℕ} {st : Store} {view : View} {w : IndexedVolume}
      (hstore : (s.directories d).holder = .store st) (hactive : st.active = true)
      (ha : Answers view s.bucket)
      (h : IndexedVolume.open P view (.owned st.identity) st.identity.volume = .ok w) :
      Step P s (s.hold d (.store { st with volumes := st.volumes ++ [w] }))
  | callOwned {d n : ℕ} {st : Store} {v v' : IndexedVolume} {c : Call} {φ : Faults} {B' : Bucket}
      {res : Result Unit} (hstore : (s.directories d).holder = .store st)
      (hclosed : st.active = false → φ.delivery = .requestLost)
      (hv : st.volumes[n]? = some v) (h : c.run P s.bucket v φ = (B', v', res)) :
      Step P s ({ s with bucket := B' }.hold d (.store { st with volumes := st.volumes.set n v' }))
  | copyOwned {d : ℕ} {st : Store} {v w : IndexedVolume}
      (hstore : (s.directories d).holder = .store st) (hv : v ∈ st.volumes)
      (h : v.cleanCopy = .ok w) :
      Step P s (s.hold d (.store { st with volumes := st.volumes ++ [w] }))
  -- A process fails, gives up or is done; its host loses what was not on disk.
  | drop {d : ℕ} : Step P s (s.hold d .free)
  | powerLoss {d : ℕ} {file : IdentityFile} {marker : Bool}
      (hfile : file = (s.directories d).file ∨
        (s.directories d).synced = false ∧ (file = .absent ∨ file = .torn))
      (hmarker : marker = (s.directories d).marker ∨
        (s.directories d).markerSynced = false ∧ marker = false) :
      Step P s (s.put d { s.directories d with file := file, marker := marker, holder := .free })
  -- `discard_retired_local`, to its end or not beyond the new marker.
  | discard {d : ℕ} (hfree : (s.directories d).holder = .free) :
      Step P s (s.put d { s.directories d with marker := true, markerSynced := true })
  | discardFails {d : ℕ} (hfree : (s.directories d).holder = .free) :
      Step P s (s.put d { s.directories d with marker := true })
  -- The store.
  | land {q : Request} (hq : q ∈ s.bucket.flights) :
      Step P s { s with bucket := s.bucket.land P q }
  | objects {objects : Space → BTreeMap Hash Bytes} :
      Step P s { s with bucket := { s.bucket with objects := objects } }

/-- Any number of steps. -/
abbrev Run (P : Platform) : System → System → Prop := Relation.ReflTransGen (Step P)

end System

end AgentHouse.Owned
