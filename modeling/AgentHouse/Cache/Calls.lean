import AgentHouse.Cache.State
import AgentHouse.Lib.Pools

/-!
# The calls of a cached store

`CachedStore` as programs whose actions are the sections under the mutex, the calls of the inner
store and the reads of the local caches. The calls of any number of threads and the read-ahead
that they start interleave. The inner store is shared with other clients. Beside the state, the
world records what the inner store held when it was read or written, when objects were put
and deleted, and what the calls returned.
-/

namespace AgentHouse.Cache

open AgentHouse.Volume (Bytes Error Result chunkBytes maxObjectBytes)
open AgentHouse.Op (perform attempt outcome)

/-- Where bytes may come from. -/
inductive Source where
  /-- An object of a volume in the inner store. -/
  | volume (id hash : String)
  /-- An object of a base image in the inner store. -/
  | base (image hash : String)
  /-- A slot of the metadata cache. -/
  | metadata (hash : String)
  /-- The local file of a base image. -/
  | localImage (image : String)
  deriving DecidableEq, Repr

/-- The key under which base objects are cached. -/
def baseKey (image hash : String) : Key := ("base:" ++ image, hash)

/-- What a key may be answered from. -/
def Source.Serves : Source → Key → Prop
  | .volume id hash, key => key = (id, hash)
  | .base image hash, key => key = baseKey image hash
  | .metadata hash, key => ∃ image, key = baseKey image hash
  | .localImage image, key => ∃ hash, key = baseKey image hash

/-- Bytes in the hand of a call, with the moments of their entry. -/
structure Found where
  bytes : Bytes
  obtained : Moment
  inserted : Option Moment
  deriving DecidableEq, Repr

/-- A call of `chunk`, `base_chunk` or `cached_chunk` that returned bytes. -/
structure Answer where
  key : Key
  began : Moment
  found : Found
  deriving DecidableEq, Repr

/-- What a store is built with. -/
structure Setup where
  digest : Bytes → String
  capacity : ℕ
  /-- The check of `CachedStore::new`. -/
  accepted : chunkBytes ≤ capacity ∧ capacity ≤ 256 * 1024 * 1024
  localBase : Option String
  metadata : Bool

/-- The sections under the mutex, the calls of the inner store and the reads of local caches. -/
inductive Action : Type → Type 1
  | begin : Action Moment
  | lookup (key : Key) : Action (Option Found)
  | innerChunk (id hash : String) : Action (Result Found)
  | innerBase (image hash : String) (offset : Option ℕ) : Action (Result Found)
  | innerPut (id hash : String) (bytes : Bytes) : Action (Result Found)
  | innerDelete (id : String) (hashes : List String) : Action (Result Moment)
  | insert (key : Key) (found : Found) : Action (Result Unit)
  | remove (id : String) (hashes : List String) (deleted : Moment) : Action Unit
  | reserve (key : Key) : Action State.Room
  | release (key : Key) : Action Unit
  /-- Whether the thread was spawned. -/
  | spawn (base : Bool) (id hash : String) : Action Bool
  | metadataGet (hash : String) : Action (Option Found)
  | metadataPut (hash : String) (bytes : Bytes) : Action Unit
  | readImage (image : String) (offset : ℕ) : Action (Option Found)
  | localFailed : Action Bool
  | setLocalFailed : Action Unit
  | answered (a : Answer) : Action Unit

/-- A call of the store. -/
abbrev Call (α : Type) := Op Action Error α

/-! ## The calls -/

section Calls

variable (P : Setup)

/-- `insert`: the checks come before the lock, and an object that is too large is not cached. -/
def insert (key : Key) (found : Found) : Call Unit :=
  if ¬ (chunkBytes ≤ found.bytes.length ∧ found.bytes.length ≤ maxObjectBytes) ∨
      found.bytes.length % chunkBytes ≠ 0 ∨ P.digest found.bytes ≠ key.2 then throw .corrupt
  else if found.bytes.length > P.capacity then pure ()
  else attempt (.insert key found)

/-- `chunk` -/
def chunk (id hash : String) : Call Found := do
  match ← perform (.lookup (id, hash)) with
  | some found => return found
  | none =>
    let found ← attempt (.innerChunk id hash)
    insert P (id, hash) found
    return found

/-- The metadata cache is asked for objects without an offset. -/
def metadataHit (hash : String) (offset : Option ℕ) : Call (Option Found) :=
  if offset = none ∧ P.metadata = true then perform (.metadataGet hash) else pure none

/-- The local image is asked for data blocks until it has failed once. -/
def localHit (image hash : String) : Option ℕ → Call (Option Found)
  | none => pure none
  | some offset =>
      if P.localBase = some image then do
        if ← perform .localFailed then return none
        else
          match ← perform (.readImage image offset) with
          | some found =>
            if P.digest found.bytes = hash then return some found
            else
              perform .setLocalFailed
              return none
          | none =>
            perform .setLocalFailed
            return none
      else pure none

/-- The end of `base_chunk`: the inner store is asked. -/
def fetchBase (image hash : String) (offset : Option ℕ) : Call Found := do
  let found ← attempt (.innerBase image hash offset)
  Op.when (decide (offset = none ∧ P.metadata = true)) (perform (.metadataPut hash found.bytes))
  insert P (baseKey image hash) found
  return found

/-- `base_chunk`: the cache, the metadata cache, the local image, and the inner store last. -/
def baseChunk (image hash : String) (offset : Option ℕ) : Call Found := do
  match ← perform (.lookup (baseKey image hash)) with
  | some found => return found
  | none =>
    match ← metadataHit P hash offset with
    | some found =>
      insert P (baseKey image hash) found
      return found
    | none =>
      match ← localHit P image hash offset with
      | some found => return found
      | none => fetchBase P image hash offset

/-- `put_chunk`: the inner store comes first. -/
def putChunk (id hash : String) (bytes : Bytes) : Call Unit := do
  let found ← attempt (.innerPut id hash bytes)
  insert P (id, hash) found

/-- `delete_chunks`: the inner store comes first. -/
def deleteChunks (id : String) (hashes : List String) : Call Unit := do
  let deleted ← attempt (.innerDelete id hashes)
  perform (.remove id hashes deleted)

/-- The key of a read-ahead. -/
def aheadKey (base : Bool) (id hash : String) : Key :=
  if base then baseKey id hash else (id, hash)

/-- The thread `volume-read-ahead`. -/
def readAhead (base : Bool) (id hash : String) : Call Unit := do
  let result ← outcome (if base then attempt (.innerBase id hash none)
    else attempt (.innerChunk id hash))
  match result with
  | .ok found =>
    let _ ← outcome (insert P (aheadKey base id hash) found)
    perform (.release (aheadKey base id hash))
  | .error _ => perform (.release (aheadKey base id hash))

/-- `prefetch_objects` -/
def prefetchObjects (id : String) (base : Bool) : List String → Call Unit
  | [] => pure ()
  | hash :: hashes => do
    match ← perform (.reserve (aheadKey base id hash)) with
    | .full => return ()
    | .known => prefetchObjects id base hashes
    | .reserved =>
      if ← perform (.spawn base id hash) then prefetchObjects id base hashes
      else
        perform (.release (aheadKey base id hash))
        prefetchObjects id base hashes

/-- `prefetch_base`: nothing is fetched while the local image serves. -/
def prefetchBase (image : String) (hashes : List String) : Call Unit := do
  if P.localBase = some image then
    if ← perform .localFailed then prefetchObjects image true hashes
    else return ()
  else prefetchObjects image true hashes

/-- `cached_chunk` -/
def cachedChunk (id hash : String) : Call Found := do
  match ← perform (.lookup (id, hash)) with
  | some found => return found
  | none => throw .notFound

/-- A call of the store, whose result is dropped. -/
def toProg {α : Type} (p : Call α) : Prog Action Unit := Prog.bind p fun _ => .done ()

/-- A call that may return bytes. -/
def answering (key : Key) (p : Call Found) : Call Unit := do
  let began ← perform .begin
  let found ← p
  perform (.answered ⟨key, began, found⟩)

/-- The calls that any thread may make at any time. -/
inductive Begins : Prog Action Unit → Prop
  | chunk (id hash : String) : Begins (toProg (answering (id, hash) (chunk P id hash)))
  | base (image hash : String) (offset : Option ℕ) :
      Begins (toProg (answering (baseKey image hash) (baseChunk P image hash offset)))
  | cached (id hash : String) : Begins (toProg (answering (id, hash) (cachedChunk id hash)))
  | put (id hash : String) (bytes : Bytes) : Begins (toProg (putChunk P id hash bytes))
  | delete (id : String) (hashes : List String) : Begins (toProg (deleteChunks id hashes))
  | prefetch (id : String) (hashes : List String) :
      Begins (toProg (prefetchObjects id false hashes))
  | prefetchBase (image : String) (hashes : List String) :
      Begins (toProg (prefetchBase P image hashes))

end Calls

/-! ## The world -/

/-- The store, what it shares with other clients, and the record of what happened. -/
structure World where
  cache : State
  panicked : Bool
  localFailed : Bool
  /-- What the inner store holds. -/
  remote : Source → Option Bytes
  now : Moment
  /-- What a source held when it was read or written by this store. -/
  held : List (Source × Bytes × Moment)
  /-- When the inner store was given an object, by anyone. -/
  puts : List (Source × Moment)
  /-- When the inner store confirmed a deletion. -/
  gone : List (Source × Moment)
  /-- The deletions of this store: the moments of the inner one and of the cached one. -/
  deletions : List (Key × Moment × Moment)
  answers : List Answer

namespace World

/-- A new store before an inner store that has been used by others. -/
def start (remote : Source → Option Bytes) : World :=
  { cache := .empty, panicked := false, localFailed := false, remote := remote, now := 0,
    held := [], puts := [], gone := [], deletions := [], answers := [] }

/-- The next event. -/
def tick (w : World) : World := { w with now := w.now + 1 }

/-- Bytes that a source has now. -/
def hold (w : World) (source : Source) (bytes : Bytes) : World :=
  { w with held := (source, bytes, w.now) :: w.held }

/-- The inner store gets an object. -/
def put (w : World) (source : Source) (bytes : Bytes) : World :=
  { w with remote := Function.update w.remote source (some bytes)
           puts := (source, w.now) :: w.puts }

/-- The volume objects that a deletion names. -/
def named (id : String) (hashes : List String) (source : Source) : Bool :=
  match source with
  | .volume other hash => decide (other = id ∧ hash ∈ hashes)
  | _ => false

/-- The inner store loses every object that a deletion names. -/
def erase (w : World) (id : String) (hashes : List String) : World :=
  { w with remote := fun source => if named id hashes source then none else w.remote source
           gone := hashes.map (fun hash => (.volume id hash, w.now)) ++ w.gone }

/-- A section under the mutex. -/
def locked (w : World) (s : Option State) : World :=
  match s with
  | some s => { w with cache := s }
  | none => { w with panicked := true }

end World

/-- What an action does. A failed call of the inner store may have put its object, or deleted some
of its objects. -/
def eff (P : Setup) : {β : Type} → Action β → World → β → World → Prop
  | _, .begin, w, b, w' => b = w.now ∧ w' = w.tick
  | _, .lookup key, w, b, w' =>
      b = (w.cache.objects key).map (fun e => ⟨e.bytes, e.obtained, some e.inserted⟩) ∧ w' = w.tick
  | _, .innerChunk id hash, w, b, w' =>
      (∃ bytes, w.remote (.volume id hash) = some bytes ∧ b = .ok ⟨bytes, w.now, none⟩ ∧
        w' = (w.hold (.volume id hash) bytes).tick) ∨
      (∃ e, b = .error e ∧ w' = w.tick)
  | _, .innerBase image hash _, w, b, w' =>
      (∃ bytes, w.remote (.base image hash) = some bytes ∧ b = .ok ⟨bytes, w.now, none⟩ ∧
        w' = (w.hold (.base image hash) bytes).tick) ∨
      (∃ e, b = .error e ∧ w' = w.tick)
  | _, .innerPut id hash bytes, w, b, w' =>
      (b = .ok ⟨bytes, w.now, none⟩ ∧
        w' = ((w.put (.volume id hash) bytes).hold (.volume id hash) bytes).tick) ∨
      (∃ e, b = .error e ∧ (w' = w.tick ∨ w' = (w.put (.volume id hash) bytes).tick))
  | _, .innerDelete id hashes, w, b, w' =>
      (b = .ok w.now ∧ w' = (w.erase id hashes).tick) ∨
      (∃ e remote, b = .error e ∧
        (∀ source, remote source = w.remote source ∨ remote source = none) ∧
        w' = { w with remote := remote }.tick)
  | _, .insert key found, w, b, w' =>
      b = .ok () ∧ w' = (w.locked (w.cache.insert P.capacity key
        ⟨found.bytes, found.obtained, w.now⟩)).tick
  | _, .remove id hashes deleted, w, _, w' =>
      w' = { w.locked (w.cache.remove id hashes) with
        deletions := hashes.map (fun hash => ((id, hash), deleted, w.now)) ++ w.deletions }.tick
  | _, .reserve key, w, b, w' =>
      b = (w.cache.reserve key).1 ∧ w' = { w with cache := (w.cache.reserve key).2 }.tick
  | _, .release key, w, _, w' => w' = { w with cache := w.cache.release key }.tick
  | _, .spawn _ _ _, w, _, w' => w' = w.tick
  | _, .metadataGet hash, w, b, w' =>
      (b = none ∧ w' = w.tick) ∨
      (∃ bytes, bytes.length = chunkBytes ∧ P.digest bytes = hash ∧
        b = some ⟨bytes, w.now, none⟩ ∧ w' = (w.hold (.metadata hash) bytes).tick)
  | _, .metadataPut _ _, w, _, w' => w' = w.tick
  | _, .readImage image _, w, b, w' =>
      (b = none ∧ w' = w.tick) ∨
      (∃ bytes, bytes.length = chunkBytes ∧ b = some ⟨bytes, w.now, none⟩ ∧
        w' = (w.hold (.localImage image) bytes).tick)
  | _, .localFailed, w, b, w' => b = w.localFailed ∧ w' = w.tick
  | _, .setLocalFailed, w, _, w' => w' = { w with localFailed := true }.tick
  | _, .answered a, w, _, w' => w' = { w with answers := a :: w.answers }.tick

/-- Other clients of the inner store put and delete objects. -/
inductive Others : World → World → Prop
  | put {w : World} (source : Source) (bytes : Bytes) : Others w (w.put source bytes).tick
  | delete {w : World} (source : Source) :
      Others w { w with remote := Function.update w.remote source none }.tick

/-- A thread that was spawned runs the read-ahead. -/
def starts (P : Setup) : {β : Type} → Action β → β → List (Prog Action Unit)
  | _, .spawn base id hash, spawned =>
      if spawned = true then [toProg (readAhead P base id hash)] else []
  | _, _, _ => []

/-- The store as a pool: its calls are the programs. -/
def store (P : Setup) : Pool Action World where
  env := Others
  eff := eff P
  starts := starts P
  begins _ := Begins P

end AgentHouse.Cache
