import AgentHouse.Volume.Wire
import Mathlib.Data.UInt
import Mathlib.Data.List.Sort
import Mathlib.Data.List.DropRight

/-!
# The S3 adapter

The calls of `S3Store` as programs over the network.
-/

namespace AgentHouse.Volume.S3

/-! ## Names -/

/-- The bucket, and the prefix of its keys. -/
structure Config where
  endpoint : Bytes
  bucket : Bytes
  keyPrefix : Bytes
  deriving DecidableEq

/-- The length of the longest listing. -/
def maxList : ℕ := 1024 * 1024

/-- `valid_id`. -/
def validIdText (id : Bytes) : Bool :=
  id ≠ [] && id.length ≤ 64 && id.all fun c =>
    (48 ≤ c && c ≤ 57) || (65 ≤ c && c ≤ 90) || (97 ≤ c && c ≤ 122) || c = 45 || c = 95

/-- `valid_hash`. -/
def validHashText (hash : Bytes) : Bool := hash.length = 64 && hash.all lowerHex

/-- `valid_etag`. -/
def validEtag (tag : Bytes) : Bool :=
  2 ≤ tag.length && tag.length ≤ 256 && tag.head? = some 34 && tag.getLast? = some 34 &&
    (slice tag 1 (tag.length - 2)).all fun b => 0x21 ≤ b && b ≠ 34 && b < 0x7f

/-- The namespace of images beside the volumes. -/
def Config.bases (c : Config) : Result Config :=
  if (c.keyPrefix ++ ascii "/bases").length > 256 then .error .invalidInput
  else .ok { c with keyPrefix := c.keyPrefix ++ ascii "/bases" }

/-- The URL of the bucket. -/
def Config.root (c : Config) : Bytes := c.endpoint.rdropWhile (· = 47) ++ [47] ++ c.bucket

/-- The key of an object in the bucket. -/
def Config.objectKey (c : Config) (volume suffix : Bytes) : Bytes :=
  c.keyPrefix ++ [47] ++ volume ++ [47] ++ suffix

/-- The address of an object. -/
def Config.url (c : Config) (volume suffix : Bytes) : Bytes :=
  c.root ++ [47] ++ c.objectKey volume suffix

/-- The address of an object of a volume, if the id is valid. -/
def Config.key (c : Config) (volume suffix : Bytes) : Result Bytes :=
  if validIdText volume then .ok (c.url volume suffix) else .error .invalidInput

/-- The key of a head, within its volume. -/
def headSuffix : Bytes := ascii "head.json"

/-- The key of a chunk, within its volume. -/
def chunkSuffix (hash : Bytes) : Bytes := ascii "chunks/" ++ hash

/-- The keys of the chunks of a volume. -/
def Config.chunks (c : Config) (volume : Bytes) : Bytes := c.objectKey volume (ascii "chunks/")

/-! ## Requests -/

/-- What a call does: requests, looks at its cancellation, pauses. -/
inductive Act : Type → Type 1
  | send (q : Request) : Act (Option Reply)
  /-- Whether the call has been cancelled. -/
  | cancelled : Act Bool
  /-- Sleep, and tell whether the call has been cancelled meanwhile. -/
  | pause : Act Bool

/-- A result that needs no action. -/
def settle {α : Type} (r : Result α) : Op Act Error α := .done r

/-- Without a reply the outcome of a request is `Store`. -/
def request (q : Request) : Op Act Error Reply := do
  match ← Op.perform (.send q) with
  | none => throw .store
  | some reply => pure reply

/-- `check_cancel` -/
def checkCancel : Op Act Error Unit := do
  if ← Op.perform .cancelled then throw .deadline

/-- The revision that a reply gives. -/
def etag (reply : Reply) : Result Bytes :=
  match reply.etag with
  | none => .error .corrupt
  | some tag => if validEtag tag then .ok tag else .error .corrupt

/-- The body of a reply, if it is announced and found to be no longer than `limit`. -/
def readBody (limit : ℕ) (reply : Reply) : Result Bytes :=
  if reply.contentLength.any (· > limit) then .error .corrupt
  else if reply.body.length > limit then .error .corrupt
  else if reply.broken then .error .store
  else .ok reply.body

/-- `get` -/
def get (url : Bytes) (limit : ℕ) : Op Act Error (Option (Bytes × Bytes)) := do
  let reply ← request (.get url)
  if reply.status = 404 then pure none
  else if reply.status ≠ 200 then throw .store
  else
    let revision ← settle (etag reply)
    let bytes ← settle (readBody limit reply)
    pure (some (revision, bytes))

section

variable (S : Setup) (c : Config)

/-- `chunk`: the object must have its digest. -/
def chunk (volume hash : Bytes) : Op Act Error Bytes := do
  Op.refuse (¬ validHashText hash) .invalidInput
  let url ← settle (c.key volume (chunkSuffix hash))
  match ← get url maxObjectBytes with
  | none => throw .corrupt
  | some (_, bytes) =>
    if ¬ (chunkBytes ≤ bytes.length ∧ bytes.length ≤ maxObjectBytes) ∨
        bytes.length % chunkBytes ≠ 0 ∨ S.digest bytes ≠ hash then throw .corrupt
    else pure bytes

/-- The next attempt. Only between two attempts there is a pause. -/
def retry (left : ℕ) (next : Op Act Error Unit) : Op Act Error Unit :=
  if left = 0 then next
  else do
    if ← Op.perform .pause then throw .deadline else next

/-- The attempts of `put_chunk_cancellable` that are left. -/
def putLoop (volume hash bytes : Bytes) : ℕ → Op Act Error Unit
  | 0 => throw .store
  | left + 1 => do
    checkCancel
    let url ← settle (c.key volume (chunkSuffix hash))
    let response ← Op.outcome (request (.put url .absent bytes))
    checkCancel
    match response with
    | .ok reply =>
      if reply.status = 200 then pure ()
      else if reply.status = 412 then do
        checkCancel
        let existing ← Op.outcome (chunk S c volume hash)
        checkCancel
        match existing with
        | .ok existing => if existing = bytes then pure () else throw .corrupt
        | .error .corrupt => throw .corrupt
        | .error .store => retry left (putLoop volume hash bytes left)
        | .error e => throw e
      else if (500 ≤ reply.status ∧ reply.status < 600) ∨ reply.status = 429 ∨
          reply.status = 408 then retry left (putLoop volume hash bytes left)
      else throw .store
    | .error .store => retry left (putLoop volume hash bytes left)
    | .error e => throw e

/-- `put_chunk`: three attempts. -/
def putChunk (volume hash bytes : Bytes) : Op Act Error Unit := do
  Op.refuse (¬ (chunkBytes ≤ bytes.length ∧ bytes.length ≤ maxObjectBytes) ∨
    bytes.length % chunkBytes ≠ 0 ∨ ¬ validHashText hash ∨ S.digest bytes ≠ hash) .invalidInput
  putLoop S c volume hash bytes 3

/-- `publish`: a conditional replacement of the head. -/
def publish (volume : Bytes) (expected : Option Bytes) (manifest : Bytes) :
    Op Act Error Bytes := do
  Op.refuse (manifest = [] ∨ manifest.length > maxManifestBytes ∨
    expected.any (fun tag => !validEtag tag)) .invalidInput
  let condition : Condition :=
    match expected with
    | some tag => .tagged tag
    | none => .absent
  let url ← settle (c.key volume headSuffix)
  match ← Op.outcome (request (.put url condition manifest)) with
  | .error _ => throw .uncertain
  | .ok reply =>
    if reply.status = 200 then
      match etag reply with
      | .ok tag => pure tag
      | .error _ => throw .uncertain
    else if reply.status = 412 then throw .conflict
    else throw .uncertain

local instance lawfulBytes : LawfulBEq Bytes := inferInstance

/-- Take one key of a page. -/
def collect (keyPrefix : Bytes) (after : Option Bytes) (hashes : List Bytes) (key : Bytes) :
    Result (List Bytes) :=
  match expect keyPrefix key with
  | none => .error .corrupt
  | some hash =>
    if ¬ validHashText hash ∨ after.any (fun a => decide (hash ≤ a)) ∨ hash ∈ hashes then
      .error .corrupt
    else .ok (hashes ++ [hash])

/-- The hashes of a page, in their order. -/
def pageHashes (keyPrefix : Bytes) (after : Option Bytes) (limit : ℕ) (list : Listing) :
    Result (List Bytes) := do
  if list.keyPrefix ≠ keyPrefix ∨ list.contents.length > limit ∨
      (list.isTruncated ∧ list.contents = []) then .error .corrupt
  else
    let hashes ← list.contents.foldlM (collect keyPrefix after) []
    pure (hashes.mergeSort fun a b => decide (a ≤ b))

/-- `list_chunks_after` -/
def listChunksAfter (volume : Bytes) (after : Option Bytes) (limit : ℕ) :
    Op Act Error (List Bytes) := do
  Op.refuse (after.any fun h => !validHashText h) .invalidInput
  Op.refuse (¬ validIdText volume ∨ ¬ (1 ≤ limit ∧ limit ≤ 1000)) .invalidInput
  let reply ← request
    (.list c.root (c.chunks volume) (after.map (c.chunks volume ++ ·)) limit)
  Op.refuse (reply.status ≠ 200) .store
  let body ← settle (readBody maxList reply)
  match S.parseListing body with
  | none => throw .corrupt
  | some list => settle (pageHashes (c.chunks volume) after limit list)

/-- Whether a result names each key once, and nothing else. -/
def Deleted.names (d : Deleted) (keys : List Bytes) : Bool :=
  let named := d.deleted ++ d.error.map Failure.key
  named.all (· ∈ keys) && decide named.Nodup && keys.all (· ∈ named)

/-- `delete_chunks` -/
def deleteChunks (volume : Bytes) (hashes : List Bytes) : Op Act Error Unit := do
  Op.refuse (¬ validIdText volume ∨ hashes.length > 1000 ∨ hashes.any fun h => !validHashText h)
    .invalidInput
  if hashes = [] then pure ()
  else
    let keys := hashes.map fun hash => c.objectKey volume (chunkSuffix hash)
    Op.refuse (¬ keys.Nodup) .invalidInput
    let reply ← request (.deleteObjects c.root keys)
    Op.refuse (reply.status ≠ 200) .store
    let bytes ← settle (readBody maxList reply)
    match S.parseDeleted bytes with
    | none => throw .corrupt
    | some d => do
      Op.refuse (¬ d.names keys) .corrupt
      Op.refuse (d.error.any fun failure => failure.code = []) .corrupt
      Op.refuse (d.error ≠ []) .store

end

end AgentHouse.Volume.S3
