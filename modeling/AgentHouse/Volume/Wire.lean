import AgentHouse.Lib.Triples
import AgentHouse.Volume.Provenance
import Mathlib.Logic.Function.Basic
import Mathlib.Logic.Relation
import Mathlib.Data.List.Lex

/-!
# The S3 transport

`s3.rs` speaks to a bucket over a network that may lose each request and each reply. The bucket
maps the URLs of objects to their contents with an opaque tag, and applies a conditional upload
atomically. Other clients change it between any two steps, and a request whose reply was lost
may arrive at any later time. The world keeps the history of the bucket.
-/

namespace AgentHouse.Volume.S3

/-- An object under its tag. -/
structure Object where
  tag : Bytes
  bytes : Bytes
  deriving DecidableEq

/-- The objects under their URLs. -/
abbrev Bucket := Bytes → Option Object

/-- The condition of an upload: `if-none-match: *`, or `if-match` with a tag. -/
inductive Condition where
  | absent
  | tagged (tag : Bytes)
  deriving DecidableEq

/-- The condition of a conditional request. -/
def Condition.Holds : Condition → Option Object → Prop
  | .absent, o => o = none
  | .tagged tag, o => o.map Object.tag = some tag

/-- The requests to the store. -/
inductive Request where
  | put (url : Bytes) (condition : Condition) (body : Bytes)
  | get (url : Bytes)
  /-- The objects of the bucket `root` under `keyPrefix`, behind the key `after`. -/
  | list (root keyPrefix : Bytes) (after : Option Bytes) (maxKeys : ℕ)
  | deleteObjects (root : Bytes) (keys : List Bytes)
  deriving DecidableEq

/-- An answer: a status, the tag if there is one that is text, the announced length, and what
arrives of the body before it ends or breaks off. -/
structure Reply where
  status : ℕ
  etag : Option Bytes
  contentLength : Option ℕ
  body : Bytes
  broken : Bool

/-- A page of a listing. -/
structure Listing where
  keyPrefix : Bytes
  isTruncated : Bool
  contents : List Bytes

/-- A key that was not deleted. -/
structure Failure where
  key : Bytes
  code : Bytes

/-- The answer to a deletion. -/
structure Deleted where
  deleted : List Bytes
  error : List Failure

/-- What the development takes from outside: the digest as lowercase hex digits, and the XML
parser for the two documents. -/
structure Setup where
  digest : Bytes → Bytes
  parseListing : Bytes → Option Listing
  parseDeleted : Bytes → Option Deleted

/-! ## The world -/

/-- Who changed the bucket: the request of ours with a number, or somebody else. -/
inductive Cause where
  | others
  | ours (n : ℕ)
  deriving DecidableEq

/-- A change of the bucket, and what caused it. -/
structure Moment where
  cause : Cause
  before : Bucket
  after : Bucket

/-- The bucket, the number of requests that were sent, those of them that may still arrive, and
the past changes, the latest first. -/
structure World where
  bucket : Bucket
  sent : ℕ
  flights : List (ℕ × Request)
  history : List Moment
  numbered : ∀ f ∈ flights, f.1 < sent

namespace World

/-- The bucket changes, and the change is recorded. -/
def move (w : World) (cause : Cause) (B : Bucket) : World :=
  { w with bucket := B, history := ⟨cause, w.bucket, B⟩ :: w.history }

/-- One more request was sent. -/
def send (w : World) : World :=
  { w with
    sent := w.sent + 1
    numbered := fun f hf => Nat.lt_succ_of_lt (w.numbered f hf) }

/-- One more request was sent and may still arrive. -/
def fly (w : World) (q : Request) : World :=
  { w with
    sent := w.sent + 1
    flights := (w.sent, q) :: w.flights
    numbered := by
      intro f hf
      rcases List.mem_cons.mp hf with rfl | hf
      · exact Nat.lt_succ_self _
      · exact Nat.lt_succ_of_lt (w.numbered f hf) }

end World

/-- What a request may do to the bucket, one atomic step at a time. -/
inductive Request.Applies : Request → Bucket → Bucket → Prop
  | put {url body tag : Bytes} {condition : Condition} {B : Bucket}
      (h : condition.Holds (B url)) :
      Applies (.put url condition body) B (Function.update B url (some ⟨tag, body⟩))
  | delete {root key : Bytes} {keys : List Bytes} {B : Bucket} (h : key ∈ keys) :
      Applies (.deleteObjects root keys) B (Function.update B (root ++ [47] ++ key) none)

/-- What happens between two steps of the adapter. -/
inductive Env : World → World → Prop
  | others {w : World} (B : Bucket) : Env w (w.move .others B)
  | arrives {w : World} {n : ℕ} {q : Request} {B : Bucket} (hf : (n, q) ∈ w.flights)
      (h : q.Applies w.bucket B) : Env w (w.move (.ours n) B)

/-- Any number of moves of the store. -/
abbrev Envs : World → World → Prop := Relation.ReflTransGen Env

/-- The store removes keys one after the other, in a world that goes on. -/
inductive Removes (n : ℕ) (root : Bytes) (keys : List Bytes) (w : World) :
    List Bytes → World → Prop
  | nil : Removes n root keys w [] w
  | env {removed : List Bytes} {u v : World} (h : Removes n root keys w removed u)
      (henv : Env u v) : Removes n root keys w removed v
  | remove {removed : List Bytes} {u : World} {key : Bytes}
      (h : Removes n root keys w removed u) (hkey : key ∈ keys) :
      Removes n root keys w (key :: removed)
        (u.move (.ours n) (Function.update u.bucket (root ++ [47] ++ key) none))

/-- A page of what the bucket holds: an initial part of the keys behind the start, in their order,
and all of them unless the page says that it is truncated. -/
structure Page (B : Bucket) (root keyPrefix : Bytes) (after : Option Bytes) (maxKeys : ℕ)
    (l : Listing) : Prop where
  same : l.keyPrefix = keyPrefix
  length : l.contents.length ≤ maxKeys
  ordered : l.contents.Pairwise (· < ·)
  present : ∀ key ∈ l.contents, keyPrefix <+: key ∧ (∀ a ∈ after, a < key) ∧
    (B (root ++ [47] ++ key)).isSome
  complete : ∀ key, keyPrefix <+: key → (∀ a ∈ after, a < key) →
    (B (root ++ [47] ++ key)).isSome →
      key ∈ l.contents ∨ (l.isTruncated = true ∧ ∀ c ∈ l.contents, c < key)

/-- The reply with which the store answers a request, and the world in which it has done so. An
upload with another status than 200 and 412, and a removal, may still be carried out later. -/
def Serves (S : Setup) (w : World) (reply : Reply) (w' : World) : Request → Prop
  | .put url condition body =>
    (reply.status = 200 ∧ condition.Holds (w.bucket url) ∧ ∃ tag,
      w' = (w.move (.ours w.sent) (Function.update w.bucket url (some ⟨tag, body⟩))).send ∧
        ∀ t ∈ reply.etag, t = tag) ∨
    (reply.status = 412 ∧ ¬ condition.Holds (w.bucket url) ∧ w' = w.send) ∨
    (reply.status ≠ 200 ∧ reply.status ≠ 412 ∧ w' = w.fly (.put url condition body))
  | .get url =>
    w' = w.send ∧ (reply.status = 404 → w.bucket url = none) ∧
      (reply.status = 200 → ∃ o, w.bucket url = some o ∧ (∀ t ∈ reply.etag, t = o.tag) ∧
        (reply.broken = false → reply.body = o.bytes))
  | .list root keyPrefix after maxKeys =>
    w' = w.send ∧ (reply.status = 200 → reply.broken = false →
      ∃ l, S.parseListing reply.body = some l ∧ Page w.bucket root keyPrefix after maxKeys l)
  | .deleteObjects root keys =>
    ∃ removed u, Removes w.sent root keys w removed u ∧
      (reply.status = 200 → reply.broken = false →
        ∃ d, S.parseDeleted reply.body = some d ∧ ∀ key ∈ d.deleted, key ∈ removed) ∧
      (w' = u.send ∨ w' = u.fly (.deleteObjects root keys))

end AgentHouse.Volume.S3
