import AgentHouse.Runs.Store

/-!
# Records of the guest

The functions of `run_events.rs` and `project_environment.rs` that read one line of the guest's
journal: a record carries a full checkpoint, or a patch of the last one. All of them fail with the
same error, so that a result is an option. A hash of the request is all that is used of
the delivery grant. `reads` reads the bytes of a line as a document.
-/

namespace AgentHouse.Runs

/-- The length of the longest record. -/
def maxGuestLine : ℕ := 262144

section Bounded

/-- A key that no object may have. -/
def forbidden (key : String) : Bool :=
  key = "__proto__" || key = "prototype" || key = "constructor"

mutual

/-- The document is not too deep and no part of it too large. -/
def boundedJson : Json → ℕ → Bool
  | .arr items, depth => depth ≤ 8 && items.length ≤ 256 && boundedItems items (depth + 1)
  | .obj fields, depth => depth ≤ 8 && fields.length ≤ 64 && boundedFields fields (depth + 1)
  | _, depth => depth ≤ 8

/-- The items of an array are bounded. -/
def boundedItems : List Json → ℕ → Bool
  | [], _ => true
  | v :: rest, depth => boundedJson v depth && boundedItems rest depth

/-- The fields of an object are bounded. -/
def boundedFields : List (String × Json) → ℕ → Bool
  | [], _ => true
  | (k, v) :: rest, depth =>
      !forbidden k && k.utf8ByteSize ≤ 160 && boundedJson v depth && boundedFields rest depth

end

end Bounded

section Values

variable (value : Json)

/-- A character of a native id. -/
def alphanumeric (c : Char) : Bool := c.isAlphanum || c = '-' || c = '_'

/-- A digit of a lower-case hexadecimal number. -/
def lowerHexDigit (c : Char) : Bool := c.isDigit || ('a' ≤ c && c ≤ 'f')

/-- `valid_native_id` -/
def validNativeId (start : String) : Bool :=
  value.asStr.any fun s =>
    s.startsWith start && start.utf8ByteSize < s.utf8ByteSize && s.utf8ByteSize ≤ 164 &&
      s.toList.all alphanumeric

/-- A hexadecimal number of one of the lengths. -/
def lowerHex (lengths : List ℕ) : Bool :=
  value.asStr.any fun s => lengths.contains s.utf8ByteSize && s.toList.all lowerHexDigit

/-- `uuid` -/
def uuid : Bool :=
  value.asStr.any fun s => s.utf8ByteSize = 36 && s.toList.zipIdx.all fun (c, i) =>
    if [8, 13, 18, 23].contains i then c = '-' else lowerHexDigit c

/-- A code in lower case. -/
def code : Bool :=
  value.asStr.any fun s =>
    s ≠ "" && s.utf8ByteSize ≤ 80 && s.toList.all fun c => c.isLower || c = '_'

/-- A string of at most `n` bytes. -/
def shortText (n : ℕ) : Bool := value.asStr.any fun s => s.utf8ByteSize ≤ n

/-- One of the words. -/
def oneOf (words : List String) : Bool := value.asStr.any words.contains

/-- The field is absent or satisfies the check. -/
def absentOr (key : String) (check : Json → Bool) : Bool := (value.get? key).all check

/-- An object without other keys. -/
def onlyKeys (allowed : List String) : Bool :=
  match value with
  | .obj fields => fields.all fun f => allowed.contains f.1
  | _ => false

/-- The field is this string. -/
def hasText (key text : String) : Bool := (value.index key).asStr = some text

/-- `value["schema"] == 1`. -/
def schemaOne : Bool := value.index "schema" = .num "1"

/-- The fields of an environment's progress. -/
def progress (phaseKey codeKey : String) : Bool :=
  oneOf (value.index phaseKey) ["installing", "starting", "ready", "failed", "cancelled"] &&
    shortText (value.index "log") 16384 &&
    (value.index "logTruncated").isBoolean &&
    (value.index "installHook").isBoolean &&
    (value.index "startHook").isBoolean &&
    absentOr value codeKey code &&
    absentOr value "sourceCommit" fun v => v = .null || lowerHex v [40, 64]

/-- `valid_projection` -/
def validProjection : Bool :=
  onlyKeys value ["schema", "projectId", "revisionId", "hookDigest", "stage", "detail", "log",
      "logTruncated", "installHook", "startHook", "sourceCommit"] &&
    schemaOne value &&
    uuid (value.index "projectId") &&
    lowerHex (value.index "revisionId") [64] &&
    absentOr value "hookDigest" (lowerHex · [64]) &&
    progress value "stage" "detail"

variable (run : ManagedRun) (requestHash : String)

/-- The fields that bind every checkpoint to its run. -/
def bound : Bool :=
  schemaOne value && hasText value "runId" run.id && hasText value "requestHash" requestHash &&
    (value.index "bootId").asStr = run.bootId && run.bootId.isSome

/-- `validate_build` -/
def validateBuild : Bool :=
  onlyKeys value ["schema", "kind", "harness", "runId", "buildId", "projectId", "revisionId",
      "hookDigest", "requestHash", "bootId", "phase", "sourceCommit", "installHook", "startHook",
      "log", "logTruncated", "errorCode"] &&
    bound value run requestHash &&
    hasText value "kind" "project-environment" &&
    hasText value "harness" "environment" &&
    hasText value "buildId" run.id &&
    uuid (value.index "buildId") &&
    uuid (value.index "projectId") &&
    absentOr value "revisionId" (fun v => v = .null || lowerHex v [64]) &&
    absentOr value "hookDigest" (fun v => v = .null || lowerHex v [64]) &&
    progress value "phase" "errorCode" &&
    boundedJson value 0 &&
    value.size ≤ maxGuestLine

/-- The value is an object. -/
def isObject : Json → Bool
  | .obj _ => true
  | _ => false

/-- The harness of a project build. -/
def environmentHarness : Bool := (value.get? "harness").any (·.asStr = some "environment")

/-- `validate_checkpoint` -/
def validateCheckpoint : Bool :=
  if environmentHarness value then validateBuild value run requestHash
  else
    onlyKeys value ["schema", "harness", "runId", "requestHash", "sessionId", "messageId", "bootId",
        "phase", "text", "detail", "admissionError", "tools", "question", "githubPublish",
        "environment"] &&
      bound value run requestHash &&
      validNativeId (value.index "sessionId") "ses_" &&
      validNativeId (value.index "messageId") "msg_" &&
      absentOr value "harness" (oneOf · ["pi", "opencode"]) &&
      oneOf (value.index "phase") ["running", "uncertain", "succeeded", "failed", "interrupted"] &&
      shortText (value.index "text") 32768 &&
      absentOr value "tools" (fun v => match v with
        | .arr items => items.length ≤ 32
        | _ => false) &&
      absentOr value "question" (fun v => v = .null || (isObject v && v.size ≤ 16384)) &&
      absentOr value "detail" code &&
      absentOr value "environment" validProjection &&
      boundedJson value 0 &&
      value.size ≤ maxGuestLine

end Values

section Patch

/-- The index that a key of a path is. -/
def arrayIndex (key : String) : Option ℕ :=
  if key = "" || (1 < key.utf8ByteSize && key.startsWith "0") || !key.toList.all Char.isDigit then
    none
  else (some (Json.ofDigits key.toList)).filter (· < 2 ^ 64)

/-- Change the member at a path: `member_mut` and the assignment to what it returns. -/
def memberMut (f : Json → Option Json) : List String → Json → Option Json
  | [], value => f value
  | key :: path, .obj fields => do
      let member ← fields.lookup key
      let changed ← memberMut f path member
      return .obj (Json.setFields key changed fields)
  | key :: path, .arr items => do
      let i ← arrayIndex key
      let member ← items[i]?
      let changed ← memberMut f path member
      return .arr (items.set i changed)
  | _ :: _, _ => none

/-- The first `n` bytes, if a character ends there. -/
def bytePrefix (n : ℕ) : List Char → Option (List Char)
  | [] => if n = 0 then some [] else none
  | c :: rest =>
      if n = 0 then some []
      else if c.utf8Size ≤ n then (bytePrefix (n - c.utf8Size) rest).map (c :: ·)
      else none

/-- Keep a prefix of the text and append to it. -/
def textOp (keep : ℕ) (tail : String) : Json → Option Json
  | .str s =>
      if keep + tail.utf8ByteSize ≤ maxGuestLine then
        (bytePrefix keep s.toList).map fun kept => .str (String.ofList kept ++ tail)
      else none
  | _ => none

/-- `set` at a key of a container. -/
def setOp (key : String) (value : Json) : Json → Option Json
  | .obj fields => some (.obj (Json.setFields key value fields))
  | .arr items => do
      let i ← arrayIndex key
      if i < items.length then return .arr (items.set i value) else none
  | _ => none

/-- `remove` of a key that is there. -/
def removeOp (key : String) : Json → Option Json
  | .obj fields => if (fields.lookup key).isSome then some (.obj (Json.remove key fields)) else none
  | _ => none

/-- The fields of a checkpoint that a patch may change. -/
def patchRoots : List String :=
  ["text", "tools", "question", "phase", "detail", "githubPublish", "admissionError",
    "environment"]

/-- The fields that a patch of an environment may change. -/
def environmentPatchRoots : List String :=
  ["phase", "revisionId", "hookDigest", "sourceCommit", "installHook", "startHook", "log",
    "logTruncated", "errorCode"]

/-- A key of a patch's path. -/
def patchKey : Json → Option String
  | .str k => if k ≠ "" ∧ k.utf8ByteSize ≤ 160 ∧ ¬ forbidden k then some k else none
  | _ => none

/-- The path of an operation. -/
def patchPath (operation : Json) : Option (List String) :=
  match operation.index "path" with
  | .arr items => if items ≠ [] ∧ items.length ≤ 8 then items.mapM patchKey else none
  | _ => none

/-- The operation has exactly these keys. -/
def exactKeys (operation : Json) (keys : List String) : Bool :=
  match operation with
  | .obj fields => fields.length = keys.length && fields.all fun f => keys.contains f.1
  | _ => false

/-- One operation of a patch. -/
def applyOperation (checkpoint operation : Json) : Option Json := do
  let path ← patchPath operation
  let roots := if environmentHarness checkpoint then environmentPatchRoots else patchRoots
  let root ← path.head?
  if ¬ roots.contains root then none
  else
    let key ← path.getLast?
    let changed ← match (operation.index "op").asStr with
      | some "set" =>
          if exactKeys operation ["op", "path", "value"] then
            memberMut (setOp key (operation.index "value")) path.dropLast checkpoint
          else none
      | some "remove" =>
          if exactKeys operation ["op", "path"] then
            memberMut (removeOp key) path.dropLast checkpoint
          else none
      | some "text" => do
          if exactKeys operation ["op", "path", "prefix", "append"] then
            let keep ← (operation.index "prefix").asU64.filter (· ≤ maxGuestLine)
            let tail ← (operation.index "append").asStr
            memberMut (textOp keep tail) path checkpoint
          else none
      | _ => none
    if boundedJson changed 0 ∧ changed.size ≤ maxGuestLine then some changed else none

/-- `apply_patch` -/
def applyPatch (checkpoint operations : Json) : Option Json :=
  match operations with
  | .arr items =>
      if items ≠ [] ∧ items.length ≤ 256 then items.foldlM applyOperation checkpoint else none
  | _ => none

end Patch

section Identity

/-- What was known of the source stays. -/
def unchangedProvenance (previous next : Json) : Bool :=
  ["sourceCommit", "revisionId", "hookDigest"].all fun key =>
    !(previous.get? key).any Json.isString || previous.get? key = next.get? key

/-- What a checkpoint is about stays. -/
def unchangedIdentity (previous next : Json) : Bool :=
  (match previous.get? "environment" with
    | none => true
    | some environment =>
      match next.get? "environment" with
      | none => false
      | some current =>
        (["schema", "projectId", "revisionId"].all fun key =>
          environment.get? key = current.get? key) && unchangedProvenance environment current) &&
    (!hasText previous "harness" "environment" || unchangedProvenance previous next)

/-- The fields that identify a checkpoint. -/
def identityKeys : List String :=
  ["schema", "harness", "runId", "requestHash", "sessionId", "messageId", "bootId", "kind",
    "buildId", "projectId"]

/-- The checkpoint goes on from the previous one. -/
def continues (previous next : Json) : Bool :=
  (identityKeys.all fun key => next.get? key = previous.get? key) && unchangedIdentity previous next

end Identity

section Record

variable (parse : String → Option Json) (reads : List UInt8 → Option Json)

/-- The checkpoint of a record: a full one, or a patch of the stored one. -/
def recordCheckpoint (record : Json) (checkpointJson : Option String) : Option Json :=
  match record.get? "checkpoint" with
  | some value => some value
  | none => do
    let previous ← checkpointJson
    let value ← parse previous
    let operations ← record.get? "patch"
    applyPatch value operations

/-- What of the stream a record is read against. -/
structure Source where
  guestSeq : ℕ := 0
  checkpointJson : Option String := none
deriving DecidableEq, Repr

/-- `guest_record`: the next record of the journal, applied to the last checkpoint. -/
def guestRecord (line : List UInt8) (source : Source) (run : ManagedRun) (requestHash : String) :
    Option (ℕ × Json) := do
  if maxGuestLine < line.length + 1 then none
  else
    let record ← reads line
    let fields ← match record with
      | .obj fields => some fields
      | _ => none
    let seq ← (record.index "seq").asU64.filter (· = source.guestSeq + 1)
    if ¬ schemaOne record ∨ fields.length ≠ 3 then none
    else
      let checkpoint ← recordCheckpoint parse record source.checkpointJson
      if ¬ validateCheckpoint checkpoint run requestHash then none
      else
        let unchanged ← match source.checkpointJson with
          | none => some true
          | some text => (parse text).map (continues · checkpoint)
        if ¬ unchanged then none
        else
          -- the guest's text is printed anew before it is frozen
          let normal ← parse checkpoint.render
          return (seq, normal)

end Record

end AgentHouse.Runs
