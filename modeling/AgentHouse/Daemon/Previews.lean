import AgentHouse.Lib.Headers

/-!
# Requests to previews

A preview is served on an origin of its own. The middleware `authorize` admits a request by an API
key, by the token of a preview cookie or by a token in the query, which it exchanges for the
cookie; `proxy` forwards the request to the guest. What the store, the engine and the guest answer
is given; the bytes of the headers are not.
-/

namespace AgentHouse.Daemon.Previews

open Headers

/-- The errors of the handlers, with their texts. -/
inductive ApiError where
  | invalid (message : String)
  | notFound (message : String)
  | unauthorized
  | forbidden (message : String)
  | conflict (message : String)
  | unavailable (message : String)
deriving DecidableEq, Repr

/-- `http::Uri`, without scheme and authority. A query follows a path from the root, and no byte of
the path is a blank or a control character. -/
structure Uri where
  path : Bytes
  query : Option Bytes
  rooted : path.head? = some 47 ∨ query = none
  plain : ∀ b ∈ path, 32 < b

/-- A request to the proxy. -/
structure Request where
  method : Bytes
  uri : Uri
  headers : HeaderMap

/-- A response, less its body. -/
structure Response where
  status : ℕ
  headers : HeaderMap

/-- The domain that previews are served under. -/
structure Domain where
  name : Bytes
  secure : Bool

/-! ## Names -/

/-- The header that carries an API key. -/
def authorization : Bytes := ascii "authorization"

/-- The header of the request's cookies. -/
def cookie : Bytes := ascii "cookie"

/-- The header that grants the preview cookie. -/
def setCookie : Bytes := ascii "set-cookie"

/-- The header that names hop-by-hop headers. -/
def connection : Bytes := ascii "connection"

/-- The header that asks for a websocket. -/
def upgrade : Bytes := ascii "upgrade"

/-- The header of a redirection. -/
def location : Bytes := ascii "location"

/-- Grants are not to be cached. -/
def cacheControl : Bytes := ascii "cache-control"

/-- Nor is the token to be told to other sites. -/
def referrerPolicy : Bytes := ascii "referrer-policy"

/-- The protocol that is upgraded to. -/
def websocketName : Bytes := ascii "websocket"

/-- The names that `strip_hop` removes. -/
def hopByHop : List Bytes :=
  [connection, ascii "keep-alive", ascii "proxy-authenticate", ascii "proxy-authorization",
    ascii "te", ascii "trailer", ascii "transfer-encoding", upgrade]

/-- The identity and routing hints of proxies. -/
def forwardingNames : List Bytes :=
  [ascii "forwarded", ascii "x-forwarded-for", ascii "x-forwarded-host", ascii "x-forwarded-proto"]

/-- The query parameter of a token. -/
def tokenKey : Bytes := ascii "ahvm_token="

/-- `cookie_name` -/
def Domain.cookieName (d : Domain) : Bytes :=
  if d.secure then ascii "__Host-ahvm_preview" else ascii "ahvm_preview"

/-- The pair is a preview cookie, under either name. -/
def previewCookie (pair : Bytes) : Bool :=
  match splitOnce 61 pair with
  | some (name, _) =>
      trim name == ascii "ahvm_preview" || trim name == ascii "__Host-ahvm_preview"
  | none => false

/-! ## The host -/

/-- A digit of `hex::encode`. -/
def hexDigit (n : ℕ) : UInt8 := if n < 10 then .ofNat (48 + n) else .ofNat (87 + n)

/-- `hex::encode` -/
def hexEncode (s : Bytes) : Bytes := s.flatMap fun b =>
    [hexDigit (b.toNat / 16), hexDigit (b.toNat % 16)]

/-- The value of a digit, of either case. -/
def hexValue (b : UInt8) : Option ℕ :=
  if 48 ≤ b ∧ b ≤ 57 then some (b.toNat - 48)
  else if 97 ≤ b ∧ b ≤ 102 then some (b.toNat - 87)
  else if 65 ≤ b ∧ b ≤ 70 then some (b.toNat - 55)
  else none

/-- `hex::decode` -/
def hexDecode : Bytes → Option Bytes
  | [] => some []
  | [_] => none
  | a :: b :: s => do
    let high ← hexValue a
    let low ← hexValue b
    let rest ← hexDecode s
    return UInt8.ofNat (16 * high + low) :: rest

/-- A number in decimal. -/
def decimal (n : ℕ) : Bytes := ascii (toString n)

/-- The labels of at most 32 bytes. -/
def labels : ℕ → Bytes → List Bytes
  | 0, _ => []
  | fuel + 1, s => if s = [] then [] else s.take 32 :: labels fuel (s.drop 32)

/-- The host label of a sandbox and port. -/
def hostLabel (id : Bytes) (port : ℕ) : Bytes :=
  [46].intercalate (labels (hexEncode id).length (hexEncode id)) ++ ascii "--" ++ decimal port

/-- `rsplit_once("--")` -/
def rsplitDashes (s : Bytes) : Option (Bytes × Bytes) :=
  (List.range s.length).reverse.findSome? fun i =>
    if (s.drop i).take 2 = [45, 45] then some (s.take i, s.drop (i + 2)) else none

/-- `parse::<u16>` -/
def parsePort (s : Bytes) : Option ℕ :=
  let digits := if s.head? = some 43 then s.tail else s
  if digits ≠ [] ∧ digits.all (fun b => decide (48 ≤ b) && decide (b ≤ 57)) then
    let n := digits.foldl (fun n b => 10 * n + (b.toNat - 48)) 0
    if n < 65536 then some n else none
  else none

/-- `ok_or` -/
def orElse {α : Type} (x : Option α) (e : ApiError) : Except ApiError α :=
  match x with
  | some a => .ok a
  | none => .error e

/-- `target`: the sandbox and the port that a host names. -/
def target (headers : HeaderMap) (domain : Bytes) : Except ApiError (Bytes × ℕ) := do
  let host ← orElse ((headers.first (ascii "host")).bind toStr) (.invalid "missing preview Host")
  let host := lowercase ((host.splitOn 58).headD [])
  let suffix := 46 :: domain
  let label ← orElse (if suffix.isSuffixOf host then some (host.take (host.length - suffix.length))
    else none) (.notFound "preview host")
  let (encoded, port) ← orElse (rsplitDashes label) (.notFound "preview host")
  let port ← orElse ((parsePort port).filter (0 < ·)) (.invalid "invalid preview port")
  let id ← orElse ((hexDecode (encoded.filter (· ≠ 46))).filter
    fun id => (ByteArray.mk id.toArray).validateUTF8) (.invalid "invalid preview sandbox label")
  if id = [] ∨ 64 < id.length ∨ 47 ∈ id ∨ hostLabel id port ≠ label then
    .error (.invalid "invalid preview sandbox label")
  else return (id, port)

/-! ## The rest of the world -/

/-- What the store, the engine and the guest answer while a request is served. -/
structure Outside where
  /-- The API key belongs to a user. -/
  user : Bytes → Bool
  unchangedIdentity : Except ApiError Unit
  /-- The expiry of a token of the preview. -/
  checkPreviewToken : Bytes → Except ApiError (Option ℤ)
  owner : Except ApiError Unit
  generation : Except ApiError (Option Unit)
  unixNow : ℤ
  owned : Except ApiError Unit
  portGeneration : Except ApiError (Option Unit)
  capacity : Bool
  guestPreview : Except ApiError Unit
  active : Bool
  connect : Except ApiError Unit
  stillActive : Bool
  respond : Request → Except String Response

/-- What came of a request. -/
structure Served where
  /-- The request that was sent to the guest. -/
  forwarded : Option Request
  result : Except ApiError Response

/-- An error is answered, and the guest gets nothing. -/
def reject (e : ApiError) : Served := ⟨none, .error e⟩

/-! ## Forwarding -/

/-- The readable nominations of the Connection headers. -/
def named (headers : HeaderMap) : List Bytes :=
  ((headers.getAll connection).filterMap toStr).flatMap fun value =>
    (value.splitOn 44).filterMap fun token => parseName (trim token)

/-- The headers without those of one hop. -/
def stripHop (headers : HeaderMap) : HeaderMap :=
  (headers.removeAll (named headers)).removeAll hopByHop

/-- `HeaderValue::from_str` -/
def fromStr (s : Bytes) (e : ApiError) : Except ApiError Bytes :=
  if s.all fun b => b == 9 || (decide (32 ≤ b) && b != 127) then .ok s else .error e

/-- The cookies of a text without the preview's. -/
def cleanCookies (cookies : Bytes) : Bytes :=
  [59].intercalate ((cookies.splitOn 59).filter fun c => !previewCookie c)

/-- The preview cookie is taken out of the first `Cookie` header, if that can be read. -/
def filterCookies (headers : HeaderMap) : Except ApiError HeaderMap :=
  match (headers.first cookie).bind toStr with
  | none => .ok headers
  | some cookies =>
      let clean := cleanCookies cookies
      if trim clean = [] then .ok (headers.remove cookie)
      else do
        let value ← fromStr clean (.invalid "invalid cookies")
        return (headers.remove cookie).insert cookie value

/-- The headers that go to the guest. -/
def filterHeaders (websocket : Bool) (headers : HeaderMap) : Except ApiError HeaderMap := do
  let headers ← filterCookies ((stripHop headers).remove authorization)
  let headers := headers.removeAll forwardingNames
  return if websocket then (headers.insert connection upgrade).insert upgrade websocketName
    else headers

/-- The URI `/`. -/
def rootUri : Uri := ⟨[47], none, .inr rfl, List.forall_mem_singleton.mpr (by decide)⟩

/-- `path_and_query`, or the root. -/
def forwardUri (uri : Uri) : Uri := if uri.path = [] then rootUri else uri

/-- The request asks for a websocket. -/
def isWebsocket (headers : HeaderMap) : Bool :=
  (headers.first upgrade).any fun value => lowercase value == websocketName

/-- What is returned of the guest's response. -/
def relay (websocket : Bool) (response : Response) : Except ApiError Response :=
  let headers := stripHop response.headers
  let cookies := (headers.getAll setCookie).filter fun value =>
    (toStr value).any fun s => !previewCookie ((s.splitOn 59).headD [])
  let headers := cookies.foldl (fun m value => m.append setCookie value) (headers.remove setCookie)
  let headers := headers.insert cacheControl (ascii "private, no-store")
  let headers := headers.insert referrerPolicy (ascii "no-referrer")
  if response.status = 101 ∧ websocket = true then
    .ok { response with
      headers := (headers.insert connection upgrade).insert upgrade websocketName }
  else if response.status = 101 then .error (.unavailable "unexpected guest upgrade")
  else .ok { response with headers }

/-- The checks before a connection to the guest. A grant fixes the generation of the port. -/
def admission (o : Outside) (domain : Domain) (granted : Bool) (request : Request) :
    Except ApiError Unit := do
  let _ ← target request.headers domain.name
  o.owned
  if granted = false then
    let _ ← orElse (← o.portGeneration) (.notFound "preview port")
  if request.method = ascii "CONNECT" ∨ request.method = ascii "TRACE" then
    .error (.invalid "unsupported preview method")
  else if o.capacity = false then .error (.conflict "preview capacity exhausted")
  else
    o.guestPreview
    if o.active = false then .error .unauthorized
    else o.connect

/-- `proxy`: an admitted request goes to the guest, its headers filtered. -/
def proxy (o : Outside) (domain : Domain) (granted : Bool) (request : Request) : Served :=
  match admission o domain granted request with
  | .error e => reject e
  | .ok _ =>
      let websocket := isWebsocket request.headers
      match filterHeaders websocket request.headers with
      | .error e => reject e
      | .ok headers =>
          let request := { request with headers, uri := forwardUri request.uri }
          if o.stillActive = false then reject .unauthorized
          else
            match o.respond request with
            | .ok response => ⟨some request, relay websocket response⟩
            | .error e => ⟨some request, .error (.unavailable ("preview response: " ++ e))⟩

/-! ## Authorization -/

/-- The pairs of a query. -/
def queryPairs (uri : Uri) : List Bytes := (uri.query.getD []).splitOn 38

/-- The pair gives a token. -/
def hasToken (pair : Bytes) : Bool := tokenKey.isPrefixOf pair

/-- The token of the query. -/
def queryToken (uri : Uri) : Option Bytes :=
  (queryPairs uri).findSome? fun pair =>
    if hasToken pair then some (pair.drop tokenKey.length) else none

/-- The token of the preview cookie. -/
def cookieToken (domain : Domain) (headers : HeaderMap) : Option Bytes :=
  ((headers.first cookie).bind toStr).bind fun s =>
    (s.splitOn 59).findSome? fun p =>
      (splitOnce 61 (trim p)).bind fun (name, value) =>
        if name = domain.cookieName then some value else none

/-- A token is 32 bytes in hexadecimal. -/
def isToken (s : Bytes) : Bool := s.length = 64 && s.all fun b => (hexValue b).isSome

/-- The API key of `require_user`. -/
def bearer (headers : HeaderMap) : Option Bytes :=
  ((headers.first authorization).bind toStr).bind fun value =>
    if (ascii "Bearer ").isPrefixOf value then some (value.drop 7) else none

/-- `require_user`: an API key of some user is needed. -/
def requireUser (o : Outside) (next : Bool → Request → Served) (request : Request) : Served :=
  match (bearer request.headers).filter (· ≠ []) with
  | none => reject .unauthorized
  | some key => if o.user key then next false request else reject .unauthorized

/-- Where the browser is sent with its new cookie. -/
def redirectTarget (uri : Uri) : Bytes :=
  let query := [38].intercalate ((queryPairs uri).filter fun p => !hasToken p)
  let path := if [47, 47].isPrefixOf uri.path || uri.path.contains 92 then [47] else uri.path
  if query = [] then path else path ++ 63 :: query

/-- The cookie that takes the place of a token in the query. -/
def grantCookie (domain : Domain) (token : Bytes) (age : ℤ) : Bytes :=
  domain.cookieName ++ 61 :: token ++ ascii "; Path=/; HttpOnly; SameSite=Lax; Max-Age=" ++
    ascii (toString age) ++ if domain.secure then ascii "; Secure" else []

/-- The redirection that grants the cookie. -/
def redirect (domain : Domain) (token : Bytes) (age : ℤ) (uri : Uri) :
    Except ApiError Response := do
  let value ← fromStr (redirectTarget uri) (.invalid "invalid preview path")
  return { status := 303, headers :=
    [(location, value), (setCookie, grantCookie domain token age),
      (cacheControl, ascii "no-store"), (referrerPolicy, ascii "no-referrer")] }

/-- The request comes from the preview's own origin. `authority` parses an origin. -/
def sameOrigin (authority : Bytes → Option Bytes) (headers : HeaderMap) : Bool :=
  let host := ((headers.first (ascii "host")).bind toStr).getD []
  (match headers.first (ascii "origin") with
    | some origin => decide ((toStr origin).bind authority = some host)
    | none => true) &&
  match headers.first (ascii "sec-fetch-site") with
  | some site => site == ascii "same-origin" || site == ascii "none" ||
      decide (headers.first (ascii "sec-fetch-dest") = some (ascii "document"))
  | none => true

/-- The critical section that reads token, owner and generation. -/
def checkGrant (o : Outside) (token : Bytes) : Except ApiError ℤ := do
  o.unchangedIdentity
  let expires ← orElse (← o.checkPreviewToken token) .unauthorized
  o.owner
  let _ ← orElse (← o.generation) .unauthorized
  return expires

/-- `authorize`: a key, a token in the query or the cookie. -/
def authorize (authority : Bytes → Option Bytes) (o : Outside) (domain : Domain)
    (next : Bool → Request → Served) (request : Request) : Served :=
  match target request.headers domain.name with
  | .error e => reject e
  | .ok _ =>
      if request.headers.has authorization && !(queryPairs request.uri).any hasToken then
        requireUser o next request
      else
        match ((queryToken request.uri).or (cookieToken domain request.headers)).filter isToken with
        | none => reject .unauthorized
        | some token =>
            match checkGrant o token with
            | .error e => reject e
            | .ok expires =>
                if (queryToken request.uri).isSome then
                  if request.method ≠ ascii "GET" then reject .unauthorized
                  else ⟨none, redirect domain token (expires - o.unixNow) request.uri⟩
                else if sameOrigin authority request.headers then next true request
                else reject (.forbidden "cross-origin preview request")

/-- A request to a preview. -/
def serve (authority : Bytes → Option Bytes) (o : Outside) (domain : Domain) (request : Request) :
    Served :=
  authorize authority o domain (proxy o domain) request

end AgentHouse.Daemon.Previews
