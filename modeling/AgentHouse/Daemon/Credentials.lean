import AgentHouse.Daemon.Forwarding

/-!
# The credentials of the host

A request reaches the guest if the API key or the cookie admits it, and a token in the query is
answered by a redirect. The guest sees no credential, and the redirect has no token, exactly when
the headers are clean and the token stands in the query once.
-/

namespace AgentHouse.Daemon.Previews

open Headers HeaderMap

variable {authority : Bytes → Option Bytes} {o : Outside} {domain : Domain} {request f : Request}
  {r : Response}

/-! ## What is to hold, and when -/

/-- A browser, which removes tabs and line breaks, stays on the origin. -/
def SameOrigin (url : Bytes) : Prop :=
  let url := url.filter fun b => b != 9 && b != 10 && b != 13
  url.head? = some 47 ∧ url[1]? ≠ some 47 ∧ url[1]? ≠ some 92

/-- Whatever the rest of the world answers to the request. -/
structure Safe (authority : Bytes → Option Bytes) (o : Outside) (domain : Domain)
    (request : Request) : Prop where
  forwarded : ∀ f, (serve authority o domain request).forwarded = some f →
    Confined (isWebsocket request.headers) request.headers f.headers ∧
      ∀ pair ∈ queryPairs f.uri, hasToken pair = false
  response : ∀ f r, (serve authority o domain request).forwarded = some f →
    (serve authority o domain request).result = .ok r →
    ∀ value ∈ r.headers.getAll setCookie, previewCookie ((value.splitOn 59).headD []) = false
  redirect : ∀ r, (serve authority o domain request).forwarded = none →
    (serve authority o domain request).result = .ok r →
    ∀ url ∈ r.headers.getAll location, SameOrigin url ∧
      ∀ token, queryToken request.uri = some token → ¬ token <:+: url

/-- The request passes the checks that depend on it alone. -/
structure Forwardable (authority : Bytes → Option Bytes) (domain : Domain) (request : Request) :
    Prop where
  target : ∃ x, target request.headers domain.name = .ok x
  method : request.method ≠ ascii "CONNECT" ∧ request.method ≠ ascii "TRACE"
  query : (queryPairs request.uri).any hasToken = false
  credential : if request.headers.has Previews.authorization then
      ∃ key, bearer request.headers = some key ∧ key ≠ []
    else ∃ token, cookieToken domain request.headers = some token ∧ isToken token = true ∧
      sameOrigin authority request.headers = true

/-- The request is answered by a redirect if its token is accepted. -/
structure Redirectable (domain : Domain) (request : Request) : Prop where
  target : ∃ x, target request.headers domain.name = .ok x
  method : request.method = ascii "GET"
  token : ∃ token, queryToken request.uri = some token ∧ isToken token = true
  valid : ∃ url, fromStr (redirectTarget request.uri) (.invalid "invalid preview path") = .ok url

/-- The path that is kept in a redirect. -/
def keptPath (uri : Uri) : Bytes :=
  if [47, 47].isPrefixOf uri.path || uri.path.contains 92 then [47] else uri.path

/-- The token stands in its own pair only. -/
def TokenOnce (uri : Uri) : Prop :=
  ∀ token, queryToken uri = some token → ¬ token <:+: keptPath uri ∧
    ∀ pair ∈ queryPairs uri, hasToken pair = false → ¬ token <:+: pair

/-! ## Forwarding -/

/-- Every answer that is needed is given. -/
def willing : Outside where
  user _ := true
  unchangedIdentity := .ok ()
  checkPreviewToken _ := .ok (some 0)
  owner := .ok ()
  generation := .ok (some ())
  unixNow := 0
  owned := .ok ()
  portGeneration := .ok (some ())
  capacity := true
  guestPreview := .ok ()
  active := true
  connect := .ok ()
  stillActive := true
  respond _ := .ok ⟨200, []⟩

/-- A request that is admitted is neither CONNECT nor TRACE. -/
theorem method_of_checks {granted : Bool} (h : admission o domain granted request = .ok ()) :
    request.method ≠ ascii "CONNECT" ∧ request.method ≠ ascii "TRACE" := by
  refine not_or.mp fun hmethod => ?_
  unfold admission at h
  simp only [if_pos hmethod] at h
  cases htarget : target request.headers domain.name with
  | error e => rw [htarget] at h; cases h
  | ok x =>
    cases howned : o.owned with
    | error e => rw [htarget, howned] at h; cases h
    | ok x =>
      rw [htarget, howned] at h
      cases granted with
      | true => cases h
      | false =>
        cases hport : o.portGeneration with
        | error e => rw [hport] at h; cases h
        | ok port =>
          rw [hport] at h
          cases port <;> cases h

/-- The willing host admits every other one that names a preview. -/
theorem checks_willing {granted : Bool} (htarget : ∃ x, target request.headers domain.name = .ok x)
    (hmethod : request.method ≠ ascii "CONNECT" ∧ request.method ≠ ascii "TRACE") :
    admission willing domain granted request = .ok () := by
  obtain ⟨x, hx⟩ := htarget
  unfold admission
  rw [if_neg (not_or.mpr hmethod), hx]
  cases granted <;> rfl

/-- What the proxy forwards. -/
theorem forwarded_of_proxy {granted : Bool}
    (h : (proxy o domain granted request).forwarded = some f) :
    (request.method ≠ ascii "CONNECT" ∧ request.method ≠ ascii "TRACE") ∧
      filterHeaders (isWebsocket request.headers) request.headers = .ok f.headers ∧
      f.uri = forwardUri request.uri ∧
      ∀ r, (proxy o domain granted request).result = .ok r →
        ∃ response, relay (isWebsocket request.headers) response = .ok r := by
  unfold proxy at h ⊢
  cases hchecks : admission o domain granted request with
  | error e => rw [hchecks] at h; cases h
  | ok _ =>
    rw [hchecks] at h
    cases hfilter : filterHeaders (isWebsocket request.headers) request.headers with
    | error e => simp only [hfilter] at h; cases h
    | ok headers =>
      simp only [hfilter] at h ⊢
      by_cases hactive : o.stillActive = false
      · rw [if_pos hactive] at h
        cases h
      rw [if_neg hactive] at h ⊢
      cases hrespond : o.respond { request with headers, uri := forwardUri request.uri } with
      | error e =>
        rw [hrespond] at h
        obtain rfl := Option.some.inj h
        refine ⟨method_of_checks hchecks, rfl, rfl, fun r hr => ?_⟩
        cases hr
      | ok response =>
        rw [hrespond] at h
        obtain rfl := Option.some.inj h
        exact ⟨method_of_checks hchecks, rfl, rfl, fun r hr => ⟨response, hr⟩⟩

/-- Without a request to the guest, the proxy gives an error. -/
theorem result_of_proxy {granted : Bool} (h : (proxy o domain granted request).forwarded = none) :
    ∃ e, (proxy o domain granted request).result = .error e := by
  unfold proxy at h ⊢
  cases hchecks : admission o domain granted request with
  | error e => exact ⟨e, rfl⟩
  | ok _ =>
    rw [hchecks] at h
    cases hfilter : filterHeaders (isWebsocket request.headers) request.headers with
    | error e => exact ⟨e, by simp only [hfilter]; rfl⟩
    | ok headers =>
      simp only [hfilter] at h ⊢
      by_cases hactive : o.stillActive = false
      · exact ⟨.unauthorized, by rw [if_pos hactive]; rfl⟩
      rw [if_neg hactive] at h
      cases hrespond : o.respond { request with headers, uri := forwardUri request.uri } with
      | error e => rw [hrespond] at h; cases h
      | ok response => rw [hrespond] at h; cases h

/-! ## Authorization -/

/-- A query token is found if and only if some pair has one. -/
theorem queryToken_isSome {uri : Uri} :
    (queryToken uri).isSome = (queryPairs uri).any hasToken := by
  unfold queryToken
  rw [Bool.eq_iff_iff, List.findSome?_isSome_iff, List.any_eq_true]
  refine exists_congr fun pair => and_congr_right fun _ => ?_
  split_ifs with h <;> simp [h]

/-- What is forwarded passed the checks. -/
theorem forwarded_of_serve (h : (serve authority o domain request).forwarded = some f) :
    Forwardable authority domain request ∧ ∃ granted,
      (serve authority o domain request) = proxy o domain granted request := by
  unfold serve authorize at h ⊢
  cases htarget : target request.headers domain.name with
  | error e => rw [htarget] at h; cases h
  | ok x =>
    simp only [htarget] at h ⊢
    by_cases hkey : (request.headers.has authorization &&
        !(queryPairs request.uri).any hasToken) = true
    · rw [if_pos hkey] at h ⊢
      obtain ⟨hauth, hquery⟩ := Bool.and_eq_true_iff.mp hkey
      unfold requireUser at h ⊢
      cases hbearer : (bearer request.headers).filter (· ≠ []) with
      | none => rw [hbearer] at h; cases h
      | some key =>
        obtain ⟨hsome, hne⟩ := Option.filter_eq_some_iff.mp hbearer
        simp only [hbearer] at h ⊢
        by_cases huser : o.user key = true
        · rw [if_pos huser] at h ⊢
          refine ⟨⟨⟨x, htarget⟩, (forwarded_of_proxy h).1, by simpa using hquery, ?_⟩, false, rfl⟩
          rw [if_pos hauth]
          exact ⟨key, hsome, by simpa using hne⟩
        · rw [if_neg huser] at h
          cases h
    · rw [if_neg hkey] at h ⊢
      cases htoken : ((queryToken request.uri).or (cookieToken domain request.headers)).filter
          isToken with
      | none => simp only [htoken] at h; cases h
      | some token =>
        simp only [htoken] at h ⊢
        cases hgrant : checkGrant o token with
        | error e => simp only [hgrant] at h; cases h
        | ok expires =>
          simp only [hgrant] at h ⊢
          by_cases hquery : (queryToken request.uri).isSome = true
          · rw [if_pos hquery] at h
            by_cases hmethod : request.method ≠ ascii "GET"
            · rw [if_pos hmethod] at h
              cases h
            · rw [if_neg hmethod] at h
              cases h
          · rw [if_neg hquery] at h ⊢
            by_cases horigin : sameOrigin authority request.headers = true
            · rw [if_pos horigin] at h ⊢
              obtain ⟨hsome, his⟩ := Option.filter_eq_some_iff.mp htoken
              rw [Option.not_isSome_iff_eq_none.mp hquery, Option.none_or] at hsome
              rw [queryToken_isSome] at hquery
              have hnone : request.headers.has authorization ≠ true := by
                intro hauth
                rw [hauth] at hkey
                simp [hquery] at hkey
              refine ⟨⟨⟨x, htarget⟩, (forwarded_of_proxy h).1, by simpa using hquery, ?_⟩,
                true, rfl⟩
              rw [if_neg hnone]
              exact ⟨token, hsome, his, horigin⟩
            · rw [if_neg horigin] at h
              cases h

/-- The checks of `willing` find a grant for every token. -/
theorem checkGrant_willing (token : Bytes) : checkGrant willing token = .ok 0 := rfl

/-- A forwardable request is forwarded by the willing host. -/
theorem forwarded_willing (h : Forwardable authority domain request) :
    ∃ f, (serve authority willing domain request).forwarded = some f := by
  obtain ⟨x, htarget⟩ := h.target
  obtain ⟨f, hproxy⟩ : ∃ f, ∀ granted, (proxy willing domain granted request).forwarded =
    some f := by
    obtain ⟨headers, hfilter, -⟩ :=
      filterHeaders_ok (isWebsocket request.headers) request.headers
    refine ⟨{ request with headers, uri := forwardUri request.uri }, fun granted => ?_⟩
    unfold proxy
    simp only [checks_willing h.target h.method, hfilter]
    rfl
  refine ⟨f, ?_⟩
  unfold serve authorize
  simp only [htarget]
  have hcredential := h.credential
  by_cases hauth : request.headers.has authorization = true
  · rw [if_pos hauth] at hcredential
    obtain ⟨key, hbearer, hne⟩ := hcredential
    have hkey : (bearer request.headers).filter (· ≠ []) = some key :=
      Option.filter_eq_some_iff.mpr ⟨hbearer, by simpa using hne⟩
    rw [if_pos (by rw [hauth, h.query]; rfl), requireUser]
    simp only [hkey]
    exact hproxy false
  · rw [if_neg hauth] at hcredential
    obtain ⟨token, hcookie, his, horigin⟩ := hcredential
    have hnone : queryToken request.uri = none := by
      rw [← Option.not_isSome_iff_eq_none, queryToken_isSome, h.query]
      exact Bool.false_ne_true
    have htoken : ((queryToken request.uri).or (cookieToken domain request.headers)).filter
        isToken = some token := by
      rw [hnone, Option.none_or]
      exact Option.filter_eq_some_iff.mpr ⟨hcookie, his⟩
    rw [if_neg (by simp [hauth])]
    simp only [htoken, checkGrant_willing]
    rw [if_neg (by rw [hnone]; exact Bool.false_ne_true), if_pos horigin]
    exact hproxy true

/-- What is answered without the guest is a redirect. -/
theorem redirect_of_serve (h : (serve authority o domain request).forwarded = none)
    (hr : (serve authority o domain request).result = .ok r) :
    Redirectable domain request ∧
      ∃ token age, redirect domain token age request.uri = .ok r := by
  unfold serve authorize at h hr
  cases htarget : target request.headers domain.name with
  | error e => rw [htarget] at hr; cases hr
  | ok x =>
    simp only [htarget] at h hr
    have hproxy {granted : Bool} (h : (proxy o domain granted request).forwarded = none)
        (hr : (proxy o domain granted request).result = .ok r) : False := by
      obtain ⟨e, he⟩ := result_of_proxy h
      rw [he] at hr
      cases hr
    by_cases hkey : (request.headers.has authorization &&
        !(queryPairs request.uri).any hasToken) = true
    · rw [if_pos hkey] at h hr
      unfold requireUser at h hr
      cases hbearer : (bearer request.headers).filter (· ≠ []) with
      | none => rw [hbearer] at hr; cases hr
      | some key =>
        simp only [hbearer] at h hr
        by_cases huser : o.user key = true
        · rw [if_pos huser] at h hr
          exact (hproxy h hr).elim
        · rw [if_neg huser] at hr
          cases hr
    · rw [if_neg hkey] at h hr
      cases htoken : ((queryToken request.uri).or (cookieToken domain request.headers)).filter
          isToken with
      | none => simp only [htoken] at hr; cases hr
      | some token =>
        simp only [htoken] at h hr
        cases hgrant : checkGrant o token with
        | error e => simp only [hgrant] at hr; cases hr
        | ok expires =>
          simp only [hgrant] at h hr
          by_cases hquery : (queryToken request.uri).isSome = true
          · rw [if_pos hquery] at hr
            by_cases hmethod : request.method ≠ ascii "GET"
            · rw [if_pos hmethod] at hr
              cases hr
            rw [if_neg hmethod] at hr
            obtain ⟨hsome, his⟩ := Option.filter_eq_some_iff.mp htoken
            obtain ⟨t, ht⟩ := Option.isSome_iff_exists.mp hquery
            rw [ht, Option.some_or] at hsome
            obtain rfl := Option.some.inj hsome
            refine ⟨⟨⟨x, htarget⟩, not_not.mp hmethod, ⟨t, ht, his⟩, ?_⟩, t, _, hr⟩
            cases hvalid : fromStr (redirectTarget request.uri)
                (.invalid "invalid preview path") with
            | ok url => exact ⟨url, rfl⟩
            | error e =>
              simp only [redirect, hvalid] at hr
              cases hr
          · rw [if_neg hquery] at h hr
            by_cases horigin : sameOrigin authority request.headers = true
            · rw [if_pos horigin] at h hr
              exact (hproxy h hr).elim
            · rw [if_neg horigin] at hr
              cases hr

/-- A redirectable one is answered by a redirection. -/
theorem redirect_willing (h : Redirectable domain request) :
    (serve authority willing domain request).forwarded = none ∧
      ∃ r, (serve authority willing domain request).result = .ok r := by
  obtain ⟨x, htarget⟩ := h.target
  obtain ⟨token, hquery, his⟩ := h.token
  obtain ⟨url, hvalid⟩ := h.valid
  have hsome : (queryToken request.uri).isSome = true := by rw [hquery]; rfl
  have hserve : serve authority willing domain request =
      ⟨none, redirect domain token 0 request.uri⟩ := by
    have htoken : ((queryToken request.uri).or (cookieToken domain request.headers)).filter
        isToken = some token := by
      rw [hquery, Option.some_or]
      exact Option.filter_eq_some_iff.mpr ⟨rfl, his⟩
    unfold serve authorize
    simp only [htarget]
    rw [if_neg (by rw [← queryToken_isSome, hsome]; simp)]
    simp only [htoken, checkGrant_willing]
    rw [if_pos hsome, if_neg (not_not.mpr h.method)]
    rfl
  rw [hserve]
  refine ⟨rfl, ⟨303, [(location, url), (setCookie, grantCookie domain token 0),
    (cacheControl, ascii "no-store"), (referrerPolicy, ascii "no-referrer")]⟩, ?_⟩
  simp only [redirect, hvalid]
  rfl

/-! ## The answer -/

/-- Appended values come after the ones before them. -/
theorem getAll_foldl_append {name : Bytes} (m : HeaderMap) (values : List Bytes) :
    (values.foldl (fun m value => m.append name value) m).getAll name =
      m.getAll name ++ values := by
  induction values generalizing m with
  | nil => exact (List.append_nil _).symm
  | cons value values ih =>
    rw [List.foldl_cons, ih, getAll_append, if_pos rfl, List.append_assoc]
    rfl

/-- Of the guest's cookies those come through that can be read and are not the preview's. -/
theorem getAll_relay {websocket : Bool} {response : Response}
    (h : relay websocket response = .ok r) : ∀ value ∈ r.headers.getAll setCookie,
      previewCookie ((value.splitOn 59).headD []) = false := by
  have hcache : setCookie ≠ cacheControl := by decide
  have hpolicy : setCookie ≠ referrerPolicy := by decide
  have hconnection : setCookie ≠ connection := by decide
  have hupgrade : setCookie ≠ upgrade := by decide
  have hvalues : r.headers.getAll setCookie =
      ((stripHop response.headers).getAll setCookie).filter fun value =>
        (toStr value).any fun s => !previewCookie ((s.splitOn 59).headD []) := by
    unfold relay at h
    simp only at h
    by_cases hswitch : response.status = 101 ∧ websocket = true
    · rw [if_pos hswitch] at h
      obtain rfl := Except.ok.inj h
      rw [getAll_insert, if_neg hupgrade, getAll_insert, if_neg hconnection, getAll_insert,
        if_neg hpolicy, getAll_insert, if_neg hcache, getAll_foldl_append, getAll_remove_self,
        List.nil_append]
    · rw [if_neg hswitch] at h
      by_cases hstatus : response.status = 101
      · rw [if_pos hstatus] at h
        cases h
      · rw [if_neg hstatus] at h
        obtain rfl := Except.ok.inj h
        rw [getAll_insert, if_neg hpolicy, getAll_insert, if_neg hcache, getAll_foldl_append,
          getAll_remove_self, List.nil_append]
  intro value hvalue
  rw [hvalues] at hvalue
  have hany := (List.mem_filter.mp hvalue).2
  cases hread : toStr value with
  | none =>
    rw [hread] at hany
    cases hany
  | some s =>
    obtain ⟨rfl, -⟩ := toStr_eq_some hread
    rw [hread, Option.any_some] at hany
    simpa using hany

/-- The redirect leads to what is left of the request's path and query. -/
theorem getAll_redirect {token : Bytes} {age : ℤ} {uri : Uri}
    (h : redirect domain token age uri = .ok r) :
    r.headers.getAll location = [redirectTarget uri] := by
  unfold redirect at h
  cases hvalid : fromStr (redirectTarget uri) (.invalid "invalid preview path") with
  | error e => rw [hvalid] at h; cases h
  | ok url =>
    rw [hvalid] at h
    obtain rfl := Except.ok.inj h
    unfold fromStr at hvalid
    split_ifs at hvalid
    obtain rfl := Except.ok.inj hvalid
    rfl

/-! ## The redirect -/

section Redirects

variable {uri : Uri} {sep : UInt8} {t a b : Bytes}

/-- What does not contain a separator does not begin with one. -/
theorem not_isPrefix_of_not_mem (hsep : sep ∉ t) (hne : t ≠ []) : ¬ t <+: sep :: b := by
  intro h
  obtain ⟨first, rest, rfl⟩ := List.exists_cons_of_ne_nil hne
  exact hsep ((List.cons_prefix_cons.mp h).1 ▸ List.mem_cons_self)

/-- A text without separators stands on one side of a separator. -/
theorem infix_append_cons (hsep : sep ∉ t) (hne : t ≠ []) :
    t <:+: a ++ sep :: b ↔ t <:+: a ∨ t <:+: b := by
  rw [List.infix_append_iff_ne_nil]
  refine or_congr_right ⟨?_, fun h => .inl (h.trans (List.suffix_cons sep b).isInfix)⟩
  rintro (h | ⟨first, second, -, hsecond, rfl, -, hstart⟩)
  · exact (List.infix_cons_iff.mp h).resolve_left (not_isPrefix_of_not_mem hsep hne)
  · have hnot : sep ∉ second := fun hmem => hsep (List.mem_append_right _ hmem)
    exact absurd hstart (not_isPrefix_of_not_mem hnot hsecond)

/-- What does not contain the separator lies within one piece. -/
theorem infix_intercalate {pieces : List Bytes} (hsep : sep ∉ t) (hne : t ≠ []) :
    t <:+: [sep].intercalate pieces ↔ ∃ piece ∈ pieces, t <:+: piece := by
  induction pieces with
  | nil =>
    refine ⟨fun h => absurd (List.infix_nil.mp h) hne, ?_⟩
    rintro ⟨piece, hpiece, -⟩
    cases hpiece
  | cons piece pieces ih =>
    cases pieces with
    | nil => simp
    | cons second pieces =>
      rw [List.intercalate_cons_cons, List.append_assoc, List.singleton_append,
        infix_append_cons hsep hne, ih]
      simp

/-- The token stands in the redirect if it stands in the path or in another pair. -/
theorem infix_redirectTarget (hquestion : 63 ∉ t) (hand : 38 ∉ t) (hne : t ≠ []) :
    t <:+: redirectTarget uri ↔ t <:+: keptPath uri ∨
      ∃ pair ∈ queryPairs uri, hasToken pair = false ∧ t <:+: pair := by
  have hquery : t <:+: [38].intercalate ((queryPairs uri).filter fun p => !hasToken p) ↔
      ∃ pair ∈ (queryPairs uri).filter fun p => !hasToken p, t <:+: pair :=
    infix_intercalate hand hne
  have hpairs : (∃ pair ∈ (queryPairs uri).filter fun p => !hasToken p, t <:+: pair) ↔
      ∃ pair ∈ queryPairs uri, hasToken pair = false ∧ t <:+: pair := by
    simp only [List.mem_filter, Bool.not_eq_true', and_assoc]
  rw [hpairs] at hquery
  rw [← hquery]
  unfold redirectTarget keptPath
  simp only
  by_cases hempty : [38].intercalate ((queryPairs uri).filter fun p => !hasToken p) = []
  · rw [if_pos hempty, hempty, List.infix_nil]
    exact ⟨.inl, fun h => h.resolve_right hne⟩
  · rw [if_neg hempty]
    exact infix_append_cons hquestion hne

/-- A token is not empty and contains no separator of a query. -/
theorem isToken_spec (h : isToken t = true) : t ≠ [] ∧ 38 ∉ t ∧ 63 ∉ t := by
  obtain ⟨hlength, hdigits⟩ := Bool.and_eq_true_iff.mp h
  refine ⟨?_, fun hmem => ?_, fun hmem => ?_⟩
  · rintro rfl
    exact absurd hlength (by decide)
  · exact absurd (List.all_eq_true.mp hdigits _ hmem) (by decide)
  · exact absurd (List.all_eq_true.mp hdigits _ hmem) (by decide)

/-- The kept path starts at the root of the origin and names no other host. -/
theorem keptPath_spec (h : (queryToken uri).isSome = true) :
    ∃ rest, keptPath uri = 47 :: rest ∧ (∀ b ∈ rest, 32 < b) ∧
      rest.head? ≠ some 47 ∧ rest.head? ≠ some 92 := by
  have hroot : uri.path.head? = some 47 := by
    refine uri.rooted.resolve_right fun hnone => ?_
    rw [queryToken_isSome, queryPairs, hnone] at h
    cases h
  unfold keptPath
  by_cases hother : ([47, 47].isPrefixOf uri.path || uri.path.contains 92) = true
  · rw [if_pos hother]
    exact ⟨[], rfl, fun b hb => absurd hb List.not_mem_nil, by simp, by simp⟩
  · rw [if_neg hother]
    obtain ⟨rest, hrest⟩ := List.head?_eq_some_iff.mp hroot
    rw [hrest, Bool.or_eq_true, not_or] at hother
    refine ⟨rest, hrest, fun b hb => uri.plain b (hrest ▸ List.mem_cons_of_mem _ hb), ?_, ?_⟩
    · intro hhead
      obtain ⟨tail, rfl⟩ := List.head?_eq_some_iff.mp hhead
      exact hother.1 (by simp)
    · intro hhead
      obtain ⟨tail, rfl⟩ := List.head?_eq_some_iff.mp hhead
      exact hother.2 (by simp)

/-- A redirection stays within the origin. -/
theorem sameOrigin_redirectTarget (h : (queryToken uri).isSome = true) :
    SameOrigin (redirectTarget uri) := by
  obtain ⟨rest, hkept, hplain, hslash, hback⟩ := keptPath_spec h
  -- a browser removes nothing from the path
  have hfilter : rest.filter (fun b => b != 9 && b != 10 && b != 13) = rest := by
    refine List.filter_eq_self.mpr fun b hb => ?_
    have hlt := hplain b hb
    simp only [Bool.and_eq_true, bne_iff_ne]
    refine ⟨⟨?_, ?_⟩, ?_⟩ <;> (rintro rfl; exact absurd hlt (by decide))
  obtain ⟨query, hurl, hquery⟩ : ∃ query, redirectTarget uri = 47 :: rest ++ query ∧
      (query = [] ∨ query.head? = some 63) := by
    unfold redirectTarget
    unfold keptPath at hkept
    simp only [hkept]
    split_ifs
    · exact ⟨[], (List.append_nil _).symm, .inl rfl⟩
    · exact ⟨_, rfl, .inr rfl⟩
  unfold SameOrigin
  simp only
  rw [hurl, List.filter_append, List.filter_cons_of_pos (by decide), hfilter]
  have hsecond {b : UInt8} (hb : b ≠ 63) (hrest : rest.head? ≠ some b) :
      (47 :: rest ++ query.filter fun b => b != 9 && b != 10 && b != 13)[1]? ≠ some b := by
    cases rest with
    | cons second rest => exact hrest
    | nil =>
      rcases hquery with rfl | hquery
      · simp
      · obtain ⟨tail, rfl⟩ := List.head?_eq_some_iff.mp hquery
        intro he
        exact hb (Option.some.inj he).symm
  exact ⟨rfl, hsecond (by decide) hslash, hsecond (by decide) hback⟩

end Redirects

/-! ## The credentials -/

/-- The guest sees no credential and the browser gets no token back, whatever else happens, exactly
when the headers are clean and the token stands in the query once. -/
theorem safe_iff : (∀ o, Safe authority o domain request) ↔
    (Forwardable authority domain request → Clean request.headers) ∧
      (Redirectable domain request → TokenOnce request.uri) := by
  constructor
  · intro h
    have hsafe := h willing
    constructor
    · intro hforwardable
      obtain ⟨f, hf⟩ := forwarded_willing hforwardable
      obtain ⟨-, granted, hserve⟩ := forwarded_of_serve hf
      have hproxy := forwarded_of_proxy (hserve ▸ hf)
      exact (confined_iff hproxy.2.1).mp (hsafe.forwarded f hf).1
    · intro hredirectable token htoken
      obtain ⟨hnone, r, hr⟩ := redirect_willing hredirectable
      obtain ⟨-, t, age, hredirect⟩ := redirect_of_serve hnone hr
      obtain ⟨t', ht', his⟩ := hredirectable.token
      obtain rfl := Option.some.inj (ht'.symm.trans htoken)
      obtain ⟨hne, hand, hquestion⟩ := isToken_spec his
      have hnot := (hsafe.redirect r hnone hr _
        (getAll_redirect hredirect ▸ List.mem_singleton_self _)).2 t' htoken
      rw [infix_redirectTarget hquestion hand hne, not_or] at hnot
      exact ⟨hnot.1, fun pair hpair hother hin => hnot.2 ⟨pair, hpair, hother, hin⟩⟩
  · rintro ⟨hclean, honce⟩ o
    refine ⟨fun f hf => ?_, fun f r hf hr => ?_, fun r hnone hr => ?_⟩
    · obtain ⟨hforwardable, granted, hserve⟩ := forwarded_of_serve hf
      obtain ⟨-, hfilter, huri, -⟩ := forwarded_of_proxy (hserve ▸ hf)
      refine ⟨(confined_iff hfilter).mpr (hclean hforwardable), ?_⟩
      intro pair hpair
      rw [huri, forwardUri] at hpair
      split_ifs at hpair
      · exact (List.mem_singleton.mp hpair) ▸ rfl
      · exact Bool.eq_false_iff.mpr (List.any_eq_false.mp hforwardable.query pair hpair)
    · obtain ⟨-, granted, hserve⟩ := forwarded_of_serve hf
      obtain ⟨-, -, -, hresult⟩ := forwarded_of_proxy (hserve ▸ hf)
      obtain ⟨response, hrelay⟩ := hresult r (hserve ▸ hr)
      exact getAll_relay hrelay
    · obtain ⟨hredirectable, t, age, hredirect⟩ := redirect_of_serve hnone hr
      obtain ⟨token, htoken, his⟩ := hredirectable.token
      obtain ⟨hne, hand, hquestion⟩ := isToken_spec his
      intro url hurl
      rw [getAll_redirect hredirect, List.mem_singleton] at hurl
      rw [hurl]
      refine ⟨sameOrigin_redirectTarget (by rw [htoken]; rfl), fun token' htoken' => ?_⟩
      obtain rfl := Option.some.inj (htoken.symm.trans htoken')
      obtain ⟨hpath, hpairs⟩ := honce hredirectable token htoken
      rw [infix_redirectTarget hquestion hand hne, not_or]
      exact ⟨hpath, fun ⟨pair, hpair, hother, hin⟩ => hpairs pair hpair hother hin⟩

/-- A request to port 8080 of the sandbox `id`, whose Cookie header has a byte that is no text. -/
def unreadable : Request where
  method := ascii "GET"
  uri := rootUri
  headers := [(ascii "host", ascii "6964--8080.p.example"), (authorization, ascii "Bearer k"),
    (cookie, ascii "ahvm_preview=a; x=" ++ [255])]

/-- The preview cookie is forwarded with an unreadable header. -/
theorem unreadable_forwarded : ¬ ∀ (authority : Bytes → Option Bytes) (o : Outside)
    (domain : Domain) (request : Request), Safe authority o domain request := by
  intro h
  have hsafe := h (fun _ => none) willing ⟨ascii "p.example", false⟩ unreadable
  have hforward : (serve (fun _ => none) willing
    ⟨ascii "p.example", false⟩ unreadable).forwarded.map
      (·.headers.getAll cookie) = some [ascii "ahvm_preview=a; x=" ++ [255]] := by
    decide
  obtain ⟨f, hf, hcookies⟩ := Option.map_eq_some_iff.mp hforward
  have hpreview := (hsafe.forwarded f hf).1.preview (ascii "ahvm_preview=a; x=" ++ [255])
    (hcookies ▸ List.mem_singleton_self _) (ascii "ahvm_preview=a") (by decide)
  exact absurd hpreview (by decide)

end AgentHouse.Daemon.Previews
