import AgentHouse.Daemon.Previews
import Mathlib.Data.List.Infix

/-!
# What a preview's guest gets to see

The headers that `proxy` forwards are computed name by name. The credentials of the host stay out
and the client's own cookies are kept if the code can read them: if the cookies come in one
readable header, and what an unreadable Connection header nominates is not there.
-/

namespace AgentHouse.Daemon.Previews

open Headers HeaderMap

variable {m : HeaderMap} {name value : Bytes} {websocket : Bool}

/-! ## What is to hold -/

/-- The cookie pairs of the client other than the preview's, in order. -/
def otherPairs (values : List Bytes) : List Bytes :=
  values.flatMap fun value =>
    (value.splitOn 59).filter fun pair => (splitOnce 61 pair).isSome && !previewCookie pair

/-- What the Connection headers nominate, also in values that are no text. -/
def nominated (m : HeaderMap) : List Bytes :=
  (m.getAll connection).flatMap fun value =>
    (value.splitOn 44).filterMap fun token => parseName (trim token)

/-- The values of a hop-by-hop header that are forwarded. -/
def upgradeValues (websocket : Bool) (name : Bytes) : List Bytes :=
  if websocket = true ∧ name = upgrade then [websocketName]
  else if websocket = true ∧ name = connection then [upgrade]
  else []

/-- The headers hold nothing that is for the host, and all other cookies. -/
structure Confined (websocket : Bool) (client forwarded : HeaderMap) : Prop where
  authorization : forwarded.getAll authorization = []
  preview : ∀ value ∈ forwarded.getAll cookie, ∀ pair ∈ value.splitOn 59,
    previewCookie pair = false
  kept : otherPairs (forwarded.getAll cookie) = otherPairs (client.getAll cookie)
  forwarding : ∀ name ∈ forwardingNames, forwarded.getAll name = []
  hop : ∀ name, name ∈ hopByHop ∨ name ∈ nominated client →
    forwarded.getAll name = upgradeValues websocket name

/-! ## When it holds -/

/-- The nominations of the Connection values that are no text. -/
def hidden (m : HeaderMap) : List Bytes :=
  ((m.getAll connection).filter fun value => (toStr value).isNone).flatMap fun value =>
    (value.splitOn 44).filterMap fun token => parseName (trim token)

/-- The names that are removed in any case. -/
def dropped (m : HeaderMap) : List Bytes := named m ++ hopByHop ++ authorization :: forwardingNames

/-- The Cookie headers after the filter. -/
def cookiesLeft (values : List Bytes) : List Bytes :=
  match values.head?.bind toStr with
  | none => values
  | some cookies => if trim (cleanCookies cookies) = [] then [] else [cleanCookies cookies]

/-- The values of a name that is not removed in any case. -/
def remaining (m : HeaderMap) (name : Bytes) : List Bytes :=
  if name = cookie then cookiesLeft (if cookie ∈ named m then [] else m.getAll cookie)
  else m.getAll name

/-- The first Cookie header is readable and has all other pairs, or no header has a preview cookie.
If Connection nominates Cookie, there are no other pairs. -/
def CookiesReadable (m : HeaderMap) : Prop :=
  if cookie ∈ named m then otherPairs (m.getAll cookie) = []
  else
    match m.getAll cookie with
    | [] => True
    | value :: values =>
        if (toStr value).isSome then otherPairs values = []
        else ∀ v ∈ value :: values, ∀ pair ∈ v.splitOn 59, previewCookie pair = false

/-- The headers are read as they are meant. -/
structure Clean (m : HeaderMap) : Prop where
  cookies : CookiesReadable m
  nominated : ∀ name ∈ hidden m, name ∉ dropped m → remaining m name = []

/-! ## Texts -/

section Texts

variable {t cookies : Bytes}

/-- A header that reads as a string is its bytes. -/
theorem toStr_eq_some {s : Bytes} (h : toStr value = some s) :
    s = value ∧ value.all isVisible = true := by
  unfold toStr at h
  split_ifs at h with hall
  exact ⟨(Option.some.inj h).symm, hall⟩

theorem trimStart_eq_nil (h : trimStart t = []) : t.all isBlank = true :=
  List.all_eq_true.mpr (List.dropWhile_eq_nil_iff.mp h)

/-- What trims to nothing is blank. -/
theorem trim_eq_nil (h : trim t = []) : t.all isBlank = true := by
  unfold trim at h
  rw [List.reverse_eq_nil_iff] at h
  have hstart := trimStart_eq_nil h
  rw [List.all_reverse] at hstart
  refine trimStart_eq_nil ?_
  by_contra hne
  -- the first byte that is kept is not blank
  have hhead : isBlank ((trimStart t).head hne) = false :=
    List.head_dropWhile_not isBlank hne
  have hblank := List.all_eq_true.mp hstart _ (List.head_mem hne)
  rw [hblank] at hhead
  cases hhead

/-- A byte of a joined list is of a piece or of the separator. -/
theorem mem_intercalate {b sep : UInt8} {pieces : List Bytes} (h : b ∈ [sep].intercalate pieces) :
    b = sep ∨ ∃ piece ∈ pieces, b ∈ piece := by
  induction pieces with
  | nil => cases h
  | cons piece pieces ih =>
    cases pieces with
    | nil =>
      rw [List.intercalate_singleton] at h
      exact .inr ⟨piece, List.mem_cons_self, h⟩
    | cons second pieces =>
      rw [List.intercalate_cons_cons, List.append_assoc] at h
      rcases List.mem_append.mp h with h | h
      · exact .inr ⟨piece, List.mem_cons_self, h⟩
      rcases List.mem_append.mp h with h | h
      · exact .inl (List.mem_singleton.mp h)
      · rcases ih h with h | ⟨p, hp, hb⟩
        · exact .inl h
        · exact .inr ⟨p, List.mem_cons_of_mem _ hp, hb⟩

theorem mem_intercalate_of_mem {b sep : UInt8} {pieces : List Bytes} {piece : Bytes}
    (hpiece : piece ∈ pieces) (h : b ∈ piece) : b ∈ [sep].intercalate pieces := by
  induction pieces with
  | nil => cases hpiece
  | cons first pieces ih =>
    cases pieces with
    | nil =>
      rw [List.intercalate_singleton]
      rwa [← List.mem_singleton.mp hpiece]
    | cons second pieces =>
      rw [List.intercalate_cons_cons, List.append_assoc]
      rcases List.mem_cons.mp hpiece with rfl | hpiece
      · exact List.mem_append_left _ h
      · exact List.mem_append_right _ (List.mem_append_right _ (ih hpiece))

theorem mem_of_mem_piece {b sep : UInt8} {piece : Bytes} (hpiece : piece ∈ t.splitOn sep)
    (h : b ∈ piece) : b ∈ t := by
  have hjoin : [sep].intercalate (t.splitOn sep) = t := List.intercalate_splitOn sep
  rw [← hjoin]
  exact mem_intercalate_of_mem hpiece h

/-- A part of a text is a value of a header again. -/
theorem fromStr_clean (h : cookies.all isVisible = true) (e : ApiError) :
    fromStr (cleanCookies cookies) e = .ok (cleanCookies cookies) := by
  unfold fromStr
  rw [if_pos]
  refine List.all_eq_true.mpr fun b hb => ?_
  have hvalid {b : UInt8} (hb : isVisible b = true) :
      (b == 9 || (decide (32 ≤ b) && b != 127)) = true := by
    unfold isVisible at hb
    simp only [Bool.or_eq_true, Bool.and_eq_true, decide_eq_true_eq, bne_iff_ne] at hb ⊢
    refine hb.imp_right fun ⟨hle, hlt⟩ => ⟨hle, ?_⟩
    rintro rfl
    exact absurd hlt (by decide)
  rcases mem_intercalate hb with rfl | ⟨piece, hpiece, hmem⟩
  · decide
  · have hin := mem_of_mem_piece (List.mem_of_mem_filter hpiece) hmem
    exact hvalid (List.all_eq_true.mp h b hin)

end Texts

/-! ## Name by name -/

/-- Hop-by-hop headers go, the others keep their values. -/
theorem getAll_stripHop : (stripHop m).getAll name =
    if name ∈ named m ∨ name ∈ hopByHop then [] else m.getAll name := by
  unfold stripHop
  rw [getAll_removeAll, getAll_removeAll]
  by_cases h : name ∈ hopByHop
  · simp [h]
  · simp [h]

/-- A first cookie header that cannot be read leaves all of them in place. -/
theorem cookiesLeft_of_none {values : List Bytes} (h : values.head?.bind toStr = none) :
    cookiesLeft values = values := by
  unfold cookiesLeft
  rw [h]

/-- Otherwise at most the cleaned first header is left. -/
theorem cookiesLeft_of_some {values : List Bytes} {cookies : Bytes}
    (h : values.head?.bind toStr = some cookies) :
    cookiesLeft values = if trim (cleanCookies cookies) = [] then []
      else [cleanCookies cookies] := by
  unfold cookiesLeft
  rw [h]

/-- Filtering always succeeds and touches only the cookies. -/
theorem filterCookies_ok (m : HeaderMap) : ∃ f, filterCookies m = .ok f ∧ ∀ name, f.getAll name =
    if name = cookie then cookiesLeft (m.getAll cookie) else m.getAll name := by
  unfold filterCookies first
  cases hread : ((m.getAll cookie).head?).bind toStr with
  | none =>
    refine ⟨m, rfl, fun name => ?_⟩
    rw [cookiesLeft_of_none hread]
    split_ifs with hname
    · rw [hname]
    · rfl
  | some cookies =>
    obtain ⟨value, -, hvalue⟩ := Option.bind_eq_some_iff.mp hread
    obtain ⟨rfl, hvisible⟩ := toStr_eq_some hvalue
    rw [cookiesLeft_of_some hread]
    by_cases hblank : trim (cleanCookies cookies) = []
    · refine ⟨m.remove cookie, by simp only [hblank, if_true], fun name => ?_⟩
      rw [getAll_remove, if_pos hblank]
    · refine ⟨(m.remove cookie).insert cookie (cleanCookies cookies), ?_, fun name => ?_⟩
      · simp only [hblank, if_false, fromStr_clean hvisible]
        rfl
      · rw [getAll_insert, getAll_remove, if_neg hblank]
        split_ifs <;> rfl

/-- What is forwarded under a name. -/
theorem filterHeaders_ok (websocket : Bool) (m : HeaderMap) :
    ∃ f, filterHeaders websocket m = .ok f ∧ ∀ name, f.getAll name =
      if name = connection ∨ name = upgrade then upgradeValues websocket name
      else if name ∈ forwardingNames then []
      else if name = cookie then
        cookiesLeft (if cookie ∈ named m then [] else m.getAll cookie)
      else if name = authorization ∨ name ∈ named m ∨ name ∈ hopByHop then []
      else m.getAll name := by
  obtain ⟨g, hg, hvalues⟩ := filterCookies_ok ((stripHop m).remove authorization)
  have hcookie : ((stripHop m).remove authorization).getAll cookie =
      if cookie ∈ named m then [] else m.getAll cookie := by
    rw [getAll_remove, if_neg (by decide), getAll_stripHop]
    have hnot : cookie ∉ hopByHop := by decide
    simp only [hnot, or_false]
  have hplain (name : Bytes) : (g.removeAll forwardingNames).getAll name =
      if name ∈ forwardingNames then []
      else if name = cookie then
        cookiesLeft (if cookie ∈ named m then [] else m.getAll cookie)
      else if name = authorization ∨ name ∈ named m ∨ name ∈ hopByHop then []
      else m.getAll name := by
    rw [getAll_removeAll, hvalues, hcookie, getAll_remove, getAll_stripHop]
    by_cases hforward : name ∈ forwardingNames
    · rw [if_pos hforward, if_pos hforward]
    rw [if_neg hforward, if_neg hforward]
    by_cases hname : name = cookie
    · rw [if_pos hname, if_pos hname]
    rw [if_neg hname, if_neg hname]
    by_cases hauth : name = authorization
    · rw [if_pos hauth, if_pos (.inl hauth)]
    · rw [if_neg hauth]
      simp only [hauth, false_or]
  have hhop {name : Bytes} (h : name = connection ∨ name = upgrade) :
      name ∈ hopByHop ∧ name ∉ forwardingNames ∧ name ≠ cookie := by
    rcases h with rfl | rfl <;> decide
  cases websocket with
  | false =>
    refine ⟨g.removeAll forwardingNames, by rw [filterHeaders, hg]; rfl, fun name => ?_⟩
    rw [hplain]
    by_cases h : name = connection ∨ name = upgrade
    · obtain ⟨hmem, hnot, hne⟩ := hhop h
      rw [if_pos h, if_neg hnot, if_neg hne, if_pos (.inr (.inr hmem))]
      simp [upgradeValues]
    · rw [if_neg h]
  | true =>
    refine ⟨((g.removeAll forwardingNames).insert connection upgrade).insert upgrade websocketName,
      by rw [filterHeaders, hg]; rfl, fun name => ?_⟩
    rw [getAll_insert, getAll_insert, hplain]
    by_cases hupgrade : name = upgrade
    · rw [if_pos hupgrade, if_pos (.inr hupgrade), upgradeValues, if_pos ⟨rfl, hupgrade⟩]
    rw [if_neg hupgrade]
    by_cases hconnection : name = connection
    · rw [if_pos hconnection, if_pos (.inl hconnection), upgradeValues,
        if_neg fun h => hupgrade h.2, if_pos ⟨rfl, hconnection⟩]
    · have hnot : ¬ (name = connection ∨ name = upgrade) := fun h => h.elim hconnection hupgrade
      rw [if_neg hconnection, if_neg hnot]

/-- The names that are dropped, spelled out. -/
theorem mem_dropped : name ∈ dropped m ↔
    name ∈ named m ∨ name ∈ hopByHop ∨ name = authorization ∨ name ∈ forwardingNames := by
  unfold dropped
  rw [List.mem_append, List.mem_append, List.mem_cons, or_assoc]

theorem cookie_mem_dropped : cookie ∈ dropped m ↔ cookie ∈ named m := by
  have hhop : cookie ∉ hopByHop := by decide
  have hauth : cookie ≠ authorization := by decide
  have hforward : cookie ∉ forwardingNames := by decide
  rw [mem_dropped]
  simp only [hhop, hauth, hforward, or_false]

theorem upgradeValues_of_ne (hupgrade : name ≠ upgrade) (hconnection : name ≠ connection) :
    upgradeValues websocket name = [] := by
  unfold upgradeValues
  rw [if_neg fun h => hupgrade h.2, if_neg fun h => hconnection h.2]

theorem upgradeValues_of_not_mem (h : name ∉ hopByHop) : upgradeValues websocket name = [] := by
  have hupgrade : upgrade ∈ hopByHop := by decide
  have hconnection : connection ∈ hopByHop := by decide
  exact upgradeValues_of_ne (fun he => h (he ▸ hupgrade)) fun he => h (he ▸ hconnection)

/-- A name that is removed in any case comes back with an upgrade only. -/
theorem getAll_of_dropped {f : HeaderMap} (hf : filterHeaders websocket m = .ok f)
    (h : name ∈ dropped m) : f.getAll name = upgradeValues websocket name := by
  obtain ⟨g, hg, hvalues⟩ := filterHeaders_ok websocket m
  obtain rfl := Except.ok.inj (hg.symm.trans hf)
  rw [hvalues]
  by_cases hhop : name = connection ∨ name = upgrade
  · rw [if_pos hhop]
  rw [if_neg hhop, upgradeValues_of_ne (fun he => hhop (.inr he)) fun he => hhop (.inl he)]
  by_cases hforward : name ∈ forwardingNames
  · rw [if_pos hforward]
  rw [if_neg hforward]
  by_cases hcookie : name = cookie
  · rw [if_pos hcookie, if_pos (cookie_mem_dropped.mp (hcookie ▸ h))]
    rfl
  · have hgone : name = authorization ∨ name ∈ named m ∨ name ∈ hopByHop := by
      rcases mem_dropped.mp h with hnamed | hmem | hauth | hmem
      · exact .inr (.inl hnamed)
      · exact .inr (.inr hmem)
      · exact .inl hauth
      · exact absurd hmem hforward
    rw [if_neg hcookie, if_pos hgone]

/-- Of every other name there is what is left. -/
theorem getAll_of_not_dropped {f : HeaderMap} (hf : filterHeaders websocket m = .ok f)
    (h : name ∉ dropped m) : f.getAll name = remaining m name := by
  obtain ⟨g, hg, hvalues⟩ := filterHeaders_ok websocket m
  obtain rfl := Except.ok.inj (hg.symm.trans hf)
  rw [mem_dropped, not_or, not_or, not_or] at h
  obtain ⟨hnamed, hhop, hauth, hforward⟩ := h
  have hnot : ¬ (name = connection ∨ name = upgrade) := by
    rintro (rfl | rfl)
    · exact hhop (by decide)
    · exact hhop (by decide)
  rw [hvalues, if_neg hnot, if_neg hforward, remaining]
  by_cases hcookie : name = cookie
  · rw [if_pos hcookie, if_pos hcookie]
  · have hgone : ¬ (name = authorization ∨ name ∈ named m ∨ name ∈ hopByHop) := by
      rintro (he | hmem | hmem)
      · exact hauth he
      · exact hnamed hmem
      · exact hhop hmem
    rw [if_neg hcookie, if_neg hcookie, if_neg hgone]

/-- The cookies that are forwarded. -/
theorem getAll_cookie {f : HeaderMap} (hf : filterHeaders websocket m = .ok f) :
    f.getAll cookie = remaining m cookie := by
  by_cases h : cookie ∈ dropped m
  · have hhop : cookie ∉ hopByHop := by decide
    rw [getAll_of_dropped hf h, upgradeValues_of_not_mem hhop, remaining, if_pos rfl,
      if_pos (cookie_mem_dropped.mp h)]
    rfl
  · exact getAll_of_not_dropped hf h

/-- What is nominated is read, or stands in a value that is no text. -/
theorem mem_nominated : name ∈ nominated m ↔ name ∈ named m ∨ name ∈ hidden m := by
  unfold nominated named hidden
  simp only [List.mem_flatMap, List.mem_filterMap, List.mem_filter]
  constructor
  · rintro ⟨value, hvalue, htoken⟩
    cases hread : toStr value with
    | none => exact .inr ⟨value, ⟨hvalue, by rw [hread]; rfl⟩, htoken⟩
    | some s =>
      obtain ⟨rfl, -⟩ := toStr_eq_some hread
      exact .inl ⟨s, ⟨s, hvalue, hread⟩, htoken⟩
  · rintro (⟨s, ⟨value, hvalue, hread⟩, htoken⟩ | ⟨value, ⟨hvalue, -⟩, htoken⟩)
    · obtain ⟨rfl, -⟩ := toStr_eq_some hread
      exact ⟨s, hvalue, htoken⟩
    · exact ⟨value, hvalue, htoken⟩

/-! ## The cookies -/

section Cookies

variable {cookies : Bytes} {values : List Bytes}

/-- The pairs of several headers are those of each. -/
theorem otherPairs_cons (value : Bytes) (values : List Bytes) :
    otherPairs (value :: values) = otherPairs [value] ++ otherPairs values := by
  simp [otherPairs]

/-- The pairs that are kept are all pairs that are read again. -/
theorem splitOn_cleanCookies (h : trim (cleanCookies cookies) ≠ []) :
    (cleanCookies cookies).splitOn 59 =
      (cookies.splitOn 59).filter fun c => !previewCookie c := by
  refine splitOn_intercalate_filter _ fun hnone => h ?_
  unfold cleanCookies
  rw [hnone]
  rfl

/-- Cleaning loses no pair but the preview's. -/
theorem otherPairs_cleanCookies (h : trim (cleanCookies cookies) ≠ []) :
    otherPairs [cleanCookies cookies] = otherPairs [cookies] := by
  unfold otherPairs
  rw [List.flatMap_singleton, List.flatMap_singleton, splitOn_cleanCookies h, List.filter_filter]
  refine List.filter_congr fun pair _ => ?_
  cases previewCookie pair <;> simp

/-- Blanks have no pairs. -/
theorem otherPairs_of_blank (h : trim (cleanCookies cookies) = []) : otherPairs [cookies] = [] := by
  unfold otherPairs
  rw [List.flatMap_singleton, List.filter_eq_nil_iff]
  intro pair hpair hother
  obtain ⟨hsome, hnot⟩ := Bool.and_eq_true_iff.mp hother
  have hmem : (61 : UInt8) ∈ pair := by
    unfold splitOnce at hsome
    by_contra hnone
    rw [if_neg hnone] at hsome
    cases hsome
  have hkept : pair ∈ (cookies.splitOn 59).filter fun c => !previewCookie c :=
    List.mem_filter.mpr ⟨hpair, hnot⟩
  have hclean : (61 : UInt8) ∈ cleanCookies cookies := mem_intercalate_of_mem hkept hmem
  exact absurd (List.all_eq_true.mp (trim_eq_nil h) 61 hclean) (by decide)

/-- Where the first header is readable, no preview cookie is forwarded. -/
theorem preview_cookiesLeft_readable (h : toStr cookies = some cookies) :
    ∀ value ∈ cookiesLeft (cookies :: values), ∀ pair ∈ value.splitOn 59,
      previewCookie pair = false := by
  have hread : (cookies :: values).head?.bind toStr = some cookies := h
  rw [cookiesLeft_of_some hread]
  split_ifs with hblank
  · intro value hvalue
    cases hvalue
  · intro value hvalue pair hpair
    rw [List.mem_singleton.mp hvalue, splitOn_cleanCookies hblank] at hpair
    simpa using (List.mem_filter.mp hpair).2

/-- And no other pair of that header is lost. -/
theorem otherPairs_cookiesLeft_readable (h : toStr cookies = some cookies) :
    otherPairs (cookiesLeft (cookies :: values)) = otherPairs [cookies] := by
  have hread : (cookies :: values).head?.bind toStr = some cookies := h
  rw [cookiesLeft_of_some hread]
  split_ifs with hblank
  · exact (otherPairs_of_blank hblank).symm
  · exact otherPairs_cleanCookies hblank

/-- The cookies are filtered as they should be if they are readable, and only then. -/
theorem cookiesReadable_iff : CookiesReadable m ↔
    (∀ value ∈ remaining m cookie, ∀ pair ∈ value.splitOn 59, previewCookie pair = false) ∧
      otherPairs (remaining m cookie) = otherPairs (m.getAll cookie) := by
  unfold CookiesReadable remaining
  rw [if_pos rfl]
  by_cases hnamed : cookie ∈ named m
  · rw [if_pos hnamed, if_pos hnamed]
    constructor
    · intro h
      exact ⟨fun value hvalue => absurd hvalue List.not_mem_nil, h.symm⟩
    · exact fun h => h.2.symm
  rw [if_neg hnamed, if_neg hnamed]
  cases hvalues : m.getAll cookie with
  | nil =>
    exact ⟨fun _ => ⟨fun value hvalue => absurd hvalue List.not_mem_nil, rfl⟩, fun _ => trivial⟩
  | cons value values =>
    simp only
    cases hread : toStr value with
    | none =>
      have hnone : (value :: values).head?.bind toStr = none := hread
      rw [cookiesLeft_of_none hnone, if_neg (by simp)]
      exact ⟨fun h => ⟨h, rfl⟩, fun h => h.1⟩
    | some s =>
      obtain ⟨rfl, -⟩ := toStr_eq_some hread
      rw [otherPairs_cookiesLeft_readable hread, otherPairs_cons s values, if_pos (by simp),
        List.self_eq_append_right]
      exact ⟨fun h => ⟨preview_cookiesLeft_readable hread, h⟩, fun h => h.2⟩

end Cookies

/-- The headers that are forwarded are as they should be if they are clean, and only then. -/
theorem confined_iff {f : HeaderMap} (hf : filterHeaders websocket m = .ok f) :
    Confined websocket m f ↔ Clean m := by
  have hother {name : Bytes} (h : name ∉ dropped m) : upgradeValues websocket name = [] :=
    upgradeValues_of_not_mem fun hhop => h (mem_dropped.mpr (.inr (.inl hhop)))
  constructor
  · intro h
    refine ⟨cookiesReadable_iff.mpr ?_, fun name hhidden hnot => ?_⟩
    · rw [← getAll_cookie hf]
      exact ⟨h.preview, h.kept⟩
    · rw [← getAll_of_not_dropped hf hnot, h.hop name (.inr (mem_nominated.mpr (.inr hhidden))),
        hother hnot]
  · intro h
    obtain ⟨hpreview, hkept⟩ := cookiesReadable_iff.mp h.cookies
    rw [← getAll_cookie hf] at hpreview hkept
    refine ⟨?_, hpreview, hkept, fun name hname => ?_, fun name hname => ?_⟩
    · rw [getAll_of_dropped hf (mem_dropped.mpr (.inr (.inr (.inl rfl))))]
      exact upgradeValues_of_not_mem (by decide)
    · have hnot : ∀ name ∈ forwardingNames, name ∉ hopByHop := by decide
      rw [getAll_of_dropped hf (mem_dropped.mpr (.inr (.inr (.inr hname))))]
      exact upgradeValues_of_not_mem (hnot name hname)
    · by_cases hdropped : name ∈ dropped m
      · exact getAll_of_dropped hf hdropped
      have hhidden : name ∈ hidden m := by
        rcases hname with hhop | hnom
        · exact absurd (mem_dropped.mpr (.inr (.inl hhop))) hdropped
        · exact (mem_nominated.mp hnom).resolve_left fun hnamed =>
            hdropped (mem_dropped.mpr (.inl hnamed))
      rw [getAll_of_not_dropped hf hdropped, h.nominated name hhidden hdropped, hother hdropped]

end AgentHouse.Daemon.Previews
