import AgentHouse.Netd.Flows

/-!
# What leaves the gateway

Whatever the guest sends, the host connects only where the policy allows it, and what the guest is
told in return answers what it asked.
-/

namespace AgentHouse.Netd

variable {T : TcpSockets} {W : Smoltcp} {policy : Policy} {s s' : Gateway T}

/-- Where a permitted connect goes to. -/
theorem Connect.Permitted.goes {c : Connect} (h : c.Permitted W policy) :
    c.target = ⟨policy.resolver, 53⟩ ∨ c.target ∈ policy.privateAccess ∨
      ∃ host, c.host = some host ∧ «public» c.target.ip host = true := by
  have htarget := h.target
  unfold Gateway.target at htarget
  split at htarget
  · exact .inl htarget
  rename_i hdns
  rcases h.allowed with hexcepted | hpublic
  · simp only [Gateway.excepted, Bool.or_eq_true, decide_eq_true_eq] at hexcepted
    rw [htarget]
    exact .inr (.inl (hexcepted.resolve_left hdns))
  · rw [htarget]
    exact .inr (.inr hpublic)

namespace Gateway

/-- A client of the guest's asked it. -/
def Posed (s : Gateway T) (q : Query) : Prop :=
  ∃ d, s.asked[q.socket]? = some (q.client, d) ∧ Question.query d = .ok q.question

/-- Every connect is permitted, a flow's stream and a thread's target are those of the connect that
was made for them, and pings and questions keep their rules: a reply goes to the client that asked
the question, and no question that was answered waits or is answered again. -/
structure Confined (W : Smoltcp) (policy : Policy) (s : Gateway T) : Prop where
  connects : ∀ c ∈ s.connects, c.Permitted W policy
  threads : s.connects.length = s.threads
  flows : ∀ f ∈ s.flows, ∃ c, s.connects[f.thread]? = some c ∧ c.key = f.key
  connectors : ∀ c ∈ s.connectors, ∃ d, s.connects[c.thread]? = some d ∧ d.target = c.target
  passed : ∀ frame ∈ s.passed, Passable W policy frame
  pings : s.pings.Sound W
  waiting : s.queries.length ≤ maxQueries
  questions : ∀ q ∈ s.queries, s.Posed q
  replied : ∀ p ∈ s.replied, p.1.question.matches p.2 = .ok true ∧ p.2.length ≤ 1232 ∧ s.Posed p.1
  once : (s.replied.map (fun p => p.1.socket) ++ s.queries.map Query.socket).Nodup

/-! ## Frames -/

/-- A flow that is dropped leaves the gateway confined. -/
theorem Confined.drop (h : s.Confined W policy) (key : Key) : (s.drop key).Confined W policy := by
  unfold Gateway.drop
  split
  · exact h
  split
  · exact { h with }
  · exact { h with flows := fun f hf => h.flows f (List.mem_filter.mp hf).1 }

theorem Confined.drops (h : s.Confined W policy) (keys : List Key) :
    (keys.foldl Gateway.drop s).Confined W policy := by
  induction keys generalizing s with
  | nil => exact h
  | cons key keys ih => exact ih (h.drop key)

/-- An index that was there before the last connect was made. -/
theorem getElem?_connects {c d : Connect} {n : ℕ} (h : s.connects[n]? = some d) :
    (s.connects ++ [c])[n]? = some d := by
  rw [List.getElem?_append_left (List.getElem?_eq_some_iff.mp h).1]
  exact h

/-- A permitted connection may be made. -/
theorem Confined.connect (h : s.Confined W policy) {c : Connect} (hc : c.Permitted W policy)
    (handle : ℕ) : (s.connect c handle).Confined W policy := by
  have hlast : (s.connects ++ [c])[s.threads]? = some c := by
    rw [← h.threads]
    exact List.getElem?_concat_length
  exact
    { h with
      connects := fun d hd => by
        rcases Table.mem_snoc.mp hd with hd | rfl
        · exact h.connects d hd
        · exact hc
      threads := by
        show (s.connects ++ [c]).length = s.threads + 1
        rw [List.length_append, List.length_singleton, h.threads]
      flows := fun f hf => by
        rcases Table.mem_snoc.mp hf with hf | rfl
        · obtain ⟨d, hd, hkey⟩ := h.flows f hf
          exact ⟨d, getElem?_connects hd, hkey⟩
        · exact ⟨c, hlast, rfl⟩
      connectors := fun t ht => by
        rcases Table.mem_snoc.mp ht with ht | rfl
        · obtain ⟨d, hd, htarget⟩ := h.connectors t ht
          exact ⟨d, getElem?_connects hd, htarget⟩
        · exact ⟨c, hlast, rfl⟩ }

/-- A frame that may pass may be passed on. -/
theorem Confined.pass (h : s.Confined W policy) {frame : Frame}
    (hpass : Passable W policy frame) : (s.pass frame).Confined W policy :=
  { h with
    passed := fun f hf => by
      rcases Table.mem_snoc.mp hf with hf | rfl
      · exact h.passed f hf
      · exact hpass }

/-- Admission keeps the gateway confined. -/
theorem Confined.admits (h : s.Confined W policy) (ha : Admits W policy s s') :
    s'.Confined W policy := by
  induction ha with
  | refused s => exact h
  | passed s frame hpass => exact h.pass hpass
  | ping s destination bytes host ident =>
    exact { h with pings := h.pings.effect (Pings.request_effect _ destination bytes host ident) }
  | roomed hfull hold _ ih =>
    refine ih ?_
    rename_i retired _
    cases retired with
    | none => exact h
    | some key => exact h.drop key
  | connected s c handle hpermitted hpass hnew hfree hroom hpermit =>
    exact (h.connect hpermitted handle).pass hpass

/-! ## A round -/

/-- A flow may go on with its own connection. -/
theorem Confined.settle (h : s.Confined W policy) {f f' : Flow} (hf : f ∈ s.flows)
    (hkey : f'.key = f.key) (hthread : f'.thread = f.thread) (k : Connection T) :
    (s.settle f' k).Confined W policy :=
  { h with
    flows := fun g hg => by
      rcases mem_setFlow hg with rfl | ⟨hmem, -⟩
      · obtain ⟨c, hc, hckey⟩ := h.flows f hf
        exact ⟨c, hthread ▸ hc, hckey.trans hkey.symm⟩
      · exact h.flows g hmem }

/-- One pass over a flow. -/
theorem Confined.passFlow (h : s.Confined W policy) {f : Flow} (hf : f ∈ s.flows) (io : FlowIo) :
    (s.passFlow f io).Confined W policy := by
  unfold Gateway.passFlow
  split
  · exact { h with }
  rename_i k _
  split
  · obtain ⟨hkey, -, hthread⟩ := f.relay_same k s.now io
    exact h.settle hf hkey hthread _
  · split
    · exact h
    · exact h.settle hf rfl rfl _
    · obtain ⟨hkey, -, hthread⟩ := f.connected.relay_same k s.now io
      exact h.settle hf hkey hthread _

/-- A thread that reports. -/
theorem Confined.report (h : s.Confined W policy) (thread : ℕ) (ok : Bool) :
    (s.report thread ok).Confined W policy :=
  { h with
    flows := fun g hg => by
      obtain ⟨f, hf, rfl⟩ := List.mem_map.mp hg
      split
      · exact h.flows f hf
      · exact h.flows f hf
    connectors := fun g hg => by
      obtain ⟨c, hc, rfl⟩ := List.mem_map.mp hg
      split
      · exact h.connectors c hc
      · exact h.connectors c hc }

/-- A question that is answered does not wait any further. -/
theorem answer_subperm (s : Gateway T) (recv : Query → Answer) (queries : List Query) :
    ((queries.filterMap fun q => s.reply q (recv q)).map (fun p => p.1.socket) ++
      (queries.filter fun q => s.keeps q (recv q)).map Query.socket).Subperm
        (queries.map Query.socket) := by
  induction queries with
  | nil => exact List.Subperm.refl _
  | cons q queries ih =>
    obtain ⟨waits, reply, hlook, hreply⟩ := look_ok s q (recv q)
    have hkeeps : s.keeps q (recv q) = waits := by
      rw [keeps, hlook]
      rfl
    have hreplies : s.reply q (recv q) = reply.map (q, ·) := by
      rw [Gateway.reply, hlook]
      rfl
    rw [List.filterMap_cons, hreplies, List.filter_cons, hkeeps, List.map_cons]
    cases reply with
    | none =>
      cases waits with
      | true =>
        exact List.perm_middle.subperm.trans (List.subperm_cons q.socket |>.mpr ih)
      | false => exact ih.cons_right _
    | some bytes =>
      obtain ⟨rfl, -, -⟩ := hreply bytes rfl
      exact List.subperm_cons q.socket |>.mpr ih

/-- An answer goes to the query that it is about. -/
theorem Confined.answer (h : s.Confined W policy) (recv : Query → Answer) :
    (s.answer recv).Confined W policy :=
  { h with
    waiting := (List.length_filter_le _ _).trans h.waiting
    questions := fun q hq => h.questions q (List.mem_filter.mp hq).1
    replied := fun p hp => by
      rcases List.mem_append.mp hp with hp | hp
      · exact h.replied p hp
      obtain ⟨q, hq, hsome⟩ := List.mem_filterMap.mp hp
      obtain ⟨waits, reply, hlook, hreply⟩ := look_ok s q (recv q)
      rw [Gateway.reply, hlook] at hsome
      obtain ⟨bytes, rfl, rfl⟩ := Option.map_eq_some_iff.mp hsome
      obtain ⟨-, hmatches, hlength⟩ := hreply bytes rfl
      exact ⟨hmatches, hlength, h.questions q hq⟩
    once := by
      show ((s.replied ++ _).map _ ++ (s.queries.filter _).map _).Nodup
      rw [List.map_append, List.append_assoc]
      obtain ⟨l, hperm, hsub⟩ :=
        (List.subperm_append_left (s.replied.map fun p => p.1.socket)).mpr
          (answer_subperm s recv s.queries)
      exact hperm.nodup_iff.mp (hsub.nodup h.once) }

/-- The number of a question's socket is one that was given out. -/
theorem Posed.lt {q : Query} (h : s.Posed q) : q.socket < s.asked.length := by
  obtain ⟨d, hd, -⟩ := h
  exact (List.getElem?_eq_some_iff.mp hd).1

/-- What was asked stays asked. -/
theorem Posed.snoc {q : Query} (h : s.Posed q) (x : Endpoint × Bytes)
    (hs' : s'.asked = s.asked ++ [x]) :
    s'.Posed q := by
  have hlt := h.lt
  obtain ⟨d, hd, hquery⟩ := h
  refine ⟨d, ?_, hquery⟩
  rw [hs', List.getElem?_append_left hlt]
  exact hd

/-- The next socket is a new one. -/
theorem Confined.fresh_socket (h : s.Confined W policy) :
    s.asked.length ∉ s.replied.map (fun p => p.1.socket) ++ s.queries.map Query.socket := by
  intro hmem
  rcases List.mem_append.mp hmem with hmem | hmem
  · obtain ⟨p, hp, hsocket⟩ := List.mem_map.mp hmem
    have hlt := (h.replied p hp).2.2.lt
    omega
  · obtain ⟨q, hq, hsocket⟩ := List.mem_map.mp hmem
    have hlt := (h.questions q hq).lt
    omega

/-- A query that is sent is counted once. -/
theorem Confined.asked (h : s.Confined W policy) (ha : Asked s s') : s'.Confined W policy := by
  cases ha with
  | refused => exact h
  | sent client datagram question sent hquestion hroom =>
    cases sent with
    | false =>
      exact
        { h with
          questions := fun q hq => (h.questions q hq).snoc (client, datagram) rfl
          replied := fun p hp => by
            obtain ⟨hmatches, hlength, hposed⟩ := h.replied p hp
            exact ⟨hmatches, hlength, hposed.snoc (client, datagram) rfl⟩ }
    | true =>
      exact
        { h with
          waiting := by
            show (s.queries ++ [_]).length ≤ maxQueries
            rw [List.length_append]
            exact hroom
          questions := fun q hq => by
            rcases Table.mem_snoc.mp hq with hq | rfl
            · exact (h.questions q hq).snoc (client, datagram) rfl
            · exact ⟨datagram, List.getElem?_concat_length, hquestion⟩
          replied := fun p hp => by
            obtain ⟨hmatches, hlength, hposed⟩ := h.replied p hp
            exact ⟨hmatches, hlength, hposed.snoc (client, datagram) rfl⟩
          once := by
            show (s.replied.map _ ++ (s.queries ++ [_]).map Query.socket).Nodup
            rw [List.map_append, ← List.append_assoc]
            refine h.once.append (List.nodup_singleton _) fun n hold hlast => h.fresh_socket ?_
            have hn : n = s.asked.length := List.mem_singleton.mp hlast
            exact hn ▸ hold }

/-! ## Runs -/

/-- Every step keeps the gateway confined. -/
theorem Confined.step {a : Act T} (h : s.Confined W policy)
    (hstep : s.step W policy a = some s') : s'.Confined W policy := by
  cases a with
  | tick d =>
    obtain rfl := Option.some.inj hstep
    exact { h with pings := h.pings.effect (.tick d) }
  | stack handle e =>
    obtain ⟨k, hk, rfl⟩ := Option.map_eq_some_iff.mp hstep
    exact { h with }
  | connected thread ok =>
    simp only [Gateway.step] at hstep
    split at hstep
    · obtain rfl := Option.some.inj hstep
      exact h.report thread ok
    · cases hstep
  | ended thread =>
    simp only [Gateway.step] at hstep
    split at hstep
    · obtain rfl := Option.some.inj hstep
      exact { h with connectors := fun c hc => h.connectors c (List.mem_filter.mp hc).1 }
    · cases hstep
  | earlierEnded =>
    simp only [Gateway.step] at hstep
    split at hstep
    · cases hstep
    · obtain rfl := Option.some.inj hstep
      exact { h with }
  | frame frame host ident handle listens retired =>
    cases hround : s.round <;> simp only [Gateway.step, hround, reduceCtorEq] at hstep
    exact h.admits (admitFrame_admits hstep)
  | relay order =>
    cases hround : s.round <;> simp only [Gateway.step, hround, reduceCtorEq] at hstep
    split at hstep
    · obtain rfl := Option.some.inj hstep
      exact { h with }
    · cases hstep
  | pass io =>
    cases hround : s.round with
    | relaying keys =>
      cases keys with
      | nil => simp only [Gateway.step, hround, reduceCtorEq] at hstep
      | cons key todo =>
        simp only [Gateway.step, hround] at hstep
        cases hflow : s.flow key with
        | none =>
          rw [hflow] at hstep
          cases hstep
        | some f =>
          rw [hflow] at hstep
          obtain rfl := Option.some.inj hstep
          exact { h.passFlow (mem_of_flow hflow).1 io with }
    | _ => simp only [Gateway.step, hround, reduceCtorEq] at hstep
  | reclaim =>
    cases hround : s.round with
    | relaying keys =>
      cases keys with
      | nil =>
        simp only [Gateway.step, hround] at hstep
        obtain rfl := Option.some.inj hstep
        exact { h.drops s.remove with }
      | cons key todo => simp only [Gateway.step, hround, reduceCtorEq] at hstep
    | _ => simp only [Gateway.step, hround, reduceCtorEq] at hstep
  | query client datagram opened sent =>
    cases hround : s.round <;> simp only [Gateway.step, hround, reduceCtorEq] at hstep
    obtain rfl := Option.some.inj hstep
    exact h.asked (sendQuery_asked s client datagram opened sent)
  | answers recv =>
    cases hround : s.round <;> simp only [Gateway.step, hround, reduceCtorEq] at hstep
    obtain rfl := Option.some.inj hstep
    exact h.answer recv
  | echoes recv =>
    cases hround : s.round <;> simp only [Gateway.step, hround, reduceCtorEq] at hstep
    obtain rfl := Option.some.inj hstep
    exact { h with pings := h.pings.polls recv }
  | next =>
    cases hround : s.round <;> simp only [Gateway.step, hround, reduceCtorEq] at hstep
    obtain rfl := Option.some.inj hstep
    exact { h with }

/-- A new gateway is confined. -/
theorem init_confined (now earlier : ℕ) :
    (init now earlier : Gateway T).Confined W policy where
  connects := fun c hc => by cases hc
  threads := rfl
  flows := fun f hf => by cases hf
  connectors := fun c hc => by cases hc
  passed := fun frame hframe => by cases hframe
  pings := Pings.init_sound now
  waiting := Nat.zero_le _
  questions := fun q hq => by cases hq
  replied := fun p hp => by cases hp
  once := List.nodup_nil

/-- In every run of a link, whatever its sockets do, each connect of the host was asked for by a SYN
of the guest and is permitted; the stack never sees a packet to another address; pings are sent to
public addresses only; and each DNS reply that the guest is sent fits into a frame and goes to the
client of the question that it answers, each question being answered at most once. With grants that
the host accepts no address is connected to that cannot be reached, the resolver's apart. -/
theorem egress_confined {now earlier : ℕ} {as : List (Act T)}
    (hgrants : ∀ e ∈ policy.privateAccess, validPrivateEndpoint e = true)
    (h : Trace (fun s a s' => s.step W policy a = some s') (init now earlier) as s) :
    s.Confined W policy ∧ ∀ c ∈ s.connects, c.target ≠ ⟨policy.resolver, 53⟩ →
      ∀ block ∈ unroutable, ¬ block.Contains c.target.ip := by
  have hconfined : s.Confined W policy :=
    h.invariant (init_confined now earlier) fun hs hstep => hs.step hstep
  refine ⟨hconfined, fun c hc hresolver block hblock => ?_⟩
  rcases (hconfined.connects c hc).goes with hgoes | hgrant | ⟨host, -, hpublic⟩
  · exact absurd hgoes hresolver
  · exact (validPrivateEndpoint_iff.mp (hgrants _ hgrant)).2 block hblock
  · exact (public_iff.mp hpublic).2 block (List.mem_append_left _ hblock)

section Sample

/-- A resolver, and a grant. -/
def granted : Policy := ⟨⟨9, 9, 9, 9⟩, [⟨⟨10, 0, 0, 5⟩, 5432⟩]⟩

/-- The address of `A`. -/
def question : Bytes := [0, 1, 1, 0, 0, 1, 0, 0, 0, 0, 0, 0, 1, 65, 0, 0, 1, 0, 1]

/-- The guest asks for a connection, and two of its clients ask the resolver the same. The first
gets an answer, which comes twice, the other none. -/
def asking : List (Act .passive) :=
  let reply : Bytes := [0, 1, 129, 0, 0, 1, 0, 0, 0, 0, 0, 0, 1, 65, 0, 0, 1, 0, 1]
  let answers (q : Query) : Answer := if q.socket = 0 then .datagram reply else .wouldBlock
  [.frame syn (some []) none 0 true none, .relay [⟨⟨1, 1, 1, 1⟩, 443, 40000⟩],
    .pass ⟨.wouldBlock, .wouldBlock⟩, .reclaim, .query ⟨guest, 5353⟩ question true true,
    .query ⟨guest, 5454⟩ question true true, .answers answers, .answers answers, .next]

end Sample

theorem egress_confined_asking : ∃ s : Gateway .passive,
    s.connects.map Connect.target = [⟨⟨1, 1, 1, 1⟩, 443⟩] ∧
      s.replied.map (fun p => p.1.client) = [⟨guest, 5353⟩] ∧
      s.queries.map Query.client = [⟨guest, 5454⟩] ∧
      s.Confined .plain granted ∧ ∀ c ∈ s.connects, c.target ≠ ⟨⟨9, 9, 9, 9⟩, 53⟩ →
        ∀ block ∈ unroutable, ¬ block.Contains c.target.ip := by
  have hrun : (asking.foldlM (step .plain granted) (init 0 0)).map
      (fun s => (s.connects.map Connect.target, s.replied.map fun p => p.1.client,
        s.queries.map Query.client)) =
      some ([⟨⟨1, 1, 1, 1⟩, 443⟩], [⟨guest, 5353⟩], [⟨guest, 5454⟩]) := by decide
  obtain ⟨s, hs, hseen⟩ := Option.map_eq_some_iff.mp hrun
  have hgrants : ∀ e ∈ granted.privateAccess, validPrivateEndpoint e = true := by decide
  exact ⟨s, congrArg Prod.fst hseen, congrArg (fun x => x.2.1) hseen,
    congrArg (fun x => x.2.2) hseen, egress_confined hgrants (.of_foldlM hs)⟩

end Gateway

end AgentHouse.Netd
