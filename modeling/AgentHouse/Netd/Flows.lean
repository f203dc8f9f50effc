import AgentHouse.Lib.Traces
import AgentHouse.Netd.Admission
import AgentHouse.Netd.Relay

/-!
# Flows and their sockets

The tables of the gateway stay in step: each flow has one socket and each socket one flow, as many
permits are taken as threads hold, and no connection is removed while it stands.
-/

namespace AgentHouse.Netd

namespace Gateway

variable {T : TcpSockets} {W : Smoltcp} {policy : Policy} {s s' : Gateway T}

/-- Flows and sockets belong together one to one, permits are held by threads, and a flow is removed
only once its connection is over. -/
structure Tables (s : Gateway T) : Prop where
  keyed : Table.Keyed Flow.key s.flows
  handles : (s.flows.map Flow.handle).Nodup
  bounded : s.flows.length ≤ maxFlows
  socket : ∀ f ∈ s.flows, ∃ k, s.sockets f.handle = some k ∧ f.Relayed k
  owner : ∀ handle k, s.sockets handle = some k → ∃ f ∈ s.flows, f.handle = handle
  permits : s.active = s.earlier + s.connectors.length
  limit : s.active ≤ maxFlows
  connectors : (s.connectors.map Connector.thread).Nodup
  threads : ∀ c ∈ s.connectors, c.thread < s.threads
  calm : s.panicked = false
  removing : ∀ key ∈ s.remove, ∀ f, s.flow key = some f → s.state f.handle = some .closed
  quiet : s.remove = [] ∨ ∃ todo, s.round = .relaying todo
  removed : ∀ p ∈ s.removed, p.1.Relayed p.2 ∧ (p.2.state = .closed ∨ p.2.state = .timeWait)

/-! ## Flows and sockets -/

/-- Every flow is found under its key. -/
theorem Tables.flow_of_mem (h : s.Tables) {f : Flow} (hf : f ∈ s.flows) :
    s.flow f.key = some f :=
  h.keyed.row_of_mem hf

theorem mem_of_flow {key : Key} {f : Flow} (hf : s.flow key = some f) : f ∈ s.flows ∧ f.key = key :=
  Table.row_mem hf

/-- Two flows with one socket are one. -/
theorem Tables.unique (h : s.Tables) {f g : Flow} (hf : f ∈ s.flows) (hg : g ∈ s.flows)
    (hhandle : f.handle = g.handle) : f = g :=
  List.inj_on_of_nodup_map h.handles hf hg hhandle

/-- A flow is taken out with its socket once the connection is over. -/
theorem Tables.drop (h : s.Tables) {key : Key}
    (hover : ∀ f, s.flow key = some f → s.state f.handle = some .closed ∨
      s.state f.handle = some .timeWait) : (s.drop key).Tables := by
  unfold Gateway.drop
  cases hflow : s.flow key with
  | none => exact h
  | some f =>
    obtain ⟨hf, hkey⟩ := mem_of_flow hflow
    obtain ⟨k, hk, hrelayed⟩ := h.socket f hf
    have hstate : k.state = .closed ∨ k.state = .timeWait := by
      have hstates := hover f hflow
      simpa [state, hk] using hstates
    have hother {g : Flow} (hg : g ∈ s.flows.filter fun g => decide (g.key ≠ key)) :
        g ∈ s.flows ∧ g.handle ≠ f.handle := by
      obtain ⟨hmem, hne⟩ := List.mem_filter.mp hg
      refine ⟨hmem, fun hhandle => of_decide_eq_true hne ?_⟩
      rw [h.unique hmem hf hhandle, hkey]
    simp only [hk]
    exact
      { h with
        keyed := h.keyed.filter
        handles := (List.filter_sublist.map _).nodup h.handles
        bounded := (List.length_filter_le _ _).trans h.bounded
        socket := fun g hg => by
          obtain ⟨hmem, hne⟩ := hother hg
          obtain ⟨k', hk', hrest⟩ := h.socket g hmem
          exact ⟨k', (Function.update_of_ne hne _ _).trans hk', hrest⟩
        owner := fun handle k' hk' => by
          change Function.update s.sockets f.handle none handle = some k' at hk'
          by_cases hhandle : handle = f.handle
          · rw [hhandle, Function.update_self] at hk'
            cases hk'
          · rw [Function.update_of_ne hhandle] at hk'
            obtain ⟨g, hg, rfl⟩ := h.owner handle k' hk'
            refine ⟨g, List.mem_filter.mpr ⟨hg, decide_eq_true fun hsame => hhandle ?_⟩, rfl⟩
            have heq := h.flow_of_mem hg
            rw [hsame, hflow] at heq
            rw [Option.some.inj heq]
        removing := fun key' hkey' g hg => by
          obtain ⟨hmem, hgkey⟩ := mem_of_flow hg
          obtain ⟨hmem, hne⟩ := hother hmem
          have hbefore := h.removing key' hkey' g (hgkey ▸ h.flow_of_mem hmem)
          have hsockets : Function.update s.sockets f.handle none g.handle = s.sockets g.handle :=
            Function.update_of_ne hne _ _
          simpa [state, hsockets] using hbefore
        removed := fun p hp => by
          rcases List.mem_append.mp hp with hp | hp
          · exact h.removed p hp
          · rw [List.mem_singleton.mp hp]
            exact ⟨hrelayed, hstate⟩ }

theorem drop_kept (s : Gateway T) (key : Key) : (s.drop key).round = s.round ∧
    (s.drop key).remove = s.remove := by
  unfold Gateway.drop
  cases s.flow key with
  | none => exact ⟨rfl, rfl⟩
  | some f =>
    simp only
    split
    · exact ⟨rfl, rfl⟩
    · exact ⟨rfl, rfl⟩

/-- The flows of a round that are over are taken out one by one. -/
theorem Tables.drops (h : s.Tables) {keys : List Key} (hkeys : ∀ key ∈ keys, key ∈ s.remove) :
    (keys.foldl Gateway.drop s).Tables := by
  induction keys generalizing s with
  | nil => exact h
  | cons key keys ih =>
    have hkey := hkeys key List.mem_cons_self
    refine ih (h.drop fun f hf => .inl (h.removing key hkey f hf)) fun key' hkey' => ?_
    rw [(drop_kept s key).2]
    exact hkeys key' (List.mem_cons_of_mem _ hkey')

/-- A flow that is set replaces its own row. -/
theorem mem_setFlow {rows : List Flow} {f g : Flow}
    (hg : g ∈ Table.revise Flow.key f.key (fun _ => f) rows) :
    g = f ∨ g ∈ rows ∧ g.key ≠ f.key := by
  obtain ⟨r, hr, rfl⟩ := List.mem_map.mp hg
  by_cases hkey : r.key = f.key
  · exact .inl (if_pos hkey)
  · rw [if_neg hkey]
    exact .inr ⟨hr, hkey⟩

/-- A flow and its socket go on together. -/
theorem Tables.place (h : s.Tables) {f f' : Flow} {k k' : Connection T} (hf : f ∈ s.flows)
    (hk : s.sockets f.handle = some k) (hkey : f'.key = f.key) (hhandle : f'.handle = f.handle)
    (hrelayed : f'.Relayed k')
    (hclosed : k.state = .closed → k'.state = .closed) :
    ((s.setFlow f').setSocket f'.handle k').Tables := by
  have hsame (r : Flow) (hr : r ∈ s.flows) (hrkey : r.key = f'.key) : r = f := by
    have hrow := h.flow_of_mem hr
    rw [hrkey, hkey, h.flow_of_mem hf] at hrow
    exact (Option.some.inj hrow).symm
  have hmaps {β : Type} (c : Flow → β) (hc : c f' = c f) :
      (Table.revise Flow.key f'.key (fun _ => f') s.flows).map c = s.flows.map c := by
    rw [Table.revise, List.map_map]
    refine List.map_congr_left fun r hr => ?_
    simp only [Function.comp_apply]
    split
    · rename_i hrkey
      rw [hc, hsame r hr hrkey]
    · rfl
  have hflow : f' ∈ Table.revise Flow.key f'.key (fun _ => f') s.flows :=
    List.mem_map.mpr ⟨f, hf, if_pos hkey.symm⟩
  have hother {g : Flow} (hg : g ∈ s.flows) (hne : g.key ≠ f'.key) : g.handle ≠ f'.handle :=
    fun hsock => hne (by rw [h.unique hg hf (hsock.trans hhandle), hkey])
  exact
    { h with
      keyed := by
        show ((Table.revise Flow.key f'.key (fun _ => f') s.flows).map Flow.key).Nodup
        rw [hmaps Flow.key hkey]
        exact h.keyed
      handles := by
        show ((Table.revise Flow.key f'.key (fun _ => f') s.flows).map Flow.handle).Nodup
        rw [hmaps Flow.handle hhandle]
        exact h.handles
      bounded := by
        show (Table.revise Flow.key f'.key (fun _ => f') s.flows).length ≤ maxFlows
        rw [Table.revise, List.length_map]
        exact h.bounded
      socket := fun g hg => by
        show ∃ l, Function.update s.sockets f'.handle (some k') g.handle = some l ∧ _
        rcases mem_setFlow hg with rfl | ⟨hmem, hne⟩
        · exact ⟨k', Function.update_self _ _ _, hrelayed⟩
        · rw [Function.update_of_ne (hother hmem hne)]
          exact h.socket g hmem
      owner := fun handle l hl => by
        change Function.update s.sockets f'.handle (some k') handle = some l at hl
        by_cases hown : handle = f'.handle
        · exact ⟨f', hflow, hown.symm⟩
        · rw [Function.update_of_ne hown] at hl
          obtain ⟨g, hg, rfl⟩ := h.owner handle l hl
          refine ⟨g, List.mem_map.mpr ⟨g, hg, if_neg fun hgkey => hown ?_⟩, rfl⟩
          rw [hsame g hg hgkey, hhandle]
      removing := fun key hmem g hg => by
        obtain ⟨hg, hgkey⟩ := mem_of_flow hg
        show (Function.update s.sockets f'.handle (some k') g.handle).map Connection.state = _
        rcases mem_setFlow hg with rfl | ⟨hmemg, hne⟩
        · have hbefore := h.removing key hmem f (by rw [← hgkey, hkey]; exact h.flow_of_mem hf)
          rw [state, hk, Option.map_some] at hbefore
          rw [Function.update_self, Option.map_some, hclosed (Option.some.inj hbefore)]
        · rw [Function.update_of_ne (hother hmemg hne)]
          exact h.removing key hmem g (hgkey ▸ h.flow_of_mem hmemg) }

/-- A flow that is over is noted. -/
theorem Tables.settle (h : s.Tables) {f f' : Flow} {k k' : Connection T} (hf : f ∈ s.flows)
    (hk : s.sockets f.handle = some k) (hkey : f'.key = f.key) (hhandle : f'.handle = f.handle)
    (hrelayed : f'.Relayed k')
    (hclosed : k.state = .closed → k'.state = .closed)
    (hround : ∃ todo, s.round = .relaying todo) : (s.settle f' k').Tables := by
  have hplace := h.place hf hk hkey hhandle hrelayed hclosed
  unfold Gateway.settle
  split
  · rename_i hover
    exact
      { hplace with
        removing := fun key hmem g hg => by
          rcases List.mem_append.mp hmem with hmem | hmem
          · exact hplace.removing key hmem g hg
          · obtain ⟨hgmem, hgkey⟩ := mem_of_flow hg
            have hgf : g = f' := by
              rcases mem_setFlow hgmem with heq | ⟨-, hne⟩
              · exact heq
              · exact absurd (hgkey.trans (List.mem_singleton.mp hmem)) hne
            show (Function.update s.sockets f'.handle (some k') g.handle).map Connection.state = _
            rw [hgf, Function.update_self, Option.map_some, hover]
        quiet := .inr hround }
  · exact { hplace with quiet := .inr hround }

/-- A flow that is written back as it is. -/
theorem Tables.setFlow_self (h : s.Tables) {f : Flow} (hf : f ∈ s.flows) : s.setFlow f = s := by
  have hrows : Table.revise Flow.key f.key (fun _ => f) s.flows = s.flows := by
    rw [Table.revise]
    conv_rhs => rw [← List.map_id s.flows]
    refine List.map_congr_left fun g hg => ?_
    split
    · rename_i hkey
      have hrow := h.flow_of_mem hg
      rw [hkey, h.flow_of_mem hf] at hrow
      exact Option.some.inj hrow
    · rfl
  rw [setFlow, hrows]

/-! ## Admission -/

/-- Outside a round nothing waits to be removed. -/
theorem Tables.quiet_of (h : s.Tables) (hround : ∀ todo, s.round ≠ .relaying todo) :
    s.remove = [] :=
  h.quiet.resolve_right fun ⟨todo, htodo⟩ => hround todo htodo

/-- A flow comes with a socket and a thread of its own. -/
theorem Tables.connect (hT : T.Documented) (h : s.Tables) (hround : s.round = .admitting)
    {c : Connect} {handle : ℕ}
    (hnew : s.flow c.key = none) (hfree : s.sockets handle = none)
    (hroom : s.flows.length < maxFlows) (hpermit : s.active < maxFlows) :
    (s.connect c handle).Tables := by
  have hremove := h.quiet_of fun todo => by simp [hround]
  have hne {f : Flow} (hf : f ∈ s.flows) : f.handle ≠ handle := fun hsame => by
    obtain ⟨k, hk, -⟩ := h.socket f hf
    rw [hsame, hfree] at hk
    cases hk
  exact
    { keyed := h.keyed.append hnew
      handles := by
        show ((s.flows ++ [_]).map Flow.handle).Nodup
        rw [List.map_append]
        refine h.handles.append (List.nodup_singleton _) fun n hold hlast => ?_
        obtain ⟨f, hf, rfl⟩ := List.mem_map.mp hold
        exact hne hf (List.mem_singleton.mp hlast)
      bounded := by
        show (s.flows ++ [_]).length ≤ maxFlows
        rw [List.length_append]
        exact hroom
      socket := fun f hf => by
        show ∃ k, Function.update s.sockets handle (some .new) f.handle = some k ∧ _
        rcases Table.mem_snoc.mp hf with hf | rfl
        · rw [Function.update_of_ne (hne hf)]
          exact h.socket f hf
        · exact ⟨.new, Function.update_self _ _ _, .new hT rfl rfl rfl rfl⟩
      owner := fun n k hk => by
        change Function.update s.sockets handle (some .new) n = some k at hk
        by_cases hn : n = handle
        · exact ⟨_, Table.mem_snoc.mpr (.inr rfl), hn.symm⟩
        · rw [Function.update_of_ne hn] at hk
          obtain ⟨f, hf, hhandle⟩ := h.owner n k hk
          exact ⟨f, Table.mem_snoc.mpr (.inl hf), hhandle⟩
      permits := by
        show s.active + 1 = s.earlier + (s.connectors ++ [_]).length
        rw [List.length_append, List.length_singleton, h.permits, Nat.add_assoc]
      limit := hpermit
      connectors := by
        show ((s.connectors ++ [_]).map Connector.thread).Nodup
        rw [List.map_append]
        refine h.connectors.append (List.nodup_singleton _) fun n hold hlast => ?_
        obtain ⟨d, hd, rfl⟩ := List.mem_map.mp hold
        exact (h.threads d hd).ne (List.mem_singleton.mp hlast)
      threads := fun d hd => by
        rcases Table.mem_snoc.mp hd with hd | rfl
        · exact (h.threads d hd).trans (Nat.lt_succ_self _)
        · exact Nat.lt_succ_self _
      calm := h.calm
      removing := fun key hkey => by
        change key ∈ s.remove at hkey
        rw [hremove] at hkey
        cases hkey
      quiet := .inl hremove
      removed := h.removed }

/-- The oldest flow may be retired. -/
theorem Tables.retire (h : s.Tables) {retired : Option Key} (hold : s.Oldest retired) :
    (s.retire retired).Tables := by
  cases retired with
  | none => exact h
  | some key =>
    obtain ⟨f, hf, rfl, hstate, -⟩ := hold
    refine h.drop fun g hg => .inr ?_
    rw [h.flow_of_mem hf] at hg
    rwa [← Option.some.inj hg]

/-- Admission keeps the tables in order. -/
theorem Tables.admits (hT : T.Documented) (h : s.Tables) (hround : s.round = .admitting)
    (ha : Admits W policy s s') : s'.Tables := by
  induction ha with
  | refused s => exact h
  | passed s frame hpass => exact { h with }
  | ping s destination bytes host ident => exact { h with }
  | roomed hfull hold _ ih =>
    refine ih (h.retire hold) ?_
    rename_i retired _
    cases retired with
    | none => exact hround
    | some key => exact (drop_kept _ key).1.trans hround
  | connected s c handle hpermitted hpass hnew hfree hroom hpermit =>
    exact { h.connect hT hround hnew hfree hroom hpermit with }

/-! ## A round -/

/-- What a thread reports is left to the next pass over its flow. -/
theorem Tables.report (h : s.Tables) (thread : ℕ) (ok : Bool) : (s.report thread ok).Tables := by
  have hmaps {β : Type} (c : Flow → β) (hc : ∀ f, c { f with connecting := some ok } = c f) :
      (s.report thread ok).flows.map c = s.flows.map c := by
    show (s.flows.map _).map c = _
    rw [List.map_map]
    refine List.map_congr_left fun f _ => ?_
    simp only [Function.comp_apply]
    split
    · exact hc f
    · rfl
  have hthreads : (s.report thread ok).connectors.map Connector.thread =
      s.connectors.map Connector.thread := by
    show (s.connectors.map _).map Connector.thread = _
    rw [List.map_map]
    refine List.map_congr_left fun c _ => ?_
    simp only [Function.comp_apply]
    split <;> rfl
  have hof {g : Flow} (hg : g ∈ (s.report thread ok).flows) :
      ∃ f ∈ s.flows, g.key = f.key ∧ g.handle = f.handle ∧
        ∀ k : Connection T, f.Relayed k → g.Relayed k := by
    obtain ⟨f, hf, rfl⟩ := List.mem_map.mp hg
    refine ⟨f, hf, ?_⟩
    split
    · exact ⟨rfl, rfl, fun k hk => ⟨hk.up, hk.down, hk.shut, hk.idle⟩⟩
    · exact ⟨rfl, rfl, fun k hk => hk⟩
  exact
    { h with
      keyed := by
        show ((s.report thread ok).flows.map Flow.key).Nodup
        rw [hmaps Flow.key fun _ => rfl]
        exact h.keyed
      handles := by
        rw [hmaps Flow.handle fun _ => rfl]
        exact h.handles
      bounded := by
        show (s.flows.map _).length ≤ maxFlows
        rw [List.length_map]
        exact h.bounded
      socket := fun g hg => by
        obtain ⟨f, hf, -, hhandle, hrelayed⟩ := hof hg
        obtain ⟨k, hk, hbytes⟩ := h.socket f hf
        exact ⟨k, hhandle ▸ hk, hrelayed k hbytes⟩
      owner := fun n k hk => by
        obtain ⟨f, hf, rfl⟩ := h.owner n k hk
        refine ⟨_, List.mem_map_of_mem hf, ?_⟩
        split <;> rfl
      permits := by
        show s.active = s.earlier + (s.connectors.map _).length
        rw [List.length_map]
        exact h.permits
      connectors := by
        rw [hthreads]
        exact h.connectors
      threads := fun c hc => by
        obtain ⟨d, hd, hthread⟩ := List.mem_map.mp (hthreads ▸ List.mem_map_of_mem hc)
        exact hthread ▸ h.threads d hd
      removing := fun key hkey g hg => by
        obtain ⟨hgmem, hgkey⟩ := mem_of_flow hg
        obtain ⟨f, hf, hfkey, hhandle, -⟩ := hof hgmem
        rw [hhandle]
        exact h.removing key hkey f (by rw [← hgkey, hfkey]; exact h.flow_of_mem hf) }

/-- A thread that ends gives its permit back. -/
theorem Tables.ended (h : s.Tables) {thread : ℕ}
    (hthread : s.connectors.any (fun c => decide (c.thread = thread) && c.sent) = true) :
    Tables { s with
      connectors := s.connectors.filter fun c => decide (c.thread ≠ thread)
      active := s.active - 1 } := by
  obtain ⟨c, hc, hsame⟩ := List.any_eq_true.mp hthread
  have hcthread : c.thread = thread := of_decide_eq_true (Bool.and_eq_true_iff.mp hsame).1
  have hone : s.connectors.countP (fun d => decide (d.thread = thread)) = 1 :=
    Table.countP_eq_one (List.Nodup.of_map _ h.connectors) hc (decide_eq_true hcthread)
      fun d hd hdthread => List.inj_on_of_nodup_map h.connectors hd hc
        ((of_decide_eq_true hdthread).trans hcthread.symm)
  have hsplit := List.length_eq_countP_add_countP (fun d => decide (d.thread = thread))
    (l := s.connectors)
  have hrest : (s.connectors.filter fun d => decide (d.thread ≠ thread)).length =
      s.connectors.countP (fun d => ¬ decide (d.thread = thread) = true) := by
    rw [List.countP_eq_length_filter]
    refine congrArg List.length (List.filter_congr fun d _ => ?_)
    simp
  have hpermits := h.permits
  have hlimit := h.limit
  exact
    { h with
      permits := by
        show s.active - 1 = s.earlier + (s.connectors.filter _).length
        omega
      limit := (Nat.sub_le _ _).trans h.limit
      connectors := (List.filter_sublist.map _).nodup h.connectors
      threads := fun d hd => h.threads d (List.mem_filter.mp hd).1 }

/-- A pass over a flow. -/
theorem Tables.passFlow (hT : T.Documented) (h : s.Tables) {key : Key} {f : Flow}
    (hf : s.flow key = some f) (hround : ∃ todo, s.round = .relaying todo) (io : FlowIo) :
    (s.passFlow f io).Tables := by
  obtain ⟨hmem, -⟩ := mem_of_flow hf
  obtain ⟨k, hk, hrelayed⟩ := h.socket f hmem
  have hrelay {f' : Flow} (hrelayed : f'.Relayed k) (hhost : f'.host = true)
      (hkey : f'.key = f.key) (hhandle : f'.handle = f.handle) :
      (s.settle (f'.relay k s.now io).1 (f'.relay k s.now io).2).Tables := by
    obtain ⟨hrelayed', -⟩ := hrelayed.relay hT hhost s.now io
    obtain ⟨hkey', hhandle', -⟩ := f'.relay_same k s.now io
    exact h.settle hmem hk (hkey'.trans hkey) (hhandle'.trans hhandle) hrelayed'
      (Flow.relay_closed hT f' k s.now io) hround
  unfold Gateway.passFlow
  rw [hk]
  simp only
  split
  · rename_i hhost
    exact hrelay hrelayed hhost rfl rfl
  · split
    · exact h
    · exact h.settle hmem hk rfl rfl (hrelayed.abort hT)
        (fun _ => Connection.abort_state hT k) hround
    · exact hrelay hrelayed.connected rfl rfl rfl

/-! ## Questions -/

/-- A look at a question never panics; what it hands to the guest answers the question and fits into
a frame, and the question is gone then. -/
theorem look_ok (s : Gateway T) (q : Query) (a : Answer) : ∃ waits reply,
    s.look q a = .ok (waits, reply) ∧ ∀ bytes, reply = some bytes →
      waits = false ∧ q.question.matches bytes = .ok true ∧ bytes.length ≤ 1232 := by
  unfold look
  split
  · exact ⟨_, _, rfl, fun bytes h => by cases h⟩
  cases a with
  | wouldBlock => exact ⟨_, _, rfl, fun bytes h => by cases h⟩
  | failed => exact ⟨_, _, rfl, fun bytes h => by cases h⟩
  | datagram bytes =>
    obtain ⟨b, hmatches, hb⟩ := Question.matches_ok q.question bytes
    simp only [hmatches, Question.ok_bind]
    cases b with
    | false => exact ⟨_, _, rfl, fun bytes h => by cases h⟩
    | true =>
      obtain ⟨hresponse, hparse⟩ := hb.mp rfl
      obtain ⟨labels, stop, hasks, hquestion⟩ := Question.parse_ok_iff.mp hparse
      by_cases hsize : 1232 < bytes.length
      · rw [if_neg (by decide), if_pos hsize, Question.truncatedReply_eq hmatches hasks]
        refine ⟨_, _, rfl, fun reply hreply => ⟨rfl, ?_, ?_⟩⟩
        · obtain rfl := Option.some.inj hreply
          refine Question.matches_true_iff.mpr ⟨hasks.replyOf_response hresponse, ?_⟩
          refine Question.parse_ok_iff.mpr ⟨labels, stop, hasks.replyOf_asks, ?_⟩
          rw [hquestion, hasks.replyOf_asked]
        · obtain rfl := Option.some.inj hreply
          have hlength := hasks.length_replyOf
          have hstop := hasks.stop_le
          omega
      · rw [if_neg (by decide), if_neg hsize]
        refine ⟨_, _, rfl, fun reply hreply => ⟨rfl, ?_, ?_⟩⟩
        · obtain rfl := Option.some.inj hreply
          exact hmatches
        · obtain rfl := Option.some.inj hreply
          exact Nat.le_of_not_lt hsize

theorem answer_calm (h : s.panicked = false) (recv : Query → Answer) :
    (s.answer recv).panicked = false := by
  show (s.panicked || s.queries.any _) = false
  rw [h, Bool.false_or, List.any_eq_false]
  intro q _
  obtain ⟨waits, reply, hlook, -⟩ := look_ok s q (recv q)
  simp [hlook, Except.toOption]

/-- What a datagram of the guest for the resolver brings about. -/
inductive Asked (s : Gateway T) : Gateway T → Prop
  | refused : Asked s s
  | sent (client : Endpoint) (datagram : Bytes) (question : Question) (sent : Bool)
      (hquestion : Question.query datagram = .ok question)
      (hroom : s.queries.length < maxQueries) : Asked s { s with
        asked := s.asked ++ [(client, datagram)]
        queries :=
          if sent then s.queries ++ [⟨s.asked.length, client, question, s.now⟩]
          else s.queries }

/-- A query that is sent is asked. -/
theorem sendQuery_asked (s : Gateway T) (client : Endpoint) (datagram : Bytes)
    (opened sent : Bool) : Asked s (s.sendQuery client datagram opened sent) := by
  unfold sendQuery
  split
  · exact .refused
  rename_i hroom
  cases hquery : Question.query datagram with
  | error e =>
    cases e with
    | none => exact .refused
    | panic => exact absurd hquery Question.query_no_panic
  | ok question =>
    simp only
    split
    · exact .refused
    · exact .sent client datagram question sent hquery (by omega)

/-! ## Runs -/

/-- Every step keeps the tables in order. -/
theorem Tables.step (hT : T.Documented) {a : Act T} (h : s.Tables)
    (hstep : s.step W policy a = some s') :
    s'.Tables := by
  cases a with
  | tick d =>
    obtain rfl := Option.some.inj hstep
    exact { h with }
  | stack handle e =>
    obtain ⟨k, hk, rfl⟩ := Option.map_eq_some_iff.mp hstep
    obtain ⟨f, hf, rfl⟩ := h.owner handle k hk
    obtain ⟨k₁, hk₁, hrelayed⟩ := h.socket f hf
    obtain rfl := Option.some.inj (hk.symm.trans hk₁)
    have hadvances := Connection.poll_advances hT e k
    have hplace := h.place hf hk rfl rfl (hrelayed.advances hadvances) hadvances.closed
    rwa [h.setFlow_self hf] at hplace
  | connected thread ok =>
    simp only [Gateway.step] at hstep
    split at hstep
    · obtain rfl := Option.some.inj hstep
      exact h.report thread ok
    · cases hstep
  | ended thread =>
    simp only [Gateway.step] at hstep
    split at hstep
    · rename_i hthread
      obtain rfl := Option.some.inj hstep
      exact h.ended hthread
    · cases hstep
  | earlierEnded =>
    simp only [Gateway.step] at hstep
    split at hstep
    · cases hstep
    · obtain rfl := Option.some.inj hstep
      have hpermits := h.permits
      exact
        { h with
          permits := by
            show s.active - 1 = s.earlier - 1 + s.connectors.length
            omega
          limit := (Nat.sub_le _ _).trans h.limit }
  | frame frame host ident handle listens retired =>
    cases hround : s.round <;> simp only [Gateway.step, hround, reduceCtorEq] at hstep
    exact h.admits hT hround (admitFrame_admits hstep)
  | relay order =>
    cases hround : s.round <;> simp only [Gateway.step, hround, reduceCtorEq] at hstep
    split at hstep
    · obtain rfl := Option.some.inj hstep
      exact { h with removing := fun key hkey => (by cases hkey), quiet := .inl rfl }
    · cases hstep
  | pass io =>
    cases hround : s.round with
    | relaying keys =>
      cases keys with
      | nil => simp only [Gateway.step, hround, reduceCtorEq] at hstep
      | cons key todo =>
        simp only [Gateway.step, hround] at hstep
        cases hflow : s.flow key with
        | none =>
          rw [hflow] at hstep
          cases hstep
        | some f =>
          rw [hflow] at hstep
          obtain rfl := Option.some.inj hstep
          exact { h.passFlow hT hflow ⟨_, hround⟩ io with quiet := .inr ⟨todo, rfl⟩ }
    | _ => simp only [Gateway.step, hround, reduceCtorEq] at hstep
  | reclaim =>
    cases hround : s.round with
    | relaying keys =>
      cases keys with
      | nil =>
        simp only [Gateway.step, hround] at hstep
        obtain rfl := Option.some.inj hstep
        exact
          { h.drops fun key hkey => hkey with
            removing := fun key hkey => (by cases hkey)
            quiet := .inl rfl }
      | cons key todo => simp only [Gateway.step, hround, reduceCtorEq] at hstep
    | _ => simp only [Gateway.step, hround, reduceCtorEq] at hstep
  | query client datagram opened sent =>
    cases hround : s.round <;> simp only [Gateway.step, hround, reduceCtorEq] at hstep
    obtain rfl := Option.some.inj hstep
    have hasked := sendQuery_asked s client datagram opened sent
    generalize s.sendQuery client datagram opened sent = s' at hasked
    cases hasked with
    | refused => exact h
    | sent => exact { h with }
  | answers recv =>
    cases hround : s.round <;> simp only [Gateway.step, hround, reduceCtorEq] at hstep
    obtain rfl := Option.some.inj hstep
    exact { h with calm := answer_calm h.calm recv }
  | echoes recv =>
    cases hround : s.round <;> simp only [Gateway.step, hround, reduceCtorEq] at hstep
    obtain rfl := Option.some.inj hstep
    exact { h with quiet := hround ▸ h.quiet }
  | next =>
    cases hround : s.round <;> simp only [Gateway.step, hround, reduceCtorEq] at hstep
    obtain rfl := Option.some.inj hstep
    exact { h with quiet := .inl (h.quiet_of fun todo => by simp [hround]) }

/-- The tables of a new gateway are. -/
theorem init_tables {now earlier : ℕ} (h : earlier ≤ maxFlows) :
    (init now earlier : Gateway T).Tables where
  keyed := List.nodup_nil
  handles := List.nodup_nil
  bounded := Nat.zero_le _
  socket := fun f hf => by cases hf
  owner := fun handle k hk => by cases hk
  permits := rfl
  limit := h
  connectors := List.nodup_nil
  threads := fun c hc => by cases hc
  calm := rfl
  removing := fun key hkey => by cases hkey
  quiet := .inl rfl
  removed := fun p hp => by cases hp

/-- In every run of a link, whatever the guest, the hosts, the resolver and the threads do and in
whatever order, with sockets that do what smoltcp documents: each flow has one socket and each
socket one flow, there are at most 64, and the permits are those of the threads that still run, at
most 64; nothing panics; a socket is given up only when its connection is closed or in `TIME_WAIT`;
and between a socket and the host's stream all bytes stay in order, up to the end of the
connection. -/
theorem tables_sound (hT : T.Documented) {now earlier : ℕ} {as : List (Act T)}
    (hearlier : earlier ≤ maxFlows)
    (h : Trace (fun s a s' => s.step W policy a = some s') (init now earlier) as s) : s.Tables :=
  h.invariant (init_tables hearlier) fun hs hstep => hs.step hT hstep

end Gateway

section Sample

/-- A socket with buffers that are never full. -/
structure Passive where
  state : TcpState
  rx : Bytes

/-- A segment for a socket, or its timeout. -/
inductive Passive.Event where
  | syn
  | ack
  | data (bytes : Bytes)
  | fin
  | reset
  | timeout

/-- A TCP endpoint that was opened passively. -/
def Passive.poll (k : Passive) : Passive.Event → Passive
  | .syn => if k.state = .listen then { k with state := .synReceived } else k
  | .ack =>
      match k.state with
      | .synReceived => { k with state := .established }
      | .finWait1 => { k with state := .finWait2 }
      | .closing => { k with state := .timeWait }
      | .lastAck => { k with state := .closed }
      | _ => k
  | .data bytes =>
      match k.state with
      | .established => { k with rx := k.rx ++ bytes }
      | .finWait1 => { k with rx := k.rx ++ bytes }
      | .finWait2 => { k with rx := k.rx ++ bytes }
      | _ => k
  | .fin =>
      match k.state with
      | .established => { k with state := .closeWait }
      | .finWait1 => { k with state := .closing }
      | .finWait2 => { k with state := .timeWait }
      | _ => k
  | .reset =>
      match k.state with
      | .listen => k
      | .synReceived => { k with state := .listen }
      | _ => { k with state := .closed }
  | .timeout =>
      match k.state with
      | .listen => k
      -- at the end of `TIME_WAIT` the socket is reset, with what has not been read
      | .timeWait => ⟨.closed, []⟩
      | _ => { k with state := .closed }

/-- `close` of a socket that has listened. -/
def Passive.close (k : Passive) : Passive :=
  match k.state with
  | .listen => { k with state := .closed }
  | .synReceived => { k with state := .finWait1 }
  | .established => { k with state := .finWait1 }
  | .closeWait => { k with state := .lastAck }
  | _ => k

/-- Sockets that listen, exchange bytes and close, as a guest sees them. -/
def TcpSockets.passive : TcpSockets where
  Socket := Passive
  Event := Passive.Event
  listening := ⟨.listen, []⟩
  poll e k := k.poll e
  state := Passive.state
  canRecv k := !k.rx.isEmpty
  mayRecv k :=
    decide (k.state = .established ∨ k.state = .finWait1 ∨ k.state = .finWait2) || !k.rx.isEmpty
  canSend k := decide (k.state = .established ∨ k.state = .closeWait)
  buffered := Passive.rx
  contiguous := Passive.rx
  recv n k := { k with rx := k.rx.drop n }
  sendCapacity _ := 65536
  sendQueue _ := 0
  sendSlice bytes k :=
    (if k.state = .established ∨ k.state = .closeWait then some bytes.length else none, k)
  close := Passive.close
  abort k := { k with state := .closed }

/-- The passive socket behaves as documented. -/
theorem TcpSockets.passive_documented : TcpSockets.passive.Documented where
  listening := rfl
  mayRecv := fun k => by
    simp [passive, or_assoc]
  canSend := fun k h => of_decide_eq_true h
  contiguous := fun k => List.prefix_refl _
  recv := fun k n _ => ⟨rfl, rfl⟩
  sendSlice := fun k bytes => ⟨rfl, rfl⟩
  close := fun ⟨state, rx⟩ => by
    cases state <;> simp [passive, Passive.close]
  abort := fun k => ⟨rfl, List.prefix_refl _⟩
  closed := fun e ⟨state, rx⟩ h => by
    obtain rfl : state = .closed := h
    cases e <;> rfl
  opened := fun e ⟨state, rx⟩ h => by
    cases e <;> cases state <;> simp_all [passive, Passive.poll, TcpState.Open]
  arrives := fun e ⟨state, rx⟩ => by
    have hsame : ∃ more, rx = rx ++ more ∧ (more ≠ [] → state.Open) :=
      ⟨[], (List.append_nil rx).symm, fun h => absurd rfl h⟩
    cases e with
    | data bytes =>
      refine .inl ?_
      cases state with
      | established => exact ⟨bytes, rfl, fun _ => .inr (.inr (.inl rfl))⟩
      | finWait1 => exact ⟨bytes, rfl, fun _ => .inr (.inr (.inr (.inl rfl)))⟩
      | finWait2 => exact ⟨bytes, rfl, fun _ => .inr (.inr (.inr (.inr rfl)))⟩
      | _ => exact hsame
    | timeout =>
      cases state with
      | timeWait => exact .inr ⟨rfl, rfl⟩
      | _ => exact .inl hsame
    | _ => cases state <;> exact .inl hsame

/-- The guest connects and sends two bytes, the host answers with one. Then both close, and the flow
is taken out. -/
def twoBytes : List (Gateway.Act .passive) :=
  let key : Key := ⟨⟨1, 1, 1, 1⟩, 443, 40000⟩
  [.frame syn (some []) none 0 true none, .stack 0 .syn, .stack 0 .ack,
    .stack 0 (.data [104, 105]), .connected 0 true, .ended 0,
    .relay [key], .pass ⟨.bytes 2, .bytes [33]⟩, .reclaim, .next,
    .stack 0 .fin, .relay [key], .pass ⟨.wouldBlock, .bytes []⟩, .reclaim, .next,
    .stack 0 .ack, .relay [key], .pass ⟨.wouldBlock, .wouldBlock⟩, .reclaim]

end Sample

namespace Gateway

theorem tables_sound_two_bytes : ∃ s : Gateway .passive,
    s.removed.map (fun p => (p.1.toHost, p.1.fromHost)) = [([104, 105], [33])] ∧
      s.flows.length = 0 ∧ s.Tables := by
  have hrun : (twoBytes.foldlM (step .plain ⟨⟨9, 9, 9, 9⟩, []⟩) (init 0 0)).map
      (fun s => (s.removed.map fun p => (p.1.toHost, p.1.fromHost), s.flows.length)) =
        some ([([104, 105], [33])], 0) := by decide
  obtain ⟨s, hs, hbytes⟩ := Option.map_eq_some_iff.mp hrun
  exact ⟨s, congrArg Prod.fst hbytes, congrArg Prod.snd hbytes,
    tables_sound TcpSockets.passive_documented (Nat.zero_le _) (.of_foldlM hs)⟩

end Gateway

end AgentHouse.Netd
