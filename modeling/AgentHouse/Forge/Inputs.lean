import AgentHouse.Forge.Registry

/-!
# What reaches the input of a session

A call of `write_stdin` takes the handle out of its place, writes without a lock, and puts it back.
So the calls that got the handle wrote one after another: what the process read is their data in
the order in which they got it, each whole but the last.
-/

namespace AgentHouse.Forge.Manager

/-- The call has the handle in its hands. -/
def Writing.holding : Writing → Bool
  | .checking | .writing | .leaving _ | .restoring _ _ => true
  | .taking | .done _ => false

/-- The bytes of a call that were written. -/
def Input.sent (w : Input) : List UInt8 := w.data.take w.written

/-- What the call returns, once that is settled. -/
def Writing.result : Writing → Option Reply
  | .leaving result | .restoring result _ | .done result => some result
  | _ => none

/-- What the place of a call says of what it has written. -/
structure Input.Ok (w : Input) : Prop where
  le : w.written ≤ w.data.length
  untaken : w.pc = .taking → w.written = 0
  whole : w.pc.result = some .ok → w.written = w.data.length

namespace Session

variable {s s' : Session} {w w' : Input} {i : ℕ}

theorem handle_setHandle (present : Bool) : (s.setHandle present).handle = present := by
  unfold setHandle handle
  split
  · simp
  · simp

theorem setHandle_input (present : Bool) :
    (s.setHandle present).received = s.received ∧ (s.setHandle present).turns = s.turns ∧
      (s.setHandle present).isPty = s.isPty := by
  unfold setHandle
  split
  · exact ⟨rfl, rfl, rfl⟩
  · exact ⟨rfl, rfl, rfl⟩

/-- What each step of `write_stdin` does. -/
inductive Writes (s : Session) (i : ℕ) (w : Input) : Session → Input → Prop
  | take (hpc : w.pc = .taking) (hhandle : s.handle = true) :
      Writes s i w { s.setHandle false with turns := s.turns ++ [i] } { w with pc := .checking }
  | refuse {text : String} (hpc : w.pc = .taking) (hhandle : s.handle = false) :
      Writes s i w s { w with pc := .done (.error text) }
  /-- The loop goes on, or ends with an error. -/
  | goes {pc : Writing} (hpc : w.pc = .checking ∨ w.pc = .writing)
      (hgoes : pc = .checking ∨ pc = .writing ∨ ∃ text, pc = .leaving (.error text)) :
      Writes s i w s { w with pc }
  | whole (hpc : w.pc = .checking) (hwhole : ¬ w.written < w.data.length) :
      Writes s i w s { w with pc := .leaving .ok }
  | took {n : ℕ} (hpc : w.pc = .writing) (hn : w.written + n ≤ w.data.length) :
      Writes s i w { s with received := s.received ++ (w.data.drop w.written).take n }
        { w with written := w.written + n, pc := .checking }
  | leave {result : Reply} (hpc : w.pc = .leaving result) :
      Writes s i w s { w with pc := .restoring result s.exit.isNone }
  | restore {result : Reply} {alive : Bool} (hpc : w.pc = .restoring result alive) :
      Writes s i w (if result = .ok ∧ alive ∧ ¬ s.handle then s.setHandle true else s)
        { w with pc := .done result }

/-- One step of a write, as its cases. -/
theorem writes_of_write {late : Bool} {call : WriteCall}
    (h : s.write i w late call = some (s', w')) : s.Writes i w s' w' := by
  unfold write at h
  cases hpc : w.pc with
  | taking =>
    simp only [hpc] at h
    split at h
    · rename_i hhandle
      cases h
      exact .take hpc hhandle
    · rename_i hhandle
      cases h
      exact .refuse hpc (by simpa using hhandle)
  | checking =>
    simp only [hpc] at h
    split at h
    · split at h
      · cases h
        exact .goes (.inl hpc) (.inr (.inr ⟨_, rfl⟩))
      · split at h
        · cases h
          exact .goes (.inl hpc) (.inr (.inr ⟨_, rfl⟩))
        · cases h
          exact .goes (.inl hpc) (.inr (.inl rfl))
    · rename_i hwhole
      cases h
      exact .whole hpc hwhole
  | writing =>
    simp only [hpc] at h
    cases call with
    | took n =>
      simp only [Option.ite_none_right_eq_some, Option.some.injEq, Prod.mk.injEq] at h
      obtain ⟨hn, rfl, rfl⟩ := h
      exact .took hpc hn
    | again =>
      cases h
      exact .goes (.inr hpc) (.inl rfl)
    | failed err =>
      cases h
      exact .goes (.inr hpc) (.inr (.inr ⟨_, rfl⟩))
  | leaving result =>
    simp only [hpc] at h
    cases h
    exact .leave hpc
  | restoring result alive =>
    simp only [hpc] at h
    cases h
    exact .restore hpc
  | done result =>
    simp only [hpc] at h
    cases h

/-- A write stays with its session and its data. -/
theorem Writes.session (h : s.Writes i w s' w') : w'.session = w.session ∧ w'.data = w.data := by
  cases h <;> exact ⟨rfl, rfl⟩

/-- It does not touch the exit. -/
theorem Writes.exit (h : s.Writes i w s' w') : s'.exit = s.exit ∧ s'.child = s.child := by
  cases h with
  | take =>
    obtain ⟨-, -, -, hchild, hexit⟩ := State.setHandle_evolves (s := s) false
    exact ⟨hexit, hchild⟩
  | restore =>
    obtain ⟨-, -, -, hchild, hexit⟩ := State.setHandle_evolves (s := s) true
    split
    · exact ⟨hexit, hchild⟩
    · exact ⟨rfl, rfl⟩
  | _ => exact ⟨rfl, rfl⟩

/-- It goes on in order. -/
theorem Writes.ok (h : s.Writes i w s' w') (hok : w.Ok) : w'.Ok := by
  cases h with
  | take | refuse => exact ⟨hok.le, nofun, nofun⟩
  | goes _ hgoes =>
    rcases hgoes with rfl | rfl | ⟨text, rfl⟩
    · exact ⟨hok.le, nofun, nofun⟩
    · exact ⟨hok.le, nofun, nofun⟩
    · exact ⟨hok.le, nofun, nofun⟩
  | whole _ hwhole => exact ⟨hok.le, nofun, fun _ => le_antisymm hok.le (not_lt.mp hwhole)⟩
  | took _ hn => exact ⟨hn, nofun, nofun⟩
  | leave hpc => exact ⟨hok.le, nofun, fun hresult => hok.whole (by rw [hpc]; exact hresult)⟩
  | restore hpc => exact ⟨hok.le, nofun, fun hresult => hok.whole (by rw [hpc]; exact hresult)⟩

end Session

namespace State

variable {m m' : State} {e : Event} {n i : ℕ} {s s' : Session}

/-- What a call has written. -/
def sent (m : State) (i : ℕ) : List UInt8 := (m.inputs[i]?.map Input.sent).getD []

/-- The call has returned without an error. -/
def Accepted (m : State) (i : ℕ) : Prop := ∃ w, m.inputs[i]? = some w ∧ w.pc = .done .ok

/-- The calls of one session: they had the handle one after another, and only the last can be at
work or have failed. -/
structure Fed (m : State) (n : ℕ) (s : Session) : Prop where
  received : s.received = (s.turns.map m.sent).flatten
  nodup : s.turns.Nodup
  turns : ∀ i ∈ s.turns, ∃ w, m.inputs[i]? = some w ∧ w.session = n ∧ w.pc ≠ .taking
  earlier : ∀ i ∈ s.turns.dropLast, m.Accepted i
  /-- A handle in its place was put back by the last call. -/
  handle : s.handle = true → ∀ i ∈ s.turns, m.Accepted i
  /-- A handle that is gone is in the hands of the last call, or that call failed, or the session
  has ended. -/
  gone : s.handle = false → s.child ≠ none →
    s.exit ≠ none ∨ ∃ i, s.turns.getLast? = some i ∧ ¬ m.Accepted i
  untaken : ∀ (i : ℕ) (w : Input), m.inputs[i]? = some w → w.session = n → i ∉ s.turns →
    w.written = 0 ∧ w.pc.holding = false ∧ w.pc.result ≠ some .ok
  holder : ∀ (i : ℕ) (w : Input), m.inputs[i]? = some w → w.session = n → w.pc.holding = true →
    s.handle = false
  /-- A call that finds the session ended finds it so for good. -/
  dead : ∀ (i : ℕ) (w : Input) (result : Reply), m.inputs[i]? = some w → w.session = n →
    w.pc = .restoring result false → s.exit ≠ none

section Sets

variable {w' : Input} (hinputs : m'.inputs = m.inputs.set i w')
include hinputs

/-- Other writes are not touched. -/
theorem inputs_ne {j : ℕ} (hj : j ≠ i) : m'.inputs[j]? = m.inputs[j]? := by
  rw [hinputs, List.getElem?_set_ne (Ne.symm hj)]

theorem sent_ne {j : ℕ} (hj : j ≠ i) : m'.sent j = m.sent j := by
  rw [sent, inputs_ne hinputs hj, sent]

theorem accepted_ne {j : ℕ} (hj : j ≠ i) : m'.Accepted j ↔ m.Accepted j := by
  rw [Accepted, inputs_ne hinputs hj, Accepted]

theorem inputs_self {w : Input} (hw : m.inputs[i]? = some w) : m'.inputs[i]? = some w' := by
  rw [hinputs, List.getElem?_set_self (List.getElem?_eq_some_iff.mp hw).1]

end Sets

theorem sent_of {w : Input} (hw : m.inputs[i]? = some w) : m.sent i = w.sent := by
  rw [sent, hw]
  rfl

theorem accepted_of {w : Input} (hw : m.inputs[i]? = some w) : m.Accepted i ↔ w.pc = .done .ok := by
  rw [Accepted, hw]
  simp

/-- A call at work is the last that got the handle, and all before it are done. -/
theorem Fed.last (h : m.Fed n s) {w : Input} (hw : m.inputs[i]? = some w) (hsession : w.session = n)
    (hholding : w.pc.holding = true) :
    ∃ pre, s.turns = pre ++ [i] ∧ i ∉ pre ∧ ∀ j ∈ pre, m.Accepted j := by
  have hmem : i ∈ s.turns := by
    by_contra hnot
    have hno := (h.untaken i w hw hsession hnot).2.1
    rw [hholding] at hno
    cases hno
  have hnot : ¬ m.Accepted i := by
    rw [accepted_of hw]
    intro hpc
    rw [hpc] at hholding
    cases hholding
  have hne : s.turns ≠ [] := List.ne_nil_of_mem hmem
  have hsplit := List.dropLast_append_getLast hne
  have hi : i = s.turns.getLast hne := by
    rw [← hsplit] at hmem
    rcases List.mem_append.mp hmem with hmem | hmem
    · exact (hnot (h.earlier i hmem)).elim
    · exact List.mem_singleton.mp hmem
  refine ⟨s.turns.dropLast, by rw [hi, hsplit], fun hmem => hnot (h.earlier i hmem), h.earlier⟩

/-- The step of a call does nothing to the calls of other sessions. -/
theorem Fed.other (h : m.Fed n s) {w w' : Input} (hw : m.inputs[i]? = some w)
    (hsession : w.session ≠ n) (hsession' : w'.session = w.session)
    (hinputs : m'.inputs = m.inputs.set i w') : m'.Fed n s := by
  have hne : ∀ j ∈ s.turns, j ≠ i := by
    rintro j hj rfl
    obtain ⟨v, hv, hvn, -⟩ := h.turns j hj
    rw [hw] at hv
    cases hv
    exact hsession hvn
  have hback : ∀ {j : ℕ} {v : Input}, m'.inputs[j]? = some v → v.session = n →
      m.inputs[j]? = some v := by
    intro j v hv hvn
    by_cases hj : j = i
    · subst hj
      rw [inputs_self hinputs hw] at hv
      cases hv
      exact (hsession (hsession'.symm.trans hvn)).elim
    · rwa [inputs_ne hinputs hj] at hv
  refine ⟨?_, h.nodup, fun j hj => ?_, fun j hj => ?_, fun hhandle j hj => ?_, fun hhandle hc => ?_,
    fun j v hv hvn => h.untaken j v (hback hv hvn) hvn,
    fun j v hv hvn => h.holder j v (hback hv hvn) hvn,
    fun j v result hv hvn => h.dead j v result (hback hv hvn) hvn⟩
  · rw [h.received]
    congr 1
    exact List.map_congr_left fun j hj => (sent_ne hinputs (hne j hj)).symm
  · rw [inputs_ne hinputs (hne j hj)]
    exact h.turns j hj
  · rw [accepted_ne hinputs (hne j (List.mem_of_mem_dropLast hj))]
    exact h.earlier j hj
  · rw [accepted_ne hinputs (hne j hj)]
    exact h.handle hhandle j hj
  · refine (h.gone hhandle hc).imp id fun hlast => ?_
    obtain ⟨j, hj, hno⟩ := hlast
    exact ⟨j, hj, by rwa [accepted_ne hinputs (hne j (List.mem_of_getLast? hj))]⟩

/-- A session changes, and its calls do not. -/
theorem Fed.congr (h : m.Fed n s) (hinputs : m'.inputs = m.inputs)
    (hreceived : s'.received = s.received) (hturns : s'.turns = s.turns)
    (hchild : s'.child = none ↔ s.child = none)
    (hexit : s.exit ≠ none → s'.exit ≠ none)
    (hhandle : s'.handle = s.handle ∨ s'.handle = false ∧ s'.exit ≠ none) : m'.Fed n s' := by
  have hsent : m'.sent = m.sent := by
    funext j
    rw [sent, hinputs, sent]
  have haccepted : ∀ j, m'.Accepted j ↔ m.Accepted j := by
    intro j
    rw [Accepted, hinputs, Accepted]
  have hkept : s'.handle = true → s.handle = true := by
    intro htrue
    rcases hhandle with hsame | ⟨hfalse, -⟩
    · exact hsame ▸ htrue
    · rw [htrue] at hfalse
      cases hfalse
  constructor
  · rw [hreceived, hturns, hsent]
    exact h.received
  · rw [hturns]
    exact h.nodup
  · rw [hturns, hinputs]
    exact h.turns
  · rw [hturns]
    exact fun j hj => (haccepted j).mpr (h.earlier j hj)
  · rw [hturns]
    exact fun htrue j hj => (haccepted j).mpr (h.handle (hkept htrue) j hj)
  · intro hfalse hc
    rcases hhandle with hsame | ⟨-, hdead⟩
    · rw [hturns]
      refine (h.gone (hsame ▸ hfalse) (fun hnone => hc (hchild.mpr hnone))).imp hexit
        fun hlast => ?_
      obtain ⟨j, hj, hno⟩ := hlast
      exact ⟨j, hj, fun hyes => hno ((haccepted j).mp hyes)⟩
    · exact .inl hdead
  · rw [hinputs, hturns]
    exact h.untaken
  · rw [hinputs]
    intro j v hv hvn hholding
    have hfalse := h.holder j v hv hvn hholding
    rcases hhandle with hsame | ⟨hfalse', -⟩
    · exact hsame.trans hfalse
    · exact hfalse'
  · rw [hinputs]
    exact fun j v result hv hvn hpc => hexit (h.dead j v result hv hvn hpc)

/-- A call gets the handle. -/
theorem Fed.take (h : m.Fed n s) {w : Input} (hw : m.inputs[i]? = some w) (hsession : w.session = n)
    (hok : w.Ok) (hpc : w.pc = .taking) (hhandle : s.handle = true)
    (hinputs : m'.inputs = m.inputs.set i { w with pc := .checking }) :
    m'.Fed n { s.setHandle false with turns := s.turns ++ [i] } := by
  obtain ⟨hreceived, -, -⟩ := s.setHandle_input false
  have hnot : i ∉ s.turns := by
    intro hmem
    obtain ⟨v, hv, -, htaken⟩ := h.turns i hmem
    rw [hw] at hv
    cases hv
    exact htaken hpc
  have hne : ∀ j ∈ s.turns, j ≠ i := fun j hj hji => hnot (hji ▸ hj)
  have hself := inputs_self hinputs hw
  have hfalse : Session.handle { s.setHandle false with turns := s.turns ++ [i] } = false :=
    s.handle_setHandle false
  have hback : ∀ {j : ℕ} {v : Input}, m'.inputs[j]? = some v → j ≠ i → m.inputs[j]? = some v :=
    fun hv hj => by rwa [inputs_ne hinputs hj] at hv
  constructor
  · rw [List.map_append, List.flatten_append, List.map_singleton, sent_of hself]
    have hempty : Input.sent { w with pc := .checking } = [] := by
      simp [Input.sent, hok.untaken hpc]
    rw [hempty]
    simp only [List.flatten_singleton, List.append_nil]
    rw [hreceived, h.received]
    congr 1
    exact List.map_congr_left fun j hj => (sent_ne hinputs (hne j hj)).symm
  · exact List.nodup_append.mpr ⟨h.nodup, List.nodup_singleton i, fun j hj k hk => by
      rw [List.mem_singleton.mp hk]
      exact hne j hj⟩
  · intro j hj
    rcases Table.mem_snoc.mp hj with hj | rfl
    · rw [inputs_ne hinputs (hne j hj)]
      exact h.turns j hj
    · exact ⟨_, hself, hsession, nofun⟩
  · intro j hj
    rw [List.dropLast_concat] at hj
    rw [accepted_ne hinputs (hne j hj)]
    exact h.handle hhandle j hj
  · intro htrue
    rw [hfalse] at htrue
    cases htrue
  · refine fun _ _ => .inr ⟨i, List.getLast?_concat, fun haccepted => ?_⟩
    rw [accepted_of hself] at haccepted
    cases haccepted
  · intro j v hv hvn hj
    have hji : j ≠ i := fun hji => hj (List.mem_append_right _ (hji ▸ List.mem_singleton_self j))
    exact h.untaken j v (hback hv hji) hvn fun hmem => hj (List.mem_append_left _ hmem)
  · exact fun _ _ _ _ _ => hfalse
  · intro j v result hv hvn hpc
    by_cases hji : j = i
    · subst hji
      rw [hself] at hv
      cases hv
      cases hpc
    · have hexit := h.dead j v result (hback hv hji) hvn hpc
      obtain ⟨-, -, -, -, hsame⟩ := setHandle_evolves (s := s) false
      exact fun hnone => hexit (hsame.symm.trans hnone)

/-- A call is refused. -/
theorem Fed.refuse (h : m.Fed n s) {w : Input} {text : String} (hw : m.inputs[i]? = some w)
    (hok : w.Ok) (hpc : w.pc = .taking)
    (hinputs : m'.inputs = m.inputs.set i { w with pc := .done (.error text) }) : m'.Fed n s := by
  have hnot : i ∉ s.turns := by
    intro hmem
    obtain ⟨v, hv, -, htaken⟩ := h.turns i hmem
    rw [hw] at hv
    cases hv
    exact htaken hpc
  have hne : ∀ j ∈ s.turns, j ≠ i := fun j hj hji => hnot (hji ▸ hj)
  have hself := inputs_self hinputs hw
  have hback : ∀ {j : ℕ} {v : Input}, m'.inputs[j]? = some v → j ≠ i → m.inputs[j]? = some v :=
    fun hv hj => by rwa [inputs_ne hinputs hj] at hv
  constructor
  · rw [h.received]
    congr 1
    exact List.map_congr_left fun j hj => (sent_ne hinputs (hne j hj)).symm
  · exact h.nodup
  · intro j hj
    rw [inputs_ne hinputs (hne j hj)]
    exact h.turns j hj
  · intro j hj
    rw [accepted_ne hinputs (hne j (List.mem_of_mem_dropLast hj))]
    exact h.earlier j hj
  · intro htrue j hj
    rw [accepted_ne hinputs (hne j hj)]
    exact h.handle htrue j hj
  · intro hfalse hc
    refine (h.gone hfalse hc).imp id fun hlast => ?_
    obtain ⟨j, hj, hno⟩ := hlast
    exact ⟨j, hj, by rwa [accepted_ne hinputs (hne j (List.mem_of_getLast? hj))]⟩
  · intro j v hv hvn hj
    by_cases hji : j = i
    · subst hji
      rw [hself] at hv
      cases hv
      exact ⟨hok.untaken hpc, rfl, nofun⟩
    · exact h.untaken j v (hback hv hji) hvn hj
  · intro j v hv hvn hholding
    by_cases hji : j = i
    · subst hji
      rw [hself] at hv
      cases hv
      cases hholding
    · exact h.holder j v (hback hv hji) hvn hholding
  · intro j v result hv hvn hpc
    by_cases hji : j = i
    · subst hji
      rw [hself] at hv
      cases hv
      cases hpc
    · exact h.dead j v result (hback hv hji) hvn hpc

/-- A call that has the handle goes on; when it gives the handle back, it is done. -/
theorem Fed.work (h : m.Fed n s) (ext : List UInt8) {w w' : Input} (hw : m.inputs[i]? = some w)
    (hsession : w.session = n) (hholding : w.pc.holding = true)
    (hinputs : m'.inputs = m.inputs.set i w') (hsession' : w'.session = n) (hpc' : w'.pc ≠ .taking)
    (hturns : s'.turns = s.turns) (hexit : s'.exit = s.exit)
    (hreceived : s'.received = s.received ++ ext) (hsent : w'.sent = w.sent ++ ext)
    (hput : s'.handle = true → w'.pc = .done .ok)
    (hgone : s'.handle = false → s.exit ≠ none ∨ w'.pc ≠ .done .ok)
    (hdead : ∀ result, w'.pc = .restoring result false → s.exit ≠ none) : m'.Fed n s' := by
  obtain ⟨pre, hpre, hnot, hdone⟩ := h.last hw hsession hholding
  have hne : ∀ j ∈ pre, j ≠ i := fun j hj hji => hnot (hji ▸ hj)
  have hself := inputs_self hinputs hw
  have hback : ∀ {j : ℕ} {v : Input}, m'.inputs[j]? = some v → j ≠ i → m.inputs[j]? = some v :=
    fun hv hj => by rwa [inputs_ne hinputs hj] at hv
  -- No other call of the session has the handle.
  have halone : ∀ {j : ℕ} {v : Input}, m'.inputs[j]? = some v → v.session = n →
      v.pc.holding = true → j = i := by
    intro j v hv hvn hheld
    by_contra hji
    obtain ⟨pre', hpre', -⟩ := h.last (hback hv hji) hvn hheld
    rw [hpre] at hpre'
    exact hji (by simpa using (List.append_inj' hpre' rfl).2.symm)
  have hbefore : ∀ j ∈ pre, m'.Accepted j :=
    fun j hj => (accepted_ne hinputs (hne j hj)).mpr (hdone j hj)
  constructor
  · rw [hreceived, h.received, hturns, hpre, List.map_append, List.map_append, List.flatten_append,
      List.flatten_append, List.map_singleton, List.map_singleton, List.flatten_singleton,
      List.flatten_singleton, sent_of hw, sent_of hself, hsent, List.append_assoc]
    congr 2
    exact List.map_congr_left fun j hj => (sent_ne hinputs (hne j hj)).symm
  · rw [hturns]
    exact h.nodup
  · intro j hj
    rw [hturns] at hj
    by_cases hji : j = i
    · subst hji
      exact ⟨w', hself, hsession', hpc'⟩
    · rw [inputs_ne hinputs hji]
      exact h.turns j hj
  · intro j hj
    rw [hturns, hpre, List.dropLast_concat] at hj
    exact hbefore j hj
  · intro htrue j hj
    rw [hturns, hpre] at hj
    rcases Table.mem_snoc.mp hj with hj | rfl
    · exact hbefore j hj
    · exact (accepted_of hself).mpr (hput htrue)
  · intro hfalse _
    rw [hexit]
    refine (hgone hfalse).imp id fun hno => ⟨i, ?_, fun hyes => hno ((accepted_of hself).mp hyes)⟩
    rw [hturns, hpre, List.getLast?_concat]
  · intro j v hv hvn hj
    rw [hturns] at hj
    have hji : j ≠ i := by
      rintro rfl
      exact hj (hpre ▸ List.mem_append_right _ (List.mem_singleton_self j))
    exact h.untaken j v (hback hv hji) hvn hj
  · intro j v hv hvn hheld
    have hji := halone hv hvn hheld
    subst hji
    rw [hself] at hv
    cases hv
    cases hhandle : s'.handle with
    | false => rfl
    | true =>
      rw [hput hhandle] at hheld
      cases hheld
  · intro j v result hv hvn hpc
    rw [hexit]
    have hji := halone hv hvn (by rw [hpc]; rfl)
    subst hji
    rw [hself] at hv
    cases hv
    exact hdead result hpc

/-- Each step of a call keeps its session in order. -/
theorem Fed.writes (h : m.Fed n s) {w w' : Input} (hw : m.inputs[i]? = some w)
    (hsession : w.session = n) (hok : w.Ok) (hwrite : s.Writes i w s' w')
    (hinputs : m'.inputs = m.inputs.set i w') : m'.Fed n s' := by
  have hholder := h.holder i w hw hsession
  cases hwrite with
  | take hpc hhandle => exact h.take hw hsession hok hpc hhandle hinputs
  | refuse hpc => exact h.refuse hw hok hpc hinputs
  | @goes pc hpc hgoes =>
    have hheld : w.pc.holding = true := by rcases hpc with hpc | hpc <;> rw [hpc] <;> rfl
    have hpc' : pc ≠ .taking ∧ pc ≠ .done .ok ∧ ∀ result, pc ≠ .restoring result false := by
      rcases hgoes with rfl | rfl | ⟨text, rfl⟩
      · exact ⟨nofun, nofun, nofun⟩
      · exact ⟨nofun, nofun, nofun⟩
      · exact ⟨nofun, nofun, nofun⟩
    exact h.work [] hw hsession hheld hinputs hsession hpc'.1 rfl rfl (by simp)
      (by simp [Input.sent]) (fun htrue => by rw [hholder hheld] at htrue; cases htrue)
      (fun _ => .inr hpc'.2.1) fun result hr => (hpc'.2.2 result hr).elim
  | whole hpc =>
    have hheld : w.pc.holding = true := by rw [hpc]; rfl
    exact h.work [] hw hsession hheld hinputs hsession nofun rfl rfl (by simp)
      (by simp [Input.sent]) (fun htrue => by rw [hholder hheld] at htrue; cases htrue)
      (fun _ => .inr nofun) nofun
  | @took k hpc hk =>
    have hheld : w.pc.holding = true := by rw [hpc]; rfl
    refine h.work ((w.data.drop w.written).take k) hw hsession hheld hinputs hsession nofun
      rfl rfl rfl ?_ (fun htrue => ?_) (fun _ => .inr nofun) nofun
    · exact List.take_add
    · have hfalse : s.handle = true := htrue
      rw [hholder hheld] at hfalse
      cases hfalse
  | @leave result hpc =>
    have hheld : w.pc.holding = true := by rw [hpc]; rfl
    refine h.work [] hw hsession hheld hinputs hsession nofun rfl rfl (by simp)
      (by simp [Input.sent]) (fun htrue => by rw [hholder hheld] at htrue; cases htrue)
      (fun _ => .inr nofun) fun result' hr => ?_
    simp only [Writing.restoring.injEq, Option.isNone_eq_false_iff] at hr
    exact Option.isSome_iff_ne_none.mp hr.2
  | @restore result alive hpc =>
    have hheld : w.pc.holding = true := by rw [hpc]; rfl
    have hfalse := hholder hheld
    obtain ⟨hreceived, hturns, -⟩ := s.setHandle_input true
    obtain ⟨-, -, -, -, hexit⟩ := setHandle_evolves (s := s) true
    by_cases hback : result = .ok ∧ alive = true ∧ ¬ s.handle = true
    · rw [if_pos hback]
      exact h.work [] hw hsession hheld hinputs hsession nofun hturns hexit
        (by simp [hreceived]) (by simp [Input.sent]) (fun _ => by rw [hback.1])
        (fun hgone => by rw [s.handle_setHandle] at hgone; cases hgone) nofun
    · rw [if_neg hback]
      refine h.work [] hw hsession hheld hinputs hsession nofun rfl rfl (by simp)
        (by simp [Input.sent]) (fun htrue => by rw [hfalse] at htrue; cases htrue)
        (fun _ => ?_) nofun
      -- It is not put back: the call failed, or it had found the session ended.
      by_cases hresult : result = .ok
      · subst hresult
        have halive : alive = false := by simpa [hfalse] using hback
        subst halive
        exact .inl (h.dead i w .ok hw hsession hpc)
      · exact .inr fun hdone => hresult (by simpa using hdone)

/-- A new call is before its turn. -/
theorem Fed.call (h : m.Fed n s) {data : List UInt8} {k : ℕ}
    (hinputs : m'.inputs = m.inputs ++ [{ session := k, data }]) : m'.Fed n s := by
  have hold : ∀ {j : ℕ}, j ∈ s.turns → m'.inputs[j]? = m.inputs[j]? := by
    intro j hj
    obtain ⟨v, hv, -⟩ := h.turns j hj
    rw [hinputs, List.getElem?_append_left (List.getElem?_eq_some_iff.mp hv).1]
  have hsent : ∀ j ∈ s.turns, m.sent j = m'.sent j := fun j hj => by rw [sent, sent, hold hj]
  have haccepted : ∀ j ∈ s.turns, (m'.Accepted j ↔ m.Accepted j) :=
    fun j hj => by rw [Accepted, Accepted, hold hj]
  have hback : ∀ {j : ℕ} {v : Input}, m'.inputs[j]? = some v → m.inputs[j]? = some v ∨
      v = { session := k, data } := by
    intro j v hv
    rw [hinputs] at hv
    exact (Table.getElem?_snoc hv).imp id And.right
  constructor
  · rw [h.received]
    congr 1
    exact List.map_congr_left hsent
  · exact h.nodup
  · intro j hj
    rw [hold hj]
    exact h.turns j hj
  · exact fun j hj => (haccepted j (List.mem_of_mem_dropLast hj)).mpr (h.earlier j hj)
  · exact fun htrue j hj => (haccepted j hj).mpr (h.handle htrue j hj)
  · refine fun hfalse hc => (h.gone hfalse hc).imp id fun hlast => ?_
    obtain ⟨j, hj, hno⟩ := hlast
    exact ⟨j, hj, fun hyes => hno ((haccepted j (List.mem_of_getLast? hj)).mp hyes)⟩
  · intro j v hv hvn hj
    rcases hback hv with hv | rfl
    · exact h.untaken j v hv hvn hj
    · exact ⟨rfl, rfl, nofun⟩
  · intro j v hv hvn hheld
    rcases hback hv with hv | rfl
    · exact h.holder j v hv hvn hheld
    · cases hheld
  · intro j v result hv hvn hpc
    rcases hback hv with hv | rfl
    · exact h.dead j v result hv hvn hpc
    · cases hpc

/-- A session that no call knows. -/
theorem fed_new (hreceived : s.received = []) (hturns : s.turns = [])
    (hhandle : s.handle = true ∨ s.child = none)
    (hnone : ∀ (i : ℕ) (w : Input), m.inputs[i]? = some w → w.session ≠ n) : m.Fed n s := by
  constructor
  · rw [hreceived, hturns]
    rfl
  · rw [hturns]
    exact List.nodup_nil
  · simp [hturns]
  · simp [hturns]
  · simp [hturns]
  · intro hfalse hc
    rcases hhandle with htrue | hnochild
    · rw [htrue] at hfalse
      cases hfalse
    · exact (hc hnochild).elim
  · exact fun i w hw hn _ => (hnone i w hw hn).elim
  · exact fun i w hw hn => (hnone i w hw hn).elim
  · exact fun i w _ hw hn => (hnone i w hw hn).elim

/-- What holds of the calls of `write_stdin` in every state reached. -/
structure Served (m : State) : Prop where
  ok : ∀ (i : ℕ) (w : Input), m.inputs[i]? = some w → w.Ok
  bound : ∀ (i : ℕ) (w : Input), m.inputs[i]? = some w → w.session < m.objects.length
  fed : ∀ (n : ℕ) (s : Session), m.objects[n]? = some s → m.Fed n s
  closing : ∀ (n : ℕ) (s : Session), m.objects[n]? = some s → Published s → s.exit ≠ none
  deleted : ∀ d ∈ m.deletes, d.pc ≠ .removed → ∀ s, m.objects[d.session]? = some s → s.exit ≠ none

/-- One session changes, and neither its input nor its calls. -/
theorem Served.set (h : m.Served) (hs : m.objects[n]? = some s)
    (hobjects : m'.objects = m.objects.set n s') (hinputs : m'.inputs = m.inputs)
    (hdeletes : ∀ d ∈ m'.deletes, d.pc ≠ .removed →
      (∃ d₀ ∈ m.deletes, d₀.session = d.session ∧ d₀.pc ≠ .removed) ∨
        d.session = n ∧ s'.exit ≠ none)
    (hreceived : s'.received = s.received) (hturns : s'.turns = s.turns)
    (hchild : s'.child = none ↔ s.child = none) (hexit : s.exit ≠ none → s'.exit ≠ none)
    (hhandle : s'.handle = s.handle ∨ s'.handle = false ∧ s'.exit ≠ none)
    (hclosing : Published s' → s'.exit ≠ none) : m'.Served := by
  constructor
  · rw [hinputs]
    exact h.ok
  · rw [hinputs, hobjects, List.length_set]
    exact h.bound
  · intro k t ht
    rw [hobjects] at ht
    rcases Table.getElem?_replaced ht with ⟨rfl, rfl⟩ | ⟨-, ht⟩
    · exact (h.fed k s hs).congr hinputs hreceived hturns hchild hexit hhandle
    · exact (h.fed k t ht).congr hinputs rfl rfl Iff.rfl id (.inl rfl)
  · intro k t ht
    rw [hobjects] at ht
    rcases Table.getElem?_replaced ht with ⟨rfl, rfl⟩ | ⟨-, ht⟩
    · exact hclosing
    · exact h.closing k t ht
  · intro d hd hpc t ht
    rw [hobjects] at ht
    rcases Table.getElem?_replaced ht with ⟨hn, rfl⟩ | ⟨hne, ht⟩
    · rcases hdeletes d hd hpc with ⟨d₀, hd₀, hsession, hpc₀⟩ | ⟨-, hdead⟩
      · exact hexit (h.deleted d₀ hd₀ hpc₀ s (by rw [hsession, hn, hs]))
      · exact hdead
    · rcases hdeletes d hd hpc with ⟨d₀, hd₀, hsession, hpc₀⟩ | ⟨hn, -⟩
      · exact h.deleted d₀ hd₀ hpc₀ t (by rw [hsession, ht])
      · exact (hne hn).elim

/-- A new session has received nothing. -/
theorem Served.append (h : m.Served) (hregistered : m.Registered)
    (hobjects : m'.objects = m.objects ++ [s]) (hinputs : m'.inputs = m.inputs)
    (hdeletes : m'.deletes = m.deletes) (hreceived : s.received = []) (hturns : s.turns = [])
    (hhandle : s.handle = true ∨ s.child = none) (hnew : ¬ Published s) : m'.Served := by
  have hcases : ∀ {k : ℕ} {t : Session}, m'.objects[k]? = some t →
      m.objects[k]? = some t ∨ k = m.objects.length ∧ t = s := by
    intro k t ht
    rw [hobjects] at ht
    exact Table.getElem?_snoc ht
  constructor
  · rw [hinputs]
    exact h.ok
  · intro i w hw
    rw [hinputs] at hw
    rw [hobjects, List.length_append]
    exact Nat.lt_add_right _ (h.bound i w hw)
  · intro k t ht
    rcases hcases ht with ht | ⟨rfl, rfl⟩
    · exact (h.fed k t ht).congr hinputs rfl rfl Iff.rfl id (.inl rfl)
    · refine fed_new hreceived hturns hhandle fun i w hw hn => ?_
      rw [hinputs] at hw
      exact absurd (h.bound i w hw) (by omega)
  · intro k t ht hp
    rcases hcases ht with ht | ⟨-, rfl⟩
    · exact h.closing k t ht hp
    · exact (hnew hp).elim
  · intro d hd hpc t ht
    rw [hdeletes] at hd
    rcases hcases ht with ht | ⟨hn, rfl⟩
    · exact h.deleted d hd hpc t ht
    · exact absurd (hregistered.deletes d hd) (by omega)

/-- The process of a session does something, or its reaper does, and the exit stays. -/
theorem Served.child (h : m.Served) {c c' : Child} (hs : m.objects[n]? = some s)
    (hc : s.child = some c) (hobjects : m'.objects = m.objects.set n { s with child := some c' })
    (hinputs : m'.inputs = m.inputs) (hdeletes : m'.deletes = m.deletes)
    (hreaper : c'.reaper = .closing ∨ c'.reaper = .ended → s.exit ≠ none) : m'.Served := by
  refine h.set hs hobjects hinputs (fun d hd hpc => .inl ⟨d, hdeletes ▸ hd, rfl, hpc⟩) rfl rfl
    (by simp [hc]) id (.inl rfl) fun hp => ?_
  obtain ⟨d, hd, hpc⟩ := hp
  cases hd
  exact hreaper hpc

/-- A reaper takes no byte. -/
theorem Served.reaps (h : m.Served) {pgid : Option ℕ} (hs : m.objects[n]? = some s)
    (hreap : s.Reaps s' pgid) (hobjects : m'.objects = m.objects.set n s')
    (hinputs : m'.inputs = m.inputs) (hdeletes : m'.deletes = m.deletes) : m'.Served := by
  cases hreap with
  | @observe c o hc => exact h.child hs hc hobjects hinputs hdeletes (by simp)
  | @signal c signal fallback hc => exact h.child hs hc hobjects hinputs hdeletes (by simp)
  | @wait c fallback code reaped hc => exact h.child hs hc hobjects hinputs hdeletes (by simp)
  | @poll c left code hc => exact h.child hs hc hobjects hinputs hdeletes (by simp)
  | @take c o signal fallback hc =>
    refine h.set hs hobjects hinputs (fun d hd hpc => .inl ⟨d, hdeletes ▸ hd, rfl, hpc⟩) rfl rfl
      (by simp [hc, Session.goes]) id (.inl rfl) fun hp => ?_
    obtain ⟨d, hd, hpc⟩ := hp
    cases hd
    simp at hpc
  | @publish c left code hc =>
    exact h.set hs hobjects hinputs (fun d hd hpc => .inl ⟨d, hdeletes ▸ hd, rfl, hpc⟩) rfl rfl
      (by simp [hc, Session.goes]) (fun _ => by simp) (.inl rfl) fun _ => by simp
  | @close c hc hpc =>
    have hdead : s.exit ≠ none := h.closing n s hs ⟨c, hc, .inl hpc⟩
    obtain ⟨hreceived, hturns, -⟩ := (s.goes c .ended).setHandle_input false
    obtain ⟨-, -, -, hchild, hexit⟩ := setHandle_evolves (s := s.goes c .ended) false
    have hdead' : ((s.goes c .ended).setHandle false).exit ≠ none := by
      rw [hexit]
      exact hdead
    exact h.set hs hobjects hinputs (fun d hd hpc => .inl ⟨d, hdeletes ▸ hd, rfl, hpc⟩) hreceived
      hturns (by rw [hchild]; simp [hc, Session.goes]) (fun _ => hdead')
      (.inr ⟨Session.handle_setHandle _, hdead'⟩) fun _ => hdead'

/-- Every step keeps the invariant. -/
theorem Served.step (h : m.Served) (hregistered : m.Registered) (hstep : m.Step e m') :
    m'.Served := by
  cases hstep.does with
  | create | search | look | spawnFails | list | unlist | kill | killing | other | otherEnds =>
    exact ⟨h.ok, h.bound, fun n s hs => (h.fed n s hs).congr rfl rfl rfl Iff.rfl id (.inl rfl),
      h.closing, h.deleted⟩
  | delete =>
    refine ⟨h.ok, h.bound,
      fun n s hs => (h.fed n s hs).congr rfl rfl rfl Iff.rfl (fun hexit => hexit) (.inl rfl),
      h.closing, fun d hd hpc => ?_⟩
    rcases Table.mem_snoc.mp hd with hd | rfl
    · exact h.deleted d hd hpc
    · exact (hpc rfl).elim
  | reserve =>
    refine h.append hregistered rfl rfl rfl rfl rfl (.inr rfl) fun hp => ?_
    obtain ⟨c, hc, -⟩ := hp
    cases hc
  | @spawn i pid c now hc =>
    refine h.append hregistered rfl rfl rfl rfl rfl (.inl ?_) fun hp => ?_
    · cases hpty : c.pty with
      | true => simp [Session.handle, spawned, hpty]
      | false => simp [Session.handle, spawned, hpty]
    · obtain ⟨d, hd, hpc⟩ := hp
      cases hd
      simp at hpc
  | @deleting i d s hd hs hpc =>
    refine h.set hs rfl rfl (fun d' hd' hpc' => ?_) rfl rfl Iff.rfl (fun _ => ?_) (.inl rfl)
      fun _ => ?_
    · rcases List.mem_or_eq_of_mem_set hd' with hd' | rfl
      · exact .inl ⟨d', hd', rfl, hpc'⟩
      · exact .inr ⟨rfl, by simp [Session.delete]⟩
    · simp [Session.delete]
    · simp [Session.delete]
  | @closing i d s s' pc hd hs hs' =>
    have hpc : d.pc ≠ .removed := by
      rcases hs' with ⟨hpc, -⟩ | ⟨hpc, -⟩ <;> rw [hpc] <;> nofun
    have hdead := h.deleted d (List.mem_of_getElem? hd) hpc s hs
    have hdeletes : ∀ d' ∈ m.deletes.set i { d with pc }, d'.pc ≠ .removed →
        (∃ d₀ ∈ m.deletes, d₀.session = d'.session ∧ d₀.pc ≠ .removed) ∨
          d'.session = d.session ∧ s'.exit ≠ none := by
      intro d' hd' hpc'
      rcases List.mem_or_eq_of_mem_set hd' with hd' | rfl
      · exact .inl ⟨d', hd', rfl, hpc'⟩
      · exact .inl ⟨d, List.mem_of_getElem? hd, rfl, hpc⟩
    rcases hs' with ⟨-, -, rfl⟩ | ⟨-, -, rfl⟩
    · refine h.set hs rfl rfl hdeletes rfl rfl Iff.rfl (fun _ => hdead) ?_ fun _ => hdead
      cases hpty : s.isPty with
      | true => exact .inl (by simp [Session.handle, hpty])
      | false => exact .inr ⟨by simp [Session.handle], hdead⟩
    · refine h.set hs rfl rfl hdeletes rfl rfl Iff.rfl (fun _ => hdead) ?_ fun _ => hdead
      cases hpty : s.isPty with
      | true => exact .inr ⟨by simp [Session.handle], hdead⟩
      | false => exact .inl (by simp [Session.handle, hpty])
  | @input id data k hfree hk =>
    obtain ⟨⟨s, hs, -⟩, -⟩ := hregistered.listed _ (get_mem hk)
    refine ⟨fun i w hw => ?_, fun i w hw => ?_, fun n s hs => (h.fed n s hs).call rfl, h.closing,
      h.deleted⟩
    · rcases Table.getElem?_snoc hw with hw | ⟨-, rfl⟩
      · exact h.ok i w hw
      · exact ⟨Nat.zero_le _, fun _ => rfl, nofun⟩
    · rcases Table.getElem?_snoc hw with hw | ⟨-, rfl⟩
      · exact h.bound i w hw
      · exact (List.getElem?_eq_some_iff.mp hs).1
  | @write i late call w w' s s' hw hs hwrite =>
    have hwrites := Session.writes_of_write hwrite
    obtain ⟨hexit, hchild⟩ := hwrites.exit
    obtain ⟨hsession, -⟩ := hwrites.session
    refine ⟨fun j v hv => ?_, fun j v hv => ?_, fun n t ht => ?_, fun n t ht hp => ?_,
      fun d hd hpc t ht => ?_⟩
    · rcases Table.getElem?_replaced hv with ⟨-, rfl⟩ | ⟨-, hv⟩
      · exact hwrites.ok (h.ok i w hw)
      · exact h.ok j v hv
    · rw [List.length_set]
      rcases Table.getElem?_replaced hv with ⟨-, rfl⟩ | ⟨-, hv⟩
      · rw [hsession]
        exact h.bound i w hw
      · exact h.bound j v hv
    · rcases Table.getElem?_replaced ht with ⟨rfl, rfl⟩ | ⟨hne, ht⟩
      · exact (h.fed _ s hs).writes hw rfl (h.ok i w hw) hwrites rfl
      · exact (h.fed n t ht).other hw (Ne.symm hne) hsession rfl
    · rcases Table.getElem?_replaced ht with ⟨rfl, rfl⟩ | ⟨-, ht⟩
      · obtain ⟨c, hc, hpc⟩ := hp
        rw [hexit]
        exact h.closing _ s hs ⟨c, hchild.symm.trans hc, hpc⟩
      · exact h.closing n t ht hp
    · rcases Table.getElem?_replaced ht with ⟨hn, rfl⟩ | ⟨-, ht⟩
      · rw [hexit]
        exact h.deleted d hd hpc s (hn ▸ hs)
      · exact h.deleted d hd hpc t ht
  | reap hs hreap => exact h.reaps hs hreap rfl rfl rfl
  | exit hs hc =>
    exact h.child hs hc rfl rfl rfl fun hpc => h.closing _ _ hs ⟨_, hc, hpc⟩
  | pumpEnd hs hc =>
    exact h.child hs hc rfl rfl rfl fun hpc => h.closing _ _ hs ⟨_, hc, hpc⟩

/-- The empty registry is served. -/
theorem served_start (agent : ℕ) : (start agent).Served := by
  constructor
  · exact fun i w hw => by simp [start] at hw
  · exact fun i w hw => by simp [start] at hw
  · exact fun n s hs => by simp [start] at hs
  · exact fun n s hs => by simp [start] at hs
  · exact fun d hd => by simp [start] at hd

/-- By induction on the run, so is every reachable one. -/
theorem served_of_trace {agent : ℕ} {es : List Event} (h : Trace Step (start agent) es m) :
    m.Registered ∧ m.Served :=
  h.invariant (I := fun m => m.Registered ∧ m.Served)
    ⟨registered_start agent, served_start agent⟩
    fun hboth hstep => ⟨hboth.1.step hstep, hboth.2.step hboth.1 hstep⟩

/-- In every run, what was written to the input of a session is what its calls wrote, one call after
another in the order in which they got the handle. All but the last of these have returned without
an error; a call that returns without an error is among them and has written all its data, and one
that is not among them has written nothing. While the session runs, the handle is missing only if
the last of them is still at work or has failed. -/
theorem input_exact {agent : ℕ} {es : List Event} (h : Trace Step (start agent) es m)
    (hs : m.objects[n]? = some s) :
    s.received = (s.turns.map m.sent).flatten ∧ s.turns.Nodup ∧
    (∀ i ∈ s.turns.dropLast, m.Accepted i) ∧
    (∀ (i : ℕ) (w : Input), m.inputs[i]? = some w → w.session = n →
      (w.pc.result = some .ok → i ∈ s.turns ∧ m.sent i = w.data) ∧
      (i ∉ s.turns → m.sent i = [])) ∧
    (s.handle = false → s.child ≠ none → s.exit = none →
      ∃ i, s.turns.getLast? = some i ∧ ¬ m.Accepted i) := by
  obtain ⟨-, hserved⟩ := served_of_trace h
  have hfed := hserved.fed n s hs
  refine ⟨hfed.received, hfed.nodup, hfed.earlier, fun i w hw hsession => ⟨fun hresult => ?_,
    fun hnot => ?_⟩,
    fun hhandle hc hexit => (hfed.gone hhandle hc).resolve_left (not_not.mpr hexit)⟩
  · refine ⟨?_, ?_⟩
    · by_contra hnot
      exact (hfed.untaken i w hw hsession hnot).2.2 hresult
    · rw [sent_of hw, Input.sent, (hserved.ok i w hw).whole hresult, List.take_length]
  · rw [sent_of hw, Input.sent, (hfed.untaken i w hw hsession hnot).1, List.take_zero]

/-- Two calls at once: the first has the handle, the second is refused, and a third comes later. -/
def overlapping : List Event :=
  [.create ["cat"] false, .reserve 0 5, .spawn 0 7 6, .list 0, .input (sessionId 1 1) [1, 2],
    .input (sessionId 1 1) [3], .write 0 false .again, .write 0 false .again,
    .write 0 false (.took 1), .write 1 false .again, .write 0 false .again,
    .write 0 false (.took 1), .write 0 false .again, .write 0 false .again, .write 0 false .again,
    .input (sessionId 1 1) [4], .write 2 false .again, .write 2 false .again,
    .write 2 false (.took 1)]

theorem input_exact_overlapping : ∃ m s, Trace Step (start 1) overlapping m ∧
    m.objects[1]? = some s ∧ s.received = [1, 2, 4] ∧ s.turns = [0, 2] ∧
    (s.turns.map m.sent).flatten = [1, 2, 4] ∧
    m.inputs.map Input.pc = [.done .ok, .done (.error "stdin closed"), .checking] := by
  have hrun : (overlapping.foldlM next (start 1)).any (fun m =>
      (m.objects[1]?.any fun s => s.received = [1, 2, 4] ∧ s.turns = [0, 2]) = true ∧
      m.inputs.map Input.pc = [.done .ok, .done (.error "stdin closed"), .checking]) = true := by
    decide +kernel
  obtain ⟨m, hm, hend⟩ := (Option.any_eq_true _ _).mp hrun
  obtain ⟨hany, hpcs⟩ := of_decide_eq_true hend
  obtain ⟨s, hs, hboth⟩ := (Option.any_eq_true _ _).mp hany
  obtain ⟨hreceived, hturns⟩ := of_decide_eq_true hboth
  have htrace : Trace Step (start 1) overlapping m := Trace.of_foldlM hm
  exact ⟨m, s, htrace, hs, hreceived, hturns, (input_exact htrace hs).1 ▸ hreceived, hpcs⟩

end State

end AgentHouse.Forge.Manager
