import AgentHouse.Engine.Proving

/-!
# The proofs of base images are sound

The identity of a file fixes its era. A job that finds the identity of its key at its end has read
one era only, the one that was sampled for the key, so what it read are the contents
that were sampled. The cache keeps this for each of its entries.
-/

namespace AgentHouse.Engine.Proving

variable {sha256 : Bytes → Bytes} {s t u : World} {n m : ℕ} {i : Inode} {key : Key}

/-! ## The cache -/

namespace Cache

variable {c : Cache} {now : ℕ} {spawns : Bool}

/-- Where a job is started, none runs and nothing is known of the key. -/
structure Consulted (c : Cache) (key : Key) (c' : Cache) (r : Proof) (starts : Bool) : Prop where
  entries : c'.entries.Sublist c.entries
  answer : (∃ e ∈ c.entries, e.key = key ∧ e.proof = r) ∨ r.status ≠ .verified
  running : c'.running = (c.running || starts)
  idle : starts = true → c.running = false
  absent : starts = true → (c.entries.map (·.key)).Nodup → ∀ e ∈ c'.entries, e.key ≠ key

theorem unavailable_ne {status : Status} (h : status ≠ .verified) :
    (Proof.unavailable status).status ≠ .verified := h

/-- A consultation that starts a job. -/
theorem start_consulted {c' : Cache} (hentries : c'.entries.Sublist c.entries)
    (hrunning : c'.running = c.running)
    (habsent : (c.entries.map (·.key)).Nodup → ∀ e ∈ c'.entries, e.key ≠ key) :
    Consulted c key (c'.start spawns).1 (c'.start spawns).2.1 (c'.start spawns).2.2 := by
  unfold start
  by_cases hrun : c'.running
  · rw [if_pos hrun]
    exact ⟨hentries, .inr (unavailable_ne (by decide)), by simp [hrunning], fun h => (by cases h),
      fun h => (by cases h)⟩
  · have hidle : c.running = false := by rw [← hrunning]; simpa using hrun
    rw [if_neg hrun]
    cases spawns with
    | true =>
      exact ⟨hentries, .inr (unavailable_ne (by decide)), by simp, fun _ => hidle,
        fun _ => habsent⟩
    | false =>
      exact ⟨hentries, .inr (unavailable_ne (by decide)), by simp [hidle], fun h => (by cases h),
        fun h => (by cases h)⟩

/-- What one look at the cache does. -/
theorem consult_consulted (c : Cache) (key : Key) (now : ℕ) (spawns : Bool) :
    Consulted c key (c.consult key now spawns).1 (c.consult key now spawns).2.1
      (c.consult key now spawns).2.2 := by
  unfold consult
  cases hfind : c.entries.find? fun e => decide (e.key = key) with
  | none =>
    refine start_consulted (List.Sublist.refl _) rfl fun _ e he hkey => ?_
    exact List.find?_eq_none.mp hfind e he (decide_eq_true hkey)
  | some e =>
    have hkey : e.key = key := of_decide_eq_true (List.find?_some hfind :)
    have hmem : e ∈ c.entries := List.mem_of_find?_eq_some hfind
    by_cases hretry : e.retry.all (fun at_ => decide (now < at_))
    · simp only [hretry, if_true]
      exact ⟨List.Sublist.refl _, .inl ⟨e, hmem, hkey, rfl⟩, by simp, fun h => (by cases h),
        fun h => (by cases h)⟩
    · simp only [hretry, if_false, Bool.false_eq_true]
      refine start_consulted (List.eraseP_sublist) rfl fun hnodup e' he' hkey' => ?_
      obtain ⟨a, l, r, hl, ha, hsplit, herase⟩ :=
        List.exists_of_eraseP (p := fun e => decide (e.key = key)) hmem (decide_eq_true hkey)
      rw [hsplit, List.map_append, List.map_cons, List.nodup_append, List.nodup_cons] at hnodup
      rw [herase] at he'
      rcases List.mem_append.mp he' with hleft | hright
      · exact hl e' hleft (decide_eq_true hkey')
      · refine hnodup.2.1.1 ?_
        rw [of_decide_eq_true ha, ← hkey']
        exact List.mem_map_of_mem hright

variable {proof : Proof}

/-- The last entry is the job's; the others were there. -/
theorem finish_entries (c : Cache) (key : Key) (proof : Proof) (now : ℕ) :
    ∃ kept slot, (c.finish key proof now).entries = kept ++ [slot] ∧ kept.Sublist c.entries ∧
      (c.entries.length ≤ 4 → kept.length ≤ 3) ∧ slot.key = key ∧
      (slot.proof.status = .verified → slot.proof = proof) := by
  have hkept : (if 4 ≤ c.entries.length then c.entries.tail else c.entries).Sublist c.entries := by
    split_ifs
    · exact List.tail_sublist _
    · exact List.Sublist.refl _
  have hlength (h : c.entries.length ≤ 4) :
      (if 4 ≤ c.entries.length then c.entries.tail else c.entries).length ≤ 3 := by
    split_ifs
    · rw [List.length_tail]
      omega
    · omega
  refine ⟨_, _, rfl, hkept, hlength, ?_, ?_⟩
  · split_ifs <;> rfl
  · split_ifs with hinvalid
    · exact fun h => (by cases h)
    · exact fun _ => rfl

end Cache

/-! ## The invariant -/

/-- The identity was had with these contents. -/
def Was (s : World) (id : Identity) (contents : Bytes) : Prop :=
    ∃ era, s.had id = some (era, contents)

theorem inode_identity (i : Inode) (f : Node) : (identity i f).inode = i := rfl

/-- The invariant of the verifier and its threads. -/
structure Inv (sha256 : Bytes → Bytes) (s : World) : Prop where
  files : ∀ i, s.had (identity i (s.nodes i)) = some (s.era i, (s.nodes i).contents)
  history : ∀ id era contents, s.had id = some (era, contents) → s.Past id era contents
  few : s.cache.entries.length ≤ 4
  distinct : (s.cache.entries.map (·.key)).Nodup
  sound : ∀ e ∈ s.cache.entries, e.proof.status = .verified →
    ∃ contents, Was s e.key.identity contents ∧ e.proof.contentDigest = some (sha256 contents)
  running : s.cache.running = s.active.isSome
  absent : ∀ n i key, s.active = some n → s.started n = some (i, key) →
    ∀ e ∈ s.cache.entries, e.key ≠ key
  known : ∀ n i key, s.started n = some (i, key) →
    key.identity.inode = i ∧ ∃ contents, Was s key.identity contents
  answers : ∀ n p, s.replies n = some p → p.status = .verified →
    ∃ contents, s.sampled n = some contents ∧ p.contentDigest = some (sha256 contents)

/-- The invariant holds before any request. -/
theorem inv_start (h : Start s) : Inv sha256 s := by
  have hentries : s.cache.entries = [] := by rw [h.cache]
  refine ⟨h.files, h.history, ?_, ?_, ?_, ?_, ?_, ?_, ?_⟩
  · rw [hentries]
    exact Nat.zero_le 4
  · rw [hentries]
    exact List.nodup_nil
  · rw [hentries]
    exact fun e he => (by cases he)
  · rw [h.cache, h.active]
    rfl
  · rw [hentries]
    exact fun n i key _ _ e he => (by cases he)
  · intro n i key hn
    rw [h.started n] at hn
    cases hn
  · intro n p hn
    rw [h.replies n] at hn
    cases hn

/-- How the files move on. -/
structure Moves (s t : World) : Prop where
  had : ∀ id x, s.had id = some x → t.had id = some x
  era : ∀ i, s.era i ≤ t.era i
  contents : ∀ i, t.era i = s.era i → (t.nodes i).contents = (s.nodes i).contents

theorem Moves.refl (s : World) : Moves s s :=
  ⟨fun _ _ h => h, fun _ => le_rfl, fun _ _ => rfl⟩

theorem Moves.trans (h : Moves s t) (h' : Moves t u) : Moves s u := by
  refine ⟨fun id x hx => h'.had id x (h.had id x hx), fun i => (h.era i).trans (h'.era i),
    fun i hi => ?_⟩
  have h1 := h.era i
  have h2 := h'.era i
  exact (h'.contents i (by omega)).trans (h.contents i (by omega))

theorem Moves.of_same (hhad : t.had = s.had) (hera : t.era = s.era) (hnodes : t.nodes = s.nodes) :
    Moves s t := by
  refine ⟨fun id x h => ?_, fun i => ?_, fun i _ => ?_⟩
  · rwa [hhad]
  · rw [hera]
  · rw [hnodes]

/-- What a file held at an identity stays true. -/
theorem Was.moves {id : Identity} {contents : Bytes} (h : Was s id contents) (hmoves : Moves s t) :
    Was t id contents := by
  obtain ⟨era, h⟩ := h
  exact ⟨era, hmoves.had _ _ h⟩

/-- An identity stands for one content. -/
theorem Was.unique {id : Identity} {left right : Bytes} (h : Was s id left) (h' : Was s id right) :
    left = right := by
  obtain ⟨era, h⟩ := h
  obtain ⟨era', h'⟩ := h'
  rw [h] at h'
  cases h'
  rfl

/-- The job of a request that started one has not finished. -/
def Pending (n : ℕ) (s : World) : Prop := ∀ x, s.started n = some x → s.active = some n

/-- What a thread relies on. -/
def Rely (w : Who) (s t : World) : Prop :=
  Moves s t ∧ match w with
  | .request n => t.sampled n = s.sampled n ∧ t.replies n = s.replies n ∧ t.started n = s.started n
  | .job n => (∀ x, s.started n = some x → t.started n = some x) ∧ (Pending n s → Pending n t)

theorem Rely.refl (w : Who) (s : World) : Rely w s s := by
  cases w with
  | request n => exact ⟨.refl s, rfl, rfl, rfl⟩
  | job n => exact ⟨.refl s, fun _ h => h, id⟩

theorem Rely.trans {w : Who} (h : Rely w s t) (h' : Rely w t u) : Rely w s u := by
  cases w with
  | request n =>
    obtain ⟨hmoves, h1, h2, h3⟩ := h
    obtain ⟨hmoves', h1', h2', h3'⟩ := h'
    exact ⟨hmoves.trans hmoves', h1'.trans h1, h2'.trans h2, h3'.trans h3⟩
  | job n =>
    obtain ⟨hmoves, h1, h2⟩ := h
    obtain ⟨hmoves', h1', h2'⟩ := h'
    exact ⟨hmoves.trans hmoves', fun x hx => h1' x (h1 x hx), fun hp => h2' (h2 hp)⟩

/-- What a thread may do. -/
def Allowed (sha256 : Bytes → Bytes) (w : Who) {β : Type} (a : Act β) (s : World) : Prop :=
  match w with
  | .request n =>
    match a with
    | .symlinkMetadata _ => s.replies n = none
    | .consult file key => s.started n = none ∧ key.identity.inode = file ∧
        ∃ contents, Was s key.identity contents
    | .finish _ _ => False
    | .answer proof => proof.status = .verified →
        ∃ contents, s.sampled n = some contents ∧ proof.contentDigest = some (sha256 contents)
    | _ => True
  | .job n => s.active = some n ∧
    match a with
    | .consult _ _ => False
    | .finish key proof => (∃ file, s.started n = some (file, key)) ∧
        (proof.status = .verified →
          ∃ contents, Was s key.identity contents ∧
            proof.contentDigest = some (sha256 contents))
    | .answer _ => False
    | _ => True

/-! ## Steps -/

section Steps

variable {f : Node} {era : ℕ}

/-- The rest of the invariant does not depend on how the files moved. -/
theorem Inv.moves (h : Inv sha256 s) (hmoves : Moves s t)
    (hfiles : ∀ i, t.had (identity i (t.nodes i)) = some (t.era i, (t.nodes i).contents))
    (hhistory : ∀ id era contents, t.had id = some (era, contents) → t.Past id era contents)
    (hcache : t.cache = s.cache) (hactive : t.active = s.active) (hstarted : t.started = s.started)
    (hreplies : t.replies = s.replies) (hsampled : t.sampled = s.sampled) : Inv sha256 t where
  files := hfiles
  history := hhistory
  few := by rw [hcache]; exact h.few
  distinct := by rw [hcache]; exact h.distinct
  sound e he hstatus := by
    rw [hcache] at he
    obtain ⟨contents, hwas, hdigest⟩ := h.sound e he hstatus
    exact ⟨contents, hwas.moves hmoves, hdigest⟩
  running := by rw [hcache, hactive]; exact h.running
  absent n i key hn hi := by
    rw [hcache]
    exact h.absent n i key (hactive ▸ hn) (hstarted ▸ hi)
  known n i key hn := by
    rw [hstarted] at hn
    obtain ⟨hinode, contents, hwas⟩ := h.known n i key hn
    exact ⟨hinode, contents, hwas.moves hmoves⟩
  answers n p hn := by
    rw [hreplies] at hn
    rw [hsampled]
    exact h.answers n p hn

/-- A change of the files alone is one of the others. -/
theorem Rely.of_moves (hmoves : Moves s t) (hactive : t.active = s.active)
    (hstarted : t.started = s.started) (hreplies : t.replies = s.replies)
    (hsampled : t.sampled = s.sampled) (w : Who) : Rely w s t := by
  cases w with
  | request n => exact ⟨hmoves, by rw [hsampled], by rw [hreplies], by rw [hstarted]⟩
  | job n =>
    refine ⟨hmoves, fun x hx => by rwa [hstarted], fun hp x hx => ?_⟩
    rw [hactive]
    exact hp x (by rwa [← hstarted])

/-- What a change keeps. -/
theorem change_moves (h : s.had (identity i f) = none ∨
      s.had (identity i f) = some (era, f.contents)) (hera : s.era i ≤ era)
    (hsame : era = s.era i → f.contents = (s.nodes i).contents) : Moves s (s.change i f era) := by
  refine ⟨fun id x hx => ?_, fun j => ?_, fun j hj => ?_⟩
  · show Function.update s.had _ _ id = some x
    by_cases hid : id = identity i f
    · subst hid
      rw [Function.update_self]
      rcases h with h | h
      · rw [h] at hx
        cases hx
      · rwa [← h]
    · rwa [Function.update_of_ne hid]
  · show s.era j ≤ Function.update s.era i era j
    by_cases hji : j = i
    · subst hji
      rwa [Function.update_self]
    · rw [Function.update_of_ne hji]
  · show (Function.update s.nodes i f j).contents = _
    by_cases hji : j = i
    · subst hji
      rw [Function.update_self]
      have hera' : Function.update s.era j era j = s.era j := hj
      rw [Function.update_self] at hera'
      exact hsame hera'
    · rw [Function.update_of_ne hji]

/-- A change records the content under the identity it gives. -/
theorem change_files (h : Inv sha256 s) (j : Inode) :
    (s.change i f era).had (identity j ((s.change i f era).nodes j)) =
      some ((s.change i f era).era j, ((s.change i f era).nodes j).contents) := by
  show Function.update s.had _ _ (identity j (Function.update s.nodes i f j)) =
    some (Function.update s.era i era j, (Function.update s.nodes i f j).contents)
  by_cases hji : j = i
  · subst hji
    simp only [Function.update_self]
  · have hother : identity j (s.nodes j) ≠ identity i f := fun heq => hji (by
      rw [← inode_identity j (s.nodes j), heq, inode_identity])
    simp only [Function.update_of_ne hji, Function.update_of_ne hother]
    exact h.files j

/-- And keeps what is recorded in the past. -/
theorem change_history (h : Inv sha256 s) (hera : s.era i ≤ era)
    (hsame : era = s.era i → f.contents = (s.nodes i).contents) (id : Identity) (e : ℕ)
    (contents : Bytes) (hid : (s.change i f era).had id = some (e, contents)) :
    (s.change i f era).Past id e contents := by
  show e ≤ Function.update s.era i era id.inode ∧
    (e = Function.update s.era i era id.inode →
      (Function.update s.nodes i f id.inode).contents = contents)
  have hupdate : Function.update s.had (identity i f) (some (era, f.contents)) id =
    some (e, contents) := hid
  by_cases hsameid : id = identity i f
  · subst hsameid
    rw [Function.update_self] at hupdate
    cases hupdate
    rw [inode_identity, Function.update_self, Function.update_self]
    exact ⟨le_rfl, fun _ => rfl⟩
  · rw [Function.update_of_ne hsameid] at hupdate
    obtain ⟨hle, hcontents⟩ := h.history id e contents hupdate
    by_cases hinode : id.inode = i
    · rw [hinode] at hle hcontents ⊢
      rw [Function.update_self, Function.update_self]
      refine ⟨hle.trans hera, fun heq => ?_⟩
      have hold : era = s.era i := by omega
      exact (hsame hold).trans (hcontents (heq.trans hold))
    · rw [Function.update_of_ne hinode, Function.update_of_ne hinode]
      exact ⟨hle, hcontents⟩

/-- The guest may do what it likes to its files. -/
theorem env_keeps (h : Inv sha256 s) (he : Env s t) : Inv sha256 t ∧ ∀ w, Rely w s t := by
  cases he with
  | names names =>
    have hmoves : Moves s { s with names } := .of_same rfl rfl rfl
    exact ⟨h.moves hmoves h.files h.history rfl rfl rfl rfl rfl, .of_moves hmoves rfl rfl rfl rfl⟩
  | @clock now hnow =>
    have hmoves : Moves s { s with now } := .of_same rfl rfl rfl
    exact ⟨h.moves hmoves h.files h.history rfl rfl rfl rfl rfl, .of_moves hmoves rfl rfl rfl rfl⟩
  | @contents i f hfresh =>
    have hmoves : Moves s (s.change i f (s.era i + 1)) :=
      change_moves (.inl hfresh) (Nat.le_succ _) fun heq => absurd heq (Nat.succ_ne_self _)
    exact ⟨h.moves hmoves (change_files h) (change_history h (Nat.le_succ _) fun heq =>
      absurd heq (Nat.succ_ne_self _)) rfl rfl rfl rfl rfl, .of_moves hmoves rfl rfl rfl rfl⟩
  | @attributes i f hsame hhad =>
    have hmoves : Moves s (s.change i f (s.era i)) := change_moves hhad le_rfl fun _ => hsame
    exact ⟨h.moves hmoves (change_files h) (change_history h le_rfl fun _ => hsame)
      rfl rfl rfl rfl rfl, .of_moves hmoves rfl rfl rfl rfl⟩

/-- An action that changes nothing. -/
theorem keeps_same {w : Who} (h : Inv sha256 s) (ht : t = s) :
    Inv sha256 t ∧ ∀ v, v ≠ w → Rely v s t := by
  subst ht
  exact ⟨h, fun v _ => Rely.refl v t⟩

/-- A request notes what it sampled. -/
theorem sample_keeps {w : Who} {contents : Bytes} (h : Inv sha256 s)
    (hfree : ∀ n, w = .request n → s.replies n = none) :
    Inv sha256 (s.sample w contents) ∧ ∀ v, v ≠ w → Rely v s (s.sample w contents) := by
  cases w with
  | job n => exact keeps_same h rfl
  | request n =>
    have hmoves : Moves s (s.sample (.request n) contents) := .of_same rfl rfl rfl
    refine ⟨⟨h.files, h.history, h.few, h.distinct, h.sound, h.running, h.absent, h.known, ?_⟩, ?_⟩
    · intro m p hm hstatus
      obtain ⟨c, hc, hdigest⟩ := h.answers m p hm hstatus
      refine ⟨c, ?_, hdigest⟩
      have hmn : m ≠ n := by
        rintro rfl
        have hnone := hfree m rfl
        rw [show s.replies m = some p from hm] at hnone
        cases hnone
      exact (Function.update_of_ne hmn _ _).trans hc
    · intro v hv
      cases v with
      | job m => exact ⟨hmoves, fun x hx => hx, fun hp => hp⟩
      | request m =>
        have hmn : m ≠ n := by
          rintro rfl
          exact hv rfl
        exact ⟨hmoves, Function.update_of_ne hmn _ _, rfl, rfl⟩

/-- A request that starts a job is the first one, and the key is not in the cache. -/
theorem consult_keeps {spawns : Bool} (h : Inv sha256 s) (hstarted : s.started n = none)
    (hinode : key.identity.inode = i) (hwas : ∃ contents, Was s key.identity contents)
    (hcache : t.cache = (s.cache.consult key s.now spawns).1)
    (hstarts : t.started = if (s.cache.consult key s.now spawns).2.2 then
      Function.update s.started n (some (i, key)) else s.started)
    (hactive : t.active = if (s.cache.consult key s.now spawns).2.2 then some n else s.active)
    (hmoves : Moves s t)
    (hfiles : ∀ i, t.had (identity i (t.nodes i)) = some (t.era i, (t.nodes i).contents))
    (hhistory : ∀ id era contents, t.had id = some (era, contents) → t.Past id era contents)
    (hreplies : t.replies = s.replies) (hsampled : t.sampled = s.sampled) :
    Inv sha256 t ∧ ∀ v, v ≠ .request n → Rely v s t := by
  have hc := Cache.consult_consulted s.cache key s.now spawns
  rw [← hcache] at hc
  generalize hstart : (s.cache.consult key s.now spawns).2.2 = starts at hc hstarts hactive
  have hmem {e : Slot} (he : e ∈ t.cache.entries) : e ∈ s.cache.entries := hc.entries.subset he
  have hnot (hs : starts = true) : s.active = none := by
    have hidle := hc.idle hs
    rw [h.running] at hidle
    simpa using hidle
  refine ⟨⟨hfiles, hhistory, hc.entries.length_le.trans h.few,
    h.distinct.sublist (hc.entries.map _), ?_, ?_,
    ?_, ?_, ?_⟩, ?_⟩
  · intro e he hstatus
    obtain ⟨contents, hw, hdigest⟩ := h.sound e (hmem he) hstatus
    exact ⟨contents, hw.moves hmoves, hdigest⟩
  · rw [hc.running, hactive, h.running]
    cases starts with
    | true => simp
    | false => simp
  · intro m j k hm hj e he
    cases starts with
    | true =>
      rw [if_pos rfl] at hactive hstarts
      rw [hactive] at hm
      cases hm
      rw [hstarts, Function.update_self] at hj
      cases hj
      exact hc.absent rfl h.distinct e he
    | false =>
      rw [if_neg (by decide)] at hactive hstarts
      exact h.absent m j k (hactive ▸ hm) (hstarts ▸ hj) e (hmem he)
  · intro m j k hm
    have hold (hm : s.started m = some (j, k)) :
        k.identity.inode = j ∧ ∃ contents, Was t k.identity contents := by
      obtain ⟨hi, contents, hw⟩ := h.known m j k hm
      exact ⟨hi, contents, hw.moves hmoves⟩
    rw [hstarts] at hm
    split_ifs at hm
    · by_cases hmn : m = n
      · rw [hmn, Function.update_self] at hm
        cases hm
        obtain ⟨contents, hw⟩ := hwas
        exact ⟨hinode, contents, hw.moves hmoves⟩
      · rw [Function.update_of_ne hmn] at hm
        exact hold hm
    · exact hold hm
  · rw [hreplies, hsampled]
    exact h.answers
  · intro v hv
    cases v with
    | request m =>
      have hmn : m ≠ n := by
        rintro rfl
        exact hv rfl
      refine ⟨hmoves, by rw [hsampled], by rw [hreplies], ?_⟩
      rw [hstarts]
      split_ifs
      · exact Function.update_of_ne hmn _ _
      · rfl
    | job m =>
      refine ⟨hmoves, fun x hx => ?_, fun hp x hx => ?_⟩
      · rw [hstarts]
        split_ifs
        · rw [Function.update_of_ne, hx]
          rintro rfl
          rw [hstarted] at hx
          cases hx
        · exact hx
      · rw [hactive]
        rw [hstarts] at hx
        split_ifs at hx ⊢ with hs
        · by_cases hmn : m = n
          · rw [hmn]
          · rw [Function.update_of_ne hmn] at hx
            have := hp x hx
            rw [hnot hs] at this
            cases this
        · exact hp x hx

/-- A job that finishes leaves room for the next one. -/
theorem finish_keeps {proof : Proof} (h : Inv sha256 s) (hactive : s.active = some n)
    (hstarted : s.started n = some (i, key))
    (hproof : proof.status = .verified → ∃ contents, Was s key.identity contents ∧
      proof.contentDigest = some (sha256 contents))
    (ht : t = { s with cache := s.cache.finish key proof s.now, active := none }) :
    Inv sha256 t ∧ ∀ v, v ≠ .job n → Rely v s t := by
  obtain ⟨kept, slot, hentries, hsub, hfew, hkey, hslot⟩ :=
    Cache.finish_entries s.cache key proof s.now
  have hmoves : Moves s t := by
    subst ht
    exact .of_same rfl rfl rfl
  have hcache : t.cache.entries = kept ++ [slot] := by
    subst ht
    exact hentries
  have habsent : ∀ e ∈ kept, e.key ≠ key := fun e he =>
    h.absent n i key hactive hstarted e (hsub.subset he)
  refine ⟨⟨?_, ?_, ?_, ?_, ?_, ?_, ?_, ?_, ?_⟩, ?_⟩
  · subst ht
    exact h.files
  · subst ht
    exact h.history
  · rw [hcache, List.length_append, List.length_singleton]
    have := hfew h.few
    omega
  · rw [hcache, List.map_append, List.map_singleton]
    refine List.nodup_append.mpr ⟨h.distinct.sublist (hsub.map _), by simp, ?_⟩
    intro k hk k' hk'
    obtain ⟨e, he, rfl⟩ := List.mem_map.mp hk
    rw [List.mem_singleton.mp hk', hkey]
    exact habsent e he
  · intro e he hstatus
    rw [hcache] at he
    have hresult : ∃ contents, Was s e.key.identity contents ∧
        e.proof.contentDigest = some (sha256 contents) := by
      rcases List.mem_append.mp he with he | he
      · exact h.sound e (hsub.subset he) hstatus
      · obtain rfl := List.mem_singleton.mp he
        have heq := hslot hstatus
        rw [hkey, heq]
        exact hproof (heq ▸ hstatus)
    obtain ⟨contents, hw, hdigest⟩ := hresult
    exact ⟨contents, hw.moves hmoves, hdigest⟩
  · subst ht
    rfl
  · intro m j k hm
    rw [ht] at hm
    cases hm
  · intro m j k hm
    have hm' : s.started m = some (j, k) := by rwa [ht] at hm
    obtain ⟨hi, contents, hw⟩ := h.known m j k hm'
    exact ⟨hi, contents, hw.moves hmoves⟩
  · subst ht
    exact h.answers
  · intro v hv
    cases v with
    | request m =>
      subst ht
      exact ⟨hmoves, rfl, rfl, rfl⟩
    | job m =>
      refine ⟨hmoves, fun x hx => by subst ht; exact hx, fun hp x hx => ?_⟩
      have hx' : s.started m = some x := by rwa [ht] at hx
      have hm := hp x hx'
      rw [hactive] at hm
      exact absurd (congrArg Who.job (Option.some.inj hm)) (Ne.symm hv)

/-- A verified answer is about what the request sampled. -/
theorem answer_keeps {proof : Proof} (h : Inv sha256 s)
    (hproof : proof.status = .verified →
      ∃ contents, s.sampled n = some contents ∧ proof.contentDigest = some (sha256 contents))
    (ht : t = { s with replies := Function.update s.replies n (some proof) }) :
    Inv sha256 t ∧ ∀ v, v ≠ .request n → Rely v s t := by
  have hmoves : Moves s t := by
    subst ht
    exact .of_same rfl rfl rfl
  subst ht
  refine ⟨⟨h.files, h.history, h.few, h.distinct, h.sound, h.running, h.absent, h.known, ?_⟩, ?_⟩
  · intro m p hm
    have hreply : Function.update s.replies n (some proof) m = some p := hm
    by_cases hmn : m = n
    · rw [hmn, Function.update_self] at hreply
      cases hreply
      rw [hmn]
      exact hproof
    · rw [Function.update_of_ne hmn] at hreply
      exact h.answers m p hreply
  · intro v hv
    cases v with
    | job m => exact ⟨hmoves, fun x hx => hx, fun hp => hp⟩
    | request m =>
      have hmn : m ≠ n := by
        rintro rfl
        exact hv rfl
      exact ⟨hmoves, rfl, Function.update_of_ne hmn _ _, rfl⟩

/-- Each action keeps the invariant and what the others rely on. -/
theorem act_keeps {w : Who} {β : Type} {a : Act β} {b : β} (h : Inv sha256 s)
    (ha : Allowed sha256 w a s) (he : Eff w a s b t) :
    Inv sha256 t ∧ ∀ v, v ≠ w → Rely v s t := by
  cases a with
  | canonicalize path => exact keeps_same h he
  | symlinkMetadata path =>
    rcases he with ⟨-, rfl⟩ | ⟨i, -, -, rfl⟩
    · exact keeps_same h rfl
    · refine sample_keeps h fun n hw => ?_
      subst hw
      exact ha
  | openFile path => exact keeps_same h he
  | metadata file => exact keeps_same h he.2
  | read file pos size => exact keeps_same h he.2
  | now => exact keeps_same h he.2
  | consult file key =>
    rcases he with ⟨-, rfl⟩ | ⟨n, spawns, rfl, -, rfl⟩
    · exact keeps_same h rfl
    · obtain ⟨hstarted, hinode, hwas⟩ := ha
      exact consult_keeps h hstarted hinode hwas rfl rfl rfl
        (.of_same rfl rfl rfl) h.files h.history
        rfl rfl
  | finish key proof =>
    cases w with
    | request n => exact ha.elim
    | job n =>
      obtain ⟨hactive, ⟨file, hstarted⟩, hproof⟩ := ha
      rcases he with rfl | ht
      · exact keeps_same h rfl
      · exact finish_keeps h hactive hstarted hproof ht
  | answer proof =>
    obtain ⟨n, rfl, ht⟩ := he
    exact answer_keeps h ha ht

end Steps

/-! ## Requests -/

/-- The contract of the thread `w`. -/
abbrev contract (sha256 : Bytes → Bytes) (w : Who) : Contract Act World :=
  (team sha256).contract (Inv sha256) (Rely w) (Allowed sha256 w) w

section Requests

variable {path : FilePath} {artifactDigest : Bytes} {Q : Unit → World → Prop}

/-- The request has started no job and has not returned. -/
def Fresh (n : ℕ) (s : World) : Prop := s.started n = none ∧ s.replies n = none

theorem Fresh.rely (h : Fresh n s) (hrely : Rely (.request n) s t) : Fresh n t :=
  ⟨hrely.2.2.2.trans h.1, hrely.2.2.1.trans h.2⟩

/-- The contents that were sampled had the identity of the key. -/
def Sampled (n : ℕ) (id : Identity) (s : World) : Prop :=
  ∃ contents, Was s id contents ∧ s.sampled n = some contents

theorem Sampled.rely {id : Identity} (h : Sampled n id s) (hrely : Rely (.request n) s t) :
    Sampled n id t := by
  obtain ⟨contents, hwas, hsampled⟩ := h
  exact ⟨contents, hwas.moves hrely.1, hrely.2.1.trans hsampled⟩

/-- The source of a request is sampled and goes on with its identity. -/
theorem source_keeps {next : Option (Inode × Key) → Prog Act Unit} (hfresh : Fresh n s)
    (hnone : ∀ s, Fresh n s → (next none).Keeps (contract sha256 (.request n)) Q s)
    (hsome : ∀ s file key, Fresh n s → Sampled n key.identity s → key.identity.inode = file →
      (next (some (file, key))).Keeps (contract sha256 (.request n)) Q s) :
    (source path artifactDigest next).Keeps (contract sha256 (.request n)) Q s := by
  unfold source
  split_ifs with hdigest
  · exact hnone s hfresh
  refine ⟨fun _ _ _ => trivial, ?_⟩
  rintro real s₁ ⟨t₁, -, hr₁, rfl, -⟩
  have hfresh₁ := hfresh.rely hr₁
  by_cases hreal : real ≠ some path
  · simp only [if_pos hreal]
    exact hnone s₁ hfresh₁
  simp only [if_neg hreal]
  refine ⟨fun t ht hr => (hfresh₁.rely hr).2, ?_⟩
  rintro before s₂ ⟨t₂, hinv₂, hr₂, he₂, -⟩
  have hfresh₂ := hfresh₁.rely hr₂
  rcases he₂ with ⟨rfl, rfl⟩ | ⟨i, -, rfl, rfl⟩
  · exact hnone s₂ hfresh₂
  have hsampled : Sampled n (identity i (t₂.nodes i))
      (t₂.sample (.request n) (t₂.nodes i).contents) :=
    ⟨_, ⟨_, hinv₂.files i⟩, Function.update_self ..⟩
  have hfresh₃ : Fresh n (t₂.sample (.request n) (t₂.nodes i).contents) := hfresh₂
  by_cases hsuit : unsuitable (stat i (t₂.nodes i)) = true
  · simp only [hsuit, if_true]
    exact hnone _ hfresh₃
  simp only [hsuit, if_false, Bool.false_eq_true]
  refine ⟨fun _ _ _ => trivial, ?_⟩
  rintro file s₄ ⟨t₄, -, hr₄, rfl, -⟩
  have hfresh₄ := hfresh₃.rely hr₄
  have hsampled₄ := hsampled.rely hr₄
  cases file with
  | none => exact hnone s₄ hfresh₄
  | some file =>
    refine ⟨fun _ _ _ => trivial, ?_⟩
    rintro after s₅ ⟨t₅, -, hr₅, ⟨hafter, rfl⟩, -⟩
    have hfresh₅ := hfresh₄.rely hr₅
    have hsampled₅ := hsampled₄.rely hr₅
    rcases hafter with rfl | rfl
    · exact hnone s₅ hfresh₅
    · by_cases hsame : Identity.read (stat file (s₅.nodes file)) ≠
          Identity.read (stat i (t₂.nodes i))
      · simp only [if_pos hsame]
        exact hnone s₅ hfresh₅
      · simp only [if_neg hsame]
        refine hsome s₅ file _ hfresh₅ hsampled₅ ?_
        rw [← not_not.mp hsame]
        rfl

/-- An answer ends its request. -/
theorem answer_program_keeps {proof : Proof}
    (h : proof.status = .verified →
      ∃ contents, s.sampled n = some contents ∧ proof.contentDigest = some (sha256 contents)) :
    (Prog.act (.answer proof) .done : Prog Act Unit).Keeps (contract sha256 (.request n))
      (fun _ _ => True) s := by
  refine ⟨fun t _ hr hstatus => ?_, fun _ _ _ => trivial⟩
  obtain ⟨contents, hsampled, hdigest⟩ := h hstatus
  exact ⟨contents, hr.2.1.trans hsampled, hdigest⟩

/-- What is returned is what the cache holds under the identity that was sampled. -/
theorem status_keeps (hfresh : Fresh n s) :
    (status path artifactDigest).Keeps (contract sha256 (.request n)) (fun _ _ => True) s := by
  refine source_keeps hfresh (fun s _ => answer_program_keeps fun h => (by cases h)) ?_
  intro s file key hfresh hsampled hinode
  refine ⟨fun t _ hr => ?_, ?_⟩
  · obtain ⟨contents, hwas, -⟩ := hsampled.rely hr
    exact ⟨(hfresh.rely hr).1, hinode, contents, hwas⟩
  rintro proof s₁ ⟨t, hinv, hr, he, -⟩
  obtain ⟨contents, hwas, hcontents⟩ := hsampled.rely hr
  refine answer_program_keeps fun hstatus => ?_
  rcases he with ⟨rfl, -⟩ | ⟨m, spawns, hm, rfl, rfl⟩
  · cases hstatus
  · refine ⟨contents, hcontents, ?_⟩
    rcases (Cache.consult_consulted t.cache key t.now spawns).answer with
      ⟨e, he, hkey, hproof⟩ | hnot
    · rw [← hproof] at hstatus ⊢
      obtain ⟨contents', hwas', hdigest⟩ := hinv.sound e he hstatus
      rw [hkey] at hwas'
      rwa [hwas.unique hwas']
    · exact absurd hstatus hnot

end Requests

/-! ## Jobs -/

section Jobs

variable {file : Inode} {data : Bytes} {Q : Unit → World → Prop} {next : Proof → Prog Act Unit}

/-- The job of `n` has not finished. -/
def Busy (n : ℕ) (file : Inode) (key : Key) (s : World) : Prop :=
  s.started n = some (file, key) ∧ Pending n s

theorem Busy.rely (h : Busy n file key s) (hrely : Rely (.job n) s t) : Busy n file key t :=
  ⟨hrely.2.1 _ h.1, hrely.2.2 h.2⟩

theorem Busy.active (h : Busy n file key s) : s.active = some n := h.2 _ h.1

/-- While the file is in the era of the key, the job has read a part of the contents that were
sampled. -/
def Partly (file : Inode) (key : Key) (part : Bytes → Prop) (s : World) : Prop :=
  key.identity.inode = file ∧
    ∃ era contents, s.had key.identity = some (era, contents) ∧ era ≤ s.era file ∧
      (era = s.era file → part contents)

/-- What has been read so far stays read. -/
theorem Partly.rely {part : Bytes → Prop} (h : Partly file key part s)
    (hrely : Rely (.job n) s t) : Partly file key part t := by
  obtain ⟨hinode, era, contents, hhad, hle, hpart⟩ := h
  have hera := hrely.1.era file
  exact ⟨hinode, era, contents, hrely.1.had _ _ hhad, hle.trans hera,
    fun heq => hpart (by omega)⟩

theorem Partly.mono {part part' : Bytes → Prop} (h : Partly file key part s) (hinv : Inv sha256 s)
    (himp : part (s.nodes file).contents → part' (s.nodes file).contents) :
    Partly file key part' s := by
  obtain ⟨hinode, era, contents, hhad, hle, hpart⟩ := h
  refine ⟨hinode, era, contents, hhad, hle, fun heq => ?_⟩
  have hcontents := (hinv.history _ _ _ hhad).2 (by rw [hinode]; exact heq)
  rw [hinode] at hcontents
  rw [← hcontents] at hpart ⊢
  exact himp (hpart heq)

/-- The identity of the key ends in the era that was sampled. -/
theorem Partly.was (h : Partly file key (data = ·) s) (hinv : Inv sha256 s)
    (hid : identity file (s.nodes file) = key.identity) : Was s key.identity data := by
  obtain ⟨hinode, era, contents, hhad, hle, hpart⟩ := h
  have hnow := hinv.files file
  rw [hid] at hnow
  rw [hnow] at hhad
  cases hhad
  exact ⟨_, hpart rfl ▸ hnow⟩

/-- The end of a job: the file is invalid, or it held what was hashed. -/
theorem conclude_keeps (hbusy : Busy n file key s) (hall : Partly file key (data = ·) s)
    (hinvalid : ∀ s, Busy n file key s → (next invalid).Keeps (contract sha256 (.job n)) Q s)
    (hverified : ∀ s, Busy n file key s → Was s key.identity data →
      (next ⟨.verified, some (sha256 data)⟩).Keeps (contract sha256 (.job n)) Q s) :
    (conclude sha256 file key data next).Keeps (contract sha256 (.job n)) Q s := by
  refine ⟨fun t _ hr => ⟨(hbusy.rely hr).active, trivial⟩, ?_⟩
  rintro after s₁ ⟨t₁, hinv₁, hr₁, ⟨hafter, rfl⟩, -⟩
  have hbusy₁ := hbusy.rely hr₁
  have hall₁ := hall.rely hr₁
  rcases hafter with rfl | rfl
  · exact hinvalid s₁ hbusy₁
  refine ⟨fun t _ hr => ⟨(hbusy₁.rely hr).active, trivial⟩, ?_⟩
  rintro found s₂ ⟨t₂, -, hr₂, he₂, -⟩
  have hbusy₂ := hbusy₁.rely hr₂
  have hsame : s₂ = t₂ := by
    rcases he₂ with ⟨-, rfl⟩ | ⟨i, -, -, rfl⟩ <;> rfl
  subst hsame
  cases found with
  | none => exact hinvalid s₂ hbusy₂
  | some found =>
    by_cases hchecks : data.length ≠ key.identity.bytes ∨
        Identity.read (stat file (s₁.nodes file)) ≠ key.identity ∨
        Identity.read found ≠ key.identity
    · simp only [if_pos hchecks]
      exact hinvalid s₂ hbusy₂
    · simp only [if_neg hchecks]
      simp only [not_or, not_not] at hchecks
      exact hverified s₂ hbusy₂ ((hall₁.was hinv₁ hchecks.2.1).moves hr₂.1)

/-- The loop has read a part of the contents, and at the end of the file all of them. -/
theorem hashLoop_keeps {deadline : ℕ} (hbusy : Busy n file key s)
    (hpart : Partly file key (data <+: ·) s)
    (hinvalid : ∀ s, Busy n file key s → (next invalid).Keeps (contract sha256 (.job n)) Q s)
    (hverified : ∀ s data, Busy n file key s → Was s key.identity data →
      (next ⟨.verified, some (sha256 data)⟩).Keeps (contract sha256 (.job n)) Q s) :
    (hashLoop sha256 file key deadline data next).Keeps (contract sha256 (.job n)) Q s := by
  induction hlength : key.identity.bytes - data.length using Nat.strong_induction_on
    generalizing data s with
  | _ left ih =>
    rw [hashLoop]
    refine ⟨fun t _ hr => ⟨(hbusy.rely hr).active, trivial⟩, ?_⟩
    rintro now s₁ ⟨t₁, -, hr₁, ⟨-, rfl⟩, -⟩
    have hbusy₁ := hbusy.rely hr₁
    have hpart₁ := hpart.rely hr₁
    by_cases hdeadline : deadline ≤ now
    · simp only [if_pos hdeadline]
      exact hinvalid s₁ hbusy₁
    simp only [if_neg hdeadline]
    refine ⟨fun t _ hr => ⟨(hbusy₁.rely hr).active, trivial⟩, ?_⟩
    rintro r s₂ ⟨t₂, hinv₂, hr₂, ⟨hread, rfl⟩, -⟩
    have hbusy₂ := hbusy₁.rely hr₂
    have hpart₂ := hpart₁.rely hr₂
    rcases hread with rfl | ⟨k, hk, -, rfl⟩
    · exact hinvalid s₂ hbusy₂
    cases hslice : slice (s₂.nodes file).contents data.length k with
    | nil =>
      refine conclude_keeps hbusy₂ (hpart₂.mono hinv₂ fun hprefix => ?_) hinvalid
        fun s hb hw => hverified s data hb hw
      have hempty := congrArg List.length hslice
      rw [length_slice, List.length_nil] at hempty
      exact hprefix.eq_of_length_le (by omega)
    | cons byte rest =>
      by_cases hlong : key.identity.bytes < (data ++ byte :: rest).length
      · simp only [if_pos hlong]
        exact hinvalid s₂ hbusy₂
      simp only [if_neg hlong]
      refine ih _ ?_ hbusy₂ (hpart₂.mono hinv₂ fun hprefix => ?_) rfl
      · rw [List.length_append, List.length_cons] at hlong ⊢
        omega
      · rw [← hslice]
        obtain ⟨more, hmore⟩ := hprefix
        rw [← hmore, slice, List.drop_left]
        exact List.prefix_append_right_inj data |>.mpr (List.take_prefix _ _)

/-- A job verifies a content only if the file held it at the identity. -/
theorem job_keeps (hinv : Inv sha256 s) (hstarted : s.started n = some (file, key))
    (hpending : Pending n s) :
    (job sha256 file key).Keeps (contract sha256 (.job n)) (fun _ _ => True) s := by
  have hbusy : Busy n file key s := ⟨hstarted, hpending⟩
  have hpart : Partly file key ([] <+: ·) s := by
    obtain ⟨hinode, contents, era, hhad⟩ := hinv.known n file key hstarted
    have hpast := (hinv.history _ _ _ hhad).1
    rw [hinode] at hpast
    exact ⟨hinode, era, contents, hhad, hpast, fun _ => List.nil_prefix⟩
  refine ⟨fun t _ hr => ⟨(hbusy.rely hr).active, trivial⟩, ?_⟩
  rintro now s₁ ⟨t₁, -, hr₁, ⟨-, rfl⟩, -⟩
  refine hashLoop_keeps (hbusy.rely hr₁) (hpart.rely hr₁) (fun s hb => ?_)
    (fun s data hb hwas => ?_)
  · refine ⟨fun t _ hr => ⟨(hb.rely hr).active, ⟨file, (hb.rely hr).1⟩, fun h => ?_⟩,
      fun _ _ _ => trivial⟩
    cases h
  · refine ⟨fun t _ hr => ⟨(hb.rely hr).active, ⟨file, (hb.rely hr).1⟩, fun _ => ?_⟩,
      fun _ _ _ => trivial⟩
    exact ⟨data, hwas.moves hr.1, rfl⟩

end Jobs

/-! ## Runs -/

/-- What the threads may rely on, and what they keep. -/
def discipline (sha256 : Bytes → Bytes) : (team sha256).Discipline where
  inv := Inv sha256
  rely := Rely
  allowed w := Allowed sha256 w
  before w s := match w with
    | .request n => Fresh n s
    | .job n => Pending n s
  after _ _ := True
  refl := Rely.refl
  trans := Rely.trans
  before_stable {w s t} h hrely := by
    cases w with
    | request n => exact Fresh.rely h hrely
    | job n => exact hrely.2.2 h
  after_stable _ _ := trivial
  env := env_keeps
  act := act_keeps
  begins := by
    rintro w s p hinv hbefore hbegins
    cases hbegins with
    | request => exact status_keeps hbefore
    | job hstarted => exact job_keeps hinv hstarted hbefore

/-- The cache of base image proofs, in every run: a request that returns a verified proof returns
the digest of the contents that it sampled, at most one job is working, and the cache holds at
most four entries with distinct keys. -/
theorem proofs_sound {start : World} (hstart : Start start) {c : World × (Who → Thread Act)}
    (h : (team sha256).Reaches start c) :
    (∀ n proof, c.1.replies n = some proof → proof.status = .verified →
      ∃ contents, c.1.sampled n = some contents ∧ proof.contentDigest = some (sha256 contents)) ∧
    (∀ n m, c.1.started n ≠ none → Working (c.2 (.job n)) →
      c.1.started m ≠ none → Working (c.2 (.job m)) → n = m) ∧
    c.1.cache.entries.length ≤ 4 ∧ (c.1.cache.entries.map (·.key)).Nodup := by
  obtain ⟨hinv, hknows⟩ := (discipline sha256).reaches h (inv_start hstart) fun w => by
    cases w with
    | request n => exact ⟨hstart.started n, hstart.replies n⟩
    | job n =>
      intro x hx
      rw [hstart.started n] at hx
      cases hx
  have hactive (n : ℕ) (hn : c.1.started n ≠ none) (hworking : Working (c.2 (.job n))) :
      c.1.active = some n := by
    obtain ⟨x, hx⟩ := Option.ne_none_iff_exists'.mp hn
    have hknow := hknows (.job n)
    cases hthread : c.2 (.job n) with
    | idle =>
      rw [hthread] at hknow
      exact hknow x hx
    | ended =>
      rw [hthread] at hworking
      exact hworking.elim
    | runs p =>
      rw [hthread] at hknow hworking
      obtain ⟨t, -, hrely, hkeeps⟩ := hknow
      cases p with
      | done u => exact hworking.elim
      | act a next => exact (hkeeps.1 c.1 hinv hrely).1
  refine ⟨hinv.answers, fun n m hn hnw hm hmw => ?_, hinv.few, hinv.distinct⟩
  exact Option.some.inj ((hactive n hn hnw).symm.trans (hactive m hm hmw))

section Sample

variable {start : World} {threads : Who → Thread Act} {path : FilePath} {artifactDigest : Bytes}

/-- A request that finds a suitable file samples it and gets to the cache. -/
theorem status_reaches
    (h : (team sha256).Reaches start
      (s, Function.update threads (.request n) (.runs (status path artifactDigest))))
    (hdigest : Volume.projectDigest artifactDigest = true) (hname : s.names path = some i)
    (hsuitable : unsuitable (stat i (s.nodes i)) = false) :
    (team sha256).Reaches start (s.sample (.request n) (s.nodes i).contents,
      Function.update threads (.request n)
        (.runs (.act (.consult i ⟨path, artifactDigest, identity i (s.nodes i)⟩) fun proof =>
          .act (.answer proof) .done))) := by
  unfold status source at h
  rw [if_neg (by rw [hdigest]; decide)] at h
  have hreal := h.act (b := some path) rfl
  simp only [ne_eq, not_true_eq_false, if_false] at hreal
  have hsampled := hreal.act (b := some (stat i (s.nodes i)))
    (.inr ⟨i, hname, rfl, rfl⟩)
  simp only [hsuitable, Bool.false_eq_true, if_false] at hsampled
  have hopened := hsampled.act (b := some i) rfl
  have hread := hopened.act (b := some (stat i (s.nodes i))) ⟨.inr rfl, rfl⟩
  simp only [not_true_eq_false, if_false] at hread
  exact hread

/-- A job that nobody disturbs hashes a file that fits into its buffer. -/
theorem job_reaches
    (h : (team sha256).Reaches start
      (s, Function.update threads (.job n) (.runs (job sha256 i key))))
    (hname : s.names key.path = some i) (hkey : key.identity = identity i (s.nodes i))
    (hne : (s.nodes i).contents ≠ []) (hfits : (s.nodes i).contents.length ≤ bufferSize) :
    (team sha256).Reaches start
      ({ s with
          cache := s.cache.finish key ⟨.verified, some (sha256 (s.nodes i).contents)⟩ s.now
          active := none },
        Function.update threads (.job n) (.runs (.done ()))) := by
  have hbytes : key.identity.bytes = (s.nodes i).contents.length := congrArg Identity.bytes hkey
  have hmeta : Identity.read (stat i (s.nodes i)) = key.identity := hkey.symm
  have hfirst : slice (s.nodes i).contents 0 bufferSize = (s.nodes i).contents := by
    unfold slice
    rw [List.drop_zero, List.take_of_length_le hfits]
  have hlast : slice (s.nodes i).contents (s.nodes i).contents.length bufferSize = [] := by
    unfold slice
    rw [List.drop_length, List.take_nil]
  have hsoon : ¬ s.now + 300 * second ≤ s.now := by
    unfold second
    omega
  have hbuffer : 0 < bufferSize := by decide
  obtain ⟨byte, rest, hcontents⟩ := List.exists_cons_of_ne_nil hne
  unfold job at h
  have hbegun := h.act (b := s.now) ⟨rfl, rfl⟩
  rw [hashLoop] at hbegun
  have hclock := hbegun.act (b := s.now) ⟨rfl, rfl⟩
  rw [if_neg hsoon] at hclock
  have hread := hclock.act (b := some (byte :: rest))
    ⟨.inr ⟨bufferSize, hbuffer, le_rfl, by rw [List.length_nil, hfirst, hcontents]⟩, rfl⟩
  have hwhole : ¬ key.identity.bytes < ([] ++ byte :: rest).length := by
    rw [hbytes, hcontents]
    exact lt_irrefl _
  simp only [if_neg hwhole] at hread
  rw [List.nil_append, hashLoop] at hread
  have hclock := hread.act (b := s.now) ⟨rfl, rfl⟩
  rw [if_neg hsoon] at hclock
  have hdone := hclock.act (b := some [])
    ⟨.inr ⟨bufferSize, hbuffer, le_rfl, by rw [← hcontents, hlast]⟩, rfl⟩
  simp only [conclude] at hdone
  have hafter := hdone.act (b := some (stat i (s.nodes i))) ⟨.inr rfl, rfl⟩
  have hpath := hafter.act (b := some (stat i (s.nodes i))) (.inr ⟨i, hname, rfl, rfl⟩)
  have hsame : ¬ ((s.nodes i).contents.length ≠ key.identity.bytes ∨
      Identity.read (stat i (s.nodes i)) ≠ key.identity ∨
      Identity.read (stat i (s.nodes i)) ≠ key.identity) := by
    rw [hbytes, hmeta]
    simp
  rw [← hcontents] at hpath
  simp only [if_neg hsame] at hpath
  exact hpath.act (b := ()) (Or.inr rfl)

/-- What a job has found out is answered from the cache. -/
theorem Cache.consult_finish {c : Cache} (key : Key) (proof : Proof) (hc : c.entries = [])
    (hproof : proof.status ≠ .invalid) (ended now : ℕ) (spawns : Bool) :
    (c.finish key proof ended).entries = [⟨key, proof, none⟩] ∧
      (c.finish key proof ended).consult key now spawns =
        (c.finish key proof ended, proof, false) := by
  have hentries : (c.finish key proof ended).entries = [⟨key, proof, none⟩] := by
    simp [finish, hc, hproof]
  refine ⟨hentries, ?_⟩
  unfold consult
  simp [hentries]

/-- A regular file. -/
def regular (contents : Bytes) (mtime : ℤ) : Node := ⟨contents, true, mtime, 0, 0, 0, 0, 0, 0, 1⟩

/-- Every name is one of the same file. -/
def fresh (f : Node) : World where
  nodes _ := f
  names _ := some (0, 0)
  now := 0
  cache := ⟨false, 0, []⟩
  era _ := 0
  had id := if id = identity id.inode f then some (0, f.contents) else none
  sampled _ := none
  replies _ := none
  started _ := none
  active := none

theorem fresh_start (f : Node) : Start (fresh f) where
  files i := if_pos rfl
  history id era contents h := by
    have hhad : (if id = identity id.inode f then some (0, f.contents) else none) =
        some (era, contents) := h
    split_ifs at hhad
    cases hhad
    exact ⟨le_rfl, fun _ => rfl⟩
  cache := rfl
  replies _ := rfl
  started _ := rfl
  active := rfl

theorem suitable_regular {contents : Bytes} (h : contents.length = 65536) (mtime : ℤ) :
    unsuitable (stat i (regular contents mtime)) = false := by
  have hlen : (stat i (regular contents mtime)).len = 65536 := h
  have hfile : (stat i (regular contents mtime)).isFile = true := rfl
  have hmode : (stat i (regular contents mtime)).mode = 0 := rfl
  unfold unsuitable
  rw [hlen, hfile, hmode]
  decide

/-- A request has the file hashed. The next one samples it, the file is changed, and the request is
answered with the hash of what it sampled. -/
theorem proofs_sound_sample : ∃ (image changed : Bytes) (c : World × (Who → Thread Act)),
    (team id).Reaches (fresh (regular image 0)) c ∧ image ≠ changed ∧
      (c.1.nodes (0, 0)).contents = changed ∧
      c.1.replies 0 = some (.unavailable .verifying) ∧
      c.1.replies 1 = some ⟨.verified, some image⟩ ∧ c.1.sampled 1 = some image ∧
      c.1.cache.entries.length = 1 := by
  obtain ⟨image, himage⟩ : ∃ image : Bytes, image.length = 65536 :=
    ⟨List.replicate 65536 7, List.length_replicate⟩
  let digest : Bytes := List.replicate 64 48
  have hdigest : Volume.projectDigest digest = true := by decide
  have hsuitable := suitable_regular (i := (0, 0)) himage 0
  let key : Key := ⟨[47], digest, identity (0, 0) (regular image 0)⟩
  -- the first request starts a job
  have hrefl : (team id).Reaches (fresh (regular image 0))
    (fresh (regular image 0), fun _ => .idle) :=
    .refl
  have hfirst (s : World) (n : ℕ) : (team id).begins (.request n) s (status [47] digest) :=
    Begins.request
  have hbegun₀ := hrefl.begins rfl (hfirst _ 0)
  have hsampled₀ := status_reaches hbegun₀ hdigest rfl hsuitable
  have hconsulted₀ := hsampled₀.act (b := .unavailable .verifying)
    (.inr ⟨0, true, rfl, rfl, rfl⟩)
  have hanswered₀ := hconsulted₀.act (b := ()) ⟨0, rfl, rfl⟩
  have hjob (s : World) (h : s.started 0 = some ((0, 0), key)) :
      (team id).begins (.job 0) s (job id (0, 0) key) := Begins.job h
  have hbegun := hanswered₀.begins rfl (hjob _ rfl)
  have hne : image ≠ [] := by
    rintro rfl
    cases himage
  have hfits : image.length ≤ bufferSize := by
    rw [himage]
    decide
  have hfinished := job_reaches hbegun rfl rfl hne hfits
  -- the file is changed after the second request has sampled it
  have hbegun₁ := hfinished.begins rfl (hfirst _ 1)
  have hsampled₁ := status_reaches hbegun₁ hdigest rfl hsuitable
  have hother : identity (0, 0) (regular [] 1) ≠ identity (0, 0) (regular image 0) := by
    intro h
    cases congrArg Identity.mtime h
  have hchanged := hsampled₁.env (.contents (i := (0, 0)) (f := regular [] 1) (if_neg hother))
  -- and the request finds the proof of what it sampled
  obtain ⟨hentries, hfound⟩ := Cache.consult_finish (c := ⟨true, 1, []⟩) key
    ⟨.verified, some image⟩ rfl (fun h => nomatch h) 0 0 true
  have hconsulted₁ := hchanged.act (b := ⟨.verified, some image⟩)
    (.inr ⟨1, true, rfl, (congrArg (·.2.1) hfound).symm, rfl⟩)
  have hanswered₁ := hconsulted₁.act (b := ()) ⟨1, rfl, rfl⟩
  obtain ⟨contents, hsampled, hproof⟩ := (proofs_sound (fresh_start _) hanswered₁).1 1
    ⟨.verified, some image⟩ rfl rfl
  have hread : contents = image := (Option.some.inj hproof).symm
  rw [hread] at hsampled
  exact ⟨image, [], _, hanswered₁, hne, rfl, rfl, rfl, hsampled,
    (congrArg (·.1.entries.length) hfound).trans (congrArg List.length hentries)⟩

end Sample

end AgentHouse.Engine.Proving
