import AgentHouse.Forge.Atomic

/-!
# The transfers keep to their discipline

Each program by itself, with the actions of the others in between: it writes to its own temporary
file only, renames it when it is complete, and lets go of it at the end.
-/

namespace AgentHouse.Forge.Transfers

open Op

variable {cfg : Config} {start s t : World} {w : Who} {ok : Name → Prop} {c : ℕ}

/-- The contract of the transfer `w`. -/
abbrev contract (cfg : Config) (ok : Name → Prop) (start : World) (w : Who) : Contract Act World :=
  (team cfg ok).contract (Inv cfg start) (Rely cfg w) (Allowed cfg w) w

/-- A fact that the others keep, and the own actions in the directory. -/
structure Kept (cfg : Config) (w : Who) (J : World → Prop) : Prop where
  rely : ∀ {s t}, J s → Rely cfg w s t → J t
  files : ∀ {s t : World}, J s → t.up = s.up → t.taken = s.taken → J t

/-- The agent has read these frames. -/
def Took (c : ℕ) (frames : List Up) (s : World) : Prop :=
  frames <+: s.up c ∧ s.taken c = frames.length

theorem kept_took {frames : List Up} : Kept cfg (.agent c) (Took c frames) where
  rely h hrely := ⟨h.1.trans (hrely.up c), (hrely.taken c rfl).trans h.2⟩
  files h hup htaken := ⟨hup ▸ h.1, htaken ▸ h.2⟩

theorem kept_true : Kept cfg w fun _ => True := ⟨fun _ _ => trivial, fun _ _ _ => trivial⟩

/-- The transfer holds a temporary file with these contents. -/
def Holds (w : Who) (x : Name) (i : ℕ) (d : Bytes) (s : World) : Prop :=
  s.held w = some (x, i) ∧ s.contents i = d

/-- Nobody else writes a held file. -/
theorem Holds.rely {x : Name} {i : ℕ} {d : Bytes} (h : Holds w x i d s) (hrely : Rely cfg w s t) :
    Holds w x i d t :=
  ⟨hrely.held.trans h.1, (hrely.contents x i h.1).trans h.2⟩

/-! ## Temporary files -/

/-- What `unique_sibling` leaves: a new file, or none. -/
def Sibling (w : Who) (J : World → Prop) :
    Except String (Option (Name × ℕ)) → World → Prop
  | .ok none, s => J s ∧ s.held w = none
  | .ok (some (x, i)), s => J s ∧ Holds w x i [] s
  | .error _, _ => False

/-- A call of the system that fails changes nothing. -/
theorem call_keeps {what : String} {Q : Except String Unit → World → Prop}
    (hQ : ∀ r t, Inv cfg start t → Rely cfg w s t → Q r t) :
    (attempt (.call what) : Op Act String Unit).Keeps (contract cfg ok start w) Q s := by
  refine keeps_attempt.mpr ⟨fun _ _ _ => trivial, ?_⟩
  rintro r s' ⟨t, hinv, hrely, rfl, -⟩
  exact hQ r _ hinv hrely

/-- A sibling is created under a free name, or none is. -/
theorem uniqueSibling_keeps {J : World → Prop} (hok : ∀ x, ok x → x ≠ cfg.dest)
    (hJ : Kept cfg w J) (tries : ℕ) (hs : J s) (hheld : s.held w = none) :
    (uniqueSibling tries).Keeps (contract cfg ok start w) (Sibling w J) s := by
  induction tries generalizing s with
  | zero => exact ⟨hs, hheld⟩
  | succ tries ih =>
    refine keeps_bind.mpr (keeps_perform.mpr ⟨fun _ _ _ => trivial, ?_⟩)
    rintro cand s' ⟨t, -, hrely, ⟨nanos, -, -, hname, rfl⟩, -⟩
    have hs' : J { t with counter := (t.counter + 1) % 2 ^ 64 } :=
      hJ.files (hJ.rely hs hrely) rfl rfl
    have hheld' : t.held w = none := hrely.held.trans hheld
    refine keeps_bind.mpr (keeps_perform.mpr ⟨?_, ?_⟩)
    · intro u _ hu
      exact ⟨hu.held.trans hheld', hok _ hname⟩
    · rintro r s'' ⟨u, -, hu, he, -⟩
      have hsu : J u := hJ.rely hs' hu
      have hheldu : u.held w = none := hu.held.trans hheld'
      rcases he with ⟨-, rfl, rfl⟩ | ⟨-, rfl, rfl⟩ | ⟨rfl, rfl⟩
      · exact ⟨hJ.files hsu rfl rfl, Function.update_self .., Function.update_self ..⟩
      · exact ih hsu hheldu
      · exact ⟨hsu, hheldu⟩

/-- What `write_all` leaves. -/
def Written (w : Who) (J : World → Prop) (x : Name) (i : ℕ) (d : Bytes) :
    Except String Unit → World → Prop
  | .ok (), s => J s ∧ Holds w x i d s
  | .error _, s => s.held w = some (x, i)

/-- By induction on the fuel, the file holds what was there and then the data. -/
theorem writeAll_keeps {J : World → Prop} (hJ : Kept cfg w J) {x : Name} {i fuel : ℕ}
    {d data : Bytes} (hs : J s) (hfile : Holds w x i d s) :
    (writeAll i fuel data).Keeps (contract cfg ok start w) (Written w J x i (d ++ data)) s := by
  induction fuel generalizing s d data with
  | zero =>
    rw [writeAll]
    split
    · rename_i hempty
      subst hempty
      exact ⟨hs, by rwa [List.append_nil]⟩
    · exact hfile.1
  | succ fuel ih =>
    rw [writeAll]
    split
    · rename_i hempty
      subst hempty
      exact ⟨hs, by rwa [List.append_nil]⟩
    · refine keeps_bind.mpr (keeps_attempt.mpr ⟨?_, ?_⟩)
      · intro t _ hrely
        exact ⟨x, hrely.held.trans hfile.1⟩
      · rintro r s' ⟨t, -, hrely, he, -⟩
        have hfile' := hfile.rely hrely
        rcases he with ⟨n, -, -, rfl, rfl⟩ | ⟨e, rfl, rfl⟩
        · have hnext : Holds w x i (d ++ data.take n) { t with
              contents := Function.update t.contents i (t.contents i ++ data.take n) } :=
            ⟨hfile'.1, (Function.update_self ..).trans (by rw [hfile'.2])⟩
          have hkept : J { t with
              contents := Function.update t.contents i (t.contents i ++ data.take n) } :=
            hJ.files (hJ.rely hs hrely) rfl rfl
          have hrest : data.take n ++ data.drop n = data := List.take_append_drop n data
          rw [← hrest, ← List.append_assoc, hrest]
          exact ih hkept hnext
        · exact hfile'.1

/-- The file is let go of, whatever becomes of `body`. -/
theorem cleaning_keeps {α : Type} {tmp : Name} {body : Op Act String α} {Q : α → World → Prop}
    (h : body.Keeps (contract cfg ok start w) (fun
      | .ok a => Q a
      | .error _ => fun s => ∃ i, s.held w = some (tmp, i)) s) :
    (cleaning tmp body).Keeps (contract cfg ok start w) (fun
      | .ok a => Q a
      | .error _ => fun s => s.held w = none) s := by
  refine keeps_bind.mpr (Prog.keeps_bind.mpr (Prog.Keeps.mono h ?_))
  rintro (e | a) s' hs'
  · obtain ⟨i, hheld⟩ := hs'
    refine keeps_bind.mpr (keeps_perform.mpr ⟨fun t _ hrely => ⟨i, hrely.held.trans hheld⟩, ?_⟩)
    rintro u s'' ⟨t, -, -, rfl, -⟩
    exact Function.update_self ..
  · exact hs'

/-! ## The agent -/

theorem stall_keeps {α : Type} {Q : Except String α → World → Prop} {f : Empty → Op Act String α} :
    (perform (.stall : Act Empty) >>= f : Op Act String α).Keeps (contract cfg ok start w) Q s := by
  refine keeps_bind.mpr (keeps_perform.mpr ⟨fun _ _ _ => trivial, ?_⟩)
  rintro b s' ⟨t, -, -, he, -⟩
  exact he.elim

/-- The next frame is behind those that were read. -/
theorem took_next {frames : List Up} {frame : Up} (h : Took c frames t)
    (hframe : (t.up c)[t.taken c]? = some frame) :
    Took c (frames ++ [frame])
      { t with taken := Function.update t.taken c (t.taken c + 1) } := by
  obtain ⟨⟨rest, hrest⟩, htaken⟩ := h
  constructor
  · rw [htaken, ← hrest, List.getElem?_append_right (Nat.le_refl _), Nat.sub_self] at hframe
    obtain ⟨x, l, hl⟩ : ∃ x l, rest = x :: l := by
      cases rest with
      | nil => cases hframe
      | cons x l => exact ⟨x, l, rfl⟩
    rw [hl, List.getElem?_cons_zero] at hframe
    cases hframe
    exact ⟨l, by rw [← hrest, hl, List.append_assoc, List.singleton_append]⟩
  · show Function.update t.taken c (t.taken c + 1) c = _
    rw [Function.update_self, htaken, List.length_append, List.length_singleton]

/-- A frame is taken in its order. -/
theorem recv_keeps {frames : List Up} {Q : Except String Up → World → Prop}
    (hs : Took c frames s)
    (hok : ∀ frame t, Rely cfg (.agent c) s t → Took c (frames ++ [frame])
      { t with taken := Function.update t.taken c (t.taken c + 1) } →
      Q (.ok frame) { t with taken := Function.update t.taken c (t.taken c + 1) })
    (herror : ∀ e t, Rely cfg (.agent c) s t → Q (.error e) t) :
    (attempt (.recv c) : Op Act String Up).Keeps (contract cfg ok start (.agent c)) Q s := by
  refine keeps_attempt.mpr ⟨fun _ _ _ => rfl, ?_⟩
  rintro r s' ⟨t, -, hrely, he, -⟩
  rcases he with ⟨frame, hframe, rfl, rfl⟩ | ⟨e, rfl, rfl⟩
  · exact hok frame t hrely (took_next (kept_took.rely hs hrely) hframe)
  · exact herror e _ hrely

/-- What a transfer of the agent leaves: on success its contents are published. -/
def Published (w : Who) (x : Name) : Except String ℕ → World → Prop
  | .ok n, s => s.held w = none ∧ ∃ bytes, ⟨w, bytes⟩ ∈ s.commits ∧ bytes.length = n
  | .error _, s => ∃ i, s.held w = some (x, i)

/-- The rename of a complete file. -/
theorem rename_keeps {J : World → Prop} (hJ : Kept cfg w J) {x : Name} {i : ℕ} {d : Bytes} {n : ℕ}
    (hs : J s) (hfile : Holds w x i d s) (hcomplete : ∀ t, J t → Complete cfg t ⟨w, d⟩)
    (hn : d.length = n) :
    (do attempt (.rename x); return n : Op Act String ℕ).Keeps (contract cfg ok start w)
      (Published w x) s := by
  refine keeps_bind.mpr (keeps_attempt.mpr ⟨?_, ?_⟩)
  · intro t _ hrely
    have hfile' := hfile.rely hrely
    exact ⟨i, hfile'.1, hfile'.2.symm ▸ hcomplete t (hJ.rely hs hrely)⟩
  · rintro r s' ⟨t, hinv, hrely, he, -⟩
    have hfile' := hfile.rely hrely
    rcases he with ⟨j, hname, rfl, rfl⟩ | ⟨e, rfl, rfl⟩
    · obtain rfl : i = j := by
        have := (hinv.directory.heldAt w x i hfile'.1).1
        rw [hname] at this
        exact (Option.some.inj this).symm
      exact ⟨Function.update_self .., d, hfile'.2 ▸ List.mem_cons_self, hn⟩
    · exact ⟨i, hfile'.1⟩

/-- By induction on the fuel, the file holds the chunks taken so far. -/
theorem receive_keeps {x : Name} {i : ℕ} (fuel : ℕ) {chunks : List Bytes}
    (hs : Took c (.request :: chunks.map .data) s)
    (hfile : Holds (.agent c) x i chunks.flatten s) :
    (receive c x i fuel chunks.flatten.length).Keeps (contract cfg ok start (.agent c))
      (Published (.agent c) x) s := by
  induction fuel generalizing s chunks with
  | zero => exact stall_keeps
  | succ fuel ih =>
    refine keeps_bind.mpr (recv_keeps hs (fun frame t hrely htook => ?_) fun e t hrely => ?_)
    swap
    · exact ⟨i, (hfile.rely hrely).1⟩
    have hmoved : Holds (.agent c) x i chunks.flatten t := hfile.rely hrely
    have hfile' : Holds (.agent c) x i chunks.flatten
        { t with taken := Function.update t.taken c (t.taken c + 1) } := hmoved
    cases frame with
    | request => exact ⟨i, hfile'.1⟩
    | other => exact ⟨i, hfile'.1⟩
    | data payload =>
      have hframes : (.request :: chunks.map .data) ++ [Up.data payload] =
          .request :: (chunks ++ [payload]).map .data := by simp
      rw [hframes] at htook
      refine keeps_ite.mpr ⟨fun _ => ⟨i, hfile'.1⟩, fun _ => ?_⟩
      refine keeps_bind.mpr ((writeAll_keeps kept_took htook hfile').mono ?_)
      rintro (e | ⟨⟩) s' hs'
      · exact ⟨i, hs'⟩
      · obtain ⟨htook', hwritten⟩ := hs'
        refine keeps_ite.mpr ⟨fun _ => ?_, fun _ => ⟨i, hwritten.1⟩⟩
        have hflat : chunks.flatten ++ payload = (chunks ++ [payload]).flatten := by simp
        have hlen : chunks.flatten.length + payload.length =
            (chunks ++ [payload]).flatten.length := by rw [← hflat, List.length_append]
        rw [hflat] at hwritten
        rw [hlen]
        exact ih htook' hwritten
    | commit claimed =>
      cases claimed with
      | none => exact ⟨i, hfile'.1⟩
      | some claimed =>
        refine keeps_ite.mpr ⟨fun _ => ⟨i, hfile'.1⟩, fun hclaimed => ?_⟩
        rw [not_not] at hclaimed
        subst hclaimed
        refine keeps_bind.mpr (call_keeps fun r u _ hu => ?_)
        cases r with
        | error e => exact ⟨i, (hfile'.rely hu).1⟩
        | ok =>
          refine rename_keeps kept_took (kept_took.rely htook hu) (hfile'.rely hu) ?_ rfl
          exact fun v hv => ⟨_, hv.1, chunks, rfl, rfl⟩

/-- A transfer that has ended holds nothing, and on success its contents are published. -/
def Settled (w : Who) : Except String ℕ → World → Prop
  | .ok n, s => s.held w = none ∧ ∃ bytes, ⟨w, bytes⟩ ∈ s.commits ∧ bytes.length = n
  | .error _, s => s.held w = none

/-- Whatever becomes of the work on the temporary file, it is let go of. -/
theorem settled_cleaning {x : Name} {body : Op Act String ℕ}
    (h : body.Keeps (contract cfg ok start w) (Published w x) s) :
    (cleaning x body).Keeps (contract cfg ok start w) (Settled w) s := by
  refine (cleaning_keeps (Q := fun n s => s.held w = none ∧
    ∃ bytes, ⟨w, bytes⟩ ∈ s.commits ∧ bytes.length = n) (h.mono ?_)).mono ?_
  · rintro (e | n) t ht <;> exact ht
  · rintro (e | n) t ht <;> exact ht

theorem answer_ready_keeps {Q : Except String Unit → World → Prop}
    (hQ : ∀ r t u, Rely cfg (.agent c) s t → u.held = t.held → u.contents = t.contents →
      u.up = t.up → u.taken = t.taken → Q r u) :
    (attempt (.answer c .ready) : Op Act String Unit).Keeps (contract cfg ok start (.agent c)) Q s
    := by
  refine keeps_attempt.mpr ⟨fun _ _ _ => ⟨rfl, nofun⟩, ?_⟩
  rintro r s' ⟨t, -, hrely, he, -⟩
  rcases he with rfl | ⟨e, -, rfl⟩
  · exact hQ r t _ hrely rfl rfl rfl rfl
  · exact hQ r s' s' hrely rfl rfl rfl rfl

/-- An upload publishes whole or not at all. -/
theorem upload_keeps (hok : ∀ x, ok x → x ≠ cfg.dest) {fuel : ℕ} (hs : Took c [.request] s)
    (hheld : s.held (.agent c) = none) :
    (upload c fuel).Keeps (contract cfg ok start (.agent c)) (Settled (.agent c)) s := by
  have hcall {s : World} {what : String} {next : Op Act String ℕ}
      (hs : Took c [.request] s) (hheld : s.held (.agent c) = none)
      (hnext : ∀ t, Took c [.request] t → t.held (.agent c) = none →
        next.Keeps (contract cfg ok start (.agent c)) (Settled (.agent c)) t) :
      (do attempt (.call what); next : Op Act String ℕ).Keeps
        (contract cfg ok start (.agent c)) (Settled (.agent c)) s := by
    refine keeps_bind.mpr (call_keeps fun r t _ hrely => ?_)
    have hheld' : t.held (.agent c) = none := hrely.held.trans hheld
    cases r with
    | error e => exact hheld'
    | ok => exact hnext t (kept_took.rely hs hrely) hheld'
  refine hcall hs hheld fun t ht hheld => hcall ht hheld fun t ht hheld =>
    hcall ht hheld fun t ht hheld => ?_
  refine keeps_bind.mpr ((uniqueSibling_keeps hok kept_took 10 ht hheld).mono ?_)
  rintro (e | _ | ⟨x, i⟩) u hu
  · exact hu.elim
  · exact hu.2
  · obtain ⟨htook, hfile⟩ := hu
    refine settled_cleaning (keeps_bind.mpr (answer_ready_keeps ?_))
    intro r v v' hrely hheldv hcontents hup htaken
    have hfilev : Holds (.agent c) x i [] v' :=
      ⟨(congrFun hheldv _).trans (hfile.rely hrely).1,
        (congrFun hcontents _).trans (hfile.rely hrely).2⟩
    have hkept : Kept cfg (.agent c) (Took c [.request]) := kept_took
    have htookv : Took c [.request] v' := hkept.files (hkept.rely htook hrely) hup htaken
    cases r with
    | error e => exact ⟨i, hfilev.1⟩
    | ok =>
      have hnone : Took c (.request :: ([] : List Bytes).map .data) v' := htookv
      exact receive_keeps fuel hnone hfilev

/-- So does a connection, which leaves no file behind. -/
theorem serve_keeps (hok : ∀ x, ok x → x ≠ cfg.dest) {fuel : ℕ}
    (hheld : s.held (.agent c) = none) (htaken : s.taken c = 0) :
    (serve c fuel).Keeps (contract cfg ok start (.agent c))
      (fun _ t => t.held (.agent c) = none) s := by
  have hnone : Took c [] s := ⟨List.nil_prefix, htaken⟩
  refine keeps_bind.mpr (recv_keeps hnone (fun frame t hrely htook => ?_) fun e t hrely => ?_)
  swap
  · exact hrely.held.trans hheld
  have hheld' : t.held (.agent c) = none := hrely.held.trans hheld
  cases frame with
  | request =>
    refine keeps_bind.mpr (Prog.keeps_bind.mpr
      (Prog.Keeps.mono (upload_keeps hok htook hheld') ?_))
    rintro (message | n) u hu
    · refine keeps_attempt.mpr ⟨fun _ _ _ => ⟨rfl, nofun⟩, ?_⟩
      rintro r s' ⟨v, -, hv, he, -⟩
      rcases he with rfl | ⟨e, -, rfl⟩
      · exact hv.held.trans hu
      · exact hv.held.trans hu
    · obtain ⟨hheldu, bytes, hmem, hlen⟩ := hu
      refine keeps_attempt.mpr ⟨fun v _ hv => ⟨rfl, fun m hm => ?_⟩, ?_⟩
      · cases hm
        exact ⟨bytes, hv.commits _ hmem, hlen⟩
      · rintro r s' ⟨v, -, hv, he, -⟩
        rcases he with rfl | ⟨e, -, rfl⟩
        · exact hv.held.trans hheldu
        · exact hv.held.trans hheldu
  | data payload => exact hheld'
  | commit claimed => exact hheld'
  | other => exact hheld'

/-- A write publishes its whole content or nothing. -/
theorem serveWrite_keeps (hok : ∀ x, ok x → x ≠ cfg.dest) {k : ℕ}
    (hheld : s.held (.writer k) = none) :
    (serveWrite cfg k).Keeps (contract cfg ok start (.writer k)) (Settled (.writer k)) s := by
  have hcall {s : World} {what : String} {next : Op Act String ℕ}
      (hheld : s.held (.writer k) = none)
      (hnext : ∀ t : World, t.held (.writer k) = none →
        next.Keeps (contract cfg ok start (.writer k)) (Settled (.writer k)) t) :
      (do attempt (.call what); next : Op Act String ℕ).Keeps
        (contract cfg ok start (.writer k)) (Settled (.writer k)) s := by
    refine keeps_bind.mpr (call_keeps fun r t _ hrely => ?_)
    have hheld' : t.held (.writer k) = none := hrely.held.trans hheld
    cases r with
    | error e => exact hheld'
    | ok => exact hnext t hheld'
  rw [serveWrite]
  cases hdata : cfg.requests k with
  | none => exact hheld
  | some data =>
    refine keeps_ite.mpr ⟨fun _ => hheld, fun _ => ?_⟩
    refine hcall hheld fun t hheld => hcall hheld fun t hheld => ?_
    refine keeps_bind.mpr ((uniqueSibling_keeps hok kept_true 10 trivial hheld).mono ?_)
    rintro (e | _ | ⟨x, i⟩) u hu
    · exact hu.elim
    · exact hu.2
    · obtain ⟨-, hfile⟩ := hu
      have hwrite {v : World} (hv : Holds (.writer k) x i [] v) :
          (do writeAll i data.length data; attempt (.rename x); return data.length
            : Op Act String ℕ).Keeps (contract cfg ok start (.writer k))
            (Published (.writer k) x) v := by
        refine keeps_bind.mpr ((writeAll_keeps kept_true trivial hv).mono ?_)
        rintro (e | ⟨⟩) s' hs'
        · exact ⟨i, hs'⟩
        · exact rename_keeps kept_true trivial hs'.2 (fun _ _ => hdata) rfl
      refine settled_cleaning ?_
      -- the permissions of a cancellation marker are set before anything is written
      split
      · refine keeps_bind.mpr (call_keeps fun r v _ hv => ?_)
        cases r with
        | error e => exact ⟨i, (hfile.rely hv).1⟩
        | ok => exact hwrite (hfile.rely hv)
      · exact hwrite hfile

/-- A write request is answered with the number of its bytes, all of which were published. -/
theorem answerWrite_keeps (hok : ∀ x, ok x → x ≠ cfg.dest) {k : ℕ}
    (hheld : s.held (.writer k) = none) :
    (answerWrite cfg k).Keeps (contract cfg ok start (.writer k))
      (fun _ t => t.held (.writer k) = none) s := by
  refine keeps_bind.mpr ((serveWrite_keeps hok hheld).mono ?_)
  rintro (e | n) t ht
  · exact ht
  · obtain ⟨hheldt, bytes, hmem, hlen⟩ := ht
    refine keeps_perform.mpr ⟨fun u hinv hu => ?_, ?_⟩
    · have hmemu : ⟨.writer k, bytes⟩ ∈ u.commits := hu.commits _ hmem
      exact ⟨bytes, hinv.traffic.commits _ hmemu, hlen.symm, hmemu⟩
    · rintro r s' ⟨u, -, hu, rfl, -⟩
      exact hu.held.trans hheldt

/-! ## The engine -/

/-- The client holds no file and has sent what it has read. -/
structure Pumped (c : ℕ) (chunks : List Bytes) (s : World) : Prop where
  held : s.held (.client c) = none
  up : s.up c = .request :: chunks.map .data
  read : s.read c = chunks.flatten

theorem Pumped.rely {chunks : List Bytes} (h : Pumped c chunks s) (hc : cfg.engine c = true)
    (hrely : Rely cfg (.client c) s t) : Pumped c chunks t where
  held := hrely.held.trans h.held
  up := (hrely.sent c rfl hc).trans h.up
  read := (hrely.read c rfl).trans h.read

/-- No commit is among frames of data. -/
theorem Pumped.open {chunks : List Bytes} (h : Pumped c chunks s) (n : Option ℕ) :
    .commit n ∉ s.up c := by
  rw [h.up]
  simp

/-- Two uploads of which one begins like the other are of the same bytes. -/
theorem Whole.unique {l m : List Up} {a b : Bytes} (hl : Whole l a) (hm : Whole m b)
    (h : l <+: m) : a = b := by
  obtain ⟨as, rfl, rfl⟩ := hl
  obtain ⟨bs, rfl, rfl⟩ := hm
  have hchunks : ∀ (as bs : List Bytes) (x y : Option ℕ),
      as.map Up.data ++ [.commit x] <+: bs.map Up.data ++ [.commit y] → as = bs := by
    intro as
    induction as with
    | nil =>
      intro bs x y hpre
      cases bs with
      | nil => rfl
      | cons b bs => simp at hpre
    | cons a as ih =>
      intro bs x y hpre
      cases bs with
      | nil => simp at hpre
      | cons b bs =>
        simp only [List.map_cons, List.cons_append, List.cons_prefix_cons, Up.data.injEq] at hpre
        rw [hpre.1, ih bs x y hpre.2]
  rw [List.cons_append, List.cons_append, List.cons_prefix_cons] at h
  rw [hchunks as bs _ _ h.2]

/-- A frame that was sent. -/
def appended (c : ℕ) (frame : Up) (s : World) : World :=
  { s with up := Function.update s.up c (s.up c ++ [frame]) }

/-- A frame that was sent without an error. -/
theorem sent_ok {frame : Up} {u : Unit}
    (he : (team cfg ok).eff w (.send c frame) s (.ok u) t) : t = appended c frame s := by
  rcases he with rfl | ⟨e, he, -⟩
  · rfl
  · cases he

/-- What a client leaves: on success all it has read is published. -/
def Reported (c : ℕ) : Except String ℕ → World → Prop
  | .ok n, s => s.held (.client c) = none ∧ n = (s.read c).length ∧
    ⟨.agent c, s.read c⟩ ∈ s.commits ∧ Whole (s.up c) (s.read c)
  | .error _, s => s.held (.client c) = none

/-- A reply was sent by the agent. -/
theorem reply_keeps {Q : Except String Down → World → Prop}
    (hQ : ∀ r t u, Inv cfg start t → Rely cfg (.client c) s t → u.held = t.held → u.up = t.up →
      u.read = t.read → u.commits = t.commits →
      (∀ frame, r = .ok frame → frame ∈ t.down c) → Q r u) :
    (attempt (.reply c) : Op Act String Down).Keeps (contract cfg ok start (.client c)) Q s := by
  refine keeps_attempt.mpr ⟨fun _ _ _ => rfl, ?_⟩
  rintro r s' ⟨t, hinv, hrely, he, -⟩
  rcases he with ⟨frame, hframe, rfl, rfl⟩ | ⟨e, rfl, rfl⟩
  · refine hQ _ t _ hinv hrely rfl rfl rfl rfl fun frame' heq => ?_
    cases heq
    exact List.mem_of_getElem? hframe
  · exact hQ _ s' s' hinv hrely rfl rfl rfl rfl nofun

/-- The commit is reported only when the agent has acknowledged it. -/
theorem finish_keeps (hc : cfg.engine c = true) {chunks : List Bytes} (hs : Pumped c chunks s)
    (hexhausted : s.exhausted c = true) :
    (finish c chunks.flatten.length).Keeps (contract cfg ok start (.client c)) (Reported c) s := by
  have hwhole {t : World} (ht : Pumped c chunks t) :
      Whole (t.up c ++ [.commit (some chunks.flatten.length)]) (t.read c) := by
    rw [ht.up, ht.read]
    exact ⟨chunks, rfl, rfl⟩
  refine keeps_bind.mpr (keeps_attempt.mpr ⟨fun t _ hrely => ?_, ?_⟩)
  · have ht := hs.rely hc hrely
    refine ⟨rfl, hc, ht.open, fun n hn => ?_⟩
    cases hn
    exact ⟨(hrely.exhausted c rfl).trans hexhausted, hwhole ht⟩
  · rintro r s' ⟨t, -, hrely, he, -⟩
    have ht := hs.rely hc hrely
    cases r with
    | error e =>
      rcases he with rfl | ⟨e, -, rfl⟩
      · exact ht.held
      · exact ht.held
    | ok =>
      obtain rfl := sent_ok he
      refine keeps_bind.mpr (reply_keeps fun r u v hinv hu hheld hup hread hcommits hframe => ?_)
      have hheldv : v.held (.client c) = none :=
        (congrFun hheld _).trans (hu.held.trans ht.held)
      have hreadv : v.read c = chunks.flatten :=
        (congrFun hread c).trans ((hu.read c rfl).trans ht.read)
      have hupu : u.up c = t.up c ++ [.commit (some chunks.flatten.length)] :=
        (hu.sent c rfl hc).trans (Function.update_self ..)
      have hwholeu : Whole (u.up c) chunks.flatten := by
        have := hwhole ht
        rwa [ht.read, ← hupu] at this
      cases r with
      | error e => exact hheldv
      | ok frame =>
        cases frame with
        | ready => exact hheldv
        | failed message => exact hheldv
        | written n =>
          refine keeps_ite.mpr ⟨fun hn => ?_, fun _ => hheldv⟩
          -- the acknowledged contents are those of the one commit on the connection
          obtain ⟨bytes, hmem, -⟩ := hinv.traffic.down c n (hframe _ rfl)
          obtain ⟨frames, hpre, hcomplete⟩ := hinv.traffic.commits _ hmem
          obtain rfl := hcomplete.unique hwholeu hpre
          refine ⟨hheldv, hreadv ▸ rfl, ?_, ?_⟩
          · rw [hreadv, hcommits]
            exact hmem
          · rw [hreadv, hup]
            exact hwholeu

/-- By induction on the fuel, what was pumped is what was read. -/
theorem pump_keeps (hc : cfg.engine c = true) (fuel : ℕ) {chunks : List Bytes}
    (hs : Pumped c chunks s) :
    (pump c fuel chunks.flatten.length).Keeps (contract cfg ok start (.client c)) (Reported c) s
    := by
  induction fuel generalizing s chunks with
  | zero => exact stall_keeps
  | succ fuel ih =>
    refine keeps_bind.mpr (keeps_perform.mpr ⟨fun t _ hrely => ?_, ?_⟩)
    · exact ⟨rfl, hc, (hs.rely hc hrely).open⟩
    · rintro r s' ⟨t, -, hrely, he, -⟩
      have ht := hs.rely hc hrely
      rcases he with ⟨rfl, rfl⟩ | ⟨message, rfl, rfl⟩ | ⟨bytes, -, rfl, rfl⟩
      · exact ih ht
      · exact ht.held
      · by_cases hempty : bytes = []
        · subst hempty
          have hread : Function.update t.read c (t.read c ++ []) c = chunks.flatten := by
            rw [Function.update_self, List.append_nil]
            exact ht.read
          refine keeps_ite.mpr ⟨fun _ => finish_keeps hc ⟨ht.held, ht.up, hread⟩ ?_,
            fun h => absurd rfl h⟩
          show Function.update t.exhausted c _ c = true
          rw [Function.update_self, decide_eq_true rfl, Bool.or_true]
        · refine keeps_ite.mpr ⟨fun h => absurd h hempty, fun _ => ?_⟩
          have hread : Function.update t.read c (t.read c ++ bytes) c =
            chunks.flatten ++ bytes := by
            rw [Function.update_self]
            exact congrArg (· ++ bytes) ht.read
          refine keeps_bind.mpr (keeps_attempt.mpr ⟨fun u _ hu => ?_, ?_⟩)
          · refine ⟨rfl, hc, ?_, nofun⟩
            rw [hu.sent c rfl hc]
            exact ht.open
          · rintro r s'' ⟨u, -, hu, he, -⟩
            have hheldu : u.held (.client c) = none := hu.held.trans ht.held
            have hupu : u.up c = .request :: chunks.map .data := (hu.sent c rfl hc).trans ht.up
            have hreadu : u.read c = (chunks ++ [bytes]).flatten := by
              rw [(hu.read c rfl).trans hread]
              simp
            cases r with
            | error e =>
              rcases he with rfl | ⟨e, -, rfl⟩
              · exact hheldu
              · exact hheldu
            | ok =>
              obtain rfl := sent_ok he
              refine keeps_ite.mpr ⟨fun _ => ?_, fun _ => hheldu⟩
              have hlen : chunks.flatten.length + bytes.length =
                  (chunks ++ [bytes]).flatten.length := by simp
              rw [hlen]
              refine ih ⟨hheldu, ?_, hreadu⟩
              show Function.update u.up c (u.up c ++ [.data bytes]) c = _
              rw [Function.update_self, hupu]
              simp

/-- A client reports what it sent. -/
theorem fileUpload_keeps (hc : cfg.engine c = true) {fuel : ℕ}
    (hheld : s.held (.client c) = none) (hup : s.up c = []) (hread : s.read c = []) :
    (fileUpload c fuel).Keeps (contract cfg ok start (.client c)) (Reported c) s := by
  refine keeps_bind.mpr (call_keeps fun r t _ hrely => ?_)
  have hheldt : t.held (.client c) = none := hrely.held.trans hheld
  have hupt : t.up c = [] := (hrely.sent c rfl hc).trans hup
  have hreadt : t.read c = [] := (hrely.read c rfl).trans hread
  cases r with
  | error e => exact hheldt
  | ok =>
    refine keeps_bind.mpr (keeps_attempt.mpr ⟨fun u _ hu => ?_, ?_⟩)
    · refine ⟨rfl, hc, fun n hn => ?_, nofun⟩
      rw [hu.sent c rfl hc, hupt] at hn
      cases hn
    · rintro r s' ⟨u, -, hu, he, -⟩
      have hheldu : u.held (.client c) = none := hu.held.trans hheldt
      have hupu : u.up c = [] := (hu.sent c rfl hc).trans hupt
      have hreadu : u.read c = [] := (hu.read c rfl).trans hreadt
      cases r with
      | error e =>
        rcases he with rfl | ⟨e, -, rfl⟩
        · exact hheldu
        · exact hheldu
      | ok =>
        obtain rfl := sent_ok he
        have hpumped : Pumped c [] (appended c .request u) :=
          ⟨hheldu, (Function.update_self ..).trans (by rw [hupu]; rfl), hreadu⟩
        refine keeps_bind.mpr (reply_keeps fun r v v' _ hv hheldv hupv hreadv _ _ => ?_)
        have hv' := hpumped.rely hc hv
        have hnext : Pumped c [] v' :=
          ⟨(congrFun hheldv _).trans hv'.held, (congrFun hupv c).trans hv'.up,
            (congrFun hreadv c).trans hv'.read⟩
        cases r with
        | error e => exact hnext.held
        | ok frame =>
          cases frame with
          | ready => exact pump_keeps hc fuel hnext
          | written n => exact hnext.held
          | failed message => exact hnext.held

theorem report_keeps (hc : cfg.engine c = true) {fuel : ℕ}
    (hheld : s.held (.client c) = none) (hup : s.up c = []) (hread : s.read c = []) :
    (report c fuel).Keeps (contract cfg ok start (.client c))
      (fun _ t => t.held (.client c) = none) s := by
  refine keeps_bind.mpr ((fileUpload_keeps hc hheld hup hread).mono ?_)
  rintro (e | n) t ht
  · exact ht
  · obtain ⟨hheldt, hlen, hmem, hwhole⟩ := ht
    refine keeps_perform.mpr ⟨fun u _ hu => ?_, ?_⟩
    · refine ⟨hc, ?_, ?_, ?_⟩
      · rw [hu.read c rfl]
        exact hlen
      · rw [hu.read c rfl]
        exact hu.commits _ hmem
      · rw [hu.read c rfl, hu.sent c rfl hc]
        exact hwhole
    · rintro r s' ⟨u, -, hu, rfl, -⟩
      exact hu.held.trans hheldt

/-! ## Every run -/

/-- Before a transfer begins: it holds nothing and its connection is unused. -/
structure Unbegun (cfg : Config) (w : Who) (s : World) : Prop where
  held : s.held w = none
  taken : ∀ c, w = .agent c → s.taken c = 0
  up : ∀ c, w = .client c → cfg.engine c = true → s.up c = []
  read : ∀ c, w = .client c → s.read c = []

/-- Transfers that try no temporary file with the name of the destination. -/
def discipline (hstart : Start cfg start) (hok : ∀ x, ok x → x ≠ cfg.dest) :
    (team cfg ok).Discipline where
  inv := Inv cfg start
  rely := Rely cfg
  allowed w := Allowed cfg w
  before := Unbegun cfg
  after w s := s.held w = none
  refl := Rely.refl
  trans := Rely.trans
  before_stable h hrely := ⟨hrely.held.trans h.held,
    fun c hc => (hrely.taken c hc).trans (h.taken c hc),
    fun c hc he => (hrely.sent c hc he).trans (h.up c hc he),
    fun c hc => (hrely.read c hc).trans (h.read c hc)⟩
  after_stable h hrely := hrely.held.trans h
  env := env_keeps
  act := act_keeps hstart
  begins := by
    rintro w s p _ hbefore hbegins
    cases hbegins with
    | client hc =>
      exact keeps_thread.mpr
        (report_keeps hc hbefore.held (hbefore.up _ rfl hc) (hbefore.read _ rfl))
    | agent => exact keeps_thread.mpr (serve_keeps hok hbefore.held (hbefore.taken _ rfl))
    | writer => exact keeps_thread.mpr (answerWrite_keeps hok hbefore.held)

/-- What the destination shows: what it showed at the start, or all the bytes of one transfer that
was committed. -/
def Atomic (cfg : Config) (start s : World) : Prop :=
  (s.names cfg.dest = start.names cfg.dest ∧
    ∀ i, s.names cfg.dest = some i → s.contents i = start.contents i) ∨
  ∃ k ∈ s.commits, Complete cfg s k ∧ ∃ i, s.names cfg.dest = some i ∧ s.contents i = k.bytes

/-- Every other name is as at the start, or the temporary file of a transfer that is running. -/
def Tidy (cfg : Config) (start : World) (c : World × (Who → Thread Act)) : Prop :=
  ∀ x, x ≠ cfg.dest → c.1.names x = start.names x ∨
    ∃ w i p, c.2 w = .runs p ∧ c.1.held w = some (x, i)

/-- In every run in which no temporary file is given the name of the destination, the destination
is whole at every moment; a client or a write request that was told of success sent that many bytes
and they were published, and so did whoever got the acknowledgement of an upload; what has ended
leaves no temporary file; and a commit is sent for an exhausted source only. -/
theorem transfers_atomic (hstart : Start cfg start) {c : World × (Who → Thread Act)}
    (h : (team cfg (· ≠ cfg.dest)).Reaches start c) :
    Atomic cfg start c.1 ∧
      (∀ d n, c.1.told (.client d) = some n →
        (c.1.read d).length = n ∧ ⟨.agent d, c.1.read d⟩ ∈ c.1.commits) ∧
      (∀ k n, c.1.told (.writer k) = some n → ∃ bytes, cfg.requests k = some bytes ∧
        bytes.length = n ∧ ⟨.writer k, bytes⟩ ∈ c.1.commits) ∧
      (∀ d n, .written n ∈ c.1.down d → ∃ bytes, bytes.length = n ∧
        ⟨.agent d, bytes⟩ ∈ c.1.commits ∧ ∃ frames, frames <+: c.1.up d ∧ Whole frames bytes) ∧
      Tidy cfg start c ∧
      ∀ d n, cfg.engine d = true → .commit n ∈ c.1.up d →
        c.1.exhausted d = true ∧ Whole (c.1.up d) (c.1.read d) := by
  have hbefore (w : Who) : Unbegun cfg w start :=
    ⟨hstart.held w, fun c _ => hstart.taken c, fun c _ hc => hstart.up c hc,
      fun c _ => hstart.read c⟩
  obtain ⟨hinv, hknows⟩ :=
    (discipline hstart fun _ h => h).reaches h (inv_start hstart) hbefore
  refine ⟨?_, fun d n hn => ?_, fun k n hn => ?_, fun d n hn => ?_, fun x hx => ?_,
    fun d n => hinv.traffic.sent d n⟩
  · rcases hinv.directory.dest with hsame | ⟨k, hk, i, hi, hbytes⟩
    · refine .inl ⟨hsame, fun i hi => hinv.directory.old i ?_⟩
      exact hstart.inodes _ i (hsame.symm.trans hi)
    · exact .inr ⟨k, hk, hinv.traffic.commits k hk, i, hi, hbytes⟩
  · obtain ⟨-, hlen, hmem, -⟩ := hinv.traffic.told _ n hn
    exact ⟨hlen.symm, hmem⟩
  · obtain ⟨bytes, hbytes, hlen, hmem⟩ := hinv.traffic.told _ n hn
    exact ⟨bytes, hbytes, hlen.symm, hmem⟩
  · obtain ⟨bytes, hmem, hlen⟩ := hinv.traffic.down d n hn
    exact ⟨bytes, hlen, hmem, hinv.traffic.commits _ hmem⟩
  · refine (hinv.directory.others x hx).imp_right ?_
    rintro ⟨-, w, i, hheld⟩
    have hw := hknows w
    cases hthread : c.2 w with
    | idle =>
      rw [hthread] at hw
      have hnone : c.1.held w = none := hw.held
      rw [hheld] at hnone
      cases hnone
    | runs p => exact ⟨w, i, p, hthread, hheld⟩
    | ended =>
      rw [hthread] at hw
      have hnone : c.1.held w = none := hw
      rw [hheld] at hnone
      cases hnone

/-! ## A destination with the name of a temporary file -/

/-- One write request to a name that the agent tries first. -/
def planted : Config where
  dest := tempName 1 0 0
  pid := 1
  engine _ := false
  requests _ := some [104, 105]
  maxOutputBytes := 1024
  marker := false

/-- An empty directory. -/
def bare : World where
  names _ := none
  contents _ := []
  inodes := 0
  counter := 0
  held _ := none
  commits := []
  up _ := []
  taken _ := 0
  down _ := []
  seen _ := 0
  read _ := []
  exhausted _ := false
  told _ := none

/-- The file that is written is the destination, and a part of it is seen there. -/
theorem planted_write_is_seen : ∃ c, (team planted fun _ => True).Reaches bare c ∧
    ¬ Atomic planted bare c.1 ∧ c.1.names planted.dest = some 0 ∧ c.1.contents 0 = [104] ∧
      c.1.commits = [] := by
  have hbegins : (team planted fun _ => True).Reaches bare
      (bare, Function.update (fun _ => .idle) (.writer 0) (.runs (answerWrite planted 0).thread)) :=
    Team.Reaches.begins .refl rfl .writer
  have hjail := hbegins.act (b := .ok ()) (t := bare) rfl
  have hmkdir := hjail.act (b := .ok ()) (t := bare) rfl
  have hname := hmkdir.act (b := tempName 1 0 0) ⟨0, by decide, rfl, trivial, rfl⟩
  have hcreate := hname.act (b := .ok 0) (.inl ⟨rfl, rfl, rfl⟩)
  have hwrite := hcreate.act (b := .ok 1) (.inl ⟨1, by decide, by decide, rfl, rfl⟩)
  have hdest : Function.update bare.names planted.dest (some 0) planted.dest = some 0 :=
    Function.update_self ..
  refine ⟨_, hwrite, ?_, hdest, rfl, rfl⟩
  rintro (⟨hname, -⟩ | ⟨k, hk, -⟩)
  · cases hdest.symm.trans hname
  · cases hk

/-- The write request goes to another name. -/
def ordinary : Config := { planted with dest := "notes" }

/-- A run in which the request is published and answered. -/
theorem ordinary_write_is_atomic : ∃ c, (team ordinary (· ≠ ordinary.dest)).Reaches bare c ∧
    c.1.commits = [⟨.writer 0, [104, 105]⟩] ∧ c.1.told (.writer 0) = some 2 ∧
    Atomic ordinary bare c.1 := by
  have hbegins : (team ordinary (· ≠ ordinary.dest)).Reaches bare
      (bare, Function.update (fun _ => .idle) (.writer 0)
        (.runs (answerWrite ordinary 0).thread)) :=
    Team.Reaches.begins .refl rfl .writer
  have hjail := hbegins.act (b := .ok ()) (t := bare) rfl
  have hmkdir := hjail.act (b := .ok ()) (t := bare) rfl
  have hname := hmkdir.act (b := tempName 1 0 0) ⟨0, by decide, rfl, by decide, rfl⟩
  have hcreate := hname.act (b := .ok 0) (.inl ⟨rfl, rfl, rfl⟩)
  have hwrite := hcreate.act (b := .ok 2) (.inl ⟨2, by decide, by decide, rfl, rfl⟩)
  have htemp : Function.update bare.names (tempName 1 0 0) (some 0) (tempName 1 0 0) = some 0 :=
    Function.update_self ..
  have hrename := hwrite.act (b := .ok ()) (.inl ⟨0, htemp, rfl, rfl⟩)
  have htell := hrename.act (b := ()) rfl
  have htold : Function.update bare.told (.writer 0) (some 2) (.writer 0) = some 2 :=
    Function.update_self ..
  have hstart : Start ordinary bare := by
    refine ⟨fun x i h => ?_, fun _ => rfl, rfl, fun _ _ => rfl, fun _ => rfl, fun _ => rfl,
      fun _ => rfl, fun _ => rfl⟩
    cases h
  exact ⟨_, htell, rfl, htold, (transfers_atomic hstart htell).1⟩

end AgentHouse.Forge.Transfers
