import AgentHouse.Forge.Transfers

/-!
# Transfers are atomic

A transfer writes to a temporary file that only it holds, and publishes it by a rename when it is
complete. This holds while no temporary file has the name of the destination.
-/

namespace AgentHouse.Forge.Transfers

open Op

variable {cfg : Config} {start s t : World} {w : Who}

/-- The directory, for transfers that began from `start`: every name but the destination is as at
the start or a temporary file of one transfer, and the destination has what was published. -/
structure Directory (cfg : Config) (start s : World) : Prop where
  later : start.inodes ≤ s.inodes
  fresh : ∀ x i, s.names x = some i → i < s.inodes
  heldAt : ∀ w x i, s.held w = some (x, i) →
    s.names x = some i ∧ x ≠ cfg.dest ∧ start.inodes ≤ i
  alone : ∀ w x y i, s.names y = some i → s.held w = some (x, i) → y = x
  distinct : ∀ w v x y i, s.held w = some (x, i) → s.held v = some (y, i) → w = v
  others : ∀ x, x ≠ cfg.dest → s.names x = start.names x ∨
    start.names x = none ∧ ∃ w i, s.held w = some (x, i)
  old : ∀ i, i < start.inodes → s.contents i = start.contents i
  dest : s.names cfg.dest = start.names cfg.dest ∨
    ∃ k ∈ s.commits, ∃ i, s.names cfg.dest = some i ∧ s.contents i = k.bytes

/-- A success with `n` bytes is true: the transfer sent so many bytes, and all of them were
published. -/
def Truthful (cfg : Config) (s : World) : Who → ℕ → Prop
  | .client c, n => cfg.engine c = true ∧ n = (s.read c).length ∧
    ⟨.agent c, s.read c⟩ ∈ s.commits ∧ Whole (s.up c) (s.read c)
  | .agent _, _ => False
  | .writer k, n => ∃ bytes, cfg.requests k = some bytes ∧ n = bytes.length ∧
    ⟨.writer k, bytes⟩ ∈ s.commits

/-- It stays true while commits are added, and where the client sends and reads no more. -/
theorem Truthful.keep {n : ℕ} (h : Truthful cfg s w n) (hcommits : ∀ k ∈ s.commits, k ∈ t.commits)
    (hsame : ∀ c, cfg.engine c = true → Whole (s.up c) (s.read c) →
      t.up c = s.up c ∧ t.read c = s.read c) : Truthful cfg t w n := by
  cases w with
  | client c =>
    obtain ⟨hengine, hlen, hmem, hwhole⟩ := h
    obtain ⟨hup, hread⟩ := hsame c hengine hwhole
    refine ⟨hengine, ?_, ?_, ?_⟩
    · rw [hread]
      exact hlen
    · rw [hread]
      exact hcommits _ hmem
    · rw [hup, hread]
      exact hwhole
  | agent c => exact h
  | writer k =>
    obtain ⟨bytes, hbytes, hlen, hmem⟩ := h
    exact ⟨bytes, hbytes, hlen, hcommits _ hmem⟩

/-- The frames: what was published was sent, what is acknowledged was published. -/
structure Traffic (cfg : Config) (s : World) : Prop where
  commits : ∀ k ∈ s.commits, Complete cfg s k
  sent : ∀ c n, cfg.engine c = true → .commit n ∈ s.up c →
    s.exhausted c = true ∧ Whole (s.up c) (s.read c)
  down : ∀ c n, .written n ∈ s.down c → ∃ bytes, ⟨.agent c, bytes⟩ ∈ s.commits ∧ bytes.length = n
  told : ∀ w n, s.told w = some n → Truthful cfg s w n

/-- The invariant of the transfers: the files, and the frames between the two ends. -/
structure Inv (cfg : Config) (start s : World) : Prop where
  directory : Directory cfg start s
  traffic : Traffic cfg s

/-- What a transfer relies on of the others. -/
structure Rely (cfg : Config) (w : Who) (s t : World) : Prop where
  held : t.held w = s.held w
  contents : ∀ x i, s.held w = some (x, i) → t.contents i = s.contents i
  commits : ∀ k ∈ s.commits, k ∈ t.commits
  up : ∀ c, s.up c <+: t.up c
  taken : ∀ c, w = .agent c → t.taken c = s.taken c
  sent : ∀ c, w = .client c → cfg.engine c = true → t.up c = s.up c
  read : ∀ c, w = .client c → t.read c = s.read c
  exhausted : ∀ c, w = .client c → t.exhausted c = s.exhausted c

theorem Rely.refl (w : Who) (s : World) : Rely cfg w s s :=
  ⟨rfl, fun _ _ _ => rfl, fun _ h => h, fun _ => List.prefix_refl _, fun _ _ => rfl,
    fun _ _ _ => rfl, fun _ _ => rfl, fun _ _ => rfl⟩

theorem Rely.trans {u : World} (h : Rely cfg w s t) (h' : Rely cfg w t u) : Rely cfg w s u where
  held := h'.held.trans h.held
  contents x i hx := (h'.contents x i (h.held.trans hx)).trans (h.contents x i hx)
  commits k hk := h'.commits k (h.commits k hk)
  up c := (h.up c).trans (h'.up c)
  taken c hc := (h'.taken c hc).trans (h.taken c hc)
  sent c hc he := (h'.sent c hc he).trans (h.sent c hc he)
  read c hc := (h'.read c hc).trans (h.read c hc)
  exhausted c hc := (h'.exhausted c hc).trans (h.exhausted c hc)

/-- What a transfer may do. -/
def Allowed (cfg : Config) (w : Who) {β : Type} (a : Act β) (s : World) : Prop :=
  match a with
  | .candidate => True
  | .create x => s.held w = none ∧ x ≠ cfg.dest
  | .write i _ => ∃ x, s.held w = some (x, i)
  | .rename x => ∃ i, s.held w = some (x, i) ∧ Complete cfg s ⟨w, s.contents i⟩
  | .remove x => ∃ i, s.held w = some (x, i)
  | .call _ => True
  | .recv c => w = .agent c
  | .answer c frame => w = .agent c ∧
    ∀ n, frame = .written n → ∃ bytes, ⟨.agent c, bytes⟩ ∈ s.commits ∧ bytes.length = n
  | .send c frame => w = .client c ∧ cfg.engine c = true ∧ (∀ n, .commit n ∉ s.up c) ∧
    ∀ n, frame = .commit n → s.exhausted c = true ∧ Whole (s.up c ++ [frame]) (s.read c)
  | .reply c => w = .client c
  | .source c => w = .client c ∧ cfg.engine c = true ∧ ∀ n, .commit n ∉ s.up c
  | .tell n => Truthful cfg s w n
  | .stall => True

/-- A whole upload commits its own length. -/
theorem Whole.commit_mem {frames : List Up} {bytes : Bytes} (h : Whole frames bytes) :
    .commit (some bytes.length) ∈ frames := by
  obtain ⟨chunks, rfl, -⟩ := h
  exact List.mem_append_right _ (List.mem_singleton_self _)

/-- A commit that was complete stays so. -/
theorem Complete.mono {k : Commit} (h : Complete cfg s k) (hup : ∀ c, s.up c <+: t.up c) :
    Complete cfg t k := by
  obtain ⟨w, bytes⟩ := k
  cases w with
  | client c => exact h
  | agent c =>
    obtain ⟨frames, hpre, hwhole⟩ := h
    exact ⟨frames, hpre.trans (hup c), hwhole⟩
  | writer k => exact h

/-- The invariant holds at the start. -/
theorem inv_start (h : Start cfg start) : Inv cfg start start where
  directory :=
    { later := Nat.le_refl _
      fresh := h.inodes
      heldAt := fun w x i hw => by rw [h.held w] at hw; cases hw
      alone := fun w x y i _ hw => by rw [h.held w] at hw; cases hw
      distinct := fun w v x y i hw => by rw [h.held w] at hw; cases hw
      others := fun x _ => .inl rfl
      old := fun i _ => rfl
      dest := .inl rfl }
  traffic :=
    { commits := fun k hk => by rw [h.commits] at hk; cases hk
      sent := fun c n hc hn => by rw [h.up c hc] at hn; cases hn
      down := fun c n hn => by rw [h.down c] at hn; cases hn
      told := fun w n hn => by rw [h.told] at hn; cases hn }

/-! ## The directory -/

namespace Directory

variable {x : Name} {i : ℕ}

/-- The directory does not depend on the frames. -/
theorem congr (h : Directory cfg start s) (hnames : t.names = s.names)
    (hcontents : t.contents = s.contents) (hinodes : t.inodes = s.inodes) (hheld : t.held = s.held)
    (hcommits : t.commits = s.commits) : Directory cfg start t where
  later := hinodes ▸ h.later
  fresh := by rw [hnames, hinodes]; exact h.fresh
  heldAt := by rw [hheld, hnames]; exact h.heldAt
  alone := by rw [hheld, hnames]; exact h.alone
  distinct := by rw [hheld]; exact h.distinct
  others := by rw [hheld, hnames]; exact h.others
  old := by rw [hcontents]; exact h.old
  dest := by rw [hnames, hcontents, hcommits]; exact h.dest

/-- A held file is not at the destination. -/
theorem dest_ne (h : Directory cfg start s) (hheld : s.held w = some (x, i)) :
    s.names cfg.dest ≠ some i :=
  fun hdest => (h.heldAt w x i hheld).2.1 (h.alone w x cfg.dest i hdest hheld).symm

/-- A held file has been created. -/
theorem held_lt (h : Directory cfg start s) (hheld : s.held w = some (x, i)) : i < s.inodes :=
  h.fresh x i (h.heldAt w x i hheld).1

/-- A name that is held was free at the start. -/
theorem held_start (h : Directory cfg start s) (hstart : Start cfg start)
    (hheld : s.held w = some (x, i)) : start.names x = none := by
  obtain ⟨hname, hne, hlater⟩ := h.heldAt w x i hheld
  rcases h.others x hne with hsame | ⟨hnone, -⟩
  · have := hstart.inodes x i (hsame.symm.trans hname)
    omega
  · exact hnone

/-- A temporary sibling is a new file. -/
theorem create (h : Directory cfg start s) (hx : x ≠ cfg.dest) (hname : s.names x = none)
    (hheld : s.held w = none) (hnames : t.names = Function.update s.names x (some s.inodes))
    (hcontents : t.contents = Function.update s.contents s.inodes [])
    (hinodes : t.inodes = s.inodes + 1)
    (hholds : t.held = Function.update s.held w (some (x, s.inodes)))
    (hcommits : t.commits = s.commits) : Directory cfg start t := by
  have hkept {j : ℕ} (hj : j < s.inodes) : t.contents j = s.contents j := by
    rw [hcontents]
    exact Function.update_of_ne (Nat.ne_of_lt hj) _ _
  have hmine : t.held w = some (x, s.inodes) := by rw [hholds, Function.update_self]
  have hothers {v : Who} (hv : v ≠ w) : t.held v = s.held v := by
    rw [hholds, Function.update_of_ne hv]
  have hself : t.names x = some s.inodes := by rw [hnames, Function.update_self]
  have hsame {y : Name} (hy : y ≠ x) : t.names y = s.names y := by
    rw [hnames, Function.update_of_ne hy]
  refine ⟨?_, ?_, ?_, ?_, ?_, ?_, ?_, ?_⟩
  · have := h.later
    omega
  · intro y j hy
    by_cases hyx : y = x
    · rw [hyx, hself] at hy
      cases hy
      omega
    · rw [hsame hyx] at hy
      have := h.fresh y j hy
      omega
  · intro v y j hv
    by_cases hvw : v = w
    · rw [hvw, hmine] at hv
      cases hv
      exact ⟨hself, hx, h.later⟩
    · rw [hothers hvw] at hv
      obtain ⟨hy, hne, hlater⟩ := h.heldAt v y j hv
      refine ⟨?_, hne, hlater⟩
      rw [hsame (by rintro rfl; rw [hname] at hy; cases hy)]
      exact hy
  · intro v y z j hz hv
    by_cases hvw : v = w
    · rw [hvw, hmine] at hv
      cases hv
      by_contra hne
      rw [hsame hne] at hz
      exact absurd (h.fresh z _ hz) (Nat.lt_irrefl _)
    · rw [hothers hvw] at hv
      by_cases hzx : z = x
      · rw [hzx, hself] at hz
        cases hz
        exact absurd (h.held_lt hv) (Nat.lt_irrefl _)
      · rw [hsame hzx] at hz
        exact h.alone v y z j hz hv
  · intro v u y z j hv hu
    by_cases hvw : v = w
    · rw [hvw, hmine] at hv
      cases hv
      by_contra hne
      rw [hothers (fun huw => hne (hvw.trans huw.symm))] at hu
      exact absurd (h.held_lt hu) (Nat.lt_irrefl _)
    · rw [hothers hvw] at hv
      by_cases huw : u = w
      · rw [huw, hmine] at hu
        cases hu
        exact absurd (h.held_lt hv) (Nat.lt_irrefl _)
      · rw [hothers huw] at hu
        exact h.distinct v u y z j hv hu
  · intro y hy
    by_cases hyx : y = x
    · subst hyx
      rcases h.others y hy with heq | ⟨hnone, -⟩
      · exact .inr ⟨heq ▸ hname, w, s.inodes, hmine⟩
      · exact .inr ⟨hnone, w, s.inodes, hmine⟩
    · rw [hsame hyx]
      refine (h.others y hy).imp_right ?_
      rintro ⟨hnone, v, j, hv⟩
      refine ⟨hnone, v, j, ?_⟩
      rw [hothers (by rintro rfl; rw [hheld] at hv; cases hv)]
      exact hv
  · intro j hj
    exact (hkept (Nat.lt_of_lt_of_le hj h.later)).trans (h.old j hj)
  · rw [hsame hx.symm, hcommits]
    refine h.dest.imp_right ?_
    rintro ⟨k, hk, j, hj, hbytes⟩
    exact ⟨k, hk, j, hj, (hkept (h.fresh _ j hj)).trans hbytes⟩

/-- Writing to it does not touch the destination. -/
theorem write (h : Directory cfg start s) (hheld : s.held w = some (x, i)) (d : Bytes) :
    Directory cfg start { s with contents := Function.update s.contents i d } := by
  have hkept {j : ℕ} (hj : j ≠ i) : Function.update s.contents i d j = s.contents j :=
    Function.update_of_ne hj _ _
  refine ⟨h.later, h.fresh, h.heldAt, h.alone, h.distinct, h.others, ?_, ?_⟩
  · intro j hj
    have hlater := (h.heldAt w x i hheld).2.2
    exact (hkept (by omega)).trans (h.old j hj)
  · refine h.dest.imp_right ?_
    rintro ⟨k, hk, j, hj, hbytes⟩
    exact ⟨k, hk, j, hj, (hkept (by rintro rfl; exact h.dest_ne hheld hj)).trans hbytes⟩

/-- A transfer that lets go of its file leaves none, if the name goes with it. -/
theorem release (h : Directory cfg start s) (hstart : Start cfg start)
    (hheld : s.held w = some (x, i)) (hnames : t.names = Function.update s.names x none)
    (hholds : t.held = Function.update s.held w none) (hcontents : t.contents = s.contents)
    (hinodes : t.inodes = s.inodes) (hcommits : t.commits = s.commits) :
    Directory cfg start t := by
  have hlost {v : Who} {y : Name} {j : ℕ} (hv : t.held v = some (y, j)) :
      v ≠ w ∧ s.held v = some (y, j) := by
    rw [hholds] at hv
    by_cases hvw : v = w
    · rw [hvw, Function.update_self] at hv
      cases hv
    · rw [Function.update_of_ne hvw] at hv
      exact ⟨hvw, hv⟩
  have hsame {y : Name} (hy : y ≠ x) : t.names y = s.names y := by
    rw [hnames, Function.update_of_ne hy]
  have hfound {y : Name} {j : ℕ} (hy : t.names y = some j) : s.names y = some j := by
    by_cases hyx : y = x
    · rw [hyx, hnames, Function.update_self] at hy
      cases hy
    · rwa [hsame hyx] at hy
  obtain ⟨hname, hne, hlater⟩ := h.heldAt w x i hheld
  refine ⟨hinodes ▸ h.later, fun y j hy => hinodes ▸ h.fresh y j (hfound hy), ?_, ?_, ?_, ?_,
    hcontents ▸ h.old, ?_⟩
  · intro v y j hv
    obtain ⟨hvw, hv⟩ := hlost hv
    obtain ⟨hy, hdest, hj⟩ := h.heldAt v y j hv
    refine ⟨?_, hdest, hj⟩
    rw [hsame]
    · exact hy
    · rintro rfl
      rw [hname] at hy
      cases hy
      exact hvw (h.distinct v w y y i hv hheld)
  · exact fun v y z j hz hv => h.alone v y z j (hfound hz) (hlost hv).2
  · exact fun v u y z j hv hu => h.distinct v u y z j (hlost hv).2 (hlost hu).2
  · intro y hy
    by_cases hyx : y = x
    · refine .inl ?_
      rw [hyx, hnames, Function.update_self, h.held_start hstart hheld]
    · rw [hsame hyx]
      refine (h.others y hy).imp_right ?_
      rintro ⟨hnone, v, j, hv⟩
      refine ⟨hnone, v, j, ?_⟩
      rw [hholds, Function.update_of_ne (by rintro rfl; rw [hheld] at hv; cases hv; exact hyx rfl)]
      exact hv
  · rw [hsame hne.symm, hcommits, hcontents]
    exact h.dest

/-- The rename puts the released file at the destination. -/
theorem publish (h : Directory cfg start s) (hstart : Start cfg start)
    (hheld : s.held w = some (x, i))
    (hnames : t.names = Function.update (Function.update s.names x none) cfg.dest (some i))
    (hholds : t.held = Function.update s.held w none) (hcontents : t.contents = s.contents)
    (hinodes : t.inodes = s.inodes) (hcommits : t.commits = ⟨w, s.contents i⟩ :: s.commits) :
    Directory cfg start t := by
  have hreleased : Directory cfg start { s with
      names := Function.update s.names x none, held := Function.update s.held w none } :=
    h.release hstart hheld rfl rfl rfl rfl rfl
  have hother {y : Name} (hy : y ≠ cfg.dest) :
      t.names y = Function.update s.names x none y := by
    rw [hnames, Function.update_of_ne hy]
  have hdest : t.names cfg.dest = some i := by rw [hnames, Function.update_self]
  refine ⟨hinodes ▸ h.later, ?_, ?_, ?_, hholds ▸ hreleased.distinct, ?_, hcontents ▸ h.old, ?_⟩
  · intro y j hy
    rw [hinodes]
    by_cases hyd : y = cfg.dest
    · rw [hyd, hdest] at hy
      cases hy
      exact h.held_lt hheld
    · rw [hother hyd] at hy
      exact hreleased.fresh y j hy
  · intro v y j hv
    obtain ⟨hy, hne, hj⟩ := hreleased.heldAt v y j (hholds ▸ hv)
    exact ⟨(hother hne).trans hy, hne, hj⟩
  · intro v y z j hz hv
    rw [hholds] at hv
    by_cases hzd : z = cfg.dest
    · rw [hzd, hdest] at hz
      cases hz
      -- nobody else holds what is published
      by_cases hvw : v = w
      · rw [hvw, Function.update_self] at hv
        cases hv
      · rw [Function.update_of_ne hvw] at hv
        exact absurd (h.distinct v w y x i hv hheld) hvw
    · rw [hother hzd] at hz
      exact hreleased.alone v y z j hz hv
  · intro y hy
    rw [hother hy, hholds]
    exact hreleased.others y hy
  · rw [hcommits, hcontents]
    exact .inr ⟨_, List.mem_cons_self, i, hdest, rfl⟩

end Directory

/-! ## One action -/

/-- What was published stays published. -/
theorem Traffic.congr (h : Traffic cfg s) (hup : t.up = s.up) (hread : t.read = s.read)
    (hexhausted : t.exhausted = s.exhausted) (hdown : t.down = s.down) (htold : t.told = s.told)
    (hcommits : ∀ k ∈ s.commits, k ∈ t.commits) (hnew : ∀ k ∈ t.commits, Complete cfg s k) :
    Traffic cfg t where
  commits k hk := (hnew k hk).mono fun c => hup ▸ List.prefix_refl _
  sent c n hc hn := by
    rw [hup] at hn ⊢
    rw [hread, hexhausted]
    exact h.sent c n hc hn
  down c n hn := by
    rw [hdown] at hn
    obtain ⟨bytes, hmem, hlen⟩ := h.down c n hn
    exact ⟨bytes, hcommits _ hmem, hlen⟩
  told w n hn := (h.told w n (htold ▸ hn)).keep hcommits fun _ _ _ =>
    ⟨congrFun hup _, congrFun hread _⟩

/-- The agent acknowledges what it has published. -/
theorem Traffic.answer (h : Traffic cfg s) {c : ℕ} {frame : Down} (hup : t.up = s.up)
    (hread : t.read = s.read) (hexhausted : t.exhausted = s.exhausted)
    (hself : t.down c = s.down c ++ [frame]) (hother : ∀ d, d ≠ c → t.down d = s.down d)
    (htold : t.told = s.told) (hcommits : t.commits = s.commits)
    (hframe : ∀ n, frame = .written n → ∃ bytes, ⟨.agent c, bytes⟩ ∈ s.commits ∧ bytes.length = n) :
    Traffic cfg t where
  commits k hk := (h.commits k (hcommits ▸ hk)).mono fun c => hup ▸ List.prefix_refl _
  sent d n hd hn := by
    rw [hup] at hn ⊢
    rw [hread, hexhausted]
    exact h.sent d n hd hn
  down d n hn := by
    rw [hcommits]
    by_cases hd : d = c
    · subst hd
      rw [hself] at hn
      rcases List.mem_append.mp hn with hn | hn
      · exact h.down d n hn
      · exact hframe n (List.mem_singleton.mp hn).symm
    · rw [hother d hd] at hn
      exact h.down d n hn
  told w n hn := (h.told w n (htold ▸ hn)).keep (fun _ hk => hcommits ▸ hk) fun _ _ _ =>
    ⟨congrFun hup _, congrFun hread _⟩

/-- The engine sends a frame; after a commit it sends none. -/
theorem Traffic.send (h : Traffic cfg s) {c : ℕ} {frame : Up} (hself : t.up c = s.up c ++ [frame])
    (hother : ∀ d, d ≠ c → t.up d = s.up d) (hread : t.read = s.read)
    (hexhausted : t.exhausted = s.exhausted) (hdown : t.down = s.down) (htold : t.told = s.told)
    (hcommits : t.commits = s.commits) (hopen : ∀ n, .commit n ∉ s.up c)
    (hframe : ∀ n, frame = .commit n →
      s.exhausted c = true ∧ Whole (s.up c ++ [frame]) (s.read c)) : Traffic cfg t where
  commits k hk := by
    refine (h.commits k (hcommits ▸ hk)).mono fun d => ?_
    by_cases hd : d = c
    · subst hd
      rw [hself]
      exact List.prefix_append _ _
    · exact (hother d hd) ▸ List.prefix_refl (t.up d)
  sent d n hd hn := by
    rw [hread, hexhausted]
    by_cases hdc : d = c
    · subst hdc
      rw [hself] at hn ⊢
      rcases List.mem_append.mp hn with hn | hn
      · exact absurd hn (hopen n)
      · exact hframe n (List.mem_singleton.mp hn).symm
    · rw [hother d hdc] at hn ⊢
      exact h.sent d n hd hn
  down := by rw [hdown, hcommits]; exact h.down
  told w n hn := by
    refine (h.told w n (htold ▸ hn)).keep (fun _ hk => hcommits ▸ hk) fun d _ hwhole => ?_
    have hdc : d ≠ c := by
      rintro rfl
      exact hopen _ hwhole.commit_mem
    exact ⟨hother d hdc, congrFun hread d⟩

/-- The engine reads from its source before it has sent a commit. -/
theorem Traffic.chunk (h : Traffic cfg s) {c : ℕ} (hup : t.up = s.up)
    (hread : ∀ d, d ≠ c → t.read d = s.read d)
    (hexhausted : ∀ d, d ≠ c → t.exhausted d = s.exhausted d) (hdown : t.down = s.down)
    (htold : t.told = s.told) (hcommits : t.commits = s.commits)
    (hopen : ∀ n, .commit n ∉ s.up c) : Traffic cfg t where
  commits k hk := (h.commits k (hcommits ▸ hk)).mono fun c => hup ▸ List.prefix_refl _
  sent d n hd hn := by
    rw [hup] at hn ⊢
    have hdc : d ≠ c := by
      rintro rfl
      exact hopen n hn
    rw [hread d hdc, hexhausted d hdc]
    exact h.sent d n hd hn
  down := by rw [hdown, hcommits]; exact h.down
  told w n hn := by
    refine (h.told w n (htold ▸ hn)).keep (fun _ hk => hcommits ▸ hk) fun d _ hwhole => ?_
    have hdc : d ≠ c := by
      rintro rfl
      exact hopen _ hwhole.commit_mem
    exact ⟨congrFun hup d, hread d hdc⟩

/-- A truthful report may be made. -/
theorem Traffic.tell (h : Traffic cfg s) {n : ℕ} (hn : Truthful cfg s w n) :
    Traffic cfg { s with told := Function.update s.told w (some n) } where
  commits k hk := (h.commits k hk).mono fun c => List.prefix_refl _
  sent := h.sent
  down := h.down
  told v m hm := by
    replace hm : Function.update s.told w (some n) v = some m := hm
    have htrue : Truthful cfg s v m := by
      by_cases hv : v = w
      · subst hv
        rw [Function.update_self] at hm
        exact Option.some.inj hm ▸ hn
      · rw [Function.update_of_ne hv] at hm
        exact h.told v m hm
    exact htrue.keep (fun _ hk => hk) fun _ _ _ => ⟨rfl, rfl⟩

/-- What an action in the directory leaves to the others. -/
theorem Rely.files {m : Who} (hheld : t.held m = s.held m)
    (hcontents : ∀ x i, s.held m = some (x, i) → t.contents i = s.contents i)
    (hcommits : ∀ k ∈ s.commits, k ∈ t.commits) (hup : t.up = s.up) (htaken : t.taken = s.taken)
    (hread : t.read = s.read) (hexhausted : t.exhausted = s.exhausted) : Rely cfg m s t where
  held := hheld
  contents := hcontents
  commits := hcommits
  up c := hup ▸ List.prefix_refl _
  taken c _ := by rw [htaken]
  sent c _ _ := by rw [hup]
  read c _ := by rw [hread]
  exhausted c _ := by rw [hexhausted]

/-- What an action on the frames leaves to the others. -/
theorem Rely.frames {m : Who} (hheld : t.held = s.held) (hcontents : t.contents = s.contents)
    (hcommits : t.commits = s.commits) (hup : ∀ c, s.up c <+: t.up c)
    (htaken : ∀ c, m = .agent c → t.taken c = s.taken c)
    (hsent : ∀ c, m = .client c → cfg.engine c = true → t.up c = s.up c)
    (hread : ∀ c, m = .client c → t.read c = s.read c)
    (hexhausted : ∀ c, m = .client c → t.exhausted c = s.exhausted c) : Rely cfg m s t where
  held := by rw [hheld]
  contents _ _ _ := by rw [hcontents]
  commits k hk := hcommits ▸ hk
  up := hup
  taken := htaken
  sent := hsent
  read := hread
  exhausted := hexhausted

theorem prefix_update {α : Type} {f : ℕ → List α} {c : ℕ} {l : List α} (d : ℕ) :
    f d <+: Function.update f c (f c ++ l) d := by
  by_cases hd : d = c
  · subst hd
    rw [Function.update_self]
    exact List.prefix_append _ _
  · exact ⟨[], by rw [Function.update_of_ne hd, List.append_nil]⟩

/-- Each action keeps the invariant and what the other transfers rely on. -/
theorem act_keeps {ok : Name → Prop} {β : Type} {a : Act β} {b : β} (hstart : Start cfg start)
    (h : Inv cfg start s) (ha : Allowed cfg w a s) (he : Eff cfg ok w a s b t) :
    Inv cfg start t ∧ ∀ m, m ≠ w → Rely cfg m s t := by
  have hsame {m : Who} (hm : m ≠ w) (f : Option (Name × ℕ)) :
      Function.update s.held w f m = s.held m := Function.update_of_ne hm _ _
  have hnone : ∀ m, m ≠ w → Rely cfg m s s := fun m _ => .refl m s
  cases a with
  | candidate =>
    obtain ⟨nanos, -, -, -, rfl⟩ := he
    exact ⟨⟨h.directory.congr rfl rfl rfl rfl rfl,
      h.traffic.congr rfl rfl rfl rfl rfl (fun _ hk => hk) h.traffic.commits⟩,
      fun m _ => .files rfl (fun _ _ _ => rfl) (fun _ hk => hk) rfl rfl rfl rfl⟩
  | create x =>
    rcases he with ⟨hname, rfl, rfl⟩ | ⟨-, -, rfl⟩ | ⟨-, rfl⟩
    · obtain ⟨hheld, hx⟩ := ha
      refine ⟨⟨h.directory.create hx hname hheld rfl rfl rfl rfl rfl,
        h.traffic.congr rfl rfl rfl rfl rfl (fun _ hk => hk) h.traffic.commits⟩, fun m hm =>
        .files (hsame hm _) (fun y j hj => ?_) (fun _ hk => hk) rfl rfl rfl rfl⟩
      exact Function.update_of_ne (Nat.ne_of_lt (h.directory.held_lt hj)) _ _
    · exact ⟨h, hnone⟩
    · exact ⟨h, hnone⟩
  | write i data =>
    rcases he with ⟨n, -, -, rfl, rfl⟩ | ⟨e, -, rfl⟩
    · obtain ⟨x, hheld⟩ := ha
      refine ⟨⟨h.directory.write hheld _,
        h.traffic.congr rfl rfl rfl rfl rfl (fun _ hk => hk) h.traffic.commits⟩, fun m hm =>
        .files rfl (fun y j hj => ?_) (fun _ hk => hk) rfl rfl rfl rfl⟩
      refine Function.update_of_ne ?_ _ _
      rintro rfl
      exact hm (h.directory.distinct m w y x j hj hheld)
    · exact ⟨h, hnone⟩
  | rename x =>
    rcases he with ⟨i, hname, rfl, rfl⟩ | ⟨e, -, rfl⟩
    · obtain ⟨j, hheld, hcomplete⟩ := ha
      obtain rfl : j = i := by
        have := (h.directory.heldAt w x j hheld).1
        rw [hname] at this
        exact (Option.some.inj this).symm
      have hcommits : ∀ k ∈ s.commits, k ∈ (⟨w, s.contents j⟩ :: s.commits : List Commit) :=
        fun k hk => List.mem_cons_of_mem _ hk
      refine ⟨⟨h.directory.publish hstart hheld rfl rfl rfl rfl rfl,
        h.traffic.congr rfl rfl rfl rfl rfl hcommits ?_⟩, fun m hm =>
        .files (hsame hm _) (fun _ _ _ => rfl) hcommits rfl rfl rfl rfl⟩
      intro k hk
      rcases List.mem_cons.mp hk with rfl | hk
      · exact hcomplete
      · exact h.traffic.commits k hk
    · exact ⟨h, hnone⟩
  | remove x =>
    obtain ⟨i, hheld⟩ := ha
    obtain rfl := he
    exact ⟨⟨h.directory.release hstart hheld rfl rfl rfl rfl rfl,
      h.traffic.congr rfl rfl rfl rfl rfl (fun _ hk => hk) h.traffic.commits⟩, fun m hm =>
      .files (hsame hm _) (fun _ _ _ => rfl) (fun _ hk => hk) rfl rfl rfl rfl⟩
  | call what =>
    obtain rfl := he
    exact ⟨h, hnone⟩
  | recv c =>
    rcases he with ⟨frame, -, rfl, rfl⟩ | ⟨e, -, rfl⟩
    · refine ⟨⟨h.directory.congr rfl rfl rfl rfl rfl,
        h.traffic.congr rfl rfl rfl rfl rfl (fun _ hk => hk) h.traffic.commits⟩, fun m hm =>
        .frames rfl rfl rfl (fun _ => List.prefix_refl _)
          (fun d hd => Function.update_of_ne ?_ _ _) (fun _ _ _ => rfl) (fun _ _ => rfl)
          fun _ _ => rfl⟩
      rintro rfl
      exact hm (hd.trans (Eq.symm ha))
    · exact ⟨h, hnone⟩
  | answer c frame =>
    rcases he with rfl | ⟨e, -, rfl⟩
    · exact ⟨⟨h.directory.congr rfl rfl rfl rfl rfl,
        h.traffic.answer rfl rfl rfl (Function.update_self ..)
          (fun d hd => Function.update_of_ne hd _ _) rfl rfl ha.2⟩, fun m hm => .frames rfl rfl rfl
          (fun _ => List.prefix_refl _) (fun _ _ => rfl) (fun _ _ _ => rfl) (fun _ _ => rfl)
          fun _ _ => rfl⟩
    · exact ⟨h, hnone⟩
  | send c frame =>
    rcases he with rfl | ⟨e, -, rfl⟩
    · obtain ⟨hclient, -, hopen, hcommit⟩ := ha
      refine ⟨⟨h.directory.congr rfl rfl rfl rfl rfl,
        h.traffic.send (Function.update_self ..) (fun d hd => Function.update_of_ne hd _ _) rfl rfl
          rfl rfl rfl hopen hcommit⟩, fun m hm => .frames rfl rfl rfl prefix_update (fun _ _ => rfl)
          (fun d hd _ => Function.update_of_ne ?_ _ _) (fun _ _ => rfl) fun _ _ => rfl⟩
      rintro rfl
      exact hm (hd.trans hclient.symm)
    · exact ⟨h, hnone⟩
  | reply c =>
    rcases he with ⟨frame, -, rfl, rfl⟩ | ⟨e, -, rfl⟩
    · exact ⟨⟨h.directory.congr rfl rfl rfl rfl rfl,
        h.traffic.congr rfl rfl rfl rfl rfl (fun _ hk => hk) h.traffic.commits⟩,
        fun m _ => .files rfl (fun _ _ _ => rfl) (fun _ hk => hk) rfl rfl rfl rfl⟩
    · exact ⟨h, hnone⟩
  | source c =>
    rcases he with ⟨-, rfl⟩ | ⟨message, -, rfl⟩ | ⟨bytes, -, rfl, rfl⟩
    · exact ⟨h, hnone⟩
    · exact ⟨h, hnone⟩
    · obtain ⟨hclient, -, hopen⟩ := ha
      refine ⟨⟨h.directory.congr rfl rfl rfl rfl rfl,
        h.traffic.chunk rfl (fun d hd => Function.update_of_ne hd _ _)
          (fun d hd => Function.update_of_ne hd _ _) rfl rfl rfl hopen⟩, fun m hm => .frames rfl rfl
          rfl (fun _ => List.prefix_refl _) (fun _ _ => rfl) (fun _ _ _ => rfl)
          (fun d hd => Function.update_of_ne ?_ _ _) fun d hd => Function.update_of_ne ?_ _ _⟩
      · rintro rfl
        exact hm (hd.trans hclient.symm)
      · rintro rfl
        exact hm (hd.trans hclient.symm)
  | tell n =>
    obtain rfl := he
    exact ⟨⟨h.directory.congr rfl rfl rfl rfl rfl, h.traffic.tell ha⟩, fun m hm =>
      .frames rfl rfl rfl (fun _ => List.prefix_refl _) (fun _ _ => rfl) (fun _ _ _ => rfl)
        (fun _ _ => rfl) fun _ _ => rfl⟩
  | stall => exact he.elim

/-- What arrives from a client that is not the engine. -/
theorem env_keeps (h : Inv cfg start s) (he : Env cfg s t) :
    Inv cfg start t ∧ ∀ m, Rely cfg m s t := by
  cases he with
  | @arrives c frames hc =>
    have hother {d : ℕ} (hd : cfg.engine d = true) :
        Function.update s.up c (s.up c ++ frames) d = s.up d := by
      refine Function.update_of_ne ?_ _ _
      rintro rfl
      rw [hc] at hd
      cases hd
    refine ⟨⟨h.directory.congr rfl rfl rfl rfl rfl,
      ⟨fun k hk => (h.traffic.commits k hk).mono prefix_update, fun d n hd hn => ?_,
        h.traffic.down, fun v n hn => ?_⟩⟩, fun m => .frames rfl rfl rfl prefix_update
        (fun _ _ => rfl) (fun d _ hd => hother hd) (fun _ _ => rfl) fun _ _ => rfl⟩
    · have hn : .commit n ∈ Function.update s.up c (s.up c ++ frames) d := hn
      show _ ∧ Whole (Function.update s.up c (s.up c ++ frames) d) _
      rw [hother hd] at hn ⊢
      exact h.traffic.sent d n hd hn
    · exact (h.traffic.told v n hn).keep (fun _ hk => hk) fun d hd _ => ⟨hother hd, rfl⟩

end AgentHouse.Forge.Transfers
