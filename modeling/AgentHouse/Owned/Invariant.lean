import AgentHouse.Local.Versions
import AgentHouse.Owned.System

/-!
# The invariant of ownership

Nobody checks the owner when a head is replaced: the compare-and-set knows a revision only. But
each request was made from a head that was published under the revision it expects, and asks for a
move of the protocol from there. So the head of every volume moves by the protocol alone, never
comes back to an earlier content, and a revision that is derived from the content is as good as a
counter.
-/

namespace AgentHouse.Owned

open Volume

section Heads

variable {P : Platform} {B B' B'' : Bucket}

/-- What the head of a space records. -/
def recorded (B : Bucket) (space : Space) : Ownership.Entry Root Hash :=
  entry ((B.heads space).map Head.manifest)

/-- All heads move by the protocol, and a head that is another one has a higher rank. -/
structure Advances (B B' : Bucket) : Prop where
  later : ∀ space, Ownership.Later Root.generation (recorded B space) (recorded B' space)
  rank : ∀ space, B'.heads space = B.heads space ∨
    (recorded B space).rank Root.generation < (recorded B' space).rank Root.generation

theorem Advances.of_heads (h : B'.heads = B.heads) : Advances B B' := by
  constructor
  · intro space
    rw [recorded, recorded, h]
  · intro space
    exact .inl (congrFun h space)

/-- Heads that advance twice advance. -/
theorem Advances.trans (h : Advances B B') (h' : Advances B' B'') : Advances B B'' := by
  constructor
  · exact fun space => (h.later space).trans (h'.later space)
  · intro space
    rcases h.rank space with heq | hlt
    · rcases h'.rank space with heq' | hlt'
      · exact .inl (heq'.trans heq)
      · rw [recorded, heq] at hlt'
        exact .inr hlt'
    · rcases h'.rank space with heq' | hlt'
      · have hsame : recorded B'' space = recorded B' space := by rw [recorded, recorded, heq']
        rw [hsame]
        exact .inr hlt
      · exact .inr (hlt.trans hlt')

/-- A head that follows the last one advances. -/
theorem Advances.replace {space : Space} {m : Manifest}
    (h : Follows ((B.heads space).map Head.manifest) m) :
    Advances B (B.replace P space m) := by
  have hnew : recorded (B.replace P space m) space = entry (some m) := by
    rw [recorded, Bucket.replace_heads_self]
    rfl
  have hold : ∀ space', space' ≠ space →
      (B.replace P space m).heads space' = B.heads space' :=
    fun space' hne => Bucket.replace_heads_of_ne P B hne m
  constructor
  · intro space'
    by_cases hs : space' = space
    · subst hs
      rw [hnew]
      exact .single h
    · rw [recorded, recorded, hold space' hs]
  · intro space'
    by_cases hs : space' = space
    · subst hs
      rw [hnew]
      exact .inr h.rank_lt
    · exact .inl (hold space' hs)

end Heads

open Local (Dated)

section Requests

variable {P : Platform} {B B' : Bucket} {past past' : ℕ → Manifest} {q : Request}
  {m : Option Manifest} {v v' : IndexedVolume} {space : Space}

/-- The request was made from the head `m`. -/
def Asks (P : Platform) (B : Bucket) (past : ℕ → Manifest) (q : Request) (m : Option Manifest) :
    Prop :=
  (q.expected = none ∧ m = none) ∨
    ∃ rev m', q.expected = some rev ∧ m = some m' ∧ Dated P B past rev m'

/-- The request asks for a move of the protocol. -/
def Justified (P : Platform) (B : Bucket) (past : ℕ → Manifest) (q : Request) : Prop :=
  ∃ m, Asks P B past q m ∧ Follows m q.manifest

/-- The handle's version was published. -/
def Known (P : Platform) (B : Bucket) (past : ℕ → Manifest) (v : IndexedVolume) : Prop :=
  Dated P B past v.revision (v.store.wrap v.root)

/-- Publications so far are publications later. -/
def Extends (P : Platform) (B : Bucket) (past : ℕ → Manifest) (B' : Bucket)
    (past' : ℕ → Manifest) : Prop :=
  ∀ {rev m}, Dated P B past rev m → Dated P B' past' rev m

/-- A request stays one when the past grows. -/
theorem Asks.extends (h : Asks P B past q m) (hext : Extends P B past B' past') :
    Asks P B' past' q m :=
  h.imp_right fun ⟨rev, m', hexpected, hm, hd⟩ => ⟨rev, m', hexpected, hm, hext hd⟩

/-- So does its justification. -/
theorem Justified.extends (h : Justified P B past q) (hext : Extends P B past B' past') :
    Justified P B' past' q :=
  h.imp fun _ hm => ⟨hm.1.extends hext, hm.2⟩

/-- A request that takes effect replaces the head it was made from. -/
theorem Asks.head_eq (h : Asks P B past q m)
    (hheads : ∀ hd, B.heads space = some hd → Dated P B past hd.revision hd.manifest)
    (hexpected : (B.heads space).map Head.revision = q.expected) :
    m = (B.heads space).map Head.manifest := by
  rcases h with ⟨hnone, rfl⟩ | ⟨rev, m', hsome, rfl, hd⟩
  · rw [hnone, Option.map_eq_none_iff] at hexpected
    rw [hexpected]
    rfl
  · rw [hsome] at hexpected
    obtain ⟨hd', hhead, rfl⟩ := Option.map_eq_some_iff.mp hexpected
    rw [hhead, hd.unique (hheads hd' hhead)]
    rfl

/-- A move that was made on a head asks from there. -/
theorem asks_of_head {hd : Option Head} {id : VolumeId} (h : Moves id hd q)
    (hdated : ∀ h', hd = some h' → Dated P B past h'.revision h'.manifest) :
    Asks P B past q (hd.map Head.manifest) := by
  cases hd with
  | none => exact .inl ⟨h.expected, rfl⟩
  | some h' => exact .inr ⟨h'.revision, h'.manifest, h.expected, rfl, hdated h' rfl⟩

/-- A known version asks from itself. -/
theorem Known.asks (h : Known P B past v) (r : Root) :
    Asks P B past (v.request r) (some (v.store.wrap v.root)) :=
  .inr ⟨v.revision, _, rfl, rfl, h⟩

/-- Another copy of a version is known too. -/
theorem SameVersion.known (hs : SameVersion v v') (h : Known P B past v) : Known P B past v' := by
  rw [Known, hs.store, hs.root, hs.revision]
  exact h

/-- The next generation of a version follows it. -/
theorem Succeeds.follows {r : Root} (h : Succeeds v r) :
    Follows (some (v.store.wrap v.root)) (v.store.wrap r) := by
  cases hstore : v.store with
  | raw bases => exact .commit h.generation
  | owned i => exact .publish i.epoch i.token h.generation

/-- A volume keeps the owner of its root. -/
theorem owner_wrap (v : IndexedVolume) (r : Root) :
    (entry (some (v.store.wrap r))).owner = (entry (some (v.store.wrap v.root))).owner := by
  cases v.store <;> rfl

end Requests

/-- The identity is on disk for good. -/
def System.Installed (s : System) (i : Identity) : Prop :=
  ∃ d, (s.directories d).file = .whole i ∧ (s.directories d).synced = true

/-- Every owner that the document records has its identity on disk, and for this volume. -/
def System.Records (s : System) (space : Space) (m : Manifest) : Prop :=
  ∀ k t, (entry (some m)).owner = some (k, t) →
    ∃ id, space = ⟨false, id⟩ ∧ s.Installed ⟨id, t, k⟩

/-- The identity is the recorded owner, or a request that ends its ownership was left on its way. -/
def Kept (B : Bucket) (i : Identity) : Prop :=
  (recorded B ⟨false, i.volume⟩).owner = some (i.epoch, i.token) ∨
    ∃ q ∈ B.flights, q.space = ⟨false, i.volume⟩ ∧ (entry (some q.manifest)).Past i.epoch

/-- Whoever holds the lock goes by the identity `i` as the owner. -/
def Directory.Relies (D : Directory) (i : Identity) : Prop :=
  match D.holder with
  | .read id _ _ e => D.file = .whole i ∧ i.volume = id ∧ i.matches e = true
  | .named _ _ e j => j = i ∧ i.matches e = true
  | .store st => st.active = true ∧ st.identity = i
  | _ => False

/-- A request without an identity: it was made from a head without an owner and names none. -/
structure Unowned (P : Platform) (B : Bucket) (past : ℕ → Manifest) (q : Request) : Prop where
  asks : ∃ m, Asks P B past q m ∧ Follows m q.manifest ∧ (entry m).owner = none
  owner : (entry (some q.manifest)).owner = none

/-- A request that ends the ownership of `i`. -/
structure Ends (P : Platform) (B : Bucket) (past : ℕ → Manifest) (i : Identity) (q : Request) :
    Prop where
  asks : ∃ m, Asks P B past q m ∧ Follows m q.manifest ∧ (entry m).owner = some (i.epoch, i.token)
  owner : (entry (some q.manifest)).owner = none

/-- What is true of a directory, depending on how far the holder of its lock has come. -/
def Directory.Sound (P : Platform) (B : Bucket) (past : ℕ → Manifest) (D : Directory) : Prop :=
  match D.holder with
  | .read _ _ rev e => Dated P B past rev (.envelope e)
  | .named _ rev e i => Dated P B past rev (.envelope e) ∧ D.file = .whole i ∧ D.synced = true
  | .store st => D.file = .whole st.identity ∧ D.synced = true ∧
      (∀ v ∈ st.volumes, Known P B past v ∧ v.store = .owned st.identity) ∧
      ∀ q, st.pending = some q → st.active = false ∧ Ends P B past st.identity q
  | _ => True

/-- What holds in every state: `past` are the documents published so far, in order. -/
structure System.Inv (P : Platform) (past : ℕ → Manifest) (s : System) : Prop where
  heads : ∀ space hd, s.bucket.heads space = some hd →
    Dated P s.bucket past hd.revision hd.manifest ∧ s.Records space hd.manifest
  flights : ∀ q ∈ s.bucket.flights,
    Justified P s.bucket past q ∧ s.Records q.space q.manifest
  volumes : ∀ v ∈ s.volumes, Known P s.bucket past v ∧ ∃ bases, v.store = .raw bases
  prepared : ∀ q ∈ s.prepared, Unowned P s.bucket past q
  directories : ∀ d, (s.directories d).Sound P s.bucket past
  tokens : ∀ d i, (s.directories d).file = .whole i → i.token ∈ s.tokens
  unique : ∀ d d' i i', (s.directories d).file = .whole i → (s.directories d').file = .whole i' →
    i.token = i'.token → d = d'
  kept : ∀ d i, (s.directories d).Relies i → Kept s.bucket i

section Buckets

variable {P : Platform} {past past' : ℕ → Manifest} {s : System} {q : Request} {B' : Bucket}

/-- A directory stays sound when the past grows. -/
theorem Directory.Sound.extends {D : Directory} {B : Bucket} (h : D.Sound P B past)
    (hext : Extends P B past B' past') : D.Sound P B' past' := by
  unfold Directory.Sound at h ⊢
  split at h
  · exact hext h
  · exact ⟨hext h.1, h.2⟩
  · obtain ⟨hfile, hsynced, hvolumes, hpending⟩ := h
    refine ⟨hfile, hsynced, fun v hv => ⟨hext (hvolumes v hv).1, (hvolumes v hv).2⟩,
      fun q hq => ⟨(hpending q hq).1, ?_, (hpending q hq).2.owner⟩⟩
    obtain ⟨m, hasks, hm⟩ := (hpending q hq).2.asks
    exact ⟨m, hasks.extends hext, hm⟩
  · trivial

theorem Unowned.extends {B : Bucket} (h : Unowned P B past q) (hext : Extends P B past B' past') :
    Unowned P B' past' q := by
  obtain ⟨m, hasks, hm⟩ := h.asks
  exact ⟨⟨m, hasks.extends hext, hm⟩, h.owner⟩

/-- What the heads, the requests and the owners need when the bucket changes. -/
theorem System.Inv.bucket (h : s.Inv P past) (hext : Extends P s.bucket past B' past')
    (hheads : ∀ space hd, B'.heads space = some hd →
      Dated P B' past' hd.revision hd.manifest ∧ s.Records space hd.manifest)
    (hflights : ∀ q ∈ B'.flights, Justified P B' past' q ∧ s.Records q.space q.manifest)
    (hkept : ∀ d i, (s.directories d).Relies i → Kept B' i) :
    { s with bucket := B' }.Inv P past' where
  heads := hheads
  flights := hflights
  volumes v hv := ⟨hext (h.volumes v hv).1, (h.volumes v hv).2⟩
  prepared q hq := (h.prepared q hq).extends hext
  directories d := (h.directories d).extends hext
  tokens := h.tokens
  unique := h.unique
  kept := hkept

theorem Quiet.extends {B : Bucket} (hq : Quiet B B') : Extends P B past B' past :=
  fun hd => hd.of_published hq.published

/-- A bucket that keeps its heads keeps the invariant. -/
theorem System.Inv.quiet (h : s.Inv P past) (hq : Quiet s.bucket B') :
    { s with bucket := B' }.Inv P past := by
  refine h.bucket hq.extends ?_ ?_ ?_
  · intro space hd hhead
    rw [hq.heads] at hhead
    exact ⟨hq.extends (h.heads space hd hhead).1, (h.heads space hd hhead).2⟩
  · intro q hmem
    rw [hq.flights] at hmem
    exact ⟨(h.flights q hmem).1.extends hq.extends, (h.flights q hmem).2⟩
  · intro d i hrelies
    have hkept := h.kept d i hrelies
    rw [Kept, recorded, hq.heads, hq.flights]
    exact hkept

/-- A justified request may be sent. -/
theorem System.Inv.flies (h : s.Inv P past) (hq : Justified P s.bucket past q)
    (hr : s.Records q.space q.manifest) : { s with bucket := s.bucket.send q }.Inv P past := by
  refine h.bucket (fun hd => hd) h.heads ?_ ?_
  · intro q' hmem
    rcases List.mem_cons.mp hmem with rfl | hmem
    · exact ⟨hq, hr⟩
    · exact h.flights q' hmem
  · intro d i hrelies
    refine (h.kept d i hrelies).imp_right ?_
    rintro ⟨q', hmem, hends⟩
    exact ⟨q', List.mem_cons_of_mem _ hmem, hends⟩

/-- The request takes the volume from no owner that is relied on, unless it was on its way. -/
def System.Spares (P : Platform) (past : ℕ → Manifest) (s : System) (q : Request) : Prop :=
  ∀ d i, (s.directories d).Relies i → ∀ m, Asks P s.bucket past q m →
    (entry m).owner = some (i.epoch, i.token) →
      (entry (some q.manifest)).owner = some (i.epoch, i.token) ∨ q ∈ s.bucket.flights

/-- A request that takes effect moves its volume on by the protocol. -/
theorem System.Inv.replace (h : s.Inv P past) (hq : Justified P s.bucket past q)
    (hr : s.Records q.space q.manifest) (hspares : s.Spares P past q)
    (hexpected : (s.bucket.heads q.space).map Head.revision = q.expected) :
    { s with bucket := s.bucket.replace P q.space q.manifest }.Inv P
        (Function.update past s.bucket.published q.manifest) ∧
      Extends P s.bucket past (s.bucket.replace P q.space q.manifest)
        (Function.update past s.bucket.published q.manifest) ∧
      Advances s.bucket (s.bucket.replace P q.space q.manifest) := by
  obtain ⟨m, hasks, hfollows⟩ := hq
  have hm := hasks.head_eq (fun hd hhead => (h.heads q.space hd hhead).1) hexpected
  have hext : Extends P s.bucket past (s.bucket.replace P q.space q.manifest)
      (Function.update past s.bucket.published q.manifest) :=
    fun hd => hd.replace q.space q.manifest
  refine ⟨h.bucket hext ?_ ?_ ?_, hext, .replace (by rw [← hm]; exact hfollows)⟩
  · intro space hd hhead
    by_cases hs : space = q.space
    · subst hs
      rw [Bucket.replace_heads_self] at hhead
      obtain rfl := Option.some.inj hhead
      exact ⟨Local.dated_replace P s.bucket past q.space q.manifest, hr⟩
    · rw [Bucket.replace_heads_of_ne P s.bucket hs] at hhead
      exact ⟨hext (h.heads space hd hhead).1, (h.heads space hd hhead).2⟩
  · intro q' hmem
    exact ⟨(h.flights q' hmem).1.extends hext, (h.flights q' hmem).2⟩
  · intro d i hrelies
    rcases h.kept d i hrelies with howner | hlate
    · by_cases hs : (⟨false, i.volume⟩ : Space) = q.space
      · have hnew : recorded (s.bucket.replace P q.space q.manifest) ⟨false, i.volume⟩ =
            entry (some q.manifest) := by
          rw [recorded, hs, Bucket.replace_heads_self]
          rfl
        rw [recorded, hs, ← hm] at howner
        rw [Kept, hnew]
        rcases hspares d i hrelies m hasks howner with hsame | hmem
        · exact .inl hsame
        · exact (hfollows.of_owner howner).imp_right fun hpast => ⟨q, hmem, hs.symm, hpast⟩
      · left
        rw [recorded, Bucket.replace_heads_of_ne P s.bucket hs]
        exact howner
    · exact .inr hlate

/-- The same when objects come and go before it takes effect. -/
theorem System.Inv.lands (h : s.Inv P past) {Bu : Bucket} (hquiet : Quiet s.bucket Bu)
    (hq : Justified P s.bucket past q) (hr : s.Records q.space q.manifest)
    (hspares : s.Spares P past q)
    (hexpected : (s.bucket.heads q.space).map Head.revision = q.expected) :
    { s with bucket := Bu.replace P q.space q.manifest }.Inv P
        (Function.update past Bu.published q.manifest) ∧
      Extends P s.bucket past (Bu.replace P q.space q.manifest)
        (Function.update past Bu.published q.manifest) ∧
      Advances s.bucket (Bu.replace P q.space q.manifest) := by
  have hu := h.quiet hquiet
  have hspares' : System.Spares P past { s with bucket := Bu } q := by
    intro d i hrelies m hasks howner
    have hback : Extends P Bu past s.bucket past := Quiet.extends
      ⟨hquiet.heads.symm, hquiet.published.symm, hquiet.flights.symm⟩
    refine (hspares d i hrelies m (hasks.extends hback) howner).imp_right ?_
    intro hmem
    rw [hquiet.flights]
    exact hmem
  have hexpected' : (Bu.heads q.space).map Head.revision = q.expected := by
    rw [hquiet.heads]
    exact hexpected
  obtain ⟨hinv, hext, hadvances⟩ :=
    hu.replace (hq.extends hquiet.extends) hr hspares' hexpected'
  exact ⟨hinv, fun hd => hext (hquiet.extends hd),
    (Advances.of_heads hquiet.heads).trans hadvances⟩

/-- Whatever becomes of a request. -/
theorem System.Inv.sent (h : s.Inv P past) (hsent : Sent P s.bucket q B')
    (hq : Justified P s.bucket past q) (hr : s.Records q.space q.manifest)
    (hspares : s.Spares P past q) :
    ∃ past', { s with bucket := B' }.Inv P past' ∧ Extends P s.bucket past B' past' ∧
      Advances s.bucket B' := by
  cases hsent with
  | dropped hquiet => exact ⟨past, h.quiet hquiet, hquiet.extends, .of_heads hquiet.heads⟩
  | flies hquiet =>
    exact ⟨past, (h.quiet hquiet).flies (hq.extends hquiet.extends) hr, hquiet.extends,
      .of_heads hquiet.heads⟩
  | lands hquiet hexpected => exact ⟨_, h.lands hquiet hq hr hspares hexpected⟩

/-- A handle whose version was published keeps knowing one that was. -/
theorem System.Inv.touches (h : s.Inv P past) {v v' : IndexedVolume}
    (hv : Known P s.bucket past v) (ht : Touches P s.bucket v B' v')
    (hr : ∀ r, Succeeds v r → s.Records (v.request r).space (v.request r).manifest) :
    ∃ past', { s with bucket := B' }.Inv P past' ∧ Extends P s.bucket past B' past' ∧
      Advances s.bucket B' ∧ Known P B' past' v' ∧ v'.store = v.store := by
  have hjustified : ∀ r, Succeeds v r → Justified P s.bucket past (v.request r) :=
    fun r hr => ⟨_, hv.asks r, hr.follows⟩
  have hspares : ∀ r, s.Spares P past (v.request r) := by
    intro r d i _ m hasks howner
    left
    rcases hasks with ⟨hnone, -⟩ | ⟨rev, m', hsome, rfl, hd⟩
    · cases hnone
    · obtain rfl : v.revision = rev := Option.some.inj hsome
      rw [hd.unique hv] at howner
      exact (owner_wrap v r).trans howner
  cases ht with
  | apart hquiet hsame =>
    exact ⟨past, h.quiet hquiet, hquiet.extends, .of_heads hquiet.heads,
      hsame.known (hquiet.extends hv), hsame.store⟩
  | @sent _ _ r hnext hsent hsame =>
    obtain ⟨past', hinv, hext, hadvances⟩ :=
      h.sent hsent (hjustified r hnext) (hr r hnext) (hspares r)
    exact ⟨past', hinv, hext, hadvances, hsame.known (hext hv), hsame.store⟩
  | @published Bu _ r hnext hquiet hexpected hstore hroot hrevision =>
    obtain ⟨hinv, hext, hadvances⟩ :=
      h.lands hquiet (hjustified r hnext) (hr r hnext) (hspares r) hexpected
    refine ⟨_, hinv, hext, hadvances, ?_, hstore⟩
    rw [Known, hstore, hroot, hrevision, ← hquiet.published]
    exact Local.dated_replace P Bu past _ _

end Buckets

section Directories

variable {P : Platform} {past : ℕ → Manifest} {s : System} {d : ℕ} {D D' : Directory}
  {B' : Bucket} {q : Request}

/-- Changing one directory, and drawing tokens. A file that is on disk for good stays. -/
theorem System.Inv.put (h : s.Inv P past) {tokens : List Hash} (htokens : s.tokens ⊆ tokens)
    (hfile : ∀ i, (s.directories d).file = .whole i → (s.directories d).synced = true →
      D'.file = .whole i ∧ D'.synced = true)
    (htoken : ∀ i, D'.file = .whole i → i.token ∈ tokens)
    (hunique : ∀ i, D'.file = .whole i → ∀ d' ≠ d, ∀ i', (s.directories d').file = .whole i' →
      i.token ≠ i'.token)
    (hsound : D'.Sound P s.bucket past) (hkept : ∀ i, D'.Relies i → Kept s.bucket i) :
    { s.put d D' with tokens := tokens }.Inv P past := by
  have hself : (s.put d D').directories d = D' := Function.update_self ..
  have hother : ∀ {d'}, d' ≠ d → (s.put d D').directories d' = s.directories d' :=
    fun hne => Function.update_of_ne hne ..
  have hinstalled : ∀ {i}, s.Installed i →
      System.Installed { s.put d D' with tokens := tokens } i := by
    rintro i ⟨d', hd', hsynced⟩
    by_cases hd : d' = d
    · subst hd
      refine ⟨d', ?_⟩
      rw [hself]
      exact hfile i hd' hsynced
    · refine ⟨d', ?_⟩
      rw [hother hd]
      exact ⟨hd', hsynced⟩
  have hrecords : ∀ {space m}, s.Records space m →
      System.Records { s.put d D' with tokens := tokens } space m := by
    intro space m hr k t howner
    obtain ⟨id, hspace, hi⟩ := hr k t howner
    exact ⟨id, hspace, hinstalled hi⟩
  constructor
  · exact fun space hd hhead => ⟨(h.heads space hd hhead).1, hrecords (h.heads space hd hhead).2⟩
  · exact fun q hq => ⟨(h.flights q hq).1, hrecords (h.flights q hq).2⟩
  · exact h.volumes
  · exact h.prepared
  · intro d'
    by_cases hd : d' = d
    · subst hd
      rw [hself]
      exact hsound
    · rw [hother hd]
      exact h.directories d'
  · intro d' i hi
    by_cases hd : d' = d
    · subst hd
      rw [hself] at hi
      exact htoken i hi
    · rw [hother hd] at hi
      exact htokens (h.tokens d' i hi)
  · intro d₁ d₂ i₁ i₂ h₁ h₂ htok
    by_cases hd₁ : d₁ = d
    · by_cases hd₂ : d₂ = d
      · rw [hd₁, hd₂]
      · subst hd₁
        rw [hself] at h₁
        rw [hother hd₂] at h₂
        exact absurd htok (hunique i₁ h₁ d₂ hd₂ i₂ h₂)
    · by_cases hd₂ : d₂ = d
      · subst hd₂
        rw [hother hd₁] at h₁
        rw [hself] at h₂
        exact absurd htok.symm (hunique i₂ h₂ d₁ hd₁ i₁ h₁)
      · rw [hother hd₁] at h₁
        rw [hother hd₂] at h₂
        exact h.unique d₁ d₂ i₁ i₂ h₁ h₂ htok
  · intro d' i hrelies
    by_cases hd : d' = d
    · subst hd
      rw [hself] at hrelies
      exact hkept i hrelies
    · rw [hother hd] at hrelies
      exact h.kept d' i hrelies

/-- Changing one directory without its file. -/
theorem System.Inv.keep (h : s.Inv P past) (hfile : D'.file = (s.directories d).file)
    (hsynced : (s.directories d).synced = true → D'.synced = true)
    (hsound : D'.Sound P s.bucket past) (hkept : ∀ i, D'.Relies i → Kept s.bucket i) :
    (s.put d D').Inv P past := by
  refine System.Inv.put h (List.Subset.refl _) ?_ ?_ ?_ hsound hkept
  · exact fun i hi hs => ⟨hfile.trans hi, hsynced hs⟩
  · exact fun i hi => h.tokens d i (hfile ▸ hi)
  · intro i hi d' hne i' hi' htok
    exact hne (h.unique d d' i i' (hfile ▸ hi) hi' htok).symm

/-- Letting go of the lock. -/
theorem System.Inv.free (h : s.Inv P past) : (s.hold d .free).Inv P past :=
  h.keep rfl id trivial fun _ hrelies => hrelies.elim

/-- Nobody else goes by an identity whose directory is locked. -/
theorem System.Inv.relies_unique (h : s.Inv P past) {d' : ℕ} {i i' : Identity}
    (hfile : (s.directories d).file = .whole i) (hrelies : (s.directories d').Relies i')
    (htoken : i.token = i'.token) : d' = d := by
  have hfile' : (s.directories d').file = .whole i' := by
    have hsound := h.directories d'
    unfold Directory.Relies at hrelies
    unfold Directory.Sound at hsound
    split at hrelies
    · exact hrelies.1
    · rename_i hholder
      rw [hholder] at hsound
      rw [hsound.2.1, hrelies.1]
    · rename_i hholder
      rw [hholder] at hsound
      rw [hsound.1, hrelies.2]
    · exact hrelies.elim
  exact (h.unique d d' i i' hfile hfile' htoken).symm

end Directories

section Steps

variable {P : Platform} {past : ℕ → Manifest} {s s' : System} {d : ℕ} {B' : Bucket} {q : Request}

/-- A request asks from one version. -/
theorem Asks.unique {B : Bucket} {m m' : Option Manifest} (h : Asks P B past q m)
    (h' : Asks P B past q m') : m = m' := by
  rcases h with ⟨hnone, rfl⟩ | ⟨rev, n, hsome, rfl, hd⟩
  · rcases h' with ⟨-, rfl⟩ | ⟨rev', n', hsome', -, -⟩
    · rfl
    · cases hnone.symm.trans hsome'
  · rcases h' with ⟨hnone, -⟩ | ⟨rev', n', hsome', rfl, hd'⟩
    · cases hnone.symm.trans hsome
    · obtain rfl : rev = rev' := Option.some.inj (hsome.symm.trans hsome')
      rw [hd.unique hd']

/-- A head without an owner needs no record. -/
theorem records_of_unowned {space : Space} {m : Manifest} (h : (entry (some m)).owner = none) :
    s.Records space m := by
  intro k t howner
  cases h.symm.trans howner

/-- A request that was made from a head without an owner takes a volume from nobody. -/
theorem spares_of_unowned {m : Option Manifest} (hasks : Asks P s.bucket past q m)
    (h : (entry m).owner = none) : s.Spares P past q := by
  intro d i _ m' hasks' howner
  rw [hasks'.unique hasks, h] at howner
  cases howner

/-- The first head of a volume, and a handle on it. -/
theorem System.Inv.creates (h : s.Inv P past) {res : Result IndexedVolume}
    (hc : (B' = s.bucket ∧ ∃ e, res = .error e) ∨ ∃ q, Creates P s.bucket B' q res) :
    ∃ past', { s with bucket := B', volumes := s.volumes ++ res.toOption.toList }.Inv P past' ∧
      Advances s.bucket B' := by
  rcases hc with ⟨rfl, e, rfl⟩ | ⟨q, hc⟩
  · refine ⟨past, ?_, .of_heads rfl⟩
    simpa [Except.toOption] using h
  · have hasks : Asks P s.bucket past q none := .inl ⟨hc.expected, rfl⟩
    have hjustified : Justified P s.bucket past q := ⟨none, hasks, hc.follows⟩
    have hrecords : s.Records q.space q.manifest := records_of_unowned hc.owner
    have hspares : s.Spares P past q := spares_of_unowned hasks rfl
    cases res with
    | error e =>
      obtain ⟨past', hinv, -, hadvances⟩ := h.sent hc.sent hjustified hrecords hspares
      refine ⟨past', ?_, hadvances⟩
      simpa [Except.toOption] using hinv
    | ok w =>
      obtain ⟨hraw, hhead, rfl, hwrap, hrevision⟩ := hc.handle w rfl
      have hexpected : (s.bucket.heads q.space).map Head.revision = q.expected := by
        rw [hhead, hc.expected]
        rfl
      obtain ⟨hinv, -, hadvances⟩ := h.replace hjustified hrecords hspares hexpected
      refine ⟨_, { hinv with volumes := ?_ }, hadvances⟩
      intro v hv
      simp only [Except.toOption, Option.toList_some, List.mem_append, List.mem_singleton] at hv
      rcases hv with hv | rfl
      · exact hinv.volumes v hv
      · refine ⟨?_, hraw⟩
        rw [Known, hwrap, hrevision]
        exact Local.dated_replace P s.bucket past _ _

/-- A volume that was opened is known. -/
theorem System.Inv.opened (h : s.Inv P past) {c : Client} {id : VolumeId} {w : IndexedVolume}
    (hstore : w.store = c)
    (hhead : s.bucket.heads (c.space id) = some ⟨w.revision, c.wrap w.root⟩) :
    Known P s.bucket past w := by
  rw [Known, hstore]
  exact (h.heads _ _ hhead).1

/-- It may be kept. -/
theorem System.Inv.add (h : s.Inv P past) {w : IndexedVolume} (hw : Known P s.bucket past w)
    (hraw : ∃ bases, w.store = .raw bases) :
    { s with volumes := s.volumes ++ [w] }.Inv P past := by
  refine { h with volumes := ?_ }
  intro v hv
  rcases List.mem_append.mp hv with hv | hv
  · exact h.volumes v hv
  · obtain rfl := List.mem_singleton.mp hv
    exact ⟨hw, hraw⟩

/-- Disk maps that are not wrapped name no owner. -/
theorem records_of_raw {v : IndexedVolume} (h : ∃ bases, v.store = .raw bases) (r : Root) :
    s.Records (v.request r).space (v.request r).manifest := by
  obtain ⟨bases, hstore⟩ := h
  apply records_of_unowned
  simp only [IndexedVolume.request, hstore, Client.wrap, entry, Ownership.Entry.owner]

/-- And replaced by another known one. -/
theorem System.Inv.set (h : s.Inv P past) {n : ℕ} {w : IndexedVolume}
    (hw : Known P s.bucket past w) (hraw : ∃ bases, w.store = .raw bases) :
    { s with volumes := s.volumes.set n w }.Inv P past := by
  refine { h with volumes := ?_ }
  intro v hv
  rcases List.mem_or_eq_of_mem_set hv with hv | rfl
  · exact h.volumes v hv
  · exact ⟨hw, hraw⟩

/-- A request may be prepared. -/
theorem System.Inv.prepare (h : s.Inv P past) (hq : Unowned P s.bucket past q) :
    { s with prepared := q :: s.prepared }.Inv P past := by
  refine { h with prepared := ?_ }
  intro q' hq'
  rcases List.mem_cons.mp hq' with rfl | hq'
  · exact hq
  · exact h.prepared q' hq'

/-- A request for a volume that is made from its current head. -/
theorem System.Inv.asks (h : s.Inv P past) {id : VolumeId} (hm : Moves id (s.head id) q) :
    Asks P s.bucket past q ((s.head id).map Head.manifest) :=
  asks_of_head hm fun hd hhead => (h.heads _ hd hhead).1

/-- A head that is read records its owner. -/
theorem kept_of_head {rev : Revision} {e : Envelope} {i : Identity}
    (hhead : s.head i.volume = some ⟨rev, .envelope e⟩) (hmatches : i.matches e = true) :
    Kept s.bucket i := by
  left
  have hentry : recorded s.bucket ⟨false, i.volume⟩ = entry (some (.envelope e)) :=
    congrArg (fun h : Option Head => entry (h.map Head.manifest)) hhead
  rw [hentry, entry_owned hmatches]
  rfl

/-- A head may be read. -/
theorem System.Inv.read (h : s.Inv P past) {id : VolumeId} {retiring : Bool} {view : View}
    {rev : Revision} {e : Envelope} (hok : openHead P view id (s.head id) = .ok (rev, e)) :
    (s.hold d (.read id retiring rev e)).Inv P past := by
  have hhead := openHead_ok hok
  refine h.keep rfl (fun hsynced => hsynced) ?_ ?_
  · exact (h.heads _ _ hhead).1
  · rintro i ⟨-, rfl, hmatches⟩
    exact kept_of_head hhead hmatches

/-- An identity may be found. -/
theorem System.Inv.found (h : s.Inv P past) {id : VolumeId} {retiring : Bool} {rev : Revision}
    {e : Envelope} {i : Identity} (hread : (s.directories d).holder = .read id retiring rev e)
    (hok : (s.directories d).file.read id = .ok (some i)) :
    (s.put d { s.directories d with
      synced := true, holder := .named retiring rev e i }).Inv P past := by
  obtain ⟨hfile, hvolume⟩ := IdentityFile.read_ok hok
  have hsound := h.directories d
  simp only [Directory.Sound, hread] at hsound
  refine h.keep rfl (fun _ => rfl) ⟨hsound, hfile, rfl⟩ ?_
  rintro _ ⟨rfl, hmatches⟩
  apply h.kept d
  simp only [Directory.Relies, hread]
  exact ⟨hfile, hvolume, hmatches⟩

/-- A new identity is nobody else's, and not yet an owner. -/
theorem System.Inv.draw (h : s.Inv P past) {id : VolumeId} {retiring : Bool} {rev : Revision}
    {e : Envelope} {token : Hash} {i : Identity} {file : IdentityFile} {synced : Bool}
    {holder : Holder} (hread : (s.directories d).holder = .read id retiring rev e)
    (habsent : (s.directories d).file = .absent) (hfresh : token ∉ s.tokens)
    (hok : newIdentity id e token = .ok i)
    (hfile : file = .absent ∨ file = .torn ∨ file = .whole i)
    (hholder : holder = .free ∨
      holder = .named retiring rev e i ∧ file = .whole i ∧ synced = true) :
    System.Inv P past { s.put d { s.directories d with
      file := file, synced := synced, holder := holder } with tokens := token :: s.tokens } := by
  obtain ⟨rfl, howner⟩ := newIdentity_ok hok
  have hsound := h.directories d
  simp only [Directory.Sound, hread] at hsound
  have htoken : ∀ {i : Identity}, file = .whole i → i.token = token := by
    intro i hi
    rcases hfile with hf | hf | hf
    · cases hf.symm.trans hi
    · cases hf.symm.trans hi
    · obtain rfl := IdentityFile.whole.inj (hf.symm.trans hi)
      rfl
  refine System.Inv.put h (List.subset_cons_self _ _) ?_ ?_ ?_ ?_ ?_
  · intro i hi
    cases habsent.symm.trans hi
  · intro i hi
    rw [htoken hi]
    exact List.mem_cons_self
  · intro i hi d' _ i' hi' heq
    apply hfresh
    rw [← htoken hi, heq]
    exact h.tokens d' i' hi'
  · rcases hholder with rfl | ⟨rfl, rfl, rfl⟩
    · trivial
    · exact ⟨hsound, rfl, rfl⟩
  · intro i hrelies
    rcases hholder with rfl | ⟨rfl, -, -⟩
    · exact hrelies.elim
    · obtain ⟨rfl, hmatches⟩ := hrelies
      obtain ⟨-, hsome⟩ := Identity.matches_iff.mp hmatches
      cases howner.symm.trans hsome

/-- A claim that is already in the head is adopted. -/
theorem System.Inv.adopt (h : s.Inv P past) {retiring : Bool} {rev : Revision} {e : Envelope}
    {i : Identity} (hnamed : (s.directories d).holder = .named retiring rev e i)
    (hok : claim P i rev e = .ok none) :
    (s.hold d (.store ⟨i, retiring, !retiring, none, []⟩)).Inv P past := by
  have hsound := h.directories d
  simp only [Directory.Sound, hnamed] at hsound
  refine h.keep rfl id ⟨hsound.2.1, hsound.2.2, List.forall_mem_nil _, fun _ hq => by cases hq⟩ ?_
  rintro _ ⟨-, rfl⟩
  apply h.kept d
  simp only [Directory.Relies, hnamed]
  exact ⟨trivial, claim_none hok⟩

/-- What a claim needs to be sent. -/
theorem System.Inv.claimable (h : s.Inv P past) {retiring : Bool} {rev : Revision} {e : Envelope}
    {i : Identity} (hnamed : (s.directories d).holder = .named retiring rev e i)
    (hq : claim P i rev e = .ok (some q)) :
    Justified P s.bucket past q ∧ s.Records q.space q.manifest ∧ s.Spares P past q := by
  have hsound := h.directories d
  simp only [Directory.Sound, hnamed] at hsound
  obtain ⟨hdated, hfile, hsynced⟩ := hsound
  obtain ⟨hmoves, howner, hclaims⟩ := claim_ok hq
  have hasks : Asks P s.bucket past q (some (.envelope e)) :=
    asks_of_head hmoves fun hd hhead => by
      obtain rfl := Option.some.inj hhead
      exact hdated
  refine ⟨⟨_, hasks, hmoves.follows⟩, ?_, spares_of_unowned hasks ?_⟩
  · intro k t hsome
    rw [hclaims] at hsome
    obtain ⟨rfl, rfl⟩ := Prod.mk.inj (Option.some.inj hsome)
    exact ⟨i.volume, hmoves.space, d, hfile, hsynced⟩
  · rw [entry, howner]
    rfl

/-- A claim that succeeds makes the holder the owner. -/
theorem System.Inv.claims (h : s.Inv P past) {retiring : Bool} {rev rev' : Revision}
    {e : Envelope} {i : Identity} {dl : Delivery}
    (hnamed : (s.directories d).holder = .named retiring rev e i)
    (hq : claim P i rev e = .ok (some q))
    (hsend : transmit P s.bucket q.space q.expected q.manifest dl = (B', .ok rev')) :
    ∃ past', ({ s with bucket := B' }.hold d
        (.store ⟨i, retiring, !retiring, none, []⟩)).Inv P past' ∧ Advances s.bucket B' := by
  obtain ⟨hjustified, hrecords, hspares⟩ := h.claimable hnamed hq
  obtain ⟨hexpected, rfl, -⟩ := (transmit_sent hsend).2 rev' rfl
  obtain ⟨hinv, -, hadvances⟩ := h.replace hjustified hrecords hspares hexpected
  have hsound := h.directories d
  simp only [Directory.Sound, hnamed] at hsound
  obtain ⟨hmoves, -, hclaims⟩ := claim_ok hq
  refine ⟨_, hinv.keep rfl id
    ⟨hsound.2.1, hsound.2.2, List.forall_mem_nil _, fun _ hq => by cases hq⟩ ?_, hadvances⟩
  rintro _ ⟨-, rfl⟩
  left
  rw [recorded, ← hmoves.space, Bucket.replace_heads_self]
  exact hclaims

/-- Whoever has decided to end an ownership has closed the store before. -/
theorem System.Inv.decide (h : s.Inv P past) {st : Store} {m : Option Manifest}
    (hstore : (s.directories d).holder = .store st) (hactive : st.active = false)
    (hasks : Asks P s.bucket past q m) (hfollows : Follows m q.manifest)
    (howner : (entry m).owner = some (st.identity.epoch, st.identity.token))
    (hnone : (entry (some q.manifest)).owner = none) :
    (s.hold d (.store { st with pending := some q })).Inv P past := by
  have hsound := h.directories d
  simp only [Directory.Sound, hstore] at hsound
  obtain ⟨hfile, hsynced, hvolumes, -⟩ := hsound
  refine h.keep rfl id ⟨hfile, hsynced, hvolumes, ?_⟩ ?_
  · intro q' hq'
    obtain rfl := Option.some.inj hq'
    exact ⟨hactive, ⟨m, hasks, hfollows, howner⟩, hnone⟩
  · rintro i ⟨htrue, -⟩
    cases hactive.symm.trans htrue

/-- Ending an ownership takes the volume from nobody who relies on it. -/
theorem System.Inv.sendOwned (h : s.Inv P past) {st : Store} {dl : Delivery}
    {res : Result Revision} (hstore : (s.directories d).holder = .store st)
    (hpending : st.pending = some q)
    (hsend : transmit P s.bucket q.space q.expected q.manifest dl = (B', res)) :
    ∃ past', ({ s with bucket := B' }.hold d (.store { st with pending := none })).Inv P past' ∧
      Advances s.bucket B' := by
  have hsound := h.directories d
  simp only [Directory.Sound, hstore] at hsound
  obtain ⟨hfile, -, -, hends⟩ := hsound
  obtain ⟨hclosed, ⟨m, hasks, hfollows, howner⟩, hnone⟩ := hends q hpending
  have hspares : s.Spares P past q := by
    intro d' i hrelies m' hasks' howner'
    rw [hasks'.unique hasks, howner] at howner'
    obtain ⟨-, htoken⟩ := Prod.mk.inj (Option.some.inj howner')
    obtain rfl := h.relies_unique hfile hrelies htoken
    simp only [Directory.Relies, hstore] at hrelies
    cases hclosed.symm.trans hrelies.1
  obtain ⟨past', hinv, -, hadvances⟩ := h.sent (transmit_sent hsend).1 ⟨m, hasks, hfollows⟩
    (records_of_unowned hnone) hspares
  have hsound' := hinv.directories d
  simp only [Directory.Sound, hstore] at hsound'
  obtain ⟨hfile', hsynced', hvolumes', -⟩ := hsound'
  refine ⟨past', hinv.keep rfl id ⟨hfile', hsynced', hvolumes', fun _ hq => by cases hq⟩ ?_,
    hadvances⟩
  rintro i ⟨htrue, -⟩
  cases hclosed.symm.trans htrue

/-- The handles behind an ownership layer change, but the layer does not. -/
theorem System.Inv.behind (h : s.Inv P past) {st : Store} {volumes : List IndexedVolume}
    (hstore : (s.directories d).holder = .store st)
    (hvolumes : ∀ v ∈ volumes, Known P s.bucket past v ∧ v.store = .owned st.identity) :
    (s.hold d (.store { st with volumes := volumes })).Inv P past := by
  have hsound := h.directories d
  simp only [Directory.Sound, hstore] at hsound
  obtain ⟨hfile, hsynced, -, hpending⟩ := hsound
  refine h.keep rfl id ⟨hfile, hsynced, hvolumes, hpending⟩ ?_
  rintro i ⟨htrue, rfl⟩
  apply h.kept d
  simp only [Directory.Relies, hstore]
  exact ⟨htrue, trivial⟩

/-- The handles behind an ownership layer are known. -/
theorem System.Inv.owned (h : s.Inv P past) {st : Store}
    (hstore : (s.directories d).holder = .store st) :
    s.Installed st.identity ∧
      ∀ v ∈ st.volumes, Known P s.bucket past v ∧ v.store = .owned st.identity := by
  have hsound := h.directories d
  simp only [Directory.Sound, hstore] at hsound
  exact ⟨⟨d, hsound.1, hsound.2.1⟩, hsound.2.2.1⟩

/-- A call of an owned volume keeps the invariant. -/
theorem System.Inv.callOwned (h : s.Inv P past) {st : Store} {n : ℕ} {v v' : IndexedVolume}
    (hstore : (s.directories d).holder = .store st) (hv : st.volumes[n]? = some v)
    (ht : Touches P s.bucket v B' v') :
    ∃ past', ({ s with bucket := B' }.hold d
        (.store { st with volumes := st.volumes.set n v' })).Inv P past' ∧
      Advances s.bucket B' := by
  obtain ⟨hinstalled, hvolumes⟩ := h.owned hstore
  obtain ⟨hknown, hlayer⟩ := hvolumes v (List.mem_of_getElem? hv)
  have hrecords : ∀ r, Succeeds v r → s.Records (v.request r).space (v.request r).manifest := by
    intro r hnext k t howner
    have hvolume := hnext.owned st.identity hlayer
    simp only [IndexedVolume.request, hlayer, Client.wrap, entry, Ownership.Entry.owner] at howner
    obtain ⟨rfl, rfl⟩ := Prod.mk.inj (Option.some.inj howner)
    refine ⟨st.identity.volume, ?_, hinstalled⟩
    rw [IndexedVolume.request, hlayer, hvolume]
    rfl
  obtain ⟨past', hinv, hext, hadvances, hknown', hsame⟩ := h.touches hknown ht hrecords
  refine ⟨past', hinv.behind hstore ?_, hadvances⟩
  intro w hw
  rcases List.mem_or_eq_of_mem_set hw with hw | rfl
  · exact (hinv.owned hstore).2 w hw
  · exact ⟨hknown', hsame.trans hlayer⟩

/-- Every step keeps the invariant and moves the heads by the protocol. -/
theorem System.Inv.step (h : s.Inv P past) (hstep : System.Step P s s') :
    ∃ past', s'.Inv P past' ∧ Advances s.bucket s'.bucket := by
  have hstay : ∀ {t : System}, t.Inv P past → t.bucket.heads = s.bucket.heads →
      ∃ past', t.Inv P past' ∧ Advances s.bucket t.bucket :=
    fun ht hheads => ⟨past, ht, .of_heads hheads⟩
  cases hstep with
  | create hc => exact h.creates (createInner_creates hc)
  | createFromBase hc => exact h.creates (createFromBase_creates hc)
  | @openVolume view bases id w ha hok =>
    obtain ⟨hstore, hhead⟩ := open_version ha hok
    exact hstay (h.add (h.opened hstore hhead) ⟨bases, hstore⟩) rfl
  | @resume view bases id size w ha hok =>
    obtain ⟨hstore, hhead⟩ := resumeImport_version ha hok
    exact hstay (h.add (h.opened hstore hhead) ⟨bases, hstore⟩) rfl
  | call hv hcall =>
    obtain ⟨hknown, hraw⟩ := h.volumes _ (List.mem_of_getElem? hv)
    obtain ⟨past', hinv, -, hadvances, hknown', hsame⟩ :=
      h.touches hknown (call_touches hcall) fun r _ => records_of_raw hraw r
    exact ⟨past', hinv.set hknown' (hsame ▸ hraw), hadvances⟩
  | @finish n v v' φ φ' B' res hv hfinish =>
    obtain ⟨hknown, hraw⟩ := h.volumes _ (List.mem_of_getElem? hv)
    obtain ⟨B₁, v₁, ht₁, ht₂⟩ := finishImport_touches hfinish
    obtain ⟨past₁, hinv₁, -, hadvances₁, hknown₁, hsame₁⟩ :=
      h.touches hknown ht₁ fun r _ => records_of_raw hraw r
    have hraw₁ : ∃ bases, v₁.store = .raw bases := hsame₁ ▸ hraw
    obtain ⟨past₂, hinv₂, -, hadvances₂, hknown₂, hsame₂⟩ :=
      hinv₁.touches hknown₁ ht₂ fun r _ => records_of_raw hraw₁ r
    exact ⟨past₂, hinv₂.set hknown₂ (hsame₂ ▸ hraw₁), hadvances₁.trans hadvances₂⟩
  | enroll _ hok =>
    obtain ⟨hmoves, howner, hnone⟩ := enroll_ok hok
    exact hstay (h.prepare ⟨⟨_, h.asks hmoves, hmoves.follows, howner⟩, hnone⟩) rfl
  | retire _ hok =>
    obtain ⟨hmoves, howner, hnone⟩ := retire_ok hok
    exact hstay (h.prepare ⟨⟨_, h.asks hmoves, hmoves.follows, howner⟩, hnone⟩) rfl
  | retireAsOwner => exact hstay { h with } rfl
  | send hq hsend =>
    obtain ⟨⟨m, hasks, hfollows, howner⟩, hnone⟩ := h.prepared _ hq
    obtain ⟨past', hinv, -, hadvances⟩ := h.sent (transmit_sent hsend).1
      ⟨m, hasks, hfollows⟩ (records_of_unowned hnone) (spares_of_unowned hasks howner)
    refine ⟨past', { hinv with prepared := ?_ }, hadvances⟩
    exact fun q' hq' => hinv.prepared q' (List.mem_of_mem_erase hq')
  | lock => exact hstay (h.keep rfl (fun hs => hs) trivial fun _ hrelies => hrelies.elim) rfl
  | read _ hok => exact hstay (h.read hok) rfl
  | found hread hok => exact hstay (h.found hread hok) rfl
  | draw hread habsent _ hfresh hok =>
    exact hstay (h.draw hread habsent hfresh hok (.inr (.inr rfl)) (.inr ⟨rfl, rfl, rfl⟩)) rfl
  | drawFails hread habsent _ hfresh hok hfile =>
    exact hstay (h.draw hread habsent hfresh hok hfile (.inl rfl)) rfl
  | adopt hnamed hok => exact hstay (h.adopt hnamed hok) rfl
  | claims hnamed hq hsend => exact h.claims hnamed hq hsend
  | claimFails hnamed hq hsend =>
    obtain ⟨hjustified, hrecords, hspares⟩ := h.claimable hnamed hq
    obtain ⟨past', hinv, -, hadvances⟩ :=
      h.sent (transmit_sent hsend).1 hjustified hrecords hspares
    exact ⟨past', hinv.free, hadvances⟩
  | @close d st hstore =>
    have hsound := h.directories d
    simp only [Directory.Sound, hstore] at hsound
    obtain ⟨hfile, hsynced, hvolumes, hpending⟩ := hsound
    refine hstay (h.keep rfl (fun hs => hs) ⟨hfile, hsynced, hvolumes, ?_⟩ ?_) rfl
    · exact fun q hq => ⟨rfl, (hpending q hq).2⟩
    · rintro i ⟨htrue, -⟩
      cases htrue
  | release hstore _ hactive _ hok =>
    obtain ⟨hmoves, howner, hnone⟩ := release_ok hok
    exact hstay (h.decide hstore hactive (h.asks hmoves) hmoves.follows howner hnone) rfl
  | retireOwned hstore _ hactive _ hok =>
    obtain ⟨hmoves, howner, hnone⟩ := retireOwned_ok hok
    exact hstay (h.decide hstore hactive (h.asks hmoves) hmoves.follows howner hnone) rfl
  | sendOwned hstore hpending hsend => exact h.sendOwned hstore hpending hsend
  | @openOwned d st view w hstore _ ha hok =>
    obtain ⟨hlayer, hhead⟩ := open_version ha hok
    refine hstay (h.behind hstore fun v hv => ?_) rfl
    rcases List.mem_append.mp hv with hv | hv
    · exact (h.owned hstore).2 v hv
    · obtain rfl := List.mem_singleton.mp hv
      exact ⟨h.opened hlayer hhead, hlayer⟩
  | callOwned hstore _ hv hcall => exact h.callOwned hstore hv (call_touches hcall)
  | @copyOwned d st v w hstore hv hok =>
    refine hstay (h.behind hstore fun u hu => ?_) rfl
    rcases List.mem_append.mp hu with hu | hu
    · exact (h.owned hstore).2 u hu
    · obtain rfl := List.mem_singleton.mp hu
      obtain ⟨hknown, hlayer⟩ := (h.owned hstore).2 v hv
      have hsame := cleanCopy_same hok
      exact ⟨hsame.known hknown, hsame.store.trans hlayer⟩
  | drop => exact hstay h.free rfl
  | @powerLoss d file marker hfile _ =>
    have hback : ∀ {i}, file = .whole i → (s.directories d).file = .whole i := by
      intro i hi
      rcases hfile with rfl | ⟨_, rfl | rfl⟩
      · exact hi
      · cases hi
      · cases hi
    refine hstay (System.Inv.put h (List.Subset.refl _) ?_ ?_ ?_ trivial ?_) rfl
    · intro i hi hsynced
      rcases hfile with rfl | ⟨hlost, _⟩
      · exact ⟨hi, hsynced⟩
      · cases hlost.symm.trans hsynced
    · exact fun i hi => h.tokens d i (hback hi)
    · intro i hi d' hne i' hi' htoken
      exact hne (h.unique d d' i i' (hback hi) hi' htoken).symm
    · exact fun _ hrelies => hrelies.elim
  | @discard d hfree | @discardFails d hfree =>
    refine hstay (h.keep rfl (fun hs => hs) ?_ ?_) rfl
    · simp only [Directory.Sound, hfree]
    · intro i hrelies
      simp only [Directory.Relies, hfree] at hrelies
  | @land q hq =>
    obtain ⟨hjustified, hrecords⟩ := h.flights q hq
    by_cases hexpected : (s.bucket.heads q.space).map Head.revision = q.expected
    · have hland : s.bucket.land P q = s.bucket.replace P q.space q.manifest := by
        simp only [Bucket.land, Bucket.publish, hexpected, if_true]
        rfl
      obtain ⟨hinv, -, hadvances⟩ :=
        h.replace hjustified hrecords (fun _ _ _ _ _ _ => .inr hq) hexpected
      rw [hland]
      exact ⟨_, hinv, hadvances⟩
    · have hland : s.bucket.land P q = s.bucket := by
        simp only [Bucket.land, Bucket.publish, hexpected, if_false]
      rw [hland]
      exact hstay h rfl
  | objects => exact hstay (h.quiet ⟨rfl, rfl, rfl⟩) rfl

/-- An identity that is on disk for good stays there. -/
theorem System.Installed.step {i : Identity} (h : s.Installed i) (hstep : System.Step P s s') :
    s'.Installed i := by
  obtain ⟨d, hfile, hsynced⟩ := h
  have hput : ∀ {t : System} {d' : ℕ} {D : Directory},
      t.directories = Function.update s.directories d' D →
      (d' = d → D.file = .whole i ∧ D.synced = true) → t.Installed i := by
    intro t d' D ht hD
    refine ⟨d, ?_⟩
    rw [ht]
    by_cases hd : d = d'
    · subst hd
      rw [Function.update_self]
      exact hD rfl
    · rw [Function.update_of_ne hd]
      exact ⟨hfile, hsynced⟩
  cases hstep with
  | lock | read | adopt | claims | claimFails | close | release | retireOwned | sendOwned
  | openOwned | callOwned | copyOwned | drop | discard | discardFails =>
    exact hput rfl (by rintro rfl; exact ⟨hfile, hsynced⟩)
  | found => exact hput rfl (by rintro rfl; exact ⟨hfile, rfl⟩)
  | draw _ habsent | drawFails _ habsent =>
    exact hput rfl (by rintro rfl; cases habsent.symm.trans hfile)
  | powerLoss hkept =>
    refine hput rfl ?_
    rintro rfl
    rcases hkept with rfl | ⟨hlost, _⟩
    · exact ⟨hfile, hsynced⟩
    · cases hlost.symm.trans hsynced
  | _ => exact ⟨d, hfile, hsynced⟩

/-- The invariant holds at the start. -/
theorem inv_start (P : Platform) (past : ℕ → Manifest) : System.start.Inv P past where
  heads _ _ h := by cases h
  flights _ h := by cases h
  volumes _ h := by cases h
  prepared _ h := by cases h
  directories _ := trivial
  tokens _ _ h := by cases h
  unique _ _ _ _ h := by cases h
  kept _ _ h := h.elim

/-- By induction on the run, it holds in every system reached, heads advance and identities stay. -/
theorem System.Inv.run (h : s.Inv P past) (hrun : System.Run P s s') :
    (∃ past', s'.Inv P past') ∧ Advances s.bucket s'.bucket ∧
      ∀ i, s.Installed i → s'.Installed i := by
  induction hrun with
  | refl => exact ⟨⟨past, h⟩, .of_heads rfl, fun _ hi => hi⟩
  | tail _ hstep ih =>
    obtain ⟨⟨past', hinv⟩, hadvances, hinstalled⟩ := ih
    obtain ⟨past'', hinv', hadvances'⟩ := hinv.step hstep
    exact ⟨⟨past'', hinv'⟩, hadvances.trans hadvances', fun i hi => (hinstalled i hi).step hstep⟩

end Steps

end AgentHouse.Owned
