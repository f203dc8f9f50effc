import AgentHouse.Cache.Calls

/-!
# The cache is bounded and transparent

What holds in every state of every run of a cached store: the bounds of the state, where every
entry and every result comes from, and what a deletion leaves.
-/

namespace AgentHouse.Cache

open AgentHouse.Volume (Bytes Error Result chunkBytes maxObjectBytes)
open AgentHouse.Op

/-- A key that base objects are cached under. -/
def Key.OfBase (key : Key) : Prop := ∃ image hash, key = baseKey image hash

/-- A key is answered from the volume object of its name, or it is a key of base objects. -/
theorem Source.Serves.cases {source : Source} {key : Key} (h : source.Serves key) :
    source = .volume key.1 key.2 ∨ Key.OfBase key := by
  cases source with
  | volume id hash =>
    obtain rfl := h
    exact .inl rfl
  | base image hash => exact .inr ⟨image, hash, h⟩
  | metadata hash =>
    obtain ⟨image, h⟩ := h
    exact .inr ⟨image, hash, h⟩
  | localImage image =>
    obtain ⟨hash, h⟩ := h
    exact .inr ⟨image, hash, h⟩

namespace World

variable {P : Setup} {w w' : World} {key : Key}

/-- The object was put after the moment `deleted` and not after `moment`. -/
def PutAgain (w : World) (source : Source) (deleted moment : Moment) : Prop :=
  ∃ put, (source, put) ∈ w.puts ∧ deleted < put ∧ put ≤ moment

/-- The source of a key held the bytes at the moment. -/
def Held (w : World) (key : Key) (bytes : Bytes) (moment : Moment) : Prop :=
  ∃ source : Source, source.Serves key ∧ (source, bytes, moment) ∈ w.held

/-- What a call had in hand from before a deletion at `deleted`, or was put again after it, or is
a base object. -/
def Survives (w : World) (key : Key) (deleted obtained : Moment) : Prop :=
  obtained < deleted ∨ w.PutAgain (.volume key.1 key.2) deleted obtained ∨ Key.OfBase key

/-- An entry is verified, comes from a source of its key, and is younger than every deletion of
its key. -/
structure Genuine (P : Setup) (w : World) (key : Key) (e : Entry) : Prop where
  verified : P.digest e.bytes = key.2
  held : w.Held key e.bytes e.obtained
  inserted : e.inserted < w.now
  younger : ∀ deleted removed, (key, deleted, removed) ∈ w.deletions →
    removed < e.inserted ∧ w.Survives key deleted e.obtained

/-- A call that began after a deletion does not return the object, unless it was put again, or
was inserted after the deletion by a call that had it in hand from before. -/
def Fresh (w : World) (a : Answer) : Prop :=
  ∀ deleted removed, (a.key, deleted, removed) ∈ w.deletions → removed < a.began →
    w.PutAgain (.volume a.key.1 a.key.2) deleted a.found.obtained ∨ Key.OfBase a.key ∨
    (a.found.obtained < deleted ∧ ∃ inserted, a.found.inserted = some inserted ∧
      removed < inserted)

/-- A result is verified, comes from a source of its key, and is not a deleted object. -/
structure Legitimate (P : Setup) (w : World) (a : Answer) : Prop where
  verified : P.digest a.found.bytes = a.key.2
  held : w.Held a.key a.found.bytes a.found.obtained
  began : a.began ≤ w.now
  fresh : w.Fresh a

/-- The invariant of a store. -/
structure Sound (P : Setup) (w : World) : Prop where
  safe : w.panicked = false
  bounded : w.cache.Bounded P.capacity
  genuine : ∀ key e, w.cache.objects key = some e → w.Genuine P key e
  legitimate : ∀ a ∈ w.answers, w.Legitimate P a
  /-- What was held after a deletion has been put again. -/
  heldAgain : ∀ source bytes moment deleted, (source, bytes, moment) ∈ w.held →
    (source, deleted) ∈ w.gone → moment < deleted ∨ w.PutAgain source deleted moment
  heldPast : ∀ source bytes moment, (source, bytes, moment) ∈ w.held → moment < w.now
  remoteAgain : ∀ source deleted, (source, deleted) ∈ w.gone → w.remote source ≠ none →
    ∃ put, (source, put) ∈ w.puts ∧ deleted < put
  putsPast : ∀ source put, (source, put) ∈ w.puts → put < w.now
  gonePast : ∀ source deleted, (source, deleted) ∈ w.gone → deleted < w.now
  goneVolume : ∀ source deleted, (source, deleted) ∈ w.gone → ∃ id hash, source = .volume id hash
  deletions : ∀ key deleted removed, (key, deleted, removed) ∈ w.deletions →
    (.volume key.1 key.2, deleted) ∈ w.gone ∧ deleted < removed ∧ removed < w.now

/-- What every step of a run keeps. -/
structure Grows (w w' : World) : Prop where
  now : w.now ≤ w'.now
  held : w.held ⊆ w'.held
  puts : w.puts ⊆ w'.puts
  gone : w.gone ⊆ w'.gone
  deletions : w.deletions ⊆ w'.deletions
  /-- A deletion that is recorded later happens later. -/
  later : ∀ key deleted removed, (key, deleted, removed) ∈ w'.deletions →
    (key, deleted, removed) ∈ w.deletions ∨ w.now ≤ removed

theorem Grows.refl (w : World) : w.Grows w :=
  ⟨le_refl _, List.Subset.refl _, List.Subset.refl _, List.Subset.refl _, List.Subset.refl _,
    fun _ _ _ h => .inl h⟩

/-- Growth over several steps. -/
theorem Grows.trans {u : World} (h : w.Grows w') (h' : w'.Grows u) : w.Grows u := by
  refine ⟨h.now.trans h'.now, List.Subset.trans h.held h'.held, List.Subset.trans h.puts h'.puts,
    List.Subset.trans h.gone h'.gone, List.Subset.trans h.deletions h'.deletions, ?_⟩
  intro key deleted removed hmem
  rcases h'.later key deleted removed hmem with hmem | hlater
  · exact h.later key deleted removed hmem
  · exact .inr (h.now.trans hlater)

theorem PutAgain.mono {source : Source} {deleted moment : Moment} (hgrows : w.Grows w')
    (h : w.PutAgain source deleted moment) : w'.PutAgain source deleted moment := by
  obtain ⟨put, hput, hlt, hle⟩ := h
  exact ⟨put, hgrows.puts hput, hlt, hle⟩

theorem Held.mono {bytes : Bytes} {moment : Moment} (hgrows : w.Grows w')
    (h : w.Held key bytes moment) : w'.Held key bytes moment := by
  obtain ⟨source, hserves, hheld⟩ := h
  exact ⟨source, hserves, hgrows.held hheld⟩

theorem Survives.mono {deleted obtained : Moment} (hgrows : w.Grows w')
    (h : w.Survives key deleted obtained) : w'.Survives key deleted obtained :=
  h.imp_right (Or.imp_left (PutAgain.mono hgrows))

/-- A result stays legitimate: later deletions end after it began. -/
theorem Legitimate.mono {a : Answer} (hgrows : w.Grows w') (h : w.Legitimate P a) :
    w'.Legitimate P a := by
  refine ⟨h.verified, h.held.mono hgrows, h.began.trans hgrows.now, ?_⟩
  intro deleted removed hmem hbegan
  rcases hgrows.later _ _ _ hmem with hmem | hlater
  · exact (h.fresh deleted removed hmem hbegan).imp_left (PutAgain.mono hgrows)
  · exact absurd (lt_of_lt_of_le hbegan h.began) (not_lt.mpr hlater)

/-- An entry stays genuine as long as no deletion of its key is recorded. -/
theorem Genuine.mono {e : Entry} (hgrows : w.Grows w') (h : w.Genuine P key e)
    (hkept : ∀ deleted removed, (key, deleted, removed) ∈ w'.deletions →
      (key, deleted, removed) ∈ w.deletions) : w'.Genuine P key e := by
  refine ⟨h.verified, h.held.mono hgrows, lt_of_lt_of_le h.inserted hgrows.now, ?_⟩
  intro deleted removed hmem
  obtain ⟨hlt, hsurvives⟩ := h.younger deleted removed (hkept deleted removed hmem)
  exact ⟨hlt, hsurvives.mono hgrows⟩

/-- What was held survives the deletions that it was held before or put after. -/
theorem Sound.survives (h : w.Sound P) {bytes : Bytes} {moment deleted removed : Moment}
    (hheld : w.Held key bytes moment) (hdeleted : (key, deleted, removed) ∈ w.deletions) :
    w.Survives key deleted moment := by
  obtain ⟨source, hserves, hheld⟩ := hheld
  rcases hserves.cases with rfl | hbase
  · have hgone := (h.deletions key deleted removed hdeleted).1
    exact (h.heldAgain _ _ _ _ hheld hgone).imp_right .inl
  · exact .inr (.inr hbase)

/-- What a call has in hand that began at `began`: bytes that were read since then. -/
structure Read (w : World) (key : Key) (began : Moment) (found : Found) : Prop where
  held : w.Held key found.bytes found.obtained
  since : began ≤ found.obtained
  past : began ≤ w.now

theorem Read.mono {began : Moment} {found : Found} (hgrows : w.Grows w')
    (h : w.Read key began found) : w'.Read key began found :=
  ⟨h.held.mono hgrows, h.since, h.past.trans hgrows.now⟩

theorem Read.earlier {began moment : Moment} {found : Found} (h : w.Read key moment found)
    (hle : began ≤ moment) : w.Read key began found :=
  ⟨h.held, hle.trans h.since, hle.trans h.past⟩

/-- Bytes that were read since the call began may be returned. -/
theorem Read.legitimate {began : Moment} {found : Found} (h : w.Read key began found)
    (hsound : w.Sound P) (hverified : P.digest found.bytes = key.2) :
    w.Legitimate P ⟨key, began, found⟩ := by
  refine ⟨hverified, h.held, h.past, fun deleted removed hmem hbegan => ?_⟩
  rcases hsound.survives h.held hmem with hbefore | hagain | hbase
  · have horder := (hsound.deletions _ _ _ hmem).2.1
    have hlt : found.obtained < began := hbefore.trans (horder.trans hbegan)
    exact absurd h.since (not_le.mpr hlt)
  · exact .inl hagain
  · exact .inr (.inl hbase)

/-! ## What the actions keep -/

/-- What an action may be given. -/
def Permitted (P : Setup) : {β : Type} → Action β → World → Prop
  | _, .insert key found, w =>
      P.digest found.bytes = key.2 ∧ found.bytes.length ≤ P.capacity ∧
        w.Held key found.bytes found.obtained
  | _, .remove id hashes deleted, w => ∀ hash ∈ hashes, (.volume id hash, deleted) ∈ w.gone
  | _, .answered a, w => w.Legitimate P a ∨
      P.digest a.found.bytes = a.key.2 ∧ w.Read a.key a.began a.found
  | _, _, _ => True

/-- What an action may be given, it may be given later. -/
theorem permitted_stable {β : Type} {a : Action β} (h : Permitted P a w) (hgrows : w.Grows w') :
    Permitted P a w' := by
  cases a with
  | insert key found => exact ⟨h.1, h.2.1, h.2.2.mono hgrows⟩
  | remove id hashes deleted => exact fun hash hhash => hgrows.gone (h hash hhash)
  | answered a => exact h.imp (Legitimate.mono hgrows) (And.imp_right (Read.mono hgrows))
  | _ => trivial

/-- One step of a run: what it does to the cache is genuine, and what it records is of this
moment. -/
structure Next (P : Setup) (w w' : World) : Prop where
  safe : w'.panicked = false
  bounded : w'.cache.Bounded P.capacity
  genuine : ∀ key e, w'.cache.objects key = some e → w'.Genuine P key e
  answers : ∀ a ∈ w'.answers, a ∈ w.answers ∨ w'.Legitimate P a
  grows : w.Grows w'
  now : w'.now = w.now + 1
  held : ∀ source bytes moment, (source, bytes, moment) ∈ w'.held →
    (source, bytes, moment) ∈ w.held ∨ moment = w.now ∧ w'.gone = w.gone ∧
      ∀ deleted, (source, deleted) ∈ w.gone → w'.PutAgain source deleted w.now
  remote : ∀ source deleted, (source, deleted) ∈ w'.gone → w'.remote source ≠ none →
    ∃ put, (source, put) ∈ w'.puts ∧ deleted < put
  puts : ∀ source put, (source, put) ∈ w'.puts → (source, put) ∈ w.puts ∨ put = w.now
  gone : ∀ source deleted, (source, deleted) ∈ w'.gone →
    (source, deleted) ∈ w.gone ∨ deleted = w.now ∧ ∃ id hash, source = .volume id hash
  deletions : ∀ key deleted removed, (key, deleted, removed) ∈ w'.deletions →
    (key, deleted, removed) ∈ w.deletions ∨
      (.volume key.1 key.2, deleted) ∈ w.gone ∧ removed = w.now

/-- What a step changes keeps the invariant. -/
theorem Sound.next (h : w.Sound P) (hnext : w.Next P w') : w'.Sound P where
  safe := hnext.safe
  bounded := hnext.bounded
  genuine := hnext.genuine
  legitimate a ha := by
    rcases hnext.answers a ha with ha | ha
    · exact (h.legitimate a ha).mono hnext.grows
    · exact ha
  heldAgain source bytes moment deleted hheld hgone := by
    rcases hnext.held source bytes moment hheld with hheld | ⟨rfl, hsame, hagain⟩
    · rcases hnext.gone source deleted hgone with hgone | ⟨rfl, -⟩
      · exact (h.heldAgain _ _ _ _ hheld hgone).imp_right (PutAgain.mono hnext.grows)
      · exact .inl (h.heldPast _ _ _ hheld)
    · rw [hsame] at hgone
      exact .inr (hagain deleted hgone)
  heldPast source bytes moment hheld := by
    rw [hnext.now]
    rcases hnext.held source bytes moment hheld with hheld | ⟨rfl, -, -⟩
    · exact (h.heldPast _ _ _ hheld).trans (Nat.lt_succ_self _)
    · exact Nat.lt_succ_self _
  remoteAgain := hnext.remote
  putsPast source put hput := by
    rw [hnext.now]
    rcases hnext.puts source put hput with hput | rfl
    · exact (h.putsPast _ _ hput).trans (Nat.lt_succ_self _)
    · exact Nat.lt_succ_self _
  gonePast source deleted hgone := by
    rw [hnext.now]
    rcases hnext.gone source deleted hgone with hgone | ⟨rfl, -⟩
    · exact (h.gonePast _ _ hgone).trans (Nat.lt_succ_self _)
    · exact Nat.lt_succ_self _
  goneVolume source deleted hgone := by
    rcases hnext.gone source deleted hgone with hgone | ⟨-, hvolume⟩
    · exact h.goneVolume source deleted hgone
    · exact hvolume
  deletions key deleted removed hmem := by
    rw [hnext.now]
    rcases hnext.deletions key deleted removed hmem with hmem | ⟨hgone, rfl⟩
    · obtain ⟨hgone, horder, hlt⟩ := h.deletions key deleted removed hmem
      exact ⟨hnext.grows.gone hgone, horder, hlt.trans (Nat.lt_succ_self _)⟩
    · exact ⟨hnext.grows.gone hgone, h.gonePast _ _ hgone, Nat.lt_succ_self _⟩

/-- A step of which the cache, the deletions and the answers know nothing. -/
structure Outside (w w' : World) : Prop where
  cache : w'.cache = w.cache
  panicked : w'.panicked = w.panicked
  answers : w'.answers = w.answers
  deletions : w'.deletions = w.deletions
  now : w'.now = w.now + 1

/-- A step that leaves the cache alone. -/
theorem Outside.next (h : w.Outside w') (hsound : w.Sound P) (hheld : w.held ⊆ w'.held)
    (hputs : w.puts ⊆ w'.puts) (hgone : w.gone ⊆ w'.gone)
    (held : ∀ source bytes moment, (source, bytes, moment) ∈ w'.held →
      (source, bytes, moment) ∈ w.held ∨ moment = w.now ∧ w'.gone = w.gone ∧
        ∀ deleted, (source, deleted) ∈ w.gone → w'.PutAgain source deleted w.now)
    (remote : ∀ source deleted, (source, deleted) ∈ w'.gone → w'.remote source ≠ none →
      ∃ put, (source, put) ∈ w'.puts ∧ deleted < put)
    (puts : ∀ source put, (source, put) ∈ w'.puts → (source, put) ∈ w.puts ∨ put = w.now)
    (gone : ∀ source deleted, (source, deleted) ∈ w'.gone →
      (source, deleted) ∈ w.gone ∨ deleted = w.now ∧ ∃ id hash, source = .volume id hash) :
    w.Next P w' := by
  have hgrows : w.Grows w' := by
    refine ⟨by rw [h.now]; exact Nat.le_succ _, hheld, hputs, hgone, ?_, ?_⟩
    · rw [h.deletions]
      exact List.Subset.refl _
    · rw [h.deletions]
      exact fun _ _ _ hmem => .inl hmem
  refine ⟨h.panicked.trans hsound.safe, h.cache ▸ hsound.bounded, ?_, ?_, hgrows, h.now, held,
    remote, puts, gone, ?_⟩
  · intro key e he
    rw [h.cache] at he
    exact (hsound.genuine key e he).mono hgrows fun _ _ hmem => h.deletions ▸ hmem
  · intro a ha
    rw [h.answers] at ha
    exact .inl ha
  · intro key deleted removed hmem
    rw [h.deletions] at hmem
    exact .inl hmem

/-- A step that takes time only, as far as the records go. -/
theorem Outside.quiet (h : w.Outside w') (hsound : w.Sound P) (hheld : w'.held = w.held)
    (hputs : w'.puts = w.puts) (hgone : w'.gone = w.gone)
    (hremote : ∀ source, w'.remote source ≠ none → w.remote source ≠ none) : w.Next P w' := by
  refine h.next hsound ?_ ?_ ?_ ?_ ?_ ?_ ?_
  · rw [hheld]
    exact List.Subset.refl _
  · rw [hputs]
    exact List.Subset.refl _
  · rw [hgone]
    exact List.Subset.refl _
  · rw [hheld]
    exact fun _ _ _ hmem => .inl hmem
  · rw [hgone, hputs]
    exact fun source deleted hmem hsome =>
      hsound.remoteAgain source deleted hmem (hremote source hsome)
  · rw [hputs]
    exact fun _ _ hmem => .inl hmem
  · rw [hgone]
    exact fun _ _ hmem => .inl hmem

theorem Sound.tick_next (h : w.Sound P) : w.Next P w.tick :=
  Outside.quiet ⟨rfl, rfl, rfl, rfl, rfl⟩ h rfl rfl rfl fun _ hsome => hsome

/-- Bytes are read that are not of a deleted object, unless it was put again. -/
theorem Sound.hold_next (h : w.Sound P) {source : Source} {bytes : Bytes}
    (hagain : ∀ deleted, (source, deleted) ∈ w.gone →
      ∃ put, (source, put) ∈ w.puts ∧ deleted < put) :
    w.Next P (w.hold source bytes).tick := by
  refine Outside.next ⟨rfl, rfl, rfl, rfl, rfl⟩ h (List.subset_cons_self _ _)
    (List.Subset.refl _) (List.Subset.refl _) ?_ h.remoteAgain (fun _ _ hmem => .inl hmem)
    (fun _ _ hmem => .inl hmem)
  intro other held moment hmem
  rcases List.mem_cons.mp hmem with heq | hmem
  · obtain ⟨rfl, rfl, rfl⟩ := heq
    refine .inr ⟨rfl, rfl, fun deleted hgone => ?_⟩
    obtain ⟨put, hput, hlt⟩ := hagain deleted hgone
    exact ⟨put, hput, hlt, (h.putsPast _ _ hput).le⟩
  · exact .inl hmem

theorem Sound.put_remote (h : w.Sound P) (source : Source) (bytes : Bytes) :
    ∀ other deleted, (other, deleted) ∈ w.gone → (w.put source bytes).remote other ≠ none →
      ∃ put, (other, put) ∈ (w.put source bytes).puts ∧ deleted < put := by
  intro other deleted hgone hsome
  by_cases heq : other = source
  · subst heq
    exact ⟨w.now, List.mem_cons_self, h.gonePast _ _ hgone⟩
  · change Function.update w.remote source (some bytes) other ≠ none at hsome
    rw [Function.update_of_ne heq] at hsome
    obtain ⟨put, hput, hlt⟩ := h.remoteAgain other deleted hgone hsome
    exact ⟨put, List.mem_cons_of_mem _ hput, hlt⟩

theorem put_puts (source : Source) (bytes : Bytes) :
    ∀ other put, (other, put) ∈ (w.put source bytes).puts →
      (other, put) ∈ w.puts ∨ put = w.now := by
  intro other put hmem
  rcases List.mem_cons.mp hmem with heq | hmem
  · obtain ⟨rfl, rfl⟩ := heq
    exact .inr rfl
  · exact .inl hmem

/-- Somebody puts an object. -/
theorem Sound.put_next (h : w.Sound P) (source : Source) (bytes : Bytes) :
    w.Next P (w.put source bytes).tick :=
  Outside.next ⟨rfl, rfl, rfl, rfl, rfl⟩ h (List.Subset.refl _) (List.subset_cons_self _ _)
    (List.Subset.refl _) (fun _ _ _ hmem => .inl hmem) (h.put_remote source bytes)
    (put_puts source bytes) (fun _ _ hmem => .inl hmem)

/-- This store puts an object. -/
theorem Sound.put_hold_next (h : w.Sound P) (source : Source) (bytes : Bytes) :
    w.Next P ((w.put source bytes).hold source bytes).tick := by
  refine Outside.next ⟨rfl, rfl, rfl, rfl, rfl⟩ h (List.subset_cons_self _ _)
    (List.subset_cons_self _ _) (List.Subset.refl _) ?_ (h.put_remote source bytes)
    (put_puts source bytes) (fun _ _ hmem => .inl hmem)
  intro other held moment hmem
  rcases List.mem_cons.mp hmem with heq | hmem
  · obtain ⟨rfl, rfl, rfl⟩ := heq
    exact .inr ⟨rfl, rfl, fun deleted hgone =>
      ⟨w.now, List.mem_cons_self, h.gonePast _ _ hgone, le_refl _⟩⟩
  · exact .inl hmem

/-- This store deletes objects. -/
theorem Sound.erase_next (h : w.Sound P) (id : String) (hashes : List String) :
    w.Next P (w.erase id hashes).tick := by
  have hgone : ∀ source deleted, (source, deleted) ∈ (w.erase id hashes).gone →
      (source, deleted) ∈ w.gone ∨ (deleted = w.now ∧ ∃ id hash, source = .volume id hash) ∧
        named id hashes source = true := by
    intro source deleted hmem
    rcases List.mem_append.mp hmem with hmem | hmem
    · obtain ⟨hash, hhash, heq⟩ := List.mem_map.mp hmem
      obtain ⟨rfl, rfl⟩ := heq
      exact .inr ⟨⟨rfl, id, hash, rfl⟩, decide_eq_true ⟨rfl, hhash⟩⟩
    · exact .inl hmem
  refine Outside.next ⟨rfl, rfl, rfl, rfl, rfl⟩ h (List.Subset.refl _) (List.Subset.refl _)
    (List.subset_append_right _ _) (fun _ _ _ hmem => .inl hmem) ?_ (fun _ _ hmem => .inl hmem)
    (fun source deleted hmem => (hgone source deleted hmem).imp_right And.left)
  intro source deleted hmem hsome
  change (if named id hashes source then none else w.remote source) ≠ none at hsome
  rcases hgone source deleted hmem with hmem | ⟨-, hnamed⟩
  · split at hsome
    · exact absurd rfl hsome
    · exact h.remoteAgain source deleted hmem hsome
  · rw [if_pos hnamed] at hsome
    exact absurd rfl hsome

/-- A step of which the inner store knows nothing. -/
structure Inside (w w' : World) : Prop where
  remote : w'.remote = w.remote
  held : w'.held = w.held
  puts : w'.puts = w.puts
  gone : w'.gone = w.gone
  now : w'.now = w.now + 1
  deletions : ∀ key deleted removed, (key, deleted, removed) ∈ w'.deletions →
    (key, deleted, removed) ∈ w.deletions ∨
      (.volume key.1 key.2, deleted) ∈ w.gone ∧ removed = w.now
  kept : w.deletions ⊆ w'.deletions

theorem Inside.grows (h : w.Inside w') : w.Grows w' where
  now := by rw [h.now]; exact Nat.le_succ _
  held := by rw [h.held]; exact List.Subset.refl _
  puts := by rw [h.puts]; exact List.Subset.refl _
  gone := by rw [h.gone]; exact List.Subset.refl _
  deletions := h.kept
  later key deleted removed hmem :=
    (h.deletions key deleted removed hmem).imp_right fun hnew => hnew.2.symm.le

/-- A step that leaves the inner store alone. -/
theorem Inside.next (h : w.Inside w') (hsound : w.Sound P) (safe : w'.panicked = false)
    (bounded : w'.cache.Bounded P.capacity)
    (genuine : ∀ key e, w'.cache.objects key = some e → w'.Genuine P key e)
    (answers : ∀ a ∈ w'.answers, a ∈ w.answers ∨ w'.Legitimate P a) : w.Next P w' where
  safe := safe
  bounded := bounded
  genuine := genuine
  answers := answers
  grows := h.grows
  now := h.now
  held source bytes moment hmem := .inl (h.held ▸ hmem)
  remote source deleted hmem hsome := by
    rw [h.puts]
    rw [h.remote] at hsome
    exact hsound.remoteAgain source deleted (h.gone ▸ hmem) hsome
  puts source put hmem := .inl (h.puts ▸ hmem)
  gone source deleted hmem := .inl (h.gone ▸ hmem)
  deletions := h.deletions

theorem inside_locked (w : World) (s : State) : w.Inside { w with cache := s }.tick :=
  ⟨rfl, rfl, rfl, rfl, rfl, fun _ _ _ hmem => .inl hmem, List.Subset.refl _⟩

/-- A section under the mutex whose entries are genuine if they are new. -/
theorem Sound.locked_next (h : w.Sound P) {s : State} (hbounded : s.Bounded P.capacity)
    (hgenuine : ∀ key e, s.objects key = some e → w.cache.objects key = some e ∨
      { w with cache := s }.tick.Genuine P key e) : w.Next P { w with cache := s }.tick := by
  refine (inside_locked w s).next h h.safe hbounded ?_ fun a ha => .inl ha
  intro key e he
  rcases hgenuine key e he with hold | hnew
  · exact (h.genuine key e hold).mono (inside_locked w s).grows fun _ _ hmem => hmem
  · exact hnew

/-- Verified bytes are inserted. -/
theorem Sound.insert_next (h : w.Sound P) {found : Found}
    (hallowed : Permitted P (.insert key found) w) :
    w.Next P (w.locked (w.cache.insert P.capacity key
      ⟨found.bytes, found.obtained, w.now⟩)).tick := by
  obtain ⟨hverified, hfits, hheld⟩ := hallowed
  obtain ⟨s, hs, hbounded, hobjects⟩ := State.insert_bounded key
    ⟨found.bytes, found.obtained, w.now⟩ h.bounded hfits
  rw [hs]
  refine h.locked_next hbounded fun other e he => ?_
  refine (hobjects other e he).imp_right ?_
  rintro ⟨rfl, rfl⟩
  refine ⟨hverified, hheld, Nat.lt_succ_self _, fun deleted removed hmem => ⟨?_, ?_⟩⟩
  · exact (h.deletions _ _ _ hmem).2.2
  · exact h.survives hheld hmem

/-- A deletion takes the cached copies away and is recorded. -/
theorem Sound.remove_next (h : w.Sound P) {id : String} {hashes : List String} {deleted : Moment}
    (hallowed : Permitted P (.remove id hashes deleted) w) :
    w.Next P { w.locked (w.cache.remove id hashes) with
      deletions := hashes.map (fun hash => ((id, hash), deleted, w.now)) ++ w.deletions }.tick := by
  obtain ⟨s, hs, hbounded, hobjects⟩ :=
    State.remove_bounded id hashes h.bounded
  have hmem : ∀ {key d removed}, (key, d, removed) ∈
      hashes.map (fun hash => ((id, hash), deleted, w.now)) ++ w.deletions →
      (key, d, removed) ∈ w.deletions ∨
        (key.1 = id ∧ key.2 ∈ hashes) ∧ d = deleted ∧ removed = w.now := by
    intro key d removed hmem
    rcases List.mem_append.mp hmem with hmem | hmem
    · obtain ⟨hash, hhash, heq⟩ := List.mem_map.mp hmem
      obtain ⟨rfl, rfl, rfl⟩ := heq
      exact .inr ⟨⟨rfl, hhash⟩, rfl, rfl⟩
    · exact .inl hmem
  rw [hs]
  have hinside : w.Inside { w.locked (some s) with
      deletions := hashes.map (fun hash => ((id, hash), deleted, w.now)) ++ w.deletions }.tick := by
    refine ⟨rfl, rfl, rfl, rfl, rfl, fun key d removed hdeleted => ?_,
      List.subset_append_right _ _⟩
    refine (hmem hdeleted).imp_right ?_
    rintro ⟨⟨rfl, hhash⟩, rfl, rfl⟩
    exact ⟨hallowed _ hhash, rfl⟩
  refine hinside.next h h.safe hbounded (fun key e he => ?_) fun a ha => .inl ha
  change s.objects key = some e at he
  rw [hobjects key] at he
  split at he
  · cases he
  · rename_i hnot
    refine (h.genuine key e he).mono hinside.grows fun d removed hdeleted => ?_
    exact (hmem hdeleted).resolve_right fun hnew => hnot hnew.1

/-- The local caches have no deleted objects. -/
theorem Sound.hold_local_next (h : w.Sound P) {source : Source} {bytes : Bytes}
    (hlocal : ∀ id hash, source ≠ .volume id hash) : w.Next P (w.hold source bytes).tick := by
  refine h.hold_next fun deleted hgone => ?_
  obtain ⟨id, hash, hvolume⟩ := h.goneVolume source deleted hgone
  exact absurd hvolume (hlocal id hash)

/-- Every permitted action is a step that keeps the invariant. -/
theorem Sound.act (h : w.Sound P) {β : Type} {a : Action β} {b : β} (hallowed : Permitted P a w)
    (heff : eff P a w b w') : w.Next P w' := by
  cases a with
  | begin =>
    obtain ⟨_, rfl⟩ := heff
    exact h.tick_next
  | lookup key =>
    obtain ⟨_, rfl⟩ := heff
    exact h.tick_next
  | innerChunk id hash =>
    rcases heff with ⟨bytes, hremote, _, rfl⟩ | ⟨e, _, rfl⟩
    · refine h.hold_next fun deleted hgone => h.remoteAgain _ deleted hgone ?_
      rw [hremote]
      exact Option.some_ne_none _
    · exact h.tick_next
  | innerBase image hash offset =>
    rcases heff with ⟨bytes, hremote, _, rfl⟩ | ⟨e, _, rfl⟩
    · refine h.hold_next fun deleted hgone => h.remoteAgain _ deleted hgone ?_
      rw [hremote]
      exact Option.some_ne_none _
    · exact h.tick_next
  | innerPut id hash bytes =>
    rcases heff with ⟨_, rfl⟩ | ⟨e, _, rfl | rfl⟩
    · exact h.put_hold_next _ _
    · exact h.tick_next
    · exact h.put_next _ _
  | innerDelete id hashes =>
    rcases heff with ⟨_, rfl⟩ | ⟨e, remote, _, hremote, rfl⟩
    · exact h.erase_next id hashes
    · refine Outside.quiet ⟨rfl, rfl, rfl, rfl, rfl⟩ h rfl rfl rfl fun source hsome => ?_
      rcases hremote source with hsame | hnone
      · exact hsame ▸ hsome
      · exact absurd hnone hsome
  | insert key found =>
    obtain ⟨_, rfl⟩ := heff
    exact h.insert_next hallowed
  | remove id hashes deleted =>
    obtain rfl := heff
    exact h.remove_next hallowed
  | reserve key =>
    obtain ⟨_, rfl⟩ := heff
    refine h.locked_next (State.reserve_bounded h.bounded) fun other e he => ?_
    rw [State.reserve_objects] at he
    exact .inl he
  | release key =>
    obtain rfl := heff
    exact h.locked_next (State.release_bounded h.bounded) fun other e he => .inl he
  | spawn base id hash =>
    obtain rfl := heff
    exact h.tick_next
  | metadataGet hash =>
    rcases heff with ⟨_, rfl⟩ | ⟨bytes, _, _, _, rfl⟩
    · exact h.tick_next
    · exact h.hold_local_next fun _ _ heq => by cases heq
  | metadataPut hash bytes =>
    obtain rfl := heff
    exact h.tick_next
  | readImage image offset =>
    rcases heff with ⟨_, rfl⟩ | ⟨bytes, _, _, rfl⟩
    · exact h.tick_next
    · exact h.hold_local_next fun _ _ heq => by cases heq
  | localFailed =>
    obtain ⟨_, rfl⟩ := heff
    exact h.tick_next
  | setLocalFailed =>
    obtain rfl := heff
    exact Outside.quiet ⟨rfl, rfl, rfl, rfl, rfl⟩ h rfl rfl rfl fun _ hsome => hsome
  | answered a =>
    obtain rfl := heff
    have hinside : w.Inside { w with answers := a :: w.answers }.tick :=
      ⟨rfl, rfl, rfl, rfl, rfl, fun _ _ _ hmem => .inl hmem, List.Subset.refl _⟩
    refine hinside.next h h.safe h.bounded (fun key e he => ?_) fun a' ha => ?_
    · exact (h.genuine key e he).mono hinside.grows fun _ _ hmem => hmem
    · rcases List.mem_cons.mp ha with rfl | ha
      · refine .inr (Legitimate.mono hinside.grows ?_)
        rcases hallowed with hlegitimate | ⟨hverified, hread⟩
        · exact hlegitimate
        · exact hread.legitimate h hverified
      · exact .inl ha

/-- Nobody else breaks the invariant. -/
theorem Sound.others (h : w.Sound P) (hothers : Others w w') : w.Next P w' := by
  cases hothers with
  | put source bytes => exact h.put_next source bytes
  | delete source =>
    refine Outside.quiet ⟨rfl, rfl, rfl, rfl, rfl⟩ h rfl rfl rfl fun other hsome => ?_
    change Function.update w.remote source none other ≠ none at hsome
    by_cases heq : other = source
    · subst heq
      rw [Function.update_self] at hsome
      exact absurd rfl hsome
    · rwa [Function.update_of_ne heq] at hsome

/-- An empty cache that has answered nothing is sound. -/
theorem sound_start (P : Setup) (remote : Source → Option Bytes) : (start remote).Sound P where
  safe := rfl
  bounded := State.bounded_empty _
  genuine key e he := by cases he
  legitimate a ha := absurd ha List.not_mem_nil
  heldAgain _ _ _ _ hheld := absurd hheld List.not_mem_nil
  heldPast _ _ _ hheld := absurd hheld List.not_mem_nil
  remoteAgain _ _ hgone := absurd hgone List.not_mem_nil
  putsPast _ _ hput := absurd hput List.not_mem_nil
  gonePast _ _ hgone := absurd hgone List.not_mem_nil
  goneVolume _ _ hgone := absurd hgone List.not_mem_nil
  deletions _ _ _ hmem := absurd hmem List.not_mem_nil

end World

/-! ## What the calls keep -/

open World

variable {P : Setup} {w w' : World} {key : Key}

/-- What a call relies on while the others run. -/
def rely (P : Setup) : (store P).Rely where
  inv := World.Sound P
  rel := World.Grows
  allowed := Permitted P
  refl := Grows.refl
  trans := Grows.trans
  stable := permitted_stable
  env h hothers := ⟨h.next (h.others hothers), (h.others hothers).grows⟩
  act h hallowed heff := ⟨h.next (h.act hallowed heff), (h.act hallowed heff).grows⟩

section Calls

variable {α β : Type} {E : Error → World → Prop}

/-- One action of a call: the others have moved before it. -/
theorem performs {a : Action β} {R : β → World → Prop} (ha : Permitted P a w)
    (h : ∀ t b w', w.Grows t → t.Sound P → eff P a t b w' → w.Grows w' → w'.Sound P → R b w') :
    (perform a : Call β).Yields (rely P).contract R E w := by
  refine yields_perform ha ?_
  rintro b w' ⟨t, hgrows, hsound, heff⟩
  have hnext := hsound.act (permitted_stable ha hgrows) heff
  exact h t b w' hgrows hsound heff (hgrows.trans hnext.grows) (hsound.next hnext)

/-- A call of one action yields what the action establishes when it succeeds. -/
theorem attempts {a : Action (Result β)} {R : β → World → Prop} (ha : Permitted P a w)
    (h : ∀ t b w', w.Grows t → t.Sound P → eff P a t (.ok b) w' → w.Grows w' → w'.Sound P →
      R b w') :
    (attempt a : Call β).Yields (rely P).contract R (fun _ _ => True) w := by
  refine yields_attempt ha ?_ fun _ _ _ => trivial
  rintro b w' ⟨t, hgrows, hsound, heff⟩
  have hnext := hsound.act (permitted_stable ha hgrows) heff
  exact h t b w' hgrows hsound heff (hgrows.trans hnext.grows) (hsound.next hnext)

/-- An action of which nothing is needed but that time passes. -/
theorem performs_any {a : Action β} (ha : Permitted P a w) :
    (perform a : Call β).Yields (rely P).contract (fun _ w' => w.Grows w') E w :=
  performs ha fun _ _ _ _ _ _ hgrows _ => hgrows

/-- A hit is legitimate. -/
theorem lookup_yields {began : Moment} (hbegan : began ≤ w.now) :
    (perform (.lookup key) : Call (Option Found)).Yields (rely P).contract (fun r w' =>
      w.Grows w' ∧ ∀ found, r = some found → w'.Legitimate P ⟨key, began, found⟩) E w := by
  refine performs trivial fun t b w' hgrows hsound heff hgrows' hsound' => ⟨hgrows', ?_⟩
  obtain ⟨rfl, rfl⟩ := heff
  intro found hfound
  obtain ⟨e, he, rfl⟩ := Option.map_eq_some_iff.mp hfound
  have hgenuine := hsound'.genuine key e he
  refine ⟨hgenuine.verified, hgenuine.held, hbegan.trans hgrows'.now, ?_⟩
  intro deleted removed hmem _
  obtain ⟨hlt, hsurvives⟩ := hgenuine.younger deleted removed hmem
  rcases hsurvives with hbefore | hagain | hbase
  · exact .inr (.inr ⟨hbefore, e.inserted, rfl, hlt⟩)
  · exact .inl hagain
  · exact .inr (.inl hbase)

/-- Bytes of the inner store were read since the call began. -/
theorem innerChunk_yields {id hash : String} :
    (attempt (.innerChunk id hash) : Call Found).Yields (rely P).contract
      (fun found w' => w.Grows w' ∧ w'.Read (id, hash) w.now found) (fun _ _ => True) w := by
  refine attempts trivial fun t b w' hgrows hsound heff hgrows' _ => ⟨hgrows', ?_⟩
  rcases heff with ⟨bytes, _, hb, rfl⟩ | ⟨e, hb, _⟩
  · obtain rfl := Except.ok.inj hb
    exact ⟨⟨.volume id hash, rfl, List.mem_cons_self⟩, hgrows.now, hgrows'.now⟩
  · cases hb

theorem innerBase_yields {image hash : String} {offset : Option ℕ} :
    (attempt (.innerBase image hash offset) : Call Found).Yields (rely P).contract
      (fun found w' => w.Grows w' ∧ w'.Read (baseKey image hash) w.now found)
      (fun _ _ => True) w := by
  refine attempts trivial fun t b w' hgrows hsound heff hgrows' _ => ⟨hgrows', ?_⟩
  rcases heff with ⟨bytes, _, hb, rfl⟩ | ⟨e, hb, _⟩
  · obtain rfl := Except.ok.inj hb
    exact ⟨⟨.base image hash, rfl, List.mem_cons_self⟩, hgrows.now, hgrows'.now⟩
  · cases hb

/-- So was what a look-up of the metadata gave. -/
theorem metadataGet_yields (image : String) {hash : String} :
    (perform (.metadataGet hash) : Call (Option Found)).Yields (rely P).contract (fun r w' =>
      w.Grows w' ∧ ∀ found, r = some found → w'.Read (baseKey image hash) w.now found) E w := by
  refine performs trivial fun t b w' hgrows hsound heff hgrows' _ => ⟨hgrows', ?_⟩
  rintro found rfl
  rcases heff with ⟨hb, _⟩ | ⟨bytes, _, _, hb, rfl⟩
  · cases hb
  · obtain rfl := Option.some.inj hb
    exact ⟨⟨.metadata hash, ⟨image, rfl⟩, List.mem_cons_self⟩, hgrows.now, hgrows'.now⟩

theorem readImage_yields {image : String} (hash : String) {offset : ℕ} :
    (perform (.readImage image offset) : Call (Option Found)).Yields (rely P).contract
      (fun r w' => w.Grows w' ∧
        ∀ found, r = some found → w'.Read (baseKey image hash) w.now found) E w := by
  refine performs trivial fun t b w' hgrows hsound heff hgrows' _ => ⟨hgrows', ?_⟩
  rintro found rfl
  rcases heff with ⟨hb, _⟩ | ⟨bytes, _, hb, rfl⟩
  · cases hb
  · obtain rfl := Option.some.inj hb
    exact ⟨⟨.localImage image, ⟨hash, rfl⟩, List.mem_cons_self⟩, hgrows.now, hgrows'.now⟩

/-- What is inserted has been verified. -/
theorem insert_yields {found : Found} (hheld : w.Held key found.bytes found.obtained) :
    (insert P key found).Yields (rely P).contract (fun _ w' => w.Grows w' ∧
      P.digest found.bytes = key.2) (fun _ _ => True) w := by
  refine yields_ite (fun _ => yields_throw trivial) fun hchecked => ?_
  have hverified : P.digest found.bytes = key.2 :=
    not_ne_iff.mp fun hne => hchecked (.inr (.inr hne))
  refine yields_ite (fun _ => yields_pure ⟨Grows.refl w, hverified⟩) fun hfits => ?_
  exact attempts ⟨hverified, not_lt.mp hfits, hheld⟩
    fun _ _ _ _ _ _ hgrows _ => ⟨hgrows, hverified⟩

/-- A call returns what may be answered. -/
def Returning (P : Setup) (key : Key) (began : Moment) (p : Call Found) (w : World) : Prop :=
  p.Yields (rely P).contract (fun found w' => Permitted P (.answered ⟨key, began, found⟩) w')
    (fun _ _ => True) w

/-- Bytes that were read are returned after they have been inserted. -/
theorem insert_returning {began : Moment} {found : Found} (h : w.Read key began found) :
    Returning P key began (do insert P key found; return found) w :=
  yields_bind (insert_yields h.held) fun _ _ hinserted =>
    yields_pure (.inr ⟨hinserted.2, h.mono hinserted.1⟩)

/-- `chunk` returns bytes that were in the store after it began, or that the cache held. -/
theorem chunk_returning {id hash : String} {began : Moment} (hbegan : began ≤ w.now) :
    Returning P (id, hash) began (chunk P id hash) w := by
  refine yields_bind (lookup_yields hbegan) ?_
  rintro (_ | found) t ⟨ht, hhit⟩
  · refine yields_bind innerChunk_yields ?_
    rintro found u ⟨hu, hread⟩
    exact insert_returning (hread.earlier (hbegan.trans ht.now))
  · exact yields_pure (.inl (hhit found rfl))

/-- Bytes that the metadata object gave were in the object. -/
theorem metadataHit_yields (image : String) {hash : String} {offset : Option ℕ} {began : Moment}
    (hbegan : began ≤ w.now) :
    (metadataHit P hash offset).Yields (rely P).contract (fun r w' => w.Grows w' ∧
      ∀ found, r = some found → w'.Read (baseKey image hash) began found) E w := by
  refine yields_ite (fun _ => ?_) fun _ => ?_
  · refine (metadataGet_yields image).mono ?_ fun _ _ hE => hE
    rintro r w' ⟨hgrows, hread⟩
    exact ⟨hgrows, fun found hfound => (hread found hfound).earlier hbegan⟩
  · exact yields_pure ⟨Grows.refl w, fun _ hfound => nomatch hfound⟩

/-- Bytes of a local image have the digest asked for. -/
theorem localHit_yields {image hash : String} {offset : Option ℕ} {began : Moment}
    (hbegan : began ≤ w.now) :
    (localHit P image hash offset).Yields (rely P).contract (fun r w' => w.Grows w' ∧
      ∀ found, r = some found → P.digest found.bytes = hash ∧
        w'.Read (baseKey image hash) began found) E w := by
  have hmiss : ∀ {u : World}, w.Grows u → w.Grows u ∧ ∀ found : Found, none = some found →
      P.digest found.bytes = hash ∧ u.Read (baseKey image hash) began found :=
    fun hu => ⟨hu, fun _ hfound => nomatch hfound⟩
  cases offset with
  | none => exact yields_pure (hmiss (Grows.refl w))
  | some offset =>
    refine yields_ite (fun _ => ?_) fun _ => yields_pure (hmiss (Grows.refl w))
    refine yields_bind (performs_any trivial) fun failed t ht =>
      yields_ite (fun _ => ?_) fun _ => ?_
    · exact yields_pure (hmiss ht)
    refine yields_bind (readImage_yields hash) ?_
    rintro (_ | found) u ⟨hu, hread⟩
    · exact yields_bind (performs_any trivial) fun _ v hv =>
        yields_pure (hmiss ((ht.trans hu).trans hv))
    · refine yields_ite (fun hverified => ?_) fun _ => ?_
      · refine yields_pure ⟨ht.trans hu, ?_⟩
        rintro _ ⟨⟩
        exact ⟨hverified, (hread found rfl).earlier (hbegan.trans ht.now)⟩
      · exact yields_bind (performs_any trivial) fun _ v hv =>
          yields_pure (hmiss ((ht.trans hu).trans hv))

/-- What a miss fetches was read since the call began. -/
theorem fetchBase_returning {image hash : String} {offset : Option ℕ} {began : Moment}
    (hbegan : began ≤ w.now) :
    Returning P (baseKey image hash) began (fetchBase P image hash offset) w := by
  refine yields_bind innerBase_yields ?_
  rintro found t ⟨ht, hread⟩
  refine yields_bind (Q := fun _ u => t.Grows u) ?_ fun _ u hu => ?_
  · cases hcached : decide (offset = none ∧ P.metadata = true) with
    | true => exact performs_any trivial
    | false => exact yields_pure (Grows.refl t)
  · exact insert_returning ((hread.earlier hbegan).mono hu)

/-- `base_chunk` returns a legitimate block, whichever path it takes. -/
theorem baseChunk_returning {image hash : String} {offset : Option ℕ} {began : Moment}
    (hbegan : began ≤ w.now) :
    Returning P (baseKey image hash) began (baseChunk P image hash offset) w := by
  refine yields_bind (lookup_yields hbegan) ?_
  rintro (_ | found) t ⟨ht, hhit⟩
  · have hbegan := hbegan.trans ht.now
    refine yields_bind (metadataHit_yields image hbegan) ?_
    rintro (_ | found) u ⟨hu, hread⟩
    · have hbegan := hbegan.trans hu.now
      refine yields_bind (localHit_yields hbegan) ?_
      rintro (_ | found) v ⟨hv, hlocal⟩
      · exact fetchBase_returning (hbegan.trans hv.now)
      · exact yields_pure (.inr (hlocal found rfl))
    · exact insert_returning (hread found rfl)
  · exact yields_pure (.inl (hhit found rfl))

/-- A cached chunk is a legitimate one. -/
theorem cachedChunk_returning {id hash : String} {began : Moment} (hbegan : began ≤ w.now) :
    Returning P (id, hash) began (cachedChunk id hash) w := by
  refine yields_bind (lookup_yields hbegan) ?_
  rintro (_ | found) t ⟨ht, hhit⟩
  · exact yields_throw trivial
  · exact yields_pure (.inl (hhit found rfl))

/-- A call is safe in a pool. -/
def Keeping (P : Setup) (p : Call α) (w : World) : Prop :=
  p.Yields (rely P).contract (fun _ _ => True) (fun _ _ => True) w

/-- A call that keeps the invariant does only what it may. -/
theorem Keeping.safe {p : Call α} (h : Keeping P p w) : (rely P).Safe (toProg p) w := by
  refine Prog.keeps_bind.mpr (Prog.Keeps.mono h ?_)
  rintro (e | a) w' _
  · trivial
  · trivial

/-- A legitimate result may be recorded as the answer. -/
theorem answering_keeping {p : Call Found}
    (h : ∀ {began w}, began ≤ w.now → Returning P key began p w) :
    Keeping P (answering key p) w := by
  refine yields_bind (Q := fun began t => began ≤ t.now) ?_ fun began t ht => ?_
  · refine performs trivial fun t b w' _ _ heff _ _ => ?_
    obtain ⟨rfl, rfl⟩ := heff
    exact Nat.le_succ _
  · exact yields_bind (h ht) fun found u hfound =>
      performs hfound fun _ _ _ _ _ _ _ _ => trivial

/-- `put_chunk` writes the store first and inserts what it has written. -/
theorem putChunk_keeping {id hash : String} {bytes : Bytes} :
    Keeping P (putChunk P id hash bytes) w := by
  refine yields_bind (Q := fun found t => t.Held (id, hash) found.bytes found.obtained) ?_ ?_
  · refine attempts trivial fun t b w' hgrows hsound heff _ _ => ?_
    rcases heff with ⟨hb, rfl⟩ | ⟨e, hb, _⟩
    · obtain rfl := Except.ok.inj hb
      exact ⟨.volume id hash, rfl, List.mem_cons_self⟩
    · cases hb
  · exact fun found t hheld => (insert_yields hheld).mono (fun _ _ _ => trivial) fun _ _ h => h

/-- `delete_chunks` deletes in the store and removes from the cache. -/
theorem deleteChunks_keeping {id : String} {hashes : List String} :
    Keeping P (deleteChunks id hashes) w := by
  refine yields_bind (Q := fun deleted t => Permitted P (.remove id hashes deleted) t)
    ?_ fun deleted t hgone => performs hgone fun _ _ _ _ _ _ _ _ => trivial
  refine attempts trivial fun t b w' hgrows hsound heff _ _ hash hhash => ?_
  rcases heff with ⟨hb, rfl⟩ | ⟨e, remote, hb, _⟩
  · obtain rfl := Except.ok.inj hb
    exact List.mem_append_left _ (List.mem_map.mpr ⟨hash, hhash, rfl⟩)
  · cases hb

/-- Reading ahead inserts verified bytes only. -/
theorem readAhead_keeping {base : Bool} {id hash : String} :
    Keeping P (readAhead P base id hash) w := by
  have hfetch : (if base then attempt (.innerBase id hash none)
      else attempt (.innerChunk id hash) : Call Found).Yields (rely P).contract
      (fun found w' => w'.Held (aheadKey base id hash) found.bytes found.obtained)
      (fun _ _ => True) w := by
    cases base with
    | true => exact innerBase_yields.mono (fun _ _ h => h.2.held) fun _ _ h => h
    | false => exact innerChunk_yields.mono (fun _ _ h => h.2.held) fun _ _ h => h
  refine yields_bind (yields_outcome hfetch) ?_
  rintro (e | found) t ht
  · exact performs trivial fun _ _ _ _ _ _ _ _ => trivial
  · refine yields_bind (yields_outcome (insert_yields ht)) fun _ u _ => ?_
    exact performs trivial fun _ _ _ _ _ _ _ _ => trivial

/-- So does a prefetch of chunks. -/
theorem prefetchObjects_keeping {id : String} {base : Bool} {hashes : List String} :
    Keeping P (prefetchObjects id base hashes) w := by
  induction hashes generalizing w with
  | nil => exact yields_pure trivial
  | cons hash hashes ih =>
    refine yields_bind (performs_any trivial) fun room t _ => ?_
    cases room with
    | full => exact yields_pure trivial
    | known => exact ih
    | reserved =>
      refine yields_bind (performs_any trivial) fun spawned u _ =>
        yields_ite (fun _ => ih) fun _ => ?_
      exact yields_bind (performs_any trivial) fun _ v _ => ih

/-- And one of blocks. -/
theorem prefetchBase_keeping {image : String} {hashes : List String} :
    Keeping P (prefetchBase P image hashes) w := by
  refine yields_ite (fun _ => ?_) fun _ => prefetchObjects_keeping
  refine yields_bind (performs_any trivial) fun failed t _ => ?_
  exact yields_ite (fun _ => prefetchObjects_keeping) fun _ => yields_pure trivial

/-- Every call of the store keeps the invariant. -/
theorem begins_safe {p : Prog Action Unit} (h : Begins P p) : (rely P).Safe p w := by
  cases h with
  | chunk id hash => exact (answering_keeping chunk_returning).safe
  | base image hash offset => exact (answering_keeping baseChunk_returning).safe
  | cached id hash => exact (answering_keeping cachedChunk_returning).safe
  | put id hash bytes => exact putChunk_keeping.safe
  | delete id hashes => exact deleteChunks_keeping.safe
  | prefetch id hashes => exact prefetchObjects_keeping.safe
  | prefetchBase image hashes => exact prefetchBase_keeping.safe

/-- And so does every thread that it starts. -/
theorem starts_safe {a : Action β} {b : β} {p : Prog Action Unit} (h : p ∈ starts P a b) :
    (rely P).Safe p w := by
  cases a with
  | spawn base id hash =>
    change p ∈ (if b = true then [toProg (readAhead P base id hash)] else []) at h
    split at h
    · obtain rfl := List.mem_singleton.mp h
      exact readAhead_keeping.safe
    · exact absurd h List.not_mem_nil
  | _ => exact absurd h List.not_mem_nil

end Calls

/-- The invariant holds in every state of every run. -/
theorem reaches_sound {remote : Source → Option Bytes}
    (h : (store P).Reaches (World.start remote) w) : w.Sound P :=
  h.invariant (R := rely P) (sound_start P remote) (fun _ hbegins => begins_safe hbegins)
    fun _ _ _ _ hp => starts_safe hp

/-- In every state of every run the cache is bounded and no `unwrap` has failed, every result is
verified and comes from a source of its key, and an object that was deleted is returned only if it
was put again, or inserted after the deletion by a call that had read it before. -/
theorem cache_bounded_and_transparent {remote : Source → Option Bytes}
    (h : (store P).Reaches (World.start remote) w) :
    w.panicked = false ∧ w.cache.Bounded P.capacity ∧ (∀ a ∈ w.answers, w.Legitimate P a) ∧
      ∀ key e, w.cache.objects key = some e → w.Genuine P key e := by
  have hsound := reaches_sound h
  exact ⟨hsound.safe, hsound.bounded, hsound.legitimate, hsound.genuine⟩

/-! ## A fetch in flight across a deletion -/

section Runs

variable {P : Setup} {w : World} {id : String} {s : State} {bytes newer : Bytes}

/-- Verified bytes of the right length may be inserted. -/
theorem insert_may {key : Key} {found : Found}
    (hdigest : P.digest found.bytes = key.2) (hlength : found.bytes.length = chunkBytes)
    (h : w.cache.insert P.capacity key ⟨found.bytes, found.obtained, w.now⟩ = some s) :
    (insert P key found).May (store P).alone
      (fun r w' => r = .ok () ∧ w' = { w with cache := s }.tick) w := by
  have hchecks : ¬ (¬ (chunkBytes ≤ found.bytes.length ∧ found.bytes.length ≤ maxObjectBytes) ∨
      found.bytes.length % chunkBytes ≠ 0 ∨ P.digest found.bytes ≠ key.2) := by
    simp [hlength, hdigest, chunkBytes, maxObjectBytes]
  have hsmall : ¬ found.bytes.length > P.capacity := by
    rw [hlength]
    exact not_lt.mpr P.accepted.1
  rw [insert, if_neg hchecks, if_neg hsmall]
  refine may_attempt ⟨rfl, rfl⟩ ⟨rfl, ?_⟩
  rw [h]
  rfl

/-- One chunk may be written without a step of anybody else. -/
theorem putChunk_may {bytes : Bytes} (hlength : bytes.length = chunkBytes)
    (h : w.cache.insert P.capacity (id, P.digest bytes) ⟨bytes, w.now, w.now + 1⟩ = some s) :
    (toProg (putChunk P id (P.digest bytes) bytes)).May (store P).alone (fun _ w' =>
      w' = { ((w.put (.volume id (P.digest bytes)) bytes).hold
        (.volume id (P.digest bytes)) bytes).tick with cache := s }.tick) w := by
  refine Prog.may_bind.mpr ?_
  refine may_bind (may_attempt (.inl ⟨rfl, rfl⟩) ⟨_, rfl, ?_⟩)
  exact Prog.May.mono (insert_may rfl hlength h) fun r w' hr => hr.2

/-- The end of `chunk` after the inner store has answered. -/
theorem inserted_may {key : Key} {found : Found} {began : Moment}
    (hdigest : P.digest found.bytes = key.2) (hlength : found.bytes.length = chunkBytes)
    (h : w.cache.insert P.capacity key ⟨found.bytes, found.obtained, w.now⟩ = some s) :
    (toProg (do
      let found ← (do insert P key found; return found)
      perform (.answered ⟨key, began, found⟩))).May (store P).alone (fun _ w' =>
      w' = { { w with cache := s }.tick with
        answers := ⟨key, began, found⟩ :: w.answers }.tick) w := by
  refine Prog.may_bind.mpr (may_bind (may_bind (Prog.May.mono (insert_may hdigest hlength h) ?_)))
  rintro _ _ ⟨rfl, rfl⟩
  exact ⟨_, rfl, may_pure ⟨_, rfl, may_perform (b := ()) rfl rfl⟩⟩

/-- Chunks may be deleted in the same way. -/
theorem deleteChunks_may {hashes : List String} (h : w.cache.remove id hashes = some s) :
    (toProg (deleteChunks id hashes)).May (store P).alone (fun _ w' =>
      w' = { (w.erase id hashes).tick with
        cache := s
        deletions := hashes.map (fun hash => ((id, hash), w.now, w.now + 1)) ++ w.deletions }.tick)
      w := by
  refine Prog.may_bind.mpr ?_
  refine may_bind (may_attempt (.inl ⟨rfl, rfl⟩) ⟨_, rfl, ?_⟩)
  refine may_perform (b := ()) rfl ?_
  change { (w.erase id hashes).tick.locked (w.cache.remove id hashes) with deletions := _ }.tick = _
  rw [h]
  rfl

/-- A chunk may be answered from the cache. -/
theorem cachedChunk_may {hash : String} {e : Entry} (h : w.cache.objects (id, hash) = some e) :
    (toProg (answering (id, hash) (cachedChunk id hash))).May (store P).alone (fun _ w' =>
      w' = { w.tick.tick with answers :=
        ⟨(id, hash), w.now, ⟨e.bytes, e.obtained, some e.inserted⟩⟩ :: w.answers }.tick) w := by
  have hlookup : some ⟨e.bytes, e.obtained, some e.inserted⟩ = (w.cache.objects (id, hash)).map
      fun e => (⟨e.bytes, e.obtained, some e.inserted⟩ : Found) := by
    rw [h]
    rfl
  refine Prog.may_bind.mpr ?_
  refine may_bind (may_perform ⟨rfl, rfl⟩ ⟨_, rfl, ?_⟩)
  refine may_bind (p := cachedChunk id hash) (may_bind (may_perform ⟨hlookup, rfl⟩ ⟨_, rfl, ?_⟩))
  exact may_pure ⟨_, rfl, may_perform (b := ()) rfl rfl⟩

/-- An object was put and then evicted by a newer one, which has been returned. -/
structure Replaced (P : Setup) (id : String) (bytes newer : Bytes) (w : World) : Prop where
  now : w.now = 7
  cache : w.cache = State.empty.append (id, P.digest newer) ⟨newer, 2, 3⟩
  remote : w.remote (.volume id (P.digest bytes)) = some bytes
  puts : w.puts = [(.volume id (P.digest newer), 2), (.volume id (P.digest bytes), 0)]
  deletions : w.deletions = []
  answers : w.answers = [⟨(id, P.digest newer), 4, ⟨newer, 2, some 3⟩⟩]

/-- The evicted object was being fetched again when both were deleted. The fetch has cached it once
more, and it has been returned, though nothing was put after the deletion. -/
structure Returned (P : Setup) (id : String) (bytes newer : Bytes) (w : World) : Prop where
  cache : w.cache = State.empty.append (id, P.digest bytes) ⟨bytes, 9, 12⟩
  puts : w.puts = [(.volume id (P.digest newer), 2), (.volume id (P.digest bytes), 0)]
  deletions : w.deletions = [((id, P.digest bytes), 10, 11), ((id, P.digest newer), 10, 11)]
  answers : w.answers = [⟨(id, P.digest bytes), 14, ⟨bytes, 9, some 12⟩⟩,
    ⟨(id, P.digest bytes), 7, ⟨bytes, 9, none⟩⟩, ⟨(id, P.digest newer), 4, ⟨newer, 2, some 3⟩⟩]

/-- A run in which a second put evicts the first object. -/
theorem replaced_runs (hbytes : bytes.length = chunkBytes) (hnewer : newer.length = chunkBytes)
    (hne : P.digest bytes ≠ P.digest newer) (hfull : bytes.length + newer.length > P.capacity)
    (id : String) (remote : Source → Option Bytes) :
    ∃ w, Replaced P id bytes newer w ∧ (store P).Reaches (World.start remote) w := by
  have hkey : ((id, P.digest newer) : Key) ≠ (id, P.digest bytes) :=
    fun h => hne (congrArg Prod.snd h).symm
  have hsource : Source.volume id (P.digest bytes) ≠ .volume id (P.digest newer) :=
    fun h => hne (Source.volume.inj h).2
  obtain ⟨_, rfl, hreaches⟩ := (Pool.Reaches.refl (store P) (World.start remote)).runs
    (.put id (P.digest bytes) bytes)
    (putChunk_may hbytes (State.insert_empty (hbytes.trans_le P.accepted.1)))
  obtain ⟨_, rfl, hreaches⟩ := Pool.Reaches.runs hreaches (.put id (P.digest newer) newer)
    (putChunk_may hnewer (State.insert_evicts hkey (hnewer.trans_le P.accepted.1) hfull))
  obtain ⟨w, hw, hreaches⟩ := Pool.Reaches.runs hreaches (.cached id (P.digest newer))
    (cachedChunk_may (Function.update_self _ _ _))
  refine ⟨w, ?_, hreaches⟩
  subst hw
  refine ⟨rfl, rfl, ?_, rfl, rfl, rfl⟩
  exact (Function.update_of_ne hsource _ _).trans (Function.update_self _ _ _)

/-- A run in which an object is fetched, deleted meanwhile and still returned. -/
theorem returned_runs (hbytes : bytes.length = chunkBytes) (hnewer : newer.length = chunkBytes)
    (hne : P.digest bytes ≠ P.digest newer) (hfull : bytes.length + newer.length > P.capacity)
    (id : String) (remote : Source → Option Bytes) :
    ∃ w, Returned P id bytes newer w ∧ (store P).Reaches (World.start remote) w := by
  have hkey : ((id, P.digest bytes) : Key) ≠ (id, P.digest newer) :=
    fun h => hne (congrArg Prod.snd h)
  obtain ⟨w, hw, hreaches⟩ := replaced_runs hbytes hnewer hne hfull id remote
  have hmiss : none = (w.cache.objects (id, P.digest bytes)).map
      fun e => (⟨e.bytes, e.obtained, some e.inserted⟩ : Found) := by
    have hnone : (State.empty.append (id, P.digest newer) ⟨newer, 2, 3⟩).objects
        (id, P.digest bytes) = none := Function.update_of_ne hkey _ _
    rw [hw.cache, hnone]
    rfl
  have hremoved : w.cache.remove id [P.digest bytes, P.digest newer] = some State.empty := by
    rw [hw.cache]
    exact State.remove_only hne
  -- the fetch has the object in hand
  have hfetch := Pool.Pauses.acts (hreaches.begins (.chunk id (P.digest bytes))) _ ⟨rfl, rfl⟩
  have hfetch := Pool.Pauses.acts hfetch _ ⟨hmiss, rfl⟩
  have hfetch := Pool.Pauses.acts hfetch _ (.inl ⟨bytes, hw.remote, rfl, rfl⟩)
  obtain ⟨_, rfl, hfetch⟩ := hfetch.runs (.delete id [P.digest bytes, P.digest newer])
    (deleteChunks_may hremoved)
  obtain ⟨_, rfl, hreaches⟩ := hfetch.ends
    (inserted_may rfl hbytes (State.insert_empty (hbytes.trans_le P.accepted.1)))
  obtain ⟨u, hu, hreaches⟩ := Pool.Reaches.runs hreaches (.cached id (P.digest bytes))
    (cachedChunk_may (Function.update_self _ _ _))
  refine ⟨u, ?_, hreaches⟩
  subst hu
  refine ⟨?_, hw.puts, ?_, ?_⟩
  · change State.empty.append _ ⟨bytes, w.now + 2, w.now + 5⟩ = _
    rw [hw.now]
  · change (_, w.now + 3, w.now + 4) :: (_, w.now + 3, w.now + 4) :: w.deletions = _
    rw [hw.now, hw.deletions]
  · change ⟨_, w.now + 7, ⟨bytes, w.now + 2, some (w.now + 5)⟩⟩ ::
      ⟨_, w.now, ⟨bytes, w.now + 2, none⟩⟩ :: w.answers = _
    rw [hw.now, hw.answers]

end Runs

/-! ## A local base image -/

/-- A digest that tells all byte strings apart. -/
def spell (bytes : Bytes) : String := String.ofList (bytes.map (fun b => Char.ofNat b.toNat))

/-- The digest of the samples separates blocks. -/
theorem spell_injective : Function.Injective spell := by
  intro a b h
  have hlists := String.ofList_injective h
  refine List.map_injective_iff.mpr (fun x y hxy => ?_) hlists
  have hvalid : ∀ z : UInt8, (Char.ofNat z.toNat).toNat = z.toNat := by
    intro z
    have hlt := z.toNat_lt
    have hvalid : z.toNat.isValidChar := .inl (by omega)
    rw [Char.ofNat, dif_pos hvalid]
    rfl
  have hnat : x.toNat = y.toNat := by rw [← hvalid x, ← hvalid y, hxy]
  exact UInt8.toNat_inj.mp hnat

/-- A store with a local file of a base image. -/
def imaged : Setup where
  digest := spell
  capacity := chunkBytes
  accepted := ⟨le_refl _, by decide⟩
  localBase := some "image"
  metadata := false

/-- A block of the local file. -/
def block : Bytes := List.replicate chunkBytes 7

/-- The inner store is empty, and a block of the local image is returned. -/
def Imaged (w : World) : Prop :=
  w.answers = [⟨baseKey "image" (spell block), 0, ⟨block, 3, none⟩⟩] ∧ w.puts = [] ∧
    w.remote = (fun _ => none) ∧ w.held = [(.localImage "image", block, 3)]

/-- A run that reads a block of a local image. -/
theorem imaged_runs : ∃ w, Imaged w ∧ (store imaged).Reaches (World.start fun _ => none) w := by
  let key := baseKey "image" (spell block)
  let p : Call Unit := answering key (baseChunk imaged "image" (spell block) (some 0))
  refine Pool.Reaches.runs (p := toProg p) (Q := fun _ => Imaged) ⟨[], .refl⟩
    (.base "image" (spell block) (some 0)) ?_
  refine Prog.may_bind.mpr ?_
  suffices hmay : p.May (store imaged).alone (fun _ => Imaged) (World.start fun _ => none) from
    Prog.May.mono hmay fun _ _ h => h
  refine may_bind (may_perform ⟨rfl, rfl⟩ ⟨_, rfl, ?_⟩)
  refine may_bind (p := baseChunk imaged "image" (spell block) (some 0)) ?_
  refine may_bind (may_perform ⟨rfl, rfl⟩ ⟨_, rfl, ?_⟩)
  have hmetadata : metadataHit imaged (spell block) (some 0) = pure none :=
    if_neg fun h => nomatch h.1
  refine may_bind (p := metadataHit imaged (spell block) (some 0)) ?_
  rw [hmetadata]
  refine may_pure ⟨_, rfl, ?_⟩
  refine may_bind (p := localHit imaged "image" (spell block) (some 0)) ?_
  have himage : imaged.localBase = some "image" := rfl
  rw [localHit, if_pos himage]
  refine may_bind (may_perform (b := false) ⟨rfl, rfl⟩ ⟨_, rfl, ?_⟩)
  rw [if_neg Bool.false_ne_true]
  refine may_bind (may_perform (b := some ⟨block, 3, none⟩)
    (.inr ⟨block, List.length_replicate, rfl, rfl⟩) ⟨_, rfl, ?_⟩)
  change May _ _ (if spell block = spell block then _ else _) _
  rw [if_pos rfl]
  refine may_pure ⟨_, rfl, may_pure ⟨_, rfl, may_perform (b := ()) rfl ?_⟩⟩
  exact ⟨rfl, rfl, rfl, rfl⟩

/-- Another block, which does not fit into the cache beside the first one. -/
def newer : Bytes := List.replicate chunkBytes 8

theorem newer_ne_block : newer ≠ block := by
  intro h
  have hmem : (8 : UInt8) ∈ block := h ▸ List.mem_replicate.mpr ⟨by decide, rfl⟩
  exact absurd (List.eq_of_mem_replicate hmem) (by decide)

theorem imaged_returned : ∃ w, Returned imaged "volume" block newer w ∧
    (store imaged).Reaches (World.start fun _ => none) w := by
  have hne : imaged.digest block ≠ imaged.digest newer :=
    spell_injective.ne newer_ne_block.symm
  have hblock : block.length = chunkBytes := List.length_replicate
  have hnewer : newer.length = chunkBytes := List.length_replicate
  refine returned_runs hblock hnewer hne ?_ "volume" _
  rw [hblock, hnewer]
  decide

theorem cache_bounded_and_transparent_returned : ∃ w, Returned imaged "volume" block newer w ∧
    w.panicked = false ∧ w.cache.Bounded imaged.capacity ∧
    (∀ a ∈ w.answers, w.Legitimate imaged a) ∧
    ∀ key e, w.cache.objects key = some e → w.Genuine imaged key e := by
  obtain ⟨w, hreturned, hreaches⟩ := imaged_returned
  exact ⟨w, hreturned, cache_bounded_and_transparent hreaches⟩

/-- `base_chunk` returns bytes that the inner store never held: it was empty at the start, and
nothing has been put into it. -/
theorem base_chunk_returns_local_image :
    ∃ w, (store imaged).Reaches (World.start fun _ => none) w ∧ w.puts = [] ∧
      ∃ a ∈ w.answers, a.key = baseKey "image" (spell block) ∧ a.found.bytes = block ∧
        ∀ source bytes moment, (source, bytes, moment) ∈ w.held →
          source = .localImage "image" := by
  obtain ⟨w, ⟨hanswers, hputs, _, hheld⟩, hreaches⟩ := imaged_runs
  refine ⟨w, hreaches, hputs,
    ⟨baseKey "image" (spell block), 0, ⟨block, 3, none⟩⟩, ?_, rfl, rfl, ?_⟩
  · rw [hanswers]
    exact List.mem_cons_self
  · intro source bytes moment hmem
    rw [hheld] at hmem
    obtain ⟨rfl, rfl, rfl⟩ := List.mem_singleton.mp hmem
    rfl

/-- `cached_chunk` returns an object that was deleted before the call began and not put again. -/
theorem cached_chunk_returns_deleted :
    ∃ w, (store imaged).Reaches (World.start fun _ => none) w ∧
      ∃ a ∈ w.answers, a.key = ("volume", spell block) ∧
        ∃ deleted removed, (a.key, deleted, removed) ∈ w.deletions ∧ removed < a.began ∧
          ∀ put, (.volume "volume" (spell block), put) ∈ w.puts → put < deleted := by
  obtain ⟨w, hw, hreaches⟩ := imaged_returned
  refine ⟨w, hreaches, ⟨("volume", spell block), 14, ⟨block, 9, some 12⟩⟩, ?_, rfl, 10, 11, ?_,
    by decide, fun put hput => ?_⟩
  · rw [hw.answers]
    exact List.mem_cons_self
  · rw [hw.deletions]
    exact List.mem_cons_self
  · rw [hw.puts] at hput
    rcases List.mem_cons.mp hput with h | h
    · exact (Prod.mk.inj h).2 ▸ by decide
    · exact (Prod.mk.inj (List.mem_singleton.mp h)).2 ▸ by decide

/-- With a digest that tells all byte strings apart, one run returns bytes that the inner store
never held, and another one an object that was deleted and not put again. -/
theorem objects_returned_unheld_and_deleted : Function.Injective imaged.digest ∧
    (∃ w, (store imaged).Reaches (World.start fun _ => none) w ∧ w.puts = [] ∧
      ∃ a ∈ w.answers, a.key = baseKey "image" (spell block) ∧ a.found.bytes = block ∧
        ∀ source bytes moment, (source, bytes, moment) ∈ w.held →
          source = .localImage "image") ∧
    ∃ w, (store imaged).Reaches (World.start fun _ => none) w ∧
      ∃ a ∈ w.answers, a.key = ("volume", spell block) ∧
        ∃ deleted removed, (a.key, deleted, removed) ∈ w.deletions ∧ removed < a.began ∧
          ∀ put, (.volume "volume" (spell block), put) ∈ w.puts → put < deleted :=
  ⟨spell_injective, base_chunk_returns_local_image, cached_chunk_returns_deleted⟩

end AgentHouse.Cache
