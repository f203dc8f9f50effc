import AgentHouse.Owned.Store
import AgentHouse.Volume.Failing

/-!
# What calls do to a head

A handle knows one version of its volume: a disk map and the revision it was read or published
under. Whatever a call does otherwise, all it can do to the head is to send the next generation of
this version, and that request is dropped, stays on its way or replaces the head it expects.
-/

namespace AgentHouse.Owned

open Volume IndexedVolume

/-- The heads, and the requests on their way to them, are as they were. -/
structure Quiet (B B' : Bucket) : Prop where
  heads : B'.heads = B.heads
  published : B'.published = B.published
  flights : B'.flights = B.flights

/-- What becomes of a request that a client sends, or does not send after all. -/
inductive Sent (P : Platform) (B : Bucket) (q : Request) : Bucket → Prop
  | dropped {B' : Bucket} (h : Quiet B B') : Sent P B q B'
  | flies {Bu : Bucket} (h : Quiet B Bu) : Sent P B q (Bu.send q)
  | lands {Bu : Bucket} (h : Quiet B Bu)
      (hexpected : (B.heads q.space).map Head.revision = q.expected) :
      Sent P B q (Bu.replace P q.space q.manifest)

/-- Two handles know the same version of one volume. -/
structure SameVersion (v v' : IndexedVolume) : Prop where
  store : v'.store = v.store
  root : v'.root = v.root
  revision : v'.revision = v.revision

/-- The next generation of a handle's version, under an identity that is one of the volume. -/
structure Succeeds (v : IndexedVolume) (r : Root) : Prop where
  generation : r.generation = v.root.generation + 1
  volume : r.volume = v.root.volume
  owned : ∀ i, v.store = .owned i → i.volume = r.volume

/-- What a call does to the head of its volume, and to the version that its handle knows. -/
inductive Touches (P : Platform) (B : Bucket) (v : IndexedVolume) : Bucket → IndexedVolume → Prop
  | apart {B' : Bucket} {v' : IndexedVolume} (h : Quiet B B') (hv : SameVersion v v') :
      Touches P B v B' v'
  | sent {B' : Bucket} {v' : IndexedVolume} {r : Root} (hr : Succeeds v r)
      (h : Sent P B (v.request r) B') (hv : SameVersion v v') : Touches P B v B' v'
  | published {Bu : Bucket} {v' : IndexedVolume} {r : Root} (hr : Succeeds v r) (h : Quiet B Bu)
      (hexpected : (B.heads (v.request r).space).map Head.revision = some v.revision)
      (hstore : v'.store = v.store) (hroot : v'.root = r)
      (hrevision : v'.revision = P.tag B.published (v.store.wrap r)) :
      Touches P B v (Bu.replace P (v.request r).space (v.store.wrap r)) v'

section Rules

variable {P : Platform} {B B' B'' : Bucket} {v v' w : IndexedVolume} {r : Root} {q : Request}
  {φ : Faults}

theorem Quiet.refl (B : Bucket) : Quiet B B := ⟨rfl, rfl, rfl⟩

theorem Quiet.trans (h : Quiet B B') (h' : Quiet B' B'') : Quiet B B'' :=
  ⟨h'.heads.trans h.heads, h'.published.trans h.published, h'.flights.trans h.flights⟩

theorem quiet_of_grows {s : Space} {objs : List (Hash × Bytes)} (h : Grows B B' s objs) :
    Quiet B B' :=
  ⟨h.heads, h.published, h.flights⟩

theorem SameVersion.refl (v : IndexedVolume) : SameVersion v v := ⟨rfl, rfl, rfl⟩

theorem SameVersion.trans (h : SameVersion v v') (h' : SameVersion v' w) : SameVersion v w :=
  ⟨h'.store.trans h.store, h'.root.trans h.root, h'.revision.trans h.revision⟩

/-- A request is sent, and its success means that it was the next one. -/
theorem transmit_sent {d : Delivery} {res : Result Revision}
    (h : transmit P B q.space q.expected q.manifest d = (B', res)) :
    Sent P B q B' ∧ ∀ rev, res = .ok rev →
      (B.heads q.space).map Head.revision = q.expected ∧
        B' = B.replace P q.space q.manifest ∧ rev = P.tag B.published q.manifest := by
  rcases transmit_cases h with ⟨rfl, e, rfl⟩ | ⟨-, rfl, rfl⟩ | ⟨hexpected, rfl, hres⟩
  · exact ⟨.dropped (.refl _), nofun⟩
  · exact ⟨.flies (.refl _), nofun⟩
  · refine ⟨.lands (.refl _) hexpected, fun rev hrev => ⟨hexpected, rfl, ?_⟩⟩
    rcases hres with ⟨-, rfl⟩ | ⟨-, rfl⟩
    · exact (Except.ok.inj hrev).symm
    · cases hrev

/-- What is quiet before it does not matter. -/
theorem Sent.of_quiet (h : Quiet B B') (hs : Sent P B' q B'') : Sent P B q B'' := by
  cases hs with
  | dropped h' => exact .dropped (h.trans h')
  | flies h' => exact .flies (h.trans h')
  | lands h' hexpected =>
    rw [h.heads] at hexpected
    exact .lands (h.trans h') hexpected

theorem Touches.of_quiet (h : Quiet B B') (ht : Touches P B' v B'' v') : Touches P B v B'' v' := by
  cases ht with
  | apart h' hv => exact .apart (h.trans h') hv
  | sent hr hs hv => exact .sent hr (hs.of_quiet h) hv
  | published hr h' hexpected hstore hroot hrevision =>
    rw [h.heads] at hexpected
    rw [h.published] at hrevision
    exact .published hr (h.trans h') hexpected hstore hroot hrevision

/-- The dirty map and the poison flag of the handle do not matter. -/
theorem Touches.of_same (ht : Touches P B v B' v') (h : SameVersion v' w) :
    Touches P B v B' w := by
  cases ht with
  | apart h' hv => exact .apart h' (hv.trans h)
  | sent hr hs hv => exact .sent hr hs (hv.trans h)
  | published hr h' hexpected hstore hroot hrevision =>
    exact .published hr h' hexpected (h.store.trans hstore) (h.root.trans hroot)
      (h.revision.trans hrevision)

/-- Dirty chunks do not count. -/
theorem Touches.of_dirty {dirty : BTreeMap ℕ Bytes}
    (ht : Touches P B { v with dirty := dirty } B' v') : Touches P B v B' v' := by
  cases ht with
  | apart h hv => exact .apart h ⟨hv.store, hv.root, hv.revision⟩
  | sent hr hs hv =>
    exact .sent ⟨hr.generation, hr.volume, hr.owned⟩ hs ⟨hv.store, hv.root, hv.revision⟩
  | published hr h hexpected hstore hroot hrevision =>
    exact .published ⟨hr.generation, hr.volume, hr.owned⟩ h hexpected hstore hroot hrevision

/-- A clean copy is of the same version. -/
theorem cleanCopy_same (h : v.cleanCopy = .ok w) : SameVersion v w := by
  unfold cleanCopy at h
  split at h
  · cases h
  · split at h
    · obtain rfl := Except.ok.inj h
      exact ⟨rfl, rfl, rfl⟩
    · cases h

theorem checkedAdd_one {n k : ℕ} (h : checkedAdd n 1 = some k) : k = n + 1 := by
  unfold checkedAdd at h
  split at h
  · exact (Option.some.inj h).symm
  · cases h

end Rules

section Publishing

variable {P : Platform} {B B' : Bucket} {v v' : IndexedVolume} {r next : Root} {φ : Faults}
  {res : Result ℕ}

/-- Each call of a volume sends requests that follow its own version: publication first. -/
theorem publish_touches (hgeneration : r.generation = v.root.generation + 1)
    (hvolume : r.volume = v.root.volume) (hok : v.publish P B φ r = (B', v', res)) :
    Touches P B v B' v' := by
  rcases publish_cases hok with ⟨rfl, hv, -⟩ | ⟨hsend, hres⟩
  · rcases hv with rfl | rfl
    · exact .apart (.refl _) (.refl _)
    · exact .apart (.refl _) ⟨rfl, rfl, rfl⟩
  · have hr : Succeeds v r := ⟨hgeneration, hvolume, fun i hi => (hsend.owned i hi).1⟩
    rcases hres with ⟨-, rfl, rfl, -⟩ | ⟨hreplaces, ⟨rfl, -⟩ | ⟨-, rfl, -⟩⟩
    · exact .sent hr (.flies (.refl _)) ⟨rfl, rfl, rfl⟩
    · rw [hreplaces.bucket]
      exact .published hr (.refl _) hreplaces.expected rfl rfl rfl
    · rw [hreplaces.bucket]
      exact .sent hr (.lands (.refl _) hreplaces.expected) ⟨rfl, rfl, rfl⟩

/-- A commit. -/
theorem commitFrom_touches {force : Bool} (hgeneration : next.generation = v.root.generation)
    (hvolume : next.volume = v.root.volume) (hok : v.commitFrom P B φ next force = (B', v', res)) :
    Touches P B v B' v' := by
  unfold IndexedVolume.commitFrom at hok
  split at hok
  · obtain ⟨rfl, rfl, -⟩ := by simpa using hok
    exact .apart (.refl _) (.refl _)
  · rename_i generation hadd
    split at hok
    · obtain ⟨rfl, rfl, -⟩ := by simpa using hok
      exact .apart (.refl _) (.refl _)
    · unfold IndexedVolume.finish at hok
      split at hok
      · obtain ⟨rfl, rfl, -⟩ := by simpa using hok
        exact .apart (.refl _) ⟨rfl, rfl, rfl⟩
      · split at hok
        · rename_i Bu e hupload
          obtain ⟨rfl, rfl, -⟩ := by simpa using hok
          exact .apart (quiet_of_grows (uploadObjects_grows hupload)) (.refl _)
        · rename_i Bu hupload
          have hg : generation = v.root.generation + 1 := by
            rw [checkedAdd_one hadd, hgeneration]
          refine Touches.of_quiet (quiet_of_grows (uploadObjects_grows hupload)) ?_
          exact publish_touches (by exact hg) (by exact hvolume) hok

/-- The commit inside it. -/
theorem commitInner_touches {mark : Option Replication}
    (hok : v.commitInner P B φ mark = (B', v', res)) : Touches P B v B' v' := by
  unfold IndexedVolume.commitInner at hok
  split at hok
  · obtain ⟨rfl, rfl, -⟩ := by simpa using hok
    exact .apart (.refl _) (.refl _)
  · split_ifs at hok
    · obtain ⟨rfl, rfl, -⟩ := by simpa using hok
      exact .apart (.refl _) (.refl _)
    · obtain ⟨rfl, rfl, -⟩ := by simpa using hok
      exact .apart (.refl _) (.refl _)
    · refine commitFrom_touches ?_ ?_ hok
      · cases mark <;> rfl
      · cases mark <;> rfl

/-- The commit of the interface. -/
theorem commit_touches (hok : v.commit P B φ = (B', v', res)) : Touches P B v B' v' := by
  unfold IndexedVolume.commit at hok
  split at hok
  · obtain ⟨rfl, rfl, -⟩ := by simpa using hok
    exact .apart (.refl _) (.refl _)
  · exact commitInner_touches hok

/-- The commit of a replication. -/
theorem commitReplication_touches {mark : Replication}
    (hok : v.commitReplication P B φ mark = (B', v', res)) : Touches P B v B' v' := by
  unfold IndexedVolume.commitReplication at hok
  split at hok
  · obtain ⟨rfl, rfl, -⟩ := by simpa using hok
    exact .apart (.refl _) (.refl _)
  · exact commitInner_touches hok

/-- The commit of an import. -/
theorem commitImport_touches (hok : v.commitImport P B φ = (B', v', res)) :
    Touches P B v B' v' := by
  unfold IndexedVolume.commitImport at hok
  split at hok
  · obtain ⟨rfl, rfl, -⟩ := by simpa using hok
    exact .apart (.refl _) (.refl _)
  · exact commitInner_touches hok

/-- A compaction. -/
theorem compactPacksInner_touches {after : Option CompactionCursor} {budget : ℕ}
    {res : Result Compaction} (hok : v.compactPacksInner P B φ after budget = (B', v', res)) :
    Touches P B v B' v' := by
  have hnothing : ∀ {res' : Result Compaction}, (B, v, res') = (B', v', res) →
      Touches P B v B' v' := by
    intro res' heq
    obtain ⟨rfl, rfl, -⟩ := by simpa using heq
    exact .apart (.refl _) (.refl _)
  unfold compactPacksInner at hok
  split at hok
  · exact hnothing hok
  split at hok
  · exact hnothing hok
  split at hok
  · exact hnothing hok
  split at hok
  · exact hnothing hok
  split at hok
  · exact hnothing hok
  split at hok
  · exact hnothing hok
  split at hok
  · exact hnothing hok
  split at hok
  · rename_i B1 v1 e hcommit
    obtain ⟨rfl, rfl, -⟩ := by simpa using hok
    exact (commitFrom_touches rfl rfl hcommit).of_dirty
  · rename_i B1 v1 g hcommit
    obtain ⟨rfl, rfl, -⟩ := by simpa using hok
    exact (commitFrom_touches rfl rfl hcommit).of_dirty

/-- The compaction of the interface. -/
theorem compactPacks_touches {after : Option CompactionCursor} {budget : ℕ}
    {res : Result Compaction} (hok : v.compactPacks P B φ after budget = (B', v', res)) :
    Touches P B v B' v' := by
  unfold compactPacks at hok
  split at hok
  · obtain ⟨rfl, rfl, -⟩ := by simpa using hok
    exact .apart (.refl _) (.refl _)
  split at hok
  · obtain ⟨rfl, rfl, -⟩ := by simpa using hok
    exact .apart (.refl _) (.refl _)
  split at hok
  · rename_i B1 v1 e hin
    obtain ⟨rfl, rfl, -⟩ := by simpa using hok
    exact (compactPacksInner_touches hin).of_same ⟨rfl, rfl, rfl⟩
  · rename_i B1 v1 c hin
    obtain ⟨rfl, rfl, -⟩ := by simpa using hok
    exact compactPacksInner_touches hin

/-- Buffering sends nothing. -/
theorem buffer_same {view : View} {offset : ℕ} {input : Bytes} {res : Result Unit}
    (hok : v.buffer P view offset input = (v', res)) : SameVersion v v' := by
  unfold IndexedVolume.buffer at hok
  split at hok
  · obtain ⟨rfl, -⟩ := Prod.mk.inj hok
    exact .refl _
  · obtain ⟨rfl, -⟩ := Prod.mk.inj hok
    exact ⟨rfl, rfl, rfl⟩

/-- A write commits only when it has to. -/
theorem write_touches {offset : ℕ} {input : Bytes} {res : Result Unit}
    (hok : v.write P B φ offset input = (B', v', res)) : Touches P B v B' v' := by
  unfold IndexedVolume.write at hok
  split at hok
  · obtain ⟨rfl, rfl, -⟩ := by simpa using hok
    exact .apart (.refl _) (.refl _)
  split at hok
  · obtain ⟨rfl, rfl, -⟩ := by simpa using hok
    exact .apart (.refl _) (.refl _)
  split at hok
  · obtain ⟨rfl, rfl, -⟩ := by simpa using hok
    exact .apart (.refl _) (.refl _)
  split at hok
  · split at hok
    · rename_i B1 v1 e hcommit
      obtain ⟨rfl, rfl, -⟩ := by simpa using hok
      exact commit_touches hcommit
    · rename_i B1 v1 g hcommit
      obtain ⟨rfl, hbuffer⟩ := Prod.mk.inj hok
      exact (commit_touches hcommit).of_same (buffer_same hbuffer)
  · obtain ⟨rfl, hbuffer⟩ := Prod.mk.inj hok
    exact .apart (.refl _) (buffer_same hbuffer)

/-- Every call of a handle. -/
theorem call_touches {c : Call} {res : Result Unit} (hok : c.run P B v φ = (B', v', res)) :
    Touches P B v B' v' := by
  cases c with
  | write offset input => exact write_touches hok
  | commit =>
    obtain ⟨_, hok⟩ := Call.answer_eq hok
    exact commit_touches hok
  | commitReplication mark =>
    obtain ⟨_, hok⟩ := Call.answer_eq hok
    exact commitReplication_touches hok
  | commitImport =>
    obtain ⟨_, hok⟩ := Call.answer_eq hok
    exact commitImport_touches hok
  | compactPacks after budget =>
    obtain ⟨_, hok⟩ := Call.answer_eq hok
    exact compactPacks_touches hok

/-- Finishing an import publishes up to twice. -/
theorem finishImport_touches {φ' : Faults} (hok : v.finishImport P B φ φ' = (B', v', res)) :
    ∃ B1 v1, Touches P B v B1 v1 ∧ Touches P B1 v1 B' v' := by
  unfold IndexedVolume.finishImport at hok
  split at hok
  · rename_i B1 v1 e hcommit
    obtain ⟨rfl, rfl, -⟩ := by simpa using hok
    exact ⟨_, _, commit_touches hcommit, .apart (.refl _) (.refl _)⟩
  · rename_i B1 v1 g hcommit
    refine ⟨B1, v1, commit_touches hcommit, ?_⟩
    have hnothing : ∀ {res' : Result ℕ}, (B1, v1, res') = (B', v', res) →
        Touches P B1 v1 B' v' := by
      intro res' heq
      obtain ⟨rfl, rfl, -⟩ := by simpa using heq
      exact .apart (.refl _) (.refl _)
    split at hok
    · exact hnothing hok
    split at hok
    · exact hnothing hok
    rename_i generation hadd
    split at hok
    · exact hnothing hok
    · have hgeneration := checkedAdd_one hadd
      exact publish_touches (by exact hgeneration) (by rfl) hok

end Publishing

section Opening

variable {P : Platform} {B B' : Bucket} {w : IndexedVolume} {view : View} {c : Client}
  {id : VolumeId}

/-- The heads that a view reports are those of the bucket. -/
def Answers (view : View) (B : Bucket) : Prop :=
  ∀ {s : Space} {h : Option Head}, view.head s = .ok h → B.heads s = h

/-- What is decoded from a root. -/
theorem decodeRoot_spec {rev : Revision} {r : Root} {ready : Bool}
    (hok : decodeRoot P view c id rev r ready = .ok w) :
    ∃ base, loadBase P view r = .ok base ∧ r.wellFormed id = true ∧
      w = ⟨c, r, base, rev, ∅, false⟩ := by
  unfold decodeRoot at hok
  split_ifs at hok with h₁ h₂ h₃
  split at hok
  · cases hok
  · rename_i base hbase
    exact ⟨base, hbase, by simpa using h₂, (Except.ok.inj hok).symm⟩

/-- What is decoded from a head. -/
theorem decodeHead_spec {h : Head} {ready : Bool}
    (hok : decodeHead P view c id h ready = .ok w) :
    ∃ r base, h.manifest = .root r ∧ loadBase P view r = .ok base ∧ r.wellFormed id = true ∧
      w = ⟨c, r, base, h.revision, ∅, false⟩ := by
  unfold decodeHead at hok
  split at hok
  · rename_i r hm
    obtain ⟨base, hbase, hwell, hw⟩ := decodeRoot_spec hok
    exact ⟨r, base, hm, hbase, hwell, hw⟩
  · cases hok

theorem decodeHead_ok {h : Head} {ready : Bool} (hok : decodeHead P view c id h ready = .ok w) :
    w.store = c ∧ h = ⟨w.revision, .root w.root⟩ := by
  obtain ⟨r, base, hroot, -, -, rfl⟩ := decodeHead_spec hok
  refine ⟨rfl, ?_⟩
  rw [← hroot]

/-- The head that a client reports is its own document. -/
theorem clientHead_ok {h : Head} {r : Root} (ha : Answers view B)
    (hok : c.head P view id = .ok (some h)) (hr : h.manifest = .root r) :
    B.heads (c.space id) = some ⟨h.revision, c.wrap r⟩ := by
  unfold Client.head at hok
  split at hok
  · rw [Client.space, ha hok, Client.wrap, ← hr]
  · rename_i i
    split at hok
    · cases hok
    rename_i hid
    split at hok
    · cases hok
    · cases hok
    · rename_i h' hview
      split at hok
      · cases hok
      · rename_i e he
        split at hok
        · cases hok
        · rename_i hmatches
          obtain rfl := Option.some.inj (Except.ok.inj hok)
          have hmatches : i.matches e = true := by simpa using hmatches
          obtain ⟨hepoch, howner⟩ := Identity.matches_iff.mp hmatches
          rcases decodeEnvelope_ok he with ⟨hm, -, hvolume⟩ | ⟨r', -, rfl⟩
          · rw [Client.space, ha hview, Client.wrap]
            cases hr
            have hsame : e = ⟨i.volume, i.epoch, some i.token, e.manifest⟩ := by
              rw [← not_not.mp hid, ← hvolume, ← hepoch, ← howner]
            rw [← hsame, ← hm]
          · cases howner

/-- An opened handle knows the head's version. -/
theorem open_version (ha : Answers view B) (hok : IndexedVolume.open P view c id = .ok w) :
    w.store = c ∧ B.heads (c.space id) = some ⟨w.revision, c.wrap w.root⟩ := by
  unfold IndexedVolume.open at hok
  split at hok
  · cases hok
  split at hok
  · cases hok
  · cases hok
  · rename_i h hhead
    obtain ⟨hstore, rfl⟩ := decodeHead_ok hok
    exact ⟨hstore, clientHead_ok ha hhead rfl⟩

/-- An import that is resumed has the version of the head. -/
theorem resumeImport_version {size : ℕ} (ha : Answers view B)
    (hok : resumeImport P view c id size = .ok w) :
    w.store = c ∧ B.heads (c.space id) = some ⟨w.revision, c.wrap w.root⟩ := by
  unfold resumeImport at hok
  split at hok
  · cases hok
  split at hok
  · cases hok
  · cases hok
  · rename_i h hhead
    split at hok
    · cases hok
    · rename_i disk hdisk
      split at hok
      · cases hok
      · obtain rfl := Except.ok.inj hok
        obtain ⟨hstore, rfl⟩ := decodeHead_ok hdisk
        exact ⟨hstore, clientHead_ok ha hhead rfl⟩

/-- What creating a volume does: it asks for its first head, and a handle that it gives knows that
version. -/
structure Creates (P : Platform) (B : Bucket) (B' : Bucket) (q : Request)
    (res : Result IndexedVolume) : Prop where
  sent : Sent P B q B'
  expected : q.expected = none
  follows : Follows none q.manifest
  owner : (entry (some q.manifest)).owner = none
  handle : ∀ w, res = .ok w → (∃ bases, w.store = .raw bases) ∧ B.heads q.space = none ∧
    B' = B.replace P q.space q.manifest ∧ w.store.wrap w.root = q.manifest ∧
    w.revision = P.tag B.published q.manifest

/-- A creation asks for a head where there was none. -/
theorem createRoot_creates {bases : Bool} {base : Option Catalog} {root : Root} {d : Delivery}
    {res : Result IndexedVolume} (hgeneration : root.generation = 0)
    (hok : createRoot P B (.raw bases) base root d = (B', res)) :
    Creates P B B' ⟨⟨bases, root.volume⟩, none, .root root⟩ res := by
  unfold createRoot at hok
  have hcreate : Follows none (.root root) := .create hgeneration
  split at hok
  · rename_i B1 e hsend
    obtain ⟨rfl, rfl⟩ := Prod.mk.inj hok
    exact ⟨(transmit_sent (q := ⟨⟨bases, root.volume⟩, none, .root root⟩) hsend).1, rfl, hcreate,
      rfl, fun _ hw => by cases hw⟩
  · rename_i B1 rev hsend
    obtain ⟨hs, hrev⟩ := transmit_sent (q := ⟨⟨bases, root.volume⟩, none, .root root⟩) hsend
    obtain ⟨hexpected, hB, rfl⟩ := hrev rev rfl
    split at hok
    · obtain ⟨rfl, rfl⟩ := Prod.mk.inj hok
      exact ⟨hs, rfl, hcreate, rfl, fun _ hw => by cases hw⟩
    · obtain ⟨rfl, rfl⟩ := Prod.mk.inj hok
      refine ⟨hs, rfl, hcreate, rfl, fun w hw => ?_⟩
      obtain rfl := Except.ok.inj hw
      exact ⟨⟨bases, rfl⟩, by simpa using hexpected, hB, rfl, rfl⟩

/-- The creation inside it. -/
theorem createInner_creates {bases ready : Bool} {size : ℕ} {d : Delivery}
    {res : Result IndexedVolume} (hok : createInner P B bases id size ready d = (B', res)) :
    (B' = B ∧ ∃ e, res = .error e) ∨ ∃ q, Creates P B B' q res := by
  unfold createInner at hok
  split at hok
  · obtain ⟨rfl, rfl⟩ := Prod.mk.inj hok
    exact .inl ⟨rfl, _, rfl⟩
  · exact .inr ⟨_, createRoot_creates rfl hok⟩

/-- A creation from a base. -/
theorem createFromBase_creates {reference : BaseRef} {d : Delivery} {res : Result IndexedVolume}
    (hok : createFromBase P B view id reference d = (B', res)) :
    (B' = B ∧ ∃ e, res = .error e) ∨ ∃ q, Creates P B B' q res := by
  unfold createFromBase at hok
  split at hok
  · obtain ⟨rfl, rfl⟩ := Prod.mk.inj hok
    exact .inl ⟨rfl, _, rfl⟩
  split at hok
  · obtain ⟨rfl, rfl⟩ := Prod.mk.inj hok
    exact .inl ⟨rfl, _, rfl⟩
  simp only at hok
  split at hok
  · obtain ⟨rfl, rfl⟩ := Prod.mk.inj hok
    exact .inl ⟨rfl, _, rfl⟩
  · exact .inr ⟨_, createRoot_creates rfl hok⟩

end Opening

end AgentHouse.Owned
