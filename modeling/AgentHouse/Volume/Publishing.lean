import AgentHouse.Volume.Plans

/-!
# What a commit does

`Outcome` lists everything a commit can do to the bucket and the handle: fail before the
head was touched, find nothing to publish, publish, or publish with the reply lost. The
results on contents follow from it and from what plans promise.
-/

namespace AgentHouse.Volume

open IndexedVolume

section Uploads

variable {P : Platform} {S : Set Bytes} {B B' : Bucket} {s : Space} {objs : List (Hash × Bytes)}

/-- `B'` is `B` with some of the listed objects added to one namespace. -/
structure Grows (B B' : Bucket) (s : Space) (objs : List (Hash × Bytes)) : Prop where
  heads : B'.heads = B.heads
  published : B'.published = B.published
  flights : B'.flights = B.flights
  le : B.Le B'
  only : ∀ {s' : Space} {h : Hash} {b : Bytes}, (B'.objects s')[h]? = some b →
    (B.objects s')[h]? = some b ∨ (s' = s ∧ (h, b) ∈ objs)

theorem Grows.refl (B : Bucket) (s : Space) (objs : List (Hash × Bytes)) : Grows B B s objs :=
  ⟨rfl, rfl, rfl, Bucket.Le.refl B, Or.inl⟩

/-- One object more. -/
theorem Grows.putChunk (hg : Grows B B' s objs) {h : Hash} {b : Bytes} (hmem : (h, b) ∈ objs)
    {B'' : Bucket} (hok : B'.putChunk s h b = .ok B'') : Grows B B'' s objs := by
  obtain ⟨hheads, hpub, hflights, hobj⟩ := Bucket.putChunk_spec hok
  refine ⟨hheads.trans hg.heads, hpub.trans hg.published, hflights.trans hg.flights, ?_, ?_⟩
  · intro s' h' b' hb'
    have hold := hg.le s' h' b' hb'
    rw [hobj]
    split
    · rename_i hc
      obtain ⟨rfl, rfl⟩ := hc
      unfold Bucket.putChunk at hok
      rw [hold] at hok
      simp only at hok
      split at hok
      · rename_i heq
        rw [heq]
      · cases hok
    · exact hold
  · intro s' h' b' hb'
    rw [hobj] at hb'
    split at hb'
    · rename_i hc
      obtain ⟨rfl, rfl⟩ := hc
      rw [← Option.some.inj hb']
      exact Or.inr ⟨rfl, hmem⟩
    · exact hg.only hb'

/-- Known objects keep the bucket addressed. -/
theorem Grows.addressed (hg : Grows B B' s objs) (ha : Addressed P S B) (hd : Digests P S objs) :
    Addressed P S B' := by
  intro s' h b hb
  rcases hg.only hb with hb | ⟨-, hmem⟩
  · exact ha s' h b hb
  · exact hd _ hmem

/-- A completed upload stored every object. -/
theorem putChunks_ok (hok : objs.foldlM (fun B o => B.putChunk s o.1 o.2) B = .ok B') :
    Grows B B' s objs ∧ Stores B' s objs := by
  refine foldlM_induction hok (fun done B' => Grows B B' s objs ∧ Stores B' s done)
    ⟨Grows.refl B s objs, by simp [Stores]⟩ ?_
  rintro done o rest C C' hl ⟨hg, hst⟩ hround
  have hmem : (o.1, o.2) ∈ objs := by rw [hl]; simp
  refine ⟨hg.putChunk hmem hround, ?_⟩
  have hgrow : Grows C C' s objs := (Grows.refl C s objs).putChunk hmem hround
  intro o' ho'
  rcases List.mem_append.mp ho' with ho' | ho'
  · exact hgrow.le s _ _ (hst o' ho')
  · obtain rfl := List.mem_singleton.mp ho'
    rw [(Bucket.putChunk_spec hround).2.2.2, if_pos ⟨rfl, rfl⟩]

/-- Uploads under distinct digests never clash. -/
theorem putChunks_succeeds (hideal : P.Ideal S) (ha : Addressed P S B) (hd : Digests P S objs) :
    ∃ B', objs.foldlM (fun B o => B.putChunk s o.1 o.2) B = .ok B' := by
  obtain ⟨B', hok, -⟩ := foldlM_succeeds (f := fun B (o : Hash × Bytes) => B.putChunk s o.1 o.2)
    (z := B) (l := objs) (fun _ B' => Addressed P S B') ha (by
      intro done o rest C hl hC
      have hmem : o ∈ objs := by rw [hl]; simp
      obtain ⟨hdig, hknown⟩ := hd o hmem
      have hok : ∃ C', C.putChunk s o.1 o.2 = .ok C' := by
        unfold Bucket.putChunk
        cases hb : (C.objects s)[o.1]? with
        | none => exact ⟨_, rfl⟩
        | some b =>
          obtain ⟨hdig', hknown'⟩ := hC _ _ _ hb
          obtain rfl := hideal.inj hknown' hknown (hdig'.trans hdig.symm)
          exact ⟨C, by simp⟩
      obtain ⟨C', hok⟩ := hok
      refine ⟨C', hok, ?_⟩
      exact ((Grows.refl C s objs).putChunk hmem hok).addressed hC hd)
  exact ⟨B', hok⟩

/-- A part of the objects is an upload as well. -/
theorem keepObjects_grows (B : Bucket) (s : Space) (kept : Hash → Bool)
    (objs : List (Hash × Bytes)) : Grows B (keepObjects B s kept objs) s objs := by
  unfold keepObjects
  refine foldl_induction (fun _ B' => Grows B B' s objs) (Grows.refl B s objs) ?_
  intro done o rest C hl hg
  split
  · cases hok : C.putChunk s o.1 o.2 with
    | error e => exact hg
    | ok C' => exact hg.putChunk (by rw [hl]; simp) hok
  · exact hg

end Uploads

section Transmission

variable {P : Platform} {B B' : Bucket} {s : Space} {m : Manifest}

/-- The bucket after a head was replaced. -/
def Bucket.replace (P : Platform) (B : Bucket) (s : Space) (m : Manifest) : Bucket :=
  { B with
    heads := Function.update B.heads s (some ⟨P.tag B.published m, m⟩)
    published := B.published + 1 }

@[simp] theorem Bucket.replace_objects (P : Platform) (B : Bucket) (s : Space) (m : Manifest) :
    (B.replace P s m).objects = B.objects := rfl

@[simp] theorem Bucket.replace_published (P : Platform) (B : Bucket) (s : Space) (m : Manifest) :
    (B.replace P s m).published = B.published + 1 := rfl

theorem Bucket.replace_heads_self (P : Platform) (B : Bucket) (s : Space) (m : Manifest) :
    (B.replace P s m).heads s = some ⟨P.tag B.published m, m⟩ := Function.update_self ..

theorem Bucket.replace_heads_of_ne (P : Platform) (B : Bucket) {s s' : Space} (h : s' ≠ s)
    (m : Manifest) : (B.replace P s m).heads s' = B.heads s' := Function.update_of_ne h ..

/-- A new head removes no object. -/
theorem Bucket.le_replace (P : Platform) (B : Bucket) (s : Space) (m : Manifest) :
    B.Le (B.replace P s m) := Bucket.Le.of_objects_eq rfl

theorem Bucket.land_flights (P : Platform) (B : Bucket) (q : Request) :
    (B.land P q).flights = B.flights := by
  unfold Bucket.land Bucket.publish
  split <;> rename_i heq <;> split at heq <;> cases heq <;> rfl

/-- A request either leaves the bucket alone and fails, or stays on its way, or replaces the
head it expected; only a delivered one reports the new revision. -/
theorem transmit_cases {expected : Option Revision} {d : Delivery} {res : Result Revision}
    (h : transmit P B s expected m d = (B', res)) :
    (B' = B ∧ ∃ e, res = .error e) ∨
      (d = .delayed ∧ B' = B.send ⟨s, expected, m⟩ ∧ res = .error .uncertain) ∨
      ((B.heads s).map Head.revision = expected ∧ B' = B.replace P s m ∧
        ((d = .delivered ∧ res = .ok (P.tag B.published m)) ∨
          (d = .replyLost ∧ res = .error .uncertain))) := by
  unfold transmit Bucket.publish at h
  cases d with
  | canceled =>
    obtain ⟨rfl, rfl⟩ := Prod.mk.inj h
    exact Or.inl ⟨rfl, _, rfl⟩
  | requestLost =>
    obtain ⟨rfl, rfl⟩ := Prod.mk.inj h
    exact Or.inl ⟨rfl, _, rfl⟩
  | delayed =>
    obtain ⟨rfl, rfl⟩ := Prod.mk.inj h
    exact Or.inr (Or.inl ⟨rfl, rfl, rfl⟩)
  | replyLost =>
    by_cases hrev : (B.heads s).map Head.revision = expected
    · simp only [hrev, if_true] at h
      obtain ⟨rfl, rfl⟩ := Prod.mk.inj h
      exact Or.inr (Or.inr ⟨hrev, rfl, Or.inr ⟨rfl, rfl⟩⟩)
    · simp only [hrev, if_false] at h
      obtain ⟨rfl, rfl⟩ := Prod.mk.inj h
      exact Or.inl ⟨rfl, _, rfl⟩
  | delivered =>
    by_cases hrev : (B.heads s).map Head.revision = expected
    · simp only [hrev, if_true] at h
      obtain ⟨rfl, rfl⟩ := Prod.mk.inj h
      exact Or.inr (Or.inr ⟨hrev, rfl, Or.inl ⟨rfl, rfl⟩⟩)
    · simp only [hrev, if_false] at h
      obtain ⟨rfl, rfl⟩ := Prod.mk.inj h
      exact Or.inl ⟨rfl, _, rfl⟩

/-- The document in which a client stores a disk map. -/
def Client.wrap : Client → Root → Manifest
  | .raw _, r => .root r
  | .owned i, r => .envelope ⟨i.volume, i.epoch, some i.token, r⟩

/-- The documents of a disk map that a client's reader accepts by size. -/
def Client.Readable (P : Platform) (c : Client) (r : Root) : Prop :=
  (P.json (.root r)).length ≤ maxManifestBytes ∧ (P.json (c.wrap r)).length ≤ maxManifestBytes

/-- A client's publication is a request for its own document. -/
theorem Client.publish_cases {view : View} {c : Client} {id : VolumeId} {rev : Revision} {r : Root}
    {d : Delivery} {res : Result Revision}
    (h : c.publish P view B id (some rev) r d = (B', res)) :
    (B' = B ∧ ∃ e, res = .error e) ∨
      ((∀ i, c = .owned i → i.volume = id ∧ r.ready = true) ∧
        ((P.json (.root r)).length ≤ maxManifestBytes → c.Readable P r) ∧
        ((d = .delayed ∧ B' = B.send ⟨c.space id, some rev, c.wrap r⟩ ∧ res = .error .uncertain) ∨
          ((B.heads (c.space id)).map Head.revision = some rev ∧
            B' = B.replace P (c.space id) (c.wrap r) ∧
            ((d = .delivered ∧ res = .ok (P.tag B.published (c.wrap r))) ∨
              (d = .replyLost ∧ res = .error .uncertain))))) := by
  cases c with
  | raw bases =>
    rcases transmit_cases h with h | h
    · exact Or.inl h
    · exact Or.inr ⟨fun i hi => by (cases hi), fun hj => ⟨hj, hj⟩, h⟩
  | owned i =>
    unfold Client.publish at h
    simp only at h
    split at h
    · obtain ⟨rfl, rfl⟩ := Prod.mk.inj h
      exact Or.inl ⟨rfl, _, rfl⟩
    · rename_i hid
      have hid' : id = i.volume := by simpa using hid
      subst hid'
      cases he : decodeEnvelope P view i.volume ⟨rev, .root r⟩ with
      | error e =>
        simp only [he] at h
        obtain ⟨rfl, rfl⟩ := Prod.mk.inj h
        exact Or.inl ⟨rfl, _, rfl⟩
      | ok e =>
        simp only [he] at h
        have hparts : e = ⟨i.volume, 0, none, r⟩ ∧ r.ready = true := by
          unfold decodeEnvelope at he
          split at he
          · cases he
          · simp only at he
            split at he
            · cases he
            · rename_i v hv
              refine ⟨(Except.ok.inj he).symm, ?_⟩
              unfold decodeRoot at hv
              split_ifs at hv with h1 h2 h3
              simpa using h3
        obtain ⟨rfl, hready⟩ := hparts
        unfold encodeEnvelope at h
        split at h
        · obtain ⟨rfl, rfl⟩ := Prod.mk.inj h
          exact Or.inl ⟨rfl, _, rfl⟩
        · rename_i m hm
          split at hm
          · cases hm
          · rename_i hlen
            obtain rfl := Except.ok.inj hm
            rcases transmit_cases h with h | h
            · exact Or.inl h
            · refine Or.inr ⟨?_, fun hj => ⟨hj, ?_⟩, h⟩
              · intro j hj
                cases hj
                exact ⟨rfl, hready⟩
              · exact Nat.not_lt.mp hlen

end Transmission

section Outcomes

variable {P : Platform} {S : Set Bytes} {B B' : Bucket} {φ : Faults} {v v' : IndexedVolume}
  {f : ℕ → Bytes} {next : Root} {force : Bool} {res : Result ℕ}

/-- The disk map that a commit publishes. -/
def published (next : Root) (generation : ℕ) (pages : BTreeMap ℕ Hash) : Root :=
  { next with generation := generation, pages := pages }

/-- The conditions under which a handle's request for the disk map `r` is sent. -/
structure Sendable (P : Platform) (v : IndexedVolume) (r : Root) : Prop where
  readable : v.store.Readable P r
  owned : ∀ i, v.store = .owned i → i.volume = r.volume ∧ r.ready = true

/-- The request of a handle for the disk map `r`. -/
def IndexedVolume.request (v : IndexedVolume) (r : Root) : Request :=
  ⟨v.store.space r.volume, some v.revision, v.store.wrap r⟩

/-- The handle's request for the disk map `r` replaces the head. -/
structure Replaces (P : Platform) (B : Bucket) (v : IndexedVolume) (r : Root) (B' : Bucket) :
    Prop where
  bucket : B' = B.replace P (v.store.space r.volume) (v.store.wrap r)
  expected : (B.heads (v.store.space r.volume)).map Head.revision = some v.revision

/-- Everything that publishing a disk map can do. -/
theorem publish_cases {r : Root} (hok : v.publish P B φ r = (B', v', res)) :
    (B' = B ∧ (v' = v ∨ v' = { v with poisoned := true }) ∧ ∃ e, res = .error e) ∨
      (Sendable P v r ∧
        ((φ.delivery = .delayed ∧ B' = B.send (v.request r) ∧ v' = { v with poisoned := true } ∧
            res = .error .uncertain) ∨
          (Replaces P B v r B' ∧
            ((v' = { v with
                root := r, revision := P.tag B.published (v.store.wrap r), dirty := ∅ } ∧
                res = .ok r.generation) ∨
              (φ.delivery = .replyLost ∧ v' = { v with poisoned := true } ∧
                res = .error .uncertain))))) := by
  unfold IndexedVolume.publish at hok
  split at hok
  · obtain ⟨rfl, rfl, rfl⟩ := by simpa using hok
    exact Or.inl ⟨rfl, Or.inl rfl, _, rfl⟩
  · rename_i hjson
    cases hpub : v.store.publish P (φ.view B) B r.volume (some v.revision) r φ.delivery with
    | mk B'' answer =>
      rw [hpub] at hok
      rcases Client.publish_cases hpub with ⟨rfl, e, rfl⟩ | ⟨hown, hread, hsent⟩
      · left
        cases e <;> (obtain ⟨rfl, rfl, rfl⟩ := by simpa using hok) <;>
          first
            | exact ⟨rfl, Or.inl rfl, _, rfl⟩
            | exact ⟨rfl, Or.inr rfl, _, rfl⟩
      · refine Or.inr ⟨⟨hread (Nat.not_lt.mp hjson), hown⟩, ?_⟩
        rcases hsent with ⟨hdelay, rfl, rfl⟩ | ⟨hrev, rfl, ⟨-, rfl⟩ | ⟨hlost, rfl⟩⟩
        · obtain ⟨rfl, rfl, rfl⟩ := by simpa using hok
          exact Or.inl ⟨hdelay, rfl, rfl, rfl⟩
        · simp only [P.tag_ne_empty, if_false] at hok
          obtain ⟨rfl, rfl, rfl⟩ := by simpa using hok
          exact Or.inr ⟨⟨rfl, hrev⟩, Or.inl ⟨rfl, rfl⟩⟩
        · obtain ⟨rfl, rfl, rfl⟩ := by simpa using hok
          exact Or.inr ⟨⟨rfl, hrev⟩, Or.inr ⟨hlost, rfl, rfl⟩⟩

/-- A commit has uploaded, into the bucket `Bu`, what its disk map `r` needs. -/
structure Prepares (P : Platform) (B : Bucket) (view : View) (v : IndexedVolume) (next : Root)
    (force : Bool) (r : Root) (Bu : Bucket) : Prop where
  plan : ∃ pages uploads generation, v.plan P view force = .ok (pages, uploads) ∧
    checkedAdd next.generation 1 = some generation ∧ r = published next generation pages ∧
    uploads.foldlM (fun B o => B.putChunk v.space o.1 o.2) B = .ok Bu
  changed : ¬ (r.pages = v.root.pages ∧ next.replication = v.root.replication)
  sendable : Sendable P v r

/-- A commit replaces the head by the disk map `r`. -/
structure Publishes (P : Platform) (B : Bucket) (view : View) (v : IndexedVolume) (next : Root)
    (force : Bool) (r : Root) (B' : Bucket) : Prop where
  prepares : ∃ Bu, Prepares P B view v next force r Bu ∧ Replaces P Bu v r B'

/-- Everything that a commit from the disk map `next` can do when its request is delivered
as `d`. -/
inductive Outcome (P : Platform) (B : Bucket) (view : View) (d : Delivery) (v : IndexedVolume)
    (next : Root) (force : Bool) : Bucket → IndexedVolume → Result ℕ → Prop
  | failed {B' : Bucket} {v' : IndexedVolume} {e : Error} {uploads : List (Hash × Bytes)}
      (hplan : uploads = [] ∨ ∃ pages, v.plan P view force = .ok (pages, uploads))
      (hg : Grows B B' v.space uploads) (hv : v' = v ∨ v' = { v with poisoned := true }) :
      Outcome P B view d v next force B' v' (.error e)
  | unchanged {uploads : List (Hash × Bytes)}
      (hplan : v.plan P view force = .ok (v.root.pages, uploads))
      (hmark : next.replication = v.root.replication) :
      Outcome P B view d v next force B { v with dirty := ∅ } (.ok v.root.generation)
  | published {B' : Bucket} {r : Root} (h : Publishes P B view v next force r B') :
      Outcome P B view d v next force B'
        { v with root := r, revision := P.tag B.published (v.store.wrap r), dirty := ∅ }
        (.ok r.generation)
  | lost {B' : Bucket} {r : Root} (h : Publishes P B view v next force r B')
      (hd : d = .replyLost) :
      Outcome P B view d v next force B' { v with poisoned := true } (.error .uncertain)
  | delayed {Bu : Bucket} {r : Root} (h : Prepares P B view v next force r Bu)
      (hd : d = .delayed) :
      Outcome P B view d v next force (Bu.send (v.request r)) { v with poisoned := true }
        (.error .uncertain)

/-- The outcomes of `commit_inner` and `compact_packs` from their plan on. -/
theorem commitFrom_outcome (hok : v.commitFrom P B φ next force = (B', v', res)) :
    Outcome P B (φ.view B) φ.delivery v next force B' v' res := by
  unfold IndexedVolume.commitFrom at hok
  cases hgen : checkedAdd next.generation 1 with
  | none =>
    simp only [hgen] at hok
    obtain ⟨rfl, rfl, rfl⟩ := by simpa using hok
    exact .failed (Or.inl rfl) (Grows.refl B v.space []) (Or.inl rfl)
  | some generation =>
    simp only [hgen] at hok
    cases hplan : v.plan P (φ.view B) force with
    | error e =>
      simp only [hplan] at hok
      obtain ⟨rfl, rfl, rfl⟩ := by simpa using hok
      exact .failed (Or.inl rfl) (Grows.refl B v.space []) (Or.inl rfl)
    | ok plan =>
      obtain ⟨pages, uploads⟩ := plan
      simp only [hplan] at hok
      unfold IndexedVolume.finish at hok
      split at hok
      · rename_i hsame
        simp only at hsame
        obtain ⟨rfl, rfl, rfl⟩ := by simpa using hok
        rw [hsame.1] at hplan
        exact .unchanged hplan hsame.2
      · rename_i hchanged
        unfold uploadObjects at hok
        cases hup : φ.upload with
        | some e =>
          simp only [hup] at hok
          obtain ⟨rfl, rfl, rfl⟩ := by simpa using hok
          exact .failed (Or.inr ⟨pages, hplan⟩) (keepObjects_grows B v.space φ.kept uploads)
            (Or.inl rfl)
        | none =>
          simp only [hup] at hok
          cases hput : uploads.foldlM (fun B o => B.putChunk v.space o.1 o.2) B with
          | error e =>
            simp only [hput] at hok
            obtain ⟨rfl, rfl, rfl⟩ := by simpa using hok
            exact .failed (Or.inr ⟨pages, hplan⟩) (keepObjects_grows B v.space φ.kept uploads)
              (Or.inl rfl)
          | ok Bu =>
            simp only [hput] at hok
            obtain ⟨hg, -⟩ := putChunks_ok hput
            rcases publish_cases hok with ⟨rfl, hv, e, rfl⟩ | ⟨hsend, hres⟩
            · exact .failed (Or.inr ⟨pages, hplan⟩) hg hv
            · have hp : Prepares P B (φ.view B) v next force (published next generation pages)
                  Bu := ⟨⟨pages, uploads, generation, hplan, hgen, rfl, hput⟩, hchanged, hsend⟩
              rcases hres with ⟨hdelay, rfl, rfl, rfl⟩ | ⟨hr, ⟨rfl, rfl⟩ | ⟨hlost, rfl, rfl⟩⟩
              · exact .delayed hp hdelay
              · rw [hg.published]
                exact .published ⟨Bu, hp, hr⟩
              · exact .lost ⟨Bu, hp, hr⟩ hlost

end Outcomes

section Committed

variable {P : Platform} {S : Set Bytes} {B B' : Bucket} {v v' : IndexedVolume}
  {f : ℕ → Bytes} {view : View} {d : Delivery} {next r : Root} {force : Bool}

/-- The disk map `next` differs from that of the handle only in its format, generation and
replication mark, and these agree with each other. -/
structure Continues (v : IndexedVolume) (next : Root) : Prop where
  volume : next.volume = v.root.volume
  size : next.size = v.root.size
  base : next.base = v.root.base
  packed : next.packed = v.root.packed
  ready : next.ready = v.root.ready
  pages : next.pages = v.root.pages
  format : next.format ∈ [2, 3, 6, 7, 8, 9, 10, 11]
  marked : next.format ∈ [3, 7, 9, 11] ↔ next.replication.isSome = true
  based : next.format ∈ [6, 7, 10, 11] ↔ next.base.isSome = true
  mark_ok : ∀ m, next.replication = some m → m.id.length = 32 ∧ m.sequence ≠ 0

theorem continues_self (h : RootOk v.root) : Continues v v.root :=
  ⟨rfl, rfl, rfl, rfl, rfl, rfl, h.format, h.marked, h.based, h.mark_ok⟩

/-- Adding a replication mark moves to the marked format of the same kind. -/
theorem continues_nextRoot (h : RootOk v.root) {mark : Option Replication}
    (hm : ∀ m, mark = some m → m.id.length = 32 ∧ m.sequence ≠ 0) :
    Continues v (v.nextRoot mark) := by
  cases mark with
  | none => exact continues_self h
  | some m =>
    have hcases : ∀ packed base : Bool, markedFormat packed base ∈ [2, 3, 6, 7, 8, 9, 10, 11] ∧
        markedFormat packed base ∈ [3, 7, 9, 11] ∧
        (markedFormat packed base ∈ [6, 7, 10, 11] ↔ base = true) ∧
        [8, 9, 10, 11].contains (markedFormat packed base) = packed := by decide
    obtain ⟨h1, h2, h3, h4⟩ := hcases v.packed v.root.base.isSome
    refine ⟨rfl, rfl, rfl, h4, rfl, rfl, h1, ?_, h3, ?_⟩
    · exact ⟨fun _ => rfl, fun _ => h2⟩
    · intro m' hm'
      obtain rfl := Option.some.inj hm'
      exact hm m rfl

/-- A root that continues another one is in order. -/
theorem Continues.rootOk (hc : Continues v next) (h : RootOk v.root) {generation : ℕ}
    {pages : BTreeMap ℕ Hash} (hp : ∀ (p : ℕ) (h : Hash), pages[p]? = some h →
      p < pageCount v.root.size ∧ h.length = 32) : RootOk (published next generation pages) where
  size_pos := by rw [show (published next generation pages).size = next.size from rfl, hc.size]
                 exact h.size_pos
  size_le := by rw [show (published next generation pages).size = next.size from rfl, hc.size]
                exact h.size_le
  size_mod := by rw [show (published next generation pages).size = next.size from rfl, hc.size]
                 exact h.size_mod
  format := hc.format
  marked := hc.marked
  based := hc.based
  mark_ok := hc.mark_ok
  pages_ok := by rw [show (published next generation pages).size = next.size from rfl, hc.size]
                 exact hp

/-- And is read from the same source. -/
theorem Continues.sameSource (hc : Continues v next) (generation : ℕ) (pages : BTreeMap ℕ Hash)
    (rev : Revision) (dirty : BTreeMap ℕ Bytes) (poisoned : Bool) :
    SameSource v ⟨v.store, published next generation pages, v.base, rev, dirty, poisoned⟩ where
  packed := hc.packed
  size := hc.size
  space := by
    simp only [IndexedVolume.space]
    rw [show (published next generation pages).volume = next.volume from rfl, hc.volume]
  rootBase := hc.base
  base := rfl

/-- A handle with a planned page map holds what the committing handle shows. -/
private theorem holds_planned (h : Holds P S B v f)
    (hS : ∀ (i : ℕ) (b : Bytes), v.dirty[i]? = some b → b ∈ S)
    (hc : Continues v next) {generation : ℕ} {pages : BTreeMap ℕ Hash}
    {uploads : List (Hash × Bytes)} (hp : Planned P S B v f pages uploads) (hle : B.Le B')
    (ha : Addressed P S B') (hst : Stores B' v.space uploads) (rev : Revision) :
    Holds P S B' ⟨v.store, published next generation pages, v.base, rev, ∅, v.poisoned⟩
      (v.over f) := by
  have h' := h.mono hle
  have hsrc := hc.sameSource generation pages rev ∅ v.poisoned
  have hcount : chunkCount ⟨v.store, published next generation pages, v.base, rev, ∅,
      v.poisoned⟩ = v.chunkCount := by
    simp only [chunkCount]
    rw [show (published next generation pages).size = next.size from rfl, hc.size]
  refine ⟨wellFormed_iff.mpr ⟨rfl, hc.rootOk h.rootOk hp.pages_ok⟩, ?_, ?_, ?_, ?_, ?_⟩
  · have hb := h'.base
    unfold loadBase at hb ⊢
    rw [show (published next generation pages).base = next.base from rfl, hc.base,
      show (published next generation pages).size = next.size from rfl, hc.size]
    exact hb
  · intro i hi
    rw [hcount] at hi
    exact hp.loads hle ha hst hsrc rfl i hi
  · intro i hi
    rw [hcount] at hi
    cases hb : v.dirty[i]? with
    | none => rw [over_of_clean hb]; exact h.known i hi
    | some b => rw [over_of_dirty hb]; exact hS i b hb
  · intro p hpc
    rw [hsrc.basePage]
    exact h'.basePages p (by rwa [hsrc.size] at hpc)
  · intro i hi pg hash b hpg hsl hb
    rw [hcount] at hi
    rw [hsrc.basePage] at hpg
    exact h'.baseChunks i hi pg hash b hpg hsl (hc.base ▸ hb)

/-- What a commit uploads makes its disk map store what the handle shows. -/
theorem Prepares.holds {Bu : Bucket} (hp : Prepares P B view v next force r Bu)
    (h : Holds P S B v f) (hideal : P.Ideal S) (ha : Addressed P S B) (hd : DirtyOk v)
    (hs : view.Sound B) (hS : ∀ b ∈ v.hashed P view force, b ∈ S) (hc : Continues v next)
    (rev : Revision) :
    (∃ uploads, Grows B Bu v.space uploads) ∧ Addressed P S Bu ∧
      Holds P S Bu { v with root := r, revision := rev, dirty := ∅ } (v.over f) := by
  obtain ⟨pages, uploads, generation, hplan, -, rfl, hput⟩ := hp.plan
  have hpl := plan_ok h hideal ha hd hs hS hplan
  obtain ⟨hg, hst⟩ := putChunks_ok hput
  have ha' : Addressed P S Bu := hg.addressed ha hpl.digests
  exact ⟨⟨uploads, hg⟩, ha', holds_planned h (dirty_known hS) hc hpl hg.le ha' hst rev⟩

/-- What is published is what the committing handle shows. -/
theorem Publishes.holds (hp : Publishes P B view v next force r B') (h : Holds P S B v f)
    (hideal : P.Ideal S) (ha : Addressed P S B) (hd : DirtyOk v) (hs : view.Sound B)
    (hS : ∀ b ∈ v.hashed P view force, b ∈ S) (hc : Continues v next) (rev : Revision) :
    B.Le B' ∧ Addressed P S B' ∧
      Holds P S B' { v with root := r, revision := rev, dirty := ∅ } (v.over f) := by
  obtain ⟨Bu, hprep, hr⟩ := hp.prepares
  obtain ⟨⟨uploads, hg⟩, ha', hh⟩ := hprep.holds h hideal ha hd hs hS hc rev
  have hle : Bu.Le B' := by
    rw [hr.bucket]
    exact Bucket.le_replace P Bu _ _
  refine ⟨hg.le.trans hle, ?_, hh.mono hle⟩
  rw [hr.bucket]
  exact ha'

/-- A commit without changes leaves the dirty map equal to what is stored. -/
theorem unchanged_holds (h : Holds P S B v f) (hideal : P.Ideal S) (ha : Addressed P S B)
    (hd : DirtyOk v) (hs : view.Sound B) (hS : ∀ b ∈ v.hashed P view force, b ∈ S)
    {uploads : List (Hash × Bytes)} (hplan : v.plan P view force = .ok (v.root.pages, uploads)) :
    Holds P S B { v with dirty := ∅ } (v.over f) := by
  have hpl := plan_ok h hideal ha hd hs hS hplan
  -- The objects are not uploaded here, but they could be: loads are monotone.
  obtain ⟨Bu, hput⟩ := putChunks_succeeds (s := v.space) hideal ha hpl.digests
  obtain ⟨hg, hst⟩ := putChunks_ok hput
  have hsrc : SameSource v { v with dirty := ∅ } := ⟨rfl, rfl, rfl, rfl, rfl⟩
  have hclean := h.of_same hsrc rfl
  have hsame : ∀ i < v.chunkCount, f i = v.over f i := by
    intro i hi
    have h1 := hpl.loads hg.le (hg.addressed ha hpl.digests) hst hsrc rfl i hi
    have h2 := (hclean.mono hg.le).loads i hi
    exact Except.ok.inj (h2.symm.trans h1)
  refine ⟨hclean.wellFormed, hclean.base, fun i hi => ?_, fun i hi => ?_, hclean.basePages,
    hclean.baseChunks⟩
  · rw [← hsame i hi]
    exact hclean.loads i hi
  · rw [← hsame i hi]
    exact h.known i hi

end Committed

end AgentHouse.Volume
