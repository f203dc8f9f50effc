import AgentHouse.Volume.Creating

/-!
# Operations on an open volume

`Moves` states what an operation without a write does to a handle and its head: the handle
shows the same chunks as before, and the head stores them if the operation published, and is
unchanged otherwise. All commits move a handle in this sense as long as no reply is lost.
-/

namespace AgentHouse.Volume

open IndexedVolume

section Moves

variable {P : Platform} {S : Set Bytes} {B B' B'' : Bucket} {v v' v'' : IndexedVolume}
  {f f' f'' : ℕ → Bytes}

/-- An operation that writes nothing, seen from the handle and from its head. -/
structure Moves (P : Platform) (S : Set Bytes) (B : Bucket) (v : IndexedVolume) (f : ℕ → Bytes)
    (B' : Bucket) (v' : IndexedVolume) (f' : ℕ → Bytes) : Prop where
  head : HeadOf P S B' v' f'
  addressed : Addressed P S B'
  le : B.Le B'
  dirty : DirtyOk v'
  store : v'.store = v.store
  volume : v'.root.volume = v.root.volume
  size : v'.root.size = v.root.size
  generation_le : v.root.generation ≤ v'.root.generation
  shows : ∀ i < v.chunkCount, v'.over f' i = v.over f i
  stored : ∀ i < v.chunkCount, f' i =
    if v'.root.generation = v.root.generation then f i else v.over f i

theorem Moves.refl (h : HeadOf P S B v f) (ha : Addressed P S B) (hd : DirtyOk v) :
    Moves P S B v f B v f :=
  ⟨h, ha, Bucket.Le.refl B, hd, rfl, rfl, rfl, le_refl _, fun _ _ => rfl,
    fun _ _ => (if_pos rfl).symm⟩

/-- Moves compose. -/
theorem Moves.trans (h : Moves P S B v f B' v' f') (h' : Moves P S B' v' f' B'' v'' f'') :
    Moves P S B v f B'' v'' f'' := by
  have hcount : v'.chunkCount = v.chunkCount := by rw [chunkCount, h.size, chunkCount]
  have hle := h.generation_le
  have hle' := h'.generation_le
  refine ⟨h'.head, h'.addressed, h.le.trans h'.le, h'.dirty, h'.store.trans h.store,
    h'.volume.trans h.volume, h'.size.trans h.size, hle.trans hle', ?_, ?_⟩
  · intro i hi
    rw [h'.shows i (by rw [hcount]; exact hi), h.shows i hi]
  · intro i hi
    rw [h'.stored i (by rw [hcount]; exact hi), h.stored i hi, h.shows i hi]
    by_cases h1 : v'.root.generation = v.root.generation
    · rw [if_pos h1, h1]
    · rw [if_neg h1, if_neg (show ¬ v''.root.generation = v.root.generation by omega)]
      split <;> rfl

/-- A commit moves the handle. -/
theorem HeadOf.outcome {view : View} {d : Delivery} {next : Root} {force : Bool} {res : Result ℕ}
    (h : HeadOf P S B v f) (hideal : P.Ideal S) (ha : Addressed P S B) (hd : DirtyOk v)
    (hs : view.Sound B) (hS : ∀ b ∈ v.hashed P view force, b ∈ S) (hc : Continues v next)
    (hgen : next.generation = v.root.generation) (hdel : d = .delivered)
    (ho : Outcome P B view d v next force B' v' res) :
    ∃ f', Moves P S B v f B' v' f' ∧ v'.root.ready = v.root.ready ∧
      ((∃ g, res = .ok g) → v'.dirty = ∅) ∧ ((∃ e, res = .error e) → v'.dirty = v.dirty) := by
  cases ho with
  | @failed _ _ e uploads hplan hg hv =>
    have hdig : Digests P S uploads := by
      rcases hplan with rfl | ⟨pages, hplan⟩
      · exact fun o ho => by cases ho
      · exact (plan_ok h.holds hideal ha hd hs hS hplan).digests
    have hgrow := h.grows hg.le hg.heads
    refine ⟨f, ?_⟩
    rcases hv with rfl | rfl
    · exact ⟨⟨hgrow, hg.addressed ha hdig, hg.le, hd, rfl, rfl, rfl, le_refl _,
        fun _ _ => rfl, fun _ _ => (if_pos rfl).symm⟩, rfl, fun hc => absurd hc Result.not_ok,
        fun _ => rfl⟩
    · exact ⟨⟨hgrow.of_same rfl rfl rfl rfl, hg.addressed ha hdig, hg.le, hd, rfl, rfl, rfl,
        le_refl _, fun _ _ => rfl, fun _ _ => (if_pos rfl).symm⟩, rfl,
        fun hc => absurd hc Result.not_ok, fun _ => rfl⟩
  | unchanged hplan hmark =>
    have hh := unchanged_holds h.holds hideal ha hd hs hS hplan
    have hsrc : SameSource v { v with dirty := ∅ } := ⟨rfl, rfl, rfl, rfl, rfl⟩
    have hclean : ∀ g : ℕ → Bytes, IndexedVolume.over { v with dirty := ∅ } g = g := by
      intro g
      funext i
      simp [IndexedVolume.over]
    refine ⟨v.over f, ⟨?_, ha, Bucket.Le.refl B, ?_, rfl, rfl, rfl, le_refl _, ?_, ?_⟩, rfl,
      fun _ => rfl, fun hc => absurd hc Result.not_error⟩
    · exact ⟨h.head, hh, h.valid, h.client, h.readable, h.revision_ne, h.owned_ready⟩
    · intro i b hb
      simp at hb
    · intro i _
      rw [hclean]
    · intro i hi
      rw [if_pos rfl]
      exact h.holds.unique hh hsrc rfl hi
  | @published _ r hp =>
    have hhead := h.publishes hp hideal ha hd hs hS hc
    obtain ⟨hle, ha', -⟩ := hp.holds h.holds hideal ha hd hs hS hc v.revision
    obtain ⟨Bu, hprep, -⟩ := hp.prepares
    obtain ⟨pages, uploads, generation, -, hadd, rfl, -⟩ := hprep.plan
    have hg : generation = v.root.generation + 1 := by
      unfold checkedAdd at hadd
      split at hadd
      · rw [← hgen]
        exact (Option.some.inj hadd).symm
      · cases hadd
    refine ⟨v.over f, ⟨hhead, ha', hle, ?_, rfl, hc.volume, hc.size, ?_, ?_, ?_⟩, hc.ready,
      fun _ => rfl, fun hc => absurd hc Result.not_error⟩
    · intro i b hb
      simp at hb
    · simp only [published]
      omega
    · intro i _
      simp [IndexedVolume.over]
    · intro i _
      rw [if_neg]
      simp only [published]
      omega
  | lost hp hl => cases hl.symm.trans hdel
  | delayed hp hl => cases hl.symm.trans hdel

/-- `commit_inner` moves the handle. -/
theorem HeadOf.commitInner {φ : Faults} {mark : Option Replication} {res : Result ℕ}
    (h : HeadOf P S B v f) (hideal : P.Ideal S) (ha : Addressed P S B) (hd : DirtyOk v)
    (hs : (φ.view B).Sound B) (hS : ∀ b ∈ v.hashed P (φ.view B) false, b ∈ S)
    (hm : ∀ m, mark = some m → m.id.length = 32 ∧ m.sequence ≠ 0)
    (hdel : φ.delivery = .delivered) (hok : v.commitInner P B φ mark = (B', v', res)) :
    ∃ f', Moves P S B v f B' v' f' ∧ v'.root.ready = v.root.ready ∧
      ((∃ g, res = .ok g) → v'.dirty = ∅) ∧ ((∃ e, res = .error e) → v'.dirty = v.dirty) := by
  have hsame : Moves P S B v f B v f := Moves.refl h ha hd
  unfold IndexedVolume.commitInner at hok
  split at hok
  · obtain ⟨rfl, rfl, rfl⟩ := by simpa using hok
    exact ⟨f, hsame, rfl, fun hc => absurd hc Result.not_ok, fun _ => rfl⟩
  · split at hok
    · rename_i hempty
      obtain ⟨rfl, rfl, rfl⟩ := by simpa using hok
      exact ⟨f, hsame, rfl, fun _ => Std.ExtTreeMap.isEmpty_iff.mp hempty.1, fun _ => rfl⟩
    · split at hok
      · obtain ⟨rfl, rfl, rfl⟩ := by simpa using hok
        exact ⟨f, hsame, rfl, fun hc => absurd hc Result.not_ok, fun _ => rfl⟩
      · have hgen : (v.nextRoot mark).generation = v.root.generation := by
          cases mark <;> rfl
        exact h.outcome hideal ha hd hs hS (continues_nextRoot h.holds.rootOk hm) hgen hdel
          (commitFrom_outcome hok)

end Moves

section Operations

variable {P : Platform} {S : Set Bytes} {B B' : Bucket} {v v' : IndexedVolume} {f : ℕ → Bytes}
  {φ : Faults} {res : Result ℕ}

/-- During a call the store answers truthfully, if at all, and publications are delivered
with their reply. Reads, uploads and the deadline may still fail. -/
structure Faults.Fair (φ : Faults) : Prop where
  sound : ∀ B, (φ.view B).Sound B
  delivered : φ.delivery = .delivered

/-- Everything that a commit of the handle digests is among the known byte strings. -/
def Faults.Known (P : Platform) (S : Set Bytes) (φ : Faults) (B : Bucket) (v : IndexedVolume) :
    Prop := ∀ b ∈ v.hashed P (φ.view B) false, b ∈ S

/-- The chunks of a write do not fit into the dirty map. -/
def IndexedVolume.Overflows (v : IndexedVolume) (offset len : ℕ) : Prop :=
  v.dirtyBytes + v.extraChunks offset len * chunkBytes > dirtyLimit

/-- A commit moves the head to what the volume held. -/
theorem HeadOf.commit (h : HeadOf P S B v f) (hideal : P.Ideal S) (ha : Addressed P S B)
    (hd : DirtyOk v) (hf : φ.Fair) (hS : φ.Known P S B v) (hok : v.commit P B φ = (B', v', res)) :
    ∃ f', Moves P S B v f B' v' f' ∧ v'.root.ready = v.root.ready ∧
      ((∃ g, res = .ok g) → v'.dirty = ∅) ∧ ((∃ e, res = .error e) → v'.dirty = v.dirty) := by
  unfold IndexedVolume.commit at hok
  split at hok
  · obtain ⟨rfl, rfl, rfl⟩ := by simpa using hok
    exact ⟨f, Moves.refl h ha hd, rfl, fun hc => absurd hc Result.not_ok, fun _ => rfl⟩
  · exact h.commitInner hideal ha hd (hf.sound B) hS (fun m hm => by cases hm)
      hf.delivered hok

/-- So does the commit of a replication. -/
theorem HeadOf.commitReplication {mark : Replication} (h : HeadOf P S B v f)
    (hideal : P.Ideal S) (ha : Addressed P S B) (hd : DirtyOk v) (hf : φ.Fair)
    (hS : φ.Known P S B v)
    (hok : v.commitReplication P B φ mark = (B', v', res)) :
    ∃ f', Moves P S B v f B' v' f' ∧ v'.root.ready = v.root.ready ∧
      ((∃ g, res = .ok g) → v'.dirty = ∅) ∧ ((∃ e, res = .error e) → v'.dirty = v.dirty) := by
  unfold IndexedVolume.commitReplication at hok
  split at hok
  · obtain ⟨rfl, rfl, rfl⟩ := by simpa using hok
    exact ⟨f, Moves.refl h ha hd, rfl, fun hc => absurd hc Result.not_ok, fun _ => rfl⟩
  · rename_i hvalid
    simp only [not_or, validHash, Bool.not_eq_false, beq_iff_eq] at hvalid
    refine h.commitInner hideal ha hd (hf.sound B) hS ?_ hf.delivered hok
    intro m hm
    obtain rfl := Option.some.inj hm
    exact hvalid

/-- And the commit of an import. -/
theorem HeadOf.commitImport (h : HeadOf P S B v f) (hideal : P.Ideal S) (ha : Addressed P S B)
    (hd : DirtyOk v) (hf : φ.Fair) (hS : φ.Known P S B v)
    (hok : v.commitImport P B φ = (B', v', res)) :
    ∃ f', Moves P S B v f B' v' f' ∧ v'.root.ready = v.root.ready ∧
      ((∃ g, res = .ok g) → v'.dirty = ∅) ∧ ((∃ e, res = .error e) → v'.dirty = v.dirty) := by
  unfold IndexedVolume.commitImport at hok
  split at hok
  · obtain ⟨rfl, rfl, rfl⟩ := by simpa using hok
    exact ⟨f, Moves.refl h ha hd, rfl, fun hc => absurd hc Result.not_ok, fun _ => rfl⟩
  · exact h.commitInner hideal ha hd (hf.sound B) hS (fun m hm => by cases hm)
      hf.delivered hok

/-- Publishing the same pages as ready moves the handle. -/
private theorem HeadOf.publishReady {generation : ℕ} (h : HeadOf P S B v f)
    (ha : Addressed P S B) (hdirty : v.dirty = ∅) (hdel : φ.delivery = .delivered)
    (hgen : generation = v.root.generation + 1)
    (hok : v.publish P B φ { v.root with ready := true, generation := generation } =
      (B', v', res)) :
    Moves P S B v f B' v' f ∧ ((∃ g, res = .ok g) → v'.root.ready = true ∧ v'.dirty = ∅) := by
  have hd : DirtyOk v := fun i b hb => by rw [hdirty] at hb; simp at hb
  have hover : v.over f = f := by
    funext i
    simp [IndexedVolume.over, hdirty]
  rcases publish_cases hok with
    ⟨rfl, hv, e, rfl⟩ | ⟨⟨hread, hown⟩, ⟨hlost, -⟩ | ⟨hr, ⟨rfl, rfl⟩ | ⟨hlost, -⟩⟩⟩
  · refine ⟨?_, fun hc => absurd hc Result.not_ok⟩
    rcases hv with rfl | rfl
    · exact Moves.refl h ha hd
    · exact ⟨h.of_same rfl rfl rfl rfl, ha, Bucket.Le.refl _, hd, rfl, rfl, rfl, le_refl _,
        fun _ _ => rfl, fun _ _ => (if_pos rfl).symm⟩
  · cases hlost.symm.trans hdel
  · obtain ⟨hB, -⟩ := hr
    have hle : B.Le B' := by rw [hB]; exact Bucket.le_replace P B _ _
    have hroot : RootOk { v.root with ready := true, generation := generation } := by
      have hv := h.holds.rootOk
      exact ⟨hv.size_pos, hv.size_le, hv.size_mod, hv.format, hv.marked, hv.based, hv.mark_ok,
        hv.pages_ok⟩
    have hsrc : SameSource v
        { v with
          root := { v.root with ready := true, generation := generation }
          revision := P.tag B.published
            (v.store.wrap { v.root with ready := true, generation := generation })
          dirty := ∅ } := ⟨rfl, rfl, rfl, rfl, rfl⟩
    refine ⟨⟨⟨?_, (h.holds.mono hle).of_pages hsrc rfl hroot, h.valid, h.client, hread,
      P.tag_ne_empty _ _, fun _ _ => rfl⟩, ?_, hle, ?_, rfl, rfl, rfl, ?_, ?_, ?_⟩,
      fun _ => ⟨rfl, rfl⟩⟩
    · rw [hB]
      exact Bucket.replace_heads_self P B _ _
    · rw [hB]
      exact ha
    · intro i b hb
      simp at hb
    · simp only
      omega
    · intro i _
      rw [hover]
      simp [IndexedVolume.over]
    · intro i _
      rw [hover]
      simp
  · cases hlost.symm.trans hdel

/-- Finishing an import moves the handle. -/
theorem HeadOf.finishImport {φ' : Faults} (h : HeadOf P S B v f) (hideal : P.Ideal S)
    (ha : Addressed P S B) (hd : DirtyOk v) (hf : φ.Fair) (hS : φ.Known P S B v)
    (hdel : φ'.delivery = .delivered)
    (hok : v.finishImport P B φ φ' = (B', v', res)) :
    ∃ f', Moves P S B v f B' v' f' ∧
      ((∃ g, res = .ok g) → v'.root.ready = true ∧ v'.dirty = ∅) := by
  unfold IndexedVolume.finishImport at hok
  cases hcm : v.commit P B φ with
  | mk B1 rest =>
    obtain ⟨v1, r1⟩ := rest
    obtain ⟨f1, hm, -, hdirty, -⟩ := h.commit hideal ha hd hf hS hcm
    rw [hcm] at hok
    cases r1 with
    | error e =>
      obtain ⟨rfl, rfl, rfl⟩ := by simpa using hok
      exact ⟨f1, hm, fun hc => absurd hc Result.not_ok⟩
    | ok g =>
      simp only at hok
      split at hok
      · obtain ⟨rfl, rfl, rfl⟩ := by simpa using hok
        exact ⟨f1, hm, fun hc => absurd hc Result.not_ok⟩
      · split at hok
        · obtain ⟨rfl, rfl, rfl⟩ := by simpa using hok
          exact ⟨f1, hm, fun hc => absurd hc Result.not_ok⟩
        · rename_i generation hadd
          split at hok
          · obtain ⟨rfl, rfl, rfl⟩ := by simpa using hok
            exact ⟨f1, hm, fun hc => absurd hc Result.not_ok⟩
          · have hgen : generation = v1.root.generation + 1 := by
              unfold checkedAdd at hadd
              split at hadd
              · exact (Option.some.inj hadd).symm
              · cases hadd
            obtain ⟨hm', hok'⟩ := hm.head.publishReady hm.addressed (hdirty ⟨g, rfl⟩)
              hdel hgen hok
            exact ⟨f1, hm.trans hm', hok'⟩

/-- A write commits first if its chunks do not fit, and then buffers them. -/
theorem HeadOf.write {offset : ℕ} {input : Bytes} {res : Result Unit} (h : HeadOf P S B v f)
    (hideal : P.Ideal S) (ha : Addressed P S B) (hd : DirtyOk v) (hf : φ.Fair)
    (hS : v.Overflows offset input.length → φ.Known P S B v)
    (hok : v.write P B φ offset input = (B', v', res)) :
    ∃ v1 f', Moves P S B v f B' v1 f' ∧
      ((v' = v1 ∧ ((∃ e, res = .error e) ∨ input = [])) ∨
        (res = .ok () ∧ offset + input.length ≤ v.root.size ∧
          v1.buffer P (φ.view B') offset input = (v', .ok ()))) := by
  have hsame : Moves P S B v f B v f := Moves.refl h ha hd
  have hbuf : ∀ {w w' : IndexedVolume} {r : Result Unit} {view : View},
      w.buffer P view offset input = (w', r) →
        (w' = w ∧ ∃ e, r = .error e) ∨ r = .ok () := by
    intro w w' r view hb
    unfold IndexedVolume.buffer at hb
    split at hb
    · obtain ⟨rfl, rfl⟩ := Prod.mk.inj hb
      exact Or.inl ⟨rfl, _, rfl⟩
    · obtain ⟨-, rfl⟩ := Prod.mk.inj hb
      exact Or.inr rfl
  unfold IndexedVolume.write at hok
  split at hok
  · obtain ⟨rfl, rfl, rfl⟩ := by simpa using hok
    exact ⟨v, f, hsame, Or.inl ⟨rfl, Or.inl ⟨_, rfl⟩⟩⟩
  · rename_i hcheck
    have hrange := (check_ok hcheck).2
    split at hok
    · obtain ⟨rfl, rfl, rfl⟩ := by simpa using hok
      exact ⟨v, f, hsame, Or.inl ⟨rfl, Or.inl ⟨_, rfl⟩⟩⟩
    · split at hok
      · rename_i hnil
        obtain ⟨rfl, rfl, rfl⟩ := by simpa using hok
        exact ⟨v, f, hsame, Or.inl ⟨rfl, Or.inr hnil⟩⟩
      · split at hok
        · rename_i hover
          cases hcm : v.commit P B φ with
          | mk B1 rest =>
            obtain ⟨v1, r1⟩ := rest
            obtain ⟨f1, hm, -, -, -⟩ := h.commit hideal ha hd hf (hS hover) hcm
            rw [hcm] at hok
            cases r1 with
            | error e =>
              obtain ⟨rfl, rfl, rfl⟩ := by simpa using hok
              exact ⟨v1, f1, hm, Or.inl ⟨rfl, Or.inl ⟨_, rfl⟩⟩⟩
            | ok g =>
              obtain ⟨rfl, hb⟩ := Prod.mk.inj hok
              refine ⟨v1, f1, hm, ?_⟩
              rcases hbuf hb with ⟨rfl, he⟩ | rfl
              · exact Or.inl ⟨rfl, Or.inl he⟩
              · exact Or.inr ⟨rfl, hrange, hb⟩
        · obtain ⟨rfl, hb⟩ := Prod.mk.inj hok
          refine ⟨v, f, hsame, ?_⟩
          rcases hbuf hb with ⟨rfl, he⟩ | rfl
          · exact Or.inl ⟨rfl, Or.inl he⟩
          · exact Or.inr ⟨rfl, hrange, hb⟩

end Operations

end AgentHouse.Volume
