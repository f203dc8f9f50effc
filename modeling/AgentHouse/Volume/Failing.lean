import AgentHouse.Volume.Compact
import AgentHouse.Volume.Refinement

/-!
# Calls that fail

A call that returns an error leaves its handle alone, except that a refused or ambiguous
publication poisons it. `Fails` states this for one call, with what the error says about the
head: only `Uncertain` leaves open whether the head was replaced, and after `Deadline` the head
request was not sent. A write is different when it has to make room first: its own commit may
succeed before the write fails.
-/

namespace AgentHouse.Volume

open IndexedVolume

/-- The same outside world, but the head request is canceled before it is sent. -/
def Faults.canceled (φ : Faults) : Faults := { φ with delivery := .canceled }

/-- What a call that fails with `e` leaves behind. -/
structure Fails {α : Type} (B : Bucket) (v : IndexedVolume)
    (call : Faults → Bucket × IndexedVolume × Result α) (φ : Faults) (B' : Bucket)
    (v' : IndexedVolume) (e : Error) : Prop where
  handle : v' = v ∨ v' = { v with poisoned := true } ∧ (e = .conflict ∨ e = .uncertain)
  head : e ≠ .uncertain → B'.heads = B.heads ∧ B'.flights = B.flights
  objects : B.Le B'
  /-- To cancel the head request makes no difference, so that none was sent. -/
  unsent : e = .deadline → call φ = call φ.canceled

section Publishing

variable {P : Platform} {B B' : Bucket} {s : Space} {m : Manifest} {φ : Faults}
  {v v' : IndexedVolume} {e : Error}

/-- Only a canceled request fails with `Deadline`. -/
theorem transmit_deadline {expected : Option Revision} {d : Delivery}
    (h : transmit P B s expected m d = (B', .error .deadline)) : d = .canceled := by
  cases d with
  | canceled => rfl
  | requestLost | delayed =>
    simp only [transmit] at h
    cases (Prod.mk.inj h).2
  | replyLost | delivered =>
    simp only [transmit, Bucket.publish] at h
    split_ifs at h <;> cases (Prod.mk.inj h).2

/-- A request that failed changed nothing, or its outcome is uncertain. -/
theorem transmit_error {expected : Option Revision} {d : Delivery}
    (h : transmit P B s expected m d = (B', .error e)) :
    B.Le B' ∧ (e ≠ .uncertain → B' = B) ∧
      (e = .deadline → transmit P B s expected m .canceled = (B', .error e)) := by
  have hcases := transmit_cases h
  refine ⟨?_, ?_, ?_⟩
  · rcases hcases with ⟨rfl, -⟩ | ⟨-, rfl, -⟩ | ⟨-, rfl, -⟩
    · exact Bucket.Le.refl _
    · exact Bucket.Le.of_objects_eq rfl
    · exact Bucket.le_replace P B s m
  · intro he
    rcases hcases with ⟨rfl, -⟩ | ⟨-, -, hres⟩ | ⟨-, -, ⟨-, hres⟩ | ⟨-, hres⟩⟩
    · rfl
    · exact absurd (Except.error.inj hres) he
    · cases hres
    · exact absurd (Except.error.inj hres) he
  · rintro rfl
    rwa [transmit_deadline h] at h

/-- The same for a publication. -/
theorem Client.publish_error {view : View} {c : Client} {id : VolumeId}
    {expected : Option Revision} {r : Root} {d : Delivery}
    (h : c.publish P view B id expected r d = (B', .error e)) :
    B.Le B' ∧ (e ≠ .uncertain → B' = B) ∧
      (e = .deadline → c.publish P view B id expected r .canceled = (B', .error e)) := by
  have hsame : ∀ {e' : Error}, (B, Except.error e') = (B', (.error e : Result Revision)) →
      B.Le B' ∧ (e ≠ .uncertain → B' = B) := by
    intro e' heq
    obtain ⟨rfl, -⟩ := Prod.mk.inj heq
    exact ⟨Bucket.Le.refl B, fun _ => rfl⟩
  cases c with
  | raw bases => exact transmit_error h
  | owned i =>
    unfold Client.publish at h ⊢
    cases expected with
    | none => exact ⟨(hsame h).1, (hsame h).2, fun _ => h⟩
    | some rev =>
      simp only at h ⊢
      split at h
      · rename_i hid
        rw [if_pos hid]
        exact ⟨(hsame h).1, (hsame h).2, fun _ => h⟩
      · rename_i hid
        rw [if_neg hid]
        cases hdec : decodeEnvelope P view id ⟨rev, .root r⟩ with
        | error e' =>
          simp only [hdec] at h ⊢
          exact ⟨(hsame h).1, (hsame h).2, fun _ => h⟩
        | ok env =>
          simp only [hdec] at h ⊢
          cases henc : encodeEnvelope P { env with epoch := i.epoch, owner := some i.token } with
          | error e' =>
            simp only [henc] at h ⊢
            exact ⟨(hsame h).1, (hsame h).2, fun _ => h⟩
          | ok m =>
            simp only [henc] at h ⊢
            exact transmit_error h

/-- A publication fails by a conflict, or it is uncertain. -/
theorem publicationError_cases (e : Error) :
    e = .conflict ∧ publicationError e = .conflict ∨ publicationError e = .uncertain := by
  cases e <;> simp [publicationError]

/-- A publication only adds. -/
theorem publish_le {res : Result ℕ} {next : Root}
    (hok : v.publish P B φ next = (B', v', res)) : B.Le B' := by
  rcases publish_cases hok with ⟨rfl, -⟩ | ⟨-, ⟨-, rfl, -⟩ | ⟨hr, -⟩⟩
  · exact Bucket.Le.refl _
  · exact Bucket.Le.of_objects_eq rfl
  · rw [hr.bucket]
    exact Bucket.le_replace P B _ _

/-- A failed publication poisons the volume, or leaves it as it was. -/
theorem publish_fails {next : Root} (hok : v.publish P B φ next = (B', v', .error e)) :
    Fails B v (fun φ => v.publish P B φ next) φ B' v' e := by
  have hle := publish_le hok
  unfold IndexedVolume.publish at hok
  split at hok
  · rename_i hlarge
    obtain ⟨rfl, rfl, he⟩ := by simpa using hok
    refine ⟨.inl rfl, fun _ => ⟨rfl, rfl⟩, hle, fun _ => ?_⟩
    simp only [IndexedVolume.publish, if_pos hlarge]
  · rename_i hlarge
    cases hpub : v.store.publish P (φ.view B) B next.volume (some v.revision) next φ.delivery with
    | mk B1 answer =>
      rw [hpub] at hok
      cases answer with
      | ok rev =>
        simp only at hok
        split at hok
        · obtain ⟨rfl, rfl, rfl⟩ := by simpa using hok
          exact ⟨.inr ⟨rfl, .inr rfl⟩, fun hne => absurd rfl hne, hle, fun he => by cases he⟩
        · cases (Prod.mk.inj (Prod.mk.inj hok).2).2
      | error e1 =>
        obtain ⟨-, hB, hunsent⟩ := Client.publish_error hpub
        by_cases hdeadline : e1 = .deadline
        · -- The request was not sent.
          subst hdeadline
          obtain rfl := hB (fun h => by cases h)
          obtain ⟨rfl, rfl, rfl⟩ := by simpa using hok
          refine ⟨.inl rfl, fun _ => ⟨rfl, rfl⟩, hle, fun _ => ?_⟩
          simp only [IndexedVolume.publish, if_neg hlarge, hpub, Faults.canceled, hunsent rfl]
        · have hpoison : (B1, { v with poisoned := true }, .error (publicationError e1)) =
              (B', v', (.error e : Result ℕ)) := by
            cases e1 <;> first | exact hok | exact absurd rfl hdeadline
          obtain ⟨rfl, rfl, he⟩ : B1 = B' ∧ { v with poisoned := true } = v' ∧
              publicationError e1 = e := by simpa using hpoison
          subst he
          rcases publicationError_cases e1 with ⟨rfl, he⟩ | he
          · obtain rfl := hB (fun h => by cases h)
            rw [he]
            exact ⟨.inr ⟨rfl, .inl rfl⟩, fun _ => ⟨rfl, rfl⟩, hle, fun h => by cases h⟩
          · rw [he]
            exact ⟨.inr ⟨rfl, .inr rfl⟩, fun hne => absurd rfl hne, hle, fun h => by cases h⟩

end Publishing

section Committing

variable {P : Platform} {B B' : Bucket} {φ : Faults} {v v' : IndexedVolume} {e : Error}

/-- A call that gives up before it changes anything. -/
theorem fails_early {α : Type} {call : Faults → Bucket × IndexedVolume × Result α}
    (hcanceled : call φ = call φ.canceled) : Fails B v call φ B v e :=
  ⟨.inl rfl, fun _ => ⟨rfl, rfl⟩, Bucket.Le.refl B, fun _ => hcanceled⟩

/-- An upload only adds objects. -/
theorem uploadObjects_grows {space : Space} {uploads : List (Hash × Bytes)} {res : Result Unit}
    (hok : uploadObjects B φ space uploads = (B', res)) : Grows B B' space uploads := by
  unfold uploadObjects at hok
  split at hok
  · obtain ⟨rfl, -⟩ := Prod.mk.inj hok
    exact keepObjects_grows B space φ.kept uploads
  · split at hok
    · rename_i hput
      obtain ⟨rfl, -⟩ := Prod.mk.inj hok
      exact (putChunks_ok hput).1
    · obtain ⟨rfl, -⟩ := Prod.mk.inj hok
      exact keepObjects_grows B space φ.kept uploads

/-- The calls around the publication fail in the same way. -/
theorem finish_fails {next : Root} {uploads : List (Hash × Bytes)}
    (hok : v.finish P B φ next uploads = (B', v', .error e)) :
    Fails B v (fun φ => v.finish P B φ next uploads) φ B' v' e := by
  unfold IndexedVolume.finish at hok
  split at hok
  · cases (Prod.mk.inj (Prod.mk.inj hok).2).2
  · rename_i hchanged
    cases hup : uploadObjects B φ v.space uploads with
    | mk B1 res =>
      have hgrows := uploadObjects_grows hup
      have hup' : uploadObjects B φ.canceled v.space uploads = (B1, res) := hup
      rw [hup] at hok
      cases res with
      | error e1 =>
        obtain ⟨rfl, rfl, rfl⟩ := by simpa using hok
        refine ⟨.inl rfl, fun _ => ⟨hgrows.heads, hgrows.flights⟩, hgrows.le, fun _ => ?_⟩
        simp only [IndexedVolume.finish, if_neg hchanged, hup, hup']
      | ok _ =>
        have hfails := publish_fails hok
        refine ⟨hfails.handle, fun he => ?_, hgrows.le.trans hfails.objects, fun he => ?_⟩
        · rw [(hfails.head he).1, (hfails.head he).2]
          exact ⟨hgrows.heads, hgrows.flights⟩
        · simp only [IndexedVolume.finish, if_neg hchanged, hup, hup']
          exact hfails.unsent he

/-- A commit that fails. -/
theorem commitFrom_fails {next : Root} {force : Bool}
    (hok : v.commitFrom P B φ next force = (B', v', .error e)) :
    Fails B v (fun φ => v.commitFrom P B φ next force) φ B' v' e := by
  unfold IndexedVolume.commitFrom at hok
  cases hgen : checkedAdd next.generation 1 with
  | none =>
    simp only [hgen] at hok
    obtain ⟨rfl, rfl, -⟩ := by simpa using hok
    exact fails_early (by simp only [IndexedVolume.commitFrom, hgen])
  | some generation =>
    have hview : φ.canceled.view B = φ.view B := rfl
    simp only [hgen] at hok
    cases hplan : v.plan P (φ.view B) force with
    | error e1 =>
      simp only [hplan] at hok
      obtain ⟨rfl, rfl, -⟩ := by simpa using hok
      exact fails_early (by simp only [IndexedVolume.commitFrom, hgen, hview, hplan])
    | ok plan =>
      simp only [hplan] at hok
      have hfails := finish_fails hok
      refine ⟨hfails.handle, hfails.head, hfails.objects, fun he => ?_⟩
      simp only [IndexedVolume.commitFrom, hgen, hview, hplan]
      exact hfails.unsent he

theorem commitInner_fails {mark : Option Replication}
    (hok : v.commitInner P B φ mark = (B', v', .error e)) :
    Fails B v (fun φ => v.commitInner P B φ mark) φ B' v' e := by
  unfold IndexedVolume.commitInner at hok
  cases hcheck : v.check 0 0 with
  | error e1 =>
    simp only [hcheck] at hok
    obtain ⟨rfl, rfl, -⟩ := by simpa using hok
    exact fails_early (by simp only [IndexedVolume.commitInner, hcheck])
  | ok _ =>
    simp only [hcheck] at hok
    split at hok
    · cases (Prod.mk.inj (Prod.mk.inj hok).2).2
    · rename_i hclean
      have hexpired : φ.canceled.expired = φ.expired := rfl
      split at hok
      · rename_i hexp
        obtain ⟨rfl, rfl, -⟩ := by simpa using hok
        exact fails_early (by
          simp only [IndexedVolume.commitInner, hcheck, hexpired, if_neg hclean, if_pos hexp])
      · rename_i hexp
        have hfails := commitFrom_fails hok
        refine ⟨hfails.handle, hfails.head, hfails.objects, fun he => ?_⟩
        simp only [IndexedVolume.commitInner, hcheck, hexpired, if_neg hclean, if_neg hexp]
        exact hfails.unsent he

theorem commit_fails (hok : v.commit P B φ = (B', v', .error e)) :
    Fails B v (fun φ => v.commit P B φ) φ B' v' e := by
  unfold IndexedVolume.commit at hok ⊢
  split at hok
  · rename_i hmarked
    obtain ⟨rfl, rfl, -⟩ := by simpa using hok
    exact fails_early (by simp only [if_pos hmarked])
  · rename_i hmarked
    simp only [if_neg hmarked]
    exact commitInner_fails hok

theorem commitReplication_fails {mark : Replication}
    (hok : v.commitReplication P B φ mark = (B', v', .error e)) :
    Fails B v (fun φ => v.commitReplication P B φ mark) φ B' v' e := by
  unfold IndexedVolume.commitReplication at hok ⊢
  split at hok
  · rename_i hinvalid
    obtain ⟨rfl, rfl, -⟩ := by simpa using hok
    exact fails_early (by simp only [if_pos hinvalid])
  · rename_i hinvalid
    simp only [if_neg hinvalid]
    exact commitInner_fails hok

theorem commitImport_fails (hok : v.commitImport P B φ = (B', v', .error e)) :
    Fails B v (fun φ => v.commitImport P B φ) φ B' v' e := by
  unfold IndexedVolume.commitImport at hok ⊢
  split at hok
  · rename_i hinvalid
    obtain ⟨rfl, rfl, -⟩ := by simpa using hok
    exact fails_early (by simp only [if_pos hinvalid])
  · rename_i hinvalid
    simp only [if_neg hinvalid]
    exact commitInner_fails hok

/-- A pass that fails has staged chunks, and has left everything else alone. -/
theorem compactPacksInner_fails {after : Option CompactionCursor} {budget : ℕ}
    (hok : v.compactPacksInner P B φ after budget = (B', v', .error e)) :
    ∃ dirty, Fails B { v with dirty := dirty }
      (fun φ => v.compactPacksInner P B φ after budget) φ B' v' e := by
  have hview : φ.canceled.view B = φ.view B := rfl
  have hexpired : φ.canceled.expired = φ.expired := rfl
  unfold IndexedVolume.compactPacksInner at hok ⊢
  by_cases hcursor : after.any (fun cursor => decide (cursor.page ≥ pageCount v.root.size) ||
      cursor.afterPack.any (fun hash => !validHash hash)) = true
  · simp only [if_pos hcursor] at hok ⊢
    obtain ⟨rfl, rfl, -⟩ := by simpa using hok
    exact ⟨v.dirty, fails_early rfl⟩
  by_cases hbudget : budget < 2 * maxObjectBytes ∨ budget > 8 * maxObjectBytes
  · simp only [if_neg hcursor, if_pos hbudget] at hok ⊢
    obtain ⟨rfl, rfl, -⟩ := by simpa using hok
    exact ⟨v.dirty, fails_early rfl⟩
  by_cases hpacked : v.packed = false
  · simp only [if_neg hcursor, if_neg hbudget, if_pos hpacked] at hok
    cases (Prod.mk.inj (Prod.mk.inj hok).2).2
  simp only [if_neg hcursor, if_neg hbudget, if_neg hpacked] at hok ⊢
  cases hpage : v.pageFromCursor after with
  | none =>
    simp only [hpage] at hok
    cases (Prod.mk.inj (Prod.mk.inj hok).2).2
  | some pageIndex =>
    simp only [hpage] at hok ⊢
    by_cases hexp : φ.expired = true
    · simp only [if_pos hexp] at hok
      obtain ⟨rfl, rfl, -⟩ := by simpa using hok
      exact ⟨v.dirty, fails_early (by simp only [hexpired, if_pos hexp])⟩
    simp only [if_neg hexp] at hok
    cases hstage : v.stageCompaction P (φ.view B) after budget pageIndex with
    | error e1 =>
      simp only [hstage] at hok
      obtain ⟨rfl, rfl, -⟩ := by simpa using hok
      exact ⟨v.dirty, fails_early (by simp only [hexpired, if_neg hexp, hview, hstage])⟩
    | ok staged =>
      simp only [hstage] at hok
      split at hok
      · cases (Prod.mk.inj (Prod.mk.inj hok).2).2
      · rename_i hsome
        cases hcm : IndexedVolume.commitFrom P B φ { v with dirty := staged.dirty } v.root true with
        | mk B1 rest =>
          obtain ⟨v1, res1⟩ := rest
          rw [hcm] at hok
          cases res1 with
          | ok g => cases (Prod.mk.inj (Prod.mk.inj hok).2).2
          | error e1 =>
            obtain ⟨rfl, rfl, rfl⟩ := by simpa using hok
            have hfails := commitFrom_fails hcm
            refine ⟨staged.dirty, hfails.handle, hfails.head, hfails.objects, fun he => ?_⟩
            have hunsent := hfails.unsent he
            simp only [hexpired, hexp, hview, hstage, hsome, hunsent]

/-- A compaction that fails. -/
theorem compactPacks_fails {after : Option CompactionCursor} {budget : ℕ}
    (hok : v.compactPacks P B φ after budget = (B', v', .error e)) :
    Fails B v (fun φ => v.compactPacks P B φ after budget) φ B' v' e := by
  unfold IndexedVolume.compactPacks at hok ⊢
  cases hcheck : v.check 0 0 with
  | error e1 =>
    simp only [hcheck] at hok ⊢
    obtain ⟨rfl, rfl, -⟩ := by simpa using hok
    exact fails_early rfl
  | ok _ =>
    simp only [hcheck] at hok ⊢
    split at hok
    · rename_i hdirty
      obtain ⟨rfl, rfl, -⟩ := by simpa using hok
      exact fails_early (by simp only [if_pos hdirty])
    · rename_i hdirty
      have hclean : v.dirty = ∅ := Std.ExtTreeMap.isEmpty_iff.mp (by simpa using hdirty)
      have hself : ∀ dirty, { { v with dirty := dirty } with dirty := ∅ } = v := by
        intro dirty
        rw [← hclean]
      cases hin : v.compactPacksInner P B φ after budget with
      | mk B1 rest =>
        obtain ⟨v1, res1⟩ := rest
        rw [hin] at hok
        cases res1 with
        | ok c => cases (Prod.mk.inj (Prod.mk.inj hok).2).2
        | error e1 =>
          obtain ⟨rfl, rfl, rfl⟩ := by simpa using hok
          obtain ⟨dirty, hfails⟩ := compactPacksInner_fails hin
          refine ⟨?_, hfails.head, hfails.objects, fun he => ?_⟩
          · rcases hfails.handle with rfl | ⟨rfl, he⟩
            · exact .inl (hself dirty)
            · refine .inr ⟨?_, he⟩
              rw [← hself dirty]
          · simp only [if_neg hdirty]
            rw [hin, ← hfails.unsent he, hin]

/-- A write that cannot buffer its chunks passes on the error of a load. -/
theorem buffer_fails {view : View} {offset : ℕ} {input : Bytes}
    (hok : v.buffer P view offset input = (v', .error e)) :
    v' = v ∧ ∃ i, v.load P view i = .error e := by
  unfold IndexedVolume.buffer at hok
  split at hok
  · rename_i e1 hloop
    obtain ⟨rfl, he⟩ := Prod.mk.inj hok
    obtain rfl := Except.error.inj he
    obtain ⟨pending, s, -, hstage⟩ := foldlM_error hloop
    refine ⟨rfl, s.index, ?_⟩
    unfold IndexedVolume.stageWrite IndexedVolume.writtenChunk at hstage
    by_cases hwhole : s.within = 0 ∧ s.count = chunkBytes
    · simp only [if_pos hwhole] at hstage
      cases hstage
    · simp only [if_neg hwhole] at hstage
      cases hload : v.load P view s.index with
      | error e2 =>
        simp only [hload] at hstage
        rw [Except.error.inj hstage]
      | ok bytes =>
        simp only [hload] at hstage
        cases hstage
  · cases (Prod.mk.inj hok).2

/-- A write fails like the other calls, or after its own commit. -/
theorem write_fails {offset : ℕ} {input : Bytes}
    (hok : v.write P B φ offset input = (B', v', .error e)) :
    Fails B v (fun φ => v.write P B φ offset input) φ B' v' e ∨
      v.Overflows offset input.length ∧ (∃ g, v.commit P B φ = (B', v', .ok g)) ∧
        ∃ i, v'.load P (φ.view B') i = .error e := by
  unfold IndexedVolume.write at hok ⊢
  cases hcheck : v.check offset input.length with
  | error e1 =>
    simp only [hcheck] at hok ⊢
    obtain ⟨rfl, rfl, -⟩ := by simpa using hok
    exact .inl (fails_early rfl)
  | ok _ =>
    simp only [hcheck] at hok ⊢
    by_cases hlarge : input.length > writeLimit
    · simp only [if_pos hlarge] at hok ⊢
      obtain ⟨rfl, rfl, -⟩ := by simpa using hok
      exact .inl (fails_early rfl)
    by_cases hnil : input = []
    · simp only [if_neg hlarge, if_pos hnil] at hok
      cases (Prod.mk.inj (Prod.mk.inj hok).2).2
    by_cases hover : v.dirtyBytes + v.extraChunks offset input.length * chunkBytes > dirtyLimit
    · simp only [if_neg hlarge, if_neg hnil, if_pos hover] at hok ⊢
      cases hcm : v.commit P B φ with
      | mk B1 rest =>
        obtain ⟨v1, res1⟩ := rest
        rw [hcm] at hok
        cases res1 with
        | error e1 =>
          obtain ⟨rfl, rfl, rfl⟩ := by simpa using hok
          have hfails := commit_fails hcm
          refine .inl ⟨hfails.handle, hfails.head, hfails.objects, fun he => ?_⟩
          have hunsent := hfails.unsent he
          simp only [← hunsent, hcm]
        | ok g =>
          obtain ⟨rfl, hbuf⟩ := Prod.mk.inj hok
          obtain ⟨rfl, hload⟩ := buffer_fails hbuf
          exact .inr ⟨hover, ⟨g, rfl⟩, hload⟩
    · simp only [if_neg hlarge, if_neg hnil, if_neg hover] at hok ⊢
      obtain ⟨rfl, hbuf⟩ := Prod.mk.inj hok
      obtain ⟨rfl, -⟩ := buffer_fails hbuf
      exact .inl (fails_early rfl)

end Committing

section Stays

variable {P : Platform} {S : Set Bytes} {B B' B'' : Bucket} {φ : Faults}
  {v v' v'' : IndexedVolume} {f f' f'' : ℕ → Bytes}

/-- A handle after a call that writes nothing shows what it showed before. -/
structure Stays (P : Platform) (S : Set Bytes) (B : Bucket) (v : IndexedVolume) (f : ℕ → Bytes)
    (B' : Bucket) (v' : IndexedVolume) (f' : ℕ → Bytes) : Prop where
  holds : Holds P S B' v' f'
  addressed : Addressed P S B'
  objects : B.Le B'
  dirty : DirtyOk v'
  size : v'.root.size = v.root.size
  shows : ∀ i < v.chunkCount, v'.over f' i = v.over f i

theorem Stays.refl (h : Holds P S B v f) (ha : Addressed P S B) (hd : DirtyOk v) :
    Stays P S B v f B v f :=
  ⟨h, ha, Bucket.Le.refl B, hd, rfl, fun _ _ => rfl⟩

/-- Whatever becomes of a commit, the handle shows the same chunks. -/
theorem Holds.outcome {view : View} {d : Delivery} {next : Root} {force : Bool} {res : Result ℕ}
    (h : Holds P S B v f) (hideal : P.Ideal S) (ha : Addressed P S B) (hd : DirtyOk v)
    (hs : view.Sound B) (hS : ∀ b ∈ v.hashed P view force, b ∈ S) (hc : Continues v next)
    (ho : Outcome P B view d v next force B' v' res) : ∃ f', Stays P S B v f B' v' f' := by
  have hpoisoned : SameSource v { v with poisoned := true } := ⟨rfl, rfl, rfl, rfl, rfl⟩
  cases ho with
  | @failed _ _ e uploads hplan hg hv =>
    have hdigests : Digests P S uploads := by
      rcases hplan with rfl | ⟨pages, hplan⟩
      · exact fun o ho => absurd ho List.not_mem_nil
      · exact (plan_ok h hideal ha hd hs hS hplan).digests
    have hmono := h.mono hg.le
    have haddressed := hg.addressed ha hdigests
    rcases hv with rfl | rfl
    · exact ⟨f, hmono, haddressed, hg.le, hd, rfl, fun _ _ => rfl⟩
    · exact ⟨f, hmono.of_same hpoisoned rfl, haddressed, hg.le, hd, rfl, fun _ _ => rfl⟩
  | unchanged hplan hmark =>
    have hh := unchanged_holds h hideal ha hd hs hS hplan
    refine ⟨v.over f, hh, ha, Bucket.Le.refl B, dirtyOk_empty rfl, rfl, fun i _ => ?_⟩
    rw [over_empty rfl]
  | @published _ r hp =>
    obtain ⟨hle, haddressed, hh⟩ := hp.holds h hideal ha hd hs hS hc
      (P.tag B.published (v.store.wrap r))
    obtain ⟨Bu, hprep, -⟩ := hp.prepares
    obtain ⟨pages, uploads, generation, -, -, rfl, -⟩ := hprep.plan
    refine ⟨v.over f, hh, haddressed, hle, dirtyOk_empty rfl, hc.size, fun i _ => ?_⟩
    rw [over_empty rfl]
  | lost hp hl =>
    obtain ⟨hle, haddressed, -⟩ := hp.holds h hideal ha hd hs hS hc v.revision
    exact ⟨f, (h.mono hle).of_same hpoisoned rfl, haddressed, hle, hd, rfl, fun _ _ => rfl⟩
  | @delayed Bu r hp hl =>
    obtain ⟨⟨uploads, hg⟩, haddressed, -⟩ := hp.holds h hideal ha hd hs hS hc v.revision
    have hle : B.Le (Bu.send (v.request r)) := hg.le.trans (Bucket.Le.of_objects_eq rfl)
    exact ⟨f, (h.mono hle).of_same hpoisoned rfl, haddressed, hle, hd, rfl, fun _ _ => rfl⟩

/-- A commit keeps what the volume holds, whether it succeeds or not. -/
theorem Holds.commitInner {mark : Option Replication} {res : Result ℕ}
    (h : Holds P S B v f) (hideal : P.Ideal S) (ha : Addressed P S B) (hd : DirtyOk v)
    (hs : (φ.view B).Sound B) (hS : φ.Known P S B v)
    (hm : ∀ m, mark = some m → m.id.length = 32 ∧ m.sequence ≠ 0)
    (hok : v.commitInner P B φ mark = (B', v', res)) : ∃ f', Stays P S B v f B' v' f' := by
  have hsame : Stays P S B v f B v f := Stays.refl h ha hd
  unfold IndexedVolume.commitInner at hok
  split at hok
  · obtain ⟨rfl, rfl, -⟩ := by simpa using hok
    exact ⟨f, hsame⟩
  · split_ifs at hok with hclean hexpired
    · obtain ⟨rfl, rfl, -⟩ := by simpa using hok
      exact ⟨f, hsame⟩
    · obtain ⟨rfl, rfl, -⟩ := by simpa using hok
      exact ⟨f, hsame⟩
    · exact h.outcome hideal ha hd hs hS (continues_nextRoot h.rootOk hm) (commitFrom_outcome hok)

/-- So does the commit of the interface. -/
theorem Holds.commit {res : Result ℕ} (h : Holds P S B v f) (hideal : P.Ideal S)
    (ha : Addressed P S B) (hd : DirtyOk v) (hs : (φ.view B).Sound B) (hS : φ.Known P S B v)
    (hok : v.commit P B φ = (B', v', res)) : ∃ f', Stays P S B v f B' v' f' := by
  unfold IndexedVolume.commit at hok
  split at hok
  · obtain ⟨rfl, rfl, -⟩ := by simpa using hok
    exact ⟨f, Stays.refl h ha hd⟩
  · exact h.commitInner hideal ha hd hs hS (fun m hm => by cases hm) hok

/-- The one of a replication. -/
theorem Holds.commitReplication {mark : Replication} {res : Result ℕ} (h : Holds P S B v f)
    (hideal : P.Ideal S) (ha : Addressed P S B) (hd : DirtyOk v) (hs : (φ.view B).Sound B)
    (hS : φ.Known P S B v) (hok : v.commitReplication P B φ mark = (B', v', res)) :
    ∃ f', Stays P S B v f B' v' f' := by
  unfold IndexedVolume.commitReplication at hok
  split at hok
  · obtain ⟨rfl, rfl, -⟩ := by simpa using hok
    exact ⟨f, Stays.refl h ha hd⟩
  · rename_i hvalid
    simp only [not_or, validHash, Bool.not_eq_false, beq_iff_eq] at hvalid
    refine h.commitInner hideal ha hd hs hS (fun m hm => ?_) hok
    obtain rfl := Option.some.inj hm
    exact hvalid

/-- And the one of an import. -/
theorem Holds.commitImport {res : Result ℕ} (h : Holds P S B v f) (hideal : P.Ideal S)
    (ha : Addressed P S B) (hd : DirtyOk v) (hs : (φ.view B).Sound B) (hS : φ.Known P S B v)
    (hok : v.commitImport P B φ = (B', v', res)) : ∃ f', Stays P S B v f B' v' f' := by
  unfold IndexedVolume.commitImport at hok
  split at hok
  · obtain ⟨rfl, rfl, -⟩ := by simpa using hok
    exact ⟨f, Stays.refl h ha hd⟩
  · exact h.commitInner hideal ha hd hs hS (fun m hm => by cases hm) hok

/-- A pass over the packs shows what was shown before, whether or not it fails. -/
theorem Holds.compactPacks {after : Option CompactionCursor} {budget : ℕ}
    {res : Result Compaction} (h : Holds P S B v f) (hideal : P.Ideal S) (ha : Addressed P S B)
    (hd : DirtyOk v) (hs : (φ.view B).Sound B)
    (hS : ∀ b ∈ v.passHashed P (φ.view B) after budget, b ∈ S)
    (hok : v.compactPacks P B φ after budget = (B', v', res)) :
    ∃ f', Stays P S B v f B' v' f' := by
  by_cases hclean : v.dirty = ∅
  · rcases compactPacks_cases h hideal ha hs hclean hok with
      ⟨rfl, rfl, -⟩ | ⟨dirty, v1, r, hrest, hknown, ho, hres⟩
    · exact ⟨f, Stays.refl h ha hd⟩
    have hsrc : SameSource v { v with dirty := dirty } := ⟨rfl, rfl, rfl, rfl, rfl⟩
    have hover : ∀ i < v.chunkCount, IndexedVolume.over { v with dirty := dirty } f i = f i := by
      intro i hi
      cases hb : dirty[i]? with
      | none => exact over_of_clean hb
      | some b => rw [over_of_dirty (v := { v with dirty := dirty }) hb, (hrest i b hb).2]
    have hdirty : DirtyOk { v with dirty := dirty } := by
      intro i b hb
      obtain ⟨hi, rfl⟩ := hrest i b hb
      exact ⟨hi, h.length_eq hi⟩
    obtain ⟨f', hstays⟩ := (h.of_same hsrc rfl).outcome hideal ha hdirty hs
      (fun b hb => hS b (hknown b hb)) (continues_self h.rootOk) ho
    have hshow : ∀ i < v.chunkCount, v.over f i = f i := fun i _ => by rw [over_empty hclean]
    rcases hres with ⟨g, c, -, rfl, -, rfl⟩ | ⟨e, rfl, rfl, rfl⟩
    · refine ⟨f', hstays.holds, hstays.addressed, hstays.objects, hstays.dirty, hstays.size, ?_⟩
      intro i hi
      rw [hstays.shows i hi, hover i hi, hshow i hi]
    · -- The staged chunks are dropped, and the volume still stores them.
      rcases (compactPacks_fails hok).handle with hv | ⟨hv, -⟩
      · rw [hv]
        exact ⟨f, h.mono hstays.objects, hstays.addressed, hstays.objects, hd, rfl,
          fun _ _ => rfl⟩
      · rw [hv]
        exact ⟨f, (h.mono hstays.objects).of_same ⟨rfl, rfl, rfl, rfl, rfl⟩ rfl,
          hstays.addressed, hstays.objects, hd, rfl, fun _ _ => rfl⟩
  · have hrefused : ∃ e, (B, v, (.error e : Result Compaction)) = (B', v', res) := by
      unfold IndexedVolume.compactPacks at hok
      split at hok
      · exact ⟨_, hok⟩
      · rw [if_pos (by simpa using hclean)] at hok
        exact ⟨_, hok⟩
    obtain ⟨e, hrefused⟩ := hrefused
    obtain ⟨rfl, rfl, -⟩ := by simpa using hrefused
    exact ⟨f, Stays.refl h ha hd⟩

/-- A write commits first if its chunks do not fit, and then buffers them. -/
theorem Holds.write {offset : ℕ} {input : Bytes} {res : Result Unit} (h : Holds P S B v f)
    (hideal : P.Ideal S) (ha : Addressed P S B) (hd : DirtyOk v) (hs : (φ.view B).Sound B)
    (hS : v.Overflows offset input.length → φ.Known P S B v)
    (hok : v.write P B φ offset input = (B', v', res)) :
    ∃ v1 f', Stays P S B v f B' v1 f' ∧ (v' = v1 ∨ offset + input.length ≤ v1.root.size ∧
      v1.buffer P (φ.view B') offset input = (v', .ok ())) := by
  have hsame : Stays P S B v f B v f := Stays.refl h ha hd
  have hbuffer : ∀ {w : IndexedVolume} {view : View},
      w.buffer P view offset input = (v', res) → v' = w ∨ res = .ok () := by
    intro w view hb
    cases res with
    | error e => exact .inl (buffer_fails hb).1
    | ok _ => exact .inr rfl
  unfold IndexedVolume.write at hok
  cases hcheck : v.check offset input.length with
  | error e1 =>
    simp only [hcheck] at hok
    obtain ⟨rfl, rfl, -⟩ := by simpa using hok
    exact ⟨_, f, hsame, .inl rfl⟩
  | ok _ =>
    have hrange := (check_ok hcheck).2
    simp only [hcheck] at hok
    split_ifs at hok with hlarge hnil hover
    · obtain ⟨rfl, rfl, -⟩ := by simpa using hok
      exact ⟨_, f, hsame, .inl rfl⟩
    · obtain ⟨rfl, rfl, -⟩ := by simpa using hok
      exact ⟨_, f, hsame, .inl rfl⟩
    · cases hcm : v.commit P B φ with
      | mk B1 rest =>
        obtain ⟨v1, res1⟩ := rest
        obtain ⟨f1, hstays⟩ := h.commit hideal ha hd hs (hS hover) hcm
        rw [hcm] at hok
        cases res1 with
        | error e1 =>
          obtain ⟨rfl, rfl, -⟩ := by simpa using hok
          exact ⟨_, f1, hstays, .inl rfl⟩
        | ok g =>
          obtain ⟨rfl, hb⟩ := Prod.mk.inj hok
          refine ⟨v1, f1, hstays, ?_⟩
          rcases hbuffer hb with rfl | rfl
          · exact .inl rfl
          · exact .inr ⟨hstays.size ▸ hrange, hb⟩
    · obtain ⟨rfl, hb⟩ := Prod.mk.inj hok
      refine ⟨v, f, hsame, ?_⟩
      rcases hbuffer hb with rfl | rfl
      · exact .inl rfl
      · exact .inr ⟨hrange, hb⟩

end Stays

/-- The calls that change a handle. -/
inductive Call where
  | write (offset : ℕ) (input : Bytes)
  | commit
  | commitReplication (mark : Replication)
  | commitImport
  | compactPacks (after : Option CompactionCursor) (budget : ℕ)

namespace Call

/-- The answer of a call, without the value that it returns. -/
def answer {α : Type} : Bucket × IndexedVolume × Result α → Bucket × IndexedVolume × Result Unit
  | (B, v, res) => (B, v, res.map (fun _ => ()))

/-- A call of a handle. -/
def run (P : Platform) (B : Bucket) (v : IndexedVolume) (φ : Faults) :
    Call → Bucket × IndexedVolume × Result Unit
  | write offset input => v.write P B φ offset input
  | commit => answer (v.commit P B φ)
  | commitReplication mark => answer (v.commitReplication P B φ mark)
  | commitImport => answer (v.commitImport P B φ)
  | compactPacks after budget => answer (v.compactPacks P B φ after budget)

/-- Everything that the call digests is among the known byte strings. -/
def Known (P : Platform) (S : Set Bytes) (B : Bucket) (v : IndexedVolume) (φ : Faults) :
    Call → Prop
  | write offset input => v.Overflows offset input.length → φ.Known P S B v
  | compactPacks after budget => ∀ b ∈ v.passHashed P (φ.view B) after budget, b ∈ S
  | _ => φ.Known P S B v

end Call

/-- The handles that can be reached with the volume as their bucket holds it: those of a session,
after any further calls with whatever faults, while other clients add objects and replace
heads. -/
inductive Reached (P : Platform) (S : Set Bytes) : Bucket → IndexedVolume → Prop
  | session {σ : Session} (run : Session.Run P S σ) : Reached P S σ.bucket σ.volume
  | call {B B' : Bucket} {v v' : IndexedVolume} {φ : Faults} {c : Call} {res : Result Unit}
      (run : Reached P S B v) (hs : ∀ B, (φ.view B).Sound B) (hS : c.Known P S B v φ)
      (hok : c.run P B v φ = (B', v', res)) : Reached P S B' v'
  | other {B B' : Bucket} {v : IndexedVolume} (run : Reached P S B v) (hle : B.Le B')
      (ha : Addressed P S B') : Reached P S B' v

section Reached

variable {P : Platform} {S : Set Bytes} {B B' : Bucket} {φ : Faults} {v v' : IndexedVolume}
  {e : Error} {c : Call}

theorem Call.answer_eq {α : Type} {r : Bucket × IndexedVolume × Result α} {res : Result Unit}
    (h : Call.answer r = (B, v, res)) : ∃ res', r = (B, v, res') := by
  obtain ⟨B1, v1, res1⟩ := r
  obtain ⟨rfl, rfl, -⟩ := by simpa [Call.answer] using h
  exact ⟨res1, rfl⟩

theorem Call.answer_error {α : Type} {r : Bucket × IndexedVolume × Result α}
    (h : Call.answer r = (B, v, .error e)) : r = (B, v, .error e) := by
  obtain ⟨B1, v1, res1⟩ := r
  cases res1 with
  | error e1 =>
    obtain ⟨rfl, rfl, he⟩ := by simpa [Call.answer, Except.map] using h
    rw [he]
  | ok a => simp [Call.answer, Except.map] at h

/-- Every call keeps it. -/
theorem Holds.call {f : ℕ → Bytes} {res : Result Unit} (h : Holds P S B v f)
    (hideal : P.Ideal S) (ha : Addressed P S B) (hd : DirtyOk v) (hs : ∀ B, (φ.view B).Sound B)
    (hS : c.Known P S B v φ) (hok : c.run P B v φ = (B', v', res)) :
    ∃ f', Holds P S B' v' f' ∧ Addressed P S B' ∧ DirtyOk v' := by
  have hstays : (∃ f', Stays P S B v f B' v' f') →
      ∃ f', Holds P S B' v' f' ∧ Addressed P S B' ∧ DirtyOk v' :=
    fun ⟨f', hstays⟩ => ⟨f', hstays.holds, hstays.addressed, hstays.dirty⟩
  cases c with
  | write offset input =>
    obtain ⟨v1, f', hm, rfl | ⟨hr, hb⟩⟩ := h.write hideal ha hd (hs B) hS hok
    · exact hstays ⟨f', hm⟩
    · obtain ⟨hsrc, hroot, -, -, hd', -⟩ := hm.holds.buffer_ok hm.dirty (hs B') hr hb
      exact ⟨f', hm.holds.of_same hsrc hroot, hm.addressed, hd'⟩
  | commit =>
    obtain ⟨_, hok⟩ := Call.answer_eq hok
    exact hstays (h.commit hideal ha hd (hs B) hS hok)
  | commitReplication mark =>
    obtain ⟨_, hok⟩ := Call.answer_eq hok
    exact hstays (h.commitReplication hideal ha hd (hs B) hS hok)
  | commitImport =>
    obtain ⟨_, hok⟩ := Call.answer_eq hok
    exact hstays (h.commitImport hideal ha hd (hs B) hS hok)
  | compactPacks after budget =>
    obtain ⟨_, hok⟩ := Call.answer_eq hok
    exact hstays (h.compactPacks hideal ha hd (hs B) hS hok)

/-- Every handle that can be reached has its volume in the bucket. -/
theorem Reached.holds (hideal : P.Ideal S) (h : Reached P S B v) :
    ∃ f, Holds P S B v f ∧ Addressed P S B ∧ DirtyOk v := by
  induction h with
  | session run =>
    obtain ⟨f, hinv⟩ := run.inv hideal
    exact ⟨f, hinv.head.holds, hinv.addressed, hinv.dirty⟩
  | call run hs hS hok ih =>
    obtain ⟨f, h, ha, hd⟩ := ih
    exact h.call hideal ha hd hs hS hok
  | other run hle ha ih =>
    obtain ⟨f, h, -, hd⟩ := ih
    exact ⟨f, h.mono hle, ha, hd⟩

/-- Nothing but reopening the volume helps a poisoned handle. -/
structure Closed (P : Platform) (v : IndexedVolume) : Prop where
  read : ∀ view offset len, v.read P view offset len = .error .reopenRequired
  write : ∀ B φ offset input, v.write P B φ offset input = (B, v, .error .reopenRequired)
  commit : v.root.replication = none → ∀ B φ,
    v.commit P B φ = (B, v, .error .reopenRequired)
  /-- A commit without a mark is refused for another reason once there is a mark. -/
  commit_marked : v.root.replication ≠ none → ∀ B φ,
    v.commit P B φ = (B, v, .error .invalidInput)
  commitReplication : ∀ B φ mark, validHash mark.id = true → mark.sequence ≠ 0 →
    v.commitReplication P B φ mark = (B, v, .error .reopenRequired)
  compactPacks : ∀ B φ after budget,
    v.compactPacks P B φ after budget = (B, v, .error .reopenRequired)

/-- A poisoned volume answers nothing. -/
theorem closed_of_poisoned (h : v.poisoned = true) : Closed P v := by
  have hcheck : ∀ pos len, v.check pos len = .error .reopenRequired := fun pos len => by
    simp [IndexedVolume.check, h]
  constructor
  · intro view offset len
    simp [IndexedVolume.read, hcheck]
  · intro B φ offset input
    simp [IndexedVolume.write, hcheck]
  · intro hmark B φ
    simp [IndexedVolume.commit, IndexedVolume.commitInner, hcheck, hmark]
  · intro hmark B φ
    rw [IndexedVolume.commit, if_pos (Option.isSome_iff_ne_none.mpr hmark)]
  · intro B φ mark hid hsequence
    simp [IndexedVolume.commitReplication, IndexedVolume.commitInner, hcheck, hid, hsequence]
  · intro B φ after budget
    simp [IndexedVolume.compactPacks, hcheck]

/-- A write that has committed to make room, and then could not load a chunk. -/
structure FailsAfterCommit (P : Platform) (B : Bucket) (v : IndexedVolume) (c : Call) (φ : Faults)
    (B' : Bucket) (v' : IndexedVolume) (e : Error) : Prop where
  write : ∃ offset input, c = .write offset input ∧ v.Overflows offset input.length
  commit : ∃ g, v.commit P B φ = (B', v', .ok g)
  load : ∃ i, v'.load P (φ.view B') i = .error e

/-- A call that fails leaves the volume as it was or poisons it. -/
theorem Call.run_fails (hok : c.run P B v φ = (B', v', .error e)) :
    Fails B v (fun φ => c.run P B v φ) φ B' v' e ∨ FailsAfterCommit P B v c φ B' v' e := by
  have hanswer : ∀ {α : Type} {call : Faults → Bucket × IndexedVolume × Result α},
      Fails B v call φ B' v' e → Fails B v (fun φ => Call.answer (call φ)) φ B' v' e :=
    fun h => ⟨h.handle, h.head, h.objects, fun he => congrArg Call.answer (h.unsent he)⟩
  cases c with
  | write offset input =>
    rcases write_fails hok with hfails | ⟨hover, hcommit, hload⟩
    · exact .inl hfails
    · exact .inr ⟨⟨offset, input, rfl, hover⟩, hcommit, hload⟩
  | commit => exact .inl (hanswer (commit_fails (Call.answer_error hok)))
  | commitReplication mark =>
    exact .inl (hanswer (commitReplication_fails (Call.answer_error hok)))
  | commitImport => exact .inl (hanswer (commitImport_fails (Call.answer_error hok)))
  | compactPacks after budget =>
    exact .inl (hanswer (compactPacks_fails (Call.answer_error hok)))

/-- Handles that show the same chunks read the same bytes while every object can be read. -/
theorem Stays.read {f f' : ℕ → Bytes} (h : Stays P S B v f B' v' f') (hh : Holds P S B v f)
    (hd : DirtyOk v) (hp : v.poisoned = false) (hp' : v'.poisoned = false) {view : View}
    (hview : view.Healthy B') (offset len : ℕ) :
    v'.read P view offset len = v.read P view offset len := by
  by_cases hr : offset + len ≤ v.root.size
  · by_cases hl : len ≤ writeLimit
    · rw [h.holds.read_healthy h.dirty hview hp' (h.size ▸ hr) hl,
        (hh.mono h.objects).read_healthy hd hview hp hr hl]
      congr 1
      apply window_congr
      intro x _ hx
      exact flat_congr (h.shows _ (hh.div_lt (by omega)))
    · simp [IndexedVolume.read, check_of hp hr, check_of hp' (h.size ▸ hr), Nat.not_le.mp hl]
  · have hcheck : ∀ w : IndexedVolume, w.poisoned = false → w.root.size = v.root.size →
        w.check offset len = .error .invalidInput := by
      intro w hw hsize
      simp [IndexedVolume.check, hw, hsize, Nat.not_le.mp hr]
    simp [IndexedVolume.read, hcheck v hp rfl, hcheck v' hp' h.size]

/-- A call that fails leaves the volume as it was, or poisoned, or committed by a write. -/
theorem failed_calls_keep_the_volume (hideal : P.Ideal S) (hrun : Reached P S B v)
    (hs : ∀ B, (φ.view B).Sound B) (hS : c.Known P S B v φ)
    (hok : c.run P B v φ = (B', v', .error e)) :
    (Fails B v (fun φ => c.run P B v φ) φ B' v' e ∨ FailsAfterCommit P B v c φ B' v' e) ∧
      (v'.poisoned = true → Closed P v') ∧
      (v'.poisoned = false → ∀ view, view.Healthy B' → ∀ offset len,
        v'.read P view offset len = v.read P view offset len) := by
  have hfails := Call.run_fails hok
  refine ⟨hfails, closed_of_poisoned, fun hp' view hview offset len => ?_⟩
  rcases hfails with hfails | hcommitted
  · rcases hfails.handle with rfl | ⟨rfl, -⟩
    · rfl
    · cases hp'
  · obtain ⟨f, h, ha, hd⟩ := hrun.holds hideal
    obtain ⟨offset', input, rfl, hover⟩ := hcommitted.write
    obtain ⟨g, hcm⟩ := hcommitted.commit
    obtain ⟨f', hstays⟩ := h.commit hideal ha hd (hs B) (hS hover) hcm
    have hp : v.poisoned = false := by
      by_contra hp
      have hclosed : Closed P v := closed_of_poisoned (by simpa using hp)
      by_cases hmark : v.root.replication = none
      · exact absurd (hcm.symm.trans (hclosed.commit hmark B φ)) (by simp)
      · exact absurd (hcm.symm.trans (hclosed.commit_marked hmark B φ)) (by simp)
    exact hstays.read h hd hp hp' hview offset len

/-- The upload fails after all objects were stored. -/
private def refusing : Faults := { Faults.none with upload := some .store }

/-- The head request arrives and its reply is lost. -/
private def unanswered : Faults := { Faults.none with delivery := .replyLost }

/-- The commit of a buffered chunk fails twice: at first its upload, which leaves the chunk in the
dirty map, then the reply to its publication is lost, which poisons the handle. -/
theorem failed_calls_keep_the_volume_lost : ∃ B B' v',
    Call.commit.run Sample.platform Sample.bucket Sample.written refusing =
      (B, Sample.written, .error .store) ∧
    (Fails Sample.bucket Sample.written
      (fun φ => Call.commit.run Sample.platform Sample.bucket Sample.written φ) refusing B
        Sample.written .store ∨
      FailsAfterCommit Sample.platform Sample.bucket Sample.written .commit refusing B
        Sample.written .store) ∧
    Sample.written.read Sample.platform B.view 0 2 = .ok [7, 0] ∧
    Call.commit.run Sample.platform B Sample.written unanswered = (B', v', .error .uncertain) ∧
    (Fails B Sample.written (fun φ => Call.commit.run Sample.platform B Sample.written φ)
      unanswered B' v' .uncertain ∨
      FailsAfterCommit Sample.platform B Sample.written .commit unanswered B' v' .uncertain) ∧
    v'.dirty = Sample.written.dirty ∧ B'.heads ≠ B.heads ∧ Closed Sample.platform v' := by
  have hblank : Reached Sample.platform Sample.known Sample.bucket Sample.volume :=
    .session (.create (Sample.blank_addressed _) Sample.zeros_known Sample.create_eq)
  have hwrite : (Call.write 0 [7]).run Sample.platform Sample.bucket Sample.volume .none =
      (Sample.bucket, Sample.written, .ok ()) := Sample.write_seven Sample.bucket .none
  have hrun : Reached Sample.platform Sample.known Sample.bucket Sample.written :=
    hblank.call (fun B => B.view_healthy.toSound)
      (show Call.Known _ _ _ _ _ (.write 0 [7]) from fun hover => absurd hover Sample.fits_seven)
      hwrite
  have hgrows := keepObjects_grows Sample.bucket Sample.written.space refusing.kept
    (firstObjects Sample.platform Sample.seven)
  have hrefused : Sample.written.commit Sample.platform Sample.bucket refusing = (_, Sample.written,
      .error .store) :=
    (commit_of_unmarked rfl).trans (Sample.first_written.commitInner_refused
      (isZero_digest Sample.known_ideal Sample.seven_known) rfl rfl (by decide) rfl)
  generalize keepObjects Sample.bucket Sample.written.space refusing.kept
    (firstObjects Sample.platform Sample.seven) = B at hgrows hrefused
  have hfirst : Call.commit.run Sample.platform Sample.bucket Sample.written refusing =
      (B, Sample.written, .error .store) := by
    rw [Call.run, hrefused]
    rfl
  have hheads : B.heads ⟨false, "disk"⟩ = some ⟨"r", .root Sample.volume.root⟩ := by
    rw [hgrows.heads]
    rfl
  obtain ⟨B', hpublishes, -, hlost⟩ := Sample.commitInner_written unanswered none
    (hgrows.addressed (Sample.bucket_addressed _) Sample.objects_digests) hheads rfl rfl
  have hunanswered : Sample.written.commit Sample.platform B unanswered = (B', _,
      .error .uncertain) := (commit_of_unmarked rfl).trans (hlost rfl)
  have hsecond : Call.commit.run Sample.platform B Sample.written unanswered =
      (B', { Sample.written with poisoned := true }, .error .uncertain) := by
    rw [Call.run, hunanswered]
    rfl
  have hknown : ∀ B φ, Call.Known Sample.platform Sample.known B Sample.written φ .commit :=
    fun B φ => Sample.written_known
  have hspec := failed_calls_keep_the_volume Sample.known_ideal hrun
    (fun B => B.view_healthy.toSound) (hknown _ _) hfirst
  have hrun' : Reached Sample.platform Sample.known B Sample.written :=
    hrun.call (fun B => B.view_healthy.toSound) (hknown _ _) hfirst
  have hspec' := failed_calls_keep_the_volume Sample.known_ideal hrun'
    (fun B => B.view_healthy.toSound) (hknown _ _) hsecond
  refine ⟨B, B', _, hfirst, hspec.1, ?_, hsecond, hspec'.1, rfl, ?_, hspec'.2.1 rfl⟩
  · have hsegments : segments chunkBytes 0 2 0 = [⟨0, 0, 0, 2⟩] := by
      rw [segments_pos chunkBytes_pos (by decide)]
      simp [segments_zero, chunkBytes]
    rw [IndexedVolume.read, check_of rfl (by decide), hsegments]
    rfl
  · intro hsame
    obtain ⟨Bu, -, hreplaces⟩ := hpublishes.prepares
    have hhead := congrArg (Option.map Head.manifest) (congrFun hsame ⟨false, "disk"⟩)
    rw [hheads, hreplaces.bucket] at hhead
    have hroot : firstRoot Sample.platform Sample.written Sample.seven none = Sample.volume.root :=
      Manifest.root.inj (Option.some.inj hhead)
    exact absurd (congrArg Root.generation hroot) (by decide)

end Reached

section Steps

variable {P : Platform} {B B' : Bucket} {φ : Faults} {v v' : IndexedVolume} {e : Error}

/-- A commit that has been planned. -/
theorem commit_of_plan {generation : ℕ} {pages : BTreeMap ℕ Hash} {uploads : List (Hash × Bytes)}
    (hmark : v.root.replication = none) (hp : v.poisoned = false) (hd : v.dirty.isEmpty = false)
    (hexpired : φ.expired = false) (hgen : checkedAdd v.root.generation 1 = some generation)
    (hplan : v.plan P (φ.view B) false = .ok (pages, uploads)) :
    v.commit P B φ =
      v.finish P B φ { v.root with generation := generation, pages := pages } uploads := by
  have hcheck : v.check 0 0 = .ok () := check_of hp (Nat.zero_le _)
  simp [IndexedVolume.commit, IndexedVolume.commitInner, IndexedVolume.commitFrom,
    IndexedVolume.nextRoot, hmark, hcheck, hd, hexpired, hgen, hplan]

/-- One whose objects have been uploaded. -/
theorem finish_of_upload {next : Root} {uploads : List (Hash × Bytes)} {rev : Revision}
    (hchanged : next.pages ≠ v.root.pages) {Bu : Bucket}
    (hupload : uploadObjects B φ v.space uploads = (Bu, .ok ()))
    (hjson : (P.json (.root next)).length ≤ maxManifestBytes)
    (hsend : v.store.publish P (φ.view Bu) Bu next.volume (some v.revision) next φ.delivery =
      (B', .ok rev)) (hrev : rev ≠ "") :
    v.finish P B φ next uploads =
      (B', { v with root := next, revision := rev, dirty := ∅ }, .ok next.generation) := by
  simp [IndexedVolume.finish, IndexedVolume.publish, hchanged, hupload, Nat.not_lt.mpr hjson,
    hsend, hrev]

/-- A full dirty map has no room for another chunk. -/
theorem overflows_of_size {offset len : ℕ} (hsize : v.dirty.size = slots)
    (hextra : 0 < v.extraChunks offset len) : v.Overflows offset len := by
  have hlimit : dirtyLimit = slots * chunkBytes := rfl
  rw [IndexedVolume.Overflows, IndexedVolume.dirtyBytes, hsize, hlimit]
  exact Nat.lt_add_of_pos_right (Nat.mul_pos hextra chunkBytes_pos)

/-- A write that overflows, commits and then fails to load its first chunk. -/
theorem write_of_commit {offset : ℕ} {input : Bytes} {g : ℕ} (hp : v.poisoned = false)
    (hr : offset + input.length ≤ v.root.size) (hlarge : input.length ≤ writeLimit)
    (hpos : 0 < input.length) (hover : v.Overflows offset input.length)
    (hcommit : v.commit P B φ = (B', v', .ok g))
    (hwithin : offset % chunkBytes ≠ 0)
    (hload : v'.load P (φ.view B') (offset / chunkBytes) = .error e) :
    v.write P B φ offset input = (B', v', .error e) := by
  have hnil : input ≠ [] := by
    rintro rfl
    exact lt_irrefl _ hpos
  have hstage : ∀ pending done count, v'.stageWrite P (φ.view B') input pending
      ⟨offset / chunkBytes, offset % chunkBytes, done, count⟩ = .error e := by
    intro pending done count
    simp [IndexedVolume.stageWrite, IndexedVolume.writtenChunk, hwithin, hload]
  have hbuffer : v'.buffer P (φ.view B') offset input = (v', .error e) := by
    rw [IndexedVolume.buffer, segments_pos chunkBytes_pos hpos, List.foldlM_cons, hstage]
    rfl
  simp [IndexedVolume.write, check_of hp hr, Nat.not_lt.mpr hlarge, hnil,
    show v.dirtyBytes + v.extraChunks offset input.length * chunkBytes > dirtyLimit from hover,
    hcommit, hbuffer]

end Steps
namespace Sample

/-- A chunk of ones. -/
def ones : Bytes := List.replicate chunkBytes 1

/-- A full dirty map: two writes of 32 MiB of ones. -/
@[irreducible] def onesDirty : BTreeMap ℕ Bytes :=
  Std.ExtTreeMap.ofList ((List.range slots).map (fun i => (i, ones)))

/-- A disk in the first format with this dirty map. -/
def full : IndexedVolume :=
  ⟨.raw false, ⟨2, "disk", 1025 * chunkBytes, 0, true, ∅, none, none⟩, none, "r", onesDirty, false⟩

/-- The bucket with this disk. -/
def fullBucket : Bucket :=
  ⟨fun _ => ∅, Function.update (fun _ => none) ⟨false, "disk"⟩ (some ⟨"r", .root full.root⟩), 1, []⟩

/-- Uploads and publications work, but no object can be read. -/
def unreadable : Faults :=
  { Faults.none with view := fun B => ⟨B.view.head, fun _ _ => .error .store, fun _ _ => none,
      fun _ _ _ => .error .store⟩ }

theorem full_distinct : ((List.range slots).map (fun i => (i, ones))).Pairwise
    (fun a b => ¬ compare a.1 b.1 = .eq) := by
  rw [List.pairwise_map]
  exact List.nodup_range.imp (fun hne h => hne (by simpa using h))

theorem size_full_dirty : full.dirty.size = slots := by
  rw [full, onesDirty, Std.ExtTreeMap.size_ofList full_distinct, List.length_map, List.length_range]

/-- The full volume of the samples. -/
theorem full_dirty {i : ℕ} {b : Bytes} (h : full.dirty[i]? = some b) : i < slots ∧ b = ones := by
  rw [full, onesDirty] at h
  by_cases hi : i < slots
  · have hmem : (i, ones) ∈ (List.range slots).map (fun i => (i, ones)) := by simpa using hi
    have hget := Std.ExtTreeMap.getElem?_ofList_of_mem (by simp : compare i i = .eq)
      full_distinct hmem
    exact ⟨hi, Option.some_inj.mp (h.symm.trans hget)⟩
  · have hnone : (Std.ExtTreeMap.ofList ((List.range slots).map (fun i => (i, ones))) compare)[i]? =
        none :=
      Std.ExtTreeMap.getElem?_ofList_of_contains_eq_false (by simpa [Function.comp_def] using hi)
    exact absurd (h.symm.trans hnone) (by simp)

theorem isZero_ones : isZero ones = false := by
  rw [ones, show chunkBytes = 65535 + 1 from rfl, List.replicate_succ]
  rfl

/-- The map of the pages under construction has one page, which names the chunk of ones. -/
def Names (pages : BTreeMap ℕ Bytes) (page : Bytes) : Prop :=
  pages = (∅ : BTreeMap ℕ Bytes).insert 0 page ∧ page.length = chunkBytes ∧ page.headD 0 = 0x41 ∧
    ∃ i < slots, slice page (16 + i * 32) 32 = platform.digest ones

/-- A splice behind the first byte keeps it. -/
theorem headD_splice {page b : Bytes} {start : ℕ} (h : 16 ≤ start) (hlen : 16 ≤ page.length) :
    (splice page start b).headD 0 = page.headD 0 := by
  obtain ⟨start, rfl⟩ := Nat.exists_eq_add_of_le' (show 1 ≤ start by omega)
  cases page with
  | nil => simp at hlen
  | cons x rest => rfl

/-- Staging one chunk of the full volume names its page. -/
theorem stage_full (view : View) {acc : BTreeMap ℕ Bytes × BTreeMap Hash Bytes} {i : ℕ}
    (hi : i < slots) (hpages : acc.1 = ∅ ∨ ∃ page, Names acc.1 page)
    (hnew : ∀ o ∈ acc.2.toList, o = (platform.digest ones, ones)) :
    ∃ acc' page, full.stageUnpacked platform view acc (i, ones) = .ok acc' ∧
      Names acc'.1 page ∧ ∀ o ∈ acc'.2.toList, o = (platform.digest ones, ones) := by
  obtain ⟨page, hwork, hlen, hhead, hinsert⟩ : ∃ page,
      full.workingPage platform view acc.1 0 = .ok page ∧ page.length = chunkBytes ∧
      page.headD 0 = 0x41 ∧ ∀ page', acc.1.insert 0 page' =
        (∅ : BTreeMap ℕ Bytes).insert 0 page' := by
    rcases hpages with hpages | ⟨page, hpages, hlen, hhead, -⟩
    · have hlen := (shaped_emptyPage full.root.size false (show 0 < 256 ^ 8 by decide)).length_eq
      exact ⟨emptyPage false 0, by rw [hpages]; rfl, hlen, rfl, fun page' => by rw [hpages]⟩
    · exact ⟨page, by rw [hpages]; rfl, hlen, hhead, fun page' => by
        rw [hpages, insert_insert]⟩
  have hdiv : i / slots = 0 := Nat.div_eq_of_lt hi
  have hmod : i % slots = i := Nat.mod_eq_of_lt hi
  have hroom : 16 + i * 32 + (platform.digest ones).length ≤ page.length := by
    rw [platform.digest_length, hlen, chunkBytes]
    simp only [slots] at hi
    omega
  by_cases hsame : slice page (16 + i * 32) 32 = platform.digest ones
  · refine ⟨(acc.1.insert 0 page, acc.2), page, ?_, ⟨hinsert _, hlen, hhead, i, hi, hsame⟩, hnew⟩
    simp only [IndexedVolume.stageUnpacked, hdiv, hmod, hwork, isZero_ones, if_pos hsame,
      Bool.false_eq_true, if_false]
  · refine ⟨(acc.1.insert 0 (splice page (16 + i * 32) (platform.digest ones)),
      acc.2.insertIfNew (platform.digest ones) ones), _, ?_, ⟨hinsert _, ?_, ?_, i, hi, ?_⟩, ?_⟩
    · simp only [IndexedVolume.stageUnpacked, hdiv, hmod, hwork, isZero_ones, if_neg hsame,
        Bool.false_eq_true, if_false]
      rfl
    · rw [length_splice hroom, hlen]
    · rw [headD_splice (by omega) (by rw [hlen, chunkBytes]; omega), hhead]
    · have hself := slice_splice_self hroom
      rwa [platform.digest_length] at hself
    · intro o ho
      obtain ⟨hash, b⟩ := o
      rw [Std.ExtTreeMap.mem_toList_iff_getElem?_eq_some, Std.ExtTreeMap.getElem?_insertIfNew] at ho
      split at ho
      · rename_i hnew'
        obtain rfl : platform.digest ones = hash := by simpa using hnew'.1
        rw [Option.some_inj.mp ho]
      · exact hnew _ (Std.ExtTreeMap.mem_toList_iff_getElem?_eq_some.mpr ho)

/-- By induction on the chunks, all of them make one object. -/
theorem rewrite_full (view : View) : ∃ pages new page,
    full.rewriteUnpacked platform view = .ok (pages, new) ∧ Names pages page ∧
      ∀ o ∈ new.toList, o = (platform.digest ones, ones) := by
  obtain ⟨⟨pages, new⟩, hok, hpages, hnew⟩ :=
    foldlM_succeeds (f := full.stageUnpacked platform view)
    (l := full.dirty.toList) (z := (∅, ∅))
    (fun done acc => (done = [] ∧ acc.1 = ∅ ∨ ∃ page, Names acc.1 page) ∧
      ∀ o ∈ acc.2.toList, o = (platform.digest ones, ones))
    ⟨.inl ⟨rfl, rfl⟩, by simp⟩ (by
      rintro done ⟨i, b⟩ rest acc hl ⟨hacc, hnew⟩
      have hmem : (i, b) ∈ full.dirty.toList := by
        rw [hl]
        simp
      obtain ⟨hi, rfl⟩ := full_dirty (Std.ExtTreeMap.mem_toList_iff_getElem?_eq_some.mp hmem)
      obtain ⟨acc', page, hstage, hnames, hnew'⟩ :=
        stage_full view hi (hacc.imp And.right id) hnew
      exact ⟨acc', hstage, .inr ⟨page, hnames⟩, hnew'⟩)
  refine ⟨pages, new, ?_⟩
  rcases hpages with ⟨hnone, -⟩ | ⟨page, hnames⟩
  · have hsize := size_full_dirty
    rw [← Std.ExtTreeMap.length_toList, hnone] at hsize
    exact absurd hsize (by decide)
  · exact ⟨page, hok, hnames, hnew⟩

/-- The commit of the full disk names one page and uploads it with the chunk of ones. -/
theorem plan_full (view : View) : ∃ page uploads, page.headD 0 = 0x41 ∧
    full.plan platform view false =
      .ok ((∅ : BTreeMap ℕ Hash).insert 0 (platform.digest page), uploads) ∧
    Digests platform {ones, page} uploads := by
  obtain ⟨pages, new, page, hok, ⟨rfl, hlen, hhead, i, hi, hslot⟩, hnew⟩ := rewrite_full view
  have hzero : isZero (page.drop 16) = false := by
    by_contra hzero
    have hslice := isZero_of_slice (a := i * 32) (n := 32) (by simpa using hzero)
    rw [slice, List.drop_drop] at hslice
    rw [slice] at hslot
    rw [hslot] at hslice
    exact absurd hslice (by decide)
  refine ⟨page, (new.insert (platform.digest page) page).toList, hhead, ?_, ?_⟩
  · have hplace : full.placeUnpacked platform (∅, new) (0, page) =
        ((∅ : BTreeMap ℕ Hash).insert 0 (platform.digest page),
          new.insert (platform.digest page) page) := by
      unfold IndexedVolume.placeUnpacked
      simp only
      rw [if_neg (by rw [hzero]; decide), if_neg (by intro h; cases h),
        if_neg (by intro h; cases h)]
    rw [IndexedVolume.plan, if_neg (show ¬ full.packed = true by decide),
      IndexedVolume.planUnpacked, hok]
    simp only
    rw [show ((∅ : BTreeMap ℕ Bytes).insert 0 page).toList = [(0, page)] from rfl,
      List.foldl_cons, List.foldl_nil, show full.root.pages = ∅ from rfl, hplace]
  · rintro ⟨hash, b⟩ ho
    rw [Std.ExtTreeMap.mem_toList_iff_getElem?_eq_some, Std.ExtTreeMap.getElem?_insert] at ho
    split at ho
    · rename_i heq
      obtain rfl : platform.digest page = hash := by simpa using heq
      obtain rfl := Option.some_inj.mp ho
      exact ⟨rfl, .inr rfl⟩
    · obtain ⟨rfl, rfl⟩ := Prod.mk.inj
        (hnew _ (Std.ExtTreeMap.mem_toList_iff_getElem?_eq_some.mpr ho))
      exact ⟨rfl, .inl rfl⟩

theorem checkedAdd_full : checkedAdd full.root.generation 1 = some 1 := by
  rw [checkedAdd, show full.root.generation = 0 from rfl, if_pos (by decide)]

/-- The commit succeeds and replaces the head. -/
theorem commit_full : ∃ B v g hash, full.commit platform fullBucket unreadable = (B, v, .ok g) ∧
    v.root.pages[0]? = some hash ∧ v.dirty = ∅ ∧ v.base = none ∧ v.root.generation = 1 ∧
    ∃ rev, B.heads ⟨false, "disk"⟩ = some ⟨rev, .root v.root⟩ := by
  obtain ⟨page, uploads, hhead, hplan, hdigests⟩ := plan_full (unreadable.view fullBucket)
  have hideal : platform.Ideal {ones, page} := by
    have hones : ones.headD 0 = 1 := by
      rw [ones, show chunkBytes = 65535 + 1 from rfl, List.replicate_succ]
      rfl
    have hne : ones.headD 0 ≠ page.headD 0 := by
      rw [hones, hhead]
      decide
    refine ideal ?_
    rintro a (rfl | rfl) b (rfl | rfl) hab -
    · rfl
    · exact absurd hab hne
    · exact absurd hab.symm hne
    · rfl
  have haddressed : Addressed platform {ones, page} fullBucket := fun s h b hb => by
    simp [fullBucket] at hb
  obtain ⟨Bu, hput⟩ := putChunks_succeeds (s := full.space) hideal haddressed hdigests
  obtain ⟨hgrows, -⟩ := putChunks_ok hput
  have hdirty : full.dirty.isEmpty = false := by
    rw [Std.ExtTreeMap.isEmpty_eq_size_beq_zero, size_full_dirty]
    decide
  have hupload : uploadObjects fullBucket unreadable full.space uploads = (Bu, .ok ()) := by
    rw [uploadObjects, show unreadable.upload = none from rfl]
    simp only [hput]
  let next : Root := { full.root with
    generation := 1, pages := (∅ : BTreeMap ℕ Hash).insert 0 (platform.digest page) }
  have hchanged : next.pages ≠ full.root.pages := by
    intro hpages
    have hget : next.pages[0]? = full.root.pages[0]? := by rw [hpages]
    exact Option.some_ne_none _ (show some (platform.digest page) = none from hget)
  have hrevision : (Bu.heads ⟨false, "disk"⟩).map Head.revision = some full.revision := by
    rw [hgrows.heads]
    rfl
  have hsend : full.store.publish platform (unreadable.view Bu) Bu next.volume
      (some full.revision) next unreadable.delivery =
      (Bu.replace platform ⟨false, "disk"⟩ (.root next),
        .ok (platform.tag Bu.published (.root next))) := by
    have hpublish : Bu.publish platform ⟨false, "disk"⟩ (some full.revision) (.root next) =
        .ok (Bu.replace platform ⟨false, "disk"⟩ (.root next),
          platform.tag Bu.published (.root next)) := by
      rw [Bucket.publish, if_pos hrevision]
      rfl
    show transmit platform Bu ⟨false, "disk"⟩ (some full.revision) (.root next) .delivered = _
    simp only [transmit, hpublish]
  have hcommit := @commit_of_plan _ fullBucket unreadable _ _ _ _ rfl rfl hdirty rfl
    checkedAdd_full hplan
  have hjson : (platform.json (.root next)).length ≤ maxManifestBytes := by
    rw [show platform.json (.root next) = [1, 1, 0] from rfl]
    decide
  rw [finish_of_upload hchanged hupload hjson hsend (platform.tag_ne_empty _ _)] at hcommit
  exact ⟨_, _, _, platform.digest page, hcommit, rfl, rfl, rfl, rfl, _,
    Bucket.replace_heads_self platform Bu _ _⟩

/-- The dirty map has no room for the second chunk of this write. -/
theorem overflows_full : full.Overflows (1023 * chunkBytes + 1) ones.length := by
  have hfresh : full.dirty.contains 1024 = false := by
    by_contra hmem
    have hmem : 1024 ∈ full.dirty := Std.ExtTreeMap.contains_iff_mem.mp (by simpa using hmem)
    obtain ⟨b, hb⟩ := Option.isSome_iff_exists.mp
      (Std.ExtTreeMap.mem_iff_isSome_getElem?.mp hmem)
    exact absurd (full_dirty hb).1 (by decide)
  have hextra : 0 < full.extraChunks (1023 * chunkBytes + 1) ones.length := by
    rw [ones, List.length_replicate, IndexedVolume.extraChunks]
    apply List.length_pos_of_mem (a := 1024)
    rw [List.mem_filter, List.mem_range'_1, hfresh]
    refine ⟨?_, rfl⟩
    simp only [chunkBytes]
    omega
  exact overflows_of_size size_full_dirty hextra

/-- A poisoned handle on a replicated volume. -/
def poisoned : IndexedVolume :=
  { volume with
    root := { volume.root with format := 9, replication := some ⟨zeros 32, 1⟩ }, poisoned := true }

/-- The write commits to make room and then cannot read the chunk that it begins in. The head and
the dirty map have changed, and the error is not `Uncertain`. A commit of the poisoned handle is
refused because of the mark, and not with `ReopenRequired`. -/
theorem write_fails_after_commit : (∃ B v,
    full.write platform fullBucket unreadable (1023 * chunkBytes + 1) ones = (B, v, .error .store) ∧
    B.heads ≠ fullBucket.heads ∧ v.dirty ≠ full.dirty) ∧
    poisoned.commit platform bucket .none = (bucket, poisoned, .error .invalidInput) := by
  refine ⟨?_, rfl⟩
  obtain ⟨B, v, g, hash, hcommit, hpage, hdirty, hbase, hgen, rev, hhead⟩ := commit_full
  have hlen : ones.length = chunkBytes := List.length_replicate
  have hload : v.load platform (unreadable.view B) 1023 = .error .store := by
    have hpage : v.page platform (unreadable.view B) 0 = .error .store := by
      simp [IndexedVolume.page, IndexedVolume.inheritsPage, IndexedVolume.pageFrom, hpage, hbase,
        unreadable]
    rw [IndexedVolume.load, hdirty, Std.ExtTreeMap.getElem?_empty, show 1023 / slots = 0 from rfl,
      hpage]
  refine ⟨B, v, ?_, ?_, ?_⟩
  · exact write_of_commit rfl (by rw [hlen]; decide) (by rw [hlen]; decide)
      (by rw [hlen]; decide) overflows_full hcommit (by decide) hload
  · intro heads
    rw [heads] at hhead
    have hroot : full.root = v.root := by
      have hself : fullBucket.heads ⟨false, "disk"⟩ = some ⟨"r", .root full.root⟩ := by
        simp only [fullBucket, Function.update_self]
      rw [hself] at hhead
      exact Manifest.root.inj (Head.mk.inj (Option.some.inj hhead)).2
    rw [← hroot] at hgen
    cases hgen
  · intro hsame
    have hsize := size_full_dirty
    rw [← hsame, hdirty] at hsize
    exact absurd hsize (by decide)

end Sample

end AgentHouse.Volume
