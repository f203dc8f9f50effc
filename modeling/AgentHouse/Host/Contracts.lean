import AgentHouse.Host.Bindings

/-!
# The operations keep their contract

Each operation performs only actions that its contract allows, whatever the outside answers.
An operation that ends well leaves the entry in a state that the lemma about it describes.
-/

namespace AgentHouse.Host

namespace VolumeOp

variable {cfg : Config} {s : Slot} {α β : Type}

/-- The operation changes nothing. -/
def Quiet (cfg : Config) (p : VolumeOp α) (s : Slot) : Prop :=
  p.Keeps (volumeContract cfg) (fun _ s' => s' = s) s

/-- A quiet program ends where it began. -/
theorem Quiet.ends {p : VolumeOp α} {Q : α → Slot → Prop} (h : Quiet cfg p s) (hQ : ∀ a, Q a s) :
    p.Ends (volumeContract cfg) Q s :=
  (Op.Keeps.ends h).mono fun a _ hs => hs ▸ hQ a

/-- Two quiet programs in a row. -/
theorem Quiet.bind {p : VolumeOp α} {f : α → VolumeOp β} (hp : Quiet cfg p s)
    (hf : ∀ a, Quiet cfg (f a) s) : Quiet cfg (p >>= f) s := by
  rw [Quiet, Op.keeps_bind]
  refine Op.Keeps.mono hp ?_
  rintro (e | a) s' rfl
  · rfl
  · exact hf a

theorem Quiet.pure {a : α} : Quiet cfg (pure a) s := rfl

theorem Quiet.throw {e : String} : Quiet cfg (throw e : VolumeOp α) s := rfl

theorem Quiet.ite {p q : VolumeOp α} {c : Prop} [Decidable c] (hp : c → Quiet cfg p s)
    (hq : ¬ c → Quiet cfg q s) : Quiet cfg (if c then p else q) s := by
  by_cases hc : c
  · rw [if_pos hc]
    exact hp hc
  · rw [if_neg hc]
    exact hq hc

theorem Quiet.refuse {e : String} {c : Prop} [Decidable c] : Quiet cfg (Op.refuse c e) s :=
  .ite (fun _ => .throw) fun _ => .pure

/-- An action that is allowed and changes nothing. -/
theorem Quiet.perform {a : Act β} (h : a.allowed cfg s)
    (hdoes : ∀ b s', a.does cfg s b s' → s' = s) : Quiet cfg (Op.perform a) s :=
  ⟨h, fun b s' hb => hdoes b s' hb⟩

/-- An action that changes nothing is quiet. -/
theorem Quiet.attempt {a : Act (Result β)} (h : a.allowed cfg s)
    (hdoes : ∀ b s', a.does cfg s b s' → s' = s) : Quiet cfg (Op.attempt a) s :=
  ⟨h, fun b s' hb => hdoes b s' hb⟩

theorem quiet_ask {what : String} : Quiet cfg (ask what β) s := .perform trivial fun _ _ h => h

theorem quiet_call {what : String} : Quiet cfg (call what) s := .attempt trivial fun _ _ h => h

theorem quiet_question {what : String} : Quiet cfg (Op.attempt (.ask what (Result β))) s :=
  .attempt trivial fun _ _ h => h

/-- A device may be used while the volume holds it. -/
theorem quiet_use {device : Path} (h : s.Holds device) :
    Quiet cfg (Op.attempt (.useDevice device)) s :=
  .attempt h fun _ _ hb => hb

/-- And so may it be looked at. -/
theorem quiet_nbdPid {device : Path} (h : s.Holds device) :
    Quiet cfg (Op.attempt (.nbdPid device)) s :=
  .attempt h fun _ _ hb => hb.1

theorem quiet_removeGroup : Quiet cfg (removeGroup cfg) s :=
    .ite (fun _ => quiet_call) fun _ => .pure

/-- A pass reads its own record. -/
@[simp]
theorem record_bind {f : Record → VolumeOp β} {Q : Except String β → Slot → Prop} :
    (record >>= f).Keeps (volumeContract cfg) Q s ↔
      (f s.entry).Keeps (volumeContract cfg) Q s := by
  rw [Op.keeps_bind]
  constructor
  · intro h
    exact h.2 s.entry s ⟨rfl, rfl⟩
  · intro h
    refine ⟨trivial, ?_⟩
    rintro b s' ⟨rfl, rfl⟩
    exact h

theorem quiet_record_bind {f : Record → VolumeOp β} (h : Quiet cfg (f s.entry) s) :
    Quiet cfg (record >>= f) s :=
  record_bind.mpr h

/-- A refused condition need not be considered further. -/
theorem Quiet.guard {e : String} {c : Prop} [Decidable c] {f : Unit → VolumeOp β}
    (h : ¬ c → Quiet cfg (f ()) s) : Quiet cfg (Op.refuse c e >>= f) s := by
  by_cases hc : c
  · rw [Op.refuse, if_pos hc]
    exact Quiet.throw
  · rw [Op.refuse, if_neg hc]
    exact h hc

theorem quiet_control {command : String} (h : s.entry.evicted = false) :
    Quiet cfg (control s.entry command) s :=
  .guard fun _ => .bind (quiet_use ⟨h, rfl⟩) fun _ => quiet_question

/-- An inspection changes nothing. -/
theorem quiet_inspect : Quiet cfg (inspect s.entry) s := by
  refine .guard fun hevicted => ?_
  have hevicted : s.entry.evicted = false := by simpa using hevicted
  refine .bind (quiet_nbdPid ⟨hevicted, rfl⟩) fun _ => .guard fun _ => ?_
  exact .bind (quiet_control hevicted) fun _ => .refuse

theorem quiet_engineVm (h : s.entry.evicted = false) : Quiet cfg (engineVm s.entry) s := by
  refine .bind quiet_ask fun _ => .ite (fun _ => .pure) fun _ => ?_
  have hforeign : Quiet cfg (foreignSandbox s.entry) s :=
    .ite (fun _ => quiet_question) fun _ => .pure
  refine .bind hforeign fun _ => .ite (fun _ => .pure) fun _ => .bind quiet_call fun _ =>
    .bind quiet_question fun found => ?_
  cases found with
  | none => exact .pure
  | some p =>
    refine .bind quiet_question fun _ => .guard fun _ => .bind quiet_call fun _ => ?_
    exact .bind (quiet_use ⟨h, rfl⟩) fun _ => .bind quiet_ask fun _ => .pure

theorem quiet_vm : Quiet cfg vm s := by
  refine quiet_record_bind (.ite (fun _ => .pure) fun hevicted => ?_)
  have hengine : Quiet cfg (engineVm s.entry) s := quiet_engineVm (by simpa using hevicted)
  cases hvm : s.entry.vm with
  | none => exact hengine
  | some p =>
    refine .bind quiet_question fun _ => .ite (fun _ => ?_) fun _ => hengine
    exact .bind quiet_call fun _ => .pure

section Ends

variable {Q : β → Slot → Prop}

theorem ends_record_bind {f : Record → VolumeOp β}
    (h : (f s.entry).Ends (volumeContract cfg) Q s) :
    (record >>= f).Ends (volumeContract cfg) Q s :=
  record_bind.mpr h

/-- What follows a quiet program starts where it did. -/
theorem Quiet.ends_bind {p : VolumeOp α} {f : α → VolumeOp β} (hp : Quiet cfg p s)
    (hf : ∀ a, (f a).Ends (volumeContract cfg) Q s) :
    (p >>= f).Ends (volumeContract cfg) Q s :=
  Op.ends_bind.mpr (hp.ends hf)

/-- After a check that did not refuse. -/
theorem ends_guard {e : String} {c : Prop} [Decidable c] {f : Unit → VolumeOp β}
    (h : ¬ c → (f ()).Ends (volumeContract cfg) Q s) :
    (Op.refuse c e >>= f).Ends (volumeContract cfg) Q s :=
  Op.ends_bind.mpr (Op.ends_refuse.mpr h)

/-- After a change of the record in memory. -/
theorem ends_assign_bind {f : Record → Record} {g : Unit → VolumeOp β}
    (hf : s.Revises cfg (f s.entry)) (hg : (g ()).Ends (volumeContract cfg) Q (s.assign f)) :
    (assign f >>= g).Ends (volumeContract cfg) Q s := by
  refine Op.ends_bind.mpr ⟨hf, ?_⟩
  rintro ⟨⟩ s' rfl
  exact hg

theorem ends_persist {Q : Unit → Slot → Prop} (h : Q () (s.store s.entry)) :
    persist.Ends (volumeContract cfg) Q s := by
  refine ends_record_bind ⟨rfl, ?_⟩
  rintro (e | ⟨⟩) s' hdoes
  · trivial
  · obtain rfl | ⟨hfail, _⟩ := hdoes
    · exact h
    · exact absurd ⟨(), rfl⟩ hfail

/-- After a save. -/
theorem ends_persist_bind {g : Unit → VolumeOp β}
    (h : (g ()).Ends (volumeContract cfg) Q (s.store s.entry)) :
    (persist >>= g).Ends (volumeContract cfg) Q s :=
  Op.ends_bind.mpr (ends_persist h)

/-- The entry is changed and written. -/
theorem ends_write_bind {f : Record → Record} {g : Unit → VolumeOp β} (h : s.Sound cfg)
    (hf : s.Revises cfg (f s.entry))
    (hg : ∀ s', s'.Sound cfg → s'.entry = f s.entry → s'.volume.record = some (f s.entry) →
      (g ()).Ends (volumeContract cfg) Q s') :
    (assign f >>= fun _ => persist >>= g).Ends (volumeContract cfg) Q s :=
  ends_assign_bind hf (ends_persist_bind (hg _ (h.assign hf).store rfl rfl))

/-- The entry is changed and written at the end of an operation. -/
theorem ends_write {f : Record → Record} {Q : Unit → Slot → Prop}
    (hf : s.Revises cfg (f s.entry)) (hQ : ∀ s', s'.entry = f s.entry → Q () s') :
    (assign f >>= fun _ => persist).Ends (volumeContract cfg) Q s :=
  ends_assign_bind hf (ends_persist (hQ _ rfl))

/-- After the owner's directory has been made. -/
theorem ends_ownerDir_bind {f : Unit → VolumeOp β}
    (h : (f ()).Ends (volumeContract cfg) Q (s.withOwner true)) :
    (Op.attempt .ownerDir >>= f).Ends (volumeContract cfg) Q s := by
  refine Op.ends_bind.mpr ⟨trivial, ?_⟩
  rintro (e | ⟨⟩) s' hdoes
  · trivial
  · obtain rfl | ⟨hfail, _⟩ := hdoes
    · exact h
    · exact absurd ⟨(), rfl⟩ hfail

end Ends

/-- A disconnection that succeeds leaves no link. -/
theorem disconnectDevice_ends (h : s.Sound cfg) (hevicted : s.entry.evicted = false) :
    (disconnectDevice s.entry).Ends (volumeContract cfg) (fun _ s' => s' = s.withLink none) s := by
  refine Op.ends_bind.mpr ⟨⟨hevicted, rfl⟩, ?_⟩
  rintro (e | _ | pid) s' ⟨rfl, hfound⟩
  · trivial
  · exact (h.withLink_none (hfound rfl)).symm
  · refine ends_guard fun _ => Op.ends_bind.mpr ⟨⟨hevicted, rfl⟩, ?_⟩
    rintro (e | ⟨⟩) s₁ hdisconnect
    · trivial
    · refine ⟨?_, ?_⟩
      · obtain rfl | ⟨_, rfl⟩ := hdisconnect
        · exact ⟨hevicted, rfl⟩
        · exact ⟨hevicted, rfl⟩
      · rintro (e | ⟨⟩) s₂ ⟨hwait, hfree⟩
        · trivial
        · have hfree : s₂.volume.link ≠ some s'.entry.device := hfree ⟨(), rfl⟩
          obtain rfl | ⟨_, rfl⟩ := hdisconnect
          · obtain rfl | ⟨_, rfl⟩ := hwait
            · exact (h.withLink_none hfree).symm
            · rfl
          · obtain rfl | ⟨_, rfl⟩ := hwait
            · rfl
            · rfl

/-- A detachment leaves no process and no link. -/
theorem detach_ends (h : s.Sound cfg) :
    (detach cfg).Ends (volumeContract cfg)
      (fun _ s' => s' = if s.entry.evicted = true then s else s.detached) s := by
  refine ends_record_bind ?_
  cases hevicted : s.entry.evicted with
  | true => rfl
  | false =>
    refine quiet_vm.ends_bind fun _ => ends_guard fun _ => ?_
    refine (quiet_use ⟨hevicted, rfl⟩).ends_bind fun _ => Op.ends_bind.mpr ?_
    refine (disconnectDevice_ends h hevicted).mono ?_
    rintro ⟨⟩ s' rfl
    have hstop : Quiet cfg (Op.when s.entry.worker.isSome (call "stop worker"))
        (s.withLink none) := .ite (fun _ => quiet_call) fun _ => .pure
    have hchown : Quiet cfg (Op.when s.entry.deleted (Op.attempt (.useDevice s.entry.device)))
        (s.withLink none) := .ite (fun _ => quiet_use ⟨hevicted, rfl⟩) fun _ => .pure
    refine hstop.ends_bind fun _ => hchown.ends_bind fun _ => ends_assign_bind ?_ ?_
    · refine h.unlinked.revises h.entry.stopped ⟨rfl, rfl, rfl, fun h => h⟩ rfl rfl rfl rfl ?_
      intro _ p hp
      cases hp
    · exact ends_persist_bind (quiet_removeGroup.ends fun _ => rfl)

/-- A process that has entered the cgroup may be recorded. -/
theorem enterGroup_ends {p : Process} :
    (enterGroup cfg p).Ends (volumeContract cfg)
      (fun _ s' => s'.entry = s.entry ∧ s'.volume.record = s.volume.record ∧
        (cfg.resources = true → p ∈ s'.volume.group)) s := by
  refine Op.ends_ite.mpr ⟨fun _ => ⟨trivial, ?_⟩, fun hr => ?_⟩
  · rintro (e | ⟨⟩) s' hdoes
    · trivial
    · obtain rfl | ⟨hfail, _⟩ := hdoes
      · exact ⟨rfl, rfl, fun _ => List.mem_cons_self⟩
      · exact absurd ⟨(), rfl⟩ hfail
  · exact ⟨rfl, rfl, fun h => absurd h hr⟩

/-- A resident record whose processes change. -/
theorem sound_processes {e : Record} (h : s.entry.Sound cfg) (hevicted : s.entry.evicted = false)
    (hprepared : s.entry.prepared = true)
    (he : { s.entry with worker := e.worker, client := e.client, vm := e.vm } = e) :
    e.Sound cfg := by
  rw [← he]
  refine ⟨h.sandbox, h.device, h.size, h.gcAfter, fun _ => hprepared, ?_, h.released, h.reclaimed⟩
  intro hev
  exact absurd (hevicted.symm.trans hev) Bool.false_ne_true

/-- A client is attached to the device that is held. -/
theorem attachClient_ends (h : s.Sound cfg) (hevicted : s.entry.evicted = false)
    (hprepared : s.entry.prepared = true) :
    (attachClient cfg s.entry.device).Ends (volumeContract cfg)
      (fun _ s' => s'.entry.evicted = false) s := by
  refine quiet_question.ends_bind fun p => Op.ends_bind.mpr ?_
  refine (enterGroup_ends.invariant volumeContract_preserves h).mono ?_
  rintro ⟨⟩ s₁ ⟨hs, hentry, _, hgroup⟩
  have hevicted₁ : s₁.entry.evicted = false := by rw [hentry, hevicted]
  have hprepared₁ : s₁.entry.prepared = true := by rw [hentry, hprepared]
  refine ends_write_bind hs ?_ fun s₂ hs₂ hentry₂ hrecord₂ => ?_
  · refine hs.revises (sound_processes hs.entry hevicted₁ hprepared₁ rfl)
      ⟨rfl, rfl, rfl, fun h => h⟩
      rfl rfl rfl rfl ?_
    intro hr q hq
    obtain hworker | hclient := Record.mem_processes.mp hq
    · exact .inl (Record.mem_processes.mpr (.inl hworker))
    · cases hclient
      exact .inr (hgroup hr)
  · have hevicted₂ : s₂.entry.evicted = false := by rw [hentry₂]; exact hevicted₁
    have hdevice : s₂.entry.device = s.entry.device := by rw [hentry₂, hentry]
    refine ⟨⟨⟨hevicted₂, hdevice⟩, ?_, _, hrecord₂, hevicted₁, hprepared₁, ?_⟩, ?_⟩
    · rw [hentry₂]
      exact hprepared₁
    · rw [hentry]
    · rintro (e | ⟨⟩) s₃ hdoes
      · trivial
      · obtain rfl | ⟨_, rfl⟩ := hdoes
        · exact hevicted₂
        · exact hevicted₂

/-- An attachment keeps the slot in order. -/
theorem attach_ends (h : s.Sound cfg) (hprepared : s.entry.prepared = true) :
    (attach cfg).Ends (volumeContract cfg) (fun _ s' => s'.entry.evicted = false) s := by
  refine ends_record_bind (ends_guard fun hevicted => ?_)
  have hevicted : s.entry.evicted = false := by simpa using hevicted
  refine Op.ends_bind.mpr (Op.ends_outcome.mpr (Op.Keeps.mono quiet_inspect ?_))
  rintro found s' rfl
  refine Op.ends_ite.mpr ⟨fun _ => hevicted, fun _ => Op.ends_bind.mpr ?_⟩
  refine ((detach_ends h).invariant volumeContract_preserves h).mono ?_
  rintro ⟨⟩ s₁ ⟨hs₁, hdetached⟩
  rw [hevicted, if_neg Bool.false_ne_true] at hdetached
  subst hdetached
  have hholds : s'.detached.Holds s'.detached.entry.device := ⟨hevicted, rfl⟩
  refine ends_record_bind ((quiet_use hholds).ends_bind fun _ => ends_ownerDir_bind ?_)
  have howned : (s'.detached.withOwner true).Holds s'.detached.entry.device := hholds
  refine (quiet_use howned).ends_bind fun _ => quiet_question.ends_bind fun p => Op.ends_bind.mpr ?_
  refine (enterGroup_ends.invariant volumeContract_preserves hs₁.withOwner).mono ?_
  rintro ⟨⟩ s₃ ⟨hs₃, hentry, _, hgroup⟩
  have hevicted₃ : s₃.entry.evicted = false := by rw [hentry]; exact hevicted
  have hprepared₃ : s₃.entry.prepared = true := by rw [hentry]; exact hprepared
  have hrevises : s₃.Revises cfg { s₃.entry with worker := some p } := by
    refine hs₃.revises (sound_processes hs₃.entry hevicted₃ hprepared₃ rfl)
      ⟨rfl, rfl, rfl, fun h => h⟩ rfl rfl rfl rfl ?_
    intro hr q hq
    obtain hworker | hclient := Record.mem_processes.mp hq
    · cases hworker
      exact .inr (hgroup hr)
    · exact .inl (Record.mem_processes.mpr (.inr hclient))
  refine ends_write_bind hs₃ hrevises fun s₄ hs₄ hentry₄ _ => ?_
  have hevicted₄ : s₄.entry.evicted = false := by rw [hentry₄]; exact hevicted₃
  have hprepared₄ : s₄.entry.prepared = true := by rw [hentry₄]; exact hprepared₃
  refine quiet_call.ends_bind fun _ => ends_record_bind ?_
  refine (quiet_control hevicted₄).ends_bind fun _ => ?_
  refine Op.ends_bind.mpr ((attachClient_ends hs₄ hevicted₄ hprepared₄).mono ?_)
  intro _ s₅ hevicted₅
  refine ends_record_bind ((quiet_nbdPid ⟨hevicted₅, rfl⟩).ends_bind fun _ => ?_)
  refine ends_guard fun _ => (quiet_use ⟨hevicted₅, rfl⟩).ends_bind fun _ => ?_
  exact quiet_inspect.ends fun _ => hevicted₅

/-- A recorded digest leaves the file and the kind of the record alone. -/
theorem recordHash_ends {hash : String} (h : s.Sound cfg) (hfile : s.volume.record ≠ none) :
    (recordHash s.entry hash).Ends (volumeContract cfg)
      (fun _ s' => s'.Sound cfg ∧ s'.volume.record ≠ none) s := by
  refine Op.ends_ite.mpr ⟨fun _ => ?_, fun _ => Op.ends_refuse.mpr fun _ => ⟨h, hfile⟩⟩
  refine ends_assign_bind ?_ (ends_persist ?_)
  · refine h.revises ?_ ⟨rfl, rfl, rfl, fun h => h⟩ rfl rfl rfl rfl fun _ p hp => .inl hp
    exact ⟨h.entry.sandbox, h.entry.device, h.entry.size, h.entry.gcAfter, h.entry.used,
      h.entry.evicted, h.entry.released, h.entry.reclaimed⟩
  · refine ⟨(h.assign ?_).store, Option.some_ne_none _⟩
    refine h.revises ?_ ⟨rfl, rfl, rfl, fun h => h⟩ rfl rfl rfl rfl fun _ p hp => .inl hp
    exact ⟨h.entry.sandbox, h.entry.device, h.entry.size, h.entry.gcAfter, h.entry.used,
      h.entry.evicted, h.entry.released, h.entry.reclaimed⟩

/-- So does a preparation. -/
theorem prepare_ends (h : s.Sound cfg) (hfile : s.volume.record ≠ none) :
    prepare.Ends (volumeContract cfg) (fun _ _ => True) s := by
  refine ends_record_bind (Op.ends_ite.mpr ⟨fun _ => trivial, fun _ => ?_⟩)
  refine Op.ends_guarded trivial (fun b s' hdoes => ?_) fun _ => trivial
  obtain rfl : s' = s := hdoes
  have hcheck : ∀ hash, Quiet cfg (Op.attempt (.checkDigest hash)) s' :=
    fun _ => .attempt trivial fun _ _ hb => hb
  refine quiet_question.ends_bind fun _ => ends_guard fun _ =>
    quiet_question.ends_bind fun hash => ?_
  refine (hcheck hash).ends_bind fun _ => Op.ends_bind.mpr ((recordHash_ends h hfile).mono ?_)
  rintro ⟨⟩ s₁ ⟨hs₁, hfile₁⟩
  refine quiet_call.ends_bind fun _ => quiet_call.ends_bind fun _ =>
    ends_write ?_ fun _ _ => trivial
  refine ⟨?_, ⟨rfl, rfl, rfl, fun h => h⟩, rfl, rfl, rfl, fun hnone => absurd hnone hfile₁,
    fun _ => rfl, fun hr p hp => hs₁.group hr s₁.entry (.inl rfl) p hp⟩
  exact ⟨hs₁.entry.sandbox, hs₁.entry.device, hs₁.entry.size, hs₁.entry.gcAfter, fun _ => rfl,
    fun he => ⟨.inl rfl, (hs₁.entry.evicted he).2⟩, hs₁.entry.released, hs₁.entry.reclaimed⟩

/-- A record that nobody wants or uses gives up its device when nothing is attached. -/
theorem yields (h : s.Sound cfg) (hlink : s.volume.link = none) (hidle : s.entry.busy = false)
    {e : Record} (he : { s.entry with logicalReleased := e.logicalReleased, evicted := true } = e)
    (hkind : e.prepared = true ∨ e.deleted = true)
    (hreleased : e.logicalReleased = true → e.deleted = true)
    (hkept : s.entry.logicalReleased = true → e.logicalReleased = true) : s.Yields cfg e := by
  rw [← he] at hkind hreleased hkept ⊢
  refine ⟨⟨h.entry.sandbox, h.entry.device, h.entry.size, h.entry.gcAfter, h.entry.used,
    ?_, ?_, ?_⟩,
    ⟨rfl, rfl, rfl, fun h => h⟩, rfl, rfl, rfl, hkept, rfl, hlink, ?_⟩
  · exact fun _ => ⟨hkind, hidle⟩
  · exact fun hr => ⟨rfl, hreleased hr⟩
  · exact fun hr => hkept (h.entry.reclaimed hr)
  · exact Record.Sound.processes_eq_nil (r := s.entry) hidle

/-- After a record has been published. -/
theorem ends_publish {next : Record} {Q : Unit → Slot → Prop} (hnext : s.Yields cfg next)
    (hQ : Q () (s.adopt next)) : (Op.attempt (.publish next)).Ends (volumeContract cfg) Q s := by
  refine ⟨hnext, ?_⟩
  rintro (e | ⟨⟩) s' hdoes
  · trivial
  · obtain ⟨_, rfl⟩ | ⟨hfail, _⟩ := hdoes
    · exact hQ
    · exact absurd ⟨(), rfl⟩ hfail

/-- An eviction gives the device up only when the link is gone. -/
theorem evictWithStore_ends (h : s.Sound cfg) (hlink : s.volume.link = none) :
    (evictWithStore cfg).Ends (volumeContract cfg) (fun _ _ => True) s := by
  refine ends_record_bind (ends_guard fun hfit => ?_)
  simp only [notEvictable, Bool.or_eq_true, not_or, Bool.not_eq_true, Bool.not_eq_false',
    Option.isSome_eq_false_iff, Option.isNone_iff_eq_none] at hfit
  obtain ⟨⟨⟨⟨⟨⟨hdeleted, hprepared⟩, _⟩, hdesired⟩, hworker⟩, hclient⟩, hvm⟩ := hfit
  have hidle : s.entry.busy = false := by simp [Record.busy, hdesired, hworker, hclient, hvm]
  have hreleased : s.entry.logicalReleased = true → s.entry.deleted = true :=
    fun hr => (h.entry.released hr).2
  refine quiet_removeGroup.ends_bind fun _ => quiet_call.ends_bind fun _ => ?_
  exact ends_publish (yields h hlink hidle rfl (.inl hprepared) hreleased fun h => h) trivial

/-- Nothing is attached to a resident device that was found free. -/
theorem nbdPid_ends_bind {f : Option ℕ → VolumeOp β} {Q : β → Slot → Prop} (h : s.Sound cfg)
    (hevicted : s.entry.evicted = false)
    (hf : ∀ pid, (pid = none → s.volume.link = none) → (f pid).Ends (volumeContract cfg) Q s) :
    (Op.attempt (.nbdPid s.entry.device) >>= f).Ends (volumeContract cfg) Q s := by
  refine Op.ends_bind.mpr ⟨⟨hevicted, rfl⟩, ?_⟩
  rintro (e | pid) s' ⟨rfl, hfound⟩
  · trivial
  · refine hf pid ?_
    rintro rfl
    have := h.withLink_none (hfound rfl)
    rw [← this]
    rfl

/-- The same with the detachment before it. -/
theorem evict_ends (h : s.Sound cfg) : (evict cfg).Ends (volumeContract cfg)
    (fun _ _ => True) s := by
  refine ends_record_bind (Op.ends_ite.mpr ⟨fun _ => trivial, fun hevicted => ?_⟩)
  have hevicted : s.entry.evicted = false := by simpa using hevicted
  refine ends_guard fun _ => quiet_vm.ends_bind fun _ => ends_guard fun _ => ?_
  refine nbdPid_ends_bind h hevicted fun pid hlink => ends_guard fun hpid => ?_
  have hlink : s.volume.link = none := hlink (by simpa using hpid)
  exact (quiet_use ⟨hevicted, rfl⟩).ends_bind fun _ => evictWithStore_ends h hlink

/-- A deleted volume releases its logical bytes. -/
theorem releaseDeletedLocal_ends (h : s.Sound cfg) :
    (releaseDeletedLocal cfg).Ends (volumeContract cfg)
      (fun _ s' => s'.entry.logicalReleased = true) s := by
  refine ends_record_bind (ends_guard fun _ => Op.ends_bind.mpr ?_)
  have hdetach : (Op.when (!s.entry.reclaimed && !s.entry.evicted && s.entry.prepared)
      (detach cfg)).Ends (volumeContract cfg) (fun _ s' => s'.volume.link = none) s := by
    refine Op.ends_when.mpr ⟨fun hc => (detach_ends h).mono fun _ s' hs' => ?_, fun hc => ?_⟩
    · simp only [Bool.and_eq_true, Bool.not_eq_true'] at hc
      rw [hc.1.2, if_neg Bool.false_ne_true] at hs'
      rw [hs']
      rfl
    · cases hevicted : s.entry.evicted with
      | true => exact h.link_eq_none hevicted
      | false =>
        have hlive : s.entry.reclaimed = false := by
          cases hr : s.entry.reclaimed with
          | false => rfl
          | true =>
            have := (h.entry.released (h.entry.reclaimed hr)).1
            rw [hevicted] at this
            cases this
        rw [Option.eq_none_iff_forall_not_mem]
        intro d hd
        have hprepared := (h.link d hd).2.2.1
        simp [hevicted, hlive, hprepared] at hc
  refine (hdetach.invariant volumeContract_preserves h).mono ?_
  rintro ⟨⟩ s₁ ⟨hs₁, hlink⟩
  refine ends_record_bind (ends_guard fun hfit => Op.ends_ite.mpr ⟨fun hc => ?_, fun _ => ?_⟩)
  · simp only [Bool.and_eq_true] at hc
    exact hc.1
  · simp only [Bool.or_eq_true, Bool.not_eq_true', not_or, Bool.not_eq_false,
      Bool.not_eq_true] at hfit
    refine ends_ownerDir_bind (quiet_call.ends_bind fun _ => ends_publish ?_ rfl)
    have howned : (s₁.withOwner true).Sound cfg := hs₁.withOwner
    refine yields howned hlink hfit.2 ?_ (.inr hfit.1) (fun _ => hfit.1) fun _ => rfl
    rfl

/-- A reclamation keeps the slot in order. -/
theorem reclaimWithStore_ends (h : s.Sound cfg) :
    (reclaimWithStore cfg).Ends (volumeContract cfg) (fun _ _ => True) s := by
  refine ends_record_bind (ends_guard fun _ => Op.ends_bind.mpr ?_)
  refine ((releaseDeletedLocal_ends h).invariant volumeContract_preserves h).mono ?_
  rintro ⟨⟩ s₁ ⟨hs₁, hreleased⟩
  refine quiet_call.ends_bind fun _ => ends_ownerDir_bind (quiet_call.ends_bind fun _ => ?_)
  refine quiet_question.ends_bind fun complete => Op.ends_when.mpr ⟨fun _ => ?_, fun _ => trivial⟩
  refine quiet_removeGroup.ends_bind fun _ => Op.ends_bind.mpr ⟨trivial, ?_⟩
  rintro (e | ⟨⟩) s₂ hdoes
  · trivial
  · obtain rfl | ⟨hfail, _⟩ := hdoes
    · refine ends_write ?_ fun _ _ => trivial
      refine hs₁.withOwner.withOwner.revises ?_ ⟨rfl, rfl, rfl, fun _ => rfl⟩ rfl rfl rfl rfl
        fun _ p hp => .inl hp
      exact ⟨hs₁.entry.sandbox, hs₁.entry.device, hs₁.entry.size, hs₁.entry.gcAfter,
        hs₁.entry.used, hs₁.entry.evicted, hs₁.entry.released, fun _ => hreleased⟩
    · exact absurd ⟨(), rfl⟩ hfail

/-- The same with the detachment before it. -/
theorem reclaim_ends (h : s.Sound cfg) :
    (reclaim cfg).Ends (volumeContract cfg) (fun _ _ => True) s := by
  refine Op.ends_bind.mpr ?_
  refine ((releaseDeletedLocal_ends h).invariant volumeContract_preserves h).mono ?_
  rintro ⟨⟩ s₁ ⟨hs₁, _⟩
  exact reclaimWithStore_ends hs₁

/-- An assignment that only moves the cursors of a collection. -/
theorem revises_cursors (h : s.Sound cfg) {e : Record} (hgc : e.gcAfter.all validId = true)
    (he : { s.entry with
      compactAfter := e.compactAfter, compactRevision := e.compactRevision, gcAfter := e.gcAfter,
      gcEligible := e.gcEligible, gcLastCompleted := e.gcLastCompleted } = e) :
    s.Revises cfg e := by
  rw [← he] at hgc ⊢
  refine h.revises ?_ ⟨rfl, rfl, rfl, fun h => h⟩ rfl rfl rfl rfl fun _ p hp => .inl hp
  exact ⟨h.entry.sandbox, h.entry.device, h.entry.size, hgc, h.entry.used, h.entry.evicted,
    h.entry.released, h.entry.reclaimed⟩

/-- Compaction needs no device. -/
theorem compactOffline_ends (h : s.Sound cfg) :
    (compactOffline s.entry).Ends (volumeContract cfg) (fun _ _ => True) s := by
  refine quiet_question.ends_bind fun revision => Op.ends_bind.mpr ?_
  have hreset : (Op.when (s.entry.compactRevision ≠ some revision)
      (assign fun r => { r with compactAfter := none })).Ends (volumeContract cfg)
      (fun _ _ => True) s := by
    refine Op.ends_when.mpr ⟨fun _ => ⟨revises_cursors h h.entry.gcAfter rfl, ?_⟩, fun _ => trivial⟩
    exact fun _ _ _ => trivial
  refine (hreset.invariant volumeContract_preserves h).mono ?_
  rintro ⟨⟩ s₁ ⟨hs₁, _⟩
  refine quiet_question.ends_bind fun _ => quiet_question.ends_bind fun _ => ?_
  exact ⟨revises_cursors hs₁ hs₁.entry.gcAfter rfl, fun _ _ _ => trivial⟩

/-- Collection uses only the device that is held. -/
theorem collectOffline_ends (h : s.Sound cfg) (hevicted : s.entry.evicted = false) :
    collectOffline.Ends (volumeContract cfg) (fun _ _ => True) s := by
  have hholds : s.Holds s.entry.device := ⟨hevicted, rfl⟩
  refine ends_record_bind (ends_guard fun _ => quiet_vm.ends_bind fun _ => ends_guard fun _ => ?_)
  refine (quiet_nbdPid hholds).ends_bind fun _ => ends_guard fun _ => ?_
  refine (quiet_use hholds).ends_bind fun _ => quiet_call.ends_bind fun _ => ?_
  refine quiet_call.ends_bind fun _ => ends_ownerDir_bind (quiet_call.ends_bind fun _ => ?_)
  refine quiet_ask.ends_bind fun unmarked => Op.ends_bind.mpr ?_
  have hcompact : (Op.when (s.entry.gcAfter = none && unmarked)
      (compactOffline s.entry)).Ends (volumeContract cfg) (fun _ _ => True) (s.withOwner true) :=
    Op.ends_when.mpr ⟨fun _ => compactOffline_ends h.withOwner, fun _ => trivial⟩
  refine (hcompact.invariant volumeContract_preserves h.withOwner).mono ?_
  rintro ⟨⟩ s₁ ⟨hs₁, _⟩
  refine quiet_question.ends_bind fun after => ends_guard fun hafter => ?_
  refine quiet_question.ends_bind fun now => ends_write ?_ fun _ _ => trivial
  refine revises_cursors hs₁ ?_ rfl
  cases after with
  | none => rfl
  | some key => simpa using hafter

/-- Recovery of a volume that nobody wants attached. -/
theorem recoverDetached_ends (h : s.Sound cfg) :
    (recoverDetached cfg).Ends (volumeContract cfg) (fun _ _ => True) s := by
  refine ends_record_bind (Op.ends_bind.mpr ?_)
  have hdetach : (Op.when (s.entry.worker.isSome || s.entry.client.isSome || s.entry.vm.isSome)
      (detach cfg)).Ends (volumeContract cfg) (fun _ _ => True) s :=
    Op.ends_when.mpr ⟨fun _ => (detach_ends h).mono fun _ _ _ => trivial, fun _ => trivial⟩
  refine (hdetach.invariant volumeContract_preserves h).mono ?_
  rintro ⟨⟩ s₁ ⟨hs₁, _⟩
  refine ends_record_bind (Op.ends_ite.mpr ⟨fun _ => reclaim_ends hs₁, fun _ => ?_⟩)
  refine Op.ends_when.mpr ⟨fun hc => Op.ends_bind.mpr ?_, fun _ => trivial⟩
  simp only [Bool.and_eq_true, Bool.not_eq_true'] at hc
  refine ((collectOffline_ends hs₁ hc.2).invariant volumeContract_preserves hs₁).mono ?_
  rintro ⟨⟩ s₂ ⟨hs₂, _⟩
  refine ends_record_bind (quiet_ask.ends_bind fun _ => ?_)
  exact Op.ends_when.mpr ⟨fun _ => evict_ends hs₂, fun _ => trivial⟩

/-- Recovery of one that should be. -/
theorem recoverAttached_ends (h : s.Sound cfg) (hdesired : s.entry.desired = true) :
    (recoverAttached cfg).Ends (volumeContract cfg) (fun _ _ => True) s := by
  refine ends_record_bind ?_
  refine Op.ends_bind.mpr (Op.ends_outcome.mpr (Op.Keeps.mono quiet_inspect ?_))
  rintro found s' rfl
  refine Op.ends_ite.mpr ⟨fun _ => trivial, fun _ => quiet_ask.ends_bind fun _ => ?_⟩
  refine ends_guard fun _ => quiet_vm.ends_bind fun running => ?_
  have hstop : Quiet cfg (Op.when running.isSome (call "stop VM")) s' :=
    .ite (fun _ => quiet_call) fun _ => .pure
  refine hstop.ends_bind fun _ => Op.ends_bind.mpr ?_
  refine ((detach_ends h).invariant volumeContract_preserves h).mono ?_
  rintro ⟨⟩ s₁ ⟨hs₁, hdetached⟩
  have hprepared : s'.entry.prepared = true := h.entry.used (by simp [Record.busy, hdesired])
  have hprepared₁ : s₁.entry.prepared = true := by
    rw [hdetached]
    split
    · exact hprepared
    · exact hprepared
  exact (attach_ends hs₁ hprepared₁).mono fun _ _ _ => trivial

/-- A pass of the recovery loop keeps the slot in order. -/
theorem recover_ends (h : s.Sound cfg) :
    (recover cfg).Ends (volumeContract cfg) (fun _ _ => True) s := by
  refine ends_record_bind (Op.ends_ite.mpr ⟨fun _ => recoverDetached_ends h, fun hc => ?_⟩)
  refine recoverAttached_ends h ?_
  simp only [Bool.or_eq_true, Bool.not_eq_true', not_or, Bool.not_eq_false] at hc
  exact hc.2

/-- A reserved volume is resident. -/
theorem reserveResidency_ends (hprepared : s.entry.prepared = true)
    (hdeleted : s.entry.deleted = false) :
    reserveResidency.Ends (volumeContract cfg)
      (fun _ s' => s'.entry.evicted = false ∧ s'.entry.prepared = true) s := by
  refine ends_record_bind (Op.ends_ite.mpr ⟨fun hc => ⟨by simpa using hc, hprepared⟩, fun hc => ?_⟩)
  refine ⟨⟨by simpa using hc, hprepared, hdeleted⟩, ?_⟩
  rintro (e | ⟨⟩) s' hdoes
  · trivial
  · obtain ⟨device, _, ⟨_, rfl⟩ | ⟨hfail, _⟩⟩ := hdoes
    · exact ⟨rfl, hprepared⟩
    · exact absurd ⟨(), rfl⟩ hfail

/-- A disk that passes an inspection is attached. -/
theorem inspect_ends :
    (inspect s.entry).Ends (volumeContract cfg)
      (fun _ s' => s' = s ∧ s.entry.evicted = false ∧ s.entry.client ≠ none) s := by
  refine ends_guard fun hevicted => ?_
  have hevicted : s.entry.evicted = false := by simpa using hevicted
  refine (quiet_nbdPid ⟨hevicted, rfl⟩).ends_bind fun _ => ends_guard fun hclient => ?_
  refine (quiet_control hevicted).ends_bind fun _ => Op.ends_refuse.mpr fun _ => ?_
  exact ⟨rfl, hevicted, fun hnone => hclient (.inr hnone)⟩

/-- The requests, one by one. -/
theorem attachRequest_ends (h : s.Sound cfg) (hdeleted : s.entry.deleted = false) {q : Request}
    (hq : q.operation = .attach) : (live cfg q).Ends (volumeContract cfg) (fun _ _ => True) s := by
  refine ends_record_bind ?_
  rw [hq]
  refine ends_guard fun hprepared => quiet_vm.ends_bind fun _ => ends_guard fun _ => ?_
  have hprepared : s.entry.prepared = true := by simpa using hprepared
  refine Op.ends_bind.mpr ?_
  refine ((reserveResidency_ends hprepared hdeleted).invariant volumeContract_preserves h).mono ?_
  rintro ⟨⟩ s₁ ⟨hs₁, hevicted₁, hprepared₁⟩
  refine ends_write_bind hs₁ ?_ fun s₂ hs₂ hentry₂ _ => ?_
  · refine hs₁.revises ?_ ⟨rfl, rfl, rfl, fun h => h⟩ rfl rfl rfl rfl fun _ p hp => .inl hp
    refine ⟨hs₁.entry.sandbox, hs₁.entry.device, hs₁.entry.size, rfl, fun _ => hprepared₁, ?_,
      hs₁.entry.released, hs₁.entry.reclaimed⟩
    intro hev
    exact absurd (hevicted₁.symm.trans hev) Bool.false_ne_true
  · refine (attach_ends hs₂ ?_).mono fun _ _ _ => trivial
    rw [hentry₂]
    exact hprepared₁

theorem bindRequest_ends (h : s.Sound cfg) {q : Request} (hq : q.operation = .bind) :
    (live cfg q).Ends (volumeContract cfg) (fun _ _ => True) s := by
  refine ends_record_bind ?_
  rw [hq]
  refine Op.ends_bind.mpr (inspect_ends.mono ?_)
  rintro ⟨⟩ s₁ ⟨rfl, hevicted, hclient⟩
  refine quiet_vm.ends_bind fun found => ?_
  cases found with
  | none => trivial
  | some p =>
    have hprepared : s₁.entry.prepared = true :=
      h.entry.used (by simp [Record.busy, Option.isSome_iff_ne_none.mpr hclient])
    refine ends_write ?_ fun _ _ => trivial
    exact h.revises (sound_processes h.entry hevicted hprepared rfl) ⟨rfl, rfl, rfl, fun h => h⟩
      rfl rfl rfl rfl fun _ p hp => .inl hp

theorem syncRequest_ends (h : s.Sound cfg) (hdeleted : s.entry.deleted = false) {q : Request}
    (hq : q.operation = .sync) : (live cfg q).Ends (volumeContract cfg) (fun _ _ => True) s := by
  refine ends_record_bind ?_
  rw [hq]
  refine ends_guard fun hprepared => Op.ends_bind.mpr ?_
  have hprepared : s.entry.prepared = true := by simpa using hprepared
  refine ((reserveResidency_ends hprepared hdeleted).invariant volumeContract_preserves h).mono ?_
  rintro ⟨⟩ s₁ ⟨hs₁, _, hprepared₁⟩
  refine Op.ends_bind.mpr ?_
  refine ((attach_ends hs₁ hprepared₁).invariant volumeContract_preserves hs₁).mono ?_
  rintro ⟨⟩ s₂ ⟨hs₂, hevicted₂⟩
  refine ends_record_bind ((quiet_control hevicted₂).ends_bind fun _ => ?_)
  refine Op.ends_when.mpr ⟨fun _ => ?_, fun _ => trivial⟩
  exact (detach_ends hs₂).mono fun _ _ _ => trivial

/-- The entry is wanted by nobody from now on. -/
theorem revises_undesired {deleted : Bool} (h : s.Sound cfg)
    (hdeleted : s.entry.deleted = true → deleted = true) :
    s.Revises cfg { s.entry with deleted := deleted, desired := false } :=
  h.revises (h.entry.undesired hdeleted) ⟨rfl, rfl, rfl, fun h => h⟩ rfl rfl rfl rfl
    fun _ _ hp => .inl hp

theorem detachRequest_ends (h : s.Sound cfg) {q : Request} (hq : q.operation = .detach) :
    (live cfg q).Ends (volumeContract cfg) (fun _ _ => True) s := by
  refine ends_record_bind ?_
  rw [hq]
  refine quiet_vm.ends_bind fun _ => ends_guard fun _ => ?_
  refine ends_write_bind h (revises_undesired h fun hd => hd) fun s₁ hs₁ _ _ => Op.ends_bind.mpr ?_
  refine ((detach_ends hs₁).invariant volumeContract_preserves hs₁).mono ?_
  rintro ⟨⟩ s₂ ⟨hs₂, _⟩
  exact ends_write (revises_cursors hs₂ hs₂.entry.gcAfter rfl) fun _ _ => trivial

/-- A request to a volume that is not deleted. -/
theorem live_ends (h : s.Sound cfg) (hdeleted : s.entry.deleted = false) {q : Request}
    (hfile : q.operation = .prepare → s.volume.record ≠ none) :
    (live cfg q).Ends (volumeContract cfg) (fun _ _ => True) s := by
  cases hq : q.operation with
  | attach => exact attachRequest_ends h hdeleted hq
  | bind => exact bindRequest_ends h hq
  | sync => exact syncRequest_ends h hdeleted hq
  | detach => exact detachRequest_ends h hq
  | prepare =>
    refine ends_record_bind ?_
    rw [hq]
    exact ends_guard fun _ => prepare_ends h (hfile hq)
  | inspect =>
    refine ends_record_bind ?_
    rw [hq]
    exact quiet_inspect.ends fun _ => trivial
  | status =>
    refine ends_record_bind ?_
    rw [hq]
    exact quiet_inspect.ends fun _ => trivial
  | retire | delete | capture | imageStatus | imageRetire | unknown =>
    refine ends_record_bind ?_
    rw [hq]
    trivial

/-- A deletion. -/
theorem delete_ends (h : s.Sound cfg) :
    (delete cfg).Ends (volumeContract cfg) (fun _ _ => True) s := by
  refine ends_record_bind (ends_write_bind h (revises_undesired h fun _ => rfl) ?_)
  intro s₁ hs₁ _ _
  refine Op.ends_bind.mpr ?_
  have hdetach : (Op.when (!s.entry.deleted || s.entry.worker.isSome || s.entry.client.isSome ||
      s.entry.vm.isSome) (detach cfg)).Ends (volumeContract cfg) (fun _ _ => True) s₁ :=
    Op.ends_when.mpr ⟨fun _ => (detach_ends hs₁).mono fun _ _ _ => trivial, fun _ => trivial⟩
  refine (hdetach.invariant volumeContract_preserves hs₁).mono ?_
  rintro ⟨⟩ s₂ ⟨hs₂, _⟩
  exact (releaseDeletedLocal_ends hs₂).mono fun _ _ _ => trivial

/-- Every request keeps the slot in order. -/
theorem carryOut_ends (h : s.Sound cfg) {q : Request}
    (hfile : q.operation = .prepare → s.volume.record ≠ none) :
    (carryOut cfg q).Ends (volumeContract cfg) (fun _ _ => True) s := by
  refine ends_record_bind (Op.ends_ite.mpr ⟨fun _ => delete_ends h, fun _ => ?_⟩)
  exact ends_guard fun hdeleted => live_ends h (by simpa using hdeleted) hfile

/-- A request keeps the contract of its volume. A volume that is being prepared has its record
file: the table lookup of a `prepare` fails while a record has not been written. -/
theorem request_ends (h : s.Sound cfg) {q : Request}
    (hfile : q.operation = .prepare → s.volume.record ≠ none) :
    (request cfg q).Ends (volumeContract cfg) (fun _ _ => True) s := by
  refine ends_record_bind (ends_guard fun _ => ends_guard fun _ => ends_guard fun _ => ?_)
  have hbinding : Quiet cfg (Op.when (!s.entry.deleted && q.operation ≠ .retire)
      (call "binding")) s := .ite (fun _ => quiet_call) fun _ => .pure
  refine hbinding.ends_bind fun _ => Op.ends_bind.mpr ((carryOut_ends h hfile).mono ?_)
  exact fun _ _ _ => ends_record_bind trivial

end VolumeOp

/-- A capture looks at its source volume's device while that volume holds it. -/
theorem VolumeOp.builder_ends {cfg : Config} {s : Slot} {metadata : Metadata} {sourceBytes : ℕ} :
    (VolumeOp.builder metadata sourceBytes).Ends (volumeContract cfg) (fun _ _ => True) s := by
  refine ends_record_bind (ends_guard fun _ => quiet_vm.ends_bind fun _ => ends_guard fun _ => ?_)
  refine quiet_call.ends_bind fun _ => quiet_question.ends_bind fun _ => ends_guard fun _ => ?_
  have hlook : Quiet cfg (Op.when (!s.entry.evicted) do
      let pid ← Op.attempt (.nbdPid s.entry.device)
      Op.refuse (pid.isSome = true) "builder NBD is attached"
      unused s.entry.device) s := by
    refine .ite (fun hresident => ?_) fun _ => .pure
    have hholds : s.Holds s.entry.device := ⟨by simpa using hresident, rfl⟩
    exact .bind (quiet_nbdPid hholds) fun _ => .guard fun _ => quiet_use hholds
  refine hlook.ends_bind fun _ => quiet_call.ends_bind fun _ => ends_ownerDir_bind ?_
  exact quiet_call.ends_bind fun _ => quiet_call.ends_bind fun _ => trivial

/-- A health probe only looks at the device of its copy of the record. -/
theorem VolumeOp.healthy_ends (r : Record) :
    (VolumeOp.healthy r).Ends (probeContract r) (fun _ _ => True) () := by
  have hask {what : String} {β : Type} {Q : β → Unit → Prop} (hQ : ∀ b, Q b ()) :
      (Op.attempt (.ask what (Result β)) : VolumeOp β).Ends (probeContract r) Q () := by
    refine ⟨trivial, ?_⟩
    rintro (e | b) ⟨⟩ _
    · trivial
    · exact hQ b
  have hinspect : (inspect r).Ends (probeContract r) (fun _ _ => True) () := by
    refine Op.ends_bind.mpr (Op.ends_refuse.mpr fun hresident => ?_)
    have hlooks : r.evicted = false ∧ r.device = r.device := ⟨by simpa using hresident, rfl⟩
    refine Op.ends_bind.mpr ⟨hlooks, ?_⟩
    rintro (e | pid) ⟨⟩ _
    · trivial
    refine Op.ends_bind.mpr (Op.ends_refuse.mpr fun _ => Op.ends_bind.mpr ?_)
    refine Op.ends_bind.mpr (Op.ends_refuse.mpr fun _ => Op.ends_bind.mpr ⟨hlooks, ?_⟩)
    rintro (e | used) ⟨⟩ _
    · trivial
    exact hask fun failed => Op.ends_refuse.mpr fun _ => trivial
  refine Op.ends_ite.mpr ⟨fun _ => trivial, fun _ => Op.ends_bind.mpr (Op.ends_outcome.mpr ?_)⟩
  refine Op.Keeps.mono hinspect ?_
  intro result s _
  exact trivial

/-- And so does the pass of the recovery loop. -/
theorem Service.recovery_ends {cfg : Config} {s : Slot} (h : s.Sound cfg) :
    (Service.recovery cfg).Ends (volumeContract cfg) (fun _ _ => True) s :=
  Op.ends_bind.mpr (VolumeOp.recover_ends h)

end AgentHouse.Host
