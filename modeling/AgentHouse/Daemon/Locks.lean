import AgentHouse.Lib.Tables
import AgentHouse.Lib.Traces

/-!
# The registry of lifecycle locks

`LifecycleLocks` of `scheduler.rs`. A lease keeps the entry of its id alive from before it queues
for the mutex until after its drop. The body of the drop runs under the lock of the map; the
reference that the lease holds is given up only afterwards, outside of that lock. The mutex of
an entry is locked as long as some lease holds its guard.
-/

namespace AgentHouse.Daemon

/-- How far a lease has come. -/
inductive Stage where
  /-- It waits for the mutex, or has not asked for it yet. -/
  | queued
  /-- It belongs to a `LifecycleGuard`. -/
  | holding
  /-- The mutex has been unlocked. -/
  | leaving
  /-- The body of the drop is done; the reference to the entry is still counted. -/
  | dropped
deriving DecidableEq, Repr

/-- `LifecycleLease`. The key tells leases apart. -/
structure Lease where
  key : ℕ
  id : String
  entry : ℕ
  epoch : ℕ
  stage : Stage
deriving DecidableEq, Repr

/-- The registry, and the leases that have been handed out. -/
structure Locks where
  /-- `inner`: the entry of each id. -/
  map : List (String × ℕ)
  /-- The `epoch` of each entry. -/
  epochs : ℕ → ℕ
  leases : List Lease
  /-- Entries and leases that have not been allocated yet. -/
  nextEntry : ℕ
  nextKey : ℕ

/-- The calls, with the two halves of a drop. -/
inductive LockAction where
  | lease (id : String)
  | acquire (key : ℕ)
  | unlock (key : ℕ)
  | drop (key : ℕ)
  | decrement (key : ℕ)
  | invalidate (id : String) (key : ℕ)
deriving DecidableEq, Repr

/-- The step invalidates the id. -/
def LockAction.invalidates (id : String) : LockAction → Bool
  | .invalidate other _ => other = id
  | _ => false

namespace Locks

/-- `LifecycleLocks::default()` -/
def new : Locks := ⟨[], fun _ => 0, [], 0, 0⟩

/-- `lease`, the section under the lock of the map. -/
def lease (s : Locks) (id : String) : Locks :=
  match Table.row Prod.fst id s.map with
  | some (_, entry) => { s with
      leases := s.leases ++ [⟨s.nextKey, id, entry, s.epochs entry, .queued⟩]
      nextKey := s.nextKey + 1 }
  | none => { s with
      map := s.map ++ [(id, s.nextEntry)]
      epochs := Function.update s.epochs s.nextEntry 0
      leases := s.leases ++ [⟨s.nextKey, id, s.nextEntry, 0, .queued⟩]
      nextEntry := s.nextEntry + 1
      nextKey := s.nextKey + 1 }

/-- The lease of a key. -/
def find (s : Locks) (key : ℕ) : Option Lease := Table.row Lease.key key s.leases

/-- A lease goes on to a stage. -/
def move (s : Locks) (key : ℕ) (stage : Stage) : Locks :=
  { s with leases := Table.revise Lease.key key (fun l => { l with stage }) s.leases }

/-- The mutex of the entry is locked. -/
def locked (s : Locks) (entry : ℕ) : Bool :=
  s.leases.any fun l => l.entry = entry && l.stage = .holding

/-- `Arc::strong_count`. -/
def strongCount (s : Locks) (entry : ℕ) : ℕ :=
  s.map.countP (fun p => p.2 = entry) + s.leases.countP (fun l => l.entry = entry)

/-- The body of a lease's `drop`. -/
def dropBody (s : Locks) (l : Lease) : Locks :=
  if s.strongCount l.entry = 2 then
    { s.move l.key .dropped with map := s.map.filter fun p => p.1 ≠ l.id }
  else s.move l.key .dropped

/-- `identity_changed`. -/
def identityChanged (s : Locks) (l : Lease) : Bool := s.epochs l.entry ≠ l.epoch

/-- `invalidate_identity`: `fetch_add` wraps. -/
def invalidate (s : Locks) (l : Lease) : Locks :=
  { s with epochs := Function.update s.epochs l.entry ((s.epochs l.entry + 1) % 2 ^ 64) }

/-- One step, if it is possible. -/
def step (s : Locks) : LockAction → Option Locks
  | .lease id => some (s.lease id)
  | .acquire key => (s.find key).bind fun l =>
      if l.stage = .queued ∧ ¬ s.locked l.entry then some (s.move key .holding) else none
  | .unlock key => (s.find key).bind fun l =>
      if l.stage = .holding then some (s.move key .leaving) else none
  | .drop key => (s.find key).bind fun l =>
      if l.stage = .queued ∨ l.stage = .leaving then some (s.dropBody l) else none
  | .decrement key => (s.find key).bind fun l =>
      if l.stage = .dropped then
        some { s with leases := s.leases.filter fun l => l.key ≠ key }
      else none
  | .invalidate id key => (s.find key).bind fun l =>
      if l.stage = .holding ∧ l.id = id then some (s.invalidate l) else none

/-- A step of some task. -/
def Step (s : Locks) (a : LockAction) (s' : Locks) : Prop := s.step a = some s'

/-- No lease is dropped while another lease of its entry is dropped but still counted. -/
def calm (s : Locks) : LockAction → Bool
  | .drop key => (s.find key).all fun l =>
      s.leases.all fun other => other.entry ≠ l.entry || other.stage ≠ .dropped
  | _ => true

/-- A step that meets the condition of `calm`. -/
def CalmStep (s : Locks) (a : LockAction) (s' : Locks) : Prop :=
  (if s.calm a then s.step a else none) = some s'

end Locks

/-- The lease has not been dropped. -/
def Lease.Live (l : Lease) : Prop := l.stage ≠ .dropped

/-- What the registry keeps true. -/
structure Locks.Sound (s : Locks) : Prop where
  keyed : Table.Keyed Lease.key s.leases
  fresh : ∀ l ∈ s.leases, l.key < s.nextKey
  ids : Table.Keyed Prod.fst s.map
  entries : Table.Keyed Prod.snd s.map
  allocated : ∀ p ∈ s.map, p.2 < s.nextEntry
  live : ∀ l ∈ s.leases, l.Live → (l.id, l.entry) ∈ s.map
  held : ∀ l ∈ s.leases, l.entry < s.nextEntry
  single : ∀ l ∈ s.leases, ∀ l' ∈ s.leases, l.entry = l'.entry → l.stage = .holding →
    l'.stage = .holding → l = l'

namespace Locks

variable {s s' : Locks} {a : LockAction} {l l' : Lease} {id : String} {key entry : ℕ}
  {stage : Stage}

/-- What a step does. -/
inductive Turn (s : Locks) : LockAction → Locks → Prop
  | lease (id : String) : Turn s (.lease id) (s.lease id)
  | acquire {l : Lease} (hl : l ∈ s.leases) (hstage : l.stage = .queued)
      (hfree : s.locked l.entry = false) : Turn s (.acquire l.key) (s.move l.key .holding)
  | unlock {l : Lease} (hl : l ∈ s.leases) (hstage : l.stage = .holding) :
      Turn s (.unlock l.key) (s.move l.key .leaving)
  | drop {l : Lease} (hl : l ∈ s.leases) (hfind : s.find l.key = some l)
      (hstage : l.stage = .queued ∨ l.stage = .leaving) : Turn s (.drop l.key) (s.dropBody l)
  | decrement {l : Lease} (hl : l ∈ s.leases) (hstage : l.stage = .dropped) :
      Turn s (.decrement l.key) { s with leases := s.leases.filter fun other => other.key ≠ l.key }
  | invalidate {l : Lease} (hl : l ∈ s.leases) (hstage : l.stage = .holding) :
      Turn s (.invalidate l.id l.key) (s.invalidate l)

/-- A step on a lease finds it under its key. -/
theorem bind_find {f : Lease → Option Locks} (h : (s.find key).bind f = some s') :
    ∃ l ∈ s.leases, l.key = key ∧ s.find key = some l ∧ f l = some s' := by
  obtain ⟨l, hl, hf⟩ := Option.bind_eq_some_iff.mp h
  exact ⟨l, (Table.row_mem hl).1, (Table.row_mem hl).2, hl, hf⟩

/-- Each step, with the lease that it is about. -/
theorem Step.turn (h : s.Step a s') : s.Turn a s' := by
  cases a with
  | lease id =>
    obtain rfl := Option.some.inj h
    exact .lease id
  | acquire key =>
    obtain ⟨l, hl, rfl, _, h⟩ := bind_find h
    split at h
    · rename_i hc
      obtain rfl := Option.some.inj h
      exact .acquire hl hc.1 (by simpa using hc.2)
    · cases h
  | unlock key =>
    obtain ⟨l, hl, rfl, _, h⟩ := bind_find h
    split at h
    · rename_i hc
      obtain rfl := Option.some.inj h
      exact .unlock hl hc
    · cases h
  | drop key =>
    obtain ⟨l, hl, rfl, hfind, h⟩ := bind_find h
    split at h
    · rename_i hc
      obtain rfl := Option.some.inj h
      exact .drop hl hfind hc
    · cases h
  | decrement key =>
    obtain ⟨l, hl, rfl, _, h⟩ := bind_find h
    split at h
    · rename_i hc
      obtain rfl := Option.some.inj h
      exact .decrement hl hc
    · cases h
  | invalidate id key =>
    obtain ⟨l, hl, rfl, _, h⟩ := bind_find h
    split at h
    · rename_i hc
      obtain rfl := Option.some.inj h
      obtain ⟨hstage, rfl⟩ := hc
      exact .invalidate hl hstage
    · cases h

theorem mem_move (h : l' ∈ (s.move key stage).leases) :
    ∃ l ∈ s.leases, l' = if l.key = key then { l with stage } else l := by
  obtain ⟨l, hl, rfl⟩ := List.mem_map.mp h
  exact ⟨l, hl, rfl⟩

/-- A lease keeps everything but its stage. -/
theorem mem_move_same (h : l' ∈ (s.move key stage).leases) :
    ∃ l ∈ s.leases, l.key = l'.key ∧ l.id = l'.id ∧ l.entry = l'.entry ∧ l.epoch = l'.epoch ∧
      (l' = l ∧ l.key ≠ key ∨ l.key = key ∧ l'.stage = stage) := by
  obtain ⟨l, hl, rfl⟩ := mem_move h
  by_cases hkey : l.key = key
  · rw [if_pos hkey]
    exact ⟨l, hl, rfl, rfl, rfl, rfl, .inr ⟨hkey, rfl⟩⟩
  · rw [if_neg hkey]
    exact ⟨l, hl, rfl, rfl, rfl, rfl, .inl ⟨rfl, hkey⟩⟩

/-- No lease of an unlocked entry holds it. -/
theorem locked_eq_false (h : s.locked entry = false) (hl : l ∈ s.leases) (he : l.entry = entry) :
    l.stage ≠ .holding := by
  intro hstage
  have : s.locked entry = true := List.any_eq_true.mpr ⟨l, hl, by simp [he, hstage]⟩
  rw [h] at this
  cases this

namespace Sound

/-- Keys are distinct. -/
theorem eq_of_key (h : s.Sound) (hl : l ∈ s.leases) (hl' : l' ∈ s.leases) (hkey : l.key = l'.key) :
    l = l' :=
  List.inj_on_of_nodup_map h.keyed hl hl' hkey

/-- A live lease may change its stage, and hold its entry when nobody else does. -/
theorem move (h : s.Sound) (hl : l ∈ s.leases) (hlive : stage ≠ .dropped → l.Live)
    (hfree : stage = .holding → s.locked l.entry = false) : (s.move l.key stage).Sound where
  keyed := h.keyed.revise fun _ => rfl
  fresh l' hl' := by
    obtain ⟨l₀, hl₀, hkey, _⟩ := mem_move_same hl'
    exact hkey ▸ h.fresh l₀ hl₀
  ids := h.ids
  entries := h.entries
  allocated := h.allocated
  live l' hl' hlive' := by
    obtain ⟨l₀, hl₀, _, hid, hentry, _, ⟨rfl, _⟩ | ⟨hkey, hstage⟩⟩ := mem_move_same hl'
    · exact h.live l' hl₀ hlive'
    · obtain rfl := h.eq_of_key hl₀ hl hkey
      rw [← hid, ← hentry]
      exact h.live l₀ hl₀ (hlive (hstage ▸ hlive'))
  held l' hl' := by
    obtain ⟨l₀, hl₀, _, _, hentry, _⟩ := mem_move_same hl'
    exact hentry ▸ h.held l₀ hl₀
  single l₁ hl₁ l₂ hl₂ hentry hhold₁ hhold₂ := by
    obtain ⟨k₁, hk₁, h₁⟩ := mem_move hl₁
    obtain ⟨k₂, hk₂, h₂⟩ := mem_move hl₂
    by_cases hkey₁ : k₁.key = l.key
    · obtain rfl := h.eq_of_key hk₁ hl hkey₁
      rw [if_pos rfl] at h₁
      by_cases hkey₂ : k₂.key = k₁.key
      · obtain rfl := h.eq_of_key hk₂ hk₁ hkey₂
        rw [h₁, h₂, if_pos rfl]
      · -- the other lease would hold the mutex that has just been found free
        rw [if_neg hkey₂] at h₂
        subst h₁ h₂
        exact absurd hhold₂ (locked_eq_false (hfree hhold₁) hk₂ hentry.symm)
    · rw [if_neg hkey₁] at h₁
      subst h₁
      by_cases hkey₂ : k₂.key = l.key
      · obtain rfl := h.eq_of_key hk₂ hl hkey₂
        rw [if_pos rfl] at h₂
        subst h₂
        exact absurd hhold₁ (locked_eq_false (hfree hhold₂) hk₁ hentry)
      · rw [if_neg hkey₂] at h₂
        subst h₂
        exact h.single l₁ hk₁ l₂ hk₂ hentry hhold₁ hhold₂

/-- A lease joins an entry of the map. -/
theorem join (h : s.Sound) (hmem : (id, entry) ∈ s.map) {epoch : ℕ} :
    Sound { s with
      leases := s.leases ++ [⟨s.nextKey, id, entry, epoch, .queued⟩]
      nextKey := s.nextKey + 1 } where
  keyed := h.keyed.append (Table.row_eq_none.mpr fun l hl => (h.fresh l hl).ne)
  fresh l hl := by
    obtain hl | rfl := Table.mem_snoc.mp hl
    · exact (h.fresh l hl).trans (Nat.lt_succ_self _)
    · exact Nat.lt_succ_self _
  ids := h.ids
  entries := h.entries
  allocated := h.allocated
  live l hl hlive := by
    obtain hl | rfl := Table.mem_snoc.mp hl
    · exact h.live l hl hlive
    · exact hmem
  held l hl := by
    obtain hl | rfl := Table.mem_snoc.mp hl
    · exact h.held l hl
    · exact h.allocated _ hmem
  single l hl l' hl' hentry hstage hstage' := by
    obtain hl | rfl := Table.mem_snoc.mp hl
    · obtain hl' | rfl := Table.mem_snoc.mp hl'
      · exact h.single l hl l' hl' hentry hstage hstage'
      · cases hstage'
    · cases hstage

/-- The map gets an entry for an id that has none. -/
theorem allocate (h : s.Sound) (hid : Table.row Prod.fst id s.map = none) {epochs : ℕ → ℕ} :
    Sound { s with map := s.map ++ [(id, s.nextEntry)], epochs, nextEntry := s.nextEntry + 1 } where
  keyed := h.keyed
  fresh := h.fresh
  ids := h.ids.append hid
  entries := h.entries.append (Table.row_eq_none.mpr fun p hp => (h.allocated p hp).ne)
  allocated p hp := by
    obtain hp | rfl := Table.mem_snoc.mp hp
    · exact (h.allocated p hp).trans (Nat.lt_succ_self _)
    · exact Nat.lt_succ_self _
  live l hl hlive := List.mem_append_left _ (h.live l hl hlive)
  held l hl := (h.held l hl).trans (Nat.lt_succ_self _)
  single := h.single

/-- A new lease of the current entry, or of a new one. -/
theorem lease (h : s.Sound) (id : String) : (s.lease id).Sound := by
  unfold Locks.lease
  split
  · rename_i name entry hrow
    obtain ⟨hmem, rfl⟩ := Table.row_mem hrow
    exact h.join hmem
  · rename_i hrow
    exact (h.allocate hrow).join (List.mem_append_right _ (List.mem_singleton_self _))

/-- Live leases of one id share its entry. -/
theorem entry_eq (h : s.Sound) (hl : l ∈ s.leases) (hl' : l' ∈ s.leases) (hlive : l.Live)
    (hlive' : l'.Live) (hid : l.id = l'.id) : l.entry = l'.entry := by
  have := List.inj_on_of_nodup_map h.ids (h.live l hl hlive) (h.live l' hl' hlive') hid
  exact congrArg Prod.snd this

/-- With two references left, which are those of the map and of the lease itself, no other lease
has the entry. -/
theorem eq_of_strongCount (h : s.Sound) (hl : l ∈ s.leases) (hlive : l.Live)
    (hcount : s.strongCount l.entry = 2) (hl' : l' ∈ s.leases) (hentry : l'.entry = l.entry) :
    l' = l := by
  have hmap : 0 < s.map.countP (fun p => p.2 = l.entry) :=
    List.countP_pos_iff.mpr ⟨_, h.live l hl hlive, by simp⟩
  have hself : 0 < s.leases.countP (fun other => other.entry = l.entry) :=
    List.countP_pos_iff.mpr ⟨l, hl, by simp⟩
  have hone : s.leases.countP (fun other => other.entry = l.entry) = 1 := by
    unfold strongCount at hcount
    omega
  rw [List.countP_eq_length_filter, List.length_eq_one_iff] at hone
  obtain ⟨only, honly⟩ := hone
  have hmem {x : Lease} (hx : x ∈ s.leases) (hxe : x.entry = l.entry) : x = only := by
    have : x ∈ s.leases.filter (fun other => other.entry = l.entry) :=
      List.mem_filter.mpr ⟨hx, by simpa using hxe⟩
    rw [honly] at this
    exact List.mem_singleton.mp this
  rw [hmem hl' hentry, hmem hl rfl]

/-- The entry of an id leaves the map with its last live lease. -/
theorem forget (h : s.Sound) (hlast : ∀ l ∈ s.leases, l.Live → l.id ≠ id) :
    Sound { s with map := s.map.filter fun p => p.1 ≠ id } where
  keyed := h.keyed
  fresh := h.fresh
  ids := h.ids.filter
  entries := h.entries.filter
  allocated p hp := h.allocated p (List.mem_of_mem_filter hp)
  live l hl hlive := by
    refine List.mem_filter.mpr ⟨h.live l hl hlive, ?_⟩
    exact decide_eq_true (hlast l hl hlive)
  held := h.held
  single := h.single

theorem live_of_stage (hstage : l.stage = .queued ∨ l.stage = .leaving) : l.Live := by
  intro hdropped
  rw [hdropped] at hstage
  obtain hstage | hstage := hstage
  · cases hstage
  · cases hstage

/-- The body of a drop removes the entry only if nobody else has it. -/
theorem dropBody (h : s.Sound) (hl : l ∈ s.leases)
    (hstage : l.stage = .queued ∨ l.stage = .leaving) :
    (s.dropBody l).Sound := by
  have hlive : l.Live := live_of_stage hstage
  have hmoved : (s.move l.key .dropped).Sound :=
    h.move hl (fun hne => absurd rfl hne) fun hhold => by cases hhold
  unfold Locks.dropBody
  split
  · rename_i hcount
    refine hmoved.forget ?_
    intro l' hl' hlive' hid
    obtain ⟨l₀, hl₀, _, _, _, _, ⟨rfl, hkey⟩ | ⟨_, hdropped⟩⟩ := mem_move_same hl'
    · have hentry := h.entry_eq hl₀ hl hlive' hlive hid
      exact hkey (congrArg Lease.key (h.eq_of_strongCount hl hlive hcount hl₀ hentry))
    · exact hlive' hdropped
  · exact hmoved

/-- The reference of a dropped lease goes. -/
theorem decrement (h : s.Sound) :
    Sound { s with leases := s.leases.filter fun other => other.key ≠ key } where
  keyed := h.keyed.filter
  fresh l hl := h.fresh l (List.mem_of_mem_filter hl)
  ids := h.ids
  entries := h.entries
  allocated := h.allocated
  live l hl := h.live l (List.mem_of_mem_filter hl)
  held l hl := h.held l (List.mem_of_mem_filter hl)
  single l hl l' hl' := h.single l (List.mem_of_mem_filter hl) l' (List.mem_of_mem_filter hl')

/-- An invalidation moves the epoch of the entry and nothing else. -/
theorem invalidate (h : s.Sound) : (s.invalidate l).Sound :=
  ⟨h.keyed, h.fresh, h.ids, h.entries, h.allocated, h.live, h.held, h.single⟩

/-- Every step keeps the invariant. -/
theorem step (h : s.Sound) (hs : s.Step a s') : s'.Sound := by
  cases hs.turn with
  | lease id => exact h.lease id
  | acquire hl hstage hfree =>
    refine h.move hl (fun _ hdropped => ?_) fun _ => hfree
    rw [hstage] at hdropped
    cases hdropped
  | unlock hl hstage =>
    refine h.move hl (fun _ hdropped => ?_) fun hhold => by cases hhold
    rw [hstage] at hdropped
    cases hdropped
  | drop hl _ hstage => exact h.dropBody hl hstage
  | decrement => exact h.decrement
  | invalidate => exact h.invalidate

end Sound

/-- An empty map is sound. -/
theorem new_sound : new.Sound := by
  constructor <;> simp [new, Table.Keyed]

section Identity

theorem nextKey_le (hs : s.Step a s') : s.nextKey ≤ s'.nextKey := by
  cases hs.turn with
  | lease id =>
    unfold lease
    split
    · exact Nat.le_succ _
    · exact Nat.le_succ _
  | drop =>
    unfold dropBody
    split
    · exact le_rfl
    · exact le_rfl
  | acquire | unlock | decrement | invalidate => exact le_rfl

/-- A live lease that is not new was there before. -/
theorem lease_before (h : s.Sound) (hs : s.Step a s') (hl' : l' ∈ s'.leases) (hlive : l'.Live)
    (hold : l'.key < s.nextKey) :
    ∃ l ∈ s.leases, l.Live ∧ l.key = l'.key ∧ l.id = l'.id ∧ l.entry = l'.entry ∧
      l.epoch = l'.epoch := by
  have hmove {l : Lease} {stage : Stage} (hl : l ∈ s.leases) (hstage : stage ≠ .dropped → l.Live)
      (hl' : l' ∈ (s.move l.key stage).leases) :
      ∃ l ∈ s.leases, l.Live ∧ l.key = l'.key ∧ l.id = l'.id ∧ l.entry = l'.entry ∧
        l.epoch = l'.epoch := by
    obtain ⟨l₀, hl₀, hkey, hid, hentry, hepoch, ⟨rfl, _⟩ | ⟨hsame, hnew⟩⟩ := mem_move_same hl'
    · exact ⟨l', hl₀, hlive, rfl, rfl, rfl, rfl⟩
    · obtain rfl := h.eq_of_key hl₀ hl hsame
      exact ⟨l₀, hl₀, hstage (hnew ▸ hlive), hkey, hid, hentry, hepoch⟩
  cases hs.turn with
  | lease id =>
    unfold lease at hl'
    split at hl'
    · obtain hl' | rfl := Table.mem_snoc.mp hl'
      · exact ⟨l', hl', hlive, rfl, rfl, rfl, rfl⟩
      · exact absurd hold (Nat.lt_irrefl _)
    · obtain hl' | rfl := Table.mem_snoc.mp hl'
      · exact ⟨l', hl', hlive, rfl, rfl, rfl, rfl⟩
      · exact absurd hold (Nat.lt_irrefl _)
  | acquire hl hstage => exact hmove hl (fun _ => Sound.live_of_stage (.inl hstage)) hl'
  | unlock hl hstage =>
    refine hmove hl (fun _ hdropped => ?_) hl'
    rw [hstage] at hdropped
    cases hdropped
  | @drop l hl _ hstage =>
    have hl' : l' ∈ (s.move l.key .dropped).leases := by
      unfold dropBody at hl'
      split at hl'
      · exact hl'
      · exact hl'
    exact hmove hl (fun _ => Sound.live_of_stage hstage) hl'
  | decrement => exact ⟨l', List.mem_of_mem_filter hl', hlive, rfl, rfl, rfl, rfl⟩
  | invalidate => exact ⟨l', hl', hlive, rfl, rfl, rfl, rfl⟩

/-- The epoch of a live lease's entry counts the invalidations of its id. -/
theorem epochs_step (h : s.Sound) (hs : s.Step a s') (hl : l ∈ s.leases) (hlive : l.Live) :
    s'.epochs l.entry =
      if a.invalidates l.id then (s.epochs l.entry + 1) % 2 ^ 64 else s.epochs l.entry := by
  cases hs.turn with
  | lease id =>
    rw [if_neg (by simp [LockAction.invalidates])]
    unfold lease
    split
    · rfl
    · exact Function.update_of_ne (h.held l hl).ne _ _
  | @drop l' =>
    rw [if_neg (by simp [LockAction.invalidates])]
    unfold dropBody
    split
    · rfl
    · rfl
  | @invalidate l' hl' hstage =>
    have hlive' : l'.Live := by
      intro hdropped
      rw [hstage] at hdropped
      cases hdropped
    by_cases hid : l'.id = l.id
    · rw [if_pos (by simpa [LockAction.invalidates] using hid)]
      have hentry := h.entry_eq hl' hl hlive' hlive hid
      rw [Locks.invalidate, hentry]
      exact Function.update_self _ _ _
    · rw [if_neg (by simpa [LockAction.invalidates] using hid)]
      refine Function.update_of_ne ?_ _ _
      -- entries of different ids differ
      intro hentry
      have hmem := h.live l hl hlive
      have hmem' := h.live l' hl' hlive'
      have := List.inj_on_of_nodup_map h.entries hmem hmem' hentry
      exact hid (congrArg Prod.fst this).symm
  | acquire | unlock | decrement => exact (if_neg (by simp [LockAction.invalidates])).symm

/-- How often the id is invalidated in a run. -/
def invalidations (id : String) (as : List LockAction) : ℕ := as.countP (·.invalidates id)

/-- The lease that has been taken, once it is in the registry. -/
theorem mem_lease (h : s.Sound) (hl : l ∈ (s.lease id).leases) (hkey : l.key = s.nextKey) :
    l.id = id ∧ l.epoch = (s.lease id).epochs l.entry := by
  unfold lease at hl ⊢
  split at hl
  · obtain hl | rfl := Table.mem_snoc.mp hl
    · exact absurd hkey (h.fresh l hl).ne
    · exact ⟨rfl, rfl⟩
  · obtain hl | rfl := Table.mem_snoc.mp hl
    · exact absurd hkey (h.fresh l hl).ne
    · exact ⟨rfl, (Function.update_self s.nextEntry 0 s.epochs).symm⟩

/-- While a lease lives, its entry's epoch is the one it has read plus the invalidations since. -/
theorem epochs_run {as : List LockAction} (h : s.Sound) (hrun : Trace Step (s.lease id) as s')
    (hl : l ∈ s'.leases) (hkey : l.key = s.nextKey) (hlive : l.Live) :
    l.id = id ∧ (s'.epochs l.entry) % 2 ^ 64 = (l.epoch + invalidations id as) % 2 ^ 64 := by
  have hnext : s.nextKey < (s.lease id).nextKey := by
    unfold lease
    split
    · exact Nat.lt_succ_self _
    · exact Nat.lt_succ_self _
  induction hrun generalizing l with
  | nil =>
    obtain ⟨hid, hepoch⟩ := mem_lease h hl hkey
    exact ⟨hid, by rw [hepoch, invalidations, List.countP_nil, Nat.add_zero]⟩
  | @snoc as s₁ s₂ a hrun hs ih =>
    have hsound : s₁.Sound := hrun.invariant (h.lease id) fun hI hstep => hI.step hstep
    have hold : s.nextKey < s₁.nextKey :=
      hrun.invariant (I := fun t => s.nextKey < t.nextKey) hnext
        fun hI hstep => hI.trans_le (nextKey_le hstep)
    obtain ⟨l₀, hl₀, hlive₀, hkey₀, hid₀, hentry₀, hepoch₀⟩ :=
      lease_before hsound hs hl hlive (hkey ▸ hold)
    obtain ⟨hid, hcount⟩ := ih hl₀ (hkey₀.trans hkey) hlive₀
    refine ⟨hid₀ ▸ hid, ?_⟩
    rw [← hentry₀, ← hepoch₀, epochs_step hsound hs hl₀ hlive₀, hid, invalidations,
      List.countP_append, List.countP_singleton]
    rw [invalidations] at hcount
    split
    · omega
    · omega

end Identity

/-- Every entry of the map has a live lease. -/
def Tidy (s : Locks) : Prop := ∀ p ∈ s.map, ∃ l ∈ s.leases, l.Live ∧ l.id = p.1

theorem Tidy.move (ht : s.Tidy) (hstage : stage ≠ .dropped) : (s.move key stage).Tidy := by
  intro p hp
  obtain ⟨l₀, hl₀, hlive, hid⟩ := ht p hp
  refine ⟨_, List.mem_map_of_mem hl₀, ?_, ?_⟩
  · split
    · exact hstage
    · exact hlive
  · split
    · exact hid
    · exact hid

/-- A lease that is not the last reference leaves another live lease behind, unless some dropped
lease of its entry is still counted. -/
theorem exists_other (h : s.Sound) (hl : l ∈ s.leases) (hlive : l.Live)
    (hcalm : ∀ other ∈ s.leases, other.entry = l.entry → other.stage ≠ .dropped)
    (hcount : s.strongCount l.entry ≠ 2) :
    ∃ other ∈ s.leases, other.key ≠ l.key ∧ other.Live ∧ other.id = l.id := by
  by_contra hnone
  push Not at hnone
  refine hcount ?_
  have hmem := h.live l hl hlive
  have hmap : s.map.countP (fun p => p.2 = l.entry) = 1 := by
    refine Table.countP_eq_one (List.Nodup.of_map _ h.entries) hmem (by simp) fun p hp hpe => ?_
    exact List.inj_on_of_nodup_map h.entries hp hmem (of_decide_eq_true hpe)
  have hleases : s.leases.countP (fun other => other.entry = l.entry) = 1 := by
    refine Table.countP_eq_one (List.Nodup.of_map _ h.keyed) hl (by simp) fun other ho hoe => ?_
    have hoe : other.entry = l.entry := of_decide_eq_true hoe
    by_contra hne
    have hkey : other.key ≠ l.key := fun hkey => hne (h.eq_of_key ho hl hkey)
    have hlive' : other.Live := hcalm other ho hoe
    have := List.inj_on_of_nodup_map h.entries (h.live other ho hlive') hmem hoe
    exact hnone other ho hkey hlive' (congrArg Prod.fst this)
  rw [strongCount, hmap, hleases]

/-- In a calm state, the last drop removes the entry. -/
theorem Tidy.dropBody (ht : s.Tidy) (h : s.Sound) (hl : l ∈ s.leases) (hlive : l.Live)
    (hcalm : ∀ other ∈ s.leases, other.entry = l.entry → other.stage ≠ .dropped) :
    (s.dropBody l).Tidy := by
  -- a lease other than the one that is dropped stays as it was
  have hkeep {other : Lease} (ho : other ∈ s.leases) (hkey : other.key ≠ l.key) :
      other ∈ (s.move l.key .dropped).leases := by
    refine List.mem_map.mpr ⟨other, ho, ?_⟩
    rw [if_neg hkey]
  unfold Locks.dropBody
  split
  · intro p hp
    obtain ⟨hp, hne⟩ := List.mem_filter.mp hp
    obtain ⟨other, ho, hlive', hid⟩ := ht p hp
    refine ⟨other, hkeep ho fun hkey => ?_, hlive', hid⟩
    rw [h.eq_of_key ho hl hkey] at hid
    exact (of_decide_eq_true hne) hid.symm
  · rename_i hcount
    intro p hp
    obtain ⟨other, ho, hlive', hid⟩ := ht p hp
    by_cases hkey : other.key = l.key
    · obtain rfl := h.eq_of_key ho hl hkey
      obtain ⟨rest, hr, hne, hliver, hidr⟩ := exists_other h ho hlive hcalm hcount
      exact ⟨rest, hkeep hr hne, hliver, hidr.trans hid⟩
    · exact ⟨other, hkeep ho hkey, hlive', hid⟩

theorem Tidy.lease (ht : s.Tidy) (id : String) : (s.lease id).Tidy := by
  unfold Locks.lease
  split
  · intro p hp
    obtain ⟨l, hl, hlive, hid⟩ := ht p hp
    exact ⟨l, List.mem_append_left _ hl, hlive, hid⟩
  · intro p hp
    obtain hp | rfl := Table.mem_snoc.mp hp
    · obtain ⟨l, hl, hlive, hid⟩ := ht p hp
      exact ⟨l, List.mem_append_left _ hl, hlive, hid⟩
    · exact ⟨_, List.mem_append_right _ (List.mem_singleton_self _), (by simp [Lease.Live]), rfl⟩

/-- A calm step is a step. -/
theorem CalmStep.step (hs : s.CalmStep a s') : s.calm a = true ∧ s.Step a s' := by
  unfold CalmStep at hs
  split at hs
  · rename_i hcalm
    exact ⟨hcalm, hs⟩
  · cases hs

/-- A calm drop has no drop of the same entry under way. -/
theorem calm_drop (h : s.calm (.drop key) = true) (hfind : s.find key = some l) :
    ∀ other ∈ s.leases, other.entry = l.entry → other.stage ≠ .dropped := by
  intro other ho hentry
  simp only [calm, hfind, Option.all_some, List.all_eq_true] at h
  simpa [hentry] using h other ho

/-- Every calm step leaves no stray entry behind. -/
theorem Tidy.step (ht : s.Tidy) (h : s.Sound) (hs : s.CalmStep a s') : s'.Tidy := by
  obtain ⟨hcalm, hstep⟩ := hs.step
  cases hstep.turn with
  | lease id => exact ht.lease id
  | acquire => exact ht.move (by simp)
  | unlock => exact ht.move (by simp)
  | @drop l hl hfind hstage =>
    exact ht.dropBody h hl (Sound.live_of_stage hstage) (calm_drop hcalm hfind)
  | @decrement l hl hstage =>
    intro p hp
    obtain ⟨other, ho, hlive, hid⟩ := ht p hp
    refine ⟨other, List.mem_filter.mpr ⟨ho, decide_eq_true fun hkey => ?_⟩, hlive, hid⟩
    exact hlive (h.eq_of_key ho hl hkey ▸ hstage)
  | invalidate => exact ht

/-- Epochs are machine words. -/
def Bounded (s : Locks) : Prop :=
  (∀ entry, s.epochs entry < 2 ^ 64) ∧ ∀ l ∈ s.leases, l.epoch < 2 ^ 64

theorem Bounded.move (h : s.Bounded) : (s.move key stage).Bounded := by
  refine ⟨h.1, fun l hl => ?_⟩
  obtain ⟨l₀, hl₀, _, _, _, hepoch, _⟩ := mem_move_same hl
  exact hepoch ▸ h.2 l₀ hl₀

theorem Bounded.update (h : s.Bounded) {epoch : ℕ} (hepoch : epoch < 2 ^ 64) (e : ℕ) :
    Function.update s.epochs entry epoch e < 2 ^ 64 := by
  by_cases he : e = entry
  · rw [he, Function.update_self]
    exact hepoch
  · rw [Function.update_of_ne he]
    exact h.1 e

/-- Epochs stay below `2^64`. -/
theorem Bounded.step (h : s.Bounded) (hs : s.Step a s') : s'.Bounded := by
  cases hs.turn with
  | lease id =>
    unfold Locks.lease
    split
    · refine ⟨h.1, fun l hl => ?_⟩
      obtain hl | rfl := Table.mem_snoc.mp hl
      · exact h.2 l hl
      · exact h.1 _
    · refine ⟨h.update (by decide), fun l hl => ?_⟩
      obtain hl | rfl := Table.mem_snoc.mp hl
      · exact h.2 l hl
      · exact Nat.two_pow_pos 64
  | acquire | unlock => exact h.move
  | drop =>
    unfold Locks.dropBody
    split
    · exact h.move
    · exact h.move
  | decrement => exact ⟨h.1, fun l hl => h.2 l (List.mem_of_mem_filter hl)⟩
  | invalidate => exact ⟨h.update (Nat.mod_lt _ (Nat.two_pow_pos 64)), h.2⟩

/-- A lease sees an invalidation exactly if there has been one since it was taken. -/
theorem identityChanged_iff {as : List LockAction} (h : s.Sound) (hbounded : s.Bounded)
    (hrun : Trace Step (s.lease id) as s') (hl : l ∈ s'.leases) (hkey : l.key = s.nextKey)
    (hlive : l.Live) (hfew : invalidations id as < 2 ^ 64) :
    s'.identityChanged l = true ↔ ∃ a ∈ as, a.invalidates id = true := by
  have hbounded' : s'.Bounded :=
    hrun.invariant (hbounded.step (a := .lease id) rfl) fun hI hstep => hI.step hstep
  have hcount := (epochs_run h hrun hl hkey hlive).2
  rw [Nat.mod_eq_of_lt (hbounded'.1 _)] at hcount
  have hepoch := hbounded'.2 l hl
  have hzero : invalidations id as = 0 ↔ ¬ ∃ a ∈ as, a.invalidates id = true := by
    rw [invalidations, List.countP_eq_zero]
    push Not
    rfl
  rw [identityChanged, decide_eq_true_iff, hcount, ← not_iff_not, ← hzero, not_not]
  omega

/-- In the states of every run, guards of one id exclude each other, because its live leases share
one entry, and a lease sees exactly the invalidations since it was taken. In runs that drop no
lease while another one of its entry is still being given up, the map has entries of live leases
only. -/
theorem lifecycle_locks_reclaimed {as : List LockAction} {s : Locks} (hrun : Trace Step new as s) :
    (∀ l ∈ s.leases, ∀ l' ∈ s.leases, l.id = l'.id → l.Live → l'.Live → l.entry = l'.entry) ∧
    (∀ l ∈ s.leases, ∀ l' ∈ s.leases, l.id = l'.id → l.stage = .holding → l'.stage = .holding →
      l = l') ∧
    (∀ before s₀ id after, Trace Step new before s₀ → Trace Step (s₀.lease id) after s →
      ∀ l ∈ s.leases, l.key = s₀.nextKey → l.Live → invalidations id after < 2 ^ 64 →
        (s.identityChanged l = true ↔ ∃ a ∈ after, a.invalidates id = true)) ∧
    (Trace CalmStep new as s →
      (∀ id, (∀ l ∈ s.leases, l.id = id → ¬ l.Live) → ∀ p ∈ s.map, p.1 ≠ id) ∧
      s.map.length ≤ s.leases.length) := by
  have hsound : s.Sound := hrun.invariant new_sound fun hI hstep => hI.step hstep
  refine ⟨fun l hl l' hl' hid hlive hlive' => hsound.entry_eq hl hl' hlive hlive' hid, ?_, ?_,
    fun hcalm => ?_⟩
  · intro l hl l' hl' hid hhold hhold'
    have hlive {l : Lease} (hhold : l.stage = .holding) : l.Live := by
      intro hdropped
      rw [hhold] at hdropped
      cases hdropped
    have hentry := hsound.entry_eq hl hl' (hlive hhold) (hlive hhold') hid
    exact hsound.single l hl l' hl' hentry hhold hhold'
  · intro before s₀ id after hbefore hafter l hl hkey hlive hfew
    have hsound₀ : s₀.Sound := hbefore.invariant new_sound fun hI hstep => hI.step hstep
    have hbounded₀ : s₀.Bounded := by
      refine hbefore.invariant ⟨fun _ => Nat.two_pow_pos 64, ?_⟩ fun hI hstep => hI.step hstep
      exact fun l hl => absurd hl List.not_mem_nil
    exact identityChanged_iff hsound₀ hbounded₀ hafter hl hkey hlive hfew
  have htidy : s.Tidy := by
    refine (hcalm.invariant (I := fun t => t.Sound ∧ t.Tidy) ⟨new_sound, ?_⟩ ?_).2
    · exact fun p hp => absurd hp List.not_mem_nil
    · exact fun hI hstep => ⟨hI.1.step hstep.step.2, hI.2.step hI.1 hstep⟩
  constructor
  · intro id hnone p hp hid
    obtain ⟨l, hl, hlive, hlid⟩ := htidy p hp
    exact hnone l hl (hlid.trans hid) hlive
  · have hsub : s.map.map Prod.fst ⊆ s.leases.map Lease.id := by
      intro id hid
      obtain ⟨p, hp, rfl⟩ := List.mem_map.mp hid
      obtain ⟨l, hl, _, hlid⟩ := htidy p hp
      exact hlid ▸ List.mem_map_of_mem hl
    simpa using (List.subperm_of_subset hsound.ids hsub).length_le

/-- Two leases of one id that are dropped at the same time: each finds three references. -/
def racing : List LockAction :=
  [.lease "vm", .lease "vm", .acquire 0, .unlock 0, .drop 0, .drop 1, .decrement 0, .decrement 1]

/-- The entry stays in the map although no lease is left. -/
theorem racing_drops_leave_entry :
    ∃ s, Trace Step new racing s ∧ s.leases = [] ∧ s.map = [("vm", 0)] := by
  exact ⟨_, Trace.of_foldlM rfl, rfl, rfl⟩

/-- A run in which a queued lease sees that its id has been invalidated. -/
def replacing : List LockAction :=
  [.lease "vm", .acquire 0, .lease "vm", .invalidate "vm" 0, .unlock 0, .drop 0, .decrement 0]

theorem lifecycle_locks_reclaimed_replacing :
    ∃ s, Trace CalmStep new replacing s ∧ s.map.length ≤ s.leases.length ∧
      s.leases.any s.identityChanged = true := by
  have hrun : Trace CalmStep new replacing _ := Trace.of_foldlM rfl
  have hplain : Trace Step new replacing _ := hrun.mono fun hstep => hstep.step.2
  obtain ⟨_, _, _, htidy⟩ := lifecycle_locks_reclaimed hplain
  exact ⟨_, hrun, (htidy hrun).2, rfl⟩

end Locks

end AgentHouse.Daemon
