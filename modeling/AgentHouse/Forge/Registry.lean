import AgentHouse.Forge.Manager
import AgentHouse.Lib.Traces
import Mathlib.Data.Prod.Lex
import Mathlib.Tactic.Common
import Std.Data.String.ToNat

/-!
# What leaves the registry

A completed session stays listed with the exit code it published until it is deleted, or until a
`create` finds the registry full and evicts it. The loop of `create` looks at one session after the
other while their reapers go on: what it finds is not younger than any session that had completed
when it began. One with the marker of an isolated run is not evicted: its completion is a receipt.
-/

namespace AgentHouse.Forge.Manager

variable {s s' : Session} {c : Child}

/-- Ids are numbered. -/
theorem sessionId_injective {agent n k : ℕ} (h : sessionId agent n = sessionId agent k) :
    n = k := by
  unfold sessionId at h
  exact Nat.repr_injective ((String.append_right_inj _).mp h)

section Oldest

/-- The order in which sessions are evicted. -/
def rank (a : String × ℤ) : ℤ ×ₗ String := toLex (a.2, a.1)

/-- The order of eviction is a total one. -/
theorem older_iff {a b : String × ℤ} : State.older a b ↔ rank a < rank b := by
  rw [rank, rank, Prod.Lex.toLex_lt_toLex]
  rfl

variable {m : State}

/-- A turn of the loop keeps the lower of what it had and what it sees. -/
theorem consider_spec {oldest next : Option (String × ℤ)} {e : String × ℕ}
    (h : m.consider oldest e = next) :
    (∀ a, oldest = some a → ∃ b, next = some b ∧ rank b ≤ rank a) ∧
    (∀ a, m.evictable e = some a → ∃ b, next = some b ∧ rank b ≤ rank a) ∧
    ∀ b, next = some b → oldest = some b ∨ m.evictable e = some b := by
  subst h
  cases he : m.evictable e with
  | none =>
    simp only [State.consider, he]
    exact ⟨fun a ha => ⟨a, ha, le_refl _⟩, nofun, fun b hb => .inl hb⟩
  | some a =>
    cases oldest with
    | none =>
      simp only [State.consider, he]
      refine ⟨nofun, fun b hb => ?_, fun b hb => .inr hb⟩
      exact ⟨a, rfl, (Option.some.inj hb ▸ le_refl _)⟩
    | some b₀ =>
      simp only [State.consider, he]
      split
      · rename_i hold
        have hle := (older_iff.mp hold).le
        refine ⟨fun b hb => ⟨a, rfl, ?_⟩, fun b hb => ⟨a, rfl, ?_⟩, fun b hb => .inr hb⟩
        · exact Option.some.inj hb ▸ hle
        · exact Option.some.inj hb ▸ le_refl _
      · rename_i hold
        have hle : rank b₀ ≤ rank a := not_lt.mp fun hlt => hold (older_iff.mpr hlt)
        refine ⟨fun b hb => ⟨b₀, rfl, ?_⟩, fun b hb => ⟨b₀, rfl, ?_⟩, fun b hb => .inl hb⟩
        · exact Option.some.inj hb ▸ le_refl _
        · exact Option.some.inj hb ▸ hle

end Oldest

namespace State

variable {m m' : State} {e : Event} {id : String} {n : ℕ}

/-- A `delete` has taken the session out of the map. -/
def Deleted (m : State) (n : ℕ) : Prop := ∃ d ∈ m.deletes, d.session = n

/-- The reaper has published the exit. -/
def Published (s : Session) : Prop :=
  ∃ c, s.child = some c ∧ (c.reaper = .closing ∨ c.reaper = .ended)

/-- The rest of `create` is still to come. -/
def Creating.Pending : Creating → Prop
  | .reserved | .failed _ | .spawned _ => True
  | _ => False

/-- What holds of the map in every state reached. -/
structure Registered (m : State) : Prop where
  keyed : Table.Keyed Prod.fst m.sessions
  named : ∀ (i : ℕ) (c : Create), m.creates[i]? = some c →
    ∃ k < m.nextId, c.id = sessionId m.agent k
  distinct : ∀ (i j : ℕ) (c d : Create), m.creates[i]? = some c → m.creates[j]? = some d →
    c.id = d.id → i = j
  listed : ∀ e ∈ m.sessions, (∃ s, m.objects[e.2]? = some s ∧ s.id = e.1) ∧ ¬ m.Deleted e.2
  /-- Each entry is of a `create` that has put it there. -/
  owner : ∀ e ∈ m.sessions, ∃ (i : ℕ) (c : Create), m.creates[i]? = some c ∧ c.id = e.1 ∧
    c.pc ≠ .named
  /-- While `create` is at work its entry is the placeholder. -/
  placeholder : ∀ e ∈ m.sessions, ∀ (i : ℕ) (c : Create), m.creates[i]? = some c → c.id = e.1 →
    Creating.Pending c.pc → ∃ s, m.objects[e.2]? = some s ∧ s.child = none
  spawned : ∀ (i : ℕ) (c : Create) (n : ℕ), m.creates[i]? = some c → c.pc = .spawned n →
    (∃ s, m.objects[n]? = some s ∧ s.id = c.id) ∧ ¬ m.Deleted n ∧ ∀ e ∈ m.sessions, e.2 ≠ n
  deletes : ∀ d ∈ m.deletes, d.session < m.objects.length
  published : ∀ (n : ℕ) (s : Session), m.objects[n]? = some s → s.exit ≠ none →
    m.Deleted n ∨ Published s

/-- How a session changes in one step; only `delete` changes an exit that is published. -/
structure Evolves (m : State) (n : ℕ) (s s' : Session) : Prop where
  id : s'.id = s.id
  argv : s'.argv = s.argv
  startedAt : s'.startedAt = s.startedAt
  child : s'.child = none ↔ s.child = none
  exit : s'.exit = s.exit ∧ (Published s → Published s') ∨ ¬ Published s ∧ Published s' ∨
    m.Deleted n

theorem setHandle_evolves (present : Bool) :
    (s.setHandle present).id = s.id ∧ (s.setHandle present).argv = s.argv ∧
      (s.setHandle present).startedAt = s.startedAt ∧ (s.setHandle present).child = s.child ∧
      (s.setHandle present).exit = s.exit := by
  unfold Session.setHandle
  split
  · exact ⟨rfl, rfl, rfl, rfl, rfl⟩
  · exact ⟨rfl, rfl, rfl, rfl, rfl⟩

theorem Evolves.refl : Evolves m n s s := ⟨rfl, rfl, rfl, Iff.rfl, .inl ⟨rfl, fun h => h⟩⟩

/-- A write changes the session only as it may. -/
theorem Evolves.of_write {i : ℕ} {w w' : Input} {late : Bool}
    {call : WriteCall} (h : s.write i w late call = some (s', w')) : Evolves m n s s' := by
  suffices hsame : s'.id = s.id ∧ s'.argv = s.argv ∧ s'.startedAt = s.startedAt ∧
      s'.child = s.child ∧ s'.exit = s.exit by
    obtain ⟨hid, hargv, hstarted, hchild, hexit⟩ := hsame
    refine ⟨hid, hargv, hstarted, by rw [hchild], .inl ⟨hexit, fun hp => ?_⟩⟩
    obtain ⟨c, hc, hpc⟩ := hp
    exact ⟨c, hchild.trans hc, hpc⟩
  have htrue := setHandle_evolves (s := s) true
  have hfalse := setHandle_evolves (s := s) false
  unfold Session.write at h
  grind

/-- So does a reaper. -/
theorem Evolves.of_reaps {pgid : Option ℕ} (h : s.Reaps s' pgid) : Evolves m n s s' := by
  have hearly : ∀ {c : Child}, s.child = some c → c.reaper ≠ .closing → c.reaper ≠ .ended →
      ¬ Published s := by
    intro c hc hclosing hended hp
    obtain ⟨d, hd, hpc⟩ := hp
    rw [hc] at hd
    cases hd
    exact hpc.elim hclosing hended
  cases h with
  | @publish c left code hc hpc =>
    have hno := hearly hc (by simp [hpc]) (by simp [hpc])
    exact ⟨rfl, rfl, rfl, by simp [Session.goes, hc], .inr (.inl ⟨hno, _, rfl, .inl rfl⟩)⟩
  | @close c hc hpc =>
    have hset := setHandle_evolves (s := s.goes c .ended) false
    obtain ⟨hid, hargv, hstarted, hchild, hexit⟩ := hset
    refine ⟨hid, hargv, hstarted, by rw [hchild]; simp [Session.goes, hc],
      .inl ⟨hexit, fun _ => ?_⟩⟩
    exact ⟨_, hchild, .inr rfl⟩
  | observe hc hpc | take hc hpc | signal hc hpc | wait hc hpc | poll hc hpc =>
    have hno := hearly hc (by simp [hpc]) (by simp [hpc])
    exact ⟨rfl, rfl, rfl, by simp [Session.goes, hc], .inl ⟨rfl, fun hp => (hno hp).elim⟩⟩

/-- A step changes no session, changes one, or adds one. -/
theorem Step.objects (h : m.Step e m') :
    m'.objects = m.objects ∨ (∃ s, m'.objects = m.objects ++ [s] ∧ s.exit = none) ∨
      ∃ (n : ℕ) (s s' : Session), m.objects[n]? = some s ∧ m'.objects = m.objects.set n s' ∧
        Evolves m n s s' := by
  have hchild : ∀ {n : ℕ} {s : Session} {c c' : Child}, s.child = some c → c'.reaper = c.reaper →
      Evolves m n s { s with child := some c' } := by
    intro n s c c' hc hreaper
    refine ⟨rfl, rfl, rfl, by simp [hc], .inl ⟨rfl, fun hp => ?_⟩⟩
    obtain ⟨d, hd, hpc⟩ := hp
    rw [hc] at hd
    cases hd
    exact ⟨c', rfl, hreaper ▸ hpc⟩
  cases h.does with
  | create | search | look | spawnFails | list | unlist | kill | killing | delete | input | other
  | otherEnds => exact .inl rfl
  | reserve | spawn => exact .inr (.inl ⟨_, rfl, rfl⟩)
  | @deleting i d s hd hs hpc =>
    have hdeleted : m.Deleted d.session := ⟨d, List.mem_of_getElem? hd, rfl⟩
    exact .inr (.inr ⟨_, s, _, hs, rfl, rfl, rfl, rfl, Iff.rfl, .inr (.inr hdeleted)⟩)
  | @closing i d s s' pc hd hs hs' =>
    have hdeleted : m.Deleted d.session := ⟨d, List.mem_of_getElem? hd, rfl⟩
    rcases hs' with ⟨-, -, rfl⟩ | ⟨-, -, rfl⟩
    · exact .inr (.inr ⟨_, s, _, hs, rfl, rfl, rfl, rfl, Iff.rfl, .inr (.inr hdeleted)⟩)
    · exact .inr (.inr ⟨_, s, _, hs, rfl, rfl, rfl, rfl, Iff.rfl, .inr (.inr hdeleted)⟩)
  | write hw hs hwrite => exact .inr (.inr ⟨_, _, _, hs, rfl, .of_write hwrite⟩)
  | reap hs hreap => exact .inr (.inr ⟨_, _, _, hs, rfl, .of_reaps hreap⟩)
  | exit hs hc hstatus => exact .inr (.inr ⟨_, _, _, hs, rfl, hchild hc rfl⟩)
  | pumpEnd hs hc hpumps => exact .inr (.inr ⟨_, _, _, hs, rfl, hchild hc rfl⟩)

/-- A session evolves by every step. -/
theorem Step.evolves (h : m.Step e m') (hs : m.objects[n]? = some s) :
    ∃ s', m'.objects[n]? = some s' ∧ Evolves m n s s' := by
  have hlt : n < m.objects.length := (List.getElem?_eq_some_iff.mp hs).1
  rcases h.objects with hobjects | ⟨t, hobjects, -⟩ | ⟨k, t, t', ht, hobjects, hevolves⟩
  · exact ⟨s, hobjects ▸ hs, .refl⟩
  · exact ⟨s, by rw [hobjects, List.getElem?_append_left hlt, hs], .refl⟩
  · by_cases hk : k = n
    · subst hk
      rw [hs] at ht
      cases ht
      exact ⟨t', by rw [hobjects, List.getElem?_set_self hlt], hevolves⟩
    · exact ⟨s, by rw [hobjects, List.getElem?_set_ne hk, hs], .refl⟩

/-- And was there before, or is new. -/
theorem Step.evolved (h : m.Step e m') (hs : m'.objects[n]? = some s') :
    (∃ s, m.objects[n]? = some s ∧ Evolves m n s s') ∨ n = m.objects.length ∧ s'.exit = none := by
  by_cases hlt : n < m.objects.length
  · obtain ⟨t, ht, hevolves⟩ := h.evolves (List.getElem?_eq_getElem hlt)
    rw [hs] at ht
    cases ht
    exact .inl ⟨_, List.getElem?_eq_getElem hlt, hevolves⟩
  · have hlen := (List.getElem?_eq_some_iff.mp hs).1
    rcases h.objects with hobjects | ⟨t, hobjects, hexit⟩ | ⟨k, t, t', -, hobjects, -⟩
    · rw [hobjects] at hlen
      exact (hlt hlen).elim
    · rw [hobjects, List.length_append, List.length_singleton] at hlen
      have hn : n = m.objects.length := by omega
      subst hn
      rw [hobjects, List.getElem?_concat_length] at hs
      cases hs
      exact .inr ⟨rfl, hexit⟩
    · rw [hobjects, List.length_set] at hlen
      exact (hlt hlen).elim

/-- A deleted session stays deleted. -/
theorem Step.deleted (h : m.Step e m') (hn : m.Deleted n) : m'.Deleted n := by
  obtain ⟨d, hd, hdn⟩ := hn
  have hset : ∀ {i : ℕ} {d₀ d₁ : Delete}, m.deletes[i]? = some d₀ → d₁.session = d₀.session →
      ∃ d ∈ m.deletes.set i d₁, d.session = n := by
    intro i d₀ d₁ hd₀ hsession
    obtain ⟨j, hj⟩ := List.mem_iff_getElem?.mp hd
    by_cases hij : i = j
    · subst hij
      rw [hd₀] at hj
      cases hj
      exact ⟨d₁, List.mem_set (List.getElem?_eq_some_iff.mp hd₀).1 _, hsession.trans hdn⟩
    · exact ⟨d, List.mem_of_getElem? ((List.getElem?_set_ne hij).trans hj), hdn⟩
  cases h.does with
  | delete => exact ⟨d, List.mem_append_left _ hd, hdn⟩
  | deleting hd₀ => exact hset hd₀ rfl
  | closing hd₀ => exact hset hd₀ rfl
  | _ => exact ⟨d, hd, hdn⟩

/-- A completed session has published its exit, unless it was deleted. -/
theorem Step.published (h : m.Step e m')
    (hm : ∀ (n : ℕ) (s : Session), m.objects[n]? = some s → s.exit ≠ none →
      m.Deleted n ∨ Published s) :
    ∀ (n : ℕ) (s : Session), m'.objects[n]? = some s → s.exit ≠ none →
      m'.Deleted n ∨ Published s := by
  intro n s' hs' hexit
  rcases h.evolved hs' with ⟨s, hs, hevolves⟩ | ⟨-, hnone⟩
  · rcases hevolves.exit with ⟨hsame, hkeeps⟩ | ⟨-, hpublished⟩ | hdeleted
    · exact (hm n s hs (hsame ▸ hexit)).imp h.deleted hkeeps
    · exact .inr hpublished
    · exact .inl (h.deleted hdeleted)
  · exact (hexit hnone).elim

/-- A session that is found is registered. -/
theorem get_mem (h : m.get id = some n) : (id, n) ∈ m.sessions := by
  obtain ⟨e, he, rfl⟩ := Option.map_eq_some_iff.mp h
  obtain ⟨hmem, rfl⟩ := Table.row_mem he
  exact hmem

/-- Removal takes one id out. -/
theorem mem_remove {x : String × ℕ} : x ∈ m.remove id ↔ x ∈ m.sessions ∧ x.1 ≠ id := by
  simp [remove]

/-- Insertion replaces one id. -/
theorem mem_insert {x : String × ℕ} :
    x ∈ m.insert id n ↔ x ∈ m.sessions ∧ x.1 ≠ id ∨ x = (id, n) := by
  simp [State.insert]

/-- An id has one row. -/
theorem Registered.row (h : m.Registered) {x y : String × ℕ} (hx : x ∈ m.sessions)
    (hy : y ∈ m.sessions) (hid : x.1 = y.1) : x = y :=
  List.inj_on_of_nodup_map h.keyed hx hy hid

/-- A `create` at work on one of the ids changes its place. -/
theorem creates_set {i j : ℕ} {c d : Create} {pc : Creating} (hc : m.creates[i]? = some c)
    (hd : (m.creates.set i { c with pc })[j]? = some d) :
    ∃ d₀, m.creates[j]? = some d₀ ∧ d.id = d₀.id ∧ (j = i ∧ d.pc = pc ∨ j ≠ i ∧ d = d₀) := by
  rcases Table.getElem?_replaced hd with ⟨rfl, rfl⟩ | ⟨hij, hd⟩
  · exact ⟨c, hc, rfl, .inl ⟨rfl, rfl⟩⟩
  · exact ⟨d, hd, rfl, .inr ⟨hij, rfl⟩⟩

theorem creates_set_of (pc : Creating) {i j : ℕ} {c d : Create} (hc : m.creates[i]? = some c)
    (hd : m.creates[j]? = some d) :
    ∃ d', (m.creates.set i { c with pc })[j]? = some d' ∧ d'.id = d.id ∧
      (j = i ∧ d'.pc = pc ∨ j ≠ i ∧ d' = d) := by
  by_cases hij : i = j
  · subst hij
    rw [hc] at hd
    cases hd
    exact ⟨_, List.getElem?_set_self (List.getElem?_eq_some_iff.mp hc).1, rfl, .inl ⟨rfl, rfl⟩⟩
  · exact ⟨d, (List.getElem?_set_ne hij).trans hd, rfl, .inr ⟨fun hji => hij hji.symm, rfl⟩⟩

section Steps

variable (h : m.Registered) (hstep : m.Step e m')
include h hstep

theorem Registered.deletes_step
    (hdeletes : m'.deletes.map Delete.session = m.deletes.map Delete.session) :
    ∀ d ∈ m'.deletes, d.session < m'.objects.length := by
  intro d hd
  have hmem := List.mem_map_of_mem (f := Delete.session) hd
  rw [hdeletes] at hmem
  obtain ⟨d₀, hd₀, hsession⟩ := List.mem_map.mp hmem
  obtain ⟨s', hs', -⟩ := hstep.evolves (List.getElem?_eq_getElem (h.deletes d₀ hd₀))
  rw [← hsession]
  exact (List.getElem?_eq_some_iff.mp hs').1

end Steps

/-- The ids stay apart when a `create` goes on. -/
theorem Registered.ids_set (h : m.Registered) {i : ℕ} {c : Create} {pc : Creating}
    (hc : m.creates[i]? = some c) (hcreates : m'.creates = m.creates.set i { c with pc })
    (hagent : m'.agent = m.agent) (hnext : m'.nextId = m.nextId) :
    (∀ (i : ℕ) (c : Create), m'.creates[i]? = some c →
      ∃ k < m'.nextId, c.id = sessionId m'.agent k) ∧
    ∀ (i j : ℕ) (c d : Create), m'.creates[i]? = some c → m'.creates[j]? = some d →
      c.id = d.id → i = j := by
  rw [hcreates, hagent, hnext]
  refine ⟨fun j d hd => ?_, fun j k d d' hd hd' hid => ?_⟩
  · obtain ⟨d₀, hd₀, hid, -⟩ := creates_set hc hd
    rw [hid]
    exact h.named j d₀ hd₀
  · obtain ⟨d₀, hd₀, hid₀, -⟩ := creates_set hc hd
    obtain ⟨d₁, hd₁, hid₁, -⟩ := creates_set hc hd'
    exact h.distinct j k d₀ d₁ hd₀ hd₁ (hid₀.symm.trans (hid.trans hid₁))

/-- The steps that touch neither the map nor a `create`. -/
theorem Registered.other (h : m.Registered) (hstep : m.Step e m') (hagent : m'.agent = m.agent)
    (hnext : m'.nextId = m.nextId) (hsessions : m'.sessions = m.sessions)
    (hcreates : m'.creates = m.creates)
    (hdeletes : m'.deletes.map Delete.session = m.deletes.map Delete.session) :
    m'.Registered := by
  have hdeleted : ∀ n, m'.Deleted n → m.Deleted n := by
    intro n hn
    obtain ⟨d, hd, hdn⟩ := hn
    have hmem := List.mem_map_of_mem (f := Delete.session) hd
    rw [hdeletes] at hmem
    obtain ⟨d₀, hd₀, hsession⟩ := List.mem_map.mp hmem
    exact ⟨d₀, hd₀, hsession.trans hdn⟩
  constructor
  · rw [hsessions]
    exact h.keyed
  · rw [hcreates, hagent, hnext]
    exact h.named
  · rw [hcreates]
    exact h.distinct
  · intro x hx
    rw [hsessions] at hx
    obtain ⟨⟨s, hs, hid⟩, hno⟩ := h.listed x hx
    obtain ⟨s', hs', hevolves⟩ := hstep.evolves hs
    exact ⟨⟨s', hs', hevolves.id.trans hid⟩, fun hn => hno (hdeleted _ hn)⟩
  · rw [hsessions, hcreates]
    exact h.owner
  · intro x hx i c hc hid hpending
    rw [hsessions] at hx
    rw [hcreates] at hc
    obtain ⟨s, hs, hchild⟩ := h.placeholder x hx i c hc hid hpending
    obtain ⟨s', hs', hevolves⟩ := hstep.evolves hs
    exact ⟨s', hs', hevolves.child.mpr hchild⟩
  · intro i c n hc hpc
    rw [hcreates] at hc
    obtain ⟨⟨s, hs, hid⟩, hno, hapart⟩ := h.spawned i c n hc hpc
    obtain ⟨s', hs', hevolves⟩ := hstep.evolves hs
    rw [hsessions]
    exact ⟨⟨s', hs', hevolves.id.trans hid⟩, fun hn => hno (hdeleted _ hn), hapart⟩
  · exact h.deletes_step hstep hdeletes
  · exact hstep.published h.published

/-- A new call has a fresh id. -/
theorem Registered.create (h : m.Registered) {argv : List String} {pty : Bool}
    (hstep : m.Step (.create argv pty)
      { m with
        nextId := m.nextId + 1
        creates := m.creates ++ [{ id := sessionId m.agent m.nextId, argv, pty }] }) :
    State.Registered
      { m with
        nextId := m.nextId + 1
        creates := m.creates ++ [{ id := sessionId m.agent m.nextId, argv, pty }] } := by
  have hnew : ∀ (j : ℕ) (d : Create), m.creates[j]? = some d →
      d.id ≠ sessionId m.agent m.nextId := by
    intro j d hd hid
    obtain ⟨k, hk, hdk⟩ := h.named j d hd
    have hkn := sessionId_injective (hdk.symm.trans hid)
    omega
  have hpub := hstep.published h.published
  constructor
  · exact h.keyed
  · intro j d hd
    rcases Table.getElem?_snoc hd with hd | ⟨-, rfl⟩
    · obtain ⟨k, hk, hdk⟩ := h.named j d hd
      exact ⟨k, Nat.lt_succ_of_lt hk, hdk⟩
    · exact ⟨m.nextId, Nat.lt_succ_self _, rfl⟩
  · intro j k d d' hd hd' hid
    rcases Table.getElem?_snoc hd with hd | ⟨rfl, rfl⟩
    · rcases Table.getElem?_snoc hd' with hd' | ⟨-, rfl⟩
      · exact h.distinct j k d d' hd hd' hid
      · exact (hnew j d hd hid).elim
    · rcases Table.getElem?_snoc hd' with hd' | ⟨rfl, rfl⟩
      · exact (hnew k d' hd' hid.symm).elim
      · rfl
  · exact h.listed
  · intro x hx
    obtain ⟨i, c, hc, hid, hpc⟩ := h.owner x hx
    exact ⟨i, c, by rw [List.getElem?_append_left (List.getElem?_eq_some_iff.mp hc).1, hc], hid,
      hpc⟩
  · intro x hx i c hc hid hpending
    rcases Table.getElem?_snoc hc with hc | ⟨-, rfl⟩
    · exact h.placeholder x hx i c hc hid hpending
    · cases hpending
  · intro i c n hc hpc
    rcases Table.getElem?_snoc hc with hc | ⟨-, rfl⟩
    · exact h.spawned i c n hc hpc
    · cases hpc
  · exact h.deletes
  · exact hpub

/-- The entries that stay, and what is spawned, when one `create` goes on. -/
theorem Registered.set (h : m.Registered) (hstep : m.Step e m') {i : ℕ} {c : Create} {pc : Creating}
    (hc : m.creates[i]? = some c) (hcreates : m'.creates = m.creates.set i { c with pc })
    (hagent : m'.agent = m.agent) (hnext : m'.nextId = m.nextId) (hdeletes : m'.deletes = m.deletes)
    (hkeyed : Table.Keyed Prod.fst m'.sessions) (hnamed : pc ≠ .named)
    (hsessions : ∀ x ∈ m'.sessions, x ∈ m.sessions ∨ x.1 = c.id ∧
      (∃ s, m'.objects[x.2]? = some s ∧ s.id = c.id ∧ (Creating.Pending pc → s.child = none)) ∧
      ¬ m.Deleted x.2 ∧ ∀ j d, j ≠ i → m.creates[j]? = some d → d.pc ≠ .spawned x.2)
    (hplaceholder : Creating.Pending pc → Creating.Pending c.pc ∨ ∀ x ∈ m.sessions, x.1 ≠ c.id)
    (hspawned : ∀ n, pc = .spawned n → (∃ s, m'.objects[n]? = some s ∧ s.id = c.id) ∧
      ¬ m.Deleted n ∧ ∀ x ∈ m'.sessions, x.2 ≠ n) : m'.Registered := by
  obtain ⟨hids, hdistinct⟩ := h.ids_set hc hcreates hagent hnext
  have hdeleted : ∀ n, m'.Deleted n ↔ m.Deleted n := fun n => by rw [Deleted, hdeletes, Deleted]
  have hmap : m'.deletes.map Delete.session = m.deletes.map Delete.session := by rw [hdeletes]
  refine ⟨hkeyed, hids, hdistinct, fun x hx => ?_, fun x hx => ?_,
    fun x hx j d hd hid hpending => ?_, fun j d n hd hpc => ?_, h.deletes_step hstep hmap,
    hstep.published h.published⟩
  · rw [hdeleted]
    rcases hsessions x hx with hx | ⟨hid, ⟨s, hs, hsid, -⟩, hno, -⟩
    · obtain ⟨⟨s, hs, hid⟩, hno⟩ := h.listed x hx
      obtain ⟨s', hs', hevolves⟩ := hstep.evolves hs
      exact ⟨⟨s', hs', hevolves.id.trans hid⟩, hno⟩
    · exact ⟨⟨s, hs, hsid.trans hid.symm⟩, hno⟩
  · rw [hcreates]
    rcases hsessions x hx with hx | ⟨hid, -⟩
    · obtain ⟨j, d, hd, hid, hpc⟩ := h.owner x hx
      obtain ⟨d', hd', hid', hcase⟩ := creates_set_of pc hc hd
      refine ⟨j, d', hd', hid'.trans hid, ?_⟩
      rcases hcase with ⟨-, hpc'⟩ | ⟨-, rfl⟩
      · rw [hpc']
        exact hnamed
      · exact hpc
    · obtain ⟨d', hd', hid', hcase⟩ := creates_set_of pc hc hc
      refine ⟨i, d', hd', hid'.trans hid.symm, ?_⟩
      rcases hcase with ⟨-, hpc'⟩ | ⟨hne, -⟩
      · rw [hpc']
        exact hnamed
      · exact (hne rfl).elim
  · rw [hcreates] at hd
    obtain ⟨d₀, hd₀, hid₀, hcase⟩ := creates_set hc hd
    rcases hsessions x hx with hx | ⟨hxid, ⟨s, hs, -, hchild⟩, -⟩
    · rcases hcase with ⟨rfl, hpc⟩ | ⟨-, rfl⟩
      · rw [hd₀] at hc
        cases hc
        have hxid : x.1 = c.id := hid.symm.trans hid₀
        rcases hplaceholder (hpc ▸ hpending) with hpending₀ | hnone
        · obtain ⟨s, hs, hchild⟩ := h.placeholder x hx j c hd₀ hxid.symm hpending₀
          obtain ⟨s', hs', hevolves⟩ := hstep.evolves hs
          exact ⟨s', hs', hevolves.child.mpr hchild⟩
        · exact (hnone x hx hxid).elim
      · obtain ⟨s, hs, hchild⟩ := h.placeholder x hx j d hd₀ hid hpending
        obtain ⟨s', hs', hevolves⟩ := hstep.evolves hs
        exact ⟨s', hs', hevolves.child.mpr hchild⟩
    · have hji : j = i := h.distinct j i d₀ c hd₀ hc (hid₀.symm.trans (hid.trans hxid))
      rcases hcase with ⟨-, hpc⟩ | ⟨hne, -⟩
      · exact ⟨s, hs, hchild (hpc ▸ hpending)⟩
      · exact (hne hji).elim
  · rw [hcreates] at hd
    rw [hdeleted]
    obtain ⟨d₀, hd₀, hid₀, hcase⟩ := creates_set hc hd
    rcases hcase with ⟨rfl, hpc'⟩ | ⟨hne, rfl⟩
    · rw [hd₀] at hc
      cases hc
      obtain ⟨⟨s, hs, hsid⟩, hrest⟩ := hspawned n (hpc'.symm.trans hpc)
      exact ⟨⟨s, hs, hsid.trans hid₀.symm⟩, hrest⟩
    · obtain ⟨⟨s, hs, hsid⟩, hno, hapart⟩ := h.spawned j d n hd₀ hpc
      obtain ⟨s', hs', hevolves⟩ := hstep.evolves hs
      refine ⟨⟨s', hs', hevolves.id.trans hsid⟩, hno, fun x hx hxn => ?_⟩
      rcases hsessions x hx with hx | ⟨-, -, -, hother⟩
      · exact hapart x hx hxn
      · exact hother j d hne hd₀ (hxn ▸ hpc)

/-- The session that a look may choose. -/
theorem evictable_iff {x : String × ℕ} {a : String × ℤ} : m.evictable x = some a ↔
    ∃ s, m.objects[x.2]? = some s ∧ s.exit ≠ none ∧ isolated s.argv = false ∧
      (x.1, s.startedAt) = a := by
  simp only [evictable, Option.bind_eq_bind, Option.bind_eq_some_iff,
    Option.ite_none_right_eq_some, Option.isSome_iff_ne_none, Option.some.injEq, and_assoc]

/-- Eviction only removes. -/
theorem mem_evicted {x : String × ℕ} (hx : x ∈ m.evicted) : x ∈ m.sessions := by
  unfold evicted at hx
  split at hx
  · exact (mem_remove.mp hx).1
  · exact hx

/-- What the eviction takes out is what the loop has found. -/
theorem found_of_evicted {x : String × ℕ} (hx : x ∈ m.sessions) (hgone : x ∉ m.evicted) :
    ∃ s started, m.search = some s ∧ s.oldest = some (x.1, started) := by
  unfold evicted at hgone
  split at hgone
  · rename_i create rest id started hsearch
    have hid : x.1 = id := by
      by_contra hne
      exact hgone (mem_remove.mpr ⟨hx, hne⟩)
    exact ⟨_, started, hsearch, by rw [hid]⟩
  · exact (hgone hx).elim

theorem Registered.keyed_evicted (h : m.Registered) : Table.Keyed Prod.fst m.evicted := by
  unfold evicted
  split
  · exact h.keyed.filter
  · exact h.keyed

theorem keyed_insert {m : State} (h : Table.Keyed Prod.fst m.sessions) :
    Table.Keyed Prod.fst (m.insert id n) := by
  refine Table.Keyed.append h.filter (Table.row_eq_none.mpr fun x hx => ?_)
  exact of_decide_eq_true (List.mem_filter.mp hx).2

/-- A deletion keeps the registry in order. -/
theorem Registered.delete (h : m.Registered) (hn : m.get id = some n)
    (hstep : m.Step (.delete id)
      { m with sessions := m.remove id, deletes := m.deletes ++ [{ session := n }] }) :
    State.Registered
      { m with sessions := m.remove id, deletes := m.deletes ++ [{ session := n }] } := by
  have hmem : ((id, n) : String × ℕ) ∈ m.sessions := get_mem hn
  obtain ⟨⟨s, hs, hsid⟩, -⟩ := h.listed _ hmem
  have hcases : ∀ {k : ℕ}, State.Deleted
      { m with sessions := m.remove id, deletes := m.deletes ++ [{ session := n }] } k →
      m.Deleted k ∨ k = n := by
    intro k hk
    obtain ⟨d, hd, hdk⟩ := hk
    rcases Table.mem_snoc.mp hd with hd | rfl
    · exact .inl ⟨d, hd, hdk⟩
    · exact .inr hdk.symm
  have hpub := hstep.published h.published
  refine ⟨h.keyed.filter, h.named, h.distinct, fun x hx => ?_, fun x hx => ?_,
    fun x hx => ?_, fun i c k hc hpc => ?_, fun d hd => ?_, hpub⟩
  · obtain ⟨hx, hne⟩ := mem_remove.mp hx
    obtain ⟨⟨t, ht, htid⟩, hno⟩ := h.listed x hx
    refine ⟨⟨t, ht, htid⟩, fun hk => ?_⟩
    rcases hcases hk with hk | hxn
    · exact hno hk
    · -- A session is listed under its own id only.
      rw [hxn, hs] at ht
      cases ht
      exact hne (htid.symm.trans hsid)
  · exact h.owner x (mem_remove.mp hx).1
  · exact h.placeholder x (mem_remove.mp hx).1
  · obtain ⟨hobject, hno, hapart⟩ := h.spawned i c k hc hpc
    refine ⟨hobject, fun hk => ?_, fun x hx => hapart x (mem_remove.mp hx).1⟩
    rcases hcases hk with hk | rfl
    · exact hno hk
    · exact hapart _ hmem rfl
  · rcases Table.mem_snoc.mp hd with hd | rfl
    · exact h.deletes d hd
    · exact (List.getElem?_eq_some_iff.mp hs).1

/-- Nothing is listed under an id before `create` puts its placeholder there. -/
theorem Registered.fresh (h : m.Registered) {i : ℕ} {c : Create} (hc : m.creates[i]? = some c)
    (hpc : c.pc = .named) : ∀ x ∈ m.sessions, x.1 ≠ c.id := by
  intro x hx hid
  obtain ⟨j, d, hd, hdid, hdpc⟩ := h.owner x hx
  have hji := h.distinct j i d c hd hc (hdid.trans hid)
  subst hji
  rw [hc] at hd
  cases hd
  exact hdpc hpc

theorem sessions_set {i : ℕ} {d : Delete} {pc : Deleting} (hd : m.deletes[i]? = some d) :
    (m.deletes.set i { d with pc }).map Delete.session = m.deletes.map Delete.session := by
  obtain ⟨hi, rfl⟩ := List.getElem?_eq_some_iff.mp hd
  have hi' : i < (m.deletes.map Delete.session).length := by rwa [List.length_map]
  have hself := List.set_getElem_self hi'
  rw [List.getElem_map] at hself
  rw [List.map_set]
  exact hself

/-- Every step does. -/
theorem Registered.step (h : m.Registered) (hstep : m.Step e m') : m'.Registered := by
  cases hstep.does with
  | create => exact h.create hstep
  | search | look | kill | killing | input | write | reap | exit | pumpEnd | other | otherEnds =>
    exact h.other hstep rfl rfl rfl rfl rfl
  | @deleting i d s hd hs hpc =>
    exact h.other hstep rfl rfl rfl rfl (sessions_set hd)
  | @closing i d s s' pc hd hs hs' =>
    exact h.other hstep rfl rfl rfl rfl (sessions_set hd)
  | delete hfree hn => exact h.delete hn hstep
  | @spawnFails i c text hc hpc =>
    exact h.set hstep hc rfl rfl rfl rfl h.keyed nofun (fun x hx => .inl hx)
      (fun _ => .inl (by rw [hpc]; trivial)) nofun
  | @unlist i c text hfree hc hpc =>
    exact h.set hstep hc rfl rfl rfl rfl h.keyed.filter nofun
      (fun x hx => .inl (mem_remove.mp hx).1) nofun nofun
  | @list i n c hfree hc hpc =>
    obtain ⟨⟨s, hs, hid⟩, hno, hapart⟩ := h.spawned i c n hc hpc
    refine h.set hstep hc rfl rfl rfl rfl (keyed_insert h.keyed) nofun (fun x hx => ?_) nofun nofun
    rcases mem_insert.mp hx with ⟨hx, -⟩ | rfl
    · exact .inl hx
    · refine .inr ⟨rfl, ⟨s, hs, hid, nofun⟩, hno, fun j d hji hd hdpc => ?_⟩
      obtain ⟨⟨t, ht, htid⟩, -⟩ := h.spawned j d n hd hdpc
      rw [hs] at ht
      cases ht
      exact hji (h.distinct j i d c hd hc (htid.symm.trans hid))
  | @spawn i pid c now hc hpc hfree =>
    refine h.set hstep hc rfl rfl rfl rfl h.keyed nofun (fun x hx => .inl hx)
      (fun _ => .inl (by rw [hpc]; trivial)) (fun n hn => ?_)
    cases hn
    refine ⟨⟨State.spawned c pid now, List.getElem?_concat_length, rfl⟩, fun hd => ?_,
      fun x hx hxn => ?_⟩
    · obtain ⟨d, hd, hdn⟩ := hd
      have hlt := h.deletes d hd
      omega
    · obtain ⟨⟨t, ht, -⟩, -⟩ := h.listed x hx
      have hlt := (List.getElem?_eq_some_iff.mp ht).1
      omega
  | @reserve i c now hc hpc hready =>
    refine h.set hstep hc rfl rfl rfl rfl (keyed_insert (m := { m with sessions := m.evicted })
      h.keyed_evicted) nofun (fun x hx => ?_) (fun _ => .inr (h.fresh hc hpc)) nofun
    rcases mem_insert.mp hx with ⟨hx, -⟩ | rfl
    · exact .inl (mem_evicted hx)
    · refine .inr ⟨rfl, ⟨_, List.getElem?_concat_length, rfl, fun _ => rfl⟩, fun hd => ?_,
        fun j d _ hd hdpc => ?_⟩
      · obtain ⟨d, hd, hdn⟩ := hd
        have hlt := h.deletes d hd
        omega
      · obtain ⟨⟨t, ht, -⟩, -⟩ := h.spawned j d _ hd hdpc
        have hlt := (List.getElem?_eq_some_iff.mp ht).1
        omega

/-- The empty registry is in order. -/
theorem registered_start (agent : ℕ) : (start agent).Registered := by
  constructor
  · exact List.nodup_nil
  · exact fun i c hc => by simp [start] at hc
  · exact fun i j c d hc => by simp [start] at hc
  · exact fun x hx => by simp [start] at hx
  · exact fun x hx => by simp [start] at hx
  · exact fun x hx => by simp [start] at hx
  · exact fun i c n hc => by simp [start] at hc
  · exact fun d hd => by simp [start] at hd
  · exact fun n s hs => by simp [start] at hs

/-! ## The loop of `create` -/

/-- What can be evicted can be evicted until it is deleted. -/
theorem Registered.evictable (h : m.Registered) (hstep : m.Step e m') {x : String × ℕ}
    (hx : x ∈ m.sessions) {a : String × ℤ} (ha : m.evictable x = some a) :
    m'.evictable x = some a := by
  obtain ⟨s, hs, hexit, hmark, rfl⟩ := evictable_iff.mp ha
  have hno : ¬ m.Deleted x.2 := (h.listed x hx).2
  have hpublished : Published s := (h.published x.2 s hs hexit).resolve_left hno
  obtain ⟨s', hs', hevolves⟩ := hstep.evolves hs
  refine evictable_iff.mpr ⟨s', hs', ?_, ?_, ?_⟩
  · rcases hevolves.exit with ⟨hsame, -⟩ | ⟨hunpublished, -⟩ | hd
    · rwa [hsame]
    · exact (hunpublished hpublished).elim
    · exact (hno hd).elim
  · rw [hevolves.argv]
    exact hmark
  · rw [hevolves.startedAt]

/-- A loop that began in the state `a` and has come to `m`: it has found the oldest of the sessions
that could be evicted in `a` and that it has come to, or one that is older and can be evicted by
now. -/
structure Searches (a m : State) (s : Search) : Prop where
  full : maxSessions ≤ a.sessions.length
  sessions : m.sessions = a.sessions
  rest : ∀ e ∈ s.rest, e ∈ a.sessions
  stays : ∀ e ∈ a.sessions, ∀ x, a.evictable e = some x → m.evictable e = some x
  seen : ∀ e ∈ a.sessions, ∀ x, a.evictable e = some x →
    e ∈ s.rest ∨ ∃ y, s.oldest = some y ∧ rank y ≤ rank x
  found : ∀ y, s.oldest = some y → ∃ e ∈ a.sessions, m.evictable e = some y

/-- A loop begins, goes on, or is left alone; meanwhile the map stays. -/
theorem Step.search {s' : Search} (h : m.Step e m') (hs' : m'.search = some s') :
    m'.sessions = m.sessions ∧
    ((e = .search s'.create s'.rest ∧ maxSessions ≤ m.sessions.length ∧
        s'.rest.Perm m.sessions ∧ s'.oldest = none) ∨
      m.search = some s' ∨
      ∃ x oldest, m.search = some ⟨s'.create, x :: s'.rest, oldest⟩ ∧
        m.consider oldest x = s'.oldest) := by
  cases h.does with
  | @search i c entries hfree hc hpc hfull hperm =>
    cases hs'
    exact ⟨rfl, .inl ⟨rfl, hfull, hperm, rfl⟩⟩
  | @look create x rest oldest hsearch =>
    cases hs'
    exact ⟨rfl, .inr (.inr ⟨x, oldest, hsearch, rfl⟩)⟩
  | reserve => cases hs'
  | list hfree | unlist hfree | delete hfree =>
    rw [show m.search = some s' from hs'] at hfree
    cases hfree
  | _ => exact ⟨rfl, .inr (.inl hs')⟩

/-- A search begins with the rows of the full registry. -/
theorem Searches.begin {s : Search} (hfull : maxSessions ≤ m.sessions.length)
    (hsessions : m'.sessions = m.sessions) (hperm : s.rest.Perm m.sessions)
    (holdest : s.oldest = none) (hm : m.Registered) (hstep : m.Step e m') : Searches m m' s where
  full := hfull
  sessions := hsessions
  rest := fun x hx => hperm.mem_iff.mp hx
  stays := fun x hx a ha => hm.evictable hstep hx ha
  seen := fun x hx a _ => .inl (hperm.mem_iff.mpr hx)
  found := fun y hy => by
    rw [holdest] at hy
    cases hy

/-- The loop is left alone. -/
theorem Searches.wait {a : State} {s : Search} (h : Searches a m s) (hm : m.Registered)
    (hstep : m.Step e m') (hsessions : m'.sessions = m.sessions) : Searches a m' s := by
  have hkeeps (x : String × ℕ) (hx : x ∈ a.sessions) (y : String × ℤ)
    (hy : m.evictable x = some y) :
      m'.evictable x = some y := hm.evictable hstep (h.sessions ▸ hx) hy
  refine ⟨h.full, hsessions.trans h.sessions, h.rest, fun x hx y hy => ?_, h.seen, fun y hy => ?_⟩
  · exact hkeeps x hx y (h.stays x hx y hy)
  · obtain ⟨x, hx, hxy⟩ := h.found y hy
    exact ⟨x, hx, hkeeps x hx y hxy⟩

/-- The loop looks at the next session. -/
theorem Searches.look {a : State} {create : ℕ} {x : String × ℕ} {rest : List (String × ℕ)}
    {oldest next : Option (String × ℤ)} (h : Searches a m ⟨create, x :: rest, oldest⟩)
    (hnext : m.consider oldest x = next) : Searches a m ⟨create, rest, next⟩ := by
  obtain ⟨hkept, hseen, hfrom⟩ := consider_spec hnext
  have hxa : x ∈ a.sessions := h.rest x List.mem_cons_self
  refine ⟨h.full, h.sessions, fun y hy => h.rest y (List.mem_cons_of_mem _ hy), h.stays,
    fun y hy b hb => ?_, fun b hb => ?_⟩
  · rcases h.seen y hy b hb with hmem | ⟨c, hc, hle⟩
    · rcases List.mem_cons.mp hmem with rfl | hmem
      · exact .inr (hseen b (h.stays y hy b hb))
      · exact .inl hmem
    · obtain ⟨d, hd, hdle⟩ := hkept c hc
      exact .inr ⟨d, hd, hdle.trans hle⟩
  · rcases hfrom b hb with hold | hnew
    · exact h.found b hold
    · exact ⟨x, hxa, hnew⟩

/-- A loop at work began earlier in the run. -/
theorem search_began {agent : ℕ} {es : List Event} {s : Search}
    (h : Trace Step (start agent) es m) (hs : m.search = some s) :
    ∃ (before after : List Event) (entries : List (String × ℕ)) (a : State),
      es = before ++ .search s.create entries :: after ∧ Trace Step (start agent) before a ∧
        Trace Step a (.search s.create entries :: after) m ∧ Searches a m s := by
  induction h generalizing s with
  | nil => cases hs
  | @snoc es m m' e hrun hstep ih =>
    have hm : m.Registered := hrun.invariant (registered_start agent) Registered.step
    obtain ⟨hsessions, hcase⟩ := hstep.search hs
    rcases hcase with ⟨rfl, hfull, hperm, holdest⟩ | hsame | ⟨x, oldest, hbefore, hnext⟩
    · exact ⟨es, [], s.rest, m, rfl, hrun, .snoc .nil hstep,
        .begin hfull hsessions hperm holdest hm hstep⟩
    · obtain ⟨before, after, entries, a, rfl, ha, hloop, hsearches⟩ := ih hsame
      refine ⟨before, after ++ [e], entries, a, ?_, ha, hloop.snoc hstep,
        hsearches.wait hm hstep hsessions⟩
      rw [List.append_assoc, List.cons_append]
    · obtain ⟨before, after, entries, a, rfl, ha, hloop, hsearches⟩ := ih hbefore
      refine ⟨before, after ++ [e], entries, a, ?_, ha, hloop.snoc hstep,
        (hsearches.look hnext).wait hm hstep hsessions⟩
      rw [List.append_assoc, List.cons_append]

/-- A `create` that found the registry full in the state `a` evicts a session in `b`: one that has
completed and is not kept as a receipt. No such session that had completed in `a` is older. -/
def Evicts (a b : State) (id : String) (n : ℕ) : Prop :=
  maxSessions ≤ a.sessions.length ∧ b.sessions = a.sessions ∧
  ∃ s, b.objects[n]? = some s ∧ s.exit ≠ none ∧ isolated s.argv = false ∧
    ∀ x ∈ a.sessions, ∀ t, a.objects[x.2]? = some t → t.exit ≠ none → isolated t.argv = false →
      x.1 = id ∨ older (id, s.startedAt) (x.1, t.startedAt)

/-- The `create` went through the registry in this run, and evicts the session at its end. -/
def Sought (agent : ℕ) (es : List Event) (m : State) (i : ℕ) (id : String) (n : ℕ) : Prop :=
  ∃ (before after : List Event) (entries : List (String × ℕ)) (a : State),
    es = before ++ .search i entries :: after ∧ Trace Step (start agent) before a ∧
      Trace Step a (.search i entries :: after) m ∧ a.Evicts m id n

/-- What the loop has found at its end. -/
theorem Searches.evicts {a : State} {s : Search} (h : Searches a m s) (hm : m.Registered)
    (hrest : s.rest = []) {started : ℤ} (hfound : s.oldest = some (id, started))
    (hmem : (id, n) ∈ m.sessions) : a.Evicts m id n := by
  obtain ⟨y, hy, hold⟩ := h.found _ hfound
  obtain ⟨t, ht, hexit, hmark, heq⟩ := evictable_iff.mp hold
  cases heq
  have hyn : y = (y.1, n) := hm.row (h.sessions ▸ hy) hmem rfl
  have hn : y.2 = n := congrArg Prod.snd hyn
  refine ⟨h.full, h.sessions, t, hn ▸ ht, hexit, hmark, fun x hx u hu huexit humark => ?_⟩
  rcases h.seen x hx _ (evictable_iff.mpr ⟨u, hu, huexit, humark, rfl⟩) with hleft | ⟨z, hz, hle⟩
  · rw [hrest] at hleft
    cases hleft
  · rw [hfound] at hz
    cases hz
    rcases hle.lt_or_eq with hlt | heq
    · exact .inr (older_iff.mpr hlt)
    · exact .inl (Prod.ext_iff.mp (toLex_inj.mp heq)).2.symm

/-! ## Runs -/

/-- What one step can do to a completed session that is listed. -/
theorem Registered.leaves (h : m.Registered) (hstep : m.Step e m') {code : ℤ}
    (hmem : (id, n) ∈ m.sessions) (hs : m.objects[n]? = some s) (hexit : s.exit = some code) :
    ((id, n) ∈ m'.sessions ∧
      ∃ s', m'.objects[n]? = some s' ∧ s'.exit = some code ∧ s'.argv = s.argv) ∨
    e = .delete id ∨ ∃ i now search started, e = .reserve i now ∧ m.search = some search ∧
      search.create = i ∧ search.rest = [] ∧ search.oldest = some (id, started) := by
  have hno : ¬ m.Deleted n := (h.listed _ hmem).2
  have hpublished : Published s := by
    rcases h.published n s hs (by rw [hexit]; simp) with hd | hp
    · exact (hno hd).elim
    · exact hp
  -- The exit stays.
  obtain ⟨s', hs', hevolves⟩ := hstep.evolves hs
  have hexit' : s'.exit = some code := by
    rcases hevolves.exit with ⟨hsame, -⟩ | ⟨hunpublished, -⟩ | hd
    · exact hsame.trans hexit
    · exact (hunpublished hpublished).elim
    · exact (hno hd).elim
  have hstays : (id, n) ∈ m'.sessions → ((id, n) ∈ m'.sessions ∧
      ∃ s', m'.objects[n]? = some s' ∧ s'.exit = some code ∧ s'.argv = s.argv) :=
    fun hin => ⟨hin, s', hs', hexit', hevolves.argv⟩
  -- A `create` that is at work on this id has only a placeholder there, which never completes.
  have hapart : ∀ (i : ℕ) (c : Create), m.creates[i]? = some c → Creating.Pending c.pc →
      id ≠ c.id := by
    intro i c hc hpending hid
    obtain ⟨t, ht, hchild⟩ := h.placeholder _ hmem i c hc hid.symm hpending
    rw [hs] at ht
    cases ht
    obtain ⟨d, hd, -⟩ := hpublished
    rw [hchild] at hd
    cases hd
  cases hstep.does with
  | @reserve i c now hc hpc hready =>
    by_cases hin : (id, n) ∈ m.evicted
    · exact .inl (hstays (mem_insert.mpr (.inl ⟨hin, h.fresh hc hpc _ hmem⟩)))
    · obtain ⟨search, started, hsearch, hfound⟩ := found_of_evicted hmem hin
      simp only [ready, hsearch, decide_eq_true_eq] at hready
      exact .inr (.inr ⟨i, now, search, started, rfl, hsearch, hready.1, hready.2, hfound⟩)
  | @list i k c hfree hc hpc =>
    exact .inl (hstays (mem_insert.mpr
      (.inl ⟨hmem, hapart i c hc (by rw [hpc]; trivial)⟩)))
  | @unlist i c text hfree hc hpc =>
    exact .inl (hstays (mem_remove.mpr ⟨hmem, hapart i c hc (by rw [hpc]; trivial)⟩))
  | @delete id' k hfree hk =>
    by_cases hid : id = id'
    · exact .inr (.inl (by rw [hid]))
    · exact .inl (hstays (mem_remove.mpr ⟨hmem, hid⟩))
  | _ => exact .inl (hstays hmem)

/-- In every run, a listed session that has completed stays listed with the exit code it has, until
its id is deleted, or until a `create` that found the registry full evicts it. This is no receipt,
and when that `create` began to look no older session had completed that is none either. -/
theorem registry_keeps_completed {agent : ℕ} {es fs : List Event} {code : ℤ}
    (h : Trace Step (start agent) es m) (hmem : (id, n) ∈ m.sessions)
    (hs : m.objects[n]? = some s) (hexit : s.exit = some code) (h' : Trace Step m fs m') :
    ((id, n) ∈ m'.sessions ∧ ∃ s', m'.objects[n]? = some s' ∧ s'.exit = some code) ∨
    .delete id ∈ fs ∨
    isolated s.argv = false ∧ ∃ (pre post : List Event) (mid : State) (i : ℕ) (now : ℤ),
      fs = pre ++ .reserve i now :: post ∧ Trace Step m pre mid ∧
        Sought agent (es ++ pre) mid i id n := by
  suffices hall : ((id, n) ∈ m'.sessions ∧
      ∃ s', m'.objects[n]? = some s' ∧ s'.exit = some code ∧ s'.argv = s.argv) ∨
      .delete id ∈ fs ∨
      isolated s.argv = false ∧ ∃ (pre post : List Event) (mid : State) (i : ℕ) (now : ℤ),
        fs = pre ++ .reserve i now :: post ∧ Trace Step m pre mid ∧
          Sought agent (es ++ pre) mid i id n by
    rcases hall with ⟨hin, s', hs', hexit', -⟩ | hrest
    · exact .inl ⟨hin, s', hs', hexit'⟩
    · exact .inr hrest
  induction h' with
  | nil => exact .inl ⟨hmem, s, hs, hexit, rfl⟩
  | @snoc ls b b' l hpre hstep ih =>
    have hrun : Trace Step (start agent) (es ++ ls) b := h.trans hpre
    have hb : b.Registered := hrun.invariant (registered_start agent) Registered.step
    rcases ih with ⟨hin, t, ht, htexit, hargv⟩ | hdelete |
      ⟨hmark, pre, post, mid, i, now, rfl, hmid⟩
    · rcases hb.leaves hstep hin ht htexit with ⟨hin, u, hu, huexit, huargv⟩ | rfl | hfound
      · exact .inl ⟨hin, u, hu, huexit, huargv.trans hargv⟩
      · exact .inr (.inl (by simp))
      · obtain ⟨i, now, search, started, rfl, hsearch, rfl, hrest, hfound⟩ := hfound
        obtain ⟨before, after, entries, a, hes, ha, hloop, hsearches⟩ := search_began hrun hsearch
        have hevicts := hsearches.evicts hb hrest hfound hin
        obtain ⟨u, hu, -, hmark, -⟩ := hevicts.2.2
        rw [ht] at hu
        cases hu
        exact .inr (.inr ⟨hargv ▸ hmark, ls, [], b, _, now, rfl, hpre, before, after, entries, a,
          hes, ha, hloop, hevicts⟩)
    · exact .inr (.inl (List.mem_append_left _ hdelete))
    · refine .inr (.inr ⟨hmark, pre, post ++ [l], mid, i, now, ?_, hmid⟩)
      simp

/-- An isolated run to its end. -/
def isolatedRun : List Event :=
  [.create ["/bin/sh", "-c", "exec \"$@\"", "ahvm-run-isolated:1"] false, .reserve 0 5,
    .spawn 0 7 6, .list 0, .exit 1 (.exited 3), .pumpEnd 1, .pumpEnd 1, .reap 1 false,
    .reap 1 false, .reap 1 false, .reap 1 false, .reap 1 false]

/-- A create that fails to spawn. -/
def laterCreate : List Event := [.create ["true"] true, .reserve 1 6, .spawnFails 1 "no", .list 1]

theorem registry_keeps_completed_isolated : ∃ m m', Trace Step (start 1) isolatedRun m ∧
    Trace Step m laterCreate m' ∧ (sessionId 1 1, 1) ∈ m'.sessions ∧
    ∃ s', m'.objects[1]? = some s' ∧ s'.exit = some 3 := by
  have hrun : (isolatedRun.foldlM next (start 1)).any (fun m =>
      ((sessionId 1 1, 1) ∈ m.sessions ∧
        (m.objects[1]?.any fun s => s.exit = some 3 ∧ isolated s.argv = true) = true) ∧
      (laterCreate.foldlM next m).isSome) = true := by decide +kernel
  obtain ⟨m, hm, hend⟩ := (Option.any_eq_true _ _).mp hrun
  obtain ⟨⟨hmem, hany⟩, hsome⟩ := of_decide_eq_true hend
  obtain ⟨s, hs, hboth⟩ := (Option.any_eq_true _ _).mp hany
  obtain ⟨hexit, hmark⟩ := of_decide_eq_true hboth
  obtain ⟨m', hm'⟩ := Option.isSome_iff_exists.mp hsome
  have h : Trace Step (start 1) isolatedRun m := Trace.of_foldlM hm
  have h' : Trace Step m laterCreate m' := Trace.of_foldlM hm'
  rcases registry_keeps_completed h hmem hs hexit h' with hkept | hdelete | ⟨hno, -⟩
  · exact ⟨m, m', h, h', hkept⟩
  · simp [laterCreate] at hdelete
  · rw [hmark] at hno
    cases hno

end State

end AgentHouse.Forge.Manager
