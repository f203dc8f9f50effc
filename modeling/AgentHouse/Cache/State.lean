import AgentHouse.Volume.Formats
import Mathlib.Algebra.BigOperators.Group.List.Basic

/-!
# The state of the object cache

`State` of `cache.rs` and what `CachedStore` does to it while it holds the mutex. An entry carries
two moments beside its bytes, which the code does not have: when the bytes were obtained and when
they were inserted. A failed `unwrap` and a subtraction below zero are `none`.
-/

namespace AgentHouse.Cache

open AgentHouse.Volume (Bytes Error Result chunkBytes maxObjectBytes)

/-- The volume id, or `base:` and the image, with the hash of the object. -/
abbrev Key := String × String

/-- The position of an event in the run. -/
abbrev Moment := ℕ

/-- An object of the cache. -/
structure Entry where
  bytes : Bytes
  obtained : Moment
  inserted : Moment
  deriving DecidableEq, Repr

/-- `State`; the objects are the values of a `HashMap`. -/
structure State where
  objects : Key → Option Entry
  bytes : ℕ
  order : List Key
  pending : List Key

namespace State

/-- `State::default()` -/
def empty : State := ⟨fun _ => none, 0, [], []⟩

/-- The number of bytes that are cached under a key. -/
def size (objects : Key → Option Entry) (key : Key) : ℕ :=
  match objects key with
  | some e => e.bytes.length
  | none => 0

/-- The loop of `insert_into`: drop the oldest objects until `need` more bytes fit. -/
def evict (capacity need : ℕ) (s : State) : List Key → Option State
  | [] => if s.bytes + need > capacity then none else some { s with order := [] }
  | old :: order =>
      if s.bytes + need > capacity then
        match s.objects old with
        | none => none
        | some removed =>
            if removed.bytes.length ≤ s.bytes then
              evict capacity need { s with
                objects := Function.update s.objects old none
                bytes := s.bytes - removed.bytes.length } order
            else none
      else some { s with order := old :: order }

/-- The end of `insert_into`: the object becomes the newest one. -/
def append (s : State) (key : Key) (e : Entry) : State :=
  { s with
    order := s.order ++ [key]
    bytes := s.bytes + e.bytes.length
    objects := Function.update s.objects key (some e) }

/-- The part of `insert_into` under the lock. -/
def insert (capacity : ℕ) (s : State) (key : Key) (e : Entry) : Option State :=
  if (s.objects key).isSome then some s
  else do
    let s ← s.evict capacity e.bytes.length s.order
    some (s.append key e)

/-- The loop of `delete_chunks` over the hashes. -/
def removeEach (id : String) (s : State) : List String → Option State
  | [] => some s
  | hash :: hashes =>
      match s.objects (id, hash) with
      | none => removeEach id s hashes
      | some removed =>
          if removed.bytes.length ≤ s.bytes then
            removeEach id { s with
              objects := Function.update s.objects (id, hash) none
              bytes := s.bytes - removed.bytes.length } hashes
          else none

/-- The part of `delete_chunks` under the lock. -/
def remove (id : String) (hashes : List String) (s : State) : Option State := do
  let s ← s.removeEach id hashes
  some { s with order := s.order.filter (fun key => (s.objects key).isSome) }

/-- What a round of `prefetch_objects` finds under the lock. -/
inductive Room where
  | full
  | known
  | reserved
  deriving DecidableEq, Repr

/-- The check of `prefetch_objects`, which reserves the key. -/
def reserve (s : State) (key : Key) : Room × State :=
  if s.pending.length ≥ 7 then (.full, s)
  else if (s.objects key).isSome ∨ key ∈ s.pending then (.known, s)
  else (.reserved, { s with pending := key :: s.pending })

/-- The drop of `Pending`. -/
def release (s : State) (key : Key) : State := { s with pending := s.pending.filter (· ≠ key) }

/-! ## What holds whenever the mutex is free -/

/-- `order` lists the keys of `objects`, each once, `bytes` counts them, and the bounds hold. -/
structure Bounded (capacity : ℕ) (s : State) : Prop where
  nodup : s.order.Nodup
  keys : ∀ key, key ∈ s.order ↔ (s.objects key).isSome = true
  counted : s.bytes = (s.order.map (size s.objects)).sum
  fits : s.bytes ≤ capacity
  pendingNodup : s.pending.Nodup
  pending : s.pending.length ≤ 7

/-- The empty cache is within its bounds. -/
theorem bounded_empty (capacity : ℕ) : empty.Bounded capacity where
  nodup := List.nodup_nil
  keys key := by simp [empty]
  counted := rfl
  fits := Nat.zero_le _
  pendingNodup := List.nodup_nil
  pending := Nat.zero_le _

variable {capacity need : ℕ} {s t : State} {key : Key} {e : Entry}

/-- Sizes of other keys do not change. -/
theorem map_size_update {objects : Key → Option Entry} {order : List Key} (h : key ∉ order)
    (o : Option Entry) :
    order.map (size (Function.update objects key o)) = order.map (size objects) := by
  refine List.map_congr_left fun other hother => ?_
  have hne : other ≠ key := fun heq => h (heq ▸ hother)
  rw [size, size, Function.update_of_ne hne]

/-- What the loop of `insert_into` leaves: a suffix of the order, with its objects. -/
structure Evicted (capacity need : ℕ) (s t : State) (order : List Key) : Prop where
  suffix : t.order <:+ order
  objects : ∀ key, t.objects key = if key ∈ order ∧ key ∉ t.order then none else s.objects key
  counted : t.bytes = (t.order.map (size t.objects)).sum
  fits : t.bytes + need ≤ capacity
  pending : t.pending = s.pending

/-- The `unwrap`s of the loop do not fail. -/
theorem evict_evicted {order : List Key} (hneed : need ≤ capacity) (hnodup : order.Nodup)
    (hkeys : ∀ key ∈ order, (s.objects key).isSome = true)
    (hcounted : s.bytes = (order.map (size s.objects)).sum) :
    ∃ t, s.evict capacity need order = some t ∧ Evicted capacity need s t order := by
  induction order generalizing s with
  | nil =>
    have hzero : s.bytes = 0 := hcounted
    refine ⟨{ s with order := [] }, ?_, List.suffix_refl _, fun key => ?_, hcounted, ?_, rfl⟩
    · rw [evict, if_neg (by omega)]
    · rw [if_neg (fun h => absurd h.1 List.not_mem_nil)]
    · change s.bytes + need ≤ capacity
      omega
  | cons old order ih =>
    by_cases hfull : s.bytes + need > capacity
    · obtain ⟨removed, hremoved⟩ := Option.isSome_iff_exists.mp (hkeys old List.mem_cons_self)
      have hold : old ∉ order := (List.nodup_cons.mp hnodup).1
      have hsize : size s.objects old = removed.bytes.length := by rw [size, hremoved]
      have hsum : s.bytes = removed.bytes.length + (order.map (size s.objects)).sum := by
        rw [hcounted, List.map_cons, List.sum_cons, hsize]
      let u : State := { s with
        objects := Function.update s.objects old none
        bytes := s.bytes - removed.bytes.length }
      have hukeys : ∀ key ∈ order, (u.objects key).isSome = true := by
        intro key hkey
        have hne : key ≠ old := fun heq => hold (heq ▸ hkey)
        change (Function.update s.objects old none key).isSome = true
        rw [Function.update_of_ne hne]
        exact hkeys key (List.mem_cons_of_mem _ hkey)
      have hucounted : u.bytes = (order.map (size u.objects)).sum := by
        change s.bytes - removed.bytes.length =
          (order.map (size (Function.update s.objects old none))).sum
        rw [map_size_update hold]
        omega
      obtain ⟨t, ht, hevicted⟩ := ih (List.nodup_cons.mp hnodup).2 hukeys hucounted
      refine ⟨t, ?_, hevicted.suffix.trans (List.suffix_cons _ _), fun key => ?_,
        hevicted.counted, hevicted.fits, hevicted.pending⟩
      · rw [evict, if_pos hfull, hremoved]
        change (if removed.bytes.length ≤ s.bytes then u.evict capacity need order else none) = _
        rw [if_pos (by omega), ht]
      · rw [hevicted.objects key]
        have holdt : old ∉ t.order := fun h => hold (hevicted.suffix.subset h)
        by_cases heq : key = old
        · subst heq
          rw [if_neg (fun h => hold h.1), if_pos ⟨List.mem_cons_self, holdt⟩]
          exact Function.update_self _ _ _
        · change (if _ then none else Function.update s.objects old none key) = _
          rw [Function.update_of_ne heq]
          simp only [List.mem_cons, heq, false_or]
    · refine ⟨{ s with order := old :: order }, ?_, List.suffix_refl _, fun key => ?_, hcounted,
        not_lt.mp hfull, rfl⟩
      · rw [evict, if_neg hfull]
      · rw [if_neg (fun h => h.2 h.1)]

/-- An insertion keeps the bounds, and adds at most the new entry. -/
theorem insert_bounded (key : Key) (e : Entry) (h : s.Bounded capacity)
    (he : e.bytes.length ≤ capacity) :
    ∃ t, s.insert capacity key e = some t ∧ t.Bounded capacity ∧
      ∀ k d, t.objects k = some d → s.objects k = some d ∨ k = key ∧ d = e := by
  by_cases hknown : (s.objects key).isSome = true
  · refine ⟨s, ?_, h, fun k d hd => .inl hd⟩
    rw [insert, if_pos hknown]
  obtain ⟨t, ht, hevicted⟩ :=
    evict_evicted he h.nodup (fun k hk => (h.keys k).mp hk) h.counted
  have hnot : key ∉ t.order := fun hkey => hknown ((h.keys key).mp (hevicted.suffix.subset hkey))
  have hkept : ∀ k, k ∈ t.order ↔ (t.objects k).isSome = true := by
    intro k
    rw [hevicted.objects k]
    by_cases hk : k ∈ t.order
    · rw [if_neg (fun hgone => hgone.2 hk)]
      exact ⟨fun _ => (h.keys k).mp (hevicted.suffix.subset hk), fun _ => hk⟩
    · by_cases hks : k ∈ s.order
      · rw [if_pos ⟨hks, hk⟩]
        simp [hk]
      · rw [if_neg (fun hgone => hks hgone.1), ← h.keys k]
        exact ⟨fun h => absurd h hk, fun h => absurd h hks⟩
  refine ⟨t.append key e, ?_, ⟨?_, ?_, ?_, ?_, ?_, ?_⟩, ?_⟩
  · rw [insert, if_neg hknown, ht]
    rfl
  · exact (List.nodup_append.mpr ⟨h.nodup.sublist hevicted.suffix.sublist,
      List.nodup_cons.mpr ⟨List.not_mem_nil, List.nodup_nil⟩,
      fun a ha b hb heq => hnot (List.mem_singleton.mp hb ▸ heq ▸ ha)⟩)
  · intro k
    rw [append, List.mem_append, List.mem_singleton]
    by_cases heq : k = key
    · subst heq
      simp
    · change _ ↔ (Function.update t.objects key (some e) k).isSome = true
      rw [Function.update_of_ne heq, ← hkept k]
      exact or_iff_left heq
  · change t.bytes + e.bytes.length =
      ((t.order ++ [key]).map (size (Function.update t.objects key (some e)))).sum
    rw [List.map_append, List.sum_append, map_size_update hnot, ← hevicted.counted]
    simp [size]
  · exact hevicted.fits
  · change t.pending.Nodup
    rw [hevicted.pending]
    exact h.pendingNodup
  · change t.pending.length ≤ 7
    rw [hevicted.pending]
    exact h.pending
  · intro k d hd
    change Function.update t.objects key (some e) k = some d at hd
    by_cases heq : k = key
    · subst heq
      rw [Function.update_self] at hd
      exact .inr ⟨rfl, (Option.some.inj hd).symm⟩
    · rw [Function.update_of_ne heq, hevicted.objects k] at hd
      split at hd
      · cases hd
      · exact .inl hd

/-- The bounds while `delete_chunks` removes objects and before it has removed their keys. -/
structure Removing (capacity : ℕ) (s : State) : Prop where
  nodup : s.order.Nodup
  keys : ∀ key, (s.objects key).isSome = true → key ∈ s.order
  counted : s.bytes = (s.order.map (size s.objects)).sum
  fits : s.bytes ≤ capacity

/-- A removed object is subtracted once. -/
theorem sum_size_update (objects : Key → Option Entry) {order : List Key}
    (hnodup : order.Nodup) (hkey : key ∈ order) :
    (order.map (size objects)).sum =
      size objects key + (order.map (size (Function.update objects key none))).sum := by
  induction order with
  | nil => exact absurd hkey List.not_mem_nil
  | cons other order ih =>
    obtain ⟨hother, hnodup⟩ := List.nodup_cons.mp hnodup
    rw [List.map_cons, List.map_cons, List.sum_cons, List.sum_cons]
    by_cases heq : key = other
    · subst heq
      rw [map_size_update hother]
      simp [size]
    · have hmem := (List.mem_cons.mp hkey).resolve_left heq
      have hsame : size (Function.update objects key none) other = size objects other := by
        rw [size, size, Function.update_of_ne (Ne.symm heq)]
      rw [ih hnodup hmem, hsame]
      omega

theorem named_cons {id hash : String} {hashes : List String} (h : key ≠ (id, hash)) :
    (key.1 = id ∧ key.2 ∈ hash :: hashes) ↔ (key.1 = id ∧ key.2 ∈ hashes) := by
  refine and_congr_right fun hid => ?_
  rw [List.mem_cons]
  exact or_iff_right fun hhash => h (Prod.ext hid hhash)

/-- By induction on the hashes, each object goes with its bytes. -/
theorem removeEach_removing (id : String) (hashes : List String) (h : s.Removing capacity) :
    ∃ t, s.removeEach id hashes = some t ∧ t.Removing capacity ∧ t.pending = s.pending ∧
      ∀ key, t.objects key = if key.1 = id ∧ key.2 ∈ hashes then none else s.objects key := by
  induction hashes generalizing s with
  | nil =>
    refine ⟨s, rfl, h, rfl, fun key => ?_⟩
    rw [if_neg (fun hkey => absurd hkey.2 List.not_mem_nil)]
  | cons hash hashes ih =>
    cases hobject : s.objects (id, hash) with
    | none =>
      obtain ⟨t, ht, hremoving, hpending, hobjects⟩ := ih h
      refine ⟨t, ?_, hremoving, hpending, fun key => ?_⟩
      · rw [removeEach, hobject]
        exact ht
      · rw [hobjects key]
        by_cases heq : key = (id, hash)
        · subst heq
          simp [hobject]
        · exact if_congr (named_cons heq).symm rfl rfl
    | some removed =>
      have hkey : (id, hash) ∈ s.order := h.keys _ (by rw [hobject]; rfl)
      have hsize : size s.objects (id, hash) = removed.bytes.length := by rw [size, hobject]
      have hsum := sum_size_update s.objects h.nodup hkey
      rw [← h.counted, hsize] at hsum
      let u : State := { s with
        objects := Function.update s.objects (id, hash) none
        bytes := s.bytes - removed.bytes.length }
      have hu : u.Removing capacity := by
        refine ⟨h.nodup, fun key hsome => ?_, ?_, ?_⟩
        · by_cases heq : key = (id, hash)
          · rw [heq]
            exact hkey
          · change (Function.update s.objects (id, hash) none key).isSome = true at hsome
            rw [Function.update_of_ne heq] at hsome
            exact h.keys key hsome
        · change s.bytes - removed.bytes.length = _
          rw [hsum, Nat.add_sub_cancel_left]
        · exact (Nat.sub_le _ _).trans h.fits
      obtain ⟨t, ht, hremoving, hpending, hobjects⟩ := ih hu
      refine ⟨t, ?_, hremoving, hpending, fun key => ?_⟩
      · rw [removeEach, hobject]
        change (if removed.bytes.length ≤ s.bytes then u.removeEach id hashes else none) = _
        rw [if_pos (by omega), ht]
      · rw [hobjects key]
        change (if _ then none else Function.update s.objects (id, hash) none key) = _
        by_cases heq : key = (id, hash)
        · subst heq
          simp
        · rw [Function.update_of_ne heq]
          exact if_congr (named_cons heq).symm rfl rfl

/-- A deletion keeps the bounds and removes just the objects that it was given. -/
theorem remove_bounded (id : String) (hashes : List String) (h : s.Bounded capacity) :
    ∃ t, s.remove id hashes = some t ∧ t.Bounded capacity ∧
      ∀ key, t.objects key = if key.1 = id ∧ key.2 ∈ hashes then none else s.objects key := by
  obtain ⟨u, hu, hremoving, hpending, hobjects⟩ := removeEach_removing id hashes
    ⟨h.nodup, fun key => (h.keys key).mpr, h.counted, h.fits⟩
  refine ⟨{ u with order := u.order.filter (fun key => (u.objects key).isSome) }, ?_,
    ⟨hremoving.nodup.filter _, fun key => ?_, ?_, hremoving.fits, ?_, ?_⟩, hobjects⟩
  · rw [remove, hu]
    rfl
  · rw [List.mem_filter]
    exact ⟨fun hmem => hmem.2, fun hsome => ⟨hremoving.keys key hsome, hsome⟩⟩
  · change u.bytes = ((u.order.filter _).map (size u.objects)).sum
    rw [hremoving.counted]
    induction u.order with
    | nil => rfl
    | cons key order ih =>
      rw [List.map_cons, List.sum_cons, ih, List.filter_cons]
      cases hobject : u.objects key with
      | none => simp [size, hobject]
      | some e => simp
  · change u.pending.Nodup
    rw [hpending]
    exact h.pendingNodup
  · change u.pending.length ≤ 7
    rw [hpending]
    exact h.pending

/-- At most seven keys are reserved. -/
theorem reserve_bounded (h : s.Bounded capacity) : (s.reserve key).2.Bounded capacity := by
  by_cases hfull : s.pending.length ≥ 7
  · rw [reserve, if_pos hfull]
    exact h
  by_cases hknown : (s.objects key).isSome = true ∨ key ∈ s.pending
  · rw [reserve, if_neg hfull, if_pos hknown]
    exact h
  · rw [reserve, if_neg hfull, if_neg hknown]
    refine ⟨h.nodup, h.keys, h.counted, h.fits, ?_, ?_⟩
    · exact List.nodup_cons.mpr ⟨fun hmem => hknown (.inr hmem), h.pendingNodup⟩
    · change s.pending.length + 1 ≤ 7
      omega

theorem reserve_objects : (s.reserve key).2.objects = s.objects := by
  rw [reserve]
  split
  · rfl
  · split <;> rfl

/-- A key is given back. -/
theorem release_bounded (h : s.Bounded capacity) : (s.release key).Bounded capacity :=
  ⟨h.nodup, h.keys, h.counted, h.fits, h.pendingNodup.filter _,
    (List.length_filter_le _ _).trans h.pending⟩

/-! ## A cache of one object -/

variable {old : Key} {d : Entry}

/-- The first object. -/
theorem insert_empty (he : e.bytes.length ≤ capacity) :
    empty.insert capacity key e = some (empty.append key e) := by
  have hfits : ¬ empty.bytes + e.bytes.length > capacity := by
    change ¬ 0 + e.bytes.length > capacity
    omega
  have hmiss : ¬ (empty.objects key).isSome = true := Bool.false_ne_true
  rw [insert, if_neg hmiss]
  change (evict capacity e.bytes.length empty []).bind _ = _
  rw [evict, if_neg hfits]
  rfl

/-- The only object is dropped if both do not fit. -/
theorem insert_evicts (hkey : key ≠ old) (he : e.bytes.length ≤ capacity)
    (hfull : d.bytes.length + e.bytes.length > capacity) :
    (empty.append old d).insert capacity key e = some (empty.append key e) := by
  have hmiss : ¬ ((empty.append old d).objects key).isSome = true := by
    change ¬ (Function.update empty.objects old (some d) key).isSome = true
    rw [Function.update_of_ne hkey]
    exact Bool.false_ne_true
  have hhit : (empty.append old d).objects old = some d := Function.update_self _ _ _
  have hbytes : (empty.append old d).bytes = d.bytes.length := Nat.zero_add _
  have hempty : ({ empty.append old d with
      objects := Function.update (empty.append old d).objects old none
      bytes := d.bytes.length - d.bytes.length } : State).evict capacity e.bytes.length [] =
        some empty := by
    rw [evict, if_neg (by dsimp only; omega)]
    refine congrArg some ?_
    change State.mk (Function.update (Function.update _ _ _) _ _) _ _ _ = _
    rw [Function.update_idem, Nat.sub_self]
    exact congrArg (State.mk · 0 [] []) (Function.update_eq_self old _)
  rw [insert, if_neg hmiss]
  change (evict capacity e.bytes.length (empty.append old d) [old]).bind _ = _
  rw [evict, hbytes, if_pos hfull, hhit]
  dsimp only
  rw [if_pos le_rfl, hempty]
  rfl

/-- A deletion of the only object. -/
theorem remove_only {id hash other : String} (hother : other ≠ hash) :
    (empty.append (id, hash) e).remove id [other, hash] = some empty := by
  have hne : ((id, other) : Key) ≠ (id, hash) := fun h => hother (congrArg Prod.snd h)
  have hmiss : (empty.append (id, hash) e).objects (id, other) = none :=
    Function.update_of_ne hne _ _
  have hhit : (empty.append (id, hash) e).objects (id, hash) = some e :=
    Function.update_self _ _ _
  have hbytes : (empty.append (id, hash) e).bytes = e.bytes.length := Nat.zero_add _
  have hobjects : Function.update (empty.append (id, hash) e).objects (id, hash) none =
      empty.objects := by
    change Function.update (Function.update _ _ _) _ _ = _
    rw [Function.update_idem]
    exact Function.update_eq_self (id, hash) _
  rw [remove, removeEach, hmiss]
  dsimp only
  rw [removeEach, hhit, hbytes, hobjects]
  dsimp only
  rw [if_pos le_rfl, Nat.sub_self]
  rfl

end State

end AgentHouse.Cache
