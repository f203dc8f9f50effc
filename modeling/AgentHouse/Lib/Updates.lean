import Mathlib.Data.List.Induction
import Mathlib.Data.List.Sort

/-!
# Logs of keyed updates

An entry of a log sets one key and carries a sequence number. `applied` is what a store
holds after a log; `latest a` is what a write-back buffer holds whose entries up to `a` are
already below it, and `squeeze a` is the log that such a buffer can be rebuilt from. The
lemmas say when log, buffer and lower store together show the same contents.
-/

namespace AgentHouse

/-- The value that a key gets at a place in the sequence. -/
structure Update (K V : Type*) where
  sequence : ℕ
  key : K
  value : V

variable {K V : Type*} {L M : List (Update K V)} {e : Update K V} {k : K} {a b : ℕ}

/-- The updates up to a sequence number. -/
def upTo (a : ℕ) (L : List (Update K V)) : List (Update K V) :=
  L.filter (fun e => decide (e.sequence ≤ a))

/-- Sequence numbers do not decrease. -/
def Ascending (L : List (Update K V)) : Prop :=
  L.Pairwise (fun e t => e.sequence ≤ t.sequence)

section Marks

/-- Newer updates do not count. -/
theorem upTo_append_of_newer (h : ∀ e ∈ M, a < e.sequence) : upTo a (L ++ M) = upTo a L := by
  have hM : M.filter (fun e => decide (e.sequence ≤ a)) = [] := by
    rw [List.filter_eq_nil_iff]
    intro e he
    simpa using h e he
  rw [upTo, List.filter_append, hM, List.append_nil, upTo]

theorem upTo_of_le (h : ∀ e ∈ L, e.sequence ≤ a) : upTo a L = L := by
  rw [upTo, List.filter_eq_self]
  intro e he
  simpa using h e he

end Marks

variable [DecidableEq K]

/-- The contents after a log of updates. -/
def applied (origin : K → V) (L : List (Update K V)) : K → V :=
  L.foldl (fun g e => Function.update g e.key e.value) origin

/-- The last update of a key. -/
def lastOf (L : List (Update K V)) (k : K) : Option (Update K V) :=
  L.foldl (fun acc e => if e.key = k then some e else acc) none

/-- The last update of a key, if it is newer than `a`. -/
def latest (a : ℕ) (L : List (Update K V)) (k : K) : Option (Update K V) :=
  (lastOf L k).filter (fun e => decide (a < e.sequence))

/-- The last update of each key, as far as it is newer than `a`. -/
def squeeze (a : ℕ) : List (Update K V) → List (Update K V)
  | [] => []
  | e :: L =>
    if a < e.sequence ∧ ∀ t ∈ L, t.key ≠ e.key then e :: squeeze a L else squeeze a L

section Last

@[simp] theorem lastOf_nil : lastOf ([] : List (Update K V)) k = none := rfl

theorem lastOf_append_singleton :
    lastOf (L ++ [e]) k = if e.key = k then some e else lastOf L k := by
  simp [lastOf]

/-- The last update of a key is one of the later updates, if there is one. -/
theorem lastOf_append : lastOf (L ++ M) k = (lastOf M k).or (lastOf L k) := by
  induction M using List.reverseRecOn with
  | nil => simp
  | append_singleton M e ih =>
    rw [← List.append_assoc, lastOf_append_singleton, lastOf_append_singleton, ih]
    split <;> simp

theorem lastOf_cons :
    lastOf (e :: L) k = (lastOf L k).or (if e.key = k then some e else none) := by
  rw [← List.singleton_append, lastOf_append]
  simp [lastOf]

/-- It is an update of that key. -/
theorem lastOf_some (h : lastOf L k = some e) : e ∈ L ∧ e.key = k := by
  induction L using List.reverseRecOn with
  | nil => simp at h
  | append_singleton L t ih =>
    rw [lastOf_append_singleton] at h
    split at h
    · rename_i hk
      obtain rfl := Option.some.inj h
      exact ⟨by simp, hk⟩
    · obtain ⟨hm, hk⟩ := ih h
      exact ⟨List.mem_append_left _ hm, hk⟩

/-- A key without a last update has none. -/
theorem lastOf_eq_none : lastOf L k = none ↔ ∀ t ∈ L, t.key ≠ k := by
  induction L using List.reverseRecOn with
  | nil => simp
  | append_singleton L t ih =>
    rw [lastOf_append_singleton]
    by_cases hk : t.key = k
    · simp only [hk, if_true, List.mem_append, List.mem_singleton]
      constructor
      · intro h
        cases h
      · intro h
        exact absurd hk (h t (Or.inr rfl))
    · simp only [hk, if_false, ih, List.mem_append, List.mem_singleton]
      constructor
      · rintro h t' (ht' | rfl)
        · exact h t' ht'
        · exact hk
      · exact fun h t' ht' => h t' (Or.inl ht')

/-- Filtering keeps the last update of a key if that passes. -/
theorem lastOf_filter {p : Update K V → Bool} (h : lastOf L k = some e) (hp : p e = true) :
    lastOf (L.filter p) k = some e := by
  induction L using List.reverseRecOn with
  | nil => simp at h
  | append_singleton L t ih =>
    rw [lastOf_append_singleton] at h
    rw [List.filter_append]
    split at h
    · rename_i hk
      obtain rfl := Option.some.inj h
      simp [hp, lastOf, hk]
    · rename_i hk
      cases ht : p t with
      | false => simpa [ht] using ih h
      | true => simp [ht, lastOf_append_singleton, hk, ih h]

/-- The latest update above a mark. -/
theorem latest_some : latest a L k = some e ↔ lastOf L k = some e ∧ a < e.sequence := by
  simp [latest, Option.filter_eq_some_iff]

theorem latest_of_none (h : lastOf L k = none) : latest a L k = none := by
  rw [latest, h]
  rfl

theorem latest_of_lt (h : lastOf L k = some e) (ha : a < e.sequence) : latest a L k = some e :=
  latest_some.mpr ⟨h, ha⟩

theorem latest_of_le (h : lastOf L k = some e) (ha : e.sequence ≤ a) : latest a L k = none := by
  rw [latest, h, Option.filter_some, if_neg]
  simpa using ha

end Last

section Applied

/-- Updates apply one after another. -/
theorem applied_append (origin : K → V) :
    applied origin (L ++ M) = applied (applied origin L) M := by
  simp [applied, List.foldl_append]

/-- What is applied to a key is its last update. -/
theorem applied_eq (origin : K → V) :
    applied origin L k = ((lastOf L k).map Update.value).getD (origin k) := by
  induction L using List.reverseRecOn with
  | nil => rfl
  | append_singleton L e ih =>
    rw [applied_append, lastOf_append_singleton]
    by_cases hk : e.key = k
    · subst hk
      simp [applied]
    · simp only [applied, List.foldl_cons, List.foldl_nil, hk, if_false]
      rw [Function.update_of_ne (Ne.symm hk)]
      exact ih

/-- The contents are the newer updates over the contents up to `a`. -/
theorem applied_split (origin : K → V) :
    applied origin L k =
      ((latest a L k).map Update.value).getD (applied origin (upTo a L) k) := by
  rw [applied_eq]
  cases hl : lastOf L k with
  | none =>
    have hu : lastOf (upTo a L) k = none :=
      lastOf_eq_none.mpr (fun t ht => lastOf_eq_none.mp hl t (List.mem_of_mem_filter ht))
    simp [latest_of_none hl, applied_eq, hu]
  | some e =>
    by_cases ha : a < e.sequence
    · simp [latest_of_lt hl ha]
    · have hu : lastOf (upTo a L) k = some e := lastOf_filter hl (by simpa using ha)
      simp [latest_of_le hl (Nat.not_lt.mp ha), applied_eq, hu]

end Applied

section Buffer

/-- The last update of a key is the newest one. -/
theorem Ascending.le_lastOf {t : Update K V} (h : Ascending L) (hl : lastOf L k = some e)
    (ht : t ∈ L) (hk : t.key = k) : t.sequence ≤ e.sequence := by
  induction L using List.reverseRecOn with
  | nil => simp at hl
  | append_singleton L x ih =>
    obtain ⟨hL, -, hx⟩ := List.pairwise_append.mp h
    rw [lastOf_append_singleton] at hl
    rcases List.mem_append.mp ht with ht | ht
    · split at hl
      · rw [← Option.some.inj hl]
        exact hx t ht x (by simp)
      · exact ih hL hl ht
    · obtain rfl := List.mem_singleton.mp ht
      rw [if_pos hk] at hl
      rw [Option.some.inj hl]

/-- Collecting only the newer updates gives the buffer. -/
theorem lastOf_newer (h : Ascending L) :
    lastOf (L.filter (fun e => decide (a < e.sequence))) k = latest a L k := by
  cases hl : lastOf L k with
  | none =>
    rw [latest_of_none hl, lastOf_eq_none]
    exact fun t ht => lastOf_eq_none.mp hl t (List.mem_of_mem_filter ht)
  | some e =>
    by_cases ha : a < e.sequence
    · rw [lastOf_filter hl (by simpa using ha), latest_of_lt hl ha]
    · rw [latest_of_le hl (by omega), lastOf_eq_none]
      intro t ht hk
      obtain ⟨htm, hta⟩ := List.mem_filter.mp ht
      have hta' : a < t.sequence := by simpa using hta
      have := h.le_lastOf hl htm hk
      omega

/-- Raising the mark drops exactly the updates that it covers. -/
theorem latest_filter (hab : a ≤ b) :
    (latest a L k).filter (fun e => decide (b < e.sequence)) = latest b L k := by
  cases hl : lastOf L k with
  | none => simp [latest_of_none hl]
  | some e =>
    by_cases ha : a < e.sequence
    · simp only [latest, hl, Option.filter_some, ha, decide_true, if_true]
    · rw [latest_of_le hl (by omega), latest_of_le hl (by omega)]
      rfl

end Buffer

section Squeeze

theorem squeeze_sublist : (squeeze a L).Sublist L := by
  induction L with
  | nil => exact List.Sublist.refl _
  | cons e L ih =>
    rw [squeeze]
    split
    · exact ih.cons_cons e
    · exact ih.cons e

/-- The squeezed log has the last newer update of each key. -/
theorem lastOf_squeeze : lastOf (squeeze a L) k = latest a L k := by
  induction L with
  | nil => rfl
  | cons e L ih =>
    have hcons := lastOf_cons (e := e) (L := L) (k := k)
    cases hl : lastOf L k with
    | some t =>
      -- A later update of the key decides on both sides.
      obtain ⟨htm, htk⟩ := lastOf_some hl
      have hlast : latest a (e :: L) k = latest a L k := by
        rw [latest, hcons, hl, Option.some_or, latest, hl]
      rw [hlast, squeeze]
      split
      · rename_i hc
        have hek : e.key ≠ k := fun hek => hc.2 t htm (htk.trans hek.symm)
        rw [lastOf_cons, ih, if_neg hek, Option.or_none]
      · exact ih
    | none =>
      have hnone : lastOf (squeeze a L) k = none := by rw [ih, latest_of_none hl]
      rw [hl, Option.none_or] at hcons
      by_cases hek : e.key = k
      · rw [if_pos hek] at hcons
        have hno : ∀ t ∈ L, t.key ≠ e.key := hek ▸ lastOf_eq_none.mp hl
        by_cases ha : a < e.sequence
        · rw [latest_of_lt hcons ha, squeeze, if_pos ⟨ha, hno⟩, lastOf_cons, hnone, if_pos hek]
          rfl
        · rw [latest_of_le hcons (by omega), squeeze, if_neg (fun hc => ha hc.1), hnone]
      · rw [if_neg hek] at hcons
        rw [latest_of_none hcons, squeeze]
        split
        · rw [lastOf_cons, hnone, if_neg hek]
          rfl
        · exact hnone

/-- A squeezed list keeps the latest update of each key. -/
theorem mem_squeeze : e ∈ squeeze a L ↔ latest a L e.key = some e := by
  constructor
  · intro he
    induction L with
    | nil => simp [squeeze] at he
    | cons t L ih =>
      have hcons : latest a L e.key = some e → latest a (t :: L) e.key = some e := by
        intro h
        obtain ⟨hl, ha⟩ := latest_some.mp h
        exact latest_some.mpr ⟨by rw [lastOf_cons, hl]; rfl, ha⟩
      rw [squeeze] at he
      split at he
      · rename_i hc
        rcases List.mem_cons.mp he with rfl | he
        · refine latest_some.mpr ⟨?_, hc.1⟩
          rw [lastOf_cons, lastOf_eq_none.mpr hc.2]
          simp
        · exact hcons (ih he)
      · exact hcons (ih he)
  · intro h
    rw [← lastOf_squeeze] at h
    exact (lastOf_some h).1

/-- A log whose beginning was squeezed fills the same buffer. -/
theorem latest_squeeze_append (hab : a ≤ b) :
    latest b (squeeze a L ++ M) k = latest b (L ++ M) k := by
  unfold latest
  rw [lastOf_append, lastOf_append, lastOf_squeeze]
  cases lastOf M k with
  | some e => rfl
  | none =>
    rw [Option.none_or, Option.none_or]
    exact latest_filter hab

end Squeeze

/-- Two lists in the same strict order with the same members are equal. -/
theorem eq_of_pairwise_of_mem_iff {α : Type*} {R : α → α → Prop}
    (hasymm : ∀ x y, R x y → ¬ R y x) {l l' : List α} (h : l.Pairwise R) (h' : l'.Pairwise R)
    (hmem : ∀ x, x ∈ l ↔ x ∈ l') : l = l' := by
  have hne : ∀ x y, R x y → x ≠ y := fun x y hxy heq => hasymm x y hxy (heq ▸ hxy)
  have hperm : l.Perm l' := (List.perm_ext_iff_of_nodup (h.imp (fun hxy => hne _ _ hxy))
    (h'.imp (fun hxy => hne _ _ hxy))).mpr hmem
  exact hperm.eq_of_pairwise (fun x y _ _ hxy hyx => absurd hyx (hasymm x y hxy)) h h'

end AgentHouse
