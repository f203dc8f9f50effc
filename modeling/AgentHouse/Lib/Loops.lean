import Mathlib.Tactic.Linarith

/-!
# Loops over lists and ordered maps

The invariant rules that loop proofs use: what holds before a loop, and is kept by each
round, holds after it. Rounds know which elements came before. Loops over an ordered map
visit each key once.
-/

namespace AgentHouse

variable {α β ε : Type*}

/-- Invariant rule for a loop that may fail: `motive done x` relates the state to the
elements that were processed. -/
theorem foldlM_induction {f : β → α → Except ε β} {l : List α} {z final : β}
    (hok : l.foldlM f z = .ok final) (motive : List α → β → Prop) (start : motive [] z)
    (step : ∀ done a rest x y, l = done ++ a :: rest → motive done x → f x a = .ok y →
      motive (done ++ [a]) y) : motive l final := by
  suffices h : ∀ (rest done : List α) (x : β), l = done ++ rest → motive done x →
      rest.foldlM f x = .ok final → motive l final by
    exact h l [] z rfl start hok
  intro rest
  induction rest with
  | nil =>
    intro done x hl hm hx
    have : x = final := Except.ok.inj hx
    rw [hl, List.append_nil, ← this]
    exact hm
  | cons a rest ih =>
    intro done x hl hm hx
    rw [List.foldlM_cons] at hx
    cases hy : f x a with
    | error e => simp [hy, bind, Except.bind] at hx
    | ok y =>
      simp only [hy, bind, Except.bind] at hx
      exact ih (done ++ [a]) y (by simp [hl]) (step done a rest x y hl hm hy) hx

/-- Invariant rule for a loop that always completes. -/
theorem foldl_induction {f : β → α → β} {l : List α} {z : β}
    (motive : List α → β → Prop) (start : motive [] z)
    (step : ∀ done a rest x, l = done ++ a :: rest → motive done x →
      motive (done ++ [a]) (f x a)) : motive l (l.foldl f z) := by
  suffices h : ∀ (rest done : List α) (x : β), l = done ++ rest → motive done x →
      motive l (rest.foldl f x) by
    exact h l [] z rfl start
  intro rest
  induction rest with
  | nil =>
    intro done x hl hm
    rw [hl, List.append_nil]
    exact hm
  | cons a rest ih =>
    intro done x hl hm
    exact ih (done ++ [a]) (f x a) (by simp [hl]) (step done a rest x hl hm)

/-- A loop that fails has failed in some round. -/
theorem foldlM_error {f : β → α → Except ε β} {l : List α} {z : β} {e : ε}
    (h : l.foldlM f z = .error e) : ∃ x, ∃ a ∈ l, f x a = .error e := by
  induction l generalizing z with
  | nil => cases h
  | cons a l ih =>
    rw [List.foldlM_cons] at h
    cases hstep : f z a with
    | error e1 =>
      rw [hstep] at h
      obtain rfl := Except.error.inj h
      exact ⟨z, a, List.mem_cons_self, hstep⟩
    | ok y =>
      rw [hstep] at h
      obtain ⟨x, b, hb, hf⟩ := ih h
      exact ⟨x, b, List.mem_cons_of_mem _ hb, hf⟩

/-- A loop that can fail succeeds when every round does, from every state it can reach. -/
theorem foldlM_succeeds {f : β → α → Except ε β} {l : List α} {z : β}
    (motive : List α → β → Prop) (start : motive [] z)
    (step : ∀ done a rest x, l = done ++ a :: rest → motive done x →
      ∃ y, f x a = .ok y ∧ motive (done ++ [a]) y) :
    ∃ final, l.foldlM f z = .ok final ∧ motive l final := by
  suffices h : ∀ (rest done : List α) (x : β), l = done ++ rest → motive done x →
      ∃ final, rest.foldlM f x = .ok final ∧ motive l final by
    exact h l [] z rfl start
  intro rest
  induction rest with
  | nil =>
    intro done x hl hm
    rw [List.append_nil] at hl
    exact ⟨x, rfl, hl ▸ hm⟩
  | cons a rest ih =>
    intro done x hl hm
    obtain ⟨y, hy, hm'⟩ := step done a rest x hl hm
    obtain ⟨final, hf, hfin⟩ := ih (done ++ [a]) y (by simp [hl]) hm'
    refine ⟨final, ?_, hfin⟩
    rw [List.foldlM_cons, hy]
    exact hf

section Maps

variable {K V W : Type} [Ord K] [Std.TransOrd K] [Std.LawfulEqOrd K]

/-- The entry at hand in a loop over a map has a key of its own. -/
theorem key_ne_of_toList {m : Std.ExtTreeMap K V compare} {done rest : List (K × V)}
    {k : K} {x : V} (h : m.toList = done ++ (k, x) :: rest) :
    ∀ e ∈ done, e.1 ≠ k := by
  have hd := Std.ExtTreeMap.distinct_keys_toList (t := m)
  rw [h, List.pairwise_append] at hd
  intro e he heq
  have := hd.2.2 e he (k, x) (by simp)
  simp [heq] at this

/-- A loop over a map that may fail visits each key once: keys are fresh until their round,
which settles them, and settled keys stay settled. -/
theorem foldlM_toList_rule {A : Type*} {m : Std.ExtTreeMap K V compare}
    {f : A → K × V → Except ε A} {z final : A} (hok : m.toList.foldlM f z = .ok final)
    (inv : A → Prop) (fresh : A → K → Prop) (settled : A → K → V → Prop)
    (hinit : inv z) (hfresh : ∀ k, fresh z k)
    (hstep : ∀ a a' k x, inv a → m[k]? = some x → fresh a k → f a (k, x) = .ok a' →
      inv a' ∧ settled a' k x ∧ (∀ k', k' ≠ k → fresh a k' → fresh a' k') ∧
        ∀ k' x', k' ≠ k → settled a k' x' → settled a' k' x') :
    inv final ∧ (∀ k x, m[k]? = some x → settled final k x) ∧
      ∀ k, m[k]? = none → fresh final k := by
  have key : inv final ∧ (∀ k x, (k, x) ∈ m.toList → settled final k x) ∧
      ∀ k, (∀ x, (k, x) ∉ m.toList) → fresh final k := by
    refine foldlM_induction hok
      (fun done a => inv a ∧ (∀ k x, (k, x) ∈ done → settled a k x) ∧
        ∀ k, (∀ x, (k, x) ∉ done) → fresh a k) ⟨hinit, by simp, fun k _ => hfresh k⟩ ?_
    rintro done ⟨k, x⟩ rest a a' hl ⟨hinv, hset, hfr⟩ hround
    have hm : m[k]? = some x := by
      rw [← Std.ExtTreeMap.mem_toList_iff_getElem?_eq_some, hl]
      simp
    have hnew : ∀ y, (k, y) ∉ done := fun y hy => key_ne_of_toList hl _ hy rfl
    obtain ⟨hinv', hself, hkeep, hkeep'⟩ := hstep a a' k x hinv hm (hfr k hnew) hround
    refine ⟨hinv', fun k' x' hx => ?_, fun k' hk' => ?_⟩
    · rcases List.mem_append.mp hx with hx | hx
      · have hne : k' ≠ k := key_ne_of_toList hl _ hx
        exact hkeep' k' x' hne (hset k' x' hx)
      · obtain ⟨rfl, rfl⟩ : k' = k ∧ x' = x := by simpa using hx
        exact hself
    · have hne : k' ≠ k := fun h => hk' x (List.mem_append_right _ (by simp [h]))
      exact hkeep k' hne (hfr k' (fun y hy => hk' y (List.mem_append_left _ hy)))
  refine ⟨key.1, fun k x hm => ?_, fun k hm => ?_⟩
  · apply key.2.1
    rw [Std.ExtTreeMap.mem_toList_iff_getElem?_eq_some]
    exact hm
  · apply key.2.2
    intro x hx
    rw [Std.ExtTreeMap.mem_toList_iff_getElem?_eq_some, hm] at hx
    cases hx

/-- The rule for a loop over a map that always completes. -/
theorem foldl_toList_rule {A : Type*} {m : Std.ExtTreeMap K V compare} {f : A → K × V → A}
    {z : A} (inv : A → Prop) (fresh : A → K → Prop) (settled : A → K → V → Prop)
    (hinit : inv z) (hfresh : ∀ k, fresh z k)
    (hstep : ∀ a k x, inv a → m[k]? = some x → fresh a k →
      inv (f a (k, x)) ∧ settled (f a (k, x)) k x ∧
        (∀ k', k' ≠ k → fresh a k' → fresh (f a (k, x)) k') ∧
        ∀ k' x', k' ≠ k → settled a k' x' → settled (f a (k, x)) k' x') :
    inv (m.toList.foldl f z) ∧
      (∀ k x, m[k]? = some x → settled (m.toList.foldl f z) k x) ∧
      ∀ k, m[k]? = none → fresh (m.toList.foldl f z) k := by
  have hpure : ∀ (l : List (K × V)) (a : A),
      l.foldlM (fun a e => (.ok (f a e) : Except Unit A)) a = .ok (l.foldl f a) := by
    intro l
    induction l with
    | nil => intro a; rfl
    | cons e l ih => intro a; exact ih (f a e)
  refine foldlM_toList_rule (hpure m.toList z) inv fresh settled hinit hfresh ?_
  intro a a' k x hinv hm hg hok
  obtain rfl := Except.ok.inj hok
  exact hstep a k x hinv hm hg

end Maps

end AgentHouse
