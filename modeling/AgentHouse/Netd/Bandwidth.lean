import AgentHouse.Lib.Allowances
import Mathlib.Data.Nat.Init
import Mathlib.Tactic.Linarith

/-!
# The token bucket of a guest link

Tokens are kept in units of one billionth of a byte, so that a nanosecond at `rate` bytes per
second is worth `rate` of them and no credit is rounded. The bucket is an allowance, and
the saturating operations of the code never saturate.
-/

namespace AgentHouse.Netd

/-- `u128::MAX` -/
def u128Max : ℕ := 2 ^ 128 - 1

/-- `u128::saturating_add` -/
def saturatingAdd (a b : ℕ) : ℕ := min (a + b) u128Max

/-- `u128::saturating_mul` -/
def saturatingMul (a b : ℕ) : ℕ := min (a * b) u128Max

/-- The unit of credits: a byte is so many. -/
def scale : ℕ := 1000000000

/-- `usize::MAX` -/
def usizeMax : UInt64 := 18446744073709551615

/-- Instants are nanoseconds. -/
structure Bucket where
  rate : Option UInt64
  tokens : ℕ
  capacity : ℕ
  last : ℕ
deriving DecidableEq

namespace Bucket

/-- 100 ms of burst, with one Ethernet frame at least. -/
def new (rate : Option UInt64) (now : ℕ) : Bucket :=
  let capacity := max (rate.getD 0 / 10).toNat 1518 * scale
  { rate, tokens := capacity, capacity, last := now }

/-- Truncated subtraction is `saturating_duration_since`. -/
def available (b : Bucket) (now : ℕ) : UInt64 × Bucket :=
  match b.rate with
  | none => (usizeMax, b)
  | some rate =>
      let tokens :=
        min (saturatingAdd b.tokens (saturatingMul (now - b.last) rate.toNat)) b.capacity
      (.ofNat (tokens / scale), { b with tokens, last := now })

/-- `ready`: there is credit for 1 KiB. -/
def ready (b : Bucket) (now : ℕ) : Bool × Bucket :=
  let (count, b) := b.available now
  (decide (1024 ≤ count), b)

/-- Truncated subtraction is `saturating_sub`. -/
def consume (b : Bucket) (bytes : UInt64) : Bucket :=
  if b.rate.isSome then { b with tokens := b.tokens - bytes.toNat * scale } else b

end Bucket

/-- A call of a bucket. -/
inductive Call where
  | available (now : ℕ)
  | ready (now : ℕ)
  | consume (bytes : UInt64)

/-- The clock reading of a call. -/
def Call.reading : Call → Option ℕ
  | .available now => some now
  | .ready now => some now
  | .consume _ => none

/-- The last reading of the clock, which was `now` before. -/
def lastReading : ℕ → List Call → ℕ
  | now, [] => now
  | now, c :: calls => lastReading (c.reading.getD now) calls

/-- The bytes consumed. -/
def consumed : List Call → ℕ
  | [] => 0
  | .consume bytes :: calls => bytes.toNat + consumed calls
  | _ :: calls => consumed calls

namespace Bucket

/-- The bucket after a call. -/
def after1 (b : Bucket) : Call → Bucket
  | .available now => (b.available now).2
  | .ready now => (b.ready now).2
  | .consume bytes => b.consume bytes

/-- The bucket after the calls. -/
def after (b : Bucket) (calls : List Call) : Bucket := calls.foldl after1 b

/-- The clock never goes back, and a call of `consume` directly follows one of `available` and is
at most its result. Before the calls the clock read `now`, and `offer` is the result of
the call before if that was one of `available`. -/
def Disciplined (b : Bucket) (now : ℕ) (offer : Option UInt64) : List Call → Prop
  | [] => True
  | .available t :: calls =>
      now ≤ t ∧ Disciplined (b.available t).2 t (some (b.available t).1) calls
  | .ready t :: calls => now ≤ t ∧ Disciplined (b.ready t).2 t none calls
  | .consume bytes :: calls =>
      (∃ count, offer = some count ∧ bytes ≤ count) ∧ Disciplined (b.consume bytes) now none calls

/-- What holds of every bucket: the capacity is fixed by the rate, and the tokens fit in. -/
structure Sound (b : Bucket) : Prop where
  capacity : b.capacity = max (b.rate.getD 0 / 10).toNat 1518 * scale
  tokens : b.tokens ≤ b.capacity

/-- A new bucket is sound. -/
theorem sound_new (rate : Option UInt64) (now : ℕ) : Sound (new rate now) :=
  ⟨rfl, le_rfl⟩

variable {b : Bucket} {rate count : UInt64} {now : ℕ} {offer : Option UInt64} {calls : List Call}

theorem Sound.whole_lt (h : Sound b) : b.capacity / scale < 2 ^ 64 := by
  have hburst : (b.rate.getD 0 / 10).toNat < 2 ^ 64 := UInt64.toNat_lt _
  rw [h.capacity, Nat.mul_div_cancel _ (by decide)]
  omega

/-- The capacity fits. -/
theorem Sound.capacity_lt (h : Sound b) : b.capacity < u128Max := by
  have hwhole := h.whole_lt
  have hscale : scale * (b.capacity / scale) + b.capacity % scale = b.capacity :=
    Nat.div_add_mod _ _
  have hrest : b.capacity % scale < scale := Nat.mod_lt _ (by decide)
  unfold scale u128Max at *
  omega

/-- No saturation below the capacity. -/
theorem min_saturating {c : ℕ} (hc : c ≤ u128Max) (tokens time rate : ℕ) :
    min (saturatingAdd tokens (saturatingMul time rate)) c = min (tokens + time * rate) c := by
  unfold saturatingAdd saturatingMul
  omega

/-- What is available under a rate, without overflow. -/
theorem available_some (h : Sound b) (hrate : b.rate = some rate) (now : ℕ) :
    b.available now = (.ofNat (min (b.tokens + (now - b.last) * rate.toNat) b.capacity / scale),
      { b with
        tokens := min (b.tokens + (now - b.last) * rate.toNat) b.capacity, last := now }) := by
  have hmin := min_saturating h.capacity_lt.le b.tokens (now - b.last) rate.toNat
  simp only [available, hrate, hmin]

/-- Without a rate, everything. -/
theorem available_none (hrate : b.rate = none) (now : ℕ) : b.available now = (usizeMax, b) := by
  simp only [available, hrate]

@[simp] theorem ready_snd (b : Bucket) (now : ℕ) : (b.ready now).2 = (b.available now).2 := by
  rw [ready]

/-- What is consumed goes. -/
theorem consume_some (hrate : b.rate = some rate) (bytes : UInt64) :
    b.consume bytes = { b with tokens := b.tokens - bytes.toNat * scale } := by
  simp only [consume, hrate, Option.isSome_some, if_true]

theorem consume_none (hrate : b.rate = none) (bytes : UInt64) : b.consume bytes = b := by
  simp only [consume, hrate, Option.isSome_none, Bool.false_eq_true, if_false]

theorem after1_none (hrate : b.rate = none) (c : Call) : b.after1 c = b := by
  cases c with
  | available t => rw [after1, available_none hrate]
  | ready t => rw [after1, ready_snd, available_none hrate]
  | consume bytes => exact consume_none hrate bytes

/-- What a call is to the account. -/
def entry (rate : UInt64) (last : ℕ) : Call → Entry ℕ
  | .available now => .grant ((now - last) * rate.toNat)
  | .ready now => .grant ((now - last) * rate.toNat)
  | .consume bytes => .spend (bytes.toNat * scale)

/-- The calls as entries of an allowance. -/
def ledger (rate : UInt64) : ℕ → List Call → List (Entry ℕ)
  | _, [] => []
  | last, c :: calls => entry rate last c :: ledger rate (c.reading.getD last) calls

/-- A call is what its entry says. -/
theorem after1_some (h : Sound b) (hrate : b.rate = some rate) (c : Call) :
    b.after1 c = { b with
      tokens := Allowance.post b.capacity b.tokens (entry rate b.last c)
      last := c.reading.getD b.last } := by
  cases c with
  | available t =>
    rw [after1, available_some h hrate, entry, Allowance.post_grant, Call.reading, Option.getD_some]
  | ready t =>
    rw [after1, ready_snd, available_some h hrate, entry, Allowance.post_grant, Call.reading,
      Option.getD_some]
  | consume bytes =>
    rw [after1, consume_some hrate, entry, Allowance.post_spend, Call.reading, Option.getD_none]

/-- A call keeps the bucket sound. -/
theorem Sound.after1 (h : Sound b) (c : Call) : Sound (b.after1 c) := by
  cases hrate : b.rate with
  | none => rwa [after1_none hrate]
  | some rate =>
    rw [after1_some h hrate]
    exact ⟨h.capacity, Allowance.post_le h.tokens _⟩

/-- So do several. -/
theorem Sound.after (h : Sound b) (calls : List Call) : Sound (b.after calls) := by
  induction calls generalizing b with
  | nil => exact h
  | cons c calls ih => exact ih (h.after1 c)

/-- A bucket with a rate is the account of its calls. -/
theorem after_some (h : Sound b) (hrate : b.rate = some rate) (calls : List Call) :
    b.after calls = { b with
      tokens := Allowance.balance b.capacity b.tokens (ledger rate b.last calls)
      last := lastReading b.last calls } := by
  induction calls generalizing b with
  | nil => rfl
  | cons c calls ih =>
    have hone := after1_some h hrate c
    have hrest := ih (b := b.after1 c) (h.after1 c) (by rw [hone]; exact hrate)
    calc b.after (c :: calls) = (b.after1 c).after calls := rfl
      _ = _ := hrest
      _ = _ := by rw [hone]; rfl

/-- The readings of the clock are in order. -/
def Ordered : ℕ → List Call → Prop
  | _, [] => True
  | now, c :: calls => now ≤ c.reading.getD now ∧ Ordered (c.reading.getD now) calls

/-- Calls in order, one stretch after another. -/
theorem ordered_append {more : List Call} : Ordered now (calls ++ more) ↔
    Ordered now calls ∧ Ordered (lastReading now calls) more := by
  induction calls generalizing now with
  | nil => exact (true_and _).symm.to_iff
  | cons c calls ih => exact (and_congr_right' ih).trans and_assoc.symm

theorem Ordered.le_lastReading (h : Ordered now calls) : now ≤ lastReading now calls := by
  induction calls generalizing now with
  | nil => exact le_rfl
  | cons c calls ih => exact h.1.trans (ih h.2)

theorem lastReading_append {more : List Call} :
    lastReading now (calls ++ more) = lastReading (lastReading now calls) more := by
  induction calls generalizing now with
  | nil => rfl
  | cons c calls ih => exact ih

/-- Their entries. -/
theorem ledger_append {more : List Call} (last : ℕ) : ledger rate last (calls ++ more) =
    ledger rate last calls ++ ledger rate (lastReading last calls) more := by
  induction calls generalizing last with
  | nil => rfl
  | cons c calls ih => exact congrArg (entry rate last c :: ·) (ih _)

/-- Disciplined calls are in order. -/
theorem Disciplined.ordered (h : Disciplined b now offer calls) : Ordered now calls := by
  induction calls generalizing b now offer with
  | nil => trivial
  | cons c calls ih =>
    cases c with
    | available t => exact ⟨h.1, ih h.2⟩
    | ready t => exact ⟨h.1, ih h.2⟩
    | consume bytes => exact ⟨le_rfl, ih h.2⟩

/-- What is available is covered by the tokens. -/
theorem available_covered (h : Sound b) (hrate : b.rate = some rate) (now : ℕ) :
    (b.available now).1.toNat * scale ≤ (b.available now).2.tokens := by
  have hsound := h.after1 (.available now)
  have hfit : (b.available now).2.tokens / scale < 2 ^ 64 :=
    (Nat.div_le_div_right hsound.tokens).trans_lt hsound.whole_lt
  rw [available_some h hrate] at hfit ⊢
  rw [UInt64.toNat_ofNat_of_lt' hfit]
  exact Nat.div_mul_le_self _ _

/-- The account of a bucket with a rate covers what is consumed. -/
theorem Disciplined.covered (h : Disciplined b now offer calls) (hsound : Sound b)
    (hrate : b.rate = some rate)
    (hoffer : ∀ count, offer = some count → count.toNat * scale ≤ b.tokens) :
    Allowance.Covered b.capacity b.tokens (ledger rate b.last calls) := by
  induction calls generalizing b now offer with
  | nil => trivial
  | cons c calls ih =>
    have hone := after1_some hsound hrate c
    have hrest (now' : ℕ) (offer' : Option UInt64)
        (hd : Disciplined (b.after1 c) now' offer' calls)
        (ho : ∀ count, offer' = some count → count.toNat * scale ≤ (b.after1 c).tokens) :
        Allowance.Covered b.capacity (Allowance.post b.capacity b.tokens (entry rate b.last c))
          (ledger rate (c.reading.getD b.last) calls) := by
      have := ih hd (hsound.after1 c) (by rw [hone]; exact hrate) ho
      rwa [hone] at this
    cases c with
    | available t =>
      refine ⟨fun _ he => (by cases he), hrest _ _ h.2 fun count hcount => ?_⟩
      cases hcount
      exact available_covered hsound hrate t
    | ready t => exact ⟨fun _ he => (by cases he), hrest _ _ h.2 fun _ hc => (by cases hc)⟩
    | consume bytes =>
      refine ⟨fun amount he => ?_, hrest _ _ h.2 fun _ hc => (by cases hc)⟩
      obtain ⟨count, hcount, hle⟩ := h.1
      cases he
      have hbytes : bytes.toNat ≤ count.toNat := UInt64.le_iff_toNat_le.mp hle
      exact (Nat.mul_le_mul_right _ hbytes).trans (hoffer count hcount)

/-- What is consumed is spent. -/
theorem spent_ledger (last : ℕ) :
    Allowance.spent (ledger rate last calls) = consumed calls * scale := by
  induction calls generalizing last with
  | nil => exact (Nat.zero_mul _).symm
  | cons c calls ih =>
    cases c with
    | available t => exact ih t
    | ready t => exact ih t
    | consume bytes =>
      rw [ledger, entry, Allowance.spent, ih, consumed, Nat.add_mul]

/-- What is granted is the rate over the time that went by. -/
theorem granted_ledger {last : ℕ} (h : Ordered last calls) :
    Allowance.granted (ledger rate last calls) = (lastReading last calls - last) * rate.toNat := by
  induction calls generalizing last with
  | nil => simp [ledger, Allowance.granted, lastReading]
  | cons c calls ih =>
    have hrest := ih h.2
    have hle := h.2.le_lastReading
    cases c with
    | available t =>
      rw [ledger, entry, Allowance.granted, hrest, ← Nat.add_mul]
      congr 1
      have : last ≤ t := h.1
      simp only [Call.reading, Option.getD_some, lastReading] at hle ⊢
      omega
    | ready t =>
      rw [ledger, entry, Allowance.granted, hrest, ← Nat.add_mul]
      congr 1
      have : last ≤ t := h.1
      simp only [Call.reading, Option.getD_some, lastReading] at hle ⊢
      omega
    | consume bytes => rw [ledger, entry, Allowance.granted, hrest]; rfl

/-- Readings are grants. -/
theorem ledger_readings {last : ℕ} (h : ∀ c ∈ calls, c.reading.isSome) :
    ∃ amounts : List ℕ, ledger rate last calls = amounts.map .grant := by
  induction calls generalizing last with
  | nil => exact ⟨[], rfl⟩
  | cons c calls ih =>
    have hc := h c List.mem_cons_self
    obtain ⟨amounts, hrest⟩ : ∃ amounts : List ℕ,
        ledger rate (c.reading.getD last) calls = amounts.map .grant :=
      ih fun c' hc' => h c' (List.mem_cons_of_mem _ hc')
    cases c with
    | available t =>
      refine ⟨((t - last) * rate.toNat) :: amounts, ?_⟩
      rw [ledger, hrest, entry, List.map_cons]
    | ready t =>
      refine ⟨((t - last) * rate.toNat) :: amounts, ?_⟩
      rw [ledger, hrest, entry, List.map_cons]
    | consume bytes => cases hc

/-- Without a rate a bucket never changes. -/
theorem after_none (hrate : b.rate = none) (calls : List Call) : b.after calls = b := by
  induction calls with
  | nil => rfl
  | cons c calls ih =>
    calc b.after (c :: calls) = (b.after1 c).after calls := rfl
      _ = b := by rw [after1_none hrate, ih]

/-- Readings in a row leave the bucket as the last one alone would. -/
theorem after_readings (hsound : Sound b) (hrate : b.rate = some rate) (h : Ordered b.last calls)
    (hreadings : ∀ c ∈ calls, c.reading.isSome) :
    b.after calls = (b.available (lastReading b.last calls)).2 := by
  obtain ⟨amounts, hamounts⟩ : ∃ amounts : List ℕ, ledger rate b.last calls = amounts.map .grant :=
    ledger_readings hreadings
  have hsum : amounts.sum = (lastReading b.last calls - b.last) * rate.toNat := by
    rw [← granted_ledger h, hamounts, Allowance.granted_grants]
  rw [after_some hsound hrate, available_some hsound hrate, hamounts,
    Allowance.balance_grants hsound.tokens, hsum]

/-- The bytes consumed from a reading on are bounded by the capacity and the rate. -/
theorem consumed_le (hsound : Sound b)
    (hcovered : Allowance.Covered b.capacity b.tokens (ledger rate b.last calls))
    (hordered : Ordered b.last calls) :
    consumed calls * scale ≤
      b.capacity + rate.toNat * (lastReading b.last calls - b.last) := by
  have hspent := Allowance.spent_le hcovered hsound.tokens
  rwa [spent_ledger, granted_ledger hordered, Nat.mul_comm _ rate.toNat] at hspent

/-- A positive rate fills the bucket up to what `ready` asks for. -/
theorem ready_of_le (hsound : Sound b) (hrate : b.rate = some rate) (hpos : 0 < rate)
    (hnow : b.last + 1024 * scale ≤ now) : (b.ready now).1 = true := by
  have hfit := (Nat.div_le_div_right (c := scale) (hsound.after1 (.available now)).tokens).trans_lt
    (hsound.after1 (.available now)).whole_lt
  have hcount : 1024 * scale ≤ (b.available now).2.tokens := by
    rw [available_some hsound hrate]
    have hone : 1 ≤ rate.toNat := UInt64.lt_iff_toNat_lt.mp hpos
    have hcredit : 1024 * scale ≤ (now - b.last) * rate.toNat :=
      calc 1024 * scale ≤ now - b.last := by omega
        _ = (now - b.last) * 1 := (Nat.mul_one _).symm
        _ ≤ (now - b.last) * rate.toNat := Nat.mul_le_mul_left _ hone
    have hcap : 1024 * scale ≤ b.capacity := by
      rw [hsound.capacity]
      exact Nat.mul_le_mul_right _ (le_max_of_le_right (by decide))
    exact le_min (hcredit.trans (Nat.le_add_left _ _)) hcap
  have hwhole : 1024 ≤ (b.available now).2.tokens / scale :=
    (Nat.le_div_iff_mul_le (by decide)).mpr hcount
  rw [after1] at hfit
  have hfst : (b.available now).1 = .ofNat ((b.available now).2.tokens / scale) := by
    rw [available_some hsound hrate]
  have hle : (1024 : UInt64) ≤ (b.available now).1 := by
    rw [hfst, UInt64.le_iff_toNat_le, UInt64.toNat_ofNat_of_lt' hfit]
    exact hwhole
  rw [ready]
  exact decide_eq_true hle

/-- What is covered is covered in every part. -/
theorem covered_middle {cap level last : ℕ} {pre seg post : List Call}
    (h : Allowance.Covered cap level (ledger rate last (pre ++ (seg ++ post)))) :
    Allowance.Covered cap (Allowance.balance cap level (ledger rate last pre))
      (ledger rate (lastReading last pre) seg) := by
  rw [ledger_append, ledger_append, Allowance.covered_append, Allowance.covered_append] at h
  exact h.2.1

/-- The token bucket, for every rate and every disciplined sequence of calls: the tokens fit in,
`consume` never saturates, what is consumed from one reading to another is bounded, readings
in a row are worth as much as the last one alone, and a bucket with a positive rate
gets ready. -/
theorem bucket_envelope (rate : Option UInt64) (start : ℕ) {calls : List Call}
    (h : (new rate start).Disciplined start none calls) :
    ((new rate start).after calls).tokens ≤ ((new rate start).after calls).capacity ∧
    (∀ pre bytes post, calls = pre ++ .consume bytes :: post → rate.isSome →
      bytes.toNat * scale ≤ ((new rate start).after pre).tokens) ∧
    (∀ r, rate = some r → ∀ pre c t seg post, calls = pre ++ c :: seg ++ post →
      c.reading = some t →
      consumed seg * 10 ^ 9 ≤
        (new rate start).capacity + r.toNat * (lastReading t seg - t)) ∧
    (∀ seg, (∀ c ∈ seg, c.reading.isSome) → Ordered (lastReading start calls) seg →
      ((new rate start).after calls).after seg =
        (((new rate start).after calls).available
          (lastReading (lastReading start calls) seg)).2) ∧
    ∀ r, rate = some r → 0 < r → ∃ d, ∀ now, lastReading start calls + d ≤ now →
      (((new rate start).after calls).ready now).1 = true := by
  have hsound := (sound_new rate start).after calls
  refine ⟨hsound.tokens, fun pre bytes post hcalls hrate => ?_,
    fun r hrate pre c t seg post hcalls hc => ?_, fun seg hseg hordered => ?_,
    fun r hrate hpos => ?_⟩
  · obtain ⟨r, hr⟩ := Option.isSome_iff_exists.mp hrate
    have hnew : (new rate start).rate = some r := hr
    have hcovered := h.covered (sound_new rate start) hnew fun _ ho => (by cases ho)
    rw [hcalls, ledger_append, Allowance.covered_append] at hcovered
    rw [after_some (sound_new rate start) hr]
    exact hcovered.2.1 _ rfl
  · have hnew : (new rate start).rate = some r := hrate
    have hcovered := h.covered (sound_new rate start) hnew fun _ ho => (by cases ho)
    have hordered := h.ordered
    have hsplit : calls = (pre ++ [c]) ++ (seg ++ post) := by simp [hcalls]
    have hmid := (sound_new rate start).after (pre ++ [c])
    have hat := after_some (sound_new rate start) hrate (pre ++ [c])
    rw [hsplit] at hcovered hordered
    have hseg := covered_middle hcovered
    have hord := (ordered_append.mp (ordered_append.mp hordered).2).1
    have ht : lastReading start (pre ++ [c]) = t := by
      rw [lastReading_append, lastReading, lastReading, hc, Option.getD_some]
    rw [ht] at hord
    have hlast : ((new rate start).after (pre ++ [c])).last = t := by
      rw [hat]
      exact ht
    have hle : consumed seg * scale ≤ ((new rate start).after (pre ++ [c])).capacity +
        r.toNat * (lastReading ((new rate start).after (pre ++ [c])).last seg -
          ((new rate start).after (pre ++ [c])).last) := by
      refine consumed_le hmid ?_ (by rwa [hlast])
      rw [hat]
      exact hseg
    rw [hlast] at hle
    rw [hat] at hle
    exact hle
  · cases hrate : rate with
    | none =>
      subst hrate
      have hnone : ((new none start).after calls).rate = none := by rw [after_none rfl]; rfl
      rw [after_none hnone, available_none hnone]
    | some r =>
      subst hrate
      have hat := after_some (sound_new (some r) start) rfl calls
      have hlast : ((new (some r) start).after calls).last = lastReading start calls := by
        rw [hat]
        rfl
      have hrate : ((new (some r) start).after calls).rate = some r := by rw [hat]; rfl
      rw [after_readings hsound hrate (by rwa [hlast]) hseg, hlast]
  · have hat := after_some (sound_new rate start) hrate calls
    have hlast : ((new rate start).after calls).last = lastReading start calls := by rw [hat]; rfl
    refine ⟨1024 * scale, fun now hnow => ?_⟩
    have hsome : ((new rate start).after calls).rate = some r := by rw [hat]; exact hrate
    exact ready_of_le hsound hsome hpos (by rwa [hlast])

/-- The bytes of a read from a bucket of 65537 bytes per second. -/
theorem bucket_envelope_sample :
    ((new (some 65537) 0).after [.available 1, .consume 6553, .ready 9]).tokens ≤
      ((new (some 65537) 0).after [.available 1, .consume 6553, .ready 9]).capacity := by
  have h : (new (some 65537) 0).Disciplined 0 none [.available 1, .consume 6553, .ready 9] :=
    ⟨by decide, ⟨_, rfl, by decide⟩, by decide, trivial⟩
  exact (bucket_envelope (some 65537) 0 h).1

end Bucket

end AgentHouse.Netd
