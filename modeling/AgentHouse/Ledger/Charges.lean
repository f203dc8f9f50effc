import AgentHouse.Ledger.Changes
import Mathlib.Algebra.Order.BigOperators.Group.List

/-!
# The reservation ledger charges each owner once

The total that both admission paths compute, the reservations that fence a name, and what
retirement proofs do, over every history of calls.
-/

namespace AgentHouse.Ledger

variable {parse : String → Option Json} {db db' : Db} {owner volume : String}

section Sums

/-- A checked sum is the sum, and fits. -/
theorem checked_eq_some {n m : ℤ} (h : checked n = some m) : m = n ∧ n < 2 ^ 63 := by
  unfold checked at h
  split at h
  · rename_i hrange
    exact ⟨(Option.some.inj h).symm, hrange.2⟩
  · cases h

/-- A loop of checked additions is the sum. -/
theorem foldl_sum {ns : List ℤ} {start n : ℤ}
    (h : ns.foldlM (fun total n => require (checked (total + n)) .sqlite) start = .ok n) :
    n = start + ns.sum := by
  induction ns generalizing start with
  | nil =>
    obtain rfl := Except.ok.inj h
    simp
  | cons m ns ih =>
    rw [List.foldlM_cons] at h
    obtain ⟨next, hnext, h⟩ := bind_ok h
    rw [ih h, (checked_eq_some (require_eq_ok hnext)).1, List.sum_cons]
    omega

/-- A sum that is returned is exact. -/
theorem sum_ok {ns : List ℤ} {n : ℤ} (h : sum ns = .ok n) : n = ns.sum := by
  rw [foldl_sum h, zero_add]

/-- A sum over a filtered table. -/
theorem sum_filter {α : Type*} {rows : List α} {p : α → Bool} {g : α → ℤ} :
    ((rows.filter p).map g).sum = (rows.map fun r => if p r then g r else 0).sum := by
  induction rows with
  | nil => rfl
  | cons r rows ih =>
    rw [List.map_cons, List.sum_cons, ← ih]
    by_cases hp : p r = true
    · rw [List.filter_cons_of_pos hp, if_pos hp, List.map_cons, List.sum_cons]
    · rw [List.filter_cons_of_neg hp, if_neg hp, zero_add]

end Sums

/-- What a reservation charges the owner. -/
def ReplicatedReservation.charge (owner : String) (r : ReplicatedReservation) : ℤ :=
  if r.ownerUserId = owner && !r.logicalReleased then r.logicalBytes else 0

/-- What an image charges the owner. -/
def ProjectEnvironmentImage.charge (owner : String) (i : ProjectEnvironmentImage) : ℤ :=
  if i.ownerUserId = owner && i.phase ≠ .retired then i.logicalBytes else 0

/-- The owner's total: unreleased reservations, images that are not retired, and `volumes`. -/
def Db.charged (db : Db) (owner : String) : ℤ :=
  (db.reservations.map (·.charge owner)).sum + (db.images.map (·.charge owner)).sum +
    (db.legacySizes owner).sum * mib

/-- The owner is within `max_volumes_mb`. -/
def Db.Within (db : Db) (owner : String) : Prop :=
  ∃ u, db.user owner = some u ∧ db.charged owner ≤ u.maxVolumesMb * mib

/-- The reservation of the volume has been released. -/
def Db.released (db : Db) (volume : String) : Bool := (db.find volume).any (·.logicalReleased)

/-- What the calls keep true of reservations and images. -/
structure Db.Accounts (db : Db) : Prop where
  keyed : Table.Keyed ReplicatedReservation.volumeId db.reservations
  images : Table.Keyed ProjectEnvironmentImage.id db.images
  reclaimed : ∀ r ∈ db.reservations, r.state = .reclaimed → r.logicalReleased = true
  reserved : ∀ r ∈ db.reservations, r.state = .reserved → r.logicalReleased = false
  positive : ∀ r ∈ db.reservations, 0 < r.logicalBytes
  nonneg : ∀ i ∈ db.images, 0 ≤ i.logicalBytes
  unique : ∀ r ∈ db.reservations, ∀ r' ∈ db.reservations, r.sandboxId = r'.sandboxId →
    r.logicalReleased = false → r'.logicalReleased = false → r = r'
  within : ∀ owner, (∃ r ∈ db.reservations, r.ownerUserId = owner ∧ r.logicalReleased = false) ∨
    (∃ i ∈ db.images, i.ownerUserId = owner ∧ 0 < i.logicalBytes) → db.Within owner

/-- A database from before releases were recorded and images existed, possibly empty. Its rows
satisfy the constraints of their table, and those that are not reclaimed are within the quotas. -/
structure Db.Legacy (db : Db) : Prop where
  keyed : Table.Keyed ReplicatedReservation.volumeId db.reservations
  unreleased : ∀ r ∈ db.reservations, r.logicalReleased = false
  positive : ∀ r ∈ db.reservations, 0 < r.logicalBytes
  images : db.images = []
  within : ∀ r ∈ db.reservations, r.state ≠ .reclaimed →
    Db.Within { db with reservations := db.reservations.filter (·.state ≠ .reclaimed) }
      r.ownerUserId

section Totals

/-- Both admission paths sum up the same reservations, because a reclaimed one is released. -/
theorem usage_eq_diskUsage (h : ∀ r ∈ db.reservations, r.state = .reclaimed →
    r.logicalReleased = true)
    (owner : String) : db.usage owner = db.diskUsage owner := by
  unfold Db.usage Db.diskUsage
  congr 2
  refine List.filter_congr fun r hr => ?_
  by_cases hstate : r.state = .reclaimed
  · simp [ReplicatedReservation.retained, hstate, h r hr hstate]
  · simp [ReplicatedReservation.retained, hstate]

/-- The usage that is read is what the reservations charge. -/
theorem diskUsage_ok {n : ℤ} (h : db.diskUsage owner = .ok n) :
    n = (db.reservations.map (·.charge owner)).sum := by
  rw [sum_ok h, sum_filter]
  rfl

/-- And what the images charge. -/
theorem imageUsage_ok {n : ℤ} (h : db.imageUsage owner = .ok n) :
    n = (db.images.map (·.charge owner)).sum := by
  rw [sum_ok h, sum_filter]
  rfl

/-- The total of a reservation is what is charged and what is asked. -/
theorem reserveTotal_ok
    (hreclaimed : ∀ r ∈ db.reservations, r.state = .reclaimed → r.logicalReleased = true)
    {bytes n : ℤ} (h : db.reserveTotal owner bytes = .ok n) :
    n = db.charged owner + bytes ∧ n < 2 ^ 63 := by
  unfold Db.reserveTotal at h
  obtain ⟨legacy, hlegacy, h⟩ := bind_ok h
  obtain ⟨legacyBytes, hbytes, h⟩ := bind_ok h
  obtain ⟨images, himages, h⟩ := bind_ok h
  obtain ⟨used, hused, h⟩ := bind_ok h
  obtain ⟨n₁, hn₁, h⟩ := Option.bind_eq_some_iff.mp (require_eq_ok h)
  obtain ⟨n₂, hn₂, hn⟩ := Option.bind_eq_some_iff.mp h
  obtain ⟨hn, hlt⟩ := checked_eq_some hn
  refine ⟨?_, hn ▸ hlt⟩
  rw [usage_eq_diskUsage hreclaimed] at hused
  rw [hn, (checked_eq_some hn₂).1, (checked_eq_some hn₁).1, diskUsage_ok hused,
    imageUsage_ok himages, (checked_eq_some (filter_some (require_eq_ok hbytes)).1).1,
      sum_ok hlegacy,
    Db.charged]
  omega

/-- And so is the total of an admission. -/
theorem imageTotal_ok {bytes n : ℤ} (h : db.imageTotal owner bytes = .ok n) :
    n = db.charged owner + bytes ∧ n < 2 ^ 63 := by
  unfold Db.imageTotal at h
  obtain ⟨disk, hdisk, h⟩ := bind_ok h
  obtain ⟨legacy, hlegacy, h⟩ := bind_ok h
  obtain ⟨used, hused, h⟩ := bind_ok h
  obtain ⟨n₁, hn₁, h⟩ := Option.bind_eq_some_iff.mp (require_eq_ok h)
  obtain ⟨l, hl, h⟩ := Option.bind_eq_some_iff.mp h
  obtain ⟨n₂, hn₂, hn⟩ := Option.bind_eq_some_iff.mp h
  obtain ⟨hn, hlt⟩ := checked_eq_some hn
  refine ⟨?_, hn ▸ hlt⟩
  rw [hn, (checked_eq_some hn₂).1, (checked_eq_some hn₁).1, diskUsage_ok hdisk,
    imageUsage_ok hused, (checked_eq_some hl).1, sum_ok hlegacy, Db.charged]

/-- The quota is the one of the user's row. -/
theorem quota_ok {maximum : ℤ} (h : db.quota owner = .ok maximum) :
    ∃ u, db.user owner = some u ∧ maximum = u.maxVolumesMb * mib := by
  unfold Db.quota at h
  obtain ⟨u, hu, h⟩ := bind_ok h
  exact ⟨u, require_eq_ok hu, (checked_eq_some (filter_some (require_eq_ok h)).1).1⟩

end Totals

/-- A reservation is never charged more later on. -/
theorem ReplicatedReservation.Later.charge_le {r r' : ReplicatedReservation} (h : r.Later r')
    (hpositive : 0 < r.logicalBytes) (owner : String) : r'.charge owner ≤ r.charge owner := by
  unfold ReplicatedReservation.charge
  rw [h.ownerUserId, h.logicalBytes]
  by_cases howner : r.ownerUserId = owner
  · cases hreleased : r.logicalReleased with
    | true => simp [h.released hreleased]
    | false =>
      cases hreleased' : r'.logicalReleased with
      | true => simpa [howner] using hpositive.le
      | false => exact le_rfl
  · simp [howner]

/-- Nor is an image. -/
theorem ProjectEnvironmentImage.Later.charge_le {i i' : ProjectEnvironmentImage} (h : i.Later i')
    (hnonneg : 0 ≤ i.logicalBytes) (owner : String) : i'.charge owner ≤ i.charge owner := by
  unfold ProjectEnvironmentImage.charge
  rw [h.ownerUserId, h.logicalBytes]
  by_cases hretired : i.phase = .retired
  · have hretired' : i'.phase = .retired := by
      obtain hsame | hlt := h.phase
      · exact hsame.trans hretired
      · rw [hretired] at hlt
        cases hphase : i'.phase <;> rw [hphase] at hlt <;> simp [ImagePhase.rank] at hlt
    rw [hretired, hretired']
  · split
    · rename_i hcharged
      rw [if_pos (by simp_all)]
    · split
      · exact hnonneg
      · exact le_rfl

namespace ReplicatedReservation

variable {r : ReplicatedReservation}

/-- A deletion is a later reservation. -/
theorem later_delete (hstate : r.state ≠ .reclaimed) : r.Later { r with state := .deleting } :=
  ⟨rfl, rfl, rfl, rfl, fun h => h, fun h => absurd h hstate, fun h => by cases h⟩

theorem retire_ne_reserved {released complete : Bool} :
    (retire released complete r).state ≠ .reserved := by
  cases complete <;> simp [retire]

/-- So is a retirement. -/
theorem later_retire {released complete : Bool} (hstate : r.state = .deleting) :
    r.Later (retire released complete r) := by
  refine ⟨rfl, rfl, rfl, rfl, fun h => ?_, fun h => ?_, fun h => absurd h retire_ne_reserved⟩
  · rw [retire, h, Bool.true_or]
  · rw [hstate] at h
    cases h

end ReplicatedReservation

namespace Db.Accounts

/-- The accounts depend on four tables. -/
theorem congr (h : db.Accounts) (hr : db'.reservations = db.reservations)
    (hi : db'.images = db.images) (hu : db'.users = db.users) (hv : db'.volumes = db.volumes) :
    db'.Accounts := by
  have hcharged (owner : String) : db'.charged owner = db.charged owner := by
    unfold Db.charged Db.legacySizes
    rw [hr, hi, hv]
  obtain ⟨keyed, images, reclaimed, reserved, positive, nonneg, unique, within⟩ := h
  refine ⟨hr ▸ keyed, hi ▸ images, hr ▸ reclaimed, hr ▸ reserved, hr ▸ positive, hi ▸ nonneg,
    hr ▸ unique, fun owner howns => ?_⟩
  rw [hr, hi] at howns
  obtain ⟨u, huser, hle⟩ := within owner howns
  refine ⟨u, ?_, hcharged owner ▸ hle⟩
  unfold Db.user at huser ⊢
  rw [hu]
  exact huser

/-- Reservations go on. -/
theorem mapReservations (h : db.Accounts) {f : ReplicatedReservation → ReplicatedReservation}
    (hf : ∀ r ∈ db.reservations, r.Later (f r))
    (hreclaimed : ∀ r ∈ db.reservations, (f r).state = .reclaimed → (f r).logicalReleased = true)
    (hreserved : ∀ r ∈ db.reservations, (f r).state = .reserved → (f r).logicalReleased = false) :
    Accounts { db with reservations := db.reservations.map f } where
  keyed := by
    have hmap : (db.reservations.map f).map ReplicatedReservation.volumeId =
        db.reservations.map ReplicatedReservation.volumeId := by
      rw [List.map_map]
      exact List.map_congr_left fun r hr => (hf r hr).volumeId
    rw [Table.Keyed, hmap]
    exact h.keyed
  images := h.images
  reclaimed r hr hstate := by
    obtain ⟨r₀, hr₀, rfl⟩ := List.mem_map.mp hr
    exact hreclaimed r₀ hr₀ hstate
  reserved r hr hstate := by
    obtain ⟨r₀, hr₀, rfl⟩ := List.mem_map.mp hr
    exact hreserved r₀ hr₀ hstate
  positive r hr := by
    obtain ⟨r₀, hr₀, rfl⟩ := List.mem_map.mp hr
    rw [(hf r₀ hr₀).logicalBytes]
    exact h.positive r₀ hr₀
  nonneg := h.nonneg
  unique r hr r' hr' hsandbox hfree hfree' := by
    obtain ⟨r₀, hr₀, rfl⟩ := List.mem_map.mp hr
    obtain ⟨r₁, hr₁, rfl⟩ := List.mem_map.mp hr'
    have hbefore {r : ReplicatedReservation} (hr : r ∈ db.reservations)
        (hfree : (f r).logicalReleased = false) : r.logicalReleased = false := by
      by_contra hreleased
      rw [(hf r hr).released (by simpa using hreleased)] at hfree
      cases hfree
    rw [(hf r₀ hr₀).sandboxId, (hf r₁ hr₁).sandboxId] at hsandbox
    rw [h.unique r₀ hr₀ r₁ hr₁ hsandbox (hbefore hr₀ hfree) (hbefore hr₁ hfree')]
  within owner howns := by
    have hbefore : (∃ r ∈ db.reservations, r.ownerUserId = owner ∧ r.logicalReleased = false) ∨
        ∃ i ∈ db.images, i.ownerUserId = owner ∧ 0 < i.logicalBytes := by
      refine howns.imp_left ?_
      rintro ⟨r, hr, howner, hfree⟩
      obtain ⟨r₀, hr₀, rfl⟩ := List.mem_map.mp hr
      refine ⟨r₀, hr₀, (hf r₀ hr₀).ownerUserId.symm.trans howner, ?_⟩
      by_contra hreleased
      rw [(hf r₀ hr₀).released (by simpa using hreleased)] at hfree
      cases hfree
    obtain ⟨u, huser, hle⟩ := h.within owner hbefore
    refine ⟨u, huser, le_trans ?_ hle⟩
    unfold Db.charged
    rw [List.map_map]
    have := List.sum_le_sum fun r hr => (hf r hr).charge_le (h.positive r hr) owner
    exact add_le_add (add_le_add this le_rfl) le_rfl

/-- Images go on. -/
theorem mapImages (h : db.Accounts) {f : ProjectEnvironmentImage → ProjectEnvironmentImage}
    (hf : ∀ i ∈ db.images, i.Later (f i)) :
    Accounts { db with images := db.images.map f } where
  keyed := h.keyed
  images := by
    have hmap : (db.images.map f).map ProjectEnvironmentImage.id =
        db.images.map ProjectEnvironmentImage.id := by
      rw [List.map_map]
      exact List.map_congr_left fun i hi => (hf i hi).id
    rw [Table.Keyed, hmap]
    exact h.images
  reclaimed := h.reclaimed
  reserved := h.reserved
  positive := h.positive
  nonneg i hi := by
    obtain ⟨i₀, hi₀, rfl⟩ := List.mem_map.mp hi
    rw [(hf i₀ hi₀).logicalBytes]
    exact h.nonneg i₀ hi₀
  unique := h.unique
  within owner howns := by
    have hbefore : (∃ r ∈ db.reservations, r.ownerUserId = owner ∧ r.logicalReleased = false) ∨
        ∃ i ∈ db.images, i.ownerUserId = owner ∧ 0 < i.logicalBytes := by
      refine howns.imp_right ?_
      rintro ⟨i, hi, howner, hbytes⟩
      obtain ⟨i₀, hi₀, rfl⟩ := List.mem_map.mp hi
      have hlater := hf i₀ hi₀
      exact ⟨i₀, hi₀, hlater.ownerUserId.symm.trans howner, hlater.logicalBytes ▸ hbytes⟩
    obtain ⟨u, huser, hle⟩ := h.within owner hbefore
    refine ⟨u, huser, le_trans ?_ hle⟩
    unfold Db.charged
    rw [List.map_map]
    have := List.sum_le_sum fun i hi => (hf i hi).charge_le (h.nonneg i hi) owner
    exact add_le_add (add_le_add le_rfl this) le_rfl

/-- A new reservation within the quota. -/
theorem reserve (h : db.Accounts) {sandbox : String} {bytes now maximum total : ℤ}
    {operations : List LifecycleOperation} (hbytes : 0 < bytes) (hfind : db.find volume = none)
    (hquota : db.quota owner = .ok maximum) (htotal : db.reserveTotal owner bytes = .ok total)
    (hle : total ≤ maximum) (hfree : db.occupied sandbox = false) :
    Accounts { db with
      reservations := db.reservations ++ [.new owner sandbox volume bytes now], operations } := by
  -- no unreleased reservation has the name yet
  have hnone : ∀ r ∈ db.reservations, r.sandboxId = sandbox → r.logicalReleased = true := by
    intro r hr hsandbox
    by_contra hreleased
    have hstate : r.state ≠ .reclaimed := fun hstate => hreleased (h.reclaimed r hr hstate)
    have : db.occupied sandbox = true :=
      List.any_eq_true.mpr
        ⟨r, hr, by simp [hsandbox, ReplicatedReservation.retained, hstate, hreleased]⟩
    rw [hfree] at this
    cases this
  refine ⟨h.keyed.append hfind, h.images, ?_, ?_, ?_, h.nonneg, ?_, ?_⟩
  · intro r hr hstate
    obtain hr | rfl := Table.mem_snoc.mp hr
    · exact h.reclaimed r hr hstate
    · cases hstate
  · intro r hr hstate
    obtain hr | rfl := Table.mem_snoc.mp hr
    · exact h.reserved r hr hstate
    · rfl
  · intro r hr
    obtain hr | rfl := Table.mem_snoc.mp hr
    · exact h.positive r hr
    · exact hbytes
  · intro r hr r' hr' hsandbox hunreleased hunreleased'
    obtain hr | rfl := Table.mem_snoc.mp hr
    · obtain hr' | rfl := Table.mem_snoc.mp hr'
      · exact h.unique r hr r' hr' hsandbox hunreleased hunreleased'
      · rw [hnone r hr hsandbox] at hunreleased
        cases hunreleased
    · obtain hr' | rfl := Table.mem_snoc.mp hr'
      · rw [hnone r' hr' hsandbox.symm] at hunreleased'
        cases hunreleased'
      · rfl
  · intro other howns
    have hsum : ((db.reservations ++
        [ReplicatedReservation.new owner sandbox volume bytes now]).map (·.charge other)).sum =
        (db.reservations.map (·.charge other)).sum + if owner = other then bytes else 0 := by
      rw [List.map_append, List.sum_append, List.map_singleton, List.sum_singleton]
      by_cases hother : owner = other
      · simp [ReplicatedReservation.charge, ReplicatedReservation.new, hother]
      · simp [ReplicatedReservation.charge, ReplicatedReservation.new, hother]
    by_cases hother : owner = other
    · subst hother
      obtain ⟨u, huser, rfl⟩ := quota_ok hquota
      refine ⟨u, huser, le_trans (le_of_eq ?_) hle⟩
      rw [(reserveTotal_ok h.reclaimed htotal).1]
      unfold Db.charged
      dsimp only
      rw [hsum, if_pos rfl]
      change _ + _ + (db.legacySizes owner).sum * mib = _
      omega
    · have hbefore : (∃ r ∈ db.reservations, r.ownerUserId = other ∧ r.logicalReleased = false) ∨
          ∃ i ∈ db.images, i.ownerUserId = other ∧ 0 < i.logicalBytes := by
        refine howns.imp_left ?_
        rintro ⟨r, hr, howner, hfree⟩
        obtain hr | rfl := Table.mem_snoc.mp hr
        · exact ⟨r, hr, howner, hfree⟩
        · exact absurd howner hother
      obtain ⟨u, huser, hle'⟩ := h.within other hbefore
      refine ⟨u, huser, le_trans (le_of_eq ?_) hle'⟩
      unfold Db.charged
      dsimp only
      rw [hsum, if_neg hother, add_zero]
      rfl

/-- A new image, charged within the quota or not at all. -/
theorem addImage (h : db.Accounts) {row : ProjectEnvironmentImage} {refs : List ImageRef}
    (hnone : Table.row ProjectEnvironmentImage.id row.id db.images = none)
    (hnonneg : 0 ≤ row.logicalBytes)
    (hwithin : 0 < row.logicalBytes → ∃ u, db.user row.ownerUserId = some u ∧
      db.charged row.ownerUserId + row.logicalBytes ≤ u.maxVolumesMb * mib) :
    Accounts { db with images := db.images ++ [row], refs } := by
  refine ⟨h.keyed, h.images.append hnone, h.reclaimed, h.reserved, h.positive, ?_, h.unique, ?_⟩
  · intro i hi
    obtain hi | rfl := Table.mem_snoc.mp hi
    · exact h.nonneg i hi
    · exact hnonneg
  · intro other howns
    have hsum : ((db.images ++ [row]).map (·.charge other)).sum ≤
        (db.images.map (·.charge other)).sum +
          if row.ownerUserId = other then row.logicalBytes else 0 := by
      rw [List.map_append, List.sum_append, List.map_singleton, List.sum_singleton]
      refine add_le_add le_rfl ?_
      unfold ProjectEnvironmentImage.charge
      by_cases howner : row.ownerUserId = other
      · rw [if_pos howner]
        split
        · exact le_rfl
        · exact hnonneg
      · simp [howner]
    have hcharged : Db.charged { db with images := db.images ++ [row], refs } other ≤
        db.charged other + if row.ownerUserId = other then row.logicalBytes else 0 := by
      unfold Db.charged
      change _ + _ + (db.legacySizes other).sum * mib ≤ _
      dsimp only
      omega
    by_cases hnew : row.ownerUserId = other ∧ 0 < row.logicalBytes
    · obtain ⟨rfl, hpositive⟩ := hnew
      obtain ⟨u, huser, hle⟩ := hwithin hpositive
      rw [if_pos rfl] at hcharged
      exact ⟨u, huser, hcharged.trans hle⟩
    · have hbefore : (∃ r ∈ db.reservations, r.ownerUserId = other ∧ r.logicalReleased = false) ∨
          ∃ i ∈ db.images, i.ownerUserId = other ∧ 0 < i.logicalBytes := by
        refine howns.imp_right ?_
        rintro ⟨i, hi, howner, hpositive⟩
        obtain hi | rfl := Table.mem_snoc.mp hi
        · exact ⟨i, hi, howner, hpositive⟩
        · exact absurd ⟨howner, hpositive⟩ hnew
      obtain ⟨u, huser, hle⟩ := h.within other hbefore
      refine ⟨u, huser, hcharged.trans (le_trans (le_of_eq ?_) hle)⟩
      split
      · rename_i howner
        have : row.logicalBytes = 0 := le_antisymm (not_lt.mp fun hp => hnew ⟨howner, hp⟩) hnonneg
        rw [this, add_zero]
      · rw [add_zero]

/-- The update of one reservation. -/
theorem revise (h : db.Accounts) {row : ReplicatedReservation}
    {f : ReplicatedReservation → ReplicatedReservation} (hfind : db.find volume = some row)
    (hf : row.Later (f row)) (hreclaimed : (f row).state = .reclaimed →
      (f row).logicalReleased = true)
    (hreserved : (f row).state ≠ .reserved) :
    (db.reviseReservation volume f).Accounts := by
  obtain ⟨hrow, hid⟩ := Table.row_mem hfind
  have honly {r : ReplicatedReservation} (hr : r ∈ db.reservations) (hsame : r.volumeId = volume) :
      r = row :=
    List.inj_on_of_nodup_map h.keyed hr hrow (hsame.trans hid.symm)
  refine h.mapReservations (fun r hr => ?_) (fun r hr => ?_) fun r hr => ?_
  · split
    · rename_i hsame
      rw [honly hr hsame]
      exact hf
    · exact .refl r
  · split
    · rename_i hsame
      rw [honly hr hsame]
      exact hreclaimed
    · exact h.reclaimed r hr
  · split
    · rename_i hsame
      rw [honly hr hsame]
      exact fun hstate => absurd hstate hreserved
    · exact h.reserved r hr

/-- A restart finds nothing to release. -/
theorem reopen (h : db.Accounts) : db.reservations.map (·.migrate) = db.reservations := by
  conv_rhs => rw [← List.map_id db.reservations]
  refine List.map_congr_left fun r hr => ?_
  unfold ReplicatedReservation.migrate
  split
  · rename_i hstate
    have hreleased := h.reclaimed r hr hstate
    obtain ⟨_, _, _, _, _, _, _⟩ := r
    cases hreleased
    rfl
  · rfl

/-- Every change keeps the accounts. -/
theorem step (h : db.Accounts) {a : Action} {v : Value} (hs : Change parse db a v db') :
    db'.Accounts := by
  have himages := hs.images h.images
  -- an image goes on
  have hadvance (hlength : db'.images.length = db.images.length)
      (hr : db'.reservations = db.reservations) (hu : db'.users = db.users)
      (hv : db'.volumes = db.volumes) : db'.Accounts := by
    obtain ⟨f, hf, hlater⟩ | ⟨row, _, happend⟩ := himages
    · exact (h.mapImages hlater).congr hr hf hu hv
    · rw [happend, List.length_append, List.length_singleton] at hlength
      omega
  cases hs with
  | reserved hbytes hfind hquota htotal hle hfree =>
    exact h.reserve hbytes hfind hquota htotal hle hfree
  | deleted hfind hstate =>
    exact h.revise hfind (ReplicatedReservation.later_delete hstate) (fun h => by cases h) (by simp)
  | @released _ volume complete _ hfind hstate =>
    have : (db.reviseReservation volume (ReplicatedReservation.retire true complete)).Accounts :=
      h.revise hfind (ReplicatedReservation.later_retire hstate)
        (fun _ => by simp [ReplicatedReservation.retire]) ReplicatedReservation.retire_ne_reserved
    exact this.congr rfl rfl rfl rfl
  | @confirmed _ _ released complete row hfind hstate hlate hcomplete =>
    refine h.revise hfind (ReplicatedReservation.later_retire hstate) (fun hreclaimed => ?_)
      ReplicatedReservation.retire_ne_reserved
    cases complete with
    | false => cases hreclaimed
    | true => simp [ReplicatedReservation.retire, hcomplete rfl]
  | @admitted row _ _ u hnone hbytes huser htotal _ hmaximum hle =>
    refine h.addImage hnone hbytes.le fun _ => ⟨u, huser, ?_⟩
    rw [← (checked_eq_some hmaximum).1]
    exact (imageTotal_ok htotal).1 ▸ hle
  | @unadmitted id owner tenant project now b source hnone hb =>
    refine h.addImage ?_ le_rfl fun hpositive => absurd hpositive (lt_irrefl 0)
    rw [ProjectEnvironmentImage.unadmitted, (Table.row_mem hb).2]
    exact hnone
  | phase | finished | detailed | deleting | retired =>
    exact hadvance (List.length_map _) rfl rfl rfl
  | reopened hreservations => exact h.congr (hreservations.trans h.reopen) rfl rfl rfl
  | _ => first | exact h | exact h.congr rfl rfl rfl rfl

/-- Reservations stay and only go on. -/
theorem find_later (h : db.Accounts) {a : Action} {v : Value} (hs : Change parse db a v db')
    {r : ReplicatedReservation} (hfind : db.find volume = some r) :
    ∃ r', db'.find volume = some r' ∧ r.Later r' := by
  have hrevise {other : String} {row : ReplicatedReservation}
      {f : ReplicatedReservation → ReplicatedReservation} (hid : ∀ r, (f r).volumeId = r.volumeId)
      (hrow : db.find other = some row) (hf : row.Later (f row)) :
      ∃ r', (db.reviseReservation other f).find volume = some r' ∧ r.Later r' := by
    unfold Db.find Db.reviseReservation at *
    dsimp only
    rw [Table.row_revise hid]
    split
    · rename_i hsame
      subst hsame
      obtain rfl := Option.some.inj (hfind.symm.trans hrow)
      exact ⟨f r, by rw [hfind]; rfl, hf⟩
    · exact ⟨r, hfind, .refl r⟩
  cases hs with
  | @reserved owner sandbox other bytes now _ _ _ hnone =>
    refine ⟨r, ?_, .refl r⟩
    unfold Db.find at hfind hnone ⊢
    rw [Table.row_append hnone, if_neg, hfind]
    rintro rfl
    rw [hfind] at hnone
    cases hnone
  | deleted hrow hstate =>
    exact hrevise (fun _ => rfl) hrow (ReplicatedReservation.later_delete hstate)
  | released hrow hstate =>
    exact hrevise (fun _ => rfl) hrow (ReplicatedReservation.later_retire hstate)
  | confirmed hrow hstate =>
    exact hrevise (fun _ => rfl) hrow (ReplicatedReservation.later_retire hstate)
  | reopened hreservations =>
    refine ⟨r, ?_, .refl r⟩
    rw [Db.find, hreservations, h.reopen]
    exact hfind
  | _ => exact ⟨r, hfind, .refl r⟩

/-- Where a reservation comes from. -/
theorem mem_before (h : db.Accounts) {a : Action} {v : Value} (hs : Change parse db a v db')
    {r' : ReplicatedReservation} (hr' : r' ∈ db'.reservations) :
    (∃ r ∈ db.reservations, r.Later r') ∨ ∃ owner sandbox volume bytes now,
      a = .reserveReplicatedVolume owner sandbox volume bytes now ∧
        r' = .new owner sandbox volume bytes now := by
  have hrevise {volume : String} {row : ReplicatedReservation}
      {f : ReplicatedReservation → ReplicatedReservation} (hrow : db.find volume = some row)
      (hf : row.Later (f row)) (hr' : r' ∈ (db.reviseReservation volume f).reservations) :
      ∃ r ∈ db.reservations, r.Later r' := by
    obtain ⟨hrow, hid⟩ := Table.row_mem hrow
    obtain ⟨r, hr, rfl⟩ := List.mem_map.mp hr'
    refine ⟨r, hr, ?_⟩
    split
    · rename_i hsame
      rw [List.inj_on_of_nodup_map h.keyed hr hrow (hsame.trans hid.symm)]
      exact hf
    · exact .refl r
  cases hs with
  | reserved =>
    obtain hr' | rfl := Table.mem_snoc.mp hr'
    · exact .inl ⟨r', hr', .refl r'⟩
    · exact .inr ⟨_, _, _, _, _, rfl, rfl⟩
  | deleted hrow hstate =>
    exact .inl (hrevise hrow (ReplicatedReservation.later_delete hstate) hr')
  | released hrow hstate =>
    exact .inl (hrevise hrow (ReplicatedReservation.later_retire hstate) hr')
  | confirmed hrow hstate =>
    exact .inl (hrevise hrow (ReplicatedReservation.later_retire hstate) hr')
  | reopened hreservations =>
    rw [hreservations, h.reopen] at hr'
    exact .inl ⟨r', hr', .refl r'⟩
  | _ => exact .inl ⟨r', hr', .refl r'⟩

end Db.Accounts

/-- The call has released the reservation of the volume. -/
def Call.releases (c : Call) (volume : String) : Bool :=
  match c.action, c.reply with
  | .confirmReplicatedRetirement _ other _ _, .ok (.bool true) => other = volume
  | _, _ => false

/-- A call changes what is released exactly if it says so. -/
theorem released_change (h : db.Accounts) {a : Action} {v : Value} (hs : Change parse db a v db')
    (volume : String) : (db'.released volume).toNat =
      (db.released volume).toNat + (Call.releases ⟨a, .ok v⟩ volume).toNat := by
  have hrevise {other : String} {row : ReplicatedReservation}
      (f : ReplicatedReservation → ReplicatedReservation) (hid : ∀ r, (f r).volumeId = r.volumeId)
      (hrow : db.find other = some row) :
      (db.reviseReservation other f).released volume =
        if volume = other then (f row).logicalReleased else db.released volume := by
    unfold Db.released Db.find Db.reviseReservation at *
    dsimp only
    rw [Table.row_revise hid]
    split
    · rename_i hsame
      rw [hsame, hrow]
      rfl
    · rfl
  have hself {other : String} {row : ReplicatedReservation} (hrow : db.find other = some row) :
      db.released other = row.logicalReleased := by
    rw [Db.released, hrow]
    rfl
  cases hs with
  | @reserved owner sandbox other bytes now _ _ _ hnone =>
    change (Db.released _ volume).toNat = (db.released volume).toNat
    unfold Db.released Db.find at *
    dsimp only
    rw [Table.row_append hnone]
    split
    · rename_i hsame
      rw [show volume = other from hsame, hnone]
      rfl
    · rfl
  | @deleted _ other row hrow =>
    rw [hrevise (fun r => { r with state := .deleting }) (fun _ => rfl) hrow]
    split
    · rename_i hsame
      rw [hsame, hself hrow]
      rfl
    · rfl
  | @released _ other complete row hrow _ hfirst =>
    change ((db.reviseReservation other _).released volume).toNat = _
    rw [hrevise (.retire true complete) (fun _ => rfl) hrow]
    split
    · rename_i hsame
      rw [hsame, hself hrow, hfirst]
      simp [ReplicatedReservation.retire, Call.releases]
    · rename_i hother
      have hne : ¬ other = volume := fun heq => hother heq.symm
      simp [Call.releases, hne]
  | @confirmed _ other released complete row hrow _ hlate =>
    rw [hrevise (.retire released complete) (fun _ => rfl) hrow]
    split
    · rename_i hsame
      rw [hsame, hself hrow]
      cases released with
      | false => simp [ReplicatedReservation.retire, Call.releases]
      | true => simp [ReplicatedReservation.retire, Call.releases, hlate rfl]
    · rfl
  | reopened hreservations =>
    change (Db.released _ volume).toNat = (db.released volume).toNat
    rw [Db.released, Db.find, hreservations, h.reopen]
    rfl
  | _ => rfl

/-- A retirement proof removes a sandbox only when it is the first to release its volume. -/
theorem sandbox_kept {a : Action} {v : Value} (hs : Change parse db a v db')
    {released complete : Bool}
    (ha : a = .confirmReplicatedRetirement owner volume released complete) {s : Sandbox}
    (hmem : s ∈ db.sandboxes) (hgone : s ∉ db'.sandboxes) :
    Call.releases ⟨a, .ok v⟩ volume = true ∧
      ∃ r, db.find volume = some r ∧ r.logicalReleased = false ∧ s.id = r.sandboxId := by
  subst ha
  cases hs with
  | @released _ _ _ row hrow _ hfirst =>
    refine ⟨by simp [Call.releases], row, hrow, hfirst, ?_⟩
    by_contra hne
    exact hgone (List.mem_filter.mpr ⟨hmem, decide_eq_true hne⟩)
  | confirmed | confirmedBefore => exact absurd hmem hgone

/-- The database after the schema has been initialised over a legacy one. -/
def Db.Opened (db : Db) : Prop := ∃ legacy : Db, legacy.Legacy ∧ initSchema legacy = .ok db

theorem ReplicatedReservation.later_migrate (r : ReplicatedReservation) : r.Later r.migrate := by
  unfold migrate
  split
  · exact ⟨rfl, rfl, rfl, rfl, fun _ => rfl, fun h => h, fun h => h⟩
  · exact .refl r

/-- The migration charges a row for what is not reclaimed. -/
theorem ReplicatedReservation.charge_migrate (r : ReplicatedReservation) (owner : String) :
    r.migrate.charge owner = if decide (r.state ≠ .reclaimed) then r.charge owner else 0 := by
  unfold migrate
  by_cases hstate : r.state = .reclaimed
  · simp [hstate, charge]
  · simp [hstate]

/-- A database that was opened is in order. -/
theorem Db.Opened.accounts (h : db.Opened) : db.Accounts := by
  obtain ⟨legacy, hlegacy, hinit⟩ := h
  unfold initSchema at hinit
  obtain ⟨_, hunique, hinit⟩ := bind_ok hinit
  obtain rfl := Except.ok.inj hinit
  have hunique := not_not.mp (refuse_eq_ok hunique)
  have hmigrated {r : ReplicatedReservation} (hr : r ∈ legacy.reservations.map (·.migrate)) :
      ∃ r₀ ∈ legacy.reservations, r₀.migrate = r := List.mem_map.mp hr
  have hreclaimed : ∀ r ∈ legacy.reservations.map (·.migrate), r.state = .reclaimed →
      r.logicalReleased = true := by
    intro r hr hstate
    obtain ⟨r₀, hr₀, rfl⟩ := hmigrated hr
    unfold ReplicatedReservation.migrate at hstate ⊢
    split
    · rfl
    · rename_i hother
      rw [if_neg hother] at hstate
      exact absurd hstate hother
  refine ⟨?_, ?_, hreclaimed, ?_, ?_, ?_, ?_, ?_⟩
  · have hmap : (legacy.reservations.map (·.migrate)).map ReplicatedReservation.volumeId =
        legacy.reservations.map ReplicatedReservation.volumeId := by
      rw [List.map_map]
      exact List.map_congr_left fun r _ => r.later_migrate.volumeId
    rw [Table.Keyed, hmap]
    exact hlegacy.keyed
  · rw [Table.Keyed, hlegacy.images]
    exact List.nodup_nil
  · intro r hr hstate
    obtain ⟨r₀, hr₀, rfl⟩ := hmigrated hr
    have hstate₀ := r₀.later_migrate.reserved hstate
    rw [ReplicatedReservation.migrate, if_neg (by rw [hstate₀]; simp)]
    exact hlegacy.unreleased r₀ hr₀
  · intro r hr
    obtain ⟨r₀, hr₀, rfl⟩ := hmigrated hr
    rw [r₀.later_migrate.logicalBytes]
    exact hlegacy.positive r₀ hr₀
  · intro i hi
    rw [hlegacy.images] at hi
    cases hi
  · intro r hr r' hr' hsandbox hfree hfree'
    have hretained {r : ReplicatedReservation} (hr : r ∈ legacy.reservations.map (·.migrate))
        (hfree : r.logicalReleased = false) :
        r ∈ (legacy.reservations.map (·.migrate)).filter (·.retained) := by
      refine List.mem_filter.mpr ⟨hr, ?_⟩
      have hstate : r.state ≠ .reclaimed := by
        intro hstate
        rw [hreclaimed r hr hstate] at hfree
        cases hfree
      simp [ReplicatedReservation.retained, hstate, hfree]
    exact List.inj_on_of_nodup_map hunique (hretained hr hfree) (hretained hr' hfree') hsandbox
  · rintro owner (⟨r, hr, rfl, hfree⟩ | ⟨i, hi, _⟩)
    · obtain ⟨r₀, hr₀, rfl⟩ := hmigrated hr
      have hstate : r₀.state ≠ .reclaimed := by
        intro hstate
        rw [ReplicatedReservation.migrate, if_pos hstate] at hfree
        cases hfree
      rw [r₀.later_migrate.ownerUserId]
      obtain ⟨u, huser, hle⟩ := hlegacy.within r₀ hr₀ hstate
      refine ⟨u, huser, le_trans (le_of_eq ?_) hle⟩
      unfold Db.charged
      dsimp only
      rw [List.map_map, sum_filter]
      refine congrArg₂ _ (congrArg₂ _ (congrArg _ (List.map_congr_left fun r hr => ?_)) rfl) rfl
      exact r.charge_migrate _
    · rw [hlegacy.images] at hi
      cases hi

/-- The call is a reservation or the admission of an image for the owner. -/
def Call.admits (c : Call) (owner : String) : Bool :=
  match c.action with
  | .reserveReplicatedVolume other _ _ _ _ => other = owner
  | .admitProjectImage row => row.ownerUserId = owner
  | _ => false

/-- A database without reservations and images. -/
theorem Db.opened_of_empty (hreservations : db.reservations = []) (himages : db.images = []) :
    db.Opened := by
  refine ⟨db, ⟨?_, ?_, ?_, himages, ?_⟩, ?_⟩
  · rw [hreservations]
    exact List.nodup_nil
  · simp [hreservations]
  · simp [hreservations]
  · simp [hreservations]
  · unfold initSchema refuse
    simp only [hreservations]
    obtain ⟨_, _, _, _, _, _, _, _, _⟩ := db
    cases hreservations
    rfl

/-- Every call keeps the accounts. -/
theorem Db.Accounts.step_run (h : db.Accounts) {c : Call} (hs : Step parse db c db') :
    db'.Accounts := by
  obtain ⟨_, _, rfl⟩ | ⟨v, _, hchange⟩ := hs.change
  · exact h
  · exact h.step hchange

/-- Reservations stay and only go on in whole histories. -/
theorem Db.Accounts.find_run (h : db.Accounts) {calls : List Call} {r : ReplicatedReservation}
    (hrun : Trace (Step parse) db calls db') (hfind : db.find volume = some r) :
    ∃ r', db'.find volume = some r' ∧ r.Later r' := by
  have hboth : db'.Accounts ∧ ∃ r', db'.find volume = some r' ∧ r.Later r' := by
    refine hrun.invariant (I := fun db => db.Accounts ∧ ∃ r', db.find volume = some r' ∧ r.Later r')
      ⟨h, r, hfind, .refl r⟩ ?_
    rintro db₁ c db₂ ⟨haccounts, r', hr', hlater⟩ hs
    refine ⟨haccounts.step_run hs, ?_⟩
    obtain ⟨_, _, rfl⟩ | ⟨v, _, hchange⟩ := hs.change
    · exact ⟨r', hr', hlater⟩
    · obtain ⟨r'', hr'', hlater'⟩ := haccounts.find_later hchange hr'
      exact ⟨r'', hr'', hlater.trans hlater'⟩
  exact hboth.2

/-- A successful admission leaves the owner within the quota. -/
theorem Db.Accounts.admits (h : db.Accounts) {c : Call} {v : Value} (hs : Step parse db c db')
    (hok : c.reply = .ok v) (hadmits : c.admits owner = true) : db'.Within owner := by
  have h' := h.step_run hs
  obtain ⟨_, herror, _⟩ | ⟨w, _, hchange⟩ := hs.change
  · rw [hok] at herror
    cases herror
  obtain ⟨a, reply⟩ := c
  refine h'.within owner ?_
  unfold Call.admits at hadmits
  cases hchange with
  | reserved =>
    exact .inl ⟨_, List.mem_append_right _ (List.mem_singleton_self _), of_decide_eq_true hadmits,
      rfl⟩
  | reservedBefore hfind howner _ hreserved =>
    have hrow := (Table.row_mem hfind).1
    exact .inl ⟨_, hrow, howner.trans (of_decide_eq_true hadmits), h.reserved _ hrow hreserved⟩
  | admitted hnone hbytes =>
    exact .inr ⟨_, List.mem_append_right _ (List.mem_singleton_self _), of_decide_eq_true hadmits,
      hbytes⟩
  | admittedBefore hold howner hbytes hpositive =>
    exact .inr ⟨_, (Table.row_mem hold).1, howner.trans (of_decide_eq_true hadmits),
      hbytes ▸ hpositive⟩
  | _ => cases hadmits

/-- A volume that is not just reserved any more cannot be reserved. -/
theorem reserve_refused {sandbox : String} {bytes now : ℤ} {r : ReplicatedReservation}
    (hfind : db.find volume = some r) (hstate : r.state ≠ .reserved) :
    ∃ e, db.run parse (.reserveReplicatedVolume owner sandbox volume bytes now) =
      (.error e, db) := by
  generalize hrun : db.run parse (.reserveReplicatedVolume owner sandbox volume bytes now) = result
  obtain ⟨reply, db'⟩ := result
  have hstep : Step parse db ⟨.reserveReplicatedVolume owner sandbox volume bytes now, reply⟩ db' :=
    hrun
  obtain ⟨e, hreply, hdb⟩ | ⟨v, _, hchange⟩ := hstep.change
  · exact ⟨e, Prod.ext hreply hdb⟩
  · cases hchange with
    | reserved _ hnone =>
      rw [hfind] at hnone
      cases hnone
    | reservedBefore hold _ _ hreserved =>
      obtain rfl := Option.some.inj (hfind.symm.trans hold)
      exact absurd hreserved hstate

/-- How often calls have released the reservation of the volume. -/
def releases (volume : String) (calls : List Call) : ℕ := calls.countP (·.releases volume)

/-- By induction on the calls, each release is counted once. -/
theorem releases_run {start : Db} {calls : List Call} (h : start.Accounts)
    (hrun : Trace (Step parse) start calls db) (volume : String) :
    (start.released volume).toNat + releases volume calls = (db.released volume).toNat := by
  induction hrun with
  | nil => rfl
  | @snoc calls db₁ db₂ c hrun hs ih =>
    have haccounts : db₁.Accounts := hrun.invariant h fun hI hs => hI.step_run hs
    rw [releases, List.countP_append, List.countP_singleton, ← add_assoc]
    rw [releases] at ih
    rw [ih]
    obtain ⟨a, reply⟩ := c
    obtain ⟨e, hreply, rfl⟩ | ⟨v, hreply, hchange⟩ := hs.change
    · obtain rfl : reply = .error e := hreply
      have : Call.releases ⟨a, .error e⟩ volume = false := by
        unfold Call.releases
        split
        · rename_i heq
          cases heq
        · rfl
      rw [this]
      rfl
    · obtain rfl : reply = .ok v := hreply
      rw [released_change haccounts hchange volume]
      cases Call.releases ⟨a, .ok v⟩ volume <;> rfl

/-- Over every history: an admission leaves its owner within the quota, and both paths compute the
exact total; unreleased reservations of one name are one; a volume is not reserved again once it
is deleted or released; releases and reclamations are final; each reservation is released
at most once, by the call that says so; and a retirement proof removes a sandbox only with the
first release of its volume. -/
theorem storage_reservation_ledger {start : Db} {calls : List Call} (hstart : start.Opened)
    (hrun : Trace (Step parse) start calls db) :
    (∀ c db' v owner, Step parse db c db' → c.reply = .ok v → c.admits owner = true →
      db'.Within owner) ∧
    (∀ owner bytes n, db.reserveTotal owner bytes = .ok n ∨ db.imageTotal owner bytes = .ok n →
      n = db.charged owner + bytes ∧ n < 2 ^ 63) ∧
    (∀ r ∈ db.reservations, ∀ r' ∈ db.reservations, r.sandboxId = r'.sandboxId →
      r.logicalReleased = false → r'.logicalReleased = false → r = r') ∧
    (∀ volume r later db', db.find volume = some r → Trace (Step parse) db later db' →
      (r.state ≠ .reserved ∨ r.logicalReleased = true → ∀ owner sandbox bytes now, ∃ e,
        db'.run parse (.reserveReplicatedVolume owner sandbox volume bytes now) =
          (.error e, db')) ∧
      ∃ r', db'.find volume = some r' ∧ (r.logicalReleased = true → r'.logicalReleased = true) ∧
        (r.state = .reclaimed → r'.state = .reclaimed)) ∧
    (∀ r ∈ db.reservations, r.state = .reclaimed → r.logicalReleased = true) ∧
    (∀ volume, (start.released volume).toNat + releases volume calls =
      (db.released volume).toNat) ∧
    (∀ c db' owner volume released complete, Step parse db c db' →
      c.action = .confirmReplicatedRetirement owner volume released complete →
      ∀ s ∈ db.sandboxes, s ∉ db'.sandboxes → c.releases volume = true ∧
        db.released volume = false ∧ db'.released volume = true ∧
        ∃ r, db.find volume = some r ∧ s.id = r.sandboxId) := by
  have haccounts : db.Accounts :=
    hrun.invariant hstart.accounts fun hI hs => hI.step_run hs
  refine ⟨fun c db' v owner hs hok hadmits => haccounts.admits hs hok hadmits, ?_, haccounts.unique,
    ?_, haccounts.reclaimed, releases_run hstart.accounts hrun, ?_⟩
  · rintro owner bytes n (htotal | htotal)
    · exact reserveTotal_ok haccounts.reclaimed htotal
    · exact imageTotal_ok htotal
  · intro volume r later db' hfind hlater
    obtain ⟨r', hr', hgoes⟩ := haccounts.find_run hlater hfind
    refine ⟨fun hused owner sandbox bytes now => ?_, r', hr', hgoes.released, hgoes.reclaimed⟩
    refine reserve_refused hr' fun hreserved => ?_
    have hbefore := hgoes.reserved hreserved
    have hunreleased := haccounts.reserved r (Table.row_mem hfind).1 hbefore
    obtain hstate | hreleased := hused
    · exact hstate hbefore
    · rw [hreleased] at hunreleased
      cases hunreleased
  · intro c db' owner volume released complete hs haction s hmem hgone
    obtain ⟨a, reply⟩ := c
    obtain ⟨_, _, rfl⟩ | ⟨v, hreply, hchange⟩ := hs.change
    · exact absurd hmem hgone
    obtain rfl : reply = .ok v := hreply
    obtain ⟨hreleases, r, hfind, hunreleased, hid⟩ := sandbox_kept hchange haction hmem hgone
    have hbefore : db.released volume = false := by
      rw [Db.released, hfind]
      exact hunreleased
    have hafter := released_change haccounts hchange volume
    rw [hreleases, hbefore] at hafter
    refine ⟨hreleases, hbefore, ?_, r, hfind, hid⟩
    cases hnow : db'.released volume with
    | true => rfl
    | false =>
      rw [hnow] at hafter
      cases hafter

section Sample

/-- A user with a quota of 100 MiB and a volume of 10 MiB. -/
def sampleStart : Db :=
  { users := [⟨"alice", 100⟩], volumes := [⟨"data", "alice", 10⟩] }

/-- A volume id of one digit. -/
def sampleVolume (c : Char) : String := String.ofList (List.replicate 64 c)

/-- A disk is retired, its name is used again, and its last proof comes late. -/
def sampleActions : List Action :=
  [.reserveReplicatedVolume "alice" "vm" (sampleVolume 'a') 65536 1, .createSandbox "vm" "alice",
    .deleteReplicatedReservation "alice" (sampleVolume 'a'),
    .confirmReplicatedRetirement "alice" (sampleVolume 'a') true false,
    .reserveReplicatedVolume "alice" "vm" (sampleVolume 'b') 65536 2, .createSandbox "vm" "alice",
    .confirmReplicatedRetirement "alice" (sampleVolume 'a') true true, .reopen]

theorem storage_reservation_ledger_sample :
    ∃ calls db, Trace (Step fun _ => none) sampleStart calls db ∧
      db.sandboxes = [⟨"vm", "alice"⟩] ∧ releases (sampleVolume 'a') calls = 1 ∧
      (sampleStart.released (sampleVolume 'a')).toNat + releases (sampleVolume 'a') calls =
        (db.released (sampleVolume 'a')).toNat := by
  have hstart : sampleStart.Opened := Db.opened_of_empty rfl rfl
  have hrun := history_trace (fun _ => none) sampleActions sampleStart
  obtain ⟨_, _, _, _, _, hreleases, _⟩ := storage_reservation_ledger hstart hrun
  exact ⟨_, _, hrun, by decide +kernel, by decide +kernel, hreleases _⟩

end Sample

end AgentHouse.Ledger
