import AgentHouse.Engine.Registry

/-!
# The manifest of a registry entry

A checkpoint writes its snapshot id into the manifest of the bundle. The manifest is moved and
copied with the bundle, so the registry holds the same id under the same name.
-/

namespace AgentHouse.Engine

open AgentHouse.Regions AgentHouse.Regions.Proc

variable {p q r : Path} {l : List Entry} {node : Node}

/-- A path that an edit by `f` leaves alone. -/
theorem lookup_filter {keep : Entry → Bool} (h : ∀ e, e.1 = r → keep e = true) :
    lookup r (l.filter keep) = lookup r l := by
  rw [lookup, lookup, List.find?_filter]
  refine congrArg (fun f => (l.find? f).map Prod.snd) (funext fun e => ?_)
  by_cases he : e.1 = r
  · simp [h e he, beq_eq_decide]
  · simp [he]

theorem not_below_of {e : Entry} (h : ¬ p <+: r) (he : e.1 = r) : below p e = false := by
  rw [below, he]
  exact Bool.eq_false_iff.mpr fun hpre => h (List.isPrefixOf_iff_prefix.mp hpre)

/-- Removing a tree leaves the files beside it. -/
theorem lookup_removed (h : ¬ p <+: r) :
    lookup r (l.filter fun e => !below p e) = lookup r l :=
  lookup_filter fun _ he => by rw [not_below_of h he]; rfl

/-- The first entry of a path counts. -/
theorem lookup_append (l m : List Entry) :
    lookup r (l ++ m) = (lookup r l).or (lookup r m) := by
  rw [lookup, lookup, lookup, List.find?_append]
  cases l.find? fun e => e.1 == r <;> rfl

theorem lookup_none (h : ∀ e ∈ l, e.1 ≠ r) : lookup r l = none := by
  rw [lookup, List.find?_eq_none.mpr fun e he => by simp [h e he]]
  rfl

/-- What is moved is found under its new path. -/
theorem lookup_moved (rest : Path) (l : List Entry) :
    lookup (q ++ rest) ((l.filter (below p)).map (moved p q)) = lookup (p ++ rest) l := by
  rw [lookup, lookup, List.find?_map, List.find?_filter, Option.map_map]
  have hpred : (fun e : Entry =>
      decide (below p e = true ∧ ((fun e : Entry => e.1 == q ++ rest) ∘ moved p q) e = true)) =
      fun e => e.1 == p ++ rest := by
    funext e
    by_cases hbelow : below p e = true
    · obtain ⟨tail, htail⟩ := List.isPrefixOf_iff_prefix.mp hbelow
      simp [hbelow, moved, ← htail, beq_eq_decide]
    · have : e.1 ≠ p ++ rest := by
        rintro heq
        rw [below, heq, List.isPrefixOf_iff_prefix] at hbelow
        exact hbelow (List.prefix_append p rest)
      simp [hbelow, this]
  rw [hpred]
  rfl

/-- A renamed tree is found under its new path. -/
theorem lookup_renamed (rest : Path) (hpq : ¬ q <+: p ++ rest) :
    lookup (q ++ rest) ((l.filter fun e => !below q e).map
      fun e => if below p e then moved p q e else e) = lookup (p ++ rest) l := by
  rw [lookup, lookup, List.find?_map, List.find?_filter, Option.map_map]
  have hpred : (fun e : Entry => decide ((!below q e) = true ∧
      ((fun e : Entry => e.1 == q ++ rest) ∘ fun e => if below p e then moved p q e else e) e
        = true)) = fun e => e.1 == p ++ rest := by
    funext e
    by_cases hq : below q e = true
    · have : e.1 ≠ p ++ rest := by
        rintro heq
        rw [below, heq, List.isPrefixOf_iff_prefix] at hq
        exact hpq hq
      simp [hq, this]
    · have hne : e.1 ≠ q ++ rest := by
        rintro heq
        rw [below, heq, List.isPrefixOf_iff_prefix] at hq
        exact hq (List.prefix_append q rest)
      by_cases hp : below p e = true
      · obtain ⟨tail, htail⟩ := List.isPrefixOf_iff_prefix.mp hp
        simp [hq, hp, moved, ← htail, beq_eq_decide]
      · have : e.1 ≠ p ++ rest := by
          rintro heq
          rw [below, heq, List.isPrefixOf_iff_prefix] at hp
          exact hp (List.prefix_append p rest)
        simp [hq, hp, hne, this]
  rw [hpred]
  congr 1
  funext e
  rw [Function.comp_apply]
  split <;> rfl

/-- Files beside both paths stay where they are. -/
theorem lookup_rename_other (hp : ¬ p <+: r) (hq : ¬ q <+: r) :
    lookup r ((l.filter fun e => !below q e).map
      fun e => if below p e then moved p q e else e) = lookup r l := by
  rw [lookup, lookup, List.find?_map, List.find?_filter, Option.map_map]
  have hpred : (fun e : Entry => decide ((!below q e) = true ∧
      ((fun e : Entry => e.1 == r) ∘ fun e => if below p e then moved p q e else e) e = true)) =
      fun e => e.1 == r := by
    funext e
    by_cases he : e.1 = r
    · simp [not_below_of hp he, not_below_of hq he, he]
    · have : (if below p e then moved p q e else e).1 ≠ r := by
        split
        · rintro heq
          exact hq (heq ▸ List.prefix_append q _)
        · exact he
      simp [he, this]
  rw [hpred]
  congr 1
  funext e
  rw [Function.comp_apply]
  split <;> rfl

/-- A copied tree is found under the path of the copy. -/
theorem lookup_copied (rest : Path) (h : lookup (p ++ rest) l = some node) :
    lookup (q ++ rest) ((l.filter fun e => !(copies p q l).any fun c => c.1 == e.1) ++
      copies p q l) = some node := by
  have hcopy : lookup (q ++ rest) (copies p q l) = some node := by rw [copies, lookup_moved, h]
  rw [lookup_append, hcopy, lookup_none, Option.none_or]
  intro e he heq
  -- the copy has replaced what was there
  obtain ⟨c, hc, -⟩ := Option.map_eq_some_iff.mp hcopy
  have hkeep := (List.mem_filter.mp he).2
  rw [Bool.not_eq_true', List.any_eq_false] at hkeep
  refine hkeep c (List.mem_of_find?_eq_some hc) ?_
  have hpath := List.find?_some hc
  rw [beq_iff_eq, heq]
  exact beq_iff_eq.mp hpath

/-! ## The calls on the way -/

section Ends

variable {p q r : Path} {node : Node} {P : Backend → Prop}

/-- The path holds the node. -/
def Holds (r : Path) (node : Node) (s : Backend) : Prop := lookup r s.entries = some node

/-- A written file holds what was written. -/
theorem write_ends : Ends P (write p node) fun _ => Holds p node := by
  refine .edit fun s _ => ?_
  show lookup p ((s.entries.filter fun e => !(e.1 == p)) ++ [(p, node)]) = some node
  rw [lookup_append, lookup_none fun e he heq => ?_, Option.none_or]
  · simp [lookup]
  · have := (List.mem_filter.mp he).2
    simp [heq] at this

/-- A renamed tree keeps its files. -/
theorem rename_ends (rest : Path) (h : ¬ q <+: p ++ rest) :
    Ends (Holds (p ++ rest) node) (rename p q) fun _ => Holds (q ++ rest) node :=
  .edit fun _ hs => (lookup_renamed rest h).trans hs

theorem rename_ends_at (h : ¬ q <+: p) :
    Ends (Holds p node) (rename p q) fun _ => Holds q node := by
  have := @rename_ends p q node [] (by rwa [List.append_nil])
  rwa [List.append_nil, List.append_nil] at this

theorem rename_keeps (hp : ¬ p <+: r) (hq : ¬ q <+: r) :
    Ends (Holds r node) (rename p q) fun _ => Holds r node :=
  .edit fun _ hs => (lookup_rename_other hp hq).trans hs

theorem removeTree_keeps (h : ¬ p <+: r) :
    Ends (Holds r node) (removeTree p) fun _ => Holds r node :=
  .edit fun _ hs => (lookup_removed h).trans hs

theorem present_keeps : Ends P (present p) fun _ => P := .view fun _ hs => hs

/-- So does a copied one. -/
theorem copy_ends (rest : Path) :
    Ends (Holds (p ++ rest) node) (copy p q) fun _ => Holds (q ++ rest) node :=
  .edit fun _ hs => lookup_copied rest hs

theorem createDirs_keeps : Ends (Holds r node) (createDirs p) fun _ => Holds r node := by
  refine .edit fun s hs => ?_
  show lookup r (s.entries ++ _) = some node
  rw [lookup_append, hs, Option.some_or]

/-- The manifest that is read is the one of the bundle. -/
theorem readManifest_ends {bundle : Path} {n : String} :
    Ends (Holds (sidecar bundle) (.manifest n)) (readManifest bundle) fun m _ => m = n := by
  intro s t m hs hrun
  rw [readManifest, view_bind, show lookup (sidecar bundle) s.entries = some (.manifest n) from hs]
    at hrun
  cases hrun
  rfl

end Ends

variable {id n : String} {live : Live}

/-- Two places in the directory of a sandbox, by their first components. -/
theorem apart_in {x y : String} {rest : Path} (h : x ≠ y) :
    ¬ sandboxDir id ++ [x] <+: sandboxDir id ++ y :: rest := by
  rw [List.prefix_append_right_inj, List.cons_prefix_cons]
  exact fun hpre => h hpre.1

/-- Recovery touches only the bundle and its old copy. -/
theorem recoverBundle_keeps {y : String} {rest : Path} {node : Node} (hold : "bundle.old" ≠ y)
    (hbundle : "bundle" ≠ y) :
    Ends (Holds (sandboxDir id ++ y :: rest) node) (recoverBundle id)
      fun _ => Holds (sandboxDir id ++ y :: rest) node :=
  .bind present_keeps fun _ => .only <| .bind present_keeps fun _ =>
    .bind (.only (rename_keeps (apart_in hold) (apart_in hbundle))) fun _ =>
    .bind present_keeps fun _ => .only (removeTree_keeps (apart_in hold))

/-- Publication brings the manifest of the generation into the bundle. -/
theorem publishBundle_ends :
    Ends (Holds (sidecar (sandboxDir id ++ Temporary.pending.path)) (.manifest n))
      (publishBundle id (sandboxDir id ++ Temporary.pending.path))
      fun _ => Holds (sidecar (bundleDir id)) (.manifest n) := by
  have hgen : sidecar (sandboxDir id ++ Temporary.pending.path) =
      sandboxDir id ++ "bundle.pending" :: ["ahvm-manifest.json"] := rfl
  have hbundle : sidecar (bundleDir id) =
      sandboxDir id ++ "bundle" :: ["ahvm-manifest.json"] := rfl
  have hrename := @rename_ends (sandboxDir id ++ Temporary.pending.path) (bundleDir id)
    (.manifest n)
    ["ahvm-manifest.json"] (apart_in (by decide))
  rw [hgen, hbundle]
  exact .bind (recoverBundle_keeps (by decide) (by decide)) fun _ =>
    .bind present_keeps fun _ => .bind (.only (rename_keeps (apart_in (by decide))
      (apart_in (by decide)))) fun _ => .bind hrename fun _ =>
    .bind present_keeps fun _ => .only (removeTree_keeps (apart_in (by decide)))

/-- A checkpoint leaves a manifest with its own name. -/
theorem checkpoint_ends {P : Backend → Prop} :
    Ends P (checkpoint id live n) fun _ => Holds (sidecar (bundleDir id)) (.manifest n) := by
  refine .after fun _ => .after fun _ => .after fun _ => .after fun _ => .after fun _ =>
    .after fun _ => .after fun _ => .after fun _ => .after fun _ => .bind write_ends fun _ =>
    .bind (rename_ends_at ?_) fun _ => publishBundle_ends
  simp [sidecar]

theorem snapshotLive_ends {P : Backend → Prop} :
    Ends P (snapshotLive id live n) fun _ => Holds (sidecar (bundleDir id)) (.manifest n) :=
  .ite .fail (.after fun _ => checkpoint_ends)

/-- The published manifest is the one that is read back. -/
theorem publish_ends (hid : id ≠ "snapshots") :
    Ends (Holds (sidecar (bundleDir id)) (.manifest n)) (publish id n) fun m _ => m = n := by
  have hstaging : ¬ stagingDir n <+: sidecar (bundleDir id) := by
    simp [stagingDir, registry, sidecar, bundleDir, sandboxDir, Ne.symm hid]
  have hdir : ¬ registryDir n <+: stagingDir n ++ ["ahvm-manifest.json"] := by
    have : tmp n ≠ n := by
      intro h
      have := congrArg String.utf8ByteSize h
      rw [tmp, String.utf8ByteSize_append] at this
      have hsize : ".tmp".utf8ByteSize = 4 := by decide
      omega
    simp [stagingDir, registry, registryDir, Ne.symm this]
  have hmake : Ends (Holds (sidecar (bundleDir id)) (.manifest n)) (do
      copy (bundleDir id) (stagingDir n)
      createDirs (stagingDir n)
      rename (stagingDir n) (registryDir n)
      readManifest (registryDir n)) fun m _ => m = n :=
    .bind (copy_ends _) fun _ => .bind createDirs_keeps fun _ =>
      .bind (rename_ends _ hdir) fun _ => readManifest_ends
  exact .bind (removeTree_keeps hstaging) fun _ => .bind (.cleaning hmake) fun _ =>
    .bind (.assign fun _ h => h) fun _ => .pure fun _ h => h

/-- What is published under a name has that name in its manifest. -/
theorem snapshotToRegistry_ends {P : Backend → Prop} (hid : id ≠ "snapshots") :
    Ends P (snapshotToRegistry id n) fun m _ => m = n :=
  .after fun _ => .bind snapshotLive_ends fun _ => .bind present_keeps fun _ =>
    .ite .fail (publish_ends hid)

end AgentHouse.Engine
