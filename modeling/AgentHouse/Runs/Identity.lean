import AgentHouse.Runs.Cursor

/-!
# The identity of checkpoints

What an accepted record has passed, and that checkpoints which go on from each other keep their
identity. A checkpoint is stored as it is printed and read again: of that only the plain fields are
kept for certain, and identities are plain.
-/

namespace AgentHouse.Runs

variable {parse : String → Option Json} {reads : List UInt8 → Option Json} {id : String}

section Records

variable {run : ManagedRun} {hash : String} {source source' : Source} {line : List UInt8}

/-- What an accepted record has passed. -/
structure Accepted (parse : String → Option Json) (reads : List UInt8 → Option Json)
    (run : ManagedRun) (hash : String) (source : Source) (line : List UInt8) (seq : ℕ)
    (record checkpoint normal : Json) : Prop where
  read : reads line = some record
  candidate : recordCheckpoint parse record source.checkpointJson = some checkpoint
  valid : validateCheckpoint checkpoint run hash = true
  goesOn : ∀ text, source.checkpointJson = some text →
    ∃ previous, parse text = some previous ∧ continues previous checkpoint = true
  normal : parse checkpoint.render = some normal
  seq : seq = source.guestSeq + 1

/-- What is accepted of a guest's line. -/
theorem guestRecord_ok {seq : ℕ} {normal : Json}
    (h : guestRecord parse reads line source run hash = some (seq, normal)) :
    ∃ record checkpoint, Accepted parse reads run hash source line seq record checkpoint
      normal := by
  unfold guestRecord at h
  split at h
  · cases h
  obtain ⟨record, hread, h⟩ := Option.bind_eq_some_iff.mp h
  dsimp only at h
  split at h
  swap
  · cases h
  obtain ⟨fields, -, h⟩ := Option.bind_eq_some_iff.mp h
  obtain ⟨n, hseq, h⟩ := Option.bind_eq_some_iff.mp h
  split at h
  · cases h
  obtain ⟨checkpoint, hcandidate, h⟩ := Option.bind_eq_some_iff.mp h
  split at h
  · cases h
  rename_i hvalid
  rw [not_not] at hvalid
  have hseq : n = source.guestSeq + 1 := by simpa using (Option.filter_eq_some_iff.mp hseq).2
  split at h
  · rename_i hfirst
    obtain ⟨unchanged, -, h⟩ := Option.bind_eq_some_iff.mp h
    split at h
    · cases h
    obtain ⟨value, hnormal, h⟩ := Option.bind_eq_some_iff.mp h
    obtain ⟨rfl, rfl⟩ := Prod.mk.inj (Option.some.inj h)
    refine ⟨_, checkpoint, hread, hcandidate, hvalid, ?_, hnormal, hseq⟩
    intro text htext
    cases hfirst.symm.trans htext
  · rename_i text htext
    obtain ⟨unchanged, hunchanged, h⟩ := Option.bind_eq_some_iff.mp h
    obtain ⟨previous, hprevious, hgoes⟩ := Option.map_eq_some_iff.mp hunchanged
    split at h
    · cases h
    rename_i hsame
    rw [not_not] at hsame
    obtain ⟨value, hnormal, h⟩ := Option.bind_eq_some_iff.mp h
    obtain ⟨rfl, rfl⟩ := Prod.mk.inj (Option.some.inj h)
    refine ⟨_, checkpoint, hread, hcandidate, hvalid, ?_, hnormal, hseq⟩
    intro text' htext'
    obtain rfl := Option.some.inj (htext.symm.trans htext')
    exact ⟨previous, hprevious, hgoes.trans hsame⟩

/-- What the stored lines leave in the stream. -/
def lastSource (taken : List (List UInt8 × String)) : Source :=
  ⟨taken.length, taken.getLast?.map Prod.snd⟩

/-- The source is the one of the last line. -/
theorem takes_source {taken : List (List UInt8 × String)}
    (h : Trace (Takes parse reads run hash) {} taken source) : source = lastSource taken := by
  induction h with
  | nil => rfl
  | @snoc taken s s' p h hs ih =>
    obtain ⟨checkpoint, hrecord, -, hlast⟩ := hs
    obtain ⟨record, candidate, haccepted⟩ := guestRecord_ok hrecord
    have hseq := haccepted.seq
    rw [ih] at hseq
    obtain ⟨seq, text⟩ := s'
    dsimp only at hseq hlast
    rw [lastSource, List.getLast?_concat, List.length_append, hseq, hlast]
    rfl

/-- The fold begins with what is stored, and goes on from there. -/
theorem foldLines_takes {taken : List (List UInt8 × String)}
    (h : Trace (Takes parse reads run hash) source taken source') (rest : List (List UInt8)) :
    foldLines parse reads run hash (taken.map Prod.fst ++ rest) source =
      taken.map Prod.snd ++ foldLines parse reads run hash rest source' := by
  induction h generalizing rest with
  | nil => rfl
  | @snoc taken s s' p h hs ih =>
    obtain ⟨checkpoint, hrecord, htext, hlast⟩ := hs
    obtain ⟨line, text⟩ := p
    dsimp only at htext hlast hrecord
    rw [List.map_append, List.append_assoc, ih, List.map_append, List.append_assoc]
    congr 1
    obtain ⟨seq, json⟩ := s'
    dsimp only at hlast hrecord
    rw [hlast]
    change foldLines parse reads run hash (line :: rest) s = _
    rw [foldLines, hrecord, htext]
    rfl

end Records

section Plain

/-- A field that is absent, a string or the number one. -/
def plain : Option Json → Bool
  | none => true
  | some (.str _) => true
  | some (.num text) => text = "1"
  | _ => false

/-- The member at a path of keys. -/
def member : List String → Json → Option Json
  | [], value => some value
  | key :: path, value => (value.get? key).bind (member path)

/-- The plain members of a document are those of another. -/
def KeepsPlain (value value' : Json) : Prop :=
  ∀ path, plain (member path value) = true → member path value' = member path value

/-- What the code relies on in the parser: a document that was read can be printed and read
again, and so can the candidate of a record that is read at all; the plain members stay. -/
structure ReadsBack (parse : String → Option Json) (reads : List UInt8 → Option Json) : Prop where
  stored : ∀ text value, parse text = some value →
    ∃ value', parse value.render = some value' ∧ KeepsPlain value value'
  candidate : ∀ line record text checkpoint normal, reads line = some record →
    recordCheckpoint parse record text = some checkpoint →
    parse checkpoint.render = some normal → KeepsPlain checkpoint normal

theorem member_singleton (key : String) (value : Json) : member [key] value = value.get? key := by
  rw [member]
  cases value.get? key <;> rfl

/-- A plain member is kept. -/
theorem KeepsPlain.get {value value' : Json} (h : KeepsPlain value value') {key : String}
    (hplain : plain (value.get? key) = true) : value'.get? key = value.get? key := by
  have hkeep := h [key]
  rw [member_singleton, member_singleton] at hkeep
  exact hkeep hplain

theorem KeepsPlain.trans {value value' value'' : Json} (h : KeepsPlain value value')
    (h' : KeepsPlain value' value'') : KeepsPlain value value'' := by
  intro path hplain
  have hsame := h path hplain
  rw [h' path (by rw [hsame]; exact hplain), hsame]

/-- Below a member that is a document in both. -/
theorem KeepsPlain.member {value value' part part' : Json} (h : KeepsPlain value value')
    {key : String} (hpart : value.get? key = some part) (hpart' : value'.get? key = some part') :
    KeepsPlain part part' := by
  intro path hplain
  have hkeep := h (key :: path)
  rw [Runs.member, hpart, Runs.member, hpart'] at hkeep
  exact hkeep hplain

end Plain

section Valid

variable {value : Json} {key : String} {run : ManagedRun} {hash : String}

/-- A member that reads as a string is that string. -/
theorem get_of_asStr {text : String} (h : (value.index key).asStr = some text) :
    value.get? key = some (.str text) := by
  unfold Json.index at h
  cases hget : value.get? key with
  | none =>
    rw [hget] at h
    cases h
  | some part =>
    rw [hget, Option.getD_some] at h
    cases part with
    | str s => rw [Option.some.inj h]
    | _ => cases h

/-- A checked string is plain. -/
theorem plain_of_any {check : String → Bool} (h : (value.index key).asStr.any check = true) :
    plain (value.get? key) = true := by
  obtain ⟨text, htext, -⟩ := (Option.any_eq_true _ _).mp h
  rw [get_of_asStr htext]
  rfl

theorem get_schema (h : schemaOne value = true) : value.get? "schema" = some (.num "1") := by
  unfold schemaOne Json.index at h
  rw [decide_eq_true_iff] at h
  cases hget : value.get? "schema" with
  | none =>
    rw [hget] at h
    cases h
  | some part =>
    rw [hget, Option.getD_some] at h
    rw [h]

/-- A key that is not allowed is absent. -/
theorem absent_of_onlyKeys {allowed : List String} (h : onlyKeys value allowed = true)
    (hkey : key ∉ allowed) : value.get? key = none := by
  cases value with
  | obj fields =>
    rw [Json.get?, List.lookup_eq_none_iff]
    intro f hf
    have hin := List.all_eq_true.mp h f hf
    rw [bne_iff_ne, ne_eq]
    rintro rfl
    exact hkey (List.contains_iff_mem.mp hin)
  | _ => cases h

/-- The identity of a valid checkpoint is plain. -/
theorem valid_plain (h : validateCheckpoint value run hash = true) (hkey : key ∈ identityKeys) :
    plain (value.get? key) = true := by
  have hbound (hb : bound value run hash = true) (hkey : key ∈ ["schema", "runId", "requestHash",
      "bootId"]) : plain (value.get? key) = true := by
    simp only [bound, Bool.and_eq_true, hasText, decide_eq_true_eq] at hb
    obtain ⟨⟨⟨⟨hschema, hrun⟩, hhash⟩, hboot⟩, hsome⟩ := hb
    obtain ⟨boot, hb⟩ := Option.isSome_iff_exists.mp hsome
    simp only [List.mem_cons, List.not_mem_nil, or_false] at hkey
    obtain rfl | rfl | rfl | rfl := hkey
    · rw [get_schema hschema]
      rfl
    · rw [get_of_asStr hrun]
      rfl
    · rw [get_of_asStr hhash]
      rfl
    · rw [get_of_asStr (hboot.trans hb)]
      rfl
  have habsent {allowed : List String} (honly : onlyKeys value allowed = true)
      (hkey : key ∉ allowed) : plain (value.get? key) = true := by
    rw [absent_of_onlyKeys honly hkey]
    rfl
  unfold validateCheckpoint at h
  unfold identityKeys at hkey
  split at h
  · simp only [validateBuild, Bool.and_eq_true] at h
    obtain ⟨⟨⟨⟨⟨⟨⟨⟨⟨⟨⟨honly, hb⟩, hkind⟩, hharness⟩, hbuild⟩, -⟩, hproject⟩, -⟩, -⟩, -⟩, -⟩, -⟩ := h
    simp only [hasText, decide_eq_true_eq] at hkind hharness hbuild
    simp only [List.mem_cons, List.not_mem_nil, or_false] at hkey
    obtain rfl | rfl | rfl | rfl | rfl | rfl | rfl | rfl | rfl | rfl := hkey
    · exact hbound hb (by decide)
    · rw [get_of_asStr hharness]
      rfl
    · exact hbound hb (by decide)
    · exact hbound hb (by decide)
    · exact habsent honly (by decide)
    · exact habsent honly (by decide)
    · exact hbound hb (by decide)
    · rw [get_of_asStr hkind]
      rfl
    · rw [get_of_asStr hbuild]
      rfl
    · exact plain_of_any hproject
  · simp only [Bool.and_eq_true] at h
    obtain ⟨⟨⟨⟨⟨⟨⟨⟨⟨⟨⟨⟨honly, hb⟩, hsession⟩, hmessage⟩, hharness⟩, -⟩, -⟩, -⟩, -⟩, -⟩, -⟩,
      -⟩, -⟩ := h
    simp only [List.mem_cons, List.not_mem_nil, or_false] at hkey
    obtain rfl | rfl | rfl | rfl | rfl | rfl | rfl | rfl | rfl | rfl := hkey
    · exact hbound hb (by decide)
    · cases hget : value.get? "harness" with
      | none => rfl
      | some part =>
        rw [absentOr, hget] at hharness
        obtain ⟨text, htext, -⟩ := (Option.any_eq_true _ _).mp hharness
        cases part with
        | str => rfl
        | _ => cases htext
    · exact hbound hb (by decide)
    · exact hbound hb (by decide)
    · exact plain_of_any hsession
    · exact plain_of_any hmessage
    · exact hbound hb (by decide)
    · exact habsent honly (by decide)
    · exact habsent honly (by decide)
    · exact habsent honly (by decide)

/-- The environment of a valid checkpoint is valid. -/
theorem valid_environment (h : validateCheckpoint value run hash = true) {environment : Json}
    (hget : value.get? "environment" = some environment) : validProjection environment = true := by
  unfold validateCheckpoint at h
  split at h
  · simp only [validateBuild, Bool.and_eq_true] at h
    obtain ⟨⟨⟨⟨⟨⟨⟨⟨⟨⟨⟨honly, -⟩, -⟩, -⟩, -⟩, -⟩, -⟩, -⟩, -⟩, -⟩, -⟩, -⟩ := h
    have hnone : value.get? "environment" = none := absent_of_onlyKeys honly (by decide)
    cases hnone.symm.trans hget
  · simp only [Bool.and_eq_true] at h
    obtain ⟨⟨⟨-, henvironment⟩, -⟩, -⟩ := h
    rw [absentOr, hget] at henvironment
    exact henvironment

/-- The identity of a valid environment is plain. -/
theorem projection_plain (h : validProjection value = true)
    (hkey : key ∈ ["schema", "projectId", "revisionId"]) : plain (value.get? key) = true := by
  simp only [validProjection, Bool.and_eq_true] at h
  obtain ⟨⟨⟨⟨⟨-, hschema⟩, hproject⟩, hrevision⟩, -⟩, -⟩ := h
  simp only [List.mem_cons, List.not_mem_nil, or_false] at hkey
  obtain rfl | rfl | rfl := hkey
  · rw [get_schema hschema]
    rfl
  · exact plain_of_any hproject
  · exact plain_of_any hrevision

end Valid

section Continues

variable {previous value value' : Json} {run : ManagedRun} {hash : String}

/-- The provenance that is known stays. -/
theorem unchangedProvenance_iff : unchangedProvenance previous value = true ↔
    ∀ key ∈ ["sourceCommit", "revisionId", "hookDigest"], ∀ text,
      previous.get? key = some (.str text) → value.get? key = some (.str text) := by
  unfold unchangedProvenance
  rw [List.all_eq_true]
  refine forall₂_congr fun key _ => ?_
  constructor
  · intro h text htext
    rw [htext] at h
    simpa [Json.isString, eq_comm] using h
  · intro h
    cases hget : previous.get? key with
    | none => rfl
    | some part =>
      cases part with
      | str text =>
        rw [h text hget]
        simp
      | _ => rfl

/-- What one checkpoint keeps of an earlier one. -/
structure Continued (previous value : Json) : Prop where
  keys : ∀ key ∈ identityKeys, value.get? key = previous.get? key
  environment : ∀ before, previous.get? "environment" = some before →
    ∃ after, value.get? "environment" = some after ∧
      (∀ key ∈ ["schema", "projectId", "revisionId"], before.get? key = after.get? key) ∧
      unchangedProvenance before after = true
  provenance : hasText previous "harness" "environment" = true →
    unchangedProvenance previous value = true

/-- The test of a continuation, as a statement. -/
theorem continues_iff : continues previous value = true ↔ Continued previous value := by
  have hrest : unchangedIdentity previous value = true ↔
      (∀ before, previous.get? "environment" = some before →
        ∃ after, value.get? "environment" = some after ∧
          (∀ key ∈ ["schema", "projectId", "revisionId"], before.get? key = after.get? key) ∧
          unchangedProvenance before after = true) ∧
      (hasText previous "harness" "environment" = true →
        unchangedProvenance previous value = true) := by
    unfold unchangedIdentity
    rw [Bool.and_eq_true, Bool.or_eq_true, Bool.not_eq_true', ← Bool.not_eq_true, ← imp_iff_not_or]
    refine and_congr_left fun _ => ?_
    cases previous.get? "environment" with
    | none => simp
    | some before =>
      cases value.get? "environment" with
      | none => simp
      | some after =>
        simp only [Bool.and_eq_true, List.all_eq_true, decide_eq_true_eq, Option.some.injEq,
          forall_eq', exists_eq_left']
  unfold continues
  rw [Bool.and_eq_true, hrest, List.all_eq_true]
  simp only [decide_eq_true_eq]
  exact ⟨fun h => ⟨h.1, h.2.1, h.2.2⟩, fun h => ⟨h.keys, h.environment, h.provenance⟩⟩

/-- Unchanged provenance composes. -/
theorem provenance_trans {middle : Json} (h : unchangedProvenance previous middle = true)
    (h' : unchangedProvenance middle value = true) : unchangedProvenance previous value = true := by
  rw [unchangedProvenance_iff] at h h' ⊢
  exact fun key hkey text htext => h' key hkey text (h key hkey text htext)

/-- So do continuations. -/
theorem Continued.trans {middle : Json} (h : Continued previous middle)
    (h' : Continued middle value) : Continued previous value := by
  refine ⟨fun key hkey => (h'.keys key hkey).trans (h.keys key hkey), ?_, ?_⟩
  · intro before hbefore
    obtain ⟨between, hbetween, hkeys, hkept⟩ := h.environment before hbefore
    obtain ⟨after, hafter, hkeys', hkept'⟩ := h'.environment between hbetween
    exact ⟨after, hafter, fun key hkey => (hkeys key hkey).trans (hkeys' key hkey),
      provenance_trans hkept hkept'⟩
  · intro hharness
    have hsame : hasText middle "harness" "environment" = true := by
      rw [hasText, Json.index, h.keys "harness" (by decide)]
      exact hharness
    exact provenance_trans (h.provenance hharness) (h'.provenance hsame)

/-- Provenance is plain, and so kept. -/
theorem provenance_kept (h : unchangedProvenance previous value = true)
    (hkeep : KeepsPlain value value') : unchangedProvenance previous value' = true := by
  rw [unchangedProvenance_iff] at h ⊢
  intro key hkey text htext
  have hvalue := h key hkey text htext
  rw [hkeep.get (by rw [hvalue]; rfl), hvalue]

/-- A valid checkpoint keeps the identity when it is printed and read again. -/
theorem Continued.kept (h : Continued previous value)
    (hvalid : validateCheckpoint value run hash = true) (hkeep : KeepsPlain value value') :
    Continued previous value' := by
  refine ⟨?_, ?_, fun hharness => provenance_kept (h.provenance hharness) hkeep⟩
  · intro key hkey
    rw [hkeep.get (valid_plain hvalid hkey), h.keys key hkey]
  · intro before hbefore
    obtain ⟨after, hafter, hkeys, hkept⟩ := h.environment before hbefore
    have hprojection := valid_environment hvalid hafter
    have hschema : after.get? "schema" = some (.num "1") := by
      refine get_schema ?_
      simp only [validProjection, Bool.and_eq_true] at hprojection
      exact hprojection.1.1.1.1.2
    -- the schema below it shows that the environment is still there
    obtain ⟨after', hafter', -⟩ : ∃ after', value'.get? "environment" = some after' ∧
        member ["schema"] after' = some (.num "1") := by
      have hpath : member ["environment", "schema"] value = some (.num "1") := by
        rw [member, hafter, Option.bind_some, member_singleton, hschema]
      have hpath' := hkeep ["environment", "schema"] (by rw [hpath]; rfl)
      rw [hpath] at hpath'
      exact Option.bind_eq_some_iff.mp hpath'
    have hbelow := hkeep.member hafter hafter'
    refine ⟨after', hafter', fun key hkey => ?_, provenance_kept hkept hbelow⟩
    rw [hkeys key hkey, hbelow.get (projection_plain hprojection hkey)]

end Continues

/-- Two stored checkpoints of which the second keeps the identity of the first. -/
def SameIdentity (parse : String → Option Json) (text text' : String) : Prop :=
  ∃ value value', parse text = some value ∧ parse text' = some value' ∧
    continues value value' = true

section Taken

variable {run : ManagedRun} {hash : String} {source : Source}

/-- The last stored checkpoint keeps the identity of every one before it. -/
theorem takes_identity (hback : ReadsBack parse reads) {taken : List (List UInt8 × String)}
    (h : Trace (Takes parse reads run hash) {} taken source) :
    taken.Pairwise (fun p q => SameIdentity parse p.2 q.2) := by
  induction h with
  | nil => exact .nil
  | @snoc taken s s' p h hs ih =>
    obtain ⟨normal, hrecord, htext, -⟩ := hs
    obtain ⟨record, checkpoint, haccepted⟩ := guestRecord_ok hrecord
    obtain ⟨again, hagain, hkeep⟩ := hback.stored _ _ haccepted.normal
    have hkept := (hback.candidate _ _ _ _ _ haccepted.read haccepted.candidate
      haccepted.normal).trans hkeep
    have hread : parse p.2 = some again := htext ▸ hagain
    rw [List.pairwise_append]
    refine ⟨ih, List.pairwise_singleton _ _, fun q hq p' hp' => ?_⟩
    obtain rfl := List.mem_singleton.mp hp'
    -- `q` is the last of the stored ones or stands before it
    obtain rfl | ⟨before, last, rfl⟩ := List.eq_nil_or_concat' taken
    · cases hq
    have hlast : s.checkpointJson = some last.2 := by
      rw [takes_source h, lastSource, List.getLast?_concat]
      rfl
    obtain ⟨previous, hprevious, hgoes⟩ := haccepted.goesOn _ hlast
    have hcontinued := (continues_iff.mp hgoes).kept haccepted.valid hkept
    obtain hq | rfl := List.mem_append.mp hq |>.imp_right List.mem_singleton.mp
    · have hsame := (List.pairwise_append.mp ih).2.2 q hq last List.mem_cons_self
      obtain ⟨value, value', hvalue, hvalue', hbefore⟩ := hsame
      obtain rfl := Option.some.inj (hprevious.symm.trans hvalue')
      have hall := (continues_iff.mp hbefore).trans hcontinued
      exact ⟨value, again, hvalue, hread, continues_iff.mpr hall⟩
    · exact ⟨previous, again, hprevious, hread, continues_iff.mpr hcontinued⟩

end Taken

end AgentHouse.Runs
