import AgentHouse.Forge.Sessions
import Mathlib.Algebra.Order.Group.Nat

/-!
# Output streams are exact

The ring holds the end of what was written, and every frame a piece of it. The frames of a client
follow each other, up to a gap that is reported. Everything was delivered when a frame
closes the stream, if no pump appends while the attach loop looks at the pumps.
-/

namespace AgentHouse.Forge

/-- The ring holds the last bytes of what was written. -/
structure Ring.Holds (ring : Ring) (written : List UInt8) : Prop where
  total : ring.total = written.length
  sum : ring.base + ring.buf.length = ring.total
  buf : ring.buf = written.drop ring.base
  small : ring.buf.length ≤ ringCap

section Ring

variable {ring : Ring} {written : List UInt8}

/-- The ring holds the end of what was written. -/
theorem Ring.Holds.append (h : ring.Holds written) (data : List UInt8) :
    (ring.append data).Holds (written ++ data) := by
  have hbase : ring.base ≤ written.length := by
    have := h.sum
    have := h.total
    omega
  have hbuf : ring.buf ++ data = (written ++ data).drop ring.base := by
    rw [List.drop_append_of_le_length hbase, h.buf]
  have hlength : ring.base + (ring.buf ++ data).length = ring.total + data.length := by
    rw [List.length_append, ← h.sum, add_assoc]
  have htotal : ring.total + data.length = (written ++ data).length := by
    rw [List.length_append, h.total]
  unfold Ring.append
  dsimp only
  split
  · rename_i hlarge
    refine ⟨htotal, ?_, ?_, ?_⟩
    · dsimp only
      rw [List.length_drop]
      omega
    · dsimp only
      rw [hbuf, List.drop_drop]
    · dsimp only
      rw [List.length_drop]
      omega
  · rename_i hsmall
    exact ⟨htotal, hlength, hbuf, not_lt.mp hsmall⟩

/-- What a reader that has `sent` bytes may be given: the bytes from there on, the bytes behind a
gap, or nothing. -/
structure Reading.Reads (read : Reading) (sent : ℕ) (written : List UInt8) : Prop where
  length : read.chunk.length ≤ read.next
  next : read.next ≤ written.length
  chunk : read.chunk <+: written.drop (read.next - read.chunk.length)
  place : read.next - read.chunk.length = sent ∨
    sent < read.next - read.chunk.length ∧ read.truncated = true ∨
    read.next < sent ∧ read.chunk = []

/-- A read gives bytes that were written, from where it says. -/
theorem Ring.Holds.readFrom (h : ring.Holds written) (sent : ℕ) (exit : Option ℤ) :
    (ring.readFrom sent exit).Reads sent written := by
  have hsum := h.sum
  have htotal := h.total
  let start := min (max sent ring.base - ring.base) ring.buf.length
  let stop := min (start + chunkSize) ring.buf.length
  have hstart : start ≤ stop := by
    have : start ≤ ring.buf.length := min_le_right _ _
    omega
  have hlength : (ring.readFrom sent exit).chunk.length = stop - start := by
    change ((ring.buf.drop start).take (stop - start)).length = stop - start
    rw [List.length_take, List.length_drop]
    omega
  have hnext : (ring.readFrom sent exit).next = ring.base + stop := rfl
  have hat : (ring.readFrom sent exit).next - (ring.readFrom sent exit).chunk.length =
      ring.base + start := by
    rw [hlength, hnext]
    omega
  refine ⟨by rw [hlength, hnext]; omega, by rw [hnext]; omega, ?_, ?_⟩
  · rw [hat, ← List.drop_drop, ← h.buf]
    exact List.take_prefix _ _
  · rw [hat]
    by_cases hbeyond : ring.total < sent
    · right; right
      have hstop : stop = ring.buf.length ∧ start = ring.buf.length := by omega
      refine ⟨by rw [hnext]; omega, ?_⟩
      rw [← List.length_eq_zero_iff, hlength]
      omega
    · by_cases hlost : sent < ring.base
      · right; left
        refine ⟨by omega, ?_⟩
        exact decide_eq_true hlost
      · left
        omega

/-- What was read stays when more is written. -/
theorem Reading.Reads.grow {read : Reading} {sent : ℕ} (h : read.Reads sent written)
    (data : List UInt8) : read.Reads sent (written ++ data) := by
  refine ⟨h.length, ?_, ?_, h.place⟩
  · rw [List.length_append]
    exact h.next.trans (Nat.le_add_right _ _)
  · have hle : read.next - read.chunk.length ≤ written.length := (Nat.sub_le _ _).trans h.next
    rw [List.drop_append_of_le_length hle]
    exact h.chunk.trans (List.prefix_append _ _)

end Ring

/-- A frame for a reader that stands at `q`: it goes on there, or behind a gap that it reports; or
it only says that the stream ended before. -/
structure SessionData.Fits (f : SessionData) (written : List UInt8) (q : ℕ) : Prop where
  seq : f.seq ≤ written.length
  data : f.data <+: written.drop f.seq
  place : f.seq = q ∨ q < f.seq ∧ f.truncated = true ∨
    f.seq < q ∧ f.data = [] ∧ f.eof = true

/-- Frames that follow each other from one position to another. -/
inductive Chain (written : List UInt8) (p : ℕ) : List SessionData → ℕ → Prop
  | nil : Chain written p [] p
  | snoc {frames : List SessionData} {q : ℕ} {f : SessionData} (h : Chain written p frames q)
      (hf : f.Fits written q) : Chain written p (frames ++ [f]) (f.seq + f.data.length)

section Chain

variable {written : List UInt8} {p q r : ℕ} {frames frames' : List SessionData} {f : SessionData}

/-- A frame that fits stays so. -/
theorem SessionData.Fits.grow (h : f.Fits written q) (data : List UInt8) :
    f.Fits (written ++ data) q := by
  refine ⟨?_, ?_, h.place⟩
  · rw [List.length_append]
    exact h.seq.trans (Nat.le_add_right _ _)
  · rw [List.drop_append_of_le_length h.seq]
    exact h.data.trans (List.prefix_append _ _)

theorem Chain.grow (h : Chain written p frames q) (data : List UInt8) :
    Chain (written ++ data) p frames q := by
  induction h with
  | nil => exact .nil
  | snoc _ hf ih => exact ih.snoc (hf.grow data)

/-- Chains of frames compose. -/
theorem Chain.trans (h : Chain written p frames q) (h' : Chain written q frames' r) :
    Chain written p (frames ++ frames') r := by
  induction h' with
  | nil =>
    rw [List.append_nil]
    exact h
  | snoc _ hf ih =>
    rw [← List.append_assoc]
    exact ih.snoc hf

theorem Chain.eq_of_nil (h : Chain written p frames q) (hframes : frames = []) : q = p := by
  cases h with
  | nil => rfl
  | snoc => simp at hframes

/-- The first frame of a chain. -/
theorem Chain.uncons (h : Chain written p frames r) (hframes : frames = f :: frames') :
    f.Fits written p ∧ Chain written (f.seq + f.data.length) frames' r := by
  induction h generalizing frames' with
  | nil => cases hframes
  | @snoc frames q g h hg ih =>
    cases frames with
    | nil =>
      obtain ⟨rfl, rfl⟩ := List.cons.inj hframes
      rw [h.eq_of_nil rfl] at hg
      exact ⟨hg, .nil⟩
    | cons f' rest =>
      obtain ⟨rfl, rfl⟩ := List.cons.inj hframes
      obtain ⟨hfits, hrest⟩ := ih rfl
      exact ⟨hfits, hrest.snoc hg⟩

/-- A chain up to one of its frames. -/
theorem Chain.upto (h : Chain written p frames q) (hf : f ∈ frames) :
    ∃ first, first <+: frames ∧ Chain written p first (f.seq + f.data.length) := by
  induction h with
  | nil => cases hf
  | @snoc frames q g h hg ih =>
    obtain hf | hf := List.mem_append.mp hf
    · obtain ⟨first, hfirst, hchain⟩ := ih hf
      exact ⟨first, hfirst.trans (List.prefix_append _ _), hchain⟩
    · obtain rfl := List.mem_singleton.mp hf
      exact ⟨frames ++ [f], List.prefix_refl _, h.snoc hg⟩

/-- Every byte between the ends is in a frame or in a gap that a frame reports. -/
theorem Chain.covers (h : Chain written p frames q) {i : ℕ} (hp : p ≤ i) (hq : i < q) :
    (∃ f ∈ frames, f.seq ≤ i ∧ i < f.seq + f.data.length) ∨
      ∃ f ∈ frames, f.truncated = true ∧ i < f.seq := by
  induction h with
  | nil => omega
  | @snoc frames q f h hf ih =>
    by_cases hbefore : i < q
    · refine (ih hbefore).imp ?_ ?_
      · exact fun ⟨g, hg, hin⟩ => ⟨g, List.mem_append_left _ hg, hin⟩
      · exact fun ⟨g, hg, hin⟩ => ⟨g, List.mem_append_left _ hg, hin⟩
    · have hmem : f ∈ frames ++ [f] := List.mem_append_right _ List.mem_cons_self
      obtain hplace | ⟨hgap, hreported⟩ | ⟨hback, -, -⟩ := hf.place
      · exact .inl ⟨f, hmem, by omega, hq⟩
      · by_cases hlost : i < f.seq
        · exact .inr ⟨f, hmem, hreported, hlost⟩
        · exact .inl ⟨f, hmem, by omega, hq⟩
      · exact .inl ⟨f, hmem, by omega, hq⟩

end Chain

/-- What a call has taken. -/
structure Call.Ok (c : Call) (written : List UInt8) (cursor : ℕ) : Prop where
  chain : Chain written cursor c.taken c.nextSeq
  data : c.data = c.taken.flatMap SessionData.data
  truncated : ∀ f ∈ c.taken, f.truncated = true → c.truncated = true
  eof : ∀ f ∈ c.taken, f.eof = false
  exitCode : c.exitCode = none

/-- What holds where the attach loop is; `c` says that the condition has been met so far. -/
def Pc.Holds (pc : Pc) (c : Prop) (sent : ℕ) (written : List UInt8) : Prop :=
  match pc with
  | .reading | .closed => True
  | .counting read => read.Reads sent written
  | .polling read drained =>
      read.Reads sent written ∧
        (c → drained = true → read.exit.isSome = true → read.next = written.length)

/-- The connection carries a chain of the output from the client's cursor on. -/
structure Link.Ok (l : Link) (c : Prop) (written : List UInt8) (cursor : ℕ) : Prop where
  call : l.call.Ok written cursor
  frames : ∃ q, Chain written l.call.nextSeq l.frames q ∧ (l.pc ≠ .closed → q = l.sent)
  pc : l.pc.Holds c l.sent written

/-- What a reply says of its frames. -/
structure SessionChunk.Of (r : SessionChunk) (frames : List SessionData) : Prop where
  data : r.data = frames.flatMap SessionData.data
  truncated : ∀ f ∈ frames, f.truncated = true → r.truncated = true
  eof : r.eof = true → ∃ f ∈ frames, f.eof = true
  exitCode : r.exitCode.isSome = true → r.eof = true

namespace Node

/-- The frames of the replies. -/
def delivered (n : Node) : List SessionData := n.replies.flatMap Prod.snd

/-- Every frame that was sent and not lost. -/
def frames (n : Node) : List SessionData :=
  n.delivered ++ n.link.elim [] fun l => l.call.taken ++ l.frames

/-- The attach loop has read an exit and everything there is, and is about to look at the pumps. -/
def closing (n : Node) : Bool :=
  n.link.any fun l =>
    match l.pc with
    | .polling read drained => read.exit.isSome && drained
    | _ => false

/-- No pump appends while the attach loop is about to look at the pumps. -/
def careful (n : Node) : Event → Bool
  | .pump _ data => data.isEmpty || !n.closing
  | _ => true

/-- A step that meets the condition. -/
def Careful (n : Node) (e : Event) (n' : Node) : Prop := n.careful e = true ∧ n.Step e n'

/-- What every run keeps true, and what it keeps true as long as the condition `c` is met. -/
structure Inv (c : Prop) (p : ℕ) (n : Node) : Prop where
  ring : n.ring.Holds n.written
  chain : Chain n.written p n.delivered n.cursor
  replies : ∀ r ∈ n.replies, r.1.Of r.2
  link : ∀ l, n.link = some l → l.Ok c n.written n.cursor
  eof : c → ∀ f ∈ n.frames, f.eof = true →
    n.activePumps = 0 ∧ f.seq + f.data.length = n.written.length
  exitCode : ∀ f ∈ n.frames, f.exitCode.isSome = true → f.eof = true

section Steps

variable {n n' : Node} {p : ℕ} {c : Prop}

theorem activePumps_pos {i : ℕ} (h : n.pumps[i]? = some true) : n.activePumps ≠ 0 := by
  rw [activePumps, ne_eq, List.count_eq_zero, not_not]
  exact List.mem_of_getElem? h

/-- A pump appends to the ring. -/
theorem Inv.pump (h : n.Inv c p) {i : ℕ} (hi : n.pumps[i]? = some true) {data : List UInt8}
    (hcareful : c → n.careful (.pump i data) = true) :
    Inv c p { n with ring := n.ring.append data, written := n.written ++ data } := by
  have hrunning := activePumps_pos hi
  refine ⟨h.ring.append data, h.chain.grow data, h.replies, ?_, ?_, h.exitCode⟩
  · intro l hl
    have hl : n.link = some l := hl
    obtain ⟨hcall, ⟨q, hchain, hq⟩, hpc⟩ := h.link l hl
    refine ⟨⟨hcall.chain.grow data, hcall.data, hcall.truncated, hcall.eof, hcall.exitCode⟩,
      ⟨q, hchain.grow data, hq⟩, ?_⟩
    cases hat : l.pc with
    | reading | closed => trivial
    | counting read =>
      rw [hat] at hpc
      exact hpc.grow data
    | polling read drained =>
      rw [hat] at hpc
      refine ⟨hpc.1.grow data, fun hc hdrained hexit => ?_⟩
      have hcareful := hcareful hc
      have hclosing : n.closing = true := by
        rw [closing, hl, Option.any_some, hat]
        exact Bool.and_eq_true_iff.mpr ⟨hexit, hdrained⟩
      rw [careful, hclosing, Bool.not_true, Bool.or_false, List.isEmpty_iff] at hcareful
      rw [hcareful, List.append_nil]
      exact hpc.2 hc hdrained hexit
  · intro hc f hf heof
    exact absurd (h.eof hc f hf heof).1 hrunning

/-- A pump ends. -/
theorem Inv.pumpEnd (h : n.Inv c p) {i : ℕ} (hi : n.pumps[i]? = some true) :
    Inv c p { n with pumps := n.pumps.set i false } := by
  refine ⟨h.ring, h.chain, h.replies, h.link, ?_, h.exitCode⟩
  intro hc f hf heof
  exact absurd (h.eof hc f hf heof).1 (activePumps_pos hi)

/-- A step that touches neither the output nor the connection. -/
theorem Inv.other (h : n.Inv c p) (reaper : Reaper) (exit : Option ℤ) (listed : Bool) :
    Inv c p { n with reaper, exit, listed } :=
  ⟨h.ring, h.chain, h.replies, h.link, h.eof, h.exitCode⟩

/-- The connection changes. -/
theorem Inv.relink (h : n.Inv c p) {link : Option Link}
    (hlink : ∀ l, link = some l → l.Ok c n.written n.cursor)
    (hframes : ∀ f, f ∈ link.elim [] (fun l => l.call.taken ++ l.frames) → f ∉ n.frames →
      (c → f.eof = true → n.activePumps = 0 ∧ f.seq + f.data.length = n.written.length) ∧
      (f.exitCode.isSome = true → f.eof = true)) :
    Inv c p { n with link } := by
  have hold {f : SessionData} (hf : f ∈ Node.frames { n with link }) :
      f ∈ n.frames ∨ f ∈ link.elim [] (fun l => l.call.taken ++ l.frames) :=
    (List.mem_append.mp hf).imp_left (List.mem_append_left _)
  refine ⟨h.ring, h.chain, h.replies, hlink, ?_, ?_⟩
  · intro hc f hf heof
    by_cases hmem : f ∈ n.frames
    · exact h.eof hc f hmem heof
    · exact (hframes f ((hold hf).resolve_left hmem) hmem).1 hc heof
  · intro f hf hexit
    by_cases hmem : f ∈ n.frames
    · exact h.exitCode f hmem hexit
    · exact (hframes f ((hold hf).resolve_left hmem) hmem).2 hexit

/-- The frames of a link are frames of the session. -/
theorem mem_frames {l : Link} (hl : n.link = some l) {f : SessionData}
    (hf : f ∈ l.call.taken ∨ f ∈ l.frames) : f ∈ n.frames := by
  rw [frames, hl, Option.elim_some]
  exact List.mem_append_right _ (List.mem_append.mpr hf)

/-- A link with the frames it had. -/
theorem Inv.same_frames (h : n.Inv c p) {l l' : Link} (hl : n.link = some l)
    (hok : l'.Ok c n.written n.cursor) (htaken : l'.call.taken = l.call.taken)
    (hsame : l'.frames = l.frames) : Inv c p { n with link := some l' } := by
  refine h.relink (fun m hm => Option.some.inj hm ▸ hok) fun f hf hmem => ?_
  rw [Option.elim_some, htaken, hsame] at hf
  exact absurd (mem_frames hl (List.mem_append.mp hf)) hmem

/-- The attach loop decides on a frame. -/
theorem Inv.finish (h : n.Inv c p) {l : Link} (hl : n.link = some l) {read : Reading}
    {drained : Bool}
    (hpc : l.pc = .polling read drained) {eof : Bool}
    (heof : (read.exit.isSome && drained && decide (n.activePumps = 0)) = eof) (late : Bool) :
    Inv c p { n with link := some (l.finish read eof late) } := by
  obtain ⟨hcall, ⟨q, hchain, hq⟩, hholds⟩ := h.link l hl
  rw [hpc] at hholds hq
  obtain ⟨hreads, hdrained⟩ := hholds
  obtain rfl := hq nofun
  have hclosed : c → eof = true → n.activePumps = 0 ∧ read.next = n.written.length := by
    rintro hc rfl
    rw [Bool.and_eq_true, Bool.and_eq_true, decide_eq_true_iff] at heof
    exact ⟨heof.2, hdrained hc heof.1.2 heof.1.1⟩
  unfold Link.finish
  split
  · refine h.same_frames hl ⟨hcall, ⟨l.sent, hchain, fun _ => rfl⟩, ?_⟩ rfl rfl
    cases late <;> trivial
  rename_i hsend
  have hnext : read.next - read.chunk.length + read.chunk.length = read.next :=
    Nat.sub_add_cancel hreads.length
  have hfits : SessionData.Fits ⟨read.next - read.chunk.length, read.chunk, eof,
      if eof then read.exit else none, read.truncated⟩ n.written l.sent := by
    refine ⟨(Nat.sub_le _ _).trans hreads.next, hreads.chunk, ?_⟩
    refine hreads.place.imp_right (Or.imp_right fun ⟨hbeyond, hnone⟩ => ?_)
    refine ⟨lt_of_le_of_lt (Nat.sub_le _ _) hbeyond, hnone, ?_⟩
    by_contra hmore
    exact hsend ⟨hnone, hmore⟩
  have hframes {l' : Link} (htaken : l'.call.taken = l.call.taken)
      (hadded : l'.frames = l.frames ++ [⟨read.next - read.chunk.length, read.chunk, eof,
        if eof then read.exit else none, read.truncated⟩]) (f : SessionData)
      (hf : f ∈ l'.call.taken ++ l'.frames) (hmem : f ∉ n.frames) :
      (c → f.eof = true → n.activePumps = 0 ∧ f.seq + f.data.length = n.written.length) ∧
        (f.exitCode.isSome = true → f.eof = true) := by
    rw [htaken, hadded] at hf
    obtain hf | hf := List.mem_append.mp hf
    · exact absurd (mem_frames hl (.inl hf)) hmem
    obtain hf | hf := List.mem_append.mp hf
    · exact absurd (mem_frames hl (.inr hf)) hmem
    obtain rfl := List.mem_singleton.mp hf
    refine ⟨fun hc hend => ?_, fun hexit => ?_⟩
    · exact ⟨(hclosed hc hend).1, hnext.trans (hclosed hc hend).2⟩
    · by_contra hmore
      dsimp only at hexit hmore
      rw [if_neg hmore] at hexit
      cases hexit
  have hchain' := hchain.snoc hfits
  dsimp only at hchain'
  rw [hnext] at hchain'
  cases eof with
  | true =>
    refine h.relink (fun m hm => ?_) (hframes rfl rfl)
    obtain rfl := Option.some.inj hm
    exact ⟨hcall, ⟨_, hchain', fun hne => absurd rfl hne⟩, trivial⟩
  | false =>
    refine h.relink (fun m hm => ?_) (hframes rfl rfl)
    obtain rfl := Option.some.inj hm
    exact ⟨hcall, ⟨_, hchain', fun _ => rfl⟩, trivial⟩

/-- The attach loop sends one frame. -/
theorem Inv.serve (h : n.Inv c p) {l : Link} (hl : n.link = some l) (late : Bool) :
    Inv c p { n with link := some (n.serve l late) } := by
  obtain ⟨hcall, ⟨q, hchain, hq⟩, hholds⟩ := h.link l hl
  unfold Node.serve
  cases hpc : l.pc with
  | reading =>
    have hsent := hq (by rw [hpc]; nofun)
    refine h.same_frames hl ⟨hcall, ⟨q, hchain, fun _ => hsent⟩, ?_⟩ rfl rfl
    exact h.ring.readFrom _ _
  | counting read =>
    have hsent := hq (by rw [hpc]; nofun)
    rw [hpc] at hholds
    refine h.same_frames hl ⟨hcall, ⟨q, hchain, fun _ => hsent⟩, hholds, fun _ hdrained _ => ?_⟩
      rfl rfl
    rw [decide_eq_true_iff] at hdrained
    exact hdrained.trans h.ring.total
  | polling read drained => exact h.finish hl hpc rfl late
  | closed => exact h.same_frames hl ⟨hcall, ⟨q, hchain, hq⟩, hholds⟩ rfl rfl

/-- A call returns. -/
theorem Inv.answer (h : n.Inv c p) {k : Call} {eof : Bool}
    (hchain : Chain n.written n.cursor k.taken k.nextSeq) (hof : (k.reply eof).Of k.taken)
    (hmem : ∀ f ∈ k.taken, f ∈ n.frames) : (n.answer k eof).Inv c p := by
  have hdelivered : (n.answer k eof).delivered = n.delivered ++ k.taken := by
    rw [delivered, delivered, Node.answer, List.flatMap_append, List.flatMap_singleton]
  have hframes : ∀ f ∈ (n.answer k eof).frames, f ∈ n.frames := by
    intro f hf
    rw [frames, hdelivered] at hf
    have hf : f ∈ n.delivered ++ k.taken := by simpa [Node.answer] using hf
    obtain hf | hf := List.mem_append.mp hf
    · exact List.mem_append_left _ hf
    · exact hmem f hf
  refine ⟨h.ring, ?_, ?_, ?_, fun hc f hf => h.eof hc f (hframes f hf), fun f hf =>
    h.exitCode f (hframes f hf)⟩
  · rw [hdelivered]
    exact h.chain.trans hchain
  · intro r hr
    obtain hr | hr := List.mem_append.mp hr
    · exact h.replies r hr
    · rw [List.mem_singleton.mp hr]
      exact hof
  · intro l hl
    cases hl

/-- The client takes a frame. -/
theorem Inv.take (h : n.Inv c p) {l : Link} (hl : n.link = some l) {f : SessionData}
    {rest : List SessionData} (hframes : l.frames = f :: rest) :
    Chain n.written n.cursor (l.call.take f).taken (l.call.take f).nextSeq ∧
      (∃ q, Chain n.written (l.call.take f).nextSeq rest q ∧ (l.pc ≠ .closed → q = l.sent)) ∧
      ((l.call.take f).reply f.eof).Of (l.call.take f).taken ∧
      ∀ g ∈ (l.call.take f).taken, g ∈ n.frames := by
  obtain ⟨hcall, ⟨q, hchain, hq⟩, -⟩ := h.link l hl
  obtain ⟨hfits, hrest⟩ := hchain.uncons hframes
  refine ⟨hcall.chain.snoc hfits, ⟨q, hrest, hq⟩, ⟨?_, ?_, ?_, ?_⟩, ?_⟩
  · change l.call.data ++ f.data = (l.call.taken ++ [f]).flatMap _
    rw [List.flatMap_append, List.flatMap_singleton, hcall.data]
  · intro g hg htruncated
    obtain hg | hg := List.mem_append.mp hg
    · have := hcall.truncated g hg htruncated
      simp [Call.reply, Call.take, this]
    · obtain rfl := List.mem_singleton.mp hg
      simp [Call.reply, Call.take, htruncated]
  · exact fun heof => ⟨f, List.mem_append_right _ List.mem_cons_self, heof⟩
  · intro hexit
    have hf : f ∈ n.frames := mem_frames hl (.inr (by rw [hframes]; exact List.mem_cons_self))
    refine h.exitCode f hf ?_
    simpa [Call.reply, Call.take, hcall.exitCode] using hexit
  · intro g hg
    obtain hg | hg := List.mem_append.mp hg
    · exact mem_frames hl (.inl hg)
    · obtain rfl := List.mem_singleton.mp hg
      exact mem_frames hl (.inr (by rw [hframes]; exact List.mem_cons_self))

/-- The client takes one. -/
theorem Inv.receive (h : n.Inv c p) (hs : n.next .receive = some n') : n'.Inv c p := by
  obtain ⟨l, hl, hs⟩ := Option.bind_eq_some_iff.mp hs
  cases hframes : l.frames with
  | nil =>
    rw [hframes] at hs
    cases hs
  | cons f rest =>
    rw [hframes] at hs
    dsimp only at hs
    obtain ⟨hchain, hrest, hof, hmem⟩ := h.take hl hframes
    split at hs
    · obtain rfl := Option.some.inj hs
      exact h.answer hchain hof hmem
    · rename_i hmore
      obtain rfl := Option.some.inj hs
      obtain ⟨hcall, -, hpc⟩ := h.link l hl
      have hopen : f.eof = false := by
        rw [not_or, Bool.not_eq_true] at hmore
        exact hmore.1
      have hnone : (l.call.take f).exitCode = none := by
        by_contra hsome
        have heof := hof.exitCode (Option.isSome_iff_ne_none.mpr hsome)
        cases hopen.symm.trans heof
      refine h.relink (fun m hm => ?_) fun g hg hnew => ?_
      · obtain rfl := Option.some.inj hm
        refine ⟨⟨hchain, hof.data, hof.truncated, ?_, hnone⟩, hrest, hpc⟩
        intro g hg
        obtain hg | hg := List.mem_append.mp hg
        · exact hcall.eof g hg
        · rw [List.mem_singleton.mp hg]
          exact hopen
      · obtain hg | hg := List.mem_append.mp hg
        · exact absurd (hmem g hg) hnew
        · refine absurd (mem_frames hl (.inr ?_)) hnew
          rw [hframes]
          exact List.mem_cons_of_mem _ hg

/-- One step keeps the invariant. -/
theorem Inv.step (h : n.Inv c p) {e : Event} (hcareful : c → n.careful e = true)
    (hs : n.Step e n') : n'.Inv c p := by
  cases e with
  | pump i data =>
    rw [Step, next] at hs
    split at hs
    · obtain rfl := Option.some.inj hs
      exact h.pump ‹_› hcareful
    · cases hs
  | pumpEnd i =>
    rw [Step, next] at hs
    split at hs
    · obtain rfl := Option.some.inj hs
      exact h.pumpEnd ‹_›
    · cases hs
  | exited code =>
    rw [Step, next] at hs
    split at hs
    · obtain rfl := Option.some.inj hs
      exact h.other _ _ _
    · cases hs
  | reap =>
    rw [Step, next, Node.reap] at hs
    split at hs
    · cases hs
    · cases hs
    · split at hs
      · obtain rfl := Option.some.inj hs
        exact h.other _ _ _
      · obtain rfl := Option.some.inj hs
        exact h.other _ _ _
  | delete =>
    rw [Step, next] at hs
    split at hs
    · obtain rfl := Option.some.inj hs
      exact h.other _ _ _
    · cases hs
  | connect firstChunk =>
    rw [Step, next] at hs
    split at hs
    · obtain rfl := Option.some.inj hs
      refine h.relink (fun m hm => ?_) fun f hf => ?_
      · obtain rfl := Option.some.inj hm
        refine ⟨⟨.nil, rfl, ?_, ?_, rfl⟩, ⟨_, .nil, fun _ => rfl⟩, trivial⟩
        · exact fun f hf => absurd hf List.not_mem_nil
        · exact fun f hf => absurd hf List.not_mem_nil
      · exact absurd hf List.not_mem_nil
    · cases hs
  | serve late =>
    obtain ⟨l, hl, rfl⟩ := Option.map_eq_some_iff.mp hs
    exact h.serve hl late
  | receive => exact h.receive hs
  | giveUp =>
    obtain ⟨l, hl, rfl⟩ := Option.map_eq_some_iff.mp hs
    have hcall := (h.link l hl).call
    refine h.answer hcall.chain ⟨hcall.data, hcall.truncated, nofun, fun hexit => ?_⟩ fun f hf => ?_
    · rw [Call.reply, hcall.exitCode] at hexit
      cases hexit
    · exact mem_frames hl (.inl hf)
  | fail =>
    obtain rfl := Option.some.inj hs
    refine h.relink (fun m hm => ?_) fun f hf => ?_
    · cases hm
    · exact absurd hf List.not_mem_nil

/-- The invariant holds at the start. -/
theorem start_inv (pumps cursor : ℕ) : (start pumps cursor).Inv c cursor where
  ring := ⟨rfl, rfl, rfl, Nat.zero_le _⟩
  chain := .nil
  replies := fun r hr => absurd hr List.not_mem_nil
  link := fun l hl => by cases hl
  eof := fun _ f hf => absurd hf List.not_mem_nil
  exitCode := fun f hf => absurd hf List.not_mem_nil

end Steps

end Node

/-- Output streams of a session. In every run the ring holds the last bytes; the frames of a client
follow each other from its first position, up to reported gaps, and its replies consist of them;
and an exit code comes with the end only. If no pump appends between the look at the total and the
look at the pumps of an attach loop that has read an exit and all of the output, a frame closes
the stream only when the pumps are done and everything is delivered or reported lost. -/
theorem session_streams_exact {pumps cursor : ℕ} {es : List Event} {n : Node}
    (h : Trace Node.Step (.start pumps cursor) es n) :
    (n.ring.base + n.ring.buf.length = n.ring.total ∧ n.ring.total = n.written.length ∧
      n.ring.buf.length ≤ ringCap) ∧
    Chain n.written cursor n.delivered n.cursor ∧
    (∀ r ∈ n.replies, r.1.Of r.2) ∧
    (∀ f ∈ n.frames, f.exitCode.isSome = true → f.eof = true) ∧
    (Trace Node.Careful (.start pumps cursor) es n →
      (∀ f ∈ n.frames, f.eof = true →
        n.activePumps = 0 ∧ f.seq + f.data.length = n.written.length) ∧
      (∀ f ∈ n.delivered, f.eof = true → ∀ i, cursor ≤ i → i < n.written.length →
        (∃ g ∈ n.delivered, g.seq ≤ i ∧ i < g.seq + g.data.length) ∨
          ∃ g ∈ n.delivered, g.truncated = true ∧ i < g.seq)) := by
  have hinv : n.Inv False cursor :=
    h.invariant (Node.start_inv pumps cursor) fun hi hs => hi.step nofun hs
  refine ⟨⟨hinv.ring.sum, hinv.ring.total, hinv.ring.small⟩, hinv.chain, hinv.replies,
    hinv.exitCode, fun hcareful => ?_⟩
  have hinv : n.Inv True cursor :=
    hcareful.invariant (Node.start_inv pumps cursor) fun hi hs => hi.step (fun _ => hs.1) hs.2
  have hends := hinv.eof trivial
  refine ⟨hends, fun f hf heof i hcursor hi => ?_⟩
  obtain ⟨first, hfirst, hchain⟩ := hinv.chain.upto hf
  rw [(hends f (List.mem_append_left _ hf) heof).2] at hchain
  refine (hchain.covers hcursor hi).imp ?_ ?_
  · exact fun ⟨g, hg, hin⟩ => ⟨g, hfirst.subset hg, hin⟩
  · exact fun ⟨g, hg, hin⟩ => ⟨g, hfirst.subset hg, hin⟩

/-- A process that writes two bytes and exits, read to the end. -/
def readEvents : List Event :=
  [.pump 0 [1], .pump 1 [2], .pumpEnd 0, .pumpEnd 1, .exited (some 0), .reap, .connect false,
    .serve false, .serve false, .serve false, .receive]

theorem session_streams_exact_read :
    ∃ n, Trace Node.Careful (.start 2 0) readEvents n ∧
      n.delivered.map SessionData.data = [[1, 2]] ∧ n.delivered.map SessionData.eof = [true] ∧
      (∀ i, i < n.written.length → (∃ g ∈ n.delivered, g.seq ≤ i ∧ i < g.seq + g.data.length) ∨
        ∃ g ∈ n.delivered, g.truncated = true ∧ i < g.seq) := by
  have hrun : (readEvents.foldlM (fun (n : Node) e => if n.careful e then n.next e else none)
      (Node.start 2 0)).any (fun n => n.delivered.map SessionData.data = [[1, 2]] ∧
        n.delivered.map SessionData.eof = [true]) = true := by decide +kernel
  obtain ⟨n, hn, hend⟩ := (Option.any_eq_true _ _).mp hrun
  have htrace : Trace Node.Careful (.start 2 0) readEvents n := by
    refine (Trace.of_foldlM hn).mono fun {s e s'} hs => ?_
    split at hs
    · exact ⟨‹_›, hs⟩
    · cases hs
  have hplain : Trace Node.Step (.start 2 0) readEvents n := htrace.mono fun hs => hs.2
  obtain ⟨hdata, heof⟩ := of_decide_eq_true hend
  obtain ⟨f, hf, hlast⟩ : ∃ f ∈ n.delivered, f.eof = true := by
    have hmem : true ∈ n.delivered.map SessionData.eof := heof ▸ List.mem_cons_self
    exact List.mem_map.mp hmem
  refine ⟨n, htrace, hdata, heof, fun i hi => ?_⟩
  exact ((session_streams_exact hplain).2.2.2.2 htrace).2 f hf hlast i (Nat.zero_le i) hi

/-- The reaper stops waiting for a pump; an attach loop reads an exit and everything there is; now
the pump appends its last byte and ends, and the loop finds no pump active. -/
def lateEvents : List Event :=
  [.pumpEnd 0, .exited (some 0)] ++ List.replicate 51 .reap ++
    [.connect false, .serve false, .serve false, .pump 1 [7], .pumpEnd 1, .serve false, .receive]

/-- The stream is closed with its last byte neither delivered nor reported lost. -/
theorem eof_loses_last_byte :
    ∃ n, Trace Node.Step (.start 2 0) lateEvents n ∧ n.written = [7] ∧
      n.delivered.map SessionData.eof = [true] ∧ n.delivered.map SessionData.data = [[]] ∧
      n.delivered.map SessionData.truncated = [false] ∧
      n.replies.map (·.1.exitCode) = [some 0] := by
  have hrun : (lateEvents.foldlM Node.next (Node.start 2 0)).any (fun n => n.written = [7] ∧
      n.delivered.map SessionData.eof = [true] ∧ n.delivered.map SessionData.data = [[]] ∧
      n.delivered.map SessionData.truncated = [false] ∧
      n.replies.map (·.1.exitCode) = [some 0]) = true := by decide +kernel
  obtain ⟨n, hn, hend⟩ := (Option.any_eq_true _ _).mp hrun
  exact ⟨n, Trace.of_foldlM hn, of_decide_eq_true hend⟩

end AgentHouse.Forge
