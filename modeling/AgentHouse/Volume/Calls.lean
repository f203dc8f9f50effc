import AgentHouse.Volume.Adapter
import AgentHouse.Lib.Loops

/-!
# What the calls of the S3 adapter keep

Every postcondition speaks about the history of the bucket between the start and the end of a call.
A contract names the requests that a call may send. What follows from it for the bucket holds
with all requests of others in between, and for the requests that arrive late.
-/

namespace AgentHouse.Volume.S3

/-! ## Contracts -/

/-- The answers to an action, in a world that moves before it. -/
def Does (S : Setup) : {β : Type} → Act β → World → β → World → Prop
  | _, .send q, w, none, w' => ∃ u, Envs w u ∧ w' = u.fly q
  | _, .send q, w, some reply, w' => ∃ u, Envs w u ∧ Serves S u reply w' q
  | _, .cancelled, w, _, w' => Envs w w'
  | _, .pause, w, _, w' => Envs w w'

/-- A call that sends only requests that `allow` admits. -/
def contract (S : Setup) (allow : Request → Prop) : Contract Act World where
  does := Does S
  allowed
    | .send q, _ => allow q
    | _, _ => True

/-! ## Histories -/

/-- The later world has the earlier history behind its own. -/
structure Later (w w' : World) (news : List Moment) : Prop where
  history : w'.history = news ++ w.history
  bucket : w'.bucket = w.bucket ∨ ∃ m ∈ news, m.after = w'.bucket
  sent : w.sent ≤ w'.sent

/-- The bucket was `B` at some moment between two worlds. -/
def Seen (w : World) (news : List Moment) (B : Bucket) : Prop :=
  B = w.bucket ∨ ∃ m ∈ news, m.after = B

theorem Later.refl (w : World) : Later w w [] := ⟨rfl, .inl rfl, le_refl _⟩

theorem Later.trans {u v w : World} {news news' : List Moment} (h : Later u v news)
    (h' : Later v w news') : Later u w (news' ++ news) := by
  refine ⟨by rw [h'.history, h.history, List.append_assoc], ?_, h.sent.trans h'.sent⟩
  rcases h'.bucket with hsame | ⟨m, hm, hafter⟩
  · rcases h.bucket with hsame' | ⟨m, hm, hafter⟩
    · exact .inl (hsame.trans hsame')
    · exact .inr ⟨m, List.mem_append_right _ hm, hafter.trans hsame.symm⟩
  · exact .inr ⟨m, List.mem_append_left _ hm, hafter⟩

/-- What is seen in a later part is seen in the whole. -/
theorem Later.seen {u v : World} {news news' : List Moment} {B : Bucket} (h : Later u v news)
    (hB : Seen v news' B) : Seen u (news' ++ news) B := by
  rcases hB with rfl | ⟨m, hm, hafter⟩
  · rcases h.bucket with hsame | ⟨m, hm, hafter⟩
    · exact .inl hsame
    · exact .inr ⟨m, List.mem_append_right _ hm, hafter⟩
  · exact .inr ⟨m, List.mem_append_left _ hm, hafter⟩

theorem Seen.mono {w : World} {news news' : List Moment} {B : Bucket} (h : Seen w news B) :
    Seen w (news' ++ news) B :=
  h.imp_right fun ⟨m, hm, hafter⟩ => ⟨m, List.mem_append_right _ hm, hafter⟩

theorem later_move (w : World) (cause : Cause) (B : Bucket) :
    Later w (w.move cause B) [⟨cause, w.bucket, B⟩] :=
  ⟨rfl, .inr ⟨_, List.mem_singleton_self _, rfl⟩, le_refl _⟩

theorem later_send (w : World) : Later w w.send [] := ⟨rfl, .inl rfl, Nat.le_succ _⟩

theorem later_fly (w : World) (q : Request) : Later w (w.fly q) [] :=
  ⟨rfl, .inl rfl, Nat.le_succ _⟩

/-- A change of a later moment is one of somebody else, or one that a request in flight makes. -/
def Moment.Foreign (flights : List (ℕ × Request)) (m : Moment) : Prop :=
  m.cause = .others ∨
    ∃ n q, (n, q) ∈ flights ∧ m.cause = .ours n ∧ q.Applies m.before m.after

/-- What the world does by itself. -/
theorem Envs.later {w w' : World} (h : Envs w w') :
    w'.flights = w.flights ∧ w'.sent = w.sent ∧
      ∃ news, Later w w' news ∧ ∀ m ∈ news, m.Foreign w.flights := by
  induction h with
  | refl => exact ⟨rfl, rfl, [], Later.refl w, by simp⟩
  | tail _ hstep ih =>
    obtain ⟨hflights, hsent, news, hlater, hnews⟩ := ih
    cases hstep with
    | others B =>
      refine ⟨hflights, hsent, _, hlater.trans (later_move _ _ _), ?_⟩
      intro m hm
      rcases List.mem_append.mp hm with hm | hm
      · rw [List.mem_singleton.mp hm]
        exact .inl rfl
      · exact hnews m hm
    | arrives hf happlies =>
      refine ⟨hflights, hsent, _, hlater.trans (later_move _ _ _), ?_⟩
      intro m hm
      rcases List.mem_append.mp hm with hm | hm
      · rw [List.mem_singleton.mp hm]
        exact .inr ⟨_, _, hflights ▸ hf, rfl, happlies⟩
      · exact hnews m hm

/-- The removals of a request, among what others do meanwhile. -/
theorem Removes.later {n : ℕ} {root : Bytes} {keys removed : List Bytes} {w u : World}
    (h : Removes n root keys w removed u) : u.flights = w.flights ∧ u.sent = w.sent ∧
      ∃ news, Later w u news ∧ ∀ key ∈ removed, ∃ m ∈ news, m.cause = .ours n ∧
        m.after = Function.update m.before (root ++ [47] ++ key) none := by
  induction h with
  | nil => exact ⟨rfl, rfl, [], Later.refl w, by simp⟩
  | env _ henv ih =>
    obtain ⟨hflights, hsent, news, hlater, hremoved⟩ := ih
    obtain ⟨hflights', hsent', news', hlater', -⟩ := Envs.later (.single henv)
    refine ⟨hflights'.trans hflights, hsent'.trans hsent, _, hlater.trans hlater', ?_⟩
    intro key hkey
    obtain ⟨m, hm, hrest⟩ := hremoved key hkey
    exact ⟨m, List.mem_append_right _ hm, hrest⟩
  | remove _ _ ih =>
    obtain ⟨hflights, hsent, news, hlater, hremoved⟩ := ih
    refine ⟨hflights, hsent, _, hlater.trans (later_move _ _ _), ?_⟩
    intro key hkey
    rcases List.mem_cons.mp hkey with rfl | hkey
    · exact ⟨_, List.mem_append_left _ (List.mem_singleton_self _), rfl, rfl⟩
    · obtain ⟨m, hm, hrest⟩ := hremoved key hkey
      exact ⟨m, List.mem_append_right _ hm, hrest⟩

/-- A reply comes later than its request. -/
theorem Serves.later {S : Setup} {w w' : World} {reply : Reply} {q : Request}
    (h : Serves S w reply w' q) : ∃ news, Later w w' news := by
  cases q with
  | put url condition body =>
    rcases h with ⟨-, -, tag, rfl, -⟩ | ⟨-, -, rfl⟩ | ⟨-, -, rfl⟩
    · exact ⟨_, (later_move _ _ _).trans (later_send _)⟩
    · exact ⟨_, later_send w⟩
    · exact ⟨_, later_fly w _⟩
  | get url =>
    obtain ⟨rfl, -⟩ := h
    exact ⟨_, later_send w⟩
  | list root keyPrefix after maxKeys =>
    obtain ⟨rfl, -⟩ := h
    exact ⟨_, later_send w⟩
  | deleteObjects root keys =>
    obtain ⟨removed, u, hremoves, -, rfl | rfl⟩ := h
    · obtain ⟨-, -, news, hlater, -⟩ := hremoves.later
      exact ⟨_, hlater.trans (later_send u)⟩
    · obtain ⟨-, -, news, hlater, -⟩ := hremoves.later
      exact ⟨_, hlater.trans (later_fly u _)⟩

/-- Every action takes time. -/
theorem Does.later {S : Setup} {β : Type} {a : Act β} {w w' : World} {r : β}
    (h : Does S a w r w') : ∃ news, Later w w' news := by
  cases a with
  | send q =>
    cases r with
    | none =>
      obtain ⟨u, henv, rfl⟩ := h
      obtain ⟨-, -, news, hlater, -⟩ := Envs.later henv
      exact ⟨_, hlater.trans (later_fly u q)⟩
    | some reply =>
      obtain ⟨u, henv, hserves⟩ := h
      obtain ⟨-, -, news, hlater, -⟩ := Envs.later henv
      obtain ⟨news', hlater'⟩ := hserves.later
      exact ⟨_, hlater.trans hlater'⟩
  | cancelled =>
    obtain ⟨-, -, news, hlater, -⟩ := Envs.later h
    exact ⟨news, hlater⟩
  | pause =>
    obtain ⟨-, -, news, hlater, -⟩ := Envs.later h
    exact ⟨news, hlater⟩

/-! ## Programs and histories -/

section

variable {S : Setup} {allow : Request → Prop} {α β : Type} {w : World}

/-- The program keeps its contract, and `Q` relates its result to what has happened meanwhile. -/
def Gives (S : Setup) (allow : Request → Prop) (Q : Except Error α → List Moment → World → Prop)
    (p : Op Act Error α) (w : World) : Prop :=
  p.Keeps (contract S allow) (fun r w' => ∃ news, Later w w' news ∧ Q r news w') w

variable {P Q : Except Error α → List Moment → World → Prop} {p : Op Act Error α}

/-- A weaker end. -/
theorem Gives.mono (h : Gives S allow P p w) (hQ : ∀ r news w', Later w w' news → P r news w' →
    Q r news w') : Gives S allow Q p w :=
  Op.Keeps.mono h fun _ _ ⟨news, hlater, hP⟩ => ⟨news, hlater, hQ _ _ _ hlater hP⟩

theorem gives_settle {r : Result α} (h : Q r [] w) : Gives S allow Q (settle r) w :=
  ⟨[], Later.refl w, h⟩

theorem gives_pure {a : α} (h : Q (.ok a) [] w) : Gives S allow Q (pure a) w := gives_settle h

theorem gives_throw {e : Error} (h : Q (.error e) [] w) : Gives S allow Q (throw e) w :=
  gives_settle (r := .error e) h

/-- Two programs in a row. -/
theorem gives_bind {f : α → Op Act Error β} {R : Except Error β → List Moment → World → Prop}
    (h : Gives S allow P p w)
    (hok : ∀ a news v, Later w v news → P (.ok a) news v →
      Gives S allow (fun r news' w' => R r (news' ++ news) w') (f a) v)
    (herror : ∀ e news v, Later w v news → P (.error e) news v → R (.error e) news v) :
    Gives S allow R (p >>= f) w := by
  refine Op.keeps_bind.mpr (Op.Keeps.mono h ?_)
  rintro (e | a) v ⟨news, hlater, hP⟩
  · exact ⟨news, hlater, herror e news v hlater hP⟩
  · refine Op.Keeps.mono (hok a news v hlater hP) ?_
    rintro r w' ⟨news', hlater', hR⟩
    exact ⟨news' ++ news, hlater.trans hlater', hR⟩

/-- A check is made before anything has happened. -/
theorem gives_refuse {c : Prop} [Decidable c] {e : Error} {f : Unit → Op Act Error α}
    (herror : c → Q (.error e) [] w) (h : ¬ c → Gives S allow Q (f ()) w) :
    Gives S allow Q (Op.refuse c e >>= f) w := by
  by_cases hc : c
  · rw [Op.refuse, if_pos hc]
    exact gives_throw (herror hc)
  · rw [Op.refuse, if_neg hc]
    exact h hc

/-- A result, and then a program. -/
theorem gives_settle_bind {r : Result α} {f : α → Op Act Error β}
    {R : Except Error β → List Moment → World → Prop}
    (hok : ∀ a, r = .ok a → Gives S allow R (f a) w)
    (herror : ∀ e, r = .error e → R (.error e) [] w) : Gives S allow R (settle r >>= f) w := by
  cases r with
  | error e => exact gives_throw (herror e rfl)
  | ok a => exact hok a rfl

/-- A failure that the program looks at. -/
theorem gives_outcome (h : Gives S allow P p w) :
    Gives S allow (fun r news w' => ∃ r', r = .ok r' ∧ P r' news w') (Op.outcome p) w := by
  refine Prog.keeps_bind.mpr (Op.Keeps.mono h ?_)
  rintro r w' ⟨news, hlater, hP⟩
  exact ⟨news, hlater, r, rfl, hP⟩

/-- An action whose answer is a flag. -/
theorem gives_flag {a : Act Bool} {Q : Except Error Bool → List Moment → World → Prop}
    (ha : a = .cancelled ∨ a = .pause) (h : ∀ b news v, Later w v news → Q (.ok b) news v) :
    Gives S allow Q (Op.perform a) w := by
  have hall : (contract S allow).allowed a w ∧
      ∀ b v, Does S a w b v → ∃ news, Later w v news ∧ Q (.ok b) news v := by
    refine ⟨by rcases ha with rfl | rfl <;> trivial, fun b v hdoes => ?_⟩
    obtain ⟨news, hlater⟩ := hdoes.later
    exact ⟨news, hlater, h b news v hlater⟩
  exact hall

theorem gives_checkCancel {Q : Except Error Unit → List Moment → World → Prop}
    (h : ∀ r news v, Later w v news → Q r news v) : Gives S allow Q checkCancel w := by
  refine gives_bind (P := fun _ _ _ => True) (gives_flag (.inl rfl) fun _ _ _ _ => trivial) ?_ ?_
  · intro b news v hlater _
    cases b with
    | true => exact gives_throw (h _ _ _ hlater)
    | false => exact gives_pure (h _ _ _ hlater)
  · exact fun e news v hlater _ => h _ _ _ hlater

/-- A request is lost, its reply is lost, or the store serves it. -/
theorem gives_request {q : Request} (hq : allow q) : Gives S allow (fun r news v =>
    ∃ u news₁, u.flights = w.flights ∧ u.sent = w.sent ∧ (∀ m ∈ news₁, m.Foreign w.flights) ∧
      Later w u news₁ ∧ match r with
      | .error e => e = .store ∧ news = news₁ ∧ v = u.fly q
      | .ok reply => Serves S u reply v q ∧ ∃ news₂, Later u v news₂ ∧ news = news₂ ++ news₁)
    (request q) w := by
  refine Op.keeps_bind.mpr ⟨hq, ?_⟩
  rintro (_ | reply) v ⟨u, henv, hdoes⟩
  · subst hdoes
    obtain ⟨hflights, hsent, news, hlater, hforeign⟩ := Envs.later henv
    exact ⟨news, by simpa using hlater.trans (later_fly u q), u, news, hflights, hsent, hforeign,
      hlater, rfl, rfl, rfl⟩
  · obtain ⟨hflights, hsent, news, hlater, hforeign⟩ := Envs.later henv
    obtain ⟨news', hlater'⟩ := hdoes.later
    exact ⟨news' ++ news, hlater.trans hlater', u, news, hflights, hsent, hforeign, hlater, hdoes,
      news', hlater', rfl⟩

end

/-! ## Objects -/

section

variable {S : Setup} {allow : Request → Prop} {w : World} {c : Config}

/-- At some moment the object was there with these bytes. -/
def Stored (w : World) (news : List Moment) (url bytes : Bytes) : Prop :=
  ∃ B o, Seen w news B ∧ B url = some o ∧ o.bytes = bytes

/-- What was stored later was stored since before. -/
theorem Later.stored {u v : World} {news news' : List Moment} {url bytes : Bytes}
    (h : Later u v news) (hB : Stored v news' url bytes) : Stored u (news' ++ news) url bytes := by
  obtain ⟨B, o, hseen, ho⟩ := hB
  exact ⟨B, o, h.seen hseen, ho⟩

theorem Stored.mono {news news' : List Moment} {url bytes : Bytes} (h : Stored w news url bytes) :
    Stored w (news' ++ news) url bytes := by
  obtain ⟨B, o, hseen, ho⟩ := h
  exact ⟨B, o, hseen.mono, ho⟩

/-- A body that is read is the whole body. -/
theorem readBody_ok {limit : ℕ} {reply : Reply} {bytes : Bytes}
    (h : readBody limit reply = .ok bytes) : reply.broken = false ∧ bytes = reply.body := by
  unfold readBody at h
  split at h
  · cases h
  split at h
  · cases h
  split at h
  · cases h
  rename_i hbroken
  exact ⟨by simpa using hbroken, (Except.ok.inj h).symm⟩

/-- What is read was there. -/
theorem gives_get {url : Bytes} {limit : ℕ} (hq : allow (.get url)) : Gives S allow
    (fun r news _ => ∀ revision bytes, r = .ok (some (revision, bytes)) → Stored w news url bytes)
    (get url limit) w := by
  refine gives_bind (gives_request hq) ?_ (fun _ _ _ _ _ _ _ h => by cases h)
  rintro reply news v - ⟨u, news₁, -, -, -, hlater, ⟨rfl, -, hfound⟩, news₂, hlater₂, rfl⟩
  split
  · exact gives_pure fun _ _ h => by cases h
  split
  · exact gives_throw fun _ _ h => by cases h
  rename_i hstatus
  refine gives_settle_bind (fun revision _ => gives_settle_bind (fun bytes hbytes => ?_) ?_) ?_
  · refine gives_pure fun revision' bytes' h => ?_
    cases h
    obtain ⟨hbroken, rfl⟩ := readBody_ok hbytes
    obtain ⟨o, ho, -, hbody⟩ := hfound (not_not.mp hstatus)
    have hstored : Stored u [] url reply.body := ⟨u.bucket, o, .inl rfl, ho, (hbody hbroken).symm⟩
    have hall := @Stored.mono _ _ news₂ _ _ (hlater.stored hstored)
    simpa using hall
  · exact fun _ _ _ _ h => by cases h
  · exact fun _ _ _ _ h => by cases h

/-- A chunk that is read was stored at its address. -/
theorem gives_chunk {volume hash : Bytes} (hq : allow (.get (c.url volume (chunkSuffix hash)))) :
    Gives S allow (fun r news _ => ∀ bytes, r = .ok bytes →
      Stored w news (c.url volume (chunkSuffix hash)) bytes) (chunk S c volume hash) w := by
  refine gives_refuse (fun _ _ h => by cases h) fun _ => ?_
  refine gives_settle_bind (fun url hurl => ?_) (fun _ _ _ h => by cases h)
  unfold Config.key at hurl
  split at hurl
  swap
  · cases hurl
  obtain rfl := Except.ok.inj hurl
  refine gives_bind (gives_get hq) ?_ (fun _ _ _ _ _ _ h => by cases h)
  intro found news v hlater hfound
  split
  · exact gives_throw fun _ h => by cases h
  rename_i revision bytes
  split
  · exact gives_throw fun _ h => by cases h
  · refine gives_pure fun bytes' h => ?_
    cases h
    exact hfound revision bytes rfl

/-- What happened is one list. -/
theorem Later.unique {u v : World} {news news' : List Moment} (h : Later u v news)
    (h' : Later u v news') : news = news' :=
  List.append_cancel_right (h.history.symm.trans h'.history)

/-- An upload that is served with 200 has been applied. -/
theorem Serves.applied {url body : Bytes} {condition : Condition} {u v : World} {reply : Reply}
    {news : List Moment} (h : Serves S u reply v (.put url condition body))
    (hstatus : reply.status = 200) (hlater : Later u v news) : ∃ m ∈ news, ∃ tag,
      m.cause = .ours u.sent ∧ condition.Holds (m.before url) ∧
      m.after = Function.update m.before url (some ⟨tag, body⟩) ∧ ∀ t ∈ reply.etag, t = tag := by
  rcases h with ⟨-, hholds, tag, rfl, htag⟩ | ⟨hother, -⟩ | ⟨hother, -⟩
  · obtain rfl := hlater.unique ((later_move _ _ _).trans (later_send _))
    exact ⟨_, List.mem_singleton_self _, tag, rfl, hholds, rfl, htag⟩
  · omega
  · exact absurd hstatus hother

/-- Its object has been there. -/
theorem Serves.stored {url body : Bytes} {condition : Condition} {u v : World} {reply : Reply}
    {news : List Moment} (h : Serves S u reply v (.put url condition body))
    (hstatus : reply.status = 200) (hlater : Later u v news) : Stored u news url body := by
  obtain ⟨m, hm, tag, -, -, hafter, -⟩ := h.applied hstatus hlater
  exact ⟨m.after, ⟨tag, body⟩, .inr ⟨m, hm, rfl⟩, by rw [hafter, Function.update_self], rfl⟩

/-- A call may be repeated after a pause. -/
theorem gives_retry {left : ℕ} {next : Op Act Error Unit} {url bytes : Bytes}
    (h : ∀ w, Gives S allow (fun r news _ => ∀ a, r = .ok a → Stored w news url bytes) next w) :
    Gives S allow (fun r news _ => ∀ a, r = .ok a → Stored w news url bytes) (retry left next)
      w := by
  unfold retry
  split
  · exact h w
  · refine gives_bind (P := fun _ _ _ => True) (gives_flag (.inr rfl) fun _ _ _ _ => trivial) ?_
      (fun _ _ _ _ _ _ h => by cases h)
    intro b news v hlater _
    cases b with
    | true => exact gives_throw fun _ h => by cases h
    | false => exact (h v).mono fun r news' _ _ hstored a ha => hlater.stored (hstored a ha)

/-- The attempts of an upload succeed only if the object was there at some moment. -/
theorem gives_putLoop {volume hash bytes : Bytes} {left : ℕ}
    (hput : allow (.put (c.url volume (chunkSuffix hash)) .absent bytes))
    (hget : allow (.get (c.url volume (chunkSuffix hash)))) :
    Gives S allow (fun r news _ => ∀ a, r = .ok a →
      Stored w news (c.url volume (chunkSuffix hash)) bytes) (putLoop S c volume hash bytes left)
      w := by
  induction left generalizing w with
  | zero => exact gives_throw fun _ h => by cases h
  | succ left ih =>
    refine gives_bind (P := fun _ _ _ => True) (gives_checkCancel fun _ _ _ _ => trivial) ?_
      (fun _ _ _ _ _ _ h => by cases h)
    intro _ news₀ w₀ hlater₀ _
    refine gives_settle_bind (fun url hurl => ?_) (fun _ _ _ h => by cases h)
    unfold Config.key at hurl
    split at hurl
    swap
    · cases hurl
    obtain rfl := Except.ok.inj hurl
    refine gives_bind (gives_outcome (gives_request hput)) ?_ (fun _ _ _ _ h => by
      obtain ⟨_, h, _⟩ := h
      cases h)
    rintro response news₁ w₁ hlater₁ ⟨response', hresponse, u, news₂, -, -, -, hlater₂, hserved⟩
    cases hresponse
    refine gives_bind (P := fun _ _ _ => True) (gives_checkCancel fun _ _ _ _ => trivial) ?_
      (fun _ _ _ _ _ _ h => by cases h)
    intro _ news₃ w₂ hlater₃ _
    have hlift : ∀ {news'}, Stored w₂ news' (c.url volume (chunkSuffix hash)) bytes →
        Stored w (news' ++ news₃ ++ news₁ ++ news₀) (c.url volume (chunkSuffix hash)) bytes :=
      fun h => hlater₀.stored (hlater₁.stored (hlater₃.stored h))
    have hnext : Gives S allow (fun r news' _ => ∀ a, r = .ok a →
        Stored w (news' ++ news₃ ++ news₁ ++ news₀) (c.url volume (chunkSuffix hash)) bytes)
        (retry left (putLoop S c volume hash bytes left)) w₂ :=
      (gives_retry fun w => ih).mono fun _ _ _ _ hstored a ha => hlift (hstored a ha)
    cases response with
    | error e =>
      obtain ⟨rfl, -, -⟩ := hserved
      exact hnext
    | ok reply =>
      obtain ⟨hserves, news₄, hlater₄, rfl⟩ := hserved
      simp only
      split
      · rename_i hstatus
        refine gives_pure fun a _ => ?_
        have hstored := @Stored.mono _ _ news₃ _ _ (hlater₂.stored (hserves.stored hstatus hlater₄))
        exact hlater₀.stored hstored
      split
      · refine gives_bind (P := fun _ _ _ => True) (gives_checkCancel fun _ _ _ _ => trivial) ?_
          (fun _ _ _ _ _ _ h => by cases h)
        intro _ news₅ w₃ hlater₅ _
        refine gives_bind (gives_outcome (gives_chunk hget)) ?_ (fun _ _ _ _ h => by
          obtain ⟨_, h, _⟩ := h
          cases h)
        rintro existing news₆ w₄ hlater₆ ⟨existing', hexisting, hchunk⟩
        cases hexisting
        refine gives_bind (P := fun _ _ _ => True) (gives_checkCancel fun _ _ _ _ => trivial) ?_
          (fun _ _ _ _ _ _ h => by cases h)
        intro _ news₇ w₅ hlater₇ _
        cases existing with
        | ok found =>
          simp only
          split
          · rename_i hsame
            refine gives_pure fun a _ => ?_
            have hstored := @Stored.mono _ _ news₇ _ _ (hchunk found rfl)
            rw [hsame] at hstored
            exact hlift (hlater₅.stored hstored)
          · exact gives_throw fun _ h => by cases h
        | error e =>
          have hagain : Gives S allow (fun r news' _ => ∀ a, r = .ok a →
              Stored w (news' ++ news₇ ++ news₆ ++ news₅ ++ news₃ ++ (news₄ ++ news₂) ++ news₀)
                (c.url volume (chunkSuffix hash)) bytes)
              (retry left (putLoop S c volume hash bytes left)) w₅ :=
            (gives_retry fun w => ih).mono fun _ _ _ _ hstored a ha =>
              hlift (hlater₅.stored (hlater₆.stored (hlater₇.stored (hstored a ha))))
          cases e
          case store => exact hagain
          all_goals exact gives_throw fun _ h => by cases h
      split
      · exact hnext
      · exact gives_throw fun _ h => by cases h

end

/-! ## Uploads never overwrite -/

/-- A put is applied under its condition. -/
theorem Request.Applies.of_put {url body : Bytes} {condition : Condition} {B B' : Bucket}
    (h : Request.Applies (.put url condition body) B B') : condition.Holds (B url) ∧
      ∃ tag, B' = Function.update B url (some ⟨tag, body⟩) := by
  cases h with
  | put hholds => exact ⟨hholds, _, rfl⟩

/-- All that the requests since `w` have done to the bucket is to store the object where there was
none, and those that may still arrive can do no more. -/
structure Careful (url bytes : Bytes) (w w' : World) : Prop where
  later : ∃ news, Later w w' news ∧ ∀ m ∈ news, ∀ n, m.cause = .ours n → w.sent ≤ n →
    m.before url = none ∧ ∃ tag, m.after = Function.update m.before url (some ⟨tag, bytes⟩)
  flights : ∀ f ∈ w'.flights, w.sent ≤ f.1 → f.2 = .put url .absent bytes ∨ f.2 = .get url

theorem careful_start (url bytes : Bytes) (w : World) : Careful url bytes w w where
  later := ⟨[], Later.refl w, by simp⟩
  flights f hf hn := absurd (w.numbered f hf) (by omega)

section

variable {S : Setup} {url bytes : Bytes} {w u v : World}

/-- What arrives late stores the object where there is none. -/
theorem Careful.envs (h : Careful url bytes w u) (henv : Envs u v) : Careful url bytes w v := by
  obtain ⟨hflights, -, news', hlater', hforeign⟩ := Envs.later henv
  obtain ⟨news, hlater, hnews⟩ := h.later
  refine ⟨⟨_, hlater.trans hlater', fun m hm n hcause hn => ?_⟩, by rw [hflights]; exact h.flights⟩
  rcases List.mem_append.mp hm with hm | hm
  swap
  · exact hnews m hm n hcause hn
  rcases hforeign m hm with hothers | ⟨n', q, hf, hours, happlies⟩
  · rw [hothers] at hcause
    cases hcause
  · rw [hours] at hcause
    obtain rfl := Cause.ours.inj hcause
    rcases h.flights _ hf hn with hq | hq
    · simp only at hq
      subst hq
      exact happlies.of_put
    · simp only at hq
      subst hq
      cases happlies

/-- The uploads and reads of an object are careful. -/
theorem careful_preserves : (contract S fun q => q = .put url .absent bytes ∨
    q = .get url).Preserves
    (Careful url bytes w) := by
  intro β a u v r h hallowed hdoes
  cases a with
  | cancelled => exact h.envs hdoes
  | pause => exact h.envs hdoes
  | send q =>
    have hsent : ∀ {u : World}, Careful url bytes w u → w.sent ≤ u.sent := fun h => by
      obtain ⟨news, hlater, -⟩ := h.later
      exact hlater.sent
    have hfly : ∀ {u : World}, Careful url bytes w u → Careful url bytes w (u.fly q) := by
      intro u h
      obtain ⟨news, hlater, hnews⟩ := h.later
      refine ⟨⟨_, hlater.trans (later_fly u q), hnews⟩, fun f hf hn => ?_⟩
      rcases List.mem_cons.mp hf with rfl | hf
      · exact hallowed
      · exact h.flights f hf hn
    have hsend : ∀ {u : World}, Careful url bytes w u → Careful url bytes w u.send := by
      intro u h
      obtain ⟨news, hlater, hnews⟩ := h.later
      exact ⟨⟨_, hlater.trans (later_send u), hnews⟩, h.flights⟩
    cases r with
    | none =>
      obtain ⟨u', henv, rfl⟩ := hdoes
      exact hfly (h.envs henv)
    | some reply =>
      obtain ⟨u', henv, hserves⟩ := hdoes
      have hu := h.envs henv
      rcases hallowed with rfl | rfl
      · rcases hserves with ⟨-, hholds, tag, rfl, -⟩ | ⟨-, -, rfl⟩ | ⟨-, -, rfl⟩
        · obtain ⟨news, hlater, hnews⟩ := hu.later
          refine hsend ⟨⟨_, hlater.trans (later_move _ _ _), fun m hm n hcause hn => ?_⟩,
            hu.flights⟩
          rcases List.mem_append.mp hm with hm | hm
          · rw [List.mem_singleton.mp hm]
            exact ⟨hholds, tag, rfl⟩
          · exact hnews m hm n hcause hn
        · exact hsend hu
        · exact hfly hu
      · obtain ⟨rfl, -⟩ := hserves
        exact hsend hu

end

/-- `put_chunk` returns Ok only if the object was there with the given bytes at some moment of the
call, and overwrites nothing, even by requests that arrive after it. -/
theorem putChunk_keeps (S : Setup) (c : Config) (volume hash bytes : Bytes) (w : World) :
    (putChunk S c volume hash bytes).Keeps (contract S fun q =>
        q = .put (c.url volume (chunkSuffix hash)) .absent bytes ∨
          q = .get (c.url volume (chunkSuffix hash)))
      (fun r w' => Careful (c.url volume (chunkSuffix hash)) bytes w w' ∧
        ∃ news, Later w w' news ∧
          (r = .ok () → Stored w news (c.url volume (chunkSuffix hash)) bytes)) w := by
  refine Op.Keeps.invariant careful_preserves ?_ (careful_start _ _ w)
  refine gives_refuse (fun _ h => by cases h) fun _ => ?_
  exact (gives_putLoop (.inl rfl) (.inr rfl)).mono fun r news w' _ h hr => h () hr

/-! ## Publications -/

/-- The condition under which a head is replaced. -/
def condition (expected : Option Bytes) : Condition :=
  match expected with
  | some tag => .tagged tag
  | none => .absent

/-- What the result of a publication tells. -/
def Published (c : Config) (volume : Bytes) (expected : Option Bytes) (manifest : Bytes)
    (w : World) (r : Except Error Bytes) (news : List Moment) (w' : World) : Prop :=
  match r with
  | .ok revision => ∃ m ∈ news, m.cause = .ours w.sent ∧
      (condition expected).Holds (m.before (c.url volume headSuffix)) ∧
      m.after = Function.update m.before (c.url volume headSuffix) (some ⟨revision, manifest⟩)
  | .error .conflict =>
      (∀ m ∈ news, m.cause ≠ .ours w.sent) ∧ w.sent < w'.sent ∧ ∀ f ∈ w'.flights, f.1 ≠ w.sent
  | .error .invalidInput => w' = w
  | .error e => e = .uncertain

/-- Moments that others have caused, or earlier requests. -/
theorem foreign_ne {w : World} {news : List Moment} {n : ℕ} (hn : w.sent ≤ n)
    (h : ∀ m ∈ news, m.Foreign w.flights) : ∀ m ∈ news, m.cause ≠ .ours n := by
  intro m hm hcause
  rcases h m hm with hothers | ⟨n', q, hf, hours, -⟩
  · rw [hothers] at hcause
    cases hcause
  · rw [hours] at hcause
    obtain rfl := Cause.ours.inj hcause
    exact absurd (w.numbered _ hf) (by simpa using hn)

/-- `publish` returns Ok only if its upload was applied and the head then had the revision,
`Conflict` only if it was not and never will be, `InvalidInput` only if nothing was sent, and
else `Uncertain`. -/
theorem publish_keeps (S : Setup) (c : Config) (volume : Bytes) (expected : Option Bytes)
    (manifest : Bytes) (w : World) :
    (publish c volume expected manifest).Keeps (contract S fun _ => True)
      (fun r w' => ∃ news, Later w w' news ∧
        Published c volume expected manifest w r news w') w := by
  show Gives S (fun _ => True) (fun r news w' => Published c volume expected manifest w r news w')
    (publish c volume expected manifest) w
  refine gives_refuse (fun _ => rfl) fun _ => ?_
  refine gives_settle_bind (fun url hurl => ?_) fun e he => ?_
  swap
  · unfold Config.key at he
    split at he
    · cases he
    · cases he
      rfl
  unfold Config.key at hurl
  split at hurl
  swap
  · cases hurl
  obtain rfl := Except.ok.inj hurl
  refine gives_bind (gives_outcome (gives_request trivial)) ?_ (fun _ _ _ _ h => by
    obtain ⟨_, h, _⟩ := h
    cases h)
  rintro response news v hlater ⟨response', hresponse, u, news₁, hflights, hsent, hforeign, hlater₁,
    hserved⟩
  cases hresponse
  cases response with
  | error e => exact gives_throw rfl
  | ok reply =>
    obtain ⟨hserves, news₂, hlater₂, rfl⟩ := hserved
    simp only
    split
    · rename_i hstatus
      obtain ⟨m, hm, tag, hcause, hholds, hafter, htag⟩ := hserves.applied hstatus hlater₂
      cases hetag : etag reply with
      | error e => exact gives_throw rfl
      | ok revision =>
        obtain rfl : revision = tag := by
          unfold etag at hetag
          cases htext : reply.etag with
          | none =>
            rw [htext] at hetag
            cases hetag
          | some t =>
            simp only [htext] at hetag
            split at hetag
            · rw [← Except.ok.inj hetag]
              exact htag t htext
            · cases hetag
        refine gives_pure ⟨m, ?_, by rw [hcause, hsent], hholds, hafter⟩
        exact List.mem_append_right _ (List.mem_append_left _ hm)
    split
    · rename_i hstatus hconflict
      rcases hserves with ⟨hother, -⟩ | ⟨-, hholds, rfl⟩ | ⟨-, hother, -⟩
      · exact absurd hother hstatus
      · obtain rfl := hlater₂.unique (later_send u)
        refine gives_throw ⟨foreign_ne (le_refl _) hforeign, ?_, ?_⟩
        · show w.sent < u.sent + 1
          omega
        · intro f hf
          have := w.numbered f (hflights ▸ hf)
          omega
      · exact absurd hconflict hother
    · exact gives_throw rfl

/-! ## Removals -/

/-- A deletion that names its keys has deleted all of them. -/
theorem mem_of_names {d : Deleted} {keys : List Bytes} (h : d.names keys = true)
    (herror : d.error = []) : ∀ key ∈ keys, key ∈ d.deleted := by
  intro key hkey
  simp only [Deleted.names, herror, List.map_nil, List.append_nil, Bool.and_eq_true] at h
  simpa using List.all_eq_true.mp h.2 key hkey

/-- `delete_chunks` returns Ok only if each named object was removed during the call. -/
theorem deleteChunks_keeps (S : Setup) (c : Config) (volume : Bytes) (hashes : List Bytes)
    (w : World) : (deleteChunks S c volume hashes).Keeps (contract S fun _ => True)
      (fun r w' => ∃ news, Later w w' news ∧ (r = .ok () → ∀ hash ∈ hashes, ∃ m ∈ news,
        m.cause = .ours w.sent ∧ m.after =
          Function.update m.before (c.url volume (chunkSuffix hash)) none)) w := by
  show Gives S (fun _ => True) (fun r news _ => r = .ok () → ∀ hash ∈ hashes, ∃ m ∈ news,
    m.cause = .ours w.sent ∧ m.after =
      Function.update m.before (c.url volume (chunkSuffix hash)) none)
    (deleteChunks S c volume hashes) w
  refine gives_refuse (fun _ h => by cases h) fun _ => ?_
  split
  · rename_i hnil
    refine gives_pure fun _ hash hhash => ?_
    rw [hnil] at hhash
    cases hhash
  refine gives_refuse (fun _ h => by cases h) fun _ => ?_
  refine gives_bind (gives_request trivial) ?_ (fun _ _ _ _ _ h => by cases h)
  rintro reply news v hlater ⟨u, news₁, -, hsent, -, hlater₁, hserves, news₂, hlater₂, rfl⟩
  refine gives_refuse (fun _ h => by cases h) fun hstatus => ?_
  refine gives_settle_bind (fun bytes hbytes => ?_) (fun _ _ h => by cases h)
  obtain ⟨hbroken, rfl⟩ := readBody_ok hbytes
  obtain ⟨removed, u', hremoves, hdocument, hend⟩ := hserves
  obtain ⟨d, hparse, hdeleted⟩ := hdocument (not_not.mp hstatus) hbroken
  obtain ⟨-, -, news₃, hlater₃, hall⟩ := hremoves.later
  have hnews : news₂ = news₃ := by
    rcases hend with rfl | rfl
    · exact hlater₂.unique (hlater₃.trans (later_send u'))
    · exact hlater₂.unique (hlater₃.trans (later_fly u' _))
  subst hnews
  rw [hparse]
  refine gives_refuse (fun _ h => by cases h) fun hnames => ?_
  refine gives_refuse (fun _ h => by cases h) fun _ => ?_
  unfold Op.refuse
  split
  · exact gives_throw fun h => by cases h
  rename_i herror
  refine gives_pure fun _ hash hhash => ?_
  have hkey : c.objectKey volume (chunkSuffix hash) ∈ d.deleted :=
    mem_of_names (not_not.mp hnames) (not_not.mp herror) _ (List.mem_map.mpr ⟨hash, hhash, rfl⟩)
  obtain ⟨m, hm, hcause, hafter⟩ := hall _ (hdeleted _ hkey)
  exact ⟨m, List.mem_append_right _ (List.mem_append_left _ hm), by rw [hcause, hsent], hafter⟩

/-! ## Listings -/

/-- What a listing behind a cursor tells: at some moment of the call its hashes were there, and
whatever was there too is among them or behind them. -/
structure Listed (c : Config) (volume : Bytes) (after : Option Bytes) (w : World)
    (news : List Moment) (hashes : List Bytes) : Prop where
  ordered : hashes.Pairwise (· < ·)
  valid : ∀ h ∈ hashes, validHashText h = true ∧ ∀ a ∈ after, a < h
  moment : ∃ B, Seen w news B ∧
    (∀ h ∈ hashes, (B (c.url volume (chunkSuffix h))).isSome) ∧
    ∀ h, validHashText h = true → (∀ a ∈ after, a < h) →
      (B (c.url volume (chunkSuffix h))).isSome →
        h ∈ hashes ∨ (hashes ≠ [] ∧ ∀ h' ∈ hashes, h' < h)

theorem append_lt_append {p a b : Bytes} : p ++ a < p ++ b ↔ a < b := by
  induction p with
  | nil => rfl
  | cons x p ih =>
    rw [List.cons_append, List.cons_append, List.cons_lt_cons_iff]
    simp [ih]

/-- A key of a page is a hash after the last one. -/
theorem collect_ok {keyPrefix key : Bytes} {after : Option Bytes} {hashes hashes' : List Bytes}
    (h : collect keyPrefix after hashes key = .ok hashes') : ∃ hash, key = keyPrefix ++ hash ∧
      validHashText hash = true ∧ (∀ a ∈ after, a < hash) ∧ hash ∉ hashes ∧
      hashes' = hashes ++ [hash] := by
  unfold collect at h
  split at h
  · cases h
  rename_i hash hexpect
  split at h
  · cases h
  rename_i hcheck
  simp only [not_or, not_not] at hcheck
  refine ⟨hash, ?_, hcheck.1, ?_, hcheck.2.2, (Except.ok.inj h).symm⟩
  · unfold expect at hexpect
    split at hexpect
    · rename_i htake
      obtain rfl := Option.some.inj hexpect
      conv_lhs => rw [← List.take_append_drop keyPrefix.length key, htake]
    · cases hexpect
  · rintro a rfl
    have := hcheck.2.1
    simpa using this

/-- The hashes of a page are its keys without the prefix. -/
theorem foldlM_collect {keyPrefix : Bytes} {after : Option Bytes} {keys hashes : List Bytes}
    (h : keys.foldlM (collect keyPrefix after) [] = .ok hashes) :
    keys = hashes.map (keyPrefix ++ ·) ∧ hashes.Nodup ∧
      ∀ hash ∈ hashes, validHashText hash = true ∧ ∀ a ∈ after, a < hash := by
  refine foldlM_induction h (fun done hashes => done = hashes.map (keyPrefix ++ ·) ∧
    hashes.Nodup ∧ ∀ hash ∈ hashes, validHashText hash = true ∧ ∀ a ∈ after, a < hash)
    ⟨rfl, List.nodup_nil, by simp⟩ ?_
  rintro done key rest hashes hashes' - ⟨hdone, hnodup, hall⟩ hstep
  obtain ⟨hash, rfl, hvalid, hafter, hnew, rfl⟩ := collect_ok hstep
  refine ⟨by rw [hdone, List.map_append]; rfl, ?_, fun hash' hmem => ?_⟩
  · rw [List.nodup_append]
    refine ⟨hnodup, List.nodup_singleton _, fun x hx y hy hxy => ?_⟩
    rw [List.mem_singleton] at hy
    exact hnew (hy ▸ hxy ▸ hx)
  · rcases List.mem_append.mp hmem with hmem | hmem
    · exact hall hash' hmem
    · rw [List.mem_singleton.mp hmem]
      exact ⟨hvalid, hafter⟩

/-- The hashes of a page are the keys of the listing. -/
theorem pageHashes_ok {keyPrefix : Bytes} {after : Option Bytes} {limit : ℕ} {l : Listing}
    {hashes : List Bytes} (h : pageHashes keyPrefix after limit l = .ok hashes) :
    (∀ key, key ∈ l.contents ↔ ∃ hash ∈ hashes, key = keyPrefix ++ hash) ∧
      hashes.Pairwise (· < ·) ∧ (l.isTruncated = true → hashes ≠ []) ∧
      ∀ hash ∈ hashes, validHashText hash = true ∧ ∀ a ∈ after, a < hash := by
  unfold pageHashes at h
  split at h
  · cases h
  rename_i hcheck
  obtain ⟨found, hfound, h⟩ := bind_ok h
  obtain rfl := Except.ok.inj h
  obtain ⟨hcontents, hnodup, hall⟩ := foldlM_collect hfound
  have hmem : ∀ hash, hash ∈ found.mergeSort (fun a b => decide (a ≤ b)) ↔ hash ∈ found :=
    fun hash => List.mem_mergeSort
  refine ⟨fun key => ?_, ?_, fun htruncated hnil => ?_, fun hash hh => hall hash
    ((hmem hash).mp hh)⟩
  · rw [hcontents, List.mem_map]
    constructor
    · rintro ⟨hash, hh, rfl⟩
      exact ⟨hash, (hmem hash).mpr hh, rfl⟩
    · rintro ⟨hash, hh, rfl⟩
      exact ⟨hash, (hmem hash).mp hh, rfl⟩
  · have hsorted : (found.mergeSort fun a b => decide (a ≤ b)).Pairwise (· ≤ ·) := by
      have htrans : ∀ a b c : Bytes, a ≤ b → b ≤ c → a ≤ c := fun _ _ _ => List.le_trans
      have htotal : ∀ a b : Bytes, a ≤ b ∨ b ≤ a := List.le_total
      have := @List.pairwise_mergeSort Bytes (fun a b => decide (a ≤ b))
        (by simpa using htrans) (by simpa using htotal) found
      simpa using this
    have hnodup' : (found.mergeSort fun a b => decide (a ≤ b)).Nodup :=
      (List.mergeSort_perm found _).nodup_iff.mpr hnodup
    refine (hsorted.and hnodup').imp fun {a b} h => ?_
    by_contra hlt
    exact h.2 (List.le_antisymm h.1 (List.not_lt.mp hlt))
  · refine hcheck (.inr (.inr ⟨htruncated, ?_⟩))
    have hempty : found = [] := by
      rw [List.eq_nil_iff_forall_not_mem]
      intro hash hh
      have := (hmem hash).mpr hh
      rw [hnil] at this
      cases this
    rw [hcontents, hempty]
    rfl

/-- A page that is accepted is a listing of the moment at which the store answered. -/
theorem listChunksAfter_keeps (S : Setup) (c : Config) (volume : Bytes) (after : Option Bytes)
    (limit : ℕ) (w : World) :
    Gives S (fun _ => True) (fun r news _ => ∀ hashes, r = .ok hashes →
      Listed c volume after w news hashes) (listChunksAfter S c volume after limit) w := by
  refine gives_refuse (fun _ _ h => by cases h) fun _ => ?_
  refine gives_refuse (fun _ _ h => by cases h) fun _ => ?_
  refine gives_bind (gives_request trivial) ?_ (fun _ _ _ _ _ _ h => by cases h)
  rintro reply news v hlater ⟨u, news₁, -, -, -, hlater₁, ⟨rfl, hpage⟩, news₂, hlater₂, rfl⟩
  refine gives_refuse (fun _ _ h => by cases h) fun hstatus => ?_
  refine gives_settle_bind (fun bytes hbytes => ?_) (fun _ _ _ h => by cases h)
  obtain ⟨hbroken, rfl⟩ := readBody_ok hbytes
  obtain ⟨l, hparse, hl⟩ := hpage (not_not.mp hstatus) hbroken
  rw [hparse]
  refine gives_settle fun hashes hok => ?_
  obtain ⟨hkeys, hordered, htruncated, hvalid⟩ := pageHashes_ok hok
  have hurl : ∀ h, c.root ++ [47] ++ (c.chunks volume ++ h) = c.url volume (chunkSuffix h) := by
    intro h
    simp [Config.chunks, Config.url, Config.objectKey, chunkSuffix]
  refine ⟨hordered, hvalid, u.bucket, ?_, fun h hh => ?_, fun h hvalid' hafter hpresent => ?_⟩
  · have hseen : Seen w (news₂ ++ ([] ++ news₁)) u.bucket := (hlater₁.seen (.inl rfl)).mono
    simpa using hseen
  · rw [← hurl]
    exact (hl.present _ ((hkeys _).mpr ⟨h, hh, rfl⟩)).2.2
  · have hbehind : ∀ a ∈ after.map (c.chunks volume ++ ·), a < c.chunks volume ++ h := by
      intro a ha
      obtain ⟨a', ha', rfl⟩ := Option.mem_map.mp ha
      exact append_lt_append.mpr (hafter a' ha')
    rw [← hurl] at hpresent
    rcases hl.complete _ (List.prefix_append _ _) hbehind hpresent with hmem | ⟨htrunc, hlast⟩
    · obtain ⟨h', hh', heq⟩ := (hkeys _).mp hmem
      rw [List.append_cancel_left heq]
      exact .inl hh'
    · refine .inr ⟨htruncated htrunc, fun h' hh' => ?_⟩
      exact append_lt_append.mp (hlast _ ((hkeys _).mpr ⟨h', hh', rfl⟩))

/-- List from the last hash of the page before until a page is empty; `none` when that has not
happened within a number of pages. -/
def listAll (S : Setup) (c : Config) (volume : Bytes) (limit : ℕ) :
    ℕ → Option Bytes → Op Act Error (Option (List Bytes))
  | 0, _ => pure none
  | fuel + 1, after => do
    let page ← listChunksAfter S c volume after limit
    match page.getLast? with
    | none => pure (some [])
    | some last =>
      let rest ← listAll S c volume limit fuel (some last)
      pure (rest.map (page ++ ·))

/-- Pages one after the other visit every object that is there throughout. -/
theorem listAll_keeps (S : Setup) (c : Config) (volume : Bytes) (limit fuel : ℕ)
    (after : Option Bytes) (w : World) :
    Gives S (fun _ => True) (fun r news _ => ∀ all, r = .ok (some all) →
      ∀ h, validHashText h = true → (∀ a ∈ after, a < h) →
        (∀ B, Seen w news B → (B (c.url volume (chunkSuffix h))).isSome) → h ∈ all)
      (listAll S c volume limit fuel after) w := by
  induction fuel generalizing after w with
  | zero => exact gives_pure fun _ h => by cases h
  | succ fuel ih =>
    refine gives_bind (listChunksAfter_keeps S c volume after limit w) ?_
      (fun _ _ _ _ _ _ h => by cases h)
    intro page news v hlater hpage
    obtain ⟨-, hvalid, B, hseen, -, hcomplete⟩ := hpage page rfl
    split
    · rename_i hlast
      refine gives_pure fun all hall h hh hafter hthroughout => ?_
      rw [List.getLast?_eq_none_iff] at hlast
      rcases hcomplete h hh hafter (hthroughout B hseen.mono) with hmem | ⟨hne, -⟩
      · rw [hlast] at hmem
        cases hmem
      · exact absurd hlast hne
    · rename_i last hlast
      refine gives_bind (ih (some last) v) ?_ (fun _ _ _ _ _ _ h => by cases h)
      intro rest news' v' hlater' hrest
      refine gives_pure fun all hall h hh hafter hthroughout => ?_
      cases rest with
      | none => cases hall
      | some others =>
        cases hall
        by_cases hmem : h ∈ page
        · exact List.mem_append_left _ hmem
        · refine List.mem_append_right _ (hrest others rfl h hh ?_ fun B hB => ?_)
          · rintro a ha
            obtain rfl := Option.mem_some_iff.mp ha
            rcases hcomplete h hh hafter (hthroughout B hseen.mono) with hin | ⟨-, hbelow⟩
            · exact absurd hin hmem
            · exact hbelow _ (List.mem_of_getLast? hlast)
          · exact hthroughout B (by simpa using hlater.seen hB)

/-! ## Names -/

/-- Names without a separator in front of one are told apart. -/
theorem segment_cancel {a b x y : Bytes} (ha : 47 ∉ a) (hb : 47 ∉ b)
    (h : a ++ 47 :: x = b ++ 47 :: y) : a = b ∧ x = y := by
  induction a generalizing b with
  | nil =>
    cases b with
    | nil => exact ⟨rfl, (List.cons.inj h).2⟩
    | cons c b =>
      have := (List.cons.inj h).1
      exact absurd (this ▸ List.mem_cons_self) hb
  | cons d a ih =>
    cases b with
    | nil =>
      have := (List.cons.inj h).1
      exact absurd (this ▸ List.mem_cons_self) ha
    | cons c b =>
      obtain ⟨hhead, htail⟩ := List.cons.inj h
      obtain ⟨hab, hxy⟩ := ih (fun hm => ha (List.mem_cons_of_mem _ hm))
        (fun hm => hb (List.mem_cons_of_mem _ hm)) htail
      exact ⟨by rw [hhead, hab], hxy⟩

/-- An id has no slash. -/
theorem slash_not_mem_id {id : Bytes} (h : validIdText id = true) : 47 ∉ id := by
  intro hmem
  simp only [validIdText, Bool.and_eq_true] at h
  have := List.all_eq_true.mp h.2 47 hmem
  revert this
  decide

/-- Nor has a hash. -/
theorem slash_not_mem_hash {hash : Bytes} (h : validHashText hash = true) : 47 ∉ hash := by
  intro hmem
  simp only [validHashText, Bool.and_eq_true] at h
  have := List.all_eq_true.mp h.2 47 hmem
  revert this
  decide

/-- An object of a volume or an image: its head or one of its chunks. -/
inductive Item where
  | head
  | chunk (hash : Bytes)
  deriving DecidableEq

/-- The key of an item, within its volume. -/
def Item.suffix : Item → Bytes
  | .head => headSuffix
  | .chunk hash => chunkSuffix hash

/-- The hash of a chunk is well formed. -/
def Item.Valid : Item → Prop
  | .head => True
  | .chunk hash => validHashText hash = true

/-- The URL of an item of a volume, or of an image beside the volumes. -/
def itemUrl (c : Config) (image : Bool) (id : Bytes) (item : Item) : Bytes :=
  if image then { c with keyPrefix := c.keyPrefix ++ ascii "/bases" }.url id item.suffix
  else c.url id item.suffix

theorem chunkSuffix_eq (hash : Bytes) : chunkSuffix hash = ascii "chunks" ++ 47 :: hash := rfl

theorem slash_not_mem_head : 47 ∉ headSuffix := by decide

/-- A chunk has one in its name, a head has none. -/
theorem slash_mem_chunk (hash : Bytes) : 47 ∈ chunkSuffix hash := by
  rw [chunkSuffix_eq]
  exact List.mem_append_right _ List.mem_cons_self

/-- Items have distinct names. -/
theorem Item.suffix_injective {i j : Item} (h : i.suffix = j.suffix) : i = j := by
  have hmem : ∀ hash, headSuffix ≠ chunkSuffix hash := fun hash heq =>
    slash_not_mem_head (heq ▸ slash_mem_chunk hash)
  cases i with
  | head =>
    cases j with
    | head => rfl
    | chunk hash => exact absurd h (hmem hash)
  | chunk hash =>
    cases j with
    | head => exact absurd h.symm (hmem hash)
    | chunk hash' => rw [List.append_cancel_left h]

/-- No item of a volume is called like an item of an image. -/
theorem not_item_of_image {id : Bytes} {i j : Item} (hid : 47 ∉ id) (hj : j.Valid) :
    id ++ 47 :: i.suffix ≠ j.suffix := by
  intro h
  cases j with
  | head =>
    have hslash : 47 ∈ id ++ 47 :: i.suffix := List.mem_append_right _ List.mem_cons_self
    rw [h] at hslash
    exact slash_not_mem_head hslash
  | chunk hash =>
    obtain ⟨-, hsuffix⟩ := segment_cancel hid (by decide) (h.trans (chunkSuffix_eq hash))
    cases i with
    | head =>
      have hvalid : validHashText headSuffix = true := by
        rw [show headSuffix = hash from hsuffix]
        exact hj
      revert hvalid
      decide
    | chunk hash' =>
      have hslash := slash_mem_chunk hash'
      rw [show chunkSuffix hash' = hash from hsuffix] at hslash
      exact slash_not_mem_hash hj hslash

/-- The address of an item of a volume. -/
theorem itemUrl_volume (c : Config) (id : Bytes) (i : Item) : itemUrl c false id i =
    c.root ++ 47 :: (c.keyPrefix ++ 47 :: (id ++ 47 :: i.suffix)) := by
  simp [itemUrl, Config.url, Config.objectKey]

/-- And of one of an image. -/
theorem itemUrl_image (c : Config) (id : Bytes) (i : Item) : itemUrl c true id i =
    c.root ++ 47 :: (c.keyPrefix ++ 47 :: (ascii "bases" ++ 47 :: (id ++ 47 :: i.suffix))) := by
  have himage : ascii "/bases" = 47 :: ascii "bases" := rfl
  simp [itemUrl, Config.url, Config.objectKey, Config.root, himage]

/-- Different triples have different URLs. -/
theorem itemUrl_injective (c : Config) {image image' : Bool} {id id' : Bytes} {i j : Item}
    (hid : validIdText id = true) (hid' : validIdText id' = true) (hi : i.Valid) (hj : j.Valid)
    (h : itemUrl c image id i = itemUrl c image' id' j) : image = image' ∧ id = id' ∧ i = j := by
  have hslash := slash_not_mem_id hid
  have hslash' := slash_not_mem_id hid'
  have hsame : id ++ 47 :: i.suffix = id' ++ 47 :: j.suffix → id = id' ∧ i = j := fun h => by
    obtain ⟨hids, hsuffix⟩ := segment_cancel hslash hslash' h
    exact ⟨hids, Item.suffix_injective hsuffix⟩
  have hfree : 47 ∉ ascii "bases" := by decide
  have hcancel : ∀ {x y : Bytes}, c.root ++ 47 :: (c.keyPrefix ++ 47 :: x) =
      c.root ++ 47 :: (c.keyPrefix ++ 47 :: y) → x = y := fun h =>
    (List.cons.inj (List.append_cancel_left (List.cons.inj (List.append_cancel_left h)).2)).2
  cases image <;> cases image'
  · rw [itemUrl_volume, itemUrl_volume] at h
    exact ⟨rfl, hsame (hcancel h)⟩
  · rw [itemUrl_volume, itemUrl_image] at h
    obtain ⟨-, hrest⟩ := segment_cancel hslash hfree (hcancel h)
    exact absurd hrest.symm (not_item_of_image hslash' hi)
  · rw [itemUrl_image, itemUrl_volume] at h
    obtain ⟨-, hrest⟩ := segment_cancel hfree hslash' (hcancel h)
    exact absurd hrest (not_item_of_image hslash hj)
  · rw [itemUrl_image, itemUrl_image] at h
    obtain ⟨-, hrest⟩ := segment_cancel hfree hfree (hcancel h)
    exact ⟨rfl, hsame hrest⟩

/-- What the adapter promises about each of its calls, whatever requests and replies are lost and
whatever others do to the bucket meanwhile. -/
theorem adapter_keeps_contract (S : Setup) (c : Config) :
    (∀ volume expected manifest w,
      (publish c volume expected manifest).Keeps (contract S fun _ => True)
        (fun r w' => ∃ news, Later w w' news ∧
          Published c volume expected manifest w r news w') w) ∧
    (∀ volume hash bytes w,
      (putChunk S c volume hash bytes).Keeps (contract S fun q =>
          q = .put (c.url volume (chunkSuffix hash)) .absent bytes ∨
            q = .get (c.url volume (chunkSuffix hash)))
        (fun r w' => Careful (c.url volume (chunkSuffix hash)) bytes w w' ∧
          ∃ news, Later w w' news ∧
            (r = .ok () → Stored w news (c.url volume (chunkSuffix hash)) bytes)) w) ∧
    (∀ volume hashes w,
      (deleteChunks S c volume hashes).Keeps (contract S fun _ => True)
        (fun r w' => ∃ news, Later w w' news ∧ (r = .ok () → ∀ hash ∈ hashes, ∃ m ∈ news,
          m.cause = .ours w.sent ∧ m.after =
            Function.update m.before (c.url volume (chunkSuffix hash)) none)) w) ∧
    (∀ volume after limit w,
      (listChunksAfter S c volume after limit).Keeps (contract S fun _ => True)
        (fun r w' => ∃ news, Later w w' news ∧ ∀ hashes, r = .ok hashes →
          Listed c volume after w news hashes) w) ∧
    (∀ volume limit fuel w,
      (listAll S c volume limit fuel none).Keeps (contract S fun _ => True)
        (fun r w' => ∃ news, Later w w' news ∧ ∀ all, r = .ok (some all) →
          ∀ h, validHashText h = true →
            (∀ B, Seen w news B → (B (c.url volume (chunkSuffix h))).isSome) → h ∈ all) w) ∧
    (∀ image image' id id' i j, validIdText id = true → validIdText id' = true → i.Valid →
      j.Valid → itemUrl c image id i = itemUrl c image' id' j →
        image = image' ∧ id = id' ∧ i = j) := by
  refine ⟨publish_keeps S c, putChunk_keeps S c, deleteChunks_keeps S c,
    listChunksAfter_keeps S c, fun volume limit fuel w => ?_,
    fun _ _ _ _ _ _ hid hid' hi hj h => itemUrl_injective c hid hid' hi hj h⟩
  refine (listAll_keeps S c volume limit fuel none w).mono fun r news w' _ h all hall hash
    hvalid => ?_
  exact h all hall hash hvalid (by simp)

end AgentHouse.Volume.S3
