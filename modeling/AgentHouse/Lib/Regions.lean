import Mathlib.Data.List.Basic
import Mathlib.Tactic.Common

/-!
# Programs over a store with regions

A store is a list of entries with tables beside it. A program is blind to a region of entries if
its result and what it leaves outside do not depend on the region and it keeps the region as it
is. The programs that are blind to a region are closed under the constructs of the language.
-/

namespace AgentHouse.Regions

/-- A list of entries and some tables beside it. -/
structure Store (α σ : Type) where
  entries : List α
  tables : σ
  deriving DecidableEq, Repr

variable {α σ ε β γ : Type}

/-- A program: its result, and the store that it leaves also when it fails. -/
def Proc (α σ ε β : Type) := Store α σ → Except ε β × Store α σ

namespace Proc

/-- A procedure that fails. -/
def fail (e : ε) : Proc α σ ε β := fun s => (.error e, s)

instance : Monad (Proc α σ ε) where
  pure b := fun s => (.ok b, s)
  bind f g := fun s =>
    match f s with
    | (.ok b, t) => g b t
    | (.error e, t) => (.error e, t)

/-- A result that does not need the store. -/
def lift (r : Except ε β) : Proc α σ ε β := fun s => (r, s)

/-- A look at the entries. -/
def view (f : List α → β) : Proc α σ ε β := fun s => (.ok (f s.entries), s)

/-- The entries change. -/
def edit (f : List α → List α) : Proc α σ ε Unit :=
  fun s => (.ok (), { s with entries := f s.entries })

/-- A look at the tables. -/
def tables : Proc α σ ε σ := fun s => (.ok s.tables, s)

/-- The tables change. -/
def assign (f : σ → σ) : Proc α σ ε Unit := fun s => (.ok (), { s with tables := f s.tables })

/-- The tables are changed when `p` has ended, whatever its result. -/
def ending (p : Proc α σ ε β) (f : σ → σ) : Proc α σ ε β :=
  fun s => ((p s).1, { (p s).2 with tables := f (p s).2.tables })

/-- `clean` runs where `p` fails; its own result is dropped. -/
def cleaning (p : Proc α σ ε β) (clean : Proc α σ ε Unit) : Proc α σ ε β := fun s =>
  match p s with
  | (.error e, t) => (.error e, (clean t).2)
  | done => done

/-- A procedure that succeeds goes on. -/
theorem bind_of_ok {p : Proc α σ ε β} {f : β → Proc α σ ε γ} {s t : Store α σ} {b : β}
    (h : p s = (.ok b, t)) : (p >>= f) s = f b t := by
  simp only [Bind.bind, h]

/-- One that fails does not. -/
theorem bind_error {p : Proc α σ ε β} {f : β → Proc α σ ε γ} {s t : Store α σ} {e : ε}
    (h : p s = (.error e, t)) : (p >>= f) s = (.error e, t) := by
  simp only [Bind.bind, h]

@[simp] theorem pure_run {b : β} {s : Store α σ} : (pure b : Proc α σ ε β) s = (.ok b, s) := rfl

@[simp] theorem fail_run {e : ε} {s : Store α σ} : (fail e : Proc α σ ε β) s = (.error e, s) := rfl

@[simp] theorem lift_run {r : Except ε β} {s : Store α σ} :
    (lift r : Proc α σ ε β) s = (r, s) := rfl

@[simp] theorem tables_bind {f : σ → Proc α σ ε γ} {s : Store α σ} :
    (tables >>= f) s = f s.tables s := rfl

@[simp] theorem view_bind {v : List α → β} {f : β → Proc α σ ε γ} {s : Store α σ} :
    (view v >>= f) s = f (v s.entries) s := rfl

@[simp] theorem edit_bind {g : List α → List α} {f : Unit → Proc α σ ε γ} {s : Store α σ} :
    (edit g >>= f) s = f () { s with entries := g s.entries } := rfl

@[simp] theorem assign_bind {g : σ → σ} {f : Unit → Proc α σ ε γ} {s : Store α σ} :
    (assign g >>= f) s = f () { s with tables := g s.tables } := rfl

@[simp] theorem lift_ok_bind {b : β} {f : β → Proc α σ ε γ} {s : Store α σ} :
    (lift (.ok b) >>= f) s = f b s := rfl

@[simp] theorem lift_error_bind {e : ε} {f : β → Proc α σ ε γ} {s : Store α σ} :
    (lift (.error e) >>= f) s = (.error e, s) := rfl

@[simp] theorem fail_bind {e : ε} {f : β → Proc α σ ε γ} {s : Store α σ} :
    (fail e >>= f) s = (.error e, s) := rfl

@[simp] theorem pure_bind_run {b : β} {f : β → Proc α σ ε γ} {s : Store α σ} :
    (pure b >>= f) s = f b s := rfl

/-- `p` where `c` holds. -/
def only (c : Bool) (p : Proc α σ ε Unit) : Proc α σ ε Unit := if c = true then p else pure ()

/-- `f` on every element of a list. -/
def each (f : γ → Proc α σ ε Unit) : List γ → Proc α σ ε Unit
  | [] => pure ()
  | c :: l => do
    f c
    each f l

/-- It fails with errors of `E` only. -/
def Fails (E : ε → Prop) (p : Proc α σ ε β) : Prop := ∀ s e, (p s).1 = .error e → E e

section Fails

variable {E : ε → Prop}

theorem Fails.pure {b : β} : Fails E (pure b : Proc α σ ε β) := nofun

theorem Fails.fail {e : ε} (h : E e) : Fails E (fail e : Proc α σ ε β) := by
  intro _ e' he
  cases he
  exact h

theorem Fails.lift {r : Except ε β} (h : ∀ e, r = .error e → E e) :
    Fails E (lift r : Proc α σ ε β) := fun _ => h

theorem Fails.mono {F : ε → Prop} {p : Proc α σ ε β} (hp : Fails E p) (h : ∀ e, E e → F e) :
    Fails F p := fun s e he => h e (hp s e he)

theorem Fails.edit {f : List α → List α} : Fails E (edit f : Proc α σ ε Unit) := nofun

theorem Fails.view {f : List α → β} : Fails E (view f : Proc α σ ε β) := nofun

theorem Fails.tables : Fails E (tables : Proc α σ ε σ) := nofun

theorem Fails.assign {f : σ → σ} : Fails E (assign f : Proc α σ ε Unit) := nofun

/-- The failures of two procedures in a row. -/
theorem Fails.bind {p : Proc α σ ε β} {f : β → Proc α σ ε γ} (hp : Fails E p)
    (hf : ∀ b, Fails E (f b)) : Fails E (p >>= f) := by
  intro s e he
  cases hs : (p s).1 with
  | error e' =>
    rw [bind_error (Prod.ext hs rfl)] at he
    cases he
    exact hp s e hs
  | ok b =>
    rw [bind_of_ok (Prod.ext hs rfl)] at he
    exact hf b _ e he

theorem Fails.ite {p q : Proc α σ ε β} {c : Prop} [Decidable c] (hp : Fails E p)
    (hq : Fails E q) : Fails E (if c then p else q) := by
  split
  · exact hp
  · exact hq

theorem Fails.only {p : Proc α σ ε Unit} {c : Bool} (hp : Fails E p) : Fails E (only c p) :=
  .ite hp .pure

theorem Fails.each {f : γ → Proc α σ ε Unit} (hf : ∀ c, Fails E (f c)) (l : List γ) :
    Fails E (each f l) := by
  induction l with
  | nil => exact .pure
  | cons c l ih => exact (hf c).bind fun _ => ih

theorem Fails.ending {p : Proc α σ ε β} {f : σ → σ} (hp : Fails E p) : Fails E (p.ending f) := hp

/-- A cleanup adds no failure. -/
theorem Fails.cleaning {p : Proc α σ ε β} {clean : Proc α σ ε Unit} (hp : Fails E p) :
    Fails E (p.cleaning clean) := by
  intro s e he
  simp only [Proc.cleaning] at he
  split at he
  · rename_i e' t heq
    cases he
    exact hp s e (congrArg Prod.fst heq)
  · exact hp s e he

/-- It never fails. -/
theorem Fails.ok {p : Proc α σ ε β} (h : Fails (fun _ => False) p) (s : Store α σ) :
    ∃ b, (p s).1 = .ok b := by
  cases hs : (p s).1 with
  | error e => exact (h s e hs).elim
  | ok b => exact ⟨b, rfl⟩

end Fails

/-- Where `P` holds before, `Q` holds of every result and of the store after it. -/
def Ends (P : Store α σ → Prop) (p : Proc α σ ε β) (Q : β → Store α σ → Prop) : Prop :=
  ∀ s t b, P s → p s = (.ok b, t) → Q b t

/-- The ends of two procedures in a row. -/
theorem Ends.bind {P : Store α σ → Prop} {p : Proc α σ ε β} {Q : β → Store α σ → Prop}
    {f : β → Proc α σ ε γ} {R : γ → Store α σ → Prop} (hp : Ends P p Q)
    (hf : ∀ b, Ends (Q b) (f b) R) : Ends P (p >>= f) R := by
  intro s t c hs h
  cases hb : (p s).1 with
  | error e =>
    rw [bind_error (Prod.ext hb rfl)] at h
    cases h
  | ok b =>
    rw [bind_of_ok (Prod.ext hb rfl)] at h
    exact hf b _ _ _ (hp _ _ _ hs (Prod.ext hb rfl)) h

/-- The first program is of no account. -/
theorem Ends.after {P : Store α σ → Prop} {p : Proc α σ ε β} {f : β → Proc α σ ε γ}
    {R : γ → Store α σ → Prop} (hf : ∀ b, Ends (fun _ => True) (f b) R) : Ends P (p >>= f) R :=
  Ends.bind (Q := fun _ _ => True) (fun _ _ _ _ _ => trivial) hf

/-- One edit. -/
theorem Ends.edit {P Q : Store α σ → Prop} {f : List α → List α}
    (h : ∀ s, P s → Q { s with entries := f s.entries }) :
    Ends P (edit f : Proc α σ ε Unit) fun _ => Q := by
  intro s t b hs hrun
  cases hrun
  exact h s hs

theorem Ends.view {P : Store α σ → Prop} {Q : β → Store α σ → Prop} {f : List α → β}
    (h : ∀ s, P s → Q (f s.entries) s) : Ends P (view f : Proc α σ ε β) Q := by
  intro s t b hs hrun
  cases hrun
  exact h s hs

theorem Ends.assign {P Q : Store α σ → Prop} {f : σ → σ}
    (h : ∀ s, P s → Q { s with tables := f s.tables }) :
    Ends P (assign f : Proc α σ ε Unit) fun _ => Q := by
  intro s t b hs hrun
  cases hrun
  exact h s hs

theorem Ends.pure {P : Store α σ → Prop} {Q : β → Store α σ → Prop} {b : β}
    (h : ∀ s, P s → Q b s) : Ends P (pure b : Proc α σ ε β) Q := by
  intro s t c hs hrun
  cases hrun
  exact h s hs

theorem Ends.fail {P : Store α σ → Prop} {Q : β → Store α σ → Prop} {e : ε} :
    Ends P (fail e : Proc α σ ε β) Q := by
  intro s t c _ hrun
  cases hrun

theorem Ends.ite {P : Store α σ → Prop} {Q : β → Store α σ → Prop} {p q : Proc α σ ε β}
    {c : Prop} [Decidable c] (hp : Ends P p Q) (hq : Ends P q Q) :
    Ends P (if c then p else q) Q := by
  split
  · exact hp
  · exact hq

theorem Ends.only {P : Store α σ → Prop} {p : Proc α σ ε Unit} {c : Bool}
    (hp : Ends P p fun _ => P) : Ends P (only c p) fun _ => P :=
  .ite hp (.pure fun _ h => h)

/-- A cleanup runs only after a failure. -/
theorem Ends.cleaning {P : Store α σ → Prop} {Q : β → Store α σ → Prop} {p : Proc α σ ε β}
    {clean : Proc α σ ε Unit} (hp : Ends P p Q) : Ends P (cleaning p clean) Q := by
  intro s t b hs hrun
  simp only [Proc.cleaning] at hrun
  split at hrun
  · cases hrun
  · exact hp _ _ _ hs hrun

end Proc

open Proc

/-- What is outside a region, with the tables. -/
def Store.outside (T : α → Bool) (s : Store α σ) : List α × σ :=
  (s.entries.filter fun a => !T a, s.tables)

/-- Two stores are equal outside a region. -/
theorem outside_eq {T : α → Bool} {s t : Store α σ} :
    s.outside T = t.outside T ↔
      (s.entries.filter fun a => !T a) = (t.entries.filter fun a => !T a) ∧ s.tables = t.tables :=
  Prod.ext_iff

/-- It neither sees nor changes the entries of `T`. -/
structure Blind (T : α → Bool) (p : Proc α σ ε β) : Prop where
  sees : ∀ {s t : Store α σ}, s.outside T = t.outside T →
    (p s).1 = (p t).1 ∧ (p s).2.outside T = (p t).2.outside T
  keeps : ∀ s, (p s).2.entries.filter T = s.entries.filter T

namespace Blind

variable {T : α → Bool} {p : Proc α σ ε β}

theorem pure {b : β} : Blind T (pure b : Proc α σ ε β) := ⟨fun h => ⟨rfl, h⟩, fun _ => rfl⟩

theorem fail {e : ε} : Blind T (Proc.fail e : Proc α σ ε β) := ⟨fun h => ⟨rfl, h⟩, fun _ => rfl⟩

theorem lift {r : Except ε β} : Blind T (Proc.lift r : Proc α σ ε β) :=
  ⟨fun h => ⟨rfl, h⟩, fun _ => rfl⟩

theorem tables : Blind T (Proc.tables : Proc α σ ε σ) :=
  ⟨fun h => ⟨congrArg Except.ok (outside_eq.mp h).2, h⟩, fun _ => rfl⟩

theorem assign {f : σ → σ} : Blind T (Proc.assign f : Proc α σ ε Unit) :=
  ⟨fun h => ⟨rfl, outside_eq.mpr ⟨(outside_eq.mp h).1, congrArg f (outside_eq.mp h).2⟩⟩,
    fun _ => rfl⟩

/-- A view that does not look into the region. -/
theorem view {f : List α → β} (hf : ∀ l, f l = f (l.filter fun a => !T a)) :
    Blind T (Proc.view f : Proc α σ ε β) := by
  refine ⟨fun {s t} h => ⟨congrArg Except.ok ?_, h⟩, fun _ => rfl⟩
  rw [hf s.entries, (outside_eq.mp h).1, ← hf]

/-- An edit of the entries outside, which puts nothing into the region. -/
theorem edit {f : List α → List α} (hkeeps : ∀ l, (f l).filter T = l.filter T)
    (hf : ∀ l, (f l).filter (fun a => !T a) = f (l.filter fun a => !T a)) :
    Blind T (Proc.edit f : Proc α σ ε Unit) := by
  refine ⟨fun {s t} h => ⟨rfl, outside_eq.mpr ⟨?_, (outside_eq.mp h).2⟩⟩, fun s => hkeeps _⟩
  show (f s.entries).filter _ = (f t.entries).filter _
  rw [hf, hf, (outside_eq.mp h).1]

/-- An edit that keeps what is inside and decides on the rest by what is outside. -/
theorem revise {f : List α → List α} (keep : List α → α → Bool) (add : List α → List α)
    (hkeep : ∀ l a, T a = true → keep l a = true) (hadd : ∀ l, ∀ a ∈ add l, T a = false)
    (hf : ∀ l, f l = l.filter (keep (l.filter fun a => !T a)) ++ add (l.filter fun a => !T a)) :
    Blind T (Proc.edit f : Proc α σ ε Unit) := by
  refine edit (fun l => ?_) fun l => ?_
  · rw [hf, List.filter_append, List.filter_filter]
    have hnone : (add (l.filter fun a => !T a)).filter T = [] :=
      List.filter_eq_nil_iff.mpr fun a ha => by simp [hadd _ a ha]
    rw [hnone, List.append_nil]
    refine List.filter_congr fun a _ => ?_
    cases hT : T a with
    | false => rfl
    | true => exact hkeep _ a hT
  · have hall : (add (l.filter fun a => !T a)).filter (fun a => !T a) =
        add (l.filter fun a => !T a) :=
      List.filter_eq_self.mpr fun a ha => by simp [hadd _ a ha]
    rw [hf, hf (l.filter _), List.filter_append, hall, List.filter_filter, List.filter_filter,
      List.filter_filter]
    simp only [Bool.and_self, Bool.and_comm]

/-- An edit of single entries, which keeps those inside and puts none there. -/
theorem map {f : List α → List α} (keep : α → Bool) (g : α → α)
    (hkeep : ∀ a, T a = true → keep a = true) (hin : ∀ a, T a = true → g a = a)
    (hout : ∀ a, T a = false → T (g a) = false) (hf : ∀ l, f l = (l.filter keep).map g) :
    Blind T (Proc.edit f : Proc α σ ε Unit) := by
  have hg (a : α) : T (g a) = T a := by
    cases hT : T a with
    | false => exact hout a hT
    | true => rw [hin a hT, hT]
  refine edit (fun l => ?_) fun l => ?_
  · have hcomp : (T ∘ g) = T := funext hg
    rw [hf, List.filter_map, hcomp, List.filter_filter]
    have hkept : (l.filter fun a => T a && keep a) = l.filter T := by
      refine List.filter_congr fun a _ => ?_
      cases hT : T a with
      | false => rfl
      | true => exact hkeep a hT
    rw [hkept]
    exact (List.map_congr_left fun a ha => hin a (List.mem_filter.mp ha).2).trans (List.map_id _)
  · have hcomp : ((fun a => !T a) ∘ g) = fun a => !T a := funext fun a => congrArg _ (hg a)
    rw [hf, hf, List.filter_map, hcomp, List.filter_filter, List.filter_filter]
    simp only [Bool.and_comm]

/-- A question about entries outside. -/
theorem any {f : α → Bool} (hf : ∀ a, f a = true → T a = false) :
    Blind T (Proc.view fun l => l.any f : Proc α σ ε Bool) := by
  refine view fun l => ?_
  rw [List.any_filter]
  refine congrArg (l.any ·) (funext fun a => ?_)
  cases ha : f a with
  | false => rw [Bool.and_false]
  | true => rw [hf a ha]; rfl

/-- Two blind procedures in a row. -/
theorem bind_of {f : β → Proc α σ ε γ} (hp : Blind T p)
    (hf : ∀ s b, (p s).1 = .ok b → Blind T (f b)) : Blind T (p >>= f) := by
  constructor
  · intro s t h
    obtain ⟨hresult, hleft⟩ := hp.sees h
    cases hs : (p s).1 with
    | error e =>
      rw [bind_error (Prod.ext hs rfl), bind_error (Prod.ext (hresult.symm.trans hs) rfl)]
      exact ⟨rfl, hleft⟩
    | ok b =>
      rw [bind_of_ok (Prod.ext hs rfl), bind_of_ok (Prod.ext (hresult.symm.trans hs) rfl)]
      exact (hf s b hs).sees hleft
  · intro s
    cases hs : (p s).1 with
    | error e =>
      rw [bind_error (Prod.ext hs rfl)]
      exact hp.keeps s
    | ok b =>
      rw [bind_of_ok (Prod.ext hs rfl)]
      exact ((hf s b hs).keeps _).trans (hp.keeps s)

theorem bind {f : β → Proc α σ ε γ} (hp : Blind T p) (hf : ∀ b, Blind T (f b)) :
    Blind T (p >>= f) :=
  bind_of hp fun _ b _ => hf b

theorem lift_bind {r : Except ε β} {f : β → Proc α σ ε γ} (hf : ∀ b, r = .ok b → Blind T (f b)) :
    Blind T (Proc.lift r >>= f) := by
  cases r with
  | error e => exact fail (e := e)
  | ok b => exact hf b rfl

theorem ite {q : Proc α σ ε β} {c : Prop} [Decidable c] (hp : c → Blind T p)
    (hq : ¬ c → Blind T q) : Blind T (if c then p else q) := by
  split
  · exact hp ‹_›
  · exact hq ‹_›

theorem only {p : Proc α σ ε Unit} {c : Bool} (hp : Blind T p) : Blind T (Proc.only c p) :=
  .ite (fun _ => hp) fun _ => pure

theorem each {f : γ → Proc α σ ε Unit} {l : List γ} (hf : ∀ c ∈ l, Blind T (f c)) :
    Blind T (Proc.each f l) := by
  induction l with
  | nil => exact pure
  | cons c l ih =>
    exact (hf c List.mem_cons_self).bind fun _ => ih fun d hd => hf d (List.mem_cons_of_mem c hd)

theorem ending {f : σ → σ} (hp : Blind T p) : Blind T (p.ending f) := by
  refine ⟨fun {s t} h => ?_, fun s => hp.keeps s⟩
  obtain ⟨hresult, hleft⟩ := hp.sees h
  obtain ⟨hentries, htables⟩ := outside_eq.mp hleft
  exact ⟨hresult, outside_eq.mpr ⟨hentries, congrArg f htables⟩⟩

theorem cleaning {clean : Proc α σ ε Unit} (hp : Blind T p) (hclean : Blind T clean) :
    Blind T (p.cleaning clean) := by
  have ok {s : Store α σ} {b : β} (h : (p s).1 = .ok b) : p.cleaning clean s = p s := by
    simp only [Proc.cleaning]
    split
    · rename_i e t heq
      rw [heq] at h
      cases h
    · rfl
  have error {s : Store α σ} {e : ε} (h : (p s).1 = .error e) :
      p.cleaning clean s = (.error e, (clean (p s).2).2) := by
    rw [Proc.cleaning]
    split
    · rename_i e' t heq
      rw [heq] at h ⊢
      cases h
      rfl
    · rename_i hne
      exact (hne e (p s).2 (Prod.ext h rfl)).elim
  constructor
  · intro s t h
    obtain ⟨hresult, hleft⟩ := hp.sees h
    cases hs : (p s).1 with
    | error e =>
      rw [error hs, error (hresult.symm.trans hs)]
      exact ⟨rfl, (hclean.sees hleft).2⟩
    | ok b =>
      rw [ok hs, ok (hresult.symm.trans hs)]
      exact ⟨hresult, hleft⟩
  · intro s
    cases hs : (p s).1 with
    | error e =>
      rw [error hs]
      exact (hclean.keeps _).trans (hp.keeps s)
    | ok b =>
      rw [ok hs]
      exact hp.keeps s

end Blind

end AgentHouse.Regions
