import AgentHouse.Broker.Serving

/-!
# Worker broker: every reachable state is sound

The invariant holds on a fresh host and survives every step of the broker and of the host, so it
holds in every state that is reached, through any requests, restarts and crashes.
-/

namespace AgentHouse.Broker

open Op

variable {s s' start : World} {p q : Process} {l m : Launch} {k : Key}

/-- A host without workers is sound. -/
theorem Fresh.sound (h : Fresh s) : Sound s := by
  have howners : s.owners = s.procs := by rw [World.owners, h.zombies, List.append_nil]
  have hworker : ∀ p l, ¬ s.IsWorker p l := by
    rintro p l ⟨hp, hlaunch, _⟩
    rw [(h.foreign p hp).1] at hlaunch
    cases hlaunch
  refine ⟨⟨?_, ?_, ?_, ?_, ?_⟩, ?_, ?_, ⟨?_, ?_, ?_, ?_⟩, ?_, ?_, ?_, ?_⟩
  · rw [howners]
    exact fun p hp q hq heq => List.inj_on_of_nodup_map h.pids.1 hp hq heq
  · rw [howners]
    exact fun p hp q hq heq => List.inj_on_of_nodup_map h.serials.1 hp hq heq
  · rw [howners]
    exact h.pids.2
  · rw [howners]
    exact h.serials.2
  · rw [h.zombies]
    exact fun _ _ hz => absurd hz List.not_mem_nil
  · rw [h.spawned]
    exact List.Pairwise.nil
  · intro p hp l hl
    rw [(h.foreign p hp).1] at hl
    cases hl
  · rw [h.registry.1]
    exact Nat.zero_le _
  · rw [h.spawned]
    exact fun _ hl => absurd hl List.not_mem_nil
  · intro k e he
    rw [Registry.find, h.registry.2] at he
    cases he
  · exact fun p l hw => absurd hw (hworker p l)
  · intro r hr
    rw [h.disk] at hr
    cases hr
  · exact fun _ => h.spawned
  · rw [h.signals]
    exact fun _ hg => absurd hg List.not_mem_nil
  · rw [h.children]
    exact fun _ hx => absurd hx List.not_mem_nil

/-- A crash of the broker keeps the invariant. -/
theorem Sound.halted (h : Sound s) : Sound s.halted := by
  have hworker : ∀ p l, s.halted.IsWorker p l → ∃ q, s.IsWorker q l ∧
      q.pid = p.pid ∧ q.start = p.start ∧ (q.Runs l → p.Runs l) := by
    rintro p l ⟨hp, hlaunch, hplanned⟩
    obtain ⟨q, hq, rfl⟩ := List.mem_map.mp hp
    exact ⟨q, ⟨hq, hlaunch, hplanned⟩, rfl, rfl, id⟩
  have hcovers : ∀ r, Covers r s → Covers r s.halted := by
    intro r hr
    refine ⟨hr.capacity, hr.assigned, hr.entries, fun p l hw => ?_⟩
    obtain ⟨q, hq, hpid, hstart, hruns⟩ := hworker p l hw
    obtain ⟨hgroup, e, hfind, hdescribes, hready⟩ := hr.workers q l hq
    refine ⟨hgroup, e, hfind, ?_, fun hi => hruns (hready hi)⟩
    rw [Entry.Describes, ← hpid, ← hstart]
    exact hdescribes
  refine ⟨?_, h.slots, ?_, hcovers _ h.memory, fun r hr => hcovers r (h.stored r hr), h.first,
    h.signals, fun _ hx => absurd hx List.not_mem_nil⟩
  · refine h.distinct.image (f := fun p => { p with child := false }) (fun _ => ⟨rfl, rfl⟩) ?_ rfl
      fun _ _ hz => absurd hz List.not_mem_nil
    intro p hp
    obtain hp | hp := List.mem_append.mp hp
    · obtain ⟨q, hq, rfl⟩ := List.mem_map.mp hp
      exact ⟨q, List.mem_append_left _ hq, rfl⟩
    · cases hp
  · intro p hp l hl
    obtain ⟨q, hq, rfl⟩ := List.mem_map.mp hp
    exact h.launched q hq l hl

theorem ready_leads (hs : Sound s) : (perform .ready : Op Act IoError Unit).Keeps contract
    (fun _ s' => Sound s') s :=
  ⟨trivial, fun _ _ hdoes => sound_preserved (a := Act.ready) hs trivial hdoes⟩

/-- Every program of the broker keeps its contract. -/
theorem begins_keeps {p : Prog Act Unit} (hs : Sound s) (h : Begins s p) :
    p.Keeps contract (fun _ _ => True) s := by
  cases h with
  | starts cfg _ =>
    refine Prog.keeps_bind.mpr (keeps_bind.mpr (Keeps.mono (openBroker_leads s hs) ?_))
    rintro (e | _) s' ⟨hs', _⟩
    · trivial
    · exact Keeps.mono (ready_leads hs') fun _ _ _ => trivial
  | compacts cfg _ =>
    refine Prog.keeps_bind.mpr (keeps_bind.mpr (Keeps.mono (openBroker_leads s hs) ?_))
    rintro (e | _) s' ⟨hs', _⟩
    · trivial
    · exact Keeps.mono (compact_keeps hs') fun _ _ _ => trivial
  | maintains _ => exact Prog.keeps_bind.mpr (Keeps.mono (maintain_leads hs) fun _ _ _ => trivial)
  | serves uid q _ => exact Prog.keeps_bind.mpr (Keeps.mono (serve_keeps hs) fun _ _ _ => trivial)

/-- The invariant holds in every state, also inside a program. -/
theorem reaches_sound (hstart : Fresh start) (h : machine.Reaches start s) : Sound s :=
  h.invariant hstart.sound (fun _ => .refl) .trans (fun hs hdrift => hs.drift hdrift)
    (fun hs heq => heq ▸ hs.halted) sound_preserved begins_keeps

end AgentHouse.Broker
