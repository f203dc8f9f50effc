import AgentHouse.Host.Volumes
import AgentHouse.Host.Images

/-!
# What the actions of an operation do

A volume directory with what the host holds for it, a project image with its files and its
base namespace, and what an action does to the one that its operation holds. A call that reports
a failure may still have taken effect. In particular a failed `save` has replaced its file or
has left it as it was.
-/

namespace AgentHouse.Host

/-- A directory under `volumes`, the NBD attachment of its volume and its cgroup. -/
structure Volume where
  id : String
  record : Option Record
  owner : Bool
  /-- The device that the volume's client is attached to. -/
  link : Option Path
  group : List Process
deriving DecidableEq, Repr

/-- A volume with its entry in the table. -/
structure Slot where
  volume : Volume
  entry : Record
deriving DecidableEq, Repr

namespace Slot

/-- The record in memory changes. -/
def assign (s : Slot) (f : Record → Record) : Slot := { s with entry := f s.entry }

/-- The record file is replaced. -/
def store (s : Slot) (r : Record) : Slot := { s with volume := { s.volume with record := some r } }

/-- The record file and the entry are replaced. -/
def adopt (s : Slot) (r : Record) : Slot := { s.store r with entry := r }

/-- The mark of an owner in the volume's directory. -/
def withOwner (s : Slot) (owner : Bool) : Slot := { s with volume := { s.volume with owner } }

/-- The link to the device. -/
def withLink (s : Slot) (link : Option Path) : Slot := { s with volume := { s.volume with link } }

/-- A process joins the group of the volume. -/
def grouped (s : Slot) (p : Process) : Slot :=
  { s with volume := { s.volume with group := p :: s.volume.group } }

/-- What `detach` leaves. -/
def detached (s : Slot) : Slot := ((s.withLink none).assign Record.stopped).store s.entry.stopped

/-- What `reserve_residency` writes. -/
def resident (s : Slot) (device : Path) : Record :=
  { s.entry with device, evicted := false, gcAfter := none }

end Slot

/-- Whether a call succeeded. -/
def Succeeded {α : Type} (r : Result α) : Prop := ∃ a, r = .ok a

/-- What an action does to the slot that its operation holds. -/
def Act.does (cfg : Config) {β : Type} (a : Act β) (s : Slot) (b : β) (s' : Slot) : Prop :=
  match a with
  | .record => b = s.entry ∧ s' = s
  | .assign f => s' = s.assign f
  | .persist r => s' = s.store r ∨ (¬ Succeeded b ∧ s' = s)
  | .publish next =>
      (Succeeded b ∧ s' = s.adopt next) ∨ (¬ Succeeded b ∧ (s' = s ∨ s' = s.store next))
  | .reserve => ∃ device ∈ cfg.devices,
      (Succeeded b ∧ s' = s.adopt (s.resident device)) ∨
        (¬ Succeeded b ∧ (s' = s ∨ s' = s.store (s.resident device)))
  | .ownerDir => s' = s.withOwner true ∨ (¬ Succeeded b ∧ s' = s)
  | .removeOwner => s' = s.withOwner false ∨ (¬ Succeeded b ∧ s' = s)
  | .nbdPid device => s' = s ∧ (b = .ok none → s.volume.link ≠ some device)
  | .disconnect device => s' = s ∨ (s.volume.link = some device ∧ s' = s.withLink none)
  | .awaitDetached device =>
      (s' = s ∨ (s.volume.link = some device ∧ s' = s.withLink none)) ∧
        (Succeeded b → s'.volume.link ≠ some device)
  | .connect device _ => s' = s.withLink (some device) ∨ (¬ Succeeded b ∧ s' = s)
  | .enterGroup p => s' = s.grouped p ∨ (¬ Succeeded b ∧ s' = s)
  | .useDevice _ | .takeImports | .dropImports | .checkDigest _ | .ask _ _ => s' = s

/-- The device that an action works on. -/
def Act.device {β : Type} : Act β → Option Path
  | .nbdPid device | .disconnect device | .awaitDetached device | .connect device _
  | .useDevice device => some device
  | _ => none

/-- A project image: its registry and intent files, its two file names and its base. -/
structure Image where
  id : String
  candidate : Option Candidate
  intent : Option FailedIntent
  temporary : Option ImageFile
  published : Option ImageFile
  base : BaseHead
  objects : ℕ
deriving DecidableEq, Repr

namespace Image

/-- Both names lead to one inode. -/
def twice (s : Image) : Bool :=
  match s.temporary, s.published with
  | some t, some p => t.identity.inode = p.identity.inode
  | _, _ => false

/-- The file that was opened under either name. -/
def find (s : Image) (inode : ℕ) : Option ImageFile :=
  [s.temporary, s.published].reduceOption.find? (fun f => f.identity.inode = inode)

/-- The file `f` after a change that only its stamp shows. -/
def restamp (f : ImageFile) (stamp : ℕ) : ImageFile :=
  { f with identity := { f.identity with stamp } }

end Image

/-- What an action does to the image that its operation holds. -/
def ImageAct.does (cfg : Config) {β : Type} (a : ImageAct β) (s : Image) (b : β) (s' : Image) :
    Prop :=
  match a with
  | .candidateExists => b = s.candidate.isSome ∧ s' = s
  | .load => s' = s ∧ ∀ c, b = .ok c → s.candidate = some c
  | .save c | .admission c =>
      (c.validate cfg = .ok () ∧ s' = { s with candidate := some c }) ∨ (¬ Succeeded b ∧ s' = s)
  | .intent => b = s.intent ∧ s' = s
  | .seal f => s' = { s with intent := some f } ∨ (¬ Succeeded b ∧ s' = s)
  | .barrier c =>
      (c.phase = .retiring ∧ s' = s) ∨
        (c.sealed.validate cfg = .ok () ∧ s' = { s with candidate := some c.sealed }) ∨
        (¬ Succeeded b ∧ s' = s)
  | .temporaryExists => b = s.temporary.isSome ∧ s' = s
  | .publishedExists => b = s.published.isSome ∧ s' = s
  | .openTemporary create =>
      (∃ f, b = .ok f ∧ s.twice = false ∧
        ((s.temporary = some f ∧ s' = s) ∨
          (create = true ∧ s.temporary = none ∧ s' = { s with temporary := some f }))) ∨
        (¬ Succeeded b ∧ (s' = s ∨
          (create = true ∧ s.temporary = none ∧ ∃ f, s' = { s with temporary := some f })))
  | .openPublished => s' = s ∧ ∀ f, b = .ok f → s.published = some f ∧ s.twice = false
  | .sameFile => s' = s ∧ ∀ same, b = .ok same → same = s.twice
  | .unlinkTemporary =>
      (s' = { s with temporary := none } ∧ (∀ f, s.published = some f → s.twice = false)) ∨
        (∃ f stamp, s.published = some f ∧ s.twice = true ∧
          s' = { s with temporary := none, published := some (Image.restamp f stamp) }) ∨
        (¬ Succeeded b ∧ s' = s)
  | .unlinkPublished =>
      s' = { s with published := none } ∨ (¬ Succeeded b ∧ s' = s)
  | .exportRemote =>
      s' = s ∨ ∃ f g, s.temporary = some f ∧ g.identity.inode = f.identity.inode ∧
        s' = { s with temporary := some g }
  | .finalizeExport c =>
      (∃ f g v, b = .ok v ∧ s.temporary = some f ∧ g.identity.inode = f.identity.inode ∧
        g.identity.size = v.logicalBytes ∧ g.sha256 = v.digest ∧ g.trailer = some c.metadata ∧
        s' = { s with temporary := some g }) ∨
      (¬ Succeeded b ∧ (s' = s ∨ ∃ f g, s.temporary = some f ∧
        g.identity.inode = f.identity.inode ∧ s' = { s with temporary := some g }))
  | .setPermissions =>
      (∃ f stamp, s.temporary = some f ∧
        s' = { s with temporary := some (Image.restamp f stamp) }) ∨ (¬ Succeeded b ∧ s' = s)
  | .hardLink =>
      (∃ f stamp, s.temporary = some f ∧ s.published = none ∧
        s' = { s with temporary := some (Image.restamp f stamp),
                      published := some (Image.restamp f stamp) }) ∨
        (¬ Succeeded b ∧ s' = s)
  | .stat inode => s' = s ∧ ∀ f, b = .ok f → s.find inode = some f ∧ s.twice = false
  | .importBase digest size =>
      (∃ ref objects, b = .ok ref ∧ ref.image = digest ∧
        s' = { s with base := .ready size, objects }) ∨
      (¬ Succeeded b ∧ ∃ head objects, s' = { s with base := head, objects } ∧
        (head = s.base ∨ (s.base ≠ .tombstone ∧ (head = .importing size ∨ head = .ready size))))
  | .baseHead => s' = s ∧ ∀ head, b = .ok head → head = s.base
  | .retireBase => s' = { s with base := .tombstone } ∨ (¬ Succeeded b ∧ s' = s)
  | .sweepBase =>
      (∃ removed, removed ≤ s.objects ∧ (0 < s.objects → 0 < removed) ∧
        b = .ok (decide (s.objects = 0)) ∧ s' = { s with objects := s.objects - removed }) ∨
      (¬ Succeeded b ∧ ∃ objects, objects ≤ s.objects ∧ s' = { s with objects })
  | .tryImages | .dropImages | .ask _ _ => s' = s

end AgentHouse.Host
