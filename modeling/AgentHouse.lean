import AgentHouse.Broker.Draining
import AgentHouse.Broker.Drift
import AgentHouse.Broker.Host
import AgentHouse.Broker.Identities
import AgentHouse.Broker.Launching
import AgentHouse.Broker.Manageable
import AgentHouse.Broker.Parties
import AgentHouse.Broker.Possible
import AgentHouse.Broker.Programs
import AgentHouse.Broker.Registry
import AgentHouse.Broker.Serving
import AgentHouse.Broker.Sound
import AgentHouse.Broker.Workers
import AgentHouse.Cache.Calls
import AgentHouse.Cache.State
import AgentHouse.Cache.Transparent
import AgentHouse.Daemon.Activity
import AgentHouse.Daemon.Acyclic
import AgentHouse.Daemon.Admission
import AgentHouse.Daemon.Credentials
import AgentHouse.Daemon.Forwarding
import AgentHouse.Daemon.Locks
import AgentHouse.Daemon.Previews
import AgentHouse.Daemon.Replacement
import AgentHouse.Engine.Derived
import AgentHouse.Engine.Proofs
import AgentHouse.Engine.Proving
import AgentHouse.Forge.Agent
import AgentHouse.Forge.Answers
import AgentHouse.Forge.Discipline
import AgentHouse.Forge.Inputs
import AgentHouse.Forge.Manager
import AgentHouse.Forge.Registry
import AgentHouse.Forge.Sessions
import AgentHouse.Forge.Signals
import AgentHouse.Forge.Streams
import AgentHouse.Host.Bindings
import AgentHouse.Host.Budgets
import AgentHouse.Host.Candidates
import AgentHouse.Host.Contracts
import AgentHouse.Host.Images
import AgentHouse.Host.Records
import AgentHouse.Host.Restart
import AgentHouse.Host.Slots
import AgentHouse.Host.Supervisor
import AgentHouse.Host.System
import AgentHouse.Host.Volumes
import AgentHouse.Ledger.Changes
import AgentHouse.Ledger.Charges
import AgentHouse.Ledger.Images
import AgentHouse.Ledger.Interference
import AgentHouse.Ledger.Owners
import AgentHouse.Ledger.Pins
import AgentHouse.Ledger.Receipts
import AgentHouse.Ledger.Store
import AgentHouse.Ledger.System
import AgentHouse.Lib.Allowances
import AgentHouse.Lib.Blocks
import AgentHouse.Lib.DomainNames
import AgentHouse.Lib.Files
import AgentHouse.Lib.Frames
import AgentHouse.Lib.Headers
import AgentHouse.Lib.Json
import AgentHouse.Lib.Lines
import AgentHouse.Lib.Loops
import AgentHouse.Lib.Machines
import AgentHouse.Lib.Outcomes
import AgentHouse.Lib.Ownership
import AgentHouse.Lib.Pools
import AgentHouse.Lib.Prefixed
import AgentHouse.Lib.Programs
import AgentHouse.Lib.Regions
import AgentHouse.Lib.Slices
import AgentHouse.Lib.Tables
import AgentHouse.Lib.Traces
import AgentHouse.Lib.Triples
import AgentHouse.Lib.Updates
import AgentHouse.Local.Bound
import AgentHouse.Local.Buffer
import AgentHouse.Local.Candidates
import AgentHouse.Local.Disk
import AgentHouse.Local.Journal
import AgentHouse.Local.Linear
import AgentHouse.Local.Machine
import AgentHouse.Local.Recovering
import AgentHouse.Local.Replicate
import AgentHouse.Local.Running
import AgentHouse.Local.Versions
import AgentHouse.Local.Writing
import AgentHouse.Nbd.Server
import AgentHouse.Nbd.Serving
import AgentHouse.Nbd.Transcript
import AgentHouse.Netd.Addresses
import AgentHouse.Netd.Admission
import AgentHouse.Netd.Bandwidth
import AgentHouse.Netd.Dns
import AgentHouse.Netd.Echo
import AgentHouse.Netd.Egress
import AgentHouse.Netd.Flows
import AgentHouse.Netd.Framing
import AgentHouse.Netd.Gateway
import AgentHouse.Netd.Link
import AgentHouse.Netd.Relay
import AgentHouse.Netd.Wire
import AgentHouse.Owned.Calls
import AgentHouse.Owned.Exclusive
import AgentHouse.Owned.Export
import AgentHouse.Owned.Invariant
import AgentHouse.Owned.Store
import AgentHouse.Owned.System
import AgentHouse.Proto.Frames
import AgentHouse.Runs.Capture
import AgentHouse.Runs.Cursor
import AgentHouse.Runs.Exact
import AgentHouse.Runs.Fencing
import AgentHouse.Runs.Guest
import AgentHouse.Runs.Identity
import AgentHouse.Runs.Lanes
import AgentHouse.Runs.Moves
import AgentHouse.Runs.Outbox
import AgentHouse.Runs.Release
import AgentHouse.Runs.Reserve
import AgentHouse.Runs.Store
import AgentHouse.Volume.Adapter
import AgentHouse.Volume.Calls
import AgentHouse.Volume.Commit
import AgentHouse.Volume.Compact
import AgentHouse.Volume.Contents
import AgentHouse.Volume.Creating
import AgentHouse.Volume.Failing
import AgentHouse.Volume.First
import AgentHouse.Volume.Formats
import AgentHouse.Volume.Indexed
import AgentHouse.Volume.Leads
import AgentHouse.Volume.Loads
import AgentHouse.Volume.Moves
import AgentHouse.Volume.Opening
import AgentHouse.Volume.Packing
import AgentHouse.Volume.Page
import AgentHouse.Volume.Plans
import AgentHouse.Volume.Provenance
import AgentHouse.Volume.Publishing
import AgentHouse.Volume.Refinement
import AgentHouse.Volume.Rewrite
import AgentHouse.Volume.Sample
import AgentHouse.Volume.Shapes
import AgentHouse.Volume.Store
import AgentHouse.Volume.Verified
import AgentHouse.Volume.Wire
import AgentHouse.Volume.Working
