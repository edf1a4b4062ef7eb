/-
  ContactDiscovery.Directory.Joining — nodes that come and go (`start`, `connect`, `rebuildLocalData`
  and `generateSnapshot` of `DirectoryManager.java`).

  Nodes share one Redis as in `ContactDiscovery.Directory.Replicas`, with the same calls, but a node may
  lose its connection at any moment: it drops its map, and calls that hold the old map update that one. It
  comes back in three steps: it subscribes, so that messages wait for it from then on; it gets a map,
  by a scan of the user set or from a peer; and it consumes what has waited.

  The set moves while it is scanned. What the scan promises is that it returns the elements that were
  in the set all the time since it began (`must`), and only elements that were in it at some time
  since (`may`). A peer publishes a token, waits until its consumer has met it, and writes the table
  its lookups read, which is as old as its last commit; the joining node reads the bytes and commits.

  The steps of any number of threads and nodes interleave freely. The proofs are in
  `ContactDiscovery.Directory.JoiningProofs`.
-/

import ContactDiscovery.Directory.Rebuild
import ContactDiscovery.Directory.Replicas

namespace ContactDiscovery.Directory.Joining

open Lib DirectoryMap Calls
open Enclave (Phone Uuid)

/-! ## Nodes -/

/-- What a node has; `consumed` is how much of the channel is behind it. -/
inductive Phase (ι φ : Type) where
  | down
  | subscribed (consumed : Nat)
  | scanning (consumed : Nat) (directoryMap : DirectoryMap φ) (must may done : List Text)
  /-- A peer has published a token, as this message of the channel. -/
  | awaiting (consumed : Nat) (peer : ι) (generation token : Nat)
  | loading (consumed : Nat) (snapshot : List Byte)
  | connected (consumed : Nat) (directoryMap : DirectoryMap φ)

structure Member (ι φ : Type) where
  generation : Nat
  phase : Phase ι φ

/-- Nodes `ι` and threads `κ`; a call holds one of the maps its node had, by its generation. -/
structure Cluster (ι κ φ : Type) where
  redis : Redis
  nodes : ι → Member ι φ
  running : κ → Option (Running (ι × Nat))

/-- A scan sees what is added to the set, and is not bound to what is removed. -/
def Phase.watch {ι φ : Type} (update : Update) (x : Text) : Phase ι φ → Phase ι φ
  | .scanning consumed directoryMap must may done =>
    match update with
    | .add => .scanning consumed directoryMap must (may ++ [x]) done
    | .remove => .scanning consumed directoryMap (must.filter (· ≠ x)) may done
  | phase => phase

/-! ## Steps -/

inductive Event (ι κ : Type) where
  /-- A thread enters a call on a connected node. -/
  | enter (t : κ) (i : ι) (update : Update) (uuid : Uuid) (address : Text)
  | redis (t : κ)
  | publish (t : κ)
  /-- The call updates the map it holds and ends. -/
  | updateMap (t : κ)
  /-- The call's next command to Redis throws, carried out or not, and the call with it. -/
  | throws (t : κ) (executed : Bool)
  | consume (i : ι)
  /-- `commitIfIsConnected`. -/
  | commit (i : ι)
  | keepAlive
  | disconnect (i : ι)
  | subscribe (i : ι)
  | scanBegin (i : ι)
  | scan (i : ι) (x : Text)
  | scanEnd (i : ι)
  | requestSnapshot (i peer : ι) (syncToken : Text)
  | writeSnapshot (i : ι)
  /-- The node reads the snapshot in these pieces. -/
  | readSnapshot (i : ι) (pieces : List (List Byte))
  | retry (i : ι)

variable {ι κ : Type} [DecidableEq ι] [DecidableEq κ] {φ : Type} [LoadFactor φ]

def Cluster.setPhase (s : Cluster ι κ φ) (i : ι) (phase : Phase ι φ) : Cluster ι κ φ :=
  { s with nodes := Function.update s.nodes i ⟨(s.nodes i).generation, phase⟩ }

/-- The node has no map; calls that hold one hold an old one. -/
def Cluster.setDown (s : Cluster ι κ φ) (i : ι) : Cluster ι κ φ :=
  { s with nodes := Function.update s.nodes i ⟨(s.nodes i).generation + 1, .down⟩ }

def Cluster.setRunning (s : Cluster ι κ φ) (t : κ) (call : Option (Running (ι × Nat))) : Cluster ι κ φ :=
  { s with running := Function.update s.running t call }

/-- A call's next step in Redis; scans see its change of the user set. -/
def Cluster.advance (s : Cluster ι κ φ) (t : κ) (r : Running (ι × Nat)) : Cluster ι κ φ :=
  let (redis, r') := r.advance s.redis
  { redis
    nodes := if r.stage = .entered then
        fun j => ⟨(s.nodes j).generation, (s.nodes j).phase.watch r.update (encodeUser r.uuid r.address)⟩
      else s.nodes
    running := Function.update s.running t (some r') }

def Cluster.updateMap (s : Cluster ι κ φ) (t : κ) (r : Running (ι × Nat)) : Option (Cluster ι κ φ) :=
  match (s.nodes r.target.1).phase with
  | .connected consumed directoryMap =>
    if (s.nodes r.target.1).generation = r.target.2 then
      match Calls.updateMap directoryMap r.phone r.uuid r.update with
      -- also if it throws
      | some (_, directoryMap) => some ((s.setPhase r.target.1 (.connected consumed directoryMap)).setRunning t none)
      | none => none
    else some (s.setRunning t none)
  | _ => some (s.setRunning t none)

/-- `rebuildLocalDataFromPeer` once the response is there; an exception is caught and it is tried
    again. -/
def loadSnapshot (f : DirectoryMapFactory φ) (pieces : List (List Byte)) : Option (DirectoryMap φ) :=
  match f.create 0 with
  | some (.ok directoryMap) =>
    match directoryMap.readFrom (pieces.map .data) with
    | (.ok (), directoryMap) =>
      match directoryMap.commit with
      | some (.ok _, directoryMap) => some directoryMap
      | _ => none
    | _ => none
  | _ => none

def step (f : DirectoryMapFactory φ) (s : Cluster ι κ φ) : Event ι κ → Option (Cluster ι κ φ)
  | .enter t i update uuid address =>
    match s.running t, parseAddress address, (s.nodes i).phase with
    | none, some phone, .connected _ _ =>
      some (s.setRunning t (some ⟨(i, (s.nodes i).generation), update, uuid, address, phone, .entered⟩))
    | _, _, _ => none
  | .redis t =>
    match s.running t with
    | some r => if r.stage = .entered then some (s.advance t r) else none
    | none => none
  | .publish t =>
    match s.running t with
    | some r => if r.stage ≠ .entered ∧ r.stage ≠ .published then some (s.advance t r) else none
    | none => none
  | .updateMap t =>
    match s.running t with
    | some r => if r.stage = .published then s.updateMap t r else none
    | none => none
  | .throws t executed =>
    match s.running t with
    | some r => if r.commands then some ((if executed then s.advance t r else s).setRunning t none) else none
    | none => none
  | .consume i =>
    match (s.nodes i).phase with
    | .connected consumed directoryMap =>
      match s.redis.channel[consumed]? with
      | none => none
      | some message =>
        match directoryMap.processMessage message with
        | some (.ok (), directoryMap) => some (s.setPhase i (.connected (consumed + 1) directoryMap))
        | _ => some (s.setDown i)
    | _ => none
  | .commit i =>
    match (s.nodes i).phase with
    | .connected consumed directoryMap =>
      match directoryMap.commit with
      | some (_, directoryMap) => some (s.setPhase i (.connected consumed directoryMap))
      | none => none
    | _ => none
  | .keepAlive => some { s with redis := s.redis.publish ⟨.keepalive, "keep alive".toList⟩ }
  | .disconnect i => some (s.setDown i)
  | .subscribe i =>
    match (s.nodes i).phase with
    | .down => some (s.setPhase i (.subscribed s.redis.channel.length))
    | _ => none
  | .scanBegin i =>
    match (s.nodes i).phase with
    | .subscribed consumed =>
      if s.redis.userSetBuilt then
        match f.create (DirectoryCache.getUserCount s.redis) with
        | some (.ok directoryMap) =>
          some (s.setPhase i (.scanning consumed directoryMap s.redis.users s.redis.users []))
        | _ => some (s.setDown i)
      else none
    | _ => none
  | .scan i x =>
    match (s.nodes i).phase with
    | .scanning consumed directoryMap must may done =>
      if x ∈ may then
        match decodeUser x with
        | none => some (s.setPhase i (.scanning consumed directoryMap must may (x :: done)))
        | some user =>
          match directoryMap.rebuildUser user with
          | some (.ok (), directoryMap) => some (s.setPhase i (.scanning consumed directoryMap must may (x :: done)))
          | _ => some (s.setDown i)
      else none
    | _ => none
  | .scanEnd i =>
    match (s.nodes i).phase with
    | .scanning consumed directoryMap must _ done =>
      if ∀ x ∈ must, x ∈ done then
        match directoryMap.commit with
        | some (.ok _, directoryMap) => some (s.setPhase i (.connected consumed directoryMap))
        | _ => some (s.setDown i)
      else none
    | _ => none
  | .requestSnapshot i peer syncToken =>
    match (s.nodes i).phase, (s.nodes peer).phase with
    | .subscribed consumed, .connected _ _ =>
      some { (s.setPhase i (.awaiting consumed peer (s.nodes peer).generation s.redis.channel.length)) with
        redis := s.redis.publish ⟨.keepalive, syncToken⟩ }
    | _, _ => none
  | .writeSnapshot i =>
    match (s.nodes i).phase with
    | .awaiting consumed peer generation token =>
      match (s.nodes peer).phase with
      | .connected consumedPeer directoryMap =>
        if (s.nodes peer).generation = generation ∧ token < consumedPeer then
          some (s.setPhase i (.loading consumed directoryMap.serving.writeTo))
        else none
      | _ => none
    | _ => none
  | .readSnapshot i pieces =>
    match (s.nodes i).phase with
    | .loading consumed snapshot =>
      if pieces.flatten = snapshot then
        match loadSnapshot f pieces with
        | some directoryMap => some (s.setPhase i (.connected consumed directoryMap))
        | none => some (s.setPhase i (.subscribed consumed))
      else none
    | _ => none
  | .retry i =>
    match (s.nodes i).phase with
    | .awaiting consumed _ _ _ => some (s.setPhase i (.subscribed consumed))
    | .loading consumed _ => some (s.setPhase i (.subscribed consumed))
    | _ => none

/-! ## What runs are asked to do -/

def NoMessage (r : Redis) (consumed : Nat) (p : Phone) : Prop :=
  ∀ m ∈ r.channel.drop consumed, (messageEffect m).map Prod.fst ≠ some p

instance (r : Redis) (consumed : Nat) (p : Phone) : Decidable (NoMessage r consumed p) :=
  inferInstanceAs (Decidable (∀ m ∈ r.channel.drop consumed, _))

/-- The map of the peer a joining node awaits a snapshot from, and where the joining node subscribed. -/
def peerMap (s : Cluster ι κ φ) (i : ι) : Option (Nat × DirectoryMap φ) :=
  match (s.nodes i).phase with
  | .awaiting consumed peer _ _ =>
    match (s.nodes peer).phase with
    | .connected _ directoryMap => some (consumed, directoryMap)
    | _ => none
  | _ => none

/-- The table the peer writes has all its building table has, but for phones about which a message
    waits for the joining node; and its size fits the header. -/
def Fresh (s : Cluster ι κ φ) (i : ι) : Prop :=
  ∀ x ∈ peerMap s i,
    (∀ e ∈ x.2.serving.contents ++ x.2.building.contents, NoMessage s.redis x.1 e.1 →
      x.2.serving.lookup e.1 = x.2.building.lookup e.1) ∧ x.2.serving.capacity < 2 ^ 32

def Separate (owner : Phone → User) (s : Cluster ι κ φ) : Event ι κ → Prop
  | .enter _ _ _ uuid address => Owns owner (uuid, address)
  | .redis t => SameKind s.running t
  | .throws t executed => ThrowsClean s.redis s.running t executed
  | .writeSnapshot i => Fresh s i
  | _ => True

instance (s : Cluster ι κ φ) (i : ι) : Decidable (Fresh s i) :=
  inferInstanceAs (Decidable (∀ x ∈ peerMap s i, _ ∧ _))

instance [Fintype κ] (owner : Phone → User) (s : Cluster ι κ φ) : ∀ e, Decidable (Separate owner s e)
  | .enter _ _ _ uuid address => inferInstanceAs (Decidable (Owns owner (uuid, address)))
  | .redis t => inferInstanceAs (Decidable (SameKind s.running t))
  | .throws t executed => inferInstanceAs (Decidable (ThrowsClean s.redis s.running t executed))
  | .writeSnapshot i => inferInstanceAs (Decidable (Fresh s i))
  | .publish _ | .updateMap _ | .consume _ | .commit _ | .keepAlive | .disconnect _ | .subscribe _
  | .scanBegin _ | .scan _ _ | .scanEnd _ | .requestSnapshot _ _ _ | .readSnapshot _ _ | .retry _ => .isTrue trivial

def EntryOf (x : Text) (u : Uuid) (p : Phone) : Prop := ∃ a, decodeUser x = some (u, a) ∧ parseAddress a = some p

def Stores (r : Redis) (p : Phone) (u : Uuid) : Prop := ∃ x ∈ r.users, EntryOf x u p

/-- The map has for the phone what the user set has. -/
def Holds (m : Phone → Option Uuid) (r : Redis) (p : Phone) : Prop := ∀ u, m p = some u ↔ Stores r p u

/-- Every entry of a phone is that of its owner, as `encodeUser` writes it. -/
def Owned (owner : Phone → User) (users : List Text) : Prop :=
  ∀ x ∈ users, ∀ u a p, decodeUser x = some (u, a) → parseAddress a = some p → (u, a) = owner p ∧ x = encodeUser u a

/-- No call is running, every entry is its owner's, and every node is down, or connected with nothing
    waiting and a map that has what the user set has. -/
structure Start (owner : Phone → User) (s : Cluster ι κ φ) : Prop where
  idle : ∀ t, s.running t = none
  owned : Owned owner s.redis.users
  nodes : ∀ i, (s.nodes i).phase = .down ∨ ∃ d, (s.nodes i).phase = .connected s.redis.channel.length d ∧
    Sound d ∧ d.serving.Refines d.serving.lookup ∧ ∀ p, Holds d.map s.redis p

end ContactDiscovery.Directory.Joining
