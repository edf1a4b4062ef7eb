/-
  ContactDiscovery.Directory.JoiningProofs — nodes that join have what the user set has.

  A phone is settled for a node if no message about it waits for the node and no call has changed
  the set at it without having published that (`Settled`). The invariant is that a node's map has
  for every settled phone what the set has; that a scan's window is exact for every settled phone;
  and that the last message about a phone, if no change of it is unpublished, says what the set has.
  A phone that is not settled has a message to come, which will be the last.

  Proved: `joins_converge`, once no call is running, every connected node with nothing waiting has
  exactly the phones of the user set with their uuids, for all runs in which calls are as in
  `ContactDiscovery.Directory.Replicas` and what peers write is fresh; `joined_maps_eq`, so the map of a
  node that joined from a peer is the peer's. With one uuid per phone alone the first fails
  (`two_texts_diverge`); and a peer writes what it last committed, so that an update published before
  the joining node subscribed and not yet committed is lost (`stale_snapshot_loses_update`).
  `run_ofReplicas` and `solo_call` tie the two models of calls to each other and to the calls of
  `ContactDiscovery.Directory.DirectoryManager`.
-/

import ContactDiscovery.Directory.Joining

namespace ContactDiscovery.Directory

open Lib Lib.Replay Calls
open Enclave (Phone Uuid)

/-! ## What the steps do to a map -/

namespace DirectoryMap

variable {φ : Type} [LoadFactor φ] {d d' : DirectoryMap φ}

theorem insert_serving {k : Phone} {u : Uuid} {r : Except (InternalBuffersError φ) Bool}
    (h : d.insert k u = some (r, d')) : d'.serving = d.serving := by
  simp only [insert] at h
  split at h
  · cases h
  · cases h; rfl

omit [LoadFactor φ] in
theorem remove_serving {k : Phone} {r : Except (InternalBuffersError φ) Bool}
    (h : d.remove k = some (r, d')) : d'.serving = d.serving := by
  simp only [remove] at h
  split at h
  · cases h
  · cases h; rfl

theorem updateMap_serving {p : Phone} {u : Uuid} {update : Update} {r : Except (InternalBuffersError φ) Bool}
    (h : updateMap d p u update = some (r, d')) : d'.serving = d.serving := by
  cases update with
  | add => exact insert_serving h
  | remove => exact remove_serving h

theorem processMessage_serving {m : PubSubMessage} {r : Except (ManagerError φ) Unit}
    (h : d.processMessage m = some (r, d')) : d'.serving = d.serving := by
  obtain ⟨type, content⟩ := m
  cases type with
  | added => cases h; rfl
  | keepalive => cases h; rfl
  | addedUser =>
    simp only [processMessage] at h
    split at h
    · cases h; rfl
    split at h
    · cases h; rfl
    split at h
    · cases h
    · rename_i hi; cases h; exact insert_serving hi
    · rename_i hi; cases h; exact insert_serving hi
  | removed =>
    simp only [processMessage] at h
    split at h
    · cases h; rfl
    split at h
    · cases h
    · rename_i hi; cases h; exact remove_serving hi
    · rename_i hi; cases h; exact remove_serving hi

theorem rebuildUser_ok {user : User} (hd : Sound d) (h : d.rebuildUser user = some (.ok (), d')) :
    Sound d' ∧ d'.serving = d.serving ∧
      (parseAddress user.2 = none ∧ d'.map = d.map ∨
        ∃ p, parseAddress user.2 = some p ∧ d'.map = Function.update d.map p (some user.1)) := by
  simp only [rebuildUser] at h
  split at h
  · rename_i hp
    cases h
    exact ⟨hd, rfl, .inl ⟨hp, rfl⟩⟩
  · rename_i p hp
    split at h
    · cases h
    · cases h
    · rename_i hi
      cases h
      obtain ⟨hs, hm⟩ := insert_ok hd hi
      exact ⟨hs, insert_serving hi, .inr ⟨p, hp, hm⟩⟩

omit [LoadFactor φ] in
theorem commit_tables {r : Except (InternalBuffersError φ) Bool} (h : d.commit = some (r, d')) :
    d'.building = d.building ∧ (d'.serving = d.serving ∨ d'.serving = d.building) := by
  simp only [commit] at h
  split at h
  · cases h; exact ⟨rfl, .inl rfl⟩
  split at h
  · cases h
  · rename_i building hcopy
    cases h
    exact ⟨copyFrom_eq hcopy, .inr rfl⟩

def BothSound (d : DirectoryMap φ) : Prop := Sound d ∧ d.serving.Refines d.serving.lookup

omit [LoadFactor φ] in
theorem commit_sound {r : Except (InternalBuffersError φ) Bool} (hd : BothSound d) (h : d.commit = some (r, d')) :
    BothSound d' ∧ d'.map = d.map := by
  obtain ⟨hb, hs⟩ := commit_tables h
  refine ⟨⟨?_, ?_⟩, ?_⟩
  · rw [Sound, map, hb]; exact hd.1
  · rcases hs with hs | hs
    · rw [hs]; exact hd.2
    · rw [hs]; exact hd.1
  · rw [map, hb]; rfl

theorem create_sound {f : DirectoryMapFactory φ} {n : Nat} (h : f.create n = some (.ok d)) :
    BothSound d ∧ d.map = fun _ => none := by
  simp only [DirectoryMapFactory.create, new] at h
  split at h
  · cases h
  · cases h
  rename_i t hnew
  cases h
  have href := InternalBuffers.new_refines hnew
  have hmap : t.lookup = fun _ => none := href.map
  have hself : t.Refines t.lookup := hmap ▸ href
  exact ⟨⟨hself, hself⟩, hmap⟩

end DirectoryMap

namespace Joining

variable {ι κ : Type} [DecidableEq ι] [DecidableEq κ] {φ : Type} [LoadFactor φ]

open DirectoryMap

/-- A snapshot is loaded as the table it was written from. -/
theorem loadSnapshot_sound {f : DirectoryMapFactory φ} {pieces : List (List Byte)} {d : DirectoryMap φ}
    {t : InternalBuffers φ} {m : Phone → Option Uuid} (ht : t.Refines m) (hcap : t.capacity < 2 ^ 32)
    (hbytes : pieces.flatten = t.writeTo) (h : loadSnapshot f pieces = some d) : BothSound d ∧ d.map = m := by
  simp only [loadSnapshot] at h
  split at h
  swap
  · cases h
  rename_i d₀ hcreate
  obtain ⟨⟨-, hserving⟩, -⟩ := create_sound hcreate
  have hcount := ht.elementCount_le
  have hused : t.usedSlotCount ≤ t.capacity := by rw [ht.used]; exact List.countP_le_length
  have hread := InternalBuffers.readFrom_writeTo ht.wf.length hcap (by omega) (by omega) ⟨pieces, rfl, hbytes⟩ d₀.building
  simp only [readFrom_eq, hread] at h
  split at h
  swap
  · cases h
  rename_i b d₁ hcommit
  cases h
  -- the load factors are beside the map
  obtain ⟨table, htable⟩ : ∃ table, table =
      { t with minLoadFactor := d₀.building.minLoadFactor, maxLoadFactor := d₀.building.maxLoadFactor } := ⟨_, rfl⟩
  have href : table.Refines m := htable ▸ ⟨ht.wf, ht.small, ht.map, ht.elements, ht.used⟩
  rw [← htable, show (Except.ok () : Except (InternalBuffersError φ) Unit).isOk = true from rfl, Bool.or_true] at hcommit
  have hself : table.Refines table.lookup := by rw [href.map]; exact href
  have hboth : BothSound (⟨true, table, d₀.serving⟩ : DirectoryMap φ) := ⟨hself, hserving⟩
  obtain ⟨hsound, hmap⟩ := commit_sound hboth hcommit
  exact ⟨hsound, hmap.trans href.map⟩

/-! ## Steps with none in between -/

omit [DecidableEq κ] [LoadFactor φ] in
theorem setPhase_setPhase (s : Cluster ι κ φ) (i : ι) (phase phase' : Phase ι φ) :
    (s.setPhase i phase).setPhase i phase' = s.setPhase i phase' := by
  simp [Cluster.setPhase]

omit [DecidableEq κ] [LoadFactor φ] in
theorem phase_setPhase (s : Cluster ι κ φ) (i : ι) (phase : Phase ι φ) : ((s.setPhase i phase).nodes i).phase = phase := by
  simp [Cluster.setPhase]

/-- The four steps of a call with none in between are the call. -/
theorem solo_call {f : DirectoryMapFactory φ} {s s' : Cluster ι κ φ} {t : κ} {i : ι} {update : Update} {uuid : Uuid}
    {address : Text} {c : Nat} {d : DirectoryMap φ} (b : Bool) (hphase : (s.nodes i).phase = .connected c d)
    (h : Runs.run (step f) s [.enter t i update uuid address, .redis t, .publish t, .updateMap t] = some s') :
    ∃ r d', call ⟨b, s.redis, d⟩ uuid address update = some (r, ⟨b, s'.redis, d'⟩) ∧
      (s'.nodes i).phase = .connected c d' := by
  simp only [Runs.run, Option.bind_eq_some_iff] at h
  obtain ⟨s₁, h₁, s₂, h₂, s₃, h₃, s₄, h₄, h⟩ := h
  cases h
  simp only [step, hphase] at h₁
  split at h₁
  swap
  · cases h₁
  rename_i p c₁ d₁ hidle hp hp'
  cases hp'
  cases h₁
  simp only [step, Cluster.setRunning, Function.update_self, if_true, Cluster.advance, Running.advance] at h₂
  cases h₂
  simp only [step, Function.update_self, ne_eq, reduceCtorEq, not_false_eq_true, and_self, if_true, if_false,
    Cluster.advance, Running.advance] at h₃
  cases h₃
  simp only [step, Function.update_self, if_true, Cluster.updateMap, hphase, Phase.watch] at h₄
  split at h₄
  swap
  · cases h₄
  rename_i r d' hmap
  cases h₄
  cases update with
  | add =>
    simp only [updateMap] at hmap
    simp only [call, Node.addUser, hp, hmap]
    cases r <;> exact ⟨_, d', rfl, phase_setPhase _ _ _⟩
  | remove =>
    simp only [updateMap] at hmap
    simp only [call, Node.removeUser, hp, hmap]
    cases r <;> exact ⟨_, d', rfl, phase_setPhase _ _ _⟩

/-! ### Nodes that stay -/

def onFirst (r : Running ι) : Running (ι × Nat) := { r with target := (r.target, 0) }

/-- Replicas are nodes that are all connected, each with the map it began with. -/
def ofReplicas (s : Replicas.Cluster ι κ φ) : Cluster ι κ φ where
  redis := s.redis
  nodes i := ⟨0, .connected (s.nodes i).consumed (s.nodes i).directoryMap⟩
  running t := (s.running t).map onFirst

def ofEvent : Replicas.Event ι κ → Event ι κ
  | .enter t i update uuid address => .enter t i update uuid address
  | .redis t => .redis t
  | .publish t => .publish t
  | .updateMap t => .updateMap t
  | .throws t executed => .throws t executed
  | .consume i => .consume i

omit [DecidableEq ι] [LoadFactor φ] in
theorem ofReplicas_setRunning (s : Replicas.Cluster ι κ φ) (t : κ) (o : Option (Running ι)) :
    ofReplicas (s.setRunning t o) = (ofReplicas s).setRunning t (o.map onFirst) := by
  simp only [ofReplicas, Replicas.Cluster.setRunning, Cluster.setRunning, Cluster.mk.injEq, true_and]
  exact funext fun t' => Function.apply_update (fun _ => Option.map onFirst) s.running t o t'

omit [DecidableEq ι] [LoadFactor φ] in
theorem ofReplicas_advance (s : Replicas.Cluster ι κ φ) (t : κ) (r : Running ι) :
    ofReplicas (s.advance t r) = (ofReplicas s).advance t (onFirst r) := by
  have hrun := fun o => congrArg Cluster.running (ofReplicas_setRunning s t o)
  simp only [ofReplicas, Replicas.Cluster.setRunning, Cluster.setRunning] at hrun
  cases hst : r.stage <;>
    simp [ofReplicas, Replicas.Cluster.advance, Cluster.advance, Running.advance, onFirst, hst, hrun, Phase.watch]

omit [DecidableEq κ] [LoadFactor φ] in
theorem ofReplicas_setNode (s : Replicas.Cluster ι κ φ) (i : ι) (n : Replicas.Replica φ) :
    ofReplicas { s with nodes := Function.update s.nodes i n } =
      (ofReplicas s).setPhase i (.connected n.consumed n.directoryMap) := by
  simp only [ofReplicas, Cluster.setPhase, Cluster.mk.injEq, true_and, and_true]
  exact funext fun j => Function.apply_update
    (fun _ (n : Replicas.Replica φ) => (⟨0, .connected n.consumed n.directoryMap⟩ : Member ι φ)) s.nodes i n j

/-- What replicas do is done by nodes that stay. -/
theorem step_ofReplicas (f : DirectoryMapFactory φ) {s s' : Replicas.Cluster ι κ φ} {e : Replicas.Event ι κ}
    (h : Replicas.step s e = some s') : step f (ofReplicas s) (ofEvent e) = some (ofReplicas s') := by
  have hrunning : ∀ t, (ofReplicas s).running t = (s.running t).map onFirst := fun _ => rfl
  have hphase : ∀ i, ((ofReplicas s).nodes i).phase = .connected (s.nodes i).consumed (s.nodes i).directoryMap := fun _ => rfl
  cases e with
  | enter t i update uuid address =>
    simp only [Replicas.step] at h
    split at h
    swap
    · cases h
    rename_i p hidle hp
    cases h
    simp only [ofEvent, step, hrunning, hidle, hp, hphase, Option.map_none, ofReplicas_setRunning]
    rfl
  | redis t =>
    simp only [Replicas.step] at h
    split at h
    swap
    · cases h
    rename_i r hr
    obtain ⟨hst, h⟩ := Option.ite_none_right_eq_some.mp h
    cases h
    have hst' : (onFirst r).stage = .entered := hst
    simp only [ofEvent, step, hrunning, hr, Option.map_some, if_pos hst', ofReplicas_advance]
  | publish t =>
    simp only [Replicas.step] at h
    split at h
    swap
    · cases h
    rename_i r hr
    obtain ⟨hst, h⟩ := Option.ite_none_right_eq_some.mp h
    cases h
    have hst' : (onFirst r).stage ≠ .entered ∧ (onFirst r).stage ≠ .published := hst
    simp only [ofEvent, step, hrunning, hr, Option.map_some, if_pos hst', ofReplicas_advance]
  | updateMap t =>
    simp only [Replicas.step] at h
    split at h
    swap
    · cases h
    rename_i r hr
    obtain ⟨hst, h⟩ := Option.ite_none_right_eq_some.mp h
    split at h
    swap
    · cases h
    rename_i b d hmap
    cases h
    have hst' : (onFirst r).stage = .published := hst
    have hnode := ofReplicas_setNode s r.target { s.nodes r.target with directoryMap := d }
    have hend := ofReplicas_setRunning
      { s with nodes := Function.update s.nodes r.target { s.nodes r.target with directoryMap := d } } t none
    simp only [ofEvent, step, hrunning, hr, Option.map_some, if_pos hst', Cluster.updateMap]
    simp only [onFirst, hphase, hmap]
    exact congrArg some (hend.trans (by rw [hnode]; rfl)).symm
  | throws t executed =>
    simp only [Replicas.step] at h
    split at h
    swap
    · cases h
    rename_i r hr
    obtain ⟨hcmd, h⟩ := Option.ite_none_right_eq_some.mp h
    cases h
    have hcmd' : (onFirst r).commands = true := hcmd
    simp only [ofEvent, step, hrunning, hr, Option.map_some, if_pos hcmd', ofReplicas_setRunning, Option.map_none]
    cases executed with
    | false => rfl
    | true => rw [if_pos rfl, if_pos rfl, ofReplicas_advance]
  | consume i =>
    simp only [Replicas.step] at h
    split at h
    · cases h
    rename_i m hm
    split at h
    swap
    · cases h
    rename_i d hd
    cases h
    have hm' : (ofReplicas s).redis.channel[(s.nodes i).consumed]? = some m := hm
    simp only [ofEvent, step, hphase, hm', hd]
    exact congrArg some (ofReplicas_setNode s i ⟨d, (s.nodes i).consumed + 1⟩).symm

theorem run_ofReplicas (f : DirectoryMapFactory φ) {s s' : Replicas.Cluster ι κ φ} {events : List (Replicas.Event ι κ)}
    (h : Runs.run Replicas.step s events = some s') :
    Runs.run (step f) (ofReplicas s) (events.map ofEvent) = some (ofReplicas s') :=
  Runs.run_map (fun _ _ _ => step_ofReplicas f) h

theorem scan_run {f : DirectoryMapFactory φ} {i : ι} {c : Nat} {must may : List Text} {d' : DirectoryMap φ}
    {xs : List Text} (s : Cluster ι κ φ) (hxs : ∀ x ∈ xs, x ∈ may) :
    ∀ {d : DirectoryMap φ} {done : List Text}, rebuildUsers (DirectoryCache.getAllUsers xs) d = some (.ok (), d') →
      Runs.run (step f) (s.setPhase i (.scanning c d must may done)) (xs.map (.scan i)) =
        some (s.setPhase i (.scanning c d' must may (xs.reverse ++ done))) := by
  induction xs with
  | nil => intro d done h; cases h; rfl
  | cons x xs ih =>
    intro d done h
    have hx := hxs x List.mem_cons_self
    have hrest := fun y hy => hxs y (List.mem_cons_of_mem _ hy)
    rw [List.map_cons, Runs.run, List.reverse_cons, List.append_assoc]
    simp only [step, phase_setPhase, if_pos hx]
    rw [DirectoryCache.getAllUsers] at h
    cases hdec : decodeUser x with
    | none =>
      rw [List.filterMap_cons_none hdec] at h
      simp only [setPhase_setPhase, Option.bind_some]
      exact ih hrest h
    | some user =>
      rw [List.filterMap_cons_some hdec, rebuildUsers] at h
      split at h
      · cases h
      · cases h
      · rename_i d₁ hu
        simp only [hu, setPhase_setPhase, Option.bind_some]
        exact ih hrest h

/-- The scan of a set that does not move is the rebuild from Redis. -/
theorem solo_scan {f : DirectoryMapFactory φ} {s : Cluster ι κ φ} {i : ι} {c : Nat} {xs : List Text} {d : DirectoryMap φ}
    (hphase : (s.nodes i).phase = .subscribed c) (hscan : ScanOf s.redis [xs])
    (h : f.rebuildLocalDataFromRedis s.redis [xs] = some (.ok (some d))) :
    Runs.run (step f) s (Event.scanBegin i :: xs.map (Event.scan i) ++ [Event.scanEnd i]) = some (s.setPhase i (.connected c d)) := by
  have hmem : ∀ x, x ∈ xs ↔ x ∈ s.redis.users := fun x => by simpa using hscan x
  simp only [DirectoryMapFactory.rebuildLocalDataFromRedis, rebuildLocalUsersFromRedis_eq] at h
  split at h
  · cases h
  rename_i hbuilt
  split at h
  · cases h
  · cases h
  rename_i d₀ hcreate
  split at h
  · cases h
  · cases h
  rename_i d₁ hrebuild
  split at h
  · cases h
  · cases h
  rename_i b d₂ hcommit
  cases h
  rw [show [xs].flatten = xs by simp] at hrebuild
  rw [List.cons_append, Runs.run]
  simp only [step, hphase, hcreate]
  rw [if_pos (by simpa using hbuilt), Option.bind_some, Runs.run_append, scan_run s (fun x => (hmem x).mp) hrebuild,
    Option.bind_some, Runs.run]
  simp only [step, phase_setPhase, List.append_nil, hcommit, setPhase_setPhase]
  rw [if_pos fun x hx => List.mem_reverse.mpr ((hmem x).mpr hx)]
  rfl

/-! ## Entries -/

theorem entryOf_encodeUser {uuid u : Uuid} {address : Text} {p : Phone} :
    EntryOf (encodeUser uuid address) u p ↔ u = uuid ∧ parseAddress address = some p := by
  simp only [EntryOf, decodeUser_encodeUser, Option.some.injEq, Prod.mk.injEq]
  constructor
  · intro ⟨a, ⟨hu, ha⟩, hp⟩
    exact ⟨hu.symm, ha ▸ hp⟩
  · intro ⟨hu, hp⟩
    exact ⟨address, ⟨hu.symm, rfl⟩, hp⟩

/-- The set has the owner's entry of a phone or none. -/
theorem stores_iff {owner : Phone → User} {r : Redis} {uuid : Uuid} {address : Text} {p : Phone}
    (hown : Owned owner r.users) (hp : parseAddress address = some p) (how : (uuid, address) = owner p) (u : Uuid) :
    Stores r p u ↔ encodeUser uuid address ∈ r.users ∧ u = uuid := by
  constructor
  · intro ⟨x, hx, a, hdec, ha⟩
    obtain ⟨he, hxe⟩ := hown x hx u a p hdec ha
    obtain ⟨rfl, rfl⟩ := Prod.mk.inj (he.trans how.symm)
    exact ⟨hxe ▸ hx, rfl⟩
  · intro ⟨hx, hu⟩
    exact ⟨_, hx, entryOf_encodeUser.mpr ⟨hu, hp⟩⟩

theorem owned_updateRedis {owner : Phone → User} {r : Redis} {uuid : Uuid} {address : Text} {p : Phone}
    (hown : Owned owner r.users) (hp : parseAddress address = some p) (how : (uuid, address) = owner p) (update : Update) :
    Owned owner (updateRedis r uuid address update).2.users := by
  intro x hx u a q hdec ha
  by_cases hxe : x = encodeUser uuid address
  · subst hxe
    rw [decodeUser_encodeUser] at hdec
    cases hdec
    rw [hp] at ha
    cases ha
    exact ⟨how, rfl⟩
  · exact hown x ((mem_updateRedis_of_ne hxe).mp hx) u a q hdec ha

theorem holds_updateRedis {owner : Phone → User} {r : Redis} {uuid : Uuid} {address : Text} {p : Phone}
    (hown : Owned owner r.users) (hp : parseAddress address = some p) (how : (uuid, address) = owner p) (update : Update) :
    Holds (fun _ => value uuid update) (updateRedis r uuid address update).2 p := by
  intro u
  rw [stores_iff (owned_updateRedis hown hp how update) hp how, updateRedis_self]
  cases update <;> simp [value, eq_comm]

/-! ## The invariant -/

/-- Nothing about the phone is on its way to a node that has consumed so much. -/
def Settled (r : Redis) (running : κ → Option (Running (ι × Nat))) (consumed : Nat) (p : Phone) : Prop :=
  NoMessage r consumed p ∧ ¬ Unpublished running p

structure ScanInv (owner : Phone → User) (r : Redis) (running : κ → Option (Running (ι × Nat))) (consumed : Nat)
    (d : DirectoryMap φ) (must may done : List Text) : Prop where
  sound : BothSound d
  owned : Owned owner may
  /-- For settled phones the set has not moved since the scan began. -/
  window : ∀ p, Settled r running consumed p → ∀ x u, EntryOf x u p →
    (x ∈ r.users → x ∈ must) ∧ (x ∈ may → x ∈ r.users)
  returned : ∀ x ∈ done, x ∈ may ∧ ∀ u p, EntryOf x u p → d.map p = some u
  filled : ∀ p u, d.map p = some u → ∃ x ∈ may, EntryOf x u p

/-- The node subscribed since `base` and is not ahead of the channel. -/
def Behind (base : Nat) (r : Redis) (consumed : Nat) : Prop := base ≤ consumed ∧ consumed ≤ r.channel.length

def NodeInv (owner : Phone → User) (base : Nat) (r : Redis) (running : κ → Option (Running (ι × Nat))) : Phase ι φ → Prop
  | .down => True
  | .subscribed consumed => Behind base r consumed
  | .scanning consumed d must may done => Behind base r consumed ∧ ScanInv owner r running consumed d must may done
  | .awaiting consumed _ _ token => Behind base r consumed ∧ consumed ≤ token
  | .loading consumed snapshot => Behind base r consumed ∧ ∃ (t : InternalBuffers φ) (m : Phone → Option Uuid),
      snapshot = t.writeTo ∧ t.Refines m ∧ t.capacity < 2 ^ 32 ∧ ∀ p, Settled r running consumed p → Holds m r p
  | .connected consumed d => Behind base r consumed ∧ BothSound d ∧ ∀ p, Settled r running consumed p → Holds d.map r p

structure Inv (owner : Phone → User) (base : Nat) (s : Cluster ι κ φ) : Prop where
  length : base ≤ s.redis.channel.length
  owned : Owned owner s.redis.users
  calls : ∀ t r, s.running t = some r → parseAddress r.address = some r.phone ∧ (r.uuid, r.address) = owner r.phone
  /-- What a call past its change has made is what the user set has. -/
  made : ∀ t r, s.running t = some r → r.stage ≠ .entered → Holds (fun _ => value r.uuid r.update) s.redis r.phone
  /-- What the last message about a phone says. -/
  channel : ∀ c p, base ≤ c → ¬ Unpublished s.running p →
    NoMessage s.redis c p ∨ ∀ m, Holds (replay messageEffect m (s.redis.channel.drop c)) s.redis p
  nodes : ∀ i, NodeInv owner base s.redis s.running (s.nodes i).phase

/-! ## Steps that leave a settled phone alone -/

/-- What is settled afterwards was so before, with the same entries. -/
structure Quiet (r r' : Redis) (running running' : κ → Option (Running (ι × Nat))) : Prop where
  length : r.channel.length ≤ r'.channel.length
  settled : ∀ c ≤ r.channel.length, ∀ p, Settled r' running' c p →
    Settled r running c p ∧ ∀ x u, EntryOf x u p → (x ∈ r'.users ↔ x ∈ r.users)

variable {owner : Phone → User} {base : Nat} {r r' : Redis} {running running' : κ → Option (Running (ι × Nat))}

omit [DecidableEq ι] [DecidableEq κ] in
theorem holds_of_entries {m : Phone → Option Uuid} {p : Phone}
    (h : ∀ x u, EntryOf x u p → (x ∈ r'.users ↔ x ∈ r.users)) : Holds m r' p ↔ Holds m r p := by
  have hstores : ∀ u, Stores r' p u ↔ Stores r p u := fun u =>
    exists_congr fun x => and_congr_left fun he => h x u he
  exact forall_congr' fun u => by rw [hstores]

omit [DecidableEq ι] [DecidableEq κ] [LoadFactor φ] in
theorem NodeInv.mono (hq : Quiet r r' running running') {phase : Phase ι φ}
    (h : NodeInv owner base r running phase) : NodeInv owner base r' running' phase := by
  have hbehind : ∀ c, Behind base r c → Behind base r' c := fun c hc => ⟨hc.1, hc.2.trans hq.length⟩
  have hholds : ∀ c m, Behind base r c → (∀ p, Settled r running c p → Holds m r p) →
      ∀ p, Settled r' running' c p → Holds m r' p := by
    intro c m hc hm p hp
    obtain ⟨hold, hentries⟩ := hq.settled c hc.2 p hp
    exact (holds_of_entries hentries).mpr (hm p hold)
  cases phase with
  | down => trivial
  | subscribed c => exact hbehind c h
  | scanning c d must may done =>
    obtain ⟨hc, hs⟩ := h
    refine ⟨hbehind c hc, hs.sound, hs.owned, fun p hp x u he => ?_, hs.returned, hs.filled⟩
    obtain ⟨hold, hentries⟩ := hq.settled c hc.2 p hp
    rw [hentries x u he]
    exact hs.window p hold x u he
  | awaiting c peer generation token => exact ⟨hbehind c h.1, h.2⟩
  | loading c snapshot =>
    obtain ⟨hc, t, m, hbytes, ht, hcap, hm⟩ := h
    exact ⟨hbehind c hc, t, m, hbytes, ht, hcap, hholds c m hc hm⟩
  | connected c d =>
    obtain ⟨hc, hd, hm⟩ := h
    exact ⟨hbehind c hc, hd, hholds c d.map hc hm⟩

omit [DecidableEq ι] [DecidableEq κ] [LoadFactor φ] in
theorem NodeInv.watch {phase : Phase ι φ} {uuid : Uuid} {address : Text} {p : Phone} {update : Update}
    (hp : parseAddress address = some p) (how : (uuid, address) = owner p)
    (hx : encodeUser uuid address ∈ r.users ↔ update = .add) (h : NodeInv owner base r running phase) :
    NodeInv owner base r running (phase.watch update (encodeUser uuid address)) := by
  cases phase with
  | scanning c d must may done =>
    obtain ⟨hc, hs⟩ := h
    cases update with
    | add =>
      refine ⟨hc, hs.sound, ?_, fun q hq x u he => ⟨(hs.window q hq x u he).1, fun hm => ?_⟩,
        fun x hx => ⟨List.mem_append_left _ (hs.returned x hx).1, (hs.returned x hx).2⟩, fun q u hm => ?_⟩
      · intro x hm u a q hdec ha
        rcases List.mem_append.mp hm with hm | hm
        · exact hs.owned x hm u a q hdec ha
        · rw [List.mem_singleton] at hm
          subst hm
          rw [decodeUser_encodeUser] at hdec
          cases hdec
          rw [hp] at ha
          cases ha
          exact ⟨how, rfl⟩
      · rcases List.mem_append.mp hm with hm | hm
        · exact (hs.window q hq x u he).2 hm
        · rw [List.mem_singleton] at hm
          exact hm ▸ hx.mpr rfl
      · obtain ⟨x, hm, he⟩ := hs.filled q u hm
        exact ⟨x, List.mem_append_left _ hm, he⟩
    | remove =>
      refine ⟨hc, hs.sound, hs.owned, fun q hq x u he => ⟨fun hm => ?_, (hs.window q hq x u he).2⟩, hs.returned,
        hs.filled⟩
      have hne : x ≠ encodeUser uuid address := fun e => by
        have := hx.mp (e ▸ hm)
        cases this
      exact List.mem_filter.mpr ⟨(hs.window q hq x u he).1 hm, decide_eq_true hne⟩
  | down => exact h
  | subscribed c => exact h
  | awaiting c peer generation token => exact h
  | loading c snapshot => exact h
  | connected c d => exact h

omit [DecidableEq κ] [LoadFactor φ] in
theorem setPhase_inv {s : Cluster ι κ φ} {i : ι} {phase : Phase ι φ} (hs : Inv owner base s)
    (h : NodeInv owner base s.redis s.running phase) : Inv owner base (s.setPhase i phase) := by
  refine ⟨hs.length, hs.owned, hs.calls, hs.made, hs.channel, ?_⟩
  exact (Function.forall_update_iff s.nodes fun _ n => NodeInv owner base s.redis s.running n.phase).mpr
    ⟨h, fun j _ => hs.nodes j⟩

omit [DecidableEq κ] [LoadFactor φ] in
theorem setDown_inv {s : Cluster ι κ φ} (hs : Inv owner base s) (i : ι) : Inv owner base (s.setDown i) := by
  refine ⟨hs.length, hs.owned, hs.calls, hs.made, hs.channel, ?_⟩
  exact (Function.forall_update_iff s.nodes fun _ n => NodeInv owner base s.redis s.running n.phase).mpr
    ⟨trivial, fun j _ => hs.nodes j⟩

/-! ## Calls -/

theorem enter_inv {f : DirectoryMapFactory φ} {s s' : Cluster ι κ φ} {t : κ} {i : ι} {update : Update} {uuid : Uuid}
    {address : Text} (hs : Inv owner base s) (hc : Owns owner (uuid, address))
    (h : step f s (.enter t i update uuid address) = some s') : Inv owner base s' := by
  simp only [step] at h
  split at h
  swap
  · cases h
  rename_i p c d hidle hp hphase
  cases h
  have hquiet : ∀ q, ¬ Unpublished (Function.update s.running t
      (some ⟨(i, (s.nodes i).generation), update, uuid, address, p, .entered⟩)) q → ¬ Unpublished s.running q := by
    intro q hq hold
    exact hq (unpublished_of_update (fun x hx => by rw [hidle] at hx; cases hx) hold)
  refine ⟨hs.length, hs.owned, fun t' x hx => ?_, fun t' x hx hst => ?_,
    fun c q hbase hq => hs.channel c q hbase (hquiet q hq), fun j => (hs.nodes j).mono ⟨le_rfl, fun c _ q hq => ?_⟩⟩
  · rcases running_update hx with ⟨-, hx⟩ | ⟨-, hx⟩
    · cases hx; exact ⟨hp, hc p hp⟩
    · exact hs.calls t' x hx
  · rcases running_update hx with ⟨-, hx⟩ | ⟨-, hx⟩
    · cases hx; exact absurd rfl hst
    · exact hs.made t' x hx hst
  · exact ⟨⟨hq.1, hquiet q hq.2⟩, fun x u _ => Iff.rfl⟩

omit [DecidableEq ι] [LoadFactor φ] in
theorem redis_inv {s : Cluster ι κ φ} {t : κ} {x : Running (ι × Nat)} (hs : Inv owner base s) (hx : s.running t = some x)
    (hst : x.stage = .entered) (hkind : SameKind s.running t) : Inv owner base (s.advance t x) := by
  have hadv : s.advance t x =
      { redis := (updateRedis s.redis x.uuid x.address x.update).2
        nodes := fun j => ⟨(s.nodes j).generation, (s.nodes j).phase.watch x.update (encodeUser x.uuid x.address)⟩
        running := Function.update s.running t
          (some { x with stage := .redis (updateRedis s.redis x.uuid x.address x.update).1 }) } := by
    simp only [Cluster.advance, Running.advance, hst, if_true]
  rw [hadv]
  obtain ⟨hp, how⟩ := hs.calls t x hx
  have hown := owned_updateRedis hs.owned hp how x.update
  have hchannel := updateRedis_channel s.redis x.uuid x.address x.update
  -- entries of other phones stay, and those of this one unless there is something to publish
  have hother : ∀ q, q ≠ x.phone → ∀ y u, EntryOf y u q →
      (y ∈ (updateRedis s.redis x.uuid x.address x.update).2.users ↔ y ∈ s.redis.users) := by
    intro q hq y u hy
    refine mem_updateRedis_of_ne fun e => hq ?_
    rw [e] at hy
    exact Option.some.inj ((entryOf_encodeUser.mp hy).2.symm.trans hp)
  have hquiet : ∀ q, ¬ Unpublished (Function.update s.running t
      (some { x with stage := .redis (updateRedis s.redis x.uuid x.address x.update).1 })) q →
      ¬ Unpublished s.running q ∧ ∀ y u, EntryOf y u q →
        (y ∈ (updateRedis s.redis x.uuid x.address x.update).2.users ↔ y ∈ s.redis.users) := by
    intro q hq
    refine ⟨fun hold => hq (unpublished_of_update (fun y hy _ => ?_) hold), fun y u hy => ?_⟩
    · rw [hx] at hy; cases hy
      rw [hst]; simp
    · by_cases e : q = x.phone
      · have hsame : (updateRedis s.redis x.uuid x.address x.update).1 = false := by
          rw [← Bool.not_eq_true]
          intro htrue
          exact hq ⟨t, _, Function.update_self _ _ _, e.symm, by rw [htrue]⟩
        exact updateRedis_unchanged hsame y
      · exact hother q e y u hy
  have hself := holds_updateRedis hs.owned hp how x.update
  refine ⟨by rw [hchannel]; exact hs.length, hown, fun t' y hy => ?_, fun t' y hy hstage => ?_,
    fun c q hbase hq => ?_, fun j => ?_⟩
  · obtain ⟨z, hz, hph, had, hu, -⟩ := running_advance hx hy
    rw [← hph, ← had, ← hu]; exact hs.calls t' z hz
  · rcases running_update hy with ⟨-, hy⟩ | ⟨hne, hy⟩
    · cases hy; exact hself
    · by_cases e : y.phone = x.phone
      · -- a call of the same kind is past its change too
        have huuid : y.uuid = x.uuid :=
          (Prod.mk.inj ((hs.calls t' y hy).2.trans ((congrArg owner e).trans how.symm))).1
        rw [e, huuid, hkind x hx t' y hy hne hstage e]
        exact hself
      · exact (holds_of_entries (hother y.phone e)).mpr (hs.made t' y hy hstage)
  · obtain ⟨hold, hentries⟩ := hquiet q hq
    rw [NoMessage, hchannel]
    rcases hs.channel c q hbase hold with hno | hlast
    · exact .inl hno
    · exact .inr fun m => (holds_of_entries hentries).mpr (hlast m)
  · refine NodeInv.watch hp how (updateRedis_self s.redis x.uuid x.address x.update)
      ((hs.nodes j).mono ⟨by rw [hchannel], fun c _ q hq => ?_⟩)
    obtain ⟨hold, hentries⟩ := hquiet q hq.2
    refine ⟨⟨?_, hold⟩, hentries⟩
    have hno := hq.1
    rw [NoMessage, hchannel] at hno
    exact hno

omit [DecidableEq ι] [DecidableEq κ] in
theorem noMessage_publish {m : PubSubMessage} {c : Nat} {p : Phone} :
    NoMessage (r.publish m) c p ↔
      NoMessage r c p ∧ (c ≤ r.channel.length → (messageEffect m).map Prod.fst ≠ some p) := by
  rw [NoMessage, Redis.publish, NoMessage]
  by_cases hc : c ≤ r.channel.length
  · rw [List.drop_append_of_le_length hc]
    simp only [List.mem_append, List.mem_singleton, or_imp, forall_and, forall_eq, hc, forall_const]
  · rw [List.drop_eq_nil_of_le (by simp; omega), List.drop_eq_nil_of_le (by omega)]
    simp [hc]

omit [DecidableEq ι] [DecidableEq κ] in
theorem replay_publish {m : PubSubMessage} {c : Nat} (hc : c ≤ r.channel.length) (map : Phone → Option Uuid) :
    replay messageEffect map ((r.publish m).channel.drop c) =
      Replay.apply messageEffect (replay messageEffect map (r.channel.drop c)) m := by
  rw [Redis.publish, List.drop_append_of_le_length hc, replay_concat]

omit [DecidableEq ι] [LoadFactor φ] in
theorem publish_inv {s : Cluster ι κ φ} {t : κ} {x : Running (ι × Nat)} {changed : Bool} (hs : Inv owner base s)
    (hx : s.running t = some x) (hst : x.stage = .redis changed) : Inv owner base (s.advance t x) := by
  have hadv : s.advance t x = { s with
      redis := s.redis.publishIf changed (message x.uuid x.address x.update)
      running := Function.update s.running t (some { x with stage := .published }) } := by
    simp only [Cluster.advance, Running.advance, hst, reduceCtorEq, if_false]
  rw [hadv]
  obtain ⟨hp, how⟩ := hs.calls t x hx
  have heffect := @messageEffect_message x.uuid _ _ hp x.update
  have husers := Redis.users_publishIf s.redis changed (message x.uuid x.address x.update)
  have hsame : ∀ m q, Holds m (s.redis.publishIf changed (message x.uuid x.address x.update)) q ↔ Holds m s.redis q :=
    fun m q => holds_of_entries fun y u _ => by rw [husers]
  -- the call's own phone apart, what was unpublished is so still
  have hothers : ∀ q, q ≠ x.phone ∨ changed = false →
      ¬ Unpublished (Function.update s.running t (some { x with stage := .published })) q → ¬ Unpublished s.running q := by
    intro q hq hno hold
    refine hno (unpublished_of_update (fun y hy hyq => ?_) hold)
    rw [hx] at hy; cases hy
    rcases hq with hq | hq
    · exact absurd hyq.symm hq
    · rw [hst, hq]; simp
  have hlength : s.redis.channel.length ≤
      (s.redis.publishIf changed (message x.uuid x.address x.update)).channel.length := by
    cases changed with
    | false => exact le_rfl
    | true => simp [Redis.publishIf, Redis.publish]
  refine ⟨hs.length.trans hlength, fun y hy => hs.owned y (husers ▸ hy), fun t' y hy => ?_, fun t' y hy hstage => ?_,
    fun c q hbase hq => ?_, fun j => (hs.nodes j).mono ⟨hlength, fun c hc q hq => ?_⟩⟩
  · obtain ⟨z, hz, hph, had, hu, -⟩ := running_advance hx hy
    rw [← hph, ← had, ← hu]; exact hs.calls t' z hz
  · rw [hsame]
    rcases running_update hy with ⟨-, hy⟩ | ⟨-, hy⟩
    · cases hy
      exact hs.made t x hx (by rw [hst]; simp)
    · exact hs.made t' y hy hstage
  · simp only [hsame]
    cases changed with
    | false => exact hs.channel c q hbase (hothers q (.inr rfl) hq)
    | true =>
      show NoMessage (s.redis.publish _) c q ∨ _
      by_cases hc : c ≤ s.redis.channel.length
      swap
      · exact .inl (noMessage_publish.mpr ⟨fun m hm => (by rw [List.drop_eq_nil_of_le (by omega)] at hm; cases hm),
          fun h => absurd h hc⟩)
      by_cases e : q = x.phone
      · -- its last message is this one
        refine .inr fun m u => ?_
        show replay messageEffect m ((s.redis.publish _).channel.drop c) q = some u ↔ _
        rw [replay_publish hc, Replay.apply, heffect, e]
        simp only [Function.update_self]
        exact hs.made t x hx (by rw [hst]; simp) u
      · rcases hs.channel c q hbase (hothers q (.inl e) hq) with hno | hlast
        · refine .inl (noMessage_publish.mpr ⟨hno, fun _ => ?_⟩)
          rw [heffect]
          exact fun h => e (Option.some.inj h).symm
        · refine .inr fun m u => ?_
          show replay messageEffect m ((s.redis.publish _).channel.drop c) q = some u ↔ _
          rw [replay_publish hc, Replay.apply, heffect]
          simp only [Function.update_of_ne e]
          exact hlast m u
  · refine ⟨?_, fun y u _ => by rw [husers]⟩
    cases changed with
    | false => exact ⟨hq.1, hothers q (.inr rfl) hq.2⟩
    | true =>
      obtain ⟨hno, hmsg⟩ := noMessage_publish.mp hq.1
      have e : q ≠ x.phone := fun e => hmsg hc (by rw [heffect, e]; rfl)
      exact ⟨hno, hothers q (.inl e) hq.2⟩

omit [DecidableEq ι] [LoadFactor φ] in
/-- A call may end when nothing of it is unpublished. -/
theorem end_inv {s : Cluster ι κ φ} {t : κ} {x : Running (ι × Nat)} (hs : Inv owner base s) (hx : s.running t = some x)
    (hst : x.stage ≠ .redis true) : Inv owner base (s.setRunning t none) := by
  have hquiet : ∀ q, ¬ Unpublished (Function.update s.running t none) q → ¬ Unpublished s.running q := by
    intro q hq hold
    refine hq (unpublished_of_update (fun y hy _ => ?_) hold)
    rw [hx] at hy; cases hy
    exact hst
  exact ⟨hs.length, hs.owned, fun t' y hy => hs.calls t' y (running_end hy),
    fun t' y hy => hs.made t' y (running_end hy), fun c q hbase hq => hs.channel c q hbase (hquiet q hq),
    fun j => (hs.nodes j).mono ⟨le_rfl, fun c _ q hq => ⟨⟨hq.1, hquiet q hq.2⟩, fun y u _ => Iff.rfl⟩⟩⟩

theorem updateMap_inv {s s' : Cluster ι κ φ} {t : κ} {x : Running (ι × Nat)} (hs : Inv owner base s)
    (hx : s.running t = some x) (hst : x.stage = .published) (h : s.updateMap t x = some s') : Inv owner base s' := by
  have hend : x.stage ≠ .redis true := by rw [hst]; simp
  simp only [Cluster.updateMap] at h
  split at h
  swap
  · cases h; exact end_inv hs hx hend
  rename_i c d hphase
  split at h
  swap
  · cases h; exact end_inv hs hx hend
  split at h
  swap
  · cases h
  rename_i b d' hmap
  cases h
  have hnode := hs.nodes x.target.1
  rw [hphase] at hnode
  obtain ⟨hbehind, hd, hholds⟩ := hnode
  obtain ⟨hsound, hd'⟩ := updateMap_spec hd.1 hmap
  refine end_inv (setPhase_inv hs ⟨hbehind, ⟨hsound, ?_⟩, fun q hq => ?_⟩) hx hend
  · rw [DirectoryMap.updateMap_serving hmap]; exact hd.2
  · rcases hd' with hd' | hd'
    · rw [hd']
      by_cases e : q = x.phone
      · -- the call's change is what the set has
        intro u
        rw [e, Function.update_self]
        exact hs.made t x hx (by rw [hst]; simp) u
      · intro u
        rw [Function.update_of_ne e]
        exact hholds q hq u
    · rw [hd']; exact hholds q hq

omit [DecidableEq ι] [DecidableEq κ] [LoadFactor φ] in
/-- A change that would change nothing is of the kind of those already made. -/
theorem sameKind_of_unchanged {s : Cluster ι κ φ} {t : κ} {x : Running (ι × Nat)} (hs : Inv owner base s)
    (hx : s.running t = some x) (h : (updateRedis s.redis x.uuid x.address x.update).1 = false) :
    SameKind s.running t := by
  intro z hz t' y hy hne hst hph
  cases hx.symm.trans hz
  obtain ⟨hp, how⟩ := hs.calls t x hx
  have hmade : Holds (fun _ => value x.uuid x.update) s.redis x.phone :=
    (holds_of_entries fun _ _ _ => updateRedis_unchanged h _).mp (holds_updateRedis hs.owned hp how x.update)
  have hvalue : value x.uuid x.update = value y.uuid y.update :=
    Option.ext fun u => (hmade u).trans ((hph ▸ hs.made t' y hy hst) u).symm
  cases hxu : x.update <;> cases hyu : y.update <;> simp_all [value]

omit [DecidableEq ι] [LoadFactor φ] in
theorem throws_inv {s : Cluster ι κ φ} {t : κ} {x : Running (ι × Nat)} {executed : Bool} (hs : Inv owner base s)
    (hx : s.running t = some x) (hcmd : x.commands) (hc : ThrowsClean s.redis s.running t executed) :
    Inv owner base ((if executed then s.advance t x else s).setRunning t none) := by
  obtain ⟨hentered, hredis⟩ := hc x hx
  rcases of_decide_eq_true hcmd with hst | hst
  · cases executed with
    | false => exact end_inv hs hx (by rw [hst]; simp)
    | true =>
      have hsame := hentered hst rfl
      refine end_inv (redis_inv hs hx hst (sameKind_of_unchanged hs hx hsame)) (Function.update_self _ _ _) ?_
      simp [hst, hsame]
  · obtain rfl := hredis hst
    refine end_inv (publish_inv hs hx hst) (Function.update_self _ _ _) ?_
    simp [hst]

/-! ## Nodes -/

theorem consume_inv {f : DirectoryMapFactory φ} {s s' : Cluster ι κ φ} {i : ι} (hs : Inv owner base s)
    (h : step f s (.consume i) = some s') : Inv owner base s' := by
  simp only [step] at h
  split at h
  swap
  · cases h
  rename_i c d hphase
  split at h
  · cases h
  rename_i m hm
  split at h
  swap
  · cases h; exact setDown_inv hs i
  rename_i d' hprocess
  cases h
  have hnode := hs.nodes i
  rw [hphase] at hnode
  obtain ⟨hbehind, hd, hholds⟩ := hnode
  obtain ⟨hsound, hmap⟩ := processMessage_ok hd.1 hprocess
  obtain ⟨hlt, hget⟩ := List.getElem?_eq_some_iff.mp hm
  have hdrop : s.redis.channel.drop c = m :: s.redis.channel.drop (c + 1) := by
    rw [List.drop_eq_getElem_cons hlt, hget]
  refine setPhase_inv hs ⟨⟨by have := hbehind.1; omega, hlt⟩, ⟨hsound, ?_⟩, fun q hq => ?_⟩
  · rw [processMessage_serving hprocess]; exact hd.2
  by_cases hmq : (messageEffect m).map Prod.fst = some q
  · -- the message is the last about the phone, so it says what the set has
    rcases hs.channel c q hbehind.1 hq.2 with hno | hlast
    · exact absurd hmq (hno m (by rw [hdrop]; exact List.mem_cons_self))
    · have hkeep : ∀ g, replay messageEffect g (s.redis.channel.drop (c + 1)) q = g q := fun g =>
        replay_of_noEffect hq.1 g
      intro u
      have := hlast d.map u
      rwa [hdrop, replay_cons, hkeep, ← hmap] at this
  · have hsame : d'.map q = d.map q := by
      rw [hmap, Replay.apply]
      cases he : messageEffect m with
      | none => rfl
      | some e =>
        have hne : q ≠ e.1 := fun e' => hmq (by rw [he, e']; rfl)
        exact Function.update_of_ne hne _ _
    intro u
    rw [hsame]
    refine hholds q ⟨fun m' hm' => ?_, hq.2⟩ u
    rw [hdrop] at hm'
    rcases List.mem_cons.mp hm' with rfl | hm'
    · exact hmq
    · exact hq.1 m' hm'

omit [DecidableEq ι] [DecidableEq κ] [LoadFactor φ] in
theorem keepalive_inv {s : Cluster ι κ φ} (hs : Inv owner base s) (content : Text) :
    Inv owner base { s with redis := s.redis.publish ⟨.keepalive, content⟩ } := by
  have hno : ∀ c q, NoMessage (s.redis.publish ⟨.keepalive, content⟩) c q ↔ NoMessage s.redis c q := fun c q => by
    rw [noMessage_publish]
    simp [messageEffect]
  have hlength : s.redis.channel.length ≤ (s.redis.publish ⟨.keepalive, content⟩).channel.length := by
    simp [Redis.publish]
  refine ⟨hs.length.trans hlength, hs.owned, hs.calls, hs.made, fun c q hbase hq => ?_,
    fun j => (hs.nodes j).mono ⟨hlength, fun c _ q hq => ⟨⟨(hno c q).mp hq.1, hq.2⟩, fun y u _ => Iff.rfl⟩⟩⟩
  rcases hs.channel c q hbase hq with h | h
  · exact .inl ((hno c q).mpr h)
  · by_cases hc : c ≤ s.redis.channel.length
    · exact .inr fun m => by rw [replay_publish hc]; exact h m
    · refine .inl ((hno c q).mpr fun m hm => ?_)
      rw [List.drop_eq_nil_of_le (by omega)] at hm
      cases hm

theorem commit_inv {f : DirectoryMapFactory φ} {s s' : Cluster ι κ φ} {i : ι} (hs : Inv owner base s)
    (h : step f s (.commit i) = some s') : Inv owner base s' := by
  simp only [step] at h
  split at h
  swap
  · cases h
  rename_i c d hphase
  split at h
  swap
  · cases h
  rename_i b d' hcommit
  cases h
  have hnode := hs.nodes i
  rw [hphase] at hnode
  obtain ⟨hbehind, hd, hholds⟩ := hnode
  obtain ⟨hsound, hmap⟩ := commit_sound hd hcommit
  exact setPhase_inv hs ⟨hbehind, hsound, hmap ▸ hholds⟩

theorem subscribe_inv {f : DirectoryMapFactory φ} {s s' : Cluster ι κ φ} {i : ι} (hs : Inv owner base s)
    (h : step f s (.subscribe i) = some s') : Inv owner base s' := by
  simp only [step] at h
  split at h
  swap
  · cases h
  cases h
  exact setPhase_inv hs ⟨hs.length, le_rfl⟩

/-! ### Scans -/

theorem scanBegin_inv {f : DirectoryMapFactory φ} {s s' : Cluster ι κ φ} {i : ι} (hs : Inv owner base s)
    (h : step f s (.scanBegin i) = some s') : Inv owner base s' := by
  simp only [step] at h
  split at h
  swap
  · cases h
  rename_i c hphase
  split at h
  swap
  · cases h
  split at h
  swap
  · cases h; exact setDown_inv hs i
  rename_i d hcreate
  cases h
  have hbehind := hs.nodes i
  rw [hphase] at hbehind
  obtain ⟨hsound, hmap⟩ := create_sound hcreate
  refine setPhase_inv hs ⟨hbehind, hsound, hs.owned, fun p _ x u _ => ⟨id, id⟩, fun x hx => ?_, fun p u hm => ?_⟩
  · cases hx
  · rw [hmap] at hm; cases hm

omit [DecidableEq ι] [DecidableEq κ] [LoadFactor φ] in
theorem ScanInv.scan {c : Nat} {d d' : DirectoryMap φ} {must may done : List Text} {x : Text}
    (h : ScanInv owner r running c d must may done) (hx : x ∈ may) (hd' : BothSound d')
    (hmap : (∀ u p, ¬ EntryOf x u p) ∧ d'.map = d.map ∨
      ∃ u p, EntryOf x u p ∧ d'.map = Function.update d.map p (some u)) :
    ScanInv owner r running c d' must may (x :: done) := by
  -- a phone has one uuid among the elements a scan may return
  have hunique : ∀ y ∈ may, ∀ z ∈ may, ∀ p u v, EntryOf y u p → EntryOf z v p → u = v := by
    intro y hy z hz p u v ⟨a, hdy, hay⟩ ⟨b, hdz, hbz⟩
    have h₁ := (h.owned y hy u a p hdy hay).1
    have h₂ := (h.owned z hz v b p hdz hbz).1
    exact (Prod.mk.inj (h₁.trans h₂.symm)).1
  rcases hmap with ⟨hno, hmap⟩ | ⟨v, q, hentry, hmap⟩
  · refine ⟨hd', h.owned, h.window, fun y hy => ?_, hmap ▸ h.filled⟩
    rw [hmap]
    rcases List.mem_cons.mp hy with rfl | hy
    · exact ⟨hx, fun u p he => absurd he (hno u p)⟩
    · exact h.returned y hy
  · refine ⟨hd', h.owned, h.window, fun y hy => ⟨?_, fun u p he => ?_⟩, fun p u hm => ?_⟩
    · rcases List.mem_cons.mp hy with rfl | hy
      · exact hx
      · exact (h.returned y hy).1
    · have hy' : y ∈ may := by
        rcases List.mem_cons.mp hy with rfl | hy
        · exact hx
        · exact (h.returned y hy).1
      rw [hmap]
      by_cases e : p = q
      · subst e
        rw [Function.update_self, hunique y hy' x hx p u v he hentry]
      · rw [Function.update_of_ne e]
        rcases List.mem_cons.mp hy with rfl | hy
        · obtain ⟨a, hda, hpa⟩ := he
          obtain ⟨b, hdb, hpb⟩ := hentry
          rw [hda] at hdb
          cases hdb
          exact absurd (Option.some.inj (hpa.symm.trans hpb)) e
        · exact (h.returned y hy).2 u p he
    · rw [hmap] at hm
      by_cases e : p = q
      · subst e
        rw [Function.update_self] at hm
        cases hm
        exact ⟨x, hx, hentry⟩
      · rw [Function.update_of_ne e] at hm
        exact h.filled p u hm

theorem scan_inv {f : DirectoryMapFactory φ} {s s' : Cluster ι κ φ} {i : ι} {x : Text} (hs : Inv owner base s)
    (h : step f s (.scan i x) = some s') : Inv owner base s' := by
  simp only [step] at h
  split at h
  swap
  · cases h
  rename_i c d must may done hphase
  split at h
  swap
  · cases h
  rename_i hx
  have hnode := hs.nodes i
  rw [hphase] at hnode
  obtain ⟨hbehind, hscan⟩ := hnode
  split at h
  · rename_i hdec
    cases h
    refine setPhase_inv hs ⟨hbehind, hscan.scan hx hscan.sound (.inl ⟨fun u p ⟨a, ha, _⟩ => ?_, rfl⟩)⟩
    rw [hdec] at ha; cases ha
  rename_i user hdec
  split at h
  swap
  · cases h; exact setDown_inv hs i
  rename_i d' hrebuild
  cases h
  obtain ⟨hsound, hserving, hmap⟩ := rebuildUser_ok hscan.sound.1 hrebuild
  refine setPhase_inv hs ⟨hbehind, hscan.scan hx ⟨hsound, hserving ▸ hscan.sound.2⟩ ?_⟩
  rcases hmap with ⟨hp, hmap⟩ | ⟨p, hp, hmap⟩
  · refine .inl ⟨fun u p ⟨a, ha, hpa⟩ => ?_, hmap⟩
    rw [hdec] at ha; cases ha
    rw [hp] at hpa; cases hpa
  · exact .inr ⟨user.1, p, ⟨user.2, hdec, hp⟩, hmap⟩

/-- A scan that has returned all it must has, for settled phones, what the set has. -/
theorem scanEnd_inv {f : DirectoryMapFactory φ} {s s' : Cluster ι κ φ} {i : ι} (hs : Inv owner base s)
    (h : step f s (.scanEnd i) = some s') : Inv owner base s' := by
  simp only [step] at h
  split at h
  swap
  · cases h
  rename_i c d must may done hphase
  split at h
  swap
  · cases h
  rename_i hall
  split at h
  swap
  · cases h; exact setDown_inv hs i
  rename_i b d' hcommit
  cases h
  have hnode := hs.nodes i
  rw [hphase] at hnode
  obtain ⟨hbehind, hscan⟩ := hnode
  obtain ⟨hsound, hmap⟩ := commit_sound hscan.sound hcommit
  refine setPhase_inv hs ⟨hbehind, hsound, fun q hq u => ?_⟩
  rw [hmap]
  constructor
  · intro hm
    obtain ⟨x, hx, he⟩ := hscan.filled q u hm
    exact ⟨x, (hscan.window q hq x u he).2 hx, he⟩
  · intro ⟨x, hx, he⟩
    exact (hscan.returned x (hall x ((hscan.window q hq x u he).1 hx))).2 u q he

/-! ### Snapshots -/

theorem requestSnapshot_inv {f : DirectoryMapFactory φ} {s s' : Cluster ι κ φ} {i peer : ι} {syncToken : Text}
    (hs : Inv owner base s) (h : step f s (.requestSnapshot i peer syncToken) = some s') : Inv owner base s' := by
  simp only [step] at h
  split at h
  swap
  · cases h
  rename_i c c' d hphase hpeer
  cases h
  have hbehind := hs.nodes i
  rw [hphase] at hbehind
  have hawaits : NodeInv owner base s.redis s.running
      (.awaiting c peer (s.nodes peer).generation s.redis.channel.length : Phase ι φ) := ⟨hbehind, hbehind.2⟩
  exact keepalive_inv (setPhase_inv hs hawaits) syncToken

omit [DecidableEq ι] [DecidableEq κ] [LoadFactor φ] in
theorem lookup_eq_of_contents {t t' : InternalBuffers φ} {p : Phone}
    (h : ∀ e ∈ t.contents ++ t'.contents, e.1 ≠ p) : t.lookup p = t'.lookup p := by
  have hnone : ∀ table : InternalBuffers φ, (∀ e ∈ table.contents, e.1 ≠ p) → table.lookup p = none := by
    intro table ht
    by_contra hne
    obtain ⟨u, hu⟩ := Option.ne_none_iff_exists'.mp hne
    exact ht _ (Assoc.mem_of_last? hu) rfl
  rw [hnone t fun e he => h e (List.mem_append_left _ he), hnone t' fun e he => h e (List.mem_append_right _ he)]

theorem writeSnapshot_inv {f : DirectoryMapFactory φ} {s s' : Cluster ι κ φ} {i : ι} (hs : Inv owner base s)
    (hc : Fresh s i) (h : step f s (.writeSnapshot i) = some s') : Inv owner base s' := by
  simp only [step] at h
  split at h
  swap
  · cases h
  rename_i c peer generation token hphase
  split at h
  swap
  · cases h
  rename_i c' d hpeer
  split at h
  swap
  · cases h
  rename_i hguard
  cases h
  have hnode := hs.nodes i
  rw [hphase] at hnode
  obtain ⟨hbehind, htoken⟩ := hnode
  have hother := hs.nodes peer
  rw [hpeer] at hother
  obtain ⟨-, hd, hholds⟩ := hother
  obtain ⟨hfresh, hcap⟩ := hc (c, d) (by simp [peerMap, hphase, hpeer])
  refine setPhase_inv hs ⟨hbehind, d.serving, _, rfl, hd.2, hcap, fun q hq u => ?_⟩
  -- the peer is past the token, so what is settled for the joining node is so for the peer
  have hsettled : Settled s.redis s.running c' q := by
    refine ⟨fun m hm => hq.1 m ?_, hq.2⟩
    have hle : c ≤ c' := by omega
    rw [show c' = c + (c' - c) by omega, ← List.drop_drop] at hm
    exact List.mem_of_mem_drop hm
  have heq : d.serving.lookup q = d.building.lookup q := by
    by_cases hin : ∃ e ∈ d.serving.contents ++ d.building.contents, e.1 = q
    · obtain ⟨e, he, rfl⟩ := hin
      exact hfresh e he hq.1
    · exact lookup_eq_of_contents fun e he heq => hin ⟨e, he, heq⟩
  rw [heq]
  exact hholds q hsettled u

theorem readSnapshot_inv {f : DirectoryMapFactory φ} {s s' : Cluster ι κ φ} {i : ι} {pieces : List (List Byte)}
    (hs : Inv owner base s) (h : step f s (.readSnapshot i pieces) = some s') : Inv owner base s' := by
  simp only [step] at h
  split at h
  swap
  · cases h
  rename_i c snapshot hphase
  split at h
  swap
  · cases h
  rename_i hbytes
  have hnode := hs.nodes i
  rw [hphase] at hnode
  obtain ⟨hbehind, t, m, hsnapshot, ht, hcap, hholds⟩ := hnode
  split at h
  · rename_i d hload
    cases h
    obtain ⟨hsound, hmap⟩ := loadSnapshot_sound ht hcap (hbytes.trans hsnapshot) hload
    exact setPhase_inv hs ⟨hbehind, hsound, hmap ▸ hholds⟩
  · cases h
    exact setPhase_inv hs hbehind

theorem retry_inv {f : DirectoryMapFactory φ} {s s' : Cluster ι κ φ} {i : ι} (hs : Inv owner base s)
    (h : step f s (.retry i) = some s') : Inv owner base s' := by
  simp only [step] at h
  have hnode := hs.nodes i
  split at h
  · rename_i hphase
    cases h
    rw [hphase] at hnode
    exact setPhase_inv hs hnode.1
  · rename_i hphase
    cases h
    rw [hphase] at hnode
    exact setPhase_inv hs hnode.1
  · cases h

theorem step_inv {f : DirectoryMapFactory φ} {s s' : Cluster ι κ φ} {e : Event ι κ} (hs : Inv owner base s)
    (hc : Separate owner s e) (h : step f s e = some s') : Inv owner base s' := by
  cases e with
  | enter t i update uuid address => exact enter_inv hs hc h
  | redis t =>
    simp only [step] at h
    split at h
    · rename_i x hx
      split at h
      · rename_i hst
        cases h
        exact redis_inv hs hx hst hc
      · cases h
    · cases h
  | publish t =>
    simp only [step] at h
    split at h
    · rename_i x hx
      split at h
      · rename_i hst
        cases h
        cases hstage : x.stage with
        | entered => exact absurd hstage hst.1
        | published => exact absurd hstage hst.2
        | redis changed => exact publish_inv hs hx hstage
      · cases h
    · cases h
  | updateMap t =>
    simp only [step] at h
    split at h
    · rename_i x hx
      split at h
      · rename_i hst
        exact updateMap_inv hs hx hst h
      · cases h
    · cases h
  | throws t executed =>
    simp only [step] at h
    split at h
    · rename_i x hx
      split at h
      · rename_i hcmd
        cases h
        exact throws_inv hs hx hcmd hc
      · cases h
    · cases h
  | consume i => exact consume_inv hs h
  | commit i => exact commit_inv hs h
  | keepAlive => cases h; exact keepalive_inv hs _
  | disconnect i => cases h; exact setDown_inv hs i
  | subscribe i => exact subscribe_inv hs h
  | scanBegin i => exact scanBegin_inv hs h
  | scan i x => exact scan_inv hs h
  | scanEnd i => exact scanEnd_inv hs h
  | requestSnapshot i peer syncToken => exact requestSnapshot_inv hs h
  | writeSnapshot i => exact writeSnapshot_inv hs hc h
  | readSnapshot i pieces => exact readSnapshot_inv hs h
  | retry i => exact retry_inv hs h

/-! ## Convergence -/

omit [DecidableEq ι] [DecidableEq κ] [LoadFactor φ] in
theorem Start.inv {s : Cluster ι κ φ} (h : Start owner s) : Inv owner s.redis.channel.length s := by
  have hno : ∀ t x, s.running t ≠ some x := fun t x hx => by rw [h.idle t] at hx; cases hx
  refine ⟨le_rfl, h.owned, fun t x hx => absurd hx (hno t x), fun t x hx => absurd hx (hno t x), fun c p hc _ => .inl fun m hm => ?_, fun i => ?_⟩
  · rw [List.drop_eq_nil_of_le hc] at hm
    cases hm
  · rcases h.nodes i with hphase | ⟨d, hphase, hsound, hserving, hholds⟩
    · rw [hphase]; trivial
    · rw [hphase]
      exact ⟨⟨le_rfl, le_rfl⟩, ⟨hsound, hserving⟩, fun p _ => hholds p⟩

/-- A connected node with nothing waiting has what the set has, if no call is running. -/
theorem holds_of_run {f : DirectoryMapFactory φ} {s₀ s : Cluster ι κ φ} {events : List (Event ι κ)} {i : ι}
    {d : DirectoryMap φ} (hstart : Start owner s₀) (hsep : Runs.Meets (step f) (Separate owner) s₀ events)
    (hrun : Runs.run (step f) s₀ events = some s) (hidle : ∀ t, s.running t = none)
    (hphase : (s.nodes i).phase = .connected s.redis.channel.length d) (p : Phone) : Holds d.map s.redis p := by
  have hinv := (Runs.always_of_inv (fun s e s' => step_inv) events s₀ hstart.inv hsep).run events s₀ s hrun
  have hnode := hinv.nodes i
  rw [hphase] at hnode
  refine hnode.2.2 p ⟨fun m hm => ?_, fun ⟨t, x, hx, _⟩ => ?_⟩
  · rw [List.drop_length] at hm; cases hm
  · rw [hidle t] at hx; cases hx

/-- From nodes that are down or have what the set has, along a run in which calls on one phone are
    about one entry, change the user set only beside calls of their kind and do not throw with a change
    unpublished, and snapshots are fresh: when all calls have ended, a connected node with nothing
    waiting has exactly the phones of the user set, with their uuids. -/
theorem joins_converge {f : DirectoryMapFactory φ} {s₀ s : Cluster ι κ φ} {events : List (Event ι κ)}
    (hstart : Start owner s₀) (hsep : Runs.Meets (step f) (Separate owner) s₀ events)
    (hrun : Runs.run (step f) s₀ events = some s) (hidle : ∀ t, s.running t = none) (i : ι) (d : DirectoryMap φ)
    (hphase : (s.nodes i).phase = .connected s.redis.channel.length d) (p : Phone) (u : Uuid) :
    d.map p = some u ↔ ∃ x ∈ s.redis.users, ∃ a, decodeUser x = some (u, a) ∧ parseAddress a = some p :=
  holds_of_run hstart hsep hrun hidle hphase p u

/-- Along such a run, when all calls have ended, two connected nodes with nothing waiting have the
    same map: one that joined from a peer has the peer's. -/
theorem joined_maps_eq {f : DirectoryMapFactory φ} {s₀ s : Cluster ι κ φ} {events : List (Event ι κ)}
    (hstart : Start owner s₀) (hsep : Runs.Meets (step f) (Separate owner) s₀ events)
    (hrun : Runs.run (step f) s₀ events = some s) (hidle : ∀ t, s.running t = none) (joined peer : ι)
    (d dPeer : DirectoryMap φ) (hjoined : (s.nodes joined).phase = .connected s.redis.channel.length d)
    (hpeer : (s.nodes peer).phase = .connected s.redis.channel.length dPeer) : d.map = dPeer.map := by
  funext p
  apply Option.ext
  intro u
  rw [holds_of_run hstart hsep hrun hidle hjoined p u, holds_of_run hstart hsep hrun hidle hpeer p u]

/-! ## Runs of two nodes -/

def twoNodes : Cluster (Fin 2) (Fin 1) ℚ :=
  ⟨⟨[], none, true, []⟩, fun i => if i = 0 then ⟨0, .connected 0 .eightSlots⟩ else ⟨0, .down⟩, fun _ => none⟩

theorem twoNodes_start (owner : Phone → User) : Start owner twoNodes := by
  refine ⟨fun _ => rfl, fun x hx => (by cases hx), fun i => ?_⟩
  by_cases hi : i = 0
  · refine .inr ⟨.eightSlots, by rw [hi]; rfl, eightSlots_sound, eightSlots_sound, fun p u => ?_⟩
    rw [eightSlots_map]
    exact ⟨fun h => (by cases h), fun ⟨x, hx, _⟩ => (by cases hx)⟩
  · exact .inl (by simp [twoNodes, hi])

def caughtUp (s : Cluster ι κ φ) (i : ι) : Option (DirectoryMap φ) :=
  match (s.nodes i).phase with
  | .connected consumed d => if consumed = s.redis.channel.length then some d else none
  | _ => none

omit [DecidableEq ι] [DecidableEq κ] [LoadFactor φ] in
theorem caughtUp_phase {s : Cluster ι κ φ} {i : ι} {d : DirectoryMap φ} (h : caughtUp s i = some d) :
    (s.nodes i).phase = .connected s.redis.channel.length d := by
  simp only [caughtUp] at h
  split at h
  · rename_i c d' hphase
    split at h
    · rename_i hc; cases h; rw [hphase, hc]
    · cases h
  · cases h

def phoneOwner (p : Phone) : User := if p = 15 then (⟨fun _ => 1⟩, ['+', '1', '5']) else (⟨fun _ => 2⟩, ['1', '6'])

/-- A node joins by a scan while a phone is added and another one added and removed. -/
def scanRun : List (Event (Fin 2) (Fin 1)) :=
  [.enter 0 0 .add ⟨fun _ => 1⟩ ['+', '1', '5'], .subscribe 1, .scanBegin 1, .redis 0, .publish 0,
    .scan 1 (encodeUser ⟨fun _ => 1⟩ ['+', '1', '5']), .updateMap 0, .consume 0,
    .enter 0 0 .add ⟨fun _ => 2⟩ ['1', '6'], .redis 0, .publish 0, .updateMap 0,
    .scan 1 (encodeUser ⟨fun _ => 2⟩ ['1', '6']), .enter 0 0 .remove ⟨fun _ => 2⟩ ['1', '6'], .redis 0, .scanEnd 1,
    .publish 0, .updateMap 0, .consume 0, .consume 0, .consume 1, .consume 1, .consume 1]

theorem joins_converge_scan :
    ∃ s d, Runs.run (step eightSlotsFactory) twoNodes scanRun = some s ∧ caughtUp s 1 = some d ∧
      s.redis.users = [encodeUser ⟨fun _ => 1⟩ ['+', '1', '5']] ∧
      ∀ p u, d.map p = some u ↔ ∃ x ∈ s.redis.users, ∃ a, decodeUser x = some (u, a) ∧ parseAddress a = some p := by
  have hrun : (Runs.run (step eightSlotsFactory) twoNodes scanRun).map
      (fun s => (decide (∀ t, s.running t = none), (caughtUp s 1).isSome, s.redis.users)) =
      some (true, true, [encodeUser ⟨fun _ => 1⟩ ['+', '1', '5']]) := by
    decide +kernel
  obtain ⟨s, hrun, heq⟩ := Option.map_eq_some_iff.mp hrun
  simp only [Prod.mk.injEq, decide_eq_true_eq] at heq
  obtain ⟨hidle, hup, husers⟩ := heq
  obtain ⟨d, hd⟩ := Option.isSome_iff_exists.mp hup
  exact ⟨s, d, hrun, hd, husers, joins_converge (twoNodes_start phoneOwner) (by decide +kernel) hrun hidle 1 d
    (caughtUp_phase hd)⟩

def fifteenTable : InternalBuffers ℚ :=
  ⟨1 / 4, 3 / 4, 1, 1, (List.replicate 8 FREE_E164).set 7 (bswap 15),
    (List.replicate 8 FREE_UUID).set 7 (swapUuid ⟨fun _ => 1⟩)⟩

/-- A node joins from a peer that has committed, while a phone is added. -/
def snapshotRun : List (Event (Fin 2) (Fin 1)) :=
  [.enter 0 0 .add ⟨fun _ => 1⟩ ['+', '1', '5'], .redis 0, .publish 0, .updateMap 0, .commit 0, .subscribe 1,
    .requestSnapshot 1 0 ['t'], .enter 0 0 .add ⟨fun _ => 2⟩ ['1', '6'], .redis 0, .publish 0, .updateMap 0, .consume 0,
    .consume 0, .writeSnapshot 1, .readSnapshot 1 [fifteenTable.writeTo.take 100, fifteenTable.writeTo.drop 100],
    .consume 0, .consume 1, .consume 1]

theorem joined_maps_eq_snapshot :
    ∃ s d dPeer, Runs.run (step eightSlotsFactory) twoNodes snapshotRun = some s ∧ caughtUp s 1 = some d ∧
      caughtUp s 0 = some dPeer ∧ d.map 15 = some ⟨fun _ => 1⟩ ∧ d.map 16 = some ⟨fun _ => 2⟩ ∧ d.map = dPeer.map := by
  have hrun : (Runs.run (step eightSlotsFactory) twoNodes snapshotRun).map
      (fun s => (decide (∀ t, s.running t = none), (caughtUp s 1).map (fun d => (d.map 15, d.map 16)),
        (caughtUp s 0).isSome)) = some (true, some (some ⟨fun _ => 1⟩, some ⟨fun _ => 2⟩), true) := by
    decide +kernel
  obtain ⟨s, hrun, heq⟩ := Option.map_eq_some_iff.mp hrun
  simp only [Prod.mk.injEq, decide_eq_true_eq] at heq
  obtain ⟨hidle, hjoined, hpeer⟩ := heq
  obtain ⟨d, hd, hmap⟩ := Option.map_eq_some_iff.mp hjoined
  obtain ⟨h₁₅, h₁₆⟩ := Prod.mk.inj hmap
  obtain ⟨dPeer, hdPeer⟩ := Option.isSome_iff_exists.mp hpeer
  exact ⟨s, d, dPeer, hrun, hd, hdPeer, h₁₅, h₁₆, joined_maps_eq (twoNodes_start phoneOwner) (by decide +kernel) hrun hidle
    1 0 d dPeer (caughtUp_phase hd) (caughtUp_phase hdPeer)⟩

/-- A phone is added, published and consumed before the joining node subscribes; the peer has not
    committed since, so its snapshot lacks the phone, and no message about it is to come. -/
theorem stale_snapshot_loses_update :
    (Runs.run (step eightSlotsFactory) twoNodes
      [.enter 0 0 .add ⟨fun _ => 1⟩ ['+', '1', '5'], .redis 0, .publish 0, .updateMap 0, .consume 0, .subscribe 1,
        .requestSnapshot 1 0 ['t'], .consume 0, .writeSnapshot 1,
        .readSnapshot 1 [DirectoryMap.eightSlots.serving.writeTo], .commit 0, .consume 1]).map
      (fun s => (decide (∀ t, s.running t = none), (caughtUp s 0).map (·.map 15), (caughtUp s 1).map (·.map 15))) =
      some (true, some (some ⟨fun _ => 1⟩), some none) := by
  decide +kernel

/-- One uuid and two texts of one number, added one after the other; when the first is removed, the
    node that was there loses the phone, and a node that joins by a scan has it. -/
theorem two_texts_diverge :
    parseAddress ['+', '1', '5'] = some 15 ∧ parseAddress ['1', '5'] = some 15 ∧
      (Runs.run (step eightSlotsFactory) twoNodes
        [.enter 0 0 .add ⟨fun _ => 1⟩ ['+', '1', '5'], .redis 0, .publish 0, .updateMap 0,
          .enter 0 0 .add ⟨fun _ => 1⟩ ['1', '5'], .redis 0, .publish 0, .updateMap 0,
          .enter 0 0 .remove ⟨fun _ => 1⟩ ['+', '1', '5'], .redis 0, .publish 0, .updateMap 0,
          .consume 0, .consume 0, .consume 0, .subscribe 1, .scanBegin 1, .scan 1 (encodeUser ⟨fun _ => 1⟩ ['1', '5']),
          .scanEnd 1]).map
        (fun s => (decide (∀ t, s.running t = none), s.redis.users, (caughtUp s 0).map (·.map 15),
          (caughtUp s 1).map (·.map 15))) =
        some (true, [encodeUser ⟨fun _ => 1⟩ ['1', '5']], some none, some (some ⟨fun _ => 1⟩)) :=
  ⟨by decide +kernel, by decide +kernel, by decide +kernel⟩

end Joining

end ContactDiscovery.Directory
