/-
  ContactDiscovery.Directory.Replicas — nodes that share one Redis and follow its channel
  (`addUser`, `removeUser` and `PubSubConsumer` of `DirectoryManager.java`).

  Threads run calls, whose steps are in `ContactDiscovery.Directory.Calls`. Each node applies all
  messages, its own too, in the order they were published and with any delay. The steps of any number
  of threads and nodes interleave freely, and a call may throw at each of its commands to Redis and at
  its map.

  What a node will have when it has caught up is its map after the messages it has not seen
  (`view`). Between a change of the user set and its message the two disagree about that phone,
  and at no other time (`Inv`).

  Proved: `converges`, once all calls have returned or thrown and all messages are consumed, every
  node has exactly the phones of the user set, for all runs in which all calls on one phone are about
  one entry, the same uuid and the same text of the address, no call changes the user set at a phone
  while one of the other kind is past its change, and no call throws with a change that is not
  published. Each of these is needed (`replicas_diverge`).
-/

import ContactDiscovery.Directory.Calls

namespace ContactDiscovery.Directory.Replicas

open Lib Lib.Replay DirectoryMap Calls
open Enclave (Phone Uuid)

/-! ## Nodes and steps -/

variable {ι κ : Type} [DecidableEq ι] [DecidableEq κ] {φ : Type} [LoadFactor φ]

structure Replica (φ : Type) where
  directoryMap : DirectoryMap φ
  /-- How many messages of the channel the node has applied. -/
  consumed : Nat

/-- Nodes `ι` and threads `κ`. -/
structure Cluster (ι κ φ : Type) where
  redis : Redis
  nodes : ι → Replica φ
  running : κ → Option (Running ι)

inductive Event (ι κ : Type) where
  | enter (t : κ) (i : ι) (update : Update) (uuid : Uuid) (address : Text)
  | redis (t : κ)
  | publish (t : κ)
  /-- The call updates its node's map and ends. -/
  | updateMap (t : κ)
  /-- The call's next command to Redis throws, carried out or not, and the call with it. -/
  | throws (t : κ) (executed : Bool)
  | consume (i : ι)

def Cluster.setRunning (s : Cluster ι κ φ) (t : κ) (call : Option (Running ι)) : Cluster ι κ φ :=
  { s with running := Function.update s.running t call }

def Cluster.advance (s : Cluster ι κ φ) (t : κ) (r : Running ι) : Cluster ι κ φ :=
  let (redis, r) := r.advance s.redis
  { s with redis, running := Function.update s.running t (some r) }

def step (s : Cluster ι κ φ) : Event ι κ → Option (Cluster ι κ φ)
  | .enter t i update uuid address =>
    match s.running t, parseAddress address with
    | none, some phone => some (s.setRunning t (some ⟨i, update, uuid, address, phone, .entered⟩))
    | _, _ => none
  | .redis t =>
    match s.running t with
    | some r => if r.stage = .entered then some (s.advance t r) else none
    | none => none
  | .publish t =>
    match s.running t with
    | some r => if r.stage ≠ .entered ∧ r.stage ≠ .published then some (s.advance t r) else none
    | none => none
  | .updateMap t =>
    match s.running t with
    | some r =>
      if r.stage = .published then
        match updateMap (s.nodes r.target).directoryMap r.phone r.uuid r.update with
        -- also if it throws
        | some (_, directoryMap) =>
          some { s with
            nodes := Function.update s.nodes r.target { s.nodes r.target with directoryMap }
            running := Function.update s.running t none }
        | none => none
      else none
    | none => none
  | .throws t executed =>
    match s.running t with
    | some r =>
      if r.commands then some ((if executed then s.advance t r else s).setRunning t none) else none
    | none => none
  | .consume i =>
    match s.redis.channel[(s.nodes i).consumed]? with
    | none => none
    | some message =>
      match (s.nodes i).directoryMap.processMessage message with
      | some (.ok (), directoryMap) =>
        some { s with nodes := Function.update s.nodes i ⟨directoryMap, (s.nodes i).consumed + 1⟩ }
      -- the consumer disconnects the node
      | _ => none

def Idle (s : Cluster ι κ φ) : Prop :=
  (∀ t, s.running t = none) ∧ ∀ i, (s.nodes i).consumed = s.redis.channel.length

/-- Every node's building map has exactly the phones of the user set. -/
def Converged (s : Cluster ι κ φ) : Prop := ∀ i p, (s.nodes i).directoryMap.map p ≠ none ↔ Present s.redis p

def Separate (owner : Phone → User) (s : Cluster ι κ φ) : Event ι κ → Prop
  | .enter _ _ _ uuid address => Owns owner (uuid, address)
  | .redis t => SameKind s.running t
  | .throws t executed => ThrowsClean s.redis s.running t executed
  | .publish _ | .updateMap _ | .consume _ => True

instance [Fintype κ] (owner : Phone → User) (s : Cluster ι κ φ) : ∀ e, Decidable (Separate owner s e)
  | .enter _ _ _ uuid address => inferInstanceAs (Decidable (Owns owner (uuid, address)))
  | .redis t => inferInstanceAs (Decidable (SameKind s.running t))
  | .throws t executed => inferInstanceAs (Decidable (ThrowsClean s.redis s.running t executed))
  | .publish _ | .updateMap _ | .consume _ => .isTrue trivial

instance [Fintype ι] [Fintype κ] (s : Cluster ι κ φ) : Decidable (Idle s) := inferInstanceAs (Decidable (_ ∧ _))

/-! ## The invariant -/

/-- The map of a node once it has applied the messages that are waiting. -/
def view (s : Cluster ι κ φ) (i : ι) : Phone → Option Uuid :=
  replay messageEffect (s.nodes i).directoryMap.map (s.redis.channel.drop (s.nodes i).consumed)

structure Inv (owner : Phone → User) (s : Cluster ι κ φ) : Prop where
  sound : ∀ i, Sound (s.nodes i).directoryMap
  behind : ∀ i, (s.nodes i).consumed ≤ s.redis.channel.length
  owners : ∀ u a p, encodeUser u a ∈ s.redis.users → parseAddress a = some p → (u, a) = owner p
  calls : ∀ t r, s.running t = some r → parseAddress r.address = some r.phone ∧ (r.uuid, r.address) = owner r.phone
  /-- What a call past its change has made is what the user set has. -/
  made : ∀ t r, s.running t = some r → r.stage ≠ .entered → (Present s.redis r.phone ↔ r.update = .add)
  views : ∀ i p, ¬ Unpublished s.running p → (view s i p ≠ none ↔ Present s.redis p)

theorem present_updateRedis {owner : Phone → User} {r : Redis} {uuid : Uuid} {address : Text} {p : Phone}
    (howner : ∀ u a q, encodeUser u a ∈ r.users → parseAddress a = some q → (u, a) = owner q)
    (hp : parseAddress address = some p) (how : (uuid, address) = owner p) (update : Update) (q : Phone) :
    Present (updateRedis r uuid address update).2 q ↔ if q = p then update = .add else Present r q := by
  by_cases hq : q = p
  · subst hq
    rw [if_pos rfl, ← updateRedis_self r uuid address update]
    refine ⟨fun ⟨u, a, hm, ha⟩ => ?_, fun h => ⟨uuid, address, h, hp⟩⟩
    by_cases e : (u, a) = (uuid, address)
    · cases e; exact hm
    · -- no other entry of the phone was there
      exact absurd ((howner u a q ((updateRedis_other e).mp hm) ha).trans how.symm) e
  · rw [if_neg hq]
    refine exists_congr fun u => exists_congr fun a => ?_
    by_cases ha : parseAddress a = some q
    · have hne : (u, a) ≠ (uuid, address) := by
        intro e; cases e
        rw [hp] at ha; exact hq (Option.some.inj ha).symm
      rw [updateRedis_other hne]
    · simp [ha]

section Steps

variable {owner : Phone → User} {s s' : Cluster ι κ φ} {t : κ} {x : Running ι}

theorem enter_inv {i : ι} {update : Update} {uuid : Uuid} {address : Text} (hs : Inv owner s)
    (hc : Owns owner (uuid, address)) (h : step s (.enter t i update uuid address) = some s') : Inv owner s' := by
  simp only [step] at h
  split at h
  swap
  · cases h
  rename_i p hidle hp
  cases h
  refine ⟨hs.sound, hs.behind, hs.owners, fun t' r hr => ?_, fun t' r hr hst => ?_, fun j q hq => hs.views j q fun hu => hq ?_⟩
  · rcases running_update hr with ⟨-, hr⟩ | ⟨-, hr⟩
    · cases hr; exact ⟨hp, hc p hp⟩
    · exact hs.calls t' r hr
  · rcases running_update hr with ⟨-, hr⟩ | ⟨-, hr⟩
    · cases hr; exact absurd rfl hst
    · exact hs.made t' r hr hst
  · exact unpublished_of_update (fun y hy => by rw [hidle] at hy; cases hy) hu

omit [DecidableEq ι] [LoadFactor φ] in
theorem redis_inv (hs : Inv owner s) (hx : s.running t = some x) (hst : x.stage = .entered) (hkind : SameKind s.running t) :
    Inv owner (s.advance t x) := by
  obtain ⟨hp, how⟩ := hs.calls t x hx
  have hpresent := present_updateRedis hs.owners hp how x.update
  have hadv : s.advance t x = { s with
      redis := (updateRedis s.redis x.uuid x.address x.update).2
      running := Function.update s.running t
        (some { x with stage := .redis (updateRedis s.redis x.uuid x.address x.update).1 }) } := by
    simp only [Cluster.advance, Running.advance, hst]
  rw [hadv]
  refine ⟨hs.sound, fun j => ?_, fun u a q hm ha => ?_, fun t' r hr => ?_, fun t' r hr hst' => ?_, fun j q hq => ?_⟩
  · rw [updateRedis_channel]; exact hs.behind j
  · by_cases e : (u, a) = (x.uuid, x.address)
    · cases e
      rw [hp] at ha; cases ha; exact how
    · exact hs.owners u a q ((updateRedis_other e).mp hm) ha
  · obtain ⟨r₀, hr₀, hph, had, huu, -⟩ := running_advance hx hr
    rw [← hph, ← had, ← huu]; exact hs.calls t' r₀ hr₀
  · rcases running_update hr with ⟨-, hr⟩ | ⟨hne, hr⟩
    · cases hr
      rw [hpresent, if_pos rfl]
    · rw [hpresent]
      by_cases e : r.phone = x.phone
      · -- a call of the same kind is past its change too
        rw [if_pos e, hkind x hx t' r hr hne hst' e]
      · rw [if_neg e]; exact hs.made t' r hr hst'
  · have hview : ∀ running, view (⟨(updateRedis s.redis x.uuid x.address x.update).2, s.nodes, running⟩ :
        Cluster ι κ φ) j = view s j := fun _ => by simp only [view, updateRedis_channel]
    have hold : ¬ Unpublished s.running q := fun hu => hq (unpublished_of_update (fun y hy _ => by
      rw [hx] at hy; cases hy; rw [hst]; exact fun e => by cases e) hu)
    rw [hview, hs.views j q hold, hpresent]
    by_cases e : q = x.phone
    · -- the call itself is not unpublished, so it changed nothing
      subst e
      have hsame : (updateRedis s.redis x.uuid x.address x.update).1 = false := by
        rw [← Bool.not_eq_true]
        intro htrue
        exact hq ⟨t, _, Function.update_self _ _ _, rfl, by rw [htrue]⟩
      rw [← hpresent]
      refine exists_congr fun u => exists_congr fun a => ?_
      rw [updateRedis_unchanged hsame]
    · rw [if_neg e]

omit [DecidableEq ι] [LoadFactor φ] in
theorem publish_inv {changed : Bool} (hs : Inv owner s) (hx : s.running t = some x) (hst : x.stage = .redis changed) :
    Inv owner (s.advance t x) := by
  have hadv : s.advance t x = { s with
      redis := s.redis.publishIf changed (message x.uuid x.address x.update)
      running := Function.update s.running t (some { x with stage := .published }) } := by
    simp only [Cluster.advance, Running.advance, hst]
  rw [hadv]
  have husers := Redis.users_publishIf s.redis changed (message x.uuid x.address x.update)
  have hpresent : ∀ q, Present (s.redis.publishIf changed (message x.uuid x.address x.update)) q ↔ Present s.redis q := by
    intro q; rw [Present, husers]; rfl
  refine ⟨hs.sound, fun j => ?_, fun u a q hm ha => ?_, fun t' r hr => ?_, fun t' r hr hst' => ?_, fun j q hq => ?_⟩
  · have := hs.behind j
    show (s.nodes j).consumed ≤ (s.redis.publishIf changed _).channel.length
    cases changed with
    | false => exact this
    | true => simp only [Redis.publishIf, Redis.publish, if_true, List.length_append]; omega
  · exact hs.owners u a q (husers ▸ hm) ha
  · obtain ⟨r₀, hr₀, hph, had, huu, -⟩ := running_advance hx hr
    rw [← hph, ← had, ← huu]; exact hs.calls t' r₀ hr₀
  · rw [hpresent]
    rcases running_update hr with ⟨-, hr⟩ | ⟨-, hr⟩
    · cases hr; exact hs.made t x hx (by rw [hst]; exact fun e => by cases e)
    · exact hs.made t' r hr hst'
  · rw [hpresent]
    cases changed with
    | false =>
      -- nothing is published, and nothing had to be
      refine hs.views j q fun hu => hq (unpublished_of_update (fun y hy _ => ?_) hu)
      rw [hx] at hy; cases hy; rw [hst]; exact fun e => by cases e
    | true =>
      have hview : ∀ running, view (⟨s.redis.publishIf true (message x.uuid x.address x.update), s.nodes, running⟩ :
          Cluster ι κ φ) j = Replay.apply messageEffect (view s j) (message x.uuid x.address x.update) := by
        intro running
        simp only [view, Redis.publishIf, Redis.publish, if_true]
        rw [List.drop_append_of_le_length (hs.behind j), replay_concat]
      rw [hview, Replay.apply, messageEffect_message (hs.calls t x hx).1]
      by_cases hqp : q = x.phone
      · subst hqp
        simp only [Function.update_self, value_ne_none]
        exact (hs.made t x hx (by rw [hst]; exact fun e => by cases e)).symm
      · simp only [Function.update_of_ne hqp]
        refine hs.views j q fun hu => hq (unpublished_of_update (fun y hy hyq => ?_) hu)
        rw [hx] at hy; cases hy; exact absurd hyq.symm hqp

omit [DecidableEq ι] [LoadFactor φ] in
/-- A call may end when nothing of it is unpublished. -/
theorem end_inv (hs : Inv owner s) (hx : s.running t = some x) (hst : x.stage ≠ .redis true) :
    Inv owner (s.setRunning t none) := by
  refine ⟨hs.sound, hs.behind, hs.owners, fun t' r hr => hs.calls t' r (running_end hr),
    fun t' r hr => hs.made t' r (running_end hr), fun j q hq => hs.views j q fun hu => hq ?_⟩
  exact unpublished_of_update (fun y hy _ => by rw [hx] at hy; cases hy; exact hst) hu

theorem updateMap_inv (hs : Inv owner s) (h : step s (.updateMap t) = some s') : Inv owner s' := by
  simp only [step] at h
  split at h
  swap
  · cases h
  rename_i x hx
  split at h
  swap
  · cases h
  rename_i hst
  split at h
  swap
  · cases h
  rename_i b d hmap
  cases h
  obtain ⟨hsound, hd⟩ := updateMap_spec (hs.sound x.target) hmap
  suffices hmap : Inv owner { s with
      nodes := Function.update s.nodes x.target { s.nodes x.target with directoryMap := d } } from
    end_inv hmap hx (by rw [hst]; exact fun e => by cases e)
  refine ⟨?_, ?_, hs.owners, hs.calls, hs.made, fun j q hq => ?_⟩
  · exact (Function.forall_update_iff s.nodes fun _ n => Sound n.directoryMap).mpr ⟨hsound, fun j _ => hs.sound j⟩
  · exact (Function.forall_update_iff s.nodes fun _ n => n.consumed ≤ s.redis.channel.length).mpr
      ⟨hs.behind x.target, fun j _ => hs.behind j⟩
  · have hold := hs.views j q hq
    by_cases e : j = x.target
    swap
    · simp only [view, Function.update_of_ne e]; exact hold
    subst e
    simp only [view, Function.update_self]
    rcases hd with hd | hd
    swap
    · rw [hd]; exact hold
    rw [hd]
    refine replay_update_present hold fun hqp => ?_
    subst hqp
    rw [value_ne_none]
    exact (hs.made t x hx (by rw [hst]; exact fun e => by cases e)).symm

omit [DecidableEq ι] [DecidableEq κ] [LoadFactor φ] in
/-- A change that would change nothing is of the kind of those already made. -/
theorem sameKind_of_unchanged (hs : Inv owner s) (hx : s.running t = some x)
    (h : (updateRedis s.redis x.uuid x.address x.update).1 = false) : SameKind s.running t := by
  intro r hr t' y hy hne hst hph
  cases hx.symm.trans hr
  obtain ⟨hp, how⟩ := hs.calls t x hx
  have hsame : Present (updateRedis s.redis x.uuid x.address x.update).2 x.phone ↔ Present s.redis x.phone :=
    exists_congr fun u => exists_congr fun a => by rw [updateRedis_unchanged h]
  have hboth : x.update = .add ↔ y.update = .add := by
    rw [← hs.made t' y hy hst, hph, ← hsame, present_updateRedis hs.owners hp how, if_pos rfl]
  cases hxu : x.update <;> cases hyu : y.update <;> simp_all

theorem throws_inv {executed : Bool} (hs : Inv owner s) (hc : ThrowsClean s.redis s.running t executed)
    (h : step s (.throws t executed) = some s') : Inv owner s' := by
  simp only [step] at h
  split at h
  swap
  · cases h
  rename_i x hx
  split at h
  swap
  · cases h
  rename_i hcmd
  cases h
  obtain ⟨hentered, hredis⟩ := hc x hx
  rcases of_decide_eq_true hcmd with hst | hst
  · cases executed with
    | false => exact end_inv hs hx (by rw [hst]; exact fun e => by cases e)
    | true =>
      have hsame := hentered hst rfl
      have hinv := redis_inv hs hx hst (sameKind_of_unchanged hs hx hsame)
      refine end_inv hinv (Function.update_self _ _ _) ?_
      simp only [hst, hsame]
      exact fun e => by cases e
  · obtain rfl := hredis hst
    refine end_inv (publish_inv hs hx hst) (Function.update_self _ _ _) ?_
    simp only [hst]
    exact fun e => by cases e

theorem consume_inv {i : ι} (hs : Inv owner s) (h : step s (.consume i) = some s') : Inv owner s' := by
  simp only [step] at h
  split at h
  · cases h
  rename_i m hm
  split at h
  swap
  · cases h
  rename_i d hd
  cases h
  obtain ⟨hsound, hmap⟩ := processMessage_ok (hs.sound i) hd
  obtain ⟨hlt, hget⟩ := List.getElem?_eq_some_iff.mp hm
  refine ⟨?_, ?_, hs.owners, hs.calls, hs.made, fun j q hq => ?_⟩
  · exact (Function.forall_update_iff s.nodes fun _ n => Sound n.directoryMap).mpr ⟨hsound, fun j _ => hs.sound j⟩
  · exact (Function.forall_update_iff s.nodes fun _ n => n.consumed ≤ s.redis.channel.length).mpr
      ⟨hlt, fun j _ => hs.behind j⟩
  · have hview : view { s with nodes := Function.update s.nodes i ⟨d, (s.nodes i).consumed + 1⟩ } j = view s j := by
      by_cases e : j = i
      · subst e
        simp only [view, Function.update_self, hmap]
        rw [List.drop_eq_getElem_cons hlt, replay_cons, hget]
      · simp only [view, Function.update_of_ne e]
    rw [hview]; exact hs.views j q hq

theorem step_inv {e : Event ι κ} (hs : Inv owner s) (hc : Separate owner s e) (h : step s e = some s') : Inv owner s' := by
  cases e with
  | enter t i update uuid address => exact enter_inv hs hc h
  | redis t =>
    simp only [step] at h
    split at h
    · rename_i r hr
      obtain ⟨hst, h⟩ := Option.ite_none_right_eq_some.mp h
      cases h
      exact redis_inv hs hr hst hc
    · cases h
  | publish t =>
    simp only [step] at h
    split at h
    · rename_i r hr
      obtain ⟨⟨h₁, h₂⟩, h⟩ := Option.ite_none_right_eq_some.mp h
      cases h
      cases hst : r.stage with
      | entered => exact absurd hst h₁
      | redis changed => exact publish_inv hs hr hst
      | published => exact absurd hst h₂
    · cases h
  | updateMap t => exact updateMap_inv hs h
  | throws t executed => exact throws_inv hs hc h
  | consume i => exact consume_inv hs h

end Steps

/-! ## Convergence -/

omit [DecidableEq ι] [DecidableEq κ] [LoadFactor φ] in
theorem view_of_idle {s : Cluster ι κ φ} (h : Idle s) (i : ι) : view s i = (s.nodes i).directoryMap.map := by
  rw [view, h.2 i, List.drop_length]; rfl

omit [DecidableEq ι] [DecidableEq κ] [LoadFactor φ] in
theorem inv_of_converged {owner : Phone → User} {s : Cluster ι κ φ} (hsound : ∀ i, Sound (s.nodes i).directoryMap)
    (howner : ∀ u a p, encodeUser u a ∈ s.redis.users → parseAddress a = some p → (u, a) = owner p) (hidle : Idle s)
    (hconv : Converged s) : Inv owner s := by
  have hno : ∀ t r, s.running t ≠ some r := fun t r hr => by rw [hidle.1 t] at hr; cases hr
  refine ⟨hsound, fun i => (hidle.2 i).le, howner, fun t r hr => absurd hr (hno t r), fun t r hr => absurd hr (hno t r),
    fun i p _ => ?_⟩
  rw [view_of_idle hidle]
  exact hconv i p

/-- From a converged cluster, along a run in which calls on one phone are about one entry, change the
    user set only beside calls of their kind, and do not throw with a change unpublished: when all calls
    have ended and all messages are consumed, it has converged. -/
theorem converges {owner : Phone → User} {s₀ s : Cluster ι κ φ} {events : List (Event ι κ)}
    (hsound : ∀ i, Sound (s₀.nodes i).directoryMap)
    (howner : ∀ u a p, encodeUser u a ∈ s₀.redis.users → parseAddress a = some p → (u, a) = owner p)
    (hidle₀ : Idle s₀) (hconv : Converged s₀) (hsep : Runs.Meets step (Separate owner) s₀ events)
    (hrun : Runs.run step s₀ events = some s) (hidle : Idle s) : Converged s := by
  have hinv := (Runs.always_of_inv (fun s e s' => step_inv) events s₀
    (inv_of_converged hsound howner hidle₀ hconv) hsep).run events s₀ s hrun
  intro i p
  rw [← view_of_idle hidle]
  exact hinv.views i p fun ⟨t, r, hr, _⟩ => by rw [hidle.1 t] at hr; cases hr

def emptyCluster : Cluster (Fin 2) (Fin 2) ℚ := ⟨⟨[], none, false, []⟩, fun _ => ⟨.eightSlots, 0⟩, fun _ => none⟩

theorem emptyCluster_converged : Converged emptyCluster := by
  intro i p
  have hmap : (emptyCluster.nodes i).directoryMap.map p = none := by rw [← congrFun eightSlots_map p]; rfl
  rw [hmap]
  exact ⟨fun h => absurd rfl h, fun ⟨u, a, h, _⟩ => by cases h⟩

/-- Two overlapping adds of a phone, the second of which changes nothing; then its remove, the message
    of which is out when its publish throws; then an add of another phone, after one that throws
    before Redis has it. -/
def twoNodesRun : List (Event (Fin 2) (Fin 2)) :=
  [.enter 0 0 .add ⟨fun _ => 1⟩ ['+', '1', '5'], .redis 0, .enter 1 1 .add ⟨fun _ => 1⟩ ['+', '1', '5'], .redis 1,
    .publish 1, .updateMap 1, .publish 0, .consume 1, .updateMap 0,
    .enter 0 1 .remove ⟨fun _ => 1⟩ ['+', '1', '5'], .redis 0, .throws 0 true,
    .enter 1 1 .add ⟨fun _ => 2⟩ ['1', '6'], .throws 1 false, .enter 1 0 .add ⟨fun _ => 2⟩ ['1', '6'], .redis 1,
    .publish 1, .updateMap 1, .consume 0, .consume 0, .consume 0, .consume 1, .consume 1]

theorem converges_two_nodes :
    ∃ s, Runs.run step emptyCluster twoNodesRun = some s ∧ s.redis.users = [encodeUser ⟨fun _ => 2⟩ ['1', '6']] ∧
      Converged s := by
  have hrun : (Runs.run step emptyCluster twoNodesRun).map (fun s => (decide (Idle s), s.redis.users)) =
      some (true, [encodeUser ⟨fun _ => 2⟩ ['1', '6']]) := by
    decide +kernel
  obtain ⟨s, hrun, heq⟩ := Option.map_eq_some_iff.mp hrun
  obtain ⟨hidle, husers⟩ := Prod.mk.inj heq
  refine ⟨s, hrun, husers, ?_⟩
  exact @converges _ _ _ _ _ _ (fun p => if p = 15 then (⟨fun _ => 1⟩, ['+', '1', '5']) else (⟨fun _ => 2⟩, ['1', '6']))
    _ _ _ (fun _ => eightSlots_sound) (fun _ _ _ h => by cases h) (by decide +kernel) emptyCluster_converged
    (by decide +kernel) hrun (of_decide_eq_true hidle)

/-- Whether the cluster is idle, its user set, and what the nodes have for the phone 15. -/
def outcome (s : Cluster (Fin 2) (Fin 2) ℚ) : Bool × List Text × Option Uuid × Option Uuid :=
  (decide (Idle s), s.redis.users, (s.nodes 0).directoryMap.map 15, (s.nodes 1).directoryMap.map 15)

/-- One uuid, one phone: an add and a remove that publish in the other order than they change Redis
    leave the phone on the nodes; after an add of each of two texts of the number, removing one takes
    the phone from the nodes; an add that throws at its publish, or at its change of the user set
    although that was made, reaches no node. -/
theorem replicas_diverge :
    parseAddress ['+', '1', '5'] = some 15 ∧ parseAddress ['1', '5'] = some 15 ∧
      (Runs.run step emptyCluster [.enter 0 0 .add ⟨fun _ => 1⟩ ['+', '1', '5'], .redis 0,
          .enter 1 1 .remove ⟨fun _ => 1⟩ ['+', '1', '5'], .redis 1, .publish 1, .publish 0, .updateMap 0, .updateMap 1,
          .consume 0, .consume 0, .consume 1, .consume 1]).map outcome =
        some (true, [], some ⟨fun _ => 1⟩, some ⟨fun _ => 1⟩) ∧
      (Runs.run step emptyCluster [.enter 0 0 .add ⟨fun _ => 1⟩ ['+', '1', '5'], .redis 0, .publish 0, .updateMap 0,
          .enter 0 0 .add ⟨fun _ => 1⟩ ['1', '5'], .redis 0, .publish 0, .updateMap 0,
          .enter 0 0 .remove ⟨fun _ => 1⟩ ['+', '1', '5'], .redis 0, .publish 0, .updateMap 0,
          .consume 0, .consume 0, .consume 0, .consume 1, .consume 1, .consume 1]).map outcome =
        some (true, [encodeUser ⟨fun _ => 1⟩ ['1', '5']], none, none) ∧
      (Runs.run step emptyCluster [.enter 0 0 .add ⟨fun _ => 1⟩ ['1', '5'], .redis 0, .throws 0 false]).map outcome =
        some (true, [encodeUser ⟨fun _ => 1⟩ ['1', '5']], none, none) ∧
      (Runs.run step emptyCluster [.enter 0 0 .add ⟨fun _ => 1⟩ ['1', '5'], .throws 0 true]).map outcome =
        some (true, [encodeUser ⟨fun _ => 1⟩ ['1', '5']], none, none) :=
  ⟨by decide +kernel, by decide +kernel, by decide +kernel, by decide +kernel, by decide +kernel, by decide +kernel⟩

end ContactDiscovery.Directory.Replicas
