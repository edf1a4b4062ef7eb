/-
  ContactDiscovery.Directory.Calls — the steps of `addUser` and `removeUser` (`DirectoryManager.java`).

  A call changes the user set, publishes a message if that changed it, and updates the map it holds.
  The first two are commands to Redis, and each may throw, carried out or not; the call then ends.

  What nodes will have when they have caught up depends on the messages, and these say what the user
  set has as long as two things do not happen: a call changes the user set at a phone while one of the
  other kind is between its own change and its map (`SameKind`), or a call throws with a change that is
  not published (`ThrowsClean`).
-/

import ContactDiscovery.Directory.DirectoryManager

namespace ContactDiscovery.Directory.Calls

open Lib DirectoryMap
open Enclave (Phone Uuid)

variable {φ : Type} [LoadFactor φ]

inductive Update where
  | add
  | remove
  deriving DecidableEq, Repr

def updateRedis (r : Redis) (uuid : Uuid) (address : Text) : Update → Bool × Redis
  | .add => DirectoryCache.addUser r uuid address
  | .remove => DirectoryCache.removeUser r uuid address

def message (uuid : Uuid) (address : Text) : Update → PubSubMessage
  | .add => ⟨.addedUser, encodeUser uuid address⟩
  | .remove => ⟨.removed, address⟩

def updateMap (d : DirectoryMap φ) (phone : Phone) (uuid : Uuid) :
    Update → Option (Except (InternalBuffersError φ) Bool × DirectoryMap φ)
  | .add => d.insert phone uuid
  | .remove => d.remove phone

/-- The call the steps are taken from. -/
def call (n : Node φ) (uuid : Uuid) (address : Text) : Update → Option (Except (ManagerError φ) Unit × Node φ)
  | .add => n.addUser uuid address
  | .remove => n.removeUser uuid address

/-! ## Running calls -/

/-- How far a call is: its address is parsed, Redis has answered whether it changed, or the message is
    out. -/
inductive Stage where
  | entered
  | redis (changed : Bool)
  | published
  deriving DecidableEq, Repr

structure Running (ω : Type) where
  /-- Where the map is that the call updates. -/
  target : ω
  update : Update
  uuid : Uuid
  address : Text
  phone : Phone
  stage : Stage

variable {ω κ : Type}

/-- The next step of a call that is one of Redis; a message is published only if the user set changed. -/
def Running.advance (r : Running ω) (redis : Redis) : Redis × Running ω :=
  match r.stage with
  | .entered =>
    let (changed, redis) := updateRedis redis r.uuid r.address r.update
    (redis, { r with stage := .redis changed })
  | .redis changed => (redis.publishIf changed (message r.uuid r.address r.update), { r with stage := .published })
  | .published => (redis, r)

def Running.commands (r : Running ω) : Bool := r.stage = .entered ∨ r.stage = .redis true

/-- A call has changed the user set at the phone and not yet published it. -/
def Unpublished (running : κ → Option (Running ω)) (p : Phone) : Prop :=
  ∃ t r, running t = some r ∧ r.phone = p ∧ r.stage = .redis true

def Present (r : Redis) (p : Phone) : Prop := ∃ u a, encodeUser u a ∈ r.users ∧ parseAddress a = some p

/-! ## What runs are asked to do -/

/-- The entry is the one of its phone. -/
def Owns (owner : Phone → User) (user : User) : Prop := ∀ p ∈ parseAddress user.2, user = owner p

/-- The other calls on the phone of this one that are past their change of the user set are of the same
    kind. -/
def SameKind (running : κ → Option (Running ω)) (t : κ) : Prop :=
  ∀ r ∈ running t, ∀ t', ∀ r' ∈ running t', t' ≠ t → r'.stage ≠ .entered → r'.phone = r.phone → r'.update = r.update

/-- A call that throws has not changed the user set, or has published that. -/
def ThrowsClean (redis : Redis) (running : κ → Option (Running ω)) (t : κ) (executed : Bool) : Prop :=
  ∀ r ∈ running t,
    (r.stage = .entered → executed = true → (updateRedis redis r.uuid r.address r.update).1 = false) ∧
      (r.stage = .redis true → executed = true)

-- not over all phones, of which there are finitely many
instance (owner : Phone → User) (user : User) : Decidable (Owns owner user) :=
  decidable_of_iff ((parseAddress user.2).all (user = owner ·)) (by cases h : parseAddress user.2 <;> simp [Owns, h])

instance [Fintype κ] [DecidableEq κ] (running : κ → Option (Running ω)) (t : κ) : Decidable (SameKind running t) :=
  inferInstanceAs (Decidable (∀ r ∈ running t, ∀ t', ∀ r' ∈ running t', _))

instance (redis : Redis) (running : κ → Option (Running ω)) (t : κ) (executed : Bool) :
    Decidable (ThrowsClean redis running t executed) :=
  inferInstanceAs (Decidable (∀ r ∈ running t, _))

/-! ## The user set -/

/-- Redis says it did not change only if the user set is the same. -/
theorem updateRedis_unchanged {r : Redis} {uuid : Uuid} {address : Text} {update : Update}
    (h : (updateRedis r uuid address update).1 = false) (x : Text) :
    x ∈ (updateRedis r uuid address update).2.users ↔ x ∈ r.users := by
  cases update with
  | add =>
    simp only [updateRedis, DirectoryCache.addUser, Redis.zadd] at h ⊢
    split at h
    · rename_i hm; rw [if_pos hm]
    · cases h
  | remove =>
    simp only [updateRedis, DirectoryCache.removeUser, Redis.zrem, decide_eq_false_iff_not] at h
    rw [updateRedis, DirectoryCache.removeUser, Redis.mem_zrem]
    exact ⟨fun hx => hx.1, fun hx => ⟨hx, fun e => h (e ▸ hx)⟩⟩

theorem updateRedis_channel (r : Redis) (uuid : Uuid) (address : Text) (update : Update) :
    (updateRedis r uuid address update).2.channel = r.channel := by
  cases update with
  | add => simp only [updateRedis, DirectoryCache.addUser, Redis.zadd]; split <;> rfl
  | remove => rfl

theorem updateRedis_mark (r : Redis) (uuid : Uuid) (address : Text) (update : Update) :
    (updateRedis r uuid address update).2.lastReconciled = r.lastReconciled := by
  cases update with
  | add => simp only [updateRedis, DirectoryCache.addUser, Redis.zadd]; split <;> rfl
  | remove => rfl

theorem mem_updateRedis_of_ne {r : Redis} {uuid : Uuid} {address x : Text} {update : Update}
    (h : x ≠ encodeUser uuid address) : x ∈ (updateRedis r uuid address update).2.users ↔ x ∈ r.users := by
  cases update with
  | add => rw [updateRedis, DirectoryCache.addUser, Redis.mem_zadd]; simp [h]
  | remove => rw [updateRedis, DirectoryCache.removeUser, Redis.mem_zrem]; simp [h]

theorem updateRedis_other {r : Redis} {uuid u : Uuid} {address a : Text} {update : Update}
    (h : (u, a) ≠ (uuid, address)) :
    encodeUser u a ∈ (updateRedis r uuid address update).2.users ↔ encodeUser u a ∈ r.users :=
  mem_updateRedis_of_ne fun e => h (Prod.ext_iff.mpr (encodeUser_inj e))

theorem updateRedis_self (r : Redis) (uuid : Uuid) (address : Text) (update : Update) :
    encodeUser uuid address ∈ (updateRedis r uuid address update).2.users ↔ update = .add := by
  cases update with
  | add => rw [updateRedis, DirectoryCache.addUser, Redis.mem_zadd]; simp
  | remove => rw [updateRedis, DirectoryCache.removeUser, Redis.mem_zrem]; simp

/-! ## Messages and maps -/

/-- What an update gives the phone. -/
def value (uuid : Uuid) : Update → Option Uuid
  | .add => some uuid
  | .remove => none

theorem value_ne_none (uuid : Uuid) (update : Update) : value uuid update ≠ none ↔ update = .add := by
  cases update <;> simp [value]

theorem messageEffect_message {uuid : Uuid} {address : Text} {p : Phone} (h : parseAddress address = some p)
    (update : Update) : messageEffect (message uuid address update) = some (p, value uuid update) := by
  cases update with
  | add => simp [messageEffect, message, value, decodeUser_encodeUser, h]
  | remove => simp [messageEffect, message, value, h]

/-- The update of the map is made, or throws and leaves it. -/
theorem updateMap_spec {d d' : DirectoryMap φ} {p : Phone} {uuid : Uuid} {update : Update}
    {r : Except (InternalBuffersError φ) Bool} (hd : Sound d) (h : updateMap d p uuid update = some (r, d')) :
    Sound d' ∧ (d'.map = Function.update d.map p (value uuid update) ∨ d'.map = d.map) := by
  cases update with
  | add =>
    cases r with
    | ok b => exact ⟨(insert_ok hd h).1, Or.inl (insert_ok hd h).2⟩
    | error e => rw [insert_error hd h]; exact ⟨hd, Or.inr rfl⟩
  | remove =>
    cases r with
    | ok b => exact ⟨(remove_ok hd h).1, Or.inl (remove_ok hd h).2⟩
    | error e => rw [remove_error hd h]; exact ⟨hd, Or.inr rfl⟩

/-! ## Calls that step -/

section Step

variable [DecidableEq κ] {running : κ → Option (Running ω)} {t t' : κ} {r x : Running ω} {o : Option (Running ω)} {p : Phone}

theorem running_update (h : Function.update running t o t' = some r) : (t' = t ∧ o = some r) ∨ (t' ≠ t ∧ running t' = some r) := by
  by_cases e : t' = t
  · subst e; rw [Function.update_self] at h; exact Or.inl ⟨rfl, h⟩
  · rw [Function.update_of_ne e] at h; exact Or.inr ⟨e, h⟩

theorem running_advance (hx : running t = some x) {stage : Stage}
    (h : Function.update running t (some { x with stage }) t' = some r) :
    ∃ r₀, running t' = some r₀ ∧ r₀.phone = r.phone ∧ r₀.address = r.address ∧ r₀.uuid = r.uuid ∧ r₀.update = r.update := by
  rcases running_update h with ⟨ht, hr⟩ | ⟨-, hr⟩
  · cases hr; exact ⟨x, ht ▸ hx, rfl, rfl, rfl, rfl⟩
  · exact ⟨r, hr, rfl, rfl, rfl, rfl⟩

theorem running_end (h : Function.update running t none t' = some r) : running t' = some r := by
  rcases running_update h with ⟨-, hr⟩ | ⟨-, hr⟩
  · cases hr
  · exact hr

/-- Replacing a call that has nothing unpublished at the phone. -/
theorem unpublished_of_update (ht : ∀ x, running t = some x → x.phone = p → x.stage ≠ .redis true)
    (h : Unpublished running p) : Unpublished (Function.update running t o) p := by
  obtain ⟨t', x, hx, hp, hst⟩ := h
  have hne : t' ≠ t := fun e => ht x (e ▸ hx) hp hst
  exact ⟨t', x, (Function.update_of_ne hne _ _).trans hx, hp, hst⟩

end Step

end ContactDiscovery.Directory.Calls
