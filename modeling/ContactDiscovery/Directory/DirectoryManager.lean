/-
  ContactDiscovery.Directory.DirectoryManager — one node's updates of the directory
  (`DirectoryManager.java`): each change goes to the user set in Redis, is published if Redis
  changed, and goes to the node's own directory map.

  A call returns what it returns or throws, with the state it leaves; `none` is a panic in the
  native map. The node is connected, so it has a directory map. The sets a reconciliation walks
  are hash sets: the order is any permutation (`IterationOrder`).

  Proved: `addUsers_spec` and `removeUsers_spec`, what the two loops of a reconciliation do to the
  user set and to the map the building table stands for; `processMessage_ok`, what a message from
  the channel does to the map.
-/

import ContactDiscovery.Directory.DirectoryCache
import ContactDiscovery.Directory.DirectoryMap
import ContactDiscovery.Directory.TableMap
import ContactDiscovery.Lib.Replay

namespace ContactDiscovery.Directory

open Lib Lib.Numeral Lib.Assoc
open Enclave (Phone Uuid)

/-- `parseAddress`: what is left without the characters that are no digit and no dot, read as a
    `long`; `none` is the `InvalidAddressException`. -/
def parseAddress (address : Text) : Option Phone :=
  parseLong (digitOf 10) 10 (address.filter fun c => ('0' ≤ c ∧ c ≤ '9') ∨ c = '.')

inductive ManagerError (φ : Type) where
  | invalidAddress (address : Text)
  /-- An error of the native map, as a Java exception. -/
  | native (e : InternalBuffersError φ)
  deriving DecidableEq

structure Node (φ : Type) where
  isReconciliationEnabled : Bool
  redis : Redis
  directoryMap : DirectoryMap φ

/-- The order in which the elements of a hash set are visited. -/
structure IterationOrder where
  list : List User → List User
  perm : ∀ l, (list l).Perm l

variable {φ : Type} [LoadFactor φ]

namespace Node

/-! ## Single updates -/

def addUser (n : Node φ) (uuid : Uuid) (address : Text) : Option (Except (ManagerError φ) Unit × Node φ) :=
  match parseAddress address with
  | none => some (.error (.invalidAddress address), n)
  | some directoryAddress =>
    let (added, redis) := DirectoryCache.addUser n.redis uuid address
    let redis := redis.publishIf added ⟨.addedUser, encodeUser uuid address⟩
    match n.directoryMap.insert directoryAddress uuid with
    | none => none
    | some (.error e, directoryMap) => some (.error (.native e), { n with redis, directoryMap })
    | some (.ok _, directoryMap) => some (.ok (), { n with redis, directoryMap })

def removeUser (n : Node φ) (uuid : Uuid) (address : Text) : Option (Except (ManagerError φ) Unit × Node φ) :=
  match parseAddress address with
  | none => some (.error (.invalidAddress address), n)
  | some directoryAddress =>
    let (removedUser, redis) := DirectoryCache.removeUser n.redis uuid address
    let redis := redis.publishIf removedUser ⟨.removed, address⟩
    match n.directoryMap.remove directoryAddress with
    | none => none
    | some (.error e, directoryMap) => some (.error (.native e), { n with redis, directoryMap })
    | some (.ok _, directoryMap) => some (.ok (), { n with redis, directoryMap })

/-! ## Reconciliation -/

/-- A loop of `removeUser`; `reconcile` logs an invalid address and goes on, `deletesReconcile`
    throws it. -/
def removeUsers (skipInvalid : Bool) : List User → Node φ → Option (Except (ManagerError φ) Unit × Node φ)
  | [], n => some (.ok (), n)
  | (uuid, address) :: users, n =>
    match n.removeUser uuid address with
    | none => none
    | some (.ok (), n) => removeUsers skipInvalid users n
    | some (.error (.invalidAddress a), n) =>
      if skipInvalid then removeUsers skipInvalid users n else some (.error (.invalidAddress a), n)
    | some (.error (.native e), n) => some (.error (.native e), n)

def addUsers : List User → Node φ → Option (Except (ManagerError φ) Unit × Node φ)
  | [], n => some (.ok (), n)
  | (uuid, address) :: users, n =>
    match n.addUser uuid address with
    | none => none
    | some (.error e, n) => some (.error e, n)
    | some (.ok (), n) => addUsers users n

/-- The chunk does not start where the last one ended, or before. -/
def skipsData (n : Node φ) : Option Uuid → Bool
  | none => false
  | some fromUuid =>
    match DirectoryCache.getUuidLastReconciled n.redis with
    | none => true
    | some last => uuidToString last < uuidToString fromUuid

/-- The elements of the first list that are not in the second, as a set. -/
def difference (a b : List User) : List User := a.dedup.filter (· ∉ b)

def reconcile (n : Node φ) (fromUuid toUuid : Option Uuid) (users : List User) (order : IterationOrder) :
    Option (Except (ManagerError φ) Bool × Node φ) :=
  if !n.isReconciliationEnabled then some (.ok true, n)
  else if n.skipsData fromUuid then some (.ok false, n)
  else if fromUuid.isNone && toUuid.isNone then some (.ok false, n)
  else
    let usersInRange := DirectoryCache.getUsersInRange n.redis fromUuid toUuid
    match removeUsers true (order.list (difference usersInRange users)) n with
    | none => none
    | some (.error e, n) => some (.error e, n)
    | some (.ok (), n) =>
      match addUsers (order.list (difference users usersInRange)) n with
      | none => none
      | some (.error e, n) => some (.error e, n)
      | some (.ok (), n) =>
        some (.ok true, { n with redis := DirectoryCache.setUuidLastReconciled n.redis toUuid })

def existsReconcile (n : Node φ) (users : List User) (order : IterationOrder) :
    Option (Except (ManagerError φ) Unit × Node φ) :=
  addUsers (order.list (difference users (DirectoryCache.getKnownUsers n.redis users))) n

def deletesReconcile (n : Node φ) (users : List User) (order : IterationOrder) :
    Option (Except (ManagerError φ) Unit × Node φ) :=
  removeUsers false (order.list (DirectoryCache.getKnownUsers n.redis users).dedup) n

end Node

/-! ## Messages -/

/-- `processMessage` on a connected node; a malformed user and an invalid address are logged. -/
def DirectoryMap.processMessage (d : DirectoryMap φ) (message : PubSubMessage) :
    Option (Except (ManagerError φ) Unit × DirectoryMap φ) :=
  match message.type with
  | .addedUser =>
    match decodeUser message.content with
    | none => some (.ok (), d)
    | some (uuid, address) =>
      match parseAddress address with
      | none => some (.ok (), d)
      | some directoryAddress =>
        match d.insert directoryAddress uuid with
        | none => none
        | some (.error e, d) => some (.error (.native e), d)
        | some (.ok _, d) => some (.ok (), d)
  | .removed =>
    match parseAddress message.content with
    | none => some (.ok (), d)
    | some directoryAddress =>
      match d.remove directoryAddress with
      | none => none
      | some (.error e, d) => some (.error (.native e), d)
      | some (.ok _, d) => some (.ok (), d)
  | .added | .keepalive => some (.ok (), d)

/-! ## The building table as a map -/

namespace DirectoryMap

/-- The map lookups will see after the next commit. -/
def map (d : DirectoryMap φ) : Phone → Option Uuid := d.building.lookup

/-- The building table is one that inserts and removes lead to. -/
def Sound (d : DirectoryMap φ) : Prop := d.building.Refines d.map

theorem insert_ok {d d' : DirectoryMap φ} {k : Phone} {u : Uuid} {b : Bool} (hd : Sound d)
    (h : d.insert k u = some (.ok b, d')) : Sound d' ∧ d'.map = Function.update d.map k (some u) := by
  simp only [insert] at h
  split at h
  · cases h
  rename_i building hb
  cases h
  have hk : ValidE164 k := by
    by_contra hk
    rw [InternalBuffers.insert, if_pos (not_validE164.mp hk)] at hb
    cases hb
  obtain ⟨-, href⟩ := InternalBuffers.insert_refines hd hk hb
  have hmap : building.lookup = Function.update d.map k (some u) := href.map
  exact ⟨show building.Refines building.lookup from hmap ▸ href, hmap⟩

/-- An insert throws on a key the table does not take, and leaves the map. -/
theorem insert_error {d d' : DirectoryMap φ} {k : Phone} {u : Uuid} {e : InternalBuffersError φ} (hd : Sound d)
    (h : d.insert k u = some (.error e, d')) : d' = d := by
  simp only [insert] at h
  split at h
  · cases h
  rename_i building hb
  cases h
  by_cases hk : ValidE164 k
  · obtain ⟨hr, -⟩ := InternalBuffers.insert_refines hd hk hb
    cases hr
  · rw [InternalBuffers.insert, if_pos (not_validE164.mp hk)] at hb
    cases hb; rfl

omit [LoadFactor φ] in
theorem remove_ok {d d' : DirectoryMap φ} {k : Phone} {b : Bool} (hd : Sound d)
    (h : d.remove k = some (.ok b, d')) : Sound d' ∧ d'.map = Function.update d.map k none := by
  simp only [remove] at h
  split at h
  · cases h
  rename_i building hb
  cases h
  have hk : ValidE164 k := by
    by_contra hk
    rw [InternalBuffers.remove, if_pos (not_validE164.mp hk)] at hb
    cases hb
  obtain ⟨-, href⟩ := InternalBuffers.remove_refines hd hk hb
  have hmap : building.lookup = Function.update d.map k none := href.map
  exact ⟨show building.Refines building.lookup from hmap ▸ href, hmap⟩

omit [LoadFactor φ] in
theorem remove_error {d d' : DirectoryMap φ} {k : Phone} {e : InternalBuffersError φ} (hd : Sound d)
    (h : d.remove k = some (.error e, d')) : d' = d := by
  simp only [remove] at h
  split at h
  · cases h
  rename_i building hb
  cases h
  by_cases hk : ValidE164 k
  · obtain ⟨hr, -⟩ := InternalBuffers.remove_refines hd hk hb
    cases hr
  · rw [InternalBuffers.remove, if_pos (not_validE164.mp hk)] at hb
    cases hb; rfl

theorem eightSlots_refines : eightSlots.building.Refines fun _ => none :=
  InternalBuffers.new_refines (@InternalBuffers.new_ok ℚ _ 8 (1 / 4) (3 / 4) (by decide +kernel) (by decide +kernel)
    (by decide +kernel) (by decide))

theorem eightSlots_map : eightSlots.map = fun _ => none := eightSlots_refines.map

theorem eightSlots_sound : Sound eightSlots := by
  rw [Sound, eightSlots_map]; exact eightSlots_refines

/-- The phone a message is about, and the uuid it gives it. -/
def messageEffect (message : PubSubMessage) : Option (Phone × Option Uuid) :=
  match message.type with
  | .addedUser => (decodeUser message.content).bind fun u => (parseAddress u.2).map fun p => (p, some u.1)
  | .removed => (parseAddress message.content).map fun p => (p, none)
  | .added | .keepalive => none

theorem processMessage_ok {d d' : DirectoryMap φ} {message : PubSubMessage} (hd : Sound d)
    (h : d.processMessage message = some (.ok (), d')) :
    Sound d' ∧ d'.map = Replay.apply messageEffect d.map message := by
  obtain ⟨type, content⟩ := message
  cases type with
  | added => cases h; exact ⟨hd, rfl⟩
  | keepalive => cases h; exact ⟨hd, rfl⟩
  | addedUser =>
    simp only [processMessage] at h
    simp only [Replay.apply, messageEffect]
    cases hu : decodeUser content with
    | none => simp only [hu] at h; cases h; exact ⟨hd, rfl⟩
    | some u =>
      cases hp : parseAddress u.2 with
      | none => simp only [hu, hp] at h; cases h; exact ⟨hd, by simp [hp]⟩
      | some p =>
        simp only [hu, hp] at h
        split at h
        · cases h
        · cases h
        · rename_i b d₁ hi
          cases h
          obtain ⟨hs, hm⟩ := insert_ok hd hi
          exact ⟨hs, by simp [hp, hm]⟩
  | removed =>
    simp only [processMessage] at h
    simp only [Replay.apply, messageEffect]
    cases hp : parseAddress content with
    | none => simp only [hp] at h; cases h; exact ⟨hd, rfl⟩
    | some p =>
      simp only [hp] at h
      split at h
      · cases h
      · cases h
      · rename_i b d₁ hi
        cases h
        obtain ⟨hs, hm⟩ := remove_ok hd hi
        exact ⟨hs, by simp [hm]⟩

end DirectoryMap

/-! ## The loops -/

/-- The phones and uuids of the users with a valid address, in order. -/
def phonesOf (users : List User) : List (Phone × Uuid) :=
  users.filterMap fun u => (parseAddress u.2).map fun p => (p, u.1)

theorem phonesOf_cons {uuid : Uuid} {address : Text} {p : Phone} (h : parseAddress address = some p)
    (users : List User) : phonesOf ((uuid, address) :: users) = (p, uuid) :: phonesOf users := by
  simp [phonesOf, h]

theorem last?_phonesOf_singleton {uuid : Uuid} {address : Text} {p : Phone} (h : parseAddress address = some p) (q : Phone) :
    last? q (phonesOf [(uuid, address)]) = if p = q then some uuid else none := by
  rw [phonesOf_cons h]
  rfl

theorem phonesOf_append_cons (u : User) (users : List User) :
    phonesOf (u :: users) = phonesOf [u] ++ phonesOf users := by
  rw [phonesOf, phonesOf, phonesOf, ← List.filterMap_append]; rfl

theorem mem_phonesOf {users : List User} {p : Phone} {u : Uuid} :
    (p, u) ∈ phonesOf users ↔ ∃ a, (u, a) ∈ users ∧ parseAddress a = some p := by
  simp only [phonesOf, List.mem_filterMap, Option.map_eq_some_iff, Prod.mk.injEq, Prod.exists]
  constructor
  · intro ⟨u', a, hm, q, hq, hp, hu⟩
    subst hp hu
    exact ⟨a, hm, hq⟩
  · intro ⟨a, hm, hp⟩
    exact ⟨u, a, hm, p, hp, rfl, rfl⟩

namespace Node

def map (n : Node φ) : Phone → Option Uuid := n.directoryMap.map

def Sound (n : Node φ) : Prop := n.directoryMap.Sound

/-- What adding these users does to a node. -/
structure Adds (users : List User) (n n' : Node φ) : Prop where
  sound : Sound n'
  entries : ∀ x, x ∈ n'.redis.users ↔ x ∈ n.redis.users ∨ ∃ u ∈ users, x = encodeUser u.1 u.2
  map : ∀ p, n'.map p = (last? p (phonesOf users)).or (n.map p)

/-- What removing these users does to a node; those with an invalid address are skipped. -/
structure Removes (users : List User) (n n' : Node φ) : Prop where
  sound : Sound n'
  entries : ∀ x, x ∈ n'.redis.users ↔
    x ∈ n.redis.users ∧ ∀ u ∈ users, parseAddress u.2 ≠ none → x ≠ encodeUser u.1 u.2
  map : ∀ p, n'.map p = if last? p (phonesOf users) = none then n.map p else none

theorem addUser_spec {n n' : Node φ} {uuid : Uuid} {address : Text} (hn : Sound n)
    (h : n.addUser uuid address = some (.ok (), n')) : Adds [(uuid, address)] n n' := by
  simp only [addUser] at h
  cases hp : parseAddress address with
  | none => simp [hp] at h
  | some p =>
    simp only [hp] at h
    split at h
    · cases h
    · cases h
    · rename_i b directoryMap hi
      cases h
      obtain ⟨hsound, hmap⟩ := DirectoryMap.insert_ok hn hi
      refine ⟨hsound, fun x => ?_, fun q => ?_⟩
      · simp only [DirectoryCache.addUser, Redis.users_publishIf, List.mem_singleton, exists_eq_left]
        exact Redis.mem_zadd
      · show directoryMap.map q = _
        rw [hmap, last?_phonesOf_singleton hp]
        split
        · rename_i hq
          rw [hq, Function.update_self]
          rfl
        · rename_i hq
          rw [Function.update_of_ne (Ne.symm hq)]
          rfl

omit [LoadFactor φ] in
theorem removeUser_spec {n n' : Node φ} {uuid : Uuid} {address : Text} (hn : Sound n)
    (h : n.removeUser uuid address = some (.ok (), n')) :
    parseAddress address ≠ none ∧ Removes [(uuid, address)] n n' := by
  simp only [removeUser] at h
  cases hp : parseAddress address with
  | none => simp [hp] at h
  | some p =>
    simp only [hp] at h
    split at h
    · cases h
    · cases h
    · rename_i b directoryMap hi
      cases h
      obtain ⟨hsound, hmap⟩ := DirectoryMap.remove_ok hn hi
      refine ⟨by simp, hsound, fun x => ?_, fun q => ?_⟩
      · simp only [DirectoryCache.removeUser, Redis.users_publishIf, List.mem_singleton, forall_eq, hp, ne_eq,
          reduceCtorEq, not_false_eq_true, forall_const]
        exact Redis.mem_zrem
      · show directoryMap.map q = _
        rw [hmap, last?_phonesOf_singleton hp]
        by_cases hq : p = q
        · rw [hq, Function.update_self, if_pos rfl, if_neg (Option.some_ne_none _)]
        · rw [Function.update_of_ne (Ne.symm hq), if_neg hq, if_pos rfl]
          rfl

omit [LoadFactor φ] in
theorem removeUser_invalid {n n' : Node φ} {uuid : Uuid} {address a : Text}
    (h : n.removeUser uuid address = some (.error (.invalidAddress a), n')) : parseAddress address = none ∧ n' = n := by
  simp only [removeUser] at h
  cases hp : parseAddress address with
  | none => simp only [hp] at h; cases h; exact ⟨rfl, rfl⟩
  | some p =>
    simp only [hp] at h
    split at h <;> cases h

omit [LoadFactor φ] in
theorem Adds.nil {n : Node φ} (hn : Sound n) : Adds [] n n :=
  ⟨hn, fun x => by simp, fun p => rfl⟩

omit [LoadFactor φ] in
theorem Adds.cons {n n₁ n' : Node φ} {u : User} {users : List User} (h : Adds [u] n n₁) (h' : Adds users n₁ n') :
    Adds (u :: users) n n' := by
  refine ⟨h'.sound, fun x => ?_, fun p => ?_⟩
  · rw [h'.entries, h.entries]
    simp [or_assoc]
  · rw [h'.map, h.map, phonesOf_append_cons u users, last?_append, Option.or_assoc]

omit [LoadFactor φ] in
theorem Removes.nil {n : Node φ} (hn : Sound n) : Removes [] n n :=
  ⟨hn, fun x => by simp, fun p => rfl⟩

omit [LoadFactor φ] in
theorem Removes.cons {n n₁ n' : Node φ} {u : User} {users : List User} (h : Removes [u] n n₁)
    (h' : Removes users n₁ n') : Removes (u :: users) n n' := by
  refine ⟨h'.sound, fun x => ?_, fun p => ?_⟩
  · rw [h'.entries, h.entries]
    simp [and_assoc]
  · rw [h'.map, h.map, phonesOf_append_cons u users, last?_append]
    cases last? p (phonesOf users) with
    | none => rfl
    | some v => simp

omit [LoadFactor φ] in
theorem Removes.invalid {n n' : Node φ} {u : User} {users : List User} (hp : parseAddress u.2 = none)
    (h : Removes users n n') : Removes (u :: users) n n' := by
  refine ⟨h.sound, fun x => ?_, fun p => ?_⟩
  · rw [h.entries]
    simp [hp]
  · have hnone : phonesOf (u :: users) = phonesOf users := by simp [phonesOf, hp]
    rw [h.map, hnone]

theorem addUsers_spec {users : List User} :
    ∀ {n n' : Node φ}, Sound n → addUsers users n = some (.ok (), n') → Adds users n n' := by
  induction users with
  | nil => intro n n' hn h; cases h; exact Adds.nil hn
  | cons u users ih =>
    intro n n' hn h
    obtain ⟨uuid, address⟩ := u
    simp only [addUsers] at h
    split at h
    · cases h
    · cases h
    · rename_i n₁ h₁
      have hadd := addUser_spec hn h₁
      exact hadd.cons (ih hadd.sound h)

omit [LoadFactor φ] in
theorem removeUsers_spec {skipInvalid : Bool} {users : List User} :
    ∀ {n n' : Node φ}, Sound n → removeUsers skipInvalid users n = some (.ok (), n') → Removes users n n' := by
  induction users with
  | nil => intro n n' hn h; cases h; exact Removes.nil hn
  | cons u users ih =>
    intro n n' hn h
    obtain ⟨uuid, address⟩ := u
    simp only [removeUsers] at h
    split at h
    · cases h
    · rename_i n₁ h₁
      have hrem := (removeUser_spec hn h₁).2
      exact hrem.cons (ih hrem.sound h)
    · rename_i a n₁ h₁
      obtain ⟨hp, rfl⟩ := removeUser_invalid h₁
      split at h
      · exact Removes.invalid hp (ih hn h)
      · cases h
    · cases h

end Node

end ContactDiscovery.Directory
