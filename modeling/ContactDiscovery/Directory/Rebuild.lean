/-
  ContactDiscovery.Directory.Rebuild — a node's map built anew from the user set
  (`rebuildLocalDataFromRedis` of `DirectoryManager.java`, `getAllUsers` of `DirectoryCache.java`
  and `DirectoryMapFactory.java`).

  A rebuild creates a map for as many users as the set has, scans the set page by page and inserts
  every user whose entry decodes and whose address parses. An address that does not parse is
  logged; an error of the native map ends the rebuild, and the node tries again from the start.
  What `addUser` lets into the set is decided by `parseAddress` before the native map is asked, and
  `parseAddress` reads an address of zeros as 0, the mark of a free slot.

  Proved: `rebuild_iff`, a rebuild of a set with tables that have room succeeds exactly if no entry
  is of phone 0; `stored_users_iff`, after any calls of `addUser`, an entry they stored goes into
  every map with room, by a message and by a rebuild, and every rebuild succeeds, exactly if none of
  the calls was for an address of zeros.
-/

import ContactDiscovery.Directory.DirectoryManager
import ContactDiscovery.Directory.TableGrowth

namespace ContactDiscovery.Directory

open Lib Lib.Numeral
open Enclave (Phone Uuid)

/-! ## The rebuild -/

structure DirectoryMapFactory (φ : Type) where
  initialCapacity : Nat
  minLoadFactor : φ
  maxLoadFactor : φ
  /-- `(long) (minimumCapacity / minLoadFactor)`, in the arithmetic of `float`. -/
  quotient : Nat → Nat

namespace DirectoryCache

/-- What is left of a page of the scan: entries that do not decode are logged. -/
def getAllUsers (page : List Text) : List User := page.filterMap decodeUser

def getUserCount (r : Redis) : Nat := r.users.length

end DirectoryCache

section

variable {φ : Type} [LoadFactor φ]

namespace DirectoryMapFactory

def capacity (f : DirectoryMapFactory φ) (minimumCapacity : Nat) : Nat :=
  max f.initialCapacity (f.quotient minimumCapacity)

def create (f : DirectoryMapFactory φ) (minimumCapacity : Nat) :
    Option (Except (InternalBuffersError φ) (DirectoryMap φ)) :=
  DirectoryMap.new (f.capacity minimumCapacity) f.minLoadFactor f.maxLoadFactor

end DirectoryMapFactory

namespace DirectoryMap

def rebuildUser (d : DirectoryMap φ) (user : User) : Option (Except (ManagerError φ) Unit × DirectoryMap φ) :=
  match parseAddress user.2 with
  | none => some (.ok (), d)
  | some directoryAddress =>
    match d.insert directoryAddress user.1 with
    | none => none
    | some (.error e, d) => some (.error (.native e), d)
    | some (.ok _, d) => some (.ok (), d)

def rebuildUsers : List User → DirectoryMap φ → Option (Except (ManagerError φ) Unit × DirectoryMap φ)
  | [], d => some (.ok (), d)
  | user :: users, d =>
    match d.rebuildUser user with
    | none => none
    | some (.error e, d) => some (.error e, d)
    | some (.ok (), d) => rebuildUsers users d

/-- The loop over the cursor; `pages` is what the scan returns. -/
def rebuildLocalUsersFromRedis :
    List (List Text) → DirectoryMap φ → Option (Except (ManagerError φ) Unit × DirectoryMap φ)
  | [], d => some (.ok (), d)
  | page :: pages, d =>
    match rebuildUsers (DirectoryCache.getAllUsers page) d with
    | none => none
    | some (.error e, d) => some (.error e, d)
    | some (.ok (), d) => rebuildLocalUsersFromRedis pages d

end DirectoryMap

/-- The new map; no map if the user set is not built. -/
def DirectoryMapFactory.rebuildLocalDataFromRedis (f : DirectoryMapFactory φ) (r : Redis) (pages : List (List Text)) :
    Option (Except (ManagerError φ) (Option (DirectoryMap φ))) :=
  if !r.userSetBuilt then some (.ok none)
  else
    match f.create (DirectoryCache.getUserCount r) with
    | none => none
    | some (.error e) => some (.error (.native e))
    | some (.ok d) =>
      match d.rebuildLocalUsersFromRedis pages with
      | none => none
      | some (.error e, _) => some (.error e)
      | some (.ok (), d) =>
        match d.commit with
        | none => none
        | some (.error e, _) => some (.error (.native e))
        | some (.ok _, d) => some (.ok (some d))

/-- The pages of a scan of a set that does not change: every element, once or more. -/
def ScanOf (r : Redis) (pages : List (List Text)) : Prop := ∀ x, x ∈ pages.flatten ↔ x ∈ r.users

/-! ## One entry -/

/-- `parseAddress` never gives the mark of a deleted slot. -/
theorem parseAddress_valid {address : Text} {p : Phone} (h : parseAddress address = some p) :
    ValidE164 p ↔ p ≠ FREE_E164 := by
  refine ⟨fun hv => hv.1, fun hne => ⟨hne, fun hd => ?_⟩⟩
  have hlt := parseLong_lt (by simp) h
  rw [hd] at hlt
  exact absurd hlt (by decide)

namespace DirectoryMap

/-- One more element has room, and what it may ask for can be allocated. -/
structure HasSpace (d : DirectoryMap φ) : Prop where
  sound : Sound d
  memory : allocatable (LoadFactor.quotient d.building.elementCount d.building.minLoadFactor) = true
  more : allocatable (LoadFactor.quotient (d.building.elementCount + 1) d.building.minLoadFactor) = true
  room : d.building.elementCount < d.building.capacity ∨
    d.building.capacity < LoadFactor.quotient d.building.elementCount d.building.minLoadFactor

theorem insert_building {d : DirectoryMap φ} {k : Phone} {u : Uuid} {b : Bool} {building : InternalBuffers φ}
    (h : d.building.insert k u = some (.ok b, building)) :
    d.insert k u = some (.ok b, ⟨mark d.dirty (.ok b : Except (InternalBuffersError φ) Bool), building, d.serving⟩) := by
  simp only [insert, h]

/-- The native map takes every number but the mark of a free slot. -/
theorem insert_free (d : DirectoryMap φ) (u : Uuid) :
    d.insert FREE_E164 u = some (.error (.invalidE164 FREE_E164), d) := by
  simp [insert, InternalBuffers.insert, mark]

/-- The entry goes into the map, by a rebuild and by a message. -/
def Takes (d : DirectoryMap φ) (user : User) : Prop :=
  (∃ d', d.rebuildUser user = some (.ok (), d')) ∧
    ∃ d', d.processMessage ⟨.addedUser, encodeUser user.1 user.2⟩ = some (.ok (), d')

theorem takes_of_hasSpace {d : DirectoryMap φ} (h : HasSpace d) {user : User}
    (hne : parseAddress user.2 ≠ some FREE_E164) : Takes d user := by
  simp only [Takes, rebuildUser, processMessage, decodeUser_encodeUser]
  cases hp : parseAddress user.2 with
  | none => exact ⟨⟨d, rfl⟩, ⟨d, rfl⟩⟩
  | some p =>
    have hv := (parseAddress_valid hp).mpr fun e => hne (e ▸ hp)
    obtain ⟨b, building, hb⟩ := InternalBuffers.insert_some h.sound hv user.1 h.memory h.more h.room
    simp only [insert_building hb]
    exact ⟨⟨_, rfl⟩, ⟨_, rfl⟩⟩

theorem not_takes_free {d : DirectoryMap φ} {user : User} (hp : parseAddress user.2 = some FREE_E164) :
    ¬ Takes d user := by
  intro ⟨⟨d', h⟩, _⟩
  simp only [rebuildUser, hp, insert_free] at h
  cases h

/-! ## All entries -/

theorem rebuildUsers_append (users users' : List User) (d : DirectoryMap φ) :
    rebuildUsers (users ++ users') d =
      match rebuildUsers users d with
      | none => none
      | some (.error e, d) => some (.error e, d)
      | some (.ok (), d) => rebuildUsers users' d := by
  induction users generalizing d with
  | nil => rfl
  | cons user users ih =>
    simp only [List.cons_append, rebuildUsers]
    match d.rebuildUser user with
    | none => rfl
    | some (.error e, d) => rfl
    | some (.ok (), d) => exact ih d

/-- How the scan is cut into pages does not matter. -/
theorem rebuildLocalUsersFromRedis_eq (pages : List (List Text)) (d : DirectoryMap φ) :
    d.rebuildLocalUsersFromRedis pages = rebuildUsers (DirectoryCache.getAllUsers pages.flatten) d := by
  induction pages generalizing d with
  | nil => rfl
  | cons page pages ih =>
    have happend : DirectoryCache.getAllUsers (page ++ pages.flatten) =
        DirectoryCache.getAllUsers page ++ DirectoryCache.getAllUsers pages.flatten := List.filterMap_append
    rw [List.flatten_cons, happend, rebuildUsers_append, rebuildLocalUsersFromRedis]
    match rebuildUsers (DirectoryCache.getAllUsers page) d with
    | none => rfl
    | some (.error e, d) => rfl
    | some (.ok (), d) => exact ih d

theorem rebuildUsers_free {users : List User} (h : ∃ user ∈ users, parseAddress user.2 = some FREE_E164)
    (d d' : DirectoryMap φ) : rebuildUsers users d ≠ some (.ok (), d') := by
  induction users generalizing d with
  | nil => obtain ⟨user, hm, -⟩ := h; cases hm
  | cons user users ih =>
    simp only [rebuildUsers]
    intro hr
    split at hr
    · cases hr
    · cases hr
    rename_i d₁ hu
    rcases h with ⟨user', hm, hp⟩
    rcases List.mem_cons.mp hm with rfl | hm
    · simp only [rebuildUser, hp, insert_free] at hu
      cases hu
    · exact ih ⟨user', hm, hp⟩ d₁ hr

end DirectoryMap

end

/-! ## Tables with room -/

namespace DirectoryMap

/-- A map with room for `k` more of at most `n` elements, above a serving table. -/
structure Ready (lo hi : ℚ) (n : Nat) (serving : InternalBuffers ℚ) (k : Nat) (d : DirectoryMap ℚ) : Prop where
  sound : Sound d
  roomy : InternalBuffers.Roomy lo hi n d.building
  count : d.building.elementCount + k ≤ n
  serves : d.serving = serving

variable {lo hi : ℚ} {n k : Nat} {serving : InternalBuffers ℚ}

theorem rebuildUser_ready {d : DirectoryMap ℚ} {user : User} (h : Ready lo hi n serving (k + 1) d) (hlo : 0 ≤ lo)
    (hhi : hi ≤ 1) (hmem : allocatable (LoadFactor.quotient n lo) = true)
    (hne : parseAddress user.2 ≠ some FREE_E164) :
    ∃ d', d.rebuildUser user = some (.ok (), d') ∧ Ready lo hi n serving k d' := by
  have hcount := h.count
  cases hp : parseAddress user.2 with
  | none => exact ⟨d, by simp only [rebuildUser, hp], h.sound, h.roomy, by omega, h.serves⟩
  | some p =>
    have hv := (parseAddress_valid hp).mpr fun e => hne (e ▸ hp)
    obtain ⟨b, building, hb, -, hroomy, hle⟩ :=
      InternalBuffers.insert_roomy h.sound hv user.1 h.roomy hlo hhi (by omega) hmem
    have hi' := insert_building hb
    exact ⟨_, by simp only [rebuildUser, hp, hi'], (insert_ok h.sound hi').1, hroomy,
      show building.elementCount + k ≤ n by omega, h.serves⟩

theorem rebuildUsers_ready {users : List User} (hlo : 0 ≤ lo) (hhi : hi ≤ 1)
    (hmem : allocatable (LoadFactor.quotient n lo) = true)
    (hne : ∀ user ∈ users, parseAddress user.2 ≠ some FREE_E164) :
    ∀ {d : DirectoryMap ℚ}, Ready lo hi n serving users.length d →
      ∃ d', rebuildUsers users d = some (.ok (), d') ∧ Ready lo hi n serving 0 d' := by
  induction users with
  | nil => exact fun h => ⟨_, rfl, h⟩
  | cons user users ih =>
    intro d h
    obtain ⟨d₁, hu, h₁⟩ := rebuildUser_ready h hlo hhi hmem (hne user List.mem_cons_self)
    obtain ⟨d', hr, h'⟩ := ih (fun user' hm => hne user' (List.mem_cons_of_mem _ hm)) h₁
    exact ⟨d', by simp only [rebuildUsers, hu, hr], h'⟩

theorem commit_some {φ : Type} {d : DirectoryMap φ} (hs : d.serving.e164sBuffer.length = d.serving.uuidsBuffer.length)
    (hb : d.building.e164sBuffer.length = d.building.uuidsBuffer.length) :
    ∃ b d', d.commit = some (.ok b, d') ∧ d'.building = d.building := by
  have hresize : ∀ {α : Type} (x : α) (l : List α) (n : Nat), (InternalBuffers.resize n x l).length = n := by
    intro α x l n
    rw [InternalBuffers.resize, List.length_append, List.length_take, List.length_replicate]
    omega
  simp only [commit]
  split
  · exact ⟨false, d, rfl, rfl⟩
  · have hcopy : d.serving.copyFrom d.building = some d.building := by
      simp only [InternalBuffers.copyFrom]
      rw [if_pos]
      by_cases hcap : d.serving.capacity = d.building.capacity
      · rw [if_neg (not_not.mpr hcap), if_neg (not_not.mpr hcap)]
        simp only [InternalBuffers.capacity] at hcap
        exact ⟨hcap, by omega⟩
      · rw [if_pos hcap, if_pos hcap, hresize, hresize]
        exact ⟨rfl, hb⟩
    rw [hcopy]
    exact ⟨true, _, rfl, rfl⟩

end DirectoryMap

/-- The tables of the factory have room for a set of `size` users and `inserts` inserts. -/
structure DirectoryMapFactory.Ample (f : DirectoryMapFactory ℚ) (size inserts : Nat) : Prop where
  creates : ∃ d, f.create size = some (.ok d)
  slots : 0 < f.capacity size
  grows : inserts < f.capacity size ∨ f.minLoadFactor * (f.capacity size + 1) ≤ f.capacity size
  memory : allocatable (LoadFactor.quotient inserts f.minLoadFactor) = true

/-- The user set has an entry that decodes to a user of phone 0. -/
def Poisoned (r : Redis) : Prop :=
  ∃ x ∈ r.users, ∃ user, decodeUser x = some user ∧ parseAddress user.2 = some FREE_E164

theorem create_ready {f : DirectoryMapFactory ℚ} {size inserts : Nat} (hf : f.Ample size inserts) :
    ∃ d, f.create size = some (.ok d) ∧ 0 ≤ f.minLoadFactor ∧ f.maxLoadFactor ≤ 1 ∧
      d.serving.e164sBuffer.length = d.serving.uuidsBuffer.length ∧
      d.Ready f.minLoadFactor f.maxLoadFactor inserts d.serving inserts := by
  obtain ⟨d, hd⟩ := hf.creates
  refine ⟨d, hd, ?_⟩
  simp only [DirectoryMapFactory.create, DirectoryMap.new] at hd
  split at hd
  · cases hd
  · cases hd
  rename_i building hnew
  cases hd
  obtain ⟨hcap, hcount, hmin, hmax, hlo, hhi⟩ := InternalBuffers.new_sizes hnew
  have href := InternalBuffers.new_refines hnew
  have hmap : building.lookup = fun _ => none := href.map
  refine ⟨hlo, hhi, href.wf.length, show building.Refines building.lookup from hmap ▸ href,
    ⟨⟨hmin, hcap ▸ hf.slots, hcap ▸ hf.grows⟩, hmax⟩, ?_, rfl⟩
  show building.elementCount + inserts ≤ inserts
  omega

theorem mem_getAllUsers {r : Redis} {pages : List (List Text)} (hscan : ScanOf r pages) (user : User) :
    user ∈ DirectoryCache.getAllUsers pages.flatten ↔ ∃ x ∈ r.users, decodeUser x = some user := by
  rw [DirectoryCache.getAllUsers, List.mem_filterMap]
  simp only [hscan _]

/-- An entry of phone 0 fails every rebuild, whatever the tables. -/
theorem rebuild_poisoned {φ : Type} [LoadFactor φ] {r : Redis} {pages : List (List Text)} (hp : Poisoned r)
    (hscan : ScanOf r pages) (f : DirectoryMapFactory φ) (d : DirectoryMap φ) :
    f.rebuildLocalDataFromRedis r pages ≠ some (.ok (some d)) := by
  obtain ⟨x, hx, user, hdec, hp⟩ := hp
  intro h
  simp only [DirectoryMapFactory.rebuildLocalDataFromRedis, DirectoryMap.rebuildLocalUsersFromRedis_eq] at h
  split at h
  · cases h
  split at h
  · cases h
  · cases h
  split at h
  · cases h
  · cases h
  · rename_i d₁ hr
    exact DirectoryMap.rebuildUsers_free ⟨user, (mem_getAllUsers hscan user).mpr ⟨x, hx, hdec⟩, hp⟩ _ d₁ hr

/-- A rebuild with tables that have room succeeds exactly if no entry is of phone 0. -/
theorem rebuild_iff {f : DirectoryMapFactory ℚ} {r : Redis} {pages : List (List Text)} (hbuilt : r.userSetBuilt = true)
    (hscan : ScanOf r pages) (hf : f.Ample r.users.length pages.flatten.length) :
    (∃ d, f.rebuildLocalDataFromRedis r pages = some (.ok (some d))) ↔ ¬ Poisoned r := by
  refine ⟨fun ⟨d, hd⟩ hp => rebuild_poisoned hp hscan f d hd, fun hclean => ?_⟩
  obtain ⟨d, hd, hlo, hhi, hserving, hready⟩ := create_ready hf
  have hd' : f.create (DirectoryCache.getUserCount r) = some (.ok d) := hd
  have hne : ∀ user ∈ DirectoryCache.getAllUsers pages.flatten, parseAddress user.2 ≠ some FREE_E164 := by
    intro user hu hp
    obtain ⟨x, hx, hdec⟩ := (mem_getAllUsers hscan user).mp hu
    exact hclean ⟨x, hx, user, hdec, hp⟩
  have hlen : (DirectoryCache.getAllUsers pages.flatten).length ≤ pages.flatten.length := List.length_filterMap_le ..
  have hcount := hready.count
  obtain ⟨d₁, hr, h₁⟩ := DirectoryMap.rebuildUsers_ready hlo hhi hf.memory hne
    ⟨hready.sound, hready.roomy, by omega, hready.serves⟩
  obtain ⟨b, d₂, hcommit, -⟩ := DirectoryMap.commit_some (by rw [h₁.serves]; exact hserving) h₁.sound.wf.length
  refine ⟨d₂, ?_⟩
  simp only [DirectoryMapFactory.rebuildLocalDataFromRedis, hbuilt, hd', Bool.not_true, Bool.false_eq_true, if_false,
    DirectoryMap.rebuildLocalUsersFromRedis_eq, hr, hcommit]

/-! ## What calls of `addUser` leave -/

section Stored

variable {φ : Type} [LoadFactor φ]

/-- Calls of `addUser` that return or throw, each on any connected node. -/
inductive AddRun (φ : Type) [LoadFactor φ] : Redis → List User → Redis → Prop where
  | nil (r : Redis) : AddRun φ r [] r
  | cons {n n' : Node φ} {user : User} {users : List User} {r : Redis} {answer : Except (ManagerError φ) Unit}
      (call : n.addUser user.1 user.2 = some (answer, n')) (rest : AddRun φ n'.redis users r) :
      AddRun φ n.redis (user :: users) r

/-- The calls a reconciliation makes are such calls: it stops at the first that throws. -/
theorem addRun_addUsers {users : List User} :
    ∀ {n n' : Node φ} {answer : Except (ManagerError φ) Unit}, Node.addUsers users n = some (answer, n') →
      ∃ made, made <+: users ∧ AddRun φ n.redis made n'.redis := by
  induction users with
  | nil =>
    intro n n' answer h
    cases h
    exact ⟨[], List.prefix_rfl, .nil _⟩
  | cons user users ih =>
    intro n n' answer h
    obtain ⟨uuid, address⟩ := user
    simp only [Node.addUsers] at h
    split at h
    · cases h
    · rename_i e n₁ hcall
      cases h
      exact ⟨[(uuid, address)], by simp, .cons hcall (.nil _)⟩
    · rename_i n₁ hcall
      obtain ⟨made, hmade, hrun⟩ := ih h
      exact ⟨(uuid, address) :: made, List.prefix_cons_inj _ |>.mpr hmade, .cons hcall hrun⟩

/-- A call stores its entry as soon as the address parses, whatever the native map says. -/
theorem addUser_stores {n n' : Node φ} {user : User} {answer : Except (ManagerError φ) Unit}
    (h : n.addUser user.1 user.2 = some (answer, n')) (x : Text) :
    x ∈ n'.redis.users ↔ x ∈ n.redis.users ∨ parseAddress user.2 ≠ none ∧ x = encodeUser user.1 user.2 := by
  simp only [Node.addUser] at h
  cases hp : parseAddress user.2 with
  | none =>
    simp only [hp] at h
    cases h
    simp
  | some p =>
    simp only [hp] at h
    have hstored : x ∈ ((DirectoryCache.addUser n.redis user.1 user.2).2.publishIf
          (DirectoryCache.addUser n.redis user.1 user.2).1 ⟨.addedUser, encodeUser user.1 user.2⟩).users ↔
        x ∈ n.redis.users ∨ some p ≠ none ∧ x = encodeUser user.1 user.2 := by
      rw [Redis.users_publishIf, DirectoryCache.addUser, Redis.mem_zadd]
      simp
    split at h
    · cases h
    · cases h; exact hstored
    · cases h; exact hstored

theorem AddRun.users {r r' : Redis} {calls : List User} (h : AddRun φ r calls r') (x : Text) :
    x ∈ r'.users ↔ x ∈ r.users ∨ ∃ user ∈ calls, parseAddress user.2 ≠ none ∧ x = encodeUser user.1 user.2 := by
  induction h with
  | nil r => simp
  | cons call rest ih =>
    rw [ih, addUser_stores call]
    simp only [List.mem_cons, exists_eq_or_imp, or_assoc]

theorem AddRun.poisoned {r r' : Redis} {calls : List User} (h : AddRun φ r calls r') (hclean : ¬ Poisoned r) :
    Poisoned r' ↔ ∃ user ∈ calls, parseAddress user.2 = some FREE_E164 := by
  constructor
  · intro ⟨x, hx, user, hdec, hp⟩
    rcases (h.users x).mp hx with hold | ⟨user', hm, -, rfl⟩
    · exact absurd ⟨x, hold, user, hdec, hp⟩ hclean
    · rw [decodeUser_encodeUser] at hdec
      cases hdec
      exact ⟨_, hm, hp⟩
  · intro ⟨user, hm, hp⟩
    exact ⟨_, (h.users _).mpr (.inr ⟨user, hm, by simp [hp], rfl⟩), user, decodeUser_encodeUser _ _, hp⟩

end Stored

theorem eightSlots_hasSpace : DirectoryMap.eightSlots.HasSpace :=
  ⟨DirectoryMap.eightSlots_sound, by decide +kernel, by decide +kernel, .inl (by decide)⟩

/-- After calls of `addUser` on a set with no entry of phone 0: the entries they stored go into every
    map with room, exactly if no call had an address of phone 0; and so for every rebuild, with
    tables that have room, to succeed. -/
theorem stored_users_iff {r₀ r : Redis} {calls : List User} (hrun : AddRun ℚ r₀ calls r) (hclean : ¬ Poisoned r₀) :
    ((∀ user ∈ calls, encodeUser user.1 user.2 ∈ r.users → ∀ d : DirectoryMap ℚ, d.HasSpace → d.Takes user) ↔
      ∀ user ∈ calls, parseAddress user.2 ≠ some FREE_E164) ∧
    ∀ (f : DirectoryMapFactory ℚ) (pages : List (List Text)), r.userSetBuilt = true → ScanOf r pages →
      f.Ample r.users.length pages.flatten.length →
      ((∃ d, f.rebuildLocalDataFromRedis r pages = some (.ok (some d))) ↔
        ∀ user ∈ calls, parseAddress user.2 ≠ some FREE_E164) := by
  refine ⟨⟨fun htakes user hm hp => ?_, fun hne user hm _ d hd => ?_⟩, fun f pages hbuilt hscan hf => ?_⟩
  · have hstored := (hrun.users (encodeUser user.1 user.2)).mpr (.inr ⟨user, hm, by simp [hp], rfl⟩)
    exact DirectoryMap.not_takes_free hp (htakes user hm hstored .eightSlots eightSlots_hasSpace)
  · exact DirectoryMap.takes_of_hasSpace hd (hne user hm)
  · rw [rebuild_iff hbuilt hscan hf, hrun.poisoned hclean]
    push Not
    rfl

def eightSlotsFactory : DirectoryMapFactory ℚ := ⟨8, 1 / 4, 3 / 4, fun n => 4 * n⟩

def builtNode : Node ℚ := ⟨true, ⟨[], none, true, []⟩, .eightSlots⟩

theorem stored_users_fifteen :
    ∃ r, AddRun ℚ builtNode.redis [(⟨fun _ => 1⟩, ['+', '1', '5'])] r ∧
      (∀ d : DirectoryMap ℚ, d.HasSpace → d.Takes (⟨fun _ => 1⟩, ['+', '1', '5'])) ∧
      ∃ d, eightSlotsFactory.rebuildLocalDataFromRedis r [[encodeUser ⟨fun _ => 1⟩ ['+', '1', '5']]] =
        some (.ok (some d)) := by
  have hcall : (builtNode.addUser ⟨fun _ => 1⟩ ['+', '1', '5']).map (fun x => x.2.redis) =
      some ⟨[encodeUser ⟨fun _ => 1⟩ ['+', '1', '5']], none, true,
        [⟨.addedUser, encodeUser ⟨fun _ => 1⟩ ['+', '1', '5']⟩]⟩ := by decide +kernel
  obtain ⟨⟨answer, n'⟩, hcall, hredis⟩ := Option.map_eq_some_iff.mp hcall
  simp only at hredis
  have hrun : AddRun ℚ builtNode.redis [(⟨fun _ => 1⟩, ['+', '1', '5'])] n'.redis := .cons hcall (.nil _)
  have hne : ∀ user ∈ [((⟨fun _ => 1⟩, ['+', '1', '5']) : User)], parseAddress user.2 ≠ some FREE_E164 := by
    decide +kernel
  obtain ⟨htakes, hrebuild⟩ := stored_users_iff hrun fun ⟨_, hx, _⟩ => by cases hx
  refine ⟨_, hrun, htakes.mpr hne _ List.mem_cons_self (by rw [hredis]; exact List.mem_cons_self), ?_⟩
  refine (hrebuild eightSlotsFactory _ (by rw [hredis]) (fun x => by rw [hredis]; simp) ?_).mpr hne
  rw [hredis]
  exact ⟨⟨.eightSlots, DirectoryMap.new_eightSlots⟩, by decide, .inl (by decide), by decide +kernel⟩

/-- A user set with an address of zeros, and the message about it. -/
def zeroRedis : Redis :=
  ⟨[encodeUser ⟨fun _ => 1⟩ ['0']], none, true, [⟨.addedUser, encodeUser ⟨fun _ => 1⟩ ['0']⟩]⟩

/-- An address of zeros is stored and published; the native map then throws, on this node, in every
    other node's consumer, and in every rebuild. -/
theorem zero_address_poisons :
    (builtNode.addUser ⟨fun _ => 1⟩ ['0']).map (fun x => (x.1, x.2.redis)) =
      some (.error (.native (.invalidE164 0)), zeroRedis) ∧
    (∀ d : DirectoryMap ℚ, d.processMessage ⟨.addedUser, encodeUser ⟨fun _ => 1⟩ ['0']⟩ =
      some (.error (.native (.invalidE164 0)), d)) ∧
    ∀ (f : DirectoryMapFactory ℚ) (pages : List (List Text)) (d : DirectoryMap ℚ), ScanOf zeroRedis pages →
      f.rebuildLocalDataFromRedis zeroRedis pages ≠ some (.ok (some d)) := by
  have hzero : parseAddress ['0'] = some FREE_E164 := by decide +kernel
  refine ⟨by decide +kernel, fun d => ?_, fun f pages d hscan => ?_⟩
  · simp only [DirectoryMap.processMessage, decodeUser_encodeUser, hzero, DirectoryMap.insert_free]
    rfl
  · exact rebuild_poisoned ⟨_, List.mem_cons_self, _, decodeUser_encodeUser _ _, hzero⟩ hscan f d

end ContactDiscovery.Directory
