/-
  ContactDiscovery.Directory.Reconciliation — the chunks of a reconciliation
  (`DirectoryManager.reconcile`, `getUsersInRange` and `setUuidLastReconciled`).

  A chunk stands for the uuids in `(from, to]`, in the order of their texts, and an absent bound for
  none. It is accepted if it starts where the chunk accepted last ended, or before; the end of the
  last one is all that Redis keeps. A chunk without an end completes the reconciliation: the mark is
  deleted and the user set is built.

  Nodes share Redis and each call is made on one of them, with its own directory map; a node with
  reconciliation switched off accepts what it is sent and does nothing. A call may throw: for an
  address, for the native map, or at any of its commands to Redis, carried out or not
  (`interrupted`). So the mark may be moved by a call that throws.

  Proved:
  - `completions_cover`: when a reconciliation completes, every uuid is in the range of a chunk that
    moved the mark since the completion before. The call of such a chunk returned true, or threw at its
    last command when that was carried out; the ranges of those that returned do not cover
    (`lost_reply_skips_range`).
  - `reconcile_replaces_range`: a chunk replaces the entries with a uuid in its range by those of its
    users. All entries are those of users with a valid address (`Wellformed`), and an entry is between
    the bounds that Redis is given exactly if its uuid is in the range (`between_iff`).
-/

import ContactDiscovery.Directory.Calls
import ContactDiscovery.Lib.Lex
import ContactDiscovery.Lib.Runs

namespace ContactDiscovery.Directory.Reconciliation

open Lib Node Calls
open Enclave (Phone Uuid)

variable {φ : Type} [LoadFactor φ]

/-! ## Calls -/

def InRange (fromUuid toUuid : Option Uuid) (uuid : Uuid) : Prop :=
  (∀ f, fromUuid = some f → uuidToString f < uuidToString uuid) ∧ ∀ t, toUuid = some t → uuidToString uuid ≤ uuidToString t

/-- A call of `reconcile`, with the node it is made on. -/
structure Chunk (φ : Type) where
  isReconciliationEnabled : Bool
  directoryMap : DirectoryMap φ
  fromUuid : Option Uuid
  toUuid : Option Uuid
  users : List User
  order : IterationOrder

namespace Chunk

variable (c : Chunk φ)

def node (r : Redis) : Node φ := ⟨c.isReconciliationEnabled, r, c.directoryMap⟩

def reconcile (r : Redis) : Option (Except (ManagerError φ) Bool × Node φ) :=
  (c.node r).reconcile c.fromUuid c.toUuid c.users c.order

def removals (r : Redis) : List User :=
  c.order.list (difference (DirectoryCache.getUsersInRange r c.fromUuid c.toUuid) c.users)

def additions (r : Redis) : List User :=
  c.order.list (difference c.users (DirectoryCache.getUsersInRange r c.fromUuid c.toUuid))

def updates (r : Redis) : List (Update × User) :=
  (c.removals r).map (.remove, ·) ++ (c.additions r).map (.add, ·)

end Chunk

/-- An update throws when so many of its commands to Redis were carried out. -/
def interruptedUpdate (r : Redis) (uuid : Uuid) (address : Text) (update : Update) (executed : Nat) : Redis :=
  match parseAddress address, executed with
  | some _, 1 => (updateRedis r uuid address update).2
  | some _, _ + 2 =>
    let (changed, r) := updateRedis r uuid address update
    r.publishIf changed (message uuid address update)
  | _, _ => r

/-- `setUuidLastReconciled` throws when so many of its commands were carried out. -/
def interruptedMark (r : Redis) (toUuid : Option Uuid) (executed : Nat) : Redis :=
  match toUuid, executed with
  | _, 0 => r
  | some uuid, _ + 1 => DirectoryCache.setUuidLastReconciled r (some uuid)
  | none, 1 => { r with lastReconciled := none }
  | none, _ + 2 => DirectoryCache.setUuidLastReconciled r none

/-- The call throws at Redis after so many of its updates, when so many commands of the next one were
    carried out, or of its last step; with whether it had set the mark to its end. -/
def Chunk.interrupted (c : Chunk φ) (r : Redis) (updates executed : Nat) : Option (Bool × Redis) :=
  if !c.isReconciliationEnabled || (c.node r).skipsData c.fromUuid || (c.fromUuid.isNone && c.toUuid.isNone) then
    some (false, r)
  else
    match removeUsers true ((c.removals r).take updates) (c.node r) with
    | none => none
    -- it threw before
    | some (.error _, n) => some (false, n.redis)
    | some (.ok (), n) =>
      match addUsers ((c.additions r).take (updates - (c.removals r).length)) n with
      | none => none
      | some (.error _, n) => some (false, n.redis)
      | some (.ok (), n) =>
        match (c.updates r)[updates]? with
        | some (update, uuid, address) => some (false, interruptedUpdate n.redis uuid address update executed)
        | none => some (c.toUuid.isSome && executed ≠ 0, interruptedMark n.redis c.toUuid executed)

inductive Event (φ : Type) where
  | addUser (d : DirectoryMap φ) (uuid : Uuid) (address : Text)
  | removeUser (d : DirectoryMap φ) (uuid : Uuid) (address : Text)
  | interruptedUpdate (update : Update) (uuid : Uuid) (address : Text) (executed : Nat)
  | reconcile (c : Chunk φ)
  | interrupted (c : Chunk φ) (updates executed : Nat)

abbrev Range := Option Uuid × Option Uuid

/-- A chunk that moved the mark, and whether its call returned true or threw. -/
structure Passed where
  range : Range
  returned : Bool
  deriving DecidableEq

/-- Redis, the chunks since the last completion, and those of each completion. -/
structure St where
  redis : Redis
  passed : List Passed
  completions : List (List Passed)
  deriving DecidableEq

/-- What a call that moved the mark means for the ranges. -/
def St.pass (s : St) (c : Chunk φ) (r : Redis) (returned : Bool) : St :=
  if !c.isReconciliationEnabled then { s with redis := r }
  else
    let passed := s.passed ++ [⟨(c.fromUuid, c.toUuid), returned⟩]
    if c.toUuid.isNone then ⟨r, [], s.completions ++ [passed]⟩ else ⟨r, passed, s.completions⟩

def step (s : St) : Event φ → Option St
  | .addUser d uuid address => (Node.addUser ⟨true, s.redis, d⟩ uuid address).map fun r => { s with redis := r.2.redis }
  | .removeUser d uuid address => (Node.removeUser ⟨true, s.redis, d⟩ uuid address).map fun r => { s with redis := r.2.redis }
  | .interruptedUpdate update uuid address executed =>
    some { s with redis := interruptedUpdate s.redis uuid address update executed }
  | .reconcile c =>
    match c.reconcile s.redis with
    | none => none
    | some (.ok true, n) => some (s.pass c n.redis true)
    | some (_, n) => some { s with redis := n.redis }
  | .interrupted c updates executed =>
    match c.interrupted s.redis updates executed with
    | none => none
    | some (true, r) => some (s.pass c r false)
    | some (false, r) => some { s with redis := r }

/-! ## What updates do to Redis -/

/-- The entry of a user with a valid address. -/
def Entry (x : Text) : Prop := ∃ u a, parseAddress a ≠ none ∧ x = encodeUser u a

/-- Single updates leave the mark, and add entries only. -/
structure Updates (r r' : Redis) : Prop where
  mark : r'.lastReconciled = r.lastReconciled
  entries : ∀ x ∈ r'.users, x ∈ r.users ∨ Entry x

theorem Updates.refl (r : Redis) : Updates r r := ⟨rfl, fun _ h => .inl h⟩

theorem Updates.trans {r r₁ r' : Redis} (h : Updates r r₁) (h' : Updates r₁ r') : Updates r r' :=
  ⟨h'.mark.trans h.mark, fun x hx => (h'.entries x hx).elim (h.entries x) .inr⟩

@[simp] theorem mark_publishIf (r : Redis) (b : Bool) (message : PubSubMessage) :
    (r.publishIf b message).lastReconciled = r.lastReconciled := by
  cases b <;> rfl

theorem updates_updateRedis {a : Text} {p : Phone} (hp : parseAddress a = some p) (u : Uuid) (r : Redis) (update : Update)
    (b : Bool) (m : PubSubMessage) : Updates r ((updateRedis r u a update).2.publishIf b m) := by
  refine ⟨by rw [mark_publishIf, updateRedis_mark], fun x hx => ?_⟩
  rw [Redis.users_publishIf] at hx
  by_cases e : x = encodeUser u a
  · exact .inr ⟨u, a, by simp [hp], e⟩
  · exact .inl ((mem_updateRedis_of_ne e).mp hx)

theorem updates_interruptedUpdate (r : Redis) (u : Uuid) (a : Text) (update : Update) (executed : Nat) :
    Updates r (interruptedUpdate r u a update executed) := by
  unfold interruptedUpdate
  split
  · exact updates_updateRedis ‹_› u r update false ⟨.keepalive, []⟩
  · exact updates_updateRedis ‹_› u r update _ _
  · exact .refl r

/-- An update of a user: of Redis, whatever the native map then does. -/
theorem addUser_redis {n n' : Node φ} {u : Uuid} {a : Text} {r : Except (ManagerError φ) Unit}
    (h : n.addUser u a = some (r, n')) :
    Updates n.redis n'.redis ∧ (r = .ok () → ∀ x, x ∈ n'.redis.users ↔ x ∈ n.redis.users ∨ x = encodeUser u a) := by
  unfold Node.addUser at h
  cases hp : parseAddress a with
  | none =>
    simp only [hp] at h
    cases h
    exact ⟨.refl _, fun hr => (by cases hr)⟩
  | some p =>
    have hentries : ∀ x, x ∈ ((DirectoryCache.addUser n.redis u a).2.publishIf (DirectoryCache.addUser n.redis u a).1
        ⟨.addedUser, encodeUser u a⟩).users ↔ x ∈ n.redis.users ∨ x = encodeUser u a := by
      intro x
      rw [Redis.users_publishIf]
      exact Redis.mem_zadd
    have hupdates := updates_updateRedis hp u n.redis .add (DirectoryCache.addUser n.redis u a).1 ⟨.addedUser, encodeUser u a⟩
    simp only [hp] at h
    split at h
    · cases h
    · cases h
      exact ⟨hupdates, fun _ => hentries⟩
    · cases h
      exact ⟨hupdates, fun _ => hentries⟩

omit [LoadFactor φ] in
theorem removeUser_redis {n n' : Node φ} {u : Uuid} {a : Text} {r : Except (ManagerError φ) Unit}
    (h : n.removeUser u a = some (r, n')) :
    Updates n.redis n'.redis ∧ ∀ x, x ∈ n'.redis.users ↔ x ∈ n.redis.users ∧ (parseAddress a ≠ none → x ≠ encodeUser u a) := by
  unfold Node.removeUser at h
  cases hp : parseAddress a with
  | none =>
    simp only [hp] at h
    cases h
    exact ⟨.refl _, fun x => by simp⟩
  | some p =>
    have hentries : ∀ x, x ∈ ((DirectoryCache.removeUser n.redis u a).2.publishIf (DirectoryCache.removeUser n.redis u a).1
        ⟨.removed, a⟩).users ↔ x ∈ n.redis.users ∧ (some p ≠ none → x ≠ encodeUser u a) := by
      intro x
      rw [Redis.users_publishIf]
      simpa [DirectoryCache.removeUser] using Redis.mem_zrem
    have hupdates := updates_updateRedis hp u n.redis .remove (DirectoryCache.removeUser n.redis u a).1 ⟨.removed, a⟩
    simp only [hp] at h
    split at h
    · cases h
    · cases h
      exact ⟨hupdates, hentries⟩
    · cases h
      exact ⟨hupdates, hentries⟩

omit [LoadFactor φ] in
theorem removeUsers_redis {users : List User} : ∀ {n n' : Node φ} {r : Except (ManagerError φ) Unit},
    removeUsers true users n = some (r, n') →
      Updates n.redis n'.redis ∧ (r = .ok () → ∀ x, x ∈ n'.redis.users ↔
        x ∈ n.redis.users ∧ ∀ u ∈ users, parseAddress u.2 ≠ none → x ≠ encodeUser u.1 u.2) := by
  induction users with
  | nil =>
    intro n n' r h
    cases h
    exact ⟨.refl _, fun _ x => by simp⟩
  | cons u users ih =>
    intro n n' r h
    obtain ⟨uuid, address⟩ := u
    unfold removeUsers at h
    have hnext : ∀ {n₁ : Node φ} {r₁ : Except (ManagerError φ) Unit}, n.removeUser uuid address = some (r₁, n₁) →
        removeUsers true users n₁ = some (r, n') →
        Updates n.redis n'.redis ∧ (r = .ok () → ∀ x, x ∈ n'.redis.users ↔
          x ∈ n.redis.users ∧ ∀ u ∈ (uuid, address) :: users, parseAddress u.2 ≠ none → x ≠ encodeUser u.1 u.2) := by
      intro n₁ r₁ h₁ hrest
      obtain ⟨hupdates, hentries⟩ := removeUser_redis h₁
      obtain ⟨hupdates', hentries'⟩ := ih hrest
      refine ⟨hupdates.trans hupdates', fun hr x => ?_⟩
      rw [hentries' hr, hentries, List.forall_mem_cons, and_assoc]
    split at h
    · cases h
    · exact hnext ‹_› h
    · rw [if_pos rfl] at h
      exact hnext ‹_› h
    · cases h
      exact ⟨(removeUser_redis ‹_›).1, fun hr => (by cases hr)⟩

theorem addUsers_redis {users : List User} : ∀ {n n' : Node φ} {r : Except (ManagerError φ) Unit},
    addUsers users n = some (r, n') →
      Updates n.redis n'.redis ∧ (r = .ok () → ∀ x, x ∈ n'.redis.users ↔ x ∈ n.redis.users ∨ ∃ u ∈ users, x = encodeUser u.1 u.2) := by
  induction users with
  | nil =>
    intro n n' r h
    cases h
    exact ⟨.refl _, fun _ x => by simp⟩
  | cons u users ih =>
    intro n n' r h
    obtain ⟨uuid, address⟩ := u
    unfold addUsers at h
    split at h
    · cases h
    · cases h
      exact ⟨(addUser_redis ‹_›).1, fun hr => (by cases hr)⟩
    · obtain ⟨hupdates, hentries⟩ := addUser_redis ‹_›
      obtain ⟨hupdates', hentries'⟩ := ih h
      refine ⟨hupdates.trans hupdates', fun hr x => ?_⟩
      rw [hentries' hr, hentries rfl, List.exists_mem_cons_iff, or_assoc]

/-! ## What a chunk does to Redis -/

/-- Redis before and after a chunk that is accepted. -/
structure Accepted (c : Chunk φ) (r r' : Redis) : Prop where
  follows : (c.node r).skipsData c.fromUuid = false
  bounded : ¬(c.fromUuid = none ∧ c.toUuid = none)
  mark : r'.lastReconciled = c.toUuid.map uuidToString
  users : ∀ x, x ∈ r'.users ↔
    (x ∈ r.users ∧ ∀ u ∈ c.removals r, parseAddress u.2 ≠ none → x ≠ encodeUser u.1 u.2) ∨
      ∃ u ∈ c.additions r, x = encodeUser u.1 u.2
  entries : ∀ x ∈ r'.users, x ∈ r.users ∨ Entry x

theorem setUuidLastReconciled_users (r : Redis) (toUuid : Option Uuid) :
    (DirectoryCache.setUuidLastReconciled r toUuid).users = r.users := by
  cases toUuid <;> rfl

theorem setUuidLastReconciled_mark (r : Redis) (toUuid : Option Uuid) :
    (DirectoryCache.setUuidLastReconciled r toUuid).lastReconciled = toUuid.map uuidToString := by
  cases toUuid <;> rfl

/-- A chunk is accepted and marked, or leaves the mark as it was. -/
theorem reconcile_cases {c : Chunk φ} {r : Redis} {res : Except (ManagerError φ) Bool} {n' : Node φ}
    (h : c.reconcile r = some (res, n')) :
    c.isReconciliationEnabled = true ∧ res = .ok true ∧ Accepted c r n'.redis ∨
      (c.isReconciliationEnabled = false ∨ res ≠ .ok true) ∧ Updates r n'.redis := by
  unfold Chunk.reconcile Node.reconcile at h
  split at h
  · rename_i hoff
    cases h
    exact .inr ⟨.inl (by simpa [Chunk.node] using hoff), .refl _⟩
  split at h
  · cases h
    exact .inr ⟨.inr (by simp), .refl _⟩
  split at h
  · cases h
    exact .inr ⟨.inr (by simp), .refl _⟩
  rename_i hon hskip hbounds
  simp only at h
  split at h
  · cases h
  · rename_i e n₁ hrem
    cases h
    exact .inr ⟨.inr (by simp), (removeUsers_redis hrem).1⟩
  rename_i n₁ hrem
  obtain ⟨hupdates, hremoved⟩ := removeUsers_redis hrem
  split at h
  · cases h
  · rename_i e n₂ hadd
    cases h
    exact .inr ⟨.inr (by simp), hupdates.trans (addUsers_redis hadd).1⟩
  rename_i n₂ hadd
  obtain ⟨hupdates', hadded⟩ := addUsers_redis hadd
  cases h
  refine .inl ⟨by simpa [Chunk.node] using hon, rfl, by simpa using hskip, ?_, setUuidLastReconciled_mark _ _, fun x => ?_,
    fun x hx => ?_⟩
  · simpa using hbounds
  · rw [setUuidLastReconciled_users, hadded rfl, hremoved rfl]
    rfl
  · rw [setUuidLastReconciled_users] at hx
    exact (hupdates.trans hupdates').entries x hx

theorem interruptedMark_cases (r : Redis) (toUuid : Option Uuid) (executed : Nat) :
    (interruptedMark r toUuid executed).users = r.users ∧
      ((toUuid.isSome && executed ≠ 0) = true ∧
          interruptedMark r toUuid executed = DirectoryCache.setUuidLastReconciled r toUuid ∨
        (toUuid.isSome && executed ≠ 0) = false ∧
          ((interruptedMark r toUuid executed).lastReconciled = r.lastReconciled ∨
            (interruptedMark r toUuid executed).lastReconciled = none)) := by
  match toUuid, executed with
  | none, 0 => exact ⟨rfl, .inr ⟨rfl, .inl rfl⟩⟩
  | some t, 0 => exact ⟨rfl, .inr ⟨rfl, .inl rfl⟩⟩
  | none, 1 => exact ⟨rfl, .inr ⟨rfl, .inr rfl⟩⟩
  | none, k + 2 => exact ⟨rfl, .inr ⟨rfl, .inr rfl⟩⟩
  | some t, k + 1 => exact ⟨rfl, .inl ⟨rfl, rfl⟩⟩

/-- A call that throws with the mark set has done what one that returns does; otherwise it has made some
    of its updates, and the mark is as it was or deleted. -/
theorem interrupted_cases {c : Chunk φ} {r r' : Redis} {updates executed : Nat} {moved : Bool}
    (h : c.interrupted r updates executed = some (moved, r')) :
    c.isReconciliationEnabled = true ∧ moved = true ∧ Accepted c r r' ∨
      moved = false ∧ (r'.lastReconciled = r.lastReconciled ∨ r'.lastReconciled = none) ∧
        ∀ x ∈ r'.users, x ∈ r.users ∨ Entry x := by
  unfold Chunk.interrupted at h
  split at h
  · cases h
    exact .inr ⟨rfl, .inl rfl, fun _ h => .inl h⟩
  rename_i hgo
  split at h
  · cases h
  · rename_i e n₁ hrem
    cases h
    have hupdates := (removeUsers_redis hrem).1
    exact .inr ⟨rfl, .inl hupdates.mark, hupdates.entries⟩
  rename_i n₁ hrem
  split at h
  · cases h
  · rename_i e n₂ hadd
    cases h
    have hupdates := (removeUsers_redis hrem).1.trans (addUsers_redis hadd).1
    exact .inr ⟨rfl, .inl hupdates.mark, hupdates.entries⟩
  rename_i n₂ hadd
  have hupdates := (removeUsers_redis hrem).1.trans (addUsers_redis hadd).1
  split at h
  · rename_i update uuid address hnext
    cases h
    have hupdates' := hupdates.trans (updates_interruptedUpdate n₂.redis uuid address update executed)
    exact .inr ⟨rfl, .inl hupdates'.mark, hupdates'.entries⟩
  rename_i hall
  cases h
  obtain ⟨husers, ⟨hmoved, hmark⟩ | ⟨hmoved, hmark⟩⟩ := interruptedMark_cases n₂.redis c.toUuid executed
  · -- all updates are made, so this is where `reconcile` returns
    have hlength : (c.removals r).length + (c.additions r).length ≤ updates := by
      simpa [Chunk.updates] using List.getElem?_eq_none_iff.mp hall
    rw [List.take_of_length_le (by omega)] at hrem hadd
    have hreconcile : c.reconcile r =
        some (.ok true, { n₂ with redis := DirectoryCache.setUuidLastReconciled n₂.redis c.toUuid }) := by
      simp only [Bool.or_eq_true, not_or, Bool.not_eq_true] at hgo
      obtain ⟨⟨hon, hskip⟩, hbounds⟩ := hgo
      unfold Chunk.reconcile Node.reconcile
      rw [if_neg (by simp only [Bool.not_eq_true]; exact hon), if_neg (by simp only [Bool.not_eq_true]; exact hskip),
        if_neg (by simp only [Bool.not_eq_true]; exact hbounds)]
      simp only [Chunk.removals, Chunk.additions] at hrem hadd
      simp only [Chunk.node] at hrem ⊢
      simp only [hrem, hadd]
    rcases reconcile_cases hreconcile with ⟨hon, -, ha⟩ | ⟨hoff | hne, -⟩
    · exact .inl ⟨hon, hmoved, hmark ▸ ha⟩
    · rw [hoff] at hgo; exact absurd rfl hgo
    · exact absurd rfl hne
  · refine .inr ⟨hmoved, hmark.imp (·.trans hupdates.mark) id, fun x hx => hupdates.entries x (husers ▸ hx)⟩

/-! ## A completed reconciliation covers all uuids -/

/-- Every uuid is in one of the ranges. -/
def Covers (ranges : List Range) : Prop := ∀ uuid, ∃ r ∈ ranges, InRange r.1 r.2 uuid

/-- What has passed reaches up to the mark. -/
structure Inv (s : St) : Prop where
  reached : ∀ text, s.redis.lastReconciled = some text → ∃ m, text = uuidToString m ∧
    ∀ uuid, uuidToString uuid ≤ uuidToString m → ∃ r ∈ s.passed.map (·.range), InRange r.1 r.2 uuid
  completions : ∀ passed ∈ s.completions, Covers (passed.map (·.range))

theorem Inv.same {s : St} (h : Inv s) {r : Redis} (hmark : r.lastReconciled = s.redis.lastReconciled ∨ r.lastReconciled = none) :
    Inv { s with redis := r } := by
  refine ⟨fun text htext => ?_, h.completions⟩
  rcases hmark with hmark | hmark
  · exact h.reached text (hmark ▸ htext)
  · cases hmark.symm.trans htext

omit [LoadFactor φ] in
/-- A chunk that follows, with those before it, reaches from the start to its end. -/
theorem Inv.reaches {s : St} (h : Inv s) {c : Chunk φ} {r' : Redis} (ha : Accepted c s.redis r') {uuid : Uuid}
    (returned : Bool) (hto : ∀ t, c.toUuid = some t → uuidToString uuid ≤ uuidToString t) :
    ∃ r ∈ (s.passed ++ [⟨(c.fromUuid, c.toUuid), returned⟩] : List Passed).map (·.range), InRange r.1 r.2 uuid := by
  rw [List.map_append]
  by_cases hfrom : ∀ f, c.fromUuid = some f → uuidToString f < uuidToString uuid
  · exact ⟨_, List.mem_append_right _ (List.mem_singleton.mpr rfl), hfrom, hto⟩
  · -- the uuid is at the start of the chunk or before, which is not past the mark
    push Not at hfrom
    obtain ⟨f, hf, hle⟩ := hfrom
    have hfollows := ha.follows
    simp only [skipsData, hf, Chunk.node] at hfollows
    split at hfollows
    · cases hfollows
    rename_i last hlast
    obtain ⟨text, htext, hparse⟩ := Option.bind_eq_some_iff.mp hlast
    obtain ⟨m, rfl, hreached⟩ := h.reached text htext
    rw [uuidFromString_uuidToString] at hparse
    cases hparse
    rw [decide_eq_false_iff_not, not_lt] at hfollows
    obtain ⟨r, hr, hin⟩ := hreached uuid (le_trans hle hfollows)
    exact ⟨r, List.mem_append_left _ hr, hin⟩

omit [LoadFactor φ] in
theorem Inv.pass {s : St} (h : Inv s) {c : Chunk φ} (hon : c.isReconciliationEnabled = true) {r' : Redis}
    (ha : Accepted c s.redis r') (returned : Bool) : Inv (s.pass c r' returned) := by
  unfold St.pass
  rw [if_neg (by simp [hon])]
  cases hto : c.toUuid with
  | none =>
    refine ⟨fun text htext => ?_, fun ranges hranges => ?_⟩
    · have hmark := ha.mark
      rw [hto] at hmark
      cases hmark.symm.trans htext
    · rcases List.mem_append.mp hranges with hranges | hranges
      · exact h.completions ranges hranges
      · rw [List.mem_singleton.mp hranges, ← hto]
        exact fun uuid => h.reaches ha returned fun t ht => (by cases hto.symm.trans ht)
  | some t =>
    refine ⟨fun text htext => ⟨t, ?_, fun uuid huuid => ?_⟩, h.completions⟩
    · have hmark := ha.mark
      rw [hto] at hmark
      exact Option.some.inj (htext.symm.trans hmark)
    · have hreaches := h.reaches ha returned fun t' ht' => (by cases hto.symm.trans ht'; exact huuid)
      rwa [hto] at hreaches

theorem step_inv {s s' : St} {e : Event φ} (h : Inv s) (hs : step s e = some s') : Inv s' := by
  cases e with
  | addUser d uuid address =>
    obtain ⟨⟨r, n'⟩, hr, rfl⟩ := Option.map_eq_some_iff.mp hs
    exact h.same (.inl (addUser_redis hr).1.mark)
  | removeUser d uuid address =>
    obtain ⟨⟨r, n'⟩, hr, rfl⟩ := Option.map_eq_some_iff.mp hs
    exact h.same (.inl (removeUser_redis hr).1.mark)
  | reconcile c =>
    simp only [step] at hs
    split at hs
    · cases hs
    · rename_i n' hres
      cases hs
      rcases reconcile_cases hres with ⟨hon, -, ha⟩ | ⟨hoff | hne, hupdates⟩
      · exact h.pass hon ha true
      · simp only [St.pass, hoff]
        exact h.same (.inl hupdates.mark)
      · exact absurd rfl hne
    · rename_i res n' hne hres
      cases hs
      rcases reconcile_cases hres with ⟨-, htrue, -⟩ | ⟨-, hupdates⟩
      · exact absurd htrue hne
      · exact h.same (.inl hupdates.mark)
  | interruptedUpdate update uuid address executed =>
    cases hs
    exact h.same (.inl (updates_interruptedUpdate _ _ _ _ _).mark)
  | interrupted c updates executed =>
    simp only [step] at hs
    split at hs
    · cases hs
    · rename_i r hr
      cases hs
      rcases interrupted_cases hr with ⟨hon, -, ha⟩ | ⟨hmoved, -⟩
      · exact h.pass hon ha false
      · cases hmoved
    · rename_i r hr
      cases hs
      rcases interrupted_cases hr with ⟨-, hmoved, -⟩ | ⟨-, hmark, -⟩
      · cases hmoved
      · exact h.same hmark

/-- When a reconciliation completes, every uuid is in the range of a chunk that moved the mark since the
    completion before. -/
theorem completions_cover {redis : Redis} (hmark : redis.lastReconciled = none) {es : List (Event φ)} {s : St}
    (hrun : Runs.run step ⟨redis, [], []⟩ es = some s) : ∀ passed ∈ s.completions, Covers (passed.map (·.range)) := by
  have hinv : Inv ⟨redis, [], []⟩ :=
    ⟨fun text htext => (by cases hmark.symm.trans htext), fun _ h => absurd h List.not_mem_nil⟩
  exact (Runs.run_of_inv (P := Inv) (fun _ _ _ h hs => step_inv h hs) hinv hrun).completions

def plainRedis : Redis := ⟨[], none, false, []⟩

def plainUuid (least : BitVec 64) : Uuid := ⟨fun w => if w = 0 then 0 else least⟩

def plainChunk (fromUuid toUuid : Option Uuid) (users : List User) : Chunk ℚ :=
  ⟨true, DirectoryMap.eightSlots, fromUuid, toUuid, users, ⟨id, fun l => List.Perm.refl l⟩⟩

/-- A chunk is sent again, one is refused for the gap before it, one throws after it added a user, and one
    throws when it had set the mark. -/
def plainEvents : List (Event ℚ) :=
  [.reconcile (plainChunk none (some (plainUuid 7)) [(plainUuid 3, ['+', '1', ':', '2'])]),
    .reconcile (plainChunk none (some (plainUuid 5)) []),
    .reconcile (plainChunk (some (plainUuid 6)) none []),
    .interrupted (plainChunk (some (plainUuid 5)) (some (plainUuid 9)) [(plainUuid 8, ['1'])]) 0 1,
    .interrupted (plainChunk (some (plainUuid 4)) (some (plainUuid 6)) []) 0 1,
    .reconcile (plainChunk (some (plainUuid 6)) none [])]

def plainEnd : St :=
  ⟨⟨[], none, true, [⟨.addedUser, encodeUser (plainUuid 3) ['+', '1', ':', '2']⟩, ⟨.removed, ['+', '1', ':', '2']⟩,
      ⟨.removed, ['1']⟩]⟩,
    [], [[⟨(none, some (plainUuid 7)), true⟩, ⟨(none, some (plainUuid 5)), true⟩,
      ⟨(some (plainUuid 4), some (plainUuid 6)), false⟩, ⟨(some (plainUuid 6), none), true⟩]]⟩

theorem completions_cover_plain :
    plainRedis.lastReconciled = none ∧ Runs.run step ⟨plainRedis, [], []⟩ plainEvents = some plainEnd ∧
      ∀ passed ∈ plainEnd.completions, Covers (passed.map (·.range)) := by
  have hrun : Runs.run step ⟨plainRedis, [], []⟩ plainEvents = some plainEnd := by decide +kernel
  exact ⟨rfl, hrun, completions_cover rfl hrun⟩

/-- The first chunk throws although its mark is set; the second one returns and completes, and no chunk
    that returned has the uuid 3. -/
theorem lost_reply_skips_range :
    ∃ passed, Runs.run step ⟨plainRedis, [], []⟩ [Event.interrupted (plainChunk none (some (plainUuid 7)) []) 0 1,
        .reconcile (plainChunk (some (plainUuid 7)) none [])] = some ⟨⟨[], none, true, []⟩, [], [passed]⟩ ∧
      ¬Covers ((passed.filter (·.returned)).map (·.range)) := by
  refine ⟨[⟨(none, some (plainUuid 7)), false⟩, ⟨(some (plainUuid 7), none), true⟩], by decide +kernel, fun h => ?_⟩
  obtain ⟨r, hr, hin⟩ := h (plainUuid 3)
  cases List.mem_singleton.mp hr
  have hlt := hin.1 (plainUuid 7) rfl
  revert hlt
  decide +kernel

/-! ## A chunk replaces its range -/

theorem bound_lt_encodeUser {f u : Uuid} {a : Text} : uuidBoundAfter f < encodeUser u a ↔ uuidToString f < uuidToString u := by
  rw [uuidBoundAfter, encodeUser, Lex.append_lt_append_iff (by simp [length_uuidToString]), List.cons_lt_cons_iff]
  simp

theorem encodeUser_lt_bound {u t : Uuid} {a : Text} : encodeUser u a < uuidBoundAfter t ↔ uuidToString u ≤ uuidToString t := by
  rw [uuidBoundAfter, encodeUser, Lex.append_lt_append_iff (by simp [length_uuidToString]), List.cons_lt_cons_iff,
    le_iff_lt_or_eq]
  simp

theorem between_iff {fromUuid toUuid : Option Uuid} {u : Uuid} {a : Text} :
    ((fromUuid.all fun f => uuidBoundAfter f < encodeUser u a) && toUuid.all fun t => encodeUser u a < uuidBoundAfter t) = true ↔
      InRange fromUuid toUuid u := by
  simp [InRange, bound_lt_encodeUser, encodeUser_lt_bound, Option.all_eq_true]

def Wellformed (r : Redis) : Prop := ∀ x ∈ r.users, Entry x

theorem mem_usersInRange {r : Redis} (h : Wellformed r) {fromUuid toUuid : Option Uuid} {u : User} :
    u ∈ DirectoryCache.getUsersInRange r fromUuid toUuid ↔ encodeUser u.1 u.2 ∈ r.users ∧ InRange fromUuid toUuid u.1 := by
  unfold DirectoryCache.getUsersInRange
  simp only [List.mem_filterMap, List.mem_filter]
  constructor
  · rintro ⟨x, ⟨hx, hbetween⟩, hdecode⟩
    obtain ⟨u', a', -, rfl⟩ := h x hx
    rw [decodeUser_encodeUser] at hdecode
    cases hdecode
    exact ⟨hx, between_iff.mp hbetween⟩
  · rintro ⟨hx, hin⟩
    exact ⟨_, ⟨hx, between_iff.mpr hin⟩, decodeUser_encodeUser u.1 u.2⟩

theorem mem_orderedDifference {order : IterationOrder} {l m : List User} {u : User} :
    u ∈ order.list (difference l m) ↔ u ∈ l ∧ u ∉ m := by
  rw [(order.perm _).mem_iff, difference]
  simp

omit [LoadFactor φ] in
/-- The entries of users with a uuid in the range make place for those of the chunk. -/
theorem Accepted.replaces {c : Chunk φ} {r r' : Redis} (ha : Accepted c r r') (h : Wellformed r) (x : Text) :
    x ∈ r'.users ↔
      (x ∈ r.users ∧ ¬∃ u a, x = encodeUser u a ∧ InRange c.fromUuid c.toUuid u) ∨ ∃ u ∈ c.users, x = encodeUser u.1 u.2 := by
  rw [ha.users]
  simp only [Chunk.removals, Chunk.additions, mem_orderedDifference, mem_usersInRange h]
  constructor
  · rintro (⟨hx, hkept⟩ | ⟨u, ⟨hu, -⟩, rfl⟩)
    · obtain ⟨u, a, hvalid, rfl⟩ := h x hx
      by_cases hin : InRange c.fromUuid c.toUuid u
      · by_cases hu : (u, a) ∈ c.users
        · exact .inr ⟨(u, a), hu, rfl⟩
        · exact absurd rfl (hkept (u, a) ⟨⟨hx, hin⟩, hu⟩ hvalid)
      · refine .inl ⟨hx, ?_⟩
        rintro ⟨u', a', heq, hin'⟩
        rw [← (encodeUser_inj heq).1] at hin'
        exact hin hin'
    · exact .inr ⟨u, hu, rfl⟩
  · rintro (⟨hx, hout⟩ | ⟨u, hu, rfl⟩)
    · refine .inl ⟨hx, fun u hu _ heq => hout ⟨u.1, u.2, heq, hu.1.2⟩⟩
    · by_cases hin : encodeUser u.1 u.2 ∈ r.users ∧ InRange c.fromUuid c.toUuid u.1
      · refine .inl ⟨hin.1, fun u' hu' _ heq => hu'.2 ?_⟩
        obtain ⟨h₁, h₂⟩ := encodeUser_inj heq
        rwa [← Prod.ext h₁ h₂]
      · exact .inr ⟨u, ⟨hu, hin⟩, rfl⟩

theorem Wellformed.add {r r' : Redis} (h : Wellformed r) (hr : ∀ x ∈ r'.users, x ∈ r.users ∨ Entry x) : Wellformed r' :=
  fun x hx => (hr x hx).elim (h x) id

omit [LoadFactor φ] in
theorem redis_pass (s : St) (c : Chunk φ) (r : Redis) (returned : Bool) : (s.pass c r returned).redis = r := by
  unfold St.pass
  split
  · rfl
  · simp only
    split <;> rfl

theorem step_wellformed {s s' : St} {e : Event φ} (h : Wellformed s.redis) (hs : step s e = some s') : Wellformed s'.redis := by
  cases e with
  | addUser d uuid address =>
    obtain ⟨⟨r, n'⟩, hr, rfl⟩ := Option.map_eq_some_iff.mp hs
    exact h.add (addUser_redis hr).1.entries
  | removeUser d uuid address =>
    obtain ⟨⟨r, n'⟩, hr, rfl⟩ := Option.map_eq_some_iff.mp hs
    exact h.add (removeUser_redis hr).1.entries
  | reconcile c =>
    have hentries : ∀ {res : Except (ManagerError φ) Bool} {n' : Node φ}, c.reconcile s.redis = some (res, n') →
        Wellformed n'.redis := by
      intro res n' hres
      rcases reconcile_cases hres with ⟨-, -, ha⟩ | ⟨-, hupdates⟩
      · exact h.add ha.entries
      · exact h.add hupdates.entries
    simp only [step] at hs
    split at hs
    · cases hs
    · cases hs
      rw [redis_pass]
      exact hentries ‹_›
    · cases hs
      exact hentries ‹_›
  | interruptedUpdate update uuid address executed =>
    cases hs
    exact h.add (updates_interruptedUpdate _ _ _ _ _).entries
  | interrupted c updates executed =>
    have hentries : ∀ {moved : Bool} {r : Redis}, c.interrupted s.redis updates executed = some (moved, r) → Wellformed r := by
      intro moved r hr
      rcases interrupted_cases hr with ⟨-, -, ha⟩ | ⟨-, -, hentries⟩
      · exact h.add ha.entries
      · exact h.add hentries
    simp only [step] at hs
    split at hs
    · cases hs
    · cases hs
      rw [redis_pass]
      exact hentries ‹_›
    · cases hs
      exact hentries ‹_›

/-- A chunk that is accepted replaces exactly its range, in every user set that calls lead to. -/
theorem reconcile_replaces_range {redis : Redis} (hempty : redis.users = []) {es : List (Event φ)} {s : St}
    (hrun : Runs.run step ⟨redis, [], []⟩ es = some s) {c : Chunk φ} (hon : c.isReconciliationEnabled = true) {n' : Node φ}
    (h : c.reconcile s.redis = some (.ok true, n')) (x : Text) :
    x ∈ n'.redis.users ↔
      (x ∈ s.redis.users ∧ ¬∃ u a, x = encodeUser u a ∧ InRange c.fromUuid c.toUuid u) ∨ ∃ u ∈ c.users, x = encodeUser u.1 u.2 := by
  have hstart : Wellformed redis := fun x hx => absurd (hempty ▸ hx) List.not_mem_nil
  have hwell := Runs.run_of_inv (P := fun s => Wellformed s.redis) (fun _ _ _ h hs => step_wellformed h hs) hstart hrun
  rcases reconcile_cases h with ⟨-, -, ha⟩ | ⟨hoff | hne, -⟩
  · exact ha.replaces hwell x
  · cases hon.symm.trans hoff
  · exact absurd rfl hne

def plainAdds : List (Event ℚ) :=
  [.addUser DirectoryMap.eightSlots (plainUuid 3) ['+', '1', ':', '2'], .addUser DirectoryMap.eightSlots (plainUuid 4) ['3', ';', ':']]

def plainAdded : St :=
  ⟨⟨[encodeUser (plainUuid 3) ['+', '1', ':', '2'], encodeUser (plainUuid 4) ['3', ';', ':']], none, false,
      [⟨.addedUser, encodeUser (plainUuid 3) ['+', '1', ':', '2']⟩, ⟨.addedUser, encodeUser (plainUuid 4) ['3', ';', ':']⟩]⟩, [], []⟩

theorem reconcile_replaces_range_plain :
    Runs.run step ⟨plainRedis, [], []⟩ plainAdds = some plainAdded ∧
      ∃ n' : Node ℚ, (plainChunk none (some (plainUuid 3)) [(plainUuid 9, ['5'])]).reconcile plainAdded.redis = some (.ok true, n') ∧
        n'.redis.users = [encodeUser (plainUuid 4) ['3', ';', ':'], encodeUser (plainUuid 9) ['5']] ∧
        ∀ x, x ∈ n'.redis.users ↔
          (x ∈ plainAdded.redis.users ∧ ¬∃ u a, x = encodeUser u a ∧ InRange none (some (plainUuid 3)) u) ∨
            ∃ u ∈ [(plainUuid 9, ['5'])], x = encodeUser u.1 u.2 := by
  have hrun : Runs.run step ⟨plainRedis, [], []⟩ plainAdds = some plainAdded := by decide +kernel
  have hvalue : ((plainChunk none (some (plainUuid 3)) [(plainUuid 9, ['5'])]).reconcile plainAdded.redis).map
      (fun r => (decide (r.1 = .ok true), r.2.redis.users)) =
      some (true, [encodeUser (plainUuid 4) ['3', ';', ':'], encodeUser (plainUuid 9) ['5']]) := by decide +kernel
  obtain ⟨⟨res, n'⟩, hres, hpair⟩ := Option.map_eq_some_iff.mp hvalue
  obtain ⟨htrue, husers⟩ := Prod.mk.inj hpair
  cases of_decide_eq_true htrue
  exact ⟨hrun, n', hres, husers, reconcile_replaces_range rfl hrun rfl hres⟩

end ContactDiscovery.Directory.Reconciliation
