/-
  ContactDiscovery.Directory.DirectoryCache — the user set in Redis (`DirectoryCache.java`): a
  sorted set of texts `uuid:address`, all of one score, the uuid reconciled last, the mark that
  the set is built, and the channel updates are published on.

  Texts are lists of characters; Redis orders them by their bytes, which is the order of the code
  points. `UUID.fromString` is read with ASCII digits only.

  Proved: `decodeUser_encodeUser`, a user's entry reads back as the user, so that different users
  have different entries (`encodeUser_inj`).
-/

import ContactDiscovery.Enclave.Types
import ContactDiscovery.Lib.Numeral

namespace ContactDiscovery.Directory

open Lib Lib.Numeral
open Enclave (Phone Uuid)

abbrev Text := List Char

instance lawfulBEq_text : LawfulBEq Text := inferInstance

/-! ## Uuids as text -/

/-- `UUID.toString`; `data64` is the most and the least significant half. -/
def uuidToString (uuid : Uuid) : Text :=
  let most := (uuid.data64 0).toNat
  let least := (uuid.data64 1).toNat
  ['-'].intercalate [numeral 16 8 (most / 2 ^ 32), numeral 16 4 (most / 2 ^ 16), numeral 16 4 most,
    numeral 16 4 (least / 2 ^ 48), numeral 16 12 least]

/-- `UUID.fromString`: five numbers between dashes, each cut to its width. -/
def uuidFromString (name : Text) : Option Uuid :=
  if name.length > 36 then none
  else
    match name.splitOn '-' with
    | [a, b, c, d, e] =>
      let parse := parseLong (digitOf 16) 16
      match parse a, parse b, parse c, parse d, parse e with
      | some a, some b, some c, some d, some e =>
        let most := a.toNat % 2 ^ 32 * 2 ^ 32 + b.toNat % 2 ^ 16 * 2 ^ 16 + c.toNat % 2 ^ 16
        let least := d.toNat % 2 ^ 16 * 2 ^ 48 + e.toNat % 2 ^ 48
        some ⟨fun w => if w = 0 then BitVec.ofNat 64 most else BitVec.ofNat 64 least⟩
      | _, _, _, _, _ => none
    | _ => none

theorem length_uuidToString (uuid : Uuid) : (uuidToString uuid).length = 36 := by
  simp [uuidToString, List.intercalate]

theorem dash_not_mem_numeral (k n : Nat) : '-' ∉ numeral 16 k n := by
  have hdigit : ∀ d < 16, Nat.digitChar d ≠ '-' := by decide
  intro h
  obtain ⟨d, hd, he⟩ := mem_numeral (by decide) h
  exact hdigit d hd he.symm

theorem colon_not_mem_uuidToString (uuid : Uuid) : ∀ c ∈ uuidToString uuid, c ≠ ':' := by
  have hdigit : ∀ d < 16, Nat.digitChar d ≠ ':' := by decide
  have hnum : ∀ k n c, c ∈ numeral 16 k n → c ≠ ':' := by
    intro k n c h
    obtain ⟨d, hd, rfl⟩ := mem_numeral (by decide) h
    exact hdigit d hd
  intro c h
  simp only [uuidToString, List.intercalate, List.intersperse_cons_cons, List.intersperse_singleton, List.flatten_cons,
    List.flatten_nil, List.append_nil, List.mem_append, List.mem_singleton] at h
  rcases h with h | rfl | h | rfl | h | rfl | h | rfl | h
  all_goals first | exact hnum _ _ _ h | decide

theorem uuidFromString_uuidToString (uuid : Uuid) : uuidFromString (uuidToString uuid) = some uuid := by
  have hparse : ∀ k, 0 < k → k ≤ 12 → ∀ n,
      parseLong (digitOf 16) 16 (numeral 16 k n) = some (BitVec.ofNat 64 (n % 16 ^ k)) := by
    intro k h0 h12
    refine parseLong_numeral (by decide) (by decide) h0 ?_
    calc 16 ^ k ≤ 16 ^ 12 := Nat.pow_le_pow_right (by decide) h12
      _ ≤ 2 ^ 63 := by decide
  rw [uuidFromString, if_neg (by rw [length_uuidToString]; omega)]
  simp only [uuidToString]
  rw [List.splitOn_intercalate '-' (by simp [dash_not_mem_numeral]) (by simp)]
  simp only [hparse 8 (by decide) (by decide), hparse 4 (by decide) (by decide), hparse 12 (by decide) (by decide)]
  congr 1
  ext w : 2
  have hmost := (uuid.data64 0).isLt
  have hleast := (uuid.data64 1).isLt
  apply BitVec.eq_of_toNat_eq
  fin_cases w
  · simp only [Fin.zero_eta, if_true, BitVec.toNat_ofNat]; omega
  · simp only [Fin.mk_one, one_ne_zero, if_false, BitVec.toNat_ofNat]; omega

/-! ## Entries of the user set -/

abbrev User := Uuid × Text

def encodeUser (uuid : Uuid) (address : Text) : Text := uuidToString uuid ++ ':' :: address

/-- `decodeUser`; `none` if the uuid is malformed. Without a separator the address is empty. -/
def decodeUser (encodedUser : Text) : Option User :=
  match uuidFromString (encodedUser.takeWhile (· ≠ ':')) with
  | none => none
  | some uuid => some (uuid, (encodedUser.dropWhile (· ≠ ':')).tail)

theorem decodeUser_encodeUser (uuid : Uuid) (address : Text) :
    decodeUser (encodeUser uuid address) = some (uuid, address) := by
  have hcolon : ∀ c ∈ uuidToString uuid, decide (c ≠ ':') = true := fun c h =>
    decide_eq_true (colon_not_mem_uuidToString uuid c h)
  rw [decodeUser, encodeUser, List.takeWhile_append_of_pos hcolon, List.dropWhile_append_of_pos hcolon]
  simp [uuidFromString_uuidToString]

theorem encodeUser_inj {u u' : Uuid} {a a' : Text} (h : encodeUser u a = encodeUser u' a') : u = u' ∧ a = a' := by
  have hd := decodeUser_encodeUser u a
  rw [h, decodeUser_encodeUser] at hd
  cases hd
  exact ⟨rfl, rfl⟩

/-- The text after all entries of a uuid: the separator is the character before `;`. -/
def uuidBoundAfter (uuid : Uuid) : Text := uuidToString uuid ++ [';']

/-! ## Redis -/

inductive MessageType where
  | added
  | addedUser
  | removed
  | keepalive
  deriving DecidableEq, Repr

structure PubSubMessage where
  type : MessageType
  content : Text
  deriving DecidableEq, Repr

structure Redis where
  users : List Text
  lastReconciled : Option Text
  userSetBuilt : Bool
  channel : List PubSubMessage
  deriving DecidableEq

namespace Redis

/-- `ZADD` of one member: whether it is new. -/
def zadd (r : Redis) (member : Text) : Bool × Redis :=
  if member ∈ r.users then (false, r) else (true, { r with users := r.users ++ [member] })

/-- `ZREM` of one member: whether it was there. -/
def zrem (r : Redis) (member : Text) : Bool × Redis :=
  (member ∈ r.users, { r with users := r.users.filter (· ≠ member) })

def publish (r : Redis) (message : PubSubMessage) : Redis := { r with channel := r.channel ++ [message] }

def publishIf (r : Redis) (changed : Bool) (message : PubSubMessage) : Redis :=
  if changed then r.publish message else r

@[simp] theorem users_publishIf (r : Redis) (b : Bool) (message : PubSubMessage) :
    (r.publishIf b message).users = r.users := by
  cases b <;> rfl

theorem mem_zadd {r : Redis} {m x : Text} : x ∈ (r.zadd m).2.users ↔ x ∈ r.users ∨ x = m := by
  unfold zadd
  split
  · rename_i h
    exact ⟨Or.inl, fun hx => hx.elim id fun e => e ▸ h⟩
  · simp

theorem mem_zrem {r : Redis} {m x : Text} : x ∈ (r.zrem m).2.users ↔ x ∈ r.users ∧ x ≠ m := by
  simp [zrem]

end Redis

/-! ## The cache -/

namespace DirectoryCache

def addUser (r : Redis) (uuid : Uuid) (address : Text) : Bool × Redis := r.zadd (encodeUser uuid address)

def removeUser (r : Redis) (uuid : Uuid) (address : Text) : Bool × Redis := r.zrem (encodeUser uuid address)

/-- The users above the entries of `fromUuid` and up to those of `toUuid`; entries that do not
    decode are skipped. -/
def getUsersInRange (r : Redis) (fromUuid toUuid : Option Uuid) : List User :=
  let above (m : Text) : Bool := fromUuid.all fun uuid => uuidBoundAfter uuid < m
  let below (m : Text) : Bool := toUuid.all fun uuid => m < uuidBoundAfter uuid
  (r.users.filter fun m => above m && below m).filterMap decodeUser

def getKnownUsers (r : Redis) (users : List User) : List User := users.filter fun u => encodeUser u.1 u.2 ∈ r.users

def getUuidLastReconciled (r : Redis) : Option Uuid := r.lastReconciled.bind uuidFromString

/-- With no uuid, reconciliation has come to the end of the user set. -/
def setUuidLastReconciled (r : Redis) : Option Uuid → Redis
  | some uuid => { r with lastReconciled := some (uuidToString uuid) }
  | none => { r with lastReconciled := none, userSetBuilt := true }

end DirectoryCache

end ContactDiscovery.Directory
