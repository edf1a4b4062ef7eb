/-
  ContactDiscovery.Directory.DirectoryQueueManager — the queue of user updates
  (`DirectoryQueueManager.java`, `DirectoryQueue.java`): a loop that deletes from the queue what it
  has handled, receives the next messages and hands each to the directory manager.

  What the queue and the manager answer is input: the messages of a call, redelivered ones among them,
  what the manager makes of each, how each delete request ends. The receipts are a hash set, so a call
  goes through them in any order. A call that throws is caught by `run` and followed by the next.

  Proved: `deletes_owed`. A receipt is owed if its message was completed or rejected as invalid in a
  call and no delete request after that succeeded or failed with a client error.
  - The receipts that are recorded are those that are owed.
  - Only receipts that earlier calls owe are deleted; so none on the strength of an attempt that threw,
    as with a directory that is unavailable.
  - Every call tries to delete all that is owed, if and only if no delete request before the last of
    a call fails with anything but an `AmazonServiceException`.

  Such a failure leaves `deleteMessages` and the call, and the receipts after it are not tried
  (`untried_after_failure`).
-/

import ContactDiscovery.Directory.DirectoryCache
import ContactDiscovery.Lib.Runs
import Mathlib.Data.Finset.Basic

namespace ContactDiscovery.Directory.DirectoryQueueManager

open Lib
open Enclave (Uuid)

/-! ## Messages -/

structure Message where
  receiptHandle : Text
  /-- The string values of the attributes `id`, `uuid` and `action`. -/
  id : Option Text
  uuid : Option Text
  action : Option Text

inductive Thrown where
  | invalidQueueMessage (text : Text)
  | invalidAddress (address : Text)
  | directoryUnavailable
  | other
  deriving DecidableEq

/-- What a message asks of the directory manager. -/
inductive Request where
  | addUser (uuid : Uuid) (address : Text)
  | removeUser (uuid : Uuid) (address : Text)

def optionalToString : Option Text → Text
  | some value => "Optional[".toList ++ value ++ "]".toList
  | none => "Optional.empty".toList

/-- `manager` is what the directory manager makes of the request. -/
def processMessage (manager : Request → Except Thrown Unit) (message : Message) : Except Thrown Unit :=
  let number := message.id.filter fun numberValue => !numberValue.isEmpty
  let optUuidString := message.uuid.filter fun uuidValue => !uuidValue.isEmpty
  match number with
  | none => .error (.invalidQueueMessage "missing number".toList)
  | some number =>
    match optUuidString.bind uuidFromString with
    -- a missing uuid throws inside the block that catches, so it is reported as an invalid one
    | none => .error (.invalidQueueMessage ("invalid uuid: ".toList ++ optUuidString.getD "null".toList))
    | some uuid =>
      if message.action = some "add".toList then manager (.addUser uuid number)
      else if message.action = some "delete".toList then manager (.removeUser uuid number)
      else .error (.invalidQueueMessage ("bad action ".toList ++ optionalToString message.action))

/-- A message is rejected whatever the manager does, or it is one request to the manager. -/
theorem processMessage_cases (message : Message) :
    (∃ text, ∀ manager, processMessage manager message = .error (.invalidQueueMessage text)) ∨
      ∃ request, ∀ manager, processMessage manager message = manager request := by
  unfold processMessage
  simp only
  split
  · exact .inl ⟨_, fun _ => rfl⟩
  · split
    · exact .inl ⟨_, fun _ => rfl⟩
    · split
      · exact .inr ⟨_, fun _ => rfl⟩
      · split
        · exact .inr ⟨_, fun _ => rfl⟩
        · exact .inl ⟨_, fun _ => rfl⟩

/-! ## A call -/

inductive ErrorType where
  | client
  | service
  | unknown
  deriving DecidableEq

inductive Deletion where
  | deleted
  | amazonServiceException (errorType : ErrorType)
  /-- Any other exception, such as one of the client's own. -/
  | other
  deriving DecidableEq

inductive Act where
  | processMessage (receipt : Text) (result : Except Thrown Unit)
  | deleteMessage (receipt : Text) (deletion : Deletion)

structure St where
  messageReceipts : Finset Text
  /-- What the call has done so far. -/
  acts : List Act

/-- A received message, and what the manager makes of it. -/
structure Delivery where
  message : Message
  manager : Request → Except Thrown Unit

structure Call where
  /-- The order of the receipts in their hash set. -/
  order : List Text
  deleteMessage : Text → Deletion
  isConnected : Bool
  waitForMessages : Except Thrown (List Delivery)

def deleteMessages (deleteMessage : Text → Deletion) : List Text → St → Except Thrown Unit × St
  | [], s => (.ok (), s)
  | messageReceipt :: receipts, s =>
    let deletion := deleteMessage messageReceipt
    let acts := s.acts ++ [.deleteMessage messageReceipt deletion]
    match deletion with
    | .deleted => deleteMessages deleteMessage receipts ⟨s.messageReceipts.erase messageReceipt, acts⟩
    | .amazonServiceException errorType =>
      if errorType = .client then deleteMessages deleteMessage receipts ⟨s.messageReceipts.erase messageReceipt, acts⟩
      else deleteMessages deleteMessage receipts ⟨s.messageReceipts, acts⟩
    | .other => (.error .other, ⟨s.messageReceipts, acts⟩)

def processMessages : List Delivery → St → Except Thrown Unit × St
  | [], s => (.ok (), s)
  | ⟨message, manager⟩ :: messages, s =>
    let result := processMessage manager message
    let acts := s.acts ++ [.processMessage message.receiptHandle result]
    let recorded : St := ⟨insert message.receiptHandle s.messageReceipts, acts⟩
    match result with
    | .ok () => processMessages messages recorded
    | .error (.invalidQueueMessage _) => processMessages messages recorded
    | .error (.invalidAddress _) => processMessages messages recorded
    | .error ex => (.error ex, ⟨s.messageReceipts, acts⟩)

def processQueue (c : Call) (s : St) : Except Thrown Bool × St :=
  match deleteMessages c.deleteMessage c.order s with
  | (.error ex, s) => (.error ex, s)
  | (.ok (), s) =>
    if !c.isConnected then (.ok false, s)
    else
      match c.waitForMessages with
      | .error ex => (.error ex, s)
      | .ok messages =>
        match processMessages messages s with
        | (.error ex, s) => (.error ex, s)
        | (.ok (), s) => (.ok true, s)

/-! ## Runs -/

structure Manager where
  messageReceipts : Finset Text
  /-- What each call has done. -/
  calls : List (List Act)

def start : Manager := ⟨∅, []⟩

/-- One round of `run`, whether the call returns or throws. -/
def step (m : Manager) (c : Call) : Option Manager :=
  if c.order.Nodup ∧ c.order.toFinset = m.messageReceipts then
    let s := (processQueue c ⟨m.messageReceipts, []⟩).2
    some ⟨s.messageReceipts, m.calls ++ [s.acts]⟩
  else none

/-! ## What is owed -/

/-- The attempt completed, or the message was rejected as invalid. -/
def handled : Except Thrown Unit → Bool
  | .ok () => true
  | .error (.invalidQueueMessage _) => true
  | .error (.invalidAddress _) => true
  | .error .directoryUnavailable => false
  | .error .other => false

def Handles (call : List Act) (r : Text) : Prop := ∃ result, handled result = true ∧ .processMessage r result ∈ call

/-- The request neither succeeded nor failed with a client error. -/
def Deletion.retry : Deletion → Bool
  | .deleted => false
  | .amazonServiceException errorType => errorType ≠ .client
  | .other => true

/-- The call leaves it to later ones to delete the receipt. -/
def Leaves (call : List Act) (r : Text) : Prop := ∀ deletion, .deleteMessage r deletion ∈ call → deletion.retry = true

/-- A call has handled the receipt, and all later ones leave it. -/
def Owed (calls : List (List Act)) (r : Text) : Prop :=
  ∃ before call after, calls = before ++ call :: after ∧ Handles call r ∧ ∀ call' ∈ after, Leaves call' r

/-- Each call deletes only what earlier ones owe. -/
def Justified (calls : List (List Act)) : Prop :=
  ∀ before call after, calls = before ++ call :: after → ∀ r deletion, .deleteMessage r deletion ∈ call → Owed before r

/-- Each call tries to delete all that earlier ones owe. -/
def Retried (calls : List (List Act)) : Prop :=
  ∀ before call after, calls = before ++ call :: after → ∀ r, Owed before r → ∃ deletion, .deleteMessage r deletion ∈ call

/-- No delete request of the call fails with another exception, the last apart. -/
def Call.Undisturbed (c : Call) : Prop := ∀ r ∈ c.order.dropLast, c.deleteMessage r ≠ .other

theorem owed_concat {calls : List (List Act)} {acts : List Act} {r : Text} :
    Owed (calls ++ [acts]) r ↔ Handles acts r ∨ Owed calls r ∧ Leaves acts r := by
  constructor
  · intro h
    obtain ⟨before, call, after, hsplit, hhandles, hleaves⟩ := h
    rcases Runs.concat_eq_split.mp hsplit with ⟨-, heq, -⟩ | ⟨rest, hafter, hcalls⟩
    · exact .inl (heq ▸ hhandles)
    · subst hafter
      refine .inr ⟨⟨before, call, rest, hcalls, hhandles, ?_⟩, ?_⟩
      · intro call' hmem
        exact hleaves call' (List.mem_append_left _ hmem)
      · exact hleaves acts (List.mem_append_right _ (List.mem_singleton.mpr rfl))
  · intro h
    rcases h with hhandles | ⟨⟨before, call, after, hcalls, hhandles, hleaves⟩, hlast⟩
    · exact ⟨calls, acts, [], rfl, hhandles, nofun⟩
    · refine ⟨before, call, after ++ [acts], Runs.concat_eq_split.mpr (.inr ⟨after, rfl, hcalls⟩), hhandles, ?_⟩
      intro call' hmem
      rcases List.mem_append.mp hmem with hold | hnew
      · exact hleaves call' hold
      · rw [List.mem_singleton.mp hnew]
        exact hlast

theorem not_owed_nil {r : Text} : ¬Owed [] r := by
  intro h
  obtain ⟨before, call, after, hsplit, -⟩ := h
  simp at hsplit

theorem Owed.handled {calls : List (List Act)} {r : Text} (h : Owed calls r) : ∃ call ∈ calls, Handles call r := by
  obtain ⟨before, call, after, hcalls, hhandles, -⟩ := h
  rw [hcalls]
  exact ⟨call, List.mem_append_right _ List.mem_cons_self, hhandles⟩

/-! ## What a call does -/

/-- The receipts that `deleteMessages` comes to. -/
def tried (deleteMessage : Text → Deletion) : List Text → List Text
  | [] => []
  | r :: receipts => if deleteMessage r = .other then [r] else r :: tried deleteMessage receipts

section Calls

variable {deleteMessage : Text → Deletion}

/-- A failure of another kind ends the loop; any other outcome keeps or removes the receipt. -/
theorem deleteMessages_cons (r : Text) (receipts : List Text) (s : St) :
    (deleteMessages deleteMessage (r :: receipts) s).2 =
      if deleteMessage r = .other then ⟨s.messageReceipts, s.acts ++ [.deleteMessage r .other]⟩
      else (deleteMessages deleteMessage receipts
        ⟨if (deleteMessage r).retry then s.messageReceipts else s.messageReceipts.erase r,
          s.acts ++ [.deleteMessage r (deleteMessage r)]⟩).2 := by
  rw [deleteMessages]
  cases deleteMessage r with
  | deleted => rfl
  | amazonServiceException errorType => cases errorType <;> rfl
  | other => rfl

theorem deleteMessages_acts (receipts : List Text) (s : St) :
    (deleteMessages deleteMessage receipts s).2.acts =
      s.acts ++ (tried deleteMessage receipts).map fun r => .deleteMessage r (deleteMessage r) := by
  induction receipts generalizing s with
  | nil => exact (List.append_nil _).symm
  | cons r receipts ih =>
    rw [deleteMessages_cons, tried]
    split
    · rename_i hother
      rw [List.map_singleton, hother]
    · rw [ih, List.map_cons, List.append_assoc, List.singleton_append]

theorem mem_deleteMessages (receipts : List Text) (s : St) (r : Text) :
    r ∈ (deleteMessages deleteMessage receipts s).2.messageReceipts ↔
      r ∈ s.messageReceipts ∧ (r ∈ tried deleteMessage receipts → (deleteMessage r).retry = true) := by
  induction receipts generalizing s with
  | nil => simp [deleteMessages, tried]
  | cons r' receipts ih =>
    rw [deleteMessages_cons, tried]
    split
    · rename_i hother
      simp only [List.mem_singleton]
      refine (and_iff_left ?_).symm
      intro heq
      rw [heq, hother]
      rfl
    · rw [ih, List.mem_cons]
      by_cases heq : r = r'
      · subst heq
        cases hretry : (deleteMessage r).retry <;> simp
      · cases (deleteMessage r').retry <;> simp [heq]

theorem processMessages_cons (d : Delivery) (messages : List Delivery) (s : St) :
    (processMessages (d :: messages) s).2 =
      let result := processMessage d.manager d.message
      let acts := s.acts ++ [.processMessage d.message.receiptHandle result]
      if handled result then (processMessages messages ⟨insert d.message.receiptHandle s.messageReceipts, acts⟩).2
      else ⟨s.messageReceipts, acts⟩ := by
  rw [processMessages]
  rcases processMessage d.manager d.message with ex | -
  · cases ex <;> rfl
  · rfl

theorem handles_cons {r r' : Text} {result : Except Thrown Unit} {acts : List Act} :
    Handles (.processMessage r' result :: acts) r ↔ r = r' ∧ handled result = true ∨ Handles acts r := by
  simp only [Handles, List.mem_cons, Act.processMessage.injEq, and_or_left, exists_or]
  refine or_congr_left ⟨?_, ?_⟩
  · intro h
    obtain ⟨result', hhandled, hr, hresult⟩ := h
    exact ⟨hr, hresult ▸ hhandled⟩
  · intro h
    exact ⟨result, h.2, h.1, rfl⟩

/-- What the calls for messages add: the receipts of those that are handled, and no deletion. -/
theorem processMessages_spec (messages : List Delivery) (s : St) :
    ∃ acts, (processMessages messages s).2.acts = s.acts ++ acts ∧ (∀ r deletion, .deleteMessage r deletion ∉ acts) ∧
      ∀ r, r ∈ (processMessages messages s).2.messageReceipts ↔ r ∈ s.messageReceipts ∨ Handles acts r := by
  induction messages generalizing s with
  | nil => exact ⟨[], (List.append_nil _).symm, nofun, by simp [processMessages, Handles]⟩
  | cons d messages ih =>
    rw [processMessages_cons]
    simp only
    generalize processMessage d.manager d.message = result
    split
    · rename_i hhandled
      obtain ⟨acts, hacts, hdelete, hmem⟩ := ih ⟨insert d.message.receiptHandle s.messageReceipts,
        s.acts ++ [.processMessage d.message.receiptHandle result]⟩
      refine ⟨.processMessage d.message.receiptHandle result :: acts, ?_, by simpa using hdelete, fun r => ?_⟩
      · rw [hacts, List.append_assoc, List.singleton_append]
      · rw [hmem, Finset.mem_insert]
        rw [handles_cons, and_iff_left hhandled, or_assoc, or_left_comm]
    · rename_i hhandled
      refine ⟨[.processMessage d.message.receiptHandle result], rfl, by simp, fun r => ?_⟩
      rw [handles_cons]
      simp [hhandled, Handles]

/-- A call deletes first; the rest of it adds the receipts of what it handles, and no deletion. -/
theorem processQueue_after (c : Call) (s : St) :
    ∃ acts, (processQueue c s).2.acts = (deleteMessages c.deleteMessage c.order s).2.acts ++ acts ∧
      (∀ r deletion, .deleteMessage r deletion ∉ acts) ∧
      ∀ r, r ∈ (processQueue c s).2.messageReceipts ↔
        r ∈ (deleteMessages c.deleteMessage c.order s).2.messageReceipts ∨ Handles acts r := by
  have hstop : ∀ s : St, ∃ acts, s.acts = s.acts ++ acts ∧ (∀ r deletion, .deleteMessage r deletion ∉ acts) ∧
      ∀ r, r ∈ s.messageReceipts ↔ r ∈ s.messageReceipts ∨ Handles acts r := fun s =>
    ⟨[], (List.append_nil _).symm, nofun, by simp [Handles]⟩
  unfold processQueue
  split
  · rename_i ex s' hdelete
    rw [hdelete]
    exact hstop s'
  · rename_i s' hdelete
    rw [hdelete]
    split
    · exact hstop s'
    · split
      · exact hstop s'
      · rename_i messages _
        have hspec := processMessages_spec messages s'
        split
        · rename_i hmessages
          rw [hmessages] at hspec
          exact hspec
        · rename_i hmessages
          rw [hmessages] at hspec
          exact hspec

theorem processQueue_spec (c : Call) (receipts : Finset Text) :
    (∀ r deletion, .deleteMessage r deletion ∈ (processQueue c ⟨receipts, []⟩).2.acts ↔
        r ∈ tried c.deleteMessage c.order ∧ deletion = c.deleteMessage r) ∧
      ∀ r, r ∈ (processQueue c ⟨receipts, []⟩).2.messageReceipts ↔
        Handles (processQueue c ⟨receipts, []⟩).2.acts r ∨ r ∈ receipts ∧ Leaves (processQueue c ⟨receipts, []⟩).2.acts r := by
  obtain ⟨acts, hacts, hdelete, hmem⟩ := processQueue_after c ⟨receipts, []⟩
  rw [deleteMessages_acts, List.nil_append] at hacts
  have hdeletes : ∀ r deletion, .deleteMessage r deletion ∈ (processQueue c ⟨receipts, []⟩).2.acts ↔
      r ∈ tried c.deleteMessage c.order ∧ deletion = c.deleteMessage r := by
    intro r deletion
    rw [hacts, List.mem_append, or_iff_left (hdelete r deletion), List.mem_map]
    constructor
    · intro h
      obtain ⟨r', hr', heq⟩ := h
      cases heq
      exact ⟨hr', rfl⟩
    · intro h
      exact ⟨r, h.1, by rw [h.2]⟩
  refine ⟨hdeletes, fun r => ?_⟩
  have hhandles : Handles (processQueue c ⟨receipts, []⟩).2.acts r ↔ Handles acts r := by
    rw [hacts]
    simp [Handles]
  have hleaves : Leaves (processQueue c ⟨receipts, []⟩).2.acts r ↔
      (r ∈ tried c.deleteMessage c.order → (c.deleteMessage r).retry = true) := by
    simp [Leaves, hdeletes]
  rw [hmem, mem_deleteMessages, hhandles, hleaves, or_comm]

theorem mem_of_mem_tried {receipts : List Text} {r : Text} (h : r ∈ tried deleteMessage receipts) : r ∈ receipts := by
  induction receipts with
  | nil => cases h
  | cons r' receipts ih =>
    rw [tried] at h
    split at h
    · exact List.mem_singleton.mp h ▸ List.mem_cons_self
    · rcases List.mem_cons.mp h with heq | htail
      · exact heq ▸ List.mem_cons_self
      · exact List.mem_cons_of_mem _ (ih htail)

/-- A call comes to all receipts unless one before the last fails with another exception. -/
theorem forall_tried_iff {receipts : List Text} (hnodup : receipts.Nodup) :
    (∀ r ∈ receipts, r ∈ tried deleteMessage receipts) ↔ ∀ r ∈ receipts.dropLast, deleteMessage r ≠ .other := by
  induction receipts with
  | nil => exact iff_of_true nofun nofun
  | cons r receipts ih =>
    obtain ⟨hnew, hnodup⟩ := List.nodup_cons.mp hnodup
    have ih := ih hnodup
    cases receipts with
    | nil =>
      rw [tried]
      split <;> simp [tried]
    | cons r' receipts =>
      rw [tried, List.dropLast_cons_cons, List.forall_mem_cons (l := r' :: receipts), List.forall_mem_cons (l := List.dropLast _)]
      split
      · rename_i hother
        refine iff_of_false (fun h => ?_) fun h => h.1 hother
        have hr' := List.mem_singleton.mp (h.2 r' List.mem_cons_self)
        exact hnew (hr' ▸ List.mem_cons_self)
      · rename_i hother
        rw [and_iff_right List.mem_cons_self, and_iff_right hother, ← ih]
        refine forall₂_congr fun x hx => ?_
        have hne : x ≠ r := fun heq => hnew (heq ▸ hx)
        rw [List.mem_cons, or_iff_right hne]

end Calls

/-! ## What a run does -/

/-- What the calls so far have done, by what happened to them. -/
structure Inv (cs : List Call) (m : Manager) : Prop where
  recorded : ∀ r, r ∈ m.messageReceipts ↔ Owed m.calls r
  justified : Justified m.calls
  retried : Retried m.calls ↔ ∀ c ∈ cs, c.Undisturbed

theorem start_inv : Inv [] start where
  recorded := fun r => iff_of_false (Finset.notMem_empty r) not_owed_nil
  justified := fun before call after h => by simp [start] at h
  retried := iff_of_true (fun before call after h => by simp [start] at h) nofun

theorem step_inv {cs : List Call} {m m' : Manager} {c : Call} (h : Inv cs m) (hs : step m c = some m') : Inv (cs ++ [c]) m' := by
  unfold step at hs
  split at hs
  swap
  · cases hs
  rename_i horder
  obtain ⟨hnodup, hreceipts⟩ := horder
  obtain ⟨hdeletes, hmem⟩ := processQueue_spec c m.messageReceipts
  cases hs
  have hrecorded : ∀ r, r ∈ c.order ↔ Owed m.calls r := by
    intro r
    rw [← h.recorded, ← hreceipts, List.mem_toFinset]
  refine ⟨fun r => ?_, ?_, ?_⟩
  · rw [hmem, owed_concat, h.recorded]
  · refine Runs.forall_split_concat.mpr ⟨h.justified, fun r deletion hdelete => ?_⟩
    exact (hrecorded r).mp (mem_of_mem_tried ((hdeletes r deletion).mp hdelete).1)
  · have hcall : (∀ r, Owed m.calls r → ∃ deletion, .deleteMessage r deletion ∈ (processQueue c ⟨m.messageReceipts, []⟩).2.acts) ↔
        c.Undisturbed := by
      refine Iff.trans (forall_congr' fun r => ?_) (forall_tried_iff hnodup)
      rw [← hrecorded]
      simp [hdeletes]
    rw [List.forall_mem_append, List.forall_mem_singleton, ← h.retried, ← hcall]
    exact Runs.forall_split_concat

theorem Justified.not_deleted {calls : List (List Act)} (h : Justified calls) {r : Text}
    (hthrew : ∀ call ∈ calls, ∀ result, .processMessage r result ∈ call → handled result = false) :
    ∀ call ∈ calls, ∀ deletion, .deleteMessage r deletion ∉ call := by
  intro call hcall deletion hdelete
  obtain ⟨before, after, hsplit⟩ := List.append_of_mem hcall
  obtain ⟨call', hbefore, result, hhandled, hmem⟩ := (h before call after hsplit r deletion hdelete).handled
  have hfalse := hthrew call' (hsplit ▸ List.mem_append_left _ hbefore) result hmem
  rw [hhandled] at hfalse
  cases hfalse

/-- The receipts that are recorded after any calls, the deletions among these, and when none is left
    out. -/
theorem deletes_owed {cs : List Call} {m : Manager} (hr : Runs.run step start cs = some m) :
    (∀ r, r ∈ m.messageReceipts ↔ Owed m.calls r) ∧
      Justified m.calls ∧
      (∀ r, (∀ call ∈ m.calls, ∀ result, .processMessage r result ∈ call → handled result = false) →
        ∀ call ∈ m.calls, ∀ deletion, .deleteMessage r deletion ∉ call) ∧
      (Retried m.calls ↔ ∀ c ∈ cs, c.Undisturbed) := by
  have h : Inv cs m := Runs.run_history start_inv (fun _ _ _ _ h hs => step_inv h hs) hr
  exact ⟨h.recorded, h.justified, fun r => h.justified.not_deleted, h.retried⟩

def addition (receiptHandle : Text) (result : Except Thrown Unit) : Delivery :=
  ⟨⟨receiptHandle, some "+1".toList, some "0-0-0-0-0".toList, some "add".toList⟩, fun _ => result⟩

/-- The directory is unavailable for the second message; the first deletion fails once. -/
def retriedOnce : List Call :=
  [⟨[], fun _ => .deleted, true, .ok [addition ['a'] (.ok ()), addition ['b'] (.error .directoryUnavailable)]⟩,
    ⟨[['a']], fun _ => .amazonServiceException .service, false, .ok []⟩,
    ⟨[['a']], fun _ => .deleted, false, .ok []⟩]

theorem deletes_owed_retried_once :
    Retried [[.processMessage ['a'] (.ok ()), .processMessage ['b'] (.error .directoryUnavailable)],
      [.deleteMessage ['a'] (.amazonServiceException .service)], [.deleteMessage ['a'] .deleted]] := by
  have hrun : Runs.run step start retriedOnce = some ⟨∅,
      [[.processMessage ['a'] (.ok ()), .processMessage ['b'] (.error .directoryUnavailable)],
        [.deleteMessage ['a'] (.amazonServiceException .service)], [.deleteMessage ['a'] .deleted]]⟩ := rfl
  refine (deletes_owed hrun).2.2.2.mpr ?_
  simp [retriedOnce, Call.Undisturbed]

/-- Two messages are handled, and the deletion of the first fails. -/
def disturbed : List Call :=
  [⟨[], fun _ => .deleted, true, .ok [addition ['a'] (.ok ()), addition ['b'] (.ok ())]⟩,
    ⟨[['a'], ['b']], fun r => if r = ['a'] then .other else .deleted, true, .ok []⟩]

theorem untried_after_failure :
    ∃ first, (Runs.run step start disturbed).map Manager.calls = some [first, [.deleteMessage ['a'] .other]] ∧ Owed [first] ['b'] := by
  refine ⟨[.processMessage ['a'] (.ok ()), .processMessage ['b'] (.ok ())], rfl, ?_⟩
  exact ⟨[], _, [], rfl, ⟨.ok (), rfl, by simp⟩, nofun⟩

end ContactDiscovery.Directory.DirectoryQueueManager
