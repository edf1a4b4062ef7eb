/-
  ContactDiscovery.Directory.UserSet — does a node's directory map follow the user set in Redis?

  An entry of the user set is a uuid with an address; the map, and the message a removal
  publishes, know the phone only. A completed call removes a list of users and then adds one
  (`effect`); the map agrees with the user set (`Agrees`) if it has exactly the phones of the
  entries, each with the uuid of one of its entries.

  Proved: `alwaysAgrees_iff`, along a run of completed calls the map always agrees with the user
  set if and only if every call that removes a user of some phone leaves no entry of that phone,
  or adds one (`KeepsPhones`). A phone that passes from one uuid to another and is then removed
  for the first one is lost, by two updates or by two chunks of a reconciliation
  (`new_owner_lost`).
-/

import ContactDiscovery.Directory.DirectoryManager

namespace ContactDiscovery.Directory.UserSet

open Lib Lib.Assoc Node
open Enclave (Phone Uuid)

variable {φ : Type} [LoadFactor φ]

/-! ## Runs of calls -/

inductive Call where
  | addUser (uuid : Uuid) (address : Text)
  | removeUser (uuid : Uuid) (address : Text)
  | reconcile (fromUuid toUuid : Option Uuid) (users : List User) (order : IterationOrder)
  | existsReconcile (users : List User) (order : IterationOrder)
  | deletesReconcile (users : List User) (order : IterationOrder)

def completed {α : Type} : Option (Except (ManagerError φ) α × Node φ) → Option (Node φ)
  | some (.ok _, n) => some n
  | _ => none

def step (n : Node φ) : Call → Option (Node φ)
  | .addUser uuid address => completed (n.addUser uuid address)
  | .removeUser uuid address => completed (n.removeUser uuid address)
  | .reconcile fromUuid toUuid users order => completed (n.reconcile fromUuid toUuid users order)
  | .existsReconcile users order => completed (n.existsReconcile users order)
  | .deletesReconcile users order => completed (n.deletesReconcile users order)

/-- The map has the phones of the entries, each with the uuid of one of its entries. -/
structure Agrees (n : Node φ) : Prop where
  phones : ∀ p, n.map p ≠ none ↔ ∃ u a, encodeUser u a ∈ n.redis.users ∧ parseAddress a = some p
  owner : ∀ p u, n.map p = some u → ∃ a, encodeUser u a ∈ n.redis.users ∧ parseAddress a = some p

/-! ## What a call removes and adds -/

/-- The users a call removes, and those it then adds. -/
def effect (n : Node φ) : Call → List User × List User
  | .addUser uuid address => ([], [(uuid, address)])
  | .removeUser uuid address => ([(uuid, address)], [])
  | .reconcile fromUuid toUuid users order =>
    if n.isReconciliationEnabled && !n.skipsData fromUuid && !(fromUuid.isNone && toUuid.isNone) then
      let usersInRange := DirectoryCache.getUsersInRange n.redis fromUuid toUuid
      (order.list (difference usersInRange users), order.list (difference users usersInRange))
    else ([], [])
  | .existsReconcile users order =>
    ([], order.list (difference users (DirectoryCache.getKnownUsers n.redis users)))
  | .deletesReconcile users order => (order.list (DirectoryCache.getKnownUsers n.redis users).dedup, [])

def entriesOf (r : Redis) : List User := (r.users.filterMap decodeUser).filter fun u => encodeUser u.1 u.2 ∈ r.users

/-- For each user removed, the call adds one of the same phone or leaves no entry of it. -/
def KeepsPhones (n : Node φ) (c : Call) : Prop :=
  ∀ r ∈ (effect n c).1, parseAddress r.2 ≠ none →
    (∃ a ∈ (effect n c).2, parseAddress a.2 = parseAddress r.2) ∨
      ∀ e ∈ entriesOf n.redis, parseAddress e.2 = parseAddress r.2 → e ∈ (effect n c).1

instance (n : Node φ) (c : Call) : Decidable (KeepsPhones n c) :=
  inferInstanceAs (Decidable (∀ r ∈ (effect n c).1, parseAddress r.2 ≠ none → _ ∨ _))

theorem mem_entriesOf {r : Redis} {u : User} : u ∈ entriesOf r ↔ encodeUser u.1 u.2 ∈ r.users := by
  rw [entriesOf, List.mem_filter, List.mem_filterMap, decide_eq_true_eq]
  exact ⟨fun h => h.2, fun h => ⟨⟨_, h, decodeUser_encodeUser u.1 u.2⟩, h⟩⟩

/-- A node before and after removing the users `R` and adding the users `A`. -/
structure Effect (R A : List User) (n n' : Node φ) : Prop where
  sound : Sound n'
  entries : ∀ x, x ∈ n'.redis.users ↔
    (x ∈ n.redis.users ∧ ∀ r ∈ R, parseAddress r.2 ≠ none → x ≠ encodeUser r.1 r.2) ∨ ∃ a ∈ A, x = encodeUser a.1 a.2
  map : ∀ p, n'.map p = (last? p (phonesOf A)).or (if last? p (phonesOf R) = none then n.map p else none)

omit [LoadFactor φ] in
theorem Effect.of {R A : List User} {n n₁ n' : Node φ} (hr : Removes R n n₁) (ha : Adds A n₁ n') : Effect R A n n' :=
  ⟨ha.sound, fun x => by rw [ha.entries, hr.entries], fun p => by rw [ha.map, hr.map]⟩

omit [LoadFactor φ] in
theorem Effect.refl {n : Node φ} (hn : Sound n) : Effect [] [] n n := Effect.of (Removes.nil hn) (Adds.nil hn)

omit [LoadFactor φ] in
theorem completed_eq_some {α : Type} {r : Option (Except (ManagerError φ) α × Node φ)} {n : Node φ}
    (h : completed r = some n) : ∃ v, r = some (.ok v, n) := by
  match r with
  | none => cases h
  | some (.error e, m) => cases h
  | some (.ok v, m) => cases h; exact ⟨v, rfl⟩

theorem reconcile_effect {n n' : Node φ} {fromUuid toUuid : Option Uuid} {users : List User} {order : IterationOrder}
    {b : Bool} (hn : Sound n) (h : n.reconcile fromUuid toUuid users order = some (.ok b, n')) :
    Effect (effect n (.reconcile fromUuid toUuid users order)).1 (effect n (.reconcile fromUuid toUuid users order)).2
      n n' := by
  simp only [reconcile] at h
  simp only [effect]
  split at h
  · rename_i hoff
    cases h
    rw [if_neg (by simp_all)]
    exact Effect.refl hn
  split at h
  · rename_i hskip
    cases h
    rw [if_neg (by simp_all)]
    exact Effect.refl hn
  split at h
  · rename_i hunbounded
    cases h
    rw [if_neg (by simp_all)]
    exact Effect.refl hn
  rename_i hoff hskip hunbounded
  rw [Bool.not_eq_true] at hoff hskip hunbounded
  rw [if_pos (by rw [hskip, hunbounded]; simpa using hoff)]
  split at h
  · cases h
  · cases h
  rename_i n₁ hrem
  split at h
  · cases h
  · cases h
  rename_i n₂ hadd
  cases h
  have hr := removeUsers_spec hn hrem
  have ha := addUsers_spec hr.sound hadd
  have he := Effect.of hr ha
  -- the mark of the last uuid is beside the user set
  refine ⟨he.sound, fun x => ?_, he.map⟩
  rw [← he.entries]
  cases toUuid <;> rfl

theorem step_effect {n n' : Node φ} {c : Call} (hn : Sound n) (h : step n c = some n') :
    Effect (effect n c).1 (effect n c).2 n n' := by
  cases c with
  | addUser uuid address =>
    obtain ⟨v, h⟩ := completed_eq_some h
    exact Effect.of (Removes.nil hn) (addUser_spec hn h)
  | removeUser uuid address =>
    obtain ⟨v, h⟩ := completed_eq_some h
    have hr := (removeUser_spec hn h).2
    exact Effect.of hr (Adds.nil hr.sound)
  | reconcile fromUuid toUuid users order =>
    obtain ⟨v, h⟩ := completed_eq_some h
    exact reconcile_effect hn h
  | existsReconcile users order =>
    obtain ⟨v, h⟩ := completed_eq_some h
    exact Effect.of (Removes.nil hn) (addUsers_spec hn h)
  | deletesReconcile users order =>
    obtain ⟨v, h⟩ := completed_eq_some h
    have hr := removeUsers_spec hn h
    exact Effect.of hr (Adds.nil hr.sound)

/-! ## Agreement -/

theorem last?_phonesOf_none {users : List User} {p : Phone} :
    last? p (phonesOf users) = none ↔ ∀ u ∈ users, parseAddress u.2 ≠ some p := by
  rw [last?_eq_none]
  constructor
  · intro h u hu hp
    exact h (p, u.1) (mem_phonesOf.mpr ⟨u.2, hu, hp⟩) rfl
  · intro h e he hep
    obtain ⟨a, ha, hp⟩ := mem_phonesOf.mp (show (e.1, e.2) ∈ phonesOf users from he)
    exact h (e.2, a) ha (hep ▸ hp)

omit [LoadFactor φ] in
theorem Effect.entry {R A : List User} {n n' : Node φ} (he : Effect R A n n') {u : Uuid} {a : Text} {p : Phone}
    (hp : parseAddress a = some p) :
    encodeUser u a ∈ n'.redis.users ↔ (encodeUser u a ∈ n.redis.users ∧ (u, a) ∉ R) ∨ (u, a) ∈ A := by
  rw [he.entries]
  refine or_congr (and_congr_right fun _ => ⟨fun h hr => ?_, fun h r hr _ heq => ?_⟩) ⟨fun ⟨x, hx, heq⟩ => ?_, fun h => ?_⟩
  · exact h (u, a) hr (by rw [hp]; simp) rfl
  · obtain ⟨rfl, rfl⟩ := encodeUser_inj heq
    exact h hr
  · obtain ⟨rfl, rfl⟩ := encodeUser_inj heq
    exact hx
  · exact ⟨(u, a), h, rfl⟩

/-- The phone is in the map with the uuid of an entry, or neither there nor in an entry. -/
def AgreesAt (n : Node φ) (p : Phone) : Prop :=
  (n.map p = none ∧ ∀ u a, encodeUser u a ∈ n.redis.users → parseAddress a ≠ some p) ∨
    ∃ u a, n.map p = some u ∧ encodeUser u a ∈ n.redis.users ∧ parseAddress a = some p

omit [LoadFactor φ] in
theorem agrees_iff_agreesAt {n : Node φ} : Agrees n ↔ ∀ p, AgreesAt n p := by
  constructor
  · intro h p
    cases hm : n.map p with
    | none => exact Or.inl ⟨hm, fun u a hmem hp => (h.phones p).mpr ⟨u, a, hmem, hp⟩ hm⟩
    | some u =>
      obtain ⟨a, hmem, hp⟩ := h.owner p u hm
      exact Or.inr ⟨u, a, hm, hmem, hp⟩
  · intro h
    refine ⟨fun p => ?_, fun p u hu => ?_⟩
    · rcases h p with ⟨hnone, hno⟩ | ⟨u, a, hsome, hmem, hp⟩
      · exact ⟨fun hne => absurd hnone hne, fun ⟨u, a, hmem, hp⟩ => absurd hp (hno u a hmem)⟩
      · exact ⟨fun _ => ⟨u, a, hmem, hp⟩, fun _ hnone => by rw [hsome] at hnone; cases hnone⟩
    · rcases h p with ⟨hnone, -⟩ | ⟨u', a, hsome, hmem, hp⟩
      · rw [hnone] at hu; cases hu
      · rw [hsome] at hu; cases hu
        exact ⟨a, hmem, hp⟩

section AgreesAt

variable {R A : List User} {n n' : Node φ} {p : Phone}

omit [LoadFactor φ] in
theorem Effect.agreesAt_added (he : Effect R A n n') (hA : last? p (phonesOf A) ≠ none) : AgreesAt n' p := by
  obtain ⟨u, hu⟩ := Option.ne_none_iff_exists'.mp hA
  obtain ⟨a, ha, hp⟩ := mem_phonesOf.mp (mem_of_last? hu)
  exact Or.inr ⟨u, a, by rw [he.map, hu]; rfl, (he.entry hp).mpr (Or.inr ha), hp⟩

omit [LoadFactor φ] in
theorem Effect.agreesAt_kept (he : Effect R A n n') (hA : last? p (phonesOf A) = none)
    (hR : last? p (phonesOf R) = none) (h : AgreesAt n p) : AgreesAt n' p := by
  have hmap : n'.map p = n.map p := by rw [he.map, hA, if_pos hR]; rfl
  have hentry : ∀ u a, parseAddress a = some p →
      (encodeUser u a ∈ n'.redis.users ↔ encodeUser u a ∈ n.redis.users) := by
    intro u a hp
    rw [he.entry hp]
    constructor
    · intro h
      exact h.elim (fun h => h.1) fun h => absurd hp (last?_phonesOf_none.mp hA _ h)
    · intro h
      exact Or.inl ⟨h, fun hr => last?_phonesOf_none.mp hR _ hr hp⟩
  rcases h with ⟨hnone, hno⟩ | ⟨u, a, hsome, hmem, hp⟩
  · exact Or.inl ⟨hmap.trans hnone, fun u a hmem hp => hno u a ((hentry u a hp).mp hmem) hp⟩
  · exact Or.inr ⟨u, a, hmap.trans hsome, (hentry u a hp).mpr hmem, hp⟩

omit [LoadFactor φ] in
/-- A phone the call removes and does not add: all its entries have to go. -/
theorem Effect.agreesAt_removed (he : Effect R A n n') (hA : last? p (phonesOf A) = none)
    (hR : last? p (phonesOf R) ≠ none) :
    AgreesAt n' p ↔ ∀ e ∈ entriesOf n.redis, parseAddress e.2 = some p → e ∈ R := by
  have hmap : n'.map p = none := by rw [he.map, hA, if_neg hR]; rfl
  constructor
  · intro h e hentry hp
    rcases h with ⟨-, hno⟩ | ⟨u, a, hsome, -⟩
    · by_contra hout
      exact hno e.1 e.2 ((he.entry hp).mpr (Or.inl ⟨mem_entriesOf.mp hentry, hout⟩)) hp
    · rw [hmap] at hsome; cases hsome
  · intro hall
    refine Or.inl ⟨hmap, fun u a hmem hp => ?_⟩
    rcases (he.entry hp).mp hmem with ⟨hold, hout⟩ | hadd
    · exact hout (hall (u, a) (mem_entriesOf.mpr hold) hp)
    · exact last?_phonesOf_none.mp hA _ hadd hp

omit [LoadFactor φ] in
/-- A node that agreed still does if and only if no phone of a removed user has an entry left
    without one being added. -/
theorem Effect.agrees_iff (he : Effect R A n n') (hn : Agrees n) :
    Agrees n' ↔ ∀ r ∈ R, parseAddress r.2 ≠ none → (∃ a ∈ A, parseAddress a.2 = parseAddress r.2) ∨
      ∀ e ∈ entriesOf n.redis, parseAddress e.2 = parseAddress r.2 → e ∈ R := by
  rw [agrees_iff_agreesAt]
  constructor
  · intro h r hr hvalid
    obtain ⟨p, hp⟩ := Option.ne_none_iff_exists'.mp hvalid
    rw [hp]
    by_cases hadds : ∃ a ∈ A, parseAddress a.2 = some p
    · exact Or.inl hadds
    · have hA : last? p (phonesOf A) = none := last?_phonesOf_none.mpr fun a ha hpa => hadds ⟨a, ha, hpa⟩
      have hR : last? p (phonesOf R) ≠ none := fun hnone => last?_phonesOf_none.mp hnone r hr hp
      exact Or.inr ((he.agreesAt_removed hA hR).mp (h p))
  · intro hkeep p
    by_cases hA : last? p (phonesOf A) = none
    swap
    · exact he.agreesAt_added hA
    by_cases hR : last? p (phonesOf R) = none
    · exact he.agreesAt_kept hA hR (agrees_iff_agreesAt.mp hn p)
    · rw [he.agreesAt_removed hA hR]
      rw [last?_phonesOf_none] at hR
      push Not at hR
      obtain ⟨r, hr, hp⟩ := hR
      have hor := hkeep r hr (by rw [hp]; simp)
      rw [hp] at hor
      exact hor.resolve_left fun ⟨a, ha, hpa⟩ => last?_phonesOf_none.mp hA a ha hpa

end AgreesAt

/-! ## Runs -/

theorem step_agrees_iff {n n' : Node φ} {c : Call} (hn : Sound n) (ha : Agrees n) (h : step n c = some n') :
    Agrees n' ↔ KeepsPhones n c :=
  (step_effect hn h).agrees_iff ha

/-- A node whose map agrees with the user set: along a run of completed calls it always does, if
    and only if every call keeps the phones it does not mean to remove. -/
theorem alwaysAgrees_iff {n₀ : Node φ} (hn : Sound n₀) (ha : Agrees n₀) (calls : List Call) :
    Runs.Always step Agrees n₀ calls ↔ Runs.Meets step KeepsPhones n₀ calls :=
  Runs.always_iff_meets (P := Agrees) (Q := Sound) (C := KeepsPhones)
    (fun _ _ _ ha hs hstep => ⟨step_agrees_iff hs ha hstep, (step_effect hs hstep).sound⟩) calls n₀ ha hn

def emptyNode : Node ℚ := ⟨true, ⟨[], none, false, []⟩, .eightSlots⟩

theorem emptyNode_sound : Sound emptyNode := DirectoryMap.eightSlots_sound

theorem emptyNode_agrees : Agrees emptyNode := by
  have hmap : emptyNode.map = fun _ => none := DirectoryMap.eightSlots_map
  refine ⟨fun p => ?_, fun p u hu => ?_⟩
  · rw [hmap]
    exact ⟨fun h => absurd rfl h, fun ⟨u, a, h, _⟩ => by cases h⟩
  · rw [hmap] at hu; cases hu

/-- Two phones come and go, and a chunk replaces the second by the first. -/
theorem alwaysAgrees_chunk :
    Runs.Always step Agrees emptyNode [.addUser ⟨fun _ => 1⟩ ['+', '1', '5'], .addUser ⟨fun _ => 2⟩ ['+', '1', '6'],
      .removeUser ⟨fun _ => 1⟩ ['+', '1', '5'],
      .reconcile none (some ⟨fun _ => 2⟩) [(⟨fun _ => 1⟩, ['1', '5'])] ⟨id, fun l => .refl l⟩] :=
  (alwaysAgrees_iff emptyNode_sound emptyNode_agrees _).mpr (by decide +kernel)

/-- A phone gets a second owner and is then removed for the first: by two updates, and by two
    chunks of a reconciliation of which the first has the new owner. -/
theorem new_owner_lost :
    Sound emptyNode ∧ Agrees emptyNode ∧ parseAddress ['+', '1', '5'] = some 15 ∧
      (Runs.run step emptyNode [.addUser ⟨fun _ => 1⟩ ['+', '1', '5'], .addUser ⟨fun _ => 2⟩ ['+', '1', '5'],
          .removeUser ⟨fun _ => 1⟩ ['+', '1', '5']]).map (fun n => (n.map 15, entriesOf n.redis)) =
        some (none, [(⟨fun _ => 2⟩, ['+', '1', '5'])]) ∧
      (Runs.run step emptyNode [.addUser ⟨fun _ => 2⟩ ['+', '1', '5'],
          .reconcile none (some ⟨fun _ => 1⟩) [(⟨fun _ => 1⟩, ['+', '1', '5'])] ⟨id, fun l => .refl l⟩,
          .reconcile (some ⟨fun _ => 1⟩) none [] ⟨id, fun l => .refl l⟩]).map (fun n => (n.map 15, entriesOf n.redis)) =
        some (none, [(⟨fun _ => 1⟩, ['+', '1', '5'])]) :=
  ⟨emptyNode_sound, emptyNode_agrees, by decide +kernel, by decide +kernel, by decide +kernel⟩

end ContactDiscovery.Directory.UserSet
