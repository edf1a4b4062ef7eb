/-
  ContactDiscovery.Directory.DirectoryMap — the two tables of a directory map
  (`directory_map_native.rs`): updates go to the building table and set a dirty flag, a commit
  swaps the tables and copies the new serving table back if the flag is set.

  Each call holds the building lock from start to end, so a run is a sequence of calls. A call
  that panics poisons the lock and ends the run.

  Proved: `commit_publishes`, the two tables map the same phones to the same uuids after every
  commit of a run in which, as long as nothing else is waiting to be published, no insert gives a
  phone in the table another uuid and no read fails past its header. Either of the two alone
  leaves the tables different after a commit (`commit_hides_changes`): an insert sets the flag
  only for a new key, and a failed read returns before it sets the flag.
-/

import ContactDiscovery.Directory.InternalBuffersProofs
import ContactDiscovery.Directory.Snapshot
import ContactDiscovery.Lib.Runs

namespace ContactDiscovery.Directory

open Lib
open Enclave (Phone Uuid)

variable {φ : Type} [LoadFactor φ]

structure DirectoryMap (φ : Type) where
  dirty : Bool
  building : InternalBuffers φ
  serving : InternalBuffers φ

namespace DirectoryMap

def new (startingCapacity : Nat) (minLoadFactor maxLoadFactor : φ) :
    Option (Except (InternalBuffersError φ) (DirectoryMap φ)) :=
  match InternalBuffers.new startingCapacity minLoadFactor maxLoadFactor with
  | none => none
  | some (.error e) => some (.error e)
  | some (.ok building) =>
    match InternalBuffers.new startingCapacity minLoadFactor maxLoadFactor with
    | none => none
    | some (.error e) => some (.error e)
    | some (.ok serving) => some (.ok ⟨false, building, serving⟩)

/-- The flag after a call on the building table with this answer. -/
def mark (dirty : Bool) : Except (InternalBuffersError φ) Bool → Bool
  | .ok true => true
  | _ => dirty

def insert (s : DirectoryMap φ) (e164 : Phone) (uuid : Uuid) :
    Option (Except (InternalBuffersError φ) Bool × DirectoryMap φ) :=
  match s.building.insert e164 uuid with
  | none => none
  | some (added, building) => some (added, { s with building, dirty := mark s.dirty added })

def remove (s : DirectoryMap φ) (e164 : Phone) : Option (Except (InternalBuffersError φ) Bool × DirectoryMap φ) :=
  match s.building.remove e164 with
  | none => none
  | some (removed, building) => some (removed, { s with building, dirty := mark s.dirty removed })

def commit (s : DirectoryMap φ) : Option (Except (InternalBuffersError φ) Bool × DirectoryMap φ) :=
  if !s.dirty then some (.ok false, s)
  else
    let serving := s.building
    match s.serving.copyFrom serving with
    | none => none
    | some building => some (.ok true, ⟨false, building, serving⟩)

/-- `read_from` over an `impl Read`, given by its `read_exact`. -/
def readFromBy {R : Type} (readExact : Nat → R → List Byte × R × Option IoErrorKind) (s : DirectoryMap φ) (read : R) :
    Except (InternalBuffersError φ) Unit × DirectoryMap φ × R :=
  match s.building.readFromBy readExact read with
  | (.error e, building, read) => (.error e, { s with building }, read)
  | (.ok (), building, read) => (.ok (), { s with building, dirty := true }, read)

/-- `read_from` over the stream's own reads. -/
def readFrom (s : DirectoryMap φ) (stream : List Response) : Except (InternalBuffersError φ) Unit × DirectoryMap φ :=
  let (r, s, _) := s.readFromBy readExact stream
  (r, s)

omit [LoadFactor φ] in
theorem readFrom_eq (s : DirectoryMap φ) (stream : List Response) :
    s.readFrom stream = ((s.building.readFrom stream).1,
      { s with building := (s.building.readFrom stream).2, dirty := s.dirty || (s.building.readFrom stream).1.isOk }) := by
  unfold readFrom readFromBy InternalBuffers.readFrom
  rcases s.building.readFromBy readExact stream with ⟨_ | _, building, rest⟩
  · simp only [Except.isOk, Except.toBool, Bool.or_false]
  · simp only [Except.isOk, Except.toBool, Bool.or_true]

/-! ## Runs -/

inductive Call where
  | insert (e164 : Phone) (uuid : Uuid)
  | remove (e164 : Phone)
  | readFrom (stream : List Response)
  | commit

def step (s : DirectoryMap φ) : Call → Option (DirectoryMap φ)
  | .insert e164 uuid => (s.insert e164 uuid).map (·.2)
  | .remove e164 => (s.remove e164).map (·.2)
  | .readFrom stream => some (s.readFrom stream).2
  | .commit => s.commit.map (·.2)

/-- The tables map the same phones to the same uuids. -/
def Published (s : DirectoryMap φ) : Prop := s.serving.lookup = s.building.lookup

/-- The read fails past its header, when the building table has been cleared. -/
def failsPastHeader (s : DirectoryMap φ) (stream : List Response) : Bool :=
  (readHeader readExact stream).1.isOk && !(s.building.readFrom stream).1.isOk

/-- With no change waiting to be published, an insert is of a new phone or repeats the uuid the
    phone has, and a read does not fail past its header. -/
def Flagged (s : DirectoryMap φ) : Call → Prop
  | .insert e164 uuid => s.dirty = true ∨ s.building.lookup e164 = none ∨ s.building.lookup e164 = some uuid
  | .readFrom stream => s.dirty = true ∨ s.failsPastHeader stream = false
  | .remove _ | .commit => True

instance (s : DirectoryMap φ) : ∀ c, Decidable (Flagged s c)
  | .insert _ _ => inferInstanceAs (Decidable (_ ∨ _))
  | .readFrom _ => inferInstanceAs (Decidable (_ ∨ _))
  | .remove _ => .isTrue trivial
  | .commit => .isTrue trivial

/-! ## The flag covers every difference -/

def Inv (s : DirectoryMap φ) : Prop := s.dirty = true ∨ Published s

theorem new_inv {startingCapacity : Nat} {minLoadFactor maxLoadFactor : φ} {s : DirectoryMap φ}
    (h : new startingCapacity minLoadFactor maxLoadFactor = some (.ok s)) : Inv s := by
  cases hb : InternalBuffers.new startingCapacity minLoadFactor maxLoadFactor with
  | none => simp [new, hb] at h
  | some r =>
    cases r with
    | error e => simp [new, hb] at h
    | ok t =>
      simp only [new, hb, Option.some.injEq, Except.ok.injEq] at h
      subst h
      exact Or.inr rfl

omit [LoadFactor φ] in
theorem copyFrom_eq {t src t' : InternalBuffers φ} (h : t.copyFrom src = some t') : t' = src := by
  simp only [InternalBuffers.copyFrom, Option.ite_none_right_eq_some] at h
  exact (Option.some.inj h.2).symm

omit [LoadFactor φ] in
theorem mark_cases (dirty : Bool) (r : Except (InternalBuffersError φ) Bool) :
    mark dirty r = true ∨ (r ≠ .ok true ∧ mark dirty r = dirty) := by
  match r with
  | .ok true => exact Or.inl rfl
  | .ok false => exact Or.inr ⟨by simp, rfl⟩
  | .error e => exact Or.inr ⟨by simp, rfl⟩

omit [LoadFactor φ] in
theorem commit_published {s s' : DirectoryMap φ} {r : Except (InternalBuffersError φ) Bool} (hs : Inv s)
    (h : s.commit = some (r, s')) : Published s' := by
  simp only [commit] at h
  split at h
  · rename_i hclean
    cases h
    exact hs.resolve_left (by simpa using hclean)
  · split at h
    · cases h
    · rename_i building hcopy
      cases h
      rw [Published, copyFrom_eq hcopy]

omit [LoadFactor φ] in
theorem readFrom_header {s : DirectoryMap φ} {stream : List Response} (h : s.failsPastHeader stream = false)
    (hfails : (s.building.readFrom stream).1.isOk = false) : (s.building.readFrom stream).2 = s.building := by
  rcases hh : readHeader readExact stream with ⟨_ | header, rest⟩
  · simp only [InternalBuffers.readFrom, InternalBuffers.readFromBy, hh]
  · rw [failsPastHeader, hh, hfails] at h
    cases h

theorem step_inv {s s' : DirectoryMap φ} {c : Call} (hs : Inv s) (hc : Flagged s c) (h : s.step c = some s') :
    Inv s' := by
  cases c with
  | insert e164 uuid =>
    obtain ⟨⟨r, s₁⟩, hi, rfl⟩ := Option.map_eq_some_iff.mp h
    simp only [insert] at hi
    split at hi
    · cases hi
    rename_i building hb
    cases hi
    rcases mark_cases s.dirty r with hm | ⟨hr, hm⟩
    · exact Or.inl hm
    · -- nothing was added, so the flag stays: it was set, or the map has not changed
      rcases hs with hd | hp
      · exact Or.inl (hm.trans hd)
      · rcases hc with hd | hu
        · exact Or.inl (hm.trans hd)
        · exact Or.inr (hp.trans (InternalBuffers.insert_unadded hb hr hu).symm)
  | remove e164 =>
    obtain ⟨⟨r, s₁⟩, hi, rfl⟩ := Option.map_eq_some_iff.mp h
    simp only [remove] at hi
    split at hi
    · cases hi
    rename_i building hb
    cases hi
    rcases mark_cases s.dirty r with hm | ⟨hr, hm⟩
    · exact Or.inl hm
    · rcases hs with hd | hp
      · exact Or.inl (hm.trans hd)
      · exact Or.inr (hp.trans (InternalBuffers.remove_unremoved hb hr).symm)
  | readFrom stream =>
    have heq : s' = (s.readFrom stream).2 := (Option.some.inj h).symm
    rw [heq, readFrom_eq]
    cases hok : (s.building.readFrom stream).1.isOk with
    | true => exact Or.inl (Bool.or_true _)
    | false =>
      rw [Bool.or_false]
      rcases hc with hd | hfail
      · exact Or.inl hd
      · rw [readFrom_header hfail hok]
        exact hs
  | commit =>
    obtain ⟨⟨r, s₁⟩, hi, rfl⟩ := Option.map_eq_some_iff.mp h
    exact Or.inr (commit_published hs hi)

/-- After every commit of a run whose calls are all flagged, the tables map the same phones to the
    same uuids. -/
theorem commit_publishes {startingCapacity : Nat} {minLoadFactor maxLoadFactor : φ} {s₀ s s' : DirectoryMap φ}
    {calls : List Call} {r : Except (InternalBuffersError φ) Bool}
    (hnew : new startingCapacity minLoadFactor maxLoadFactor = some (.ok s₀))
    (hcalls : Runs.Meets step Flagged s₀ calls) (hrun : Runs.run step s₀ calls = some s)
    (hcommit : s.commit = some (r, s')) : s'.serving.lookup = s'.building.lookup := by
  have halways := Runs.always_of_inv (P := Inv) (fun s c s' => step_inv) calls s₀ (new_inv hnew) hcalls
  exact commit_published (halways.run calls s₀ s hrun) hcommit

def eightSlots : DirectoryMap ℚ :=
  let t : InternalBuffers ℚ := ⟨1 / 4, 3 / 4, 0, 0, List.replicate 8 FREE_E164, List.replicate 8 FREE_UUID⟩
  ⟨false, t, t⟩

theorem new_eightSlots : new 8 (1 / 4) (3 / 4) = some (.ok eightSlots) := by
  have ht := @InternalBuffers.new_ok ℚ _ 8 (1 / 4) (3 / 4) (by decide +kernel) (by decide +kernel) (by decide +kernel)
    (by decide)
  simp only [new, ht]; rfl

theorem commit_publishes_flagged :
    ∃ s s' : DirectoryMap ℚ,
      Runs.run step eightSlots [.insert 5 ⟨fun _ => 1⟩, .insert 5 ⟨fun _ => 2⟩, .commit, .insert 5 ⟨fun _ => 2⟩,
        .readFrom [.fail], .insert 6 ⟨fun _ => 3⟩] = some s ∧
      s.commit = some (.ok true, s') ∧ s'.serving.lookup = s'.building.lookup := by
  have hrun : ((Runs.run step eightSlots [.insert 5 ⟨fun _ => 1⟩, .insert 5 ⟨fun _ => 2⟩, .commit,
      .insert 5 ⟨fun _ => 2⟩, .readFrom [.fail], .insert 6 ⟨fun _ => 3⟩]).bind commit).map (·.1) = some (.ok true) := by
    decide +kernel
  obtain ⟨⟨r, s'⟩, hcommit, rfl⟩ := Option.map_eq_some_iff.mp hrun
  obtain ⟨s, hrun, hcommit⟩ := Option.bind_eq_some_iff.mp hcommit
  exact ⟨s, s', hrun, hcommit, commit_publishes new_eightSlots (by decide +kernel) hrun hcommit⟩

/-- A phone gets another uuid, or a read fails after its header, right after a commit: the next
    commit finds nothing to publish, and lookups keep the old answer. -/
theorem commit_hides_changes :
    new 8 (1 / 4) (3 / 4) = some (.ok eightSlots) ∧
      (Runs.run step eightSlots [.insert 5 ⟨fun _ => 1⟩, .commit, .insert 5 ⟨fun _ => 2⟩, .commit]).map
        (fun s => (s.serving.lookup 5, s.building.lookup 5)) = some (some ⟨fun _ => 1⟩, some ⟨fun _ => 2⟩) ∧
      (Runs.run step eightSlots [.insert 5 ⟨fun _ => 1⟩, .commit,
          .readFrom [.data [0, 0, 0, 1, 0, 0, 0, 0, 0, 0, 0, 0]], .commit]).map
        (fun s => (s.serving.lookup 5, s.building.lookup 5)) = some (some ⟨fun _ => 1⟩, none) :=
  ⟨new_eightSlots, by decide +kernel, by decide +kernel⟩

end DirectoryMap

end ContactDiscovery.Directory
