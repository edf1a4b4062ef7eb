/-
  ContactDiscovery.Lib.Locked — threads that share a state behind one lock.

  What a thread does while it holds the lock is a `Body`: from its input it gets to what it keeps for
  itself, and each access goes on from there and the shared state, until it has an output. Between two
  accesses any other thread may move. `Body.Seq` runs whole bodies, one after another.

  Proved: `linearizable`, whatever the order in which the threads move, the bodies that have ended are a
  sequential run in the order of their releases; while nobody holds the lock, the shared state is the one
  after that run (`Seq.eq`, for bodies that compute a function). `calls_of_thread`, each call of a thread is in it once, in the order of its calls.
-/

import ContactDiscovery.Lib.Runs
import Mathlib.Logic.Function.Basic
import Mathlib.Tactic.Cases

namespace ContactDiscovery.Lib.Locked

inductive Access (σ l ο : Type) where
  | next (here : l) (shared : σ)
  | done (output : ο)

/-- The accesses of a thread that holds the lock. -/
structure Body (σ ι l ο : Type) where
  enter : ι → l
  access : l → σ → Access σ l ο

namespace Body

variable {σ ι l ο : Type} (B : Body σ ι l ο)

/-- Some accesses with no other thread between them. -/
inductive Reaches : l → σ → l → σ → Prop
  | refl (here : l) (shared : σ) : Reaches here shared here shared
  | step {here mid after : l} {shared midShared endShared : σ} :
      Reaches here shared mid midShared → B.access mid midShared = .next after endShared → Reaches here shared after endShared

def Runs (input : ι) (shared : σ) (output : ο) (after : σ) : Prop :=
  ∃ here, B.Reaches (B.enter input) shared here after ∧ B.access here after = .done output

/-- Whole bodies in turn. -/
inductive Seq {T : Type} (start : σ) : List (T × ι × ο) → σ → Prop
  | nil : Seq start [] start
  | concat {calls : List (T × ι × ο)} {mid after : σ} {t : T} {input : ι} {output : ο} :
      Seq start calls mid → B.Runs input mid output after → Seq start (calls ++ [(t, input, output)]) after

/-! ### Bodies that compute a function -/

/-- The body computes `f`, from the input and the shared state. -/
def Computes (f : σ → ι → ο × σ) : Prop := ∀ input shared output after, B.Runs input shared output after → (output, after) = f shared input

/-- By what holds between two accesses, of the input and the state that was found. -/
theorem computes_of_inv {B : Body σ ι l ο} {f : σ → ι → ο × σ} {P : ι → σ → l → σ → Prop} (henter : ∀ input found, P input found (B.enter input) found)
    (hnext : ∀ input found here shared after next, P input found here shared → B.access here shared = .next after next →
      P input found after next)
    (hdone : ∀ input found here shared output, P input found here shared → B.access here shared = .done output →
      (output, shared) = f found input) : B.Computes f := by
  rintro input found output after ⟨here, hreach, hacc⟩
  refine hdone input found here after output ?_ hacc
  clear hacc
  induction hreach with
  | refl => exact henter input _
  | step _ hacc ih => exact hnext _ _ _ _ _ _ ih hacc

def final (f : σ → ι → ο × σ) (shared : σ) (inputs : List ι) : σ := inputs.foldl (fun shared input => (f shared input).2) shared

def outputs (f : σ → ι → ο × σ) : σ → List ι → List ο
  | _, [] => []
  | shared, input :: inputs => (f shared input).1 :: outputs f (f shared input).2 inputs

theorem final_concat (f : σ → ι → ο × σ) (shared : σ) (inputs : List ι) (input : ι) :
    final f shared (inputs ++ [input]) = (f (final f shared inputs) input).2 := List.foldl_append

theorem outputs_concat (f : σ → ι → ο × σ) (shared : σ) (inputs : List ι) (input : ι) :
    outputs f shared (inputs ++ [input]) = outputs f shared inputs ++ [(f (final f shared inputs) input).1] := by
  induction inputs generalizing shared with
  | nil => rfl
  | cons first inputs ih =>
    rw [List.cons_append, outputs, outputs, ih]
    rfl

/-- A sequential run of such bodies. -/
theorem Seq.eq {B : Body σ ι l ο} {f : σ → ι → ο × σ} (hf : B.Computes f) {T : Type} {start after : σ} {calls : List (T × ι × ο)}
    (h : B.Seq start calls after) :
    calls.map (·.2.2) = outputs f start (calls.map (·.2.1)) ∧ after = final f start (calls.map (·.2.1)) := by
  induction h with
  | nil => exact ⟨rfl, rfl⟩
  | @concat calls mid after t input output _ hrun ih =>
    obtain ⟨hout, hmid⟩ := ih
    have hlast := hf input mid output after hrun
    rw [hmid] at hlast
    rw [List.map_append, List.map_append, List.map_singleton, List.map_singleton, outputs_concat, final_concat, hout]
    exact ⟨congrArg (fun x => _ ++ [x]) (congrArg Prod.fst hlast), congrArg Prod.snd hlast⟩

end Body

inductive Pc (ι l ο : Type) where
  | idle
  | waiting (input : ι)
  | inside (input : ι) (here : l)
  /-- The body is done, and the lock still held. -/
  | leaving (input : ι) (output : ο)
  | returned (output : ο)

def Pc.holds {ι l ο : Type} : Pc ι l ο → Bool
  | .inside _ _ | .leaving _ _ => true
  | _ => false

/-- The input of a call that has not ended. -/
def Pc.pending {ι l ο : Type} : Pc ι l ο → List ι
  | .waiting input | .inside input _ | .leaving input _ => [input]
  | _ => []

structure St (T σ ι l ο : Type) where
  lock : Bool
  shared : σ
  pc : T → Pc ι l ο
  /-- The calls that released the lock, which no thread reads. -/
  calls : List (T × ι × ο)

inductive Ev (T ι : Type) where
  | call (t : T) (input : ι)
  | acquire (t : T)
  | access (t : T)
  | release (t : T)
  | leave (t : T)

section Machine

variable {T σ ι l ο : Type} [DecidableEq T]

def init (shared : σ) : St T σ ι l ο := ⟨false, shared, fun _ => .idle, []⟩

def St.at (s : St T σ ι l ο) (t : T) (pc : Pc ι l ο) : St T σ ι l ο := { s with pc := Function.update s.pc t pc }

def step (B : Body σ ι l ο) (s : St T σ ι l ο) : Ev T ι → Option (St T σ ι l ο)
  | .call t input =>
    match s.pc t with
    | .idle => some (s.at t (.waiting input))
    | _ => none
  | .acquire t =>
    match s.pc t, s.lock with
    | .waiting input, false => some ({ s with lock := true }.at t (.inside input (B.enter input)))
    | _, _ => none
  | .access t =>
    match s.pc t with
    | .inside input here =>
      match B.access here s.shared with
      | .next after shared => some ({ s with shared := shared }.at t (.inside input after))
      | .done output => some (s.at t (.leaving input output))
    | _ => none
  | .release t =>
    match s.pc t with
    | .leaving input output => some ({ s with lock := false, calls := s.calls ++ [(t, input, output)] }.at t (.returned output))
    | _ => none
  | .leave t =>
    match s.pc t with
    | .returned _ => some (s.at t .idle)
    | _ => none

@[simp] theorem at_lock (s : St T σ ι l ο) (t : T) (pc : Pc ι l ο) : (s.at t pc).lock = s.lock := rfl
@[simp] theorem at_shared (s : St T σ ι l ο) (t : T) (pc : Pc ι l ο) : (s.at t pc).shared = s.shared := rfl
@[simp] theorem at_calls (s : St T σ ι l ο) (t : T) (pc : Pc ι l ο) : (s.at t pc).calls = s.calls := rfl
@[simp] theorem at_pc_same (s : St T σ ι l ο) (t : T) (pc : Pc ι l ο) : (s.at t pc).pc t = pc := Function.update_self ..
@[simp] theorem at_pc_ne (s : St T σ ι l ο) {t u : T} (pc : Pc ι l ο) (h : u ≠ t) : (s.at t pc).pc u = s.pc u :=
  Function.update_of_ne h ..

/-! ## The order of the releases -/

/-- How far the holder's body is, from the state in which it got the lock. -/
def Progress (B : Body σ ι l ο) (before shared : σ) : Pc ι l ο → Prop
  | .inside input here => B.Reaches (B.enter input) before here shared
  | .leaving input output => B.Runs input before output shared
  | _ => False

/-- Nobody holds the lock, or one thread does and is on its way from the state before. -/
inductive Inv (B : Body σ ι l ο) (start : σ) (s : St T σ ι l ο) : Prop
  | free : s.lock = false → (∀ t, (s.pc t).holds = false) → B.Seq start s.calls s.shared → Inv B start s
  | held (t : T) (before : σ) : s.lock = true → (∀ u, u ≠ t → (s.pc u).holds = false) → B.Seq start s.calls before →
      Progress B before s.shared (s.pc t) → Inv B start s

omit [DecidableEq T] in
theorem init_inv (B : Body σ ι l ο) (start : σ) : Inv B start (init start : St T σ ι l ο) :=
  .free rfl (fun _ => rfl) .nil

/-- A thread that holds the lock is the one that is on its way. -/
theorem Inv.holder {B : Body σ ι l ο} {start : σ} {s : St T σ ι l ο} {t : T} (h : Inv B start s) (ht : (s.pc t).holds = true) :
    ∃ before, s.lock = true ∧ (∀ u, u ≠ t → (s.pc u).holds = false) ∧ B.Seq start s.calls before ∧
      Progress B before s.shared (s.pc t) := by
  cases h with
  | free _ hnone _ => rw [hnone t] at ht; cases ht
  | held u before hlock hothers hseq hprog =>
    have hu : t = u := by
      by_contra hne
      rw [hothers t hne] at ht
      cases ht
    subst hu
    exact ⟨before, hlock, hothers, hseq, hprog⟩

theorem Inv.outside {B : Body σ ι l ο} {start : σ} {s : St T σ ι l ο} {t : T} {pc : Pc ι l ο} (h : Inv B start s)
    (ht : (s.pc t).holds = false) (hpc : pc.holds = false) : Inv B start (s.at t pc) := by
  have hsame : ∀ u, (s.pc u).holds = false → ((s.at t pc).pc u).holds = false := by
    intro u hu
    by_cases hne : u = t
    · subst hne; rw [at_pc_same]; exact hpc
    · rw [at_pc_ne s pc hne]; exact hu
  cases h with
  | free hlock hnone hseq => exact .free hlock (fun u => hsame u (hnone u)) hseq
  | held u before hlock hothers hseq hprog =>
    have hne : u ≠ t := by
      intro hut
      subst hut
      cases hu : s.pc u <;> rw [hu] at ht hprog <;> first | exact hprog | cases ht
    refine .held u before hlock (fun v hv => hsame v (hothers v hv)) hseq ?_
    rw [at_pc_ne s pc hne]
    exact hprog

theorem Inv.inside {B : Body σ ι l ο} {start before : σ} {s : St T σ ι l ο} {t : T} {pc : Pc ι l ο} (hlock : s.lock = true)
    (hothers : ∀ u, u ≠ t → (s.pc u).holds = false) (hseq : B.Seq start s.calls before) (hprog : Progress B before s.shared pc) :
    Inv B start (s.at t pc) := by
  refine .held t before hlock (fun u hu => ?_) hseq ?_
  · rw [at_pc_ne s pc hu]; exact hothers u hu
  · rw [at_pc_same]; exact hprog

theorem step_inv {B : Body σ ι l ο} {start : σ} {s s' : St T σ ι l ο} {e : Ev T ι} (h : Inv B start s) (hs : step B s e = some s') :
    Inv B start s' := by
  cases e with
  | call t input =>
    simp only [step] at hs
    split at hs
    · rename_i hpc
      cases hs
      exact h.outside (by rw [hpc]; rfl) rfl
    · cases hs
  | acquire t =>
    simp only [step] at hs
    split at hs
    · rename_i input hpc hlock
      cases hs
      cases h with
      | free _ hnone hseq => exact .inside rfl (fun u _ => hnone u) hseq (.refl _ _)
      | held u before hheld _ _ _ => rw [hlock] at hheld; cases hheld
    · cases hs
  | access t =>
    simp only [step] at hs
    split at hs
    · rename_i input here hpc
      obtain ⟨before, hlock, hothers, hseq, hprog⟩ := h.holder (t := t) (by rw [hpc]; rfl)
      rw [hpc] at hprog
      split at hs
      · rename_i after shared hacc
        cases hs
        exact Inv.inside hlock hothers hseq (.step hprog hacc)
      · rename_i output hacc
        cases hs
        exact Inv.inside hlock hothers hseq ⟨here, hprog, hacc⟩
    · cases hs
  | release t =>
    simp only [step] at hs
    split at hs
    · rename_i input output hpc
      obtain ⟨before, hlock, hothers, hseq, hprog⟩ := h.holder (t := t) (by rw [hpc]; rfl)
      rw [hpc] at hprog
      cases hs
      refine .free rfl (fun u => ?_) (.concat hseq hprog)
      by_cases hne : u = t
      · subst hne; rw [at_pc_same]; rfl
      · rw [at_pc_ne _ _ hne]; exact hothers u hne
    · cases hs
  | leave t =>
    simp only [step] at hs
    split at hs
    · rename_i output hpc
      cases hs
      exact h.outside (by rw [hpc]; rfl) rfl
    · cases hs

theorem run_inv {B : Body σ ι l ο} {start : σ} {es : List (Ev T ι)} {s : St T σ ι l ο}
    (hr : Runs.run (step B) (init start) es = some s) : Inv B start s :=
  Runs.run_of_inv (fun _ _ _ => step_inv) (init_inv B start) hr

/-- The bodies that have ended are a sequential run; while nobody holds the lock, it ends in the shared state. -/
theorem linearizable {B : Body σ ι l ο} {start : σ} {es : List (Ev T ι)} {s : St T σ ι l ο}
    (hr : Runs.run (step B) (init start) es = some s) :
    ∃ after, B.Seq start s.calls after ∧ ((∀ t, (s.pc t).holds = false) → s.shared = after) := by
  cases run_inv hr with
  | free _ _ hseq => exact ⟨_, hseq, fun _ => rfl⟩
  | held t before _ _ hseq hprog =>
    refine ⟨before, hseq, fun hnone => ?_⟩
    have ht := hnone t
    cases hpc : s.pc t <;> rw [hpc] at ht hprog <;> first | exact hprog.elim | cases ht

/-! ## The calls of a thread -/

def callsBy (t : T) : List (Ev T ι) → List ι :=
  List.filterMap fun
    | .call u input => if u = t then some input else none
    | _ => none

def endedBy (t : T) (calls : List (T × ι × ο)) : List ι := (calls.filter (·.1 = t)).map (·.2.1)

def lastOutput (t : T) (calls : List (T × ι × ο)) : Option ο := ((calls.filter (·.1 = t)).getLast?).map (·.2.2)

/-- A thread's calls so far: those that have ended and the one it is in. -/
structure Own (t : T) (es : List (Ev T ι)) (s : St T σ ι l ο) : Prop where
  calls : callsBy t es = endedBy t s.calls ++ (s.pc t).pending
  last : ∀ output, s.pc t = .returned output → lastOutput t s.calls = some output

def Ev.thread : Ev T ι → T
  | .call t _ | .acquire t | .access t | .release t | .leave t => t

theorem callsBy_concat {t : T} {e : Ev T ι} (h : ∀ input, e ≠ .call t input) (es : List (Ev T ι)) :
    callsBy t (es ++ [e]) = callsBy t es := by
  rw [callsBy, List.filterMap_append]
  cases e with
  | call u input =>
    have hne : u ≠ t := fun hu => h input (by rw [hu])
    simp only [List.filterMap_cons, if_neg hne, List.filterMap_nil, List.append_nil]
  | _ => exact List.append_nil _

theorem callsBy_call (t : T) (input : ι) (es : List (Ev T ι)) : callsBy t (es ++ [.call t input]) = callsBy t es ++ [input] := by
  rw [callsBy, List.filterMap_append, List.filterMap_cons]
  simp only [if_true, List.filterMap_nil]

theorem endedBy_concat (t : T) (calls : List (T × ι × ο)) (input : ι) (output : ο) :
    endedBy t (calls ++ [(t, input, output)]) = endedBy t calls ++ [input] ∧
    lastOutput t (calls ++ [(t, input, output)]) = some output := by
  have hone : [(t, input, output)].filter (fun x => decide (x.1 = t)) = [(t, input, output)] := by simp
  rw [endedBy, lastOutput, List.filter_append, hone, List.map_append, List.getLast?_concat]
  exact ⟨rfl, rfl⟩

theorem step_other {B : Body σ ι l ο} {s s' : St T σ ι l ο} {e : Ev T ι} {t : T} (h : e.thread ≠ t) (hs : step B s e = some s') :
    s'.pc t = s.pc t ∧ s'.calls.filter (·.1 = t) = s.calls.filter (·.1 = t) := by
  cases e with
  | call u input =>
    simp only [step] at hs
    split at hs <;> cases hs
    exact ⟨at_pc_ne _ _ (Ne.symm h), rfl⟩
  | acquire u =>
    simp only [step] at hs
    split at hs <;> cases hs
    exact ⟨at_pc_ne _ _ (Ne.symm h), rfl⟩
  | access u =>
    simp only [step] at hs
    split at hs
    · split at hs <;> cases hs <;> exact ⟨at_pc_ne _ _ (Ne.symm h), rfl⟩
    · cases hs
  | release u =>
    simp only [step] at hs
    split at hs <;> cases hs
    refine ⟨at_pc_ne _ _ (Ne.symm h), ?_⟩
    rw [at_calls, List.filter_append, List.filter_cons_of_neg (by simpa using (show u ≠ t from h)), List.filter_nil, List.append_nil]
  | leave u =>
    simp only [step] at hs
    split at hs <;> cases hs
    exact ⟨at_pc_ne _ _ (Ne.symm h), rfl⟩

theorem Own.goOn {t : T} {es : List (Ev T ι)} {s s' : St T σ ι l ο} {e : Ev T ι} (h : Own t es s) (he : ∀ input, e ≠ .call t input)
    (hcalls : s'.calls = s.calls) (hpending : (s'.pc t).pending = (s.pc t).pending) (hnot : ∀ output, s'.pc t ≠ .returned output) :
    Own t (es ++ [e]) s' :=
  ⟨by rw [callsBy_concat he, h.calls, hcalls, hpending], fun output ho => absurd ho (hnot output)⟩

theorem step_self {B : Body σ ι l ο} {es : List (Ev T ι)} {s s' : St T σ ι l ο} {e : Ev T ι} (h : Own e.thread es s)
    (hs : step B s e = some s') : Own e.thread (es ++ [e]) s' := by
  cases e with
  | call t input =>
    simp only [step] at hs
    split at hs <;> cases hs
    rename_i hpc
    have hcalls : callsBy t es = endedBy t s.calls ++ [] := by
      have := h.calls
      rwa [Ev.thread, hpc] at this
    refine ⟨?_, fun output ho => ?_⟩
    · rw [Ev.thread, callsBy_call, at_pc_same, hcalls, List.append_nil]
      rfl
    · rw [Ev.thread, at_pc_same] at ho; cases ho
  | acquire t =>
    simp only [step] at hs
    split at hs <;> cases hs
    rename_i hpc _
    exact h.goOn nofun rfl (by rw [Ev.thread, at_pc_same, hpc]; rfl) (by rw [Ev.thread, at_pc_same]; exact nofun)
  | access t =>
    simp only [step] at hs
    split at hs
    · rename_i hpc
      split at hs <;> cases hs <;>
        exact h.goOn nofun rfl (by rw [Ev.thread, at_pc_same, hpc]; rfl) (by rw [Ev.thread, at_pc_same]; exact nofun)
    · cases hs
  | release t =>
    simp only [step] at hs
    split at hs <;> cases hs
    rename_i input output hpc
    have hcalls : callsBy t es = endedBy t s.calls ++ [input] := by
      have := h.calls
      rwa [Ev.thread, hpc] at this
    obtain ⟨hended, hlast⟩ := endedBy_concat t s.calls input output
    refine ⟨?_, fun output' ho => ?_⟩
    · rw [Ev.thread, callsBy_concat nofun, at_calls, at_pc_same, hended, hcalls]
      exact (List.append_nil _).symm
    · rw [Ev.thread, at_pc_same] at ho
      cases ho
      exact hlast
  | leave t =>
    simp only [step] at hs
    split at hs <;> cases hs
    rename_i hpc
    exact h.goOn nofun rfl (by rw [Ev.thread, at_pc_same, hpc]; rfl) (by rw [Ev.thread, at_pc_same]; exact nofun)

theorem step_own {B : Body σ ι l ο} {t : T} {es : List (Ev T ι)} {s s' : St T σ ι l ο} {e : Ev T ι} (h : Own t es s)
    (hs : step B s e = some s') : Own t (es ++ [e]) s' := by
  by_cases hne : e.thread = t
  · subst hne
    exact step_self h hs
  · obtain ⟨hpc, hcalls⟩ := step_other hne hs
    have he : ∀ input, e ≠ .call t input := fun input he => hne (by rw [he]; rfl)
    refine ⟨?_, ?_⟩
    · rw [callsBy_concat he, h.calls, hpc, endedBy, endedBy, hcalls]
    · intro output ho
      rw [lastOutput, hcalls]
      exact h.last output (hpc ▸ ho)

/-- Every call of a thread has ended once, in the order of its calls, or is the one it is in; a call returns the output with
    which it ended. -/
theorem calls_of_thread {B : Body σ ι l ο} {start : σ} {es : List (Ev T ι)} {s : St T σ ι l ο}
    (hr : Runs.run (step B) (init start) es = some s) (t : T) : Own t es s :=
  Runs.run_history (P := fun es s => Own t es s) ⟨rfl, nofun⟩ (fun _ _ _ _ h hs => step_own h hs) hr

end Machine

end ContactDiscovery.Lib.Locked
