/-
  ContactDiscovery.Enclave.StateLock — the lock of one server state descriptor
  (`sgxsd_enclave_server_start`, `_call`, `_stop` and `_ratelimit_fingerprint` in
  `sgxsd-enclave.c`, with the state's ownership as `sgxsd_ffi/ecalls.rs` has it).

  Threads run the ecalls on one handle: they wait for the lock word to be zero, set it, run the
  locked body and zero it again. The body of a stop erases the whole descriptor, the lock word
  with it, before it terminates the state it read; a call takes the state out of the descriptor,
  uses it and puts it back. Each event is one thread's next access; what the bodies do besides
  is a choice (`ok`).

  Proved: `alwaysSafe_iff`, a run has one thread inside at a time and uses no freed state in
  every state it visits, exactly when no thread acquires the lock while a stop is between erasing
  the descriptor and its release. `stop_frees_used_state` is a run where one does: two threads
  are inside, and a call is left with a freed state.
-/

import ContactDiscovery.Lib.Runs
import Mathlib.Tactic

namespace ContactDiscovery.Enclave.StateLock

open Lib

inductive Op where
  | start
  | call
  | stop
  | fingerprint
  deriving DecidableEq, Repr

inductive Pc where
  | idle
  /-- At `sgxsd_spin_lock`. -/
  | waiting (op : Op)
  /-- Holds the lock, before the body's check of `valid`. -/
  | locked (op : Op)
  /-- A start past its check, in `sgxsd_enclave_server_init`. -/
  | initing
  /-- A start that stored the new state. -/
  | inited
  /-- A call in `sgxsd_enclave_server_handle_call`, with the state it took. -/
  | using (p : Nat)
  /-- A stop past its check, before the `memset_s`. -/
  | erasing (p : Nat)
  /-- A stop in `sgxsd_enclave_server_terminate`. -/
  | terminating (p : Nat)
  /-- A stop whose state is freed, before `sgxsd_spin_unlock`. -/
  | terminated
  /-- Any other body that is done, before `sgxsd_spin_unlock`. -/
  | releasing
  deriving DecidableEq, Repr

def Pc.inside : Pc → Bool
  | .idle | .waiting _ => false
  | _ => true

/-- A stop between erasing the descriptor and its release. -/
def Pc.erased : Pc → Bool
  | .terminating _ | .terminated => true
  | _ => false

structure St (T : Type) where
  valid : Bool
  lock : Nat
  pState : Nat
  /-- The server states allocated and not freed. -/
  live : Nat → Bool
  /-- The address of the next state allocated; zero is null. -/
  next : Nat
  pc : T → Pc

def init {T : Type} : St T := ⟨false, 0, 0, fun _ => false, 1, fun _ => .idle⟩

inductive Ev (T : Type) where
  | enter (t : T) (op : Op)
  | acquire (t : T)
  | advance (t : T) (ok : Bool)
  | release (t : T)
  deriving Repr

section Step

variable {T : Type} [DecidableEq T]

def St.at (s : St T) (t : T) (pc : Pc) : St T := { s with pc := Function.update s.pc t pc }

/-- The next access of a body. `ok` is whether `init` succeeds, and whether a call gets past its
    other checks. -/
def advance (s : St T) (t : T) (ok : Bool) : Option (St T) :=
  match s.pc t with
  | .locked .start => some (s.at t (if s.valid then .releasing else .initing))
  | .initing =>
    if ok then
      some ({ s with pState := s.next, next := s.next + 1, live := Function.update s.live s.next true }.at t .inited)
    else some (s.at t .releasing)
  | .inited => some ({ s with valid := true }.at t .releasing)
  | .locked .call => some (s.at t (if s.valid && ok then .using s.pState else .releasing))
  | .using p => some ({ s with pState := p }.at t .releasing)
  | .locked .stop => some (s.at t (if s.valid then .erasing s.pState else .releasing))
  | .erasing p => some ({ s with valid := false, lock := 0, pState := 0 }.at t (.terminating p))
  | .terminating p => some ({ s with live := Function.update s.live p false }.at t .terminated)
  | .locked .fingerprint => some (s.at t .releasing)
  | _ => none

def step (s : St T) : Ev T → Option (St T)
  | .enter t op => if s.pc t = .idle then some (s.at t (.waiting op)) else none
  | .acquire t =>
    match s.pc t with
    | .waiting op => if s.lock = 0 then some ({ s with lock := 1 }.at t (.locked op)) else none
    | _ => none
  | .advance t ok => advance s t ok
  | .release t =>
    if s.pc t = .releasing ∨ s.pc t = .terminated then some ({ s with lock := 0 }.at t .idle) else none

@[simp] theorem at_valid (s : St T) (t : T) (pc : Pc) : (s.at t pc).valid = s.valid := rfl
@[simp] theorem at_lock (s : St T) (t : T) (pc : Pc) : (s.at t pc).lock = s.lock := rfl
@[simp] theorem at_pState (s : St T) (t : T) (pc : Pc) : (s.at t pc).pState = s.pState := rfl
@[simp] theorem at_live (s : St T) (t : T) (pc : Pc) : (s.at t pc).live = s.live := rfl
@[simp] theorem at_next (s : St T) (t : T) (pc : Pc) : (s.at t pc).next = s.next := rfl
@[simp] theorem at_pc_same (s : St T) (t : T) (pc : Pc) : (s.at t pc).pc t = pc := Function.update_self ..
@[simp] theorem at_pc_ne (s : St T) {t u : T} (pc : Pc) (h : u ≠ t) : (s.at t pc).pc u = s.pc u :=
  Function.update_of_ne h ..

end Step

/-! ## Safety -/

variable {T : Type}

/-- One thread inside at a time, and no call with a freed state. -/
structure Safe (s : St T) : Prop where
  mutex : ∀ t u, (s.pc t).inside = true → (s.pc u).inside = true → t = u
  usable : ∀ t p, s.pc t = .using p → s.live p = true

/-- No thread acquires the lock while a stop is between erasing the descriptor and its
    release. -/
def Apart (s : St T) : Ev T → Prop
  | .acquire _ => ∀ u, (s.pc u).erased = false
  | _ => True

/-- What holds along a run whose acquires stay apart from a stop's erased lock. -/
structure Inv (s : St T) : Prop where
  mutex : ∀ t u, (s.pc t).inside = true → (s.pc u).inside = true → t = u
  held : ∀ t, (s.pc t).inside = true → (s.pc t).erased = false → s.lock = 1
  fresh : ∀ p, s.live p = true → p < s.next
  current : s.valid = true → s.live s.pState = true
  stored : ∀ t, s.pc t = .inited → s.live s.pState = true
  taken : ∀ t p, s.pc t = .using p ∨ s.pc t = .erasing p → s.live p = true
  gone : ∀ t, (s.pc t).erased = true → s.valid = false

theorem init_inv : Inv (init : St T) where
  mutex := by intro t u h; cases h
  held := by intro t h; cases h
  fresh := by intro p h; cases h
  current := by intro h; cases h
  stored := by intro t h; cases h
  taken := by intro t p h; rcases h with h | h <;> cases h
  gone := by intro t h; cases h

theorem Inv.safe {s : St T} (h : Inv s) : Safe s := ⟨h.mutex, fun t p hp => h.taken t p (Or.inl hp)⟩

theorem Pc.inside_of_erased {pc : Pc} (h : pc.erased = true) : pc.inside = true := by
  cases pc <;> first | rfl | cases h

theorem Inv.others_out {s : St T} {t : T} (h : Inv s) (ht : (s.pc t).inside = true) : ∀ u, u ≠ t → (s.pc u).inside = false := by
  intro u hu
  by_contra hin
  exact hu (h.mutex u t (Bool.not_eq_false _ ▸ hin) ht)

variable [DecidableEq T]

/-- With every other thread outside, only the moving thread's place and the descriptor have to
    be looked at. -/
theorem Inv.move {s r : St T} {t : T} {pc' : Pc} (hpc : r.pc = s.pc) (hout : ∀ u, u ≠ t → (s.pc u).inside = false)
    (hheld : pc'.inside = true → pc'.erased = false → r.lock = 1) (hfresh : ∀ p, r.live p = true → p < r.next)
    (hcur : r.valid = true → r.live r.pState = true) (hst : pc' = .inited → r.live r.pState = true)
    (htk : ∀ p, pc' = .using p ∨ pc' = .erasing p → r.live p = true) (hgone : pc'.erased = true → r.valid = false) :
    Inv (r.at t pc') := by
  -- a thread that is inside after the step is the one that moved
  have hone : ∀ u, ((r.at t pc').pc u).inside = true → u = t := by
    intro u hu
    by_contra hne
    rw [at_pc_ne r pc' hne, hpc, hout u hne] at hu
    cases hu
  refine ⟨?_, ?_, hfresh, hcur, ?_, ?_, ?_⟩
  · intro u v hu hv
    rw [hone u hu, hone v hv]
  · intro u hu he
    have := hone u hu; subst this
    rw [at_pc_same] at hu he
    exact hheld hu he
  · intro u hu
    have := hone u (by rw [hu]; rfl); subst this
    rw [at_pc_same] at hu
    exact hst hu
  · intro u p hu
    have := hone u (by rcases hu with hu | hu <;> (rw [hu]; rfl)); subst this
    rw [at_pc_same] at hu
    exact htk p hu
  · intro u hu
    have := hone u (Pc.inside_of_erased hu); subst this
    rw [at_pc_same] at hu
    exact hgone hu

theorem Inv.enter {s : St T} {t : T} (op : Op) (h : Inv s) (ht : s.pc t = .idle) : Inv (s.at t (.waiting op)) := by
  have hsame : ∀ u, ((s.at t (.waiting op)).pc u).inside = true → (s.at t (.waiting op)).pc u = s.pc u := by
    intro u hu
    by_cases e : u = t
    · subst e; rw [at_pc_same] at hu; cases hu
    · exact at_pc_ne s _ e
  refine ⟨?_, ?_, h.fresh, h.current, ?_, ?_, ?_⟩
  · intro u v hu hv
    have h1 := hsame u hu; have h2 := hsame v hv
    rw [h1] at hu; rw [h2] at hv
    exact h.mutex u v hu hv
  · intro u hu he
    have h1 := hsame u hu
    rw [h1] at hu he
    exact h.held u hu he
  · intro u hu
    have h1 := hsame u (by rw [hu]; rfl)
    exact h.stored u (h1 ▸ hu)
  · intro u p hu
    have h1 := hsame u (by rcases hu with hu | hu <;> (rw [hu]; rfl))
    rw [h1] at hu
    exact h.taken u p hu
  · intro u hu
    have h1 := hsame u (Pc.inside_of_erased hu)
    rw [h1] at hu
    exact h.gone u hu

theorem Inv.goto {s : St T} {t : T} {pc' : Pc} (h : Inv s) (ht : (s.pc t).inside = true) (hkept : (s.pc t).erased = false)
    (hst : pc' ≠ .inited) (htk : ∀ p, pc' = .using p ∨ pc' = .erasing p → s.live p = true) (hgone : pc'.erased = false) :
    Inv (s.at t pc') :=
  Inv.move rfl (h.others_out ht) (fun _ _ => h.held t ht hkept) h.fresh h.current (fun he => absurd he hst) htk
    (fun he => absurd (he.symm.trans hgone) Bool.false_ne_true.symm)

theorem Inv.done {s r : St T} {t : T} (h : Inv s) (ht : (s.pc t).inside = true) (hkept : (s.pc t).erased = false)
    (hpc : r.pc = s.pc) (hlock : r.lock = s.lock) (hfresh : ∀ p, r.live p = true → p < r.next)
    (hcur : r.valid = true → r.live r.pState = true) : Inv (r.at t .releasing) :=
  Inv.move hpc (h.others_out ht) (fun _ _ => hlock.trans (h.held t ht hkept)) hfresh hcur nofun
    (fun _ hp => hp.elim nofun nofun) nofun

theorem Inv.allocate {s : St T} {t : T} (h : Inv s) (hpc : s.pc t = .initing) :
    Inv ({ s with pState := s.next, next := s.next + 1, live := Function.update s.live s.next true }.at t .inited) := by
  have ht : (s.pc t).inside = true := by rw [hpc]; rfl
  refine Inv.move rfl (h.others_out ht) (fun _ _ => h.held t ht (by rw [hpc]; rfl)) (fun p hp => ?_) ?_ ?_
    (fun _ hp => hp.elim nofun nofun) nofun
  · show p < s.next + 1
    by_cases e : p = s.next
    · omega
    · have hp' : s.live p = true := by rw [← hp]; exact (Function.update_of_ne e ..).symm
      have := h.fresh p hp'
      omega
  · intro _; exact Function.update_self ..
  · intro _; exact Function.update_self ..

theorem Inv.erase {s : St T} {t : T} {p : Nat} (h : Inv s) (hpc : s.pc t = .erasing p) :
    Inv ({ s with valid := false, lock := 0, pState := 0 }.at t (.terminating p)) :=
  Inv.move rfl (h.others_out (by rw [hpc]; rfl)) nofun h.fresh nofun nofun (fun _ hq => hq.elim nofun nofun) (fun _ => rfl)

theorem Inv.terminate {s : St T} {t : T} {p : Nat} (h : Inv s) (hpc : s.pc t = .terminating p) :
    Inv ({ s with live := Function.update s.live p false }.at t .terminated) := by
  have hinvalid : s.valid = false := h.gone t (by rw [hpc]; rfl)
  refine Inv.move rfl (h.others_out (by rw [hpc]; rfl)) nofun (fun q hq => ?_) (fun hv => ?_) nofun
    (fun _ hq => hq.elim nofun nofun) (fun _ => hinvalid)
  · have hq' : Function.update s.live p false q = true := hq
    by_cases e : q = p
    · subst e; rw [Function.update_self] at hq'; cases hq'
    · rw [Function.update_of_ne e] at hq'; exact h.fresh q hq'
  · rw [show s.valid = true from hv] at hinvalid; cases hinvalid

theorem Inv.advance {s s' : St T} {t : T} {ok : Bool} (h : Inv s) (hs : StateLock.advance s t ok = some s') : Inv s' := by
  -- a body that gives up has changed nothing
  have hdone : (s.pc t).inside = true → (s.pc t).erased = false → Inv (s.at t .releasing) :=
    fun ht hkept => h.done ht hkept rfl rfl h.fresh h.current
  unfold StateLock.advance at hs
  split at hs
  · rename_i hpc
    rw [hpc] at hdone
    cases hs
    split
    · exact hdone rfl rfl
    · exact h.goto (by rw [hpc]; rfl) (by rw [hpc]; rfl) nofun (fun _ hp => hp.elim nofun nofun) rfl
  · rename_i hpc
    rw [hpc] at hdone
    split at hs
    · cases hs
      exact h.allocate hpc
    · cases hs
      exact hdone rfl rfl
  · -- the start makes the stored state valid
    rename_i hpc
    cases hs
    exact h.done (by rw [hpc]; rfl) (by rw [hpc]; rfl) rfl rfl h.fresh (fun _ => h.stored t hpc)
  · -- a call takes the state of a valid descriptor
    rename_i hpc
    rw [hpc] at hdone
    cases hs
    split
    · rename_i hv
      rw [Bool.and_eq_true] at hv
      refine h.goto (by rw [hpc]; rfl) (by rw [hpc]; rfl) nofun (fun p hp => ?_) rfl
      rcases hp with hp | hp <;> cases hp
      exact h.current hv.1
    · exact hdone rfl rfl
  · -- and puts it back
    rename_i p hpc
    cases hs
    exact h.done (by rw [hpc]; rfl) (by rw [hpc]; rfl) rfl rfl h.fresh (fun _ => h.taken t p (Or.inl hpc))
  · -- a stop reads the state of a valid descriptor
    rename_i hpc
    rw [hpc] at hdone
    cases hs
    split
    · rename_i hv
      refine h.goto (by rw [hpc]; rfl) (by rw [hpc]; rfl) nofun (fun p hp => ?_) rfl
      rcases hp with hp | hp <;> cases hp
      exact h.current hv
    · exact hdone rfl rfl
  · rename_i p hpc
    cases hs
    exact h.erase hpc
  · rename_i p hpc
    cases hs
    exact h.terminate hpc
  · rename_i hpc
    rw [hpc] at hdone
    cases hs
    exact hdone rfl rfl
  · cases hs

theorem step_inv (s : St T) (e : Ev T) (s' : St T) (h : Inv s) (ha : Apart s e) (hs : step s e = some s') : Inv s' := by
  cases e with
  | enter t op =>
    simp only [step] at hs
    split at hs
    · rename_i ht; cases hs; exact h.enter op ht
    · cases hs
  | acquire t =>
    simp only [step] at hs
    split at hs
    · rename_i op hpc
      split at hs
      · -- the lock word is zero and no stop has erased it: nobody is inside
        rename_i hz
        have hout : ∀ u, (s.pc u).inside = false := by
          intro u
          by_contra hin
          have := h.held u (Bool.not_eq_false _ ▸ hin) (ha u)
          omega
        cases hs
        refine Inv.move rfl (fun u _ => hout u) (fun _ _ => rfl) h.fresh h.current ?_ ?_ ?_
        all_goals simp [Pc.erased]
      · cases hs
    · cases hs
  | advance t ok => exact h.advance hs
  | release t =>
    simp only [step] at hs
    split at hs
    · rename_i hpc
      have hin : (s.pc t).inside = true := by rcases hpc with e | e <;> (rw [e]; rfl)
      cases hs
      refine Inv.move rfl (h.others_out hin) (fun hc => by cases hc) h.fresh h.current ?_ ?_ ?_
      all_goals simp [Pc.erased]
    · cases hs

/-- A step that does not stay apart puts a second thread inside. -/
theorem step_not_apart (s : St T) (e : Ev T) (s' : St T) (hs : step s e = some s') (ha : ¬Apart s e) : ¬Safe s' := by
  intro hsafe
  cases e with
  | enter t op => exact ha trivial
  | advance t ok => exact ha trivial
  | release t => exact ha trivial
  | acquire t =>
    apply ha
    intro u
    by_contra he
    have he' : (s.pc u).erased = true := Bool.not_eq_false _ ▸ he
    simp only [step] at hs
    split at hs
    · rename_i op hpc
      split at hs
      · cases hs
        have hne : u ≠ t := by
          intro e; subst e; rw [hpc] at he'; cases he'
        refine hne (hsafe.mutex u t ?_ ?_)
        · rw [at_pc_ne _ _ hne]; exact Pc.inside_of_erased he'
        · rw [at_pc_same]; rfl
      · cases hs
    · cases hs

/-- A run is safe in every state it visits exactly when all its acquires stay apart from a
    stop's erased lock. -/
theorem alwaysSafe_iff (es : List (Ev T)) :
    Runs.Always step Safe (init : St T) es ↔ Runs.Meets step Apart (init : St T) es := by
  constructor
  · exact Runs.meets_of_always (fun s e s' _ hs ha => step_not_apart s e s' hs ha) es init
  · intro hm
    exact Runs.Always.mono (fun s h => h.safe) es init (Runs.always_of_inv step_inv es init init_inv hm)

/-! ## A stop and a start -/

/-- Thread 0 starts a server and stops it again, as far as erasing the descriptor; thread 1's
    start then finds the lock word zero. -/
def startDuringStop : List (Ev (Fin 3)) :=
  [.enter 0 .start, .acquire 0, .advance 0 true, .advance 0 true, .advance 0 true, .release 0,
   .enter 0 .stop, .acquire 0, .advance 0 true, .advance 0 true, .enter 1 .start, .acquire 1]

/-- The start completes and thread 2 calls the new server; the release of thread 0's stop frees
    the lock under the call, and thread 1 stops the server the call is using. -/
def stopDuringCall : List (Ev (Fin 3)) :=
  [.advance 1 true, .advance 1 true, .advance 1 true, .release 1, .enter 2 .call, .acquire 2, .advance 2 true,
   .advance 0 true, .release 0, .enter 1 .stop, .acquire 1, .advance 1 true, .advance 1 true, .advance 1 true]

/-- Two threads are inside after the first part, and after the second a call is using a state
    that was freed. -/
theorem stop_frees_used_state :
    (∃ s : St (Fin 3), Runs.run step init startDuringStop = some s ∧ s.pc 0 = .terminating 1 ∧ s.pc 1 = .locked .start ∧
      ¬Safe s) ∧
    ∃ s : St (Fin 3), Runs.run step init (startDuringStop ++ stopDuringCall) = some s ∧ s.pc 2 = .using 2 ∧
      s.live 2 = false ∧ ¬Safe s := by
  refine ⟨⟨_, rfl, rfl, rfl, fun h => ?_⟩, ⟨_, rfl, rfl, rfl, fun h => ?_⟩⟩
  · exact absurd (h.mutex 0 1 rfl rfl) (by decide)
  · exact absurd (h.usable 2 2 rfl) (by decide)

end ContactDiscovery.Enclave.StateLock
