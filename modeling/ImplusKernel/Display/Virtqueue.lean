import ImplusKernel.Display.VirtIO
import Mathlib.Logic.Relation

/-!
# Driver and device on the control queue

The driver publishes one request after the other in the same two descriptors
and waits until `used->idx` moves; the device takes requests in order, at any
time after a notification.  The two run in parallel.  A driver that gives up
leaves its request behind, and the next call takes the late answer for its
own.  Requests and answers match exactly when every call finds the queue
quiet.  Stores become visible in program order.
-/

namespace ImplusKernel.Virtqueue

open ByteMemory VirtIO

def virtioMmioTimeout : ℕ := 10000000

/-- The arguments of `virtqueue_submit_sync`. -/
structure Request where
  cmd : ℕ
  cmdLen : ℕ
  resp : ℕ
  respLen : ℕ
deriving DecidableEq, Repr

/-- What the driver writes for a request, beside `avail->idx`. -/
inductive Field
  | descAddr (i : ℕ)
  | descLen (i : ℕ)
  | descFlags (i : ℕ)
  | descNext (i : ℕ)
  | availRing (slot : ℕ)
deriving DecidableEq, Repr

def Field.inDescriptor : Field → Bool
  | .availRing _ => false
  | _ => true

/-- The stores of a call up to the memory barrier, in order. -/
def fieldStores (size driverAvail : ℕ) (r : Request) : List (Field × ℕ) :=
  [(.descAddr 0, r.cmd), (.descLen 0, r.cmdLen), (.descFlags 0, virtqDescFNext), (.descNext 0, 1),
    (.descAddr 1, r.resp), (.descLen 1, r.respLen), (.descFlags 1, virtqDescFWrite),
    (.descNext 1, 0), (.availRing (driverAvail % size), 0)]

/-- Address and width of a field. -/
def Field.place (vq : VirtIO.Virtqueue) : Field → ℕ × ℕ
  | .descAddr i => (vq.desc + 16 * i, 8)
  | .descLen i => (vq.desc + 16 * i + 8, 4)
  | .descFlags i => (vq.desc + 16 * i + 12, 2)
  | .descNext i => (vq.desc + 16 * i + 14, 2)
  | .availRing slot => (vq.avail + 4 + 2 * slot, 2)

/-- In memory, these stores and that of `avail->idx` are what `publish` does
at once. -/
theorem publish_eq_foldl (vq : VirtIO.Virtqueue) (m : Mem) (r : Request) :
    publish vq m r.cmd r.cmdLen r.resp r.respLen =
      writeLE ((fieldStores vq.queueSize vq.availIdx r).foldl
        (fun m p ↦ writeLE m (p.1.place vq).1 (p.1.place vq).2 p.2) m)
        (vq.avail + 2) 2 ((vq.availIdx + 1) % 2 ^ 16) := rfl

/-! ## The two parties -/

/-- Where the driver is: before its first call, at the next of the stores, at
the notification, in the loop with this value of `timeout`, behind the loop,
or back with a result. -/
inductive Pc
  | idle
  | storing (rest : List (Field × ℕ))
  | notifying
  | waiting (timeout : ℕ)
  | leaving
  | returned (ok : Bool)
deriving DecidableEq, Repr

/-- The queue, the driver's `avail_idx` and `used_idx_seen`, and the index up
to which the device has taken entries.  The last four fields keep the history:
the number of calls and the request of the latest, the calls whose entries are
available and not taken, and those completed, with the request that the device
found in the descriptors. -/
structure State where
  fields : Field → ℕ
  availIdx : ℕ
  usedIdx : ℕ
  driverAvail : ℕ
  usedIdxSeen : ℕ
  notified : Bool
  deviceIdx : ℕ
  pc : Pc
  calls : ℕ
  request : Request
  pending : List ℕ
  completed : List (ℕ × Request)

/-- After `virtqueue_init_ctrl`. -/
def State.init : State where
  fields _ := 0
  availIdx := 0
  usedIdx := 0
  driverAvail := 0
  usedIdxSeen := 0
  notified := false
  deviceIdx := 0
  pc := .idle
  calls := 0
  request := ⟨0, 0, 0, 0⟩
  pending := []
  completed := []

def State.AtRest (s : State) : Prop := s.pc = .idle ∨ ∃ ok, s.pc = .returned ok

/-- The next call of `virtqueue_submit_sync`. -/
def State.call (s : State) (size : ℕ) (r : Request) : State :=
  { s with
    pc := if size < 2 then .returned false else .storing (fieldStores size s.driverAvail r)
    calls := s.calls + 1
    request := r }

def driverStep (s : State) : Option State :=
  match s.pc with
  | .idle => none
  | .storing ((f, v) :: rest) =>
      some { s with fields := Function.update s.fields f v, pc := .storing rest }
  | .storing [] =>
      let idx := (s.driverAvail + 1) % 2 ^ 16
      some { s with
        driverAvail := idx, availIdx := idx, pc := .notifying, pending := s.pending ++ [s.calls] }
  | .notifying => some { s with notified := true, pc := .waiting virtioMmioTimeout }
  | .waiting timeout =>
      if (s.usedIdx + 2 ^ 16 - s.usedIdxSeen) % 2 ^ 16 = 0 then
        if timeout - 1 = 0 then some { s with pc := .returned false }
        else some { s with pc := .waiting (timeout - 1) }
      else some { s with pc := .leaving }
  | .leaving => some { s with usedIdxSeen := s.usedIdx, pc := .returned true }
  | .returned _ => none

/-- The request in the descriptors that the device's next entry points to. -/
def found (size : ℕ) (s : State) : Request :=
  let head := s.fields (.availRing (s.deviceIdx % size))
  let next := s.fields (.descNext head)
  ⟨s.fields (.descAddr head), s.fields (.descLen head),
    s.fields (.descAddr next), s.fields (.descLen next)⟩

/-- The device takes the oldest entry, answers, and increments `used->idx`. -/
def deviceStep (size : ℕ) (s : State) : Option State :=
  if s.notified = true ∧ s.deviceIdx ≠ s.availIdx then
    some { s with
      usedIdx := (s.usedIdx + 1) % 2 ^ 16
      deviceIdx := (s.deviceIdx + 1) % 2 ^ 16
      pending := s.pending.tail
      completed := (s.pending.headD 0, found size s) :: s.completed }
  else none

def Step (size : ℕ) (s s' : State) : Prop := driverStep s = some s' ∨ deviceStep size s = some s'

/-- Any calls, each begun in an allowed state, and any interleaving. -/
inductive Run (size : ℕ) (Allowed : State → Prop) : State → Prop
  | init : Run size Allowed .init
  | call {s : State} (r : Request) (hrun : Run size Allowed s) (hrest : s.AtRest)
      (hallowed : Allowed s) : Run size Allowed (s.call size r)
  | step {s s' : State} (hrun : Run size Allowed s) (h : Step size s s') : Run size Allowed s'

/-- A call that has returned 1 was answered, for the request it made; and
where the next store goes to a descriptor, no earlier request waits to be
taken. -/
structure Safe (s : State) : Prop where
  matched : s.pc = .returned true → (s.calls, s.request) ∈ s.completed
  descriptors : ∀ f v rest, s.pc = .storing ((f, v) :: rest) → f.inDescriptor = true →
    s.pending = []

/-- Every entry is taken and every answer has been seen. -/
def Quiet (s : State) : Prop := s.pending = [] ∧ s.usedIdx = s.usedIdxSeen

/-! ## Counters -/

variable {size : ℕ} {s s' : State} {r : Request} {Allowed : State → Prop}

/-- The 16-bit counters count entries and answers. -/
structure Counted (s : State) : Prop where
  device : s.deviceIdx = s.completed.length % 2 ^ 16
  used : s.usedIdx = s.completed.length % 2 ^ 16
  avail : s.availIdx = (s.completed.length + s.pending.length) % 2 ^ 16
  driver : s.driverAvail = s.availIdx
  seen : s.usedIdxSeen < 2 ^ 16
  pending_le : ∀ k ∈ s.pending, k ≤ s.calls
  completed_le : ∀ p ∈ s.completed, p.1 ≤ s.calls

theorem counted_init : Counted .init := by
  constructor <;> simp [State.init]

theorem Counted.call (h : Counted s) (size : ℕ) (r : Request) : Counted (s.call size r) :=
  ⟨h.device, h.used, h.avail, h.driver, h.seen,
    fun k hk ↦ (h.pending_le k hk).trans (Nat.le_succ _),
    fun p hp ↦ (h.completed_le p hp).trans (Nat.le_succ _)⟩

/-- An enabled device has an entry to take. -/
theorem Counted.pending_ne_nil (h : Counted s) (hne : s.deviceIdx ≠ s.availIdx) :
    s.pending ≠ [] := by
  intro hnil
  rw [h.device, h.avail, hnil] at hne
  exact hne rfl

/-- `(uint16_t)(used->idx - used_idx_seen) == 0`. -/
theorem unseen_eq_zero_iff (h : Counted s) :
    (s.usedIdx + 2 ^ 16 - s.usedIdxSeen) % 2 ^ 16 = 0 ↔ s.usedIdx = s.usedIdxSeen := by
  have hseen := h.seen
  have hused : s.usedIdx < 2 ^ 16 := h.used ▸ Nat.mod_lt _ (by decide)
  omega

/-- What a step of the driver can be. -/
theorem driverStep_cases (h : driverStep s = some s') :
    (∃ f v rest, s.pc = .storing ((f, v) :: rest) ∧
      s' = { s with fields := Function.update s.fields f v, pc := .storing rest }) ∨
    (s.pc = .storing [] ∧ s' = { s with
      driverAvail := (s.driverAvail + 1) % 2 ^ 16
      availIdx := (s.driverAvail + 1) % 2 ^ 16
      pc := .notifying
      pending := s.pending ++ [s.calls] }) ∨
    (s.pc = .notifying ∧ s' = { s with notified := true, pc := .waiting virtioMmioTimeout }) ∨
    (∃ t pc, s.pc = .waiting t ∧ s' = { s with pc := pc } ∧
      if (s.usedIdx + 2 ^ 16 - s.usedIdxSeen) % 2 ^ 16 = 0 then
        pc = .returned false ∨ ∃ t', pc = .waiting t'
      else pc = .leaving) ∨
    (s.pc = .leaving ∧ s' = { s with usedIdxSeen := s.usedIdx, pc := .returned true }) := by
  unfold driverStep at h
  split at h
  · cases h
  · next f v rest hpc => exact Or.inl ⟨f, v, rest, hpc, (Option.some.inj h).symm⟩
  · next hpc => exact Or.inr (Or.inl ⟨hpc, (Option.some.inj h).symm⟩)
  · next hpc => exact Or.inr (Or.inr (Or.inl ⟨hpc, (Option.some.inj h).symm⟩))
  · next t hpc =>
    refine Or.inr (Or.inr (Or.inr (Or.inl ?_)))
    split at h
    · next hseen =>
      split at h
      · exact ⟨t, _, hpc, (Option.some.inj h).symm, by rw [if_pos hseen]; exact Or.inl rfl⟩
      · exact ⟨t, _, hpc, (Option.some.inj h).symm, by rw [if_pos hseen]; exact Or.inr ⟨_, rfl⟩⟩
    · next hseen => exact ⟨t, _, hpc, (Option.some.inj h).symm, by rw [if_neg hseen]⟩
  · next hpc => exact Or.inr (Or.inr (Or.inr (Or.inr ⟨hpc, (Option.some.inj h).symm⟩)))
  · cases h

theorem Counted.driverStep (h : Counted s) (hstep : driverStep s = some s') : Counted s' := by
  rcases driverStep_cases hstep with ⟨f, v, rest, -, rfl⟩ | ⟨-, rfl⟩ | ⟨-, rfl⟩ |
    ⟨t, pc, -, rfl, -⟩ | ⟨-, rfl⟩
  · exact ⟨h.device, h.used, h.avail, h.driver, h.seen, h.pending_le, h.completed_le⟩
  · refine ⟨h.device, h.used, ?_, rfl, h.seen, ?_, h.completed_le⟩
    · dsimp only
      rw [h.driver, h.avail, List.length_append, List.length_singleton]
      omega
    · intro k hk
      rcases List.mem_append.mp hk with hk | hk
      · exact h.pending_le k hk
      · exact (List.mem_singleton.mp hk).le
  · exact ⟨h.device, h.used, h.avail, h.driver, h.seen, h.pending_le, h.completed_le⟩
  · exact ⟨h.device, h.used, h.avail, h.driver, h.seen, h.pending_le, h.completed_le⟩
  · refine ⟨h.device, h.used, h.avail, h.driver, ?_, h.pending_le, h.completed_le⟩
    dsimp only
    rw [h.used]
    exact Nat.mod_lt _ (by decide)

/-- What a step of the device is: the oldest entry is taken. -/
theorem Counted.deviceStep_cases (h : Counted s) (hstep : deviceStep size s = some s') :
    ∃ k rest, s.pending = k :: rest ∧ s' = { s with
      usedIdx := (s.usedIdx + 1) % 2 ^ 16
      deviceIdx := (s.deviceIdx + 1) % 2 ^ 16
      pending := rest
      completed := (k, found size s) :: s.completed } := by
  unfold deviceStep at hstep
  split at hstep
  · next hguard =>
    obtain ⟨k, rest, hpending⟩ := List.exists_cons_of_ne_nil (h.pending_ne_nil hguard.2)
    refine ⟨k, rest, hpending, ?_⟩
    rw [← Option.some.inj hstep, hpending]
    rfl
  · cases hstep

theorem Counted.deviceStep (h : Counted s) (hstep : deviceStep size s = some s') :
    Counted s' := by
  obtain ⟨k, rest, hpending, rfl⟩ := h.deviceStep_cases hstep
  have hdevice := h.device
  have hused := h.used
  have havail := h.avail
  rw [hpending, List.length_cons] at havail
  refine ⟨?_, ?_, ?_, h.driver, h.seen, ?_, ?_⟩
  · dsimp only
    rw [hdevice, List.length_cons]
    omega
  · dsimp only
    rw [hused, List.length_cons]
    omega
  · dsimp only
    rw [havail, List.length_cons]
    omega
  · intro k' hk'
    exact h.pending_le k' (hpending ▸ List.mem_cons_of_mem k hk')
  · intro p hp
    rcases List.mem_cons.mp hp with rfl | hp
    · exact h.pending_le k (hpending ▸ List.mem_cons_self)
    · exact h.completed_le p hp

theorem Counted.step (h : Counted s) (hstep : Step size s s') : Counted s' :=
  hstep.elim h.driverStep h.deviceStep

theorem Run.counted (hrun : Run size Allowed s) : Counted s := by
  induction hrun with
  | init => exact counted_init
  | call r _ _ _ ih => exact ih.call size r
  | step _ hstep ih => exact ih.step hstep

theorem Run.reaches (hrun : Run size Allowed s) (h : Relation.ReflTransGen (Step size) s s') :
    Run size Allowed s' := by
  induction h with
  | refl => exact hrun
  | tail _ hstep ih => exact ih.step hstep

/-! ## A call on a quiet queue -/

/-- The request of the call is the only one, with no answer yet. -/
structure InFlight (size : ℕ) (s : State) : Prop where
  pending : s.pending = [s.calls]
  unanswered : s.usedIdx = s.usedIdxSeen
  described : found size s = s.request

/-- It has been answered, and nothing else has. -/
structure CallAnswered (s : State) : Prop where
  pending : s.pending = []
  answer : s.usedIdx = (s.usedIdxSeen + 1) % 2 ^ 16
  completed : (s.calls, s.request) ∈ s.completed

/-- How far a call has come that began on a quiet queue. -/
inductive Phase (size : ℕ) (s : State) : Prop
  | atRest (hrest : s.AtRest) (hanswered : s.pc ≠ .returned false → Quiet s)
      (hmatched : s.pc = .returned true → (s.calls, s.request) ∈ s.completed)
  | storing (done rest : List (Field × ℕ)) (before : Field → ℕ) (hpc : s.pc = .storing rest)
      (hall : done ++ rest = fieldStores size s.driverAvail s.request)
      (hfields : s.fields = done.foldl (fun F p ↦ Function.update F p.1 p.2) before)
      (hquiet : Quiet s)
  | notifying (hpc : s.pc = .notifying) (h : InFlight size s ∨ CallAnswered s)
  | waiting (t : ℕ) (hpc : s.pc = .waiting t) (h : InFlight size s ∨ CallAnswered s)
  | leaving (hpc : s.pc = .leaving) (h : CallAnswered s)

theorem Phase.safe (h : Phase size s) : Safe s := by
  cases h with
  | atRest hrest _ hmatched =>
      refine ⟨hmatched, fun f v rest hpc ↦ ?_⟩
      rcases hrest with hpc' | ⟨ok, hpc'⟩ <;> simp [hpc'] at hpc
  | storing done rest before hpc _ _ hquiet =>
      exact ⟨fun h ↦ by simp [hpc] at h, fun _ _ _ _ _ ↦ hquiet.1⟩
  | notifying hpc _ => exact ⟨fun h ↦ by simp [hpc] at h, fun _ _ _ h ↦ by simp [hpc] at h⟩
  | waiting t hpc _ => exact ⟨fun h ↦ by simp [hpc] at h, fun _ _ _ h ↦ by simp [hpc] at h⟩
  | leaving hpc _ => exact ⟨fun h ↦ by simp [hpc] at h, fun _ _ _ h ↦ by simp [hpc] at h⟩

theorem Phase.call (hquiet : size < 2 ∨ Quiet s) (r : Request) : Phase size (s.call size r) := by
  by_cases hsize : size < 2
  · have hpc : (s.call size r).pc = .returned false := if_pos hsize
    exact .atRest (Or.inr ⟨false, hpc⟩) (fun h ↦ absurd hpc h) (fun h ↦ by simp [hpc] at h)
  · have hpc : (s.call size r).pc = .storing (fieldStores size s.driverAvail r) := if_neg hsize
    exact .storing [] _ s.fields hpc rfl rfl (hquiet.resolve_left hsize)

/-- Once all fields are written, the device's next entry describes the
request. -/
theorem found_of_stored {before : Field → ℕ}
    (hfields : s.fields = (fieldStores size s.deviceIdx r).foldl
      (fun F p ↦ Function.update F p.1 p.2) before) : found size s = r := by
  simp [found, hfields, fieldStores]

theorem CallAnswered.unseen (h : CallAnswered s) (hcounted : Counted s) :
    s.usedIdx ≠ s.usedIdxSeen := by
  have hanswer := h.answer
  have hseen := hcounted.seen
  omega

theorem Phase.driverStep (h : Phase size s) (hcounted : Counted s)
    (hstep : driverStep s = some s') : Phase size s' := by
  unfold Virtqueue.driverStep at hstep
  cases h with
  | atRest hrest _ _ => rcases hrest with hpc | ⟨ok, hpc⟩ <;> simp [hpc] at hstep
  | storing done rest before hpc hall hfields hquiet =>
      cases rest with
      | nil =>
          simp only [hpc, Option.some.injEq] at hstep
          subst hstep
          -- Nothing is pending, so the device's next entry is the one just written.
          have hdevice : s.driverAvail = s.deviceIdx := by
            rw [hcounted.driver, hcounted.avail, hcounted.device, hquiet.1]
            rfl
          rw [List.append_nil, hdevice] at hall
          rw [hall] at hfields
          refine .notifying rfl (Or.inl ⟨?_, hquiet.2, found_of_stored hfields⟩)
          dsimp only
          rw [hquiet.1]
          rfl
      | cons p rest =>
          simp only [hpc, Option.some.injEq] at hstep
          subst hstep
          refine .storing (done ++ [p]) rest before rfl ?_ ?_ hquiet
          · rw [List.append_assoc]
            exact hall
          · rw [List.foldl_append, ← hfields]
            rfl
  | notifying hpc h =>
      simp only [hpc, Option.some.injEq] at hstep
      subst hstep
      refine .waiting virtioMmioTimeout rfl (h.imp ?_ ?_)
      · exact fun h ↦ ⟨h.pending, h.unanswered, h.described⟩
      · exact fun h ↦ ⟨h.pending, h.answer, h.completed⟩
  | waiting t hpc h =>
      simp only [hpc, unseen_eq_zero_iff hcounted] at hstep
      rcases h with h | h
      · rw [if_pos h.unanswered] at hstep
        split at hstep
        · obtain rfl := Option.some.inj hstep
          exact .atRest (Or.inr ⟨false, rfl⟩) (fun h ↦ absurd rfl h) (fun h ↦ by cases h)
        · obtain rfl := Option.some.inj hstep
          exact .waiting (t - 1) rfl (Or.inl ⟨h.pending, h.unanswered, h.described⟩)
      · rw [if_neg (h.unseen hcounted)] at hstep
        obtain rfl := Option.some.inj hstep
        exact .leaving rfl ⟨h.pending, h.answer, h.completed⟩
  | leaving hpc h =>
      simp only [hpc, Option.some.injEq] at hstep
      subst hstep
      exact .atRest (Or.inr ⟨true, rfl⟩) (fun _ ↦ ⟨h.pending, rfl⟩) (fun _ ↦ h.completed)

/-- On a quiet queue the device has nothing to do but the request of the
call. -/
theorem Phase.deviceStep (h : Phase size s) (hcounted : Counted s)
    (hstep : deviceStep size s = some s') : Phase size s' := by
  obtain ⟨k, rest, hpending, rfl⟩ := hcounted.deviceStep_cases hstep
  have hserved : InFlight size s ∨ CallAnswered s → CallAnswered { s with
      usedIdx := (s.usedIdx + 1) % 2 ^ 16
      deviceIdx := (s.deviceIdx + 1) % 2 ^ 16
      pending := rest
      completed := (k, found size s) :: s.completed } := by
    rintro (h | h)
    · obtain ⟨rfl, rfl⟩ := List.cons.inj (hpending.symm.trans h.pending)
      refine ⟨rfl, ?_, ?_⟩
      · rw [h.unanswered]
      · rw [h.described]
        exact List.mem_cons_self
    · rw [h.pending] at hpending
      cases hpending
  cases h with
  | atRest hrest hanswered hmatched =>
      refine .atRest hrest (fun hpc ↦ ?_) (fun hpc ↦ List.mem_cons_of_mem _ (hmatched hpc))
      rw [(hanswered hpc).1] at hpending
      cases hpending
  | storing done left before hpc hall hfields hquiet =>
      rw [hquiet.1] at hpending
      cases hpending
  | notifying hpc h => exact .notifying hpc (Or.inr (hserved h))
  | waiting t hpc h => exact .waiting t hpc (Or.inr (hserved h))
  | leaving hpc h => exact .leaving hpc (hserved (Or.inr h))

theorem Phase.step (h : Phase size s) (hcounted : Counted s) (hstep : Step size s s') :
    Phase size s' :=
  hstep.elim (h.driverStep hcounted) (h.deviceStep hcounted)

theorem Run.phase (hrun : Run size (fun s ↦ size < 2 ∨ Quiet s) s) : Phase size s := by
  induction hrun with
  | init => exact .atRest (Or.inl rfl) (fun _ ↦ ⟨rfl, rfl⟩) (fun h ↦ by cases h)
  | call r _ _ hquiet _ => exact .call hquiet r
  | step hrun hstep ih => exact ih.step hrun.counted hstep

theorem Phase.quiet_of_atRest (h : Phase size s) (hrest : s.AtRest) (hok : s.pc ≠ .returned false) :
    Quiet s := by
  have hpc : s.pc = .idle ∨ s.pc = .returned true := by
    rcases hrest with hpc | ⟨_ | _, hpc⟩
    · exact Or.inl hpc
    · exact absurd hpc hok
    · exact Or.inr hpc
  cases h with
  | atRest _ hanswered _ => exact hanswered hok
  | storing _ _ _ h _ _ _ => simp [h] at hpc
  | notifying h _ => simp [h] at hpc
  | waiting _ h _ => simp [h] at hpc
  | leaving h _ => simp [h] at hpc

/-- As long as no call has timed out, every call finds the queue quiet. -/
theorem Run.quiet_of_no_timeout (hrun : Run size (fun s ↦ s.pc ≠ .returned false) s) :
    Run size (fun s ↦ size < 2 ∨ Quiet s) s := by
  induction hrun with
  | init => exact .init
  | call r _ hrest hok ih => exact .call r ih hrest (Or.inr (ih.phase.quiet_of_atRest hrest hok))
  | step _ hstep ih => exact ih.step hstep

/-! ## Calls that must not be made -/

/-- Whatever the interleaving, the next call is safe until it returns. -/
def CallSafe (size : ℕ) (s : State) : Prop :=
  ∀ r s', Relation.ReflTransGen (Step size) (s.call size r) s' → Safe s'

/-- Steps of the driver alone. -/
def drive : ℕ → State → Option State
  | 0, s => some s
  | n + 1, s => (driverStep s).bind (drive n)

theorem drive_reaches (size : ℕ) {n : ℕ} (h : drive n s = some s') :
    Relation.ReflTransGen (Step size) s s' := by
  induction n generalizing s with
  | zero =>
      obtain rfl := Option.some.inj h
      exact .refl
  | succ n ih =>
      obtain ⟨s₁, hstep, h⟩ := Option.bind_eq_some_iff.mp h
      exact .head (Or.inl hstep) (ih h)

/-- The state of a call that waits, before the device has done anything. -/
def State.published (s : State) (size : ℕ) (r : Request) : State :=
  { s with
    fields := (fieldStores size s.driverAvail r).foldl
      (fun F p ↦ Function.update F p.1 p.2) s.fields
    driverAvail := (s.driverAvail + 1) % 2 ^ 16
    availIdx := (s.driverAvail + 1) % 2 ^ 16
    notified := true
    pc := .waiting virtioMmioTimeout
    calls := s.calls + 1
    request := r
    pending := s.pending ++ [s.calls + 1] }

theorem call_reaches_published (hsize : ¬size < 2) (s : State) (r : Request) :
    Relation.ReflTransGen (Step size) (s.call size r) (s.published size r) := by
  apply drive_reaches size (n := 11)
  rw [State.call, if_neg hsize]
  rfl

/-- An answer that was not seen ends the loop at once. -/
theorem published_reaches_returned (hcounted : Counted s) (hunseen : s.usedIdx ≠ s.usedIdxSeen)
    (r : Request) : Relation.ReflTransGen (Step size) (s.published size r)
      { s.published size r with usedIdxSeen := s.usedIdx, pc := .returned true } := by
  have hloop : driverStep (s.published size r) =
      some { s.published size r with pc := .leaving } :=
    if_neg (mt (unseen_eq_zero_iff hcounted).mp hunseen)
  exact .tail (.single (Or.inl hloop)) (Or.inl rfl)

theorem quiet_of_callSafe (hcounted : Counted s) (hsize : ¬size < 2) (h : CallSafe size s) :
    Quiet s := by
  have hpending : s.pending = [] :=
    (h ⟨0, 0, 0, 0⟩ _ .refl).descriptors _ _ _ (if_neg hsize) rfl
  refine ⟨hpending, ?_⟩
  by_contra hunseen
  have hsafe := h ⟨0, 0, 0, 0⟩ _ ((call_reaches_published hsize s _).trans
    (published_reaches_returned hcounted hunseen _))
  have hle : s.calls + 1 ≤ s.calls := hcounted.completed_le _ (hsafe.matched rfl)
  omega

theorem callSafe_of_quiet (hcounted : Counted s) (hquiet : size < 2 ∨ Quiet s) :
    CallSafe size s := by
  intro r s' hreach
  suffices hphase : Counted s' ∧ Phase size s' from hphase.2.safe
  induction hreach with
  | refl => exact ⟨hcounted.call size r, .call hquiet r⟩
  | tail _ hstep ih => exact ⟨ih.1.step hstep, ih.2.step ih.1 hstep⟩

/-- If every call finds the queue quiet, all states are safe; and a call, made
in any run, is safe under every interleaving if and only if it does. -/
theorem matching_iff_quiet (size : ℕ) :
    (∀ s, Run size (fun s ↦ size < 2 ∨ Quiet s) s → Safe s) ∧
      ∀ s, Run size (fun _ ↦ True) s → s.AtRest → (CallSafe size s ↔ size < 2 ∨ Quiet s) := by
  refine ⟨fun s hrun ↦ hrun.phase.safe, fun s hrun _ ↦ ⟨fun h ↦ ?_, ?_⟩⟩
  · by_cases hsize : size < 2
    · exact Or.inl hsize
    · exact Or.inr (quiet_of_callSafe hrun.counted hsize h)
  · exact callSafe_of_quiet hrun.counted

theorem matching_first_call :
    CallSafe 64 .init ∧ Safe (State.init.published 64 ⟨0x1000, 24, 0x2000, 24⟩) := by
  have hquiet : 64 < 2 ∨ Quiet .init := Or.inr ⟨rfl, rfl⟩
  refine ⟨((matching_iff_quiet 64).2 .init .init (Or.inl rfl)).mpr hquiet, ?_⟩
  refine (matching_iff_quiet 64).1 _ ?_
  exact (Run.call _ .init (Or.inl rfl) hquiet).reaches (call_reaches_published (by decide) _ _)

/-! ## A late answer -/

/-- Without an answer the loop times out. -/
theorem waiting_reaches_timeout {t : ℕ} (hcounted : Counted s)
    (hseen : s.usedIdx = s.usedIdxSeen) :
    Relation.ReflTransGen (Step size) { s with pc := .waiting (t + 1) }
      { s with pc := .returned false } := by
  have hunseen := (unseen_eq_zero_iff hcounted).mpr hseen
  induction t with
  | zero => exact .single (Or.inl (if_pos hunseen))
  | succ t ih => exact .head (Or.inl (if_pos hunseen)) ih

/-- The arguments from `gpu_cmd_transfer_to_host_2d`. -/
def transferRequest : Request := ⟨0x1000, 56, 0x2000, 24⟩

/-- The arguments from `gpu_cmd_resource_flush`. -/
def flushRequest : Request := ⟨0x1000, 48, 0x2000, 24⟩

/-- The first call has timed out. -/
def timedOut : State := { State.init.published 64 transferRequest with pc := .returned false }

/-- Then the device has answered it. -/
def answeredLate : State :=
  { timedOut with
    usedIdx := 1, deviceIdx := 1, pending := [], completed := [(1, transferRequest)] }

theorem run_timedOut : Run 64 (fun _ ↦ True) timedOut := by
  have hwaiting : Run 64 (fun _ ↦ True) (State.init.published 64 transferRequest) :=
    (Run.call transferRequest .init (Or.inl rfl) trivial).reaches
      (call_reaches_published (by decide) _ _)
  exact hwaiting.reaches (waiting_reaches_timeout hwaiting.counted rfl)

theorem run_answeredLate : Run 64 (fun _ ↦ True) answeredLate :=
  run_timedOut.step (Or.inr rfl)

/-- After a timeout the next call stores into descriptors that are in use; and
if the device answers the first request late, the second call returns 1 with
its own request still waiting. -/
theorem timeout_breaks_matching :
    (∃ s rest, Run 64 (fun _ ↦ True) s ∧ s.pc = .storing ((.descAddr 0, 0x1000) :: rest) ∧
      s.calls = 2 ∧ s.pending = [1]) ∧
    ∃ s, Run 64 (fun _ ↦ True) s ∧ s.pc = .returned true ∧ s.calls = 2 ∧ s.pending = [2] ∧
      s.completed = [(1, transferRequest)] := by
  have hrest : State.AtRest timedOut ∧ State.AtRest answeredLate :=
    ⟨Or.inr ⟨false, rfl⟩, Or.inr ⟨false, rfl⟩⟩
  have hsecond := run_answeredLate.call flushRequest hrest.2 trivial
  have hreturned := hsecond.reaches ((call_reaches_published (by decide) _ _).trans
    (published_reaches_returned run_answeredLate.counted (by decide) _))
  exact ⟨⟨_, _, run_timedOut.call flushRequest hrest.1 trivial, rfl, rfl, rfl⟩,
    ⟨_, hreturned, rfl, rfl, rfl, rfl⟩⟩

end ImplusKernel.Virtqueue
