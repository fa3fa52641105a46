import ImplusKernel.Lib.Fields
import Mathlib.SetTheory.Cardinal.Continuum

/-!
# A display adapter behind a split queue

The adapter keeps resources, which are pictures of its own, and shows one of
them.  A driver hands it commands through a queue in memory: a chain of two
descriptors, one for the command and one for the response.  Pixels are copied
from the memory behind a resource to the resource by one command, and from
there to the screen by another.
-/

namespace ImplusKernel.GpuHost

open ByteMemory Fields

structure Rect where
  x : ℕ
  y : ℕ
  width : ℕ
  height : ℕ
deriving DecidableEq, Repr

def Rect.Contains (r : Rect) (x y : ℕ) : Prop :=
  (r.x ≤ x ∧ x < r.x + r.width) ∧ r.y ≤ y ∧ y < r.y + r.height

instance (r : Rect) (x y : ℕ) : Decidable (r.Contains x y) :=
  inferInstanceAs (Decidable (_ ∧ _))

/-- A picture, and the address and length of the memory behind it. -/
structure Resource where
  width : ℕ
  height : ℕ
  backing : Option (ℕ × ℕ)
  pixel : ℕ → ℕ → ℕ

def Resource.Fits (s : Resource) (r : Rect) : Prop :=
  r.x + r.width ≤ s.width ∧ r.y + r.height ≤ s.height

instance (s : Resource) (r : Rect) : Decidable (s.Fits r) :=
  inferInstanceAs (Decidable (_ ∧ _))

structure Scanout where
  id : ℕ
  rect : Rect

/-- The adapter: the size that it prefers, its resources, what is shown, and
the number of commands that it has served. -/
structure Host where
  mode : ℕ × ℕ
  resources : ℕ → Option Resource
  scanout : Option Scanout
  screen : ℕ → ℕ → ℕ
  served : ℕ

/-! ## Commands -/

inductive Command
  | displayInfo
  | create (id format width height : ℕ)
  | setScanout (rect : Rect) (scanout id : ℕ)
  | flush (rect : Rect) (id : ℕ)
  | transfer (rect : Rect) (offset id : ℕ)
  | attach (id address length : ℕ)
deriving DecidableEq, Repr

def rectAt (m : Mem) (a : ℕ) : Rect :=
  ⟨readLE m a 4, readLE m (a + 4) 4, readLE m (a + 8) 4, readLE m (a + 12) 4⟩

/-- The command in the `len` bytes at `a`.  A list of more than one piece of
memory is not supported. -/
def decode (m : Mem) (a len : ℕ) : Option Command :=
  let type := readLE m a 4
  if type = 0x0100 ∧ 24 ≤ len then some .displayInfo
  else if type = 0x0101 ∧ 40 ≤ len then
    some (.create (readLE m (a + 24) 4) (readLE m (a + 28) 4) (readLE m (a + 32) 4)
      (readLE m (a + 36) 4))
  else if type = 0x0103 ∧ 48 ≤ len then
    some (.setScanout (rectAt m (a + 24)) (readLE m (a + 40) 4) (readLE m (a + 44) 4))
  else if type = 0x0104 ∧ 48 ≤ len then
    some (.flush (rectAt m (a + 24)) (readLE m (a + 40) 4))
  else if type = 0x0105 ∧ 56 ≤ len then
    some (.transfer (rectAt m (a + 24)) (readLE m (a + 40) 8) (readLE m (a + 48) 4))
  else if type = 0x0106 ∧ 48 ≤ len ∧ readLE m (a + 28) 4 = 1 then
    some (.attach (readLE m (a + 24) 4) (readLE m (a + 32) 8) (readLE m (a + 40) 4))
  else none

def okNodata : ℕ := 0x1100

def okDisplayInfo : ℕ := 0x1101

def errUnspecified : ℕ := 0x1200

def errScanout : ℕ := 0x1202

def errResource : ℕ := 0x1203

def errParameter : ℕ := 0x1205

/-- The formats, all of four bytes for a pixel. -/
def formats : List ℕ := [1, 2, 3, 4, 67, 68, 121, 134]

def Host.setResource (h : Host) (id : ℕ) (s : Resource) : Host :=
  { h with resources := Function.update h.resources id (some s) }

theorem Host.setResource_self (h : Host) (id : ℕ) (s : Resource) :
    (h.setResource id s).resources id = some s :=
  Function.update_self ..

def Host.setServed (h : Host) (served : ℕ) : Host := { h with served := served }

/-- The rectangle as it is in memory, with the rows of the whole picture. -/
def Resource.transferred (s : Resource) (m : Mem) (a : ℕ) (r : Rect) : Resource :=
  { s with pixel := fun x y ↦
      if r.Contains x y then readLE m (a + 4 * (s.width * (y - r.y) + (x - r.x))) 4
      else s.pixel x y }

/-- The part of the picture that lies in `r` and in the rectangle that is
shown. -/
def Host.shown (h : Host) (s : Resource) (view r : Rect) : Host :=
  { h with screen := fun x y ↦
      if (x < view.width ∧ y < view.height) ∧ r.Contains (view.x + x) (view.y + y) then
        s.pixel (view.x + x) (view.y + y)
      else h.screen x y }

def execute (h : Host) (m : Mem) : Command → Host × ℕ
  | .displayInfo => (h, okDisplayInfo)
  | .create id format width height =>
      if id = 0 ∨ (h.resources id).isSome then (h, errResource)
      else if format ∉ formats ∨ width = 0 ∨ height = 0 then (h, errParameter)
      else (h.setResource id ⟨width, height, none, fun _ _ ↦ 0⟩, okNodata)
  | .setScanout rect scanout id =>
      if scanout ≠ 0 then (h, errScanout)
      else if id = 0 then ({ h with scanout := none }, okNodata)
      else
        match h.resources id with
        | none => (h, errResource)
        | some s =>
            if s.Fits rect then ({ h with scanout := some ⟨id, rect⟩ }.shown s rect rect, okNodata)
            else (h, errParameter)
  | .flush rect id =>
      match h.resources id with
      | none => (h, errResource)
      | some s =>
          if s.Fits rect then
            match h.scanout with
            | some view => (if view.id = id then h.shown s view.rect rect else h, okNodata)
            | none => (h, okNodata)
          else (h, errParameter)
  | .transfer rect offset id =>
      match h.resources id with
      | none => (h, errResource)
      | some s =>
          match s.backing with
          | none => (h, errUnspecified)
          | some (a, length) =>
              if s.Fits rect ∧ offset + 4 * (s.width * rect.height) ≤ length then
                (h.setResource id (s.transferred m (a + offset) rect), okNodata)
              else (h, errParameter)
  | .attach id address length =>
      match h.resources id with
      | none => (h, errResource)
      | some s =>
          if s.backing.isSome then (h, errUnspecified)
          else (h.setResource id { s with backing := some (address, length) }, okNodata)

/-! ## The queue -/

structure Queue where
  size : ℕ
  desc : ℕ
  avail : ℕ
  used : ℕ
deriving DecidableEq, Repr

/-- The mode of output `k`: a rectangle, whether the output is on, and flags.
Only the first is. -/
def modeFields (h : Host) (k : ℕ) : List Field :=
  let a := 24 + 24 * k
  let size := if k = 0 then h.mode else (0, 0)
  [(a, 4, 0), (a + 4, 4, 0), (a + 8, 4, size.1), (a + 12, 4, size.2),
    (a + 16, 4, if k = 0 then 1 else 0), (a + 20, 4, 0)]

/-- The header of a response, and the modes of the sixteen outputs when they
were asked for. -/
def responseFields (h : Host) (status : ℕ) : List Field :=
  [(0, 4, status), (4, 4, 0), (8, 8, 0), (16, 4, 0), (20, 4, 0)] ++
    if status = okDisplayInfo then (List.range 16).flatMap (modeFields h) else []

/-- A command that cannot be read is answered with an error. -/
def perform (h : Host) (m : Mem) : Option Command → Host × ℕ
  | none => (h, errUnspecified)
  | some c => execute h m c

/-- The next chain of the queue, if there is one. -/
def process (q : Queue) (h : Host) (m : Mem) : Host × Mem :=
  let slot := h.served % q.size
  let head := readLE m (q.avail + 4 + 2 * slot) 2
  let d := q.desc + 16 * head
  let d' := q.desc + 16 * readLE m (d + 14) 2
  if readLE m (q.avail + 2) 2 = h.served ∨ readLE m (d + 12) 2 ≠ 1 ∨ readLE m (d' + 12) 2 ≠ 2 then
    (h, m)
  else
    let answer := perform h m (decode m (readLE m d 8) (readLE m (d + 8) 4))
    let len := readLE m (d' + 8) 4
    let fields := (responseFields answer.1 answer.2).filter fun f ↦ f.1 + f.2.1 ≤ len
    let m₁ := storeFields m (readLE m d' 8) fields
    let m₂ := storeFields m₁ (q.used + 4 + 8 * slot) [(0, 4, head), (4, 4, len)]
    let served := (h.served + 1) % 2 ^ 16
    (answer.1.setServed served, writeLE m₂ (q.used + 2) 2 served)

/-! ## One chain -/

variable {q : Queue} {h : Host} {m : Mem} {cmd cmdLen resp respLen x : ℕ}

/-- The next chain has a command of `cmdLen` bytes and room for a response. -/
structure Offers (q : Queue) (h : Host) (m : Mem) (cmd cmdLen resp respLen : ℕ) : Prop where
  pending : readLE m (q.avail + 2) 2 ≠ h.served
  chain : ∃ head next,
    readLE m (q.avail + 4 + 2 * (h.served % q.size)) 2 = head ∧
      readLE m (q.desc + 16 * head) 8 = cmd ∧
      readLE m (q.desc + 16 * head + 8) 4 = cmdLen ∧
      readLE m (q.desc + 16 * head + 12) 2 = 1 ∧
      readLE m (q.desc + 16 * head + 14) 2 = next ∧
      readLE m (q.desc + 16 * next) 8 = resp ∧
      readLE m (q.desc + 16 * next + 8) 4 = respLen ∧
      readLE m (q.desc + 16 * next + 12) 2 = 2

def replyFields (h : Host) (m : Mem) (cmd cmdLen respLen : ℕ) : List Field :=
  let answer := perform h m (decode m cmd cmdLen)
  (responseFields answer.1 answer.2).filter fun f ↦ f.1 + f.2.1 ≤ respLen

theorem process_eq (ho : Offers q h m cmd cmdLen resp respLen) :
    ∃ head, process q h m =
      ((perform h m (decode m cmd cmdLen)).1.setServed ((h.served + 1) % 2 ^ 16),
        writeLE (storeFields (storeFields m resp (replyFields h m cmd cmdLen respLen))
          (q.used + 4 + 8 * (h.served % q.size)) [(0, 4, head), (4, 4, respLen)])
          (q.used + 2) 2 ((h.served + 1) % 2 ^ 16)) := by
  obtain ⟨head, next, rfl, rfl, rfl, hflags, rfl, rfl, rfl, hflags'⟩ := ho.chain
  refine ⟨readLE m (q.avail + 4 + 2 * (h.served % q.size)) 2, ?_⟩
  unfold process
  dsimp only
  rw [if_neg]
  · rfl
  · rintro (hidx | hcommand | hresponse)
    · exact ho.pending hidx
    · exact hcommand hflags
    · exact hresponse hflags'

theorem process_host (ho : Offers q h m cmd cmdLen resp respLen) :
    (process q h m).1 =
      (perform h m (decode m cmd cmdLen)).1.setServed ((h.served + 1) % 2 ^ 16) := by
  obtain ⟨head, heq⟩ := process_eq ho
  rw [heq]

theorem process_used (ho : Offers q h m cmd cmdLen resp respLen) :
    readLE (process q h m).2 (q.used + 2) 2 = (h.served + 1) % 2 ^ 16 := by
  obtain ⟨head, heq⟩ := process_eq ho
  have hlt : (h.served + 1) % 2 ^ 16 < 256 ^ 2 := Nat.mod_lt _ (by decide)
  rw [heq]
  exact readLE_writeLE_of_lt _ hlt

/-- Nothing but the response and the ring of used chains is written. -/
theorem process_outside (hsize : 0 < q.size) (ho : Offers q h m cmd cmdLen resp respLen)
    (hresp : x < resp ∨ resp + respLen ≤ x)
    (hused : x < q.used ∨ q.used + 4 + 8 * q.size ≤ x) : (process q h m).2 x = m x := by
  obtain ⟨head, heq⟩ := process_eq ho
  have hslot := Nat.mod_lt h.served hsize
  have hentry : ∀ f ∈ [(0, 4, head), (4, 4, respLen)], f.1 + f.2.1 ≤ 8 := by simp
  have hreply : ∀ f ∈ replyFields h m cmd cmdLen respLen, f.1 + f.2.1 ≤ respLen := by
    intro f hf
    simpa using (List.mem_filter.mp hf).2
  rw [heq]
  dsimp only
  rw [writeLE_outside _ (by omega), storeFields_outside hentry (by omega),
    storeFields_outside hreply hresp]

theorem modeFields_bounds (h : Host) (k : ℕ) :
    ∀ f ∈ modeFields h k, 24 + 24 * k ≤ f.1 ∧ f.1 + f.2.1 ≤ 24 + 24 * (k + 1) := by
  simp [modeFields]
  omega

theorem modeFields_separate (h : Host) (k : ℕ) : Separate (modeFields h k) := by
  simp [modeFields, Separate, Apart]

theorem modes_separate (h : Host) (n : ℕ) : Separate ((List.range n).flatMap (modeFields h)) := by
  rw [Separate, List.pairwise_flatMap]
  refine ⟨fun k _ ↦ modeFields_separate h k, List.pairwise_lt_range.imp ?_⟩
  intro k k' hlt f hf f' hf'
  have hbelow := (modeFields_bounds h k f hf).2
  have habove := (modeFields_bounds h k' f' hf').1
  exact Or.inl (by omega)

theorem responseFields_separate (h : Host) (status : ℕ) : Separate (responseFields h status) := by
  rw [responseFields, Separate, List.pairwise_append]
  refine ⟨by simp [Apart], ?_, ?_⟩
  · split
    · exact modes_separate h 16
    · exact List.Pairwise.nil
  · intro f hf f' hf'
    have hheader : f.1 + f.2.1 ≤ 24 := by
      revert f
      simp
    split at hf'
    · obtain ⟨k, -, hk⟩ := List.mem_flatMap.mp hf'
      have habove := (modeFields_bounds h k f' hk).1
      exact Or.inl (by omega)
    · cases hf'

/-- The width and the height that the driver asks for. -/
theorem mem_responseFields_mode (h : Host) :
    (32, 4, h.mode.1) ∈ responseFields h okDisplayInfo ∧
      (36, 4, h.mode.2) ∈ responseFields h okDisplayInfo := by
  have hfirst : ∀ f ∈ modeFields h 0, f ∈ responseFields h okDisplayInfo := by
    intro f hf
    rw [responseFields, if_pos rfl]
    exact List.mem_append_right _ (List.mem_flatMap.mpr ⟨0, by decide, hf⟩)
  exact ⟨hfirst _ (by simp [modeFields]), hfirst _ (by simp [modeFields])⟩

/-- Each field of the response that has room is there. -/
theorem process_reply (hsize : 0 < q.size) (ho : Offers q h m cmd cmdLen resp respLen)
    (hapart : resp + respLen ≤ q.used ∨ q.used + 4 + 8 * q.size ≤ resp) {o n v : ℕ}
    (hfield : (o, n, v) ∈ responseFields (perform h m (decode m cmd cmdLen)).1
      (perform h m (decode m cmd cmdLen)).2) (hroom : o + n ≤ respLen) :
    readLE (process q h m).2 (resp + o) n = v % 256 ^ n := by
  obtain ⟨head, heq⟩ := process_eq ho
  have hslot := Nat.mod_lt h.served hsize
  have hentry : ∀ f ∈ [(0, 4, head), (4, 4, respLen)], f.1 + f.2.1 ≤ 8 := by simp
  have hmem : (o, n, v) ∈ replyFields h m cmd cmdLen respLen :=
    List.mem_filter.mpr ⟨hfield, by simpa using hroom⟩
  have hseparate : Separate (replyFields h m cmd cmdLen respLen) :=
    List.Pairwise.filter _ (responseFields_separate _ _)
  rw [heq, ← hseparate.readLE hmem]
  apply readLE_congr
  intro x hlow hhigh
  dsimp only
  rw [writeLE_outside _ (by omega), storeFields_outside hentry (by omega)]

/-! ## Serving a chain -/

/-- The response and the ring of used chains lie in memory, apart from each
other. -/
structure Room (q : Queue) (resp respLen : ℕ) : Prop where
  size : 0 < q.size
  resp_fits : resp + respLen ≤ 2 ^ 64
  used_fits : q.used + 4 + 8 * q.size ≤ 2 ^ 64
  apart : resp + respLen ≤ q.used ∨ q.used + 4 + 8 * q.size ≤ resp

/-- `h'` and `m'` are what an adapter may leave behind: the command is carried
out and counted, the response holds the answer, and nothing else of memory
changes but the ring of used chains. -/
structure Serves (q : Queue) (h : Host) (m : Mem) (cmd cmdLen resp respLen : ℕ) (h' : Host)
    (m' : Mem) : Prop where
  host : h' = (perform h m (decode m cmd cmdLen)).1.setServed ((h.served + 1) % 2 ^ 16)
  used : readLE m' (q.used + 2) 2 = (h.served + 1) % 2 ^ 16
  reply : ∀ o n v, (o, n, v) ∈ responseFields (perform h m (decode m cmd cmdLen)).1
    (perform h m (decode m cmd cmdLen)).2 → o + n ≤ respLen →
    readLE m' (resp + o) n = v % 256 ^ n
  outside : ∀ x < 2 ^ 64, x < resp ∨ resp + respLen ≤ x →
    x < q.used ∨ q.used + 4 + 8 * q.size ≤ x → m' x = m x

theorem process_serves (hroom : Room q resp respLen) (ho : Offers q h m cmd cmdLen resp respLen) :
    Serves q h m cmd cmdLen resp respLen (process q h m).1 (process q h m).2 where
  host := process_host ho
  used := process_used ho
  reply _ _ _ hfield hin := process_reply hroom.size ho hroom.apart hfield hin
  outside _ _ hresp hused := process_outside hroom.size ho hresp hused

/-- What lies beyond the addresses of the machine does not matter. -/
theorem Serves.congr {h' : Host} {m' m'' : Mem} (hroom : Room q resp respLen)
    (hs : Serves q h m cmd cmdLen resp respLen h' m') (hm : ∀ x < 2 ^ 64, m'' x = m' x) :
    Serves q h m cmd cmdLen resp respLen h' m'' := by
  have hsize := hroom.size
  have hresp := hroom.resp_fits
  have hused := hroom.used_fits
  refine ⟨hs.host, ?_, fun o n v hfield hin ↦ ?_, fun x hx hout hring ↦ ?_⟩
  · rw [← hs.used]
    exact readLE_congr fun x _ hhigh ↦ hm x (by omega)
  · rw [← hs.reply o n v hfield hin]
    exact readLE_congr fun x _ hhigh ↦ hm x (by omega)
  · rw [hm x hx, hs.outside x hx hout hring]

/-! ## States in memory

An adapter has no more states than there are memories, so that it can keep
its state in memory of its own. -/

section Encoding

open Cardinal

theorem mk_picture : Cardinal.mk (ℕ → ℕ → ℕ) = 𝔠 := by
  simp

theorem mk_resource_le : Cardinal.mk Resource ≤ 𝔠 := by
  have hinj : Function.Injective fun s : Resource ↦
      ((s.width, s.height, s.backing), s.pixel) := by
    rintro ⟨w, h, b, p⟩ ⟨w', h', b', p'⟩ heq
    simp only [Prod.mk.injEq] at heq
    obtain ⟨⟨rfl, rfl, rfl⟩, rfl⟩ := heq
    rfl
  have hcount : Cardinal.mk (ℕ × ℕ × Option (ℕ × ℕ)) ≤ 𝔠 := mk_le_aleph0.trans aleph0_le_continuum
  calc Cardinal.mk Resource ≤ Cardinal.mk ((ℕ × ℕ × Option (ℕ × ℕ)) × (ℕ → ℕ → ℕ)) :=
        mk_le_of_injective hinj
    _ = Cardinal.mk (ℕ × ℕ × Option (ℕ × ℕ)) * Cardinal.mk (ℕ → ℕ → ℕ) := by
        rw [mk_prod, lift_id, lift_id]
    _ ≤ 𝔠 * 𝔠 := mul_le_mul' hcount mk_picture.le
    _ = 𝔠 := continuum_mul_self

theorem mk_resources_le : Cardinal.mk (ℕ → Option Resource) ≤ 𝔠 := by
  have hoption : Cardinal.mk (Option Resource) ≤ 𝔠 := by
    rw [mk_option]
    exact (add_le_add mk_resource_le one_le_aleph0).trans_eq continuum_add_aleph0
  calc Cardinal.mk (ℕ → Option Resource) = Cardinal.mk (Option Resource) ^ ℵ₀ := by simp
    _ ≤ 𝔠 ^ ℵ₀ := power_le_power_right hoption
    _ = 𝔠 := continuum_power_aleph0

theorem mk_host_le : Cardinal.mk Host ≤ 𝔠 := by
  have hview : Function.Injective fun v : Scanout ↦
      (v.id, v.rect.x, v.rect.y, v.rect.width, v.rect.height) := by
    rintro ⟨id, ⟨x, y, w, h⟩⟩ ⟨id', ⟨x', y', w', h'⟩⟩ heq
    simp only [Prod.mk.injEq] at heq
    obtain ⟨rfl, rfl, rfl, rfl, rfl⟩ := heq
    rfl
  have hinj : Function.Injective fun h : Host ↦
      ((h.mode, h.served, h.scanout.map fun v ↦
        (v.id, v.rect.x, v.rect.y, v.rect.width, v.rect.height)), h.resources, h.screen) := by
    rintro ⟨mode, resources, scanout, screen, served⟩
      ⟨mode', resources', scanout', screen', served'⟩ heq
    simp only [Prod.mk.injEq] at heq
    obtain ⟨⟨rfl, rfl, hscanout⟩, rfl, rfl⟩ := heq
    rw [Option.map_injective hview hscanout]
  have hcount : Cardinal.mk ((ℕ × ℕ) × ℕ × Option (ℕ × ℕ × ℕ × ℕ × ℕ)) ≤ 𝔠 :=
    mk_le_aleph0.trans aleph0_le_continuum
  calc Cardinal.mk Host ≤ _ := mk_le_of_injective hinj
    _ = Cardinal.mk ((ℕ × ℕ) × ℕ × Option (ℕ × ℕ × ℕ × ℕ × ℕ)) *
        (Cardinal.mk (ℕ → Option Resource) * Cardinal.mk (ℕ → ℕ → ℕ)) := by
        simp only [mk_prod, lift_id]
    _ ≤ 𝔠 * (𝔠 * 𝔠) := mul_le_mul' hcount (mul_le_mul' mk_resources_le mk_picture.le)
    _ = 𝔠 := by rw [continuum_mul_self, continuum_mul_self]

theorem exists_encoding : ∃ encode : Host → ℕ → UInt8, Function.Injective encode := by
  have hinj : Function.Injective fun s : ℕ → Bool ↦ fun n ↦ if s n then (1 : UInt8) else 0 := by
    intro s s' heq
    funext n
    have hn := congrFun heq n
    dsimp only at hn
    cases hs : s n <;> cases hs' : s' n <;> simp [hs, hs'] at hn ⊢
  have hbytes : 𝔠 ≤ Cardinal.mk (ℕ → UInt8) := by
    calc 𝔠 = Cardinal.mk (ℕ → Bool) := by simp
      _ ≤ Cardinal.mk (ℕ → UInt8) := mk_le_of_injective hinj
  obtain ⟨encode⟩ := (Cardinal.le_def _ _).mp (mk_host_le.trans hbytes)
  exact ⟨encode, encode.injective⟩

end Encoding

instance : Nonempty Host := ⟨⟨(0, 0), fun _ ↦ none, none, fun _ _ ↦ 0, 0⟩⟩

noncomputable def encode : Host → ℕ → UInt8 := exists_encoding.choose

/-- The state that is kept from `2 ^ 64` on. -/
noncomputable def hostAt (m : Mem) : Host := Function.invFun encode fun i ↦ m (2 ^ 64 + i)

noncomputable def withHost (h : Host) (m : Mem) : Mem := fun x ↦
  if x < 2 ^ 64 then m x else encode h (x - 2 ^ 64)

theorem hostAt_withHost (h : Host) (m : Mem) : hostAt (withHost h m) = h := by
  have hbytes : (fun i ↦ withHost h m (2 ^ 64 + i)) = encode h := by
    funext i
    rw [withHost, if_neg (by omega), Nat.add_sub_cancel_left]
  rw [hostAt, hbytes]
  exact Function.leftInverse_invFun exists_encoding.choose_spec h

theorem hostAt_congr {m m' : Mem} (h : ∀ x, 2 ^ 64 ≤ x → m' x = m x) : hostAt m' = hostAt m := by
  have hbytes : (fun i ↦ m' (2 ^ 64 + i)) = fun i ↦ m (2 ^ 64 + i) := by
    funext i
    exact h _ (by omega)
  rw [hostAt, hostAt, hbytes]

end ImplusKernel.GpuHost
