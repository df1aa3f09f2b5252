import RCore.Lib.RingWindow
import RCore.Mm.UserBuffer

/-!
# Pipes

`PipeRingBuffer` and the loops of `Pipe::read` and `Pipe::write` are translated
from the source.  A call is run in small steps, one for each byte and for each
turn of the outer loop; `PipeSystem` lets any number of threads make such calls,
with control changing hands only where a call suspends or outside of calls.  Two
lists that the source does not have record the bytes stored by writers and the
bytes handed to readers.
-/

namespace RCore.Fs

open RCore.Lib.RingWindow RCore.Mm Function Option

/-! ## The ring buffer -/

abbrev ringBufferSize : Nat := 32

inductive RingBufferStatus where
  | full
  | empty
  | normal
  deriving DecidableEq

/-- The weak reference `write_end` is represented by the strong count in `PipeState`. -/
structure PipeRingBuffer where
  arr : Vector UInt8 ringBufferSize
  head : Nat
  tail : Nat
  status : RingBufferStatus

namespace PipeRingBuffer

def new : PipeRingBuffer where
  arr := Vector.replicate ringBufferSize 0
  head := 0
  tail := 0
  status := .empty

/-- `none` is an index out of bounds, here and in `readByte`. -/
def writeByte (self : PipeRingBuffer) (byte : UInt8) : Option PipeRingBuffer :=
  if h : self.tail < ringBufferSize then
    let tail := (self.tail + 1) % ringBufferSize
    some { self with
      arr := self.arr.set self.tail byte h
      tail := tail
      status := if tail = self.head then .full else .normal }
  else none

def readByte (self : PipeRingBuffer) : Option (UInt8 × PipeRingBuffer) :=
  if h : self.head < ringBufferSize then
    let head := (self.head + 1) % ringBufferSize
    some (self.arr[self.head], { self with
      head := head
      status := if head = self.tail then .empty else .normal })
  else none

def availableRead (self : PipeRingBuffer) : Nat :=
  if self.status = .empty then 0
  else if self.tail > self.head then self.tail - self.head
  else self.tail + ringBufferSize - self.head

def availableWrite (self : PipeRingBuffer) : Nat :=
  if self.status = .full then 0 else ringBufferSize - self.availableRead

/-- Head and tail are indexes, and coincide exactly when the ring is full or empty. -/
structure Ok (r : PipeRingBuffer) : Prop where
  head_lt : r.head < 32
  tail_lt : r.tail < 32
  normal_iff : r.status = .normal ↔ r.head ≠ r.tail

/-- The bytes in the ring, the oldest first. -/
def contents (self : PipeRingBuffer) : List UInt8 :=
  window (fun i => self.arr[i]?.getD 0) 32 self.head self.availableRead

theorem ok_new : new.Ok := ⟨by decide, by decide, by decide⟩

variable {r : PipeRingBuffer}

theorem Ok.head_eq (h : r.Ok) (hs : r.status ≠ .normal) : r.head = r.tail := by
  by_contra hne
  exact hs (h.normal_iff.mpr hne)

theorem Ok.availableRead_le (h : r.Ok) : r.availableRead ≤ 32 := by
  have hhead := h.head_lt
  have htail := h.tail_lt
  unfold availableRead ringBufferSize
  split
  · omega
  · rename_i hempty
    split
    · omega
    · by_cases hfull : r.status = .full
      · have heq := h.head_eq (by rw [hfull]; decide)
        omega
      · have hne := h.normal_iff.mp (by cases hs : r.status <;> simp_all)
        omega

theorem Ok.availableRead_add_availableWrite (h : r.Ok) :
    r.availableRead + r.availableWrite = 32 := by
  have hle := h.availableRead_le
  unfold availableWrite
  split
  · rename_i hfull
    have heq := h.head_eq (by rw [hfull]; decide)
    unfold availableRead ringBufferSize
    rw [if_neg (by rw [hfull]; decide), if_neg (by omega)]
    omega
  · unfold ringBufferSize
    omega

theorem Ok.tail_eq (h : r.Ok) : r.tail = (r.head + r.availableRead) % 32 := by
  have hhead := h.head_lt
  have htail := h.tail_lt
  unfold availableRead ringBufferSize
  split
  · rename_i hempty
    have heq := h.head_eq (by rw [hempty]; decide)
    omega
  · split <;> omega

theorem availableRead_eq {n : Nat} (hhead : r.head < 32) (hn : n ≤ 32)
    (htail : r.tail = (r.head + n) % 32) (hempty : r.status = .empty ↔ n = 0) :
    r.availableRead = n := by
  unfold availableRead ringBufferSize
  by_cases hzero : n = 0
  · rw [if_pos (hempty.mpr hzero), hzero]
  · rw [if_neg (fun he => hzero (hempty.mp he))]
    split <;> omega

/-- A byte written into a ring that is not full comes last. -/
theorem Ok.writeByte (h : r.Ok) (hspace : 0 < r.availableWrite) (byte : UInt8) :
    ∃ r', r.writeByte byte = some r' ∧ r'.Ok ∧ r'.availableRead = r.availableRead + 1 ∧
      r'.contents = r.contents ++ [byte] := by
  have hhead := h.head_lt
  have htail := h.tail_lt
  have hsum := h.availableRead_add_availableWrite
  have heq := h.tail_eq
  let r' : PipeRingBuffer := { r with
    arr := r.arr.set r.tail byte htail
    tail := (r.tail + 1) % 32
    status := if (r.tail + 1) % 32 = r.head then .full else .normal }
  have hstatus : r'.status = if (r.tail + 1) % 32 = r.head then .full else .normal := rfl
  have hok : r'.Ok := by
    refine ⟨hhead, Nat.mod_lt _ (by omega), ?_⟩
    rw [hstatus]
    by_cases hfull : (r.tail + 1) % 32 = r.head
    · rw [if_pos hfull]
      exact ⟨fun hs => absurd hs (by decide), fun hne => absurd hfull.symm hne⟩
    · rw [if_neg hfull]
      exact ⟨fun _ => Ne.symm hfull, fun _ => rfl⟩
  have hcount : r'.availableRead = r.availableRead + 1 := by
    refine availableRead_eq hhead (by omega) ?_ ?_
    · change (r.tail + 1) % 32 = (r.head + (r.availableRead + 1)) % 32
      omega
    · rw [hstatus]
      split <;> simp
  have hcells : (fun i => r'.arr[i]?.getD 0) =
      update (fun i => r.arr[i]?.getD 0) r.tail byte := by
    funext i
    change (r.arr.set r.tail byte htail)[i]?.getD 0 = _
    rw [Vector.getElem?_set]
    by_cases hi : r.tail = i
    · rw [if_pos hi, ← hi, update_self]
      rfl
    · rw [if_neg hi, update_of_ne (Ne.symm hi)]
  refine ⟨r', dif_pos htail, hok, hcount, ?_⟩
  rw [contents, hcells, hcount, heq]
  exact window_push _ _ _ (by omega)

/-- A byte read from a ring that is not empty is the oldest. -/
theorem Ok.readByte (h : r.Ok) (hdata : 0 < r.availableRead) :
    ∃ byte r', r.readByte = some (byte, r') ∧ r'.Ok ∧ r.availableRead = r'.availableRead + 1 ∧
      r.contents = byte :: r'.contents := by
  have hhead := h.head_lt
  have htail := h.tail_lt
  have hle := h.availableRead_le
  have heq := h.tail_eq
  let r' : PipeRingBuffer := { r with
    head := (r.head + 1) % 32
    status := if (r.head + 1) % 32 = r.tail then .empty else .normal }
  have hstatus : r'.status = if (r.head + 1) % 32 = r.tail then .empty else .normal := rfl
  have hok : r'.Ok := by
    refine ⟨Nat.mod_lt _ (by omega), htail, ?_⟩
    rw [hstatus]
    by_cases hempty : (r.head + 1) % 32 = r.tail
    · rw [if_pos hempty]
      exact ⟨fun hs => absurd hs (by decide), fun hne => absurd hempty hne⟩
    · rw [if_neg hempty]
      exact ⟨fun _ => hempty, fun _ => rfl⟩
  have hcount : r'.availableRead = r.availableRead - 1 := by
    refine availableRead_eq (Nat.mod_lt _ (by omega)) (by omega) ?_ ?_
    · change r.tail = ((r.head + 1) % 32 + (r.availableRead - 1)) % 32
      omega
    · rw [hstatus]
      by_cases hempty : (r.head + 1) % 32 = r.tail
      · rw [if_pos hempty]
        exact ⟨fun _ => by omega, fun _ => rfl⟩
      · rw [if_neg hempty]
        exact ⟨fun hs => absurd hs (by decide), fun hz => by omega⟩
  have hfirst : r.arr[r.head % 32]?.getD 0 = r.arr[r.head] := by
    rw [Nat.mod_eq_of_lt hhead, Vector.getElem?_eq_getElem hhead]
    rfl
  refine ⟨r.arr[r.head], r', dif_pos hhead, hok, by omega, ?_⟩
  have hsucc : r.availableRead = r'.availableRead + 1 := by omega
  rw [contents, hsucc, window_pop, hfirst]
  rfl

end PipeRingBuffer

/-! ## Calls -/

inductive CallKind where
  | read
  | write
  deriving DecidableEq

/-- A call of `Pipe::read` or `Pipe::write` in progress: the local variables of its loops. -/
structure Call where
  kind : CallKind
  iter : UserBufferIterator
  /-- `read_size` or `write_size`. -/
  size : Nat
  /-- Rounds that the inner loop still has to make; `none` at the top of the outer loop. -/
  batch : Option Nat

/-- The length of the buffer that the call was given. -/
def Call.len (c : Call) : Nat := (UserBuffer.mk c.iter.buffers).len

/-- What the calls share. -/
structure PipeState where
  ring : PipeRingBuffer
  mem : Memory
  /-- The strong count of the write end. -/
  strong : Nat
  /-- All bytes given to `write_byte` so far. -/
  stored : List UInt8
  /-- All bytes that `read_byte` has given to readers so far. -/
  handed : List UInt8

def PipeState.allWriteEndsClosed (s : PipeState) : Bool := s.strong == 0

/-- How a step of a call ends. -/
inductive Outcome where
  | more (c : Call) (s : PipeState)
  | suspend (c : Call) (s : PipeState)
  | ret (n : Nat) (s : PipeState)

namespace Call

def readStep (c : Call) (s : PipeState) : Option Outcome :=
  match c.batch with
  | none =>
      let loopRead := s.ring.availableRead
      if loopRead = 0 then
        if s.allWriteEndsClosed then some (.ret c.size s) else some (.suspend c s)
      else some (.more { c with batch := some loopRead } s)
  | some 0 => some (.more { c with batch := none } s)
  | some (n + 1) => do
      let (r, iter) ← c.iter.next
      match r with
      | some byteRef =>
          let (byte, ring) ← s.ring.readByte
          some (.more { c with iter := iter, size := c.size + 1, batch := some n }
            { s with
              ring := ring
              mem := Function.update s.mem byteRef byte
              handed := s.handed ++ [byte] })
      | none => some (.ret c.size s)

def writeStep (c : Call) (s : PipeState) : Option Outcome :=
  match c.batch with
  | none =>
      let loopWrite := s.ring.availableWrite
      if loopWrite = 0 then some (.suspend c s)
      else some (.more { c with batch := some loopWrite } s)
  | some 0 => some (.more { c with batch := none } s)
  | some (n + 1) => do
      let (r, iter) ← c.iter.next
      match r with
      | some byteRef =>
          let ring ← s.ring.writeByte (s.mem byteRef)
          some (.more { c with iter := iter, size := c.size + 1, batch := some n }
            { s with ring := ring, stored := s.stored ++ [s.mem byteRef] })
      | none => some (.ret c.size s)

def step (c : Call) (s : PipeState) : Option Outcome :=
  match c.kind with
  | .read => c.readStep s
  | .write => c.writeStep s

def start (kind : CallKind) (buf : UserBuffer) : Call where
  kind := kind
  iter := buf.intoIter
  size := 0
  batch := none

end Call

/-! ## Threads -/

structure PipeSystem where
  pipe : PipeState
  /-- References to the write end in descriptor tables. -/
  fds : Nat
  /-- The call that each thread is in. -/
  calls : Nat → Option Call
  /-- The thread that has control. -/
  running : Nat

namespace PipeSystem

/-- `make_pipe`, with the write end in one descriptor table. -/
def makePipe (mem : Memory) (running : Nat) : PipeSystem where
  pipe := { ring := .new, mem := mem, strong := 1, stored := [], handed := [] }
  fds := 1
  calls := fun _ => none
  running := running

/-- One step of the running thread.  Outside of calls it may begin a call, duplicate or close a
write end, do anything to memory, and pass control to any other thread; a call of `write` holds
a reference to the write end of its own until it returns. -/
inductive Step : PipeSystem → PipeSystem → Prop where
  | more {y : PipeSystem} {c c' : Call} {s' : PipeState} (hcall : y.calls y.running = some c)
      (hstep : c.step y.pipe = some (.more c' s')) :
      Step y { y with pipe := s', calls := Function.update y.calls y.running (some c') }
  | suspend {y : PipeSystem} {c c' : Call} {s' : PipeState} (next : Nat)
      (hcall : y.calls y.running = some c) (hstep : c.step y.pipe = some (.suspend c' s')) :
      Step y { y with
        pipe := s'
        calls := Function.update y.calls y.running (some c')
        running := next }
  | ret {y : PipeSystem} {c : Call} {n : Nat} {s' : PipeState}
      (hcall : y.calls y.running = some c) (hstep : c.step y.pipe = some (.ret n s')) :
      Step y { y with
        pipe := match c.kind with
          | .read => s'
          | .write => { s' with strong := s'.strong - 1 }
        calls := Function.update y.calls y.running none }
  | read {y : PipeSystem} (buf : UserBuffer) (hidle : y.calls y.running = none) :
      Step y { y with
        calls := Function.update y.calls y.running (some (.start .read buf)) }
  | write {y : PipeSystem} (buf : UserBuffer) (hidle : y.calls y.running = none)
      (hopen : 0 < y.fds) :
      Step y { y with
        pipe := { y.pipe with strong := y.pipe.strong + 1 }
        calls := Function.update y.calls y.running (some (.start .write buf)) }
  | dup {y : PipeSystem} (hidle : y.calls y.running = none) (hopen : 0 < y.fds) :
      Step y { y with
        pipe := { y.pipe with strong := y.pipe.strong + 1 }
        fds := y.fds + 1 }
  | close {y : PipeSystem} (hidle : y.calls y.running = none) (hopen : 0 < y.fds) :
      Step y { y with
        pipe := { y.pipe with strong := y.pipe.strong - 1 }
        fds := y.fds - 1 }
  | other {y : PipeSystem} (mem : Memory) (next : Nat) (hidle : y.calls y.running = none) :
      Step y { y with pipe := { y.pipe with mem := mem }, running := next }

inductive Reachable : PipeSystem → Prop where
  | start (mem : Memory) (running : Nat) : Reachable (makePipe mem running)
  | step {y y' : PipeSystem} (h : Reachable y) (hstep : Step y y') : Reachable y'

end PipeSystem

/-! ## What a step of a call does -/

/-- What has been stored is what has been handed out, followed by the ring. -/
structure PipeState.Ok (s : PipeState) : Prop where
  ring : s.ring.Ok
  fifo : s.stored = s.handed ++ s.ring.contents

/-- What the ring can still give to, or take from, a call. -/
def Call.available (c : Call) (s : PipeState) : Nat :=
  match c.kind with
  | .read => s.ring.availableRead
  | .write => s.ring.availableWrite

/-- The size is the number of bytes taken from the iterator, and the inner loop does not ask
for more than the ring has. -/
structure Call.Ok (c : Call) (s : PipeState) : Prop where
  position : c.iter.Position c.size
  batch_le : ∀ n, c.batch = some n → n ≤ c.available s

def Outcome.Ok (c : Call) (s : PipeState) : Outcome → Prop
  | .more c' s' => s'.Ok ∧ c'.Ok s'
  | .suspend c' s' => c' = c ∧ s' = s ∧ c.batch = none
  | .ret n s' => s' = s ∧ n ≤ c.len ∧
      (n < c.len → c.kind = .read ∧ s.ring.availableRead = 0 ∧ s.strong = 0)

section Calls

variable {c : Call} {s : PipeState} {o : Outcome}

/-- What one step of a call can do. -/
inductive Call.Does (c : Call) (s : PipeState) : Outcome → Prop where
  | wait (hbatch : c.batch = none) : Does c s (.suspend c s)
  | closed (hkind : c.kind = .read) (hempty : s.ring.availableRead = 0) (hclosed : s.strong = 0) :
      Does c s (.ret c.size s)
  | beginBatch : Does c s (.more { c with batch := some (c.available s) } s)
  | endBatch : Does c s (.more { c with batch := none } s)
  | full {iter : UserBufferIterator} (hnext : c.iter.next = some (none, iter)) :
      Does c s (.ret c.size s)
  | get {n byteRef : Nat} {iter : UserBufferIterator} {byte : UInt8} {ring : PipeRingBuffer}
      (hkind : c.kind = .read) (hbatch : c.batch = some (n + 1))
      (hnext : c.iter.next = some (some byteRef, iter))
      (hread : s.ring.readByte = some (byte, ring)) :
      Does c s (.more { c with iter := iter, size := c.size + 1, batch := some n }
        { s with
          ring := ring
          mem := Function.update s.mem byteRef byte
          handed := s.handed ++ [byte] })
  | put {n byteRef : Nat} {iter : UserBufferIterator} {ring : PipeRingBuffer}
      (hkind : c.kind = .write) (hbatch : c.batch = some (n + 1))
      (hnext : c.iter.next = some (some byteRef, iter))
      (hwrite : s.ring.writeByte (s.mem byteRef) = some ring) :
      Does c s (.more { c with iter := iter, size := c.size + 1, batch := some n }
        { s with ring := ring, stored := s.stored ++ [s.mem byteRef] })

theorem Call.does_of_readStep (hkind : c.kind = .read) (hstep : c.readStep s = some o) :
    c.Does s o := by
  have havailable : c.available s = s.ring.availableRead := by rw [Call.available, hkind]
  rw [Call.readStep] at hstep
  split at hstep
  · rename_i hbatch
    simp only at hstep
    split at hstep
    · rename_i hempty
      split at hstep
      · rename_i hclosed
        cases hstep
        exact .closed hkind hempty (by simpa [PipeState.allWriteEndsClosed] using hclosed)
      · cases hstep
        exact .wait hbatch
    · cases hstep
      rw [← havailable]
      exact .beginBatch
  · cases hstep
    exact .endBatch
  · rename_i n hbatch
    simp only [bind_eq_bind, bind_eq_some_iff] at hstep
    obtain ⟨⟨r, iter⟩, hnext, hstep⟩ := hstep
    cases r with
    | none =>
      cases hstep
      exact .full hnext
    | some byteRef =>
      simp only [bind_eq_some_iff] at hstep
      obtain ⟨⟨byte, ring⟩, hread, hstep⟩ := hstep
      cases hstep
      exact .get hkind hbatch hnext hread

theorem Call.does_of_writeStep (hkind : c.kind = .write) (hstep : c.writeStep s = some o) :
    c.Does s o := by
  have havailable : c.available s = s.ring.availableWrite := by rw [Call.available, hkind]
  rw [Call.writeStep] at hstep
  split at hstep
  · rename_i hbatch
    simp only at hstep
    split at hstep
    · cases hstep
      exact .wait hbatch
    · cases hstep
      rw [← havailable]
      exact .beginBatch
  · cases hstep
    exact .endBatch
  · rename_i n hbatch
    simp only [bind_eq_bind, bind_eq_some_iff] at hstep
    obtain ⟨⟨r, iter⟩, hnext, hstep⟩ := hstep
    cases r with
    | none =>
      cases hstep
      exact .full hnext
    | some byteRef =>
      simp only [bind_eq_some_iff] at hstep
      obtain ⟨ring, hwrite, hstep⟩ := hstep
      cases hstep
      exact .put hkind hbatch hnext hwrite

theorem Call.does_of_step (hstep : c.step s = some o) : c.Does s o := by
  cases hkind : c.kind with
  | read =>
    rw [Call.step, hkind] at hstep
    exact Call.does_of_readStep hkind hstep
  | write =>
    rw [Call.step, hkind] at hstep
    exact Call.does_of_writeStep hkind hstep

/-- The call after a step that does not return. -/
def Outcome.call : Outcome → Option Call
  | .more c _ => some c
  | .suspend c _ => some c
  | .ret _ _ => none

theorem Call.step_position (h : c.iter.Position c.size) (hstep : c.step s = some o) {c' : Call}
    (hc : o.call = some c') :
    c'.iter.Position c'.size ∧ c'.iter.buffers = c.iter.buffers := by
  cases Call.does_of_step hstep with
  | wait hbatch =>
    cases hc
    exact ⟨h, rfl⟩
  | closed hkind hempty hclosed => cases hc
  | beginBatch =>
    cases hc
    exact ⟨h, rfl⟩
  | endBatch =>
    cases hc
    exact ⟨h, rfl⟩
  | full hnext => cases hc
  | get hkind hbatch hnext hread =>
    cases hc
    exact h.next_some hnext
  | put hkind hbatch hnext hwrite =>
    cases hc
    exact h.next_some hnext

def Outcome.state : Outcome → PipeState
  | .more _ s => s
  | .suspend _ s => s
  | .ret _ s => s

theorem Call.step_mem (hstep : c.step s = some o) :
    o.state.mem = s.mem ∨ ∃ byteRef iter byte, c.iter.next = some (some byteRef, iter) ∧
      o.state.mem = update s.mem byteRef byte := by
  cases Call.does_of_step hstep with
  | wait hbatch => exact .inl rfl
  | closed hkind hempty hclosed => exact .inl rfl
  | beginBatch => exact .inl rfl
  | endBatch => exact .inl rfl
  | full hnext => exact .inl rfl
  | get hkind hbatch hnext hread => exact .inr ⟨_, _, _, hnext, rfl⟩
  | put hkind hbatch hnext hwrite => exact .inl rfl

theorem Call.Ok.begin_batch (hc : c.Ok s) : Call.Ok { c with batch := some (c.available s) } s where
  position := hc.position
  batch_le := by
    rintro n ⟨⟩
    exact Nat.le_refl _

theorem Call.Ok.end_batch (hc : c.Ok s) : Call.Ok { c with batch := none } s where
  position := hc.position
  batch_le := by
    rintro n ⟨⟩

theorem Call.Ok.ret_full (hc : c.Ok s) {iter : UserBufferIterator}
    (hnext : c.iter.next = some (none, iter)) : Outcome.Ok c s (.ret c.size s) := by
  have hlen : c.size = c.len := hc.position.next_none hnext
  exact ⟨rfl, by omega, fun hlt => by omega⟩

theorem Call.Ok.of_waiting (hc : c.Ok s) (hbatch : c.batch = none) {s' : PipeState} :
    c.Ok s' where
  position := hc.position
  batch_le := by
    intro n hn
    rw [hbatch] at hn
    cases hn

theorem Call.step_ok (hc : c.Ok s) (hs : s.Ok) (hstep : c.step s = some o) : o.Ok c s := by
  cases Call.does_of_step hstep with
  | wait hbatch => exact ⟨rfl, rfl, hbatch⟩
  | closed hkind hempty hclosed =>
    exact ⟨rfl, hc.position.le_len, fun _ => ⟨hkind, hempty, hclosed⟩⟩
  | beginBatch => exact ⟨hs, hc.begin_batch⟩
  | endBatch => exact ⟨hs, hc.end_batch⟩
  | full hnext => exact hc.ret_full hnext
  | get hkind hbatch hnext hread =>
    have hle := hc.batch_le _ hbatch
    simp only [Call.available, hkind] at hle
    obtain ⟨byte, ring, hread', hring, hcount, hcontents⟩ := hs.ring.readByte (by omega)
    cases hread'.symm.trans hread
    refine ⟨⟨hring, ?_⟩, (hc.position.next_some hnext).1, ?_⟩
    · rw [hs.fifo, hcontents]
      simp
    · rintro m ⟨⟩
      simp only [Call.available, hkind]
      omega
  | @put n byteRef iter ring hkind hbatch hnext hwrite =>
    have hle := hc.batch_le _ hbatch
    simp only [Call.available, hkind] at hle
    obtain ⟨ring', hwrite', hring, hcount, hcontents⟩ :=
      hs.ring.writeByte (by omega) (s.mem byteRef)
    cases hwrite'.symm.trans hwrite
    have hsum := hs.ring.availableRead_add_availableWrite
    have hsum' := hring.availableRead_add_availableWrite
    refine ⟨⟨hring, ?_⟩, (hc.position.next_some hnext).1, ?_⟩
    · rw [hs.fifo, hcontents, List.append_assoc]
    · rintro m ⟨⟩
      simp only [Call.available, hkind]
      omega

end Calls

/-! ## Runs -/

namespace PipeSystem

/-- All calls are in order, and only the running thread is inside an inner loop. -/
structure Inv (y : PipeSystem) : Prop where
  pipe : y.pipe.Ok
  call : ∀ {tid c}, y.calls tid = some c → c.Ok y.pipe
  waiting : ∀ {tid c}, y.calls tid = some c → tid ≠ y.running → c.batch = none

theorem inv_makePipe (mem : Memory) (running : Nat) : (makePipe mem running).Inv where
  pipe := ⟨PipeRingBuffer.ok_new, rfl⟩
  call := by
    rintro tid c ⟨⟩
  waiting := by
    rintro tid c ⟨⟩

section Steps

variable {y y' : PipeSystem}

theorem Inv.set_call (h : y.Inv) {s' : PipeState} {call : Option Call} (hs : s'.Ok)
    (hc : ∀ c, call = some c → c.Ok s') :
    Inv { y with pipe := s', calls := update y.calls y.running call } where
  pipe := hs
  call := by
    intro tid c hcall
    by_cases htid : tid = y.running
    · simp only [htid, update_self] at hcall
      exact hc c hcall
    · simp only [update_of_ne htid] at hcall
      exact (h.call hcall).of_waiting (h.waiting hcall htid)
  waiting := by
    intro tid c hcall htid
    simp only [update_of_ne htid] at hcall
    exact h.waiting hcall htid

theorem Inv.switch (h : y.Inv) (next : Nat)
    (hcall : ∀ c, y.calls y.running = some c → c.batch = none) : Inv { y with running := next } where
  pipe := h.pipe
  call := h.call
  waiting := by
    intro tid c hc _
    by_cases htid : tid = y.running
    · exact hcall c (htid ▸ hc)
    · exact h.waiting hc htid

theorem Inv.frame (h : y.Inv) (mem : Memory) (strong fds : Nat) :
    Inv { y with pipe := { y.pipe with mem := mem, strong := strong }, fds := fds } where
  pipe := ⟨h.pipe.ring, h.pipe.fifo⟩
  call := fun hc => ⟨(h.call hc).position, (h.call hc).batch_le⟩
  waiting := h.waiting

theorem Inv.start_call (h : y.Inv) (kind : CallKind) (buf : UserBuffer) :
    Inv { y with calls := update y.calls y.running (some (.start kind buf)) } := by
  refine h.set_call h.pipe ?_
  rintro c ⟨⟩
  exact ⟨buf.position_intoIter, by rintro n ⟨⟩⟩

theorem Step.inv (h : y.Inv) (hstep : Step y y') : y'.Inv := by
  cases hstep with
  | more hcall hstep =>
    obtain ⟨hs, hc⟩ := Call.step_ok (h.call hcall) h.pipe hstep
    refine h.set_call hs ?_
    rintro c ⟨⟩
    exact hc
  | suspend next hcall hstep =>
    obtain ⟨rfl, rfl, hbatch⟩ := Call.step_ok (h.call hcall) h.pipe hstep
    rw [← hcall, update_eq_self]
    refine h.switch next fun c hc => ?_
    rw [hcall, Option.some.injEq] at hc
    exact hc ▸ hbatch
  | @ret c _ _ hcall hstep =>
    obtain ⟨rfl, -⟩ := Call.step_ok (h.call hcall) h.pipe hstep
    have hnone : Inv { y with calls := update y.calls y.running none } :=
      h.set_call h.pipe (by rintro c ⟨⟩)
    cases c.kind with
    | read => exact hnone
    | write => exact hnone.frame y.pipe.mem (y.pipe.strong - 1) y.fds
  | read buf _ => exact h.start_call .read buf
  | write buf _ _ =>
    exact (h.start_call .write buf).frame y.pipe.mem (y.pipe.strong + 1) y.fds
  | dup _ _ => exact h.frame y.pipe.mem (y.pipe.strong + 1) (y.fds + 1)
  | close _ _ => exact h.frame y.pipe.mem (y.pipe.strong - 1) (y.fds - 1)
  | other mem next hidle =>
    refine (h.frame mem y.pipe.strong y.fds).switch next fun c hc => ?_
    rw [hidle] at hc
    cases hc

theorem Reachable.inv (h : Reachable y) : y.Inv := by
  induction h with
  | start mem running => exact inv_makePipe mem running
  | step _ hstep ih => exact hstep.inv ih

end Steps

end PipeSystem

/-- **A pipe is a bounded FIFO.**  In every state of every interleaving the bytes stored by all
writers are the bytes handed to readers followed by the bytes in the ring, of which there are at
most 32; what can be read and what can be written add up to 32; a call of `write` that returns
returns the length of its buffer; and a call of `read` that returns returns the length of its
buffer, or less only if the ring is empty and every write end has been dropped. -/
theorem pipe_is_bounded_fifo {y : PipeSystem} (h : y.Reachable) :
    y.pipe.stored = y.pipe.handed ++ y.pipe.ring.contents ∧
    y.pipe.ring.contents.length = y.pipe.ring.availableRead ∧
    y.pipe.ring.availableRead + y.pipe.ring.availableWrite = 32 ∧
    ∀ c n s', y.calls y.running = some c → c.step y.pipe = some (.ret n s') →
      match c.kind with
      | .write => n = c.len
      | .read => n = c.len ∨
          (n < c.len ∧ y.pipe.ring.availableRead = 0 ∧ y.pipe.allWriteEndsClosed = true) := by
  have hinv := h.inv
  refine ⟨hinv.pipe.fifo, length_window _ _ _ _,
    hinv.pipe.ring.availableRead_add_availableWrite, ?_⟩
  intro c n s' hcall hstep
  obtain ⟨-, hle, hless⟩ := Call.step_ok (hinv.call hcall) hinv.pipe hstep
  cases hkind : c.kind with
  | write =>
    by_contra hne
    obtain ⟨hread, -⟩ := hless (by simp only at hne; omega)
    rw [hkind] at hread
    cases hread
  | read =>
    by_cases hfull : n = c.len
    · exact Or.inl hfull
    · have hlt : n < c.len := by omega
      obtain ⟨-, hempty, hclosed⟩ := hless hlt
      exact Or.inr ⟨hlt, hempty, by simpa [PipeState.allWriteEndsClosed] using hclosed⟩

/-- Thread 3 writes one byte with the value 7; the byte is in the ring, and the call returns 1. -/
theorem pipe_is_bounded_fifo_one_byte :
    ∃ y c s', PipeSystem.Reachable y ∧ y.calls y.running = some c ∧
      c.step y.pipe = some (.ret 1 s') ∧ c.len = 1 ∧ y.pipe.ring.contents = [7] := by
  have h₀ := PipeSystem.Reachable.start (fun _ => 7) 3
  have h₁ := h₀.step (.write ⟨[⟨0x1000, 1⟩]⟩ rfl (by decide))
  have h₂ := h₁.step (.more rfl rfl)
  have h₃ := h₂.step (.more rfl rfl)
  obtain ⟨hfifo, -, -, hret⟩ := pipe_is_bounded_fifo h₃
  exact ⟨_, _, _, h₃, rfl, rfl, (hret _ _ _ rfl rfl).symm, hfifo.symm⟩

end RCore.Fs
