import RCore.Fs.Pipe

/-!
# Calls that need not wait

A call finds out that its buffer is used up only by asking the iterator for one more
byte, and it asks only inside the inner loop.  If the buffer and a round of the inner
loop end together, the call goes back to the outer loop, finds nothing left in the ring
and suspends, although it has nothing left to do.
-/

namespace RCore.Fs

open RCore.Mm Function

namespace Call

variable {iter : UserBufferIterator} {addrs : List Nat}

/-- The steps of a call until it suspends or returns. -/
def run : Nat → Call → PipeState → Option Outcome
  | 0, _, _ => none
  | steps + 1, c, s => do
      match ← c.step s with
      | .more c s => run steps c s
      | o => some o

/-- Without being interrupted the call comes to this outcome. -/
def Ends (c : Call) (s : PipeState) (o : Outcome) : Prop :=
  ∃ steps, run steps c s = some o

/-- A read from a pipe without write ends. -/
def AtEnd (c : Call) (s : PipeState) : Prop :=
  c.kind = .read ∧ s.strong = 0

end Call

/-- `write_byte` of the bytes at the addresses, or `read_byte` into them, one after the other. -/
def Transferred (kind : CallKind) (addrs : List Nat) (s s' : PipeState) : Prop :=
  match kind with
  | .write => s'.ring.contents = s.ring.contents ++ addrs.map s.mem ∧ s'.mem = s.mem
  | .read => s'.ring.contents = s.ring.contents.drop addrs.length ∧
      s'.mem = (addrs.zip s.ring.contents).foldl (fun mem p => Function.update mem p.1 p.2) s.mem

/-- The call transfers its whole buffer and returns its length without suspending. -/
def Completes (kind : CallKind) (buf : UserBuffer) (s : PipeState) : Prop :=
  ∃ s', (Call.start kind buf).Ends s (.ret buf.len s') ∧
    Transferred kind (buf.buffers.flatMap Slice.addrs) s s'

/-! ## Steps -/

section Steps

variable {c c' : Call} {s s' : PipeState} {o : Outcome} {n : Nat}

theorem Call.step_begin (hbatch : c.batch = none) (hpos : 0 < c.available s) :
    c.step s = some (.more { c with batch := some (c.available s) } s) := by
  cases hkind : c.kind with
  | read =>
    simp only [Call.available, hkind] at hpos ⊢
    simp only [Call.step, hkind, Call.readStep, hbatch, if_neg (Nat.ne_of_gt hpos)]
  | write =>
    simp only [Call.available, hkind] at hpos ⊢
    simp only [Call.step, hkind, Call.writeStep, hbatch, if_neg (Nat.ne_of_gt hpos)]

theorem Call.step_closed (hbatch : c.batch = none) (hzero : c.available s = 0)
    (hend : c.AtEnd s) : c.step s = some (.ret c.size s) := by
  obtain ⟨hkind, hclosed⟩ := hend
  simp only [Call.available, hkind] at hzero
  simp only [Call.step, hkind, Call.readStep, hbatch, hzero, if_true, PipeState.allWriteEndsClosed,
    hclosed, beq_self_eq_true]

theorem Call.step_wait (hbatch : c.batch = none) (hzero : c.available s = 0)
    (hend : ¬c.AtEnd s) : c.step s = some (.suspend c s) := by
  cases hkind : c.kind with
  | read =>
    have hopen : (s.strong == 0) = false := beq_false_of_ne fun h => hend ⟨hkind, h⟩
    simp only [Call.available, hkind] at hzero
    simp only [Call.step, hkind, Call.readStep, hbatch, hzero, if_true,
      PipeState.allWriteEndsClosed, hopen, Bool.false_eq_true, if_false]
  | write =>
    simp only [Call.available, hkind] at hzero
    simp only [Call.step, hkind, Call.writeStep, hbatch, hzero, if_true]

theorem Call.step_end (hbatch : c.batch = some 0) :
    c.step s = some (.more { c with batch := none } s) := by
  cases hkind : c.kind with
  | read => simp only [Call.step, hkind, Call.readStep, hbatch]
  | write => simp only [Call.step, hkind, Call.writeStep, hbatch]

theorem Call.step_outOfBounds (hbatch : c.batch = some (n + 1)) (hnext : c.iter.next = none) :
    c.step s = none := by
  cases hkind : c.kind with
  | read => simp only [Call.step, hkind, Call.readStep, hbatch, hnext]; rfl
  | write => simp only [Call.step, hkind, Call.writeStep, hbatch, hnext]; rfl

variable {iter : UserBufferIterator}

theorem Call.step_full (hbatch : c.batch = some (n + 1)) (hnext : c.iter.next = some (none, iter)) :
    c.step s = some (.ret c.size s) := by
  cases hkind : c.kind with
  | read => simp only [Call.step, hkind, Call.readStep, hbatch, hnext]; rfl
  | write => simp only [Call.step, hkind, Call.writeStep, hbatch, hnext]; rfl

theorem Call.step_transfer {addr : Nat} (hs : s.ring.Ok) (hbatch : c.batch = some (n + 1))
    (hnext : c.iter.next = some (some addr, iter)) (hpos : 0 < c.available s) : ∃ s',
      c.step s = some (.more { c with iter := iter, size := c.size + 1, batch := some n } s') ∧
      s'.ring.Ok ∧ c.available s = c.available s' + 1 ∧ s'.strong = s.strong ∧
      Transferred c.kind [addr] s s' := by
  cases hkind : c.kind with
  | read =>
    simp only [Call.available, hkind] at hpos ⊢
    obtain ⟨byte, ring, hread, hring, hcount, hcontents⟩ := hs.readByte hpos
    refine ⟨{ s with
      ring := ring
      mem := update s.mem addr byte
      handed := s.handed ++ [byte] }, ?_, hring, hcount, rfl, ?_, ?_⟩
    · simp only [Call.step, hkind, Call.readStep, hbatch, hnext, do_some, hread]
    · simp only [hcontents, List.length_singleton, List.drop_succ_cons, List.drop_zero]
    · simp only [hcontents, List.zip_cons_cons, List.zip_nil_left, List.foldl_cons, List.foldl_nil]
  | write =>
    simp only [Call.available, hkind] at hpos ⊢
    obtain ⟨ring, hwrite, hring, hcount, hcontents⟩ := hs.writeByte hpos (s.mem addr)
    have hsum := hs.availableRead_add_availableWrite
    have hsum' := hring.availableRead_add_availableWrite
    refine ⟨{ s with ring := ring, stored := s.stored ++ [s.mem addr] }, ?_, hring, ?_, rfl,
      hcontents, rfl⟩
    · simp only [Call.step, hkind, Call.writeStep, hbatch, hnext, do_some, hwrite]
    · simp only
      omega

/-! ## Runs of one call -/

theorem Call.ends_of_more (hstep : c.step s = some (.more c' s')) :
    c.Ends s o ↔ c'.Ends s' o := by
  constructor
  · rintro ⟨steps, hrun⟩
    cases steps with
    | zero => cases hrun
    | succ steps =>
      rw [Call.run, hstep] at hrun
      exact ⟨steps, hrun⟩
  · rintro ⟨steps, hrun⟩
    refine ⟨steps + 1, ?_⟩
    rw [Call.run, hstep]
    exact hrun

theorem Call.ends_of_last {last : Outcome} (hstep : c.step s = some last)
    (hlast : ∀ c' s', last ≠ .more c' s') : c.Ends s o ↔ o = last := by
  have hrun (steps : Nat) : Call.run (steps + 1) c s = some last := by
    rw [Call.run, hstep]
    cases last with
    | more c' s' => exact absurd rfl (hlast c' s')
    | suspend c' s' => rfl
    | ret n s' => rfl
  constructor
  · rintro ⟨steps, hends⟩
    cases steps with
    | zero => cases hends
    | succ steps =>
      rw [hrun steps] at hends
      exact (Option.some.inj hends).symm
  · rintro rfl
    exact ⟨1, hrun 0⟩

theorem Call.not_ends_of_none (hstep : c.step s = none) : ¬c.Ends s o := by
  rintro ⟨steps, hrun⟩
  cases steps with
  | zero => cases hrun
  | succ steps =>
    rw [Call.run, hstep] at hrun
    cases hrun

theorem Transferred.nil (kind : CallKind) (s : PipeState) : Transferred kind [] s s := by
  cases kind with
  | read => exact ⟨rfl, rfl⟩
  | write => exact ⟨(List.append_nil _).symm, rfl⟩

theorem Transferred.cons {kind : CallKind} {addr : Nat} {s s₁ s' : PipeState}
    (h : Transferred kind [addr] s s₁) (hrest : Transferred kind addrs s₁ s')
    (hpos : kind = .read → 0 < s.ring.contents.length) : Transferred kind (addr :: addrs) s s' := by
  cases kind with
  | read =>
    obtain ⟨hring, hmem⟩ := h
    obtain ⟨hring', hmem'⟩ := hrest
    cases hcontents : s.ring.contents with
    | nil =>
      have hlt := hpos rfl
      rw [hcontents] at hlt
      exact absurd hlt (Nat.lt_irrefl 0)
    | cons byte rest =>
      simp only [hcontents, List.length_singleton, List.drop_succ_cons, List.drop_zero] at hring
      simp only [hcontents, List.zip_cons_cons, List.zip_nil_left, List.foldl_cons,
        List.foldl_nil] at hmem
      simp only [Transferred, hcontents, List.length_cons, List.drop_succ_cons,
        List.zip_cons_cons, List.foldl_cons]
      rw [hring', hmem', hring, hmem]
      exact ⟨rfl, rfl⟩
  | write =>
    obtain ⟨hring, hmem⟩ := h
    obtain ⟨hring', hmem'⟩ := hrest
    refine ⟨?_, hmem'.trans hmem⟩
    rw [hring', hring, hmem, List.append_assoc, ← List.map_append, List.singleton_append]

/-- Rounds of the inner loop for which the iterator has bytes. -/
theorem Call.ends_batch {addrs : List Nat} {rounds : Nat} (hs : s.ring.Ok)
    (hbatch : c.batch = some (n + rounds)) (htake : c.iter.take n = some (addrs, iter))
    (hn : n ≤ c.available s) : ∃ s',
      s'.ring.Ok ∧ c.available s = c.available s' + n ∧ s'.strong = s.strong ∧
      Transferred c.kind addrs s s' ∧ ∀ o, c.Ends s o ↔
        Call.Ends { c with iter := iter, size := c.size + n, batch := some rounds } s' o := by
  induction n generalizing c s addrs with
  | zero =>
    rw [UserBufferIterator.take, Option.some.injEq, Prod.mk.injEq] at htake
    obtain ⟨rfl, rfl⟩ := htake
    rw [Nat.zero_add] at hbatch
    refine ⟨s, hs, rfl, rfl, .nil _ _, fun o => ?_⟩
    rw [Nat.add_zero, ← hbatch]
  | succ n ih =>
    obtain ⟨addr, iter₁, rest, hnext, hrest, rfl⟩ :=
      UserBufferIterator.take_succ_eq_some.mp htake
    rw [Nat.add_right_comm] at hbatch
    obtain ⟨s₁, hstep, hs₁, hcount, hstrong, htransferred⟩ :=
      Call.step_transfer hs hbatch hnext (by omega)
    obtain ⟨s', hs', hcount', hstrong', htransferred', hends⟩ :=
      ih (c := { c with iter := iter₁, size := c.size + 1, batch := some (n + rounds) }) hs₁ rfl
        hrest (show n ≤ c.available s₁ by omega)
    have havailable : c.available s₁ = c.available s' + n := hcount'
    refine ⟨s', hs', by omega, hstrong'.trans hstrong, htransferred.cons htransferred' ?_,
      fun o => ?_⟩
    · intro hkind
      have hlength : s.ring.contents.length = c.available s := by
        simp only [Call.available, hkind]
        exact Lib.RingWindow.length_window _ _ _ _
      omega
    · rw [Call.ends_of_more hstep, hends o, Nat.add_assoc, Nat.add_comm 1 n]

theorem Call.not_ends_batch {rounds : Nat} (hs : s.ring.Ok) (hposition : c.iter.Position c.size)
    (hbatch : c.batch = some (n + rounds)) (htake : c.iter.take n = none)
    (hn : n ≤ c.available s) (hlen : c.size + n ≤ c.len) : ¬c.Ends s o := by
  induction n generalizing c s with
  | zero => cases htake
  | succ n ih =>
    rw [Nat.add_right_comm] at hbatch
    rcases hposition.next_of_lt (by rw [Call.len] at hlen; omega) with
      hnext | ⟨addr, iter, hnext⟩
    · exact Call.not_ends_of_none (Call.step_outOfBounds hbatch hnext)
    · obtain ⟨s₁, hstep, hs₁, hcount, -, -⟩ :=
        Call.step_transfer hs hbatch hnext (by omega)
      obtain ⟨hposition', hsame⟩ := hposition.next_some hnext
      have hlen' : Call.len { c with iter := iter } = c.len := by rw [Call.len, hsame, Call.len]
      rw [Call.ends_of_more hstep]
      refine ih hs₁ hposition' rfl ?_ (show n ≤ c.available s₁ by omega)
        (show c.size + 1 + n ≤ Call.len { c with iter := iter } by omega)
      cases hrest : iter.take n with
      | none => rfl
      | some r =>
        have hsome := UserBufferIterator.take_succ_eq_some.mpr
          ⟨addr, iter, r.1, hnext, hrest, rfl⟩
        rw [htake] at hsome
        cases hsome

end Steps

/-! ## Calls that transfer their whole buffer at once -/

/-- The iterator returns all bytes and then `None`: no slice is empty. -/
def Iterates (buf : UserBuffer) : Prop :=
  ∃ addrs, buf.intoIter.collect (buf.len + 1) = some addrs

/-- The iterator returns all bytes: an empty slice may come only after them. -/
def Fills (buf : UserBuffer) : Prop :=
  ∃ r, buf.intoIter.take buf.len = some r

section Completes

variable {kind : CallKind} {buf : UserBuffer} {s : PipeState}

theorem take_intoIter (htake : buf.intoIter.take buf.len = some (addrs, iter)) :
    iter.Position buf.len ∧ iter.buffers = buf.buffers ∧
      addrs = buf.buffers.flatMap Slice.addrs := by
  obtain ⟨hposition, hsame, haddrs⟩ := buf.position_intoIter.take htake
  rw [Nat.zero_add] at hposition
  refine ⟨hposition, hsame, haddrs.trans ?_⟩
  rw [List.drop_zero, UserBuffer.len_eq, ← length_flatMap_addrs]
  exact List.take_length

theorem iterates_iff (htake : buf.intoIter.take buf.len = some (addrs, iter)) :
    Iterates buf ↔ ∃ iter', iter.next = some (none, iter') := by
  have hcollect (addrs' : List Nat) : buf.intoIter.collect (buf.len + 1) = some addrs' ↔
      ∃ it it', buf.intoIter.take buf.len = some (addrs', it) ∧ it.next = some (none, it') :=
    buf.position_intoIter.collect_eq_some (Nat.zero_add buf.len)
  constructor
  · rintro ⟨addrs', haddrs'⟩
    obtain ⟨iter', iter'', htake', hnone⟩ := (hcollect addrs').mp haddrs'
    cases htake.symm.trans htake'
    exact ⟨iter'', hnone⟩
  · rintro ⟨iter', hnone⟩
    exact ⟨addrs, (hcollect addrs).mpr ⟨iter, iter', htake, hnone⟩⟩

theorem not_iterates {buf : UserBuffer} (htake : buf.intoIter.take buf.len = none) :
    ¬Iterates buf := by
  rintro ⟨addrs, haddrs⟩
  obtain ⟨iter', iter'', htake', -⟩ :=
    (buf.position_intoIter.collect_eq_some (Nat.zero_add buf.len)).mp haddrs
  rw [htake] at htake'
  cases htake'

theorem ends_drained {c : Call} {s' : PipeState} {n : Nat} (hbatch : c.batch = none)
    (hzero : c.available s = 0) (hsize : c.size = n) :
    c.Ends s (.ret n s') ↔ c.AtEnd s ∧ s' = s := by
  by_cases hend : c.AtEnd s
  · rw [Call.ends_of_last (Call.step_closed hbatch hzero hend) (by rintro _ _ ⟨⟩), hsize]
    simp only [Outcome.ret.injEq, true_and, hend]
  · rw [Call.ends_of_last (Call.step_wait hbatch hzero hend) (by rintro _ _ ⟨⟩)]
    simp only [hend, false_and, reduceCtorEq]

theorem completes_iff_atEnd (hzero : (Call.start kind buf).available s = 0) (hlen : buf.len = 0) :
    Completes kind buf s ↔ (Call.start kind buf).AtEnd s := by
  have haddrs : buf.buffers.flatMap Slice.addrs = [] := by
    rw [← List.length_eq_zero_iff, length_flatMap_addrs, ← UserBuffer.len_eq, hlen]
  rw [Completes, haddrs]
  constructor
  · rintro ⟨s', hends, -⟩
    exact ((ends_drained rfl hzero hlen.symm).mp hends).1
  · intro hend
    exact ⟨s, (ends_drained rfl hzero hlen.symm).mpr ⟨hend, rfl⟩, .nil kind s⟩

theorem not_completes (hs : s.ring.Ok) (hle : buf.len ≤ (Call.start kind buf).available s)
    (htake : buf.intoIter.take buf.len = none) : ¬Completes kind buf s := by
  rintro ⟨s', hends, -⟩
  have hpos : 0 < (Call.start kind buf).available s := by
    by_contra hzero
    rw [(by omega : buf.len = 0)] at htake
    cases htake
  rw [Call.ends_of_more (Call.step_begin rfl hpos)] at hends
  have hsplit : buf.len + ((Call.start kind buf).available s - buf.len) =
      (Call.start kind buf).available s := by omega
  exact Call.not_ends_batch (c := ⟨kind, buf.intoIter, 0, some ((Call.start kind buf).available s)⟩)
    hs buf.position_intoIter (by rw [← hsplit]) htake hle (Nat.le_of_eq (Nat.zero_add buf.len))
    hends

theorem ends_start {addrs : List Nat} {iter : UserBufferIterator} (hs : s.ring.Ok)
    (hle : buf.len ≤ (Call.start kind buf).available s)
    (hpos : 0 < (Call.start kind buf).available s)
    (htake : buf.intoIter.take buf.len = some (addrs, iter)) : ∃ s', s'.strong = s.strong ∧
      (Call.start kind buf).available s = (Call.start kind buf).available s' + buf.len ∧
      Transferred kind addrs s s' ∧ ∀ o, (Call.start kind buf).Ends s o ↔
        Call.Ends ⟨kind, iter, buf.len, some ((Call.start kind buf).available s - buf.len)⟩ s' o := by
  have hsplit : buf.len + ((Call.start kind buf).available s - buf.len) =
      (Call.start kind buf).available s := by omega
  obtain ⟨s', -, hcount, hstrong, htransferred, hends⟩ :=
    Call.ends_batch (c := ⟨kind, buf.intoIter, 0, some ((Call.start kind buf).available s)⟩) hs
      (by rw [← hsplit]) htake hle
  refine ⟨s', hstrong, hcount, htransferred, fun o => ?_⟩
  rw [Call.ends_of_more (Call.step_begin rfl hpos)]
  exact (hends o).trans (by rw [Nat.zero_add])

/-- A buffer for which the ring has enough is transferred at once exactly if the ring has
more than enough, or a read finds the pipe without write ends afterwards. -/
theorem completes_iff (hs : s.ring.Ok) (hle : buf.len ≤ (Call.start kind buf).available s) :
    Completes kind buf s ↔
      buf.len < (Call.start kind buf).available s ∧ Iterates buf ∨
      buf.len = (Call.start kind buf).available s ∧ (Call.start kind buf).AtEnd s ∧
        Fills buf := by
  rcases Nat.eq_zero_or_pos ((Call.start kind buf).available s) with hzero | hpos
  · have hlen : buf.len = 0 := by omega
    have hfills : Fills buf := ⟨([], buf.intoIter), by rw [hlen, UserBufferIterator.take]⟩
    rw [completes_iff_atEnd hzero hlen, hzero, hlen]
    simp only [Nat.lt_irrefl, false_and, false_or, true_and, hfills, and_true]
  · cases htake : buf.intoIter.take buf.len with
    | none =>
      have hfills : ¬Fills buf := by
        rintro ⟨r, hr⟩
        rw [htake] at hr
        cases hr
      simp only [not_completes hs hle htake, not_iterates htake, hfills, and_false, or_self]
    | some r =>
      obtain ⟨addrs, iter⟩ := r
      obtain ⟨hposition, hbuffers, rfl⟩ := take_intoIter htake
      obtain ⟨s', hstrong, hcount, htransferred, hends⟩ := ends_start hs hle hpos htake
      have hcompletes : Completes kind buf s ↔ ∃ s'', Call.Ends ⟨kind, iter, buf.len,
          some ((Call.start kind buf).available s - buf.len)⟩ s' (.ret buf.len s'') ∧
          Transferred kind (buf.buffers.flatMap Slice.addrs) s s'' :=
        exists_congr fun s'' => and_congr_left fun _ => hends _
      rw [hcompletes]
      rcases Nat.lt_or_eq_of_le hle with hlt | heq
      · -- the inner loop has a round left, in which it asks for one byte more
        obtain ⟨rounds, hrounds⟩ := Nat.exists_eq_add_of_lt hlt
        rw [(by omega : (Call.start kind buf).available s - buf.len = rounds + 1),
          iterates_iff htake]
        simp only [hlt, Nat.ne_of_lt hlt, true_and, false_and, or_false]
        constructor
        · rintro ⟨s'', hret, -⟩
          cases hnext : iter.next with
          | none => exact absurd hret (Call.not_ends_of_none (Call.step_outOfBounds rfl hnext))
          | some p =>
            obtain ⟨_ | addr, iter'⟩ := p
            · exact ⟨iter', rfl⟩
            · have hle' := (hposition.next_some hnext).1.le_len
              rw [(hposition.next_some hnext).2, hbuffers] at hle'
              exact absurd hle' (Nat.not_succ_le_self _)
        · rintro ⟨iter', hnext⟩
          exact ⟨s', (Call.ends_of_last (Call.step_full rfl hnext) (by rintro _ _ ⟨⟩)).mpr rfl,
            htransferred⟩
      · -- the inner loop has ended with the last byte
        have hzero : (Call.start kind buf).available s' = 0 := by omega
        have hdone (s'' : PipeState) : Call.Ends ⟨kind, iter, buf.len, some 0⟩ s'
            (.ret buf.len s'') ↔ (Call.start kind buf).AtEnd s ∧ s'' = s' := by
          rw [Call.ends_of_more (Call.step_end rfl),
            ends_drained (c := ⟨kind, iter, buf.len, none⟩) rfl hzero rfl]
          simp only [Call.AtEnd, Call.start, hstrong]
        have hfills : Fills buf := ⟨_, htake⟩
        rw [← heq, Nat.sub_self]
        simp only [hdone, Nat.lt_irrefl, false_and, false_or, true_and, hfills, and_true]
        constructor
        · rintro ⟨s'', ⟨hend, -⟩, -⟩
          exact hend
        · intro hend
          exact ⟨s', ⟨hend, rfl⟩, htransferred⟩

end Completes

/-! ## Interleavings -/

/-- A call whose buffer does not end together with the inner loop, and which does not come
back to an empty or full ring with its buffer used up. -/
def Call.Apart (c : Call) (s : PipeState) : Prop :=
  match c.batch with
  | some rounds => c.len - c.size ≠ rounds ∨ c.AtEnd s
  | none => c.size < c.len ∨ c.available s ≠ 0 ∨ c.AtEnd s

section Apart

variable {c c' : Call} {s s' : PipeState}

theorem Call.of_step_suspend (hs : s.Ok) (hc : c.Ok s)
    (hstep : c.step s = some (.suspend c' s')) :
    c.batch = none ∧ c.available s = 0 ∧ ¬c.AtEnd s := by
  cases hbatch : c.batch with
  | none =>
    rcases Nat.eq_zero_or_pos (c.available s) with hzero | hpos
    · refine ⟨rfl, hzero, fun hend => ?_⟩
      rw [Call.step_closed hbatch hzero hend] at hstep
      cases hstep
    · rw [Call.step_begin hbatch hpos] at hstep
      cases hstep
  | some rounds =>
    obtain ⟨-, -, hnone⟩ := Call.step_ok hc hs hstep
    rw [hbatch] at hnone
    cases hnone

theorem Call.Apart.of_more (h : c.Apart s) (hs : s.Ok) (hc : c.Ok s)
    (hcareful : c.batch = none → 0 < c.available s →
      c.len - c.size ≠ c.available s ∨ c.AtEnd s)
    (hstep : c.step s = some (.more c' s')) : c'.Apart s' := by
  rw [Call.Apart] at h
  rcases hbatch : c.batch with _ | _ | rounds
  · rcases Nat.eq_zero_or_pos (c.available s) with hzero | hpos
    · by_cases hend : c.AtEnd s
      · rw [Call.step_closed hbatch hzero hend] at hstep
        cases hstep
      · rw [Call.step_wait hbatch hzero hend] at hstep
        cases hstep
    · rw [Call.step_begin hbatch hpos] at hstep
      cases hstep
      exact hcareful hbatch hpos
  · rw [Call.step_end hbatch] at hstep
    cases hstep
    rw [hbatch] at h
    rcases h with hne | hend
    · exact .inl (Nat.lt_of_sub_ne_zero hne)
    · exact .inr (.inr hend)
  · cases hnext : c.iter.next with
    | none =>
      rw [Call.step_outOfBounds hbatch hnext] at hstep
      cases hstep
    | some p =>
      obtain ⟨_ | addr, iter⟩ := p
      · rw [Call.step_full hbatch hnext] at hstep
        cases hstep
      · have hpos : 0 < c.available s :=
          Nat.lt_of_lt_of_le (Nat.succ_pos rounds) (hc.batch_le _ hbatch)
        obtain ⟨s₁, hstep₁, -, -, hstrong, -⟩ := Call.step_transfer hs.ring hbatch hnext hpos
        rw [hstep₁] at hstep
        cases hstep
        obtain ⟨hposition, hsame⟩ := hc.position.next_some hnext
        have hlen : Call.len { c with iter := iter } = c.len := by
          rw [Call.len, hsame, Call.len]
        have hle : c.size + 1 ≤ Call.len { c with iter := iter } := hposition.le_len
        rw [hbatch] at h
        rcases h with hne | ⟨hkind, hclosed⟩
        · refine .inl (show Call.len { c with iter := iter } - (c.size + 1) ≠ rounds from ?_)
          omega
        · exact .inr ⟨hkind, hstrong.trans hclosed⟩

end Apart

namespace PipeSystem

/-- A step of the running thread in which no round of the inner loop begins with exactly the
bytes that its call has left, and no call with an empty buffer begins with nothing to
transfer, reads without write ends apart. -/
structure Careful (y y' : PipeSystem) : Prop where
  batch : ∀ c, y.calls y.running = some c → c.batch = none → 0 < c.available y.pipe →
    c.len - c.size ≠ c.available y.pipe ∨ c.AtEnd y.pipe
  start : ∀ c, y.calls y.running = none → y'.calls y.running = some c → c.len = 0 →
    c.available y.pipe ≠ 0 ∨ c.AtEnd y.pipe

/-- The states of the runs whose steps are all careful. -/
inductive CarefulReachable : PipeSystem → Prop where
  | start (mem : Memory) (running : Nat) : CarefulReachable (makePipe mem running)
  | step {y y' : PipeSystem} (h : CarefulReachable y) (hcareful : Careful y y')
      (hstep : Step y y') : CarefulReachable y'

/-- Calls that wait have bytes left, and the running call will not wait without. -/
structure Unfilled (y : PipeSystem) : Prop where
  waiting : ∀ {tid c}, y.calls tid = some c → tid ≠ y.running → c.size < c.len
  running : ∀ {c}, y.calls y.running = some c → c.Apart y.pipe

section Runs

variable {y y' : PipeSystem}

theorem CarefulReachable.reachable (h : CarefulReachable y) : Reachable y := by
  induction h with
  | start mem running => exact .start mem running
  | step _ _ hstep ih => exact ih.step hstep

theorem Unfilled.set_call (h : y.Unfilled) {s' : PipeState} {call : Option Call} {fds : Nat}
    (hcall : ∀ c, call = some c → c.Apart s') :
    Unfilled { y with
      pipe := s', fds := fds, calls := update y.calls y.running call } where
  waiting := by
    intro tid c hc htid
    simp only [update_of_ne htid] at hc
    exact h.waiting hc htid
  running := by
    intro c hc
    simp only [update_self] at hc
    exact hcall c hc

theorem Unfilled.switch (h : y.Unfilled) (hinv : y.Inv) (next : Nat) (s' : PipeState)
    (hcall : ∀ c, y.calls y.running = some c → c.batch = none ∧ c.size < c.len) :
    Unfilled { y with pipe := s', running := next } where
  waiting := by
    intro tid c hc _
    by_cases htid : tid = y.running
    · exact (hcall c (htid ▸ hc)).2
    · exact h.waiting hc htid
  running := by
    intro c hc
    have hc' : c.batch = none ∧ c.size < c.len := by
      by_cases hnext : next = y.running
      · exact hcall c (hnext ▸ hc)
      · exact ⟨hinv.waiting hc hnext, h.waiting hc hnext⟩
    rw [Call.Apart, hc'.1]
    exact .inl hc'.2

theorem Unfilled.idle (h : y.Unfilled) (hidle : y.calls y.running = none) (s' : PipeState)
    (fds : Nat) : Unfilled { y with pipe := s', fds := fds } where
  waiting := h.waiting
  running := by
    intro c hc
    rw [hidle] at hc
    cases hc

theorem Unfilled.start_call (h : y.Unfilled) {kind : CallKind} {buf : UserBuffer} {s' : PipeState}
    (hring : s'.ring = y.pipe.ring)
    (hstart : buf.len = 0 → (Call.start kind buf).available y.pipe ≠ 0 ∨
      (Call.start kind buf).AtEnd s') :
    Unfilled { y with
      pipe := s', calls := update y.calls y.running (some (.start kind buf)) } := by
  refine h.set_call ?_
  rintro c ⟨⟩
  rcases Nat.eq_zero_or_pos buf.len with hzero | hpos
  · refine .inr ((hstart hzero).imp_left ?_)
    rw [Call.available, Call.available, hring]
    exact id
  · exact .inl hpos

theorem Step.unfilled (hinv : y.Inv) (h : y.Unfilled) (hcareful : Careful y y')
    (hstep : Step y y') : y'.Unfilled := by
  cases hstep with
  | @more c c' s' hcall hstep =>
    refine h.set_call ?_
    rintro _ ⟨⟩
    exact (h.running hcall).of_more hinv.pipe (hinv.call hcall) (hcareful.batch c hcall) hstep
  | @suspend c c' s' next hcall hstep =>
    obtain ⟨hbatch, hzero, hend⟩ := Call.of_step_suspend hinv.pipe (hinv.call hcall) hstep
    obtain ⟨rfl, rfl, -⟩ := Call.step_ok (hinv.call hcall) hinv.pipe hstep
    have hapart := h.running hcall
    rw [Call.Apart, hbatch] at hapart
    have hlt : c'.size < c'.len :=
      hapart.resolve_right (not_or.mpr ⟨fun hne => hne hzero, hend⟩)
    rw [← hcall, update_eq_self]
    refine h.switch hinv next _ fun c hc => ?_
    rw [hcall, Option.some.injEq] at hc
    exact hc ▸ ⟨hbatch, hlt⟩
  | ret hcall hstep => exact h.set_call (by rintro _ ⟨⟩)
  | read buf hidle =>
    refine h.start_call rfl fun hlen => ?_
    exact hcareful.start _ hidle (update_self ..) hlen
  | write buf hidle hopen =>
    refine h.start_call rfl fun hlen => ?_
    refine (hcareful.start _ hidle (update_self ..) hlen).imp_right ?_
    rintro ⟨hkind, -⟩
    cases hkind
  | dup hidle hopen => exact h.idle hidle _ _
  | close hidle hopen => exact h.idle hidle _ _
  | other mem next hidle =>
    refine h.switch hinv next _ fun c hc => ?_
    rw [hidle] at hc
    cases hc

theorem CarefulReachable.unfilled (h : CarefulReachable y) : y.Unfilled := by
  induction h with
  | start mem running =>
    constructor
    · rintro tid c ⟨⟩
    · rintro c ⟨⟩
  | step h hcareful hstep ih => exact hstep.unfilled h.reachable.inv ih hcareful

end Runs

end PipeSystem

/-- **When calls finish without waiting.**  In every state that a pipe can reach, a buffer for
which the ring has enough room, or enough bytes, is transferred at once if and only if the
ring has more than enough, or the call is a read, the ring has exactly enough and no write
end is left.  And in every run in which no inner loop begins with exactly the bytes that its
call has left, no call suspends whose buffer is used up. -/
theorem pipe_calls_complete_iff (y : PipeSystem) (buf : UserBuffer) :
    (PipeSystem.Reachable y → buf.len ≤ y.pipe.ring.availableWrite →
      (Completes .write buf y.pipe ↔
        buf.len < y.pipe.ring.availableWrite ∧ Iterates buf)) ∧
    (PipeSystem.Reachable y → buf.len ≤ y.pipe.ring.availableRead →
      (Completes .read buf y.pipe ↔
        buf.len < y.pipe.ring.availableRead ∧ Iterates buf ∨
        buf.len = y.pipe.ring.availableRead ∧ y.pipe.allWriteEndsClosed = true ∧ Fills buf)) ∧
    (PipeSystem.CarefulReachable y → ∀ c c' s', y.calls y.running = some c →
      c.step y.pipe = some (.suspend c' s') → c.size < c.len) := by
  refine ⟨fun h hle => ?_, fun h hle => ?_, fun h c c' s' hcall hstep => ?_⟩
  · rw [completes_iff h.inv.pipe.ring hle]
    simp only [Call.AtEnd, Call.start, reduceCtorEq, false_and, and_false, or_false]
    rfl
  · rw [completes_iff h.inv.pipe.ring hle]
    simp only [Call.AtEnd, Call.start, true_and, PipeState.allWriteEndsClosed, beq_iff_eq]
    rfl
  · have hinv := h.reachable.inv
    obtain ⟨hbatch, hzero, hend⟩ := Call.of_step_suspend hinv.pipe (hinv.call hcall) hstep
    have hapart := h.unfilled.running hcall
    rw [Call.Apart, hbatch] at hapart
    exact hapart.resolve_right (not_or.mpr ⟨fun hne => hne hzero, hend⟩)

/-- Three bytes for an empty ring are stored at once; a read from it waits, with a byte left. -/
theorem pipe_calls_complete_iff_empty_ring :
    Completes .write ⟨[⟨0x1000, 2⟩, ⟨0x5000, 1⟩]⟩ (PipeSystem.makePipe (fun _ => 7) 3).pipe ∧
      ∃ y c s', PipeSystem.CarefulReachable y ∧ y.calls y.running = some c ∧
        c.step y.pipe = some (.suspend c s') ∧ c.size < c.len := by
  obtain ⟨hwrite, -, -⟩ := pipe_calls_complete_iff (PipeSystem.makePipe (fun _ => 7) 3)
    ⟨[⟨0x1000, 2⟩, ⟨0x5000, 1⟩]⟩
  refine ⟨(hwrite (.start _ _) (by decide)).mpr ⟨by decide, _, rfl⟩, ?_⟩
  have h := PipeSystem.CarefulReachable.start (fun _ => 7) 3
  have h' := h.step ⟨by rintro c ⟨⟩, by rintro c - ⟨⟩ hlen; cases hlen⟩
    (.read ⟨[⟨0x1000, 1⟩]⟩ rfl)
  exact ⟨_, _, _, h', rfl, rfl,
    (pipe_calls_complete_iff _ ⟨[⟨0x1000, 1⟩]⟩).2.2 h' _ _ _ rfl rfl⟩

/-- 32 bytes for an empty ring are not written at once; one byte is not read at once from a
ring that has one, while a write end is open; the read suspends after the byte. -/
theorem pipe_calls_wait_when_done :
    ¬Completes .write ⟨[⟨0x1000, 32⟩]⟩ (PipeSystem.makePipe (fun _ => 7) 3).pipe ∧
      (∃ y, PipeSystem.Reachable y ∧ y.pipe.ring.availableRead = 1 ∧
        ¬Completes .read ⟨[⟨0x2000, 1⟩]⟩ y.pipe) ∧
      ∃ y c s', PipeSystem.Reachable y ∧ y.calls y.running = some c ∧
        c.step y.pipe = some (.suspend c s') ∧ c.size = 1 ∧ c.len = 1 := by
  have h₀ := PipeSystem.Reachable.start (fun _ => 7) 3
  have h₁ := h₀.step (.write ⟨[⟨0x1000, 1⟩]⟩ rfl (by decide))
  have h₂ := h₁.step (.more rfl rfl)
  have h₃ := h₂.step (.more rfl rfl)
  have h₄ := h₃.step (.ret rfl rfl)
  have h₅ := h₄.step (.read ⟨[⟨0x2000, 1⟩]⟩ rfl)
  have h₆ := h₅.step (.more rfl rfl)
  have h₇ := h₆.step (.more rfl rfl)
  have h₈ := h₇.step (.more rfl rfl)
  refine ⟨?_, ⟨_, h₄, rfl, ?_⟩, _, _, _, h₈, rfl, rfl, rfl, rfl⟩
  · rw [completes_iff h₀.inv.pipe.ring (by decide)]
    rintro (⟨hlt, -⟩ | ⟨-, ⟨hkind, -⟩, -⟩)
    · exact absurd hlt (by decide)
    · cases hkind
  · rw [completes_iff h₄.inv.pipe.ring (by decide)]
    rintro (⟨hlt, -⟩ | ⟨-, ⟨-, hclosed⟩, -⟩)
    · exact absurd hlt (by decide)
    · cases hclosed

end RCore.Fs
